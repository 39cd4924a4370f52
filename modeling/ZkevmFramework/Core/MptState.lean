import ZkevmFramework.Core.MptRuns

/-!
# What lies below a reference

Three relations read the storage alone, through `GetFromStorage`:

* `RefFrom s ref ref'`: the walk from `ref` comes by the reference `ref'`,
* `HasEntry s ref q v`: a leaf or a non-empty branch value `v` lies at the
  path `q` below `ref`,
* `Spells s ref tr`: what lies below `ref` is the tree `tr`.

A represented tree is what its root spells (`Represents.spells`), and a state
spells one tree only (`Spells.unique`).
-/

namespace Core.Mpt

open Nibble Patricia

variable (ssz : SszLib)

/-- References on the way down from a reference. -/
inductive RefFrom (s : Storage) : Reference → Reference → Prop where
  | refl (ref : Reference) : RefFrom s ref ref
  | ext {ref ref' : Reference} {n : ExtensionNode} :
      getFromStorage ssz s ref = .ok (.extension n) → RefFrom s n.nextRef ref' → RefFrom s ref ref'
  | slot {ref ref' : Reference} {n : BranchNode} (i : Fin 16) :
      getFromStorage ssz s ref = .ok (.branch n) → RefFrom s (n.getBranches.getD i []) ref' →
      RefFrom s ref ref'

/-- A leaf, or a non-empty branch value, at the path below a reference. -/
inductive HasEntry (s : Storage) : Reference → List (Fin 16) → Bytes → Prop where
  | leaf {ref : Reference} {n : LeafNode} :
      getFromStorage ssz s ref = .ok (.leaf n) → HasEntry s ref n.path.nibbles n.value
  | ext {ref : Reference} {n : ExtensionNode} {q : List (Fin 16)} {v : Bytes} :
      getFromStorage ssz s ref = .ok (.extension n) → HasEntry s n.nextRef q v →
      HasEntry s ref (n.path.nibbles ++ q) v
  | value {ref : Reference} {n : BranchNode} :
      getFromStorage ssz s ref = .ok (.branch n) → n.value ≠ [] → HasEntry s ref [] n.value
  | slot {ref : Reference} {n : BranchNode} {i : Fin 16} {q : List (Fin 16)} {v : Bytes} :
      getFromStorage ssz s ref = .ok (.branch n) → HasEntry s (n.getBranches.getD i []) q v →
      HasEntry s ref (i :: q) v

/-- The nodes below a reference, as a tree. -/
inductive Spells (s : Storage) : Reference → NodeTree → Prop where
  | empty : Spells s [] .empty
  | leaf {ref : Reference} {n : LeafNode} :
      getFromStorage ssz s ref = .ok (.leaf n) → Spells s ref (.leaf n.path.nibbles n.value)
  | ext {ref : Reference} {n : ExtensionNode} {c : NodeTree} :
      getFromStorage ssz s ref = .ok (.extension n) → Spells s n.nextRef c →
      Spells s ref (.ext n.path.nibbles c)
  | branch {ref : Reference} {n : BranchNode} {cs : Fin 16 → NodeTree} :
      getFromStorage ssz s ref = .ok (.branch n) →
      (∀ i : Fin 16, Spells s (n.getBranches.getD i []) (cs i)) → Spells s ref (.branch cs n.value)

variable {ssz}

theorem getBranches_getD (cs : Fin 16 → NodeTree) (v : Bytes) (i : Fin 16) :
    (BranchNode.mk (List.ofFn fun i => refOf (cs i)) v).getBranches.getD i [] = refOf (cs i) := by
  rw [getBranches_ofFn, ← toNat_toByte i]
  exact getD_ofFn (fun i => refOf (cs i)) i

/-! ## The tree below a reference -/

/-- A storage that holds a tree spells it. -/
theorem Holds.spells {t : NodeTree} {d : Nat} (hd : d < 2 ^ 31) (hw : Fits t d) {s : Storage}
    (hh : Holds s t) : Spells ssz s (refOf t) t := by
  induction t generalizing d with
  | empty => exact .empty
  | leaf p v =>
    obtain ⟨path, hread, rfl⟩ := read_leaf ssz hh (by have := hw.1; omega) hw.2
    exact .leaf hread
  | ext p c ih =>
    obtain ⟨-, hpd, -, hc⟩ := hw
    obtain ⟨path, hread, rfl⟩ := read_ext ssz hh.1 (by omega)
    exact .ext hread (ih (by omega) hc hh.2)
  | branch cs v ih =>
    refine .branch (read_branch ssz hh.1 hw.1) fun i => ?_
    rw [getBranches_getD]
    exact ih i (by omega) (hw.slot i) (hh.2 i)

theorem Spells.eq_empty {s : Storage} {t : NodeTree} (h : Spells ssz s [] t) : t = .empty := by
  cases h with
  | empty => rfl
  | leaf h => cases h
  | ext h _ => cases h
  | branch h _ => cases h

/-- **A reference spells one tree.** -/
theorem Spells.unique {s : Storage} {ref : Reference} {t t' : NodeTree} (h : Spells ssz s ref t)
    (h' : Spells ssz s ref t') : t = t' := by
  induction h generalizing t' with
  | empty => exact h'.eq_empty.symm
  | leaf hr =>
    cases h' with
    | empty => cases hr
    | leaf hr' => rw [hr] at hr'; cases hr'; rfl
    | ext hr' _ => rw [hr] at hr'; cases hr'
    | branch hr' _ => rw [hr] at hr'; cases hr'
  | ext hr _ ih =>
    cases h' with
    | empty => cases hr
    | leaf hr' => rw [hr] at hr'; cases hr'
    | ext hr' hc' => rw [hr] at hr'; cases hr'; rw [ih hc']
    | branch hr' _ => rw [hr] at hr'; cases hr'
  | branch hr _ ih =>
    cases h' with
    | empty => cases hr
    | leaf hr' => rw [hr] at hr'; cases hr'
    | ext hr' _ => rw [hr] at hr'; cases hr'
    | branch hr' hcs' => rw [hr] at hr'; cases hr'; rw [funext fun i => ih i (hcs' i)]

section Entries

variable {s : Storage} {ref : Reference} {q : List (Fin 16)} {v : Bytes}

theorem hasEntry_leaf_iff {n : LeafNode} (hr : getFromStorage ssz s ref = .ok (.leaf n)) :
    HasEntry ssz s ref q v ↔ n.path.nibbles = q ∧ n.value = v := by
  constructor
  · intro he
    cases he with
    | leaf hr' => rw [hr] at hr'; cases hr'; exact ⟨rfl, rfl⟩
    | ext hr' _ => rw [hr] at hr'; cases hr'
    | value hr' _ => rw [hr] at hr'; cases hr'
    | slot hr' _ => rw [hr] at hr'; cases hr'
  · rintro ⟨rfl, rfl⟩
    exact .leaf hr

theorem hasEntry_ext_iff {n : ExtensionNode} (hr : getFromStorage ssz s ref = .ok (.extension n)) :
    HasEntry ssz s ref q v ↔ ∃ r, n.path.nibbles ++ r = q ∧ HasEntry ssz s n.nextRef r v := by
  constructor
  · intro he
    cases he with
    | leaf hr' => rw [hr] at hr'; cases hr'
    | ext hr' he' => rw [hr] at hr'; cases hr'; exact ⟨_, rfl, he'⟩
    | value hr' _ => rw [hr] at hr'; cases hr'
    | slot hr' _ => rw [hr] at hr'; cases hr'
  · rintro ⟨r, rfl, he⟩
    exact .ext hr he

theorem hasEntry_value_iff {n : BranchNode} (hr : getFromStorage ssz s ref = .ok (.branch n)) :
    HasEntry ssz s ref [] v ↔ n.value ≠ [] ∧ n.value = v := by
  constructor
  · intro he
    generalize hq : ([] : List (Fin 16)) = q at he
    cases he with
    | leaf hr' => rw [hr] at hr'; cases hr'
    | ext hr' _ => rw [hr] at hr'; cases hr'
    | value hr' hv => rw [hr] at hr'; cases hr'; exact ⟨hv, rfl⟩
    | slot hr' _ => cases hq
  · rintro ⟨hv, rfl⟩
    exact .value hr hv

theorem hasEntry_slot_iff {n : BranchNode} {i : Fin 16}
    (hr : getFromStorage ssz s ref = .ok (.branch n)) :
    HasEntry ssz s ref (i :: q) v ↔ HasEntry ssz s (n.getBranches.getD i []) q v := by
  constructor
  · intro he
    generalize hq : i :: q = q' at he
    cases he with
    | leaf hr' => rw [hr] at hr'; cases hr'
    | ext hr' _ => rw [hr] at hr'; cases hr'
    | value hr' _ => cases hq
    | slot hr' he' => rw [hr] at hr'; cases hr'; cases hq; exact he'
  · intro he
    exact .slot hr he

theorem not_hasEntry_nil : ¬ HasEntry ssz s [] q v := by
  intro he
  cases he with
  | leaf hr => cases hr
  | ext hr _ => cases hr
  | value hr _ => cases hr
  | slot hr _ => cases hr

/-- **The entries below a reference are those of its tree.** -/
theorem Spells.hasEntry_iff {t : NodeTree} (h : Spells ssz s ref t) :
    HasEntry ssz s ref q v ↔ t.entry q = some v := by
  induction h generalizing q v with
  | empty =>
    rw [Tree.entry_empty]
    simp [not_hasEntry_nil]
  | leaf hr =>
    rw [hasEntry_leaf_iff hr, Tree.entry_leaf]
    split
    · next hq => simp [hq]
    · next hq =>
      constructor
      · intro h
        exact absurd h.1 hq
      · intro h
        cases h
  | @ext ref n c hr _ ih =>
    rw [hasEntry_ext_iff hr, Tree.entry_ext]
    constructor
    · rintro ⟨r, rfl, he⟩
      rw [if_pos (List.prefix_append _ _), List.drop_left]
      exact ih.mp he
    · intro he
      split at he
      · next hp =>
        obtain ⟨r, rfl⟩ := hp
        rw [List.drop_left] at he
        exact ⟨r, rfl, ih.mpr he⟩
      · cases he
  | branch hr _ ih =>
    cases q with
    | nil =>
      rw [hasEntry_value_iff hr, Tree.entry_branch_nil]
      split
      · next hv =>
        constructor
        · intro h
          exact absurd hv h.1
        · intro h
          cases h
      · next hv =>
        rw [Option.some_inj]
        exact and_iff_right hv
    | cons i q =>
      rw [hasEntry_slot_iff hr, Tree.entry_branch_cons]
      exact ih i

end Entries

namespace MerklePatriciaTrie

variable {t : MerklePatriciaTrie} {tr : NodeTree}

theorem Represents.spells (h : t.Represents tr) : Spells ssz t.storage t.root tr := by
  rw [h.root]
  exact (h.sound.holds h.logged).spells (by decide) h.fits

theorem Represents.hasEntry_iff (h : t.Represents tr) {q : List (Fin 16)} {v : Bytes} :
    HasEntry ssz t.storage t.root q v ↔ tr.entry q = some v :=
  h.spells.hasEntry_iff

theorem Represents.not_hasEntry_iff (h : t.Represents tr) {q : List (Fin 16)} :
    (∀ v, ¬ HasEntry ssz t.storage t.root q v) ↔ tr.entry q = none := by
  simp only [h.hasEntry_iff]
  exact Option.eq_none_iff_forall_ne_some.symm

end MerklePatriciaTrie

/-- **A non-empty value is an entry exactly when `get` returns it.** -/
theorem Run.hasEntry_iff_get {ops : List Op} {t : MerklePatriciaTrie} (h : Run ssz ops t)
    (hnc : NoCollision t.storage.stored) {key value : Bytes} (hv : value ≠ []) :
    HasEntry ssz t.storage t.root (pathFromKey key).nibbles value ↔ t.get ssz key = .ok value := by
  obtain ⟨tr, hrep⟩ := h.exists_represents hnc
  rw [hrep.hasEntry_iff]
  exact ⟨fun he => hrep.get_of_read (Tree.read_of_entry he),
    fun hg => Tree.entry_of_read (hrep.read_of_get hg) hv⟩

/-! ## Well-formed states -/

/-- Every reference below the root resolves and decodes, extensions lead to
branches, branches have all their slots, and no operation can run into an
error of the storage, of the handlers or of a path. -/
structure WellFormed (ssz : SszLib) (t : MerklePatriciaTrie) : Prop where
  resolves : ∀ ref, RefFrom ssz t.storage t.root ref → ref ≠ [] →
    (ref.length < 32 ∨ ∃ e, t.storage.nodes ref = some e) ∧
      ∃ n, getFromStorage ssz t.storage ref = .ok n
  extensions : ∀ ref n, RefFrom ssz t.storage t.root ref →
    getFromStorage ssz t.storage ref = .ok (.extension n) →
      0 < n.path.size ∧ ∃ b, getFromStorage ssz t.storage n.nextRef = .ok (.branch b)
  branches : ∀ ref n, RefFrom ssz t.storage t.root ref →
    getFromStorage ssz t.storage ref = .ok (.branch n) → n.branches.length = branchesNum
  set_ok : ∀ key value, value.length ≤ maxValueLen → ∃ t', t.set ssz key value = .ok () t'
  get_error : ∀ key e, t.get ssz key = .error e → e = .notInitialized ∨ e = .keyNotFound
  remove_error : ∀ key junk e t', junk.toNat < 16 → t.remove ssz junk key = .error e t' →
    e = .keyNotFound ∨ e = .removeError ∨ e = .emptyOptional

section Read

variable {s : Storage} {t : NodeTree} {d : Nat}

theorem Holds.resolves (hh : Holds s t) (hne : t.isEmpty = false) :
    (refOf t).length < 32 ∨ ∃ e, s.nodes (refOf t) = some e := by
  have hmk : ∀ e, s.Resolves e → (mkRef e).length < 32 ∨ ∃ e', s.nodes (mkRef e) = some e' := by
    intro e he
    unfold mkRef
    split
    · next h => exact .inl h
    · next h => exact .inr ⟨e, he (by omega)⟩
  cases t with
  | empty => cases hne
  | leaf p v => exact hmk _ hh
  | ext p c => exact hmk _ hh.1
  | branch cs v => exact hmk _ hh.1

theorem Holds.decodes (hh : Holds s t) (hd : d < 2 ^ 31) (hw : Fits t d)
    (hne : t.isEmpty = false) : ∃ n, getFromStorage ssz s (refOf t) = .ok n := by
  cases t with
  | empty => cases hne
  | leaf p v =>
    obtain ⟨path, hread, -⟩ := read_leaf ssz hh (by have := hw.1; omega) hw.2
    exact ⟨_, hread⟩
  | ext p c =>
    obtain ⟨path, hread, -⟩ := read_ext ssz hh.1 (by have := hw.2.1; omega)
    exact ⟨_, hread⟩
  | branch cs v => exact ⟨_, read_branch ssz hh.1 hw.1⟩

/-- An extension node that is read is the one of the tree. -/
theorem Holds.of_extension (hh : Holds s t) (hd : d < 2 ^ 31) (hw : Fits t d)
    {n : ExtensionNode} (hr : getFromStorage ssz s (refOf t) = .ok (.extension n)) :
    ∃ c, t = .ext n.path.nibbles c ∧ n.nextRef = refOf c := by
  cases t with
  | empty => cases hr
  | leaf p v =>
    obtain ⟨path, hread, -⟩ := read_leaf ssz hh (by have := hw.1; omega) hw.2
    rw [hread] at hr
    cases hr
  | ext p c =>
    obtain ⟨path, hread, rfl⟩ := read_ext ssz hh.1 (by have := hw.2.1; omega)
    rw [hread] at hr
    cases hr
    exact ⟨c, rfl, rfl⟩
  | branch cs v =>
    rw [read_branch ssz hh.1 hw.1] at hr
    cases hr

theorem Holds.of_branch (hh : Holds s t) (hd : d < 2 ^ 31) (hw : Fits t d)
    {n : BranchNode} (hr : getFromStorage ssz s (refOf t) = .ok (.branch n)) :
    ∃ cs, t = .branch cs n.value ∧ n.branches = List.ofFn fun i => refOf (cs i) := by
  cases t with
  | empty => cases hr
  | leaf p v =>
    obtain ⟨path, hread, -⟩ := read_leaf ssz hh (by have := hw.1; omega) hw.2
    rw [hread] at hr
    cases hr
  | ext p c =>
    obtain ⟨path, hread, -⟩ := read_ext ssz hh.1 (by have := hw.2.1; omega)
    rw [hread] at hr
    cases hr
  | branch cs v =>
    rw [read_branch ssz hh.1 hw.1] at hr
    cases hr
    exact ⟨cs, rfl, rfl⟩

/-- **The references below a tree are those of its subtrees.** -/
theorem RefFrom.subtree {ref : Reference} (h : RefFrom ssz s (refOf t) ref) (hd : d < 2 ^ 31)
    (hw : Fits t d) (hh : Holds s t) :
    ∃ t' d', ref = refOf t' ∧ d' < 2 ^ 31 ∧ Fits t' d' ∧ Holds s t' := by
  generalize hroot : refOf t = root at h
  induction h generalizing t d with
  | refl => exact ⟨t, d, hroot.symm, hd, hw, hh⟩
  | ext hr _ ih =>
    subst hroot
    obtain ⟨c, rfl, hc⟩ := hh.of_extension hd hw hr
    exact ih (by omega) hw.2.2.2 hh.2 hc.symm
  | @slot ref ref' n i hr _ ih =>
    subst hroot
    obtain ⟨cs, rfl, hcs⟩ := hh.of_branch hd hw hr
    apply ih (d := d - 1) (by omega) (hw.slot i) (hh.2 i)
    rw [show n = ⟨n.branches, n.value⟩ from rfl, hcs, getBranches_getD]

end Read

/-- **Every state a run reaches is well-formed.** -/
theorem Run.wellFormed {ops : List Op} {t : MerklePatriciaTrie} (h : Run ssz ops t)
    (hnc : NoCollision t.storage.stored) : WellFormed ssz t := by
  obtain ⟨tr, hrep⟩ := h.exists_represents hnc
  have hsub : ∀ ref, RefFrom ssz t.storage t.root ref → ∃ t' d', ref = refOf t' ∧ d' < 2 ^ 31 ∧
      Fits t' d' ∧ Holds t.storage t' := by
    intro ref href
    rw [hrep.root] at href
    exact href.subtree (by decide) hrep.fits (hrep.sound.holds hrep.logged)
  constructor
  case resolves =>
    intro ref href hne
    obtain ⟨t', d', rfl, hd, hw, hh⟩ := hsub ref href
    have hne' : t'.isEmpty = false := by
      by_contra h0
      exact hne ((refOf_eq_nil_iff t').mpr ((Tree.isEmpty_iff t').mp (by simpa using h0)))
    exact ⟨hh.resolves hne', hh.decodes hd hw hne'⟩
  case extensions =>
    intro ref n href hr
    obtain ⟨t', d', rfl, hd, hw, hh⟩ := hsub ref href
    obtain ⟨c, rfl, hc⟩ := hh.of_extension hd hw hr
    obtain ⟨hp, hpd, hb, hwc⟩ := hw
    obtain ⟨cs, v, rfl⟩ := (Tree.isBranch_iff c).mp hb
    have hread := read_branch ssz hh.2.1 hwc.1
    rw [← hc] at hread
    exact ⟨(size_pos_iff (small_of_le hd rfl hpd)).mpr hp, _, hread⟩
  case branches =>
    intro ref n href hr
    obtain ⟨t', d', rfl, hd, hw, hh⟩ := hsub ref href
    obtain ⟨cs, -, hcs⟩ := hh.of_branch hd hw hr
    rw [hcs, List.length_ofFn]
    rfl
  case set_ok =>
    intro key value hv
    obtain ⟨t', ht', -⟩ := hrep.set_eq ssz key hv
    exact ⟨t', ht'⟩
  case get_error =>
    intro key e he
    rw [hrep.get_eq ssz] at he
    split at he
    · cases he; exact .inl rfl
    · split at he <;> cases he
      exact .inr rfl
  case remove_error =>
    intro key junk e t' hj he
    cases hne : tr.isEmpty with
    | true =>
      rw [hrep.remove_empty hne] at he
      cases he
    | false =>
      rcases hrep.remove_error hne he with ⟨hx, -⟩ | ⟨-, rfl, -⟩ | ⟨tr', -, rfl, -⟩
      · rcases (erase_error_iff _ hrep.fits hne).mp hx with ⟨h1, -⟩ | ⟨-, h1, -⟩
        · exact .inl h1
        · rw [junkSlot, dif_pos hj] at h1
          cases h1
      · exact .inr (.inr rfl)
      · exact .inr (.inl rfl)

theorem wellFormed_removed :
    WellFormed .standard (exec .standard [.remove [0x22] 0, .set [0x34] [2], .set [0x22] [1]]) :=
  Run.wellFormed setRemoved.run_ops setRemoved.noCollision_ops

end Core.Mpt
