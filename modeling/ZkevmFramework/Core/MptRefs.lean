import Mathlib.Data.List.Pairwise
import ZkevmFramework.Core.Mpt
import ZkevmFramework.Lib.PatriciaInsert

/-!
# References spell out trees

`refOf` gives the reference of a Patricia tree: the encoding of its top node,
or its hash from 32 bytes on.  `Logged s t`: every long encoding below `t` was
stored; `Sound s`: everything stored is still found under its hash.  Under both
the storage gives back the tree node by node (`read_leaf`, `read_ext`,
`read_branch`), and what the handlers store is the tree they build (`put_leaf`,
`put_ext`, `put_branch`).
-/

namespace Core.Mpt

open Patricia

abbrev NodeTree := Tree (Fin 16) Bytes

/-- The reference `PutToStorage` returns for an encoding. -/
def mkRef (encoded : Bytes) : Reference := if encoded.length < 32 then encoded else basicHash encoded

def refOf : NodeTree → Reference
  | .empty => []
  | .leaf p v => mkRef (leafBytes p v)
  | .ext p c => mkRef (extBytes p (refOf c))
  | .branch cs v => mkRef (branchBytes (List.ofFn fun i => refOf (cs i)) v)

/-- Every encoding of at least 32 bytes below the tree satisfies `P`. -/
def Kept (P : Bytes → Prop) : NodeTree → Prop
  | .empty => True
  | .leaf p v => 32 ≤ (leafBytes p v).length → P (leafBytes p v)
  | .ext p c => (32 ≤ (extBytes p (refOf c)).length → P (extBytes p (refOf c))) ∧ Kept P c
  | .branch cs v =>
    (32 ≤ (branchBytes (List.ofFn fun i => refOf (cs i)) v).length →
      P (branchBytes (List.ofFn fun i => refOf (cs i)) v)) ∧ ∀ i, Kept P (cs i)

theorem Kept.mono {P Q : Bytes → Prop} (h : ∀ e, P e → Q e) {t : NodeTree} (ht : Kept P t) :
    Kept Q t := by
  induction t with
  | empty => trivial
  | leaf p v => exact fun hl => h _ (ht hl)
  | ext p c ih => exact ⟨fun hl => h _ (ht.1 hl), ih ht.2⟩
  | branch cs v ih => exact ⟨fun hl => h _ (ht.1 hl), fun i => ih i (ht.2 i)⟩

/-- All long encodings below the tree were stored. -/
def Logged (s : Storage) (t : NodeTree) : Prop := Kept (· ∈ s.stored) t

/-- Values within the capacity, and at most `d` nibbles on every way down. -/
def Fits (t : NodeTree) (d : Nat) : Prop := Tree.WF (fun v => v.length ≤ maxValueLen) t d

/-! ## Lengths -/

theorem length_foldl_set (f : Bytes → Nat → Bytes) (hf : ∀ r i, (f r i).length = r.length)
    (l : List Nat) (r : Bytes) : (l.foldl f r).length = r.length := by
  induction l generalizing r with
  | nil => rfl
  | cons a l ih => rw [List.foldl_cons, ih, hf]

@[simp] theorem length_basicHash (key : Bytes) : (basicHash key).length = 64 := by
  unfold basicHash
  simp only []
  rw [length_foldl_set _ (by simp), length_foldl_set _ (by simp), List.length_replicate]

theorem length_mkRef_le (e : Bytes) : (mkRef e).length ≤ maxRefLen := by
  unfold mkRef maxRefLen
  split
  · omega
  · simp

theorem length_refOf_le (t : NodeTree) : (refOf t).length ≤ maxRefLen := by
  cases t with
  | empty => exact Nat.zero_le _
  | _ => exact length_mkRef_le _

theorem mkRef_ne_nil {e : Bytes} (h : e ≠ []) : mkRef e ≠ [] := by
  unfold mkRef
  split
  · exact h
  · intro h0
    have := congrArg List.length h0
    simp at this

theorem refOf_eq_nil_iff (t : NodeTree) : refOf t = [] ↔ t = .empty := by
  cases t with
  | empty => simp [refOf]
  | leaf p v => simp [refOf, mkRef_ne_nil, leafBytes]
  | ext p c => simp [refOf, mkRef_ne_nil, extBytes]
  | branch cs v => simp [refOf, mkRef_ne_nil, branchBytes]

theorem refs_inLimits (cs : Fin 16 → NodeTree) :
    (List.ofFn fun i => refOf (cs i)).length ≤ branchesNum ∧
      ∀ r ∈ List.ofFn fun i => refOf (cs i), r.length ≤ maxRefLen := by
  refine ⟨by simp [branchesNum], ?_⟩
  intro r hr
  obtain ⟨i, rfl⟩ := List.mem_ofFn.mp hr
  exact length_refOf_le _

/-! ## Storage over time -/

/-- `s'` comes from `s` by storing encodings. -/
inductive Storage.Grows (s : Storage) : Storage → Prop where
  | refl : Grows s s
  | put {s' : Storage} (e : Bytes) : Grows s s' → Grows s (s'.put e)

theorem Storage.Grows.trans {s s' s'' : Storage} (h : s.Grows s') (h' : s'.Grows s'') :
    s.Grows s'' := by
  induction h' with
  | refl => exact h
  | put e _ ih => exact .put e ih

theorem Storage.Grows.subset {s s' : Storage} (h : s.Grows s') : s.stored ⊆ s'.stored := by
  induction h with
  | refl => exact fun _ h => h
  | put e _ ih => exact fun x hx => List.mem_cons_of_mem _ (ih hx)

theorem Storage.Grows.logged {s s' : Storage} (h : s.Grows s') {t : NodeTree} (ht : Logged s t) :
    Logged s' t :=
  Kept.mono (fun _ he => h.subset he) ht

/-- No two different encodings in the list have the same hash. -/
def NoCollision (l : List Bytes) : Prop :=
  ∀ a ∈ l, ∀ b ∈ l, basicHash a = basicHash b → a = b

theorem noCollision_iff_pairwise (l : List Bytes) :
    (l.Pairwise fun a b => a = b ∨ basicHash a ≠ basicHash b) ↔ NoCollision l := by
  constructor
  · intro h a ha b hb hab
    have hsymm : Std.Symm fun a b => a = b ∨ basicHash a ≠ basicHash b :=
      ⟨fun a b h => h.imp Eq.symm fun h => h.symm⟩
    rcases List.Pairwise.forall_of_forall (fun a _ => .inl rfl) h ha hb with h | h
    · exact h
    · exact absurd hab h
  · intro h
    apply List.pairwise_of_forall_mem_list
    intro a ha b hb
    by_cases hab : a = b
    · exact .inl hab
    · exact .inr fun hh => hab (h a ha b hb hh)

instance (l : List Bytes) : Decidable (NoCollision l) :=
  decidable_of_iff _ (noCollision_iff_pairwise l)

theorem NoCollision.mono {l m : List Bytes} (h : NoCollision m) (hs : l ⊆ m) : NoCollision l :=
  fun a ha b hb => h a (hs ha) b (hs hb)

/-- What was stored is found under its hash. -/
def Storage.Sound (s : Storage) : Prop := ∀ e ∈ s.stored, s.nodes (basicHash e) = some e

theorem Storage.sound_empty : Storage.empty.Sound := by
  intro e he
  simp [Storage.empty] at he

/-- **Without collisions nothing stored is overwritten.** -/
theorem Storage.Grows.sound {s s' : Storage} (h : s.Grows s') (hs : s.Sound)
    (hnc : NoCollision s'.stored) : s'.Sound := by
  induction h with
  | refl => exact hs
  | @put s' e _ ih =>
    have hih := ih (hnc.mono fun x hx => List.mem_cons_of_mem _ hx)
    intro e' he'
    show Function.update s'.nodes (basicHash e) (some e) (basicHash e') = some e'
    by_cases hh : basicHash e' = basicHash e
    · have : e' = e := hnc e' he' e List.mem_cons_self hh
      rw [this, Function.update_self]
    · rw [Function.update_of_ne hh]
      rcases List.mem_cons.mp he' with rfl | he'
      · exact absurd rfl hh
      · exact hih e' he'

/-! ## Reading a node back -/

/-- The reference of `e` leads to `e` in `s`. -/
def Storage.Resolves (s : Storage) (e : Bytes) : Prop :=
  32 ≤ e.length → s.nodes (basicHash e) = some e

variable {ssz : SszLib}

theorem getFromStorage_mkRef {s : Storage} {e : Bytes} (h : s.Resolves e) :
    getFromStorage ssz s (mkRef e) = decodeNode ssz e := by
  unfold getFromStorage mkRef
  by_cases hl : e.length < 32
  · rw [if_pos hl, if_pos hl]
  · rw [if_neg hl, length_basicHash, if_neg (by decide), h (by omega)]

variable (ssz) in
theorem read_leaf {s : Storage} {p : List (Fin 16)} {v : Bytes} (h : s.Resolves (leafBytes p v))
    (hp : p.length < 2 ^ 31) (hv : v.length ≤ maxValueLen) :
    ∃ path, getFromStorage ssz s (refOf (.leaf p v)) = .ok (.leaf ⟨path, v⟩) ∧ path.nibbles = p := by
  rw [refOf, getFromStorage_mkRef h]
  exact decode_leafBytes ssz hp hv

variable (ssz) in
theorem read_ext {s : Storage} {p : List (Fin 16)} {c : NodeTree}
    (h : s.Resolves (extBytes p (refOf c))) (hp : p.length < 2 ^ 31) :
    ∃ path, getFromStorage ssz s (refOf (.ext p c)) = .ok (.extension ⟨path, refOf c⟩) ∧
      path.nibbles = p := by
  rw [refOf, getFromStorage_mkRef h]
  exact decode_extBytes ssz hp (length_refOf_le c)

variable (ssz) in
theorem read_branch {s : Storage} {cs : Fin 16 → NodeTree} {v : Bytes}
    (h : s.Resolves (branchBytes (List.ofFn fun i => refOf (cs i)) v))
    (hv : v.length ≤ maxValueLen) :
    getFromStorage ssz s (refOf (.branch cs v)) =
      .ok (.branch ⟨List.ofFn fun i => refOf (cs i), v⟩) := by
  rw [refOf, getFromStorage_mkRef h]
  exact decode_branchBytes ssz (refs_inLimits cs).1 (refs_inLimits cs).2 hv

/-! ## Storing a node -/

/-- The storage after `PutToStorage` of an encoding. -/
def Storage.keep (s : Storage) (e : Bytes) : Storage := if e.length < 32 then s else s.put e

theorem Storage.grows_keep (s : Storage) (e : Bytes) : s.Grows (s.keep e) := by
  unfold Storage.keep
  split
  · exact .refl
  · exact .put e .refl

theorem Storage.mem_keep (s : Storage) {e : Bytes} (h : 32 ≤ e.length) : e ∈ (s.keep e).stored := by
  rw [Storage.keep, if_neg (by omega)]
  exact List.mem_cons_self

theorem Storage.resolves_keep (s : Storage) (e : Bytes) : (s.keep e).Resolves e := by
  intro h
  rw [Storage.keep, if_neg (by omega)]
  exact Function.update_self ..

theorem putToStorage_eq {n : Node} {e : Bytes} (h : n.encode ssz = .ok e) (s : Storage) :
    putToStorage ssz n s = .ok (mkRef e) (s.keep e) := by
  simp only [putToStorage, h, liftExcept, bind, EStateM.bind, pure, EStateM.pure]
  unfold mkRef Storage.keep
  split <;> rfl

theorem put_leaf {path : Path} {v : Bytes} (hp : path.Small) (hv : v.length ≤ maxValueLen)
    (s : Storage) :
    putToStorage ssz (.leaf ⟨path, v⟩) s =
      .ok (refOf (.leaf path.nibbles v)) (s.keep (leafBytes path.nibbles v)) := by
  refine putToStorage_eq ?_ s
  have h0 : 0 ≤ path.size := by rw [Path.size_eq hp]; omega
  rw [← Path.visible_eq hp]
  exact encode_leaf ssz h0 hv

theorem put_ext {path : Path} (hp : path.Small) (c : NodeTree) (s : Storage) :
    putToStorage ssz (.extension ⟨path, refOf c⟩) s =
      .ok (refOf (.ext path.nibbles c)) (s.keep (extBytes path.nibbles (refOf c))) := by
  refine putToStorage_eq ?_ s
  have h0 : 0 ≤ path.size := by rw [Path.size_eq hp]; omega
  rw [← Path.visible_eq hp]
  exact encode_ext ssz h0 (length_refOf_le c)

theorem put_branch (cs : Fin 16 → NodeTree) {v : Bytes} (hv : v.length ≤ maxValueLen)
    (s : Storage) :
    putToStorage ssz (.branch ⟨List.ofFn fun i => refOf (cs i), v⟩) s =
      .ok (refOf (.branch cs v))
        (s.keep (branchBytes (List.ofFn fun i => refOf (cs i)) v)) := by
  refine putToStorage_eq ?_ s
  exact encode_branch ssz (refs_inLimits cs).1 (refs_inLimits cs).2 hv

end Core.Mpt
