import ZkevmFramework.Core.Erase
import ZkevmFramework.Core.MptGetSet

/-!
# `DeleteNode` refines `erase`

On a storage that holds a tree, `DeleteNode` reports what `erase` answers.  A
deletion that throws has stored nothing.
-/

namespace Core.Mpt

open Nibble Patricia

/-- The count of the source is the number of used slots. -/
theorem countP_refs (cs : Fin 16 → NodeTree) :
    ((List.ofFn fun i => refOf (cs i)).countP fun ref => ref ≠ []) = used cs := by
  rw [List.ofFn_eq_map, List.countP_map, used]
  congr 1
  funext i
  have := refOf_eq_nil_iff (cs i)
  rw [← Tree.isEmpty_iff] at this
  cases h : (cs i).isEmpty <;> simp [this, h]

/-! ## Computations that report a deletion -/

variable {ssz : SszLib}

/-- The top node, a leaf or an extension, is found under its reference. -/
def TopResolves (s : Storage) : NodeTree → Prop
  | .leaf p v => s.Resolves (leafBytes p v)
  | .ext p c => s.Resolves (extBytes p (refOf c))
  | _ => False

/-- The computation answers what the deletion on the tree answers; one that
throws has stored nothing. -/
def Reports (x : TrieM DeleteResult) (s : Storage) : Except Error Erased → Prop
  | .error e => x s = .error e s
  | .ok .deleted => x s = .ok ⟨.deleted, none⟩ s
  | .ok (.updated t) => ∃ s', x s = .ok (.updated (refOf t)) s' ∧ s.Grows s' ∧ Logged s' t
  | .ok (.useless t) => ∃ s' p, x s = .ok ⟨.uselessBranch, some ⟨p, some (refOf t)⟩⟩ s' ∧
      s.Grows s' ∧ Logged s' t ∧ TopResolves s' t

theorem Reports.congr {x y : TrieM DeleteResult} {s : Storage} {r : Except Error Erased}
    (h : x s = y s) (hy : Reports y s r) : Reports x s r := by
  rcases r with e | (_ | t | t) <;> simpa only [Reports, h] using hy

theorem reports_lift {α : Type} {x : Except Error α} {a : α} {f : α → TrieM DeleteResult}
    {s : Storage} {r : Except Error Erased} (h : x = .ok a) (hf : Reports (f a) s r) :
    Reports (liftExcept x >>= f) s r :=
  hf.congr (bind_ok (liftExcept_ok h s))

theorem reports_read {ref : Reference} {n : Node} {f : Node → TrieM DeleteResult} {s : Storage}
    {r : Except Error Erased} (h : getFromStorage ssz s ref = .ok n) (hf : Reports (f n) s r) :
    Reports (readNode ssz ref >>= f) s r :=
  hf.congr (bind_ok (readNode_ok h))

theorem reports_updated {x : TrieM Reference} {s : Storage} {t : NodeTree} (h : Builds x s t) :
    Reports (x >>= fun ref => pure (.updated ref)) s (.ok (.updated t)) := by
  obtain ⟨s', h1, hg, hl⟩ := h
  exact ⟨s', bind_ok h1, hg, hl⟩

/-- What is built after a deletion below was reported. -/
theorem Reports.of_grows {x y : TrieM DeleteResult} {s s' : Storage} {t : NodeTree}
    (h : x s = y s') (hg : s.Grows s') (hy : Reports y s' (.ok (.updated t))) :
    Reports x s (.ok (.updated t)) := by
  obtain ⟨s'', h1, hg', hl⟩ := hy
  exact ⟨s'', h.trans h1, hg.trans hg', hl⟩

variable (ssz) in
theorem reports_useless_leaf {path p : Path} {v : Bytes} (hp : path.Small)
    (hv : v.length ≤ maxValueLen) (s : Storage) :
    Reports (putToStorage ssz (.leaf ⟨path, v⟩) >>= fun ref =>
      pure ⟨.uselessBranch, some ⟨p, some ref⟩⟩) s (.ok (.useless (.leaf path.nibbles v))) :=
  ⟨_, p, bind_ok (put_leaf hp hv s), s.grows_keep _, fun hl => s.mem_keep hl,
    s.resolves_keep _⟩

variable (ssz) in
theorem reports_useless_ext {path p : Path} (hp : path.Small) {s : Storage} {c : NodeTree}
    (hc : Logged s c) :
    Reports (putToStorage ssz (.extension ⟨path, refOf c⟩) >>= fun ref =>
      pure ⟨.uselessBranch, some ⟨p, some ref⟩⟩) s (.ok (.useless (.ext path.nibbles c))) :=
  ⟨_, p, bind_ok (put_ext hp c s), s.grows_keep _,
    ⟨fun hl => s.mem_keep hl, (s.grows_keep _).logged hc⟩, s.resolves_keep _⟩

/-! ## DeleteHandler -/

theorem append_small {p q : Path} (hp : p.Small) (hq : q.Small)
    (h : p.nibbles.length + q.nibbles.length < 2 ^ 31) :
    ∃ r, p.append q = .ok r ∧ r.nibbles = p.nibbles ++ q.nibbles ∧ r.Small := by
  obtain ⟨r, hr, hn⟩ := Path.append_ok hp hq h
  exact ⟨r, hr, hn, by rwa [Path.Small, hn, List.length_append]⟩

/-- The path of one nibble that `BuildNewNodeFromLastBranch` makes. -/
theorem nibbles_prefixNibble (i : Fin 16) (h : 1 ≤ 2 * [UInt8.ofNat i.val].length) :
    (⟨[UInt8.ofNat i.val], 1, h⟩ : Path).nibbles = [i] := by
  have hlo : lo (UInt8.ofNat i.val) = i := lo_toByte i
  simp [Path.nibbles, unpack, hlo]

theorem small_prefixNibble (i : Fin 16) (h : 1 ≤ 2 * [UInt8.ofNat i.val].length) :
    (⟨[UInt8.ofNat i.val], 1, h⟩ : Path).Small := by
  rw [Path.Small, nibbles_prefixNibble, List.length_singleton]
  decide

theorem prefixNibble_append (i : Fin 16) (h : 1 ≤ 2 * [UInt8.ofNat i.val].length) (path : Path)
    (hp : path.nibbles.length + 1 < 2 ^ 31) :
    ∃ r, (⟨[UInt8.ofNat i.val], 1, h⟩ : Path).append path = .ok r ∧
      r.nibbles = i :: path.nibbles ∧ r.Small := by
  have hsm : path.Small := by unfold Path.Small; omega
  have hlen : (⟨[UInt8.ofNat i.val], 1, h⟩ : Path).nibbles.length + path.nibbles.length < 2 ^ 31 := by
    rw [nibbles_prefixNibble, List.length_singleton]
    omega
  obtain ⟨r, hr, hrn, hrs⟩ := append_small (small_prefixNibble i h) hsm hlen
  rw [nibbles_prefixNibble, List.singleton_append] at hrn
  exact ⟨r, hr, hrn, hrs⟩

/-- `std::find_if` stops at the only used slot. -/
theorem findIdx_refs {cs : Fin 16 → NodeTree} {i : Fin 16} (hi : (cs i).isEmpty = false)
    (hj : ∀ j, j ≠ i → (cs j).isEmpty = true) :
    ((List.ofFn fun i => refOf (cs i)).findIdx fun ref => ref ≠ []) = i.val := by
  have hlen : i.val < (List.ofFn fun i => refOf (cs i)).length := by simp
  rw [List.findIdx_eq hlen]
  constructor
  · rw [List.getElem_ofFn, decide_eq_true_eq, Ne, refOf_eq_nil_iff, ← Tree.isEmpty_iff]
    simp [hi]
  · intro j hji
    have hne : (⟨j, by omega⟩ : Fin 16) ≠ i := fun h => by
      rw [← h] at hji
      exact absurd hji (lt_irrefl _)
    rw [List.getElem_ofFn, decide_eq_false_iff_not, not_not, refOf_eq_nil_iff,
      ← Tree.isEmpty_iff]
    exact hj _ hne

theorem buildNewNodeFromLastBranch_reports {cs : Fin 16 → NodeTree} {i : Fin 16} {d : Nat}
    (hd : d < 2 ^ 31) (hi : (cs i).isEmpty = false) (hj : ∀ j, j ≠ i → (cs j).isEmpty = true)
    (hpos : 0 < d) (hw : Fits (cs i) (d - 1)) {s : Storage} (hh : Holds s (cs i))
    (hl : Logged s (cs i)) :
    Reports (buildNewNodeFromLastBranch ssz (List.ofFn fun i => refOf (cs i))) s
      (.ok (.useless (liftSlot i (cs i)))) := by
  have hget : (List.ofFn fun i => refOf (cs i)).getD i.val [] = refOf (cs i) := by
    rw [← toNat_toByte i]
    exact getD_ofFn (fun i => refOf (cs i)) i
  unfold buildNewNodeFromLastBranch
  simp only [findIdx_refs hi hj, hget, List.length_ofFn, if_neg (ne_of_lt i.isLt)]
  cases ht : cs i with
  | empty => rw [ht] at hi; simp at hi
  | leaf p v =>
    rw [ht] at hw hh
    have hpd := hw.1
    obtain ⟨path, hread, rfl⟩ := read_leaf ssz hh (by omega) hw.2
    obtain ⟨r, hr, hrn, hrs⟩ := prefixNibble_append i (by simp) path (by omega)
    apply reports_read hread
    apply reports_lift hr
    have key := reports_useless_leaf ssz hrs hw.2 s (p := r)
    rwa [hrn] at key
  | ext p c =>
    rw [ht] at hw hh hl
    have hpd := hw.2.1
    obtain ⟨path, hread, rfl⟩ := read_ext ssz hh.1 (by omega)
    obtain ⟨r, hr, hrn, hrs⟩ := prefixNibble_append i (by simp) path (by omega)
    apply reports_read hread
    apply reports_lift hr
    have key := reports_useless_ext ssz hrs hl.2 (p := r)
    rwa [hrn] at key
  | branch cs' v =>
    rw [ht] at hw hh hl
    apply reports_read (read_branch ssz hh.1 hw.1)
    have key := reports_useless_ext ssz (small_prefixNibble i (by simp)) hl
      (p := ⟨[UInt8.ofNat i.val], 1, by simp⟩)
    rwa [nibbles_prefixNibble] at key

/-- `ClearBranch` empties the slot the byte names, if there is one. -/
theorem clearBranch_refs (cs : Fin 16 → NodeTree) (v : Bytes) (b : UInt8) :
    BranchNode.clearBranch ⟨List.ofFn fun i => refOf (cs i), v⟩ b =
      match junkSlot b with
      | some i => .ok ⟨List.ofFn fun j => refOf (Function.update cs i .empty j), v⟩
      | none => .error .pastEnd := by
  unfold BranchNode.clearBranch junkSlot
  rw [List.length_ofFn]
  by_cases hb : b.toNat < 16
  · have hset := set_ofFn cs ⟨b.toNat, hb⟩ .empty
    rw [toNat_toByte] at hset
    rw [if_pos hb, dif_pos hb]
    exact congrArg (fun l => Except.ok (BranchNode.mk l v)) hset
  · rw [if_neg hb, dif_neg hb]

theorem handleBranchDeletion_reports {cs : Fin 16 → NodeTree} {v : Bytes} {d : Nat}
    (hd : d < 2 ^ 31) (hw : Fits (.branch cs v) d) {s : Storage} (hs : s.Sound)
    (hl : ∀ i, Logged s (cs i)) (idx : UInt8) :
    Reports (handleBranchDeletion ssz ⟨List.ofFn fun i => refOf (cs i), v⟩ idx) s
      (prune cs v (junkSlot idx)) := by
  unfold handleBranchDeletion prune
  simp only [getBranches_ofFn, countP_refs]
  by_cases h0 : used cs = 0
  · by_cases hv : v = []
    · simp only [h0, hv, and_self, if_true]
      exact rfl
    · simp only [h0, hv, and_false, if_false, ne_eq, not_false_eq_true, and_self, if_true]
      exact reports_useless_leaf ssz (show Path.empty.Small by simp [Path.Small, Path.empty]) hw.1 s
  · by_cases h1 : used cs = 1 ∧ v = []
    · obtain ⟨i, hi, hne, hj⟩ := used_eq_one h1.1
      obtain ⟨hpos, hf⟩ := hw.2 i hne
      simp only [h1, hi, and_self, if_true]
      exact buildNewNodeFromLastBranch_reports hd hne hj hpos hf (hs.holds (hl i)) (hl i)
    · simp only [h0, h1, false_and, if_false, clearBranch_refs]
      cases junkSlot idx with
      | none => exact rfl
      | some i =>
        exact reports_lift rfl
          (reports_updated (builds_branch (logged_update hl (show Logged s .empty from trivial) i) hw.1))

theorem handleUselessBranch_reports {ep p : Path} (hep : ep.Small) {t : NodeTree} {d : Nat}
    (hd : d < 2 ^ 31) (hpd : ep.nibbles.length ≤ d) (hw : Fits t (d - ep.nibbles.length))
    {ref : Reference} {s : Storage} (hl : Logged s t) (htop : TopResolves s t) :
    Reports (handleUselessBranch ssz ⟨ep, ref⟩ ⟨p, some (refOf t)⟩ (refOf t)) s
      (.ok (.updated (graft ep.nibbles t))) := by
  unfold handleUselessBranch
  cases t with
  | empty => exact htop.elim
  | branch cs v => exact htop.elim
  | leaf lp v =>
    have hlp := hw.1
    obtain ⟨path, hread, rfl⟩ := read_leaf ssz htop (by omega) hw.2
    have hsm := small_of_le (show d - ep.nibbles.length < 2 ^ 31 by omega) rfl hlp
    obtain ⟨r, hr, hrn, hrs⟩ := append_small hep hsm (by omega)
    apply reports_read hread
    apply reports_lift hr
    apply reports_updated
    rw [graft, ← hrn]
    exact builds_leaf hrs hw.2 s
  | ext xp c =>
    have hxp := hw.2.1
    obtain ⟨path, hread, rfl⟩ := read_ext ssz htop (by omega)
    have hsm := small_of_le (show d - ep.nibbles.length < 2 ^ 31 by omega) rfl hxp
    obtain ⟨r, hr, hrn, hrs⟩ := append_small hep hsm (by omega)
    apply reports_read hread
    apply reports_lift hr
    apply reports_updated
    rw [graft, ← hrn]
    exact builds_ext hrs hl.2

theorem setBranch_refs (cs : Fin 16 → NodeTree) (v : Bytes) (i : Fin 16) (t : NodeTree) :
    BranchNode.setBranch ⟨List.ofFn fun i => refOf (cs i), v⟩ (toByte i) (refOf t) =
      .ok ⟨List.ofFn fun j => refOf (Function.update cs i t j), v⟩ := by
  unfold BranchNode.setBranch
  rw [List.length_ofFn, if_pos (by rw [toNat_toByte]; exact i.isLt)]
  exact congrArg (fun l => Except.ok (BranchNode.mk l v)) (set_ofFn cs i t)

/-- A child that was replaced, or became a single node, goes back into its slot. -/
theorem replaceChild_reports {cs : Fin 16 → NodeTree} {v : Bytes} (hv : v.length ≤ maxValueLen)
    {i : Fin 16} {t : NodeTree} {s : Storage} (hl : ∀ j, Logged s (cs j)) (ht : Logged s t) :
    Reports (do
        let updated_branch ← liftExcept
          (BranchNode.setBranch ⟨List.ofFn fun i => refOf (cs i), v⟩ (toByte i) (refOf t))
        return .updated (← putToStorage ssz (.branch updated_branch))) s
      (.ok (.updated (.branch (Function.update cs i t) v))) :=
  reports_lift (setBranch_refs cs v i t) (reports_updated (builds_branch (logged_update hl ht i) hv))

theorem deleteLeaf_reports {lp path : Path} (hl : lp.Small) (hp : path.Small) (v : Bytes)
    (s : Storage) (junk : Option (Fin 16)) :
    Reports (deleteLeaf ⟨lp, v⟩ path) s (erase junk (.leaf lp.nibbles v) path.nibbles) := by
  have hbeq := Path.beq_iff_nibbles hp hl
  unfold deleteLeaf
  rw [erase]
  by_cases h : lp.nibbles = path.nibbles
  · rw [if_pos (hbeq.mpr h.symm), if_pos h]
    exact rfl
  · rw [if_neg (fun hb => h (hbeq.mp hb).symm), if_neg h]
    exact rfl

theorem deleteExtension_reports {rec : Reference → Path → TrieM DeleteResult} {ep path : Path}
    {c : NodeTree} {d : Nat} (hd : d < 2 ^ 31) (hw : Fits (.ext ep.nibbles c) d) (hep : ep.Small)
    (hp : path.Small) {s : Storage} {junk : Option (Fin 16)}
    (hrec : ep.nibbles <+: path.nibbles → ∀ p', p'.nibbles = path.nibbles.drop ep.nibbles.length →
      p'.Small → Reports (rec (refOf c) p') s (erase junk c p'.nibbles)) :
    Reports (deleteExtension ssz rec ⟨ep, refOf c⟩ path) s
      (erase junk (.ext ep.nibbles c) path.nibbles) := by
  obtain ⟨-, hpd, -, hc⟩ := hw
  have hstart := Path.startsWith_iff hp hep
  unfold deleteExtension
  rw [erase]
  by_cases h : ep.nibbles <+: path.nibbles
  · obtain ⟨p', hp1, hp2, hp3⟩ := consume_small hp h.length_le
    have hr := hrec h p' hp2 hp3
    rw [hp2] at hr
    rw [if_pos h, if_neg (not_not.mpr (hstart.mpr h)), toSizeT_size hep]
    apply reports_lift hp1
    cases he : erase junk c (path.nibbles.drop ep.nibbles.length) with
    | error e =>
      rw [he] at hr
      exact bind_error hr
    | ok r =>
      have hok := erase_ok hc he
      rw [he] at hr
      cases r with
      | deleted => exact bind_ok hr
      | updated t =>
        obtain ⟨s', h1, hg, hl⟩ := hr
        exact .of_grows (bind_ok h1) hg (reports_updated (builds_ext hep hl))
      | useless t =>
        obtain ⟨s', p, h1, hg, hl, htop⟩ := hr
        exact .of_grows (bind_ok h1) hg
          (handleUselessBranch_reports hep hd hpd hok.1 hl htop)
  · rw [if_neg h, if_pos (fun hs => h (hstart.mp hs))]
    exact rfl

theorem deleteBranch_reports {rec : Reference → Path → TrieM DeleteResult} {cs : Fin 16 → NodeTree}
    {v : Bytes} {path : Path} {d : Nat} (hd : d < 2 ^ 31) (hw : Fits (.branch cs v) d)
    (hp : path.Small) {s : Storage} (hs : s.Sound) (hl : ∀ i, Logged s (cs i)) {junk : UInt8}
    (hrec : ∀ i q, path.nibbles = i :: q → (cs i).isEmpty = false → ∀ p', p'.nibbles = q →
      p'.Small → Reports (rec (refOf (cs i)) p') s (erase (junkSlot junk) (cs i) q)) :
    Reports (deleteBranch ssz rec junk ⟨List.ofFn fun i => refOf (cs i), v⟩ path) s
      (erase (junkSlot junk) (.branch cs v) path.nibbles) := by
  unfold deleteBranch
  cases hn : path.nibbles with
  | nil =>
    have hemp := (Path.isEmpty_iff hp).mpr hn
    rw [erase]
    by_cases hv : v = []
    · rw [if_pos ⟨hemp, hv⟩, if_pos hv]
      exact rfl
    · rw [if_neg (fun h => hv h.2), if_pos ⟨hemp, hv⟩, if_neg hv]
      exact handleBranchDeletion_reports (v := []) hd ⟨Nat.zero_le _, hw.2⟩ hs hl junk
  | cons i q =>
    obtain ⟨p', hp1, hp2, hp3⟩ := consume_one hp hn
    have hemp : ¬ path.isEmpty = true := by rw [Path.isEmpty_iff hp, hn]; simp
    rw [if_neg (fun h => hemp h.1), if_neg (fun h => hemp h.1), erase]
    apply reports_lift (Path.nibbleAt_cons hp hn)
    rw [getBranches_ofFn, getD_ofFn]
    by_cases hi : (cs i).isEmpty = true
    · rw [if_pos hi, if_pos ((refOf_eq_nil_iff _).mpr ((Tree.isEmpty_iff _).mp hi))]
      exact rfl
    · have hi' : (cs i).isEmpty = false := by simpa using hi
      have hr := hrec i q hn hi' p' hp2 hp3
      rw [if_neg hi, if_neg (fun h => hi ((Tree.isEmpty_iff _).mpr ((refOf_eq_nil_iff _).mp h)))]
      apply reports_lift hp1
      cases he : erase (junkSlot junk) (cs i) q with
      | error e =>
        rw [he] at hr
        exact bind_error hr
      | ok r =>
        rw [he] at hr
        cases r with
        | deleted =>
          have key : Reports (handleBranchDeletion ssz _ _) s _ :=
            handleBranchDeletion_reports hd hw hs hl (toByte i)
          rw [junkSlot_toByte] at key
          exact key.congr (bind_ok hr)
        | updated t =>
          obtain ⟨s', h1, hg, ht⟩ := hr
          exact .of_grows (bind_ok h1) hg
            (replaceChild_reports hw.1 (fun j => hg.logged (hl j)) ht)
        | useless t =>
          obtain ⟨s', p, h1, hg, ht, -⟩ := hr
          exact .of_grows (bind_ok h1) hg
            (replaceChild_reports hw.1 (fun j => hg.logged (hl j)) ht)

variable (ssz) in
/-- **`DeleteNode` reports what `erase` answers**, and stores nothing when it throws. -/
theorem deleteNode_reports {t : NodeTree} {d : Nat} (hd : d < 2 ^ 31) (hw : Fits t d)
    (hne : t.isEmpty = false) {s : Storage} (hs : s.Sound) (hl : Logged s t) {path : Path}
    (hp : path.Small) (junk : UInt8) {fuel : Nat} (hf : path.nibbles.length < fuel) :
    Reports (deleteNode ssz junk fuel (refOf t) path) s
      (erase (junkSlot junk) t path.nibbles) := by
  have hh := hs.holds hl
  induction t generalizing d path fuel with
  | empty => simp at hne
  | leaf p v =>
    obtain ⟨fuel, rfl⟩ : ∃ n, fuel = n + 1 := ⟨fuel - 1, by omega⟩
    obtain ⟨lp, hread, rfl⟩ := read_leaf ssz hh (by have := hw.1; omega) hw.2
    rw [deleteNode]
    apply reports_read hread
    exact deleteLeaf_reports (small_of_le hd rfl hw.1) hp v s _
  | ext p c ih =>
    obtain ⟨fuel, rfl⟩ : ∃ n, fuel = n + 1 := ⟨fuel - 1, by omega⟩
    obtain ⟨ep, hread, rfl⟩ := read_ext ssz hh.1 (by have := hw.2.1; omega)
    obtain ⟨hpne, hpd, hb, hc⟩ := id hw
    rw [deleteNode]
    apply reports_read hread
    apply deleteExtension_reports hd hw (small_of_le hd rfl hpd) hp
    intro hpre p' hp2 hp3
    have hcne : c.isEmpty = false := by
      obtain ⟨cs, v, rfl⟩ := (Tree.isBranch_iff c).mp hb
      rfl
    have hpos : 0 < ep.nibbles.length := List.length_pos_iff.mpr hpne
    have hlen := congrArg List.length hp2
    rw [List.length_drop] at hlen
    have hle := hpre.length_le
    have hfuel : p'.nibbles.length < fuel := by omega
    exact ih (by omega) hc hcne hl.2 hp3 hfuel hh.2
  | branch cs v ih =>
    obtain ⟨fuel, rfl⟩ : ∃ n, fuel = n + 1 := ⟨fuel - 1, by omega⟩
    rw [deleteNode]
    apply reports_read (read_branch ssz hh.1 hw.1)
    apply deleteBranch_reports hd hw hp hs hl.2
    intro i q hn hi p' hp2 hp3
    have hlen := congrArg List.length hn
    rw [List.length_cons] at hlen
    have hfuel : p'.nibbles.length < fuel := by rw [hp2]; omega
    have key := ih i (by omega) (hw.2 i hi).2 hi (hl.2 i) hp3 hfuel (hh.2 i)
    rwa [hp2] at key

end Core.Mpt
