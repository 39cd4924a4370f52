import ZkevmFramework.Core.BasicHash
import ZkevmFramework.Core.EraseMap

/-!
# What the root commits to

An encoding ends in the value, so two values of one length that `BasicHash`
folds to the same bytes (`SameFold`) leave every reference above them the same.
Runs that differ in such values only have the same root (`root_folds`): of a
value the root holds no more than its length and 64 bytes, and for every value
longer than that another one passes for it (`long_value_not_committed`).
-/

namespace Core.Mpt

open Nibble Patricia

variable {ssz : SszLib}

/-- Values of one length that fold to the same bytes. -/
def SameFold (v w : Bytes) : Prop := v.length = w.length ∧ ∀ j < 64, xorAt v j = xorAt w j

instance (v w : Bytes) : Decidable (SameFold v w) :=
  inferInstanceAs (Decidable (v.length = w.length ∧ ∀ j < 64, xorAt v j = xorAt w j))

/-! ## Folding below a prefix -/

theorem foldl_xor (f : Nat → UInt8) (l : List Nat) (x : UInt8) :
    l.foldl (fun acc i => acc ^^^ f i) x = x ^^^ l.foldl (fun acc i => acc ^^^ f i) 0 := by
  induction l generalizing x with
  | nil => simp
  | cons i l ih =>
    rw [List.foldl_cons, List.foldl_cons, ih, ih (0 ^^^ f i), UInt8.zero_xor, UInt8.xor_assoc]

theorem xorAt_cons (a : UInt8) (v : Bytes) {j : Nat} (hj : j < 64) :
    xorAt (a :: v) j = (if j = 0 then a else 0) ^^^ xorAt v ((j + 63) % 64) := by
  have hshift : (List.range v.length).filter ((fun i => decide (i % 64 = j)) ∘ Nat.succ) =
      (List.range v.length).filter fun i => decide (i % 64 = (j + 63) % 64) := by
    apply List.filter_congr
    intro i _
    simp only [Function.comp_apply, decide_eq_decide]
    omega
  have hrest : ((List.range v.length).map Nat.succ).filter (fun i => decide (i % 64 = j)) =
      ((List.range v.length).filter fun i => decide (i % 64 = (j + 63) % 64)).map Nat.succ := by
    rw [List.filter_map, hshift]
  have hget : ∀ i, (a :: v).getD (Nat.succ i) 0 = v.getD i 0 := fun _ => rfl
  rw [xorAt, List.length_cons, List.range_succ_eq_map, List.filter_cons, hrest]
  by_cases h0 : j = 0
  · subst h0
    simp only [Nat.zero_mod, decide_true, if_true, List.foldl_cons, List.foldl_map, hget]
    rw [foldl_xor]
    simp [xorAt]
  · have h0' : ¬ (0 % 64 = j) := by omega
    simp only [h0', decide_false, Bool.false_eq_true, if_false, List.foldl_map, hget, h0]
    simp [xorAt]

/-- What comes later is shifted by what comes before. -/
theorem xorAt_append (p v : Bytes) {j : Nat} (hj : j < 64) :
    xorAt (p ++ v) j = xorAt p j ^^^ xorAt v ((j + 63 * p.length) % 64) := by
  induction p generalizing j with
  | nil =>
    have hnil : xorAt [] j = 0 := rfl
    simp [hnil, Nat.mod_eq_of_lt hj]
  | cons a p ih =>
    have hmod : ((j + 63) % 64 + 63 * p.length) % 64 = (j + 63 * (p.length + 1)) % 64 := by omega
    rw [List.cons_append, xorAt_cons a _ hj, xorAt_cons a _ hj, ih (Nat.mod_lt _ (by decide)), hmod,
      UInt8.xor_assoc, List.length_cons]

theorem SameFold.append {v w : Bytes} (h : SameFold v w) (p : Bytes) :
    SameFold (p ++ v) (p ++ w) := by
  refine ⟨by rw [List.length_append, List.length_append, h.1], ?_⟩
  intro j hj
  rw [xorAt_append p v hj, xorAt_append p w hj, h.2 _ (Nat.mod_lt _ (by decide))]

/-- Up to 64 bytes nothing is folded. -/
theorem xorAt_short {v : Bytes} (hv : v.length ≤ 64) {i : Nat} (hi : i < v.length) :
    xorAt v i = v.getD i 0 := by
  have hfilter : (List.range v.length).filter (fun k => decide (k % 64 = i)) = [i] := by
    have hcongr : (List.range v.length).filter (fun k => decide (k % 64 = i)) =
        (List.range v.length).filter (fun k => decide (k = i)) := by
      apply List.filter_congr
      intro k hk
      rw [List.mem_range] at hk
      simp only [decide_eq_decide]
      omega
    have hcount : (List.range v.length).count i = 1 :=
      List.count_eq_one_of_mem List.nodup_range (List.mem_range.mpr hi)
    rw [hcongr, List.filter_eq, hcount]
    rfl
  rw [xorAt, hfilter]
  simp

theorem SameFold.eq_of_short {v w : Bytes} (h : SameFold v w) (hv : v.length ≤ 64) : v = w := by
  apply List.ext_getElem h.1
  intro i hi hi'
  have hfold := h.2 i (by omega)
  rw [xorAt_short hv hi, xorAt_short (by rw [← h.1]; exact hv) hi'] at hfold
  simpa [hi, hi'] using hfold

/-- Past 64 bytes every value shares its fold with another one. -/
theorem exists_sameFold {v : Bytes} (hv : 64 < v.length) : ∃ w, w ≠ v ∧ SameFold v w := by
  -- bytes 0 and 64 are folded together: flip a bit of both
  obtain ⟨a, m, b, r, rfl, hm⟩ : ∃ a m b r, v = a :: (m ++ b :: r) ∧ m.length = 63 := by
    cases v with
    | nil => simp at hv
    | cons a v =>
      rw [List.length_cons] at hv
      refine ⟨a, v.take 63, v.getD 63 0, v.drop 64, ?_, by rw [List.length_take]; omega⟩
      have hdrop : v.drop 63 = v.getD 63 0 :: v.drop 64 := by
        rw [List.drop_eq_getElem_cons (by omega)]
        simp [show 63 < v.length by omega]
      rw [← hdrop, List.take_append_drop]
  refine ⟨(a ^^^ 1) :: (m ++ (b ^^^ 1) :: r), ?_, by simp, ?_⟩
  · intro h
    have hab := (List.cons.inj h).1
    rw [← UInt8.xor_right_inj a, ← UInt8.xor_assoc, UInt8.xor_self, UInt8.zero_xor] at hab
    cases hab
  · intro j hj
    have hmod : ((j + 63) % 64 + 63 * m.length) % 64 = j := by omega
    have hlt : (j + 63) % 64 < 64 := Nat.mod_lt _ (by decide)
    rw [xorAt_cons _ _ hj, xorAt_cons _ _ hj, xorAt_append _ _ hlt, xorAt_append _ _ hlt, hmod,
      xorAt_cons _ _ hj, xorAt_cons _ _ hj]
    by_cases h0 : j = 0
    · subst h0
      simp only [if_true]
      generalize xorAt m ((0 + 63) % 64) = x
      generalize xorAt r ((0 + 63) % 64) = y
      have hflip : (a ^^^ 1) ^^^ (x ^^^ ((b ^^^ 1) ^^^ y)) = (1 ^^^ 1) ^^^ (a ^^^ (x ^^^ (b ^^^ y))) := by
        ac_rfl
      rw [hflip, UInt8.xor_self, UInt8.zero_xor]
    · simp only [h0, if_false]

/-! ## References -/

theorem SameFold.mkRef {e e' : Bytes} (h : SameFold e e') : Mpt.mkRef e = Mpt.mkRef e' := by
  have hlen := h.1
  unfold Mpt.mkRef
  rw [hlen]
  split
  · exact h.eq_of_short (by omega)
  · exact (basicHash_eq_iff e e').mpr ((foldBytes_eq_iff e e').mpr h.2)

/-- In a layout of two parts the second one comes last. -/
theorem layout_pair (a b : Bytes) :
    Ssz.layout [a, b] = (Ssz.le 4 8 ++ Ssz.le 4 (8 + a.length) ++ a) ++ b := by
  simp [Ssz.layout, Ssz.offsets]

theorem SameFold.leafBytes {v w : Bytes} (h : SameFold v w) (p : List (Fin 16)) :
    SameFold (Mpt.leafBytes p v) (Mpt.leafBytes p w) := by
  rw [Mpt.leafBytes, Mpt.leafBytes, layout_pair, layout_pair]
  exact h.append (0 :: _)

theorem SameFold.branchBytes {v w : Bytes} (h : SameFold v w) (refs : List Reference) :
    SameFold (Mpt.branchBytes refs v) (Mpt.branchBytes refs w) := by
  rw [Mpt.branchBytes, Mpt.branchBytes, layout_pair, layout_pair]
  exact h.append (2 :: _)

/-- **Mapping every value to one with the same fold keeps the reference.** -/
theorem refOf_map {f : Bytes → Bytes} (hf : ∀ v, SameFold (f v) v) (t : NodeTree) :
    refOf (t.map f) = refOf t := by
  induction t with
  | empty => rfl
  | leaf p v => exact ((hf v).leafBytes p).mkRef
  | ext p c ih => rw [Patricia.Tree.map, refOf, ih, refOf]
  | branch cs v ih =>
    simp only [Patricia.Tree.map, refOf, ih]
    exact ((hf v).branchBytes _).mkRef

/-! ## One value for each fold -/

def foldSetoid : Setoid Bytes where
  r := SameFold
  iseqv := {
    refl := fun _ => ⟨rfl, fun _ _ => rfl⟩
    symm := fun h => ⟨h.1.symm, fun j hj => (h.2 j hj).symm⟩
    trans := fun h h' => ⟨h.1.trans h'.1, fun j hj => (h.2 j hj).trans (h'.2 j hj)⟩ }

/-- A value chosen for all values with this fold. -/
noncomputable def foldRep (v : Bytes) : Bytes := (Quotient.mk foldSetoid v).out

theorem sameFold_foldRep (v : Bytes) : SameFold (foldRep v) v :=
  Quotient.exact (s := foldSetoid) (Quotient.out_eq _)

theorem foldRep_eq_iff (v w : Bytes) : foldRep v = foldRep w ↔ SameFold v w := by
  constructor
  · intro h
    have hv := foldSetoid.symm (sameFold_foldRep v)
    rw [h] at hv
    exact foldSetoid.trans hv (sameFold_foldRep w)
  · intro h
    exact congrArg Quotient.out (Quotient.sound (s := foldSetoid) h)

theorem keepsEmpty_foldRep : KeepsEmpty foldRep := by
  intro v
  rw [← List.length_eq_zero_iff, ← List.length_eq_zero_iff, (sameFold_foldRep v).1]

/-! ## Runs -/

/-- The same call, but for the value set. -/
inductive Call.SameFold : Call → Call → Prop where
  | get (key : Bytes) : SameFold (.get key) (.get key)
  | set (key : Bytes) {v w : Bytes} : Mpt.SameFold v w → SameFold (.set key v) (.set key w)
  | remove (key : Bytes) (junk : UInt8) : SameFold (.remove key junk) (.remove key junk)

/-- The same answer, but for the value found. -/
inductive Answer.SameFold : Answer → Answer → Prop where
  | value {v w : Bytes} : Mpt.SameFold v w → SameFold (.ok (some v)) (.ok (some w))
  | done : SameFold (.ok none) (.ok none)
  | error (e : Error) : SameFold (.error e) (.error e)

theorem Call.SameFold.map_eq {c c' : Call} (h : c.SameFold c') :
    c.map foldRep = c'.map foldRep := by
  cases h with
  | get key => rfl
  | set key h => exact congrArg (Call.set key) ((foldRep_eq_iff _ _).mpr h)
  | remove key junk => rfl

theorem map_eq_of_sameFold {cs cs' : List Call} (h : List.Forall₂ Call.SameFold cs cs') :
    cs.map (Call.map foldRep) = cs'.map (Call.map foldRep) := by
  induction h with
  | nil => rfl
  | cons h _ ih => rw [List.map_cons, List.map_cons, h.map_eq, ih]

theorem Answer.sameFold_of_map {a b : Answer} (h : a.map foldRep = b.map foldRep) :
    a.SameFold b := by
  rcases a with e | _ | v
  · rcases b with e' | _ | w <;> cases h
    exact .error e
  · rcases b with e' | _ | w <;> cases h
    exact .done
  · rcases b with e' | _ | w
    · cases h
    · cases h
    · have hvw : foldRep v = foldRep w := Option.some.inj (Except.ok.inj h)
      exact .value ((foldRep_eq_iff v w).mp hvw)

/-- **The root holds no more of a value than its length and its fold**: runs that
differ in nothing else reach the same root, and their calls answer alike. -/
theorem root_folds {cs cs' : List Call} (h : List.Forall₂ Call.SameFold cs cs')
    (hc : ∀ c ∈ cs ++ cs', c.Fits) (hnc : NoCollision (reached ssz cs).storage.stored)
    (hnc' : NoCollision (reached ssz cs').storage.stored) :
    (reached ssz cs).root = (reached ssz cs').root ∧
      List.Forall₂ Answer.SameFold ((trie ssz).run cs .empty).1 ((trie ssz).run cs' .empty).1 := by
  have hmap := map_eq_of_sameFold h
  obtain ⟨hc, hc'⟩ := List.forall_mem_append.mp hc
  have hrep := reached_represents hc hnc
  have hrep' := reached_represents hc' hnc'
  have hrun := run_map_trees keepsEmpty_foldRep cs .empty
  rw [hmap, run_map_trees keepsEmpty_foldRep cs' .empty, Prod.mk.injEq] at hrun
  constructor
  · rw [hrep.root, hrep'.root, ← refOf_map sameFold_foldRep, ← hrun.2, refOf_map sameFold_foldRep]
  · rw [reached_answers hc hnc, reached_answers hc' hnc']
    have hforall := List.forall₂_map_left_iff.mp (List.forall₂_map_right_iff.mp
      (List.forall₂_eq_eq_eq ▸ hrun.1.symm))
    exact hforall.imp fun _ _ => Answer.sameFold_of_map

/-- A value of 65 bytes, and one with a bit of its first and its last byte flipped. -/
theorem root_folds_flipped :
    let cs := [Call.set [0x11] (List.replicate 65 0), .set [0x22] [2], .get [0x11]]
    let cs' := [Call.set [0x11] (1 :: (List.replicate 63 0 ++ [1])), .set [0x22] [2], .get [0x11]]
    (reached .standard cs).root = (reached .standard cs').root ∧
      List.Forall₂ Answer.SameFold ((trie .standard).run cs .empty).1
        ((trie .standard).run cs' .empty).1 := by
  have hset : Call.SameFold (.set [0x11] (List.replicate 65 0))
      (.set [0x11] (1 :: (List.replicate 63 0 ++ [1]))) := .set _ (by decide +kernel)
  exact root_folds (.cons hset (.cons (.set _ ⟨rfl, fun _ _ => rfl⟩) (.cons (.get _) .nil)))
    (by decide +kernel) (by decide +kernel) (by decide +kernel)

theorem MerklePatriciaTrie.Represents.root_set {t : MerklePatriciaTrie} {tr : NodeTree}
    (h : t.Represents tr) (key : Bytes) {value : Bytes} (hv : value.length ≤ maxValueLen) :
    (stateAfter (t.set ssz key value)).root = refOf (tr.insert (pathFromKey key).nibbles value) := by
  obtain ⟨s', hs', -⟩ := setNode_builds ssz (by decide) h.fits h.sound h.logged
    (length_pathFromKey key) hv (lt_walkFuel key)
  simp only [set, h.root, hs', stateAfter]

/-- **A value of more than 64 bytes is not committed to**: another one of its
length set in its place gives the same root, in every state. -/
theorem long_value_not_committed {cs : List Call} (hc : ∀ c ∈ cs, c.Fits)
    (hnc : NoCollision (reached ssz cs).storage.stored) (key : Bytes) {value : Bytes}
    (hlen : 64 < value.length) (hv : value.length ≤ maxValueLen) :
    ∃ value', value' ≠ value ∧ value'.length = value.length ∧
      (stateAfter ((reached ssz cs).set ssz key value')).root =
        (stateAfter ((reached ssz cs).set ssz key value)).root := by
  have hrep := reached_represents hc hnc
  obtain ⟨value', hne, hfold⟩ := exists_sameFold hlen
  have hrefs : ∀ v, refOf ((trees.run cs .empty).2.insert (pathFromKey key).nibbles v) =
      refOf (((trees.run cs .empty).2.map foldRep).insert (pathFromKey key).nibbles
        (foldRep v)) := by
    intro v
    rw [← Tree.map_insert keepsEmpty_foldRep.map_nil, refOf_map sameFold_foldRep]
  refine ⟨value', hne, hfold.1.symm, ?_⟩
  rw [hrep.root_set key hv, hrep.root_set key (hfold.1 ▸ hv), hrefs, hrefs,
    (foldRep_eq_iff value value').mpr hfold]

theorem long_value_not_committed_second :
    ∃ value', value' ≠ List.replicate 65 7 ∧ value'.length = (List.replicate 65 (7 : UInt8)).length ∧
      (stateAfter ((reached .standard [.set [0x11] [1]]).set .standard [0x22] value')).root =
        (stateAfter ((reached .standard [.set [0x11] [1]]).set .standard [0x22]
          (List.replicate 65 7))).root :=
  long_value_not_committed (by decide) (by decide +kernel) _ (by decide) (by decide)

end Core.Mpt
