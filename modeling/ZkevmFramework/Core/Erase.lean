import Mathlib.Data.List.FinRange
import ZkevmFramework.Core.MptRefs

/-!
# The deletion on trees

`erase` is the deletion of the source on the tree the references spell out,
case by case, with what it does to a branch that loses a child: the used slots
are counted while the deleted child is still in its slot, and the slot cleared
after the deletion of a branch's own value is `junk`.
-/

namespace Core.Mpt

open Nibble Patricia

/-- What a deletion reports upwards. -/
inductive Erased where
  | deleted
  | updated (t : NodeTree)
  | useless (t : NodeTree)

/-- The number of used slots. -/
def used (cs : Fin 16 → NodeTree) : Nat := (List.finRange 16).countP fun i => !(cs i).isEmpty

/-- The first used slot. -/
def firstUsed (cs : Fin 16 → NodeTree) : Option (Fin 16) :=
  (List.finRange 16).find? fun i => !(cs i).isEmpty

/-- What stands for a branch whose only content is `t` in slot `i`. -/
def liftSlot (i : Fin 16) : NodeTree → NodeTree
  | .leaf p v => .leaf (i :: p) v
  | .ext p c => .ext (i :: p) c
  | t => .ext [i] t

/-- An extension merged with what its branch has become. -/
def graft (p : List (Fin 16)) : NodeTree → NodeTree
  | .leaf p' v => .leaf (p ++ p') v
  | .ext p' c => .ext (p ++ p') c
  | t => .ext p t

/-- The branch after the deletion of its value or of a child. -/
def prune (cs : Fin 16 → NodeTree) (v : Bytes) (idx : Option (Fin 16)) : Except Error Erased :=
  if used cs = 0 ∧ v = [] then .ok .deleted
  else if used cs = 0 then .ok (.useless (.leaf [] v))
  else if used cs = 1 ∧ v = [] then
    match firstUsed cs with
    | some i => .ok (.useless (liftSlot i (cs i)))
    | none => .error .noValidBranches
  else
    match idx with
    | some i => .ok (.updated (.branch (Function.update cs i .empty) v))
    | none => .error .pastEnd

def erase (junk : Option (Fin 16)) : NodeTree → List (Fin 16) → Except Error Erased
  | .empty, _ => .error .emptyByteArray
  | .leaf p _, q => if p = q then .ok .deleted else .error .keyNotFound
  | .ext p c, q =>
    if p <+: q then
      match erase junk c (q.drop p.length) with
      | .ok .deleted => .ok .deleted
      | .ok (.updated t) => .ok (.updated (.ext p t))
      | .ok (.useless t) => .ok (.updated (graft p t))
      | .error e => .error e
    else .error .keyNotFound
  | .branch cs v, [] => if v = [] then .error .keyNotFound else prune cs [] junk
  | .branch cs v, i :: q =>
    if (cs i).isEmpty then .error .keyNotFound
    else
      match erase junk (cs i) q with
      | .ok .deleted => prune cs v (some i)
      | .ok (.updated t) => .ok (.updated (.branch (Function.update cs i t) v))
      | .ok (.useless t) => .ok (.updated (.branch (Function.update cs i t) v))
      | .error e => .error e

/-- The slot a byte names. -/
def junkSlot (b : UInt8) : Option (Fin 16) := if h : b.toNat < 16 then some ⟨b.toNat, h⟩ else none

@[simp] theorem junkSlot_toByte (i : Fin 16) : junkSlot (toByte i) = some i := by
  unfold junkSlot
  rw [dif_pos (by rw [toNat_toByte]; exact i.isLt)]
  exact congrArg some (Fin.ext (toNat_toByte i))

/-! ## Used slots -/

theorem used_eq_zero_iff (cs : Fin 16 → NodeTree) :
    used cs = 0 ↔ ∀ i, (cs i).isEmpty = true := by
  simp [used, List.countP_eq_zero]

/-- One used slot: the first one, and all others are empty. -/
theorem used_eq_one {cs : Fin 16 → NodeTree} (h : used cs = 1) :
    ∃ i, firstUsed cs = some i ∧ (cs i).isEmpty = false ∧
      ∀ j, j ≠ i → (cs j).isEmpty = true := by
  rw [used, List.countP_eq_length_filter, List.length_eq_one_iff] at h
  obtain ⟨i, hi⟩ := h
  have hmem : ∀ j, (cs j).isEmpty = false ↔ j = i := by
    intro j
    have : j ∈ (List.finRange 16).filter (fun i => !(cs i).isEmpty) ↔ j = i := by
      rw [hi, List.mem_singleton]
    simpa using this
  refine ⟨i, ?_, (hmem i).mpr rfl, fun j hj => ?_⟩
  · rw [firstUsed, ← List.head?_filter, hi]
    rfl
  · by_contra hne
    exact hj ((hmem j).mp (by simpa using hne))

theorem used_pos {cs : Fin 16 → NodeTree} {i : Fin 16} (h : (cs i).isEmpty = false) :
    used cs ≠ 0 := by
  intro h0
  rw [(used_eq_zero_iff cs).mp h0 i] at h
  cases h

/-! ## Erasing keeps the tree well-formed -/

/-- The result fits where the tree fitted; a branch is replaced by a branch,
unless it is reported useless. -/
def Erased.Ok (t : NodeTree) (d : Nat) : Erased → Prop
  | .deleted => True
  | .updated t' => Fits t' d ∧ t'.isEmpty = false ∧ (t.isBranch = true → t'.isBranch = true)
  | .useless t' => Fits t' d ∧ t'.isEmpty = false ∧ t.isBranch = true ∧ t'.isBranch = false

theorem fits_liftSlot {i : Fin 16} {t : NodeTree} {d : Nat} (hd : 0 < d) (ht : Fits t (d - 1))
    (hne : t.isEmpty = false) : Fits (liftSlot i t) d := by
  cases t with
  | empty => simp at hne
  | leaf p v => exact ⟨by have := ht.1; rw [List.length_cons]; omega, ht.2⟩
  | ext p c =>
    obtain ⟨hp, hpd, hb, hc⟩ := ht
    refine ⟨by simp, by rw [List.length_cons]; omega, hb, ?_⟩
    rwa [List.length_cons, Nat.add_comm, ← Nat.sub_sub]
  | branch cs v => exact ⟨by simp, hd, rfl, ht⟩

theorem isBranch_liftSlot (i : Fin 16) (t : NodeTree) : (liftSlot i t).isBranch = false := by
  cases t <;> rfl

theorem isEmpty_liftSlot (i : Fin 16) (t : NodeTree) : (liftSlot i t).isEmpty = false := by
  cases t <;> rfl

theorem fits_graft {p : List (Fin 16)} {t : NodeTree} {d : Nat} (hp : p.length ≤ d)
    (ht : Fits t (d - p.length)) (hne : t.isEmpty = false) (hb : t.isBranch = false) :
    Fits (graft p t) d := by
  cases t with
  | empty => simp at hne
  | leaf p' v => exact ⟨by have := ht.1; rw [List.length_append]; omega, ht.2⟩
  | ext p' c =>
    obtain ⟨hp', hpd, hb', hc⟩ := ht
    refine ⟨by simp [hp'], by rw [List.length_append]; omega, hb', ?_⟩
    rwa [List.length_append, ← Nat.sub_sub]
  | branch cs v => simp at hb

theorem isEmpty_graft (p : List (Fin 16)) (t : NodeTree) : (graft p t).isEmpty = false := by
  cases t <;> rfl

theorem prune_ok {cs : Fin 16 → NodeTree} {v w : Bytes} {d : Nat} (hw : Fits (.branch cs v) d)
    {idx : Option (Fin 16)} {r : Erased} (hr : prune cs v idx = .ok r) :
    r.Ok (.branch cs w) d := by
  unfold prune at hr
  split at hr
  · cases hr; trivial
  · split at hr
    · cases hr
      exact ⟨⟨Nat.zero_le _, hw.1⟩, rfl, rfl, rfl⟩
    · split at hr
      · next h =>
        obtain ⟨i, hi, hne, -⟩ := used_eq_one h.1
        rw [hi] at hr
        cases hr
        obtain ⟨hd, hf⟩ := hw.2 i hne
        exact ⟨fits_liftSlot hd hf hne, isEmpty_liftSlot _ _, rfl, isBranch_liftSlot _ _⟩
      · cases idx with
        | none => cases hr
        | some i =>
          cases hr
          refine ⟨⟨hw.1, ?_⟩, rfl, fun _ => rfl⟩
          intro j hj
          by_cases hij : j = i
          · subst hij; simp at hj
          · rw [Function.update_of_ne hij] at hj ⊢
            exact hw.2 j hj

theorem fits_update {cs : Fin 16 → NodeTree} {v : Bytes} {d : Nat} (hw : Fits (.branch cs v) d)
    {i : Fin 16} (hi : (cs i).isEmpty = false) {t : NodeTree} (ht : Fits t (d - 1)) :
    Fits (.branch (Function.update cs i t) v) d := by
  refine ⟨hw.1, ?_⟩
  intro j hj
  by_cases hij : j = i
  · subst hij
    rw [Function.update_self]
    exact ⟨(hw.2 j hi).1, ht⟩
  · rw [Function.update_of_ne hij] at hj ⊢
    exact hw.2 j hj

/-- **Erasing keeps the tree well-formed.** -/
theorem erase_ok {junk : Option (Fin 16)} {t : NodeTree} {d : Nat} (hw : Fits t d)
    {q : List (Fin 16)} {r : Erased} (hr : erase junk t q = .ok r) : r.Ok t d := by
  induction t generalizing d q r with
  | empty => cases hr
  | leaf p v =>
    simp only [erase] at hr
    split at hr <;> cases hr
    trivial
  | ext p c ih =>
    obtain ⟨hp, hpd, hb, hc⟩ := hw
    simp only [erase] at hr
    split at hr
    · cases he : erase junk c (q.drop p.length) with
      | error e => rw [he] at hr; cases hr
      | ok r' =>
        have hok := ih hc he
        rw [he] at hr
        cases r' with
        | deleted => cases hr; trivial
        | updated t => cases hr; exact ⟨⟨hp, hpd, hok.2.2 hb, hok.1⟩, rfl, fun h => h⟩
        | useless t =>
          cases hr
          exact ⟨fits_graft hpd hok.1 hok.2.1 hok.2.2.2, isEmpty_graft _ _,
            fun h => by simp [Tree.isBranch] at h⟩
    · cases hr
  | branch cs v ih =>
    cases q with
    | nil =>
      simp only [erase] at hr
      split at hr
      · cases hr
      · exact prune_ok (v := []) ⟨Nat.zero_le _, hw.2⟩ hr
    | cons i q =>
      simp only [erase] at hr
      split at hr
      · cases hr
      · next hi =>
        have hi' : (cs i).isEmpty = false := by simpa using hi
        cases he : erase junk (cs i) q with
        | error e => rw [he] at hr; cases hr
        | ok r' =>
          have hok := ih i (hw.slot i) he
          rw [he] at hr
          cases r' with
          | deleted => exact prune_ok hw hr
          | updated t => cases hr; exact ⟨fits_update hw hi' hok.1, rfl, fun _ => rfl⟩
          | useless t => cases hr; exact ⟨fits_update hw hi' hok.1, rfl, fun _ => rfl⟩

end Core.Mpt
