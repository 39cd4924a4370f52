import Mathlib.Data.List.Basic
import Mathlib.Tactic.NormNum

/-!
# The SSZ layout of variable-size parts

A container of variable-size fields, and a list of variable-size elements, is
laid out as one little-endian 4-byte offset per part, then the parts in order.
`split` reads the parts back, `split_layout` is the round trip for every layout
whose length an offset can hold, and `layout_injective` follows.
-/

namespace Ssz

/-- Little-endian, `w` bytes. -/
def le : Nat → Nat → List UInt8
  | 0, _ => []
  | w + 1, n => UInt8.ofNat n :: le w (n / 256)

/-- The number a little-endian byte string stands for. -/
def ofLe : List UInt8 → Nat
  | [] => 0
  | b :: bs => b.toNat + 256 * ofLe bs

@[simp] theorem length_le (w n : Nat) : (le w n).length = w := by
  induction w generalizing n with
  | zero => rfl
  | succ w ih => simp [le, ih]

theorem ofLe_le (w n : Nat) (h : n < 256 ^ w) : ofLe (le w n) = n := by
  induction w generalizing n with
  | zero => simp [le, ofLe] at h ⊢; omega
  | succ w ih =>
    have hdiv : n / 256 < 256 ^ w := by
      rw [Nat.div_lt_iff_lt_mul (by decide), ← pow_succ]
      exact h
    simp only [le, ofLe, ih _ hdiv, UInt8.toNat_ofNat']
    omega

/-- Where each part begins, the first one at `pos`. -/
def offsets : Nat → List (List UInt8) → List Nat
  | _, [] => []
  | pos, p :: ps => pos :: offsets (pos + p.length) ps

/-- The offset table, then the parts. -/
def layout (parts : List (List UInt8)) : List UInt8 :=
  (offsets (4 * parts.length) parts).flatMap (le 4) ++ parts.flatten

/-- The layout is short enough for its own offsets. -/
def InRange (parts : List (List UInt8)) : Prop := (layout parts).length < 2 ^ 32

/-- Cut the bytes at the offsets. -/
def cut (bytes : List UInt8) : List Nat → Option (List (List UInt8))
  | [] => some []
  | [a] => if a ≤ bytes.length then some [bytes.drop a] else none
  | a :: b :: offs =>
    if a ≤ b then
      match cut bytes (b :: offs) with
      | some ps => some ((bytes.drop a).take (b - a) :: ps)
      | none => none
    else none

/-- The offset table of `n` parts. -/
def table (bytes : List UInt8) : Nat → List Nat
  | 0 => []
  | n + 1 => ofLe (bytes.take 4) :: table (bytes.drop 4) n

/-- Read the parts back; the first offset tells how many there are. -/
def split (bytes : List UInt8) : Option (List (List UInt8)) :=
  if bytes = [] then some []
  else
    let first := ofLe (bytes.take 4)
    if first % 4 = 0 ∧ first ≠ 0 then cut bytes (table bytes (first / 4)) else none

/-! ## Round trip -/

@[simp] theorem length_offsets (pos : Nat) (parts : List (List UInt8)) :
    (offsets pos parts).length = parts.length := by
  induction parts generalizing pos with
  | nil => rfl
  | cons p ps ih => simp [offsets, ih]

theorem length_flatMap_le (l : List Nat) : (l.flatMap (le 4)).length = 4 * l.length := by
  induction l with
  | nil => rfl
  | cons a l ih => simp [ih]; omega

theorem length_layout (parts : List (List UInt8)) :
    (layout parts).length = 4 * parts.length + parts.flatten.length := by
  rw [layout, List.length_append, length_flatMap_le, length_offsets]

theorem offsets_le (pos : Nat) (parts : List (List UInt8)) :
    ∀ o ∈ offsets pos parts, o ≤ pos + parts.flatten.length := by
  induction parts generalizing pos with
  | nil => simp [offsets]
  | cons p ps ih =>
    intro o ho
    simp only [offsets, List.mem_cons] at ho
    rw [List.flatten_cons, List.length_append]
    rcases ho with rfl | ho
    · omega
    · have := ih _ o ho
      omega

theorem table_flatMap (l : List Nat) (rest : List UInt8) (h : ∀ o ∈ l, o < 2 ^ 32) :
    table (l.flatMap (le 4) ++ rest) l.length = l := by
  induction l with
  | nil => rfl
  | cons a l ih =>
    have ha : ofLe (le 4 a) = a := ofLe_le 4 a (by
      have := h a List.mem_cons_self
      norm_num
      omega)
    have htake : (le 4 a ++ (l.flatMap (le 4) ++ rest)).take 4 = le 4 a := by
      rw [List.take_append_of_le_length (by simp), List.take_of_length_le (by simp)]
    have hdrop : (le 4 a ++ (l.flatMap (le 4) ++ rest)).drop 4 = l.flatMap (le 4) ++ rest := by
      rw [List.drop_append_of_le_length (by simp), List.drop_of_length_le (by simp)]
      simp
    simp only [List.flatMap_cons, List.append_assoc, List.length_cons, table, htake, hdrop, ha]
    rw [ih (fun o ho => h o (List.mem_cons_of_mem _ ho))]

/-- Cutting behind any head `pre` at the parts' own offsets gives the parts. -/
theorem cut_offsets (pre : List UInt8) (parts : List (List UInt8)) :
    cut (pre ++ parts.flatten) (offsets pre.length parts) = some parts := by
  induction parts generalizing pre with
  | nil => rfl
  | cons p ps ih =>
    have hih := ih (pre ++ p)
    rw [List.append_assoc, List.length_append] at hih
    cases ps with
    | nil => simp [offsets, cut]
    | cons p' ps =>
      simp only [offsets, List.flatten_cons] at hih ⊢
      rw [cut, if_pos (by omega), hih]
      simp

/-- The offsets are all that has to fit. -/
theorem split_layout_of_offsets {parts : List (List UInt8)}
    (hoff : ∀ o ∈ offsets (4 * parts.length) parts, o < 2 ^ 32) :
    split (layout parts) = some parts := by
  cases parts with
  | nil => rfl
  | cons p ps =>
    have hlen := length_layout (p :: ps)
    have htable := table_flatMap _ (p :: ps).flatten hoff
    rw [length_offsets] at htable
    have hfirst : ofLe ((layout (p :: ps)).take 4) = 4 * (p :: ps).length := by
      have := congrArg List.head? htable
      simpa [table, offsets, layout] using this
    have hne : layout (p :: ps) ≠ [] := by
      intro h0
      rw [h0] at hlen
      simp only [List.length_nil, List.length_cons] at hlen
      omega
    rw [split, if_neg hne]
    simp only [hfirst]
    rw [if_pos (by simp), Nat.mul_div_cancel_left _ (by decide)]
    have hcut := cut_offsets ((offsets (4 * (p :: ps).length) (p :: ps)).flatMap (le 4)) (p :: ps)
    rw [length_flatMap_le, length_offsets] at hcut
    exact (congrArg (cut (layout (p :: ps))) htable).trans hcut

theorem split_layout {parts : List (List UInt8)} (h : InRange parts) :
    split (layout parts) = some parts := by
  unfold InRange at h
  rw [length_layout] at h
  apply split_layout_of_offsets
  intro o ho
  have := offsets_le _ _ o ho
  omega

/-- **Layouts determine their parts.** -/
theorem layout_injective {ps qs : List (List UInt8)} (hp : InRange ps) (hq : InRange qs)
    (h : layout ps = layout qs) : ps = qs := by
  have := split_layout hp
  rw [h, split_layout hq] at this
  exact (Option.some.inj this).symm

end Ssz
