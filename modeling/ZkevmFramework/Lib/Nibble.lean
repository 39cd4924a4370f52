import Mathlib.Data.List.Basic
import Mathlib.Tactic.NormNum

/-!
# Nibbles, two per byte

`unpack` reads bytes as nibbles, high half first; `pack` is its inverse on lists
of even length.  `flagged` packs a list of any length behind a flag nibble: `1`
and the first nibble when the length is odd, `0 0` when it is even.
-/

namespace Nibble

/-- High half of a byte. -/
def hi (b : UInt8) : Fin 16 := ⟨b.toNat / 16, by have := b.toNat_lt; omega⟩

/-- Low half of a byte. -/
def lo (b : UInt8) : Fin 16 := ⟨b.toNat % 16, by omega⟩

def toByte (n : Fin 16) : UInt8 := UInt8.ofNat n

def pair (h l : Fin 16) : UInt8 := UInt8.ofNat (16 * h + l)

def unpack (bs : List UInt8) : List (Fin 16) := bs.flatMap fun b => [hi b, lo b]

def pack : List (Fin 16) → List UInt8
  | h :: l :: ns => pair h l :: pack ns
  | _ => []

def flagged (ns : List (Fin 16)) : List UInt8 :=
  if ns.length % 2 = 1 then pack (1 :: ns) else pack (0 :: 0 :: ns)

/-! ## Halves of a byte -/

@[simp] theorem toNat_toByte (n : Fin 16) : (toByte n).toNat = n.val := by
  have := n.isLt
  simp only [toByte, UInt8.toNat_ofNat']
  omega

theorem toByte_injective {m n : Fin 16} (h : toByte m = toByte n) : m = n := by
  have := congrArg UInt8.toNat h
  rw [toNat_toByte, toNat_toByte] at this
  exact Fin.ext this

theorem shiftRight_four (b : UInt8) : b >>> 4 = toByte (hi b) := by
  have := b.toNat_lt
  apply UInt8.toNat.inj
  rw [toNat_toByte]
  simp [hi, Nat.shiftRight_eq_div_pow]

theorem and_low (b : UInt8) : b &&& 0x0F = toByte (lo b) := by
  apply UInt8.toNat.inj
  rw [toNat_toByte]
  simp only [UInt8.toNat_and, lo]
  exact Nat.and_two_pow_sub_one_eq_mod b.toNat 4

theorem shiftLeft_or (h l : Fin 16) : (toByte h <<< 4) ||| toByte l = pair h l := by
  revert h l
  decide

theorem toByte_and_low (n : Fin 16) : toByte n &&& 0x0F = toByte n := by
  revert n
  decide

@[simp] theorem lo_toByte (n : Fin 16) : lo (toByte n) = n := by
  revert n
  decide

theorem flag_or (n : Fin 16) : 0x10 ||| toByte n = pair 1 n := by
  revert n
  decide

@[simp] theorem hi_pair (h l : Fin 16) : hi (pair h l) = h := by
  revert h l
  decide

@[simp] theorem lo_pair (h l : Fin 16) : lo (pair h l) = l := by
  revert h l
  decide

theorem pair_hi_lo (b : UInt8) : pair (hi b) (lo b) = b := by
  have := b.toNat_lt
  apply UInt8.toNat.inj
  simp only [pair, hi, lo, UInt8.toNat_ofNat']
  omega

/-! ## Packing -/

@[simp] theorem length_unpack (bs : List UInt8) : (unpack bs).length = 2 * bs.length := by
  induction bs with
  | nil => rfl
  | cons b bs ih => simp only [unpack, List.flatMap_cons] at ih ⊢; simp [ih]; omega

@[simp] theorem unpack_nil : unpack [] = [] := rfl

@[simp] theorem unpack_cons (b : UInt8) (bs : List UInt8) :
    unpack (b :: bs) = hi b :: lo b :: unpack bs := rfl

theorem unpack_injective {bs cs : List UInt8} (h : unpack bs = unpack cs) : bs = cs := by
  induction bs generalizing cs with
  | nil => cases cs <;> simp_all
  | cons b bs ih =>
    cases cs with
    | nil => simp at h
    | cons c cs =>
      simp only [unpack_cons, List.cons.injEq] at h
      obtain ⟨h1, h2, h3⟩ := h
      rw [ih h3, ← pair_hi_lo b, ← pair_hi_lo c, h1, h2]

theorem unpack_pack (ns : List (Fin 16)) (h : ns.length % 2 = 0) : unpack (pack ns) = ns := by
  induction ns using pack.induct with
  | case1 a b ns ih =>
    rw [pack, unpack_cons, hi_pair, lo_pair, ih]
    simp only [List.length_cons] at h
    omega
  | case2 ns hns =>
    cases ns with
    | nil => rfl
    | cons a ns =>
      cases ns with
      | nil => simp at h
      | cons b ns => exact absurd rfl (hns a b ns)

theorem getElem_unpack (bs : List UInt8) (i : Nat) (h : i < (unpack bs).length) :
    (unpack bs)[i] = if i % 2 = 0 then hi (bs.getD (i / 2) 0) else lo (bs.getD (i / 2) 0) := by
  induction bs generalizing i with
  | nil => simp at h
  | cons b bs ih =>
    match i with
    | 0 => simp
    | 1 => simp
    | i + 2 =>
      have hi2 : i < (unpack bs).length := by simp at h ⊢; omega
      have hdiv : (i + 2) / 2 = i / 2 + 1 := by omega
      have hmod : (i + 2) % 2 = i % 2 := by omega
      simp only [unpack_cons, List.getElem_cons_succ, hdiv, hmod, List.getD_cons_succ]
      exact ih i hi2

/-! ## Behind a flag -/

/-- What follows the flag is the list. -/
theorem unpack_flagged (ns : List (Fin 16)) :
    unpack (flagged ns) = if ns.length % 2 = 1 then 1 :: ns else 0 :: 0 :: ns := by
  unfold flagged
  split
  · rw [unpack_pack _ (by simp only [List.length_cons]; omega)]
  · rw [unpack_pack _ (by simp only [List.length_cons]; omega)]

theorem flagged_injective {ms ns : List (Fin 16)} (h : flagged ms = flagged ns) : ms = ns := by
  have := congrArg unpack h
  rw [unpack_flagged, unpack_flagged] at this
  split at this <;> split at this <;> simp_all

theorem length_flagged (ns : List (Fin 16)) : (flagged ns).length = 1 + ns.length / 2 := by
  have h := length_unpack (flagged ns)
  rw [unpack_flagged] at h
  split at h <;> simp only [List.length_cons] at h <;> omega

/-- The flag nibble tells the parity. -/
theorem flagged_eq_cons (ns : List (Fin 16)) :
    ∃ b bs, flagged ns = b :: bs ∧ (b &&& 0x10 = 0x10 ↔ ns.length % 2 = 1) := by
  unfold flagged
  split
  · next h =>
    cases ns with
    | nil => simp at h
    | cons n ns =>
      have hflag : ∀ n : Fin 16, pair 1 n &&& 0x10 = 0x10 := by decide
      exact ⟨pair 1 n, pack ns, rfl, iff_of_true (hflag n) h⟩
  · next h => exact ⟨pair 0 0, pack ns, rfl, iff_of_false (by decide) h⟩

end Nibble
