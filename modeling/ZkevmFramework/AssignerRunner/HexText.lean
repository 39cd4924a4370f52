import ZkevmFramework.AssignerRunner.Utils

/-!
# Printing bytes and reading them back

`to_str` prints a vector two digits a byte and `to_bytes` reads the text, with the
prefix or without it and in either case of the digits (`unhex_variant`).  A text is
read exactly when it has an even number of hexadecimal digits after the prefix
(`unhex_iff`).

The loop of `byte_array_to_str` counts with an `int` up to a `size_t`, so of a vector
of more than `2 ^ 31` bytes not every byte is printed (`hex_round_trip_iff`).
-/

namespace AssignerRunner

open Cpp JsonHelpers

/-- The digits of one byte, as `std::hex` with `setw(2)` and `setfill('0')` puts them. -/
def printByte (b : UInt8) : Text := [hexDigit (b.toNat / 16), hexDigit (b.toNat % 16)]

/-- The loop of `byte_array_to_str` from the counter `i` on, which is an `int`: the text, if
the counter reaches every byte.  After the last byte it is increased once more; an
overflow there leaves the text as it is. -/
def printFrom (i : Nat) : Bytes → Option Text
  | [] => some []
  | b :: data => if i < 2 ^ 31 then (printFrom (i + 1) data).map (printByte b ++ ·) else none

/-- `to_str` of a vector. -/
def toStr (code : Bytes) : Option Text := (printFrom 0 code).map ("0x".toList ++ ·)

theorem printFrom_eq (i : Nat) (data : Bytes) :
    printFrom i data =
      if data = [] ∨ i + data.length ≤ 2 ^ 31 then some (data.flatMap printByte) else none := by
  induction data generalizing i with
  | nil => rw [if_pos (Or.inl rfl)]; rfl
  | cons b data ih =>
    rw [printFrom, ih, List.length_cons]
    by_cases hlen : i + (data.length + 1) ≤ 2 ^ 31
    · rw [if_pos (by omega), if_pos (Or.inr (by omega)), if_pos (Or.inr hlen)]
      rfl
    · have hnone : ¬ (b :: data = [] ∨ i + (data.length + 1) ≤ 2 ^ 31) := by simpa using hlen
      rw [if_neg hnone]
      by_cases hi : i < 2 ^ 31
      · rw [if_pos hi, if_neg]
        · rfl
        · rintro (rfl | h)
          · exact hlen hi
          · omega
      · rw [if_neg hi]

/-- **A vector of at most `2 ^ 31` bytes is printed.** -/
theorem toStr_eq (code : Bytes) :
    toStr code = if code.length ≤ 2 ^ 31 then some (byteArrayToStr code) else none := by
  unfold toStr byteArrayToStr
  rw [printFrom_eq, Nat.zero_add]
  by_cases hlen : code.length ≤ 2 ^ 31
  · rw [if_pos (Or.inr hlen), if_pos hlen]
    rfl
  · rw [if_neg hlen, if_neg]
    · rfl
    · rintro (rfl | h)
      · exact hlen (by norm_num)
      · exact hlen h

/-! ## Reading -/

/-- The digits of a printed text, any of them in upper case. -/
def Variant (digits printed : Text) : Prop :=
  List.Forall₂ (fun c c' => c = c' ∨ c = c'.toUpper) digits printed

/-- A digit is read in either case. -/
theorem hexValue_hexDigit {n : Nat} (hn : n < 16) {c : Char}
    (hc : c = hexDigit n ∨ c = (hexDigit n).toUpper) : hexValue c = some n.toUInt8 := by
  have hdigits : ∀ n < 16, hexValue (hexDigit n) = some n.toUInt8 ∧
      hexValue (hexDigit n).toUpper = some n.toUInt8 := by decide
  rcases hc with rfl | rfl
  · exact (hdigits n hn).1
  · exact (hdigits n hn).2

theorem nibbles_toUInt8 (b : UInt8) :
    (b.toNat / 16).toUInt8 * 16 + (b.toNat % 16).toUInt8 = b := by
  have hb : b.toNat < 256 := b.toNat_lt
  apply UInt8.toNat_inj.mp
  rw [UInt8.toNat_add, UInt8.toNat_mul]
  show ((b.toNat / 16) % 256 * 16 % 256 + (b.toNat % 16) % 256) % 256 = b.toNat
  omega

/-- **Printed bytes are read back.** -/
theorem unhex_variant {code : Bytes} {digits : Text} (h : Variant digits (code.flatMap printByte)) :
    unhex digits = (code, true) := by
  unfold Variant at h
  induction code generalizing digits with
  | nil =>
    cases h
    rfl
  | cons b code ih =>
    have h : List.Forall₂ _ digits (hexDigit (b.toNat / 16) :: hexDigit (b.toNat % 16) ::
      code.flatMap printByte) := h
    have hb : b.toNat < 256 := b.toNat_lt
    cases h with
    | cons hhi h =>
      cases h with
      | cons hlo h =>
        rw [unhex, hexValue_hexDigit (by omega) hhi, hexValue_hexDigit (by omega) hlo, ih h]
        exact Prod.ext (congrArg (· :: code) (nibbles_toUInt8 b)) rfl

theorem isHex_iff_hexValue {c : Char} : isHex c = true ↔ (hexValue c).isSome = true := by
  unfold isHex isLowerHex hexValue
  split_ifs with h1 h2 h3 <;> simp [*]

/-- **A text is decoded when it has an even number of digits and nothing else.** -/
theorem unhex_iff (d : Text) :
    (unhex d).2 = true ↔ d.length % 2 = 0 ∧ ∀ c ∈ d, isHex c = true := by
  constructor
  · intro h
    have hdigits : ∀ c ∈ d, isHex c = true := by
      induction d using unhex.induct with
      | case1 => simp
      | case2 c => cases h
      | case3 a b rest hi lo ha hb ih =>
        rw [unhex, ha, hb] at h
        rw [List.forall_mem_cons, List.forall_mem_cons, isHex_iff_hexValue, isHex_iff_hexValue, ha, hb]
        exact ⟨rfl, rfl, ih h⟩
      | case4 a b rest hnone =>
        rw [unhex] at h
        split at h
        · rename_i hi lo ha hb
          exact absurd hb (hnone hi lo ha)
        · cases h
    exact ⟨((unhex_digits d hdigits).1).mp h, hdigits⟩
  · rintro ⟨heven, hdigits⟩
    exact ((unhex_digits d hdigits).1).mpr heven

/-- Digits have no prefix. -/
theorem skipPrefix_of_hex {d : Text} (h : ∀ c ∈ d, isHex c = true) : skipPrefix d = d := by
  unfold skipPrefix
  split
  · rename_i t
    have hx : isHex 'x' = true := h 'x' (by simp)
    exact absurd hx (by decide)
  · rfl

theorem toBytes_of_unhex {s : Text} {code : Bytes} (h : unhex (skipPrefix s) = (code, true))
    (dst : Bytes) : toBytes s dst = (none, dst ++ code) := by
  unfold toBytes
  rw [h]
  rfl

theorem toBytes_variant {code : Bytes} {digits : Text} (h : Variant digits (code.flatMap printByte))
    (dst : Bytes) :
    toBytes ("0x".toList ++ digits) dst = (none, dst ++ code) ∧
      toBytes digits dst = (none, dst ++ code) := by
  have hread := unhex_variant h
  have hdigits : ∀ c ∈ digits, isHex c = true := ((unhex_iff digits).mp (by rw [hread])).2
  constructor
  · have hpre : skipPrefix ("0x".toList ++ digits) = digits := rfl
    apply toBytes_of_unhex
    rwa [hpre]
  · apply toBytes_of_unhex
    rwa [skipPrefix_of_hex hdigits]

/-- **Bytes are printed and read back exactly when there are at most `2 ^ 31`; a text
is read without an error exactly when it is digits in pairs.** -/
theorem hex_round_trip_iff (code : Bytes) (s : Text) (dst : Bytes) :
    ((∃ printed, toStr code = some ("0x".toList ++ printed) ∧
        ∀ digits, Variant digits printed → ∀ dst,
          toBytes ("0x".toList ++ digits) dst = (none, dst ++ code) ∧
            toBytes digits dst = (none, dst ++ code)) ↔ code.length ≤ 2 ^ 31) ∧
    ((toBytes s dst).1 = none ↔
      (skipPrefix s).length % 2 = 0 ∧ ∀ c ∈ skipPrefix s, isHex c = true) := by
  constructor
  · rw [toStr_eq]
    by_cases hlen : code.length ≤ 2 ^ 31
    · rw [if_pos hlen]
      exact iff_of_true ⟨code.flatMap printByte, rfl, fun digits h dst => toBytes_variant h dst⟩ hlen
    · rw [if_neg hlen]
      exact iff_of_false (by simp) hlen
  · rw [← unhex_iff]
    unfold toBytes
    cases (unhex (skipPrefix s)).2 <;> simp

/-- A vector of one byte more than 2 GiB: the counter does not reach the last one. -/
theorem toStr_overflows : toStr (List.replicate (2 ^ 31 + 1) 0) = none := by
  rw [toStr_eq, List.length_replicate, if_neg (Nat.not_succ_le_self _)]

end AssignerRunner
