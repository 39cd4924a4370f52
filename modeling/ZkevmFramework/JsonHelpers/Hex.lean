import ZkevmFramework.JsonHelpers.Schema

/-!
# Hexadecimal texts

`to_bytes` and `to_std_bytes`: a leading `0x` is dropped and pairs of digits
become bytes.  What is decoded before the first failure is appended all the same.

`decode` is what a text stands for.  A text of hexadecimal digits decodes when
their number is even, to half as many bytes (`decode_digits`).
-/

namespace JsonHelpers

open Cpp

/-- The value of a hexadecimal digit. -/
def hexValue (c : Char) : Option UInt8 :=
  if isDigit c then some (c.toNat - '0'.toNat).toUInt8
  else if 'a' ≤ c && c ≤ 'f' then some (c.toNat - 'a'.toNat + 10).toUInt8
  else if 'A' ≤ c && c ≤ 'F' then some (c.toNat - 'A'.toNat + 10).toUInt8
  else none

/-- `boost::algorithm::unhex`: the bytes put out, and whether it ends without an
exception. -/
def unhex : Text → Bytes × Bool
  | [] => ([], true)
  | [_] => ([], false)
  | a :: b :: rest =>
    match hexValue a, hexValue b with
    | some hi, some lo => ((hi * 16 + lo) :: (unhex rest).1, (unhex rest).2)
    | _, _ => ([], false)

/-- Skip `0x` prefix if exists. -/
def skipPrefix : Text → Text
  | '0' :: 'x' :: t => t
  | t => t

/-- `to_bytes` of a text: the error returned, and `dst`. -/
def toBytes (hexString : Text) (dst : Bytes) : Option Text × Bytes :=
  (if (unhex (skipPrefix hexString)).2 then none else some "Hex string to bytes failed".toList,
    dst ++ (unhex (skipPrefix hexString)).1)

/-- `to_bytes` of a JSON value. -/
def toBytesJson (v : Value) (dst : Bytes) : Except Stop (Option Text × Bytes) :=
  noexcept do return toBytes (← v.asCString) dst

/-- `to_std_bytes` of a text: nothing is appended where an error is returned. -/
def toStdBytes (hexString : Text) (dst : Bytes) : Option Text × Bytes :=
  ((toBytes hexString []).1,
    if (toBytes hexString []).1.isSome then dst else dst ++ (toBytes hexString []).2)

/-- `to_std_bytes` of a JSON value. -/
def toStdBytesJson (v : Value) (dst : Bytes) : Except Stop (Option Text × Bytes) :=
  noexcept do return toStdBytes (← v.asCString) dst

/-! ## What a text stands for -/

/-- The bytes of a hexadecimal text. -/
def decode (hexString : Text) : Option Bytes :=
  if (unhex (skipPrefix hexString)).2 then some (unhex (skipPrefix hexString)).1 else none

theorem toBytes_of_some {hexString : Text} {bytes : Bytes} (h : decode hexString = some bytes)
    (dst : Bytes) : toBytes hexString dst = (none, dst ++ bytes) := by
  unfold decode at h
  unfold toBytes
  cases hr : (unhex (skipPrefix hexString)).2 with
  | false => simp [hr] at h
  | true =>
    simp only [hr, if_true, Option.some.injEq] at h
    simp only [if_true, h]

theorem toBytes_of_none {hexString : Text} (h : decode hexString = none) (dst : Bytes) :
    (toBytes hexString dst).1 = some "Hex string to bytes failed".toList := by
  unfold decode at h
  unfold toBytes
  cases hr : (unhex (skipPrefix hexString)).2 with
  | false => simp only [Bool.false_eq_true, if_false]
  | true => simp [hr] at h

theorem toStdBytes_of_some {hexString : Text} {bytes : Bytes} (h : decode hexString = some bytes)
    (dst : Bytes) : toStdBytes hexString dst = (none, dst ++ bytes) := by
  unfold toStdBytes
  rw [toBytes_of_some h]
  rfl

theorem toStdBytes_of_none {hexString : Text} (h : decode hexString = none) (dst : Bytes) :
    toStdBytes hexString dst = (some "Hex string to bytes failed".toList, dst) := by
  unfold toStdBytes
  rw [toBytes_of_none h]
  rfl

theorem hexValue_of_isHex {c : Char} (h : isHex c = true) : ∃ x, hexValue c = some x := by
  unfold isHex isLowerHex at h
  unfold hexValue
  split_ifs with h1 h2 h3
  · exact ⟨_, rfl⟩
  · exact ⟨_, rfl⟩
  · exact ⟨_, rfl⟩
  · rw [Bool.not_eq_true] at h1 h2 h3
    rw [h1, h2, h3] at h
    cases h

theorem unhex_pair {a b : Char} (ha : isHex a = true) (hb : isHex b = true) (rest : Text) :
    ∃ x, unhex (a :: b :: rest) = (x :: (unhex rest).1, (unhex rest).2) := by
  obtain ⟨hi, hhi⟩ := hexValue_of_isHex ha
  obtain ⟨lo, hlo⟩ := hexValue_of_isHex hb
  refine ⟨hi * 16 + lo, ?_⟩
  rw [unhex, hhi, hlo]

/-- Digits in pairs decode; a last one alone does not. -/
theorem unhex_digits (d : Text) (h : ∀ c ∈ d, isHex c = true) :
    ((unhex d).2 = true ↔ d.length % 2 = 0) ∧ (unhex d).1.length = d.length / 2 := by
  induction d using unhex.induct with
  | case1 => exact ⟨by decide, rfl⟩
  | case2 c => simp [unhex]
  | case3 a b rest hi lo ha hb ih =>
    rw [List.forall_mem_cons, List.forall_mem_cons] at h
    obtain ⟨x, hx⟩ := unhex_pair h.1 h.2.1 rest
    obtain ⟨hok, hlen⟩ := ih h.2.2
    rw [hx]
    simp only [List.length_cons, hok, hlen]
    omega
  | case4 a b rest hnone =>
    rw [List.forall_mem_cons, List.forall_mem_cons] at h
    obtain ⟨hi, hhi⟩ := hexValue_of_isHex h.1
    obtain ⟨lo, hlo⟩ := hexValue_of_isHex h.2.1
    exact absurd hlo (hnone hi lo hhi)

/-- The number of digits after the prefix. -/
def digitCount (hexString : Text) : Nat := (skipPrefix hexString).length

section Prefixed

variable {chars : Char → Bool} {t : Text}

theorem prefixed_of_matches (h : (Pattern.mk "0x" chars).matches t = true) :
    ∃ d, t = '0' :: 'x' :: d ∧ ∀ c ∈ d, chars c = true := by
  obtain ⟨d, ht, -, hd⟩ := (Pattern.matches_iff _ _).mp h
  refine ⟨d, ?_, hd⟩
  rw [ht]
  show "0x".toList ++ d = _
  rw [show "0x".toList = ['0', 'x'] by decide]
  rfl

theorem length_of_matches (h : (Pattern.mk "0x" chars).matches t = true) :
    t.length = digitCount t + 2 := by
  obtain ⟨d, rfl, -⟩ := prefixed_of_matches h
  rfl

/-- **A prefixed text of digits decodes exactly when their number is even.** -/
theorem decode_digits (hchars : ∀ c, chars c = true → isHex c = true)
    (h : (Pattern.mk "0x" chars).matches t = true) :
    (digitCount t % 2 = 0 → ∃ bytes, decode t = some bytes ∧ bytes.length = digitCount t / 2) ∧
      (digitCount t % 2 ≠ 0 → decode t = none) := by
  obtain ⟨d, rfl, hd⟩ := prefixed_of_matches h
  obtain ⟨hok, hlen⟩ := unhex_digits d fun c hc => hchars c (hd c hc)
  constructor
  · intro heven
    refine ⟨(unhex d).1, ?_, hlen⟩
    show (if (unhex d).2 then some (unhex d).1 else none) = _
    rw [if_pos (hok.mpr heven)]
  · intro hodd
    show (if (unhex d).2 then some (unhex d).1 else none) = _
    rw [if_neg fun htrue => hodd (hok.mp htrue)]

theorem cStr_of_matches (hchars : ∀ c, chars c = true → isHex c = true)
    (h : (Pattern.mk "0x" chars).matches t = true) : cStr t = t := by
  obtain ⟨d, rfl, hd⟩ := prefixed_of_matches h
  apply cStr_eq
  intro c hc
  rw [List.mem_cons, List.mem_cons] at hc
  rcases hc with rfl | rfl | hc
  · decide
  · decide
  · exact hex_ne_nul (hchars c (hd c hc))

end Prefixed

/-- The text is hexadecimal. -/
def Decodes (t : Text) : Prop := ∃ bytes, decode t = some bytes

/-- What the conversion of a text returns. -/
def decoded (hexString : Text) : Except Stop Bytes :=
  match decode hexString with
  | some bytes => .ok bytes
  | none => .error (.error "Hex string to bytes failed".toList)

theorem decoded_ok_iff (hexString : Text) (bytes : Bytes) :
    decoded hexString = .ok bytes ↔ decode hexString = some bytes := by
  unfold decoded
  split <;> simp [*]

/-- A text of decimal digits is handed on whole. -/
theorem cStr_of_digits {t : Text} (h : (Pattern.mk "" isDigit).matches t = true) : cStr t = t := by
  obtain ⟨d, ht, -, hd⟩ := (Pattern.matches_iff _ _).mp h
  apply cStr_eq
  intro c hc
  rw [ht] at hc
  rcases List.mem_append.mp hc with hc | hc
  · cases hc
  · exact digit_ne_nul (hd c hc)

/-! ## Fields of texts -/

section Fields

variable {v m : Value}

/-- A field with digits after `0x`. -/
structure HexField (chars : Char → Bool) (v : Value) (name : String) : Prop where
  has : v.has name = true
  isString : (v.field name).isString = true
  digits : (Pattern.mk "0x" chars).matches (v.field name).text = true

/-- A field with decimal digits. -/
structure DecimalField (v : Value) (name : String) : Prop where
  has : v.has name = true
  isString : (v.field name).isString = true
  digits : (Pattern.mk "" isDigit).matches (v.field name).text = true

theorem HexField.cStr_text {chars : Char → Bool} {name : String} (h : HexField chars v name)
    (hchars : ∀ c, chars c = true → isHex c = true) :
    cStr (v.field name).text = (v.field name).text :=
  cStr_of_matches hchars h.digits

theorem DecimalField.asCString {name : String} (h : DecimalField v name) :
    (v.field name).asCString = .ok (v.field name).text := by
  rw [Value.asCString_of h.isString, cStr_of_digits h.digits]

theorem hexField_of {chars : Char → Bool} {name : String} {lower : Nat} {upper : Option Nat}
    (h : m.has name = true ∧ Schema.string ⟨"0x", chars⟩ lower upper (m.field name) = true) :
    HexField chars m name := by
  obtain ⟨hhas, hs⟩ := h
  obtain ⟨hstr, hd, -⟩ := Schema.string_iff.mp hs
  exact ⟨hhas, hstr, hd⟩

theorem decimalField_of {name : String} {lower : Nat} {upper : Option Nat}
    (h : m.has name = true ∧ Schema.string ⟨"", isDigit⟩ lower upper (m.field name) = true) :
    DecimalField m name := by
  obtain ⟨hhas, hs⟩ := h
  obtain ⟨hstr, hd, -⟩ := Schema.string_iff.mp hs
  exact ⟨hhas, hstr, hd⟩

/-- Two bounds of 42 leave 40 digits. -/
theorem digitCount_of {chars : Char → Bool} {t : Value}
    (h : Schema.string ⟨"0x", chars⟩ 42 (some 42) t = true) : digitCount t.text = 40 := by
  obtain ⟨-, hd, hlower, hupper⟩ := Schema.string_iff.mp h
  have hlen := length_of_matches hd
  have := hupper 42 rfl
  omega

theorem HexField.decodes_iff {chars : Char → Bool} {name : String} (h : HexField chars m name)
    (hchars : ∀ c, chars c = true → isHex c = true) :
    Decodes (m.field name).text ↔ digitCount (m.field name).text % 2 = 0 := by
  obtain ⟨heven, hodd⟩ := decode_digits hchars h.digits
  unfold Decodes
  by_cases hparity : digitCount (m.field name).text % 2 = 0
  · obtain ⟨bytes, hbytes, -⟩ := heven hparity
    exact iff_of_true ⟨bytes, hbytes⟩ hparity
  · rw [hodd hparity]
    exact iff_of_false (by simp) hparity

end Fields

end JsonHelpers
