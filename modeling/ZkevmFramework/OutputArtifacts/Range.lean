import ZkevmFramework.Lib.Cpp

/-!
# `Range` and `Ranges`

A range is inclusive and may be open above.  Its text has one of four forms,
each tried by a regular expression of its own; `Range.bounds` reads off the
numbers as written, before `std::stoi` narrows them, and `Range.parse_eq` says
what becomes of them.
-/

namespace OutputArtifacts

open Cpp

structure Range where
  lower : UInt64
  upper : Option UInt64
deriving DecidableEq

abbrev Ranges := List Range

namespace Range

/-- `^\d+$` -/
def isNumber (s : Text) : Bool := s ≠ [] && s.all isDigit

/-- The capture of `^(\d+)-$`. -/
def captureLower (s : Text) : Option Text :=
  if s.getLast? = some '-' ∧ isNumber s.dropLast then some s.dropLast else none

/-- The capture of `^-(\d+)$`. -/
def captureUpper : Text → Option Text
  | '-' :: m => if isNumber m then some m else none
  | _ => none

/-- The captures of `^(\d+)-(\d+)$`. -/
def captureBoth (s : Text) : Option (Text × Text) :=
  match s.span (· ≠ '-') with
  | (n, '-' :: m) => if isNumber n ∧ isNumber m then some (n, m) else none
  | _ => none

/-- A non-negative `int` as `size_t`. -/
def asSize (n : Nat) : UInt64 := UInt64.ofNat n

def parse (s : Text) : Except Stop Range :=
  if isNumber s then do
    let n ← stoi s
    return ⟨asSize n, some (asSize n)⟩
  else
    match captureLower s with
    | some n => do
      let n ← stoi n
      return ⟨asSize n, none⟩
    | none =>
      match captureUpper s with
      | some m => do
        let m ← stoi m
        return ⟨0, some (asSize m)⟩
      | none =>
        match captureBoth s with
        | some (n, m) => do
          let lower ← stoi n
          let upper ← stoi m
          if upper < lower then
            throw (.error ("Upper index is less than lower index: ".toList ++ s))
          return ⟨asSize lower, some (asSize upper)⟩
        | none => throw (.error ("Bad index range: ".toList ++ s))

/-- The bounds as the text has them. -/
def bounds (s : Text) : Option (Nat × Option Nat) :=
  if isNumber s then some (decimal s, some (decimal s))
  else
    match captureLower s with
    | some n => some (decimal n, none)
    | none =>
      match captureUpper s with
      | some m => some (0, some (decimal m))
      | none => (captureBoth s).map fun nm => (decimal nm.1, some (decimal nm.2))

/-- Some number does not fit `int`. -/
def Overflows (s : Text) : Prop := ∃ b ∈ bounds s, 2 ^ 31 ≤ b.1 ∨ ∃ n ∈ b.2, 2 ^ 31 ≤ n

instance (s : Text) : Decidable (Overflows s) :=
  inferInstanceAs (Decidable (∃ b ∈ bounds s, 2 ^ 31 ≤ b.1 ∨ ∃ n ∈ b.2, 2 ^ 31 ≤ n))

/-- One of the four forms, with numbers that fit `int` and are in order. -/
def Accepted (s : Text) : Prop := ∃ b ∈ bounds s, b.1 < 2 ^ 31 ∧ ∀ n ∈ b.2, n < 2 ^ 31 ∧ b.1 ≤ n

instance (s : Text) : Decidable (Accepted s) :=
  inferInstanceAs (Decidable (∃ b ∈ bounds s, b.1 < 2 ^ 31 ∧ ∀ n ∈ b.2, n < 2 ^ 31 ∧ b.1 ≤ n))

/-! ## What `parse` makes of the bounds -/

/-- The outcome for a text with the given bounds. -/
def ofBounds (s : Text) : Nat × Option Nat → Except Stop Range
  | (l, none) => if l < 2 ^ 31 then .ok ⟨asSize l, none⟩ else .error (.throws .outOfRange)
  | (l, some u) =>
    if l < 2 ^ 31 ∧ u < 2 ^ 31 then
      if u < l then .error (.error ("Upper index is less than lower index: ".toList ++ s))
      else .ok ⟨asSize l, some (asSize u)⟩
    else .error (.throws .outOfRange)

theorem stoi_bind {α : Type} (digits : Text) (f : Nat → Except Stop α) :
    (stoi digits >>= f) =
      if decimal digits < 2 ^ 31 then f (decimal digits) else .error (.throws .outOfRange) := by
  unfold stoi
  by_cases h : decimal digits < 2 ^ 31
  · rw [if_pos h, if_pos h]
    rfl
  · rw [if_neg h, if_neg h]
    rfl

/-- **`parse` by the bounds of the text.** -/
theorem parse_eq (s : Text) :
    parse s = match bounds s with
      | some b => ofBounds s b
      | none => .error (.error ("Bad index range: ".toList ++ s)) := by
  unfold parse bounds
  simp only [stoi_bind]
  split
  · simp only [ofBounds, and_self, Nat.lt_irrefl, if_false]
    rfl
  · split
    · simp only [ofBounds]
      rfl
    · split
      · simp only [ofBounds, show (0 : Nat) < 2 ^ 31 by decide, true_and, Nat.not_lt_zero, if_false]
        rfl
      · split
        · next n m hc =>
          simp only [hc, Option.map_some, ofBounds]
          by_cases hn : decimal n < 2 ^ 31
          · by_cases hm : decimal m < 2 ^ 31
            · simp only [hn, hm, and_self, if_true]
              split <;> rfl
            · simp only [hn, hm, and_false, if_true, if_false]
          · simp only [hn, false_and, if_false]
        · next hc =>
          simp only [hc, Option.map_none]
          rfl

theorem returns_ofBounds_iff (s : Text) (l : Nat) (u : Option Nat) :
    Returns (ofBounds s (l, u)) ↔ ¬ (2 ^ 31 ≤ l ∨ ∃ n ∈ u, 2 ^ 31 ≤ n) := by
  cases u with
  | none =>
    simp only [ofBounds]
    by_cases h : l < 2 ^ 31
    · rw [if_pos h]
      refine iff_of_true (returns_ok _) ?_
      rintro (hl | ⟨n, hn, -⟩)
      · exact absurd h (Nat.not_lt.mpr hl)
      · cases hn
    · rw [if_neg h]
      refine iff_of_false (not_returns_throws _) ?_
      intro hn
      exact hn (.inl (Nat.not_lt.mp h))
  | some u =>
    simp only [ofBounds, Option.mem_some_iff, exists_eq_left']
    by_cases h : l < 2 ^ 31 ∧ u < 2 ^ 31
    · rw [if_pos h]
      refine iff_of_true ?_ (by omega)
      split
      · exact returns_error _
      · exact returns_ok _
    · rw [if_neg h]
      exact iff_of_false (not_returns_throws _) (by omega)

theorem ofBounds_ok_iff (s : Text) (l : Nat) (u : Option Nat) :
    (∃ r, ofBounds s (l, u) = .ok r) ↔ l < 2 ^ 31 ∧ ∀ n ∈ u, n < 2 ^ 31 ∧ l ≤ n := by
  cases u with
  | none =>
    simp only [ofBounds]
    by_cases h : l < 2 ^ 31
    · rw [if_pos h]
      refine iff_of_true ⟨_, rfl⟩ ⟨h, ?_⟩
      intro n hn
      cases hn
    · rw [if_neg h]
      refine iff_of_false ?_ fun hn => h hn.1
      rintro ⟨r, hr⟩
      cases hr
  | some u =>
    simp only [ofBounds, Option.mem_some_iff, forall_eq']
    by_cases h : l < 2 ^ 31 ∧ u < 2 ^ 31
    · rw [if_pos h]
      by_cases hlu : u < l
      · rw [if_pos hlu]
        refine iff_of_false ?_ (by omega)
        rintro ⟨r, hr⟩
        cases hr
      · rw [if_neg hlu]
        exact iff_of_true ⟨_, rfl⟩ (by omega)
    · rw [if_neg h]
      refine iff_of_false ?_ (by omega)
      rintro ⟨r, hr⟩
      cases hr

theorem returns_parse_iff (s : Text) : Returns (parse s) ↔ ¬ Overflows s := by
  rw [parse_eq, Overflows]
  cases bounds s with
  | none => simp
  | some b =>
    obtain ⟨l, u⟩ := b
    simp only [Option.mem_some_iff, exists_eq_left', returns_ofBounds_iff]

theorem parse_ok_iff (s : Text) : (∃ r, parse s = .ok r) ↔ Accepted s := by
  rw [parse_eq, Accepted]
  cases bounds s with
  | none => simp
  | some b =>
    obtain ⟨l, u⟩ := b
    simp only [Option.mem_some_iff, exists_eq_left', ofBounds_ok_iff]

end Range

/-! ## Concretisation -/

namespace Range

/-- Both bounds. -/
abbrev ConcreteRange := UInt64 × UInt64

/-- Conversion of a `size_t` to `int`. -/
def toInt (n : UInt64) : Int := Int.bmod n.toNat (2 ^ 32)

/-- `concrete_range` -/
def concreteRange (r : Range) (max : Int) : Except Stop ConcreteRange :=
  let upper_ := toInt (r.upper.getD (UInt64.ofInt max))
  if upper_ > max ∨ upper_ < 0 ∨ r.lower > UInt64.ofInt upper_ then
    throw (.error "index out of bounds".toList)
  else return (r.lower, UInt64.ofInt upper_)

/-- The last index of the range, when `max` is the last there is. -/
def last (r : Range) (max : Int) : Int :=
  match r.upper with
  | some u => u.toNat
  | none => max

/-- The range ends by `max`, and not before it begins. -/
def Within (r : Range) (max : Int) : Prop := r.lower.toNat ≤ r.last max ∧ r.last max ≤ max

instance (r : Range) (max : Int) : Decidable (r.Within max) :=
  inferInstanceAs (Decidable (r.lower.toNat ≤ r.last max ∧ r.last max ≤ max))

/-- The indices of the range. -/
def Contains (r : Range) (n : Nat) : Prop := r.lower.toNat ≤ n ∧ ∀ u ∈ r.upper, n ≤ u.toNat

theorem toNat_ofInt {n : Int} (h : 0 ≤ n) (h' : n < 2 ^ 31) : (UInt64.ofInt n).toNat = n.toNat := by
  unfold UInt64.ofInt
  rw [UInt64.toNat_ofNat']
  omega

theorem toInt_of_lt {n : UInt64} (h : n.toNat < 2 ^ 31) : toInt n = n.toNat := by
  unfold toInt
  rw [Int.bmod_eq_of_le (by omega) (by omega)]

/-- **A range within bounds keeps its bounds.** -/
theorem concreteRange_eq {r : Range} {max : Int} (h : r.Within max) (hmax : max < 2 ^ 31) :
    r.concreteRange max = .ok (r.lower, UInt64.ofInt (r.last max)) := by
  obtain ⟨hlower, hlast⟩ := h
  have hupper : toInt (r.upper.getD (UInt64.ofInt max)) = r.last max := by
    cases hu : r.upper with
    | some u =>
      have hval : r.last max = u.toNat := by rw [last, hu]
      rw [hval] at hlast ⊢
      show toInt u = u.toNat
      exact toInt_of_lt (by omega)
    | none =>
      have hval : r.last max = max := by rw [last, hu]
      rw [hval] at hlower ⊢
      have hn := toNat_ofInt (n := max) (by omega) hmax
      show toInt (UInt64.ofInt max) = max
      rw [toInt_of_lt (by omega), hn]
      omega
  have hcmp : ¬ r.lower > UInt64.ofInt (r.last max) := by
    show ¬ UInt64.ofInt (r.last max) < r.lower
    rw [UInt64.lt_iff_toNat_lt, toNat_ofInt (by omega) (by omega)]
    omega
  unfold concreteRange
  simp only [hupper]
  rw [if_neg]
  · rfl
  · rintro (h | h | h)
    · omega
    · omega
    · exact hcmp h

/-- What the concrete range covers. -/
theorem covers_iff {r : Range} {max : Int} (h : r.Within max) (hmax : max < 2 ^ 31) (n : Nat) :
    (r.lower.toNat ≤ n ∧ n ≤ (UInt64.ofInt (r.last max)).toNat) ↔ r.Contains n ∧ (n : Int) ≤ max := by
  obtain ⟨hlower, hlast⟩ := h
  rw [toNat_ofInt (by omega) (by omega)]
  unfold Contains
  cases hu : r.upper with
  | some u =>
    have hval : r.last max = u.toNat := by rw [last, hu]
    rw [hval] at hlower hlast ⊢
    simp only [Option.mem_def, Option.some.injEq, forall_eq']
    omega
  | none =>
    have hval : r.last max = max := by rw [last, hu]
    rw [hval] at hlower hlast ⊢
    simp only [Option.mem_def, reduceCtorEq, false_imp_iff, implies_true, and_true]
    omega

end Range

/-! ## Lists of ranges -/

namespace Ranges

/-- The loop over the tokens; empty ones are skipped. -/
def parseTokens : List Text → Ranges → Except Stop Ranges
  | [], ranges => return ranges
  | token :: tokens, ranges =>
    if token.isEmpty then parseTokens tokens ranges
    else do
      let range ← Range.parse token
      parseTokens tokens (ranges ++ [range])

/-- The text between the commas.  `getline` gives one empty token less when the
text is empty or ends with a comma. -/
def tokens (s : Text) : List Text := s.splitOn ','

def parse (s : Text) : Except Stop Ranges := parseTokens (tokens s) []

/-- A token with a number too large comes after nothing but good ones. -/
def Overflows : List Text → Prop
  | [] => False
  | token :: tokens => (token ≠ [] ∧ Range.Overflows token) ∨
      ((token = [] ∨ Range.Accepted token) ∧ Overflows tokens)

/-- All tokens are ranges. -/
def Accepted (tokens : List Text) : Prop := ∀ token ∈ tokens, token = [] ∨ Range.Accepted token

theorem parseTokens_skip (tokens : List Text) (ranges : Ranges) :
    parseTokens ([] :: tokens) ranges = parseTokens tokens ranges := rfl

theorem parseTokens_cons {token : Text} (h : token ≠ []) (tokens : List Text) (ranges : Ranges) :
    parseTokens (token :: tokens) ranges =
      Range.parse token >>= fun range => parseTokens tokens (ranges ++ [range]) := by
  rw [parseTokens, if_neg (by simpa using h)]

theorem returns_parseTokens_iff (tokens : List Text) (ranges : Ranges) :
    Returns (parseTokens tokens ranges) ↔ ¬ Overflows tokens := by
  induction tokens generalizing ranges with
  | nil => exact iff_of_true (returns_ok ranges) not_false
  | cons token tokens ih =>
    unfold Overflows
    by_cases ht : token = []
    · subst ht
      rw [parseTokens_skip, ih]
      simp
    · rw [parseTokens_cons ht, returns_bind_iff, Range.returns_parse_iff]
      simp only [ih]
      have hok := Range.parse_ok_iff token
      constructor
      · rintro ⟨ho, hrest⟩ (⟨-, h⟩ | ⟨h | h, hover⟩)
        · exact ho h
        · exact ht h
        · obtain ⟨range, hr⟩ := hok.mpr h
          exact hrest range hr hover
      · intro h
        refine ⟨fun ho => h (Or.inl ⟨ht, ho⟩), ?_⟩
        intro range hr hover
        exact h (Or.inr ⟨Or.inr (hok.mp ⟨range, hr⟩), hover⟩)

theorem parseTokens_ok_iff (tokens : List Text) (ranges : Ranges) :
    (∃ r, parseTokens tokens ranges = .ok r) ↔ Accepted tokens := by
  induction tokens generalizing ranges with
  | nil => exact iff_of_true ⟨ranges, rfl⟩ (by simp [Accepted])
  | cons token tokens ih =>
    unfold Accepted at ih ⊢
    rw [List.forall_mem_cons]
    by_cases ht : token = []
    · subst ht
      rw [parseTokens_skip, ih]
      simp
    · rw [parseTokens_cons ht, ← Range.parse_ok_iff, or_iff_right ht]
      cases hp : Range.parse token with
      | error e =>
        show (∃ r, (.error e : Except Stop Ranges) = .ok r) ↔ _
        simp
      | ok range =>
        show (∃ r, parseTokens tokens (ranges ++ [range]) = .ok r) ↔ _
        rw [ih]
        simp

/-- **`Ranges::parse` throws exactly when it reaches a number too large.** -/
theorem returns_parse_iff (s : Text) : Returns (parse s) ↔ ¬ Overflows (tokens s) :=
  returns_parseTokens_iff (tokens s) []

theorem parse_ok_iff (s : Text) : (∃ r, parse s = .ok r) ↔ Accepted (tokens s) :=
  parseTokens_ok_iff (tokens s) []

abbrev ConcreteRanges := List Range.ConcreteRange

/-- `concrete_ranges` -/
def concreteRanges : Ranges → Int → Except Stop ConcreteRanges
  | [], _ => return []
  | range :: ranges, max => do
    let concrete ← range.concreteRange max
    let rest ← concreteRanges ranges max
    return concrete :: rest

/-- Some concrete range covers the index. -/
def Covers (ranges : ConcreteRanges) (n : Nat) : Prop := ∃ c ∈ ranges, c.1.toNat ≤ n ∧ n ≤ c.2.toNat

/-- **Ranges within bounds cover their indices** up to the largest. -/
theorem concreteRanges_ok {ranges : Ranges} {max : Int} (h : ∀ r ∈ ranges, r.Within max)
    (hmax : max < 2 ^ 31) :
    ∃ concrete, concreteRanges ranges max = .ok concrete ∧
      ∀ n, Covers concrete n ↔ (∃ r ∈ ranges, r.Contains n) ∧ (n : Int) ≤ max := by
  induction ranges with
  | nil =>
    refine ⟨[], rfl, ?_⟩
    intro n
    simp [Covers]
  | cons r ranges ih =>
    rw [List.forall_mem_cons] at h
    obtain ⟨rest, hrest, hcov⟩ := ih h.2
    refine ⟨(r.lower, UInt64.ofInt (r.last max)) :: rest, ?_, ?_⟩
    · rw [concreteRanges, Range.concreteRange_eq h.1 hmax, hrest]
      rfl
    · intro n
      unfold Covers at hcov ⊢
      simp only [List.exists_mem_cons_iff, hcov, Range.covers_iff h.1 hmax]
      rw [or_and_right]

end Ranges

end OutputArtifacts
