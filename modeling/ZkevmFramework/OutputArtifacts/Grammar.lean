import Mathlib.Data.List.Forall2
import Mathlib.Data.List.TakeDrop
import ZkevmFramework.OutputArtifacts.Range

/-!
# The grammar of `Range` and `Ranges`

`Range.Written` is the grammar `N | N- | -N | N-N` of the header, with the numbers
as written.  The regular expressions accept exactly these texts
(`Range.bounds_eq_some_iff`), so `parse` gives the range that is written whenever
`std::stoi` takes its numbers (`Range.parse_eq_ok_iff`).

`to_string` prints a range in one of the forms, so a printed list is read back
(`Ranges.parse_toString`).
-/

namespace OutputArtifacts

open Cpp

namespace Range

/-- The forms of a range, with the bounds as the text has them. -/
inductive Written : Text → Nat → Option Nat → Prop
  | single {n : Text} (hn : isNumber n = true) : Written n (decimal n) (some (decimal n))
  | lower {n : Text} (hn : isNumber n = true) : Written (n ++ ['-']) (decimal n) none
  | upper {m : Text} (hm : isNumber m = true) : Written ('-' :: m) 0 (some (decimal m))
  | both {n m : Text} (hn : isNumber n = true) (hm : isNumber m = true) :
    Written (n ++ '-' :: m) (decimal n) (some (decimal m))

/-- The text is a range of the grammar: its bounds fit `size_t` and are in order. -/
def Spells (s : Text) (r : Range) : Prop :=
  Written s r.lower.toNat (r.upper.map UInt64.toNat) ∧ ∀ u ∈ r.upper, r.lower ≤ u

/-! ## The regular expressions -/

theorem isNumber_iff {s : Text} : isNumber s = true ↔ s ≠ [] ∧ ∀ c ∈ s, isDigit c = true := by
  simp [isNumber]

theorem ne_dash {c : Char} (h : isDigit c = true) : c ≠ '-' := by
  rintro rfl
  exact absurd h (by decide)

theorem not_isNumber {s : Text} (h : '-' ∈ s) : isNumber s = false := by
  rw [Bool.eq_false_iff]
  intro hs
  exact ne_dash ((isNumber_iff.mp hs).2 _ h) rfl

theorem captureLower_eq_some_iff {s n : Text} :
    captureLower s = some n ↔ s = n ++ ['-'] ∧ isNumber n = true := by
  unfold captureLower
  constructor
  · intro h
    split at h
    · rename_i hs
      obtain ⟨l, hl⟩ := List.getLast?_eq_some_iff.mp hs.1
      have hn : s.dropLast = n := by simpa using h
      rw [← hn]
      refine ⟨?_, hs.2⟩
      rw [hl, List.dropLast_concat]
    · cases h
  · rintro ⟨rfl, hn⟩
    rw [if_pos]
    · rw [List.dropLast_concat]
    · rw [List.dropLast_concat]
      exact ⟨by simp, hn⟩

theorem captureUpper_eq_some_iff {s m : Text} :
    captureUpper s = some m ↔ s = '-' :: m ∧ isNumber m = true := by
  unfold captureUpper
  constructor
  · intro h
    split at h
    · split at h
      · rename_i hm
        rw [Option.some.injEq] at h
        subst h
        exact ⟨rfl, hm⟩
      · cases h
    · cases h
  · rintro ⟨rfl, hm⟩
    exact if_pos hm

theorem captureBoth_eq_some_iff {s n m : Text} :
    captureBoth s = some (n, m) ↔ s = n ++ '-' :: m ∧ isNumber n = true ∧ isNumber m = true := by
  unfold captureBoth
  rw [List.span_eq_takeWhile_dropWhile]
  constructor
  · intro h
    split at h
    · rename_i n' m' hs
      split at h
      · rename_i hnm
        simp only [Option.some.injEq, Prod.mk.injEq] at h
        obtain ⟨rfl, rfl⟩ := h
        rw [Prod.mk.injEq] at hs
        refine ⟨?_, hnm⟩
        rw [← hs.1, ← hs.2, List.takeWhile_append_dropWhile]
      · cases h
    · cases h
  · rintro ⟨rfl, hn, hm⟩
    have hdigits : ∀ c ∈ n, decide (c ≠ '-') = true := by
      intro c hc
      rw [decide_eq_true_eq]
      exact ne_dash ((isNumber_iff.mp hn).2 c hc)
    rw [List.takeWhile_append_of_pos hdigits, List.dropWhile_append_of_pos hdigits]
    simp [hn, hm]

/-- A text that ends with a number does not end with a dash. -/
theorem captureLower_eq_none {x m : Text} (hm : isNumber m = true) : captureLower (x ++ m) = none := by
  rw [Option.eq_none_iff_forall_ne_some]
  intro n h
  obtain ⟨hs, -⟩ := captureLower_eq_some_iff.mp h
  obtain ⟨hne, hdigits⟩ := isNumber_iff.mp hm
  have hlast := congrArg List.getLast? hs
  rw [List.getLast?_append, List.getLast?_concat, List.getLast?_eq_some_getLast hne,
    Option.some_or, Option.some.injEq] at hlast
  exact ne_dash (hdigits _ (List.getLast_mem hne)) hlast

theorem captureUpper_eq_none {n x : Text} (hn : isNumber n = true) : captureUpper (n ++ x) = none := by
  rw [Option.eq_none_iff_forall_ne_some]
  intro m h
  obtain ⟨hs, -⟩ := captureUpper_eq_some_iff.mp h
  obtain ⟨hne, hdigits⟩ := isNumber_iff.mp hn
  cases n with
  | nil => exact hne rfl
  | cons c n =>
    rw [List.cons_append, List.cons.injEq] at hs
    exact ne_dash (hdigits c List.mem_cons_self) hs.1

/-- **The regular expressions accept the grammar.** -/
theorem bounds_eq_some_iff (s : Text) (l : Nat) (u : Option Nat) :
    bounds s = some (l, u) ↔ Written s l u := by
  constructor
  · intro h
    unfold bounds at h
    split at h
    · rename_i hs
      simp only [Option.some.injEq, Prod.mk.injEq] at h
      rw [← h.1, ← h.2]
      exact .single hs
    · split at h
      · rename_i n hs
        obtain ⟨rfl, hn⟩ := captureLower_eq_some_iff.mp hs
        simp only [Option.some.injEq, Prod.mk.injEq] at h
        rw [← h.1, ← h.2]
        exact .lower hn
      · split at h
        · rename_i m hs
          obtain ⟨rfl, hm⟩ := captureUpper_eq_some_iff.mp hs
          simp only [Option.some.injEq, Prod.mk.injEq] at h
          rw [← h.1, ← h.2]
          exact .upper hm
        · obtain ⟨⟨n, m⟩, hnm, hb⟩ := Option.map_eq_some_iff.mp h
          obtain ⟨rfl, hn, hm⟩ := captureBoth_eq_some_iff.mp hnm
          simp only [Prod.mk.injEq] at hb
          rw [← hb.1, ← hb.2]
          exact .both hn hm
  · intro h
    unfold bounds
    cases h with
    | single hn => rw [if_pos hn]
    | lower hn =>
      rw [if_neg (by simp [not_isNumber]), captureLower_eq_some_iff.mpr ⟨rfl, hn⟩]
    | upper hm =>
      rename_i m
      have hlower : captureLower ('-' :: m) = none := captureLower_eq_none (x := ['-']) hm
      rw [if_neg (by simp [not_isNumber]), hlower, captureUpper_eq_some_iff.mpr ⟨rfl, hm⟩]
    | both hn hm =>
      rename_i n m
      have hlower : captureLower (n ++ '-' :: m) = none := by
        have hsplit : n ++ '-' :: m = n ++ ['-'] ++ m := by simp
        rw [hsplit]
        exact captureLower_eq_none hm
      rw [if_neg (by simp [not_isNumber]), hlower, captureUpper_eq_none hn,
        captureBoth_eq_some_iff.mpr ⟨rfl, hn, hm⟩]
      rfl

/-! ## Parsing -/

/-- The bounds fit `int`. -/
def Small (r : Range) : Prop := r.lower.toNat < 2 ^ 31 ∧ ∀ u ∈ r.upper, u.toNat < 2 ^ 31

theorem toNat_asSize {n : Nat} (h : n < 2 ^ 31) : (asSize n).toNat = n := by
  unfold asSize
  rw [UInt64.toNat_ofNat']
  omega

theorem asSize_toNat (n : UInt64) : asSize n.toNat = n := UInt64.ofNat_toNat

theorem ofBounds_eq_ok_iff {s : Text} {l : Nat} {u : Option Nat} {r : Range} :
    ofBounds s (l, u) = .ok r ↔
      (l = r.lower.toNat ∧ u = r.upper.map UInt64.toNat) ∧ (∀ u ∈ r.upper, r.lower ≤ u) ∧
        r.Small := by
  obtain ⟨lower, upper⟩ := r
  unfold Small
  cases u with
  | none =>
    simp only [ofBounds]
    by_cases hl : l < 2 ^ 31
    · rw [if_pos hl, Except.ok.injEq, Range.mk.injEq]
      constructor
      · rintro ⟨rfl, rfl⟩
        refine ⟨⟨(toNat_asSize hl).symm, rfl⟩, by simp, ?_, by simp⟩
        rwa [toNat_asSize hl]
      · rintro ⟨⟨rfl, hu⟩, -⟩
        refine ⟨asSize_toNat lower, ?_⟩
        simpa [eq_comm] using hu
    · rw [if_neg hl]
      refine iff_of_false (by simp) ?_
      rintro ⟨⟨rfl, -⟩, -, hsmall, -⟩
      exact hl hsmall
  | some u =>
    simp only [ofBounds]
    by_cases hlu : l < 2 ^ 31 ∧ u < 2 ^ 31
    · rw [if_pos hlu]
      by_cases hord : u < l
      · rw [if_pos hord]
        refine iff_of_false (by simp) ?_
        rintro ⟨⟨rfl, hu⟩, hle, -⟩
        obtain ⟨u', rfl, rfl⟩ := Option.map_eq_some_iff.mp hu.symm
        have := UInt64.le_iff_toNat_le.mp (hle u' rfl)
        omega
      · rw [if_neg hord, Except.ok.injEq, Range.mk.injEq]
        constructor
        · rintro ⟨rfl, rfl⟩
          simp only [toNat_asSize hlu.1, toNat_asSize hlu.2, Option.map_some, Option.mem_def,
            Option.some.injEq, forall_eq', UInt64.le_iff_toNat_le, hlu, and_self, and_true,
            true_and]
          omega
        · rintro ⟨⟨rfl, hu⟩, -⟩
          obtain ⟨u', rfl, rfl⟩ := Option.map_eq_some_iff.mp hu.symm
          exact ⟨asSize_toNat lower, congrArg some (asSize_toNat u')⟩
    · rw [if_neg hlu]
      refine iff_of_false (by simp) ?_
      rintro ⟨⟨rfl, hu⟩, -, hsmall⟩
      obtain ⟨u', rfl, rfl⟩ := Option.map_eq_some_iff.mp hu.symm
      exact hlu ⟨hsmall.1, hsmall.2 u' rfl⟩

/-- **`parse` gives the range that is written, if its bounds fit `int`.** -/
theorem parse_eq_ok_iff (s : Text) (r : Range) : parse s = .ok r ↔ Spells s r ∧ r.Small := by
  rw [parse_eq, Spells, ← bounds_eq_some_iff]
  cases bounds s with
  | none => simp
  | some b =>
    obtain ⟨l, u⟩ := b
    show ofBounds s (l, u) = .ok r ↔ _
    rw [ofBounds_eq_ok_iff, Option.some.injEq, Prod.mk.injEq, ← and_assoc]

theorem Spells.small {s : Text} {r : Range} (h : Spells s r) (hover : ¬ Overflows s) :
    r.Small := by
  have hb := (bounds_eq_some_iff _ _ _).mpr h.1
  unfold Overflows at hover
  rw [hb] at hover
  simp only [Option.mem_def, Option.some.injEq, exists_eq_left', not_or, not_exists, not_and,
    not_le, Option.map_eq_some_iff] at hover
  refine ⟨hover.1, ?_⟩
  intro u hu
  exact hover.2 _ ⟨u, hu, rfl⟩

end Range

namespace Ranges

/-- The parts between the commas that are not empty. -/
def parts (s : Text) : List Text := (tokens s).filter fun token => !token.isEmpty

/-- Each part is a range, and `ranges` has them in order. -/
def Spells (s : Text) (ranges : Ranges) : Prop := List.Forall₂ Range.Spells (parts s) ranges

theorem parseTokens_eq_ok_iff (tokens : List Text) (before ranges : Ranges) :
    parseTokens tokens before = .ok ranges ↔ ∃ rest, ranges = before ++ rest ∧
      List.Forall₂ (fun token r => Range.parse token = .ok r)
        (tokens.filter fun token => !token.isEmpty) rest := by
  induction tokens generalizing before with
  | nil =>
    constructor
    · intro h
      cases h
      exact ⟨[], by simp, List.Forall₂.nil⟩
    · rintro ⟨rest, rfl, hrest⟩
      cases hrest
      rw [List.append_nil]
      rfl
  | cons token tokens ih =>
    by_cases ht : token = []
    · subst ht
      rw [parseTokens_skip, ih]
      rfl
    · rw [parseTokens_cons ht, List.filter_cons_of_pos (by simpa using ht)]
      cases hp : Range.parse token with
      | error e =>
        refine iff_of_false (by exact fun h => by cases h) ?_
        rintro ⟨rest, -, hrest⟩
        cases hrest with
        | cons hr => cases hp.symm.trans hr
      | ok r =>
        rw [ok_bind, ih]
        constructor
        · rintro ⟨rest, rfl, hrest⟩
          exact ⟨r :: rest, by simp, List.Forall₂.cons hp hrest⟩
        · rintro ⟨rest, rfl, hrest⟩
          cases hrest with
          | cons hr hrest =>
            rename_i r' rest
            obtain rfl : r = r' := by simpa using hp.symm.trans hr
            exact ⟨rest, by simp, hrest⟩

/-- **`Ranges::parse` gives the ranges that are written, if their bounds fit `int`.** -/
theorem parse_eq_ok_iff (s : Text) (ranges : Ranges) :
    parse s = .ok ranges ↔ Spells s ranges ∧ ∀ r ∈ ranges, r.Small := by
  unfold parse Spells
  rw [parseTokens_eq_ok_iff, ← forall₂_and_right]
  simp only [List.nil_append, exists_eq_left', Range.parse_eq_ok_iff]
  rfl

/-- Where no number too large is reached, there is none. -/
theorem small_of_not_overflows {tokens : List Text} {ranges : Ranges} (hover : ¬ Overflows tokens)
    (h : List.Forall₂ Range.Spells (tokens.filter fun token => !token.isEmpty) ranges) :
    ∀ r ∈ ranges, r.Small := by
  induction tokens generalizing ranges with
  | nil =>
    cases h
    simp
  | cons token tokens ih =>
    unfold Overflows at hover
    rw [not_or] at hover
    by_cases ht : token = []
    · subst ht
      exact ih (fun hrest => hover.2 ⟨Or.inl rfl, hrest⟩) h
    · rw [List.filter_cons_of_pos (by simpa using ht)] at h
      cases h with
      | cons hr hrest =>
        rename_i r rest
        have hsmall := hr.small fun ho => hover.1 ⟨ht, ho⟩
        have haccepted : Range.Accepted token :=
          (Range.parse_ok_iff token).mp ⟨r, (Range.parse_eq_ok_iff token r).mpr ⟨hr, hsmall⟩⟩
        rw [List.forall_mem_cons]
        exact ⟨hsmall, ih (fun hrest => hover.2 ⟨Or.inr haccepted, hrest⟩) hrest⟩

end Ranges

/-- **`Range::parse` accepts the grammar, and `Ranges::parse` a list of its texts
and of empty parts**, where no number from `2 ^ 31` on is reached. -/
theorem parse_grammar (s : Text) :
    (¬ Range.Overflows s →
      (∀ r, Range.parse s = .ok r ↔ Range.Spells s r) ∧
        ((∀ r, ¬ Range.Spells s r) → ∃ message, Range.parse s = .error (.error message))) ∧
    (¬ Ranges.Overflows (Ranges.tokens s) →
      (∀ ranges, Ranges.parse s = .ok ranges ↔ Ranges.Spells s ranges) ∧
        ((∀ ranges, ¬ Ranges.Spells s ranges) →
          ∃ message, Ranges.parse s = .error (.error message))) := by
  constructor
  · intro hover
    have hiff : ∀ r, Range.parse s = .ok r ↔ Range.Spells s r := by
      intro r
      rw [Range.parse_eq_ok_iff]
      exact and_iff_left_of_imp fun h => h.small hover
    refine ⟨hiff, fun hno => ?_⟩
    exact error_of_returns ((Range.returns_parse_iff s).mpr hover)
      fun r hr => hno r ((hiff r).mp hr)
  · intro hover
    have hiff : ∀ ranges, Ranges.parse s = .ok ranges ↔ Ranges.Spells s ranges := by
      intro ranges
      rw [Ranges.parse_eq_ok_iff]
      exact and_iff_left_of_imp fun h => Ranges.small_of_not_overflows hover h
    refine ⟨hiff, fun hno => ?_⟩
    exact error_of_returns ((Ranges.returns_parse_iff s).mpr hover)
      fun ranges hr => hno ranges ((hiff ranges).mp hr)

/-- A blank text is a list of no ranges, and a part may be empty. -/
theorem parse_accepts_blank :
    Ranges.parse "".toList = .ok [] ∧
      Ranges.parse "1,,2".toList = .ok [⟨1, some 1⟩, ⟨2, some 2⟩] ∧
      ∀ r, ¬ Range.Spells "".toList r := by
  refine ⟨rfl, by decide, ?_⟩
  intro r h
  have hb := (Range.bounds_eq_some_iff _ _ _).mpr h.1
  rw [show Range.bounds "".toList = none by decide] at hb
  cases hb

/-- `-1,3-5,8-` and `2-1` -/
theorem parse_grammar_sample :
    ((∀ r, Range.parse "3-5".toList = .ok r ↔ Range.Spells "3-5".toList r) ∧
      ((∀ r, ¬ Range.Spells "3-5".toList r) →
        ∃ message, Range.parse "3-5".toList = .error (.error message))) ∧
    (∀ ranges, Ranges.parse "-1,3-5,8-".toList = .ok ranges ↔
      Ranges.Spells "-1,3-5,8-".toList ranges) ∧
      ((∀ ranges, ¬ Ranges.Spells "-1,3-5,8-".toList ranges) →
        ∃ message, Ranges.parse "-1,3-5,8-".toList = .error (.error message)) := by
  refine ⟨(parse_grammar "3-5".toList).1 (by decide), (parse_grammar "-1,3-5,8-".toList).2 ?_⟩
  rw [← Ranges.returns_parse_iff]
  exact Or.inl ⟨[⟨0, some 1⟩, ⟨3, some 5⟩, ⟨8, none⟩], by decide⟩

/-! ## Printing -/

/-- `Range::to_string` -/
def Range.toString (r : Range) : Text :=
  match r.upper with
  | some u =>
    if u ≠ r.lower then toDecimal r.lower.toNat ++ "-".toList ++ toDecimal u.toNat
    else toDecimal r.lower.toNat
  | none => toDecimal r.lower.toNat ++ "-".toList

/-- `Ranges::to_string` -/
def Ranges.toString (ranges : Ranges) : Text := List.intercalate ",".toList (ranges.map Range.toString)

namespace Range

theorem isNumber_toDecimal (n : Nat) : isNumber (toDecimal n) = true :=
  isNumber_iff.mpr ⟨toDecimal_ne_nil n, isDigit_of_mem_toDecimal⟩

/-- **A printed range is written in one of the forms.** -/
theorem spells_toString {r : Range} (h : ∀ u ∈ r.upper, r.lower ≤ u) : Spells r.toString r := by
  refine ⟨?_, h⟩
  obtain ⟨lower, upper⟩ := r
  unfold toString
  cases upper with
  | none =>
    have hform := Written.lower (isNumber_toDecimal lower.toNat)
    rwa [decimal_toDecimal] at hform
  | some u =>
    by_cases hu : u = lower
    · subst hu
      have hform := Written.single (isNumber_toDecimal u.toNat)
      rw [decimal_toDecimal] at hform
      simpa using hform
    · have hform := Written.both (isNumber_toDecimal lower.toNat) (isNumber_toDecimal u.toNat)
      rw [decimal_toDecimal, decimal_toDecimal] at hform
      simpa [hu] using hform

theorem mem_toString {r : Range} {c : Char} (h : c ∈ r.toString) : isDigit c = true ∨ c = '-' := by
  have hdash : ∀ c ∈ "-".toList, c = '-' := by
    intro c hc
    rw [show "-".toList = ['-'] by decide] at hc
    exact List.mem_singleton.mp hc
  unfold toString at h
  split at h
  · split at h
    · rw [List.mem_append, List.mem_append] at h
      rcases h with (h | h) | h
      · exact Or.inl (isDigit_of_mem_toDecimal _ h)
      · exact Or.inr (hdash c h)
      · exact Or.inl (isDigit_of_mem_toDecimal _ h)
    · exact Or.inl (isDigit_of_mem_toDecimal _ h)
  · rw [List.mem_append] at h
    rcases h with h | h
    · exact Or.inl (isDigit_of_mem_toDecimal _ h)
    · exact Or.inr (hdash c h)

theorem comma_not_mem_toString (r : Range) : ',' ∉ r.toString := by
  intro h
  rcases mem_toString h with h | h
  · exact absurd h (by decide)
  · exact absurd h (by decide)

theorem toString_ne_nil (r : Range) : r.toString ≠ [] := by
  have hne := toDecimal_ne_nil r.lower.toNat
  unfold toString
  split
  · split
    · simp [hne]
    · exact hne
  · simp [hne]

end Range

namespace Ranges

theorem parts_toString (ranges : Ranges) : parts ranges.toString = ranges.map Range.toString := by
  unfold parts tokens toString
  by_cases hne : ranges = []
  · subst hne
    rfl
  · rw [show ",".toList = [','] by decide, List.splitOn_intercalate ',' ?_ (by simpa using hne)]
    · rw [List.filter_eq_self]
      intro token htoken
      obtain ⟨r, -, rfl⟩ := List.mem_map.mp htoken
      simpa using r.toString_ne_nil
    · intro token htoken
      obtain ⟨r, -, rfl⟩ := List.mem_map.mp htoken
      exact r.comma_not_mem_toString

theorem ordered_of_spells {texts : List Text} {ranges : Ranges}
    (h : List.Forall₂ Range.Spells texts ranges) : ∀ r ∈ ranges, ∀ u ∈ r.upper, r.lower ≤ u := by
  induction h with
  | nil => simp
  | cons hs _ ih =>
    rw [List.forall_mem_cons]
    exact ⟨hs.2, ih⟩

/-- **Printed ranges are read back.** -/
theorem parse_toString {s : Text} {ranges : Ranges} (h : parse s = .ok ranges) :
    parse ranges.toString = .ok ranges := by
  obtain ⟨hspells, hsmall⟩ := (parse_eq_ok_iff s ranges).mp h
  refine (parse_eq_ok_iff _ ranges).mpr ⟨?_, hsmall⟩
  unfold Spells at hspells ⊢
  rw [parts_toString, List.forall₂_map_left_iff, List.forall₂_same]
  intro r hr
  exact Range.spells_toString (ordered_of_spells hspells r hr)

/-- `-1,03-5,8-,7` is printed as `0-1,3-5,8-,7`. -/
theorem parse_toString_sample :
    parse (Ranges.toString [⟨0, some 1⟩, ⟨3, some 5⟩, ⟨8, none⟩, ⟨7, some 7⟩]) =
      .ok [⟨0, some 1⟩, ⟨3, some 5⟩, ⟨8, none⟩, ⟨7, some 7⟩] :=
  parse_toString (s := "-1,03-5,8-,7".toList) (by decide)

end Ranges

end OutputArtifacts
