import ZkevmFramework.OutputArtifacts.Range

/-!
# What `concrete_range` narrows

The upper bound is a `size_t` and goes through an `int` on its way into the
result.  `Range.narrowed` is that `int`; `concrete_ranges` compares it where the
header speaks of the bound itself, and the two differ from `2 ^ 31` on
(`Ranges.concreteRanges_exact_iff`).
-/

namespace OutputArtifacts

open Cpp

namespace Range

/-- The `int` that `concrete_range` compares. -/
def narrowed (r : Range) (max : Int) : Int :=
  match r.upper with
  | some u => toInt u
  | none => max

/-- The narrowed bound is neither below the range nor above the largest index. -/
def NarrowedWithin (r : Range) (max : Int) : Prop :=
  r.lower.toNat ≤ r.narrowed max ∧ r.narrowed max ≤ max

instance (r : Range) (max : Int) : Decidable (r.NarrowedWithin max) :=
  inferInstanceAs (Decidable (r.lower.toNat ≤ r.narrowed max ∧ r.narrowed max ≤ max))

section Bounds

variable {r : Range} {max : Int}

/-- An `int` survives the way through `size_t`. -/
theorem toInt_ofInt (hmin : -2 ^ 31 ≤ max) (hmax : max < 2 ^ 31) : toInt (UInt64.ofInt max) = max := by
  have hval : ((UInt64.ofInt max).toNat : Int) = max % 2 ^ 64 := by
    unfold UInt64.ofInt
    rw [UInt64.toNat_ofNat']
    omega
  unfold toInt
  rw [hval, Int.bmod_def]
  split <;> omega

theorem narrowed_lt (hmax : max < 2 ^ 31) : r.narrowed max < 2 ^ 31 := by
  unfold narrowed
  split
  · unfold toInt
    rw [Int.bmod_def]
    split <;> omega
  · exact hmax

/-- A bound that fits `int` is not changed. -/
theorem narrowed_eq_last (h : ∀ u ∈ r.upper, u.toNat < 2 ^ 31) : r.narrowed max = r.last max := by
  unfold narrowed last
  cases hu : r.upper with
  | none => rfl
  | some u => exact toInt_of_lt (h u hu)

theorem Within.upper_lt (h : r.Within max) (hmax : max < 2 ^ 31) :
    ∀ u ∈ r.upper, u.toNat < 2 ^ 31 := by
  intro u hu
  obtain ⟨-, hlast⟩ := h
  have hval : r.last max = u.toNat := by rw [last, hu]
  omega

/-- **What `concrete_range` returns.** -/
theorem concreteRange_ok_iff (hmin : -2 ^ 31 ≤ max) (hmax : max < 2 ^ 31) (c : ConcreteRange) :
    r.concreteRange max = .ok c ↔
      r.NarrowedWithin max ∧ c = (r.lower, UInt64.ofInt (r.narrowed max)) := by
  have hupper : toInt (r.upper.getD (UInt64.ofInt max)) = r.narrowed max := by
    unfold narrowed
    cases r.upper with
    | none => exact toInt_ofInt hmin hmax
    | some u => rfl
  have hlt := narrowed_lt (r := r) hmax
  unfold concreteRange NarrowedWithin
  simp only [hupper]
  by_cases hneg : r.narrowed max < 0
  · rw [if_pos (by omega)]
    exact iff_of_false (fun h => by cases h) (by omega)
  · have hcmp : r.lower > UInt64.ofInt (r.narrowed max) ↔ r.narrowed max < r.lower.toNat := by
      show UInt64.ofInt (r.narrowed max) < r.lower ↔ _
      rw [UInt64.lt_iff_toNat_lt, toNat_ofInt (by omega) hlt]
      omega
    by_cases hout : r.narrowed max > max ∨ r.narrowed max < 0 ∨
        r.lower > UInt64.ofInt (r.narrowed max)
    · rw [if_pos hout]
      rw [hcmp] at hout
      exact iff_of_false (fun h => by cases h) (by omega)
    · rw [if_neg hout]
      rw [hcmp] at hout
      show Except.ok _ = Except.ok c ↔ _
      rw [Except.ok.injEq, and_iff_right (by omega), eq_comm]

end Bounds

end Range

namespace Ranges

theorem concreteRanges_ok_iff {max : Int} (hmin : -2 ^ 31 ≤ max) (hmax : max < 2 ^ 31)
    (ranges : Ranges) (concrete : ConcreteRanges) :
    concreteRanges ranges max = .ok concrete ↔ (∀ r ∈ ranges, r.NarrowedWithin max) ∧
      concrete = ranges.map fun r => (r.lower, UInt64.ofInt (r.narrowed max)) := by
  induction ranges generalizing concrete with
  | nil =>
    show Except.ok [] = Except.ok concrete ↔ _
    simp [eq_comm]
  | cons r ranges ih =>
    rw [concreteRanges, List.forall_mem_cons, List.map_cons]
    have hr := Range.concreteRange_ok_iff (r := r) hmin hmax
    cases hc : r.concreteRange max with
    | error e =>
      refine iff_of_false (fun h => by cases h) ?_
      rintro ⟨⟨hwithin, -⟩, -⟩
      cases hc.symm.trans ((hr _).mpr ⟨hwithin, rfl⟩)
    | ok c =>
      obtain ⟨hwithin, rfl⟩ := (hr c).mp hc
      rw [ok_bind, and_iff_right hwithin]
      cases hrest : concreteRanges ranges max with
      | error e =>
        refine iff_of_false (fun h => by cases h) ?_
        rintro ⟨hall, -⟩
        cases hrest.symm.trans ((ih _).mpr ⟨hall, rfl⟩)
      | ok rest =>
        obtain ⟨hall, rfl⟩ := (ih rest).mp hrest
        show Except.ok _ = Except.ok concrete ↔ _
        rw [Except.ok.injEq, and_iff_right hall, eq_comm]

/-- **`concrete_ranges` is exact unless it takes a bound from `2 ^ 31` on for the
`int` it is narrowed to.** -/
theorem concreteRanges_exact_iff (ranges : Ranges) (max : Int32) :
    (((∃ concrete, concreteRanges ranges max.toInt = .ok concrete) ↔
        ∀ r ∈ ranges, r.Within max.toInt) ∧
      ∀ concrete, concreteRanges ranges max.toInt = .ok concrete →
        concrete.map (fun c => (c.1, (c.2.toNat : Int))) =
          ranges.map fun r => (r.lower, r.last max.toInt)) ↔
    (∀ r ∈ ranges, ∀ u ∈ r.upper, u.toNat < 2 ^ 31) ∨
      ∃ r ∈ ranges, ¬ r.NarrowedWithin max.toInt := by
  have hmin : -2 ^ 31 ≤ max.toInt := Int32.le_toInt max
  have hmax : max.toInt < 2 ^ 31 := Int32.toInt_lt max
  simp only [concreteRanges_ok_iff hmin hmax, exists_and_left, exists_eq, and_true]
  constructor
  · rintro ⟨hsucceeds, -⟩
    by_cases hall : ∀ r ∈ ranges, r.NarrowedWithin max.toInt
    · exact Or.inl fun r hr => (hsucceeds.mp hall r hr).upper_lt hmax
    · exact Or.inr (by simpa using hall)
  · rintro (hsmall | ⟨r, hr, hout⟩)
    · have heq : ∀ r ∈ ranges, r.narrowed max.toInt = r.last max.toInt :=
        fun r hr => Range.narrowed_eq_last (hsmall r hr)
      refine ⟨forall₂_congr fun r hr => ?_, ?_⟩
      · unfold Range.NarrowedWithin Range.Within
        rw [heq r hr]
      · rintro concrete ⟨hall, rfl⟩
        rw [List.map_map]
        apply List.map_congr_left
        intro r hr
        obtain ⟨hlower, hlast⟩ := hall r hr
        rw [Function.comp_apply, Range.toNat_ofInt (by omega) (by omega), heq r hr]
        rw [heq r hr] at hlower
        exact congrArg (Prod.mk r.lower) (by omega)
    · refine ⟨iff_of_false (fun hall => hout (hall r hr)) fun hall => ?_, ?_⟩
      · have hwithin := hall r hr
        apply hout
        unfold Range.NarrowedWithin
        rw [Range.narrowed_eq_last (hwithin.upper_lt hmax)]
        exact hwithin
      · rintro concrete ⟨hall, -⟩
        exact absurd (hall r hr) hout

/-- The range from 0 to `2 ^ 32 + 1` passes for the range from 0 to 1. -/
theorem concreteRanges_narrows :
    concreteRanges [⟨0, some 4294967297⟩] (5 : Int32).toInt = .ok [(0, 1)] ∧
      ¬ Range.Within ⟨0, some 4294967297⟩ (5 : Int32).toInt := by
  have hmax : (5 : Int32).toInt = 5 := by decide
  have hnarrowed : Range.narrowed ⟨0, some 4294967297⟩ 5 = 1 := by
    show Range.toInt 4294967297 = 1
    have hval : (4294967297 : UInt64).toNat = 4294967297 := rfl
    unfold Range.toInt
    rw [hval, Int.bmod_def]
    norm_num
  rw [hmax]
  refine ⟨(concreteRanges_ok_iff (by norm_num) (by norm_num) _ _).mpr ?_, ?_⟩
  · simp only [List.mem_singleton, forall_eq, Range.NarrowedWithin, List.map_singleton, hnarrowed]
    exact ⟨by decide, rfl⟩
  · rintro ⟨-, hlast⟩
    exact absurd hlast (by decide)

end Ranges

end OutputArtifacts
