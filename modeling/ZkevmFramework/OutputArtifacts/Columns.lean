import Mathlib.Data.List.Perm.Basic
import ZkevmFramework.OutputArtifacts.ProgramOptions

/-!
# The options of `--columns`

`Names` is what one option says: a type name and, after it, a text that is not
empty and stands for ranges.  No name begins with another, so an option says at
most one thing (`captureColumn_eq_some_iff`).  `parse_columns` puts together what
options of different types say, which does not depend on their order
(`parseColumns_exact`).
-/

namespace OutputArtifacts

open Cpp

/-- The option is the name of the type and a text of the ranges. -/
def Names (column : Text) (option : ColumnType × Ranges) : Prop :=
  ∃ text, text ≠ [] ∧ column = option.1.name ++ text ∧ Ranges.parse text = .ok option.2

/-- No name begins with another. -/
theorem ColumnType.eq_of_prefix {t t' : ColumnType} (h : t.name <+: t'.name) : t = t' := by
  cases t <;> cases t' <;> first | rfl | exact absurd h (by decide)

theorem ColumnType.mem_all (t : ColumnType) : t ∈ ColumnType.all := by
  cases t <;> decide

theorem captureColumn_eq_some_iff {column : Text} {t : ColumnType} {text : Text} :
    captureColumn column = some (t, text) ↔ text ≠ [] ∧ column = t.name ++ text := by
  unfold captureColumn
  constructor
  · intro h
    obtain ⟨t', -, ht'⟩ := List.exists_of_findSome?_eq_some h
    split at ht'
    · rename_i hpre
      simp only [Option.some.injEq, Prod.mk.injEq] at ht'
      obtain ⟨rfl, rfl⟩ := ht'
      refine ⟨?_, (List.prefix_iff_eq_append.mp hpre.1).symm⟩
      rw [Ne, List.drop_eq_nil_iff]
      omega
    · cases ht'
  · rintro ⟨hne, rfl⟩
    have hlen : t.name.length < (t.name ++ text).length := by
      rw [List.length_append]
      have := List.length_pos_of_ne_nil hne
      omega
    cases hc : ColumnType.all.findSome? fun t' =>
        if t'.name <+: t.name ++ text ∧ t'.name.length < (t.name ++ text).length then
          some (t', (t.name ++ text).drop t'.name.length)
        else none with
    | none =>
      have hnone := List.findSome?_eq_none_iff.mp hc t t.mem_all
      rw [if_pos ⟨List.prefix_append _ _, hlen⟩] at hnone
      cases hnone
    | some found =>
      obtain ⟨t', -, ht'⟩ := List.exists_of_findSome?_eq_some hc
      split at ht'
      · rename_i hpre
        have heq : t' = t := by
          rcases List.prefix_or_prefix_of_prefix hpre.1 (List.prefix_append t.name text) with
            h | h
          · exact ColumnType.eq_of_prefix h
          · exact (ColumnType.eq_of_prefix h).symm
        subst heq
        rw [← ht', List.drop_left]
      · cases ht'

/-- The array after the options. -/
def stored (options : List (ColumnType × Ranges)) (result : ColumnType → Ranges) :
    ColumnType → Ranges :=
  options.foldl (fun result o => Function.update result o.1 o.2) result

theorem stored_of_not_mem {options : List (ColumnType × Ranges)} {t : ColumnType}
    (h : t ∉ options.map Prod.fst) (result : ColumnType → Ranges) :
    stored options result t = result t := by
  induction options generalizing result with
  | nil => rfl
  | cons o options ih =>
    rw [List.map_cons, List.mem_cons, not_or] at h
    show stored options (Function.update result o.1 o.2) t = _
    rw [ih h.2, Function.update_of_ne h.1]

theorem stored_of_mem {options : List (ColumnType × Ranges)} (hdistinct : (options.map Prod.fst).Nodup)
    {o : ColumnType × Ranges} (ho : o ∈ options) (result : ColumnType → Ranges) :
    stored options result o.1 = o.2 := by
  induction options generalizing result with
  | nil => cases ho
  | cons o' options ih =>
    rw [List.map_cons, List.nodup_cons] at hdistinct
    show stored options (Function.update result o'.1 o'.2) o.1 = _
    rcases List.mem_cons.mp ho with rfl | ho
    · rw [stored_of_not_mem hdistinct.1, Function.update_self]
    · exact ih hdistinct.2 ho _

theorem not_names_of_none {column : Text} (hc : captureColumn column = none)
    (o : ColumnType × Ranges) : ¬ Names column o := by
  rintro ⟨text, hne, hcolumn, -⟩
  cases hc.symm.trans (captureColumn_eq_some_iff.mpr ⟨hne, hcolumn⟩)

/-- An option that names something names the type and the text that are captured. -/
theorem names_iff_of_some {column : Text} {t : ColumnType} {text : Text}
    (hc : captureColumn column = some (t, text)) (o : ColumnType × Ranges) :
    Names column o ↔ o.1 = t ∧ Ranges.parse text = .ok o.2 := by
  constructor
  · rintro ⟨text', hne, hcolumn, hparse⟩
    have hsome := hc.symm.trans (captureColumn_eq_some_iff.mpr ⟨hne, hcolumn⟩)
    simp only [Option.some.injEq, Prod.mk.injEq] at hsome
    rw [hsome.1, hsome.2]
    exact ⟨rfl, hparse⟩
  · rintro ⟨rfl, hparse⟩
    obtain ⟨hne, hcolumn⟩ := captureColumn_eq_some_iff.mp hc
    exact ⟨text, hne, hcolumn, hparse⟩

theorem update_true_eq_false_iff {completed : ColumnType → Bool} {t t' : ColumnType} :
    Function.update completed t true t' = false ↔ t' ≠ t ∧ completed t' = false := by
  by_cases h : t' = t
  · subst h
    simp
  · rw [Function.update_of_ne h, and_iff_right h]

/-- The mask after one option tells the others apart from it. -/
theorem distinct_cons_iff {completed : ColumnType → Bool} {o : ColumnType × Ranges}
    {options : List (ColumnType × Ranges)} :
    ((o :: options).map Prod.fst).Nodup ∧ (∀ o' ∈ o :: options, completed o'.1 = false) ↔
      completed o.1 = false ∧ (options.map Prod.fst).Nodup ∧
        ∀ o' ∈ options, Function.update completed o.1 true o'.1 = false := by
  have hne : o.1 ∉ options.map Prod.fst ↔ ∀ o' ∈ options, o'.1 ≠ o.1 := by
    simp only [List.mem_map, not_exists, not_and, ne_eq]
  simp only [update_true_eq_false_iff, List.map_cons, List.nodup_cons, List.forall_mem_cons, hne]
  constructor
  · rintro ⟨⟨hother, hdistinct⟩, hnew, hrest⟩
    exact ⟨hnew, hdistinct, fun o' ho => ⟨hother o' ho, hrest o' ho⟩⟩
  · rintro ⟨hnew, hdistinct, hrest⟩
    exact ⟨⟨fun o' ho => (hrest o' ho).1, hdistinct⟩, hnew, fun o' ho => (hrest o' ho).2⟩

/-- **The loop stores what options of new and different types say.** -/
theorem parseColumnsFrom_ok_iff (result : ColumnType → Ranges) (completed : ColumnType → Bool)
    (columns : List Text) (final : ColumnType → Ranges) :
    parseColumnsFrom result completed columns = .ok final ↔
      ∃ options, List.Forall₂ Names columns options ∧ (options.map Prod.fst).Nodup ∧
        (∀ o ∈ options, completed o.1 = false) ∧ final = stored options result := by
  induction columns generalizing result completed with
  | nil =>
    show Except.ok result = Except.ok final ↔ _
    constructor
    · intro h
      cases h
      exact ⟨[], List.Forall₂.nil, List.nodup_nil, by simp, rfl⟩
    · rintro ⟨options, hall, -, -, rfl⟩
      cases hall
      rfl
  | cons column columns ih =>
    rw [parseColumnsFrom]
    cases hc : captureColumn column with
    | none =>
      refine iff_of_false (fun h => by cases h) ?_
      rintro ⟨options, hall, -⟩
      cases hall with
      | cons hnames => exact not_names_of_none hc _ hnames
    | some found =>
      obtain ⟨t, text⟩ := found
      show (if completed t = true then _ else _) = _ ↔ _
      by_cases hdone : completed t = true
      · rw [if_pos hdone]
        refine iff_of_false (fun h => by cases h) ?_
        rintro ⟨options, hall, -, hnew, -⟩
        cases hall with
        | cons hnames =>
          have := hnew _ List.mem_cons_self
          rw [((names_iff_of_some hc _).mp hnames).1, hdone] at this
          cases this
      · rw [if_neg hdone]
        rw [Bool.not_eq_true] at hdone
        cases hp : Ranges.parse text with
        | error e =>
          refine iff_of_false (fun h => by cases h) ?_
          rintro ⟨options, hall, -⟩
          cases hall with
          | cons hnames => cases hp.symm.trans ((names_iff_of_some hc _).mp hnames).2
        | ok ranges =>
          rw [ok_bind, ih]
          constructor
          · rintro ⟨options, hall, hdistinct, hnew, rfl⟩
            have hnames := (names_iff_of_some hc (t, ranges)).mpr ⟨rfl, hp⟩
            obtain ⟨hdistinct', hnew'⟩ :=
              (distinct_cons_iff (o := (t, ranges))).mpr ⟨hdone, hdistinct, hnew⟩
            exact ⟨(t, ranges) :: options, List.Forall₂.cons hnames hall, hdistinct', hnew', rfl⟩
          · rintro ⟨options, hall, hdistinct, hnew, rfl⟩
            cases hall with
            | cons hnames hall =>
              rename_i o options
              obtain ⟨t', ranges'⟩ := o
              obtain ⟨rfl, hr⟩ := (names_iff_of_some hc _).mp hnames
              obtain rfl : ranges = ranges' := by simpa using hp.symm.trans hr
              obtain ⟨-, hdistinct', hnew'⟩ := distinct_cons_iff.mp ⟨hdistinct, hnew⟩
              exact ⟨options, hall, hdistinct', hnew', rfl⟩

/-- **`parse_columns` gives each type the ranges of its option, if every option
names ranges and no two name the same type; the order of the options is nothing
to it.** -/
theorem parseColumns_exact (columns : List Text) :
    (∀ result, parseColumns columns = .ok result ↔
      ∃ options, List.Forall₂ Names columns options ∧ (options.map Prod.fst).Nodup ∧
        (∀ o ∈ options, result o.1 = o.2) ∧ ∀ t, t ∉ options.map Prod.fst → result t = []) ∧
    ∀ columns', columns.Perm columns' →
      ∀ result, parseColumns columns = .ok result ↔ parseColumns columns' = .ok result := by
  have hexact : ∀ columns result, parseColumns columns = .ok result ↔
      ∃ options, List.Forall₂ Names columns options ∧ (options.map Prod.fst).Nodup ∧
        (∀ o ∈ options, result o.1 = o.2) ∧ ∀ t, t ∉ options.map Prod.fst → result t = [] := by
    intro columns result
    unfold parseColumns
    rw [parseColumnsFrom_ok_iff]
    constructor
    · rintro ⟨options, hall, hdistinct, -, rfl⟩
      exact ⟨options, hall, hdistinct, fun o ho => stored_of_mem hdistinct ho _,
        fun t ht => stored_of_not_mem ht _⟩
    · rintro ⟨options, hall, hdistinct, hmem, hrest⟩
      refine ⟨options, hall, hdistinct, by simp, ?_⟩
      funext t
      by_cases ht : t ∈ options.map Prod.fst
      · obtain ⟨o, ho, rfl⟩ := List.mem_map.mp ht
        rw [hmem o ho, stored_of_mem hdistinct ho]
      · rw [hrest t ht, stored_of_not_mem ht]
  have hperm : ∀ {columns columns' : List Text}, columns.Perm columns' → ∀ result,
      parseColumns columns' = .ok result → parseColumns columns = .ok result := by
    intro columns columns' hp result h
    obtain ⟨options, hall, hdistinct, hmem, hrest⟩ := (hexact columns' result).mp h
    obtain ⟨options', hall', hp'⟩ := List.perm_comp_forall₂ hp hall
    have htypes := hp'.map Prod.fst
    refine (hexact columns result).mpr ⟨options', hall', htypes.nodup_iff.mpr hdistinct, ?_, ?_⟩
    · exact fun o ho => hmem o (hp'.mem_iff.mp ho)
    · exact fun t ht => hrest t fun ht' => ht (htypes.mem_iff.mpr ht')
  refine ⟨hexact columns, ?_⟩
  intro columns' hp result
  exact ⟨hperm hp.symm result, hperm hp result⟩

end OutputArtifacts
