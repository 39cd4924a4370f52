import ZkevmFramework.OutputArtifacts.ProgramOptions

/-!
# `write_output_artifacts`

For each table named in the artifacts the selected ranges are made concrete and
handed to `export_table`, which prints exactly the cells they name.  The help
text lets an omitted option select everything; here an empty list of tables
exports nothing, and empty rows or columns name no cell:

    the output follows the options ↔ tables, rows and some columns are given,
      or nothing is selected                                  (writeOutputArtifacts_follows_iff)
-/

namespace AssignerRunner

open Cpp OutputArtifacts

/-- What `write_output_artifacts` asks an assignment table. -/
structure TableAmounts where
  witnessesAmount : UInt32
  publicInputsAmount : UInt32
  constantsAmount : UInt32
  selectorsAmount : UInt32
  maxSize : UInt32

def TableAmounts.amount (a : TableAmounts) : ColumnType → UInt32
  | .witness => a.witnessesAmount
  | .publicInput => a.publicInputsAmount
  | .constant => a.constantsAmount
  | .selector => a.selectorsAmount

/-- `(int)amount - 1` -/
def lastIndex (amount : UInt32) : Int := Int.bmod amount.toNat (2 ^ 32) - 1

section Model

variable {Circuit : Type}

/-- The ranges of a kind of columns. -/
def columnRanges (artifacts : OutputArtifacts Circuit) : ColumnType → Ranges
  | .witness => artifacts.witnessColumns
  | .publicInput => artifacts.publicInputColumns
  | .constant => artifacts.constantColumns
  | .selector => artifacts.selectorColumns

/-- A call of `export_table` for a table. -/
structure Export (Circuit : Type) where
  table : Circuit
  witnesses : Ranges.ConcreteRanges
  publicInputs : Ranges.ConcreteRanges
  constants : Ranges.ConcreteRanges
  selectors : Ranges.ConcreteRanges
  rows : Ranges.ConcreteRanges

def Export.columns (e : Export Circuit) : ColumnType → Ranges.ConcreteRanges
  | .witness => e.witnesses
  | .publicInput => e.publicInputs
  | .constant => e.constants
  | .selector => e.selectors

/-- A cell of a table. -/
structure Cell where
  kind : ColumnType
  column : Nat
  row : Nat

/-- The cell is among those that `export_table` prints. -/
def Export.Names (e : Export Circuit) (cell : Cell) : Prop :=
  Ranges.Covers (e.columns cell.kind) cell.column ∧ Ranges.Covers e.rows cell.row

-- the number of a table as text, and whether a file can be opened for writing
variable [DecidableEq Circuit] (toText : Circuit → Text) (canOpen : Text → Bool)
  (assignments : List (Circuit × TableAmounts)) (artifacts : OutputArtifacts Circuit)

/-- `if (!ranges.empty())`: the ranges of one option, with the error its label starts. -/
def concreteOption (i : Circuit) (label : String) (ranges : Ranges) (amount : UInt32) :
    Except Stop Ranges.ConcreteRanges :=
  if ranges.isEmpty then return []
  else
    match Ranges.concreteRanges ranges (lastIndex amount) with
    | .error (.error message) =>
      throw (.error ("Table ".toList ++ toText i ++ ": ".toList ++ label.toList ++ ": ".toList ++
        message))
    | result => result

/-- The five selections for one table. -/
def tableExport (i : Circuit) (assignment : TableAmounts) : Except Stop (Export Circuit) := do
  let witnesses ←
    concreteOption toText i "Witnesses" artifacts.witnessColumns assignment.witnessesAmount
  let publicInputs ←
    concreteOption toText i "Public inputs" artifacts.publicInputColumns
      assignment.publicInputsAmount
  let constants ←
    concreteOption toText i "Constants" artifacts.constantColumns assignment.constantsAmount
  let selectors ←
    concreteOption toText i "Selectors" artifacts.selectorColumns assignment.selectorsAmount
  let rows ← concreteOption toText i "Rows" artifacts.rows assignment.maxSize
  return ⟨i, witnesses, publicInputs, constants, selectors, rows⟩

def toStdout : Bool := artifacts.basename = "-".toList

/-- The body of the loop: the export, unless an error is returned. -/
def writeTable (i : Circuit) : Except Stop (Export Circuit) := do
  match assignments.lookup i with
  | none => throw (.error ("Can't find assignment table ".toList ++ toText i))
  | some assignment =>
    let e ← tableExport toText artifacts i assignment
    if toStdout artifacts then return e
    else
      let filename := artifacts.basename ++ ".".toList ++ toText i
      if canOpen filename then return e else throw (.error ("Cannot open ".toList ++ filename))

/-- The exports made, and the error that ended the loop, if any. -/
def writeTables : List Circuit → List (Export Circuit) × Option Stop
  | [] => ([], none)
  | i :: tables =>
    match writeTable toText canOpen assignments artifacts i with
    | .error s => ([], some s)
    | .ok e =>
      let rest := writeTables tables
      (e :: rest.1, rest.2)

/-- `write_output_artifacts` -/
def writeOutputArtifacts : List (Export Circuit) × Option Stop :=
  if assignments.isEmpty then ([], none)
  else writeTables toText canOpen assignments artifacts artifacts.tables

end Model

/-! ## One table -/

section Table

variable {Circuit : Type} (toText : Circuit → Text) {artifacts : OutputArtifacts Circuit}

theorem lastIndex_lt (amount : UInt32) : lastIndex amount < 2 ^ 31 := by
  have := Int.bmod_lt (x := (amount.toNat : Int)) (m := 2 ^ 32) (by decide)
  unfold lastIndex
  omega

/-- Where an index lies within bounds, the amount fits `int`. -/
theorem le_lastIndex_iff {amount : UInt32} {r : Range} (h : r.Within (lastIndex amount)) (n : Nat) :
    (n : Int) ≤ lastIndex amount ↔ n < amount.toNat := by
  obtain ⟨hlower, hlast⟩ := h
  have hpos : 0 ≤ lastIndex amount := by omega
  have hlt := amount.toNat_lt
  unfold lastIndex at hpos ⊢
  by_cases hfit : amount.toNat < 2 ^ 31
  · rw [Int.bmod_eq_of_le (by omega) (by omega)]
    omega
  · -- as an `int` the amount is negative
    rw [Int.bmod_def, if_neg (by omega)] at hpos
    omega

theorem concreteOption_ok (i : Circuit) (label : String) {ranges : Ranges} {amount : UInt32}
    (h : ∀ r ∈ ranges, r.Within (lastIndex amount)) :
    ∃ concrete, concreteOption toText i label ranges amount = .ok concrete ∧
      ∀ n, Ranges.Covers concrete n ↔ (∃ r ∈ ranges, r.Contains n) ∧ n < amount.toNat := by
  unfold concreteOption
  cases ranges with
  | nil => exact ⟨[], rfl, fun n => by simp [Ranges.Covers]⟩
  | cons r ranges =>
    obtain ⟨concrete, hc, hcov⟩ := Ranges.concreteRanges_ok h (lastIndex_lt amount)
    refine ⟨concrete, ?_, ?_⟩
    · rw [hc]
      rfl
    · intro n
      rw [hcov, le_lastIndex_iff (h r List.mem_cons_self)]

/-- The cell is named by the ranges given. -/
def Given (artifacts : OutputArtifacts Circuit) (assignment : TableAmounts) (cell : Cell) : Prop :=
  (cell.column < (assignment.amount cell.kind).toNat ∧
    ∃ r ∈ columnRanges artifacts cell.kind, r.Contains cell.column) ∧
  cell.row < assignment.maxSize.toNat ∧ ∃ r ∈ artifacts.rows, r.Contains cell.row

theorem tableExport_ok (i : Circuit) {assignment : TableAmounts}
    (hcols : ∀ kind, ∀ r ∈ columnRanges artifacts kind,
      r.Within (lastIndex (assignment.amount kind)))
    (hrows : ∀ r ∈ artifacts.rows, r.Within (lastIndex assignment.maxSize)) :
    ∃ e, tableExport toText artifacts i assignment = .ok e ∧ e.table = i ∧
      ∀ cell, e.Names cell ↔ Given artifacts assignment cell := by
  obtain ⟨w, hw, hwc⟩ := concreteOption_ok toText i "Witnesses" (hcols .witness)
  obtain ⟨p, hp, hpc⟩ := concreteOption_ok toText i "Public inputs" (hcols .publicInput)
  obtain ⟨c, hc, hcc⟩ := concreteOption_ok toText i "Constants" (hcols .constant)
  obtain ⟨s, hs, hsc⟩ := concreteOption_ok toText i "Selectors" (hcols .selector)
  obtain ⟨r, hr, hrc⟩ := concreteOption_ok toText i "Rows" hrows
  refine ⟨⟨i, w, p, c, s, r⟩, ?_, rfl, ?_⟩
  · unfold tableExport
    simp only [columnRanges, TableAmounts.amount] at hw hp hc hs
    rw [hw, hp, hc, hs, hr]
    rfl
  · intro cell
    unfold Export.Names Given
    rw [hrc]
    cases hk : cell.kind with
    | witness => simp only [Export.columns, hwc, and_comm]
    | publicInput => simp only [Export.columns, hpc, and_comm]
    | constant => simp only [Export.columns, hcc, and_comm]
    | selector => simp only [Export.columns, hsc, and_comm]

end Table

/-! ## What the options select -/

section Spec

variable {Circuit : Type} [DecidableEq Circuit] (assignments : List (Circuit × TableAmounts))
  (artifacts : OutputArtifacts Circuit)

/-- No column option at all. -/
def NoColumns : Prop := ∀ kind, columnRanges artifacts kind = []

/-- The table is selected, and has the cell in a selected row and column; an
omitted option selects everything. -/
def Selects (i : Circuit) (cell : Cell) : Prop :=
  (artifacts.tables = [] ∨ i ∈ artifacts.tables) ∧
    ∃ assignment, assignments.lookup i = some assignment ∧
      (cell.column < (assignment.amount cell.kind).toNat ∧
        (NoColumns artifacts ∨ ∃ r ∈ columnRanges artifacts cell.kind, r.Contains cell.column)) ∧
      cell.row < assignment.maxSize.toNat ∧
        (artifacts.rows = [] ∨ ∃ r ∈ artifacts.rows, r.Contains cell.row)

/-- The exports name exactly the selected cells, and no error is returned. -/
def FollowsOptions (result : List (Export Circuit) × Option Stop) : Prop :=
  result.2 = none ∧
    ∀ i cell, (∃ e ∈ result.1, e.table = i ∧ e.Names cell) ↔ Selects assignments artifacts i cell

/-- The tables named exist, and all ranges lie within them. -/
def WithinBounds : Prop :=
  ∀ i ∈ artifacts.tables, ∃ assignment, assignments.lookup i = some assignment ∧
    (∀ kind, ∀ r ∈ columnRanges artifacts kind, r.Within (lastIndex (assignment.amount kind))) ∧
    ∀ r ∈ artifacts.rows, r.Within (lastIndex assignment.maxSize)

variable {assignments artifacts} (toText : Circuit → Text) (canOpen : Text → Bool)

/-- The output goes to the standard output, or every file can be opened. -/
def CanWrite (canOpen : Text → Bool) (artifacts : OutputArtifacts Circuit) : Prop :=
  toStdout artifacts = true ∨ ∀ filename, canOpen filename = true

theorem writeTable_ok (hopen : CanWrite canOpen artifacts) {i : Circuit} {assignment : TableAmounts}
    (ha : assignments.lookup i = some assignment) {e : Export Circuit}
    (he : tableExport toText artifacts i assignment = .ok e) :
    writeTable toText canOpen assignments artifacts i = .ok e := by
  unfold writeTable
  rw [ha]
  show tableExport toText artifacts i assignment >>= _ = _
  rw [he]
  show (if toStdout artifacts = true then _ else _) = _
  by_cases hout : toStdout artifacts = true
  · rw [if_pos hout]
    rfl
  · rw [if_neg hout]
    show (if canOpen (artifacts.basename ++ ".".toList ++ toText i) = true then _ else _) = _
    rw [if_pos (hopen.resolve_left hout _)]
    rfl

theorem writeTables_cons {i : Circuit} {e : Export Circuit}
    (h : writeTable toText canOpen assignments artifacts i = .ok e) (tables : List Circuit) :
    writeTables toText canOpen assignments artifacts (i :: tables) =
      (e :: (writeTables toText canOpen assignments artifacts tables).1,
        (writeTables toText canOpen assignments artifacts tables).2) := by
  rw [writeTables, h]

/-- **The loop over the tables**: one export each, naming the given cells. -/
theorem writeTables_ok (hopen : CanWrite canOpen artifacts) {tables : List Circuit}
    (h : ∀ i ∈ tables, ∃ assignment, assignments.lookup i = some assignment ∧
      (∀ kind, ∀ r ∈ columnRanges artifacts kind, r.Within (lastIndex (assignment.amount kind))) ∧
      ∀ r ∈ artifacts.rows, r.Within (lastIndex assignment.maxSize)) :
    (writeTables toText canOpen assignments artifacts tables).2 = none ∧
      ∀ i cell, (∃ e ∈ (writeTables toText canOpen assignments artifacts tables).1,
          e.table = i ∧ e.Names cell) ↔
        i ∈ tables ∧ ∃ assignment, assignments.lookup i = some assignment ∧
          Given artifacts assignment cell := by
  induction tables with
  | nil => exact ⟨rfl, fun i cell => by simp [writeTables]⟩
  | cons j tables ih =>
    rw [List.forall_mem_cons] at h
    obtain ⟨⟨assignment, ha, hcols, hrows⟩, htables⟩ := h
    obtain ⟨e, he, htable, hnames⟩ := tableExport_ok toText j hcols hrows
    obtain ⟨hnone, hcells⟩ := ih htables
    rw [writeTables_cons toText canOpen (writeTable_ok toText canOpen hopen ha he)]
    refine ⟨hnone, ?_⟩
    intro i cell
    rw [List.exists_mem_cons_iff, hcells, htable, hnames, List.mem_cons]
    constructor
    · rintro (⟨rfl, hg⟩ | ⟨hi, hg⟩)
      · exact ⟨Or.inl rfl, assignment, ha, hg⟩
      · exact ⟨Or.inr hi, hg⟩
    · rintro ⟨rfl | hi, hg⟩
      · obtain ⟨assignment', ha', hg⟩ := hg
        rw [ha, Option.some.injEq] at ha'
        subst ha'
        exact Or.inl ⟨rfl, hg⟩
      · exact Or.inr ⟨hi, hg⟩

theorem given_selects {i : Circuit} {cell : Cell} {assignment : TableAmounts}
    (hi : i ∈ artifacts.tables) (ha : assignments.lookup i = some assignment)
    (hg : Given artifacts assignment cell) : Selects assignments artifacts i cell := by
  obtain ⟨⟨hcol, hcols⟩, hrow, hrows⟩ := hg
  exact ⟨Or.inr hi, assignment, ha, ⟨hcol, Or.inr hcols⟩, hrow, Or.inr hrows⟩

/-- **When the output follows the options.** -/
theorem writeOutputArtifacts_follows_iff (hne : assignments ≠ [])
    (hbounds : WithinBounds assignments artifacts) (hopen : CanWrite canOpen artifacts) :
    FollowsOptions assignments artifacts
        (writeOutputArtifacts toText canOpen assignments artifacts) ↔
      (artifacts.tables ≠ [] ∧ artifacts.rows ≠ [] ∧ ¬ NoColumns artifacts) ∨
        ∀ i cell, ¬ Selects assignments artifacts i cell := by
  obtain ⟨hnone, hcells⟩ := writeTables_ok toText canOpen hopen hbounds
  have hwrite : writeOutputArtifacts toText canOpen assignments artifacts =
      writeTables toText canOpen assignments artifacts artifacts.tables := by
    unfold writeOutputArtifacts
    rw [if_neg (by simpa using hne)]
  unfold FollowsOptions
  rw [hwrite]
  simp only [hnone, hcells, true_and]
  constructor
  · intro h
    by_cases hgiven : artifacts.tables ≠ [] ∧ artifacts.rows ≠ [] ∧ ¬ NoColumns artifacts
    · exact Or.inl hgiven
    · right
      intro i cell hsel
      obtain ⟨hi, assignment, -, ⟨-, r, hr, -⟩, -, r', hr', -⟩ := (h i cell).mpr hsel
      refine hgiven ⟨List.ne_nil_of_mem hi, List.ne_nil_of_mem hr', ?_⟩
      intro hno
      exact List.ne_nil_of_mem hr (hno cell.kind)
  · rintro (⟨ht, hr, hc⟩ | hnone) i cell
    · constructor
      · rintro ⟨hi, assignment, ha, hg⟩
        exact given_selects hi ha hg
      · rintro ⟨hi, assignment, ha, ⟨hcol, hcols⟩, hrow, hrows⟩
        exact ⟨hi.resolve_left ht, assignment, ha, ⟨hcol, hcols.resolve_left hc⟩, hrow,
          hrows.resolve_left hr⟩
    · apply iff_of_false _ (hnone i cell)
      rintro ⟨hi, assignment, ha, hg⟩
      exact hnone i cell (given_selects hi ha hg)

end Spec

/-- One table of two witness columns and three rows, all options given. -/
theorem writeOutputArtifacts_follows_all_given :
    let assignments := [((), TableAmounts.mk 2 0 0 0 3)]
    let artifacts : OutputArtifacts Unit :=
      { tables := [()], rows := [⟨0, none⟩], witnessColumns := [⟨1, some 1⟩] }
    FollowsOptions assignments artifacts
        (writeOutputArtifacts (fun _ => "0".toList) (fun _ => true) assignments artifacts) ↔
      (artifacts.tables ≠ [] ∧ artifacts.rows ≠ [] ∧ ¬ NoColumns artifacts) ∨
        ∀ i cell, ¬ Selects assignments artifacts i cell :=
  writeOutputArtifacts_follows_iff _ _ (by decide)
    (fun _ _ => ⟨_, rfl, fun kind => by cases kind <;> decide, by decide⟩) (Or.inl rfl)

/-- No option given, then all but `--rows`: the first export is missing, the second
names no cell. -/
theorem writeOutputArtifacts_drops_omitted :
    let assignments := [((), TableAmounts.mk 1 0 0 0 1)]
    let none_given : OutputArtifacts Unit := {}
    let no_rows : OutputArtifacts Unit := { tables := [()], witnessColumns := [⟨0, none⟩] }
    let write := fun artifacts =>
      writeOutputArtifacts (fun _ => "0".toList) (fun _ => true) assignments artifacts
    (WithinBounds assignments none_given ∧ ¬ FollowsOptions assignments none_given (write none_given)) ∧
      WithinBounds assignments no_rows ∧ ¬ FollowsOptions assignments no_rows (write no_rows) := by
  intro assignments none_given no_rows write
  have hcell : ∀ artifacts : OutputArtifacts Unit,
      (NoColumns artifacts ∨ artifacts.witnessColumns = [⟨0, none⟩]) → artifacts.rows = [] →
      (artifacts.tables = [] ∨ () ∈ artifacts.tables) →
      Selects assignments artifacts () ⟨.witness, 0, 0⟩ := by
    intro artifacts hcols hrows htables
    refine ⟨htables, _, rfl, ⟨by decide, hcols.imp_right ?_⟩, by decide, Or.inl hrows⟩
    intro h
    exact ⟨⟨0, none⟩, by simp [columnRanges, h], by decide, by simp⟩
  refine ⟨⟨?_, ?_⟩, ?_, ?_⟩
  · intro i hi
    cases hi
  · rintro ⟨-, h⟩
    obtain ⟨e, he, -⟩ := (h _ _).mpr
      (hcell none_given (Or.inl fun kind => by cases kind <;> rfl) rfl (Or.inl rfl))
    cases he
  · intro i _
    exact ⟨_, rfl, fun kind => by cases kind <;> decide, by decide⟩
  · rintro ⟨-, h⟩
    obtain ⟨e, he, -, -, c, hc, -⟩ := (h _ _).mpr
      (hcell no_rows (Or.inr rfl) rfl (Or.inr List.mem_cons_self))
    have hrows : e.rows = [] := by
      have he := List.mem_singleton.mp he
      rw [he]
    rw [hrows] at hc
    cases hc

end AssignerRunner
