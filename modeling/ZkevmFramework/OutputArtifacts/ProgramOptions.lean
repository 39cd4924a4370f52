import Mathlib.Logic.Function.Basic
import ZkevmFramework.OutputArtifacts.Range

/-!
# `OutputArtifacts::from_program_options`

The options `main` describes, the variables map that `boost::program_options`
fills from a command line, and the artifacts read from it.  Boost is not part of
the repository: `VariablesMap.Stored` is what `store` promises, a value of the
declared type under every name.

`--tables` is declared as one string and read as a vector of strings, and
`std::stoi` throws on numbers from `2 ^ 31` on; `fromProgramOptions` returns
exactly when neither happens (`fromProgramOptions_returns_iff`).
-/

namespace OutputArtifacts

open Cpp

/-! ## Columns -/

inductive ColumnType where
  | witness
  | publicInput
  | constant
  | selector
deriving DecidableEq

namespace ColumnType

def name : ColumnType → Text
  | .witness => "witness".toList
  | .publicInput => "public_input".toList
  | .constant => "constant".toList
  | .selector => "selector".toList

/-- The order of `col2idx`. -/
def all : List ColumnType := [.witness, .publicInput, .constant, .selector]

end ColumnType

/-- The captures of `^(witness|public_input|constant|selector)(.+)$`. -/
def captureColumn (column : Text) : Option (ColumnType × Text) :=
  ColumnType.all.findSome? fun t =>
    if t.name <+: column ∧ t.name.length < column.length then
      some (t, column.drop t.name.length)
    else none

/-- The loop of `parse_columns`, with its arrays `result` and `completed`. -/
def parseColumnsFrom (result : ColumnType → Ranges) (completed : ColumnType → Bool) :
    List Text → Except Stop (ColumnType → Ranges)
  | [] => return result
  | column :: columns =>
    match captureColumn column with
    | some (column_idx, text) =>
      if completed column_idx then
        throw (.error ("Duplicate columns option: ".toList ++ column))
      else do
        let ranges ← Ranges.parse text
        parseColumnsFrom (Function.update result column_idx ranges)
          (Function.update completed column_idx true) columns
    | none => throw (.error ("Bad columns option: ".toList ++ column))

/-- `parse_columns` -/
def parseColumns (columns : List Text) : Except Stop (ColumnType → Ranges) :=
  parseColumnsFrom (fun _ => []) (fun _ => false) columns

/-- The options reach a number too large: no bad or duplicate option and no bad
range stands before it. -/
def ColumnsOverflow (completed : ColumnType → Bool) : List Text → Prop
  | [] => False
  | column :: columns =>
    ∃ t ∈ captureColumn column, completed t.1 = false ∧
      (Ranges.Overflows (Ranges.tokens t.2) ∨ (Ranges.Accepted (Ranges.tokens t.2) ∧
        ColumnsOverflow (Function.update completed t.1 true) columns))

theorem returns_parseColumnsFrom_iff (result : ColumnType → Ranges)
    (completed : ColumnType → Bool) (columns : List Text) :
    Returns (parseColumnsFrom result completed columns) ↔ ¬ ColumnsOverflow completed columns := by
  induction columns generalizing result completed with
  | nil => exact iff_of_true (returns_ok result) not_false
  | cons column columns ih =>
    unfold parseColumnsFrom ColumnsOverflow
    cases captureColumn column with
    | none => exact iff_of_true (returns_error _) (by simp)
    | some t =>
      obtain ⟨t, text⟩ := t
      simp only [Option.mem_def, Option.some.injEq, exists_eq_left']
      cases completed t with
      | true => exact iff_of_true (returns_error _) (by simp)
      | false =>
        show Returns (Ranges.parse text >>= _) ↔ _
        rw [returns_bind_iff, Ranges.returns_parse_iff, ← Ranges.parse_ok_iff]
        simp only [ih]
        constructor
        · rintro ⟨ho, hrest⟩ ⟨-, h | ⟨⟨ranges, hr⟩, h⟩⟩
          · exact ho h
          · exact hrest ranges hr h
        · intro h
          refine ⟨fun ho => h ⟨trivial, Or.inl ho⟩, ?_⟩
          intro ranges hr hover
          exact h ⟨trivial, Or.inr ⟨⟨ranges, hr⟩, hover⟩⟩

/-! ## The command line -/

/-- The types of the values, as in `value<T>()`. -/
inductive ValueType where
  /-- An option without a value. -/
  | none
  | string
  | strings
  | uint64
deriving DecidableEq

/-- A stored value. -/
inductive Value where
  | none
  | string (s : Text)
  | strings (l : List Text)
  | uint64 (n : UInt64)

def Value.type : Value → ValueType
  | .none => .none
  | .string _ => .string
  | .strings _ => .strings
  | .uint64 _ => .uint64

/-- `options_desc` of `main`: the long names and the types. -/
def optionsDesc : List (String × ValueType) := [
  ("help", .none),
  ("version", .none),
  ("assignment-tables", .string),
  ("output-text", .string),
  ("tables", .string),
  ("rows", .string),
  ("columns", .strings),
  ("shard-id", .uint64),
  ("block-hash", .string),
  ("block-file", .string),
  ("account-storage", .string),
  ("elliptic-curve-type", .string),
  ("target-circuits", .strings),
  ("log-level", .string)]

/-- `variables_map` -/
abbrev VariablesMap := String → Option Value

/-- What `store` leaves for an accepted command line. -/
def VariablesMap.Stored (vm : VariablesMap) (desc : List (String × ValueType)) : Prop :=
  ∀ name value, vm name = some value → (name, value.type) ∈ desc

/-- `vm[name].as<std::string>()` -/
def asString (vm : VariablesMap) (name : String) : Except Stop Text :=
  match vm name with
  | some (.string s) => return s
  | _ => throw (.throws .badAnyCast)

/-- `vm[name].as<std::vector<std::string>>()` -/
def asStrings (vm : VariablesMap) (name : String) : Except Stop (List Text) :=
  match vm name with
  | some (.strings l) => return l
  | _ => throw (.throws .badAnyCast)

end OutputArtifacts

/-- `OutputArtifacts`; `Circuit` is `zkevm_circuit`. -/
structure OutputArtifacts (Circuit : Type) where
  basename : Cpp.Text := "-".toList
  tables : List Circuit := []
  rows : OutputArtifacts.Ranges := []
  witnessColumns : OutputArtifacts.Ranges := []
  publicInputColumns : OutputArtifacts.Ranges := []
  constantColumns : OutputArtifacts.Ranges := []
  selectorColumns : OutputArtifacts.Ranges := []

namespace OutputArtifacts

open Cpp

variable {Circuit : Type} (circuitsMap : Text → Option Circuit)

def parseTables : List Text → Except Stop (List Circuit)
  | [] => return []
  | table_name :: s =>
    match circuitsMap table_name with
    | some circuit => do
      let result ← parseTables s
      return circuit :: result
    | none => throw (.error ("Unknown table name ".toList ++ table_name))

/-- `if (vm.count("tables"))` -/
def readTables (vm : VariablesMap) : Except Stop (List Circuit) :=
  if (vm "tables").isSome then asStrings vm "tables" >>= parseTables circuitsMap else return []

/-- `if (vm.count("rows"))` -/
def readRows (vm : VariablesMap) : Except Stop Ranges :=
  if (vm "rows").isSome then asString vm "rows" >>= Ranges.parse else return []

/-- `if (vm.count("columns"))` -/
def readColumns (vm : VariablesMap) : Except Stop (ColumnType → Ranges) :=
  if (vm "columns").isSome then asStrings vm "columns" >>= parseColumns else return fun _ => []

def fromProgramOptions (vm : VariablesMap) : Except Stop (OutputArtifacts Circuit) := do
  let basename ← asString vm "output-text"
  let tables ← readTables circuitsMap vm
  let rows ← readRows vm
  let columns ← readColumns vm
  return {
    basename, tables, rows
    witnessColumns := columns .witness
    publicInputColumns := columns .publicInput
    constantColumns := columns .constant
    selectorColumns := columns .selector }

/-! ## When it returns -/

/-- The tokens of `--rows`, if given. -/
def rowTokens (vm : VariablesMap) : List Text :=
  match vm "rows" with
  | some (.string s) => Ranges.tokens s
  | _ => []

/-- The texts of `--columns`, if given. -/
def columnOptions (vm : VariablesMap) : List Text :=
  match vm "columns" with
  | some (.strings l) => l
  | _ => []

/-- A string option is stored as a string, if at all. -/
theorem VariablesMap.Stored.eq_string {vm : VariablesMap} (h : vm.Stored optionsDesc)
    {name : String} {value : Value} (hv : vm name = some value)
    (hdesc : ∀ ty, (name, ty) ∈ optionsDesc → ty = .string) : ∃ s, value = .string s := by
  have hty := hdesc _ (h name value hv)
  cases value <;> first | exact ⟨_, rfl⟩ | cases hty

theorem VariablesMap.Stored.eq_strings {vm : VariablesMap} (h : vm.Stored optionsDesc)
    {name : String} {value : Value} (hv : vm name = some value)
    (hdesc : ∀ ty, (name, ty) ∈ optionsDesc → ty = .strings) : ∃ l, value = .strings l := by
  have hty := hdesc _ (h name value hv)
  cases value <;> first | exact ⟨_, rfl⟩ | cases hty

theorem returns_readRows_iff {vm : VariablesMap} (h : vm.Stored optionsDesc) :
    Returns (readRows vm) ↔ ¬ Ranges.Overflows (rowTokens vm) := by
  unfold readRows rowTokens asString
  cases hv : vm "rows" with
  | none => exact iff_of_true (returns_ok _) not_false
  | some value =>
    obtain ⟨s, rfl⟩ := h.eq_string hv (by simp [optionsDesc])
    exact Ranges.returns_parse_iff s

theorem readRows_ok_iff {vm : VariablesMap} (h : vm.Stored optionsDesc) :
    (∃ rows, readRows vm = .ok rows) ↔ Ranges.Accepted (rowTokens vm) := by
  unfold readRows rowTokens asString
  cases hv : vm "rows" with
  | none => exact iff_of_true ⟨[], rfl⟩ (by simp [Ranges.Accepted])
  | some value =>
    obtain ⟨s, rfl⟩ := h.eq_string hv (by simp [optionsDesc])
    exact Ranges.parse_ok_iff s

theorem returns_readColumns_iff {vm : VariablesMap} (h : vm.Stored optionsDesc) :
    Returns (readColumns vm) ↔ ¬ ColumnsOverflow (fun _ => false) (columnOptions vm) := by
  unfold readColumns columnOptions asStrings
  cases hv : vm "columns" with
  | none => exact iff_of_true (returns_ok _) not_false
  | some value =>
    obtain ⟨l, rfl⟩ := h.eq_strings hv (by simp [optionsDesc])
    exact returns_parseColumnsFrom_iff _ _ l

/-- `--tables` is never read: it is stored as a string. -/
theorem readTables_eq {vm : VariablesMap} (h : vm.Stored optionsDesc) :
    readTables circuitsMap vm =
      if vm "tables" = none then .ok [] else .error (.throws .badAnyCast) := by
  unfold readTables asStrings
  cases hv : vm "tables" with
  | none => rfl
  | some value =>
    obtain ⟨s, rfl⟩ := h.eq_string hv (by simp [optionsDesc])
    rfl

/-- **When no exception leaves `from_program_options`.** -/
theorem fromProgramOptions_returns_iff {vm : VariablesMap} (h : vm.Stored optionsDesc)
    (hout : (vm "output-text").isSome) :
    Returns (fromProgramOptions circuitsMap vm) ↔ vm "tables" = none ∧
      ¬ Ranges.Overflows (rowTokens vm) ∧ (Ranges.Accepted (rowTokens vm) →
        ¬ ColumnsOverflow (fun _ => false) (columnOptions vm)) := by
  obtain ⟨value, hv⟩ := Option.isSome_iff_exists.mp hout
  obtain ⟨basename, rfl⟩ := h.eq_string hv (by simp [optionsDesc])
  have hbase : asString vm "output-text" = .ok basename := by
    rw [asString, hv]
    rfl
  unfold fromProgramOptions
  rw [hbase, readTables_eq circuitsMap h]
  by_cases ht : vm "tables" = none
  · rw [if_pos ht]
    show Returns (readRows vm >>= _) ↔ _
    rw [returns_bind_iff, returns_readRows_iff h, ← readRows_ok_iff h]
    simp only [returns_bind_iff, returns_readColumns_iff h]
    constructor
    · rintro ⟨ho, hrest⟩
      refine ⟨ht, ho, ?_⟩
      rintro ⟨rows, hr⟩
      exact (hrest rows hr).1
    · rintro ⟨-, ho, hrest⟩
      refine ⟨ho, ?_⟩
      intro rows hr
      exact ⟨hrest ⟨rows, hr⟩, fun columns _ => returns_ok _⟩
  · rw [if_neg ht]
    exact iff_of_false (not_returns_throws _) (fun h => ht h.1)

/-- A command line with only some of the options. -/
def VariablesMap.ofList (options : List (String × Value)) : VariablesMap := fun name =>
  (options.find? fun o => o.1 = name).map Prod.snd

theorem VariablesMap.stored_ofList {options : List (String × Value)}
    (h : ∀ o ∈ options, (o.1, o.2.type) ∈ optionsDesc) : (ofList options).Stored optionsDesc := by
  intro name value hv
  obtain ⟨o, ho, rfl⟩ := Option.map_eq_some_iff.mp hv
  have hname : o.1 = name := by simpa using List.find?_some ho
  rw [← hname]
  exact h o (List.mem_of_find?_eq_some ho)

/-- `--output-text - --rows 0-3,5- --columns witness0` -/
theorem fromProgramOptions_returns_sample :
    let vm := VariablesMap.ofList [("output-text", .string "-".toList),
      ("rows", .string "0-3,5-".toList), ("columns", .strings ["witness0".toList])]
    Returns (fromProgramOptions (fun _ => some ()) vm) ↔ vm "tables" = none ∧
      ¬ Ranges.Overflows (rowTokens vm) ∧ (Ranges.Accepted (rowTokens vm) →
        ¬ ColumnsOverflow (fun _ => false) (columnOptions vm)) :=
  fromProgramOptions_returns_iff _ (VariablesMap.stored_ofList (by decide)) (by decide)

/-- `--tables` with any value throws, and so does `--rows 2147483648`. -/
theorem fromProgramOptions_throws_tables :
    let tables := VariablesMap.ofList [("output-text", .string "-".toList),
      ("tables", .string "bytecode".toList)]
    let rows := VariablesMap.ofList [("output-text", .string "-".toList),
      ("rows", .string "2147483648".toList)]
    (tables.Stored optionsDesc ∧
      fromProgramOptions (fun _ => some ()) tables = .error (.throws .badAnyCast)) ∧
    rows.Stored optionsDesc ∧
      fromProgramOptions (fun _ => some ()) rows = .error (.throws .outOfRange) := by
  exact ⟨⟨VariablesMap.stored_ofList (by decide), rfl⟩, VariablesMap.stored_ofList (by decide), rfl⟩

end OutputArtifacts
