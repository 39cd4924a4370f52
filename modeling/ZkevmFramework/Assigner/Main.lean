import ZkevmFramework.AssignerRunner.Runner
import ZkevmFramework.Preset.Preset

/-!
# `main` of the assigner

The arguments are read from the variables map, then the circuits are made, the
block and the accounts extracted, and the block is run for one of two curves.

What the process leaves is what the run has done: without one nothing is evaluated,
written or exported (`main_leaves`).  The exit status is 0 after a run that succeeds
and has left a table for the bytecode circuit, whether or not that table is satisfied,
and also where the process only informs (`main_exits_zero_iff`).
-/

namespace Assigner

open Cpp OutputArtifacts Core.Types JsonHelpers Rpc AssignerRunner Preset

/-! ## The process -/

/-- What the process has done; the texts are the lines printed. -/
structure Process (Circuit : Type) where
  cout : List Text
  cerr : List Text
  evaluated : List (Message × EvmcMessage)
  files : List (Text × Bytes)
  exports : List (Export Circuit)

/-- `elliptic-curve-type` -/
inductive Curve where
  | pallas
  | vesta
  | ed25519
  | bls12381
deriving DecidableEq

/-- The fields that `curve_dependent_main` is instantiated at. -/
inductive BaseField where
  | pallas
  | bls12381

def Curve.baseField : Curve → Option BaseField
  | .pallas => some .pallas
  | .vesta => none
  | .ed25519 => none
  | .bls12381 => some .bls12381

def curveOptions : List (Text × Curve) := [
  ("pallas".toList, .pallas),
  ("vesta".toList, .vesta),
  ("ed25519".toList, .ed25519),
  ("bls12381".toList, .bls12381)]

def logOptions : List Text :=
  ["trace".toList, "debug".toList, "info".toList, "warning".toList, "error".toList,
    "fatal".toList]

/-- What `boost::program_options` makes of a command line. -/
inductive CommandLine where
  | stored (vm : VariablesMap)
  | unknownOption (what : Text)
  /-- The exceptions that are not caught. -/
  | throws (e : Thrown)

/-- The arguments of `curve_dependent_main`, and the curve. -/
structure Arguments (Circuit : Type) where
  shardId : UInt64
  blockHash : Text
  blockFileName : Text
  accountStorageFileName : Text
  assignmentTableFileName : Text
  artifacts : Option (OutputArtifacts Circuit)
  targetCircuits : List Text
  curve : Curve

/-- What `fill_assignments` hands to the host when it constructs it. -/
structure HostArguments (Circuit F : Type) where
  host : ExtVMHost
  blockNumber : Int64
  blockTimestamp : Int64
  accounts : Accounts
  assignments : List (Circuit × Assignment F)
  targetCircuit : Text

/-- What the process meets at one field. -/
structure World (σ Circuit C F : Type) extends Environment σ Circuit F where
  component : BytecodeComponent C (Assignment F)
  emptyCircuit : C
  start : HostArguments Circuit F → σ
  /-- `nil::blueprint::is_satisfied` -/
  isSatisfied : C → Assignment F → Bool

section Model

variable {Circuit : Type}

section Printing

def print (line : Text) : Call (Process Circuit) Unit :=
  modify fun p => { p with cout := p.cout ++ [line] }

def printError (line : Text) : Call (Process Circuit) Unit :=
  modify fun p => { p with cerr := p.cerr ++ [line] }

/-- `if (err) { std::cerr << label << err.value() << std::endl; return 1; }` -/
def orExit {S : Type} (label : String) (r : EStateM.Result Stop S Unit)
    (next : S → Call (Process Circuit) Nat) : Call (Process Circuit) Nat :=
  match r with
  | .ok _ s => next s
  | .error (.error message) _ => do
    printError (label.toList ++ message)
    return 1
  | .error stop _ => throw stop

end Printing

/-! ## A run -/

section CurveDependentMain

variable [DecidableEq Circuit] {σ C F : Type}
-- the circuit of the bytecode
variable (sources : Sources) (bytecode : Circuit) (w : World σ Circuit C F)
  (args : Arguments Circuit)

def extractor : DataExtractor := ⟨"127.0.0.1".toList, 8529, args.shardId⟩

def hostArguments (circuits : Circuits Circuit C (Assignment F)) (block : Block)
    (accounts : Accounts) : HostArguments Circuit F where
  host := ⟨extractor args, byteArrayToStr block.prevBlock.toList⟩
  blockNumber := Int64.ofBitVec block.id.toBitVec
  blockTimestamp := Int64.ofBitVec block.timestamp.toBitVec
  accounts := accounts
  assignments := circuits.assignments
  targetCircuit := circuits.getCircuitNames.headD []

/-- The tables after the run, looked at. -/
def checkBytecode (circuit : C) (assignments : List (Circuit × Assignment F)) :
    Call (Process Circuit) Nat :=
  match assignments.find? fun a => a.1 = bytecode with
  | none => do
    printError "Can;t find bytecode assignment table".toList
    return 1
  | some bytecodeTable => do
    if w.isSatisfied circuit bytecodeTable.2 then return 0
    printError "ERROR: is not satisfied".toList
    printError "Bytecode table is not satisfied!".toList
    return 0

def curveDependentMain : Call (Process Circuit) Nat :=
  orExit "Preset step failed: "
    (initializeCircuits bytecode w.component ⟨args.targetCircuits, w.emptyCircuit, []⟩)
    fun circuits =>
  orExit "Extract input block failed: "
    (extractBlockWithMessages sources (extractor args) args.blockHash args.blockFileName
      ⟨sources.block, []⟩)
    fun loaded =>
  orExit "Extract account storage failed: "
    (extractAccountsWithStorage sources args.accountStorageFileName fun _ => none)
    fun accounts => do
  let r := run w.toEnvironment loaded.block loaded.messages args.assignmentTableFileName
    args.artifacts ⟨⟨w.start (hostArguments args circuits loaded.block accounts), []⟩, [], []⟩
  modify fun p => { p with
    evaluated := (left r).execution.evaluated
    files := (left r).files
    exports := (left r).exports }
  orExit "Assigner run failed: " r fun r =>
    checkBytecode bytecode w circuits.bytecodeCircuit (w.assignments r.execution.host)

end CurveDependentMain

/-! ## Arguments -/

section Arguments

variable (circuitsMap : Text → Option Circuit) (vm : VariablesMap)

/-- `vm[name].as<uint64_t>()` -/
def asUInt64 (name : String) : Except Stop UInt64 :=
  match vm name with
  | some (.uint64 n) => return n
  | _ => throw (.throws .badAnyCast)

/-- An option that has a default. -/
def stringOr (name : String) (default : Text) : Except Stop Text :=
  if (vm name).isSome then asString vm name else return default

/-- The file of the block; or the shard and the hash. -/
def readBlockSource : Except Stop (Text × UInt64 × Text) :=
  if (vm "block-file").isSome then return (← asString vm "block-file", 0, [])
  else do
    if (vm "shard-id").isNone then
      throw (.error
        "Invalid command line argument - shard-id or block-file must be specified".toList)
    let shardId ← asUInt64 vm "shard-id"
    if (vm "block-hash").isNone then
      throw (.error
        "Invalid command line argument - block-hash or block-file must be specified".toList)
    return ([], shardId, ← asString vm "block-hash")

/-- The reading of the arguments.  Its errors are printed with the usage. -/
def readArguments : Except Stop (Arguments Circuit) := do
  if (vm "assignment-tables").isNone then
    throw (.error
      "Invalid command line argument - assignment table file name is not specified".toList)
  let assignmentTableFileName ← asString vm "assignment-tables"
  let (blockFileName, shardId, blockHash) ← readBlockSource vm
  let accountStorageFileName ← stringOr vm "account-storage" []
  let artifacts ←
    if (vm "output-text").isSome then some <$> fromProgramOptions circuitsMap vm
    else pure none
  let ellipticCurve ← stringOr vm "elliptic-curve-type" "pallas".toList
  let targetCircuits ←
    if (vm "target-circuits").isSome then asStrings vm "target-circuits" else pure []
  let logLevel ← stringOr vm "log-level" "info".toList
  if logLevel ∉ logOptions then
    throw (.error ("Invalid command line argument -l (log level): ".toList ++ logLevel))
  match curveOptions.lookup ellipticCurve with
  | none =>
    throw (.error ("Invalid command line argument -e (Native elliptic curve type): ".toList ++
      ellipticCurve))
  | some curve =>
    return { shardId, blockHash, blockFileName, accountStorageFileName, assignmentTableFileName,
             artifacts, targetCircuits, curve }

end Arguments

/-! ## `main` -/

section Main

variable [DecidableEq Circuit] {σ C F : BaseField → Type}

/-- What the process is compiled with and meets. -/
structure Setting (σ : BaseField → Type) (Circuit : Type) (C F : BaseField → Type) where
  sources : Sources
  circuitsMap : Text → Option Circuit
  bytecode : Circuit
  world : ∀ field, World (σ field) Circuit (C field) (F field)
  usage : Text
  /-- `ASSIGNER_VERSION` -/
  version : Option Text

variable (setting : Setting σ Circuit C F)

def main : CommandLine → Call (Process Circuit) Nat
  | .unknownOption what => do
    printError ("Invalid command line argument: ".toList ++ what)
    print setting.usage
    return 1
  | .throws e => throw (.throws e)
  | .stored vm => do
    if (vm "help").isSome then
      print setting.usage
      return 0
    if (vm "version").isSome then
      print (setting.version.getD "Version is not defined".toList)
      return 0
    match readArguments setting.circuitsMap vm with
    | .error (.error message) =>
      printError message
      print setting.usage
      return 1
    | .error stop => throw stop
    | .ok args =>
      match args.curve with
      | .pallas => curveDependentMain setting.sources setting.bytecode (setting.world .pallas) args
      | .vesta =>
        printError "vesta curve based circuits are not supported yet".toList
        return 0
      | .ed25519 =>
        printError "ed25519 curve based circuits are not supported yet".toList
        return 0
      | .bls12381 =>
        curveDependentMain setting.sources setting.bytecode (setting.world .bls12381) args

end Main

end Model

/-! ## The steps before a run -/

/-- Nothing is evaluated, written or exported in between. -/
structure Process.Idle {Circuit : Type} (p p' : Process Circuit) : Prop where
  evaluated : p'.evaluated = p.evaluated
  files : p'.files = p.files
  exports : p'.exports = p.exports

/-- The exit is not the one of a success, and nothing was done before it. -/
structure Fails {Circuit : Type} (p : Process Circuit)
    (r : EStateM.Result Stop (Process Circuit) Nat) : Prop where
  idle : p.Idle (left r)
  status : outcome r ≠ .ok 0

theorem orExit_cases {Circuit S : Type} (label : String) (r : EStateM.Result Stop S Unit)
    (next : S → Call (Process Circuit) Nat) (p : Process Circuit) :
    (∃ s, r = .ok () s ∧ orExit label r next p = next s p) ∨
      (∀ s, r ≠ .ok () s) ∧ Fails p (orExit label r next p) := by
  cases r with
  | ok u s => exact Or.inl ⟨s, rfl, rfl⟩
  | error stop s =>
    right
    constructor
    · intro s h
      cases h
    · cases stop <;> exact ⟨⟨rfl, rfl, rfl⟩, fun h => by cases h⟩

section Prepared

variable {Circuit : Type} [DecidableEq Circuit] {σ C F : Type}

/-- What comes before the run succeeds. -/
structure Prepared (sources : Sources) (bytecode : Circuit) (w : World σ Circuit C F)
    (args : Arguments Circuit) where
  circuits : Circuits Circuit C (Assignment F)
  loaded : Loaded
  accounts : Accounts
  preset : initializeCircuits bytecode w.component ⟨args.targetCircuits, w.emptyCircuit, []⟩ =
    .ok () circuits
  block : extractBlockWithMessages sources (extractor args) args.blockHash args.blockFileName
    ⟨sources.block, []⟩ = .ok () loaded
  storage : extractAccountsWithStorage sources args.accountStorageFileName (fun _ => none) =
    .ok () accounts

variable {sources : Sources} {bytecode : Circuit} {w : World σ Circuit C F}
  {args : Arguments Circuit}

variable (bytecode w) in
theorem checkBytecode_spec (circuit : C) (assignments : List (Circuit × Assignment F))
    (p : Process Circuit) :
    p.Idle (left (checkBytecode bytecode w circuit assignments p)) ∧
      (outcome (checkBytecode bytecode w circuit assignments p) = .ok 0 ↔
        bytecode ∈ assignments.map Prod.fst) := by
  unfold checkBytecode
  cases hfind : assignments.find? fun a => a.1 = bytecode with
  | none =>
    have hnot : bytecode ∉ assignments.map Prod.fst := by
      intro hmem
      obtain ⟨a, ha, hkey⟩ := List.mem_map.mp hmem
      exact List.find?_eq_none.mp hfind a ha (by simpa using hkey)
    exact ⟨⟨rfl, rfl, rfl⟩, iff_of_false (fun h => by cases h) hnot⟩
  | some table =>
    have hmem : bytecode ∈ assignments.map Prod.fst :=
      List.mem_map.mpr ⟨table, List.mem_of_find?_eq_some hfind, by
        simpa using List.find?_some hfind⟩
    cases hsatisfied : w.isSatisfied circuit table.2 with
    | true =>
      simp only [hsatisfied, if_true]
      exact ⟨⟨rfl, rfl, rfl⟩, iff_of_true rfl hmem⟩
    | false =>
      simp only [hsatisfied]
      exact ⟨⟨rfl, rfl, rfl⟩, iff_of_true rfl hmem⟩

namespace Prepared

variable (prepared : Prepared sources bytecode w args)

/-- The host at the start of the run. -/
def start : σ :=
  w.start (hostArguments args prepared.circuits prepared.loaded.block prepared.accounts)

def result : EStateM.Result Stop (RunState σ Circuit) Unit :=
  run w.toEnvironment prepared.loaded.block prepared.loaded.messages args.assignmentTableFileName
    args.artifacts ⟨⟨prepared.start, []⟩, [], []⟩

/-- The tables that the run leaves. -/
def tables : List (Circuit × Assignment F) := w.assignments (left prepared.result).execution.host

/-- The run succeeds, and there is a table for the bytecode circuit. -/
structure Succeeds : Prop where
  run : outcome prepared.result = .ok ()
  bytecode : bytecode ∈ prepared.tables.map Prod.fst

/-- What the process has done is what the run has done. -/
structure Noted (p : Process Circuit) : Prop where
  evaluated : p.evaluated = (left prepared.result).execution.evaluated
  files : p.files = (left prepared.result).files
  exports : p.exports = (left prepared.result).exports

/-- What a run leaves however it ends: the first messages of the block, in their order and each
with its gas; the tables that were made, and the files of the first of those filled. -/
structure Leaves (p : Process Circuit) : Prop where
  made : prepared.circuits.made =
    if args.targetCircuits = [] ∨ "bytecode".toList ∈ args.targetCircuits then [bytecode] else []
  inOrder : p.evaluated.map Prod.fst <+: toEvaluate prepared.loaded.messages
  handed : ∀ q ∈ p.evaluated, Handed prepared.loaded.block q
  files : p.files <+: tableFiles w.toEnvironment args.assignmentTableFileName prepared.tables
  exports : p.exports ≠ [] → args.artifacts.isSome = true ∧
    p.files = tableFiles w.toEnvironment args.assignmentTableFileName prepared.tables

/-- What the exit status 0 says in addition. -/
structure Completes (p : Process Circuit) : Prop where
  evaluated : p.evaluated.map Prod.fst = toEvaluate prepared.loaded.messages ↔
    CopiesWhole w.host prepared.loaded.block prepared.loaded.messages prepared.start
  files : p.files = tableFiles w.toEnvironment args.assignmentTableFileName prepared.tables

/-- `curve_dependent_main`, once everything is there. -/
theorem curveDependentMain_spec (p : Process Circuit) :
    prepared.Noted (left (curveDependentMain sources bytecode w args p)) ∧
      (outcome (curveDependentMain sources bytecode w args p) = .ok 0 ↔ prepared.Succeeds) := by
  let noted : Process Circuit := { p with
    evaluated := (left prepared.result).execution.evaluated
    files := (left prepared.result).files
    exports := (left prepared.result).exports }
  let next := fun r : RunState σ Circuit =>
    checkBytecode bytecode w prepared.circuits.bytecodeCircuit (w.assignments r.execution.host)
  have hmain : curveDependentMain sources bytecode w args p =
      orExit "Assigner run failed: " prepared.result next noted := by
    unfold curveDependentMain
    rw [prepared.preset, orExit, prepared.block, orExit, prepared.storage]
    rfl
  rw [hmain]
  rcases orExit_cases "Assigner run failed: " prepared.result next noted with
    ⟨r, hr, hnext⟩ | ⟨hr, hfails⟩
  · obtain ⟨hidle, hstatus⟩ := checkBytecode_spec bytecode w
      prepared.circuits.bytecodeCircuit (w.assignments r.execution.host) noted
    rw [hnext]
    refine ⟨⟨hidle.evaluated, hidle.files, hidle.exports⟩, hstatus.trans ?_⟩
    have htables : prepared.tables = w.assignments r.execution.host := by
      unfold tables
      rw [hr]
      rfl
    rw [← htables]
    exact ⟨fun h => ⟨by rw [hr]; rfl, h⟩, fun h => h.bytecode⟩
  · refine ⟨⟨hfails.idle.evaluated, hfails.idle.files, hfails.idle.exports⟩,
      iff_of_false hfails.status fun h => ?_⟩
    have hrun := h.run
    cases hresult : prepared.result with
    | ok u r => exact hr r hresult
    | error stop r =>
      rw [hresult] at hrun
      cases hrun

end Prepared

/-- Without them, nothing is done. -/
theorem curveDependentMain_fails (h : IsEmpty (Prepared sources bytecode w args))
    (p : Process Circuit) : Fails p (curveDependentMain sources bytecode w args p) := by
  unfold curveDependentMain
  rcases orExit_cases "Preset step failed: " _ _ p with ⟨circuits, hpreset, hnext⟩ | ⟨-, hfails⟩
  · rw [hnext]
    rcases orExit_cases "Extract input block failed: " _ _ p with
      ⟨loaded, hblock, hnext⟩ | ⟨-, hfails⟩
    · rw [hnext]
      rcases orExit_cases "Extract account storage failed: " _ _ p with
        ⟨accounts, hstorage, hnext⟩ | ⟨-, hfails⟩
      · exact (h.false ⟨circuits, loaded, accounts, hpreset, hblock, hstorage⟩).elim
      · exact hfails
    · exact hfails
  · exact hfails

end Prepared

/-! ## What the process leaves -/

section Main

variable {Circuit : Type} [DecidableEq Circuit] {σ C F : BaseField → Type}

/-- The command line leads to a run: it is accepted, the curve has a field, and what comes
before the run succeeds. -/
structure Started (setting : Setting σ Circuit C F) (commandLine : CommandLine) where
  vm : VariablesMap
  stored : commandLine = .stored vm
  help : (vm "help").isSome = false
  version : (vm "version").isSome = false
  args : Arguments Circuit
  accepted : readArguments setting.circuitsMap vm = .ok args
  field : BaseField
  supported : args.curve.baseField = some field
  prepared : Prepared setting.sources setting.bytecode (setting.world field) args

/-- The process is asked to inform only, or for a curve that it has no circuits for. -/
def Informs (setting : Setting σ Circuit C F) (commandLine : CommandLine) : Prop :=
  ∃ vm, commandLine = .stored vm ∧ ((vm "help").isSome = true ∨ (vm "version").isSome = true ∨
    ∃ args, readArguments setting.circuitsMap vm = .ok args ∧ args.curve.baseField = none)

variable {setting : Setting σ Circuit C F} {commandLine : CommandLine}

theorem main_of_args {vm : VariablesMap} (hhelp : (vm "help").isSome = false)
    (hversion : (vm "version").isSome = false) {args : Arguments Circuit}
    (hargs : readArguments setting.circuitsMap vm = .ok args) (p : Process Circuit) :
    (∀ field, args.curve.baseField = some field → main setting (.stored vm) p =
      curveDependentMain setting.sources setting.bytecode (setting.world field) args p) ∧
    (args.curve.baseField = none → p.Idle (left (main setting (.stored vm) p)) ∧
      outcome (main setting (.stored vm) p) = .ok 0) := by
  unfold main
  simp only [hhelp, hversion, hargs]
  cases args.curve with
  | vesta =>
    constructor
    · intro field h
      cases h
    · exact fun _ => ⟨⟨rfl, rfl, rfl⟩, rfl⟩
  | ed25519 =>
    constructor
    · intro field h
      cases h
    · exact fun _ => ⟨⟨rfl, rfl, rfl⟩, rfl⟩
  | _ =>
    constructor
    · intro field h
      cases h
      rfl
    · intro h
      cases h

theorem Started.main_eq (s : Started setting commandLine) (p : Process Circuit) :
    main setting commandLine p = curveDependentMain setting.sources setting.bytecode
      (setting.world s.field) s.args p := by
  calc main setting commandLine p = main setting (.stored s.vm) p := by rw [← s.stored]
    _ = _ := (main_of_args s.help s.version s.accepted p).1 s.field s.supported

/-- **Without a run nothing is done**, and the exit status is 0 where the process informs. -/
theorem main_idle (h : IsEmpty (Started setting commandLine)) (p : Process Circuit) :
    p.Idle (left (main setting commandLine p)) ∧
      (outcome (main setting commandLine p) = .ok 0 → Informs setting commandLine) := by
  cases commandLine with
  | unknownOption what => exact ⟨⟨rfl, rfl, rfl⟩, fun h => by cases h⟩
  | throws e => exact ⟨⟨rfl, rfl, rfl⟩, fun h => by cases h⟩
  | stored vm =>
    cases hhelp : (vm "help").isSome with
    | true =>
      unfold main
      simp only [hhelp]
      exact ⟨⟨rfl, rfl, rfl⟩, fun _ => ⟨vm, rfl, Or.inl hhelp⟩⟩
    | false =>
      cases hversion : (vm "version").isSome with
      | true =>
        unfold main
        simp only [hhelp, hversion]
        exact ⟨⟨rfl, rfl, rfl⟩, fun _ => ⟨vm, rfl, Or.inr (Or.inl hversion)⟩⟩
      | false =>
        cases hargs : readArguments setting.circuitsMap vm with
        | error stop =>
          unfold main
          simp only [hhelp, hversion, hargs]
          cases stop <;> exact ⟨⟨rfl, rfl, rfl⟩, fun h => by cases h⟩
        | ok args =>
          obtain ⟨hsupported, hnone⟩ := main_of_args hhelp hversion hargs p
          cases hfield : args.curve.baseField with
          | none =>
            refine ⟨(hnone hfield).1, fun _ => ?_⟩
            exact ⟨vm, rfl, Or.inr (Or.inr ⟨args, hargs, hfield⟩)⟩
          | some field =>
            have hempty : IsEmpty (Prepared setting.sources setting.bytecode
                (setting.world field) args) := by
              constructor
              intro prepared
              exact h.false ⟨vm, rfl, hhelp, hversion, args, hargs, field, hfield, prepared⟩
            obtain ⟨hidle, hstatus⟩ := curveDependentMain_fails hempty p
            rw [hsupported field hfield]
            exact ⟨hidle, fun h => absurd h hstatus⟩

/-- The process that has not done anything. -/
def Process.new {Circuit : Type} : Process Circuit := ⟨[], [], [], [], []⟩

/-- **What the process leaves**: nothing without a run, and else what the run has done. -/
theorem main_leaves (setting : Setting σ Circuit C F) (commandLine : CommandLine) :
    let r := main setting commandLine Process.new
    (IsEmpty (Started setting commandLine) →
      (left r).evaluated = [] ∧ (left r).files = [] ∧ (left r).exports = []) ∧
    ∀ s : Started setting commandLine,
      s.prepared.Leaves (left r) ∧ (outcome r = .ok 0 → s.prepared.Completes (left r)) := by
  intro r
  constructor
  · intro h
    obtain ⟨hidle, -⟩ := main_idle h Process.new
    exact ⟨hidle.evaluated, hidle.files, hidle.exports⟩
  · intro s
    obtain ⟨hnoted, hstatus⟩ := s.prepared.curveDependentMain_spec Process.new
    have hr : r = _ := s.main_eq Process.new
    rw [hr]
    obtain ⟨horder, hhanded, hall⟩ := run_evaluates (setting.world s.field).toEnvironment
      s.args.assignmentTableFileName s.args.artifacts s.prepared.loaded.block
      s.prepared.loaded.messages s.prepared.start
    obtain ⟨hfirst, hfiles, hexports⟩ := run_files (setting.world s.field).toEnvironment
      s.args.assignmentTableFileName s.args.artifacts s.prepared.loaded.block
      s.prepared.loaded.messages s.prepared.start
    constructor
    · constructor
      · exact made_initializeCircuits s.prepared.preset rfl
      · rw [hnoted.evaluated]
        exact horder
      · rw [hnoted.evaluated]
        exact hhanded
      · rw [hnoted.files]
        exact hfirst
      · rw [hnoted.files, hnoted.exports]
        exact hexports
    · intro hzero
      obtain ⟨hrun, -⟩ := hstatus.mp hzero
      constructor
      · rw [hnoted.evaluated]
        exact hall hrun
      · rw [hnoted.files]
        exact hfiles hrun

/-- A host without code, and one table without columns. -/
def quietWorld : World Unit Unit Unit UInt8 where
  host := ⟨fun _ s => (0, s), fun _ _ s => ((0, []), s), fun _ _ s => s⟩
  assignments _ := [((), ⟨[], [], [], []⟩)]
  amounts _ := ⟨0, 0, 0, 0, 0⟩
  marshalling := ⟨2, fun x => [0, x], fun _ => rfl⟩
  pow2Ceil _ := 1
  ndebug := false
  toText _ := "0".toList
  canOpen _ := true
  component := ⟨⟨[], [], [], []⟩, fun circuit table => .ok (circuit, table)⟩
  emptyCircuit := ()
  start _ := ()
  isSatisfied _ _ := true

/-- A node that answers with a block of one message. -/
def quietSetting : Setting (fun _ => Unit) Unit (fun _ => Unit) (fun _ => UInt8) where
  sources := {
    ext := { externalOf [] (.object [("result".toList, .object [
        ("content".toList, .string "0x".toList),
        ("inMessages".toList, .array [.string "0x".toList])])]) with
      deserializeBlock := fun _ => .ok { zeroBlock with gasPrice := 1 }
      deserializeMessage := fun _ => .ok zeroMessage }
    openFile := fun _ => none
    client := fun _ _ _ => .ok []
    block := zeroBlock
    memory := zeroMessage }
  circuitsMap _ := some ()
  bytecode := ()
  world _ := quietWorld
  usage := []
  version := none

def quietMap : VariablesMap
  | "assignment-tables" => some (.string "t".toList)
  | "shard-id" => some (.uint64 1)
  | "block-hash" => some (.string [])
  | _ => none

example :
    let r := main quietSetting (.stored quietMap) Process.new
    outcome r = .ok 0 ∧ (left r).evaluated.length = 1 ∧
      (left r).files.map Prod.fst = ["t.0".toList] := by
  decide +kernel

/-- **When the exit status is 0**: the process informs, or a run succeeds and leaves a table
for the bytecode circuit.  The table need not satisfy the circuit. -/
theorem main_exits_zero_iff (setting : Setting σ Circuit C F) (commandLine : CommandLine)
    (p : Process Circuit) :
    outcome (main setting commandLine p) = .ok 0 ↔
      Informs setting commandLine ∨
        ∃ s : Started setting commandLine, s.prepared.Succeeds := by
  constructor
  · intro hzero
    rcases isEmpty_or_nonempty (Started setting commandLine) with hempty | ⟨⟨s⟩⟩
    · exact Or.inl ((main_idle hempty p).2 hzero)
    · rw [s.main_eq p] at hzero
      exact Or.inr ⟨s, (s.prepared.curveDependentMain_spec p).2.mp hzero⟩
  · rintro (⟨vm, rfl, hhelp | hrest⟩ | ⟨s, hs⟩)
    · unfold main
      simp only [hhelp]
      rfl
    · cases hhelp : (vm "help").isSome with
      | true =>
        unfold main
        simp only [hhelp]
        rfl
      | false =>
        cases hversion : (vm "version").isSome with
        | true =>
          unfold main
          simp only [hhelp, hversion]
          rfl
        | false =>
          obtain hversion' | ⟨args, hargs, hnone⟩ := hrest
          · rw [hversion] at hversion'
            cases hversion'
          · exact ((main_of_args hhelp hversion hargs p).2 hnone).2
    · rw [s.main_eq p]
      exact (s.prepared.curveDependentMain_spec p).2.mpr hs

end Main

end Assigner
