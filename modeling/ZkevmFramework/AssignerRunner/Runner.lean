import ZkevmFramework.AssignerRunner.ExtVmHost
import ZkevmFramework.AssignerRunner.Run

/-!
# `single_thread_runner`

The block is extracted from a file or from the node, the accounts from a file if
one is named; then the block is run.  Whichever way a run ends, the messages that
were evaluated are the first of those to evaluate, in the order of the block and
each with its own gas (`run_evaluates`).
-/

namespace AssignerRunner

open Cpp OutputArtifacts Core.Types Rpc JsonHelpers

/-! ## Extraction -/

/-- Where the block and the accounts come from. -/
structure Sources where
  ext : External
  /-- `std::ifstream` -/
  openFile : Text → Option Istream
  client : Client
  /-- What the memory of a block just declared holds. -/
  block : Block
  /-- What the memory of a message just declared holds. -/
  memory : Message

section Extract

variable (sources : Sources) (extractor : DataExtractor)

def extractBlockWithMessages (blockHash blockFileName : Text) : Call Loaded Unit :=
  if blockFileName ≠ [] then
    match sources.openFile blockFileName with
    | none =>
      call (.error (.error
        ("Could not open the input block file: '".toList ++ blockFileName ++ "'".toList)))
    | some blockData => loadBlockWithMessages sources.ext sources.memory blockData
  else
    match extractor.getBlockWithMessages sources.client blockHash with
    | .error message => call (.error (.error message))
    | .ok body => loadRawBlockWithMessages sources.ext { data := body }

def extractAccountsWithStorage (accountStorageConfigName : Text) : Call Accounts Unit :=
  if accountStorageConfigName ≠ [] then
    initAccountStorageFile sources.ext sources.openFile accountStorageConfigName
  else pure ()

end Extract

/-! ## What is evaluated -/

section Evaluated

variable {σ : Type} (host : Host σ) (block : Block)

theorem copyCalldata_snd (data : Bytes) : (copyCalldata data).2 = data := by
  have hfold : ∀ (n : Nat) (acc : Bytes),
      (data.foldl (fun r b => (r.1 + 1, r.2 ++ [b])) (n, acc)).2 = acc ++ data := by
    induction data with
    | nil => exact fun _ acc => (List.append_nil acc).symm
    | cons b data ih =>
      intro n acc
      rw [List.foldl_cons, ih, List.append_assoc, List.singleton_append]
  exact hfold 0 []

/-- The message was handed to the EVM; its gas is the credit divided by the low word of the
price, as an `int64_t` holds it. -/
def Handed (p : Message × EvmcMessage) : Prop :=
  block.gasPrice.toNat % 2 ^ 64 ≠ 0 ∧ ∃ gas : Int64, p.2 = evmcMessage p.1 p.1.data gas ∧
    gas.toInt =
      Int.bmod (p.1.feeCredit.toNat / (block.gasPrice.toNat % 2 ^ 64) : Nat) (2 ^ 64)

theorem executeMessage_hands (m : Message) (e : Execution σ) :
    (∃ s e', executeMessage host block m e = .error s e' ∧ e'.evaluated = e.evaluated) ∨
      ∃ msg e', executeMessage host block m e = .ok () e' ∧ Handed block (m, msg) ∧
        e'.evaluated = e.evaluated ++ [(m, msg)] := by
  by_cases hzero : block.gasPrice.toNat % 2 ^ 64 = 0
  · exact Or.inl ⟨_, _, executeMessage_zero host hzero e, rfl⟩
  · obtain ⟨gas, hgas, hint⟩ := @gasOf_ok m.feeCredit _ hzero
    obtain ⟨hwhole, hshort⟩ := executeMessage_of_gas host hgas e
    rw [copyCalldata_snd] at hwhole hshort
    rcases Classical.em _ with hcopy | hcopy
    · exact Or.inr ⟨_, _, hwhole hcopy, ⟨hzero, gas, rfl, hint⟩, rfl⟩
    · exact Or.inl ⟨_, _, hshort hcopy, rfl⟩

/-- The messages that are not skipped. -/
def toEvaluate (messages : List Message) : List Message := messages.filter fun m => !skipped m

/-- **The messages are evaluated in their order**, up to one that stops the loop. -/
theorem fillAssignments_evaluates (messages : List Message) (e : Execution σ) :
    ∃ done, (left (fillAssignments host block messages e)).evaluated = e.evaluated ++ done ∧
      done.map Prod.fst <+: toEvaluate messages ∧ (∀ p ∈ done, Handed block p) ∧
      (done.map Prod.fst = toEvaluate messages ↔
        outcome (fillAssignments host block messages e) = .ok ()) := by
  unfold toEvaluate
  induction messages generalizing e with
  | nil =>
    exact ⟨[], (List.append_nil _).symm, List.nil_prefix, List.forall_mem_nil _, by simp; rfl⟩
  | cons m messages ih =>
    by_cases hskip : skipped m = true
    · rw [fillAssignments_skip hskip, List.filter_cons_of_neg (by simp [hskip])]
      exact ih e
    · rw [fillAssignments_execute hskip, List.filter_cons_of_pos (by simp [hskip])]
      rcases executeMessage_hands host block m e with
        ⟨_, e', hrun, heval⟩ | ⟨msg, e', hrun, hmsg, heval⟩
      · rw [bind_error hrun]
        refine ⟨[], ?_, List.nil_prefix, List.forall_mem_nil _, ?_⟩
        · rw [List.append_nil]
          exact heval
        · exact iff_of_false (List.cons_ne_nil _ _).symm fun h => by cases h
      · rw [bind_ok hrun]
        obtain ⟨done, hdone, hfirst, hhanded, hall⟩ := ih e'
        refine ⟨(m, msg) :: done, ?_, ?_, List.forall_mem_cons.mpr ⟨hmsg, hhanded⟩, ?_⟩
        · rw [hdone, heval, List.append_assoc, List.singleton_append]
        · exact (List.prefix_cons_inj m).mpr hfirst
        · rw [List.map_cons, List.cons.injEq, and_iff_right rfl]
          exact hall

end Evaluated

/-! ## What a run leaves -/

section Run

variable {σ Circuit F : Type} {env : Environment σ Circuit F} {basefilename : Text}

/-- The files of the tables. -/
def tableFiles (env : Environment σ Circuit F) (basefilename : Text)
    (assignments : List (Circuit × Assignment F)) : List (Text × Bytes) :=
  assignments.map fun a => (fileName env basefilename a.1,
    writeBinaryAssignment env.marshalling env.pow2Ceil env.ndebug a.2 [])

variable (env basefilename) in
theorem writeBinaryAssignments_files (assignments : List (Circuit × Assignment F))
    (r : RunState σ Circuit) :
    ∃ written, left (writeBinaryAssignments env basefilename assignments r) =
        { r with files := r.files ++ written } ∧
      written <+: tableFiles env basefilename assignments ∧
      (outcome (writeBinaryAssignments env basefilename assignments r) = .ok () →
        written = tableFiles env basefilename assignments) := by
  induction assignments generalizing r with
  | nil =>
    refine ⟨[], ?_, List.nil_prefix, fun _ => rfl⟩
    rw [List.append_nil]
    rfl
  | cons a assignments ih =>
    cases hopen : env.canOpen (fileName env basefilename a.1) with
    | true =>
      rw [writeBinaryAssignments_cons hopen]
      obtain ⟨written, hleft, hfirst, hall⟩ := ih { r with files := r.files ++ [_] }
      refine ⟨_ :: written, ?_, (List.prefix_cons_inj _).mpr hfirst, fun h => ?_⟩
      · rw [hleft, List.append_assoc, List.singleton_append]
      · rw [hall h]
        rfl
    | false =>
      rw [writeBinaryAssignments_closed hopen]
      refine ⟨[], ?_, List.nil_prefix, fun h => ?_⟩
      · rw [List.append_nil]
        rfl
      · cases h

variable [DecidableEq Circuit]

theorem writeArtifacts_files (assignments : List (Circuit × Assignment F))
    (artifacts : OutputArtifacts Circuit) (r : RunState σ Circuit) :
    (left (writeArtifacts env assignments artifacts r)).files = r.files := by
  unfold writeArtifacts
  simp only
  split <;> rfl

variable {artifacts : Option (OutputArtifacts Circuit)}

variable (env basefilename artifacts) in
theorem writeAll_files (r : RunState σ Circuit) :
    ∃ written, (left (writeAll env basefilename artifacts r)).files = r.files ++ written ∧
      written <+: tableFiles env basefilename (env.assignments r.execution.host) ∧
      (outcome (writeAll env basefilename artifacts r) = .ok () →
        written = tableFiles env basefilename (env.assignments r.execution.host)) ∧
      ((left (writeAll env basefilename artifacts r)).exports ≠ r.exports →
        artifacts.isSome = true ∧
          written = tableFiles env basefilename (env.assignments r.execution.host)) := by
  obtain ⟨written, hleft, hfirst, hall⟩ :=
    writeBinaryAssignments_files env basefilename (env.assignments r.execution.host) r
  rw [show writeAll env basefilename artifacts r =
    (writeBinaryAssignments env basefilename (env.assignments r.execution.host) >>= _) r from rfl]
  refine ⟨written, ?_, hfirst, ?_⟩
  · cases hw : writeBinaryAssignments env basefilename (env.assignments r.execution.host) r with
    | error e r' =>
      rw [hw] at hleft
      rw [bind_error hw]
      exact congrArg RunState.files hleft
    | ok _ r' =>
      rw [hw] at hleft
      rw [bind_ok hw]
      have hfiles : r'.files = r.files ++ written := congrArg RunState.files hleft
      cases artifacts with
      | none => exact hfiles
      | some a => exact (writeArtifacts_files _ a r').trans hfiles
  · cases hw : writeBinaryAssignments env basefilename (env.assignments r.execution.host) r with
    | error e r' =>
      rw [hw] at hleft
      rw [bind_error hw]
      refine ⟨fun h => ?_, fun hexports => absurd (congrArg RunState.exports hleft) hexports⟩
      cases h
    | ok _ r' =>
      rw [hw] at hleft hall
      rw [bind_ok hw]
      refine ⟨fun _ => hall rfl, fun hexports => ?_⟩
      cases artifacts with
      | none => exact absurd (congrArg RunState.exports hleft) hexports
      | some a => exact ⟨rfl, hall rfl⟩

/-- What a run has evaluated is what filling the tables has. -/
theorem run_execution (block : Block) (messages : List Message) (e : Execution σ) :
    (left (run env block messages basefilename artifacts ⟨e, [], []⟩)).execution =
      left (fillAssignments env.host block messages e) := by
  rw [run_eq]
  rcases fillAssignments env.host block messages e with ⟨_, e'⟩ | ⟨s, e'⟩
  · exact (writeAll_only _).execution
  · cases s <;> first | exact (writeAll_only _).execution | rfl

variable (env basefilename artifacts) in
/-- **However a run ends, the first messages have been evaluated, in their order**; and if it
succeeds, all of them where the host copies what it announces. -/
theorem run_evaluates (block : Block) (messages : List Message) (s : σ) :
    let r := run env block messages basefilename artifacts ⟨⟨s, []⟩, [], []⟩
    (left r).execution.evaluated.map Prod.fst <+: toEvaluate messages ∧
      (∀ p ∈ (left r).execution.evaluated, Handed block p) ∧
      (outcome r = .ok () → ((left r).execution.evaluated.map Prod.fst = toEvaluate messages ↔
        CopiesWhole env.host block messages s)) := by
  intro r
  obtain ⟨done, hdone, hfirst, hhanded, hall⟩ :=
    fillAssignments_evaluates env.host block messages ⟨s, []⟩
  have hr : (left r).execution.evaluated = done := by
    have hexecution : (left r).execution = _ := run_execution block messages ⟨s, []⟩
    rw [hexecution, hdone, List.nil_append]
  rw [hr]
  refine ⟨hfirst, hhanded, fun hok => hall.trans ?_⟩
  have hrun : r = _ := run_eq block messages ⟨s, []⟩
  rcases fillAssignments_copies env.host block messages ⟨s, []⟩ with
    ⟨hcopies, ⟨e', hfill, -⟩ | ⟨e', hfill⟩⟩ | ⟨hcopies, message, e', hfill⟩
  · rw [hfill]
    exact iff_of_true rfl hcopies
  · -- the run would stop here
    rw [hfill] at hrun
    rw [hrun] at hok
    cases hok
  · rw [hfill]
    exact iff_of_false (fun h => by cases h) hcopies

variable (env basefilename artifacts) in
/-- **The files are those of the first tables**, and of all of them when the run succeeds
or something is exported. -/
theorem run_files (block : Block) (messages : List Message) (s : σ) :
    let r := run env block messages basefilename artifacts ⟨⟨s, []⟩, [], []⟩
    let files := tableFiles env basefilename (env.assignments (left r).execution.host)
    (left r).files <+: files ∧ (outcome r = .ok () → (left r).files = files) ∧
      ((left r).exports ≠ [] → artifacts.isSome = true ∧ (left r).files = files) := by
  intro r files
  have hr : r = _ := run_eq block messages ⟨s, []⟩
  have hwrites : ∀ e : Execution σ, r = writeAll env basefilename artifacts ⟨e, [], []⟩ →
      (left r).files <+: files ∧ (outcome r = .ok () → (left r).files = files) ∧
        ((left r).exports ≠ [] → artifacts.isSome = true ∧ (left r).files = files) := by
    intro e he
    obtain ⟨written, hfiles, hrest⟩ := writeAll_files env basefilename artifacts ⟨e, [], []⟩
    have hexecution : (left r).execution = e := by
      rw [he]
      exact (writeAll_only _).execution
    have hwritten : (left r).files = written := by
      rw [he]
      exact hfiles
    rw [show files = tableFiles env basefilename (env.assignments e.host) by rw [← hexecution],
      hwritten, he]
    exact hrest
  rcases hfill : fillAssignments env.host block messages ⟨s, []⟩ with ⟨_, e'⟩ | ⟨stop, e'⟩
  · rw [hfill] at hr
    exact hwrites e' hr
  · rw [hfill] at hr
    cases stop with
    | error message => exact hwrites e' hr
    | _ =>
      rw [hr]
      refine ⟨List.nil_prefix, fun h => ?_, fun h => absurd rfl h⟩
      cases h

end Run

end AssignerRunner
