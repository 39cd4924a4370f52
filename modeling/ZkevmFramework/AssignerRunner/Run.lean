import ZkevmFramework.AssignerRunner.FillAssignments
import ZkevmFramework.AssignerRunner.WriteAssignments
import ZkevmFramework.AssignerRunner.WriteOutput

/-!
# `single_thread_runner::run`

The tables are filled, then written to files in binary mode, then exported.  The
error that filling them returns is not looked at, so a run over a host that copies
less code than it announced writes the tables of the messages before and succeeds
(`run_stops_iff`).
-/

namespace AssignerRunner

open Cpp OutputArtifacts Core.Types

/-- What a run meets: the host with the tables it fills, what a table says of itself,
how it is put into bytes, and the files. -/
structure Environment (σ Circuit F : Type) where
  host : Host σ
  /-- `m_assignments` -/
  assignments : σ → List (Circuit × Assignment F)
  amounts : Assignment F → TableAmounts
  marshalling : FieldMarshalling F
  pow2Ceil : UInt32 → UInt32
  ndebug : Bool
  toText : Circuit → Text
  canOpen : Text → Bool

/-- What a run has done. -/
structure RunState (σ Circuit : Type) where
  execution : Execution σ
  /-- The tables written, with the names of their files. -/
  files : List (Text × Bytes)
  exports : List (Export Circuit)

section Model

variable {σ Circuit F : Type}

/-- A call whose error is not looked at. -/
def discardError {τ : Type} (x : Call τ Unit) : Call τ Unit := fun s =>
  match x s with
  | .error (.error _) s' => .ok () s'
  | r => r

/-- A call that works on the execution. -/
def onExecution {α : Type} (x : Call (Execution σ) α) : Call (RunState σ Circuit) α := fun r =>
  match x r.execution with
  | .ok a e => .ok a { r with execution := e }
  | .error s e => .error s { r with execution := e }

variable (env : Environment σ Circuit F)

def fileName (basefilename : Text) (circuit : Circuit) : Text :=
  basefilename ++ ".".toList ++ env.toText circuit

/-- `write_binary_assignments` -/
def writeBinaryAssignments (basefilename : Text) :
    List (Circuit × Assignment F) → Call (RunState σ Circuit) Unit
  | [] => pure ()
  | assignment :: assignments => do
    let filename := fileName env basefilename assignment.1
    call (if env.canOpen filename then .ok ()
      else .error (.error ("Cannot open ".toList ++ filename)))
    let bytes := writeBinaryAssignment env.marshalling env.pow2Ceil env.ndebug assignment.2 []
    modify fun r => { r with files := r.files ++ [(filename, bytes)] }
    writeBinaryAssignments basefilename assignments

/-- `write_output_artifacts` on the tables of the run. -/
def writeArtifacts [DecidableEq Circuit] (assignments : List (Circuit × Assignment F))
    (artifacts : OutputArtifacts Circuit) : Call (RunState σ Circuit) Unit := fun r =>
  let written := writeOutputArtifacts env.toText env.canOpen
    (assignments.map fun a => (a.1, env.amounts a.2)) artifacts
  match written.2 with
  | none => .ok () { r with exports := r.exports ++ written.1 }
  | some s => .error s { r with exports := r.exports ++ written.1 }

/-- `run`, with the block and the messages that were loaded. -/
def run [DecidableEq Circuit] (block : Block) (inputMessages : List Message)
    (assignmentTableFileName : Text) (artifacts : Option (OutputArtifacts Circuit)) :
    Call (RunState σ Circuit) Unit := do
  discardError (onExecution (fillAssignments env.host block inputMessages))
  let assignments := env.assignments (← get).execution.host
  writeBinaryAssignments env assignmentTableFileName assignments
  match artifacts with
  | some artifacts => writeArtifacts env assignments artifacts
  | none => return ()

end Model

/-! ## The copies of the host -/

section Copies

variable {σ : Type} (host : Host σ) (block : Block)

/-- Every message that is reached finds the code as long as the host announced it. -/
def CopiesWhole : List Message → σ → Prop
  | [], _ => True
  | m :: messages, s =>
    if skipped m then CopiesWhole messages s
    else ∀ gas, gasOf m.feeCredit block.gasPrice = .ok gas →
      let msg := evmcMessage m (copyCalldata m.data).2 gas
      let size := host.getCodeSize msg.recipient s
      let copied := host.copyCode msg.recipient size.1 size.2
      copied.1.1 = size.1 ∧ CopiesWhole messages (host.evaluate msg copied.1.2 copied.2)

/-- **The messages are filled in, or a division by zero ends the run, as long as the host
copies what it announced; else an error is returned.** -/
theorem fillAssignments_copies (messages : List Message) (e : Execution σ) :
    (CopiesWhole host block messages e.host ∧
      ((∃ e', fillAssignments host block messages e = .ok () e' ∧
          e'.evaluated.map Prod.fst =
            e.evaluated.map Prod.fst ++ messages.filter fun m => !skipped m) ∨
        ∃ e', fillAssignments host block messages e = .error .divisionByZero e')) ∨
    (¬ CopiesWhole host block messages e.host ∧
      ∃ message e', fillAssignments host block messages e = .error (.error message) e') := by
  induction messages generalizing e with
  | nil => exact Or.inl ⟨trivial, Or.inl ⟨e, rfl, by simp⟩⟩
  | cons m messages ih =>
    unfold CopiesWhole
    by_cases hskip : skipped m = true
    · rw [if_pos hskip, fillAssignments_skip hskip, List.filter_cons_of_neg (by simp [hskip])]
      exact ih e
    · rw [if_neg hskip, fillAssignments_execute hskip, List.filter_cons_of_pos (by simp [hskip])]
      by_cases hzero : block.gasPrice.toNat % 2 ^ 64 = 0
      · refine Or.inl ⟨fun gas hgas => ?_, Or.inr ⟨e, bind_error (executeMessage_zero host hzero e) _⟩⟩
        rw [gasOf_zero hzero] at hgas
        cases hgas
      · obtain ⟨gas, hgas⟩ : ∃ gas, gasOf m.feeCredit block.gasPrice = .ok gas := by
          obtain ⟨gas, hgas, -⟩ := gasOf_ok hzero
          exact ⟨gas, hgas⟩
        obtain ⟨hwhole, hshort⟩ := executeMessage_of_gas host hgas e
        simp only [hgas, Except.ok.injEq, forall_eq']
        let msg := evmcMessage m (copyCalldata m.data).2 gas
        let size := host.getCodeSize msg.recipient e.host
        let copied := host.copyCode msg.recipient size.1 size.2
        by_cases hcopy : copied.1.1 = size.1
        · rw [bind_ok (hwhole hcopy)]
          have hrest := ih ⟨host.evaluate msg copied.1.2 copied.2, e.evaluated ++ [(m, msg)]⟩
          rw [List.map_append, List.append_assoc] at hrest
          have hiff : (copied.1.1 = size.1 ∧ CopiesWhole host block messages
              (host.evaluate msg copied.1.2 copied.2)) ↔ CopiesWhole host block messages
                (host.evaluate msg copied.1.2 copied.2) := and_iff_right hcopy
          show ((copied.1.1 = size.1 ∧ _) ∧ _) ∨ (¬ (copied.1.1 = size.1 ∧ _) ∧ _)
          rw [hiff]
          exact hrest
        · exact Or.inr ⟨fun h => hcopy h.1, _, _, bind_error (hshort hcopy) _⟩

end Copies

/-! ## The run -/

section Run

variable {σ Circuit F : Type} {env : Environment σ Circuit F} {basefilename : Text}

theorem writeBinaryAssignments_cons {assignment : Circuit × Assignment F}
    (h : env.canOpen (fileName env basefilename assignment.1) = true)
    (assignments : List (Circuit × Assignment F)) (r : RunState σ Circuit) :
    writeBinaryAssignments env basefilename (assignment :: assignments) r =
      writeBinaryAssignments env basefilename assignments { r with files := r.files ++
        [(fileName env basefilename assignment.1,
          writeBinaryAssignment env.marshalling env.pow2Ceil env.ndebug assignment.2 [])] } := by
  rw [writeBinaryAssignments, if_pos h]
  rfl

theorem writeBinaryAssignments_closed {assignment : Circuit × Assignment F}
    (h : env.canOpen (fileName env basefilename assignment.1) = false)
    (assignments : List (Circuit × Assignment F)) (r : RunState σ Circuit) :
    writeBinaryAssignments env basefilename (assignment :: assignments) r =
      .error (.error ("Cannot open ".toList ++ fileName env basefilename assignment.1)) r := by
  rw [writeBinaryAssignments, h]
  rfl

/-- The files written stay, and nothing more is executed. -/
structure OnlyWrites (r r' : RunState σ Circuit) : Prop where
  execution : r'.execution = r.execution
  files : r.files <+: r'.files

theorem writeBinaryAssignments_only (assignments : List (Circuit × Assignment F))
    (r : RunState σ Circuit) :
    OnlyWrites r (left (writeBinaryAssignments env basefilename assignments r)) := by
  induction assignments generalizing r with
  | nil => exact ⟨rfl, List.prefix_rfl⟩
  | cons assignment assignments ih =>
    cases hopen : env.canOpen (fileName env basefilename assignment.1) with
    | true =>
      rw [writeBinaryAssignments_cons hopen]
      obtain ⟨hexecution, hfiles⟩ := ih { r with files := r.files ++ [_] }
      exact ⟨hexecution, (List.prefix_append _ _).trans hfiles⟩
    | false =>
      rw [writeBinaryAssignments_closed hopen]
      exact ⟨rfl, List.prefix_rfl⟩

theorem OnlyWrites.trans {r r' r'' : RunState σ Circuit} (h : OnlyWrites r r')
    (h' : OnlyWrites r' r'') : OnlyWrites r r'' :=
  ⟨h'.execution.trans h.execution, h.files.trans h'.files⟩

variable [DecidableEq Circuit]

theorem writeArtifacts_only (assignments : List (Circuit × Assignment F))
    (artifacts : OutputArtifacts Circuit) (r : RunState σ Circuit) :
    OnlyWrites r (left (writeArtifacts env assignments artifacts r)) := by
  unfold writeArtifacts
  simp only
  split
  · exact ⟨rfl, List.prefix_rfl⟩
  · exact ⟨rfl, List.prefix_rfl⟩

/-- What `run` does once the tables are filled. -/
def writeAll (env : Environment σ Circuit F) (assignmentTableFileName : Text)
    (artifacts : Option (OutputArtifacts Circuit)) : Call (RunState σ Circuit) Unit := do
  let assignments := env.assignments (← get).execution.host
  writeBinaryAssignments env assignmentTableFileName assignments
  match artifacts with
  | some artifacts => writeArtifacts env assignments artifacts
  | none => return ()

variable {artifacts : Option (OutputArtifacts Circuit)}

/-- The exports come after the tables. -/
theorem writeAll_after (r : RunState σ Circuit) :
    OnlyWrites (left (writeBinaryAssignments env basefilename (env.assignments r.execution.host) r))
      (left (writeAll env basefilename artifacts r)) := by
  show OnlyWrites _ (left ((writeBinaryAssignments env basefilename
    (env.assignments r.execution.host) >>= _) r))
  cases hw : writeBinaryAssignments env basefilename (env.assignments r.execution.host) r with
  | error e r' =>
    rw [bind_error hw]
    exact ⟨rfl, List.prefix_rfl⟩
  | ok _ r' =>
    rw [bind_ok hw]
    cases artifacts with
    | none => exact ⟨rfl, List.prefix_rfl⟩
    | some a => exact writeArtifacts_only _ a r'

theorem writeAll_only (r : RunState σ Circuit) :
    OnlyWrites r (left (writeAll env basefilename artifacts r)) :=
  (writeBinaryAssignments_only _ r).trans (writeAll_after r)

/-- The file of the first table cannot be opened. -/
def FirstClosed (env : Environment σ Circuit F) (basefilename : Text) (s : σ) : Prop :=
  ∃ assignment ∈ (env.assignments s).head?,
    env.canOpen (fileName env basefilename assignment.1) = false

variable (artifacts) in
/-- **Nothing is written, and an error returned, exactly where the first file cannot be
opened.** -/
theorem writeAll_nothing_iff (e : Execution σ) :
    ((∃ message, outcome (writeAll env basefilename artifacts ⟨e, [], []⟩) =
        .error (.error message)) ∧
      (left (writeAll env basefilename artifacts ⟨e, [], []⟩)).files = []) ↔
      FirstClosed env basefilename e.host := by
  unfold FirstClosed
  cases hassignments : env.assignments e.host with
  | nil =>
    -- without tables the artifacts are not looked at
    have hrun : outcome (writeAll env basefilename artifacts ⟨e, [], []⟩) = .ok () := by
      show outcome ((writeBinaryAssignments env basefilename (env.assignments e.host) >>= _) _) = _
      rw [hassignments]
      cases artifacts <;> rfl
    rw [hrun]
    exact iff_of_false (by simp) (by simp)
  | cons assignment assignments =>
    simp only [List.head?_cons, Option.mem_def, Option.some.injEq, exists_eq_left']
    cases hopen : env.canOpen (fileName env basefilename assignment.1) with
    | true =>
      refine iff_of_false ?_ (by simp)
      rintro ⟨-, hfiles⟩
      have hfirst : _ <+: (left (writeAll env basefilename artifacts ⟨e, [], []⟩)).files :=
        (writeAll_after _).files
      rw [hfiles, hassignments, writeBinaryAssignments_cons hopen] at hfirst
      have hwritten := List.IsPrefix.trans (writeBinaryAssignments_only assignments _).files hfirst
      exact absurd (List.prefix_nil.mp hwritten) (by simp)
    | false =>
      refine iff_of_true ?_ rfl
      have hclosed := writeBinaryAssignments_closed hopen assignments
        (⟨e, [], []⟩ : RunState σ Circuit)
      rw [← hassignments] at hclosed
      have hrun : writeAll env basefilename artifacts ⟨e, [], []⟩ = .error _ ⟨e, [], []⟩ :=
        bind_error hclosed _
      rw [hrun]
      exact ⟨⟨_, rfl⟩, rfl⟩

/-- The run, by what filling the tables ends with. -/
theorem run_eq (block : Block) (messages : List Message) (e : Execution σ) :
    run env block messages basefilename artifacts ⟨e, [], []⟩ =
      match fillAssignments env.host block messages e with
      | .ok _ e' => writeAll env basefilename artifacts ⟨e', [], []⟩
      | .error (.error _) e' => writeAll env basefilename artifacts ⟨e', [], []⟩
      | .error s e' => .error s ⟨e', [], []⟩ := by
  show (discardError (onExecution (fillAssignments env.host block messages)) >>= fun _ =>
    writeAll env basefilename artifacts) ⟨e, [], []⟩ = _
  have hfill : discardError (onExecution (fillAssignments env.host block messages)) ⟨e, [], []⟩ =
      match fillAssignments env.host block messages e with
      | .ok _ e' => .ok () (⟨e', [], []⟩ : RunState σ Circuit)
      | .error (.error _) e' => .ok () ⟨e', [], []⟩
      | .error s e' => .error s ⟨e', [], []⟩ := by
    unfold discardError onExecution
    rcases fillAssignments env.host block messages e with ⟨_, e'⟩ | ⟨s, e'⟩
    · rfl
    · cases s <;> rfl
  rcases hrun : fillAssignments env.host block messages e with ⟨_, e'⟩ | ⟨s, e'⟩
  · rw [hrun] at hfill
    exact bind_ok hfill _
  · rw [hrun] at hfill
    cases s with
    | error message => exact bind_ok hfill _
    | _ => exact bind_error hfill _

/-- An error of `fill_assignments` is returned by the run, which then writes no table;
and a run that succeeds has evaluated every message that is not skipped. -/
structure StopsOnError (messages : List Message)
    (filled : EStateM.Result Stop (Execution σ) Unit)
    (r : EStateM.Result Stop (RunState σ Circuit) Unit) : Prop where
  stops : (∃ message, outcome filled = .error (.error message)) →
    (∃ message, outcome r = .error (.error message)) ∧ (left r).files = []
  evaluates : outcome r = .ok () →
    (left r).execution.evaluated.map Prod.fst = messages.filter fun m => !skipped m

/-- **When a run stops on the error of `fill_assignments`**: there is none, as the host
copies what it announced, or no table can be written anyway. -/
theorem run_stops_iff (env : Environment σ Circuit F) (block : Block) (messages : List Message)
    (s : σ) (assignmentTableFileName : Text) (artifacts : Option (OutputArtifacts Circuit)) :
    let filled := fillAssignments env.host block messages ⟨s, []⟩
    StopsOnError messages filled
        (run env block messages assignmentTableFileName artifacts ⟨⟨s, []⟩, [], []⟩) ↔
      CopiesWhole env.host block messages s ∨
        FirstClosed env assignmentTableFileName (left filled).host := by
  intro filled
  rw [run_eq]
  rcases fillAssignments_copies env.host block messages ⟨s, []⟩ with
    ⟨hcopies, ⟨e', hrun, hevaluated⟩ | ⟨e', hrun⟩⟩ | ⟨hcopies, message, e', hrun⟩
  · refine iff_of_true ?_ (Or.inl hcopies)
    have hfilled : filled = .ok () e' := hrun
    rw [hfilled, hrun]
    refine ⟨?_, fun _ => ?_⟩
    · rintro ⟨message, h⟩
      cases h
    · rw [(writeAll_only _).execution]
      simpa using hevaluated
  · refine iff_of_true ?_ (Or.inl hcopies)
    have hfilled : filled = .error .divisionByZero e' := hrun
    rw [hfilled, hrun]
    refine ⟨?_, ?_⟩
    · rintro ⟨message, h⟩
      cases h
    · intro h
      cases h
  · have hfilled : filled = .error (.error message) e' := hrun
    rw [hfilled, hrun, or_iff_right hcopies]
    show StopsOnError messages _ (writeAll env assignmentTableFileName artifacts ⟨e', [], []⟩) ↔
      FirstClosed env assignmentTableFileName e'.host
    rw [← writeAll_nothing_iff artifacts]
    constructor
    · intro h
      exact h.stops ⟨message, rfl⟩
    · intro h
      refine ⟨fun _ => h, fun hok => ?_⟩
      obtain ⟨⟨message', herror⟩, -⟩ := h
      rw [hok] at herror
      cases herror

/-- A host that announces one byte of code and copies none. -/
def shortHost : Host Unit where
  getCodeSize _ s := (1, s)
  copyCode _ _ s := ((0, []), s)
  evaluate _ _ s := s

/-- One table without columns, in a field whose elements take one byte. -/
def shortEnvironment : Environment Unit Unit UInt8 where
  host := shortHost
  assignments _ := [((), ⟨[], [], [], []⟩)]
  amounts _ := ⟨0, 0, 0, 0, 0⟩
  marshalling := ⟨1, fun x => [x], fun _ => rfl⟩
  pow2Ceil _ := 1
  ndebug := false
  toText _ := "0".toList
  canOpen _ := true

/-- The code of the one message is not copied, and the run writes the table and succeeds. -/
theorem run_ignores_error :
    let block := { zeroBlock with gasPrice := 1 }
    (∃ message, outcome (fillAssignments shortHost block [zeroMessage] ⟨(), []⟩) =
      .error (.error message)) ∧
    outcome (run shortEnvironment block [zeroMessage] "t".toList none ⟨⟨(), []⟩, [], []⟩) = .ok () ∧
    (left (run shortEnvironment block [zeroMessage] "t".toList none
      ⟨⟨(), []⟩, [], []⟩)).files.length = 1 ∧
    (left (run shortEnvironment block [zeroMessage] "t".toList none
      ⟨⟨(), []⟩, [], []⟩)).execution.evaluated = [] := by
  exact ⟨⟨_, rfl⟩, rfl, rfl, rfl⟩

end Run

end AssignerRunner
