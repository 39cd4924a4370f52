import ZkevmFramework.BlockGenerator.Generator

/-!
# What the generator leaves behind

The cluster's process is started at most once, and terminated once if it was started
and the sleep after that came to its end, by the rule for context managers
(`Ends.within`).  The directory `artifacts` is made inside of the `try` that removes it,
so one of that name that was there before is removed too, and no block is generated
next to it (`main_cleans`).
-/

namespace BlockGenerator

open Cpp hiding bind_ok bind_error bind_eq_ok_iff
open JsonHelpers Cleanup

section Leaves

variable {τ α : Type} {tools : Tools τ} {configPath : Option Text} {I : Shell τ → Prop}

/-- It does not speak of the world outside. -/
def Inner (I : Shell τ → Prop) : Prop := ∀ s outside, I s → I { s with outside }

theorem raising_bind_ok {β : Type} (a : α) (f : α → Py τ β) (s : Shell τ) :
    (raising (.ok a) >>= f) s = f a s := rfl

theorem ends_raising (x : Except Raised α) : Ends I (raising x : Py τ α) I := by
  intro s hs
  cases x <;> exact hs

theorem ends_raiseIf (c : Prop) [Decidable c] (e : Raised) : Ends I (raiseIf c e : Py τ Unit) I := by
  unfold raiseIf
  split
  · exact ends_throw e
  · exact ends_pure ()

section Inner

variable (hI : Inner I)
include hI

theorem ends_attempt (f : τ → Except Raised α × τ) : Ends I (attempt f) I :=
  Ends.bind (fun s hs => hI s _ hs) fun x => ends_raising x

theorem ends_sendRequest
    (hrequests : ∀ s request, I s → I { s with requests := s.requests ++ [request] })
    (method : String) (params : List Value) : Ends I (sendRequest tools method params) I := by
  unfold sendRequest
  refine (ends_attempt hI _).bind fun response => ?_
  refine Ends.bind (fun s hs => hrequests s _ hs) fun _ => ?_
  exact (ends_raiseIf _ _).bind fun _ => (ends_raising _).bind fun _ => ends_raising _

theorem ends_dump (hfiles : ∀ s file, I s → I { s with files := s.files ++ [file] })
    (fileName : Option Text) (value : Value) : Ends I (dump tools fileName value) I := by
  cases fileName with
  | none => exact ends_pure ()
  | some name => exact (ends_attempt hI _).bind fun _ s hs => hfiles s _ hs

variable (hcommands : ∀ s command, I s → I { s with commands := s.commands ++ [command] })
include hcommands

theorem ends_solcCompile (hartifacts : ∀ s names, I s → I { s with artifacts := some names })
    (source dir : Text) : Ends I (solcCompile tools source dir) I := by
  have hmake : Ends I (makeSubdirectory dir : Py τ Unit) I := by
    refine Ends.bind (fun _ hs => hs) fun s => ?_
    split
    · exact ends_throw _
    · exact (ends_raiseIf _ _).bind fun _ s hs => hartifacts s _ hs
  refine hmake.bind fun _ => (ends_attempt hI _).bind fun made => ?_
  refine Ends.bind (fun s hs => hcommands s _ hs) fun _ => ?_
  refine (ends_raiseIf _ _).bind fun _ => (ends_raising _).bind fun files => ?_
  refine (ends_raiseIf _ _).bind fun _ => ?_
  split
  · exact ends_pure _
  · exact ends_throw _

theorem ends_callNil (args : List Text) : Ends I (callNil tools configPath args) I := by
  unfold callNil
  refine (ends_attempt hI _).bind fun p => Ends.bind (fun s hs => hcommands s _ hs) fun _ => ?_
  exact (ends_raiseIf _ _).bind fun _ => ends_pure _

theorem ends_runCli (args : List Text) : Ends I (runCli tools configPath args) I :=
  (ends_callNil hI hcommands args).bind fun _ => ends_pure _

theorem ends_runCliFor (args : List Text) (label : String) (digits : Char → Bool) :
    Ends I (runCliFor tools configPath args label digits) I := by
  refine (ends_callNil hI hcommands args).bind fun p => ?_
  split
  · exact ends_pure _
  · exact ends_throw _

theorem ends_deployContract (bin abi : Text) :
    Ends I (deployContract tools configPath bin abi) I :=
  Ends.bind (fun s hs => hI s _ hs) fun _ => ends_runCliFor hI hcommands _ _ _

theorem ends_submitTransactions (contractMap : List (Nat × Contract))
    (last : Option (Text × Deployment)) (transactions : List TransactionConfig) :
    Ends I (submitTransactions tools configPath contractMap last transactions) I := by
  induction transactions generalizing last with
  | nil => exact ends_pure last
  | cons t transactions ih =>
    unfold submitTransactions
    split
    · exact ends_throw _
    · exact ends_throw _
    · exact (ends_runCliFor hI hcommands _ _ _).bind fun hash => ih _

theorem ends_getBlockHash (messageHash calledContract : Text) :
    Ends I (getBlockHash tools configPath messageHash calledContract) I := by
  refine (ends_runCli hI hcommands _).bind fun receiptStr => ?_
  split
  · exact ends_throw _
  · refine (ends_raising _).bind fun receiptJson => (ends_raising _).bind fun found => ?_
    split
    · exact ends_throw _
    · exact (ends_raising _).bind fun _ => (ends_raising _).bind fun _ => ends_pure _

variable (hartifacts : ∀ s names, I s → I { s with artifacts := some names })
include hartifacts

theorem ends_deployContracts (contracts : List (Nat × Contract)) :
    Ends I (deployContracts tools configPath contracts) I := by
  induction contracts with
  | nil => exact ends_pure _
  | cons c contracts ih =>
    obtain ⟨id, contract⟩ := c
    refine Ends.bind ?_ fun _ => ih.bind fun _ => ends_pure _
    unfold Contract.deployOnce
    split
    · exact ends_pure contract
    · refine (ends_raiseIf _ _).bind fun _ => ?_
      refine (ends_solcCompile hI hcommands hartifacts _ _).bind fun files => ?_
      exact (ends_deployContract hI hcommands _ _).bind fun _ => ends_pure _

theorem ends_deployAndCall
    (hrequests : ∀ s request, I s → I { s with requests := s.requests ++ [request] })
    (hfiles : ∀ s file, I s → I { s with files := s.files ++ [file] })
    (contracts : List (Nat × Contract)) (transactions : List TransactionConfig)
    (blockFile stateFile : Option Text) :
    Ends I (deployAndCall tools configPath contracts transactions blockFile stateFile) I := by
  refine (ends_deployContracts hI hcommands hartifacts contracts).bind fun contractMap => ?_
  refine (ends_submitTransactions hI hcommands _ _ _).bind fun last => ?_
  split
  · exact ends_throw _
  · refine (ends_getBlockHash hI hcommands _ _).bind fun block => ?_
    refine ((ends_sendRequest hI hrequests _ _).bind fun _ => ends_dump hI hfiles _ _).bind
      fun _ => ?_
    exact ((ends_sendRequest hI hrequests _ _).bind fun _ => ends_dump hI hfiles _ _).bind
      fun _ => ends_pure _

end Inner

/-! ## The directory -/

variable {calls : List (ClusterCall × Except Raised Unit)} {names : Option (List Text)}

/-- Inside of `temp_directory`. -/
def Inside (calls : List (ClusterCall × Except Raised Unit)) (s : Shell τ) : Prop :=
  s.clusterCalls = calls ∧ s.artifacts.isSome = true

theorem mkdir_of_none {s : Shell τ} (h : s.artifacts = none) :
    mkdir s = .ok () { s with artifacts := some [] } := by
  obtain ⟨outside, calls, artifacts, commands, requests, files⟩ := s
  cases h
  rfl

theorem mkdir_of_some {s : Shell τ} (h : s.artifacts.isSome = true) :
    mkdir s = .error .fileExists s := by
  obtain ⟨outside, calls, artifacts, commands, requests, files⟩ := s
  obtain ⟨names, rfl⟩ := Option.isSome_iff_exists.mp h
  rfl

theorem rmtree_of_some {s : Shell τ} (h : s.artifacts.isSome = true) :
    rmtree s = .ok () { s with artifacts := none } := by
  obtain ⟨outside, calls, artifacts, commands, requests, files⟩ := s
  obtain ⟨names, rfl⟩ := Option.isSome_iff_exists.mp h
  rfl

/-- A directory that is there already is removed, and the block not entered. -/
theorem tempDirectory_of_some {s : Shell τ} (h : s.artifacts.isSome = true) (x : Py τ α) :
    tempDirectory x s = .error .fileExists { s with artifacts := none } := by
  exact protect_error (bind_error (mkdir_of_some h) _) (rmtree_of_some h)

theorem tempDirectory_ok {x : Py τ α} {s t : Shell τ} {a : α} (h : s.artifacts = none)
    (hx : x { s with artifacts := some [] } = .ok a t) (ht : t.artifacts.isSome = true) :
    tempDirectory x s = .ok a { t with artifacts := none } :=
  protect_ok ((bind_ok (mkdir_of_none h) fun _ => x).trans hx) (rmtree_of_some ht)

theorem tempDirectory_error {x : Py τ α} {s t : Shell τ} {e : Raised} (h : s.artifacts = none)
    (hx : x { s with artifacts := some [] } = .error e t) (ht : t.artifacts.isSome = true) :
    tempDirectory x s = .error e { t with artifacts := none } :=
  protect_error ((bind_ok (mkdir_of_none h) fun _ => x).trans hx) (rmtree_of_some ht)

/-- What was done to the cluster; the directory is as it was, or gone. -/
def Left (calls : List (ClusterCall × Except Raised Unit)) (names : Option (List Text))
    (s : Shell τ) : Prop :=
  s.clusterCalls = calls ∧ (s.artifacts = names ∨ s.artifacts = none)

theorem ends_tempDirectory {x : Py τ α} (h : Ends (Inside calls) x (Inside calls)) :
    Ends (Left calls names) (tempDirectory x) (Left calls names) := by
  -- the directory is there before it is removed, whoever has made it
  have hbody : Ends (Left calls names) (do mkdir; x) (Inside calls) := by
    intro s hs
    cases hartifacts : s.artifacts with
    | none =>
      rw [bind_ok (mkdir_of_none hartifacts)]
      exact h _ ⟨hs.1, rfl⟩
    | some names' =>
      have hsome : s.artifacts.isSome = true := by rw [hartifacts]; rfl
      rw [bind_error (mkdir_of_some hsome)]
      exact ⟨hs.1, hsome⟩
  refine hbody.protect fun s hs => ?_
  rw [rmtree_of_some hs.2]
  exact ⟨hs.1, Or.inr rfl⟩

/-! ## The cluster -/

theorem attempt_cases (f : τ → Except Raised α × τ) (s : Shell τ) :
    (∃ a outside, attempt f s = .ok a { s with outside }) ∨
      ∃ e outside, attempt f s = .error e { s with outside } := by
  have hrun : attempt f s = raising (f s.outside).1 { s with outside := (f s.outside).2 } := rfl
  rw [hrun]
  cases (f s.outside).1 with
  | ok a => exact Or.inl ⟨a, _, rfl⟩
  | error e => exact Or.inr ⟨e, _, rfl⟩

theorem callCluster_cases (tools : Tools τ) (call : ClusterCall) (s : Shell τ) :
    (∃ outside, callCluster tools call s =
      .ok () { s with outside, clusterCalls := s.clusterCalls ++ [(call, .ok ())] }) ∨
    ∃ e outside, callCluster tools call s =
      .error e { s with outside, clusterCalls := s.clusterCalls ++ [(call, .error e)] } := by
  have hrun : callCluster tools call s = raising (tools.cluster call s.outside).1 { s with
      outside := (tools.cluster call s.outside).2
      clusterCalls := s.clusterCalls ++ [(call, (tools.cluster call s.outside).1)] } := rfl
  rw [hrun]
  cases (tools.cluster call s.outside).1 with
  | ok _ => exact Or.inl ⟨_, rfl⟩
  | error e => exact Or.inr ⟨e, _, rfl⟩

/-- What a run does to the cluster's process: nothing; or it is not started; or the
sleep after that raises, and nobody terminates it; or it is terminated. -/
inductive Managed : List (ClusterCall × Except Raised Unit) → Prop where
  | unused : Managed []
  | notStarted (e : Raised) : Managed [(.popen, .error e)]
  | leftRunning (e : Raised) : Managed [(.popen, .ok ()), (.sleep, .error e)]
  | terminated (outcome : Except Raised Unit) :
      Managed [(.popen, .ok ()), (.sleep, .ok ()), (.terminate, outcome)]

/-- The calls that come before a block with the cluster. -/
def started : List (ClusterCall × Except Raised Unit) := [(.popen, .ok ()), (.sleep, .ok ())]

theorem launch_cases (tools : Tools τ) (s : Shell τ) :
    (∃ outside, launch tools s =
      .ok () { s with outside, clusterCalls := s.clusterCalls ++ started }) ∨
    ∃ e outside new, Managed new ∧ launch tools s =
      .error e { s with outside, clusterCalls := s.clusterCalls ++ new } := by
  unfold launch
  rcases callCluster_cases tools .popen s with ⟨outside, hpopen⟩ | ⟨e, outside, hpopen⟩
  · rw [bind_ok hpopen]
    rcases callCluster_cases tools .sleep { s with
        outside, clusterCalls := s.clusterCalls ++ [(.popen, .ok ())] } with
      ⟨outside', hsleep⟩ | ⟨e, outside', hsleep⟩
    · rw [List.append_assoc] at hsleep
      exact Or.inl ⟨outside', hsleep⟩
    · rw [List.append_assoc] at hsleep
      exact Or.inr ⟨e, outside', _, .leftRunning e, hsleep⟩
  · exact Or.inr ⟨e, outside, _, .notStarted e, bind_error hpopen _⟩

/-- What a run leaves behind. -/
def Cleaned (calls : List (ClusterCall × Except Raised Unit)) (names : Option (List Text))
    (s : Shell τ) : Prop :=
  ∃ new, Managed new ∧ Left (calls ++ new) names s

theorem Left.cleaned {s : Shell τ} (h : Left calls names s) : Cleaned calls names s :=
  ⟨[], .unused, by rwa [List.append_nil]⟩

/-- **A cluster that has started is terminated, however the block ends.** -/
theorem ends_cluster {x : Py τ α}
    (h : Ends (Left (calls ++ started) names) x (Left (calls ++ started) names)) :
    Ends (Left calls names) (within (launch tools) (shutdown tools) x) (Cleaned calls names) := by
  refine Ends.within (fun s hs => ?_) h fun s hs => ?_
  · rcases launch_cases tools s with ⟨outside, hlaunch⟩ | ⟨e, outside, new, hnew, hlaunch⟩
    · rw [hlaunch]
      constructor
      · intro s' h'
        cases h'
        exact ⟨congrArg (· ++ started) hs.1, hs.2⟩
      · intro e s' h'
        cases h'
    · rw [hlaunch]
      constructor
      · intro s' h'
        cases h'
      · intro e s' h'
        cases h'
        exact ⟨new, hnew, congrArg (· ++ new) hs.1, hs.2⟩
  · have hcalls : ∀ outcome, s.clusterCalls ++ [(ClusterCall.terminate, outcome)] =
        calls ++ [(.popen, .ok ()), (.sleep, .ok ()), (.terminate, outcome)] := by
      intro outcome
      rw [hs.1, List.append_assoc]
      rfl
    rcases callCluster_cases tools .terminate s with ⟨outside, hrun⟩ | ⟨e, outside, hrun⟩
    · have hleaves : leaves (shutdown tools s) = _ := congrArg leaves hrun
      rw [hleaves]
      exact ⟨_, .terminated _, hcalls _, hs.2⟩
    · have hleaves : leaves (shutdown tools s) = _ := congrArg leaves hrun
      rw [hleaves]
      exact ⟨_, .terminated _, hcalls _, hs.2⟩

theorem ends_makeConfig (path : Text) :
    Ends (Left calls names) (makeConfig tools path) (Cleaned calls names) := by
  have hcli : ∀ args, Ends (Left calls names) (runCli tools (some path) args) (Left calls names) :=
    ends_runCli (fun _ _ hs => hs) fun _ _ hs => hs
  refine (ends_attempt (fun _ _ hs => hs) _).seq (fun _ => Left.cleaned) fun _ => ?_
  refine (hcli _).seq (fun _ => Left.cleaned) fun _ => ?_
  refine (hcli _).seq (fun _ => Left.cleaned) fun _ => ?_
  refine (hcli _).seq (fun _ => Left.cleaned) fun _ => ends_cluster ?_
  exact (ends_runCliFor (fun _ _ hs => hs) (fun _ _ hs => hs) _ _ _).bind fun _ => ends_pure _

theorem ends_generateBlock (blockConfig : Text) (blockFile stateFile : Option Text) :
    Ends (Left calls names) (generateBlock tools configPath blockConfig blockFile stateFile)
      (Cleaned calls names) := by
  refine (ends_raising _).seq (fun _ => Left.cleaned) fun config => ?_
  refine (ends_raising _).seq (fun _ => Left.cleaned) fun contracts => ?_
  have hbody : Ends (Inside (calls ++ started)) (deployAndCall tools configPath contracts
      config.transactions blockFile stateFile) (Inside (calls ++ started)) :=
    ends_deployAndCall (fun _ _ hs => hs) (fun _ _ hs => hs) (fun _ _ hs => ⟨hs.1, rfl⟩)
      (fun _ _ hs => hs) (fun _ _ hs => hs) _ _ _ _
  refine (ends_cluster (ends_tempDirectory hbody)).bind fun block => ?_
  exact (ends_raiseIf _ _).bind fun _ => ends_pure _

theorem ends_main (mode : Mode) (options : Options) :
    Ends (Left calls names) (main tools mode options) (Cleaned calls names) := by
  unfold main
  cases mode with
  | makeConfig =>
    simp only
    split
    · exact fun _ => Left.cleaned
    · exact ends_makeConfig _
  | generateBlock =>
    simp only
    split
    · exact fun _ => Left.cleaned
    · exact (ends_generateBlock _ _ _).bind fun _ => ends_pure _

variable (tools) in
/-- No block is generated next to a directory of that name. -/
theorem generateBlock_of_some {s : Shell τ} (h : s.artifacts.isSome = true) (blockConfig : Text)
    (blockFile stateFile : Option Text) :
    ∃ e s', generateBlock tools configPath blockConfig blockFile stateFile s = .error e s' ∧
      s'.commands = s.commands ∧ s'.files = s.files := by
  unfold generateBlock
  cases tools.validate blockConfig with
  | error e => exact ⟨e, s, rfl, rfl, rfl⟩
  | ok config =>
    rw [raising_bind_ok]
    cases collectContracts [] config.contracts with
    | error e => exact ⟨e, s, rfl, rfl, rfl⟩
    | ok contracts =>
      rw [raising_bind_ok]
      rcases launch_cases tools s with ⟨outside, hlaunch⟩ | ⟨e, outside, new, -, hlaunch⟩
      · have hlaunched :
            { s with outside, clusterCalls := s.clusterCalls ++ started }.artifacts.isSome = true := h
        have hdirectory := tempDirectory_of_some hlaunched (deployAndCall tools configPath contracts
          config.transactions blockFile stateFile)
        have hentered := bind_ok hlaunch fun _ => protect (tempDirectory (deployAndCall tools
          configPath contracts config.transactions blockFile stateFile)) (shutdown tools)
        rcases callCluster_cases tools .terminate _ with ⟨outside', hrun⟩ | ⟨e, outside', hrun⟩
        · exact ⟨_, _, bind_error (hentered.trans (protect_error hdirectory hrun)) _, rfl, rfl⟩
        · have hraises := protect_raises (congrArg leaves hdirectory) hrun
          exact ⟨_, _, bind_error (hentered.trans hraises) _, rfl, rfl⟩
      · exact ⟨e, _, bind_error (bind_error hlaunch _) _, rfl, rfl⟩

/-- **What the generator leaves behind, however it ends**: nothing was done to the cluster's
process, or it was not started, or it was terminated, unless the sleep raised; and the
directory of the artifacts as it was or not at all.  Where one was there and a block is to be
generated, it ends with an exception before any program is run. -/
theorem main_cleans (tools : Tools τ) (mode : Mode) (options : Options) (s : Shell τ) :
    Cleaned s.clusterCalls s.artifacts (leaves (main tools mode options s)) ∧
      (mode = .generateBlock → s.artifacts.isSome = true →
        (∃ e s', main tools mode options s = .error e s' ∧ s'.commands = s.commands)) := by
  refine ⟨ends_main mode options s ⟨rfl, Or.inl rfl⟩, ?_⟩
  rintro rfl hsome
  unfold main
  cases options.blockConfigName with
  | none => exact ⟨_, s, rfl, rfl⟩
  | some blockConfig =>
    obtain ⟨e, s', hrun, hcommands, -⟩ := generateBlock_of_some tools hsome blockConfig _ _
    exact ⟨e, s', bind_error hrun _, hcommands⟩

end Leaves

end BlockGenerator
