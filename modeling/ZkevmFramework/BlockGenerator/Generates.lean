import Mathlib.Data.List.Forall2
import Mathlib.Data.List.Nodup
import ZkevmFramework.BlockGenerator.Cleans

/-!
# What the generator generates

On a run that returns, the contracts are compiled, deployed and called in the order of
the config, and the files are what the node answers with for the block of the first
receipt of the contract called last.  A run that raises has written nothing before
all of that, and the block before the state (`generateBlock_generates`).  Contracts of
one source would share a directory of the compiler, so there are no two of them.
-/

namespace BlockGenerator

open Cpp hiding bind_ok bind_error bind_eq_ok_iff
open JsonHelpers Cleanup

section Generates

variable {τ α : Type} {tools : Tools τ} {configPath : Option Text} {s s' s'' : Shell τ}

theorem raising_eq_ok_iff {x : Except Raised α} {a : α} :
    raising x s = .ok a s' ↔ x = .ok a ∧ s' = s := by
  cases x with
  | ok b =>
    show EStateM.Result.ok b s = _ ↔ _
    simp [eq_comm]
  | error e =>
    show EStateM.Result.error e s = _ ↔ _
    simp

theorem raiseIf_eq_ok_iff {c : Prop} [Decidable c] {e : Raised} {u : Unit} :
    raiseIf c e s = .ok u s' ↔ ¬ c ∧ s' = s := by
  unfold raiseIf
  by_cases hc : c
  · rw [if_pos hc]
    exact iff_of_false (fun h => by cases h) fun h => h.1 hc
  · rw [if_neg hc]
    constructor
    · intro h
      cases h
      exact ⟨hc, rfl⟩
    · rintro ⟨-, rfl⟩
      rfl

/-- Only programs are run. -/
structure Sends (commands : List Command) (s s' : Shell τ) : Prop where
  commands : s'.commands = s.commands ++ commands
  artifacts : s'.artifacts = s.artifacts
  requests : s'.requests = s.requests
  files : s'.files = s.files

theorem Sends.trans {l l' : List Command} (h : Sends l s s') (h' : Sends l' s' s'') :
    Sends (l ++ l') s s'' where
  commands := by rw [h'.commands, h.commands, List.append_assoc]
  artifacts := h'.artifacts.trans h.artifacts
  requests := h'.requests.trans h.requests
  files := h'.files.trans h.files

theorem attempt_sends {f : τ → Except Raised α × τ} {a : α} (h : attempt f s = .ok a s') :
    Sends [] s s' := by
  rcases attempt_cases f s with ⟨b, outside, hrun⟩ | ⟨e, outside, hrun⟩
  · rw [hrun] at h
    cases h
    exact ⟨(List.append_nil _).symm, rfl, rfl, rfl⟩
  · rw [hrun] at h
    cases h

theorem callNil_sends {args : List Text} {p : Text × Text}
    (h : callNil tools configPath args s = .ok p s') : Sends [.nil args p.1] s s' := by
  unfold callNil at h
  simp only [bind_eq_ok_iff, raiseIf_eq_ok_iff] at h
  obtain ⟨completed, s₁, hattempt, _, s₂, hmodify, _, s₃, ⟨-, rfl⟩, hreturn⟩ := h
  cases hmodify
  cases hreturn
  obtain ⟨hcommands, hartifacts, hrequests, hfiles⟩ := attempt_sends hattempt
  rw [List.append_nil] at hcommands
  exact ⟨congrArg (· ++ [_]) hcommands, hartifacts, hrequests, hfiles⟩

theorem runCli_sends {args : List Text} {output : Text}
    (h : runCli tools configPath args s = .ok output s') : Sends [.nil args output] s s' := by
  obtain ⟨p, s₁, hrun, hreturn⟩ := bind_eq_ok_iff.mp h
  cases hreturn
  exact callNil_sends hrun

theorem runCliFor_sends {args : List Text} {label : String} {digits : Char → Bool} {found : Text}
    (h : runCliFor tools configPath args label digits s = .ok found s') :
    ∃ output, search label.toList digits output = some found ∧ Sends [.nil args output] s s' := by
  unfold runCliFor at h
  obtain ⟨p, s₁, hrun, hmatch⟩ := bind_eq_ok_iff.mp h
  cases hsearch : search label.toList digits p.1 with
  | none =>
    rw [hsearch] at hmatch
    cases hmatch
  | some found' =>
    rw [hsearch] at hmatch
    cases hmatch
    exact ⟨p.1, hsearch, callNil_sends hrun⟩

/-- A deployment: what the compiler has made for it, and what `nil` has printed of it. -/
structure Made where
  deployment : Deployment
  names : List Text
  salt : UInt64
  output : Text

/-- The output directory of a contract. -/
def outDir (tools : Tools τ) (source : Text) : Text := "artifacts/".toList ++ tools.digest source

/-- The files are the two that the compiler has made in the contract's directory. -/
def Made.Compiled (dir : Text) (m : Made) : Prop :=
  ∃ bin abi, m.names.Perm [bin, abi] ∧ suffix bin = ".bin".toList ∧ suffix abi = ".abi".toList ∧
    m.deployment.bin = dir ++ "/".toList ++ bin ∧ m.deployment.abi = dir ++ "/".toList ++ abi

/-- The address is the one that was printed. -/
def Made.Printed (m : Made) : Prop :=
  search "Contract address: ".toList isLowerDigit m.output = some m.deployment.address

/-- The contract is compiled, and what comes of that is deployed. -/
def Made.commands (tools : Tools τ) (source : Text) (m : Made) : List Command :=
  [.solc source (outDir tools source) m.names,
    .nil (deployArgs m.deployment.bin m.deployment.abi m.salt) m.output]

theorem deployContract_sends {bin abi address : Text}
    (h : deployContract tools configPath bin abi s = .ok address s') :
    ∃ salt output, search "Contract address: ".toList isLowerDigit output = some address ∧
      Sends [.nil (deployArgs bin abi salt) output] s s' := by
  unfold deployContract at h
  obtain ⟨salt, s₁, houtside, hrun⟩ := bind_eq_ok_iff.mp h
  cases houtside
  obtain ⟨output, hsearch, hcommands, hartifacts, hrequests, hfiles⟩ := runCliFor_sends hrun
  exact ⟨_, output, hsearch, hcommands, hartifacts, hrequests, hfiles⟩

theorem makeSubdirectory_eq_ok {name : Text} {u : Unit}
    (h : makeSubdirectory name s = .ok u s') :
    ∃ names, s.artifacts = some names ∧ name ∉ names ∧
      s' = { s with artifacts := some (names ++ [name]) } := by
  unfold makeSubdirectory at h
  obtain ⟨t, s₁, hget, hmatch⟩ := bind_eq_ok_iff.mp h
  cases hget
  cases hartifacts : s.artifacts with
  | none =>
    rw [hartifacts] at hmatch
    cases hmatch
  | some names =>
    rw [hartifacts] at hmatch
    simp only [bind_eq_ok_iff, raiseIf_eq_ok_iff] at hmatch
    obtain ⟨_, s₂, ⟨hnew, rfl⟩, hmodify⟩ := hmatch
    cases hmodify
    rw [List.contains_iff_mem] at hnew
    exact ⟨names, rfl, hnew, rfl⟩

/-- The file of one of the names with a suffix. -/
def Artifact (dir : Text) (label : String) (names : List Text) (file : Text) : Prop :=
  ∃ name ∈ names, suffix name = label.toList ∧ file = dir ++ "/".toList ++ name

theorem Artifact.cons {dir : Text} {label : String} {names : List Text} {file : Text}
    (h : Artifact dir label names file) (name : Text) : Artifact dir label (name :: names) file := by
  obtain ⟨n, hn, hrest⟩ := h
  exact ⟨n, List.mem_cons_of_mem _ hn, hrest⟩

/-- What the loop over the compiler's output has found was known before, or it is the file
of one of the names. -/
theorem compilerArtifacts_eq_ok {dir : Text} {bin abi bin' abi' : Option Text} {names : List Text}
    (h : compilerArtifacts dir bin abi names = .ok (bin', abi')) :
    (∀ b, bin' = some b → bin = some b ∨ Artifact dir ".bin" names b) ∧
      ∀ a, abi' = some a → abi = some a ∨ Artifact dir ".abi" names a := by
  induction names generalizing bin abi with
  | nil =>
    cases h
    exact ⟨fun _ h => Or.inl h, fun _ h => Or.inl h⟩
  | cons name names ih =>
    simp only [compilerArtifacts] at h
    split at h
    · next hsuffix =>
      obtain ⟨hbin, habi⟩ := ih h
      refine ⟨fun b hb => (hbin b hb).imp_right fun h => h.cons name, fun a ha => Or.inr ?_⟩
      rcases habi a ha with ha | ha
      · exact ⟨name, List.mem_cons_self, hsuffix, (Option.some.inj ha).symm⟩
      · exact ha.cons name
    · split at h
      · next hsuffix =>
        obtain ⟨hbin, habi⟩ := ih h
        refine ⟨fun b hb => Or.inr ?_, fun a ha => (habi a ha).imp_right fun h => h.cons name⟩
        rcases hbin b hb with hb | hb
        · exact ⟨name, List.mem_cons_self, hsuffix, (Option.some.inj hb).symm⟩
        · exact hb.cons name
      · cases h

/-- Two names with different suffixes are all of two names. -/
theorem perm_of_mem {names : List Text} {bin abi : Text} (hlen : names.length = 2)
    (hbin : bin ∈ names) (habi : abi ∈ names) (hne : bin ≠ abi) : names.Perm [bin, abi] := by
  obtain ⟨a, b, rfl⟩ := List.length_eq_two.mp hlen
  rw [List.mem_pair] at hbin habi
  rcases hbin with rfl | rfl
  · rcases habi with rfl | rfl
    · exact absurd rfl hne
    · exact .refl _
  · rcases habi with rfl | rfl
    · exact .swap _ _ _
    · exact absurd rfl hne

theorem solcCompile_eq_ok {source dir : Text} {files : Text × Text}
    (h : solcCompile tools source dir s = .ok files s') :
    ∃ names made bin abi, s.artifacts = some names ∧ dir ∉ names ∧
      s'.artifacts = some (names ++ [dir]) ∧
      s'.commands = s.commands ++ [.solc source ("artifacts/".toList ++ dir) made] ∧
      made.Perm [bin, abi] ∧ suffix bin = ".bin".toList ∧ suffix abi = ".abi".toList ∧
      files = ("artifacts/".toList ++ dir ++ "/".toList ++ bin,
        "artifacts/".toList ++ dir ++ "/".toList ++ abi) ∧
      s'.requests = s.requests ∧ s'.files = s.files := by
  unfold solcCompile at h
  simp only [bind_eq_ok_iff, raiseIf_eq_ok_iff, raising_eq_ok_iff] at h
  obtain ⟨_, s₁, hmake, made, s₂, hsolc, _, s₃, hmodify, _, s₄, ⟨-, rfl⟩, found, s₅,
    ⟨hfound, rfl⟩, _, s₆, ⟨hlen, rfl⟩, hreturn⟩ := h
  cases hmodify
  obtain ⟨names, hnames, hnew, rfl⟩ := makeSubdirectory_eq_ok hmake
  obtain ⟨hcommands, hartifacts, hrequests, hfiles⟩ := attempt_sends hsolc
  rw [List.append_nil] at hcommands
  rcases found with ⟨_ | binFile, _ | abiFile⟩
  · cases hreturn
  · cases hreturn
  · cases hreturn
  · cases hreturn
    obtain ⟨hbins, habis⟩ := compilerArtifacts_eq_ok hfound
    rcases hbins _ rfl with h | ⟨bin, hbin, hbinSuffix, rfl⟩
    · cases h
    rcases habis _ rfl with h | ⟨abi, habi, habiSuffix, rfl⟩
    · cases h
    have hne : bin ≠ abi := by
      rintro rfl
      exact absurd (hbinSuffix.symm.trans habiSuffix) (by decide)
    exact ⟨names, made.2, bin, abi, hnames, hnew, hartifacts, congrArg (· ++ [_]) hcommands,
      perm_of_mem (not_not.mp hlen) hbin habi hne, hbinSuffix, habiSuffix, rfl, hrequests, hfiles⟩

/-- The contract is compiled into a directory of its own and deployed. -/
structure Deploys (tools : Tools τ) (source : Text) (m : Made) (s s' : Shell τ) : Prop where
  compiled : m.Compiled (outDir tools source)
  printed : m.Printed
  commands : s'.commands = s.commands ++ m.commands tools source
  artifacts : ∃ names, s.artifacts = some names ∧ tools.digest source ∉ names ∧
    s'.artifacts = some (names ++ [tools.digest source])
  requests : s'.requests = s.requests
  files : s'.files = s.files

theorem deployOnce_deploys {contract deployed : Contract} (hnew : contract.deployment = none)
    (h : contract.deployOnce tools configPath s = .ok deployed s') :
    ∃ m : Made, deployed = { contract with deployment := some m.deployment } ∧
      Deploys tools contract.src m s s' := by
  unfold Contract.deployOnce Contract.deploy at h
  rw [hnew, if_neg (by decide)] at h
  simp only [bind_eq_ok_iff, raiseIf_eq_ok_iff] at h
  obtain ⟨_, s₁, ⟨-, rfl⟩, files, s₂, hcompile, address, s₃, hdeploy, hreturn⟩ := h
  cases hreturn
  obtain ⟨names, made, bin, abi, hnames, hdir, hartifacts, hcommands, hperm, hbin, habi, rfl,
    hrequests, hfiles⟩ := solcCompile_eq_ok hcompile
  obtain ⟨salt, output, hprinted, hsends⟩ := deployContract_sends hdeploy
  refine ⟨⟨⟨_, _, address⟩, made, salt, output⟩, rfl, ⟨bin, abi, hperm, hbin, habi, rfl, rfl⟩,
    hprinted, ?_, ⟨names, hnames, hdir, ?_⟩, ?_, ?_⟩
  · rw [hsends.commands, hcommands, List.append_assoc]
    rfl
  · rw [hsends.artifacts, hartifacts]
  · rw [hsends.requests, hrequests]
  · rw [hsends.files, hfiles]

theorem nodup_concat {β : Type} {l : List β} {b : β} (h : l.Nodup) (hb : b ∉ l) :
    (l ++ [b]).Nodup :=
  List.Nodup.append h (List.nodup_singleton b) (List.disjoint_singleton.mpr hb)

theorem collectContracts_eq_ok {contracts collected : List (Nat × Contract)}
    {cs : List ContractConfig} (h : collectContracts contracts cs = .ok collected) :
    collected = contracts ++ cs.map (fun c => (c.id, ⟨c.path, none⟩)) ∧
      ((contracts.map Prod.fst).Nodup → (collected.map Prod.fst).Nodup) := by
  induction cs generalizing contracts with
  | nil =>
    cases h
    exact ⟨(List.append_nil _).symm, id⟩
  | cons c cs ih =>
    unfold collectContracts at h
    split at h
    · cases h
    · next hnew =>
      obtain ⟨hcollected, hnodup⟩ := ih h
      constructor
      · rw [hcollected, List.append_assoc]
        rfl
      · intro hcontracts
        apply hnodup
        rw [List.map_append]
        exact nodup_concat hcontracts hnew

/-- What is made of contracts that are deployed. -/
def deployedAs (contracts : List (Nat × Contract)) (made : List Made) : List (Nat × Contract) :=
  List.zipWith (fun p m => (p.1, { p.2 with deployment := some m.deployment })) contracts made

theorem deployContracts_deploys {contracts deployed : List (Nat × Contract)} {names : List Text}
    (hnew : ∀ p ∈ contracts, p.2.deployment = none) (hnames : s.artifacts = some names)
    (hnodup : names.Nodup) (h : deployContracts tools configPath contracts s = .ok deployed s') :
    ∃ made : List Made,
      List.Forall₂ (fun p m => m.Compiled (outDir tools p.2.src)) contracts made ∧
      (∀ m ∈ made, m.Printed) ∧ deployed = deployedAs contracts made ∧
      (names ++ contracts.map fun p => tools.digest p.2.src).Nodup ∧
      s'.commands = s.commands ++
        (List.zipWith (fun p m => m.commands tools p.2.src) contracts made).flatten ∧
      s'.requests = s.requests ∧ s'.files = s.files := by
  induction contracts generalizing s names deployed with
  | nil =>
    cases h
    refine ⟨[], .nil, List.forall_mem_nil _, rfl, ?_, (List.append_nil _).symm, rfl, rfl⟩
    rwa [List.map_nil, List.append_nil]
  | cons p contracts ih =>
    obtain ⟨id, contract⟩ := p
    rw [List.forall_mem_cons] at hnew
    simp only [deployContracts, bind_eq_ok_iff] at h
    obtain ⟨first, s₁, hfirst, rest, s₂, hrest, hreturn⟩ := h
    cases hreturn
    obtain ⟨m, rfl, hdeploys⟩ := deployOnce_deploys hnew.1 hfirst
    obtain ⟨names', hnames', hdir, hartifacts⟩ := hdeploys.artifacts
    rw [hnames, Option.some.injEq] at hnames'
    subst hnames'
    obtain ⟨made, hcompiled, hprinted, hdeployed, hdirs, hcommands, hrequests, hfiles⟩ :=
      ih hnew.2 hartifacts (nodup_concat hnodup hdir) hrest
    refine ⟨m :: made, .cons hdeploys.compiled hcompiled,
      List.forall_mem_cons.mpr ⟨hdeploys.printed, hprinted⟩, ?_, ?_, ?_, ?_, ?_⟩
    · rw [hdeployed]
      rfl
    · rwa [List.append_assoc] at hdirs
    · rw [hcommands, hdeploys.commands, List.append_assoc]
      rfl
    · rw [hrequests, hdeploys.requests]
    · rw [hfiles, hdeploys.files]

theorem lookup_deployedAs {contracts : List (Nat × Contract)} {made : List Made} {id : Nat}
    {contract : Contract} (h : (deployedAs contracts made).lookup id = some contract) :
    contract.deployment = ((contracts.map Prod.fst).zip (made.map Made.deployment)).lookup id := by
  unfold deployedAs at h
  induction contracts generalizing made with
  | nil => cases h
  | cons p contracts ih =>
    cases made with
    | nil => cases h
    | cons m made =>
      rw [List.zipWith_cons_cons, List.lookup_cons] at h
      rw [List.map_cons, List.map_cons, List.zip_cons_cons, List.lookup_cons]
      cases hid : id == p.1 with
      | true =>
        simp only [hid] at h ⊢
        cases h
        rfl
      | false =>
        simp only [hid] at h ⊢
        exact ih h

/-- A call of a contract, and what `nil` has printed of it. -/
structure Called where
  deployment : Deployment
  hash : Text
  output : Text

/-- The hash is the one that was printed. -/
def Called.Printed (c : Called) : Prop :=
  search "Message hash: ".toList isLowerDigit c.output = some c.hash

def callCommand (t : TransactionConfig) (c : Called) : Command :=
  .nil (callArgs c.deployment t) c.output

theorem submitTransactions_calls {contractMap : List (Nat × Contract)}
    {last last' : Option (Text × Deployment)} {transactions : List TransactionConfig}
    (h : submitTransactions tools configPath contractMap last transactions s = .ok last' s') :
    ∃ called : List Called, (∀ c ∈ called, c.Printed) ∧
      List.Forall₂ (fun t c => ∃ src,
        contractMap.lookup t.contractId = some ⟨src, some c.deployment⟩) transactions called ∧
      Sends (List.zipWith callCommand transactions called) s s' ∧
      last' = (called.getLast?.map fun c => (c.hash, c.deployment)).or last := by
  induction transactions generalizing s last with
  | nil =>
    cases h
    exact ⟨[], List.forall_mem_nil _, .nil, ⟨(List.append_nil _).symm, rfl, rfl, rfl⟩, rfl⟩
  | cons t transactions ih =>
    unfold submitTransactions at h
    rcases hlookup : contractMap.lookup t.contractId with _ | ⟨src, _ | d⟩
    · rw [hlookup] at h
      cases h
    · rw [hlookup] at h
      cases h
    · rw [hlookup] at h
      obtain ⟨hash, s₁, hcall, hrest⟩ := bind_eq_ok_iff.mp h
      obtain ⟨output, hsearch, hsend⟩ := runCliFor_sends hcall
      obtain ⟨called, hprinted, hcalled, hsends, hlast⟩ := ih hrest
      refine ⟨⟨d, hash, output⟩ :: called, List.forall_mem_cons.mpr ⟨hsearch, hprinted⟩,
        .cons ⟨src, hlookup⟩ hcalled, hsend.trans hsends, ?_⟩
      rw [hlast, List.getLast?_cons]
      cases called.getLast? <;> rfl

/-- The receipt that `nil` prints says the block. -/
structure Found (tools : Tools τ) (output calledContract : Text) (block : Value × Value) : Prop where
  receipt : ∃ data receipt found, secondPart "Receipt data: ".toList output = some data ∧
    tools.loads data = .ok receipt ∧ FirstReceipt calledContract receipt found ∧
    getItem found "shardId" = .ok block.1 ∧ getItem found "blockHash" = .ok block.2

theorem getBlockHash_finds {messageHash calledContract : Text} {block : Value × Value}
    (h : getBlockHash tools configPath messageHash calledContract s = .ok block s') :
    ∃ output, Sends [.nil ["receipt".toList, messageHash] output] s s' ∧
      Found tools output calledContract block := by
  unfold getBlockHash at h
  obtain ⟨output, s₁, hrun, h⟩ := bind_eq_ok_iff.mp h
  cases hpart : secondPart "Receipt data: ".toList output with
  | none =>
    rw [hpart] at h
    cases h
  | some data =>
    rw [hpart] at h
    simp only [bind_eq_ok_iff, raising_eq_ok_iff] at h
    obtain ⟨receipt, s₂, ⟨hloads, rfl⟩, found, s₃, ⟨hfind, rfl⟩, h⟩ := h
    cases found with
    | none => cases h
    | some found =>
      simp only [bind_eq_ok_iff, raising_eq_ok_iff] at h
      obtain ⟨shardId, s₄, ⟨hshard, rfl⟩, blockHash, s₅, ⟨hblock, rfl⟩, hreturn⟩ := h
      cases hreturn
      exact ⟨output, runCli_sends hrun, data, receipt, found, hpart, hloads,
        findExecutionReceipt_eq_some.mp hfind, hshard, hblock⟩

theorem sendRequest_eq_ok {method : String} {params : List Value} {v : Value}
    (h : sendRequest tools method params s = .ok v s') :
    ∃ document, getItem document "result" = .ok v ∧ s'.commands = s.commands ∧
      s'.requests = s.requests ++ [(method.toList, params, .ok document)] ∧ s'.files = s.files := by
  unfold sendRequest at h
  simp only [bind_eq_ok_iff, raiseIf_eq_ok_iff, raising_eq_ok_iff] at h
  obtain ⟨response, s₁, hpost, _, s₂, hmodify, _, s₃, ⟨-, rfl⟩, document, s₄, ⟨hdocument, rfl⟩,
    hresult, rfl⟩ := h
  cases hmodify
  obtain ⟨hcommands, -, hrequests, hfiles⟩ := attempt_sends hpost
  rw [List.append_nil] at hcommands
  rw [hdocument]
  exact ⟨document, hresult, hcommands, congrArg (· ++ [_]) hrequests, hfiles⟩

/-- What is written of a value, if there is a name for it. -/
def written (fileName : Option Text) (v : Value) : List (Text × Value) :=
  (fileName.map fun name => (name, v)).toList

theorem dump_cases (tools : Tools τ) (fileName : Option Text) (v : Value) (s : Shell τ) :
    (∃ s', dump tools fileName v s = .ok () s' ∧ s'.commands = s.commands ∧
      s'.requests = s.requests ∧ s'.files = s.files ++ written fileName v) ∨
    ∃ e outside, dump tools fileName v s = .error e { s with outside } := by
  cases fileName with
  | none => exact Or.inl ⟨s, rfl, rfl, rfl, (List.append_nil _).symm⟩
  | some name =>
    rcases attempt_cases (tools.openWrite name) s with ⟨_, outside, hopen⟩ | ⟨e, outside, hopen⟩
    · exact Or.inl ⟨_, bind_ok hopen _, rfl, rfl, rfl⟩
    · exact Or.inr ⟨e, outside, bind_error hopen _⟩

/-- A document in a response, and the result in it. -/
structure Answer where
  document : Value
  result : Value

/-- The answer to a request is written, in `wrap`. -/
structure Writes (method : String) (params : List Value) (fileName : Option Text)
    (wrap : Value → Value) (answer : Answer) (s s' : Shell τ) : Prop where
  result : getItem answer.document "result" = .ok answer.result
  commands : s'.commands = s.commands
  requests : s'.requests = s.requests ++ [(method.toList, params, .ok answer.document)]
  files : s'.files = s.files ++ written fileName (wrap answer.result)

/-- Something may be asked for, but nothing is written. -/
structure Asks (s s' : Shell τ) : Prop where
  commands : s'.commands = s.commands
  requests : ∃ l, s'.requests = s.requests ++ l
  files : s'.files = s.files

theorem ends_sendRequest_asks (tools : Tools τ) (method : String) (params : List Value)
    (s : Shell τ) : Ends (Asks s) (sendRequest tools method params) (Asks s) := by
  refine ends_sendRequest (fun _ _ hs => ⟨hs.commands, hs.requests, hs.files⟩) ?_ _ _
  rintro t request ⟨hcommands, ⟨l, hrequests⟩, hfiles⟩
  refine ⟨hcommands, ⟨l ++ [request], ?_⟩, hfiles⟩
  show t.requests ++ [request] = _
  rw [hrequests, List.append_assoc]

/-- The result of a request is written, or the request or the file fails. -/
theorem request_cases (tools : Tools τ) (method : String) (params : List Value)
    (fileName : Option Text) (wrap : Value → Value) (s : Shell τ) :
    (∃ answer s', (sendRequest tools method params >>= fun v => dump tools fileName (wrap v)) s =
      .ok () s' ∧ Writes method params fileName wrap answer s s') ∨
    ∃ e s', (sendRequest tools method params >>= fun v => dump tools fileName (wrap v)) s =
      .error e s' ∧ Asks s s' := by
  have hasks := ends_sendRequest_asks tools method params s
  cases hrun : sendRequest tools method params s with
  | error e t =>
    exact Or.inr ⟨e, t, bind_error hrun _, hasks.left ⟨rfl, ⟨[], by simp⟩, rfl⟩ hrun⟩
  | ok v t =>
    rw [bind_ok hrun]
    obtain ⟨document, hresult, hcommands, hrequests, hfiles⟩ := sendRequest_eq_ok hrun
    rcases dump_cases tools fileName (wrap v) t with
      ⟨s', hdump, hcommands', hrequests', hfiles'⟩ | ⟨e, outside, hdump⟩
    · refine Or.inl ⟨⟨document, v⟩, s', hdump, hresult, ?_, ?_, ?_⟩
      · rw [hcommands', hcommands]
      · rw [hrequests', hrequests]
      · rw [hfiles', hfiles]
    · exact Or.inr ⟨e, _, hdump, hcommands, ⟨_, hrequests⟩, hfiles⟩

theorem getBlockByHash_cases (tools : Tools τ) (shardId blockHash : Value)
    (blockFile : Option Text) (s : Shell τ) :
    (∃ answer s', getBlockByHash tools shardId blockHash blockFile s = .ok () s' ∧
      Writes "eth_getBlockByHash" [shardId, blockHash, .bool true] blockFile id answer s s') ∨
    ∃ e s', getBlockByHash tools shardId blockHash blockFile s = .error e s' ∧ Asks s s' :=
  request_cases tools _ _ _ id s

theorem getStateByBlockHash_cases (tools : Tools τ) (address : Text) (blockHash : Value)
    (stateFile : Option Text) (s : Shell τ) :
    (∃ answer s', getStateByBlockHash tools address blockHash stateFile s = .ok () s' ∧
      Writes "debug_getContract" [.string address, blockHash] stateFile accountsDocument answer
        s s') ∨
    ∃ e s', getStateByBlockHash tools address blockHash stateFile s = .error e s' ∧ Asks s s' :=
  request_cases tools _ _ _ accountsDocument s

/-! ## The run -/

/-- What the generator has met until it asks for the block. -/
structure Session where
  made : List Made
  called : List Called
  last : Called
  /-- What `nil` has printed of the receipt. -/
  output : Text

variable (tools) in
/-- The contracts of the config are all different, also as sources.  Each is compiled from its
path and deployed in their order, they are called in the order of the transactions, and the
block is that of the first receipt of the contract called last. -/
structure Calls (config : Config) (session : Session) (block : Value × Value) (s s' : Shell τ) :
    Prop where
  ids : (config.contracts.map ContractConfig.id).Nodup
  sources : (config.contracts.map fun c => tools.digest c.path).Nodup
  compiled : List.Forall₂ (fun c m => m.Compiled (outDir tools c.path)) config.contracts session.made
  addresses : ∀ m ∈ session.made, m.Printed
  called : List.Forall₂ (fun t c => ((config.contracts.map ContractConfig.id).zip
    (session.made.map Made.deployment)).lookup t.contractId = some c.deployment)
      config.transactions session.called
  hashes : ∀ c ∈ session.called, c.Printed
  last : session.called.getLast? = some session.last
  commands : s'.commands = s.commands ++
    ((List.zipWith (fun c m => m.commands tools c.path) config.contracts session.made).flatten ++
      (List.zipWith callCommand config.transactions session.called ++
        [.nil ["receipt".toList, session.last.hash] session.output]))
  found : Found tools session.output session.last.deployment.address block

/-- Only the commands matter. -/
theorem Calls.of_commands {config : Config} {session : Session} {block : Value × Value}
    {t t' : Shell τ} (h : Calls tools config session block s s') (ht : t.commands = s.commands)
    (ht' : t'.commands = s'.commands) : Calls tools config session block t t' :=
  { h with commands := by rw [ht', ht, h.commands] }

def blockRequest (block : Value × Value) (answer : Answer) :
    Text × List Value × Except Raised Value :=
  ("eth_getBlockByHash".toList, [block.1, block.2, .bool true], .ok answer.document)

def stateRequest (session : Session) (block : Value × Value) (answer : Answer) :
    Text × List Value × Except Raised Value :=
  ("debug_getContract".toList, [.string session.last.deployment.address, block.2],
    .ok answer.document)

variable (tools) in
/-- What a config asks for: the block, and the state of the contract at it. -/
structure Generates (config : Config) (blockFile stateFile : Option Text) (session : Session)
    (block : Value × Value) (blockAnswer stateAnswer : Answer) (s s' : Shell τ) : Prop
    extends Calls tools config session block s s' where
  requests : s'.requests =
    s.requests ++ [blockRequest block blockAnswer, stateRequest session block stateAnswer]
  block : getItem blockAnswer.document "result" = .ok blockAnswer.result
  state : getItem stateAnswer.document "result" = .ok stateAnswer.result
  files : s'.files = s.files ++ (written blockFile blockAnswer.result ++
    written stateFile (accountsDocument stateAnswer.result))

variable (tools) in
/-- The block without the state. -/
structure Halts (config : Config) (blockFile : Option Text) (session : Session)
    (block : Value × Value) (blockAnswer : Answer) (s s' : Shell τ) : Prop
    extends Calls tools config session block s s' where
  requests : ∃ l, s'.requests = s.requests ++ blockRequest block blockAnswer :: l
  block : getItem blockAnswer.document "result" = .ok blockAnswer.result
  files : s'.files = s.files ++ written blockFile blockAnswer.result

/-- Nothing is written before the block is asked for. -/
theorem deployAndCall_calls {config : Config} {contracts : List (Nat × Contract)}
    (hcollect : collectContracts [] config.contracts = .ok contracts)
    (hartifacts : s.artifacts = some []) (blockFile stateFile : Option Text) :
    (∃ e s', deployAndCall tools configPath contracts config.transactions blockFile stateFile s =
      .error e s' ∧ s'.files = s.files) ∨
    ∃ session block s', Calls tools config session block s s' ∧ s'.requests = s.requests ∧
      s'.files = s.files ∧
      deployAndCall tools configPath contracts config.transactions blockFile stateFile s =
        (do
          getBlockByHash tools block.1 block.2 blockFile
          getStateByBlockHash tools session.last.deployment.address block.2 stateFile
          return block) s' := by
  obtain ⟨hcontracts, hids⟩ := collectContracts_eq_ok hcollect
  rw [List.nil_append] at hcontracts
  have hidsOf : contracts.map Prod.fst = config.contracts.map ContractConfig.id := by
    rw [hcontracts, List.map_map]
    rfl
  let I : Shell τ → Prop := fun t => t.files = s.files
  have hinner : Inner I := fun _ _ ht => ht
  have hcommands : ∀ t command, I t → I { t with commands := t.commands ++ [command] } :=
    fun _ _ ht => ht
  unfold deployAndCall
  cases hdeploy : deployContracts tools configPath contracts s with
  | error e t =>
    exact Or.inl ⟨e, t, bind_error hdeploy _,
      (ends_deployContracts hinner hcommands (fun _ _ ht => ht) _).left rfl hdeploy⟩
  | ok deployed s₁ =>
    rw [bind_ok hdeploy]
    obtain ⟨made, hcompiled, hprinted, hdeployed, hdirs, hmadeCommands, hmadeRequests,
      hmadeFiles⟩ :=
      deployContracts_deploys (by rw [hcontracts]; simp) hartifacts List.nodup_nil hdeploy
    cases hsubmit : submitTransactions tools configPath deployed none config.transactions s₁ with
    | error e t =>
      exact Or.inl ⟨e, t, bind_error hsubmit _,
        (ends_submitTransactions hinner hcommands _ _ _).left hmadeFiles hsubmit⟩
    | ok last s₂ =>
      rw [bind_ok hsubmit]
      obtain ⟨called, hhashes, hcalled, hsends, hlast⟩ := submitTransactions_calls hsubmit
      have hfiles₂ : s₂.files = s.files := by rw [hsends.files, hmadeFiles]
      cases hend : called.getLast? with
      | none =>
        rw [hlast, hend]
        exact Or.inl ⟨_, s₂, rfl, hfiles₂⟩
      | some end' =>
        rw [hlast, hend]
        simp only [Option.map_some, Option.some_or]
        cases hfind : getBlockHash tools configPath end'.hash end'.deployment.address s₂ with
        | error e t =>
          exact Or.inl ⟨e, t, bind_error hfind _,
            (ends_getBlockHash hinner hcommands _ _).left hfiles₂ hfind⟩
        | ok block s₃ =>
          obtain ⟨output, hreceipt, hfound⟩ := getBlockHash_finds hfind
          refine Or.inr ⟨⟨made, called, end', output⟩, block, s₃,
            ⟨?_, ?_, ?_, hprinted, ?_, hhashes, hend, ?_, hfound⟩, ?_, ?_, bind_ok hfind _⟩
          · rw [← hidsOf]
            exact hids List.nodup_nil
          · rw [List.nil_append, hcontracts, List.map_map] at hdirs
            exact hdirs
          · rw [hcontracts, List.forall₂_map_left_iff] at hcompiled
            exact hcompiled
          · refine hcalled.imp fun t c => ?_
            rintro ⟨src, hlookup⟩
            rw [hdeployed] at hlookup
            rw [← hidsOf]
            exact (lookup_deployedAs hlookup).symm
          · rw [hcontracts, List.zipWith_map_left] at hmadeCommands
            rw [hreceipt.commands, hsends.commands, hmadeCommands, List.append_assoc,
              List.append_assoc]
          · rw [hreceipt.requests, hsends.requests, hmadeRequests]
          · rw [hreceipt.files, hfiles₂]

/-- How far a run comes. -/
theorem deployAndCall_cases {config : Config} {contracts : List (Nat × Contract)}
    (hcollect : collectContracts [] config.contracts = .ok contracts)
    (hartifacts : s.artifacts = some []) (blockFile stateFile : Option Text) :
    (∃ e s', deployAndCall tools configPath contracts config.transactions blockFile stateFile s =
      .error e s' ∧ (s'.files = s.files ∨ ∃ session block blockAnswer,
        Halts tools config blockFile session block blockAnswer s s')) ∨
    ∃ session block blockAnswer stateAnswer s',
      deployAndCall tools configPath contracts config.transactions blockFile stateFile s =
        .ok block s' ∧
      Generates tools config blockFile stateFile session block blockAnswer stateAnswer s s' := by
  rcases deployAndCall_calls hcollect hartifacts blockFile stateFile with
    ⟨e, s', hrun, hfiles⟩ | ⟨session, block, t, hcalls, hrequests, hfiles, hrun⟩
  · exact Or.inl ⟨e, s', hrun, Or.inl hfiles⟩
  · rw [hrun]
    rcases getBlockByHash_cases tools block.1 block.2 blockFile t with
      ⟨blockAnswer, t', hblock, hwrites⟩ | ⟨e, t', hblock, hasks⟩
    · rw [bind_ok hblock]
      rcases getStateByBlockHash_cases tools session.last.deployment.address block.2 stateFile t'
        with ⟨stateAnswer, s', hstate, hwrites'⟩ | ⟨e, s', hstate, hasks'⟩
      · refine Or.inr ⟨session, block, blockAnswer, stateAnswer, s', bind_ok hstate _,
          hcalls.of_commands rfl (hwrites'.commands.trans hwrites.commands), ?_, hwrites.result,
          hwrites'.result, ?_⟩
        · rw [hwrites'.requests, hwrites.requests, hrequests, List.append_assoc]
          rfl
        · rw [hwrites'.files, hwrites.files, hfiles, List.append_assoc]
          rfl
      · obtain ⟨l, hl⟩ := hasks'.requests
        refine Or.inl ⟨e, s', bind_error hstate _, Or.inr ⟨session, block, blockAnswer,
          hcalls.of_commands rfl (hasks'.commands.trans hwrites.commands), ⟨l, ?_⟩, hwrites.result, ?_⟩⟩
        · rw [hl, hwrites.requests, hrequests, List.append_assoc]
          rfl
        · rw [hasks'.files, hwrites.files, hfiles]
          rfl
    · exact Or.inl ⟨e, t', bind_error hblock _, Or.inl (hasks.files.trans hfiles)⟩

/-- What comes of it when the cluster is terminated: an exception of that takes the place of
what happened before. -/
def ended (outcome : Except Raised Unit) (r : EStateM.Result Raised (Shell τ) (Value × Value)) :
    Except Raised (Value × Value) :=
  match outcome, r with
  | .error e, _ => .error e
  | .ok _, .error e _ => .error e
  | .ok _, .ok block _ => if block.2.isString = false then .error .typeError else .ok block

/-- What happens in the directory is what happens, where the directory can be made. -/
theorem generateBlock_of_none {config : Config} {contracts : List (Nat × Contract)}
    {blockConfig : Text} {blockFile stateFile : Option Text}
    (hconfig : tools.validate blockConfig = .ok config)
    (hcollect : collectContracts [] config.contracts = .ok contracts)
    (hlaunch : launch tools s = .ok () s') (hartifacts : s'.artifacts = none)
    {r : EStateM.Result Raised (Shell τ) (Value × Value)}
    (hrun : deployAndCall tools configPath contracts config.transactions blockFile stateFile
      { s' with artifacts := some [] } = r) :
    ∃ outside outcome, generateBlock tools configPath blockConfig blockFile stateFile s =
      raising (ended outcome r) { leaves r with
        outside
        clusterCalls := (leaves r).clusterCalls ++ [(.terminate, outcome)]
        artifacts := none } := by
  have hinside : (leaves r).artifacts.isSome = true := by
    have hends : Ends (fun t : Shell τ => t.artifacts.isSome = true)
        (deployAndCall tools configPath contracts config.transactions blockFile stateFile)
        fun t => t.artifacts.isSome = true :=
      ends_deployAndCall (fun _ _ ht => ht) (fun _ _ ht => ht) (fun _ _ _ => rfl)
        (fun _ _ ht => ht) (fun _ _ ht => ht) _ _ _ _
    exact hends.left rfl hrun
  unfold generateBlock within
  rw [hconfig, raising_bind_ok, hcollect, raising_bind_ok]
  have hentered := bind_ok hlaunch fun _ => protect (tempDirectory (deployAndCall tools configPath
    contracts config.transactions blockFile stateFile)) (shutdown tools)
  cases r with
  | error e t =>
    have hdirectory := tempDirectory_error hartifacts hrun hinside
    rcases callCluster_cases tools .terminate { t with artifacts := none } with
      ⟨outside, hend⟩ | ⟨e', outside, hend⟩
    · exact ⟨outside, .ok (), bind_error (hentered.trans (protect_error hdirectory hend)) _⟩
    · exact ⟨outside, .error e', bind_error (hentered.trans
        (protect_raises (congrArg leaves hdirectory) hend)) _⟩
  | ok block t =>
    have hdirectory := tempDirectory_ok hartifacts hrun hinside
    rcases callCluster_cases tools .terminate { t with artifacts := none } with
      ⟨outside, hend⟩ | ⟨e', outside, hend⟩
    · refine ⟨outside, .ok (), ?_⟩
      rw [bind_ok (hentered.trans (protect_ok hdirectory hend))]
      cases hstring : block.2.isString with
      | true => simp only [ended, leaves, hstring]; rfl
      | false => simp only [ended, leaves, hstring]; rfl
    · exact ⟨outside, .error e', bind_error (hentered.trans
        (protect_raises (congrArg leaves hdirectory) hend)) _⟩

/-- **What a run of the generator does.**  If it returns, it has done what the config asks for,
in its order, and nothing else.  If it raises, it has written nothing, or the block after all
that comes before it, or all of it where the hash of the block is no string or the termination
of the cluster raises. -/
theorem generateBlock_generates (tools : Tools τ) (configPath : Option Text) (blockConfig : Text)
    (blockFile stateFile : Option Text) (s : Shell τ) :
    (∃ e t, generateBlock tools configPath blockConfig blockFile stateFile s = .error e t ∧
      (t.files = s.files ∨ ∃ config session block blockAnswer,
        tools.validate blockConfig = .ok config ∧
        (Halts tools config blockFile session block blockAnswer s t ∨ ∃ stateAnswer,
          Generates tools config blockFile stateFile session block blockAnswer stateAnswer s t ∧
            (block.2.isString = false ∨
              t.clusterCalls.getLast? = some (.terminate, .error e))))) ∨
      ∃ block t config session blockAnswer stateAnswer,
        generateBlock tools configPath blockConfig blockFile stateFile s = .ok block t ∧
        tools.validate blockConfig = .ok config ∧
        Generates tools config blockFile stateFile session block blockAnswer stateAnswer s t ∧
        block.2.isString = true := by
  cases hconfig : tools.validate blockConfig with
  | error e =>
    refine Or.inl ⟨e, s, ?_, Or.inl rfl⟩
    unfold generateBlock
    rw [hconfig]
    rfl
  | ok config =>
    cases hcollect : collectContracts [] config.contracts with
    | error e =>
      refine Or.inl ⟨e, s, ?_, Or.inl rfl⟩
      unfold generateBlock
      rw [hconfig, raising_bind_ok, hcollect]
      rfl
    | ok contracts =>
      rcases launch_cases tools s with ⟨outside, hlaunch⟩ | ⟨e, outside, new, -, hlaunch⟩
      · cases hartifacts : s.artifacts with
        | some names =>
          have hsome : s.artifacts.isSome = true := by rw [hartifacts]; rfl
          obtain ⟨e, t, hrun, -, hfiles⟩ :=
            generateBlock_of_some tools hsome blockConfig blockFile stateFile
          exact Or.inl ⟨e, t, hrun, Or.inl hfiles⟩
        | none =>
          let s₁ : Shell τ := { s with
            outside, clusterCalls := s.clusterCalls ++ started, artifacts := some [] }
          rcases deployAndCall_cases (s := s₁) hcollect rfl blockFile stateFile with
            ⟨e, t, hrun, hleft⟩ | ⟨session, block, blockAnswer, stateAnswer, t, hrun, hgen⟩
          · obtain ⟨outside', outcome, hgenerate⟩ :=
              generateBlock_of_none hconfig hcollect hlaunch hartifacts hrun
            have hraises : ∃ e', ended outcome (.error e t) = .error e' := by
              cases outcome with
              | ok _ => exact ⟨e, rfl⟩
              | error e' => exact ⟨e', rfl⟩
            obtain ⟨e', he'⟩ := hraises
            rw [he'] at hgenerate
            refine Or.inl ⟨e', _, hgenerate, ?_⟩
            rcases hleft with hfiles | ⟨session, block, blockAnswer, hhalts⟩
            · exact Or.inl hfiles
            · exact Or.inr ⟨config, session, block, blockAnswer, rfl,
                Or.inl ⟨hhalts.toCalls.of_commands rfl rfl, hhalts.requests, hhalts.block,
                  hhalts.files⟩⟩
          · obtain ⟨outside', outcome, hgenerate⟩ :=
              generateBlock_of_none hconfig hcollect hlaunch hartifacts hrun
            cases outcome with
            | error e' =>
              exact Or.inl ⟨e', _, hgenerate, Or.inr ⟨config, session, block, blockAnswer, rfl,
                Or.inr ⟨stateAnswer, ⟨hgen.toCalls.of_commands rfl rfl, hgen.requests, hgen.block,
                  hgen.state, hgen.files⟩, Or.inr List.getLast?_concat⟩⟩⟩
            | ok _ =>
              cases hstring : block.2.isString with
              | false =>
                simp only [ended, hstring, if_true] at hgenerate
                exact Or.inl ⟨_, _, hgenerate, Or.inr ⟨config, session, block, blockAnswer, rfl,
                  Or.inr ⟨stateAnswer, ⟨hgen.toCalls.of_commands rfl rfl, hgen.requests,
                    hgen.block, hgen.state, hgen.files⟩, Or.inl hstring⟩⟩⟩
              | true =>
                simp only [ended, hstring, Bool.true_eq_false, if_false] at hgenerate
                exact Or.inr ⟨block, _, config, session, blockAnswer, stateAnswer, hgenerate, rfl,
                  ⟨hgen.toCalls.of_commands rfl rfl, hgen.requests, hgen.block, hgen.state,
                    hgen.files⟩, hstring⟩
      · refine Or.inl ⟨e, { s with outside, clusterCalls := s.clusterCalls ++ new }, ?_, Or.inl rfl⟩
        unfold generateBlock within
        rw [hconfig, raising_bind_ok, hcollect, raising_bind_ok]
        exact bind_error (bind_error hlaunch _) _

/-- A `nil` that prints the same whatever it is called with, and a node that answers with
`{"result": null}`. -/
def quietTools : Tools Unit where
  nil _ _ := (.ok ⟨0, "Contract address: 0xa Message hash: 0xb Receipt data: {}".toList, []⟩, ())
  solc _ _ _ := (.ok (⟨0, [], []⟩, ["A.bin".toList, "A.abi".toList]), ())
  post _ _ _ := (.ok (200, .ok (.object [("result".toList, .null)])), ())
  cluster _ _ := (.ok (), ())
  salt _ := (0, ())
  digest := id
  -- the contract is called by the message that the first one sends
  loads _ := .ok (.object [("contractAddress".toList, .string "0xc".toList),
    ("outputReceipts".toList, .array [.object [("contractAddress".toList, .string "0xa".toList),
      ("shardId".toList, .int64 1), ("blockHash".toList, .string "0xd".toList)]])])
  validate _ := .ok ⟨[⟨1, "A.sol".toList⟩], [⟨1, "run".toList, none⟩]⟩
  openWrite _ _ := (.ok (), ())
  remove _ _ := (.ok (), ())

example :
    let s := leaves (generateBlock quietTools none [] (some "block".toList) (some "state".toList)
      ⟨(), [], none, [], [], []⟩)
    s.commands.length = 4 ∧ s.files.map Prod.fst = ["block".toList, "state".toList] ∧
      s.clusterCalls.length = 3 ∧ s.artifacts = none := by
  decide +kernel

end Generates

end BlockGenerator
