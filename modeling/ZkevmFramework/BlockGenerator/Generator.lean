import ZkevmFramework.BlockGenerator.Receipts
import ZkevmFramework.Lib.Cleanup

/-!
# `block_generator.py`

A cluster is launched, the contracts of the config are deployed on it and the
transactions sent to them; the block in which the last of them was executed and the
state of its contract are written to files.  The cluster and the directory of the
compiler's output are context managers.

The calls of the programs, of the cluster's process and of the node are kept with what
came of them, and so are the files.
-/

namespace BlockGenerator

open Cpp hiding bind_ok bind_error bind_eq_ok_iff
open JsonHelpers Cleanup

/-! ## The tools -/

/-- A contract of the config. -/
structure ContractConfig where
  id : Nat
  path : Text

structure TransactionConfig where
  contractId : Nat
  methodName : Text
  callArguments : Option (List Text)

/-- A config that passes the schema. -/
structure Config where
  contracts : List ContractConfig
  transactions : List TransactionConfig

/-- `subprocess.CompletedProcess` -/
structure Completed where
  returncode : Int
  stdout : Text
  stderr : Text

/-- What is done to the cluster's process: `subprocess.Popen(["nild", "run"])`, the
`sleep(4)` after it, `process.terminate()`. -/
inductive ClusterCall where
  | popen
  | sleep
  | terminate

/-- A program that was run. -/
inductive Command where
  /-- `nil`, with the arguments and what it printed. -/
  | nil (args : List Text) (output : Text)
  /-- `solc`, with the source, the output directory and what is in that then. -/
  | solc (source outDir : Text) (names : List Text)

/-- What the generator calls. -/
structure Tools (τ : Type) where
  /-- `subprocess.run(["nil", …])`, with the arguments. -/
  nil : List Text → τ → Except Raised Completed × τ
  /-- `solc` for a source and an output directory, with the names of what is in the
  directory then. -/
  solc : Text → Text → τ → Except Raised (Completed × List Text) × τ
  /-- `requests.post` of a method and its parameters to the endpoint, with the status
  and the document in the response. -/
  post : Text → List Value → τ → Except Raised (Nat × Except Raised Value) × τ
  cluster : ClusterCall → τ → Except Raised Unit × τ
  /-- `random.getrandbits(64)` -/
  salt : τ → UInt64 × τ
  /-- The digest of the resolved path, in hexadecimal. -/
  digest : Text → Text
  /-- `json.loads` -/
  loads : Text → Except Raised Value
  /-- `validate_json` of a config. -/
  validate : Text → Except Raised Config
  /-- `open(name, 'w')` -/
  openWrite : Text → τ → Except Raised Unit × τ
  /-- `os.remove`, if it is a file. -/
  remove : Text → τ → Except Raised Unit × τ

/-- The generator and its surroundings. -/
structure Shell (τ : Type) where
  outside : τ
  clusterCalls : List (ClusterCall × Except Raised Unit)
  /-- What is in the directory `artifacts`, if there is one. -/
  artifacts : Option (List Text)
  commands : List Command
  /-- The requests: the method, the parameters and the document in the response. -/
  requests : List (Text × List Value × Except Raised Value)
  files : List (Text × Value)

/-- What `deploy` sets. -/
structure Deployment where
  bin : Text
  abi : Text
  address : Text

structure Contract where
  src : Text
  deployment : Option Deployment

/-- A computation of the generator. -/
abbrev Py (τ α : Type) := EStateM Raised (Shell τ) α

section Model

variable {τ : Type}

def outside {α : Type} (f : τ → α × τ) : Py τ α := fun s =>
  .ok (f s.outside).1 { s with outside := (f s.outside).2 }

def raising {α : Type} (x : Except Raised α) : Py τ α := fun s =>
  match x with
  | .ok a => .ok a s
  | .error e => .error e s

/-- `if c: raise e` -/
def raiseIf (c : Prop) [Decidable c] (e : Raised) : Py τ Unit := if c then throw e else pure ()

/-- A call that can raise. -/
def attempt {α : Type} (f : τ → Except Raised α × τ) : Py τ α := do
  raising (← outside f)

-- the tools, and the file of the configuration of `nil`
variable (tools : Tools τ) (configPath : Option Text)

/-! ## `NilCLI` -/

/-- The first match of `(label)(0x[digits]+)`: what the second group holds. -/
def search (label : Text) (digits : Char → Bool) : Text → Option Text
  | [] => none
  | c :: output =>
    let lead := label ++ "0x".toList
    let found := ((c :: output).drop lead.length).takeWhile digits
    if lead.isPrefixOf (c :: output) ∧ found ≠ [] then some ("0x".toList ++ found)
    else search label digits output

/-- A call of `nil`: what it has printed, and its `stderr`. -/
def callNil (args : List Text) : Py τ (Text × Text) := do
  let config := match configPath with
    | none => []
    | some path => ["-c".toList, path]
  let p ← attempt (tools.nil (config ++ args))
  let output := if p.stdout = [] then p.stderr else p.stdout
  modify fun s => { s with commands := s.commands ++ [.nil args output] }
  raiseIf (p.returncode ≠ 0) (.runtimeError p.stderr)
  return (output, p.stderr)

/-- `run_cli` -/
def runCli (args : List Text) : Py τ Text := do
  return (← callNil tools configPath args).1

/-- `run_cli` with a pattern. -/
def runCliFor (args : List Text) (label : String) (digits : Char → Bool) : Py τ Text := do
  let p ← callNil tools configPath args
  match search label.toList digits p.1 with
  | some found => return found
  | none => throw (.runtimeError p.2)

def isLowerDigit (c : Char) : Bool := isDigit c || ('a' ≤ c && c ≤ 'f')

def isHexDigit (c : Char) : Bool := isLowerDigit c || ('A' ≤ c && c ≤ 'F')

def deployArgs (bin abi : Text) (salt : UInt64) : List Text :=
  ["wallet".toList, "deploy".toList, bin, "--abi".toList, abi, "--salt".toList,
    toDecimal salt.toNat]

def deployContract (bin abi : Text) : Py τ Text := do
  let salt ← outside tools.salt
  runCliFor tools configPath (deployArgs bin abi salt) "Contract address: " isLowerDigit

def callArgs (d : Deployment) (t : TransactionConfig) : List Text :=
  ["wallet".toList, "send-message".toList, d.address, t.methodName] ++ t.callArguments.getD [] ++
    ["--abi".toList, d.abi]

def callContract (d : Deployment) (t : TransactionConfig) : Py τ Text :=
  runCliFor tools configPath (callArgs d t) "Message hash: " isLowerDigit

def sendRequest (method : String) (params : List Value) : Py τ Value := do
  let response ← attempt (tools.post method.toList params)
  modify fun s => { s with requests := s.requests ++ [(method.toList, params, response.2)] }
  raiseIf (response.1 ≠ 200)
    (.runtimeError ("Wrong response code: ".toList ++ toDecimal response.1))
  raising (getItem (← raising response.2) "result")

/-! ## Contracts -/

/-- `Path.suffix` -/
def suffix (name : Text) : Text :=
  let ext := (name.reverse.takeWhile fun c => c != '.').reverse
  if ext = [] ∨ name.length ≤ ext.length + 1 then [] else '.' :: ext

/-- The loop over what the compiler has made. -/
def compilerArtifacts (dir : Text) (bin abi : Option Text) :
    List Text → Except Raised (Option Text × Option Text)
  | [] => .ok (bin, abi)
  | name :: names =>
    let artifact := dir ++ "/".toList ++ name
    if suffix name = ".abi".toList then compilerArtifacts dir bin (some artifact) names
    else if suffix name = ".bin".toList then compilerArtifacts dir (some artifact) abi names
    else throw (.runtimeError ("Unexpected compiler artifact: ".toList ++ artifact))

/-- `out_dir.mkdir()`, of a directory in `artifacts`. -/
def makeSubdirectory (name : Text) : Py τ Unit := do
  match (← get).artifacts with
  | none => throw .library
  | some names =>
    raiseIf (names.contains name = true) (.runtimeError "Directory must not exist".toList)
    modify fun s => { s with artifacts := some (names ++ [name]) }

def solcCompile (source dir : Text) : Py τ (Text × Text) := do
  makeSubdirectory dir
  let outDir := "artifacts/".toList ++ dir
  let made ← attempt (tools.solc source outDir)
  modify fun s => { s with commands := s.commands ++ [.solc source outDir made.2] }
  raiseIf (made.1.returncode ≠ 0)
    (.runtimeError ("Compilation failed: ".toList ++ made.1.stderr))
  let files ← raising (compilerArtifacts outDir none none made.2)
  raiseIf (made.2.length ≠ 2)
    (.runtimeError ("Insufficient compiler artifacts for ".toList ++ source))
  match files with
  | (some bin, some abi) => return (bin, abi)
  | _ => throw .unboundLocal

def Contract.deploy (contract : Contract) : Py τ Contract := do
  raiseIf (contract.deployment.isSome = true) .assertion
  let files ← solcCompile tools contract.src (tools.digest contract.src)
  let address ← deployContract tools configPath files.1 files.2
  return { contract with deployment := some ⟨files.1, files.2, address⟩ }

/-- `if not contract.deployed: contract.deploy(cli)` -/
def Contract.deployOnce (contract : Contract) : Py τ Contract :=
  if contract.deployment.isSome then pure contract else contract.deploy tools configPath

def collectContracts (contracts : List (Nat × Contract)) :
    List ContractConfig → Except Raised (List (Nat × Contract))
  | [] => .ok contracts
  | c :: cs =>
    if c.id ∈ contracts.map Prod.fst then
      throw (.valueError ("Duplicated contract id: ".toList ++ toDecimal c.id))
    else collectContracts (contracts ++ [(c.id, ⟨c.path, none⟩)]) cs

def deployContracts : List (Nat × Contract) → Py τ (List (Nat × Contract))
  | [] => return []
  | (id, contract) :: contracts => do
    let deployed ← contract.deployOnce tools configPath
    return (id, deployed) :: (← deployContracts contracts)

/-! ## Transactions and the block -/

/-- The hash of the last message, and the contract that it calls. -/
def submitTransactions (contractMap : List (Nat × Contract)) (last : Option (Text × Deployment)) :
    List TransactionConfig → Py τ (Option (Text × Deployment))
  | [] => return last
  | t :: transactions => do
    match contractMap.lookup t.contractId with
    | none =>
      throw (.valueError ("Contract id ".toList ++ toDecimal t.contractId ++
        " is not defined".toList))
    | some ⟨_, none⟩ =>
      throw (.valueError ("Contract id ".toList ++ toDecimal t.contractId ++
        " is not deployed".toList))
    | some ⟨_, some d⟩ =>
      let hash ← callContract tools configPath d t
      submitTransactions contractMap (some (hash, d)) transactions

/-- What comes before the mark, and what comes after it. -/
def cut (mark : Text) : Text → Option (Text × Text)
  | [] => none
  | c :: t =>
    if mark.isPrefixOf (c :: t) then some ([], (c :: t).drop mark.length)
    else (cut mark t).map fun p => (c :: p.1, p.2)

/-- `re.split(mark, t)[1]` -/
def secondPart (mark t : Text) : Option Text :=
  (cut mark t).map fun p => match cut mark p.2 with
    | none => p.2
    | some q => q.1

def getBlockHash (messageHash calledContract : Text) : Py τ (Value × Value) := do
  let receiptStr ← runCli tools configPath ["receipt".toList, messageHash]
  match secondPart "Receipt data: ".toList receiptStr with
  | none => throw .indexError
  | some data =>
    let receiptJson ← raising (tools.loads data)
    match ← raising (findExecutionReceipt calledContract receiptJson) with
    | none =>
      throw (.runtimeError "Receipt for the last execution message is not found".toList)
    | some targetReceipt =>
      let shardId ← raising (getItem targetReceipt "shardId")
      return (shardId, ← raising (getItem targetReceipt "blockHash"))

/-- `json.dump` into a file, if there is a name for it. -/
def dump (fileName : Option Text) (value : Value) : Py τ Unit := do
  match fileName with
  | none => pure ()
  | some name =>
    attempt (tools.openWrite name)
    modify fun s => { s with files := s.files ++ [(name, value)] }

def getBlockByHash (shardId blockHash : Value) (blockFileName : Option Text) : Py τ Unit := do
  let block ← sendRequest tools "eth_getBlockByHash" [shardId, blockHash, .bool true]
  dump tools blockFileName block

def accountsDocument (state : Value) : Value := .object [("accounts".toList, .array [state])]

def getStateByBlockHash (address : Text) (blockHash : Value) (stateFileName : Option Text) :
    Py τ Unit := do
  let state ← sendRequest tools "debug_getContract" [.string address, blockHash]
  dump tools stateFileName (accountsDocument state)

/-! ## The modes -/

def callCluster (call : ClusterCall) : Py τ Unit := do
  let outcome ← outside (tools.cluster call)
  modify fun s => { s with clusterCalls := s.clusterCalls ++ [(call, outcome)] }
  raising outcome

/-- `ClusterProcess()`.  When the sleep raises, there is no object yet whose `__exit__`
would terminate the process. -/
def launch : Py τ Unit := do
  callCluster tools .popen
  callCluster tools .sleep

def shutdown : Py τ Unit := callCluster tools .terminate

def mkdir : Py τ Unit := do
  raiseIf ((← get).artifacts.isSome = true) .fileExists
  modify fun s => { s with artifacts := some [] }

def rmtree : Py τ Unit := do
  raiseIf ((← get).artifacts = none) .library
  modify fun s => { s with artifacts := none }

/-- `with temp_directory(ARTIFACT_DIR)`: the directory is made inside of the `try`. -/
def tempDirectory {α : Type} (x : Py τ α) : Py τ α :=
  protect (do mkdir; x) rmtree

/-- What `generate_block` does with the cluster. -/
def deployAndCall (contracts : List (Nat × Contract)) (transactions : List TransactionConfig)
    (outputBlockFileName outputStateFileName : Option Text) : Py τ (Value × Value) := do
  let contractMap ← deployContracts tools configPath contracts
  match ← submitTransactions tools configPath contractMap none transactions with
  -- the address of `None`
  | none => throw .attributeError
  | some (lastMessageHash, lastCalledContract) =>
    let block ← getBlockHash tools configPath lastMessageHash lastCalledContract.address
    getBlockByHash tools block.1 block.2 outputBlockFileName
    getStateByBlockHash tools lastCalledContract.address block.2 outputStateFileName
    return block

def generateBlock (blockConfig : Text) (outputBlockFileName outputStateFileName : Option Text) :
    Py τ (Value × Value) := do
  let config ← raising (tools.validate blockConfig)
  let contracts ← raising (collectContracts [] config.contracts)
  let block ← within (launch tools) (shutdown tools) (tempDirectory
    (deployAndCall tools configPath contracts config.transactions outputBlockFileName
      outputStateFileName))
  -- `"BlockHash = " + block_hash`
  raiseIf (block.2.isString = false) .typeError
  return block

def makeConfig (path : Text) : Py τ Unit := do
  attempt (tools.remove path)
  let _ ← runCli tools (some path) ["config".toList, "init".toList]
  let _ ← runCli tools (some path)
    ["config".toList, "set".toList, "rpc_endpoint".toList, "http://127.0.0.1:8529".toList]
  let _ ← runCli tools (some path) ["keygen".toList, "new".toList]
  within (launch tools) (shutdown tools) do
    let _ ← runCliFor tools (some path) ["wallet".toList, "new".toList] "New wallet address: "
      isHexDigit

/-- `--mode` -/
inductive Mode where
  | makeConfig
  | generateBlock

structure Options where
  cliConfigName : Option Text
  blockConfigName : Option Text
  blockOutputName : Option Text
  stateOutputName : Option Text

def main (mode : Mode) (options : Options) : Py τ Unit :=
  match mode with
  | .makeConfig =>
    match options.cliConfigName with
    | none =>
      throw (.valueError
        "--cli-config-name argument must be passed for 'make-config' mode".toList)
    | some path => makeConfig tools path
  | .generateBlock =>
    match options.blockConfigName with
    | none =>
      throw (.valueError
        "--block-config-name argument must be passed for 'generate-blocks' mode".toList)
    | some blockConfig => do
      let _ ← generateBlock tools options.cliConfigName blockConfig options.blockOutputName
        options.stateOutputName

end Model

end BlockGenerator
