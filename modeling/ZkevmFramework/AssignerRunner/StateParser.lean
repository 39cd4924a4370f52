import Mathlib.Logic.Function.Basic
import ZkevmFramework.AssignerRunner.Utils

/-!
# `state_parser.cpp`

Accounts are read from a JSON file, which is checked against a schema, or one of
them from the answer of a node.  A slot that is there already keeps its value,
and an account that is there already is replaced.
-/

namespace AssignerRunner

open Cpp JsonHelpers Core.Types

/-! ## The schema -/

/-- The items of `storage` in `state_schema.json`. -/
def slotSchema : Schema :=
  Schema.object
    [("Key", Schema.string ⟨"0x", isHex⟩ 4 (some 66)), ("Val", Schema.string ⟨"", isDigit⟩ 0 none)]
    ["Key", "Val"] false

/-- The items of `accounts` in `state_schema.json`. -/
def accountSchema : Schema :=
  Schema.object
    [("code", Schema.string ⟨"0x", isLowerHex⟩ 0 none),
      ("contract", Schema.string ⟨"0x", isHex⟩ 0 none),
      ("proof", Schema.string ⟨"0x", isLowerHex⟩ 0 none),
      ("storage", Schema.array slotSchema)]
    ["code", "contract", "proof", "storage"] false

/-- `state_schema.json` -/
def stateSchema (same : Value → Value → Bool) : Schema :=
  Schema.object [("accounts", Schema.uniqueItems same (Schema.array accountSchema))] ["accounts"] false

/-! ## The loaders -/

/-- The fields of `evmc::account` that are written. -/
structure Account where
  balance : Bytes32
  code : Bytes
  storage : Bytes32 → Option Bytes32

/-- An account just declared. -/
def Account.declared : Account := ⟨Vector.replicate 32 0, [], fun _ => none⟩

/-- `storage.emplace(key, value)` -/
def Account.emplace (slot : Bytes32 × Bytes32) (account : Account) : Account :=
  if (account.storage slot.1).isSome then account
  else { account with storage := Function.update account.storage slot.1 (some slot.2) }

/-- `evmc::accounts` -/
abbrev Accounts := EvmcAddress → Option Account

/-- `account_storage[address] = account` -/
def Accounts.assign (accounts : Accounts) (entry : EvmcAddress × Account) : Accounts :=
  Function.update accounts entry.1 (some entry.2)

section Model

/-- `handle_code`; the code is appended to, also by the part before an error. -/
def handleCode (codeStr : Text) : Call Account Unit := do
  let code := (← get).code
  modify fun account => { account with code := (toBytes codeStr code).2 }
  call (orReturn "Parsing get code response is failed: " (toBytes codeStr code).1)

variable (ext : External)

/-- One element of a storage. -/
def handleSlot (item : Value) : Except Stop (Bytes32 × Bytes32) := do
  let storageElem ← item.asObject
  orMissing "Invalid storage in the JSON"
    (Object.contains storageElem "Key" && Object.contains storageElem "Val")
  let keyStr ← (← Object.atKey storageElem "Key").asCString
  let valStr ← (← Object.atKey storageElem "Val").asCString
  let key ← orThrow (ext.fromString keyStr)
  let value ← orThrow (ext.fromString valStr)
  return (toUint256be key, toUint256be value)

/-- `handle_storage` -/
def handleStorage (storageJson : List Value) : Call Account Unit :=
  fill (handleSlot ext) Account.emplace storageJson

/-- `handle_account`; the address is returned instead of written. -/
def handleAccount (contractStr : Text) : Call Account EvmcAddress := do
  let contractData ← call (extractBytes "Parse contract failed: \n\t" contractStr)
  let contract ← call (orThrow (ext.deserializeContract contractData))
  modify fun account => { account with balance := toUint256be contract.balance }
  return toEvmcAddress contract.address

/-- The handlers of one element of `accounts`, on the account declared for it. -/
def fillAccount (item : Value) : Call Account EvmcAddress := do
  let accountJson ← call item.asObject
  let codeStr ← call (do (← Object.atKey accountJson "code").asCString)
  labelledCall "Parse code failed: \n\t" (handleCode codeStr)
  let contractStr ← call (do (← Object.atKey accountJson "contract").asCString)
  let address ← labelledCall "Parse account failed: \n\t" (handleAccount ext contractStr)
  let storageJson ← call (do (← Object.atKey accountJson "storage").asArray)
  labelledCall "Parse storage failed: \n\t" (handleStorage ext storageJson)
  return address

/-- What the element is stored as. -/
def handleAccountItem (item : Value) : Except Stop (EvmcAddress × Account) :=
  match fillAccount ext item Account.declared with
  | .ok address account => .ok (address, account)
  | .error e _ => .error e

/-- `init_account_storage` of a stream; the schema is a constant of the program. -/
def initAccountStorage (config : Istream) : Call Accounts Unit := do
  let configJson ← call
    (labelled "Error while parsing state config file: " (parseJson ext.parser config))
  call (orReturn "Config file validation failed: \n\t"
    (validateJson ext.validator (stateSchema ext.validator.same) configJson))
  let accountArray ← call (do (← Object.atKey (← configJson.asObject) "accounts").asArray)
  fill (handleAccountItem ext) (fun entry accounts => accounts.assign entry) accountArray

/-- `init_account_storage` of a file. -/
def initAccountStorageFile (openFile : Text → Option Istream) (name : Text) : Call Accounts Unit :=
  match openFile name with
  | none =>
    call (.error (.error
      ("Could not open the account storage config: '".toList ++ name ++ "'".toList)))
  | some config => initAccountStorage ext config

/-- `load_account_with_storage` -/
def loadAccountWithStorage (accountData : Istream) : Call Account Unit := do
  let accountJson ← call
    (labelled "Error while parsing accounts data: " (parseJson ext.parser accountData))
  let found ← call (resultContains accountJson "code")
  call (orMissing "Account code is not found in the JSON" found)
  let codeStr ← call (do (← (← accountJson.atKey "result").atKey "code").asCString)
  labelledCall "Parse code failed: \n\t" (handleCode codeStr)
  let found ← call (resultContains accountJson "contract")
  call (orMissing "Contract data is not found in the JSON" found)
  let contractStr ← call (do (← (← accountJson.atKey "result").atKey "contract").asCString)
  let _ ← labelledCall "Parse account failed: \n\t" (handleAccount ext contractStr)
  let found ← call (resultContains accountJson "storage")
  call (orMissing "Storage is not found in the JSON" found)
  let storageJson ← call (do (← (← accountJson.atKey "result").atKey "storage").asArray)
  labelledCall "Parse account failed: \n\t" (handleStorage ext storageJson)

/-- The account of an answer; none where an error is returned.  The caller is `noexcept`. -/
def answeredAccount (body : Bytes) : Except Stop (Option Account) :=
  match loadAccountWithStorage ext { data := body } Account.declared with
  | .ok _ account => .ok (some account)
  | .error (.error _) _ => .ok none
  | .error e _ => noexcept (.error e)

/-- `ExtVMHost::get_account`: the account of the map, or the one the node answers with.
`rpc` is `get_account_with_storage` at the previous block. -/
def getAccount (rpc : Text → Except Text Bytes) (addr : EvmcAddress) :
    Call Accounts (Option Account) := fun accounts =>
  match accounts addr with
  | some account => .ok (some account) accounts
  | none =>
    match rpc (byteArrayToStr addr.toList) with
    | .error _ => .ok none accounts
    | .ok body =>
      match answeredAccount ext body with
      | .error e => .error e accounts
      | .ok none => .ok none accounts
      | .ok (some account) => .ok (some account) (accounts.assign (addr, account))

end Model

end AssignerRunner
