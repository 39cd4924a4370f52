import ZkevmFramework.Core.Types
import ZkevmFramework.JsonHelpers.ParseJson

/-!
# What the loaders share

The code of other libraries they call, the conversions to the types of the EVM,
and the short sequences that occur in each of them.
-/

namespace AssignerRunner

open Cpp JsonHelpers Core.Types

/-- The parser and validator of JSON documents, `intx::from_string`, and
`ssz::deserialize` for the types that are read. -/
structure External where
  parser : StreamParser
  validator : Validator
  fromString : Text → Except Thrown UInt256
  deserializeBlock : Bytes → Except Thrown Block
  deserializeMessage : Bytes → Except Thrown Message
  deserializeContract : Bytes → Except Thrown SmartContract

/-- `evmc_bytes32` and `evmc_uint256be` -/
abbrev Bytes32 := Vector UInt8 32

abbrev EvmcAddress := Vector UInt8 20

inductive CallKind where
  | call
  | create
deriving DecidableEq, Repr

/-- `to_uint256be`: the bytes of the number, the high ones first. -/
def toUint256be (v : UInt256) : Bytes32 :=
  Vector.ofFn fun i => (v.toNat >>> (8 * (31 - i.val))).toUInt8

/-- `to_evmc_address` -/
def toEvmcAddress (v : Address) : EvmcAddress := Vector.ofFn fun i => v[i]

/-- `evmc_msg_kind` -/
def evmcMsgKind (type : BitVec 8) : CallKind :=
  if testFlag type .deploy then .create
  else if testFlag type .internal then .call
  else .call

def hexDigit (n : Nat) : Char := "0123456789abcdef".toList.getD n '0'

/-- `byte_array_to_str`: two digits for every byte. -/
def byteArrayToStr (data : Bytes) : Text :=
  "0x".toList ++ data.flatMap fun b => [hexDigit (b.toNat / 16), hexDigit (b.toNat % 16)]

/-- `to_std_bytes` of a text into new bytes, and the return on its error. -/
def extractBytes (label : String) (hexString : Text) : Except Stop Bytes := do
  orReturn label (toStdBytes hexString []).1
  return (toStdBytes hexString []).2

/-- `result` is in the document, and `name` in it. -/
def resultContains (v : Value) (name : String) : Except Stop Bool := do
  let o ← v.asObject
  if Object.contains o "result" then
    return Object.contains (← (← v.atKey "result").asObject) name
  else return false

/-- `if (!found) return message;` -/
def orMissing (message : String) (found : Bool) : Except Stop Unit :=
  if found then .ok () else .error (.error message.toList)

theorem extractBytes_of_some {hexString : Text} {bytes : Bytes}
    (h : decode hexString = some bytes) (label : String) :
    extractBytes label hexString = .ok bytes := by
  unfold extractBytes
  rw [toStdBytes_of_some h]
  rfl

theorem extractBytes_of_none {hexString : Text} (h : decode hexString = none) (label : String) :
    extractBytes label hexString =
      .error (.error (label.toList ++ "Hex string to bytes failed".toList)) := by
  unfold extractBytes
  rw [toStdBytes_of_none h]
  rfl

theorem extractBytes_ok_iff {label : String} {hexString : Text} {bytes : Bytes} :
    extractBytes label hexString = .ok bytes ↔ decode hexString = some bytes := by
  cases h : decode hexString with
  | none =>
    rw [extractBytes_of_none h]
    exact iff_of_false (by simp) (by simp)
  | some bytes' =>
    rw [extractBytes_of_some h, Except.ok.injEq, Option.some.injEq]

theorem orMissing_ok_iff {message : String} {found : Bool} :
    orMissing message found = .ok () ↔ found = true := by
  cases found <;> simp [orMissing]

section Result

variable {v : Value} {name : String}

theorem returns_resultContains_iff :
    Returns (resultContains v name) ↔
      v.isObject = true ∧ (v.has "result" = true → (v.field "result").isObject = true) := by
  unfold resultContains
  rw [returns_bind_iff, Value.returns_asObject_iff]
  apply and_congr_right
  intro hobj
  rw [Value.asObject_of hobj]
  simp only [Except.ok.injEq, forall_eq']
  by_cases hres : v.has "result" = true
  · have hc : Object.contains v.members "result" = true := hres
    rw [if_pos hc, Value.atKey_of hobj hres, ok_bind, returns_bind_iff,
      Value.returns_asObject_iff, forall_prop_of_true hres]
    apply and_iff_left
    intro o _
    exact returns_ok _
  · have hc : ¬ Object.contains v.members "result" = true := hres
    rw [if_neg hc]
    exact iff_of_true (returns_ok _) fun h => absurd h hres

theorem resultContains_eq (hobj : v.isObject = true)
    (hres : v.has "result" = true → (v.field "result").isObject = true) :
    resultContains v name = .ok (v.has "result" && (v.field "result").has name) := by
  unfold resultContains
  rw [Value.asObject_of hobj, ok_bind]
  by_cases h : v.has "result" = true
  · have hc : Object.contains v.members "result" = true := h
    rw [if_pos hc, Value.atKey_of hobj h, ok_bind, Value.asObject_of (hres h), ok_bind, h,
      Bool.true_and]
    rfl
  · have hc : ¬ Object.contains v.members "result" = true := h
    rw [if_neg hc]
    rw [Bool.not_eq_true] at h
    rw [h, Bool.false_and]
    rfl

theorem throwsOnly_resultContains (v : Value) (name : String) : ThrowsOnly (resultContains v name) := by
  apply ThrowsOnly.bind v.throwsOnly_asObject
  intro o
  by_cases h : Object.contains o "result" = true
  · rw [if_pos h]
    exact (v.throwsOnly_atKey "result").bind fun r =>
      r.throwsOnly_asObject.bind fun o => throwsOnly_ok _
  · rw [if_neg h]
    exact throwsOnly_ok _

end Result

section Document

variable {σ : Type} {parser : StreamParser} {stream : Istream} {label label' : String} {s : σ}

/-- A document read from a stream, and what is done with it. -/
theorem returns_parsed_iff {f : Value → Call σ Unit} {P : Value → Prop}
    (h : ∀ v, Returns (outcome (f v s)) ↔ P v) :
    Returns (outcome ((call (labelled label (parseJson parser stream)) >>= f) s)) ↔
      Returns (parseJson parser stream) ∧ ∀ v, parseJson parser stream = .ok v → P v := by
  rw [returns_call_bind_iff, returns_labelled_iff]
  simp only [labelled_eq_ok_iff, h]

/-- A document read from a stream and checked against a schema. -/
theorem returns_validated_iff {validator : Validator} {schema : Schema} {f : Value → Call σ Unit}
    {P : Value → Prop} (h : ∀ v, schema v = true → (Returns (outcome (f v s)) ↔ P v)) :
    Returns (outcome ((do
      let v ← call (labelled label (parseJson parser stream))
      call (orReturn label' (validateJson validator schema v))
      f v : Call σ Unit) s)) ↔
      Returns (parseJson parser stream) ∧
        ∀ v, parseJson parser stream = .ok v → schema v = true → P v := by
  apply returns_parsed_iff
  intro v
  unfold validateJson
  by_cases hvalid : schema v = true
  · rw [if_pos hvalid, forall_prop_of_true hvalid]
    exact h v hvalid
  · rw [if_neg hvalid]
    exact iff_of_true (returns_error _) fun hv => absurd hv hvalid

end Document

end AssignerRunner
