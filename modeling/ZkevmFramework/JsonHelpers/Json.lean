import Mathlib.Data.List.TakeWhile
import ZkevmFramework.Lib.Cpp

/-!
# JSON documents

`boost::json::value` with the accessors the loaders use.  An accessor throws on
a value of another kind, and `at` throws on a missing key.

`field`, `text` and `elems` read a document without failing; they say what the
accessors return on a document of the right shape.
-/

namespace JsonHelpers

open Cpp

/-- `boost::json::value`; the parser makes a number an `int64` where it fits, else
a `uint64`, else a `double` (kept as its bits). -/
inductive Value where
  | null
  | bool (b : Bool)
  | int64 (i : Int64)
  | uint64 (n : UInt64)
  | double (bits : UInt64)
  | string (t : Text)
  | array (elems : List Value)
  | object (members : List (Text × Value))

/-- `boost::json::object` -/
abbrev Object := List (Text × Value)

def Object.find (o : Object) (name : String) : Option Value := o.lookup name.toList

def Object.contains (o : Object) (name : String) : Bool := (Object.find o name).isSome

def Object.atKey (o : Object) (name : String) : Except Stop Value :=
  match Object.find o name with
  | some v => .ok v
  | none => .error (.throws .outOfRange)

/-- The text up to its first NUL, as `c_str()` hands it on. -/
def cStr (t : Text) : Text := t.takeWhile fun c => c.toNat != 0

namespace Value

def asInt64 : Value → Except Stop Int64
  | .int64 i => .ok i
  | _ => .error (.throws .wrongKind)

def asString : Value → Except Stop Text
  | .string t => .ok t
  | _ => .error (.throws .wrongKind)

def asArray : Value → Except Stop (List Value)
  | .array elems => .ok elems
  | _ => .error (.throws .wrongKind)

def asObject : Value → Except Stop Object
  | .object members => .ok members
  | _ => .error (.throws .wrongKind)

/-- `value.at(name)`, of a value that has to be an object. -/
def atKey (v : Value) (name : String) : Except Stop Value := do
  Object.atKey (← v.asObject) name

/-- `value.as_string().c_str()` -/
def asCString (v : Value) : Except Stop Text := do
  return cStr (← v.asString)

/-! ## What a document holds -/

def members : Value → Object
  | .object members => members
  | _ => []

def field (v : Value) (name : String) : Value := (Object.find v.members name).getD .null

def text : Value → Text
  | .string t => t
  | _ => []

def elems : Value → List Value
  | .array elems => elems
  | _ => []

def isInt64 : Value → Bool
  | .int64 _ => true
  | _ => false

def isString : Value → Bool
  | .string _ => true
  | _ => false

def isArray : Value → Bool
  | .array _ => true
  | _ => false

def isObject : Value → Bool
  | .object _ => true
  | _ => false

def has (v : Value) (name : String) : Bool := Object.contains v.members name

variable {v : Value}

theorem asString_of (h : v.isString = true) : v.asString = .ok v.text := by
  cases v <;> first | rfl | cases h

theorem asCString_of (h : v.isString = true) : v.asCString = .ok (cStr v.text) := by
  unfold asCString
  rw [asString_of h]
  rfl

theorem asArray_of (h : v.isArray = true) : v.asArray = .ok v.elems := by
  cases v <;> first | rfl | cases h

theorem asObject_of (h : v.isObject = true) : v.asObject = .ok v.members := by
  cases v <;> first | rfl | cases h

theorem members_atKey {name : String} (h : v.has name = true) :
    Object.atKey v.members name = .ok (v.field name) := by
  unfold has Object.contains at h
  unfold Object.atKey field
  cases hf : Object.find v.members name with
  | none => simp [hf] at h
  | some x => rfl

theorem atKey_of {name : String} (hobj : v.isObject = true) (h : v.has name = true) :
    v.atKey name = .ok (v.field name) := by
  unfold Value.atKey
  rw [asObject_of hobj]
  exact members_atKey h

theorem returns_asCString_iff : Returns v.asCString ↔ v.isString = true := by
  cases v <;> simp [asCString, asString, isString, returns_bind_iff, pure, Except.pure]

theorem returns_asArray_iff : Returns v.asArray ↔ v.isArray = true := by
  cases v <;> simp [asArray, isArray]

theorem returns_asObject_iff : Returns v.asObject ↔ v.isObject = true := by
  cases v <;> simp [asObject, isObject]

theorem throwsOnly_asObject (v : Value) : ThrowsOnly v.asObject := by
  cases v <;> first | exact throwsOnly_ok _ | exact throwsOnly_throws _

theorem throwsOnly_asArray (v : Value) : ThrowsOnly v.asArray := by
  cases v <;> first | exact throwsOnly_ok _ | exact throwsOnly_throws _

theorem throwsOnly_atKey (v : Value) (name : String) : ThrowsOnly (v.atKey name) := by
  apply ThrowsOnly.bind v.throwsOnly_asObject
  intro o
  unfold Object.atKey
  cases Object.find o name with
  | none => exact throwsOnly_throws _
  | some x => exact throwsOnly_ok _

end Value

/-- A text without NUL is handed on whole. -/
theorem cStr_eq {t : Text} (h : ∀ c ∈ t, c.toNat ≠ 0) : cStr t = t := by
  unfold cStr
  rw [List.takeWhile_eq_self_iff]
  intro c hc
  simpa using h c hc

end JsonHelpers
