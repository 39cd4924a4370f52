import ZkevmFramework.JsonHelpers.Json

/-!
# JSON schemas

`validate_json` with the keywords that the two schemas of the loaders use.  A
schema is what it says of a document; the keywords of one type stand together.

What a document satisfies is read off one keyword at a time (`object_iff`,
`string_iff`), so that the loaders know the kinds of what they access.
-/

namespace JsonHelpers

open Cpp

abbrev Schema := Value → Bool

/-- The pattern `^lead[chars]+$`. -/
structure Pattern where
  lead : String
  chars : Char → Bool

def Pattern.matches (p : Pattern) (t : Text) : Bool :=
  p.lead.toList.isPrefixOf t && !(t.drop p.lead.toList.length).isEmpty &&
    (t.drop p.lead.toList.length).all p.chars

def isLowerHex (c : Char) : Bool := isDigit c || ('a' ≤ c && c ≤ 'f')

def isHex (c : Char) : Bool := isLowerHex c || ('A' ≤ c && c ≤ 'F')

namespace Schema

/-- `"type": "number"` -/
def number : Schema
  | .int64 _ | .uint64 _ | .double _ => true
  | _ => false

/-- `"type": "string"`, any text. -/
def anyString : Schema := Value.isString

/-- `"type": "string"` with `"pattern"` and a length between two bounds. -/
def string (p : Pattern) (minLength : Nat) (maxLength : Option Nat) : Schema
  | .string t => p.matches t && decide (minLength ≤ t.length) &&
      maxLength.all fun n => decide (t.length ≤ n)
  | _ => false

/-- `"enum"` of strings. -/
def enum (texts : List String) : Schema
  | .string t => texts.any fun s => s.toList == t
  | _ => false

/-- `"type": "array"` with `"items"`. -/
def array (items : Schema) : Schema
  | .array elems => elems.all items
  | _ => false

/-- No two elements are the same. -/
def distinct (same : Value → Value → Bool) : List Value → Bool
  | [] => true
  | v :: l => (l.all fun w => !same v w) && distinct same l

/-- `"uniqueItems": true` -/
def uniqueItems (same : Value → Value → Bool) (s : Schema) : Schema := fun v =>
  s v && distinct same v.elems

/-- `"type": "object"` with `"properties"`, `"required"` and `"additionalProperties"`. -/
def object (properties : List (String × Schema)) (required : List String) (additional : Bool) :
    Schema
  | .object members =>
    (properties.all fun p => (Object.find members p.1).all p.2) &&
      (required.all fun name => Object.contains members name) &&
      (additional || members.all fun m => properties.any fun p => p.1.toList == m.1)
  | _ => false

end Schema

/-- The validator: its equality of values, and the text of the first failure of a
schema with its location. -/
structure Validator where
  same : Value → Value → Bool
  describe : Schema → Value → Text

/-- `validate_json` -/
def validateJson (validator : Validator) (schema : Schema) (target : Value) : Option Text :=
  if schema target then none else some (validator.describe schema target)

/-! ## What a schema says -/

theorem Pattern.matches_iff (p : Pattern) (t : Text) :
    p.matches t = true ↔ ∃ d, t = p.lead.toList ++ d ∧ d ≠ [] ∧ ∀ c ∈ d, p.chars c = true := by
  unfold Pattern.matches
  constructor
  · intro h
    simp only [Bool.and_eq_true, Bool.not_eq_true', List.isPrefixOf_iff_prefix] at h
    obtain ⟨⟨⟨d, rfl⟩, hne⟩, hall⟩ := h
    rw [List.drop_left] at hne hall
    exact ⟨d, rfl, by simpa using hne, List.all_eq_true.mp hall⟩
  · rintro ⟨d, rfl, hne, hall⟩
    simp only [Bool.and_eq_true, Bool.not_eq_true', List.isPrefixOf_iff_prefix, List.drop_left]
    exact ⟨⟨List.prefix_append _ _, by simpa using hne⟩, List.all_eq_true.mpr hall⟩

theorem digit_ne_nul {c : Char} (h : isDigit c = true) : c.toNat ≠ 0 := by
  intro h0
  have hc : c = Char.ofNat 0 := by rw [← h0, Char.ofNat_toNat]
  rw [hc] at h
  exact absurd h (by decide)

theorem hex_ne_nul {c : Char} (h : isHex c = true) : c.toNat ≠ 0 := by
  intro h0
  have hc : c = Char.ofNat 0 := by rw [← h0, Char.ofNat_toNat]
  rw [hc] at h
  exact absurd h (by decide)

theorem isHex_of_lower {c : Char} (h : isLowerHex c = true) : isHex c = true := by
  unfold isHex
  rw [h]
  rfl

namespace Schema

theorem string_iff {p : Pattern} {minLength : Nat} {maxLength : Option Nat} {v : Value} :
    string p minLength maxLength v = true ↔
      v.isString = true ∧ p.matches v.text = true ∧ minLength ≤ v.text.length ∧
        ∀ n, maxLength = some n → v.text.length ≤ n := by
  cases v with
  | string t =>
    cases maxLength <;> simp [string, Value.isString, Value.text, and_assoc]
  | _ => simp [string, Value.isString]

theorem enum_isString {texts : List String} {v : Value} (h : enum texts v = true) :
    v.isString = true := by
  cases v <;> first | rfl | cases h

theorem array_iff {items : Schema} {v : Value} :
    array items v = true ↔ v.isArray = true ∧ ∀ e ∈ v.elems, items e = true := by
  cases v <;> simp [array, Value.isArray, Value.elems]

theorem of_uniqueItems {same : Value → Value → Bool} {s : Schema} {v : Value}
    (h : uniqueItems same s v = true) : s v = true := by
  unfold uniqueItems at h
  rw [Bool.and_eq_true] at h
  exact h.1

section Object

variable {properties : List (String × Schema)} {required : List String} {additional : Bool}
  {v : Value}

theorem object_isObject (h : object properties required additional v = true) :
    v.isObject = true := by
  cases v <;> first | rfl | cases h

/-- A required property is there, and as its schema has it. -/
theorem object_field {name : String} {s : Schema}
    (h : object properties required additional v = true) (hs : (name, s) ∈ properties)
    (hname : name ∈ required) : v.has name = true ∧ s (v.field name) = true := by
  cases v with
  | object members =>
    unfold object at h
    simp only [Bool.and_eq_true, List.all_eq_true] at h
    obtain ⟨⟨hprops, hreq⟩, -⟩ := h
    have hhas : Object.contains members name = true := hreq name hname
    refine ⟨hhas, ?_⟩
    have hp := hprops (name, s) hs
    unfold Object.contains at hhas
    show s ((Object.find members name).getD .null) = true
    cases hf : Object.find members name with
    | none => simp [hf] at hhas
    | some x => simpa [hf] using hp
  | _ => cases h

end Object

end Schema

end JsonHelpers
