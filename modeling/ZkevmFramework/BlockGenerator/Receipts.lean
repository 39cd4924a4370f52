import ZkevmFramework.JsonHelpers.Json

/-!
# `find_execution_receipt`

The receipt of a message holds the receipts of the messages it sent, and so on.
The search goes through them depth first, and is over at the first receipt of the
contract: it is a scan of the receipts in the order of the text
(`findExecutionReceipt_eq_scan`), so the block is that of the first receipt of the
contract, and a receipt without the keys that are read counts only where the search
comes to it (`findExecutionReceipt_finds_first`).
-/

namespace BlockGenerator

open Cpp JsonHelpers

/-- The exceptions of Python and of the libraries. -/
inductive Raised where
  | valueError (message : Text)
  | runtimeError (message : Text)
  | attributeError
  | keyError
  | indexError
  | typeError
  | fileExists
  /-- A local variable that is not set. -/
  | unboundLocal
  | assertion
  /-- An exception of a library. -/
  | library

/-- `value[key]` -/
def getItem (value : Value) (key : String) : Except Raised Value :=
  match value with
  | .object members =>
    match members.lookup key.toList with
    | some v => .ok v
    | none => .error .keyError
  | _ => .error .typeError

/-- What `for … in value` goes through.  In a string or an object that would be strings, which
cannot be searched; an empty one is gone through like an empty list, without an exception. -/
def items : Value → Except Raised (List Value)
  | .array elems => .ok elems
  | .string [] => .ok []
  | .object [] => .ok []
  | _ => .error .typeError

theorem sizeOf_getItem {value v : Value} {key : String} (h : getItem value key = .ok v) :
    sizeOf v < sizeOf value := by
  unfold getItem at h
  split at h
  · next members =>
    split at h
    · next w hfind =>
      cases h
      obtain ⟨l₁, l₂, rfl, -⟩ := List.lookup_eq_some_iff.mp hfind
      have hmem : (key.toList, v) ∈ l₁ ++ (key.toList, v) :: l₂ :=
        List.mem_append_right _ List.mem_cons_self
      have hsize := List.sizeOf_lt_of_mem hmem
      simp only [Prod.mk.sizeOf_spec] at hsize
      simp only [Value.object.sizeOf_spec]
      omega
    · cases h
  · cases h

theorem sizeOf_items {value : Value} {l : List Value} (h : items value = .ok l) :
    sizeOf l ≤ sizeOf value := by
  unfold items at h
  split at h
  · cases h
    simp only [Value.array.sizeOf_spec]
    omega
  · cases h
    decide
  · cases h
    decide
  · cases h

/-- `value == t` -/
def isText (t : Text) : Value → Bool
  | .string s => s == t
  | _ => false

/-- `for … in receipt["outputReceipts"]` -/
def outputReceipts (receipt : Value) : Except Raised (List Value) :=
  getItem receipt "outputReceipts" >>= items

theorem sizeOf_outputReceipts {receipt : Value} {l : List Value}
    (h : outputReceipts receipt = .ok l) : sizeOf l < sizeOf receipt := by
  unfold outputReceipts at h
  cases hget : getItem receipt "outputReceipts" with
  | error e =>
    rw [hget] at h
    cases h
  | ok outputs =>
    rw [hget] at h
    exact lt_of_le_of_lt (sizeOf_items h) (sizeOf_getItem hget)

/-! ## The search -/

section Search

variable (contractAddress : Text)

mutual

/-- `find_execution_receipt`: the body of its loop, which is never repeated. -/
def findExecutionReceipt (receipt : Value) : Except Raised (Option Value) :=
  match getItem receipt "contractAddress" with
  | .error e => .error e
  | .ok address =>
    if isText contractAddress address then .ok (some receipt)
    else
      match h : outputReceipts receipt with
      | .error e => .error e
      | .ok outputs => findAmong outputs
termination_by sizeOf receipt
decreasing_by exact sizeOf_outputReceipts h

/-- `for output_receipt in receipt_json["outputReceipts"]` -/
def findAmong : List Value → Except Raised (Option Value)
  | [] => .ok none
  | output :: outputs =>
    match findExecutionReceipt output with
    | .ok none => findAmong outputs
    | found => found
termination_by outputs => sizeOf outputs

end

variable {contractAddress} {receipt address : Value}

theorem findExecutionReceipt_of_text (hget : getItem receipt "contractAddress" = .ok address)
    (htext : isText contractAddress address = true) :
    findExecutionReceipt contractAddress receipt = .ok (some receipt) := by
  rw [findExecutionReceipt, hget]
  simp only [htext, if_true]

theorem findExecutionReceipt_of_outputs (hget : getItem receipt "contractAddress" = .ok address)
    (htext : isText contractAddress address = false) :
    findExecutionReceipt contractAddress receipt =
      match outputReceipts receipt with
      | .error e => .error e
      | .ok outputs => findAmong contractAddress outputs := by
  rw [findExecutionReceipt, hget]
  simp only [htext, Bool.false_eq_true, if_false]
  split
  · next e houtputs => rw [houtputs]
  · next outputs houtputs => rw [houtputs]

end Search

/-! ## The order of the receipts -/

mutual

/-- A receipt with all that it holds, in the order of the text. -/
def inOrder (receipt : Value) : List Value :=
  match h : outputReceipts receipt with
  | .error _ => [receipt]
  | .ok outputs => receipt :: inOrderAll outputs
termination_by sizeOf receipt
decreasing_by exact sizeOf_outputReceipts h

def inOrderAll : List Value → List Value
  | [] => []
  | output :: outputs => inOrder output ++ inOrderAll outputs
termination_by outputs => sizeOf outputs

end

theorem inOrder_eq (receipt : Value) :
    inOrder receipt = receipt :: match outputReceipts receipt with
      | .error _ => []
      | .ok outputs => inOrderAll outputs := by
  rw [inOrder]
  split
  · next e houtputs => rw [houtputs]
  · next outputs houtputs => rw [houtputs]

section Scan

variable (contractAddress : Text)

/-- The first receipt of the contract in a list. -/
def scan : List Value → Except Raised (Option Value)
  | [] => .ok none
  | receipt :: receipts =>
    match getItem receipt "contractAddress" with
    | .error e => .error e
    | .ok address =>
      if isText contractAddress address then .ok (some receipt)
      else
        match outputReceipts receipt with
        | .error e => .error e
        | .ok _ => scan receipts

theorem scan_append (l l' : List Value) :
    scan contractAddress (l ++ l') =
      match scan contractAddress l with
      | .ok none => scan contractAddress l'
      | found => found := by
  induction l with
  | nil => rfl
  | cons receipt l ih =>
    rw [List.cons_append, scan, scan]
    cases getItem receipt "contractAddress" with
    | error e => rfl
    | ok address =>
      simp only
      cases isText contractAddress address with
      | true => rfl
      | false =>
        cases outputReceipts receipt with
        | error e => rfl
        | ok outputs => exact ih

mutual

/-- **The search is a scan.** -/
theorem findExecutionReceipt_eq_scan (receipt : Value) :
    findExecutionReceipt contractAddress receipt = scan contractAddress (inOrder receipt) := by
  rw [inOrder_eq, scan]
  cases hget : getItem receipt "contractAddress" with
  | error e => rw [findExecutionReceipt, hget]
  | ok address =>
    cases htext : isText contractAddress address with
    | true =>
      rw [findExecutionReceipt_of_text hget htext]
      simp only [htext, if_true]
    | false =>
      rw [findExecutionReceipt_of_outputs hget htext]
      simp only [htext, Bool.false_eq_true, if_false]
      cases houtputs : outputReceipts receipt with
      | error e => rfl
      | ok outputs =>
        have hsize := sizeOf_outputReceipts houtputs
        exact findAmong_eq_scan outputs
termination_by sizeOf receipt

theorem findAmong_eq_scan (outputs : List Value) :
    findAmong contractAddress outputs = scan contractAddress (inOrderAll outputs) := by
  cases outputs with
  | nil => rw [findAmong, inOrderAll, scan]
  | cons output outputs =>
    rw [findAmong, inOrderAll, scan_append, findExecutionReceipt_eq_scan output,
      findAmong_eq_scan outputs]
termination_by sizeOf outputs

end

/-- It is a receipt of the contract. -/
def IsReceiptOf (receipt : Value) : Prop :=
  ∃ address, getItem receipt "contractAddress" = .ok address ∧
    isText contractAddress address = true

/-- It is one of another contract, and says what it holds. -/
def PassedOver (receipt : Value) : Prop :=
  (∃ address, getItem receipt "contractAddress" = .ok address ∧
    isText contractAddress address = false) ∧ ∃ outputs, outputReceipts receipt = .ok outputs

variable {contractAddress}

theorem scan_of_isReceiptOf {receipt : Value} (h : IsReceiptOf contractAddress receipt)
    (receipts : List Value) :
    scan contractAddress (receipt :: receipts) = .ok (some receipt) := by
  obtain ⟨address, hget, htext⟩ := h
  rw [scan, hget]
  simp only [htext, if_true]

theorem scan_of_passedOver {receipt : Value} (h : PassedOver contractAddress receipt)
    (receipts : List Value) :
    scan contractAddress (receipt :: receipts) = scan contractAddress receipts := by
  obtain ⟨⟨address, hget, htext⟩, outputs, houtputs⟩ := h
  rw [scan, hget]
  simp only [htext, Bool.false_eq_true, if_false, houtputs]

/-- A receipt is of the contract, or passed over, or the search raises at it. -/
theorem scan_cases (receipt : Value) :
    IsReceiptOf contractAddress receipt ∨ PassedOver contractAddress receipt ∨
      ∃ e, ∀ receipts, scan contractAddress (receipt :: receipts) = .error e := by
  cases hget : getItem receipt "contractAddress" with
  | error e =>
    refine Or.inr (Or.inr ⟨e, fun receipts => ?_⟩)
    rw [scan, hget]
  | ok address =>
    cases htext : isText contractAddress address with
    | true => exact Or.inl ⟨address, hget, htext⟩
    | false =>
      right
      cases houtputs : outputReceipts receipt with
      | ok outputs => exact Or.inl ⟨⟨address, hget, htext⟩, outputs, houtputs⟩
      | error e =>
        refine Or.inr ⟨e, fun receipts => ?_⟩
        rw [scan, hget]
        simp only [htext, Bool.false_eq_true, if_false, houtputs]

theorem not_passedOver_of_isReceiptOf {receipt : Value}
    (h : IsReceiptOf contractAddress receipt) : ¬ PassedOver contractAddress receipt := by
  rintro ⟨⟨address, hget, htext⟩, -⟩
  obtain ⟨address', hget', htext'⟩ := h
  rw [hget, Except.ok.injEq] at hget'
  rw [hget', htext'] at htext
  cases htext

theorem scan_eq_some_iff {receipts : List Value} {found : Value} :
    scan contractAddress receipts = .ok (some found) ↔
      ∃ before after, receipts = before ++ found :: after ∧
        (∀ receipt ∈ before, PassedOver contractAddress receipt) ∧
          IsReceiptOf contractAddress found := by
  constructor
  · intro h
    induction receipts with
    | nil => cases h
    | cons receipt receipts ih =>
      rcases scan_cases receipt with hof | hover | ⟨e, hraises⟩
      · rw [scan_of_isReceiptOf hof] at h
        cases h
        exact ⟨[], receipts, rfl, List.forall_mem_nil _, hof⟩
      · rw [scan_of_passedOver hover] at h
        obtain ⟨before, after, rfl, hbefore, hof⟩ := ih h
        exact ⟨receipt :: before, after, rfl, List.forall_mem_cons.mpr ⟨hover, hbefore⟩, hof⟩
      · rw [hraises] at h
        cases h
  · rintro ⟨before, after, rfl, hbefore, hof⟩
    induction before with
    | nil => exact scan_of_isReceiptOf hof after
    | cons receipt before ih =>
      rw [List.forall_mem_cons] at hbefore
      rw [List.cons_append, scan_of_passedOver hbefore.1]
      exact ih hbefore.2

theorem scan_eq_none_iff {receipts : List Value} :
    scan contractAddress receipts = .ok none ↔
      ∀ receipt ∈ receipts, PassedOver contractAddress receipt := by
  induction receipts with
  | nil => exact iff_of_true rfl (List.forall_mem_nil _)
  | cons receipt receipts ih =>
    rw [List.forall_mem_cons]
    rcases scan_cases receipt with hof | hover | ⟨e, hraises⟩
    · rw [scan_of_isReceiptOf hof]
      exact iff_of_false (by simp) fun h => not_passedOver_of_isReceiptOf hof h.1
    · rw [scan_of_passedOver hover, ih, and_iff_right hover]
    · rw [hraises]
      refine iff_of_false (by simp) fun h => ?_
      have hover := (scan_of_passedOver h.1 []).symm.trans (hraises [])
      cases hover

/-- It is the first receipt of the contract, and what comes before is passed over. -/
def FirstReceipt (contractAddress : Text) (receipt found : Value) : Prop :=
  ∃ before after, inOrder receipt = before ++ found :: after ∧
    (∀ r ∈ before, PassedOver contractAddress r) ∧ IsReceiptOf contractAddress found

theorem findExecutionReceipt_eq_some {receipt found : Value} :
    findExecutionReceipt contractAddress receipt = .ok (some found) ↔
      FirstReceipt contractAddress receipt found := by
  rw [findExecutionReceipt_eq_scan, scan_eq_some_iff]
  rfl

/-- **Which receipt is found**: the first of the contract, in the order of the text; and none
if all of them are of other contracts and say so. -/
theorem findExecutionReceipt_finds_first (contractAddress : Text) (receipt : Value) :
    (∀ found, findExecutionReceipt contractAddress receipt = .ok (some found) ↔
      FirstReceipt contractAddress receipt found) ∧
    (findExecutionReceipt contractAddress receipt = .ok none ↔
      ∀ r ∈ inOrder receipt, PassedOver contractAddress r) := by
  refine ⟨fun found => findExecutionReceipt_eq_some, ?_⟩
  rw [findExecutionReceipt_eq_scan, scan_eq_none_iff]

end Scan

end BlockGenerator
