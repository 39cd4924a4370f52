import ZkevmFramework.AssignerRunner.Answers

/-!
# Loading a state file

What `init_account_storage` does on a file that satisfies the schema: the code and
the contract of an account may fail to decode, which is returned as an error; an
SSZ that is rejected, or a number of a slot that does not fit, is thrown
(`returns_initAccountStorage_iff`).
-/

namespace AssignerRunner

open Cpp JsonHelpers Core.Types

/-! ## Documents that satisfy the schema -/

section Shape

variable {v a s : Value}

/-- What the schema says of a slot. -/
structure SlotShape (s : Value) : Prop where
  isObject : s.isObject = true
  key : HexField isHex s "Key"
  val : DecimalField s "Val"

/-- What the schema says of an account. -/
structure AccountShape (a : Value) : Prop where
  isObject : a.isObject = true
  code : HexField isLowerHex a "code"
  contract : HexField isHex a "contract"
  hasStorage : a.has "storage" = true
  isArray : (a.field "storage").isArray = true
  slots : ∀ s ∈ (a.field "storage").elems, SlotShape s

/-- What the schema says of the file. -/
structure StateShape (v : Value) : Prop where
  isObject : v.isObject = true
  hasAccounts : v.has "accounts" = true
  isArray : (v.field "accounts").isArray = true
  accounts : ∀ a ∈ (v.field "accounts").elems, AccountShape a

theorem slotShape_of (h : slotSchema s = true) : SlotShape s := by
  have hkey : s.has "Key" = true ∧ Schema.string ⟨"0x", isHex⟩ 4 (some 66) (s.field "Key") = true :=
    Schema.object_field h (by simp) (by simp)
  have hval : s.has "Val" = true ∧ Schema.string ⟨"", isDigit⟩ 0 none (s.field "Val") = true :=
    Schema.object_field h (by simp) (by simp)
  exact ⟨Schema.object_isObject h, hexField_of hkey, decimalField_of hval⟩

theorem accountShape_of (h : accountSchema a = true) : AccountShape a := by
  have hcode : a.has "code" = true ∧
      Schema.string ⟨"0x", isLowerHex⟩ 0 none (a.field "code") = true :=
    Schema.object_field h (by simp) (by simp)
  have hcontract : a.has "contract" = true ∧
      Schema.string ⟨"0x", isHex⟩ 0 none (a.field "contract") = true :=
    Schema.object_field h (by simp) (by simp)
  have hstorage : a.has "storage" = true ∧ Schema.array slotSchema (a.field "storage") = true :=
    Schema.object_field h (by simp) (by simp)
  obtain ⟨harray, hslots⟩ := Schema.array_iff.mp hstorage.2
  exact
    { isObject := Schema.object_isObject h
      code := hexField_of hcode
      contract := hexField_of hcontract
      hasStorage := hstorage.1
      isArray := harray
      slots := fun s hs => slotShape_of (hslots s hs) }

theorem stateShape_of {same : Value → Value → Bool} (h : stateSchema same v = true) :
    StateShape v := by
  have haccounts : v.has "accounts" = true ∧
      Schema.uniqueItems same (Schema.array accountSchema) (v.field "accounts") = true :=
    Schema.object_field h (by simp) (by simp)
  obtain ⟨harray, hitems⟩ := Schema.array_iff.mp (Schema.of_uniqueItems haccounts.2)
  exact
    { isObject := Schema.object_isObject h
      hasAccounts := haccounts.1
      isArray := harray
      accounts := fun a ha => accountShape_of (hitems a ha) }

end Shape

/-! ## What a file has to hold -/

section Conditions

variable (ext : External)

/-- Code and contract have an even number of digits. -/
def EvenAccount (a : Value) : Prop :=
  digitCount (a.field "code").text % 2 = 0 ∧ digitCount (a.field "contract").text % 2 = 0

/-- Key and value are numbers. -/
def SlotFits (s : Value) : Prop :=
  IsNumber ext (s.field "Key").text ∧ IsNumber ext (s.field "Val").text

/-- The contract is accepted and the slots fit, where code and contract decode. -/
def AccountFits (a : Value) : Prop :=
  EvenAccount a →
    ReadsAs ext.deserializeContract (a.field "contract").text ∧
      ∀ s ∈ (a.field "storage").elems, SlotFits ext s

/-- The file converts up to its end, or to an account that does not decode. -/
def StateConverts (v : Value) : Prop :=
  Reached EvenAccount (AccountFits ext) (v.field "accounts").elems

/-- The stream holds a document that satisfies the schema. -/
structure ValidState (config : Istream) (v : Value) : Prop where
  parses : parseJson ext.parser config = .ok v
  valid : stateSchema ext.validator.same v = true

end Conditions

/-! ## One account -/

section Item

variable {ext : External} {a : Value}

theorem slotConverts_iff {s : Value} (h : SlotShape s) : SlotConverts ext s ↔ SlotFits ext s := by
  have hkeys : HasKeyVal s := ⟨h.key.has, h.val.has⟩
  unfold SlotConverts SlotFits
  rw [and_iff_right h.isObject, forall_prop_of_true hkeys, and_iff_right h.key.isString,
    and_iff_right h.val.isString, h.key.cStr_text fun c hc => hc, cStr_of_digits h.val.digits]

theorem reached_slots_iff {slots : List Value} (h : ∀ s ∈ slots, SlotShape s) :
    Reached HasKeyVal (SlotConverts ext) slots ↔ ∀ s ∈ slots, SlotFits ext s := by
  induction slots with
  | nil => simp [Reached]
  | cons s slots ih =>
    rw [List.forall_mem_cons] at h ⊢
    have hkeys : HasKeyVal s := ⟨h.1.key.has, h.1.val.has⟩
    unfold Reached
    rw [slotConverts_iff h.1, forall_prop_of_true hkeys, ih h.2]

/-- The handlers, on an account that satisfies the schema. -/
theorem fillAccount_eq (h : AccountShape a) (account : Account) :
    fillAccount ext a account = (do
      labelledCall "Parse code failed: \n\t" (handleCode (a.field "code").text)
      let address ←
        labelledCall "Parse account failed: \n\t" (handleAccount ext (a.field "contract").text)
      labelledCall "Parse storage failed: \n\t" (handleStorage ext (a.field "storage").elems)
      return address : Call Account EvmcAddress) account := by
  unfold fillAccount
  rw [Value.asObject_of h.isObject, call_bind_ok, Value.members_atKey h.code.has,
    Value.members_atKey h.contract.has, Value.members_atKey h.hasStorage]
  simp only [ok_bind]
  rw [Value.asCString_of h.code.isString, h.code.cStr_text fun c hc => isHex_of_lower hc,
    Value.asCString_of h.contract.isString, h.contract.cStr_text fun c hc => hc,
    Value.asArray_of h.isArray]
  rfl

theorem returns_handleAccountItem_iff (h : AccountShape a) :
    Returns (handleAccountItem ext a) ↔ AccountFits ext a := by
  have houtcome : Returns (handleAccountItem ext a) ↔
      Returns (outcome (fillAccount ext a Account.declared)) := by
    unfold handleAccountItem
    cases fillAccount ext a Account.declared with
    | ok address account => exact iff_of_true (returns_ok _) (returns_ok _)
    | error e account => cases e <;> simp [Returns, outcome]
  rw [houtcome, fillAccount_eq h]
  unfold AccountFits EvenAccount
  rw [← h.code.decodes_iff fun c hc => isHex_of_lower hc, ← h.contract.decodes_iff fun c hc => hc,
    returns_code_iff (P := ReadsAs ext.deserializeContract (a.field "contract").text ∧
      (Decodes (a.field "contract").text → ∀ s ∈ (a.field "storage").elems, SlotFits ext s))]
  · by_cases hcontract : Decodes (a.field "contract").text
    · simp [hcontract]
    · have hreads : ReadsAs ext.deserializeContract (a.field "contract").text :=
        fun bytes hbytes => absurd ⟨bytes, hbytes⟩ hcontract
      simp [hcontract, hreads]
  · intro account
    apply returns_contract_iff
    intro address account
    rw [returns_seq_iff, outcome_labelledCall, returns_labelled_iff, returns_handleStorage_iff,
      reached_slots_iff h.slots]
    apply and_iff_left
    exact fun _ _ _ => returns_ok _

theorem handleStorage_ok {slots : List Value} (h : ∀ s ∈ slots, SlotShape s)
    (hfits : ∀ s ∈ slots, SlotFits ext s) (account : Account) :
    ∃ account', handleStorage ext slots account = .ok () account' := by
  have hok : outcome (handleStorage ext slots account) = .ok () := by
    apply (fill_ok_iff _ _ _ _).mpr
    intro s hs
    exact (handleSlot_ok_iff ((slotConverts_iff (h s hs)).mpr (hfits s hs))).mpr
      ⟨(h s hs).key.has, (h s hs).val.has⟩
  cases hrun : handleStorage ext slots account with
  | ok _ account' => exact ⟨account', rfl⟩
  | error e account' =>
    rw [hrun] at hok
    cases hok

/-- An account that does not decode is not stored. -/
theorem fillAccount_odd (h : AccountShape a) (hodd : ¬ EvenAccount a) (account : Account) :
    ∃ e, outcome (fillAccount ext a account) = .error e := by
  unfold EvenAccount at hodd
  rw [← h.code.decodes_iff fun c hc => isHex_of_lower hc,
    ← h.contract.decodes_iff fun c hc => hc] at hodd
  rw [fillAccount_eq h]
  cases hcode : decode (a.field "code").text with
  | none =>
    have herr : outcome (handleCode (a.field "code").text account) = .error (.error _) :=
      handleCode_of_none hcode
    exact ⟨_, outcome_bind_error (by rw [outcome_labelledCall, herr]; rfl) _⟩
  | some code =>
    rw [bind_ok (labelledCall_ok (handleCode_of_some hcode) _)]
    cases hcontract : decode (a.field "contract").text with
    | none =>
      exact ⟨_, outcome_bind_error
        (by rw [outcome_labelledCall, handleAccount_of_none hcontract]; rfl) _⟩
    | some bytes => exact absurd ⟨⟨code, hcode⟩, bytes, hcontract⟩ hodd

theorem handleAccountItem_ok_iff (h : AccountShape a) (hfits : AccountFits ext a) :
    (∃ entry, handleAccountItem ext a = .ok entry) ↔ EvenAccount a := by
  unfold handleAccountItem
  constructor
  · rintro ⟨entry, hok⟩
    by_contra hodd
    obtain ⟨e, he⟩ := fillAccount_odd h hodd Account.declared
    cases hrun : fillAccount ext a Account.declared with
    | ok address account =>
      rw [hrun] at he
      cases he
    | error e' account =>
      rw [hrun] at hok
      cases hok
  · intro heven
    rw [fillAccount_eq h]
    obtain ⟨hreads, hslots⟩ := hfits heven
    obtain ⟨code, hcode⟩ := (h.code.decodes_iff fun c hc => isHex_of_lower hc).mpr heven.1
    obtain ⟨bytes, hbytes⟩ := (h.contract.decodes_iff fun c hc => hc).mpr heven.2
    obtain ⟨contract, hcontract⟩ := hreads bytes hbytes
    rw [bind_ok (labelledCall_ok (handleCode_of_some hcode) _),
      bind_ok (labelledCall_ok (handleAccount_of_some hbytes hcontract) _)]
    obtain ⟨account, hstorage⟩ := handleStorage_ok h.slots hslots _
    rw [bind_ok (labelledCall_ok hstorage _)]
    exact ⟨_, rfl⟩

end Item

/-! ## The whole file -/

section File

variable {ext : External} {config : Istream} {v : Value}

/-- **When the load of a state file returns.** -/
theorem returns_initAccountStorage_iff (accounts : Accounts) :
    Returns (outcome (initAccountStorage ext config accounts)) ↔
      Returns (parseJson ext.parser config) ∧ ∀ v, parseJson ext.parser config = .ok v →
        stateSchema ext.validator.same v = true → StateConverts ext v := by
  unfold initAccountStorage
  apply returns_validated_iff
  intro v hvalid
  have h := stateShape_of hvalid
  rw [Value.asObject_of h.isObject, ok_bind, Value.members_atKey h.hasAccounts, ok_bind,
    Value.asArray_of h.isArray, call_bind_ok]
  exact returns_fill_iff _ _ _ (fun a ha => returns_handleAccountItem_iff (h.accounts a ha))
    fun a ha hfits => handleAccountItem_ok_iff (h.accounts a ha) hfits

end File

end AssignerRunner
