import ZkevmFramework.AssignerRunner.BlockParser
import ZkevmFramework.AssignerRunner.StateParser

/-!
# Loading the answers of a node

`load_raw_block_with_messages` and `load_account_with_storage` check that the keys
they need are there, and nothing else.  They return when the accessors meet the
kinds they expect, and the conversions succeed:

    the block loads or gives an error ↔ RawConverts           (returns_loadRawBlock_iff)
    the account loads or gives an error ↔ AccountConverts     (returns_loadAccount_iff)
-/

namespace AssignerRunner

open Cpp JsonHelpers Core.Types

/-! ## What an answer has to hold -/

section Conditions

variable (ext : External)

/-- The answer is an object; if it has a result, that is an object as `body` has it. -/
def AnswerOf (body : Value → Prop) (v : Value) : Prop :=
  v.isObject = true ∧
    (v.has "result" = true → (v.field "result").isObject = true ∧ body (v.field "result"))

/-- If there is a field of this name, it is a text as `rest` has it. -/
def TextField (name : String) (rest : Text → Prop) (v : Value) : Prop :=
  v.has name = true → (v.field name).isString = true ∧ rest (cStr (v.field name).text)

/-- If there is a field of this name, it is an array as `rest` has it. -/
def ArrayField (name : String) (rest : List Value → Prop) (v : Value) : Prop :=
  v.has name = true → (v.field name).isArray = true ∧ rest (v.field name).elems

/-- If the text is hexadecimal, `read` accepts its bytes. -/
def ReadsAs {α : Type} (read : Bytes → Except Thrown α) (t : Text) : Prop :=
  ∀ bytes, decode t = some bytes → ∃ a, read bytes = .ok a

/-- An element of `inMessages`. -/
def RawItemConverts (m : Value) : Prop :=
  m.isString = true ∧ ReadsAs ext.deserializeMessage (cStr m.text)

/-- The answer with a block: what is read of it, up to the first error returned. -/
def RawConverts : Value → Prop :=
  AnswerOf fun r => TextField "content" (fun content =>
    ReadsAs ext.deserializeBlock content ∧ (Decodes content →
      ArrayField "inMessages"
        (Reached (fun m => Decodes (cStr m.text)) (RawItemConverts ext)) r)) r

/-- `intx::from_string` reads the text. -/
def IsNumber (t : Text) : Prop := ∃ value, ext.fromString t = .ok value

/-- The slot has a key and a value. -/
def HasKeyVal (s : Value) : Prop := s.has "Key" = true ∧ s.has "Val" = true

/-- An element of `storage`. -/
def SlotConverts (s : Value) : Prop :=
  s.isObject = true ∧ (HasKeyVal s →
    (s.field "Key").isString = true ∧ (s.field "Val").isString = true ∧
      IsNumber ext (cStr (s.field "Key").text) ∧ IsNumber ext (cStr (s.field "Val").text))

/-- The answer with an account: what is read of it, up to the first error returned. -/
def AccountConverts : Value → Prop :=
  AnswerOf fun r => TextField "code" (fun code => Decodes code →
    TextField "contract" (fun contract =>
      ReadsAs ext.deserializeContract contract ∧ (Decodes contract →
        ArrayField "storage" (Reached HasKeyVal (SlotConverts ext)) r)) r) r

end Conditions

/-! ## Looking for a field of the result -/

section Fields

variable {σ α : Type} {v : Value} {name message : String} {s : σ}

theorem returns_found_iff {f : Call σ α} (hobj : v.isObject = true)
    (hres : v.has "result" = true → (v.field "result").isObject = true) :
    Returns (outcome ((do
      let found ← call (resultContains v name)
      call (orMissing message found)
      f : Call σ α) s)) ↔
      (v.has "result" = true → (v.field "result").has name = true → Returns (outcome (f s))) := by
  rw [resultContains_eq hobj hres]
  by_cases hfound : (v.has "result" && (v.field "result").has name) = true
  · rw [hfound]
    rw [Bool.and_eq_true] at hfound
    show Returns (outcome (f s)) ↔ _
    simp [hfound]
  · rw [Bool.not_eq_true] at hfound
    rw [hfound]
    apply iff_of_true
    · exact returns_error _
    · intro h1 h2
      rw [h1, h2] at hfound
      cases hfound

/-- A text that is looked for and read. -/
theorem returns_textField_iff {f : Text → Call σ α} (hobj : v.isObject = true)
    (hres : v.has "result" = true → (v.field "result").isObject = true) :
    Returns (outcome ((do
      let found ← call (resultContains v name)
      call (orMissing message found)
      let t ← call (do (← (← v.atKey "result").atKey name).asCString)
      f t : Call σ α) s)) ↔
      (v.has "result" = true →
        TextField name (fun t => Returns (outcome (f t s))) (v.field "result")) := by
  rw [returns_found_iff hobj hres]
  apply forall_congr'
  intro hhas
  apply forall_congr'
  intro hname
  have hat : (do (← (← v.atKey "result").atKey name).asCString) =
      ((v.field "result").field name).asCString := by
    rw [Value.atKey_of hobj hhas, ok_bind, Value.atKey_of (hres hhas) hname, ok_bind]
  rw [hat, returns_call_bind_iff, Value.returns_asCString_iff]
  apply and_congr_right
  intro hstr
  rw [Value.asCString_of hstr]
  simp

/-- An array that is looked for and read. -/
theorem returns_arrayField_iff {f : List Value → Call σ α} (hobj : v.isObject = true)
    (hres : v.has "result" = true → (v.field "result").isObject = true) :
    Returns (outcome ((do
      let found ← call (resultContains v name)
      call (orMissing message found)
      let elems ← call (do (← (← v.atKey "result").atKey name).asArray)
      f elems : Call σ α) s)) ↔
      (v.has "result" = true →
        ArrayField name (fun elems => Returns (outcome (f elems s))) (v.field "result")) := by
  rw [returns_found_iff hobj hres]
  apply forall_congr'
  intro hhas
  apply forall_congr'
  intro hname
  have hat : (do (← (← v.atKey "result").atKey name).asArray) =
      ((v.field "result").field name).asArray := by
    rw [Value.atKey_of hobj hhas, ok_bind, Value.atKey_of (hres hhas) hname, ok_bind]
  rw [hat, returns_call_bind_iff, Value.returns_asArray_iff]
  apply and_congr_right
  intro harray
  rw [Value.asArray_of harray]
  simp

/-- Bytes that are read from a text. -/
theorem returns_extract_iff {β : Type} {read : Bytes → Except Thrown β} {label : String} {t : Text}
    {f : β → Call σ α} {P : Prop}
    (h : ∀ bytes b, decode t = some bytes → read bytes = .ok b → (Returns (outcome (f b s)) ↔ P)) :
    Returns (outcome ((do
      let bytes ← call (extractBytes label t)
      let b ← call (orThrow (read bytes))
      f b : Call σ α) s)) ↔ ReadsAs read t ∧ (Decodes t → P) := by
  unfold ReadsAs Decodes
  cases hd : decode t with
  | none =>
    rw [extractBytes_of_none hd]
    exact iff_of_true (returns_error _) (by simp)
  | some bytes =>
    rw [extractBytes_of_some hd, call_bind_ok, returns_call_bind_iff, returns_orThrow_iff]
    simp only [Option.some.injEq, forall_eq', exists_eq', forall_const]
    apply and_congr_right
    rintro ⟨b, hb⟩
    rw [hb]
    show (∀ a, Except.ok b = Except.ok a → _) ↔ _
    simp only [Except.ok.injEq, forall_eq']
    exact h bytes b hd hb

end Fields

/-! ## The block -/

section RawBlock

variable {ext : External} {m v : Value}

theorem handleRawItem_eq (hstr : m.isString = true) :
    handleRawItem ext m = (do
      let bytes ← extractBytes "Extract message bytes failed: " (cStr m.text)
      orThrow (ext.deserializeMessage bytes)) := by
  unfold handleRawItem
  rw [Value.asCString_of hstr]
  rfl

theorem returns_handleRawItem_iff : Returns (handleRawItem ext m) ↔ RawItemConverts ext m := by
  unfold RawItemConverts ReadsAs
  by_cases hstr : m.isString = true
  · rw [handleRawItem_eq hstr, and_iff_right hstr]
    cases hd : decode (cStr m.text) with
    | none =>
      rw [extractBytes_of_none hd]
      exact iff_of_true (returns_error _) (by simp)
    | some bytes =>
      rw [extractBytes_of_some hd, ok_bind, returns_orThrow_iff]
      simp
  · apply iff_of_false _ fun h => hstr h.1
    unfold handleRawItem
    rw [returns_bind_iff, Value.returns_asCString_iff]
    exact fun h => hstr h.1

theorem handleRawItem_ok_iff (h : RawItemConverts ext m) :
    (∃ message, handleRawItem ext m = .ok message) ↔ Decodes (cStr m.text) := by
  rw [handleRawItem_eq h.1]
  unfold Decodes
  cases hd : decode (cStr m.text) with
  | none =>
    rw [extractBytes_of_none hd]
    exact iff_of_false (by rintro ⟨message, hm⟩; cases hm) (by simp)
  | some bytes =>
    obtain ⟨message, hm⟩ := h.2 bytes hd
    rw [extractBytes_of_some hd, ok_bind, hm]
    exact iff_of_true ⟨message, rfl⟩ ⟨bytes, rfl⟩

/-- **When the load of a node's block returns.** -/
theorem returns_loadRawBlock_iff (blockData : Istream) (l : Loaded) :
    Returns (outcome (loadRawBlockWithMessages ext blockData l)) ↔
      Returns (parseJson ext.parser blockData) ∧
        ∀ v, parseJson ext.parser blockData = .ok v → RawConverts ext v := by
  unfold loadRawBlockWithMessages
  apply returns_parsed_iff
  intro v
  by_cases hkinds : v.isObject = true ∧ (v.has "result" = true → (v.field "result").isObject = true)
  · obtain ⟨hobj, hres⟩ := hkinds
    rw [returns_textField_iff hobj hres]
    unfold RawConverts AnswerOf
    rw [and_iff_right hobj]
    apply forall_congr'
    intro hhas
    rw [and_iff_right (hres hhas)]
    unfold TextField
    apply forall_congr'
    intro hname
    apply and_congr_right
    intro hstr
    apply returns_extract_iff
    intro bytes block _ _
    rw [modify_bind, returns_arrayField_iff hobj hres, forall_prop_of_true hhas]
    unfold ArrayField
    apply forall_congr'
    intro hmsgs
    apply and_congr_right
    intro harray
    exact returns_fill_iff _ _ _ (fun m _ => returns_handleRawItem_iff)
      fun m _ hm => handleRawItem_ok_iff hm
  · apply iff_of_false
    · rw [returns_call_bind_iff, returns_resultContains_iff]
      exact fun h => hkinds h.1
    · rintro ⟨hobj, h⟩
      exact hkinds ⟨hobj, fun hhas => (h hhas).1⟩

end RawBlock

/-! ## The account -/

section Account

variable {ext : External} {item v : Value} {t : Text} {account : Account}

theorem handleCode_of_some {bytes : Bytes} (h : decode t = some bytes) :
    handleCode t account = .ok () { account with code := account.code ++ bytes } := by
  show (call (orReturn _ (toBytes t account.code).1) : Call Account Unit)
    { account with code := (toBytes t account.code).2 } = _
  rw [toBytes_of_some h]
  rfl

theorem handleCode_of_none (h : decode t = none) :
    outcome (handleCode t account) = .error (.error
      ("Parsing get code response is failed: ".toList ++ "Hex string to bytes failed".toList)) := by
  show outcome ((call (orReturn _ (toBytes t account.code).1) : Call Account Unit)
    { account with code := (toBytes t account.code).2 }) = _
  rw [toBytes_of_none h]
  rfl

/-- The code, and what follows it. -/
theorem returns_code_iff {α : Type} {label : String} {f : Unit → Call Account α} {P : Prop}
    (h : ∀ account, Returns (outcome (f () account)) ↔ P) :
    Returns (outcome ((labelledCall label (handleCode t) >>= f) account)) ↔ (Decodes t → P) := by
  unfold Decodes
  cases hd : decode t with
  | none =>
    have herr : ∃ message, outcome (labelledCall label (handleCode t) account) =
        .error (.error message) := by
      rw [outcome_labelledCall, handleCode_of_none hd]
      exact ⟨_, rfl⟩
    obtain ⟨message, herr⟩ := herr
    rw [outcome_bind_error herr]
    exact iff_of_true (returns_error _) (by simp)
  | some bytes =>
    rw [bind_ok (labelledCall_ok (handleCode_of_some hd) label), h]
    simp

theorem returns_handleSlot_iff : Returns (handleSlot ext item) ↔ SlotConverts ext item := by
  unfold handleSlot SlotConverts
  rw [returns_bind_iff, Value.returns_asObject_iff]
  apply and_congr_right
  intro hobj
  rw [Value.asObject_of hobj]
  simp only [Except.ok.injEq, forall_eq']
  by_cases hkeys : HasKeyVal item
  · have hfound : (Object.contains item.members "Key" && Object.contains item.members "Val") = true :=
      Bool.and_eq_true_iff.mpr hkeys
    rw [hfound, forall_prop_of_true hkeys, Value.members_atKey hkeys.1, Value.members_atKey hkeys.2]
    show Returns ((item.field "Key").asCString >>= _) ↔ _
    rw [returns_bind_iff, Value.returns_asCString_iff]
    apply and_congr_right
    intro hkey
    rw [Value.asCString_of hkey]
    simp only [Except.ok.injEq, forall_eq']
    show Returns ((item.field "Val").asCString >>= _) ↔ _
    rw [returns_bind_iff, Value.returns_asCString_iff]
    apply and_congr_right
    intro hval
    rw [Value.asCString_of hval]
    simp only [Except.ok.injEq, forall_eq']
    rw [returns_bind_iff, returns_orThrow_iff]
    apply and_congr_right
    rintro ⟨key, hk⟩
    rw [hk]
    show (∀ a, Except.ok key = Except.ok a → _) ↔ _
    simp only [Except.ok.injEq, forall_eq']
    rw [returns_bind_iff, returns_orThrow_iff]
    apply and_iff_left
    exact fun value _ => returns_ok _
  · have hfound : (Object.contains item.members "Key" && Object.contains item.members "Val") = false := by
      rw [← Bool.not_eq_true, Bool.and_eq_true]
      exact hkeys
    rw [hfound]
    exact iff_of_true (returns_error _) fun h => absurd h hkeys

theorem handleSlot_ok_iff (h : SlotConverts ext item) :
    (∃ slot, handleSlot ext item = .ok slot) ↔ HasKeyVal item := by
  unfold handleSlot
  rw [Value.asObject_of h.1, ok_bind]
  by_cases hkeys : HasKeyVal item
  · have hfound : (Object.contains item.members "Key" && Object.contains item.members "Val") = true :=
      Bool.and_eq_true_iff.mpr hkeys
    obtain ⟨hkey, hval, ⟨key, hk⟩, value, hv⟩ := h.2 hkeys
    rw [hfound, Value.members_atKey hkeys.1, Value.members_atKey hkeys.2]
    apply iff_of_true _ hkeys
    refine ⟨(toUint256be key, toUint256be value), ?_⟩
    show ((item.field "Key").asCString >>= _) = _
    rw [Value.asCString_of hkey, ok_bind]
    show ((item.field "Val").asCString >>= _) = _
    rw [Value.asCString_of hval, ok_bind, hk, hv]
    rfl
  · have hfound : (Object.contains item.members "Key" && Object.contains item.members "Val") = false := by
      rw [← Bool.not_eq_true, Bool.and_eq_true]
      exact hkeys
    rw [hfound]
    apply iff_of_false _ hkeys
    rintro ⟨slot, hs⟩
    cases hs

theorem returns_handleStorage_iff (elems : List Value) :
    Returns (outcome (handleStorage ext elems account)) ↔
      Reached HasKeyVal (SlotConverts ext) elems :=
  returns_fill_iff _ _ _ (fun _ _ => returns_handleSlot_iff) fun _ _ h => handleSlot_ok_iff h

theorem handleAccount_of_none (h : decode t = none) :
    outcome (handleAccount ext t account) = .error (.error
      ("Parse contract failed: \n\t".toList ++ "Hex string to bytes failed".toList)) := by
  unfold handleAccount
  rw [extractBytes_of_none h]
  rfl

theorem handleAccount_of_some {bytes : Bytes} {contract : SmartContract} (h : decode t = some bytes)
    (hc : ext.deserializeContract bytes = .ok contract) :
    handleAccount ext t account = .ok (toEvmcAddress contract.address)
      { account with balance := toUint256be contract.balance } := by
  unfold handleAccount
  rw [extractBytes_of_some h, call_bind_ok, hc]
  rfl

/-- The contract, and what follows it. -/
theorem returns_contract_iff {α : Type} {label : String} {f : EvmcAddress → Call Account α} {P : Prop}
    (h : ∀ address account, Returns (outcome (f address account)) ↔ P) :
    Returns (outcome ((labelledCall label (handleAccount ext t) >>= f) account)) ↔
      ReadsAs ext.deserializeContract t ∧ (Decodes t → P) := by
  unfold ReadsAs Decodes
  cases hd : decode t with
  | none =>
    have herr : ∃ message, outcome (labelledCall label (handleAccount ext t) account) =
        .error (.error message) := by
      rw [outcome_labelledCall, handleAccount_of_none hd]
      exact ⟨_, rfl⟩
    obtain ⟨message, herr⟩ := herr
    rw [outcome_bind_error herr]
    exact iff_of_true (returns_error _) (by simp)
  | some bytes =>
    simp only [Option.some.injEq, forall_eq', exists_eq', forall_const]
    cases hc : ext.deserializeContract bytes with
    | error e =>
      have herr : outcome (labelledCall label (handleAccount ext t) account) = .error (.throws e) := by
        unfold handleAccount
        rw [outcome_labelledCall, extractBytes_of_some hd, call_bind_ok, hc]
        rfl
      rw [outcome_bind_error herr]
      exact iff_of_false (not_returns_throws e) (by simp)
    | ok contract =>
      rw [bind_ok (labelledCall_ok (handleAccount_of_some hd hc) label), h]
      simp

/-- **When the load of a node's account returns.** -/
theorem returns_loadAccount_iff (accountData : Istream) (account : Account) :
    Returns (outcome (loadAccountWithStorage ext accountData account)) ↔
      Returns (parseJson ext.parser accountData) ∧
        ∀ v, parseJson ext.parser accountData = .ok v → AccountConverts ext v := by
  unfold loadAccountWithStorage
  apply returns_parsed_iff
  intro v
  by_cases hkinds : v.isObject = true ∧ (v.has "result" = true → (v.field "result").isObject = true)
  · obtain ⟨hobj, hres⟩ := hkinds
    rw [returns_textField_iff hobj hres]
    unfold AccountConverts AnswerOf
    rw [and_iff_right hobj]
    apply forall_congr'
    intro hhas
    rw [and_iff_right (hres hhas)]
    unfold TextField
    apply forall_congr'
    intro hcode
    apply and_congr_right
    intro hstr
    apply returns_code_iff
    intro account
    rw [returns_textField_iff hobj hres, forall_prop_of_true hhas]
    unfold TextField
    apply forall_congr'
    intro hcontract
    apply and_congr_right
    intro hstr'
    apply returns_contract_iff
    intro address account
    rw [returns_arrayField_iff hobj hres, forall_prop_of_true hhas]
    unfold ArrayField
    apply forall_congr'
    intro hstorage
    apply and_congr_right
    intro harray
    show Returns (outcome (labelledCall _ (handleStorage ext _) account)) ↔ _
    rw [outcome_labelledCall, returns_labelled_iff, returns_handleStorage_iff]
  · apply iff_of_false
    · rw [returns_call_bind_iff, returns_resultContains_iff]
      exact fun h => hkinds h.1
    · rintro ⟨hobj, h⟩
      exact hkinds ⟨hobj, fun hhas => (h hhas).1⟩

end Account

end AssignerRunner
