import ZkevmFramework.AssignerRunner.StateEntries
import ZkevmFramework.AssignerRunner.Loaders
import ZkevmFramework.JsonHelpers.Chunks

/-!
# What is loaded from an answer

No schema stands before the answers of a node; a text in them ends at its first
NUL, and keys that are not read may hold anything.

    an account is loaded ↔ code, contract and slots decode         (loadAccount_eq_ok_iff)
    a block is loaded    ↔ the block and every message decode      (loadRawBlock_eq_ok_iff)

Of the contract only the balance is kept: the address in it is not compared with
the one that was asked for.
-/

namespace AssignerRunner

open Cpp JsonHelpers Core.Types

/-! ## Reading a field of the result -/

section Fields

variable {σ α : Type} {v : Value} {name message : String} {s s' : σ} {a : α}

/-- The document is an object with a result, an object that has the field. -/
structure InResult (v : Value) (name : String) : Prop where
  isObject : v.isObject = true
  hasResult : v.has "result" = true
  result : (v.field "result").isObject = true
  has : (v.field "result").has name = true

theorem resultContains_eq_true_iff : resultContains v name = .ok true ↔ InResult v name := by
  constructor
  · intro h
    obtain ⟨hobj, hres⟩ := returns_resultContains_iff.mp (Or.inl ⟨true, h⟩)
    rw [resultContains_eq hobj hres, Except.ok.injEq, Bool.and_eq_true] at h
    exact ⟨hobj, h.1, hres h.1, h.2⟩
  · intro h
    rw [resultContains_eq h.isObject fun _ => h.result, h.hasResult, h.has]
    rfl

theorem InResult.atKey (h : InResult v name) :
    (do (← v.atKey "result").atKey name) = .ok ((v.field "result").field name) := by
  rw [Value.atKey_of h.isObject h.hasResult, ok_bind, Value.atKey_of h.result h.has]

/-- What is looked for in the result, and found. -/
theorem found_eq_ok_iff {f : Call σ α} :
    (do
      let found ← call (resultContains v name)
      call (orMissing message found)
      f : Call σ α) s = .ok a s' ↔ InResult v name ∧ f s = .ok a s' := by
  rw [call_bind_eq_ok_iff, ← resultContains_eq_true_iff]
  constructor
  · rintro ⟨found, hfound, h⟩
    obtain ⟨_, hok, h⟩ := call_bind_eq_ok_iff.mp h
    rw [orMissing_ok_iff] at hok
    subst hok
    exact ⟨hfound, h⟩
  · rintro ⟨hfound, h⟩
    exact ⟨true, hfound, h⟩

/-- A text of the result. -/
theorem textField_eq_ok_iff {f : Text → Call σ α} :
    (do
      let found ← call (resultContains v name)
      call (orMissing message found)
      let t ← call (do (← (← v.atKey "result").atKey name).asCString)
      f t : Call σ α) s = .ok a s' ↔
      InResult v name ∧ ((v.field "result").field name).isString = true ∧
        f (cStr ((v.field "result").field name).text) s = .ok a s' := by
  rw [found_eq_ok_iff]
  apply and_congr_right
  intro hin
  have hat : (do (← (← v.atKey "result").atKey name).asCString) =
      ((v.field "result").field name).asCString := by
    rw [← bind_assoc, hin.atKey, ok_bind]
  rw [hat, call_bind_eq_ok_iff]
  constructor
  · rintro ⟨t, ht, h⟩
    have hstr := Value.returns_asCString_iff.mp (Or.inl ⟨t, ht⟩)
    rw [Value.asCString_of hstr, Except.ok.injEq] at ht
    exact ⟨hstr, ht ▸ h⟩
  · rintro ⟨hstr, h⟩
    exact ⟨_, Value.asCString_of hstr, h⟩

/-- An array of the result. -/
theorem arrayField_eq_ok_iff {f : List Value → Call σ α} :
    (do
      let found ← call (resultContains v name)
      call (orMissing message found)
      let elems ← call (do (← (← v.atKey "result").atKey name).asArray)
      f elems : Call σ α) s = .ok a s' ↔
      InResult v name ∧ ((v.field "result").field name).isArray = true ∧
        f ((v.field "result").field name).elems s = .ok a s' := by
  rw [found_eq_ok_iff]
  apply and_congr_right
  intro hin
  have hat : (do (← (← v.atKey "result").atKey name).asArray) =
      ((v.field "result").field name).asArray := by
    rw [← bind_assoc, hin.atKey, ok_bind]
  rw [hat, call_bind_eq_ok_iff]
  constructor
  · rintro ⟨l, hl, h⟩
    have harray := Value.returns_asArray_iff.mp (Or.inl ⟨l, hl⟩)
    rw [Value.asArray_of harray, Except.ok.injEq] at hl
    exact ⟨harray, hl ▸ h⟩
  · rintro ⟨harray, h⟩
    exact ⟨_, Value.asArray_of harray, h⟩

/-- Bytes that are read from a text. -/
theorem extract_eq_ok_iff {β : Type} {read : Bytes → Except Thrown β} {label : String} {t : Text}
    {f : β → Call σ α} :
    (do
      let bytes ← call (extractBytes label t)
      let b ← call (orThrow (read bytes))
      f b : Call σ α) s = .ok a s' ↔
      ∃ bytes b, decode t = some bytes ∧ read bytes = .ok b ∧ f b s = .ok a s' := by
  simp only [call_bind_eq_ok_iff, extractBytes_ok_iff, orThrow_ok_iff]
  apply exists_congr
  intro bytes
  constructor
  · rintro ⟨hbytes, b, hb, h⟩
    exact ⟨b, hbytes, hb, h⟩
  · rintro ⟨b, hbytes, hb, h⟩
    exact ⟨hbytes, b, hb, h⟩

end Fields

/-! ## The account -/

section Account

variable (ext : External)

/-- The key and the value of one element of `storage`. -/
structure AnsweredSlot (s : Value) (slot : Bytes32 × Bytes32) : Prop where
  isObject : s.isObject = true
  hasKeyVal : HasKeyVal s
  key : (s.field "Key").isString = true
  val : (s.field "Val").isString = true
  decoded : ∃ key value, ext.fromString (cStr (s.field "Key").text) = .ok key ∧
    ext.fromString (cStr (s.field "Val").text) = .ok value ∧
      slot = (toUint256be key, toUint256be value)

/-- The answer says what the entry says. -/
structure AnsweredAccount (v : Value) (e : Entry) : Prop where
  hasCode : InResult v "code"
  isString : ((v.field "result").field "code").isString = true
  code : decode (cStr ((v.field "result").field "code").text) = some e.code
  hasContract : InResult v "contract"
  contractIsString : ((v.field "result").field "contract").isString = true
  contract : ∃ bytes contract,
    decode (cStr ((v.field "result").field "contract").text) = some bytes ∧
      ext.deserializeContract bytes = .ok contract ∧
        e.address = toEvmcAddress contract.address ∧ e.balance = toUint256be contract.balance
  hasStorage : InResult v "storage"
  isArray : ((v.field "result").field "storage").isArray = true
  slots : List.Forall₂ (AnsweredSlot ext) ((v.field "result").field "storage").elems e.slots

/-- The entry, read into an account: the code is appended, and a slot that is there stays. -/
def Entry.onto (e : Entry) (account : Account) : Account :=
  ⟨e.balance, account.code ++ e.code, e.slots.foldl KeyedMap.keepFirst account.storage⟩

variable {ext} {s v : Value} {account account' : Account}

theorem handleSlot_of (hobj : s.isObject = true) (hkeys : HasKeyVal s)
    (hkey : (s.field "Key").isString = true) (hval : (s.field "Val").isString = true) :
    handleSlot ext s = (do
      let key ← orThrow (ext.fromString (cStr (s.field "Key").text))
      let value ← orThrow (ext.fromString (cStr (s.field "Val").text))
      return (toUint256be key, toUint256be value)) := by
  have hfound : (Object.contains s.members "Key" && Object.contains s.members "Val") = true :=
    Bool.and_eq_true_iff.mpr hkeys
  unfold handleSlot
  rw [Value.asObject_of hobj, ok_bind, hfound, Value.members_atKey hkeys.1,
    Value.members_atKey hkeys.2]
  show ((s.field "Key").asCString >>= _) = _
  rw [Value.asCString_of hkey, ok_bind]
  show ((s.field "Val").asCString >>= _) = _
  rw [Value.asCString_of hval, ok_bind]

theorem handleSlot_ok_iff_answered (slot : Bytes32 × Bytes32) :
    handleSlot ext s = .ok slot ↔ AnsweredSlot ext s slot := by
  constructor
  · intro h
    have hconv := returns_handleSlot_iff.mp (Or.inl ⟨slot, h⟩)
    have hkeys := (handleSlot_ok_iff hconv).mp ⟨slot, h⟩
    obtain ⟨hkey, hval, ⟨key, hk⟩, value, hv⟩ := hconv.2 hkeys
    rw [handleSlot_of hconv.1 hkeys hkey hval, hk, hv] at h
    have h : Except.ok (toUint256be key, toUint256be value) = Except.ok slot := h
    exact ⟨hconv.1, hkeys, hkey, hval, key, value, hk, hv, (Except.ok.inj h).symm⟩
  · intro h
    obtain ⟨key, value, hk, hv, rfl⟩ := h.decoded
    rw [handleSlot_of h.isObject h.hasKeyVal h.key h.val, hk, hv]
    rfl

theorem handleStorage_ok_iff_answered {slots : List Value} {u : Unit} :
    handleStorage ext slots account = .ok u account' ↔
      ∃ l, List.Forall₂ (AnsweredSlot ext) slots l ∧
        account' = { account with storage := l.foldl KeyedMap.keepFirst account.storage } := by
  unfold handleStorage
  rw [fill_eq_ok_iff]
  simp only [handleSlot_ok_iff_answered, emplace_foldl]

/-- **What is loaded of an account that the node answers with.** -/
theorem loadAccount_eq_ok_iff (accountData : Istream) (account account' : Account) :
    loadAccountWithStorage ext accountData account = .ok () account' ↔
      ∃ v e, parseJson ext.parser accountData = .ok v ∧ AnsweredAccount ext v e ∧
        account' = e.onto account := by
  unfold loadAccountWithStorage
  rw [call_bind_eq_ok_iff]
  apply exists_congr
  intro v
  rw [labelled_eq_ok_iff, textField_eq_ok_iff]
  simp only [labelledCall_bind_eq_ok_iff, handleCode_eq_ok_iff, textField_eq_ok_iff,
    handleAccount_eq_ok_iff, arrayField_eq_ok_iff, labelledCall_eq_ok_iff,
    handleStorage_ok_iff_answered]
  constructor
  · rintro ⟨hparse, hcode, hstring, -, -, ⟨code, hdecode, rfl⟩, hcontract, hstring', address, -,
      ⟨bytes, contract, hbytes, hread, rfl, rfl⟩, hstorage, harray, slots, hslots, rfl⟩
    exact ⟨⟨toEvmcAddress contract.address, toUint256be contract.balance, code, slots⟩, hparse,
      ⟨hcode, hstring, hdecode, hcontract, hstring', ⟨bytes, contract, hbytes, hread, rfl, rfl⟩,
        hstorage, harray, hslots⟩, rfl⟩
  · rintro ⟨e, hparse, h, rfl⟩
    obtain ⟨bytes, contract, hbytes, hread, haddress, hbalance⟩ := h.contract
    refine ⟨hparse, h.hasCode, h.isString, (), _, ⟨e.code, h.code, rfl⟩, h.hasContract,
      h.contractIsString, e.address, _, ⟨bytes, contract, hbytes, hread, haddress, rfl⟩,
      h.hasStorage, h.isArray, e.slots, h.slots, ?_⟩
    rw [← hbalance]
    rfl

/-- Against the schema an answer says what an element of a state file says. -/
theorem answeredAccount_iff_decoded (h : AccountShape (v.field "result")) (hobj : v.isObject = true)
    (hres : v.has "result" = true) (e : Entry) :
    AnsweredAccount ext v e ↔ Decoded ext (v.field "result") e := by
  have hcode := h.code.cStr_text fun c hc => isHex_of_lower hc
  have hcontract := h.contract.cStr_text fun c hc => hc
  have hslots : List.Forall₂ (AnsweredSlot ext) ((v.field "result").field "storage").elems e.slots ↔
      List.Forall₂ (DecodedSlot ext) ((v.field "result").field "storage").elems e.slots := by
    apply forall₂_congr_mem
    intro s hs slot
    rw [← handleSlot_ok_iff_answered, handleSlot_eq_ok_iff (h.slots s hs)]
  constructor
  · intro ha
    refine ⟨?_, ?_, hslots.mp ha.slots⟩
    · rw [← hcode]
      exact ha.code
    · rw [← hcontract]
      exact ha.contract
  · intro hd
    have hin : ∀ {name}, (v.field "result").has name = true → InResult v name :=
      fun hname => ⟨hobj, hres, h.isObject, hname⟩
    exact
      { hasCode := hin h.code.has
        isString := h.code.isString
        code := by rw [hcode]; exact hd.code
        hasContract := hin h.contract.has
        contractIsString := h.contract.isString
        contract := by rw [hcontract]; exact hd.contract
        hasStorage := hin h.hasStorage
        isArray := h.isArray
        slots := hslots.mpr hd.slots }

/-- What is loaded of a state file that keeps one answer. -/
theorem initAccountStorage_kept_iff {config : Istream} {file : Value} (hobj : v.isObject = true)
    (hres : v.has "result" = true) (hfile : ValidState ext config file)
    (hkept : (file.field "accounts").elems = [v.field "result"]) (accounts : Accounts) :
    initAccountStorage ext config (fun _ => none) = .ok () accounts ↔
      ∃ e, AnsweredAccount ext v e ∧
        accounts = Accounts.assign (fun _ => none) (e.address, e.account) := by
  have hshapes := (stateShape_of hfile.valid).accounts
  have hshape : AccountShape (v.field "result") := by
    apply hshapes
    rw [hkept]
    exact List.mem_singleton_self _
  simp only [initAccountStorage_valid hfile, storeAccounts_eq_ok_iff hshapes]
  simp only [hkept, List.forall₂_cons_left_iff, List.forall₂_nil_left_iff]
  constructor
  · rintro ⟨_, ⟨e, _, he, rfl, rfl⟩, rfl⟩
    exact ⟨e, (answeredAccount_iff_decoded hshape hobj hres e).mpr he, rfl⟩
  · rintro ⟨e, he, rfl⟩
    exact ⟨[e], ⟨e, [], (answeredAccount_iff_decoded hshape hobj hres e).mp he, rfl, rfl⟩, rfl⟩

theorem Accounts.assign_inj {address address' : EvmcAddress} {account account' : Account}
    (h : Accounts.assign (fun _ => none) (address, account) =
      Accounts.assign (fun _ => none) (address', account')) : account = account' := by
  have hat := congrFun h address
  rw [Accounts.assign, Accounts.assign, Function.update_self, Function.update_apply] at hat
  split at hat
  · exact Option.some.inj hat
  · cases hat

/-- **An answer that is kept as a state file is loaded as the same account from there**, and
the file is loaded only where the answer is. -/
theorem answer_as_file {accountData config : Istream} {file : Value}
    (hparse : parseJson ext.parser accountData = .ok v) (hobj : v.isObject = true)
    (hres : v.has "result" = true) (hfile : ValidState ext config file)
    (hkept : (file.field "accounts").elems = [v.field "result"]) :
    (∀ account, loadAccountWithStorage ext accountData Account.declared = .ok () account ↔
      ∃ address, initAccountStorage ext config (fun _ => none) =
        .ok () (Accounts.assign (fun _ => none) (address, account))) ∧
    ∀ accounts, initAccountStorage ext config (fun _ => none) = .ok () accounts →
      ∃ address account, loadAccountWithStorage ext accountData Account.declared = .ok () account ∧
        accounts = Accounts.assign (fun _ => none) (address, account) := by
  simp only [initAccountStorage_kept_iff hobj hres hfile hkept, loadAccount_eq_ok_iff, hparse,
    Except.ok.injEq]
  refine ⟨fun account => ⟨?_, ?_⟩, ?_⟩
  · rintro ⟨_, e, rfl, he, rfl⟩
    exact ⟨e.address, e, he, rfl⟩
  · rintro ⟨address, e, he, hmap⟩
    exact ⟨v, e, rfl, he, Accounts.assign_inj hmap⟩
  · rintro _ ⟨e, he, rfl⟩
    exact ⟨e.address, e.account, ⟨v, e, rfl, he, rfl⟩, rfl⟩

/-- What a parser makes of two texts. -/
def parserOfTwo (text text' : Bytes) (v v' : Value) : StreamParser where
  State := Bytes
  init := []
  write p bytes := .ok (p ++ bytes)
  finish p := if p = text then .ok v else if p = text' then .ok v'
    else .error "incomplete JSON".toList

theorem parseJson_parserOfTwo {text text' data : Bytes} {v v' w : Value}
    (hnul : ∀ b ∈ data, b ≠ 0) (hfinish : (parserOfTwo text text' v v').finish data = .ok w) :
    parseJson (parserOfTwo text text' v v') { data := data } = .ok w := by
  have hconcat : (parserOfTwo text text' v v').Concatenates := by
    intro p a b
    exact congrArg Except.ok (List.append_assoc p a b).symm
  rw [parseJson_readable hconcat, kept_eq data hnul]
  show ended ((parserOfTwo text text' v v').finish data) = _
  rw [hfinish]
  rfl

theorem parseJson_first {text : Bytes} (hnul : ∀ b ∈ text, b ≠ 0) (text' : Bytes) (v v' : Value) :
    parseJson (parserOfTwo text text' v v') { data := text } = .ok v :=
  parseJson_parserOfTwo hnul (if_pos rfl)

theorem parseJson_second {text text' : Bytes} (hnul : ∀ b ∈ text', b ≠ 0) (hne : text' ≠ text)
    (v v' : Value) : parseJson (parserOfTwo text text' v v') { data := text' } = .ok v' :=
  parseJson_parserOfTwo hnul ((if_neg hne).trans (if_pos rfl))

/-- An element of a state file as the answer of a node. -/
def answerOf (el : Element) : Value := .object [("result".toList, el.doc zeroContract)]

def answerJson (el : Element) : Bytes := ascii "\x7b\"result\":" ++ el.json ++ ascii "\x7d"

def oneSlot : Element := ⟨"0x60", [0x60], [("0x01", "2")], [(1, 2)]⟩

def oneSlotLibraries : External :=
  { stateLibraries [] .null with
    parser := parserOfTwo (answerJson oneSlot) (stateJson [oneSlot]) (answerOf oneSlot)
      (stateDoc [oneSlot]) }

theorem answer_as_file_one_slot :
    (∀ account, loadAccountWithStorage oneSlotLibraries { data := answerJson oneSlot }
        Account.declared = .ok () account ↔
      ∃ address, initAccountStorage oneSlotLibraries { data := stateJson [oneSlot] }
        (fun _ => none) = .ok () (Accounts.assign (fun _ => none) (address, account))) ∧
    ∀ accounts, initAccountStorage oneSlotLibraries { data := stateJson [oneSlot] }
        (fun _ => none) = .ok () accounts →
      ∃ address account, loadAccountWithStorage oneSlotLibraries { data := answerJson oneSlot }
          Account.declared = .ok () account ∧
        accounts = Accounts.assign (fun _ => none) (address, account) := by
  have hanswer : parseJson oneSlotLibraries.parser { data := answerJson oneSlot } =
      .ok (answerOf oneSlot) :=
    parseJson_first (ne_zero_of_all (by decide +kernel)) _ _ _
  have hstate : parseJson oneSlotLibraries.parser { data := stateJson [oneSlot] } =
      .ok (stateDoc [oneSlot]) :=
    parseJson_second (ne_zero_of_all (by decide +kernel)) (by decide +kernel) _ _
  exact answer_as_file hanswer rfl rfl ⟨hstate, by decide +kernel⟩ rfl

end Account

/-! ## The block -/

section RawBlock

variable (ext : External)

/-- The message that an element of `inMessages` deserialises to. -/
structure AnsweredMessage (m : Value) (message : Message) : Prop where
  isString : m.isString = true
  decoded : ∃ bytes, decode (cStr m.text) = some bytes ∧ ext.deserializeMessage bytes = .ok message

/-- The answer says what is loaded. -/
structure AnsweredBlock (v : Value) (l : Loaded) : Prop where
  hasContent : InResult v "content"
  isString : ((v.field "result").field "content").isString = true
  content : ∃ bytes, decode (cStr ((v.field "result").field "content").text) = some bytes ∧
    ext.deserializeBlock bytes = .ok l.block
  hasInMessages : InResult v "inMessages"
  isArray : ((v.field "result").field "inMessages").isArray = true
  inMessages : List.Forall₂ (AnsweredMessage ext)
    ((v.field "result").field "inMessages").elems l.messages

variable {ext} {m : Value}

theorem handleRawItem_ok_iff_answered (message : Message) :
    handleRawItem ext m = .ok message ↔ AnsweredMessage ext m message := by
  constructor
  · intro h
    have hconv := returns_handleRawItem_iff.mp (Or.inl ⟨message, h⟩)
    obtain ⟨bytes, hbytes⟩ := (handleRawItem_ok_iff hconv).mp ⟨message, h⟩
    rw [handleRawItem_eq hconv.1, extractBytes_of_some hbytes, ok_bind, orThrow_ok_iff] at h
    exact ⟨hconv.1, bytes, hbytes, h⟩
  · intro h
    obtain ⟨bytes, hbytes, hread⟩ := h.decoded
    rw [handleRawItem_eq h.isString, extractBytes_of_some hbytes, ok_bind, orThrow_ok_iff]
    exact hread

/-- **What is loaded of a block that the node answers with.** -/
theorem loadRawBlock_eq_ok_iff (blockData : Istream) (l l' : Loaded) :
    loadRawBlockWithMessages ext blockData l = .ok () l' ↔
      ∃ v answered, parseJson ext.parser blockData = .ok v ∧ AnsweredBlock ext v answered ∧
        l' = ⟨answered.block, l.messages ++ answered.messages⟩ := by
  unfold loadRawBlockWithMessages
  rw [call_bind_eq_ok_iff]
  apply exists_congr
  intro v
  rw [labelled_eq_ok_iff, textField_eq_ok_iff, extract_eq_ok_iff]
  simp only [modify_bind, arrayField_eq_ok_iff, fill_eq_ok_iff, handleRawItem_ok_iff_answered,
    foldl_push]
  constructor
  · rintro ⟨hparse, hcontent, hstring, bytes, block, hbytes, hblock, hmessages, harray, added,
      hadded, rfl⟩
    exact ⟨⟨block, added⟩, hparse,
      ⟨hcontent, hstring, ⟨bytes, hbytes, hblock⟩, hmessages, harray, hadded⟩, rfl⟩
  · rintro ⟨answered, hparse, h, rfl⟩
    obtain ⟨bytes, hbytes, hblock⟩ := h.content
    exact ⟨hparse, h.hasContent, h.isString, bytes, answered.block, hbytes, hblock,
      h.hasInMessages, h.isArray, answered.messages, h.inMessages, rfl⟩

end RawBlock

end AssignerRunner
