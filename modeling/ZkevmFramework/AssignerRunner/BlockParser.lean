import ZkevmFramework.AssignerRunner.Utils

/-!
# `block_parser.cpp`

A block with its messages is read from a JSON file, which is checked against a
schema, or from the answer of a node, whose contents are SSZ.  Both loaders fill
the caller's block and messages as they go.

On a document that satisfies the schema only three conversions of a message can
fail: its credit, its value, and its data (`handleMessage_valid`).
-/

namespace AssignerRunner

open Cpp JsonHelpers Core.Types

/-! ## The schema -/

/-- The items of `messages` in `block_schema.json`. -/
def messageSchema : Schema :=
  Schema.object
    [("flags", Schema.array (Schema.enum ["Internal", "Deploy", "Refund", "Bounce"])),
      ("from", Schema.string ⟨"0x", isHex⟩ 42 (some 42)),
      ("to", Schema.string ⟨"0x", isHex⟩ 42 (some 42)),
      ("feeCredit", Schema.string ⟨"", isDigit⟩ 0 none),
      ("value", Schema.anyString),
      ("data", Schema.string ⟨"0x", isHex⟩ 0 none)]
    ["flags", "from", "to", "feeCredit", "value", "data"] true

/-- `block_schema.json` -/
def blockSchema (same : Value → Value → Bool) : Schema :=
  Schema.object
    [("number", Schema.number),
      ("parentHash", Schema.string ⟨"0x", isLowerHex⟩ 0 none),
      ("gasPrice", Schema.string ⟨"", isDigit⟩ 0 none),
      ("messages", Schema.uniqueItems same (Schema.array messageSchema))]
    ["number", "parentHash", "gasPrice", "messages"] true

/-! ## The loaders -/

section Model

/-- `dst[i] = std::byte{bytes[i]}`, from `i` on; nothing bounds `i` by the size of `dst`. -/
def writeFrom {n : Nat} (dst : Vector UInt8 n) (i : Nat) : Bytes → Except Stop (Vector UInt8 n)
  | [] => .ok dst
  | b :: bytes =>
    if h : i < n then writeFrom (dst.set i b h) (i + 1) bytes else .error .pastEnd

/-- `to_std_bytes`, into an array: the error returned, and the array. -/
def toStdBytesArray {n : Nat} (jsonValue : Value) (dst : Vector UInt8 n) :
    Except Stop (Option Text × Vector UInt8 n) :=
  noexcept do
    let r ← toBytesJson jsonValue []
    if r.1.isSome then return (r.1, dst)
    else return (none, ← writeFrom dst 0 r.2)

def flagNamed (flag : Text) (flags : BitVec 8) : BitVec 8 :=
  if flag = "Internal".toList then setFlag flags .internal
  else if flag = "Deploy".toList then setFlag flags .deploy
  else if flag = "Refund".toList then setFlag flags .refund
  else if flag = "Bounce".toList then setFlag flags .bounce
  else flags

def handleFlags (flags : BitVec 8) : List Value → Except Stop (BitVec 8)
  | [] => .ok flags
  | flag :: jsonFlags => do
    let name ← flag.asCString
    handleFlags (flagNamed name flags) jsonFlags

variable (ext : External)

/-- `handle_message` -/
def handleMessage (val : Object) (message : Message) : Except Stop Message := do
  let jsonFlags ← (← Object.atKey val "flags").asArray
  let flags ← handleFlags message.flags jsonFlags
  let sender ← toStdBytesArray (← Object.atKey val "from") message.fromAddress
  orReturn "" sender.1
  let recipient ← toStdBytesArray (← Object.atKey val "to") message.toAddress
  orReturn "" recipient.1
  let feeCredit ← stoull (← (← Object.atKey val "feeCredit").asCString)
  let value ← orThrow (ext.fromString (← (← Object.atKey val "value").asCString))
  let data ← toStdBytesJson (← Object.atKey val "data") []
  orReturn "" data.1
  return { message with
    flags := flags, fromAddress := sender.2, toAddress := recipient.2,
    feeCredit := BitVec.ofNat 256 feeCredit, value := value, data := data.2 }

/-- The caller's block and messages. -/
structure Loaded where
  block : Block
  messages : List Message

/-- `messages.push_back(message)` -/
def Loaded.push (message : Message) (l : Loaded) : Loaded :=
  { l with messages := l.messages ++ [message] }

-- what the memory of the declared message holds
variable (memory : Message)

/-- One element of `messages`. -/
def handleItem (msg : Value) : Except Stop Message := do
  handleMessage ext (← msg.asObject) (Message.declared memory)

/-- `handle_block` -/
def handleBlock (val : Object) : Call Loaded Unit := do
  let number ← call (do (← Object.atKey val "number").asInt64)
  modify fun l => { l with block := { l.block with id := number.toUInt64 } }
  let prevBlock := (← get).block.prevBlock
  let parentHash ← call (do toStdBytesArray (← Object.atKey val "parentHash") prevBlock)
  -- the error that comes with it is not looked at
  modify fun l => { l with block := { l.block with prevBlock := parentHash.2 } }
  let gasPrice ← call (do stoull (← (← Object.atKey val "gasPrice").asCString))
  modify fun l => { l with block := { l.block with gasPrice := BitVec.ofNat 256 gasPrice } }
  let jsonInputMsgs ← call (do (← Object.atKey val "messages").asArray)
  fill (handleItem ext memory) Loaded.push jsonInputMsgs

/-- `load_block_with_messages`; the schema is a constant of the program, and parses. -/
def loadBlockWithMessages (blockData : Istream) : Call Loaded Unit := do
  let blockJson ← call
    (labelled "Error while parsing block file: " (parseJson ext.parser blockData))
  call (orReturn "Block file validation failed: \n\t"
    (validateJson ext.validator (blockSchema ext.validator.same) blockJson))
  let val ← call blockJson.asObject
  labelledCall "Parse block failed: \n\t" (handleBlock ext memory val)

/-- One element of `inMessages`. -/
def handleRawItem (msg : Value) : Except Stop Message := do
  let bytes ← extractBytes "Extract message bytes failed: " (← msg.asCString)
  orThrow (ext.deserializeMessage bytes)

/-- `load_raw_block_with_messages` -/
def loadRawBlockWithMessages (blockData : Istream) : Call Loaded Unit := do
  let blockJson ← call (labelled "Error while parsing block: " (parseJson ext.parser blockData))
  let found ← call (resultContains blockJson "content")
  call (orMissing "Block content not found in the JSON" found)
  let blockDataStr ← call (do (← (← blockJson.atKey "result").atKey "content").asCString)
  let blockBytes ← call (extractBytes "Extract block bytes failed: " blockDataStr)
  let block ← call (orThrow (ext.deserializeBlock blockBytes))
  modify fun l => { l with block := block }
  let found ← call (resultContains blockJson "inMessages")
  call (orMissing "Input messages not found in the JSON" found)
  let jsonInputMsgs ← call (do (← (← blockJson.atKey "result").atKey "inMessages").asArray)
  fill (handleRawItem ext) Loaded.push jsonInputMsgs

end Model

/-! ## Bytes into an array -/

section Write

variable {n : Nat}

theorem writeFrom_ok (dst : Vector UInt8 n) (i : Nat) (bytes : Bytes) (h : i + bytes.length ≤ n) :
    ∃ dst', writeFrom dst i bytes = .ok dst' ∧
      dst'.toList = dst.toList.take i ++ bytes ++ dst.toList.drop (i + bytes.length) := by
  induction bytes generalizing dst i with
  | nil => exact ⟨dst, rfl, by simp⟩
  | cons b bytes ih =>
    rw [List.length_cons] at h
    have hi : i < n := by omega
    obtain ⟨dst', hw, hlist⟩ := ih (dst.set i b hi) (i + 1) (by omega)
    refine ⟨dst', ?_, ?_⟩
    · unfold writeFrom
      rw [dif_pos hi, hw]
    · have hlen : dst.toList.length = n := by simp
      rw [hlist, Vector.toList_set, List.drop_set_of_lt (by omega), List.take_add_one,
        List.take_set_of_le (Nat.le_refl i), List.getElem?_set_self (by omega), List.length_cons]
      simp only [Option.toList_some, List.append_assoc, List.singleton_append]
      congr 3
      omega

theorem writeFrom_pastEnd (dst : Vector UInt8 n) (i : Nat) (bytes : Bytes) (hi : i ≤ n)
    (h : n < i + bytes.length) : writeFrom dst i bytes = .error .pastEnd := by
  induction bytes generalizing dst i with
  | nil =>
    rw [List.length_nil] at h
    omega
  | cons b bytes ih =>
    rw [List.length_cons] at h
    unfold writeFrom
    by_cases hlt : i < n
    · rw [dif_pos hlt]
      exact ih _ _ hlt (by omega)
    · rw [dif_neg hlt]

variable {v : Value}

theorem toStdBytesArray_of_none (hstr : v.isString = true) (h : decode (cStr v.text) = none)
    (dst : Vector UInt8 n) :
    toStdBytesArray v dst = .ok (some "Hex string to bytes failed".toList, dst) := by
  have herr := toBytes_of_none h []
  unfold toStdBytesArray toBytesJson
  rw [Value.asCString_of hstr]
  show noexcept (if (toBytes (cStr v.text) []).1.isSome = true then
    Except.ok ((toBytes (cStr v.text) []).1, dst) else _) = _
  rw [herr]
  rfl

theorem toStdBytesArray_of_some (hstr : v.isString = true) {bytes : Bytes}
    (h : decode (cStr v.text) = some bytes) (dst : Vector UInt8 n) :
    toStdBytesArray v dst = noexcept ((writeFrom dst 0 bytes).map fun dst => (none, dst)) := by
  unfold toStdBytesArray toBytesJson
  rw [Value.asCString_of hstr]
  show noexcept (if (toBytes (cStr v.text) []).1.isSome = true then _ else
    (writeFrom dst 0 (toBytes (cStr v.text) []).2 >>= fun dst => Except.ok (none, dst))) = _
  rw [toBytes_of_some h]
  show noexcept (writeFrom dst 0 ([] ++ bytes) >>= _) = _
  rw [List.nil_append]
  cases writeFrom dst 0 bytes <;> rfl

/-- **As many bytes as the array has.** -/
theorem toStdBytesArray_exact (hstr : v.isString = true) {bytes : Bytes}
    (h : decode (cStr v.text) = some bytes) (hlen : bytes.length = n) (dst : Vector UInt8 n) :
    ∃ dst', toStdBytesArray v dst = .ok (none, dst') ∧ dst'.toList = bytes := by
  obtain ⟨dst', hw, hlist⟩ := writeFrom_ok dst 0 bytes (by omega)
  refine ⟨dst', ?_, ?_⟩
  · rw [toStdBytesArray_of_some hstr h, hw]
    rfl
  · rw [hlist]
    simp [hlen]

end Write

/-! ## Documents that satisfy the schema -/

section Shape

variable {v m : Value}

/-- What the schema says of a message. -/
structure MessageShape (m : Value) : Prop where
  isObject : m.isObject = true
  hasFlags : m.has "flags" = true
  flags : (m.field "flags").isArray = true ∧ ∀ f ∈ (m.field "flags").elems, f.isString = true
  sender : HexField isHex m "from"
  senderLength : digitCount (m.field "from").text = 40
  recipient : HexField isHex m "to"
  recipientLength : digitCount (m.field "to").text = 40
  feeCredit : DecimalField m "feeCredit"
  value : m.has "value" = true ∧ (m.field "value").isString = true
  data : HexField isHex m "data"

theorem messageShape_of (h : messageSchema m = true) : MessageShape m := by
  have hflags : m.has "flags" = true ∧
      Schema.array (Schema.enum ["Internal", "Deploy", "Refund", "Bounce"]) (m.field "flags") = true :=
    Schema.object_field h (by simp) (by simp)
  have hsender : m.has "from" = true ∧
      Schema.string ⟨"0x", isHex⟩ 42 (some 42) (m.field "from") = true :=
    Schema.object_field h (by simp) (by simp)
  have hrecipient : m.has "to" = true ∧
      Schema.string ⟨"0x", isHex⟩ 42 (some 42) (m.field "to") = true :=
    Schema.object_field h (by simp) (by simp)
  have hfee : m.has "feeCredit" = true ∧
      Schema.string ⟨"", isDigit⟩ 0 none (m.field "feeCredit") = true :=
    Schema.object_field h (by simp) (by simp)
  have hvalue : m.has "value" = true ∧ Schema.anyString (m.field "value") = true :=
    Schema.object_field h (by simp) (by simp)
  have hdata : m.has "data" = true ∧ Schema.string ⟨"0x", isHex⟩ 0 none (m.field "data") = true :=
    Schema.object_field h (by simp) (by simp)
  obtain ⟨hisArray, hitems⟩ := Schema.array_iff.mp hflags.2
  exact
    { isObject := Schema.object_isObject h
      hasFlags := hflags.1
      flags := ⟨hisArray, fun f hf => Schema.enum_isString (hitems f hf)⟩
      sender := hexField_of hsender
      senderLength := digitCount_of hsender.2
      recipient := hexField_of hrecipient
      recipientLength := digitCount_of hrecipient.2
      feeCredit := decimalField_of hfee
      value := hvalue
      data := hexField_of hdata }

/-- What the schema says of a block. -/
structure BlockShape (v : Value) : Prop where
  isObject : v.isObject = true
  hasNumber : v.has "number" = true
  parentHash : HexField isLowerHex v "parentHash"
  gasPrice : DecimalField v "gasPrice"
  hasMessages : v.has "messages" = true
  isArray : (v.field "messages").isArray = true
  messages : ∀ m ∈ (v.field "messages").elems, MessageShape m

theorem blockShape_of {same : Value → Value → Bool} (h : blockSchema same v = true) :
    BlockShape v := by
  have hnumber : v.has "number" = true ∧ Schema.number (v.field "number") = true :=
    Schema.object_field h (by simp) (by simp)
  have hhash : v.has "parentHash" = true ∧
      Schema.string ⟨"0x", isLowerHex⟩ 0 none (v.field "parentHash") = true :=
    Schema.object_field h (by simp) (by simp)
  have hprice : v.has "gasPrice" = true ∧
      Schema.string ⟨"", isDigit⟩ 0 none (v.field "gasPrice") = true :=
    Schema.object_field h (by simp) (by simp)
  have hmsgs : v.has "messages" = true ∧
      Schema.uniqueItems same (Schema.array messageSchema) (v.field "messages") = true :=
    Schema.object_field h (by simp) (by simp)
  obtain ⟨hisArray, hitems⟩ := Schema.array_iff.mp (Schema.of_uniqueItems hmsgs.2)
  exact
    { isObject := Schema.object_isObject h
      hasNumber := hnumber.1
      parentHash := hexField_of hhash
      gasPrice := decimalField_of hprice
      hasMessages := hmsgs.1
      isArray := hisArray
      messages := fun m hm => messageShape_of (hitems m hm) }

end Shape

/-! ## A message -/

section Message

variable {m : Value}

theorem handleFlags_ok {jsonFlags : List Value} (h : ∀ f ∈ jsonFlags, f.isString = true)
    (flags : BitVec 8) : ∃ flags', handleFlags flags jsonFlags = .ok flags' := by
  induction jsonFlags generalizing flags with
  | nil => exact ⟨flags, rfl⟩
  | cons f jsonFlags ih =>
    rw [List.forall_mem_cons] at h
    unfold handleFlags
    rw [Value.asCString_of h.1]
    exact ih h.2 _

/-- An address of 40 digits is its 20 bytes. -/
theorem address_exact {name : String} (h : HexField isHex m name)
    (hlen : digitCount (m.field name).text = 40) (dst : Address) :
    ∃ dst', toStdBytesArray (m.field name) dst = .ok (none, dst') ∧
      decode (m.field name).text = some dst'.toList := by
  have hdecode := (decode_digits (fun c hc => hc) h.digits).1 (by omega)
  obtain ⟨bytes, hbytes, hcount⟩ := hdecode
  have htext := h.cStr_text fun c hc => hc
  obtain ⟨dst', hdst, hlist⟩ :=
    toStdBytesArray_exact h.isString (by rw [htext]; exact hbytes) (by omega) dst
  exact ⟨dst', hdst, by rw [hlist]; exact hbytes⟩

/-- The data of a message, where it does not stop the conversion. -/
theorem toStdBytesJson_bind {v : Value} (hstr : v.isString = true) (hc : cStr v.text = v.text)
    {α : Type} (f : Bytes → Except Stop α) :
    (do
      let data ← toStdBytesJson v []
      orReturn "" data.1
      f data.2) = decoded v.text >>= f := by
  have hjson : toStdBytesJson v [] = .ok (toStdBytes v.text []) := by
    unfold toStdBytesJson
    rw [Value.asCString_of hstr, hc]
    rfl
  rw [hjson]
  unfold decoded
  cases hd : decode v.text with
  | none =>
    rw [toStdBytes_of_none hd]
    rfl
  | some bytes =>
    rw [toStdBytes_of_some hd]
    rfl

/-- **A message that satisfies the schema**: the addresses are exact, and the credit,
the value and the data are converted, in this order. -/
theorem handleMessage_valid (ext : External) (h : MessageShape m) (message : Message) :
    ∃ base : Message, decode (m.field "from").text = some base.fromAddress.toList ∧
      decode (m.field "to").text = some base.toAddress.toList ∧
      handleMessage ext m.members message = (do
        let feeCredit ← stoull (m.field "feeCredit").text
        let value ← orThrow (ext.fromString (cStr (m.field "value").text))
        let data ← decoded (m.field "data").text
        return { base with feeCredit := BitVec.ofNat 256 feeCredit, value := value, data := data }) := by
  obtain ⟨flags, hflags⟩ := handleFlags_ok h.flags.2 message.flags
  obtain ⟨src, hsrc, hsrcBytes⟩ := address_exact h.sender h.senderLength message.fromAddress
  obtain ⟨dst, hdst, hdstBytes⟩ := address_exact h.recipient h.recipientLength message.toAddress
  refine ⟨{ message with flags := flags, fromAddress := src, toAddress := dst },
    hsrcBytes, hdstBytes, ?_⟩
  unfold handleMessage
  rw [Value.members_atKey h.hasFlags, Value.members_atKey h.sender.has,
    Value.members_atKey h.recipient.has, Value.members_atKey h.feeCredit.has,
    Value.members_atKey h.value.1, Value.members_atKey h.data.has]
  simp only [ok_bind]
  rw [Value.asArray_of h.flags.1, ok_bind, hflags, ok_bind, hsrc, ok_bind]
  show (toStdBytesArray (m.field "to") message.toAddress >>= _) = _
  rw [hdst, ok_bind]
  show ((m.field "feeCredit").asCString >>= _) = _
  rw [h.feeCredit.asCString, ok_bind, Value.asCString_of h.value.2]
  simp only [ok_bind]
  congr 1
  funext feeCredit
  congr 1
  funext value
  exact toStdBytesJson_bind h.data.isString (h.data.cStr_text fun c hc => hc) fun data =>
    Except.ok { message with
      flags := flags, fromAddress := src, toAddress := dst,
      feeCredit := BitVec.ofNat 256 feeCredit, value := value, data := data }

end Message

end AssignerRunner
