import Mathlib.Data.List.Forall2
import ZkevmFramework.AssignerRunner.HexText
import ZkevmFramework.AssignerRunner.Runner

/-!
# What a block file asks for

The messages of a block file are converted and executed; between the text and the
EVM are the flags, the numbers of three widths and the conversions of addresses.

    Spelled m message → Handed block (message, msg) → Asked v m msg             (Spelled.asked)

`Asked` compares the document with what the EVM is given.  The gas is the quotient of
the two numbers of the document, where it has 63 bits.
-/

namespace AssignerRunner

open Cpp JsonHelpers Core.Types

/-! ## Flags -/

/-- The kind, as the file names it. -/
def kindName : MessageKind → Text
  | .internal => "Internal".toList
  | .deploy => "Deploy".toList
  | .refund => "Refund".toList
  | .bounce => "Bounce".toList

theorem testFlag_setFlag (flags : BitVec 8) (kind kind' : MessageKind) :
    testFlag (setFlag flags kind) kind' =
      (testFlag flags kind' || decide (kindName kind = kindName kind')) := by
  unfold testFlag setFlag
  rw [BitVec.getLsbD_or]
  cases kind <;> cases kind' <;> rfl

theorem testFlag_flagNamed (t : Text) (flags : BitVec 8) (kind : MessageKind) :
    testFlag (flagNamed t flags) kind = (testFlag flags kind || decide (t = kindName kind)) := by
  unfold flagNamed
  split_ifs with h1 h2 h3 h4
  · rw [h1]
    exact testFlag_setFlag flags .internal kind
  · rw [h2]
    exact testFlag_setFlag flags .deploy kind
  · rw [h3]
    exact testFlag_setFlag flags .refund kind
  · rw [h4]
    exact testFlag_setFlag flags .bounce kind
  · have hne : t ≠ kindName kind := by
      cases kind
      · exact h1
      · exact h2
      · exact h3
      · exact h4
    rw [decide_eq_false hne, Bool.or_false]

theorem handleFlags_test {flags flags' : BitVec 8} {l : List Value}
    (h : handleFlags flags l = .ok flags') (kind : MessageKind) :
    testFlag flags' kind =
      (testFlag flags kind || l.any fun f => decide (cStr f.text = kindName kind)) := by
  induction l generalizing flags with
  | nil =>
    cases h
    simp
  | cons f l ih =>
    unfold handleFlags at h
    cases hf : f.asCString with
    | error e =>
      rw [hf] at h
      cases h
    | ok t =>
      rw [hf] at h
      have ht : t = cStr f.text := by
        cases f <;> cases hf
        rfl
      rw [ih h, testFlag_flagNamed, List.any_cons, Bool.or_assoc, ht]

/-- The document lists the kind. -/
def flagged (m : Value) (kind : MessageKind) : Bool :=
  (m.field "flags").elems.any fun f => decide (f.text = kindName kind)

/-- A flag that the schema accepts has no NUL. -/
theorem cStr_flag {m f : Value} (h : messageSchema m = true) (hf : f ∈ (m.field "flags").elems) :
    cStr f.text = f.text := by
  have hflags : m.has "flags" = true ∧
      Schema.array (Schema.enum ["Internal", "Deploy", "Refund", "Bounce"]) (m.field "flags") =
        true :=
    Schema.object_field h (by simp) (by simp)
  have henum := (Schema.array_iff.mp hflags.2).2 f hf
  cases f with
  | string t =>
    unfold Schema.enum at henum
    simp only [List.any_cons, List.any_nil, Bool.or_false, Bool.or_eq_true, beq_iff_eq] at henum
    rcases henum with rfl | rfl | rfl | rfl <;> decide
  | _ => cases henum

/-! ## A message -/

section Message

variable {ext : External} {memory : Message} {m : Value} {message : Message}

theorem stoull_eq_ok_iff {digits : Text} {n : Nat} :
    stoull digits = .ok n ↔ decimal digits < 2 ^ 64 ∧ n = decimal digits := by
  by_cases hlt : decimal digits < 2 ^ 64
  · rw [stoull_of_lt hlt, Except.ok.injEq, and_iff_right hlt, eq_comm]
  · rw [stoull_of_not_lt hlt]
    exact iff_of_false (fun h => by cases h) fun h => hlt h.1

variable (ext) in
/-- The message holds what the document says of it. -/
structure Spelled (m : Value) (message : Message) : Prop where
  flags : ∀ kind, testFlag message.flags kind = flagged m kind
  sender : decode (m.field "from").text = some message.fromAddress.toList
  recipient : decode (m.field "to").text = some message.toAddress.toList
  feeCredit : message.feeCredit.toNat = decimal (m.field "feeCredit").text
  value : ext.fromString (cStr (m.field "value").text) = .ok message.value
  data : decode (m.field "data").text = some message.data

theorem handleItem_spelled (hschema : messageSchema m = true)
    (hok : handleItem ext memory m = .ok message) : Spelled ext m message := by
  have h := messageShape_of hschema
  obtain ⟨flags, hflags⟩ := handleFlags_ok h.flags.2 (Message.declared memory).flags
  obtain ⟨src, hsrc, hsrcBytes⟩ :=
    address_exact h.sender h.senderLength (Message.declared memory).fromAddress
  obtain ⟨dst, hdst, hdstBytes⟩ :=
    address_exact h.recipient h.recipientLength (Message.declared memory).toAddress
  unfold handleItem handleMessage at hok
  rw [Value.asObject_of h.isObject, ok_bind, Value.members_atKey h.hasFlags,
    Value.members_atKey h.sender.has, Value.members_atKey h.recipient.has,
    Value.members_atKey h.feeCredit.has, Value.members_atKey h.value.1,
    Value.members_atKey h.data.has] at hok
  simp only [ok_bind, Value.asArray_of h.flags.1, hflags, hsrc, hdst, orReturn,
    h.feeCredit.asCString, Value.asCString_of h.value.2, except_bind_eq_ok_iff,
    orThrow_ok_iff] at hok
  obtain ⟨fee, hfee, value, hvalue, data, hdata, _, hnone, hmessage⟩ := hok
  cases hmessage
  refine ⟨fun kind => ?_, hsrcBytes, hdstBytes, ?_, hvalue, ?_⟩
  · have hzero : testFlag (Message.declared memory).flags kind = false := BitVec.getLsbD_zero
    show testFlag flags kind = _
    rw [handleFlags_test hflags, hzero, Bool.false_or]
    unfold flagged
    rw [Bool.eq_iff_iff, List.any_eq_true, List.any_eq_true]
    exact exists_congr fun f => and_congr_right fun hf => by rw [cStr_flag hschema hf]
  · obtain ⟨hlt, rfl⟩ := stoull_eq_ok_iff.mp hfee
    show (BitVec.ofNat 256 (decimal (m.field "feeCredit").text)).toNat = _
    rw [BitVec.toNat_ofNat, Nat.mod_eq_of_lt (by omega)]
  · unfold toStdBytesJson at hdata
    rw [Value.asCString_of h.data.isString, h.data.cStr_text fun c hc => hc] at hdata
    cases hdata
    cases hdecode : decode (m.field "data").text with
    | none =>
      rw [toStdBytes_of_none hdecode] at hnone
      cases hnone
    | some bytes => rw [toStdBytes_of_some hdecode, List.nil_append]

end Message

/-! ## What the EVM is given -/

section Asked

variable {ext : External} {v m : Value} {message : Message} {msg : EvmcMessage} {block : Block}

variable (ext v) in
/-- The EVM is asked for what the document says of the message; the gas is the quotient of the
two numbers in it, as an `int64_t` holds it. -/
structure Asked (m : Value) (msg : EvmcMessage) : Prop where
  kind : msg.kind = if flagged m .deploy then .create else .call
  sender : decode (m.field "from").text = some msg.sender.toList
  recipient : decode (m.field "to").text = some msg.recipient.toList
  codeAddress : msg.codeAddress = msg.sender
  inputData : decode (m.field "data").text = some msg.inputData
  value : ∃ value, ext.fromString (cStr (m.field "value").text) = .ok value ∧
    msg.value = toUint256be value
  price : decimal (v.field "gasPrice").text ≠ 0
  gas : msg.gas.toInt =
    Int.bmod (decimal (m.field "feeCredit").text / decimal (v.field "gasPrice").text : Nat) (2 ^ 64)

theorem toEvmcAddress_eq (a : Address) : toEvmcAddress a = a := by
  unfold toEvmcAddress
  exact Vector.ofFn_getElem

theorem evmcMsgKind_eq (flags : BitVec 8) :
    evmcMsgKind flags = if testFlag flags .deploy then .create else .call := by
  unfold evmcMsgKind
  split_ifs <;> rfl

theorem Spelled.asked (h : Spelled ext m message)
    (hprice : block.gasPrice.toNat = decimal (v.field "gasPrice").text)
    (hlt : decimal (v.field "gasPrice").text < 2 ^ 64) (hhanded : Handed block (message, msg)) :
    Asked ext v m msg := by
  obtain ⟨hzero, gas, hmsg, hint⟩ := hhanded
  change msg = evmcMessage message message.data gas at hmsg
  subst hmsg
  rw [hprice, Nat.mod_eq_of_lt hlt] at hzero hint
  constructor
  · show evmcMsgKind message.flags = _
    rw [evmcMsgKind_eq, h.flags]
  · show _ = some (toEvmcAddress message.fromAddress).toList
    rw [toEvmcAddress_eq]
    exact h.sender
  · show _ = some (toEvmcAddress message.toAddress).toList
    rw [toEvmcAddress_eq]
    exact h.recipient
  · rfl
  · exact h.data
  · exact ⟨message.value, h.value, rfl⟩
  · exact hzero
  · rw [← h.feeCredit]
    exact hint

end Asked

/-! ## The hash -/

section Hash

/-- A lower-case digit is the one printed for its value. -/
theorem hexDigit_hexValue {c : Char} (h : isLowerHex c = true) :
    ∃ n < 16, hexValue c = some n.toUInt8 ∧ hexDigit n = c := by
  have hdigits : ∀ k < 128, isLowerHex (Char.ofNat k) = true →
      ∃ n < 16, hexValue (Char.ofNat k) = some n.toUInt8 ∧ hexDigit n = Char.ofNat k := by
    decide +kernel
  have hlt : c.toNat < 128 := by
    have hle : c.toNat ≤ '9'.toNat ∨ c.toNat ≤ 'f'.toNat := by
      simp only [isLowerHex, isDigit, Bool.or_eq_true, Bool.and_eq_true, decide_eq_true_eq] at h
      exact h.imp And.right And.right
    have h9 : '9'.toNat = 57 := rfl
    have hf : 'f'.toNat = 102 := rfl
    omega
  have hc := hdigits c.toNat hlt
  rw [Char.ofNat_toNat] at hc
  exact hc h

/-- **Digits in lower case are printed as they were read.** -/
theorem printed_unhex (d : Text) (h : ∀ c ∈ d, isLowerHex c = true) (hok : (unhex d).2 = true) :
    (unhex d).1.flatMap printByte = d := by
  induction d using unhex.induct with
  | case1 => rfl
  | case2 c => cases hok
  | case3 a b rest hi lo _ _ ih =>
    rw [List.forall_mem_cons, List.forall_mem_cons] at h
    obtain ⟨n, hn, hna, hdn⟩ := hexDigit_hexValue h.1
    obtain ⟨k, hk, hkb, hdk⟩ := hexDigit_hexValue h.2.1
    rw [unhex, hna, hkb] at hok ⊢
    have hnat : (n.toUInt8 * 16 + k.toUInt8).toNat = n * 16 + k := by
      rw [UInt8.toNat_add, UInt8.toNat_mul]
      show (n % 256 * 16 % 256 + k % 256) % 256 = _
      omega
    have hbyte : printByte (n.toUInt8 * 16 + k.toUInt8) = [a, b] := by
      unfold printByte
      rw [hnat, show (n * 16 + k) / 16 = n by omega, show (n * 16 + k) % 16 = k by omega, hdn, hdk]
    show (_ :: (unhex rest).1).flatMap printByte = _
    rw [List.flatMap_cons, hbyte, ih h.2.2 hok]
    rfl
  | case4 a b rest hnone =>
    rw [unhex] at hok
    split at hok
    · rename_i hi lo ha hb
      exact absurd hb (hnone hi lo ha)
    · cases hok

/-- **A hash of 64 digits is printed as the document has it.** -/
theorem HashWritten.printed {v : Value} {before after : Hash}
    (h : HexField isLowerHex v "parentHash") (hcount : digitCount (v.field "parentHash").text = 64)
    (hwritten : HashWritten v before after) :
    byteArrayToStr after.toList = (v.field "parentHash").text := by
  obtain ⟨bytes, hbytes, hlength⟩ :=
    (decode_digits (fun c hc => isHex_of_lower hc) h.digits).1 (by omega)
  obtain ⟨d, ht, hd⟩ := prefixed_of_matches h.digits
  have hafter : after.toList = bytes := by
    rw [hwritten.1 bytes hbytes, List.drop_eq_nil_of_le, List.append_nil]
    rw [Vector.length_toList]
    omega
  have hdecode : (unhex d).2 = true ∧ (unhex d).1 = bytes := by
    rw [ht] at hbytes
    have hbytes : (if (unhex d).2 then some (unhex d).1 else none) = some bytes := hbytes
    split at hbytes
    · rename_i hok
      exact ⟨hok, Option.some.inj hbytes⟩
    · cases hbytes
  rw [hafter, ← hdecode.2, ht]
  unfold byteArrayToStr
  show "0x".toList ++ (unhex d).1.flatMap printByte = _
  rw [printed_unhex d hd hdecode.1]
  rfl

end Hash

/-! ## The messages of a block -/

section Block

variable {ext : External} {memory : Message} {blockData : Istream} {v : Value} {l l' : Loaded}

/-- The message is left out: an external one that deploys. -/
def leftOut (m : Value) : Bool := !flagged m .internal && flagged m .deploy

/-- The messages that the EVM is asked for. -/
def requested (v : Value) : List Value := (messagesOf v).filter fun m => !leftOut m

theorem messageSchema_of (h : blockSchema ext.validator.same v = true) :
    ∀ m ∈ messagesOf v, messageSchema m = true := by
  have hmsgs : v.has "messages" = true ∧
      Schema.uniqueItems ext.validator.same (Schema.array messageSchema) (v.field "messages") =
        true :=
    Schema.object_field h (by simp) (by simp)
  exact (Schema.array_iff.mp (Schema.of_uniqueItems hmsgs.2)).2

/-- What runs on a document that is accepted. -/
theorem validated_eq_ok_iff {σ α : Type} {t t' : σ} {a : α} {label label' : String}
    {schema : Schema} {f : Value → Call σ α} :
    (do
      let v ← call (labelled label (parseJson ext.parser blockData))
      call (orReturn label' (validateJson ext.validator schema v))
      f v : Call σ α) t = .ok a t' ↔
      ∃ v, parseJson ext.parser blockData = .ok v ∧ schema v = true ∧ f v t = .ok a t' := by
  rw [call_bind_eq_ok_iff]
  apply exists_congr
  intro v
  rw [labelled_eq_ok_iff]
  apply and_congr_right
  intro _
  unfold validateJson
  split_ifs with hvalid
  · rw [and_iff_right hvalid]
    rfl
  · exact iff_of_false (fun h => by cases h) fun h => hvalid h.1

/-- **What is loaded of a block file**: its header, and each of its messages. -/
theorem loadBlock_spelled (h : loadBlockWithMessages ext memory blockData l = .ok () l') :
    ∃ v added, ValidFile ext blockData v ∧ HeaderConverts v ∧ HeaderWritten v l.block l'.block ∧
      l'.messages = l.messages ++ added ∧ List.Forall₂ (Spelled ext) (messagesOf v) added := by
  have hrun := h
  unfold loadBlockWithMessages at hrun
  obtain ⟨v, hparse, hvalid, -⟩ := validated_eq_ok_iff.mp hrun
  have hfile : ValidFile ext blockData v := ⟨hparse, hvalid⟩
  have hshape := blockShape_of hvalid
  rw [loadBlock_valid hfile, labelledCall_eq_ok_iff] at h
  have hconverts : BlockConverts ext v := by
    rw [← returns_handleBlock_iff hshape l, h]
    exact returns_ok ()
  obtain ⟨block, hwritten, hfill⟩ := handleBlock_header ext memory hshape hconverts.1 l
  rw [hfill, fill_eq_ok_iff] at h
  obtain ⟨added, hadded, rfl⟩ := h
  rw [foldl_push]
  refine ⟨v, added, hfile, hconverts.1, hwritten, rfl, ?_⟩
  rw [List.forall₂_iff_zip] at hadded ⊢
  obtain ⟨hlength, hitems⟩ := hadded
  refine ⟨hlength, fun hmem => ?_⟩
  exact handleItem_spelled (messageSchema_of hvalid _ (List.of_mem_zip hmem).1) (hitems hmem)

theorem Spelled.leftOut_eq {m : Value} {message : Message} (h : Spelled ext m message) :
    leftOut m = skipped message := by
  unfold leftOut skipped
  rw [h.flags, h.flags]

theorem requested_spelled {messages : List Message}
    (h : List.Forall₂ (Spelled ext) (messagesOf v) messages) :
    List.Forall₂ (Spelled ext) (requested v) (toEvaluate messages) := by
  apply List.rel_filter _ h
  intro m message hm
  show (!leftOut m) = true ↔ (!skipped message) = true
  rw [hm.leftOut_eq]

end Block

end AssignerRunner
