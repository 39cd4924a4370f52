import ZkevmFramework.AssignerRunner.BlockParser

/-!
# Loading a block file

What `load_block_with_messages` does on a file that satisfies the schema.  The
block's number, hash and gas price are written first (`handleBlock_header`), then
the messages are appended up to the first that does not convert.

The addresses of a message have the length the schema asks for.  The hash may
have any number of digits, and the error of its conversion is dropped:

    the load is exact and in bounds ↔ the hash has 64 digits,
      or an error is returned for another reason              (loadBlock_exact_iff)
-/

namespace AssignerRunner

open Cpp JsonHelpers Core.Types

/-! ## What a file has to hold -/

section Conditions

variable (ext : External)

/-- The credit fits 64 bits, and the value is a number. -/
def Fits (m : Value) : Prop :=
  decimal (m.field "feeCredit").text < 2 ^ 64 ∧
    ∃ value, ext.fromString (cStr (m.field "value").text) = .ok value

/-- The data has an even number of digits. -/
def EvenData (m : Value) : Prop := digitCount (m.field "data").text % 2 = 0

/-- The messages of a block. -/
def messagesOf (v : Value) : List Value := (v.field "messages").elems

/-- The hash, where it decodes, has at most 32 bytes. -/
def HashFits (v : Value) : Prop :=
  digitCount (v.field "parentHash").text % 2 = 0 → digitCount (v.field "parentHash").text ≤ 64

/-- The number is an `int64`, the hash stays within its array, and the gas price fits
64 bits. -/
def HeaderConverts (v : Value) : Prop :=
  (v.field "number").isInt64 = true ∧ HashFits v ∧ decimal (v.field "gasPrice").text < 2 ^ 64

end Conditions

/-- The addresses are the bytes written in the file. -/
def AddressesExact (m : Value) (message : Message) : Prop :=
  decode (m.field "from").text = some message.fromAddress.toList ∧
    decode (m.field "to").text = some message.toAddress.toList

/-! ## One message -/

section Item

variable {ext : External} {memory : Message} {m : Value}

/-- What becomes of a message: an exception, an error, or the message with its addresses. -/
theorem handleItem_cases (ext : External) (memory : Message) (h : MessageShape m) :
    (¬ Fits ext m ∧ ∃ e, handleItem ext memory m = .error (.throws e)) ∨
      (Fits ext m ∧ ¬ EvenData m ∧
        handleItem ext memory m = .error (.error "Hex string to bytes failed".toList)) ∨
      (Fits ext m ∧ EvenData m ∧
        ∃ message, handleItem ext memory m = .ok message ∧ AddressesExact m message) := by
  obtain ⟨base, hsrc, hdst, hm⟩ := handleMessage_valid ext h (Message.declared memory)
  unfold handleItem
  rw [Value.asObject_of h.isObject, ok_bind, hm]
  by_cases hfee : decimal (m.field "feeCredit").text < 2 ^ 64
  · rw [stoull_of_lt hfee, ok_bind]
    cases hvalue : ext.fromString (cStr (m.field "value").text) with
    | error e =>
      refine Or.inl ⟨?_, e, rfl⟩
      rintro ⟨-, value, hok⟩
      rw [hvalue] at hok
      cases hok
    | ok value =>
      have hfits : Fits ext m := ⟨hfee, value, hvalue⟩
      have hdata := decode_digits (fun c hc => hc) h.data.digits
      show _ ∨ (_ ∧ _ ∧ (decoded (m.field "data").text >>= _) = _) ∨ (_ ∧ _ ∧ _)
      by_cases heven : EvenData m
      · obtain ⟨bytes, hbytes, -⟩ := hdata.1 heven
        have hok := (decoded_ok_iff _ _).mpr hbytes
        exact Or.inr (Or.inr ⟨hfits, heven,
          { base with
            feeCredit := BitVec.ofNat 256 (decimal (m.field "feeCredit").text), value := value,
            data := bytes }, by
          show (decoded (m.field "data").text >>= _) = _
          rw [hok]
          rfl, hsrc, hdst⟩)
      · refine Or.inr (Or.inl ⟨hfits, heven, ?_⟩)
        unfold decoded
        rw [hdata.2 heven]
        rfl
  · left
    refine ⟨fun hfits => hfee hfits.1, .outOfRange, ?_⟩
    rw [stoull_of_not_lt hfee]
    rfl

theorem returns_handleItem_iff (h : MessageShape m) :
    Returns (handleItem ext memory m) ↔ Fits ext m := by
  rcases handleItem_cases ext memory h with
    ⟨hno, e, he⟩ | ⟨hfits, -, he⟩ | ⟨hfits, -, message, hok, -⟩
  · rw [he]
    exact iff_of_false (not_returns_throws e) hno
  · rw [he]
    exact iff_of_true (returns_error _) hfits
  · rw [hok]
    exact iff_of_true (returns_ok _) hfits

theorem handleItem_ok_iff (h : MessageShape m) (hfits : Fits ext m) :
    (∃ message, handleItem ext memory m = .ok message) ↔ EvenData m := by
  rcases handleItem_cases ext memory h with
    ⟨hno, -⟩ | ⟨-, hodd, he⟩ | ⟨-, heven, message, hok, -⟩
  · exact absurd hfits hno
  · rw [he]
    exact iff_of_false (by simp) hodd
  · exact iff_of_true ⟨message, hok⟩ heven

theorem addressesExact_of {message : Message} (h : MessageShape m)
    (hok : handleItem ext memory m = .ok message) : AddressesExact m message := by
  rcases handleItem_cases ext memory h with
    ⟨-, e, he⟩ | ⟨-, -, he⟩ | ⟨-, -, message', hok', hexact⟩
  · rw [he] at hok
    cases hok
  · rw [he] at hok
    cases hok
  · rw [hok', Except.ok.injEq] at hok
    rwa [hok] at hexact

theorem handleItem_ne_pastEnd (h : MessageShape m) :
    handleItem ext memory m ≠ .error .pastEnd := by
  rcases handleItem_cases ext memory h with
    ⟨-, e, he⟩ | ⟨-, -, he⟩ | ⟨-, -, message', hok', -⟩
  · rw [he]
    simp
  · rw [he]
    simp
  · rw [hok']
    simp

end Item

/-! ## The header -/

section Header

variable {v : Value}

/-- The array after the hash is converted: its first bytes are those of the hash, and a
hash that does not decode leaves it alone. -/
def HashWritten (v : Value) (before after : Hash) : Prop :=
  (∀ bytes, decode (v.field "parentHash").text = some bytes →
    after.toList = bytes ++ before.toList.drop bytes.length) ∧
  (decode (v.field "parentHash").text = none → after = before)

theorem parentHash_ok (h : HexField isLowerHex v "parentHash") (hfits : HashFits v) (dst : Hash) :
    ∃ r, toStdBytesArray (v.field "parentHash") dst = .ok r ∧ HashWritten v dst r.2 := by
  have htext := h.cStr_text fun c hc => isHex_of_lower hc
  have hdecode := decode_digits (fun c hc => isHex_of_lower hc) h.digits
  by_cases heven : digitCount (v.field "parentHash").text % 2 = 0
  · obtain ⟨bytes, hbytes, hlen⟩ := hdecode.1 heven
    have hle := hfits heven
    obtain ⟨dst', hw, hlist⟩ := writeFrom_ok dst 0 bytes (by omega)
    refine ⟨(none, dst'), ?_, ?_, ?_⟩
    · rw [toStdBytesArray_of_some h.isString (by rw [htext]; exact hbytes), hw]
      rfl
    · intro bytes' hbytes'
      rw [hbytes, Option.some.injEq] at hbytes'
      rw [← hbytes', hlist, List.take_zero, List.nil_append, Nat.zero_add]
    · intro hnone
      rw [hbytes] at hnone
      cases hnone
  · have hnone := hdecode.2 heven
    refine ⟨_, toStdBytesArray_of_none h.isString (by rw [htext]; exact hnone) dst, ?_, ?_⟩
    · intro bytes hbytes
      rw [hnone] at hbytes
      cases hbytes
    · exact fun _ => rfl

theorem parentHash_pastEnd (h : HexField isLowerHex v "parentHash") (hfits : ¬ HashFits v)
    (dst : Hash) : toStdBytesArray (v.field "parentHash") dst = .error .pastEnd := by
  have htext := h.cStr_text fun c hc => isHex_of_lower hc
  unfold HashFits at hfits
  rw [Classical.not_imp] at hfits
  obtain ⟨bytes, hbytes, hlen⟩ :=
    (decode_digits (fun c hc => isHex_of_lower hc) h.digits).1 hfits.1
  rw [toStdBytesArray_of_some h.isString (by rw [htext]; exact hbytes),
    writeFrom_pastEnd dst 0 bytes (by omega) (by omega)]
  rfl

/-- The block after its header is converted; the other fields are as before. -/
def HeaderWritten (v : Value) (before after : Block) : Prop :=
  ∃ number hash, v.field "number" = .int64 number ∧ HashWritten v before.prevBlock hash ∧
    after = { before with
      id := number.toUInt64, prevBlock := hash,
      gasPrice := BitVec.ofNat 256 (decimal (v.field "gasPrice").text) }

variable (ext : External) (memory : Message)

/-- The conversions of the header, one after the other. -/
theorem handleBlock_steps (h : BlockShape v) (l : Loaded) :
    handleBlock ext memory v.members l = (do
      let number ← call (v.field "number").asInt64
      modify fun l => { l with block := { l.block with id := number.toUInt64 } }
      let parentHash ← call (toStdBytesArray (v.field "parentHash") l.block.prevBlock)
      modify fun l => { l with block := { l.block with prevBlock := parentHash.2 } }
      let gasPrice ← call (stoull (v.field "gasPrice").text)
      modify fun l => { l with block := { l.block with gasPrice := BitVec.ofNat 256 gasPrice } }
      fill (handleItem ext memory) Loaded.push (messagesOf v) : Call Loaded Unit) l := by
  unfold handleBlock
  rw [Value.members_atKey h.hasNumber, Value.members_atKey h.parentHash.has,
    Value.members_atKey h.gasPrice.has, Value.members_atKey h.hasMessages]
  simp only [ok_bind]
  rw [h.gasPrice.asCString, Value.asArray_of h.isArray]
  cases (v.field "number").asInt64 <;> rfl

theorem handleBlock_header (h : BlockShape v) (hheader : HeaderConverts v) (l : Loaded) :
    ∃ block, HeaderWritten v l.block block ∧
      handleBlock ext memory v.members l =
        fill (handleItem ext memory) Loaded.push (messagesOf v) ⟨block, l.messages⟩ := by
  obtain ⟨hnumber, hfits, hprice⟩ := hheader
  obtain ⟨number, hint⟩ : ∃ number, v.field "number" = .int64 number := by
    cases hn : v.field "number" with
    | int64 i => exact ⟨i, rfl⟩
    | _ => simp [hn, Value.isInt64] at hnumber
  obtain ⟨r, hr, hwritten⟩ := parentHash_ok h.parentHash hfits l.block.prevBlock
  refine ⟨_, ⟨number, r.2, hint, hwritten, rfl⟩, ?_⟩
  rw [handleBlock_steps ext memory h, hint, hr, stoull_of_lt hprice]
  rfl

/-- A header that does not convert ends the load without a return. -/
theorem handleBlock_not_header (h : BlockShape v) (hheader : ¬ HeaderConverts v) (l : Loaded) :
    (∃ e, outcome (handleBlock ext memory v.members l) = .error (.throws e)) ∨
      ¬ HashFits v ∧ outcome (handleBlock ext memory v.members l) = .error .pastEnd := by
  rw [handleBlock_steps ext memory h]
  cases hn : v.field "number" with
  | int64 number =>
    by_cases hfits : HashFits v
    · left
      obtain ⟨r, hr, -⟩ := parentHash_ok h.parentHash hfits l.block.prevBlock
      have hprice : ¬ decimal (v.field "gasPrice").text < 2 ^ 64 := by
        intro hprice
        exact hheader ⟨by rw [hn]; rfl, hfits, hprice⟩
      rw [hr, stoull_of_not_lt hprice]
      exact ⟨_, rfl⟩
    · right
      rw [parentHash_pastEnd h.parentHash hfits]
      exact ⟨hfits, rfl⟩
  | _ => exact Or.inl ⟨.wrongKind, rfl⟩

end Header

/-! ## The whole file -/

section File

variable {ext : External} {memory : Message} {blockData : Istream} {v : Value}

/-- The file converts up to its end, or to a message whose data has an odd digit. -/
def BlockConverts (ext : External) (v : Value) : Prop :=
  HeaderConverts v ∧ Reached EvenData (Fits ext) (messagesOf v)

/-- The stream holds a document that satisfies the schema. -/
structure ValidFile (ext : External) (blockData : Istream) (v : Value) : Prop where
  parses : parseJson ext.parser blockData = .ok v
  valid : blockSchema ext.validator.same v = true

theorem returns_handleBlock_iff (h : BlockShape v) (l : Loaded) :
    Returns (outcome (handleBlock ext memory v.members l)) ↔ BlockConverts ext v := by
  unfold BlockConverts
  by_cases hheader : HeaderConverts v
  · obtain ⟨block, -, hrun⟩ := handleBlock_header ext memory h hheader l
    rw [hrun, and_iff_right hheader]
    exact returns_fill_iff _ _ _ (fun m hm => returns_handleItem_iff (h.messages m hm))
      fun m hm hfits => handleItem_ok_iff (h.messages m hm) hfits
  · apply iff_of_false _ fun hc => hheader hc.1
    rcases handleBlock_not_header ext memory h hheader l with ⟨e, he⟩ | ⟨-, he⟩
    · rw [he]
      exact not_returns_throws e
    · rw [he]
      simp [Returns]

theorem loadBlock_valid (hfile : ValidFile ext blockData v) (l : Loaded) :
    loadBlockWithMessages ext memory blockData l =
      labelledCall "Parse block failed: \n\t" (handleBlock ext memory v.members) l := by
  unfold loadBlockWithMessages
  rw [hfile.parses]
  show (call (orReturn _ (if blockSchema ext.validator.same v then none else _)) >>= _) l = _
  rw [if_pos hfile.valid]
  show (call v.asObject >>= _) l = _
  rw [Value.asObject_of (blockShape_of hfile.valid).isObject]
  rfl

/-- **When the load of a file returns.** -/
theorem returns_loadBlock_iff (l : Loaded) :
    Returns (outcome (loadBlockWithMessages ext memory blockData l)) ↔
      Returns (parseJson ext.parser blockData) ∧ ∀ v, parseJson ext.parser blockData = .ok v →
        blockSchema ext.validator.same v = true → BlockConverts ext v := by
  unfold loadBlockWithMessages
  apply returns_validated_iff
  intro v hvalid
  have h := blockShape_of hvalid
  rw [Value.asObject_of h.isObject, call_bind_ok, outcome_labelledCall, returns_labelled_iff]
  exact returns_handleBlock_iff h l

/-- **The messages of an accepted file**: one for each element, with its addresses. -/
theorem fill_accepts {msgs : List Value} (h : ∀ m ∈ msgs, MessageShape m) {l l' : Loaded}
    (hrun : fill (handleItem ext memory) Loaded.push msgs l = .ok () l') :
    l'.block = l.block ∧ ∃ added, l'.messages = l.messages ++ added ∧
      List.Forall₂ AddressesExact msgs added := by
  induction msgs generalizing l with
  | nil =>
    cases hrun
    exact ⟨rfl, [], by simp, List.Forall₂.nil⟩
  | cons m msgs ih =>
    rw [List.forall_mem_cons] at h
    cases hm : handleItem ext memory m with
    | error e =>
      unfold fill at hrun
      rw [hm] at hrun
      cases hrun
    | ok message =>
      unfold fill at hrun
      rw [hm] at hrun
      obtain ⟨hblock, added, hadded, hall⟩ := ih h.2 hrun
      refine ⟨hblock, message :: added, ?_, List.Forall₂.cons (addressesExact_of h.1 hm) hall⟩
      rw [hadded]
      show l.messages ++ [message] ++ added = _
      simp

theorem handleBlock_ok_iff (h : BlockShape v) (l : Loaded) :
    outcome (handleBlock ext memory v.members l) = .ok () ↔
      BlockConverts ext v ∧ ∀ m ∈ messagesOf v, EvenData m := by
  by_cases hc : BlockConverts ext v
  · obtain ⟨block, -, hrun⟩ := handleBlock_header ext memory h hc.1 l
    rw [hrun, fill_ok_iff, and_iff_right hc]
    have hreached := hc.2
    have hshape : ∀ m ∈ messagesOf v, MessageShape m := h.messages
    generalize messagesOf v = msgs at hreached hshape
    induction msgs with
    | nil => simp
    | cons m msgs ih =>
      rw [List.forall_mem_cons, List.forall_mem_cons,
        handleItem_ok_iff (hshape m List.mem_cons_self) hreached.1]
      apply and_congr_right
      intro heven
      exact ih (hreached.2 heven) fun m' hm' => hshape m' (List.mem_cons_of_mem _ hm')
  · apply iff_of_false _ fun h => hc h.1
    intro hok
    apply hc
    rw [← returns_handleBlock_iff h l, hok]
    exact returns_ok ()

end File

/-! ## Exact and in bounds -/

section Exact

variable {ext : External} {memory : Message} {blockData : Istream} {v : Value}

/-- The text decodes to exactly `n` bytes. -/
def DecodesTo (n : Nat) (t : Text) : Prop := ∃ bytes, decode t = some bytes ∧ bytes.length = n

/-- Every hexadecimal text has the length of the array it is for. -/
def WellSized (v : Value) : Prop :=
  DecodesTo 32 (v.field "parentHash").text ∧
    ∀ m ∈ messagesOf v, DecodesTo 20 (m.field "from").text ∧ DecodesTo 20 (m.field "to").text

/-- The load stays in bounds, an accepted file is loaded exactly, and a text of the
wrong length makes the load return an error. -/
structure ExactLoad (v : Value) (l : Loaded) (r : EStateM.Result Stop Loaded Unit) : Prop where
  inBounds : outcome r ≠ .error .pastEnd
  hash : outcome r = .ok () →
    decode (v.field "parentHash").text = some (left r).block.prevBlock.toList
  addresses : outcome r = .ok () → ∃ added, (left r).messages = l.messages ++ added ∧
    List.Forall₂ AddressesExact (messagesOf v) added
  sized : ¬ WellSized v → ∃ message, outcome r = .error (.error message)

theorem decodesTo_iff {chars : Char → Bool} {name : String} (h : HexField chars v name)
    (hchars : ∀ c, chars c = true → isHex c = true) (n : Nat) :
    DecodesTo n (v.field name).text ↔ digitCount (v.field name).text = 2 * n := by
  obtain ⟨heven, hodd⟩ := decode_digits hchars h.digits
  unfold DecodesTo
  by_cases hparity : digitCount (v.field name).text % 2 = 0
  · obtain ⟨bytes, hbytes, hlen⟩ := heven hparity
    rw [hbytes]
    simp only [Option.some.injEq, exists_eq_left', hlen]
    omega
  · rw [hodd hparity]
    apply iff_of_false
    · simp
    · omega

theorem wellSized_iff (h : BlockShape v) :
    WellSized v ↔ digitCount (v.field "parentHash").text = 64 := by
  unfold WellSized
  rw [decodesTo_iff h.parentHash fun c hc => isHex_of_lower hc]
  apply and_iff_left
  intro m hm
  have hmsg := h.messages m hm
  rw [decodesTo_iff hmsg.sender fun c hc => hc, decodesTo_iff hmsg.recipient fun c hc => hc]
  exact ⟨hmsg.senderLength, hmsg.recipientLength⟩

theorem handleBlock_ne_pastEnd (h : BlockShape v) (hfits : HashFits v) (l : Loaded) :
    outcome (handleBlock ext memory v.members l) ≠ .error .pastEnd := by
  by_cases hheader : HeaderConverts v
  · obtain ⟨block, -, hrun⟩ := handleBlock_header ext memory h hheader l
    rw [hrun]
    exact fill_ne _ _ (fun m hm => handleItem_ne_pastEnd (h.messages m hm)) _
  · rcases handleBlock_not_header ext memory h hheader l with ⟨e, he⟩ | ⟨hno, -⟩
    · rw [he]
      simp
    · exact absurd hfits hno

/-- A hash of 64 digits is loaded exactly. -/
theorem handleBlock_exact (h : BlockShape v) (hdigits : digitCount (v.field "parentHash").text = 64)
    {l l' : Loaded} (hrun : handleBlock ext memory v.members l = .ok () l') :
    decode (v.field "parentHash").text = some l'.block.prevBlock.toList ∧
      ∃ added, l'.messages = l.messages ++ added ∧
        List.Forall₂ AddressesExact (messagesOf v) added := by
  have hok : outcome (handleBlock ext memory v.members l) = .ok () := by rw [hrun]; rfl
  obtain ⟨hconverts, -⟩ := (handleBlock_ok_iff h l).mp hok
  obtain ⟨block, ⟨number, hash, -, ⟨hwritten, -⟩, rfl⟩, hfill⟩ :=
    handleBlock_header ext memory h hconverts.1 l
  obtain ⟨hblock, hadded⟩ := fill_accepts h.messages (hfill.symm.trans hrun)
  obtain ⟨bytes, hbytes, hlen⟩ :=
    (decodesTo_iff h.parentHash (fun c hc => isHex_of_lower hc) 32).mpr hdigits
  refine ⟨?_, hadded⟩
  rw [hblock, hbytes]
  show some bytes = some hash.toList
  rw [hwritten bytes hbytes, hlen, List.drop_of_length_le (by simp), List.append_nil]

theorem exactLoad_of_digits (h : BlockShape v)
    (hdigits : digitCount (v.field "parentHash").text = 64) (label : String) (l : Loaded) :
    ExactLoad v l (labelledCall label (handleBlock ext memory v.members) l) := by
  have hfits : HashFits v := fun _ => Nat.le_of_eq hdigits
  have haccepted : outcome (labelledCall label (handleBlock ext memory v.members) l) = .ok () →
      ∃ l', handleBlock ext memory v.members l = .ok () l' := by
    intro hacc
    rw [outcome_labelledCall, labelled_eq_ok_iff] at hacc
    cases hrun : handleBlock ext memory v.members l with
    | ok a l' => exact ⟨l', rfl⟩
    | error e l' =>
      rw [hrun] at hacc
      cases hacc
  constructor
  · rw [outcome_labelledCall, Ne, labelled_eq_stop_iff _ _ (by simp)]
    exact handleBlock_ne_pastEnd h hfits l
  · intro hacc
    obtain ⟨l', hl'⟩ := haccepted hacc
    rw [left_labelledCall, hl']
    exact (handleBlock_exact h hdigits hl').1
  · intro hacc
    obtain ⟨l', hl'⟩ := haccepted hacc
    rw [left_labelledCall, hl']
    exact (handleBlock_exact h hdigits hl').2
  · intro hno
    exact absurd ((wellSized_iff h).mpr hdigits) hno

/-- A load that returns an error is exact, whatever the hash. -/
theorem exactLoad_of_error {l : Loaded} {r : EStateM.Result Stop Loaded Unit}
    (herr : ∃ message, outcome r = .error (.error message)) : ExactLoad v l r := by
  obtain ⟨message, herr⟩ := herr
  constructor
  · rw [herr]
    simp
  · intro hacc
    rw [herr] at hacc
    cases hacc
  · intro hacc
    rw [herr] at hacc
    cases hacc
  · exact fun _ => ⟨message, herr⟩

theorem handleBlock_error_iff (h : BlockShape v) (l : Loaded) :
    (∃ message, outcome (handleBlock ext memory v.members l) = .error (.error message)) ↔
      BlockConverts ext v ∧ ∃ m ∈ messagesOf v, ¬ EvenData m := by
  have hok : outcome (handleBlock ext memory v.members l) = .ok () ↔ _ := handleBlock_ok_iff h l
  have hreturns : Returns (outcome (handleBlock ext memory v.members l)) ↔ _ :=
    returns_handleBlock_iff h l
  constructor
  · rintro ⟨message, herr⟩
    have hconverts : BlockConverts ext v := hreturns.mp (by rw [herr]; exact returns_error _)
    refine ⟨hconverts, ?_⟩
    by_contra heven
    have hall : ∀ m ∈ messagesOf v, EvenData m := by
      intro m hm
      by_contra hodd
      exact heven ⟨m, hm, hodd⟩
    rw [hok.mpr ⟨hconverts, hall⟩] at herr
    cases herr
  · rintro ⟨hconverts, m, hm, hodd⟩
    rcases hreturns.mpr hconverts with ⟨a, ha⟩ | herr
    · exact absurd ((hok.mp ha).2 m hm) hodd
    · exact herr

/-- **When the load of a file is exact and in bounds.** -/
theorem loadBlock_exact_iff (hfile : ValidFile ext blockData v) (l : Loaded) :
    ExactLoad v l (loadBlockWithMessages ext memory blockData l) ↔
      digitCount (v.field "parentHash").text = 64 ∨
        BlockConverts ext v ∧ ∃ m ∈ messagesOf v, ¬ EvenData m := by
  have h := blockShape_of hfile.valid
  rw [loadBlock_valid hfile, ← handleBlock_error_iff h l]
  constructor
  · intro hexact
    by_cases hdigits : digitCount (v.field "parentHash").text = 64
    · exact Or.inl hdigits
    · right
      have herr := hexact.sized fun hsized => hdigits ((wellSized_iff h).mp hsized)
      rwa [outcome_labelledCall, labelled_error_iff] at herr
  · rintro (hdigits | herr)
    · exact exactLoad_of_digits h hdigits _ l
    · apply exactLoad_of_error
      rwa [outcome_labelledCall, labelled_error_iff]

end Exact

/-! ## Some files -/

section Files

/-- `intx::from_string`, on decimal digits. -/
def textNumber (t : Text) : Except Thrown UInt256 :=
  if t ≠ [] ∧ t.all isDigit = true then .ok (BitVec.ofNat 256 (decimal t))
  else .error .invalidArgument

/-- Libraries that parse one text, and accept no SSZ. -/
def externalOf (text : Bytes) (v : Value) : External where
  parser := parserOf text v
  validator := ⟨fun _ _ => false, fun _ _ => "invalid".toList⟩
  fromString := textNumber
  deserializeBlock _ := .error .truncated
  deserializeMessage _ := .error .truncated
  deserializeContract _ := .error .truncated

def zeroMessage : Message where
  flags := 0
  chainId := 0
  seqno := 0
  feeCredit := 0
  fromAddress := Vector.replicate 20 0
  toAddress := Vector.replicate 20 0
  refundTo := Vector.replicate 20 0
  bounceTo := Vector.replicate 20 0
  value := 0
  currency := []
  data := []
  signature := []

def zeroBlock : Block where
  id := 0
  prevBlock := Vector.replicate 32 0
  smartContractsRoot := Vector.replicate 32 0
  inMessagesRoot := Vector.replicate 32 0
  outMessagesRoot := Vector.replicate 32 0
  outMessagesNum := 0
  receiptsRoot := Vector.replicate 32 0
  childBlocksRootHash := Vector.replicate 32 0
  masterChainHash := Vector.replicate 32 0
  logsBloom := Vector.replicate 256 0
  timestamp := 0
  gasPrice := 0

def addressText : String := "0x00000000000000000000000000000000000000aB"

/-- A message between two addresses, with no flags and the value 1. -/
def messageDoc (feeCredit data : String) : Value :=
  .object [("flags".toList, .array []), ("from".toList, .string addressText.toList),
    ("to".toList, .string addressText.toList), ("feeCredit".toList, .string feeCredit.toList),
    ("value".toList, .string "1".toList), ("data".toList, .string data.toList)]

def messageJson (feeCredit data : String) : Bytes :=
  ascii "\x7b\"flags\":[],\"from\":\"" ++ ascii addressText ++ ascii "\",\"to\":\"" ++
    ascii addressText ++ ascii "\",\"feeCredit\":\"" ++ ascii feeCredit ++
    ascii "\",\"value\":\"1\",\"data\":\"" ++ ascii data ++ ascii "\"\x7d"

def blockDoc (number : Value) (parentHash gasPrice : String) (messages : List Value) : Value :=
  .object [("number".toList, number), ("parentHash".toList, .string parentHash.toList),
    ("gasPrice".toList, .string gasPrice.toList), ("messages".toList, .array messages)]

def blockJson (number parentHash gasPrice : String) (messages : List Bytes) : Bytes :=
  ascii "\x7b\"number\":" ++ ascii number ++ ascii ",\"parentHash\":\"" ++ ascii parentHash ++
    ascii "\",\"gasPrice\":\"" ++ ascii gasPrice ++ ascii "\",\"messages\":[" ++
    (ascii ",").intercalate messages ++ ascii "]\x7d"

/-- The load of a block file, into a block of zeros and no messages. -/
def loadFile (text : Bytes) (v : Value) : EStateM.Result Stop Loaded Unit :=
  loadBlockWithMessages (externalOf text v) zeroMessage { data := text } ⟨zeroBlock, []⟩

def hashText : String := "0x0123456789abcdef0123456789abcdef0123456789abcdef0123456789abcdef"

/-- A text without NUL and the document it holds, which satisfies the schema. -/
structure BlockText where
  text : Bytes
  doc : Value
  ne_nul : ∀ b ∈ text, b ≠ 0
  valid : blockSchema (fun _ _ => false) doc = true

theorem BlockText.validFile (f : BlockText) :
    ValidFile (externalOf f.text f.doc) { data := f.text } f.doc :=
  ⟨parseJson_parserOf f.doc f.ne_nul, f.valid⟩

def fullHash : BlockText where
  text := blockJson "7" hashText "1" [messageJson "5" "0xab"]
  doc := blockDoc (.int64 7) hashText "1" [messageDoc "5" "0xab"]
  ne_nul := ne_zero_of_all (by decide +kernel)
  valid := by decide +kernel

/-- A file with a hash of 64 digits and one message. -/
theorem loadBlock_exact_full_hash :
    let text := blockJson "7" hashText "1" [messageJson "5" "0xab"]
    let v := blockDoc (.int64 7) hashText "1" [messageDoc "5" "0xab"]
    ExactLoad v ⟨zeroBlock, []⟩ (loadFile text v) ↔
      digitCount (v.field "parentHash").text = 64 ∨
        BlockConverts (externalOf text v) v ∧ ∃ m ∈ messagesOf v, ¬ EvenData m :=
  loadBlock_exact_iff fullHash.validFile _

def shortHash : BlockText where
  text := blockJson "7" "0xab" "1" []
  doc := blockDoc (.int64 7) "0xab" "1" []
  ne_nul := ne_zero_of_all (by decide +kernel)
  valid := by decide +kernel

def longHash : BlockText where
  text := blockJson "7" (hashText ++ "01") "1" []
  doc := blockDoc (.int64 7) (hashText ++ "01") "1" []
  ne_nul := ne_zero_of_all (by decide +kernel)
  valid := by decide +kernel

/-- A hash of one byte is accepted, and leaves the other 31 as they were; one of 33
bytes is written past the end. -/
theorem loadBlock_inexact :
    let short := blockDoc (.int64 7) "0xab" "1" []
    let long := blockDoc (.int64 7) (hashText ++ "01") "1" []
    (ValidFile (externalOf (blockJson "7" "0xab" "1" []) short)
        { data := blockJson "7" "0xab" "1" [] } short ∧
      outcome (loadFile (blockJson "7" "0xab" "1" []) short) = .ok () ∧
      ¬ ExactLoad short ⟨zeroBlock, []⟩ (loadFile (blockJson "7" "0xab" "1" []) short)) ∧
    ValidFile (externalOf (blockJson "7" (hashText ++ "01") "1" []) long)
        { data := blockJson "7" (hashText ++ "01") "1" [] } long ∧
      ¬ ExactLoad long ⟨zeroBlock, []⟩ (loadFile (blockJson "7" (hashText ++ "01") "1" []) long) := by
  intro short long
  have hshort : ValidFile (externalOf (blockJson "7" "0xab" "1" []) short)
      { data := blockJson "7" "0xab" "1" [] } short := shortHash.validFile
  have hlong : ValidFile (externalOf (blockJson "7" (hashText ++ "01") "1" []) long)
      { data := blockJson "7" (hashText ++ "01") "1" [] } long := longHash.validFile
  unfold loadFile
  rw [loadBlock_valid hshort, loadBlock_valid hlong]
  refine ⟨⟨hshort, by decide +kernel, ?_⟩, hlong, ?_⟩
  · intro hexact
    have hhash := hexact.hash (by decide +kernel)
    exact absurd hhash (by decide +kernel)
  · intro hexact
    exact hexact.inBounds (by decide +kernel)

end Files

end AssignerRunner
