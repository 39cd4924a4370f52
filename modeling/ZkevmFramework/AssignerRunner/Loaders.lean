import ZkevmFramework.AssignerRunner.BlockFile
import ZkevmFramework.AssignerRunner.StateFile

/-!
# How the loaders end, and what they leave

A loader reports what it looks for as an error string.  What it does not look for
is thrown: another kind of value, a number out of range, an SSZ that is rejected.

    a load returns ↔ the document converts, up to the first error   (loaders_return_iff)

A loader that returns an error has stored the elements before the one at fault,
each of them whole (`loaders_keep_elements`).
-/

namespace AssignerRunner

open Cpp JsonHelpers Core.Types

/-! ## Return or exception -/

section Returns

variable {ext : External}

theorem returns_answeredAccount_iff (body : Bytes) :
    Returns (answeredAccount ext body) ↔
      ∀ v, parseJson ext.parser { data := body } = .ok v → AccountConverts ext v := by
  have hload : Returns (outcome (loadAccountWithStorage ext { data := body } Account.declared)) ↔ _ :=
    returns_loadAccount_iff _ _
  have hparse : Returns (parseJson ext.parser { data := body }) :=
    parseJson_returns (Or.inr ⟨rfl, rfl⟩)
  rw [and_iff_right hparse] at hload
  rw [← hload]
  unfold answeredAccount
  cases loadAccountWithStorage ext { data := body } Account.declared with
  | ok a account => exact iff_of_true (returns_ok _) (returns_ok _)
  | error e account => cases e <;> simp [Returns, outcome, noexcept]

/-- The account is known, the node gives none, or its answer converts. -/
theorem returns_getAccount_iff (rpc : Text → Except Text Bytes) (addr : EvmcAddress)
    (accounts : Accounts) :
    Returns (outcome (getAccount ext rpc addr accounts)) ↔
      (accounts addr = none → ∀ body, rpc (byteArrayToStr addr.toList) = .ok body →
        ∀ v, parseJson ext.parser { data := body } = .ok v → AccountConverts ext v) := by
  unfold getAccount
  cases accounts addr with
  | some account => exact iff_of_true (returns_ok _) (by simp)
  | none =>
    rw [forall_prop_of_true rfl]
    cases rpc (byteArrayToStr addr.toList) with
    | error message => exact iff_of_true (returns_ok _) (by simp)
    | ok body =>
      simp only [Except.ok.injEq, forall_eq']
      rw [← returns_answeredAccount_iff]
      rcases answeredAccount ext body with e | (_ | account)
      · cases e <;> simp [Returns, outcome]
      · exact iff_of_true (returns_ok _) (returns_ok _)
      · exact iff_of_true (returns_ok _) (returns_ok _)

/-- **When the loaders return.**  A block file, a state file and the answers of a node
load or give an error string exactly when they convert up to the first error, and
`get_account` ends the process on any other answer. -/
theorem loaders_return_iff (ext : External) (memory : Message) :
    (∀ blockData l, Returns (outcome (loadBlockWithMessages ext memory blockData l)) ↔
      Returns (parseJson ext.parser blockData) ∧ ∀ v, parseJson ext.parser blockData = .ok v →
        blockSchema ext.validator.same v = true → BlockConverts ext v) ∧
    (∀ blockData l, Returns (outcome (loadRawBlockWithMessages ext blockData l)) ↔
      Returns (parseJson ext.parser blockData) ∧
        ∀ v, parseJson ext.parser blockData = .ok v → RawConverts ext v) ∧
    (∀ config accounts, Returns (outcome (initAccountStorage ext config accounts)) ↔
      Returns (parseJson ext.parser config) ∧ ∀ v, parseJson ext.parser config = .ok v →
        stateSchema ext.validator.same v = true → StateConverts ext v) ∧
    (∀ accountData account, Returns (outcome (loadAccountWithStorage ext accountData account)) ↔
      Returns (parseJson ext.parser accountData) ∧
        ∀ v, parseJson ext.parser accountData = .ok v → AccountConverts ext v) ∧
    ∀ rpc addr accounts, Returns (outcome (getAccount ext rpc addr accounts)) ↔
      (accounts addr = none → ∀ body, rpc (byteArrayToStr addr.toList) = .ok body →
        ∀ v, parseJson ext.parser { data := body } = .ok v → AccountConverts ext v) :=
  ⟨fun _ l => returns_loadBlock_iff l, returns_loadRawBlock_iff,
    fun _ accounts => returns_initAccountStorage_iff accounts, returns_loadAccount_iff,
    returns_getAccount_iff⟩

def answerText : Bytes := ascii "\x7b\"result\":\x7b\"code\":1\x7d\x7d"

def answerDoc : Value := .object [("result".toList, .object [("code".toList, .int64 1)])]

def fractionalNumber : BlockText where
  text := blockJson "1.5" hashText "1" []
  doc := blockDoc (.double 0x3FF8000000000000) hashText "1" []
  ne_nul := ne_zero_of_all (by decide +kernel)
  valid := by decide +kernel

/-- A block number with a fraction is thrown, though the schema lets it through, and a
node that answers with a number for the code ends the process. -/
theorem loaders_throw :
    let text := blockJson "1.5" hashText "1" []
    let v := blockDoc (.double 0x3FF8000000000000) hashText "1" []
    (ValidFile (externalOf text v) { data := text } v ∧
      outcome (loadFile text v) = .error (.throws .wrongKind)) ∧
    outcome (getAccount (externalOf answerText answerDoc) (fun _ => .ok answerText)
      (Vector.replicate 20 0) fun _ => none) = .error .terminates := by
  intro text v
  have hfile : ValidFile (externalOf text v) { data := text } v := fractionalNumber.validFile
  refine ⟨⟨hfile, ?_⟩, rfl⟩
  unfold loadFile
  rw [loadBlock_valid hfile]
  decide +kernel

end Returns

/-! ## What an error leaves -/

section Left

variable {ext : External} {memory : Message} {blockData config : Istream} {l l' : Loaded}
  {message : Text}

theorem foldl_push (added : List Message) (l : Loaded) :
    added.foldl (fun l m => Loaded.push m l) l = ⟨l.block, l.messages ++ added⟩ := by
  induction added generalizing l with
  | nil => simp
  | cons m added ih =>
    rw [List.foldl_cons, ih]
    simp [Loaded.push]

/-- A document that is rejected leaves the objects as they were. -/
theorem validated_error {σ : Type} {s s' : σ} {label label' : String} {schema : Schema}
    {f : Value → Call σ Unit}
    (h : (do
      let v ← call (labelled label (parseJson ext.parser blockData))
      call (orReturn label' (validateJson ext.validator schema v))
      f v : Call σ Unit) s = .error (.error message) s') :
    (s' = s ∧ ∀ v, parseJson ext.parser blockData = .ok v → ¬ schema v = true) ∨
      ∃ v, parseJson ext.parser blockData = .ok v ∧ schema v = true ∧
        f v s = .error (.error message) s' := by
  rcases call_bind_eq_error h with ⟨hparse, hs⟩ | ⟨v, hparse, h⟩
  · refine Or.inl ⟨hs, ?_⟩
    intro v hv
    rw [hv] at hparse
    cases hparse
  · rw [labelled_eq_ok_iff] at hparse
    rcases call_bind_eq_error h with ⟨hvalid, hs⟩ | ⟨_, hvalid, h⟩
    · refine Or.inl ⟨hs, ?_⟩
      intro v' hv' hschema
      rw [hparse, Except.ok.injEq] at hv'
      rw [← hv'] at hschema
      unfold validateJson at hvalid
      rw [if_pos hschema] at hvalid
      cases hvalid
    · refine Or.inr ⟨v, hparse, ?_, h⟩
      by_contra hschema
      unfold validateJson at hvalid
      rw [if_neg hschema] at hvalid
      cases hvalid

/-- **A block file that is not loaded**: nothing is changed, or the header is there and
the messages before the one at fault. -/
theorem loadBlock_error
    (h : loadBlockWithMessages ext memory blockData l = .error (.error message) l') :
    (l' = l ∧ ∀ v, ¬ ValidFile ext blockData v) ∨
      ∃ v added, ValidFile ext blockData v ∧
        ConvertedUpTo (handleItem ext memory) (messagesOf v) added ∧
        HeaderWritten v l.block l'.block ∧ l'.messages = l.messages ++ added := by
  rcases validated_error h with ⟨hl, hno⟩ | ⟨v, hparse, hvalid, hrun⟩
  · exact Or.inl ⟨hl, fun v hv => hno v hv.parses hv.valid⟩
  · right
    have hshape := blockShape_of hvalid
    rw [Value.asObject_of hshape.isObject, call_bind_ok] at hrun
    obtain ⟨message', hblock⟩ := of_labelledCall_error hrun
    have hconverts : BlockConverts ext v := by
      rw [← returns_handleBlock_iff hshape l, hblock]
      exact returns_error _
    obtain ⟨block, hwritten, hfill⟩ := handleBlock_header ext memory hshape hconverts.1 l
    obtain ⟨added, hadded, hl'⟩ := fill_error _ _ (hfill.symm.trans hblock)
    rw [foldl_push] at hl'
    rw [hl']
    exact ⟨v, added, ⟨hparse, hvalid⟩, hadded, hwritten, rfl⟩

/-- The block that the content of an answer deserialises to. -/
structure RawBlockOf (ext : External) (blockData : Istream) (v : Value) (block : Block) : Prop where
  parses : parseJson ext.parser blockData = .ok v
  found : resultContains v "content" = .ok true
  content : ∃ t bytes, (do (← (← v.atKey "result").atKey "content").asCString) = .ok t ∧
    decode t = some bytes ∧ ext.deserializeBlock bytes = .ok block

/-- `inMessages` of an answer, into a block that is there. -/
def loadInMessages (ext : External) (v : Value) : Call Loaded Unit := do
  let found ← call (resultContains v "inMessages")
  call (orMissing "Input messages not found in the JSON" found)
  let jsonInputMsgs ← call (do (← (← v.atKey "result").atKey "inMessages").asArray)
  fill (handleRawItem ext) Loaded.push jsonInputMsgs

theorem loadRawBlock_of {v : Value} {block : Block} (hraw : RawBlockOf ext blockData v block)
    (l : Loaded) :
    loadRawBlockWithMessages ext blockData l = loadInMessages ext v ⟨block, l.messages⟩ := by
  obtain ⟨t, bytes, htext, hbytes, hblock⟩ := hraw.content
  unfold loadRawBlockWithMessages
  rw [hraw.parses]
  show (call (resultContains v "content") >>= _) l = _
  rw [hraw.found, call_bind_ok]
  show (call (do (← (← v.atKey "result").atKey "content").asCString) >>= _) l = _
  rw [htext, call_bind_ok, extractBytes_of_some hbytes, call_bind_ok, hblock]
  rfl

/-- An answer without a block leaves the objects as they were. -/
theorem loadRawBlock_without (hraw : ¬ ∃ v block, RawBlockOf ext blockData v block)
    (h : loadRawBlockWithMessages ext blockData l = .error (.error message) l') : l' = l := by
  unfold loadRawBlockWithMessages at h
  rcases call_bind_eq_error h with ⟨-, hl⟩ | ⟨v, hparse, h⟩
  · exact hl
  rcases call_bind_eq_error h with ⟨-, hl⟩ | ⟨found, hfound, h⟩
  · exact hl
  rcases call_bind_eq_error h with ⟨-, hl⟩ | ⟨_, hok, h⟩
  · exact hl
  rcases call_bind_eq_error h with ⟨-, hl⟩ | ⟨t, htext, h⟩
  · exact hl
  rcases call_bind_eq_error h with ⟨-, hl⟩ | ⟨bytes, hbytes, h⟩
  · exact hl
  rcases call_bind_eq_error h with ⟨-, hl⟩ | ⟨block, hblock, h⟩
  · exact hl
  · exfalso
    rw [orMissing_ok_iff] at hok
    subst hok
    exact hraw ⟨v, block, (labelled_eq_ok_iff _ _ _).mp hparse, hfound, t, bytes, htext,
      extractBytes_ok_iff.mp hbytes, (orThrow_ok_iff _ _).mp hblock⟩

/-- The messages before the one at fault are there, or none if there are none to read. -/
theorem loadInMessages_error {v : Value}
    (h : loadInMessages ext v l = .error (.error message) l') :
    ∃ added, l' = ⟨l.block, l.messages ++ added⟩ ∧
      (resultContains v "inMessages" = .ok false ∧ added = [] ∨
        ∃ msgs, (do (← (← v.atKey "result").atKey "inMessages").asArray) = .ok msgs ∧
          ConvertedUpTo (handleRawItem ext) msgs added) := by
  rcases call_bind_eq_error h with ⟨hfound, -⟩ | ⟨found, hfound, h⟩
  · exact absurd hfound (throwsOnly_resultContains v "inMessages" message)
  cases found with
  | false =>
    rw [show orMissing "Input messages not found in the JSON" false = .error _ from rfl,
      call_bind_error, EStateM.Result.error.injEq] at h
    exact ⟨[], by rw [← h.2, List.append_nil], Or.inl ⟨hfound, rfl⟩⟩
  | true =>
    rcases call_bind_eq_error h with ⟨hok, -⟩ | ⟨_, -, h⟩
    · cases hok
    rcases call_bind_eq_error h with ⟨harray, -⟩ | ⟨msgs, hmsgs, h⟩
    · refine absurd harray (ThrowsOnly.bind ?_ ?_ message)
      · exact v.throwsOnly_atKey "result"
      · exact fun r => (r.throwsOnly_atKey _).bind fun x => x.throwsOnly_asArray
    · obtain ⟨added, hadded, hl'⟩ := fill_error _ _ h
      rw [foldl_push] at hl'
      exact ⟨added, hl', Or.inr ⟨msgs, hmsgs, hadded⟩⟩

/-- **A node's block that is not loaded**: nothing is changed, or the block is there and
the messages before the one at fault. -/
theorem loadRawBlock_error
    (h : loadRawBlockWithMessages ext blockData l = .error (.error message) l') :
    (l' = l ∧ ∀ v block, ¬ RawBlockOf ext blockData v block) ∨
      ∃ v block added, RawBlockOf ext blockData v block ∧
        l' = ⟨block, l.messages ++ added⟩ ∧
        (resultContains v "inMessages" = .ok false ∧ added = [] ∨
          ∃ msgs, (do (← (← v.atKey "result").atKey "inMessages").asArray) = .ok msgs ∧
            ConvertedUpTo (handleRawItem ext) msgs added) := by
  by_cases hraw : ∃ v block, RawBlockOf ext blockData v block
  · right
    obtain ⟨v, block, hraw⟩ := hraw
    rw [loadRawBlock_of hraw] at h
    obtain ⟨added, hl', hcases⟩ := loadInMessages_error h
    exact ⟨v, block, added, hraw, hl', hcases⟩
  · left
    exact ⟨loadRawBlock_without hraw h, fun v block hv => hraw ⟨v, block, hv⟩⟩

/-- **A state file that is not loaded**: nothing is changed, or the accounts before the
one at fault are stored. -/
theorem initAccountStorage_error {accounts accounts' : Accounts}
    (h : initAccountStorage ext config accounts = .error (.error message) accounts') :
    (accounts' = accounts ∧ ∀ v, ¬ ValidState ext config v) ∨
      ∃ v entries, ValidState ext config v ∧
        ConvertedUpTo (handleAccountItem ext) (v.field "accounts").elems entries ∧
        accounts' = entries.foldl Accounts.assign accounts := by
  rcases validated_error h with ⟨hl, hno⟩ | ⟨v, hparse, hvalid, hrun⟩
  · exact Or.inl ⟨hl, fun v hv => hno v hv.parses hv.valid⟩
  · right
    have hshape := stateShape_of hvalid
    rw [Value.asObject_of hshape.isObject, ok_bind, Value.members_atKey hshape.hasAccounts, ok_bind,
      Value.asArray_of hshape.isArray, call_bind_ok] at hrun
    obtain ⟨entries, hentries, haccounts⟩ := fill_error _ _ hrun
    exact ⟨v, entries, ⟨hparse, hvalid⟩, hentries, haccounts⟩

/-- **An error leaves whole elements.**  Up to the point where a document is accepted,
nothing is changed; from there on the caller has the header, and the elements before the
one at fault. -/
theorem loaders_keep_elements (ext : External) (memory : Message) :
    (∀ blockData l message l',
      loadBlockWithMessages ext memory blockData l = .error (.error message) l' →
      (l' = l ∧ ∀ v, ¬ ValidFile ext blockData v) ∨
        ∃ v added, ValidFile ext blockData v ∧
          ConvertedUpTo (handleItem ext memory) (messagesOf v) added ∧
          HeaderWritten v l.block l'.block ∧ l'.messages = l.messages ++ added) ∧
    (∀ blockData l message l', loadRawBlockWithMessages ext blockData l = .error (.error message) l' →
      (l' = l ∧ ∀ v block, ¬ RawBlockOf ext blockData v block) ∨
        ∃ v block added, RawBlockOf ext blockData v block ∧
          l' = ⟨block, l.messages ++ added⟩ ∧
          (resultContains v "inMessages" = .ok false ∧ added = [] ∨
            ∃ msgs, (do (← (← v.atKey "result").atKey "inMessages").asArray) = .ok msgs ∧
              ConvertedUpTo (handleRawItem ext) msgs added)) ∧
    ∀ config accounts message accounts',
      initAccountStorage ext config accounts = .error (.error message) accounts' →
      (accounts' = accounts ∧ ∀ v, ¬ ValidState ext config v) ∨
        ∃ v entries, ValidState ext config v ∧
          ConvertedUpTo (handleAccountItem ext) (v.field "accounts").elems entries ∧
          accounts' = entries.foldl Accounts.assign accounts :=
  ⟨fun _ _ _ _ h => loadBlock_error h, fun _ _ _ _ h => loadRawBlock_error h,
    fun _ _ _ _ h => initAccountStorage_error h⟩

def halfText : Bytes :=
  blockJson "7" hashText "1" [messageJson "5" "0xab", messageJson "5" "0xabc"]

/-- The second of two messages has an odd digit. -/
def halfDoc : Value :=
  blockDoc (.int64 7) hashText "1" [messageDoc "5" "0xab", messageDoc "5" "0xabc"]

def half : BlockText where
  text := halfText
  doc := halfDoc
  ne_nul := ne_zero_of_all (by decide +kernel)
  valid := by decide +kernel

theorem validFile_half : ValidFile (externalOf halfText halfDoc) { data := halfText } halfDoc :=
  half.validFile

/-- The number of the block and the first message stay. -/
theorem loadFile_half :
    ∃ message l', loadFile halfText halfDoc = .error (.error message) l' ∧
      l'.block.id = 7 ∧ l'.messages.length = 1 := by
  have hrun : outcome (loadFile halfText halfDoc) = .error (.error
      ("Parse block failed: \n\t".toList ++ "Hex string to bytes failed".toList)) ∧
      (left (loadFile halfText halfDoc)).block.id = 7 ∧
      (left (loadFile halfText halfDoc)).messages.length = 1 := by
    unfold loadFile
    rw [loadBlock_valid validFile_half]
    decide +kernel
  cases h : loadFile halfText halfDoc with
  | ok a l' =>
    rw [h] at hrun
    cases hrun.1
  | error e l' =>
    rw [h] at hrun
    obtain ⟨he, hid, hlen⟩ := hrun
    exact ⟨_, l', by rw [Except.error.inj he], hid, hlen⟩

/-- The load of a file with a message at fault. -/
theorem loaders_keep_elements_half :
    ∃ message l', loadFile halfText halfDoc = .error (.error message) l' ∧
      ((l' = ⟨zeroBlock, []⟩ ∧
          ∀ v, ¬ ValidFile (externalOf halfText halfDoc) { data := halfText } v) ∨
        ∃ v added, ValidFile (externalOf halfText halfDoc) { data := halfText } v ∧
          ConvertedUpTo (handleItem (externalOf halfText halfDoc) zeroMessage) (messagesOf v) added ∧
          HeaderWritten v zeroBlock l'.block ∧ l'.messages = [] ++ added) := by
  obtain ⟨message, l', h, -⟩ := loadFile_half
  exact ⟨message, l', h, (loaders_keep_elements _ _).1 _ _ _ _ h⟩

/-- An error is returned, and block and messages are not as before. -/
theorem loadBlock_not_atomic :
    ∃ message l', loadFile halfText halfDoc = .error (.error message) l' ∧
      l'.block ≠ zeroBlock ∧ l'.messages ≠ [] := by
  obtain ⟨message, l', h, hid, hlen⟩ := loadFile_half
  refine ⟨message, l', h, ?_, ?_⟩
  · intro hblock
    rw [hblock] at hid
    exact absurd hid (by decide)
  · intro hmessages
    rw [hmessages] at hlen
    cases hlen

end Left

end AssignerRunner
