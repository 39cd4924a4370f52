import ZkevmFramework.AssignerRunner.BlockFile

/-!
# `fill_assignments`

The messages of the block are executed one after the other.  The gas of one is its
credit divided by the low word of the gas price, cut to its own low word and read
as a signed number:

    every message is given ⌊credit / price⌋ ↔ its credit and the price fit
                                                                (fillAssignments_gas_iff)

They fit, where the price has 64 bits, if it is not 0 and the quotient is below 2^63; a
larger price has to agree with its low word besides (`GasFits`).
-/

namespace AssignerRunner

open Cpp JsonHelpers Core.Types

/-! ## The loop over the messages -/

/-- `evmc_message` -/
structure EvmcMessage where
  kind : CallKind
  flags : UInt32
  depth : Int32
  gas : Int64
  recipient : EvmcAddress
  sender : EvmcAddress
  inputData : Bytes
  value : Bytes32
  create2Salt : Bytes32
  codeAddress : EvmcAddress

/-- The host with its accounts and tables, and the EVM that runs on it. -/
structure Host (σ : Type) where
  getCodeSize : EvmcAddress → σ → Nat × σ
  /-- The number of bytes copied into a buffer of the given size, and the buffer. -/
  copyCode : EvmcAddress → Nat → σ → (Nat × Bytes) × σ
  evaluate : EvmcMessage → Bytes → σ → σ

/-- The host, and what was executed so far: each message with what was made of it. -/
structure Execution (σ : Type) where
  host : σ
  evaluated : List (Message × EvmcMessage)

section Model

variable {σ : Type} (host : Host σ) (block : Block)

/-- The division of the credit, and the conversions on the way to `int64_t`. -/
def gasOf (feeCredit gasPrice : UInt256) : Except Stop Int64 :=
  let divisor : BitVec 64 := gasPrice.setWidth 64
  if divisor = 0 then .error .divisionByZero
  else .ok (Int64.ofBitVec ((feeCredit / divisor.setWidth 256).setWidth 64))

/-- Nothing to do: an external message that deploys. -/
def skipped (m : Message) : Bool := !testFlag m.flags .internal && testFlag m.flags .deploy

/-- The call data is counted while it is copied. -/
def copyCalldata (data : Bytes) : Nat × Bytes :=
  data.foldl (fun r b => (r.1 + 1, r.2 ++ [b])) (0, [])

def failedCopy (what : String) (expected real : Nat) : Text :=
  "Failed copy ".toList ++ what.toList ++ ": expected size = ".toList ++
    (toString expected).toList ++ ", real = ".toList ++ (toString real).toList

/-- A call of the host. -/
def onHost {α : Type} (f : σ → α × σ) : Call (Execution σ) α := fun e =>
  .ok (f e.host).1 { e with host := (f e.host).2 }

/-- The message handed to the EVM. -/
def evmcMessage (inputMsg : Message) (calldata : Bytes) (gas : Int64) : EvmcMessage where
  kind := evmcMsgKind inputMsg.flags
  flags := 0
  depth := 0
  gas := gas
  recipient := toEvmcAddress inputMsg.toAddress
  sender := toEvmcAddress inputMsg.fromAddress
  inputData := calldata
  value := toUint256be inputMsg.value
  create2Salt := Vector.replicate 32 0
  codeAddress := toEvmcAddress inputMsg.fromAddress

/-- One message that is not skipped. -/
def executeMessage (inputMsg : Message) : Call (Execution σ) Unit := do
  let calldata := copyCalldata inputMsg.data
  call (if calldata.1 = inputMsg.data.length then .ok ()
    else .error (.error (failedCopy "calldata" inputMsg.data.length calldata.1)))
  let gas ← call (gasOf inputMsg.feeCredit block.gasPrice)
  let msg := evmcMessage inputMsg calldata.2 gas
  let size ← onHost (host.getCodeSize msg.recipient)
  let copied ← onHost (host.copyCode msg.recipient size)
  call (if copied.1 = size then .ok ()
    else .error (.error (failedCopy "contract code" size copied.1)))
  modify fun e =>
    { host := host.evaluate msg copied.2 e.host, evaluated := e.evaluated ++ [(inputMsg, msg)] }

/-- `fill_assignments`, from the construction of the host on. -/
def fillAssignments : List Message → Call (Execution σ) Unit
  | [] => pure ()
  | inputMsg :: inputMessages => do
    if skipped inputMsg then fillAssignments inputMessages
    else
      executeMessage host block inputMsg
      fillAssignments inputMessages

end Model

/-! ## The gas of one message -/

section Gas

/-- The price is not 0 and the quotient has 64 bits with a sign; and if the price has more
than 64 bits, dividing by its low word gives the same, up to a multiple of 2^64. -/
def GasFits (feeCredit gasPrice : UInt256) : Prop :=
  (gasPrice.toNat < 2 ^ 64 ∧ gasPrice ≠ 0 ∧ feeCredit.toNat / gasPrice.toNat < 2 ^ 63) ∨
    2 ^ 64 ≤ gasPrice.toNat ∧ gasPrice.toNat % 2 ^ 64 ≠ 0 ∧
      feeCredit.toNat / gasPrice.toNat < 2 ^ 63 ∧
        feeCredit.toNat / (gasPrice.toNat % 2 ^ 64) % 2 ^ 64 =
          feeCredit.toNat / gasPrice.toNat % 2 ^ 64

variable {feeCredit gasPrice : UInt256}

theorem gasOf_zero (h : gasPrice.toNat % 2 ^ 64 = 0) :
    gasOf feeCredit gasPrice = .error .divisionByZero := by
  have hdivisor : gasPrice.setWidth 64 = 0 := by
    apply BitVec.eq_of_toNat_eq
    rw [BitVec.toNat_setWidth, h]
    rfl
  unfold gasOf
  simp only [hdivisor, if_true]

/-- The gas, as the number the conversions leave. -/
theorem gasOf_ok (h : gasPrice.toNat % 2 ^ 64 ≠ 0) :
    ∃ gas, gasOf feeCredit gasPrice = .ok gas ∧
      gas.toInt = Int.bmod (feeCredit.toNat / (gasPrice.toNat % 2 ^ 64) : Nat) (2 ^ 64) := by
  have hdivisor : gasPrice.setWidth 64 ≠ 0 := by
    intro h0
    apply h
    rw [← BitVec.toNat_setWidth, h0]
    rfl
  refine ⟨_, if_neg hdivisor, ?_⟩
  show ((feeCredit / (gasPrice.setWidth 64).setWidth 256).setWidth 64).toInt = _
  have hcut : gasPrice.toNat % 2 ^ 64 % 2 ^ 256 = gasPrice.toNat % 2 ^ 64 :=
    Nat.mod_eq_of_lt (by omega)
  rw [BitVec.toInt_eq_toNat_bmod, BitVec.toNat_setWidth, BitVec.toNat_udiv, BitVec.toNat_setWidth,
    BitVec.toNat_setWidth, hcut]
  rw [Int.natCast_emod, Int.emod_bmod]

/-- A signed 64-bit number is read from its low word. -/
theorem bmod_eq_iff (n q : Nat) :
    Int.bmod n (2 ^ 64) = q ↔ q < 2 ^ 63 ∧ n % 2 ^ 64 = q := by
  rw [Int.bmod_def]
  by_cases h : (n : Int) % (2 ^ 64 : Nat) < ((2 ^ 64 : Nat) + 1) / 2
  · rw [if_pos h]
    omega
  · rw [if_neg h]
    omega

theorem price_ne_zero_iff : gasPrice ≠ 0 ↔ gasPrice.toNat ≠ 0 := by
  rw [Ne, Ne, ← BitVec.toNat_inj]
  rfl

/-- Both kinds of prices by their low word. -/
theorem gasFits_iff :
    GasFits feeCredit gasPrice ↔
      gasPrice.toNat % 2 ^ 64 ≠ 0 ∧ feeCredit.toNat / gasPrice.toNat < 2 ^ 63 ∧
        feeCredit.toNat / (gasPrice.toNat % 2 ^ 64) % 2 ^ 64 =
          feeCredit.toNat / gasPrice.toNat := by
  unfold GasFits
  rcases Nat.lt_or_ge gasPrice.toNat (2 ^ 64) with hlt | hge
  · rw [or_iff_left (fun h => absurd h.1 (Nat.not_le_of_lt hlt)), and_iff_right hlt,
      price_ne_zero_iff, Nat.mod_eq_of_lt hlt]
    refine and_congr_right fun _ => (and_iff_left_of_imp fun hq => ?_).symm
    exact Nat.mod_eq_of_lt (by omega)
  · rw [or_iff_right (fun h => absurd h.1 (Nat.not_lt_of_le hge)), and_iff_right hge]
    refine and_congr_right fun _ => and_congr_right fun hq => ?_
    have hquotient : feeCredit.toNat / gasPrice.toNat % 2 ^ 64 =
        feeCredit.toNat / gasPrice.toNat := Nat.mod_eq_of_lt (by omega)
    rw [hquotient]

/-- **When the gas is the exact quotient.** -/
theorem gasOf_exact_iff :
    (∃ gas, gasOf feeCredit gasPrice = .ok gas ∧
      gas.toInt = (feeCredit.toNat / gasPrice.toNat : Nat)) ↔ GasFits feeCredit gasPrice := by
  rw [gasFits_iff]
  by_cases hzero : gasPrice.toNat % 2 ^ 64 = 0
  · rw [gasOf_zero hzero]
    apply iff_of_false
    · rintro ⟨gas, hgas, -⟩
      cases hgas
    · exact fun h => h.1 hzero
  · obtain ⟨gas, hgas, hint⟩ := gasOf_ok hzero
    rw [hgas, and_iff_right hzero, ← bmod_eq_iff, ← hint]
    simp

end Gas

/-! ## A whole run -/

section Run

variable {σ : Type} {host : Host σ} {block : Block} {inputMsg : Message}

/-- No division by zero, and every message executed was given ⌊credit / price⌋ of the
full quantities; as an `int64_t` holds it, it is neither negative nor cut. -/
structure GasExact (block : Block) (r : EStateM.Result Stop (Execution σ) Unit) : Prop where
  noDivision : outcome r ≠ .error .divisionByZero
  exact : ∀ p ∈ (left r).evaluated, block.gasPrice ≠ 0 ∧
    p.2.gas.toInt = (p.1.feeCredit.toNat / block.gasPrice.toNat : Nat)

theorem copyCalldata_count (data : Bytes) : (copyCalldata data).1 = data.length := by
  have hfold : ∀ (l : Bytes) (r : Nat × Bytes),
      (l.foldl (fun r b => (r.1 + 1, r.2 ++ [b])) r).1 = r.1 + l.length := by
    intro l
    induction l with
    | nil => intro r; rfl
    | cons b l ih =>
      intro r
      rw [List.foldl_cons, ih, List.length_cons]
      show r.1 + 1 + l.length = _
      omega
  unfold copyCalldata
  rw [hfold]
  show 0 + _ = _
  omega

theorem executeMessage_zero (host : Host σ) (h : block.gasPrice.toNat % 2 ^ 64 = 0)
    (e : Execution σ) : executeMessage host block inputMsg e = .error .divisionByZero e := by
  unfold executeMessage
  rw [if_pos (copyCalldata_count inputMsg.data), gasOf_zero h]
  rfl

/-- What the copy of the code makes of one message. -/
theorem executeMessage_of_gas (host : Host σ) {gas : Int64}
    (hgas : gasOf inputMsg.feeCredit block.gasPrice = .ok gas) (e : Execution σ) :
    let msg := evmcMessage inputMsg (copyCalldata inputMsg.data).2 gas
    let size := host.getCodeSize msg.recipient e.host
    let copied := host.copyCode msg.recipient size.1 size.2
    (copied.1.1 = size.1 → executeMessage host block inputMsg e =
      .ok () ⟨host.evaluate msg copied.1.2 copied.2, e.evaluated ++ [(inputMsg, msg)]⟩) ∧
    (copied.1.1 ≠ size.1 → executeMessage host block inputMsg e =
      .error (.error (failedCopy "contract code" size.1 copied.1.1)) ⟨copied.2, e.evaluated⟩) := by
  intro msg size copied
  unfold executeMessage
  rw [if_pos (copyCalldata_count inputMsg.data), hgas]
  constructor
  · intro hcopy
    show ((call (if copied.1.1 = size.1 then .ok () else _) >>= _ : Call (Execution σ) Unit)
      ⟨copied.2, e.evaluated⟩) = _
    rw [if_pos hcopy]
    rfl
  · intro hcopy
    show ((call (if copied.1.1 = size.1 then .ok () else _) >>= _ : Call (Execution σ) Unit)
      ⟨copied.2, e.evaluated⟩) = _
    rw [if_neg hcopy]
    rfl

/-- **One message**: it divides by zero, or is given its gas, or ends the run before the
EVM is called. -/
theorem executeMessage_cases (host : Host σ) (block : Block) (inputMsg : Message)
    (e : Execution σ) :
    (gasOf inputMsg.feeCredit block.gasPrice = .error .divisionByZero ∧
      executeMessage host block inputMsg e = .error .divisionByZero e) ∨
    ∃ gas, gasOf inputMsg.feeCredit block.gasPrice = .ok gas ∧
      ((∃ message e', executeMessage host block inputMsg e = .error (.error message) e' ∧
          e'.evaluated = e.evaluated) ∨
        ∃ msg e', executeMessage host block inputMsg e = .ok () e' ∧ msg.gas = gas ∧
          e'.evaluated = e.evaluated ++ [(inputMsg, msg)]) := by
  by_cases hzero : block.gasPrice.toNat % 2 ^ 64 = 0
  · exact Or.inl ⟨gasOf_zero hzero, executeMessage_zero host hzero e⟩
  · right
    obtain ⟨gas, hgas, -⟩ := gasOf_ok hzero
    refine ⟨gas, hgas, ?_⟩
    obtain ⟨hwhole, hshort⟩ := executeMessage_of_gas host hgas e
    let msg := evmcMessage inputMsg (copyCalldata inputMsg.data).2 gas
    let size := host.getCodeSize msg.recipient e.host
    let copied := host.copyCode msg.recipient size.1 size.2
    by_cases hcopy : copied.1.1 = size.1
    · exact Or.inr ⟨_, _, hwhole hcopy, rfl, rfl⟩
    · exact Or.inl ⟨_, _, hshort hcopy, rfl⟩

theorem fillAssignments_skip (h : skipped inputMsg = true) (inputMessages : List Message) :
    fillAssignments host block (inputMsg :: inputMessages) =
      fillAssignments host block inputMessages := by
  rw [fillAssignments, if_pos h]

theorem fillAssignments_execute (h : ¬ skipped inputMsg = true) (inputMessages : List Message) :
    fillAssignments host block (inputMsg :: inputMessages) = (do
      executeMessage host block inputMsg
      fillAssignments host block inputMessages) := by
  rw [fillAssignments, if_neg h]

/-- **Every message that is not skipped is given its gas, so the run is exact.** -/
theorem gasExact_of_fits {messages : List Message} {e : Execution σ}
    (h : ∀ m ∈ messages, ¬ skipped m = true → GasFits m.feeCredit block.gasPrice)
    (he : ∀ p ∈ e.evaluated, block.gasPrice ≠ 0 ∧
      p.2.gas.toInt = (p.1.feeCredit.toNat / block.gasPrice.toNat : Nat)) :
    GasExact block (fillAssignments host block messages e) := by
  induction messages generalizing e with
  | nil => exact ⟨by show Except.ok () ≠ _; simp, he⟩
  | cons m messages ih =>
    rw [List.forall_mem_cons] at h
    by_cases hskip : skipped m = true
    · rw [fillAssignments_skip hskip]
      exact ih h.2 he
    · obtain ⟨gas, hgas, hint⟩ := gasOf_exact_iff.mpr (h.1 hskip)
      rw [fillAssignments_execute hskip]
      rcases executeMessage_cases host block m e with
        ⟨hdiv, -⟩ | ⟨gas', hgas', ⟨message, e', hrun, heval⟩ | ⟨msg, e', hrun, hmsg, heval⟩⟩
      · rw [hgas] at hdiv
        cases hdiv
      · rw [bind_error hrun]
        refine ⟨?_, ?_⟩
        · show Except.error (Stop.error message) ≠ _
          simp
        · intro p hp
          rw [show left (EStateM.Result.error (Stop.error message) e') = e' from rfl, heval] at hp
          exact he p hp
      · rw [bind_ok hrun]
        rw [hgas, Except.ok.injEq] at hgas'
        apply ih h.2
        intro p hp
        rw [heval, List.mem_append, List.mem_singleton] at hp
        rcases hp with hp | rfl
        · exact he p hp
        · refine ⟨?_, by rw [hmsg, ← hgas']; exact hint⟩
          intro hzero
          exact (gasFits_iff.mp (h.1 hskip)).1 (by rw [hzero]; rfl)

/-- A host that answers every call, and runs nothing. -/
def quietHost : Host Unit where
  getCodeSize _ s := (0, s)
  copyCode _ _ s := ((0, []), s)
  evaluate _ _ s := s

theorem executeMessage_quiet {gas : Int64}
    (hgas : gasOf inputMsg.feeCredit block.gasPrice = .ok gas) (e : Execution Unit) :
    ∃ msg, msg.gas = gas ∧ executeMessage quietHost block inputMsg e =
      .ok () ⟨(), e.evaluated ++ [(inputMsg, msg)]⟩ := by
  exact ⟨evmcMessage inputMsg (copyCalldata inputMsg.data).2 gas, rfl,
    (executeMessage_of_gas quietHost hgas e).1 rfl⟩

/-- What was executed stays on the record. -/
theorem evaluated_subset (host : Host σ) (block : Block) (messages : List Message)
    (e : Execution σ) :
    ∀ p ∈ e.evaluated, p ∈ (left (fillAssignments host block messages e)).evaluated := by
  induction messages generalizing e with
  | nil => exact fun p hp => hp
  | cons m messages ih =>
    by_cases hskip : skipped m = true
    · rw [fillAssignments_skip hskip]
      exact ih e
    · rw [fillAssignments_execute hskip]
      intro p hp
      rcases executeMessage_cases host block m e with
        ⟨-, hrun⟩ | ⟨gas, -, ⟨message, e', hrun, heval⟩ | ⟨msg, e', hrun, -, heval⟩⟩
      · rw [bind_error hrun]
        exact hp
      · rw [bind_error hrun]
        show p ∈ e'.evaluated
        rw [heval]
        exact hp
      · rw [bind_ok hrun]
        apply ih
        rw [heval]
        exact List.mem_append_left _ hp

/-- On the quiet host every message is reached that is not behind a division by zero. -/
theorem fits_of_gasExact {messages : List Message} {e : Execution Unit}
    (h : GasExact block (fillAssignments quietHost block messages e)) :
    ∀ m ∈ messages, ¬ skipped m = true → GasFits m.feeCredit block.gasPrice := by
  induction messages generalizing e with
  | nil => simp
  | cons m messages ih =>
    rw [List.forall_mem_cons]
    by_cases hskip : skipped m = true
    · rw [fillAssignments_skip hskip] at h
      exact ⟨fun hno => absurd hskip hno, ih h⟩
    · rw [fillAssignments_execute hskip] at h
      have hzero : block.gasPrice.toNat % 2 ^ 64 ≠ 0 := by
        intro hzero
        apply h.noDivision
        have hrun : outcome (executeMessage quietHost block m e) = .error .divisionByZero := by
          unfold executeMessage
          rw [if_pos (copyCalldata_count m.data), gasOf_zero hzero]
          rfl
        exact outcome_bind_error hrun _
      obtain ⟨gas, hgas, -⟩ := gasOf_ok hzero
      obtain ⟨msg, hmsg, hrun⟩ := executeMessage_quiet hgas e
      rw [bind_ok hrun] at h
      refine ⟨fun _ => ?_, ih h⟩
      have hmem := evaluated_subset quietHost block messages
        ⟨(), e.evaluated ++ [(m, msg)]⟩ (m, msg) (List.mem_append_right _ List.mem_cons_self)
      obtain ⟨-, hint⟩ := h.exact _ hmem
      rw [hmsg] at hint
      exact gasOf_exact_iff.mp ⟨gas, hgas, hint⟩

/-- **When every run over the messages of a block gives the exact gas**, whatever the
host does. -/
theorem fillAssignments_gas_iff (block : Block) (messages : List Message) :
    (∀ (σ : Type) (host : Host σ) (s : σ),
      GasExact block (fillAssignments host block messages ⟨s, []⟩)) ↔
      ∀ m ∈ messages, ¬ skipped m = true → GasFits m.feeCredit block.gasPrice := by
  constructor
  · intro h
    exact fits_of_gasExact (h Unit quietHost ())
  · intro h σ host s
    exact gasExact_of_fits h (by simp)

/-- The run of a block file with one message, on a quiet host. -/
def runFile (gasPrice feeCredit : String) : EStateM.Result Stop (Execution Unit) Unit :=
  let text := blockJson "7" hashText gasPrice [messageJson feeCredit "0xab"]
  let v := blockDoc (.int64 7) hashText gasPrice [messageDoc feeCredit "0xab"]
  let l := left (loadFile text v)
  fillAssignments quietHost l.block l.messages ⟨(), []⟩

def priceZero : BlockText where
  text := blockJson "7" hashText "0" [messageJson "5" "0xab"]
  doc := blockDoc (.int64 7) hashText "0" [messageDoc "5" "0xab"]
  ne_nul := ne_zero_of_all (by decide +kernel)
  valid := by decide +kernel

def largeCredit : BlockText where
  text := blockJson "7" hashText "1" [messageJson "9223372036854775808" "0xab"]
  doc := blockDoc (.int64 7) hashText "1" [messageDoc "9223372036854775808" "0xab"]
  ne_nul := ne_zero_of_all (by decide +kernel)
  valid := by decide +kernel

/-- A file with the price 0 is accepted, and its message divides by zero; one with the
price 1 and the credit 2^63 is accepted, and its message is given a negative gas. -/
theorem fillAssignments_gas_wrong :
    let accepted := fun gasPrice feeCredit =>
      outcome (loadFile (blockJson "7" hashText gasPrice [messageJson feeCredit "0xab"])
        (blockDoc (.int64 7) hashText gasPrice [messageDoc feeCredit "0xab"])) = .ok ()
    (accepted "0" "5" ∧ outcome (runFile "0" "5") = .error .divisionByZero) ∧
      accepted "1" "9223372036854775808" ∧ outcome (runFile "1" "9223372036854775808") = .ok () ∧
        (left (runFile "1" "9223372036854775808")).evaluated.map (fun p => p.2.gas.toInt) =
          [-9223372036854775808] := by
  have hzero : loadFile (blockJson "7" hashText "0" [messageJson "5" "0xab"])
      (blockDoc (.int64 7) hashText "0" [messageDoc "5" "0xab"]) = _ :=
    loadBlock_valid priceZero.validFile _
  have hlarge : loadFile (blockJson "7" hashText "1" [messageJson "9223372036854775808" "0xab"])
      (blockDoc (.int64 7) hashText "1" [messageDoc "9223372036854775808" "0xab"]) = _ :=
    loadBlock_valid largeCredit.validFile _
  simp only [runFile, hzero, hlarge]
  decide +kernel

end Run

end AssignerRunner
