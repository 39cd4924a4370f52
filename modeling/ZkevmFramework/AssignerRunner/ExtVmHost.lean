import ZkevmFramework.AssignerRunner.AnswerEntries
import ZkevmFramework.AssignerRunner.HexText
import ZkevmFramework.Lib.Cache
import ZkevmFramework.Rpc.DataExtractor

/-!
# `ext_vm_host.hpp`

The host of the EVM hands out accounts, and asks the node for those it does not
have, as they were at the previous block.  In between the EVM changes the accounts
it was handed.

`host` is the cache of `Lib/Cache` with the node as its source (`run_eq`), so an
account is what was there before the run, else the first one the node answered
with, and the changes since (`accounts_after_run`).  The process ends where the node
answers with a document that does not convert, for an account that is not there
(`host_stops_iff`).
-/

namespace AssignerRunner

open Cpp JsonHelpers Core.Types Rpc

/-- `ExtVMHost`, without the accounts. -/
structure ExtVMHost where
  extractor : DataExtractor
  prevBlockHash : Text

/-- What happens to the accounts: `get_account`, with what `httplib` does during
it; or a change that the EVM makes to an account that is there.  `VMHost`, which is
not in the repository, may also add an account to the map when a contract is
created; no call here does. -/
inductive HostCall where
  | getAccount (addr : EvmcAddress) (client : Client)
  | change (addr : EvmcAddress) (f : Account → Account)

namespace ExtVMHost

variable (ext : External) (host : ExtVMHost)

/-- The request of `get_account`. -/
def rpc (client : Client) (address : Text) : Except Text Bytes :=
  host.extractor.getAccountWithStorage client address host.prevBlockHash

def call : HostCall → Accounts → Except Stop (Option Account) × Accounts
  | .getAccount addr client, accounts =>
    let r := getAccount ext (host.rpc client) addr accounts
    (outcome r, left r)
  | .change addr f, accounts => (.ok none, Function.update accounts addr ((accounts addr).map f))

def machine : Machine HostCall (Except Stop (Option Account)) Accounts where
  call := host.call ext
  last a := !a.toBool

/-! ## The node as a source -/

/-- What the node has for an address. -/
def answered (client : Client) (addr : EvmcAddress) : Except Stop (Option Account) :=
  match host.rpc client (byteArrayToStr addr.toList) with
  | .error _ => .ok none
  | .ok body => answeredAccount ext body

def event : HostCall → Cache.Event EvmcAddress Account Stop
  | .getAccount addr client => .ask addr (host.answered ext client addr)
  | .change addr f => .change addr f

theorem call_eq (c : HostCall) (accounts : Accounts) :
    host.call ext c accounts = Cache.cache.call (host.event ext c) accounts := by
  cases c with
  | change addr f => rfl
  | getAccount addr client =>
    show (outcome (getAccount ext (host.rpc client) addr accounts),
      left (getAccount ext (host.rpc client) addr accounts)) =
        Cache.cache.call (.ask addr (host.answered ext client addr)) accounts
    cases haccount : accounts addr with
    | some account =>
      rw [Cache.call_held haccount]
      unfold getAccount
      rw [haccount]
      rfl
    | none =>
      have hkeep : Function.update accounts addr none = accounts := by
        rw [← haccount, Function.update_eq_self]
      rw [Cache.call_missed haccount]
      unfold getAccount answered
      rw [haccount]
      cases host.rpc client (byteArrayToStr addr.toList) with
      | error message => exact Prod.ext rfl hkeep.symm
      | ok body =>
        simp only
        rcases answeredAccount ext body with e | (_ | account)
        · exact Prod.ext rfl hkeep.symm
        · exact Prod.ext rfl hkeep.symm
        · rfl

/-- **The accounts are a map filled on a miss.** -/
theorem run_eq (cs : List HostCall) (accounts : Accounts) :
    (host.machine ext).run cs accounts = Cache.cache.run (cs.map (host.event ext)) accounts := by
  have hrun := Machine.run_map (M := host.machine ext) (N := Cache.cache) (f := host.event ext)
    (g := id) (h := id) (fun c s => (host.call_eq ext c s).symm) (fun _ => rfl) cs accounts
  rw [List.map_id] at hrun
  exact hrun.symm

/-- No call of the run ends the process. -/
def Goes (cs : List HostCall) (accounts : Accounts) : Prop :=
  ∀ a ∈ ((host.machine ext).run cs accounts).1, a.toBool = true

instance (cs : List HostCall) (accounts : Accounts) : Decidable (host.Goes ext cs accounts) :=
  inferInstanceAs (Decidable (∀ a ∈ ((host.machine ext).run cs accounts).1, a.toBool = true))

/-- **What becomes of an account**: it is never loaded again, and no change of it is lost. -/
theorem accounts_after_run {cs : List HostCall} {accounts : Accounts}
    (h : host.Goes ext cs accounts) (addr : EvmcAddress) :
    ((host.machine ext).run cs accounts).2 addr =
      match accounts addr with
      | some account => some (Cache.changes addr (cs.map (host.event ext)) account)
      | none => (Cache.first addr (cs.map (host.event ext))).map fun r =>
          Cache.changes addr r.2 r.1 := by
  unfold Goes at h
  rw [host.run_eq ext] at h ⊢
  rw [Cache.run_apply h]
  cases accounts addr with
  | some account => exact Cache.after_some _ _ _
  | none => exact Cache.after_none _ _

/-- A host at shard 1. -/
def shardHost : ExtVMHost := ⟨⟨"127.0.0.1".toList, 8529, 1⟩, byteArrayToStr (List.replicate 32 0)⟩

def refuses : Client := fun _ _ _ => .error "Connection".toList

def answersOneSlot : Client := fun _ _ _ => .ok (answerJson oneSlot)

/-- The node is asked until it answers; then the code is changed, and the node refuses again. -/
def zeroAddressCalls : List HostCall :=
  [.getAccount (Vector.replicate 20 0) refuses, .getAccount (Vector.replicate 20 0) answersOneSlot,
    .change (Vector.replicate 20 0) fun account => { account with code := [] },
    .getAccount (Vector.replicate 20 0) refuses]

theorem accounts_after_run_zero_address :
    ((shardHost.machine oneSlotLibraries).run zeroAddressCalls fun _ => none).2
        (Vector.replicate 20 0) =
      (Cache.first (Vector.replicate 20 0)
        (zeroAddressCalls.map (shardHost.event oneSlotLibraries))).map fun r =>
          Cache.changes (Vector.replicate 20 0) r.2 r.1 :=
  accounts_after_run _ _ (by decide +kernel) _

/-- The answers of the node do not convert, or the reading does not end. -/
theorem answeredAccount_error_iff (body : Bytes) :
    (∃ e, answeredAccount ext body = .error e) ↔
      ∃ v, parseJson ext.parser { data := body } = .ok v ∧ ¬ AccountConverts ext v := by
  have hreturns : Returns (answeredAccount ext body) ↔ ¬ ∃ e, answeredAccount ext body = .error e := by
    unfold answeredAccount
    cases loadAccountWithStorage ext { data := body } Account.declared with
    | ok a account => simp
    | error e account => cases e <;> simp [Returns, noexcept]
  rw [← not_iff_not, ← hreturns, returns_answeredAccount_iff]
  simp

/-- **When the process ends**: an account is asked for that is not there, and was not
answered with before, and the document in the answer does not convert. -/
theorem host_stops_iff (cs : List HostCall) (accounts : Accounts) :
    ¬ host.Goes ext cs accounts ↔
      ∃ before addr client later, cs = before ++ .getAccount addr client :: later ∧
        accounts addr = none ∧ Cache.first addr (before.map (host.event ext)) = none ∧
          ∃ body v, host.rpc client (byteArrayToStr addr.toList) = .ok body ∧
            parseJson ext.parser { data := body } = .ok v ∧ ¬ AccountConverts ext v := by
  have hgoes : host.Goes ext cs accounts ↔ Cache.Goes (cs.map (host.event ext)) accounts := by
    unfold Goes Cache.Goes
    rw [host.run_eq ext]
  have hmissing : ∀ addr (es : List (Cache.Event EvmcAddress Account Stop)),
      Cache.after addr es (accounts addr) = none ↔
        accounts addr = none ∧ Cache.first addr es = none := by
    intro addr es
    cases accounts addr with
    | some account => simp [Cache.after_some]
    | none => simp [Cache.after_none]
  have hfails : ∀ client addr, (∃ e, host.answered ext client addr = .error e) ↔
      ∃ body v, host.rpc client (byteArrayToStr addr.toList) = .ok body ∧
        parseJson ext.parser { data := body } = .ok v ∧ ¬ AccountConverts ext v := by
    intro client addr
    unfold answered
    cases host.rpc client (byteArrayToStr addr.toList) with
    | error message => simp
    | ok body =>
      simp only [answeredAccount_error_iff, Except.ok.injEq, ↓existsAndEq, true_and]
  rw [hgoes, Cache.goes_iff]
  push Not
  constructor
  · rintro ⟨before, addr, e, later, hcs, hnone⟩
    obtain ⟨before, rest, rfl, rfl, hrest⟩ := List.map_eq_append_iff.mp hcs
    obtain ⟨c, later, rfl, hc, rfl⟩ := List.map_eq_cons_iff.mp hrest
    cases c with
    | change addr' f => cases hc
    | getAccount addr' client =>
      injection hc with haddr hsource
      subst haddr
      obtain ⟨hnone, hfirst⟩ := (hmissing addr' _).mp hnone
      exact ⟨before, addr', client, later, rfl, hnone, hfirst, (hfails client addr').mp ⟨e, hsource⟩⟩
  · rintro ⟨before, addr, client, later, rfl, hnone, hfirst, hfail⟩
    obtain ⟨e, he⟩ := (hfails client addr).mpr hfail
    refine ⟨before.map (host.event ext), addr, e, later.map (host.event ext), ?_, ?_⟩
    · rw [List.map_append, List.map_cons]
      show _ ++ Cache.Event.ask addr (host.answered ext client addr) :: _ = _
      rw [he]
    · exact (hmissing addr _).mpr ⟨hnone, hfirst⟩

/-- **A node that keeps its answers is not told from a map of all accounts**: what it
answered with is what is answered again. -/
theorem steady_node (client : Client) {addrs : List EvmcAddress} {accounts : Accounts}
    (h : host.Goes ext (addrs.map fun addr => .getAccount addr client) accounts) :
    ((host.machine ext).run (addrs.map fun addr => .getAccount addr client) accounts).1 =
      addrs.map (Cache.plain accounts (host.answered ext client)) := by
  have hevents : (addrs.map fun addr => HostCall.getAccount addr client).map (host.event ext) =
      addrs.map fun addr => .ask addr (host.answered ext client addr) := by
    rw [List.map_map]
    rfl
  unfold Goes at h
  rw [host.run_eq ext, hevents] at h ⊢
  exact Cache.run_steady (host.answered ext client) addrs (fun _ => .inl rfl) h

theorem steady_node_one_slot :
    ((shardHost.machine oneSlotLibraries).run
        ([Vector.replicate 20 0, Vector.replicate 20 0].map fun addr =>
          .getAccount addr answersOneSlot) fun _ => none).1 =
      [Vector.replicate 20 0, Vector.replicate 20 0].map
        (Cache.plain (fun _ => none) (shardHost.answered oneSlotLibraries answersOneSlot)) :=
  steady_node _ _ _ (by decide +kernel)

end ExtVMHost

/-! ## Requests -/

/-- What the node is asked for. -/
inductive Request where
  | block (shardId : UInt64) (blockHash : Text)
  | account (addr : EvmcAddress) (prevBlock : Hash)

def Request.body : Request → Text
  | .block shardId blockHash => blockBody shardId blockHash
  | .account addr prevBlock =>
    accountBody (byteArrayToStr addr.toList) (byteArrayToStr prevBlock.toList)

theorem byteArrayToStr_injective : Function.Injective byteArrayToStr := by
  intro data data' h
  have hdigits : data.flatMap printByte = data'.flatMap printByte := List.append_cancel_left h
  have hread : ∀ data : Bytes, unhex (data.flatMap printByte) = (data, true) := fun data =>
    unhex_variant (List.forall₂_same.mpr fun c _ => Or.inl rfl)
  have hpair := hread data
  rw [hdigits, hread data'] at hpair
  exact (Prod.mk.inj hpair).1.symm

theorem quote_not_mem_byteArrayToStr (data : Bytes) : '"' ∉ byteArrayToStr data := by
  have hdigit : ∀ n < 16, hexDigit n ≠ '"' := by decide
  unfold byteArrayToStr
  rw [List.mem_append, not_or]
  refine ⟨by decide, ?_⟩
  rw [List.mem_flatMap]
  rintro ⟨b, -, hb⟩
  have hlt : b.toNat < 256 := b.toNat_lt
  rcases List.mem_pair.mp hb with h | h
  · exact hdigit _ (by omega) h.symm
  · exact hdigit _ (by omega) h.symm

/-- **A body says what is asked for.** -/
theorem Request.body_injective : Function.Injective Request.body := by
  intro r r' h
  cases r with
  | block shardId blockHash =>
    cases r' with
    | block shardId' blockHash' =>
      obtain ⟨rfl, rfl⟩ := blockBody_inj.mp h
      rfl
    | account addr prevBlock => exact absurd h (blockBody_ne_accountBody _ _ _ _)
  | account addr prevBlock =>
    cases r' with
    | block shardId blockHash => exact absurd h.symm (blockBody_ne_accountBody _ _ _ _)
    | account addr' prevBlock' =>
      obtain ⟨haddr, hprev⟩ := (accountBody_inj (quote_not_mem_byteArrayToStr _)
        (quote_not_mem_byteArrayToStr _)).mp h
      rw [Vector.toList_inj.mp (byteArrayToStr_injective haddr),
        Vector.toList_inj.mp (byteArrayToStr_injective hprev)]

end AssignerRunner
