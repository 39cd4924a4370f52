import Mathlib.Data.List.Perm.Basic
import ZkevmFramework.Lib.KeyedMap
import ZkevmFramework.AssignerRunner.BlockFile
import ZkevmFramework.AssignerRunner.StateFile

/-!
# What a state file keeps of its entries

`Decoded` is what one element of `accounts` says: an address, balance, code and
slots with the numbers the texts stand for.  The loader keeps the first value of a
slot and the last account of an address, so it holds what every element says, in
any order of them, exactly where elements of one address say the same and no slot
of one has two values (`initAccountStorage_keeps_iff`).
-/

namespace AssignerRunner

open Cpp JsonHelpers Core.Types

/-- What one element of `accounts` says. -/
structure Entry where
  address : EvmcAddress
  balance : Bytes32
  code : Bytes
  slots : List (Bytes32 × Bytes32)

/-- The account that is filled from the entry. -/
def Entry.account (e : Entry) : Account :=
  ⟨e.balance, e.code, e.slots.foldl KeyedMap.keepFirst fun _ => none⟩

section Elements

variable (ext : External)

/-- The key and the value of one element of `storage`. -/
def DecodedSlot (s : Value) (slot : Bytes32 × Bytes32) : Prop :=
  ∃ key value, ext.fromString (s.field "Key").text = .ok key ∧
    ext.fromString (s.field "Val").text = .ok value ∧ slot = (toUint256be key, toUint256be value)

structure Decoded (a : Value) (e : Entry) : Prop where
  code : decode (a.field "code").text = some e.code
  contract : ∃ bytes contract, decode (a.field "contract").text = some bytes ∧
    ext.deserializeContract bytes = .ok contract ∧
    e.address = toEvmcAddress contract.address ∧ e.balance = toUint256be contract.balance
  slots : List.Forall₂ (DecodedSlot ext) (a.field "storage").elems e.slots

variable {ext} {a s : Value}

theorem handleSlot_eq_ok_iff (h : SlotShape s) (slot : Bytes32 × Bytes32) :
    handleSlot ext s = .ok slot ↔ DecodedSlot ext s slot := by
  have hfound : (Object.contains s.members "Key" && Object.contains s.members "Val") = true :=
    Bool.and_eq_true_iff.mpr ⟨h.key.has, h.val.has⟩
  unfold handleSlot DecodedSlot
  rw [Value.asObject_of h.isObject, ok_bind, hfound, Value.members_atKey h.key.has,
    Value.members_atKey h.val.has]
  show ((s.field "Key").asCString >>= _) = _ ↔ _
  rw [Value.asCString_of h.key.isString, h.key.cStr_text fun c hc => hc, ok_bind]
  show ((s.field "Val").asCString >>= _) = _ ↔ _
  rw [h.val.asCString, ok_bind]
  cases ext.fromString (s.field "Key").text with
  | error e => exact iff_of_false (fun hs => by cases hs) (by simp)
  | ok key =>
    cases ext.fromString (s.field "Val").text with
    | error e => exact iff_of_false (fun hs => by cases hs) (by simp)
    | ok value =>
      show Except.ok _ = Except.ok slot ↔ _
      simp [eq_comm]

theorem emplace_foldl (slots : List (Bytes32 × Bytes32)) (account : Account) :
    slots.foldl (fun account slot => Account.emplace slot account) account =
      { account with storage := slots.foldl KeyedMap.keepFirst account.storage } := by
  induction slots generalizing account with
  | nil => rfl
  | cons slot slots ih =>
    rw [List.foldl_cons, ih, List.foldl_cons]
    unfold Account.emplace KeyedMap.keepFirst
    split <;> rfl

theorem handleStorage_eq_ok_iff {slots : List Value} (h : ∀ s ∈ slots, SlotShape s)
    {account account' : Account} {u : Unit} :
    handleStorage ext slots account = .ok u account' ↔
      ∃ l, List.Forall₂ (DecodedSlot ext) slots l ∧
        account' = { account with storage := l.foldl KeyedMap.keepFirst account.storage } := by
  unfold handleStorage
  rw [fill_eq_ok_iff]
  simp only [forall₂_congr_mem fun s hs slot => handleSlot_eq_ok_iff (h s hs) slot, emplace_foldl]

theorem handleCode_eq_ok_iff {t : Text} {account account' : Account} {u : Unit} :
    handleCode t account = .ok u account' ↔
      ∃ bytes, decode t = some bytes ∧ account' = { account with code := account.code ++ bytes } := by
  cases hd : decode t with
  | none =>
    have herr : outcome (handleCode t account) = .error _ := handleCode_of_none hd
    refine iff_of_false (fun hok => ?_) (by simp)
    rw [hok] at herr
    cases herr
  | some bytes =>
    rw [handleCode_of_some hd, EStateM.Result.ok.injEq]
    simp [eq_comm]

theorem handleAccount_eq_ok_iff {t : Text} {account account' : Account} {address : EvmcAddress} :
    handleAccount ext t account = .ok address account' ↔
      ∃ bytes contract, decode t = some bytes ∧ ext.deserializeContract bytes = .ok contract ∧
        address = toEvmcAddress contract.address ∧
        account' = { account with balance := toUint256be contract.balance } := by
  cases hd : decode t with
  | none =>
    have herr : outcome (handleAccount ext t account) = .error _ := handleAccount_of_none hd
    refine iff_of_false (fun hok => ?_) (by simp)
    rw [hok] at herr
    cases herr
  | some bytes =>
    cases hc : ext.deserializeContract bytes with
    | error e =>
      unfold handleAccount
      rw [extractBytes_of_some hd, call_bind_ok, hc]
      exact iff_of_false (fun hok => by cases hok) (by simp [hc])
    | ok contract =>
      rw [handleAccount_of_some hd hc, EStateM.Result.ok.injEq]
      simp [hc, eq_comm]

/-- **An element is stored as the entry it decodes to.** -/
theorem handleAccountItem_eq_ok_iff (h : AccountShape a) (entry : EvmcAddress × Account) :
    handleAccountItem ext a = .ok entry ↔
      ∃ e, Decoded ext a e ∧ entry = (e.address, e.account) := by
  have hitem : handleAccountItem ext a = .ok entry ↔
      fillAccount ext a Account.declared = .ok entry.1 entry.2 := by
    unfold handleAccountItem
    cases fillAccount ext a Account.declared with
    | ok address account =>
      simp only [Except.ok.injEq, EStateM.Result.ok.injEq, Prod.ext_iff]
    | error e account => simp
  rw [hitem, fillAccount_eq h]
  simp only [bind_eq_ok_iff, labelledCall_eq_ok_iff, handleCode_eq_ok_iff, handleAccount_eq_ok_iff,
    handleStorage_eq_ok_iff h.slots]
  constructor
  · rintro ⟨-, -, ⟨code, hcode, rfl⟩, address, -, ⟨bytes, contract, hbytes, hcontract, rfl, rfl⟩,
      -, -, ⟨slots, hslots, rfl⟩, hpure⟩
    have hpure : toEvmcAddress contract.address = entry.1 ∧ _ = entry.2 :=
      (EStateM.Result.ok.injEq _ _ _ _).mp hpure
    refine ⟨⟨toEvmcAddress contract.address, toUint256be contract.balance, code, slots⟩,
      ⟨hcode, ⟨bytes, contract, hbytes, hcontract, rfl, rfl⟩, hslots⟩, ?_⟩
    exact Prod.ext hpure.1.symm hpure.2.symm
  · rintro ⟨e, ⟨hcode, ⟨bytes, contract, hbytes, hcontract, haddress, hbalance⟩, hslots⟩, rfl⟩
    refine ⟨(), _, ⟨e.code, hcode, rfl⟩, e.address, _,
      ⟨bytes, contract, hbytes, hcontract, haddress, rfl⟩, (), _, ⟨e.slots, hslots, rfl⟩, ?_⟩
    rw [← hbalance]
    rfl

end Elements

/-! ## The map -/

/-- The accounts after the entries. -/
def storedEntries (entries : List Entry) : Accounts :=
  (entries.map fun e => (e.address, e.account)).foldl KeyedMap.keepLast fun _ => none

/-- Entries of one address say the same, and no slot has two values. -/
structure Consistent (entries : List Entry) : Prop where
  slots : ∀ e ∈ entries, KeyedMap.Agree e.slots
  accounts : ∀ e ∈ entries, ∀ e' ∈ entries, e.address = e'.address →
    e.code = e'.code ∧ e.balance = e'.balance ∧ ∀ slot, slot ∈ e.slots ↔ slot ∈ e'.slots

section Entries

variable {entries entries' : List Entry}

/-- What the map has for an address is one of its entries. -/
theorem of_storedEntries {address : EvmcAddress} {account : Account}
    (h : storedEntries entries address = some account) :
    ∃ e ∈ entries, e.address = address ∧ account = e.account := by
  have hmem := (KeyedMap.mem_of_foldl KeyedMap.storing_keepLast h).resolve_left (by simp)
  obtain ⟨e, he, heq⟩ := List.mem_map.mp hmem
  rw [Prod.mk.injEq] at heq
  exact ⟨e, he, heq.1, heq.2.symm⟩

theorem storedEntries_of_mem {e : Entry} (h : e ∈ entries) :
    ∃ account, storedEntries entries e.address = some account := by
  have hmem : (e.address, e.account) ∈ entries.map fun e => (e.address, e.account) :=
    List.mem_map.mpr ⟨e, h, rfl⟩
  exact Option.isSome_iff_exists.mp (KeyedMap.isSome_of_mem KeyedMap.storing_keepLast hmem _)

/-- The account of an entry has a slot as the entry has it. -/
theorem account_storage_iff {e : Entry} (h : KeyedMap.Agree e.slots) (key value : Bytes32) :
    e.account.storage key = some value ↔ (key, value) ∈ e.slots :=
  KeyedMap.foldl_eq_some_iff KeyedMap.storing_keepFirst h

theorem mem_of_account_storage {e : Entry} {key value : Bytes32}
    (h : e.account.storage key = some value) : (key, value) ∈ e.slots :=
  (KeyedMap.mem_of_foldl KeyedMap.storing_keepFirst h).resolve_left (by simp)

/-- The same entry, up to the order of its slots. -/
def SameEntry (e e' : Entry) : Prop :=
  e.address = e'.address ∧ e.balance = e'.balance ∧ e.code = e'.code ∧ e.slots.Perm e'.slots

theorem SameEntry.account_eq {e e' : Entry} (h : SameEntry e e') (hagree : KeyedMap.Agree e.slots) :
    e.account = e'.account := by
  obtain ⟨-, hbalance, hcode, hslots⟩ := h
  unfold Entry.account
  rw [hbalance, hcode,
    KeyedMap.foldl_congr KeyedMap.storing_keepFirst hagree fun slot => hslots.mem_iff]

/-- Consistent entries of one address fill the same account. -/
theorem Consistent.account_eq (h : Consistent entries) {e e' : Entry} (he : e ∈ entries)
    (he' : e' ∈ entries) (haddress : e.address = e'.address) : e.account = e'.account := by
  obtain ⟨hcode, hbalance, hslots⟩ := h.accounts e he e' he' haddress
  unfold Entry.account
  rw [hcode, hbalance,
    KeyedMap.foldl_congr KeyedMap.storing_keepFirst (h.slots e he) hslots]

/-- **The map holds what every consistent entry says.** -/
theorem Consistent.stored (h : Consistent entries) {e : Entry} (he : e ∈ entries) :
    storedEntries entries e.address = some e.account := by
  obtain ⟨account, haccount⟩ := storedEntries_of_mem he
  obtain ⟨e', he', haddress, rfl⟩ := of_storedEntries haccount
  rw [haccount, h.account_eq he' he haddress]

/-- **The order of consistent entries, and of their slots, is nothing to the map.** -/
theorem Consistent.storedEntries_congr (h : Consistent entries) {mid : List Entry}
    (hperm : entries.Perm mid) (hsame : List.Forall₂ SameEntry mid entries') :
    storedEntries entries' = storedEntries entries := by
  have hmaps : (mid.map fun e => (e.address, e.account)) =
      entries'.map fun e => (e.address, e.account) := by
    have hagree : ∀ e ∈ mid, KeyedMap.Agree e.slots := fun e he => h.slots e (hperm.mem_iff.mpr he)
    clear hperm
    induction hsame with
    | nil => rfl
    | cons he _ ih =>
      rw [List.forall_mem_cons] at hagree
      rw [List.map_cons, List.map_cons, he.1, he.account_eq hagree.1, ih hagree.2]
  have hagree : KeyedMap.Agree (entries.map fun e => (e.address, e.account)) := by
    intro x hx y hy hxy
    obtain ⟨e, he, rfl⟩ := List.mem_map.mp hx
    obtain ⟨e', he', rfl⟩ := List.mem_map.mp hy
    exact h.account_eq he he' hxy
  unfold storedEntries
  rw [← hmaps]
  exact (KeyedMap.foldl_congr KeyedMap.storing_keepLast hagree
    fun x => (hperm.map _).mem_iff).symm

end Entries

/-! ## The file -/

/-- The same code and contract, and the same slots in any order. -/
def SameElement (a a' : Value) : Prop :=
  a'.field "code" = a.field "code" ∧ a'.field "contract" = a.field "contract" ∧
    (a.field "storage").elems.Perm (a'.field "storage").elems

/-- The elements in any order, each with its slots in any order. -/
def Reordered (items items' : List Value) : Prop :=
  ∃ mid, items.Perm mid ∧ List.Forall₂ SameElement mid items'

section Loop

variable (ext : External)

/-- The loop over `accounts`. -/
def storeAccounts (items : List Value) : Call Accounts Unit :=
  fill (handleAccountItem ext) (fun entry accounts => accounts.assign entry) items

variable {ext} {items items' : List Value} {config : Istream} {v : Value}

theorem initAccountStorage_valid (hvalid : ValidState ext config v) (accounts : Accounts) :
    initAccountStorage ext config accounts =
      storeAccounts ext (v.field "accounts").elems accounts := by
  have h := stateShape_of hvalid.valid
  have hvalidates : validateJson ext.validator (stateSchema ext.validator.same) v = none := by
    unfold validateJson
    rw [if_pos hvalid.valid]
  unfold initAccountStorage
  rw [hvalid.parses]
  show (call (orReturn _ (validateJson ext.validator (stateSchema ext.validator.same) v)) >>= _)
    accounts = _
  rw [hvalidates, Value.asObject_of h.isObject, ok_bind, Value.members_atKey h.hasAccounts, ok_bind,
    Value.asArray_of h.isArray]
  rfl

/-- **The loop runs through when every element decodes, and stores the entries.** -/
theorem storeAccounts_eq_ok_iff (h : ∀ a ∈ items, AccountShape a) (accounts : Accounts) :
    storeAccounts ext items (fun _ => none) = .ok () accounts ↔
      ∃ entries, List.Forall₂ (Decoded ext) items entries ∧ accounts = storedEntries entries := by
  unfold storeAccounts
  rw [fill_eq_ok_iff]
  simp only [forall₂_congr_mem fun a ha => handleAccountItem_eq_ok_iff (h a ha), forall₂_map_of]
  constructor
  · rintro ⟨as, ⟨entries, hentries, rfl⟩, rfl⟩
    exact ⟨entries, hentries, rfl⟩
  · rintro ⟨entries, hentries, rfl⟩
    exact ⟨_, ⟨entries, hentries, rfl⟩, rfl⟩

theorem Decoded.sameEntry {a a' : Value} {e : Entry} (h : Decoded ext a e) (hsame : SameElement a a') :
    ∃ e', SameEntry e e' ∧ Decoded ext a' e' := by
  obtain ⟨hcode, hcontract, hslots⟩ := hsame
  obtain ⟨slots, hdecoded, hperm⟩ := List.perm_comp_forall₂ hslots.symm h.slots
  refine ⟨⟨e.address, e.balance, e.code, slots⟩, ⟨rfl, rfl, rfl, hperm.symm⟩, ?_, ?_, hdecoded⟩
  · rw [hcode]
    exact h.code
  · rw [hcontract]
    exact h.contract

/-- Reordered elements decode to reordered entries. -/
theorem Reordered.decoded {entries : List Entry} (h : Reordered items items')
    (hentries : List.Forall₂ (Decoded ext) items entries) :
    ∃ mid entries', entries.Perm mid ∧ List.Forall₂ SameEntry mid entries' ∧
      List.Forall₂ (Decoded ext) items' entries' := by
  obtain ⟨midItems, hperm, hsame⟩ := h
  obtain ⟨mid, hmid, hperm'⟩ := List.perm_comp_forall₂ hperm.symm hentries
  have hexists : ∃ entries', List.Forall₂ SameEntry mid entries' ∧
      List.Forall₂ (Decoded ext) items' entries' := by
    clear hperm hperm' hentries
    induction hsame generalizing mid with
    | nil =>
      cases hmid
      exact ⟨[], List.Forall₂.nil, List.Forall₂.nil⟩
    | cons hel _ ih =>
      cases hmid with
      | cons hdecoded hmid =>
        obtain ⟨entries', hall, hall'⟩ := ih _ hmid
        obtain ⟨e', he, he'⟩ := hdecoded.sameEntry hel
        exact ⟨e' :: entries', List.Forall₂.cons he hall, List.Forall₂.cons he' hall'⟩
  obtain ⟨entries', hall, hall'⟩ := hexists
  exact ⟨mid, entries', hperm'.symm, hall, hall'⟩

end Loop

/-- Everything the elements say is in the map, and in whatever order they say it the
map is the same. -/
structure Keeps (ext : External) (items : List Value) (entries : List Entry) (accounts : Accounts) :
    Prop where
  represented : ∀ e ∈ entries, ∃ account, accounts e.address = some account ∧
    account.code = e.code ∧ account.balance = e.balance ∧
      ∀ slot ∈ e.slots, account.storage slot.1 = some slot.2
  reordered : ∀ items', (∀ a ∈ items', AccountShape a) → Reordered items items' →
    storeAccounts ext items' (fun _ => none) = .ok () accounts
  files : ∀ config v, ValidState ext config v → Reordered items (v.field "accounts").elems →
    initAccountStorage ext config (fun _ => none) = .ok () accounts

section File

variable {ext : External} {items : List Value} {entries : List Entry} {config : Istream} {v : Value}

theorem Consistent.keeps (h : Consistent entries) (hentries : List.Forall₂ (Decoded ext) items entries) :
    Keeps ext items entries (storedEntries entries) := by
  have hreordered : ∀ items', (∀ a ∈ items', AccountShape a) → Reordered items items' →
      storeAccounts ext items' (fun _ => none) = .ok () (storedEntries entries) := by
    intro items' hshape hre
    obtain ⟨mid, entries', hperm, hsame, hdecoded⟩ := hre.decoded hentries
    rw [storeAccounts_eq_ok_iff hshape]
    exact ⟨entries', hdecoded, (h.storedEntries_congr hperm hsame).symm⟩
  refine ⟨?_, hreordered, ?_⟩
  · intro e he
    refine ⟨e.account, h.stored he, rfl, rfl, ?_⟩
    intro slot hslot
    exact (account_storage_iff (h.slots e he) slot.1 slot.2).mpr hslot
  · intro config v hvalid hre
    rw [initAccountStorage_valid hvalid]
    exact hreordered _ (stateShape_of hvalid.valid).accounts hre

/-- The elements can be put so that a given entry is stored last. -/
theorem Keeps.last {accounts : Accounts} (h : Keeps ext items entries accounts)
    (hshape : ∀ a ∈ items, AccountShape a) (hentries : List.Forall₂ (Decoded ext) items entries)
    {e : Entry} (he : e ∈ entries) : accounts e.address = some e.account := by
  obtain ⟨before, after, rfl⟩ := List.append_of_mem he
  have hperm : (before ++ after ++ [e]).Perm (before ++ e :: after) := by
    rw [List.append_assoc]
    exact List.Perm.append_left _ (List.perm_append_singleton e after)
  obtain ⟨items', hflip, hperm'⟩ := List.perm_comp_forall₂ hperm hentries.flip
  have hdecoded : List.Forall₂ (Decoded ext) items' (before ++ after ++ [e]) := hflip.flip
  have hshape' : ∀ a ∈ items', AccountShape a := fun a ha => hshape a (hperm'.mem_iff.mp ha)
  have hre : Reordered items items' :=
    ⟨items', hperm'.symm, List.forall₂_same.mpr fun a _ => ⟨rfl, rfl, List.Perm.refl _⟩⟩
  have hrun := (storeAccounts_eq_ok_iff hshape' _).mpr ⟨_, hdecoded, rfl⟩
  rw [h.reordered items' hshape' hre, EStateM.Result.ok.injEq] at hrun
  rw [hrun.2]
  unfold storedEntries
  rw [List.map_append]
  exact KeyedMap.foldl_keepLast_append _ (e.address, e.account) _

theorem Keeps.consistent {accounts : Accounts} (h : Keeps ext items entries accounts)
    (hshape : ∀ a ∈ items, AccountShape a) (hentries : List.Forall₂ (Decoded ext) items entries) :
    Consistent entries := by
  have hslots : ∀ e ∈ entries, ∀ e' ∈ entries, e.address = e'.address → ∀ slot ∈ e.slots,
      e'.account.storage slot.1 = some slot.2 := by
    intro e he e' he' haddress slot hslot
    obtain ⟨account, haccount, -, -, hstorage⟩ := h.represented e he
    rw [haddress, h.last hshape hentries he', Option.some.injEq] at haccount
    rw [haccount]
    exact hstorage slot hslot
  refine ⟨?_, ?_⟩
  · intro e he slot hslot slot' hslot' hkey
    have hval := hslots e he e he rfl slot hslot
    rw [hkey, hslots e he e he rfl slot' hslot', Option.some.injEq] at hval
    exact hval.symm
  · intro e he e' he' haddress
    obtain ⟨account, haccount, hcode, hbalance, -⟩ := h.represented e he
    rw [haddress, h.last hshape hentries he', Option.some.injEq] at haccount
    subst haccount
    refine ⟨hcode.symm, hbalance.symm, fun slot => ⟨fun hslot => ?_, fun hslot => ?_⟩⟩
    · exact mem_of_account_storage (hslots e he e' he' haddress slot hslot)
    · exact mem_of_account_storage (hslots e' he' e he haddress.symm slot hslot)

/-- **An accepted state file is kept whole, in any order of its elements, exactly where
elements of one address say the same and no slot of one has two values.** -/
theorem initAccountStorage_keeps_iff {accounts : Accounts} (hparse : parseJson ext.parser config = .ok v)
    (h : initAccountStorage ext config (fun _ => none) = .ok () accounts) :
    ∃ entries, List.Forall₂ (Decoded ext) (v.field "accounts").elems entries ∧
      (Keeps ext (v.field "accounts").elems entries accounts ↔ Consistent entries) := by
  have hvalid : ValidState ext config v := by
    refine ⟨hparse, ?_⟩
    by_contra hschema
    unfold initAccountStorage validateJson at h
    rw [hparse] at h
    have h : (call (orReturn _ (if stateSchema ext.validator.same v = true then none else some _)) >>=
      _) _ = EStateM.Result.ok () accounts := h
    rw [if_neg hschema] at h
    cases h
  have hshape := (stateShape_of hvalid.valid).accounts
  rw [initAccountStorage_valid hvalid, storeAccounts_eq_ok_iff hshape] at h
  obtain ⟨entries, hentries, rfl⟩ := h
  exact ⟨entries, hentries, fun hkeeps => hkeeps.consistent hshape hentries,
    fun hconsistent => hconsistent.keeps hentries⟩

end File

/-! ## Some files -/

section Files

/-- `intx::from_string`: decimal digits, or hexadecimal ones after `0x`. -/
def numberOf : Text → Except Thrown UInt256
  | '0' :: 'x' :: digits =>
    match digits.foldlM (fun n c => (hexValue c).map fun x => 16 * n + x.toNat) 0 with
    | some n => if n < 2 ^ 256 then .ok (BitVec.ofNat 256 n) else .error .outOfRange
    | none => .error .invalidArgument
  | digits => textNumber digits

/-- `ssz::deserialize<SmartContract>`: address, flag, balance and the other fields. -/
def contractOf (bytes : Bytes) : Except Thrown SmartContract :=
  if bytes.length = 198 ∧ bytes.getD 20 0 ≤ 1 then
    .ok ⟨Vector.ofFn fun i => bytes.getD i 0,
      BitVec.ofNat 256 (((bytes.drop 21).take 32).foldr (fun b n => b.toNat + 256 * n) 0)⟩
  else .error .truncated

/-- Libraries that parse one text. -/
def stateLibraries (text : Bytes) (v : Value) : External :=
  { externalOf text v with fromString := numberOf, deserializeContract := contractOf }

def emptyContract : SmartContract := ⟨Vector.replicate 20 0, 0⟩

theorem contractOf_zeros : contractOf (List.replicate 198 0) = .ok emptyContract := by
  unfold contractOf
  rw [if_pos ⟨List.length_replicate, by decide⟩]
  rfl

/-- The contract at the address 0 with nothing in it. -/
def zeroContract : Text := "0x".toList ++ List.replicate 396 '0'

theorem unhex_zeros (n : Nat) :
    unhex (List.replicate (2 * n) '0') = (List.replicate n 0, true) := by
  induction n with
  | zero => rfl
  | succ n ih =>
    have hvalue : hexValue '0' = some 0 := by decide
    show unhex ('0' :: '0' :: List.replicate (2 * n) '0') = (0 :: List.replicate n 0, true)
    rw [unhex, hvalue, ih]
    rfl

theorem decode_zeroContract : decode zeroContract = some (List.replicate 198 0) := by
  have hdigits : skipPrefix zeroContract = List.replicate (2 * 198) '0' := rfl
  unfold decode
  rw [hdigits, unhex_zeros]
  rfl

def slotDoc (slot : String × String) : Value :=
  .object [("Key".toList, .string slot.1.toList), ("Val".toList, .string slot.2.toList)]

def slotJson (slot : String × String) : Bytes :=
  ascii "\x7b\"Key\":\"" ++ ascii slot.1 ++ ascii "\",\"Val\":\"" ++ ascii slot.2 ++ ascii "\"\x7d"

/-- One element of `accounts` at the address 0, with the bytes of its code and the numbers
of its slots. -/
structure Element where
  code : String
  bytes : Bytes
  slots : List (String × String)
  numbers : List (UInt256 × UInt256)

namespace Element

def doc (contract : Text) (el : Element) : Value :=
  .object [("code".toList, .string el.code.toList), ("contract".toList, .string contract),
    ("proof".toList, .string "0x0".toList), ("storage".toList, .array (el.slots.map slotDoc))]

def json (el : Element) : Bytes :=
  ascii "\x7b\"code\":\"" ++ ascii el.code ++ ascii "\",\"contract\":\"0x" ++
    List.replicate 396 48 ++ ascii "\",\"proof\":\"0x0\",\"storage\":[" ++
    (ascii ",").intercalate (el.slots.map slotJson) ++ ascii "]\x7d"

/-- The bytes and the numbers are those of the texts. -/
structure Reads (el : Element) : Prop where
  code : decode el.code.toList = some el.bytes
  slots : List.Forall₂
    (fun slot n => numberOf slot.1.toList = .ok n.1 ∧ numberOf slot.2.toList = .ok n.2)
    el.slots el.numbers

/-- What the element says. -/
def entry (el : Element) : Entry where
  address := toEvmcAddress emptyContract.address
  balance := toUint256be emptyContract.balance
  code := el.bytes
  slots := el.numbers.map fun n => (toUint256be n.1, toUint256be n.2)

theorem decoded {ext : External} (hnumber : ext.fromString = numberOf)
    (hcontract : ext.deserializeContract = contractOf) {el : Element} (h : el.Reads) :
    Decoded ext (el.doc zeroContract) el.entry := by
  have hfield : ∀ t, ((el.doc t).field "contract").text = t := fun t => rfl
  have hstorage : ∀ t, ((el.doc t).field "storage").elems = el.slots.map slotDoc := fun t => rfl
  have hslots : el.entry.slots = el.numbers.map fun n => (toUint256be n.1, toUint256be n.2) := rfl
  refine ⟨h.code, ⟨List.replicate 198 0, emptyContract, ?_, ?_, rfl, rfl⟩, ?_⟩
  · rw [hfield]
    exact decode_zeroContract
  · rw [hcontract, contractOf_zeros]
  · rw [hstorage, hslots, List.forall₂_map_left_iff, List.forall₂_map_right_iff]
    refine h.slots.imp fun slot n hn => ⟨n.1, n.2, ?_, ?_, rfl⟩
    · rw [hnumber]
      exact hn.1
    · rw [hnumber]
      exact hn.2

end Element

def stateDoc (elements : List Element) : Value :=
  .object [("accounts".toList, .array (elements.map (Element.doc zeroContract)))]

def stateJson (elements : List Element) : Bytes :=
  ascii "\x7b\"accounts\":[" ++ (ascii ",").intercalate (elements.map Element.json) ++
    ascii "]\x7d"

/-- A file of this form that satisfies the schema. -/
structure StateText where
  elements : List Element
  ne_nul : ∀ b ∈ stateJson elements, b ≠ 0
  valid : stateSchema (fun _ _ => false) (stateDoc elements) = true
  reads : ∀ el ∈ elements, el.Reads

namespace StateText

def libraries (f : StateText) : External := stateLibraries (stateJson f.elements) (stateDoc f.elements)

def entries (f : StateText) : List Entry := f.elements.map Element.entry

theorem validState (f : StateText) :
    ValidState f.libraries { data := stateJson f.elements } (stateDoc f.elements) :=
  ⟨parseJson_parserOf _ f.ne_nul, f.valid⟩

theorem decoded (f : StateText) :
    List.Forall₂ (Decoded f.libraries) ((stateDoc f.elements).field "accounts").elems f.entries := by
  have helems : ((stateDoc f.elements).field "accounts").elems =
      f.elements.map (Element.doc zeroContract) := rfl
  unfold entries
  rw [helems, List.forall₂_map_left_iff, List.forall₂_map_right_iff, List.forall₂_same]
  intro el hel
  exact Element.decoded rfl rfl (f.reads el hel)

theorem loads (f : StateText) :
    initAccountStorage f.libraries { data := stateJson f.elements } (fun _ => none) =
      .ok () (storedEntries f.entries) := by
  rw [initAccountStorage_valid f.validState,
    storeAccounts_eq_ok_iff (stateShape_of f.validState.valid).accounts]
  exact ⟨f.entries, f.decoded, rfl⟩

theorem consistent_of_keeps (f : StateText)
    (h : Keeps f.libraries ((stateDoc f.elements).field "accounts").elems f.entries
      (storedEntries f.entries)) : Consistent f.entries :=
  h.consistent (stateShape_of f.validState.valid).accounts f.decoded

end StateText

def twoSlots : StateText where
  elements := [⟨"0x60", [0x60], [("0x01", "1"), ("0x0002", "2")], [(1, 1), (2, 2)]⟩]
  ne_nul := ne_zero_of_all (by decide +kernel)
  valid := by decide +kernel
  reads := by
    intro el hel
    rw [List.mem_singleton.mp hel]
    exact ⟨by decide, List.Forall₂.cons ⟨rfl, rfl⟩ (List.Forall₂.cons ⟨rfl, rfl⟩ List.Forall₂.nil)⟩

/-- The same slot, spelled twice. -/
def oneSlotTwice : StateText where
  elements := [⟨"0x60", [0x60], [("0x01", "1"), ("0x0001", "2")], [(1, 1), (1, 2)]⟩]
  ne_nul := ne_zero_of_all (by decide +kernel)
  valid := by decide +kernel
  reads := by
    intro el hel
    rw [List.mem_singleton.mp hel]
    exact ⟨by decide, List.Forall₂.cons ⟨rfl, rfl⟩ (List.Forall₂.cons ⟨rfl, rfl⟩ List.Forall₂.nil)⟩

/-- The same address with two codes. -/
def oneAddressTwice : StateText where
  elements := [⟨"0x60", [0x60], [], []⟩, ⟨"0x61", [0x61], [], []⟩]
  ne_nul := ne_zero_of_all (by decide +kernel)
  valid := by decide +kernel
  reads := by
    intro el hel
    rcases List.mem_pair.mp hel with rfl | rfl
    · exact ⟨by decide, List.Forall₂.nil⟩
    · exact ⟨by decide, List.Forall₂.nil⟩

/-- The load of a file with two slots. -/
theorem initAccountStorage_keeps_two_slots :
    ∃ entries, List.Forall₂ (Decoded twoSlots.libraries)
        ((stateDoc twoSlots.elements).field "accounts").elems entries ∧
      (Keeps twoSlots.libraries ((stateDoc twoSlots.elements).field "accounts").elems entries
        (storedEntries twoSlots.entries) ↔ Consistent entries) :=
  initAccountStorage_keeps_iff twoSlots.validState.parses twoSlots.loads

/-- A file that is loaded without keeping what its elements say. -/
def Loses (f : StateText) : Prop :=
  ValidState f.libraries { data := stateJson f.elements } (stateDoc f.elements) ∧
    initAccountStorage f.libraries { data := stateJson f.elements } (fun _ => none) =
      .ok () (storedEntries f.entries) ∧
    ¬ Keeps f.libraries ((stateDoc f.elements).field "accounts").elems f.entries
      (storedEntries f.entries)

/-- The first account of an address is lost without an error, and so is the second value
of a slot that is spelled twice. -/
theorem initAccountStorage_loses : Loses oneAddressTwice ∧ Loses oneSlotTwice := by
  constructor
  · refine ⟨oneAddressTwice.validState, oneAddressTwice.loads, fun hkeeps => ?_⟩
    have hcodes := (oneAddressTwice.consistent_of_keeps hkeeps).accounts _ List.mem_cons_self _
      (List.mem_cons_of_mem _ List.mem_cons_self) rfl
    exact absurd hcodes.1 (by decide)
  · refine ⟨oneSlotTwice.validState, oneSlotTwice.loads, fun hkeeps => ?_⟩
    have hslots := (oneSlotTwice.consistent_of_keeps hkeeps).slots _ List.mem_cons_self
    have hvalues : toUint256be 1 = toUint256be 2 :=
      hslots (toUint256be 1, toUint256be 1) List.mem_cons_self (toUint256be 1, toUint256be 2)
        (List.mem_cons_of_mem _ List.mem_cons_self) rfl
    exact absurd hvalues (by decide)

end Files

end AssignerRunner
