import Mathlib.Data.List.TakeDrop
import ZkevmFramework.Assigner.Main
import ZkevmFramework.AssignerRunner.FileMessages

/-!
# `main` on a block file and a state file

From the files to the EVM: a run on a block file starts with what the header says,
on the accounts of the state file, and asks for the first messages of the document
in their order (`main_follows_files`).
-/

namespace Assigner

open Cpp Core.Types JsonHelpers AssignerRunner

/-! ## The two files -/

section Sources

variable {sources : Sources} {name : Text}

theorem extractBlock_file {extractor : Rpc.DataExtractor} {blockHash : Text} {l l' : Loaded}
    (hname : name ≠ [])
    (h : extractBlockWithMessages sources extractor blockHash name l = .ok () l') :
    ∃ blockData, sources.openFile name = some blockData ∧
      loadBlockWithMessages sources.ext sources.memory blockData l = .ok () l' := by
  unfold extractBlockWithMessages at h
  rw [if_pos hname] at h
  cases hopen : sources.openFile name with
  | none =>
    rw [hopen] at h
    cases h
  | some blockData =>
    rw [hopen] at h
    exact ⟨blockData, rfl, h⟩

/-- The accounts are those that the elements of the state file decode to, in their order. -/
def FromStateFile (sources : Sources) (name : Text) (accounts : Accounts) : Prop :=
  ∃ config v entries, sources.openFile name = some config ∧ ValidState sources.ext config v ∧
    List.Forall₂ (Decoded sources.ext) (v.field "accounts").elems entries ∧
    accounts = storedEntries entries

/-- No file gives no accounts. -/
theorem extractAccounts_file {accounts : Accounts}
    (h : extractAccountsWithStorage sources name (fun _ => none) = .ok () accounts) :
    (name = [] ∧ accounts = fun _ => none) ∨ FromStateFile sources name accounts := by
  unfold extractAccountsWithStorage at h
  split_ifs at h with hname
  · unfold initAccountStorageFile at h
    cases hopen : sources.openFile name with
    | none =>
      rw [hopen] at h
      cases h
    | some config =>
      rw [hopen] at h
      have hload : initAccountStorage sources.ext config (fun _ => none) = .ok () accounts := h
      have hrun := hload
      unfold initAccountStorage at hrun
      obtain ⟨v, hparse, hvalid, -⟩ := validated_eq_ok_iff.mp hrun
      have hstate : ValidState sources.ext config v := ⟨hparse, hvalid⟩
      rw [initAccountStorage_valid hstate,
        storeAccounts_eq_ok_iff (stateShape_of hvalid).accounts] at hload
      obtain ⟨entries, hentries, haccounts⟩ := hload
      exact Or.inr ⟨config, v, entries, hopen, hstate, hentries, haccounts⟩
  · cases h
    exact Or.inl ⟨not_not.mp hname, rfl⟩

end Sources

/-! ## A run -/

section Run

variable {Circuit : Type} [DecidableEq Circuit] {σ C F : Type} {sources : Sources}
  {bytecode : Circuit} {w : World σ Circuit C F} {args : Arguments Circuit}
  (prepared : Prepared sources bytecode w args)

/-- What the host is constructed with. -/
def Prepared.handed : HostArguments Circuit F :=
  hostArguments args prepared.circuits prepared.loaded.block prepared.accounts

/-- The run starts with the header of the document, and has asked for these messages of it. -/
structure Prepared.Follows (v : Value) (asked : List Value) (p : Process Circuit) : Prop where
  number : v.field "number" = .int64 prepared.handed.blockNumber
  parentHash : digitCount (v.field "parentHash").text = 64 →
    prepared.handed.host.prevBlockHash = (v.field "parentHash").text
  inOrder : asked <+: requested v
  evaluated : List.Forall₂ (Asked sources.ext v) asked (p.evaluated.map Prod.snd)

variable {prepared} {v : Value}

/-- The messages that were evaluated are those of a first part of the document. -/
theorem asked_of {messages : List Message} {block : Block} {evaluated : List (Message × EvmcMessage)}
    (hprice : block.gasPrice.toNat = decimal (v.field "gasPrice").text)
    (hlt : decimal (v.field "gasPrice").text < 2 ^ 64)
    (hspelled : List.Forall₂ (Spelled sources.ext) (messagesOf v) messages)
    (horder : evaluated.map Prod.fst <+: toEvaluate messages)
    (hhanded : ∀ q ∈ evaluated, Handed block q) :
    ∃ asked, asked <+: requested v ∧
      List.Forall₂ (Asked sources.ext v) asked (evaluated.map Prod.snd) ∧
      (asked = requested v ↔ evaluated.map Prod.fst = toEvaluate messages) := by
  have hrequested := requested_spelled hspelled
  have htake := List.forall₂_take evaluated.length hrequested
  rw [List.prefix_iff_eq_take, List.length_map] at horder
  rw [← horder] at htake
  refine ⟨(requested v).take evaluated.length, List.take_prefix _ _, ?_, ?_⟩
  · rw [List.forall₂_map_right_iff] at htake ⊢
    rw [List.forall₂_iff_zip] at htake ⊢
    obtain ⟨hlength, hitems⟩ := htake
    refine ⟨hlength, fun hmem => ?_⟩
    exact (hitems hmem).asked hprice hlt (hhanded _ (List.of_mem_zip hmem).2)
  · rw [horder, List.take_eq_self_iff, List.take_eq_self_iff, hrequested.length_eq]

theorem prepared_follows (hname : args.blockFileName ≠ []) {p : Process Circuit}
    (horder : p.evaluated.map Prod.fst <+: toEvaluate prepared.loaded.messages)
    (hhanded : ∀ q ∈ p.evaluated, Handed prepared.loaded.block q) :
    ∃ blockData v asked, sources.openFile args.blockFileName = some blockData ∧
      ValidFile sources.ext blockData v ∧ prepared.Follows v asked p ∧
      (asked = requested v ↔
        p.evaluated.map Prod.fst = toEvaluate prepared.loaded.messages) := by
  obtain ⟨blockData, hopen, hload⟩ := extractBlock_file hname prepared.block
  obtain ⟨v, added, hfile, hconverts, hwritten, hmessages, hspelled⟩ := loadBlock_spelled hload
  obtain ⟨number, hash, hnumber, hhash, hblock⟩ := hwritten
  obtain ⟨-, -, hlt⟩ := hconverts
  rw [show prepared.loaded.messages = added from hmessages] at horder ⊢
  have hprice : prepared.loaded.block.gasPrice.toNat = decimal (v.field "gasPrice").text := by
    rw [hblock]
    show (BitVec.ofNat 256 _).toNat = _
    rw [BitVec.toNat_ofNat, Nat.mod_eq_of_lt (by omega)]
  obtain ⟨asked, hfirst, hasked, hall⟩ := asked_of hprice hlt hspelled horder hhanded
  refine ⟨blockData, v, asked, hopen, hfile, ⟨?_, ?_, hfirst, hasked⟩, hall⟩
  · rw [hnumber]
    show Value.int64 number = .int64 (Int64.ofBitVec prepared.loaded.block.id.toBitVec)
    rw [hblock]
    rfl
  · intro hcount
    show byteArrayToStr prepared.loaded.block.prevBlock.toList = _
    rw [hblock]
    exact hhash.printed (blockShape_of hfile.valid).parentHash hcount

end Run

/-! ## The process -/

section Main

variable {Circuit : Type} [DecidableEq Circuit] {σ C F : BaseField → Type}

/-- **The process follows its files.**  However it ends, the messages that the EVM was asked for
are the first of the document, each as the document spells it; and if the exit status is 0, all
of them where the host copies what it announces.  The accounts are those of the state file. -/
theorem main_follows_files (setting : Setting σ Circuit C F) (commandLine : CommandLine) :
    let r := main setting commandLine Process.new
    ∀ s : Started setting commandLine,
      (s.args.blockFileName = [] ∨
        ∃ blockData v asked, setting.sources.openFile s.args.blockFileName = some blockData ∧
          ValidFile setting.sources.ext blockData v ∧ s.prepared.Follows v asked (left r) ∧
          (outcome r = .ok 0 → (asked = requested v ↔
            CopiesWhole (setting.world s.field).host s.prepared.loaded.block
              s.prepared.loaded.messages s.prepared.start))) ∧
      (s.args.accountStorageFileName = [] ∧ s.prepared.accounts = (fun _ => none) ∨
        FromStateFile setting.sources s.args.accountStorageFileName s.prepared.accounts) := by
  intro r s
  refine ⟨?_, extractAccounts_file s.prepared.storage⟩
  obtain ⟨hnoted, hstatus⟩ := s.prepared.curveDependentMain_spec Process.new
  have hr : r = _ := s.main_eq Process.new
  obtain ⟨horder, hhanded, hall⟩ := run_evaluates (setting.world s.field).toEnvironment
    s.args.assignmentTableFileName s.args.artifacts s.prepared.loaded.block
    s.prepared.loaded.messages s.prepared.start
  rw [hr]
  rcases Classical.em (s.args.blockFileName = []) with hname | hname
  · exact Or.inl hname
  · right
    obtain ⟨blockData, v, asked, hopen, hfile, hfollows, hwhole⟩ :=
      prepared_follows hname (by rw [hnoted.evaluated]; exact horder)
        (by rw [hnoted.evaluated]; exact hhanded)
    refine ⟨blockData, v, asked, hopen, hfile, hfollows, fun hzero => hwhole.trans ?_⟩
    rw [hnoted.evaluated]
    exact hall (hstatus.mp hzero).run

/-- A process that reads the block with one message. -/
def fileSetting : Setting (fun _ => Unit) Unit (fun _ => Unit) (fun _ => UInt8) :=
  { quietSetting with
    sources := { quietSetting.sources with
      ext := externalOf fullHash.text fullHash.doc
      openFile := fun _ => some { data := fullHash.text } } }

def fileMap : OutputArtifacts.VariablesMap
  | "assignment-tables" => some (.string "t".toList)
  | "block-file" => some (.string "b".toList)
  | _ => none

example :
    let r := main fileSetting (.stored fileMap) Process.new
    outcome r = .ok 0 ∧
      (left r).evaluated.map (fun q => (q.2.inputData, q.2.gas)) = [([0xab], 5)] := by
  decide +kernel

end Main

end Assigner
