import ZkevmFramework.Core.EraseInsert
import ZkevmFramework.Core.MptCommit
import ZkevmFramework.Core.MptState

/-!
# What `remove` does to a reachable trie

* `remove_keyNotFound_iff`: a missing key is detected, and nothing changes.
* `remove_keeps_iff`: the other keys survive, unless the key is the value of a
  branch with two or more slots and `idx` happens to name one in use.
* `remove_removes_iff`: the key is gone, unless a branch on its way has no value
  and no other slot.
* `remove_ok_iff`: the call returns normally, unless the key is the only one
  left, or the root is a branch that is down to one slot.
* `set_remove_root_iff`: which insertions a removal undoes at the root.

Each condition is on the tree the state spells before the call.
-/

namespace Core.Mpt

open Patricia MerklePatriciaTrie

variable {ssz : SszLib}

/-! ## Missing keys -/

/-- **`remove` throws "Key not found" exactly for a path without entry**, and then
the state is as before. -/
theorem remove_keyNotFound_iff {ops : List Op} {t : MerklePatriciaTrie} (h : Run ssz ops t)
    (hnc : NoCollision t.storage.stored) (hroot : t.root ≠ []) (key : Bytes) (junk : UInt8) :
    ((∃ t', t.remove ssz junk key = .error .keyNotFound t') ↔
        ∀ v, ¬ HasEntry ssz t.storage t.root (pathFromKey key).nibbles v) ∧
      ∀ t', t.remove ssz junk key = .error .keyNotFound t' → t' = t := by
  obtain ⟨tr, hrep⟩ := h.exists_represents hnc
  have hne : tr.isEmpty = false := hrep.isEmpty_eq_false hroot
  have hfound : ∀ t', t.remove ssz junk key = .error .keyNotFound t' →
      erase (junkSlot junk) tr (pathFromKey key).nibbles = .error .keyNotFound ∧ t' = t := by
    intro t' ht'
    rcases hrep.remove_error hne ht' with h0 | ⟨-, h0, -⟩ | ⟨tr', -, h0, -⟩
    · exact h0
    · cases h0
    · cases h0
  rw [hrep.not_hasEntry_iff, ← erase_keyNotFound_iff (junkSlot junk) hrep.fits hne]
  refine ⟨⟨?_, ?_⟩, ?_⟩
  · rintro ⟨t', ht'⟩
    exact (hfound t' ht').1
  · intro he
    have hr := hrep.remove_eq ssz hne junk key
    rw [he] at hr
    exact ⟨t, hr⟩
  · intro t' ht'
    exact (hfound t' ht').2

theorem remove_keyNotFound_prefix :
    let t := exec .standard [.remove [0x22] 0, .set [0x34] [2], .set [0x22] [1]]
    ((∃ t', t.remove .standard 5 [0x22] = .error .keyNotFound t') ↔
        ∀ v, ¬ HasEntry .standard t.storage t.root (pathFromKey [0x22]).nibbles v) ∧
      ∀ t', t.remove .standard 5 [0x22] = .error .keyNotFound t' → t' = t :=
  remove_keyNotFound_iff setRemoved.run_ops setRemoved.noCollision_ops (by decide +kernel) _ _

/-! ## The other keys -/

/-- Every other key that was set keeps its value. -/
def KeepsOthers (ssz : SszLib) (writes : List (Bytes × Bytes)) (key : Bytes)
    (t t' : MerklePatriciaTrie) : Prop :=
  ∀ key' w, (∃ v, (key', v) ∈ writes) → pathFromKey key' ≠ pathFromKey key →
    t.get ssz key' = .ok w → t'.get ssz key' = .ok w

/-- A key below the slot that is cleared is not kept. -/
theorem KeepsOthers.not_loses {writes : List (Bytes × Bytes)} {t t' : MerklePatriciaTrie}
    {key : Bytes} {junk : Option (Fin 16)} {tr tr' : NodeTree}
    (hkeep : KeepsOthers ssz writes key t t') (hrep : t.Represents tr) (hcom : Commits writes tr)
    (hne : tr.isEmpty = false)
    (he : erase junk tr (pathFromKey key).nibbles = .ok (.updated tr'))
    (hrep' : t'.Represents tr') : ¬ Loses junk tr (pathFromKey key).nibbles := by
  intro hl
  obtain ⟨tr'', he', j, x, w, hent, hread⟩ := hl.erase (hcom.canonical hne)
  rw [he] at he'
  cases he'
  obtain ⟨⟨key', v⟩, hm, hpath⟩ := contents_some ((hcom.entry _).symm.trans hent)
  have hget : t.get ssz key' = .ok w := by
    apply hrep.get_of_read
    rw [hpath]
    exact Tree.read_of_entry hent
  have hpne : pathFromKey key' ≠ pathFromKey key := by
    intro heq
    rw [← heq] at hpath
    simpa using congrArg List.length hpath
  have hget' := hrep'.read_of_get (hkeep key' w ⟨v, hm⟩ hpne hget)
  rw [hpath, hread] at hget'
  cases hget'

theorem keepsOthers_of_not_loses {writes : List (Bytes × Bytes)} {t t' : MerklePatriciaTrie}
    {key : Bytes} {junk : Option (Fin 16)} {tr tr' : NodeTree} (hrep : t.Represents tr)
    (hcom : Commits writes tr)
    (he : erase junk tr (pathFromKey key).nibbles = .ok (.updated tr'))
    (hrep' : t'.Represents tr') (hl : ¬ Loses junk tr (pathFromKey key).nibbles) :
    KeepsOthers ssz writes key t t' := by
  intro key' w hm hpne hget
  have hx : (pathFromKey key').nibbles ≠ (pathFromKey key).nibbles := by
    intro hn
    exact hpne (pathFromKey_inj hn)
  -- the key was set, so what a lookup answers is its entry
  obtain ⟨v, hm⟩ := hm
  obtain ⟨v', hv'⟩ := contents_of_mem hm
  rw [← hcom.entry] at hv'
  have hread := hrep.read_of_get hget
  rw [Tree.read_of_entry hv'] at hread
  cases hread
  apply hrep'.get_of_read
  apply Tree.read_of_entry
  rw [← hv']
  exact entry_erase_ne he hl hx

/-- **A normal `remove` keeps every other key, unless it clears a slot in use.** -/
theorem remove_keeps_iff {writes : List (Bytes × Bytes)} {t t' : MerklePatriciaTrie} {key : Bytes}
    {junk : UInt8} (h : Run ssz (sets writes) t) (hv : ∀ w ∈ writes, w.2 ≠ [])
    (hr : t.remove ssz junk key = .ok () t') (hnc : NoCollision t'.storage.stored) :
    ∃ tr, Spells ssz t.storage t.root tr ∧
      (KeepsOthers ssz writes key t t' ↔
        ¬ Loses (junkSlot junk) tr (pathFromKey key).nibbles) := by
  have hg := remove_ok_grows hr
  obtain ⟨tr, hrep, hcom⟩ := h.commits hv (hnc.mono hg.subset)
  refine ⟨tr, hrep.spells, ?_⟩
  cases hne : tr.isEmpty with
  | true =>
    have hnil := hcom.isEmpty.mp hne
    subst hnil
    rw [(Tree.isEmpty_iff tr).mp hne]
    constructor
    · intro _ hl
      exact hl
    · rintro _ key' w ⟨v, hm⟩
      cases hm
  | false =>
    obtain ⟨tr', he, -, hrep'⟩ := hrep.remove_ok hne hr
    constructor
    · intro hkeep
      exact hkeep.not_loses hrep hcom hne he (hrep' hnc)
    · intro hl
      exact keepsOthers_of_not_loses hrep hcom he (hrep' hnc) hl

/-- Removing a leaf beside another. -/
def removeSibling : Execution where
  ops := [.set [0x22] [2], .set [0x11] [1]]
  call := .remove [0x11] 2
  key := [0x11]
  before := .ok [1]
  after := .error .keyNotFound
  checked := by decide +kernel

theorem remove_keeps_sibling :
    let writes := [([0x22], [2]), ([0x11], [1])]
    let t := exec .standard (sets writes)
    let t' := exec .standard (.remove [0x11] 2 :: sets writes)
    ∃ tr, Spells .standard t.storage t.root tr ∧
      (KeepsOthers .standard writes [0x11] t t' ↔
        ¬ Loses (junkSlot 2) tr (pathFromKey [0x11]).nibbles) :=
  remove_keeps_iff removeSibling.run_ops (by decide) (remove_exec removeSibling.ok)
    removeSibling.noCollision

/-- Removing a key that is a prefix of two others, while `idx` is 2. -/
def removePrefix : Execution where
  ops := sets [([0x30], [3]), ([0x20], [2]), ([], [1])]
  call := .remove [] 2
  key := [0x20]
  before := .ok [2]
  after := .error .keyNotFound
  checked := by decide +kernel

theorem remove_loses_sibling :
    let writes := [([0x30], [3]), ([0x20], [2]), ([], [1])]
    let t := exec .standard (sets writes)
    let t' := exec .standard (.remove [] 2 :: sets writes)
    Run .standard (sets writes) t ∧ t.remove .standard 2 [] = .ok () t' ∧
      NoCollision t'.storage.stored ∧ t.get .standard [0x20] = .ok [2] ∧
      t'.get .standard [0x20] = .error .keyNotFound :=
  ⟨removePrefix.run_ops, remove_exec removePrefix.ok, removePrefix.noCollision,
    removePrefix.get_before, removePrefix.get_after⟩

/-! ## The key itself -/

/-- **A normal `remove` removes the key, unless the node built "from the last
branch" is the deleted one.** -/
theorem remove_removes_iff {ops : List Op} {t t' : MerklePatriciaTrie} {key v : Bytes}
    {junk : UInt8} (h : Run ssz ops t) (hv : SetValues (· ≠ []) ops)
    (hk : HasEntry ssz t.storage t.root (pathFromKey key).nibbles v)
    (hr : t.remove ssz junk key = .ok () t') (hnc : NoCollision t'.storage.stored) :
    ∃ tr, Spells ssz t.storage t.root tr ∧
      (((∀ w, ¬ HasEntry ssz t'.storage t'.root (pathFromKey key).nibbles w) ∧
          t'.get ssz key ≠ .ok v ∧
          ∀ junk', ∃ t'', t'.remove ssz junk' key = .error .keyNotFound t'') ↔
        ¬ Resurrects tr (pathFromKey key).nibbles) := by
  have hg := remove_ok_grows hr
  obtain ⟨tr, hrep, hl⟩ := h.represents hv (hnc.mono hg.subset)
  refine ⟨tr, hrep.spells, ?_⟩
  rw [hrep.hasEntry_iff] at hk
  have hne : tr.isEmpty = false := by
    cases tr with
    | empty => cases hk
    | _ => rfl
  obtain ⟨tr', he, -, hrep'⟩ := hrep.remove_ok hne hr
  have hrep' := hrep' hnc
  have hent := entry_erase_self he
  have hok := erase_ok hrep.fits he
  rw [hrep'.not_hasEntry_iff]
  constructor
  · rintro ⟨hnone, -⟩ hres
    have := hent.1 hres
    rw [Erased.tree, hnone, hk] at this
    cases this
  · intro hres
    have hnone : tr'.entry (pathFromKey key).nibbles = none := hent.2 hres
    refine ⟨hnone, ?_, ?_⟩
    · -- a branch without value may answer the empty value, which was not removed
      intro hget
      have hv0 : v ≠ [] := Tree.entry_ne hl hk
      have hread := hrep'.read_of_get hget
      have := Tree.entry_of_read hread hv0
      rw [hnone] at this
      cases this
    · intro junk'
      have hrem := hrep'.remove_eq ssz hok.2.1 junk' key
      rw [(erase_keyNotFound_iff _ hok.1 hok.2.1).mpr hnone] at hrem
      exact ⟨t', hrem⟩

/-- Removing a leaf beside another. -/
def removeLeaf : Execution where
  ops := [.set [0x22] [2], .set [0x11] [1]]
  call := .remove [0x11] 0
  key := [0x11]
  before := .ok [1]
  after := .error .keyNotFound
  checked := by decide +kernel

theorem remove_removes_leaf :
    let ops := [.set [0x22] [2], .set [0x11] [1]]
    let t := exec .standard ops
    let t' := exec .standard (.remove [0x11] 0 :: ops)
    ∃ tr, Spells .standard t.storage t.root tr ∧
      (((∀ w, ¬ HasEntry .standard t'.storage t'.root (pathFromKey [0x11]).nibbles w) ∧
          t'.get .standard [0x11] ≠ .ok [1] ∧
          ∀ junk', ∃ t'', t'.remove .standard junk' [0x11] = .error .keyNotFound t'') ↔
        ¬ Resurrects tr (pathFromKey [0x11]).nibbles) := by
  have hrun := removeLeaf.run_ops
  have hvalues : SetValues (· ≠ []) [.set [0x22] [2], .set [0x11] [1]] := by
    intro key value h
    simp only [List.mem_cons, Op.set.injEq, List.not_mem_nil, or_false] at h
    rcases h with ⟨-, rfl⟩ | ⟨-, rfl⟩ <;> decide
  exact remove_removes_iff hrun hvalues
    ((hrun.hasEntry_iff_get removeLeaf.noCollision_ops (by decide)).mpr
      removeLeaf.get_before)
    (remove_exec removeLeaf.ok) removeLeaf.noCollision

/-- Two keys below one nibble, removed one after the other. -/
def removeBoth : Execution where
  ops := [.remove [0x1A] 0, .set [0x1B] [2], .set [0x1A] [1]]
  call := .remove [0x1B] 0
  key := [0x1B]
  before := .ok [2]
  after := .ok [2]
  checked := by decide +kernel

theorem remove_resurrects :
    let ops := [.remove [0x1A] 0, .set [0x1B] [2], .set [0x1A] [1]]
    let t := exec .standard ops
    let t' := exec .standard (.remove [0x1B] 0 :: ops)
    Run .standard ops t ∧ t.remove .standard 0 [0x1B] = .ok () t' ∧
      NoCollision t'.storage.stored ∧ t.get .standard [0x1B] = .ok [2] ∧
      t'.get .standard [0x1B] = .ok [2] :=
  ⟨removeBoth.run_ops, remove_exec removeBoth.ok, removeBoth.noCollision,
    removeBoth.get_before, removeBoth.get_after⟩

/-! ## Normal returns -/

/-- `remove` returns normally for this key: it has an entry, the entry is not the
whole tree, the root is not a branch that collapses, and no slot beyond the
sixteen has to be cleared. -/
def Removable (junk : Option (Fin 16)) (tr : NodeTree) (q : List (Fin 16)) : Prop :=
  tr.entry q ≠ none ∧ ¬ Sole tr q ∧ ¬ Collapses tr q ∧
    ¬ (junk = none ∧ AtCrowded (fun _ => True) tr q)

/-- Once something was set the root is never empty again. -/
theorem Run.root_ne_nil {ops : List Op} {t : MerklePatriciaTrie} (h : Run ssz ops t)
    (hnc : NoCollision t.storage.stored) {key value : Bytes} (hset : Op.set key value ∈ ops) :
    t.root ≠ [] := by
  induction h with
  | empty => cases hset
  | @set ops t value' key' h hv ih =>
    obtain ⟨tr, hrep⟩ := h.exists_represents (hnc.mono (t.set_grows ssz key' value').subset)
    obtain ⟨t', ht', hrep'⟩ := hrep.set_eq ssz key' hv
    rw [ht'] at hnc ⊢
    show t'.root ≠ []
    exact (hrep' hnc).root_ne_nil (Tree.isEmpty_insert _ _ _)
  | @remove ops t t' key' junk h hr ih =>
    have hg := remove_ok_grows hr
    have hmem : Op.set key value ∈ ops := by simpa using hset
    have hroot := ih (hnc.mono hg.subset) hmem
    obtain ⟨tr, hrep⟩ := h.exists_represents (hnc.mono hg.subset)
    have hne : tr.isEmpty = false := hrep.isEmpty_eq_false hroot
    obtain ⟨tr', he, -, hrep'⟩ := hrep.remove_ok hne hr
    exact (hrep' hnc).root_ne_nil (erase_ok hrep.fits he).2.1

/-- **When `remove` returns normally** for a key that was set; and whatever was
removed since, the root is not empty. -/
theorem remove_ok_iff {ops : List Op} {t : MerklePatriciaTrie} {key value : Bytes}
    (h : Run ssz ops t) (hset : Op.set key value ∈ ops) (hnc : NoCollision t.storage.stored)
    (junk : UInt8) :
    (∃ tr, Spells ssz t.storage t.root tr ∧
      ((∃ t', t.remove ssz junk key = .ok () t') ↔
        Removable (junkSlot junk) tr (pathFromKey key).nibbles)) ∧ t.root ≠ [] := by
  have hroot := h.root_ne_nil hnc hset
  obtain ⟨tr, hrep⟩ := h.exists_represents hnc
  have hne : tr.isEmpty = false := hrep.isEmpty_eq_false hroot
  refine ⟨⟨tr, hrep.spells, ?_⟩, hroot⟩
  rw [Removable, ← erase_updated_iff hrep.fits hne]
  constructor
  · rintro ⟨t', ht'⟩
    obtain ⟨tr', he, -⟩ := hrep.remove_ok hne ht'
    exact ⟨tr', he⟩
  · rintro ⟨tr', he⟩
    have hr := hrep.remove_eq ssz hne junk key
    rw [he] at hr
    obtain ⟨t', ht', -⟩ := hr
    exact ⟨t', ht'⟩

theorem remove_ok_two_leaves :
    let t := exec .standard [.set [0x22] [2], .set [0x11] [1]]
    (∃ tr, Spells .standard t.storage t.root tr ∧
      ((∃ t', t.remove .standard 0 [0x11] = .ok () t') ↔
        Removable (junkSlot 0) tr (pathFromKey [0x11]).nibbles)) ∧ t.root ≠ [] :=
  remove_ok_iff removeLeaf.run_ops (show Op.set [0x11] [1] ∈ removeLeaf.ops by simp [removeLeaf])
    removeLeaf.noCollision_ops 0

def setOnly : Execution where
  ops := []
  call := .set [0x11] [1]
  key := [0x11]
  before := .error .notInitialized
  after := .ok [1]
  checked := by decide +kernel

/-- The only key of a trie: `DeleteNode` answers "deleted" without a reference,
and `remove` dereferences it. -/
theorem remove_last_key :
    let ops := [.set [0x11] [1]]
    let t := exec .standard ops
    Run .standard ops t ∧ NoCollision t.storage.stored ∧ t.get .standard [0x11] = .ok [1] ∧
      ∃ t', t.remove .standard 0 [0x11] = .error .emptyOptional t' :=
  ⟨setOnly.run, setOnly.noCollision, setOnly.get_after, _, rfl⟩

/-! ## Set, then remove -/

/-- **When `set` and `remove` of a fresh key give the root back.** -/
theorem set_remove_root_iff {writes : List (Bytes × Bytes)} {t t₁ t₂ : MerklePatriciaTrie}
    {key value : Bytes} {junk : UInt8} (h : Run ssz (sets writes) t) (hne : writes ≠ [])
    (hv : ∀ w ∈ writes, w.2 ≠ []) (hfresh : ∀ w ∈ writes, pathFromKey w.1 ≠ pathFromKey key)
    (hvalue : value ≠ []) (hlen : value.length ≤ maxValueLen)
    (h₁ : t₁ = stateAfter (t.set ssz key value)) (h₂ : t₂ = stateAfter (t₁.remove ssz junk key))
    (hnc : NoCollision t₂.storage.stored) :
    ∃ tr, Spells ssz t.storage t.root tr ∧
      (t₂.root = t.root ↔ Undone (junkSlot junk) tr (pathFromKey key).nibbles ∧
        ¬ ((pathFromKey key).nibbles = [] ∧ tr.isBranch = false)) := by
  have hg₁ := t.set_grows ssz key value
  have hg₂ := t₁.remove_grows ssz junk key
  rw [← h₁] at hg₁
  rw [← h₂] at hg₂
  obtain ⟨tr, hrep, hcom⟩ := h.commits hv (hnc.mono (hg₁.trans hg₂).subset)
  obtain ⟨t', ht', hrep₁⟩ := hrep.set_eq ssz key hlen
  rw [ht'] at h₁
  subst h₁
  have hrep₁ := hrep₁ (hnc.mono hg₂.subset)
  have htr := hcom.isEmpty_eq_false hne
  have hcan := hcom.canonical htr
  have hnone := hcom.entry_eq_none hfresh
  refine ⟨tr, hrep.spells, ?_⟩
  rw [← erase_insert_iff hcan hvalue hnone]
  -- on the storage at the end the root of `t` determines `tr`
  have hroot : ∀ {tr' : NodeTree}, Logged t₂.storage tr' → Fits tr' maxPathLen →
      refOf tr' = t.root → tr' = tr := by
    intro tr' hl hf he
    rw [hrep.root] at he
    exact refOf_injective hnc (by decide) (by decide) hf hrep.fits hl
      ((hg₁.trans hg₂).logged hrep.logged) he
  have hset : t₁.root ≠ t.root := by
    rw [hrep₁.root]
    intro he
    have := hroot (hg₂.logged hrep₁.logged) hrep₁.fits he
    rw [← this, Tree.entry_insert hcan.leaves _ hvalue, if_pos rfl] at hnone
    cases hnone
  have hnil : ([] : Reference) ≠ t.root := (hrep.root_ne_nil htr).symm
  have hne₁ := Tree.isEmpty_insert tr (pathFromKey key).nibbles value
  cases hrem : t₁.remove ssz junk key with
  | ok _ t' =>
    rw [hrem] at h₂
    subst h₂
    obtain ⟨tr', he, hroot', hrep'⟩ := hrep₁.remove_ok hne₁ hrem
    have hrep' := hrep' hnc
    simp only [he, Except.ok.injEq, Erased.updated.injEq]
    constructor
    · intro h0
      exact hroot hrep'.logged hrep'.fits (hroot'.symm.trans h0)
    · intro h0
      rw [hroot', h0, hrep.root]
  | error e t' =>
    rw [hrem] at h₂
    subst h₂
    rcases hrep₁.remove_error hne₁ hrem with ⟨he, ht'⟩ | ⟨he, -, ht'⟩ | ⟨tr', he, -, ht'⟩
    · simp [he, ht', hset]
    · simp [he, ht', hnil]
    · simp [he, ht', hset]

/-- A third leaf beside two others comes and goes. -/
def removeThird : Execution where
  ops := [.set [0x33] [3], .set [0x22] [2], .set [0x11] [1]]
  call := .remove [0x33] 0
  key := [0x33]
  before := .ok [3]
  after := .error .keyNotFound
  checked := by decide +kernel

theorem set_remove_root_third :
    let writes := [([0x22], [2]), ([0x11], [1])]
    let t := exec .standard (sets writes)
    let t₁ := stateAfter (t.set .standard [0x33] [3])
    let t₂ := stateAfter (t₁.remove .standard 0 [0x33])
    ∃ tr, Spells .standard t.storage t.root tr ∧
      (t₂.root = t.root ↔ Undone (junkSlot 0) tr (pathFromKey [0x33]).nibbles ∧
        ¬ ((pathFromKey [0x33]).nibbles = [] ∧ tr.isBranch = false)) :=
  set_remove_root_iff (run_exec (execOk_tail (execOk_tail removeThird.ok))) (by decide)
    (by decide) (by decide +kernel) (by decide) (by decide) rfl rfl removeThird.noCollision

/-- A second key splits the only leaf; its removal leaves a branch with one slot. -/
theorem set_remove_root_differs :
    let writes := [([0x11], [1])]
    let t := exec .standard (sets writes)
    let t₁ := stateAfter (t.set .standard [0x22] [2])
    let t₂ := stateAfter (t₁.remove .standard 0 [0x22])
    Run .standard (sets writes) t ∧ pathFromKey [0x11] ≠ pathFromKey [0x22] ∧
      NoCollision t₂.storage.stored ∧ t₂.root ≠ t.root :=
  ⟨run_exec (by decide +kernel), by decide +kernel⟩

end Core.Mpt
