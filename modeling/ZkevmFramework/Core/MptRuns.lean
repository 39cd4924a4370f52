import ZkevmFramework.Core.MptDelete
import ZkevmFramework.Core.EraseEntries
import ZkevmFramework.Core.MptGrows

/-!
# Runs of `set` and `remove`

`t.Represents tr`: the root is the reference of `tr` and the storage holds it.
Each public operation is then determined by the tree operation of its path
(`get_eq`, `set_eq`, `remove_eq`), and every state a run reaches represents a
tree, as long as no two stored encodings collide:

    Run ssz ops t → NoCollision t.storage.stored → ∃ tr, t.Represents tr   (Run.represents)
-/

namespace Core.Mpt

open Nibble Patricia

variable {ssz : SszLib}

/-- A call on the trie; `junk` is what the uninitialised `idx` holds during it. -/
inductive Op where
  | set (key value : Bytes)
  | remove (key : Bytes) (junk : UInt8)

/-- The calls, latest first, lead from the empty trie to the state: every value
within the capacity, every `remove` returning normally. -/
inductive Run (ssz : SszLib) : List Op → MerklePatriciaTrie → Prop where
  | empty : Run ssz [] .empty
  | set {ops : List Op} {t : MerklePatriciaTrie} {value : Bytes} (key : Bytes) :
      Run ssz ops t → value.length ≤ maxValueLen →
      Run ssz (.set key value :: ops) (stateAfter (t.set ssz key value))
  | remove {ops : List Op} {t t' : MerklePatriciaTrie} {key : Bytes} {junk : UInt8} :
      Run ssz ops t → t.remove ssz junk key = .ok () t' → Run ssz (.remove key junk :: ops) t'

/-- The state after the calls, whatever they answer. -/
def exec (ssz : SszLib) : List Op → MerklePatriciaTrie
  | [] => .empty
  | .set key value :: ops => stateAfter ((exec ssz ops).set ssz key value)
  | .remove key junk :: ops => stateAfter ((exec ssz ops).remove ssz junk key)

/-- The calls make a run. -/
def execOk (ssz : SszLib) : List Op → Bool
  | [] => true
  | .set _ value :: ops => value.length ≤ maxValueLen && execOk ssz ops
  | .remove key junk :: ops => (match (exec ssz ops).remove ssz junk key with
      | .ok _ _ => true
      | .error _ _ => false) && execOk ssz ops

theorem execOk_tail {op : Op} {ops : List Op} (h : execOk ssz (op :: ops) = true) :
    execOk ssz ops = true := by
  cases op <;> simp only [execOk, Bool.and_eq_true] at h <;> exact h.2

theorem remove_exec {ops : List Op} {key : Bytes} {junk : UInt8}
    (h : execOk ssz (.remove key junk :: ops) = true) :
    (exec ssz ops).remove ssz junk key = .ok () (exec ssz (.remove key junk :: ops)) := by
  rw [exec]
  simp only [execOk, Bool.and_eq_true] at h
  cases hr : (exec ssz ops).remove ssz junk key with
  | ok _ t' => rfl
  | error e t' => rw [hr] at h; exact absurd h.1 (by simp)

theorem run_exec {ops : List Op} (h : execOk ssz ops = true) : Run ssz ops (exec ssz ops) := by
  induction ops with
  | nil => exact .empty
  | cons op ops ih =>
    cases op with
    | set key value =>
      simp only [execOk, Bool.and_eq_true, decide_eq_true_eq] at h
      exact .set key (ih h.2) h.1
    | remove key junk =>
      have hr := remove_exec h
      exact .remove (ih (execOk_tail h)) hr

/-- What a call stored before is stored after one more. -/
theorem noCollision_tail {op : Op} {ops : List Op}
    (h : NoCollision (exec ssz (op :: ops)).storage.stored) :
    NoCollision (exec ssz ops).storage.stored := by
  apply h.mono
  cases op with
  | set key value => exact (MerklePatriciaTrie.set_grows ssz _ key value).subset
  | remove key junk => exact (MerklePatriciaTrie.remove_grows ssz _ junk key).subset

/-- A call after others, executed: all of them return normally, no two stored
encodings collide, and `get` of the key answers as given before and after the call. -/
structure Execution where
  ops : List Op
  call : Op
  key : Bytes
  before : Except Error Bytes
  after : Except Error Bytes
  checked : execOk .standard (call :: ops) = true ∧
    NoCollision (exec .standard (call :: ops)).storage.stored ∧
    (exec .standard ops).get .standard key = before ∧
    (exec .standard (call :: ops)).get .standard key = after

namespace Execution

variable (x : Execution)

theorem ok : execOk .standard (x.call :: x.ops) = true := x.checked.1

theorem run : Run .standard (x.call :: x.ops) (exec .standard (x.call :: x.ops)) := run_exec x.ok

theorem run_ops : Run .standard x.ops (exec .standard x.ops) := run_exec (execOk_tail x.ok)

theorem noCollision : NoCollision (exec .standard (x.call :: x.ops)).storage.stored := x.checked.2.1

theorem noCollision_ops : NoCollision (exec .standard x.ops).storage.stored :=
  noCollision_tail x.noCollision

theorem get_before : (exec .standard x.ops).get .standard x.key = x.before := x.checked.2.2.1

theorem get_after : (exec .standard (x.call :: x.ops)).get .standard x.key = x.after :=
  x.checked.2.2.2

end Execution

/-! ## Paths of keys -/

/-- The nibbles a key has at most, twice the length of a hash. -/
def maxPathLen : Nat := 128

theorem length_pathFromKey (key : Bytes) : (pathFromKey key).nibbles.length ≤ maxPathLen := by
  unfold pathFromKey maxRawKeyLen maxPathLen
  split
  · rw [Path.length_nibbles]
    simp [Path.ofBytes]
  · rw [Path.length_nibbles]
    simp only [Path.ofBytes]
    omega

theorem small_pathFromKey (key : Bytes) : (pathFromKey key).Small :=
  lt_of_le_of_lt (length_pathFromKey key) (by decide)

theorem lt_walkFuel (key : Bytes) :
    (pathFromKey key).nibbles.length < walkFuel (pathFromKey key) := by
  rw [walkFuel, Path.size_eq (small_pathFromKey key)]
  omega

theorem pathFromKey_inj {key key' : Bytes}
    (h : (pathFromKey key).nibbles = (pathFromKey key').nibbles) :
    pathFromKey key = pathFromKey key' := by
  have hcases : ∀ k, ∃ data, pathFromKey k = Path.ofBytes data := by
    intro k
    unfold pathFromKey
    split <;> exact ⟨_, rfl⟩
  obtain ⟨d, hd⟩ := hcases key
  obtain ⟨d', hd'⟩ := hcases key'
  rw [hd, hd', Path.nibbles_ofBytes, Path.nibbles_ofBytes] at h
  rw [hd, hd', unpack_injective h]

namespace MerklePatriciaTrie

/-! ## The operations on a represented tree -/

/-- The trie holds the tree. -/
structure Represents (t : MerklePatriciaTrie) (tr : NodeTree) : Prop where
  root : t.root = refOf tr
  sound : t.storage.Sound
  logged : Logged t.storage tr
  fits : Fits tr maxPathLen

theorem represents_empty : empty.Represents .empty :=
  ⟨rfl, Storage.sound_empty, trivial, trivial⟩

variable {t : MerklePatriciaTrie} {tr : NodeTree}

theorem Represents.root_eq_nil_iff (h : t.Represents tr) : t.root = [] ↔ tr.isEmpty = true := by
  rw [h.root, refOf_eq_nil_iff, Tree.isEmpty_iff]

theorem Represents.isEmpty_eq_false (h : t.Represents tr) (hroot : t.root ≠ []) :
    tr.isEmpty = false := by
  rw [Ne, h.root_eq_nil_iff] at hroot
  exact Bool.eq_false_iff.mpr hroot

theorem Represents.root_ne_nil (h : t.Represents tr) (hne : tr.isEmpty = false) :
    t.root ≠ [] := by
  rw [Ne, h.root_eq_nil_iff, hne]
  exact Bool.false_ne_true

variable (ssz) in
/-- `get` reads the tree. -/
theorem Represents.get_eq (h : t.Represents tr) (key : Bytes) :
    t.get ssz key = if tr.isEmpty then .error .notInitialized
      else match tr.read (pathFromKey key).nibbles with
        | some value => .ok value
        | none => .error .keyNotFound := by
  unfold get
  cases hne : tr.isEmpty with
  | true => rw [if_pos (h.root_eq_nil_iff.mpr hne)]; rfl
  | false =>
    have hget := getNode_eq ssz (by decide) h.fits hne (h.sound.holds h.logged)
      (small_pathFromKey key) (lt_walkFuel key)
    rw [if_neg (h.root_ne_nil hne), h.root]
    simp only [hget]
    cases tr.read (pathFromKey key).nibbles <;> rfl

theorem Represents.get_of_read (h : t.Represents tr) {key value : Bytes}
    (hr : tr.read (pathFromKey key).nibbles = some value) : t.get ssz key = .ok value := by
  rw [h.get_eq ssz, hr]
  cases tr with
  | empty => cases hr
  | _ => rfl

theorem Represents.read_of_get (h : t.Represents tr) {key value : Bytes}
    (hg : t.get ssz key = .ok value) : tr.read (pathFromKey key).nibbles = some value := by
  rw [h.get_eq ssz] at hg
  split at hg
  · cases hg
  · split at hg
    · next hr => rw [hr]; cases hg; rfl
    · cases hg

variable (ssz) in
/-- `set` returns normally and inserts into the tree. -/
theorem Represents.set_eq (h : t.Represents tr) (key : Bytes) {value : Bytes}
    (hv : value.length ≤ maxValueLen) :
    ∃ t', t.set ssz key value = .ok () t' ∧
      (NoCollision t'.storage.stored →
        t'.Represents (tr.insert (pathFromKey key).nibbles value)) := by
  obtain ⟨s', hs', hg, hl⟩ := setNode_builds ssz (by decide) h.fits h.sound h.logged
    (length_pathFromKey key) hv (lt_walkFuel key)
  refine ⟨⟨_, s'⟩, ?_, fun hnc => ⟨rfl, hg.sound h.sound hnc, hl, ?_⟩⟩
  · simp only [set, h.root, hs']
  · refine Tree.wf_insert ?_ h.fits (length_pathFromKey key) hv
    exact Nat.zero_le _

/-- `remove` on the state, by what `erase` answers on the tree. -/
def Removes (ssz : SszLib) (t : MerklePatriciaTrie) (junk : UInt8) (key : Bytes) :
    Except Error Erased → Prop
  | .error e => t.remove ssz junk key = .error e t
  | .ok .deleted => t.remove ssz junk key = .error .emptyOptional ⟨[], t.storage⟩
  | .ok (.updated tr') => ∃ t', t.remove ssz junk key = .ok () t' ∧ t'.root = refOf tr' ∧
      (NoCollision t'.storage.stored → t'.Represents tr')
  | .ok (.useless _) => ∃ s', t.remove ssz junk key = .error .removeError ⟨t.root, s'⟩

variable (ssz) in
theorem Represents.remove_eq (h : t.Represents tr) (hne : tr.isEmpty = false) (junk : UInt8)
    (key : Bytes) :
    t.Removes ssz junk key (erase (junkSlot junk) tr (pathFromKey key).nibbles) := by
  have hroot : ¬ t.root = [] := h.root_ne_nil hne
  have hr := deleteNode_reports ssz (by decide) h.fits hne h.sound h.logged (small_pathFromKey key)
    junk (lt_walkFuel key)
  rw [← h.root] at hr
  rcases he : erase (junkSlot junk) tr (pathFromKey key).nibbles with e | (_ | tr' | tr') <;>
    rw [he] at hr
  · simp only [Reports] at hr
    simp only [Removes, remove, if_neg hroot, hr]
  · simp only [Reports] at hr
    simp only [Removes, remove, if_neg hroot, hr, if_true]
  · obtain ⟨s', hs', hg, hl⟩ := hr
    refine ⟨⟨refOf tr', s'⟩, ?_, rfl, fun hnc => ⟨rfl, hg.sound h.sound hnc, hl, ?_⟩⟩
    · simp only [remove, if_neg hroot, hs', DeleteResult.updated]
    · exact (erase_ok h.fits he).1
  · obtain ⟨s', p, hs', -⟩ := hr
    exact ⟨s', by simp only [remove, if_neg hroot, hs']⟩

/-- A normal return of `remove` on a non-empty trie is an update. -/
theorem Represents.remove_ok (h : t.Represents tr) (hne : tr.isEmpty = false) {junk : UInt8}
    {key : Bytes} {t' : MerklePatriciaTrie} (ht' : t.remove ssz junk key = .ok () t') :
    ∃ tr', erase (junkSlot junk) tr (pathFromKey key).nibbles = .ok (.updated tr') ∧
      t'.root = refOf tr' ∧ (NoCollision t'.storage.stored → t'.Represents tr') := by
  have hr := h.remove_eq ssz hne junk key
  rcases he : erase (junkSlot junk) tr (pathFromKey key).nibbles with e | (_ | tr' | tr') <;>
    rw [he] at hr
  · rw [Removes, ht'] at hr
    cases hr
  · rw [Removes, ht'] at hr
    cases hr
  · obtain ⟨t'', h1, h2, h3⟩ := hr
    rw [ht'] at h1
    cases h1
    exact ⟨tr', rfl, h2, h3⟩
  · obtain ⟨s', h1⟩ := hr
    rw [ht'] at h1
    cases h1

/-- The three ways in which `remove` does not return normally. -/
theorem Represents.remove_error (h : t.Represents tr) (hne : tr.isEmpty = false) {junk : UInt8}
    {key : Bytes} {e : Error} {t' : MerklePatriciaTrie}
    (ht' : t.remove ssz junk key = .error e t') :
    (erase (junkSlot junk) tr (pathFromKey key).nibbles = .error e ∧ t' = t) ∨
      (erase (junkSlot junk) tr (pathFromKey key).nibbles = .ok .deleted ∧
        e = .emptyOptional ∧ t'.root = []) ∨
      ∃ tr', erase (junkSlot junk) tr (pathFromKey key).nibbles = .ok (.useless tr') ∧
        e = .removeError ∧ t'.root = t.root := by
  have hr := h.remove_eq ssz hne junk key
  rcases he : erase (junkSlot junk) tr (pathFromKey key).nibbles with e' | (_ | tr' | tr') <;>
    rw [he] at hr
  · rw [Removes, ht'] at hr
    cases hr
    exact .inl ⟨rfl, rfl⟩
  · rw [Removes, ht'] at hr
    cases hr
    exact .inr (.inl ⟨rfl, rfl, rfl⟩)
  · obtain ⟨t'', h1, -⟩ := hr
    rw [ht'] at h1
    cases h1
  · obtain ⟨s', h1⟩ := hr
    rw [ht'] at h1
    cases h1
    exact .inr (.inr ⟨tr', rfl, rfl, rfl⟩)

/-- On the empty trie `remove` does nothing. -/
theorem Represents.remove_empty (h : t.Represents tr) (he : tr.isEmpty = true) (junk : UInt8)
    (key : Bytes) : t.remove ssz junk key = .ok () t := by
  unfold remove
  rw [if_pos (h.root_eq_nil_iff.mpr he)]

end MerklePatriciaTrie

/-! ## Every state of a run represents a tree -/

/-- Every value set satisfies `P`. -/
def SetValues (P : Bytes → Prop) (ops : List Op) : Prop := ∀ key value, Op.set key value ∈ ops → P value

/-- **Every reachable state represents a tree.** -/
theorem Run.represents {P : Bytes → Prop} {ops : List Op} {t : MerklePatriciaTrie}
    (h : Run ssz ops t) (hP : SetValues P ops) (hnc : NoCollision t.storage.stored) :
    ∃ tr, t.Represents tr ∧ Tree.Leaves P tr := by
  induction h with
  | empty => exact ⟨.empty, MerklePatriciaTrie.represents_empty, trivial⟩
  | @set ops t value key h hv ih =>
    have hg := t.set_grows ssz key value
    obtain ⟨tr, hrep, hl⟩ := ih (fun k v hm => hP k v (List.mem_cons_of_mem _ hm))
      (hnc.mono hg.subset)
    obtain ⟨t', ht', hrep'⟩ := hrep.set_eq ssz key hv
    rw [ht'] at hnc ⊢
    exact ⟨_, hrep' hnc, Tree.leaves_insert hl _ (hP key value List.mem_cons_self)⟩
  | @remove ops t t' key junk h hr ih =>
    have hg := MerklePatriciaTrie.remove_ok_grows hr
    obtain ⟨tr, hrep, hl⟩ := ih (fun k v hm => hP k v (List.mem_cons_of_mem _ hm))
      (hnc.mono hg.subset)
    cases hne : tr.isEmpty with
    | true =>
      rw [hrep.remove_empty hne] at hr
      cases hr
      exact ⟨tr, hrep, hl⟩
    | false =>
      obtain ⟨tr', he, -, hrep'⟩ := hrep.remove_ok hne hr
      exact ⟨tr', hrep' hnc, leaves_erase hl he⟩

theorem Run.exists_represents {ops : List Op} {t : MerklePatriciaTrie} (h : Run ssz ops t)
    (hnc : NoCollision t.storage.stored) : ∃ tr, t.Represents tr := by
  have hP : SetValues (fun _ => True) ops := by
    intro key value hm
    trivial
  obtain ⟨tr, hrep, -⟩ := h.represents hP hnc
  exact ⟨tr, hrep⟩

/-! ## Set, then get -/

/-- **A set key is found, and every other key keeps its value.** -/
theorem get_after_set {ops : List Op} {t : MerklePatriciaTrie} (h : Run ssz ops t)
    (key : Bytes) {value : Bytes} (hv : value.length ≤ maxValueLen)
    (hnc : NoCollision (stateAfter (t.set ssz key value)).storage.stored) :
    ∃ t', t.set ssz key value = .ok () t' ∧ t'.get ssz key = .ok value ∧
      ∀ key' w, pathFromKey key' ≠ pathFromKey key → t.get ssz key' = .ok w →
        t'.get ssz key' = .ok w := by
  have hg := t.set_grows ssz key value
  obtain ⟨tr, hrep⟩ := h.exists_represents (hnc.mono hg.subset)
  obtain ⟨t', ht', hrep'⟩ := hrep.set_eq ssz key hv
  rw [ht'] at hnc
  have hrep' := hrep' hnc
  refine ⟨t', ht', hrep'.get_of_read (Tree.read_insert_self _ _ _), ?_⟩
  intro key' w hne hget
  have hpath : (pathFromKey key').nibbles ≠ (pathFromKey key).nibbles := by
    intro hn
    exact hne (pathFromKey_inj hn)
  apply hrep'.get_of_read
  exact Tree.read_insert_ne value hpath (hrep.read_of_get hget)

/-- Two keys, one of them removed, then set again. -/
def setRemoved : Execution where
  ops := [.remove [0x22] 0, .set [0x34] [2], .set [0x22] [1]]
  call := .set [0x22] [7]
  key := [0x22]
  before := .error .keyNotFound
  after := .ok [7]
  checked := by decide +kernel

theorem get_after_set_removed :
    let t := exec .standard [.remove [0x22] 0, .set [0x34] [2], .set [0x22] [1]]
    ∃ t', t.set .standard [0x22] [7] = .ok () t' ∧ t'.get .standard [0x22] = .ok [7] ∧
      ∀ key' w, pathFromKey key' ≠ pathFromKey [0x22] → t.get .standard key' = .ok w →
        t'.get .standard key' = .ok w :=
  get_after_set setRemoved.run_ops _ (by decide) setRemoved.noCollision

end Core.Mpt
