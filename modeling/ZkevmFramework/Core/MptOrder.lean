import ZkevmFramework.Core.MptCalls
import ZkevmFramework.Lib.LastWrite
import ZkevmFramework.Lib.PatriciaLetters

/-!
# The order of `set` calls

From any state, also one that removals have left with branches of one slot or
no slot at all, two sequences of `set` calls that write the same last value
under each path lead to the same root (`set_order`), and a `set` leaves the
root as it is exactly when it writes what `get` answers (`set_root_eq_iff`).
-/

namespace Core.Mpt

open Nibble Patricia LastWrite

variable {ssz : SszLib}

def setCalls (writes : List (Bytes × Bytes)) : List Call := writes.map fun w => .set w.1 w.2

/-- The writes by path. -/
def pathWrites (writes : List (Bytes × Bytes)) : List (List (Fin 16) × Bytes) :=
  writes.map fun w => ((pathFromKey w.1).nibbles, w.2)

/-- The value written last under the path of the key. -/
def lastSet (writes : List (Bytes × Bytes)) (key : Bytes) : Option Bytes :=
  last (pathWrites writes) (pathFromKey key).nibbles

theorem overwrites_insert : Overwrites Tree.Shaped (Tree.insert (κ := Fin 16) (α := Bytes)) where
  keeps h q v := Tree.shaped_insert h q v
  same h q v w := Tree.insert_insert h q v w
  comm h _ _ hne v w := Tree.insert_comm h hne v w

theorem run_setCalls (writes : List (Bytes × Bytes)) (tr : NodeTree) :
    (trees.run (setCalls writes) tr).2 = replay Tree.insert (pathWrites writes) tr := by
  induction writes generalizing tr with
  | nil => rfl
  | cons w ws ih => exact ih _

/-- Only paths of keys that were written have a last value. -/
theorem exists_key_of_last {writes : List (Bytes × Bytes)} {q : List (Fin 16)} {v : Bytes}
    (h : last (pathWrites writes) q = some v) : ∃ key, q = (pathFromKey key).nibbles := by
  induction writes generalizing v with
  | nil => cases h
  | cons w ws ih =>
    rw [pathWrites, List.map_cons, last] at h
    cases hl : last (pathWrites ws) q with
    | some u => exact ih hl
    | none =>
      rw [← pathWrites, hl, Option.none_or] at h
      split at h
      · next hq => exact ⟨w.1, hq⟩
      · cases h

theorem last_congr {writes writes' : List (Bytes × Bytes)}
    (h : ∀ key, lastSet writes key = lastSet writes' key) (q : List (Fin 16)) :
    last (pathWrites writes) q = last (pathWrites writes') q := by
  cases hq : last (pathWrites writes) q with
  | some v =>
    obtain ⟨key, rfl⟩ := exists_key_of_last hq
    rw [← hq]
    exact h key
  | none =>
    cases hq' : last (pathWrites writes') q with
    | none => rfl
    | some v =>
      obtain ⟨key, rfl⟩ := exists_key_of_last hq'
      rw [← hq, ← hq']
      exact h key

/-- **Of `set` calls only the last value under each path counts**, in any state. -/
theorem set_order {cs : List Call} (hc : ∀ c ∈ cs, c.Fits) {writes writes' : List (Bytes × Bytes)}
    (hw : ∀ w ∈ writes ++ writes', w.2.length ≤ maxValueLen)
    (hlast : ∀ key, lastSet writes key = lastSet writes' key)
    (hnc : NoCollision ((trie ssz).run (setCalls writes) (reached ssz cs)).2.storage.stored)
    (hnc' : NoCollision ((trie ssz).run (setCalls writes') (reached ssz cs)).2.storage.stored) :
    ((trie ssz).run (setCalls writes) (reached ssz cs)).2.root =
      ((trie ssz).run (setCalls writes') (reached ssz cs)).2.root := by
  obtain ⟨hw, hw'⟩ := List.forall_mem_append.mp hw
  have hfits : ∀ ws : List (Bytes × Bytes), (∀ w ∈ ws, w.2.length ≤ maxValueLen) →
      ∀ c ∈ setCalls ws, c.Fits := by
    intro ws h c hmem
    obtain ⟨w, hw, rfl⟩ := List.mem_map.mp hmem
    exact h w hw
  have hrep := reached_represents hc (hnc.mono (run_grows ssz _ _).subset)
  obtain ⟨-, h⟩ := (simulates_trees ssz).run hrep (hfits _ hw) hnc
  obtain ⟨-, h'⟩ := (simulates_trees ssz).run hrep (hfits _ hw') hnc'
  rw [h.root, h'.root, run_setCalls, run_setCalls]
  rw [overwrites_insert.replay_congr hrep.fits.shaped (last_congr hlast)]

/-- Two keys over a branch that a removal has left with one slot. -/
theorem set_order_removed :
    let t := reached .standard [.set [0x11] [1], .set [0x22] [2], .remove [0x22] 0]
    ((trie .standard).run (setCalls [([0x11], [3]), ([0x12], [4]), ([0x11], [])]) t).2.root =
      ((trie .standard).run (setCalls [([0x11], []), ([0x12], [4])]) t).2.root := by
  have hlast : ∀ key, lastSet [([0x11], [3]), ([0x12], [4]), ([0x11], [])] key =
      lastSet [([0x11], []), ([0x12], [4])] key := by
    intro key
    have hne : (pathFromKey [0x11]).nibbles ≠ (pathFromKey [0x12]).nibbles := by decide +kernel
    simp only [lastSet, pathWrites, List.map_cons, List.map_nil, last]
    by_cases h : (pathFromKey key).nibbles = (pathFromKey [0x11]).nibbles
    · rw [h, if_neg hne]
      simp
    · rw [if_neg h, if_neg h]
      simp
  exact set_order (by decide) (by decide) hlast (by decide +kernel) (by decide +kernel)

/-- **When a `set` leaves the root as it is.** -/
theorem set_root_eq_iff {cs : List Call} (hc : ∀ c ∈ cs, c.Fits) (key : Bytes) {value : Bytes}
    (hv : value.length ≤ maxValueLen)
    (hnc : NoCollision (stateAfter ((reached ssz cs).set ssz key value)).storage.stored) :
    (stateAfter ((reached ssz cs).set ssz key value)).root = (reached ssz cs).root ↔
      (reached ssz cs).get ssz key = .ok value := by
  have hg := (reached ssz cs).set_grows ssz key value
  have hrep := reached_represents hc (hnc.mono hg.subset)
  obtain ⟨t', ht', hrep'⟩ := hrep.set_eq ssz key hv
  rw [ht'] at hnc hg ⊢
  have hrep' := hrep' hnc
  constructor
  · intro hroot
    -- over the storage at the end both roots stand for their trees
    have hsame := hrep'.eq_of_root (hrep.later hg hnc)
      (hnc.mono (List.append_subset.mpr ⟨List.Subset.refl _, List.Subset.refl _⟩)) hroot
    apply hrep.get_of_read
    rw [← hsame]
    exact Tree.read_insert_self _ _ _
  · intro hget
    have hread := hrep.read_of_get hget
    show t'.root = _
    rw [hrep'.root, hrep.root, Tree.insert_read hrep.fits.shaped hread]

theorem set_root_eq_same :
    (stateAfter ((reached .standard [.set [0x11] [1], .set [0x22] [2]]).set .standard [0x11]
        [1])).root = (reached .standard [.set [0x11] [1], .set [0x22] [2]]).root ↔
      (reached .standard [.set [0x11] [1], .set [0x22] [2]]).get .standard [0x11] = .ok [1] :=
  set_root_eq_iff (by decide) _ (by decide) (by decide +kernel)

end Core.Mpt
