import ZkevmFramework.Core.MptCalls
import ZkevmFramework.Lib.PatriciaMap

/-!
# Calls do not look into the values

Mapping the values of a tree by a function that keeps what is empty empty
commutes with a deletion (`map_erase`), hence with every call, and a run on the
mapped calls is the mapped run (`run_map_trees`).
-/

namespace Core.Mpt

open Nibble Patricia

variable {f : Bytes → Bytes}

theorem used_map (cs : Fin 16 → NodeTree) : used (fun i => (cs i).map f) = used cs := by
  simp [used]

theorem firstUsed_map (cs : Fin 16 → NodeTree) :
    firstUsed (fun i => (cs i).map f) = firstUsed cs := by
  simp [firstUsed]

theorem map_liftSlot (i : Fin 16) (t : NodeTree) :
    (liftSlot i t).map f = liftSlot i (t.map f) := by
  cases t <;> rfl

theorem map_graft (p : List (Fin 16)) (t : NodeTree) :
    (graft p t).map f = graft p (t.map f) := by
  cases t <;> rfl

def Erased.map (f : Bytes → Bytes) : Erased → Erased
  | .deleted => .deleted
  | .updated t => .updated (t.map f)
  | .useless t => .useless (t.map f)

/-- Only the empty value is mapped to the empty value. -/
def KeepsEmpty (f : Bytes → Bytes) : Prop := ∀ v, f v = [] ↔ v = []

theorem KeepsEmpty.map_nil (hf : KeepsEmpty f) : f [] = [] := (hf []).mpr rfl

theorem map_prune (hf : KeepsEmpty f) (cs : Fin 16 → NodeTree) (v : Bytes)
    (idx : Option (Fin 16)) :
    prune (fun i => (cs i).map f) (f v) idx = (prune cs v idx).map (Erased.map f) := by
  simp only [prune, used_map, firstUsed_map, hf v]
  split
  · rfl
  · split
    · rfl
    · split
      · cases firstUsed cs with
        | none => rfl
        | some i =>
          show Except.ok (Erased.useless _) = Except.ok (Erased.useless _)
          rw [map_liftSlot]
      · cases idx with
        | none => rfl
        | some i =>
          show Except.ok (Erased.updated (.branch _ _)) = Except.ok (Erased.updated (.branch _ _))
          rw [Tree.map_update]
          rfl

/-- **A deletion is natural in the values.** -/
theorem map_erase (hf : KeepsEmpty f) (junk : Option (Fin 16)) (t : NodeTree)
    (q : List (Fin 16)) : erase junk (t.map f) q = (erase junk t q).map (Erased.map f) := by
  induction t generalizing q with
  | empty => rfl
  | leaf p v =>
    simp only [Patricia.Tree.map, erase]
    split <;> rfl
  | ext p c ih =>
    simp only [Patricia.Tree.map, erase]
    split
    · rw [ih]
      rcases erase junk c (q.drop p.length) with e | (_ | t | t)
      · rfl
      · rfl
      · rfl
      · exact congrArg (fun t => Except.ok (Erased.updated t)) (map_graft p t).symm
    · rfl
  | branch cs v ih =>
    cases q with
    | nil =>
      simp only [Patricia.Tree.map, erase, hf v]
      split
      · rfl
      · have h := map_prune hf cs [] junk
        rwa [hf.map_nil] at h
    | cons i q =>
      have hupdate : ∀ t : NodeTree,
          (Tree.branch (Function.update cs i t) v).map f =
            .branch (Function.update (fun i => (cs i).map f) i (t.map f)) (f v) := by
        intro t
        rw [Patricia.Tree.map, Tree.map_update]
      simp only [Patricia.Tree.map, erase, Tree.isEmpty_map]
      split
      · rfl
      · rw [ih]
        rcases erase junk (cs i) q with e | (_ | t | t)
        · rfl
        · exact map_prune hf cs v (some i)
        · exact congrArg (fun t => Except.ok (Erased.updated t)) (hupdate t).symm
        · exact congrArg (fun t => Except.ok (Erased.updated t)) (hupdate t).symm

/-! ## Calls and runs -/

def Call.map (f : Bytes → Bytes) : Call → Call
  | .get key => .get key
  | .set key value => .set key (f value)
  | .remove key junk => .remove key junk

def Answer.map (f : Bytes → Bytes) (a : Answer) : Answer := Except.map (Option.map f) a

theorem map_callTree (hf : KeepsEmpty f) (c : Call) (tr : NodeTree) :
    callTree (c.map f) (tr.map f) = ((callTree c tr).1.map f, (callTree c tr).2.map f) := by
  cases c with
  | get key =>
    simp only [Call.map, callTree, Tree.isEmpty_map, Tree.read_map]
    split
    · rfl
    · cases tr.read (pathFromKey key).nibbles <;> rfl
  | set key value =>
    exact congrArg (Prod.mk _) (Tree.map_insert hf.map_nil tr _ value).symm
  | remove key junk =>
    have he := map_erase hf (junkSlot junk) tr (pathFromKey key).nibbles
    simp only [Call.map, callTree, Tree.isEmpty_map]
    split
    · rfl
    · rw [he]
      rcases erase (junkSlot junk) tr (pathFromKey key).nibbles with e | (_ | t | t) <;> rfl

theorem undefined_map (f : Bytes → Bytes) (a : Answer) : (a.map f).undefined = a.undefined := by
  rcases a with e | v
  · rfl
  · rfl

/-- **A run on mapped values is the mapped run.** -/
theorem run_map_trees (hf : KeepsEmpty f) (cs : List Call) (tr : NodeTree) :
    trees.run (cs.map (Call.map f)) (tr.map f) =
      ((trees.run cs tr).1.map (Answer.map f), (trees.run cs tr).2.map f) :=
  Machine.run_map (map_callTree hf) (undefined_map f) cs tr

end Core.Mpt
