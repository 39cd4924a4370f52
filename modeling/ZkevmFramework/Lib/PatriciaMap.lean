import ZkevmFramework.Lib.PatriciaInsert

/-!
# Mapping the values of a Patricia tree

No operation looks into the values beyond `∅`: mapping the values before an
insertion or a walk is mapping them after it (`map_insert`, `find_map`).
-/

namespace Patricia

namespace Tree

variable {κ α β : Type}

def map (f : α → β) : Tree κ α → Tree κ β
  | .empty => .empty
  | .leaf p v => .leaf p (f v)
  | .ext p c => .ext p (map f c)
  | .branch cs v => .branch (fun i => map f (cs i)) (f v)

variable (f : α → β)

@[simp] theorem isEmpty_map (t : Tree κ α) : (map f t).isEmpty = t.isEmpty := by
  cases t <;> rfl

@[simp] theorem isBranch_map (t : Tree κ α) : (map f t).isBranch = t.isBranch := by
  cases t <;> rfl

theorem map_wrap (c : List κ) (t : Tree κ α) : map f (wrap c t) = wrap c (map f t) := by
  cases c <;> rfl

variable [DecidableEq κ]

theorem map_update (cs : κ → Tree κ α) (a : κ) (t : Tree κ α) :
    (fun i => map f (Function.update cs a t i)) =
      Function.update (fun i => map f (cs i)) a (map f t) := by
  funext i
  by_cases h : i = a
  · subst h
    rw [Function.update_self, Function.update_self]
  · rw [Function.update_of_ne h, Function.update_of_ne h]

theorem map_setLeaf (cs : κ → Tree κ α) (q : List κ) (v : α) :
    (fun i => map f (setLeaf cs q v i)) = setLeaf (fun i => map f (cs i)) q (f v) := by
  cases q with
  | nil => rfl
  | cons a q => exact map_update f cs a _

theorem map_setExt (cs : κ → Tree κ α) (p : List κ) (t : Tree κ α) :
    (fun i => map f (setExt cs p t i)) = setExt (fun i => map f (cs i)) p (map f t) := by
  cases p with
  | nil => rfl
  | cons a p =>
    rw [setExt, map_update, map_wrap]
    rfl

variable [EmptyCollection α] [EmptyCollection β] {f}

theorem map_forkLeaf (hf : f ∅ = ∅) (q : List κ) (v : α) (p : List κ) (w : α) :
    map f (forkLeaf q v p w) = forkLeaf q (f v) p (f w) := by
  rw [forkLeaf, map, map_setLeaf, map_setLeaf, forkLeaf, apply_ite f, apply_ite f, hf]
  rfl

theorem map_forkExt (hf : f ∅ = ∅) (q : List κ) (v : α) (p : List κ) (t : Tree κ α) :
    map f (forkExt q v p t) = forkExt q (f v) p (map f t) := by
  rw [forkExt, map, map_setExt, map_setLeaf, forkExt, apply_ite f, hf]
  rfl

/-- **Insertion is natural in the values.** -/
theorem map_insert (hf : f ∅ = ∅) (t : Tree κ α) (q : List κ) (v : α) :
    map f (insert t q v) = insert (map f t) q (f v) := by
  induction t generalizing q with
  | empty => rfl
  | leaf p w =>
    simp only [insert, map]
    split
    · rfl
    · rw [map_wrap, map_forkLeaf hf]
  | ext p c ih =>
    simp only [insert, map]
    split
    · rw [map, ih]
    · rw [map_wrap, map_forkExt hf]
  | branch cs w ih =>
    cases q with
    | nil => rfl
    | cons a q =>
      rw [insert, map, map_update, ih]
      rfl

omit [EmptyCollection α] [EmptyCollection β] in
/-- **So is a lookup.** -/
theorem read_map (t : Tree κ α) (q : List κ) : read (map f t) q = (read t q).map f := by
  unfold read
  induction t generalizing q with
  | empty => rfl
  | leaf p v =>
    simp only [map, find]
    split <;> rfl
  | ext p c ih =>
    simp only [map, find]
    split
    · exact ih _
    · rfl
  | branch cs v ih =>
    cases q with
    | nil => rfl
    | cons a q => exact ih a q

end Tree

end Patricia
