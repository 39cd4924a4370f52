import ZkevmFramework.Core.MptCommit

/-!
# `get` of a key that was never set

`get` answers the value of the branch at which a path ends, also when it is
empty and the branch is there only because other keys part behind it.  So an
absent key is reported unless two keys run on past it with different nibbles;
then its value is empty (`get_absent`).
-/

namespace Core.Mpt

open Nibble Patricia

variable {ssz : SszLib}

/-- The path of a written key runs on past `q` with the nibble `i`. -/
def RunsPast (writes : List (Bytes × Bytes)) (q : List (Fin 16)) (i : Fin 16) : Prop :=
  ∃ w ∈ writes, q ++ [i] <+: (pathFromKey w.1).nibbles

instance (writes : List (Bytes × Bytes)) (q : List (Fin 16)) (i : Fin 16) :
    Decidable (RunsPast writes q i) :=
  inferInstanceAs (Decidable (∃ w ∈ writes, q ++ [i] <+: (pathFromKey w.1).nibbles))

/-- Two written keys run on past `key` and part there. -/
def PartsAt (writes : List (Bytes × Bytes)) (key : Bytes) : Prop :=
  ∃ i j, i ≠ j ∧ RunsPast writes (pathFromKey key).nibbles i ∧
    RunsPast writes (pathFromKey key).nibbles j

instance (writes : List (Bytes × Bytes)) (key : Bytes) : Decidable (PartsAt writes key) :=
  inferInstanceAs (Decidable (∃ i j, i ≠ j ∧ RunsPast writes (pathFromKey key).nibbles i ∧
    RunsPast writes (pathFromKey key).nibbles j))

theorem Commits.runsPast_iff {writes : List (Bytes × Bytes)} {tr : NodeTree}
    (h : Commits writes tr) {q : List (Fin 16)} {i : Fin 16} :
    RunsPast writes q i ↔ ∃ r, tr.entry (q ++ i :: r) ≠ none := by
  constructor
  · rintro ⟨w, hw, r, hr⟩
    obtain ⟨v, hv⟩ := contents_of_mem (show (w.1, w.2) ∈ writes from hw)
    refine ⟨r, ?_⟩
    rw [h.entry, List.append_cons, hr, hv]
    exact Option.some_ne_none v
  · rintro ⟨r, hr⟩
    obtain ⟨v, hv⟩ := Option.ne_none_iff_exists'.mp hr
    rw [h.entry] at hv
    obtain ⟨w, hw, hpath⟩ := contents_some hv
    exact ⟨w, hw, r, by simp [hpath]⟩

theorem Commits.forksAt_iff {writes : List (Bytes × Bytes)} {tr : NodeTree}
    (h : Commits writes tr) (key : Bytes) :
    tr.ForksAt (pathFromKey key).nibbles ↔ PartsAt writes key := by
  unfold PartsAt
  simp only [h.runsPast_iff]
  exact Iff.rfl

/-- **`get` of a key whose path was never set.** -/
theorem get_absent {writes : List (Bytes × Bytes)} {t : MerklePatriciaTrie}
    (h : Run ssz (sets writes) t) (hne : writes ≠ []) (hv : ∀ w ∈ writes, w.2 ≠ [])
    (hnc : NoCollision t.storage.stored) {key : Bytes}
    (hfresh : ∀ w ∈ writes, pathFromKey w.1 ≠ pathFromKey key) :
    t.get ssz key = if PartsAt writes key then .ok [] else .error .keyNotFound := by
  obtain ⟨tr, hrep, hcom⟩ := h.commits hv hnc
  have htr := hcom.isEmpty_eq_false hne
  have hread := (hcom.canonical htr).read_absent (hcom.entry_eq_none hfresh)
  rw [hcom.forksAt_iff] at hread
  rw [hrep.get_eq ssz, htr]
  by_cases hp : PartsAt writes key
  · rw [if_pos hp, hread.1 hp]
    rfl
  · rw [if_neg hp, hread.2 hp]
    rfl

/-- **`get` reports an absent key exactly when no two keys part right behind it.** -/
theorem get_absent_throws_iff {writes : List (Bytes × Bytes)} {t : MerklePatriciaTrie}
    (h : Run ssz (sets writes) t) (hne : writes ≠ []) (hv : ∀ w ∈ writes, w.2 ≠ [])
    (hnc : NoCollision t.storage.stored) {key : Bytes}
    (hfresh : ∀ w ∈ writes, pathFromKey w.1 ≠ pathFromKey key) :
    t.get ssz key = .error .keyNotFound ↔ ¬ PartsAt writes key := by
  rw [get_absent h hne hv hnc hfresh]
  by_cases hp : PartsAt writes key
  · simp [hp]
  · simp [hp]

/-- Two keys below an extension, and one that parts from them inside it. -/
def partsInside : Execution where
  ops := [.set [0x11, 0x10] [1]]
  call := .set [0x11, 0x20] [2]
  key := [0x12]
  before := .error .keyNotFound
  after := .error .keyNotFound
  checked := by decide +kernel

/-- An absent key that parts from the stored ones inside an extension. -/
theorem get_absent_throws_inside :
    (exec .standard (sets [([0x11, 0x20], [2]), ([0x11, 0x10], [1])])).get .standard [0x12] =
        .error .keyNotFound ↔
      ¬ PartsAt [([0x11, 0x20], [2]), ([0x11, 0x10], [1])] [0x12] :=
  get_absent_throws_iff partsInside.run (by decide) (by decide) partsInside.noCollision
    (by decide +kernel)

/-- The second key makes the branch at which the empty key ends. -/
def endsAtBranch : Execution where
  ops := [.set [0x10] [1]]
  call := .set [0x20] [2]
  key := []
  before := .error .keyNotFound
  after := .ok []
  checked := by decide +kernel

/-- The empty key ends at the branch that parts two others. -/
theorem get_absent_answers :
    let writes := [([0x20], [2]), ([0x10], [1])]
    let t := exec .standard (sets writes)
    Run .standard (sets writes) t ∧ (∀ w ∈ writes, w.2 ≠ []) ∧ NoCollision t.storage.stored ∧
      (∀ w ∈ writes, pathFromKey w.1 ≠ pathFromKey []) ∧ t.get .standard [] = .ok [] :=
  ⟨endsAtBranch.run, by decide, endsAtBranch.noCollision, by decide +kernel,
    endsAtBranch.get_after⟩

end Core.Mpt
