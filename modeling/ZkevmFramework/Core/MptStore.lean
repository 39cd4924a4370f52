import ZkevmFramework.Core.MptCommit

/-!
# The node store

`nodes_` is written by `PutToStorage` alone, so it is what the long encodings
stored so far leave behind (`Storage.Grows.replays`).  A write replaces an entry
by a different one exactly when two of these encodings have the same hash
(`neverReplaces_iff`); until then the store only grows and every reference leads
to the encoding it was handed out for.
-/

namespace Core.Mpt

variable {ssz : SszLib}

/-! ## Replaying the writes -/

/-- The storage after storing the encodings, latest first. -/
def Storage.ofStored : List Bytes → Storage
  | [] => .empty
  | e :: l => (ofStored l).put e

/-- Storing `encoded` replaces an entry by a different one. -/
def Storage.Replaces (s : Storage) (encoded : Bytes) : Prop :=
  ∃ old ∈ s.nodes (basicHash encoded), old ≠ encoded

instance (s : Storage) (encoded : Bytes) : Decidable (s.Replaces encoded) :=
  inferInstanceAs (Decidable (∃ old ∈ s.nodes (basicHash encoded), old ≠ encoded))

/-- No write of the sequence, latest first, replaces an entry by a different one. -/
def NeverReplaces : List Bytes → Prop
  | [] => True
  | e :: l => ¬ (Storage.ofStored l).Replaces e ∧ NeverReplaces l

@[simp] theorem Storage.stored_ofStored (l : List Bytes) : (ofStored l).stored = l := by
  induction l with
  | nil => rfl
  | cons e l ih => rw [ofStored, put, ih]

theorem Storage.Grows.replays {s s' : Storage} (h : s.Grows s') (hs : s = .ofStored s.stored) :
    s' = .ofStored s'.stored := by
  induction h with
  | refl => exact hs
  | @put s' e _ ih =>
    show s'.put e = (ofStored s'.stored).put e
    rw [← ih]

theorem Storage.Grows.suffix {s s' : Storage} (h : s.Grows s') : s.stored <:+ s'.stored := by
  induction h with
  | refl => exact List.suffix_rfl
  | put e _ ih => exact ih.trans (List.suffix_cons e _)

theorem Storage.grows_ofStored (l : List Bytes) : Storage.empty.Grows (ofStored l) := by
  induction l with
  | nil => exact .refl
  | cons e l ih => exact .put e ih

theorem Storage.sound_ofStored {l : List Bytes} (h : NoCollision l) : (ofStored l).Sound := by
  apply (grows_ofStored l).sound sound_empty
  rwa [stored_ofStored]

/-- An entry is what was stored last under its hash. -/
theorem Storage.ofStored_nodes (l : List Bytes) (ref : Reference) :
    (ofStored l).nodes ref = l.find? fun e => basicHash e = ref := by
  induction l with
  | nil => rfl
  | cons e l ih =>
    show Function.update (ofStored l).nodes (basicHash e) (some e) ref = _
    by_cases hr : basicHash e = ref
    · rw [List.find?_cons_of_pos (by simpa using hr), ← hr, Function.update_self]
    · rw [List.find?_cons_of_neg (by simpa using hr), Function.update_of_ne (Ne.symm hr), ih]

theorem Storage.nodes_ofStored {l : List Bytes} {ref : Reference} {e : Bytes}
    (h : (ofStored l).nodes ref = some e) : e ∈ l ∧ basicHash e = ref := by
  rw [ofStored_nodes] at h
  exact ⟨List.mem_of_find?_eq_some h, by simpa using List.find?_some h⟩

/-- **A write replaces a different entry exactly when two encodings collide.** -/
theorem neverReplaces_iff (l : List Bytes) : NeverReplaces l ↔ NoCollision l := by
  constructor
  · intro h
    induction l with
    | nil => intro a ha; cases ha
    | cons e l ih =>
      obtain ⟨he, hl⟩ := h
      have hnc := ih hl
      -- a colliding encoding stored before is the one that `e` would replace
      have hnew : ∀ a ∈ l, basicHash a = basicHash e → a = e := by
        intro a ha hae
        have hres := Storage.sound_ofStored hnc a (by rwa [Storage.stored_ofStored])
        rw [hae] at hres
        by_contra hne
        exact he ⟨a, hres, hne⟩
      intro a ha b hb hab
      rcases List.mem_cons.mp ha with rfl | ha
      · rcases List.mem_cons.mp hb with rfl | hb
        · rfl
        · exact (hnew b hb hab.symm).symm
      · rcases List.mem_cons.mp hb with rfl | hb
        · exact hnew a ‹_› hab
        · exact hnc a ha b hb hab
  · intro h
    induction l with
    | nil => trivial
    | cons e l ih =>
      refine ⟨?_, ih (h.mono (List.subset_cons_self e l))⟩
      rintro ⟨old, hold, hne⟩
      obtain ⟨hmem, hhash⟩ := Storage.nodes_ofStored hold
      exact hne (h old (List.mem_cons_of_mem e hmem) e List.mem_cons_self hhash)

instance (l : List Bytes) : Decidable (NeverReplaces l) :=
  decidable_of_iff _ (neverReplaces_iff l).symm

/-! ## Runs of `set` calls -/

theorem exec_set_grows (writes : List (Bytes × Bytes)) (key value : Bytes) :
    (exec ssz (sets writes)).storage.Grows (exec ssz (sets ((key, value) :: writes))).storage :=
  MerklePatriciaTrie.set_grows ssz _ key value

theorem exec_sets_replays (writes : List (Bytes × Bytes)) :
    (exec ssz (sets writes)).storage = .ofStored (exec ssz (sets writes)).storage.stored := by
  induction writes with
  | nil => rfl
  | cons w ws ih => exact (exec_set_grows ws w.1 w.2).replays ih

variable (ssz) in
/-- **The node store over any sequence of `set` calls and one more.** -/
theorem store_append_only (writes : List (Bytes × Bytes)) (key value : Bytes) :
    let s := (exec ssz (sets writes)).storage
    let s' := (exec ssz (sets ((key, value) :: writes))).storage
    (s.stored <:+ s'.stored ∧ s' = .ofStored s'.stored) ∧
      (NeverReplaces s'.stored ↔ NoCollision s'.stored) ∧
      (NoCollision s'.stored →
        (∀ ref old, s.nodes ref = some old → s'.nodes ref = some old) ∧
        ∀ e, (32 ≤ e.length → e ∈ s'.stored) →
          getFromStorage ssz s' (mkRef e) = decodeNode ssz e) := by
  intro s s'
  have hsuffix : s.stored <:+ s'.stored := (exec_set_grows writes key value).suffix
  have hreplay : s' = .ofStored s'.stored := exec_sets_replays ((key, value) :: writes)
  refine ⟨⟨hsuffix, hreplay⟩, neverReplaces_iff _, ?_⟩
  intro hnc
  have hsound : s'.Sound := by
    rw [hreplay]
    exact Storage.sound_ofStored hnc
  constructor
  · intro ref old hold
    have hs : s = .ofStored s.stored := exec_sets_replays writes
    rw [hs] at hold
    obtain ⟨hmem, rfl⟩ := Storage.nodes_ofStored hold
    exact hsound old (hsuffix.subset hmem)
  · intro e he
    apply getFromStorage_mkRef
    intro hl
    exact hsound e (he hl)

/-- Two leaves with the same path and long values that fold to the same bytes:
the one stored second replaces the other, whose reference now leads to it. -/
theorem store_replaces_leaf :
    let v : Bytes := 1 :: List.replicate 64 0
    let v' : Bytes := List.replicate 64 0 ++ [1]
    let writes := [([0x21], v'), ([0x11], v)]
    let s := (exec .standard (sets writes)).storage
    Run .standard (sets writes) (exec .standard (sets writes)) ∧ leafBytes [1] v' ∈ s.stored ∧
      s.nodes (basicHash (leafBytes [1] v')) = some (leafBytes [1] v) ∧
      leafBytes [1] v ≠ leafBytes [1] v' ∧ ¬ NeverReplaces s.stored := by
  refine ⟨run_exec (by decide +kernel), by decide +kernel, ?_, by decide +kernel,
    by decide +kernel⟩
  rw [exec_sets_replays, Storage.ofStored_nodes]
  decide +kernel

end Core.Mpt
