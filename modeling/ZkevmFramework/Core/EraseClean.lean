import Mathlib.Data.Finset.Card
import Mathlib.Data.Fintype.Card
import ZkevmFramework.Core.EraseInsert

/-!
# Clean deletions

A deletion is clean when it leaves the canonical tree of the other entries.
`Clean` says on the tree when that is: the branch that loses a child keeps two
occupants, the branch that loses its value has one used slot, or the slot
`junk` names is empty.

    Canonical t → (entries of t' are those of t but q, and Canonical t' ↔ Clean junk t q)
                                                                      (erase_clean_iff)
-/

namespace Core.Mpt

open Patricia

/-! ## Counting occupants -/

theorem used_eq_card (cs : Fin 16 → NodeTree) :
    used cs = (Finset.univ.filter fun i => (cs i).isEmpty = false).card := by
  have h : ∀ i, (!(cs i).isEmpty) = decide ((cs i).isEmpty = false) := by
    intro i
    cases (cs i).isEmpty <;> rfl
  rw [used, List.countP_eq_length_filter]
  simp only [h]
  rfl

/-- Clearing a used slot leaves one fewer. -/
theorem used_clear {cs : Fin 16 → NodeTree} {i : Fin 16} (hi : (cs i).isEmpty = false) :
    used (Function.update cs i .empty) + 1 = used cs := by
  have hset : (Finset.univ.filter fun j => (Function.update cs i .empty j).isEmpty = false) =
      (Finset.univ.filter fun j => (cs j).isEmpty = false).erase i := by
    ext j
    by_cases hj : j = i
    · subst hj; simp
    · simp [hj]
  rw [used_eq_card, used_eq_card, hset]
  exact Finset.card_erase_add_one (by simpa using hi)

/-- A branch is crowded when it has two occupants. -/
theorem crowded_iff (cs : Fin 16 → NodeTree) (v : Bytes) :
    Tree.Crowded cs v ↔ 2 ≤ used cs ∨ (1 ≤ used cs ∧ v ≠ []) := by
  have htwo : (∃ i j, i ≠ j ∧ (cs i).isEmpty = false ∧ (cs j).isEmpty = false) ↔ 2 ≤ used cs := by
    rw [used_eq_card, Nat.succ_le_iff, Finset.one_lt_card]
    simp only [Finset.mem_filter, Finset.mem_univ, true_and]
    constructor
    · rintro ⟨i, j, hij, hi, hj⟩
      exact ⟨i, hi, j, hj, hij⟩
    · rintro ⟨i, hi, j, hj, hij⟩
      exact ⟨i, j, hij, hi, hj⟩
  have hone : (∃ i, (cs i).isEmpty = false) ↔ 1 ≤ used cs := by
    rw [used_eq_card, Nat.succ_le_iff, Finset.card_pos]
    simp [Finset.Nonempty]
  rw [Tree.Crowded, htwo, hone, and_comm]
  rfl

/-! ## Clean deletions -/

/-- The deletion of `q` leaves two occupants where a child goes, and clears no
slot in use where a value goes. -/
def Clean (junk : Option (Fin 16)) : NodeTree → List (Fin 16) → Prop
  | .ext p c, q => p <+: q ∧ Clean junk c (q.drop p.length)
  | .branch cs v, [] => v ≠ [] ∧ (used cs = 1 ∨ ∃ j, junk = some j ∧ (cs j).isEmpty = true)
  | .branch cs v, i :: q =>
    (Sole (cs i) q ∧ (3 ≤ used cs ∨ (2 ≤ used cs ∧ v ≠ []))) ∨ Clean junk (cs i) q
  | _, _ => False

instance decidableSole : (t : NodeTree) → (q : List (Fin 16)) → Decidable (Sole t q)
  | .empty, _ => inferInstanceAs (Decidable False)
  | .leaf p _, q => inferInstanceAs (Decidable (p = q))
  | .ext p c, q =>
    have := decidableSole c (q.drop p.length)
    inferInstanceAs (Decidable (p <+: q ∧ Sole c (q.drop p.length)))
  | .branch cs v, q => inferInstanceAs (Decidable (q = [] ∧ v ≠ [] ∧ used cs = 0))

instance decidableClean (junk : Option (Fin 16)) :
    (t : NodeTree) → (q : List (Fin 16)) → Decidable (Clean junk t q)
  | .empty, _ => inferInstanceAs (Decidable False)
  | .leaf _ _, _ => inferInstanceAs (Decidable False)
  | .ext p c, q =>
    have := decidableClean junk c (q.drop p.length)
    inferInstanceAs (Decidable (p <+: q ∧ Clean junk c (q.drop p.length)))
  | .branch cs v, [] => inferInstanceAs (Decidable (v ≠ [] ∧
      (used cs = 1 ∨ ∃ j, junk = some j ∧ (cs j).isEmpty = true)))
  | .branch cs v, i :: q =>
    have := decidableClean junk (cs i) q
    inferInstanceAs (Decidable ((Sole (cs i) q ∧ (3 ≤ used cs ∨ (2 ≤ used cs ∧ v ≠ []))) ∨
      Clean junk (cs i) q))

instance decidableCollapses : (t : NodeTree) → (q : List (Fin 16)) → Decidable (Collapses t q)
  | .empty, _ | .leaf _ _, _ | .ext _ _, _ => inferInstanceAs (Decidable False)
  | .branch cs v, [] => inferInstanceAs (Decidable (v ≠ [] ∧ used cs = 1))
  | .branch cs v, i :: q => inferInstanceAs (Decidable (Sole (cs i) q ∧ v = [] ∧ used cs = 1))

/-- What a clean deletion leaves of a tree. -/
structure Cleaned (t : NodeTree) (q : List (Fin 16)) (t' : NodeTree) : Prop where
  canonical : t'.Canonical
  entry : ∀ x, t'.entry x = if x = q then none else t.entry x

theorem Clean.isEmpty {junk : Option (Fin 16)} {t : NodeTree} {q : List (Fin 16)}
    (h : Clean junk t q) : t.isEmpty = false := by
  cases t with
  | empty => exact h.elim
  | _ => rfl

/-- A canonical tree does not resurrect what is deleted. -/
theorem not_resurrects {t : NodeTree} (ht : t.Canonical) (q : List (Fin 16)) :
    ¬ Resurrects t q := by
  induction t generalizing q with
  | empty => exact id
  | leaf p v => exact id
  | ext p c ih => exact fun h => ih ht.2.2 _ h.2
  | branch cs v ih =>
    cases q with
    | nil => exact id
    | cons i q =>
      rintro (⟨-, hv, hu⟩ | h)
      · exact Crowded.not_single ht.1 ⟨hv, hu⟩
      · cases hi : (cs i).isEmpty with
        | true =>
          rw [(Tree.isEmpty_iff _).mp hi] at h
          exact h
        | false => exact ih i (ht.2 i hi) q h

/-- Where nothing else lies below there is no crowded branch. -/
theorem Sole.not_loses {junk : Option (Fin 16)} {t : NodeTree} {q : List (Fin 16)}
    (h : Sole t q) : ¬ Loses junk t q := by
  induction t generalizing q with
  | empty => exact id
  | leaf p v => exact id
  | ext p c ih => exact fun hl => ih h.2 hl.2
  | branch cs v ih =>
    obtain ⟨rfl, -, h0⟩ := h
    intro hl
    have hu := hl.2.1
    omega

theorem Clean.not_loses {junk : Option (Fin 16)} {t : NodeTree} {q : List (Fin 16)}
    (h : Clean junk t q) : ¬ Loses junk t q := by
  induction t generalizing q with
  | empty => exact id
  | leaf p v => exact id
  | ext p c ih => exact fun hl => ih h.2 hl.2
  | branch cs v ih =>
    cases q with
    | nil =>
      rintro ⟨-, hu, j, rfl, hj⟩
      rcases h.2 with h1 | ⟨j', hj', hje⟩
      · omega
      · cases hj'
        rw [hj] at hje
        cases hje
    | cons i q =>
      rcases h with ⟨hs, -⟩ | h
      · exact hs.not_loses
      · exact ih i h

/-! ## Clean deletions leave a canonical tree -/

theorem canonical_liftSlot (i : Fin 16) {t : NodeTree} (ht : t.Canonical) :
    (liftSlot i t).Canonical := by
  cases t with
  | empty => exact ht.elim
  | leaf p v => exact ht
  | ext p c => exact ⟨by simp, ht.2⟩
  | branch cs v => exact ⟨by simp, rfl, ht⟩

theorem canonical_graft {p : List (Fin 16)} (hp : p ≠ []) {t : NodeTree} (hb : t.isBranch = false)
    (ht : t.Canonical) : (graft p t).Canonical := by
  cases t with
  | empty => exact ht.elim
  | leaf p' v => exact ht
  | ext p' c => exact ⟨by simp [hp], ht.2⟩
  | branch cs v => cases hb

/-- A branch is updated to a branch, and only a useless one to something else. -/
theorem isBranch_erase {junk : Option (Fin 16)} {cs : Fin 16 → NodeTree} {v : Bytes}
    {q : List (Fin 16)} {r : Erased} (h : erase junk (.branch cs v) q = .ok r) :
    r = .deleted ∨ (∃ t, r = .updated t ∧ t.isBranch = true) ∨
      ∃ t, r = .useless t ∧ t.isBranch = false := by
  cases q with
  | nil =>
    obtain ⟨-, ⟨-, rfl⟩ | ⟨i, -, -, rfl⟩ | ⟨j, -, -, rfl⟩⟩ := erase_value_cases h
    · exact .inl rfl
    · exact .inr (.inr ⟨_, rfl, isBranch_liftSlot _ _⟩)
    · exact .inr (.inl ⟨_, rfl, rfl⟩)
  | cons i q =>
    obtain ⟨-, ⟨-, -, -, rfl⟩ | ⟨-, r', -, rfl⟩⟩ := erase_child_cases h
    · exact .inr (.inr ⟨_, rfl, isBranch_liftSlot _ _⟩)
    · exact .inr (.inl ⟨_, rfl, rfl⟩)

theorem canonical_update {cs : Fin 16 → NodeTree} {v : Bytes}
    (hcs : ∀ i, (cs i).isEmpty = false → (cs i).Canonical) {i : Fin 16} {t : NodeTree}
    (ht : t.isEmpty = false → t.Canonical) (hcr : Tree.Crowded (Function.update cs i t) v) :
    (Tree.branch (Function.update cs i t) v).Canonical := by
  refine ⟨hcr, ?_⟩
  intro j hj
  by_cases hij : j = i
  · subst hij
    rw [Function.update_self] at hj ⊢
    exact ht hj
  · rw [Function.update_of_ne hij] at hj ⊢
    exact hcs j hj

theorem isEmpty_of_canonical {t : NodeTree} (ht : t.Canonical) : t.isEmpty = false := by
  cases t with
  | empty => exact ht.elim
  | _ => rfl

theorem Clean.erase {junk : Option (Fin 16)} {t : NodeTree} (ht : t.Canonical)
    {q : List (Fin 16)} (h : Clean junk t q) :
    ∃ r, Mpt.erase junk t q = .ok r ∧ r.tree.Canonical := by
  induction t generalizing q with
  | empty => exact h.elim
  | leaf p v => exact h.elim
  | ext p c ih =>
    obtain ⟨hp, hb, hc⟩ := ht
    obtain ⟨hpq, h⟩ := h
    obtain ⟨r, hr, hcan⟩ := ih hc h
    obtain ⟨cs, v, rfl⟩ := (Tree.isBranch_iff c).mp hb
    rcases isBranch_erase hr with rfl | ⟨t, rfl, ht⟩ | ⟨t, rfl, ht⟩
    · exact hcan.elim
    · exact ⟨.updated (.ext p t), by simp only [Mpt.erase, if_pos hpq, hr], hp, ht, hcan⟩
    · exact ⟨.updated (graft p t), by simp only [Mpt.erase, if_pos hpq, hr],
        canonical_graft hp ht hcan⟩
  | branch cs v ih =>
    obtain ⟨hcr, hcs⟩ := ht
    cases q with
    | nil =>
      obtain ⟨hv, hslot⟩ := h
      rw [Mpt.erase, if_neg hv]
      rcases used_cases cs with h0 | h1 | h2
      · rcases (crowded_iff cs v).mp hcr with hu | ⟨hu, -⟩ <;> omega
      · obtain ⟨i, hi, hne, -⟩ := prune_one h1 junk
        exact ⟨_, hi, canonical_liftSlot i (hcs i hne)⟩
      · obtain h1 | ⟨j, rfl, hj⟩ := hslot
        · omega
        · -- the slot cleared was empty before
          refine ⟨_, prune_many h2 _, ?_⟩
          rw [Erased.tree, ← (Tree.isEmpty_iff _).mp hj, Function.update_eq_self]
          exact ⟨(crowded_iff cs []).mpr (.inl h2), hcs⟩
    | cons i q =>
      rcases h with ⟨hs, hu⟩ | h
      · refine ⟨_, erase_crowded_sole junk hcr hs, canonical_update hcs (by simp) ?_⟩
        have hclear := used_clear hs.isEmpty
        rw [crowded_iff]
        rcases hu with hu | ⟨hu, hv⟩
        · exact .inl (by omega)
        · exact .inr ⟨by omega, hv⟩
      · have hi := h.isEmpty
        obtain ⟨r, hr, hcan⟩ := ih i (hcs i hi) h
        have hne := isEmpty_of_canonical hcan
        refine ⟨.updated (.branch (Function.update cs i r.tree) v), ?_,
          canonical_update hcs (fun _ => hcan) (hcr.update i hne)⟩
        rcases r with _ | t | t
        · exact hcan.elim
        · simp [Mpt.erase, hi, hr, Erased.tree]
        · simp [Mpt.erase, hi, hr, Erased.tree]

/-- **A clean deletion leaves the canonical tree of the other entries.** -/
theorem Clean.cleaned {junk : Option (Fin 16)} {t : NodeTree} (ht : t.Canonical)
    {q : List (Fin 16)} (h : Clean junk t q) :
    ∃ r, Mpt.erase junk t q = .ok r ∧ Cleaned t q r.tree := by
  obtain ⟨r, hr, hcan⟩ := h.erase ht
  refine ⟨r, hr, hcan, ?_⟩
  intro x
  by_cases hx : x = q
  · subst hx
    rw [if_pos rfl]
    exact (entry_erase_self hr).2 (not_resurrects ht x)
  · rw [if_neg hx]
    exact entry_erase_ne hr h.not_loses hx

/-! ## No other deletion does -/

theorem canonical_useless {junk : Option (Fin 16)} {t t' : NodeTree} (ht : t.Canonical)
    {q : List (Fin 16)} (h : erase junk t q = .ok (.useless t')) : t'.Canonical := by
  cases t with
  | empty => cases h
  | leaf p v =>
    simp only [erase] at h
    split at h <;> cases h
  | ext p c =>
    obtain ⟨-, r', -, ⟨-, hr⟩ | ⟨t, -, hr⟩ | ⟨t, -, hr⟩⟩ := erase_ext_cases h <;> cases hr
  | branch cs v =>
    cases q with
    | nil =>
      obtain ⟨-, ⟨-, hr⟩ | ⟨i, h1, hj, hr⟩ | ⟨j, -, -, hr⟩⟩ := erase_value_cases h
      · cases hr
      · cases hr
        obtain ⟨k, -, hk, -⟩ := used_eq_one h1
        have hki : k = i := by
          by_contra hki
          rw [hj k hki] at hk
          cases hk
        exact canonical_liftSlot i (ht.2 i (hki ▸ hk))
      · cases hr
    | cons i q =>
      obtain ⟨-, ⟨-, hv, hu, -⟩ | ⟨-, r', -, hr⟩⟩ := erase_child_cases h
      · exact absurd ⟨hv, hu⟩ (Crowded.not_single ht.1)
      · cases hr

/-- Only "deleted" leaves nothing. -/
theorem eq_deleted_of_isEmpty {junk : Option (Fin 16)} {t : NodeTree} {q : List (Fin 16)}
    {r : Erased} (hr : erase junk t q = .ok r) (he : r.tree.isEmpty = true) : r = .deleted := by
  cases t with
  | empty => cases hr
  | leaf p v =>
    simp only [erase] at hr
    split at hr <;> cases hr
    rfl
  | ext p c =>
    obtain ⟨-, r', -, ⟨-, rfl⟩ | ⟨t, -, rfl⟩ | ⟨t, -, rfl⟩⟩ := erase_ext_cases hr
    · rfl
    · cases he
    · rw [Erased.tree, isEmpty_graft] at he
      cases he
  | branch cs v =>
    cases q with
    | nil =>
      obtain ⟨-, ⟨-, rfl⟩ | ⟨i, -, -, rfl⟩ | ⟨j, -, -, rfl⟩⟩ := erase_value_cases hr
      · rfl
      · rw [Erased.tree, isEmpty_liftSlot] at he
        cases he
      · cases he
    | cons i q =>
      obtain ⟨-, ⟨-, -, -, rfl⟩ | ⟨-, r', -, rfl⟩⟩ := erase_child_cases hr
      · rw [Erased.tree, isEmpty_liftSlot] at he
        cases he
      · cases he

theorem clean_of_cleaned {junk : Option (Fin 16)} {t : NodeTree} (ht : t.Canonical)
    {q : List (Fin 16)} {r : Erased} (hr : erase junk t q = .ok r) (h : Cleaned t q r.tree) :
    Clean junk t q := by
  induction t generalizing q r with
  | empty => cases hr
  | leaf p v =>
    simp only [erase] at hr
    split at hr <;> cases hr
    exact h.canonical.elim
  | ext p c ih =>
    obtain ⟨hp, hb, hc⟩ := ht
    obtain ⟨hpq, r', hr', hent⟩ := entry_erase_ext hr
    refine ⟨hpq, ih hc hr' ⟨?_, ?_⟩⟩
    · obtain ⟨-, r'', hr'', ⟨rfl, rfl⟩ | ⟨t, rfl, rfl⟩ | ⟨t, rfl, rfl⟩⟩ := erase_ext_cases hr
      · exact h.canonical.elim
      · rw [hr'] at hr''
        cases hr''
        exact h.canonical.2.2
      · rw [hr'] at hr''
        cases hr''
        exact canonical_useless hc hr'
    · intro x
      have hx := h.entry (p ++ x)
      rw [hent, if_pos (List.prefix_append p x), List.drop_left, Tree.entry_ext_append] at hx
      rw [hx]
      obtain ⟨y, rfl⟩ := hpq
      simp
  | branch cs v ih =>
    obtain ⟨hcr, hcs⟩ := ht
    cases q with
    | nil =>
      obtain ⟨hv, ⟨h0, rfl⟩ | ⟨i, h1, -, rfl⟩ | ⟨j, h2, rfl, rfl⟩⟩ := erase_value_cases hr
      · exact h.canonical.elim
      · exact ⟨hv, .inl h1⟩
      · refine ⟨hv, .inr ⟨j, rfl, ?_⟩⟩
        by_contra hj
        obtain ⟨x, w, hx⟩ := (hcs j (by simpa using hj)).exists_entry
        have hlost := h.entry (j :: x)
        simp [Erased.tree, hx] at hlost
    | cons i q =>
      obtain ⟨r', hr', rfl⟩ := erase_crowded hcr hr
      have hi := (erase_child_cases hr).1
      cases hne : r'.tree.isEmpty with
      | true =>
        have hdel := eq_deleted_of_isEmpty hr' hne
        subst hdel
        refine .inl ⟨(erase_deleted_iff junk).mp hr', ?_⟩
        have hclear := used_clear hi
        rcases (crowded_iff _ v).mp h.canonical.1 with hu | ⟨hu, hv⟩ <;>
          simp only [Erased.tree] at hu
        · exact .inl (by omega)
        · exact .inr ⟨by omega, hv⟩
      | false =>
        refine .inr (ih i (hcs i hi) hr' ⟨?_, ?_⟩)
        · have := h.canonical.2 i
          simpa [Function.update_self, hne] using this
        · intro x
          have hx := h.entry (i :: x)
          simpa [Erased.tree] using hx

/-- **Which deletions leave the canonical tree of the other entries.** -/
theorem erase_clean_iff {junk : Option (Fin 16)} {t : NodeTree} (ht : t.Canonical)
    {q : List (Fin 16)} : (∃ r, erase junk t q = .ok r ∧ Cleaned t q r.tree) ↔ Clean junk t q := by
  constructor
  · rintro ⟨r, hr, h⟩
    exact clean_of_cleaned ht hr h
  · exact fun h => h.cleaned ht

end Core.Mpt
