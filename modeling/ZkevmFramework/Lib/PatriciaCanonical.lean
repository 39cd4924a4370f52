import ZkevmFramework.Lib.PatriciaInsert

/-!
# Canonical Patricia trees

A tree is canonical when no leaf holds `∅` and every branch has at least two
occupants (used slots, plus its value when that is not `∅`).  Insertion of
values other than `∅` keeps this, and the entries determine the tree:

    Canonical t → Canonical t' → (∀ q, entry t q = entry t' q) → t = t'   (canonical_unique)

A lookup of a key without an entry still answers `∅` where two entries part
right behind the key (`read_absent`).
-/

namespace Patricia

namespace Tree

variable {κ α : Type} [EmptyCollection α]

/-- Two used slots, or a value and a used slot. -/
def Crowded (cs : κ → Tree κ α) (v : α) : Prop :=
  (∃ i j, i ≠ j ∧ (cs i).isEmpty = false ∧ (cs j).isEmpty = false) ∨
    (v ≠ ∅ ∧ ∃ i, (cs i).isEmpty = false)

def Canonical : Tree κ α → Prop
  | .empty => False
  | .leaf _ v => v ≠ ∅
  | .ext p c => p ≠ [] ∧ c.isBranch ∧ Canonical c
  | .branch cs v => Crowded cs v ∧ ∀ i, (cs i).isEmpty = false → Canonical (cs i)

theorem Canonical.leaves {t : Tree κ α} (h : Canonical t) : Leaves (· ≠ ∅) t := by
  induction t with
  | empty => trivial
  | leaf p v => exact h
  | ext p c ih => exact ih h.2.2
  | branch cs v ih =>
    intro i
    cases hi : (cs i).isEmpty with
    | true => rw [(isEmpty_iff _).mp hi]; trivial
    | false => exact ih i (h.2 i hi)

theorem canonical_wrap {c : List κ} {t : Tree κ α} (hb : t.isBranch = true) (ht : Canonical t) :
    Canonical (wrap c t) := by
  cases c with
  | nil => exact ht
  | cons a c => exact ⟨by simp, hb, ht⟩

section Insert

variable [DecidableEq κ]

/-- The slots of a fork hold nothing but the two things hung into them. -/
theorem canonical_forkLeaf {q p : List κ} {v w : α} (hqp : Apart q p) (hne : p ≠ q) (hv : v ≠ ∅)
    (hw : w ≠ ∅) : Canonical (forkLeaf q v p w) := by
  cases q with
  | nil =>
    cases p with
    | nil => exact absurd rfl hne
    | cons j p =>
      refine ⟨Or.inr ⟨by simpa using hv, j, by simp [setLeaf]⟩, ?_⟩
      intro i hi
      by_cases hij : i = j
      · subst hij; simpa [setLeaf, Canonical] using hw
      · simp [setLeaf, hij] at hi
  | cons k q =>
    cases p with
    | nil =>
      refine ⟨Or.inr ⟨by simpa using hw, k, by simp [setLeaf]⟩, ?_⟩
      intro i hi
      by_cases hik : i = k
      · subst hik; simpa [setLeaf, Canonical] using hv
      · simp [setLeaf, hik] at hi
    | cons j p =>
      have hkj := hqp.ne_head
      refine ⟨Or.inl ⟨k, j, hkj, by simp [setLeaf, hkj], by simp [setLeaf]⟩, ?_⟩
      intro i hi
      by_cases hij : i = j
      · subst hij; simpa [setLeaf, Canonical] using hw
      · by_cases hik : i = k
        · subst hik; simpa [setLeaf, hij, Canonical] using hv
        · simp [setLeaf, hij, hik] at hi

theorem canonical_forkExt {q p : List κ} {v : α} {t : Tree κ α} (hqp : Apart q p) (hp : p ≠ [])
    (hv : v ≠ ∅) (hb : t.isBranch = true) (ht : Canonical t) : Canonical (forkExt q v p t) := by
  cases p with
  | nil => exact absurd rfl hp
  | cons j p =>
    have hwrap := canonical_wrap (c := p) hb ht
    have hwe : (wrap p t).isEmpty = false := by
      obtain ⟨cs, w, rfl⟩ := (isBranch_iff t).mp hb
      cases p <;> rfl
    cases q with
    | nil =>
      refine ⟨Or.inr ⟨by simpa using hv, j, by simpa [setExt] using hwe⟩, ?_⟩
      intro i hi
      by_cases hij : i = j
      · subst hij; simpa [setExt] using hwrap
      · simp [setExt, setLeaf, hij] at hi
    | cons k q =>
      have hkj := hqp.ne_head
      refine ⟨Or.inl ⟨k, j, hkj, by simp [setExt, setLeaf, hkj], by simpa [setExt] using hwe⟩,
        fun i hi => ?_⟩
      by_cases hij : i = j
      · subst hij; simpa [setExt] using hwrap
      · by_cases hik : i = k
        · subst hik; simpa [setExt, setLeaf, hij, Canonical] using hv
        · simp [setExt, setLeaf, hij, hik] at hi

theorem Crowded.update {cs : κ → Tree κ α} {v : α} (h : Crowded cs v) (i : κ) {t : Tree κ α}
    (ht : t.isEmpty = false) : Crowded (Function.update cs i t) v := by
  have hkeep : ∀ j, (cs j).isEmpty = false → (Function.update cs i t j).isEmpty = false := by
    intro j hj
    by_cases hij : j = i
    · subst hij; rwa [Function.update_self]
    · rwa [Function.update_of_ne hij]
  rcases h with ⟨j, k, hjk, hj, hk⟩ | ⟨hv, j, hj⟩
  · exact Or.inl ⟨j, k, hjk, hkeep j hj, hkeep k hk⟩
  · exact Or.inr ⟨hv, j, hkeep j hj⟩

/-- **Insertion keeps a tree canonical** (the tree may be empty before). -/
theorem canonical_insert {t : Tree κ α} (ht : t.isEmpty = false → Canonical t) (q : List κ) {v : α}
    (hv : v ≠ ∅) : Canonical (insert t q v) := by
  induction t generalizing q with
  | empty => exact hv
  | leaf p w =>
    have hw := ht rfl
    simp only [insert]
    split
    · exact hv
    · next hpq =>
      refine canonical_wrap rfl (canonical_forkLeaf (lcp_apart q p) ?_ hv hw)
      intro h
      have hp := lcp_append_drop_right q p
      rw [h, lcp_append_drop_left] at hp
      exact hpq hp.symm
  | ext p c ih =>
    obtain ⟨hp, hb, hc⟩ := ht rfl
    simp only [insert]
    split
    · exact ⟨hp, isBranch_insert hb _ _, ih (fun _ => hc) _⟩
    · next hpq =>
      have hne : p.drop (lcp q p).length ≠ [] := fun h => hpq ((drop_lcp_eq_nil_iff q p).mp h)
      exact canonical_wrap rfl (canonical_forkExt (lcp_apart q p) hne hv hb hc)
  | branch cs w ih =>
    obtain ⟨hcr, hcs⟩ := ht rfl
    cases q with
    | nil =>
      refine ⟨?_, hcs⟩
      rcases hcr with h | ⟨_, h⟩
      · exact Or.inl h
      · exact Or.inr ⟨hv, h⟩
    | cons i q =>
      refine ⟨hcr.update i (isEmpty_insert _ _ _), ?_⟩
      intro j hj
      by_cases hij : j = i
      · subst hij
        rw [Function.update_self]
        exact ih j (hcs j) q
      · rw [Function.update_of_ne hij] at hj ⊢
        exact hcs j hj

end Insert

/-! ## The entries determine the tree -/

section Unique

variable [DecidableEq κ] [DecidableEq α]

@[simp] theorem entry_empty (q : List κ) : entry (empty : Tree κ α) q = none := rfl

theorem entry_leaf (p q : List κ) (v : α) :
    entry (leaf p v) q = if p = q then some v else none := rfl

theorem entry_ext (p q : List κ) (c : Tree κ α) :
    entry (ext p c) q = if p <+: q then entry c (q.drop p.length) else none := rfl

@[simp] theorem entry_branch_nil (cs : κ → Tree κ α) (v : α) :
    entry (branch cs v) [] = if v = ∅ then none else some v := rfl

@[simp] theorem entry_branch_cons (cs : κ → Tree κ α) (v : α) (i : κ) (q : List κ) :
    entry (branch cs v) (i :: q) = entry (cs i) q := rfl

theorem entry_ext_append (p q : List κ) (c : Tree κ α) :
    entry (ext p c) (p ++ q) = entry c q := by
  rw [entry_ext, if_pos (List.prefix_append p q), List.drop_left]

/-- A canonical tree stores something. -/
theorem Canonical.exists_entry {t : Tree κ α} (h : Canonical t) : ∃ q v, entry t q = some v := by
  induction t with
  | empty => exact h.elim
  | leaf p v => exact ⟨p, v, by simp [entry_leaf]⟩
  | ext p c ih =>
    obtain ⟨q, v, hq⟩ := ih h.2.2
    exact ⟨p ++ q, v, (entry_ext_append p q c).trans hq⟩
  | branch cs v ih =>
    obtain ⟨i, hi⟩ : ∃ i, (cs i).isEmpty = false := by
      rcases h.1 with ⟨i, _, _, hi, _⟩ | ⟨_, i, hi⟩ <;> exact ⟨i, hi⟩
    obtain ⟨q, v, hq⟩ := ih i (h.2 i hi)
    exact ⟨i :: q, v, hq⟩

/-- Of two trees with the same entries none is empty alone. -/
theorem isEmpty_eq_of_entry {t t' : Tree κ α} (h : t.isEmpty = false → Canonical t)
    (h' : t'.isEmpty = false → Canonical t') (he : ∀ q, entry t q = entry t' q) :
    t.isEmpty = t'.isEmpty := by
  cases ht : t.isEmpty with
  | true =>
    cases ht' : t'.isEmpty with
    | true => rfl
    | false =>
      obtain ⟨q, v, hq⟩ := (h' ht').exists_entry
      rw [← he, (isEmpty_iff t).mp ht] at hq
      cases hq
  | false =>
    cases ht' : t'.isEmpty with
    | true =>
      obtain ⟨q, v, hq⟩ := (h ht).exists_entry
      rw [he, (isEmpty_iff t').mp ht'] at hq
      cases hq
    | false => rfl

/-- The keys of a canonical branch begin with no common letter. -/
theorem Canonical.two_keys {cs : κ → Tree κ α} {v : α} (h : Canonical (branch cs v)) :
    ∃ q q', entry (branch cs v) q ≠ none ∧ entry (branch cs v) q' ≠ none ∧ q ≠ q' ∧ Apart q q' := by
  rcases h.1 with ⟨i, j, hij, hi, hj⟩ | ⟨hv, i, hi⟩
  · obtain ⟨q, w, hq⟩ := (h.2 i hi).exists_entry
    obtain ⟨q', w', hq'⟩ := (h.2 j hj).exists_entry
    refine ⟨i :: q, j :: q', by simp [hq], by simp [hq'], by simp [hij], ?_⟩
    rintro a p p' hp hp'
    simp only [List.cons.injEq] at hp hp'
    exact hij (hp.1.trans hp'.1.symm)
  · obtain ⟨q, w, hq⟩ := (h.2 i hi).exists_entry
    exact ⟨[], i :: q, by simp [hv], by simp [hq], by simp, fun a p p' hp => by simp at hp⟩

/-- A leaf and a canonical branch never store the same. -/
theorem leaf_ne_branch {p : List κ} {v w : α} {cs : κ → Tree κ α} (h : Canonical (branch cs w))
    (he : ∀ q, entry (leaf p v) q = entry (branch cs w) q) : False := by
  obtain ⟨q, q', hq, hq', hne, -⟩ := h.two_keys
  rw [← he, entry_leaf] at hq hq'
  have h1 : p = q := by
    by_contra h
    simp [h] at hq
  have h2 : p = q' := by
    by_contra h
    simp [h] at hq'
  exact hne (h1.symm.trans h2)

/-- All keys below an extension begin with its path's first letter; those of a branch do not. -/
theorem ext_ne_branch {p : List κ} {c : Tree κ α} {w : α} {cs : κ → Tree κ α} (hp : p ≠ [])
    (h : Canonical (branch cs w)) (he : ∀ q, entry (ext p c) q = entry (branch cs w) q) :
    False := by
  obtain ⟨q, q', hq, hq', -, hap⟩ := h.two_keys
  rw [← he, entry_ext] at hq hq'
  have h1 : p <+: q := by
    by_contra h
    simp [h] at hq
  have h2 : p <+: q' := by
    by_contra h
    simp [h] at hq'
  cases p with
  | nil => exact hp rfl
  | cons a p =>
    obtain ⟨r, rfl⟩ := h1
    obtain ⟨r', rfl⟩ := h2
    exact hap a _ _ rfl rfl

theorem leaf_ne_ext {p p' : List κ} {v : α} {c : Tree κ α} (hb : c.isBranch = true)
    (hc : Canonical c) (he : ∀ q, entry (leaf p v) q = entry (ext p' c) q) : False := by
  obtain ⟨cs, w, rfl⟩ := (isBranch_iff c).mp hb
  have hpre : p' <+: p := by
    by_contra h
    have := he p
    simp [entry_leaf, entry_ext, h] at this
  obtain ⟨r, rfl⟩ := hpre
  apply leaf_ne_branch (p := r) (v := v) hc
  intro q
  rw [← entry_ext_append p' q (branch cs w), ← he, entry_leaf, entry_leaf]
  simp

/-- The path of a canonical extension is what all its keys share. -/
theorem ext_path_prefix {p p' : List κ} {c c' : Tree κ α} (hb : c.isBranch = true)
    (hc : Canonical c) (he : ∀ q, entry (ext p c) q = entry (ext p' c') q) : p' <+: p := by
  obtain ⟨cs, w, rfl⟩ := (isBranch_iff c).mp hb
  obtain ⟨q, q', hq, hq', -, hap⟩ := hc.two_keys
  have hpre : ∀ x, entry (branch cs w) x ≠ none → p' <+: p ++ x := by
    intro x hx
    by_contra h
    rw [← entry_ext_append p, he, entry_ext, if_neg h] at hx
    exact hx rfl
  have h1 := hpre q hq
  have h2 := hpre q' hq'
  rcases List.prefix_or_prefix_of_prefix h1 (List.prefix_append p q) with h | h
  · exact h
  · -- `p' = p ++ r`: then `r` begins both keys, so it is empty
    obtain ⟨r, rfl⟩ := h
    rw [List.prefix_append_right_inj] at h1 h2
    cases r with
    | nil => simp
    | cons a r =>
      obtain ⟨s, rfl⟩ := h1
      obtain ⟨s', rfl⟩ := h2
      exact absurd rfl (hap a _ _ rfl)

/-- **Canonical trees with the same entries are equal.** -/
theorem canonical_unique {t t' : Tree κ α} (h : Canonical t) (h' : Canonical t')
    (he : ∀ q, entry t q = entry t' q) : t = t' := by
  induction t generalizing t' with
  | empty => exact h.elim
  | leaf p v =>
    cases t' with
    | empty => exact h'.elim
    | leaf p' v' =>
      have := he p
      simp only [entry_leaf, if_true] at this
      split at this
      · next hp =>
        subst hp
        simpa using this
      · simp at this
    | ext p' c' => exact (leaf_ne_ext h'.2.1 h'.2.2 he).elim
    | branch cs' v' => exact (leaf_ne_branch h' he).elim
  | ext p c ih =>
    cases t' with
    | empty => exact h'.elim
    | leaf p' v' => exact (leaf_ne_ext h.2.1 h.2.2 (fun q => (he q).symm)).elim
    | ext p' c' =>
      have h1 := ext_path_prefix h.2.1 h.2.2 he
      have h2 := ext_path_prefix h'.2.1 h'.2.2 (fun q => (he q).symm)
      have hp : p = p' := h2.eq_of_length (le_antisymm h2.length_le h1.length_le)
      subst hp
      have hc : c = c' := by
        apply ih h.2.2 h'.2.2
        intro q
        rw [← entry_ext_append p q, ← entry_ext_append p q, he]
      rw [hc]
    | branch cs' v' => exact (ext_ne_branch h.1 h' he).elim
  | branch cs v ih =>
    cases t' with
    | empty => exact h'.elim
    | leaf p' v' => exact (leaf_ne_branch h (fun q => (he q).symm)).elim
    | ext p' c' => exact (ext_ne_branch h'.1 h (fun q => (he q).symm)).elim
    | branch cs' v' =>
      have hv : v = v' := by
        have := he []
        simp only [entry_branch_nil] at this
        split at this <;> split at this <;> simp_all
      have hcs : cs = cs' := by
        funext i
        have hei : ∀ q, entry (cs i) q = entry (cs' i) q := fun q => he (i :: q)
        have hemp := isEmpty_eq_of_entry (h.2 i) (h'.2 i) hei
        cases hi : (cs i).isEmpty with
        | true =>
          rw [hi] at hemp
          rw [(isEmpty_iff _).mp hi, (isEmpty_iff _).mp hemp.symm]
        | false =>
          rw [hi] at hemp
          exact ih i (h.2 i hi) (h'.2 i hemp.symm) hei
      rw [hv, hcs]

/-! ## Lookups that answer more than is stored -/

/-- Two entries run on past `q` with different letters. -/
def ForksAt (t : Tree κ α) (q : List κ) : Prop :=
  ∃ i j, i ≠ j ∧ (∃ r, entry t (q ++ i :: r) ≠ none) ∧ ∃ r, entry t (q ++ j :: r) ≠ none

/-- Past a proper prefix of its path an extension has one letter only. -/
theorem ext_letter {p q r : List κ} {c : Tree κ α} {i : κ} (hpq : ¬ p <+: q)
    (h : entry (ext p c) (q ++ i :: r) ≠ none) : q ++ [i] <+: p := by
  have hp : p <+: q ++ i :: r := by
    by_contra hp
    rw [entry_ext, if_neg hp] at h
    exact h rfl
  have hq : q ++ [i] <+: q ++ i :: r := ⟨r, by simp⟩
  rcases List.prefix_or_prefix_of_prefix hp hq with h' | h'
  · rcases List.prefix_concat_iff.mp h' with rfl | h'
    · exact List.prefix_rfl
    · exact absurd h' hpq
  · exact h'

theorem not_forksAt_leaf {p q : List κ} {v : α} : ¬ ForksAt (leaf p v) q := by
  rintro ⟨i, j, hij, ⟨r, hr⟩, r', hr'⟩
  have hkey : ∀ x, entry (leaf p v) x ≠ none → p = x := by
    intro x hx
    by_contra h
    rw [entry_leaf, if_neg h] at hx
    exact hx rfl
  have h := (hkey _ hr).symm.trans (hkey _ hr')
  simp only [List.append_cancel_left_eq, List.cons.injEq] at h
  exact hij h.1

theorem forksAt_ext_append {p q : List κ} {c : Tree κ α} :
    ForksAt (ext p c) (p ++ q) ↔ ForksAt c q := by
  unfold ForksAt
  simp only [List.append_assoc, entry_ext_append]

theorem not_forksAt_ext {p q : List κ} {c : Tree κ α} (hpq : ¬ p <+: q) :
    ¬ ForksAt (ext p c) q := by
  rintro ⟨i, j, hij, ⟨r, hr⟩, r', hr'⟩
  have hi := ext_letter hpq hr
  have hj := ext_letter hpq hr'
  have h := (List.prefix_of_prefix_length_le hi hj (by simp)).eq_of_length (by simp)
  rw [List.append_cancel_left_eq, List.singleton_inj] at h
  exact hij h

theorem forksAt_branch_cons {cs : κ → Tree κ α} {v : α} {i : κ} {q : List κ} :
    ForksAt (branch cs v) (i :: q) ↔ ForksAt (cs i) q := Iff.rfl

/-- A branch without a value forks: it is there for two keys. -/
theorem Canonical.forksAt_nil {cs : κ → Tree κ α} {v : α} (h : Canonical (branch cs v))
    (hv : v = ∅) : ForksAt (branch cs v) [] := by
  rcases h.1 with ⟨i, j, hij, hi, hj⟩ | ⟨hne, -⟩
  · obtain ⟨q, w, hq⟩ := (h.2 i hi).exists_entry
    obtain ⟨q', w', hq'⟩ := (h.2 j hj).exists_entry
    refine ⟨i, j, hij, ⟨q, ?_⟩, q', ?_⟩
    · show entry (cs i) q ≠ none
      simp [hq]
    · show entry (cs j) q' ≠ none
      simp [hq']
  · exact absurd hv hne

/-- **What a lookup of an absent key answers**: `∅` where two entries fork at the
end of the key, nothing elsewhere. -/
theorem Canonical.read_absent {t : Tree κ α} (ht : Canonical t) {q : List κ}
    (hq : entry t q = none) :
    (ForksAt t q → read t q = some ∅) ∧ (¬ ForksAt t q → read t q = none) := by
  unfold read
  induction t generalizing q with
  | empty => exact ht.elim
  | leaf p v => exact ⟨fun h => absurd h not_forksAt_leaf, fun _ => hq⟩
  | ext p c ih =>
    by_cases hpq : p <+: q
    · obtain ⟨q, rfl⟩ := hpq
      rw [entry_ext_append] at hq
      rw [forksAt_ext_append, find, if_pos (List.prefix_append p q), List.drop_left]
      exact ih ht.2.2 hq
    · rw [find, if_neg hpq]
      exact ⟨fun h => absurd h (not_forksAt_ext hpq), fun _ => rfl⟩
  | branch cs v ih =>
    cases q with
    | nil =>
      have hv : v = ∅ := by
        by_contra hv
        rw [entry_branch_nil, if_neg hv] at hq
        cases hq
      have hfork := ht.forksAt_nil hv
      exact ⟨fun _ => congrArg some hv, fun h => absurd hfork h⟩
    | cons i q =>
      rw [forksAt_branch_cons]
      rw [entry_branch_cons] at hq
      cases hi : (cs i).isEmpty with
      | true =>
        have he := (isEmpty_iff _).mp hi
        refine ⟨?_, fun _ => by rw [find, he]; rfl⟩
        rintro ⟨j, -, -, ⟨r, hr⟩, -⟩
        rw [he] at hr
        exact absurd rfl hr
      | false => exact ih i (ht.2 i hi) hq

end Unique

end Tree

end Patricia
