import Mathlib.Data.List.Count
import ZkevmFramework.Core.EraseEntries

/-!
# Removing what was just inserted

`Undone junk t q`: inserting the fresh key `q` into the canonical tree `t` and
erasing it again gives `t` back.  A slot that was empty is emptied, and a value
that split a leaf or an extension at its own end is merged away; a leaf that
split one is not, since the branch keeps the slot of what was there before.

    erase junk (insert t q v) q = .ok (.updated t) ↔
      Undone junk t q ∧ ¬ (q = [] ∧ t.isBranch = false)               (erase_insert_iff)
-/

namespace Core.Mpt

open Patricia

/-- The insertion of `q` takes an empty slot, puts a value on a branch where the
slot `junk` is empty, or ends inside the path of a leaf or an extension. -/
def Undone (junk : Option (Fin 16)) : NodeTree → List (Fin 16) → Prop
  | .empty, _ => False
  | .leaf p _, q => q <+: p
  | .ext p c, q => if p <+: q then Undone junk c (q.drop p.length) else q <+: p
  | .branch cs _, [] => ∃ j, junk = some j ∧ (cs j).isEmpty = true
  | .branch cs _, i :: q => (cs i).isEmpty = true ∨ Undone junk (cs i) q

/-! ## Canonical branches -/

theorem used_update_empty {i : Fin 16} {t : NodeTree} (ht : t.isEmpty = false) :
    used (Function.update (fun _ => .empty) i t) = 1 := by
  have hcount : used (Function.update (fun _ => .empty) i t) = (List.finRange 16).count i := by
    rw [used, List.count]
    congr 1
    funext j
    by_cases hj : j = i
    · subst hj; simp [ht]
    · simp [hj]
  rw [hcount]
  exact List.count_eq_one_of_mem (List.nodup_finRange 16) (List.mem_finRange i)

/-- A crowded branch is not one that collapses when it loses a child. -/
theorem Crowded.not_single {cs : Fin 16 → NodeTree} {v : Bytes} (h : Tree.Crowded cs v) :
    ¬ (v = [] ∧ used cs = 1) := by
  rintro ⟨rfl, hu⟩
  rcases h with ⟨i, j, hij, hi, hj⟩ | ⟨hv, -⟩
  · obtain ⟨k, -, -, hk⟩ := used_eq_one hu
    have hik : i = k := by
      by_contra hne
      rw [hk i hne] at hi
      cases hi
    have hjk : j = k := by
      by_contra hne
      rw [hk j hne] at hj
      cases hj
    exact hij (hik.trans hjk.symm)
  · exact hv rfl

/-- Without a value it has two used slots. -/
theorem Crowded.two_le {cs : Fin 16 → NodeTree} (h : Tree.Crowded cs ([] : Bytes)) :
    2 ≤ used cs := by
  have h1 : used cs ≠ 1 := fun hu => Crowded.not_single h ⟨rfl, hu⟩
  obtain ⟨i, hi⟩ : ∃ i, (cs i).isEmpty = false := by
    rcases h with ⟨i, -, -, hi, -⟩ | ⟨-, i, hi⟩ <;> exact ⟨i, hi⟩
  have h0 := used_pos hi
  omega

/-- Under a crowded branch a deletion leaves the branch. -/
theorem erase_crowded {junk : Option (Fin 16)} {cs : Fin 16 → NodeTree} {v : Bytes}
    (h : Tree.Crowded cs v) {i : Fin 16} {q : List (Fin 16)} {r : Erased}
    (hr : erase junk (.branch cs v) (i :: q) = .ok r) :
    ∃ r', erase junk (cs i) q = .ok r' ∧ r = .updated (.branch (Function.update cs i r'.tree) v) := by
  obtain ⟨-, ⟨-, hv, hu, -⟩ | ⟨-, hr'⟩⟩ := erase_child_cases hr
  · exact absurd ⟨hv, hu⟩ (Crowded.not_single h)
  · exact hr'

/-- The branch over one child and a value goes back to the child. -/
theorem erase_only_value {junk : Option (Fin 16)} {i : Fin 16} {t : NodeTree}
    (ht : t.isEmpty = false) {v : Bytes} (hv : v ≠ []) :
    erase junk (.branch (Function.update (fun _ => .empty) i t) v) [] =
      .ok (.useless (liftSlot i t)) := by
  obtain ⟨k, hk, hne, -⟩ := prune_one (used_update_empty ht (i := i)) junk
  have hki : k = i := by
    by_contra hki
    simp [Function.update_of_ne hki] at hne
  subst hki
  rw [erase, if_neg hv, hk, Function.update_self]

/-! ## Through a wrapping extension -/

theorem erase_wrap_useless {junk : Option (Fin 16)} {t n : NodeTree} {q : List (Fin 16)}
    (h : erase junk t q = .ok (.useless n)) (hn : graft [] n = n) (l : List (Fin 16)) :
    ∃ r, erase junk (Tree.wrap l t) (l ++ q) = .ok r ∧ r.tree = graft l n := by
  cases l with
  | nil => exact ⟨_, h, hn.symm⟩
  | cons a l => exact ⟨.updated (graft (a :: l) n), by simp [Tree.wrap, erase, h], rfl⟩

theorem erase_wrap_updated {junk : Option (Fin 16)} {t t' : NodeTree} {q : List (Fin 16)}
    (h : erase junk t q = .ok (.updated t')) (l : List (Fin 16)) :
    erase junk (Tree.wrap l t) (l ++ q) = .ok (.updated (Tree.wrap l t')) := by
  cases l with
  | nil => exact h
  | cons a l => simp [Tree.wrap, erase, h]

theorem liftSlot_wrap (i : Fin 16) (p : List (Fin 16)) {c : NodeTree} (hc : c.isBranch = true) :
    liftSlot i (Tree.wrap p c) = .ext (i :: p) c := by
  obtain ⟨cs, v, rfl⟩ := (Tree.isBranch_iff c).mp hc
  cases p <;> rfl

/-! ## Erasing from a fork -/

/-- A child that is deleted from a crowded branch leaves its slot empty. -/
theorem erase_crowded_sole (junk : Option (Fin 16)) {cs : Fin 16 → NodeTree} {v : Bytes}
    (h : Tree.Crowded cs v) {i : Fin 16} {q : List (Fin 16)} (hs : Sole (cs i) q) :
    erase junk (.branch cs v) (i :: q) =
      .ok (.updated (.branch (Function.update cs i .empty) v)) := by
  simp only [erase, hs.isEmpty, Bool.false_eq_true, if_false, (erase_deleted_iff junk).mpr hs,
    prune_child hs.isEmpty]
  rw [if_neg (fun hx => Crowded.not_single h ⟨hx.2, hx.1⟩)]

theorem forkLeaf_slot {q p : List (Fin 16)} {i : Fin 16} {v w : Bytes}
    (hqp : Apart (i :: q) p) : Sole (Tree.setLeaf (Tree.setLeaf (fun _ => .empty) (i :: q) v) p w i)
      q := by
  cases p with
  | nil => simp [Tree.setLeaf, Sole]
  | cons j p => simp [Tree.setLeaf, hqp.ne_head, Sole]

theorem forkExt_slot {q p : List (Fin 16)} {i : Fin 16} {v : Bytes} {c : NodeTree}
    (hqp : Apart (i :: q) p) : Sole (Tree.setExt (Tree.setLeaf (fun _ => .empty) (i :: q) v) p c i)
      q := by
  cases p with
  | nil => simp [Tree.setExt, Tree.setLeaf, Sole]
  | cons j p => simp [Tree.setExt, Tree.setLeaf, hqp.ne_head, Sole]

/-- Splitting a leaf is undone exactly for a key that ends inside its path. -/
theorem erase_splitLeaf (junk : Option (Fin 16)) {p q : List (Fin 16)} {v w : Bytes} (hv : v ≠ [])
    (hw : w ≠ []) (hpq : p ≠ q) :
    ∃ r, erase junk ((Tree.leaf p w).insert q v) q = .ok r ∧
      (r.tree = .leaf p w ↔ q <+: p) := by
  have hq := lcp_append_drop_left q p
  have hp := lcp_append_drop_right q p
  have hap := lcp_apart q p
  have hnil := drop_lcp_eq_nil_iff p q
  rw [lcp_comm] at hnil
  rw [Tree.insert, if_neg hpq]
  generalize lcp q p = l at hq hp hap hnil ⊢
  generalize hq' : q.drop l.length = q' at hq hap hnil ⊢
  generalize hp' : p.drop l.length = p' at hp hap ⊢
  subst hq hp
  cases q' with
  | nil =>
    cases p' with
    | nil => exact absurd rfl hpq
    | cons j p =>
      have hfork : erase junk (Tree.forkLeaf [] v (j :: p) w) [] = .ok (.useless (.leaf (j :: p) w)) :=
        erase_only_value rfl hv
      obtain ⟨r, hr, ht⟩ := erase_wrap_useless hfork rfl l
      exact ⟨r, hr, by simp [ht, graft]⟩
  | cons i q =>
    have hne : p' ≠ i :: q := fun h => hpq (by rw [h])
    have hcr := (Tree.canonical_forkLeaf hap hne hv hw).1
    have hfork := erase_crowded_sole junk hcr (forkLeaf_slot (v := v) (w := w) hap)
    refine ⟨_, erase_wrap_updated hfork l, ?_⟩
    have hpre : ¬ l ++ i :: q <+: l ++ p' := by
      rw [hnil.symm]
      simp
    rw [iff_false_right hpre]
    cases l <;> simp [Erased.tree, Tree.wrap]

theorem erase_splitExt (junk : Option (Fin 16)) {p q : List (Fin 16)} {v : Bytes} {c : NodeTree}
    (hv : v ≠ []) (hc : c.Canonical) (hb : c.isBranch = true) (hpq : ¬ p <+: q) :
    ∃ r, erase junk ((Tree.ext p c).insert q v) q = .ok r ∧
      (r.tree = .ext p c ↔ q <+: p) := by
  have hq := lcp_append_drop_left q p
  have hp := lcp_append_drop_right q p
  have hap := lcp_apart q p
  have hnil := drop_lcp_eq_nil_iff p q
  have hnil' := drop_lcp_eq_nil_iff q p
  rw [lcp_comm] at hnil
  rw [Tree.insert, if_neg hpq]
  generalize lcp q p = l at hq hp hap hnil hnil' ⊢
  generalize hq' : q.drop l.length = q' at hq hap hnil ⊢
  generalize hp' : p.drop l.length = p' at hp hap hnil' ⊢
  have hne : p' ≠ [] := fun h => hpq (hnil'.mp h)
  subst hq hp
  cases q' with
  | nil =>
    cases p' with
    | nil => exact absurd rfl hne
    | cons j p =>
      have hwe : (Tree.wrap p c).isEmpty = false := by
        obtain ⟨cs, w, rfl⟩ := (Tree.isBranch_iff c).mp hb
        cases p <;> rfl
      have hfork : erase junk (Tree.forkExt [] v (j :: p) c) [] = .ok (.useless (.ext (j :: p) c)) := by
        rw [← liftSlot_wrap j p hb]
        exact erase_only_value hwe hv
      obtain ⟨r, hr, ht⟩ := erase_wrap_useless hfork rfl l
      exact ⟨r, hr, by simp [ht, graft]⟩
  | cons i q =>
    have hcr := (Tree.canonical_forkExt hap hne hv hb hc).1
    have hfork := erase_crowded_sole junk hcr (forkExt_slot (v := v) (c := c) hap)
    refine ⟨_, erase_wrap_updated hfork l, ?_⟩
    have hpre : ¬ l ++ i :: q <+: l ++ p' := by
      rw [hnil.symm]
      simp
    rw [iff_false_right hpre]
    cases l with
    | nil => simp [Erased.tree, Tree.wrap]
    | cons a l => simp [Erased.tree, Tree.wrap, hne]

/-! ## Insertion and deletion -/

/-- After an insertion only a value set over a whole leaf or extension collapses again. -/
theorem collapses_insert_iff {t : NodeTree} (ht : t.Canonical) {q : List (Fin 16)} {v : Bytes}
    (hv : v ≠ []) (hq : t.entry q = none) :
    Collapses (t.insert q v) q ↔ q = [] ∧ t.isBranch = false := by
  constructor
  · intro h
    have hcan := Tree.canonical_insert (fun _ => ht) q hv
    generalize hi : t.insert q v = t' at h hcan
    cases t' with
    | empty => exact h.elim
    | leaf p w => exact h.elim
    | ext p c => exact h.elim
    | branch cs w =>
      cases q with
      | cons i q => exact absurd ⟨h.2.1, h.2.2⟩ (Crowded.not_single hcan.1)
      | nil =>
        refine ⟨rfl, ?_⟩
        cases t with
        | branch cs' w' =>
          simp only [Tree.insert] at hi
          cases hi
          have hw' : w' = [] := by
            by_contra hw'
            simp [hw'] at hq
          have h2 := Crowded.two_le (hw' ▸ ht.1)
          have h1 := h.2
          omega
        | _ => rfl
  · rintro ⟨rfl, hb⟩
    cases t with
    | empty => exact ht.elim
    | branch cs w => cases hb
    | leaf p w =>
      cases p with
      | nil => simp [Tree.entry_leaf] at hq
      | cons j p => exact ⟨hv, used_update_empty (t := .leaf p w) rfl⟩
    | ext p c =>
      obtain ⟨hp, hb', -⟩ := ht
      cases p with
      | nil => exact absurd rfl hp
      | cons j p =>
        obtain ⟨cs, w, rfl⟩ := (Tree.isBranch_iff c).mp hb'
        refine ⟨hv, used_update_empty (t := Tree.wrap p (.branch cs w)) ?_⟩
        cases p <;> rfl

/-- Where erasing answers `r`, only `r` decides what comes back. -/
theorem exists_ok_iff {x : Except Error Erased} {r : Erased} (hx : x = .ok r) (t : NodeTree) :
    (∃ r, x = .ok r ∧ r.tree = t) ↔ r.tree = t := by
  constructor
  · rintro ⟨r', hr', h⟩
    rw [hx] at hr'
    cases hr'
    exact h
  · intro h
    exact ⟨r, hx, h⟩

/-- An extension passes the question on: below it the insertion leaves a branch,
which does not collapse. -/
theorem erase_insert_ext_iff {junk : Option (Fin 16)} {p q : List (Fin 16)} {c : NodeTree}
    (hc : c.Canonical) (hb : c.isBranch = true) {v : Bytes} (hv : v ≠ [])
    (hq : c.entry (q.drop p.length) = none) (hpq : p <+: q) :
    (∃ r, erase junk ((Tree.ext p c).insert q v) q = .ok r ∧ r.tree = .ext p c) ↔
      ∃ r, erase junk (c.insert (q.drop p.length) v) (q.drop p.length) = .ok r ∧ r.tree = c := by
  have huse : ∀ t, erase junk (c.insert (q.drop p.length) v) (q.drop p.length) ≠
      .ok (.useless t) := by
    intro t ht
    have h := ((collapses_insert_iff hc hv hq).mp ((erase_useless_iff junk).mp ⟨t, ht⟩)).2
    rw [hb] at h
    cases h
  rw [Tree.insert, if_pos hpq]
  constructor
  · rintro ⟨r, hr, hrt⟩
    obtain ⟨-, r', hr', ⟨-, rfl⟩ | ⟨t, rfl, rfl⟩ | ⟨t, rfl, rfl⟩⟩ := erase_ext_cases hr
    · cases hrt
    · exact ⟨_, hr', by simpa [Erased.tree] using hrt⟩
    · exact absurd hr' (huse t)
  · rintro ⟨r, hr, hrt⟩
    rcases r with _ | t | t
    · subst hrt
      exact hc.elim
    · have hrt : t = c := hrt
      subst hrt
      exact ⟨.updated (.ext p t), by simp [erase, hpq, hr], rfl⟩
    · exact absurd hr (huse t)

/-- A value set on a branch: removing it clears the slot `idx` names. -/
theorem erase_insert_value_iff {junk : Option (Fin 16)} {cs : Fin 16 → NodeTree}
    (hcr : Tree.Crowded cs ([] : Bytes)) {v : Bytes} (hv : v ≠ []) :
    (∃ r, erase junk ((Tree.branch cs []).insert [] v) [] = .ok r ∧ r.tree = .branch cs []) ↔
      ∃ j, junk = some j ∧ (cs j).isEmpty = true := by
  rw [Tree.insert, erase, if_neg hv, prune_many (Crowded.two_le hcr)]
  cases junk with
  | none => simp
  | some j =>
    constructor
    · rintro ⟨r, hr, hrt⟩
      cases hr
      simp only [Erased.tree, Tree.branch.injEq, and_true] at hrt
      refine ⟨j, rfl, ?_⟩
      rw [← hrt, Function.update_self]
      rfl
    · rintro ⟨j', hj', hj⟩
      cases hj'
      refine ⟨_, rfl, ?_⟩
      rw [Erased.tree, ← (Tree.isEmpty_iff _).mp hj, Function.update_eq_self]

/-- A slot of a branch that stays crowded passes the question on. -/
theorem erase_insert_slot_iff {junk : Option (Fin 16)} {cs : Fin 16 → NodeTree} {v w : Bytes}
    {i : Fin 16} {q : List (Fin 16)}
    (hcr : Tree.Crowded (Function.update cs i ((cs i).insert q v)) w) :
    (∃ r, erase junk ((Tree.branch cs w).insert (i :: q) v) (i :: q) = .ok r ∧
        r.tree = .branch cs w) ↔
      ∃ r, erase junk ((cs i).insert q v) q = .ok r ∧ r.tree = cs i := by
  have hkeep : ∀ t : NodeTree, Tree.branch (Function.update
      (Function.update cs i ((cs i).insert q v)) i t) w = .branch cs w ↔ t = cs i := by
    intro t
    rw [Function.update_idem, Tree.branch.injEq]
    constructor
    · intro h
      rw [← h.1, Function.update_self]
    · intro h
      exact ⟨by rw [h, Function.update_eq_self], rfl⟩
  rw [Tree.insert]
  constructor
  · rintro ⟨r, hr, hrt⟩
    obtain ⟨r', hr', rfl⟩ := erase_crowded hcr hr
    rw [Function.update_self] at hr'
    exact ⟨r', hr', (hkeep _).mp hrt⟩
  · rintro ⟨r, hr, hrt⟩
    refine ⟨.updated (.branch (Function.update (Function.update cs i ((cs i).insert q v)) i
      r.tree) w), ?_, (hkeep _).mpr hrt⟩
    have hne := Tree.isEmpty_insert (cs i) q v
    rcases r with _ | t | t
    · apply erase_crowded_sole junk hcr
      rw [Function.update_self]
      exact (erase_deleted_iff junk).mp hr
    · simp [erase, hne, hr, Erased.tree]
    · simp [erase, hne, hr, Erased.tree]

theorem erase_insert_tree_iff {junk : Option (Fin 16)} {t : NodeTree} (ht : t.Canonical)
    {q : List (Fin 16)} {v : Bytes} (hv : v ≠ []) (hq : t.entry q = none) :
    (∃ r, erase junk (t.insert q v) q = .ok r ∧ r.tree = t) ↔ Undone junk t q := by
  induction t generalizing q with
  | empty => exact ht.elim
  | leaf p w =>
    have hpq : p ≠ q := by
      intro h
      simp [Tree.entry_leaf, h] at hq
    obtain ⟨r, hr, hiff⟩ := erase_splitLeaf junk hv ht hpq
    rw [exists_ok_iff hr]
    exact hiff
  | ext p c ih =>
    obtain ⟨hp, hb, hc⟩ := ht
    rw [Undone]
    by_cases hpq : p <+: q
    · rw [Tree.entry_ext, if_pos hpq] at hq
      rw [if_pos hpq, erase_insert_ext_iff hc hb hv hq hpq]
      exact ih hc hq
    · obtain ⟨r, hr, hiff⟩ := erase_splitExt junk hv hc hb hpq
      rw [if_neg hpq, exists_ok_iff hr]
      exact hiff
  | branch cs w ih =>
    have hcan := Tree.canonical_insert (fun _ => ht) q hv
    obtain ⟨hcr, hcs⟩ := ht
    cases q with
    | nil =>
      have hw : w = [] := by
        by_contra hw
        simp [hw] at hq
      subst hw
      exact erase_insert_value_iff hcr hv
    | cons i q =>
      rw [Tree.entry_branch_cons] at hq
      rw [Tree.insert] at hcan
      rw [erase_insert_slot_iff hcan.1, Undone]
      cases hi : (cs i).isEmpty with
      | true =>
        rw [(Tree.isEmpty_iff _).mp hi]
        simp only [true_or, iff_true]
        exact ⟨.deleted, by simp [Tree.insert, erase], rfl⟩
      | false =>
        rw [ih i (hcs i hi) hq]
        simp

/-- **When erasing an inserted key restores the tree**, as an accepted deletion. -/
theorem erase_insert_iff {junk : Option (Fin 16)} {t : NodeTree} (ht : t.Canonical)
    {q : List (Fin 16)} {v : Bytes} (hv : v ≠ []) (hq : t.entry q = none) :
    erase junk (t.insert q v) q = .ok (.updated t) ↔
      Undone junk t q ∧ ¬ (q = [] ∧ t.isBranch = false) := by
  rw [← erase_insert_tree_iff ht hv hq, ← collapses_insert_iff ht hv hq,
    ← erase_useless_iff junk]
  constructor
  · intro h
    refine ⟨⟨_, h, rfl⟩, ?_⟩
    rintro ⟨t', h'⟩
    rw [h] at h'
    cases h'
  · rintro ⟨⟨r, hr, rfl⟩, huse⟩
    rcases r with _ | t | t
    · exact ht.elim
    · exact hr
    · exact absurd ⟨t, hr⟩ huse

end Core.Mpt
