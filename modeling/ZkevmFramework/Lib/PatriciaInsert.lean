import ZkevmFramework.Lib.Patricia

/-!
# Insertion into a Patricia tree

A leaf or an extension whose path parts from the key is split: what the two
share becomes an extension over a new branch, what remains hangs in its slots.
-/

namespace Patricia

namespace Tree

variable {κ α : Type} [DecidableEq κ]

/-- Hang a leaf for the key `q` into the slots; an empty key takes no slot. -/
def setLeaf (cs : κ → Tree κ α) (q : List κ) (v : α) : κ → Tree κ α :=
  match q with
  | [] => cs
  | i :: q => Function.update cs i (.leaf q v)

/-- Hang `t` into the slots, at the end of the path `p`. -/
def setExt (cs : κ → Tree κ α) (p : List κ) (t : Tree κ α) : κ → Tree κ α :=
  match p with
  | [] => cs
  | i :: p => Function.update cs i (wrap p t)

theorem wf_setLeaf {ok : α → Prop} {cs : κ → Tree κ α} {q : List κ} {v : α} {d : Nat}
    (hcs : ∀ i, (cs i).isEmpty = false → 0 < d ∧ WF ok (cs i) (d - 1))
    (hq : q.length ≤ d) (hv : ok v) :
    ∀ i, (setLeaf cs q v i).isEmpty = false → 0 < d ∧ WF ok (setLeaf cs q v i) (d - 1) := by
  cases q with
  | nil => exact hcs
  | cons j q =>
    intro i hi
    simp only [List.length_cons] at hq
    by_cases hij : i = j
    · subst hij
      simp only [setLeaf, Function.update_self]
      exact ⟨by omega, by omega, hv⟩
    · simp only [setLeaf, Function.update_of_ne hij] at hi ⊢
      exact hcs i hi

theorem wf_setExt {ok : α → Prop} {cs : κ → Tree κ α} {p : List κ} {t : Tree κ α} {d : Nat}
    (hcs : ∀ i, (cs i).isEmpty = false → 0 < d ∧ WF ok (cs i) (d - 1))
    (hp : p.length ≤ d) (hb : t.isBranch = true) (ht : WF ok t (d - p.length)) :
    ∀ i, (setExt cs p t i).isEmpty = false → 0 < d ∧ WF ok (setExt cs p t i) (d - 1) := by
  cases p with
  | nil => exact hcs
  | cons j p =>
    intro i hi
    simp only [List.length_cons] at hp ht
    by_cases hij : i = j
    · subst hij
      simp only [setExt, Function.update_self]
      exact ⟨by omega, wf_wrap hb (by omega) (by rwa [Nat.sub_sub, Nat.add_comm 1])⟩
    · simp only [setExt, Function.update_of_ne hij] at hi ⊢
      exact hcs i hi

theorem leaves_update {P : α → Prop} {cs : κ → Tree κ α} (hcs : ∀ i, Leaves P (cs i))
    {t : Tree κ α} (ht : Leaves P t) (i j : κ) : Leaves P (Function.update cs i t j) := by
  by_cases hj : j = i
  · subst hj; rwa [Function.update_self]
  · rw [Function.update_of_ne hj]; exact hcs j

theorem leaves_setLeaf {P : α → Prop} {cs : κ → Tree κ α} (hcs : ∀ i, Leaves P (cs i)) {v : α}
    (hv : P v) (q : List κ) (j : κ) : Leaves P (setLeaf cs q v j) := by
  cases q with
  | nil => exact hcs j
  | cons i q => exact leaves_update hcs (t := .leaf q v) hv i j

theorem leaves_setExt {P : α → Prop} {cs : κ → Tree κ α} (hcs : ∀ i, Leaves P (cs i))
    {t : Tree κ α} (ht : Leaves P t) (p : List κ) (j : κ) : Leaves P (setExt cs p t j) := by
  cases p with
  | nil => exact hcs j
  | cons i p => exact leaves_update hcs (leaves_wrap ht) i j

variable [EmptyCollection α]

/-- The branch over two keys that part at once. -/
def forkLeaf (q : List κ) (v : α) (p : List κ) (w : α) : Tree κ α :=
  .branch (setLeaf (setLeaf (fun _ => .empty) q v) p w)
    (if q = [] then v else if p = [] then w else ∅)

/-- The branch over a key and an extension path that part at once. -/
def forkExt (q : List κ) (v : α) (p : List κ) (t : Tree κ α) : Tree κ α :=
  .branch (setExt (setLeaf (fun _ => .empty) q v) p t) (if q = [] then v else ∅)

def insert : Tree κ α → List κ → α → Tree κ α
  | .empty, q, v => .leaf q v
  | .leaf p w, q, v =>
    if p = q then .leaf q v
    else wrap (lcp q p) (forkLeaf (q.drop (lcp q p).length) v (p.drop (lcp q p).length) w)
  | .ext p c, q, v =>
    if p <+: q then .ext p (insert c (q.drop p.length) v)
    else wrap (lcp q p) (forkExt (q.drop (lcp q p).length) v (p.drop (lcp q p).length) c)
  | .branch cs _, [], v => .branch cs v
  | .branch cs w, i :: q, v => .branch (Function.update cs i (insert (cs i) q v)) w

/-! ## Shape -/

theorem isEmpty_insert (t : Tree κ α) (q : List κ) (v : α) : (insert t q v).isEmpty = false := by
  cases t with
  | empty => rfl
  | leaf p w =>
    simp only [insert, wrap, forkLeaf]
    split
    · rfl
    · split <;> rfl
  | ext p c =>
    simp only [insert, wrap, forkExt]
    split
    · rfl
    · split <;> rfl
  | branch cs w => cases q <;> rfl

theorem isBranch_insert {t : Tree κ α} (h : t.isBranch = true) (q : List κ) (v : α) :
    (insert t q v).isBranch = true := by
  obtain ⟨cs, w, rfl⟩ := (isBranch_iff t).mp h
  cases q <;> rfl

theorem leaves_insert {P : α → Prop} {t : Tree κ α} (ht : Leaves P t) (q : List κ) {v : α}
    (hv : P v) : Leaves P (insert t q v) := by
  have hnil : ∀ i : κ, Leaves P ((fun _ => .empty : κ → Tree κ α) i) := fun _ => trivial
  induction t generalizing q with
  | empty => exact hv
  | leaf p w =>
    simp only [insert]
    split
    · exact hv
    · exact leaves_wrap (leaves_setLeaf (v := w) (leaves_setLeaf hnil hv _) ht _)
  | ext p c ih =>
    simp only [insert]
    split
    · exact ih ht _
    · exact leaves_wrap (leaves_setExt (t := c) (leaves_setLeaf hnil hv _) ht _)
  | branch cs w ih =>
    cases q with
    | nil => exact ht
    | cons i q => exact leaves_update ht (ih i (ht i) q) i

/-- **Insertion keeps the tree well-formed.** -/
theorem wf_insert {ok : α → Prop} (h0 : ok ∅) {t : Tree κ α} {q : List κ} {v : α} {d : Nat}
    (ht : WF ok t d) (hq : q.length ≤ d) (hv : ok v) : WF ok (insert t q v) d := by
  have hnil : ∀ d, ∀ i : κ, ((fun _ => .empty : κ → Tree κ α) i).isEmpty = false →
      0 < d ∧ WF ok ((fun _ => .empty : κ → Tree κ α) i) (d - 1) := by
    intro d i hi
    simp at hi
  induction t generalizing q d with
  | empty => exact ⟨hq, hv⟩
  | leaf p w =>
    obtain ⟨hp, hw⟩ := ht
    simp only [insert]
    split
    · exact ⟨hq, hv⟩
    · have hl := (lcp_prefix_left q p).length_le
      have hdq : (q.drop (lcp q p).length).length ≤ d - (lcp q p).length := by
        rw [List.length_drop]; omega
      have hdp : (p.drop (lcp q p).length).length ≤ d - (lcp q p).length := by
        rw [List.length_drop]; omega
      refine wf_wrap rfl (by omega) ⟨?_, wf_setLeaf (wf_setLeaf (hnil _) hdq hv) hdp hw⟩
      split
      · exact hv
      · split
        · exact hw
        · exact h0
  | ext p c ih =>
    obtain ⟨hp, hpd, hb, hc⟩ := ht
    simp only [insert]
    split
    · refine ⟨hp, hpd, isBranch_insert hb _ _, ih hc ?_⟩
      rw [List.length_drop]; omega
    · have hl := (lcp_prefix_left q p).length_le
      have hr := (lcp_prefix_right q p).length_le
      have hdq : (q.drop (lcp q p).length).length ≤ d - (lcp q p).length := by
        rw [List.length_drop]; omega
      have hdp : (p.drop (lcp q p).length).length ≤ d - (lcp q p).length := by
        rw [List.length_drop]; omega
      refine wf_wrap rfl (by omega) ⟨?_, wf_setExt (wf_setLeaf (hnil _) hdq hv) hdp hb ?_⟩
      · split
        · exact hv
        · exact h0
      · rw [List.length_drop]
        have : d - (lcp q p).length - (p.length - (lcp q p).length) = d - p.length := by omega
        rwa [this]
  | branch cs w ih =>
    cases q with
    | nil => exact ⟨hv, ht.2⟩
    | cons i q =>
      simp only [List.length_cons] at hq
      refine ⟨ht.1, ?_⟩
      intro j hj
      by_cases hij : j = i
      · subst hij
        rw [Function.update_self]
        exact ⟨by omega, ih j (ht.slot j) (by omega)⟩
      · rw [Function.update_of_ne hij] at hj ⊢
        exact ht.2 j hj

/-! ## What a walk finds after an insertion -/

theorem find_forkLeaf {f : α → Option α} {q p : List κ} {v w : α} (hqp : Apart q p)
    (hv : f v = some v) (hw : f w = some w) (x : List κ) :
    find f (forkLeaf q v p w) x =
      if x = q then some v else if x = p then some w else if x = [] then f ∅ else none := by
  cases x with
  | nil =>
    simp only [forkLeaf, find, List.nil_eq]
    split
    · exact hv
    · split
      · exact hw
      · simp
  | cons a x =>
    have hfind : find f (forkLeaf q v p w) (a :: x) =
        find f (setLeaf (setLeaf (fun _ => .empty) q v) p w a) x := rfl
    rw [hfind]
    cases q with
    | nil =>
      cases p with
      | nil => simp [setLeaf, find]
      | cons j p =>
        by_cases haj : a = j
        · subst haj; simp [setLeaf, find, eq_comm]
        · simp [setLeaf, find, haj]
    | cons i q =>
      cases p with
      | nil =>
        by_cases hai : a = i
        · subst hai; simp [setLeaf, find, eq_comm]
        · simp [setLeaf, find, hai]
      | cons j p =>
        have hij := hqp.ne_head
        by_cases haj : a = j
        · subst haj; simp [setLeaf, find, hij.symm, eq_comm]
        · by_cases hai : a = i
          · subst hai; simp [setLeaf, find, haj, eq_comm]
          · simp [setLeaf, find, hai, haj]

theorem find_forkExt {f : α → Option α} {q p : List κ} {v : α} {t : Tree κ α} (hqp : Apart q p)
    (hp : p ≠ []) (hv : f v = some v) (x : List κ) :
    find f (forkExt q v p t) x =
      if x = q then some v else if p <+: x then find f t (x.drop p.length)
      else if x = [] then f ∅ else none := by
  cases p with
  | nil => exact absurd rfl hp
  | cons j p =>
    cases x with
    | nil =>
      simp only [forkExt, find, List.nil_eq]
      split
      · exact hv
      · simp
    | cons a x =>
      have hfind : find f (forkExt q v (j :: p) t) (a :: x) =
          find f (setExt (setLeaf (fun _ => .empty) q v) (j :: p) t a) x := rfl
      rw [hfind]
      cases q with
      | nil =>
        by_cases haj : a = j
        · subst haj; simp [setExt, find_wrap]
        · simp [setExt, setLeaf, find, haj, Ne.symm haj]
      | cons i q =>
        have hij := hqp.ne_head
        by_cases haj : a = j
        · subst haj; simp [setExt, find_wrap, hij.symm]
        · by_cases hai : a = i
          · subst hai; simp [setExt, setLeaf, find, haj, Ne.symm haj, eq_comm]
          · simp [setExt, setLeaf, find, hai, haj, Ne.symm haj]

/-- **The inserted key is found.** -/
theorem find_insert_self {f : α → Option α} {v : α} (hv : f v = some v) (t : Tree κ α)
    (ht : Leaves (fun w => f w = some w) t) (q : List κ) : find f (insert t q v) q = some v := by
  induction t generalizing q with
  | empty => simp [insert, find]
  | leaf p w =>
    simp only [insert]
    split
    · simp [find]
    · rw [find_wrap, if_pos (lcp_prefix_left q p), find_forkLeaf (lcp_apart q p) hv ht, if_pos rfl]
  | ext p c ih =>
    simp only [insert]
    split
    · next hpq => simp only [find, if_pos hpq, ih ht]
    · next hpq =>
      have hne : p.drop (lcp q p).length ≠ [] := fun h => hpq ((drop_lcp_eq_nil_iff q p).mp h)
      rw [find_wrap, if_pos (lcp_prefix_left q p), find_forkExt (lcp_apart q p) hne hv, if_pos rfl]
  | branch cs w ih =>
    cases q with
    | nil => exact hv
    | cons i q => simp only [insert, find, Function.update_self, ih i (ht i)]

/-- Splitting a leaf keeps the answers for the other keys. -/
theorem find_splitLeaf_ne {f : α → Option α} {p q x : List κ} {v w : α} (hv : f v = some v)
    (hw : f w = some w) (hpq : p ≠ q) (hx : x ≠ q) :
    find f (insert (leaf p w) q v) x = find f (leaf p w) x ∨
      (find f (leaf p w) x = none ∧ find f (insert (leaf p w) q v) x = f ∅) := by
  have hq := lcp_append_drop_left q p
  have hp := lcp_append_drop_right q p
  rw [insert, if_neg hpq, find_wrap]
  by_cases hc : lcp q p <+: x
  · have hxq : x.drop (lcp q p).length ≠ q.drop (lcp q p).length := by
      intro h
      exact hx (((drop_eq_iff hc).mp h).trans hq)
    rw [if_pos hc, find_forkLeaf (lcp_apart q p) hv hw, if_neg hxq]
    by_cases hxp : x = p
    · left
      simp [find, hxp]
    · have hdrop : x.drop (lcp q p).length ≠ p.drop (lcp q p).length := by
        intro h
        exact hxp (((drop_eq_iff hc).mp h).trans hp)
      have hnone : find f (leaf p w) x = none := by simp [find, Ne.symm hxp]
      rw [if_neg hdrop]
      split
      · exact Or.inr ⟨hnone, rfl⟩
      · exact Or.inl hnone.symm
  · left
    have hxp : p ≠ x := by
      intro h
      exact hc (h ▸ lcp_prefix_right q p)
    rw [if_neg hc]
    simp [find, hxp]

/-- Splitting an extension keeps the answers for the other keys. -/
theorem find_splitExt_ne {f : α → Option α} {p q x : List κ} {v : α} {c : Tree κ α}
    (hv : f v = some v) (hpq : ¬ p <+: q) (hx : x ≠ q) :
    find f (insert (ext p c) q v) x = find f (ext p c) x ∨
      (find f (ext p c) x = none ∧ find f (insert (ext p c) q v) x = f ∅) := by
  have hne : p.drop (lcp q p).length ≠ [] := by
    intro h
    exact hpq ((drop_lcp_eq_nil_iff q p).mp h)
  have hq := lcp_append_drop_left q p
  have hp := lcp_append_drop_right q p
  rw [insert, if_neg hpq, find_wrap]
  by_cases hc : lcp q p <+: x
  · have hxq : x.drop (lcp q p).length ≠ q.drop (lcp q p).length := by
      intro h
      exact hx (((drop_eq_iff hc).mp h).trans hq)
    have hpre : p.drop (lcp q p).length <+: x.drop (lcp q p).length ↔ p <+: x := by
      obtain ⟨y, rfl⟩ := hc
      rw [List.drop_left, ← List.prefix_append_right_inj (lcp q p), hp]
    rw [if_pos hc, find_forkExt (lcp_apart q p) hne hv, if_neg hxq]
    by_cases hpx : p <+: x
    · left
      have hl := congrArg List.length hp
      rw [List.length_append] at hl
      rw [if_pos (hpre.mpr hpx), List.drop_drop]
      simp only [find, if_pos hpx, hl]
    · have hnone : find f (ext p c) x = none := by simp [find, hpx]
      rw [if_neg (fun h => hpx (hpre.mp h))]
      split
      · exact Or.inr ⟨hnone, rfl⟩
      · exact Or.inl hnone.symm
  · left
    have hpx : ¬ p <+: x := by
      intro h
      exact hc ((lcp_prefix_right q p).trans h)
    rw [if_neg hc]
    simp [find, hpx]

/-- **Every other key keeps its answer**; where the insertion puts a new branch
on a key that answered nothing, the branch's `∅` is answered. -/
theorem find_insert_ne {f : α → Option α} {v : α} (hv : f v = some v) (t : Tree κ α)
    (ht : Leaves (fun w => f w = some w) t) {q x : List κ} (hx : x ≠ q) :
    find f (insert t q v) x = find f t x ∨
      (find f t x = none ∧ find f (insert t q v) x = f ∅) := by
  induction t generalizing q x with
  | empty =>
    left
    simp [insert, find, hx.symm]
  | leaf p w =>
    by_cases hpq : p = q
    · left
      simp [insert, find, hpq, hx.symm]
    · exact find_splitLeaf_ne hv ht hpq hx
  | ext p c ih =>
    by_cases hpq : p <+: q
    · simp only [insert, if_pos hpq, find]
      by_cases hpx : p <+: x
      · simp only [if_pos hpx]
        apply ih ht
        intro h
        obtain ⟨y, rfl⟩ := hpx
        obtain ⟨z, rfl⟩ := hpq
        simp only [List.drop_left] at h
        exact hx (by rw [h])
      · left
        simp [hpx]
    · exact find_splitExt_ne hv hpq hx
  | branch cs w ih =>
    cases q with
    | nil =>
      cases x with
      | nil => exact absurd rfl hx
      | cons j x => exact Or.inl rfl
    | cons i q =>
      cases x with
      | nil => exact Or.inl rfl
      | cons j x =>
        simp only [insert, find]
        by_cases hij : j = i
        · subst hij
          rw [Function.update_self]
          apply ih j (ht j)
          intro h
          exact hx (by rw [h])
        · rw [Function.update_of_ne hij]
          exact Or.inl rfl

/-- A lookup answers the inserted value under its key. -/
theorem read_insert_self (t : Tree κ α) (q : List κ) (v : α) : read (insert t q v) q = some v :=
  find_insert_self rfl t (leaves_of_forall (fun _ => rfl) t) q

/-- What a lookup answered for another key it still answers. -/
theorem read_insert_ne {t : Tree κ α} {q x : List κ} {w : α} (v : α) (hx : x ≠ q)
    (h : read t x = some w) : read (insert t q v) x = some w := by
  have key := find_insert_ne (f := some) (v := v) rfl t (leaves_of_forall (fun _ => rfl) t) hx
  rcases key with key | ⟨key, _⟩
  · exact key.trans h
  · exact absurd (h.symm.trans key) (by simp)

/-- **Insertion updates the entries at its key only.** -/
theorem entry_insert [DecidableEq α] {t : Tree κ α} (ht : Leaves (· ≠ ∅) t) (q : List κ) {v : α}
    (hv : v ≠ ∅) (x : List κ) : entry (insert t q v) x = if x = q then some v else entry t x := by
  have hpv : present v = some v := if_neg hv
  have hleaf : Leaves (fun w => present w = some w) t := by
    induction t with
    | empty => trivial
    | leaf p w => exact if_neg ht
    | ext p c ih => exact ih ht
    | branch cs w ih => exact fun i => ih i (ht i)
  by_cases hx : x = q
  · rw [if_pos hx, hx]
    exact find_insert_self hpv t hleaf q
  · rw [if_neg hx]
    rcases find_insert_ne hpv t hleaf hx with h | ⟨h1, h2⟩
    · exact h
    · exact h2.trans ((if_pos rfl).trans h1.symm)

end Tree

end Patricia
