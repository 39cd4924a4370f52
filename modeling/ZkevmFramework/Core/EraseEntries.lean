import ZkevmFramework.Core.Erase
import ZkevmFramework.Lib.PatriciaCanonical

/-!
# What a deletion does to the entries

    erase junk t q = .error .keyNotFound ↔ entry t q = none          (erase_keyNotFound_iff)
    erase junk t q = .ok .deleted ↔ Sole t q                          (erase_deleted_iff)
    entry t' q = if Resurrects t q then entry t q else none           (entry_erase_self)
    ¬ Loses junk t q → x ≠ q → entry t' x = entry t x                 (entry_erase_ne)

Three states of the tree make a deletion go wrong.  `Resurrects`: the deleted
child was the only used slot of a branch without value, so the node rebuilt
"from the last branch" is the deleted one.  `Loses`: the key ends at a branch
with two or more used slots, one of which is the slot `junk`.  `Collapses`: the
root is a branch that becomes a single node, which `remove` does not accept.
-/

namespace Core.Mpt

open Patricia

/-- The tree is nothing but the entry `q`. -/
def Sole : NodeTree → List (Fin 16) → Prop
  | .empty, _ => False
  | .leaf p _, q => p = q
  | .ext p c, q => p <+: q ∧ Sole c (q.drop p.length)
  | .branch cs v, q => q = [] ∧ v ≠ [] ∧ used cs = 0

/-- A branch on the way of `q` has no value and one used slot, which holds
nothing but the rest of `q`. -/
def Resurrects : NodeTree → List (Fin 16) → Prop
  | .ext p c, q => p <+: q ∧ Resurrects c (q.drop p.length)
  | .branch cs v, i :: q => (Sole (cs i) q ∧ v = [] ∧ used cs = 1) ∨ Resurrects (cs i) q
  | _, _ => False

/-- The tree is a branch with one used slot that loses its value, or its last child. -/
def Collapses : NodeTree → List (Fin 16) → Prop
  | .branch cs v, [] => v ≠ [] ∧ used cs = 1
  | .branch cs v, i :: q => Sole (cs i) q ∧ v = [] ∧ used cs = 1
  | _, _ => False

/-- The key ends at a branch with a value and two or more used slots, and `P`
holds of its slots. -/
def AtCrowded (P : (Fin 16 → NodeTree) → Prop) : NodeTree → List (Fin 16) → Prop
  | .ext p c, q => p <+: q ∧ AtCrowded P c (q.drop p.length)
  | .branch cs v, [] => v ≠ [] ∧ 2 ≤ used cs ∧ P cs
  | .branch cs _, i :: q => AtCrowded P (cs i) q
  | _, _ => False

/-- The slot the deletion clears there is in use. -/
def Loses (junk : Option (Fin 16)) : NodeTree → List (Fin 16) → Prop :=
  AtCrowded fun cs => ∃ j, junk = some j ∧ (cs j).isEmpty = false

/-! ## Used slots -/

theorem used_cases (cs : Fin 16 → NodeTree) : used cs = 0 ∨ used cs = 1 ∨ 2 ≤ used cs := by omega

/-- Beside the one used slot all are empty. -/
theorem used_one_other {cs : Fin 16 → NodeTree} (h : used cs = 1) {i : Fin 16}
    (hi : (cs i).isEmpty = false) {j : Fin 16} (hj : j ≠ i) : (cs j).isEmpty = true := by
  obtain ⟨k, -, -, hother⟩ := used_eq_one h
  have hik : i = k := by
    by_contra hne
    rw [hother i hne] at hi
    cases hi
  apply hother j
  rw [← hik]
  exact hj

theorem Sole.isEmpty {t : NodeTree} {q : List (Fin 16)} (h : Sole t q) : t.isEmpty = false := by
  cases t with
  | empty => exact h.elim
  | _ => rfl

theorem AtCrowded.isEmpty {P : (Fin 16 → NodeTree) → Prop} {t : NodeTree} {q : List (Fin 16)}
    (h : AtCrowded P t q) : t.isEmpty = false := by
  cases t with
  | empty => exact h.elim
  | _ => rfl

/-! ## What a branch becomes -/

theorem prune_zero {cs : Fin 16 → NodeTree} (h : used cs = 0) (idx : Option (Fin 16)) :
    prune cs [] idx = .ok .deleted := by
  unfold prune
  rw [if_pos ⟨h, rfl⟩]

theorem prune_one {cs : Fin 16 → NodeTree} (h : used cs = 1) (idx : Option (Fin 16)) :
    ∃ i, prune cs [] idx = .ok (.useless (liftSlot i (cs i))) ∧ (cs i).isEmpty = false ∧
      ∀ j, j ≠ i → (cs j).isEmpty = true := by
  obtain ⟨i, hi, hne, hj⟩ := used_eq_one h
  refine ⟨i, ?_, hne, hj⟩
  unfold prune
  rw [if_neg (by omega), if_neg (by omega), if_pos ⟨h, rfl⟩, hi]

theorem prune_many {cs : Fin 16 → NodeTree} (h : 2 ≤ used cs) (idx : Option (Fin 16)) :
    prune cs [] idx = match idx with
      | some i => .ok (.updated (.branch (Function.update cs i .empty) []))
      | none => .error .pastEnd := by
  have h0 : ¬ used cs = 0 := by omega
  have h1 : ¬ used cs = 1 := by omega
  cases idx <;> simp [prune, h0, h1]

/-- After a child was deleted its slot still counts as used. -/
theorem prune_child {cs : Fin 16 → NodeTree} {i : Fin 16} (hi : (cs i).isEmpty = false)
    (v : Bytes) :
    prune cs v (some i) = if used cs = 1 ∧ v = [] then .ok (.useless (liftSlot i (cs i)))
      else .ok (.updated (.branch (Function.update cs i .empty) v)) := by
  have h0 := used_pos hi
  unfold prune
  rw [if_neg (fun h => h0 h.1), if_neg h0]
  by_cases h : used cs = 1 ∧ v = []
  · obtain ⟨j, hj, -, hother⟩ := used_eq_one h.1
    have hij : i = j := by
      by_contra hne
      rw [hother i hne] at hi
      cases hi
    rw [if_pos h, if_pos h, hj, hij]
  · rw [if_neg h, if_neg h]

/-! ## Entries of the rebuilt nodes -/

@[simp] theorem entry_liftSlot_nil (i : Fin 16) (t : NodeTree) : (liftSlot i t).entry [] = none := by
  cases t <;> simp [liftSlot, Tree.entry_leaf, Tree.entry_ext]

@[simp] theorem entry_liftSlot_cons (i j : Fin 16) (t : NodeTree) (q : List (Fin 16)) :
    (liftSlot i t).entry (j :: q) = if j = i then t.entry q else none := by
  by_cases h : j = i
  · subst h
    cases t <;> simp [liftSlot, Tree.entry_leaf, Tree.entry_ext]
  · have h' : ¬ i = j := fun h' => h h'.symm
    cases t <;> simp [liftSlot, Tree.entry_leaf, Tree.entry_ext, h, h']

/-- Lifting the only used slot keeps what lies below the branch. -/
theorem entry_liftSlot_only {cs : Fin 16 → NodeTree} {i : Fin 16}
    (hj : ∀ j, j ≠ i → (cs j).isEmpty = true) (v : Bytes) (k : Fin 16) (x : List (Fin 16)) :
    (liftSlot i (cs i)).entry (k :: x) = (Tree.branch cs v).entry (k :: x) := by
  rw [entry_liftSlot_cons, Tree.entry_branch_cons]
  by_cases hki : k = i
  · rw [if_pos hki, hki]
  · rw [if_neg hki, (Tree.isEmpty_iff _).mp (hj k hki)]
    rfl

theorem entry_graft (p q : List (Fin 16)) (t : NodeTree) :
    (graft p t).entry q = if p <+: q then t.entry (q.drop p.length) else none := by
  by_cases h : p <+: q
  · obtain ⟨r, rfl⟩ := h
    cases t <;> simp [graft, Tree.entry_leaf, Tree.entry_ext, List.prefix_append_right_inj]
  · have hp : ∀ p', ¬ p ++ p' <+: q := fun p' h' => h ((List.prefix_append p p').trans h')
    have hq : ∀ p', p ++ p' ≠ q := fun p' h' => hp p' (h' ▸ List.prefix_rfl)
    cases t <;> simp [graft, Tree.entry_leaf, Tree.entry_ext, h, hp, hq]

/-! ## Which deletions fail, and which leave nothing -/

/-- Such a tree has no other entry. -/
theorem Sole.entry_ne {t : NodeTree} {q x : List (Fin 16)} (h : Sole t q) (hx : x ≠ q) :
    t.entry x = none := by
  induction t generalizing q x with
  | empty => exact h.elim
  | leaf p v => rw [Tree.entry_leaf, if_neg (fun hp => hx (hp.symm.trans h))]
  | ext p c ih =>
    obtain ⟨⟨r, rfl⟩, hs⟩ := h
    rw [List.drop_left] at hs
    rw [Tree.entry_ext]
    split
    · next hpx =>
      obtain ⟨y, rfl⟩ := hpx
      rw [List.drop_left]
      exact ih hs (fun hy => hx (by rw [hy]))
    · rfl
  | branch cs v ih =>
    obtain ⟨rfl, -, h0⟩ := h
    cases x with
    | nil => exact absurd rfl hx
    | cons i x =>
      rw [Tree.entry_branch_cons, (Tree.isEmpty_iff _).mp ((used_eq_zero_iff cs).mp h0 i)]
      rfl

/-- **A deletion reports "deleted" when nothing else is below.** -/
theorem erase_deleted_iff (junk : Option (Fin 16)) {t : NodeTree} {q : List (Fin 16)} :
    erase junk t q = .ok .deleted ↔ Sole t q := by
  induction t generalizing q with
  | empty => simp [erase, Sole]
  | leaf p v =>
    simp only [erase, Sole]
    split <;> simp_all
  | ext p c ih =>
    simp only [erase, Sole]
    by_cases h : p <+: q
    · rw [if_pos h, ← ih]
      rcases erase junk c (q.drop p.length) with e | (_ | t | t) <;> simp [h]
    · simp [h]
  | branch cs v ih =>
    cases q with
    | nil =>
      by_cases hv : v = []
      · simp [erase, Sole, hv]
      · rw [erase, if_neg hv]
        rcases used_cases cs with h | h | h
        · simp [prune_zero h, Sole, hv, h]
        · obtain ⟨i, hi, -⟩ := prune_one h junk
          simp [hi, Sole, h]
        · rw [prune_many h]
          cases junk <;> simp [Sole] <;> omega
    | cons i q =>
      have hne : ¬ Sole (.branch cs v) (i :: q) := fun h => by cases h.1
      simp only [erase, hne, iff_false]
      split
      · simp
      · next hi =>
        rcases erase junk (cs i) q with e | (_ | t | t)
        · simp
        · rw [prune_child (by simpa using hi)]
          by_cases h : used cs = 1 ∧ v = [] <;> simp [h]
        · simp
        · simp

/-- **Which deletions throw**: the key has no entry, or the slot to clear does not exist. -/
theorem erase_error_iff (junk : Option (Fin 16)) {t : NodeTree} {d : Nat} (hw : Fits t d)
    (hne : t.isEmpty = false) {q : List (Fin 16)} {e : Error} :
    erase junk t q = .error e ↔ (e = .keyNotFound ∧ t.entry q = none) ∨
      (e = .pastEnd ∧ junk = none ∧ AtCrowded (fun _ => True) t q) := by
  induction t generalizing d q with
  | empty => simp at hne
  | leaf p v =>
    simp only [erase, AtCrowded, Tree.entry_leaf]
    split
    · simp
    · simp [eq_comm]
  | ext p c ih =>
    obtain ⟨-, -, hb, hc⟩ := hw
    have hcne : c.isEmpty = false := by
      obtain ⟨cs, v, rfl⟩ := (Tree.isBranch_iff c).mp hb
      rfl
    simp only [erase, AtCrowded, Tree.entry_ext]
    by_cases h : p <+: q
    · have key := ih hc hcne (q := q.drop p.length)
      simp only [h, if_true, true_and]
      rw [← key]
      rcases erase junk c (q.drop p.length) with e' | (_ | t | t) <;> simp
    · simp [h, eq_comm]
  | branch cs v ih =>
    cases q with
    | nil =>
      simp only [erase, AtCrowded, Tree.entry_branch_nil]
      by_cases hv : v = []
      · simp [hv, eq_comm]
      · rw [if_neg hv, if_neg (show v ≠ ∅ from hv)]
        rcases used_cases cs with h | h | h
        · simp [prune_zero h, h]
        · obtain ⟨i, hi, -⟩ := prune_one h junk
          simp [hi, h]
        · rw [prune_many h]
          cases junk <;> simp [hv, h, eq_comm]
    | cons i q =>
      simp only [erase, AtCrowded, Tree.entry_branch_cons]
      cases hi : (cs i).isEmpty with
      | true =>
        rw [(Tree.isEmpty_iff _).mp hi]
        simp [AtCrowded, eq_comm]
      | false =>
        have key := ih i (hw.2 i hi).2 hi (q := q)
        rw [← key, if_neg (by simp)]
        rcases erase junk (cs i) q with e' | (_ | t | t)
        · simp
        · rw [prune_child hi]
          by_cases h : used cs = 1 ∧ v = [] <;> simp [h]
        · simp
        · simp

theorem erase_keyNotFound_iff (junk : Option (Fin 16)) {t : NodeTree} {d : Nat} (hw : Fits t d)
    (hne : t.isEmpty = false) {q : List (Fin 16)} :
    erase junk t q = .error .keyNotFound ↔ t.entry q = none := by
  rw [erase_error_iff junk hw hne]
  simp

/-! ## What a deletion can answer -/

/-- The tree a deletion leaves. -/
def Erased.tree : Erased → NodeTree
  | .deleted => .empty
  | .updated t => t
  | .useless t => t

theorem erase_ext_cases {junk : Option (Fin 16)} {p q : List (Fin 16)} {c : NodeTree} {r : Erased}
    (h : erase junk (.ext p c) q = .ok r) :
    p <+: q ∧ ∃ r', erase junk c (q.drop p.length) = .ok r' ∧
      ((r' = .deleted ∧ r = .deleted) ∨ (∃ t, r' = .updated t ∧ r = .updated (.ext p t)) ∨
        ∃ t, r' = .useless t ∧ r = .updated (graft p t)) := by
  simp only [erase] at h
  by_cases hp : p <+: q
  · rw [if_pos hp] at h
    refine ⟨hp, ?_⟩
    rcases he : erase junk c (q.drop p.length) with e | (_ | t | t) <;> rw [he] at h <;>
      simp_all
  · rw [if_neg hp] at h
    cases h

theorem erase_value_cases {junk : Option (Fin 16)} {cs : Fin 16 → NodeTree} {v : Bytes}
    {r : Erased} (h : erase junk (.branch cs v) [] = .ok r) :
    v ≠ [] ∧ ((used cs = 0 ∧ r = .deleted) ∨
      (∃ i, used cs = 1 ∧ (∀ j, j ≠ i → (cs j).isEmpty = true) ∧
        r = .useless (liftSlot i (cs i))) ∨
      ∃ j, 2 ≤ used cs ∧ junk = some j ∧
        r = .updated (.branch (Function.update cs j .empty) [])) := by
  simp only [erase] at h
  by_cases hv : v = []
  · rw [if_pos hv] at h
    cases h
  rw [if_neg hv] at h
  refine ⟨hv, ?_⟩
  rcases used_cases cs with h0 | h1 | hu
  · rw [prune_zero h0] at h
    cases h
    exact .inl ⟨h0, rfl⟩
  · obtain ⟨i, hi, -, hj⟩ := prune_one h1 junk
    rw [hi] at h
    cases h
    exact .inr (.inl ⟨i, h1, hj, rfl⟩)
  · rw [prune_many hu] at h
    cases junk with
    | none => cases h
    | some j =>
      cases h
      exact .inr (.inr ⟨j, hu, rfl, rfl⟩)

theorem erase_child_cases {junk : Option (Fin 16)} {cs : Fin 16 → NodeTree} {v : Bytes}
    {i : Fin 16} {q : List (Fin 16)} {r : Erased}
    (h : erase junk (.branch cs v) (i :: q) = .ok r) :
    (cs i).isEmpty = false ∧
      ((Sole (cs i) q ∧ v = [] ∧ used cs = 1 ∧ r = .useless (liftSlot i (cs i))) ∨
        (¬ (Sole (cs i) q ∧ v = [] ∧ used cs = 1) ∧ ∃ r', erase junk (cs i) q = .ok r' ∧
          r = .updated (.branch (Function.update cs i r'.tree) v))) := by
  simp only [erase] at h
  cases hi : (cs i).isEmpty with
  | true =>
    rw [if_pos hi] at h
    cases h
  | false =>
    rw [if_neg (by simp [hi])] at h
    refine ⟨rfl, ?_⟩
    have hsole := erase_deleted_iff junk (t := cs i) (q := q)
    rcases he : erase junk (cs i) q with e | (_ | t | t) <;> rw [he] at h hsole
    · cases h
    · have hs := hsole.mp rfl
      simp only [prune_child hi] at h
      by_cases hu : used cs = 1 ∧ v = []
      · rw [if_pos hu] at h
        cases h
        exact .inl ⟨hs, hu.2, hu.1, rfl⟩
      · rw [if_neg hu] at h
        cases h
        exact .inr ⟨fun hx => hu ⟨hx.2.2, hx.2.1⟩, _, rfl, rfl⟩
    · cases h
      exact .inr ⟨fun hx => absurd (hsole.mpr hx.1) (by simp), _, rfl, rfl⟩
    · cases h
      exact .inr ⟨fun hx => absurd (hsole.mpr hx.1) (by simp), _, rfl, rfl⟩

/-- Through an extension a deletion acts on what is below. -/
theorem entry_erase_ext {junk : Option (Fin 16)} {p q : List (Fin 16)} {c : NodeTree} {r : Erased}
    (h : erase junk (.ext p c) q = .ok r) :
    p <+: q ∧ ∃ r', erase junk c (q.drop p.length) = .ok r' ∧
      ∀ x, r.tree.entry x = if p <+: x then r'.tree.entry (x.drop p.length) else none := by
  obtain ⟨hp, r', hr', hcases⟩ := erase_ext_cases h
  refine ⟨hp, r', hr', ?_⟩
  intro x
  rcases hcases with ⟨rfl, rfl⟩ | ⟨t, rfl, rfl⟩ | ⟨t, rfl, rfl⟩
  · simp [Erased.tree]
  · exact Tree.entry_ext p x t
  · exact entry_graft p x t

/-! ## Entries after a deletion -/

/-- **The entry of the key is gone, unless it resurrects.** -/
theorem entry_erase_self {junk : Option (Fin 16)} {t : NodeTree} {q : List (Fin 16)} {r : Erased}
    (h : erase junk t q = .ok r) :
    (Resurrects t q → r.tree.entry q = t.entry q) ∧ (¬ Resurrects t q → r.tree.entry q = none) := by
  induction t generalizing q r with
  | empty => cases h
  | leaf p v =>
    simp only [erase] at h
    split at h <;> cases h
    exact ⟨False.elim, fun _ => rfl⟩
  | ext p c ih =>
    obtain ⟨hp, r', hr', hent⟩ := entry_erase_ext h
    have key := ih hr'
    rw [hent, Tree.entry_ext, if_pos hp, if_pos hp]
    constructor
    · intro hr
      exact key.1 hr.2
    · intro hr
      apply key.2
      intro h'
      exact hr ⟨hp, h'⟩
  | branch cs v ih =>
    cases q with
    | nil =>
      refine ⟨False.elim, ?_⟩
      intro _
      obtain ⟨-, ⟨-, rfl⟩ | ⟨i, -, -, rfl⟩ | ⟨j, -, -, rfl⟩⟩ := erase_value_cases h
      · rfl
      · exact entry_liftSlot_nil i (cs i)
      · rfl
    | cons i q =>
      obtain ⟨-, ⟨hs, hv, hu, rfl⟩ | ⟨hn, r', hr', rfl⟩⟩ := erase_child_cases h
      · constructor
        · intro _
          simp [Erased.tree]
        · intro hr
          exact absurd (Or.inl ⟨hs, hv, hu⟩) hr
      · have key := ih i hr'
        simp only [Erased.tree, Tree.entry_branch_cons, Function.update_self]
        constructor
        · intro hr
          rcases hr with hr | hr
          · exact absurd hr hn
          · exact key.1 hr
        · intro hr
          apply key.2
          intro h'
          exact hr (Or.inr h')

/-- **Every other entry is kept**, unless the slot cleared was in use. -/
theorem entry_erase_ne {junk : Option (Fin 16)} {t : NodeTree} {q : List (Fin 16)} {r : Erased}
    (h : erase junk t q = .ok r) (hl : ¬ Loses junk t q) {x : List (Fin 16)} (hx : x ≠ q) :
    r.tree.entry x = t.entry x := by
  induction t generalizing q r x with
  | empty => cases h
  | leaf p v =>
    simp only [erase] at h
    split at h <;> cases h
    next hp => rw [Tree.entry_leaf, if_neg (fun h' => hx (h'.symm.trans hp))]; rfl
  | ext p c ih =>
    obtain ⟨hp, r', hr', hent⟩ := entry_erase_ext h
    rw [hent, Tree.entry_ext]
    split
    · next hpx =>
      apply ih hr'
      · intro h'
        exact hl ⟨hp, h'⟩
      · intro h'
        rw [drop_eq_iff hpx, ← List.prefix_append_drop hp] at h'
        exact hx h'
    · rfl
  | branch cs v ih =>
    cases q with
    | nil =>
      cases x with
      | nil => exact absurd rfl hx
      | cons k x =>
        obtain ⟨hv, ⟨h0, rfl⟩ | ⟨i, -, hj, rfl⟩ | ⟨j, hu, hjunk, rfl⟩⟩ := erase_value_cases h
        · rw [Tree.entry_branch_cons, (Tree.isEmpty_iff _).mp ((used_eq_zero_iff cs).mp h0 k)]
          rfl
        · exact entry_liftSlot_only hj v k x
        · -- the slot that is cleared was empty before
          have hje : (cs j).isEmpty = true := by
            by_contra hne
            exact hl ⟨hv, hu, j, hjunk, by simpa using hne⟩
          rw [Erased.tree, ← (Tree.isEmpty_iff _).mp hje, Function.update_eq_self]
          rfl
    | cons i q =>
      obtain ⟨-, ⟨hs, hv, hu, rfl⟩ | ⟨hn, r', hr', rfl⟩⟩ := erase_child_cases h
      · -- the one used slot is lifted, and it is the one of the key
        cases x with
        | nil => simp [Erased.tree, hv]
        | cons k x => exact entry_liftSlot_only (fun j hj => used_one_other hu hs.isEmpty hj) v k x
      · cases x with
        | nil => rfl
        | cons k x =>
          simp only [Erased.tree, Tree.entry_branch_cons]
          by_cases hki : k = i
          · subst hki
            rw [Function.update_self]
            apply ih k hr' hl
            intro h'
            exact hx (by rw [h'])
          · rw [Function.update_of_ne hki]

/-- A deletion puts no value into a leaf that was not in one before. -/
theorem leaves_erase {P : Bytes → Prop} {junk : Option (Fin 16)} {t : NodeTree}
    (ht : Tree.Leaves P t) {q : List (Fin 16)} {r : Erased} (h : erase junk t q = .ok r) :
    Tree.Leaves P r.tree := by
  have hlift : ∀ (i : Fin 16) (t : NodeTree), Tree.Leaves P t → Tree.Leaves P (liftSlot i t) := by
    intro i t h
    cases t <;> exact h
  induction t generalizing q r with
  | empty => cases h
  | leaf p v =>
    simp only [erase] at h
    split at h <;> cases h
    trivial
  | ext p c ih =>
    obtain ⟨-, r', hr', ⟨-, rfl⟩ | ⟨t, rfl, rfl⟩ | ⟨t, rfl, rfl⟩⟩ := erase_ext_cases h
    · trivial
    · have hc : Tree.Leaves P (Erased.updated t).tree := ih ht hr'
      exact hc
    · have hc : Tree.Leaves P (Erased.useless t).tree := ih ht hr'
      cases t <;> exact hc
  | branch cs v ih =>
    cases q with
    | nil =>
      obtain ⟨-, ⟨-, rfl⟩ | ⟨i, -, -, rfl⟩ | ⟨j, -, -, rfl⟩⟩ := erase_value_cases h
      · trivial
      · exact hlift i _ (ht i)
      · exact Tree.leaves_update ht (show Tree.Leaves P .empty from trivial) j
    | cons i q =>
      obtain ⟨-, ⟨-, -, -, rfl⟩ | ⟨-, r', hr', rfl⟩⟩ := erase_child_cases h
      · exact hlift i _ (ht i)
      · exact Tree.leaves_update ht (ih i (ht i) hr') i

/-! ## Which deletions `remove` accepts -/

theorem erase_useless_iff (junk : Option (Fin 16)) {t : NodeTree} {q : List (Fin 16)} :
    (∃ t', erase junk t q = .ok (.useless t')) ↔ Collapses t q := by
  constructor
  · rintro ⟨t', h⟩
    cases t with
    | empty => cases h
    | leaf p v =>
      simp only [erase] at h
      split at h <;> cases h
    | ext p c =>
      obtain ⟨-, r', -, ⟨-, hr⟩ | ⟨t, -, hr⟩ | ⟨t, -, hr⟩⟩ := erase_ext_cases h <;> cases hr
    | branch cs v =>
      cases q with
      | nil =>
        obtain ⟨hv, ⟨-, hr⟩ | ⟨i, hu, -, -⟩ | ⟨j, -, -, hr⟩⟩ := erase_value_cases h
        · cases hr
        · exact ⟨hv, hu⟩
        · cases hr
      | cons i q =>
        obtain ⟨-, ⟨hs, hv, hu, -⟩ | ⟨-, r', -, hr⟩⟩ := erase_child_cases h
        · exact ⟨hs, hv, hu⟩
        · cases hr
  · intro h
    cases t with
    | empty => exact h.elim
    | leaf p v => exact h.elim
    | ext p c => exact h.elim
    | branch cs v =>
      cases q with
      | nil =>
        obtain ⟨i, hi, -⟩ := prune_one h.2 junk
        exact ⟨_, by rw [erase, if_neg h.1, hi]⟩
      | cons i q =>
        obtain ⟨hs, hv, hu⟩ := h
        have hi : (cs i).isEmpty = false := hs.isEmpty
        refine ⟨liftSlot i (cs i), ?_⟩
        simp only [erase, hi, (erase_deleted_iff junk).mpr hs, prune_child hi]
        simp [hu, hv]

/-- **When `DeleteNode` answers "updated".** -/
theorem erase_updated_iff {junk : Option (Fin 16)} {t : NodeTree} {d : Nat} (hw : Fits t d)
    (hne : t.isEmpty = false) {q : List (Fin 16)} :
    (∃ t', erase junk t q = .ok (.updated t')) ↔
      t.entry q ≠ none ∧ ¬ Sole t q ∧ ¬ Collapses t q ∧
        ¬ (junk = none ∧ AtCrowded (fun _ => True) t q) := by
  have herr := fun e => erase_error_iff junk hw hne (q := q) (e := e)
  have hdel := erase_deleted_iff junk (t := t) (q := q)
  have huse := erase_useless_iff junk (t := t) (q := q)
  rw [← hdel, ← huse]
  constructor
  · rintro ⟨t', h⟩
    rw [h] at herr ⊢
    have h1 := herr .keyNotFound
    have h2 := herr .pastEnd
    simp at h1 h2
    exact ⟨h1, by simp, by simp, fun h' => h2 h'.1 h'.2⟩
  · rintro ⟨h1, h2, h3, h4⟩
    rcases h : erase junk t q with e | (_ | t' | t')
    · rcases (herr e).mp h with ⟨-, he⟩ | ⟨-, he⟩
      · exact absurd he h1
      · exact absurd he h4
    · exact absurd h h2
    · exact ⟨t', rfl⟩
    · exact absurd ⟨t', h⟩ h3

/-! ## The lost slot -/

/-- For every such key some `idx` names a slot in use. -/
theorem AtCrowded.exists_loses {t : NodeTree} {q : List (Fin 16)}
    (h : AtCrowded (fun _ => True) t q) : ∃ j, Loses (some j) t q := by
  induction t generalizing q with
  | empty => exact h.elim
  | leaf p v => exact h.elim
  | ext p c ih =>
    obtain ⟨j, hj⟩ := ih h.2
    exact ⟨j, h.1, hj⟩
  | branch cs v ih =>
    cases q with
    | nil =>
      obtain ⟨hv, hu, -⟩ := h
      obtain ⟨j, hj⟩ : ∃ j, (cs j).isEmpty = false := by
        by_contra hall
        have h0 := (used_eq_zero_iff cs).mpr (by simpa using hall)
        omega
      exact ⟨j, hv, hu, j, rfl, hj⟩
    | cons i q => exact ih i h

theorem Loses.atCrowded {junk : Option (Fin 16)} {t : NodeTree} {q : List (Fin 16)}
    (h : Loses junk t q) : AtCrowded (fun _ => True) t q := by
  induction t generalizing q with
  | empty => exact h.elim
  | leaf p v => exact h.elim
  | ext p c ih => exact ⟨h.1, ih h.2⟩
  | branch cs v ih =>
    cases q with
    | nil => exact ⟨h.1, h.2.1, trivial⟩
    | cons i q => exact ih i h

/-- **Clearing a used slot loses an entry.** -/
theorem Loses.erase {junk : Option (Fin 16)} {t : NodeTree} (ht : t.Canonical)
    {q : List (Fin 16)} (h : Loses junk t q) :
    ∃ t', Mpt.erase junk t q = .ok (.updated t') ∧
      ∃ j x w, t.entry (q ++ j :: x) = some w ∧ t'.read (q ++ j :: x) = none := by
  induction t generalizing q with
  | empty => exact h.elim
  | leaf p v => exact h.elim
  | ext p c ih =>
    obtain ⟨⟨r, rfl⟩, hl⟩ := h
    rw [List.drop_left] at hl
    obtain ⟨t', ht', j, x, w, he, hr⟩ := ih ht.2.2 hl
    refine ⟨.ext p t', ?_, j, x, w, ?_, ?_⟩
    · simp [Mpt.erase, ht']
    · rw [List.append_assoc, Tree.entry_ext_append, he]
    · simpa [Tree.read, Tree.find] using hr
  | branch cs v ih =>
    cases q with
    | nil =>
      obtain ⟨hv, hu, j, rfl, hj⟩ := h
      obtain ⟨x, w, hx⟩ := (ht.2 j hj).exists_entry
      refine ⟨.branch (Function.update cs j .empty) [], ?_, j, x, w, hx, ?_⟩
      · rw [Mpt.erase, if_neg hv, prune_many hu]
      · simp [Tree.read, Tree.find]
    | cons i q =>
      have hl : Loses junk (cs i) q := h
      have hi : (cs i).isEmpty = false := hl.isEmpty
      obtain ⟨t', ht', j, x, w, he, hr⟩ := ih i (ht.2 i hi) hl
      refine ⟨.branch (Function.update cs i t') v, ?_, j, x, w, he, ?_⟩
      · simp [Mpt.erase, hi, ht']
      · simpa [Tree.read, Tree.find] using hr

end Core.Mpt
