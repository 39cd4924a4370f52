import ZkevmFramework.Lib.PatriciaInsert

/-!
# Insertion letter by letter

A tree whose keys all begin with the letter `a` is `lift a t`, with `t` what
remains below the letter.  Every shaped tree is built from the empty tree,
leaves with an empty path and branches by lifting (`Shaped.letters`).  An
insertion reads one letter of it: below `a` it goes on into `t`, and elsewhere
the lifted tree is as good as the branch over `t` alone:

    insert (lift a t) (a :: q) v = lift a (insert t q v)              (insert_lift_self)
    x ≠ a :: … → insert (lift a t) x v = insert (lone a t) x v        (insert_lift_off)

So two insertions commute when their keys differ, the later one stands when they
do not, and inserting what a lookup answers changes nothing, whatever the tree.
-/

namespace Patricia

namespace Tree

variable {κ α : Type}

/-- An extension has a non-empty path and leads to a branch. -/
def Shaped : Tree κ α → Prop
  | .empty => True
  | .leaf _ _ => True
  | .ext p c => p ≠ [] ∧ c.isBranch = true ∧ Shaped c
  | .branch cs _ => ∀ i, Shaped (cs i)

theorem WF.shaped {ok : α → Prop} {t : Tree κ α} {d : Nat} (h : WF ok t d) : Shaped t := by
  induction t generalizing d with
  | empty => trivial
  | leaf p v => trivial
  | ext p c ih => exact ⟨h.1, h.2.2.1, ih h.2.2.2⟩
  | branch cs v ih => exact fun i => ih i (h.slot i)

/-- The tree below one more letter. -/
def lift (a : κ) : Tree κ α → Tree κ α
  | .empty => .empty
  | .leaf p v => .leaf (a :: p) v
  | .ext p c => .ext (a :: p) c
  | .branch cs v => .ext [a] (.branch cs v)

theorem lift_of_isBranch (a : κ) {t : Tree κ α} (h : t.isBranch = true) : lift a t = .ext [a] t := by
  obtain ⟨cs, v, rfl⟩ := (isBranch_iff t).mp h
  rfl

theorem lift_wrap (a : κ) (l : List κ) {t : Tree κ α} (h : t.isBranch = true) :
    lift a (wrap l t) = wrap (a :: l) t := by
  cases l with
  | nil => exact lift_of_isBranch a h
  | cons b l => rfl

theorem shaped_lift (a : κ) {t : Tree κ α} (ht : Shaped t) : Shaped (lift a t) := by
  cases t with
  | empty => trivial
  | leaf p v => trivial
  | ext p c => exact ⟨by simp, ht.2⟩
  | branch cs v => exact ⟨by simp, rfl, ht⟩

section Update

variable [DecidableEq κ]

theorem shaped_update {cs : κ → Tree κ α} (hcs : ∀ i, Shaped (cs i)) (a : κ) {t : Tree κ α}
    (ht : Shaped t) (i : κ) : Shaped (Function.update cs a t i) := by
  by_cases h : i = a
  · subst h; rwa [Function.update_self]
  · rw [Function.update_of_ne h]; exact hcs i

/-- One slot in use. -/
theorem shaped_single (a : κ) {t : Tree κ α} (ht : Shaped t) (i : κ) :
    Shaped (Function.update (fun _ => (empty : Tree κ α)) a t i) := by
  have hnil : ∀ i : κ, Shaped ((fun _ => .empty : κ → Tree κ α) i) := fun _ => trivial
  exact shaped_update hnil a ht i

variable [EmptyCollection α]

/-- The branch over one tree and nothing else. -/
def lone (a : κ) (t : Tree κ α) : Tree κ α := .branch (Function.update (fun _ => .empty) a t) ∅

theorem shaped_lone (a : κ) {t : Tree κ α} (ht : Shaped t) : Shaped (lone a t) :=
  shaped_single a ht

/-- **Induction on the letters of a shaped tree.** -/
theorem Shaped.letters {motive : (t : Tree κ α) → Shaped t → Prop} (empty : motive .empty trivial)
    (leaf : ∀ v, motive (.leaf [] v) trivial)
    (lift : ∀ a t (ht : Shaped t), t.isEmpty = false → motive t ht →
      motive (lone a t) (shaped_lone a ht) → motive (lift a t) (shaped_lift a ht))
    (branch : ∀ (cs : κ → Tree κ α) v (hcs : ∀ i, Shaped (cs i)), (∀ i, motive (cs i) (hcs i)) →
      motive (.branch cs v) hcs) (t : Tree κ α) (ht : Shaped t) : motive t ht := by
  have hlone : ∀ a t (ht : Shaped t), motive t ht → motive (lone a t) (shaped_lone a ht) := by
    intro a t ht h
    refine branch _ _ (shaped_single a ht) fun i => ?_
    by_cases hi : i = a
    · subst hi
      simpa only [Function.update_self] using h
    · simpa only [Function.update_of_ne hi] using empty
  induction t with
  | empty => exact empty
  | leaf p v =>
    induction p with
    | nil => exact leaf v
    | cons a p ih =>
      have hp : Shaped (.leaf p v) := trivial
      exact lift a (.leaf p v) hp rfl (ih hp) (hlone a _ hp (ih hp))
  | ext p c ih =>
    obtain ⟨hp, hb, hc⟩ := ht
    obtain ⟨cs, v, rfl⟩ := (isBranch_iff c).mp hb
    induction p with
    | nil => exact absurd rfl hp
    | cons a p ihp =>
      cases p with
      | nil => exact lift a (.branch cs v) hc rfl (ih hc) (hlone a _ hc (ih hc))
      | cons b p =>
        have hp' : b :: p ≠ [] := by simp
        have h := ihp hp'
        exact lift a (.ext (b :: p) (.branch cs v)) ⟨hp', hb, hc⟩ rfl h (hlone a _ _ h)
  | branch cs v ih => exact branch cs v ht fun i => ih i (ht i)

end Update

variable [DecidableEq κ] [EmptyCollection α]

/-! ## One letter of an insertion -/

theorem insert_leaf_cons (w v : α) (a : κ) (q : List κ) : insert (leaf [] w) (a :: q) v =
    branch (Function.update (fun _ => .empty) a (leaf q v)) w := by
  simp [insert, wrap, forkLeaf, setLeaf]

theorem insert_branch_cons (cs : κ → Tree κ α) (w v : α) (a : κ) (q : List κ) :
    insert (branch cs w) (a :: q) v = branch (Function.update cs a (insert (cs a) q v)) w := rfl

theorem insert_lift_self (a : κ) {t : Tree κ α} (hne : t.isEmpty = false) (q : List κ) (v : α) :
    insert (lift a t) (a :: q) v = lift a (insert t q v) := by
  cases t with
  | empty => cases hne
  | leaf p w =>
    rw [lift]
    by_cases h : p = q
    · simp [lift, insert, h]
    · have hpq : a :: p ≠ a :: q := by simpa using h
      rw [insert, if_neg hpq, insert, if_neg h, lift_wrap a _ rfl]
      simp [lcp]
  | ext p c =>
    rw [lift]
    by_cases h : p <+: q
    · have hpq : a :: p <+: a :: q := by simpa using h
      simp [lift, insert, h]
    · have hpq : ¬ a :: p <+: a :: q := by simpa using h
      rw [insert, if_neg hpq, insert, if_neg h, lift_wrap a _ rfl]
      simp [lcp]
  | branch cs w =>
    rw [lift_of_isBranch a (isBranch_insert rfl q v)]
    simp [lift, insert]

theorem insert_lone_self (a : κ) (t : Tree κ α) (q : List κ) (v : α) :
    insert (lone a t) (a :: q) v = lone a (insert t q v) := by
  rw [lone, insert_branch_cons, Function.update_self, Function.update_idem, lone]

/-- A key that does not begin with the letter meets a branch. -/
theorem insert_lift_off {a : κ} {t : Tree κ α} (ht : Shaped t) (hne : t.isEmpty = false)
    {x : List κ} (hx : ∀ q, x ≠ a :: q) (v : α) :
    insert (lift a t) x v = insert (lone a t) x v := by
  cases x with
  | nil =>
    cases t with
    | empty => cases hne
    | leaf p w => simp [lift, insert, wrap, forkLeaf, setLeaf, lone]
    | ext p c =>
      have hp : p.isEmpty = false := by simpa using ht.1
      simp [lift, insert, wrap, forkExt, setLeaf, setExt, lone, hp]
    | branch cs w => simp [lift, insert, wrap, forkExt, setLeaf, setExt, lone]
  | cons b q =>
    have hba : b ≠ a := fun h => hx q (by rw [h])
    have hab : a ≠ b := hba.symm
    rw [lone, insert_branch_cons, Function.update_of_ne hba, Function.update_comm hab]
    cases t with
    | empty => cases hne
    | leaf p w => simp [lift, insert, hab, hba, lcp, wrap, forkLeaf, setLeaf]
    | ext p c =>
      have hp : p.isEmpty = false := by simpa using ht.1
      simp [lift, insert, hab, hba, lcp, wrap, forkExt, setLeaf, setExt, hp]
    | branch cs w => simp [lift, insert, hab, hba, lcp, wrap, forkExt, setLeaf, setExt]

/-- A key begins with the letter, or it does not. -/
theorem letter_cases (a : κ) (x : List κ) : (∃ q, x = a :: q) ∨ ∀ q, x ≠ a :: q := by
  cases x with
  | nil => exact .inr fun q h => by cases h
  | cons b q =>
    by_cases h : b = a
    · exact .inl ⟨q, by rw [h]⟩
    · exact .inr fun q' h' => h (List.cons.inj h').1

/-! ## Shape -/

theorem shaped_insert {t : Tree κ α} (ht : Shaped t) (q : List κ) (v : α) :
    Shaped (insert t q v) := by
  induction t, ht using Shaped.letters generalizing q with
  | empty => trivial
  | leaf w =>
    cases q with
    | nil => trivial
    | cons a q =>
      rw [insert_leaf_cons]
      exact shaped_single a (t := leaf q v) trivial
  | lift a t ht hne ih ihlone =>
    rcases letter_cases a q with ⟨q, rfl⟩ | hq
    · rw [insert_lift_self a hne]
      exact shaped_lift a (ih q)
    · rw [insert_lift_off ht hne hq]
      exact ihlone q
  | branch cs w hcs ih =>
    cases q with
    | nil => exact hcs
    | cons a q => exact shaped_update hcs a (ih a q)

/-! ## Two insertions -/

/-- **The later of two insertions under one key stands.** -/
theorem insert_insert {t : Tree κ α} (ht : Shaped t) (q : List κ) (v w : α) :
    insert (insert t q v) q w = insert t q w := by
  induction t, ht using Shaped.letters generalizing q with
  | empty => simp [insert]
  | leaf u =>
    cases q with
    | nil => simp [insert]
    | cons a q =>
      rw [insert_leaf_cons, insert_leaf_cons, insert_branch_cons, Function.update_self,
        Function.update_idem]
      simp [insert]
  | lift a t ht hne ih ihlone =>
    rcases letter_cases a q with ⟨q, rfl⟩ | hq
    · rw [insert_lift_self a hne, insert_lift_self a (isEmpty_insert t q v),
        insert_lift_self a hne, ih q]
    · rw [insert_lift_off ht hne hq, insert_lift_off ht hne hq, ihlone q]
  | branch cs u hcs ih =>
    cases q with
    | nil => rfl
    | cons a q =>
      rw [insert_branch_cons, insert_branch_cons, insert_branch_cons, Function.update_self,
        Function.update_idem, ih a q]

/-- Leaves come in either order. -/
theorem insert_leaf_comm {p q : List κ} (h : p ≠ q) (v w : α) :
    insert (leaf p v) q w = insert (leaf q w) p v := by
  induction p generalizing q with
  | nil =>
    cases q with
    | nil => exact absurd rfl h
    | cons b q =>
      have hoff : ∀ p, ([] : List κ) ≠ b :: p := fun p h => by cases h
      rw [insert_leaf_cons]
      exact (insert_lift_off (t := leaf q w) trivial rfl hoff v).symm
  | cons a p ih =>
    have hself := insert_lift_self a (t := leaf p v) rfl
    rcases letter_cases a q with ⟨q, rfl⟩ | hq
    · have hpq : p ≠ q := fun h' => h (by rw [h'])
      have hq := insert_lift_self a (t := leaf q w) rfl p v
      exact (hself q w).trans ((congrArg (lift a) (ih hpq)).trans hq.symm)
    · have hoff := insert_lift_off (t := leaf p v) trivial rfl hq w
      cases q with
      | nil =>
        rw [insert_leaf_cons]
        exact hoff
      | cons b q =>
        have hba : b ≠ a := fun h' => hq q (by rw [h'])
        have hp : ∀ r, a :: p ≠ b :: r := fun r h' => hba (List.cons.inj h').1.symm
        have hoff' := insert_lift_off (t := leaf q w) trivial rfl hp v
        refine hoff.trans (Eq.trans ?_ hoff'.symm)
        rw [lone, lone, insert_branch_cons, insert_branch_cons, Function.update_of_ne hba,
          Function.update_of_ne hba.symm, Function.update_comm hba]
        rfl

/-- **Insertions under different keys commute.** -/
theorem insert_comm {t : Tree κ α} (ht : Shaped t) {q p : List κ} (h : q ≠ p) (v w : α) :
    insert (insert t q v) p w = insert (insert t p w) q v := by
  induction t, ht using Shaped.letters generalizing q p v w with
  | empty => exact insert_leaf_comm h v w
  | leaf u =>
    cases q with
    | nil =>
      cases p with
      | nil => exact absurd rfl h
      | cons b p =>
        rw [insert_leaf_cons]
        exact insert_leaf_cons v w b p
    | cons a q =>
      cases p with
      | nil =>
        rw [insert_leaf_cons]
        exact (insert_leaf_cons w v a q).symm
      | cons b p =>
        rw [insert_leaf_cons, insert_leaf_cons, insert_branch_cons, insert_branch_cons]
        by_cases hba : b = a
        · subst hba
          have hqp : q ≠ p := fun h' => h (by rw [h'])
          rw [Function.update_self, Function.update_self, Function.update_idem,
            Function.update_idem, insert_leaf_comm hqp]
        · rw [Function.update_of_ne hba, Function.update_of_ne (Ne.symm hba),
            Function.update_comm hba]
          rfl
  | lift a t ht hne ih ihlone =>
    -- unless both keys begin with the letter, the tree is as good as the branch
    have hoff : ∀ x y (v w : α), (∀ r, x ≠ a :: r) → insert (insert (lift a t) y w) x v =
        insert (insert (lone a t) y w) x v := by
      intro x y v w hx
      rcases letter_cases a y with ⟨y, rfl⟩ | hy
      · rw [insert_lift_self a hne, insert_lone_self,
          insert_lift_off (shaped_insert ht y w) (isEmpty_insert t y w) hx]
      · rw [insert_lift_off ht hne hy]
    rcases letter_cases a q with ⟨q, rfl⟩ | hq
    · rcases letter_cases a p with ⟨p, rfl⟩ | hp
      · have hqp : q ≠ p := fun h' => h (by rw [h'])
        rw [insert_lift_self a hne, insert_lift_self a hne,
          insert_lift_self a (isEmpty_insert t q v), insert_lift_self a (isEmpty_insert t p w),
          ih hqp]
      · rw [hoff p (a :: q) w v hp, insert_lift_off ht hne hp, ihlone h]
    · rw [hoff q p v w hq, insert_lift_off ht hne hq, ihlone h]
  | branch cs u hcs ih =>
    cases q with
    | nil =>
      cases p with
      | nil => exact absurd rfl h
      | cons b p => rfl
    | cons a q =>
      cases p with
      | nil => rfl
      | cons b p =>
        rw [insert_branch_cons, insert_branch_cons, insert_branch_cons, insert_branch_cons]
        by_cases hba : b = a
        · subst hba
          have hqp : q ≠ p := fun h' => h (by rw [h'])
          rw [Function.update_self, Function.update_self, Function.update_idem,
            Function.update_idem, ih b hqp]
        · rw [Function.update_of_ne hba, Function.update_of_ne (Ne.symm hba),
            Function.update_comm hba]

omit [EmptyCollection α] in
theorem find_lift_self (f : α → Option α) (a : κ) (t : Tree κ α) (q : List κ) :
    find f (lift a t) (a :: q) = find f t q := by
  cases t <;> simp [lift, find]

omit [EmptyCollection α] in
theorem find_lift_off (f : α → Option α) {a : κ} (t : Tree κ α) {x : List κ}
    (hx : ∀ q, x ≠ a :: q) : find f (lift a t) x = none := by
  have hpre : ∀ p, ¬ a :: p <+: x := by
    rintro p ⟨r, rfl⟩
    exact hx (p ++ r) rfl
  cases t with
  | empty => rfl
  | leaf p v => rw [lift, find, if_neg (fun h => hx p h.symm)]
  | ext p c => rw [lift, find, if_neg (hpre p)]
  | branch cs v => rw [lift, find, if_neg (hpre [])]

/-- **Inserting what a lookup answers changes nothing.** -/
theorem insert_read {t : Tree κ α} (ht : Shaped t) {q : List κ} {v : α}
    (h : read t q = some v) : insert t q v = t := by
  unfold read at h
  induction t, ht using Shaped.letters generalizing q with
  | empty => cases h
  | leaf u =>
    cases q with
    | nil =>
      cases h
      simp [insert]
    | cons a q => simp [find] at h
  | lift a t ht hne ih ihlone =>
    rcases letter_cases a q with ⟨q, rfl⟩ | hq
    · rw [find_lift_self] at h
      rw [insert_lift_self a hne, ih h]
    · rw [find_lift_off some t hq] at h
      cases h
  | branch cs u hcs ih =>
    cases q with
    | nil =>
      cases h
      rfl
    | cons a q => rw [insert_branch_cons, ih a h, Function.update_eq_self]

end Tree

end Patricia
