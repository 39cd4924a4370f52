import Mathlib.Data.Set.Function
import Mathlib.Data.List.GetD

/-!
# Loops that update an array in place

* `rewriteAt f i j`: entry `i` becomes `f` of entry `j` and of itself.  When `f`
  can be undone in its second argument, the update is a bijection on the arrays
  of one length, and so is any sequence of such updates:

      Set.BijOn (fun r => l.foldl step r) s s                           (bijOn_foldl)

* `accumulate op d n key`: every entry of `key` is added to the position it has
  modulo `n`.  Position `j` collects the entries at `j`, `j + n`, …
  (`getD_accumulate`).
-/

namespace InPlace

variable {α : Type}

/-- Bijective steps make a bijective loop. -/
theorem bijOn_foldl {β ι : Type} {step : β → ι → β} {s : Set β} {l : List ι}
    (h : ∀ i ∈ l, Set.BijOn (fun r => step r i) s s) :
    Set.BijOn (fun r => l.foldl step r) s s := by
  induction l with
  | nil => exact Set.bijOn_id s
  | cons i l ih =>
    have hl := ih fun j hj => h j (List.mem_cons_of_mem i hj)
    exact hl.comp (h i List.mem_cons_self)

theorem getD_set_self (d a : α) {i : Nat} {r : List α} (hi : i < r.length) :
    (r.set i a).getD i d = a := by
  rw [List.getD_eq_getElem _ _ (by simpa using hi), List.getElem_set_self]

theorem getD_set_ne (d a : α) {i j : Nat} (r : List α) (hij : i ≠ j) :
    (r.set i a).getD j d = r.getD j d := by
  rw [List.getD_eq_getElem?_getD, List.getElem?_set_ne hij, ← List.getD_eq_getElem?_getD]

theorem set_getD_self (d : α) {i : Nat} {r : List α} (hi : i < r.length) :
    r.set i (r.getD i d) = r := by
  rw [List.getD_eq_getElem _ _ hi, List.set_getElem_self]

/-! ## One entry from another -/

def rewriteAt (d : α) (f : α → α → α) (i j : Nat) (r : List α) : List α :=
  r.set i (f (r.getD j d) (r.getD i d))

@[simp] theorem length_rewriteAt (d : α) (f : α → α → α) (i j : Nat) (r : List α) :
    (rewriteAt d f i j r).length = r.length := List.length_set

/-- Undoing `f` undoes the update: entry `j` is still there. -/
theorem rewriteAt_rewriteAt {d : α} {f g : α → α → α} (hgf : ∀ b a, g b (f b a) = a) {i j : Nat}
    (hij : i ≠ j) {r : List α} (hi : i < r.length) :
    rewriteAt d g i j (rewriteAt d f i j r) = r := by
  unfold rewriteAt
  rw [getD_set_self d _ hi, getD_set_ne d _ r hij, hgf, List.set_set, set_getD_self d hi]

/-- **The update is a bijection on the arrays of length `n`.** -/
theorem bijOn_rewriteAt {d : α} {f g : α → α → α} (hgf : ∀ b a, g b (f b a) = a)
    (hfg : ∀ b a, f b (g b a) = a) {i j n : Nat} (hij : i ≠ j) (hi : i < n) :
    Set.BijOn (rewriteAt d f i j) {r | r.length = n} {r | r.length = n} := by
  have hmaps : ∀ f : α → α → α,
      Set.MapsTo (rewriteAt d f i j) {r | r.length = n} {r | r.length = n} := by
    intro f r hr
    show (rewriteAt d f i j r).length = n
    rw [length_rewriteAt]
    exact hr
  have hinv : Set.InvOn (rewriteAt d g i j) (rewriteAt d f i j)
      {r | r.length = n} {r | r.length = n} := by
    constructor
    · intro r hr
      exact rewriteAt_rewriteAt hgf hij (lt_of_lt_of_eq hi hr.symm)
    · intro r hr
      exact rewriteAt_rewriteAt hfg hij (lt_of_lt_of_eq hi hr.symm)
  exact hinv.bijOn (hmaps f) (hmaps g)

/-! ## Folding a list into an array -/

section Accumulate

variable (op : α → α → α) (d : α) (n : Nat) (key : List α)

/-- The first `k` entries of `key`, added into `n` positions. -/
def accumulateUpTo (k : Nat) : List α :=
  (List.range k).foldl (fun r i => r.set (i % n) (op (r.getD (i % n) d) (key.getD i d)))
    (List.replicate n d)

def accumulate : List α := accumulateUpTo op d n key key.length

/-- What position `j` collects of the first `k` entries. -/
def columnUpTo (j k : Nat) : α :=
  ((List.range k).filter fun i => i % n = j).foldl (fun acc i => op acc (key.getD i d)) d

theorem accumulateUpTo_succ (k : Nat) :
    accumulateUpTo op d n key (k + 1) = (accumulateUpTo op d n key k).set (k % n)
      (op ((accumulateUpTo op d n key k).getD (k % n) d) (key.getD k d)) := by
  simp only [accumulateUpTo, List.range_succ, List.foldl_append, List.foldl_cons, List.foldl_nil]

theorem columnUpTo_succ (j k : Nat) :
    columnUpTo op d n key j (k + 1) = if k % n = j
      then op (columnUpTo op d n key j k) (key.getD k d) else columnUpTo op d n key j k := by
  unfold columnUpTo
  rw [List.range_succ, List.filter_append, List.foldl_append]
  by_cases h : k % n = j
  · simp [h]
  · simp [h]

@[simp] theorem length_accumulateUpTo (k : Nat) : (accumulateUpTo op d n key k).length = n := by
  induction k with
  | zero => simp [accumulateUpTo]
  | succ k ih => rw [accumulateUpTo_succ, List.length_set, ih]

theorem getD_accumulateUpTo {j : Nat} (hj : j < n) (k : Nat) :
    (accumulateUpTo op d n key k).getD j d = columnUpTo op d n key j k := by
  induction k with
  | zero =>
    show (List.replicate n d).getD j d = d
    rw [List.getD_eq_getElem _ _ (by simpa using hj), List.getElem_replicate]
  | succ k ih =>
    rw [accumulateUpTo_succ, columnUpTo_succ]
    by_cases h : k % n = j
    · rw [if_pos h, h, getD_set_self d _ (by simpa using hj), ih]
    · rw [if_neg h, getD_set_ne d _ _ h, ih]

theorem length_accumulate : (accumulate op d n key).length = n := length_accumulateUpTo ..

theorem getD_accumulate {j : Nat} (hj : j < n) :
    (accumulate op d n key).getD j d = columnUpTo op d n key j key.length :=
  getD_accumulateUpTo op d n key hj key.length

/-- **Two lists fold to the same array exactly when every position collects the same.** -/
theorem accumulate_eq_iff (key' : List α) :
    accumulate op d n key = accumulate op d n key' ↔
      ∀ j < n, columnUpTo op d n key j key.length = columnUpTo op d n key' j key'.length := by
  constructor
  · intro h j hj
    rw [← getD_accumulate op d n key hj, h, getD_accumulate op d n key' hj]
  · intro h
    apply List.ext_getElem
    · rw [length_accumulate, length_accumulate]
    · intro j hj hj'
      rw [length_accumulate] at hj
      have he := h j hj
      rw [← getD_accumulate op d n key hj, ← getD_accumulate op d n key' hj] at he
      rwa [List.getD_eq_getElem, List.getD_eq_getElem] at he

end Accumulate

end InPlace
