import Mathlib.Logic.Function.Basic
import Mathlib.Data.List.Basic

/-!
# Maps filled from a list of entries

A way of storing (`Storing`) gives the key of the entry a value, the new one or the
one that was there, and leaves the other keys alone.  Keeping the first value
(`keepFirst`) and keeping the last (`keepLast`) are two of them.

Where no two entries disagree about a key (`Agree`), every way of storing gives the
same map, which holds exactly the entries (`foldl_eq_some_iff`).
-/

namespace KeyedMap

variable {κ β : Type}

/-- What storing an entry may do to a map. -/
structure Storing (store : (κ → Option β) → κ × β → κ → Option β) : Prop where
  other : ∀ m e k, k ≠ e.1 → store m e k = m k
  self : ∀ m e, store m e e.1 = some e.2 ∨ (store m e e.1 = m e.1 ∧ (m e.1).isSome = true)

/-- No two entries give a key different values. -/
def Agree (l : List (κ × β)) : Prop := ∀ e ∈ l, ∀ e' ∈ l, e.1 = e'.1 → e.2 = e'.2

section Ways

variable [DecidableEq κ]

/-- A key that is there keeps its value. -/
def keepFirst (m : κ → Option β) (e : κ × β) : κ → Option β :=
  if (m e.1).isSome = true then m else Function.update m e.1 (some e.2)

/-- A key that is there gets the new value. -/
def keepLast (m : κ → Option β) (e : κ × β) : κ → Option β := Function.update m e.1 (some e.2)

theorem storing_keepFirst : Storing (keepFirst (κ := κ) (β := β)) where
  other m e k hk := by
    unfold keepFirst
    split
    · rfl
    · rw [Function.update_of_ne hk]
  self m e := by
    unfold keepFirst
    split
    · rename_i h
      exact Or.inr ⟨rfl, h⟩
    · rw [Function.update_self]
      exact Or.inl rfl

theorem storing_keepLast : Storing (keepLast (κ := κ) (β := β)) where
  other m e k hk := by
    unfold keepLast
    rw [Function.update_of_ne hk]
  self m e := by
    unfold keepLast
    rw [Function.update_self]
    exact Or.inl rfl

/-- The last entry is the one that is kept last. -/
theorem foldl_keepLast_append (l : List (κ × β)) (e : κ × β) (m : κ → Option β) :
    (l ++ [e]).foldl keepLast m e.1 = some e.2 := by
  rw [List.foldl_append]
  exact Function.update_self _ _ _

end Ways

section Fold

variable {store : (κ → Option β) → κ × β → κ → Option β}

/-- A value of the filled map was there or is one of the entries. -/
theorem mem_of_foldl (hstore : Storing store) {l : List (κ × β)} {m : κ → Option β} {k : κ} {b : β}
    (h : l.foldl store m k = some b) : m k = some b ∨ (k, b) ∈ l := by
  induction l generalizing m with
  | nil => exact Or.inl h
  | cons e l ih =>
    rcases ih h with h | h
    · by_cases hk : k = e.1
      · subst hk
        rcases hstore.self m e with hnew | ⟨hold, -⟩
        · rw [hnew, Option.some.injEq] at h
          rw [← h]
          exact Or.inr List.mem_cons_self
        · exact Or.inl (hold.symm.trans h)
      · exact Or.inl ((hstore.other m e k hk).symm.trans h)
    · exact Or.inr (List.mem_cons_of_mem e h)

theorem isSome_foldl (hstore : Storing store) {l : List (κ × β)} {m : κ → Option β} {k : κ}
    (h : (m k).isSome = true) : (l.foldl store m k).isSome = true := by
  induction l generalizing m with
  | nil => exact h
  | cons e l ih =>
    apply ih
    by_cases hk : k = e.1
    · subst hk
      rcases hstore.self m e with hnew | ⟨hold, -⟩
      · rw [hnew]
        rfl
      · rw [hold, h]
    · rw [hstore.other m e k hk, h]

theorem isSome_of_mem (hstore : Storing store) {l : List (κ × β)} {e : κ × β} (h : e ∈ l)
    (m : κ → Option β) : (l.foldl store m e.1).isSome = true := by
  induction l generalizing m with
  | nil => cases h
  | cons e' l ih =>
    rcases List.mem_cons.mp h with rfl | h
    · show (l.foldl store (store m e) e.1).isSome = true
      apply isSome_foldl hstore
      rcases hstore.self m e with hnew | ⟨hold, hsome⟩
      · rw [hnew]
        rfl
      · rw [hold, hsome]
    · exact ih h _

/-- **Entries that agree are what the filled map holds.** -/
theorem foldl_eq_some_iff (hstore : Storing store) {l : List (κ × β)} (hagree : Agree l) {k : κ}
    {b : β} : l.foldl store (fun _ => none) k = some b ↔ (k, b) ∈ l := by
  constructor
  · intro h
    exact (mem_of_foldl hstore h).resolve_left (by simp)
  · intro h
    obtain ⟨b', hb'⟩ := Option.isSome_iff_exists.mp (isSome_of_mem hstore h fun _ => none)
    have hmem := (mem_of_foldl hstore hb').resolve_left (by simp)
    have heq : b' = b := hagree _ hmem _ h rfl
    rw [← heq]
    exact hb'

/-- The same entries, in any order and number, give the same map. -/
theorem foldl_congr (hstore : Storing store) {l l' : List (κ × β)} (hagree : Agree l)
    (hmem : ∀ e, e ∈ l ↔ e ∈ l') :
    l.foldl store (fun _ => none) = l'.foldl store fun _ => none := by
  have hagree' : Agree l' := fun e he e' he' =>
    hagree e ((hmem e).mpr he) e' ((hmem e').mpr he')
  funext k
  apply Option.ext
  intro b
  rw [foldl_eq_some_iff hstore hagree, foldl_eq_some_iff hstore hagree', hmem]

end Fold

end KeyedMap
