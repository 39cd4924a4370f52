import Mathlib.Data.List.Basic

/-!
# The last write under each key

A state that is written key by key, where writes under different keys commute
and of two writes under one key the later stands (`Overwrites`).  Then of a
sequence of writes only the last one under each key counts:

    last ws = last ws' → replay op ws s = replay op ws' s                 (replay_congr)
-/

namespace LastWrite

variable {κ α σ : Type}

/-- The writes, first one first. -/
def replay (op : σ → κ → α → σ) : List (κ × α) → σ → σ
  | [], s => s
  | w :: ws, s => replay op ws (op s w.1 w.2)

/-- Writes on the states of the invariant. -/
structure Overwrites (I : σ → Prop) (op : σ → κ → α → σ) : Prop where
  keeps : ∀ {s}, I s → ∀ k v, I (op s k v)
  same : ∀ {s}, I s → ∀ k v w, op (op s k v) k w = op s k w
  comm : ∀ {s}, I s → ∀ {k l}, k ≠ l → ∀ v w, op (op s k v) l w = op (op s l w) k v

theorem Overwrites.keeps_replay {I : σ → Prop} {op : σ → κ → α → σ} (h : Overwrites I op) {s : σ}
    (hs : I s) (ws : List (κ × α)) : I (replay op ws s) := by
  induction ws generalizing s with
  | nil => exact hs
  | cons w ws ih => exact ih (h.keeps hs _ _)

variable [DecidableEq κ]

/-- What was written last under the key. -/
def last : List (κ × α) → κ → Option α
  | [], _ => none
  | w :: ws, k => (last ws k).or (if k = w.1 then some w.2 else none)

/-- The writes under other keys. -/
def without (k : κ) (ws : List (κ × α)) : List (κ × α) := ws.filter fun w => w.1 ≠ k

@[simp] theorem without_cons_self (k : κ) (v : α) (ws : List (κ × α)) :
    without k ((k, v) :: ws) = without k ws := by
  simp [without]

@[simp] theorem without_cons_ne {k : κ} {w : κ × α} (h : w.1 ≠ k) (ws : List (κ × α)) :
    without k (w :: ws) = w :: without k ws := by
  simp [without, h]

theorem last_without (k l : κ) (ws : List (κ × α)) :
    last (without k ws) l = if l = k then none else last ws l := by
  induction ws with
  | nil => simp [without, last]
  | cons w ws ih =>
    by_cases hw : w.1 = k
    · subst hw
      rw [without_cons_self, ih, last]
      by_cases hl : l = w.1
      · rw [if_pos hl, if_pos hl]
      · rw [if_neg hl, if_neg hl, if_neg hl, Option.or_none]
    · rw [without_cons_ne hw, last, last, ih]
      by_cases hl : l = k
      · have hlw : l ≠ w.1 := fun h => hw (h.symm.trans hl)
        rw [if_pos hl, if_pos hl, if_neg hlw, Option.or_none]
      · rw [if_neg hl, if_neg hl]

theorem without_eq_self {k : κ} {ws : List (κ × α)} (h : last ws k = none) : without k ws = ws := by
  induction ws with
  | nil => rfl
  | cons w ws ih =>
    rw [last, Option.or_eq_none_iff] at h
    have hw : w.1 ≠ k := by
      intro hw
      simp [hw] at h
    rw [without_cons_ne hw, ih h.1]

theorem length_without_le (k : κ) (ws : List (κ × α)) : (without k ws).length ≤ ws.length :=
  List.length_filter_le _ ws

variable {I : σ → Prop} {op : σ → κ → α → σ}

/-- A write moves past writes under other keys. -/
theorem Overwrites.replay_without (h : Overwrites I op) {s : σ} (hs : I s) (k : κ) (v : α)
    (ws : List (κ × α)) :
    replay op (without k ws) (op s k v) = op (replay op (without k ws) s) k v := by
  induction ws generalizing s with
  | nil => rfl
  | cons w ws ih =>
    by_cases hw : w.1 = k
    · subst hw
      rw [without_cons_self]
      exact ih hs
    · rw [without_cons_ne hw, replay, replay, h.comm hs (Ne.symm hw)]
      exact ih (h.keeps hs _ _)

/-- The last write under a key may come last of all. -/
theorem Overwrites.replay_last (h : Overwrites I op) {s : σ} (hs : I s) {ws : List (κ × α)}
    {k : κ} {v : α} (hl : last ws k = some v) :
    replay op ws s = op (replay op (without k ws) s) k v := by
  induction ws generalizing s with
  | nil => cases hl
  | cons w ws ih =>
    have hs' := h.keeps hs w.1 w.2
    rw [last] at hl
    by_cases hw : w.1 = k
    · subst hw
      rw [without_cons_self, replay]
      cases hlast : last ws w.1 with
      | none =>
        rw [hlast, Option.none_or, if_pos rfl] at hl
        cases hl
        have hmove := h.replay_without hs w.1 w.2 ws
        rw [without_eq_self hlast] at hmove ⊢
        exact hmove
      | some u =>
        rw [hlast, Option.some_or] at hl
        cases hl
        rw [ih hs' hlast, h.replay_without hs, h.same (h.keeps_replay hs _)]
    · rw [if_neg (Ne.symm hw), Option.or_none] at hl
      rw [without_cons_ne hw, replay, replay]
      exact ih hs' hl

/-- **Only the last write under each key counts.** -/
theorem Overwrites.replay_congr (h : Overwrites I op) {s : σ} (hs : I s) {ws ws' : List (κ × α)}
    (hl : ∀ k, last ws k = last ws' k) : replay op ws s = replay op ws' s := by
  induction hn : ws.length using Nat.strongRecOn generalizing ws ws' with
  | _ n ih =>
    cases ws with
    | nil =>
      cases ws' with
      | nil => rfl
      | cons w' ws' =>
        have hw := hl w'.1
        rw [last, last, if_pos rfl, eq_comm, Option.or_eq_none_iff] at hw
        cases hw.2
    | cons w ws =>
      obtain ⟨v, hv⟩ : ∃ v, last (w :: ws) w.1 = some v := by
        rw [last, if_pos rfl]
        cases last ws w.1 with
        | none => exact ⟨_, rfl⟩
        | some u => exact ⟨_, rfl⟩
      have hv' : last ws' w.1 = some v := by rw [← hl, hv]
      have hlt : (without w.1 (w :: ws)).length < n := by
        rw [without_cons_self, ← hn, List.length_cons]
        exact Nat.lt_succ_of_le (length_without_le _ _)
      have hsame : ∀ k, last (without w.1 (w :: ws)) k = last (without w.1 ws') k := by
        intro k
        rw [last_without, last_without, hl]
      rw [h.replay_last hs hv, h.replay_last hs hv', ih _ hlt hsame rfl]

end LastWrite
