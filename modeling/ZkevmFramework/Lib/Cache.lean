import Mathlib.Logic.Function.Basic
import ZkevmFramework.Lib.Machine

/-!
# Maps filled on a miss

A map answers with the value it holds of a key, and asks a source for a key it
does not hold; a value that the source has is kept, an error ends the run.
Between the questions a value that is held may be changed.

What becomes of a key depends on the events at this key alone (`run_apply`):

    held           → the changes, whatever the source would answer        (after_some)
    not held       → the first value of the source, and the changes since (after_none)
    the run ends   ↔ the source fails for a key that is not held yet      (goes_iff)
-/

namespace Cache

variable {κ β ε : Type}

/-- A question for a key, with what the source would answer to it now; or a
change of the value of a key. -/
inductive Event (κ β ε : Type) where
  | ask (k : κ) (source : Except ε (Option β))
  | change (k : κ) (f : β → β)

def usable : Except ε (Option β) → Option β
  | .ok o => o
  | .error _ => none

section Machine

variable [DecidableEq κ]

def call : Event κ β ε → (κ → Option β) → Except ε (Option β) × (κ → Option β)
  | .ask k source, m =>
    match m k with
    | some b => (.ok (some b), m)
    | none => (source, Function.update m k (usable source))
  | .change k f, m => (.ok none, Function.update m k ((m k).map f))

def cache : Machine (Event κ β ε) (Except ε (Option β)) (κ → Option β) where
  call := call
  last a := !a.toBool

/-! ## One key -/

/-- What the events make of the value of a key. -/
def after (k : κ) : List (Event κ β ε) → Option β → Option β
  | [], o => o
  | .ask k' source :: es, o => after k es (if k' = k then o.or (usable source) else o)
  | .change k' f :: es, o => after k es (if k' = k then o.map f else o)

/-- The changes of a key, one after the other. -/
def changes (k : κ) : List (Event κ β ε) → β → β
  | [], b => b
  | .ask _ _ :: es, b => changes k es b
  | .change k' f :: es, b => changes k es (if k' = k then f b else b)

/-- The first value the source has for a key, and the events after it. -/
def first (k : κ) : List (Event κ β ε) → Option (β × List (Event κ β ε))
  | [] => none
  | .ask k' source :: es =>
    if k' = k then
      match usable source with
      | some b => some (b, es)
      | none => first k es
    else first k es
  | .change _ _ :: es => first k es

/-- **A key that is held is never asked for again.** -/
theorem after_some (k : κ) (es : List (Event κ β ε)) (b : β) :
    after k es (some b) = some (changes k es b) := by
  induction es generalizing b with
  | nil => rfl
  | cons e es ih =>
    cases e with
    | ask k' source =>
      have hkeep : (if k' = k then (some b).or (usable source) else some b) = some b := by
        split <;> rfl
      rw [after, hkeep, ih, changes]
    | change k' f =>
      have hchange : (if k' = k then (some b).map f else some b) =
          some (if k' = k then f b else b) := by
        split <;> rfl
      rw [after, hchange, ih, changes]

/-- **A key that is not held gets the first value the source has.** -/
theorem after_none (k : κ) (es : List (Event κ β ε)) :
    after k es none = (first k es).map fun r => changes k r.2 r.1 := by
  induction es with
  | nil => rfl
  | cons e es ih =>
    cases e with
    | ask k' source =>
      by_cases hk : k' = k
      · rw [after, first, if_pos hk, if_pos hk, Option.none_or]
        cases usable source with
        | none => exact ih
        | some b => exact after_some k es b
      · rw [after, first, if_neg hk, if_neg hk, ih]
    | change k' f =>
      have hnone : (if k' = k then (none : Option β).map f else none) = none := by
        split <;> rfl
      rw [after, first, hnone, ih]

theorem after_append (k : κ) (es es' : List (Event κ β ε)) (o : Option β) :
    after k (es ++ es') o = after k es' (after k es o) := by
  induction es generalizing o with
  | nil => rfl
  | cons e es ih =>
    cases e with
    | ask k' source => exact ih _
    | change k' f => exact ih _

/-! ## The run -/

theorem call_held {m : κ → Option β} {k : κ} {b : β} (h : m k = some b)
    (source : Except ε (Option β)) : cache.call (.ask k source) m = (.ok (some b), m) := by
  show call (.ask k source) m = _
  unfold call
  simp only [h]

theorem call_missed {m : κ → Option β} {k : κ} (h : m k = none) (source : Except ε (Option β)) :
    cache.call (.ask k source) m = (source, Function.update m k (usable source)) := by
  show call (.ask k source) m = _
  unfold call
  simp only [h]

/-- A call changes the value of its key only. -/
theorem call_apply (e : Event κ β ε) (m : κ → Option β) (k : κ) :
    (cache.call e m).2 k = after k [e] (m k) := by
  cases e with
  | ask k' source =>
    show _ = if k' = k then (m k).or (usable source) else m k
    cases hm : m k' with
    | some b =>
      rw [call_held hm]
      split
      · next hk =>
        subst hk
        rw [hm, Option.some_or]
        exact hm
      · rfl
    | none =>
      rw [call_missed hm]
      split
      · next hk =>
        subst hk
        rw [hm, Option.none_or]
        exact Function.update_self _ _ _
      · next hk => exact Function.update_of_ne (fun h => hk h.symm) _ _
  | change k' f =>
    show Function.update m k' ((m k').map f) k = if k' = k then (m k).map f else m k
    split
    · next hk => rw [← hk, Function.update_self]
    · next hk => rw [Function.update_of_ne fun h => hk h.symm]

/-- No answer of the run is an error. -/
def Goes (es : List (Event κ β ε)) (m : κ → Option β) : Prop :=
  ∀ a ∈ (cache.run es m).1, a.toBool = true

theorem run_cons {e : Event κ β ε} {m : κ → Option β} (h : (cache.call e m).1.toBool = true)
    (es : List (Event κ β ε)) : cache.run (e :: es) m =
      ((cache.call e m).1 :: (cache.run es (cache.call e m).2).1,
        (cache.run es (cache.call e m).2).2) := by
  apply Machine.run_step
  show (!(cache.call e m).1.toBool) = false
  rw [h]
  rfl

theorem goes_cons (e : Event κ β ε) (es : List (Event κ β ε)) (m : κ → Option β) :
    Goes (e :: es) m ↔ (cache.call e m).1.toBool = true ∧ Goes es (cache.call e m).2 := by
  unfold Goes
  cases ht : (cache.call e m).1.toBool with
  | true => rw [run_cons ht, List.forall_mem_cons, ht]
  | false =>
    have hl : (cache (κ := κ) (β := β) (ε := ε)).last (cache.call e m).1 = true := by
      show (!(cache.call e m).1.toBool) = true
      rw [ht]
      rfl
    rw [Machine.run_last _ hl, List.forall_mem_singleton, ht]
    simp

/-- **A run leaves each key what the events make of it.** -/
theorem run_apply {es : List (Event κ β ε)} {m : κ → Option β} (h : Goes es m) (k : κ) :
    (cache.run es m).2 k = after k es (m k) := by
  induction es generalizing m with
  | nil => rfl
  | cons e es ih =>
    obtain ⟨ha, hes⟩ := (goes_cons e es m).mp h
    rw [run_cons ha, ih hes, call_apply, ← after_append, List.singleton_append]

/-- **When a run goes through**: no source fails for a key that is not held by then. -/
theorem goes_iff (es : List (Event κ β ε)) (m : κ → Option β) :
    Goes es m ↔ ∀ before k e later, es = before ++ .ask k (.error e) :: later →
      after k before (m k) ≠ none := by
  induction es generalizing m with
  | nil =>
    refine iff_of_true (List.forall_mem_nil _) ?_
    intro before k e later h
    simp at h
  | cons e es ih =>
    rw [goes_cons, ih]
    have hfirst : (cache.call e m).1.toBool = true ↔
        ∀ k err, e = .ask k (.error err) → m k ≠ none := by
      cases e with
      | ask k source =>
        cases hm : m k with
        | some b =>
          rw [call_held hm]
          refine iff_of_true rfl ?_
          intro k' err h
          cases h
          rw [hm]
          exact Option.some_ne_none b
        | none =>
          rw [call_missed hm]
          cases source with
          | ok o =>
            refine iff_of_true rfl ?_
            intro k' err h
            cases h
          | error err => exact iff_of_false (fun h => by cases h) fun h => h k err rfl hm
      | change k f =>
        refine iff_of_true rfl ?_
        intro k' err h
        cases h
    rw [hfirst]
    constructor
    · rintro ⟨he, hes⟩ before k err later h
      cases before with
      | nil =>
        rw [List.nil_append, List.cons.injEq] at h
        exact he k err h.1
      | cons e' before =>
        rw [List.cons_append, List.cons.injEq] at h
        obtain ⟨rfl, h⟩ := h
        have hrest := hes before k err later h
        rwa [call_apply, ← after_append, List.singleton_append] at hrest
    · intro h
      refine ⟨fun k err he => h [] k err es (by rw [he]; rfl), ?_⟩
      intro before k err later hes
      have hall := h (e :: before) k err later (by rw [hes]; rfl)
      rwa [call_apply, ← after_append, List.singleton_append]

/-- What a source that keeps its answers says of a key, without a map in between. -/
def plain (m : κ → Option β) (source : κ → Except ε (Option β)) (k : κ) : Except ε (Option β) :=
  match m k with
  | some b => .ok (some b)
  | none => source k

/-- Of a source that keeps its answers the map holds nothing else. -/
def Holds (m₀ : κ → Option β) (source : κ → Except ε (Option β)) (m : κ → Option β) : Prop :=
  ∀ k, (m k = m₀ k) ∨ (m₀ k = none ∧ source k = .ok (m k))

theorem Holds.call {m₀ m : κ → Option β} {source : κ → Except ε (Option β)} (h : Holds m₀ source m)
    (k : κ) : (cache.call (.ask k (source k)) m).1 = plain m₀ source k ∧
      Holds m₀ source (cache.call (.ask k (source k)) m).2 := by
  unfold plain
  cases hm : m k with
  | some b =>
    rw [call_held hm]
    refine ⟨?_, h⟩
    rcases h k with hk | ⟨hk, hs⟩
    · rw [← hk, hm]
    · rw [hk, hs, hm]
  | none =>
    have hk : m₀ k = none := by
      rcases h k with hk | ⟨hk, -⟩
      · rw [← hk, hm]
      · exact hk
    rw [call_missed hm, hk]
    refine ⟨rfl, ?_⟩
    intro k'
    by_cases hk' : k' = k
    · subst hk'
      simp only [Function.update_self]
      cases hs : source k' with
      | ok o => exact .inr ⟨hk, rfl⟩
      | error e => exact .inl hk.symm
    · simp only [Function.update_of_ne hk']
      exact h k'

/-- **The map is not noticed where the source keeps its answers.** -/
theorem run_steady (source : κ → Except ε (Option β)) (ks : List κ) {m₀ m : κ → Option β}
    (h : Holds m₀ source m) (hgo : Goes (ks.map fun k => .ask k (source k)) m) :
    (cache.run (ks.map fun k => .ask k (source k)) m).1 = ks.map (plain m₀ source) := by
  induction ks generalizing m with
  | nil => rfl
  | cons k ks ih =>
    obtain ⟨ha, hm⟩ := h.call k
    rw [List.map_cons] at hgo ⊢
    obtain ⟨htrue, hgo⟩ := (goes_cons _ _ _).mp hgo
    rw [run_cons htrue, ha, ih hm hgo, List.map_cons]

end Machine

end Cache
