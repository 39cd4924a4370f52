import Mathlib.Data.List.Basic

/-!
# Recursions that follow one path

A recursion that calls itself at most once, on the place `next` names, visits
the places of one walk.  `run` is such a recursion with a bound on its calls,
`visits` the places it comes by.  Along a measure that falls with every step
the walk is short (`Descent.length_visits_le`), and a property of the results
that one call preserves holds of every run with calls enough, whatever the
answer of the run that has none left (`Descent.run_run`).
-/

namespace Walk

variable {σ ρ : Type} {next : σ → Option σ}

/-- The places of a walk, the first `n` of them. -/
def visits (next : σ → Option σ) : Nat → σ → List σ
  | 0, _ => []
  | n + 1, x => x :: (next x).elim [] (visits next n)

/-- The recursion with `n` calls; `stop` answers when none is left. -/
def run (body : (σ → ρ) → σ → ρ) (stop : σ → ρ) : Nat → σ → ρ
  | 0, x => stop x
  | n + 1, x => body (run body stop n) x

/-- A function with the equations of `run` is `run`. -/
theorem eq_run {body : (σ → ρ) → σ → ρ} {stop : σ → ρ} {f : Nat → σ → ρ}
    (hzero : ∀ x, f 0 x = stop x) (hsucc : ∀ n x, f (n + 1) x = body (f n) x) (n : Nat) (x : σ) :
    f n x = run body stop n x := by
  induction n generalizing x with
  | zero => exact hzero x
  | succ n ih => rw [hsucc, funext ih, run]

/-- The steps stay among the places of `I`, and each lowers the measure. -/
structure Descent (next : σ → Option σ) (I : σ → Prop) (μ : σ → Nat) : Prop where
  stays : ∀ {x y}, I x → next x = some y → I y
  lower : ∀ {x y}, I x → next x = some y → μ y < μ x

namespace Descent

variable {I : σ → Prop} {μ : σ → Nat}

theorem length_visits_le (h : Descent next I μ) (n : Nat) {x : σ} (hx : I x) :
    (visits next n x).length ≤ μ x + 1 := by
  induction n generalizing x with
  | zero => exact Nat.zero_le _
  | succ n ih =>
    rw [visits, List.length_cons]
    cases hn : next x with
    | none => exact Nat.le_add_left 1 (μ x)
    | some y =>
      have hy := ih (h.stays hx hn)
      have hlt := h.lower hx hn
      rw [Option.elim_some]
      omega

theorem lt_of_mem_visits (h : Descent next I μ) (n : Nat) {x y z : σ} (hx : I x)
    (hy : next x = some y) (hz : z ∈ visits next n y) : μ z < μ x := by
  induction n generalizing x y with
  | zero => cases hz
  | succ n ih =>
    have hlt := h.lower hx hy
    rw [visits, List.mem_cons] at hz
    rcases hz with rfl | hz
    · exact hlt
    · cases hn : next y with
      | none => rw [hn] at hz; cases hz
      | some y' =>
        rw [hn] at hz
        exact Nat.lt_trans (ih (h.stays hx hy) hn hz) hlt

/-- Along a walk the measure falls. -/
theorem pairwise_visits (h : Descent next I μ) (n : Nat) {x : σ} (hx : I x) :
    (visits next n x).Pairwise fun y z => μ z < μ y := by
  induction n generalizing x with
  | zero => exact .nil
  | succ n ih =>
    rw [visits]
    cases hn : next x with
    | none => exact List.pairwise_singleton _ _
    | some y => exact .cons (fun z hz => h.lt_of_mem_visits n hx hn hz) (ih (h.stays hx hn))

/-- Two runs with calls enough, related by what one call preserves. -/
theorem run_run (h : Descent next I μ) {body : (σ → ρ) → σ → ρ} {P : ρ → ρ → Prop}
    (hbody : ∀ f g x, I x → (∀ y, next x = some y → P (f y) (g y)) → P (body f x) (body g x))
    {stop stop' : σ → ρ} {n m : Nat} {x : σ} (hx : I x) (hn : μ x < n) (hm : μ x < m) :
    P (run body stop n x) (run body stop' m x) := by
  induction n generalizing m x with
  | zero => exact absurd hn (Nat.not_lt_zero _)
  | succ n ih =>
    cases m with
    | zero => exact absurd hm (Nat.not_lt_zero _)
    | succ m =>
      apply hbody _ _ _ hx
      intro y hy
      have hlt := h.lower hx hy
      exact ih (h.stays hx hy) (by omega) (by omega)

end Descent

end Walk
