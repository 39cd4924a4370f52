import Mathlib.Data.List.Basic

/-!
# Cleaning up after exceptions

A computation returns or raises, and leaves a state in both cases.  `Ends P x Q`:
from a state with `P`, however `x` ends, it leaves one with `Q`.

    Ends P x Q → Ends Q last R → Ends P (protect x last) R            (Ends.protect)
    … → Ends Q x Q → Ends Q last R → Ends P (within first last x) R   (Ends.within)

`first` and `last` are what a context manager does before and after the block.  If
`first` raises, the block is not entered, and `last` is not run either.
-/

namespace Cleanup

variable {ε σ α β : Type}

def leaves : EStateM.Result ε σ α → σ
  | .ok _ s => s
  | .error _ s => s

/-- `try: x`, `finally: last`.  An exception of `last` takes the place of one of `x`. -/
def protect (x : EStateM ε σ α) (last : EStateM ε σ Unit) : EStateM ε σ α := fun s =>
  match x s with
  | .ok a s' =>
    match last s' with
    | .ok _ s'' => .ok a s''
    | .error e s'' => .error e s''
  | .error e s' =>
    match last s' with
    | .ok _ s'' => .error e s''
    | .error e' s'' => .error e' s''

/-- `with`, for a context manager that lets exceptions through. -/
def within (first last : EStateM ε σ Unit) (x : EStateM ε σ α) : EStateM ε σ α := do
  first
  protect x last

/-! ## What returns -/

theorem bind_ok {x : EStateM ε σ α} {s s' : σ} {a : α} (h : x s = .ok a s')
    (f : α → EStateM ε σ β) : (x >>= f) s = f a s' := by
  show EStateM.bind x f s = _
  unfold EStateM.bind
  rw [h]

theorem bind_error {x : EStateM ε σ α} {s s' : σ} {e : ε} (h : x s = .error e s')
    (f : α → EStateM ε σ β) : (x >>= f) s = .error e s' := by
  show EStateM.bind x f s = _
  unfold EStateM.bind
  rw [h]

theorem bind_eq_ok_iff {x : EStateM ε σ α} {f : α → EStateM ε σ β} {s s'' : σ} {b : β} :
    (x >>= f) s = .ok b s'' ↔ ∃ a s', x s = .ok a s' ∧ f a s' = .ok b s'' := by
  cases hx : x s with
  | ok a s' =>
    rw [bind_ok hx]
    simp
  | error e s' =>
    rw [bind_error hx]
    simp

theorem protect_error {x : EStateM ε σ α} {last : EStateM ε σ Unit} {s s' s'' : σ} {e : ε}
    (hx : x s = .error e s') (hlast : last s' = .ok () s'') : protect x last s = .error e s'' := by
  unfold protect
  simp only [hx, hlast]

theorem protect_ok {x : EStateM ε σ α} {last : EStateM ε σ Unit} {s s' s'' : σ} {a : α}
    (hx : x s = .ok a s') (hlast : last s' = .ok () s'') : protect x last s = .ok a s'' := by
  unfold protect
  simp only [hx, hlast]

/-! ## What is left -/

theorem leaves_protect (x : EStateM ε σ α) (last : EStateM ε σ Unit) (s : σ) :
    leaves (protect x last s) = leaves (last (leaves (x s))) := by
  unfold protect
  cases x s with
  | ok a s' =>
    simp only [leaves]
    cases last s' <;> rfl
  | error e s' =>
    simp only [leaves]
    cases last s' <;> rfl

/-- An exception of `last`, however `x` ends. -/
theorem protect_raises {x : EStateM ε σ α} {last : EStateM ε σ Unit} {s s' s'' : σ} {e : ε}
    (hx : leaves (x s) = s') (hlast : last s' = .error e s'') :
    protect x last s = .error e s'' := by
  subst hx
  unfold protect
  cases hx : x s with
  | ok a s' =>
    rw [hx] at hlast
    simp only [show last s' = _ from hlast]
  | error e' s' =>
    rw [hx] at hlast
    simp only [show last s' = _ from hlast]

/-- However `x` ends, it takes `P` to `Q`. -/
def Ends (P : σ → Prop) (x : EStateM ε σ α) (Q : σ → Prop) : Prop := ∀ s, P s → Q (leaves (x s))

section Ends

variable {P Q R : σ → Prop} {x : EStateM ε σ α} {f : α → EStateM ε σ β}
  {first last : EStateM ε σ Unit}

theorem Ends.left (h : Ends P x Q) {s : σ} (hs : P s) {r : EStateM.Result ε σ α} (hrun : x s = r) :
    Q (leaves r) := by
  rw [← hrun]
  exact h s hs

theorem ends_pure (a : α) : Ends P (pure a : EStateM ε σ α) P := fun _ h => h

theorem ends_throw (e : ε) : Ends P (throw e : EStateM ε σ α) P := fun _ h => h

/-- The states that `x` leaves are among those that the whole may leave. -/
theorem Ends.seq (hx : Ends P x Q) (hQR : ∀ s, Q s → R s) (hf : ∀ a, Ends Q (f a) R) :
    Ends P (x >>= f) R := by
  intro s hs
  have hleft := hx s hs
  cases hrun : x s with
  | ok a s' =>
    rw [hrun] at hleft
    rw [bind_ok hrun]
    exact hf a s' hleft
  | error e s' =>
    rw [hrun] at hleft
    rw [bind_error hrun]
    exact hQR s' hleft

theorem Ends.bind (hx : Ends P x Q) (hf : ∀ a, Ends Q (f a) Q) : Ends P (x >>= f) Q :=
  hx.seq (fun _ h => h) hf

theorem Ends.protect (hx : Ends P x Q) (hlast : Ends Q last R) :
    Ends P (protect x last) R := by
  intro s hs
  rw [leaves_protect]
  exact hlast _ (hx s hs)

/-- **A block between what is done before it and after it.** -/
theorem Ends.within (hfirst : ∀ s, P s → (∀ s', first s = .ok () s' → Q s') ∧
      ∀ e s', first s = .error e s' → R s')
    (hx : Ends Q x Q) (hlast : Ends Q last R) : Ends P (within first last x) R := by
  intro s hs
  obtain ⟨hentered, hraised⟩ := hfirst s hs
  unfold Cleanup.within
  cases hrun : first s with
  | ok _ s' =>
    rw [bind_ok hrun]
    exact hx.protect hlast s' (hentered s' hrun)
  | error e s' =>
    rw [bind_error hrun]
    exact hraised e s' hrun

end Ends

end Cleanup
