import Mathlib.Data.List.Basic

/-!
# Machines

A machine takes calls one after the other and answers each of them.  An answer
can be the last one: nothing is known of the machine after it.

* `run cs s`: the answers to the calls `cs` and the state after them.
* `Simulates M N ok fine R`: `R` relates the states of `M` and `N`, and a call
  on `M` is the same call on `N`, as long as the call is `ok` and the state it
  leaves is `fine`.  A state is fine when a later one is, so only the state at
  the end of a run is asked.

    R s t → … → the runs from `s` and `t` answer the same, and end in `R`   (Simulates.run)
    R s t → R s' t → … → so do the runs from `s` and `s'`                   (Simulates.agree)
-/

/-- What answers calls of type `γ`. -/
structure Machine (γ α σ : Type) where
  call : γ → σ → α × σ
  last : α → Bool

namespace Machine

variable {γ α σ τ : Type}

/-- The calls, first one first; the run ends with the calls or with a last answer. -/
def run (M : Machine γ α σ) : List γ → σ → List α × σ
  | [], s => ([], s)
  | c :: cs, s =>
    match M.call c s with
    | (a, s') => if M.last a then ([a], s') else
        match run M cs s' with
        | (as, s'') => (a :: as, s'')

section Run

variable (M : Machine γ α σ)

@[simp] theorem run_nil (s : σ) : M.run [] s = ([], s) := rfl

theorem run_last {c : γ} {s : σ} (h : M.last (M.call c s).1 = true) (cs : List γ) :
    M.run (c :: cs) s = ([(M.call c s).1], (M.call c s).2) := by
  simp only [run, h, if_true]

theorem run_step {c : γ} {s : σ} (h : M.last (M.call c s).1 = false) (cs : List γ) :
    M.run (c :: cs) s =
      ((M.call c s).1 :: (M.run cs (M.call c s).2).1, (M.run cs (M.call c s).2).2) := by
  simp only [run, h, Bool.false_eq_true, if_false]

variable {M}

/-- What every call relates to its outcome a run relates too. -/
theorem rel_run {r : σ → σ → Prop} (hrefl : ∀ s, r s s)
    (htrans : ∀ s s' s'', r s s' → r s' s'' → r s s'') (hcall : ∀ c s, r s (M.call c s).2)
    (cs : List γ) (s : σ) : r s (M.run cs s).2 := by
  induction cs generalizing s with
  | nil => exact hrefl s
  | cons c cs ih =>
    cases hl : M.last (M.call c s).1 with
    | true =>
      rw [M.run_last hl]
      exact hcall c s
    | false =>
      rw [M.run_step hl]
      exact htrans _ _ _ (hcall c s) (ih _)

/-- Where an invariant says what is answered, every answer of a run is such. -/
theorem answers_run {I : σ → Prop} {P : α → Prop} {cs : List γ}
    (hcall : ∀ c ∈ cs, ∀ s, I s → P (M.call c s).1 ∧ I (M.call c s).2) {s : σ} (hI : I s) :
    ∀ a ∈ (M.run cs s).1, P a := by
  induction cs generalizing s with
  | nil => exact List.forall_mem_nil _
  | cons c cs ih =>
    obtain ⟨ha, hI'⟩ := hcall c List.mem_cons_self s hI
    cases hl : M.last (M.call c s).1 with
    | true =>
      rw [M.run_last hl]
      exact List.forall_mem_singleton.mpr ha
    | false =>
      rw [M.run_step hl]
      exact List.forall_mem_cons.mpr
        ⟨ha, ih (fun c hc => hcall c (List.mem_cons_of_mem _ hc)) hI'⟩

end Run

/-- Where `N` is `M` seen through three functions, so are its runs. -/
theorem run_map {γ' α' σ' : Type} {M : Machine γ α σ} {N : Machine γ' α' σ'} {f : γ → γ'}
    {g : α → α'} {h : σ → σ'} (hcall : ∀ c s, N.call (f c) (h s) = (g (M.call c s).1, h (M.call c s).2))
    (hlast : ∀ a, N.last (g a) = M.last a) (cs : List γ) (s : σ) :
    N.run (cs.map f) (h s) = ((M.run cs s).1.map g, h (M.run cs s).2) := by
  induction cs generalizing s with
  | nil => rfl
  | cons c cs ih =>
    have hl' : N.last (N.call (f c) (h s)).1 = M.last (M.call c s).1 := by rw [hcall, hlast]
    rw [List.map_cons]
    cases hl : M.last (M.call c s).1 with
    | true =>
      rw [M.run_last hl, N.run_last (hl'.trans hl), hcall]
      rfl
    | false =>
      rw [M.run_step hl, N.run_step (hl'.trans hl), hcall, ih]
      rfl

/-- A call on `M` is the same call on `N`. -/
structure Simulates (M : Machine γ α σ) (N : Machine γ α τ) (ok : γ → Prop) (fine : σ → Prop)
    (R : σ → τ → Prop) : Prop where
  last : ∀ a, M.last a = N.last a
  fine_of_call : ∀ c s, fine (M.call c s).2 → fine s
  call : ∀ {s t}, R s t → ∀ {c}, ok c → fine (M.call c s).2 →
    (M.call c s).1 = (N.call c t).1 ∧ R (M.call c s).2 (N.call c t).2

namespace Simulates

variable {M : Machine γ α σ} {N : Machine γ α τ} {ok : γ → Prop} {fine : σ → Prop}
  {R : σ → τ → Prop}

theorem fine_of_run (h : Simulates M N ok fine R) (cs : List γ) (s : σ) :
    fine (M.run cs s).2 → fine s :=
  rel_run (r := fun s s' => fine s' → fine s) (fun _ hs => hs)
    (fun _ _ _ h₁ h₂ hs => h₁ (h₂ hs)) h.fine_of_call cs s

/-- **A run on `M` is the same run on `N`.** -/
theorem run (h : Simulates M N ok fine R) {s : σ} {t : τ} (hR : R s t) {cs : List γ}
    (hok : ∀ c ∈ cs, ok c) (hfine : fine (M.run cs s).2) :
    (M.run cs s).1 = (N.run cs t).1 ∧ R (M.run cs s).2 (N.run cs t).2 := by
  induction cs generalizing s t with
  | nil => exact ⟨rfl, hR⟩
  | cons c cs ih =>
    have hc := hok c List.mem_cons_self
    cases hl : M.last (M.call c s).1 with
    | true =>
      rw [M.run_last hl] at hfine ⊢
      obtain ⟨ha, hR'⟩ := h.call hR hc hfine
      rw [N.run_last (by rw [← ha, ← h.last, hl]), ← ha]
      exact ⟨rfl, hR'⟩
    | false =>
      rw [M.run_step hl] at hfine ⊢
      obtain ⟨ha, hR'⟩ := h.call hR hc (h.fine_of_run cs _ hfine)
      obtain ⟨has, hR''⟩ := ih hR' (fun c hc => hok c (List.mem_cons_of_mem _ hc)) hfine
      rw [N.run_step (by rw [← ha, ← h.last, hl]), ← ha, ← has]
      exact ⟨rfl, hR''⟩

/-- **Two states that stand for the same state of `N` answer the same.** -/
theorem agree (h : Simulates M N ok fine R) {s s' : σ} {t : τ} (hR : R s t) (hR' : R s' t)
    {cs : List γ} (hok : ∀ c ∈ cs, ok c) (hfine : fine (M.run cs s).2)
    (hfine' : fine (M.run cs s').2) :
    (M.run cs s).1 = (M.run cs s').1 ∧
      ∃ t', R (M.run cs s).2 t' ∧ R (M.run cs s').2 t' := by
  obtain ⟨ha, ht⟩ := h.run hR hok hfine
  obtain ⟨ha', ht'⟩ := h.run hR' hok hfine'
  exact ⟨ha.trans ha'.symm, _, ht, ht'⟩

end Simulates

end Machine
