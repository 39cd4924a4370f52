import Mathlib.Data.List.Forall2
import Mathlib.Tactic.NormNum

/-!
# How C++ calls end

A call returns a value, returns an error string, or does not return: an
exception leaves it, or the language gives it no meaning.  `Returns` is what the
first two have in common; it goes through a sequence of calls one by one
(`returns_bind_iff`).

A call may also fill objects of its caller (`Call`); what it has written stays
written when it stops.  The loops here convert one element after another and
store what came out (`fill`): after an error the objects hold the elements up to
the first that does not convert (`fill_error`), and the loop returns when each
element it reaches does (`returns_fill_iff`).

Texts are lists of characters, and the numeric conversions of the standard
library are defined on texts of decimal digits.
-/

namespace Cpp

/-- `std::string` -/
abbrev Text := List Char

/-- A buffer of bytes. -/
abbrev Bytes := List UInt8

/-- The exceptions of the standard library and of Boost that matter here. -/
inductive Thrown where
  | invalidArgument
  | outOfRange
  | badAnyCast
  /-- A `boost::json` accessor is used on a value of another kind. -/
  | wrongKind
  /-- A container ends before its contents do. -/
  | truncated
deriving DecidableEq, Repr

/-- Why a call does not return a value. -/
inductive Stop where
  | error (message : Text)
  | throws (e : Thrown)
  /-- A write past the end of an array. -/
  | pastEnd
  | divisionByZero
  /-- An exception leaves a `noexcept` function: the process ends. -/
  | terminates
  /-- A loop that never ends. -/
  | hangs
deriving DecidableEq

variable {α β : Type}

/-- The call returns a value or an error string. -/
def Returns (x : Except Stop α) : Prop :=
  (∃ a, x = .ok a) ∨ ∃ message, x = .error (.error message)

@[simp] theorem returns_ok (a : α) : Returns (.ok a) := Or.inl ⟨a, rfl⟩

@[simp] theorem returns_error (message : Text) :
    Returns (.error (.error message) : Except Stop α) := Or.inr ⟨message, rfl⟩

@[simp] theorem not_returns_throws (e : Thrown) :
    ¬ Returns (.error (.throws e) : Except Stop α) := by
  rintro (⟨a, h⟩ | ⟨message, h⟩) <;> cases h

/-- What returns and is no value is an error string. -/
theorem error_of_returns {x : Except Stop α} (h : Returns x) (hno : ∀ a, x ≠ .ok a) :
    ∃ message, x = .error (.error message) :=
  h.resolve_left fun ⟨a, ha⟩ => hno a ha

theorem ok_bind (a : α) (f : α → Except Stop β) : (Except.ok a >>= f) = f a := rfl

theorem except_bind_eq_ok_iff {x : Except Stop α} {f : α → Except Stop β} {b : β} :
    x >>= f = .ok b ↔ ∃ a, x = .ok a ∧ f a = .ok b := by
  cases x with
  | ok a =>
    rw [ok_bind]
    simp
  | error e => exact iff_of_false (fun h => by cases h) (by simp)

/-- **One call after another returns when the first does, and the second after it.** -/
theorem returns_bind_iff {x : Except Stop α} {f : α → Except Stop β} :
    Returns (x >>= f) ↔ Returns x ∧ ∀ a, x = .ok a → Returns (f a) := by
  cases x with
  | ok a =>
    show Returns (f a) ↔ _
    simp
  | error s =>
    show Returns (.error s : Except Stop β) ↔ _
    cases s <;> simp [Returns]

/-- The call reports nothing through an error string. -/
def ThrowsOnly (x : Except Stop α) : Prop := ∀ message, x ≠ .error (.error message)

theorem throwsOnly_ok (a : α) : ThrowsOnly (.ok a) := by simp [ThrowsOnly]

theorem throwsOnly_throws (e : Thrown) : ThrowsOnly (.error (.throws e) : Except Stop α) := by
  simp [ThrowsOnly]

theorem ThrowsOnly.bind {x : Except Stop α} {f : α → Except Stop β} (hx : ThrowsOnly x)
    (hf : ∀ a, ThrowsOnly (f a)) : ThrowsOnly (x >>= f) := by
  intro message
  cases x with
  | ok a => exact hf a message
  | error e =>
    show Except.error e ≠ _
    simpa using hx message

/-- What a `noexcept` function makes of an exception. -/
def noexcept : Except Stop α → Except Stop α
  | .error (.throws _) => .error .terminates
  | x => x

/-- `if (err) return label + err.value();` -/
def orReturn (label : String) : Option Text → Except Stop Unit
  | none => .ok ()
  | some message => .error (.error (label.toList ++ message))

/-- `return label + error` around a call that returns an error. -/
def labelled (label : String) : Except Stop α → Except Stop α
  | .error (.error message) => .error (.error (label.toList ++ message))
  | x => x

/-- A call of code that throws. -/
def orThrow : Except Thrown α → Except Stop α
  | .ok a => .ok a
  | .error e => .error (.throws e)

@[simp] theorem returns_labelled_iff (label : String) (x : Except Stop α) :
    Returns (labelled label x) ↔ Returns x := by
  unfold labelled
  split <;> simp

theorem labelled_eq_ok_iff (label : String) (x : Except Stop α) (a : α) :
    labelled label x = .ok a ↔ x = .ok a := by
  unfold labelled
  split <;> simp

/-- What stops a call without a return is kept as it is. -/
theorem labelled_eq_stop_iff (label : String) (x : Except Stop α) {e : Stop}
    (h : ∀ message, e ≠ .error message) : labelled label x = .error e ↔ x = .error e := by
  unfold labelled
  split
  · rename_i message
    simp only [Except.error.injEq]
    exact iff_of_false (fun he => h _ he.symm) fun he => h message he.symm
  · rfl

theorem labelled_error_iff (label : String) (x : Except Stop α) :
    (∃ message, labelled label x = .error (.error message)) ↔
      ∃ message, x = .error (.error message) := by
  unfold labelled
  split <;> simp

theorem returns_orThrow_iff (x : Except Thrown α) : Returns (orThrow x) ↔ ∃ a, x = .ok a := by
  cases x <;> simp [orThrow]

theorem orThrow_ok_iff (x : Except Thrown α) (a : α) : orThrow x = .ok a ↔ x = .ok a := by
  cases x <;> simp [orThrow]

/-! ## Lists element by element -/

/-- No NUL, checked byte by byte. -/
theorem ne_zero_of_all {data : Bytes} (h : (data.all fun b => b != 0) = true) :
    ∀ b ∈ data, b ≠ 0 := by
  intro b hb
  simpa using List.all_eq_true.mp h b hb

theorem forall₂_congr_mem {R S : α → β → Prop} {l : List α}
    (h : ∀ a ∈ l, ∀ b, R a b ↔ S a b) {m : List β} : List.Forall₂ R l m ↔ List.Forall₂ S l m := by
  induction l generalizing m with
  | nil => cases m <;> simp
  | cons a l ih =>
    rw [List.forall_mem_cons] at h
    cases m with
    | nil => simp
    | cons b m => rw [List.forall₂_cons, List.forall₂_cons, h.1 b, ih h.2]

theorem forall₂_and_right {R : α → β → Prop} {p : β → Prop} {l : List α} {u : List β} :
    List.Forall₂ (fun a b => R a b ∧ p b) l u ↔ List.Forall₂ R l u ∧ ∀ b ∈ u, p b := by
  constructor
  · intro h
    induction h with
    | nil => exact ⟨List.Forall₂.nil, by simp⟩
    | cons hab _ ih =>
      rw [List.forall_mem_cons]
      exact ⟨List.Forall₂.cons hab.1 ih.1, hab.2, ih.2⟩
  · rintro ⟨h, hp⟩
    induction h with
    | nil => exact List.Forall₂.nil
    | cons hab _ ih =>
      rw [List.forall_mem_cons] at hp
      exact List.Forall₂.cons ⟨hab, hp.1⟩ (ih hp.2)

theorem forall₂_map_of {γ : Type} {R : α → β → Prop} {f : β → γ} {l : List α} {m : List γ} :
    List.Forall₂ (fun a c => ∃ b, R a b ∧ c = f b) l m ↔
      ∃ bs, List.Forall₂ R l bs ∧ m = bs.map f := by
  constructor
  · intro h
    induction h with
    | nil => exact ⟨[], List.Forall₂.nil, rfl⟩
    | cons hac _ ih =>
      obtain ⟨b, hb, rfl⟩ := hac
      obtain ⟨bs, hbs, rfl⟩ := ih
      exact ⟨b :: bs, List.Forall₂.cons hb hbs, rfl⟩
  · rintro ⟨bs, hbs, rfl⟩
    induction hbs with
    | nil => exact List.Forall₂.nil
    | cons hb _ ih => exact List.Forall₂.cons ⟨_, hb, rfl⟩ ih

/-! ## Calls that fill objects of the caller -/

section Call

variable {σ : Type}

/-- A call that works on the objects `σ` of its caller. -/
abbrev Call (σ α : Type) := EStateM Stop σ α

def call (x : Except Stop α) : Call σ α := fun s =>
  match x with
  | .ok a => .ok a s
  | .error e => .error e s

/-- `return label + error` around a call that fills objects. -/
def labelledCall (label : String) (x : Call σ α) : Call σ α := fun s =>
  match x s with
  | .ok a s => .ok a s
  | .error (.error message) s => .error (.error (label.toList ++ message)) s
  | .error e s => .error e s

/-- How the call ended. -/
def outcome : EStateM.Result Stop σ α → Except Stop α
  | .ok a _ => .ok a
  | .error e _ => .error e

/-- What it left in the objects. -/
def left : EStateM.Result Stop σ α → σ
  | .ok _ s => s
  | .error _ s => s

theorem bind_ok {x : Call σ α} {s s' : σ} {a : α} (h : x s = .ok a s') (f : α → Call σ β) :
    (x >>= f) s = f a s' := by
  show EStateM.bind x f s = _
  unfold EStateM.bind
  rw [h]

theorem bind_error {x : Call σ α} {s s' : σ} {e : Stop} (h : x s = .error e s')
    (f : α → Call σ β) : (x >>= f) s = .error e s' := by
  show EStateM.bind x f s = _
  unfold EStateM.bind
  rw [h]

theorem outcome_bind_error {x : Call σ α} {s : σ} {e : Stop} (h : outcome (x s) = .error e)
    (f : α → Call σ β) : outcome ((x >>= f) s) = .error e := by
  cases hx : x s with
  | ok a s' =>
    rw [hx] at h
    cases h
  | error e' s' =>
    rw [hx] at h
    rw [bind_error hx]
    have he : e' = e := by simpa [outcome] using h
    rw [he]
    rfl

/-- A sequence that runs through. -/
theorem bind_eq_ok_iff {x : Call σ α} {f : α → Call σ β} {s s'' : σ} {b : β} :
    (x >>= f) s = .ok b s'' ↔ ∃ a s', x s = .ok a s' ∧ f a s' = .ok b s'' := by
  cases hx : x s with
  | ok a s' =>
    rw [bind_ok hx]
    simp
  | error e s' =>
    rw [bind_error hx]
    simp

theorem labelledCall_eq_ok_iff {label : String} {x : Call σ α} {s s' : σ} {a : α} :
    labelledCall label x s = .ok a s' ↔ x s = .ok a s' := by
  unfold labelledCall
  rcases x s with ⟨b, t⟩ | ⟨e, t⟩
  · rfl
  · cases e <;> simp

theorem labelledCall_bind_eq_ok_iff {label : String} {x : Call σ α} {f : α → Call σ β} {s s' : σ}
    {b : β} :
    (labelledCall label x >>= f) s = .ok b s' ↔ ∃ a t, x s = .ok a t ∧ f a t = .ok b s' := by
  simp only [bind_eq_ok_iff, labelledCall_eq_ok_iff]

theorem labelledCall_ok {x : Call σ α} {s s' : σ} {a : α} (h : x s = .ok a s') (label : String) :
    labelledCall label x s = .ok a s' := by
  unfold labelledCall
  rw [h]

theorem of_labelledCall_error {label : String} {x : Call σ α} {s s' : σ} {message : Text}
    (h : labelledCall label x s = .error (.error message) s') :
    ∃ message', x s = .error (.error message') s' := by
  unfold labelledCall at h
  cases hx : x s with
  | ok a s'' =>
    rw [hx] at h
    cases h
  | error e s'' =>
    rw [hx] at h
    cases e with
    | error message' =>
      simp only [EStateM.Result.error.injEq] at h
      exact ⟨message', by rw [h.2]⟩
    | _ => simp at h

theorem outcome_labelledCall (label : String) (x : Call σ α) (s : σ) :
    outcome (labelledCall label x s) = labelled label (outcome (x s)) := by
  unfold labelledCall labelled
  rcases x s with ⟨a, s'⟩ | ⟨e, s'⟩
  · rfl
  · cases e <;> rfl

theorem left_labelledCall (label : String) (x : Call σ α) (s : σ) :
    left (labelledCall label x s) = left (x s) := by
  unfold labelledCall
  rcases x s with ⟨a, s'⟩ | ⟨e, s'⟩
  · rfl
  · cases e <;> rfl

theorem call_bind_ok (a : α) (f : α → Call σ β) (s : σ) : (call (.ok a) >>= f) s = f a s := rfl

theorem call_bind_error (e : Stop) (f : α → Call σ β) (s : σ) :
    (call (.error e) >>= f) s = .error e s := rfl

theorem call_bind_eq_ok_iff {x : Except Stop α} {f : α → Call σ β} {s s' : σ} {b : β} :
    (call x >>= f) s = .ok b s' ↔ ∃ a, x = .ok a ∧ f a s = .ok b s' := by
  cases x with
  | ok a =>
    rw [call_bind_ok]
    simp
  | error e =>
    rw [call_bind_error]
    simp

/-- Where a sequence stops whose first call leaves the objects alone. -/
theorem call_bind_eq_error {x : Except Stop α} {f : α → Call σ β} {s s' : σ} {e : Stop}
    (h : (call x >>= f) s = .error e s') :
    (x = .error e ∧ s' = s) ∨ ∃ a, x = .ok a ∧ f a s = .error e s' := by
  cases x with
  | ok a => exact Or.inr ⟨a, rfl, h⟩
  | error e' =>
    rw [call_bind_error, EStateM.Result.error.injEq] at h
    exact Or.inl ⟨congrArg Except.error h.1, h.2.symm⟩

theorem modify_bind (g : σ → σ) (f : PUnit → Call σ β) (s : σ) :
    ((modify g : Call σ PUnit) >>= f) s = f ⟨⟩ (g s) := rfl

/-- The calls of a sequence, where the first leaves the objects alone. -/
theorem returns_call_bind_iff {x : Except Stop α} {f : α → Call σ β} {s : σ} :
    Returns (outcome ((call x >>= f) s)) ↔
      Returns x ∧ ∀ a, x = .ok a → Returns (outcome (f a s)) := by
  cases x with
  | ok a =>
    show Returns (outcome (f a s)) ↔ _
    simp
  | error e =>
    show Returns (.error e : Except Stop β) ↔ _
    cases e <;> simp [Returns]

/-- Two calls of a sequence. -/
theorem returns_seq_iff {x : Call σ α} {f : α → Call σ β} {s : σ} :
    Returns (outcome ((x >>= f) s)) ↔
      Returns (outcome (x s)) ∧ ∀ a s', x s = .ok a s' → Returns (outcome (f a s')) := by
  cases h : x s with
  | ok a s' =>
    rw [bind_ok h]
    simp [outcome]
  | error e s' =>
    rw [bind_error h]
    show Returns (.error e : Except Stop β) ↔ Returns (.error e : Except Stop α) ∧ _
    cases e <;> simp [Returns]

/-- The loop over the elements: each is converted, then stored. -/
def fill {ι : Type} (convert : ι → Except Stop α) (store : α → σ → σ) : List ι → Call σ Unit
  | [] => pure ()
  | i :: l => do
    let a ← call (convert i)
    modify (store a)
    fill convert store l

variable {ι : Type} (convert : ι → Except Stop α) (store : α → σ → σ)

/-- `P` holds of each element reached by a loop that goes on past the elements in `go`. -/
def Reached (go P : ι → Prop) : List ι → Prop
  | [] => True
  | i :: l => P i ∧ (go i → Reached go P l)

theorem returns_fill_iff {go P : ι → Prop} {l : List ι} (s : σ)
    (hreturns : ∀ i ∈ l, Returns (convert i) ↔ P i)
    (hgo : ∀ i ∈ l, P i → ((∃ a, convert i = .ok a) ↔ go i)) :
    Returns (outcome (fill convert store l s)) ↔ Reached go P l := by
  induction l generalizing s with
  | nil => exact iff_of_true (Or.inl ⟨(), rfl⟩) trivial
  | cons i l ih =>
    rw [List.forall_mem_cons] at hreturns hgo
    show Returns (outcome ((call (convert i) >>= _) s)) ↔ P i ∧ (go i → Reached go P l)
    rw [returns_call_bind_iff, hreturns.1]
    apply and_congr_right
    intro hi
    rw [← hgo.1 hi]
    constructor
    · rintro h ⟨a, ha⟩
      exact (ih (store a s) hreturns.2 hgo.2).mp (h a ha)
    · intro h a ha
      exact (ih (store a s) hreturns.2 hgo.2).mpr (h ⟨a, ha⟩)

/-- The elements of `l` up to one whose conversion returns an error, converted to `as`. -/
def ConvertedUpTo (l : List ι) (as : List α) : Prop :=
  ∃ before i after, l = before ++ i :: after ∧
    List.Forall₂ (fun j a => convert j = .ok a) before as ∧
      ∃ message, convert i = .error (.error message)

/-- **What a loop that returns an error has stored.** -/
theorem fill_error {l : List ι} {s s' : σ} {message : Text}
    (h : fill convert store l s = .error (.error message) s') :
    ∃ as, ConvertedUpTo convert l as ∧ s' = as.foldl (fun s a => store a s) s := by
  induction l generalizing s with
  | nil => cases h
  | cons i l ih =>
    unfold fill at h
    cases hi : convert i with
    | ok a =>
      rw [hi] at h
      obtain ⟨as, ⟨before, j, after, rfl, hall, hj⟩, hs⟩ := ih h
      exact ⟨a :: as, ⟨i :: before, j, after, rfl, List.Forall₂.cons hi hall, hj⟩, hs⟩
    | error e =>
      rw [hi, call_bind_error, EStateM.Result.error.injEq] at h
      obtain ⟨rfl, rfl⟩ := h
      exact ⟨[], ⟨[], i, l, rfl, List.Forall₂.nil, message, hi⟩, rfl⟩

/-- The loop runs through when every element converts. -/
theorem fill_ok_iff (l : List ι) (s : σ) :
    outcome (fill convert store l s) = .ok () ↔ ∀ i ∈ l, ∃ a, convert i = .ok a := by
  induction l generalizing s with
  | nil => exact iff_of_true rfl (by simp)
  | cons i l ih =>
    rw [List.forall_mem_cons]
    unfold fill
    cases h : convert i with
    | ok a =>
      rw [and_iff_right ⟨a, rfl⟩]
      exact ih (store a s)
    | error e =>
      apply iff_of_false
      · show ¬ Except.error e = _
        simp
      · simp

/-- **What a loop that runs through has stored.** -/
theorem fill_eq_ok_iff (l : List ι) (s s' : σ) :
    fill convert store l s = .ok () s' ↔ ∃ as, List.Forall₂ (fun i a => convert i = .ok a) l as ∧
      s' = as.foldl (fun s a => store a s) s := by
  induction l generalizing s with
  | nil =>
    constructor
    · intro h
      cases h
      exact ⟨[], List.Forall₂.nil, rfl⟩
    · rintro ⟨as, hall, rfl⟩
      cases hall
      rfl
  | cons i l ih =>
    unfold fill
    cases hi : convert i with
    | error e =>
      refine iff_of_false (fun h => by cases h) ?_
      rintro ⟨as, hall, -⟩
      cases hall with
      | cons ha => cases hi.symm.trans ha
    | ok a =>
      show fill convert store l (store a s) = _ ↔ _
      rw [ih]
      constructor
      · rintro ⟨as, hall, rfl⟩
        exact ⟨a :: as, List.Forall₂.cons hi hall, rfl⟩
      · rintro ⟨as, hall, rfl⟩
        cases hall with
        | cons ha hall =>
          rename_i a' as
          obtain rfl : a = a' := by simpa using hi.symm.trans ha
          exact ⟨as, hall, rfl⟩

/-- The loop ends as one of its elements does. -/
theorem fill_ne {e : Stop} {l : List ι} (h : ∀ i ∈ l, convert i ≠ .error e) (s : σ) :
    outcome (fill convert store l s) ≠ .error e := by
  induction l generalizing s with
  | nil =>
    show Except.ok () ≠ _
    simp
  | cons i l ih =>
    rw [List.forall_mem_cons] at h
    unfold fill
    cases hi : convert i with
    | ok a => exact ih h.2 (store a s)
    | error e' =>
      show Except.error e' ≠ Except.error e
      rw [hi] at h
      simpa using h.1

end Call

/-! ## Decimal digits -/

def isDigit (c : Char) : Bool := '0' ≤ c && c ≤ '9'

/-- The number a text of digits spells. -/
def decimal (digits : Text) : Nat := digits.foldl (fun n c => 10 * n + (c.toNat - '0'.toNat)) 0

/-- `std::to_string` of an unsigned number. -/
def toDecimal (n : Nat) : Text := Nat.toDigits 10 n

/-- **Printing a number spells it.** -/
theorem decimal_toDecimal (n : Nat) : decimal (toDecimal n) = n := Nat.ofDigitChars_ten_toDigits

theorem toDecimal_ne_nil (n : Nat) : toDecimal n ≠ [] := Nat.toDigits_ne_nil

theorem isDigit_of_mem_toDecimal {n : Nat} : ∀ c ∈ toDecimal n, isDigit c = true := by
  intro c hc
  have hdigit : c.isDigit = true := Nat.isDigit_of_mem_toDigits (by decide) (by decide) hc
  simpa [isDigit, Char.isDigit, Char.le_def] using hdigit

/-- `std::stoi`, on digits. -/
def stoi (digits : Text) : Except Stop Nat :=
  if decimal digits < 2 ^ 31 then .ok (decimal digits) else .error (.throws .outOfRange)

/-- `std::stoull`, on digits. -/
def stoull (digits : Text) : Except Stop Nat :=
  if decimal digits < 2 ^ 64 then .ok (decimal digits) else .error (.throws .outOfRange)

theorem stoull_of_lt {digits : Text} (h : decimal digits < 2 ^ 64) :
    stoull digits = .ok (decimal digits) := by
  unfold stoull
  rw [if_pos h]

theorem stoull_of_not_lt {digits : Text} (h : ¬ decimal digits < 2 ^ 64) :
    stoull digits = .error (.throws .outOfRange) := by
  unfold stoull
  rw [if_neg h]

end Cpp
