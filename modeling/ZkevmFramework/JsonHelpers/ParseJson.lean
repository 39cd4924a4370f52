import ZkevmFramework.JsonHelpers.Hex

/-!
# `parse_json`

The stream is read in chunks of up to 255 bytes until `eof()` holds.  Each chunk
goes to the parser as a NUL-terminated array, so up to its first NUL.

A stream that can be read to its end makes the loop end (`parseJson_returns`).
One whose reads fail without reaching an end of file never sets what the loop
waits for, and gives no document (`ends_of_parseJson`).
-/

namespace JsonHelpers

open Cpp

/-- `boost::json::stream_parser`, with the texts of its error codes. -/
structure StreamParser where
  State : Type
  init : State
  write : State → Bytes → Except Text State
  finish : State → Except Text Value

/-- `std::istream` -/
structure Istream where
  /-- The bytes still to be read. -/
  data : Bytes
  /-- A read past the last byte fails without reaching an end of file. -/
  failing : Bool := false
  eofbit : Bool := false
  /-- `failbit` or `badbit` -/
  failbit : Bool := false

namespace Istream

/-- `stream.read(_, n)`: what is read, and the stream after it. -/
def read (stream : Istream) (n : Nat) : Bytes × Istream :=
  if stream.eofbit || stream.failbit then ([], { stream with failbit := true })
  else if n ≤ stream.data.length then
    (stream.data.take n, { stream with data := stream.data.drop n })
  else (stream.data, { stream with data := [], eofbit := !stream.failing, failbit := true })

/-- The stream is at its end, or will get there. -/
def Ends (stream : Istream) : Prop :=
  stream.eofbit = true ∨ (stream.failing = false ∧ stream.failbit = false)

theorem read_eof {stream : Istream} (h : stream.eofbit = false) (hends : stream.Ends) (n : Nat) :
    (stream.read n).2.Ends ∧
      ((stream.read n).2.eofbit = true ∨
        n ≤ stream.data.length ∧ (stream.read n).2.data.length = stream.data.length - n) := by
  obtain ⟨hfailing, hfail⟩ := hends.resolve_left (by simp [h])
  unfold read
  rw [if_neg (by simp [h, hfail])]
  by_cases hn : n ≤ stream.data.length
  · rw [if_pos hn]
    exact ⟨Or.inr ⟨hfailing, hfail⟩, Or.inr ⟨hn, List.length_drop⟩⟩
  · rw [if_neg hn]
    simp [Ends, hfailing]

theorem read_not_ends {stream : Istream} (hends : ¬ stream.Ends) (n : Nat) :
    ¬ (stream.read n).2.Ends := by
  unfold Ends at hends ⊢
  unfold read
  rw [not_or] at hends
  obtain ⟨heof, hfail⟩ := hends
  rw [Bool.not_eq_true] at heof
  by_cases hset : (stream.eofbit || stream.failbit) = true
  · rw [if_pos hset]
    simp [heof]
  · rw [if_neg hset]
    have hfailing : stream.failing = true := by
      rw [heof, Bool.false_or, Bool.not_eq_true] at hset
      simpa [hset] using hfail
    by_cases hn : n ≤ stream.data.length
    · rw [if_pos hn]
      simp [heof, hfailing]
    · rw [if_neg hn]
      simp [hfailing]

end Istream

section Parse

variable (parser : StreamParser)

/-- The read loop, given the number of times it may turn. -/
def readLoop : Nat → Istream → parser.State → Except Stop parser.State
  | 0, _, _ => .error .hangs
  | fuel + 1, stream, p =>
    if stream.eofbit then .ok p
    else
      -- the array is taken up to its first NUL, the terminator or one that was read
      match parser.write p ((stream.read 255).1.takeWhile fun b => b != 0) with
      | .error message => .error (.error message)
      | .ok p => readLoop fuel (stream.read 255).2 p

/-- `parse_json`; a loop that turns more often than there are bytes never ends. -/
def parseJson (stream : Istream) : Except Stop Value := do
  let p ← readLoop parser (stream.data.length + 2) stream parser.init
  match parser.finish p with
  | .error message => throw (.error message)
  | .ok v => return v

variable {parser}

theorem readLoop_returns {fuel : Nat} {stream : Istream} (p : parser.State) (hends : stream.Ends)
    (hfuel : stream.data.length + 2 ≤ fuel ∨ stream.eofbit = true ∧ 0 < fuel) :
    Returns (readLoop parser fuel stream p) := by
  induction fuel generalizing stream p with
  | zero => omega
  | succ fuel ih =>
    unfold readLoop
    by_cases heof : stream.eofbit = true
    · rw [if_pos heof]
      exact returns_ok p
    · rw [if_neg heof]
      cases parser.write p ((stream.read 255).1.takeWhile fun b => b != 0) with
      | error message => exact returns_error message
      | ok p' =>
        have hsteps := hfuel.resolve_right (by simp [heof])
        obtain ⟨hends', hread⟩ := Istream.read_eof (by simpa using heof) hends 255
        apply ih p' hends'
        rcases hread with hread | ⟨hlen, hread⟩
        · exact Or.inr ⟨hread, by omega⟩
        · exact Or.inl (by omega)

/-- **A stream that can be read to its end gives a document or an error.** -/
theorem parseJson_returns {stream : Istream} (hends : stream.Ends) :
    Returns (parseJson parser stream) := by
  unfold parseJson
  rw [returns_bind_iff]
  refine ⟨readLoop_returns _ hends (Or.inl (Nat.le_refl _)), ?_⟩
  intro p _
  show Returns (match parser.finish p with | .error message => _ | .ok v => _)
  cases parser.finish p with
  | error message => exact returns_error message
  | ok v => exact returns_ok v

/-- More turns change nothing for a stream that does not end. -/
theorem ends_of_readLoop {fuel : Nat} {stream : Istream} {p q : parser.State}
    (h : readLoop parser fuel stream p = .ok q) : stream.Ends := by
  induction fuel generalizing stream p with
  | zero => cases h
  | succ fuel ih =>
    unfold readLoop at h
    by_cases heof : stream.eofbit = true
    · exact Or.inl heof
    · rw [if_neg heof] at h
      by_contra hends
      cases hw : parser.write p ((stream.read 255).1.takeWhile fun b => b != 0) with
      | error message =>
        rw [hw] at h
        cases h
      | ok p' =>
        rw [hw] at h
        exact Istream.read_not_ends hends 255 (ih h)

theorem ends_of_parseJson {stream : Istream} {v : Value} (h : parseJson parser stream = .ok v) :
    stream.Ends := by
  unfold parseJson at h
  cases hr : readLoop parser (stream.data.length + 2) stream parser.init with
  | error e =>
    rw [hr] at h
    cases h
  | ok p => exact ends_of_readLoop hr

end Parse

/-! ## A parser of one text -/

/-- The bytes of an ASCII text. -/
def ascii (s : String) : Bytes := s.toList.map fun c => c.toNat.toUInt8

/-- What a parser makes of one text; it rejects the others. -/
def parserOf (text : Bytes) (v : Value) : StreamParser where
  State := Bytes
  init := []
  write p bytes := .ok (p ++ bytes)
  finish p := if p = text then .ok v else .error "incomplete JSON".toList

/-- One turn of the loop. -/
theorem readLoop_succ {parser : StreamParser} {stream : Istream} {p p' : parser.State}
    (heof : stream.eofbit = false)
    (hwrite : parser.write p ((stream.read 255).1.takeWhile fun b => b != 0) = .ok p') (fuel : Nat) :
    readLoop parser (fuel + 1) stream p = readLoop parser fuel (stream.read 255).2 p' := by
  rw [readLoop, heof, hwrite]
  rfl

theorem readLoop_parserOf {text : Bytes} {v : Value} {fuel : Nat} {data : Bytes} (p : Bytes)
    (hnul : ∀ b ∈ data, b ≠ 0) (hfuel : data.length + 2 ≤ fuel) :
    readLoop (parserOf text v) fuel { data := data } p = .ok (p ++ data) := by
  have htake : ∀ l : Bytes, (∀ b ∈ l, b ≠ 0) → l.takeWhile (fun b => b != 0) = l := by
    intro l hl
    rw [List.takeWhile_eq_self_iff]
    intro b hb
    simpa using hl b hb
  induction fuel generalizing data p with
  | zero => omega
  | succ fuel ih =>
    by_cases hlen : 255 ≤ data.length
    · have hread : Istream.read { data := data } 255 = (data.take 255, { data := data.drop 255 }) := by
        unfold Istream.read
        simp [hlen]
      have hwrite : (parserOf text v).write p
          ((Istream.read { data := data } 255).1.takeWhile fun b => b != 0) =
          .ok (p ++ data.take 255 : Bytes) := by
        rw [hread, htake _ fun b hb => hnul b (List.mem_of_mem_take hb)]
        rfl
      rw [readLoop_succ rfl hwrite, hread]
      have hdrop : (data.drop 255).length = data.length - 255 := List.length_drop
      refine (ih _ (fun b hb => hnul b (List.mem_of_mem_drop hb)) (by omega)).trans ?_
      exact congrArg Except.ok (by rw [List.append_assoc, List.take_append_drop])
    · have hread : Istream.read { data := data } 255 =
          (data, { data := [], eofbit := true, failbit := true }) := by
        unfold Istream.read
        simp [hlen]
      have hwrite : (parserOf text v).write p
          ((Istream.read { data := data } 255).1.takeWhile fun b => b != 0) =
          .ok (p ++ data : Bytes) := by
        rw [hread, htake _ hnul]
        rfl
      rw [readLoop_succ rfl hwrite, hread]
      cases fuel with
      | zero => omega
      | succ fuel => rfl

/-- The one text is parsed, wherever its chunks end. -/
theorem parseJson_parserOf {text : Bytes} (v : Value) (hnul : ∀ b ∈ text, b ≠ 0) :
    parseJson (parserOf text v) { data := text } = .ok v := by
  have hloop : readLoop (parserOf text v) (text.length + 2) { data := text } ([] : Bytes) =
      .ok (text : Bytes) := readLoop_parserOf [] hnul (Nat.le_refl _)
  have hfinish : (parserOf text v).finish text = .ok v := if_pos rfl
  unfold parseJson
  show (readLoop (parserOf text v) (text.length + 2) { data := text } ([] : Bytes) >>= _) = _
  rw [hloop]
  show (match (parserOf text v).finish text with
    | .error message => _
    | .ok v => _) = _
  rw [hfinish]
  rfl

end JsonHelpers
