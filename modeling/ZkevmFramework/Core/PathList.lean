import ZkevmFramework.Core.Path

/-!
# Paths as lists of nibbles

`Reads p q`: what the operations on two paths say is what holds of their lists.
`Joins p q`: `+` concatenates the lists.  `Agree`: paths that are `==` get the
same answers, wherever their nibbles start.  `size()` is narrowed to an `int`,
and `+` adds two of them:

    Reads p q                  ↔ each has fewer than 2 ^ 31 nibbles
    Joins p q                  ↔ both together have fewer than 2 ^ 31    (joins_iff)
    Reads p q, Joins and Agree ↔ both together have fewer than 2 ^ 31    (list_of_nibbles_iff)
    RoundTrips p               ↔ size() is not negative                  (serialize_codec_iff)
-/

namespace Core.Mpt.Path

open Nibble Patricia

/-- The operations but `+`, as operations on lists. -/
structure Reads (p q : Path) : Prop where
  size : p.size = p.nibbles.length
  size_other : q.size = q.nibbles.length
  beq : (p == q) = true ↔ p.nibbles = q.nibbles
  startsWith : p.startsWith q = true ↔ q.nibbles <+: p.nibbles
  consume : ∀ n : Nat, n ≤ p.size → ∃ r, p.consume n = .ok r ∧ r.nibbles = p.nibbles.drop n
  commonPrefix : (p.commonPrefix q).nibbles <+: p.nibbles ∧
    (p.commonPrefix q).nibbles <+: q.nibbles ∧
      ∀ l, l <+: p.nibbles → l <+: q.nibbles → l <+: (p.commonPrefix q).nibbles
  nibbleAt : ∀ i, p.nibbleAt i =
    if h : i < p.nibbles.length then .ok (toByte p.nibbles[i]) else .error .indexOutOfRange

def Joins (p q : Path) : Prop := ∃ r, p.append q = .ok r ∧ r.nibbles = p.nibbles ++ q.nibbles

/-- Both calls give a path, and the paths are `==`. -/
def SamePath (x y : Except Error Path) : Prop :=
  ∃ r s, x = .ok r ∧ y = .ok s ∧ (r == s) = true

/-- The operations make no difference between `p`, `q` and `p'`, `q'`. -/
structure Agree (p q p' q' : Path) : Prop where
  beq : (p == q) = (p' == q')
  startsWith : p.startsWith q = p'.startsWith q'
  consume : ∀ n : Nat, n ≤ p.size → SamePath (p.consume n) (p'.consume n)
  commonPrefix : (p.commonPrefix q == p'.commonPrefix q') = true
  append : SamePath (p.append q) (p'.append q')
  nibbleAt : ∀ i, p.nibbleAt i = p'.nibbleAt i

/-! ## Sizes -/

theorem size_eq_length_iff (p : Path) : p.size = p.nibbles.length ↔ p.nibbles.length < 2 ^ 31 := by
  constructor
  · intro h
    have := p.size_lt
    omega
  · exact size_eq

theorem size_nonneg_iff (p : Path) : 0 ≤ p.size ↔ p.nibbles.length % 2 ^ 32 < 2 ^ 31 := by
  rw [size_eq_bmod, Int.bmod_def]
  split <;> omega

theorem small_commonPrefix (p q : Path) : (p.commonPrefix q).Small := by
  have hle := (lcp_prefix_left p.visible q.visible).length_le
  have := p.length_visible_lt
  rw [Small, nibbles_commonPrefix_visible]
  omega

/-- The path `+` gives is as long as the sum of the two sizes. -/
theorem length_append {p q r : Path} (h : p.append q = .ok r) :
    (r.nibbles.length : Int) = p.size + q.size ∧ p.size + q.size < 2 ^ 31 := by
  unfold append at h
  by_cases hsum : p.size + q.size < 0 ∨ 2 ^ 31 ≤ p.size + q.size
  · rw [if_pos hsum] at h
    cases h
  · rw [if_neg hsum] at h
    dsimp only at h
    refine ⟨?_, by omega⟩
    rw [length_nibbles]
    split at h
    all_goals
      cases h
      simp only [List.length_cons, length_everySecond]
      omega

/-- Consuming no more than `size()` takes as much from what it shows. -/
theorem consume_visible {p : Path} {n : Nat} (h : n ≤ p.size) :
    ∃ r, p.consume n = .ok r ∧ r.nibbles = p.nibbles.drop n ∧ 0 ≤ r.size ∧
      r.visible = p.visible.drop n := by
  have hle := p.size_toNat_le
  obtain ⟨r, hr, hn⟩ := consume_ok (show n ≤ p.nibbles.length by omega)
  have hsize : r.size = p.size - n := by
    have hp := p.size_eq_bmod
    rw [Int.bmod_def] at hp
    rw [size_eq_bmod, hn, List.length_drop, Int.bmod_def]
    split at hp <;> split <;> omega
  refine ⟨r, hr, hn, by omega, ?_⟩
  rw [visible, visible, hsize, hn, List.drop_take]
  congr 1
  omega

/-! ## Paths that are `==` -/

theorem samePath_of_nibbles {x y : Except Error Path} {r s : Path} (hr : x = .ok r) (hs : y = .ok s)
    (hsmall : r.Small) (h : r.nibbles = s.nibbles) : SamePath x y := by
  have hsmall' : s.Small := by rwa [Small, ← h]
  exact ⟨r, s, hr, hs, (beq_iff_nibbles hsmall hsmall').mpr h⟩

theorem consume_agree {p p' : Path} (hp : (p == p') = true) {n : Nat} (h : n ≤ p.size) :
    SamePath (p.consume n) (p'.consume n) := by
  obtain ⟨hsize, hvisible⟩ := beq_iff.mp hp
  obtain ⟨r, hr, -, hr0, hrv⟩ := consume_visible h
  obtain ⟨s, hs, -, hs0, hsv⟩ := consume_visible (hsize ▸ h)
  refine ⟨r, s, hr, hs, (beq_iff_visible hr0 hs0).mpr ?_⟩
  rw [hrv, hsv, hvisible]

/-- Every operation looks at `size()` and the nibbles below it only. -/
theorem agree_of_beq {p q p' q' : Path} (hp : (p == p') = true) (hq : (q == q') = true)
    (hp0 : 0 ≤ p.size) (hq0 : 0 ≤ q.size) (hs : p.size + q.size < 2 ^ 31) : Agree p q p' q' := by
  obtain ⟨hpsize, hpvisible⟩ := beq_iff.mp hp
  obtain ⟨hqsize, hqvisible⟩ := beq_iff.mp hq
  constructor
  · rw [Bool.eq_iff_iff, beq_iff, beq_iff, hpsize, hqsize, hpvisible, hqvisible]
  · rw [Bool.eq_iff_iff, startsWith_iff_visible, startsWith_iff_visible, hpsize, hqsize,
      hpvisible, hqvisible]
  · intro n hn
    exact consume_agree hp hn
  · rw [beq_iff_nibbles (small_commonPrefix p q) (small_commonPrefix p' q'),
      nibbles_commonPrefix_visible, nibbles_commonPrefix_visible, hpvisible, hqvisible]
  · obtain ⟨r, hr, hrn⟩ := append_eq_visible hp0 hq0 hs
    obtain ⟨s, hs', hsn⟩ := append_eq_visible (hpsize ▸ hp0) (hqsize ▸ hq0) (by omega)
    have hsmall : r.Small := by
      have := length_append hr
      rw [Small]
      omega
    exact samePath_of_nibbles hr hs' hsmall (by rw [hrn, hsn, hpvisible, hqvisible])
  · intro i
    rw [nibbleAt_eq hp0, nibbleAt_eq (hpsize ▸ hp0)]
    simp only [hpvisible]

/-! ## Lists of nibbles -/

theorem reads_of_small {p q : Path} (hp : p.Small) (hq : q.Small) : Reads p q := by
  constructor
  · exact size_eq hp
  · exact size_eq hq
  · exact beq_iff_nibbles hp hq
  · exact startsWith_iff hp hq
  · intro n hn
    obtain ⟨r, hr, hrn, -⟩ := consume_visible hn
    exact ⟨r, hr, hrn⟩
  · rw [nibbles_commonPrefix hp hq]
    exact ⟨lcp_prefix_left _ _, lcp_prefix_right _ _, fun l => prefix_lcp⟩
  · intro i
    rw [nibbleAt_eq (by rw [size_eq hp]; omega)]
    simp only [visible_eq hp]

theorem joins_iff (p q : Path) : Joins p q ↔ p.nibbles.length + q.nibbles.length < 2 ^ 31 := by
  constructor
  · rintro ⟨r, hr, hn⟩
    obtain ⟨hlen, hlt⟩ := length_append hr
    rw [hn, List.length_append] at hlen
    omega
  · intro h
    exact append_ok (by rw [Small]; omega) (by rw [Small]; omega) h

/-- **A path is its list of nibbles**: for everything but `+` as long as both
sizes fit an `int`, and for all of it as long as their sum does. -/
theorem list_of_nibbles_iff (p q : Path) :
    (Reads p q ↔ p.nibbles.length < 2 ^ 31 ∧ q.nibbles.length < 2 ^ 31) ∧
    ((Reads p q ∧ Joins p q ∧
        ∀ p' q', (p == p') = true → (q == q') = true → Agree p q p' q') ↔
      p.nibbles.length + q.nibbles.length < 2 ^ 31) := by
  constructor
  · constructor
    · intro h
      exact ⟨p.size_eq_length_iff.mp h.size, q.size_eq_length_iff.mp h.size_other⟩
    · rintro ⟨hp, hq⟩
      exact reads_of_small hp hq
  · constructor
    · rintro ⟨-, hj, -⟩
      exact (joins_iff p q).mp hj
    · intro hs
      have hp : p.Small := by rw [Small]; omega
      have hq : q.Small := by rw [Small]; omega
      refine ⟨reads_of_small hp hq, (joins_iff p q).mpr hs, ?_⟩
      intro p' q' hpp hqq
      have hpsize := size_eq hp
      have hqsize := size_eq hq
      exact agree_of_beq hpp hqq (by omega) (by omega) (by omega)

example : (⟨[0x12], 1, by decide⟩ : Path).append (ofBytes [0x34]) =
    .ok ⟨[0x02, 0x34], 1, by decide⟩ := rfl

/-- Two paths of `2 ^ 31` nibbles: neither size is that, and `==` and `StartsWith`
compare nothing. -/
theorem list_of_nibbles_fails_at_gibibyte :
    (ofBytes (List.replicate (2 ^ 30) 0) == ofBytes (List.replicate (2 ^ 30) 1)) = true ∧
      (ofBytes (List.replicate (2 ^ 30) 0)).startsWith (ofBytes (List.replicate (2 ^ 30) 1)) =
        true ∧
      (ofBytes (List.replicate (2 ^ 30) 0)).nibbles ≠
        (ofBytes (List.replicate (2 ^ 30) 1)).nibbles ∧
      ¬ (ofBytes (List.replicate (2 ^ 30) 1)).nibbles <+:
        (ofBytes (List.replicate (2 ^ 30) 0)).nibbles := by
  have hvisible : ∀ b, (ofBytes (List.replicate (2 ^ 30) b)).visible = [] := by
    intro b
    rw [visible, size_gibibyte]
    rfl
  have hne : (ofBytes (List.replicate (2 ^ 30) 0)).nibbles ≠
      (ofBytes (List.replicate (2 ^ 30) 1)).nibbles := by
    intro h
    rw [nibbles_ofBytes, nibbles_ofBytes] at h
    have h01 := (List.replicate_right_inj (by norm_num)).mp (unpack_injective h)
    exact absurd h01 (by decide)
  refine ⟨?_, ?_, hne, ?_⟩
  · rw [beq_iff, hvisible, hvisible, size_gibibyte, size_gibibyte]
    exact ⟨rfl, rfl⟩
  · rw [startsWith_iff_visible, hvisible, hvisible, size_gibibyte, size_gibibyte]
    exact ⟨le_rfl, List.prefix_rfl⟩
  · intro h
    apply hne
    refine (h.eq_of_length ?_).symm
    simp only [nibbles_ofBytes, length_unpack, List.length_replicate]

/-! ## The serialised form -/

/-- `serialize` writes `ssz_size()` bytes, and `deserialize` reads the path back. -/
def RoundTrips (p : Path) : Prop :=
  ∃ bytes r, p.serialize = .ok bytes ∧ bytes.length = p.sszSize ∧
    deserialize bytes = .ok r ∧ (r == p) = true

theorem roundTrips_iff (p : Path) : p.RoundTrips ↔ 0 ≤ p.size := by
  constructor
  · rintro ⟨bytes, r, hbytes, -⟩
    by_contra h
    rw [serialize_of_neg (not_le.mp h)] at hbytes
    cases hbytes
  · intro h
    obtain ⟨r, hr, hn⟩ := deserialize_flagged p.visible
    exact ⟨_, r, serialize_eq h, (sszSize_eq h).symm, hr, beq_of_nibbles_visible h hn⟩

theorem serialize_eq_iff {p q : Path} (hp : 0 ≤ p.size) (hq : 0 ≤ q.size) :
    p.serialize = q.serialize ↔ (p == q) = true := by
  rw [serialize_eq hp, serialize_eq hq, beq_iff_visible hp hq, Except.ok.injEq]
  constructor
  · exact flagged_injective
  · intro h
    rw [h]

/-- **The serialised form of a path**: it has the announced size, it is read back,
and it tells paths apart exactly as `==` does, as long as no `size()` is negative. -/
theorem serialize_codec_iff (p q : Path) :
    (p.RoundTrips ∧ q.RoundTrips ∧ (p.serialize = q.serialize ↔ (p == q) = true)) ↔
      p.nibbles.length % 2 ^ 32 < 2 ^ 31 ∧ q.nibbles.length % 2 ^ 32 < 2 ^ 31 := by
  rw [roundTrips_iff, roundTrips_iff, size_nonneg_iff, size_nonneg_iff, ← and_assoc]
  apply and_iff_left_of_imp
  rintro ⟨hp, hq⟩
  exact serialize_eq_iff (p.size_nonneg_iff.mpr hp) (q.size_nonneg_iff.mpr hq)

example : (⟨[0x12, 0x34], 1, by decide⟩ : Path).serialize = .ok [0x12, 0x34] := rfl

/-- A path of `2 ^ 31` nibbles is not serialised. -/
theorem serialize_fails_at_gibibyte :
    (ofBytes (List.replicate (2 ^ 30) 0)).serialize = .error .pastEnd ∧
      ¬ (ofBytes (List.replicate (2 ^ 30) 0)).RoundTrips := by
  have hneg : (ofBytes (List.replicate (2 ^ 30) 0)).size < 0 := by
    rw [size_gibibyte]
    decide
  refine ⟨serialize_of_neg hneg, ?_⟩
  rw [roundTrips_iff]
  exact not_le.mpr hneg

end Core.Mpt.Path
