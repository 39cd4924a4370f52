import ZkevmFramework.Core.Error
import ZkevmFramework.Lib.Nibble
import ZkevmFramework.Lib.Patricia

/-!
# `core::mpt::Path`

A path is a byte vector read as nibbles, less the first `offset` of them.  The
abstract view is the list `nibbles`; `size()` is an `int`, so it is the length
of that list only below `2 ^ 31`, and `visible` is what the loops bounded by
`size()` get to see.

    p == q ↔ p.size = q.size ∧ p.visible = q.visible                  (beq_iff)
    p.serialize = flagged p.visible, when `size()` is not negative     (serialize_eq)
    startsWith, at, commonPrefix and + act on `visible`, on `nibbles` for small paths
-/

namespace Core.Mpt

open Nibble Patricia

/-- Conversion of an `int` to `size_t`. -/
def toSizeT (n : Int) : Nat := (n % 2 ^ 64).toNat

/-- `for (i = pos; i < length; i += 2) push_back(f(i))` -/
def everySecond (f : Nat → UInt8) (pos length : Nat) : Bytes :=
  (List.range ((length - pos + 1) / 2)).map fun j => f (pos + 2 * j)

structure Path where
  data : Bytes
  offset : Nat
  offset_le : offset ≤ 2 * data.length
deriving DecidableEq

namespace Path

/-- `Path()` -/
def empty : Path := ⟨[], 0, by simp⟩

/-- `Path(data)` -/
def ofBytes (data : Bytes) : Path := ⟨data, 0, by simp⟩

/-- `int Path::size()`: the `size_t` difference, narrowed to 32 bits. -/
def size (p : Path) : Int := Int.bmod (2 * p.data.length - p.offset) (2 ^ 32)

def isEmpty (p : Path) : Bool := p.size == 0

/-- `operator[]`; every caller below stays inside `data`. -/
def nibble (p : Path) (idx : Nat) : UInt8 :=
  let idx := idx + p.offset
  let target := p.data.getD (idx / 2) 0
  if idx % 2 = 0 then target >>> 4 else target &&& 0x0F

/-- `at`: the bound is compared as `size_t`. -/
def nibbleAt (p : Path) (idx : Nat) : Except Error UInt8 :=
  if toSizeT p.size ≤ idx then .error .indexOutOfRange
  else if 2 * p.data.length ≤ idx + p.offset then .error .pastEnd
  else .ok (p.nibble idx)

/-- `operator==` -/
def beq (p other : Path) : Bool :=
  if other.size ≠ p.size then false
  else (List.range p.size.toNat).all fun i => p.nibble i == other.nibble i

instance : BEq Path := ⟨beq⟩

def startsWith (p other : Path) : Bool :=
  if p.size < other.size then false
  else (List.range other.size.toNat).all fun i => p.nibble i == other.nibble i

/-- `Consume`; past the end the source goes on with a wrapped size. -/
def consume (p : Path) (amount : Nat) : Except Error Path :=
  if h : p.offset + amount ≤ 2 * p.data.length then .ok ⟨p.data, p.offset + amount, h⟩
  else .error .consumePastEnd

theorem length_everySecond (f : Nat → UInt8) (pos length : Nat) :
    (everySecond f pos length).length = (length - pos + 1) / 2 := by
  simp [everySecond]

def constructFromPrefix (p : Path) (length : Nat) : Path :=
  if length % 2 = 1 then
    ⟨p.nibble 0 :: everySecond (fun i => (p.nibble i <<< 4) ||| p.nibble (i + 1)) 1 length, 1,
      by simp; omega⟩
  else ⟨everySecond (fun i => (p.nibble i <<< 4) ||| p.nibble (i + 1)) 0 length, 0, by simp⟩

def commonPrefix (p other : Path) : Path :=
  let least_len := (min p.size other.size).toNat
  let common_len := ((List.range least_len).takeWhile fun i => p.nibble i == other.nibble i).length
  p.constructFromPrefix common_len

/-- `at_combined` of `operator+`, which compares with `size()` as `size_t` -/
def atCombined (p other : Path) (n : Nat) : UInt8 :=
  if n < toSizeT p.size then p.nibble n else other.nibble (n - toSizeT p.size)

/-- `operator+`.  The sizes are added as `int`; a negative sum becomes a size near
`2 ^ 64`, of which no path comes. -/
def append (p other : Path) : Except Error Path :=
  if p.size + other.size < 0 ∨ 2 ^ 31 ≤ p.size + other.size then .error .pastEnd
  else
    let final_size := (p.size + other.size).toNat
    let next_byte (i : Nat) : UInt8 :=
      (p.atCombined other i <<< 4) ||| (p.atCombined other (i + 1) &&& 0x0F)
    if final_size % 2 = 1 then
      .ok ⟨(p.atCombined other 0 &&& 0x0F) :: everySecond next_byte 1 final_size, 1,
        by simp; omega⟩
    else .ok ⟨everySecond next_byte 0 final_size, 0, by simp⟩

/-- `kOddFlag` -/
def oddFlag : UInt8 := 0x10

def sszSize (p : Path) : Nat := toSizeT (1 + p.size.tdiv 2)

/-- `serialize`.  A negative size becomes a loop bound near `2 ^ 64` and the
loop runs off `data`. -/
def serialize (p : Path) : Except Error Bytes :=
  if p.size < 0 then .error .pastEnd
  else
    let nibblesLen := toSizeT p.size
    let nextByte (i : Nat) : UInt8 := (p.nibble i <<< 4) ||| p.nibble (i + 1)
    if nibblesLen % 2 = 1 then
      match p.nibbleAt 0 with
      | .ok first => .ok ((oddFlag ||| first) :: everySecond nextByte 1 nibblesLen)
      | .error e => .error e
    else .ok (0 :: everySecond nextByte 0 nibblesLen)

/-- `deserialize` into a fresh path; `front()` needs a byte. -/
def deserialize : Bytes → Except Error Path
  | [] => .error .pastEnd
  | b :: bs =>
    if b &&& oddFlag = oddFlag then .ok ⟨b :: bs, 1, by simp; omega⟩
    else .ok ⟨b :: bs, 2, by simp⟩

/-! ## The abstract view -/

/-- The nibbles that remain. -/
def nibbles (p : Path) : List (Fin 16) := (unpack p.data).drop p.offset

/-- The nibbles below `size()`. -/
def visible (p : Path) : List (Fin 16) := p.nibbles.take p.size.toNat

/-- `size()` has room for the length. -/
def Small (p : Path) : Prop := p.nibbles.length < 2 ^ 31

theorem nibbles_ofBytes (data : Bytes) : (ofBytes data).nibbles = unpack data := rfl

@[simp] theorem length_nibbles (p : Path) : p.nibbles.length = 2 * p.data.length - p.offset := by
  simp [nibbles]

theorem size_eq_bmod (p : Path) : p.size = Int.bmod p.nibbles.length (2 ^ 32) := by
  have := p.offset_le
  rw [length_nibbles, size]
  congr 1
  omega

/-- The size of `2 ^ 31` nibbles. -/
theorem size_gibibyte (b : UInt8) : (ofBytes (List.replicate (2 ^ 30) b)).size = -2 ^ 31 := by
  rw [size]
  simp only [ofBytes, List.length_replicate]
  decide

theorem size_eq {p : Path} (h : p.Small) : p.size = p.nibbles.length := by
  rw [size_eq_bmod, Int.bmod_eq_of_le] <;> unfold Small at h <;> omega

theorem size_toNat_le (p : Path) : p.size.toNat ≤ p.nibbles.length := by
  have hb := Int.bmod_le (x := (p.nibbles.length : Int)) (m := 2 ^ 32) (by decide)
  by_cases h : p.nibbles.length < 2 ^ 31
  · rw [size_eq h]; omega
  · rw [size_eq_bmod]; omega

theorem size_lt (p : Path) : p.size < 2 ^ 31 := by
  have hb := Int.bmod_lt (x := (p.nibbles.length : Int)) (m := 2 ^ 32) (by decide)
  rw [size_eq_bmod]; omega

@[simp] theorem length_visible (p : Path) : p.visible.length = p.size.toNat := by
  rw [visible, List.length_take, Nat.min_eq_left p.size_toNat_le]

theorem length_visible_lt (p : Path) : p.visible.length < 2 ^ 31 := by
  have := p.size_lt
  rw [length_visible]
  omega

theorem visible_eq {p : Path} (h : p.Small) : p.visible = p.nibbles := by
  rw [visible, size_eq h]
  exact List.take_of_length_le (by simp)

theorem toSizeT_of_nonneg {n : Int} (h0 : 0 ≤ n) (h1 : n < 2 ^ 31) : toSizeT n = n.toNat := by
  unfold toSizeT
  omega

theorem nibble_eq {p : Path} {i : Nat} (h : i < p.nibbles.length) :
    p.nibble i = toByte p.nibbles[i] := by
  have hi : p.offset + i < (unpack p.data).length := by
    rw [length_nibbles] at h
    rw [length_unpack]
    omega
  have hget : p.nibbles[i] = (unpack p.data)[p.offset + i] := by simp [nibbles]
  rw [hget, getElem_unpack _ _ hi, nibble, Nat.add_comm i]
  split
  · rw [shiftRight_four]
  · rw [and_low]

theorem nibble_visible {p : Path} {i : Nat} (h : i < p.visible.length) :
    p.nibble i = toByte p.visible[i] := by
  have h' : i < p.nibbles.length := by
    have := p.size_toNat_le
    rw [length_visible] at h
    omega
  rw [nibble_eq h']
  simp [visible]

/-! ## Comparisons -/

/-- The comparison loops of the source, bounded by `n`. -/
theorem all_nibble_iff {p q : Path} {n : Nat} (hp : n ≤ p.nibbles.length)
    (hq : n ≤ q.nibbles.length) :
    ((List.range n).all fun i => p.nibble i == q.nibble i) = true ↔
      p.nibbles.take n = q.nibbles.take n := by
  simp only [List.all_eq_true, List.mem_range, beq_iff_eq]
  constructor
  · intro h
    apply List.ext_getElem
    · simp only [List.length_take]; omega
    · intro i h1 _
      have hi : i < n := by simp only [List.length_take] at h1; omega
      have hn := h i hi
      rw [nibble_eq (by omega), nibble_eq (by omega)] at hn
      simpa using toByte_injective hn
  · intro h i hi
    rw [nibble_eq (by omega), nibble_eq (by omega)]
    have hget := List.getElem_of_eq h (show i < _ by rw [List.length_take]; omega)
    rw [List.getElem_take, List.getElem_take] at hget
    rw [hget]

/-- `operator==` compares sizes and what `size()` shows. -/
theorem beq_iff {p q : Path} : (p == q) = true ↔ p.size = q.size ∧ p.visible = q.visible := by
  show beq p q = true ↔ _
  unfold beq
  by_cases h : q.size = p.size
  · have hq : p.size.toNat ≤ q.nibbles.length := h ▸ q.size_toNat_le
    rw [if_neg (by simp [h]), all_nibble_iff p.size_toNat_le hq, visible, visible, h]
    simp
  · rw [if_pos h]
    simp [Ne.symm h]

theorem beq_iff_visible {p q : Path} (hp : 0 ≤ p.size) (hq : 0 ≤ q.size) :
    (p == q) = true ↔ p.visible = q.visible := by
  refine ⟨fun h => (beq_iff.mp h).2, fun h => beq_iff.mpr ⟨?_, h⟩⟩
  have := congrArg List.length h
  rw [p.length_visible, q.length_visible] at this
  omega

/-- A path that holds what `size()` shows of another is `==` to it. -/
theorem beq_of_nibbles_visible {p q : Path} (hq : 0 ≤ q.size) (h : p.nibbles = q.visible) :
    (p == q) = true := by
  have hp : p.Small := by rw [Small, h]; exact q.length_visible_lt
  rw [beq_iff_visible (by rw [size_eq hp]; omega) hq, visible_eq hp, h]

theorem beq_iff_nibbles {p q : Path} (hp : p.Small) (hq : q.Small) :
    (p == q) = true ↔ p.nibbles = q.nibbles := by
  rw [beq_iff, visible_eq hp, visible_eq hq, size_eq hp, size_eq hq]
  constructor
  · exact And.right
  · intro h
    exact ⟨by rw [h], h⟩

/-- `StartsWith` compares sizes and what `size()` shows. -/
theorem startsWith_iff_visible {p q : Path} :
    p.startsWith q = true ↔ q.size ≤ p.size ∧ q.visible <+: p.visible := by
  unfold startsWith
  by_cases h : p.size < q.size
  · rw [if_pos h]
    simp [not_le.mpr h]
  · have hle : q.size.toNat ≤ p.size.toNat := by omega
    have htake : p.visible.take q.size.toNat = p.nibbles.take q.size.toNat := by
      rw [visible, List.take_take, Nat.min_eq_left hle]
    rw [if_neg h, all_nibble_iff (hle.trans p.size_toNat_le) q.size_toNat_le,
      List.prefix_iff_eq_take, length_visible, htake, and_iff_right (not_lt.mp h)]
    exact eq_comm

theorem startsWith_iff {p q : Path} (hp : p.Small) (hq : q.Small) :
    p.startsWith q = true ↔ q.nibbles <+: p.nibbles := by
  rw [startsWith_iff_visible, visible_eq hp, visible_eq hq, size_eq hp, size_eq hq]
  exact and_iff_right_of_imp fun h => by exact_mod_cast h.length_le

theorem isEmpty_iff {p : Path} (hp : p.Small) : p.isEmpty = true ↔ p.nibbles = [] := by
  simp only [isEmpty, beq_iff_eq, size_eq hp, Int.natCast_eq_zero]
  exact List.length_eq_zero_iff

/-- `at` gives what `size()` shows, and throws past it. -/
theorem nibbleAt_eq {p : Path} (h : 0 ≤ p.size) (i : Nat) :
    p.nibbleAt i =
      if hi : i < p.visible.length then .ok (toByte p.visible[i]) else .error .indexOutOfRange := by
  have hT : toSizeT p.size = p.visible.length := by
    rw [toSizeT_of_nonneg h p.size_lt, length_visible]
  have hle := p.size_toNat_le
  have hdata := p.length_nibbles
  have hlen := p.length_visible
  rw [nibbleAt, hT]
  by_cases hi : i < p.visible.length
  · rw [if_neg (by omega), if_neg (by omega), dif_pos hi, nibble_visible hi]
  · rw [if_pos (by omega), dif_neg hi]

theorem nibbleAt_cons {p : Path} (hp : p.Small) {i : Fin 16} {ns : List (Fin 16)}
    (h : p.nibbles = i :: ns) : p.nibbleAt 0 = .ok (toByte i) := by
  have hv := (visible_eq hp).trans h
  rw [nibbleAt_eq (by rw [size_eq hp]; omega), dif_pos (by rw [hv]; simp)]
  simp [hv]

/-! ## Consuming and building -/

/-- Consuming drops nibbles. -/
theorem consume_ok {p : Path} {n : Nat} (h : n ≤ p.nibbles.length) :
    ∃ p', p.consume n = .ok p' ∧ p'.nibbles = p.nibbles.drop n := by
  rw [length_nibbles] at h
  have hle := p.offset_le
  unfold consume
  rw [dif_pos (by omega)]
  refine ⟨_, rfl, ?_⟩
  simp [nibbles, List.drop_drop]

/-- The packing loops: from `pos` on, two nibbles a turn. -/
theorem everySecond_eq_pack {f : Nat → UInt8} {l : List (Fin 16)} {pos : Nat}
    (hpos : pos ≤ l.length) (heven : (l.length - pos) % 2 = 0)
    (hf : ∀ i (h : i + 1 < l.length), pos ≤ i → f i = pair l[i] l[i + 1]) :
    everySecond f pos l.length = pack (l.drop pos) := by
  apply unpack_injective
  rw [unpack_pack _ (by simpa using heven)]
  apply List.ext_getElem
  · rw [length_unpack, length_everySecond, List.length_drop]
    omega
  · intro i h1 h2
    rw [List.length_drop] at h2
    rw [getElem_unpack _ _ h1]
    have hlt : i / 2 < (l.length - pos + 1) / 2 := by omega
    have hget : (everySecond f pos l.length).getD (i / 2) 0 = f (pos + 2 * (i / 2)) := by
      simp [everySecond, hlt]
    rw [hget, hf _ (by omega) (by omega)]
    split
    · rw [hi_pair, List.getElem_drop]
      congr 1
      omega
    · rw [lo_pair, List.getElem_drop]
      congr 1
      omega

/-- Bytes behind a possible half byte are the nibbles of the list. -/
theorem nibbles_packed (l : List (Fin 16)) {f : Nat → UInt8} (b : UInt8)
    (hb : ∀ h : 0 < l.length, lo b = l[0])
    (hf : ∀ i (h : i + 1 < l.length), f i = pair l[i] l[i + 1]) {p : Path}
    (hp : p.data = if l.length % 2 = 1 then b :: everySecond f 1 l.length
      else everySecond f 0 l.length)
    (ho : p.offset = if l.length % 2 = 1 then 1 else 0) : p.nibbles = l := by
  rw [nibbles, hp, ho]
  split
  · next h =>
    have hpos : 1 ≤ l.length := by omega
    rw [everySecond_eq_pack hpos (by omega) (fun i hi _ => hf i hi), unpack_cons, unpack_pack _
      (by rw [List.length_drop]; omega), hb (by omega)]
    cases l with
    | nil => simp at h
    | cons a l => simp
  · next h =>
    rw [everySecond_eq_pack (Nat.zero_le _) (by omega) (fun i hi _ => hf i hi), unpack_pack _
      (by rw [List.length_drop]; omega)]
    simp

theorem nibbles_constructFromPrefix {p : Path} {n : Nat} (h : n ≤ p.nibbles.length) :
    (p.constructFromPrefix n).nibbles = p.nibbles.take n := by
  have hlen : (p.nibbles.take n).length = n := by rw [List.length_take]; omega
  have hget : ∀ i (hi : i < n), p.nibble i = toByte (p.nibbles.take n)[i] := by
    intro i hi
    rw [nibble_eq (by omega)]
    simp
  refine nibbles_packed (p.nibbles.take n) (p.nibble 0)
    (f := fun i => (p.nibble i <<< 4) ||| p.nibble (i + 1)) ?_ ?_ ?_ ?_
  · intro h0
    rw [hget 0 (by omega), lo_toByte]
  · intro i hi
    rw [hget i (by omega), hget (i + 1) (by omega), shiftLeft_or]
  · rw [hlen, constructFromPrefix]
    split <;> rfl
  · rw [hlen, constructFromPrefix]
    split <;> rfl

/-- The loop that counts equal nibbles stops at the longest common prefix. -/
theorem length_takeWhile_eq_lcp (l m : List (Fin 16)) (f g : Nat → UInt8)
    (hf : ∀ i (h : i < l.length), f i = toByte l[i])
    (hg : ∀ i (h : i < m.length), g i = toByte m[i]) :
    ((List.range (min l.length m.length)).takeWhile fun i => f i == g i).length =
      (lcp l m).length := by
  induction l generalizing m f g with
  | nil => simp
  | cons a l ih =>
    cases m with
    | nil => simp
    | cons b m =>
      have hmin : min (a :: l).length (b :: m).length = min l.length m.length + 1 := by
        simp only [List.length_cons]; omega
      have h0 : f 0 = toByte a := hf 0 (by simp)
      have h0' : g 0 = toByte b := hg 0 (by simp)
      rw [hmin, List.range_succ_eq_map, List.takeWhile_cons, h0, h0', lcp]
      by_cases hab : a = b
      · subst hab
        have hih := ih m (fun i => f (i + 1)) (fun i => g (i + 1))
          (fun i h => hf (i + 1) (by simpa using h)) (fun i h => hg (i + 1) (by simpa using h))
        rw [if_pos (by simp), if_pos rfl, List.takeWhile_map, List.length_cons, List.length_map,
          List.length_cons, ← hih]
        rfl
      · have hne : toByte a ≠ toByte b := fun h => hab (toByte_injective h)
        rw [if_neg (by simpa using hne), if_neg hab]
        rfl

/-- `CommonPrefix` of what the two sizes show. -/
theorem nibbles_commonPrefix_visible (p q : Path) :
    (p.commonPrefix q).nibbles = lcp p.visible q.visible := by
  have hlen := length_takeWhile_eq_lcp p.visible q.visible p.nibble q.nibble
    (fun i h => nibble_visible h) (fun i h => nibble_visible h)
  have hmin : (min p.size q.size).toNat = min p.visible.length q.visible.length := by
    rw [length_visible, length_visible]; omega
  have hpre := lcp_prefix_left p.visible q.visible
  have hle := hpre.trans (List.take_prefix _ _)
  unfold commonPrefix
  simp only [hmin, hlen]
  rw [nibbles_constructFromPrefix hle.length_le]
  exact (List.prefix_iff_eq_take.mp hle).symm

theorem nibbles_commonPrefix {p q : Path} (hp : p.Small) (hq : q.Small) :
    (p.commonPrefix q).nibbles = lcp p.nibbles q.nibbles := by
  rw [nibbles_commonPrefix_visible, visible_eq hp, visible_eq hq]

theorem atCombined_eq {p q : Path} (hp : 0 ≤ p.size) {i : Nat}
    (h : i < (p.visible ++ q.visible).length) :
    p.atCombined q i = toByte (p.visible ++ q.visible)[i] := by
  rw [List.length_append] at h
  rw [atCombined, toSizeT_of_nonneg hp p.size_lt, ← length_visible]
  split
  · next hi => rw [nibble_visible hi, List.getElem_append_left hi]
  · next hi => rw [nibble_visible (by omega), List.getElem_append_right (by omega)]

/-- `operator+` concatenates what the two sizes show. -/
theorem append_eq_visible {p q : Path} (hp : 0 ≤ p.size) (hq : 0 ≤ q.size)
    (hs : p.size + q.size < 2 ^ 31) :
    ∃ r, p.append q = .ok r ∧ r.nibbles = p.visible ++ q.visible := by
  have hsum : (p.size + q.size).toNat = (p.visible ++ q.visible).length := by
    rw [List.length_append, length_visible, length_visible]; omega
  have hlow : ∀ h : 0 < (p.visible ++ q.visible).length,
      lo (p.atCombined q 0 &&& 0x0F) = (p.visible ++ q.visible)[0] := by
    intro h
    rw [atCombined_eq hp h, toByte_and_low, lo_toByte]
  have hbody : ∀ i (h : i + 1 < (p.visible ++ q.visible).length),
      (p.atCombined q i <<< 4) ||| (p.atCombined q (i + 1) &&& 0x0F) =
        pair (p.visible ++ q.visible)[i] (p.visible ++ q.visible)[i + 1] := by
    intro i h
    rw [atCombined_eq hp (by omega), atCombined_eq hp h, toByte_and_low, shiftLeft_or]
  have hguard : ¬ (p.size + q.size < 0 ∨ 2 ^ 31 ≤ p.size + q.size) := by omega
  rw [append, if_neg hguard]
  simp only [hsum]
  split
  · next h =>
    exact ⟨_, rfl, nibbles_packed _ _ hlow hbody (by rw [if_pos h]) (by rw [if_pos h])⟩
  · next h =>
    exact ⟨_, rfl, nibbles_packed _ _ hlow hbody (by rw [if_neg h]) (by rw [if_neg h])⟩

/-- `operator+` concatenates. -/
theorem append_ok {p q : Path} (hp : p.Small) (hq : q.Small)
    (hs : p.nibbles.length + q.nibbles.length < 2 ^ 31) :
    ∃ r, p.append q = .ok r ∧ r.nibbles = p.nibbles ++ q.nibbles := by
  have h := append_eq_visible (p := p) (q := q) (by rw [size_eq hp]; omega)
    (by rw [size_eq hq]; omega) (by rw [size_eq hp, size_eq hq]; omega)
  rwa [visible_eq hp, visible_eq hq] at h

/-! ## Serialisation -/

theorem serialize_of_neg {p : Path} (h : p.size < 0) : p.serialize = .error .pastEnd := by
  rw [serialize, if_pos h]

/-- `serialize` writes what `size()` shows, behind a flag nibble. -/
theorem serialize_eq {p : Path} (h : 0 ≤ p.size) : p.serialize = .ok (flagged p.visible) := by
  have hlt := p.size_lt
  have hlen := p.length_visible
  have hT : toSizeT p.size = p.visible.length := by rw [toSizeT_of_nonneg h hlt, hlen]
  have hpack : ∀ i (hi : i + 1 < p.visible.length),
      (p.nibble i <<< 4) ||| p.nibble (i + 1) = pair p.visible[i] p.visible[i + 1] := by
    intro i hi
    rw [nibble_visible (by omega), nibble_visible hi, shiftLeft_or]
  unfold serialize flagged
  rw [if_neg (by omega)]
  simp only [hT]
  split
  · next hodd =>
    have hpos : 0 < p.visible.length := by omega
    rw [nibbleAt_eq h, dif_pos hpos,
      everySecond_eq_pack (by omega) (by omega) (fun i hi _ => hpack i hi)]
    simp only [oddFlag, flag_or]
    generalize p.visible = l at hpos
    cases l with
    | nil => simp at hpos
    | cons a l => rfl
  · rw [everySecond_eq_pack (by omega) (by omega) (fun i hi _ => hpack i hi)]
    rfl

/-- The declared size is the size written. -/
theorem sszSize_eq {p : Path} (h : 0 ≤ p.size) : p.sszSize = (flagged p.visible).length := by
  have hlt := p.size_lt
  rw [length_flagged, length_visible, sszSize, toSizeT, Int.tdiv_eq_ediv_of_nonneg h]
  omega

/-- Reading back what `serialize` writes. -/
theorem deserialize_flagged (l : List (Fin 16)) :
    ∃ p, deserialize (flagged l) = .ok p ∧ p.nibbles = l := by
  obtain ⟨b, bs, hbs, hflag⟩ := flagged_eq_cons l
  have hun := unpack_flagged l
  rw [hbs] at hun ⊢
  simp only [deserialize]
  by_cases hodd : l.length % 2 = 1
  · rw [if_pos (show b &&& oddFlag = oddFlag from hflag.mpr hodd)]
    rw [if_pos hodd] at hun
    exact ⟨_, rfl, by simp only [nibbles, hun]; rfl⟩
  · rw [if_neg (show ¬ b &&& oddFlag = oddFlag from fun h => hodd (hflag.mp h))]
    rw [if_neg hodd] at hun
    exact ⟨_, rfl, by simp only [nibbles, hun]; rfl⟩

end Path

end Core.Mpt
