import ZkevmFramework.Core.MptRuns
import ZkevmFramework.Lib.InPlace
import Mathlib.Data.FinEnum

/-!
# Which keys share a path

`BasicHash` folds the key into 64 bytes and then mixes them in place.  Each step
of the mixing loop rewrites one byte from another one and can be undone, so the
loop is a bijection and only the folding makes keys collide:

    basicHash key = basicHash key' ↔ ∀ j < 64, xorAt key j = xorAt key' j
-/

namespace Core.Mpt

/-- The first loop of `BasicHash`. -/
def foldBytes (key : Bytes) : Bytes :=
  (List.range key.length).foldl
    (fun r i => r.set (i % 64) (r.getD (i % 64) 0 ^^^ key.getD i 0)) (List.replicate 64 0)

/-- One step of the second loop. -/
def mixStep (r : Bytes) (i : Nat) : Bytes :=
  let r := r.set i (r.getD i 0 ^^^ r.getD ((i + 1) % 64) 0)
  r.set i ((r.getD i 0 <<< 1) ||| (r.getD i 0 >>> 7))

/-- The second loop of `BasicHash`. -/
def mixBytes (result : Bytes) : Bytes := (List.range 64).foldl mixStep result

theorem basicHash_eq (key : Bytes) : basicHash key = mixBytes (foldBytes key) := by
  unfold basicHash
  rfl

/-! ## The mixing loop -/

/-- The byte that replaces `a` when its successor is `b`. -/
def mixByte (b a : UInt8) : UInt8 := ((a ^^^ b) <<< 1) ||| ((a ^^^ b) >>> 7)

def unmixByte (b a : UInt8) : UInt8 := ((a >>> 1) ||| (a <<< 7)) ^^^ b

theorem rotate_back (x : UInt8) :
    (((x <<< 1) ||| (x >>> 7)) >>> 1) ||| (((x <<< 1) ||| (x >>> 7)) <<< 7) = x := by
  revert x
  decide +kernel

theorem rotate_forth (x : UInt8) :
    (((x >>> 1) ||| (x <<< 7)) <<< 1) ||| (((x >>> 1) ||| (x <<< 7)) >>> 7) = x := by
  revert x
  decide +kernel

theorem unmixByte_mixByte (b a : UInt8) : unmixByte b (mixByte b a) = a := by
  unfold unmixByte mixByte
  rw [rotate_back, UInt8.xor_assoc, UInt8.xor_self, UInt8.xor_zero]

theorem mixByte_unmixByte (b a : UInt8) : mixByte b (unmixByte b a) = a := by
  unfold unmixByte mixByte
  simp only [UInt8.xor_assoc, UInt8.xor_self, UInt8.xor_zero]
  exact rotate_forth a

/-- Byte 63 reads byte 0, which the loop has already mixed. -/
theorem mixStep_eq {i : Nat} (r : Bytes) (hi : i < r.length) :
    mixStep r i = InPlace.rewriteAt 0 mixByte i ((i + 1) % 64) r := by
  unfold mixStep InPlace.rewriteAt mixByte
  simp only [InPlace.getD_set_self _ _ hi, List.set_set]

theorem bijOn_mixStep {i : Nat} (hi : i < 64) :
    Set.BijOn (fun r => mixStep r i) {r | r.length = 64} {r | r.length = 64} := by
  have hne : i ≠ (i + 1) % 64 := by omega
  have hbij := InPlace.bijOn_rewriteAt (d := 0) unmixByte_mixByte mixByte_unmixByte hne hi
  apply hbij.congr
  intro r hr
  have hr : r.length = 64 := hr
  exact (mixStep_eq r (by omega)).symm

theorem bijOn_mixBytes : Set.BijOn mixBytes {r | r.length = 64} {r | r.length = 64} := by
  apply InPlace.bijOn_foldl
  intro i hi
  exact bijOn_mixStep (List.mem_range.mp hi)

/-! ## The folding loop -/

/-- The XOR of the bytes of `key` at the positions congruent to `j` modulo 64. -/
def xorAt (key : Bytes) (j : Nat) : UInt8 :=
  ((List.range key.length).filter fun i => i % 64 = j).foldl (fun acc i => acc ^^^ key.getD i 0) 0

theorem foldBytes_eq (key : Bytes) : foldBytes key = InPlace.accumulate (· ^^^ ·) 0 64 key := rfl

theorem length_foldBytes (key : Bytes) : (foldBytes key).length = 64 :=
  InPlace.length_accumulate _ _ _ key

theorem foldBytes_eq_iff (key key' : Bytes) :
    foldBytes key = foldBytes key' ↔ ∀ j < 64, xorAt key j = xorAt key' j := by
  rw [foldBytes_eq, foldBytes_eq, InPlace.accumulate_eq_iff]
  exact Iff.rfl

/-- The mixing adds no collision. -/
theorem basicHash_eq_iff (key key' : Bytes) :
    basicHash key = basicHash key' ↔ foldBytes key = foldBytes key' := by
  rw [basicHash_eq, basicHash_eq]
  exact bijOn_mixBytes.injOn.eq_iff (length_foldBytes key) (length_foldBytes key')

/-! ## Paths of keys -/

theorem pathFromKey_beq_iff (key key' : Bytes) :
    (pathFromKey key == pathFromKey key') = true ↔ pathFromKey key = pathFromKey key' := by
  rw [Path.beq_iff_nibbles (small_pathFromKey key) (small_pathFromKey key')]
  constructor
  · exact pathFromKey_inj
  · intro h
    rw [h]

theorem ofBytes_inj {data data' : Bytes} : Path.ofBytes data = Path.ofBytes data' ↔ data = data' := by
  constructor
  · intro h
    exact congrArg Path.data h
  · rintro rfl
    rfl

/-- Short keys are their own path, long ones that of their hash, and 64 bytes are not short. -/
theorem pathFromKey_eq_iff (key key' : Bytes) :
    pathFromKey key = pathFromKey key' ↔ key = key' ∨
      (maxRawKeyLen < key.length ∧ maxRawKeyLen < key'.length ∧ basicHash key = basicHash key') := by
  have hlen := length_basicHash key
  have hlen' := length_basicHash key'
  unfold pathFromKey maxRawKeyLen
  by_cases hk : key.length > 32
  · by_cases hk' : key'.length > 32
    · rw [if_pos hk, if_pos hk', ofBytes_inj]
      constructor
      · intro h
        exact Or.inr ⟨hk, hk', h⟩
      · rintro (rfl | ⟨-, -, h⟩)
        · rfl
        · exact h
    · rw [if_pos hk, if_neg hk', ofBytes_inj]
      constructor
      · intro h
        rw [h] at hlen
        omega
      · rintro (rfl | ⟨-, h, -⟩)
        · exact absurd hk hk'
        · exact absurd h hk'
  · by_cases hk' : key'.length > 32
    · rw [if_neg hk, if_pos hk', ofBytes_inj]
      constructor
      · intro h
        rw [← h] at hlen'
        omega
      · rintro (rfl | ⟨h, -, -⟩)
        · exact absurd hk' hk
        · exact absurd h hk
    · rw [if_neg hk, if_neg hk', ofBytes_inj]
      constructor
      · exact Or.inl
      · rintro (h | ⟨h, -, -⟩)
        · exact h
        · exact absurd h hk

/-- **Which keys alias**: equal ones, and long ones that fold to the same bytes;
the mixing loop is a bijection and adds no collision. -/
theorem key_aliasing :
    (∀ key key' : Bytes, (pathFromKey key == pathFromKey key') = true ↔ key = key' ∨
      (32 < key.length ∧ 32 < key'.length ∧ ∀ j < 64, xorAt key j = xorAt key' j)) ∧
    (∀ key, basicHash key = mixBytes (foldBytes key)) ∧
    Set.BijOn mixBytes {r | r.length = 64} {r | r.length = 64} ∧
    ∀ key key', basicHash key = basicHash key' ↔ foldBytes key = foldBytes key' := by
  refine ⟨?_, basicHash_eq, bijOn_mixBytes, basicHash_eq_iff⟩
  intro key key'
  rw [pathFromKey_beq_iff, pathFromKey_eq_iff, basicHash_eq_iff, foldBytes_eq_iff]
  exact Iff.rfl

end Core.Mpt
