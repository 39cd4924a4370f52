import Mathlib.Data.List.Basic
import Mathlib.Data.Nat.Log
import Mathlib.Tactic.NormNum
import ZkevmFramework.Lib.Cpp

/-!
# `write_assignments.hpp`: tables in binary mode

The bytes that `write_binary_assignment` puts into the output stream, in a build
with `assert` and in one with `NDEBUG`.  Both serialising calls stand inside an
`assert`, so with `NDEBUG` the zero-filled buffer is written instead:

    writeSizeT m true n out = writeSizeT m false n out ↔ n = 0        (writeSizeT_eq_iff)
    writeBinaryAssignment m r true t out ≠ writeBinaryAssignment m r false t out
                                                       (writeBinaryAssignment_ne)

The lengths agree (`length_writeBinaryAssignment`), so the file sizes do not show it.
-/

namespace AssignerRunner

open Cpp (Bytes)

/-- The big-endian bytes of a `size_t`. -/
def bigEndian (n : UInt64) : Bytes := (List.range 8).map fun i => UInt8.ofNat (n.toNat / 256 ^ (7 - i))

/-- The marshalling of a field: every element takes the same number of bytes. -/
structure FieldMarshalling (F : Type) where
  length : Nat
  serialize : F → Bytes
  length_serialize : ∀ x, (serialize x).length = length

/-- `nil::blueprint::assignment`, its columns. -/
structure Assignment (F : Type) where
  publicInputs : List (List F)
  witnesses : List (List F)
  constants : List (List F)
  selectors : List (List F)

/-- `assert(container.write(write_iter, char_array.size()) == success)`: with
`NDEBUG` the call is not compiled, and the buffer stays as it is. -/
def assertWrite (ndebug : Bool) (serialized char_array : Bytes) : Bytes :=
  if ndebug then char_array else serialized

/-- `write_size_t` -/
def writeSizeT (ndebug : Bool) (input : UInt64) (out : Bytes) : Bytes :=
  let char_array := List.replicate 8 0
  out ++ assertWrite ndebug (bigEndian input) char_array

section Table

variable {F : Type} (m : FieldMarshalling F)

/-- `write_zero_field` -/
def writeZeroField (out : Bytes) : Bytes := out ++ List.replicate m.length 0

/-- `write_field` -/
def writeField (ndebug : Bool) (input : F) (out : Bytes) : Bytes :=
  let char_array := List.replicate m.length 0
  out ++ assertWrite ndebug (m.serialize input) char_array

/-- `write_vector_value` -/
def writeVectorValue (ndebug : Bool) (padded_rows_amount : UInt32) (table_col : List F)
    (out : Bytes) : Bytes :=
  (List.range padded_rows_amount.toNat).foldl
    (fun out i =>
      match table_col[i]? with
      | some value => writeField m ndebug value out
      | none => writeZeroField m out)
    out

/-- The largest column size among the first `size` columns. -/
def maxColumnSize (columns : List (List F)) (size : UInt32) : UInt32 :=
  (List.range size.toNat).foldl
    (fun max_size i => max max_size (UInt32.ofNat (columns.getD i []).length)) 0

/-- The header of a group of columns, then the columns. -/
def writeColumns (ndebug : Bool) (padded_rows_amount size : UInt32) (columns : List (List F))
    (out : Bytes) : Bytes :=
  (List.range size.toNat).foldl
    (fun out i => writeVectorValue m ndebug padded_rows_amount (columns.getD i []) out)
    (writeSizeT ndebug (size * padded_rows_amount).toUInt64 out)

/-- `usable_rows_amount` -/
def usableRowsAmount (table : Assignment F) : UInt32 :=
  max (max (max (maxColumnSize table.witnesses (UInt32.ofNat table.witnesses.length))
        (maxColumnSize table.publicInputs (UInt32.ofNat table.publicInputs.length)))
      (maxColumnSize table.constants (UInt32.ofNat table.constants.length)))
    (maxColumnSize table.selectors (UInt32.ofNat table.selectors.length))

/-- `padded_rows_amount`; `pow2Ceil` is `std::pow(2, std::ceil(std::log2(n)))`
with its conversions. -/
def paddedRowsAmount (pow2Ceil : UInt32 → UInt32) (usable_rows_amount : UInt32) : UInt32 :=
  let padded_rows_amount := pow2Ceil usable_rows_amount
  let padded_rows_amount :=
    if padded_rows_amount = usable_rows_amount then padded_rows_amount * 2 else padded_rows_amount
  if padded_rows_amount < 8 then 8 else padded_rows_amount

/-- `write_binary_assignment` -/
def writeBinaryAssignment (pow2Ceil : UInt32 → UInt32) (ndebug : Bool) (table : Assignment F)
    (out : Bytes) : Bytes :=
  let public_input_size := UInt32.ofNat table.publicInputs.length
  let witness_size := UInt32.ofNat table.witnesses.length
  let constant_size := UInt32.ofNat table.constants.length
  let selector_size := UInt32.ofNat table.selectors.length
  let usable_rows_amount := usableRowsAmount table
  let padded_rows_amount := paddedRowsAmount pow2Ceil usable_rows_amount
  let out := writeSizeT ndebug witness_size.toUInt64 out
  let out := writeSizeT ndebug public_input_size.toUInt64 out
  let out := writeSizeT ndebug constant_size.toUInt64 out
  let out := writeSizeT ndebug selector_size.toUInt64 out
  let out := writeSizeT ndebug usable_rows_amount.toUInt64 out
  let out := writeSizeT ndebug padded_rows_amount.toUInt64 out
  let out := writeColumns m ndebug padded_rows_amount witness_size table.witnesses out
  let out := writeColumns m ndebug padded_rows_amount public_input_size table.publicInputs out
  let out := writeColumns m ndebug padded_rows_amount constant_size table.constants out
  writeColumns m ndebug padded_rows_amount selector_size table.selectors out

end Table

/-! ## Single values -/

@[simp] theorem length_bigEndian (n : UInt64) : (bigEndian n).length = 8 := by
  simp [bigEndian]

theorem bigEndian_eq_zero_iff (n : UInt64) : bigEndian n = List.replicate 8 0 ↔ n = 0 := by
  constructor
  · intro h
    have hbyte : ∀ i, i < 8 → n.toNat / 256 ^ (7 - i) % 256 = 0 := by
      intro i hi
      have hmem := (List.eq_replicate_iff.mp h).2 _
        (List.mem_map_of_mem (f := fun i => UInt8.ofNat (n.toNat / 256 ^ (7 - i)))
          (List.mem_range.mpr hi))
      have := congrArg UInt8.toNat hmem
      rwa [UInt8.toNat_ofNat'] at this
    have h0 := hbyte 0 (by decide)
    have h1 := hbyte 1 (by decide)
    have h2 := hbyte 2 (by decide)
    have h3 := hbyte 3 (by decide)
    have h4 := hbyte 4 (by decide)
    have h5 := hbyte 5 (by decide)
    have h6 := hbyte 6 (by decide)
    have h7 := hbyte 7 (by decide)
    norm_num at h0 h1 h2 h3 h4 h5 h6 h7
    have hlt := n.toNat_lt
    apply UInt64.toNat.inj
    rw [UInt64.toNat_zero]
    omega
  · rintro rfl
    decide

theorem writeSizeT_assert (n : UInt64) (out : Bytes) :
    writeSizeT false n out = out ++ bigEndian n := rfl

theorem writeSizeT_ndebug (n : UInt64) (out : Bytes) :
    writeSizeT true n out = out ++ List.replicate 8 0 := rfl

/-- **The builds agree on a size exactly when it is zero.** -/
theorem writeSizeT_eq_iff (n : UInt64) (out : Bytes) :
    writeSizeT true n out = writeSizeT false n out ↔ n = 0 := by
  rw [writeSizeT_assert, writeSizeT_ndebug, List.append_cancel_left_eq, eq_comm]
  exact bigEndian_eq_zero_iff n

/-! ## What is written is appended -/

/-- Both append to the stream, whatever came before, and equally many bytes. -/
def AppendsEqually (f g : Bytes → Bytes) : Prop :=
  ∃ bytes bytes', bytes.length = bytes'.length ∧ (∀ out, f out = out ++ bytes) ∧
    ∀ out, g out = out ++ bytes'

namespace AppendsEqually

theorem comp {f g f' g' : Bytes → Bytes} (hf : AppendsEqually f g) (hf' : AppendsEqually f' g') :
    AppendsEqually (fun out => f' (f out)) (fun out => g' (g out)) := by
  obtain ⟨b, c, hlen, h1, h2⟩ := hf
  obtain ⟨b', c', hlen', h1', h2'⟩ := hf'
  refine ⟨b ++ b', c ++ c', by simp [hlen, hlen'], fun out => ?_, fun out => ?_⟩
  · show f' (f out) = _
    rw [h1, h1', List.append_assoc]
  · show g' (g out) = _
    rw [h2, h2', List.append_assoc]

theorem foldl {ι : Type} {f g : Bytes → ι → Bytes}
    (h : ∀ i, AppendsEqually (fun out => f out i) (fun out => g out i)) (l : List ι) :
    AppendsEqually (fun out => l.foldl f out) (fun out => l.foldl g out) := by
  induction l with
  | nil => exact ⟨[], [], rfl, by simp, by simp⟩
  | cons i l ih => exact (h i).comp ih

end AppendsEqually

theorem length_assertWrite (ndebug : Bool) {serialized char_array : Bytes}
    (h : serialized.length = char_array.length) :
    (assertWrite ndebug serialized char_array).length = char_array.length := by
  cases ndebug
  · exact h
  · rfl

theorem writeSizeT_appends (n : UInt64) :
    AppendsEqually (writeSizeT true n) (writeSizeT false n) :=
  ⟨_, _, by rw [length_assertWrite true (by simp), length_assertWrite false (by simp)],
    fun _ => rfl, fun _ => rfl⟩

section Table

variable {F : Type} (m : FieldMarshalling F)

theorem writeField_appends (x : F) :
    AppendsEqually (writeField m true x) (writeField m false x) :=
  ⟨_, _, by
    rw [length_assertWrite true (by simp [m.length_serialize]),
      length_assertWrite false (by simp [m.length_serialize])],
    fun _ => rfl, fun _ => rfl⟩

/-- **The builds agree on a field element exactly when its serialisation is all zero.** -/
theorem writeField_eq_iff (x : F) (out : Bytes) :
    writeField m true x out = writeField m false x out ↔
      m.serialize x = List.replicate m.length 0 := by
  show out ++ List.replicate m.length 0 = out ++ m.serialize x ↔ _
  rw [List.append_cancel_left_eq, eq_comm]

theorem writeVectorValue_appends (padded : UInt32) (table_col : List F) :
    AppendsEqually (writeVectorValue m true padded table_col)
      (writeVectorValue m false padded table_col) := by
  refine AppendsEqually.foldl ?_ _
  intro i
  cases table_col[i]? with
  | some x => exact writeField_appends m x
  | none => exact ⟨_, _, rfl, fun _ => rfl, fun _ => rfl⟩

theorem writeColumns_appends (padded size : UInt32) (columns : List (List F)) :
    AppendsEqually (writeColumns m true padded size columns)
      (writeColumns m false padded size columns) :=
  (writeSizeT_appends _).comp
    (AppendsEqually.foldl (fun _ => writeVectorValue_appends m padded _) _)

/-- There are never fewer than eight rows. -/
theorem paddedRowsAmount_ne_zero (pow2Ceil : UInt32 → UInt32) (n : UInt32) :
    paddedRowsAmount pow2Ceil n ≠ 0 := by
  unfold paddedRowsAmount
  simp only []
  generalize (if pow2Ceil n = n then pow2Ceil n * 2 else pow2Ceil n) = k
  split
  · decide
  · next h =>
    rintro rfl
    exact h (by decide)

/-- The stream up to the padded number of rows, that number, and the rest. -/
theorem writeBinaryAssignment_appends (pow2Ceil : UInt32 → UInt32) (table : Assignment F) :
    ∃ head head' tail tail' : Bytes, head.length = head'.length ∧ tail.length = tail'.length ∧
      (∀ out, writeBinaryAssignment m pow2Ceil true table out =
        out ++ (head ++ (List.replicate 8 0 ++ tail))) ∧
      ∀ out, writeBinaryAssignment m pow2Ceil false table out =
        out ++ (head' ++ (bigEndian
          (paddedRowsAmount pow2Ceil (usableRowsAmount table)).toUInt64 ++ tail')) := by
  obtain ⟨b, c, hlen, h1, h2⟩ :=
    (((writeSizeT_appends (UInt32.ofNat table.witnesses.length).toUInt64).comp
      (writeSizeT_appends (UInt32.ofNat table.publicInputs.length).toUInt64)).comp
      (writeSizeT_appends (UInt32.ofNat table.constants.length).toUInt64)).comp
      ((writeSizeT_appends (UInt32.ofNat table.selectors.length).toUInt64).comp
        (writeSizeT_appends (usableRowsAmount table).toUInt64))
  generalize hp : paddedRowsAmount pow2Ceil (usableRowsAmount table) = padded
  obtain ⟨b', c', hlen', h1', h2'⟩ :=
    (((writeColumns_appends m padded (UInt32.ofNat table.witnesses.length) table.witnesses).comp
      (writeColumns_appends m padded (UInt32.ofNat table.publicInputs.length)
        table.publicInputs)).comp
      (writeColumns_appends m padded (UInt32.ofNat table.constants.length) table.constants)).comp
      (writeColumns_appends m padded (UInt32.ofNat table.selectors.length) table.selectors)
  refine ⟨b, c, b', c', hlen, hlen', fun out => ?_, fun out => ?_⟩
  · have hhead := h1 out
    have htail := h1' (writeSizeT true padded.toUInt64 (out ++ b))
    simp only [writeBinaryAssignment, hp]
    simp only [] at hhead htail
    rw [hhead, htail, writeSizeT_ndebug]
    simp only [List.append_assoc]
  · have hhead := h2 out
    have htail := h2' (writeSizeT false padded.toUInt64 (out ++ c))
    simp only [writeBinaryAssignment, hp]
    simp only [] at hhead htail
    rw [hhead, htail, writeSizeT_assert]
    simp only [List.append_assoc]

/-- Both builds write equally many bytes. -/
theorem length_writeBinaryAssignment (pow2Ceil : UInt32 → UInt32) (table : Assignment F)
    (out : Bytes) :
    (writeBinaryAssignment m pow2Ceil true table out).length =
      (writeBinaryAssignment m pow2Ceil false table out).length := by
  obtain ⟨head, head', tail, tail', h1, h2, h3, h4⟩ := writeBinaryAssignment_appends m pow2Ceil table
  simp only [h3, h4, List.length_append, h1, h2, List.length_replicate, length_bigEndian]

/-- **No table is written alike by the two builds**: the padded number of rows is
never zero, and with `NDEBUG` eight zero bytes stand in its place. -/
theorem writeBinaryAssignment_ne (pow2Ceil : UInt32 → UInt32) (table : Assignment F) (out : Bytes) :
    writeBinaryAssignment m pow2Ceil true table out ≠
      writeBinaryAssignment m pow2Ceil false table out := by
  obtain ⟨head, head', tail, tail', hlen, -, h1, h2⟩ :=
    writeBinaryAssignment_appends m pow2Ceil table
  rw [h1, h2]
  intro h
  have h := List.append_inj_right (List.append_cancel_left h) hlen
  have hsize := List.append_inj_left h (by simp)
  have hzero := (bigEndian_eq_zero_iff _).mp hsize.symm
  apply paddedRowsAmount_ne_zero pow2Ceil (usableRowsAmount table)
  have := congrArg UInt64.toNat hzero
  rw [UInt32.toNat_toUInt64] at this
  exact UInt32.toNat.inj this

end Table

/-- One witness column with one cell. -/
theorem writeBinaryAssignment_ne_one_cell :
    let m : FieldMarshalling UInt8 := ⟨1, fun b => [b], fun _ => rfl⟩
    let pow2Ceil := fun n : UInt32 => UInt32.ofNat (2 ^ Nat.clog 2 n.toNat)
    let table : Assignment UInt8 := ⟨[], [[5]], [], []⟩
    (writeBinaryAssignment m pow2Ceil true table []).length = 88 ∧
      writeBinaryAssignment m pow2Ceil true table [] = List.replicate 88 0 ∧
      writeBinaryAssignment m pow2Ceil false table [] =
        bigEndian 1 ++ List.replicate 24 0 ++ bigEndian 1 ++ bigEndian 8 ++ bigEndian 8 ++
          (5 :: List.replicate 7 0) ++ List.replicate 24 0 ∧
      writeBinaryAssignment m pow2Ceil true table [] ≠
        writeBinaryAssignment m pow2Ceil false table [] := by
  decide +kernel

end AssignerRunner
