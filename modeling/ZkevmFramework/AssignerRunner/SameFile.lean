import Mathlib.Data.List.GetD
import ZkevmFramework.AssignerRunner.BinaryLayout

/-!
# Which tables have the same file

The file has the numbers of columns, the number of rows and the cells, and where a
column ends it goes on with zeros.  So two tables that fit have the same file
exactly when these agree (`writeBinaryAssignment_eq_iff`): the sizes of columns
shorter than the longest are not in it.
-/

namespace AssignerRunner

open Cpp (Bytes)

/-! ## Sizes -/

theorem bigEndian_injective : Function.Injective bigEndian := by
  intro n n' h
  have hbyte : ∀ i < 8, n.toNat / 256 ^ (7 - i) % 256 = n'.toNat / 256 ^ (7 - i) % 256 := by
    intro i hi
    have hi' := congrArg UInt8.toNat (List.map_inj_left.mp h i (List.mem_range.mpr hi))
    rwa [UInt8.toNat_ofNat', UInt8.toNat_ofNat'] at hi'
  have h0 := hbyte 0 (by decide)
  have h1 := hbyte 1 (by decide)
  have h2 := hbyte 2 (by decide)
  have h3 := hbyte 3 (by decide)
  have h4 := hbyte 4 (by decide)
  have h5 := hbyte 5 (by decide)
  have h6 := hbyte 6 (by decide)
  have h7 := hbyte 7 (by decide)
  norm_num at h0 h1 h2 h3 h4 h5 h6 h7
  have hlt := n.toNat_lt
  have hlt' := n'.toNat_lt
  apply UInt64.toNat.inj
  omega

theorem sizeField_inj {k k' : Nat} (hk : k < 2 ^ 64) (hk' : k' < 2 ^ 64)
    (h : sizeField k = sizeField k') : k = k' := by
  have hnat := congrArg UInt64.toNat (bigEndian_injective h)
  rwa [UInt64.toNat_ofNat', UInt64.toNat_ofNat', Nat.mod_eq_of_lt hk, Nat.mod_eq_of_lt hk'] at hnat

/-- A size that is read off the front. -/
theorem sizeField_append_inj {k k' : Nat} {rest rest' : Bytes} (hk : k < 2 ^ 64) (hk' : k' < 2 ^ 64)
    (h : sizeField k ++ rest = sizeField k' ++ rest') : k = k' ∧ rest = rest' := by
  obtain ⟨hsize, hrest⟩ := List.append_inj h (by simp [sizeField])
  exact ⟨sizeField_inj hk hk' hsize, hrest⟩

/-! ## Cells -/

section Cells

variable {F : Type} (m : FieldMarshalling F) (zero : F)

/-- As many columns, and the same cells, where one that is not there is a zero. -/
structure SameCells (columns columns' : List (List F)) : Prop where
  length : columns.length = columns'.length
  cell : ∀ c r, (columns.getD c []).getD r zero = (columns'.getD c []).getD r zero

theorem getD_zero_of_le {padded : Nat} {columns : List (List F)}
    (hle : ∀ col ∈ columns, col.length ≤ padded) {c r : Nat} (hr : padded ≤ r) :
    (columns.getD c []).getD r zero = zero := by
  apply List.getD_eq_default
  rcases Nat.lt_or_ge c columns.length with hc | hc
  · rw [List.getD_eq_getElem columns [] hc]
    exact (hle _ (List.getElem_mem hc)).trans hr
  · rw [List.getD_eq_default columns [] hc]
    exact Nat.zero_le r

/-- **The padded cells are the cells of the table.** -/
theorem paddedCells_eq_iff {padded : Nat} {columns columns' : List (List F)}
    (hlength : columns.length = columns'.length) (hle : ∀ col ∈ columns, col.length ≤ padded)
    (hle' : ∀ col ∈ columns', col.length ≤ padded) :
    paddedCells zero padded columns = paddedCells zero padded columns' ↔
      SameCells zero columns columns' := by
  constructor
  · intro h
    refine ⟨hlength, fun c r => ?_⟩
    rcases Nat.lt_or_ge c columns.length with hc | hc
    · rcases Nat.lt_or_ge r padded with hr | hr
      · have hcell := getElem?_paddedCells zero hc hr
        rw [h, getElem?_paddedCells zero (hlength ▸ hc) hr, Option.some.injEq] at hcell
        exact hcell.symm
      · rw [getD_zero_of_le zero hle hr, getD_zero_of_le zero hle' hr]
    · rw [List.getD_eq_default columns [] hc, List.getD_eq_default columns' [] (hlength ▸ hc)]
  · intro h
    unfold paddedCells
    rw [← map_getD_range columns, ← map_getD_range columns', List.flatMap_map, List.flatMap_map,
      hlength]
    simp only [h.cell]

/-- **One kind of columns**: the count and the cells. -/
theorem binaryGroup_append_inj (hinj : Function.Injective m.serialize) {padded : Nat}
    {columns columns' : List (List F)} {rest rest' : Bytes}
    (hlength : columns.length = columns'.length)
    (h : binaryGroup m zero padded columns ++ rest = binaryGroup m zero padded columns' ++ rest') :
    paddedCells zero padded columns = paddedCells zero padded columns' ∧ rest = rest' := by
  have hcells : (paddedCells zero padded columns).length =
      (paddedCells zero padded columns').length := by
    rw [length_paddedCells, length_paddedCells, hlength]
  obtain ⟨hgroup, hrest⟩ := List.append_inj h (by
    simp only [binaryGroup, sizeField, List.length_append, length_bigEndian,
      length_flatMap_serialize, hcells])
  obtain ⟨-, hbytes⟩ := List.append_inj hgroup (by simp [sizeField])
  exact ⟨serialize_inj m hinj hcells hbytes, hrest⟩

end Cells

/-! ## Tables -/

section Tables

variable {F : Type} (m : FieldMarshalling F) (zero : F)

/-- The same numbers of columns of each kind, the same cells, and as many rows. -/
structure Assignment.SameContents (table table' : Assignment F) : Prop where
  rows : table.rows = table'.rows
  witnesses : SameCells zero table.witnesses table'.witnesses
  publicInputs : SameCells zero table.publicInputs table'.publicInputs
  constants : SameCells zero table.constants table'.constants
  selectors : SameCells zero table.selectors table'.selectors

variable {table table' : Assignment F}

theorem Assignment.length_le_paddedRows (table : Assignment F) :
    ∀ columns ∈ table.kinds, ∀ col ∈ columns, col.length ≤ table.paddedRows := by
  intro columns hc col hcol
  exact (Assignment.length_le_rows hc hcol).trans table.rows_lt_paddedRows.le

theorem Assignment.Fits.paddedRows_lt (h : table.Fits) : table.paddedRows < 2 ^ 32 := by
  rw [← h.paddedRowsAmount_toNat]
  exact UInt32.toNat_lt _

theorem paddedRows_congr (h : table.rows = table'.rows) : table.paddedRows = table'.paddedRows := by
  unfold Assignment.paddedRows
  rw [h]

/-- **The layout has the contents of the table**, and nothing else. -/
theorem binaryLayout_eq_iff (hinj : Function.Injective m.serialize) (h : table.Fits)
    (h' : table'.Fits) :
    binaryLayout m zero table = binaryLayout m zero table' ↔ table.SameContents zero table' := by
  have hlt := fun columns (hc : columns ∈ table.kinds) => h.length_lt hc
  have hlt' := fun columns (hc : columns ∈ table'.kinds) => h'.length_lt hc
  have hle := table.length_le_paddedRows
  have hle' := table'.length_le_paddedRows
  have hrow := h.rows
  have hrow' := h'.rows
  have hpad := h.paddedRows_lt
  have hpad' := h'.paddedRows_lt
  unfold binaryLayout
  simp only [Assignment.kinds, List.forall_mem_cons, List.flatMap_cons, List.flatMap_nil] at *
  obtain ⟨hw, hp, hc, hs, -⟩ := hlt
  obtain ⟨hw', hp', hc', hs', -⟩ := hlt'
  obtain ⟨lw, lp, lc, ls, -⟩ := hle
  obtain ⟨lw', lp', lc', ls', -⟩ := hle'
  constructor
  · intro heq
    obtain ⟨nw, heq⟩ := sizeField_append_inj (by omega) (by omega) heq
    obtain ⟨np, heq⟩ := sizeField_append_inj (by omega) (by omega) heq
    obtain ⟨nc, heq⟩ := sizeField_append_inj (by omega) (by omega) heq
    obtain ⟨ns, heq⟩ := sizeField_append_inj (by omega) (by omega) heq
    obtain ⟨nrows, heq⟩ := sizeField_append_inj (by omega) (by omega) heq
    obtain ⟨npadded, heq⟩ := sizeField_append_inj (by omega) (by omega) heq
    rw [← npadded] at heq lw' lp' lc' ls'
    obtain ⟨gw, heq⟩ := binaryGroup_append_inj m zero hinj nw heq
    obtain ⟨gp, heq⟩ := binaryGroup_append_inj m zero hinj np heq
    obtain ⟨gc, heq⟩ := binaryGroup_append_inj m zero hinj nc heq
    obtain ⟨gs, -⟩ := binaryGroup_append_inj m zero hinj ns heq
    exact ⟨nrows, (paddedCells_eq_iff zero nw lw lw').mp gw, (paddedCells_eq_iff zero np lp lp').mp gp,
      (paddedCells_eq_iff zero nc lc lc').mp gc, (paddedCells_eq_iff zero ns ls ls').mp gs⟩
  · intro hsame
    have npadded := paddedRows_congr hsame.rows
    rw [← npadded] at lw' lp' lc' ls' ⊢
    unfold binaryGroup
    rw [hsame.rows, hsame.witnesses.length, hsame.publicInputs.length, hsame.constants.length,
      hsame.selectors.length,
      (paddedCells_eq_iff zero hsame.witnesses.length lw lw').mpr hsame.witnesses,
      (paddedCells_eq_iff zero hsame.publicInputs.length lp lp').mpr hsame.publicInputs,
      (paddedCells_eq_iff zero hsame.constants.length lc lc').mpr hsame.constants,
      (paddedCells_eq_iff zero hsame.selectors.length ls ls').mpr hsame.selectors]

/-- **When two tables are written alike.** -/
theorem writeBinaryAssignment_eq_iff (hinj : Function.Injective m.serialize)
    (hzero : m.serialize zero = List.replicate m.length 0) (h : table.Fits) (h' : table'.Fits)
    (out : Bytes) :
    writeBinaryAssignment m exactPow2Ceil false table out =
        writeBinaryAssignment m exactPow2Ceil false table' out ↔
      table.SameContents zero table' := by
  rw [writeBinaryAssignment_eq m zero hzero h, writeBinaryAssignment_eq m zero hzero h',
    List.append_cancel_left_eq]
  exact binaryLayout_eq_iff m zero hinj h h'

/-- A zero at the end of a column shorter than another is not in the file. -/
theorem writeBinaryAssignment_eq_trailing :
    let m : FieldMarshalling UInt8 := ⟨1, fun b => [b], fun _ => rfl⟩
    let table : Assignment UInt8 := ⟨[], [[1, 2, 3], [4]], [], []⟩
    let table' : Assignment UInt8 := ⟨[], [[1, 2, 3], [4, 0]], [], []⟩
    table ≠ table' ∧
      writeBinaryAssignment m exactPow2Ceil false table [] =
        writeBinaryAssignment m exactPow2Ceil false table' [] ∧
      table.SameContents 0 table' := by
  intro m table table'
  have hfile : writeBinaryAssignment m exactPow2Ceil false table [] =
      writeBinaryAssignment m exactPow2Ceil false table' [] := by decide +kernel
  refine ⟨fun h => ?_, hfile, ?_⟩
  · have hwitnesses := congrArg Assignment.witnesses h
    exact absurd hwitnesses (by decide)
  · exact (writeBinaryAssignment_eq_iff m 0 (fun _ _ h => List.singleton_inj.mp h) rfl
      ⟨by decide +kernel, by decide +kernel⟩ ⟨by decide +kernel, by decide +kernel⟩ []).mp hfile

end Tables

end AssignerRunner
