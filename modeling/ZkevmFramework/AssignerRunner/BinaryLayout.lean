import Mathlib.Data.Nat.Size
import Mathlib.Order.Bounds.Basic
import ZkevmFramework.AssignerRunner.WriteAssignments

/-!
# The layout of a binary table

What `write_binary_assignment` writes in a build with `assert`, for tables whose
sizes fit their 32-bit counters: six sizes, then for each kind of column a count
and the padded columns (`writeBinaryAssignment_eq`).

    padded rows = max 8 (2 ^ Nat.size rows)                  (paddedRowsAmount_exact)
    equal shapes, equal layouts → equal tables               (binaryLayout_injective)
-/

namespace AssignerRunner

open Cpp (Bytes)

/-- `std::pow(2, std::ceil(std::log2(n)))` without rounding; the logarithm of 0
is minus infinity. -/
def exactPow2Ceil (n : UInt32) : UInt32 :=
  if n = 0 then 0 else UInt32.ofNat (2 ^ Nat.clog 2 n.toNat)

section Shape

variable {F : Type}

/-- The columns by kind, in the order of the file. -/
def Assignment.kinds (table : Assignment F) : List (List (List F)) :=
  [table.witnesses, table.publicInputs, table.constants, table.selectors]

/-- The largest size of a column. -/
def maxSize (columns : List (List F)) : Nat := (columns.map List.length).foldr max 0

/-- The usable rows: the maximum of all column sizes. -/
def Assignment.rows (table : Assignment F) : Nat := maxSize table.kinds.flatten

def Assignment.paddedRows (table : Assignment F) : Nat := max 8 (2 ^ table.rows.size)

/-- As many columns of each kind, with the same sizes. -/
def Assignment.SameShape (table table' : Assignment F) : Prop :=
  table.kinds.map (List.map List.length) = table'.kinds.map (List.map List.length)

/-- The cells of some columns, each filled up with zeros. -/
def paddedCells (zero : F) (padded : Nat) (columns : List (List F)) : List F :=
  columns.flatMap fun col => (List.range padded).map fun r => col.getD r zero

variable (m : FieldMarshalling F) (zero : F)

def sizeField (n : Nat) : Bytes := bigEndian (UInt64.ofNat n)

/-- A count and as many field elements. -/
def binaryGroup (padded : Nat) (columns : List (List F)) : Bytes :=
  sizeField (columns.length * padded) ++ (paddedCells zero padded columns).flatMap m.serialize

def binaryLayout (table : Assignment F) : Bytes :=
  sizeField table.witnesses.length ++ (sizeField table.publicInputs.length ++
    (sizeField table.constants.length ++ (sizeField table.selectors.length ++
      (sizeField table.rows ++ (sizeField table.paddedRows ++
        table.kinds.flatMap (binaryGroup m zero table.paddedRows))))))

end Shape

/-! ## Numbers of rows -/

theorem toNat_ofNat_of_lt {n : Nat} (h : n < 2 ^ 32) : (UInt32.ofNat n).toNat = n := by
  rw [UInt32.toNat_ofNat']
  exact Nat.mod_eq_of_lt h

theorem toNat_max (a b : UInt32) : (max a b).toNat = max a.toNat b.toNat := by
  show (if a ≤ b then b else a).toNat = max a.toNat b.toNat
  by_cases h : a ≤ b
  · have hle := UInt32.le_iff_toNat_le.mp h
    rw [if_pos h, max_eq_right hle]
  · have hle := fun h' => h (UInt32.le_iff_toNat_le.mpr h')
    rw [if_neg h, max_eq_left (le_of_not_ge hle)]

theorem size_eq_clog {n : Nat} (hn : n ≠ 0) :
    n.size = if 2 ^ Nat.clog 2 n = n then Nat.clog 2 n + 1 else Nat.clog 2 n := by
  have hle : n ≤ 2 ^ Nat.clog 2 n := Nat.le_pow_clog (by decide) n
  have hclog : Nat.clog 2 n ≤ n.size := Nat.clog_le_of_le_pow (Nat.lt_size_self n).le
  by_cases h : 2 ^ Nat.clog 2 n = n
  · rw [if_pos h]
    apply le_antisymm
    · rw [Nat.size_le, Nat.pow_succ]
      omega
    · rw [Nat.succ_le_iff, Nat.lt_size]
      exact h.le
  · rw [if_neg h]
    apply le_antisymm _ hclog
    rw [Nat.size_le]
    omega

/-- The least power of two above `n`. -/
theorem isLeast_two_pow_size (n : Nat) : IsLeast {p | n < p ∧ ∃ k, p = 2 ^ k} (2 ^ n.size) := by
  refine ⟨⟨Nat.lt_size_self n, n.size, rfl⟩, ?_⟩
  rintro p ⟨hp, k, rfl⟩
  exact Nat.pow_le_pow_right (by decide) (Nat.size_le.mpr hp)

/-- **The padding rule**, with its special cases for 0 rows, exact powers and few rows. -/
theorem paddedRowsAmount_exact {n : UInt32} (hn : n.toNat < 2 ^ 31) :
    (paddedRowsAmount exactPow2Ceil n).toNat = max 8 (2 ^ n.toNat.size) := by
  unfold paddedRowsAmount
  by_cases h0 : n = 0
  · subst h0
    decide
  have hne : n.toNat ≠ 0 := by
    intro h
    exact h0 (UInt32.toNat.inj h)
  have hsize := size_eq_clog hne
  have hle : n.toNat.size ≤ 31 := Nat.size_le.mpr hn
  -- the value before the comparison with 8
  have hpow : (if exactPow2Ceil n = n then exactPow2Ceil n * 2 else exactPow2Ceil n).toNat =
      2 ^ n.toNat.size := by
    have hp31 : 2 ^ n.toNat.size ≤ 2 ^ 31 := Nat.pow_le_pow_right (by decide) hle
    have hclog : (exactPow2Ceil n).toNat = 2 ^ Nat.clog 2 n.toNat := by
      rw [exactPow2Ceil, if_neg h0]
      apply toNat_ofNat_of_lt
      have hc : Nat.clog 2 n.toNat ≤ n.toNat.size :=
        Nat.clog_le_of_le_pow (Nat.lt_size_self _).le
      have := Nat.pow_le_pow_right (show 0 < 2 by decide) hc
      omega
    have hiff : exactPow2Ceil n = n ↔ 2 ^ Nat.clog 2 n.toNat = n.toNat := by
      rw [← hclog]
      exact UInt32.toNat_inj.symm
    by_cases h : exactPow2Ceil n = n
    · rw [if_pos (hiff.mp h)] at hsize
      rw [if_pos h, UInt32.toNat_mul, hclog, hsize, Nat.pow_succ]
      rw [hsize, Nat.pow_succ] at hp31
      apply Nat.mod_eq_of_lt
      show 2 ^ Nat.clog 2 n.toNat * 2 < 2 ^ 32
      omega
    · rw [if_neg (fun h' => h (hiff.mpr h'))] at hsize
      rw [if_neg h, hclog, hsize]
  simp only []
  generalize (if exactPow2Ceil n = n then exactPow2Ceil n * 2 else exactPow2Ceil n) = k at hpow
  by_cases hk : k < 8
  · rw [if_pos hk]
    have hk : k.toNat < 8 := hk
    have : (8 : UInt32).toNat = 8 := rfl
    omega
  · rw [if_neg hk]
    have hk : ¬ k.toNat < 8 := hk
    omega

/-! ## Sizes of columns -/

section Sizes

variable {F : Type}

theorem maxSize_append (columns columns' : List (List F)) :
    maxSize (columns ++ columns') = max (maxSize columns) (maxSize columns') := by
  induction columns with
  | nil => simp [maxSize]
  | cons c cs ih =>
    show max c.length (maxSize (cs ++ columns')) = max (max c.length (maxSize cs)) (maxSize columns')
    rw [ih, max_assoc]

theorem length_le_maxSize {columns : List (List F)} {col : List F} (h : col ∈ columns) :
    col.length ≤ maxSize columns := by
  induction columns with
  | nil => cases h
  | cons c cs ih =>
    show col.length ≤ max c.length (maxSize cs)
    rcases List.mem_cons.mp h with rfl | h
    · exact le_max_left _ _
    · exact (ih h).trans (le_max_right _ _)

theorem map_getD_range (columns : List (List F)) :
    (List.range columns.length).map (fun i => columns.getD i []) = columns := by
  apply List.ext_getElem
  · simp
  · intro i h h'
    simp [h']

theorem flatMap_range_getD (columns : List (List F)) (f : List F → Bytes) :
    ((List.range columns.length).map fun i => f (columns.getD i [])).flatten =
      columns.flatMap f := by
  conv => rhs; rw [← map_getD_range columns, List.flatMap_map, List.flatMap_def]

theorem foldl_max_toNat (columns : List (List F)) (acc : UInt32) (h : maxSize columns < 2 ^ 32) :
    (columns.foldl (fun a col => max a (UInt32.ofNat col.length)) acc).toNat =
      max acc.toNat (maxSize columns) := by
  induction columns generalizing acc with
  | nil => simp [maxSize]
  | cons c cs ih =>
    have hc : maxSize (c :: cs) = max c.length (maxSize cs) := rfl
    rw [hc] at h ⊢
    rw [List.foldl_cons, ih _ (by omega)]
    have hmax : (max acc (UInt32.ofNat c.length)).toNat = max acc.toNat c.length := by
      rw [toNat_max, toNat_ofNat_of_lt (by omega)]
    rw [hmax, max_assoc]

/-- **The maximum loop** over the columns of one kind. -/
theorem maxColumnSize_toNat {columns : List (List F)} (hn : columns.length < 2 ^ 32)
    (h : maxSize columns < 2 ^ 32) :
    (maxColumnSize columns (UInt32.ofNat columns.length)).toNat = maxSize columns := by
  unfold maxColumnSize
  rw [toNat_ofNat_of_lt hn]
  have hfold := foldl_max_toNat columns 0 h
  rw [← map_getD_range columns, List.foldl_map, map_getD_range] at hfold
  rw [hfold]
  exact Nat.zero_max _

theorem Assignment.rows_eq (table : Assignment F) :
    table.rows = max (max (max (maxSize table.witnesses) (maxSize table.publicInputs))
      (maxSize table.constants)) (maxSize table.selectors) := by
  unfold rows kinds
  simp only [List.flatten_cons, List.flatten_nil, List.append_nil, maxSize_append]
  omega

theorem Assignment.length_le_rows {table : Assignment F} {columns : List (List F)}
    (hc : columns ∈ table.kinds) {col : List F} (h : col ∈ columns) : col.length ≤ table.rows :=
  length_le_maxSize (List.mem_flatten.mpr ⟨columns, hc, h⟩)

/-- No cell is cut off: there are more rows than any column has cells. -/
theorem Assignment.rows_lt_paddedRows (table : Assignment F) : table.rows < table.paddedRows := by
  have := Nat.lt_size_self table.rows
  unfold paddedRows
  omega

/-- The table fits the 32-bit counters. -/
structure Assignment.Fits (table : Assignment F) : Prop where
  rows : table.rows < 2 ^ 31
  cells : ∀ columns ∈ table.kinds, columns.length * table.paddedRows < 2 ^ 32

namespace Assignment.Fits

variable {table : Assignment F}

theorem length_lt (h : table.Fits) {columns : List (List F)} (hc : columns ∈ table.kinds) :
    columns.length < 2 ^ 32 := by
  have hcells := h.cells columns hc
  have hpos : 8 ≤ table.paddedRows := le_max_left _ _
  have := Nat.le_mul_of_pos_right columns.length (show 0 < table.paddedRows by omega)
  omega

theorem usableRowsAmount_toNat (h : table.Fits) : (usableRowsAmount table).toNat = table.rows := by
  have hmax : ∀ columns ∈ table.kinds,
      (maxColumnSize columns (UInt32.ofNat columns.length)).toNat = maxSize columns := by
    intro columns hc
    have hsize : maxSize columns ≤ table.rows := by
      rw [table.rows_eq]
      simp only [kinds, List.mem_cons, List.not_mem_nil, or_false] at hc
      rcases hc with rfl | rfl | rfl | rfl <;> omega
    have hrows := h.rows
    exact maxColumnSize_toNat (h.length_lt hc) (by omega)
  simp only [kinds, List.forall_mem_cons] at hmax
  obtain ⟨hw, hp, hc, hs, -⟩ := hmax
  unfold usableRowsAmount
  rw [toNat_max, toNat_max, toNat_max, hw, hp, hc, hs, table.rows_eq]

theorem paddedRowsAmount_toNat (h : table.Fits) :
    (paddedRowsAmount exactPow2Ceil (usableRowsAmount table)).toNat = table.paddedRows := by
  have hrows := h.rows
  rw [paddedRowsAmount_exact (by rw [h.usableRowsAmount_toNat]; exact hrows),
    h.usableRowsAmount_toNat]
  rfl

end Assignment.Fits

end Sizes

/-! ## What is written -/

section Write

variable {F : Type} (m : FieldMarshalling F) (zero : F)

theorem writeSizeT_eq {n : UInt32} {k : Nat} (h : n.toNat = k) (out : Bytes) :
    writeSizeT false n.toUInt64 out = out ++ sizeField k := by
  have hn : n.toUInt64 = UInt64.ofNat k := by
    rw [← h]
    apply UInt64.toNat.inj
    rw [UInt32.toNat_toUInt64, UInt64.toNat_ofNat']
    have := n.toNat_lt
    exact (Nat.mod_eq_of_lt (by omega)).symm
  rw [writeSizeT_assert, hn]
  rfl

theorem writeVectorValue_eq (hzero : m.serialize zero = List.replicate m.length 0)
    {padded : UInt32} (table_col : List F) (out : Bytes) :
    writeVectorValue m false padded table_col out =
      out ++ ((List.range padded.toNat).map fun r => table_col.getD r zero).flatMap m.serialize := by
  unfold writeVectorValue
  rw [List.flatMap_map, List.flatMap_def, ← List.foldl_append_eq_append]
  congr 1
  funext out i
  rw [List.getD_eq_getElem?_getD]
  cases table_col[i]? with
  | some value => rfl
  | none =>
    show out ++ List.replicate m.length 0 = out ++ m.serialize zero
    rw [hzero]

/-- **One kind of columns**: the count, then every column with its zeros. -/
theorem writeColumns_eq (hzero : m.serialize zero = List.replicate m.length 0)
    {columns : List (List F)} {padded : UInt32} (hn : columns.length < 2 ^ 32)
    (hcells : columns.length * padded.toNat < 2 ^ 32) (out : Bytes) :
    writeColumns m false padded (UInt32.ofNat columns.length) columns out =
      out ++ binaryGroup m zero padded.toNat columns := by
  have hlen := toNat_ofNat_of_lt hn
  have hcount : (UInt32.ofNat columns.length * padded).toNat = columns.length * padded.toNat := by
    rw [UInt32.toNat_mul, hlen]
    exact Nat.mod_eq_of_lt hcells
  unfold writeColumns binaryGroup paddedCells
  rw [writeSizeT_eq hcount, hlen, ← List.append_assoc]
  simp only [writeVectorValue_eq m zero hzero]
  rw [List.foldl_append_eq_append, List.flatMap_assoc,
    flatMap_range_getD columns fun col =>
      ((List.range padded.toNat).map fun r => col.getD r zero).flatMap m.serialize]

/-- **The bytes of a table** whose sizes fit. -/
theorem writeBinaryAssignment_eq (hzero : m.serialize zero = List.replicate m.length 0)
    {table : Assignment F} (h : table.Fits) (out : Bytes) :
    writeBinaryAssignment m exactPow2Ceil false table out = out ++ binaryLayout m zero table := by
  have hpadded := h.paddedRowsAmount_toNat
  have hlen : ∀ columns ∈ table.kinds, columns.length < 2 ^ 32 := fun _ hc => h.length_lt hc
  have hcells := h.cells
  rw [← hpadded] at hcells
  simp only [Assignment.kinds, List.forall_mem_cons] at hlen hcells
  obtain ⟨hw, hp, hc, hs, -⟩ := hlen
  obtain ⟨hw', hp', hc', hs', -⟩ := hcells
  unfold writeBinaryAssignment
  simp only []
  rw [writeSizeT_eq (toNat_ofNat_of_lt hw), writeSizeT_eq (toNat_ofNat_of_lt hp),
    writeSizeT_eq (toNat_ofNat_of_lt hc), writeSizeT_eq (toNat_ofNat_of_lt hs),
    writeSizeT_eq h.usableRowsAmount_toNat, writeSizeT_eq hpadded,
    writeColumns_eq m zero hzero hw hw', writeColumns_eq m zero hzero hp hp',
    writeColumns_eq m zero hzero hc hc', writeColumns_eq m zero hzero hs hs', hpadded]
  simp only [binaryLayout, Assignment.kinds, List.flatMap_cons, List.flatMap_nil,
    List.append_assoc, List.append_nil]

/-! ## Reading it back -/

theorem length_paddedCells (padded : Nat) (columns : List (List F)) :
    (paddedCells zero padded columns).length = columns.length * padded := by
  induction columns with
  | nil => simp [paddedCells]
  | cons col columns ih =>
    show (_ ++ paddedCells zero padded columns).length = _
    rw [List.length_append, ih, List.length_map, List.length_range, List.length_cons, Nat.add_mul]
    omega

/-- **Where a cell stands**: row `r` of column `c` at `c * padded + r`. -/
theorem getElem?_paddedCells {padded : Nat} {columns : List (List F)} {c r : Nat}
    (hc : c < columns.length) (hr : r < padded) :
    (paddedCells zero padded columns)[c * padded + r]? = some ((columns.getD c []).getD r zero) := by
  induction columns generalizing c with
  | nil => cases hc
  | cons col columns ih =>
    show (((List.range padded).map fun r => col.getD r zero) ++
      paddedCells zero padded columns)[c * padded + r]? = _
    cases c with
    | zero =>
      rw [Nat.zero_mul, Nat.zero_add, List.getElem?_append_left (by simpa using hr)]
      simp [hr]
    | succ c =>
      have hidx : (c + 1) * padded + r = padded + (c * padded + r) := by
        rw [Nat.add_mul]
        omega
      rw [hidx, List.getElem?_append_right (by simp)]
      simp only [List.length_map, List.length_range, Nat.add_sub_cancel_left]
      exact ih (by simpa using hc)

theorem paddedCells_inj {padded : Nat} {columns columns' : List (List F)}
    (hshape : columns.map List.length = columns'.map List.length)
    (hle : ∀ col ∈ columns, col.length ≤ padded)
    (h : paddedCells zero padded columns = paddedCells zero padded columns') :
    columns = columns' := by
  induction columns generalizing columns' with
  | nil => exact (List.map_eq_nil_iff.mp hshape.symm).symm
  | cons col columns ih =>
    cases columns' with
    | nil => cases hshape
    | cons col' columns' =>
      simp only [List.map_cons, List.cons.injEq] at hshape
      obtain ⟨hlen, hshape⟩ := hshape
      obtain ⟨hcol, hrest⟩ := List.append_inj h (by simp)
      rw [ih hshape (fun c hc => hle c (List.mem_cons_of_mem _ hc)) hrest, List.cons.injEq]
      refine ⟨?_, rfl⟩
      apply List.ext_getElem hlen
      intro r hr hr'
      have hpad := hle col List.mem_cons_self
      have hcell := List.map_inj_left.mp hcol r (List.mem_range.mpr (by omega))
      rwa [List.getD_eq_getElem?_getD, List.getElem?_eq_getElem hr,
        List.getD_eq_getElem?_getD, List.getElem?_eq_getElem hr'] at hcell

theorem serialize_inj (hinj : Function.Injective m.serialize) {cells cells' : List F}
    (hlen : cells.length = cells'.length)
    (h : cells.flatMap m.serialize = cells'.flatMap m.serialize) : cells = cells' := by
  induction cells generalizing cells' with
  | nil => exact (List.length_eq_zero_iff.mp hlen.symm).symm
  | cons x cells ih =>
    cases cells' with
    | nil => cases hlen
    | cons y cells' =>
      have hxy : (m.serialize x).length = (m.serialize y).length := by
        rw [m.length_serialize, m.length_serialize]
      obtain ⟨hx, hrest⟩ := List.append_inj h hxy
      rw [hinj hx, ih (Nat.succ.inj hlen) hrest]

theorem length_flatMap_serialize (cells : List F) :
    (cells.flatMap m.serialize).length = cells.length * m.length := by
  induction cells with
  | nil => simp
  | cons x cells ih =>
    rw [List.flatMap_cons, List.length_append, ih, m.length_serialize, List.length_cons, Nat.add_mul]
    omega

theorem binaryGroups_inj (hinj : Function.Injective m.serialize) {padded : Nat}
    {kinds kinds' : List (List (List F))}
    (hshape : kinds.map (List.map List.length) = kinds'.map (List.map List.length))
    (hle : ∀ columns ∈ kinds, ∀ col ∈ columns, col.length ≤ padded)
    (h : kinds.flatMap (binaryGroup m zero padded) = kinds'.flatMap (binaryGroup m zero padded)) :
    kinds = kinds' := by
  induction kinds generalizing kinds' with
  | nil => exact (List.map_eq_nil_iff.mp hshape.symm).symm
  | cons columns kinds ih =>
    cases kinds' with
    | nil => cases hshape
    | cons columns' kinds' =>
      simp only [List.map_cons, List.cons.injEq] at hshape
      obtain ⟨hcolumns, hshape⟩ := hshape
      have hlen : columns.length = columns'.length := by
        have := congrArg List.length hcolumns
        simpa using this
      have hcells : (paddedCells zero padded columns).length =
          (paddedCells zero padded columns').length := by
        rw [length_paddedCells, length_paddedCells, hlen]
      have hgroup : (binaryGroup m zero padded columns).length =
          (binaryGroup m zero padded columns').length := by
        simp only [binaryGroup, sizeField, List.length_append, length_bigEndian,
          length_flatMap_serialize, hcells]
      obtain ⟨hfirst, hrest⟩ := List.append_inj h hgroup
      obtain ⟨-, hbytes⟩ := List.append_inj hfirst (by simp [sizeField])
      rw [paddedCells_inj zero hcolumns (hle columns List.mem_cons_self)
          (serialize_inj m hinj hcells hbytes),
        ih hshape (fun c hc => hle c (List.mem_cons_of_mem _ hc)) hrest]

theorem Assignment.SameShape.rows_eq {table table' : Assignment F} (h : table.SameShape table') :
    table.rows = table'.rows := by
  unfold Assignment.rows maxSize
  rw [List.map_flatten, List.map_flatten, h]

theorem Assignment.SameShape.fits {table table' : Assignment F} (h : table.SameShape table')
    (hf : table.Fits) : table'.Fits := by
  refine ⟨h.rows_eq ▸ hf.rows, ?_⟩
  intro columns' hc'
  have hmem : columns'.map List.length ∈ table.kinds.map (List.map List.length) := by
    rw [h]
    exact List.mem_map_of_mem hc'
  obtain ⟨columns, hc, hlen⟩ := List.mem_map.mp hmem
  have hlen := congrArg List.length hlen
  rw [List.length_map, List.length_map] at hlen
  have hcells := hf.cells columns hc
  unfold Assignment.paddedRows at hcells ⊢
  rwa [hlen, h.rows_eq] at hcells

/-- **Tables of one shape with the same bytes are equal.** -/
theorem binaryLayout_injective (hinj : Function.Injective m.serialize) {table table' : Assignment F}
    (hshape : table.SameShape table')
    (h : binaryLayout m zero table = binaryLayout m zero table') : table = table' := by
  have hpadded : table.paddedRows = table'.paddedRows := by
    unfold Assignment.paddedRows
    rw [hshape.rows_eq]
  have hle : ∀ columns ∈ table.kinds, ∀ col ∈ columns, col.length ≤ table.paddedRows := by
    intro columns hc col hcol
    exact (Assignment.length_le_rows hc hcol).trans table.rows_lt_paddedRows.le
  unfold binaryLayout at h
  obtain ⟨-, h⟩ := List.append_inj h (by simp [sizeField])
  obtain ⟨-, h⟩ := List.append_inj h (by simp [sizeField])
  obtain ⟨-, h⟩ := List.append_inj h (by simp [sizeField])
  obtain ⟨-, h⟩ := List.append_inj h (by simp [sizeField])
  obtain ⟨-, h⟩ := List.append_inj h (by simp [sizeField])
  obtain ⟨-, h⟩ := List.append_inj h (by simp [sizeField])
  rw [← hpadded] at h
  have hkinds := binaryGroups_inj m zero hinj hshape hle h
  cases table
  cases table'
  simpa [Assignment.kinds, and_assoc, and_comm, and_left_comm] using hkinds

/-- **The layout of the file**: the six sizes, then for each kind a count and the
padded columns; every cell in its place, none cut off, and no two tables of one
shape alike. -/
theorem binary_layout (hinj : Function.Injective m.serialize)
    (hzero : m.serialize zero = List.replicate m.length 0) {table : Assignment F}
    (h : table.Fits) (out : Bytes) :
    writeBinaryAssignment m exactPow2Ceil false table out = out ++
        (sizeField table.witnesses.length ++ (sizeField table.publicInputs.length ++
          (sizeField table.constants.length ++ (sizeField table.selectors.length ++
            (sizeField table.rows ++ (sizeField table.paddedRows ++
              table.kinds.flatMap fun columns => sizeField (columns.length * table.paddedRows) ++
                (paddedCells zero table.paddedRows columns).flatMap m.serialize)))))) ∧
      (∀ columns ∈ table.kinds,
        (paddedCells zero table.paddedRows columns).length = columns.length * table.paddedRows ∧
        ∀ c r, c < columns.length → r < table.paddedRows →
          (paddedCells zero table.paddedRows columns)[c * table.paddedRows + r]? =
            some ((columns.getD c []).getD r zero)) ∧
      (∃ least, IsLeast {p | table.rows < p ∧ ∃ k, p = 2 ^ k} least ∧
        table.paddedRows = max 8 least) ∧
      (∀ columns ∈ table.kinds, ∀ col ∈ columns, col.length < table.paddedRows) ∧
      ∀ table', table.SameShape table' →
        writeBinaryAssignment m exactPow2Ceil false table out =
          writeBinaryAssignment m exactPow2Ceil false table' out → table = table' := by
  refine ⟨writeBinaryAssignment_eq m zero hzero h out, ?_, ?_, ?_, ?_⟩
  · intro columns _
    refine ⟨length_paddedCells zero _ _, ?_⟩
    intro c r hc hr
    exact getElem?_paddedCells zero hc hr
  · exact ⟨2 ^ table.rows.size, isLeast_two_pow_size table.rows, rfl⟩
  · intro columns hc col hcol
    exact lt_of_le_of_lt (Assignment.length_le_rows hc hcol) table.rows_lt_paddedRows
  · intro table' hshape heq
    rw [writeBinaryAssignment_eq m zero hzero h,
      writeBinaryAssignment_eq m zero hzero (hshape.fits h)] at heq
    exact binaryLayout_injective m zero hinj hshape (List.append_cancel_left heq)

end Write

/-- Two witness columns of different length and a selector. -/
theorem binary_layout_three_columns :
    let m : FieldMarshalling UInt8 := ⟨1, fun b => [b], fun _ => rfl⟩
    let table : Assignment UInt8 := ⟨[], [[1, 2, 3], [4]], [], [[5]]⟩
    writeBinaryAssignment m exactPow2Ceil false table [] = [] ++
        (sizeField 2 ++ (sizeField 0 ++ (sizeField 0 ++ (sizeField 1 ++
            (sizeField table.rows ++ (sizeField table.paddedRows ++
              table.kinds.flatMap fun columns => sizeField (columns.length * table.paddedRows) ++
                (paddedCells 0 table.paddedRows columns).flatMap m.serialize)))))) ∧
      (∀ columns ∈ table.kinds,
        (paddedCells 0 table.paddedRows columns).length = columns.length * table.paddedRows ∧
        ∀ c r, c < columns.length → r < table.paddedRows →
          (paddedCells 0 table.paddedRows columns)[c * table.paddedRows + r]? =
            some ((columns.getD c []).getD r 0)) ∧
      (∃ least, IsLeast {p | table.rows < p ∧ ∃ k, p = 2 ^ k} least ∧
        table.paddedRows = max 8 least) ∧
      (∀ columns ∈ table.kinds, ∀ col ∈ columns, col.length < table.paddedRows) ∧
      ∀ table', table.SameShape table' →
        writeBinaryAssignment m exactPow2Ceil false table [] =
          writeBinaryAssignment m exactPow2Ceil false table' [] → table = table' :=
  binary_layout ⟨1, fun b => [b], fun _ => rfl⟩ 0 (fun _ _ h => List.singleton_inj.mp h) rfl
    ⟨by decide +kernel, by decide +kernel⟩ []

end AssignerRunner
