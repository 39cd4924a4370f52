import Mathlib.Data.List.Basic
import ZkevmFramework.Lib.Cpp

/-!
# `preset.hpp` and `bytecode.hpp`

Before a run the circuits that are to be filled get their tables.  There is one
for the bytecode circuit, and none for a circuit of any other name: such names
are passed over without a word (`made_initializeCircuits`).
-/

namespace Preset

open Cpp

/-- The component `zkevm_bytecode`, with the table it is laid out in. -/
structure BytecodeComponent (C T : Type) where
  /-- 65 witness, 1 public input, 5 constant and 30 selector columns, and no rows. -/
  emptyTable : T
  /-- `generate_circuit`, and `pack_lookup_tables_horizontal` after it. -/
  generate : C → T → Except Thrown (C × T)

/-- `zkevm_circuits`, and the tables next to it. -/
structure Circuits (Circuit C T : Type) where
  names : List Text
  bytecodeCircuit : C
  assignments : List (Circuit × T)

section Model

variable {Circuit C T : Type} [DecidableEq Circuit]

/-- `get_circuit_names` -/
def Circuits.getCircuitNames (circuits : Circuits Circuit C T) : List Text :=
  if 0 < circuits.names.length then circuits.names else ["bytecode".toList]

/-- `assignments.insert` -/
def insert (circuit : Circuit) (table : T) (assignments : List (Circuit × T)) :
    List (Circuit × T) :=
  if circuit ∈ assignments.map Prod.fst then assignments else assignments ++ [(circuit, table)]

/-- What `f` leaves of the table that is there. -/
def replace (circuit : Circuit) (table : T) (assignments : List (Circuit × T)) :
    List (Circuit × T) :=
  assignments.map fun a => if a.1 = circuit then (circuit, table) else a

-- the key of the map
variable (bytecode : Circuit) (component : BytecodeComponent C T)

def initializeBytecodeCircuit : Call (Circuits Circuit C T) Unit := fun c =>
  let assignments := insert bytecode component.emptyTable c.assignments
  let table := ((assignments.find? fun a => a.1 = bytecode).map Prod.snd).getD component.emptyTable
  match component.generate c.bytecodeCircuit table with
  | .ok made =>
    .ok () { c with bytecodeCircuit := made.1, assignments := replace bytecode made.2 assignments }
  | .error e => .error (.throws e) { c with assignments }

/-- The loop over the names. -/
def initializeNamed : List Text → Call (Circuits Circuit C T) Unit
  | [] => pure ()
  | name :: names => do
    if name = "bytecode".toList then initializeBytecodeCircuit bytecode component
    initializeNamed names

def initializeCircuits : Call (Circuits Circuit C T) Unit := do
  initializeNamed bytecode component (← get).getCircuitNames

end Model

/-! ## The tables that are made -/

section Tables

variable {Circuit C T : Type} [DecidableEq Circuit] {bytecode : Circuit}
  {component : BytecodeComponent C T} {c c' : Circuits Circuit C T}

/-- The circuits that have a table. -/
def Circuits.made (c : Circuits Circuit C T) : List Circuit := c.assignments.map Prod.fst

theorem map_fst_replace (circuit : Circuit) (table : T) (assignments : List (Circuit × T)) :
    (replace circuit table assignments).map Prod.fst = assignments.map Prod.fst := by
  unfold replace
  rw [List.map_map]
  apply List.map_congr_left
  intro a _
  show (if a.1 = circuit then (circuit, table) else a).1 = a.1
  split
  · next h => exact h.symm
  · rfl

theorem map_fst_insert (circuit : Circuit) (table : T) (assignments : List (Circuit × T)) :
    (insert circuit table assignments).map Prod.fst =
      if circuit ∈ assignments.map Prod.fst then assignments.map Prod.fst
      else assignments.map Prod.fst ++ [circuit] := by
  unfold insert
  split
  · rfl
  · rw [List.map_append]
    rfl

/-- What one more name adds. -/
def withBytecode (bytecode : Circuit) (made : List Circuit) : List Circuit :=
  if bytecode ∈ made then made else made ++ [bytecode]

theorem withBytecode_idem (bytecode : Circuit) (made : List Circuit) :
    withBytecode bytecode (withBytecode bytecode made) = withBytecode bytecode made := by
  by_cases h : bytecode ∈ made
  · simp [withBytecode, h]
  · simp [withBytecode, h]

theorem made_initializeBytecodeCircuit
    (h : initializeBytecodeCircuit bytecode component c = .ok () c') :
    c'.made = withBytecode bytecode c.made := by
  unfold initializeBytecodeCircuit at h
  simp only at h
  split at h
  · rw [EStateM.Result.ok.injEq] at h
    rw [← h.2]
    exact (map_fst_replace _ _ _).trans (map_fst_insert _ _ _)
  · cases h

theorem made_initializeNamed {names : List Text}
    (h : initializeNamed bytecode component names c = .ok () c') :
    c'.made = if "bytecode".toList ∈ names then withBytecode bytecode c.made else c.made := by
  induction names generalizing c with
  | nil =>
    cases h
    rfl
  | cons name names ih =>
    by_cases hname : name = "bytecode".toList
    · rw [initializeNamed, if_pos hname] at h
      obtain ⟨_, d, hd, hrest⟩ := bind_eq_ok_iff.mp h
      have hmem : "bytecode".toList ∈ name :: names := by
        rw [hname]
        exact List.mem_cons_self
      rw [ih hrest, made_initializeBytecodeCircuit hd, if_pos hmem, withBytecode_idem, ite_self]
    · rw [initializeNamed, if_neg hname] at h
      have hmem : "bytecode".toList ∈ name :: names ↔ "bytecode".toList ∈ names := by
        rw [List.mem_cons, or_iff_right fun h => hname h.symm]
      rw [ih h]
      simp only [hmem]

/-- **The tables that are made**: one, if no circuit or the bytecode circuit is named. -/
theorem made_initializeCircuits (h : initializeCircuits bytecode component c = .ok () c')
    (hc : c.assignments = []) :
    c'.made = if c.names = [] ∨ "bytecode".toList ∈ c.names then [bytecode] else [] := by
  have hmade : c.made = [] := by
    unfold Circuits.made
    rw [hc]
    rfl
  have h : initializeNamed bytecode component c.getCircuitNames c = .ok () c' := h
  rw [made_initializeNamed h, hmade]
  unfold Circuits.getCircuitNames
  cases c.names with
  | nil => rfl
  | cons name names =>
    have hlen : 0 < (name :: names).length := Nat.zero_lt_succ _
    have hor : name :: names = [] ∨ "bytecode".toList ∈ name :: names ↔
        "bytecode".toList ∈ name :: names := or_iff_right (List.cons_ne_nil _ _)
    rw [if_pos hlen, if_congr hor rfl rfl]
    rfl

end Tables

end Preset
