import ZkevmFramework.Core.Path
import ZkevmFramework.Lib.SszLayout

/-!
# Trie nodes and their encoding

`Encode` writes a type flag and the SSZ container of the node; `DecodeNode`
reads it back.  SSZ++ is not part of the repository: `SszLib` is what the nodes
use of it, with the standard layout as its law.  The encoding is a function of
what `size()` shows of the path (`leafBytes`, `extBytes`, `branchBytes`).
-/

namespace Core.Mpt

open Nibble

/-- SSZ++, for the variable parts of a container or the elements of a list.
`serialize` is the standard layout, and `deserialize` reads it back. -/
structure SszLib where
  serialize : List Bytes → Bytes
  deserialize : Bytes → Option (List Bytes)
  serialize_eq : ∀ parts, Ssz.InRange parts → serialize parts = Ssz.layout parts
  deserialize_layout : ∀ parts, Ssz.InRange parts → deserialize (Ssz.layout parts) = some parts

/-- The standard itself. -/
def SszLib.standard : SszLib where
  serialize := Ssz.layout
  deserialize := Ssz.split
  serialize_eq _ _ := rfl
  deserialize_layout _ h := Ssz.split_layout h

/-- `kBranchesNum` -/
def branchesNum : Nat := 16

/-- Capacity of `value_`. -/
def maxValueLen : Nat := 100000000

/-- Capacity of a stored reference. -/
def maxRefLen : Nat := 1000

structure LeafNode where
  path : Path
  value : Bytes

structure ExtensionNode where
  path : Path
  nextRef : Reference

structure BranchNode where
  branches : List Reference
  value : Bytes

inductive Node where
  | leaf (n : LeafNode)
  | extension (n : ExtensionNode)
  | branch (n : BranchNode)

/-! ## Encode and DecodeNode -/

/-- A path as a part of a container: room is made by `ssz_size`, and `serialize`
has to fill it. -/
def Path.sszPart (p : Path) : Except Error Bytes := do
  let bytes ← p.serialize
  if bytes.length = p.sszSize then .ok bytes else .error .pastEnd

def LeafNode.encode (ssz : SszLib) (n : LeafNode) : Except Error Bytes := do
  let path ← n.path.sszPart
  .ok (0 :: ssz.serialize [path, n.value])

def ExtensionNode.encode (ssz : SszLib) (n : ExtensionNode) : Except Error Bytes := do
  let path ← n.path.sszPart
  .ok (1 :: ssz.serialize [path, n.nextRef])

def BranchNode.encode (ssz : SszLib) (n : BranchNode) : Except Error Bytes :=
  .ok (2 :: ssz.serialize [ssz.serialize n.branches, n.value])

def Node.encode (ssz : SszLib) : Node → Except Error Bytes
  | .leaf n => n.encode ssz
  | .extension n => n.encode ssz
  | .branch n => n.encode ssz

/-- A container of two variable-size fields. -/
def deserializeTwo (ssz : SszLib) (data : Bytes) : Except Error (Bytes × Bytes) :=
  match ssz.deserialize data with
  | some [a, b] => .ok (a, b)
  | _ => .error .malformedSsz

def deserializeLeaf (ssz : SszLib) (data : Bytes) : Except Error Node := do
  let (path, value) ← deserializeTwo ssz data
  let path ← Path.deserialize path
  if value.length ≤ maxValueLen then .ok (.leaf ⟨path, value⟩) else .error .malformedSsz

def deserializeExtension (ssz : SszLib) (data : Bytes) : Except Error Node := do
  let (path, nextRef) ← deserializeTwo ssz data
  let path ← Path.deserialize path
  if nextRef.length ≤ maxRefLen then .ok (.extension ⟨path, nextRef⟩) else .error .malformedSsz

def deserializeBranch (ssz : SszLib) (data : Bytes) : Except Error Node := do
  let (branches, value) ← deserializeTwo ssz data
  match ssz.deserialize branches with
  | some refs =>
    if refs.length ≤ branchesNum ∧ (∀ r ∈ refs, r.length ≤ maxRefLen) ∧
        value.length ≤ maxValueLen then .ok (.branch ⟨refs, value⟩)
    else .error .malformedSsz
  | none => .error .malformedSsz

/-- `DecodeNode` -/
def decodeNode (ssz : SszLib) : Bytes → Except Error Node
  | [] => .error .emptyByteArray
  | flag :: data =>
    if flag = 0 then deserializeLeaf ssz data
    else if flag = 1 then deserializeExtension ssz data
    else if flag = 2 then deserializeBranch ssz data
    else .error .unknownNodeType

namespace BranchNode

/-- `get_branches`: the array starts out empty and the stored slots are copied in. -/
def getBranches (n : BranchNode) : List Reference :=
  (List.range branchesNum).map fun i => n.branches.getD i []

/-- `ClearBranch`: unchecked index into the stored list. -/
def clearBranch (n : BranchNode) (nibble : UInt8) : Except Error BranchNode :=
  if nibble.toNat < n.branches.length then
    .ok { n with branches := n.branches.set nibble.toNat [] }
  else .error .pastEnd

/-- `SetBranch` -/
def setBranch (n : BranchNode) (nibble : UInt8) (value : Reference) : Except Error BranchNode :=
  if nibble.toNat < n.branches.length then
    .ok { n with branches := n.branches.set nibble.toNat value }
  else .error .pastEnd

end BranchNode

/-! ## The bytes of a node -/

def leafBytes (path : List (Fin 16)) (value : Bytes) : Bytes :=
  0 :: Ssz.layout [flagged path, value]

def extBytes (path : List (Fin 16)) (nextRef : Reference) : Bytes :=
  1 :: Ssz.layout [flagged path, nextRef]

def branchBytes (branches : List Reference) (value : Bytes) : Bytes :=
  2 :: Ssz.layout [Ssz.layout branches, value]

/-- The lists stay within their capacities. -/
def Node.InLimits : Node → Prop
  | .leaf n => n.value.length ≤ maxValueLen
  | .extension n => n.nextRef.length ≤ maxRefLen
  | .branch n => n.branches.length ≤ branchesNum ∧ (∀ r ∈ n.branches, r.length ≤ maxRefLen) ∧
      n.value.length ≤ maxValueLen

theorem length_flatten_le {l : List Bytes} {c : Nat} (h : ∀ r ∈ l, r.length ≤ c) :
    l.flatten.length ≤ l.length * c := by
  induction l with
  | nil => simp
  | cons a l ih =>
    have ha := h a List.mem_cons_self
    have hl := ih (fun r hr => h r (List.mem_cons_of_mem _ hr))
    rw [List.flatten_cons, List.length_append, List.length_cons, Nat.succ_mul]
    omega

theorem inRange_two {path : List (Fin 16)} {v : Bytes} (hp : path.length < 2 ^ 31)
    (hv : v.length ≤ maxValueLen) : Ssz.InRange [flagged path, v] := by
  unfold maxValueLen at hv
  rw [Ssz.InRange, Ssz.length_layout]
  simp only [List.length_cons, List.length_nil, List.flatten_cons, List.flatten_nil,
    List.append_nil, List.length_append, length_flagged]
  omega

theorem inRange_refs {refs : List Reference} (hn : refs.length ≤ branchesNum)
    (hr : ∀ r ∈ refs, r.length ≤ maxRefLen) : Ssz.InRange refs := by
  have := length_flatten_le hr
  unfold branchesNum maxRefLen at *
  rw [Ssz.InRange, Ssz.length_layout]
  omega

theorem inRange_branch {refs : List Reference} {v : Bytes} (hn : refs.length ≤ branchesNum)
    (hr : ∀ r ∈ refs, r.length ≤ maxRefLen) (hv : v.length ≤ maxValueLen) :
    Ssz.InRange [Ssz.layout refs, v] := by
  have := length_flatten_le hr
  unfold branchesNum maxRefLen maxValueLen at *
  rw [Ssz.InRange, Ssz.length_layout]
  simp only [List.length_cons, List.length_nil, List.flatten_cons, List.flatten_nil,
    List.append_nil, List.length_append, Ssz.length_layout]
  omega

/-- A capacity of references is below that of values. -/
theorem maxRefLen_le : maxRefLen ≤ maxValueLen := by decide

theorem sszPart_eq {p : Path} (h : 0 ≤ p.size) : p.sszPart = .ok (flagged p.visible) := by
  rw [Path.sszPart, Path.serialize_eq h]
  exact if_pos (Path.sszSize_eq h).symm

theorem sszPart_of_neg {p : Path} (h : p.size < 0) : p.sszPart = .error .pastEnd := by
  rw [Path.sszPart, Path.serialize_of_neg h]
  rfl

section Codec

variable (ssz : SszLib)

theorem encode_leaf {n : LeafNode} (hp : 0 ≤ n.path.size) (hv : n.value.length ≤ maxValueLen) :
    n.encode ssz = .ok (leafBytes n.path.visible n.value) := by
  rw [LeafNode.encode, sszPart_eq hp]
  exact congrArg (fun b => Except.ok (0 :: b))
    (ssz.serialize_eq _ (inRange_two n.path.length_visible_lt hv))

theorem encode_ext {n : ExtensionNode} (hp : 0 ≤ n.path.size) (hr : n.nextRef.length ≤ maxRefLen) :
    n.encode ssz = .ok (extBytes n.path.visible n.nextRef) := by
  rw [ExtensionNode.encode, sszPart_eq hp]
  exact congrArg (fun b => Except.ok (1 :: b))
    (ssz.serialize_eq _ (inRange_two n.path.length_visible_lt (hr.trans maxRefLen_le)))

theorem encode_branch {n : BranchNode} (hn : n.branches.length ≤ branchesNum)
    (hr : ∀ r ∈ n.branches, r.length ≤ maxRefLen) (hv : n.value.length ≤ maxValueLen) :
    n.encode ssz = .ok (branchBytes n.branches n.value) := by
  rw [BranchNode.encode, ssz.serialize_eq _ (inRange_refs hn hr),
    ssz.serialize_eq _ (inRange_branch hn hr hv)]
  rfl

theorem deserializeTwo_layout {a b : Bytes} (h : Ssz.InRange [a, b]) :
    deserializeTwo ssz (Ssz.layout [a, b]) = .ok (a, b) := by
  rw [deserializeTwo, ssz.deserialize_layout _ h]

theorem decode_leafBytes {path : List (Fin 16)} {v : Bytes} (hp : path.length < 2 ^ 31)
    (hv : v.length ≤ maxValueLen) :
    ∃ p, decodeNode ssz (leafBytes path v) = .ok (.leaf ⟨p, v⟩) ∧ p.nibbles = path := by
  obtain ⟨p, hde, hnib⟩ := Path.deserialize_flagged path
  refine ⟨p, ?_, hnib⟩
  show deserializeLeaf ssz (Ssz.layout [flagged path, v]) = _
  rw [deserializeLeaf, deserializeTwo_layout ssz (inRange_two hp hv)]
  simp [bind, Except.bind, hde, hv]

theorem decode_extBytes {path : List (Fin 16)} {r : Reference} (hp : path.length < 2 ^ 31)
    (hr : r.length ≤ maxRefLen) :
    ∃ p, decodeNode ssz (extBytes path r) = .ok (.extension ⟨p, r⟩) ∧ p.nibbles = path := by
  obtain ⟨p, hde, hnib⟩ := Path.deserialize_flagged path
  refine ⟨p, ?_, hnib⟩
  show deserializeExtension ssz (Ssz.layout [flagged path, r]) = _
  rw [deserializeExtension, deserializeTwo_layout ssz (inRange_two hp (hr.trans maxRefLen_le))]
  simp [bind, Except.bind, hde, hr]

theorem decode_branchBytes {refs : List Reference} {v : Bytes} (hn : refs.length ≤ branchesNum)
    (hr : ∀ r ∈ refs, r.length ≤ maxRefLen) (hv : v.length ≤ maxValueLen) :
    decodeNode ssz (branchBytes refs v) = .ok (.branch ⟨refs, v⟩) := by
  show deserializeBranch ssz (Ssz.layout [Ssz.layout refs, v]) = _
  rw [deserializeBranch, deserializeTwo_layout ssz (inRange_branch hn hr hv)]
  simp only [bind, Except.bind]
  rw [ssz.deserialize_layout _ (inRange_refs hn hr)]
  exact if_pos ⟨hn, hr, hv⟩

/-! ## The codec as a whole -/

namespace Node

/-- Same kind, paths equal under `==`, equal value and references. -/
def Same : Node → Node → Prop
  | .leaf a, .leaf b => (a.path == b.path) = true ∧ a.value = b.value
  | .extension a, .extension b => (a.path == b.path) = true ∧ a.nextRef = b.nextRef
  | .branch a, .branch b => a.branches = b.branches ∧ a.value = b.value
  | _, _ => False

/-- `DecodeNode` undoes `Encode`. -/
def RoundTrips (n : Node) : Prop :=
  ∃ e n', n.encode ssz = .ok e ∧ decodeNode ssz e = .ok n' ∧ n'.Same n

def SameEncoding (n m : Node) : Prop := ∃ e, n.encode ssz = .ok e ∧ m.encode ssz = .ok e

/-- The path's `size()` is not negative. -/
def Sized : Node → Prop
  | .leaf n => 0 ≤ n.path.size
  | .extension n => 0 ≤ n.path.size
  | .branch _ => True

/-- The bytes `encode` gives a sized node. -/
def bytes : Node → Bytes
  | .leaf n => leafBytes n.path.visible n.value
  | .extension n => extBytes n.path.visible n.nextRef
  | .branch n => branchBytes n.branches n.value

variable {ssz}

theorem encode_eq {n : Node} (hl : n.InLimits) (hs : n.Sized) : n.encode ssz = .ok n.bytes := by
  cases n with
  | leaf n => exact encode_leaf ssz hs hl
  | extension n => exact encode_ext ssz hs hl
  | branch n => exact encode_branch ssz hl.1 hl.2.1 hl.2.2

theorem encode_of_not_sized {n : Node} (hs : ¬ n.Sized) : n.encode ssz = .error .pastEnd := by
  cases n with
  | leaf n =>
    show n.encode ssz = _
    rw [LeafNode.encode, sszPart_of_neg (not_le.mp hs)]
    rfl
  | extension n =>
    show n.encode ssz = _
    rw [ExtensionNode.encode, sszPart_of_neg (not_le.mp hs)]
    rfl
  | branch n => exact absurd trivial hs

end Node

theorem roundTrips_of_sized {n : Node} (hl : n.InLimits) (hs : n.Sized) : n.RoundTrips ssz := by
  refine ⟨n.bytes, ?_⟩
  cases n with
  | leaf n =>
    obtain ⟨p, hp, hnib⟩ := decode_leafBytes ssz n.path.length_visible_lt hl
    exact ⟨_, Node.encode_eq hl hs, hp, Path.beq_of_nibbles_visible hs hnib, rfl⟩
  | extension n =>
    obtain ⟨p, hp, hnib⟩ := decode_extBytes ssz n.path.length_visible_lt hl
    exact ⟨_, Node.encode_eq hl hs, hp, Path.beq_of_nibbles_visible hs hnib, rfl⟩
  | branch n =>
    exact ⟨_, Node.encode_eq hl hs, decode_branchBytes ssz hl.1 hl.2.1 hl.2.2, rfl, rfl⟩

end Codec

theorem leafBytes_inj {p q : List (Fin 16)} {v w : Bytes} (hp : p.length < 2 ^ 31)
    (hq : q.length < 2 ^ 31) (hv : v.length ≤ maxValueLen) (hw : w.length ≤ maxValueLen)
    (h : leafBytes p v = leafBytes q w) : p = q ∧ v = w := by
  have := Ssz.layout_injective (inRange_two hp hv) (inRange_two hq hw) (List.cons.inj h).2
  simp only [List.cons.injEq, and_true] at this
  exact ⟨flagged_injective this.1, this.2⟩

theorem extBytes_inj {p q : List (Fin 16)} {r s : Reference} (hp : p.length < 2 ^ 31)
    (hq : q.length < 2 ^ 31) (hr : r.length ≤ maxRefLen) (hs : s.length ≤ maxRefLen)
    (h : extBytes p r = extBytes q s) : p = q ∧ r = s := by
  have := Ssz.layout_injective (inRange_two hp (hr.trans maxRefLen_le))
    (inRange_two hq (hs.trans maxRefLen_le)) (List.cons.inj h).2
  simp only [List.cons.injEq, and_true] at this
  exact ⟨flagged_injective this.1, this.2⟩

theorem branchBytes_inj {rs ss : List Reference} {v w : Bytes}
    (hr : rs.length ≤ branchesNum ∧ (∀ r ∈ rs, r.length ≤ maxRefLen) ∧ v.length ≤ maxValueLen)
    (hs : ss.length ≤ branchesNum ∧ (∀ r ∈ ss, r.length ≤ maxRefLen) ∧ w.length ≤ maxValueLen)
    (h : branchBytes rs v = branchBytes ss w) : rs = ss ∧ v = w := by
  have := Ssz.layout_injective (inRange_branch hr.1 hr.2.1 hr.2.2)
    (inRange_branch hs.1 hs.2.1 hs.2.2) (List.cons.inj h).2
  simp only [List.cons.injEq, and_true] at this
  exact ⟨Ssz.layout_injective (inRange_refs hr.1 hr.2.1) (inRange_refs hs.1 hs.2.1) this.1, this.2⟩

/-- Two nodes have the same bytes exactly when they are the same node. -/
theorem bytes_eq_iff {n m : Node} (hn : n.InLimits) (hm : m.InLimits) (sn : n.Sized)
    (sm : m.Sized) : n.bytes = m.bytes ↔ n.Same m := by
  cases n with
  | leaf n =>
    cases m with
    | leaf m =>
      constructor
      · intro h
        obtain ⟨hp, hv⟩ := leafBytes_inj n.path.length_visible_lt m.path.length_visible_lt hn hm h
        exact ⟨(Path.beq_iff_visible sn sm).mpr hp, hv⟩
      · rintro ⟨hp, hv⟩
        rw [Node.bytes, Node.bytes, (Path.beq_iff_visible sn sm).mp hp, hv]
    | extension m => simp [Node.bytes, leafBytes, extBytes, Node.Same]
    | branch m => simp [Node.bytes, leafBytes, branchBytes, Node.Same]
  | extension n =>
    cases m with
    | leaf m => simp [Node.bytes, leafBytes, extBytes, Node.Same]
    | extension m =>
      constructor
      · intro h
        obtain ⟨hp, hr⟩ := extBytes_inj n.path.length_visible_lt m.path.length_visible_lt hn hm h
        exact ⟨(Path.beq_iff_visible sn sm).mpr hp, hr⟩
      · rintro ⟨hp, hr⟩
        rw [Node.bytes, Node.bytes, (Path.beq_iff_visible sn sm).mp hp, hr]
    | branch m => simp [Node.bytes, extBytes, branchBytes, Node.Same]
  | branch n =>
    cases m with
    | leaf m => simp [Node.bytes, leafBytes, branchBytes, Node.Same]
    | extension m => simp [Node.bytes, extBytes, branchBytes, Node.Same]
    | branch m =>
      constructor
      · intro h
        exact branchBytes_inj hn hm h
      · rintro ⟨hr, hv⟩
        rw [Node.bytes, Node.bytes, hr, hv]

/-- **The node codec.**  Both nodes survive `DecodeNode(n.Encode())` and their
encodings agree exactly when the nodes do, if and only if no path's `size()` is
negative. -/
theorem node_codec_iff_sized (ssz : SszLib) {n m : Node} (hn : n.InLimits) (hm : m.InLimits) :
    (n.RoundTrips ssz ∧ m.RoundTrips ssz ∧ (n.SameEncoding ssz m ↔ n.Same m)) ↔
      n.Sized ∧ m.Sized := by
  have hsized : ∀ n : Node, n.RoundTrips ssz → n.Sized := by
    rintro n ⟨e, n', he, -⟩
    by_contra h
    rw [Node.encode_of_not_sized h] at he
    cases he
  constructor
  · rintro ⟨h1, h2, -⟩
    exact ⟨hsized n h1, hsized m h2⟩
  · rintro ⟨sn, sm⟩
    refine ⟨roundTrips_of_sized ssz hn sn, roundTrips_of_sized ssz hm sm, ?_⟩
    rw [← bytes_eq_iff hn hm sn sm]
    unfold Node.SameEncoding
    rw [Node.encode_eq hn sn, Node.encode_eq hm sm]
    simp [eq_comm]

/-- A leaf and a branch, both within the limits. -/
theorem node_codec_leaf_branch :
    ((Node.leaf ⟨Path.ofBytes [0x64, 0x6F], [1]⟩).RoundTrips SszLib.standard ∧
      (Node.branch ⟨[[], [2]], []⟩).RoundTrips SszLib.standard ∧
      ((Node.leaf ⟨Path.ofBytes [0x64, 0x6F], [1]⟩).SameEncoding SszLib.standard
          (.branch ⟨[[], [2]], []⟩) ↔
        (Node.leaf ⟨Path.ofBytes [0x64, 0x6F], [1]⟩).Same (.branch ⟨[[], [2]], []⟩))) ↔
      (Node.leaf ⟨Path.ofBytes [0x64, 0x6F], [1]⟩).Sized ∧ (Node.branch ⟨[[], [2]], []⟩).Sized :=
  node_codec_iff_sized SszLib.standard (n := .leaf ⟨Path.ofBytes [0x64, 0x6F], [1]⟩)
    (m := .branch ⟨[[], [2]], []⟩) (show 1 ≤ maxValueLen by decide)
    ⟨by decide, by decide, by decide⟩

/-- A path of `2 ^ 31` nibbles: `size()` is `-2 ^ 31`, and the node does not encode. -/
theorem node_codec_fails_at_gibibyte :
    (Node.leaf ⟨Path.ofBytes (List.replicate (2 ^ 30) 0), []⟩).InLimits ∧
      ¬ (Node.leaf ⟨Path.ofBytes (List.replicate (2 ^ 30) 0), []⟩).RoundTrips SszLib.standard := by
  refine ⟨Nat.zero_le _, ?_⟩
  rintro ⟨e, n', he, -⟩
  rw [Node.encode_of_not_sized (by rw [Node.Sized, Path.size_gibibyte]; decide)] at he
  cases he

end Core.Mpt
