import ZkevmFramework.Core.MptRuns

/-!
# Every step down reads a nibble

`Advancing e`: no extension node with an empty path lies at or below the
encoding `e`, as far as it can be read from `e` alone.  `SetNode` and
`DeleteNode` store advancing encodings only, whatever the hashes do, as long as
the references they start from and the storage are advancing.
-/

namespace Core.Mpt

open Nibble Patricia

/-- A container of two parts is read back as it was written or not at all, as
long as the offset of the second part fits. -/
def SszLib.ReadsBack (ssz : SszLib) : Prop :=
  ∀ a b parts, 8 + a.length < 2 ^ 32 → ssz.deserialize (ssz.serialize [a, b]) = some parts →
    parts = [a, b]

theorem SszLib.readsBack_standard : SszLib.standard.ReadsBack := by
  intro a b parts ha h
  have hsplit : Ssz.split (Ssz.layout [a, b]) = some [a, b] := by
    apply Ssz.split_layout_of_offsets
    intro o ho
    simp only [Ssz.offsets, List.length_cons, List.length_nil, List.mem_cons, List.not_mem_nil,
      or_false] at ho
    omega
  have hserialize : SszLib.standard.serialize = Ssz.layout := rfl
  have hdeserialize : SszLib.standard.deserialize = Ssz.split := rfl
  rw [hserialize, hdeserialize, hsplit] at h
  exact (Option.some.inj h).symm

variable (ssz : SszLib)

/-- The encoding, and every node written out inside it, is no extension node
with an empty path. -/
inductive Advancing : Bytes → Prop where
  | mk {e : Bytes}
    (leaf : ∀ n, decodeNode ssz e = .ok (.leaf n) → n.path.Small)
    (extension : ∀ n, decodeNode ssz e = .ok (.extension n) →
      n.path.Small ∧ n.path.nibbles ≠ [])
    (next : ∀ n, decodeNode ssz e = .ok (.extension n) → n.nextRef.length < 32 →
      Advancing n.nextRef)
    (slot : ∀ n, decodeNode ssz e = .ok (.branch n) → ∀ r ∈ n.branches, r.length < 32 →
      Advancing r) : Advancing e

/-- A reference the trie hands out: a hash, or an advancing encoding. -/
def AdvancingRef (ref : Reference) : Prop :=
  ref.length ≤ maxRefLen ∧ (ref.length < 32 → Advancing ssz ref)

/-- The slots of a branch. -/
def AdvancingSlots (branches : List Reference) : Prop :=
  branches.length ≤ branchesNum ∧ ∀ r ∈ branches, AdvancingRef ssz r

def Node.Advancing : Node → Prop
  | .leaf n => n.path.Small
  | .extension n => (n.path.Small ∧ n.path.nibbles ≠ []) ∧ AdvancingRef ssz n.nextRef
  | .branch n => AdvancingSlots ssz n.branches

structure Storage.Advancing (s : Storage) : Prop where
  nodes : ∀ ref e, s.nodes ref = some e → Mpt.Advancing ssz e
  stored : ∀ e ∈ s.stored, Mpt.Advancing ssz e

variable {ssz}

/-! ## Reading -/

theorem deserializeTwo_ok {data a b : Bytes} (h : deserializeTwo ssz data = .ok (a, b)) :
    ssz.deserialize data = some [a, b] := by
  unfold deserializeTwo at h
  split at h
  · next hd => cases h; exact hd
  · cases h

theorem deserializeLeaf_ok {data : Bytes} {n : Node} (h : deserializeLeaf ssz data = .ok n) :
    ∃ path v p, ssz.deserialize data = some [path, v] ∧ Path.deserialize path = .ok p ∧
      n = .leaf ⟨p, v⟩ := by
  unfold deserializeLeaf at h
  rcases hd : deserializeTwo ssz data with _ | ⟨path, v⟩ <;>
    simp only [hd, bind, Except.bind] at h
  · cases h
  · cases hp : Path.deserialize path <;> simp only [hp] at h
    · cases h
    · split at h <;> cases h
      exact ⟨path, v, _, deserializeTwo_ok hd, hp, rfl⟩

theorem deserializeExtension_ok {data : Bytes} {n : Node}
    (h : deserializeExtension ssz data = .ok n) :
    ∃ path r p, ssz.deserialize data = some [path, r] ∧ Path.deserialize path = .ok p ∧
      r.length ≤ maxRefLen ∧ n = .extension ⟨p, r⟩ := by
  unfold deserializeExtension at h
  rcases hd : deserializeTwo ssz data with _ | ⟨path, r⟩ <;>
    simp only [hd, bind, Except.bind] at h
  · cases h
  · cases hp : Path.deserialize path <;> simp only [hp] at h
    · cases h
    · split at h <;> cases h
      next hr => exact ⟨path, r, _, deserializeTwo_ok hd, hp, hr, rfl⟩

theorem deserializeBranch_ok {data : Bytes} {n : Node} (h : deserializeBranch ssz data = .ok n) :
    ∃ bytes v refs, ssz.deserialize data = some [bytes, v] ∧ ssz.deserialize bytes = some refs ∧
      refs.length ≤ branchesNum ∧ (∀ r ∈ refs, r.length ≤ maxRefLen) ∧ n = .branch ⟨refs, v⟩ := by
  unfold deserializeBranch at h
  rcases hd : deserializeTwo ssz data with _ | ⟨bytes, v⟩ <;>
    simp only [hd, bind, Except.bind] at h
  · cases h
  · cases hr : ssz.deserialize bytes <;> simp only [hr] at h
    · cases h
    · split at h <;> cases h
      next hl => exact ⟨bytes, v, _, deserializeTwo_ok hd, hr, hl.1, hl.2.1, rfl⟩

/-- What the three cases of `DecodeNode` accept. -/
theorem decodeNode_ok {e : Bytes} {n : Node} (h : decodeNode ssz e = .ok n) :
    (∃ data path v p, e = 0 :: data ∧ ssz.deserialize data = some [path, v] ∧
      Path.deserialize path = .ok p ∧ n = .leaf ⟨p, v⟩) ∨
    (∃ data path r p, e = 1 :: data ∧ ssz.deserialize data = some [path, r] ∧
      Path.deserialize path = .ok p ∧ r.length ≤ maxRefLen ∧ n = .extension ⟨p, r⟩) ∨
    (∃ data bytes v refs, e = 2 :: data ∧ ssz.deserialize data = some [bytes, v] ∧
      ssz.deserialize bytes = some refs ∧ refs.length ≤ branchesNum ∧
      (∀ r ∈ refs, r.length ≤ maxRefLen) ∧ n = .branch ⟨refs, v⟩) := by
  cases e with
  | nil => cases h
  | cons flag data =>
    simp only [decodeNode] at h
    split at h
    · next h0 =>
      obtain ⟨path, v, p, hl⟩ := deserializeLeaf_ok h
      exact .inl ⟨data, path, v, p, by rw [h0], hl⟩
    · split at h
      · next h1 =>
        obtain ⟨path, r, p, hx⟩ := deserializeExtension_ok h
        exact .inr (.inl ⟨data, path, r, p, by rw [h1], hx⟩)
      · split at h
        · next h2 =>
          obtain ⟨bytes, v, refs, hb⟩ := deserializeBranch_ok h
          exact .inr (.inr ⟨data, bytes, v, refs, by rw [h2], hb⟩)
        · cases h

theorem Advancing.decode {e : Bytes} (h : Advancing ssz e) {n : Node}
    (hn : decodeNode ssz e = .ok n) : n.Advancing ssz := by
  obtain ⟨hleaf, hext, hnext, hslot⟩ := h
  rcases decodeNode_ok hn with ⟨data, path, v, p, -, -, -, rfl⟩ | ⟨data, path, r, p, -, -, -, hr, rfl⟩ |
    ⟨data, bytes, v, refs, -, -, -, hlen, hr, rfl⟩
  · exact hleaf _ hn
  · exact ⟨hext _ hn, hr, hnext _ hn⟩
  · exact ⟨hlen, fun r hm => ⟨hr r hm, hslot _ hn r hm⟩⟩

theorem Advancing.of_decode {e : Bytes} (h : ∀ n, decodeNode ssz e = .ok n → n.Advancing ssz) :
    Advancing ssz e := by
  constructor
  · intro n hn
    exact h _ hn
  · intro n hn
    exact (h _ hn).1
  · intro n hn
    exact (h _ hn).2.2
  · intro n hn r hr
    exact ((h _ hn).2 r hr).2

theorem advancing_nil : Advancing ssz [] := .of_decode (by intro n hn; cases hn)

theorem advancingRef_nil : AdvancingRef ssz [] := ⟨Nat.zero_le _, fun _ => advancing_nil⟩

theorem Storage.advancing_empty : Storage.empty.Advancing ssz := by
  constructor
  · intro ref e h
    cases h
  · intro e h
    cases h

theorem getFromStorage_advancing {s : Storage} (hs : s.Advancing ssz) {ref : Reference}
    (hr : AdvancingRef ssz ref) {n : Node} (h : getFromStorage ssz s ref = .ok n) :
    n.Advancing ssz := by
  unfold getFromStorage at h
  split at h
  · next hlt => exact (hr.2 hlt).decode h
  · split at h
    · cases h
    · next e he => exact (hs.nodes _ _ he).decode h

theorem AdvancingSlots.getD {branches : List Reference} (h : AdvancingSlots ssz branches) (i : Nat) :
    AdvancingRef ssz (branches.getD i []) := by
  rw [List.getD_eq_getElem?_getD]
  cases hi : branches[i]? with
  | none => exact advancingRef_nil
  | some r => exact h.2 r (List.mem_of_getElem? hi)

theorem AdvancingSlots.set {branches : List Reference} (h : AdvancingSlots ssz branches) (i : Nat)
    {ref : Reference} (hr : AdvancingRef ssz ref) : AdvancingSlots ssz (branches.set i ref) := by
  refine ⟨by rw [List.length_set]; exact h.1, ?_⟩
  intro r hm
  rcases List.mem_or_eq_of_mem_set hm with hm | rfl
  · exact h.2 r hm
  · exact hr

theorem advancingSlots_replicate : AdvancingSlots ssz (List.replicate branchesNum []) := by
  refine ⟨by rw [List.length_replicate], ?_⟩
  intro r hm
  rw [List.eq_of_mem_replicate hm]
  exact advancingRef_nil

theorem AdvancingSlots.getBranches {n : BranchNode} (h : AdvancingSlots ssz n.branches) :
    AdvancingSlots ssz n.getBranches := by
  refine ⟨by rw [BranchNode.getBranches, List.length_map, List.length_range], ?_⟩
  intro r hm
  obtain ⟨i, -, rfl⟩ := List.mem_map.mp hm
  exact h.getD i

/-! ## Writing -/

theorem deserialize_flagged_eq {path : List (Fin 16)} {p : Path}
    (h : Path.deserialize (flagged path) = .ok p) : p.nibbles = path := by
  obtain ⟨p', hp', hn⟩ := Path.deserialize_flagged path
  rw [h] at hp'
  cases hp'
  exact hn

theorem length_layout_refs {refs : List Reference} (hn : refs.length ≤ branchesNum)
    (hr : ∀ r ∈ refs, r.length ≤ maxRefLen) : 8 + (Ssz.layout refs).length < 2 ^ 32 := by
  have := length_flatten_le hr
  unfold branchesNum maxRefLen at *
  rw [Ssz.length_layout]
  omega

theorem sszPart_of_small {p : Path} (hp : p.Small) : p.sszPart = .ok (flagged p.nibbles) := by
  rw [sszPart_eq (by rw [Path.size_eq hp]; omega), Path.visible_eq hp]

theorem length_flagged_of_small {p : Path} (hp : p.Small) :
    8 + (flagged p.nibbles).length < 2 ^ 32 := by
  unfold Path.Small at hp
  rw [length_flagged]
  omega

/-- The two parts of what was written, read back. -/
theorem SszLib.ReadsBack.parts (hback : ssz.ReadsBack) {a b a' b' : Bytes}
    (ha : 8 + a.length < 2 ^ 32)
    (h : ssz.deserialize (ssz.serialize [a, b]) = some [a', b']) : a' = a ∧ b' = b := by
  have := hback a b [a', b'] ha h
  simpa only [List.cons.injEq, and_true] using this

theorem advancing_encode_leaf (hback : ssz.ReadsBack) {n : LeafNode} (hsmall : n.path.Small)
    {e : Bytes} (he : n.encode ssz = .ok e) : Advancing ssz e := by
  rw [LeafNode.encode, sszPart_of_small hsmall] at he
  cases he
  apply Advancing.of_decode
  intro m hm
  obtain ⟨path, v, p, hpv, hp, rfl⟩ := deserializeLeaf_ok hm
  obtain ⟨rfl, -⟩ := hback.parts (length_flagged_of_small hsmall) hpv
  show p.Small
  rw [Path.Small, deserialize_flagged_eq hp]
  exact hsmall

theorem advancing_encode_extension (hback : ssz.ReadsBack) {n : ExtensionNode}
    (hsmall : n.path.Small) (hne : n.path.nibbles ≠ []) (hr : AdvancingRef ssz n.nextRef)
    {e : Bytes} (he : n.encode ssz = .ok e) : Advancing ssz e := by
  rw [ExtensionNode.encode, sszPart_of_small hsmall] at he
  cases he
  apply Advancing.of_decode
  intro m hm
  obtain ⟨path, r, p, hpr, hp, -, rfl⟩ := deserializeExtension_ok hm
  obtain ⟨rfl, rfl⟩ := hback.parts (length_flagged_of_small hsmall) hpr
  have hnib := deserialize_flagged_eq hp
  refine ⟨⟨?_, by rw [hnib]; exact hne⟩, hr⟩
  rw [Path.Small, hnib]
  exact hsmall

theorem advancing_encode_branch (hback : ssz.ReadsBack) {n : BranchNode}
    (hn : AdvancingSlots ssz n.branches) {e : Bytes} (he : n.encode ssz = .ok e) :
    Advancing ssz e := by
  have hrefs : ∀ r ∈ n.branches, r.length ≤ maxRefLen := fun r hm => (hn.2 r hm).1
  rw [BranchNode.encode, ssz.serialize_eq _ (inRange_refs hn.1 hrefs)] at he
  cases he
  apply Advancing.of_decode
  intro m hm
  obtain ⟨bytes, v, refs, hpv, hp, -, -, rfl⟩ := deserializeBranch_ok hm
  obtain ⟨rfl, rfl⟩ := hback.parts (length_layout_refs hn.1 hrefs) hpv
  rw [ssz.deserialize_layout _ (inRange_refs hn.1 hrefs)] at hp
  cases hp
  exact hn

/-- The bytes of an advancing node, whatever the length of its value. -/
theorem advancing_encode (hback : ssz.ReadsBack) {n : Node} (hn : n.Advancing ssz) {e : Bytes}
    (he : n.encode ssz = .ok e) : Advancing ssz e := by
  cases n with
  | leaf n => exact advancing_encode_leaf hback hn he
  | extension n => exact advancing_encode_extension hback hn.1.1 hn.1.2 hn.2 he
  | branch n => exact advancing_encode_branch hback hn he

end Core.Mpt
