import ZkevmFramework.Core.MptKeepsAdvancing
import ZkevmFramework.Core.MptState
import ZkevmFramework.Lib.Walk

/-!
# Walks are bounded by the key

`GetNode`, `SetNode` and `DeleteNode` call themselves at most once, on the place
`Storage.next` names, so each goes down one walk through the storage.  In every
state that calls can lead to, whatever the hashes do, extension nodes have
non-empty paths (`exec_advancing`), and the walk of a key comes by at most one place
more than its path has nibbles (`Storage.Advancing.descent`).
-/

namespace Core.Mpt

open Nibble Patricia

/-- Where a walk stands: a reference, and what is left of the path. -/
structure Place where
  ref : Reference
  path : Path

/-- The recursive call of a handler on the node. -/
def Node.next : Node → Path → Option Place
  | .leaf _, _ => none
  | .extension n, path =>
    if path.startsWith n.path then
      match path.consume (toSizeT n.path.size) with
      | .ok path => some ⟨n.nextRef, path⟩
      | .error _ => none
    else none
  | .branch n, path =>
    if path.size = 0 then none
    else
      match path.nibbleAt 0, path.consume 1 with
      | .ok nibble, .ok path => some ⟨n.getBranches.getD nibble.toNat [], path⟩
      | _, _ => none

variable (ssz : SszLib)

/-- The place a walk goes on to. -/
def Storage.next (s : Storage) (x : Place) : Option Place :=
  match getFromStorage ssz s x.ref with
  | .ok n => n.next x.path
  | .error _ => none

/-- The places that the walk of a path comes by on its way down, the first `n` of them. -/
def MerklePatriciaTrie.visits (t : MerklePatriciaTrie) (n : Nat) (path : Path) : List Place :=
  Walk.visits (t.storage.next ssz) n ⟨t.root, path⟩

variable {ssz}

/-! ## A step reads a nibble -/

theorem Node.next_extension {n : ExtensionNode} {path path' : Path}
    (hs : path.startsWith n.path = true) (hc : path.consume (toSizeT n.path.size) = .ok path') :
    (Node.extension n).next path = some ⟨n.nextRef, path'⟩ := by
  rw [next, if_pos hs, hc]

theorem Node.next_branch {n : BranchNode} {path path' : Path} {nibble : UInt8} (h0 : path.size ≠ 0)
    (hn : path.nibbleAt 0 = .ok nibble) (hc : path.consume 1 = .ok path') :
    (Node.branch n).next path = some ⟨n.getBranches.getD nibble.toNat [], path'⟩ := by
  rw [next, if_neg h0, hn, hc]

/-- The step from an advancing node. -/
theorem Node.Advancing.next {n : Node} (hn : n.Advancing ssz) {path : Path} (hp : path.Small)
    {y : Place} (h : n.next path = some y) :
    AdvancingRef ssz y.ref ∧ y.path.Small ∧ y.path.nibbles.length < path.nibbles.length := by
  cases n with
  | leaf n => cases h
  | extension n =>
    obtain ⟨⟨hsmall, hne⟩, hr⟩ := hn
    rw [Node.next] at h
    split at h
    · next hs =>
      have hpre := ((Path.startsWith_iff hp hsmall).mp hs).length_le
      have hpos := List.length_pos_iff.mpr hne
      split at h
      · next path' hc =>
        cases h
        refine ⟨hr, consume_keeps_small hp hc, ?_⟩
        rw [consume_nibbles hc, toSizeT_size hsmall, List.length_drop]
        omega
      · cases h
    · cases h
  | branch n =>
    rw [Node.next] at h
    split at h
    · cases h
    · next h0 =>
      have hpos := List.length_pos_iff.mpr fun hnil => h0 ((size_eq_zero_iff hp).mpr hnil)
      split at h
      · next nibble path' _ hc =>
        cases h
        refine ⟨(AdvancingSlots.getBranches hn).getD _, consume_keeps_small hp hc, ?_⟩
        rw [consume_nibbles hc, List.length_drop]
        omega
      · cases h

/-- The places walks stand at. -/
def Place.Advancing (ssz : SszLib) (x : Place) : Prop := AdvancingRef ssz x.ref ∧ x.path.Small

theorem Storage.Advancing.descent {s : Storage} (hs : s.Advancing ssz) :
    Walk.Descent (s.next ssz) (Place.Advancing ssz) (fun x => x.path.nibbles.length) := by
  have hstep : ∀ {x y}, Place.Advancing ssz x → s.next ssz x = some y → AdvancingRef ssz y.ref ∧
      y.path.Small ∧ y.path.nibbles.length < x.path.nibbles.length := by
    intro x y hx hy
    unfold Storage.next at hy
    split at hy
    · next n hn => exact (getFromStorage_advancing hs hx.1 hn).next hx.2 hy
    · cases hy
  constructor
  · intro x y hx hy
    obtain ⟨hr, hp, -⟩ := hstep hx hy
    exact ⟨hr, hp⟩
  · intro x y hx hy
    exact (hstep hx hy).2.2

/-! ## GetHandler -/

/-- `GetNode`, the recursive call taken out. -/
def getBody (ssz : SszLib) (s : Storage) (rec : Place → Except Error (Option Bytes)) (x : Place) :
    Except Error (Option Bytes) := do
  match ← getFromStorage ssz s x.ref with
  | .leaf leaf => return getLeaf leaf x.path
  | .extension extension_node => getExtension (fun r p => rec ⟨r, p⟩) extension_node x.path
  | .branch branch_node => getBranch (fun r p => rec ⟨r, p⟩) branch_node x.path

theorem getNode_eq_run (s : Storage) (fuel : Nat) (x : Place) :
    getNode ssz s fuel x.ref x.path =
      Walk.run (getBody ssz s) (fun _ => .error .outOfFuel) fuel x := by
  have hzero : ∀ x : Place, getNode ssz s 0 x.ref x.path = .error .outOfFuel := fun _ => rfl
  refine Walk.eq_run (f := fun fuel x => getNode ssz s fuel x.ref x.path) hzero ?_ fuel x
  intro fuel x
  rfl

/-- The same answer, not for want of fuel. -/
def Answers (x y : Except Error (Option Bytes)) : Prop := x = y ∧ x ≠ .error .outOfFuel

theorem Answers.bind {α : Type} {x : Except Error α} {f g : α → Except Error (Option Bytes)}
    (hx : x ≠ .error .outOfFuel) (h : ∀ a, x = .ok a → Answers (f a) (g a)) :
    Answers (x >>= f) (x >>= g) := by
  cases x with
  | ok a => exact h a rfl
  | error e =>
    refine ⟨rfl, fun he => ?_⟩
    cases he
    exact hx rfl

theorem answers_ok (v : Option Bytes) : Answers (.ok v) (.ok v) := ⟨rfl, by simp⟩

theorem getBody_answers {s : Storage} (f g : Place → Except Error (Option Bytes)) (x : Place)
    (h : ∀ y, s.next ssz x = some y → Answers (f y) (g y)) :
    Answers (getBody ssz s f x) (getBody ssz s g x) := by
  apply Answers.bind getFromStorage_ne
  intro n hn
  simp only [Storage.next, hn] at h
  cases n with
  | leaf n => exact answers_ok _
  | extension n =>
    simp only [getExtension]
    split
    · next hs =>
      apply Answers.bind consume_ne
      intro path hc
      exact h _ (Node.next_extension hs.2 hc)
    · exact answers_ok _
  | branch n =>
    simp only [getBranch]
    split
    · exact answers_ok _
    · next h0 =>
      have h0 : x.path.size ≠ 0 := by simpa [Path.isEmpty] using h0
      apply Answers.bind nibbleAt_ne
      intro nibble hn
      split
      · apply Answers.bind consume_ne
        intro path hc
        exact h _ (Node.next_branch h0 hn hc)
      · exact answers_ok _

/-! ## SetHandler -/

section Set

variable {s : Storage}

theorem setExtension_alike (hback : ssz.ReadsBack) (hs : s.Advancing ssz) {n : ExtensionNode}
    (hn : (Node.extension n).Advancing ssz) {path : Path} (hp : path.Small) (v : Bytes)
    {f g : Place → TrieM Reference}
    (h : ∀ y, (Node.extension n).next path = some y →
      Alike ssz s (AdvancingRef ssz) (f y) (g y)) :
    Alike ssz s (AdvancingRef ssz) (setExtension ssz (fun r p => f ⟨r, p⟩) v n path)
      (setExtension ssz (fun r p => g ⟨r, p⟩) v n path) := by
  obtain ⟨⟨hsmall, hne⟩, hr⟩ := hn
  unfold setExtension
  split
  · next hstart =>
    apply alike_lift hs consume_ne
    intro path' hc
    apply (h _ (Node.next_extension hstart hc)).bind
    intro ref hr'
    exact advances_extension hback hsmall hne hr'
  · refine Advances.alike ?_ hs
    have hcp := (commonPrefix_split hp hsmall).1
    refine (advances_consume hp _).bind fun p' hp' => ?_
    refine (advances_consume hsmall _).bind fun q' hq' => ?_
    refine (advances_createBranchLeaf hback hp' v advancingSlots_replicate).bind fun b hb => ?_
    refine (advances_createBranchExtension hback hq' hr hb).bind fun b' hb' => ?_
    exact (advances_branch hback hb' _).bind fun ref hr' => advances_wrap hback hcp hr'

theorem setBranch_alike (hback : ssz.ReadsBack) (hs : s.Advancing ssz) {n : BranchNode}
    (hn : (Node.branch n).Advancing ssz) {path : Path} (v : Bytes) {f g : Place → TrieM Reference}
    (h : ∀ y, (Node.branch n).next path = some y → Alike ssz s (AdvancingRef ssz) (f y) (g y)) :
    Alike ssz s (AdvancingRef ssz) (setBranch ssz (fun r p => f ⟨r, p⟩) v n path)
      (setBranch ssz (fun r p => g ⟨r, p⟩) v n path) := by
  have hslots : AdvancingSlots ssz n.getBranches := AdvancingSlots.getBranches hn
  unfold setBranch
  split
  · exact (advances_branch hback hslots v).alike hs
  · next h0 =>
    apply alike_lift hs nibbleAt_ne
    intro nibble hnib
    apply alike_lift hs consume_ne
    intro path' hc
    apply (h _ (Node.next_branch h0 hnib hc)).bind
    intro ref hr
    exact advances_branch hback (hslots.set _ hr) _

/-- `SetNode`, the recursive call taken out. -/
def setBody (ssz : SszLib) (value : Bytes) (rec : Place → TrieM Reference) (x : Place) :
    TrieM Reference := do
  if x.ref = [] then putToStorage ssz (.leaf ⟨x.path, value⟩)
  else
    match ← readNode ssz x.ref with
    | .leaf leaf => setLeaf ssz value leaf x.path
    | .extension extension_node =>
      setExtension ssz (fun r p => rec ⟨r, p⟩) value extension_node x.path
    | .branch branch_node => setBranch ssz (fun r p => rec ⟨r, p⟩) value branch_node x.path

theorem setNode_eq_run (value : Bytes) (fuel : Nat) (x : Place) :
    setNode ssz value fuel x.ref x.path =
      Walk.run (setBody ssz value) (fun _ => throw .outOfFuel) fuel x := by
  have hzero : ∀ x : Place, setNode ssz value 0 x.ref x.path = throw .outOfFuel := fun _ => rfl
  refine Walk.eq_run (f := fun fuel x => setNode ssz value fuel x.ref x.path) hzero ?_ fuel x
  intro fuel x
  rfl

/-- Reading a node, then going on by what it is. -/
theorem alike_read {α : Type} {Q : α → Prop} (hs : s.Advancing ssz) {x : Place}
    (hx : x.Advancing ssz) {f g : Node → TrieM α}
    (h : ∀ n, n.Advancing ssz → s.next ssz x = n.next x.path → Alike ssz s Q (f n) (g n)) :
    Alike ssz s Q (readNode ssz x.ref >>= f) (readNode ssz x.ref >>= g) := by
  apply alike_lift (x := getFromStorage ssz s x.ref) hs getFromStorage_ne
  intro n hn
  exact h n (getFromStorage_advancing hs hx.1 hn) (by rw [Storage.next, hn])

theorem setBody_alike (hback : ssz.ReadsBack) (hs : s.Advancing ssz) (value : Bytes)
    (f g : Place → TrieM Reference) (x : Place) (hx : x.Advancing ssz)
    (h : ∀ y, s.next ssz x = some y → Alike ssz s (AdvancingRef ssz) (f y) (g y)) :
    Alike ssz s (AdvancingRef ssz) (setBody ssz value f x) (setBody ssz value g x) := by
  unfold setBody
  split
  · exact (advances_leaf hback value hx.2).alike hs
  · apply alike_read hs hx
    intro n hn hnext
    rw [hnext] at h
    cases n with
    | leaf n => exact (advances_setLeaf hback hn hx.2 value).alike hs
    | extension n => exact setExtension_alike hback hs hn hx.2 value h
    | branch n => exact setBranch_alike hback hs hn value h

end Set

/-! ## DeleteHandler -/

section Delete

variable {s : Storage}

theorem deleteExtension_alike (hback : ssz.ReadsBack) (hs : s.Advancing ssz) {n : ExtensionNode}
    (hn : (Node.extension n).Advancing ssz) {path : Path} {f g : Place → TrieM DeleteResult}
    (h : ∀ y, (Node.extension n).next path = some y →
      Alike ssz s (DeleteResult.Advancing ssz) (f y) (g y)) :
    Alike ssz s (DeleteResult.Advancing ssz) (deleteExtension ssz (fun r p => f ⟨r, p⟩) n path)
      (deleteExtension ssz (fun r p => g ⟨r, p⟩) n path) := by
  unfold deleteExtension
  by_cases hstart : path.startsWith n.path = true
  · rw [if_neg (not_not.mpr hstart), if_neg (not_not.mpr hstart)]
    apply alike_lift hs consume_ne
    intro path' hc
    apply (h _ (Node.next_extension hstart hc)).bind
    intro result hres
    rcases result with ⟨_ | _ | _ | _, _ | ⟨p, _ | ref⟩⟩
    all_goals first
      | exact advances_throw (by decide)
      | exact advances_pure advancing_deleted
      | exact advances_handleUselessBranch hback hn (hres _ _ rfl).1 (hres _ _ rfl).2
      | exact (advances_extension hback hn.1.1 hn.1.2 (hres _ _ rfl).2).bind fun ref hr =>
          advances_pure (advancing_updated hr)
  · rw [if_pos hstart, if_pos hstart]
    exact (advances_throw_bind (by decide) _).alike hs

/-- Past the cases of an empty path. -/
theorem size_ne_zero_of_cases {path : Path} {value : Bytes}
    (hvalue : ¬ (path.isEmpty = true ∧ value = []))
    (hempty : ¬ (path.isEmpty = true ∧ value ≠ [])) : path.size ≠ 0 := by
  intro h0
  have he : path.isEmpty = true := by rw [Path.isEmpty, h0]; rfl
  rcases eq_or_ne value [] with hv | hv
  · exact hvalue ⟨he, hv⟩
  · exact hempty ⟨he, hv⟩

theorem deleteBranch_alike (hback : ssz.ReadsBack) (hs : s.Advancing ssz) {n : BranchNode}
    (hn : (Node.branch n).Advancing ssz) (junk : UInt8) {path : Path}
    {f g : Place → TrieM DeleteResult}
    (h : ∀ y, (Node.branch n).next path = some y →
      Alike ssz s (DeleteResult.Advancing ssz) (f y) (g y)) :
    Alike ssz s (DeleteResult.Advancing ssz) (deleteBranch ssz (fun r p => f ⟨r, p⟩) junk n path)
      (deleteBranch ssz (fun r p => g ⟨r, p⟩) junk n path) := by
  have hn : AdvancingSlots ssz n.branches := hn
  unfold deleteBranch
  split
  · exact (advances_throw (by decide)).alike hs
  · next hvalue =>
    split
    · exact (advances_handleBranchDeleteResult hback (n := { n with value := [] }) hn
        advancing_deleted junk).alike hs
    · next hempty =>
      have h0 := size_ne_zero_of_cases hvalue hempty
      apply alike_lift hs nibbleAt_ne
      intro nibble hnib
      split
      · exact (advances_throw_bind (by decide) _).alike hs
      · apply alike_lift hs consume_ne
        intro path' hc
        apply (h _ (Node.next_branch h0 hnib hc)).bind
        intro result hres
        exact advances_handleBranchDeleteResult hback hn hres nibble

/-- `DeleteNode`, the recursive call taken out. -/
def deleteBody (ssz : SszLib) (junk : UInt8) (rec : Place → TrieM DeleteResult) (x : Place) :
    TrieM DeleteResult := do
  match ← readNode ssz x.ref with
  | .leaf leaf => deleteLeaf leaf x.path
  | .extension extension_node => deleteExtension ssz (fun r p => rec ⟨r, p⟩) extension_node x.path
  | .branch branch_node => deleteBranch ssz (fun r p => rec ⟨r, p⟩) junk branch_node x.path

theorem deleteNode_eq_run (junk : UInt8) (fuel : Nat) (x : Place) :
    deleteNode ssz junk fuel x.ref x.path =
      Walk.run (deleteBody ssz junk) (fun _ => throw .outOfFuel) fuel x := by
  have hzero : ∀ x : Place, deleteNode ssz junk 0 x.ref x.path = throw .outOfFuel := fun _ => rfl
  refine Walk.eq_run (f := fun fuel x => deleteNode ssz junk fuel x.ref x.path) hzero ?_ fuel x
  intro fuel x
  rfl

theorem deleteBody_alike (hback : ssz.ReadsBack) (hs : s.Advancing ssz) (junk : UInt8)
    (f g : Place → TrieM DeleteResult) (x : Place) (hx : x.Advancing ssz)
    (h : ∀ y, s.next ssz x = some y → Alike ssz s (DeleteResult.Advancing ssz) (f y) (g y)) :
    Alike ssz s (DeleteResult.Advancing ssz) (deleteBody ssz junk f x)
      (deleteBody ssz junk g x) := by
  apply alike_read hs hx
  intro n hn hnext
  rw [hnext] at h
  cases n with
  | leaf n =>
    refine Advances.alike ?_ hs
    show Advances ssz _ (deleteLeaf n x.path)
    unfold deleteLeaf
    split
    · exact advances_pure advancing_deleted
    · exact advances_throw (by decide)
  | extension n => exact deleteExtension_alike hback hs hn h
  | branch n => exact deleteBranch_alike hback hs hn junk h

end Delete

/-! ## Every state -/

namespace MerklePatriciaTrie

/-- What every call keeps. -/
structure Advancing (ssz : SszLib) (t : MerklePatriciaTrie) : Prop where
  storage : t.storage.Advancing ssz
  root : AdvancingRef ssz t.root

variable {t : MerklePatriciaTrie}

theorem Advancing.start (h : t.Advancing ssz) (key : Bytes) :
    Place.Advancing ssz ⟨t.root, pathFromKey key⟩ := ⟨h.root, small_pathFromKey key⟩

theorem Advancing.getNode (h : t.Advancing ssz) (key : Bytes) {fuel : Nat}
    (hf : walkFuel (pathFromKey key) ≤ fuel) :
    Answers (Mpt.getNode ssz t.storage fuel t.root (pathFromKey key))
      (Mpt.getNode ssz t.storage (walkFuel (pathFromKey key)) t.root (pathFromKey key)) := by
  have hlt := lt_walkFuel key
  rw [getNode_eq_run t.storage fuel ⟨t.root, pathFromKey key⟩,
    getNode_eq_run t.storage _ ⟨t.root, pathFromKey key⟩]
  exact h.storage.descent.run_run (fun f g x _ hrec => getBody_answers f g x hrec) (h.start key)
    (hlt.trans_le hf) hlt

theorem Advancing.setNode (hback : ssz.ReadsBack) (h : t.Advancing ssz) (key value : Bytes)
    {fuel : Nat} (hf : walkFuel (pathFromKey key) ≤ fuel) :
    Alike ssz t.storage (AdvancingRef ssz) (Mpt.setNode ssz value fuel t.root (pathFromKey key))
      (Mpt.setNode ssz value (walkFuel (pathFromKey key)) t.root (pathFromKey key)) := by
  have hlt := lt_walkFuel key
  rw [setNode_eq_run value fuel ⟨t.root, pathFromKey key⟩,
    setNode_eq_run value _ ⟨t.root, pathFromKey key⟩]
  exact h.storage.descent.run_run (setBody_alike hback h.storage value) (h.start key)
    (hlt.trans_le hf) hlt

theorem Advancing.deleteNode (hback : ssz.ReadsBack) (h : t.Advancing ssz) (junk : UInt8)
    (key : Bytes) {fuel : Nat} (hf : walkFuel (pathFromKey key) ≤ fuel) :
    Alike ssz t.storage (DeleteResult.Advancing ssz)
      (Mpt.deleteNode ssz junk fuel t.root (pathFromKey key))
      (Mpt.deleteNode ssz junk (walkFuel (pathFromKey key)) t.root (pathFromKey key)) := by
  have hlt := lt_walkFuel key
  rw [deleteNode_eq_run junk fuel ⟨t.root, pathFromKey key⟩,
    deleteNode_eq_run junk _ ⟨t.root, pathFromKey key⟩]
  exact h.storage.descent.run_run (deleteBody_alike hback h.storage junk) (h.start key)
    (hlt.trans_le hf) hlt

/-- A call leaves an advancing trie, and throws for a reason of the code's own. -/
inductive Ends (ssz : SszLib) : EStateM.Result Error MerklePatriciaTrie Unit → Prop where
  | ok {t : MerklePatriciaTrie} : t.Advancing ssz → Ends ssz (.ok () t)
  | error {e : Error} {t : MerklePatriciaTrie} : t.Advancing ssz → e ≠ .outOfFuel →
      Ends ssz (.error e t)

theorem Ends.stateAfter {r : EStateM.Result Error MerklePatriciaTrie Unit} (h : Ends ssz r) :
    (stateAfter r).Advancing ssz := by
  cases h with
  | ok h => exact h
  | error h _ => exact h

theorem Ends.ne {r : EStateM.Result Error MerklePatriciaTrie Unit} (h : Ends ssz r)
    (t : MerklePatriciaTrie) : r ≠ .error .outOfFuel t := by
  rintro rfl
  cases h with
  | error _ h => exact h rfl

theorem Advancing.set (hback : ssz.ReadsBack) (h : t.Advancing ssz) (key value : Bytes) :
    Ends ssz (t.set ssz key value) := by
  have hrun := (h.setNode hback key value le_rfl).2
  unfold MerklePatriciaTrie.set
  dsimp only
  cases hs : Mpt.setNode ssz value (walkFuel (pathFromKey key)) t.root (pathFromKey key)
      t.storage with
  | ok ref s =>
    rw [hs] at hrun
    cases hrun with
    | ok hs hr => exact .ok ⟨hs, hr⟩
  | error e s =>
    rw [hs] at hrun
    cases hrun with
    | error hs he => exact .error ⟨hs, h.root⟩ he

theorem Advancing.remove (hback : ssz.ReadsBack) (h : t.Advancing ssz) (junk : UInt8)
    (key : Bytes) : Ends ssz (t.remove ssz junk key) := by
  have hrun := (h.deleteNode hback junk key le_rfl).2
  unfold MerklePatriciaTrie.remove
  split
  · exact .ok h
  · dsimp only
    cases hd : Mpt.deleteNode ssz junk (walkFuel (pathFromKey key)) t.root (pathFromKey key)
        t.storage with
    | error e s =>
      rw [hd] at hrun
      cases hrun with
      | error hs he => exact .error ⟨hs, h.root⟩ he
    | ok result s =>
      rw [hd] at hrun
      cases hrun with
      | ok hs hr =>
        have hroot : ∀ (c : Prop) [Decidable c],
            Advancing ssz ⟨if c then [] else t.root, s⟩ := by
          intro c _
          refine ⟨hs, ?_⟩
          dsimp only
          split
          · exact advancingRef_nil
          · exact h.root
        rcases result with ⟨action, info⟩
        cases action with
        | uselessBranch => exact .error ⟨hs, h.root⟩ (by decide)
        | _ =>
          rcases info with _ | ⟨p, _ | ref⟩
          · exact .error (hroot _) (by decide)
          · exact .error (hroot _) (by decide)
          · exact .ok ⟨hs, (hr _ _ rfl).2⟩

end MerklePatriciaTrie

theorem exec_advancing (hback : ssz.ReadsBack) (ops : List Op) : (exec ssz ops).Advancing ssz := by
  induction ops with
  | nil => exact ⟨Storage.advancing_empty, advancingRef_nil⟩
  | cons op ops ih =>
    cases op with
    | set key value => exact (ih.set hback key value).stateAfter
    | remove key junk => exact (ih.remove hback junk key).stateAfter

theorem Storage.Advancing.refFrom {s : Storage} (hs : s.Advancing ssz) {ref ref' : Reference}
    (h : RefFrom ssz s ref ref') (hr : AdvancingRef ssz ref) : AdvancingRef ssz ref' := by
  induction h with
  | refl => exact hr
  | ext hn _ ih => exact ih (getFromStorage_advancing hs hr hn).2
  | slot i hn _ ih =>
    exact ih ((AdvancingSlots.getBranches (getFromStorage_advancing hs hr hn)).getD _)

end Core.Mpt
