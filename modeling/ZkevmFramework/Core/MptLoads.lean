import ZkevmFramework.Core.MptWalk

/-!
# The nodes that `remove` loads

`DeleteNode` loads a node on the way down, and its handlers load further ones on
the way back: `BuildNewNodeFromLastBranch` the child that is left, and
`handleUselessBranch` the node that took the branch's place.  `loadingDeleteNode`
is `deleteNode` with a note of each load.  It does what `deleteNode` does; the loads
on the way down are places of the walk; and on the way back there is none until a
branch has one child left, one until that child has moved up, and at most two in
all (`tracks_deleteNode`).
-/

namespace Core.Mpt

open Nibble Patricia

/-- What a computation returns, and the references of the nodes it loads: by
`DeleteNode` itself, and by its handlers on the way back. -/
structure Loaded (σ α : Type) where
  result : EStateM.Result Error σ α
  down : List Reference
  back : List Reference

/-- A computation of the trie that notes what it loads, also when it throws. -/
def LoadM (α : Type) := Storage → Loaded Storage α

namespace LoadM

variable {α β : Type}

/-- A computation that loads nothing. -/
def quietly (x : TrieM α) : LoadM α := fun s => ⟨x s, [], []⟩

def bind (m : LoadM α) (f : α → LoadM β) : LoadM β := fun s =>
  match m s with
  | ⟨.ok a s, down, back⟩ => ⟨(f a s).result, down ++ (f a s).down, back ++ (f a s).back⟩
  | ⟨.error e s, down, back⟩ => ⟨.error e s, down, back⟩

instance : Monad LoadM where
  pure a := quietly (pure a)
  bind := bind

instance : MonadLift TrieM LoadM := ⟨quietly⟩

end LoadM

variable (ssz : SszLib)

/-- The load of `DeleteNode`. -/
def loadDown (ref : Reference) : LoadM Node := fun s => ⟨readNode ssz ref s, [ref], []⟩

/-- A load of the handlers. -/
def loadBack (ref : Reference) : LoadM Node := fun s => ⟨readNode ssz ref s, [], [ref]⟩

/-! ## DeleteHandler, with its loads -/

/-- `handleUselessBranch` -/
def loadingUselessBranch (extension_node : ExtensionNode) (info : DeletionInfo) (ref : Reference) :
    LoadM DeleteResult := do
  match ← loadBack ssz ref with
  | .leaf leaf_child =>
    let new_path ← liftExcept (extension_node.path.append leaf_child.path)
    return .updated (← putToStorage ssz (.leaf ⟨new_path, leaf_child.value⟩))
  | .extension extension_child =>
    let new_path ← liftExcept (extension_node.path.append extension_child.path)
    return .updated (← putToStorage ssz (.extension ⟨new_path, extension_child.nextRef⟩))
  | .branch _ =>
    let new_path ← liftExcept (extension_node.path.append info.path)
    return .updated (← putToStorage ssz (.extension ⟨new_path, ref⟩))

theorem one_le_nibbles (idx : UInt8) : 1 ≤ 2 * [idx].length := by
  rw [List.length_singleton]
  decide

/-- `BuildNewNodeFromLastBranch` -/
def loadingLastBranch (branches : List Reference) : LoadM DeleteResult := do
  let it := branches.findIdx fun ref => ref ≠ []
  if it = branches.length then liftExcept (.error .noValidBranches)
  let idx := UInt8.ofNat it
  let prefixNibble : Path := ⟨[idx], 1, one_le_nibbles idx⟩
  let ref := branches.getD it []
  match ← loadBack ssz ref with
  | .leaf leaf_child =>
    let path ← liftExcept (prefixNibble.append leaf_child.path)
    let ref ← putToStorage ssz (.leaf ⟨path, leaf_child.value⟩)
    return ⟨.uselessBranch, some ⟨path, some ref⟩⟩
  | .extension extension_child =>
    let path ← liftExcept (prefixNibble.append extension_child.path)
    let ref ← putToStorage ssz (.extension ⟨path, extension_child.nextRef⟩)
    return ⟨.uselessBranch, some ⟨path, some ref⟩⟩
  | .branch _ =>
    let ref ← putToStorage ssz (.extension ⟨prefixNibble, ref⟩)
    return ⟨.uselessBranch, some ⟨prefixNibble, some ref⟩⟩

/-- `HandleBranchDeletion` -/
def loadingBranchDeletion (branch_node : BranchNode) (idx : UInt8) : LoadM DeleteResult := do
  let branches := branch_node.getBranches
  let valid_branches := branches.countP fun ref => ref ≠ []
  if valid_branches = 0 ∧ branch_node.value = [] then return ⟨.deleted, none⟩
  else if valid_branches = 0 ∧ branch_node.value ≠ [] then
    let new_path := Path.empty
    let ref ← putToStorage ssz (.leaf ⟨new_path, branch_node.value⟩)
    return ⟨.uselessBranch, some ⟨new_path, some ref⟩⟩
  else if valid_branches = 1 ∧ branch_node.value = [] then
    loadingLastBranch ssz branches
  else
    let updated_branch ← liftExcept (branch_node.clearBranch idx)
    return .updated (← putToStorage ssz (.branch updated_branch))

/-- `HandleBranchDeleteResult` -/
def loadingBranchDeleteResult (branch_node : BranchNode) (result : DeleteResult) (idx : UInt8) :
    LoadM DeleteResult := do
  match result.action with
  | .deleted => loadingBranchDeletion ssz branch_node idx
  | .updated | .uselessBranch =>
    match result.info with
    | some ⟨_, some ref⟩ =>
      let updated_branch ← liftExcept (branch_node.setBranch idx ref)
      return .updated (← putToStorage ssz (.branch updated_branch))
    | _ => liftExcept (.error .invalidUpdateInfo)
  | .unknown => liftExcept (.error .invalidAction)

def loadingExtension (deleteNode : Reference → Path → LoadM DeleteResult)
    (extension_node : ExtensionNode) (path : Path) : LoadM DeleteResult := do
  if ¬ path.startsWith extension_node.path then liftExcept (.error .keyNotFound)
  let remaining_path ← liftExcept (path.consume (toSizeT extension_node.path.size))
  let result ← deleteNode extension_node.nextRef remaining_path
  match result.action with
  | .deleted => return ⟨.deleted, none⟩
  | .updated =>
    match result.info with
    | some ⟨_, some ref⟩ =>
      return .updated (← putToStorage ssz (.extension ⟨extension_node.path, ref⟩))
    | _ => liftExcept (.error .invalidUpdateInfo)
  | .uselessBranch =>
    match result.info with
    | some ⟨p, some ref⟩ => loadingUselessBranch ssz extension_node ⟨p, some ref⟩ ref
    | _ => liftExcept (.error .invalidUselessBranchInfo)
  | .unknown => liftExcept (.error .invalidAction)

def loadingBranch (deleteNode : Reference → Path → LoadM DeleteResult) (junk : UInt8)
    (branch_node : BranchNode) (path : Path) : LoadM DeleteResult := do
  if path.isEmpty ∧ branch_node.value = [] then liftExcept (.error .keyNotFound)
  else if path.isEmpty ∧ branch_node.value ≠ [] then
    loadingBranchDeleteResult ssz { branch_node with value := [] } ⟨.deleted, none⟩ junk
  else
    let idx ← liftExcept (path.nibbleAt 0)
    if branch_node.getBranches.getD idx.toNat [] = [] then liftExcept (.error .keyNotFound)
    let remaining_path ← liftExcept (path.consume 1)
    let result ← deleteNode (branch_node.getBranches.getD idx.toNat []) remaining_path
    loadingBranchDeleteResult ssz branch_node result idx

/-- `DeleteNode` -/
def loadingDeleteNode (junk : UInt8) : Nat → Reference → Path → LoadM DeleteResult
  | 0, _, _ => liftExcept (.error .outOfFuel)
  | fuel + 1, node_ref, path => do
    match ← loadDown ssz node_ref with
    | .leaf leaf => deleteLeaf leaf path
    | .extension extension_node =>
      loadingExtension ssz (loadingDeleteNode junk fuel) extension_node path
    | .branch branch_node => loadingBranch ssz (loadingDeleteNode junk fuel) junk branch_node path

/-- `remove` -/
def MerklePatriciaTrie.loadingRemove (junk : UInt8) (key : Bytes) (t : MerklePatriciaTrie) :
    Loaded MerklePatriciaTrie Unit :=
  if t.root = [] then ⟨.ok () t, [], []⟩
  else
    let path := pathFromKey key
    let r := loadingDeleteNode ssz junk (walkFuel path) t.root path t.storage
    let result : EStateM.Result Error MerklePatriciaTrie Unit :=
      match r.result with
      | .error e s => .error e ⟨t.root, s⟩
      | .ok ⟨.uselessBranch, _⟩ s => .error .removeError ⟨t.root, s⟩
      | .ok ⟨action, info⟩ s =>
        let root := if action = .deleted then [] else t.root
        match info with
        | some ⟨_, some ref⟩ => .ok () ⟨ref, s⟩
        | _ => .error .emptyOptional ⟨root, s⟩
    ⟨result, r.down, r.back⟩

/-! ## Loads and results -/

/-- The loads that a deletion may have had on its way back when this is its result. -/
def DeleteAction.loads : DeleteAction → Nat
  | .deleted => 0
  | .uselessBranch => 1
  | .updated | .unknown => 2

theorem DeleteAction.loads_le (action : DeleteAction) : action.loads ≤ 2 := by
  cases action <;> decide

def allowedLoads : EStateM.Result Error Storage DeleteResult → Nat
  | .ok result _ => result.action.loads
  | .error _ _ => 2

theorem allowedLoads_le (r : EStateM.Result Error Storage DeleteResult) : allowedLoads r ≤ 2 := by
  cases r with
  | ok result _ => exact result.action.loads_le
  | error _ _ => exact le_rfl

variable {ssz}

/-- `m` is `x` with its loads: down the walk, and back within what its result allows
where `n` are behind it. -/
structure Tracks (n : Nat) (m : LoadM DeleteResult) (x : TrieM DeleteResult) (s : Storage)
    (walk : List Reference) : Prop where
  result : (m s).result = x s
  down : (m s).down <+: walk
  back : n + (m s).back.length ≤ allowedLoads (m s).result

section Tracks

variable {α : Type} {n : Nat} {s : Storage} {walk : List Reference}

theorem tracks_quietly {x : TrieM DeleteResult} (h : n ≤ allowedLoads (x s)) :
    Tracks n (.quietly x) x s walk :=
  ⟨rfl, List.nil_prefix, h⟩

theorem tracks_pure {result : DeleteResult} (h : n ≤ result.action.loads) :
    Tracks n (pure result) (pure result) s walk :=
  tracks_quietly h

theorem tracks_error {e : Error} (h : n ≤ 2) :
    Tracks n (LoadM.quietly (liftExcept (.error e))) (throw e) s walk :=
  ⟨rfl, List.nil_prefix, h⟩

theorem tracks_error_bind {e : Error} {f : α → LoadM DeleteResult} {g : α → TrieM DeleteResult}
    (h : n ≤ 2) :
    Tracks n (LoadM.quietly (liftExcept (.error e)) >>= f) (throw e >>= g) s walk :=
  ⟨rfl, List.nil_prefix, h⟩

/-- A step whose loads are known. -/
theorem tracks_bind {m : LoadM α} {x : TrieM α} {f : α → LoadM DeleteResult}
    {g : α → TrieM DeleteResult} (down back : List Reference) (hm : m s = ⟨x s, down, back⟩)
    (hn : n + back.length ≤ 2)
    (h : ∀ a s', x s = .ok a s' → Tracks (n + back.length) (f a) (g a) s' walk) :
    Tracks n (m >>= f) (x >>= g) s (down ++ walk) := by
  have hbind : (m >>= f) s = LoadM.bind m f s := rfl
  have hx : (x >>= g) s = EStateM.bind x g s := rfl
  cases hr : x s with
  | ok a s' =>
    obtain ⟨hresult, hdown, hback⟩ := h a s' hr
    constructor
    all_goals simp only [hbind, hx, LoadM.bind, EStateM.bind, hm, hr]
    · exact hresult
    · exact (List.prefix_append_right_inj down).mpr hdown
    · rw [List.length_append, ← Nat.add_assoc]
      exact hback
  | error e s' =>
    constructor
    all_goals simp only [hbind, hx, LoadM.bind, EStateM.bind, hm, hr]
    · exact List.prefix_append down walk
    · exact hn

theorem tracks_quietly_bind {x : TrieM α} {f : α → LoadM DeleteResult}
    {g : α → TrieM DeleteResult} (hn : n ≤ 2)
    (h : ∀ a s', x s = .ok a s' → Tracks n (f a) (g a) s' walk) :
    Tracks n (LoadM.quietly x >>= f) (x >>= g) s walk :=
  tracks_bind [] [] rfl hn h

theorem of_liftExcept_ok {x : Except Error α} {a : α} {s' : Storage}
    (h : liftExcept x s = .ok a s') : x = .ok a ∧ s' = s := by
  cases x with
  | ok a' =>
    cases h
    exact ⟨rfl, rfl⟩
  | error e => cases h

theorem tracks_lift_bind {x : Except Error α} {f : α → LoadM DeleteResult}
    {g : α → TrieM DeleteResult} (hn : n ≤ 2) (h : ∀ a, x = .ok a → Tracks n (f a) (g a) s walk) :
    Tracks n (LoadM.quietly (liftExcept x) >>= f) (liftExcept x >>= g) s walk := by
  apply tracks_quietly_bind hn
  intro a s' hr
  obtain ⟨hx, rfl⟩ := of_liftExcept_ok hr
  exact h a hx

theorem tracks_loadBack_bind {ref : Reference} {f : Node → LoadM DeleteResult}
    {g : Node → TrieM DeleteResult} (hn : n + 1 ≤ 2)
    (h : ∀ node s', Tracks (n + 1) (f node) (g node) s' walk) :
    Tracks n (loadBack ssz ref >>= f) (readNode ssz ref >>= g) s walk := by
  apply tracks_bind [] [ref] rfl hn
  intro node s' _
  exact h node s'

theorem tracks_loadDown_bind {ref : Reference} {f : Node → LoadM DeleteResult}
    {g : Node → TrieM DeleteResult} (hn : n ≤ 2)
    (h : ∀ node, getFromStorage ssz s ref = .ok node → Tracks n (f node) (g node) s walk) :
    Tracks n (loadDown ssz ref >>= f) (readNode ssz ref >>= g) s (ref :: walk) := by
  apply tracks_bind [ref] [] rfl hn
  intro node s' hr
  obtain ⟨hnode, rfl⟩ := of_liftExcept_ok (x := getFromStorage ssz s ref) hr
  exact h node hnode

/-- The recursive call, and what a handler does with its result. -/
theorem Tracks.bind {m : LoadM DeleteResult} {x : TrieM DeleteResult}
    {f : DeleteResult → LoadM DeleteResult} {g : DeleteResult → TrieM DeleteResult}
    (hm : Tracks n m x s walk)
    (h : ∀ result s', Tracks result.action.loads (f result) (g result) s' []) :
    Tracks n (m >>= f) (x >>= g) s walk := by
  have hbind : (m >>= f) s = LoadM.bind m f s := rfl
  have hx : (x >>= g) s = EStateM.bind x g s := rfl
  obtain ⟨hresult, hdown, hback⟩ := hm
  rcases hr : m s with ⟨⟨result, s'⟩ | ⟨e, s'⟩, down, back⟩
  all_goals
    rw [hr] at hresult hdown hback
    constructor
    all_goals simp only [hbind, hx, LoadM.bind, EStateM.bind, hr, ← hresult]
  · exact (h result s').result
  · rw [List.prefix_nil.mp (h result s').down, List.append_nil]
    exact hdown
  · have hf := (h result s').back
    have hback : n + back.length ≤ result.action.loads := hback
    rw [List.length_append]
    omega
  · exact hdown
  · exact hback

/-! ## The handlers -/

/-- What `Updated` reports is within the bound, whatever is behind it. -/
theorem tracks_put_updated {node : Node} (hn : n ≤ 2) :
    Tracks n (do return .updated (← putToStorage ssz node))
      (do return .updated (← putToStorage ssz node)) s walk :=
  tracks_quietly_bind hn fun _ _ _ => tracks_pure hn

theorem tracks_put_useless {node : Node} {path : Path} (hn : n ≤ 1) :
    Tracks n (do return ⟨.uselessBranch, some ⟨path, some (← putToStorage ssz node)⟩⟩)
      (do return ⟨.uselessBranch, some ⟨path, some (← putToStorage ssz node)⟩⟩) s walk :=
  tracks_quietly_bind (by omega) fun _ _ _ => tracks_pure hn

theorem tracks_handleUselessBranch (extension_node : ExtensionNode) (info : DeletionInfo)
    (ref : Reference) :
    Tracks 1 (loadingUselessBranch ssz extension_node info ref)
      (handleUselessBranch ssz extension_node info ref) s walk := by
  apply tracks_loadBack_bind le_rfl
  intro node s'
  cases node with
  | leaf leaf_child => exact tracks_lift_bind le_rfl fun _ _ => tracks_put_updated le_rfl
  | extension extension_child => exact tracks_lift_bind le_rfl fun _ _ => tracks_put_updated le_rfl
  | branch _ => exact tracks_lift_bind le_rfl fun _ _ => tracks_put_updated le_rfl

theorem tracks_lastBranch (branches : List Reference) :
    Tracks 0 (loadingLastBranch ssz branches) (buildNewNodeFromLastBranch ssz branches) s walk := by
  unfold loadingLastBranch buildNewNodeFromLastBranch
  dsimp only
  split
  · exact tracks_error_bind (Nat.zero_le 2)
  · apply tracks_loadBack_bind (by decide)
    intro node s'
    cases node with
    | leaf leaf_child => exact tracks_lift_bind (by decide) fun _ _ => tracks_put_useless le_rfl
    | extension extension_child =>
      exact tracks_lift_bind (by decide) fun _ _ => tracks_put_useless le_rfl
    | branch _ => exact tracks_put_useless le_rfl

theorem tracks_branchDeletion (branch_node : BranchNode) (idx : UInt8) :
    Tracks 0 (loadingBranchDeletion ssz branch_node idx) (handleBranchDeletion ssz branch_node idx)
      s walk := by
  unfold loadingBranchDeletion handleBranchDeletion
  dsimp only
  split
  · exact tracks_pure le_rfl
  · split
    · exact tracks_put_useless (by decide)
    · split
      · exact tracks_lastBranch _
      · exact tracks_lift_bind (by decide) fun _ _ => tracks_put_updated (by decide)

theorem tracks_branchDeleteResult (branch_node : BranchNode) (result : DeleteResult) (idx : UInt8) :
    Tracks result.action.loads (loadingBranchDeleteResult ssz branch_node result idx)
      (handleBranchDeleteResult ssz branch_node result idx) s walk := by
  have hupdated : ∀ n ≤ 2, ∀ ref : Reference, Tracks n
      (do
        let updated_branch ← liftExcept (branch_node.setBranch idx ref)
        return .updated (← putToStorage ssz (.branch updated_branch)))
      (do
        let updated_branch ← liftExcept (branch_node.setBranch idx ref)
        return .updated (← putToStorage ssz (.branch updated_branch))) s walk :=
    fun n hn ref => tracks_lift_bind hn fun _ _ => tracks_put_updated hn
  rcases result with ⟨_ | _ | _ | _, _ | ⟨p, _ | ref⟩⟩
  all_goals first
    | exact tracks_branchDeletion branch_node idx
    | exact hupdated _ (DeleteAction.loads_le _) ref
    | exact tracks_error (DeleteAction.loads_le _)

variable {rec : Reference → Path → LoadM DeleteResult}
  {rec' : Reference → Path → TrieM DeleteResult} {path : Path}

theorem tracks_extension {extension_node : ExtensionNode}
    (h : ∀ y, (Node.extension extension_node).next path = some y →
      Tracks 0 (rec y.ref y.path) (rec' y.ref y.path) s walk) :
    Tracks 0 (loadingExtension ssz rec extension_node path)
      (deleteExtension ssz rec' extension_node path) s walk := by
  unfold loadingExtension deleteExtension
  by_cases hstart : path.startsWith extension_node.path = true
  · rw [if_neg (not_not.mpr hstart), if_neg (not_not.mpr hstart)]
    apply tracks_lift_bind (Nat.zero_le 2)
    intro path' hc
    apply (h _ (Node.next_extension hstart hc)).bind
    intro result s'
    rcases result with ⟨_ | _ | _ | _, _ | ⟨p, _ | ref⟩⟩
    all_goals first
      | exact tracks_pure le_rfl
      | exact tracks_put_updated le_rfl
      | exact tracks_handleUselessBranch extension_node ⟨p, some ref⟩ ref
      | exact tracks_error (DeleteAction.loads_le _)
  · rw [if_pos hstart, if_pos hstart]
    exact tracks_error_bind (Nat.zero_le 2)

theorem tracks_branch {branch_node : BranchNode} (junk : UInt8)
    (h : ∀ y, (Node.branch branch_node).next path = some y →
      Tracks 0 (rec y.ref y.path) (rec' y.ref y.path) s walk) :
    Tracks 0 (loadingBranch ssz rec junk branch_node path)
      (deleteBranch ssz rec' junk branch_node path) s walk := by
  unfold loadingBranch deleteBranch
  split
  · exact tracks_error (by decide)
  · next hvalue =>
    split
    · exact tracks_branchDeleteResult _ ⟨.deleted, none⟩ junk
    · next hempty =>
      have h0 := size_ne_zero_of_cases hvalue hempty
      apply tracks_lift_bind (Nat.zero_le 2)
      intro nibble hnib
      split
      · exact tracks_error_bind (Nat.zero_le 2)
      · apply tracks_lift_bind (Nat.zero_le 2)
        intro path' hc
        apply (h _ (Node.next_branch h0 hnib hc)).bind
        intro result s'
        exact tracks_branchDeleteResult branch_node result nibble

/-- **`DeleteNode` with its loads**: down along the walk, and back within what the
result allows. -/
theorem tracks_deleteNode (junk : UInt8) (fuel : Nat) (x : Place) (s : Storage) :
    Tracks 0 (loadingDeleteNode ssz junk fuel x.ref x.path) (deleteNode ssz junk fuel x.ref x.path) s
      ((Walk.visits (s.next ssz) fuel x).map Place.ref) := by
  induction fuel generalizing x with
  | zero => exact tracks_error (Nat.zero_le 2)
  | succ fuel ih =>
    rw [Walk.visits, List.map_cons]
    apply tracks_loadDown_bind (Nat.zero_le 2)
    intro node hnode
    have hrec : ∀ y, node.next x.path = some y →
        Tracks 0 (loadingDeleteNode ssz junk fuel y.ref y.path)
          (deleteNode ssz junk fuel y.ref y.path) s
          (((s.next ssz x).elim [] (Walk.visits (s.next ssz) fuel)).map Place.ref) := by
      intro y hy
      have hnext : s.next ssz x = some y := by rw [Storage.next, hnode, ← hy]
      rw [hnext]
      exact ih y
    cases node with
    | leaf leaf => exact tracks_quietly (Nat.zero_le _)
    | extension extension_node => exact tracks_extension hrec
    | branch branch_node => exact tracks_branch junk hrec

end Tracks

/-! ## Every call -/

namespace MerklePatriciaTrie

variable (t : MerklePatriciaTrie) (junk : UInt8) (key : Bytes)

theorem result_loadingRemove : (t.loadingRemove ssz junk key).result = t.remove ssz junk key := by
  have htracks := (@tracks_deleteNode ssz junk (walkFuel (pathFromKey key))
    ⟨t.root, pathFromKey key⟩ t.storage).result
  unfold loadingRemove remove
  split
  · rfl
  · dsimp only at htracks ⊢
    rewrite [htracks]
    rcases deleteNode ssz junk (walkFuel (pathFromKey key)) t.root (pathFromKey key) t.storage
      with ⟨⟨_ | _ | _ | _, _ | ⟨p, _ | ref⟩⟩, s⟩ | ⟨e, s⟩
    all_goals rfl

theorem down_loadingRemove : (t.loadingRemove ssz junk key).down <+:
    (t.visits ssz (walkFuel (pathFromKey key)) (pathFromKey key)).map Place.ref := by
  unfold loadingRemove
  split
  · exact List.nil_prefix
  · exact (tracks_deleteNode junk _ ⟨t.root, pathFromKey key⟩ t.storage).down

theorem back_loadingRemove : (t.loadingRemove ssz junk key).back.length ≤ 2 := by
  unfold loadingRemove
  split
  · exact Nat.zero_le 2
  · have hback := (@tracks_deleteNode ssz junk (walkFuel (pathFromKey key))
      ⟨t.root, pathFromKey key⟩ t.storage).back
    rw [Nat.zero_add] at hback
    exact hback.trans (allowedLoads_le _)

end MerklePatriciaTrie

/-- **Walks are bounded by the key, also when hashes collide.**  After any calls,
also ones that threw: no stored extension node has an empty path, the walk of a
key comes by at most one place more than its path has nibbles, with less of the
path left at each, and that many calls of `GetNode`, `SetNode` and `DeleteNode`
are all that the three operations make.  `remove` loads no node on its way down but
those of its walk, and at most two further ones on its way back. -/
theorem walks_bounded (hback : ssz.ReadsBack) (ops : List Op) (key value : Bytes) (junk : UInt8) :
    let t := exec ssz ops
    let path := pathFromKey key
    let loading := t.loadingRemove ssz junk key
    (∀ e ∈ t.storage.stored, ∀ n, decodeNode ssz e = .ok (.extension n) → n.path.nibbles ≠ []) ∧
    (∀ ref, RefFrom ssz t.storage t.root ref → ∀ n,
      getFromStorage ssz t.storage ref = .ok (.extension n) → n.path.nibbles ≠ []) ∧
    (∀ n, (t.visits ssz n path).length ≤ path.size.toNat + 1 ∧
      (t.visits ssz n path).Pairwise fun x y => y.path.nibbles.length < x.path.nibbles.length) ∧
    (∀ fuel, path.size.toNat + 1 ≤ fuel →
      getNode ssz t.storage fuel t.root path =
        getNode ssz t.storage (path.size.toNat + 1) t.root path ∧
      setNode ssz value fuel t.root path t.storage =
        setNode ssz value (path.size.toNat + 1) t.root path t.storage ∧
      deleteNode ssz junk fuel t.root path t.storage =
        deleteNode ssz junk (path.size.toNat + 1) t.root path t.storage) ∧
    getNode ssz t.storage (path.size.toNat + 1) t.root path ≠ .error .outOfFuel ∧
    (∀ t', t.set ssz key value ≠ .error .outOfFuel t') ∧
    (∀ t', t.remove ssz junk key ≠ .error .outOfFuel t') ∧
    loading.result = t.remove ssz junk key ∧
    loading.down <+: (t.visits ssz (path.size.toNat + 1) path).map Place.ref ∧
    loading.down.length ≤ path.size.toNat + 1 ∧ loading.back.length ≤ 2 := by
  intro t path loading
  have ht : t.Advancing ssz := exec_advancing hback ops
  have hsize : path.size.toNat = path.nibbles.length := by
    rw [Path.size_eq (small_pathFromKey key)]
    rfl
  have hvisits : ∀ n, (t.visits ssz n path).length ≤ path.size.toNat + 1 := by
    intro n
    rw [hsize]
    exact ht.storage.descent.length_visits_le n (ht.start key)
  have hdown : loading.down <+: (t.visits ssz (path.size.toNat + 1) path).map Place.ref :=
    t.down_loadingRemove junk key
  refine ⟨?_, ?_, ?_, ?_, ?_, ?_, ?_, ?_, ?_, ?_, ?_⟩
  · intro e he n hn
    exact ((ht.storage.stored e he).decode hn).1.2
  · intro ref hfrom n hn
    exact (getFromStorage_advancing ht.storage (ht.storage.refFrom hfrom ht.root) hn).1.2
  · exact fun n => ⟨hvisits n, ht.storage.descent.pairwise_visits n (ht.start key)⟩
  · intro fuel hf
    exact ⟨(ht.getNode key hf).1, (ht.setNode hback key value hf).1,
      (ht.deleteNode hback junk key hf).1⟩
  · exact (ht.getNode key le_rfl).2
  · exact (ht.set hback key value).ne
  · exact (ht.remove hback junk key).ne
  · exact t.result_loadingRemove junk key
  · exact hdown
  · have hlength := hdown.length_le
    rw [List.length_map] at hlength
    exact hlength.trans (hvisits _)
  · exact t.back_loadingRemove junk key

/-- Two leaves with one hash, the second stored over the first. -/
theorem walks_bounded_collision :
    let t := exec .standard
      [.set [0x21] (List.replicate 64 0 ++ [1]), .set [0x11] (1 :: List.replicate 64 0)]
    let path := pathFromKey [0x11]
    let loading := t.loadingRemove .standard 0 [0x11]
    (∀ e ∈ t.storage.stored, ∀ n, decodeNode .standard e = .ok (.extension n) →
      n.path.nibbles ≠ []) ∧
    (∀ ref, RefFrom .standard t.storage t.root ref → ∀ n,
      getFromStorage .standard t.storage ref = .ok (.extension n) → n.path.nibbles ≠ []) ∧
    (∀ n, (t.visits .standard n path).length ≤ path.size.toNat + 1 ∧
      (t.visits .standard n path).Pairwise fun x y =>
        y.path.nibbles.length < x.path.nibbles.length) ∧
    (∀ fuel, path.size.toNat + 1 ≤ fuel →
      getNode .standard t.storage fuel t.root path =
        getNode .standard t.storage (path.size.toNat + 1) t.root path ∧
      setNode .standard [7] fuel t.root path t.storage =
        setNode .standard [7] (path.size.toNat + 1) t.root path t.storage ∧
      deleteNode .standard 0 fuel t.root path t.storage =
        deleteNode .standard 0 (path.size.toNat + 1) t.root path t.storage) ∧
    getNode .standard t.storage (path.size.toNat + 1) t.root path ≠ .error .outOfFuel ∧
    (∀ t', t.set .standard [0x11] [7] ≠ .error .outOfFuel t') ∧
    (∀ t', t.remove .standard 0 [0x11] ≠ .error .outOfFuel t') ∧
    loading.result = t.remove .standard 0 [0x11] ∧
    loading.down <+: (t.visits .standard (path.size.toNat + 1) path).map Place.ref ∧
    loading.down.length ≤ path.size.toNat + 1 ∧ loading.back.length ≤ 2 :=
  walks_bounded SszLib.readsBack_standard
    [.set [0x21] (List.replicate 64 0 ++ [1]), .set [0x11] (1 :: List.replicate 64 0)] [0x11] [7] 0

/-- The keys `11`, `1122` and `112233`.  The branch at `1122` is left with one child,
which takes its place and is loaded again under the extension above it. -/
theorem remove_loads_more :
    let t := exec .standard
      [.set [0x11, 0x22, 0x33] [3], .set [0x11, 0x22] [2], .set [0x11] [1]]
    let loading := t.loadingRemove .standard 0 [0x11, 0x22]
    loading.down.length = 4 ∧ loading.back.length = 2 ∧
      (pathFromKey [0x11, 0x22]).size.toNat + 1 < loading.down.length + loading.back.length := by
  decide +kernel

end Core.Mpt
