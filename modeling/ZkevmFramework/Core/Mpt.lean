import ZkevmFramework.Core.Node

/-!
# `core::mpt::MerklePatriciaTrie`

The trie as the source computes it.  References below 32 bytes are the node
itself, longer ones are keys of `nodes`.  The handlers take the recursive call
as an argument; the recursion through the references is bounded by `fuel`, and
the three public operations give it one step more than the key has nibbles.

Two things are not in the source: `Storage.stored` remembers every encoding of
at least 32 bytes handed to `PutToStorage` (only hypotheses on a run read it),
and `idx` is the value the uninitialised local of the branch deletion happens
to hold.
-/

namespace Core.Mpt

/-- `BasicHash` -/
@[irreducible] def basicHash (key : Bytes) : Bytes :=
  let result := (List.range key.length).foldl
    (fun r i => r.set (i % 64) (r.getD (i % 64) 0 ^^^ key.getD i 0)) (List.replicate 64 0)
  (List.range 64).foldl
    (fun r i =>
      let r := r.set i (r.getD i 0 ^^^ r.getD ((i + 1) % 64) 0)
      r.set i ((r.getD i 0 <<< 1) ||| (r.getD i 0 >>> 7)))
    result

/-- `nodes_`, and the long encodings stored so far. -/
structure Storage where
  nodes : Reference → Option Bytes
  stored : List Bytes

def Storage.empty : Storage := ⟨fun _ => none, []⟩

/-- `nodes_[BasicHash(encoded)] = encoded` -/
def Storage.put (s : Storage) (encoded : Bytes) : Storage where
  nodes := Function.update s.nodes (basicHash encoded) (some encoded)
  stored := encoded :: s.stored

/-- `root_` and the storage. -/
structure MerklePatriciaTrie where
  root : Reference
  storage : Storage

def MerklePatriciaTrie.empty : MerklePatriciaTrie := ⟨[], Storage.empty⟩

/-- A computation that may change the storage, and keeps the change when it throws. -/
abbrev TrieM := EStateM Error Storage

def liftExcept {α : Type} (x : Except Error α) : TrieM α :=
  match x with
  | .ok a => pure a
  | .error e => throw e

variable (ssz : SszLib)

/-! ## Storage -/

/-- `GetFromStorage` -/
def getFromStorage (s : Storage) (ref : Reference) : Except Error Node :=
  if ref.length < 32 then decodeNode ssz ref
  else
    match s.nodes ref with
    | none => .error .nodeNotFound
    | some encoded => decodeNode ssz encoded

/-- `GetFromStorage`, for the handlers. -/
def readNode (ref : Reference) : TrieM Node := do
  let s ← get
  liftExcept (getFromStorage ssz s ref)

/-- `PutToStorage` -/
def putToStorage (node : Node) : TrieM Reference := do
  let encoded ← liftExcept (node.encode ssz)
  if encoded.length < 32 then return encoded
  modify fun s => s.put encoded
  return basicHash encoded

/-! ## GetHandler -/

def getLeaf (leaf : LeafNode) (path : Path) : Option Bytes :=
  if leaf.path == path then some leaf.value else none

def getExtension (getNode : Reference → Path → Except Error (Option Bytes))
    (extension_node : ExtensionNode) (path : Path) : Except Error (Option Bytes) := do
  if path.size ≥ extension_node.path.size ∧ path.startsWith extension_node.path then
    let path ← path.consume (toSizeT extension_node.path.size)
    getNode extension_node.nextRef path
  else return none

def getBranch (getNode : Reference → Path → Except Error (Option Bytes))
    (branch_node : BranchNode) (path : Path) : Except Error (Option Bytes) := do
  if path.isEmpty then return some branch_node.value
  let nibble ← path.nibbleAt 0
  let next := branch_node.getBranches.getD nibble.toNat []
  if next ≠ [] then
    let path ← path.consume 1
    getNode next path
  else return none

/-- `GetNode` -/
def getNode (s : Storage) : Nat → Reference → Path → Except Error (Option Bytes)
  | 0, _, _ => .error .outOfFuel
  | fuel + 1, node_ref, path => do
    match ← getFromStorage ssz s node_ref with
    | .leaf leaf => return getLeaf leaf path
    | .extension extension_node => getExtension (getNode s fuel) extension_node path
    | .branch branch_node => getBranch (getNode s fuel) branch_node path

/-! ## SetHandler -/

/-- `CreateBranchLeaf` -/
def createBranchLeaf (path : Path) (val : Bytes) (branches : List Reference) :
    TrieM (List Reference) := do
  if path.size > 0 then
    let nibble ← liftExcept (path.nibbleAt 0)
    let path ← liftExcept (path.consume 1)
    let leaf ← putToStorage ssz (.leaf ⟨path, val⟩)
    return branches.set nibble.toNat leaf
  else return branches

/-- `CreateBranchNode` -/
def createBranchNode (lhsPath : Path) (lhs_val : Bytes) (rhsPath : Path) (rhs_val : Bytes) :
    TrieM Reference := do
  if lhsPath.size = 0 ∧ rhsPath.size = 0 then throw .setInvalidAction
  let branches := List.replicate branchesNum []
  let val := if lhsPath.size = 0 then lhs_val else if rhsPath.size = 0 then rhs_val else []
  let branches ← createBranchLeaf ssz lhsPath lhs_val branches
  let branches ← createBranchLeaf ssz rhsPath rhs_val branches
  putToStorage ssz (.branch ⟨branches, val⟩)

/-- `CreateBranchExtension` -/
def createBranchExtension (path : Path) (nextRef : Reference) (branches : List Reference) :
    TrieM (List Reference) := do
  if path.size = 0 then throw .emptyExtensionPath
  else if path.size = 1 then
    let nibble ← liftExcept (path.nibbleAt 0)
    return branches.set nibble.toNat nextRef
  else
    let nibble ← liftExcept (path.nibbleAt 0)
    let path ← liftExcept (path.consume 1)
    let reference ← putToStorage ssz (.extension ⟨path, nextRef⟩)
    return branches.set nibble.toNat reference

def setLeaf (value : Bytes) (leaf : LeafNode) (path : Path) : TrieM Reference := do
  if leaf.path == path then
    putToStorage ssz (.leaf ⟨path, value⟩)
  else
    let commonPrefix := path.commonPrefix leaf.path
    let path ← liftExcept (path.consume (toSizeT commonPrefix.size))
    let leafPath ← liftExcept (leaf.path.consume (toSizeT commonPrefix.size))
    let branchReference ← createBranchNode ssz path value leafPath leaf.value
    if commonPrefix.size ≠ 0 then
      putToStorage ssz (.extension ⟨commonPrefix, branchReference⟩)
    else return branchReference

def setExtension (setNode : Reference → Path → TrieM Reference) (value : Bytes)
    (extension_node : ExtensionNode) (path : Path) : TrieM Reference := do
  if path.startsWith extension_node.path then
    let path ← liftExcept (path.consume (toSizeT extension_node.path.size))
    let newReference ← setNode extension_node.nextRef path
    putToStorage ssz (.extension ⟨extension_node.path, newReference⟩)
  else
    let commonPrefix := path.commonPrefix extension_node.path
    let path ← liftExcept (path.consume (toSizeT commonPrefix.size))
    let extensionPath ← liftExcept (extension_node.path.consume (toSizeT commonPrefix.size))
    let branches := List.replicate branchesNum []
    let branchValue := if path.size = 0 then value else []
    let branches ← createBranchLeaf ssz path value branches
    let branches ← createBranchExtension ssz extensionPath extension_node.nextRef branches
    let branchReference ← putToStorage ssz (.branch ⟨branches, branchValue⟩)
    if commonPrefix.size ≠ 0 then
      putToStorage ssz (.extension ⟨commonPrefix, branchReference⟩)
    else return branchReference

def setBranch (setNode : Reference → Path → TrieM Reference) (value : Bytes)
    (branch_node : BranchNode) (path : Path) : TrieM Reference := do
  if path.size = 0 then
    putToStorage ssz (.branch ⟨branch_node.getBranches, value⟩)
  else
    let nibble ← liftExcept (path.nibbleAt 0)
    let path ← liftExcept (path.consume 1)
    let newReference ← setNode (branch_node.getBranches.getD nibble.toNat []) path
    let newBranches := branch_node.getBranches.set nibble.toNat newReference
    putToStorage ssz (.branch ⟨newBranches, branch_node.value⟩)

/-- `SetNode` -/
def setNode (value : Bytes) : Nat → Reference → Path → TrieM Reference
  | 0, _, _ => throw .outOfFuel
  | fuel + 1, node_ref, path => do
    if node_ref = [] then putToStorage ssz (.leaf ⟨path, value⟩)
    else
      match ← readNode ssz node_ref with
      | .leaf leaf => setLeaf ssz value leaf path
      | .extension extension_node => setExtension ssz (setNode value fuel) value extension_node path
      | .branch branch_node => setBranch ssz (setNode value fuel) value branch_node path

/-! ## DeleteHandler -/

inductive DeleteAction where
  | unknown
  | deleted
  | updated
  | uselessBranch
deriving DecidableEq

structure DeletionInfo where
  path : Path
  ref : Option Reference

structure DeleteResult where
  action : DeleteAction
  info : Option DeletionInfo

/-- `{DeleteAction::Updated, DeletionInfo{{}, ref}}` -/
def DeleteResult.updated (ref : Reference) : DeleteResult := ⟨.updated, some ⟨Path.empty, some ref⟩⟩

/-- `handleUselessBranch`; `ref` is the reference of `info`. -/
def handleUselessBranch (extension_node : ExtensionNode) (info : DeletionInfo) (ref : Reference) :
    TrieM DeleteResult := do
  match ← readNode ssz ref with
  | .leaf leaf_child =>
    let new_path ← liftExcept (extension_node.path.append leaf_child.path)
    return .updated (← putToStorage ssz (.leaf ⟨new_path, leaf_child.value⟩))
  | .extension extension_child =>
    let new_path ← liftExcept (extension_node.path.append extension_child.path)
    return .updated (← putToStorage ssz (.extension ⟨new_path, extension_child.nextRef⟩))
  | .branch _ =>
    let new_path ← liftExcept (extension_node.path.append info.path)
    return .updated (← putToStorage ssz (.extension ⟨new_path, ref⟩))

/-- `BuildNewNodeFromLastBranch` -/
def buildNewNodeFromLastBranch (branches : List Reference) : TrieM DeleteResult := do
  let it := branches.findIdx fun ref => ref ≠ []
  if it = branches.length then throw .noValidBranches
  let idx := UInt8.ofNat it
  let prefixNibble : Path := ⟨[idx], 1, by simp⟩
  let ref := branches.getD it []
  match ← readNode ssz ref with
  | .leaf leaf_child =>
    let path ← liftExcept (prefixNibble.append leaf_child.path)
    let ref ← putToStorage ssz (.leaf ⟨path, leaf_child.value⟩)
    return ⟨.uselessBranch, some ⟨path, some ref⟩⟩
  | .extension extension_child =>
    let path ← liftExcept (prefixNibble.append extension_child.path)
    let ref ← putToStorage ssz (.extension ⟨path, extension_child.nextRef⟩)
    return ⟨.uselessBranch, some ⟨path, some ref⟩⟩
  | .branch _ =>
    let ref ← putToStorage ssz (.extension ⟨prefixNibble, ref⟩)
    return ⟨.uselessBranch, some ⟨prefixNibble, some ref⟩⟩

/-- `HandleBranchDeletion`.  When a child was deleted, `branch_node` still holds it. -/
def handleBranchDeletion (branch_node : BranchNode) (idx : UInt8) : TrieM DeleteResult := do
  let branches := branch_node.getBranches
  let valid_branches := branches.countP fun ref => ref ≠ []
  if valid_branches = 0 ∧ branch_node.value = [] then return ⟨.deleted, none⟩
  else if valid_branches = 0 ∧ branch_node.value ≠ [] then
    let new_path := Path.empty
    let ref ← putToStorage ssz (.leaf ⟨new_path, branch_node.value⟩)
    return ⟨.uselessBranch, some ⟨new_path, some ref⟩⟩
  else if valid_branches = 1 ∧ branch_node.value = [] then
    buildNewNodeFromLastBranch ssz branches
  else
    let updated_branch ← liftExcept (branch_node.clearBranch idx)
    return .updated (← putToStorage ssz (.branch updated_branch))

/-- `HandleBranchDeleteResult` -/
def handleBranchDeleteResult (branch_node : BranchNode) (result : DeleteResult) (idx : UInt8) :
    TrieM DeleteResult := do
  match result.action with
  | .deleted => handleBranchDeletion ssz branch_node idx
  | .updated | .uselessBranch =>
    match result.info with
    | some ⟨_, some ref⟩ =>
      let updated_branch ← liftExcept (branch_node.setBranch idx ref)
      return .updated (← putToStorage ssz (.branch updated_branch))
    | _ => throw .invalidUpdateInfo
  | .unknown => throw .invalidAction

def deleteLeaf (leaf : LeafNode) (path : Path) : TrieM DeleteResult :=
  if path == leaf.path then return ⟨.deleted, none⟩ else throw .keyNotFound

def deleteExtension (deleteNode : Reference → Path → TrieM DeleteResult)
    (extension_node : ExtensionNode) (path : Path) : TrieM DeleteResult := do
  if ¬ path.startsWith extension_node.path then throw .keyNotFound
  let remaining_path ← liftExcept (path.consume (toSizeT extension_node.path.size))
  let result ← deleteNode extension_node.nextRef remaining_path
  match result.action with
  | .deleted => return ⟨.deleted, none⟩
  | .updated =>
    match result.info with
    | some ⟨_, some ref⟩ =>
      return .updated (← putToStorage ssz (.extension ⟨extension_node.path, ref⟩))
    | _ => throw .invalidUpdateInfo
  | .uselessBranch =>
    match result.info with
    | some ⟨p, some ref⟩ => handleUselessBranch ssz extension_node ⟨p, some ref⟩ ref
    | _ => throw .invalidUselessBranchInfo
  | .unknown => throw .invalidAction

/-- The branch case: the local `idx` is assigned only on the way into a child;
`junk` is what it holds otherwise. -/
def deleteBranch (deleteNode : Reference → Path → TrieM DeleteResult) (junk : UInt8)
    (branch_node : BranchNode) (path : Path) : TrieM DeleteResult := do
  if path.isEmpty ∧ branch_node.value = [] then throw .keyNotFound
  else if path.isEmpty ∧ branch_node.value ≠ [] then
    handleBranchDeleteResult ssz { branch_node with value := [] } ⟨.deleted, none⟩ junk
  else
    let idx ← liftExcept (path.nibbleAt 0)
    if branch_node.getBranches.getD idx.toNat [] = [] then throw .keyNotFound
    let remaining_path ← liftExcept (path.consume 1)
    let result ← deleteNode (branch_node.getBranches.getD idx.toNat []) remaining_path
    handleBranchDeleteResult ssz branch_node result idx

/-- `DeleteNode` -/
def deleteNode (junk : UInt8) : Nat → Reference → Path → TrieM DeleteResult
  | 0, _, _ => throw .outOfFuel
  | fuel + 1, node_ref, path => do
    match ← readNode ssz node_ref with
    | .leaf leaf => deleteLeaf leaf path
    | .extension extension_node => deleteExtension ssz (deleteNode junk fuel) extension_node path
    | .branch branch_node => deleteBranch ssz (deleteNode junk fuel) junk branch_node path

/-! ## The public operations -/

/-- `kMaxRawKeyLen` -/
def maxRawKeyLen : Nat := 32

def pathFromKey (key : Bytes) : Path :=
  if key.length > maxRawKeyLen then Path.ofBytes (basicHash key) else Path.ofBytes key

/-- One step more than the path has nibbles. -/
def walkFuel (path : Path) : Nat := path.size.toNat + 1

namespace MerklePatriciaTrie

def get (t : MerklePatriciaTrie) (key : Bytes) : Except Error Bytes :=
  if t.root = [] then .error .notInitialized
  else
    let path := pathFromKey key
    match getNode ssz t.storage (walkFuel path) t.root path with
    | .ok (some value) => .ok value
    | .ok none => .error .keyNotFound
    | .error e => .error e

def set (key value : Bytes) : EStateM Error MerklePatriciaTrie Unit := fun t =>
  let path := pathFromKey key
  match setNode ssz value (walkFuel path) t.root path t.storage with
  | .ok ref s => .ok () ⟨ref, s⟩
  | .error e s => .error e ⟨t.root, s⟩

/-- The switch of `remove` falls through from `Deleted` to the dereference. -/
def remove (junk : UInt8) (key : Bytes) : EStateM Error MerklePatriciaTrie Unit := fun t =>
  if t.root = [] then .ok () t
  else
    let path := pathFromKey key
    match deleteNode ssz junk (walkFuel path) t.root path t.storage with
    | .error e s => .error e ⟨t.root, s⟩
    | .ok ⟨.uselessBranch, _⟩ s => .error .removeError ⟨t.root, s⟩
    | .ok ⟨action, info⟩ s =>
      let root := if action = .deleted then [] else t.root
      match info with
      | some ⟨_, some ref⟩ => .ok () ⟨ref, s⟩
      | _ => .error .emptyOptional ⟨root, s⟩

end MerklePatriciaTrie

end Core.Mpt
