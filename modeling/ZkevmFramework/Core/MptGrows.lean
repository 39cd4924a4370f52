import ZkevmFramework.Core.MptRefs

/-!
# The storage only grows

Whatever the state and the outcome, `SetNode` and `DeleteNode` change `nodes_`
through `PutToStorage` alone.  So what a run has stored at some point is among
what it has stored at the end.
-/

namespace Core.Mpt

variable {ssz : SszLib} {α β : Type}

/-- The state a call leaves, also when it throws. -/
def stateAfter {ε σ α : Type} : EStateM.Result ε σ α → σ
  | .ok _ s => s
  | .error _ s => s

/-- The computation changes the storage by storing only. -/
def Stores (x : TrieM α) : Prop := ∀ s : Storage, s.Grows (stateAfter (x s))

theorem stores_pure (a : α) : Stores (pure a : TrieM α) := fun _ => .refl

theorem stores_throw (e : Error) : Stores (throw e : TrieM α) := fun _ => .refl

theorem stores_lift (x : Except Error α) : Stores (liftExcept x) := by
  intro s
  cases x <;> exact .refl

theorem stores_read (ref : Reference) : Stores (readNode ssz ref) := by
  intro s
  exact stores_lift (getFromStorage ssz s ref) s

theorem Stores.bind {x : TrieM α} {f : α → TrieM β} (hx : Stores x) (hf : ∀ a, Stores (f a)) :
    Stores (x >>= f) := by
  intro s
  have h := hx s
  show s.Grows (stateAfter (EStateM.bind x f s))
  unfold EStateM.bind
  cases hxs : x s with
  | error e s' => rwa [hxs] at h
  | ok a s' =>
    rw [hxs] at h
    exact h.trans (hf a s')

theorem stores_throw_bind (e : Error) (f : α → TrieM β) : Stores ((throw e : TrieM α) >>= f) :=
  fun _ => .refl

theorem stores_put (n : Node) : Stores (putToStorage ssz n) := by
  apply (stores_lift _).bind
  intro encoded
  split
  · exact stores_pure _
  · intro s
    exact .put encoded .refl

/-! ## SetHandler -/

theorem stores_createBranchLeaf (path : Path) (v : Bytes) (branches : List Reference) :
    Stores (createBranchLeaf ssz path v branches) := by
  unfold createBranchLeaf
  split
  · exact (stores_lift _).bind fun _ => (stores_lift _).bind fun _ =>
      (stores_put _).bind fun _ => stores_pure _
  · exact stores_pure _

theorem stores_createBranchNode (lhs rhs : Path) (v w : Bytes) :
    Stores (createBranchNode ssz lhs v rhs w) := by
  unfold createBranchNode
  by_cases h : lhs.size = 0 ∧ rhs.size = 0
  · rw [if_pos h]
    exact stores_throw_bind _ _
  · rw [if_neg h]
    exact (stores_createBranchLeaf _ _ _).bind fun _ =>
      (stores_createBranchLeaf _ _ _).bind fun _ => stores_put _

theorem stores_createBranchExtension (path : Path) (ref : Reference) (branches : List Reference) :
    Stores (createBranchExtension ssz path ref branches) := by
  unfold createBranchExtension
  split
  · exact stores_throw _
  · split
    · exact (stores_lift _).bind fun _ => stores_pure _
    · exact (stores_lift _).bind fun _ => (stores_lift _).bind fun _ =>
        (stores_put _).bind fun _ => stores_pure _

/-- The end of both splits. -/
theorem stores_wrap (cp : Path) (ref : Reference) :
    Stores (if cp.size ≠ 0 then putToStorage ssz (.extension ⟨cp, ref⟩) else pure ref) := by
  split
  · exact stores_put _
  · exact stores_pure _

theorem stores_setLeaf (v : Bytes) (leaf : LeafNode) (path : Path) :
    Stores (setLeaf ssz v leaf path) := by
  unfold setLeaf
  split
  · exact stores_put _
  · exact (stores_lift _).bind fun _ => (stores_lift _).bind fun _ =>
      (stores_createBranchNode _ _ _ _).bind fun _ => stores_wrap _ _

theorem stores_setExtension {rec : Reference → Path → TrieM Reference}
    (hrec : ∀ ref path, Stores (rec ref path)) (v : Bytes) (n : ExtensionNode) (path : Path) :
    Stores (setExtension ssz rec v n path) := by
  unfold setExtension
  split
  · exact (stores_lift _).bind fun _ => (hrec _ _).bind fun _ => stores_put _
  · exact (stores_lift _).bind fun _ => (stores_lift _).bind fun _ =>
      (stores_createBranchLeaf _ _ _).bind fun _ =>
      (stores_createBranchExtension _ _ _).bind fun _ => (stores_put _).bind fun _ => stores_wrap _ _

theorem stores_setBranch {rec : Reference → Path → TrieM Reference}
    (hrec : ∀ ref path, Stores (rec ref path)) (v : Bytes) (n : BranchNode) (path : Path) :
    Stores (setBranch ssz rec v n path) := by
  unfold setBranch
  split
  · exact stores_put _
  · exact (stores_lift _).bind fun _ => (stores_lift _).bind fun _ =>
      (hrec _ _).bind fun _ => stores_put _

theorem stores_setNode (v : Bytes) (fuel : Nat) (ref : Reference) (path : Path) :
    Stores (setNode ssz v fuel ref path) := by
  induction fuel generalizing ref path with
  | zero => exact stores_throw _
  | succ fuel ih =>
    rw [setNode]
    split
    · exact stores_put _
    · apply (stores_read _).bind
      intro n
      cases n with
      | leaf n => exact stores_setLeaf v n path
      | extension n => exact stores_setExtension ih v n path
      | branch n => exact stores_setBranch ih v n path

/-! ## DeleteHandler -/

theorem stores_handleUselessBranch (n : ExtensionNode) (info : DeletionInfo) (ref : Reference) :
    Stores (handleUselessBranch ssz n info ref) := by
  apply (stores_read _).bind
  intro child
  cases child <;>
    exact (stores_lift _).bind fun _ => (stores_put _).bind fun _ => stores_pure _

theorem stores_buildNewNodeFromLastBranch (branches : List Reference) :
    Stores (buildNewNodeFromLastBranch ssz branches) := by
  unfold buildNewNodeFromLastBranch
  simp only []
  split
  · exact stores_throw_bind _ _
  · apply (stores_read _).bind
    intro child
    cases child with
    | branch n => exact (stores_put _).bind fun _ => stores_pure _
    | _ => exact (stores_lift _).bind fun _ => (stores_put _).bind fun _ => stores_pure _

theorem stores_handleBranchDeletion (n : BranchNode) (idx : UInt8) :
    Stores (handleBranchDeletion ssz n idx) := by
  unfold handleBranchDeletion
  simp only []
  split
  · exact stores_pure _
  · split
    · exact (stores_put _).bind fun _ => stores_pure _
    · split
      · exact stores_buildNewNodeFromLastBranch _
      · exact (stores_lift _).bind fun _ => (stores_put _).bind fun _ => stores_pure _

theorem stores_handleBranchDeleteResult (n : BranchNode) (result : DeleteResult) (idx : UInt8) :
    Stores (handleBranchDeleteResult ssz n result idx) := by
  unfold handleBranchDeleteResult
  have hset : ∀ ref, Stores (do
      let updated_branch ← liftExcept (n.setBranch idx ref)
      return DeleteResult.updated (← putToStorage ssz (.branch updated_branch))) := fun ref =>
    (stores_lift _).bind fun _ => (stores_put _).bind fun _ => stores_pure _
  rcases result with ⟨_ | _ | _ | _, _ | ⟨p, _ | ref⟩⟩
  all_goals first
    | exact stores_throw _
    | exact stores_handleBranchDeletion n idx
    | exact hset _

theorem stores_deleteExtension {rec : Reference → Path → TrieM DeleteResult}
    (hrec : ∀ ref path, Stores (rec ref path)) (n : ExtensionNode) (path : Path) :
    Stores (deleteExtension ssz rec n path) := by
  unfold deleteExtension
  split
  · exact stores_throw_bind _ _
  · refine (stores_lift _).bind fun _ => (hrec _ _).bind fun result => ?_
    rcases result with ⟨_ | _ | _ | _, _ | ⟨p, _ | ref⟩⟩
    all_goals first
      | exact stores_throw _
      | exact stores_pure _
      | exact stores_handleUselessBranch n _ _
      | exact (stores_put _).bind fun _ => stores_pure _

theorem stores_deleteBranch {rec : Reference → Path → TrieM DeleteResult}
    (hrec : ∀ ref path, Stores (rec ref path)) (junk : UInt8) (n : BranchNode) (path : Path) :
    Stores (deleteBranch ssz rec junk n path) := by
  unfold deleteBranch
  split
  · exact stores_throw _
  · split
    · exact stores_handleBranchDeleteResult _ _ _
    · apply (stores_lift _).bind
      intro idx
      split
      · exact stores_throw_bind _ _
      · exact (stores_lift _).bind fun _ =>
          (hrec _ _).bind fun _ => stores_handleBranchDeleteResult _ _ _

theorem stores_deleteNode (junk : UInt8) (fuel : Nat) (ref : Reference) (path : Path) :
    Stores (deleteNode ssz junk fuel ref path) := by
  induction fuel generalizing ref path with
  | zero => exact stores_throw _
  | succ fuel ih =>
    rw [deleteNode]
    apply (stores_read _).bind
    intro n
    cases n with
    | leaf n =>
      show Stores (deleteLeaf n path)
      unfold deleteLeaf
      split
      · exact stores_pure _
      · exact stores_throw _
    | extension n => exact stores_deleteExtension ih n path
    | branch n => exact stores_deleteBranch ih junk n path

/-! ## The public operations -/

namespace MerklePatriciaTrie

variable (ssz) in
theorem set_grows (t : MerklePatriciaTrie) (key value : Bytes) :
    t.storage.Grows (stateAfter (set ssz key value t)).storage := by
  have hx : Stores (setNode ssz value (walkFuel (pathFromKey key)) t.root (pathFromKey key)) :=
    stores_setNode _ _ _ _
  have h := hx t.storage
  simp only [set]
  split <;> simp_all only [stateAfter]

variable (ssz) in
theorem remove_grows (t : MerklePatriciaTrie) (junk : UInt8) (key : Bytes) :
    t.storage.Grows (stateAfter (remove ssz junk key t)).storage := by
  have hx : Stores (deleteNode ssz junk (walkFuel (pathFromKey key)) t.root (pathFromKey key)) :=
    stores_deleteNode _ _ _ _
  have h := hx t.storage
  simp only [remove]
  split
  · exact .refl
  · split
    · simp_all only [stateAfter]
    · simp_all only [stateAfter]
    · next hx =>
      rw [hx] at h
      split <;> exact h

theorem remove_ok_grows {t t' : MerklePatriciaTrie} {junk : UInt8} {key : Bytes}
    (h : t.remove ssz junk key = .ok () t') : t.storage.Grows t'.storage := by
  have hg := t.remove_grows ssz junk key
  rwa [h] at hg

end MerklePatriciaTrie

end Core.Mpt
