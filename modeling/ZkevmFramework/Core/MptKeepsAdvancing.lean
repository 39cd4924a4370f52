import ZkevmFramework.Core.MptAdvancing

/-!
# The handlers store advancing nodes

`Advances Q x`: from an advancing storage `x` leaves an advancing storage and,
unless it throws, a result with `Q`; it does not run out of fuel.  For a handler
that calls itself, `Alike s Q x y` compares the runs with two functions in place
of the recursive call, which agree on the place the handler calls it on.
-/

namespace Core.Mpt

open Nibble Patricia

variable {ssz : SszLib} {α β : Type}

/-- What a computation leaves. -/
inductive Tidy (ssz : SszLib) (Q : α → Prop) : EStateM.Result Error Storage α → Prop where
  | ok {a : α} {s : Storage} : s.Advancing ssz → Q a → Tidy ssz Q (.ok a s)
  | error {e : Error} {s : Storage} : s.Advancing ssz → e ≠ .outOfFuel → Tidy ssz Q (.error e s)

def Advances (ssz : SszLib) (Q : α → Prop) (x : TrieM α) : Prop :=
  ∀ s : Storage, s.Advancing ssz → Tidy ssz Q (x s)

def Alike (ssz : SszLib) (s : Storage) (Q : α → Prop) (x y : TrieM α) : Prop :=
  x s = y s ∧ Tidy ssz Q (x s)

variable {Q : α → Prop} {R : β → Prop} {s : Storage}

theorem advances_pure {a : α} (h : Q a) : Advances ssz Q (pure a) := fun _ hs => .ok hs h

theorem advances_throw {e : Error} (h : e ≠ .outOfFuel) : Advances ssz Q (throw e) :=
  fun _ hs => .error hs h

theorem advances_lift {x : Except Error α} (he : x ≠ .error .outOfFuel)
    (ha : ∀ a, x = .ok a → Q a) : Advances ssz Q (liftExcept x) := by
  intro s hs
  cases x with
  | ok a => exact .ok hs (ha a rfl)
  | error e => exact .error hs fun h => he (by rw [h])

theorem Tidy.bind {x : TrieM α} {f : α → TrieM β} (hx : Tidy ssz Q (x s))
    (hf : ∀ a, Q a → Advances ssz R (f a)) : Tidy ssz R ((x >>= f) s) := by
  cases hxs : x s with
  | ok a s' =>
    rw [hxs] at hx
    rw [bind_ok hxs]
    cases hx with
    | ok hs ha => exact hf a ha s' hs
  | error e s' =>
    rw [hxs] at hx
    rw [bind_error hxs]
    cases hx with
    | error hs he => exact .error hs he

theorem Advances.bind {x : TrieM α} {f : α → TrieM β} (hx : Advances ssz Q x)
    (hf : ∀ a, Q a → Advances ssz R (f a)) : Advances ssz R (x >>= f) :=
  fun s hs => (hx s hs).bind hf

/-- An early `throw` of the source. -/
theorem advances_throw_bind {e : Error} (h : e ≠ .outOfFuel) (f : α → TrieM β) :
    Advances ssz R ((throw e : TrieM α) >>= f) := fun _ hs => .error hs h

theorem Advances.alike {x : TrieM α} (h : Advances ssz Q x) (hs : s.Advancing ssz) :
    Alike ssz s Q x x := ⟨rfl, h s hs⟩

theorem Alike.bind {x y : TrieM α} {f : α → TrieM β} (h : Alike ssz s Q x y)
    (hf : ∀ a, Q a → Advances ssz R (f a)) : Alike ssz s R (x >>= f) (y >>= f) := by
  refine ⟨?_, h.2.bind hf⟩
  simp only [Bind.bind, EStateM.bind, h.1]

theorem alike_lift {x : Except Error α} {f g : α → TrieM β} (hs : s.Advancing ssz)
    (he : x ≠ .error .outOfFuel) (h : ∀ a, x = .ok a → Alike ssz s R (f a) (g a)) :
    Alike ssz s R (liftExcept x >>= f) (liftExcept x >>= g) := by
  cases x with
  | ok a => exact h a rfl
  | error e => exact ⟨rfl, .error hs fun h => he (by rw [h])⟩

/-! ## What does not run out of fuel -/

theorem bind_ne {x : Except Error α} {f : α → Except Error β} (hx : x ≠ .error .outOfFuel)
    (hf : ∀ a, f a ≠ .error .outOfFuel) : (x >>= f) ≠ .error .outOfFuel := by
  cases x with
  | ok a => exact hf a
  | error e =>
    intro h
    cases h
    exact hx rfl

theorem consume_ne {p : Path} {n : Nat} : p.consume n ≠ .error .outOfFuel := by
  unfold Path.consume
  split <;> simp

theorem nibbleAt_ne {p : Path} {n : Nat} : p.nibbleAt n ≠ .error .outOfFuel := by
  unfold Path.nibbleAt
  split_ifs <;> simp

theorem append_ne {p q : Path} : p.append q ≠ .error .outOfFuel := by
  unfold Path.append
  split
  · simp
  · dsimp only
    split <;> simp

theorem deserialize_ne {e : Bytes} : Path.deserialize e ≠ .error .outOfFuel := by
  unfold Path.deserialize
  split
  · simp
  · split <;> simp

theorem sszPart_ne {p : Path} : p.sszPart ≠ .error .outOfFuel := by
  by_cases h : 0 ≤ p.size
  · rw [sszPart_eq h]
    simp
  · rw [sszPart_of_neg (by omega)]
    simp

theorem encode_ne {n : Node} : n.encode ssz ≠ .error .outOfFuel := by
  cases n with
  | leaf n => exact bind_ne sszPart_ne fun _ => by simp
  | extension n => exact bind_ne sszPart_ne fun _ => by simp
  | branch n => simp [Node.encode, BranchNode.encode]

theorem deserializeTwo_ne {data : Bytes} : deserializeTwo ssz data ≠ .error .outOfFuel := by
  unfold deserializeTwo
  split <;> simp

theorem decodeNode_ne {e : Bytes} : decodeNode ssz e ≠ .error .outOfFuel := by
  unfold decodeNode
  split
  · simp
  · split_ifs
    · refine bind_ne deserializeTwo_ne fun ab => bind_ne deserialize_ne fun p => ?_
      split <;> simp
    · refine bind_ne deserializeTwo_ne fun ab => bind_ne deserialize_ne fun p => ?_
      split <;> simp
    · refine bind_ne deserializeTwo_ne fun ab => ?_
      dsimp only
      split
      · split <;> simp
      · simp
    · simp

theorem getFromStorage_ne {ref : Reference} : getFromStorage ssz s ref ≠ .error .outOfFuel := by
  unfold getFromStorage
  split
  · exact decodeNode_ne
  · split
    · simp
    · exact decodeNode_ne

/-! ## Storage -/

theorem advances_read {ref : Reference} (h : AdvancingRef ssz ref) :
    Advances ssz (Node.Advancing ssz) (readNode ssz ref) := by
  intro s hs
  have hl : Advances ssz (Node.Advancing ssz) (liftExcept (getFromStorage ssz s ref)) :=
    advances_lift getFromStorage_ne fun n hn => getFromStorage_advancing hs h hn
  exact hl s hs

theorem Storage.Advancing.put (hs : s.Advancing ssz) {e : Bytes} (he : Mpt.Advancing ssz e) :
    (s.put e).Advancing ssz := by
  constructor
  · intro ref e' h
    simp only [Storage.put, Function.update_apply] at h
    split at h
    · cases h; exact he
    · exact hs.nodes _ _ h
  · intro e' h
    rcases List.mem_cons.mp h with rfl | h
    · exact he
    · exact hs.stored _ h

theorem advances_put (hback : ssz.ReadsBack) {n : Node} (hn : n.Advancing ssz) :
    Advances ssz (AdvancingRef ssz) (putToStorage ssz n) := by
  apply (advances_lift encode_ne fun e he => advancing_encode hback hn he).bind
  intro e he
  split
  · next hlt => exact advances_pure ⟨by unfold maxRefLen; omega, fun _ => he⟩
  · intro s hs
    refine .ok (hs.put he) ⟨by rw [length_basicHash]; decide, fun hlt => ?_⟩
    rw [length_basicHash] at hlt
    exact absurd hlt (by decide)

/-! ## SetHandler -/

theorem consume_nibbles {p p' : Path} {n : Nat} (h : p.consume n = .ok p') :
    p'.nibbles = p.nibbles.drop n := by
  unfold Path.consume at h
  split at h <;> cases h
  simp [Path.nibbles, List.drop_drop]

theorem consume_keeps_small {p p' : Path} {n : Nat} (hp : p.Small) (h : p.consume n = .ok p') :
    p'.Small := by
  unfold Path.Small at hp ⊢
  rw [consume_nibbles h, List.length_drop]
  omega

theorem advances_consume {path : Path} (hp : path.Small) (n : Nat) :
    Advances ssz Path.Small (liftExcept (path.consume n)) :=
  advances_lift consume_ne fun _ hc => consume_keeps_small hp hc

theorem advances_nibble (path : Path) :
    Advances ssz (fun _ => True) (liftExcept (path.nibbleAt 0)) :=
  advances_lift nibbleAt_ne fun _ _ => trivial

theorem advances_leaf (hback : ssz.ReadsBack) (v : Bytes) {path : Path} (hp : path.Small) :
    Advances ssz (AdvancingRef ssz) (putToStorage ssz (.leaf ⟨path, v⟩)) :=
  advances_put hback hp

theorem advances_extension (hback : ssz.ReadsBack) {path : Path} (hp : path.Small)
    (hne : path.nibbles ≠ []) {ref : Reference} (hr : AdvancingRef ssz ref) :
    Advances ssz (AdvancingRef ssz) (putToStorage ssz (.extension ⟨path, ref⟩)) :=
  advances_put hback ⟨⟨hp, hne⟩, hr⟩

theorem advances_branch (hback : ssz.ReadsBack) {branches : List Reference}
    (hb : AdvancingSlots ssz branches) (v : Bytes) :
    Advances ssz (AdvancingRef ssz) (putToStorage ssz (.branch ⟨branches, v⟩)) :=
  advances_put hback hb

theorem advances_createBranchLeaf (hback : ssz.ReadsBack) {path : Path} (hp : path.Small)
    (v : Bytes) {branches : List Reference} (hb : AdvancingSlots ssz branches) :
    Advances ssz (AdvancingSlots ssz) (createBranchLeaf ssz path v branches) := by
  unfold createBranchLeaf
  split
  · refine (advances_nibble path).bind fun nibble _ => (advances_consume hp 1).bind fun p' hp' => ?_
    exact (advances_leaf hback v hp').bind fun ref hr => advances_pure (hb.set _ hr)
  · exact advances_pure hb

theorem advances_createBranchNode (hback : ssz.ReadsBack) {lhs rhs : Path} (hl : lhs.Small)
    (hr : rhs.Small) (v w : Bytes) :
    Advances ssz (AdvancingRef ssz) (createBranchNode ssz lhs v rhs w) := by
  unfold createBranchNode
  by_cases h : lhs.size = 0 ∧ rhs.size = 0
  · rw [if_pos h]
    exact advances_throw_bind (by decide) _
  · rw [if_neg h]
    refine (advances_createBranchLeaf hback hl v advancingSlots_replicate).bind fun b hb => ?_
    exact (advances_createBranchLeaf hback hr w hb).bind fun b' hb' => advances_branch hback hb' _

theorem advances_createBranchExtension (hback : ssz.ReadsBack) {path : Path} (hp : path.Small)
    {ref : Reference} (hr : AdvancingRef ssz ref) {branches : List Reference}
    (hb : AdvancingSlots ssz branches) :
    Advances ssz (AdvancingSlots ssz) (createBranchExtension ssz path ref branches) := by
  unfold createBranchExtension
  split
  · exact advances_throw (by decide)
  · next h0 =>
    split
    · exact (advances_nibble path).bind fun nibble _ => advances_pure (hb.set _ hr)
    · next h1 =>
      -- two nibbles at least, so one remains for the extension
      have hcons : Advances ssz (fun p' : Path => p'.Small ∧ p'.nibbles ≠ [])
          (liftExcept (path.consume 1)) := by
        apply advances_lift consume_ne
        intro p' hc
        refine ⟨consume_keeps_small hp hc, ?_⟩
        rw [Path.size_eq hp] at h0 h1
        rw [consume_nibbles hc, ← List.length_pos_iff, List.length_drop]
        omega
      refine (advances_nibble path).bind fun nibble _ => hcons.bind fun p' hp' => ?_
      exact (advances_extension hback hp'.1 hp'.2 hr).bind fun ref' hr' =>
        advances_pure (hb.set _ hr')

/-- The end of both splits. -/
theorem advances_wrap (hback : ssz.ReadsBack) {cp : Path} (hp : cp.Small) {ref : Reference}
    (hr : AdvancingRef ssz ref) :
    Advances ssz (AdvancingRef ssz)
      (if cp.size ≠ 0 then putToStorage ssz (.extension ⟨cp, ref⟩) else pure ref) := by
  split
  · next h =>
    have hne : cp.nibbles ≠ [] := fun hnil => h ((size_eq_zero_iff hp).mpr hnil)
    exact advances_extension hback hp hne hr
  · exact advances_pure hr

theorem advances_setLeaf (hback : ssz.ReadsBack) {leaf : LeafNode} (hl : leaf.path.Small)
    {path : Path} (hp : path.Small) (v : Bytes) :
    Advances ssz (AdvancingRef ssz) (setLeaf ssz v leaf path) := by
  have hcp := (commonPrefix_split hp hl).1
  unfold setLeaf
  split
  · exact advances_leaf hback v hp
  · refine (advances_consume hp _).bind fun p' hp' => (advances_consume hl _).bind fun l' hl' => ?_
    exact (advances_createBranchNode hback hp' hl' v leaf.value).bind fun ref hr =>
      advances_wrap hback hcp hr

/-! ## DeleteHandler -/

/-- The reference a deletion reports. -/
def DeleteResult.Advancing (ssz : SszLib) (result : DeleteResult) : Prop :=
  ∀ p ref, result.info = some ⟨p, some ref⟩ → p.Small ∧ AdvancingRef ssz ref

theorem advancing_deleted : DeleteResult.Advancing ssz ⟨.deleted, none⟩ := by
  intro p ref h
  cases h

theorem advancing_info {action : DeleteAction} {path : Path} (hp : path.Small) {ref : Reference}
    (hr : AdvancingRef ssz ref) : DeleteResult.Advancing ssz ⟨action, some ⟨path, some ref⟩⟩ := by
  intro p ref' h
  cases h
  exact ⟨hp, hr⟩

theorem small_empty : Path.empty.Small := by
  show 0 < 2 ^ 31
  decide

theorem advancing_updated {ref : Reference} (hr : AdvancingRef ssz ref) :
    (DeleteResult.updated ref).Advancing ssz :=
  advancing_info small_empty hr

/-- A path put behind a non-empty one. -/
theorem advances_append {p q : Path} (hp : p.Small) (hne : p.nibbles ≠ []) (hq : q.Small) :
    Advances ssz (fun r : Path => r.Small ∧ r.nibbles ≠ []) (liftExcept (p.append q)) := by
  apply advances_lift append_ne
  intro r hr
  by_cases hsum : p.nibbles.length + q.nibbles.length < 2 ^ 31
  · obtain ⟨r', hr', hn, hs⟩ := append_small hp hq hsum
    rw [hr] at hr'
    cases hr'
    refine ⟨hs, ?_⟩
    rw [hn]
    exact List.append_ne_nil_of_left_ne_nil hne _
  · rw [Path.append, if_pos (Or.inr (by rw [Path.size_eq hp, Path.size_eq hq]; omega))] at hr
    cases hr

theorem advances_handleUselessBranch (hback : ssz.ReadsBack) {n : ExtensionNode}
    (hn : (Node.extension n).Advancing ssz) {info : DeletionInfo} (hi : info.path.Small)
    {ref : Reference} (hr : AdvancingRef ssz ref) :
    Advances ssz (DeleteResult.Advancing ssz) (handleUselessBranch ssz n info ref) := by
  obtain ⟨⟨hsmall, hne⟩, -⟩ := hn
  apply (advances_read hr).bind
  intro child hchild
  cases child with
  | leaf c =>
    refine (advances_append hsmall hne hchild).bind fun p hp => ?_
    exact (advances_leaf hback c.value hp.1).bind fun ref' hr' =>
      advances_pure (advancing_updated hr')
  | extension c =>
    refine (advances_append hsmall hne hchild.1.1).bind fun p hp => ?_
    exact (advances_extension hback hp.1 hp.2 hchild.2).bind fun ref' hr' =>
      advances_pure (advancing_updated hr')
  | branch c =>
    refine (advances_append hsmall hne hi).bind fun p hp => ?_
    exact (advances_extension hback hp.1 hp.2 hr).bind fun ref' hr' =>
      advances_pure (advancing_updated hr')

/-- The path of one nibble has one, whatever the byte. -/
theorem length_prefixNibble (b : UInt8) (h : 1 ≤ 2 * [b].length) :
    (⟨[b], 1, h⟩ : Path).nibbles.length = 1 := by
  rw [Path.length_nibbles]
  rfl

theorem advances_buildNewNodeFromLastBranch (hback : ssz.ReadsBack) {branches : List Reference}
    (hb : AdvancingSlots ssz branches) :
    Advances ssz (DeleteResult.Advancing ssz) (buildNewNodeFromLastBranch ssz branches) := by
  unfold buildNewNodeFromLastBranch
  simp only []
  split
  · exact advances_throw_bind (by decide) _
  · have hr := hb.getD (branches.findIdx fun ref => ref ≠ [])
    have hlen := length_prefixNibble (UInt8.ofNat (branches.findIdx fun ref => ref ≠ []))
      (by simp)
    generalize Path.mk [UInt8.ofNat (branches.findIdx fun ref => ref ≠ [])] 1 _ = prefixNibble
      at hlen ⊢
    have hsmall : prefixNibble.Small := by
      rw [Path.Small, hlen]
      decide
    have hne : prefixNibble.nibbles ≠ [] := by
      rw [← List.length_pos_iff, hlen]
      decide
    apply (advances_read hr).bind
    intro child hchild
    cases child with
    | leaf c =>
      refine (advances_append hsmall hne hchild).bind fun p hp => ?_
      exact (advances_leaf hback c.value hp.1).bind fun ref hr' =>
        advances_pure (advancing_info hp.1 hr')
    | extension c =>
      refine (advances_append hsmall hne hchild.1.1).bind fun p hp => ?_
      exact (advances_extension hback hp.1 hp.2 hchild.2).bind fun ref hr' =>
        advances_pure (advancing_info hp.1 hr')
    | branch c =>
      exact (advances_extension hback hsmall hne hr).bind fun ref hr' =>
        advances_pure (advancing_info hsmall hr')

theorem clearBranch_slots {n n' : BranchNode} (hn : AdvancingSlots ssz n.branches) {idx : UInt8}
    (h : n.clearBranch idx = .ok n') : AdvancingSlots ssz n'.branches := by
  unfold BranchNode.clearBranch at h
  split at h <;> cases h
  exact hn.set _ advancingRef_nil

theorem setBranch_slots {n n' : BranchNode} (hn : AdvancingSlots ssz n.branches) {idx : UInt8}
    {ref : Reference} (hr : AdvancingRef ssz ref) (h : n.setBranch idx ref = .ok n') :
    AdvancingSlots ssz n'.branches := by
  unfold BranchNode.setBranch at h
  split at h <;> cases h
  exact hn.set _ hr

theorem clearBranch_ne {n : BranchNode} {idx : UInt8} :
    n.clearBranch idx ≠ .error .outOfFuel := by
  unfold BranchNode.clearBranch
  split <;> simp

theorem setBranch_ne {n : BranchNode} {idx : UInt8} {ref : Reference} :
    n.setBranch idx ref ≠ .error .outOfFuel := by
  unfold BranchNode.setBranch
  split <;> simp

theorem advances_handleBranchDeletion (hback : ssz.ReadsBack) {n : BranchNode}
    (hn : AdvancingSlots ssz n.branches) (idx : UInt8) :
    Advances ssz (DeleteResult.Advancing ssz) (handleBranchDeletion ssz n idx) := by
  unfold handleBranchDeletion
  simp only []
  split
  · exact advances_pure advancing_deleted
  · split
    · exact (advances_leaf hback n.value small_empty).bind fun ref hr =>
        advances_pure (advancing_info small_empty hr)
    · split
      · exact advances_buildNewNodeFromLastBranch hback hn.getBranches
      · have hclear : Advances ssz (fun n' : BranchNode => AdvancingSlots ssz n'.branches)
            (liftExcept (n.clearBranch idx)) :=
          advances_lift clearBranch_ne fun _ hc => clearBranch_slots hn hc
        exact hclear.bind fun n' hn' => (advances_branch hback hn' n'.value).bind fun ref hr =>
          advances_pure (advancing_updated hr)

theorem advances_handleBranchDeleteResult (hback : ssz.ReadsBack) {n : BranchNode}
    (hn : AdvancingSlots ssz n.branches) {result : DeleteResult} (hres : result.Advancing ssz)
    (idx : UInt8) :
    Advances ssz (DeleteResult.Advancing ssz) (handleBranchDeleteResult ssz n result idx) := by
  unfold handleBranchDeleteResult
  have hset : ∀ ref, AdvancingRef ssz ref → Advances ssz (DeleteResult.Advancing ssz) (do
      let updated_branch ← liftExcept (n.setBranch idx ref)
      return DeleteResult.updated (← putToStorage ssz (.branch updated_branch))) := by
    intro ref hr
    have hlift : Advances ssz (fun n' : BranchNode => AdvancingSlots ssz n'.branches)
        (liftExcept (n.setBranch idx ref)) :=
      advances_lift setBranch_ne fun _ hc => setBranch_slots hn hr hc
    exact hlift.bind fun n' hn' => (advances_branch hback hn' n'.value).bind fun ref hr =>
      advances_pure (advancing_updated hr)
  rcases result with ⟨_ | _ | _ | _, _ | ⟨p, _ | ref⟩⟩
  all_goals first
    | exact advances_throw (by decide)
    | exact advances_handleBranchDeletion hback hn idx
    | exact hset _ (hres _ _ rfl).2

end Core.Mpt
