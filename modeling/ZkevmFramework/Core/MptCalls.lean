import ZkevmFramework.Core.MptState
import ZkevmFramework.Core.MptCommit
import ZkevmFramework.Lib.Machine

/-!
# The trie as a machine

`trie` answers `get`, `set` and `remove` calls in any order, failing ones
included; a call that C++ gives no meaning ends the run.  `trees` answers the
same calls on the tree alone: no bytes, no hashes, no storage.

    trie simulates trees, as long as no two stored encodings collide      (simulates_trees)

So a run from the empty trie is the run from the empty tree (`trie_refines`),
two states with the same root answer every further run alike
(`root_determines`), and what a root once spelled it spells for good
(`keeps_versions`).
-/

namespace Core.Mpt

open Nibble Patricia

variable {ssz : SszLib}

/-! ## The two machines -/

/-- A call on the trie; `junk` is what the uninitialised `idx` holds during it. -/
inductive Call where
  | get (key : Bytes)
  | set (key value : Bytes)
  | remove (key : Bytes) (junk : UInt8)

/-- What the caller sees; `get` answers bytes. -/
abbrev Answer := Except Error (Option Bytes)

/-- The call has no meaning in C++: an out of range access or an empty optional. -/
def Answer.undefined : Answer → Bool
  | .error .pastEnd | .error .consumePastEnd | .error .emptyOptional => true
  | _ => false

/-- The list limit of the values. -/
def Call.Fits : Call → Prop
  | .set _ value => value.length ≤ maxValueLen
  | _ => True

instance (c : Call) : Decidable c.Fits := by
  cases c <;> unfold Call.Fits <;> infer_instance

def returned : EStateM.Result Error MerklePatriciaTrie Unit → Answer × MerklePatriciaTrie
  | .ok () t => (.ok none, t)
  | .error e t => (.error e, t)

variable (ssz) in
def MerklePatriciaTrie.call : Call → MerklePatriciaTrie → Answer × MerklePatriciaTrie
  | .get key, t => ((t.get ssz key).map some, t)
  | .set key value, t => returned (t.set ssz key value)
  | .remove key junk, t => returned (t.remove ssz junk key)

variable (ssz) in
def trie : Machine Call Answer MerklePatriciaTrie where
  call := MerklePatriciaTrie.call ssz
  last := Answer.undefined

/-- The calls on a tree.  A deletion that leaves nothing, or a useless branch at
the root, is one that `remove` does not get through. -/
def callTree : Call → NodeTree → Answer × NodeTree
  | .get key, tr =>
    if tr.isEmpty then (.error .notInitialized, tr)
    else
      match tr.read (pathFromKey key).nibbles with
      | some value => (.ok (some value), tr)
      | none => (.error .keyNotFound, tr)
  | .set key value, tr => (.ok none, tr.insert (pathFromKey key).nibbles value)
  | .remove key junk, tr =>
    if tr.isEmpty then (.ok none, tr)
    else
      match erase (junkSlot junk) tr (pathFromKey key).nibbles with
      | .error e => (.error e, tr)
      | .ok .deleted => (.error .emptyOptional, .empty)
      | .ok (.updated tr') => (.ok none, tr')
      | .ok (.useless _) => (.error .removeError, tr)

def trees : Machine Call Answer NodeTree where
  call := callTree
  last := Answer.undefined

/-! ## A call on the trie is the call on its tree -/

theorem stateAfter_returned (x : EStateM.Result Error MerklePatriciaTrie Unit) :
    (returned x).2 = stateAfter x := by
  cases x <;> rfl

variable (ssz) in
theorem call_grows (c : Call) (t : MerklePatriciaTrie) :
    t.storage.Grows (t.call ssz c).2.storage := by
  cases c with
  | get key => exact .refl
  | set key value =>
    show t.storage.Grows (returned _).2.storage
    rw [stateAfter_returned]
    exact t.set_grows ssz key value
  | remove key junk =>
    show t.storage.Grows (returned _).2.storage
    rw [stateAfter_returned]
    exact t.remove_grows ssz junk key

namespace MerklePatriciaTrie

variable {t : MerklePatriciaTrie} {tr : NodeTree}

/-- The root and a later storage still hold the tree. -/
theorem Represents.later (h : t.Represents tr) {s : Storage} (hg : t.storage.Grows s)
    (hnc : NoCollision s.stored) : Represents ⟨t.root, s⟩ tr :=
  ⟨h.root, hg.sound h.sound hnc, hg.logged h.logged, h.fits⟩

/-- A cleared root holds nothing. -/
theorem Represents.cleared (h : t.Represents tr) : Represents ⟨[], t.storage⟩ .empty :=
  ⟨rfl, h.sound, trivial, trivial⟩

variable (ssz) in
theorem Represents.call_get (h : t.Represents tr) (key : Bytes) :
    t.call ssz (.get key) = ((callTree (.get key) tr).1, t) := by
  rw [call, h.get_eq ssz, callTree]
  by_cases he : tr.isEmpty
  · rw [if_pos he, if_pos he]
    rfl
  · rw [if_neg he, if_neg he]
    cases tr.read (pathFromKey key).nibbles <;> rfl

variable (ssz) in
theorem Represents.call_remove (h : t.Represents tr) (key : Bytes) (junk : UInt8)
    (hnc : NoCollision (t.call ssz (.remove key junk)).2.storage.stored) :
    (t.call ssz (.remove key junk)).1 = (callTree (.remove key junk) tr).1 ∧
      (t.call ssz (.remove key junk)).2.Represents (callTree (.remove key junk) tr).2 := by
  have hg := call_grows ssz (.remove key junk) t
  rw [call] at hnc hg ⊢
  rw [callTree]
  cases hne : tr.isEmpty with
  | true =>
    rw [h.remove_empty hne]
    exact ⟨rfl, h⟩
  | false =>
    have hr := h.remove_eq ssz hne junk key
    rw [if_neg Bool.false_ne_true]
    rcases he : erase (junkSlot junk) tr (pathFromKey key).nibbles with e | (_ | tr' | tr') <;>
      rw [he] at hr
    · rw [hr]
      exact ⟨rfl, h⟩
    · rw [hr]
      exact ⟨rfl, h.cleared⟩
    · obtain ⟨t', ht', -, hrep⟩ := hr
      rw [ht'] at hnc ⊢
      exact ⟨rfl, hrep hnc⟩
    · obtain ⟨s', hs'⟩ := hr
      rw [hs'] at hnc hg ⊢
      exact ⟨rfl, h.later hg hnc⟩

end MerklePatriciaTrie

variable (ssz) in
/-- **The trie simulates the tree.** -/
theorem simulates_trees : Machine.Simulates (trie ssz) trees Call.Fits
    (fun t => NoCollision t.storage.stored) MerklePatriciaTrie.Represents where
  last _ := rfl
  fine_of_call c t h := h.mono (call_grows ssz c t).subset
  call := by
    intro t tr h c hc hnc
    cases c with
    | get key =>
      rw [show (trie ssz).call (.get key) t = _ from h.call_get ssz key]
      refine ⟨rfl, ?_⟩
      show t.Represents (callTree (.get key) tr).2
      have hsame : (callTree (.get key) tr).2 = tr := by
        rw [callTree]
        split
        · rfl
        · split <;> rfl
      rwa [hsame]
    | set key value =>
      obtain ⟨t', ht', hrep⟩ := h.set_eq ssz key hc
      have hcall : (trie ssz).call (.set key value) t = (.ok none, t') := by
        show returned (t.set ssz key value) = _
        rw [ht']
        rfl
      rw [hcall] at hnc ⊢
      exact ⟨rfl, hrep hnc⟩
    | remove key junk => exact h.call_remove ssz key junk hnc

/-! ## Runs -/

variable (ssz) in
/-- The state after the calls on a new trie. -/
def reached (cs : List Call) : MerklePatriciaTrie := ((trie ssz).run cs .empty).2

variable (ssz) in
theorem run_grows (cs : List Call) (t : MerklePatriciaTrie) :
    t.storage.Grows ((trie ssz).run cs t).2.storage :=
  Machine.rel_run (r := fun t t' => t.storage.Grows t'.storage) (fun _ => .refl)
    (fun _ _ _ h h' => h.trans h') (call_grows ssz) cs t

theorem reached_answers {cs : List Call} (hc : ∀ c ∈ cs, c.Fits)
    (hnc : NoCollision (reached ssz cs).storage.stored) :
    ((trie ssz).run cs .empty).1 = (trees.run cs .empty).1 :=
  ((simulates_trees ssz).run MerklePatriciaTrie.represents_empty hc hnc).1

theorem reached_represents {cs : List Call} (hc : ∀ c ∈ cs, c.Fits)
    (hnc : NoCollision (reached ssz cs).storage.stored) :
    (reached ssz cs).Represents (trees.run cs .empty).2 :=
  ((simulates_trees ssz).run MerklePatriciaTrie.represents_empty hc hnc).2

/-- **Calls on the trie are calls on the tree.** -/
theorem trie_refines {cs : List Call} (hc : ∀ c ∈ cs, c.Fits)
    (hnc : NoCollision (reached ssz cs).storage.stored) :
    ((trie ssz).run cs .empty).1 = (trees.run cs .empty).1 ∧
      (reached ssz cs).Represents (trees.run cs .empty).2 :=
  ⟨reached_answers hc hnc, reached_represents hc hnc⟩

/-- Calls of every kind: `get` of a new trie, a `remove` of a missing key, and one
that throws at the root. -/
def everyCall : List Call :=
  [.get [0x11], .set [0x11] [1], .set [0x22] [2], .remove [0x33] 0, .remove [0x11] 0, .get [0x11],
    .remove [0x22] 0, .get [0x22]]

theorem trie_refines_every_call :
    ((trie .standard).run everyCall .empty).1 = (trees.run everyCall .empty).1 ∧
      (reached .standard everyCall).Represents (trees.run everyCall .empty).2 :=
  trie_refines (by decide) (by decide +kernel)

example : ((trie .standard).run everyCall .empty).1 =
    [.error .notInitialized, .ok none, .ok none, .error .keyNotFound, .ok none,
      .error .keyNotFound, .error .removeError, .ok (some [2])] := by decide +kernel

/-! ## What is answered -/

theorem fits_callTree {tr : NodeTree} (h : Fits tr maxPathLen) {c : Call} (hc : c.Fits) :
    Fits (callTree c tr).2 maxPathLen := by
  cases c with
  | get key =>
    simp only [callTree]
    split
    · exact h
    · split <;> exact h
  | set key value =>
    refine Tree.wf_insert ?_ h (length_pathFromKey key) hc
    exact Nat.zero_le _
  | remove key junk =>
    simp only [callTree]
    split
    · exact h
    · split
      · exact h
      · trivial
      · next he => exact (erase_ok h he).1
      · exact h

/-- What may come of the calls: of the exceptions only three, and two ways to
leave the language, of which an access past the end needs a large `idx`. -/
def Known (cs : List Call) : Answer → Prop
  | .ok _ => True
  | .error e => e = .notInitialized ∨ e = .keyNotFound ∨ e = .removeError ∨ e = .emptyOptional ∨
      (e = .pastEnd ∧ ∃ key junk, Call.remove key junk ∈ cs ∧ 16 ≤ junk.toNat)

theorem known_callTree {cs : List Call} {tr : NodeTree} (h : Fits tr maxPathLen) {c : Call}
    (hc : c ∈ cs) : Known cs (callTree c tr).1 := by
  cases c with
  | get key =>
    simp only [callTree]
    split
    · exact .inl rfl
    · split
      · trivial
      · exact .inr (.inl rfl)
  | set key value => trivial
  | remove key junk =>
    simp only [callTree]
    split
    · trivial
    · next hne =>
      split
      · next e he =>
        rcases (erase_error_iff _ h (by simpa using hne)).mp he with ⟨hk, -⟩ | ⟨hp, hj, -⟩
        · exact .inr (.inl hk)
        · refine .inr (.inr (.inr (.inr ⟨hp, key, junk, hc, ?_⟩)))
          by_contra hlt
          rw [junkSlot, dif_pos (by omega)] at hj
          cases hj
      · exact .inr (.inr (.inr (.inl rfl)))
      · trivial
      · exact .inr (.inr (.inl rfl))

/-- **The internal exceptions never surface**: no node is missing, unknown or
malformed, no update or useless branch lacks its reference. -/
theorem answers_known {cs : List Call} (hc : ∀ c ∈ cs, c.Fits)
    (hnc : NoCollision (reached ssz cs).storage.stored) :
    ∀ a ∈ ((trie ssz).run cs .empty).1, Known cs a := by
  have hcall : ∀ c ∈ cs, ∀ tr, Fits tr maxPathLen →
      Known cs (trees.call c tr).1 ∧ Fits (trees.call c tr).2 maxPathLen := by
    intro c hmem tr h
    exact ⟨known_callTree h hmem, fits_callTree h (hc c hmem)⟩
  rw [reached_answers hc hnc]
  exact Machine.answers_run hcall trivial

theorem answers_known_every_call : Known everyCall (.error .removeError) := by
  have hknown : ∀ a ∈ ((trie .standard).run everyCall .empty).1, Known everyCall a :=
    answers_known (by decide) (by decide +kernel)
  exact hknown _ (by decide +kernel)

/-! ## One root, one behaviour -/

/-- Without collisions states with one root stand for one tree. -/
theorem MerklePatriciaTrie.Represents.eq_of_root {t t' : MerklePatriciaTrie} {tr tr' : NodeTree}
    (h : t.Represents tr) (h' : t'.Represents tr')
    (hnc : NoCollision (t.storage.stored ++ t'.storage.stored)) (hroot : t.root = t'.root) :
    tr = tr' := by
  rw [h.root, h'.root] at hroot
  exact refOf_injective hnc (by decide) (by decide) h.fits h'.fits
    (h.logged.mono fun _ he => List.mem_append_left _ he)
    (h'.logged.mono fun _ he => List.mem_append_right _ he) hroot

theorem represents_of_root {cs cs' : List Call} (hc : ∀ c ∈ cs ++ cs', c.Fits)
    (hnc : NoCollision ((reached ssz cs).storage.stored ++ (reached ssz cs').storage.stored))
    (hroot : (reached ssz cs).root = (reached ssz cs').root) :
    ∃ tr, (reached ssz cs).Represents tr ∧ (reached ssz cs').Represents tr := by
  obtain ⟨hc, hc'⟩ := List.forall_mem_append.mp hc
  have hrep := reached_represents hc (hnc.mono (List.subset_append_left _ _))
  have hrep' := reached_represents hc' (hnc.mono (List.subset_append_right _ _))
  refine ⟨_, hrep, ?_⟩
  rwa [hrep.eq_of_root hrep' hnc hroot]

/-- **The root determines what every further call answers**, and the roots to come. -/
theorem root_determines {cs cs' ds : List Call} (hc : ∀ c ∈ cs ++ cs', c.Fits)
    (hd : ∀ c ∈ ds, c.Fits) (hroot : (reached ssz cs).root = (reached ssz cs').root)
    (hnc : NoCollision (((trie ssz).run ds (reached ssz cs)).2.storage.stored ++
      ((trie ssz).run ds (reached ssz cs')).2.storage.stored)) :
    ((trie ssz).run ds (reached ssz cs)).1 = ((trie ssz).run ds (reached ssz cs')).1 ∧
      ((trie ssz).run ds (reached ssz cs)).2.root =
        ((trie ssz).run ds (reached ssz cs')).2.root := by
  have hbefore : NoCollision
      ((reached ssz cs).storage.stored ++ (reached ssz cs').storage.stored) := by
    apply hnc.mono
    exact List.append_subset.mpr
      ⟨List.subset_append_of_subset_left _ (run_grows ssz ds _).subset,
        List.subset_append_of_subset_right _ (run_grows ssz ds _).subset⟩
  obtain ⟨tr, hrep, hrep'⟩ := represents_of_root hc hbefore hroot
  obtain ⟨ha, tr', ht, ht'⟩ := (simulates_trees ssz).agree hrep hrep' hd
    (hnc.mono (List.subset_append_left _ _)) (hnc.mono (List.subset_append_right _ _))
  exact ⟨ha, ht.root.trans ht'.root.symm⟩

/-- Two ways to the same root; then a key is removed and looked up. -/
theorem root_determines_reordered :
    let t := reached .standard [.set [0x11] [1], .set [0x22] [2]]
    let t' := reached .standard [.set [0x22] [2], .get [0x11], .set [0x11] [1]]
    let ds := [.remove [0x22] 0, .get [0x22]]
    ((trie .standard).run ds t).1 = ((trie .standard).run ds t').1 ∧
      ((trie .standard).run ds t).2.root = ((trie .standard).run ds t').2.root :=
  root_determines (by decide) (by decide) (by decide +kernel) (by decide +kernel)

/-- **What a root spells it spells for good**, whatever is called later. -/
theorem keeps_versions {cs ds : List Call} (hc : ∀ c ∈ cs, c.Fits)
    (hnc : NoCollision ((trie ssz).run ds (reached ssz cs)).2.storage.stored) {tr : NodeTree}
    (hs : Spells ssz (reached ssz cs).storage (reached ssz cs).root tr) :
    Spells ssz ((trie ssz).run ds (reached ssz cs)).2.storage (reached ssz cs).root tr := by
  have hg := run_grows ssz ds (reached ssz cs)
  have hrep := reached_represents hc (hnc.mono hg.subset)
  have hsame := hrep.spells.unique hs
  rw [hsame] at hrep
  exact (hrep.later hg hnc).spells

theorem keeps_versions_removed :
    ∃ tr, Spells .standard (reached .standard [.set [0x11] [1], .set [0x22] [2]]).storage
        (reached .standard [.set [0x11] [1], .set [0x22] [2]]).root tr ∧
      Spells .standard ((trie .standard).run [.set [0x11] [3], .remove [0x22] 0]
        (reached .standard [.set [0x11] [1], .set [0x22] [2]])).2.storage
        (reached .standard [.set [0x11] [1], .set [0x22] [2]]).root tr := by
  have hrep : (reached .standard [.set [0x11] [1], .set [0x22] [2]]).Represents
      (trees.run [.set [0x11] [1], .set [0x22] [2]] .empty).2 :=
    reached_represents (by decide) (by decide +kernel)
  exact ⟨_, hrep.spells, keeps_versions (by decide) (by decide +kernel) hrep.spells⟩

end Core.Mpt
