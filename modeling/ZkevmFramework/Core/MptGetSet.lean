import ZkevmFramework.Core.MptRefs

/-!
# `get` and `set` refine the tree operations

On a storage that holds a tree, `GetNode` answers `Tree.read` and `SetNode`
returns the reference of `Tree.insert`; one step more than the path has nibbles
is enough fuel.
-/

namespace Core.Mpt

open Nibble Patricia

variable {ssz : SszLib}

/-! ## Running the handlers -/

theorem bind_ok {α β : Type} {x : TrieM α} {f : α → TrieM β} {s s' : Storage} {a : α}
    (h : x s = .ok a s') : (x >>= f) s = f a s' := by
  simp only [bind, EStateM.bind, h]

theorem bind_error {α β : Type} {x : TrieM α} {f : α → TrieM β} {s s' : Storage} {e : Error}
    (h : x s = .error e s') : (x >>= f) s = .error e s' := by
  simp only [bind, EStateM.bind, h]

theorem liftExcept_ok {α : Type} {x : Except Error α} {a : α} (h : x = .ok a) (s : Storage) :
    liftExcept x s = .ok a s := by
  rw [h]
  rfl

theorem readNode_ok {s : Storage} {ref : Reference} {n : Node}
    (h : getFromStorage ssz s ref = .ok n) : readNode ssz ref s = .ok n s := by
  show liftExcept (getFromStorage ssz s ref) s = _
  exact liftExcept_ok h s

/-! ## The storage holds a tree -/

/-- Every long encoding below the tree is found under its hash. -/
def Holds (s : Storage) (t : NodeTree) : Prop :=
  Kept (fun e => s.nodes (basicHash e) = some e) t

theorem Storage.Sound.holds {s : Storage} (hs : s.Sound) {t : NodeTree} (ht : Logged s t) :
    Holds s t :=
  Kept.mono (fun e he => hs e he) ht

theorem small_of_le {path : Path} {p : List (Fin 16)} {d : Nat} (hd : d < 2 ^ 31)
    (h : path.nibbles = p) (hp : p.length ≤ d) : path.Small := by
  rw [Path.Small, h]
  omega

theorem getBranches_ofFn (f : Fin 16 → Reference) (v : Bytes) :
    (BranchNode.mk (List.ofFn f) v).getBranches = List.ofFn f := by
  apply List.ext_getElem
  · simp [BranchNode.getBranches, branchesNum]
  · intro i h1 h2
    simp only [List.length_ofFn] at h2
    simp [BranchNode.getBranches, h2]

theorem getD_ofFn (f : Fin 16 → Reference) (i : Fin 16) :
    (List.ofFn f).getD (toByte i).toNat [] = f i := by
  have hi : i.val < (List.ofFn f).length := by rw [List.length_ofFn]; exact i.isLt
  rw [toNat_toByte, List.getD_eq_getElem?_getD, List.getElem?_eq_getElem hi, List.getElem_ofFn]
  rfl

theorem set_ofFn (cs : Fin 16 → NodeTree) (i : Fin 16) (t : NodeTree) :
    (List.ofFn fun j => refOf (cs j)).set (toByte i).toNat (refOf t) =
      List.ofFn fun j => refOf (Function.update cs i t j) := by
  rw [toNat_toByte]
  apply List.ext_getElem
  · simp
  · intro j h1 h2
    simp only [List.length_ofFn] at h2
    rw [List.getElem_set, List.getElem_ofFn, List.getElem_ofFn]
    by_cases hij : (⟨j, h2⟩ : Fin 16) = i
    · subst hij
      simp
    · rw [Function.update_of_ne hij, if_neg (fun h => hij (Fin.ext h.symm))]

theorem logged_update {s : Storage} {cs : Fin 16 → NodeTree} (hcs : ∀ j, Logged s (cs j))
    {t : NodeTree} (ht : Logged s t) (i : Fin 16) (j : Fin 16) :
    Logged s (Function.update cs i t j) := by
  by_cases hj : j = i
  · subst hj; rwa [Function.update_self]
  · rw [Function.update_of_ne hj]; exact hcs j

/-! ## Small paths -/

theorem size_eq_zero_iff {path : Path} (hp : path.Small) : path.size = 0 ↔ path.nibbles = [] := by
  rw [Path.size_eq hp, Int.natCast_eq_zero, List.length_eq_zero_iff]

theorem size_pos_iff {path : Path} (hp : path.Small) : path.size > 0 ↔ path.nibbles ≠ [] := by
  rw [Path.size_eq hp, ← List.length_pos_iff]
  omega

theorem consume_small {path : Path} (hp : path.Small) {n : Nat} (h : n ≤ path.nibbles.length) :
    ∃ p', path.consume n = .ok p' ∧ p'.nibbles = path.nibbles.drop n ∧ p'.Small := by
  obtain ⟨p', hc, hn⟩ := Path.consume_ok h
  refine ⟨p', hc, hn, ?_⟩
  unfold Path.Small at hp ⊢
  rw [hn, List.length_drop]
  omega

theorem consume_one {path : Path} (hp : path.Small) {i : Fin 16} {q : List (Fin 16)}
    (h : path.nibbles = i :: q) : ∃ p', path.consume 1 = .ok p' ∧ p'.nibbles = q ∧ p'.Small := by
  obtain ⟨p', hc, hn, hs⟩ := consume_small hp (n := 1) (by rw [h]; simp)
  exact ⟨p', hc, by rw [hn, h]; rfl, hs⟩

theorem toSizeT_size {path : Path} (hp : path.Small) : toSizeT path.size = path.nibbles.length := by
  rw [Path.toSizeT_of_nonneg (by rw [Path.size_eq hp]; omega) path.size_lt, Path.size_eq hp]
  exact Int.toNat_natCast _

/-! ## GetNode -/

theorem getLeaf_eq {lp path : Path} (hl : lp.Small) (hp : path.Small) (v : Bytes) :
    getLeaf ⟨lp, v⟩ path = (Tree.leaf lp.nibbles v).read path.nibbles := by
  have hbeq := Path.beq_iff_nibbles hl hp
  unfold getLeaf
  rw [Tree.read, Tree.find]
  by_cases h : lp.nibbles = path.nibbles
  · rw [if_pos (hbeq.mpr h), if_pos h]
  · rw [if_neg (fun hb => h (hbeq.mp hb)), if_neg h]

theorem getExtension_eq {rec : Reference → Path → Except Error (Option Bytes)} {ep path : Path}
    (he : ep.Small) (hp : path.Small) {c : NodeTree}
    (hrec : ep.nibbles <+: path.nibbles → ∀ path' : Path, path'.Small →
      path'.nibbles = path.nibbles.drop ep.nibbles.length →
        rec (refOf c) path' = .ok (c.read path'.nibbles)) :
    getExtension rec ⟨ep, refOf c⟩ path = .ok ((Tree.ext ep.nibbles c).read path.nibbles) := by
  have hstart := Path.startsWith_iff hp he
  unfold getExtension
  rw [Tree.read, Tree.find]
  by_cases h : ep.nibbles <+: path.nibbles
  · have hle := h.length_le
    have hguard : path.size ≥ ep.size ∧ path.startsWith ep = true := by
      rw [Path.size_eq hp, Path.size_eq he]
      exact ⟨by omega, hstart.mpr h⟩
    obtain ⟨path', hcons, hnib, hp'⟩ := consume_small hp hle
    rw [if_pos hguard, if_pos h, toSizeT_size he, hcons]
    show rec (refOf c) path' = _
    rw [hrec h path' hp' hnib, hnib]
    rfl
  · rw [if_neg (fun hg => h (hstart.mp hg.2)), if_neg h]
    rfl

theorem getBranch_eq {rec : Reference → Path → Except Error (Option Bytes)} {path : Path}
    (hp : path.Small) {cs : Fin 16 → NodeTree} {v : Bytes}
    (hrec : ∀ i q, path.nibbles = i :: q → (cs i).isEmpty = false → ∀ path' : Path, path'.Small →
      path'.nibbles = q → rec (refOf (cs i)) path' = .ok ((cs i).read q)) :
    getBranch rec ⟨List.ofFn fun i => refOf (cs i), v⟩ path =
      .ok ((Tree.branch cs v).read path.nibbles) := by
  unfold getBranch
  cases hn : path.nibbles with
  | nil =>
    rw [if_pos ((Path.isEmpty_iff hp).mpr hn)]
    rfl
  | cons i q =>
    have hemp : ¬ path.isEmpty = true := by
      rw [Path.isEmpty_iff hp, hn]
      simp
    obtain ⟨path', hcons, hnib, hp'⟩ := consume_one hp hn
    rw [if_neg hemp, Path.nibbleAt_cons hp hn]
    simp only [bind, Except.bind, pure, Except.pure, getBranches_ofFn, getD_ofFn]
    cases hi : (cs i).isEmpty with
    | true =>
      rw [if_neg (by rw [(Tree.isEmpty_iff _).mp hi]; simp [refOf])]
      show _ = Except.ok ((cs i).read q)
      rw [(Tree.isEmpty_iff _).mp hi]
      rfl
    | false =>
      have hne : refOf (cs i) ≠ [] := by
        rw [Ne, refOf_eq_nil_iff, ← Tree.isEmpty_iff, hi]
        simp
      rw [if_pos hne, hcons]
      exact hrec i q hn hi path' hp' hnib

variable (ssz) in
/-- **`GetNode` reads the tree.** -/
theorem getNode_eq {t : NodeTree} {d : Nat} (hd : d < 2 ^ 31) (hw : Fits t d)
    (hne : t.isEmpty = false) {s : Storage} (hh : Holds s t) {path : Path} (hp : path.Small)
    {fuel : Nat} (hf : path.nibbles.length < fuel) :
    getNode ssz s fuel (refOf t) path = .ok (t.read path.nibbles) := by
  induction t generalizing d path fuel with
  | empty => simp at hne
  | leaf p v =>
    obtain ⟨fuel, rfl⟩ : ∃ n, fuel = n + 1 := ⟨fuel - 1, by omega⟩
    obtain ⟨lp, hread, rfl⟩ := read_leaf ssz hh (by have := hw.1; omega) hw.2
    rw [getNode, hread]
    show Except.ok (getLeaf ⟨lp, v⟩ path) = _
    rw [getLeaf_eq (small_of_le hd rfl hw.1) hp]
  | ext p c ih =>
    obtain ⟨hpne, hpd, hb, hc⟩ := hw
    obtain ⟨fuel, rfl⟩ : ∃ n, fuel = n + 1 := ⟨fuel - 1, by omega⟩
    obtain ⟨ep, hread, rfl⟩ := read_ext ssz hh.1 (by omega)
    have hpos : 0 < ep.nibbles.length := List.length_pos_iff.mpr hpne
    have hcne : c.isEmpty = false := by
      obtain ⟨cs, v, rfl⟩ := (Tree.isBranch_iff c).mp hb
      rfl
    rw [getNode, hread]
    show getExtension (getNode ssz s fuel) ⟨ep, refOf c⟩ path = _
    apply getExtension_eq (small_of_le hd rfl hpd) hp
    intro hpre path' hp' hnib
    have hlen := congrArg List.length hnib
    have hle := hpre.length_le
    rw [List.length_drop] at hlen
    exact ih (by omega) hc hcne hh.2 hp' (by omega)
  | branch cs v ih =>
    obtain ⟨fuel, rfl⟩ : ∃ n, fuel = n + 1 := ⟨fuel - 1, by omega⟩
    rw [getNode, read_branch ssz hh.1 hw.1]
    show getBranch (getNode ssz s fuel) ⟨_, v⟩ path = _
    apply getBranch_eq hp
    intro i q hn hi path' hp' hnib
    have hlen := congrArg List.length hn
    rw [List.length_cons] at hlen
    have hfuel : path'.nibbles.length < fuel := by rw [hnib]; omega
    rw [← hnib]
    exact ih i (by omega) (hw.2 i hi).2 hi (hh.2 i) hp' hfuel

/-! ## Computations that build a tree -/

/-- The computation returns the reference of `t` and leaves all of `t` stored. -/
def Builds (x : TrieM Reference) (s : Storage) (t : NodeTree) : Prop :=
  ∃ s', x s = .ok (refOf t) s' ∧ s.Grows s' ∧ Logged s' t

/-- The same for the slots of a branch. -/
def BuildsSlots (x : TrieM (List Reference)) (s : Storage) (cs : Fin 16 → NodeTree) : Prop :=
  ∃ s', x s = .ok (List.ofFn fun i => refOf (cs i)) s' ∧ s.Grows s' ∧ ∀ i, Logged s' (cs i)

theorem Builds.pure {s : Storage} {t : NodeTree} (h : Logged s t) : Builds (pure (refOf t)) s t :=
  ⟨s, rfl, .refl, h⟩

theorem BuildsSlots.pure {s : Storage} {cs : Fin 16 → NodeTree} (h : ∀ i, Logged s (cs i)) :
    BuildsSlots (pure (List.ofFn fun i => refOf (cs i))) s cs :=
  ⟨s, rfl, .refl, h⟩

theorem Builds.bind {x : TrieM Reference} {f : Reference → TrieM Reference} {s : Storage}
    {t t' : NodeTree} (h : Builds x s t)
    (hf : ∀ s', s.Grows s' → Logged s' t → Builds (f (refOf t)) s' t') : Builds (x >>= f) s t' := by
  obtain ⟨s1, h1, g1, l1⟩ := h
  obtain ⟨s2, h2, g2, l2⟩ := hf s1 g1 l1
  exact ⟨s2, (bind_ok h1).trans h2, g1.trans g2, l2⟩

theorem BuildsSlots.bind {x : TrieM (List Reference)} {f : List Reference → TrieM Reference}
    {s : Storage} {cs : Fin 16 → NodeTree} {t : NodeTree} (h : BuildsSlots x s cs)
    (hf : ∀ s', s.Grows s' → (∀ i, Logged s' (cs i)) →
      Builds (f (List.ofFn fun i => refOf (cs i))) s' t) : Builds (x >>= f) s t := by
  obtain ⟨s1, h1, g1, l1⟩ := h
  obtain ⟨s2, h2, g2, l2⟩ := hf s1 g1 l1
  exact ⟨s2, (bind_ok h1).trans h2, g1.trans g2, l2⟩

theorem Builds.bindSlots {x : TrieM Reference} {f : Reference → TrieM (List Reference)}
    {s : Storage} {t : NodeTree} {cs : Fin 16 → NodeTree} (h : Builds x s t)
    (hf : ∀ s', s.Grows s' → Logged s' t → BuildsSlots (f (refOf t)) s' cs) :
    BuildsSlots (x >>= f) s cs := by
  obtain ⟨s1, h1, g1, l1⟩ := h
  obtain ⟨s2, h2, g2, l2⟩ := hf s1 g1 l1
  exact ⟨s2, (bind_ok h1).trans h2, g1.trans g2, l2⟩

theorem builds_lift {α : Type} {x : Except Error α} {a : α} {f : α → TrieM Reference} {s : Storage}
    {t : NodeTree} (h : x = .ok a) (hf : Builds (f a) s t) : Builds (liftExcept x >>= f) s t := by
  obtain ⟨s1, h1, g1, l1⟩ := hf
  exact ⟨s1, (bind_ok (liftExcept_ok h s)).trans h1, g1, l1⟩

theorem buildsSlots_lift {α : Type} {x : Except Error α} {a : α}
    {f : α → TrieM (List Reference)} {s : Storage} {cs : Fin 16 → NodeTree} (h : x = .ok a)
    (hf : BuildsSlots (f a) s cs) : BuildsSlots (liftExcept x >>= f) s cs := by
  obtain ⟨s1, h1, g1, l1⟩ := hf
  exact ⟨s1, (bind_ok (liftExcept_ok h s)).trans h1, g1, l1⟩

theorem builds_read {ref : Reference} {n : Node} {f : Node → TrieM Reference} {s : Storage}
    {t : NodeTree} (h : getFromStorage ssz s ref = .ok n) (hf : Builds (f n) s t) :
    Builds (readNode ssz ref >>= f) s t := by
  obtain ⟨s1, h1, g1, l1⟩ := hf
  exact ⟨s1, (bind_ok (readNode_ok h)).trans h1, g1, l1⟩

theorem builds_leaf {path : Path} {v : Bytes} (hp : path.Small) (hv : v.length ≤ maxValueLen)
    (s : Storage) : Builds (putToStorage ssz (.leaf ⟨path, v⟩)) s (.leaf path.nibbles v) :=
  ⟨_, put_leaf hp hv s, s.grows_keep _, fun hl => s.mem_keep hl⟩

theorem builds_ext {path : Path} (hp : path.Small) {s : Storage} {c : NodeTree}
    (hc : Logged s c) :
    Builds (putToStorage ssz (.extension ⟨path, refOf c⟩)) s (.ext path.nibbles c) :=
  ⟨_, put_ext hp c s, s.grows_keep _, fun hl => s.mem_keep hl, (s.grows_keep _).logged hc⟩

theorem builds_branch {s : Storage} {cs : Fin 16 → NodeTree} {v : Bytes}
    (hcs : ∀ i, Logged s (cs i)) (hv : v.length ≤ maxValueLen) :
    Builds (putToStorage ssz (.branch ⟨List.ofFn fun i => refOf (cs i), v⟩)) s (.branch cs v) :=
  ⟨_, put_branch cs hv s, s.grows_keep _, fun hl => s.mem_keep hl,
    fun i => (s.grows_keep _).logged (hcs i)⟩

/-! ## SetHandler -/

theorem createBranchLeaf_builds {path : Path} {v : Bytes} (hp : path.Small)
    (hv : v.length ≤ maxValueLen) {s : Storage} {cs : Fin 16 → NodeTree}
    (hcs : ∀ i, Logged s (cs i)) :
    BuildsSlots (createBranchLeaf ssz path v (List.ofFn fun i => refOf (cs i))) s
      (Tree.setLeaf cs path.nibbles v) := by
  unfold createBranchLeaf
  cases hn : path.nibbles with
  | nil =>
    rw [if_neg (fun h => (size_pos_iff hp).mp h hn)]
    exact .pure hcs
  | cons i q =>
    obtain ⟨p', hcons, hq, hs'⟩ := consume_one hp hn
    rw [if_pos ((size_pos_iff hp).mpr (by rw [hn]; simp))]
    apply buildsSlots_lift (Path.nibbleAt_cons hp hn)
    apply buildsSlots_lift hcons
    apply (builds_leaf hs' hv s).bindSlots
    intro s' hg hl
    rw [hq] at hl ⊢
    rw [set_ofFn]
    exact .pure (logged_update (fun j => hg.logged (hcs j)) hl i)

theorem createBranchExtension_builds {path : Path} (hp : path.Small) (hne : path.nibbles ≠ [])
    {s : Storage} {cs : Fin 16 → NodeTree} (hcs : ∀ i, Logged s (cs i)) {c : NodeTree}
    (hc : Logged s c) :
    BuildsSlots (createBranchExtension ssz path (refOf c) (List.ofFn fun i => refOf (cs i))) s
      (Tree.setExt cs path.nibbles c) := by
  unfold createBranchExtension
  rw [if_neg (fun h => hne ((size_eq_zero_iff hp).mp h))]
  cases hn : path.nibbles with
  | nil => exact absurd hn hne
  | cons i q =>
    obtain ⟨p', hcons, hq, hs'⟩ := consume_one hp hn
    have hsize : path.size = 1 ↔ q = [] := by
      rw [Path.size_eq hp, hn, List.length_cons, ← List.length_eq_zero_iff]
      omega
    -- whatever hangs at the end of the path, the other slots stay
    have hslots : ∀ s', s.Grows s' → Logged s' (Tree.wrap q c) →
        ∀ j, Logged s' (Function.update cs i (Tree.wrap q c) j) :=
      fun s' hg hl => logged_update (fun j => hg.logged (hcs j)) hl i
    by_cases hq0 : q = []
    · rw [if_pos (hsize.mpr hq0)]
      apply buildsSlots_lift (Path.nibbleAt_cons hp hn)
      rw [set_ofFn]
      subst hq0
      exact .pure (hslots s .refl hc)
    · rw [if_neg (fun h => hq0 (hsize.mp h))]
      apply buildsSlots_lift (Path.nibbleAt_cons hp hn)
      apply buildsSlots_lift hcons
      apply (builds_ext hs' hc).bindSlots
      intro s' hg hl
      have hwrap : Tree.wrap q c = .ext q c := by simp [Tree.wrap, hq0]
      rw [hq, ← hwrap] at hl
      rw [hq, ← hwrap, set_ofFn]
      exact .pure (hslots s' hg hl)

theorem replicate_eq_ofFn :
    List.replicate branchesNum ([] : Reference) =
      List.ofFn fun i => refOf ((fun _ => .empty : Fin 16 → NodeTree) i) := by
  simp [branchesNum, refOf]

theorem logged_empty (s : Storage) :
    ∀ i, Logged s ((fun _ => .empty : Fin 16 → NodeTree) i) := fun _ => trivial

theorem createBranchNode_builds {lhs rhs : Path} {v w : Bytes} (hl : lhs.Small) (hr : rhs.Small)
    (hv : v.length ≤ maxValueLen) (hw : w.length ≤ maxValueLen)
    (hne : ¬ (lhs.nibbles = [] ∧ rhs.nibbles = [])) (s : Storage) :
    Builds (createBranchNode ssz lhs v rhs w) s (Tree.forkLeaf lhs.nibbles v rhs.nibbles w) := by
  unfold createBranchNode
  rw [if_neg (by rw [size_eq_zero_iff hl, size_eq_zero_iff hr]; exact hne), replicate_eq_ofFn]
  apply (createBranchLeaf_builds hl hv (logged_empty s)).bind
  intro s1 _ h1
  apply (createBranchLeaf_builds hr hw h1).bind
  intro s2 _ h2
  simp only [size_eq_zero_iff hl, size_eq_zero_iff hr]
  apply builds_branch h2
  split
  · exact hv
  · split
    · exact hw
    · exact Nat.zero_le _

/-- What both splits end with: an extension for the shared part, if there is one. -/
theorem wrap_builds {cp : Path} (hp : cp.Small) {s : Storage} {t : NodeTree} (ht : Logged s t) :
    Builds (if cp.size ≠ 0 then putToStorage ssz (.extension ⟨cp, refOf t⟩) else pure (refOf t)) s
      (Tree.wrap cp.nibbles t) := by
  unfold Tree.wrap
  by_cases h : cp.nibbles = []
  · rw [if_neg (not_not.mpr ((size_eq_zero_iff hp).mpr h)), if_pos (by rw [h]; rfl)]
    exact .pure ht
  · rw [if_pos (fun h0 => h ((size_eq_zero_iff hp).mp h0)), if_neg (by simpa using h)]
    exact builds_ext hp ht

/-- The common prefix and what remains of both paths. -/
theorem commonPrefix_split {p q : Path} (hp : p.Small) (hq : q.Small) :
    (p.commonPrefix q).Small ∧
    (∃ p', p.consume (toSizeT (p.commonPrefix q).size) = .ok p' ∧ p'.Small ∧
      p'.nibbles = p.nibbles.drop (lcp p.nibbles q.nibbles).length) ∧
    (∃ q', q.consume (toSizeT (p.commonPrefix q).size) = .ok q' ∧ q'.Small ∧
      q'.nibbles = q.nibbles.drop (lcp p.nibbles q.nibbles).length) := by
  have hnib := Path.nibbles_commonPrefix hp hq
  have hlep := (lcp_prefix_left p.nibbles q.nibbles).length_le
  have hleq := (lcp_prefix_right p.nibbles q.nibbles).length_le
  have hs : (p.commonPrefix q).Small := by
    unfold Path.Small at hp ⊢
    rw [hnib]
    omega
  rw [toSizeT_size hs, hnib]
  obtain ⟨p', hp1, hp2, hp3⟩ := consume_small hp hlep
  obtain ⟨q', hq1, hq2, hq3⟩ := consume_small hq hleq
  exact ⟨hs, ⟨p', hp1, hp3, hp2⟩, ⟨q', hq1, hq3, hq2⟩⟩

theorem setLeaf_builds {lp path : Path} {v w : Bytes} (hl : lp.Small) (hp : path.Small)
    (hv : v.length ≤ maxValueLen) (hw : w.length ≤ maxValueLen) (s : Storage) :
    Builds (setLeaf ssz v ⟨lp, w⟩ path) s ((Tree.leaf lp.nibbles w).insert path.nibbles v) := by
  have hbeq := Path.beq_iff_nibbles hl hp
  rw [Tree.insert]
  unfold setLeaf
  by_cases h : lp.nibbles = path.nibbles
  · rw [if_pos (hbeq.mpr h), if_pos h]
    exact builds_leaf hp hv s
  · rw [if_neg (fun hb => h (hbeq.mp hb)), if_neg h]
    obtain ⟨hcp, ⟨p', hp1, hp2, hp3⟩, ⟨l', hl1, hl2, hl3⟩⟩ := commonPrefix_split hp hl
    refine builds_lift hp1 (builds_lift hl1 ?_)
    rw [← hp3, ← hl3, ← Path.nibbles_commonPrefix hp hl]
    refine (createBranchNode_builds hp2 hl2 hv hw ?_ s).bind fun s' _ ht => wrap_builds hcp ht
    rw [hp3, hl3]
    rintro ⟨h1, h2⟩
    have e1 := lcp_append_drop_left path.nibbles lp.nibbles
    have e2 := lcp_append_drop_right path.nibbles lp.nibbles
    rw [h1, List.append_nil] at e1
    rw [h2, List.append_nil] at e2
    exact h (e2.symm.trans e1)

theorem setExtension_builds {rec : Reference → Path → TrieM Reference} {ep path : Path}
    (he : ep.Small) (hp : path.Small) {v : Bytes} (hv : v.length ≤ maxValueLen) {c : NodeTree}
    {s : Storage} (hc : Logged s c)
    (hrec : ep.nibbles <+: path.nibbles → ∀ path' : Path, path'.Small →
      path'.nibbles = path.nibbles.drop ep.nibbles.length →
        Builds (rec (refOf c) path') s (c.insert path'.nibbles v)) :
    Builds (setExtension ssz rec v ⟨ep, refOf c⟩ path) s
      ((Tree.ext ep.nibbles c).insert path.nibbles v) := by
  have hstart := Path.startsWith_iff hp he
  rw [Tree.insert]
  unfold setExtension
  by_cases h : ep.nibbles <+: path.nibbles
  · rw [if_pos (hstart.mpr h), if_pos h]
    obtain ⟨p', hp1, hp2, hp3⟩ := consume_small hp h.length_le
    rw [toSizeT_size he]
    apply builds_lift hp1
    rw [← hp2]
    apply (hrec h p' hp3 hp2).bind
    intro s' _ ht
    exact builds_ext he ht
  · rw [if_neg (fun hs => h (hstart.mp hs)), if_neg h]
    obtain ⟨hcp, ⟨p', hp1, hp2, hp3⟩, ⟨l', hl1, hl2, hl3⟩⟩ := commonPrefix_split hp he
    have hlne : l'.nibbles ≠ [] := by
      rw [hl3]
      intro h0
      exact h ((drop_lcp_eq_nil_iff path.nibbles ep.nibbles).mp h0)
    apply builds_lift hp1
    apply builds_lift hl1
    rw [← hp3, ← hl3, ← Path.nibbles_commonPrefix hp he, replicate_eq_ofFn]
    apply (createBranchLeaf_builds hp2 hv (logged_empty s)).bind
    intro s1 g1 h1
    apply (createBranchExtension_builds hl2 hlne h1 (g1.logged hc)).bind
    intro s2 _ h2
    simp only [size_eq_zero_iff hp2]
    have hval : (if p'.nibbles = [] then v else []).length ≤ maxValueLen := by
      split
      · exact hv
      · exact Nat.zero_le _
    apply (builds_branch h2 hval).bind
    intro s3 _ h3
    exact wrap_builds hcp h3

theorem setBranch_builds {rec : Reference → Path → TrieM Reference} {path : Path}
    (hp : path.Small) {v w : Bytes} (hv : v.length ≤ maxValueLen) (hw : w.length ≤ maxValueLen)
    {cs : Fin 16 → NodeTree} {s : Storage} (hcs : ∀ i, Logged s (cs i))
    (hrec : ∀ i q, path.nibbles = i :: q → ∀ path' : Path, path'.Small → path'.nibbles = q →
      Builds (rec (refOf (cs i)) path') s ((cs i).insert q v)) :
    Builds (setBranch ssz rec v ⟨List.ofFn fun i => refOf (cs i), w⟩ path) s
      ((Tree.branch cs w).insert path.nibbles v) := by
  unfold setBranch
  cases hn : path.nibbles with
  | nil =>
    rw [if_pos ((size_eq_zero_iff hp).mpr hn), getBranches_ofFn]
    exact builds_branch hcs hv
  | cons i q =>
    obtain ⟨p', hp1, hp2, hp3⟩ := consume_one hp hn
    rw [if_neg (by rw [size_eq_zero_iff hp, hn]; simp), Tree.insert]
    apply builds_lift (Path.nibbleAt_cons hp hn)
    apply builds_lift hp1
    rw [getBranches_ofFn, getD_ofFn]
    apply (hrec i q hn p' hp3 hp2).bind
    intro s' hg ht
    rw [set_ofFn]
    exact builds_branch (logged_update (fun j => hg.logged (hcs j)) ht i) hw

variable (ssz) in
/-- **`SetNode` returns the reference of the insertion.** -/
theorem setNode_builds {t : NodeTree} {d : Nat} (hd : d < 2 ^ 31) (hw : Fits t d) {s : Storage}
    (hs : s.Sound) (hl : Logged s t) {path : Path} (hp : path.nibbles.length ≤ d) {v : Bytes}
    (hv : v.length ≤ maxValueLen) {fuel : Nat} (hf : path.nibbles.length < fuel) :
    Builds (setNode ssz v fuel (refOf t) path) s (t.insert path.nibbles v) := by
  have hh := hs.holds hl
  have hpsm : path.Small := by unfold Path.Small; omega
  induction t generalizing d path fuel with
  | empty =>
    obtain ⟨fuel, rfl⟩ : ∃ n, fuel = n + 1 := ⟨fuel - 1, by omega⟩
    rw [setNode, if_pos (show refOf .empty = [] from rfl)]
    exact builds_leaf hpsm hv s
  | leaf p w =>
    obtain ⟨fuel, rfl⟩ : ∃ n, fuel = n + 1 := ⟨fuel - 1, by omega⟩
    obtain ⟨lp, hread, rfl⟩ := read_leaf ssz hh (by have := hw.1; omega) hw.2
    rw [setNode, if_neg (by rw [refOf_eq_nil_iff]; simp)]
    apply builds_read hread
    exact setLeaf_builds (small_of_le hd rfl hw.1) hpsm hv hw.2 s
  | ext p c ih =>
    obtain ⟨hpne, hpd, hb, hc⟩ := hw
    obtain ⟨fuel, rfl⟩ : ∃ n, fuel = n + 1 := ⟨fuel - 1, by omega⟩
    obtain ⟨ep, hread, rfl⟩ := read_ext ssz hh.1 (by omega)
    have hpos : 0 < ep.nibbles.length := List.length_pos_iff.mpr hpne
    rw [setNode, if_neg (by rw [refOf_eq_nil_iff]; simp)]
    apply builds_read hread
    apply setExtension_builds (small_of_le hd rfl hpd) hpsm hv hl.2
    intro hpre path' hp' hnib
    have hlen := congrArg List.length hnib
    have hle := hpre.length_le
    rw [List.length_drop] at hlen
    exact ih (by omega) hc hl.2 (by omega) (by omega) hh.2 hp'
  | branch cs w ih =>
    obtain ⟨fuel, rfl⟩ : ∃ n, fuel = n + 1 := ⟨fuel - 1, by omega⟩
    rw [setNode, if_neg (by rw [refOf_eq_nil_iff]; simp)]
    apply builds_read (read_branch ssz hh.1 hw.1)
    apply setBranch_builds hpsm hv hw.1 hl.2
    intro i q hn path' hp' hnib
    have hlen := congrArg List.length hn
    rw [List.length_cons] at hlen
    have hfuel : path'.nibbles.length < fuel := by rw [hnib]; omega
    have hdepth : path'.nibbles.length ≤ d - 1 := by rw [hnib]; omega
    rw [← hnib]
    exact ih i (by omega) (hw.slot i) (hl.2 i) hdepth hfuel (hh.2 i) hp'

end Core.Mpt
