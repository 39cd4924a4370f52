import ZkevmFramework.Core.MptRuns

/-!
# The root commits to the contents

A run of `set` calls with non-empty values builds a canonical tree, whose
entries are what was written last under each path (`Run.commits`).  Without
collisions a reference determines its tree (`refOf_injective`), so two such runs
reach the same root exactly when they wrote the same map (`root_eq_iff`).
-/

namespace Core.Mpt

open Nibble Patricia

variable {ssz : SszLib}

/-! ## A reference determines its tree -/

theorem mkRef_injOn {l : List Bytes} (hnc : NoCollision l) {e e' : Bytes}
    (he : 32 ≤ e.length → e ∈ l) (he' : 32 ≤ e'.length → e' ∈ l) (h : mkRef e = mkRef e') :
    e = e' := by
  have hlen := congrArg List.length h
  unfold mkRef at h hlen
  by_cases hs : e.length < 32
  · by_cases hs' : e'.length < 32
    · rwa [if_pos hs, if_pos hs'] at h
    · rw [if_pos hs, if_neg hs', length_basicHash] at hlen
      omega
  · by_cases hs' : e'.length < 32
    · rw [if_neg hs, if_pos hs', length_basicHash] at hlen
      omega
    · rw [if_neg hs, if_neg hs'] at h
      exact hnc e (he (by omega)) e' (he' (by omega)) h

/-- **Without collisions different trees have different references.** -/
theorem refOf_injective {l : List Bytes} (hnc : NoCollision l) {t t' : NodeTree} {d d' : Nat}
    (hd : d < 2 ^ 31) (hd' : d' < 2 ^ 31) (hw : Fits t d) (hw' : Fits t' d')
    (hk : Kept (· ∈ l) t) (hk' : Kept (· ∈ l) t') (h : refOf t = refOf t') : t = t' := by
  induction t generalizing t' d d' with
  | empty => exact ((refOf_eq_nil_iff t').mp h.symm).symm
  | leaf p v =>
    cases t' with
    | empty => exact absurd ((refOf_eq_nil_iff _).mp h) (by simp)
    | leaf p' v' =>
      obtain ⟨hp, hv⟩ := hw
      obtain ⟨hp', hv'⟩ := hw'
      obtain ⟨rfl, rfl⟩ := leafBytes_inj (by omega) (by omega) hv hv' (mkRef_injOn hnc hk hk' h)
      rfl
    | ext p' c' =>
      have := mkRef_injOn hnc hk hk'.1 h
      simp [leafBytes, extBytes] at this
    | branch cs' v' =>
      have := mkRef_injOn hnc hk hk'.1 h
      simp [leafBytes, branchBytes] at this
  | ext p c ih =>
    cases t' with
    | empty => exact absurd ((refOf_eq_nil_iff _).mp h) (by simp)
    | leaf p' v' =>
      have := mkRef_injOn hnc hk.1 hk' h
      simp [leafBytes, extBytes] at this
    | ext p' c' =>
      obtain ⟨-, hp, -, hc⟩ := hw
      obtain ⟨-, hp', -, hc'⟩ := hw'
      obtain ⟨rfl, hr⟩ := extBytes_inj (by omega) (by omega) (length_refOf_le c)
        (length_refOf_le c') (mkRef_injOn hnc hk.1 hk'.1 h)
      rw [ih (by omega) (by omega) hc hc' hk.2 hk'.2 hr]
    | branch cs' v' =>
      have := mkRef_injOn hnc hk.1 hk'.1 h
      simp [extBytes, branchBytes] at this
  | branch cs v ih =>
    cases t' with
    | empty => exact absurd ((refOf_eq_nil_iff _).mp h) (by simp)
    | leaf p' v' =>
      have := mkRef_injOn hnc hk.1 hk' h
      simp [leafBytes, branchBytes] at this
    | ext p' c' =>
      have := mkRef_injOn hnc hk.1 hk'.1 h
      simp [extBytes, branchBytes] at this
    | branch cs' v' =>
      obtain ⟨hrefs, rfl⟩ := branchBytes_inj ⟨(refs_inLimits cs).1, (refs_inLimits cs).2, hw.1⟩
        ⟨(refs_inLimits cs').1, (refs_inLimits cs').2, hw'.1⟩ (mkRef_injOn hnc hk.1 hk'.1 h)
      have hcs : cs = cs' := by
        funext i
        have hi := congrFun (List.ofFn_injective hrefs) i
        exact ih i (d := d - 1) (by omega) (by omega) (hw.slot i) (hw'.slot i) (hk.2 i) (hk'.2 i) hi
      rw [hcs]

/-! ## Runs of `set` calls -/

/-- The calls that write the pairs of key and value, latest first. -/
def sets (writes : List (Bytes × Bytes)) : List Op := writes.map fun w => .set w.1 w.2

/-- The last value written under a path. -/
def lastWritten (writes : List (Bytes × Bytes)) (path : Path) : Option Bytes :=
  (writes.find? fun w => pathFromKey w.1 == path).map Prod.snd

/-- The same, for the nibbles of a path. -/
def contents : List (Bytes × Bytes) → List (Fin 16) → Option Bytes
  | [], _ => none
  | w :: ws, q => if q = (pathFromKey w.1).nibbles then some w.2 else contents ws q

theorem lastWritten_pathFromKey (writes : List (Bytes × Bytes)) (key : Bytes) :
    lastWritten writes (pathFromKey key) = contents writes (pathFromKey key).nibbles := by
  induction writes with
  | nil => rfl
  | cons w ws ih =>
    have hbeq := Path.beq_iff_nibbles (small_pathFromKey w.1) (small_pathFromKey key)
    rw [lastWritten, List.find?_cons, contents]
    by_cases h : (pathFromKey w.1).nibbles = (pathFromKey key).nibbles
    · rw [hbeq.mpr h, if_pos h.symm]
      rfl
    · have hne : (pathFromKey w.1 == pathFromKey key) = false :=
        Bool.eq_false_iff.mpr fun hb => h (hbeq.mp hb)
      rw [hne, if_neg (fun h' => h h'.symm), ← ih]
      rfl

/-- Only paths of keys that were written have contents. -/
theorem contents_some {writes : List (Bytes × Bytes)} {q : List (Fin 16)} {v : Bytes}
    (h : contents writes q = some v) :
    ∃ w ∈ writes, (pathFromKey w.1).nibbles = q := by
  induction writes with
  | nil => cases h
  | cons w ws ih =>
    rw [contents] at h
    split at h
    · next hq => exact ⟨w, List.mem_cons_self, hq.symm⟩
    · obtain ⟨w', hw', hq⟩ := ih h
      exact ⟨w', List.mem_cons_of_mem _ hw', hq⟩

theorem contents_of_mem {writes : List (Bytes × Bytes)} {key value : Bytes}
    (h : (key, value) ∈ writes) : ∃ v, contents writes (pathFromKey key).nibbles = some v := by
  induction writes with
  | nil => cases h
  | cons w ws ih =>
    rw [contents]
    split
    · exact ⟨_, rfl⟩
    · next hq =>
      rcases List.mem_cons.mp h with rfl | h
      · exact absurd rfl hq
      · exact ih h

/-- Contents are determined by the paths of keys. -/
theorem contents_congr {writes writes' : List (Bytes × Bytes)}
    (h : ∀ key, contents writes (pathFromKey key).nibbles = contents writes' (pathFromKey key).nibbles)
    (q : List (Fin 16)) : contents writes q = contents writes' q := by
  cases hq : contents writes q with
  | some v =>
    obtain ⟨w, -, rfl⟩ := contents_some hq
    rw [← h, hq]
  | none =>
    cases hq' : contents writes' q with
    | some v =>
      obtain ⟨w, -, rfl⟩ := contents_some hq'
      rw [h, hq'] at hq
      cases hq
    | none => rfl

/-- The tree of a run of `set` calls: canonical, with the contents as its entries. -/
structure Commits (writes : List (Bytes × Bytes)) (tr : NodeTree) : Prop where
  canonical : tr.isEmpty = false → tr.Canonical
  isEmpty : tr.isEmpty = true ↔ writes = []
  entry : ∀ q, tr.entry q = contents writes q

theorem Commits.leaves {writes : List (Bytes × Bytes)} {tr : NodeTree} (h : Commits writes tr) :
    Tree.Leaves (· ≠ ∅) tr := by
  cases he : tr.isEmpty with
  | true => rw [(Tree.isEmpty_iff tr).mp he]; trivial
  | false => exact (h.canonical he).leaves

theorem Commits.isEmpty_eq_false {writes : List (Bytes × Bytes)} {tr : NodeTree}
    (h : Commits writes tr) (hne : writes ≠ []) : tr.isEmpty = false := by
  rw [Ne, ← h.isEmpty] at hne
  exact Bool.eq_false_iff.mpr hne

/-- A key whose path was not written has no entry. -/
theorem Commits.entry_eq_none {writes : List (Bytes × Bytes)} {tr : NodeTree}
    (h : Commits writes tr) {key : Bytes}
    (hfresh : ∀ w ∈ writes, pathFromKey w.1 ≠ pathFromKey key) :
    tr.entry (pathFromKey key).nibbles = none := by
  rw [h.entry]
  by_contra hsome
  obtain ⟨v, hv⟩ := Option.ne_none_iff_exists'.mp hsome
  obtain ⟨w, hw, hpath⟩ := contents_some hv
  exact hfresh w hw (pathFromKey_inj hpath)

theorem Commits.insert {writes : List (Bytes × Bytes)} {tr : NodeTree} (h : Commits writes tr)
    (key : Bytes) {value : Bytes} (hv : value ≠ []) :
    Commits ((key, value) :: writes) (tr.insert (pathFromKey key).nibbles value) := by
  constructor
  case canonical =>
    intro _
    exact Tree.canonical_insert h.canonical _ hv
  case isEmpty => simp [Tree.isEmpty_insert]
  case entry =>
    intro q
    rw [Tree.entry_insert h.leaves _ hv, contents, h.entry]

/-- **A run of `set` calls represents a tree that commits to its writes.** -/
theorem Run.commits {writes : List (Bytes × Bytes)} {t : MerklePatriciaTrie}
    (h : Run ssz (sets writes) t) (hv : ∀ w ∈ writes, w.2 ≠ [])
    (hnc : NoCollision t.storage.stored) : ∃ tr, t.Represents tr ∧ Commits writes tr := by
  induction writes generalizing t with
  | nil =>
    cases h
    refine ⟨.empty, MerklePatriciaTrie.represents_empty, ?_, ?_, ?_⟩
    · intro h
      simp at h
    · simp
    · intro q
      rfl
  | cons w ws ih =>
    cases h with
    | @set _ t _ _ h hlen =>
      obtain ⟨tr, hrep, hcom⟩ := ih h (fun w hw => hv w (List.mem_cons_of_mem _ hw))
        (hnc.mono (t.set_grows ssz w.1 w.2).subset)
      obtain ⟨t', ht', hrep'⟩ := hrep.set_eq ssz w.1 hlen
      rw [ht'] at hnc ⊢
      exact ⟨_, hrep' hnc, hcom.insert w.1 (hv w List.mem_cons_self)⟩

/-! ## Equal roots -/

/-- **The root commits to exactly the contents**, whatever the order of insertion. -/
theorem root_eq_iff {writes writes' : List (Bytes × Bytes)} {t t' : MerklePatriciaTrie}
    (h : Run ssz (sets writes) t) (h' : Run ssz (sets writes') t')
    (hv : ∀ w ∈ writes, w.2 ≠ []) (hv' : ∀ w ∈ writes', w.2 ≠ [])
    (hnc : NoCollision (t.storage.stored ++ t'.storage.stored)) :
    t.root = t'.root ↔
      ∀ key, lastWritten writes (pathFromKey key) = lastWritten writes' (pathFromKey key) := by
  have hleft : t.storage.stored ⊆ t.storage.stored ++ t'.storage.stored :=
    List.subset_append_left _ _
  have hright : t'.storage.stored ⊆ t.storage.stored ++ t'.storage.stored :=
    List.subset_append_right _ _
  obtain ⟨tr, hrep, hcom⟩ := h.commits hv (hnc.mono hleft)
  obtain ⟨tr', hrep', hcom'⟩ := h'.commits hv' (hnc.mono hright)
  constructor
  · intro hroot key
    rw [hrep.root, hrep'.root] at hroot
    have htr : tr = tr' := refOf_injective hnc (by decide) (by decide) hrep.fits hrep'.fits
      (hrep.logged.mono fun _ he => hleft he) (hrep'.logged.mono fun _ he => hright he) hroot
    rw [lastWritten_pathFromKey, lastWritten_pathFromKey, ← hcom.entry, ← hcom'.entry, htr]
  · intro hmap
    have hentry : ∀ q, tr.entry q = tr'.entry q := by
      simp only [lastWritten_pathFromKey] at hmap
      intro q
      rw [hcom.entry, hcom'.entry]
      exact contents_congr hmap q
    have hemp := Tree.isEmpty_eq_of_entry hcom.canonical hcom'.canonical hentry
    rw [hrep.root, hrep'.root]
    cases he : tr.isEmpty with
    | true =>
      rw [he] at hemp
      rw [(Tree.isEmpty_iff tr).mp he, (Tree.isEmpty_iff tr').mp hemp.symm]
    | false =>
      rw [he] at hemp
      rw [Tree.canonical_unique (hcom.canonical he) (hcom'.canonical hemp.symm) hentry]

/-- The same two keys in either order. -/
theorem root_eq_either_order :
    (exec .standard (sets [([0x21], [2]), ([0x11], [1])])).root =
        (exec .standard (sets [([0x11], [1]), ([0x21], [2])])).root ↔
      ∀ key, lastWritten [([0x21], [2]), ([0x11], [1])] (pathFromKey key) =
        lastWritten [([0x11], [1]), ([0x21], [2])] (pathFromKey key) :=
  root_eq_iff (run_exec (by decide +kernel)) (run_exec (by decide +kernel)) (by decide) (by decide)
    (by decide +kernel)

end Core.Mpt
