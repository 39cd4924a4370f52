import ZkevmFramework.Core.EraseClean
import ZkevmFramework.Core.MptCalls

/-!
# Clean runs

A run is clean when no value set is empty and every `remove` is a clean
deletion that leaves the root in place.  Through a clean run the trie is a map
from paths to values (`Maps`): `set` and `remove` return normally, `get`
answers what the map holds, and the root depends on the map alone:

    clean cs → clean cs' → (root after cs = root after cs' ↔ same map)     (clean_root_eq_iff)

No other `remove` of a canonical trie leaves the root of the remaining map
(`remove_clean_iff`).
-/

namespace Core.Mpt

open Nibble Patricia

variable {ssz : SszLib}

/-! ## The map -/

/-- What is stored under the paths. -/
abbrev Contents := List (Fin 16) → Option Bytes

def callMap : Contents → Call → Contents
  | m, .get _ => m
  | m, .set key value => Function.update m (pathFromKey key).nibbles (some value)
  | m, .remove key _ => Function.update m (pathFromKey key).nibbles none

/-- The map after the calls. -/
def mapAfter (cs : List Call) : Contents := cs.foldl callMap fun _ => none

/-- The tree is the canonical one for the map. -/
structure Maps (tr : NodeTree) (m : Contents) : Prop where
  canonical : tr.isEmpty = false → tr.Canonical
  entry : ∀ q, tr.entry q = m q

theorem maps_empty : Maps .empty fun _ => none := by
  constructor
  · intro h
    cases h
  · exact fun _ => rfl

/-- One tree for each map. -/
theorem Maps.unique {tr tr' : NodeTree} {m : Contents} (h : Maps tr m) (h' : Maps tr' m) :
    tr = tr' := by
  have hentry : ∀ q, tr.entry q = tr'.entry q := fun q => (h.entry q).trans (h'.entry q).symm
  have hemp := Tree.isEmpty_eq_of_entry h.canonical h'.canonical hentry
  cases he : tr.isEmpty with
  | true =>
    rw [he] at hemp
    rw [(Tree.isEmpty_iff tr).mp he, (Tree.isEmpty_iff tr').mp hemp.symm]
  | false =>
    rw [he] at hemp
    exact Tree.canonical_unique (h.canonical he) (h'.canonical hemp.symm) hentry

theorem Maps.leaves {tr : NodeTree} {m : Contents} (h : Maps tr m) : Tree.Leaves (· ≠ ∅) tr := by
  cases he : tr.isEmpty with
  | true => rw [(Tree.isEmpty_iff tr).mp he]; trivial
  | false => exact (h.canonical he).leaves

theorem Maps.insert {tr : NodeTree} {m : Contents} (h : Maps tr m) (q : List (Fin 16))
    {value : Bytes} (hv : value ≠ []) :
    Maps (tr.insert q value) (Function.update m q (some value)) := by
  refine ⟨fun _ => Tree.canonical_insert h.canonical q hv, ?_⟩
  intro x
  rw [Tree.entry_insert h.leaves q hv, Function.update_apply, h.entry]

theorem Cleaned.maps {tr tr' : NodeTree} {m : Contents} {q : List (Fin 16)} (h : Maps tr m)
    (hc : Cleaned tr q tr') : Maps tr' (Function.update m q none) := by
  refine ⟨fun _ => hc.canonical, ?_⟩
  intro x
  rw [hc.entry, Function.update_apply, h.entry]

theorem Maps.cleaned {tr tr' : NodeTree} {m : Contents} {q : List (Fin 16)} (h : Maps tr m)
    (h' : Maps tr' (Function.update m q none)) (hne : tr'.isEmpty = false) : Cleaned tr q tr' := by
  refine ⟨h'.canonical hne, ?_⟩
  intro x
  rw [h'.entry, Function.update_apply, h.entry]

/-! ## Clean calls -/

/-- A deletion that is clean and leaves the root a node that `remove` accepts. -/
def CleanAt (junk : Option (Fin 16)) (tr : NodeTree) (q : List (Fin 16)) : Prop :=
  Clean junk tr q ∧ ¬ Collapses tr q

def CleanCall (tr : NodeTree) : Call → Prop
  | .get _ => True
  | .set _ value => value ≠ [] ∧ value.length ≤ maxValueLen
  | .remove key junk => CleanAt (junkSlot junk) tr (pathFromKey key).nibbles

/-- Every call is clean on the tree it meets. -/
def CleanRun : NodeTree → List Call → Prop
  | _, [] => True
  | tr, c :: cs => CleanCall tr c ∧ CleanRun (callTree c tr).2 cs

instance decidableCleanCall (tr : NodeTree) : (c : Call) → Decidable (CleanCall tr c)
  | .get _ => inferInstanceAs (Decidable True)
  | .set _ value => inferInstanceAs (Decidable (value ≠ [] ∧ value.length ≤ maxValueLen))
  | .remove key junk => inferInstanceAs (Decidable
      (Clean (junkSlot junk) tr (pathFromKey key).nibbles ∧
        ¬ Collapses tr (pathFromKey key).nibbles))

instance decidableCleanRun : (tr : NodeTree) → (cs : List Call) → Decidable (CleanRun tr cs)
  | _, [] => inferInstanceAs (Decidable True)
  | tr, c :: cs =>
    have := decidableCleanRun (callTree c tr).2 cs
    inferInstanceAs (Decidable (CleanCall tr c ∧ CleanRun (callTree c tr).2 cs))

/-- **A clean deletion is an update to the tree of the remaining map.** -/
theorem CleanAt.erase {junk : Option (Fin 16)} {tr : NodeTree} {m : Contents}
    {q : List (Fin 16)} (hm : Maps tr m) (h : CleanAt junk tr q) :
    ∃ tr', Mpt.erase junk tr q = .ok (.updated tr') ∧ Maps tr' (Function.update m q none) := by
  obtain ⟨r, hr, hc⟩ := h.1.cleaned (hm.canonical h.1.isEmpty)
  rcases r with _ | tr' | tr'
  · exact hc.canonical.elim
  · exact ⟨tr', hr, hc.maps hm⟩
  · exact absurd ((erase_useless_iff junk).mp ⟨tr', hr⟩) h.2

theorem CleanCall.maps {tr : NodeTree} {m : Contents} {c : Call} (h : CleanCall tr c)
    (hm : Maps tr m) : (callTree c tr).1.undefined = false ∧ Maps (callTree c tr).2 (callMap m c) := by
  cases c with
  | get key =>
    simp only [callTree]
    split
    · exact ⟨rfl, hm⟩
    · split <;> exact ⟨rfl, hm⟩
  | set key value => exact ⟨rfl, hm.insert _ h.1⟩
  | remove key junk =>
    obtain ⟨tr', he, hm'⟩ := CleanAt.erase hm h
    have hne : tr.isEmpty = false := h.1.isEmpty
    simp only [callTree, hne, he, Bool.false_eq_true, if_false]
    exact ⟨rfl, hm'⟩

theorem CleanRun.maps {tr : NodeTree} {m : Contents} {cs : List Call} (h : CleanRun tr cs)
    (hm : Maps tr m) : Maps (trees.run cs tr).2 (cs.foldl callMap m) := by
  induction cs generalizing tr m with
  | nil => exact hm
  | cons c cs ih =>
    obtain ⟨hdef, hm'⟩ := h.1.maps hm
    rw [trees.run_step hdef]
    exact ih h.2 hm'

theorem CleanRun.fits {tr : NodeTree} {cs : List Call} (h : CleanRun tr cs) :
    ∀ c ∈ cs, c.Fits := by
  induction cs generalizing tr with
  | nil => exact List.forall_mem_nil _
  | cons c cs ih =>
    refine List.forall_mem_cons.mpr ⟨?_, ih h.2⟩
    cases c with
    | set key value => exact h.1.2
    | _ => trivial

/-! ## The trie is a map -/

/-- **After a clean run the trie holds the canonical tree of the map.** -/
theorem CleanRun.represents {cs : List Call} (h : CleanRun .empty cs)
    (hnc : NoCollision (reached ssz cs).storage.stored) :
    ∃ tr, (reached ssz cs).Represents tr ∧ Maps tr (mapAfter cs) :=
  ⟨_, reached_represents h.fits hnc, h.maps maps_empty⟩

/-- **The root commits to exactly the map**, whatever was set and cleanly removed before. -/
theorem clean_root_eq_iff {cs cs' : List Call} (h : CleanRun .empty cs)
    (h' : CleanRun .empty cs')
    (hnc : NoCollision ((reached ssz cs).storage.stored ++ (reached ssz cs').storage.stored)) :
    (reached ssz cs).root = (reached ssz cs').root ↔ ∀ q, mapAfter cs q = mapAfter cs' q := by
  obtain ⟨tr, hrep, hm⟩ := h.represents (hnc.mono (List.subset_append_left _ _))
  obtain ⟨tr', hrep', hm'⟩ := h'.represents (hnc.mono (List.subset_append_right _ _))
  constructor
  · intro hroot q
    rw [← hm.entry, ← hm'.entry, hrep.eq_of_root hrep' hnc hroot]
  · intro hmap
    rw [← funext hmap] at hm'
    rw [hrep.root, hrep'.root, hm.unique hm']

/-- Three keys, one of them removed again, against two keys. -/
theorem clean_root_eq_removed :
    (reached .standard [.set [0x11] [1], .set [0x22] [2], .set [0x33] [3],
        .remove [0x33] 0]).root =
      (reached .standard [.set [0x22] [2], .set [0x11] [1]]).root ↔
      ∀ q, mapAfter [.set [0x11] [1], .set [0x22] [2], .set [0x33] [3], .remove [0x33] 0] q =
        mapAfter [.set [0x22] [2], .set [0x11] [1]] q :=
  clean_root_eq_iff (by decide +kernel) (by decide +kernel) (by decide +kernel)

/-- **`get` answers what the map holds**; the empty value of a branch is not in it. -/
theorem clean_get_iff {cs : List Call} (h : CleanRun .empty cs)
    (hnc : NoCollision (reached ssz cs).storage.stored) (key : Bytes) {value : Bytes}
    (hv : value ≠ []) :
    (reached ssz cs).get ssz key = .ok value ↔
      mapAfter cs (pathFromKey key).nibbles = some value := by
  obtain ⟨tr, hrep, hm⟩ := h.represents hnc
  rw [← hm.entry]
  constructor
  · intro hget
    exact Tree.entry_of_read (hrep.read_of_get hget) hv
  · intro hentry
    exact hrep.get_of_read (Tree.read_of_entry hentry)

theorem clean_get_removed :
    (reached .standard [.set [0x11] [1], .set [0x22] [2], .set [0x33] [3],
        .remove [0x33] 0]).get .standard [0x22] = .ok [2] ↔
      mapAfter [.set [0x11] [1], .set [0x22] [2], .set [0x33] [3], .remove [0x33] 0]
        (pathFromKey [0x22]).nibbles = some [2] :=
  clean_get_iff (by decide +kernel) (by decide +kernel) _ (by decide)

/-- **Which `remove` leaves the root of the remaining map**: the one that never
having set the key leads to. -/
theorem remove_clean_iff {cs cs' : List Call} {key : Bytes} {junk : UInt8}
    (h : CleanRun .empty cs) (h' : CleanRun .empty cs')
    (hkey : mapAfter cs (pathFromKey key).nibbles ≠ none)
    (hmap : mapAfter cs' = callMap (mapAfter cs) (.remove key junk))
    (hnc : NoCollision ((stateAfter ((reached ssz cs).remove ssz junk key)).storage.stored ++
      (reached ssz cs').storage.stored)) :
    ∃ tr, Spells ssz (reached ssz cs).storage (reached ssz cs).root tr ∧
      ((∃ t', (reached ssz cs).remove ssz junk key = .ok () t' ∧
          t'.root = (reached ssz cs').root) ↔
        CleanAt (junkSlot junk) tr (pathFromKey key).nibbles) := by
  have hg := (reached ssz cs).remove_grows ssz junk key
  have hnc₁ := hnc.mono (List.subset_append_left _ _)
  obtain ⟨tr, hrep, hm⟩ := h.represents (hnc₁.mono hg.subset)
  obtain ⟨tr', hrep', hm'⟩ := h'.represents (hnc.mono (List.subset_append_right _ _))
  rw [hmap] at hm'
  have hne : tr.isEmpty = false := by
    rw [← hm.entry] at hkey
    cases tr with
    | empty => exact absurd rfl hkey
    | _ => rfl
  have hcan := hm.canonical hne
  refine ⟨tr, hrep.spells, ?_⟩
  constructor
  · rintro ⟨t', ht', hroot⟩
    obtain ⟨tr₁, he, -, hrep₁⟩ := hrep.remove_ok hne ht'
    rw [ht'] at hnc hnc₁
    have hsame := (hrep₁ hnc₁).eq_of_root hrep' hnc hroot
    have hne₁ := (erase_ok hrep.fits he).2.1
    subst hsame
    refine ⟨(erase_clean_iff hcan).mp ⟨_, he, hm.cleaned hm' hne₁⟩, ?_⟩
    rw [← erase_useless_iff (junkSlot junk), he]
    rintro ⟨tr', h⟩
    cases h
  · intro hc
    obtain ⟨tr₁, he, hm₁⟩ := hc.erase hm
    have hr := hrep.remove_eq ssz hne junk key
    rw [he] at hr
    obtain ⟨t', ht', hroot, -⟩ := hr
    refine ⟨t', ht', ?_⟩
    rw [hroot, hrep'.root, hm₁.unique hm']

/-- A third key beside two others. -/
theorem remove_clean_third :
    let t := reached .standard [.set [0x11] [1], .set [0x22] [2], .set [0x33] [3]]
    ∃ tr, Spells .standard t.storage t.root tr ∧
      ((∃ t', t.remove .standard 0 [0x33] = .ok () t' ∧
          t'.root = (reached .standard [.set [0x11] [1], .set [0x22] [2]]).root) ↔
        CleanAt (junkSlot 0) tr (pathFromKey [0x33]).nibbles) := by
  have hmap : mapAfter [.set [0x11] [1], .set [0x22] [2]] =
      callMap (mapAfter [.set [0x11] [1], .set [0x22] [2], .set [0x33] [3]])
        (.remove [0x33] 0) := by
    simp only [mapAfter, callMap, List.foldl_cons, List.foldl_nil, Function.update_idem]
    rw [eq_comm, Function.update_eq_self_iff]
    decide +kernel
  exact remove_clean_iff (by decide +kernel) (by decide +kernel) (by decide +kernel) hmap
    (by decide +kernel)

end Core.Mpt
