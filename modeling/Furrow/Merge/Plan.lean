import Mathlib
import Furrow.Tree.Dir

set_option relaxedAutoImplicit false
set_option autoImplicit false

/-!
# Three-way planning

`merge.rs`: a merge is planned from three trees, the base and the two sides.  `plan` works on
flat maps from paths to entries; `plan_trees` works on Merkle roots and looks only at the paths
that differ from the base.

## Main definitions

* `Furrow.equivalent`, `Furrow.directConflict`, `Furrow.isDescendant` — the shared predicates.
* `Furrow.plan` — the flat planner.
* `Furrow.collectDelta`, `Furrow.planTrees` — the planner on Merkle roots.

## Main results

* `Furrow.equivalent_iff` — equivalence of entries is equality of what they are compared by.
* `Furrow.finish_congr` — the last step of a plan depends on the set of conflicts only.
-/

namespace Furrow

open SepOrder

/-- What a merge does with one path. -/
inductive MergeAction
  | Set (entry : TreeEntry)
  | Remove
deriving DecidableEq

/-- One change of a merge. -/
structure MergeChange where
  path : Bytes
  action : MergeAction
deriving DecidableEq

/-- Why a path cannot be merged. -/
inductive ConflictKind
  | ModifyModify
  | DeleteModify
  | Type
  | Ancestor
deriving DecidableEq, Repr

/-- One conflict of a merge. -/
structure MergeConflict where
  path : Bytes
  kind : ConflictKind
deriving DecidableEq

/-- The changes and the conflicts of a merge. -/
structure MergePlan where
  changes : List MergeChange
  conflicts : List MergeConflict
deriving DecidableEq

/-! ## Shared predicates -/

/-- What two entries are compared by: everything but the times and, for a directory, the tree
below it. -/
def TreeEntry.compared (e : TreeEntry) : TreeEntry :=
  { e with mtimeSecs := 0, mtimeNanos := 0,
           target := if e.kind = .Directory then none else e.target }

/-- Two sides agree on a path, times and directory contents apart. -/
def equivalent : Option TreeEntry → Option TreeEntry → Bool
  | none, none => true
  | some left, some right =>
    let left := { left with mtimeSecs := 0, mtimeNanos := 0 }
    let right := { right with mtimeSecs := 0, mtimeNanos := 0 }
    if left.kind = .Directory ∧ right.kind = .Directory then
      { left with target := none } == { right with target := none }
    else left == right
  | _, _ => false

/-- The kind of a conflict that both sides have at a path. -/
def directConflict (base ours theirs : Option TreeEntry) : ConflictKind :=
  match ours, theirs with
  | some ours, some theirs =>
    if ours.kind ≠ theirs.kind ∨ base.any (fun entry => entry.kind ≠ ours.kind) then .Type
    else .ModifyModify
  | _, _ => .DeleteModify

/-- `path` lies below `ancestor`. -/
def isDescendant (path ancestor : Bytes) : Bool :=
  ancestor.length < path.length && ancestor.isPrefixOf path &&
    path[ancestor.length]? == some slash

/-- An entry that is there and is a directory. -/
def isDirectory (entry : Option TreeEntry) : Bool := entry.any fun entry => entry.kind = .Directory

/-! ## The loop both planners share -/

/-- What the loop over the paths does at one path. -/
inductive PathOutcome
  | keep
  | change (action : MergeAction)
  | conflict (kind : ConflictKind)

/-- The body of the loop over the paths. -/
def mergePath (base ours theirs : Option TreeEntry) : PathOutcome :=
  if equivalent ours theirs then .keep
  else if equivalent base ours then
    .change (match theirs with
      | some entry => .Set entry
      | none => .Remove)
  else if equivalent base theirs then .keep
  else .conflict (directConflict base ours theirs)

/-- The changes the loop collects, in path order. -/
def pathChanges (outcome : Bytes → PathOutcome) (paths : List Bytes) : List MergeChange :=
  paths.filterMap fun path =>
    match outcome path with
    | .change action => some ⟨path, action⟩
    | _ => none

/-- The conflicts the loop collects, in path order. -/
def pathConflicts (outcome : Bytes → PathOutcome) (paths : List Bytes) : List MergeConflict :=
  paths.filterMap fun path =>
    match outcome path with
    | .conflict kind => some ⟨path, kind⟩
    | _ => none

/-- A set of paths, in order. -/
def pathSet (paths : List Bytes) : List Bytes :=
  ((OrdMap.empty : OrdMap Bytes Unit).foldInsert (paths.map fun path => (path, ()))).keys

/-- Report an ancestor conflict unless the path has a conflict already. -/
def addAncestorConflict (conflicts : List MergeConflict) (path : Bytes) : List MergeConflict :=
  if conflicts.any fun conflict => conflict.path = path then conflicts
  else conflicts ++ [⟨path, .Ancestor⟩]

/-- `dedup_by` on paths, after an element that was kept. -/
def dedupAfter (last : MergeConflict) : List MergeConflict → List MergeConflict
  | [] => []
  | conflict :: rest =>
    if conflict.path = last.path then dedupAfter last rest
    else conflict :: dedupAfter conflict rest

/-- `dedup_by` on paths: of consecutive conflicts at one path the first is kept. -/
def dedupConflicts : List MergeConflict → List MergeConflict
  | [] => []
  | conflict :: rest => conflict :: dedupAfter conflict rest

/-- The order in which conflicts are sorted. -/
def byPath (a b : MergeConflict) : Prop := a.path ≤ b.path

instance : DecidableRel byPath := fun a b => inferInstanceAs (Decidable (a.path ≤ b.path))

instance : Std.Total byPath := ⟨fun a b => le_total a.path b.path⟩

instance : IsTrans MergeConflict byPath := ⟨fun _ _ _ => le_trans⟩

/-- The last step of a plan: conflicts are sorted by path, and no change stays at or below a
conflict. -/
def finish (changes : List MergeChange) (conflicts : List MergeConflict) : MergePlan :=
  let conflicts := dedupConflicts (conflicts.insertionSort byPath)
  { changes := changes.filter fun change =>
      !conflicts.any fun conflict =>
        change.path = conflict.path || isDescendant change.path conflict.path
    conflicts := conflicts }

/-! ## The flat planner -/

/-- Something below `directory` differs between the base and one side. -/
def subtreeChanged (base side : OrdMap Bytes TreeEntry) (directory : Bytes) : Bool :=
  ((base.toList.filter fun p => isDescendant p.1 directory).any fun p =>
      !equivalent (some p.2) (side.get? p.1)) ||
    ((side.toList.filter fun p => isDescendant p.1 directory).any fun p =>
      !equivalent (base.get? p.1) (some p.2))

/-- The flat planner has an ancestor conflict at a directory of the base: one side has it no
more, the other side changed something below it. -/
def ancestorConflict (base ours theirs : OrdMap Bytes TreeEntry) (path : Bytes) : Bool :=
  let oursIsDirectory := isDirectory (ours.get? path)
  let theirsIsDirectory := isDirectory (theirs.get? path)
  (!oursIsDirectory && theirsIsDirectory && subtreeChanged base theirs path &&
      !equivalent (ours.get? path) (theirs.get? path)) ||
    (!theirsIsDirectory && oursIsDirectory && subtreeChanged base ours path &&
      !equivalent (ours.get? path) (theirs.get? path))

/-- The outcome at a path, from the three maps. -/
def flatOutcome (base ours theirs : OrdMap Bytes TreeEntry) (path : Bytes) : PathOutcome :=
  mergePath (base.get? path) (ours.get? path) (theirs.get? path)

/-- **The flat planner** (`plan`). -/
def plan (base ours theirs : OrdMap Bytes TreeEntry) : MergePlan :=
  let paths := pathSet (base.keys ++ ours.keys ++ theirs.keys)
  let outcome := flatOutcome base ours theirs
  let ancestorConflicts := pathSet ((base.toList.filter fun p =>
    p.2.kind = .Directory ∧ ancestorConflict base ours theirs p.1).map Prod.fst)
  finish (pathChanges outcome paths)
    (ancestorConflicts.foldl addAncestorConflict (pathConflicts outcome paths))

/-! ## The planner on Merkle roots -/

/-- One path that differs between two trees. -/
structure Delta where
  before : Option TreeEntry
  after : Option TreeEntry
deriving DecidableEq

/-- Everything below a directory that one side added or removed (`collect_subtree`). -/
def collectSubtree (store : ObjectStore) (fuel : ℕ) (root : ObjectId) (pfx : Bytes) (added : Bool)
    (output : OrdMap Bytes Delta) : Except StoreError (OrdMap Bytes Delta) :=
  insertTree store
    (fun entry => .ok (if added then ⟨none, some entry⟩ else ⟨some entry, none⟩))
    .expectedTreeTarget fuel root pfx output

/-- `collect_subtree` on an entry, if it is a directory. -/
def collectSide (store : ObjectStore) (fuel : ℕ) (entry : Option TreeEntry) (path : Bytes)
    (added : Bool) (output : OrdMap Bytes Delta) : Except StoreError (OrdMap Bytes Delta) :=
  match entry.filter fun entry => entry.kind = .Directory with
  | none => pure output
  | some entry =>
    match entry.target with
    | none => throw .expectedTreeTarget
    | some target => collectSubtree store fuel target path added output

/-- What `collect_delta` does with one pair of entries; `go` compares two subdirectories. -/
def deltaVisit (store : ObjectStore) (fuel : ℕ)
    (go : ObjectId → ObjectId → Bytes → OrdMap Bytes Delta →
      Except StoreError (OrdMap Bytes Delta))
    (pfx : Bytes) (output : OrdMap Bytes Delta) (pair : EntryPair) :
    Except StoreError (OrdMap Bytes Delta) := do
  let (before, after) := pair
  match before.or after with
  | none => throw .expectedEntry
  | some named =>
    let path := joinPath pfx named.name
    let output :=
      if equivalent before after then output else output.insert path ⟨before, after⟩
    if isDirectory before && isDirectory after then
      match before.bind TreeEntry.target, after.bind TreeEntry.target with
      | some left, some right => go left right path output
      | _, _ => throw .expectedTreeTarget
    else do
      let output ← collectSide store fuel before path false output
      collectSide store fuel after path true output

/-- The paths at which two stored trees differ, under a prefix (`collect_delta`). -/
def collectDelta (store : ObjectStore) :
    ℕ → ObjectId → ObjectId → Bytes → OrdMap Bytes Delta →
      Except StoreError (OrdMap Bytes Delta)
  | 0, _, _, _, _ => .error .outOfFuel
  | fuel + 1, beforeRoot, afterRoot, pfx, output =>
    if beforeRoot = afterRoot then pure output
    else do
      let pairs ← diffEntries store fuel beforeRoot afterRoot
      pairs.foldlM (deltaVisit store fuel (collectDelta store fuel) pfx) output

/-- The first changed path after `directory` lies below it (`delta_has_descendant`). -/
def deltaHasDescendant (deltas : OrdMap Bytes Delta) (directory : Bytes) : Bool :=
  ((deltas.keys.filter fun path => directory ≤ path).find? fun path => path ≠ directory).any
    fun path => isDescendant path directory

/-- The paths at which `plan_trees` reports that one side (`mine`) lost a directory of the base
and the other side (`other`) changed something below it. -/
def ancestorPaths (mine other : OrdMap Bytes Delta) : List Bytes :=
  (mine.toList.filter fun p =>
    match p.2.before with
    | none => false
    | some baseEntry =>
      let otherEntry := ((other.get? p.1).bind Delta.after).getD baseEntry
      baseEntry.kind = .Directory && !isDirectory p.2.after &&
        otherEntry.kind = .Directory && deltaHasDescendant other p.1).map Prod.fst

/-- The outcome at a path, from the differences of the two sides alone. -/
def deltaOutcome (oursDelta theirsDelta : OrdMap Bytes Delta) (path : Bytes) : PathOutcome :=
  let baseEntry := ((oursDelta.get? path).or (theirsDelta.get? path)).bind Delta.before
  let oursEntry := ((oursDelta.get? path).map Delta.after).getD baseEntry
  let theirsEntry := ((theirsDelta.get? path).map Delta.after).getD baseEntry
  mergePath baseEntry oursEntry theirsEntry

/-- The plan from the collected differences. -/
def planDeltas (oursDelta theirsDelta : OrdMap Bytes Delta) : MergePlan :=
  let paths := pathSet (oursDelta.keys ++ theirsDelta.keys)
  let outcome := deltaOutcome oursDelta theirsDelta
  let conflicts := (ancestorPaths oursDelta theirsDelta).foldl addAncestorConflict
    (pathConflicts outcome paths)
  let conflicts := (ancestorPaths theirsDelta oursDelta).foldl addAncestorConflict conflicts
  finish (pathChanges outcome paths) conflicts

/-- **The planner on Merkle roots** (`plan_trees`). -/
def planTrees (store : ObjectStore) (fuel : ℕ) (baseRoot oursRoot theirsRoot : ObjectId) :
    Except StoreError MergePlan := do
  let oursDelta ← collectDelta store fuel baseRoot oursRoot [] OrdMap.empty
  let theirsDelta ← collectDelta store fuel baseRoot theirsRoot [] OrdMap.empty
  pure (planDeltas oursDelta theirsDelta)

/-! ## Facts about the shared parts -/

/-- Two sides agree exactly when what they are compared by is equal. -/
theorem equivalent_iff (a b : Option TreeEntry) :
    equivalent a b = true ↔ a.map TreeEntry.compared = b.map TreeEntry.compared := by
  cases a with
  | none => cases b <;> simp [equivalent]
  | some a =>
    cases b with
    | none => simp [equivalent]
    | some b =>
      simp only [equivalent, TreeEntry.compared, Option.map_some, Option.some.injEq]
      by_cases ha : a.kind = .Directory
      · by_cases hb : b.kind = .Directory
        · simp [ha, hb]
        · simp [ha, hb, Ne.symm hb]
      · by_cases hb : b.kind = .Directory
        · simp [ha, hb]
        · simp [ha, hb]

/-- A directory entry is there and has the kind of a directory. -/
theorem isDirectory_iff {a : Option TreeEntry} :
    isDirectory a = true ↔ ∃ e, a = some e ∧ e.kind = .Directory := by
  cases a <;> simp [isDirectory]

/-- An entry that is equivalent to a directory is a directory. -/
theorem isDirectory_eq_of_equivalent {a b : Option TreeEntry} (h : equivalent a b = true) :
    isDirectory a = isDirectory b := by
  have hdir : ∀ c : Option TreeEntry, isDirectory c = isDirectory (c.map TreeEntry.compared) := by
    intro c
    cases c <;> rfl
  rw [hdir a, hdir b, (equivalent_iff a b).mp h]

/-- `isDescendant` is being below the separator. -/
theorem isDescendant_iff {path ancestor : Bytes} :
    isDescendant path ancestor = true ↔ SepOrder.Below slash ancestor path := by
  unfold isDescendant SepOrder.Below
  simp only [Bool.and_eq_true, decide_eq_true_eq, List.isPrefixOf_iff_prefix, beq_iff_eq]
  constructor
  · rintro ⟨⟨-, r, rfl⟩, hget⟩
    cases r with
    | nil => simp at hget
    | cons c r => simp_all
  · rintro ⟨r, rfl⟩
    simp

/-- The members of a path set. -/
theorem mem_pathSet {l : List Bytes} {k : Bytes} : k ∈ pathSet l ↔ k ∈ l := by
  unfold pathSet
  rw [OrdMap.mem_keys_iff,
    OrdMap.get?_foldInsert (f := fun _ => some ()) _ (by simp) k]
  by_cases hk : k ∈ l <;> simp [hk, Function.comp_def]

/-- A path set is strictly sorted. -/
theorem pathSet_sorted (l : List Bytes) : (pathSet l).Pairwise (· < ·) := OrdMap.keys_sorted _

/-- The conflicts of a list are at different paths. -/
def DistinctPaths (cs : List MergeConflict) : Prop := cs.Pairwise fun a b => a.path ≠ b.path

/-- Adding an ancestor conflict keeps the paths distinct. -/
theorem distinctPaths_addAncestorConflict {cs : List MergeConflict} (h : DistinctPaths cs)
    (path : Bytes) : DistinctPaths (addAncestorConflict cs path) := by
  unfold addAncestorConflict
  split_ifs with hany
  · exact h
  · rw [Bool.not_eq_true, List.any_eq_false] at hany
    refine List.pairwise_append.mpr ⟨h, List.pairwise_singleton _ _, ?_⟩
    intro a ha b hb
    rw [List.mem_singleton.mp hb]
    simpa using hany a ha

/-- The conflicts after adding one ancestor conflict. -/
theorem mem_addAncestorConflict {cs : List MergeConflict} {path : Bytes} {c : MergeConflict} :
    c ∈ addAncestorConflict cs path ↔
      c ∈ cs ∨ (c = ⟨path, .Ancestor⟩ ∧ ∀ c' ∈ cs, c'.path ≠ path) := by
  unfold addAncestorConflict
  split_ifs with hany
  · obtain ⟨c', hc', hp⟩ := List.any_eq_true.mp hany
    have hno : ¬ ∀ c' ∈ cs, c'.path ≠ path := fun h => h c' hc' (by simpa using hp)
    simp [hno]
  · rw [Bool.not_eq_true, List.any_eq_false] at hany
    have hall : ∀ c' ∈ cs, c'.path ≠ path := by
      intro c' hc'
      simpa using hany c' hc'
    simp only [List.mem_append, List.mem_singleton]
    exact or_congr_right ⟨fun h => ⟨h, hall⟩, fun h => h.1⟩

/-- The conflicts after adding ancestor conflicts for a list of paths. -/
theorem mem_foldl_addAncestorConflict {paths : List Bytes} {cs : List MergeConflict}
    {c : MergeConflict} :
    c ∈ paths.foldl addAncestorConflict cs ↔
      c ∈ cs ∨ (c.kind = .Ancestor ∧ c.path ∈ paths ∧ ∀ c' ∈ cs, c'.path ≠ c.path) := by
  induction paths generalizing cs with
  | nil => simp
  | cons path paths ih =>
    have hfree : (∀ c' ∈ addAncestorConflict cs path, c'.path ≠ c.path) ↔
        (∀ c' ∈ cs, c'.path ≠ c.path) ∧ ((∀ c' ∈ cs, c'.path ≠ path) → path ≠ c.path) := by
      simp only [mem_addAncestorConflict]
      constructor
      · intro h
        exact ⟨fun c' hc' => h c' (Or.inl hc'), fun hno => h ⟨path, .Ancestor⟩ (Or.inr ⟨rfl, hno⟩)⟩
      · intro h c' hc'
        rcases hc' with hc' | ⟨rfl, hno⟩
        · exact h.1 c' hc'
        · exact h.2 hno
    rw [List.foldl_cons, ih, hfree, mem_addAncestorConflict, List.mem_cons]
    obtain ⟨cpath, ckind⟩ := c
    by_cases hp : cpath = path
    · subst hp
      simp only [MergeConflict.mk.injEq, true_and, true_or, ne_eq, not_true_eq_false, imp_false]
      tauto
    · have hp' : path ≠ cpath := Ne.symm hp
      simp only [MergeConflict.mk.injEq, hp, hp', false_and, or_false, false_or, ne_eq,
        not_false_eq_true, implies_true, and_true]

/-- Adding ancestor conflicts keeps the paths distinct. -/
theorem distinctPaths_foldl {paths : List Bytes} {cs : List MergeConflict}
    (h : DistinctPaths cs) : DistinctPaths (paths.foldl addAncestorConflict cs) := by
  induction paths generalizing cs with
  | nil => exact h
  | cons path paths ih => exact ih (distinctPaths_addAncestorConflict h path)

/-- Nothing is dropped from a strictly sorted list of conflicts. -/
theorem dedupConflicts_eq {cs : List MergeConflict}
    (h : cs.Pairwise fun a b => a.path < b.path) : dedupConflicts cs = cs := by
  have hafter : ∀ (l : List MergeConflict) (last : MergeConflict),
      (last :: l).Pairwise (fun a b => a.path < b.path) → dedupAfter last l = l := by
    intro l
    induction l with
    | nil => exact fun _ _ => rfl
    | cons c l ih =>
      intro last hl
      have hne : c.path ≠ last.path :=
        ne_of_gt ((List.pairwise_cons.mp hl).1 c List.mem_cons_self)
      rw [dedupAfter, if_neg hne, ih c (List.pairwise_cons.mp hl).2]
  cases cs with
  | nil => rfl
  | cons c l => rw [dedupConflicts, hafter l c h]

/-- Sorting conflicts at distinct paths gives a strictly sorted list. -/
theorem sort_strict {cs : List MergeConflict} (h : DistinctPaths cs) :
    (cs.insertionSort byPath).Pairwise fun a b => a.path < b.path := by
  have hle := List.pairwise_insertionSort byPath cs
  have hne : DistinctPaths (cs.insertionSort byPath) :=
    ((List.perm_insertionSort byPath cs).pairwise_iff fun hab => Ne.symm hab).mpr h
  refine (List.pairwise_and_iff.mpr ⟨hle, hne⟩).imp fun hab => ?_
  exact lt_of_le_of_ne hab.1 hab.2

/-- The conflicts of a finished plan are the ones it was given, sorted. -/
theorem finish_conflicts {changes : List MergeChange} {cs : List MergeConflict}
    (h : DistinctPaths cs) : (finish changes cs).conflicts = cs.insertionSort byPath :=
  dedupConflicts_eq (sort_strict h)

/-- **The last step of a plan depends on the set of conflicts only**, and determines it.

**Proof sketch.** Conflicts at distinct paths are sorted strictly, so nothing is dropped and
two lists with the same members are sorted to the same list; conversely the members are those
of the sorted list. -/
theorem finish_congr {changes : List MergeChange} {cs cs' : List MergeConflict}
    (h : DistinctPaths cs) (h' : DistinctPaths cs') :
    finish changes cs = finish changes cs' ↔ ∀ c, c ∈ cs ↔ c ∈ cs' := by
  constructor
  · intro heq c
    have hc := congrArg MergePlan.conflicts heq
    rw [finish_conflicts h, finish_conflicts h'] at hc
    rw [← List.mem_insertionSort byPath, hc, List.mem_insertionSort]
  · intro hmem
    have hsort : cs.insertionSort byPath = cs'.insertionSort byPath := by
      refine List.Perm.eq_of_pairwise (fun a b _ _ hab hba => ?_) (sort_strict h)
        (sort_strict h') ?_
      · exact absurd (lt_trans hab hba) (lt_irrefl _)
      · have hnodup : ∀ {l : List MergeConflict}, DistinctPaths l → l.Nodup :=
          fun hl => hl.imp fun hab heq => hab (congrArg MergeConflict.path heq)
        have hperm : cs.Perm cs' := (List.perm_ext_iff_of_nodup (hnodup h) (hnodup h')).mpr hmem
        exact (List.perm_insertionSort byPath cs).trans
          (hperm.trans (List.perm_insertionSort byPath cs').symm)
    unfold finish
    rw [hsort]

end Furrow
