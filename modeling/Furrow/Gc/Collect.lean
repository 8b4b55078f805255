import Furrow.Capture.StatCache
import Furrow.Gc.Traverse
import Furrow.Lib.Fallible
import Furrow.Objects
import Furrow.Tree.Dir

set_option relaxedAutoImplicit false
set_option autoImplicit false

/-!
# Collections

`collect_locked_at` of `gc.rs` with what it reads and replaces: the object table, the two caches
of the catalog, and the logs of every workspace.  Beside it, the operations that a store sees
between collections: a snapshot is published, pinned or unpinned.

## Main definitions

* `Furrow.Workspace`, `Furrow.StoreTables` — the logs of a workspace, and the whole store.
* `Furrow.collect` — one collection.
* `Furrow.publishSnapshot`, `Furrow.pin`, `Furrow.unpin` — the operations between collections.

## Main results

* `Furrow.collect_spec` — a collection succeeds exactly if all that its roots reach is there,
  and then it keeps that and nothing else.
-/

namespace Furrow

/-- The logs of a workspace and the files that name further roots. -/
structure Workspace where
  /-- The reference log. -/
  records : List RefRecord
  /-- The last state of the retention log. -/
  retention : RetentionState
  /-- `restore.intent`: the snapshots before and after a restore. -/
  intent : Option (ObjectId × ObjectId)
  /-- `sync/incoming.json` -/
  incoming : Option ObjectId

/-- A workspace that was just made. -/
def Workspace.empty : Workspace := ⟨[], .initial, none, none⟩

/-- What a store holds. -/
structure StoreTables where
  objects : OrdMap ObjectId Object
  statCache : OrdMap (Bytes ×ₗ Bytes) CachedFile
  directoryCache : OrdMap (Bytes ×ₗ Bytes) ObjectId
  workspaces : OrdMap Bytes Workspace

/-- A store that was just made. -/
def StoreTables.empty : StoreTables := ⟨.empty, .empty, .empty, .empty⟩

/-! ## Roots -/

/-- The retention state a collection works with; a dry run does not write it. -/
def Workspace.plan (dryRun : Bool) (now : ℤ) (w : Workspace) : RetentionState :=
  if dryRun then planState w.records now w.retention.pins
  else applyRetention w.records now w.retention

/-- The root of a record. -/
def RefRecord.root (r : RefRecord) (mask : Mask) : GcEdge := ⟨r.snapshotId, .Snapshot, mask⟩

/-- The classes whose bytes the root of a record keeps. -/
def Workspace.rootMask (now : ℤ) (w : Workspace) (state : RetentionState) (r : RefRecord) : Mask :=
  byteMask now r.sealedAt (r.sequence = lastSequence w.records ∨ state.isPinned r.snapshotId)

/-- The records a state retains. -/
def Workspace.retainedRecords (w : Workspace) (state : RetentionState) : List RefRecord :=
  w.records.filter fun r => state.retains r.sequence r.snapshotId

/-- The roots of a workspace. -/
def Workspace.roots (dryRun : Bool) (now : ℤ) (w : Workspace) : List GcEdge :=
  let state := w.plan dryRun now
  ((w.retainedRecords state).map fun r => r.root (w.rootMask now state r)) ++
    (match w.intent with
      | some (pre, target) =>
        [⟨pre, .Snapshot, allClassMask⟩, ⟨target, .Snapshot, allClassMask⟩]
      | none => []) ++
    match w.incoming with
    | some snapshot => [⟨snapshot, .Snapshot, allClassMask⟩]
    | none => []

/-- The roots of all workspaces (`enqueue_roots`). -/
def StoreTables.roots (dryRun : Bool) (now : ℤ) (t : StoreTables) : List GcEdge :=
  t.workspaces.toList.flatMap fun p => p.2.roots dryRun now

/-- How many roots said something new when they were marked. -/
def countRoots : GcMarks → List GcEdge → ℕ
  | _, [] => 0
  | marks, e :: es =>
    (match marks.get? e.node with
      | none => 1
      | some k => if k.mask ⊔ e.mask = k.mask then 0 else 1) +
      countRoots (Marking.enqueue marks e) es

/-! ## The collection -/

/-- What a collection reports, without the sizes in bytes. -/
structure GcReport where
  dryRun : Bool
  roots : ℕ
  reachableObjects : ℕ
  unreachableObjects : ℕ
  publishedSnapshots : ℕ
  retainedSnapshots : ℕ
  thinnedSnapshots : ℕ
deriving DecidableEq

/-- A workspace after its retention state was written. -/
def Workspace.persist (now : ℤ) (w : Workspace) : Workspace :=
  { w with retention := applyRetention w.records now w.retention }

/-- The retention states that a collection writes. -/
def StoreTables.persist (dryRun : Bool) (now : ℤ) (t : StoreTables) : StoreTables :=
  if dryRun then t else { t with workspaces := t.workspaces.mapValues (Workspace.persist now) }

/-- The tables after the sweep (`replace_objects_from_gc`): the marked objects, and the rows of
the caches whose objects are among them. -/
def StoreTables.sweep (t : StoreTables) (marks : GcMarks) : StoreTables :=
  let objects := t.objects.filter fun id _ => (marks.get? id).isSome
  let kept (id : ObjectId) : Bool := (objects.get? id).isSome
  { t with
    objects := objects
    statCache := t.statCache.filter fun _ row => kept row.blobId && row.xattrs.all kept
    directoryCache := t.directoryCache.filter fun _ tree => kept tree }

/-- **One collection** (`collect_locked_at`).  The retention states are written before the
traversal, so that they stay when it fails. -/
def collect (dryRun : Bool) (now : ℤ) : Fallible StoreTables GcError GcReport :=
  .inspect fun t => do
    let roots := t.roots dryRun now
    .update (StoreTables.persist dryRun now)
    match traverse t.objects roots with
    | .error e => .fail e
    | .ok marks =>
      let published := (t.workspaces.toList.map fun p => p.2.records.length).sum
      let retained := (t.workspaces.toList.map fun p =>
        (p.2.retainedRecords (p.2.plan dryRun now)).length).sum
      if !dryRun then .update fun t => t.sweep marks
      pure {
        dryRun := dryRun
        roots := countRoots .empty roots
        reachableObjects := marks.toList.length
        unreachableObjects := t.objects.toList.length - marks.toList.length
        publishedSnapshots := published
        retainedSnapshots := retained
        thinnedSnapshots := published - retained }

/-! ## Between collections -/

/-- The logs of a workspace; opening them makes them. -/
def StoreTables.workspace (t : StoreTables) (id : Bytes) : Workspace :=
  (t.workspaces.get? id).getD .empty

/-- **Publish a snapshot** with the objects that were written for it. -/
def publishSnapshot (workspaceId : Bytes) (new : List (ObjectId × Object)) (id : ObjectId)
    (sealedAt : ℤ) (t : StoreTables) : StoreTables :=
  let w := t.workspace workspaceId
  { t with
    objects := putObjects t.objects new
    workspaces := t.workspaces.insert workspaceId
      { w with records := appendOrdered w.records id sealedAt } }

/-- The paths of a snapshot whose bytes are missing, from a stack of directories
(`derive_materialization`). -/
def missingPaths (objects : ObjectStore) :
    ℕ → List (ObjectId × Bytes) → Except StoreError (List (Bytes × ContentClass))
  | 0, _ => .error .outOfFuel
  | _ + 1, [] => .ok []
  | fuel + 1, (tree, pfx) :: stack => do
    let entries ← forEachEntry objects fuel tree
    let found ← entries.mapM fun entry => do
      let path := joinPath pfx entry.name
      match entry.kind, entry.target with
      | .Directory, some target => pure ([(target, path)], [])
      | .File, some target =>
        match objects target with
        | none => throw .missingObject
        | some (.blob blob) =>
          if blob.chunks.all fun chunk => (objects chunk.id).isSome then pure ([], [])
          else pure ([], [(path, entry.contentClass)])
        | some _ => throw .kindMismatch
      | _, _ => pure ([], [])
    let rest ← missingPaths objects fuel ((found.flatMap Prod.fst).reverse ++ stack)
    pure (found.flatMap Prod.snd ++ rest)

/-- Whether all files of a snapshot can be written (the grade `exact`). -/
def isExact (objects : ObjectStore) (fuel : ℕ) (id : ObjectId) : Bool :=
  match objects id with
  | some (.snapshot s) =>
    match missingPaths objects fuel [(s.rootTree, [])] with
    | .ok missing => missing.isEmpty
    | .error _ => false
  | _ => false

/-- **Pin a snapshot**: an exact one of the log of the workspace.  Nothing changes if it is
refused. -/
def pin (workspaceId : Bytes) (fuel : ℕ) (id : ObjectId) (t : StoreTables) : StoreTables :=
  let w := t.workspace workspaceId
  if isExact t.objects.get? fuel id then
    match pinSnapshot w.records id w.retention with
    | some state =>
      { t with workspaces := t.workspaces.insert workspaceId { w with retention := state } }
    | none => t
  else t

/-- **Unpin a snapshot.** -/
def unpin (workspaceId : Bytes) (id : ObjectId) (t : StoreTables) : StoreTables :=
  let w := t.workspace workspaceId
  { t with workspaces :=
      t.workspaces.insert workspaceId { w with retention := unpinSnapshot id w.retention } }

/-! ## What is in the store -/

/-- What a written retention state retains is what was planned. -/
theorem retains_plan (dryRun : Bool) (now : ℤ) (w : Workspace) (s : ℕ) (id : ObjectId) :
    (w.plan dryRun now).retains s id = (planState w.records now w.retention.pins).retains s id := by
  unfold Workspace.plan applyRetention
  dsimp only
  split_ifs with hdry hsame
  · rfl
  · unfold samePolicyState at hsame
    simp only [decide_eq_true_eq] at hsame
    obtain ⟨hthrough, hretained, -⟩ := hsame
    unfold RetentionState.retains RetentionState.retainsInRanges RetentionState.isPinned
    rw [hthrough, hretained]
    rfl
  · rfl

/-- The pins of a collection are the pins before it. -/
theorem pins_plan (dryRun : Bool) (now : ℤ) (w : Workspace) :
    (w.plan dryRun now).pins = w.retention.pins := by
  unfold Workspace.plan applyRetention
  dsimp only
  split_ifs <;> rfl

/-- The roots of a collection are snapshots. -/
theorem tag_roots {dryRun : Bool} {now : ℤ} {t : StoreTables} {e : GcEdge}
    (he : e ∈ t.roots dryRun now) : e.tag = .Snapshot := by
  obtain ⟨p, -, he⟩ := List.mem_flatMap.mp he
  unfold Workspace.roots at he
  rcases List.mem_append.mp he with he | he
  · rcases List.mem_append.mp he with he | he
    · obtain ⟨r, -, rfl⟩ := List.mem_map.mp he
      rfl
    · split at he
      · rcases List.mem_cons.mp he with rfl | he
        · rfl
        · rw [List.mem_singleton.mp he]
      · exact absurd he List.not_mem_nil
  · split at he
    · rw [List.mem_singleton.mp he]
    · exact absurd he List.not_mem_nil

/-- **A collection succeeds if all that its roots reach is there, and fails otherwise.**  If it
is no dry run, exactly what is reached is kept. -/
theorem collect_spec {kindOf : ObjectId → ObjectKind} {t : StoreTables} {dryRun : Bool} {now : ℤ}
    (hkinded : WellKinded kindOf t.objects)
    (hroots : ∀ e ∈ t.roots dryRun now, kindOf e.node = .Snapshot) :
    (Present t.objects (t.roots dryRun now) ∧ ∃ report marks,
        collect dryRun now t = (.ok report,
          if dryRun then t else (t.persist false now).sweep marks) ∧
        ∀ id, (marks.get? id).isSome ↔
          ∃ kind mask, GcReaches t.objects (t.roots dryRun now) id kind mask) ∨
      (¬ Present t.objects (t.roots dryRun now) ∧
        ∃ e, collect dryRun now t = (.error e, t.persist dryRun now)) := by
  have htags : ∀ e ∈ t.roots dryRun now, e.tag = kindOf e.node := by
    intro e he
    rw [tag_roots he, hroots e he]
  rcases traverse_spec hkinded htags with ⟨marks, hrun, hpresent, hmarks⟩ | ⟨⟨e, hrun⟩, hmissing⟩
  · refine Or.inl ⟨hpresent, ?_⟩
    unfold collect
    rw [Fallible.inspect_apply]
    simp only [hrun]
    cases dryRun
    · exact ⟨_, marks, rfl, hmarks⟩
    · exact ⟨_, marks, rfl, hmarks⟩
  · refine Or.inr ⟨hmissing, e, ?_⟩
    unfold collect
    rw [Fallible.inspect_apply]
    simp only [hrun]
    rfl

end Furrow
