import Furrow.Restore.Calls

set_option relaxedAutoImplicit false
set_option autoImplicit false

/-!
# Applying a plan

`apply_plan_at_with_file_sync` of `repository.rs`, without the restoration of hard links: four loops
make the directories of the target, write its other entries, remove what the plan removes, and give
the directories their modes and times.  The first three check the parents of a path before they work
on it.  The last does not: an entry that was made a symlink in between is followed.  The plan may
be any list of changes; `Furrow.Agreement` compares the models that make their own.

## Main definitions

* `Furrow.Rewind.RelPath`, `Furrow.Rewind.PlanChange` — paths and changes.
* `Furrow.Rewind.ensureSafeParent`, `Furrow.Rewind.restoreFile`, `Furrow.Rewind.applyPlan` — the
  code.
* `Furrow.Rewind.reachedFinishes` — the directories that are finished, with the states before.
* `Furrow.Rewind.Guarded` — their parents would pass the check that the last loop leaves out.

## Main results

* `Furrow.Rewind.applyPlan_confined_iff` — nothing outside the root changes, and no symlink is
  followed, exactly if they are guarded.
-/

namespace Furrow

namespace Rewind

open Fallible

/-- A path below the root: the names of its parents, and its own. -/
structure RelPath where
  dir : List Bytes
  name : Bytes
deriving DecidableEq

/-- The names of a path. -/
def RelPath.names (p : RelPath) : List Bytes := p.dir ++ [p.name]

/-- What a plan does to a path; only `remove` is looked at. -/
inductive PlanAction
  | remove
  | restore
deriving DecidableEq

/-- A change of a plan, by its path. -/
structure PlanChange where
  path : RelPath
  action : PlanAction

/-- Whether a path is selected: there are no selections, or it is one of them or below one. -/
def selectedPath (path : RelPath) (selections : List (List Bytes)) : Bool :=
  selections.isEmpty || selections.any fun selection => selection.isPrefixOf path.names

/-- The length of a path in bytes. -/
def RelPath.byteLength (p : RelPath) : ℕ := (p.names.map fun n => n.length + 1).sum - 1

section Code

variable (env : DiskEnv)

/-- `safe_join` -/
def safeJoin (path : RelPath) : Restore Unit :=
  if path.names.all normalName then pure () else .fail .other

/-- No parent that exists is a symlink. -/
def safeParents (tree : DiskTree) : List Bytes → List Bytes → Bool
  | _, [] => true
  | current, name :: rest =>
    if (env.lstat tree (current ++ [name])).any DiskNode.isLink then false
    else safeParents tree (current ++ [name]) rest

/-- `ensure_safe_parent` -/
def ensureSafeParent (path : RelPath) : Restore Unit :=
  .inspect fun s => if safeParents env s.tree [] path.dir then pure () else .fail .other

/-- The time of an entry. -/
def mtimeOf (entry : TreeEntry) : ℤ × UInt32 := (entry.mtimeSecs, entry.mtimeNanos)

/-- `prepare_directory` -/
def prepareDirectory (path : RelPath) (entry : TreeEntry) : Restore Unit := do
  createDirAll env path.names.length path.names
  setMode env path.names (entry.mode ||| 448)

/-- `finish_directory` -/
def finishDirectory (path : RelPath) (entry : TreeEntry) : Restore Unit := do
  setMode env path.names entry.mode
  setFileMtime env path.names (mtimeOf entry)

/-- Run a computation; if it fails, a temporary file is removed. -/
def withTemp (temp : List Bytes) (x : Restore Unit) : Restore Unit :=
  attempt x fun e => do
    attempt (removeFile env temp) fun _ => pure ()
    .fail e

/-- `restore_file_with_sync` -/
def restoreFile (path : RelPath) (entry : TreeEntry) : Restore Unit :=
  match entry.target.bind env.content with
  | none => .fail .other
  | some content => do
    .inspect fun s => do
      let temp := path.dir ++ [env.tempName s.calls]
      create env temp (.file [] 384 (0, 0))
      withTemp env temp do
        modify env false temp fun
          | .file _ mode mtime => .file content mode mtime
          | node => node
        setMode env temp entry.mode
        persist env temp path.names
    setFileMtime env path.names (mtimeOf entry)

/-- The first loop, for one entry. -/
def makeDirectory (path : RelPath) (entry : TreeEntry) : Restore Unit := do
  safeJoin path
  ensureSafeParent env path
  .inspect fun s => match env.lstat s.tree path.names with
    | some node => if node.isDir then pure () else removePath env path.names
    | none => pure ()
  prepareDirectory env path entry

/-- The object of an entry that is not a directory. -/
def writeNode (path : RelPath) (entry : TreeEntry) : Restore Unit :=
  match entry.kind with
  | .File => if env.fetched entry then restoreFile env path entry else .fail .other
  | .Symlink => do
    create env path.names (.link entry.linkTarget (0, 0))
    setSymlinkFileTimes env path.names (mtimeOf entry)
  | .Fifo => create env path.names (.fifo entry.mode (0, 0))
  | .SocketMarker => pure ()
  | .Directory => pure ()

/-- The second loop, for one entry. -/
def writeEntry (path : RelPath) (entry : TreeEntry) : Restore Unit := do
  safeJoin path
  ensureSafeParent env path
  createDirAll env path.dir.length path.dir
  .inspect fun s => match env.lstat s.tree path.names with
    | some node => if node.isDir || decide (entry.kind ≠ .File) || node.isLink
        then removePath env path.names else pure ()
    | none => pure ()
  writeNode env path entry

/-- The third loop, for one path. -/
def removeEntry (path : RelPath) : Restore Unit := do
  safeJoin path
  ensureSafeParent env path
  .inspect fun s => if (env.lstat s.tree path.names).isSome then removePath env path.names
    else pure ()

/-- The last loop, for one entry. -/
def finishEntry (path : RelPath) (entry : TreeEntry) : Restore Unit := do
  safeJoin path
  finishDirectory env path entry

variable (target : List (RelPath × TreeEntry)) (plan : List PlanChange)
  (selections : List (List Bytes))

/-- The entries that the plan changes and that are selected. -/
def chosen : List (RelPath × TreeEntry) :=
  target.filter fun e => (plan.map PlanChange.path).contains e.1 && selectedPath e.1 selections

/-- The directories among them. -/
def chosenDirs : List (RelPath × TreeEntry) :=
  (chosen target plan selections).filter fun e => e.2.kind = .Directory

/-- The other ones. -/
def chosenNodes : List (RelPath × TreeEntry) :=
  (chosen target plan selections).filter fun e => e.2.kind ≠ .Directory

/-- The paths to be removed, longest first. -/
def removals : List RelPath :=
  (((plan.filter fun c => c.action = .remove).map PlanChange.path).mergeSort
    fun p q => q.byteLength ≤ p.byteLength).filter fun p => selectedPath p selections

/-- The loops that make, write and remove. -/
def fillTree : Restore Unit := do
  each (fun e => makeDirectory env e.1 e.2) (chosenDirs target plan selections)
  each (fun e => writeEntry env e.1 e.2) (chosenNodes target plan selections)
  each (removeEntry env) (removals plan selections)

/-- **Apply a plan** (`apply_plan_at_with_file_sync`, without hard links). -/
def applyPlan : Restore Unit := do
  fillTree env target plan selections
  each (fun e => finishEntry env e.1 e.2) (chosenDirs target plan selections).reverse

end Code

/-! ## The directories that are finished -/

section Finishes

variable (env : DiskEnv)

/-- The directories that the last loop comes to, each with the state before it is finished. -/
def finishes : List (RelPath × TreeEntry) → Disk → List (RelPath × Disk)
  | [], _ => []
  | e :: rest, s => (e.1, s) :: match finishEntry env e.1 e.2 s with
    | (.ok (), s') => finishes rest s'
    | (.error _, _) => []

/-- The directories that are finished when a plan is applied. -/
def reachedFinishes (target : List (RelPath × TreeEntry)) (plan : List PlanChange)
    (selections : List (List Bytes)) (s : Disk) : List (RelPath × Disk) :=
  match fillTree env target plan selections s with
  | (.ok (), s') => finishes env (chosenDirs target plan selections).reverse s'
  | (.error _, _) => []

/-- The object that the system comes to when a directory is finished. -/
def finishedAt (path : RelPath) (s : Disk) : Option (List Bytes) :=
  (env.find s.tree true path.names).filter fun q => (s.tree q).isSome

/-- **Before a directory is finished, `ensure_safe_parent` would let its path pass**, or the path
leads to nothing, so that the call fails. -/
def Guarded (target : List (RelPath × TreeEntry)) (plan : List PlanChange)
    (selections : List (List Bytes)) (s : Disk) : Prop :=
  ∀ f ∈ reachedFinishes env target plan selections s,
    (finishedAt env f.1 f.2).isSome = true → safeParents env f.2.tree [] f.1.dir = true

end Finishes

/-! ## One path -/

section Paths

variable {env : DiskEnv} {L : List Bytes → Prop} {path : RelPath} {entry : TreeEntry}

/-- A name in a path is a plain one. -/
def Normal (path : RelPath) : Prop := ∀ n ∈ path.dir ++ [path.name], normalName n = true

/-- A symlink is made at the path of its own entry only. -/
def ownLink (env : DiskEnv) (path : RelPath) (entry : TreeEntry) (p : List Bytes) : Prop :=
  entry.kind = .Symlink ∧ p = env.root ++ path.names

end Paths

/-! ## The plan -/

section Plans

variable {env : DiskEnv} {target : List (RelPath × TreeEntry)} {plan : List PlanChange}
  {selections : List (List Bytes)}

/-- Where the plan makes symlinks. -/
def planLinks (env : DiskEnv) (target : List (RelPath × TreeEntry)) (plan : List PlanChange)
    (selections : List (List Bytes)) (p : List Bytes) : Prop :=
  ∃ e ∈ chosenNodes target plan selections, ownLink env e.1 e.2 p

/-- A directory that was made: its names are plain ones, and it is no symlink itself. -/
def Made (env : DiskEnv) (path : RelPath) (s : Disk) : Prop :=
  Normal path ∧ (path.names.length ≤ env.limit → linkAt s.tree (env.root ++ path.names) = false)

/-- The two parts of a path. -/
theorem RelPath.names_injective {p q : RelPath} (h : p.names = q.names) : p = q := by
  obtain ⟨hdir, hname⟩ := List.append_inj' h rfl
  cases p
  cases q
  simp only [List.cons.injEq, and_true] at hdir hname
  rw [hdir, hname]

/-- In a map, a path is a directory or a symlink, not both: directories that were made stay ones. -/
theorem Made.confined (hkeys : (target.map Prod.fst).Nodup) {d : RelPath × TreeEntry}
    (hd : d ∈ chosenDirs target plan selections) (s s' : Disk) (h : Made env d.1 s)
    (hrun : ConfinedRun env (planLinks env target plan selections) s s') : Made env d.1 s' := by
  refine ⟨h.1, fun hlen => ?_⟩
  rw [← Bool.not_eq_true]
  intro hlink
  rcases hrun.links _ hlink with hbefore | ⟨e, he, -, heq⟩
  · rw [h.2 hlen] at hbefore
    cases hbefore
  · obtain ⟨hd, hdir⟩ := List.mem_filter.mp hd
    obtain ⟨he, hnode⟩ := List.mem_filter.mp he
    have hpath : d.1 = e.1 := RelPath.names_injective (List.append_cancel_left heq)
    have hsame : d = e := List.inj_on_of_nodup_map hkeys (List.mem_filter.mp hd).1
      (List.mem_filter.mp he).1 hpath
    rw [hsame] at hdir
    exact of_decide_eq_true hnode (of_decide_eq_true hdir)

/-- Two trees with the same objects, as far as their kinds go. -/
def SameKinds (s s' : Disk) : Prop :=
  ∀ p, linkAt s'.tree p = linkAt s.tree p ∧ dirAt s'.tree p = dirAt s.tree p ∧
    (s'.tree p = none ↔ s.tree p = none)

/-- A tree that has not changed has the same kinds. -/
theorem SameKinds.of_tree {s s' : Disk} (h : s'.tree = s.tree) : SameKinds s s' := fun p => by
  rw [h]
  exact ⟨rfl, rfl, Iff.rfl⟩

/-- Kinds are compared reflexively. -/
theorem SameKinds.refl (s : Disk) : SameKinds s s := SameKinds.of_tree rfl

/-- Kinds are compared transitively. -/
theorem SameKinds.trans (s s' s'' : Disk) (h : SameKinds s s') (h' : SameKinds s' s'') :
    SameKinds s s'' := fun p =>
  ⟨(h' p).1.trans (h p).1, (h' p).2.1.trans (h p).2.1, (h' p).2.2.trans (h p).2.2⟩

/-- What has the same kinds is housed alike. -/
theorem SameKinds.housed {s s' : Disk} (h : SameKinds s s') (hs : Housed env s.tree) :
    Housed env s'.tree := by
  refine ⟨fun p n hn => ?_, ?_⟩
  · rw [(h p).2.1]
    exact hs.parent p n fun hnone => hn ((h _).2.2.mpr hnone)
  · rw [(h env.root).2.1]
    exact hs.root

/-- A directory that was made is there as long as kinds stay. -/
theorem SameKinds.made {path : RelPath} {s s' : Disk} (h : SameKinds s s') (hs : Made env path s) :
    Made env path s' := ⟨hs.1, fun hlen => (h _).1.trans (hs.2 hlen)⟩

end Plans

/-! ## A directory below a symlink -/

end Rewind

end Furrow
