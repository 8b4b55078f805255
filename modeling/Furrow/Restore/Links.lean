import Mathlib
import Furrow.Lib.Classes
import Furrow.Lib.Run
import Furrow.Restore.Relink
import Furrow.Shrink

set_option relaxedAutoImplicit false
set_option autoImplicit false

/-!
# Rewind and hard links

`rewind` over a file system whose files may have several names.  The entries of a snapshot say
nothing of links, so that a file whose entry is still right is left alone, whatever it is linked to;
the files that have changed are written anew.  Then the groups of the snapshot are linked
(`restore_links`).  Nothing takes apart what is linked now and was not.

The calls of the system succeed, nothing is excluded, and the whole workspace is rewound.  The
content of a file stands for the objects that hold it.  The times of directories move with the
links, and are followed no further: no result speaks of them.  `Furrow.Agreement` compares this
model with the others.

## Main definitions

* `Furrow.Links.Stage`, `Furrow.Links.Workspace` — a disk at work, and one that is in order.
* `Furrow.Links.Stage.hardlinks` — the groups that a capture records.
* `Furrow.Links.Session.rewind` — the loops, and the links.
* `Furrow.Links.Apart` — no two files that a rewind leaves alone are linked wrongly.

## Main results

* `Furrow.Links.Session.rewind_spec` — the object that a file is after a rewind.
* `Furrow.Links.Session.hardlinks_rewind_iff` — the groups are those of the snapshot exactly if they
  are apart.
-/

namespace Furrow

namespace Links

open Relink (LinkDisk Slot State)

/-- A disk at work, the extended attributes of its objects, and the first number that no object
has. -/
structure Stage where
  disk : LinkDisk
  xattrs : ℕ → List (Bytes × Bytes)
  next : ℕ

/-- Whether it is a regular file. -/
def isFile : DiskNode → Bool
  | .file _ _ _ => true
  | _ => false

namespace Stage

variable (s : Stage)

/-- The object that a path stands for. -/
def at_ (p : Slot) : Option ℕ := s.disk.entries.get? p

/-- What a capture records of a path. -/
def look (p : Slot) : Option (DiskNode × List (Bytes × Bytes)) :=
  (s.at_ p).map fun i => (s.disk.node i, s.xattrs i)

/-- A directory is at a path. -/
def dirAt (p : Slot) : Bool := (s.at_ p).any fun i => (s.disk.node i).isDir

/-- A regular file is at a path. -/
def fileAt (p : Slot) : Bool := (s.at_ p).any fun i => isFile (s.disk.node i)

/-- All paths, in their bytewise order. -/
def paths : List Slot :=
  s.disk.entries.keys.insertionSort fun p q => Shrink.joinPath p ≤ Shrink.joinPath q

/-- The regular files, in the order of their paths. -/
def files : List Slot := s.paths.filter s.fileAt

/-- The sets of files that are one object (`link_groups`). -/
def groups : List (List Slot) := Classes.groups s.at_ s.files

/-- The groups of a snapshot. -/
def hardlinks : List (List Bytes) := s.groups.map fun group => group.map Shrink.joinPath

/-! ## Calls -/

/-- Keep some of the entries. -/
def keep (g : Slot → Bool) : Stage :=
  { s with disk := { s.disk with entries := s.disk.entries.filter fun p _ => g p } }

/-- A new object at a path, in place of the one that is there. -/
def create (p : Slot) (node : DiskNode) (xattrs : List (Bytes × Bytes)) : Stage where
  disk := ⟨s.disk.entries.insert p s.next, Function.update s.disk.node s.next node⟩
  xattrs := Function.update s.xattrs s.next xattrs
  next := s.next + 1

/-- Change the object at a path. -/
def modify (p : Slot) (f : DiskNode → DiskNode) : Stage :=
  match s.at_ p with
  | some i =>
    { s with disk := { s.disk with node := Function.update s.disk.node i (f (s.disk.node i)) } }
  | none => s

/-- `remove_path`: a directory with all that is in it. -/
def removePath (p : Slot) : Stage :=
  if s.dirAt p then s.keep fun q => !p.isPrefixOf q else s.keep fun q => q ≠ p

/-- A directory that is not there is made. -/
def mkdir (p : Slot) : Stage :=
  if (s.at_ p).isSome then s else s.create p (.directory 493 (0, 0)) []

/-- `create_dir_all` -/
def createDirAll (p : Slot) : Stage := (p.inits.filter fun q => q ≠ []).foldl mkdir s

/-- `prepare_directory` -/
def prepareDirectory (p : Slot) (mode : UInt32) : Stage :=
  (s.createDirAll p).modify p (DiskNode.setMode (mode ||| 448))

/-- `finish_directory` -/
def finishDirectory (p : Slot) (mode : UInt32) (mtime : ℤ × UInt32) : Stage :=
  (s.modify p (DiskNode.setMode mode)).modify p (DiskNode.setMtime mtime)

end Stage

/-- A workspace of regular files and directories.  Paths are not too long for the system, nor are
files. -/
structure Workspace (limit : ℕ) extends Stage where
  used : ∀ p i, disk.entries.get? p = some i → i < next
  plain :
    ∀ p i, disk.entries.get? p = some i → isFile (disk.node i) = true ∨ (disk.node i).isDir = true
  named : ∀ p i, disk.entries.get? p = some i →
    p ≠ [] ∧ p.length ≤ limit ∧ ∀ n ∈ p, normalName n = true
  housed : ∀ p i, disk.entries.get? p = some i → ∀ q, q ≠ [] → q <+: p → q ≠ p →
    toStage.dirAt q = true
  bounded : ∀ i content mode mtime, disk.node i = .file content mode mtime → content.length < 2 ^ 64

/-- The bound on names, the names of the contents, the times of the calls, and the names of the
temporary links. -/
structure Session where
  limit : ℕ
  ids : Bytes → ObjectId
  clock : ℕ → ℤ × UInt32
  tempName : ℕ → Bytes
  tempName_injective : Function.Injective tempName

/-- The entry of a snapshot for an object. -/
def entryOf (ids : Bytes → ObjectId) (name : Bytes) : DiskNode → TreeEntry
  | .file content mode mtime =>
    ⟨name, .File, some (ids content), [], mode, UInt64.ofNat content.length, mtime.1,
      mtime.2, none, .Source⟩
  | .directory mode mtime => ⟨name, .Directory, none, [], mode, 0, mtime.1, mtime.2, none, .Source⟩
  | .link target mtime => ⟨name, .Symlink, none, target, 0, 0, mtime.1, mtime.2, none, .Source⟩
  | .fifo mode mtime => ⟨name, .Fifo, none, [], mode, 0, mtime.1, mtime.2, none, .Source⟩

section Code

variable (now old : Stage)

/-- Whether the entry of a path has changed, or that of something in it (`diff_directory`). -/
def changed (p : Slot) : Bool :=
  (now.paths ++ old.paths).any fun q => p.isPrefixOf q && decide (now.look q ≠ old.look q)

/-- The paths of the target that the plan changes, and the directories and files among them. -/
def changedPaths : List Slot := old.paths.filter (changed now old)

/-- The directories of the target that have changed. -/
def changedDirs : List Slot := (changedPaths now old).filter old.dirAt

/-- The files of the target that have changed. -/
def changedFiles : List Slot := (changedPaths now old).filter old.fileAt

/-- The paths to be removed, longest first. -/
def removals : List Slot :=
  (now.paths.filter fun p => (old.at_ p).isNone).insertionSort fun p q =>
    (Shrink.joinPath q).length ≤ (Shrink.joinPath p).length

/-- The first loop, for one directory. -/
def makeDirectory (s : Stage) (p : Slot) : Stage :=
  match old.look p with
  | some (.directory mode _, _) =>
    let s := if (s.at_ p).isSome ∧ s.dirAt p = false then s.removePath p else s
    s.prepareDirectory p mode
  | _ => s

/-- The second loop, for one file: a temporary file is written, and renamed. -/
def writeFile (s : Stage) (p : Slot) : Stage :=
  match old.look p with
  | some (node, xattrs) =>
    let s := s.createDirAll p.dropLast
    let s := if s.dirAt p then s.removePath p else s
    s.create p node xattrs
  | none => s

/-- The third loop, for one path. -/
def removeEntry (s : Stage) (p : Slot) : Stage := if (s.at_ p).isSome then s.removePath p else s

/-- The last loop, for one directory. -/
def finishEntry (s : Stage) (p : Slot) : Stage :=
  match old.look p with
  | some (.directory mode mtime, _) => s.finishDirectory p mode mtime
  | _ => s

/-- The loops before the links are restored. -/
def applyPlan : Stage :=
  (removals now old).foldl removeEntry
    ((changedFiles now old).foldl (writeFile old)
      ((changedDirs now old).foldl (makeDirectory old) now))

end Code

namespace Session

variable (x : Session) (now old : Stage)

/-- What the restoration of the links of a snapshot is given. -/
def relinking : Relink.Session where
  root := []
  limit := x.limit
  protected_ := ⟨[], none⟩
  selectedPaths := []
  lookupTreePath := fun path =>
    some ((old.disk.seen (path.splitOn slash)).map
      (entryOf x.ids ((path.splitOn slash).getLastD [])))
  tempName := x.tempName
  tempName_injective := x.tempName_injective

/-- The file system refuses no link. -/
def permissive (clock : ℕ → ℤ × UInt32) : Relink.Refusals :=
  ⟨fun _ _ => false, fun _ _ => false, clock⟩

/-- The disk after the links are restored. -/
def relinked (counter : ℕ) (s : Stage) : Stage :=
  { s with
    disk :=
      ((x.relinking old).restore (permissive x.clock) ⟨s.disk, counter, []⟩ old.hardlinks).1.disk }

/-- **`rewind`**, of the whole workspace. -/
def rewind (counter : ℕ) : Stage :=
  (changedDirs now old).reverse.foldl (finishEntry old) (x.relinked old counter (applyPlan now old))

end Session

/-- No two files that a rewind leaves alone, and that come first among their links in the snapshot,
are linked now. -/
def Apart (now old : Stage) : Prop :=
  ∀ p ∈ old.files, ∀ q ∈ old.files, Classes.first old.at_ old.files p = p →
    Classes.first old.at_ old.files q = q → now.look p = old.look p → now.look q = old.look q →
    now.at_ p = now.at_ q → p = q

/-! ## Calls -/

namespace Stage

variable {s : Stage} {p q : Slot}

/-- What is kept is where it was. -/
theorem at_keep (g : Slot → Bool) : (s.keep g).at_ q = if g q = true then s.at_ q else none := by
  unfold at_ keep
  rw [OrdMap.get?_filter]
  cases s.disk.entries.get? q <;> simp [Option.filter]

/-- A new object is at its path, and the others where they were. -/
theorem at_create (node : DiskNode) (xattrs : List (Bytes × Bytes)) :
    (s.create p node xattrs).at_ q = if q = p then some s.next else s.at_ q := by
  refine (OrdMap.get?_insert s.disk.entries p q s.next).trans ?_
  split_ifs <;> rfl

/-- A change of an object moves no entry. -/
@[simp] theorem at_modify (f : DiskNode → DiskNode) : (s.modify p f).at_ q = s.at_ q := by
  unfold modify
  split <;> rfl

/-- A change of an object makes none. -/
@[simp] theorem modify_next (f : DiskNode → DiskNode) : (s.modify p f).next = s.next := by
  unfold modify
  split <;> rfl

/-- Only the object at the path may change. -/
theorem modify_node (f : DiskNode → DiskNode) (i : ℕ) : (s.modify p f).disk.node i = s.disk.node i ∨
    s.at_ p = some i ∧ (s.modify p f).disk.node i = f (s.disk.node i) := by
  unfold modify
  split
  · rename_i j hj
    by_cases hij : i = j
    · right
      rw [hij]
      exact ⟨hj, Function.update_self _ _ _⟩
    · left
      exact Function.update_of_ne hij _ _
  · exact Or.inl rfl

/-- A directory is an object of that kind. -/
theorem dirAt_iff : s.dirAt p = true ↔ ∃ i, s.at_ p = some i ∧ (s.disk.node i).isDir = true := by
  unfold dirAt
  rw [Option.any_eq_true]

/-- A file is an object of that kind. -/
theorem fileAt_iff : s.fileAt p = true ↔ ∃ i, s.at_ p = some i ∧ isFile (s.disk.node i) = true := by
  unfold fileAt
  rw [Option.any_eq_true]

/-- A regular file is no directory. -/
theorem isDir_of_isFile {node : DiskNode} (h : isFile node = true) : node.isDir = false := by
  cases node <;> first | rfl | exact absurd h (by simp [isFile])

/-- A file is no directory. -/
theorem not_dirAt_of_fileAt (h : s.fileAt p = true) : s.dirAt p = false := by
  obtain ⟨i, hi, hfile⟩ := fileAt_iff.mp h
  unfold dirAt
  rw [hi]
  exact isDir_of_isFile hfile

/-- A directory is there. -/
theorem at_ne_none_of_dirAt (h : s.dirAt p = true) : s.at_ p ≠ none := by
  obtain ⟨i, hi, -⟩ := dirAt_iff.mp h
  rw [hi]
  simp

/-- A file is there. -/
theorem at_ne_none_of_fileAt (h : s.fileAt p = true) : s.at_ p ≠ none := by
  obtain ⟨i, hi, -⟩ := fileAt_iff.mp h
  rw [hi]
  simp

/-- The paths are those where something is. -/
theorem mem_paths : p ∈ s.paths ↔ s.at_ p ≠ none := by
  unfold paths at_
  rw [List.mem_insertionSort, OrdMap.mem_keys_iff, Option.isSome_iff_ne_none]

/-- The files are the paths of regular files. -/
theorem mem_files : p ∈ s.files ↔ s.fileAt p = true := by
  unfold files
  rw [List.mem_filter, mem_paths]
  exact ⟨And.right, fun h => ⟨at_ne_none_of_fileAt h, h⟩⟩

end Stage

open Stage

/-! ## What a call does -/

section Steps

variable {now old s s' s'' : Stage} {p q : Slot}

/-- The path has a new object. -/
def Written (now s : Stage) (p : Slot) : Prop := ∃ i, now.next ≤ i ∧ s.at_ p = some i

/-- What holds of the disk at any time: objects of before are at their places, as they were if they
are files; new objects are what the target has there, and have one name. -/
structure Kept (now old s : Stage) : Prop where
  next : now.next ≤ s.next
  used : ∀ p i, s.at_ p = some i → i < s.next
  before : ∀ p i, s.at_ p = some i → i < now.next → now.at_ p = some i
  node : ∀ i < now.next, (now.disk.node i).isDir = false → s.disk.node i = now.disk.node i
  kind : ∀ i < now.next, (s.disk.node i).isDir = (now.disk.node i).isDir
  fresh : ∀ p i, s.at_ p = some i → now.next ≤ i →
    old.fileAt p = true ∧ old.disk.seen p = some (s.disk.node i) ∨
      old.dirAt p = true ∧ (s.disk.node i).isDir = true
  alone : ∀ p q i, now.next ≤ i → s.at_ p = some i → s.at_ q = some i → p = q
  kept : ∀ p, old.fileAt p = true → changed now old p = false → s.at_ p = now.at_ p

/-- What is done stays done. -/
structure Later (now old s s' : Stage) : Prop where
  file : ∀ p, old.fileAt p = true → Written now s p → Written now s' p
  dir : ∀ p, old.dirAt p = true → s.dirAt p = true → s'.dirAt p = true
  gone : ∀ p, old.at_ p = none → s.at_ p = none → s'.at_ p = none

/-- A step keeps what holds at any time, and undoes nothing. -/
def Step (now old s s' : Stage) : Prop := Kept now old s → Kept now old s' ∧ Later now old s s'

/-- Nothing is undone by doing nothing. -/
theorem Later.refl (s : Stage) : Later now old s s :=
  ⟨fun _ _ h => h, fun _ _ h => h, fun _ _ h => h⟩

/-- What is not undone in two steps is not undone. -/
theorem Later.trans (h : Later now old s s') (h' : Later now old s' s'') : Later now old s s'' where
  file := fun p hp hs => h'.file p hp (h.file p hp hs)
  dir := fun p hp hs => h'.dir p hp (h.dir p hp hs)
  gone := fun p hp hs => h'.gone p hp (h.gone p hp hs)

/-- Nothing is a step. -/
theorem Step.refl (s : Stage) : Step now old s s := fun h => ⟨h, Later.refl s⟩

/-- Two steps are one. -/
theorem Step.trans (h : Step now old s s') (h' : Step now old s' s'') : Step now old s s'' := by
  intro hkept
  obtain ⟨hs', hlater⟩ := h hkept
  obtain ⟨hs'', hlater'⟩ := h' hs'
  exact ⟨hs'', hlater.trans hlater'⟩

/-- A loop is a step if its body is. -/
theorem step_foldl {α : Type} {f : Stage → α → Stage} {l : List α}
    (h : ∀ a ∈ l, ∀ s, Step now old s (f s a)) (s : Stage) : Step now old s (l.foldl f s) := by
  induction l generalizing s with
  | nil => exact Step.refl s
  | cons a l ih =>
    exact (h a List.mem_cons_self s).trans (ih (fun b hb => h b (List.mem_cons_of_mem _ hb)) _)

/-- Entries go that are neither done nor to be left alone. -/
theorem step_keep {g : Slot → Bool}
    (hg : ∀ p, s.at_ p ≠ none → g p = false →
      (old.fileAt p = true → changed now old p = true ∧ ¬ Written now s p) ∧
      (old.dirAt p = true → s.dirAt p = false)) : Step now old s (s.keep g) := by
  intro h
  have hsome : ∀ {p i}, (s.keep g).at_ p = some i → s.at_ p = some i := by
    intro p i hp
    rw [at_keep] at hp
    split_ifs at hp
    exact hp
  have hstays : ∀ {p i}, s.at_ p = some i → g p = true → (s.keep g).at_ p = some i := by
    intro p i hp hgp
    rw [at_keep, if_pos hgp, hp]
  refine ⟨⟨h.next, fun p i hp => h.used p i (hsome hp), fun p i hp =>
    h.before p i (hsome hp), h.node, h.kind, fun p i hp =>
      h.fresh p i (hsome hp), fun p q i hi hp hq => h.alone p q i hi (hsome hp) (hsome hq),
    ?_⟩, ?_, ?_, ?_⟩
  · intro p hfile hchanged
    rw [← h.kept p hfile hchanged, at_keep]
    split_ifs with hgp
    · rfl
    · by_contra hne
      have hloose := (hg p (Ne.symm hne) (by simpa using hgp)).1 hfile
      rw [hchanged] at hloose
      exact absurd hloose.1 (by simp)
  · rintro p hfile ⟨i, hi, hp⟩
    by_cases hgp : g p = true
    · exact ⟨i, hi, hstays hp hgp⟩
    · exact absurd ⟨i, hi, hp⟩ ((hg p (by rw [hp]; simp) (by simpa using hgp)).1 hfile).2
  · intro p hold hdir
    obtain ⟨i, hp, hnode⟩ := dirAt_iff.mp hdir
    by_cases hgp : g p = true
    · exact dirAt_iff.mpr ⟨i, hstays hp hgp, hnode⟩
    · have hfalse := (hg p (by rw [hp]; simp) (by simpa using hgp)).2 hold
      rw [hdir] at hfalse
      exact absurd hfalse (by simp)
  · intro p _ hp
    rw [at_keep, hp]
    split_ifs <;> rfl

/-- An object is made that the target has. -/
theorem step_create {node : DiskNode} {xattrs : List (Bytes × Bytes)}
    (hp : old.fileAt p = true ∧ changed now old p = true ∧ old.disk.seen p = some node ∨
      old.dirAt p = true ∧ node.isDir = true) : Step now old s (s.create p node xattrs) := by
  intro h
  have hnode : ∀ i, i ≠ s.next → (s.create p node xattrs).disk.node i = s.disk.node i := fun i hi =>
    Function.update_of_ne hi _ _
  have hself : (s.create p node xattrs).disk.node s.next = node := Function.update_self _ _ _
  have hcases : ∀ {q i}, (s.create p node xattrs).at_ q = some i →
      q = p ∧ i = s.next ∨ q ≠ p ∧ s.at_ q = some i := by
    intro q i hq
    rw [at_create] at hq
    split_ifs at hq with heq
    · exact Or.inl ⟨heq, (Option.some.inj hq).symm⟩
    · exact Or.inr ⟨heq, hq⟩
  have hne : old.at_ p ≠ none := by
    rcases hp with hp | hp
    · exact at_ne_none_of_fileAt hp.1
    · exact at_ne_none_of_dirAt hp.1
  refine ⟨⟨h.next.trans (Nat.le_succ _), ?_, ?_, ?_, ?_, ?_, ?_, ?_⟩, ?_, ?_, ?_⟩
  · intro q i hq
    rcases hcases hq with ⟨-, rfl⟩ | ⟨-, hq⟩
    · exact Nat.lt_succ_self _
    · exact (h.used q i hq).trans (Nat.lt_succ_self _)
  · intro q i hq hi
    rcases hcases hq with ⟨-, rfl⟩ | ⟨-, hq⟩
    · exact absurd hi (Nat.not_lt.mpr h.next)
    · exact h.before q i hq hi
  · intro i hi hdir
    rw [hnode i (hi.trans_le h.next).ne]
    exact h.node i hi hdir
  · intro i hi
    rw [hnode i (hi.trans_le h.next).ne]
    exact h.kind i hi
  · intro q i hq hi
    rcases hcases hq with ⟨rfl, rfl⟩ | ⟨-, hq⟩
    · rw [hself]
      rcases hp with ⟨hfile, -, hseen⟩ | hdir
      · exact Or.inl ⟨hfile, hseen⟩
      · exact Or.inr hdir
    · rw [hnode i (h.used q i hq).ne]
      exact h.fresh q i hq hi
  · intro q q' i hi hq hq'
    rcases hcases hq with ⟨hqp, hqi⟩ | ⟨-, hat⟩ <;> rcases hcases hq' with ⟨hqp', hqi'⟩ | ⟨-, hat'⟩
    · rw [hqp, hqp']
    · exact absurd hqi (h.used q' i hat').ne
    · exact absurd hqi' (h.used q i hat).ne
    · exact h.alone q q' i hi hat hat'
  · intro q hfile hchanged
    rw [at_create, if_neg, h.kept q hfile hchanged]
    rintro rfl
    rcases hp with ⟨-, htrue, -⟩ | ⟨hdir, -⟩
    · rw [hchanged] at htrue
      exact absurd htrue (by simp)
    · rw [not_dirAt_of_fileAt hfile] at hdir
      exact absurd hdir (by simp)
  · rintro q hfile ⟨i, hi, hq⟩
    by_cases heq : q = p
    · exact ⟨s.next, h.next, by rw [at_create, if_pos heq]⟩
    · exact ⟨i, hi, by rw [at_create, if_neg heq, hq]⟩
  · intro q hold hdir
    by_cases heq : q = p
    · refine dirAt_iff.mpr ⟨s.next, by rw [at_create, if_pos heq], ?_⟩
      rw [hself]
      rcases hp with ⟨hfile, -, -⟩ | ⟨-, hdir⟩
      · rw [← heq] at hfile
        rw [not_dirAt_of_fileAt hfile] at hold
        exact absurd hold (by simp)
      · exact hdir
    · obtain ⟨i, hq, hi⟩ := dirAt_iff.mp hdir
      refine dirAt_iff.mpr ⟨i, by rw [at_create, if_neg heq, hq], ?_⟩
      rw [hnode i (h.used q i hq).ne]
      exact hi
  · intro q hold hq
    rw [at_create, if_neg, hq]
    rintro rfl
    exact hne hold

/-- A directory is given another mode or time. -/
theorem step_modify {f : DiskNode → DiskNode} (hf : ∀ node, (f node).isDir = node.isDir)
    (hdir : s.dirAt p = true) : Step now old s (s.modify p f) := by
  intro h
  obtain ⟨j, hj, hjdir⟩ := dirAt_iff.mp hdir
  have hsame : ∀ i, (s.disk.node i).isDir = false → (s.modify p f).disk.node i = s.disk.node i := by
    intro i hi
    rcases modify_node (s := s) (p := p) f i with heq | ⟨hat, -⟩
    · exact heq
    · rw [hj] at hat
      rw [← Option.some.inj hat, hjdir] at hi
      exact absurd hi (by simp)
  have hkind : ∀ i, ((s.modify p f).disk.node i).isDir = (s.disk.node i).isDir := by
    intro i
    rcases modify_node (s := s) (p := p) f i with heq | ⟨-, heq⟩
    · rw [heq]
    · rw [heq, hf]
  refine ⟨⟨by rw [modify_next]; exact h.next, ?_, ?_, ?_, ?_, ?_, ?_, ?_⟩, ?_, ?_, ?_⟩
  · intro q i hq
    rw [at_modify] at hq
    rw [modify_next]
    exact h.used q i hq
  · intro q i hq
    rw [at_modify] at hq
    exact h.before q i hq
  · intro i hi hnow
    rw [hsame i (by rw [h.kind i hi, hnow])]
    exact h.node i hi hnow
  · intro i hi
    rw [hkind]
    exact h.kind i hi
  · intro q i hq hi
    rw [at_modify] at hq
    rcases h.fresh q i hq hi with ⟨hfile, hseen⟩ | ⟨hold, hnode⟩
    · left
      refine ⟨hfile, ?_⟩
      obtain ⟨k, hk, hknode⟩ := fileAt_iff.mp hfile
      have heq : old.disk.seen q = some (old.disk.node k) := by
        unfold LinkDisk.seen
        rw [show old.disk.entries.get? q = some k from hk]
        rfl
      rw [heq] at hseen
      rw [hsame i (by rw [← Option.some.inj hseen]; exact isDir_of_isFile hknode), heq, hseen]
    · exact Or.inr ⟨hold, by rw [hkind, hnode]⟩
  · intro q q' i hi hq hq'
    rw [at_modify] at hq hq'
    exact h.alone q q' i hi hq hq'
  · intro q hfile hchanged
    rw [at_modify]
    exact h.kept q hfile hchanged
  · rintro q - ⟨i, hi, hq⟩
    exact ⟨i, hi, by rw [at_modify, hq]⟩
  · intro q _ hq
    obtain ⟨i, hat, hi⟩ := dirAt_iff.mp hq
    exact dirAt_iff.mpr ⟨i, by rw [at_modify, hat], by rw [hkind, hi]⟩
  · intro q _ hq
    rw [at_modify, hq]

/-- What every step of a loop establishes, and later steps do not undo, holds after the loop. -/
theorem foldl_done {α : Type} {f : Stage → α → Stage} {P : α → Stage → Prop} {l : List α}
    (hstep : ∀ a ∈ l, ∀ s, Kept now old s →
      Kept now old (f s a) ∧ Later now old s (f s a) ∧ P a (f s a))
    (hP : ∀ a ∈ l, ∀ s s', Later now old s s' → P a s → P a s') (h : Kept now old s) :
    Kept now old (l.foldl f s) ∧ Later now old s (l.foldl f s) ∧ ∀ a ∈ l, P a (l.foldl f s) := by
  induction l generalizing s with
  | nil => exact ⟨h, Later.refl s, fun a ha => absurd ha List.not_mem_nil⟩
  | cons a l ih =>
    obtain ⟨hkept, hlater, hdone⟩ := hstep a List.mem_cons_self s h
    obtain ⟨hkept', hlater', hrest⟩ := ih (fun b hb => hstep b (List.mem_cons_of_mem _ hb))
      (fun b hb => hP b (List.mem_cons_of_mem _ hb)) hkept
    refine ⟨hkept', hlater.trans hlater', fun b hb => ?_⟩
    rcases List.mem_cons.mp hb with rfl | hb
    · exact hP b List.mem_cons_self _ _ hlater' hdone
    · exact hrest b hb

/-- Making a directory of the target is a step. -/
theorem step_mkdir (hq : old.dirAt q = true) : Step now old s (s.mkdir q) := by
  unfold Stage.mkdir
  split
  · exact Step.refl s
  · exact step_create (Or.inr ⟨hq, rfl⟩)

/-- Making the directories above a path of the target is a step. -/
theorem step_createDirAll (hdirs : ∀ q, q ≠ [] → q <+: p → old.dirAt q = true) :
    Step now old s (s.createDirAll p) := by
  refine step_foldl (fun q hq s => step_mkdir ?_) s
  rw [List.mem_filter, List.mem_inits, decide_eq_true_eq] at hq
  exact hdirs q hq.2 hq.1

/-- A path has nothing, or a directory. -/
def Open (s : Stage) (p : Slot) : Prop := s.at_ p = none ∨ s.dirAt p = true

/-- A path stays open while directories are made, and is one when it is its turn. -/
theorem open_mkdir (hp : old.dirAt p = true) (h : Kept now old s) (hopen : Open s p)
    (hq : old.dirAt q = true) : Open (s.mkdir q) p ∧ (q = p → (s.mkdir q).dirAt p = true) := by
  rcases hopen with hnone | hdir
  · by_cases hqp : q = p
    · have hmade : (s.mkdir q).dirAt p = true := by
        unfold Stage.mkdir
        rw [hqp, hnone, if_neg (by simp)]
        refine dirAt_iff.mpr ⟨s.next, by rw [at_create, if_pos rfl], ?_⟩
        have hself :
            (s.create p (.directory 493 (0, 0)) []).disk.node s.next = .directory 493 (0, 0) :=
          Function.update_self _ _ _
        rw [hself]
        rfl
      exact ⟨Or.inr hmade, fun _ => hmade⟩
    · refine ⟨Or.inl ?_, fun heq => absurd heq hqp⟩
      unfold Stage.mkdir
      split
      · exact hnone
      · rw [at_create, if_neg (Ne.symm hqp), hnone]
  · have hstays := (step_mkdir hq h).2.dir p hp hdir
    exact ⟨Or.inr hstays, fun _ => hstays⟩

/-- Directories are made down to a path. -/
theorem dirAt_createDirAll (hdirs : ∀ q, q ≠ [] → q <+: p → old.dirAt q = true) (hne : p ≠ [])
    (h : Kept now old s) (hopen : Open s p) : (s.createDirAll p).dirAt p = true := by
  have hp := hdirs p hne (List.prefix_refl p)
  have hlist : ∀ q ∈ p.inits.filter fun q => q ≠ [], old.dirAt q = true := by
    intro q hq
    rw [List.mem_filter, List.mem_inits, decide_eq_true_eq] at hq
    exact hdirs q hq.2 hq.1
  have hmem : p ∈ p.inits.filter fun q => q ≠ [] := by
    rw [List.mem_filter, List.mem_inits, decide_eq_true_eq]
    exact ⟨List.prefix_refl p, hne⟩
  unfold Stage.createDirAll
  generalize (p.inits.filter fun q => q ≠ []) = l at hlist hmem
  induction l generalizing s with
  | nil => exact absurd hmem List.not_mem_nil
  | cons q l ih =>
    obtain ⟨hkept, -⟩ := step_mkdir (hlist q List.mem_cons_self) h
    obtain ⟨hstill, hmade⟩ := open_mkdir hp h hopen (hlist q List.mem_cons_self)
    have hrest : ∀ r ∈ l, old.dirAt r = true := fun r hr => hlist r (List.mem_cons_of_mem _ hr)
    by_cases hqp : q = p
    · exact (step_foldl (fun r hr s => step_mkdir (hrest r hr)) (s.mkdir q) hkept).2.dir p hp
        (hmade hqp)
    · refine ih hkept hstill hrest ?_
      rcases List.mem_cons.mp hmem with heq | hl
      · exact absurd heq.symm hqp
      · exact hl

end Steps

/-! ## The loops -/

section Loops

variable {limit : ℕ} {now old : Workspace limit} {s : Stage} {p q : Slot}

/-- What a capture records of a path is what it records of its object. -/
theorem look_of_at {s : Stage} {i : ℕ} (h : s.at_ p = some i) :
    s.look p = some (s.disk.node i, s.xattrs i) := by
  unfold Stage.look
  rw [h]
  rfl

/-- What is seen at a path is its object. -/
theorem seen_of_at {s : Stage} {i : ℕ} (h : s.at_ p = some i) :
    s.disk.seen p = some (s.disk.node i) := by
  have h' : s.disk.entries.get? p = some i := h
  unfold LinkDisk.seen
  rw [h']
  rfl

/-- The directories on the way to a directory. -/
theorem dirs_of_dirAt (w : Workspace limit) (h : w.dirAt p = true) :
    ∀ q, q ≠ [] → q <+: p → w.dirAt q = true := by
  intro q hq hpre
  obtain ⟨i, hi, -⟩ := dirAt_iff.mp h
  by_cases hqp : q = p
  · rw [hqp, h]
  · exact w.housed p i hi q hq hpre hqp

/-- The directories on the way to the directory of a file. -/
theorem dirs_of_fileAt (w : Workspace limit) (h : w.fileAt p = true) :
    ∀ q, q ≠ [] → q <+: p.dropLast → w.dirAt q = true := by
  intro q hq hpre
  obtain ⟨i, hi, -⟩ := fileAt_iff.mp h
  refine w.housed p i hi q hq (hpre.trans (List.dropLast_prefix p)) ?_
  rintro rfl
  have hlen := hpre.length_le
  rw [List.length_dropLast] at hlen
  have hpos := List.length_pos_of_ne_nil hq
  omega

/-- Nothing is below what is no directory. -/
theorem at_below (w : Workspace limit) (hne : p ≠ []) (h : w.dirAt p = false) (hpre : p <+: q)
    (hqp : q ≠ p) : w.at_ q = none := by
  by_contra hsome
  obtain ⟨i, hi⟩ := Option.ne_none_iff_exists'.mp hsome
  have hdir := w.housed q i hi p hne hpre (Ne.symm hqp)
  rw [h] at hdir
  exact absurd hdir (by simp)

/-- What is there is a file or a directory. -/
theorem at_cases (w : Workspace limit) (p : Slot) :
    w.at_ p = none ∨ w.fileAt p = true ∨ w.dirAt p = true := by
  cases hat : w.at_ p with
  | none => exact Or.inl rfl
  | some i =>
    right
    rcases w.plain p i hat with hfile | hdir
    · exact Or.inl (fileAt_iff.mpr ⟨i, hat, hfile⟩)
    · exact Or.inr (dirAt_iff.mpr ⟨i, hat, hdir⟩)

/-- A file has changed if its own entry has. -/
theorem changed_of_fileAt (hold : old.fileAt p = true) (hnow : now.look p = old.look p) :
    changed now.toStage old.toStage p = false := by
  obtain ⟨i, hi, hfile⟩ := fileAt_iff.mp hold
  have hlook := look_of_at hi
  rw [← hnow] at hlook
  obtain ⟨j, hj, hpair⟩ := Option.map_eq_some_iff.mp hlook
  have hnode : now.disk.node j = old.disk.node i := congrArg Prod.fst hpair
  have hfiles : now.fileAt p = true := fileAt_iff.mpr ⟨j, hj, by rw [hnode, hfile]⟩
  have hne : p ≠ [] := (old.named p i hi).1
  unfold changed
  rw [List.any_eq_false]
  intro q hq
  rw [Bool.and_eq_true, decide_eq_true_eq, List.isPrefixOf_iff_prefix]
  rintro ⟨hpre, hdiff⟩
  by_cases hqp : q = p
  · rw [hqp] at hdiff
    exact hdiff hnow
  · refine hdiff ?_
    have hnone := at_below now hne (not_dirAt_of_fileAt hfiles) hpre hqp
    have hnone' := at_below old hne (not_dirAt_of_fileAt hold) hpre hqp
    unfold Stage.look
    rw [hnone, hnone']
    rfl

/-- A path whose entry differs has changed. -/
theorem changed_of_ne (hat : old.at_ p ≠ none) (h : now.look p ≠ old.look p) :
    changed now.toStage old.toStage p = true := by
  unfold changed
  rw [List.any_eq_true]
  refine ⟨p, List.mem_append_right _ (mem_paths.mpr hat), ?_⟩
  rw [Bool.and_eq_true, decide_eq_true_eq, List.isPrefixOf_iff_prefix]
  exact ⟨List.prefix_refl p, h⟩

/-- The paths of the target that have changed. -/
theorem mem_changedPaths : p ∈ changedPaths now.toStage old.toStage ↔
    old.at_ p ≠ none ∧ changed now.toStage old.toStage p = true := by
  unfold changedPaths
  rw [List.mem_filter, mem_paths]

/-- A directory is removed with all that is in it. -/
theorem removePath_of_dirAt {s : Stage} (h : s.dirAt p = true) :
    s.removePath p = s.keep fun q => !p.isPrefixOf q := by
  unfold Stage.removePath
  rw [if_pos h]

/-- What is no directory is removed alone. -/
theorem removePath_of_not {s : Stage} (h : s.dirAt p = false) :
    s.removePath p = s.keep fun q => q ≠ p := by
  unfold Stage.removePath
  rw [if_neg (by rw [h]; simp)]

/-- **The first loop**, for one directory. -/
theorem makeDirectory_done (hp : old.dirAt p = true) (h : Kept now.toStage old.toStage s) :
    Kept now.toStage old.toStage (makeDirectory old.toStage s p) ∧
      Later now.toStage old.toStage s (makeDirectory old.toStage s p) ∧
      (makeDirectory old.toStage s p).dirAt p = true := by
  have hdirs := dirs_of_dirAt old hp
  obtain ⟨i, hi, hnode⟩ := dirAt_iff.mp hp
  have hne : p ≠ [] := (old.named p i hi).1
  unfold makeDirectory
  rw [look_of_at hi]
  cases hold : old.disk.node i with
  | directory mode mtime =>
    dsimp only
    -- What is no directory goes.
    have hclear :
        ∀ s₁, s₁ = (if (s.at_ p).isSome = true ∧ s.dirAt p = false then s.removePath p else s) →
          Step now.toStage old.toStage s s₁ ∧ Open s₁ p := by
      rintro s₁ rfl
      split_ifs with hfile
      · rw [removePath_of_not hfile.2]
        refine ⟨step_keep fun q hq hgone => ?_, Or.inl ?_⟩
        · have hqp : q = p := by simpa using hgone
          rw [hqp]
          refine ⟨fun hf => ?_, fun _ => hfile.2⟩
          rw [not_dirAt_of_fileAt hf] at hp
          exact absurd hp (by simp)
        · rw [at_keep, if_neg (by simp)]
      · refine ⟨Step.refl s, ?_⟩
        cases hat : s.at_ p with
        | none => exact Or.inl hat
        | some j =>
          right
          rw [hat] at hfile
          simpa using hfile
    obtain ⟨hstep, hopen⟩ := hclear _ rfl
    generalize (if (s.at_ p).isSome = true ∧ s.dirAt p = false then s.removePath p else s) = s₁
      at hstep hopen
    obtain ⟨hkept₁, hlater₁⟩ := hstep h
    obtain ⟨hkept₂, hlater₂⟩ := step_createDirAll (s := s₁) hdirs hkept₁
    have hmade := dirAt_createDirAll hdirs hne hkept₁ hopen
    have hmode : Step now.toStage old.toStage (s₁.createDirAll p)
        ((s₁.createDirAll p).modify p (DiskNode.setMode (mode ||| 448))) :=
      step_modify (fun node => by cases node <;> rfl) hmade
    obtain ⟨hkept₃, hlater₃⟩ := hmode hkept₂
    exact ⟨hkept₃, (hlater₁.trans hlater₂).trans hlater₃, hlater₃.dir p hp hmade⟩
  | file content mode mtime =>
    rw [hold] at hnode
    exact absurd hnode (by simp [DiskNode.isDir])
  | link target mtime =>
    rw [hold] at hnode
    exact absurd hnode (by simp [DiskNode.isDir])
  | fifo mode mtime =>
    rw [hold] at hnode
    exact absurd hnode (by simp [DiskNode.isDir])

/-- **The second loop**, for one file. -/
theorem writeFile_done (hp : old.fileAt p = true)
    (hchanged : changed now.toStage old.toStage p = true) (h : Kept now.toStage old.toStage s) :
    Kept now.toStage old.toStage (writeFile old.toStage s p) ∧
      Later now.toStage old.toStage s (writeFile old.toStage s p) ∧
      Written now.toStage (writeFile old.toStage s p) p := by
  obtain ⟨i, hi, hnode⟩ := fileAt_iff.mp hp
  have hne : p ≠ [] := (old.named p i hi).1
  have hnotDir := not_dirAt_of_fileAt hp
  unfold writeFile
  rw [look_of_at hi]
  dsimp only
  obtain ⟨hkept₁, hlater₁⟩ := step_createDirAll (s := s) (p := p.dropLast) (dirs_of_fileAt old hp) h
  generalize s.createDirAll p.dropLast = s₁ at hkept₁ hlater₁
  have hclear :
      Step now.toStage old.toStage s₁ (if s₁.dirAt p = true then s₁.removePath p else s₁) := by
    split_ifs with hdir
    · rw [removePath_of_dirAt hdir]
      refine step_keep fun q hq hgone => ?_
      have hpre : p <+: q := List.isPrefixOf_iff_prefix.mp (by simpa using hgone)
      by_cases hqp : q = p
      · rw [hqp]
        refine ⟨fun _ => ⟨hchanged, ?_⟩, fun hd => absurd hd (by rw [hnotDir]; simp)⟩
        rintro ⟨j, hj, hat⟩
        obtain ⟨k, hk, hkdir⟩ := dirAt_iff.mp hdir
        rw [hat] at hk
        rw [← Option.some.inj hk] at hkdir
        rcases hkept₁.fresh p j hat hj with ⟨-, hseen⟩ | ⟨hd, -⟩
        · rw [seen_of_at hi] at hseen
          rw [← Option.some.inj hseen, isDir_of_isFile hnode] at hkdir
          exact absurd hkdir (by simp)
        · rw [hnotDir] at hd
          exact absurd hd (by simp)
      · have hnone := at_below old hne hnotDir hpre hqp
        exact ⟨fun hf => absurd hnone (at_ne_none_of_fileAt hf),
          fun hd => absurd hnone (at_ne_none_of_dirAt hd)⟩
    · exact Step.refl s₁
  obtain ⟨hkept₂, hlater₂⟩ := hclear hkept₁
  generalize (if s₁.dirAt p = true then s₁.removePath p else s₁) = s₂ at hkept₂ hlater₂
  have hcreate : Step now.toStage old.toStage s₂ (s₂.create p (old.disk.node i) (old.xattrs i)) :=
    step_create (Or.inl ⟨hp, hchanged, seen_of_at hi⟩)
  obtain ⟨hkept₃, hlater₃⟩ := hcreate hkept₂
  exact ⟨hkept₃, (hlater₁.trans hlater₂).trans hlater₃, s₂.next, hkept₂.next,
    by rw [at_create, if_pos rfl]⟩

/-- **The third loop**, for one path. -/
theorem removeEntry_done (hne : p ≠ []) (hp : old.at_ p = none)
    (h : Kept now.toStage old.toStage s) :
    Kept now.toStage old.toStage (removeEntry s p) ∧ Later now.toStage old.toStage s
      (removeEntry s p) ∧
      (removeEntry s p).at_ p = none := by
  have hnotDir : old.dirAt p = false := by
    by_contra hdir
    exact at_ne_none_of_dirAt (by simpa using hdir) hp
  have hbelow : ∀ q, p <+: q → old.at_ q = none := by
    intro q hpre
    by_cases hqp : q = p
    · rw [hqp, hp]
    · exact at_below old hne hnotDir hpre hqp
  unfold removeEntry
  split_ifs with hsome
  · have hkeep : ∀ g : Slot → Bool, (∀ q, g q = false → p <+: q) → g p = false →
        Kept now.toStage old.toStage (s.keep g) ∧ Later now.toStage old.toStage s (s.keep g) ∧
          (s.keep g).at_ p = none := by
      intro g hg hgp
      have hdrop : Step now.toStage old.toStage s (s.keep g) := step_keep fun q _ hq =>
        ⟨fun hf => absurd (hbelow q (hg q hq)) (at_ne_none_of_fileAt hf),
          fun hd => absurd (hbelow q (hg q hq)) (at_ne_none_of_dirAt hd)⟩
      obtain ⟨hkept, hlater⟩ := hdrop h
      refine ⟨hkept, hlater, ?_⟩
      rw [at_keep, if_neg (by rw [hgp]; simp)]
    cases hdir : s.dirAt p with
    | true =>
      rw [removePath_of_dirAt hdir]
      refine hkeep _ (fun q hq => List.isPrefixOf_iff_prefix.mp (by simpa using hq)) ?_
      have hself := List.isPrefixOf_iff_prefix.mpr (List.prefix_refl p)
      rw [hself]
      rfl
    | false =>
      rw [removePath_of_not hdir]
      refine hkeep _ (fun q hq => ?_) (by simp)
      rw [show q = p by simpa using hq]
  · exact ⟨h, Later.refl s, by simpa using hsome⟩

/-- What holds at any time holds before the loops. -/
theorem kept_now : Kept now.toStage old.toStage now.toStage where
  next := le_rfl
  used := now.used
  before := fun _ _ h _ => h
  node := fun _ _ _ => rfl
  kind := fun _ _ => rfl
  fresh := fun p i hp hi => absurd (now.used p i hp) (Nat.not_lt.mpr hi)
  alone := fun p _ i hi hp _ => absurd (now.used p i hp) (Nat.not_lt.mpr hi)
  kept := fun _ _ _ => rfl

/-- What the disk is like when the links are restored. -/
structure Applied (now old s : Stage) : Prop extends Kept now old s where
  file : ∀ p, old.fileAt p = true → now.look p ≠ old.look p → Written now s p
  same : ∀ p, old.fileAt p = true → now.look p = old.look p → s.at_ p = now.at_ p
  dir : ∀ p, old.dirAt p = true → s.dirAt p = true
  gone : ∀ p, old.at_ p = none → s.at_ p = none

/-- What the loops have applied before the links are restored. -/
theorem applied_applyPlan :
    Applied now.toStage old.toStage (applyPlan now.toStage old.toStage) := by
  unfold applyPlan
  obtain ⟨hkept₁, hlater₁, hdirs⟩ := foldl_done (f := makeDirectory old.toStage)
    (l := changedDirs now.toStage old.toStage) (P :=
      fun p s => old.dirAt p = true ∧ s.dirAt p = true)
    (fun p hp s hs => by
      have hdir := (List.mem_filter.mp hp).2
      obtain ⟨hk, hl, hd⟩ := makeDirectory_done hdir hs
      exact ⟨hk, hl, hdir, hd⟩)
    (fun p _ s s' hl hd => ⟨hd.1, hl.dir p hd.1 hd.2⟩) (@kept_now limit now old)
  generalize (changedDirs now.toStage old.toStage).foldl (makeDirectory old.toStage) now.toStage =
    s₁ at hkept₁ hlater₁ hdirs
  obtain ⟨hkept₂, hlater₂, hfiles⟩ := foldl_done (f := writeFile old.toStage)
    (l := changedFiles now.toStage old.toStage) (P :=
      fun p s => old.fileAt p = true ∧ Written now.toStage s p)
    (fun p hp s hs => by
      obtain ⟨hpath, hfile⟩ := List.mem_filter.mp hp
      obtain ⟨hk, hl, hw⟩ := writeFile_done hfile (mem_changedPaths.mp hpath).2 hs
      exact ⟨hk, hl, hfile, hw⟩)
    (fun p _ s s' hl hw => ⟨hw.1, hl.file p hw.1 hw.2⟩) hkept₁
  generalize (changedFiles now.toStage old.toStage).foldl (writeFile old.toStage) s₁ = s₂
    at hkept₂ hlater₂ hfiles
  obtain ⟨hkept₃, hlater₃, hgone⟩ := foldl_done (f := removeEntry)
    (l := removals now.toStage old.toStage) (P := fun p s => old.at_ p = none ∧ s.at_ p = none)
    (fun p hp s hs => by
      unfold removals at hp
      rw [List.mem_insertionSort, List.mem_filter, mem_paths] at hp
      obtain ⟨hnow, hnone⟩ := hp
      have hold : old.at_ p = none := by simpa using hnone
      obtain ⟨i, hi⟩ := Option.ne_none_iff_exists'.mp hnow
      obtain ⟨hk, hl, hg⟩ := removeEntry_done (now.named p i hi).1 hold hs
      exact ⟨hk, hl, hold, hg⟩)
    (fun p _ s s' hl hg => ⟨hg.1, hl.gone p hg.1 hg.2⟩) hkept₂
  have hlater : Later now.toStage old.toStage now.toStage _ := (hlater₁.trans hlater₂).trans hlater₃
  refine ⟨hkept₃, ?_, ?_, ?_, ?_⟩
  · intro p hfile hne
    have hmem : p ∈ changedFiles now.toStage old.toStage := List.mem_filter.mpr
      ⟨mem_changedPaths.mpr ⟨at_ne_none_of_fileAt hfile,
        changed_of_ne (at_ne_none_of_fileAt hfile) hne⟩, hfile⟩
    exact hlater₃.file p hfile (hfiles p hmem).2
  · intro p hfile heq
    exact hkept₃.kept p hfile (changed_of_fileAt hfile heq)
  · intro p hdir
    by_cases hchanged : changed now.toStage old.toStage p = true
    · have hmem : p ∈ changedDirs now.toStage old.toStage := List.mem_filter.mpr
        ⟨mem_changedPaths.mpr ⟨at_ne_none_of_dirAt hdir, hchanged⟩, hdir⟩
      exact hlater₃.dir p hdir (hlater₂.dir p hdir (hdirs p hmem).2)
    · refine hlater.dir p hdir ?_
      have hlook : now.look p = old.look p := by
        by_contra hne
        exact hchanged (changed_of_ne (at_ne_none_of_dirAt hdir) hne)
      obtain ⟨i, hi, hnode⟩ := dirAt_iff.mp hdir
      rw [look_of_at hi] at hlook
      obtain ⟨j, hj, hpair⟩ := Option.map_eq_some_iff.mp hlook
      have hsame : now.disk.node j = old.disk.node i := congrArg Prod.fst hpair
      exact dirAt_iff.mpr ⟨j, hj, by rw [hsame, hnode]⟩
  · intro p hnone
    by_cases hnow : now.at_ p = none
    · exact hlater.gone p hnone hnow
    · refine (hgone p ?_).2
      unfold removals
      rw [List.mem_insertionSort, List.mem_filter, mem_paths]
      exact ⟨hnow, by rw [hnone]; rfl⟩

end Loops

/-! ## The links -/

namespace Session

section Relinking

variable {x : Relink.Session} {clock : ℕ → ℤ × UInt32} {s : State} {anchor slot : Slot} {i j : ℕ}

/-- One member of a group becomes the first one. -/
theorem join_permissive (hanchor : s.disk.entries.get? anchor = some i)
    (hslot : s.disk.entries.get? slot = some j) (hfree : Relink.Session.Free x s.disk s.counter)
    (path : Bytes) :
    (∀ q, (x.join (permissive clock) anchor s (path, slot)).disk.entries.get? q =
      if q = slot then some i else s.disk.entries.get? q) ∧
    Relink.Session.Free x (x.join (permissive clock) anchor s (path, slot)).disk
      (x.join (permissive clock) anchor s (path, slot)).counter := by
  have hnone : s.disk.entries.get? (x.beside s.counter slot) = none := hfree s.counter le_rfl _
  have hne : slot ≠ x.beside s.counter slot := by
    intro heq
    rw [← heq, hslot] at hnone
    exact absurd hnone (by simp)
  have hget : ∀ q, (x.join (permissive clock) anchor s (path, slot)).disk.entries.get? q =
      if q = slot then some i else s.disk.entries.get? q := by
    intro q
    rw [Relink.Session.join_disk]
    by_cases hsame : s.disk.sameFile anchor slot = true
    · rw [if_pos hsame]
      split_ifs with hq
      · rw [hq, ← hanchor]
        exact (of_decide_eq_true hsame).symm
      · rfl
    · have hrelink := @Relink.Session.relink_granted x (permissive clock) s anchor _ rfl rfl hnone
      rw [if_neg hsame, hrelink.1]
      exact Relink.Session.get?_relinked hanchor hne hnone q
  refine ⟨hget, fun n hn dir => ?_⟩
  have hold := hfree n ((Relink.Session.join_counter _ _ _ _).trans hn) dir
  rw [hget, if_neg, hold]
  intro heq
  rw [heq, hslot] at hold
  exact absurd hold (by simp)

/-- The rest of a group becomes the first of it. -/
theorem joins_permissive {rest : List (Bytes × Slot)}
    (hanchor : s.disk.entries.get? anchor = some i)
    (hrest : ∀ member ∈ rest, ∃ j, s.disk.entries.get? member.2 = some j)
    (hfree : Relink.Session.Free x s.disk s.counter) :
    (∀ q, (rest.foldl (x.join (permissive clock) anchor) s).disk.entries.get? q =
      if q ∈ rest.map Prod.snd then some i else s.disk.entries.get? q) ∧
    Relink.Session.Free x (rest.foldl (x.join (permissive clock) anchor) s).disk
      (rest.foldl (x.join (permissive clock) anchor) s).counter := by
  induction rest generalizing s with
  | nil => exact ⟨fun q => by simp, hfree⟩
  | cons member rest ih =>
    obtain ⟨j, hj⟩ := hrest member List.mem_cons_self
    obtain ⟨hget, hfree'⟩ := join_permissive hanchor hj hfree member.1
    have hanchor' :
        (x.join (permissive clock) anchor s member).disk.entries.get? anchor = some i := by
      rw [hget]
      split_ifs
      · rfl
      · exact hanchor
    have hrest' :
        ∀ m ∈ rest,
          ∃ j, (x.join (permissive clock) anchor s member).disk.entries.get? m.2 = some j := by
      intro m hm
      rw [hget]
      split_ifs
      · exact ⟨i, rfl⟩
      · exact hrest m (List.mem_cons_of_mem _ hm)
    obtain ⟨hlast, hfree''⟩ := ih hanchor' hrest' hfree'
    refine ⟨fun q => ?_, hfree''⟩
    rw [List.foldl_cons, hlast, hget, List.map_cons]
    by_cases hq : q ∈ rest.map Prod.snd
    · rw [if_pos hq, if_pos (List.mem_cons_of_mem _ hq)]
    · rw [if_neg hq]
      by_cases hqm : q = member.2
      · rw [if_pos hqm, if_pos (by rw [hqm]; exact List.mem_cons_self)]
      · rw [if_neg hqm, if_neg fun hmem => (List.mem_cons.mp hmem).elim hqm hq]

/-- **The groups are linked**, each to its first member; the members look alike, and are all
there. -/
theorem restore_permissive {tree : DiskTree} {groups : List (List Slot)}
    (hmembers : ∀ group ∈ groups, x.members tree (group.map Shrink.joinPath) =
      some (group.map fun p => (Shrink.joinPath p, p)))
    (halike : ∀ group ∈ groups, ∀ p ∈ group, ∀ q ∈ group, tree p = tree q)
    (hthere : ∀ group ∈ groups, ∀ p ∈ group, tree p ≠ none)
    (hapart : groups.Pairwise fun group group' => ∀ p ∈ group, p ∉ group')
    (hseen : Relink.timeless s.disk.seen = Relink.timeless tree)
    (hfree : Relink.Session.Free x s.disk s.counter) :
    Relink.timeless (x.restore (permissive clock) s
        (groups.map fun group => group.map Shrink.joinPath)).1.disk.seen = Relink.timeless tree ∧
    (∀ group ∈ groups, ∀ p ∈ group,
      (x.restore (permissive clock) s (groups.map fun group =>
        group.map Shrink.joinPath)).1.disk.entries.get? p =
        s.disk.entries.get? (group.headD p)) ∧
    ∀ q, (∀ group ∈ groups, q ∉ group) →
      (x.restore (permissive clock) s (groups.map fun group =>
        group.map Shrink.joinPath)).1.disk.entries.get? q =
        s.disk.entries.get? q := by
  induction groups generalizing s with
  | nil => exact ⟨hseen, fun group hg => absurd hg List.not_mem_nil, fun _ _ => rfl⟩
  | cons group groups ih =>
    have hmembers' := fun g (hg : g ∈ groups) => hmembers g (List.mem_cons_of_mem _ hg)
    have halike' := fun g (hg : g ∈ groups) => halike g (List.mem_cons_of_mem _ hg)
    have hthere' := fun g (hg : g ∈ groups) => hthere g (List.mem_cons_of_mem _ hg)
    obtain ⟨hgroup, hapart'⟩ := List.pairwise_cons.mp hapart
    have hfound : x.members s.disk.seen (group.map Shrink.joinPath) =
        some (group.map fun p => (Shrink.joinPath p, p)) := by
      rw [← Relink.Session.members_timeless, hseen, Relink.Session.members_timeless,
        hmembers group List.mem_cons_self]
    rw [List.map_cons, Relink.Session.restore, hfound]
    cases group with
    | nil =>
      obtain ⟨htree, hin, hout⟩ := ih hmembers' halike' hthere' hapart' hseen hfree
      refine ⟨htree, fun g hg p hp => ?_, fun q hq => hout q fun g hg =>
        hq g (List.mem_cons_of_mem _ hg)⟩
      rcases List.mem_cons.mp hg with rfl | hg
      · exact absurd hp List.not_mem_nil
      · exact hin g hg p hp
    | cons anchor rest =>
      rw [List.map_cons]
      dsimp only
      have hentry : ∀ p ∈ anchor :: rest, ∃ j, s.disk.entries.get? p = some j := by
        intro p hp
        have hp' : Relink.timeless s.disk.seen p ≠ none := by
          rw [hseen]
          exact fun hnone => hthere _ List.mem_cons_self p hp (Option.map_eq_none_iff.mp hnone)
        obtain ⟨node, hnode⟩ := Option.ne_none_iff_exists'.mp hp'
        obtain ⟨look, hlook, -⟩ := Option.map_eq_some_iff.mp hnode
        obtain ⟨j, hj, -⟩ := Relink.Session.entry_of_seen hlook
        exact ⟨j, hj⟩
      obtain ⟨i, hi⟩ := hentry anchor List.mem_cons_self
      obtain ⟨hget, hfree'⟩ := joins_permissive (x := x) hi
        (fun m (hm : m ∈ rest.map fun p => (Shrink.joinPath p, p)) => by
          obtain ⟨p, hp, rfl⟩ := List.mem_map.mp hm
          exact hentry p (List.mem_cons_of_mem _ hp)) hfree
      have hseen' : Relink.timeless ((rest.map fun p => (Shrink.joinPath p, p)).foldl
          (x.join (permissive clock) anchor) s).disk.seen = Relink.timeless tree := by
        obtain ⟨node, hnode⟩ := Option.ne_none_iff_exists'.mp
          (hthere _ List.mem_cons_self anchor List.mem_cons_self)
        have hfirst : Relink.timeless s.disk.seen anchor = some (Relink.restamp (0, 0) node) := by
          rw [hseen, Relink.timeless, hnode]
          rfl
        refine (Relink.Session.shown_joins (permissive clock) hfirst fun m hm => ?_).trans hseen
        obtain ⟨p, hp, rfl⟩ := List.mem_map.mp hm
        rw [hseen, Relink.timeless,
          halike _ List.mem_cons_self p (List.mem_cons_of_mem _ hp) anchor List.mem_cons_self,
            hnode]
        rfl
      obtain ⟨htree, hin, hout⟩ := ih hmembers' halike' hthere' hapart' hseen' hfree'
      have hsnd : (rest.map fun p => (Shrink.joinPath p, p)).map Prod.snd = rest := by
        rw [List.map_map]
        exact List.map_id rest
      rw [hsnd] at hget
      refine ⟨htree, fun g hg p hp => ?_, fun q hq => ?_⟩
      · rcases List.mem_cons.mp hg with rfl | hg
        · rw [hout p fun g hg => hgroup g hg p hp, hget, List.headD_cons, hi]
          split_ifs with hmem
          · rfl
          · rcases List.mem_cons.mp hp with rfl | hp
            · exact hi
            · exact absurd hp hmem
        · -- The members of a later group are not in this one.
          have hnot : ∀ q ∈ g, q ∉ rest := fun q hq hmem =>
            hgroup g hg q (List.mem_cons_of_mem _ hmem) hq
          rw [hin g hg p hp, hget, if_neg]
          cases g with
          | nil => exact absurd hp List.not_mem_nil
          | cons first others => exact hnot first List.mem_cons_self
      · rw [hout q fun g hg => hq g (List.mem_cons_of_mem _ hg), hget,
          if_neg fun hmem => hq _ List.mem_cons_self (List.mem_cons_of_mem _ hmem)]

end Relinking

section Rewound

variable (x : Session) {now old : Workspace x.limit} {s : Stage} {p q : Slot}

/-- A file of the target is there, as it was. -/
theorem seen_of_applied (h : Applied now.toStage old.toStage s) (hp : old.fileAt p = true) :
    s.disk.seen p = old.disk.seen p := by
  by_cases hlook : now.look p = old.look p
  · obtain ⟨i, hi, hfile⟩ := fileAt_iff.mp hp
    rw [look_of_at hi] at hlook
    obtain ⟨j, hj, hpair⟩ := Option.map_eq_some_iff.mp hlook
    have hnode : now.disk.node j = old.disk.node i := congrArg Prod.fst hpair
    have hat : s.at_ p = some j := by
      rw [h.same p hp (by rw [look_of_at hi, look_of_at hj, hpair]), hj]
    rw [seen_of_at hat, seen_of_at hi,
      h.node j (now.used p j hj) (by rw [hnode]; exact isDir_of_isFile hfile), hnode]
  · obtain ⟨i, hi, hat⟩ := h.file p hp hlook
    rcases h.fresh p i hat hi with ⟨-, hseen⟩ | ⟨hdir, -⟩
    · rw [seen_of_at hat, hseen]
    · rw [not_dirAt_of_fileAt hp] at hdir
      exact absurd hdir (by simp)

/-- An entry describes its file. -/
theorem statMatchesEntry_entryOf {node : DiskNode} (hfile : isFile node = true)
    (hsize : ∀ content mode mtime, node = .file content mode mtime → content.length < 2 ^ 64)
    (name : Bytes) : (entryOf x.ids name node).kind = .File ∧
      Relink.statMatchesEntry node (entryOf x.ids name node) = true := by
  cases node with
  | file content mode mtime =>
    refine ⟨rfl, ?_⟩
    have hlen := hsize content mode mtime rfl
    unfold Relink.statMatchesEntry entryOf
    dsimp only
    rw [decide_eq_true_eq]
    refine ⟨rfl, ?_, rfl⟩
    rw [UInt64.toNat_ofNat', Nat.mod_eq_of_lt hlen]
  | directory mode mtime => exact absurd hfile (by simp [isFile])
  | link target mtime => exact absurd hfile (by simp [isFile])
  | fifo mode mtime => exact absurd hfile (by simp [isFile])

/-- Every file of the target is intact when the links are restored. -/
theorem intact_of_applied (h : Applied now.toStage old.toStage s) (hp : old.fileAt p = true) :
    (x.relinking old.toStage).intact s.disk.seen (Shrink.joinPath p) = some (some p) := by
  obtain ⟨i, hi, hfile⟩ := fileAt_iff.mp hp
  obtain ⟨hne, hlen, hnormal⟩ := old.named p i hi
  obtain ⟨hcomponents, hsplit, -⟩ := Shrink.Session.pathComponents_joinPath hne hnormal
  have hseen := seen_of_applied x h hp
  rw [seen_of_at hi] at hseen
  have hpass : (x.relinking old.toStage).passes (Shrink.joinPath p) = false := rfl
  have hsafe : Relink.safeJoin (Shrink.joinPath p) = true := by
    unfold Relink.safeJoin
    rw [hcomponents, List.all_eq_true]
    intro c hc
    have hn := hnormal c hc
    simp only [normalName, decide_eq_true_eq] at hn ⊢
    exact ⟨fun heq => hn.2.2.2 (by rw [heq]; exact List.mem_singleton_self _), hn.2.1, hn.2.2.1⟩
  have hlookup : (x.relinking old.toStage).lookupTreePath (Shrink.joinPath p) =
      some (some (entryOf x.ids (p.getLastD []) (old.disk.node i))) := by
    unfold relinking
    dsimp only
    rw [hsplit, seen_of_at hi]
    rfl
  have hplace : (x.relinking old.toStage).place s.disk.seen (Shrink.joinPath p) = some p := by
    unfold Relink.Session.place
    rw [hsplit]
    refine resolve_of_dirs hnormal hne hlen (fun r hr hpre hrp => ?_) ?_
    · obtain ⟨j, hj, hdir⟩ := dirAt_iff.mp (h.dir r (old.housed p i hi r hr hpre hrp))
      unfold dirAt
      have hat : s.disk.seen ([] ++ r) = some (s.disk.node j) := seen_of_at hj
      rw [show (x.relinking old.toStage).root = [] from rfl, hat]
      exact hdir
    · rw [show (x.relinking old.toStage).root = [] from rfl, List.nil_append, hseen]
      simp
  obtain ⟨hkind, hmatches⟩ := statMatchesEntry_entryOf x hfile (old.bounded i) (p.getLastD [])
  unfold Relink.Session.intact
  rw [hpass, if_neg (by simp), if_neg (by rw [hsafe]; simp), hlookup]
  dsimp only
  rw [if_neg (by rw [hkind]; simp), hplace]
  dsimp only
  rw [hseen, Option.any_some, hmatches, if_pos rfl]

/-- After the loops, the members of a group are intact. -/
theorem members_of_applied (h : Applied now.toStage old.toStage s) {group : List Slot}
    (hgroup : ∀ p ∈ group, old.fileAt p = true) :
    (x.relinking old.toStage).members s.disk.seen (group.map Shrink.joinPath) =
      some (group.map fun p => (Shrink.joinPath p, p)) := by
  induction group with
  | nil => rfl
  | cons p group ih =>
    rw [List.map_cons, Relink.Session.members, intact_of_applied x h (hgroup p List.mem_cons_self)]
    dsimp only
    rw [ih fun q hq => hgroup q (List.mem_cons_of_mem _ hq)]
    rfl

/-- A file is listed once. -/
theorem nodup_files (w : Stage) : w.files.Nodup := by
  have hkeys : w.disk.entries.keys.Nodup := (OrdMap.keys_sorted _).imp fun h => ne_of_lt h
  exact ((List.perm_insertionSort _ _).nodup_iff.mpr hkeys).filter _

/-- The first of a group is the first of the class of its members. -/
theorem headD_of_mem_groups {group : List Slot} (hgroup : group ∈ old.groups) (hp : p ∈ group) :
    p ∈ old.files ∧ group.headD p = Classes.first old.at_ old.files p := by
  obtain ⟨a, ha, -, hhead, rfl⟩ := Classes.mem_groups.mp hgroup
  obtain ⟨hmem, hlabel⟩ := Classes.mem_ofLabel.mp hp
  refine ⟨hmem, ?_⟩
  rw [List.headD_eq_head?_getD, hhead, Option.getD_some]
  rw [← Classes.first_congr ha hmem hlabel.symm]
  rw [Classes.head?_ofLabel ha] at hhead
  exact (Option.some.inj hhead).symm

/-- **Restoring the links gives every file the object of the first of its links.** -/
theorem relinked_of_applied (h : Applied now.toStage old.toStage s) (counter : ℕ)
    (hfree : Relink.Session.Free (x.relinking old.toStage) old.disk counter) :
    Relink.timeless (x.relinked old.toStage counter s).disk.seen = Relink.timeless s.disk.seen ∧
    (∀ p ∈ old.files, (x.relinked old.toStage counter s).at_ p =
      s.at_ (Classes.first old.at_ old.files p)) := by
  have hfiles : ∀ group ∈ old.groups, ∀ p ∈ group, old.fileAt p = true := fun group hg p hp =>
    mem_files.mp (headD_of_mem_groups x hg hp).1
  have hfree' : Relink.Session.Free (x.relinking old.toStage) s.disk counter := fun n hn dir =>
    h.gone _ (hfree n hn dir)
  have hapart : old.groups.Pairwise fun group group' => ∀ p ∈ group, p ∉ group' :=
    Classes.groups_apart (nodup_files _)
  obtain ⟨hseen, hin, hout⟩ :=
    @restore_permissive (x.relinking old.toStage) x.clock ⟨s.disk, counter, []⟩ _ _ (fun group hg =>
      members_of_applied x h (hfiles group hg))
    (fun group hg p hp q hq => by
      rw [seen_of_applied x h (hfiles group hg p hp), seen_of_applied x h (hfiles group hg q hq)]
      obtain ⟨a, -, -, -, rfl⟩ := Classes.mem_groups.mp hg
      have hat : old.at_ p = old.at_ q :=
        (Classes.mem_ofLabel.mp hp).2.trans (Classes.mem_ofLabel.mp hq).2.symm
      exact congrArg (Option.map old.disk.node) hat)
    (fun group hg p hp => by
      obtain ⟨i, hi, -⟩ := fileAt_iff.mp (hfiles group hg p hp)
      rw [seen_of_applied x h (hfiles group hg p hp), seen_of_at hi]
      simp)
    hapart rfl hfree'
  refine ⟨hseen, fun p hp => ?_⟩
  by_cases hgrouped : ∃ group ∈ old.groups, p ∈ group
  · obtain ⟨group, hg, hmem⟩ := hgrouped
    have hget := hin group hg p hmem
    rw [(headD_of_mem_groups x hg hmem).2] at hget
    exact hget
  · have hself : Classes.first old.at_ old.files p = p := by
      by_contra hne
      have hlabel := Classes.label_first (f := old.at_) hp
      obtain ⟨group, hg, -, hmem⟩ :=
        (Classes.exists_group_iff hne (Classes.first_mem_list hp) hp).mpr hlabel
      exact hgrouped ⟨group, hg, hmem⟩
    rw [hself]
    exact hout p fun group hg hmem => hgrouped ⟨group, hg, hmem⟩

/-- A time makes no file. -/
theorem isFile_restamp (now : ℤ × UInt32) (node : DiskNode) :
    isFile (Relink.restamp now node) = isFile node := by
  cases node <;> rfl

/-- A time makes no directory. -/
theorem isDir_restamp (now : ℤ × UInt32) (node : DiskNode) :
    (Relink.restamp now node).isDir = node.isDir := by
  cases node <;> rfl

/-- A regular file has a content, a mode and a time. -/
theorem exists_of_isFile {node : DiskNode} (h : isFile node = true) :
    ∃ content mode mtime, node = .file content mode mtime := by
  cases node with
  | file content mode mtime => exact ⟨content, mode, mtime, rfl⟩
  | directory _ _ | link _ _ | fifo _ _ => exact absurd h (by simp [isFile])

/-- A file is not restamped. -/
theorem file_of_restamp {node : DiskNode} {content : Bytes} {mode : UInt32} {mtime : ℤ × UInt32}
    (h : Relink.restamp (0, 0) node = .file content mode mtime) :
    node = .file content mode mtime := by
  cases node with
  | file _ _ _ | link _ _ | fifo _ _ => exact h
  | directory _ _ => exact absurd h (by simp [Relink.restamp])

/-- Whether a file is there is seen. -/
theorem fileAt_eq_seen (w : Stage) (p : Slot) :
    w.fileAt p = (Relink.timeless w.disk.seen p).any isFile := by
  unfold Stage.fileAt Stage.at_ Relink.timeless LinkDisk.seen
  cases w.disk.entries.get? p with
  | none => rfl
  | some i => exact (isFile_restamp (0, 0) _).symm

/-- Whether a directory is there is seen. -/
theorem dirAt_eq_seen (w : Stage) (p : Slot) :
    w.dirAt p = (Relink.timeless w.disk.seen p).any DiskNode.isDir := by
  unfold Stage.dirAt Stage.at_ Relink.timeless LinkDisk.seen
  cases w.disk.entries.get? p with
  | none => rfl
  | some i => exact (isDir_restamp (0, 0) _).symm

/-- Whether nothing is there is seen. -/
theorem at_eq_none_iff_seen (w : Stage) (p : Slot) :
    w.at_ p = none ↔ Relink.timeless w.disk.seen p = none := by
  unfold Stage.at_ Relink.timeless LinkDisk.seen
  rw [Option.map_eq_none_iff, Option.map_eq_none_iff]

/-- The directories get their modes and times; no path stands for another object. -/
theorem finish_same (w : Stage) (l : List Slot) (s : Stage) :
    (∀ p, (l.foldl (finishEntry w) s).at_ p = s.at_ p) ∧
      ∀ p, (l.foldl (finishEntry w) s).fileAt p = s.fileAt p := by
  have hmodify : ∀ (s : Stage) (p q : Slot) (f : DiskNode → DiskNode),
      (∀ node, isFile (f node) = isFile node) → (s.modify p f).fileAt q = s.fileAt q := by
    intro s p q f hf
    unfold Stage.fileAt
    rw [at_modify]
    cases s.at_ q with
    | none => rfl
    | some i =>
      rw [Option.any_some, Option.any_some]
      rcases modify_node (s := s) (p := p) f i with heq | ⟨-, heq⟩
      · rw [heq]
      · rw [heq, hf]
  have hstep : ∀ (s : Stage) (p q : Slot), (finishEntry w s p).at_ q = s.at_ q ∧
      (finishEntry w s p).fileAt q = s.fileAt q := by
    intro s p q
    unfold finishEntry
    split
    · unfold Stage.finishDirectory
      rw [at_modify, at_modify, hmodify _ _ _ _ fun node => by cases node <;> rfl,
        hmodify _ _ _ _ fun node => by cases node <;> rfl]
      exact ⟨rfl, rfl⟩
    · exact ⟨rfl, rfl⟩
  induction l generalizing s with
  | nil => exact ⟨fun _ => rfl, fun _ => rfl⟩
  | cons q l ih =>
    obtain ⟨hat, hfile⟩ := ih (finishEntry w s q)
    exact ⟨fun p => (hat p).trans (hstep s q p).1, fun p => (hfile p).trans (hstep s q p).2⟩

/-- Disks with objects at the same paths have the same paths. -/
theorem paths_congr {w w' : Stage} (h : ∀ p, w.at_ p = none ↔ w'.at_ p = none) :
    w.paths = w'.paths := by
  have hkeys : w.disk.entries.keys = w'.disk.entries.keys := by
    refine List.Perm.eq_of_pairwise (fun a b _ _ hab hba => absurd (lt_trans hab hba) (lt_irrefl a))
      (OrdMap.keys_sorted _) (OrdMap.keys_sorted _) ?_
    refine (List.perm_ext_iff_of_nodup ((OrdMap.keys_sorted _).imp fun h => ne_of_lt h)
      ((OrdMap.keys_sorted _).imp fun h => ne_of_lt h)).mpr fun p => ?_
    rw [OrdMap.mem_keys_iff, OrdMap.mem_keys_iff, Option.isSome_iff_ne_none,
      Option.isSome_iff_ne_none]
    exact not_congr (h p)
  unfold Stage.paths
  rw [hkeys]

/-- **After a rewind** the files are those of the target, and each is the object of the first of its
links. -/
theorem rewind_spec (counter : ℕ)
    (hfree : Relink.Session.Free (x.relinking old.toStage) old.disk counter) :
    (x.rewind now.toStage old.toStage counter).files = old.files ∧
    ∀ p ∈ old.files, (x.rewind now.toStage old.toStage counter).at_ p =
      (applyPlan now.toStage old.toStage).at_ (Classes.first old.at_ old.files p) := by
  have happlied : Applied now.toStage old.toStage (applyPlan now.toStage old.toStage) :=
    applied_applyPlan
  obtain ⟨hseen, hat⟩ := relinked_of_applied x happlied counter hfree
  obtain ⟨hatFinish, hfileFinish⟩ :=
    finish_same old.toStage (changedDirs now.toStage old.toStage).reverse
      (x.relinked old.toStage counter (applyPlan now.toStage old.toStage))
  have hnone : ∀ p, (x.rewind now.toStage old.toStage counter).at_ p = none ↔ old.at_ p = none := by
    intro p
    have hsame : (x.relinked old.toStage counter (applyPlan now.toStage old.toStage)).at_ p = none ↔
        (applyPlan now.toStage old.toStage).at_ p = none := by
      rw [at_eq_none_iff_seen, at_eq_none_iff_seen, hseen]
    rw [rewind, hatFinish p, hsame]
    constructor
    · intro hgone
      rcases at_cases old p with hold | hfile | hdir
      · exact hold
      · obtain ⟨i, hi, -⟩ := fileAt_iff.mp hfile
        have hp := seen_of_applied x happlied hfile
        rw [seen_of_at hi] at hp
        obtain ⟨j, hj, -⟩ := Relink.Session.entry_of_seen hp
        exact absurd (show (applyPlan now.toStage old.toStage).at_ p = some j from hj)
          (by rw [hgone]; simp)
      · exact absurd hgone (at_ne_none_of_dirAt (happlied.dir p hdir))
    · exact happlied.gone p
  refine ⟨?_, fun p hp => ?_⟩
  · unfold Stage.files
    rw [paths_congr hnone]
    refine List.filter_congr fun p hp => ?_
    have hfileAt : (x.rewind now.toStage old.toStage counter).fileAt p =
        (applyPlan now.toStage old.toStage).fileAt p := by
      rw [rewind, hfileFinish p, fileAt_eq_seen, fileAt_eq_seen, hseen]
    rw [hfileAt]
    rcases at_cases old p with hold | hfile | hdir
    · exact absurd hold (mem_paths.mp hp)
    · rw [fileAt_eq_seen, Relink.timeless, seen_of_applied x happlied hfile, hfile]
      obtain ⟨i, hi, hisFile⟩ := fileAt_iff.mp hfile
      rw [seen_of_at hi, Option.map_some, Option.any_some, isFile_restamp, hisFile]
    · have hnot := happlied.dir p hdir
      have hfalse : ∀ w : Stage, w.dirAt p = true → w.fileAt p = false := by
        intro w hw
        by_contra htrue
        rw [not_dirAt_of_fileAt (by simpa using htrue)] at hw
        exact absurd hw (by simp)
      rw [hfalse _ hnot, hfalse _ hdir]
  · rw [rewind, hatFinish p, hat p hp]

/-- The groups are told by their texts. -/
theorem hardlinks_eq_iff {v : Stage} (hfiles : v.files = old.files) :
    v.hardlinks = old.hardlinks ↔ v.groups = old.groups := by
  refine ⟨fun h => ?_, fun h => by unfold Stage.hardlinks; rw [h]⟩
  have hback : ∀ u : Stage, u.files = old.files →
      u.hardlinks.map (fun group => group.map fun path => path.splitOn slash) = u.groups := by
    intro u hu
    unfold Stage.hardlinks
    rw [List.map_map]
    refine (List.map_congr_left fun group hgroup => ?_).trans (List.map_id _)
    rw [Function.comp_apply, List.map_map, id]
    refine (List.map_congr_left fun p hp => ?_).trans (List.map_id _)
    obtain ⟨a, -, -, -, rfl⟩ := Classes.mem_groups.mp hgroup
    have hmem := (Classes.mem_ofLabel.mp hp).1
    rw [hu] at hmem
    obtain ⟨i, hi, -⟩ := fileAt_iff.mp (mem_files.mp hmem)
    obtain ⟨hne, -, hnormal⟩ := old.named p i hi
    exact (Shrink.Session.pathComponents_joinPath hne hnormal).2.1
  rw [← hback v hfiles, h, hback _ rfl]

end Rewound

/-- **A rewind restores the links of the snapshot exactly if no two files that it leaves alone, and
that the snapshot does not link, are linked now.** -/
theorem hardlinks_rewind_iff (x : Session) (now old : Workspace x.limit) (counter : ℕ)
    (hfree : Relink.Session.Free (x.relinking old.toStage) old.disk counter) :
    (x.rewind now.toStage old.toStage counter).hardlinks = old.hardlinks ↔
      Apart now.toStage old.toStage := by
  obtain ⟨hfiles, hat⟩ := @rewind_spec x now old counter hfree
  have happlied : Applied now.toStage old.toStage (applyPlan now.toStage old.toStage) :=
    applied_applyPlan
  rw [hardlinks_eq_iff x hfiles]
  have hgroups : (x.rewind now.toStage old.toStage counter).groups =
      Classes.groups (x.rewind now.toStage old.toStage counter).at_ old.files := by
    unfold Stage.groups
    rw [hfiles]
  have hlabel : ∀ p ∈ old.files, (x.rewind now.toStage old.toStage counter).at_ p =
      (x.rewind now.toStage old.toStage counter).at_ (Classes.first old.at_ old.files p) := by
    intro p hp
    rw [hat p hp, hat _ (Classes.first_mem_list hp), Classes.first_first hp]
  rw [hgroups]
  refine (Classes.joined_iff hlabel).trans ?_
  constructor
  · intro h p hp q hq hfirst hfirst' hlook hlook' hnow
    refine h p hp q hq hfirst hfirst' ?_
    rw [hat p hp, hat q hq, hfirst, hfirst', happlied.same p (mem_files.mp hp) hlook,
      happlied.same q (mem_files.mp hq) hlook', hnow]
  · intro h p hp q hq hfirst hfirst' hsame
    rw [hat p hp, hat q hq, hfirst, hfirst'] at hsame
    by_cases hlook : now.look p = old.look p
    · by_cases hlook' : now.look q = old.look q
      · refine h p hp q hq hfirst hfirst' hlook hlook' ?_
        rw [← happlied.same p (mem_files.mp hp) hlook,
          ← happlied.same q (mem_files.mp hq) hlook', hsame]
      · obtain ⟨i, hi, hi'⟩ := happlied.file q (mem_files.mp hq) hlook'
        exact happlied.alone p q i hi (hsame.trans hi') hi'
    · obtain ⟨i, hi, hi'⟩ := happlied.file p (mem_files.mp hp) hlook
      exact happlied.alone p q i hi hi' (hsame.symm.trans hi')

/-! ## What a rewind reaches, and what it spares -/

section Reached

variable (x : Session) {now old : Workspace x.limit} {s : Stage} {p : Slot}

/-- The members of a group of the target look alike, so that restoring the links shows no other
file. -/
theorem seen_relinked (h : Applied now.toStage old.toStage s) (counter : ℕ) :
    Relink.timeless (x.relinked old.toStage counter s).disk.seen = Relink.timeless s.disk.seen := by
  refine Relink.Session.shown_restore (permissive x.clock) (s := ⟨s.disk, counter, []⟩) ?_
  intro group hgroup first rest hmembers member hmember
  have hgroup' := List.takeWhile_subset _ hgroup
  obtain ⟨slots, hslots, rfl⟩ := List.mem_map.mp hgroup'
  have hfiles : ∀ p ∈ slots, old.fileAt p = true := fun p hp =>
    mem_files.mp (headD_of_mem_groups x hslots hp).1
  rw [members_of_applied x h hfiles] at hmembers
  have hlist := Option.some.inj hmembers
  have hmem : ∀ m ∈ first :: rest, ∃ p ∈ slots, m.2 = p := by
    intro m hm
    rw [← hlist] at hm
    obtain ⟨p, hp, rfl⟩ := List.mem_map.mp hm
    exact ⟨p, hp, rfl⟩
  obtain ⟨p, hp, hfirst⟩ := hmem first List.mem_cons_self
  obtain ⟨q, hq, hother⟩ := hmem member (List.mem_cons_of_mem _ hmember)
  rw [hfirst, hother, seen_of_applied x h (hfiles p hp), seen_of_applied x h (hfiles q hq)]
  obtain ⟨a, -, -, -, rfl⟩ := Classes.mem_groups.mp hslots
  have hat : old.at_ q = old.at_ p :=
    (Classes.mem_ofLabel.mp hq).2.trans (Classes.mem_ofLabel.mp hp).2.symm
  exact congrArg (Option.map old.disk.node) hat

/-- Restoring links changes no object, but for the times of directories. -/
theorem node_restore (y : Relink.Session) (k : Relink.Refusals) (s : State)
    (groups : List (List Bytes)) (i : ℕ) :
    Relink.restamp (0, 0) ((y.restore k s groups).1.disk.node i) = Relink.restamp (0, 0)
      (s.disk.node i) := by
  have hstamp : ∀ (d : LinkDisk) (now : ℤ × UInt32) (p : Slot),
      Relink.restamp (0, 0) ((d.stamp now p).node i) = Relink.restamp (0, 0) (d.node i) :=
        fun d now p =>
    (Relink.Session.stamped_stamp d now p).2 i
  have hunlink : ∀ (d : LinkDisk) (p : Slot), (d.unlink p).node = d.node := fun _ _ => rfl
  have hrelink : ∀ (s : State) (anchor slot : Slot),
      Relink.restamp (0, 0) ((y.relink k s anchor slot).1.disk.node i) =
        Relink.restamp (0, 0) (s.disk.node i) := by
    intro s anchor slot
    unfold Relink.Session.relink
    dsimp only
    split
    · rfl
    · rename_i linked hlinked
      have hnode :
          Relink.restamp (0, 0) (linked.node i) = Relink.restamp (0, 0) (s.disk.node i) := by
        unfold Relink.hardLink at hlinked
        split_ifs at hlinked
        rw [← Option.some.inj hlinked, hstamp, Relink.Session.link_node]
      split
      · rw [Relink.removeFile, hstamp, hunlink, hnode]
      · rename_i renamed hrenamed
        unfold Relink.rename at hrenamed
        split_ifs at hrenamed
        rw [← Option.some.inj hrenamed, hstamp, hstamp, hunlink, Relink.Session.link_node, hnode]
  have hjoin : ∀ (anchor : Slot) (s : State) (m : Bytes × Slot),
      Relink.restamp (0, 0) ((y.join k anchor s m).disk.node i) =
        Relink.restamp (0, 0) (s.disk.node i) := by
    intro anchor s m
    rw [Relink.Session.join_disk]
    split_ifs
    · rfl
    · exact hrelink s anchor m.2
  have hjoins : ∀ (anchor : Slot) (rest : List (Bytes × Slot)) (s : State),
      Relink.restamp (0, 0) ((rest.foldl (y.join k anchor) s).disk.node i) =
        Relink.restamp (0, 0) (s.disk.node i) := by
    intro anchor rest
    induction rest with
    | nil => exact fun _ => rfl
    | cons m rest ih => exact fun s => (ih _).trans (hjoin anchor s m)
  induction groups generalizing s with
  | nil => rfl
  | cons group groups ih =>
    rw [Relink.Session.restore]
    split
    · rfl
    · exact ih s
    · rename_i anchor rest _
      exact (ih _).trans (hjoins anchor.2 rest s)

/-- The directories of the target get their modes and times one after the other: what is seen of its
files, and the objects that are no directories, stay as they are. -/
theorem finish_spares {l : List Slot} (hl : ∀ p ∈ l, old.dirAt p = true)
    (hdirs : ∀ p, old.dirAt p = true → s.dirAt p = true) :
    (∀ p, old.dirAt p = true → (l.foldl (finishEntry old.toStage) s).dirAt p = true) ∧
      ∀ i, (s.disk.node i).isDir = false →
      (l.foldl (finishEntry old.toStage) s).disk.node i = s.disk.node i := by
  have hmodify :
      ∀ (s : Stage) (p : Slot) (f : DiskNode → DiskNode), (∀ node, (f node).isDir = node.isDir) →
        s.dirAt p = true → (∀ q, (s.modify p f).dirAt q = s.dirAt q) ∧
          ∀ i, (s.disk.node i).isDir = false → (s.modify p f).disk.node i = s.disk.node i := by
    intro s p f hf hdir
    refine ⟨fun q => ?_, fun i hi => ?_⟩
    · unfold Stage.dirAt
      rw [at_modify]
      cases s.at_ q with
      | none => rfl
      | some i =>
        rw [Option.any_some, Option.any_some]
        rcases modify_node (s := s) (p := p) f i with heq | ⟨-, heq⟩
        · rw [heq]
        · rw [heq, hf]
    · rcases modify_node (s := s) (p := p) f i with heq | ⟨hat, -⟩
      · exact heq
      · obtain ⟨j, hj, hjdir⟩ := dirAt_iff.mp hdir
        rw [hat] at hj
        rw [← Option.some.inj hj, hi] at hjdir
        exact absurd hjdir (by simp)
  induction l generalizing s with
  | nil => exact ⟨hdirs, fun _ _ => rfl⟩
  | cons p l ih =>
    have hp := hdirs p (hl p List.mem_cons_self)
    have hstep : (∀ q, (finishEntry old.toStage s p).dirAt q = s.dirAt q) ∧
        ∀ i, (s.disk.node i).isDir = false →
          (finishEntry old.toStage s p).disk.node i = s.disk.node i := by
      unfold finishEntry
      split
      · rename_i mode mtime xattrs _
        unfold Stage.finishDirectory
        obtain ⟨hdir₁, hnode₁⟩ :=
          hmodify s p (DiskNode.setMode mode) (fun node => by cases node <;> rfl) hp
        obtain ⟨hdir₂, hnode₂⟩ :=
          hmodify (s.modify p (DiskNode.setMode mode)) p (DiskNode.setMtime mtime) (fun node =>
            by cases node <;> rfl) (by rw [hdir₁, hp])
        refine ⟨fun q => (hdir₂ q).trans (hdir₁ q), fun i hi => ?_⟩
        rw [hnode₂ i (by rw [hnode₁ i hi, hi]), hnode₁ i hi]
      · exact ⟨fun _ => rfl, fun _ _ => rfl⟩
    obtain ⟨hlast, hnodes⟩ :=
      ih (s :=
        finishEntry old.toStage s p) (fun q hq => hl q (List.mem_cons_of_mem _ hq)) fun q hq =>
        (hstep.1 q).trans (hdirs q hq)
    refine ⟨hlast, fun i hi => ?_⟩
    rw [List.foldl_cons, hnodes i (by rw [hstep.2 i hi, hi]), hstep.2 i hi]

/-- The stages of a rewind, up to the last loop. -/
theorem dirs_relinked (counter : ℕ) (hp : old.dirAt p = true) :
    (x.relinked old.toStage counter (applyPlan now.toStage old.toStage)).dirAt p = true := by
  have happlied : Applied now.toStage old.toStage (applyPlan now.toStage old.toStage) :=
    applied_applyPlan
  rw [dirAt_eq_seen, seen_relinked x happlied counter, ← dirAt_eq_seen]
  exact happlied.dir p hp

end Reached

/-- **A rewind reaches its target**, whatever is linked now: the paths are those of the target, its
directories are directories, and its files have their content, mode and time. -/
theorem rewind_reaches (x : Session) (now old : Workspace x.limit) (counter : ℕ) :
    (∀ p, (x.rewind now.toStage old.toStage counter).at_ p = none ↔ old.at_ p = none) ∧
    (∀ p, old.dirAt p = true → (x.rewind now.toStage old.toStage counter).dirAt p = true) ∧
    ∀ p, old.fileAt p = true →
    (x.rewind now.toStage old.toStage counter).disk.seen p = old.disk.seen p := by
  have happlied : Applied now.toStage old.toStage (applyPlan now.toStage old.toStage) :=
    applied_applyPlan
  have hseen := seen_relinked x happlied counter
  have hlist : ∀ p ∈ (changedDirs now.toStage old.toStage).reverse, old.dirAt p = true :=
    fun p hp =>
    (List.mem_filter.mp (List.mem_reverse.mp hp)).2
  obtain ⟨hdirs, hnodes⟩ :=
    finish_spares x (s := x.relinked old.toStage counter (applyPlan now.toStage old.toStage))
      hlist fun p hp => dirs_relinked x counter hp
  obtain ⟨hat, -⟩ := finish_same old.toStage (changedDirs now.toStage old.toStage).reverse
    (x.relinked old.toStage counter (applyPlan now.toStage old.toStage))
  have hfile : ∀ p, old.fileAt p = true →
      (x.rewind now.toStage old.toStage counter).disk.seen p = old.disk.seen p := by
    intro p hp
    obtain ⟨i, hi, hisFile⟩ := fileAt_iff.mp hp
    obtain ⟨content, mode, mtime, hnodeI⟩ := exists_of_isFile hisFile
    have happliedSeen := seen_of_applied x happlied hp
    rw [seen_of_at hi, hnodeI] at happliedSeen
    rw [seen_of_at hi, hnodeI]
    obtain ⟨j, hj, hnode⟩ :=
      Relink.Session.entry_of_seen (Relink.Session.file_of_timeless hseen happliedSeen)
    have hthere : (x.rewind now.toStage old.toStage counter).at_ p = some j := (hat p).trans hj
    rw [seen_of_at hthere, rewind, hnodes j (by rw [hnode]; rfl), hnode]
  refine ⟨fun p => ?_, fun p hp => hdirs p hp, hfile⟩
  constructor
  · intro hnone
    rcases at_cases old p with hold | hisFile | hisDir
    · exact hold
    · obtain ⟨i, hi, -⟩ := fileAt_iff.mp hisFile
      have hp := hfile p hisFile
      rw [seen_of_at hi] at hp
      obtain ⟨j, hj, -⟩ := Relink.Session.entry_of_seen hp
      exact absurd (show (x.rewind now.toStage old.toStage counter).at_ p = some j from hj)
        (by rw [hnone]; simp)
    · exact absurd hnone (at_ne_none_of_dirAt (hdirs p hisDir))
  · intro hold
    rw [rewind, hat p, at_eq_none_iff_seen, hseen, ← at_eq_none_iff_seen]
    exact happlied.gone p hold

/-- **A rewind writes through no file that is there**: one that has another name elsewhere, outside
of the workspace too, keeps its content, mode and time. -/
theorem rewind_spares_objects (x : Session) (now old : Workspace x.limit) (counter i : ℕ)
    (hi : i < now.next) (hfile : isFile (now.disk.node i) = true) :
    (x.rewind now.toStage old.toStage counter).disk.node i = now.disk.node i := by
  have happlied : Applied now.toStage old.toStage (applyPlan now.toStage old.toStage) :=
    applied_applyPlan
  have hlist : ∀ p ∈ (changedDirs now.toStage old.toStage).reverse, old.dirAt p = true :=
    fun p hp =>
    (List.mem_filter.mp (List.mem_reverse.mp hp)).2
  obtain ⟨-, hnodes⟩ :=
    finish_spares x (s := x.relinked old.toStage counter (applyPlan now.toStage old.toStage))
      hlist fun p hp => dirs_relinked x counter hp
  have hnode : (x.relinked old.toStage counter (applyPlan now.toStage old.toStage)).disk.node i =
      now.disk.node i := by
    have happliedNode := happlied.node i hi (isDir_of_isFile hfile)
    have hsame := node_restore (x.relinking old.toStage) (permissive x.clock)
      ⟨(applyPlan now.toStage old.toStage).disk, counter, []⟩ old.hardlinks i
    obtain ⟨content, mode, mtime, hnodeI⟩ := exists_of_isFile hfile
    rw [happliedNode, hnodeI] at hsame
    unfold relinked
    rw [hnodeI]
    exact file_of_restamp hsame
  rw [rewind, hnodes i (by rw [hnode]; exact isDir_of_isFile hfile), hnode]

/-- Two paths of equal files, which may be one. -/
def sampleStage (second : ℕ) : Stage where
  disk :=
    ⟨(OrdMap.empty.insert [text "a"] 0).insert [text "b"] second, fun _ => .file [1] 420 (7, 0)⟩
  xattrs := fun _ => []
  next := 2

/-- The two entries of the sample. -/
theorem get?_sampleStage {second : ℕ} {p : Slot} {i : ℕ}
    (h : (sampleStage second).disk.entries.get? p = some i) :
    p = [text "a"] ∧ i = 0 ∨ p = [text "b"] ∧ i = second := by
  unfold sampleStage at h
  dsimp only at h
  rw [OrdMap.get?_insert, OrdMap.get?_insert] at h
  split_ifs at h with hb ha
  · exact Or.inr ⟨hb, (Option.some.inj h).symm⟩
  · exact Or.inl ⟨ha, (Option.some.inj h).symm⟩
  · rw [OrdMap.get?_empty] at h
    exact absurd h (by simp)

/-- Two files, which are one object or two. -/
def sample (second : ℕ) (h : second < 2) : Workspace 40 where
  toStage := sampleStage second
  used := by
    intro p i hp
    rcases get?_sampleStage hp with ⟨-, rfl⟩ | ⟨-, rfl⟩
    · exact Nat.zero_lt_two
    · exact h
  plain := fun _ _ _ => Or.inl rfl
  named := by
    intro p i hp
    rcases get?_sampleStage hp with ⟨rfl, -⟩ | ⟨rfl, -⟩ <;> decide
  housed := by
    intro p i hp q hq hpre hqp
    have hone : p.length = 1 := by
      rcases get?_sampleStage hp with ⟨rfl, -⟩ | ⟨rfl, -⟩ <;> rfl
    have hlen := List.length_pos_of_ne_nil hq
    exact absurd (hpre.eq_of_length_le (by omega)) hqp
  bounded := by
    intro i content mode mtime heq
    have hcontent : [1] = content := (DiskNode.file.inj heq).1
    rw [← hcontent]
    decide

/-- Contents named by their hash, and temporary names of tildes. -/
def sampleSession : Session where
  limit := 40
  ids := fun _ => ⟨List.replicate 32 0, by decide⟩
  clock := fun n => (n, 0)
  tempName := fun n => List.replicate (n + 1) 126
  tempName_injective := Relink.Session.tildes_injective

/-- No temporary name is taken in the sample. -/
theorem free_sample : Relink.Session.Free (sampleSession.relinking (sampleStage 0))
    (sampleStage 0).disk 0 := by
  intro n _ dir
  by_contra hsome
  obtain ⟨i, hi⟩ := Option.ne_none_iff_exists'.mp hsome
  have hname : sampleSession.tempName n = text "a" ∨ sampleSession.tempName n = text "b" := by
    rcases get?_sampleStage hi with ⟨heq, -⟩ | ⟨heq, -⟩
    · left
      have hlast := congrArg List.getLast? heq
      rw [List.getLast?_concat] at hlast
      exact Option.some.inj hlast
    · right
      have hlast := congrArg List.getLast? heq
      rw [List.getLast?_concat] at hlast
      exact Option.some.inj hlast
  have hhead : (sampleSession.tempName n).head? = some 126 := rfl
  rcases hname with heq | heq
  · rw [heq] at hhead
    exact absurd hhead (by decide)
  · rw [heq] at hhead
    exact absurd hhead (by decide)

/-- The two files of the sample are apart. -/
theorem apart_sample : Apart (sampleStage 1) (sampleStage 0) := by
  have hat : ∀ p ∈ (sampleStage 0).files, (sampleStage 0).at_ p = some 0 := by
    intro p hp
    obtain ⟨i, hi, -⟩ := fileAt_iff.mp (mem_files.mp hp)
    rcases get?_sampleStage hi with ⟨-, rfl⟩ | ⟨-, rfl⟩ <;> exact hi
  intro p hp q hq hfirst hfirst' _ _ _
  rw [← hfirst, ← hfirst']
  exact Classes.first_congr hp hq ((hat p hp).trans (hat q hq).symm)

/-- Two files that were one become one again. -/
theorem hardlinks_rewind_sample :
    (sampleSession.rewind (sampleStage 1) (sampleStage 0) 0).hardlinks =
    (sampleStage 0).hardlinks :=
  (hardlinks_rewind_iff sampleSession (sample 1 (by decide)) (sample 0 (by decide))
    0 free_sample).mpr apart_sample

/-- A file that is two keeps what it holds. -/
theorem rewind_spares_objects_sample :
    (sampleSession.rewind (sampleStage 0) (sampleStage 1) 0).disk.node 0 = .file [1] 420 (7, 0) :=
  rewind_spares_objects sampleSession (sample 0 (by decide)) (sample 1 (by decide)) 0 0 (by decide)
    rfl

/-- Two files that have become one stay one. -/
theorem rewind_leaves_links :
    (sample 1 (by decide)).hardlinks = [] ∧
    (sampleSession.rewind (sample 0 (by decide)).toStage (sample 1 (by decide)).toStage 0).hardlinks
      =
      [[text "a", text "b"]] := by
  decide

end Session

end Links

end Furrow
