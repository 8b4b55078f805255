import Mathlib
import Furrow.Lib.Stems
import Furrow.Shrink

set_option relaxedAutoImplicit false
set_option autoImplicit false

/-!
# A rewind, call by call

`apply_plan_at` as the calls of the system that it makes, and the disk after each of them:
directories are made and prepared, files are written under new names and renamed, what is left over
is removed from below, and directories get their modes and times.  Making, renaming and removing
moves the time of the directory.

There are regular files and directories only, without hard links; directories have no extended
attributes; nothing is excluded, and the whole workspace is rewound.  The process is one that mode
bits do not hold back: the system refuses what is in the way of a call, and attributes that it does
not take, which a restore passes over.  `Furrow.Agreement` compares this model with the others.

## Main definitions

* `Furrow.isSystemManaged` — the attributes that are neither captured nor restored.
* `Furrow.Crash.Disk` — entries by their paths.
* `Furrow.Crash.Call`, `Furrow.Crash.Disk.call` — what one call of the system does.
* `Furrow.Crash.script` — the calls of steps that look at what is there.
* `Furrow.Crash.rewindCalls` — the calls of a rewind.

## Main results

* `Furrow.Crash.Sound.halt` — every entry is in a directory, wherever the calls stop.
* `Furrow.Crash.makeDirectory_spec`, `Furrow.Crash.writeFile_spec`, `Furrow.Crash.removePath_spec`,
  `Furrow.Crash.finishDirectory_spec` — what the steps do.
-/

namespace Furrow

/-! ## Attributes -/

/-- `MANAGED_NAMES` -/
def managedNames : List Bytes :=
  [text "com.apple.provenance", text "com.apple.quarantine", text "com.apple.macl",
    text "com.apple.lastuseddate#PS"]

/-- `MANAGED_PREFIXES` -/
def managedPrefixes : List Bytes := [text "com.apple.metadata:", text "com.apple.diskimages."]

/-- An attribute that the system keeps for itself (`is_system_managed`). -/
def isSystemManaged (name : Bytes) : Bool :=
  name ∈ managedNames || managedPrefixes.any fun family => family.isPrefixOf name

/-- `restorable_xattrs`; a capture leaves out the same attributes. -/
def restorableXattrs (xattrs : OrdMap Bytes Bytes) : OrdMap Bytes Bytes :=
  xattrs.filter fun name _ => !isSystemManaged name

namespace Crash

/-- The names that lead to an object. -/
abbrev Slot := List Bytes

/-- Seconds and nanoseconds. -/
abbrev Time := ℤ × UInt32

/-- A file or a directory. -/
inductive Node
  | file (content : Bytes) (mode : UInt32) (mtime : Time) (xattrs : OrdMap Bytes Bytes)
  | directory (mode : UInt32) (mtime : Time)
deriving DecidableEq

namespace Node

/-- Whether it is a directory. -/
def isDir : Node → Bool
  | file _ _ _ _ => false
  | directory _ _ => true

/-- Give it a mode. -/
def setMode (mode : UInt32) : Node → Node
  | file content _ mtime xattrs => file content mode mtime xattrs
  | directory _ mtime => directory mode mtime

/-- Give it a time. -/
def setMtime (mtime : Time) : Node → Node
  | file content mode _ xattrs => file content mode mtime xattrs
  | directory mode _ => directory mode mtime

/-- Write at the end of a file. -/
def append (bytes : Bytes) : Node → Node
  | file content mode mtime xattrs => file (content ++ bytes) mode mtime xattrs
  | directory mode mtime => directory mode mtime

/-- Set an attribute of a file. -/
def setXattr (name value : Bytes) : Node → Node
  | file content mode mtime xattrs => file content mode mtime (xattrs.insert name value)
  | directory mode mtime => directory mode mtime

/-- What a capture records of it. -/
def captured : Node → Node
  | file content mode mtime xattrs => file content mode mtime (restorableXattrs xattrs)
  | directory mode mtime => directory mode mtime

/-- All but its attributes. -/
def plain : Node → Node
  | file content mode mtime _ => file content mode mtime OrdMap.empty
  | directory mode mtime => directory mode mtime

end Node

/-- What is there, and how many changes there have been. -/
structure Disk where
  entries : OrdMap Slot Node
  changes : ℕ

/-- The clock; the attributes that the system takes; the names of temporary files, which are new in
their directory; and the chunks of a content. -/
structure Host where
  clock : ℕ → Time
  takes : Bytes → Bytes → Bool
  tempName : List Bytes → Bytes
  tempName_new : ∀ names, tempName names ∉ names
  chunks : Bytes → List Bytes
  chunks_flatten : ∀ content, (chunks content).flatten = content

/-- What can be restored of a file or a directory. -/
def Node.kept (h : Host) : Node → Node
  | .file content mode mtime xattrs =>
    .file content mode mtime ((restorableXattrs xattrs).filter h.takes)
  | .directory mode mtime => .directory mode mtime

namespace Disk

variable (d : Disk)

/-- What is at a path. -/
def at_ (p : Slot) : Option Node := d.entries.get? p

/-- A directory is at a path. -/
def dirAt (p : Slot) : Bool := (d.at_ p).any Node.isDir

/-- A file is at a path. -/
def fileAt (p : Slot) : Bool := (d.at_ p).any fun node => !node.isDir

/-- The directory of a path is there. -/
def housed (p : Slot) : Bool := p ≠ [] && (p.dropLast = [] || d.dirAt p.dropLast)

/-- All paths, in their bytewise order. -/
def paths : List Slot := d.entries.keys.insertionSort fun p q =>
    Shrink.joinPath p ≤ Shrink.joinPath q

/-- The names in a directory. -/
def namesIn (dir : Slot) : List Bytes :=
  (d.entries.keys.filter fun p => p.dropLast = dir).map fun p => p.getLastD []

/-! ## Calls -/

/-- Put an entry at a path. -/
def put (p : Slot) (node : Node) : Disk := { d with entries := d.entries.insert p node }

/-- Take the entry away from a path. -/
def erase (p : Slot) : Disk := { d with entries := d.entries.erase p }

/-- Change the entry at a path. -/
def adjust (p : Slot) (f : Node → Node) : Disk :=
  match d.at_ p with
  | some node => d.put p (f node)
  | none => d

/-- The directory of a path gets the time of a change, which has been made. -/
def changed (h : Host) (p : Slot) : Disk :=
  { d.adjust p.dropLast (Node.setMtime (h.clock d.changes)) with changes := d.changes + 1 }

end Disk

/-- A call of the system. -/
inductive Call
  | mkdir (p : Slot)
  | create (p : Slot)
  | write (p : Slot) (bytes : Bytes)
  | setXattr (p : Slot) (name value : Bytes)
  | chmod (p : Slot) (mode : UInt32)
  | utimes (p : Slot) (mtime : Time)
  | rename (p q : Slot)
  | unlink (p : Slot)
  | rmdir (p : Slot)
deriving DecidableEq

namespace Disk

variable (h : Host) (d : Disk)

/-- What a call does; it fails if something is in its way. -/
def call : Call → Option Disk
  | .mkdir p =>
    if d.housed p ∧ d.at_ p = none then
      some ((d.put p (.directory 493 (h.clock d.changes))).changed h p) else none
  | .create p =>
    if d.housed p ∧ d.at_ p = none then
      some ((d.put p (.file [] 384 (h.clock d.changes) OrdMap.empty)).changed h p)
    else none
  | .write p bytes =>
    if d.fileAt p then
      some { d.adjust p (Node.setMtime (h.clock d.changes) ∘ Node.append bytes) with
        changes := d.changes + 1 }
    else none
  | .setXattr p name value =>
    if d.fileAt p ∧ h.takes name value then some (d.adjust p (Node.setXattr name value)) else none
  | .chmod p mode => if (d.at_ p).isSome then some (d.adjust p (Node.setMode mode)) else none
  | .utimes p mtime => if (d.at_ p).isSome then some (d.adjust p (Node.setMtime mtime)) else none
  | .rename p q =>
    match d.at_ p with
    | some (.file content mode mtime xattrs) =>
      if d.housed q ∧ d.dirAt q = false then
        some ((((d.erase p).put q (.file content mode mtime xattrs)).changed h p).changed h q)
      else none
    | _ => none
  | .unlink p => if d.fileAt p then some ((d.erase p).changed h p) else none
  | .rmdir p =>
    if d.dirAt p ∧ ∀ q ∈ d.entries.keys, p.isPrefixOf q → q = p then some ((d.erase p).changed h p)
      else none

/-- Calls one after the other. -/
def run (calls : List Call) : Option Disk := calls.foldlM (call h) d

/-- As far as they go. -/
def halt : Disk → List Call → Disk
  | d, [] => d
  | d, c :: calls =>
    match d.call h c with
    | some d' => halt d' calls
    | none => d

end Disk

/-- The calls of a step depend on what is there. -/
abbrev Step := Disk → List Call

/-- The calls of steps one after the other; after a call that fails there are no more. -/
def script (h : Host) : Disk → List Step → List Call
  | _, [] => []
  | d, step :: steps =>
    step d ++
      match d.run h (step d) with
      | some d' => script h d' steps
      | none => []

/-! ## A rewind -/

/-- `remove_path`: a directory with all that is in it. -/
def removePath (p : Slot) : Step := fun d =>
  (d.entries.keys.filter fun q => p.isPrefixOf q).reverse.map fun q =>
    if d.dirAt q then .rmdir q else .unlink q

/-- `create_dir_all` -/
def createDirAll (p : Slot) : Step := fun d =>
  (p.inits.filter fun q => q ≠ [] ∧ d.at_ q = none).map .mkdir

section Plan

variable (h : Host) (now target : Disk)

/-- Whether the entry of a path that a capture records is another than that of the target, or one of
something in it (`diff_directory`). -/
def changed (p : Slot) : Bool :=
  (now.paths ++ target.paths).any fun q =>
    p.isPrefixOf q && decide ((now.at_ q).map Node.captured ≠ target.at_ q)

/-- The directories of the target that have changed. -/
def changedDirs : List Slot := target.paths.filter fun p => changed now target p && target.dirAt p

/-- The files of the target that have changed. -/
def changedFiles : List Slot := target.paths.filter fun p => changed now target p && target.fileAt p

/-- The paths to be removed, longest first. -/
def removals : List Slot :=
  (now.paths.filter fun p => (target.at_ p).isNone).insertionSort fun p q =>
    (Shrink.joinPath q).length ≤ (Shrink.joinPath p).length

/-- The first loop, for one directory (`prepare_directory`). -/
def makeDirectory (p : Slot) : List Step :=
  match target.at_ p with
  | some (.directory mode _) =>
    [fun d => if d.fileAt p then removePath p d else [], createDirAll p, fun _ =>
      [.chmod p (mode ||| 448)]]
  | _ => []

/-- The attributes of a file are set one by one; those that the system refuses are passed over. -/
def setXattrs (temp : Slot) (xattrs : OrdMap Bytes Bytes) : List Call :=
  ((restorableXattrs xattrs).toList.filter fun x => h.takes x.1 x.2).map fun x =>
    .setXattr temp x.1 x.2

/-- `restore_file` -/
def restoreFile (p : Slot) (content : Bytes) (mode : UInt32) (mtime : Time)
    (xattrs : OrdMap Bytes Bytes) : Step :=
  fun d =>
    let temp := p.dropLast ++ [h.tempName (d.namesIn p.dropLast)]
    .create temp :: ((h.chunks content).map (.write temp) ++ .chmod temp mode ::
      (setXattrs h temp xattrs ++ [.rename temp p, .utimes p mtime]))

/-- The second loop, for one file. -/
def writeFile (p : Slot) : List Step :=
  match target.at_ p with
  | some (.file content mode mtime xattrs) =>
    [createDirAll p.dropLast, fun d => if d.dirAt p then removePath p d else [],
      restoreFile h p content mode mtime xattrs]
  | _ => []

/-- The last loop, for one directory. -/
def finishDirectory (p : Slot) : List Step :=
  match target.at_ p with
  | some (.directory mode mtime) => [fun _ => [.chmod p mode, .utimes p mtime]]
  | _ => []

/-- The steps of a plan (`apply_plan_at`). -/
def steps : List Step :=
  (changedDirs now target).flatMap (makeDirectory target) ++
    ((changedFiles now target).flatMap (writeFile h target) ++
      ((removals now target).map removePath ++ (changedDirs now target).reverse.flatMap
        (finishDirectory target)))

/-- The calls of a rewind. -/
def rewindCalls : List Call := script h now (steps h now target)

end Plan

/-! ## What calls do -/

namespace Node

/-- A mode makes no directory. -/
@[simp] theorem isDir_setMode (mode : UInt32) (node : Node) :
    (node.setMode mode).isDir = node.isDir := by
  cases node <;> rfl

/-- A time makes no directory. -/
@[simp] theorem isDir_setMtime (mtime : Time) (node : Node) :
    (node.setMtime mtime).isDir = node.isDir := by
  cases node <;> rfl

/-- Writing makes no directory. -/
@[simp] theorem isDir_append (bytes : Bytes) (node : Node) :
    (node.append bytes).isDir = node.isDir := by
  cases node <;> rfl

/-- An attribute makes no directory. -/
@[simp] theorem isDir_setXattr (name value : Bytes) (node : Node) :
    (node.setXattr name value).isDir = node.isDir := by
  cases node <;> rfl

end Node

namespace Disk

variable {h : Host} {d d' : Disk} {p q : Slot} {node : Node}

/-- What is put is at its path. -/
theorem at_put : (d.put p node).at_ q = if q = p then some node else d.at_ q := by
  refine (OrdMap.get?_insert d.entries p q node).trans ?_
  split_ifs <;> rfl

/-- What is erased is gone. -/
theorem at_erase : (d.erase p).at_ q = if q = p then none else d.at_ q := by
  refine (OrdMap.get?_erase d.entries p q).trans ?_
  split_ifs <;> rfl

/-- What is adjusted is at its path. -/
theorem at_adjust (f : Node → Node) :
    (d.adjust p f).at_ q = if q = p then (d.at_ q).map f else d.at_ q := by
  unfold adjust
  split
  · rename_i node hnode
    rw [at_put]
    split_ifs with heq
    · rw [heq, hnode]
      rfl
    · rfl
  · rename_i hnone
    split_ifs with heq
    · rw [heq, hnone]
      rfl
    · rfl

/-- A change moves the time of the directory. -/
theorem at_changed : (d.changed h p).at_ q =
    if q = p.dropLast then (d.at_ q).map (Node.setMtime (h.clock d.changes)) else d.at_ q :=
  at_adjust _

/-- A directory is a node of that kind. -/
theorem dirAt_iff : d.dirAt p = true ↔ ∃ node, d.at_ p = some node ∧ node.isDir = true := by
  unfold dirAt
  rw [Option.any_eq_true]

/-- A file has a content, a mode, a time and attributes. -/
theorem fileAt_iff : d.fileAt p = true ↔
    ∃ content mode mtime xattrs, d.at_ p = some (.file content mode mtime xattrs) := by
  unfold fileAt
  rw [Option.any_eq_true]
  constructor
  · rintro ⟨node, hnode, hfile⟩
    cases node with
    | file content mode mtime xattrs => exact ⟨content, mode, mtime, xattrs, hnode⟩
    | directory mode mtime => exact absurd hfile (by simp [Node.isDir])
  · rintro ⟨content, mode, mtime, xattrs, hnode⟩
    exact ⟨_, hnode, rfl⟩

/-- A path is housed in the root or in a directory. -/
theorem housed_iff :
    d.housed p = true ↔ p ≠ [] ∧ (p.dropLast = [] ∨ d.dirAt p.dropLast = true) := by
  simp [housed]

/-- What is there is a directory or a file. -/
theorem at_cases (d : Disk) (p : Slot) :
    d.at_ p = none ∧ d.dirAt p = false ∧ d.fileAt p = false ∨
      d.dirAt p = true ∧ d.fileAt p = false ∨ d.fileAt p = true ∧ d.dirAt p = false := by
  unfold dirAt fileAt
  cases d.at_ p with
  | none => exact Or.inl ⟨rfl, rfl, rfl⟩
  | some node => cases node <;> simp [Node.isDir]

/-- The keys are the paths where something is. -/
theorem mem_keys : p ∈ d.entries.keys ↔ d.at_ p ≠ none := by
  rw [OrdMap.mem_keys_iff, Option.isSome_iff_ne_none]
  rfl

/-- The paths are those where something is. -/
theorem mem_paths : p ∈ d.paths ↔ d.at_ p ≠ none := by
  unfold paths
  rw [List.mem_insertionSort, mem_keys]

end Disk

open Furrow.Crash.Disk

/-- Every entry is in a directory that is there. -/
def Sound (d : Disk) : Prop := ∀ p, d.at_ p ≠ none → d.housed p = true

/-- Two entries are equal, or directories both. -/
def Alike (a b : Option Node) : Prop := a = b ∨ a.any Node.isDir = true ∧ b.any Node.isDir = true

/-- Nothing has changed but some paths, and a directory, which is one still. -/
def Frame (P : Slot → Prop) (dir : Slot) (d d' : Disk) : Prop :=
  ∀ q, ¬ P q → (q ≠ dir → d'.at_ q = d.at_ q) ∧ Alike (d'.at_ q) (d.at_ q)

/-- Alike entries are both directories or neither. -/
theorem Alike.any_eq {a b : Option Node} (h : Alike a b) : a.any Node.isDir = b.any Node.isDir := by
  rcases h with rfl | ⟨ha, hb⟩
  · rfl
  · rw [ha, hb]

/-- Alike entries are both there or neither. -/
theorem Alike.eq_none_iff {a b : Option Node} (h : Alike a b) : a = none ↔ b = none := by
  rcases h with rfl | ⟨ha, hb⟩
  · rfl
  · constructor <;> rintro rfl
    · exact absurd ha (by simp)
    · exact absurd hb (by simp)

/-- What is alike is so transitively. -/
theorem Alike.trans {a b c : Option Node} (h : Alike a b) (h' : Alike b c) : Alike a c := by
  rcases h with rfl | ⟨ha, hb⟩
  · exact h'
  · exact Or.inr ⟨ha, h'.any_eq ▸ hb⟩

section Frames

variable {P P' : Slot → Prop} {dir p q : Slot} {d d' d'' : Disk}

/-- Nothing is touched. -/
theorem Frame.refl (d : Disk) : Frame P dir d d := fun _ _ => ⟨fun _ => rfl, Or.inl rfl⟩

/-- Two frames are one. -/
theorem Frame.trans (h : Frame P dir d d') (h' : Frame P dir d' d'') : Frame P dir d d'' :=
  fun q hq =>
  ⟨fun hne => ((h' q hq).1 hne).trans ((h q hq).1 hne), (h' q hq).2.trans (h q hq).2⟩

/-- More paths may be touched. -/
theorem Frame.mono (h : Frame P dir d d') (hP : ∀ q, P q → P' q) : Frame P' dir d d' := fun q hq =>
  h q fun hp => hq (hP q hp)

/-- Directories that are not touched stay. -/
theorem Frame.dirAt_eq (h : Frame P dir d d') (hq : ¬ P q) : d'.dirAt q = d.dirAt q :=
  (h q hq).2.any_eq

/-- Paths that are not touched are as before, but for the time of the directory. -/
theorem Frame.at_eq (h : Frame P dir d d') (hq : ¬ P q) (hne : q ≠ dir) : d'.at_ q = d.at_ q :=
  (h q hq).1 hne

/-- Nothing appears or vanishes where nothing is touched. -/
theorem Frame.eq_none_iff (h : Frame P dir d d') (hq : ¬ P q) : d'.at_ q = none ↔ d.at_ q = none :=
  (h q hq).2.eq_none_iff

/-- A path whose directory is there has none longer than itself for it. -/
theorem dropLast_ne (hp : p ≠ []) : p.dropLast ≠ p := by
  intro heq
  have hlen := congrArg List.length heq
  rw [List.length_dropLast] at hlen
  have hpos := List.length_pos_of_ne_nil hp
  omega

/-- The directory of a path is still there if nothing but what is at other paths has changed. -/
theorem Frame.housed (h : Frame P dir d d') (hq : q.dropLast = [] ∨ ¬ P q.dropLast) :
    d'.housed q = d.housed q := by
  rw [Bool.eq_iff_iff, housed_iff, housed_iff]
  rcases hq with hq | hq
  · simp [hq]
  · rw [h.dirAt_eq hq]

/-- An entry has changed, and then its directory. -/
theorem frame_changed {h : Host} {e : Disk} (hsound : Sound d) (hp : d.housed p = true)
    (he : ∀ q, q ≠ p → e.at_ q = d.at_ q) : Frame (· = p) p.dropLast d (e.changed h p) := by
  obtain ⟨hne, hdir⟩ := housed_iff.mp hp
  intro q hq
  rw [at_changed, he q hq]
  refine ⟨fun hqd => if_neg hqd, ?_⟩
  split_ifs with hqd
  · rcases hdir with hroot | hdir
    · have hnone : d.at_ q = none := by
        by_contra hsome
        exact absurd (housed_iff.mp (hsound q hsome)).1 (by rw [hqd, hroot]; simp)
      rw [hnone]
      exact Or.inl rfl
    · obtain ⟨node, hnode, hisDir⟩ := dirAt_iff.mp hdir
      rw [hqd, hnode]
      exact Or.inr ⟨by simpa using hisDir, by simpa using hisDir⟩
  · exact Or.inl rfl

end Frames

section Calls

variable {h : Host} {d d' : Disk} {p q : Slot} {node : Node}

/-- A directory that is put is there. -/
theorem dirAt_put : (d.put p node).dirAt q = if q = p then node.isDir else d.dirAt q := by
  unfold Disk.dirAt
  rw [at_put]
  split_ifs <;> rfl

/-- A directory that is erased is gone. -/
theorem dirAt_erase : (d.erase p).dirAt q = if q = p then false else d.dirAt q := by
  unfold Disk.dirAt
  rw [at_erase]
  split_ifs <;> rfl

/-- The object at a path has changed. -/
theorem at_modified (f : Node → Node) (n : ℕ) (q : Slot) :
    ({ d.adjust p f with changes := n } : Disk).at_ q =
      if q = p then (d.at_ q).map f else d.at_ q := at_adjust f

/-- An adjustment that keeps kinds keeps directories. -/
theorem dirAt_modified {f : Node → Node} (hf : ∀ node, (f node).isDir = node.isDir) (n : ℕ)
    (q : Slot) : ({ d.adjust p f with changes := n } : Disk).dirAt q = d.dirAt q := by
  unfold Disk.dirAt
  rw [at_modified]
  split_ifs
  · cases d.at_ q with
    | none => rfl
    | some node => exact hf node
  · rfl

/-- No entry is in what is no directory. -/
theorem Sound.at_in (hsound : Sound d) (hdir : d.dirAt p = false) (hp : p ≠ [])
    (hq : q.dropLast = p) : d.at_ q = none := by
  by_contra hsome
  rcases (housed_iff.mp (hsound q hsome)).2 with hroot | hdir'
  · exact hp (hq ▸ hroot)
  · rw [hq, hdir] at hdir'
    exact absurd hdir' (by simp)

/-- No entry is below what is no directory. -/
theorem Sound.at_below (hsound : Sound d) (hp : p ≠ []) (hdir : d.dirAt p = false) (hpre : p <+: q)
    (hne : q ≠ p) : d.at_ q = none := by
  induction hlen : q.length using Nat.strong_induction_on generalizing q with
  | _ n ih =>
    obtain ⟨r, rfl⟩ := hpre
    have hr : r ≠ [] := fun hr => hne (by rw [hr, List.append_nil])
    have hlast : (p ++ r).dropLast = p ++ r.dropLast := List.dropLast_append_of_ne_nil hr
    by_cases hin : p ++ r.dropLast = p
    · exact hsound.at_in hdir hp (hlast.trans hin)
    · have hpos := List.length_pos_of_ne_nil hr
      have hnone := ih (p ++ r.dropLast).length
        (by rw [← hlen, List.length_append, List.length_append, List.length_dropLast]; omega)
        (List.prefix_append _ _) hin rfl
      refine hsound.at_in ?_ (by simp [hp]) hlast
      unfold Disk.dirAt
      rw [hnone]
      rfl

/-- The root is no entry. -/
theorem Sound.ne_nil (hsound : Sound d) (hp : d.at_ p ≠ none) : p ≠ [] :=
  (housed_iff.mp (hsound p hp)).1

/-- A directory is there. -/
theorem at_ne_none_of_dirAt (hp : d.dirAt p = true) : d.at_ p ≠ none := by
  obtain ⟨node, hnode, -⟩ := dirAt_iff.mp hp
  rw [hnode]
  simp

/-- A file is there. -/
theorem at_ne_none_of_fileAt (hp : d.fileAt p = true) : d.at_ p ≠ none := by
  obtain ⟨_, _, _, _, hnode⟩ := fileAt_iff.mp hp
  rw [hnode]
  simp

/-- A file is no directory. -/
theorem not_dirAt_of_fileAt (hp : d.fileAt p = true) : d.dirAt p = false := by
  obtain ⟨_, _, _, _, hnode⟩ := fileAt_iff.mp hp
  unfold Disk.dirAt
  rw [hnode]
  rfl

/-- An entry that is put into a directory has one. -/
theorem Sound.put (hsound : Sound d) (hp : d.housed p = true)
    (hkind : node.isDir = true ∨ d.dirAt p = false) : Sound (d.put p node) := by
  obtain ⟨hne, hhouse⟩ := housed_iff.mp hp
  intro q hq
  rw [housed_iff, dirAt_put]
  by_cases hqp : q = p
  · rw [hqp, if_neg (dropLast_ne hne)]
    exact ⟨hne, hhouse⟩
  · rw [at_put, if_neg hqp] at hq
    obtain ⟨hqne, hq'⟩ := housed_iff.mp (hsound q hq)
    refine ⟨hqne, ?_⟩
    split_ifs with hin
    · rcases hkind with hdir | hdir
      · exact Or.inr hdir
      · exact absurd (hsound.at_in hdir hne hin) hq
    · exact hq'

/-- An entry without anything below it can go. -/
theorem Sound.erase (hsound : Sound d) (hp : ∀ q, q.dropLast = p → q ≠ p → d.at_ q = none) :
    Sound (d.erase p) := by
  intro q hq
  rw [at_erase] at hq
  split_ifs at hq with hqp
  · exact absurd rfl hq
  · obtain ⟨hqne, hhouse⟩ := housed_iff.mp (hsound q hq)
    rw [housed_iff, dirAt_erase]
    split_ifs with hin
    · exact absurd (hp q hin hqp) hq
    · exact ⟨hqne, hhouse⟩

/-- An adjustment that keeps kinds moves no entry. -/
theorem Sound.modified {f : Node → Node} (hsound : Sound d)
    (hf : ∀ node, (f node).isDir = node.isDir) (n : ℕ) :
    Sound { d.adjust p f with changes := n } := by
  intro q hq
  have hold : d.at_ q ≠ none := by
    rw [at_modified] at hq
    split_ifs at hq
    · exact fun hnone => hq (by rw [hnone]; rfl)
    · exact hq
  have hhouse := hsound q hold
  rw [housed_iff] at hhouse ⊢
  rwa [dirAt_modified hf]

/-- The time of a directory moves no entry. -/
theorem Sound.changed (hsound : Sound d) : Sound (d.changed h p) :=
  hsound.modified (fun node => by simp) _

/-- **One call** leaves every entry in its directory. -/
theorem Sound.call {c : Call} (hsound : Sound d) (hc : d.call h c = some d') : Sound d' := by
  have hnot : ∀ {p}, d.at_ p = none → d.dirAt p = false := fun hnone => by
    unfold Disk.dirAt
    rw [hnone]
    rfl
  cases c with
  | mkdir p =>
    simp only [Disk.call, Option.ite_none_right_eq_some, Option.some.injEq] at hc
    obtain ⟨⟨hp, hnone⟩, rfl⟩ := hc
    exact (hsound.put hp (Or.inl rfl)).changed
  | create p =>
    simp only [Disk.call, Option.ite_none_right_eq_some, Option.some.injEq] at hc
    obtain ⟨⟨hp, hnone⟩, rfl⟩ := hc
    exact (hsound.put hp (Or.inr (hnot hnone))).changed
  | write p bytes =>
    simp only [Disk.call, Option.ite_none_right_eq_some, Option.some.injEq] at hc
    obtain ⟨-, rfl⟩ := hc
    exact hsound.modified (fun node => by simp) _
  | setXattr p name value =>
    simp only [Disk.call, Option.ite_none_right_eq_some, Option.some.injEq] at hc
    obtain ⟨-, rfl⟩ := hc
    exact hsound.modified (fun node => by simp) _
  | chmod p mode =>
    simp only [Disk.call, Option.ite_none_right_eq_some, Option.some.injEq] at hc
    obtain ⟨-, rfl⟩ := hc
    exact hsound.modified (fun node => by simp) _
  | utimes p mtime =>
    simp only [Disk.call, Option.ite_none_right_eq_some, Option.some.injEq] at hc
    obtain ⟨-, rfl⟩ := hc
    exact hsound.modified (fun node => by simp) _
  | rename p q =>
    rw [Disk.call] at hc
    split at hc
    · rename_i content mode mtime xattrs hnode
      simp only [Option.ite_none_right_eq_some, Option.some.injEq] at hc
      obtain ⟨⟨hq, hdir⟩, rfl⟩ := hc
      have hfile : d.dirAt p = false := not_dirAt_of_fileAt (fileAt_iff.mpr ⟨_, _, _, _, hnode⟩)
      have hp : p ≠ [] := hsound.ne_nil (by rw [hnode]; simp)
      have herase : Sound (d.erase p) := hsound.erase fun r hr _ => hsound.at_in hfile hp hr
      refine ((herase.put ?_ (Or.inr ?_)).changed).changed
      · -- The directory of the new name is not the file.
        obtain ⟨hqne, hhouse⟩ := housed_iff.mp hq
        refine housed_iff.mpr ⟨hqne, hhouse.imp_right fun hhouse => ?_⟩
        rw [dirAt_erase, if_neg, hhouse]
        intro heq
        rw [heq, hfile] at hhouse
        exact absurd hhouse (by simp)
      · rw [dirAt_erase, hdir, ite_self]
    · exact absurd hc (by simp)
  | unlink p =>
    simp only [Disk.call, Option.ite_none_right_eq_some, Option.some.injEq] at hc
    obtain ⟨hfile, rfl⟩ := hc
    have hp : p ≠ [] := hsound.ne_nil (at_ne_none_of_fileAt hfile)
    exact (hsound.erase fun r hr _ => hsound.at_in (not_dirAt_of_fileAt hfile) hp hr).changed
  | rmdir p =>
    simp only [Disk.call, Option.ite_none_right_eq_some, Option.some.injEq] at hc
    obtain ⟨⟨-, hempty⟩, rfl⟩ := hc
    refine (hsound.erase fun r hr hrp => ?_).changed
    by_contra hsome
    exact hrp
      (hempty r (mem_keys.mpr hsome) (List.isPrefixOf_iff_prefix.mpr (hr ▸ List.dropLast_prefix r)))

/-- Every entry has its directory after any calls. -/
theorem Sound.run {calls : List Call} (hsound : Sound d) (hrun : d.run h calls = some d') :
    Sound d' := by
  induction calls generalizing d with
  | nil => exact Option.some.inj hrun ▸ hsound
  | cons c calls ih =>
    unfold Disk.run at hrun
    rw [List.foldlM_cons] at hrun
    obtain ⟨e, he, hrest⟩ := Option.bind_eq_some_iff.mp hrun
    exact ih (hsound.call he) hrest

/-- Calls that go as far as they can leave every entry in its directory. -/
theorem Sound.halt (calls : List Call) (hsound : Sound d) : Sound (d.halt h calls) := by
  induction calls generalizing d with
  | nil => exact hsound
  | cons c calls ih =>
    unfold Disk.halt
    split
    · rename_i e he
      exact ih (hsound.call he)
    · exact hsound

end Calls

section Steps

variable {h : Host} {d d' d'' : Disk} {p q dir : Slot} {node : Node} {P P' : Slot → Prop}

/-- A call, and those after it. -/
theorem run_cons {c : Call} {calls : List Call} (hc : d.call h c = some d')
    (hrest : d'.run h calls = some d'') : d.run h (c :: calls) = some d'' := by
  unfold Disk.run at hrest ⊢
  rw [List.foldlM_cons, hc]
  exact hrest

/-- Calls, and those after them. -/
theorem run_append {calls calls' : List Call} (hfirst : d.run h calls = some d')
    (hrest : d'.run h calls' = some d'') : d.run h (calls ++ calls') = some d'' := by
  unfold Disk.run at hfirst hrest ⊢
  rw [List.foldlM_append, hfirst]
  exact hrest

/-- What happens within some paths happens within more. -/
theorem Frame.inside (hframe : Frame P' dir d d') (hP : ∀ q, P' q → P q) {dir' : Slot}
    (hdir : dir = dir' ∨ P dir) : Frame P dir' d d' := by
  intro q hq
  obtain ⟨hsame, halike⟩ := hframe q fun hp => hq (hP q hp)
  refine ⟨fun hne => hsame fun heq => ?_, halike⟩
  rcases hdir with rfl | hdir
  · exact hne heq
  · exact hq (heq ▸ hdir)

/-- Paths that are as they were are none of those that changed. -/
theorem Frame.narrow (hframe : Frame P dir d d') (hP : ∀ q, P q → ¬ P' q → d'.at_ q = d.at_ q) :
    Frame P' dir d d' := by
  intro q hq
  by_cases hPq : P q
  · exact ⟨fun _ => hP q hPq hq, Or.inl (hP q hPq hq)⟩
  · exact hframe q hPq

/-! ## Steps -/

/-- `mkdir`, where its directory is there and nothing else. -/
theorem mkdir_spec (hsound : Sound d) (hp : d.housed p = true) (hnone : d.at_ p = none) :
    ∃ d', d.call h (.mkdir p) = some d' ∧ d'.dirAt p = true ∧ Frame (· = p) p.dropLast d d' := by
  obtain ⟨hne, -⟩ := housed_iff.mp hp
  refine ⟨_, if_pos ⟨hp, hnone⟩, ?_, frame_changed hsound hp fun q hq => by rw [at_put, if_neg hq]⟩
  refine dirAt_iff.mpr ⟨.directory 493 (h.clock d.changes), ?_, rfl⟩
  rw [at_changed, if_neg (dropLast_ne hne).symm, at_put, if_pos rfl]

/-- A new file is empty, and private. -/
theorem create_spec (hsound : Sound d) (hp : d.housed p = true) (hnone : d.at_ p = none) :
    ∃ d' mtime, d.call h (.create p) = some d' ∧ d'.at_ p = some (.file [] 384 mtime OrdMap.empty) ∧
      Frame (· = p) p.dropLast d d' := by
  obtain ⟨hne, -⟩ := housed_iff.mp hp
  refine ⟨_, h.clock d.changes, if_pos ⟨hp, hnone⟩, ?_,
    frame_changed hsound hp fun q hq => by rw [at_put, if_neg hq]⟩
  rw [at_changed, if_neg (dropLast_ne hne).symm, at_put, if_pos rfl]

variable (dir) in
/-- The object at a path is changed. -/
theorem modified_spec {f : Node → Node} (n : ℕ) (hnode : d.at_ p = some node) :
    ({ d.adjust p f with changes := n } : Disk).at_ p = some (f node) ∧
      Frame (· = p) dir d { d.adjust p f with changes := n } := by
  refine ⟨by rw [at_modified, if_pos rfl, hnode]; rfl, fun q hq => ?_⟩
  rw [at_modified, if_neg hq]
  exact ⟨fun _ => rfl, Or.inl rfl⟩

variable (dir) in
/-- `chmod`, of what is there. -/
theorem chmod_spec (mode : UInt32) (hnode : d.at_ p = some node) :
    ∃ d', d.call h (.chmod p mode) = some d' ∧ d'.at_ p = some (node.setMode mode) ∧ Frame
      (· = p) dir d d' :=
  ⟨_, if_pos (by rw [hnode]; rfl), modified_spec dir _ hnode⟩

variable (dir) in
/-- `utimes`, of what is there. -/
theorem utimes_spec (mtime : Time) (hnode : d.at_ p = some node) :
    ∃ d', d.call h (.utimes p mtime) = some d' ∧ d'.at_ p = some (node.setMtime mtime) ∧ Frame
      (· = p) dir d d' :=
  ⟨_, if_pos (by rw [hnode]; rfl), modified_spec dir _ hnode⟩

variable (dir) in
/-- A content is written chunk by chunk. -/
theorem writes_spec (chunks : List Bytes) {content : Bytes} {mode : UInt32} {mtime : Time}
    {xattrs : OrdMap Bytes Bytes} (hnode : d.at_ p = some (.file content mode mtime xattrs)) :
    ∃ d' mtime', d.run h (chunks.map (.write p)) = some d' ∧
      d'.at_ p = some (.file (content ++ chunks.flatten) mode mtime' xattrs) ∧ Frame
        (· = p) dir d d' := by
  induction chunks generalizing d content mtime with
  | nil => exact ⟨d, mtime, rfl, by simpa using hnode, Frame.refl d⟩
  | cons bytes chunks ih =>
    obtain ⟨hat, hframe⟩ := modified_spec dir
      (f := Node.setMtime (h.clock d.changes) ∘ Node.append bytes) (d.changes + 1) hnode
    obtain ⟨d', mtime', hrun, hat', hframe'⟩ := ih hat
    refine ⟨d', mtime', run_cons (if_pos (fileAt_iff.mpr ⟨_, _, _, _, hnode⟩)) hrun, ?_,
      hframe.trans hframe'⟩
    rw [hat', List.flatten_cons, List.append_assoc]

variable (dir) in
/-- Attributes that the system takes are set one by one. -/
theorem setXattr_calls_spec (l : List (Bytes × Bytes)) (hl : ∀ x ∈ l, h.takes x.1 x.2 = true)
    {content : Bytes} {mode : UInt32} {mtime : Time} {xattrs : OrdMap Bytes Bytes}
    (hnode : d.at_ p = some (.file content mode mtime xattrs)) :
    ∃ d', d.run h (l.map fun x => .setXattr p x.1 x.2) = some d' ∧
      d'.at_ p = some (.file content mode mtime (xattrs.foldInsert l)) ∧ Frame
        (· = p) dir d d' := by
  induction l generalizing d xattrs with
  | nil => exact ⟨d, rfl, hnode, Frame.refl d⟩
  | cons x l ih =>
    obtain ⟨htakes, hl'⟩ := List.forall_mem_cons.mp hl
    obtain ⟨hat, hframe⟩ := modified_spec dir (f := Node.setXattr x.1 x.2)
      (d.adjust p (Node.setXattr x.1 x.2)).changes hnode
    obtain ⟨d', hrun, hat', hframe'⟩ := ih hl' hat
    have hfile := fileAt_iff.mpr ⟨_, _, _, _, hnode⟩
    exact ⟨d', run_cons (if_pos ⟨hfile, htakes⟩) hrun, hat', hframe.trans hframe'⟩

variable (dir) in
/-- A file without attributes gets those that can be restored. -/
theorem setXattrs_spec (xattrs : OrdMap Bytes Bytes) {content : Bytes} {mode : UInt32}
    {mtime : Time} (hnode : d.at_ p = some (.file content mode mtime OrdMap.empty)) :
    ∃ d', d.run h (setXattrs h p xattrs) = some d' ∧
      d'.at_ p = some (Node.kept h (.file content mode mtime xattrs)) ∧ Frame (· = p) dir d d' := by
  obtain ⟨d', hrun, hat, hframe⟩ := setXattr_calls_spec (h := h) dir
    ((restorableXattrs xattrs).toList.filter fun x => h.takes x.1 x.2)
    (fun x hx => (List.mem_filter.mp hx).2) hnode
  have hlist := OrdMap.foldInsert_toList ((restorableXattrs xattrs).filter h.takes)
  exact ⟨d', hrun,
    hat.trans (congrArg (fun x => some (Node.file content mode mtime x)) hlist), hframe⟩

/-- A file gets another name in its directory. -/
theorem rename_spec {content : Bytes} {mode : UInt32} {mtime : Time} {xattrs : OrdMap Bytes Bytes}
    (hsound : Sound d) (hnode : d.at_ p = some (.file content mode mtime xattrs))
    (hq : d.housed q = true) (hdir : d.dirAt q = false) (hsame : p.dropLast = q.dropLast) :
    ∃ d', d.call h (.rename p q) = some d' ∧ d'.at_ q = some (.file content mode mtime xattrs) ∧
      (p ≠ q → d'.at_ p = none) ∧ Frame (fun r => r = p ∨ r = q) q.dropLast d d' := by
  have hp : d.housed p = true := hsound p (by rw [hnode]; simp)
  have hpne := (housed_iff.mp hp).1
  have hqne := (housed_iff.mp hq).1
  have hcall : d.call h (.rename p q) =
      some ((((d.erase p).put q (.file content mode mtime xattrs)).changed h p).changed h q) := by
    rw [Disk.call, hnode]
    exact if_pos ⟨hq, hdir⟩
  have hother : ∀ r, r ≠ q.dropLast →
      ((((d.erase p).put q (.file content mode mtime xattrs)).changed h p).changed h q).at_ r =
        if r = q then some (.file content mode mtime xattrs) else if r = p then none
          else d.at_ r := by
    intro r hr
    rw [at_changed, if_neg hr, at_changed, if_neg (hsame ▸ hr), at_put, at_erase]
  refine ⟨_, hcall, ?_, fun hpq => ?_, fun r hr => ⟨fun hne => ?_, ?_⟩⟩
  · rw [hother q (dropLast_ne hqne).symm, if_pos rfl]
  · rw [hother p (hsame ▸ (dropLast_ne hpne).symm), if_neg hpq, if_pos rfl]
  · rw [hother r hne, if_neg fun heq => hr (Or.inr heq), if_neg fun heq => hr (Or.inl heq)]
  · by_cases hne : r = q.dropLast
    · -- The directory gets the time twice.
      rcases (housed_iff.mp hq).2 with hroot | hdirq
      · have hsound' := hsound.call hcall
        have hnone : ∀ {e : Disk}, Sound e → e.at_ r = none := fun he => by
          by_contra hsome
          exact he.ne_nil hsome (hne.trans hroot)
        rw [hnone hsound', hnone hsound]
        exact Or.inl rfl
      · rw [← hne] at hdirq
        refine Or.inr ⟨?_, hdirq⟩
        have hkeeps : ∀ node : Node, ∀ t, (node.setMtime t).isDir = node.isDir := by simp
        have hdir' :
            ((((d.erase p).put q (.file content mode mtime xattrs)).changed h p).changed h q).dirAt
              r =
            d.dirAt r := by
          unfold Disk.changed
          rw [dirAt_modified (fun node => hkeeps node _),
            dirAt_modified (fun node => hkeeps node _), dirAt_put, if_neg fun heq =>
              hr (Or.inr heq), dirAt_erase, if_neg fun heq => hr (Or.inl heq)]
        exact hdir'.trans hdirq
    · rw [hother r hne, if_neg fun heq => hr (Or.inr heq), if_neg fun heq => hr (Or.inl heq)]
      exact Or.inl rfl

/-- What has nothing in it is removed. -/
theorem drop_spec (hsound : Sound d) (hq : d.at_ q ≠ none)
    (hbelow : ∀ r, q <+: r → r ≠ q → d.at_ r = none) :
    ∃ d', d.call h (if d.dirAt q then .rmdir q else .unlink q) = some d' ∧ d'.at_ q = none ∧
      Frame (· = q) q.dropLast d d' := by
  have hhouse := hsound q hq
  have hne := (housed_iff.mp hhouse).1
  have heffect :
      ((d.erase q).changed h q).at_ q = none ∧
        Frame (· = q) q.dropLast d ((d.erase q).changed h q) := by
    refine ⟨?_, frame_changed hsound hhouse fun r hr => by rw [at_erase, if_neg hr]⟩
    rw [at_changed, if_neg (dropLast_ne hne).symm, at_erase, if_pos rfl]
  refine ⟨_, ?_, heffect⟩
  rcases d.at_cases q with ⟨hnone, -⟩ | ⟨hdir, -⟩ | ⟨hfile, hdir⟩
  · exact absurd hnone hq
  · rw [if_pos hdir]
    refine if_pos ⟨hdir, fun r hr hpre => ?_⟩
    by_contra hrq
    exact mem_keys.mp hr (hbelow r (List.isPrefixOf_iff_prefix.mp hpre) hrq)
  · rw [if_neg (by rw [hdir]; simp)]
    exact if_pos hfile

/-- Paths are removed, each after what is in it. -/
theorem drops_spec {L : List Slot} {k : Slot → Bool} (hsound : Sound d) (hin : ∀ q ∈ L, p <+: q)
    (hthere : ∀ q ∈ L, d.at_ q ≠ none) (hk : ∀ q ∈ L, k q = d.dirAt q)
    (hclosed : ∀ q, d.at_ q ≠ none → p <+: q → q ∈ L) (horder : L.Pairwise fun a b => ¬ a <+: b) :
    ∃ d', d.run h (L.map fun q => if k q then .rmdir q else .unlink q) = some d' ∧
      (∀ q, p <+: q → d'.at_ q = none) ∧ Frame (p <+: ·) p.dropLast d d' := by
  induction L generalizing d with
  | nil =>
    refine ⟨d, rfl, fun q hq => ?_, Frame.refl d⟩
    by_contra hsome
    exact absurd (hclosed q hsome hq) List.not_mem_nil
  | cons q L ih =>
    obtain ⟨hfirst, horder'⟩ := List.pairwise_cons.mp horder
    have hbelow : ∀ r, q <+: r → r ≠ q → d.at_ r = none := by
      intro r hr hrq
      by_contra hsome
      rcases List.mem_cons.mp (hclosed r hsome ((hin q List.mem_cons_self).trans hr)) with
        heq | hmem
      · exact hrq heq
      · exact hfirst r hmem hr
    obtain ⟨d₁, hcall, hgone, hframe⟩ :=
      drop_spec (h := h) hsound (hthere q List.mem_cons_self) hbelow
    have hne : ∀ r ∈ L, r ≠ q := fun r hr heq => hfirst r hr (heq ▸ List.prefix_rfl)
    obtain ⟨d', hrun, hall, hframe'⟩ :=
      ih (hsound.call hcall) (fun r hr => hin r (List.mem_cons_of_mem _ hr)) (fun r hr hnone =>
        hthere r (List.mem_cons_of_mem _ hr) ((hframe.eq_none_iff (hne r hr)).mp hnone))
      (fun r hr => (hk r (List.mem_cons_of_mem _ hr)).trans (hframe.dirAt_eq (hne r hr)).symm)
      (fun r hr hpre => by
        have hrq : r ≠ q := fun heq => hr (heq ▸ hgone)
        have hsome : d.at_ r ≠ none := fun hnone => hr ((hframe.eq_none_iff hrq).mpr hnone)
        exact (List.mem_cons.mp (hclosed r hsome hpre)).resolve_left hrq)
      horder'
    refine ⟨d', ?_, hall,
      Frame.trans (hframe.inside (fun r hr => hr ▸ hin q List.mem_cons_self) ?_) hframe'⟩
    · rw [List.map_cons, hk q List.mem_cons_self]
      exact run_cons hcall hrun
    · by_cases hqp : q = p
      · exact Or.inl (by rw [hqp])
      · right
        obtain ⟨r, rfl⟩ := hin q List.mem_cons_self
        have hr : r ≠ [] := fun hr => hqp (by rw [hr, List.append_nil])
        rw [List.dropLast_append_of_ne_nil hr]
        exact List.prefix_append _ _

/-- **A path is removed** with all that is in it. -/
theorem removePath_spec (hsound : Sound d) (p : Slot) :
    ∃ d', d.run h (removePath p d) = some d' ∧ (∀ q, p <+: q → d'.at_ q = none) ∧
      Frame (p <+: ·) p.dropLast d d' := by
  have hmem : ∀ q, q ∈ (d.entries.keys.filter fun q => p.isPrefixOf q).reverse ↔
      d.at_ q ≠ none ∧ p <+: q := by
    intro q
    rw [List.mem_reverse, List.mem_filter, mem_keys, List.isPrefixOf_iff_prefix]
  refine drops_spec hsound (fun q hq => ((hmem q).mp hq).2) (fun q hq => ((hmem q).mp hq).1)
    (fun _ _ => rfl) (fun q hq hpre => (hmem q).mpr ⟨hq, hpre⟩) ?_
  rw [List.pairwise_reverse]
  refine (d.entries.keys_sorted.filter _).imp fun hlt hpre => ?_
  exact absurd (Stems.le_of_isPrefix hpre) (not_le.mpr hlt)

/-- What is not there is not removed. -/
theorem removePath_eq_nil (hsound : Sound d) (hp : p ≠ []) (hnone : d.at_ p = none) :
    removePath p d = [] := by
  have hdir : d.dirAt p = false := by
    unfold Disk.dirAt
    rw [hnone]
    rfl
  unfold removePath
  rw [List.filter_eq_nil_iff.mpr fun q hq hpre => ?_, List.reverse_nil, List.map_nil]
  refine mem_keys.mp hq ?_
  by_cases hqp : q = p
  · exact hqp ▸ hnone
  · exact hsound.at_below hp hdir (List.isPrefixOf_iff_prefix.mp hpre) hqp

/-- Above a path whose directory is there, there are directories. -/
theorem dirAt_above (hsound : Sound d) (hp : d.housed p = true) (hq : q ≠ []) (hpre : q <+: p)
    (hne : q ≠ p) : d.dirAt q = true := by
  obtain ⟨hpne, hhouse⟩ := housed_iff.mp hp
  have hpre' : q <+: p.dropLast := by
    obtain ⟨r, rfl⟩ := hpre
    have hr : r ≠ [] := fun hr => hne (by rw [hr, List.append_nil])
    rw [List.dropLast_append_of_ne_nil hr]
    exact List.prefix_append _ _
  rcases hhouse with hroot | hdir
  · rw [hroot] at hpre'
    exact absurd (List.prefix_nil.mp hpre') hq
  · by_cases heq : q = p.dropLast
    · rw [heq]
      exact hdir
    · by_contra hno
      exact at_ne_none_of_dirAt hdir (hsound.at_below hq (by simpa using hno) hpre' (Ne.symm heq))

/-- **Directories are made** down to a path. -/
theorem createDirAll_spec (hsound : Sound d) (hp : d.housed p = true)
    (hopen : d.at_ p = none ∨ d.dirAt p = true) :
    ∃ d', d.run h (createDirAll p d) = some d' ∧ d'.dirAt p = true ∧ Frame
      (· = p) p.dropLast d d' := by
  have hne := (housed_iff.mp hp).1
  have habove : ∀ q ∈ p.inits, q ≠ p → ¬ (q ≠ [] ∧ d.at_ q = none) := by
    rintro q hq hqp ⟨hqne, hnone⟩
    exact at_ne_none_of_dirAt (dirAt_above hsound hp hqne ((List.mem_inits _ _).mp hq) hqp) hnone
  have hinits : p.inits = p.dropLast.inits ++ [p] := by
    conv_lhs => rw [← List.dropLast_append_getLast hne, List.inits_append]
    simp [List.dropLast_append_getLast hne]
  have hlist : createDirAll p d = if d.at_ p = none then [.mkdir p] else [] := by
    unfold createDirAll
    rw [hinits, List.filter_append, List.filter_eq_nil_iff.mpr fun q hq => ?_, List.nil_append]
    · split_ifs with hnone <;> simp [hne, hnone]
    · have hpre := (List.mem_inits _ _).mp hq
      rw [decide_eq_true_eq]
      refine habove q ((List.mem_inits _ _).mpr (hpre.trans (List.dropLast_prefix p))) ?_
      rintro rfl
      have hle := hpre.length_le
      rw [List.length_dropLast] at hle
      have hpos := List.length_pos_of_ne_nil hne
      omega
  rw [hlist]
  rcases hopen with hnone | hdir
  · rw [if_pos hnone]
    obtain ⟨d', hcall, hdir', hframe⟩ := mkdir_spec (h := h) hsound hp hnone
    exact ⟨d', run_cons hcall rfl, hdir', hframe⟩
  · rw [if_neg (at_ne_none_of_dirAt hdir)]
    exact ⟨d, rfl, hdir, Frame.refl d⟩

/-- Nothing is made where all is there. -/
theorem createDirAll_dropLast (hsound : Sound d) (hp : d.housed p = true) :
    createDirAll p.dropLast d = [] := by
  unfold createDirAll
  rw [List.filter_eq_nil_iff.mpr fun q hq => ?_, List.map_nil]
  rw [decide_eq_true_eq]
  rintro ⟨hqne, hnone⟩
  have hpre := (List.mem_inits _ _).mp hq
  refine at_ne_none_of_dirAt (dirAt_above hsound hp hqne (hpre.trans (List.dropLast_prefix p)) ?_)
    hnone
  rintro rfl
  have hle := hpre.length_le
  rw [List.length_dropLast] at hle
  have hpos := List.length_pos_of_ne_nil hqne
  omega

end Steps

section Loops

variable {h : Host} {d d' : Disk} {p q : Slot}

/-- The name of a temporary file is new. -/
theorem at_temp (hp : p ≠ []) :
    d.at_ (p.dropLast ++ [h.tempName (d.namesIn p.dropLast)]) = none := by
  by_contra hsome
  have hmem : p.dropLast ++ [h.tempName (d.namesIn p.dropLast)] ∈
      d.entries.keys.filter fun q => q.dropLast = p.dropLast :=
    List.mem_filter.mpr ⟨mem_keys.mpr hsome, by simp⟩
  exact h.tempName_new (d.namesIn p.dropLast) (List.mem_map.mpr ⟨_, hmem, by simp⟩)

/-- **A file is restored** under a new name, which is then its own. -/
theorem restoreFile_spec (content : Bytes) (mode : UInt32) (mtime : Time)
    (xattrs : OrdMap Bytes Bytes) (hsound : Sound d) (hp : d.housed p = true)
    (hdir : d.dirAt p = false) :
    ∃ d', d.run h (restoreFile h p content mode mtime xattrs d) = some d' ∧
      d'.at_ p = some (Node.kept h (.file content mode mtime xattrs)) ∧
      Frame (· = p) p.dropLast d d' := by
  obtain ⟨hne, hhouse⟩ := housed_iff.mp hp
  have hnone := at_temp (h := h) (d := d) hne
  unfold restoreFile
  dsimp only
  generalize htemp : p.dropLast ++ [h.tempName (d.namesIn p.dropLast)] = temp at hnone
  have hlast : temp.dropLast = p.dropLast := by rw [← htemp, List.dropLast_concat]
  have htempHouse : d.housed temp = true := by
    rw [housed_iff, hlast]
    exact ⟨by rw [← htemp]; simp, hhouse⟩
  obtain ⟨d₁, time, hcreate, hat₁, hframe₁⟩ := create_spec (h := h) hsound htempHouse hnone
  obtain ⟨d₂, time', hwrites, hat₂, hframe₂⟩ :=
    writes_spec (h := h) temp.dropLast (h.chunks content) hat₁
  obtain ⟨d₃, hchmod, hat₃, hframe₃⟩ := chmod_spec (h := h) temp.dropLast mode hat₂
  obtain ⟨d₄, hxattrs, hat₄, hframe₄⟩ := setXattrs_spec (h := h) temp.dropLast xattrs hat₃
  have hsound₄ : Sound d₄ :=
    (((hsound.call hcreate).run hwrites).call hchmod).run hxattrs
  have hframe : Frame (· = temp) temp.dropLast d d₄ :=
    ((hframe₁.trans hframe₂).trans hframe₃).trans hframe₄
  rw [List.nil_append, h.chunks_flatten] at hat₄
  have hparent : p.dropLast ≠ temp := hlast ▸ dropLast_ne (by rw [← htemp]; simp)
  have hp₄ : d₄.housed p = true := by rw [hframe.housed (Or.inr hparent), hp]
  have hdir₄ : d₄.dirAt p = false := by
    by_cases hpt : p = temp
    · unfold Disk.dirAt
      rw [hpt, hat₄]
      rfl
    · rw [hframe.dirAt_eq hpt, hdir]
  obtain ⟨d₅, hrename, hat₅, hgone, hframe₅⟩ := rename_spec (h := h) hsound₄ hat₄ hp₄ hdir₄ hlast
  obtain ⟨d₆, hutimes, hat₆, hframe₆⟩ := utimes_spec (h := h) p.dropLast mtime hat₅
  refine ⟨d₆, ?_, hat₆, ?_⟩
  · refine run_cons hcreate (run_append hwrites (run_cons hchmod (run_append hxattrs ?_)))
    exact run_cons hrename (run_cons hutimes rfl)
  · have hall : Frame (fun r => r = temp ∨ r = p) p.dropLast d d₆ :=
      ((hlast ▸ hframe.mono fun r hr => Or.inl hr).trans hframe₅).trans
        (hframe₆.mono fun r hr => Or.inr hr)
    refine hall.narrow fun r hr hrp => ?_
    -- The temporary file was not there, and has gone.
    obtain rfl := hr.resolve_right hrp
    rw [hframe₆.at_eq hrp (hlast ▸ dropLast_ne (by rw [← htemp]; simp)).symm, hgone hrp, hnone]

/-- Steps one after the other. -/
def runSteps (h : Host) (d : Disk) (steps : List Step) : Option Disk :=
  steps.foldlM (fun d step => d.run h (step d)) d

/-- A step, and those after it. -/
theorem runSteps_cons {step : Step} {steps : List Step} {d'' : Disk}
    (hstep : d.run h (step d) = some d') (hrest : runSteps h d' steps = some d'') :
    runSteps h d (step :: steps) = some d'' := by
  unfold runSteps at hrest ⊢
  rw [List.foldlM_cons, hstep]
  exact hrest

/-- Steps, and those after them. -/
theorem runSteps_append {steps steps' : List Step} {d'' : Disk}
    (hfirst : runSteps h d steps = some d') (hrest : runSteps h d' steps' = some d'') :
    runSteps h d (steps ++ steps') = some d'' := by
  unfold runSteps at hfirst hrest ⊢
  rw [List.foldlM_append, hfirst]
  exact hrest

/-- The calls of a script do what its steps do. -/
theorem run_script {steps : List Step} (hsteps : runSteps h d steps = some d') :
    d.run h (script h d steps) = some d' := by
  induction steps generalizing d with
  | nil => exact hsteps
  | cons step steps ih =>
    unfold runSteps at hsteps
    rw [List.foldlM_cons] at hsteps
    obtain ⟨e, hstep, hrest⟩ := Option.bind_eq_some_iff.mp hsteps
    rw [script, hstep]
    exact run_append hstep (ih hrest)

/-- Every entry has its directory after any steps. -/
theorem Sound.runSteps {steps : List Step} (hsound : Sound d)
    (hrun : runSteps h d steps = some d') : Sound d' :=
  hsound.run (run_script hrun)

variable {target : Disk}

/-- **The first loop**, for one directory. -/
theorem makeDirectory_spec (hsound : Sound d) (hp : d.housed p = true)
    (hdir : target.dirAt p = true) :
    ∃ d', runSteps h d (makeDirectory target p) = some d' ∧ d'.dirAt p = true ∧ Frame
      (· = p) p.dropLast d d' := by
  have hne := (housed_iff.mp hp).1
  obtain ⟨node, hnode, hisDir⟩ := dirAt_iff.mp hdir
  cases node with
  | file content mode mtime xattrs => exact absurd hisDir (by simp [Node.isDir])
  | directory mode mtime =>
    have hclear : ∃ d₁, d.run h (if d.fileAt p then removePath p d else []) = some d₁ ∧
        (d₁.at_ p = none ∨ d₁.dirAt p = true) ∧ Frame (· = p) p.dropLast d d₁ := by
      rcases d.at_cases p with ⟨hnone, -, hfile⟩ | ⟨hdirp, hfile⟩ | ⟨hfile, hnot⟩
      · exact ⟨d, by rw [hfile]; rfl, Or.inl hnone, Frame.refl d⟩
      · exact ⟨d, by rw [hfile]; rfl, Or.inr hdirp, Frame.refl d⟩
      · obtain ⟨d₁, hrun, hgone, hframe⟩ := removePath_spec (h := h) hsound p
        refine ⟨d₁, by rw [if_pos hfile]; exact hrun, Or.inl (hgone p List.prefix_rfl),
          hframe.narrow fun q hq hqp => ?_⟩
        rw [hgone q hq, hsound.at_below hne hnot hq hqp]
    obtain ⟨d₁, hrun₁, hopen, hframe₁⟩ := hclear
    have hsound₁ := hsound.run hrun₁
    have hp₁ : d₁.housed p = true := by rw [hframe₁.housed (Or.inr (dropLast_ne hne)), hp]
    obtain ⟨d₂, hrun₂, hdir₂, hframe₂⟩ := createDirAll_spec (h := h) hsound₁ hp₁ hopen
    obtain ⟨node, hnode₂, hisDir₂⟩ := dirAt_iff.mp hdir₂
    obtain ⟨d₃, hcall, hat, hframe₃⟩ := chmod_spec (h := h) p.dropLast (mode ||| 448) hnode₂
    refine ⟨d₃, ?_, dirAt_iff.mpr ⟨_, hat, by simpa using hisDir₂⟩,
      (hframe₁.trans hframe₂).trans hframe₃⟩
    unfold makeDirectory
    rw [hnode]
    exact runSteps_cons hrun₁ (runSteps_cons hrun₂ (runSteps_cons (run_cons hcall rfl) rfl))

/-- **The second loop**, for one file. -/
theorem writeFile_spec (hsound : Sound d) (hp : d.housed p = true)
    (hfile : target.fileAt p = true) : ∃ d', runSteps h d (writeFile h target p) = some d' ∧
      d'.at_ p = (target.at_ p).map (Node.kept h) ∧
      (∀ q, p <+: q → q ≠ p → d'.at_ q = none) ∧ Frame (p <+: ·) p.dropLast d d' := by
  have hne := (housed_iff.mp hp).1
  obtain ⟨content, mode, mtime, xattrs, hnode⟩ := fileAt_iff.mp hfile
  have hclear :
      ∃ d₁, d.run h (if d.dirAt p then removePath p d else []) = some d₁ ∧ d₁.dirAt p = false ∧
        Frame (p <+: ·) p.dropLast d d₁ := by
    by_cases hdir : d.dirAt p = true
    · obtain ⟨d₁, hrun, hgone, hframe⟩ := removePath_spec (h := h) hsound p
      refine ⟨d₁, by rw [if_pos hdir]; exact hrun, ?_, hframe⟩
      unfold Disk.dirAt
      rw [hgone p List.prefix_rfl]
      rfl
    · exact ⟨d, by rw [if_neg hdir]; rfl, by simpa using hdir, Frame.refl d⟩
  obtain ⟨d₁, hrun₁, hdir₁, hframe₁⟩ := hclear
  have hnotBelow : ¬ p <+: p.dropLast := by
    intro hpre
    have hle := hpre.length_le
    rw [List.length_dropLast] at hle
    have hpos := List.length_pos_of_ne_nil hne
    omega
  have hsound₁ := hsound.run hrun₁
  have hp₁ : d₁.housed p = true := by rw [hframe₁.housed (Or.inr hnotBelow), hp]
  obtain ⟨d₂, hrun₂, hat, hframe₂⟩ :=
    restoreFile_spec (h := h) content mode mtime xattrs hsound₁ hp₁ hdir₁
  refine ⟨d₂, ?_, by rw [hat, hnode]; rfl, fun q hq hqp => ?_,
    hframe₁.trans (hframe₂.mono fun q hq => ?_)⟩
  · unfold writeFile
    rw [hnode]
    have hparent : d.run h (createDirAll p.dropLast d) = some d := by
      rw [createDirAll_dropLast hsound hp]
      rfl
    exact runSteps_cons hparent (runSteps_cons hrun₁ (runSteps_cons hrun₂ rfl))
  · have hsound₂ := hsound₁.run hrun₂
    refine hsound₂.at_below hne ?_ hq hqp
    unfold Disk.dirAt
    rw [hat]
    rfl
  · rw [hq]

/-- **The last loop**, for one directory. -/
theorem finishDirectory_spec (hthere : d.dirAt p = true) (hdir : target.dirAt p = true) :
    ∃ d', runSteps h d (finishDirectory target p) = some d' ∧ d'.at_ p = target.at_ p ∧
      ∀ q, q ≠ p → d'.at_ q = d.at_ q := by
  obtain ⟨node, hnode, hisDir⟩ := dirAt_iff.mp hdir
  obtain ⟨node', hnode', hisDir'⟩ := dirAt_iff.mp hthere
  cases node with
  | file content mode mtime xattrs => exact absurd hisDir (by simp [Node.isDir])
  | directory mode mtime =>
    obtain ⟨d₁, hcall₁, hat₁, hframe₁⟩ := chmod_spec (h := h) p mode hnode'
    obtain ⟨d₂, hcall₂, hat₂, hframe₂⟩ := utimes_spec (h := h) p mtime hat₁
    refine ⟨d₂, ?_, ?_, fun q hq => (hframe₁.trans hframe₂).at_eq hq hq⟩
    · unfold finishDirectory
      rw [hnode]
      exact runSteps_cons (run_cons hcall₁ (run_cons hcall₂ rfl)) rfl
    · rw [hat₂, hnode]
      cases node' with
      | file content mode' mtime' xattrs => exact absurd hisDir' (by simp [Node.isDir])
      | directory mode' mtime' => rfl

end Loops

end Crash

end Furrow
