import Mathlib
import Furrow.Lib.Pairing
import Furrow.ContentClass

set_option relaxedAutoImplicit false
set_option autoImplicit false

/-!
# What is left of an archived workspace

`archive.rs`: an archive records every entry of a workspace, then the workspace is deleted.  A
deletion that was interrupted is taken up again only if all that is left was captured, and has not
changed (`verify_remainder`).  Deleting changes the times of directories, and may give them to their
owner; hard links disappear one by one, and with them the first names of groups, by which the
entries refer to each other.

Contents are compared by the identifiers of their chunks, which are one to one.  Nothing changes
while a workspace is looked at.  Paths are lists of names, and the children of a directory come in
their order.

## Main definitions

* `Furrow.Archive.Item`, `Furrow.Archive.Tree`, `Furrow.Archive.Workspace` — a workspace.
* `Furrow.Archive.Host.scan`, `Furrow.Archive.Host.capture` — the manifest of a workspace.
* `Furrow.Archive.Host.verifyRemainder` — the check.
* `Furrow.Archive.Remains` — one workspace is what is left of another.

## Main results

* `Furrow.Archive.Host.scan_eq_ok_iff` — the entries of a workspace.
* `Furrow.Archive.Host.verifyRemainder_iff` — the check accepts what is left, and nothing else.
-/

namespace Furrow

namespace Archive

/-- A path in a workspace, by its names. -/
abbrev Path := List Bytes

/-- The kinds of objects in a manifest. -/
inductive Kind
  | directory
  | file
  | symlink
deriving DecidableEq

/-- An entry of a manifest. -/
structure Entry where
  name : Path
  kind : Kind
  mode : UInt32
  uid : ℕ
  gid : ℕ
  secs : ℤ
  nanos : ℤ
  size : ℕ
  links : ℕ
  link : Bytes
  chunks : List Bytes
  attrs : List (Bytes × Bytes)
  hardlink : Option Path
deriving DecidableEq

/-- The name that the names of a file share. -/
def Entry.group (e : Entry) : Path := e.hardlink.getD e.name

/-- `Receipt` -/
structure Receipt where
  files : ℕ
  logicalBytes : ℕ
  generatedMarkers : ℕ

/-! ## Workspaces -/

/-- What an object is, with its content. -/
inductive Body
  | directory
  | file (content : Bytes)
  | symlink (target : Bytes)
  | special
deriving DecidableEq

/-- What the system says of an object. -/
structure Item where
  dev : ℕ
  ino : ℕ
  nlink : ℕ
  mode : UInt32
  uid : ℕ
  gid : ℕ
  secs : ℤ
  nanos : ℤ
  blocks : ℕ
  attrs : OrdMap Bytes Bytes
  body : Body

namespace Body

/-- The kind of an object, if it can be archived. -/
def kind : Body → Option Kind
  | directory => some .directory
  | file _ => some .file
  | symlink _ => some .symlink
  | special => none

/-- The content of a file. -/
def content : Body → Bytes
  | file content => content
  | _ => []

/-- The target of a symlink. -/
def target : Body → Bytes
  | symlink target => target
  | _ => []

end Body

namespace Item

/-- Whether it is a regular file. -/
def isFile (item : Item) : Bool :=
  match item.body with
  | .file _ => true
  | _ => false

/-- Whether it is a directory. -/
def isDir (item : Item) : Bool := item.body = .directory

/-- Two names of one file. -/
def sameFile (item other : Item) : Bool :=
  item.isFile && other.isFile && (item.dev = other.dev ∧ item.ino = other.ino : Bool)

end Item

/-- An object, and what is in it if it is a directory. -/
inductive Tree
  | node (item : Item) (children : List (Bytes × Tree))

/-- The object of a tree. -/
def Tree.item : Tree → Item
  | .node item _ => item

mutual

/-- The objects of a tree with their paths, each directory before what is in it. -/
def items (path : Path) : Tree → List (Path × Item)
  | .node item children => (path, item) :: if item.isDir then itemsOf path children else []

/-- The objects of the entries of a directory. -/
def itemsOf (path : Path) : List (Bytes × Tree) → List (Path × Item)
  | [] => []
  | (name, tree) :: rest => items (path ++ [name]) tree ++ itemsOf path rest

end

/-- A workspace.  Names of a directory differ; names of one file show the same object, which counts
its names. -/
structure Workspace where
  tree : Tree
  distinct : ((items [] tree).map Prod.fst).Nodup
  shared : ∀ x ∈ items [] tree, ∀ y ∈ items [] tree, x.2.sameFile y.2 = true → x.2 = y.2
  counted : ∀ x ∈ items [] tree, x.2.isFile = true →
    ((items [] tree).filter fun y => y.2.sameFile x.2).length ≤ x.2.nlink

/-- The objects of a workspace. -/
def Workspace.items (w : Workspace) : List (Path × Item) := Archive.items [] w.tree

/-- The user and the group of the process; the identifiers of the chunks of a content; and the
checks of a manifest for its budgets (`validate_manifest`). -/
structure Host where
  euid : ℕ
  egid : ℕ
  chunkIds : Bytes → List Bytes
  /-- Hashes are one to one. -/
  chunkIds_injective : Function.Injective chunkIds
  validateManifest : List Entry → Bool

namespace Host

variable (h : Host)

/-! ## Scanning -/

/-- The first names of files with several, and the entries. -/
structure Scanned where
  links : OrdMap (Lex (ℕ × ℕ)) Path
  entries : List Entry

/-- Attributes that an archive does not keep. -/
def unsupportedAttr (name : Bytes) : Bool :=
  (text "system.posix_acl").isPrefixOf name || name = text "com.apple.ResourceFork" ||
    name = text "com.apple.decmpfs"

/-- The entry of an object. -/
def entry (path : Path) (item : Item) (kind : Kind) (hardlink : Option Path) : Entry where
  name := path
  kind := kind
  mode := item.mode &&& 4095
  uid := item.uid
  gid := item.gid
  secs := item.secs
  nanos := item.nanos
  size := item.body.content.length
  links := if item.isFile then item.nlink else 0
  link := item.body.target
  chunks := if item.isFile then h.chunkIds item.body.content else []
  attrs := item.attrs.toList
  hardlink := hardlink

/-- What a scan notes of an object. -/
def note (s : Scanned) (path : Path) (item : Item) (kind : Kind) : Scanned :=
  if item.isFile ∧ 1 < item.nlink then
    match s.links.get? (toLex (item.dev, item.ino)) with
    | some first => { s with entries := s.entries ++ [h.entry path item kind (some first)] }
    | none =>
      { links := s.links.insert (toLex (item.dev, item.ino)) path
        entries := s.entries ++ [h.entry path item kind none] }
  else { s with entries := s.entries ++ [h.entry path item kind none] }

/-- One object. -/
def visit (rootDevice : ℕ) (s : Scanned) (path : Path) (item : Item) : Except String Scanned :=
  if item.dev ≠ rootDevice then .error "unsupported nested filesystem mount"
  else if item.uid ≠ h.euid ∨ item.gid ≠ h.egid then .error "unsupported foreign owner or group"
  else
    match item.body.kind with
    | none => .error "unsupported special filesystem entry"
    | some kind =>
      if item.isFile ∧ item.body.content ≠ [] ∧ item.blocks * 512 < item.body.content.length then
        .error "unsupported sparse file"
      else if item.attrs.keys.any unsupportedAttr then .error "unsupported ACL/resource metadata"
      else .ok (h.note s path item kind)

mutual

/-- `walk` -/
def walk (rootDevice : ℕ) (path : Path) : Tree → Scanned → Except String Scanned
  | .node item children, s =>
    match h.visit rootDevice s path item with
    | .error e => .error e
    | .ok s => if item.isDir then walkOf rootDevice path children s else .ok s

/-- `walk`, over the entries of a directory. -/
def walkOf (rootDevice : ℕ) (path : Path) : List (Bytes × Tree) → Scanned → Except String Scanned
  | [], s => .ok s
  | (name, tree) :: rest, s =>
    match walk rootDevice (path ++ [name]) tree s with
    | .error e => .error e
    | .ok s => walkOf rootDevice path rest s

end

/-- `scan` -/
def scan (w : Workspace) : Except String (List Entry) :=
  if ¬ w.tree.item.isDir then .error "archive workspace must be a directory"
  else (h.walk w.tree.item.dev [] w.tree ⟨OrdMap.empty, []⟩).map Scanned.entries

/-! ## Capturing and checking -/

/-- The chunks and the manifest of a workspace. -/
structure Archived where
  chunks : List Bytes
  manifest : List Entry

/-- How many files share a name. -/
def groupSize (entries : List Entry) (group : Path) : ℕ :=
  ((entries.filter fun e => e.kind = .file).map Entry.group).count group

/-- `capture` -/
def capture (w : Workspace) : Except String Archived :=
  match h.scan w with
  | .error e => .error e
  | .ok entries =>
    if (entries.filter fun e => e.kind = .file).any fun e =>
      groupSize entries e.group ≠ e.links then
      .error "unsupported hardlink outside workspace"
    else
      match h.scan w with
      | .error e => .error e
      | .ok check =>
        if entries ≠ check then .error "workspace changed during capture"
        else if ¬ h.validateManifest entries then .error "archive entry budget exceeded"
        else .ok ⟨entries.flatMap Entry.chunks, entries⟩

/-- The names of groups, old to new and back, and the new name of every file. -/
structure Maps where
  mapping : OrdMap Path Path
  reverse : OrdMap Path Path
  groups : List Path

/-- A file of an old and a new group. -/
def pair (s : Maps) (old new : Path) : Except String Maps :=
  if (s.mapping.get? old).any (· ≠ new) then .error "retirement hardlink group split"
  else if (s.reverse.get? new).any (· ≠ old) then .error "retirement hardlink groups merged"
  else .ok ⟨s.mapping.insert old new, s.reverse.insert new old, s.groups ++ [new]⟩

/-- An entry that is left, but for what may change. -/
def settled (e a : Entry) : Entry :=
  if a.kind = .directory ∧ e.kind = .directory then
    { a with mode := e.mode, secs := e.secs, nanos := e.nanos }
  else if a.kind = .file ∧ e.kind = .file then { a with links := 0, hardlink := none }
  else a

/-- The captured entry, but for what may change. -/
def expectedOf (e a : Entry) : Entry :=
  if a.kind = .file ∧ e.kind = .file then { e with links := 0, hardlink := none } else e

/-- One entry that is left. -/
def check (expected : OrdMap Path Entry) (s : Maps) (a : Entry) : Except String Maps :=
  match expected.get? a.name with
  | none => .error "retirement remainder contains a new path"
  | some e =>
    if a.kind = .directory ∧ e.kind = .directory ∧ a.mode ≠ e.mode ∧ a.mode ≠ e.mode ||| 448 then
      .error "retirement directory permissions changed"
    else
      match if a.kind = .file ∧ e.kind = .file then pair s e.group a.group else .ok s with
      | .error error => .error error
      | .ok s => if settled e a ≠ expectedOf e a then .error "retirement remainder changed"
        else .ok s

/-- The entries that are left, one after the other. -/
def checkAll (expected : OrdMap Path Entry) : Maps → List Entry → Except String Maps
  | s, [] => .ok s
  | s, a :: rest =>
    match check expected s a with
    | .error e => .error e
    | .ok s => checkAll expected s rest

/-- `receipt` -/
def receipt (manifest : List Entry) : Receipt where
  files := (manifest.filter fun e => e.kind = .file).length
  logicalBytes := (manifest.map Entry.size).sum
  generatedMarkers := 0

/-- `verify_remainder` -/
def verifyRemainder (archive : Archived) (w : Workspace) : Except String Receipt :=
  if ¬ h.validateManifest archive.manifest then .error "archive entry budget exceeded"
  else if (archive.manifest.flatMap Entry.chunks).any fun id => !archive.chunks.contains id then
    .error "corrupt archive chunk"
  else
    match h.scan w with
    | .error e => .error e
    | .ok actual =>
      let expected := OrdMap.empty.foldInsert (archive.manifest.map fun e => (e.name, e))
      match checkAll expected ⟨OrdMap.empty, OrdMap.empty, []⟩ actual with
      | .error e => .error e
      | .ok s =>
        if (actual.filter fun a => a.kind = .file).any fun a =>
          a.links ≠ s.groups.count a.group then
          .error "retirement remainder has an external hardlink"
        else .ok (receipt archive.manifest)

end Host

/-! ## What is left -/

/-- An object as it was captured; a directory may have other times, and may have been given to its
owner. -/
def Unchanged (old new : Item) : Prop :=
  new.body = old.body ∧ new.uid = old.uid ∧ new.gid = old.gid ∧ new.attrs = old.attrs ∧
    if new.isDir then
      new.mode &&& 4095 = old.mode &&& 4095 ∨ new.mode &&& 4095 = old.mode &&& 4095 ||| 448
    else new.mode &&& 4095 = old.mode &&& 4095 ∧ new.secs = old.secs ∧ new.nanos = old.nanos

/-- One workspace is what is left of another: all objects were there, files that are left are the
same file exactly if they were, and have no names but those that are left. -/
structure Remains (old new : List (Path × Item)) : Prop where
  objects : ∀ x ∈ new, ∃ y ∈ old, y.1 = x.1 ∧ Unchanged y.2 x.2
  files : ∀ x ∈ new, ∀ x' ∈ new, x.2.isFile = true → x'.2.isFile = true → ∀ y ∈ old, ∀ y' ∈ old,
    y.1 = x.1 → y'.1 = x'.1 → (x.2.sameFile x'.2 = true ↔ y.2.sameFile y'.2 = true)
  links : ∀ x ∈ new, x.2.isFile = true → x.2.nlink = (new.filter fun y => y.2.sameFile x.2).length

namespace Item

/-- Files are the same if their device and number are. -/
theorem sameFile_iff {x y : Item} :
    x.sameFile y = true ↔ x.isFile = true ∧ y.isFile = true ∧ x.dev = y.dev ∧ x.ino = y.ino := by
  simp [sameFile, and_assoc]

/-- A file is the same as itself. -/
theorem sameFile_self {x : Item} (h : x.isFile = true) : x.sameFile x = true :=
  sameFile_iff.mpr ⟨h, h, rfl, rfl⟩

/-- Being the same file is symmetric. -/
theorem sameFile_symm {x y : Item} (h : x.sameFile y = true) : y.sameFile x = true := by
  obtain ⟨hx, hy, hdev, hino⟩ := sameFile_iff.mp h
  exact sameFile_iff.mpr ⟨hy, hx, hdev.symm, hino.symm⟩

/-- Being the same file is transitive. -/
theorem sameFile_trans {x y z : Item} (h : x.sameFile y = true) (h' : y.sameFile z = true) :
    x.sameFile z = true := by
  obtain ⟨hx, -, hdev, hino⟩ := sameFile_iff.mp h
  obtain ⟨-, hz, hdev', hino'⟩ := sameFile_iff.mp h'
  exact sameFile_iff.mpr ⟨hx, hz, hdev.trans hdev', hino.trans hino'⟩

/-- The same file is the same as the same others. -/
theorem sameFile_congr {x y z : Item} (h : x.sameFile y = true) : z.sameFile x = z.sameFile y := by
  rw [Bool.eq_iff_iff]
  exact ⟨fun hz => sameFile_trans hz h, fun hz => sameFile_trans hz (sameFile_symm h)⟩

end Item

namespace Host

variable {h : Host}

/-! ## The entries of a workspace -/

/-- What a scan accepts. -/
def Accepts (h : Host) (rootDevice : ℕ) (item : Item) : Prop :=
  item.dev = rootDevice ∧ (item.uid = h.euid ∧ item.gid = h.egid) ∧ item.body.kind.isSome = true ∧
    ¬ (item.isFile = true ∧ item.body.content ≠ [] ∧ item.blocks * 512 < item.body.content.length) ∧
    item.attrs.keys.any unsupportedAttr = false

/-- The kind of an object that is accepted. -/
def kindOf (item : Item) : Kind := item.body.kind.getD .symlink

/-- An object is visited if it can be archived, and it is noted then. -/
theorem visit_eq_ok_iff {rootDevice : ℕ} {s s' : Scanned} {path : Path} {item : Item} :
    h.visit rootDevice s path item = .ok s' ↔
      h.Accepts rootDevice item ∧ h.note s path item (kindOf item) = s' := by
  unfold visit Accepts kindOf
  by_cases hdev : item.dev = rootDevice
  · by_cases howner : item.uid = h.euid ∧ item.gid = h.egid
    · rw [if_neg (not_not.mpr hdev), if_neg (by rw [not_or, not_not, not_not]; exact howner)]
      cases hkind : item.body.kind with
      | none => simp
      | some kind =>
        dsimp only
        split_ifs with hsparse hattr
        · simp [hsparse]
        · simp [hattr]
        · simp [hdev, howner, hsparse, hattr]
    · rw [if_neg (not_not.mpr hdev), if_pos (by rw [← not_and_or]; exact howner)]
      simp [howner]
  · rw [if_pos hdev]
    simp [hdev]

/-- One object after the other. -/
def visits (h : Host) (rootDevice : ℕ) : Scanned → List (Path × Item) → Except String Scanned
  | s, [] => .ok s
  | s, x :: rest =>
    match h.visit rootDevice s x.1 x.2 with
    | .error e => .error e
    | .ok s => visits h rootDevice s rest

/-- Visits, and those after them. -/
theorem visits_append (rootDevice : ℕ) (s : Scanned) (l l' : List (Path × Item)) :
    h.visits rootDevice s (l ++ l') =
      match h.visits rootDevice s l with
      | .error e => .error e
      | .ok s => h.visits rootDevice s l' := by
  induction l generalizing s with
  | nil => rfl
  | cons x l ih =>
    rw [List.cons_append, visits, visits]
    cases h.visit rootDevice s x.1 x.2 with
    | error e => rfl
    | ok s => exact ih s

mutual

/-- A walk visits the objects of a tree. -/
theorem walk_eq_visits (rootDevice : ℕ) (path : Path) (tree : Tree) (s : Scanned) :
    h.walk rootDevice path tree s = h.visits rootDevice s (items path tree) := by
  cases tree with
  | node item children =>
    rw [walk, items, visits]
    cases h.visit rootDevice s path item with
    | error e => rfl
    | ok s =>
      dsimp only
      split_ifs
      · exact walkOf_eq_visits rootDevice path children s
      · rfl

/-- The walk over the entries of a directory visits their objects. -/
theorem walkOf_eq_visits (rootDevice : ℕ) (path : Path) (children : List (Bytes × Tree))
    (s : Scanned) : h.walkOf rootDevice path children s = h.visits rootDevice s
    (itemsOf path children) := by
  cases children with
  | nil => rfl
  | cons child rest =>
    obtain ⟨name, tree⟩ := child
    rw [walkOf, itemsOf, visits_append, walk_eq_visits rootDevice (path ++ [name]) tree s]
    cases h.visits rootDevice s (items (path ++ [name]) tree) with
    | error e => rfl
    | ok s => exact walkOf_eq_visits rootDevice path rest s

end

/-- A walk succeeds if every object can be archived. -/
theorem visits_eq_ok_iff {rootDevice : ℕ} {s s' : Scanned} {l : List (Path × Item)} :
    h.visits rootDevice s l = .ok s' ↔ (∀ x ∈ l, h.Accepts rootDevice x.2) ∧
      l.foldl (fun s x => h.note s x.1 x.2 (kindOf x.2)) s = s' := by
  induction l generalizing s with
  | nil => simp [visits]
  | cons x l ih =>
    rw [visits, List.foldl_cons, List.forall_mem_cons]
    cases hvisit : h.visit rootDevice s x.1 x.2 with
    | error e =>
      have hnot : ¬ h.Accepts rootDevice x.2 := by
        intro haccepts
        rw [visit_eq_ok_iff.mpr ⟨haccepts, rfl⟩] at hvisit
        exact absurd hvisit (by simp)
      simp [hnot]
    | ok s₁ =>
      obtain ⟨haccepts, hnote⟩ := visit_eq_ok_iff.mp hvisit
      dsimp only
      rw [ih, hnote]
      simp [haccepts]

/-- The first name of a file. -/
def rep (l : List (Path × Item)) (x : Path × Item) : Path :=
  ((l.find? fun y => y.2.sameFile x.2).map Prod.fst).getD x.1

/-- The entry of an object among others. -/
def entryOf (h : Host) (l : List (Path × Item)) (x : Path × Item) : Entry :=
  h.entry x.1 x.2 (kindOf x.2) (if rep l x = x.1 then none else some (rep l x))

/-- The group of an entry is the first path of its object. -/
theorem group_entryOf (l : List (Path × Item)) (x : Path × Item) :
    (h.entryOf l x).group = rep l x := by
  unfold entryOf entry Entry.group
  dsimp only
  split_ifs with heq
  · exact heq.symm
  · rfl

/-- Entries of files are of files. -/
theorem kind_entryOf (l : List (Path × Item)) (x : Path × Item) :
    (h.entryOf l x).kind = .file ↔ x.2.isFile = true := by
  unfold entryOf entry kindOf Item.isFile Body.kind
  dsimp only
  cases x.2.body <;> simp

/-- A file has a first path. -/
theorem exists_rep {l : List (Path × Item)} {x : Path × Item} (hx : x ∈ l)
    (hfile : x.2.isFile = true) : ∃ z ∈ l, z.2.sameFile x.2 = true ∧ rep l x = z.1 := by
  have hsome : (l.find? fun y => y.2.sameFile x.2).isSome = true := by
    rw [List.find?_isSome]
    exact ⟨x, hx, Item.sameFile_self hfile⟩
  obtain ⟨z, hz⟩ := Option.isSome_iff_exists.mp hsome
  have hsame : z.2.sameFile x.2 = true := by simpa using List.find?_some hz
  refine ⟨z, List.mem_of_find?_eq_some hz, hsame, ?_⟩
  rw [rep, hz]
  rfl

/-- Objects at one path are one. -/
theorem eq_of_name {l : List (Path × Item)} (hnodup : (l.map Prod.fst).Nodup) {x y : Path × Item}
    (hx : x ∈ l) (hy : y ∈ l) (hname : x.1 = y.1) : x = y :=
  List.inj_on_of_nodup_map hnodup hx hy hname

/-- **Files have the same first name exactly if they are the same.** -/
theorem rep_eq_iff {l : List (Path × Item)} (hnodup : (l.map Prod.fst).Nodup) {x y : Path × Item}
    (hx : x ∈ l) (hy : y ∈ l) (hfile : x.2.isFile = true) (hfile' : y.2.isFile = true) :
    rep l x = rep l y ↔ x.2.sameFile y.2 = true := by
  obtain ⟨z, hz, hzx, hrep⟩ := exists_rep hx hfile
  obtain ⟨z', hz', hzy, hrep'⟩ := exists_rep hy hfile'
  constructor
  · intro heq
    have hzz : z = z' := eq_of_name hnodup hz hz' (hrep.symm.trans (heq.trans hrep'))
    subst hzz
    exact Item.sameFile_trans (Item.sameFile_symm hzx) hzy
  · intro hsame
    have hfind : (l.find? fun u => u.2.sameFile x.2) = l.find? fun u => u.2.sameFile y.2 := by
      congr 1
      funext u
      exact Item.sameFile_congr hsame
    rw [hrep, hrep']
    have hzSome : (l.find? fun u => u.2.sameFile x.2).isSome = true := by
      rw [List.find?_isSome]
      exact ⟨x, hx, Item.sameFile_self hfile⟩
    obtain ⟨u, hu⟩ := Option.isSome_iff_exists.mp hzSome
    have h₁ : rep l x = u.1 := by rw [rep, hu]; rfl
    have h₂ : rep l y = u.1 := by rw [rep, ← hfind, hu]; rfl
    rw [← hrep, ← hrep', h₁, h₂]

/-- What is known of the objects of a workspace. -/
structure Housed (l : List (Path × Item)) : Prop where
  distinct : (l.map Prod.fst).Nodup
  shared : ∀ x ∈ l, ∀ y ∈ l, x.2.sameFile y.2 = true → x.2 = y.2
  counted : ∀ x ∈ l, x.2.isFile = true → (l.filter fun y => y.2.sameFile x.2).length ≤ x.2.nlink

/-- The objects of a workspace are listed once, and count their names. -/
theorem housed_items (w : Workspace) : Housed w.items := ⟨w.distinct, w.shared, w.counted⟩

/-- A file whose links are noted. -/
def notes (dev ino : ℕ) (y : Path × Item) : Bool :=
  y.2.isFile && decide (1 < y.2.nlink) && decide (y.2.dev = dev) && decide (y.2.ino = ino)

/-- What is noted under a device and a number. -/
theorem notes_iff {dev ino : ℕ} {y : Path × Item} :
    notes dev ino y = true ↔ y.2.isFile = true ∧ 1 < y.2.nlink ∧ y.2.dev = dev ∧ y.2.ino = ino := by
  simp [notes, and_assoc]

/-- What a scan has noted of the objects it has seen. -/
structure Noted (h : Host) (l done : List (Path × Item)) (s : Scanned) : Prop where
  links : ∀ dev ino, s.links.get? (toLex (dev, ino)) = (done.find? (notes dev ino)).map Prod.fst
  entries : s.entries = done.map (h.entryOf l)

/-- What is no file has no other name. -/
theorem rep_of_not_file {l : List (Path × Item)} {x : Path × Item} (hfile : ¬ x.2.isFile = true) :
    rep l x = x.1 := by
  have hnone : (l.find? fun y => y.2.sameFile x.2) = none := by
    rw [List.find?_eq_none]
    exact fun y _ hsame => hfile (Item.sameFile_iff.mp hsame).2.1
  rw [rep, hnone]
  rfl

/-- An object without other names is its own first. -/
theorem rep_of_not_noted {l : List (Path × Item)} (hl : Housed l) {x : Path × Item} (hx : x ∈ l)
    (hnot : ¬ (x.2.isFile = true ∧ 1 < x.2.nlink)) : rep l x = x.1 := by
  by_cases hfile : x.2.isFile = true
  · obtain ⟨z, hz, hzx, hrep⟩ := exists_rep hx hfile
    have hone : (l.filter fun y => y.2.sameFile x.2).length ≤ 1 :=
      (hl.counted x hx hfile).trans (not_lt.mp fun hlt => hnot ⟨hfile, hlt⟩)
    have hzMem : z ∈ l.filter fun y => y.2.sameFile x.2 := List.mem_filter.mpr ⟨hz, hzx⟩
    have hxMem : x ∈ l.filter fun y => y.2.sameFile x.2 :=
      List.mem_filter.mpr ⟨hx, Item.sameFile_self hfile⟩
    rw [hrep]
    have hpos := List.length_pos_of_mem hxMem
    obtain ⟨u, hu⟩ := List.length_eq_one_iff.mp (le_antisymm hone hpos)
    rw [hu, List.mem_singleton] at hzMem hxMem
    rw [hzMem, hxMem]
  · exact rep_of_not_file hfile

/-- A search depends on the elements of the list only. -/
theorem find?_congr_mem {l : List (Path × Item)} {p q : Path × Item → Bool}
    (hpq : ∀ y ∈ l, p y = q y) : l.find? p = l.find? q := by
  induction l with
  | nil => rfl
  | cons y l ih =>
    rw [List.find?_cons, List.find?_cons, hpq y List.mem_cons_self,
      ih fun z hz => hpq z (List.mem_cons_of_mem _ hz)]

/-- The first name of a file with several is the one that was noted, if one was. -/
theorem rep_of_noted {l done todo : List (Path × Item)} {x : Path × Item} (hl : Housed l)
    (hsplit : l = done ++ x :: todo) (hfile : x.2.isFile = true) (hlinks : 1 < x.2.nlink) :
    (match (done.find? (notes x.2.dev x.2.ino)).map Prod.fst with
      | some first => rep l x = first ∧ first ≠ x.1
      | none => rep l x = x.1) := by
  have hx : x ∈ l := hsplit ▸ List.mem_append_right _ List.mem_cons_self
  have hdone : ∀ y ∈ done, y ∈ l := fun y hy => hsplit ▸ List.mem_append_left _ hy
  have hnotes : (done.find? (notes x.2.dev x.2.ino)) = done.find? fun y => y.2.sameFile x.2 := by
    refine find?_congr_mem fun y hy => ?_
    rw [Bool.eq_iff_iff, notes_iff, Item.sameFile_iff]
    constructor
    · exact fun hy' => ⟨hy'.1, hfile, hy'.2.2⟩
    · intro hsame
      have heq := hl.shared y (hdone y hy) x hx (Item.sameFile_iff.mpr hsame)
      exact ⟨hsame.1, heq ▸ hlinks, hsame.2.2⟩
  have hfind : (l.find? fun y => y.2.sameFile x.2) =
      (done.find? fun y => y.2.sameFile x.2).or (some x) := by
    rw [hsplit, List.find?_append, List.find?_cons, Item.sameFile_self hfile]
  rw [hnotes]
  cases hd : done.find? fun y => y.2.sameFile x.2 with
  | none =>
    rw [hd] at hfind
    rw [Option.map_none]
    dsimp only
    rw [rep, hfind]
    rfl
  | some z =>
    rw [hd] at hfind
    rw [Option.map_some]
    refine ⟨by rw [rep, hfind]; rfl, ?_⟩
    intro hname
    have hz : z ∈ done := List.mem_of_find?_eq_some hd
    have hdistinct := hl.distinct
    rw [hsplit, List.map_append, List.map_cons, List.nodup_append] at hdistinct
    exact hdistinct.2.2 z.1 (List.mem_map_of_mem hz) x.1 List.mem_cons_self hname

/-- One visit notes the first path of its object. -/
theorem noted_note {l done todo : List (Path × Item)} {x : Path × Item} {s : Scanned}
    (hl : Housed l) (hsplit : l = done ++ x :: todo) (hs : Noted h l done s) :
    Noted h l (done ++ [x]) (h.note s x.1 x.2 (kindOf x.2)) := by
  have hx : x ∈ l := hsplit ▸ List.mem_append_right _ List.mem_cons_self
  have hfindAppend : ∀ dev ino, (done ++ [x]).find? (notes dev ino) =
      (done.find? (notes dev ino)).or (if notes dev ino x then some x else none) := by
    intro dev ino
    rw [List.find?_append, List.find?_singleton]
  unfold note
  by_cases hnoted : x.2.isFile = true ∧ 1 < x.2.nlink
  · rw [if_pos hnoted, hs.links]
    have hrep := rep_of_noted hl hsplit hnoted.1 hnoted.2
    have hself : notes x.2.dev x.2.ino x = true := notes_iff.mpr ⟨hnoted.1, hnoted.2, rfl, rfl⟩
    cases hfirst : (done.find? (notes x.2.dev x.2.ino)).map Prod.fst with
    | some first =>
      rw [hfirst] at hrep
      refine ⟨fun dev ino => ?_, ?_⟩
      · dsimp only
        rw [hs.links, hfindAppend]
        by_cases hkey : notes dev ino x = true
        · obtain ⟨-, -, rfl, rfl⟩ := notes_iff.mp hkey
          obtain ⟨z, hz, -⟩ := Option.map_eq_some_iff.mp hfirst
          rw [hz]
          rfl
        · rw [if_neg hkey, Option.or_none]
      · dsimp only
        rw [hs.entries, List.map_append, List.map_singleton, entryOf,
          if_neg (by rw [hrep.1]; exact hrep.2), hrep.1]
    | none =>
      rw [hfirst] at hrep
      have hnone : done.find? (notes x.2.dev x.2.ino) = none := Option.map_eq_none_iff.mp hfirst
      refine ⟨fun dev ino => ?_, ?_⟩
      · dsimp only
        rw [OrdMap.get?_insert, hfindAppend]
        by_cases hkey : (dev, ino) = (x.2.dev, x.2.ino)
        · obtain ⟨rfl, rfl⟩ := Prod.mk.inj hkey
          rw [if_pos rfl, hnone, if_pos hself]
          rfl
        · rw [if_neg (fun heq => hkey (toLex_inj.mp heq)), hs.links]
          have hnot : ¬ notes dev ino x = true := by
            intro hn
            obtain ⟨-, -, rfl, rfl⟩ := notes_iff.mp hn
            exact hkey rfl
          rw [if_neg hnot, Option.or_none]
      · dsimp only at hrep ⊢
        rw [hs.entries, List.map_append, List.map_singleton, entryOf, if_pos hrep]
  · rw [if_neg hnoted]
    refine ⟨fun dev ino => ?_, ?_⟩
    · dsimp only
      have hnot : ¬ notes dev ino x = true := fun hn =>
        hnoted ⟨(notes_iff.mp hn).1, (notes_iff.mp hn).2.1⟩
      rw [hs.links, hfindAppend, if_neg hnot, Option.or_none]
    · dsimp only
      rw [hs.entries, List.map_append, List.map_singleton, entryOf,
        if_pos (rep_of_not_noted hl hx hnoted)]

/-- All visits note the first paths. -/
theorem noted_foldl {l done todo : List (Path × Item)} {s : Scanned} (hl : Housed l)
    (hsplit : l = done ++ todo) (hs : Noted h l done s) :
    Noted h l l (todo.foldl (fun s x => h.note s x.1 x.2 (kindOf x.2)) s) := by
  induction todo generalizing done s with
  | nil =>
    rw [List.append_nil] at hsplit
    exact hsplit ▸ hs
  | cons x todo ih =>
    rw [List.foldl_cons]
    exact ih (by rw [hsplit, List.append_assoc]; rfl) (noted_note hl hsplit hs)

/-- **The entries of a workspace**, if all its objects are accepted. -/
theorem scan_eq_ok_iff (w : Workspace) (entries : List Entry) :
    h.scan w = .ok entries ↔ w.tree.item.isDir = true ∧
      (∀ x ∈ w.items, h.Accepts w.tree.item.dev x.2) ∧ entries = w.items.map
      (h.entryOf w.items) := by
  unfold scan
  by_cases hdir : w.tree.item.isDir = true
  · rw [if_neg (not_not.mpr hdir), walk_eq_visits]
    have hnoted := noted_foldl (h := h) (housed_items w) (List.nil_append _).symm
      (s := ⟨OrdMap.empty, []⟩) ⟨fun _ _ => rfl, rfl⟩
    cases hvisits : h.visits w.tree.item.dev ⟨OrdMap.empty, []⟩ (items [] w.tree) with
    | error e =>
      have hnot : ¬ ∀ x ∈ w.items, h.Accepts w.tree.item.dev x.2 := by
        intro haccepts
        exact absurd (hvisits.symm.trans (visits_eq_ok_iff.mpr ⟨haccepts, rfl⟩)) (by simp)
      exact ⟨fun heq => absurd heq (by simp [Except.map]), fun hall => absurd hall.2.1 hnot⟩
    | ok s =>
      obtain ⟨haccepts, hs⟩ := visits_eq_ok_iff.mp hvisits
      have hentries : s.entries = w.items.map (h.entryOf w.items) := by
        rw [← hs]
        exact hnoted.entries
      constructor
      · intro heq
        exact ⟨hdir, haccepts, by rw [← hentries]; exact (Except.ok.inj heq).symm⟩
      · rintro ⟨-, -, rfl⟩
        exact congrArg Except.ok hentries
  · rw [if_pos hdir]
    simp [hdir]

/-! ## The check -/

/-- An entry is the captured one, but for what may change. -/
def Matches (e a : Entry) : Prop :=
  ¬ (a.kind = .directory ∧ e.kind = .directory ∧ a.mode ≠ e.mode ∧ a.mode ≠ e.mode ||| 448) ∧
    settled e a = expectedOf e a

/-- Entries that match are of one kind. -/
theorem Matches.kind_eq {e a : Entry} (hm : Matches e a) : a.kind = e.kind := by
  have hkind := congrArg Entry.kind hm.2
  unfold settled expectedOf at hkind
  split_ifs at hkind <;> exact hkind

/-- Two groups are paired if neither has another partner. -/
theorem pair_eq_ok_iff {s s' : Maps} {old new : Path} :
    pair s old new = .ok s' ↔ (∀ v, s.mapping.get? old = some v → v = new) ∧
      (∀ v, s.reverse.get? new = some v → v = old) ∧
      s' = ⟨s.mapping.insert old new, s.reverse.insert new old, s.groups ++ [new]⟩ := by
  have hany : ∀ (o : Option Path) (p : Path),
      o.any (· ≠ p) = true ↔ ¬ ∀ v, o = some v → v = p := by
    intro o p
    cases o <;> simp
  unfold pair
  split_ifs with h₁ h₂
  · simp [(hany _ _).mp h₁]
  · simp [(hany _ _).mp h₂]
  · have hold := not_not.mp (mt (hany _ _).mpr h₁)
    have hnew := not_not.mp (mt (hany _ _).mpr h₂)
    constructor
    · intro heq
      exact ⟨hold, hnew, (Except.ok.inj heq).symm⟩
    · rintro ⟨-, -, rfl⟩
      rfl

/-- An entry is accepted if its expected one matches and their groups are paired. -/
theorem check_eq_ok_iff {expected : OrdMap Path Entry} {s s' : Maps} {a : Entry} :
    check expected s a = .ok s' ↔ ∃ e, expected.get? a.name = some e ∧ Matches e a ∧
      if a.kind = .file then pair s e.group a.group = .ok s' else s = s' := by
  unfold check
  cases hget : expected.get? a.name with
  | none => simp
  | some e =>
    dsimp only
    have hright : (∃ e', some e = some e' ∧ Matches e' a ∧
        if a.kind = .file then pair s e'.group a.group = .ok s' else s = s') ↔
        Matches e a ∧ if a.kind = .file then pair s e.group a.group = .ok s' else s = s' := by
      constructor
      · rintro ⟨e', he', hrest⟩
        obtain rfl := Option.some.inj he'
        exact hrest
      · exact fun hrest => ⟨e, rfl, hrest⟩
    rw [hright]
    by_cases hmode :
        a.kind = .directory ∧ e.kind = .directory ∧ a.mode ≠ e.mode ∧ a.mode ≠ e.mode ||| 448
    · rw [if_pos hmode]
      exact ⟨fun hok => absurd hok (by simp), fun hrest => absurd hmode hrest.1.1⟩
    rw [if_neg hmode]
    by_cases hsame : settled e a = expectedOf e a
    · have hm : Matches e a := ⟨hmode, hsame⟩
      by_cases hfile : a.kind = .file
      · rw [if_pos ⟨hfile, hm.kind_eq.symm.trans hfile⟩, if_pos hfile]
        cases pair s e.group a.group with
        | error error => simp
        | ok s₁ => simp [hsame, hm]
      · rw [if_neg fun hboth => hfile hboth.1, if_neg hfile]
        simp [hsame, hm]
    · have hnot : ¬ Matches e a := fun hm => hsame hm.2
      cases hpair : (if a.kind = .file ∧ e.kind = .file then pair s e.group a.group else .ok s) with
      | error error => simp [hnot]
      | ok s₁ => simp [hsame, hnot]

/-- The group that an entry was captured in. -/
def oldGroup (expected : OrdMap Path Entry) (a : Entry) : Path :=
  ((expected.get? a.name).map Entry.group).getD []

/-- The entries of files. -/
def filesOf (entries : List Entry) : List Entry := entries.filter fun a => a.kind = .file

/-- The entries are checked one after the other. -/
theorem checkAll_cons {expected : OrdMap Path Entry} {s s' : Maps} {a : Entry} {rest : List Entry} :
    checkAll expected s (a :: rest) = .ok s' ↔
      ∃ s₁, check expected s a = .ok s₁ ∧ checkAll expected s₁ rest = .ok s' := by
  rw [checkAll]
  cases check expected s a with
  | error e => simp
  | ok s₁ => simp

/-- **All entries pass exactly if each is as it was captured, and the groups go together both
ways.** -/
theorem checkAll_iff {expected : OrdMap Path Entry} {s : Maps} {actual : List Entry} :
    (∃ s', checkAll expected s actual = .ok s') ↔
      (∀ a ∈ actual, ∃ e, expected.get? a.name = some e ∧ Matches e a) ∧
      Pairing.Consistent s.mapping ((filesOf actual).map fun a => (oldGroup expected a, a.group)) ∧
      Pairing.Consistent s.reverse
        ((filesOf actual).map fun a => (a.group, oldGroup expected a)) := by
  induction actual generalizing s with
  | nil => simp [checkAll, filesOf, Pairing.Consistent, Pairing.Functional]
  | cons a rest ih =>
    have hsplit : (∃ s', checkAll expected s (a :: rest) = .ok s') ↔
        ∃ s₁, check expected s a = .ok s₁ ∧ ∃ s', checkAll expected s₁ rest = .ok s' := by
      constructor
      · rintro ⟨s', hs'⟩
        obtain ⟨s₁, hs₁, hrest⟩ := checkAll_cons.mp hs'
        exact ⟨s₁, hs₁, s', hrest⟩
      · rintro ⟨s₁, hs₁, s', hrest⟩
        exact ⟨s', checkAll_cons.mpr ⟨s₁, hs₁, hrest⟩⟩
    rw [hsplit, List.forall_mem_cons]
    by_cases hfile : a.kind = .file
    · have hfiles : filesOf (a :: rest) = a :: filesOf rest :=
        List.filter_cons_of_pos (by simpa using hfile)
      rw [hfiles, List.map_cons, List.map_cons, Pairing.consistent_cons, Pairing.consistent_cons]
      constructor
      · rintro ⟨s₁, hs₁, hrest⟩
        obtain ⟨e, hget, hm, hpair⟩ := check_eq_ok_iff.mp hs₁
        rw [if_pos hfile] at hpair
        obtain ⟨hold, hnew, rfl⟩ := pair_eq_ok_iff.mp hpair
        have hgroup : oldGroup expected a = e.group := by rw [oldGroup, hget]; rfl
        obtain ⟨hall, hmap, hrev⟩ := ih.mp hrest
        rw [hgroup]
        exact ⟨⟨⟨e, hget, hm⟩, hall⟩, ⟨hold, hmap⟩, hnew, hrev⟩
      · rintro ⟨⟨⟨e, hget, hm⟩, hall⟩, ⟨hold, hmap⟩, hnew, hrev⟩
        have hgroup : oldGroup expected a = e.group := by rw [oldGroup, hget]; rfl
        rw [hgroup] at hold hmap hnew hrev
        refine ⟨⟨s.mapping.insert e.group a.group, s.reverse.insert a.group e.group,
          s.groups ++ [a.group]⟩, check_eq_ok_iff.mpr ⟨e, hget, hm, ?_⟩, ih.mpr ⟨hall, hmap, hrev⟩⟩
        rw [if_pos hfile]
        exact pair_eq_ok_iff.mpr ⟨hold, hnew, rfl⟩
    · have hfiles : filesOf (a :: rest) = filesOf rest :=
        List.filter_cons_of_neg (by simpa using hfile)
      rw [hfiles]
      constructor
      · rintro ⟨s₁, hs₁, hrest⟩
        obtain ⟨e, hget, hm, hpair⟩ := check_eq_ok_iff.mp hs₁
        rw [if_neg hfile] at hpair
        subst hpair
        obtain ⟨hall, hmaps⟩ := ih.mp hrest
        exact ⟨⟨⟨e, hget, hm⟩, hall⟩, hmaps⟩
      · rintro ⟨⟨⟨e, hget, hm⟩, hall⟩, hmaps⟩
        refine ⟨s, check_eq_ok_iff.mpr ⟨e, hget, hm, ?_⟩, ih.mpr ⟨hall, hmaps⟩⟩
        rw [if_neg hfile]

/-- The groups of the files that were seen. -/
theorem groups_of_checkAll {expected : OrdMap Path Entry} {s s' : Maps} {actual : List Entry}
    (hok : checkAll expected s actual = .ok s') :
    s'.groups = s.groups ++ (filesOf actual).map Entry.group := by
  induction actual generalizing s with
  | nil =>
    rw [← Except.ok.inj hok]
    simp [filesOf]
  | cons a rest ih =>
    obtain ⟨s₁, hs₁, hrest⟩ := checkAll_cons.mp hok
    obtain ⟨e, -, -, hpair⟩ := check_eq_ok_iff.mp hs₁
    rw [ih hrest]
    by_cases hfile : a.kind = .file
    · rw [if_pos hfile] at hpair
      obtain ⟨-, -, rfl⟩ := pair_eq_ok_iff.mp hpair
      have hfiles : filesOf (a :: rest) = a :: filesOf rest :=
        List.filter_cons_of_pos (by simpa using hfile)
      rw [hfiles, List.map_cons, List.append_assoc]
      rfl
    · rw [if_neg hfile] at hpair
      have hfiles : filesOf (a :: rest) = filesOf rest :=
        List.filter_cons_of_neg (by simpa using hfile)
      rw [hfiles, hpair]

/-! ## What is left -/

/-- The entries match exactly if the object is unchanged. -/
theorem matches_iff {c w : List (Path × Item)} {y x : Path × Item} (hname : y.1 = x.1)
    (hx : x.2.body.kind.isSome = true) (hy : y.2.body.kind.isSome = true) :
    Matches (h.entryOf c y) (h.entryOf w x) ↔ Unchanged y.2 x.2 := by
  obtain ⟨path, new⟩ := x
  obtain ⟨path', old⟩ := y
  obtain rfl : path' = path := hname
  have hinj : ∀ b b' : Bytes, h.chunkIds b = h.chunkIds b' ↔ b = b' := fun b b' =>
    h.chunkIds_injective.eq_iff
  have hlist : ∀ m m' : OrdMap Bytes Bytes, m.toList = m'.toList ↔ m = m' := by
    intro m m'
    constructor
    · intro heq
      cases m
      cases m'
      simpa using heq
    · exact fun heq => congrArg _ heq
  have hattrs := hlist new.attrs old.attrs
  have hnewFree := rep_of_not_file (l := w) (x := (path', new))
  have holdFree := rep_of_not_file (l := c) (x := (path', old))
  have hmismatch : kindOf new ≠ kindOf old →
      (Matches (h.entryOf c (path', old)) (h.entryOf w (path', new)) ↔ Unchanged old new) := by
    intro hne
    refine ⟨fun hm => absurd hm.kind_eq hne, fun hu => absurd ?_ hne⟩
    rw [kindOf, kindOf, hu.1]
  cases hnew : new.body with
  | special => exact absurd hx (by simp [hnew, Body.kind])
  | directory =>
    cases hold : old.body with
    | special => exact absurd hy (by simp [hold, Body.kind])
    | directory =>
      have hfree := hnewFree (by simp [Item.isFile, hnew])
      have hfree' := holdFree (by simp [Item.isFile, hold])
      dsimp only at hfree hfree'
      simp only [Matches, Unchanged, settled, expectedOf, entryOf, entry, kindOf,
        Item.isFile, Item.isDir, hnew, hold, Body.kind, Body.content, Body.target, Option.getD_some,
          hfree, hfree']
      simp [hattrs]
      tauto
    | file content => exact hmismatch (by simp [kindOf, hnew, hold, Body.kind])
    | symlink target => exact hmismatch (by simp [kindOf, hnew, hold, Body.kind])
  | file content =>
    cases hold : old.body with
    | special => exact absurd hy (by simp [hold, Body.kind])
    | directory => exact hmismatch (by simp [kindOf, hnew, hold, Body.kind])
    | file content' =>
      simp only [Matches, Unchanged, settled, expectedOf, entryOf, entry, kindOf,
        Item.isFile, Item.isDir, hnew, hold, Body.kind, Body.content, Body.target, Option.getD_some]
      have hlength : content = content' → content.length = content'.length := congrArg List.length
      simp [hattrs, hinj]
      tauto
    | symlink target => exact hmismatch (by simp [kindOf, hnew, hold, Body.kind])
  | symlink target =>
    cases hold : old.body with
    | special => exact absurd hy (by simp [hold, Body.kind])
    | directory => exact hmismatch (by simp [kindOf, hnew, hold, Body.kind])
    | file content => exact hmismatch (by simp [kindOf, hnew, hold, Body.kind])
    | symlink target' =>
      have hfree := hnewFree (by simp [Item.isFile, hnew])
      have hfree' := holdFree (by simp [Item.isFile, hold])
      dsimp only at hfree hfree'
      simp only [Matches, Unchanged, settled, expectedOf, entryOf, entry, kindOf,
        Item.isFile, Item.isDir, hnew, hold, Body.kind, Body.content, Body.target, Option.getD_some,
          hfree, hfree']
      simp [hattrs]
      tauto

/-- The captured entries by name. -/
theorem get?_expected {l : List (Path × Item)} (hl : (l.map Prod.fst).Nodup) (name : Path)
    (e : Entry) :
    (OrdMap.empty.foldInsert ((l.map (h.entryOf l)).map fun e => (e.name, e))).get? name = some e ↔
      ∃ y ∈ l, y.1 = name ∧ h.entryOf l y = e := by
  have hmem : ∀ e', (name, e') ∈ (l.map (h.entryOf l)).map (fun e => (e.name, e)) ↔
      ∃ y ∈ l, y.1 = name ∧ h.entryOf l y = e' := by
    intro e'
    simp only [List.map_map, List.mem_map, Function.comp_apply, Prod.mk.injEq]
    exact Iff.rfl
  constructor
  · intro hget
    rcases OrdMap.mem_of_get?_foldInsert hget with hin | hempty
    · exact (hmem e).mp hin
    · exact absurd hempty (by simp)
  · rintro ⟨y, hy, hname, rfl⟩
    have hin := (hmem _).mpr ⟨y, hy, hname, rfl⟩
    have hsome := (OrdMap.isSome_get?_foldInsert (OrdMap.empty : OrdMap Path Entry) _ name).mpr
      (Or.inl (List.mem_map_of_mem hin))
    obtain ⟨e', he'⟩ := Option.isSome_iff_exists.mp hsome
    rcases OrdMap.mem_of_get?_foldInsert he' with hin' | hempty
    · obtain ⟨y', hy', hname', rfl⟩ := (hmem e').mp hin'
      rw [he', eq_of_name hl hy hy' (hname.trans hname'.symm)]
    · exact absurd hempty (by simp)

/-- The entries of the files of a walk. -/
theorem filesOf_map (l : List (Path × Item)) :
    filesOf (l.map (h.entryOf l)) = (l.filter fun x => x.2.isFile).map (h.entryOf l) := by
  unfold filesOf
  rw [List.filter_map]
  congr 1
  refine List.filter_congr fun x _ => ?_
  rw [Function.comp_apply, Bool.eq_iff_iff, decide_eq_true_eq]
  exact kind_entryOf l x

/-- The links of a file that are left. -/
theorem count_groups {l : List (Path × Item)} (hl : (l.map Prod.fst).Nodup) {x : Path × Item}
    (hx : x ∈ l) (hfile : x.2.isFile = true) :
    ((filesOf (l.map (h.entryOf l))).map Entry.group).count (rep l x) =
      (l.filter fun y => y.2.sameFile x.2).length := by
  have hmap : (filesOf (l.map (h.entryOf l))).map Entry.group =
      (l.filter fun y => y.2.isFile).map (rep l) := by
    rw [filesOf_map, List.map_map]
    exact List.map_congr_left fun y _ => group_entryOf l y
  rw [hmap, List.count_eq_countP, List.countP_map, List.countP_filter, List.countP_eq_length_filter]
  congr 1
  refine List.filter_congr fun y hy => ?_
  rw [Function.comp_apply, Bool.eq_iff_iff, Bool.and_eq_true, beq_iff_eq]
  constructor
  · rintro ⟨heq, hfile'⟩
    exact (rep_eq_iff hl hy hx hfile' hfile).mp heq
  · intro hsame
    have hfile' := (Item.sameFile_iff.mp hsame).1
    exact ⟨(rep_eq_iff hl hy hx hfile' hfile).mpr hsame, hfile'⟩

/-- **The check accepts what is left of the workspace that was captured, and nothing else**, if a
scan accepts what is there. -/
theorem verifyRemainder_iff (h : Host) (c w : Workspace) (archive : Archived)
    (hcapture : h.capture c = .ok archive) (entries : List Entry) (hscan : h.scan w = .ok entries) :
    (∃ receipt, h.verifyRemainder archive w = .ok receipt) ↔ Remains c.items w.items := by
  obtain ⟨captured, hcaptured, hvalid, rfl⟩ : ∃ captured, h.scan c = .ok captured ∧
      h.validateManifest captured = true ∧ archive = ⟨captured.flatMap Entry.chunks, captured⟩ := by
    unfold capture at hcapture
    cases hscanned : h.scan c with
    | error e => simp [hscanned] at hcapture
    | ok captured =>
      rw [hscanned] at hcapture
      dsimp only at hcapture
      split_ifs at hcapture with h₁ h₂ h₃
      exact ⟨captured, rfl, by simpa using h₃, (Except.ok.inj hcapture).symm⟩
  obtain ⟨-, hacceptsC, rfl⟩ := (scan_eq_ok_iff c captured).mp hcaptured
  obtain ⟨-, hacceptsW, rfl⟩ := (scan_eq_ok_iff w entries).mp hscan
  have hlC := housed_items c
  have hlW := housed_items w
  have hget := fun name e => get?_expected (h := h) hlC.distinct name e
  generalize hexpected : (OrdMap.empty : OrdMap Path Entry).foldInsert
    ((c.items.map (h.entryOf c.items)).map fun e => (e.name, e)) = expected at hget
  -- The entries that are left, one by one.
  have hobjects :
      (∀ a ∈ w.items.map (h.entryOf w.items), ∃ e, expected.get? a.name = some e ∧ Matches e a) ↔
        ∀ x ∈ w.items, ∃ y ∈ c.items, y.1 = x.1 ∧ Unchanged y.2 x.2 := by
    rw [List.forall_mem_map]
    refine forall₂_congr fun x hx => ?_
    constructor
    · rintro ⟨e, he, hm⟩
      obtain ⟨y, hy, hname, rfl⟩ := (hget _ _).mp he
      exact ⟨y, hy, hname, (matches_iff hname (hacceptsW x hx).2.2.1 (hacceptsC y hy).2.2.1).mp hm⟩
    · rintro ⟨y, hy, hname, hu⟩
      exact ⟨h.entryOf c.items y, (hget _ _).mpr ⟨y, hy, hname, rfl⟩,
        (matches_iff hname (hacceptsW x hx).2.2.1 (hacceptsC y hy).2.2.1).mpr hu⟩
  -- The group that a file was captured in.
  have hold : ∀ x : Path × Item, ∀ y ∈ c.items, y.1 = x.1 →
      oldGroup expected (h.entryOf w.items x) = rep c.items y := by
    intro x y hy hname
    have he : expected.get? x.1 = some (h.entryOf c.items y) := (hget _ _).mpr ⟨y, hy, hname, rfl⟩
    have hfound : expected.get? (h.entryOf w.items x).name = some (h.entryOf c.items y) := he
    rw [oldGroup, hfound, Option.map_some, Option.getD_some, group_entryOf]
  have hpairs : (∀ x ∈ w.items, ∃ y ∈ c.items, y.1 = x.1 ∧ Unchanged y.2 x.2) →
      ((Pairing.Functional ((filesOf (w.items.map (h.entryOf w.items))).map fun a =>
          (oldGroup expected a, a.group)) ∧
        Pairing.Functional ((filesOf (w.items.map (h.entryOf w.items))).map fun a =>
          (a.group, oldGroup expected a))) ↔
      ∀ x ∈ w.items, ∀ x' ∈ w.items, x.2.isFile = true → x'.2.isFile = true →
        ∀ y ∈ c.items, ∀ y' ∈ c.items, y.1 = x.1 → y'.1 = x'.1 →
          (x.2.sameFile x'.2 = true ↔ y.2.sameFile y'.2 = true)) := by
    intro hall
    have hfileOf : ∀ x ∈ w.items, ∀ y ∈ c.items, y.1 = x.1 → x.2.isFile = true →
        y.2.isFile = true := by
      intro x hx y hy hname hfile
      obtain ⟨y', hy', hname', hu⟩ := hall x hx
      obtain rfl := eq_of_name hlC.distinct hy hy' (hname.trans hname'.symm)
      unfold Item.isFile at hfile ⊢
      rw [← hu.1]
      exact hfile
    rw [filesOf_map, Pairing.functional_iff]
    simp only [List.forall_mem_map, List.mem_filter, and_imp, group_entryOf]
    constructor
    · intro hfun x hx x' hx' hfile hfile' y hy y' hy' hname hname'
      have heq := hfun x hx hfile x' hx' hfile'
      rw [hold x y hy hname, hold x' y' hy' hname', rep_eq_iff hlC.distinct hy hy'
        (hfileOf x hx y hy hname hfile) (hfileOf x' hx' y' hy' hname' hfile'),
        rep_eq_iff hlW.distinct hx hx' hfile hfile'] at heq
      exact heq.symm
    · intro hfiles x hx hfile x' hx' hfile'
      obtain ⟨y, hy, hname, -⟩ := hall x hx
      obtain ⟨y', hy', hname', -⟩ := hall x' hx'
      rw [hold x y hy hname, hold x' y' hy' hname', rep_eq_iff hlC.distinct hy hy'
        (hfileOf x hx y hy hname hfile) (hfileOf x' hx' y' hy' hname' hfile'),
        rep_eq_iff hlW.distinct hx hx' hfile hfile']
      exact (hfiles x hx x' hx' hfile hfile' y hy y' hy' hname hname').symm
  -- The count of the links.
  have hlinks : ∀ groups : List Path,
      groups = (filesOf (w.items.map (h.entryOf w.items))).map Entry.group →
      ((((w.items.map (h.entryOf w.items)).filter fun a => a.kind = .file).any
        fun a => a.links ≠ groups.count a.group) = false ↔
      ∀ x ∈ w.items, x.2.isFile = true →
        x.2.nlink = (w.items.filter fun y => y.2.sameFile x.2).length) := by
    rintro groups rfl
    have hfilter : (w.items.map (h.entryOf w.items)).filter (fun a => a.kind = .file) =
        (w.items.filter fun x => x.2.isFile).map (h.entryOf w.items) := filesOf_map w.items
    rw [hfilter, List.any_eq_false]
    simp only [List.forall_mem_map, List.mem_filter, and_imp, decide_eq_true_eq, ne_eq,
      not_not, group_entryOf]
    refine forall₃_congr fun x hx hfile => ?_
    have hlink : (h.entryOf w.items x).links = x.2.nlink := by
      simp [entryOf, entry, hfile]
    rw [hlink, count_groups hlW.distinct hx hfile]
  have hchunks : ((c.items.map (h.entryOf c.items)).flatMap Entry.chunks).any
      (fun id => !((c.items.map (h.entryOf c.items)).flatMap Entry.chunks).contains id) =
        false := by
    rw [List.any_eq_false]
    intro id hid
    simpa using hid
  unfold verifyRemainder
  rw [if_neg (by simp [hvalid]), hchunks, if_neg (by simp), hscan]
  dsimp only
  rw [hexpected]
  constructor
  · rintro ⟨receipt, hok⟩
    cases hcheck : checkAll expected ⟨OrdMap.empty, OrdMap.empty, []⟩
        (w.items.map (h.entryOf w.items)) with
    | error e =>
      rw [hcheck] at hok
      exact absurd hok (by simp)
    | ok s =>
      rw [hcheck] at hok
      dsimp only at hok
      obtain ⟨hall, hmap, hrev⟩ := checkAll_iff.mp ⟨s, hcheck⟩
      have hobj := hobjects.mp hall
      have hfun :=
        (hpairs hobj).mp ⟨(Pairing.consistent_empty _).mp hmap,
        (Pairing.consistent_empty _).mp hrev⟩
      refine ⟨hobj, hfun, (hlinks s.groups ?_).mp ?_⟩
      · simpa using groups_of_checkAll hcheck
      · by_contra hany
        rw [if_pos (by simpa using hany)] at hok
        exact absurd hok (by simp)
  · intro hremains
    obtain ⟨hmap, hrev⟩ := (hpairs hremains.objects).mpr hremains.files
    obtain ⟨s, hs⟩ :=
      (checkAll_iff (s := ⟨OrdMap.empty, OrdMap.empty, []⟩)).mpr ⟨hobjects.mpr hremains.objects,
        (Pairing.consistent_empty _).mpr hmap, (Pairing.consistent_empty _).mpr hrev⟩
    have hgroups := groups_of_checkAll hs
    rw [List.nil_append] at hgroups
    refine ⟨receipt (c.items.map (h.entryOf c.items)), ?_⟩
    rw [hs]
    dsimp only
    rw [(hlinks s.groups hgroups).mpr hremains.links, if_neg (by simp)]

/-- A host whose chunks are whole contents. -/
def sampleHost : Host where
  euid := 1
  egid := 1
  chunkIds := fun content => [content]
  chunkIds_injective := fun a b hab => by simpa using hab
  validateManifest := fun _ => true

/-- An object of the samples. -/
def sampleItem (ino nlink : ℕ) (mode : UInt32) (body : Body) : Item :=
  ⟨1, ino, nlink, mode, 1, 1, 0, 0, 1, OrdMap.empty, body⟩

/-- A directory that holds one file with two names, `a` and `b`. -/
def sampleWorkspace : Workspace where
  tree := .node (sampleItem 1 2 320 .directory)
    [([97], .node (sampleItem 2 2 420 (.file [7])) []),
      ([98], .node (sampleItem 2 2 420 (.file [7])) [])]
  distinct := by decide
  shared := by
    intro x hx y hy hsame
    simp only [Archive.items, itemsOf, Item.isDir, sampleItem, List.nil_append] at hx hy
    simp only [decide_true, if_true, reduceCtorEq, decide_false, Bool.false_eq_true, if_false,
      List.mem_cons, List.cons_append, List.nil_append, List.not_mem_nil, or_false] at hx hy
    rcases hx with rfl | rfl | rfl <;> rcases hy with rfl | rfl | rfl <;>
      first | rfl | exact absurd hsame (by simp [Item.sameFile, Item.isFile])
  counted := by decide

/-- The directory with `b`, which has one name by now. -/
def sampleRemnant : Workspace where
  tree := .node (sampleItem 1 2 448 .directory) [([98], .node (sampleItem 2 1 420 (.file [7])) [])]
  distinct := by decide
  shared := by
    intro x hx y hy hsame
    simp only [Archive.items, itemsOf, Item.isDir, sampleItem, List.nil_append] at hx hy
    simp only [decide_true, if_true, reduceCtorEq, decide_false, Bool.false_eq_true, if_false,
      List.mem_cons, List.cons_append, List.nil_append, List.not_mem_nil, or_false] at hx hy
    rcases hx with rfl | rfl <;> rcases hy with rfl | rfl <;>
      first | rfl | exact absurd hsame (by simp [Item.sameFile, Item.isFile])
  counted := by decide

/-- One name of a file with two is left. -/
theorem verifyRemainder_sample :
    ∃ archive entries, sampleHost.capture sampleWorkspace = .ok archive ∧
    sampleHost.scan sampleRemnant = .ok entries ∧
    ((∃ receipt, sampleHost.verifyRemainder archive sampleRemnant = .ok receipt) ↔
      Remains sampleWorkspace.items sampleRemnant.items) :=
  ⟨_, _, rfl, rfl, verifyRemainder_iff sampleHost sampleWorkspace sampleRemnant _ rfl _ rfl⟩

example : (sampleHost.capture sampleWorkspace).toOption.any (fun archive =>
    (sampleHost.verifyRemainder archive sampleRemnant).toOption.isSome) = true := by
  decide

end Host

end Archive

end Furrow
