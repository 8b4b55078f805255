import Mathlib
import Furrow.Archive.Remainder
import Furrow.Lib.SepOrder

set_option relaxedAutoImplicit false
set_option autoImplicit false

/-!
# An archive is restored

`archive.rs`: `restore` makes the entries of a manifest in a new directory, one after the other, and
then goes through them backwards twice, for their attributes, and for their modes and times.  What
it has made is scanned and compared with the manifest before it gets its name.  Making an entry
moves the times of its directory; all names of a file share its inode, so that each of them is set
several times.

A chunk is stored as it is, or compressed if that is shorter.  The system refuses only what is in
the way of a call.

## Main definitions

* `Furrow.Archive.Archiver` — the chunks of contents and their digests.
* `Furrow.Archive.Disk` — inodes and their names; `Furrow.Archive.Disk.tree` — what a scan sees of
  them.
* `Furrow.Archive.Store` — what is archived, of any number of captures.
* `Furrow.Archive.Archiver.capture`, `Furrow.Archive.Archiver.restore`,
  `Furrow.Archive.Archiver.verify` — the operations.
* `Furrow.Archive.Resident` — a workspace as the system keeps it.

## Main results

* `Furrow.Archive.Disk.items_tree` — a scan sees all names of a disk.
* `Furrow.Archive.Archiver.makeEntries_spec` — after the first pass, all names and contents are
  there.
* `Furrow.Archive.passes_spec` — after the last, attributes, modes and times are.
-/

namespace Furrow

namespace Archive

/-- `MAX_CHUNK` -/
def maxChunk : ℕ := 1024 * 1024

/-- The user and the group of the process; how contents are cut into chunks, and the digests of
chunks and manifests; the compression of chunks, which is given the length that it is to come to
when it is undone; and the checks of a manifest for its budgets. -/
structure Archiver (ι : Type) where
  euid : ℕ
  egid : ℕ
  split : Bytes → List Bytes
  split_flatten : ∀ content, (split content).flatten = content
  split_bounded : ∀ content, ∀ chunk ∈ split content, 0 < chunk.length ∧ chunk.length ≤ maxChunk
  digest : Bytes → Bytes
  manifestId : List Entry → ι
  /-- Hashes are one to one. -/
  digest_injective : Function.Injective digest
  manifestId_injective : Function.Injective manifestId
  compress : Bytes → Bytes
  decompress : Bytes → ℕ → Except String Bytes
  /-- What was compressed is got back. -/
  decompress_compress : ∀ raw, decompress (compress raw) raw.length = .ok raw
  compress_ne_nil : ∀ raw, compress raw ≠ []
  validateManifest : List Entry → Bool

/-- What a scan uses of it. -/
def Archiver.host {ι : Type} (a : Archiver ι) : Host where
  euid := a.euid
  egid := a.egid
  chunkIds content := (a.split content).map a.digest
  chunkIds_injective := by
    intro x y hxy
    have hsplit : a.split x = a.split y := a.digest_injective.list_map hxy
    rw [← a.split_flatten x, hsplit, a.split_flatten]
  validateManifest := a.validateManifest

/-- A row of the table `chunks`: its length, whether it is compressed, and its bytes. -/
structure ChunkRow where
  rawLength : ℕ
  codec : ℕ
  bytes : Bytes
deriving DecidableEq

/-- The chunks, by their digests. -/
abbrev Chunks := OrdMap Bytes ChunkRow

/-- The tables of an archive store. -/
structure Store (ι : Type) where
  chunks : Chunks
  snapshots : ι → Option (List Entry)

/-- A new store. -/
def Store.empty {ι : Type} : Store ι := ⟨OrdMap.empty, fun _ => none⟩

/-! ## The file system -/

/-- An object of the file system. -/
structure Inode where
  mode : UInt32
  secs : ℤ
  nanos : ℤ
  attrs : OrdMap Bytes Bytes
  body : Body

/-- The names in a directory that is being filled, and their inodes. -/
structure Disk where
  names : OrdMap Path ℕ
  inode : ℕ → Inode
  next : ℕ
  changes : ℕ

/-- The number of the device, the clock, and what a new object gets from its surroundings. -/
structure Volume where
  dev : ℕ
  clock : ℕ → ℤ × ℤ
  inherited : OrdMap Bytes Bytes
  directoryMode : UInt32

namespace Disk

variable {ι : Type} (v : Volume) (d : Disk)

/-- The number of the object at a path. -/
def ino (p : Path) : Option ℕ := d.names.get? p

/-- The body of the object at a path. -/
def body (p : Path) : Option Body := (d.ino p).map fun i => (d.inode i).body

/-- Change the object at a path. -/
def modify (p : Path) (f : Inode → Inode) : Disk :=
  match d.ino p with
  | some i => { d with inode := Function.update d.inode i (f (d.inode i)) }
  | none => d

/-- The directory of a path gets the time of a change. -/
def touch (p : Path) : Disk :=
  { d.modify p.dropLast (fun n =>
    { n with secs := (v.clock d.changes).1, nanos := (v.clock d.changes).2 }) with
    changes := d.changes + 1 }

/-- A new object. -/
def create (p : Path) (mode : UInt32) (body : Body) : Except String Disk :=
  if d.ino p ≠ none ∨ d.body p.dropLast ≠ some .directory then .error "io"
  else
    let now := v.clock d.changes
    let inode := Function.update d.inode d.next ⟨mode, now.1, now.2, v.inherited, body⟩
    .ok (touch v ⟨d.names.insert p d.next, inode, d.next + 1, d.changes⟩ p)

/-- `hard_link` -/
def link (original p : Path) : Except String Disk :=
  match d.ino original with
  | some i =>
    if d.ino p ≠ none ∨ d.body p.dropLast ≠ some .directory then .error "io"
    else .ok (touch v { d with names := d.names.insert p i } p)
  | none => .error "io"

/-! ## What a scan sees -/

/-- How many names an inode has. -/
def nlink (i : ℕ) : ℕ := (d.names.toList.filter fun e => e.2 = i).length

/-- What a walk sees at a path. -/
def item (a : Archiver ι) (p : Path) : Item :=
  let i := (d.ino p).getD 0
  let n := d.inode i
  ⟨v.dev, i, d.nlink i, n.mode, a.euid, a.egid, n.secs, n.nanos,
    (n.body.content.length + 511) / 512, n.attrs, n.body⟩

/-- The names in a directory, in their order. -/
def children (p : Path) : List Bytes :=
  (d.names.keys.filter fun q => q ≠ [] ∧ q.dropLast = p).map fun q => q.getLastD []

/-- What is at a path and below, for so many levels. -/
def treeAt (a : Archiver ι) : ℕ → Path → Tree
  | 0, p => .node (d.item v a p) []
  | levels + 1, p =>
    .node (d.item v a p) ((d.children p).map fun name => (name, treeAt a levels (p ++ [name])))

/-- What a walk sees from the root. -/
def tree (a : Archiver ι) : Tree := d.treeAt v a (d.names.keys.map List.length).sum []

end Disk

/-! ## The operations -/

namespace Archiver

variable {ι : Type} [DecidableEq ι] (a : Archiver ι) (v : Volume)

/-- The bytes of a row. -/
def decode (row : ChunkRow) : Except String Bytes :=
  match row.codec with
  | 0 => .ok row.bytes
  | 1 => a.decompress row.bytes row.rawLength
  | _ => .error "unsupported archive codec"

/-- `read_chunk` -/
def readChunk (chunks : Chunks) (id : Bytes) : Except String Bytes :=
  match chunks.get? id with
  | none => .error "io"
  | some row =>
    if ¬ (0 < row.bytes.length ∧ row.bytes.length ≤ maxChunk) then
      .error "invalid encoded archive length"
    else if ¬ (0 < row.rawLength ∧ row.rawLength ≤ maxChunk) then
      .error "invalid archive chunk length"
    else
      match a.decode row with
      | .error e => .error e
      | .ok raw =>
        if raw.length = row.rawLength ∧ a.digest raw = id then .ok raw
        else .error "corrupt archive chunk"

/-- The row of a chunk. -/
def encode (bytes : Bytes) : ChunkRow :=
  let packed := a.compress bytes
  if packed.length < bytes.length then ⟨bytes.length, 1, packed⟩ else ⟨bytes.length, 0, bytes⟩

/-- `add_chunk` -/
def addChunk (chunks : Chunks) (bytes : Bytes) : Except String Chunks :=
  match chunks.get? (a.digest bytes) with
  | some _ =>
    match a.readChunk chunks (a.digest bytes) with
    | .error e => .error e
    | .ok existing => if existing ≠ bytes then .error "archive chunk collision" else .ok chunks
  | none => .ok (chunks.insert (a.digest bytes) (a.encode bytes))

/-- The chunks of an object. -/
def pieces (item : Item) : List Bytes := if item.isFile then a.split item.body.content else []

/-- `capture` -/
def capture (store : Store ι) (w : Workspace) : Except String (Store ι × ι) := do
  let chunks ← (w.items.flatMap fun x => a.pieces x.2).foldlM a.addChunk store.chunks
  let archive ← a.host.capture w
  let id := a.manifestId archive.manifest
  pure (⟨chunks, if (store.snapshots id).isSome then store.snapshots
    else Function.update store.snapshots id (some archive.manifest)⟩, id)

/-- Workspaces are captured, one after the other; a capture that fails is rolled back. -/
def captures (store : Store ι) (workspaces : List Workspace) : Store ι :=
  workspaces.foldl (fun store w => ((a.capture store w).map Prod.fst).toOption.getD store) store

/-- `load` -/
def load (store : Store ι) (id : ι) : Except String (List Entry) :=
  match store.snapshots id with
  | none => .error "io"
  | some manifest =>
    if a.manifestId manifest ≠ id then .error "corrupt archive manifest"
    else if ¬ a.validateManifest manifest then .error "archive entry budget exceeded"
    else .ok manifest

/-- `scan` of a tree. -/
def scanTree (t : Tree) : Except String (List Entry) :=
  if ¬ t.item.isDir then .error "archive workspace must be a directory"
  else (a.host.walk t.item.dev [] t ⟨OrdMap.empty, []⟩).map Host.Scanned.entries

/-- An entry is made. -/
def makeEntry (chunks : Chunks) (d : Disk) (e : Entry) : Except String Disk :=
  if e.name = [] then if e.kind = .directory then .ok d else .error "invalid archive root"
  else if d.body e.name.dropLast ≠ some .directory then .error "invalid archive parent"
  else
    match e.kind with
    | .directory => d.create v e.name v.directoryMode .directory
    | .file =>
      match e.hardlink with
      | some target =>
        if (d.body target).any (fun body => body.kind = some .file) then d.link v target e.name
        else .error "invalid hardlink target"
      | none => do
        let d ← d.create v e.name 384 (.file [])
        let pieces ← e.chunks.mapM (a.readChunk chunks)
        if pieces.flatten.length ≠ e.size then .error "invalid archive file length"
        else
          let now := v.clock d.changes
          .ok { d.modify e.name (fun n =>
              { n with body := .file pieces.flatten, secs := now.1, nanos := now.2 }) with
            changes := d.changes + 1 }
    | .symlink => d.create v e.name 511 (.symlink e.link)

/-- An entry gets its attributes, and no others. -/
def setAttrs (d : Disk) (e : Entry) : Except String Disk :=
  if d.ino e.name = none then .error "io"
  else
    .ok (d.modify e.name fun n =>
      { n with
        attrs :=
          (n.attrs.filter fun name _ => e.attrs.any fun x => x.1 = name).foldInsert e.attrs })

/-- An entry gets its mode, unless it is a symlink, and its times. -/
def setTimes (d : Disk) (e : Entry) : Except String Disk :=
  if d.ino e.name = none then .error "io"
  else
    .ok (d.modify e.name fun n =>
      { n with
        mode := if e.kind = .symlink then n.mode else e.mode
        secs := e.secs
        nanos := e.nanos })

/-- The new directory. -/
def freshRoot : Disk where
  names := OrdMap.empty.insert [] 0
  inode := fun _ => ⟨448, (v.clock 0).1, (v.clock 0).2, v.inherited, .directory⟩
  next := 1
  changes := 1

/-- `restore`, up to the name of what it has made. -/
def restore (exists_ : Bool) (store : Store ι) (id : ι) : Except String Disk := do
  if exists_ then throw "archive destination must not exist"
  let manifest ← a.load store id
  let d ← manifest.foldlM (a.makeEntry v store.chunks) (freshRoot v)
  let d ← manifest.reverse.foldlM setAttrs d
  let d ← manifest.reverse.foldlM setTimes d
  let actual ← a.scanTree (d.tree v a)
  if actual ≠ manifest then throw "restored archive metadata or contents differ" else pure d

/-- `verify` -/
def verify (store : Store ι) (id : ι) (t : Tree) : Except String Receipt := do
  let manifest ← a.load store id
  let _ ← (manifest.flatMap Entry.chunks).mapM (a.readChunk store.chunks)
  let actual ← a.scanTree t
  if actual ≠ manifest then throw "archive differs from workspace" else pure (Host.receipt manifest)

end Archiver

/-! ## Workspaces -/

mutual

/-- The names of every directory are in their order. -/
def Tree.Sorted : Tree → Prop
  | .node _ children => SortedOf children

/-- The entries of a directory are in their order. -/
def SortedOf : List (Bytes × Tree) → Prop
  | [] => True
  | (name, tree) :: rest => (∀ x ∈ rest, name < x.1) ∧ tree.Sorted ∧ SortedOf rest

end

/-- A workspace as the system keeps it: directories are read in the order of their names, and
symlinks have no modes of their own. -/
structure Resident extends Workspace where
  sorted : tree.Sorted
  symlinks : ∀ x ∈ toWorkspace.items, ∀ target, x.2.body = .symlink target → x.2.mode &&& 4095 = 511

/-! ## The paths of a tree -/

mutual

/-- What is in a tree is below its path. -/
theorem prefix_of_mem_items (path : Path) (t : Tree) : ∀ x ∈ items path t, path <+: x.1 := by
  cases t with
  | node item children =>
    intro x hx
    rw [items, List.mem_cons] at hx
    rcases hx with rfl | hx
    · exact List.prefix_rfl
    · split_ifs at hx
      · obtain ⟨c, -, hc⟩ := prefix_of_mem_itemsOf path children x hx
        exact (List.prefix_append path [c.1]).trans hc
      · exact absurd hx List.not_mem_nil

/-- What is in a directory is below one of its entries. -/
theorem prefix_of_mem_itemsOf (path : Path) (children : List (Bytes × Tree)) :
    ∀ x ∈ itemsOf path children, ∃ c ∈ children, path ++ [c.1] <+: x.1 := by
  cases children with
  | nil => exact fun x hx => absurd hx List.not_mem_nil
  | cons child rest =>
    obtain ⟨name, tree⟩ := child
    intro x hx
    rw [itemsOf, List.mem_append] at hx
    rcases hx with hx | hx
    · exact ⟨(name, tree), List.mem_cons_self, prefix_of_mem_items (path ++ [name]) tree x hx⟩
    · obtain ⟨c, hc, hpre⟩ := prefix_of_mem_itemsOf path rest x hx
      exact ⟨c, List.mem_cons_of_mem _ hc, hpre⟩

end

/-- What is below an earlier name comes before what is below a later one. -/
theorem lt_of_names {path p q : Path} {a b : Bytes} (hab : a < b) (hp : path ++ [a] <+: p)
    (hq : path ++ [b] <+: q) : p < q := by
  obtain ⟨r, rfl⟩ := hp
  obtain ⟨r', rfl⟩ := hq
  rw [List.append_assoc, List.append_assoc, SepOrder.append_lt_append_iff]
  exact List.cons_lt_cons_iff.mpr (Or.inl hab)

/-- What is below a path comes after it. -/
theorem lt_of_below {path q : Path} {a : Bytes} (hq : path ++ [a] <+: q) : path < q := by
  obtain ⟨r, rfl⟩ := hq
  rw [List.append_assoc]
  exact SepOrder.lt_append_cons _ _ _

mutual

/-- **A scan goes through the paths in their order.** -/
theorem sorted_items (path : Path) (t : Tree) (ht : t.Sorted) :
    ((items path t).map Prod.fst).Pairwise (· < ·) := by
  cases t with
  | node item children =>
    rw [Tree.Sorted] at ht
    rw [items, List.map_cons]
    refine List.pairwise_cons.mpr ⟨fun q hq => ?_, ?_⟩
    · obtain ⟨x, hx, rfl⟩ := List.mem_map.mp hq
      split_ifs at hx
      · obtain ⟨c, -, hc⟩ := prefix_of_mem_itemsOf path children x hx
        exact lt_of_below hc
      · exact absurd hx List.not_mem_nil
    · split_ifs
      · exact sorted_itemsOf path children ht
      · exact List.Pairwise.nil

/-- The objects of the entries of a directory are in their order. -/
theorem sorted_itemsOf (path : Path) (children : List (Bytes × Tree)) (hc : SortedOf children) :
    ((itemsOf path children).map Prod.fst).Pairwise (· < ·) := by
  cases children with
  | nil => exact List.Pairwise.nil
  | cons child rest =>
    obtain ⟨name, tree⟩ := child
    rw [SortedOf] at hc
    rw [itemsOf, List.map_append]
    refine List.pairwise_append.mpr
      ⟨sorted_items (path ++ [name]) tree hc.2.1, sorted_itemsOf path rest hc.2.2,
        fun p hp q hq => ?_⟩
    obtain ⟨x, hx, rfl⟩ := List.mem_map.mp hp
    obtain ⟨y, hy, rfl⟩ := List.mem_map.mp hq
    obtain ⟨c, hc', hpre⟩ := prefix_of_mem_itemsOf path rest y hy
    exact lt_of_names (hc.1 c hc') (prefix_of_mem_items _ _ x hx) hpre

end

mutual

/-- What is below an object is in a directory. -/
theorem parent_of_mem_items (path : Path) (t : Tree) :
    ∀ x ∈ items path t, x.1 = path ∨ ∃ y ∈ items path t, y.1 = x.1.dropLast ∧ y.2.isDir = true := by
  cases t with
  | node item children =>
    intro x hx
    rw [items, List.mem_cons] at hx
    rcases hx with rfl | hx
    · exact Or.inl rfl
    · right
      split_ifs at hx with hdir
      · rcases parent_of_mem_itemsOf path children x hx with hparent | ⟨y, hy, hxy⟩
        · exact ⟨(path, item), by rw [items]; exact List.mem_cons_self, hparent.symm, hdir⟩
        · refine ⟨y, ?_, hxy⟩
          rw [items, if_pos hdir]
          exact List.mem_cons_of_mem _ hy
      · exact absurd hx List.not_mem_nil

/-- Every object is in a directory that is listed too. -/
theorem parent_of_mem_itemsOf (path : Path) (children : List (Bytes × Tree)) :
    ∀ x ∈ itemsOf path children,
      x.1.dropLast = path ∨ ∃ y ∈ itemsOf path children, y.1 = x.1.dropLast ∧ y.2.isDir = true := by
  cases children with
  | nil => exact fun x hx => absurd hx List.not_mem_nil
  | cons child rest =>
    obtain ⟨name, tree⟩ := child
    intro x hx
    rw [itemsOf, List.mem_append] at hx
    rcases hx with hx | hx
    · rcases parent_of_mem_items (path ++ [name]) tree x hx with heq | ⟨y, hy, hxy⟩
      · exact Or.inl (by rw [heq, List.dropLast_concat])
      · exact Or.inr ⟨y, by rw [itemsOf]; exact List.mem_append_left _ hy, hxy⟩
    · rcases parent_of_mem_itemsOf path rest x hx with hparent | ⟨y, hy, hxy⟩
      · exact Or.inl hparent
      · exact Or.inr ⟨y, by rw [itemsOf]; exact List.mem_append_right _ hy, hxy⟩

end

/-- The objects of a directory are those of its entries. -/
theorem mem_itemsOf {path : Path} {children : List (Bytes × Tree)} {x : Path × Item} :
    x ∈ itemsOf path children ↔ ∃ c ∈ children, x ∈ items (path ++ [c.1]) c.2 := by
  induction children with
  | nil => simp [itemsOf]
  | cons child rest ih =>
    obtain ⟨name, tree⟩ := child
    rw [itemsOf, List.mem_append, ih, List.exists_mem_cons_iff]

/-! ## What is on a disk -/

namespace Disk

variable {v : Volume} {ι : Type} {a : Archiver ι} {d : Disk} {p q : Path}

/-- All names are in directories. -/
structure Sound (d : Disk) : Prop where
  root : d.body [] = some .directory
  housed : ∀ p, d.ino p ≠ none → p ≠ [] → d.body p.dropLast = some .directory

/-- The keys are the paths where something is. -/
theorem mem_keys : p ∈ d.names.keys ↔ d.ino p ≠ none := by
  rw [OrdMap.mem_keys_iff, Option.isSome_iff_ne_none]
  rfl

/-- What has a body is there. -/
theorem ino_ne_none_of_body (h : d.body p ≠ none) : d.ino p ≠ none := fun hnone =>
    h (by rw [body, hnone]; rfl)

/-- A directory is seen as one. -/
theorem item_isDir (h : d.ino p ≠ none) :
    (d.item v a p).isDir = true ↔ d.body p = some .directory := by
  obtain ⟨i, hi⟩ := Option.ne_none_iff_exists'.mp h
  unfold Item.isDir item body
  simp [hi]

/-- The names in a directory. -/
theorem mem_children_iff {name : Bytes} : name ∈ d.children p ↔ d.ino (p ++ [name]) ≠ none := by
  unfold children
  rw [List.mem_map]
  constructor
  · rintro ⟨q, hmem, rfl⟩
    rw [List.mem_filter, mem_keys, decide_eq_true_eq] at hmem
    obtain ⟨hino, hne, rfl⟩ := hmem
    rcases List.eq_nil_or_concat q with rfl | ⟨dir, last, rfl⟩
    · exact absurd rfl hne
    · simpa using hino
  · intro hino
    exact ⟨p ++ [name], List.mem_filter.mpr ⟨mem_keys.mpr hino, by simp⟩, by simp⟩

/-- Above a name, there are directories. -/
theorem Sound.above (h : d.Sound) (hq : d.ino q ≠ none) (hpre : p <+: q) (hne : p ≠ q) :
    d.body p = some .directory := by
  induction hlen : q.length using Nat.strong_induction_on generalizing q with
  | _ n ih =>
    obtain ⟨r, rfl⟩ := hpre
    have hr : r ≠ [] := fun hr => hne (by rw [hr, List.append_nil])
    have hbody := h.housed (p ++ r) hq (by simp [hr])
    rw [List.dropLast_append_of_ne_nil hr] at hbody
    by_cases heq : r.dropLast = []
    · rwa [heq, List.append_nil] at hbody
    · refine ih (p ++ r.dropLast).length ?_ (ino_ne_none_of_body (by rw [hbody]; simp))
        (List.prefix_append _ _) (by simpa using heq) rfl
      rw [← hlen, List.length_append, List.length_append, List.length_dropLast]
      have hpos := List.length_pos_of_ne_nil hr
      omega

/-- The names of a directory are in their order. -/
theorem sorted_children : (d.children p).Pairwise (· < ·) := by
  unfold children
  rw [List.pairwise_map]
  refine List.Pairwise.imp_of_mem ?_ (d.names.keys_sorted.filter _)
  intro q q' hq hq' hlt
  rw [List.mem_filter, decide_eq_true_eq] at hq hq'
  obtain ⟨-, hne, hdir⟩ := hq
  obtain ⟨-, hne', hdir'⟩ := hq'
  rcases List.eq_nil_or_concat q with rfl | ⟨dir, last, rfl⟩
  · exact absurd rfl hne
  rcases List.eq_nil_or_concat q' with rfl | ⟨dir', last', rfl⟩
  · exact absurd rfl hne'
  rw [List.concat_eq_append, List.dropLast_concat] at hdir hdir'
  rw [List.concat_eq_append, List.concat_eq_append, hdir, hdir', SepOrder.append_lt_append_iff,
    List.cons_lt_cons_iff] at hlt
  rcases hlt with hlt | ⟨-, hlt⟩
  · simpa using hlt
  · exact absurd hlt (lt_irrefl _)

/-- Entries made for sorted names are sorted. -/
theorem sortedOf_map {names : List Bytes} {f : Bytes → Tree} (hnames : names.Pairwise (· < ·))
    (hf : ∀ n, (f n).Sorted) : SortedOf (names.map fun n => (n, f n)) := by
  induction names with
  | nil => trivial
  | cons n names ih =>
    obtain ⟨hfirst, hrest⟩ := List.pairwise_cons.mp hnames
    rw [List.map_cons, SortedOf]
    refine ⟨fun x hx => ?_, hf n, ih hrest⟩
    obtain ⟨n', hn', rfl⟩ := List.mem_map.mp hx
    exact hfirst n' hn'

/-- What a walk sees is in its order. -/
theorem sorted_treeAt (levels : ℕ) (p : Path) : (d.treeAt v a levels p).Sorted := by
  induction levels generalizing p with
  | zero => trivial
  | succ levels ih =>
    rw [treeAt, Tree.Sorted]
    exact sortedOf_map sorted_children fun n => ih (p ++ [n])

/-- A tree that goes deep enough has all names below its path. -/
theorem mem_items_treeAt (h : d.Sound) (levels : ℕ) (p : Path) (hp : d.ino p ≠ none)
    (hdeep : ∀ q, d.ino q ≠ none → p <+: q → q.length ≤ p.length + levels) (x : Path × Item) :
    x ∈ items p (d.treeAt v a levels p) ↔ x.2 = d.item v a x.1 ∧ p <+: x.1 ∧ d.ino x.1 ≠ none := by
  induction levels generalizing p with
  | zero =>
    have hitems : items p (d.treeAt v a 0 p) = [(p, d.item v a p)] := by
      rw [treeAt, items, itemsOf, ite_self]
    rw [hitems, List.mem_singleton]
    constructor
    · rintro rfl
      exact ⟨rfl, List.prefix_rfl, hp⟩
    · rintro ⟨hitem, hpre, hx⟩
      have heq : p = x.1 := hpre.eq_of_length_le (hdeep x.1 hx hpre)
      exact Prod.ext heq.symm (by rw [hitem, ← heq])
  | succ levels ih =>
    have hchild :
        ∀ n, d.ino (p ++ [n]) ≠ none →
          (x ∈ items (p ++ [n]) (d.treeAt v a levels (p ++ [n])) ↔
          x.2 = d.item v a x.1 ∧ p ++ [n] <+: x.1 ∧ d.ino x.1 ≠ none) := fun n hn => by
      refine ih (p ++ [n]) hn fun q hq hpre => ?_
      have hle := hdeep q hq ((List.prefix_append p [n]).trans hpre)
      rw [List.length_append, List.length_singleton]
      omega
    rw [treeAt, items, List.mem_cons]
    constructor
    · rintro (rfl | hx)
      · exact ⟨rfl, List.prefix_rfl, hp⟩
      · split_ifs at hx
        · obtain ⟨c, hc, hx⟩ := mem_itemsOf.mp hx
          obtain ⟨n, hn, rfl⟩ := List.mem_map.mp hc
          obtain ⟨hitem, hpre, hino⟩ := (hchild n (mem_children_iff.mp hn)).mp hx
          exact ⟨hitem, (List.prefix_append p [n]).trans hpre, hino⟩
        · exact absurd hx List.not_mem_nil
    · rintro ⟨hitem, hpre, hino⟩
      obtain ⟨r, hr⟩ := hpre
      cases r with
      | nil =>
        rw [List.append_nil] at hr
        exact Or.inl (Prod.ext hr.symm (by rw [hitem, hr]))
      | cons n r =>
        right
        have hbelow : p ++ [n] <+: x.1 := ⟨r, by rw [← hr, List.append_assoc]; rfl⟩
        have hdir : d.body p = some .directory := h.above hino ⟨n :: r, hr⟩ fun heq => by
          rw [← heq] at hr
          exact absurd hr (by simp)
        have hn : d.ino (p ++ [n]) ≠ none := by
          by_cases heq : p ++ [n] = x.1
          · rwa [heq]
          · exact ino_ne_none_of_body (by rw [h.above hino hbelow heq]; simp)
        rw [if_pos ((item_isDir hp).mpr hdir)]
        exact mem_itemsOf.mpr
          ⟨_, List.mem_map_of_mem (mem_children_iff.mpr hn),
            (hchild n hn).mpr ⟨hitem, hbelow, hino⟩⟩

/-- **A scan sees all names**, in the order of a tree with the same paths. -/
theorem items_tree (h : d.Sound) {t : Tree} (ht : t.Sorted)
    (hpaths : ∀ q, d.ino q ≠ none ↔ q ∈ (items [] t).map Prod.fst) :
    items [] (d.tree v a) = (items [] t).map fun x => (x.1, d.item v a x.1) := by
  have hroot : d.ino [] ≠ none := ino_ne_none_of_body (by rw [h.root]; simp)
  have hmem :=
    mem_items_treeAt (v := v) (a := a) h (d.names.keys.map List.length).sum [] hroot
      fun q hq _ => by
        rw [List.length_nil, Nat.zero_add]
        exact List.le_sum_of_mem (List.mem_map_of_mem (mem_keys.mpr hq))
  have hfst : (items [] (d.tree v a)).map Prod.fst = (items [] t).map Prod.fst := by
    refine (sorted_items [] _ (sorted_treeAt _ _)).eq_of_mem_iff (sorted_items [] t ht) fun q => ?_
    rw [← hpaths q, List.mem_map]
    constructor
    · rintro ⟨x, hx, rfl⟩
      exact ((hmem x).mp hx).2.2
    · exact fun hq => ⟨(q, d.item v a q), (hmem _).mpr ⟨rfl, List.nil_prefix, hq⟩, rfl⟩
  have hself : items [] (d.tree v a) =
      ((items [] (d.tree v a)).map Prod.fst).map fun q => (q, d.item v a q) := by
    rw [List.map_map]
    refine (List.map_id _).symm.trans (List.map_congr_left fun x hx => ?_)
    exact Prod.ext rfl ((hmem x).mp hx).1
  rw [hself, hfst, List.map_map]
  rfl

end Disk

/-! ## What the calls do -/

namespace Disk

variable {v : Volume} {d : Disk} {p q : Path} {f : Inode → Inode}

/-- A change of an object moves no name. -/
@[simp] theorem modify_names : (d.modify p f).names = d.names := by
  unfold modify
  split <;> rfl

/-- A change of an object makes none. -/
@[simp] theorem modify_next : (d.modify p f).next = d.next := by
  unfold modify
  split <;> rfl

/-- A change of an object leaves the names of all. -/
theorem modify_ino : (d.modify p f).ino q = d.ino q := by
  unfold ino
  rw [modify_names]

/-- Only the object at the path changes. -/
theorem modify_inode (j : ℕ) :
    (d.modify p f).inode j = if d.ino p = some j then f (d.inode j) else d.inode j := by
  by_cases hj : d.ino p = some j
  · rw [if_pos hj]
    unfold modify
    rw [hj]
    exact Function.update_self _ _ _
  · rw [if_neg hj]
    unfold modify
    split
    · rename_i i hi
      exact Function.update_of_ne (fun heq => hj (by rw [hi, heq])) _ _
    · rfl

/-- Making a name moves the time of a directory, and no more. -/
theorem touch_spec (d : Disk) (p : Path) :
    (∀ q, (d.touch v p).ino q = d.ino q) ∧ (d.touch v p).next = d.next ∧
    ∀ j, ((d.touch v p).inode j).body = (d.inode j).body ∧
    ((d.touch v p).inode j).mode = (d.inode j).mode := by
  refine ⟨fun q => modify_ino, modify_next, fun j => ?_⟩
  unfold touch
  dsimp only
  rw [modify_inode]
  split_ifs <;> exact ⟨rfl, rfl⟩

/-- Making an object, where its directory is there and nothing else. -/
theorem create_spec (mode : UInt32) (body : Body) (hnone : d.ino p = none)
    (hdir : d.body p.dropLast = some .directory) :
    ∃ e, d.create v p mode body = .ok e ∧ (∀ q, e.ino q = if q = p then some d.next else d.ino q) ∧
      e.next = d.next + 1 ∧ ((e.inode d.next).body = body ∧ (e.inode d.next).mode = mode) ∧
      ∀ j, j ≠ d.next →
      (e.inode j).body = (d.inode j).body ∧ (e.inode j).mode = (d.inode j).mode := by
  have hguard : ¬ (d.ino p ≠ none ∨ d.body p.dropLast ≠ some .directory) := by
    rw [not_or, not_not, not_not]
    exact ⟨hnone, hdir⟩
  unfold create
  rw [if_neg hguard]
  dsimp only
  obtain ⟨hino, hnext, hinode⟩ :=
    touch_spec (v :=
      v) ⟨d.names.insert p d.next,
      Function.update d.inode d.next ⟨mode, (v.clock d.changes).1, (v.clock d.changes).2,
      v.inherited, body⟩, d.next + 1, d.changes⟩ p
  refine ⟨_, rfl, fun q => ?_, hnext, ?_, fun j hj => ?_⟩
  · rw [hino]
    refine (OrdMap.get?_insert d.names p q d.next).trans ?_
    split_ifs <;> rfl
  · rw [(hinode d.next).1, (hinode d.next).2]
    dsimp only
    rw [Function.update_self]
    exact ⟨rfl, rfl⟩
  · rw [(hinode j).1, (hinode j).2]
    dsimp only
    rw [Function.update_of_ne hj]
    exact ⟨rfl, rfl⟩

/-- Making a further name of an object. -/
theorem link_spec {original : Path} {i : ℕ} (horiginal : d.ino original = some i)
    (hnone : d.ino p = none) (hdir : d.body p.dropLast = some .directory) :
    ∃ e, d.link v original p = .ok e ∧ (∀ q, e.ino q = if q = p then some i else d.ino q) ∧
    e.next = d.next ∧
      ∀ j, (e.inode j).body = (d.inode j).body ∧ (e.inode j).mode = (d.inode j).mode := by
  have hguard : ¬ (d.ino p ≠ none ∨ d.body p.dropLast ≠ some .directory) := by
    rw [not_or, not_not, not_not]
    exact ⟨hnone, hdir⟩
  unfold link
  rw [horiginal]
  dsimp only
  rw [if_neg hguard]
  obtain ⟨hino, hnext, hinode⟩ := touch_spec (v := v) { d with names := d.names.insert p i } p
  refine ⟨_, rfl, fun q => ?_, hnext, hinode⟩
  rw [hino]
  refine (OrdMap.get?_insert d.names p q i).trans ?_
  split_ifs <;> rfl

end Disk

/-! ## The first pass -/

/-- The names and the inodes that have been made for some objects. -/
structure Made (done : List (Path × Item)) (d : Disk) : Prop where
  names : ∀ q, d.ino q ≠ none ↔ q ∈ done.map Prod.fst
  used : ∀ q i, d.ino q = some i → i < d.next
  body : ∀ x ∈ done, d.body x.1 = some x.2.body
  mode : ∀ x ∈ done, ∀ target, x.2.body = .symlink target → ∀ i, d.ino x.1 = some i →
    (d.inode i).mode = 511
  same : ∀ x ∈ done, ∀ y ∈ done, d.ino x.1 = d.ino y.1 ↔ x = y ∨ x.2.sameFile y.2 = true

/-- The body at a path is that of its object. -/
theorem body_of_ino {d : Disk} {p : Path} {i : ℕ} (h : d.ino p = some i) :
    d.body p = some (d.inode i).body := by
  unfold Disk.body
  rw [h]
  rfl

/-- One more object has a name. -/
theorem Made.extend {done : List (Path × Item)} {x : Path × Item} {d e : Disk} {i : ℕ}
    (h : Made done d) (hnew : x.1 ∉ done.map Prod.fst)
    (hino : ∀ q, e.ino q = if q = x.1 then some i else d.ino q) (hnext : d.next ≤ e.next)
    (hi : i < e.next)
    (hold : ∀ j, j < d.next →
      (e.inode j).body = (d.inode j).body ∧ (e.inode j).mode = (d.inode j).mode)
    (hbody : (e.inode i).body = x.2.body)
    (hmode : ∀ target, x.2.body = .symlink target → (e.inode i).mode = 511)
    (hsame : ∀ y ∈ done, d.ino y.1 = some i ↔ y.2.sameFile x.2 = true) : Made (done ++ [x]) e := by
  have hself : e.ino x.1 = some i := by rw [hino, if_pos rfl]
  have hdone : ∀ y ∈ done, e.ino y.1 = d.ino y.1 := fun y hy => by
    rw [hino, if_neg fun heq => hnew (List.mem_map.mpr ⟨y, hy, heq⟩)]
  have hcases : ∀ {y}, y ∈ done ++ [x] → y ∈ done ∨ y = x := fun hy => by
    rwa [List.mem_append, List.mem_singleton] at hy
  have hfound : ∀ y ∈ done, ∃ j, d.ino y.1 = some j ∧ j < d.next := fun y hy => by
    obtain ⟨j, hj⟩ := Option.ne_none_iff_exists'.mp ((h.names y.1).mpr (List.mem_map_of_mem hy))
    exact ⟨j, hj, h.used _ _ hj⟩
  refine ⟨fun q => ?_, fun q j hq => ?_, fun y hy => ?_, fun y hy target htarget j hj => ?_,
    fun y hy z hz => ?_⟩
  · rw [hino, List.map_append, List.mem_append, List.map_singleton, List.mem_singleton, ← h.names q]
    split_ifs with heq <;> simp [heq]
  · rw [hino] at hq
    split_ifs at hq
    · exact Option.some.inj hq ▸ hi
    · exact (h.used q j hq).trans_le hnext
  · rcases hcases hy with hy | rfl
    · obtain ⟨j, hj, hlt⟩ := hfound y hy
      rw [body_of_ino ((hdone y hy).trans hj), (hold j hlt).1, ← body_of_ino hj, h.body y hy]
    · rw [body_of_ino hself, hbody]
  · rcases hcases hy with hy | rfl
    · rw [hdone y hy] at hj
      rw [(hold j (h.used _ _ hj)).2, h.mode y hy target htarget j hj]
    · rw [hself, Option.some.injEq] at hj
      exact hj ▸ hmode target htarget
  · rcases hcases hy with hy' | rfl <;> rcases hcases hz with hz' | rfl
    · rw [hdone y hy', hdone z hz']
      exact h.same y hy' z hz'
    · rw [hdone y hy', hself, hsame y hy']
      refine ⟨Or.inr, fun hor => hor.resolve_left ?_⟩
      rintro rfl
      exact hnew (List.mem_map_of_mem hy')
    · rw [hself, hdone z hz', eq_comm, hsame z hz']
      refine ⟨fun hs => Or.inr (Item.sameFile_symm hs), fun hor =>
        Item.sameFile_symm (hor.resolve_left ?_)⟩
      rintro rfl
      exact hnew (List.mem_map_of_mem hz')
    · simp

/-- What a capture has found out about the objects of a workspace, and stored. -/
structure Captured {ι : Type} (a : Archiver ι) (chunks : Chunks) (l : List (Path × Item)) :
    Prop where
  housed : Host.Housed l
  sorted : (l.map Prod.fst).Pairwise (· < ·)
  parents : ∀ x ∈ l, x.1 = [] ∨ ∃ y ∈ l, y.1 = x.1.dropLast ∧ y.2.isDir = true
  kinds : ∀ x ∈ l, x.2.body.kind.isSome = true
  chunks : ∀ x ∈ l, x.2.isFile = true → ∀ chunk ∈ a.split x.2.body.content,
    a.readChunk chunks (a.digest chunk) = .ok chunk

namespace Archiver

variable {ι : Type} {a : Archiver ι} {v : Volume} {chunks : Chunks}
    {l done todo : List (Path × Item)}
  {x : Path × Item} {d : Disk}

/-- What was stored is read. -/
theorem mapM_readChunk (pieces : List Bytes)
    (h : ∀ c ∈ pieces, a.readChunk chunks (a.digest c) = .ok c) :
    (pieces.map a.digest).mapM (a.readChunk chunks) = .ok pieces := by
  induction pieces with
  | nil => rfl
  | cons c pieces ih =>
    rw [List.map_cons, List.mapM_cons, h c List.mem_cons_self,
      ih fun c' hc' => h c' (List.mem_cons_of_mem _ hc')]
    rfl

/-- The directory of an object comes before it. -/
theorem parent_done (hl : Captured a chunks l) (hsplit : l = done ++ x :: todo) (hx : x.1 ≠ []) :
    ∃ y ∈ done, y.1 = x.1.dropLast ∧ y.2.body = .directory := by
  have hxl : x ∈ l := hsplit ▸ List.mem_append_right _ List.mem_cons_self
  obtain ⟨y, hy, hpath, hdir⟩ := (hl.parents x hxl).resolve_left hx
  refine ⟨y, ?_, hpath, by simpa [Item.isDir] using hdir⟩
  have hlt : y.1 < x.1 := by
    rw [hpath]
    conv_rhs => rw [← List.dropLast_append_getLast hx]
    exact SepOrder.lt_append_cons _ _ _
  rw [hsplit] at hy
  rcases List.mem_append.mp hy with hy | hy
  · exact hy
  · have hsorted := hl.sorted
    rw [hsplit, List.map_append, List.map_cons, List.pairwise_append] at hsorted
    rcases List.mem_cons.mp hy with rfl | hy
    · exact absurd hlt (lt_irrefl _)
    · exact absurd hlt (lt_asymm ((List.pairwise_cons.mp hsorted.2.1).1 _ (List.mem_map_of_mem hy)))

/-- The first name of a file comes before the others. -/
theorem rep_cases (hl : Captured a chunks l) (hsplit : l = done ++ x :: todo)
    (hfile : x.2.isFile = true) : (Host.rep l x = x.1 ∧ ∀ y ∈ done, y.2.sameFile x.2 = false) ∨
      Host.rep l x ≠ x.1 ∧ ∃ z ∈ done, z.2.sameFile x.2 = true ∧ Host.rep l x = z.1 := by
  have hfind :
      (l.find? fun y => y.2.sameFile x.2) = (done.find? fun y => y.2.sameFile x.2).or (some x) := by
    rw [hsplit, List.find?_append, List.find?_cons, Item.sameFile_self hfile]
  cases hdone : done.find? fun y => y.2.sameFile x.2 with
  | none =>
    rw [hdone, Option.none_or] at hfind
    refine Or.inl ⟨by rw [Host.rep, hfind]; rfl, fun y hy => ?_⟩
    simpa using List.find?_eq_none.mp hdone y hy
  | some z =>
    rw [hdone, Option.some_or] at hfind
    have hz : z ∈ done := List.mem_of_find?_eq_some hdone
    have hrep : Host.rep l x = z.1 := by rw [Host.rep, hfind]; rfl
    refine Or.inr ⟨fun heq => ?_, z, hz, by simpa using List.find?_some hdone, hrep⟩
    have hdistinct := hl.housed.distinct
    rw [hsplit, List.map_append, List.map_cons, List.nodup_append] at hdistinct
    exact hdistinct.2.2 z.1 (List.mem_map_of_mem hz) x.1 List.mem_cons_self (hrep.symm.trans heq)

/-- **One entry is made.** -/
theorem makeEntry_spec (hl : Captured a chunks l) (hsplit : l = done ++ x :: todo) (hx : x.1 ≠ [])
    (h : Made done d) :
    ∃ e, a.makeEntry v chunks d (a.host.entryOf l x) = .ok e ∧ Made (done ++ [x]) e := by
  have hxl : x ∈ l := hsplit ▸ List.mem_append_right _ List.mem_cons_self
  have hnew : x.1 ∉ done.map Prod.fst := by
    have hdistinct := hl.housed.distinct
    rw [hsplit, List.map_append, List.map_cons, List.nodup_append] at hdistinct
    exact fun hmem => hdistinct.2.2 x.1 hmem x.1 List.mem_cons_self rfl
  have hnone : d.ino x.1 = none := by
    by_contra hsome
    exact hnew ((h.names x.1).mp hsome)
  obtain ⟨y, hy, hpath, hdirectory⟩ := parent_done hl hsplit hx
  have hdir : d.body x.1.dropLast = some .directory := by rw [← hpath, h.body y hy, hdirectory]
  have hfresh :
      ∀ z ∈ done, z.2.sameFile x.2 = false →
        (d.ino z.1 = some d.next ↔ z.2.sameFile x.2 = true) := by
    intro z hz hnot
    rw [hnot]
    exact ⟨fun hino => absurd (h.used _ _ hino) (lt_irrefl _), fun hf => absurd hf (by simp)⟩
  -- What is no file has one name, and a new inode.
  have hsingle : ∀ (mode : UInt32) (body : Body), x.2.isFile = false → x.2.body = body →
      (∀ target, body = .symlink target → mode = 511) →
      ∃ e, d.create v x.1 mode body = .ok e ∧ Made (done ++ [x]) e := by
    intro mode body hnotFile hbody hmode
    obtain ⟨e, hcreate, hino, hnext, hinode, hold⟩ := Disk.create_spec (v := v) mode body hnone hdir
    refine ⟨e, hcreate, h.extend hnew hino (by omega) (by omega) (fun j hj => hold j hj.ne)
      (hinode.1.trans hbody.symm) (fun target htarget =>
        hinode.2.trans (hmode target (hbody ▸ htarget)))
      fun z hz => hfresh z hz ?_⟩
    rw [Item.sameFile, hnotFile]
    simp
  unfold makeEntry
  have hname : (a.host.entryOf l x).name = x.1 := rfl
  rw [hname, if_neg hx, if_neg (not_not.mpr hdir)]
  have hkind : (a.host.entryOf l x).kind = Host.kindOf x.2 := rfl
  rw [hkind]
  cases hbody : x.2.body with
  | special =>
    have hk := hl.kinds x hxl
    rw [hbody] at hk
    exact absurd hk (by simp [Body.kind])
  | directory =>
    have hk : Host.kindOf x.2 = .directory := by simp [Host.kindOf, hbody, Body.kind]
    rw [hk]
    exact hsingle _ _ (by simp [Item.isFile, hbody]) hbody fun target htarget => by simp at htarget
  | symlink target =>
    have hk : Host.kindOf x.2 = .symlink := by simp [Host.kindOf, hbody, Body.kind]
    have hlink : (a.host.entryOf l x).link = target := by
      simp [Host.entryOf, Host.entry, hbody, Body.target]
    rw [hk]
    dsimp only
    rw [hlink]
    exact hsingle _ _ (by simp [Item.isFile, hbody]) hbody fun _ _ => rfl
  | file content =>
    have hfile : x.2.isFile = true := by simp [Item.isFile, hbody]
    have hk : Host.kindOf x.2 = .file := by simp [Host.kindOf, hbody, Body.kind]
    rw [hk]
    dsimp only
    rcases rep_cases hl hsplit hfile with ⟨hrep, hothers⟩ | ⟨hrep, z, hz, hzx, hzrep⟩
    · have hhard : (a.host.entryOf l x).hardlink = none := if_pos hrep
      rw [hhard]
      dsimp only
      obtain ⟨e, hcreate, hino, hnext, hinode, hold⟩ :=
        Disk.create_spec (v := v) 384 (.file []) hnone hdir
      have hchunks : (a.host.entryOf l x).chunks = (a.split content).map a.digest := by
        simp [Host.entryOf, Host.entry, hfile, hbody, Body.content, host]
      have hsize : (a.host.entryOf l x).size = content.length := by
        simp [Host.entryOf, Host.entry, hbody, Body.content]
      have hread := mapM_readChunk (a.split content) fun c hc =>
        hl.chunks x hxl hfile c (by rw [hbody]; exact hc)
      rw [hcreate, hchunks, hsize]
      simp only [bind, Except.bind]
      rw [hread]
      dsimp only
      rw [a.split_flatten, if_neg (not_not.mpr rfl)]
      have hself : e.ino x.1 = some d.next := by rw [hino, if_pos rfl]
      refine ⟨_, rfl,
        h.extend (i := d.next) hnew (fun q => ?_) ?_ ?_ (fun j hj => ?_) ?_ ?_ fun w hw =>
        hfresh w hw (hothers w hw)⟩
      · exact Disk.modify_ino.trans (hino q)
      · exact le_of_le_of_eq (by omega) Disk.modify_next.symm
      · exact lt_of_lt_of_eq (by omega) Disk.modify_next.symm
      · dsimp only
        rw [Disk.modify_inode, hself, if_neg (by rw [Option.some.injEq]; exact hj.ne')]
        exact hold j hj.ne
      · dsimp only
        rw [Disk.modify_inode, if_pos hself, hbody]
      · intro target htarget
        rw [hbody] at htarget
        simp at htarget
    · have hhard : (a.host.entryOf l x).hardlink = some z.1 := (if_neg hrep).trans (by rw [hzrep])
      rw [hhard]
      dsimp only
      obtain ⟨i, hi⟩ := Option.ne_none_iff_exists'.mp ((h.names z.1).mpr (List.mem_map_of_mem hz))
      have hzl : z ∈ l := hsplit ▸ List.mem_append_left _ hz
      have hzitem : z.2 = x.2 := hl.housed.shared z hzl x hxl hzx
      have hzbody : d.body z.1 = some (.file content) := by rw [h.body z hz, hzitem, hbody]
      rw [hzbody, if_pos (by simp [Body.kind])]
      obtain ⟨e, hlink, hino, hnext, hold⟩ := Disk.link_spec (v := v) hi hnone hdir
      refine ⟨e, hlink,
        h.extend (i := i) hnew hino hnext.ge (hnext ▸ h.used _ _ hi) (fun j _ =>
          hold j) ?_ ?_ fun w hw => ?_⟩
      · rw [(hold i).1, hbody]
        rw [body_of_ino hi] at hzbody
        exact Option.some.inj hzbody
      · intro target htarget
        rw [hbody] at htarget
        simp at htarget
      · rw [← hi, h.same w hw z hz]
        constructor
        · rintro (rfl | hs)
          · exact hzx
          · exact Item.sameFile_trans hs hzx
        · exact fun hs => Or.inr (Item.sameFile_trans hs (Item.sameFile_symm hzx))

/-- **After the first pass** all names are there. -/
theorem makeEntries_spec (hl : Captured a chunks l) (hsplit : l = done ++ todo)
    (hroot : [] ∈ done.map Prod.fst) (h : Made done d) :
    ∃ e, (todo.map (a.host.entryOf l)).foldlM (a.makeEntry v chunks) d = .ok e ∧ Made l e := by
  induction todo generalizing done d with
  | nil => exact ⟨d, rfl, by rw [hsplit, List.append_nil]; exact h⟩
  | cons x todo ih =>
    have hx : x.1 ≠ [] := by
      have hdistinct := hl.housed.distinct
      rw [hsplit, List.map_append, List.map_cons, List.nodup_append] at hdistinct
      exact fun heq => hdistinct.2.2 [] hroot x.1 List.mem_cons_self heq.symm
    obtain ⟨e, hmake, hmade⟩ := makeEntry_spec (v := v) hl hsplit hx h
    obtain ⟨e', hrest, hall⟩ := ih (by rw [hsplit, List.append_assoc]; rfl)
      (by rw [List.map_append]; exact List.mem_append_left _ hroot) hmade
    refine ⟨e', ?_, hall⟩
    rw [List.map_cons, List.foldlM_cons, hmake]
    exact hrest

end Archiver

/-! ## The other passes -/

/-- **A pass over entries** sets what it sets, of every inode; names of one inode stand for the same
object. -/
theorem pass_spec {h : Host} {l : List (Path × Item)} (step : Disk → Entry → Except String Disk)
    (f : Entry → Inode → Inode) (B Q : Item → Inode → Prop) (todo done : List (Path × Item))
    {d : Disk} (hstep : ∀ d e, d.ino e.name ≠ none → step d e = .ok (d.modify e.name (f e)))
    (hset : ∀ x ∈ l, ∀ n, B x.2 n → B x.2 (f (h.entryOf l x) n) ∧ Q x.2 (f (h.entryOf l x) n))
    (hnames : ∀ x ∈ l, d.ino x.1 ≠ none)
    (hshare : ∀ x ∈ l, ∀ y ∈ l, d.ino x.1 = d.ino y.1 → x.2 = y.2) (htodo : ∀ x ∈ todo, x ∈ l)
    (hdone : ∀ x ∈ done, x ∈ l) (hB : ∀ x ∈ l, ∀ i, d.ino x.1 = some i → B x.2 (d.inode i))
    (hQ : ∀ x ∈ done, ∀ i, d.ino x.1 = some i → Q x.2 (d.inode i)) :
    ∃ e, (todo.map (h.entryOf l)).foldlM step d = .ok e ∧ (∀ q, e.ino q = d.ino q) ∧
    e.names = d.names ∧
      (∀ x ∈ l, ∀ i, e.ino x.1 = some i → B x.2 (e.inode i)) ∧
      ∀ x, x ∈ done ∨ x ∈ todo → ∀ i, e.ino x.1 = some i → Q x.2 (e.inode i) := by
  induction todo generalizing d done with
  | nil =>
    exact ⟨d, rfl, fun _ => rfl, rfl, hB, fun x hx => hQ x (hx.resolve_right List.not_mem_nil)⟩
  | cons x todo ih =>
    have hx := htodo x List.mem_cons_self
    obtain ⟨i, hi⟩ := Option.ne_none_iff_exists'.mp (hnames x hx)
    have hrun : step d (h.entryOf l x) = .ok (d.modify x.1 (f (h.entryOf l x))) :=
      hstep d _ (hnames x hx)
    generalize hd₁ : d.modify x.1 (f (h.entryOf l x)) = d₁ at hrun
    have hino : ∀ q, d₁.ino q = d.ino q := fun q => hd₁ ▸ Disk.modify_ino
    have hinode : ∀ j, d₁.inode j =
        if d.ino x.1 = some j then f (h.entryOf l x) (d.inode j) else d.inode j :=
      fun j => hd₁ ▸ Disk.modify_inode j
    have hboth := hset x hx (d.inode i) (hB x hx i hi)
    -- An object with the inode of this one is this one.
    have hat : ∀ y ∈ l, ∀ j, d.ino y.1 = some j →
        (j = i ∧ y.2 = x.2 ∧ d₁.inode j = f (h.entryOf l x) (d.inode i)) ∨
          d₁.inode j = d.inode j := by
      intro y hy j hj
      rw [hinode]
      by_cases hij : i = j
      · subst hij
        exact Or.inl ⟨rfl, hshare y hy x hx (hj.trans hi.symm), if_pos hi⟩
      · exact Or.inr (if_neg fun heq => hij (Option.some.inj (hi.symm.trans heq)))
    have hB₁ : ∀ y ∈ l, ∀ j, d₁.ino y.1 = some j → B y.2 (d₁.inode j) := fun y hy j hj => by
      rw [hino] at hj
      rcases hat y hy j hj with ⟨-, hitem, hnode⟩ | hnode
      · rw [hitem, hnode]
        exact hboth.1
      · rw [hnode]
        exact hB y hy j hj
    have hQ₁ : ∀ y ∈ done ++ [x], ∀ j, d₁.ino y.1 = some j → Q y.2 (d₁.inode j) := by
      intro y hy j hj
      rw [hino] at hj
      rcases List.mem_append.mp hy with hy | hy
      · rcases hat y (hdone y hy) j hj with ⟨-, hitem, hnode⟩ | hnode
        · rw [hitem, hnode]
          exact hboth.2
        · rw [hnode]
          exact hQ y hy j hj
      · rw [List.mem_singleton] at hy
        subst hy
        rw [hi, Option.some.injEq] at hj
        subst hj
        rw [hinode, if_pos hi]
        exact hboth.2
    obtain ⟨e, hrest, hinoE, hnamesE, hBE, hQE⟩ := ih (done ++ [x]) (d := d₁)
      (fun y hy => by rw [hino]; exact hnames y hy) (fun y hy z hz =>
        by rw [hino, hino]; exact hshare y hy z hz)
      (fun y hy => htodo y (List.mem_cons_of_mem _ hy))
      (fun y hy => (List.mem_append.mp hy).elim (hdone y) fun hy => List.mem_singleton.mp hy ▸ hx)
        hB₁ hQ₁
    refine ⟨e, ?_, fun q => (hinoE q).trans (hino q), hnamesE.trans (hd₁ ▸ Disk.modify_names), hBE,
      fun y hy => ?_⟩
    · rw [List.map_cons, List.foldlM_cons, hrun]
      exact hrest
    · refine hQE y ?_
      rw [List.mem_append, List.mem_singleton, or_assoc]
      exact hy.imp_right List.mem_cons.mp

/-- What a disk has for every object when a restore is through. -/
structure Restored (l : List (Path × Item)) (d : Disk) : Prop where
  names : ∀ q, d.ino q ≠ none ↔ q ∈ l.map Prod.fst
  same : ∀ x ∈ l, ∀ y ∈ l, d.ino x.1 = d.ino y.1 ↔ x = y ∨ x.2.sameFile y.2 = true
  inode :
    ∀ x ∈ l, ∀ i, d.ino x.1 = some i → (d.inode i).body = x.2.body ∧ (d.inode i).attrs = x.2.attrs ∧
      (d.inode i).mode &&& 4095 = x.2.mode &&& 4095 ∧ (d.inode i).secs = x.2.secs ∧
      (d.inode i).nanos = x.2.nanos

/-- An object has the attributes of its entry, and no others. -/
theorem setAttrs_attrs (attrs old : OrdMap Bytes Bytes) :
    (old.filter fun name _ => attrs.toList.any fun x => x.1 = name).foldInsert attrs.toList =
      attrs := by
  refine OrdMap.ext_get? fun k => ?_
  rw [OrdMap.get?_foldInsert _ (f := attrs.get?) fun p hp => attrs.mem_toList_iff.mp hp]
  split_ifs with hk
  · rfl
  · have hnone : attrs.get? k = none := by
      by_contra hsome
      exact hk (attrs.mem_keys_iff.mpr (Option.isSome_iff_ne_none.mpr hsome))
    rw [hnone, OrdMap.get?_filter, Option.filter_eq_none_iff]
    intro value _ hany
    obtain ⟨x, hx, hname⟩ := List.any_eq_true.mp hany
    exact hk (List.mem_map.mpr ⟨x, hx, by simpa using hname⟩)

section Passes

/-- What is archived as a symlink is one. -/
theorem symlink_of_kindOf {item : Item} (hkind : item.body.kind.isSome = true)
    (h : Host.kindOf item = .symlink) : ∃ target, item.body = .symlink target := by
  unfold Host.kindOf at h
  cases hbody : item.body with
  | directory => simp [hbody, Body.kind] at h
  | file content => simp [hbody, Body.kind] at h
  | symlink target => exact ⟨target, rfl⟩
  | special => simp [hbody, Body.kind] at hkind

variable {ι : Type} {a : Archiver ι} {l : List (Path × Item)} {d : Disk}

/-- **After the last pass** every object is as it was. -/
theorem passes_spec (hl : Host.Housed l) (hkinds : ∀ x ∈ l, x.2.body.kind.isSome = true)
    (hsymlinks : ∀ x ∈ l, ∀ target, x.2.body = .symlink target → x.2.mode &&& 4095 = 511)
    (h : Made l d) :
    ∃ d₁ d₂, (l.map (a.host.entryOf l)).reverse.foldlM Archiver.setAttrs d = .ok d₁ ∧
      (l.map (a.host.entryOf l)).reverse.foldlM Archiver.setTimes d₁ = .ok d₂ ∧ Restored l d₂ := by
  have hnames : ∀ x ∈ l, d.ino x.1 ≠ none := fun x hx => (h.names x.1).mpr (List.mem_map_of_mem hx)
  have hshare : ∀ x ∈ l, ∀ y ∈ l, d.ino x.1 = d.ino y.1 → x.2 = y.2 := fun x hx y hy heq =>
    ((h.same x hx y hy).mp heq).elim (congrArg Prod.snd) (hl.shared x hx y hy)
  have hreverse : ∀ x ∈ l.reverse, x ∈ l := fun x hx => List.mem_reverse.mp hx
  let B : Item → Inode → Prop := fun item n =>
    n.body = item.body ∧ ∀ target, item.body = .symlink target → n.mode = 511
  obtain ⟨d₁, hrun₁, hino₁, -, hB₁, hQ₁⟩ := pass_spec (h := a.host) (l := l) Archiver.setAttrs
    (fun e n =>
      { n with
        attrs :=
          (n.attrs.filter fun name _ => e.attrs.any fun x => x.1 = name).foldInsert e.attrs })
    B (fun item n => n.attrs = item.attrs) l.reverse [] (fun d e hino => if_neg hino)
    (fun x _ n hn => ⟨hn, setAttrs_attrs x.2.attrs n.attrs⟩) hnames hshare hreverse
    (fun x hx => absurd hx List.not_mem_nil)
    (fun x hx i hi => ⟨Option.some.inj ((body_of_ino hi).symm.trans (h.body x hx)), fun target ht =>
      h.mode x hx target ht i hi⟩) (fun x hx => absurd hx List.not_mem_nil)
  obtain ⟨d₂, hrun₂, hino₂, -, hB₂, hQ₂⟩ := pass_spec (h := a.host) (l := l) Archiver.setTimes
    (fun e n =>
      { n with
        mode := if e.kind = .symlink then n.mode else e.mode
        secs := e.secs
        nanos := e.nanos })
    (fun item n => B item n ∧ n.attrs = item.attrs)
    (fun item n => n.mode &&& 4095 = item.mode &&& 4095 ∧ n.secs = item.secs ∧ n.nanos = item.nanos)
    l.reverse [] (fun d e hino => if_neg hino)
    (fun x hx n hn => by
      obtain ⟨⟨hbody, hmode⟩, hattrs⟩ := hn
      have hkind : (a.host.entryOf l x).kind = Host.kindOf x.2 := rfl
      dsimp only
      rw [hkind]
      refine ⟨⟨⟨hbody, fun target ht => ?_⟩, hattrs⟩, ?_, rfl, rfl⟩
      · rw [if_pos (by simp [Host.kindOf, ht, Body.kind])]
        exact hmode target ht
      · split_ifs with hk
        · obtain ⟨target, ht⟩ := symlink_of_kindOf (hkinds x hx) hk
          rw [hmode target ht, hsymlinks x hx target ht]
          rfl
        · show (x.2.mode &&& 4095) &&& 4095 = x.2.mode &&& 4095
          rw [UInt32.and_assoc, UInt32.and_self])
    (fun x hx => by rw [hino₁]; exact hnames x hx) (fun x hx y hy =>
      by rw [hino₁, hino₁]; exact hshare x hx y hy)
    hreverse (fun x hx => absurd hx List.not_mem_nil)
    (fun x hx i hi => ⟨hB₁ x hx i hi, hQ₁ x (Or.inr (List.mem_reverse.mpr hx)) i hi⟩)
    (fun x hx => absurd hx List.not_mem_nil)
  refine ⟨d₁, d₂, by rw [← List.map_reverse]; exact hrun₁, by rw [← List.map_reverse]; exact hrun₂,
    fun q => by rw [hino₂, hino₁]; exact h.names q,
    fun x hx y hy => by
      rw [hino₂, hino₂, hino₁, hino₁]; exact h.same x hx y hy, fun x hx i hi => ?_⟩
  obtain ⟨⟨hbody, -⟩, hattrs⟩ := hB₂ x hx i hi
  exact ⟨hbody, hattrs, hQ₂ x (Or.inr (List.mem_reverse.mpr hx)) i hi⟩

end Passes

end Archive

end Furrow
