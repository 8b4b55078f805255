import Mathlib
import Furrow.Lib.LittleEndian

set_option relaxedAutoImplicit false
set_option autoImplicit false

/-!
# Objects of the store

The data types of `model.rs` and `content_class.rs`: object identifiers and kinds, file blobs,
tree entries and tree nodes, snapshots, and the content class that decides how long a file's
bytes are kept.  Objects are modelled as decoded values; how they are laid out as bytes is the
business of the pack.

## Main definitions

* `Furrow.ObjectId`, `Furrow.ObjectKind` — 32-byte content hashes and the five object kinds.
* `Furrow.TreeEntry`, `Furrow.Tree`, `Furrow.TreePage` — one directory entry, one stored node.
* `Furrow.Object` — a decoded object of any kind.
* `Furrow.ObjectStore` — the objects a reader can load.
-/

namespace Furrow

/-- One byte. -/
abbrev Byte := Fin 256

/-- A byte string. -/
abbrev Bytes := List Byte

instance : LawfulBEq Byte := inferInstance

instance : LawfulBEq Bytes := inferInstance

/-- The bytes of ASCII text. -/
def text (s : String) : Bytes := s.toList.map fun c => Fin.ofNat 256 c.toNat

/-- The path separator `b'/'`. -/
def slash : Byte := 47

/-- A content hash: exactly 32 bytes. -/
structure ObjectId where
  /-- The bytes of the hash. -/
  bytes : Bytes
  /-- A hash has 32 bytes. -/
  length_eq : bytes.length = 32
deriving DecidableEq

namespace ObjectId

/-- The identifier `[byte; 32]`. -/
def fill (b : Byte) : ObjectId := ⟨List.replicate 32 b, List.length_replicate⟩

/-- An identifier is its bytes. -/
theorem bytes_injective : Function.Injective bytes := by
  intro a b h
  cases a
  cases b
  simpa using h

/-- Identifiers are ordered by their bytes, as the tables keyed by them are. -/
instance : LinearOrder ObjectId := LinearOrder.lift' bytes bytes_injective

end ObjectId

/-- The digit of a number below sixteen. -/
def hexDigit (n : ℕ) : Byte := if n < 10 then Fin.ofNat 256 (48 + n) else Fin.ofNat 256 (87 + n)

/-- `hex::encode` -/
def hexEncode (bytes : Bytes) : Bytes :=
  bytes.flatMap fun b => [hexDigit (b.val / 16), hexDigit (b.val % 16)]

/-- The kind of a stored object. -/
inductive ObjectKind
  | Chunk
  | Blob
  | Tree
  | Snapshot
  | Xattrs
deriving DecidableEq, Repr

namespace ObjectKind

/-- The discriminant written into a pack record. -/
def toU8 : ObjectKind → Byte
  | Chunk => 1
  | Blob => 2
  | Tree => 3
  | Snapshot => 4
  | Xattrs => 5

/-- The kind a discriminant stands for, if any. -/
def fromU8 (value : Byte) : Option ObjectKind :=
  if value = 1 then some Chunk
  else if value = 2 then some Blob
  else if value = 3 then some Tree
  else if value = 4 then some Snapshot
  else if value = 5 then some Xattrs
  else none

/-- Every discriminant is read back as its kind. -/
@[simp] theorem fromU8_toU8 (k : ObjectKind) : fromU8 k.toU8 = some k := by
  cases k <;> decide

/-- The kind a discriminant is read as has that discriminant. -/
theorem toU8_of_fromU8 {b : Byte} {k : ObjectKind} (h : fromU8 b = some k) : k.toU8 = b := by
  unfold fromU8 at h
  split_ifs at h with h1 h2 h3 h4 h5
  all_goals
    rw [← Option.some.inj h]
    exact Eq.symm (by assumption)

end ObjectKind

/-- The class of a path, which decides how long old bytes of it are kept. -/
inductive ContentClass
  | Source
  | VcsMeta
  | ConfigSecret
  | Dependency
  | BuildOutput
  | Database
  | Lockfile
  | Scratch
deriving DecidableEq, Repr

namespace ContentClass

/-- The discriminant of a class. -/
def toNat : ContentClass → ℕ
  | Source => 0
  | VcsMeta => 1
  | ConfigSecret => 2
  | Dependency => 3
  | BuildOutput => 4
  | Database => 5
  | Lockfile => 6
  | Scratch => 7

end ContentClass

/-- What a directory entry is. -/
inductive EntryKind
  | File
  | Directory
  | Symlink
  | Fifo
  | SocketMarker
deriving DecidableEq, Repr

/-- One entry of a captured directory. -/
structure TreeEntry where
  name : Bytes
  kind : EntryKind
  target : Option ObjectId
  linkTarget : Bytes
  mode : UInt32
  size : UInt64
  mtimeSecs : ℤ
  mtimeNanos : UInt32
  xattrs : Option ObjectId
  contentClass : ContentClass
deriving DecidableEq

/-- A reference from a branch node to the node of one of its pages. -/
structure TreePage where
  firstName : Bytes
  lastName : Bytes
  entryCount : ℕ
  target : ObjectId
deriving DecidableEq

/-- A stored tree node: a leaf holds entries, a branch holds pages. -/
structure Tree where
  entries : List TreeEntry
  pages : List TreePage
deriving DecidableEq

/-- One chunk of a file. -/
structure ChunkRef where
  id : ObjectId
  len : UInt32
deriving DecidableEq

/-- The manifest of a file: its chunks in order. -/
structure Blob where
  chunks : List ChunkRef
  totalLen : UInt64
deriving DecidableEq

/-- A logically consistent database image attached to a snapshot. -/
structure SqliteBackup where
  path : Bytes
  blob : ObjectId
  integrityOk : Bool
deriving DecidableEq

/-- A sealed snapshot: the root tree and what was recorded beside it. -/
structure Snapshot where
  rootTree : ObjectId
  parent : Option ObjectId
  mergeParents : List ObjectId
  sealedAtSecs : ℤ
  sqliteBackups : List SqliteBackup
  excludedPaths : List Bytes
  hardlinks : List (List Bytes)
deriving DecidableEq

/-- A decoded object of any kind. -/
inductive Object
  | chunk (bytes : Bytes)
  | blob (blob : Blob)
  | tree (tree : Tree)
  | snapshot (snapshot : Snapshot)
  | xattrs (entries : List (Bytes × Bytes))
deriving DecidableEq

/-- The kind an object is stored under. -/
def Object.kind : Object → ObjectKind
  | chunk _ => .Chunk
  | blob _ => .Blob
  | tree _ => .Tree
  | snapshot _ => .Snapshot
  | xattrs _ => .Xattrs

/-- The objects a reader can load. -/
abbrev ObjectStore := ObjectId → Option Object

end Furrow
