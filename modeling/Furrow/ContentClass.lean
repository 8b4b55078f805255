import Mathlib
import Furrow.Model

set_option relaxedAutoImplicit false
set_option autoImplicit false

/-!
# Content classes

`content_class.rs`: the class of a path, from its components and its name alone, and the masks
of classes that the collector works with.

## Main definitions

* `Furrow.classify` — the class of a relative path.
* `Furrow.Mask`, `Furrow.ContentClass.bit` — sets of classes.
-/

namespace Furrow

/-- Whether a component is one of some names. -/
def hasComponent (components : List Bytes) (candidates : List String) : Bool :=
  components.any fun c => (candidates.map text).contains c

/-- Whether a component ends with a text. -/
def hasComponentSuffix (components : List Bytes) (suffix : String) : Bool :=
  components.any fun c => (text suffix).isSuffixOf c

/-- Whether a name ends with one of some texts. -/
def hasSuffix (name : Bytes) (suffixes : List String) : Bool :=
  suffixes.any fun s => (text s).isSuffixOf name

/-- `is_secret`. -/
def isSecret (components : List Bytes) (name : Bytes) : Bool :=
  hasComponent components [".ssh", ".gnupg"] || name = text ".env" ||
    (text ".env.").isPrefixOf name ||
    ([text "id_rsa", text "id_ed25519", text "id_ecdsa"].contains name) ||
    hasSuffix name [".pem", ".key", ".p12", ".pfx"]

/-- `is_lockfile`. -/
def isLockfile (name : Bytes) : Bool :=
  (["Cargo.lock", "package-lock.json", "pnpm-lock.yaml", "yarn.lock", "bun.lock", "bun.lockb",
    "poetry.lock", "Pipfile.lock", "go.sum", "composer.lock", "Gemfile.lock"].map text).contains
      name

/-- `is_database`. -/
def isDatabase (name : Bytes) : Bool :=
  hasSuffix name [".sqlite", ".sqlite3", ".db"] ||
    hasSuffix name [".sqlite-wal", ".sqlite-shm", ".sqlite3-wal", ".sqlite3-shm", ".db-wal",
      ".db-shm"]

/-- The class of a relative path. -/
def classify (relative : Bytes) : ContentClass :=
  let components := (relative.splitOn slash).filter fun c => !c.isEmpty
  match components.getLast? with
  | none => .Source
  | some name =>
    if hasComponent components [".git", ".jj"] then .VcsMeta
    else if isSecret components name then .ConfigSecret
    else if isLockfile name then .Lockfile
    else if isDatabase name then .Database
    else if hasComponent components ["node_modules", ".venv", "venv", "vendor", ".pnpm"] ||
        hasComponentSuffix components "site-packages" then .Dependency
    else if hasComponent components ["target", "dist", "build", ".next", ".nuxt", ".turbo",
          ".parcel-cache", "coverage", "out"] ||
        hasSuffix name [".o", ".obj", ".class", ".pyc"] then .BuildOutput
    else if hasComponent components ["tmp", "temp", "logs", "log", ".cache", "__pycache__"] ||
        (text ".#").isPrefixOf name || (text "~").isSuffixOf name ||
        hasSuffix name [".log", ".tmp", ".swp", ".swo"] then .Scratch
    else .Source

/-- A 16-bit mask, as the set of its bits. -/
abbrev Mask := Finset (Fin 16)

namespace ContentClass

/-- The bit of a class. -/
def bit (c : ContentClass) : Fin 16 := Fin.ofNat 16 c.toNat

end ContentClass

/-- `ALL_CLASS_MASK` -/
def allClassMask : Mask := Finset.univ.filter fun b => b < 8

/-- `BLOB_BYTES_BIT` -/
def blobBytesBit : Fin 16 := 15

/-- The full mask has the bit of every class. -/
theorem bit_mem_allClassMask (c : ContentClass) : c.bit ∈ allClassMask := by
  cases c <;> decide

end Furrow
