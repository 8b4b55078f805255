import Furrow.Model

set_option relaxedAutoImplicit false
set_option autoImplicit false

/-!
# The stat cache

`catalog.rs` and `repository.rs`: what was known of a regular file when it was last read.  A
file whose stat has not changed since, and was not touched too close to the read, is captured
from its row without being opened.

## Main definitions

* `Furrow.CachedFile`, `Furrow.Metadata` — a row and a stat.
* `Furrow.CachedFile.isRacy`, `Furrow.cachedMatches` — when a row may be used again.
-/

namespace Furrow

/-- A row of the stat cache. -/
structure CachedFile where
  device : UInt64
  inode : UInt64
  size : UInt64
  mtimeSecs : ℤ
  mtimeNanos : ℤ
  ctimeSecs : ℤ
  ctimeNanos : ℤ
  mode : UInt32
  blobId : ObjectId
  xattrs : Option ObjectId
  sqlite : Bool
  cachedAtNanos : ℤ
deriving DecidableEq

/-- What `lstat` says of a regular file. -/
structure Metadata where
  dev : UInt64
  ino : UInt64
  len : UInt64
  mtime : ℤ
  mtimeNsec : ℤ
  ctime : ℤ
  ctimeNsec : ℤ
  mode : UInt32
  nlink : UInt64
deriving DecidableEq

/-- The nearest value of an `i64`. -/
def saturate (x : ℤ) : ℤ := max (-2 ^ 63) (min (2 ^ 63 - 1) x)

/-- `RACY_WINDOW_NANOS` -/
def racyWindowNanos : ℤ := 2000000000

namespace CachedFile

/-- The time of the last write, in nanoseconds. -/
def mtimeNanosTotal (row : CachedFile) : ℤ :=
  saturate (saturate (row.mtimeSecs * 1000000000) + row.mtimeNanos)

/-- The time of the last change, in nanoseconds. -/
def ctimeNanosTotal (row : CachedFile) : ℤ :=
  saturate (saturate (row.ctimeSecs * 1000000000) + row.ctimeNanos)

/-- A write in the granularity of the time stamps after the read could have left the stat
unchanged. -/
def isRacy (row : CachedFile) : Bool :=
  let newest := max row.mtimeNanosTotal row.ctimeNanosTotal
  row.cachedAtNanos ≤ saturate (newest + racyWindowNanos)

end CachedFile

/-- Whether a stat is the one of a row. -/
def cachedMatches (cached : CachedFile) (metadata : Metadata) : Bool :=
  cached.device = metadata.dev ∧ cached.inode = metadata.ino ∧ cached.size = metadata.len ∧
    cached.mtimeSecs = metadata.mtime ∧ cached.mtimeNanos = metadata.mtimeNsec ∧
    cached.ctimeSecs = metadata.ctime ∧ cached.ctimeNanos = metadata.ctimeNsec ∧
    cached.mode = metadata.mode

/-- The row a file is captured from without being read. -/
def unchangedRow (cached : Option CachedFile) (metadata : Metadata) : Option CachedFile :=
  cached.filter fun row => cachedMatches row metadata && !row.isRacy

/-- The row of a file that was read at a time, with what the read put into the store. -/
def cachedFromRead (metadata : Metadata) (blob : ObjectId) (xattrs : Option ObjectId)
    (sqlite : Bool) (readAtNanos : ℤ) : CachedFile where
  device := metadata.dev
  inode := metadata.ino
  size := metadata.len
  mtimeSecs := metadata.mtime
  mtimeNanos := metadata.mtimeNsec
  ctimeSecs := metadata.ctime
  ctimeNanos := metadata.ctimeNsec
  mode := metadata.mode
  blobId := blob
  xattrs := xattrs
  sqlite := sqlite
  cachedAtNanos := readAtNanos

end Furrow
