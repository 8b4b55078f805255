import Mathlib
import Furrow.Capture.StatCache
import Furrow.Objects

set_option relaxedAutoImplicit false
set_option autoImplicit false

/-!
# The stat cache hides no change

Files change while they are captured.  A change at a time sets the change time of the file to that
time, rounded down to the tick of its device, which is at most two seconds.  A capture reads the
clock, opens the file at the path, stats it, reads it piece by piece and stats the path again; if
the two stats agree it stores a row.  Changes, renames and any number of captures interleave.

A row that is not racy has a change time more than two seconds before its clock was read.  A change
at or after that moment sets a later change time, whatever the tick, so while a stat matches the
row, the file has not changed since.

## Main definitions

* `Furrow.Inode`, `Furrow.stat` — a file and what a stat says of it.
* `Furrow.stableMetadata`, `Furrow.readAtNanos` — the two stats agree; the clock of a row.
* `Furrow.Reader`, `Furrow.Watch`, `Furrow.Watch.Step` — captures and changes.

## Main results

* `Furrow.unchangedRow_current` — the row that `unchangedRow` finds has the content of the file.
-/

namespace Furrow

/-- A device and an inode number. -/
abbrev FileKey := UInt64 × UInt64

/-- A regular file.  Its change time is in nanoseconds. -/
structure Inode where
  content : Bytes
  mtime : ℤ
  mtimeNsec : ℤ
  ctime : ℤ
  mode : UInt32
  nlink : UInt64

/-- What a stat says of a file. -/
def stat (key : FileKey) (inode : Inode) : Metadata where
  dev := key.1
  ino := key.2
  len := UInt64.ofNat inode.content.length
  mtime := inode.mtime
  mtimeNsec := inode.mtimeNsec
  ctime := inode.ctime / 1000000000
  ctimeNsec := inode.ctime % 1000000000
  mode := inode.mode
  nlink := inode.nlink

/-- `stable_metadata` -/
def stableMetadata (before after : Metadata) : Bool :=
  before.dev = after.dev ∧ before.ino = after.ino ∧ before.len = after.len ∧
    before.mtime = after.mtime ∧ before.mtimeNsec = after.mtimeNsec ∧
    before.ctime = after.ctime ∧ before.ctimeNsec = after.ctimeNsec ∧ before.mode = after.mode

/-- The clock of a row, from the nanoseconds since the epoch: the seconds are cast to an `i64`, the
product saturates and the sum wraps. -/
def readAtNanos (now : ℕ) : ℤ :=
  let secs := Int.bmod (now / 1000000000 : ℕ) (2 ^ 64)
  Int.bmod (saturate (secs * 1000000000) + (now % 1000000000 : ℕ)) (2 ^ 64)

/-- What a capture makes of a content: how objects are hashed and how bytes are chunked. -/
structure CaptureEnv where
  idOf : Object → ObjectId
  chunks : Bytes → List Bytes

/-- The manifest of chunks. -/
def manifest (env : CaptureEnv) (parts : List Bytes) : Blob where
  chunks := parts.map fun part => ⟨env.idOf (.chunk part), UInt32.ofNat part.length⟩
  totalLen := UInt64.ofNat (parts.map List.length).sum

/-- Whether the first chunk starts with the header of a database. -/
def hasHeader (parts : List Bytes) : Bool :=
  match parts with
  | [] => false
  | part :: _ => (text "SQLite format 3" ++ [0]).isPrefixOf part

/-- The blob of a content. -/
def blobOf (env : CaptureEnv) (content : Bytes) : ObjectId :=
  env.idOf (.blob (manifest env (env.chunks content)))

/-- Where a capture of the file stands; `left` is the number of attempts that are left, and `now`
the clock that was read. -/
inductive Reader
  | idle
  /-- An attempt is to begin. -/
  | trying (left : ℕ)
  | clocked (left now : ℕ)
  | opened (left now : ℕ) (key : FileKey)
  /-- The open file has been read this far. -/
  | reading (left now : ℕ) (key : FileKey) (before : Metadata) (bytes : Bytes)
  /-- The end of the file was reached. -/
  | ended (left now : ℕ) (key : FileKey) (before : Metadata) (bytes : Bytes)
  /-- The row is to be stored. -/
  | finished (row : CachedFile)

/-- The files, the path that is captured, its row and the captures. -/
structure Watch where
  /-- Nanoseconds since the epoch. -/
  clock : ℕ
  inodes : FileKey → Inode
  /-- The file at the path. -/
  path : Option FileKey
  cached : Option CachedFile
  readers : ℕ → Reader

/-- A file that is changed at a time. -/
def touched (tick : UInt64 → ℕ) (now : ℕ) (key : FileKey) (inode : Inode) : Inode :=
  { inode with ctime := (tick key.1 * (now / tick key.1) : ℕ) }

/-- Move one capture. -/
def Watch.set (s : Watch) (n : ℕ) (r : Reader) : Watch :=
  { s with readers := Function.update s.readers n r }

section Runs

variable (env : CaptureEnv) (tick : UInt64 → ℕ)

/-- **One step**: time passes, a file is changed, the path gets another file, or a capture goes
on. -/
inductive Watch.Step : Watch → Watch → Prop
  | wait {s : Watch} (clock : ℕ) (h : s.clock ≤ clock) : Step s { s with clock := clock }
  /-- A write, a change of attributes, or a new file under an old number. -/
  | change {s : Watch} (key : FileKey) (inode : Inode) :
      Step s { s with inodes := Function.update s.inodes key (touched tick s.clock key inode) }
  /-- A file is renamed to the path. -/
  | rename {s : Watch} (key : FileKey) :
      Step s { s with
        path := some key
        inodes := Function.update s.inodes key (touched tick s.clock key (s.inodes key)) }
  /-- The path is removed, or gets another file because a directory above it is renamed. -/
  | redirect {s : Watch} (path : Option FileKey) : Step s { s with path := path }
  | begin {s : Watch} (n : ℕ) (h : s.readers n = .idle) : Step s (s.set n (.trying 3))
  | readClock {s : Watch} (n : ℕ) {left : ℕ} (h : s.readers n = .trying (left + 1)) :
      Step s (s.set n (.clocked left s.clock))
  | openFile {s : Watch} (n : ℕ) {left now : ℕ} {key : FileKey}
      (h : s.readers n = .clocked left now) (hpath : s.path = some key) :
      Step s (s.set n (.opened left now key))
  | statBefore {s : Watch} (n : ℕ) {left now : ℕ} {key : FileKey}
      (h : s.readers n = .opened left now key) :
      Step s (s.set n (.reading left now key (stat key (s.inodes key)) []))
  | readBytes {s : Watch} (n count : ℕ) {left now : ℕ} {key : FileKey} {before : Metadata}
      {bytes : Bytes} (h : s.readers n = .reading left now key before bytes) :
      Step s (s.set n (.reading left now key before
        (bytes ++ ((s.inodes key).content.drop bytes.length).take count)))
  | readEnd {s : Watch} (n : ℕ) {left now : ℕ} {key : FileKey} {before : Metadata} {bytes : Bytes}
      (h : s.readers n = .reading left now key before bytes)
      (hend : (s.inodes key).content.length ≤ bytes.length) :
      Step s (s.set n (.ended left now key before bytes))
  | stable {s : Watch} (n : ℕ) {left now : ℕ} {key key' : FileKey} {before : Metadata}
      {bytes : Bytes} (xattrs : Option ObjectId) (h :
        s.readers n = .ended left now key before bytes)
      (hpath : s.path = some key')
      (hstable : stableMetadata before (stat key' (s.inodes key')) = true) :
      Step s (s.set n (.finished (cachedFromRead (stat key' (s.inodes key')) (blobOf env bytes)
        xattrs (hasHeader (env.chunks bytes)) (readAtNanos now))))
  | retry {s : Watch} (n : ℕ) {left now : ℕ} {key key' : FileKey} {before : Metadata}
      {bytes : Bytes} (h : s.readers n = .ended left now key before bytes)
      (hpath : s.path = some key')
      (hstable : stableMetadata before (stat key' (s.inodes key')) = false) :
      Step s (s.set n (.trying left))
  | store {s : Watch} (n : ℕ) {row : CachedFile} (h : s.readers n = .finished row) :
      Step s { s.set n .idle with cached := some row }
  /-- The capture fails. -/
  | abandon {s : Watch} (n : ℕ) : Step s (s.set n .idle)

/-- The states of a run that begins without a row. -/
def Watch.Reachable (s : Watch) : Prop :=
  ∃ clock inodes path, Relation.ReflTransGen (Watch.Step env tick)
    ⟨clock, inodes, path, none, fun _ => .idle⟩ s

end Runs

/-! ## Times -/

/-- A time that is below a bound was so before it was cut. -/
theorem lt_of_saturate_lt {x y : ℤ} (hy : y < 2 ^ 63) (h : saturate x < y) : x < y := by
  unfold saturate at h
  omega

/-- A time that is cut is no later, if it is not negative. -/
theorem saturate_le {x y : ℤ} (hy : 0 ≤ y) (h : x ≤ y) : saturate x ≤ y := by
  unfold saturate
  omega

/-- No time is below the least 64-bit one. -/
theorem le_saturate (x : ℤ) : -2 ^ 63 ≤ saturate x := le_max_left _ _

/-- A cast to an `i64` does not exceed a value that is not too small for one. -/
theorem bmod_le {x : ℤ} (h : -2 ^ 63 ≤ x) : Int.bmod x (2 ^ 64) ≤ x := by
  rw [Int.bmod_def]
  split <;> omega

/-- The clock of a row is an `i64`, and not after the time it was read. -/
theorem readAtNanos_le (now : ℕ) : readAtNanos now < 2 ^ 63 ∧ readAtNanos now ≤ now := by
  have hsecs : Int.bmod (now / 1000000000 : ℕ) (2 ^ 64) ≤ (now / 1000000000 : ℕ) :=
    bmod_le (by omega)
  have hproduct : saturate (Int.bmod (now / 1000000000 : ℕ) (2 ^ 64) * 1000000000) ≤
      (now / 1000000000 : ℕ) * 1000000000 := saturate_le (by omega) (by omega)
  have hlow := le_saturate (Int.bmod (now / 1000000000 : ℕ) (2 ^ 64) * 1000000000)
  have hsum : readAtNanos now ≤
      saturate (Int.bmod (now / 1000000000 : ℕ) (2 ^ 64) * 1000000000) +
        (now % 1000000000 : ℕ) := by
    unfold readAtNanos
    exact bmod_le (by omega)
  refine ⟨?_, by omega⟩
  unfold readAtNanos
  rw [Int.bmod_def]
  split <;> omega

/-- The change time of a row that is not racy is more than the window before its clock. -/
theorem CachedFile.ctime_lt_of_not_racy {row : CachedFile} (hnsec : 0 ≤ row.ctimeNanos)
    (hbound : row.cachedAtNanos < 2 ^ 63) (h : row.isRacy = false) :
    row.ctimeSecs * 1000000000 + row.ctimeNanos + racyWindowNanos < row.cachedAtNanos := by
  have hwindow : (0 : ℤ) ≤ racyWindowNanos := by decide
  have hnewest : max row.mtimeNanosTotal row.ctimeNanosTotal + racyWindowNanos <
      row.cachedAtNanos := by
    refine lt_of_saturate_lt hbound ?_
    simpa only [isRacy, decide_eq_false_iff_not, not_le] using h
  have htotal : row.ctimeNanosTotal < row.cachedAtNanos - racyWindowNanos := by
    have hmax := le_max_right row.mtimeNanosTotal row.ctimeNanosTotal
    omega
  have hsum := lt_of_saturate_lt (by omega) htotal
  have hsecs : row.ctimeSecs * 1000000000 <
      row.cachedAtNanos - racyWindowNanos - row.ctimeNanos :=
    lt_of_saturate_lt (by omega) (by omega)
  omega

/-- A change sets a change time less than the window before it. -/
theorem ctime_touched {tick : UInt64 → ℕ} {key : FileKey} (htick : 0 < tick key.1)
    (hwindow : (tick key.1 : ℤ) ≤ racyWindowNanos) (now : ℕ) (inode : Inode) :
    (now : ℤ) < (touched tick now key inode).ctime + racyWindowNanos := by
  have hdiv := Nat.div_add_mod now (tick key.1)
  have hmod := Nat.mod_lt now htick
  change (now : ℤ) < ((tick key.1 * (now / tick key.1) : ℕ) : ℤ) + racyWindowNanos
  omega

/-! ## The invariant -/

/-- A file was changed at or after a time, or may have been, by its change time. -/
def RecentSince (now : ℕ) (inode : Inode) : Prop := (now : ℤ) < inode.ctime + racyWindowNanos

/-- What a row says of its file: if the row is not racy, its change time is before the window, and
the file is recent or has the content of the row. -/
def RowCurrent (env : CaptureEnv) (s : Watch) (row : CachedFile) : Prop :=
  ∃ now ≤ s.clock, row.isRacy = false →
    row.ctimeSecs * 1000000000 + row.ctimeNanos + racyWindowNanos < now ∧
    (RecentSince now (s.inodes (row.device, row.inode)) ∨
      row.blobId = blobOf env (s.inodes (row.device, row.inode)).content)

/-- What a capture has read: the file is recent, or the bytes are those it has now. -/
def ReaderCurrent (env : CaptureEnv) (s : Watch) : Reader → Prop
  | .idle => True
  | .trying _ => True
  | .clocked _ now => now ≤ s.clock
  | .opened _ now _ => now ≤ s.clock
  | .reading _ now key before bytes => now ≤ s.clock ∧ before.dev = key.1 ∧ before.ino = key.2 ∧
      (RecentSince now (s.inodes key) ∨ bytes = (s.inodes key).content.take bytes.length)
  | .ended _ now key before bytes => now ≤ s.clock ∧ before.dev = key.1 ∧ before.ino = key.2 ∧
      (RecentSince now (s.inodes key) ∨ bytes = (s.inodes key).content)
  | .finished row => RowCurrent env s row

/-- What holds in every state of a run. -/
structure WatchInv (env : CaptureEnv) (s : Watch) : Prop where
  cached : ∀ row, s.cached = some row → RowCurrent env s row
  readers : ∀ n, ReaderCurrent env s (s.readers n)

/-- Time passes, and files are changed or stay as they are. -/
structure Passes (s s' : Watch) : Prop where
  clock : s.clock ≤ s'.clock
  inodes : ∀ key, s'.inodes key = s.inodes key ∨
    ∀ now ≤ s.clock, RecentSince now (s'.inodes key)

section Runs

variable {env : CaptureEnv} {s s' : Watch}

/-- A row stays current while time passes. -/
theorem RowCurrent.passes {row : CachedFile} (hpass : Passes s s') (h : RowCurrent env s row) :
    RowCurrent env s' row := by
  obtain ⟨now, hnow, hrow⟩ := h
  refine ⟨now, hnow.trans hpass.clock, fun hracy => ?_⟩
  obtain ⟨hctime, hfile⟩ := hrow hracy
  refine ⟨hctime, ?_⟩
  rcases hpass.inodes (row.device, row.inode) with hsame | hrecent
  · rw [hsame]
    exact hfile
  · exact Or.inl (hrecent now hnow)

/-- A capture under way stays current while time passes. -/
theorem ReaderCurrent.passes {r : Reader} (hpass : Passes s s') (h : ReaderCurrent env s r) :
    ReaderCurrent env s' r := by
  cases r with
  | idle | trying => trivial
  | clocked left now | opened left now =>
    exact le_trans h hpass.clock
  | reading left now key before bytes | ended left now key before bytes =>
    obtain ⟨hnow, hdev, hino, hfile⟩ := h
    refine ⟨hnow.trans hpass.clock, hdev, hino, ?_⟩
    rcases hpass.inodes key with hsame | hrecent
    · rw [hsame]
      exact hfile
    · exact Or.inl (hrecent now hnow)
  | finished row => exact RowCurrent.passes hpass h

/-- The invariant stays while time passes. -/
theorem WatchInv.passes (h : WatchInv env s) (hpass : Passes s s') (hcached : s'.cached = s.cached)
    (hreaders : s'.readers = s.readers) : WatchInv env s' := by
  refine ⟨fun row hrow => ?_, fun n => ?_⟩
  · rw [hcached] at hrow
    exact (h.cached row hrow).passes hpass
  · rw [hreaders]
    exact (h.readers n).passes hpass

/-- A capture moves. -/
theorem WatchInv.moves (h : WatchInv env s) {n : ℕ} {r : Reader} (hr : ReaderCurrent env s r) :
    WatchInv env (s.set n r) := by
  refine ⟨fun row hrow => h.cached row hrow, fun m => ?_⟩
  change ReaderCurrent env s (Function.update s.readers n r m)
  by_cases hm : m = n
  · rw [hm, Function.update_self]
    exact hr
  · rw [Function.update_of_ne hm]
    exact h.readers m

variable {tick : UInt64 → ℕ}

/-- Changing a file leaves it recent. -/
theorem passes_touched (htick : ∀ dev, 0 < tick dev)
    (hwindow : ∀ dev, (tick dev : ℤ) ≤ racyWindowNanos) (hclock : s'.clock = s.clock)
    {key : FileKey} {inode : Inode}
    (hinodes : s'.inodes = Function.update s.inodes key (touched tick s.clock key inode)) :
    Passes s s' := by
  refine ⟨hclock.ge, fun other => ?_⟩
  rw [hinodes]
  by_cases hother : other = key
  · right
    intro now hnow
    rw [hother, Function.update_self]
    have hctime := ctime_touched (htick key.1) (hwindow key.1) s.clock inode
    unfold RecentSince
    omega
  · left
    rw [Function.update_of_ne hother]

/-- Reading on from a prefix of the content gives a longer one. -/
theorem take_append_drop_take {content bytes : Bytes} (count : ℕ)
    (h : bytes = content.take bytes.length) :
    bytes ++ (content.drop bytes.length).take count =
      content.take (bytes ++ (content.drop bytes.length).take count).length := by
  have hjoin : bytes ++ (content.drop bytes.length).take count =
      content.take (bytes.length + count) := by
    conv_lhs => rw [h]
    rw [List.take_add, ← h]
  have hlength : content.take (bytes.length + count) =
      content.take (content.take (bytes.length + count)).length := by
    rw [List.length_take, List.take_eq_take_min]
  rw [hjoin]
  exact hlength

/-- What was read to the end while the file did not change is its content. -/
theorem RowCurrent.of_stable {now : ℕ} {key key' : FileKey} {before : Metadata} {bytes : Bytes}
    (hnow : now ≤ s.clock) (hdev : before.dev = key.1) (hino : before.ino = key.2)
    (hbytes : RecentSince now (s.inodes key) ∨ bytes = (s.inodes key).content)
    (hstable : stableMetadata before (stat key' (s.inodes key')) = true)
    (xattrs : Option ObjectId) :
    RowCurrent env s (cachedFromRead (stat key' (s.inodes key')) (blobOf env bytes) xattrs
      (hasHeader (env.chunks bytes)) (readAtNanos now)) := by
  obtain ⟨hdev', hino', -⟩ := of_decide_eq_true hstable
  have hkey : key' = key := Prod.ext (hdev'.symm.trans hdev) (hino'.symm.trans hino)
  subst hkey
  obtain ⟨hbound, hle⟩ := readAtNanos_le now
  have hnsec : 0 ≤ (stat key' (s.inodes key')).ctimeNsec := Int.emod_nonneg _ (by decide)
  generalize readAtNanos now = readAt at hbound hle ⊢
  refine ⟨now, hnow, fun hracy => ⟨?_, ?_⟩⟩
  · exact lt_of_lt_of_le (CachedFile.ctime_lt_of_not_racy hnsec hbound hracy) hle
  · rcases hbytes with hrecent | hbytes
    · exact Or.inl hrecent
    · exact Or.inr (congrArg (blobOf env) hbytes)

/-- **A step keeps what is known of the file.** -/
theorem WatchInv.step (htick : ∀ dev, 0 < tick dev)
    (hwindow : ∀ dev, (tick dev : ℤ) ≤ racyWindowNanos) (hstep : Watch.Step env tick s s')
    (h : WatchInv env s) : WatchInv env s' := by
  cases hstep with
  | wait clock hclock => exact h.passes ⟨hclock, fun _ => Or.inl rfl⟩ rfl rfl
  | change key inode => exact h.passes (passes_touched htick hwindow rfl rfl) rfl rfl
  | rename key => exact h.passes (passes_touched htick hwindow rfl rfl) rfl rfl
  | redirect path => exact h.passes ⟨le_refl _, fun _ => Or.inl rfl⟩ rfl rfl
  | begin n hn | retry n hn | abandon n => exact h.moves trivial
  | readClock n hn => exact h.moves (le_refl s.clock)
  | openFile n hn hpath =>
    have hreader := h.readers n
    rw [hn] at hreader
    exact h.moves hreader
  | statBefore n hn =>
    have hreader := h.readers n
    rw [hn] at hreader
    exact h.moves ⟨hreader, rfl, rfl, Or.inr rfl⟩
  | readBytes n count hn =>
    have hreader := h.readers n
    rw [hn] at hreader
    obtain ⟨hnow, hdev, hino, hbytes⟩ := hreader
    exact h.moves ⟨hnow, hdev, hino, hbytes.imp_right (take_append_drop_take count)⟩
  | readEnd n hn hend =>
    have hreader := h.readers n
    rw [hn] at hreader
    obtain ⟨hnow, hdev, hino, hbytes⟩ := hreader
    refine h.moves ⟨hnow, hdev, hino, hbytes.imp_right fun heq => ?_⟩
    rw [List.take_of_length_le hend] at heq
    exact heq
  | stable n xattrs hn hpath hstable =>
    have hreader := h.readers n
    rw [hn] at hreader
    obtain ⟨hnow, hdev, hino, hbytes⟩ := hreader
    exact h.moves (RowCurrent.of_stable hnow hdev hino hbytes hstable xattrs)
  | @store n row hn =>
    have hreader := h.readers n
    rw [hn] at hreader
    have hmoved : WatchInv env (s.set n .idle) := h.moves trivial
    refine ⟨fun row' hrow => ?_, hmoved.readers⟩
    cases hrow
    exact hreader

/-- The invariant holds of every reachable state. -/
theorem Watch.Reachable.inv (htick : ∀ dev, 0 < tick dev)
    (hwindow : ∀ dev, (tick dev : ℤ) ≤ racyWindowNanos) (h : s.Reachable env tick) :
    WatchInv env s := by
  obtain ⟨clock, inodes, path, hrun⟩ := h
  induction hrun with
  | refl => exact ⟨nofun, fun _ => trivial⟩
  | tail _ hlast ih => exact ih.step htick hwindow hlast

/-- A step from a reachable state leads to one. -/
theorem Watch.Reachable.tail (h : s.Reachable env tick) (hstep : Watch.Step env tick s s') :
    s'.Reachable env tick := by
  obtain ⟨clock, inodes, path, hrun⟩ := h
  exact ⟨clock, inodes, path, hrun.tail hstep⟩

/-- **The stat cache hides no change.**  In every run of changes and captures, a row that
`unchangedRow` finds for the stat of a file has the content that the file has. -/
theorem unchangedRow_current (htick : ∀ dev, 0 < tick dev)
    (hwindow : ∀ dev, (tick dev : ℤ) ≤ racyWindowNanos) (h : s.Reachable env tick) {key : FileKey}
    {row : CachedFile} (hrow : unchangedRow s.cached (stat key (s.inodes key)) = some row) :
    row.blobId = blobOf env (s.inodes key).content := by
  obtain ⟨hcached, hgood⟩ := Option.filter_eq_some_iff.mp hrow
  rw [Bool.and_eq_true, Bool.not_eq_true'] at hgood
  obtain ⟨hmatches, hracy⟩ := hgood
  obtain ⟨hdev, hino, -, -, -, hsecs, hnanos, -⟩ := of_decide_eq_true hmatches
  have hkey : (row.device, row.inode) = key := Prod.ext hdev hino
  obtain ⟨now, -, hcurrent⟩ := (h.inv htick hwindow).cached row hcached
  obtain ⟨hctime, hfile⟩ := hcurrent hracy
  rw [hkey] at hfile
  rcases hfile with hrecent | hblob
  · -- the change time of the stat is that of the row, which is not recent
    have hdiv := Int.mul_ediv_add_emod (s.inodes key).ctime 1000000000
    change row.ctimeSecs = (s.inodes key).ctime / 1000000000 at hsecs
    change row.ctimeNanos = (s.inodes key).ctime % 1000000000 at hnanos
    unfold RecentSince at hrecent
    omega
  · exact hblob

/-- Identifiers that tell contents of one byte apart. -/
def sampleIdOf : Object → ObjectId
  | .chunk bytes => .fill (bytes.headD 0)
  | .blob blob => (blob.chunks.map ChunkRef.id).headD (.fill 0)
  | _ => .fill 0

/-- **A file is written while it is captured.**  The capture tries again, and the row of a capture
ten seconds later is used. -/
theorem unchangedRow_current_written : ∃ (env : CaptureEnv) (s : Watch) (row : CachedFile),
    s.Reachable env (fun _ => 1000000000) ∧ (s.inodes (1, 2)).content = [8] ∧
    unchangedRow s.cached (stat (1, 2) (s.inodes (1, 2))) = some row ∧
    row.blobId = blobOf env [8] ∧ blobOf env [8] ≠ blobOf env [7] := by
  let env : CaptureEnv := ⟨sampleIdOf, fun content => [content]⟩
  let tick : UInt64 → ℕ := fun _ => 1000000000
  let before : Inode := ⟨[7], 0, 0, 0, 33188, 1⟩
  let after : Inode := touched tick 10000000000 (1, 2) ⟨[8], 10, 0, 0, 33188, 1⟩
  let row : CachedFile := cachedFromRead (stat (1, 2) after) (blobOf env [8]) none
    (hasHeader (env.chunks [8])) (readAtNanos 20000000000)
  have hgood : unchangedRow (some row) (stat (1, 2) after) = some row := by decide
  have hinit : Watch.Reachable env tick
      ⟨10000000000, fun _ => before, some (1, 2), none, fun _ => .idle⟩ :=
    ⟨_, _, _, .refl⟩
  -- the write comes between the first stat and the read
  have hopened := ((hinit.tail (.begin 0 rfl)).tail (.readClock 0 rfl)).tail (.openFile 0 rfl rfl)
  have hwritten :=
    (hopened.tail (.statBefore 0 rfl)).tail (.change (1, 2) ⟨[8], 10, 0, 0, 33188, 1⟩)
  have hended := (hwritten.tail (.readBytes 0 1 rfl)).tail (.readEnd 0 rfl (by decide))
  have hagain := (hended.tail (.retry 0 rfl rfl (by decide))).tail (.readClock 0 rfl)
  have hreread := ((hagain.tail (.openFile 0 rfl rfl)).tail (.statBefore 0 rfl)).tail
    (.readBytes 0 1 rfl)
  have hfirst := ((hreread.tail (.readEnd 0 rfl (by decide))).tail
    (.stable 0 none rfl rfl (by decide))).tail (.store 0 rfl)
  -- and the second capture ten seconds later
  have hlater := ((hfirst.tail (.wait 20000000000 (by decide))).tail (.begin 1 rfl)).tail
    (.readClock 1 rfl)
  have hread := ((hlater.tail (.openFile 1 rfl rfl)).tail (.statBefore 1 rfl)).tail
    (.readBytes 1 1 rfl)
  have hstored := ((hread.tail (.readEnd 1 rfl (by decide))).tail
    (.stable 1 none rfl rfl (by decide))).tail (.store 1 rfl)
  exact ⟨env, _, row, hstored, rfl, hgood, unchangedRow_current (fun _ => by decide)
    (fun _ => by decide) hstored hgood, by decide⟩

end Runs

end Furrow
