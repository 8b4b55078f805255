import Furrow.ContentClass
import Furrow.Lib.Cursor
import Furrow.Lib.LittleEndian

set_option relaxedAutoImplicit false
set_option autoImplicit false

/-!
# Frames of the reference log

`refs.rs`: a reference log is a sequence of frames, each with a record that names the frame before
it by its hash.  A log that ends in the middle of a frame was cut by a crash; any other fault is
corruption.

## Main definitions

* `Furrow.RefCodec` — how records are written, and the hash.
* `Furrow.readFrameAt` — one frame.
* `Furrow.readRecords` — the frames of a file from an offset on.

## Main results

* `Furrow.readFrame_short` — a proper prefix of a frame is no frame.
* `Furrow.readRecords_eq_ok_iff` — what a scan finds.
-/

namespace Furrow

/-- Why a snapshot was taken. -/
inductive SnapshotTrigger
  | Initial
  | Manual
  | Watcher
  | PreRewind
  | ForkBase
  | AgentRun
  | MergeSource
  | PreMerge
  | Merge
  | SyncLocal
  | SyncPush
  | SyncPull
  | Inspection
  | Claim
  | Release
  | Coord
deriving DecidableEq, Repr

/-- A record of the reference log, with all its fields (`RefRecord`). -/
structure LogRecord where
  sequence : ℕ
  snapshotId : ObjectId
  sealedAt : ℤ
  label : Option Bytes
  trigger : SnapshotTrigger
  previousFrame : ObjectId
deriving DecidableEq

/-- What the reference log complains about. -/
inductive RefError
  /-- `reference log corruption at byte ..` -/
  | corruption (start : ℕ)
  /-- `reference record exceeds size limit` -/
  | recordTooLong
  /-- `reference checksum mismatch` -/
  | checksumMismatch
  /-- `decode reference record` -/
  | decodeRecord
  /-- `broken reference hash chain` -/
  | brokenChain
  /-- `broken reference sequence` -/
  | brokenSequence
  /-- `reference record is too large` -/
  | recordTooLarge
  /-- A file that would not fit the file system. -/
  | fileTooLarge
  /-- `reference index is missing` -/
  | indexMissing
  /-- A read past the end of the index. -/
  | indexShort
  /-- `invalid reference index header` -/
  | indexHeader
  /-- `reference index checksum mismatch` -/
  | indexChecksum
  /-- `invalid reference index offsets` -/
  | indexOffsets
  /-- `reference index points beyond the log` -/
  | beyondLog
  /-- `reference index does not match the authoritative log` -/
  | indexMismatch
  /-- `reference sequence is outside the indexed log` -/
  | outsideLog
deriving DecidableEq

/-- How records are written (`serde_json`), and the hash (`blake3`).  A record that was written is
read back. -/
structure RefCodec where
  hash : Bytes → ObjectId
  toVec : LogRecord → Bytes
  fromSlice : Bytes → Option LogRecord
  fromSlice_toVec : ∀ r, fromSlice (toVec r) = some r

/-- The identifier before the first frame. -/
def zeroId : ObjectId := .fill 0

/-- `MAGIC` -/
def refMagic : Bytes := text "AGRF"

/-- `MAX_RECORD` -/
def maxRecord : ℕ := 1024 * 1024

/-- The bytes before the payload of a frame. -/
def frameHeaderLen : ℕ := 4 + 4 + 32

/-- A decoded frame with its place in the file. -/
structure DecodedRecord where
  record : LogRecord
  frameHash : ObjectId
  start : ℕ
  stop : ℕ
deriving DecidableEq

section Codec

variable (c : RefCodec)

/-- `hash_frame` -/
def hashFrame (lenBytes checksum payload : Bytes) : ObjectId :=
  c.hash (refMagic ++ lenBytes ++ checksum ++ payload)

/-- The frame of a record. -/
def frameBytes (r : LogRecord) : Bytes :=
  refMagic ++ (LittleEndian.bytes 4 (c.toVec r).length ++
    ((c.hash (c.toVec r)).bytes ++ c.toVec r))

/-- The hash of the frame of a record. -/
def frameHash (r : LogRecord) : ObjectId :=
  hashFrame c (LittleEndian.bytes 4 (c.toVec r).length) (c.hash (c.toVec r)).bytes (c.toVec r)

/-- Read one frame: its record, its hash and the length of its payload. -/
def readFrame (start : ℕ) : Cursor Byte RefError (LogRecord × ObjectId × ℕ) := do
  let magic ← Cursor.readExact 4
  Cursor.ensure (magic = refMagic) (.corruption start)
  let lenBytes ← Cursor.readExact 4
  Cursor.ensure (LittleEndian.value lenBytes ≤ maxRecord) .recordTooLong
  let checksum ← Cursor.readExact 32
  let payload ← Cursor.readExact (LittleEndian.value lenBytes)
  Cursor.ensure ((c.hash payload).bytes = checksum) .checksumMismatch
  let record ← Cursor.require (c.fromSlice payload) .decodeRecord
  pure (record, hashFrame c lenBytes checksum payload, payload.length)

/-- **The frame at an offset** (`read_frame_at`): none if the file ends before it does. -/
def readFrameAt (file : Bytes) (start : ℕ) : Except RefError (Option DecodedRecord) :=
  match readFrame c start (file.drop start) with
  | .ok ((record, hash, len), _) => .ok (some ⟨record, hash, start, start + frameHeaderLen + len⟩)
  | .error .short => .ok none
  | .error (.invalid e) => .error e

/-- The loop of `read_records`. -/
def readRecordsUpTo (file : Bytes) :
    ℕ → ℕ → ObjectId → ℕ → Except RefError (List DecodedRecord × ℕ × Bool)
  | 0, offset, _, _ => .ok ([], offset, false)
  | fuel + 1, offset, expectedPrevious, expectedSequence =>
    if offset < file.length then do
      match ← readFrameAt c file offset with
      | none => pure ([], offset, true)
      | some decoded =>
        if decoded.record.previousFrame ≠ expectedPrevious then throw .brokenChain
        else if decoded.record.sequence ≠ expectedSequence then throw .brokenSequence
        else do
          let rest ← readRecordsUpTo file fuel decoded.stop decoded.frameHash (expectedSequence + 1)
          pure (decoded :: rest.1, rest.2)
    else .ok ([], offset, false)

/-- **The frames from an offset on** (`read_records`), with where they end and whether the file
goes on with a frame that was cut.  Every frame is longer than a byte, so the length of the file is
enough fuel. -/
def readRecords (file : Bytes) (start : ℕ) (expectedPrevious : ObjectId) (expectedSequence : ℕ) :
    Except RefError (List DecodedRecord × ℕ × Bool) :=
  readRecordsUpTo c file (file.length + 1) start expectedPrevious expectedSequence

/-! ## Frames -/

/-- The magic has four bytes. -/
theorem length_refMagic : refMagic.length = 4 := rfl

/-- The length of a frame. -/
theorem length_frameBytes (r : LogRecord) :
    (frameBytes c r).length = frameHeaderLen + (c.toVec r).length := by
  unfold frameBytes frameHeaderLen
  simp only [List.length_append, length_refMagic, LittleEndian.length_bytes,
    (c.hash (c.toVec r)).length_eq]
  omega

/-- Reading a frame that was written. -/
theorem readFrame_frameBytes {r : LogRecord} (h : (c.toVec r).length ≤ maxRecord) (start : ℕ)
    (t : Bytes) :
    readFrame c start (frameBytes c r ++ t) =
      .ok ((r, frameHash c r, (c.toVec r).length), t) := by
  have hvalue : LittleEndian.value (LittleEndian.bytes 4 (c.toVec r).length) =
      (c.toVec r).length := by
    rw [LittleEndian.value_bytes]
    apply Nat.mod_eq_of_lt
    unfold maxRecord at h
    omega
  unfold readFrame frameBytes
  simp only [List.append_assoc]
  rw [Cursor.bind_of_ok (Cursor.readExact_append _ _ length_refMagic),
    Cursor.bind_of_ok (Cursor.ensure_eq_ok_iff.mpr ⟨rfl, rfl⟩),
    Cursor.bind_of_ok (Cursor.readExact_append _ _ (LittleEndian.length_bytes 4 _)), hvalue,
    Cursor.bind_of_ok (Cursor.ensure_eq_ok_iff.mpr ⟨h, rfl⟩),
    Cursor.bind_of_ok (Cursor.readExact_append _ _ (c.hash (c.toVec r)).length_eq),
    Cursor.bind_of_ok (Cursor.readExact_append _ _ rfl),
    Cursor.bind_of_ok (Cursor.ensure_eq_ok_iff.mpr ⟨rfl, rfl⟩),
    Cursor.bind_of_ok (Cursor.require_eq_ok_iff.mpr ⟨c.fromSlice_toVec r, rfl⟩)]
  rfl

/-- A frame is read alike, whatever comes after it. -/
theorem stable_readFrame (start : ℕ) : Cursor.Stable (readFrame c start) := by
  unfold readFrame
  refine (Cursor.stable_readExact 4).bind fun _ => (Cursor.stable_ensure _ _).bind fun _ => ?_
  refine (Cursor.stable_readExact 4).bind fun _ => (Cursor.stable_ensure _ _).bind fun _ => ?_
  refine (Cursor.stable_readExact 32).bind fun _ => (Cursor.stable_readExact _).bind fun _ => ?_
  refine (Cursor.stable_ensure _ _).bind fun _ => (Cursor.stable_require _ _).bind fun _ => ?_
  exact Cursor.stable_pure _

/-- **A proper prefix of a frame is no frame.** -/
theorem readFrame_short {r : LogRecord} (h : (c.toVec r).length ≤ maxRecord) {p q : Bytes}
    (hpq : p ++ q = frameBytes c r) (hq : q ≠ []) (start : ℕ) :
    readFrame c start p = .error .short := by
  have hfull : readFrame c start (p ++ q) = .ok ((r, frameHash c r, (c.toVec r).length), []) := by
    rw [hpq]
    simpa using readFrame_frameBytes c h start []
  exact (stable_readFrame c start).short_of_append hfull hq

/-- A frame is read back where it is. -/
theorem readFrameAt_frameBytes {r : LogRecord} (h : (c.toVec r).length ≤ maxRecord)
    (before after : Bytes) :
    readFrameAt c (before ++ (frameBytes c r ++ after)) before.length =
      .ok (some ⟨r, frameHash c r, before.length, before.length + (frameBytes c r).length⟩) := by
  unfold readFrameAt
  rw [List.drop_left, readFrame_frameBytes c h, length_frameBytes, ← Nat.add_assoc]

/-- A frame that is cut ends the log. -/
theorem readFrameAt_short {r : LogRecord} (h : (c.toVec r).length ≤ maxRecord) {p q : Bytes}
    (hpq : p ++ q = frameBytes c r) (hq : q ≠ []) (before : Bytes) :
    readFrameAt c (before ++ p) before.length = .ok none := by
  unfold readFrameAt
  rw [List.drop_left, readFrame_short c h hpq hq]

/-- What is read is a frame of its own, whatever follows it. -/
theorem readFrame_eq_ok {start len : ℕ} {s t : Bytes} {r : LogRecord} {hash : ObjectId}
    (h : readFrame c start s = .ok ((r, hash, len), t)) :
    ∃ x, s = x ++ t ∧ x.length = frameHeaderLen + len ∧
      ∀ u, readFrame c start (x ++ u) = .ok ((r, hash, len), u) := by
  unfold readFrame at h
  obtain ⟨magic, s₁, h₁, h⟩ := Cursor.bind_eq_ok_iff.mp h
  obtain ⟨_, s₂, h₂, h⟩ := Cursor.bind_eq_ok_iff.mp h
  obtain ⟨lenBytes, s₃, h₃, h⟩ := Cursor.bind_eq_ok_iff.mp h
  obtain ⟨_, s₄, h₄, h⟩ := Cursor.bind_eq_ok_iff.mp h
  obtain ⟨checksum, s₅, h₅, h⟩ := Cursor.bind_eq_ok_iff.mp h
  obtain ⟨payload, s₆, h₆, h⟩ := Cursor.bind_eq_ok_iff.mp h
  obtain ⟨_, s₇, h₇, h⟩ := Cursor.bind_eq_ok_iff.mp h
  obtain ⟨record, s₈, h₈, h⟩ := Cursor.bind_eq_ok_iff.mp h
  obtain ⟨rfl, hl₁⟩ := Cursor.readExact_eq_ok_iff.mp h₁
  obtain ⟨hmagic, rfl⟩ := Cursor.ensure_eq_ok_iff.mp h₂
  obtain ⟨rfl, hl₃⟩ := Cursor.readExact_eq_ok_iff.mp h₃
  obtain ⟨hlimit, rfl⟩ := Cursor.ensure_eq_ok_iff.mp h₄
  obtain ⟨rfl, hl₅⟩ := Cursor.readExact_eq_ok_iff.mp h₅
  obtain ⟨rfl, hl₆⟩ := Cursor.readExact_eq_ok_iff.mp h₆
  obtain ⟨hchecksum, rfl⟩ := Cursor.ensure_eq_ok_iff.mp h₇
  obtain ⟨hrecord, rfl⟩ := Cursor.require_eq_ok_iff.mp h₈
  have hpure := Except.ok.inj h
  simp only [Prod.mk.injEq] at hpure
  obtain ⟨⟨rfl, rfl, rfl⟩, rfl⟩ := hpure
  refine ⟨magic ++ (lenBytes ++ (checksum ++ payload)), by simp only [List.append_assoc], ?_,
    fun u => ?_⟩
  · unfold frameHeaderLen
    simp only [List.length_append, hl₁, hl₃, hl₅]
    omega
  · unfold readFrame
    simp only [List.append_assoc]
    rw [Cursor.bind_of_ok (Cursor.readExact_append _ _ hl₁),
      Cursor.bind_of_ok (Cursor.ensure_eq_ok_iff.mpr ⟨hmagic, rfl⟩),
      Cursor.bind_of_ok (Cursor.readExact_append _ _ hl₃),
      Cursor.bind_of_ok (Cursor.ensure_eq_ok_iff.mpr ⟨hlimit, rfl⟩),
      Cursor.bind_of_ok (Cursor.readExact_append _ _ hl₅),
      Cursor.bind_of_ok (Cursor.readExact_append _ _ hl₆),
      Cursor.bind_of_ok (Cursor.ensure_eq_ok_iff.mpr ⟨hchecksum, rfl⟩),
      Cursor.bind_of_ok (Cursor.require_eq_ok_iff.mpr ⟨hrecord, rfl⟩)]
    rfl

/-- **A frame that is found**: where it is, and that what follows it does not matter. -/
theorem readFrameAt_eq_some {file : Bytes} {start : ℕ} {d : DecodedRecord}
    (h : readFrameAt c file start = .ok (some d)) :
    d.start = start ∧ start + frameHeaderLen ≤ d.stop ∧ d.stop ≤ file.length ∧
      ∀ len, d.stop ≤ len → readFrameAt c (file.take len) start = .ok (some d) := by
  unfold readFrameAt at h
  split at h
  · rename_i record hash len t hread
    cases h
    obtain ⟨x, hx, hlen, hagain⟩ := readFrame_eq_ok c hread
    have htotal := congrArg List.length hx
    rw [List.length_append, List.length_drop, hlen] at htotal
    have hpos : 0 < frameHeaderLen := by decide
    refine ⟨rfl, ?_, ?_, fun n hn => ?_⟩
    · show start + frameHeaderLen ≤ start + frameHeaderLen + len
      omega
    · show start + frameHeaderLen + len ≤ file.length
      omega
    · have hn' : start + frameHeaderLen + len ≤ n := hn
      have hdrop : (file.take n).drop start = x ++ t.take (n - start - x.length) := by
        rw [List.drop_take, hx, List.take_append, List.take_of_length_le (by omega)]
      unfold readFrameAt
      rw [hdrop, hagain]
  · exact absurd h (by simp)
  · exact absurd h (by simp)

/-- A frame is not empty. -/
theorem stop_of_readFrameAt {file : Bytes} {start : ℕ} {d : DecodedRecord}
    (h : readFrameAt c file start = .ok (some d)) : start < d.stop := by
  obtain ⟨-, hstop, -, -⟩ := readFrameAt_eq_some c h
  unfold frameHeaderLen at hstop
  omega

/-! ## Scans -/

/-- What a scan finds. -/
inductive Scan (file : Bytes) : ℕ → ObjectId → ℕ → List DecodedRecord → ℕ → Bool → Prop
  | done {offset : ℕ} {previous : ObjectId} {sequence : ℕ} (h : file.length ≤ offset) :
    Scan file offset previous sequence [] offset false
  | torn {offset : ℕ} {previous : ObjectId} {sequence : ℕ} (hlt : offset < file.length)
    (h : readFrameAt c file offset = .ok none) : Scan file offset previous sequence [] offset true
  | frame {offset : ℕ} {previous : ObjectId} {sequence : ℕ} {d : DecodedRecord}
    {ds : List DecodedRecord} {len : ℕ} {torn : Bool} (hlt : offset < file.length)
    (h : readFrameAt c file offset = .ok (some d)) (hprevious : d.record.previousFrame = previous)
    (hsequence : d.record.sequence = sequence)
    (hrest : Scan file d.stop d.frameHash (sequence + 1) ds len torn) :
    Scan file offset previous sequence (d :: ds) len torn

/-- The loop reads what the scan says. -/
theorem readRecordsUpTo_of_scan {file : Bytes} {offset sequence len : ℕ} {previous : ObjectId}
    {ds : List DecodedRecord} {torn : Bool} (h : Scan c file offset previous sequence ds len torn)
    {fuel : ℕ} (hfuel : file.length < offset + fuel) :
    readRecordsUpTo c file fuel offset previous sequence = .ok (ds, len, torn) := by
  induction h generalizing fuel with
  | done h =>
    cases fuel with
    | zero => rfl
    | succ fuel =>
      unfold readRecordsUpTo
      rw [if_neg (by omega)]
  | torn hlt h =>
    cases fuel with
    | zero => omega
    | succ fuel =>
      unfold readRecordsUpTo
      rw [if_pos hlt, h]
      rfl
  | frame hlt h hprevious hsequence hrest ih =>
    cases fuel with
    | zero => omega
    | succ fuel =>
      have hstop := stop_of_readFrameAt c h
      have hnext := @ih fuel (by omega)
      unfold readRecordsUpTo
      rw [if_pos hlt, h]
      simp only [Except.bind, bind, hprevious, hsequence, ne_eq, not_true_eq_false, if_false, hnext]
      rfl

/-- What the loop reads is a scan. -/
theorem scan_of_readRecordsUpTo {file : Bytes} {fuel offset sequence len : ℕ}
    {previous : ObjectId} {ds : List DecodedRecord} {torn : Bool}
    (hfuel : file.length < offset + fuel)
    (h : readRecordsUpTo c file fuel offset previous sequence = .ok (ds, len, torn)) :
    Scan c file offset previous sequence ds len torn := by
  induction fuel generalizing offset previous sequence ds len torn with
  | zero =>
    cases h
    exact .done (by omega)
  | succ fuel ih =>
    unfold readRecordsUpTo at h
    split_ifs at h with hlt
    · cases hread : readFrameAt c file offset with
      | error e =>
        rw [hread] at h
        exact absurd h (by simp [bind, Except.bind])
      | ok found =>
        rw [hread] at h
        cases found with
        | none =>
          cases h
          exact .torn hlt hread
        | some d =>
          simp only [bind, Except.bind] at h
          split_ifs at h with hprevious hsequence
          have hstop := stop_of_readFrameAt c hread
          cases hrest : readRecordsUpTo c file fuel d.stop d.frameHash (sequence + 1) with
          | error e =>
            rw [hrest] at h
            exact absurd h (by simp)
          | ok rest =>
            rw [hrest] at h
            obtain ⟨rs, rlen, rtorn⟩ := rest
            cases h
            refine .frame hlt hread (not_not.mp hprevious) (not_not.mp hsequence) (ih ?_ hrest)
            omega
    · cases h
      exact .done (by omega)

/-- **What `read_records` returns is what a scan finds.** -/
theorem readRecords_eq_ok_iff {file : Bytes} {offset sequence len : ℕ} {previous : ObjectId}
    {ds : List DecodedRecord} {torn : Bool} :
    readRecords c file offset previous sequence = .ok (ds, len, torn) ↔
      Scan c file offset previous sequence ds len torn :=
  ⟨scan_of_readRecordsUpTo c (by omega), fun h => readRecordsUpTo_of_scan c h (by omega)⟩

section Scans

variable {c} {file : Bytes} {offset sequence len : ℕ} {previous : ObjectId}
  {ds : List DecodedRecord} {torn : Bool}

/-- A log has one scan. -/
theorem Scan.unique (h : Scan c file offset previous sequence ds len torn)
    {ds' : List DecodedRecord} {len' : ℕ} {torn' : Bool}
    (h' : Scan c file offset previous sequence ds' len' torn') :
    ds = ds' ∧ len = len' ∧ torn = torn' := by
  have hread := (readRecords_eq_ok_iff c).mpr h
  rw [(readRecords_eq_ok_iff c).mpr h'] at hread
  cases hread
  exact ⟨rfl, rfl, rfl⟩

/-- Where a scan ends. -/
theorem Scan.bounds (h : Scan c file offset previous sequence ds len torn)
    (hoffset : offset ≤ file.length) :
    offset ≤ len ∧ len ≤ file.length ∧ (torn = false → len = file.length) ∧
      ∀ d ∈ ds, offset ≤ d.start ∧ d.start < d.stop ∧ d.stop ≤ len := by
  induction h with
  | done h => exact ⟨le_rfl, hoffset, fun _ => by omega, by simp⟩
  | torn hlt h => exact ⟨le_rfl, hoffset, by simp, by simp⟩
  | frame hlt h hprevious hsequence hrest ih =>
    obtain ⟨hstart, hheader, hfile, -⟩ := readFrameAt_eq_some c h
    have hstop := stop_of_readFrameAt c h
    obtain ⟨hlo, hhi, hwhole, hmem⟩ := ih hfile
    refine ⟨by omega, hhi, hwhole, fun d hd => ?_⟩
    rcases List.mem_cons.mp hd with rfl | hd
    · omega
    · obtain ⟨h₁, h₂, h₃⟩ := hmem d hd
      omega

/-- From a frame on, a scan goes on with those after it. -/
theorem Scan.after {d : DecodedRecord} {before after : List DecodedRecord}
    (h : Scan c file offset previous sequence (before ++ d :: after) len torn) :
    readFrameAt c file d.start = .ok (some d) ∧ d.record.sequence = sequence + before.length ∧
      Scan c file d.stop d.frameHash (d.record.sequence + 1) after len torn := by
  induction before generalizing offset previous sequence with
  | nil =>
    cases h with
    | frame hlt h hprevious hsequence hrest =>
      obtain ⟨hstart, -⟩ := readFrameAt_eq_some c h
      subst hsequence
      exact ⟨by rw [hstart]; exact h, rfl, hrest⟩
  | cons b rest ih =>
    cases h with
    | frame hlt h hprevious hsequence hrest =>
      obtain ⟨hread, hseq, hscan⟩ := ih hrest
      refine ⟨hread, ?_, hscan⟩
      rw [hseq, List.length_cons]
      omega

/-- The frames of a scan are read where they are. -/
theorem Scan.readFrameAt_of_mem {d : DecodedRecord}
    (h : Scan c file offset previous sequence ds len torn) (hd : d ∈ ds) :
    readFrameAt c file d.start = .ok (some d) := by
  obtain ⟨before, after, rfl⟩ := List.append_of_mem hd
  exact h.after.1

/-- The frames are found in the file without what follows them. -/
theorem Scan.take (h : Scan c file offset previous sequence ds len torn)
    (hoffset : offset ≤ file.length) :
    Scan c (file.take len) offset previous sequence ds len false := by
  induction h with
  | done h =>
    refine .done ?_
    rw [List.length_take]
    omega
  | torn hlt h =>
    refine .done ?_
    rw [List.length_take]
    omega
  | frame hlt h hprevious hsequence hrest ih =>
    obtain ⟨-, -, hfile, hagain⟩ := readFrameAt_eq_some c h
    obtain ⟨hlo, hhi, -, -⟩ := hrest.bounds hfile
    have hstop := stop_of_readFrameAt c h
    refine .frame ?_ (hagain _ hlo) hprevious hsequence (ih hfile)
    rw [List.length_take]
    omega

/-- The hashes of a scan are a chain. -/
theorem Scan.head_previous {d : DecodedRecord}
    (h : Scan c file offset previous sequence (d :: ds) len torn) :
    d.record.previousFrame = previous ∧ d.record.sequence = sequence := by
  cases h with
  | frame hlt h hprevious hsequence hrest => exact ⟨hprevious, hsequence⟩

end Scans

end Codec

end Furrow
