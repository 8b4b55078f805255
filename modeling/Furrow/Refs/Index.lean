import Furrow.Refs.Frame

set_option relaxedAutoImplicit false
set_option autoImplicit false

/-!
# The index of the reference log

Next to the log of `refs.rs` lies an index with a record of fixed length for every frame.  It is
never synced: every operation compares its last record with the log, and builds it anew from a
scan of the log when they disagree.

## Main definitions

* `Furrow.RefFiles` — the two files.
* `Furrow.RefLog.ensureIndex`, `Furrow.RefLog.rebuildIndex` — bringing the index up to the log.
* `Furrow.RefLog.records`, `Furrow.RefLog.recent`, `Furrow.RefLog.recordsAtSequences` — the
  readers.
* `Furrow.RefLog.appendOrdered` — an append, which a crash may cut at any byte.

## Main results

* `Furrow.RefLog.rebuildIndex_of_scan` — what a rebuild leaves.
-/

namespace Furrow

/-- What the file system says of a file. -/
structure LogStat where
  device : UInt64
  inode : UInt64
  mtimeSecs : UInt64
  mtimeNanos : UInt64
  ctimeSecs : UInt64
  ctimeNanos : UInt64
deriving DecidableEq

/-- A record of the index. -/
structure IndexRecord where
  start : ℕ
  stop : ℕ
  frameHash : ObjectId
  stat : LogStat
deriving DecidableEq

/-- The record of a frame. -/
def IndexRecord.new (stat : LogStat) (d : DecodedRecord) : IndexRecord :=
  ⟨d.start, d.stop, d.frameHash, stat⟩

/-- `INDEX_MAGIC`, with the version. -/
def indexMagic : Bytes := text "AGRI" ++ [1, 0, 0, 0]

/-- The bytes of the fields of an index record. -/
def indexFieldsLen : ℕ := 8 * 8 + 32

/-- `INDEX_RECORD_LEN` -/
def indexRecordLen : ℕ := indexFieldsLen + 32

/-- The largest file there can be, and a byte more. -/
def fileLimit : ℕ := 2 ^ 63

/-- The fields of an index record. -/
def encodeIndexFields (r : IndexRecord) : Bytes :=
  LittleEndian.bytes 8 r.start ++ (LittleEndian.bytes 8 r.stop ++ (r.frameHash.bytes ++
    (LittleEndian.bytes 8 r.stat.device.toNat ++ (LittleEndian.bytes 8 r.stat.inode.toNat ++
      (LittleEndian.bytes 8 r.stat.mtimeSecs.toNat ++
        (LittleEndian.bytes 8 r.stat.mtimeNanos.toNat ++
          (LittleEndian.bytes 8 r.stat.ctimeSecs.toNat ++
            LittleEndian.bytes 8 r.stat.ctimeNanos.toNat)))))))

/-- Read a number of eight bytes. -/
def readU64 : Cursor Byte RefError ℕ := do
  let bytes ← Cursor.readExact 8
  pure (LittleEndian.value bytes)

/-- Read an identifier. -/
def readId : Cursor Byte RefError ObjectId := do
  let bytes ← Cursor.readExact 32
  Cursor.require (if h : bytes.length = 32 then some ⟨bytes, h⟩ else none) .indexShort

/-- `decode_index_fields`; the offsets are signed. -/
def decodeIndexFields : Cursor Byte RefError IndexRecord := do
  let start ← readU64
  let stop ← readU64
  let frameHash ← readId
  let device ← readU64
  let inode ← readU64
  let mtimeSecs ← readU64
  let mtimeNanos ← readU64
  let ctimeSecs ← readU64
  let ctimeNanos ← readU64
  Cursor.ensure (start < fileLimit ∧ start ≤ stop ∧ stop < fileLimit) .indexOffsets
  pure ⟨start, stop, frameHash, ⟨.ofNat device, .ofNat inode, .ofNat mtimeSecs, .ofNat mtimeNanos,
    .ofNat ctimeSecs, .ofNat ctimeNanos⟩⟩

/-- The two files of a reference log. -/
structure RefFiles where
  log : Option Bytes
  index : Option Bytes
  stat : LogStat

/-- The bytes of the log. -/
def RefFiles.bytes (s : RefFiles) : Bytes := s.log.getD []

section Codec

variable (c : RefCodec)

/-- `write_index_record` -/
def encodeIndexRecord (r : IndexRecord) : Bytes :=
  encodeIndexFields r ++ (c.hash (encodeIndexFields r)).bytes

/-- `read_index_record` -/
def readIndexRecord (slot : Bytes) : Except RefError IndexRecord :=
  if slot.length < indexRecordLen then .error .indexShort
  else if (c.hash (slot.take indexFieldsLen)).bytes ≠ (slot.drop indexFieldsLen).take 32 then
    .error .indexChecksum
  else
    match decodeIndexFields (slot.take indexFieldsLen) with
    | .ok (r, _) => .ok r
    | .error .short => .error .indexShort
    | .error (.invalid e) => .error e

/-- The number of complete records of an index. -/
def indexCount (index : Bytes) : ℕ := (index.length - indexMagic.length) / indexRecordLen

/-- The bytes of a record of an index. -/
def indexSlot (index : Bytes) (i : ℕ) : Bytes :=
  (index.drop (indexMagic.length + i * indexRecordLen)).take indexRecordLen

/-- The complete records of an index, in order; one may be damaged. -/
def indexEntries (index : Bytes) : List (Except RefError IndexRecord) :=
  (List.range (indexCount index)).map fun i => readIndexRecord c (indexSlot index i)

namespace RefLog

/-- **The last record of the index** (`prepare_index`), with the index without what follows its
complete records. -/
def prepareIndex (index : Option Bytes) : Except RefError (Option IndexRecord) × Option Bytes :=
  match index with
  | none => (.error .indexMissing, none)
  | some b =>
    if b.length < indexMagic.length then (.error .indexShort, some b)
    else if b.take indexMagic.length ≠ indexMagic then (.error .indexHeader, some b)
    else
      let b' := b.take (indexMagic.length + indexCount b * indexRecordLen)
      match (indexEntries c b).getLast? with
      | none => (.ok none, some b')
      | some (.ok r) => (.ok (some r), some b')
      | some (.error e) => (.error e, some b')

/-- The last records of the index (`read_index_tail`). -/
def readIndexTail (index : Option Bytes) (limit : ℕ) : Except RefError (List IndexRecord) :=
  match index with
  | none => .error .indexMissing
  | some b => ((indexEntries c b).drop (indexCount b - min (indexCount b) limit)).mapM id

/-- An index of some frames (`rewrite_index`). -/
def rewriteIndex (stat : LogStat) (ds : List DecodedRecord) : Bytes :=
  indexMagic ++ ds.flatMap fun d => encodeIndexRecord c (.new stat d)

/-- Add a record to the index (`append_index`). -/
def appendIndex (index : Option Bytes) (r : IndexRecord) : Bytes :=
  let b := index.getD []
  (if b.length = 0 then indexMagic else b) ++ encodeIndexRecord c r

/-- The log without a frame that was cut. -/
def truncate (s : RefFiles) (len : ℕ) (torn : Bool) (truncated : LogStat) : RefFiles :=
  if torn then { s with log := some (s.bytes.take len), stat := truncated } else s

/-- `rebuild_index`.  `truncated` is what the file system says of the log after it was cut. -/
def rebuildIndex (truncated : LogStat) (s : RefFiles) : Except RefError Unit × RefFiles :=
  match readRecords c s.bytes 0 zeroId 1 with
  | .error e => (.error e, s)
  | .ok (ds, len, torn) =>
    let s := truncate s len torn truncated
    (.ok (), { s with index := some (rewriteIndex c s.stat ds) })

/-- Take up the frames after the last one of the index. -/
def replaySuffix (truncated : LogStat) (last : IndexRecord) (frame : DecodedRecord)
    (s : RefFiles) : Except RefError Unit × RefFiles :=
  match readRecords c s.bytes last.stop last.frameHash (frame.record.sequence + 1) with
  | .error e => (.error e, s)
  | .ok (suffix, len, torn) =>
    let s := truncate s len torn truncated
    let b := s.index.getD []
    if suffix = [] then
      (.ok (), { s with index := some (b.take (b.length - indexRecordLen) ++
        encodeIndexRecord c ⟨last.start, last.stop, last.frameHash, s.stat⟩) })
    else
      (.ok (), { s with index := some (b ++ suffix.flatMap fun d =>
        encodeIndexRecord c (.new s.stat d)) })

/-- Compare the last record of the index with the log. -/
def ensureWith (truncated : LogStat) (s : RefFiles) :
    Except RefError (Option IndexRecord) → Except RefError Unit × RefFiles
  | .error _ => rebuildIndex c truncated s
  | .ok none =>
    if s.bytes.length = 0 then (.ok (), { s with index := some (rewriteIndex c s.stat []) })
    else rebuildIndex c truncated s
  | .ok (some last) =>
    if s.bytes.length < last.stop ∨ last.stat.device ≠ s.stat.device ∨
        last.stat.inode ≠ s.stat.inode then rebuildIndex c truncated s
    else
      match readFrameAt c s.bytes last.start with
      | .error e => (.error e, s)
      | .ok none => rebuildIndex c truncated s
      | .ok (some frame) =>
        if frame.stop ≠ last.stop ∨ frame.frameHash ≠ last.frameHash then
          rebuildIndex c truncated s
        else if s.bytes.length = last.stop then
          if last.stat ≠ s.stat then rebuildIndex c truncated s else (.ok (), s)
        else replaySuffix c truncated last frame s

/-- **Bring the index up to the log** (`ensure_index`). -/
def ensureIndex (truncated : LogStat) (s : RefFiles) : Except RefError Unit × RefFiles :=
  ensureWith c truncated { s with index := (prepareIndex c s.index).2 } (prepareIndex c s.index).1

/-- Open the log, which creates it. -/
def openLog (s : RefFiles) : RefFiles := { s with log := some s.bytes }

/-! ## Readers -/

/-- **All records, from a scan of the log** (`records`). -/
def records (truncated : LogStat) (s : RefFiles) : Except RefError (List LogRecord) × RefFiles :=
  let s := openLog s
  match readRecords c s.bytes 0 zeroId 1 with
  | .error e => (.error e, s)
  | .ok (ds, len, torn) =>
    let s := truncate s len torn truncated
    (.ok (ds.map DecodedRecord.record), { s with index := some (rewriteIndex c s.stat ds) })

/-- The frame that a record of the index names. -/
def indexedFrame (log : Bytes) (entry : IndexRecord) : Except RefError DecodedRecord := do
  match ← readFrameAt c log entry.start with
  | none => throw .beyondLog
  | some frame =>
    if frame.stop = entry.stop ∧ frame.frameHash = entry.frameHash then pure frame
    else throw .indexMismatch

/-- Whether every frame names the one before it. -/
def chained (expected : ObjectId) : List DecodedRecord → Bool
  | [] => true
  | d :: ds => d.record.previousFrame = expected && chained d.frameHash ds

/-- `read_recent_indexed` -/
def readRecentIndexed (s : RefFiles) (limit : ℕ) : Except RefError (List LogRecord) := do
  let entries ← readIndexTail c s.index (limit + 1)
  let skip := if limit < entries.length then 1 else 0
  let decoded ← (entries.drop skip).mapM (indexedFrame c s.bytes)
  let expected := if skip = 1 then (entries.head?.map IndexRecord.frameHash).getD zeroId else zeroId
  if chained expected decoded then pure (decoded.reverse.map DecodedRecord.record)
  else throw .brokenChain

/-- **The newest records, newest first** (`recent`). -/
def recent (truncated : LogStat) (limit : ℕ) (s : RefFiles) :
    Except RefError (List LogRecord) × RefFiles :=
  if limit = 0 ∨ s.log = none then (.ok [], s)
  else
    match ensureIndex c truncated s with
    | (.error e, s) => (.error e, s)
    | (.ok (), s) =>
      match readRecentIndexed c s limit with
      | .ok found => (.ok found, s)
      | .error _ =>
        match rebuildIndex c truncated s with
        | (.error e, s) => (.error e, s)
        | (.ok (), s) => (readRecentIndexed c s limit, s)

/-- `head` -/
def head (truncated : LogStat) (s : RefFiles) : Except RefError (Option LogRecord) × RefFiles :=
  let (found, s) := recent c truncated 1 s
  (found.map List.getLast?, s)

/-- The record of a sequence, as the index has it. -/
def recordAtSequence (index log : Bytes) (sequence : ℕ) : Except RefError LogRecord :=
  if 0 < sequence ∧ sequence ≤ indexCount index then do
    let indexed ← readIndexRecord c (indexSlot index (sequence - 1))
    match ← readFrameAt c log indexed.start with
    | none => throw .beyondLog
    | some frame =>
      if frame.record.sequence = sequence ∧ frame.stop = indexed.stop ∧
          frame.frameHash = indexed.frameHash then pure frame.record
      else throw .indexMismatch
  else throw .outsideLog

/-- **The records of some sequences** (`records_at_sequences`). -/
def recordsAtSequences (truncated : LogStat) (sequences : List ℕ) (s : RefFiles) :
    Except RefError (List LogRecord) × RefFiles :=
  if sequences = [] ∨ s.log = none then (.ok [], s)
  else
    match ensureIndex c truncated s with
    | (.error e, s) => (.error e, s)
    | (.ok (), s) => (sequences.mapM (recordAtSequence c (s.index.getD []) s.bytes), s)

/-! ## Appends -/

/-- What is appended. -/
structure Append where
  snapshotId : ObjectId
  sealedAt : ℤ
  label : Option Bytes
  trigger : SnapshotTrigger
deriving DecidableEq

/-- The record of an append after the last frame. -/
def Append.record (a : Append) (last : Option DecodedRecord) : LogRecord where
  sequence := last.elim 1 fun frame => frame.record.sequence + 1
  snapshotId := a.snapshotId
  sealedAt := a.sealedAt
  label := a.label
  trigger := a.trigger
  previousFrame := last.elim zeroId DecodedRecord.frameHash

/-- The last frame, as the index has it. -/
def lastFrame (s : RefFiles) : Except RefError (Option DecodedRecord) := do
  match (← readIndexTail c s.index 1).getLast? with
  | none => pure none
  | some entry => readFrameAt c s.bytes entry.start

/-- Write a frame and its record of the index.  If the writes are cut, `cut` bytes of them are in
the files. -/
def writeFrame (written : LogStat) (cut : Option ℕ) (record : LogRecord) (s : RefFiles) :
    RefFiles :=
  let frame := frameBytes c record
  let start := s.bytes.length
  let entry : IndexRecord := ⟨start, start + frame.length, frameHash c record, written⟩
  let index := s.index.getD []
  let indexed := (appendIndex c s.index entry).drop index.length
  match cut with
  | none => ⟨some (s.bytes ++ frame), some (index ++ indexed), written⟩
  | some k =>
    ⟨some (s.bytes ++ frame.take k),
      if k ≤ frame.length then s.index else some (index ++ indexed.take (k - frame.length)),
      written⟩

/-- **Append a record** (`append_ordered`), unless its snapshot is the last one already.  If a
crash cuts the writes, no record is returned. -/
def appendOrdered (truncated written : LogStat) (cut : Option ℕ) (a : Append) (s : RefFiles) :
    Except RefError (Option LogRecord) × RefFiles :=
  match ensureIndex c truncated (openLog s) with
  | (.error e, s) => (.error e, s)
  | (.ok (), s) =>
    match lastFrame c s with
    | .error e => (.error e, s)
    | .ok last =>
      if last.map (fun frame => frame.record.snapshotId) = some a.snapshotId then
        (.ok (last.map DecodedRecord.record), s)
      else
        let record := a.record last
        if maxRecord < (c.toVec record).length then (.error .recordTooLarge, s)
        else if fileLimit ≤ s.bytes.length + (frameBytes c record).length then
          (.error .fileTooLarge, s)
        else (.ok (if cut = none then some record else none), writeFrame c written cut record s)

end RefLog

/-! ## Records of the index -/

/-- The fields have their length. -/
theorem length_encodeIndexFields (r : IndexRecord) :
    (encodeIndexFields r).length = indexFieldsLen := by
  unfold encodeIndexFields indexFieldsLen
  simp [r.frameHash.length_eq]

/-- An index record has its length. -/
theorem length_encodeIndexRecord (r : IndexRecord) :
    (encodeIndexRecord c r).length = indexRecordLen := by
  unfold encodeIndexRecord indexRecordLen
  rw [List.length_append, length_encodeIndexFields, (c.hash _).length_eq]

/-- A number is read back. -/
theorem readU64_append {n : ℕ} (h : n < 2 ^ 64) (t : Bytes) :
    readU64 (LittleEndian.bytes 8 n ++ t) = .ok (n, t) := by
  have hvalue : LittleEndian.value (LittleEndian.bytes 8 n) = n := by
    rw [LittleEndian.value_bytes]
    apply Nat.mod_eq_of_lt
    omega
  unfold readU64
  rw [Cursor.bind_of_ok (Cursor.readExact_append _ _ (LittleEndian.length_bytes 8 n)), hvalue]
  rfl

/-- An identifier is read back. -/
theorem readId_append (id : ObjectId) (t : Bytes) : readId (id.bytes ++ t) = .ok (id, t) := by
  unfold readId
  rw [Cursor.bind_of_ok (Cursor.readExact_append _ _ id.length_eq)]
  exact Cursor.require_eq_ok_iff.mpr ⟨by simp [id.length_eq], rfl⟩

/-- A record whose offsets are in a file. -/
def IndexRecord.Fits (r : IndexRecord) : Prop := r.start ≤ r.stop ∧ r.stop < fileLimit

/-- Reading a record that was written. -/
theorem readIndexRecord_encode {r : IndexRecord} (h : r.Fits) :
    readIndexRecord c (encodeIndexRecord c r) = .ok r := by
  obtain ⟨hle, hlt⟩ := h
  unfold fileLimit at hlt
  have htake : (encodeIndexRecord c r).take indexFieldsLen = encodeIndexFields r := by
    unfold encodeIndexRecord
    rw [← length_encodeIndexFields r, List.take_left]
  have hdrop : ((encodeIndexRecord c r).drop indexFieldsLen).take 32 =
      (c.hash (encodeIndexFields r)).bytes := by
    unfold encodeIndexRecord
    rw [← length_encodeIndexFields r, List.drop_left,
      List.take_of_length_le (by rw [(c.hash _).length_eq])]
  have hfields : decodeIndexFields (encodeIndexFields r) = .ok (r, []) := by
    have hlast := readU64_append r.stat.ctimeNanos.toNat_lt []
    rw [List.append_nil] at hlast
    unfold decodeIndexFields encodeIndexFields
    rw [Cursor.bind_of_ok (readU64_append (by omega) _),
      Cursor.bind_of_ok (readU64_append (by omega) _), Cursor.bind_of_ok (readId_append _ _),
      Cursor.bind_of_ok (readU64_append (UInt64.toNat_lt _) _),
      Cursor.bind_of_ok (readU64_append (UInt64.toNat_lt _) _),
      Cursor.bind_of_ok (readU64_append (UInt64.toNat_lt _) _),
      Cursor.bind_of_ok (readU64_append (UInt64.toNat_lt _) _),
      Cursor.bind_of_ok (readU64_append (UInt64.toNat_lt _) _),
      Cursor.bind_of_ok hlast,
      Cursor.bind_of_ok (Cursor.ensure_eq_ok_iff.mpr
        ⟨⟨by unfold fileLimit; omega, hle, by unfold fileLimit; omega⟩, rfl⟩)]
    simp only [UInt64.ofNat_toNat]
    rfl
  unfold readIndexRecord
  rw [if_neg (by rw [length_encodeIndexRecord]; omega), htake, hdrop, if_neg (by simp), hfields]

/-! ## Entries of the index -/

section Entries

variable {b x t : Bytes} {n : ℕ}

/-- The number of records by the length. -/
theorem indexCount_of_length (hb : b.length = indexMagic.length + n * indexRecordLen) :
    indexCount b = n := by
  unfold indexCount
  rw [hb, Nat.add_sub_cancel_left]
  exact Nat.mul_div_cancel n (by decide)

/-- The records before some bytes are read as before. -/
theorem indexSlot_append (hb : b.length = indexMagic.length + n * indexRecordLen) {i : ℕ}
    (hi : i < n) : indexSlot (b ++ x) i = indexSlot b i := by
  have hroom : indexMagic.length + i * indexRecordLen + indexRecordLen ≤ b.length := by
    have := Nat.mul_le_mul_right indexRecordLen (Nat.succ_le_of_lt hi)
    rw [Nat.succ_mul] at this
    omega
  unfold indexSlot
  rw [List.drop_append_of_le_length (by omega), List.take_append_of_le_length]
  rw [List.length_drop]
  omega

/-- Another record of the index. -/
theorem indexEntries_append_slot (hb : b.length = indexMagic.length + n * indexRecordLen)
    (hx : x.length = indexRecordLen) :
    indexEntries c (b ++ x) = indexEntries c b ++ [readIndexRecord c x] := by
  have hcount : indexCount (b ++ x) = n + 1 := by
    apply indexCount_of_length
    rw [List.length_append, hb, hx, Nat.succ_mul]
    omega
  have hslot : indexSlot (b ++ x) n = x := by
    unfold indexSlot
    rw [← hb, List.drop_left, List.take_of_length_le hx.le]
  unfold indexEntries
  rw [hcount, indexCount_of_length hb, List.range_succ, List.map_append, List.map_singleton, hslot]
  congr 1
  apply List.map_congr_left
  intro i hi
  rw [indexSlot_append hb (List.mem_range.mp hi)]

/-- A record that is not complete does not count. -/
theorem indexEntries_append_tail (hb : b.length = indexMagic.length + n * indexRecordLen)
    (ht : t.length < indexRecordLen) : indexEntries c (b ++ t) = indexEntries c b := by
  have hcount : indexCount (b ++ t) = n := by
    unfold indexCount
    rw [List.length_append, hb, Nat.add_assoc, Nat.add_sub_cancel_left, Nat.mul_comm,
      Nat.mul_add_div (by decide), Nat.div_eq_of_lt ht, Nat.add_zero]
  unfold indexEntries
  rw [hcount, indexCount_of_length hb]
  apply List.map_congr_left
  intro i hi
  rw [indexSlot_append hb (List.mem_range.mp hi)]

/-- More records of the index. -/
theorem indexEntries_append_records {rs : List IndexRecord} (hrs : ∀ r ∈ rs, r.Fits)
    (hb : b.length = indexMagic.length + n * indexRecordLen) :
    indexEntries c (b ++ rs.flatMap (encodeIndexRecord c)) = indexEntries c b ++ rs.map .ok ∧
      (b ++ rs.flatMap (encodeIndexRecord c)).length =
        indexMagic.length + (n + rs.length) * indexRecordLen := by
  induction rs generalizing b n with
  | nil =>
    simp only [List.flatMap_nil, List.append_nil, List.map_nil, List.length_nil, Nat.add_zero]
    exact ⟨trivial, hb⟩
  | cons r rest ih =>
    have hlen := length_encodeIndexRecord c r
    have hb' : (b ++ encodeIndexRecord c r).length =
        indexMagic.length + (n + 1) * indexRecordLen := by
      rw [List.length_append, hb, hlen, Nat.succ_mul]
      omega
    obtain ⟨hentries, hlength⟩ := ih (fun q hq => hrs q (List.mem_cons_of_mem _ hq)) hb'
    rw [indexEntries_append_slot c hb hlen,
      readIndexRecord_encode c (hrs r List.mem_cons_self)] at hentries
    rw [List.flatMap_cons, ← List.append_assoc]
    refine ⟨?_, ?_⟩
    · rw [hentries, List.map_cons, List.append_assoc]
      rfl
    · rw [hlength, List.length_cons]
      congr 2
      omega

/-- There is an entry for each record. -/
theorem length_indexEntries (b : Bytes) : (indexEntries c b).length = indexCount b := by
  unfold indexEntries
  rw [List.length_map, List.length_range]

/-- An index is its complete records and some bytes that are no record. -/
theorem exists_complete (h : indexMagic.length ≤ b.length) :
    ∃ tail, b = b.take (indexMagic.length + indexCount b * indexRecordLen) ++ tail ∧
      tail.length < indexRecordLen ∧
      (b.take (indexMagic.length + indexCount b * indexRecordLen)).length =
        indexMagic.length + indexCount b * indexRecordLen := by
  have hdiv := Nat.div_add_mod (b.length - indexMagic.length) indexRecordLen
  have hmod := Nat.mod_lt (b.length - indexMagic.length) (show 0 < indexRecordLen by decide)
  have hcount : indexCount b * indexRecordLen =
      indexRecordLen * ((b.length - indexMagic.length) / indexRecordLen) := Nat.mul_comm ..
  refine ⟨b.drop (indexMagic.length + indexCount b * indexRecordLen),
    (List.take_append_drop _ b).symm, ?_, ?_⟩
  · rw [List.length_drop]
    omega
  · rw [List.length_take]
    omega

/-- Cutting an index after its complete records. -/
theorem indexEntries_take (h : indexMagic.length ≤ b.length) :
    indexEntries c (b.take (indexMagic.length + indexCount b * indexRecordLen)) =
      indexEntries c b := by
  obtain ⟨tail, hb, htail, hlen⟩ := exists_complete h
  conv_rhs => rw [hb]
  exact (indexEntries_append_tail c hlen htail).symm

end Entries

/-! ## What an operation finds -/

/-- A record of the index names a frame. -/
def IndexRecord.Names (r : IndexRecord) (d : DecodedRecord) : Prop :=
  r.start = d.start ∧ r.stop = d.stop ∧ r.frameHash = d.frameHash

/-- **An index of exactly some frames.** -/
structure IndexOf (ds : List DecodedRecord) (b : Bytes) : Prop where
  length : b.length = indexMagic.length + ds.length * indexRecordLen
  header : b.take indexMagic.length = indexMagic
  entries : ∃ rs, indexEntries c b = rs.map .ok ∧ List.Forall₂ IndexRecord.Names rs ds

/-- The frames of a scan have a place in the index. -/
theorem Scan.fits {c : RefCodec} {file : Bytes} {ds : List DecodedRecord} {offset sequence len : ℕ}
    {previous : ObjectId} {torn : Bool} (h : Scan c file offset previous sequence ds len torn)
    (hoffset : offset ≤ file.length) (hlimit : file.length < fileLimit) (stat : LogStat) :
    ∀ d ∈ ds, (IndexRecord.new stat d).Fits := by
  intro d hd
  obtain ⟨-, hlen, -, hmem⟩ := h.bounds hoffset
  obtain ⟨-, hlt, hstop⟩ := hmem d hd
  constructor
  · show d.start ≤ d.stop
    omega
  · show d.stop < fileLimit
    omega

/-- New index records name their frames. -/
theorem forall₂_names_new (stat : LogStat) (ds : List DecodedRecord) :
    List.Forall₂ IndexRecord.Names (ds.map (.new stat)) ds := by
  induction ds with
  | nil => exact .nil
  | cons d ds ih => exact .cons ⟨rfl, rfl, rfl⟩ ih

/-- An index that is rewritten is that of the frames. -/
theorem indexOf_rewriteIndex {stat : LogStat} {ds : List DecodedRecord}
    (h : ∀ d ∈ ds, (IndexRecord.new stat d).Fits) :
    IndexOf c ds (RefLog.rewriteIndex c stat ds) := by
  have hflat : RefLog.rewriteIndex c stat ds =
      indexMagic ++ (ds.map (IndexRecord.new stat)).flatMap (encodeIndexRecord c) := by
    unfold RefLog.rewriteIndex
    rw [List.flatMap_map]
  have hmagic : indexMagic.length = indexMagic.length + 0 * indexRecordLen := by omega
  have hfits : ∀ r ∈ ds.map (IndexRecord.new stat), r.Fits := by simpa using h
  obtain ⟨hentries, hlength⟩ := indexEntries_append_records c hfits hmagic
  have hnone : indexEntries c indexMagic = [] := by
    unfold indexEntries
    rw [indexCount_of_length hmagic]
    rfl
  refine ⟨?_, ?_, ds.map (IndexRecord.new stat), ?_, forall₂_names_new stat ds⟩
  · rw [hflat, hlength, List.length_map, Nat.zero_add]
  · rw [hflat, List.take_left]
  · rw [hflat, hentries, hnone, List.nil_append]

namespace RefLog

variable {c} {s : RefFiles} {ds : List DecodedRecord} {len : ℕ} {torn : Bool}
  {truncated : LogStat}

/-- The log has the frames of a scan and nothing else, and the index names them. -/
structure Restored (c : RefCodec) (ds : List DecodedRecord) (len : ℕ) (s s' : RefFiles) :
    Prop where
  bytes : s'.bytes = s.bytes.take len
  index : ∃ b, s'.index = some b ∧ IndexOf c ds b

/-- A torn tail is cut off. -/
theorem bytes_truncate (hwhole : torn = false → len = s.bytes.length) :
    (truncate s len torn truncated).bytes = s.bytes.take len := by
  unfold truncate
  cases torn with
  | true => rfl
  | false =>
    rw [hwhole rfl, List.take_length]
    rfl

/-- **A rebuild leaves the frames and their index.** -/
theorem rebuildIndex_of_scan (h : Scan c s.bytes 0 zeroId 1 ds len torn)
    (hlimit : s.bytes.length < fileLimit) :
    ∃ s', rebuildIndex c truncated s = (.ok (), s') ∧ Restored c ds len s s' := by
  obtain ⟨-, -, hwhole, -⟩ := h.bounds (Nat.zero_le _)
  unfold rebuildIndex
  rw [(readRecords_eq_ok_iff c).mpr h]
  exact ⟨_, rfl, bytes_truncate hwhole,
    _, rfl, indexOf_rewriteIndex c (h.fits (Nat.zero_le _) hlimit _)⟩

/-- The last record of an index that is not discarded at once: it is intact, of the same file, and
within the log. -/
def candidate (c : RefCodec) (s : RefFiles) : Option IndexRecord :=
  match (prepareIndex c s.index).1 with
  | .ok (some last) =>
    if s.bytes.length < last.stop ∨ last.stat.device ≠ s.stat.device ∨
        last.stat.inode ≠ s.stat.inode then none
    else some last
  | _ => none

/-- An index is considered if its header and its last record are in order. -/
theorem candidate_eq_some {last : IndexRecord} (h : candidate c s = some last) :
    ∃ b, s.index = some b ∧ indexMagic.length ≤ b.length ∧
      b.take indexMagic.length = indexMagic ∧
      (indexEntries c b).getLast? = some (.ok last) ∧
      prepareIndex c s.index =
        (.ok (some last), some (b.take (indexMagic.length + indexCount b * indexRecordLen))) ∧
      ¬ (s.bytes.length < last.stop ∨ last.stat.device ≠ s.stat.device ∨
        last.stat.inode ≠ s.stat.inode) := by
  unfold candidate at h
  split at h
  · rename_i last' hprepared
    split_ifs at h with hother
    cases h
    unfold prepareIndex at hprepared ⊢
    cases hindex : s.index with
    | none => simp [hindex] at hprepared
    | some b =>
      simp only [hindex] at hprepared ⊢
      split_ifs at hprepared with hshort hheader
      rw [if_neg hshort, if_neg hheader]
      refine ⟨b, rfl, by omega, not_not.mp hheader, ?_⟩
      split at hprepared
      · simp at hprepared
      · rename_i r hlast
        cases hprepared
        exact ⟨hlast, by simp, hother⟩
      · simp at hprepared
  · exact absurd h (by simp)

/-- The index does not matter to a rebuild. -/
theorem rebuildIndex_restored (h : Scan c s.bytes 0 zeroId 1 ds len torn)
    (hlimit : s.bytes.length < fileLimit) (truncated : LogStat) (index : Option Bytes) :
    ∃ s', rebuildIndex c truncated { s with index := index } = (.ok (), s') ∧
      Restored c ds len s s' := by
  have hscan : Scan c ({ s with index := index } : RefFiles).bytes 0 zeroId 1 ds len torn := h
  obtain ⟨s', hrun, hrestored⟩ := rebuildIndex_of_scan hscan hlimit
  exact ⟨s', hrun, hrestored.bytes, hrestored.index⟩

/-- **Without a candidate the index is made anew.** -/
theorem ensureIndex_of_none (h : Scan c s.bytes 0 zeroId 1 ds len torn)
    (hlimit : s.bytes.length < fileLimit) (hnone : candidate c s = none) (truncated : LogStat) :
    ∃ s', ensureIndex c truncated s = (.ok (), s') ∧ Restored c ds len s s' := by
  unfold candidate at hnone
  unfold ensureIndex
  cases hprepared : (prepareIndex c s.index).1 with
  | error e => exact rebuildIndex_restored h hlimit truncated _
  | ok last =>
    cases last with
    | none =>
      unfold ensureWith
      by_cases hempty : s.bytes.length = 0
      · have hbytes : s.bytes = [] := List.eq_nil_of_length_eq_zero hempty
        have hscan : Scan c s.bytes 0 zeroId 1 [] 0 false := .done (by rw [hbytes]; rfl)
        obtain ⟨rfl, rfl, -⟩ := h.unique hscan
        refine ⟨_, if_pos hempty, ?_, rewriteIndex c s.stat [], rfl,
          indexOf_rewriteIndex c (by simp)⟩
        show s.bytes = s.bytes.take 0
        rw [hbytes]
        rfl
      · obtain ⟨s', hrun, hrestored⟩ := rebuildIndex_restored h hlimit truncated
          (prepareIndex c s.index).2
        exact ⟨s', (if_neg hempty).trans hrun, hrestored⟩
    | some last =>
      rw [hprepared] at hnone
      simp only at hnone
      split_ifs at hnone with hother
      obtain ⟨s', hrun, hrestored⟩ := rebuildIndex_restored h hlimit truncated
        (prepareIndex c s.index).2
      exact ⟨s', (if_pos hother).trans hrun, hrestored⟩

section Candidate

variable {last : IndexRecord}

/-- What is done with a candidate. -/
theorem ensureIndex_of_some (hlast : candidate c s = some last) (truncated : LogStat) :
    ensureIndex c truncated s =
      match readFrameAt c s.bytes last.start with
      | .error e => (.error e, { s with index := (prepareIndex c s.index).2 })
      | .ok none => rebuildIndex c truncated { s with index := (prepareIndex c s.index).2 }
      | .ok (some frame) =>
        if frame.stop ≠ last.stop ∨ frame.frameHash ≠ last.frameHash then
          rebuildIndex c truncated { s with index := (prepareIndex c s.index).2 }
        else if s.bytes.length = last.stop then
          if last.stat ≠ s.stat then
            rebuildIndex c truncated { s with index := (prepareIndex c s.index).2 }
          else (.ok (), { s with index := (prepareIndex c s.index).2 })
        else replaySuffix c truncated last frame
          { s with index := (prepareIndex c s.index).2 } := by
  obtain ⟨b, -, -, -, -, hprepared, hother⟩ := candidate_eq_some hlast
  unfold ensureIndex
  rw [hprepared]
  exact if_neg hother

/-- **An index whose last record names no frame is made anew**, or of another version of the
file. -/
theorem ensureIndex_of_disagree (h : Scan c s.bytes 0 zeroId 1 ds len torn)
    (hlimit : s.bytes.length < fileLimit) (hlast : candidate c s = some last)
    {found : Option DecodedRecord} (hread : readFrameAt c s.bytes last.start = .ok found)
    (hdisagree : ∀ frame, found = some frame → frame.stop = last.stop →
      frame.frameHash = last.frameHash → s.bytes.length = last.stop ∧ last.stat ≠ s.stat)
    (truncated : LogStat) :
    ∃ s', ensureIndex c truncated s = (.ok (), s') ∧ Restored c ds len s s' := by
  have hrebuild := rebuildIndex_restored h hlimit truncated (prepareIndex c s.index).2
  rw [ensureIndex_of_some hlast, hread]
  cases found with
  | none => exact hrebuild
  | some frame =>
    simp only
    split_ifs with hdiffer hend hstat
    · exact hrebuild
    · exact hrebuild
    · rw [not_or, not_not, not_not] at hdiffer
      exact absurd hstat (by simp [(hdisagree frame rfl hdiffer.1 hdiffer.2).2])
    · rw [not_or, not_not, not_not] at hdiffer
      exact absurd (hdisagree frame rfl hdiffer.1 hdiffer.2).1 hend

/-- An index with another record in place of its last one, of the same frame, and the records of
the frames after it. -/
structure Extends (c : RefCodec) (b : Bytes) (frame : DecodedRecord) (after : List DecodedRecord)
    (b' : Bytes) : Prop where
  header : b'.take indexMagic.length = indexMagic
  length : b'.length = indexMagic.length + (indexCount b + after.length) * indexRecordLen
  entries : ∃ last rs, indexEntries c b' = (indexEntries c b).dropLast ++ .ok last :: rs.map .ok ∧
    last.Names frame ∧ List.Forall₂ IndexRecord.Names rs after

/-- A list is its beginning and its last element. -/
theorem dropLast_append_of_getLast? {α : Type} {l : List α} {a : α} (h : l.getLast? = some a) :
    l = l.dropLast ++ [a] := by
  have hne : l ≠ [] := by
    rintro rfl
    exact absurd h (by simp)
  rw [List.getLast?_eq_getLast_of_ne_nil hne] at h
  rw [← Option.some.inj h]
  exact (List.dropLast_append_getLast hne).symm

/-- The complete records of an index are those without the last one, and the last one. -/
theorem exists_last_slot {b : Bytes} {entry : Except RefError IndexRecord}
    (hlen : b.length = indexMagic.length + indexCount b * indexRecordLen)
    (h : (indexEntries c b).getLast? = some entry) :
    ∃ n, indexCount b = n + 1 ∧
      (b.take (b.length - indexRecordLen)).length = indexMagic.length + n * indexRecordLen ∧
      indexEntries c (b.take (b.length - indexRecordLen)) = (indexEntries c b).dropLast := by
  obtain ⟨n, hn⟩ : ∃ n, indexCount b = n + 1 := by
    cases hcount : indexCount b with
    | zero =>
      have hnil : indexEntries c b = [] := by
        apply List.eq_nil_of_length_eq_zero
        rw [length_indexEntries, hcount]
      rw [hnil] at h
      exact absurd h (by simp)
    | succ n => exact ⟨n, rfl⟩
  have hfront : (b.take (b.length - indexRecordLen)).length =
      indexMagic.length + n * indexRecordLen := by
    rw [List.length_take, hlen, hn, Nat.succ_mul]
    omega
  have hslot : (b.drop (b.length - indexRecordLen)).length = indexRecordLen := by
    rw [List.length_drop, hlen, hn, Nat.succ_mul]
    omega
  refine ⟨n, hn, hfront, ?_⟩
  have hentries := indexEntries_append_slot c hfront hslot
  rw [List.take_append_drop] at hentries
  rw [hentries, List.dropLast_concat]

/-- The header of a longer part is the header. -/
theorem take_take_magic {b : Bytes} (n : ℕ) :
    (b.take (indexMagic.length + n)).take indexMagic.length = b.take indexMagic.length := by
  rw [List.take_take, Nat.min_eq_left (by omega)]

/-- Cutting the log leaves the index. -/
theorem index_truncate (s : RefFiles) (len : ℕ) (torn : Bool) (truncated : LogStat) :
    (truncate s len torn truncated).index = s.index := by
  unfold truncate
  split_ifs <;> rfl

/-- **An index whose last record names a frame is kept**, and the frames after it are added. -/
theorem ensureIndex_of_agree {frame : DecodedRecord} {before after : List DecodedRecord}
    (h : Scan c s.bytes 0 zeroId 1 (before ++ frame :: after) len torn)
    (hlimit : s.bytes.length < fileLimit) (hlast : candidate c s = some last)
    (hread : readFrameAt c s.bytes last.start = .ok (some frame)) (hstop : frame.stop = last.stop)
    (hhash : frame.frameHash = last.frameHash)
    (hstat : s.bytes.length = last.stop → last.stat = s.stat) (truncated : LogStat) :
    ∃ s' b b', ensureIndex c truncated s = (.ok (), s') ∧ s'.bytes = s.bytes.take len ∧
      s.index = some b ∧ s'.index = some b' ∧ Extends c b frame after b' := by
  obtain ⟨b, hindex, hshort, hheader, hgetLast, hprepared, -⟩ := candidate_eq_some hlast
  obtain ⟨tail, -, -, hcomplete⟩ := exists_complete hshort
  have hentries := indexEntries_take c hshort
  have hcount := indexCount_of_length hcomplete
  have hscan := h.after.2.2
  have hnames : last.Names frame := by
    obtain ⟨hstart, -⟩ := readFrameAt_eq_some c hread
    exact ⟨hstart.symm, hstop.symm, hhash.symm⟩
  obtain ⟨-, -, hwhole, hmem⟩ := h.bounds (Nat.zero_le _)
  obtain ⟨-, hstart, hstopLen⟩ := hmem frame (by simp)
  have hfile : frame.stop ≤ s.bytes.length := (readFrameAt_eq_some c hread).2.2.1
  rw [ensureIndex_of_some hlast, hread, hprepared]
  simp only
  rw [if_neg (by rw [hstop, hhash]; simp)]
  by_cases hend : s.bytes.length = last.stop
  · -- nothing after the last record
    have hafter : after = [] ∧ len = s.bytes.length := by
      rw [hstop, ← hend] at hscan
      have hdone : Scan c s.bytes s.bytes.length frame.frameHash (frame.record.sequence + 1) []
          s.bytes.length false := .done le_rfl
      obtain ⟨h₁, h₂, -⟩ := hscan.unique hdone
      exact ⟨h₁, h₂⟩
    obtain ⟨rfl, rfl⟩ := hafter
    rw [if_pos hend, if_neg (not_not.mpr (hstat hend))]
    refine ⟨_, b, _, rfl, (List.take_length).symm, hindex, rfl, ?_, ?_, last, [], ?_, hnames, .nil⟩
    · rw [take_take_magic, hheader]
    · rw [hcomplete]
      rfl
    · rw [hentries]
      exact dropLast_append_of_getLast? hgetLast
  · rw [if_neg hend]
    have hsuffix : readRecords c s.bytes last.stop last.frameHash (frame.record.sequence + 1) =
        .ok (after, len, torn) := by
      rw [← hstop, ← hhash]
      exact (readRecords_eq_ok_iff c).mpr hscan
    unfold replaySuffix
    have hsuffix' : readRecords c ({ s with index := some (b.take (indexMagic.length +
        indexCount b * indexRecordLen)) } : RefFiles).bytes last.stop last.frameHash
          (frame.record.sequence + 1) = .ok (after, len, torn) := hsuffix
    rw [hsuffix']
    simp only [index_truncate, Option.getD_some]
    have hbytes : (truncate { s with index := some (b.take (indexMagic.length +
        indexCount b * indexRecordLen)) } len torn truncated).bytes = s.bytes.take len :=
      bytes_truncate hwhole
    revert hbytes
    generalize truncate { s with index := some (b.take (indexMagic.length +
      indexCount b * indexRecordLen)) } len torn truncated = s₁
    intro hbytes
    split_ifs with hnil
    · subst hnil
      have hgetLast' : (indexEntries c (b.take (indexMagic.length +
          indexCount b * indexRecordLen))).getLast? = some (.ok last) := by
        rw [hentries]
        exact hgetLast
      obtain ⟨n, hn, hfront, hdrop⟩ := exists_last_slot (by rw [hcount]; exact hcomplete) hgetLast'
      have hfits : ∀ stat, (IndexRecord.mk last.start last.stop last.frameHash stat).Fits := by
        intro stat
        obtain ⟨h₁, h₂, -⟩ := hnames
        constructor
        · show last.start ≤ last.stop
          omega
        · show last.stop < fileLimit
          omega
      refine ⟨_, b, _, rfl, hbytes, hindex, rfl, ?_, ?_,
        ⟨last.start, last.stop, last.frameHash, s₁.stat⟩, [], ?_, hnames, .nil⟩
      · rw [List.take_append_of_le_length (by rw [hfront]; omega), List.take_take,
          Nat.min_eq_left (by rw [List.length_take] at hfront; omega), take_take_magic, hheader]
      · rw [List.length_append, hfront, length_encodeIndexRecord, ← hcount, hn, List.length_nil,
          Nat.add_zero, Nat.add_mul, Nat.one_mul]
        omega
      · rw [indexEntries_append_slot c hfront (length_encodeIndexRecord c _),
          readIndexRecord_encode c (hfits _), hdrop, hentries]
        rfl
    · have hfits : ∀ stat, ∀ r ∈ after.map (IndexRecord.new stat), r.Fits := by
        intro stat r hr
        obtain ⟨d, hd, rfl⟩ := List.mem_map.mp hr
        exact hscan.fits hfile hlimit stat d hd
      have hflat : ∀ stat, (after.flatMap fun d => encodeIndexRecord c (.new stat d)) =
          (after.map (IndexRecord.new stat)).flatMap (encodeIndexRecord c) := fun stat => by
        rw [List.flatMap_map]
      refine ⟨_, b, _, rfl, hbytes, hindex, rfl, ?_, ?_, last, after.map (.new s₁.stat), ?_, hnames,
        forall₂_names_new _ after⟩
      · rw [List.take_append_of_le_length (by rw [hcomplete]; omega), take_take_magic, hheader]
      · rw [hflat, (indexEntries_append_records c (hfits _) hcomplete).2, List.length_map]
      · rw [hflat, (indexEntries_append_records c (hfits _) hcomplete).1, hentries,
          List.append_cons, ← dropLast_append_of_getLast? hgetLast]

end Candidate

end RefLog

end Codec

end Furrow
