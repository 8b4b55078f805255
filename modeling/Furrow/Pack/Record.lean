import Furrow.Lib.Cursor
import Furrow.Lib.LittleEndian
import Furrow.Model

set_option relaxedAutoImplicit false
set_option autoImplicit false

/-!
# Pack records

Objects are appended to a pack file as self-describing records: a magic number, a version, the
kind, the length, the identifier, a checksum, the payload and a trailer.  This file has the
layout of one record, the reader of the recovery scan with its exit points, and what a whole
byte sequence holds.  The hash function is a parameter throughout.

## Main definitions

* `Furrow.PackRecord`, `Furrow.PackRecord.encode` — one record and its bytes.
* `Furrow.readRecord` — the reader of the scan.
* `Furrow.encodeAll` — a sequence of records.
* `Furrow.validRecords` — the complete valid records at the front of a byte sequence.

## Main results

* `Furrow.readRecord_eq_ok_iff` — exactly the encoded records are read.
* `Furrow.readRecord_short` — a proper prefix of a record is short.
* `Furrow.validRecords_encodeAll` — the records of a sequence are read back.
-/

namespace Furrow

/-- `OBJECT_MAGIC` -/
def objectMagic : Bytes := text "AGOB"

/-- `OBJECT_END` -/
def objectEnd : Bytes := text "AGND"

/-- `OBJECT_VERSION` -/
def objectVersion : Byte := 1

/-- `HEADER_LEN`: magic, version, kind, length, identifier, checksum. -/
def headerLen : ℕ := 4 + 1 + 1 + 8 + 32 + 32

/-- `MAX_OBJECT_LEN` -/
def maxObjectLen : ℕ := 256 * 1024 * 1024

/-- The domain an object of a kind is hashed under. -/
def ObjectKind.domain : ObjectKind → Bytes
  | .Chunk => text "furrow:chunk:v1" ++ [0]
  | .Blob => text "furrow:blob:v1" ++ [0]
  | .Tree => text "furrow:tree:v1" ++ [0]
  | .Snapshot =>
    text "furrow:snapshot:v1" ++
      [0]
  | .Xattrs =>
    text "furrow:xattrs:v1" ++ [0]

/-- What the scan or the store complains about. -/
inductive PackError
  /-- `object pack corruption at byte …` -/
  | packCorruption
  /-- `invalid object pack version or kind` -/
  | versionOrKind
  /-- `object pack record exceeds size limit` -/
  | recordTooLong
  /-- `object pack checksum or trailer mismatch` -/
  | checksumOrTrailer
  /-- `durable object pack prefix was lost` -/
  | durablePrefixLost
  /-- `durable object pack prefix is corrupt` -/
  | durablePrefixCorrupt
  /-- `object exceeds size limit` -/
  | objectTooLong
  /-- An error of the file system or of the capture itself. -/
  | failed
deriving DecidableEq, Repr

section

variable (hash : Bytes → ObjectId)

/-- The identifier of an object (`object_id`). -/
def objectId (kind : ObjectKind) (bytes : Bytes) : ObjectId := hash (kind.domain ++ bytes)

/-- A record of a pack: an object of at most the largest size. -/
structure PackRecord where
  kind : ObjectKind
  payload : Bytes
  small : payload.length ≤ maxObjectLen
deriving DecidableEq

namespace PackRecord

/-- The identifier of the object of a record. -/
def id (r : PackRecord) : ObjectId := objectId hash r.kind r.payload

/-- The header of a record. -/
def header (r : PackRecord) : Bytes :=
  objectMagic ++ ([objectVersion, r.kind.toU8] ++ (LittleEndian.bytes 8 r.payload.length ++
    ((r.id hash).bytes ++ (hash r.payload).bytes)))

/-- The bytes of a record. -/
def encode (r : PackRecord) : Bytes := r.header hash ++ (r.payload ++ objectEnd)

end PackRecord

/-- The kind a version byte and a kind byte stand for. -/
def kindOfInfo : Bytes → Option ObjectKind
  | [version, kind] => if version = objectVersion then ObjectKind.fromU8 kind else none
  | _ => none

/-- A record of a kind and a payload that is not too long. -/
def PackRecord.ofPayload (kind : ObjectKind) (payload : Bytes) : Option PackRecord :=
  if h : payload.length ≤ maxObjectLen then some ⟨kind, payload, h⟩ else none

/-- Read one record: the steps and the exit points of the scan.  A short read is a cut-off
record; anything else that is wrong is named. -/
def readRecord : Cursor Byte PackError PackRecord := do
  let magic ← Cursor.readExact 4
  Cursor.ensure (magic = objectMagic) .packCorruption
  let info ← Cursor.readExact 2
  let kind ← Cursor.require (kindOfInfo info) .versionOrKind
  let lenBytes ← Cursor.readExact 8
  Cursor.ensure (LittleEndian.value lenBytes ≤ maxObjectLen) .recordTooLong
  let id ← Cursor.readExact 32
  let checksum ← Cursor.readExact 32
  Cursor.available (LittleEndian.value lenBytes + objectEnd.length)
  let payload ← Cursor.readExact (LittleEndian.value lenBytes)
  let trailer ← Cursor.readExact 4
  Cursor.ensure (trailer = objectEnd ∧ (hash payload).bytes = checksum ∧
    (objectId hash kind payload).bytes = id) .checksumOrTrailer
  Cursor.require (PackRecord.ofPayload kind payload) .recordTooLong

/-! ## One record -/

/-- The magic of a record has four bytes. -/
theorem length_objectMagic : objectMagic.length = 4 := rfl

/-- The end of a record has four bytes. -/
theorem length_objectEnd : objectEnd.length = 4 := rfl

/-- A header has the length the layout says. -/
theorem length_header (r : PackRecord) : (r.header hash).length = headerLen := by
  simp [PackRecord.header, headerLen, length_objectMagic, (r.id hash).length_eq,
    (hash r.payload).length_eq]

/-- The length of a record. -/
theorem length_encode (r : PackRecord) :
    (r.encode hash).length = headerLen + r.payload.length + 4 := by
  rw [PackRecord.encode, List.length_append, length_header, List.length_append, length_objectEnd]
  omega

/-- Payload lengths fit the length field. -/
theorem value_payload_length (r : PackRecord) :
    LittleEndian.value (LittleEndian.bytes 8 r.payload.length) = r.payload.length := by
  have hsmall := r.small
  have hmax : maxObjectLen < 256 ^ 8 := by decide
  rw [LittleEndian.value_bytes]
  exact Nat.mod_eq_of_lt (by omega)

/-- The version and kind bytes of a record are read as its kind. -/
theorem kindOfInfo_eq_some_iff {info : Bytes} {kind : ObjectKind} :
    kindOfInfo info = some kind ↔ info = [objectVersion, kind.toU8] := by
  constructor
  · intro h
    unfold kindOfInfo at h
    split at h
    · split_ifs at h with hv
      rw [hv, ObjectKind.toU8_of_fromU8 h]
    · exact absurd h (by simp)
  · rintro rfl
    simp [kindOfInfo]

/-- Reading an encoded record. -/
theorem readRecord_encode (r : PackRecord) (t : Bytes) :
    readRecord hash (r.encode hash ++ t) = .ok (r, t) := by
  have hinfo : [objectVersion, r.kind.toU8].length = 2 := rfl
  unfold readRecord PackRecord.encode PackRecord.header
  simp only [List.append_assoc]
  rw [Cursor.bind_of_ok (Cursor.readExact_append _ _ length_objectMagic),
    Cursor.bind_of_ok (Cursor.ensure_eq_ok_iff.mpr ⟨rfl, rfl⟩),
    Cursor.bind_of_ok (Cursor.readExact_append _ _ hinfo),
    Cursor.bind_of_ok (Cursor.require_eq_ok_iff.mpr ⟨kindOfInfo_eq_some_iff.mpr rfl, rfl⟩),
    Cursor.bind_of_ok (Cursor.readExact_append _ _ (LittleEndian.length_bytes 8 _)),
    value_payload_length,
    Cursor.bind_of_ok (Cursor.ensure_eq_ok_iff.mpr ⟨r.small, rfl⟩),
    Cursor.bind_of_ok (Cursor.readExact_append _ _ (r.id hash).length_eq),
    Cursor.bind_of_ok (Cursor.readExact_append _ _ (hash r.payload).length_eq),
    Cursor.bind_of_ok (Cursor.available_eq_ok_iff.mpr ⟨by simp, rfl⟩),
    Cursor.bind_of_ok (Cursor.readExact_append _ _ rfl),
    Cursor.bind_of_ok (Cursor.readExact_append _ _ length_objectEnd),
    Cursor.bind_of_ok (Cursor.ensure_eq_ok_iff.mpr ⟨⟨rfl, rfl, rfl⟩, rfl⟩)]
  exact Cursor.require_eq_ok_iff.mpr ⟨by simp [PackRecord.ofPayload, r.small], rfl⟩

/-- What is read is an encoded record. -/
theorem encode_of_readRecord {s t : Bytes} {r : PackRecord}
    (h : readRecord hash s = .ok (r, t)) : s = r.encode hash ++ t := by
  unfold readRecord at h
  obtain ⟨magic, s₁, h₁, h⟩ := Cursor.bind_eq_ok_iff.mp h
  obtain ⟨_, s₂, h₂, h⟩ := Cursor.bind_eq_ok_iff.mp h
  obtain ⟨info, s₃, h₃, h⟩ := Cursor.bind_eq_ok_iff.mp h
  obtain ⟨kind, s₄, h₄, h⟩ := Cursor.bind_eq_ok_iff.mp h
  obtain ⟨lenBytes, s₅, h₅, h⟩ := Cursor.bind_eq_ok_iff.mp h
  obtain ⟨_, s₆, h₆, h⟩ := Cursor.bind_eq_ok_iff.mp h
  obtain ⟨id, s₇, h₇, h⟩ := Cursor.bind_eq_ok_iff.mp h
  obtain ⟨checksum, s₈, h₈, h⟩ := Cursor.bind_eq_ok_iff.mp h
  obtain ⟨_, s₉, h₉, h⟩ := Cursor.bind_eq_ok_iff.mp h
  obtain ⟨payload, s₁₀, h₁₀, h⟩ := Cursor.bind_eq_ok_iff.mp h
  obtain ⟨trailer, s₁₁, h₁₁, h⟩ := Cursor.bind_eq_ok_iff.mp h
  obtain ⟨_, s₁₂, h₁₂, h⟩ := Cursor.bind_eq_ok_iff.mp h
  -- every step either splits off what it read or reads nothing
  obtain ⟨rfl, -⟩ := Cursor.readExact_eq_ok_iff.mp h₁
  obtain ⟨rfl, rfl⟩ := Cursor.ensure_eq_ok_iff.mp h₂
  obtain ⟨rfl, -⟩ := Cursor.readExact_eq_ok_iff.mp h₃
  obtain ⟨hkind, rfl⟩ := Cursor.require_eq_ok_iff.mp h₄
  obtain ⟨rfl, hlenBytes⟩ := Cursor.readExact_eq_ok_iff.mp h₅
  obtain ⟨-, rfl⟩ := Cursor.ensure_eq_ok_iff.mp h₆
  obtain ⟨rfl, -⟩ := Cursor.readExact_eq_ok_iff.mp h₇
  obtain ⟨rfl, -⟩ := Cursor.readExact_eq_ok_iff.mp h₈
  obtain ⟨-, rfl⟩ := Cursor.available_eq_ok_iff.mp h₉
  obtain ⟨rfl, hpayload⟩ := Cursor.readExact_eq_ok_iff.mp h₁₀
  obtain ⟨rfl, -⟩ := Cursor.readExact_eq_ok_iff.mp h₁₁
  obtain ⟨⟨rfl, rfl, rfl⟩, rfl⟩ := Cursor.ensure_eq_ok_iff.mp h₁₂
  obtain ⟨hr, rfl⟩ := Cursor.require_eq_ok_iff.mp h
  have hrec : r.kind = kind ∧ r.payload = payload := by
    unfold PackRecord.ofPayload at hr
    split_ifs at hr
    rw [← Option.some.inj hr]
    exact ⟨rfl, rfl⟩
  have hlen : LittleEndian.bytes 8 payload.length = lenBytes := by
    rw [hpayload, ← hlenBytes, LittleEndian.bytes_value]
  rw [PackRecord.encode, PackRecord.header, PackRecord.id, hrec.1, hrec.2, hlen,
    kindOfInfo_eq_some_iff.mp hkind]
  simp only [List.append_assoc]

/-- **Exactly the encoded records are read.** -/
theorem readRecord_eq_ok_iff {s t : Bytes} {r : PackRecord} :
    readRecord hash s = .ok (r, t) ↔ s = r.encode hash ++ t :=
  ⟨encode_of_readRecord hash, fun h => h ▸ readRecord_encode hash r t⟩

/-- The scan's reader is stable: more bytes change nothing once it has decided. -/
theorem stable_readRecord : Cursor.Stable (readRecord hash) := by
  unfold readRecord
  refine (Cursor.stable_readExact 4).bind fun _ => (Cursor.stable_ensure _ _).bind fun _ => ?_
  refine (Cursor.stable_readExact 2).bind fun _ => (Cursor.stable_require _ _).bind fun _ => ?_
  refine (Cursor.stable_readExact 8).bind fun _ => (Cursor.stable_ensure _ _).bind fun _ => ?_
  refine (Cursor.stable_readExact 32).bind fun _ => (Cursor.stable_readExact 32).bind fun _ => ?_
  refine (Cursor.stable_available _).bind fun _ => (Cursor.stable_readExact _).bind fun _ => ?_
  refine (Cursor.stable_readExact 4).bind fun _ => (Cursor.stable_ensure _ _).bind fun _ => ?_
  exact Cursor.stable_require _ _

/-- **A proper prefix of a record is short.** -/
theorem readRecord_short {p q : Bytes} {r : PackRecord} (h : p ++ q = r.encode hash)
    (hq : q ≠ []) : readRecord hash p = .error .short := by
  have hfull : readRecord hash (p ++ q) = .ok (r, []) := by
    rw [h]
    simpa using readRecord_encode hash r []
  exact (stable_readRecord hash).short_of_append hfull hq

/-! ## Sequences of records -/

/-- A sequence of records, one after the other. -/
def encodeAll (rs : List PackRecord) : Bytes := rs.flatMap fun r => r.encode hash

/-- The complete valid records at the front of a byte sequence, read with a bound on their
number. -/
def validRecordsUpTo : ℕ → Bytes → List PackRecord
  | 0, _ => []
  | fuel + 1, s =>
    match readRecord hash s with
    | .ok (r, t) => r :: validRecordsUpTo fuel t
    | .error _ => []

/-- The complete valid records at the front of a byte sequence. -/
def validRecords (s : Bytes) : List PackRecord := validRecordsUpTo hash s.length s

/-- A record that is read leaves less than there was. -/
theorem length_lt_of_readRecord {s t : Bytes} {r : PackRecord}
    (h : readRecord hash s = .ok (r, t)) : t.length < s.length := by
  rw [encode_of_readRecord hash h, List.length_append, length_encode]
  omega

/-- Nothing is read where no record starts, whatever the bound. -/
theorem validRecordsUpTo_of_error {s : Bytes} {e : ReadFault PackError}
    (h : readRecord hash s = .error e) (fuel : ℕ) : validRecordsUpTo hash fuel s = [] := by
  cases fuel with
  | zero => rfl
  | succ fuel => rw [validRecordsUpTo, h]

/-- Bounds of at least the length read the same records. -/
theorem validRecordsUpTo_eq {fuel fuel' : ℕ} {s : Bytes} (h : s.length ≤ fuel)
    (h' : s.length ≤ fuel') : validRecordsUpTo hash fuel s = validRecordsUpTo hash fuel' s := by
  induction fuel generalizing fuel' s with
  | zero =>
    have hread : readRecord hash s = .error .short := by
      rw [List.length_eq_zero_iff.mp (Nat.le_zero.mp h)]
      rfl
    rw [validRecordsUpTo_of_error hash hread, validRecordsUpTo_of_error hash hread]
  | succ fuel ih =>
    cases hread : readRecord hash s with
    | error e => rw [validRecordsUpTo_of_error hash hread, validRecordsUpTo_of_error hash hread]
    | ok p =>
      have hlt := length_lt_of_readRecord hash hread
      obtain ⟨m, rfl⟩ : ∃ m, fuel' = m + 1 := ⟨fuel' - 1, by omega⟩
      rw [validRecordsUpTo, validRecordsUpTo, hread]
      simp only
      rw [ih (by omega) (show p.2.length ≤ m by omega)]

/-- The first record of a byte sequence. -/
theorem validRecords_of_ok {s t : Bytes} {r : PackRecord} (h : readRecord hash s = .ok (r, t)) :
    validRecords hash s = r :: validRecords hash t := by
  have hlt := length_lt_of_readRecord hash h
  obtain ⟨m, hm⟩ : ∃ m, s.length = m + 1 := ⟨s.length - 1, by omega⟩
  rw [validRecords, validRecords, hm, validRecordsUpTo, h]
  simp only
  rw [validRecordsUpTo_eq hash (show t.length ≤ m by omega) (Nat.le_refl _)]

/-- A byte sequence that does not start with a record holds none. -/
theorem validRecords_of_error {s : Bytes} {e : ReadFault PackError}
    (h : readRecord hash s = .error e) : validRecords hash s = [] :=
  validRecordsUpTo_of_error hash h s.length

/-- No records take no bytes. -/
@[simp] theorem encodeAll_nil : encodeAll hash [] = [] := rfl

/-- Records are written one after the other. -/
@[simp] theorem encodeAll_cons (r : PackRecord) (rs : List PackRecord) :
    encodeAll hash (r :: rs) = r.encode hash ++ encodeAll hash rs := rfl

/-- Records behind others. -/
@[simp] theorem encodeAll_append (rs rs' : List PackRecord) :
    encodeAll hash (rs ++ rs') = encodeAll hash rs ++ encodeAll hash rs' := by
  simp [encodeAll]

/-- **The records of a sequence are read back**, and then those of what follows. -/
theorem validRecords_encodeAll (rs : List PackRecord) (t : Bytes) :
    validRecords hash (encodeAll hash rs ++ t) = rs ++ validRecords hash t := by
  induction rs with
  | nil => rfl
  | cons r rs ih =>
    rw [encodeAll_cons, List.append_assoc, validRecords_of_ok hash (readRecord_encode hash r _), ih]
    rfl

/-- A byte sequence is its valid records and a rest that does not start with one. -/
theorem validRecords_partition (s : Bytes) :
    ∃ t e, s = encodeAll hash (validRecords hash s) ++ t ∧ readRecord hash t = .error e := by
  induction hn : s.length using Nat.strong_induction_on generalizing s with
  | _ n ih =>
    cases h : readRecord hash s with
    | error e => exact ⟨s, e, by rw [validRecords_of_error hash h]; rfl, h⟩
    | ok p =>
      obtain ⟨r, t⟩ := p
      obtain ⟨u, e, hu, he⟩ := ih t.length (hn ▸ length_lt_of_readRecord hash h) t rfl
      refine ⟨u, e, ?_, he⟩
      rw [validRecords_of_ok hash h, encodeAll_cons, List.append_assoc, ← hu]
      exact encode_of_readRecord hash h

end

end Furrow
