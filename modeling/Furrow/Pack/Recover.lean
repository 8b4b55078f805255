import Furrow.Pack.Catalog

set_option relaxedAutoImplicit false
set_option autoImplicit false

/-!
# Pack recovery

`recover_pack_under_catalog_lock`: from the checkpoint if it can be trusted, else from byte 0,
the pack is read record by record; every valid record gets a row, a cut-off or invalid tail is
cut off, and the checkpoint is moved to the end.  Nothing below the durable frontier may go: a
fault there is an error.

A function here takes the state it can change, the pack file and the catalog, and returns it
with its result, so that what an error leaves behind is visible.

## Main definitions

* `Furrow.PackState` — the pack file and the catalog.
* `Furrow.validateCheckpoint`, `Furrow.truncatePackTail`, `Furrow.scanLoop` — the parts.
* `Furrow.recoverPackUnderCatalogLock` — the recovery.

## Main results

* `Furrow.scanLoop_eq` — what the scan does, in terms of the valid records of the file.
* `Furrow.recoverPack_keeps_frontier` — nothing below the frontier goes.
* `Furrow.recoverPack_droppable` — what recovery does to a pack whose tail it may drop.
-/

namespace Furrow

/-- The pack file and the catalog. -/
structure PackState (R : Type) where
  pack : Bytes
  catalog : Catalog R

section

variable {R : Type} (hash : Bytes → ObjectId) (durableLen : Option ℕ) (name : PackName)

/-- Whether the checkpoint describes the pack: every row ends by it, and its last record is
there (`validate_checkpoint`). -/
def validateCheckpoint (s : PackState R) (checkpoint : PackCheckpoint) : Bool :=
  if s.pack.length < checkpoint.verifiedLen ∨
      checkpoint.verifiedLen < s.catalog.packHighWater name then false
  else if checkpoint.objectCount = 0 then
    checkpoint.verifiedLen = 0 ∧ checkpoint.lastObject = none
  else
    match checkpoint.lastObject with
    | none => false
    | some lastId =>
      match s.catalog.object lastId with
      | none => false
      | some location =>
        if location.pack ≠ name ∨ location.offset ≠ checkpoint.lastRecordStart + headerLen ∨
            location.offset + location.len + objectEnd.length ≠ checkpoint.verifiedLen then false
        else
          let header := (s.pack.drop checkpoint.lastRecordStart).take headerLen
          if header.length < headerLen ∨ header.take 4 ≠ objectMagic ∨
              header[4]? ≠ some objectVersion ∨
              header[5]?.bind ObjectKind.fromU8 ≠ some location.kind then false
          else if LittleEndian.value ((header.drop 6).take 8) ≠ location.len ∨
              (header.drop 14).take 32 ≠ lastId.bytes then false
          else
            (s.pack.drop (checkpoint.verifiedLen - 4)).take 4 = objectEnd

/-- Cut the pack at a record start, unless that is below the frontier
(`truncate_pack_tail`). -/
def truncatePackTail (recordStart : ℕ) (s : PackState R) : Except PackError Unit × PackState R :=
  if durableLen.any fun len => recordStart < len then (.error .durablePrefixCorrupt, s)
  else
    (.ok (), { pack := s.pack.take recordStart
               catalog := s.catalog.forgetCaptureCaches.deletePackObjectsFrom name
                 (recordStart + headerLen) })

/-- Count one record: the scan keeps its place, its count and its last record in the form of a
checkpoint. -/
def PackCheckpoint.advance (scan : PackCheckpoint) (r : PackRecord) : PackCheckpoint :=
  { verifiedLen := scan.verifiedLen + (r.encode hash).length
    objectCount := scan.objectCount + 1
    lastObject := some (r.id hash)
    lastRecordStart := scan.verifiedLen }

/-- Where the record that starts at an offset stores its object. -/
def PackRecord.location (r : PackRecord) (recordStart : ℕ) : ObjectLocation :=
  ⟨r.kind, name, recordStart + headerLen, r.payload.length⟩

/-- The scan stops at a record that cannot be read.  A cut-off record is dropped; any other
fault is dropped only behind a frontier and is an error elsewhere. -/
def stopAt (fault : ReadFault PackError) (scan : PackCheckpoint) (s : PackState R) :
    Except PackError PackCheckpoint × PackState R :=
  match fault, durableLen.any fun len => len ≤ scan.verifiedLen with
  | .invalid error, false => (.error error, s)
  | _, _ =>
    let stopped := truncatePackTail durableLen name scan.verifiedLen s
    (stopped.1.map fun _ => scan, stopped.2)

/-- The loop of the scan; `rest` is what the file holds from the offset on. -/
def scanLoop :
    ℕ → Bytes → PackCheckpoint → PackState R → Except PackError PackCheckpoint × PackState R
  | 0, _, scan, s => (.ok scan, s)
  | fuel + 1, rest, scan, s =>
    if rest.isEmpty then (.ok scan, s)
    else
      match readRecord hash rest with
      | .error fault => stopAt durableLen name fault scan s
      | .ok (r, rest) =>
        scanLoop fuel rest (scan.advance hash r)
          { s with catalog :=
              s.catalog.insertObject (r.id hash) (r.location name scan.verifiedLen) }

/-- Rows past the end of the file are a lost suffix: the capture caches go. -/
def forgetLost (s : PackState R) : PackState R :=
  if s.pack.length < s.catalog.packHighWater name then
    { s with catalog := s.catalog.forgetCaptureCaches }
  else s

/-- The checkpoint the scan starts from: one within the frontier that describes the pack. -/
def trustedCheckpoint (s : PackState R) : Option PackCheckpoint :=
  ((s.catalog.packCheckpoint name).filter fun c =>
    durableLen.all fun len => c.verifiedLen ≤ len).filter fun c => validateCheckpoint name s c

/-- The index before the scan: without a trusted checkpoint it is empty, and nothing is claimed
beyond the start. -/
def prepareScan (s : PackState R) : PackState R :=
  let trusted := trustedCheckpoint durableLen name s
  let catalog := if trusted.isSome then s.catalog else s.catalog.resetPackIndex name
  { s with catalog :=
      catalog.deletePackObjectsFrom name ((trusted.getD .zero).verifiedLen + headerLen) }

/-- Move the checkpoint to where the scan ended, if it moved. -/
def finishScan (start : PackCheckpoint) :
    Except PackError PackCheckpoint × PackState R → Except PackError Unit × PackState R
  | (.error e, s) => (.error e, s)
  | (.ok scan, s) =>
    if scan.verifiedLen = start.verifiedLen then (.ok (), s)
    else (.ok (), { s with catalog := s.catalog.setPackCheckpoint name scan })

/-- **Recovery of the active pack** (`recover_pack_under_catalog_lock`), for a pack file that
exists. -/
def recoverPackUnderCatalogLock (s : PackState R) : Except PackError Unit × PackState R :=
  let s := forgetLost name s
  if durableLen.any fun len => s.pack.length < len then (.error .durablePrefixLost, s)
  else
    let start := (trustedCheckpoint durableLen name s).getD .zero
    finishScan name start
      (scanLoop hash durableLen name s.pack.length (s.pack.drop start.verifiedLen) start
        (prepareScan durableLen name s))

/-! ## The scan in terms of the valid records -/

/-- What follows the valid records of a byte sequence. -/
def scanRest (s : Bytes) : Bytes := s.drop (encodeAll hash (validRecords hash s)).length

/-- The index after inserting a sequence of records from an offset on. -/
def insertAll : ℕ → List PackRecord → Catalog R → Catalog R
  | _, [], c => c
  | offset, r :: rs, c =>
    insertAll (offset + (r.encode hash).length) rs
      (c.insertObject (r.id hash) (r.location name offset))

/-- What the scan does where no further record is read. -/
def scanEnd (rest : Bytes) (scan : PackCheckpoint) (s : PackState R) :
    Except PackError PackCheckpoint × PackState R :=
  if rest.isEmpty then (.ok scan, s)
  else
    match readRecord hash rest with
    | .error fault => stopAt durableLen name fault scan s
    | .ok _ => (.ok scan, s)

/-- The scan goes on behind a record. -/
theorem scanRest_of_ok {s t : Bytes} {r : PackRecord} (h : readRecord hash s = .ok (r, t)) :
    scanRest hash s = scanRest hash t := by
  unfold scanRest
  rw [validRecords_of_ok hash h, encodeAll_cons, List.length_append, ← List.drop_drop,
    encode_of_readRecord hash h, List.drop_left]

/-- The scan stops where no record is read. -/
theorem scanRest_of_error {s : Bytes} {e : ReadFault PackError}
    (h : readRecord hash s = .error e) : scanRest hash s = s := by
  unfold scanRest
  rw [validRecords_of_error hash h]
  rfl

/-- A byte sequence is its valid records and a rest where no further one starts. -/
theorem scanRest_spec (s : Bytes) :
    s = encodeAll hash (validRecords hash s) ++ scanRest hash s ∧
      ∃ e, readRecord hash (scanRest hash s) = .error e := by
  obtain ⟨t, e, hs, he⟩ := validRecords_partition hash s
  have ht : scanRest hash s = t := by
    have hdrop : (encodeAll hash (validRecords hash s) ++ t).drop
        (encodeAll hash (validRecords hash s)).length = t := List.drop_left
    rwa [← hs] at hdrop
  rw [ht]
  exact ⟨hs, e, he⟩

/-- The rest after a sequence of records is the rest of what follows them. -/
theorem scanRest_encodeAll (rs : List PackRecord) (t : Bytes) :
    scanRest hash (encodeAll hash rs ++ t) = scanRest hash t := by
  unfold scanRest
  rw [validRecords_encodeAll, encodeAll_append, List.length_append, ← List.drop_drop,
    List.drop_left]

/-- **The scan inserts the valid records and stops where no further one starts.** -/
theorem scanLoop_eq {fuel : ℕ} {rest : Bytes} (h : rest.length ≤ fuel) (scan : PackCheckpoint)
    (s : PackState R) :
    scanLoop hash durableLen name fuel rest scan s =
      scanEnd hash durableLen name (scanRest hash rest)
        ((validRecords hash rest).foldl (fun scan r => scan.advance hash r) scan)
        { s with catalog :=
          insertAll hash name scan.verifiedLen (validRecords hash rest) s.catalog } := by
  induction fuel generalizing rest scan s with
  | zero =>
    have hnil : rest = [] := List.length_eq_zero_iff.mp (Nat.le_zero.mp h)
    subst hnil
    rfl
  | succ fuel ih =>
    rw [scanLoop]
    cases hread : readRecord hash rest with
    | ok p =>
      obtain ⟨r, t⟩ := p
      have hlt := length_lt_of_readRecord hash hread
      have hne : rest.isEmpty = false := by
        cases rest with
        | nil => simp at hlt
        | cons b rest => rfl
      simp only [hne, Bool.false_eq_true, if_false]
      rw [ih (by omega), scanRest_of_ok hash hread, validRecords_of_ok hash hread]
      rfl
    | error e =>
      rw [validRecords_of_error hash hread, scanRest_of_error hash hread]
      rw [scanEnd, hread]
      rfl

/-! ## Rows and checkpoints of a sequence of records -/

/-- The identifiers and locations of a sequence of records that starts at an offset. -/
def rowsOf : ℕ → List PackRecord → List (ObjectId × ObjectLocation)
  | _, [] => []
  | offset, r :: rs =>
    (r.id hash, r.location name offset) :: rowsOf (offset + (r.encode hash).length) rs

/-- Where a sequence of records holds an identifier first. -/
def locate (offset : ℕ) (rs : List PackRecord) (id : ObjectId) : Option ObjectLocation :=
  ((rowsOf hash name offset rs).find? fun p => p.1 = id).map Prod.snd

/-- The checkpoint of a sequence of records that starts at byte 0. -/
def checkpointOf (rs : List PackRecord) : PackCheckpoint :=
  rs.foldl (fun scan r => scan.advance hash r) .zero

/-- A record is located where it is, or behind. -/
theorem locate_cons (offset : ℕ) (r : PackRecord) (rs : List PackRecord) (id : ObjectId) :
    locate hash name offset (r :: rs) id =
      if id = r.id hash then some (r.location name offset)
      else locate hash name (offset + (r.encode hash).length) rs id := by
  unfold locate
  rw [rowsOf, List.find?_cons]
  by_cases h : id = r.id hash
  · simp [h]
  · have h' : ¬ r.id hash = id := Ne.symm h
    simp [h, h']

/-- **The index after inserting a sequence of records.**  A row that was there stays; an
identifier without one gets the location of its first record. -/
theorem object_insertAll (offset : ℕ) (rs : List PackRecord) (c : Catalog R) (id : ObjectId) :
    (insertAll hash name offset rs c).object id =
      (c.object id).or (locate hash name offset rs id) := by
  induction rs generalizing offset c with
  | nil => simp [insertAll, locate, rowsOf]
  | cons r rs ih =>
    rw [insertAll, ih, Catalog.object_insertObject, locate_cons, Option.or_assoc]
    by_cases h : id = r.id hash <;> simp [h]

/-- Rows change no checkpoint. -/
theorem checkpoints_insertAll (offset : ℕ) (rs : List PackRecord) (c : Catalog R) :
    (insertAll hash name offset rs c).checkpoints = c.checkpoints := by
  induction rs generalizing offset c with
  | nil => rfl
  | cons r rs ih => rw [insertAll, ih, Catalog.checkpoints_insertObject]

/-- Rows change no cache. -/
theorem caches_insertAll (offset : ℕ) (rs : List PackRecord) (c : Catalog R) :
    (insertAll hash name offset rs c).caches = c.caches := by
  induction rs generalizing offset c with
  | nil => rfl
  | cons r rs ih => rw [insertAll, ih, Catalog.caches_insertObject]

/-- The rows of two sequences of records, one after the other. -/
theorem rowsOf_append (offset : ℕ) (rs rs' : List PackRecord) :
    rowsOf hash name offset (rs ++ rs') =
      rowsOf hash name offset rs ++ rowsOf hash name (offset + (encodeAll hash rs).length) rs' := by
  induction rs generalizing offset with
  | nil => rfl
  | cons r rs ih =>
    rw [List.cons_append, rowsOf, ih, rowsOf, encodeAll_cons, List.length_append, Nat.add_assoc]
    rfl

/-- An identifier is found in the first sequence or else in the second. -/
theorem locate_append (offset : ℕ) (rs rs' : List PackRecord) (id : ObjectId) :
    locate hash name offset (rs ++ rs') id =
      (locate hash name offset rs id).or
        (locate hash name (offset + (encodeAll hash rs).length) rs' id) := by
  unfold locate
  rw [rowsOf_append, List.find?_append, Option.map_or]

/-- Rows of a sequence of records lie in the pack, inside the sequence. -/
theorem mem_rowsOf {offset : ℕ} {rs : List PackRecord} {p : ObjectId × ObjectLocation}
    (h : p ∈ rowsOf hash name offset rs) :
    p.2.pack = name ∧ offset + headerLen ≤ p.2.offset ∧
      p.2.recordEnd ≤ offset + (encodeAll hash rs).length := by
  induction rs generalizing offset with
  | nil => exact absurd h List.not_mem_nil
  | cons r rs ih =>
    rw [encodeAll_cons, List.length_append, length_encode]
    rcases List.mem_cons.mp h with rfl | h
    · refine ⟨rfl, Nat.le_refl _, ?_⟩
      simp only [ObjectLocation.recordEnd, PackRecord.location]
      omega
    · obtain ⟨hpack, hoffset, hend⟩ := ih h
      rw [length_encode] at hoffset hend
      exact ⟨hpack, by omega, by omega⟩

/-- What is located is a row. -/
theorem mem_rowsOf_of_locate {offset : ℕ} {rs : List PackRecord} {id : ObjectId}
    {l : ObjectLocation} (h : locate hash name offset rs id = some l) :
    (id, l) ∈ rowsOf hash name offset rs := by
  obtain ⟨p, hp, rfl⟩ := Option.map_eq_some_iff.mp h
  have hid : p.1 = id := by simpa using List.find?_some hp
  rw [← hid]
  exact List.mem_of_find?_eq_some hp

/-- The identifiers of the rows are those of the records. -/
theorem map_fst_rowsOf (offset : ℕ) (rs : List PackRecord) :
    (rowsOf hash name offset rs).map Prod.fst = rs.map (PackRecord.id hash) := by
  induction rs generalizing offset with
  | nil => rfl
  | cons r rs ih => rw [rowsOf, List.map_cons, List.map_cons, ih]

/-- With distinct identifiers every record is the first with its own. -/
theorem locate_eq_some_iff {offset : ℕ} {rs : List PackRecord}
    (hnodup : (rs.map (PackRecord.id hash)).Nodup) {id : ObjectId} {l : ObjectLocation} :
    locate hash name offset rs id = some l ↔ (id, l) ∈ rowsOf hash name offset rs := by
  refine ⟨mem_rowsOf_of_locate hash name, fun h => ?_⟩
  induction rs generalizing offset with
  | nil => exact absurd h List.not_mem_nil
  | cons r rs ih =>
    rw [List.map_cons, List.nodup_cons] at hnodup
    rw [locate_cons]
    rcases List.mem_cons.mp h with h | h
    · rw [(Prod.mk.inj h).1, (Prod.mk.inj h).2, if_pos rfl]
    · have hmem : id ∈ rs.map (PackRecord.id hash) := by
        rw [← map_fst_rowsOf hash name (offset + (r.encode hash).length)]
        exact List.mem_map_of_mem h
      have hne : id ≠ r.id hash := fun he => hnodup.1 (he ▸ hmem)
      rw [if_neg hne, ih hnodup.2 h]

/-- Where a scan stands after a sequence of records. -/
theorem verifiedLen_foldl (scan : PackCheckpoint) (rs : List PackRecord) :
    (rs.foldl (fun scan r => scan.advance hash r) scan).verifiedLen =
      scan.verifiedLen + (encodeAll hash rs).length := by
  induction rs generalizing scan with
  | nil => rfl
  | cons r rs ih =>
    rw [List.foldl_cons, ih, encodeAll_cons, List.length_append]
    show scan.verifiedLen + (r.encode hash).length + (encodeAll hash rs).length = _
    omega

/-- How many records a scan counts. -/
theorem objectCount_foldl (scan : PackCheckpoint) (rs : List PackRecord) :
    (rs.foldl (fun scan r => scan.advance hash r) scan).objectCount =
      scan.objectCount + rs.length := by
  induction rs generalizing scan with
  | nil => rfl
  | cons r rs ih =>
    rw [List.foldl_cons, ih, List.length_cons]
    show scan.objectCount + 1 + rs.length = _
    omega

/-- The checkpoint is at the end of the records. -/
theorem verifiedLen_checkpointOf (rs : List PackRecord) :
    (checkpointOf hash rs).verifiedLen = (encodeAll hash rs).length := by
  rw [checkpointOf, verifiedLen_foldl]
  simp [PackCheckpoint.zero]

/-- The checkpoint counts the records. -/
theorem objectCount_checkpointOf (rs : List PackRecord) :
    (checkpointOf hash rs).objectCount = rs.length := by
  rw [checkpointOf, objectCount_foldl]
  simp [PackCheckpoint.zero]

/-- A checkpoint of more records. -/
theorem checkpointOf_append (rs rs' : List PackRecord) :
    checkpointOf hash (rs ++ rs') =
      rs'.foldl (fun scan r => scan.advance hash r) (checkpointOf hash rs) := by
  rw [checkpointOf, List.foldl_append]
  rfl

/-! ## The frontier is never cut -/

/-- Cutting the tail keeps everything below the frontier, and an error keeps everything. -/
theorem truncatePackTail_pack (recordStart : ℕ) (s : PackState R) :
    (truncatePackTail durableLen name recordStart s).2.pack = s.pack ∨
      ((truncatePackTail durableLen name recordStart s).1 = .ok () ∧
        (truncatePackTail durableLen name recordStart s).2.pack = s.pack.take recordStart ∧
        ∀ d, durableLen = some d → d ≤ recordStart) := by
  unfold truncatePackTail
  split_ifs with h
  · exact Or.inl rfl
  · refine Or.inr ⟨rfl, rfl, fun d hd => ?_⟩
    rw [hd] at h
    simpa using h

/-- Stopping keeps everything below the frontier, and an error keeps everything. -/
theorem stopAt_pack (fault : ReadFault PackError) (scan : PackCheckpoint) (s : PackState R) :
    (stopAt durableLen name fault scan s).2.pack = s.pack ∨
      ((stopAt durableLen name fault scan s).1 = .ok scan ∧
        (stopAt durableLen name fault scan s).2.pack = s.pack.take scan.verifiedLen ∧
        ∀ d, durableLen = some d → d ≤ scan.verifiedLen) := by
  unfold stopAt
  split
  · exact Or.inl rfl
  · rcases truncatePackTail_pack durableLen name scan.verifiedLen s with hcut | ⟨hok, hpack, hle⟩
    · exact Or.inl hcut
    · exact Or.inr ⟨by simp [hok, Except.map], hpack, hle⟩

/-- The end of the scan keeps everything below the frontier, and an error keeps everything. -/
theorem scanEnd_pack (rest : Bytes) (scan : PackCheckpoint) (s : PackState R) :
    (scanEnd hash durableLen name rest scan s).2.pack = s.pack ∨
      ((scanEnd hash durableLen name rest scan s).1 = .ok scan ∧
        (scanEnd hash durableLen name rest scan s).2.pack = s.pack.take scan.verifiedLen ∧
        ∀ d, durableLen = some d → d ≤ scan.verifiedLen) := by
  unfold scanEnd
  split_ifs with hempty
  · exact Or.inl rfl
  · split
    · exact stopAt_pack durableLen name _ scan s
    · exact Or.inl rfl

/-- Forgetting the capture caches leaves the pack. -/
@[simp] theorem forgetLost_pack (s : PackState R) : (forgetLost name s).pack = s.pack := by
  unfold forgetLost
  split <;> rfl

/-- Finishing a scan does not touch the pack. -/
theorem finishScan_pack (start : PackCheckpoint)
    (x : Except PackError PackCheckpoint × PackState R) :
    (finishScan name start x).2.pack = x.2.pack := by
  obtain ⟨result, s⟩ := x
  cases result with
  | error e => rfl
  | ok scan =>
    simp only [finishScan]
    split <;> rfl

/-- Finishing a scan that succeeded succeeds. -/
theorem finishScan_ok (start : PackCheckpoint)
    {x : Except PackError PackCheckpoint × PackState R} {scan : PackCheckpoint}
    (h : x.1 = .ok scan) : (finishScan name start x).1 = .ok () := by
  obtain ⟨result, s⟩ := x
  simp only at h
  subst h
  simp only [finishScan]
  split <;> rfl

/-- Recovery in terms of the valid records from the start of the scan on. -/
theorem recoverPack_eq (s : PackState R) (h : ∀ d, durableLen = some d → d ≤ s.pack.length) :
    recoverPackUnderCatalogLock hash durableLen name s =
      let s := forgetLost name s
      let start := (trustedCheckpoint durableLen name s).getD .zero
      let rest := s.pack.drop start.verifiedLen
      finishScan name start (scanEnd hash durableLen name (scanRest hash rest)
        ((validRecords hash rest).foldl (fun scan r => scan.advance hash r) start)
        ⟨s.pack, insertAll hash name start.verifiedLen (validRecords hash rest)
          (prepareScan durableLen name s).catalog⟩) := by
  have hlost :
      (durableLen.any fun len => decide ((forgetLost name s).pack.length < len)) = false := by
    cases hd : durableLen with
    | none => rfl
    | some d => simpa using h d hd
  unfold recoverPackUnderCatalogLock
  simp only [hlost, Bool.false_eq_true, if_false]
  rw [scanLoop_eq hash durableLen name (by simp)]
  rfl

/-- **Recovery never cuts below the frontier.**  Either the pack stays as it is, or recovery
succeeds with a prefix of it that is at least as long as the frontier. -/
theorem recoverPack_keeps_frontier (s : PackState R) :
    (recoverPackUnderCatalogLock hash durableLen name s).2.pack = s.pack ∨
      ((recoverPackUnderCatalogLock hash durableLen name s).1 = .ok () ∧
        ∃ n, (recoverPackUnderCatalogLock hash durableLen name s).2.pack = s.pack.take n ∧
          ∀ d, durableLen = some d → d ≤ n) := by
  by_cases hlost : ∀ d, durableLen = some d → d ≤ s.pack.length
  · rw [recoverPack_eq hash durableLen name s hlost]
    simp only [finishScan_pack, forgetLost_pack]
    generalize ((trustedCheckpoint durableLen name (forgetLost name s)).getD .zero) = start
    rcases scanEnd_pack hash durableLen name (scanRest hash (s.pack.drop start.verifiedLen))
      ((validRecords hash (s.pack.drop start.verifiedLen)).foldl
        (fun scan r => scan.advance hash r) start)
      ⟨s.pack, insertAll hash name start.verifiedLen
        (validRecords hash (s.pack.drop start.verifiedLen))
        (prepareScan durableLen name (forgetLost name s)).catalog⟩ with h | ⟨hok, hpack, hle⟩
    · exact Or.inl h
    · exact Or.inr ⟨finishScan_ok name start hok, _, hpack, hle⟩
  · left
    simp only [not_forall, Nat.not_le] at hlost
    obtain ⟨d, hd, hlt⟩ := hlost
    unfold recoverPackUnderCatalogLock
    simp [hd, hlt]

/-! ## Exactness -/

/-- The row of another pack that an identifier has. -/
def Catalog.elsewhere (c : Catalog R) (id : ObjectId) : Option ObjectLocation :=
  (c.object id).filter fun l => l.pack ≠ name

/-- A catalog whose checkpoint, if the pack has one, is that of a prefix of the records, and
whose rows that end by it are exactly the rows of that prefix.  (An identifier with a row in
another pack has no second one.) -/
def CheckpointFits (rs : List PackRecord) (c : Catalog R) : Prop :=
  ∀ k, c.packCheckpoint name = some k → ∃ rs₁ rs₂, rs = rs₁ ++ rs₂ ∧ k = checkpointOf hash rs₁ ∧
    ∀ id l, l.pack = name → l.recordEnd ≤ k.verifiedLen →
      (c.object id = some l ↔ c.elsewhere name id = none ∧ locate hash name 0 rs₁ id = some l)

/-- The index after a recovery: rows of other packs stay, every other identifier of a record
has the location of its first record, and the checkpoint is that of the records. -/
structure Recovered (rs : List PackRecord) (before after : Catalog R) : Prop where
  objects : ∀ id, after.object id =
    (before.elsewhere name id).or (locate hash name 0 rs id)
  checkpoint : after.packCheckpoint name = some (checkpointOf hash rs) ∨
    (after.packCheckpoint name = none ∧ rs = [])
  others : ∀ p, p ≠ name → after.packCheckpoint p = before.packCheckpoint p

/-- Forgetting the capture caches leaves the objects. -/
@[simp] theorem forgetLost_object (s : PackState R) (id : ObjectId) :
    (forgetLost name s).catalog.object id = s.catalog.object id := by
  unfold forgetLost
  split <;> rfl

/-- Forgetting the capture caches leaves the checkpoints. -/
@[simp] theorem forgetLost_checkpoints (s : PackState R) :
    (forgetLost name s).catalog.checkpoints = s.catalog.checkpoints := by
  unfold forgetLost
  split <;> rfl

/-- A trusted checkpoint is the one of the catalog, and every row ends by it. -/
theorem trustedCheckpoint_eq_some {s : PackState R} {k : PackCheckpoint}
    (h : trustedCheckpoint durableLen name s = some k) :
    s.catalog.packCheckpoint name = some k ∧
      ∀ id l, s.catalog.object id = some l → l.pack = name → l.recordEnd ≤ k.verifiedLen := by
  unfold trustedCheckpoint at h
  rw [Option.filter_eq_some_iff, Option.filter_eq_some_iff] at h
  obtain ⟨⟨hk, -⟩, hvalid⟩ := h
  refine ⟨hk, fun id l hl hpack => ?_⟩
  unfold validateCheckpoint at hvalid
  split_ifs at hvalid with hbad
  · rw [not_or, Nat.not_lt, Nat.not_lt] at hbad
    exact Catalog.packHighWater_le_iff.mp hbad.2 l (Catalog.mem_packRows.mpr ⟨hpack, id, hl⟩)
  · rw [not_or, Nat.not_lt, Nat.not_lt] at hbad
    exact Catalog.packHighWater_le_iff.mp hbad.2 l (Catalog.mem_packRows.mpr ⟨hpack, id, hl⟩)

/-- Where the scan starts and what the index holds then. -/
theorem prepareScan_spec {rs : List PackRecord} {s : PackState R}
    (hfits : CheckpointFits hash name rs s.catalog) :
    ∃ rs₁ rs₂, rs = rs₁ ++ rs₂ ∧
      (trustedCheckpoint durableLen name s).getD .zero = checkpointOf hash rs₁ ∧
      (∀ id, (prepareScan durableLen name s).catalog.object id =
        (s.catalog.elsewhere name id).or (locate hash name 0 rs₁ id)) ∧
      (trustedCheckpoint durableLen name s = some (checkpointOf hash rs₁) ∨
        (trustedCheckpoint durableLen name s = none ∧ rs₁ = [])) ∧
      (prepareScan durableLen name s).catalog.packCheckpoint name =
        trustedCheckpoint durableLen name s ∧
      ∀ p, p ≠ name →
        (prepareScan durableLen name s).catalog.packCheckpoint p = s.catalog.packCheckpoint p := by
  cases htrusted : trustedCheckpoint durableLen name s with
  | none =>
    refine ⟨[], rs, rfl, rfl, fun id => ?_, Or.inr ⟨rfl, rfl⟩, ?_, fun p hp => ?_⟩
    · unfold prepareScan Catalog.elsewhere
      simp only [htrusted, Option.isSome_none, Bool.false_eq_true, if_false,
        Catalog.object_deletePackObjectsFrom, Catalog.object_resetPackIndex]
      cases hl : s.catalog.object id with
      | none => rfl
      | some l => by_cases hp : l.pack = name <;> simp [Option.filter_some, hp, locate, rowsOf]
    · simp [prepareScan, htrusted, Catalog.deletePackObjectsFrom, Catalog.packCheckpoint,
        Catalog.resetPackIndex, OrdMap.get?_erase]
    · simp [prepareScan, htrusted, Catalog.deletePackObjectsFrom, Catalog.packCheckpoint,
        Catalog.resetPackIndex, OrdMap.get?_erase, hp]
  | some k =>
    obtain ⟨hk, hend⟩ := trustedCheckpoint_eq_some durableLen name htrusted
    obtain ⟨rs₁, rs₂, hrs, rfl, hrows⟩ := hfits k hk
    refine ⟨rs₁, rs₂, hrs, rfl, fun id => ?_, Or.inl rfl, ?_, fun p hp => ?_⟩
    · unfold Catalog.elsewhere at hrows
      unfold prepareScan Catalog.elsewhere
      simp only [htrusted, Option.isSome_some, if_true, Catalog.object_deletePackObjectsFrom,
        Option.getD_some]
      cases hl : s.catalog.object id with
      | none =>
        -- a record of the prefix would have a row
        cases hloc : locate hash name 0 rs₁ id with
        | none => rfl
        | some l =>
          obtain ⟨hpack, -, hle⟩ := mem_rowsOf hash name (mem_rowsOf_of_locate hash name hloc)
          rw [verifiedLen_checkpointOf] at hrows
          have hrow := (hrows id l hpack (by simpa using hle)).mpr ⟨by rw [hl]; rfl, hloc⟩
          rw [hl] at hrow
          exact absurd hrow (by simp)
      | some l =>
        by_cases hp : l.pack = name
        · have hle := hend id l hl hp
          have hloc := ((hrows id l hp hle).mp hl).2
          have hbefore : ¬ (checkpointOf hash rs₁).verifiedLen + headerLen ≤ l.offset := by
            unfold ObjectLocation.recordEnd at hle
            omega
          simp [Option.filter_some, hp, hloc, hbefore]
        · simp [Option.filter_some, hp]
    · simpa [prepareScan, htrusted, Catalog.deletePackObjectsFrom, Catalog.packCheckpoint] using hk
    · simp [prepareScan, htrusted, Catalog.deletePackObjectsFrom, Catalog.packCheckpoint]

/-- A tail at `n` that recovery may drop: the frontier does not reach into it, and it is
nothing, or a cut-off record, or anything at all if there is a frontier. -/
structure DroppableTail (n : ℕ) (rest : Bytes) : Prop where
  behind : ∀ d, durableLen = some d → d ≤ n
  tail : rest = [] ∨ readRecord hash rest = .error .short ∨ durableLen.isSome

/-- Cutting the tail off behind the frontier. -/
theorem truncatePackTail_of_behind {n : ℕ} (h : ∀ d, durableLen = some d → d ≤ n)
    (s : PackState R) :
    truncatePackTail durableLen name n s =
      (.ok (), ⟨s.pack.take n,
        s.catalog.forgetCaptureCaches.deletePackObjectsFrom name (n + headerLen)⟩) := by
  unfold truncatePackTail
  rw [if_neg]
  cases hd : durableLen with
  | none => simp
  | some d => simpa using h d hd

/-- The catalog after the scan has dropped a tail, if there was one. -/
def dropTail (n : ℕ) (rest : Bytes) (c : Catalog R) : Catalog R :=
  if rest = [] then c else c.forgetCaptureCaches.deletePackObjectsFrom name (n + headerLen)

/-- At a tail it may drop, the scan succeeds and cuts the tail off. -/
theorem scanEnd_of_droppable {rest : Bytes} {scan : PackCheckpoint} {s : PackState R}
    {e : ReadFault PackError} (hrest : readRecord hash rest = .error e)
    (h : DroppableTail hash durableLen scan.verifiedLen rest)
    (hpack : s.pack = s.pack.take scan.verifiedLen ++ rest) :
    scanEnd hash durableLen name rest scan s =
      (.ok scan, ⟨s.pack.take scan.verifiedLen,
        dropTail name scan.verifiedLen rest s.catalog⟩) := by
  unfold scanEnd dropTail
  by_cases hnil : rest = []
  · subst hnil
    rw [List.append_nil] at hpack
    rw [if_pos List.isEmpty_nil, if_pos rfl, ← hpack]
  · have hne : rest.isEmpty = false := by simpa using hnil
    simp only [hne, Bool.false_eq_true, if_false, hrest, hnil]
    unfold stopAt
    split
    · -- an invalid record is an error only without a frontier
      rename_i error hany
      rcases h.tail with h' | h' | h'
      · exact absurd h' hnil
      · rw [hrest] at h'
        simp at h'
      · obtain ⟨d, hd⟩ := Option.isSome_iff_exists.mp h'
        have hle := h.behind d hd
        simp [hd, hle] at hany
    · rw [truncatePackTail_of_behind durableLen name h.behind]
      rfl

/-- Dropping the tail drops no row of a record before it. -/
theorem object_dropTail {n : ℕ} {rest : Bytes} {c : Catalog R}
    (h : ∀ id l, c.object id = some l → l.pack = name → l.recordEnd ≤ n) (id : ObjectId) :
    (dropTail name n rest c).object id = c.object id := by
  unfold dropTail
  split_ifs
  · rfl
  · rw [Catalog.object_deletePackObjectsFrom]
    change (c.object id).filter _ = c.object id
    cases hl : c.object id with
    | none => rfl
    | some l =>
      by_cases hp : l.pack = name
      · have hle := h id l hl hp
        have hlt : ¬ n + headerLen ≤ l.offset := by
          unfold ObjectLocation.recordEnd at hle
          omega
        simp [Option.filter_some, hlt]
      · simp [Option.filter_some, hp]

/-- Dropping a tail leaves the checkpoints. -/
theorem checkpoints_dropTail (n : ℕ) (rest : Bytes) (c : Catalog R) :
    (dropTail name n rest c).checkpoints = c.checkpoints := by
  unfold dropTail
  split <;> rfl

/-- Caches are emptied if a tail is dropped. -/
theorem caches_dropTail (n : ℕ) (rest : Bytes) (c : Catalog R) :
    (dropTail name n rest c).caches = if rest = [] then c.caches else [] := by
  unfold dropTail
  split <;> rfl

/-- The start of a scan leaves the caches. -/
@[simp] theorem caches_prepareScan (s : PackState R) :
    (prepareScan durableLen name s).catalog.caches = s.catalog.caches := by
  simp only [prepareScan, Catalog.deletePackObjectsFrom]
  split <;> rfl

/-- The sequences of records with the same length are the empty extension. -/
theorem length_encodeAll_append_eq_iff (rs rs' : List PackRecord) :
    (encodeAll hash (rs ++ rs')).length = (encodeAll hash rs).length ↔ rs' = [] := by
  rw [encodeAll_append, List.length_append]
  cases rs' with
  | nil => simp
  | cons r rs' =>
    simp only [encodeAll_cons, List.length_append, length_encode, reduceCtorEq, iff_false]
    omega

/-- Rows of a rebuilt index end inside the records. -/
theorem recordEnd_le_of_rebuilt {rs : List PackRecord} {before after : Catalog R}
    (h : ∀ id, after.object id =
      (before.elsewhere name id).or (locate hash name 0 rs id))
    {id : ObjectId} {l : ObjectLocation} (hl : after.object id = some l) (hp : l.pack = name) :
    l.recordEnd ≤ (encodeAll hash rs).length := by
  rw [h, Option.or_eq_some_iff] at hl
  rcases hl with hl | ⟨-, hl⟩
  · rw [Catalog.elsewhere, Option.filter_eq_some_iff] at hl
    exact absurd hp (by simpa using hl.2)
  · simpa using (mem_rowsOf hash name (mem_rowsOf_of_locate hash name hl)).2.2

/-- What recovery does to the capture caches. -/
def recoveredCaches (s : PackState R) (rest : Bytes) : List R :=
  if s.pack.length < s.catalog.packHighWater name ∨ rest ≠ [] then [] else s.catalog.caches

/-- The catalog after a scan that started behind the records `rs₁`, read `rs₂` and dropped
`rest`. -/
def scannedCatalog (s : PackState R) (rs₁ rs₂ : List PackRecord) (rest : Bytes) : Catalog R :=
  dropTail name (encodeAll hash (rs₁ ++ rs₂)).length rest
    (insertAll hash name (encodeAll hash rs₁).length rs₂
      (prepareScan durableLen name (forgetLost name s)).catalog)

/-- The rows after the scan. -/
theorem object_scannedCatalog {s : PackState R} {rs₁ : List PackRecord}
    (h : ∀ id, (prepareScan durableLen name (forgetLost name s)).catalog.object id =
      (s.catalog.elsewhere name id).or (locate hash name 0 rs₁ id))
    (rs₂ : List PackRecord) (rest : Bytes) (id : ObjectId) :
    (scannedCatalog hash durableLen name s rs₁ rs₂ rest).object id =
      (s.catalog.elsewhere name id).or
        (locate hash name 0 (rs₁ ++ rs₂) id) := by
  have hrows : ∀ id, (insertAll hash name (encodeAll hash rs₁).length rs₂
      (prepareScan durableLen name (forgetLost name s)).catalog).object id =
      (s.catalog.elsewhere name id).or
        (locate hash name 0 (rs₁ ++ rs₂) id) := by
    intro id
    rw [object_insertAll, h, locate_append, Option.or_assoc, Nat.zero_add]
  unfold scannedCatalog
  rw [object_dropTail, hrows]
  intro id l hl hp
  exact recordEnd_le_of_rebuilt hash name hrows hl hp

/-- The scan leaves the checkpoint for last. -/
theorem packCheckpoint_scannedCatalog (s : PackState R) (rs₁ rs₂ : List PackRecord) (rest : Bytes)
    (p : PackName) : (scannedCatalog hash durableLen name s rs₁ rs₂ rest).packCheckpoint p =
      (prepareScan durableLen name (forgetLost name s)).catalog.packCheckpoint p := by
  unfold scannedCatalog Catalog.packCheckpoint
  rw [checkpoints_dropTail, checkpoints_insertAll]

/-- The caches after a scan. -/
theorem caches_scannedCatalog (s : PackState R) (rs₁ rs₂ : List PackRecord) (rest : Bytes) :
    (scannedCatalog hash durableLen name s rs₁ rs₂ rest).caches = recoveredCaches name s rest := by
  unfold scannedCatalog recoveredCaches
  rw [caches_dropTail, caches_insertAll, caches_prepareScan]
  unfold forgetLost
  by_cases hlost : s.pack.length < s.catalog.packHighWater name <;> by_cases hnil : rest = [] <;>
    simp [hlost, hnil, Catalog.forgetCaptureCaches]

/-- **Recovery on a pack with a droppable tail.**  The pack is cut to its valid records, and
the index is rebuilt from them.

**Proof sketch.** The scan starts after a prefix `rs₁` of the records whose rows are there
(`prepareScan_spec`), inserts the remaining valid records and stops at the tail.  Looking an
identifier up first in the rows of `rs₁` and then among the later records is looking it up
among all of them (`object_scannedCatalog`). -/
theorem recoverPack_droppable {rs : List PackRecord} {tail : Bytes} {s : PackState R}
    (hpack : s.pack = encodeAll hash rs ++ tail) (hfits : CheckpointFits hash name rs s.catalog)
    (htail : DroppableTail hash durableLen
      (encodeAll hash (rs ++ validRecords hash tail)).length (scanRest hash tail)) :
    ∃ c, recoverPackUnderCatalogLock hash durableLen name s =
        (.ok (), ⟨encodeAll hash (rs ++ validRecords hash tail), c⟩) ∧
      Recovered hash name (rs ++ validRecords hash tail) s.catalog c ∧
      c.caches = recoveredCaches name s (scanRest hash tail) ∧
      (rs ++ validRecords hash tail = [] →
        c.packCheckpoint name = trustedCheckpoint durableLen name (forgetLost name s)) := by
  obtain ⟨htailEq, e, he⟩ := scanRest_spec hash tail
  have hsplit : s.pack = encodeAll hash (rs ++ validRecords hash tail) ++ scanRest hash tail := by
    rw [hpack, encodeAll_append, List.append_assoc, ← htailEq]
  have hlen : ∀ d, durableLen = some d → d ≤ s.pack.length := by
    intro d hd
    have := htail.behind d hd
    rw [hsplit, List.length_append]
    omega
  have hfits' : CheckpointFits hash name rs (forgetLost name s).catalog := by
    intro k hk
    rw [Catalog.packCheckpoint, forgetLost_checkpoints] at hk
    simpa [Catalog.elsewhere] using hfits k hk
  obtain ⟨rs₁, rs₂, rfl, hstart, hobjects, htrusted, hcheckpoint, hothers⟩ :=
    prepareScan_spec hash durableLen name hfits'
  simp only [Catalog.elsewhere, forgetLost_object] at hobjects
  have hdrop : s.pack.drop (encodeAll hash rs₁).length = encodeAll hash rs₂ ++ tail := by
    rw [hpack, encodeAll_append, List.append_assoc, List.drop_left]
  have htake : s.pack.take (encodeAll hash (rs₁ ++ rs₂ ++ validRecords hash tail)).length =
      encodeAll hash (rs₁ ++ rs₂ ++ validRecords hash tail) := by
    rw [hsplit, List.take_left]
  have hrun : recoverPackUnderCatalogLock hash durableLen name s =
      finishScan name (checkpointOf hash rs₁)
        (.ok (checkpointOf hash (rs₁ ++ rs₂ ++ validRecords hash tail)),
          ⟨encodeAll hash (rs₁ ++ rs₂ ++ validRecords hash tail),
            scannedCatalog hash durableLen name s rs₁ (rs₂ ++ validRecords hash tail)
              (scanRest hash tail)⟩) := by
    rw [recoverPack_eq hash durableLen name s hlen]
    simp only [forgetLost_pack, hstart, verifiedLen_checkpointOf, hdrop, validRecords_encodeAll,
      scanRest_encodeAll, ← checkpointOf_append]
    rw [scanEnd_of_droppable hash durableLen name he (by
        rwa [verifiedLen_checkpointOf, ← List.append_assoc])
      (by simp only [verifiedLen_checkpointOf, ← List.append_assoc]; rw [htake, ← hsplit])]
    simp only [verifiedLen_checkpointOf, ← List.append_assoc, htake, scannedCatalog]
  have hobjects' := object_scannedCatalog hash durableLen name hobjects
    (rs₂ ++ validRecords hash tail) (scanRest hash tail)
  have hothers' : ∀ p, p ≠ name → (scannedCatalog hash durableLen name s rs₁
      (rs₂ ++ validRecords hash tail) (scanRest hash tail)).packCheckpoint p =
        s.catalog.packCheckpoint p := by
    intro p hp
    rw [packCheckpoint_scannedCatalog, hothers p hp, Catalog.packCheckpoint,
      forgetLost_checkpoints, Catalog.packCheckpoint]
  have hcaches' := caches_scannedCatalog hash durableLen name s rs₁
    (rs₂ ++ validRecords hash tail) (scanRest hash tail)
  rw [hrun]
  simp only [finishScan, verifiedLen_checkpointOf, List.append_assoc,
    length_encodeAll_append_eq_iff]
  split_ifs with hnone
  · -- nothing was read: the checkpoint stays
    have hstays : (scannedCatalog hash durableLen name s rs₁ (rs₂ ++ validRecords hash tail)
        (scanRest hash tail)).packCheckpoint name =
          trustedCheckpoint durableLen name (forgetLost name s) := by
      rw [packCheckpoint_scannedCatalog, hcheckpoint]
    refine ⟨_, rfl, ⟨hobjects', ?_, hothers'⟩, hcaches', fun _ => hstays⟩
    rw [hstays, hnone, List.append_nil]
    exact htrusted
  · refine ⟨_, rfl, ⟨hobjects', Or.inl (Catalog.packCheckpoint_setPackCheckpoint _ _ _), ?_⟩,
      hcaches', fun hall => absurd (List.append_eq_nil_iff.mp hall).2 hnone⟩
    intro p hp
    rw [← hothers' p hp]
    simp [Catalog.setPackCheckpoint, Catalog.packCheckpoint, OrdMap.get?_insert, hp]

end

end Furrow
