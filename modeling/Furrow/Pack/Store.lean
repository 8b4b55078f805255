import Furrow.Lib.Fallible
import Furrow.Pack.Exact

set_option relaxedAutoImplicit false
set_option autoImplicit false

/-!
# Writing objects and verifying the index

The writing side of `store.rs` on the active pack: `put_bytes`, the transaction of the catalog
around it, `batched` captures with their checkpoint, `sync`, and `verify_index`.

A transaction that rolls back takes the rows back and nothing else: the records it appended, the
run of appended records and the known end of the pack stay.  Failures of the file system and of
the database are inputs of the operations.

## Main definitions

* `Furrow.Store` — what one process knows and what is on disk.
* `Furrow.putBytesLocked`, `Furrow.batched`, `Furrow.sync`, `Furrow.verifyIndex` — the operations.
* `Furrow.StoreStep`, `Furrow.runSteps` — runs of the store.

## Main results

* `Furrow.Sound.runSteps` — along a run that writes no object twice, the pack is a sequence of
  records with distinct identifiers and the index describes some of them.
* `Furrow.verifyIndex_converges` — after such a run one verification restores agreement.
-/

namespace Furrow

/-- Contiguous records appended by this process and not yet checkpointed. -/
structure AppendRun where
  pack : PackName
  start : ℕ
  end_ : ℕ
  objects : ℕ
  lastObject : ObjectId
  lastRecordStart : ℕ
deriving DecidableEq

namespace AppendRun

/-- The run with one more record, or a new run if the record does not follow it
(`AppendRun::then`). -/
def thenRecord (run : Option AppendRun) (pack : PackName) (id : ObjectId) (start end_ : ℕ) :
    AppendRun :=
  match run.filter fun run => run.pack = pack ∧ run.end_ = start with
  | some run =>
    { run with
      end_ := end_
      objects := run.objects + 1
      lastObject := id
      lastRecordStart := start }
  | none => ⟨pack, start, end_, 1, id, start⟩

/-- The checkpoint after the run, if it continues the given one. -/
def extend (run : AppendRun) (checkpoint : PackCheckpoint) : Option PackCheckpoint :=
  if checkpoint.verifiedLen = run.start then
    some ⟨run.end_, checkpoint.objectCount + run.objects, some run.lastObject, run.lastRecordStart⟩
  else none

end AppendRun

/-- The store of one process: the active pack file, if there is one, the catalog as the process
sees it and as it was when a transaction began, what the process remembers of its appends, and
the durable length of the pack, if a frontier was published. -/
structure Store (R : Type) where
  pack : Option Bytes
  catalog : Catalog R
  began : Option (Catalog R)
  unsynced : Option AppendRun
  knownEnd : ℕ
  deferred : Bool
  frontier : Option ℕ

namespace Store

variable {R : Type}

/-- A new store. -/
def new : Store R := ⟨none, .empty, none, none, 0, false, none⟩

/-- The bytes of the pack; a missing file has none. -/
def bytes (s : Store R) : Bytes := s.pack.getD []

end Store

/-- What the file system and the database let happen to an append. -/
inductive AppendIo
  /-- All of it is done. -/
  | done
  /-- The write fails after some bytes. -/
  | torn (written : ℕ)
  /-- The record is written and the row is refused. -/
  | unindexed
deriving DecidableEq

/-- What the file system and the database let happen to the end of a transaction: whether the
pack is flushed and whether the commit succeeds. -/
structure SealIo where
  flushed : Bool
  committed : Bool
deriving DecidableEq

/-- An object to write. -/
structure Put where
  kind : ObjectKind
  bytes : Bytes
  io : AppendIo
deriving DecidableEq

/-- What a verification reports. -/
structure IndexCheck where
  objects : ℕ
  repaired : Bool
deriving DecidableEq

section

variable {R : Type} (hash : Bytes → ObjectId) (name : PackName)

/-- `recover_pack_under_catalog_lock` on the store: a missing pack needs nothing. -/
def recoverActivePack : Fallible (Store R) PackError Unit := fun s =>
  match s.pack with
  | none => (.ok (), s)
  | some pack =>
    let recovered := recoverPackUnderCatalogLock hash s.frontier name ⟨pack, s.catalog⟩
    (recovered.1, { s with pack := some recovered.2.pack, catalog := recovered.2.catalog })

/-- Recover first if the pack does not end where this process left it. -/
def settle : Fallible (Store R) PackError Unit :=
  .inspect fun s =>
    if s.bytes.length ≠ s.knownEnd then do
      recoverActivePack hash name
      .update fun s => { s with knownEnd := s.bytes.length }
    else pure ()

/-- Append a record and insert its row. -/
def appendRecord (r : PackRecord) (io : AppendIo) : Fallible (Store R) PackError Unit := fun s =>
  let appended := s.bytes ++ r.encode hash
  let run := AppendRun.thenRecord s.unsynced name (r.id hash) s.bytes.length appended.length
  let written :=
    { s with pack := some appended, knownEnd := appended.length, unsynced := some run }
  match io with
  | .torn n => (.error .failed, { s with pack := some (s.bytes ++ (r.encode hash).take n) })
  | .unindexed => (.error .failed, written)
  | .done =>
    (.ok (), { written with
      catalog := s.catalog.insertObject (r.id hash) (r.location name s.bytes.length) })

/-- `put_bytes_locked`: an object that has a row is not written again. -/
def putBytesLocked (p : Put) : Fallible (Store R) PackError Unit :=
  match PackRecord.ofPayload p.kind p.bytes with
  | none => .fail .objectTooLong
  | some r =>
    .inspect fun s =>
      if (s.catalog.object (r.id hash)).isSome then pure ()
      else do
        settle hash name
        .inspect fun s =>
          if (s.catalog.object (r.id hash)).isSome then pure () else appendRecord hash name r p.io

/-- Take the catalog back to where the transaction began. -/
def Store.rollback (s : Store R) : Store R :=
  { s with catalog := s.began.getD s.catalog, began := none }

/-- Run a write as one transaction of the catalog; inside an open one it simply runs
(`Catalog::batch`). -/
def batch {α : Type} (committed : Bool) (write : Fallible (Store R) PackError α) :
    Fallible (Store R) PackError α := fun s =>
  if s.began.isSome then write s
  else
    match write { s with began := some s.catalog } with
    | (.ok a, s) =>
      if committed then (.ok a, { s with began := none }) else (.error .failed, s.rollback)
    | (.error e, s) => (.error e, s.rollback)

/-- `put_bytes` -/
def putBytes (committed : Bool) (p : Put) : Fallible (Store R) PackError Unit :=
  batch committed (putBytesLocked hash name p)

/-- Record a run as verified, if it continues the checkpoint (`advance_checkpoint`). -/
def advanceCheckpoint (run : AppendRun) (s : Store R) : Store R :=
  match run.extend ((s.catalog.packCheckpoint run.pack).getD .zero) with
  | some next => { s with catalog := s.catalog.setPackCheckpoint run.pack next }
  | none => s

/-- Take the run of appended records; it is advanced unless the flush fails first
(`sync_active_pack`). -/
def syncActivePack (flushed : Bool) : Fallible (Store R) PackError Unit := fun s =>
  match s.unsynced with
  | none => (.ok (), s)
  | some run =>
    let taken := { s with unsynced := none }
    if flushed then (.ok (), advanceCheckpoint run taken) else (.error .failed, taken)

/-- `batched`: a capture in one transaction, with the checkpoint moved at its end.  A deferred
one does not flush. -/
def batched (io : SealIo) (write : Fallible (Store R) PackError Unit) :
    Fallible (Store R) PackError Unit :=
  batch io.committed do
    write
    .inspect fun s => syncActivePack (s.deferred || io.flushed)

/-- A capture: the objects it writes, up to the first failure, and whether it fails by itself
after them. -/
def capture (puts : List Put) (fails : Bool) : Fallible (Store R) PackError Unit := do
  Fallible.each (putBytes hash name true) puts
  if fails then .fail .failed else pure ()

/-- `sync`: publish the committed high water as durable, then advance the checkpoint. -/
def sync (io : SealIo) : Fallible (Store R) PackError Unit := fun s =>
  let written := (s.began.getD s.catalog).packHighWater name
  if io.flushed = false ∨ s.bytes.length < written then (.error .failed, s)
  else
    let s := { s with frontier := some written }
    match s.unsynced with
    | none => (.ok (), s)
    | some run =>
      batch io.committed (.update (advanceCheckpoint run)) { s with unsynced := none }

/-- `defer_durability`: the first deferred capture needs a frontier. -/
def deferDurability (io : SealIo) : Fallible (Store R) PackError Unit :=
  .inspect fun s =>
    (if s.frontier.isSome then pure () else sync name io) >>= fun _ =>
      .update fun s => { s with deferred := true }

/-- `resume_durability` -/
def resumeDurability : Fallible (Store R) PackError Unit :=
  .update fun s => { s with deferred := false }

/-- Whether the checkpoint and the rows of the pack agree. -/
def Catalog.agrees (c : Catalog R) : Bool :=
  match c.packCheckpoint name with
  | some checkpoint =>
    c.packPrefixObjectCount name checkpoint.verifiedLen = checkpoint.objectCount ∧
      c.packCrossingObjectCount name checkpoint.verifiedLen = 0
  | none => c.packHighWater name = 0

/-- The transaction of `verify_index`: rebuild the index if it disagrees with its checkpoint, or
if asked to. -/
def checkIndex (deep : Bool) : Fallible (Store R) PackError IndexCheck :=
  .inspect fun before =>
    (if before.catalog.agrees name = false ∨ deep then do
      .update fun s => { s with catalog := s.catalog.resetPackIndex name }
      recoverActivePack hash name
    else pure ()) >>= fun _ =>
    .inspect fun s =>
      pure ⟨((s.catalog.packCheckpoint name).map PackCheckpoint.objectCount).getD 0,
        !before.catalog.agrees name⟩

/-- `verify_index` -/
def verifyIndex (deep : Bool) : Fallible (Store R) PackError IndexCheck :=
  batch true (checkIndex hash name deep)

/-- What can happen to a store. -/
inductive StoreStep
  | put (committed : Bool) (p : Put)
  | capture (io : SealIo) (puts : List Put) (fails : Bool)
  | sync (io : SealIo)
  | defer (io : SealIo)
  | resume
  | verify (deep : Bool)

/-- The operation of a step; what it returns is not kept. -/
def StoreStep.run : StoreStep → Store R → Store R
  | .put committed p, s => (putBytes hash name committed p s).2
  | .capture io puts fails, s => (batched io (Furrow.capture hash name puts fails) s).2
  | .sync io, s => (Furrow.sync name io s).2
  | .defer io, s => (deferDurability name io s).2
  | .resume, s => (resumeDurability s).2
  | .verify deep, s => (verifyIndex hash name deep s).2

/-- A run of the store. -/
def runSteps (steps : List StoreStep) (s : Store R) : Store R :=
  steps.foldl (fun s step => step.run hash name s) s

/-! ## The layout of the pack -/

/-- An index that describes some records: its rows are rows of the records, and its checkpoint
stands at the end of one of them. -/
structure IndexFits (rs : List PackRecord) (c : Catalog R) : Prop where
  rows : ∀ id l, c.object id = some l → (id, l) ∈ rowsOf hash name 0 rs
  checkpoint : ∀ k, c.packCheckpoint name = some k →
    ∃ rs₁, rs₁ <+: rs ∧ k.verifiedLen = (encodeAll hash rs₁).length

/-- The pack of a store: records with distinct identifiers and a proper prefix of one more.  The
index describes some of them, also the one a transaction would roll back to; the frontier, the
known end and the end of the run do not reach into the prefix. -/
structure Layout (rs : List PackRecord) (torn : Bytes) (s : Store R) : Prop where
  pack : s.bytes = encodeAll hash rs ++ torn
  torn : ∃ r q, q ≠ [] ∧ torn ++ q = PackRecord.encode hash r
  distinct : (rs.map (PackRecord.id hash)).Nodup
  frontier : ∀ d, s.frontier = some d → d ≤ (encodeAll hash rs).length
  index : IndexFits hash name rs s.catalog
  saved : ∀ c, s.began = some c → IndexFits hash name rs c
  run : ∀ run, s.unsynced = some run → run.pack = name ∧
    ∃ rs₁, rs₁ <+: rs ∧ run.end_ = (encodeAll hash rs₁).length
  known : s.knownEnd ≤ (encodeAll hash rs).length

/-- A store whose pack has a layout. -/
def Sound (s : Store R) : Prop := ∃ rs torn, Layout hash name rs torn s

/-- Nothing is a proper prefix of a record. -/
theorem nil_torn : ∃ r q, q ≠ [] ∧ [] ++ q = PackRecord.encode hash r := by
  refine ⟨⟨.Chunk, [], Nat.zero_le _⟩, _, ?_, List.nil_append _⟩
  intro h
  have hlen := length_encode hash ⟨.Chunk, [], Nat.zero_le _⟩
  rw [h] at hlen
  simp [headerLen] at hlen

variable {hash name}

/-- Rows of some records are rows of more of them. -/
theorem rowsOf_subset {rs rs' : List PackRecord} (h : rs <+: rs') {p : ObjectId × ObjectLocation}
    (hp : p ∈ rowsOf hash name 0 rs) : p ∈ rowsOf hash name 0 rs' := by
  obtain ⟨more, rfl⟩ := h
  rw [rowsOf_append]
  exact List.mem_append_left _ hp

/-- Fewer records take fewer bytes. -/
theorem length_encodeAll_le {rs rs' : List PackRecord} (h : rs <+: rs') :
    (encodeAll hash rs).length ≤ (encodeAll hash rs').length := by
  obtain ⟨more, rfl⟩ := h
  rw [encodeAll_append, List.length_append]
  exact Nat.le_add_right _ _

/-- An index that describes some records describes more of them. -/
theorem IndexFits.mono {rs rs' : List PackRecord} {c : Catalog R} (h : rs <+: rs')
    (hc : IndexFits hash name rs c) : IndexFits hash name rs' c := by
  refine ⟨fun id l hl => rowsOf_subset h (hc.rows id l hl), fun k hk => ?_⟩
  obtain ⟨rs₁, hrs₁, hlen⟩ := hc.checkpoint k hk
  exact ⟨rs₁, hrs₁.trans h, hlen⟩

/-- The high water of an index ends inside the records. -/
theorem IndexFits.packHighWater_le {rs : List PackRecord} {c : Catalog R}
    (h : IndexFits hash name rs c) : c.packHighWater name ≤ (encodeAll hash rs).length := by
  rw [Catalog.packHighWater_le_iff]
  intro l hl
  obtain ⟨-, id, hid⟩ := Catalog.mem_packRows.mp hl
  simpa using (mem_rowsOf hash name (h.rows id l hid)).2.2

/-- An index with fewer rows and the same or no checkpoint. -/
theorem IndexFits.sub {rs : List PackRecord} {c c' : Catalog R} (h : IndexFits hash name rs c)
    (hrows : ∀ id l, c'.object id = some l → c.object id = some l)
    (hk : c'.packCheckpoint name = c.packCheckpoint name ∨ c'.packCheckpoint name = none) :
    IndexFits hash name rs c' := by
  refine ⟨fun id l hl => h.rows id l (hrows id l hl), fun k hk' => ?_⟩
  rcases hk with hk | hk
  · exact h.checkpoint k (hk ▸ hk')
  · rw [hk] at hk'
    exact absurd hk' (by simp)

/-- An index with a checkpoint moved to the end of a record. -/
theorem IndexFits.setPackCheckpoint {rs rs₁ : List PackRecord} {c : Catalog R}
    (h : IndexFits hash name rs c) (hrs₁ : rs₁ <+: rs) {k : PackCheckpoint}
    (hk : k.verifiedLen = (encodeAll hash rs₁).length) :
    IndexFits hash name rs (c.setPackCheckpoint name k) := by
  refine ⟨fun id l hl => h.rows id l hl, fun k' hk' => ?_⟩
  rw [Catalog.packCheckpoint_setPackCheckpoint] at hk'
  rw [← Option.some.inj hk']
  exact ⟨rs₁, hrs₁, hk⟩

/-- An index with rows of the records from one of them on. -/
theorem IndexFits.insertAll {rs₁ rs₂ : List PackRecord} {c : Catalog R}
    (h : IndexFits hash name (rs₁ ++ rs₂) c) :
    IndexFits hash name (rs₁ ++ rs₂)
      (Furrow.insertAll hash name (encodeAll hash rs₁).length rs₂ c) := by
  refine ⟨fun id l hl => ?_, fun k hk => ?_⟩
  · rw [object_insertAll, Option.or_eq_some_iff] at hl
    rcases hl with hl | ⟨-, hl⟩
    · exact h.rows id l hl
    · rw [rowsOf_append, Nat.zero_add]
      exact List.mem_append_right _ (mem_rowsOf_of_locate hash name hl)
  · rw [Catalog.packCheckpoint, checkpoints_insertAll] at hk
    exact h.checkpoint k hk

/-- What recovery leaves describes the records, if no other pack has rows. -/
theorem Recovered.indexFits {rs : List PackRecord} {before after : Catalog R}
    (h : Recovered hash name rs before after)
    (hbefore : ∀ id l, before.object id = some l → l.pack = name) :
    IndexFits hash name rs after := by
  refine ⟨fun id l hl => ?_, fun k hk => ?_⟩
  · rw [h.objects, Option.or_eq_some_iff] at hl
    rcases hl with hl | ⟨-, hl⟩
    · rw [Catalog.elsewhere, Option.filter_eq_some_iff] at hl
      exact absurd (hbefore id l hl.1) (by simpa using hl.2)
    · exact mem_rowsOf_of_locate hash name hl
  · rcases h.checkpoint with hk' | ⟨hk', -⟩
    · rw [hk] at hk'
      refine ⟨rs, List.prefix_rfl, ?_⟩
      rw [Option.some.inj hk', verifiedLen_checkpointOf]
    · rw [hk] at hk'
      exact absurd hk' (by simp)

/-- The empty catalog fits any records. -/
theorem IndexFits.empty (rs : List PackRecord) :
    IndexFits hash name rs (.empty : Catalog R) :=
  ⟨fun _ _ h => absurd h (by simp [Catalog.object, Catalog.empty]),
    fun _ h => absurd h (by simp [Catalog.packCheckpoint, Catalog.empty])⟩

/-- A new store is sound. -/
theorem sound_new : Sound hash name (.new : Store R) :=
  ⟨[], [], rfl, nil_torn hash, List.nodup_nil, fun _ h => absurd h (by simp [Store.new]),
    .empty _, fun _ h => absurd h (by simp [Store.new]), fun _ h => absurd h (by simp [Store.new]),
    Nat.le_refl 0⟩

/-! ## Recovery on a layout -/

/-- The index a scan starts from describes what the index did. -/
theorem IndexFits.prepareScan {rs : List PackRecord} {s : PackState R}
    (h : IndexFits hash name rs s.catalog) (durableLen : Option ℕ) :
    IndexFits hash name rs (Furrow.prepareScan durableLen name (forgetLost name s)).catalog := by
  refine h.sub (fun id l hl => ?_) ?_
  · unfold Furrow.prepareScan at hl
    simp only [Catalog.object_deletePackObjectsFrom] at hl
    rw [Option.filter_eq_some_iff] at hl
    have hl := hl.1
    split_ifs at hl
    · simpa using hl
    · rw [Catalog.object_resetPackIndex, Option.filter_eq_some_iff] at hl
      simpa using hl.1
  · unfold Furrow.prepareScan
    simp only [Catalog.deletePackObjectsFrom, Catalog.packCheckpoint]
    split_ifs
    · exact Or.inl (by rw [forgetLost_checkpoints])
    · exact Or.inr (Catalog.packCheckpoint_resetPackIndex _ _)

/-- The index after dropping a tail describes what the index did. -/
theorem IndexFits.dropTail {rs : List PackRecord} {c : Catalog R} (h : IndexFits hash name rs c)
    (n : ℕ) (rest : Bytes) : IndexFits hash name rs (Furrow.dropTail name n rest c) := by
  refine h.sub (fun id l hl => ?_) (Or.inl ?_)
  · unfold Furrow.dropTail at hl
    split_ifs at hl
    · exact hl
    · rw [Catalog.object_deletePackObjectsFrom, Option.filter_eq_some_iff] at hl
      exact hl.1
  · rw [Catalog.packCheckpoint, checkpoints_dropTail, Catalog.packCheckpoint]

/-- Recovery starts its scan at the end of a record. -/
theorem IndexFits.start {rs : List PackRecord} {s : PackState R}
    (h : IndexFits hash name rs s.catalog) (durableLen : Option ℕ) :
    ∃ rs₁ rs₂, rs = rs₁ ++ rs₂ ∧
      ((trustedCheckpoint durableLen name (forgetLost name s)).getD .zero).verifiedLen =
        (encodeAll hash rs₁).length := by
  cases htrusted : trustedCheckpoint durableLen name (forgetLost name s) with
  | none => exact ⟨[], rs, rfl, rfl⟩
  | some k =>
    have hk := (trustedCheckpoint_eq_some durableLen name htrusted).1
    rw [Catalog.packCheckpoint, forgetLost_checkpoints] at hk
    obtain ⟨rs₁, ⟨rs₂, hrs⟩, hlen⟩ := h.checkpoint k hk
    exact ⟨rs₁, rs₂, hrs.symm, hlen⟩

/-- **Recovery drops the prefix of a record behind the records** and leaves an index that
describes some of them, whichever of them it described before. -/
theorem recoverPack_torn {rs : List PackRecord} {torn : Bytes} {durableLen : Option ℕ}
    {c : Catalog R} (htorn : ∃ r q, q ≠ [] ∧ torn ++ q = PackRecord.encode hash r)
    (hbehind : ∀ d, durableLen = some d → d ≤ (encodeAll hash rs).length)
    (hc : IndexFits hash name rs c) :
    ∃ c', recoverPackUnderCatalogLock hash durableLen name ⟨encodeAll hash rs ++ torn, c⟩ =
        (.ok (), ⟨encodeAll hash rs, c'⟩) ∧ IndexFits hash name rs c' := by
  obtain ⟨r, q, hq, hr⟩ := htorn
  have hshort := readRecord_short hash hr hq
  obtain ⟨rs₁, rs₂, rfl, hstart⟩ :=
    IndexFits.start (s := ⟨encodeAll hash rs ++ torn, c⟩) hc durableLen
  have hdrop : (encodeAll hash (rs₁ ++ rs₂) ++ torn).drop (encodeAll hash rs₁).length =
      encodeAll hash rs₂ ++ torn := by
    rw [encodeAll_append, List.append_assoc, List.drop_left]
  have hlen : ∀ d, durableLen = some d → d ≤ (encodeAll hash (rs₁ ++ rs₂) ++ torn).length := by
    intro d hd
    have := hbehind d hd
    rw [List.length_append]
    omega
  have hprepared := IndexFits.insertAll (IndexFits.prepareScan
    (s := ⟨encodeAll hash (rs₁ ++ rs₂) ++ torn, c⟩) hc durableLen)
  rw [recoverPack_eq hash durableLen name _ hlen]
  simp only [forgetLost_pack, hstart, hdrop, validRecords_encodeAll, scanRest_encodeAll,
    validRecords_of_error hash hshort, scanRest_of_error hash hshort, List.append_nil]
  generalize trustedCheckpoint durableLen name (forgetLost name
    ⟨encodeAll hash (rs₁ ++ rs₂) ++ torn, c⟩) = trusted at hstart
  have hend : (rs₂.foldl (fun scan r => scan.advance hash r)
      (trusted.getD .zero)).verifiedLen = (encodeAll hash (rs₁ ++ rs₂)).length := by
    rw [verifiedLen_foldl, hstart, encodeAll_append, List.length_append]
  rw [scanEnd_of_droppable hash durableLen name hshort
    (by rw [hend]; exact ⟨hbehind, Or.inr (Or.inl hshort)⟩) (by rw [hend, List.take_left])]
  have hleft := hprepared.dropTail (encodeAll hash (rs₁ ++ rs₂)).length torn
  simp only [finishScan, hend, List.take_left]
  split_ifs
  · exact ⟨_, rfl, hleft⟩
  · exact ⟨_, rfl, hleft.setPackCheckpoint List.prefix_rfl hend⟩

/-- Recovery on a store with a layout. -/
theorem Layout.recoverActivePack {rs : List PackRecord} {torn : Bytes} {s : Store R}
    (h : Layout hash name rs torn s) :
    ∃ s', Furrow.recoverActivePack hash name s = (.ok (), s') ∧ Layout hash name rs [] s' := by
  have hpack := h.pack
  unfold Store.bytes at hpack
  unfold Furrow.recoverActivePack
  cases hs : s.pack with
  | none =>
    rw [hs, Option.getD_none] at hpack
    have htorn := (List.append_eq_nil_iff.mp hpack.symm).2
    subst htorn
    exact ⟨s, rfl, h⟩
  | some pack =>
    rw [hs, Option.getD_some] at hpack
    obtain ⟨c, hrun, hc⟩ := recoverPack_torn h.torn h.frontier h.index
    simp only [hpack, hrun]
    exact ⟨_, rfl, by simp [Store.bytes], nil_torn hash, h.distinct, h.frontier, hc, h.saved,
      h.run, h.known⟩

/-- Settling leaves complete records and a known end. -/
theorem Layout.settle {rs : List PackRecord} {torn : Bytes} {s : Store R}
    (h : Layout hash name rs torn s) :
    ∃ s', Furrow.settle hash name s = (.ok (), s') ∧ Layout hash name rs [] s' := by
  unfold Furrow.settle
  rw [Fallible.inspect_apply]
  split_ifs with hknown
  · obtain ⟨s', hrun, hs'⟩ := h.recoverActivePack
    rw [Fallible.bind_of_ok hrun]
    refine ⟨_, rfl, hs'.pack, hs'.torn, hs'.distinct, hs'.frontier, hs'.index, hs'.saved,
      hs'.run, ?_⟩
    show s'.bytes.length ≤ _
    rw [hs'.pack, List.append_nil]
  · -- the known end lies within the records, so there is no torn one
    have hlen : (encodeAll hash rs ++ torn).length = s.knownEnd := by
      rw [← h.pack]
      exact not_not.mp hknown
    have hle := h.known
    rw [List.length_append] at hlen
    have htorn : torn = [] := List.length_eq_zero_iff.mp (by omega)
    subst htorn
    exact ⟨s, rfl, h⟩

/-- Appending an index row for a record that follows the others. -/
theorem IndexFits.insertObject {rs : List PackRecord} {c : Catalog R} (r : PackRecord)
    (h : IndexFits hash name rs c) :
    IndexFits hash name (rs ++ [r])
      (c.insertObject (r.id hash) (r.location name (encodeAll hash rs).length)) :=
  IndexFits.insertAll (h.mono (List.prefix_append rs [r]))

/-- A store with one more complete record and an index that describes the records. -/
theorem Layout.extend {rs : List PackRecord} {s : Store R} (h : Layout hash name rs [] s)
    {r : PackRecord} (hfresh : r.id hash ∉ rs.map (PackRecord.id hash)) {s' : Store R}
    (hpack : s'.bytes = encodeAll hash (rs ++ [r])) (hfrontier : s'.frontier = s.frontier)
    (hindex : IndexFits hash name (rs ++ [r]) s'.catalog) (hbegan : s'.began = s.began)
    (hrun : s'.unsynced = s.unsynced ∨
      ∃ run, s'.unsynced = some run ∧ run.pack = name ∧
        run.end_ = (encodeAll hash (rs ++ [r])).length)
    (hknown : s'.knownEnd ≤ (encodeAll hash (rs ++ [r])).length) :
    Layout hash name (rs ++ [r]) [] s' := by
  have hprefix : rs <+: rs ++ [r] := List.prefix_append rs [r]
  refine ⟨by rw [hpack, List.append_nil], nil_torn hash, ?_, fun d hd => ?_, hindex,
    fun c hc => (h.saved c (hbegan ▸ hc)).mono hprefix, fun run hr => ?_, hknown⟩
  · rw [List.map_append, List.nodup_append]
    refine ⟨h.distinct, List.nodup_singleton _, fun a ha b hb hab => ?_⟩
    rw [List.map_singleton, List.mem_singleton] at hb
    exact hfresh (hb ▸ hab ▸ ha)
  · exact (h.frontier d (hfrontier ▸ hd)).trans (length_encodeAll_le hprefix)
  · rcases hrun with hrun | ⟨run', hrun, hname, hend⟩
    · obtain ⟨hname, rs₁, hrs₁, hend⟩ := h.run run (hrun ▸ hr)
      exact ⟨hname, rs₁, hrs₁.trans hprefix, hend⟩
    · rw [hrun] at hr
      rw [← Option.some.inj hr]
      exact ⟨hname, _, List.prefix_rfl, hend⟩

/-- The run is of the pack of its last record. -/
theorem AppendRun.thenRecord_pack (run : Option AppendRun) (pack : PackName) (id : ObjectId)
    (start end_ : ℕ) : (AppendRun.thenRecord run pack id start end_).pack = pack := by
  unfold AppendRun.thenRecord
  split
  · rename_i run' h
    rw [Option.filter_eq_some_iff] at h
    simpa using (of_decide_eq_true h.2).1
  · rfl

/-- The run ends where its last record does. -/
theorem AppendRun.thenRecord_end (run : Option AppendRun) (pack : PackName) (id : ObjectId)
    (start end_ : ℕ) : (AppendRun.thenRecord run pack id start end_).end_ = end_ := by
  unfold AppendRun.thenRecord
  split <;> rfl

/-- **Appending keeps the layout**, wherever it is interrupted, if the identifier has no record
yet. -/
theorem Layout.appendRecord {rs : List PackRecord} {s : Store R} (h : Layout hash name rs [] s)
    {r : PackRecord} (hfresh : r.id hash ∉ rs.map (PackRecord.id hash)) (io : AppendIo) :
    Sound hash name (Furrow.appendRecord hash name r io s).2 := by
  have hbytes : s.bytes = encodeAll hash rs := by rw [h.pack, List.append_nil]
  have hall : s.bytes ++ r.encode hash = encodeAll hash (rs ++ [r]) := by
    rw [hbytes, encodeAll_append, encodeAll_cons, encodeAll_nil, List.append_nil]
  have hmono := h.index.mono (List.prefix_append rs [r])
  have hrun : ∃ run, some (AppendRun.thenRecord s.unsynced name (r.id hash) s.bytes.length
      (s.bytes ++ r.encode hash).length) = some run ∧ run.pack = name ∧
        run.end_ = (encodeAll hash (rs ++ [r])).length :=
    ⟨_, rfl, AppendRun.thenRecord_pack _ _ _ _ _, by rw [AppendRun.thenRecord_end, hall]⟩
  have hend : (s.bytes ++ r.encode hash).length ≤ (encodeAll hash (rs ++ [r])).length := by
    rw [hall]
  cases io with
  | done =>
    refine ⟨_, _, h.extend hfresh hall rfl ?_ rfl (Or.inr hrun) hend⟩
    simp only [Furrow.appendRecord, hbytes]
    exact h.index.insertObject r
  | unindexed => exact ⟨_, _, h.extend hfresh hall rfl hmono rfl (Or.inr hrun) hend⟩
  | torn n =>
    have hknown := h.known
    by_cases hn : n < (r.encode hash).length
    · refine ⟨rs, (r.encode hash).take n, ?_, ⟨r, (r.encode hash).drop n, ?_, ?_⟩, h.distinct,
        h.frontier, h.index, h.saved, h.run, h.known⟩
      · show s.bytes ++ _ = _
        rw [hbytes]
      · rw [Ne, List.drop_eq_nil_iff]
        omega
      · exact List.take_append_drop n _
    · -- all of it was written before the failure
      refine ⟨rs ++ [r], [], h.extend hfresh ?_ rfl hmono rfl (Or.inl rfl) ?_⟩
      · show s.bytes ++ (r.encode hash).take n = _
        rw [List.take_of_length_le (by omega), hall]
      · exact hknown.trans (length_encodeAll_le (List.prefix_append rs [r]))

/-! ## Runs that write no object twice -/

/-- The store inside a transaction. -/
def Store.begin (s : Store R) : Store R := { s with began := some (s.began.getD s.catalog) }

variable (hash name)

/-- Where the put comes to append, the pack holds no record of the object. -/
def PutFresh (p : Put) (s : Store R) : Prop :=
  ∀ r s', PackRecord.ofPayload p.kind p.bytes = some r → s.catalog.object (r.id hash) = none →
    settle hash name s = (.ok (), s') → s'.catalog.object (r.id hash) = none →
      r.id hash ∉ (validRecords hash s'.bytes).map (PackRecord.id hash)

/-- The puts of a capture, up to the first failure. -/
def PutsFresh : List Put → Store R → Prop
  | [], _ => True
  | p :: ps, s => PutFresh hash name p s.begin ∧
      ∀ s', putBytes hash name true p s = (.ok (), s') → PutsFresh ps s'

/-- A step that appends no record of an object whose record the pack holds already. -/
def StoreStep.Fresh : StoreStep → Store R → Prop
  | .put _ p, s => PutFresh hash name p s.begin
  | .capture _ puts _, s => PutsFresh hash name puts s.begin
  | _, _ => True

/-- A run of such steps. -/
def RunFresh : List StoreStep → Store R → Prop
  | [], _ => True
  | step :: steps, s => step.Fresh hash name s ∧ RunFresh steps (step.run hash name s)

variable {hash name}

/-- **A put keeps the layout**, whatever happens to it. -/
theorem Sound.putBytesLocked {p : Put} {s : Store R} (h : Sound hash name s)
    (hfresh : PutFresh hash name p s) :
    Sound hash name (Furrow.putBytesLocked hash name p s).2 := by
  unfold Furrow.putBytesLocked
  cases hr : PackRecord.ofPayload p.kind p.bytes with
  | none => exact h
  | some r =>
    simp only [Fallible.inspect_apply]
    split_ifs with hrow
    · exact h
    · obtain ⟨rs, torn, hlayout⟩ := h
      obtain ⟨s', hrun, hs'⟩ := hlayout.settle
      rw [Fallible.bind_of_ok hrun, Fallible.inspect_apply]
      split_ifs with hrow'
      · exact ⟨rs, [], hs'⟩
      · refine hs'.appendRecord ?_ p.io
        have hnew := hfresh r s' hr (by simpa using hrow) hrun (by simpa using hrow')
        rwa [hs'.pack, validRecords_encodeAll, show validRecords hash [] = [] from rfl,
          List.append_nil] at hnew

/-- A transaction may begin, -/
theorem Sound.begin {s : Store R} (h : Sound hash name s) : Sound hash name s.begin := by
  obtain ⟨rs, torn, h⟩ := h
  refine ⟨rs, torn, h.pack, h.torn, h.distinct, h.frontier, h.index, fun c hc => ?_, h.run,
    h.known⟩
  rw [← Option.some.inj (show some (s.began.getD s.catalog) = some c from hc)]
  cases hb : s.began with
  | none => exact h.index
  | some saved => exact h.saved saved hb

/-- commit, -/
theorem Sound.commit {s : Store R} (h : Sound hash name s) :
    Sound hash name { s with began := none } := by
  obtain ⟨rs, torn, h⟩ := h
  exact ⟨rs, torn, h.pack, h.torn, h.distinct, h.frontier, h.index,
    fun c hc => absurd hc (by simp), h.run, h.known⟩

/-- or roll back. -/
theorem Sound.rollback {s : Store R} (h : Sound hash name s) : Sound hash name s.rollback := by
  obtain ⟨rs, torn, h⟩ := h
  refine ⟨rs, torn, h.pack, h.torn, h.distinct, h.frontier, ?_, fun c hc => absurd hc (by
    simp [Store.rollback]), h.run, h.known⟩
  unfold Store.rollback
  cases hb : s.began with
  | none => exact h.index
  | some saved => exact h.saved saved hb

/-- **A transaction keeps what its write keeps**, whether it commits or rolls back. -/
theorem Sound.batch {α : Type} {committed : Bool} {write : Fallible (Store R) PackError α}
    {s : Store R} (h : Sound hash name (write s.begin).2) :
    Sound hash name (Furrow.batch committed write s).2 := by
  unfold Furrow.batch
  cases hb : s.began with
  | some saved =>
    have hbegin : s.begin = s := by
      unfold Store.begin
      rw [hb, Option.getD_some, ← hb]
    rw [hbegin] at h
    simpa using h
  | none =>
    have hbegin : s.begin = { s with began := some s.catalog } := by
      unfold Store.begin
      rw [hb, Option.getD_none]
    rw [hbegin] at h
    simp only [Option.isSome_none, Bool.false_eq_true, if_false]
    cases hw : write { s with began := some s.catalog } with
    | mk result s' =>
      rw [hw] at h
      cases result with
      | error e => exact h.rollback
      | ok a =>
        cases committed with
        | true => exact h.commit
        | false => exact h.rollback

/-- `put_bytes` keeps the layout. -/
theorem Sound.putBytes {committed : Bool} {p : Put} {s : Store R} (h : Sound hash name s)
    (hfresh : PutFresh hash name p s.begin) :
    Sound hash name (Furrow.putBytes hash name committed p s).2 :=
  Sound.batch (h.begin.putBytesLocked hfresh)

/-- The puts of a capture keep the layout. -/
theorem Sound.puts {puts : List Put} {s : Store R} (h : Sound hash name s)
    (hfresh : PutsFresh hash name puts s) :
    Sound hash name (Fallible.each (Furrow.putBytes hash name true) puts s).2 := by
  induction puts generalizing s with
  | nil => exact h
  | cons p ps ih =>
    obtain ⟨hp, hps⟩ := hfresh
    refine Fallible.bind_state (h.putBytes hp) fun u s' hrun hs' => ?_
    exact ih hs' (hps s' hrun)

/-- The run can be forgotten or recorded as verified. -/
theorem Sound.takeRun {s : Store R} {run : AppendRun} (h : Sound hash name s)
    (hrun : s.unsynced = some run) :
    Sound hash name { s with unsynced := none } ∧
      Sound hash name (advanceCheckpoint run { s with unsynced := none }) := by
  obtain ⟨rs, torn, h⟩ := h
  obtain ⟨hname, rs₁, hrs₁, hend⟩ := h.run run hrun
  have htaken : Layout hash name rs torn { s with unsynced := none } :=
    ⟨h.pack, h.torn, h.distinct, h.frontier, h.index, h.saved, fun _ hr => absurd hr (by simp),
      h.known⟩
  refine ⟨⟨rs, torn, htaken⟩, rs, torn, ?_⟩
  unfold advanceCheckpoint
  split
  · rename_i next hnext
    unfold AppendRun.extend at hnext
    split_ifs at hnext
    refine ⟨h.pack, h.torn, h.distinct, h.frontier, ?_, h.saved, htaken.run, h.known⟩
    rw [hname, ← Option.some.inj hnext]
    exact h.index.setPackCheckpoint hrs₁ hend
  · exact htaken

/-- A flush keeps the store sound. -/
theorem Sound.syncActivePack {flushed : Bool} {s : Store R} (h : Sound hash name s) :
    Sound hash name (Furrow.syncActivePack flushed s).2 := by
  unfold Furrow.syncActivePack
  cases hrun : s.unsynced with
  | none => exact h
  | some run =>
    cases flushed with
    | true => exact (h.takeRun hrun).2
    | false => exact (h.takeRun hrun).1

/-- **A capture keeps the layout**, whether it succeeds or fails and rolls back. -/
theorem Sound.batched {io : SealIo} {puts : List Put} {fails : Bool} {s : Store R}
    (h : Sound hash name s) (hfresh : PutsFresh hash name puts s.begin) :
    Sound hash name (Furrow.batched io (capture hash name puts fails) s).2 := by
  refine Sound.batch (Fallible.bind_state ?_ fun _ s' _ hs' => ?_)
  · refine Fallible.bind_state (h.begin.puts hfresh) fun _ s' _ hs' => ?_
    cases fails <;> exact hs'
  · rw [Fallible.inspect_apply]
    exact hs'.syncActivePack

/-- `sync` keeps the layout: the committed high water ends inside the records. -/
theorem Sound.sync {io : SealIo} {s : Store R} (h : Sound hash name s) :
    Sound hash name (Furrow.sync name io s).2 := by
  unfold Furrow.sync
  dsimp only
  split_ifs with hbad
  · exact h
  · have hfrontier : Sound hash name
        { s with frontier := some ((s.began.getD s.catalog).packHighWater name) } := by
      obtain ⟨rs, torn, h⟩ := h
      refine ⟨rs, torn, h.pack, h.torn, h.distinct, fun d hd => ?_, h.index, h.saved, h.run,
        h.known⟩
      rw [← Option.some.inj hd]
      cases hb : s.began with
      | none => exact h.index.packHighWater_le
      | some saved => exact (h.saved saved hb).packHighWater_le
    cases hrun : s.unsynced with
    | none =>
      rw [hrun] at hfrontier
      exact hfrontier
    | some run =>
      refine Sound.batch ?_
      exact (Sound.takeRun hfrontier.begin hrun).2

/-- A flush that is put off keeps the store sound. -/
theorem Sound.deferDurability {io : SealIo} {s : Store R} (h : Sound hash name s) :
    Sound hash name (Furrow.deferDurability name io s).2 := by
  have hset : ∀ s : Store R, Sound hash name s → Sound hash name { s with deferred := true } := by
    intro s ⟨rs, torn, h⟩
    exact ⟨rs, torn, h.pack, h.torn, h.distinct, h.frontier, h.index, h.saved, h.run, h.known⟩
  unfold Furrow.deferDurability
  rw [Fallible.inspect_apply]
  refine Fallible.bind_state ?_ fun _ s' _ hs' => hset s' hs'
  split_ifs
  · exact h
  · exact h.sync

/-! ## Verification -/

/-- Every row of an index that describes records is one of the pack. -/
theorem IndexFits.pack_eq {rs : List PackRecord} {c : Catalog R} (h : IndexFits hash name rs c)
    (id : ObjectId) (l : ObjectLocation) (hl : c.object id = some l) : l.pack = name :=
  (mem_rowsOf hash name (h.rows id l hl)).1

/-- No row crosses the end of the records. -/
theorem IndexFits.packCrossingObjectCount {rs : List PackRecord} {c : Catalog R}
    (h : IndexFits hash name rs c) :
    c.packCrossingObjectCount name (encodeAll hash rs).length = 0 := by
  unfold Catalog.packCrossingObjectCount
  rw [List.length_eq_zero_iff, List.filter_eq_nil_iff]
  intro l hl
  have hle := Catalog.packHighWater_le_iff.mp h.packHighWater_le l hl
  simp only [decide_eq_true_eq, not_and, Nat.not_lt]
  omega

/-- **A rebuilt index has one row for each record**, if their identifiers are distinct. -/
theorem Recovered.packPrefixObjectCount {rs : List PackRecord} {before after : Catalog R}
    (h : Recovered hash name rs before after) (hnodup : (rs.map (PackRecord.id hash)).Nodup)
    (hbefore : ∀ id l, before.object id = some l → l.pack = name) :
    after.packPrefixObjectCount name (encodeAll hash rs).length = rs.length := by
  have hfits := h.indexFits hbefore
  have hnone : ∀ id, before.elsewhere name id = none := by
    intro id
    rw [Catalog.elsewhere, Option.filter_eq_none_iff]
    intro l hl
    simpa using hbefore id l hl
  have hperm : after.objects.toList.Perm (rowsOf hash name 0 rs) := by
    refine (List.perm_ext_iff_of_nodup (List.Nodup.of_map Prod.fst ?_)
      (List.Nodup.of_map Prod.fst ?_)).mpr fun p => ?_
    · exact after.objects.keys_sorted.imp fun hab => ne_of_lt hab
    · rw [map_fst_rowsOf]
      exact hnodup
    · rw [OrdMap.mem_toList_iff, ← locate_eq_some_iff hash name hnodup]
      show after.object p.1 = some p.2 ↔ _
      rw [h.objects, hnone, Option.none_or]
  have hrows : after.packRows name = after.objects.toList.map Prod.snd := by
    refine List.filter_eq_self.mpr fun l hl => ?_
    obtain ⟨p, hp, rfl⟩ := List.mem_map.mp hl
    simpa using hfits.pack_eq p.1 p.2 ((OrdMap.mem_toList_iff _).mp hp)
  have hall : ∀ l ∈ after.packRows name, l.recordEnd ≤ (encodeAll hash rs).length :=
    Catalog.packHighWater_le_iff.mp hfits.packHighWater_le
  unfold Catalog.packPrefixObjectCount
  rw [List.filter_eq_self.mpr fun l hl => by simpa using hall l hl, hrows, List.length_map,
    hperm.length_eq, ← List.length_map (f := Prod.fst), map_fst_rowsOf, List.length_map]

/-- A rebuilt index agrees with its checkpoint. -/
theorem Recovered.agrees {rs : List PackRecord} {before after : Catalog R}
    (h : Recovered hash name rs before after) (hnodup : (rs.map (PackRecord.id hash)).Nodup)
    (hbefore : ∀ id l, before.object id = some l → l.pack = name) :
    after.agrees name = true := by
  have hfits := h.indexFits hbefore
  unfold Catalog.agrees
  rcases h.checkpoint with hk | ⟨hk, rfl⟩
  · rw [hk]
    simp only [verifiedLen_checkpointOf, objectCount_checkpointOf,
      h.packPrefixObjectCount hnodup hbefore, hfits.packCrossingObjectCount]
    simp
  · rw [hk]
    simpa using hfits.packHighWater_le

/-- **Rebuilding the index restores agreement.** -/
theorem Layout.rebuild {rs : List PackRecord} {torn : Bytes} {s : Store R}
    (h : Layout hash name rs torn s) :
    ∃ s', Furrow.recoverActivePack hash name
        { s with catalog := s.catalog.resetPackIndex name } = (.ok (), s') ∧
      Layout hash name rs [] s' ∧ s'.catalog.agrees name = true := by
  have hreset : IndexFits hash name rs (s.catalog.resetPackIndex name) := by
    refine h.index.sub (fun id l hl => ?_) (Or.inr (Catalog.packCheckpoint_resetPackIndex _ _))
    rw [Catalog.object_resetPackIndex, Option.filter_eq_some_iff] at hl
    exact hl.1
  have hlayout : Layout hash name rs torn { s with catalog := s.catalog.resetPackIndex name } :=
    ⟨h.pack, h.torn, h.distinct, h.frontier, hreset, h.saved, h.run, h.known⟩
  obtain ⟨s', hrun, hs'⟩ := hlayout.recoverActivePack
  refine ⟨s', hrun, hs', ?_⟩
  have hpack := h.pack
  unfold Store.bytes at hpack
  unfold Furrow.recoverActivePack at hrun
  cases hs : s.pack with
  | none =>
    -- without a pack there are no records, and the index is empty
    rw [hs, Option.getD_none] at hpack
    simp only [hs, Prod.mk.injEq, true_and] at hrun
    have hrs : encodeAll hash rs = [] := (List.append_eq_nil_iff.mp hpack.symm).1
    have hwater := hreset.packHighWater_le
    rw [hrs, List.length_nil] at hwater
    rw [← hrun]
    unfold Catalog.agrees
    rw [Catalog.packCheckpoint_resetPackIndex]
    simpa using hwater
  | some pack =>
    rw [hs, Option.getD_some] at hpack
    simp only [hs, Prod.mk.injEq] at hrun
    obtain ⟨r, q, hq, hr⟩ := h.torn
    have hshort := readRecord_short hash hr hq
    obtain ⟨c, hrec, hrecovered, -⟩ := recoverPack_droppable hash s.frontier name
      (s := ⟨pack, s.catalog.resetPackIndex name⟩) hpack
      (fun k hk => absurd hk (by rw [Catalog.packCheckpoint_resetPackIndex]; simp))
      (by
        rw [validRecords_of_error hash hshort, scanRest_of_error hash hshort, List.append_nil]
        exact ⟨h.frontier, Or.inr (Or.inl hshort)⟩)
    rw [validRecords_of_error hash hshort, List.append_nil] at hrecovered
    rw [← hrun.2, hrec]
    exact hrecovered.agrees h.distinct hreset.pack_eq

variable (hash name) in
/-- A recovery begins no batch. -/
theorem recoverActivePack_began (s : Store R) :
    (Furrow.recoverActivePack hash name s).2.began = s.began := by
  unfold Furrow.recoverActivePack
  split <;> rfl

/-- What the transaction of a verification does: it succeeds, and the index agrees. -/
theorem Sound.checkIndex {s : Store R} (h : Sound hash name s) (deep : Bool) :
    ∃ check s', Furrow.checkIndex hash name deep s = (.ok check, s') ∧ Sound hash name s' ∧
      s'.began = s.began ∧ s'.catalog.agrees name = true := by
  unfold Furrow.checkIndex
  rw [Fallible.inspect_apply]
  split_ifs with hrebuild
  · obtain ⟨rs, torn, h⟩ := h
    obtain ⟨s', hrun, hs', hagrees⟩ := h.rebuild
    have hbegan := recoverActivePack_began hash name
      { s with catalog := s.catalog.resetPackIndex name }
    rw [hrun] at hbegan
    rw [Fallible.bind_of_ok (show ((Fallible.update fun s : Store R =>
      { s with catalog := s.catalog.resetPackIndex name }) >>= fun _ =>
        Furrow.recoverActivePack hash name) s = (.ok (), s') from hrun)]
    exact ⟨_, s', rfl, ⟨rs, [], hs'⟩, hbegan, hagrees⟩
  · refine ⟨_, s, rfl, h, rfl, ?_⟩
    simpa using fun hne => hrebuild (Or.inl hne)

variable (hash) in
/-- An index that agrees is left alone, unless a rebuild is asked for. -/
theorem checkIndex_of_agrees {s : Store R} (h : s.catalog.agrees name = true) :
    ∃ check, Furrow.checkIndex hash name false s = (.ok check, s) ∧ check.repaired = false := by
  unfold Furrow.checkIndex
  rw [Fallible.inspect_apply, if_neg (by simp [h])]
  refine ⟨_, rfl, ?_⟩
  rw [h]
  rfl

/-- A transaction that succeeds and is committed. -/
theorem batch_of_ok {α : Type} {write : Fallible (Store R) PackError α} {s s' : Store R} {a : α}
    (h : write s.begin = (.ok a, s')) (hbegan : s'.began = s.begin.began) :
    batch true write s = (.ok a, { s' with began := s.began }) := by
  unfold batch
  cases hb : s.began with
  | some saved =>
    have hbegin : s.begin = s := by
      unfold Store.begin
      rw [hb, Option.getD_some, ← hb]
    rw [hbegin, hb] at hbegan
    rw [hbegin] at h
    simp only [Option.isSome_some, if_true, h]
    rw [← hbegan]
  | none =>
    have hbegin : s.begin = { s with began := some s.catalog } := by
      unfold Store.begin
      rw [hb, Option.getD_none]
    rw [hbegin] at h
    simp [h]

/-- Verification keeps the layout. -/
theorem Sound.verifyIndex {s : Store R} (h : Sound hash name s) (deep : Bool) :
    Sound hash name (Furrow.verifyIndex hash name deep s).2 := by
  obtain ⟨check, s', hrun, hs', -⟩ := h.begin.checkIndex deep
  refine Sound.batch ?_
  rw [hrun]
  exact hs'

/-- **One step keeps the layout.** -/
theorem Sound.step {step : StoreStep} {s : Store R} (h : Sound hash name s)
    (hfresh : step.Fresh hash name s) : Sound hash name (step.run hash name s) := by
  cases step with
  | put committed p => exact h.putBytes hfresh
  | capture io puts fails => exact h.batched hfresh
  | sync io => exact h.sync
  | defer io => exact h.deferDurability
  | resume =>
    obtain ⟨rs, torn, h⟩ := h
    exact ⟨rs, torn, h.pack, h.torn, h.distinct, h.frontier, h.index, h.saved, h.run, h.known⟩
  | verify deep => exact h.verifyIndex deep

/-- **A run keeps the layout**, if it writes no object twice. -/
theorem Sound.runSteps {steps : List StoreStep} {s : Store R} (h : Sound hash name s)
    (hfresh : RunFresh hash name steps s) :
    Sound hash name (Furrow.runSteps hash name steps s) := by
  induction steps generalizing s with
  | nil => exact h
  | cons step steps ih => exact ih (h.step hfresh.1) hfresh.2

variable (hash name)

/-- **Index verification converges.**  In every state that a run reaches which never appends a
record of an object whose record the pack already holds, a verification succeeds and leaves
checkpoint and rows in agreement, and a second one finds nothing to repair.

**Proof sketch.** Along the run the records of the pack have distinct identifiers
(`Sound.runSteps`).  A rescan therefore counts as many records as it inserts rows
(`Recovered.agrees`); and where no rescan was needed, the first verification has already found
agreement. -/
theorem verifyIndex_converges (steps : List StoreStep)
    (hfresh : RunFresh hash name steps (.new : Store R)) (deep : Bool) :
    ∃ check s', verifyIndex hash name deep (runSteps hash name steps (.new : Store R)) =
        (.ok check, s') ∧
      (∀ k, s'.catalog.packCheckpoint name = some k →
        s'.catalog.packPrefixObjectCount name k.verifiedLen = k.objectCount ∧
          s'.catalog.packCrossingObjectCount name k.verifiedLen = 0) ∧
      (s'.catalog.packCheckpoint name = none → s'.catalog.packHighWater name = 0) ∧
      ∃ check', verifyIndex hash name false s' = (.ok check', s') ∧ check'.repaired = false := by
  have hnew : Sound hash name (.new : Store R) := sound_new
  have hsound := hnew.runSteps hfresh
  obtain ⟨check, s', hrun, -, hbegan, hagrees⟩ := hsound.begin.checkIndex deep
  obtain ⟨check', hrun', hrepaired⟩ := checkIndex_of_agrees hash
    (s := Store.begin { s' with began := (runSteps hash name steps (.new : Store R)).began })
      hagrees
  have hagain := batch_of_ok hrun' rfl
  refine ⟨check, _, batch_of_ok hrun hbegan, fun k hk => ?_, fun hk => ?_, check', hagain,
    hrepaired⟩
  · unfold Catalog.agrees at hagrees
    rw [show s'.catalog.packCheckpoint name = some k from hk] at hagrees
    simpa using hagrees
  · unfold Catalog.agrees at hagrees
    rw [show s'.catalog.packCheckpoint name = none from hk] at hagrees
    simpa using hagrees

end

/-! ## A sample run -/

/-- The chunk `a`, written without a fault. -/
def samplePut : Put := ⟨.Chunk, text "a", .done⟩

/-- A capture of the chunk that fails after writing it. -/
def sampleFailure : StoreStep := .capture ⟨true, true⟩ [samplePut] true

/-- The failed capture is followed by a deep verification, and then the chunk is written. -/
theorem verifyIndex_converges_sample :
    RunFresh sampleHash samplePack [sampleFailure, .verify true, .put true samplePut]
        (.new : Store Unit) ∧
      ∃ check s', verifyIndex sampleHash samplePack true (runSteps sampleHash samplePack
          [sampleFailure, .verify true, .put true samplePut] (.new : Store Unit)) =
            (.ok check, s') ∧
        ∃ check', verifyIndex sampleHash samplePack false s' = (.ok check', s') ∧
          check'.repaired = false := by
  have hrecord : ∀ r, PackRecord.ofPayload samplePut.kind samplePut.bytes = some r →
      r = sampleRecord := by
    intro r hr
    exact (Option.some.inj hr).symm
  have hfresh : RunFresh sampleHash samplePack
      [sampleFailure, .verify true, .put true samplePut] (.new : Store Unit) := by
    refine ⟨⟨fun r s' hr _ hrun _ => ?_, fun _ _ => trivial⟩, trivial, ?_, trivial⟩
    · -- the pack is still empty
      rw [← (Prod.mk.inj hrun).2]
      exact List.not_mem_nil
    · -- the verification has found the record
      intro r s' hr hnone
      rw [hrecord r hr] at hnone
      exact absurd hnone (by decide)
  obtain ⟨check, s', hrun, -, -, hagain⟩ :=
    verifyIndex_converges sampleHash samplePack _ hfresh true
  exact ⟨hfresh, check, s', hrun, hagain⟩

/-- Without the verification in between the chunk is written twice, and from then on every
verification repairs the index. -/
theorem verifyIndex_diverges :
    let s := runSteps sampleHash samplePack [sampleFailure, .put true samplePut] (.new : Store Unit)
    let s' := (verifyIndex sampleHash samplePack false s).2
    (verifyIndex sampleHash samplePack false s).1 = .ok ⟨2, true⟩ ∧
      s'.catalog.packPrefixObjectCount samplePack s'.bytes.length = 1 ∧
      (s'.catalog.packCheckpoint samplePack).map PackCheckpoint.objectCount = some 2 ∧
      (verifyIndex sampleHash samplePack false s').1 = .ok ⟨2, true⟩ := by
  decide

end Furrow
