import Mathlib
import Furrow.Pack.Store
import Furrow.Refs.Repair
import Furrow.Lib.Run

set_option relaxedAutoImplicit false
set_option autoImplicit false

/-!
# Group commits and power losses

`store.rs`: a deferred capture appends its objects to the pack, commits their rows and appends its
reference to the log of its workspace, and flushes nothing.  A group commit samples the lengths of
the logs, then the high water of the committed rows, flushes the pack, flushes the logs, and
publishes the two as the durable frontier.  Captures go on meanwhile.

A power loss leaves of each file what was flushed and some of what was written after that.  It may
take back commits of the catalog, the one of the last recovery among them, and a frontier whose
directory was not flushed.  The index of a log is not flushed at all, and lost.  The next process
recovers the pack and repairs the logs; what it has read is on the disk, and what it has cut off
stays cut off.

A recovery that is taken back leaves rows of records that are gone, and its checkpoint may pass for
one of the records that have come since.  So what is said of runs here leaves out the power losses
that do that.

Captures here do not fail, one transaction is open at a time, and an object is put after those that
it refers to.

## Main definitions

* `Furrow.Group.State`, `Furrow.Group.Step` — the files of a store, and what is done to them.
* `Furrow.Group.State.lose`, `Furrow.Group.recover` — a power loss, and the process after it.
* `Furrow.Group.State.Forgets` — a power loss takes back a recovery.
* `Furrow.Group.Complete` — all that an object stands for is in the store.
* `Furrow.Group.Inv` — what holds in every state.

## Main results

* `Furrow.Group.recover_of_inv` — the recovery succeeds from what a power loss leaves.
* `Furrow.Group.inv_run` — what holds in every state of a run.
* `Furrow.Group.references_complete` — references never get ahead of their objects.
* `Furrow.Group.forgotten_incomplete` — a recovery that is taken back loses an object.
-/

namespace Furrow

namespace Group

/-- `DurableFrontier`, for the active pack. -/
structure Frontier where
  pack : ℕ
  refs : OrdMap Bytes ℕ

/-- How much of a log is durable. -/
def Frontier.ref (f : Frontier) (workspace : Bytes) : ℕ := (f.refs.get? workspace).getD 0

/-- Where a group commit is. -/
inductive Phase
  | idle
  | sampling (refs : OrdMap Bytes ℕ) (todo : List Bytes)
  | sampled (f : Frontier)
  | flushing (f : Frontier) (todo : List Bytes)
  | renamed

/-- A transaction of the catalog, and what it has appended. -/
structure Batch (R : Type) where
  catalog : Catalog R
  unsynced : Option AppendRun

/-- The files of a store: the active pack, the catalog, and the logs of the workspaces; the catalogs
that a power loss may bring back, of the commits since the last recovery, and from before it; the
transaction that is open; what of the files is flushed; the frontier, those that it has replaced in
a directory that was not flushed, and all that were ever published. -/
structure State (R : Type) where
  pack : Bytes
  catalog : Catalog R
  earlier : List (Catalog R)
  unrecovered : Option (Catalog R)
  batch : Option (Batch R)
  logs : Bytes → RefFiles
  flushedPack : ℕ
  flushedLogs : Bytes → ℕ
  frontier : Frontier
  replaced : List Frontier
  published : List Frontier
  phase : Phase

/-- How identifiers and frames are made, the name of the active pack, and what an object refers
to. -/
structure Env where
  hash : Bytes → ObjectId
  name : PackName
  codec : RefCodec
  links : PackRecord → List ObjectId

section Model

variable {R : Type} (env : Env)

namespace State

/-! ## Captures -/

/-- A new store, after its first group commit. -/
def new (stat : LogStat) : State R where
  pack := []
  catalog := .empty
  earlier := []
  unrecovered := none
  batch := none
  logs _ := RefLog.start stat
  flushedPack := 0
  flushedLogs _ := 0
  frontier := ⟨0, .empty⟩
  replaced := []
  published := [⟨0, .empty⟩]
  phase := .idle

variable (s : State R)

/-- A capture opens its transaction. -/
def begin : State R :=
  match s.batch with
  | some _ => s
  | none => { s with batch := some ⟨s.catalog, none⟩ }

/-- `put_bytes`, of an object whose links are there. -/
def put (r : PackRecord) : State R :=
  match s.batch with
  | none => s
  | some b =>
    if (b.catalog.object (r.id env.hash)).isSome then s
    else if ¬ (env.links r).all fun id => (b.catalog.object id).isSome then s
    else
      let appended := s.pack ++ r.encode env.hash
      { s with
        pack := appended
        batch := some ⟨b.catalog.insertObject (r.id env.hash) (r.location env.name s.pack.length),
          some (AppendRun.thenRecord b.unsynced env.name (r.id env.hash) s.pack.length
            appended.length)⟩ }

/-- `batched`, deferred: the checkpoint is moved, and the transaction is committed. -/
def commit : State R :=
  match s.batch with
  | none => s
  | some b =>
    let checkpoint := (b.catalog.packCheckpoint env.name).getD .zero
    let catalog := match b.unsynced.bind fun run => run.extend checkpoint with
      | some next => b.catalog.setPackCheckpoint env.name next
      | none => b.catalog
    { s with catalog := catalog, earlier := s.catalog :: s.earlier, batch := none }

/-- `publish_snapshot`, deferred: a reference to a snapshot that is committed. -/
def reference (workspace : Bytes) (truncated written : LogStat) (a : RefLog.Append) : State R :=
  if (s.catalog.object a.snapshotId).isNone then s
  else
    let log := (RefLog.appendOrdered env.codec truncated written none a (s.logs workspace)).2
    { s with logs := Function.update s.logs workspace log }

/-! ## The group commit -/

/-- `sync_locked`, up to the listing of the workspaces. -/
def startSync (listing : List Bytes) : State R :=
  match s.phase with
  | .idle => { s with phase := .sampling .empty listing }
  | _ => s

/-- The next thing that a group commit does. -/
def advance : State R :=
  match s.phase with
  | .idle => s
  | .sampling refs (workspace :: todo) =>
    { s with phase := .sampling (refs.insert workspace (s.logs workspace).bytes.length) todo }
  | .sampling refs [] =>
    let written := s.catalog.packHighWater env.name
    if s.pack.length < written then { s with phase := .idle }
      else { s with phase := .sampled ⟨written, refs⟩ }
  | .sampled f => { s with flushedPack := s.pack.length, phase := .flushing f f.refs.keys }
  | .flushing f (workspace :: todo) =>
    { s with
      flushedLogs := Function.update s.flushedLogs workspace (s.logs workspace).bytes.length
      phase := .flushing f todo }
  | .flushing f [] =>
    { s with
      frontier := f
      replaced := s.frontier :: s.replaced
      published := f :: s.published
      phase := .renamed }
  | .renamed => { s with replaced := [], phase := .idle }

/-- A group commit fails, or its process ends. -/
def abort : State R := { s with phase := .idle }

end State

/-! ## Power losses -/

/-- How much a power loss leaves of the files, and which of the commits and the frontiers. -/
structure Loss where
  pack : ℕ
  logs : Bytes → ℕ
  catalog : ℕ
  frontier : ℕ

/-- What a power loss leaves. -/
structure Remains (R : Type) where
  pack : Bytes
  catalog : Catalog R
  logs : Bytes → RefFiles
  frontier : Frontier
  published : List Frontier

/-- A power loss: of a file, at least what was flushed stays. -/
def State.lose (s : State R) (loss : Loss) : Remains R where
  pack := s.pack.take (max s.flushedPack loss.pack)
  catalog := ((s.earlier ++ s.unrecovered.toList)[loss.catalog]?).getD s.catalog
  logs workspace :=
    ⟨some ((s.logs workspace).bytes.take (max (s.flushedLogs workspace) (loss.logs workspace))),
      none, (s.logs workspace).stat⟩
  frontier := (s.replaced[loss.frontier]?).getD s.frontier
  published := s.published

/-- A power loss takes back the commit of the last recovery, and all since. -/
def State.Forgets (s : State R) (loss : Loss) : Prop :=
  s.unrecovered.isSome = true ∧ loss.catalog = s.earlier.length

/-- `contains_object` -/
def contains (c : Catalog R) (id : ObjectId) : Except PackError Bool := .ok (c.object id).isSome

/-- `repair_deferred_refs`, of one log. -/
def repair (c : Catalog R) (f : Frontier) (workspace : Bytes) (truncated : LogStat)
    (log : RefFiles) : Except (RepairError PackError) Bool × RefFiles :=
  RefLog.repairSuffix env.codec (f.ref workspace) (contains c) truncated log

/-- `pack_is_settled` -/
def packIsSettled (durable : ℕ) (p : PackState R) : Bool :=
  match p.catalog.packCheckpoint env.name with
  | none => false
  | some k =>
    k.verifiedLen = p.pack.length ∧ durable = p.pack.length ∧ validateCheckpoint env.name p k

/-- `recover_pack`, of a pack that is there. -/
def recoverPack (durable : ℕ) (p : PackState R) : Except PackError Unit × PackState R :=
  if packIsSettled env durable p then (.ok (), p)
  else recoverPackUnderCatalogLock env.hash (some durable) env.name p

/-- `ObjectStore::open` after a power loss: the state of the store, and what the repairs of the logs
say.  The commit of a recovery is not flushed. -/
def recover (truncated : Bytes → LogStat) (d : Remains R) :
    Except PackError (State R × (Bytes → Except (RepairError PackError) Bool)) :=
  match recoverPack env d.frontier.pack ⟨d.pack, d.catalog⟩ with
  | (.error e, _) => .error e
  | (.ok (), p) =>
    let repaired workspace :=
      repair env p.catalog d.frontier workspace (truncated workspace) (d.logs workspace)
    .ok ({ pack := p.pack
           catalog := p.catalog
           earlier := []
           unrecovered :=
             if packIsSettled env d.frontier.pack ⟨d.pack, d.catalog⟩ then none else some d.catalog
           batch := none
           logs := fun w => (repaired w).2
           flushedPack := p.pack.length
           flushedLogs := fun w => (repaired w).2.bytes.length
           frontier := d.frontier
           replaced := []
           published := d.published
           phase := .idle }, fun w => (repaired w).1)

/-! ## Runs -/

/-- What happens to a store: a capture takes a step, or a group commit, or the power is lost. -/
inductive Step
  | begin
  | put (r : PackRecord)
  | commit
  | reference (workspace : Bytes) (truncated written : LogStat) (a : RefLog.Append)
  | startSync (listing : List Bytes)
  | advance
  | abort
  | powerLoss (loss : Loss) (truncated : Bytes → LogStat)

/-- One step; what cannot happen changes nothing. -/
def step (s : State R) : Step → State R
  | .begin => s.begin
  | .put r => s.put env r
  | .commit => s.commit env
  | .reference workspace truncated written a => s.reference env workspace truncated written a
  | .startSync listing => s.startSync listing
  | .advance => s.advance env
  | .abort => s.abort
  | .powerLoss loss truncated =>
    match recover env truncated (s.lose loss) with
    | .ok (s', _) => s'
    | .error _ => s

/-- Steps one after the other. -/
def run (steps : List Step) (s : State R) : State R := steps.foldl (step env) s

/-- A step that takes back no recovery. -/
def Step.Remembers (s : State R) : Step → Prop
  | .powerLoss loss _ => ¬ s.Forgets loss
  | _ => True

/-! ## What is in a store -/

/-- The record of an object, as the catalog and the pack have it. -/
def stored (s : State R) (id : ObjectId) : Option PackRecord :=
  match s.catalog.object id with
  | none => none
  | some l => (readRecord env.hash (s.pack.drop (l.offset - headerLen))).toOption.map Prod.fst

/-- **An object is there with all that it refers to.** -/
inductive Complete (s : State R) : ObjectId → Prop
  | intro {id : ObjectId} {r : PackRecord} (hr : stored env s id = some r)
      (hid : r.id env.hash = id) (hlinks : ∀ target ∈ env.links r, Complete s target) :
        Complete s id

end Model

/-! ## The pack -/

section Packs

variable {R : Type} {hash : Bytes → ObjectId} {name : PackName}

/-- The rows of a catalog are those of some records, and its checkpoint is one of them. -/
structure Exact (hash : Bytes → ObjectId) (name : PackName) (rs : List PackRecord) (c : Catalog R) :
    Prop where
  rows : ∀ id, c.object id = locate hash name 0 rs id
  checkpoint : ∀ k, c.packCheckpoint name = some k → ∃ rs₁, rs₁ <+: rs ∧ k = checkpointOf hash rs₁

/-- The empty catalog is the index of nothing. -/
theorem exact_empty : Exact hash name [] (.empty : Catalog R) :=
  ⟨fun _ => rfl, fun _ hk => absurd hk (by simp [Catalog.packCheckpoint, Catalog.empty])⟩

/-- A record of a sequence has the place that it is looked up at. -/
theorem exists_of_locate {rs : List PackRecord} {id : ObjectId} {l : ObjectLocation} {offset : ℕ}
    (h : locate hash name offset rs id = some l) :
    ∃ rs₁ r rs₂, rs = rs₁ ++ r :: rs₂ ∧ r.id hash = id ∧
      l = r.location name (offset + (encodeAll hash rs₁).length) := by
  induction rs generalizing offset with
  | nil => exact absurd h (by simp [locate, rowsOf])
  | cons r rs ih =>
    rw [locate_cons] at h
    split_ifs at h with hid
    · exact ⟨[], r, rs, rfl, hid.symm, (Option.some.inj h).symm⟩
    · obtain ⟨rs₁, r', rs₂, rfl, hid', hl⟩ := ih h
      refine ⟨r :: rs₁, r', rs₂, rfl, hid', ?_⟩
      rw [hl, encodeAll_cons, List.length_append, Nat.add_assoc]

/-- The records of a pack are located. -/
theorem locate_isSome_iff {rs : List PackRecord} {id : ObjectId} {offset : ℕ} :
    (locate hash name offset rs id).isSome = true ↔ id ∈ rs.map (PackRecord.id hash) := by
  induction rs generalizing offset with
  | nil => simp [locate, rowsOf]
  | cons r rs ih =>
    rw [locate_cons, List.map_cons, List.mem_cons]
    split_ifs with hid
    · simp [hid]
    · simp [hid, ih]

/-- Fewer records have no other places. -/
theorem locate_prefix_eq {rs rs' : List PackRecord} (h : rs <+: rs') {id : ObjectId}
    (hid : id ∈ rs.map (PackRecord.id hash)) :
    locate hash name 0 rs' id = locate hash name 0 rs id := by
  obtain ⟨more, rfl⟩ := h
  rw [locate_append]
  cases hl : locate hash name 0 rs id with
  | none => exact absurd (locate_isSome_iff.mpr hid) (by rw [hl]; simp)
  | some l => rfl

namespace Exact

variable {rs : List PackRecord} {c : Catalog R}

/-- The catalog has the objects of the records. -/
theorem isSome_iff (h : Exact hash name rs c) {id : ObjectId} :
    (c.object id).isSome = true ↔ id ∈ rs.map (PackRecord.id hash) := by
  rw [h.rows, locate_isSome_iff]

/-- Every object is in this pack. -/
theorem pack_eq (h : Exact hash name rs c) {id : ObjectId} {l : ObjectLocation}
    (hl : c.object id = some l) : l.pack = name := by
  rw [h.rows] at hl
  exact (mem_rowsOf hash name (mem_rowsOf_of_locate hash name hl)).1

/-- No object is in another pack. -/
theorem elsewhere (h : Exact hash name rs c) (id : ObjectId) : c.elsewhere name id = none := by
  rw [Catalog.elsewhere, Option.filter_eq_none_iff]
  intro l hl
  simpa using h.pack_eq hl

/-- One more record, and its row. -/
theorem insertObject (h : Exact hash name rs c) (r : PackRecord) :
    Exact hash name (rs ++ [r])
      (c.insertObject (r.id hash) (r.location name (encodeAll hash rs).length)) := by
  refine ⟨fun id => ?_, fun k hk => ?_⟩
  · have hinsert := object_insertAll hash name (encodeAll hash rs).length [r] c id
    have hone : insertAll hash name (encodeAll hash rs).length [r] c =
        c.insertObject (r.id hash) (r.location name (encodeAll hash rs).length) := rfl
    rw [hone] at hinsert
    rw [hinsert, h.rows, locate_append, Nat.zero_add]
  · have hcheckpoints := checkpoints_insertAll hash name (encodeAll hash rs).length [r] c
    have hk' : c.packCheckpoint name = some k := by
      rw [← hk]
      unfold Catalog.packCheckpoint
      rw [← hcheckpoints]
      rfl
    obtain ⟨rs₁, hpre, heq⟩ := h.checkpoint k hk'
    exact ⟨rs₁, hpre.trans (List.prefix_append _ _), heq⟩

/-- The checkpoint of all records. -/
theorem setPackCheckpoint (h : Exact hash name rs c) :
    Exact hash name rs (c.setPackCheckpoint name (checkpointOf hash rs)) := by
  refine ⟨h.rows, fun k hk => ?_⟩
  rw [Catalog.packCheckpoint_setPackCheckpoint] at hk
  exact ⟨rs, List.prefix_rfl, (Option.some.inj hk).symm⟩

/-- The high water is the end of the records. -/
theorem packHighWater (h : Exact hash name rs c) (hnodup : (rs.map (PackRecord.id hash)).Nodup) :
    c.packHighWater name = (encodeAll hash rs).length := by
  refine le_antisymm ?_ ?_
  · rw [Catalog.packHighWater_le_iff]
    intro l hl
    obtain ⟨-, id, hid⟩ := Catalog.mem_packRows.mp hl
    rw [h.rows] at hid
    simpa using (mem_rowsOf hash name (mem_rowsOf_of_locate hash name hid)).2.2
  · rcases List.eq_nil_or_concat' rs with rfl | ⟨rs, r, rfl⟩
    · exact Nat.zero_le _
    have hrow : c.object (r.id hash) = some (r.location name (encodeAll hash rs).length) := by
      rw [h.rows, locate_eq_some_iff hash name hnodup, rowsOf_append, Nat.zero_add]
      exact List.mem_append_right _ List.mem_cons_self
    have hle := Catalog.packHighWater_le_iff.mp (le_refl (c.packHighWater name))
      (r.location name (encodeAll hash rs).length) (Catalog.mem_packRows.mpr ⟨rfl, _, hrow⟩)
    have hend :
        (r.location name (encodeAll hash rs).length).recordEnd =
          (encodeAll hash (rs ++ [r])).length := by
      rw [encodeAll_append, List.length_append, encodeAll_cons, encodeAll_nil,
        List.append_nil, length_encode]
      unfold ObjectLocation.recordEnd PackRecord.location
      dsimp only
      omega
    rwa [hend] at hle

/-- The checkpoint fits all records that reach behind it. -/
theorem checkpointFits (h : Exact hash name rs c) {all kept : List PackRecord} (hrs : rs <+: all)
    (hpre : kept <+: all)
    (hk : ∀ k, c.packCheckpoint name = some k → k.verifiedLen ≤ (encodeAll hash kept).length) :
    CheckpointFits hash name kept c := by
  intro k hcheckpoint
  obtain ⟨rs₁, hrs₁, rfl⟩ := h.checkpoint k hcheckpoint
  have hlen := hk _ hcheckpoint
  rw [verifiedLen_checkpointOf] at hlen
  have hkept : rs₁ <+: kept := by
    rcases List.prefix_or_prefix_of_prefix (hrs₁.trans hrs) hpre with hpre' | ⟨more, rfl⟩
    · exact hpre'
    · have hnil := (length_encodeAll_append_eq_iff hash kept more).mp (le_antisymm hlen (by
        rw [encodeAll_append, List.length_append]
        exact Nat.le_add_right _ _))
      rw [hnil, List.append_nil]
  obtain ⟨rs₂, rfl⟩ := hkept
  refine ⟨rs₁, rs₂, rfl, rfl, fun id l hl hend => ?_⟩
  rw [h.elsewhere, h.rows]
  refine ⟨fun hlocate => ⟨rfl, ?_⟩, fun hlocate => ?_⟩
  · obtain ⟨more, rfl⟩ := hrs₁
    rw [locate_append, Option.or_eq_some_iff] at hlocate
    refine hlocate.resolve_right fun hmore => ?_
    have hstart := (mem_rowsOf hash name (mem_rowsOf_of_locate hash name hmore.2)).2.1
    rw [verifiedLen_checkpointOf] at hend
    unfold ObjectLocation.recordEnd at hend
    dsimp only at hstart
    unfold headerLen at hstart
    omega
  · rw [locate_prefix_eq hrs₁ (locate_isSome_iff.mp (by rw [hlocate.2]; rfl)), hlocate.2]

end Exact

/-- What is cut of a pack at any byte: some of its records, and a piece that holds none. -/
theorem take_encodeAll (hash : Bytes → ObjectId) (rs : List PackRecord) (n : ℕ) :
    ∃ kept tail, kept <+: rs ∧ (encodeAll hash rs).take n = encodeAll hash kept ++ tail ∧
    validRecords hash tail = [] ∧ ∀ rs₁, rs₁ <+: rs → (encodeAll hash rs₁).length ≤ n →
    rs₁ <+: kept := by
  induction rs generalizing n with
  | nil =>
    refine ⟨[], [], List.prefix_rfl, by simp, rfl, fun rs₁ hrs₁ _ => hrs₁⟩
  | cons r rs ih =>
    by_cases hn : (r.encode hash).length ≤ n
    · obtain ⟨kept, tail, hkept, htake, hvalid, hmost⟩ := ih (n - (r.encode hash).length)
      refine ⟨r :: kept, tail, List.prefix_cons_iff.mpr (Or.inr ⟨kept, rfl, hkept⟩), ?_, hvalid, ?_⟩
      · rw [encodeAll_cons, List.take_append, List.take_of_length_le hn, htake, encodeAll_cons,
          List.append_assoc]
      · intro rs₁ hrs₁ hlen
        rcases List.prefix_cons_iff.mp hrs₁ with rfl | ⟨rs₂, rfl, hrs₂⟩
        · exact List.nil_prefix
        · rw [encodeAll_cons, List.length_append] at hlen
          exact List.prefix_cons_iff.mpr (Or.inr ⟨rs₂, rfl, hmost rs₂ hrs₂ (by omega)⟩)
    · refine ⟨[], (encodeAll hash (r :: rs)).take n, List.nil_prefix, rfl, ?_, ?_⟩
      · refine validRecords_of_error hash
          (readRecord_short hash (q := (r.encode hash).drop n) (r := r) ?_ ?_)
        · rw [encodeAll_cons, List.take_append_of_le_length (by omega), List.take_append_drop]
        · rw [Ne, List.drop_eq_nil_iff]
          exact hn
      · intro rs₁ hrs₁ hlen
        rcases List.prefix_cons_iff.mp hrs₁ with rfl | ⟨rs₂, rfl, hrs₂⟩
        · exact List.prefix_rfl
        · rw [encodeAll_cons, List.length_append] at hlen
          omega

/-- Without a checkpoint to trust, recovery does not look at it. -/
theorem recoverPack_forgetCheckpoint {d : ℕ} {s : PackState R} (hd : d ≤ s.pack.length)
    (h : trustedCheckpoint (some d) name (forgetLost name s) = none) :
    recoverPackUnderCatalogLock hash (some d) name s =
      recoverPackUnderCatalogLock hash (some d) name ⟨s.pack, s.catalog.forgetCheckpoint name⟩ := by
  have herase :
      (s.catalog.checkpoints.erase name).erase name = s.catalog.checkpoints.erase name := by
    refine OrdMap.ext_get? fun p => ?_
    rw [OrdMap.get?_erase, OrdMap.get?_erase]
    split_ifs <;> rfl
  have hreset :
      (forgetLost name ⟨s.pack, s.catalog.forgetCheckpoint name⟩).catalog.resetPackIndex name =
        (forgetLost name s).catalog.resetPackIndex name := by
    have hwater :
        (s.catalog.forgetCheckpoint name).packHighWater name = s.catalog.packHighWater name := rfl
    unfold forgetLost
    dsimp only
    rw [hwater]
    split_ifs
    · unfold Catalog.resetPackIndex Catalog.forgetCaptureCaches Catalog.forgetCheckpoint
      dsimp only
      rw [herase]
    · unfold Catalog.resetPackIndex Catalog.forgetCheckpoint
      dsimp only
      rw [herase]
  have hnone :
      trustedCheckpoint (some d) name (forgetLost name ⟨s.pack, s.catalog.forgetCheckpoint name⟩) =
        none := by
    unfold trustedCheckpoint
    have hgone :
        (forgetLost name ⟨s.pack, s.catalog.forgetCheckpoint name⟩).catalog.packCheckpoint name =
          none := by
      rw [Catalog.packCheckpoint, forgetLost_checkpoints]
      unfold Catalog.forgetCheckpoint
      rw [OrdMap.get?_erase, if_pos rfl]
    rw [hgone]
    rfl
  have hprepare :
      prepareScan (some d) name (forgetLost name ⟨s.pack, s.catalog.forgetCheckpoint name⟩) =
        prepareScan (some d) name (forgetLost name s) := by
    unfold prepareScan
    rw [h, hnone]
    dsimp only
    rw [if_neg (by simp), if_neg (by simp), hreset]
    congr 1
    rw [forgetLost_pack, forgetLost_pack]
  unfold recoverPackUnderCatalogLock
  dsimp only
  rw [h, hnone, hprepare, forgetLost_pack, forgetLost_pack]
  have hlost : ¬ ((some d).any fun len => s.pack.length < len) = true := by
    simpa using hd
  rw [if_neg hlost, if_neg hlost]

/-- **The recovery of a pack that was cut** leaves the records that are whole, and their rows. -/
theorem recoverPack_of_exact {rs all kept : List PackRecord} {tail : Bytes} {c : Catalog R} {d : ℕ}
    (hexact : Exact hash name rs c) (hrs : rs <+: all) (hkept : kept <+: all)
    (htail : validRecords hash tail = []) (hd : d ≤ (encodeAll hash kept).length) :
    ∃ c', recoverPackUnderCatalogLock hash (some d) name ⟨encodeAll hash kept ++ tail, c⟩ =
      (.ok (), ⟨encodeAll hash kept, c'⟩) ∧ Exact hash name kept c' := by
  have hdroppable :
      DroppableTail hash (some d) (encodeAll hash (kept ++ validRecords hash tail)).length
        (scanRest hash tail) := by
    rw [htail, List.append_nil]
    exact ⟨fun n hn => Option.some.inj hn ▸ hd, Or.inr (Or.inr rfl)⟩
  -- from a catalog whose checkpoint fits
  have hfrom (c₀ : Catalog R) (hfits : CheckpointFits hash name kept c₀)
      (hrows : ∀ id, c₀.object id = c.object id) :
      ∃ c', recoverPackUnderCatalogLock hash (some d) name ⟨encodeAll hash kept ++ tail, c₀⟩ =
        (.ok (), ⟨encodeAll hash kept, c'⟩) ∧ Exact hash name kept c' := by
    obtain ⟨c', hrun, hrecovered, -⟩ := recoverPack_droppable hash (some d) name
      (s := ⟨encodeAll hash kept ++ tail, c₀⟩) rfl hfits hdroppable
    rw [htail, List.append_nil] at hrun hrecovered
    refine ⟨c', hrun, fun id => ?_, fun k hk => ?_⟩
    · have helsewhere : c₀.elsewhere name id = none := by
        rw [Catalog.elsewhere, hrows]
        exact hexact.elsewhere id
      rw [hrecovered.objects]
      dsimp only
      rw [helsewhere, Option.none_or]
    · rcases hrecovered.checkpoint with hk' | ⟨hk', -⟩
      · exact ⟨kept, List.prefix_rfl, Option.some.inj (hk.symm.trans hk')⟩
      · rw [hk] at hk'
        exact absurd hk' (by simp)
  cases htrusted :
    trustedCheckpoint (some d) name (forgetLost name ⟨encodeAll hash kept ++ tail, c⟩) with
  | none =>
    have hlen : d ≤ (encodeAll hash kept ++ tail).length := by
      rw [List.length_append]
      exact hd.trans (Nat.le_add_right _ _)
    rw [recoverPack_forgetCheckpoint hlen htrusted]
    exact hfrom _ (checkpointFits_forgetCheckpoint hash name kept c) fun _ => rfl
  | some k =>
    refine hfrom c (hexact.checkpointFits hrs hkept fun k' hk' => ?_) fun _ => rfl
    obtain ⟨hk, -⟩ := Option.filter_eq_some_iff.mp htrusted
    obtain ⟨hk, hbehind⟩ := Option.filter_eq_some_iff.mp hk
    rw [Catalog.packCheckpoint, forgetLost_checkpoints] at hk
    rw [Option.some.inj (hk'.symm.trans hk)]
    have hle : k.verifiedLen ≤ d := by simpa using hbehind
    exact hle.trans hd

/-- **The pack after a power loss**, whether or not its checkpoint says that there is nothing to
recover. -/
theorem recoverPack_of_cut {env : Env} {rs all kept : List PackRecord} {tail : Bytes}
    {c : Catalog R} {d : ℕ} (hexact : Exact env.hash env.name rs c)
    (hnodup : (rs.map (PackRecord.id env.hash)).Nodup) (hrs : rs <+: all) (hkept : kept <+: all)
    (htail : validRecords env.hash tail = []) (hd : d ≤ (encodeAll env.hash kept).length) :
    ∃ c', recoverPack env d ⟨encodeAll env.hash kept ++ tail, c⟩ =
      (.ok (), ⟨encodeAll env.hash kept, c'⟩) ∧
      Exact env.hash env.name kept c' := by
  unfold recoverPack
  split_ifs with hsettled
  · unfold packIsSettled at hsettled
    cases hk : c.packCheckpoint env.name with
    | none =>
      rw [hk] at hsettled
      exact absurd hsettled (by simp)
    | some k =>
      rw [hk] at hsettled
      obtain ⟨hlen, hdurable, hvalid⟩ := of_decide_eq_true hsettled
      dsimp only at hlen hdurable hvalid
      have hnil : tail = [] := by
        rw [hdurable, List.length_append] at hd
        exact List.length_eq_zero_iff.mp (by omega)
      rw [hnil, List.append_nil] at hlen hvalid ⊢
      -- no row ends behind the checkpoint
      have hwater : c.packHighWater env.name ≤ (encodeAll env.hash kept).length := by
        rw [← hlen]
        by_contra hlt
        rw [validateCheckpoint, if_pos (Or.inr (not_le.mp hlt))] at hvalid
        exact absurd hvalid (by simp)
      rw [hexact.packHighWater hnodup] at hwater
      obtain ⟨rs₁, hrs₁, rfl⟩ := hexact.checkpoint k hk
      rw [verifiedLen_checkpointOf] at hlen
      have hsame : rs = kept := by
        rcases List.prefix_or_prefix_of_prefix hrs hkept with ⟨more, rfl⟩ | ⟨more, rfl⟩
        · have hle : (encodeAll env.hash rs₁).length ≤ (encodeAll env.hash rs).length :=
            length_encodeAll_le hrs₁
          rw [(length_encodeAll_append_eq_iff env.hash rs more).mp
            (le_antisymm (hlen ▸ hle) hwater), List.append_nil]
        · have hmore := length_encodeAll_append_eq_iff env.hash kept more
          rw [hmore.mp (le_antisymm hwater (length_encodeAll_le (List.prefix_append kept more))),
            List.append_nil]
      exact ⟨c, rfl, hsame ▸ hexact⟩
  · exact recoverPack_of_exact hexact hrs hkept htail hd

end Packs

/-! ## The logs -/

section Logs

variable {c : RefCodec} {ε : Type}

/-- What is cut of a log at any byte: some of its records, and a piece of one. -/
theorem take_encodeLog {done : List LogRecord} {t : Bytes} (ht : Torn c t)
    (hsmall : ∀ r ∈ done, r.Small c) (n : ℕ) :
    ∃ kept tail, kept <+: done ∧ (encodeLog c done ++ t).take n = encodeLog c kept ++ tail ∧
    Torn c tail ∧
      ∀ done₁, done₁ <+: done → (encodeLog c done₁).length ≤ n → done₁ <+: kept := by
  induction done generalizing n with
  | nil =>
    refine ⟨[], t.take n, List.prefix_rfl, rfl, ?_, fun done₁ h _ => h⟩
    rcases ht with rfl | ⟨r, q, hr, hpq, hq⟩
    · rw [List.take_nil]
      exact Or.inl rfl
    · refine Or.inr ⟨r, t.drop n ++ q, hr, ?_, fun hnil => hq (List.append_eq_nil_iff.mp hnil).2⟩
      rw [← List.append_assoc, List.take_append_drop, hpq]
  | cons r done ih =>
    have hcons : encodeLog c (r :: done) = frameBytes c r ++ encodeLog c done := rfl
    by_cases hn : (frameBytes c r).length ≤ n
    · obtain ⟨kept, tail, hkept, htake, htail, hmost⟩ :=
        ih (fun q hq => hsmall q (List.mem_cons_of_mem _ hq)) (n - (frameBytes c r).length)
      have hkeptCons : encodeLog c (r :: kept) = frameBytes c r ++ encodeLog c kept := rfl
      refine ⟨r :: kept, tail, List.prefix_cons_iff.mpr (Or.inr ⟨kept, rfl, hkept⟩), ?_, htail, ?_⟩
      · rw [hcons, List.append_assoc, List.take_append, List.take_of_length_le hn, htake, hkeptCons,
          List.append_assoc]
      · intro done₁ hdone₁ hlen
        rcases List.prefix_cons_iff.mp hdone₁ with rfl | ⟨done₂, rfl, hdone₂⟩
        · exact List.nil_prefix
        · have hlenCons :
              (encodeLog c (r :: done₂)).length =
                (frameBytes c r).length + (encodeLog c done₂).length :=
            List.length_append
          exact List.prefix_cons_iff.mpr (Or.inr ⟨done₂, rfl, hmost done₂ hdone₂ (by omega)⟩)
    · refine ⟨[], (frameBytes c r).take n, List.nil_prefix, ?_,
        torn_take (hsmall r List.mem_cons_self) (by omega), ?_⟩
      · rw [hcons, List.append_assoc, List.take_append_of_le_length (by omega)]
        rfl
      · intro done₁ hdone₁ hlen
        rcases List.prefix_cons_iff.mp hdone₁ with rfl | ⟨done₂, rfl, hdone₂⟩
        · exact List.prefix_rfl
        · have hlenCons :
              (encodeLog c (r :: done₂)).length =
                (frameBytes c r).length + (encodeLog c done₂).length :=
            List.length_append
          omega

/-- **The loop of a repair** keeps the records up to the first whose snapshot is not there. -/
theorem repairLoop_encodeLog {rs : List LogRecord} {t : Bytes} (durable : ℕ)
    (present : ObjectId → Bool) (ht : Torn c t) : ∀ (fuel : ℕ) {sequence : ℕ} {previous : ObjectId}
    (before : Bytes), Chained c previous sequence rs → (∀ r ∈ rs, r.Small c) →
    durable ≤ before.length + (encodeLog c (rs.takeWhile fun r => present r.snapshotId)).length →
    (before ++ (encodeLog c rs ++ t)).length < before.length + fuel →
    RefLog.repairLoop c (before ++ (encodeLog c rs ++ t)) durable
        (fun id => (.ok (present id) : Except ε Bool)) fuel before.length previous sequence =
      .ok (framesOf c before.length (rs.takeWhile fun r => present r.snapshotId),
        if rs.all (fun r => present r.snapshotId) ∧ t = [] then none
        else some
          (before.length + (encodeLog c (rs.takeWhile fun r => present r.snapshotId)).length)) := by
  induction rs with
  | nil =>
    intro fuel sequence previous before _ _ hdurable hfuel
    have hnil : encodeLog c [] = [] := rfl
    rw [List.takeWhile_nil, hnil, List.length_nil, Nat.add_zero] at hdurable
    rw [hnil, List.nil_append] at hfuel ⊢
    rw [List.takeWhile_nil, hnil, List.length_nil, Nat.add_zero]
    obtain _ | fuel := fuel
    · rw [List.length_append] at hfuel
      omega
    rw [RefLog.repairLoop]
    by_cases htnil : t = []
    · rw [if_neg (by rw [htnil, List.append_nil]; exact lt_irrefl _), if_pos ⟨rfl, htnil⟩]
      rfl
    · obtain ⟨r, q, hr, hpq, hq⟩ := ht.resolve_left htnil
      have hpos := List.length_pos_of_ne_nil htnil
      rw [if_pos (by rw [List.length_append]; omega), readFrameAt_short c hr hpq hq before]
      dsimp only
      rw [if_pos hdurable, if_neg fun h : _ ∧ t = [] => htnil h.2]
      rfl
  | cons r rs ih =>
    intro fuel sequence previous before hchain hsmall hdurable hfuel
    obtain ⟨hprevious, hsequence, hrest⟩ := hchain
    have hpos := length_pos_frameBytes (c := c) r
    have hcons : ∀ l, encodeLog c (r :: l) = frameBytes c r ++ encodeLog c l := fun _ => rfl
    have hread :=
      readFrameAt_frameBytes c (hsmall r List.mem_cons_self) before (encodeLog c rs ++ t)
    rw [hcons, List.append_assoc] at hfuel ⊢
    obtain _ | fuel := fuel
    · rw [List.length_append] at hfuel
      omega
    have hlt : before.length < (before ++ (frameBytes c r ++ (encodeLog c rs ++ t))).length := by
      rw [List.length_append, List.length_append]
      omega
    by_cases hpresent : present r.snapshotId = true
    · rw [List.takeWhile_cons_of_pos (p := fun r : LogRecord => present r.snapshotId) hpresent]
        at hdurable ⊢
      rw [hcons, List.length_append] at hdurable
      have hlen : (before ++ frameBytes c r).length = before.length + (frameBytes c r).length :=
        List.length_append
      have hfuel' : (before ++ frameBytes c r ++ (encodeLog c rs ++ t)).length <
          (before ++ frameBytes c r).length + fuel := by
        rw [List.append_assoc, hlen]
        omega
      have hnext :=
        ih fuel (before ++ frameBytes c r) hrest (fun q hq => hsmall q (List.mem_cons_of_mem _ hq))
          (by omega) hfuel'
      rw [List.append_assoc, hlen] at hnext
      have htrusted :
          RefLog.trustedAt c (before ++ (frameBytes c r ++ (encodeLog c rs ++ t))) durable present
            before.length previous sequence _ := ⟨hread, hsequence, hprevious, Or.inr hpresent⟩
      rw [RefLog.repairLoop_of_trustedAt hlt htrusted, hnext]
      dsimp only
      rw [framesOf, hcons, List.length_append, List.all_cons, hpresent,
        Bool.true_and, Nat.add_assoc]
    · rw [List.takeWhile_cons_of_neg (p := fun r : LogRecord => present r.snapshotId) hpresent]
        at hdurable ⊢
      have hnil : encodeLog c [] = [] := rfl
      rw [hnil, List.length_nil, Nat.add_zero] at hdurable ⊢
      have hnot :
          ∀ d,
            ¬ RefLog.trustedAt c (before ++ (frameBytes c r ++ (encodeLog c rs ++ t))) durable
            present
          before.length previous sequence d := by
        rintro d ⟨hread', -, -, htrusted⟩
        obtain rfl := Option.some.inj (Except.ok.inj (hread.symm.trans hread'))
        exact htrusted.elim (fun h => absurd hdurable (not_le.mpr h)) hpresent
      rw [RefLog.repairLoop_of_not_trustedAt hlt hnot, if_pos hdurable, if_neg]
      · rfl
      · rintro ⟨hall, -⟩
        rw [List.all_cons, Bool.and_eq_true] at hall
        exact hpresent hall.1

/-- The first records of a chain are one. -/
theorem chained_of_prefix {rs rs' : List LogRecord} (hpre : rs <+: rs') {previous : ObjectId}
    {sequence : ℕ} (h : Chained c previous sequence rs') : Chained c previous sequence rs := by
  induction rs generalizing rs' previous sequence with
  | nil => trivial
  | cons r rs ih =>
    obtain ⟨rest, rfl⟩ := hpre
    exact ⟨h.1, h.2.1, ih (List.prefix_append rs rest) h.2.2⟩

/-- A log with fewer records is shorter. -/
theorem length_encodeLog_le {rs rs' : List LogRecord} (hpre : rs <+: rs') :
    (encodeLog c rs).length ≤ (encodeLog c rs').length := by
  obtain ⟨rest, rfl⟩ := hpre
  rw [encodeLog_append, List.length_append]
  exact Nat.le_add_right _ _

/-- **The repair of a log that was cut**: the records stay up to the first whose snapshot is not
there. -/
theorem repairSuffix_of_inv {s : RefFiles} {done done₁ : List LogRecord} {durable : ℕ}
    {present : ObjectId → Bool} (h : RefLog.Inv c s done) (hdone₁ : done₁ <+: done)
    (hdurable : durable ≤ (encodeLog c done₁).length)
    (hpresent : ∀ r ∈ done₁, present r.snapshotId = true) (truncated : LogStat) :
    ∃ cut s', RefLog.repairSuffix c durable
      (fun id => (.ok (present id) : Except ε Bool)) truncated s =
        (.ok cut, s') ∧
      RefLog.Inv c s' (done.takeWhile fun r => present r.snapshotId) ∧
      s'.bytes = encodeLog c (done.takeWhile fun r => present r.snapshotId) := by
  obtain ⟨t, hbytes, ht⟩ := h.log
  have hkept : done₁ <+: done.takeWhile fun r => present r.snapshotId := by
    obtain ⟨rest, rfl⟩ := hdone₁
    rw [List.takeWhile_append_of_pos hpresent]
    exact List.prefix_append _ _
  have hpre : (done.takeWhile fun r => present r.snapshotId) <+: done := List.takeWhile_prefix _
  have hdurable' := hdurable.trans (length_encodeLog_le (c := c) hkept)
  have hlen :
      (encodeLog c (done.takeWhile fun r => present r.snapshotId)).length ≤ s.bytes.length := by
    rw [hbytes, List.length_append]
    exact (length_encodeLog_le hpre).trans (Nat.le_add_right _ _)
  have hloop :=
    repairLoop_encodeLog (ε := ε) durable present ht (s.bytes.length + 1) [] h.chain h.small
      (by rwa [List.length_nil, Nat.zero_add])
      (by rw [List.nil_append, ← hbytes, List.length_nil]; omega)
  rw [List.nil_append, List.length_nil, Nat.zero_add, ← hbytes] at hloop
  have hopen : (RefLog.openLog s).bytes = s.bytes := rfl
  have hshort : ¬ s.bytes.length < durable := not_lt.mpr (hdurable'.trans hlen)
  unfold RefLog.repairSuffix
  dsimp only
  rw [hopen, hloop, if_neg hshort]
  split_ifs with hall
  · have hsame : (done.takeWhile fun r => present r.snapshotId) = done :=
      List.takeWhile_eq_self_iff.mpr fun r hr => List.all_eq_true.mp hall.1 r hr
    rw [hsame]
    refine ⟨false, _, rfl, h.openLog, ?_⟩
    rw [hopen, hbytes, hall.2, List.append_nil]
  · generalize (done.takeWhile fun r => present r.snapshotId) = kept at *
    have hsmall : ∀ r ∈ kept, r.Small c := fun r hr => h.small r (hpre.subset hr)
    have hchain : Chained c zeroId 1 kept := chained_of_prefix hpre h.chain
    have htake : s.bytes.take (encodeLog c kept).length = encodeLog c kept := by
      obtain ⟨rest, rfl⟩ := hpre
      rw [hbytes, encodeLog_append, List.append_assoc, List.take_left]
    have hscan := scan_encodeLog hchain hsmall (Or.inl rfl) []
    rw [List.nil_append, List.append_nil, List.length_nil, Nat.zero_add] at hscan
    have hlimit : (encodeLog c kept).length < fileLimit := hlen.trans_lt h.limit
    refine ⟨true, _, rfl, RefLog.Clean.inv ⟨htake, ⟨_, rfl, ?_⟩, hsmall, hchain, ?_⟩, htake⟩
    · exact indexOf_rewriteIndex c (hscan.fits (Nat.zero_le _) hlimit _)
    · exact (congrArg List.length htake).trans_lt hlimit

/-- **A log that is cut at any byte and repaired** keeps what is durable, and nothing whose snapshot
is not there. -/
theorem repairSuffix_of_cut {s : RefFiles} {done done₁ : List LogRecord} {durable n : ℕ}
    {present : ObjectId → Bool} (h : RefLog.Inv c s done) (hwhole : s.bytes = encodeLog c done)
    (hdone₁ : done₁ <+: done) (hdurable : durable = (encodeLog c done₁).length) (hn : durable ≤ n)
    (hpresent : ∀ r ∈ done₁, present r.snapshotId = true) (stat truncated : LogStat) :
    ∃ kept cut s', RefLog.repairSuffix c durable
      (fun id => (.ok (present id) : Except ε Bool)) truncated
        ⟨some (s.bytes.take n), none, stat⟩ = (.ok cut, s') ∧ kept <+: done ∧ RefLog.Inv c s' kept ∧
      s'.bytes = encodeLog c kept ∧ (∀ r ∈ kept, present r.snapshotId = true) ∧
      ∀ done₂, done₂ <+: done → (encodeLog c done₂).length ≤ n →
      (∀ r ∈ done₂, present r.snapshotId = true) →
        done₂ <+: kept := by
  obtain ⟨whole, tail, hpre, htake, htorn, hmost⟩ := take_encodeLog (c := c) (Or.inl rfl) h.small n
  rw [List.append_nil, ← hwhole] at htake
  have hinv : RefLog.Inv c ⟨some (s.bytes.take n), none, stat⟩ whole :=
    ⟨⟨tail, htake, htorn⟩, fun r hr => h.small r (hpre.subset hr), chained_of_prefix hpre h.chain,
      ((List.length_take_le' n s.bytes).trans_lt h.limit), trivial⟩
  obtain ⟨cut, s', hrun, hs', hbytes⟩ := repairSuffix_of_inv (ε := ε) hinv
    (hmost done₁ hdone₁ (hdurable ▸ hn)) hdurable.le hpresent truncated
  refine ⟨_, cut, s', hrun, (List.takeWhile_prefix _).trans hpre, hs', hbytes, fun r hr => ?_,
    fun done₂ hdone₂ hlen hall => ?_⟩
  · exact List.mem_takeWhile_imp (p := fun r : LogRecord => present r.snapshotId) hr
  · obtain ⟨rest, hrest⟩ := hmost done₂ hdone₂ hlen
    rw [← hrest, List.takeWhile_append_of_pos hall]
    exact List.prefix_append _ _

end Logs

/-! ## The invariant -/

section Invariant

variable {R : Type} {env : Env}

/-- Lengths that were sampled are at the ends of records whose snapshots are known. -/
def RefsFit (codec : RefCodec) (logs : Bytes → List LogRecord) (known : ObjectId → Prop)
    (refs : OrdMap Bytes ℕ) : Prop :=
  ∀ workspace n, refs.get? workspace = some n → ∃ done, done <+: logs workspace ∧
    n = (encodeLog codec done).length ∧ ∀ r ∈ done, known r.snapshotId

/-- **A frontier claims no reference without its snapshot.** -/
def FrontierFits (env : Env) (rs : List PackRecord) (logs : Bytes → List LogRecord) (f : Frontier) :
    Prop :=
  ∃ rs₁, rs₁ <+: rs ∧ f.pack = (encodeAll env.hash rs₁).length ∧
    RefsFit env.codec logs (fun id => id ∈ rs₁.map (PackRecord.id env.hash)) f.refs

/-- A frontier is flushed. -/
def Flushed (s : State R) (f : Frontier) : Prop :=
  f.pack ≤ s.flushedPack ∧ ∀ w, f.ref w ≤ s.flushedLogs w

/-- What a group commit has sampled and flushed. -/
def PhaseFits (env : Env) (s : State R) (rs : List PackRecord) (logs : Bytes → List LogRecord) :
    Phase → Prop
  | .idle => True
  | .sampling refs _ => RefsFit env.codec logs (fun id => (s.catalog.object id).isSome = true) refs
  | .sampled f => FrontierFits env rs logs f
  | .flushing f todo => FrontierFits env rs logs f ∧ f.pack ≤ s.flushedPack ∧
      ∀ w, w ∉ todo → f.ref w ≤ s.flushedLogs w
  | .renamed => True

/-- What a transaction has appended: the last records. -/
structure RunFits (hash : Bytes → ObjectId) (name : PackName) (rs : List PackRecord)
    (run : AppendRun) : Prop where
  pack : run.pack = name
  parts :
    ∃ rs₁ rs₂, rs = rs₁ ++ rs₂ ∧ run.start = (encodeAll hash rs₁).length ∧ run.objects = rs₂.length
  stop : run.end_ = (encodeAll hash rs).length
  last : some run.lastObject = (checkpointOf hash rs).lastObject
  lastStart : run.lastRecordStart = (checkpointOf hash rs).lastRecordStart

/-- **What the files of a store are**, in every state: the pack holds records, each behind those
that it refers to; the catalogs are indexes of its first records; the logs hold references whose
snapshots are committed; and the frontiers are flushed. -/
structure Inv (env : Env) (s : State R) (rs : List PackRecord) (logs : Bytes → List LogRecord) :
    Prop where
  pack : s.pack = encodeAll env.hash rs
  distinct : (rs.map (PackRecord.id env.hash)).Nodup
  ordered : ∀ rs₁ r, rs₁ ++ [r] <+: rs → ∀ id ∈ env.links r, id ∈ rs₁.map (PackRecord.id env.hash)
  current : ∃ rs₀, rs₀ <+: rs ∧ Exact env.hash env.name rs₀ s.catalog ∧ (s.batch = none → rs₀ = rs)
  earlier : ∀ c ∈ s.earlier, ∃ rs₀, rs₀ <+: rs ∧ Exact env.hash env.name rs₀ c
  batch : ∀ b, s.batch = some b → Exact env.hash env.name rs b.catalog ∧
    ∀ run, b.unsynced = some run → RunFits env.hash env.name rs run
  files : ∀ w, RefLog.Inv env.codec (s.logs w) (logs w)
  whole : ∀ w, (s.logs w).bytes = encodeLog env.codec (logs w)
  snapshots : ∀ w, ∀ r ∈ logs w, (s.catalog.object r.snapshotId).isSome = true
  frontiers : ∀ f ∈ s.published, FrontierFits env rs logs f ∧ Flushed s f
  listed : ∀ f ∈ s.frontier :: s.replaced, f ∈ s.published
  phase : PhaseFits env s rs logs s.phase

/-- References fit longer logs, and more objects. -/
theorem RefsFit.mono {codec : RefCodec} {logs logs' : Bytes → List LogRecord}
    {known known' : ObjectId → Prop} {refs : OrdMap Bytes ℕ} (h : RefsFit codec logs known refs)
    (hlogs : ∀ w, logs w <+: logs' w) (hknown : ∀ id, known id → known' id) :
    RefsFit codec logs' known' refs := by
  intro w n hn
  obtain ⟨done, hdone, hlen, hall⟩ := h w n hn
  exact ⟨done, hdone.trans (hlogs w), hlen, fun r hr => hknown _ (hall r hr)⟩

/-- What is durable of a log are records whose snapshots are known. -/
theorem RefsFit.exists_done {codec : RefCodec} {logs : Bytes → List LogRecord}
    {known : ObjectId → Prop} {f : Frontier} (h : RefsFit codec logs known f.refs) (w : Bytes) :
    ∃ done, done <+: logs w ∧
      f.ref w = (encodeLog codec done).length ∧ ∀ r ∈ done, known r.snapshotId := by
  unfold Frontier.ref
  cases hget : f.refs.get? w with
  | none => exact ⟨[], List.nil_prefix, rfl, nofun⟩
  | some n => exact h w n hget

/-- A frontier fits a longer pack and longer logs. -/
theorem FrontierFits.mono {rs rs' : List PackRecord} {logs logs' : Bytes → List LogRecord}
    {f : Frontier} (h : FrontierFits env rs logs f) (hrs : rs <+: rs')
    (hlogs : ∀ w, logs w <+: logs' w) : FrontierFits env rs' logs' f := by
  obtain ⟨rs₁, hrs₁, hlen, hrefs⟩ := h
  exact ⟨rs₁, hrs₁.trans hrs, hlen, hrefs.mono hlogs fun _ hid => hid⟩

/-- What a group commit has sampled fits a longer pack and longer logs. -/
theorem PhaseFits.mono {s s' : State R} {rs rs' : List PackRecord}
    {logs logs' : Bytes → List LogRecord} {phase : Phase} (h : PhaseFits env s rs logs phase)
    (hrs : rs <+: rs') (hlogs : ∀ w, logs w <+: logs' w)
    (hcatalog : ∀ id, (s.catalog.object id).isSome = true → (s'.catalog.object id).isSome = true)
    (hpack : s'.flushedPack = s.flushedPack) (hflushed : s'.flushedLogs = s.flushedLogs) :
    PhaseFits env s' rs' logs' phase := by
  cases phase with
  | idle => trivial
  | sampling refs todo =>
    have hrefs : RefsFit env.codec logs (fun id => (s.catalog.object id).isSome = true) refs := h
    exact hrefs.mono hlogs hcatalog
  | sampled f =>
    have hfits : FrontierFits env rs logs f := h
    exact hfits.mono hrs hlogs
  | flushing f todo =>
    obtain ⟨hfits, hle, hall⟩ := h
    refine ⟨hfits.mono hrs hlogs, hpack ▸ hle, fun w hw => ?_⟩
    rw [hflushed]
    exact hall w hw
  | renamed => trivial

/-- The invariant holds of a new store. -/
theorem inv_new (stat : LogStat) : Inv env (.new stat : State R) [] fun _ => [] where
  pack := rfl
  distinct := List.nodup_nil
  ordered rs₁ r hpre := absurd (List.prefix_nil.mp hpre) (by simp)
  current := ⟨[], List.prefix_rfl, exact_empty, fun _ => rfl⟩
  earlier := nofun
  batch := nofun
  files _ := RefLog.inv_start env.codec stat
  whole _ := rfl
  snapshots := nofun
  frontiers f hf := by
    obtain rfl := List.mem_singleton.mp hf
    exact ⟨⟨[], List.prefix_rfl, rfl, nofun⟩, le_rfl, fun _ => Nat.le_refl 0⟩
  listed _ hf := hf
  phase := trivial

/-! ## Captures -/

variable {s : State R} {rs : List PackRecord} {logs : Bytes → List LogRecord}

/-- A batch that begins keeps the invariant. -/
theorem Inv.begin (h : Inv env s rs logs) : Inv env s.begin rs logs := by
  unfold State.begin
  cases hbatch : s.batch with
  | some b => exact h
  | none =>
    obtain ⟨rs₀, hpre, hexact, hall⟩ := h.current
    obtain rfl := hall hbatch
    refine ⟨h.pack, h.distinct, h.ordered, ⟨rs₀, hpre, hexact, fun _ => rfl⟩, h.earlier,
      ?_, h.files, h.whole, h.snapshots, h.frontiers, h.listed, ?_⟩
    · rintro b hb
      obtain rfl := Option.some.inj hb
      exact ⟨hexact, nofun⟩
    · exact PhaseFits.mono (s :=
        s) h.phase List.prefix_rfl (fun _ => List.prefix_rfl) (fun _ hid => hid) rfl rfl

/-- One more record of a run. -/
theorem RunFits.thenRecord {hash : Bytes → ObjectId} {name : PackName} {run : Option AppendRun}
    (h : ∀ r, run = some r → RunFits hash name rs r) (r : PackRecord) :
    RunFits hash name (rs ++ [r])
      (AppendRun.thenRecord run name (r.id hash) (encodeAll hash rs).length
      (encodeAll hash (rs ++ [r])).length) := by
  have hlast : (checkpointOf hash (rs ++ [r])).lastObject = some (r.id hash) := by
    rw [checkpointOf_append]
    rfl
  have hstart : (checkpointOf hash (rs ++ [r])).lastRecordStart = (encodeAll hash rs).length := by
    rw [checkpointOf_append, ← verifiedLen_checkpointOf]
    rfl
  unfold AppendRun.thenRecord
  cases hrun : run with
  | none => exact ⟨rfl, ⟨rs, [r], rfl, rfl, rfl⟩, rfl, hlast.symm, hstart.symm⟩
  | some old =>
    obtain ⟨hpack, ⟨rs₁, rs₂, rfl, hfrom, hobjects⟩, hstop, -, -⟩ := h old hrun
    rw [Option.filter_some, if_pos (by rw [hpack, hstop]; simp)]
    refine ⟨hpack, ⟨rs₁, rs₂ ++ [r], List.append_assoc _ _ _, hfrom, ?_⟩, rfl,
      hlast.symm, hstart.symm⟩
    dsimp only
    rw [hobjects, List.length_append, List.length_singleton]

/-- An object that is put keeps the invariant; the pack may have one record more. -/
theorem Inv.put (h : Inv env s rs logs) (r : PackRecord) :
    ∃ rs', Inv env (s.put env r) rs' logs := by
  unfold State.put
  cases hbatch : s.batch with
  | none => exact ⟨rs, h⟩
  | some b =>
    dsimp only
    split_ifs with hthere hlinks
    · exact ⟨rs, h⟩
    · obtain ⟨hexact, hrun⟩ := h.batch b hbatch
      have hnone : b.catalog.object (r.id env.hash) = none := by simpa using hthere
      have hpre : rs <+: rs ++ [r] := List.prefix_append _ _
      have hencode : s.pack ++ r.encode env.hash = encodeAll env.hash (rs ++ [r]) := by
        rw [h.pack, encodeAll_append, encodeAll_cons, encodeAll_nil, List.append_nil]
      obtain ⟨rs₀, hrs₀, hcurrent, -⟩ := h.current
      refine ⟨rs ++ [r],
        ⟨hencode, ?_, ?_, ⟨rs₀, hrs₀.trans hpre, hcurrent, nofun⟩, fun c hc => ?_, ?_, h.files,
          h.whole, h.snapshots,
        fun f hf => ⟨(h.frontiers f hf).1.mono hpre fun _ => List.prefix_rfl, (h.frontiers f hf).2⟩,
        h.listed, ?_⟩⟩
      · rw [List.map_append, List.nodup_append']
        refine ⟨h.distinct, List.nodup_singleton _, ?_⟩
        rw [List.map_singleton, List.disjoint_singleton, ← hexact.isSome_iff, hnone]
        simp
      · intro rs₁ r' hrs₁ id hid
        rcases List.prefix_concat_iff.mp hrs₁ with heq | hold
        · obtain ⟨rfl, hr⟩ := List.append_inj' heq rfl
          obtain rfl := List.singleton_injective hr
          exact hexact.isSome_iff.mp (List.all_eq_true.mp hlinks id hid)
        · exact h.ordered rs₁ r' hold id hid
      · obtain ⟨rs₁, hrs₁, hc'⟩ := h.earlier c hc
        exact ⟨rs₁, hrs₁.trans hpre, hc'⟩
      · rintro b' hb'
        obtain rfl := Option.some.inj hb'
        dsimp only
        rw [hencode, h.pack]
        refine ⟨hexact.insertObject r, fun run hrun' => ?_⟩
        obtain rfl := Option.some.inj hrun'
        exact RunFits.thenRecord hrun r
      · exact PhaseFits.mono (s := s) h.phase hpre (fun _ => List.prefix_rfl) (fun _ hid => hid) rfl
          rfl
    · exact ⟨rs, h⟩

/-- The checkpoint after a transaction. -/
theorem RunFits.extend {hash : Bytes → ObjectId} {name : PackName} {run : AppendRun}
    (h : RunFits hash name rs run) {rs₀ : List PackRecord} (hrs₀ : rs₀ <+: rs)
    {next : PackCheckpoint} (hnext : run.extend (checkpointOf hash rs₀) = some next) :
    next = checkpointOf hash rs := by
  obtain ⟨-, ⟨rs₁, rs₂, rfl, hfrom, hobjects⟩, hstop, hlast, hstart⟩ := h
  unfold AppendRun.extend at hnext
  split_ifs at hnext with hlen
  rw [verifiedLen_checkpointOf, hfrom] at hlen
  have heq : rs₀ = rs₁ := by
    rcases List.prefix_or_prefix_of_prefix hrs₀ (List.prefix_append rs₁ rs₂) with
      ⟨more, rfl⟩ | ⟨more, rfl⟩
    · rw [(length_encodeAll_append_eq_iff hash rs₀ more).mp hlen.symm, List.append_nil]
    · rw [(length_encodeAll_append_eq_iff hash rs₁ more).mp hlen, List.append_nil]
  rw [← Option.some.inj hnext, hstop, hlast, hstart, hobjects, heq, objectCount_checkpointOf,
    ← List.length_append, ← verifiedLen_checkpointOf, ← objectCount_checkpointOf hash (rs₁ ++ rs₂)]

/-- The commit of a batch keeps the invariant. -/
theorem Inv.commit (h : Inv env s rs logs) : Inv env (s.commit env) rs logs := by
  unfold State.commit
  cases hbatch : s.batch with
  | none => exact h
  | some b =>
    obtain ⟨hexact, hrun⟩ := h.batch b hbatch
    obtain ⟨rs₀, hrs₀, hcurrent, -⟩ := h.current
    dsimp only
    -- whether or not the checkpoint is moved
    have hnew : Exact env.hash env.name rs
        (match b.unsynced.bind fun run =>
          run.extend ((b.catalog.packCheckpoint env.name).getD .zero) with
          | some next => b.catalog.setPackCheckpoint env.name next
          | none => b.catalog) := by
      cases hnext : b.unsynced.bind fun run =>
        run.extend ((b.catalog.packCheckpoint env.name).getD .zero) with
      | none => exact hexact
      | some next =>
        obtain ⟨run, hrun', hextend⟩ := Option.bind_eq_some_iff.mp hnext
        have hcheckpoint : ∃ rs₁, rs₁ <+: rs ∧
            (b.catalog.packCheckpoint env.name).getD .zero = checkpointOf env.hash rs₁ := by
          cases hk : b.catalog.packCheckpoint env.name with
          | none => exact ⟨[], List.nil_prefix, rfl⟩
          | some k => exact hexact.checkpoint k hk
        obtain ⟨rs₁, hrs₁, hk⟩ := hcheckpoint
        rw [hk] at hextend
        rw [(hrun run hrun').extend hrs₁ hextend]
        exact hexact.setPackCheckpoint
    generalize (match b.unsynced.bind fun run =>
      run.extend ((b.catalog.packCheckpoint env.name).getD .zero) with
      | some next => b.catalog.setPackCheckpoint env.name next
      | none => b.catalog) = c at hnew ⊢
    have hgrow : ∀ id, (s.catalog.object id).isSome = true → (c.object id).isSome = true :=
      fun id hid =>
      hnew.isSome_iff.mpr ((hrs₀.map _).subset (hcurrent.isSome_iff.mp hid))
    refine ⟨h.pack, h.distinct, h.ordered, ⟨rs, List.prefix_rfl, hnew, fun _ => rfl⟩, fun c' hc' =>
      ?_, nofun, h.files, h.whole, fun w r hr => hgrow _ (h.snapshots w r hr), h.frontiers,
        h.listed, ?_⟩
    · rcases List.mem_cons.mp hc' with rfl | hc'
      · exact ⟨rs₀, hrs₀, hcurrent⟩
      · exact h.earlier c' hc'
    · exact PhaseFits.mono (s := s) h.phase List.prefix_rfl (fun _ => List.prefix_rfl) hgrow rfl rfl

/-- A reference keeps the invariant; its log may have one record more. -/
theorem Inv.reference (h : Inv env s rs logs) (workspace : Bytes) (truncated written : LogStat)
    (a : RefLog.Append) :
    ∃ logs', Inv env (s.reference env workspace truncated written a) rs logs' := by
  unfold State.reference
  split_ifs with hnone
  · exact ⟨logs, h⟩
  · obtain ⟨file, hrun, hfile, hbytes⟩ := (h.files workspace).appendOrdered truncated written none a
    rw [hrun]
    have hadded : RefLog.completeAppend env.codec none a (logs workspace) = logs workspace ∨
        RefLog.completeAppend env.codec none a (logs workspace) =
          logs workspace ++ [RefLog.nextRecord env.codec (logs workspace) a] := by
      unfold RefLog.completeAppend
      split_ifs
      · exact Or.inl rfl
      · exact Or.inl rfl
      · exact Or.inl rfl
      · exact Or.inl rfl
      · exact Or.inr rfl
    generalize RefLog.completeAppend env.codec none a (logs workspace) = done at hfile hbytes hadded
    have hlogs : ∀ w, logs w <+: Function.update logs workspace done w := by
      intro w
      by_cases hw : w = workspace
      · subst hw
        rw [Function.update_self]
        rcases hadded with rfl | rfl
        · exact List.prefix_rfl
        · exact List.prefix_append _ _
      · rw [Function.update_of_ne hw]
    refine ⟨Function.update logs workspace done, h.pack, h.distinct, h.ordered, h.current,
      h.earlier, h.batch, fun w => ?_, fun w => ?_, fun w r hr => ?_,
      fun f hf => ⟨(h.frontiers f hf).1.mono List.prefix_rfl hlogs, (h.frontiers f hf).2⟩, h.listed,
      PhaseFits.mono (s := s) h.phase List.prefix_rfl hlogs (fun _ hid => hid) rfl rfl⟩
    · by_cases hw : w = workspace
      · subst hw
        simpa only [Function.update_self] using hfile
      · simpa only [Function.update_of_ne hw] using h.files w
    · by_cases hw : w = workspace
      · subst hw
        simpa only [Function.update_self] using hbytes rfl
      · simpa only [Function.update_of_ne hw] using h.whole w
    · by_cases hw : w = workspace
      · subst hw
        rw [Function.update_self] at hr
        rcases hadded with rfl | rfl
        · exact h.snapshots w r hr
        · rcases List.mem_append.mp hr with hr | hr
          · exact h.snapshots w r hr
          · rw [List.mem_singleton.mp hr]
            simpa [RefLog.nextRecord, Option.isSome_iff_ne_none] using hnone
      · rw [Function.update_of_ne hw] at hr
        exact h.snapshots w r hr

/-! ## The group commit -/

/-- A frontier is within what has been written. -/
theorem FrontierFits.bounds {f : Frontier} (hf : FrontierFits env rs logs f) :
    f.pack ≤ (encodeAll env.hash rs).length ∧
    ∀ w, f.ref w ≤ (encodeLog env.codec (logs w)).length := by
  obtain ⟨rs₁, hrs₁, hpack, hrefs⟩ := hf
  refine ⟨hpack ▸ length_encodeAll_le hrs₁, fun w => ?_⟩
  obtain ⟨done, hdone, hlen, -⟩ := hrefs.exists_done w
  exact hlen ▸ length_encodeLog_le hdone

/-- Only the group commit has gone on. -/
theorem Inv.of_phase (h : Inv env s rs logs) {phase : Phase}
    (hphase : PhaseFits env s rs logs phase) : Inv env { s with phase := phase } rs logs :=
  ⟨h.pack, h.distinct, h.ordered, h.current, h.earlier, h.batch, h.files, h.whole, h.snapshots,
    h.frontiers, h.listed, by
    cases phase with
    | idle => trivial
    | sampling refs todo => exact hphase
    | sampled f => exact hphase
    | flushing f todo => exact hphase
    | renamed => trivial⟩

/-- A group commit that starts keeps the invariant. -/
theorem Inv.startSync (h : Inv env s rs logs) (listing : List Bytes) :
    Inv env (s.startSync listing) rs logs := by
  unfold State.startSync
  cases hphase : s.phase with
  | idle => exact h.of_phase fun w n hn => absurd hn (by simp)
  | sampling _ _ => exact h
  | sampled _ => exact h
  | flushing _ _ => exact h
  | renamed => exact h

/-- Every step of a group commit keeps the invariant. -/
theorem Inv.advance (h : Inv env s rs logs) : Inv env (s.advance env) rs logs := by
  have hfits := h.phase
  unfold State.advance
  cases hphase : s.phase with
  | idle => exact h
  | sampling refs todo =>
    rw [hphase] at hfits
    have hrefs : RefsFit env.codec logs (fun id => (s.catalog.object id).isSome = true) refs :=
      hfits
    cases todo with
    | nil =>
      dsimp only
      split_ifs
      · exact h.of_phase trivial
      · obtain ⟨rs₀, hrs₀, hcurrent, -⟩ := h.current
        refine h.of_phase ⟨rs₀, hrs₀, ?_, hrefs.mono (fun _ => List.prefix_rfl) fun _ hid =>
          hcurrent.isSome_iff.mp hid⟩
        exact hcurrent.packHighWater ((hrs₀.map _).sublist.nodup h.distinct)
    | cons workspace todo =>
      refine h.of_phase fun w n hn => ?_
      rw [OrdMap.get?_insert] at hn
      split_ifs at hn with hw
      · refine ⟨logs w, List.prefix_rfl, ?_, fun r hr => h.snapshots w r hr⟩
        rw [← Option.some.inj hn, ← hw, h.whole]
      · exact hrefs w n hn
  | sampled f =>
    rw [hphase] at hfits
    have hf : FrontierFits env rs logs f := hfits
    refine ⟨h.pack, h.distinct, h.ordered, h.current, h.earlier, h.batch, h.files,
      h.whole, h.snapshots, fun f' hf' => ?_, h.listed, hf, ?_, fun w hw => ?_⟩
    · obtain ⟨hfits', -, hrefs⟩ := h.frontiers f' hf'
      exact ⟨hfits', h.pack ▸ hfits'.bounds.1, hrefs⟩
    · exact h.pack ▸ hf.bounds.1
    · have hnone : f.refs.get? w = none := by
        by_contra hsome
        exact hw (f.refs.mem_keys_iff.mpr (Option.isSome_iff_ne_none.mpr hsome))
      unfold Frontier.ref
      rw [hnone]
      exact Nat.zero_le _
  | flushing f todo =>
    rw [hphase] at hfits
    obtain ⟨hf, hpack, hflushed⟩ := hfits
    cases todo with
    | nil =>
      refine ⟨h.pack, h.distinct, h.ordered, h.current, h.earlier, h.batch, h.files,
        h.whole, h.snapshots, fun f' hf' => ?_, fun f' hf' => ?_, trivial⟩
      · rcases List.mem_cons.mp hf' with rfl | hold
        · exact ⟨hf, hpack, fun w => hflushed w List.not_mem_nil⟩
        · exact h.frontiers f' hold
      · rcases List.mem_cons.mp hf' with rfl | hold
        · exact List.mem_cons_self
        · exact List.mem_cons_of_mem _ (h.listed f' hold)
    | cons workspace todo =>
      have hmore :
          ∀ f', FrontierFits env rs logs f' → ∀ w, (w ≠ workspace → f'.ref w ≤ s.flushedLogs w) →
            f'.ref w ≤
            Function.update s.flushedLogs workspace (s.logs workspace).bytes.length w := by
        intro f' hf' w hle
        by_cases hw : w = workspace
        · subst hw
          rw [Function.update_self, h.whole]
          exact hf'.bounds.2 w
        · rw [Function.update_of_ne hw]
          exact hle hw
      refine ⟨h.pack, h.distinct, h.ordered, h.current, h.earlier, h.batch, h.files,
        h.whole, h.snapshots, fun f' hf' => ?_, h.listed, hf, hpack, fun w hw => ?_⟩
      · obtain ⟨hfits', hle, hrefs⟩ := h.frontiers f' hf'
        exact ⟨hfits', hle, fun w => hmore f' hfits' w fun _ => hrefs w⟩
      · exact hmore f hf w fun hne => hflushed w fun hmem => (List.mem_cons.mp hmem).elim hne hw
  | renamed =>
    exact ⟨h.pack, h.distinct, h.ordered, h.current, h.earlier, h.batch, h.files,
      h.whole, h.snapshots, h.frontiers, fun f hf =>
        h.listed f (List.mem_cons.mpr (Or.inl (List.mem_singleton.mp hf))),
      trivial⟩

/-! ## Power losses -/

/-- The frontier that is left has been published. -/
theorem Inv.frontier_lose (h : Inv env s rs logs) (loss : Loss) :
    (s.lose loss).frontier ∈ s.published := by
  unfold State.lose
  dsimp only
  cases hget : s.replaced[loss.frontier]? with
  | none => exact h.listed _ List.mem_cons_self
  | some f => exact h.listed _ (List.mem_cons_of_mem _ (List.mem_of_getElem? hget))

/-- The catalog that is left, unless a recovery is taken back, is an index of the first records. -/
theorem Inv.catalog_lose (h : Inv env s rs logs) {loss : Loss} (hloss : ¬ s.Forgets loss) :
    ∃ rs₀, rs₀ <+: rs ∧ Exact env.hash env.name rs₀ (s.lose loss).catalog := by
  unfold State.lose
  dsimp only
  cases hget : (s.earlier ++ s.unrecovered.toList)[loss.catalog]? with
  | none =>
    obtain ⟨rs₀, hrs₀, hexact, -⟩ := h.current
    exact ⟨rs₀, hrs₀, hexact⟩
  | some c =>
    refine h.earlier c ?_
    rcases lt_or_ge loss.catalog s.earlier.length with hlt | hge
    · rw [List.getElem?_append_left hlt] at hget
      exact List.mem_of_getElem? hget
    · rw [List.getElem?_append_right hge] at hget
      cases hbefore : s.unrecovered with
      | none =>
        rw [hbefore] at hget
        exact absurd hget (by simp)
      | some before =>
        rw [hbefore, Option.toList_some, List.getElem?_singleton] at hget
        split_ifs at hget
        exact absurd ⟨by rw [hbefore]; rfl, by omega⟩ hloss

/-- **A recovery succeeds from what a power loss leaves** that takes back no recovery, and keeps
every reference that a frontier has ever claimed. -/
theorem recover_of_inv (h : Inv env s rs logs) {loss : Loss} (hloss : ¬ s.Forgets loss)
    (truncated : Bytes → LogStat) :
    ∃ s' repaired kept keptLogs, recover env truncated (s.lose loss) = .ok (s', repaired) ∧
      Inv env s' kept keptLogs ∧ kept <+: rs ∧
      ∀ w, (∃ cut, repaired w = .ok cut) ∧ keptLogs w <+: logs w ∧
        ∀ f ∈ s.published, f.ref w ≤ (encodeLog env.codec (keptLogs w)).length := by
  have hmem := h.frontier_lose loss
  obtain ⟨rs₀, hrs₀, hexact⟩ := h.catalog_lose hloss
  generalize hf₀ : (s.lose loss).frontier = f₀ at hmem
  generalize hc₀ : (s.lose loss).catalog = c₀ at hexact
  -- the pack
  obtain ⟨kept, tail, hkept, htake, hvalid, hmost⟩ :=
    take_encodeAll env.hash rs (max s.flushedPack loss.pack)
  have hclaimed : ∀ f ∈ s.published, ∃ rs₁, rs₁ <+: kept ∧
      f.pack = (encodeAll env.hash rs₁).length ∧
      RefsFit env.codec logs (fun id => id ∈ rs₁.map (PackRecord.id env.hash)) f.refs := by
    intro f hf
    obtain ⟨⟨rs₁, hrs₁, hlen, hrefs⟩, hflushed, -⟩ := h.frontiers f hf
    exact ⟨rs₁, hmost rs₁ hrs₁ (hlen ▸ hflushed.trans (le_max_left _ _)), hlen, hrefs⟩
  obtain ⟨rs₁, hrs₁, hlen₁, hrefs₁⟩ := hclaimed f₀ hmem
  obtain ⟨c, hrun, hnew⟩ :=
    recoverPack_of_cut hexact ((hrs₀.map _).sublist.nodup h.distinct) hrs₀ hkept hvalid
      (hlen₁ ▸ length_encodeAll_le hrs₁ : f₀.pack ≤ (encodeAll env.hash kept).length)
  have hthere : ∀ rs₂, rs₂ <+: kept → ∀ id ∈ rs₂.map (PackRecord.id env.hash),
    (c.object id).isSome = true :=
    fun rs₂ hrs₂ id hid => hnew.isSome_iff.mpr ((hrs₂.map _).subset hid)
  -- the logs
  have hlog :
      ∀ w, ∃ keptLog cut file, repair env c f₀ w (truncated w) ((s.lose loss).logs w) =
        (.ok cut, file) ∧
      keptLog <+: logs w ∧ RefLog.Inv env.codec file keptLog ∧
        file.bytes = encodeLog env.codec keptLog ∧
      (∀ r ∈ keptLog, (c.object r.snapshotId).isSome = true) ∧
      ∀ done, done <+: logs w →
        (encodeLog env.codec done).length ≤ max (s.flushedLogs w) (loss.logs w) →
          (∀ r ∈ done, (c.object r.snapshotId).isSome = true) → done <+: keptLog := by
    intro w
    obtain ⟨done₁, hdone₁, hlen, hall⟩ := hrefs₁.exists_done w
    exact repairSuffix_of_cut (ε := PackError) (h.files w) (h.whole w) hdone₁ hlen
      (((h.frontiers f₀ hmem).2.2 w).trans (le_max_left _ _)) (fun r hr =>
        hthere rs₁ hrs₁ _ (hall r hr)) _ _
  choose keptLogs cuts files hrepair hpre hfiles hwhole hsnapshots hmostLog using hlog
  -- what a frontier claims of a log stays
  have hstays : ∀ f ∈ s.published, ∀ w done, done <+: logs w →
      f.ref w = (encodeLog env.codec done).length →
        (∀ r ∈ done, (c.object r.snapshotId).isSome = true) → done <+: keptLogs w :=
        fun f hf w done hdone hlen =>
    hmostLog w done hdone (hlen ▸ ((h.frontiers f hf).2.2 w).trans (le_max_left _ _))
  have hclaims : ∀ f ∈ s.published, ∀ w, f.ref w ≤ (encodeLog env.codec (keptLogs w)).length := by
    intro f hf w
    obtain ⟨rs₂, hrs₂, -, hrefs⟩ := hclaimed f hf
    obtain ⟨done, hdone, hlen, hall⟩ := hrefs.exists_done w
    exact hlen ▸ length_encodeLog_le (hstays f hf w done hdone hlen fun r hr =>
      hthere rs₂ hrs₂ _ (hall r hr))
  have hpack : (s.lose loss).pack = encodeAll env.hash kept ++ tail := by
    rw [← htake, ← h.pack]
    rfl
  have hrecover : ∃ before, recover env truncated (s.lose loss) = .ok
      (⟨encodeAll env.hash kept, c, [], before, none, files, (encodeAll env.hash kept).length,
        fun w => (files w).bytes.length, f₀, [], s.published, .idle⟩, fun w => .ok (cuts w)) := by
    unfold recover
    rw [hpack, hc₀, hf₀, hrun]
    dsimp only
    simp only [hrepair]
    exact ⟨_, rfl⟩
  obtain ⟨before, hrecover⟩ := hrecover
  refine ⟨_, _, kept, keptLogs, hrecover, ?_, hkept, fun w =>
    ⟨⟨cuts w, rfl⟩, hpre w, fun f hf => hclaims f hf w⟩⟩
  refine ⟨rfl, (hkept.map _).sublist.nodup h.distinct, fun rs₂ r hrs₂ =>
    h.ordered rs₂ r (hrs₂.trans hkept), ⟨kept, List.prefix_rfl, hnew, fun _ => rfl⟩, nofun, nofun,
      hfiles, hwhole, hsnapshots, fun f hf => ?_,
    fun f hf => List.mem_singleton.mp hf ▸ hmem, trivial⟩
  obtain ⟨rs₂, hrs₂, hlen₂, hrefs₂⟩ := hclaimed f hf
  refine ⟨⟨rs₂, hrs₂, hlen₂, fun w n hn => ?_⟩, hlen₂ ▸ length_encodeAll_le hrs₂, fun w => ?_⟩
  · obtain ⟨done, hdone, hlen, hall⟩ := hrefs₂ w n hn
    have href : f.ref w = n := by
      unfold Frontier.ref
      rw [hn]
      rfl
    exact ⟨done, hstays f hf w done hdone (href.trans hlen) fun r hr =>
      hthere rs₂ hrs₂ _ (hall r hr), hlen, hall⟩
  · dsimp only
    rw [hwhole w]
    exact hclaims f hf w

/-! ## Runs -/

/-- One step that takes back no recovery. -/
theorem Inv.step (h : Inv env s rs logs) {a : Step} (ha : a.Remembers s) :
    ∃ rs' logs', Inv env (step env s a) rs' logs' := by
  cases a with
  | begin => exact ⟨rs, logs, h.begin⟩
  | put r =>
    obtain ⟨rs', h'⟩ := h.put r
    exact ⟨rs', logs, h'⟩
  | commit => exact ⟨rs, logs, h.commit⟩
  | reference workspace truncated written a =>
    obtain ⟨logs', h'⟩ := h.reference workspace truncated written a
    exact ⟨rs, logs', h'⟩
  | startSync listing => exact ⟨rs, logs, h.startSync listing⟩
  | advance => exact ⟨rs, logs, h.advance⟩
  | abort => exact ⟨rs, logs, h.of_phase trivial⟩
  | powerLoss loss truncated =>
    obtain ⟨s', repaired, kept, keptLogs, hrun, h', -⟩ := recover_of_inv h ha truncated
    refine ⟨kept, keptLogs, ?_⟩
    unfold Group.step
    dsimp only
    rw [hrun]
    exact h'

/-- **What holds in every state of a run**, through any power losses that take back no recovery. -/
theorem inv_run (stat : LogStat) {steps : List Step}
    (hsteps : Run.Along (step env) (fun s a => a.Remembers s) (.new stat : State R) steps) :
    ∃ rs logs, Inv env (run env steps (.new stat : State R)) rs logs := by
  have hthroughout : Run.Throughout (step env) (fun s => ∃ rs logs, Inv env s rs logs)
      (.new stat : State R) steps :=
    Run.Along.throughout (fun s a ⟨rs, logs, h⟩ ha => h.step ha) ⟨[], fun _ => [],
      inv_new stat⟩ hsteps
  exact hthroughout.last

/-! ## References and their objects -/

/-- The record of an object is found. -/
theorem stored_of_exact {rs₀ : List PackRecord} {c : Catalog R}
    (hexact : Exact env.hash env.name rs₀ c) (hcatalog : s.catalog = c) {more : Bytes}
    (hpack : s.pack = encodeAll env.hash rs₀ ++ more)
    (hnodup : (rs₀.map (PackRecord.id env.hash)).Nodup) {r : PackRecord} (hr : r ∈ rs₀) :
    stored env s (r.id env.hash) = some r := by
  have hsome : (c.object (r.id env.hash)).isSome = true :=
    hexact.isSome_iff.mpr (List.mem_map_of_mem hr)
  obtain ⟨l, hl⟩ := Option.isSome_iff_exists.mp hsome
  have hlocate := hexact.rows (r.id env.hash)
  rw [hl] at hlocate
  obtain ⟨rs₁, r', rs₂, rfl, hid, hplace⟩ := exists_of_locate hlocate.symm
  obtain rfl : r' = r :=
    List.inj_on_of_nodup_map hnodup (List.mem_append_right _ List.mem_cons_self) hr hid
  have hoffset : l.offset - headerLen = (encodeAll env.hash rs₁).length := by
    rw [hplace]
    unfold PackRecord.location
    dsimp only
    omega
  have hread : readRecord env.hash (s.pack.drop (l.offset - headerLen)) =
      .ok (r', encodeAll env.hash rs₂ ++ more) := by
    rw [readRecord_eq_ok_iff, hoffset, hpack, encodeAll_append, encodeAll_cons,
      List.append_assoc, List.drop_left, List.append_assoc]
  unfold stored
  rw [hcatalog, hl]
  dsimp only
  rw [hread]
  rfl

/-- **What has a row is complete.** -/
theorem Inv.complete (h : Inv env s rs logs) {id : ObjectId}
    (hid : (s.catalog.object id).isSome = true) : Complete env s id := by
  obtain ⟨rs₀, hrs₀, hexact, -⟩ := h.current
  obtain ⟨rest, hrest⟩ := hrs₀
  have hpack : s.pack = encodeAll env.hash rs₀ ++ encodeAll env.hash rest := by
    rw [h.pack, ← hrest, encodeAll_append]
  have hnodup : (rs₀.map (PackRecord.id env.hash)).Nodup :=
    ((hrest ▸ List.prefix_append rs₀ rest : rs₀ <+: rs).map _).sublist.nodup h.distinct
  -- one record after the other
  have hall : ∀ rs₁, rs₁ <+: rs₀ → ∀ r ∈ rs₁, Complete env s (r.id env.hash) := by
    intro rs₁
    induction rs₁ using List.reverseRecOn with
    | nil => exact fun _ r hr => absurd hr List.not_mem_nil
    | append_singleton rs₁ r ih =>
      intro hpre r' hr'
      have hbefore := ih ((List.prefix_append _ _).trans hpre)
      rcases List.mem_append.mp hr' with hr' | hr'
      · exact hbefore r' hr'
      · obtain rfl := List.mem_singleton.mp hr'
        refine .intro
          (stored_of_exact hexact rfl hpack hnodup (hpre.subset (List.mem_append_right _ hr')))
          rfl ?_
        intro target htarget
        obtain ⟨r, hr, rfl⟩ := List.mem_map.mp
          (h.ordered rs₁ r' (hpre.trans (hrest ▸ List.prefix_append rs₀ rest)) target htarget)
        exact hbefore r hr
  obtain ⟨r, hr, rfl⟩ := List.mem_map.mp (hexact.isSome_iff.mp hid)
  exact hall rs₀ List.prefix_rfl r hr

/-- **References never get ahead of their objects.**  After any run of captures, group commits and
power losses that take back no recovery, all that a reference stands for is in the store.  Whatever
a further one leaves, the next process recovers the pack and repairs the logs without an error; the
references that are left are the first ones, among them all that a frontier has ever claimed, and
all that they stand for is in the store. -/
theorem references_complete (env : Env) (stat : LogStat) (steps : List Step) (loss : Loss)
    (truncated : Bytes → LogStat) (read : LogStat)
    (hsteps : Run.Along (step env) (fun s a => a.Remembers s) (.new stat : State R) steps)
    (hloss : ¬ (run env steps (.new stat : State R)).Forgets loss) :
    let s := run env steps (.new stat : State R)
    ∃ s' repaired, recover env truncated (s.lose loss) = .ok (s', repaired) ∧ ∀ w, ∃ done kept,
      (RefLog.records env.codec read (s.logs w)).1 = .ok done ∧
      (∀ r ∈ done, Complete env s r.snapshotId) ∧
      (∃ cut, repaired w = .ok cut) ∧ (RefLog.records env.codec read (s'.logs w)).1 = .ok kept ∧
      kept <+: done ∧
      (∀ f ∈ s.published, f.ref w ≤ (encodeLog env.codec kept).length) ∧
      ∀ r ∈ kept, Complete env s' r.snapshotId := by
  intro s
  obtain ⟨rs, logs, h⟩ : ∃ rs logs, Inv env s rs logs := inv_run stat hsteps
  obtain ⟨s', repaired, kept, keptLogs, hrun, h', -, hall⟩ := recover_of_inv h hloss truncated
  refine ⟨s', repaired, hrun, fun w =>
    ⟨logs w, keptLogs w, ?_, fun r hr => h.complete (h.snapshots w r hr), (hall w).1, ?_,
      (hall w).2.1, (hall w).2.2, fun r hr => h'.complete (h'.snapshots w r hr)⟩⟩
  · obtain ⟨file, hrecords, -⟩ := (h.files w).records read
    rw [hrecords]
  · obtain ⟨file, hrecords, -⟩ := (h'.files w).records read
    rw [hrecords]

end Invariant

/-! ## Sample runs -/

/-- The last bytes, up to thirty-two of them. -/
def sampleLast (b : Bytes) : ObjectId := ⟨(b.reverse ++ List.replicate 32 0).take 32, by simp⟩

/-- A snapshot refers to the object whose identifier it holds. -/
def sampleLinks (r : PackRecord) : List ObjectId :=
  if r.kind = .Snapshot then [⟨(r.payload ++ List.replicate 32 0).take 32, by simp⟩] else []

/-- Objects are named by their last byte, and refer to what their bytes name. -/
def sampleEnv : Env := ⟨sampleLast, samplePack, sampleCodec, sampleLinks⟩

/-- A chunk of one byte. -/
def sampleChunk (b : Byte) : PackRecord := ⟨.Chunk, [b], Nat.le_of_ble_eq_true rfl⟩

/-- The snapshot of a chunk. -/
def sampleSnapshot (b : Byte) : PackRecord :=
  ⟨.Snapshot, ((sampleChunk b).id sampleLast).bytes, by
    rw [ObjectId.length_eq]
    exact Nat.le_of_ble_eq_true rfl⟩

/-- The objects of two chunks and of the snapshot of the first, and a reference to it. -/
def sampleCapture (b : Byte) : List Step :=
  [.begin, .put (sampleChunk b), .put (sampleChunk 120), .put (sampleSnapshot b), .commit,
    .reference [119] sampleStat sampleStat ⟨(sampleSnapshot b).id sampleLast, 0, none, .Manual⟩]

/-- A whole group commit of one workspace. -/
def sampleSync : List Step := .startSync [[119]] :: List.replicate 6 .advance

/-- What was not flushed is lost, but the catalog is left as it is. -/
def sampleLoss : Loss := ⟨0, fun _ => 0, 9, 9⟩

/-- Captures, a power loss in the middle of a group commit, and a group commit. -/
def sampleSteps : List Step :=
  sampleCapture 97 ++ sampleSync.take 4 ++ [.powerLoss sampleLoss fun _ => sampleStat] ++
    sampleCapture 98 ++ sampleSync

/-- Two chunks are lost with the pack; then other captures take their place, and are flushed. -/
def sampleLost : List Step :=
  [.begin, .put (sampleChunk 97), .put (sampleChunk 120), .commit,
    .powerLoss sampleLoss fun _ => sampleStat] ++ sampleCapture 98 ++ sampleSync

/-- **A recovery that is taken back loses an object.**  The rows of the chunks that were lost come
back with the catalog from before the recovery, and its checkpoint passes, for the second chunk is
where it was.  The first one has no row then, but a snapshot of it is kept. -/
theorem forgotten_incomplete : ∃ (steps : List Step) (loss : Loss) (truncated : Bytes → LogStat),
    let s := run sampleEnv steps (.new sampleStat : State Unit)
    Run.Along (step sampleEnv) (fun s a => a.Remembers s) (.new sampleStat : State Unit) steps ∧
      s.Forgets loss ∧ ∃ s' repaired, recover sampleEnv truncated (s.lose loss) = .ok
        (s', repaired) ∧
        ∃ kept r, (RefLog.records sampleCodec sampleStat (s'.logs [119])).1 = .ok kept ∧ r ∈ kept ∧
          ¬ Complete sampleEnv s' r.snapshotId := by
  refine ⟨sampleLost, ⟨0, fun _ => 0, 1, 9⟩, fun _ => sampleStat, ?_, ?_, ?_⟩
  · refine ⟨trivial, trivial, trivial, trivial, fun h => ?_, trivial, trivial, trivial, trivial,
      trivial, trivial, trivial, trivial, trivial, trivial, trivial, trivial, trivial, trivial⟩
    exact absurd h.1 (by decide)
  · exact ⟨by decide +kernel, by decide +kernel⟩
  · have hcheck : (recover sampleEnv (fun _ => sampleStat)
        ((run sampleEnv sampleLost (.new sampleStat : State Unit)).lose ⟨0, fun _ => 0,
          1, 9⟩)).toOption.any
        (fun x => (stored sampleEnv x.1 ((sampleChunk 98).id sampleLast)).isNone &&
          decide (stored sampleEnv x.1 ((sampleSnapshot 98).id sampleLast) =
            some (sampleSnapshot 98)) &&
          (RefLog.records sampleCodec sampleStat (x.1.logs [119])).1.toOption.any fun kept =>
            kept.map LogRecord.snapshotId = [(sampleSnapshot 98).id sampleLast]) = true := by
      decide +kernel
    cases hrun : recover sampleEnv (fun _ => sampleStat)
        ((run sampleEnv sampleLost (.new sampleStat : State Unit)).lose ⟨0, fun _ => 0, 1, 9⟩) with
    | error e =>
      rw [hrun] at hcheck
      exact absurd hcheck (by simp [Except.toOption])
    | ok result =>
      obtain ⟨s', repaired⟩ := result
      rw [hrun, Except.toOption, Option.any_some, Bool.and_eq_true, Bool.and_eq_true,
        Option.isNone_iff_eq_none, decide_eq_true_eq] at hcheck
      obtain ⟨⟨hnone, hsnapshot⟩, hrecords⟩ := hcheck
      cases hkept : (RefLog.records sampleCodec sampleStat (s'.logs [119])).1 with
      | error e =>
        rw [hkept] at hrecords
        exact absurd hrecords (by simp [Except.toOption])
      | ok kept =>
        rw [hkept, Except.toOption, Option.any_some, decide_eq_true_eq] at hrecords
        obtain ⟨r, rfl, hr⟩ := List.map_eq_singleton_iff.mp hrecords
        refine ⟨s', repaired, rfl, [r], r, hkept, List.mem_singleton_self r, fun hcomplete => ?_⟩
        rw [hr] at hcomplete
        obtain ⟨hfound, -, hlinks⟩ := hcomplete
        obtain rfl := Option.some.inj (hfound.symm.trans hsnapshot)
        obtain ⟨hfound', -, -⟩ := hlinks ((sampleChunk 98).id sampleLast) (by decide)
        exact absurd (hfound'.symm.trans hnone) (by simp)

/-- A reference is kept complete when the power is lost after a group commit. -/
theorem references_complete_sample :
    let s := run sampleEnv sampleSteps (.new sampleStat : State Unit)
    ∃ s' repaired, recover sampleEnv (fun _ => sampleStat) (s.lose sampleLoss) = .ok
      (s', repaired) ∧
      ∀ w, ∃ done kept,
        (RefLog.records sampleCodec sampleStat (s.logs w)).1 = .ok done ∧
        (∀ r ∈ done, Complete sampleEnv s r.snapshotId) ∧ (∃ cut, repaired w = .ok cut) ∧
        (RefLog.records sampleCodec sampleStat (s'.logs w)).1 = .ok kept ∧ kept <+: done ∧
        (∀ f ∈ s.published, f.ref w ≤ (encodeLog sampleCodec kept).length) ∧
        ∀ r ∈ kept, Complete sampleEnv s' r.snapshotId :=
  references_complete sampleEnv sampleStat sampleSteps sampleLoss (fun _ => sampleStat) sampleStat
    (by
      refine ⟨trivial, trivial, trivial, trivial, trivial, trivial, trivial,
        trivial, trivial, trivial, fun h => ?_, trivial, trivial, trivial, trivial, trivial,
          trivial, trivial, trivial, trivial,
        trivial, trivial, trivial, trivial, trivial⟩
      exact absurd h.1 (by decide +kernel))
    (fun h => absurd h.2 (by decide +kernel))

end Group

end Furrow
