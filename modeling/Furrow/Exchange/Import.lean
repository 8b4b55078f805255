import Furrow.Exchange.Survey
import Furrow.Lib.Run

set_option relaxedAutoImplicit false
set_option autoImplicit false

/-!
# Importing sealed objects

The import of `exchange/fetch.rs` with the sealer of `sealer.rs`.  An inbox holds one sealed
object in each file, named by the identifier it travels under.  An import walks from the head,
takes the files of the objects that are missing, and goes on with what those refer to.

## Main definitions

* `Furrow.CellSealer` — names, seals and opens objects.
* `Furrow.Import.pass`, `Furrow.Import.take` — an import.
* `Furrow.want` — what is needed next.
* `Furrow.ImportStep`, `Furrow.Import.step` — arrivals, imports and crashes.

## Main results

* `Furrow.Import.batch_spec` — what an import stores.
* `Furrow.import_independent_of_arrival` — the stored objects do not depend on how the files
  arrived.

## Implementation notes

A file that is still being written has a name with a dot and is left alone, so it is not in the
inbox.  Every other name is the one spelling of a remote identifier.
-/

namespace Furrow

/-! ## The sealer -/

/-- How one object is named, keyed and nonced at the remote. -/
structure Scheme where
  remoteId : ObjectId
  sealWith : ObjectKind → Bytes → Option Bytes
  openWith : Bytes → Option (ObjectKind × Bytes)

/-- The sealer of an identity: the hash that names objects, the scheme of the objects that have
structure, under the cell key, and the scheme of chunks, which depends on the chunk. -/
structure CellSealer where
  objectId : ObjectKind → Bytes → ObjectId
  cell : ObjectId → Scheme
  convergent : ObjectId → Scheme

namespace CellSealer

/-- The scheme of an object. -/
def scheme (sealer : CellSealer) (kind : ObjectKind) (id : ObjectId) : Scheme :=
  match kind with
  | .Chunk => sealer.convergent id
  | _ => sealer.cell id

/-- The identifier an object travels under. -/
def remoteId (sealer : CellSealer) (kind : ObjectKind) (id : ObjectId) : ObjectId :=
  (sealer.scheme kind id).remoteId

/-- Seal an object. -/
def sealObject (sealer : CellSealer) (kind : ObjectKind) (id : ObjectId) (bytes : Bytes) :
    Option (ObjectId × Bytes) :=
  if sealer.objectId kind bytes = id then
    ((sealer.scheme kind id).sealWith kind bytes).map fun sealed =>
      (sealer.remoteId kind id, sealed)
  else none

/-- Open an object that is expected to be of a kind and under an identifier. -/
def openObject (sealer : CellSealer) (kind : ObjectKind) (id rid : ObjectId) (sealed : Bytes) :
    Option Bytes :=
  if sealer.remoteId kind id = rid then
    match (sealer.scheme kind id).openWith sealed with
    | some (opened, bytes) => if opened = kind then some bytes else none
    | none => none
  else none

/-- **Opening inverts sealing and rejects everything else.** -/
def Lawful (sealer : CellSealer) : Prop :=
  ∀ kind id rid sealed bytes, sealer.openObject kind id rid sealed = some bytes ↔
    sealer.sealObject kind id bytes = some (rid, sealed)

/-- What a sealed object is made of. -/
theorem sealObject_eq_some {sealer : CellSealer} {kind : ObjectKind} {id rid : ObjectId}
    {bytes sealed : Bytes} (h : sealer.sealObject kind id bytes = some (rid, sealed)) :
    sealer.objectId kind bytes = id ∧ rid = sealer.remoteId kind id ∧
      (sealer.scheme kind id).sealWith kind bytes = some sealed := by
  unfold sealObject at h
  split_ifs at h with hid
  obtain ⟨sealed', hsealed, heq⟩ := Option.map_eq_some_iff.mp h
  cases heq
  exact ⟨hid, rfl, hsealed⟩

end CellSealer

/-! ## Taking files -/

/-- Sealed objects, by the identifiers they travel under. -/
abbrev Inbox := OrdMap ObjectId Bytes

/-- The store and the inbox of an import. -/
structure ImportState where
  store : RawStore
  inbox : Inbox

/-- An import: how objects are read and opened, and the head it is for. -/
structure Import where
  codec : ObjectCodec
  sealer : CellSealer
  head : ObjectId

/-- How an import treats the files that its walk did not take. -/
inductive Leftovers
  | Refuse
  | Delete
  | Keep
deriving DecidableEq

/-- What one call took. -/
structure Taken where
  imported : ℕ
  extrasDeleted : ℕ
deriving DecidableEq

/-- A file that was stored, with the object in it. -/
structure StoredFile where
  rid : ObjectId
  id : ObjectId
  kind : ObjectKind
  bytes : Bytes

/-- A batch: the store so far, the walk, and the files that are safe to delete after it. -/
structure Batch where
  store : RawStore
  walk : Walk
  stored : List StoredFile

/-- Put the object of a file. -/
def putFile (store : RawStore) (file : StoredFile) : RawStore :=
  store.put file.id file.kind file.bytes

namespace Import

variable (job : Import)

/-- Open and store one file. -/
def storeVerified (store : RawStore) (kind : ObjectKind) (id rid : ObjectId) (sealed : Bytes) :
    Except ExchangeError (RawStore × Bytes) :=
  match job.sealer.openObject kind id rid sealed with
  | none => .error (.importObject rid)
  | some bytes =>
    if job.sealer.objectId kind bytes = id then .ok (store.put id kind bytes, bytes)
    else .error (.importObject rid)

/-- Take the file of a wanted object, if it is there. -/
def takeFile (files : Inbox) (b : Batch) (w : ObjectId × ObjectKind × ObjectId) :
    Except ExchangeError Batch :=
  match files.get? w.1 with
  | none => .ok b
  | some sealed => do
    let (store, bytes) ← job.storeVerified b.store w.2.1 w.2.2 w.1 sealed
    let walk ← b.walk.expand job.codec w.2.1 bytes
    .ok ⟨store, walk, b.stored ++ [⟨w.1, w.2.2, w.2.1, bytes⟩]⟩

/-- Missing objects by the identifiers they travel under. -/
def wanted (missing : List (ObjectKind × ObjectId)) : OrdMap ObjectId (ObjectKind × ObjectId) :=
  OrdMap.empty.foldInsert (missing.map fun e => (job.sealer.remoteId e.1 e.2, e))

/-- One pass: take the files of the objects that the walk newly found missing. -/
def pass (files : Inbox) (b : Batch) : Except ExchangeError Batch := do
  let (walk, found) ← b.walk.explore job.codec b.store none
  (job.wanted found.missing).toList.foldlM (job.takeFile files) { b with walk := walk }

/-- Passes until one takes nothing, at most `fuel` of them. -/
def passes (files : Inbox) : ℕ → Batch → Except ExchangeError Batch
  | 0, _ => .error .outOfFuel
  | fuel + 1, b => do
    let next ← job.pass files b
    if next.stored.length = b.stored.length then .ok next else passes files fuel next

/-- The batch of an import.  Every pass but the last takes a file. -/
def batch (st : ImportState) : Except ExchangeError Batch :=
  job.passes st.inbox (st.inbox.toList.length + 1) ⟨st.store, Walk.new job.head, []⟩

/-- An inbox without some files. -/
def removeFiles (inbox : Inbox) (rids : List ObjectId) : Inbox :=
  inbox.filter fun rid _ => rid ∉ rids

/-- The files to delete of those that no pass took, with the number of unwanted ones.  Copies of
stored objects go; an unwanted file is an error unless the inbox was primed. -/
def settleLeftovers (store : RawStore) (inbox : Inbox) (primed : Bool) :
    Except ExchangeError (List ObjectId × ℕ) :=
  if inbox.keys = [] then .ok ([], 0)
  else do
    let found ← survey job.codec store job.head none
    let held := found.present.map fun e => job.sealer.remoteId e.1 e.2
    let extras := inbox.keys.filter fun rid => rid ∉ held
    match primed, extras with
    | false, rid :: _ => .error (.notWanted rid job.head)
    | _, _ => .ok (inbox.keys, extras.length)

/-- What is done with the leftovers after a batch. -/
def leftoversOf (leftovers : Leftovers) (b : Batch) (inbox : Inbox) :
    Except ExchangeError (List ObjectId × ℕ) :=
  if leftovers = .Keep then .ok ([], 0)
  else
    job.settleLeftovers b.store (removeFiles inbox (b.stored.map StoredFile.rid))
      (leftovers == .Delete)

/-- The files that a call deletes after its batch, in order. -/
def deletions (leftovers : Leftovers) (b : Batch) (inbox : Inbox) : List ObjectId :=
  b.stored.map StoredFile.rid ++
    match job.leftoversOf leftovers b inbox with
    | .ok (rids, _) => rids
    | .error _ => []

/-- **One call of the import.**  A batch that fails leaves everything as it was. -/
def take (leftovers : Leftovers) (st : ImportState) :
    Except ExchangeError Taken × ImportState :=
  match job.batch st with
  | .error e => (.error e, st)
  | .ok b =>
    ((job.leftoversOf leftovers b st.inbox).map fun extras => ⟨b.stored.length, extras.2⟩,
      ⟨b.store, removeFiles st.inbox (job.deletions leftovers b st.inbox)⟩)

/-- Take every wanted file; an unwanted one is an error. -/
def run (st : ImportState) : Except ExchangeError Taken × ImportState := job.take .Refuse st

/-- Take what has arrived of an inbox that is still filling. -/
def runPartial (st : ImportState) : Except ExchangeError Taken × ImportState := job.take .Keep st

/-- A call that stops in its batch: the first `n` objects are found in the pack afterwards. -/
def crashStoring (n : ℕ) (st : ImportState) : ImportState :=
  match job.batch st with
  | .error _ => st
  | .ok b => { st with store := (b.stored.take n).foldl putFile st.store }

/-- A call that stops after its batch, with `n` files deleted. -/
def crashDeleting (leftovers : Leftovers) (n : ℕ) (st : ImportState) : ImportState :=
  match job.batch st with
  | .error _ => st
  | .ok b => ⟨b.store, removeFiles st.inbox ((job.deletions leftovers b st.inbox).take n)⟩

end Import

/-- The most identifiers one `want` names. -/
def wantLimit : ℕ := 1000

/-- The identifiers that are needed next to complete a head. -/
def want (codec : ObjectCodec) (sealer : CellSealer) (store : RawStore) (head : ObjectId) :
    Except ExchangeError (List ObjectId) :=
  (survey codec store head (some wantLimit)).map fun found =>
    found.missing.map fun e => sealer.remoteId e.1 e.2

/-! ## Arrivals -/

/-- What happens to an import: files arrive, it is called, or a call crashes. -/
inductive ImportStep
  | deliver (files : List (ObjectId × Bytes))
  | runPartial
  | run
  | crashStoring (n : ℕ)
  | crashPartial (n : ℕ)
  | crashRun (n : ℕ)

/-- One step of an import. -/
def Import.step (job : Import) (st : ImportState) : ImportStep → ImportState
  | .deliver files => { st with inbox := st.inbox.foldInsert files }
  | .runPartial => (job.runPartial st).2
  | .run => (job.run st).2
  | .crashStoring n => job.crashStoring n st
  | .crashPartial n => job.crashDeleting .Keep n st
  | .crashRun n => job.crashDeleting .Refuse n st

/-- The files that arrive in a step. -/
def ImportStep.files : ImportStep → List (ObjectId × Bytes)
  | .deliver files => files
  | _ => []

/-! ## Files of a snapshot -/

section Spec

variable {job : Import} {D : RawStore}

variable (job D) in
/-- What an import relies on: the sender holds the whole snapshot, the sealer is lawful, and the
objects of the snapshot travel under different identifiers. -/
structure Import.Source : Prop where
  complete : Complete job.codec D job.head
  lawful : job.sealer.Lawful
  distinct : ∀ a b, Closure job.codec D job.head a.2 → Closure job.codec D job.head b.2 →
    D.HasKind a → D.HasKind b →
    job.sealer.remoteId a.1 a.2 = job.sealer.remoteId b.1 b.2 → a.2 = b.2

variable (job D) in
/-- A file holds a sealed object of the snapshot. -/
def Import.IsFile (file : ObjectId × Bytes) : Prop :=
  ∃ kind id bytes, Closure job.codec D job.head id ∧ D.get? id = some (kind, bytes) ∧
    job.sealer.sealObject kind id bytes = some file

variable (job D) in
/-- The objects of the snapshot that have a file among some. -/
def Import.objectsOf (rids : Set ObjectId) : Set ObjectId :=
  {id | Closure job.codec D job.head id ∧
    ∃ kind, D.HasKind (kind, id) ∧ job.sealer.remoteId kind id ∈ rids}

/-- The names of the files of an inbox. -/
def Inbox.rids (inbox : Inbox) : Set ObjectId := {rid | (inbox.get? rid).isSome}

/-- An object has one kind. -/
theorem RawStore.HasKind.unique {k k' : ObjectKind} {id : ObjectId} (h : D.HasKind (k, id))
    (h' : D.HasKind (k', id)) : k = k' := by
  obtain ⟨b, hb⟩ := h
  obtain ⟨b', hb'⟩ := h'
  simp only at hb hb'
  rw [hb] at hb'
  cases hb'
  rfl

/-- The file that has the name of an object of the snapshot holds that object. -/
theorem Import.IsFile.object (hsrc : job.Source D) {rid : ObjectId} {sealed : Bytes}
    (h : job.IsFile D (rid, sealed)) {kind : ObjectKind} {id : ObjectId}
    (hid : Closure job.codec D job.head id) (hkind : D.HasKind (kind, id))
    (hrid : rid = job.sealer.remoteId kind id) :
    ∃ bytes, D.get? id = some (kind, bytes) ∧
      job.sealer.sealObject kind id bytes = some (rid, sealed) := by
  obtain ⟨kind', id', bytes, hid', hget, hseal⟩ := h
  obtain ⟨-, hrid', -⟩ := CellSealer.sealObject_eq_some hseal
  have heq : id' = id :=
    hsrc.distinct (kind', id') (kind, id) hid' hid ⟨bytes, hget⟩ hkind (hrid'.symm.trans hrid)
  subst heq
  obtain rfl := RawStore.HasKind.unique ⟨bytes, hget⟩ hkind
  exact ⟨bytes, hget, hseal⟩

/-- **A store that has grown by objects of the snapshot.** -/
structure Import.Grown (job : Import) (D start store : RawStore) : Prop where
  keeps : ∀ id o, start.get? id = some o → store.get? id = some o
  new : ∀ id o, store.get? id = some o →
    start.get? id = some o ∨ Closure job.codec D job.head id ∧ D.get? id = some o

variable {start store : RawStore}

/-- A store grows from itself. -/
theorem Import.Grown.refl : job.Grown D start start where
  keeps := fun _ _ h => h
  new := fun _ _ h => Or.inl h

/-- A store that grows loses nothing. -/
theorem Import.Grown.held (h : job.Grown D start store) : start.held ⊆ store.held := by
  intro id hid
  obtain ⟨o, ho⟩ := Option.isSome_iff_exists.mp hid
  exact Option.isSome_iff_exists.mpr ⟨o, h.keeps id o ho⟩

/-- A store that grows agrees with the sender. -/
theorem Import.Grown.agree (h : job.Grown D start store) (hagree : Agree start D) :
    Agree store D := by
  intro id x y hx hy
  rcases h.new id x hx with hx | ⟨-, hx⟩
  · exact hagree id x y hx hy
  · rw [hx] at hy
    exact Option.some.inj hy

/-- A store grows transitively. -/
theorem Import.Grown.trans {store' : RawStore} (h : job.Grown D start store)
    (h' : job.Grown D store store') : job.Grown D start store' where
  keeps := fun id o ho => h'.keeps id o (h.keeps id o ho)
  new := by
    intro id o ho
    rcases h'.new id o ho with ho | ho
    · exact h.new id o ho
    · exact Or.inr ho

/-- Two stores that have grown to hold the same objects are the same. -/
theorem Import.Grown.eq_of_held {store' : RawStore} (h : job.Grown D start store)
    (h' : job.Grown D start store') (hheld : store.held = store'.held) : store = store' := by
  apply OrdMap.ext_get?
  intro id
  by_cases hid : id ∈ store.held
  · have hid' : id ∈ store'.held := hheld ▸ hid
    obtain ⟨o, ho⟩ := Option.isSome_iff_exists.mp hid
    obtain ⟨o', ho'⟩ := Option.isSome_iff_exists.mp hid'
    rcases h.new id o ho with hs | ⟨-, hD⟩
    · rw [ho, h'.keeps id o hs]
    · rcases h'.new id o' ho' with hs | ⟨-, hD'⟩
      · rw [h.keeps id o' hs, ho']
      · rw [ho, ho', ← hD, ← hD']
  · have hid' : id ∉ store'.held := hheld ▸ hid
    have hnone : store.get? id = none := by simpa [RawStore.held] using hid
    have hnone' : store'.get? id = none := by simpa [RawStore.held] using hid'
    rw [hnone, hnone']

/-- What is held after an object is put. -/
theorem mem_held_put {id x : ObjectId} {kind : ObjectKind} {bytes : Bytes} :
    x ∈ (store.put id kind bytes).held ↔ x = id ∨ x ∈ store.held := by
  unfold RawStore.put RawStore.held
  simp only [Set.mem_ofPred_eq]
  split_ifs with h
  · constructor
    · exact Or.inr
    · rintro (rfl | hx)
      · exact h
      · exact hx
  · rw [OrdMap.get?_insert]
    split_ifs with hx
    · simp [hx]
    · simp [hx]

/-- A store grows by an object of the sender. -/
theorem Import.grown_put {id : ObjectId} {kind : ObjectKind} {bytes : Bytes}
    (hid : Closure job.codec D job.head id) (hget : D.get? id = some (kind, bytes)) :
    job.Grown D store (store.put id kind bytes) := by
  unfold RawStore.put
  split_ifs with h
  · exact .refl
  · constructor
    · intro x o ho
      rw [OrdMap.get?_insert, if_neg]
      · exact ho
      · rintro rfl
        rw [ho] at h
        exact h rfl
    · intro x o ho
      rw [OrdMap.get?_insert] at ho
      split_ifs at ho with hx
      · cases ho
        rw [hx]
        exact Or.inr ⟨hid, hget⟩
      · exact Or.inl ho

/-! ## A batch -/

variable (job D) in
/-- A stored file holds an object of the snapshot that had arrived. -/
structure StoredFile.Sound (arrived : Set ObjectId) (store : RawStore) (file : StoredFile) :
    Prop where
  reached : Reached job.codec D store job.head file.id
  object : D.get? file.id = some (file.kind, file.bytes)
  rid : file.rid = job.sealer.remoteId file.kind file.id
  arrived : file.id ∈ arrived
  held : file.id ∈ store.held

variable (job D start) in
/-- **What holds in a batch** that began with the store `start` and takes the objects `arrived`.
Of the objects that were met, those are out that are neither there nor have a file, and those
that the pass has still to look at. -/
structure Batch.Inv (arrived pending : Set ObjectId) (b : Batch) : Prop where
  grown : job.Grown D start b.store
  within : b.store.held ⊆ Arrival.taken (Refers job.codec D) job.head start.held arrived
  stored : ∀ file ∈ b.stored, file.Sound job D arrived b.store
  replay : b.store = b.stored.foldl putFile start
  walk : b.walk.Inv job.codec D job.head b.store Set.univ
    ({id | id ∉ start.held ∧ id ∉ arrived} ∪ pending)

variable {files : Inbox} {b : Batch}

variable (job D start b) in
/-- A wanted object: it was met and was not there at first. -/
structure Import.Wants (w : ObjectId × ObjectKind × ObjectId) : Prop where
  rid : w.1 = job.sealer.remoteId w.2.1 w.2.2
  kind : D.HasKind w.2
  seen : w.2.2 ∈ b.walk.seen
  new : w.2.2 ∉ start.held

/-- A file that is sound stays so. -/
theorem StoredFile.Sound.grow {arrived : Set ObjectId} {file : StoredFile} {store' : RawStore}
    (h : file.Sound job D arrived store) (hgrow : store.held ⊆ store'.held) :
    file.Sound job D arrived store' :=
  ⟨h.reached.mono hgrow, h.object, h.rid, h.arrived, hgrow h.held⟩

/-- All that a batch holds was there at first or has arrived. -/
theorem Batch.Inv.subset {arrived pending : Set ObjectId} (h : b.Inv job D start arrived pending) :
    b.store.held ⊆ start.held ∪ arrived := by
  intro id hid
  rcases h.within hid with hid | hid
  · exact Or.inl hid
  · exact Or.inr hid.1

/-- The walk only meets what is reached from the head. -/
theorem Batch.Inv.closure {arrived pending : Set ObjectId}
    (h : b.Inv job D start arrived pending) {id : ObjectId} (hid : id ∈ b.walk.seen) :
    Closure job.codec D job.head id :=
  (h.walk.reached id hid).closure

/-- An object whose file is not there has not arrived. -/
theorem Import.Wants.not_arrived {w : ObjectId × ObjectKind × ObjectId}
    (hw : job.Wants D start b w) (hfile : files.get? w.1 = none) :
    w.2.2 ∉ job.objectsOf D files.rids := by
  rintro ⟨-, kind, hkind, hrid⟩
  rw [RawStore.HasKind.unique hkind hw.kind, ← hw.rid] at hrid
  have hsome : (files.get? w.1).isSome := hrid
  rw [hfile] at hsome
  exact absurd hsome Bool.false_ne_true

/-- **Taking one file.**  The object is stored and what it refers to is queued, or there is no
file and nothing changes. -/
theorem Batch.Inv.takeFile (hsrc : job.Source D)
    (hfiles : ∀ rid sealed, files.get? rid = some sealed → job.IsFile D (rid, sealed))
    {pending : Set ObjectId} {w : ObjectId × ObjectKind × ObjectId}
    (h : b.Inv job D start (job.objectsOf D files.rids) (pending ∪ {w.2.2}))
    (hw : job.Wants D start b w) :
    ∃ b', job.takeFile files b w = .ok b' ∧
      b'.Inv job D start (job.objectsOf D files.rids) pending ∧
      (∀ id ∈ b.walk.seen, id ∈ b'.walk.seen) ∧ b.store.held ⊆ b'.store.held ∧
      (b' = b ∧ files.get? w.1 = none ∨
        b'.stored.length = b.stored.length + 1 ∧ (files.get? w.1).isSome ∧
          w.2.2 ∈ b'.store.held) := by
  cases hfile : files.get? w.1 with
  | none =>
    refine ⟨b, by rw [Import.takeFile, hfile], ⟨h.grown, h.within, h.stored, h.replay, ?_⟩,
      fun _ hid => hid, Set.Subset.refl _, Or.inl ⟨rfl, rfl⟩⟩
    refine h.walk.weaken (Set.Subset.refl _) ?_
    rintro id (hid | hid | hid)
    · exact Or.inl hid
    · exact Or.inr hid
    · rw [Set.mem_singleton_iff.mp hid]
      exact Or.inl ⟨hw.new, hw.not_arrived hfile⟩
  | some sealed =>
    have hclosure := h.closure hw.seen
    obtain ⟨bytes, hget, hseal⟩ :=
      (hfiles w.1 sealed hfile).object hsrc hclosure hw.kind hw.rid
    obtain ⟨hid, -, -⟩ := CellSealer.sealObject_eq_some hseal
    obtain ⟨es, hes, -⟩ := hsrc.complete.closed w.2.2 hclosure w.2.1 bytes hget
    have hopen := (hsrc.lawful w.2.1 w.2.2 w.1 sealed bytes).mpr hseal
    have hstore : job.storeVerified b.store w.2.1 w.2.2 w.1 sealed =
        .ok (b.store.put w.2.2 w.2.1 bytes, bytes) := by
      simp only [Import.storeVerified, hopen, if_pos hid]
    have hexpand : b.walk.expand job.codec w.2.1 bytes = .ok (es.foldl Walk.enqueue b.walk) := by
      rw [Walk.expand, hes]
      rfl
    have hgrow : b.store.held ⊆ (b.store.put w.2.2 w.2.1 bytes).held :=
      fun id hid => mem_held_put.mpr (Or.inr hid)
    have harrived : w.2.2 ∈ job.objectsOf D files.rids := by
      refine ⟨hclosure, w.2.1, hw.kind, ?_⟩
      rw [← hw.rid]
      exact Option.isSome_iff_exists.mpr ⟨sealed, hfile⟩
    refine ⟨⟨b.store.put w.2.2 w.2.1 bytes, es.foldl Walk.enqueue b.walk,
      b.stored ++ [⟨w.1, w.2.2, w.2.1, bytes⟩]⟩, ?_, ?_, ?_, hgrow, ?_⟩
    · simp only [Import.takeFile, hfile, hstore, bind, Except.bind, hexpand]
    · refine ⟨h.grown.trans (Import.grown_put hclosure hget), ?_, ?_, ?_, ?_⟩
      · intro id hid
        rcases mem_held_put.mp hid with rfl | hid
        · exact Or.inr ⟨harrived, (h.walk.reached _ hw.seen).mono h.subset⟩
        · exact h.within hid
      · intro file hmem
        rcases List.mem_append.mp hmem with hmem | hmem
        · exact (h.stored file hmem).grow hgrow
        · rw [List.mem_singleton.mp hmem]
          exact ⟨(h.walk.reached _ hw.seen).mono hgrow, hget, hw.rid, harrived,
            mem_held_put.mpr (Or.inl rfl)⟩
      · rw [List.foldl_append, ← h.replay]
        rfl
      · have hwalk := h.walk.grow hgrow
        rw [← Set.union_assoc] at hwalk
        exact hwalk.expand hsrc.complete hw.seen (mem_held_put.mpr (Or.inl rfl)) trivial hget hes
    · exact fun id hid => Walk.mem_seen_foldl.mpr (Or.inl hid)
    · refine Or.inr ⟨by simp, rfl, mem_held_put.mpr (Or.inl rfl)⟩

/-- The files of a list of wanted objects are taken one after the other. -/
theorem Batch.Inv.takeFiles (hsrc : job.Source D)
    (hfiles : ∀ rid sealed, files.get? rid = some sealed → job.IsFile D (rid, sealed))
    {ws : List (ObjectId × ObjectKind × ObjectId)}
    (h : b.Inv job D start (job.objectsOf D files.rids) (idsOf (ws.map Prod.snd)))
    (hws : ∀ w ∈ ws, job.Wants D start b w) :
    ∃ b', ws.foldlM (job.takeFile files) b = .ok b' ∧
      b'.Inv job D start (job.objectsOf D files.rids) ∅ ∧ b.store.held ⊆ b'.store.held ∧
      (b' = b ∨ b.stored.length < b'.stored.length ∧
        ∃ w ∈ ws, (files.get? w.1).isSome ∧ w.2.2 ∈ b'.store.held) := by
  induction ws generalizing b with
  | nil =>
    refine ⟨b, rfl, ⟨h.grown, h.within, h.stored, h.replay, ?_⟩, Set.Subset.refl _, Or.inl rfl⟩
    refine h.walk.weaken (Set.Subset.refl _) (Set.union_subset_union_right _ ?_)
    rintro id ⟨kind, hid⟩
    exact absurd hid List.not_mem_nil
  | cons w ws ih =>
    have hw := hws w List.mem_cons_self
    have hcons : b.Inv job D start (job.objectsOf D files.rids)
        (idsOf (ws.map Prod.snd) ∪ {w.2.2}) := by
      refine ⟨h.grown, h.within, h.stored, h.replay, ?_⟩
      refine h.walk.weaken (Set.Subset.refl _) (Set.union_subset_union_right _ ?_)
      rintro id ⟨kind, hid⟩
      rcases List.mem_cons.mp hid with heq | hid
      · exact Or.inr (congrArg Prod.snd heq)
      · exact Or.inl ⟨kind, hid⟩
    obtain ⟨b₁, hrun, hinv, hseen, hgrow, hcase⟩ := hcons.takeFile hsrc hfiles hw
    obtain ⟨b₂, hrun', hinv', hgrow', hcase'⟩ := ih hinv fun v hv =>
      ⟨(hws v (List.mem_cons_of_mem _ hv)).rid, (hws v (List.mem_cons_of_mem _ hv)).kind,
        hseen _ (hws v (List.mem_cons_of_mem _ hv)).seen,
        (hws v (List.mem_cons_of_mem _ hv)).new⟩
    refine ⟨b₂, ?_, hinv', hgrow.trans hgrow', ?_⟩
    · rw [List.foldlM_cons, hrun]
      exact hrun'
    · rcases hcase with ⟨rfl, -⟩ | ⟨hlen, hfile, hheld⟩
      · rcases hcase' with rfl | ⟨hlen', v, hv, hrest⟩
        · exact Or.inl rfl
        · exact Or.inr ⟨hlen', v, List.mem_cons_of_mem _ hv, hrest⟩
      · refine Or.inr ⟨?_, w, List.mem_cons_self, hfile, hgrow' hheld⟩
        rcases hcase' with rfl | ⟨hlen', -⟩
        · omega
        · omega

/-- The wanted objects are missing ones, under their names. -/
theorem Import.mem_of_mem_wanted {missing : List (ObjectKind × ObjectId)}
    {w : ObjectId × ObjectKind × ObjectId} (h : w ∈ (job.wanted missing).toList) :
    w.1 = job.sealer.remoteId w.2.1 w.2.2 ∧ w.2 ∈ missing := by
  have hget := (OrdMap.mem_toList_iff _).mp h
  rcases OrdMap.mem_of_get?_foldInsert hget with hmem | hnone
  · obtain ⟨e, he, heq⟩ := List.mem_map.mp hmem
    obtain ⟨hrid, rfl⟩ := Prod.mk.inj heq
    exact ⟨hrid.symm, he⟩
  · rw [OrdMap.get?_empty] at hnone
    exact absurd hnone (by simp)

/-- No missing object is lost for another one with its name. -/
theorem Import.idsOf_wanted (hsrc : job.Source D) {missing : List (ObjectKind × ObjectId)}
    (hmissing : ∀ e ∈ missing, D.HasKind e ∧ Closure job.codec D job.head e.2) :
    idsOf missing ⊆ idsOf ((job.wanted missing).toList.map Prod.snd) := by
  rintro id ⟨kind, hid⟩
  have hsome : ((job.wanted missing).get? (job.sealer.remoteId kind id)).isSome := by
    rw [Import.wanted, OrdMap.isSome_get?_foldInsert, List.map_map]
    exact Or.inl (List.mem_map.mpr ⟨(kind, id), hid, rfl⟩)
  obtain ⟨e, he⟩ := Option.isSome_iff_exists.mp hsome
  have hmem := (OrdMap.mem_toList_iff _).mpr he
  obtain ⟨hrid, hin⟩ := Import.mem_of_mem_wanted hmem
  have heq : id = e.2 := hsrc.distinct (kind, id) e (hmissing _ hid).2 (hmissing e hin).2
    (hmissing _ hid).1 (hmissing e hin).1 hrid
  exact ⟨e.1, List.mem_map.mpr ⟨_, hmem, by rw [heq]⟩⟩

/-- **One pass** takes a file of an object that was not there, or it finds that all that is
reached was met. -/
theorem Batch.Inv.pass (hsrc : job.Source D) (hagree : Agree start D)
    (hfiles : ∀ rid sealed, files.get? rid = some sealed → job.IsFile D (rid, sealed))
    (h : b.Inv job D start (job.objectsOf D files.rids) ∅) :
    ∃ b', job.pass files b = .ok b' ∧
      b'.Inv job D start (job.objectsOf D files.rids) ∅ ∧ b.store.held ⊆ b'.store.held ∧
      (b'.stored.length = b.stored.length ∧ b'.walk.queue = [] ∨
        b.stored.length < b'.stored.length ∧
        ∃ e, Closure job.codec D job.head e.2 ∧ D.HasKind e ∧
          (files.get? (job.sealer.remoteId e.1 e.2)).isSome ∧
          e.2 ∉ b.store.held ∧ e.2 ∈ b'.store.held) := by
  obtain ⟨walk, found, hexplore, hwalk, hsound, hend⟩ :=
    h.walk.explore hsrc.complete (h.grown.agree hagree) none
  have hqueue : walk.queue = [] := by
    rcases hend with hqueue | henough
    · exact hqueue
    · exact absurd henough Bool.false_ne_true
  have hpending : Batch.Inv job D start (job.objectsOf D files.rids)
      (idsOf ((job.wanted found.missing).toList.map Prod.snd)) { b with walk := walk } := by
    refine ⟨h.grown, h.within, h.stored, h.replay, ?_⟩
    refine hwalk.weaken (Set.subset_univ _) ?_
    rintro id ((hid | hid) | hid)
    · exact Or.inl hid
    · exact absurd hid (Set.notMem_empty _)
    · refine Or.inr (Import.idsOf_wanted hsrc ?_ hid)
      exact fun e he => ⟨(hsound.missing e he).2.1, (hsound.missing e he).2.2.closure⟩
  have hseen : ∀ e ∈ found.missing, e.2 ∈ walk.seen := by
    intro e he
    refine hwalk.covers hqueue ?_ (hsound.missing e he).2.2
    rintro x hx ((hid | hid) | ⟨kind, hid⟩)
    · exact (h.subset hx).elim hid.1 hid.2
    · exact Set.notMem_empty _ hid
    · exact (hsound.missing _ hid).1 hx
  obtain ⟨b', hrun, hinv, hgrow, hcase⟩ := hpending.takeFiles hsrc hfiles (by
    intro w hw
    obtain ⟨hrid, hmem⟩ := Import.mem_of_mem_wanted hw
    exact ⟨hrid, (hsound.missing _ hmem).2.1, hseen _ hmem,
      fun hstart => (hsound.missing _ hmem).1 (h.grown.held hstart)⟩)
  refine ⟨b', ?_, hinv, hgrow, ?_⟩
  · simp only [Import.pass, hexplore, bind, Except.bind]
    exact hrun
  · rcases hcase with rfl | ⟨hlen, w, hw, hfile, hheld⟩
    · exact Or.inl ⟨rfl, hqueue⟩
    · obtain ⟨hrid, hmem⟩ := Import.mem_of_mem_wanted hw
      obtain ⟨hout, hkind, hreach⟩ := hsound.missing _ hmem
      refine Or.inr ⟨hlen, w.2, hreach.closure, hkind, ?_, hout, hheld⟩
      rw [← hrid]
      exact hfile

open scoped Classical in
variable (job D files) in
/-- The files of objects that are not there. -/
noncomputable def Batch.untaken (b : Batch) : Finset ObjectId :=
  files.keys.toFinset.filter fun rid => ∃ e, Closure job.codec D job.head e.2 ∧ D.HasKind e ∧
    job.sealer.remoteId e.1 e.2 = rid ∧ e.2 ∉ b.store.held

/-- A pass that takes a file leaves fewer. -/
theorem Batch.untaken_ssubset (hsrc : job.Source D) {b' : Batch}
    (hgrow : b.store.held ⊆ b'.store.held) {e : ObjectKind × ObjectId}
    (hclosure : Closure job.codec D job.head e.2) (hkind : D.HasKind e)
    (hfile : (files.get? (job.sealer.remoteId e.1 e.2)).isSome) (hout : e.2 ∉ b.store.held)
    (hheld : e.2 ∈ b'.store.held) : b'.untaken job D files ⊂ b.untaken job D files := by
  classical
  rw [Finset.ssubset_iff_of_subset]
  · refine ⟨job.sealer.remoteId e.1 e.2, ?_, ?_⟩
    · rw [Batch.untaken, Finset.mem_filter, List.mem_toFinset, OrdMap.mem_keys_iff]
      exact ⟨hfile, e, hclosure, hkind, rfl, hout⟩
    · rw [Batch.untaken, Finset.mem_filter]
      rintro ⟨-, d, hd, hdkind, hrid, hdout⟩
      rw [hsrc.distinct d e hd hclosure hdkind hkind hrid] at hdout
      exact hdout hheld
  · intro rid hrid
    rw [Batch.untaken, Finset.mem_filter] at hrid ⊢
    obtain ⟨hmem, d, hd, hdkind, hrid, hdout⟩ := hrid
    exact ⟨hmem, d, hd, hdkind, hrid, fun hin => hdout (hgrow hin)⟩

/-- There are no more files left than there are files. -/
theorem Batch.card_untaken_le : (b.untaken job D files).card ≤ files.toList.length := by
  classical
  refine (Finset.card_filter_le _ _).trans ((List.toFinset_card_le _).trans ?_)
  rw [OrdMap.keys, List.length_map]

/-- **The passes end**, since every pass but the last takes a file of an object that is not
there. -/
theorem Batch.Inv.passes (hsrc : job.Source D) (hagree : Agree start D)
    (hfiles : ∀ rid sealed, files.get? rid = some sealed → job.IsFile D (rid, sealed))
    {fuel : ℕ} {b : Batch} (h : b.Inv job D start (job.objectsOf D files.rids) ∅)
    (hfuel : (b.untaken job D files).card < fuel) :
    ∃ b', job.passes files fuel b = .ok b' ∧
      b'.Inv job D start (job.objectsOf D files.rids) ∅ ∧ b'.walk.queue = [] := by
  induction fuel generalizing b with
  | zero => exact absurd hfuel (Nat.not_lt_zero _)
  | succ fuel ih =>
    obtain ⟨b₁, hrun, hinv, hgrow, hcase⟩ := h.pass hsrc hagree hfiles
    rcases hcase with ⟨hlen, hqueue⟩ | ⟨hlen, e, hclosure, hkind, hfile, hout, hheld⟩
    · refine ⟨b₁, ?_, hinv, hqueue⟩
      simp only [Import.passes, hrun, bind, Except.bind, if_pos hlen]
    · have hless := Finset.card_lt_card
        (Batch.untaken_ssubset hsrc hgrow hclosure hkind hfile hout hheld)
      obtain ⟨b₂, hrun', hinv', hqueue⟩ := ih hinv (by omega)
      refine ⟨b₂, ?_, hinv', hqueue⟩
      simp only [Import.passes, hrun, bind, Except.bind]
      rw [if_neg (by omega)]
      exact hrun'

/-- **What an import stores**: the objects that have arrived and are reached through what is
there or has arrived. -/
theorem Import.batch_spec (hsrc : job.Source D) {st : ImportState} (hagree : Agree st.store D)
    (hfiles : ∀ rid sealed, st.inbox.get? rid = some sealed → job.IsFile D (rid, sealed)) :
    ∃ b, job.batch st = .ok b ∧ b.Inv job D st.store (job.objectsOf D st.inbox.rids) ∅ ∧
      b.store.held = Arrival.taken (Refers job.codec D) job.head st.store.held
        (job.objectsOf D st.inbox.rids) := by
  have hnew : Walk.Inv job.codec D job.head st.store ∅ ∅ (Walk.new job.head) :=
    Walk.inv_new hsrc.complete
  have hstart : Batch.Inv job D st.store (job.objectsOf D st.inbox.rids) ∅
      ⟨st.store, Walk.new job.head, []⟩ := by
    refine ⟨.refl, fun id hid => Or.inl hid, ?_, rfl, ?_⟩
    · intro file hfile
      exact absurd hfile List.not_mem_nil
    · exact hnew.weaken (Set.empty_subset _) (Set.empty_subset _)
  obtain ⟨b, hrun, hinv, hqueue⟩ :=
    hstart.passes hsrc hagree hfiles (Nat.lt_succ_of_le Batch.card_untaken_le)
  refine ⟨b, hrun, hinv, Set.Subset.antisymm hinv.within ?_⟩
  rintro id (hid | ⟨harrived, hreach⟩)
  · exact hinv.grown.held hid
  · have hseen := hinv.walk.covers hqueue ?_ hreach
    · rcases hinv.walk.settled id hseen with ⟨k, hq⟩ | ⟨hheld, -⟩ | hout | hout
      · rw [hqueue] at hq
        exact absurd hq List.not_mem_nil
      · exact hheld
      · exact absurd harrived hout.2
      · exact absurd hout (Set.notMem_empty _)
    · rintro x hx (hout | hout)
      · exact hx.elim hout.1 hout.2
      · exact Set.notMem_empty _ hout

/-! ## Leftovers -/

variable (job D) in
/-- A file may go once its object is there and reached. -/
def Import.Settled (store : RawStore) (rid : ObjectId) : Prop :=
  ∀ id ∈ job.objectsOf D {rid}, id ∈ store.held ∧ Reached job.codec D store job.head id

/-- The names of the objects that a survey found are those of the objects that are there and
reached. -/
theorem Import.settled_iff (hsrc : job.Source D) (hagree : Agree store D) {found : Survey}
    (hfound : survey job.codec store job.head none = .ok found) {rid : ObjectId} {sealed : Bytes}
    (hfile : job.IsFile D (rid, sealed)) :
    rid ∈ found.present.map (fun e => job.sealer.remoteId e.1 e.2) ↔ job.Settled D store rid := by
  obtain ⟨found', hrun, hsound, hend⟩ := survey_spec hsrc.complete hagree none
  rw [hfound] at hrun
  cases hrun
  have hall := hend.resolve_left Bool.false_ne_true
  obtain ⟨kind, id, bytes, hid, hget, hseal⟩ := hfile
  obtain ⟨-, rfl, -⟩ := CellSealer.sealObject_eq_some hseal
  constructor
  · intro hmem x hx
    obtain ⟨hx, k, hk, hrid⟩ := hx
    obtain ⟨e, he, heq⟩ := List.mem_map.mp hmem
    obtain ⟨hheld, hkind, hreach⟩ := hsound.present e he
    have hxe : x = e.2 := hsrc.distinct (k, x) e hx hreach.closure hk hkind
      ((Set.mem_singleton_iff.mp hrid).trans heq.symm)
    rw [hxe]
    exact ⟨hheld, hreach⟩
  · intro hsettled
    obtain ⟨hheld, hreach⟩ := hsettled id ⟨hid, kind, ⟨bytes, hget⟩, rfl⟩
    rcases hall id hreach with ⟨k, he⟩ | ⟨k, he⟩
    · have hk := RawStore.HasKind.unique (hsound.present _ he).2.1 ⟨bytes, hget⟩
      exact List.mem_map.mpr ⟨(k, id), he, by rw [hk]⟩
    · exact absurd hheld (hsound.missing _ he).1

/-- Files that are removed are gone. -/
theorem mem_rids_removeFiles {inbox : Inbox} {rids : List ObjectId} {rid : ObjectId} :
    rid ∈ (Import.removeFiles inbox rids).rids ↔ rid ∈ inbox.rids ∧ rid ∉ rids := by
  unfold Import.removeFiles Inbox.rids
  simp only [Set.mem_ofPred_eq, OrdMap.get?_filter]
  cases inbox.get? rid with
  | none => simp
  | some sealed => simp [Option.filter]

/-- The files that are left are as before. -/
theorem get?_of_removeFiles {inbox : Inbox} {rids : List ObjectId} {rid : ObjectId}
    {sealed : Bytes} (h : (Import.removeFiles inbox rids).get? rid = some sealed) :
    inbox.get? rid = some sealed := by
  unfold Import.removeFiles at h
  rw [OrdMap.get?_filter, Option.filter_eq_some_iff] at h
  exact h.1

/-- **What a strict import does with its leftovers**: it deletes them all if they are copies of
objects that are there and reached, and none otherwise. -/
theorem Import.settleLeftovers_spec (hsrc : job.Source D) (hagree : Agree store D)
    (inbox : Inbox)
    (hfiles : ∀ rid sealed, inbox.get? rid = some sealed → job.IsFile D (rid, sealed)) :
    (job.settleLeftovers store inbox false = .ok (inbox.keys, 0) ∧
        ∀ rid ∈ inbox.rids, job.Settled D store rid) ∨
      (∃ e, job.settleLeftovers store inbox false = .error e) ∧
        ∃ rid ∈ inbox.rids, ¬ job.Settled D store rid := by
  unfold Import.settleLeftovers
  by_cases hnil : inbox.keys = []
  · rw [if_pos hnil, hnil]
    refine Or.inl ⟨rfl, ?_⟩
    intro rid hrid
    have hmem := (OrdMap.mem_keys_iff inbox).mpr hrid
    rw [hnil] at hmem
    exact absurd hmem List.not_mem_nil
  · obtain ⟨found, hrun, -, -⟩ := survey_spec hsrc.complete hagree none
    rw [if_neg hnil, hrun]
    simp only [bind, Except.bind]
    have hsettled : ∀ rid ∈ inbox.rids,
        (rid ∈ found.present.map (fun e => job.sealer.remoteId e.1 e.2) ↔
          job.Settled D store rid) := by
      intro rid hrid
      obtain ⟨sealed, hsealed⟩ := Option.isSome_iff_exists.mp hrid
      exact Import.settled_iff hsrc hagree hrun (hfiles rid sealed hsealed)
    cases hextras : inbox.keys.filter
        fun rid => rid ∉ found.present.map fun e => job.sealer.remoteId e.1 e.2 with
    | nil =>
      refine Or.inl ⟨rfl, ?_⟩
      intro rid hrid
      refine (hsettled rid hrid).mp ?_
      have hnot := List.filter_eq_nil_iff.mp hextras rid ((OrdMap.mem_keys_iff inbox).mpr hrid)
      simpa using hnot
    | cons rid rest =>
      refine Or.inr ⟨⟨_, rfl⟩, rid, ?_⟩
      have hmem : rid ∈ inbox.keys.filter
          fun rid => rid ∉ found.present.map fun e => job.sealer.remoteId e.1 e.2 := by
        rw [hextras]
        exact List.mem_cons_self
      obtain ⟨hkey, hnot⟩ := List.mem_filter.mp hmem
      have hrid := (OrdMap.mem_keys_iff inbox).mp hkey
      exact ⟨hrid, fun h => (decide_eq_true_eq.mp hnot) ((hsettled rid hrid).mpr h)⟩

/-- The file of an object that was stored may go. -/
theorem StoredFile.Sound.settled (hsrc : job.Source D) {arrived : Set ObjectId}
    {file : StoredFile} (h : file.Sound job D arrived store) : job.Settled D store file.rid := by
  rintro id ⟨hid, kind, hkind, hrid⟩
  have heq : id = file.id := hsrc.distinct (kind, id) (file.kind, file.id) hid h.reached.closure
    hkind ⟨file.bytes, h.object⟩ ((Set.mem_singleton_iff.mp hrid).trans h.rid)
  rw [heq]
  exact ⟨h.held, h.reached⟩

/-- **Every file that a call deletes may go**, whether the call keeps or refuses leftovers. -/
theorem Batch.Inv.deletions (hsrc : job.Source D) (hagree : Agree start D)
    (hfiles : ∀ rid sealed, files.get? rid = some sealed → job.IsFile D (rid, sealed))
    {arrived pending : Set ObjectId} (h : b.Inv job D start arrived pending)
    {leftovers : Leftovers} (hmode : leftovers ≠ .Delete) :
    ∀ rid ∈ job.deletions leftovers b files, job.Settled D b.store rid := by
  intro rid hrid
  rcases List.mem_append.mp hrid with hrid | hrid
  · obtain ⟨file, hfile, rfl⟩ := List.mem_map.mp hrid
    exact (h.stored file hfile).settled hsrc
  · unfold Import.leftoversOf at hrid
    cases leftovers with
    | Delete => exact absurd rfl hmode
    | Keep => exact absurd hrid List.not_mem_nil
    | Refuse =>
      rw [if_neg (by decide), show (Leftovers.Refuse == Leftovers.Delete) = false from rfl] at hrid
      rcases Import.settleLeftovers_spec hsrc (h.grown.agree hagree)
          (Import.removeFiles files (b.stored.map StoredFile.rid))
          fun rid sealed hget => hfiles rid sealed (get?_of_removeFiles hget) with
        ⟨hok, hsettled⟩ | ⟨⟨e, herror⟩, -⟩
      · rw [hok] at hrid
        exact hsettled rid ((OrdMap.mem_keys_iff _).mp hrid)
      · rw [herror] at hrid
        exact absurd hrid List.not_mem_nil

/-! ## Runs -/

/-- The names of some files. -/
def namesOf (files : List (ObjectId × Bytes)) : Set ObjectId := {rid | rid ∈ files.map Prod.fst}

variable (job D start) in
/-- **What holds between the arrivals** of the files `F`, with those named by `delivered` so far:
a file has not been deleted unless its object is there and reached. -/
structure ImportState.Inv (F : List (ObjectId × Bytes)) (delivered : Set ObjectId)
    (st : ImportState) : Prop where
  grown : job.Grown D start st.store
  files : ∀ rid sealed, st.inbox.get? rid = some sealed → (rid, sealed) ∈ F
  within : st.store.held ⊆
    Arrival.taken (Refers job.codec D) job.head start.held (job.objectsOf D (namesOf F))
  kept : ∀ rid ∈ delivered, rid ∈ st.inbox.rids ∨ job.Settled D st.store rid

variable {F : List (ObjectId × Bytes)} {delivered : Set ObjectId} {st : ImportState}

/-- More files have more objects. -/
theorem Import.objectsOf_mono {a c : Set ObjectId} (h : a ⊆ c) :
    job.objectsOf D a ⊆ job.objectsOf D c := by
  rintro id ⟨hid, kind, hkind, hrid⟩
  exact ⟨hid, kind, hkind, h hrid⟩

/-- What is settled stays settled. -/
theorem Import.Settled.grow {store' : RawStore} {rid : ObjectId} (h : job.Settled D store rid)
    (hgrow : store.held ⊆ store'.held) : job.Settled D store' rid :=
  fun id hid => ⟨hgrow (h id hid).1, (h id hid).2.mono hgrow⟩

/-- What is in the inbox was delivered. -/
theorem ImportState.Inv.arrived (h : st.Inv job D start F delivered) :
    job.objectsOf D st.inbox.rids ⊆ job.objectsOf D (namesOf F) := by
  refine Import.objectsOf_mono ?_
  intro rid hrid
  obtain ⟨sealed, hsealed⟩ := Option.isSome_iff_exists.mp hrid
  exact List.mem_map.mpr ⟨_, h.files rid sealed hsealed, rfl⟩

/-- The inbox has files of the sender only. -/
theorem ImportState.Inv.isFile (h : st.Inv job D start F delivered)
    (hF : ∀ f ∈ F, job.IsFile D f) (rid : ObjectId) (sealed : Bytes)
    (hget : st.inbox.get? rid = some sealed) : job.IsFile D (rid, sealed) :=
  hF _ (h.files rid sealed hget)

/-- The invariant in terms of the objects. -/
theorem ImportState.Inv.progress (h : st.Inv job D start F delivered) :
    Arrival.Progress (Refers job.codec D) job.head start.held (job.objectsOf D (namesOf F))
      st.store.held (job.objectsOf D st.inbox.rids) (job.objectsOf D delivered) where
  start := h.grown.held
  within := h.within
  arrived := h.arrived
  kept := by
    rintro id ⟨hid, kind, hkind, hrid⟩
    rcases h.kept _ hrid with hin | hsettled
    · exact Or.inr ⟨hid, kind, hkind, hin⟩
    · exact Or.inl (hsettled id ⟨hid, kind, hkind, rfl⟩).1

/-- The store grows by objects that have arrived, and files go that may go. -/
theorem ImportState.Inv.advance (h : st.Inv job D start F delivered) {store' : RawStore}
    (rids : List ObjectId) (hgrown : job.Grown D st.store store')
    (htaken : store'.held ⊆ Arrival.taken (Refers job.codec D) job.head st.store.held
      (job.objectsOf D st.inbox.rids))
    (hrids : ∀ rid ∈ rids, job.Settled D store' rid) :
    ImportState.Inv job D start F delivered ⟨store', Import.removeFiles st.inbox rids⟩ where
  grown := h.grown.trans hgrown
  files := fun rid sealed hget => h.files rid sealed (get?_of_removeFiles hget)
  within := htaken.trans (Arrival.taken_subset h.within h.arrived)
  kept := by
    intro rid hrid
    rcases h.kept rid hrid with hin | hsettled
    · by_cases hmem : rid ∈ rids
      · exact Or.inr (hrids rid hmem)
      · exact Or.inl (mem_rids_removeFiles.mpr ⟨hin, hmem⟩)
    · exact Or.inr (hsettled.grow hgrown.held)

/-- Nothing is removed. -/
theorem Import.removeFiles_nil (inbox : Inbox) : Import.removeFiles inbox [] = inbox := by
  apply OrdMap.ext_get?
  intro rid
  rw [Import.removeFiles, OrdMap.get?_filter]
  cases inbox.get? rid <;> rfl

/-- The first objects of a batch are stored, whatever comes after them. -/
theorem Import.grown_foldl_putFile {arrived : Set ObjectId} {store' : RawStore}
    {stored : List StoredFile} (h : ∀ file ∈ stored, file.Sound job D arrived store') :
    job.Grown D store (stored.foldl putFile store) := by
  induction stored generalizing store with
  | nil => exact .refl
  | cons file stored ih =>
    have hfile := h file List.mem_cons_self
    exact (Import.grown_put hfile.reached.closure hfile.object).trans
      (ih fun f hf => h f (List.mem_cons_of_mem _ hf))

/-- A part of the files stores a part of the objects. -/
theorem held_foldl_putFile_take (stored : List StoredFile) (n : ℕ) (store : RawStore) :
    ((stored.take n).foldl putFile store).held ⊆ (stored.foldl putFile store).held := by
  have hgrow : ∀ (rest : List StoredFile) (s : RawStore), s.held ⊆ (rest.foldl putFile s).held := by
    intro rest
    induction rest with
    | nil => exact fun s => Set.Subset.refl _
    | cons file rest ih =>
      intro s
      exact Set.Subset.trans (fun id hid => mem_held_put.mpr (Or.inr hid)) (ih (putFile s file))
  conv_rhs => rw [← List.take_append_drop n stored, List.foldl_append]
  exact hgrow _ _

/-- A delivery keeps the invariant. -/
theorem ImportState.Inv.deliver {new : List (ObjectId × Bytes)}
    (h : st.Inv job D start F delivered) (hnew : ∀ f ∈ new, f ∈ F) :
    ImportState.Inv job D start F (delivered ∪ namesOf new)
      { st with inbox := st.inbox.foldInsert new } where
  grown := h.grown
  files := by
    intro rid sealed hget
    rcases OrdMap.mem_of_get?_foldInsert hget with hget | hget
    · exact hnew _ hget
    · exact h.files rid sealed hget
  within := h.within
  kept := by
    rintro rid (hrid | hrid)
    · rcases h.kept rid hrid with hin | hsettled
      · exact Or.inl ((OrdMap.isSome_get?_foldInsert _ _ _).mpr (Or.inr hin))
      · exact Or.inr hsettled
    · exact Or.inl ((OrdMap.isSome_get?_foldInsert _ _ _).mpr (Or.inl hrid))

/-- **Every step keeps the invariant.** -/
theorem ImportState.Inv.step (hsrc : job.Source D) (hagree : Agree start D)
    (hF : ∀ f ∈ F, job.IsFile D f) (h : st.Inv job D start F delivered) {s : ImportStep}
    (hs : ∀ f ∈ s.files, f ∈ F) :
    (job.step st s).Inv job D start F (delivered ∪ namesOf s.files) := by
  have hempty : delivered ∪ namesOf [] = delivered := by
    apply Set.Subset.antisymm
    · rintro rid (hrid | hrid)
      · exact hrid
      · exact absurd hrid List.not_mem_nil
    · exact Set.subset_union_left
  obtain ⟨b, hrun, hinv, hheld⟩ :=
    Import.batch_spec hsrc (h.grown.agree hagree) (h.isFile hF)
  have htake : ∀ leftovers, leftovers ≠ Leftovers.Delete → ∀ rids,
      (∀ rid ∈ rids, rid ∈ job.deletions leftovers b st.inbox) →
      ImportState.Inv job D start F delivered ⟨b.store, Import.removeFiles st.inbox rids⟩ := by
    intro leftovers hmode rids hrids
    refine h.advance rids hinv.grown hheld.subset ?_
    intro rid hrid
    exact hinv.deletions hsrc (h.grown.agree hagree) (h.isFile hF) hmode rid (hrids rid hrid)
  cases s with
  | deliver new => exact h.deliver hs
  | runPartial =>
    simp only [ImportStep.files, hempty, Import.step, Import.runPartial, Import.take, hrun]
    exact htake .Keep (by decide) _ fun _ hrid => hrid
  | run =>
    simp only [ImportStep.files, hempty, Import.step, Import.run, Import.take, hrun]
    exact htake .Refuse (by decide) _ fun _ hrid => hrid
  | crashStoring n =>
    simp only [ImportStep.files, hempty, Import.step, Import.crashStoring, hrun]
    have hstored : ∀ file ∈ b.stored.take n,
        file.Sound job D (job.objectsOf D st.inbox.rids) b.store :=
      fun file hfile => hinv.stored file (List.mem_of_mem_take hfile)
    have hsub := held_foldl_putFile_take b.stored n st.store
    rw [← hinv.replay] at hsub
    have hnext := h.advance [] (Import.grown_foldl_putFile hstored)
      (hsub.trans hheld.subset) fun rid hrid => absurd hrid List.not_mem_nil
    rwa [Import.removeFiles_nil] at hnext
  | crashPartial n =>
    simp only [ImportStep.files, hempty, Import.step, Import.crashDeleting, hrun]
    exact htake .Keep (by decide) _ fun _ hrid => List.mem_of_mem_take hrid
  | crashRun n =>
    simp only [ImportStep.files, hempty, Import.step, Import.crashDeleting, hrun]
    exact htake .Refuse (by decide) _ fun _ hrid => List.mem_of_mem_take hrid

/-- All steps keep the invariant. -/
theorem ImportState.Inv.steps (hsrc : job.Source D) (hagree : Agree start D)
    (hF : ∀ f ∈ F, job.IsFile D f) {steps : List ImportStep}
    (hsteps : ∀ s ∈ steps, ∀ f ∈ s.files, f ∈ F) (h : st.Inv job D start F delivered) :
    (steps.foldl job.step st).Inv job D start F
      (delivered ∪ namesOf (steps.flatMap ImportStep.files)) := by
  induction steps generalizing st delivered with
  | nil => exact ⟨h.grown, h.files, h.within, fun rid hrid => hrid.elim (h.kept rid)
      fun hnil => absurd hnil List.not_mem_nil⟩
  | cons s steps ih =>
    have hnext := ih (fun s' hs' => hsteps s' (List.mem_cons_of_mem _ hs'))
      (h.step hsrc hagree hF (hsteps s List.mem_cons_self))
    refine ⟨hnext.grown, hnext.files, hnext.within, ?_⟩
    intro rid hrid
    apply hnext.kept
    rw [List.flatMap_cons] at hrid
    rcases hrid with hrid | hrid
    · exact Or.inl (Or.inl hrid)
    · unfold namesOf at hrid
      rw [List.map_append] at hrid
      rcases List.mem_append.mp hrid with hrid | hrid
      · exact Or.inl (Or.inr hrid)
      · exact Or.inr hrid

/-- Before anything arrives. -/
theorem ImportState.inv_start : ImportState.Inv job D start F ∅ ⟨start, OrdMap.empty⟩ where
  grown := .refl
  files := by
    intro rid sealed hget
    rw [OrdMap.get?_empty] at hget
    exact absurd hget (by simp)
  within := fun id hid => Or.inl hid
  kept := fun rid hrid => absurd hrid (Set.notMem_empty _)

/-- **The last call**, once all files have arrived: what is there afterwards depends on what was
there at first and on the files, and on nothing else. -/
theorem ImportState.Inv.run (hsrc : job.Source D) (hagree : Agree start D)
    (hF : ∀ f ∈ F, job.IsFile D f) (h : st.Inv job D start F delivered)
    (hall : namesOf F ⊆ delivered) :
    job.Grown D start (job.run st).2.store ∧
      (job.run st).2.store.held =
        Arrival.taken (Refers job.codec D) job.head start.held (job.objectsOf D (namesOf F)) ∧
      ((job.run st).1.isOk = true ↔
        ∀ rid ∈ namesOf F, job.Settled D (job.run st).2.store rid) := by
  obtain ⟨b, hrun, hinv, hheld⟩ := Import.batch_spec hsrc (h.grown.agree hagree) (h.isFile hF)
  have htake : job.run st =
      ((job.leftoversOf .Refuse b st.inbox).map fun extras => ⟨b.stored.length, extras.2⟩,
        ⟨b.store, Import.removeFiles st.inbox (job.deletions .Refuse b st.inbox)⟩) := by
    simp only [Import.run, Import.take, hrun]
  rw [htake]
  refine ⟨h.grown.trans hinv.grown, ?_, ?_⟩
  · rw [hheld]
    exact h.progress.taken_eq (Import.objectsOf_mono hall)
  · have hfiles : ∀ rid sealed,
        (Import.removeFiles st.inbox (b.stored.map StoredFile.rid)).get? rid = some sealed →
          job.IsFile D (rid, sealed) :=
      fun rid sealed hget => h.isFile hF rid sealed (get?_of_removeFiles hget)
    have hleft : job.leftoversOf .Refuse b st.inbox =
        job.settleLeftovers b.store
          (Import.removeFiles st.inbox (b.stored.map StoredFile.rid)) false := rfl
    rw [hleft]
    rcases Import.settleLeftovers_spec hsrc (hinv.grown.agree (h.grown.agree hagree)) _ hfiles with
      ⟨hok, hsettled⟩ | ⟨⟨e, herror⟩, rid, hrid, hnot⟩
    · rw [hok]
      refine ⟨fun _ => ?_, fun _ => rfl⟩
      intro rid hrid
      rcases h.kept rid (hall hrid) with hin | hdone
      · by_cases hmem : rid ∈ b.stored.map StoredFile.rid
        · obtain ⟨file, hfile, rfl⟩ := List.mem_map.mp hmem
          exact (hinv.stored file hfile).settled hsrc
        · exact hsettled rid (mem_rids_removeFiles.mpr ⟨hin, hmem⟩)
      · exact hdone.grow hinv.grown.held
    · rw [herror]
      refine ⟨fun hfalse => absurd hfalse Bool.false_ne_true, fun hsettled => ?_⟩
      obtain ⟨sealed, hsealed⟩ :=
        Option.isSome_iff_exists.mp (mem_rids_removeFiles.mp hrid).1
      exact absurd (hsettled rid (List.mem_map.mpr ⟨_, h.files rid sealed hsealed, rfl⟩)) hnot

/-- **Nothing is wanted exactly if the whole snapshot is there.** -/
theorem want_eq_nil_iff (hsrc : job.Source D) (hagree : Agree store D) :
    want job.codec job.sealer store job.head = .ok [] ↔
      ∀ id, Closure job.codec D job.head id → id ∈ store.held := by
  obtain ⟨found, hrun, -, -⟩ := survey_spec hsrc.complete hagree (some wantLimit)
  have hlimit : (some wantLimit : Option ℕ) ≠ some 0 := by decide
  rw [← missing_eq_nil_iff hsrc.complete hagree hlimit hrun]
  unfold want
  rw [hrun]
  simp only [Except.map, Except.ok.injEq, List.map_eq_nil_iff]

/-- **Importing does not depend on how the files arrive.**  In every run of arrivals in any
order and grouping, repeated or not, with imports that are partial, strict or crash in between,
nothing is wanted exactly if the whole snapshot is there.  Once all files have arrived, the last
one ends with the objects, the survey and the outcome of one import of all files at once. -/
theorem import_independent_of_arrival (job : Import) (D start : RawStore) (hsrc : job.Source D)
    (hagree : Agree start D) (F : List (ObjectId × Bytes)) (hF : ∀ f ∈ F, job.IsFile D f)
    (steps : List ImportStep) (hsteps : ∀ s ∈ steps, ∀ f ∈ s.files, f ∈ F) :
    (want job.codec job.sealer (steps.foldl job.step ⟨start, OrdMap.empty⟩).store job.head =
        .ok [] ↔
      ∀ id, Closure job.codec D job.head id →
        id ∈ (steps.foldl job.step ⟨start, OrdMap.empty⟩).store.held) ∧
    ((∀ f ∈ F, ∃ s ∈ steps, f ∈ s.files) →
      (job.run (steps.foldl job.step ⟨start, OrdMap.empty⟩)).2.store =
          (job.run ⟨start, OrdMap.empty.foldInsert F⟩).2.store ∧
        (∀ missingLimit,
          survey job.codec (job.run (steps.foldl job.step ⟨start, OrdMap.empty⟩)).2.store job.head
              missingLimit =
            survey job.codec (job.run ⟨start, OrdMap.empty.foldInsert F⟩).2.store job.head
              missingLimit) ∧
        (job.run (steps.foldl job.step ⟨start, OrdMap.empty⟩)).1.isOk =
          (job.run ⟨start, OrdMap.empty.foldInsert F⟩).1.isOk) := by
  have hstart : ImportState.Inv job D start F ∅ ⟨start, OrdMap.empty⟩ := ImportState.inv_start
  have hinv := hstart.steps hsrc hagree hF hsteps
  refine ⟨want_eq_nil_iff hsrc (hinv.grown.agree hagree), ?_⟩
  intro hall
  have hnames : namesOf F ⊆ ∅ ∪ namesOf (steps.flatMap ImportStep.files) := by
    intro rid hrid
    obtain ⟨f, hf, rfl⟩ := List.mem_map.mp hrid
    obtain ⟨s, hs, hfs⟩ := hall f hf
    exact Or.inr (List.mem_map.mpr ⟨f, List.mem_flatMap.mpr ⟨s, hs, hfs⟩, rfl⟩)
  have honce := hstart.deliver (fun f (hf : f ∈ F) => hf)
  obtain ⟨hgrown, hheld, hok⟩ := hinv.run hsrc hagree hF hnames
  obtain ⟨hgrown', hheld', hok'⟩ := honce.run hsrc hagree hF Set.subset_union_right
  have hstore := hgrown.eq_of_held hgrown' (hheld.trans hheld'.symm)
  refine ⟨hstore, fun missingLimit => by rw [hstore], ?_⟩
  rw [Bool.eq_iff_iff, hok, hok', hstore]

end Spec

/-- A snapshot of one file with one chunk. -/
def sampleExchangeCodec : ObjectCodec where
  snapshot := fun bytes =>
    if bytes = [1] then some ⟨.fill 3, none, [], 0, [], [], []⟩ else none
  tree := fun bytes =>
    if bytes = [2] then
      some ⟨[⟨[97], .File, some (.fill 2), [], 0, 1, 0, 0, none, .Source⟩], []⟩
    else none
  blob := fun bytes => if bytes = [3] then some ⟨[⟨.fill 1, 1⟩], 1⟩ else none

/-- The header of a sealed object. -/
def sampleSealHeader : Bytes := [65, 71, 69, 79, 1]

/-- A scheme without a key: the header, the kind and the bytes. -/
def sampleScheme (id : ObjectId) : Scheme where
  remoteId := id
  sealWith := fun kind bytes => some (sampleSealHeader ++ kind.toU8 :: bytes)
  openWith := fun sealed =>
    match sealed.drop 5 with
    | [] => none
    | k :: bytes =>
      (ObjectKind.fromU8 k).bind fun kind =>
        if sealed.take 5 = sampleSealHeader ∧ ObjectId.fill kind.toU8 = id then
          some (kind, bytes)
        else none

/-- A sealer for objects of different kinds. -/
def sampleSealer : CellSealer := ⟨fun kind _ => .fill kind.toU8, sampleScheme, sampleScheme⟩

/-- The import of the sample. -/
def sampleJob : Import := ⟨sampleExchangeCodec, sampleSealer, .fill 4⟩

/-- The store of the sender. -/
def sampleSender : RawStore :=
  OrdMap.empty.foldInsert [(.fill 4, (.Snapshot, [1])), (.fill 3, (.Tree, [2])),
    (.fill 2, (.Blob, [3])), (.fill 1, (.Chunk, [7]))]

/-- Every object has its scheme. -/
theorem sampleSealer_scheme (kind : ObjectKind) (id : ObjectId) :
    sampleSealer.scheme kind id = sampleScheme id := by
  cases kind <;> rfl

/-- What is opened in the sample is what was sealed. -/
theorem sampleScheme_openWith {id : ObjectId} {sealed bytes : Bytes} {kind : ObjectKind} :
    (sampleScheme id).openWith sealed = some (kind, bytes) ↔
      ObjectId.fill kind.toU8 = id ∧ sealed = sampleSealHeader ++ kind.toU8 :: bytes := by
  constructor
  · intro h
    simp only [sampleScheme] at h
    split at h
    · exact absurd h (by simp)
    · rename_i k payload hdrop
      obtain ⟨opened, hopened, h⟩ := Option.bind_eq_some_iff.mp h
      split_ifs at h with hcond
      cases h
      refine ⟨hcond.2, ?_⟩
      rw [← List.take_append_drop 5 sealed, hcond.1, hdrop, ObjectKind.toU8_of_fromU8 hopened]
  · rintro ⟨hid, rfl⟩
    simp [sampleScheme, sampleSealHeader, hid]

/-- The sealer of the sample opens what it seals. -/
theorem sampleSealer_lawful : sampleSealer.Lawful := by
  intro kind id rid sealed bytes
  have hremote : sampleSealer.remoteId kind id = id := by
    rw [CellSealer.remoteId, sampleSealer_scheme]
    rfl
  unfold CellSealer.openObject CellSealer.sealObject
  rw [sampleSealer_scheme, hremote]
  constructor
  · intro h
    split_ifs at h with hrid
    split at h
    · rename_i opened payload hopened
      split_ifs at h with hkind
      cases h
      obtain ⟨hid, rfl⟩ := sampleScheme_openWith.mp hopened
      have hobject : sampleSealer.objectId opened bytes = id := hid
      rw [← hkind, if_pos hobject, hrid]
      rfl
    · exact absurd h (by simp)
  · intro h
    split_ifs at h with hid
    obtain ⟨rfl, rfl⟩ := Prod.mk.inj (Option.some.inj h)
    rw [if_pos rfl, sampleScheme_openWith.mpr ⟨hid, rfl⟩]
    exact if_pos rfl

/-- The sender of the sample has the whole snapshot. -/
theorem sampleSender_complete : Complete sampleExchangeCodec sampleSender (.fill 4) where
  snapshot := ⟨[1], by decide⟩
  closed := by
    have hall : ∀ p ∈ sampleSender.toList, ∃ es, sampleExchangeCodec.objectEdges p.2.1 p.2.2 =
        .ok es ∧ ∀ e ∈ es, ∃ bytes, sampleSender.get? e.1 = some (e.2, bytes) := by
      intro p hp
      have hcases : p = (.fill 1, (.Chunk, [7])) ∨ p = (.fill 2, (.Blob, [3])) ∨
          p = (.fill 3, (.Tree, [2])) ∨ p = (.fill 4, (.Snapshot, [1])) := by
        have hlist : sampleSender.toList = [(.fill 1, (.Chunk, [7])), (.fill 2, (.Blob, [3])),
          (.fill 3, (.Tree, [2])), (.fill 4, (.Snapshot, [1]))] := by decide
        rw [hlist] at hp
        simpa using hp
      rcases hcases with rfl | rfl | rfl | rfl
      · exact ⟨[], rfl, by simp⟩
      · refine ⟨[(.fill 1, .Chunk)], by decide, ?_⟩
        intro e he
        rw [List.mem_singleton.mp he]
        exact ⟨[7], by decide⟩
      · refine ⟨[(.fill 2, .Blob)], by decide, ?_⟩
        intro e he
        rw [List.mem_singleton.mp he]
        exact ⟨[3], by decide⟩
      · refine ⟨[(.fill 3, .Tree)], by decide, ?_⟩
        intro e he
        rw [List.mem_singleton.mp he]
        exact ⟨[2], by decide⟩
    intro id _ kind bytes hget
    exact hall _ ((OrdMap.mem_toList_iff _).mpr hget)

/-- The sender of the sample is a source of the import. -/
theorem sampleJob_source : sampleJob.Source sampleSender where
  complete := sampleSender_complete
  lawful := sampleSealer_lawful
  distinct := by
    intro a b _ _ _ _ h
    rw [CellSealer.remoteId, CellSealer.remoteId] at h
    have hscheme : ∀ kind id, (sampleJob.sealer.scheme kind id).remoteId = id := by
      intro kind id
      cases kind <;> rfl
    rwa [hscheme, hscheme] at h

/-- What the head of the sample reaches. -/
theorem sampleClosure :
    Closure sampleExchangeCodec sampleSender (.fill 4) (.fill 3) ∧
      Closure sampleExchangeCodec sampleSender (.fill 4) (.fill 2) ∧
      Closure sampleExchangeCodec sampleSender (.fill 4) (.fill 1) := by
  have htree : Closure sampleExchangeCodec sampleSender (.fill 4) (.fill 3) := by
    refine .step .root trivial ⟨.Snapshot, [1], [(.fill 3, .Tree)], ?_⟩
    exact ⟨by decide, by decide, by decide⟩
  have hblob : Closure sampleExchangeCodec sampleSender (.fill 4) (.fill 2) := by
    refine .step htree trivial ⟨.Tree, [2], [(.fill 2, .Blob)], ?_⟩
    exact ⟨by decide, by decide, by decide⟩
  refine ⟨htree, hblob, .step hblob trivial ⟨.Blob, [3], [(.fill 1, .Chunk)], ?_⟩⟩
  exact ⟨by decide, by decide, by decide⟩

/-- The sealed objects of the snapshot. -/
def sampleFiles : List (ObjectId × Bytes) :=
  [(.fill 4, sampleSealHeader ++ [4, 1]), (.fill 3, sampleSealHeader ++ [3, 2]),
    (.fill 2, sampleSealHeader ++ [2, 3]), (.fill 1, sampleSealHeader ++ [1, 7])]

/-- The files of the sample are of the sender. -/
theorem sampleFiles_isFile : ∀ f ∈ sampleFiles, sampleJob.IsFile sampleSender f := by
  obtain ⟨htree, hblob, hchunk⟩ := sampleClosure
  intro f hf
  simp only [sampleFiles, List.mem_cons, List.not_mem_nil, or_false] at hf
  rcases hf with rfl | rfl | rfl | rfl
  · exact ⟨.Snapshot, .fill 4, [1], .root, by decide, by decide⟩
  · exact ⟨.Tree, .fill 3, [2], htree, by decide, by decide⟩
  · exact ⟨.Blob, .fill 2, [3], hblob, by decide, by decide⟩
  · exact ⟨.Chunk, .fill 1, [7], hchunk, by decide, by decide⟩

/-- The chunk comes first, the snapshot twice, and a call crashes before it deletes a file. -/
def sampleArrivals : List ImportStep :=
  [.deliver (sampleFiles.drop 3), .runPartial, .deliver (sampleFiles.take 2), .crashPartial 0,
    .deliver (sampleFiles.take 3), .crashStoring 1, .runPartial]

/-- The last call brings the whole snapshot, in this order as in one go. -/
theorem import_independent_of_arrival_sample :
    (sampleJob.run (sampleArrivals.foldl sampleJob.step ⟨OrdMap.empty, OrdMap.empty⟩)).2.store =
        (sampleJob.run ⟨OrdMap.empty, OrdMap.empty.foldInsert sampleFiles⟩).2.store ∧
      (sampleJob.run ⟨OrdMap.empty, OrdMap.empty.foldInsert sampleFiles⟩).1 =
        .ok ⟨4, 0⟩ := by
  have hagree : Agree OrdMap.empty sampleSender := by
    intro id x y hx
    rw [OrdMap.get?_empty] at hx
    exact absurd hx (by simp)
  have h := import_independent_of_arrival sampleJob sampleSender OrdMap.empty sampleJob_source
    hagree sampleFiles sampleFiles_isFile sampleArrivals (by decide)
  exact ⟨(h.2 (by decide)).1, by decide⟩

end Furrow
