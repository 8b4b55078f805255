import Furrow.Exchange.Bundle

set_option relaxedAutoImplicit false
set_option autoImplicit false

/-!
# Pulling

The two ways of `sync.rs` to bring a published snapshot into the local store.  The plain pull takes
the objects that are known in batches, reuses those the store has, and fetches the others.  The
streaming pull takes the snapshot and the trees first, then the objects of each file that a checkout
plan asks for, and the rest at the end.

## Main definitions

* `Furrow.PullRemote` — the objects of the remote, as they are read and decrypted.
* `Furrow.PullState` — the local store, the queue and the counters.
* `Furrow.fetchBatch` — reuse or fetch the objects of a batch.
* `Furrow.pullOn`, `Furrow.streamingPull` — the two pulls.

## Main results

* `Furrow.PullInv.fetchBatch` — what a batch adds to the objects that were processed.

## Implementation notes

A pull that fails leaves what it has put into the store; only pulls that complete are followed here.
-/

namespace Furrow

/-- What goes wrong with a pull. -/
inductive PullError
  /-- The object is not at the remote, or cannot be decrypted. -/
  | remoteObject (id : ObjectId)
  /-- `remote object kind mismatch` -/
  | kindMismatch
  /-- `remote import ID mismatch` -/
  | importId
  /-- An error of the local store or of the walk over it. -/
  | local (e : BundleError)
  /-- `authenticated remote head does not match its snapshot root` -/
  | rootMismatch
  | outOfFuel
deriving DecidableEq

/-- A published head, and its objects as they are read and decrypted, with their encrypted
length. -/
structure PullRemote where
  snapshot : ObjectId
  root : ObjectId
  object : ObjectId → Option (ObjectKind × Bytes × ℕ)

/-- The local store, the queue, the counters, and the objects that were asked of the remote. -/
structure PullState (hash : Bytes → ObjectId) where
  store : NamedStore hash
  queue : BundleMarks
  fetchedObjects : ℕ
  reusedObjects : ℕ
  fetchedBytes : ℕ
  requests : List ObjectId

/-- `PULL_BATCH` -/
def pullBatch : ℕ := 128

section

variable {hash : Bytes → ObjectId} (codec : ObjectCodec) (remote : PullRemote)

/-- Queue what an object refers to, and note that it was processed (`process_pulled_object`). -/
def processPulledObject (queue : BundleMarks) (id : ObjectId) (kind : ObjectKind) (bytes : Bytes) :
    Except PullError BundleMarks :=
  match enqueueEdges codec queue kind bytes with
  | .error e => .error (.local e)
  | .ok queue => .ok (Tour.settle queue id)

/-- Process an object the store has. -/
def reuseOne (st : PullState hash) (id : ObjectId) (expected : ObjectKind) :
    Except PullError (PullState hash) :=
  match st.store.readBytes id expected with
  | .error e => .error (.local e)
  | .ok bytes =>
    match processPulledObject codec st.queue id expected bytes with
    | .error e => .error e
    | .ok queue => .ok { st with queue := queue, reusedObjects := st.reusedObjects + 1 }

/-- Fetch an object and process it. -/
def fetchOne (st : PullState hash) (id : ObjectId) (expected : ObjectKind) :
    Except PullError (PullState hash) :=
  match remote.object id with
  | none => .error (.remoteObject id)
  | some (kind, bytes, encrypted) =>
    if kind ≠ expected then .error .kindMismatch
    else
      match st.store.putBytes kind bytes with
      | .error e => .error (.local e)
      | .ok (name, store) =>
        if name ≠ id then .error .importId
        else
          match processPulledObject codec st.queue id expected bytes with
          | .error e => .error e
          | .ok queue => .ok ⟨store, queue, st.fetchedObjects + 1, st.reusedObjects,
              st.fetchedBytes + encrypted, st.requests ++ [id]⟩

/-- Process the objects of a batch that the store has, and collect the others. -/
def reuseAll (st : PullState hash) :
    List (ObjectId × ObjectKind) → Except PullError (PullState hash × List (ObjectId × ObjectKind))
  | [] => .ok (st, [])
  | (id, expected) :: rest =>
    if (st.store.objects.get? id).isSome then do
      let st ← reuseOne codec st id expected
      reuseAll st rest
    else do
      let (st, missing) ← reuseAll st rest
      .ok (st, (id, expected) :: missing)

/-- Fetch objects, one after the other. -/
def fetchAll (st : PullState hash) : List (ObjectId × ObjectKind) → Except PullError
    (PullState hash)
  | [] => .ok st
  | (id, expected) :: rest => do
    let st ← fetchOne codec remote st id expected
    fetchAll st rest

/-- Reuse or fetch the objects of a batch (`fetch_batch`). -/
def fetchBatch (st : PullState hash) (batch : List (ObjectId × ObjectKind)) :
    Except PullError (PullState hash) := do
  let (st, missing) ← reuseAll codec st batch
  fetchAll codec remote st missing

/-- The first objects of the queue that were not processed, of some kinds (`next_batch`,
`next_batch_of_kinds`). -/
def nextBatch (queue : BundleMarks) (kinds : List ObjectKind) : List (ObjectId × ObjectKind) :=
  ((queue.toList.filter fun p => !p.2.2 && p.2.1 ∈ kinds).map fun p => (p.1, p.2.1)).take pullBatch

/-- All kinds of objects. -/
def allKinds : List ObjectKind := [.Chunk, .Blob, .Tree, .Snapshot, .Xattrs]

/-- Take batches of some kinds until there is none. -/
def drainKinds (kinds : List ObjectKind) : ℕ → PullState hash → Except PullError (PullState hash)
  | 0, _ => .error .outOfFuel
  | fuel + 1, st =>
    match nextBatch st.queue kinds with
    | [] => .ok st
    | item :: rest => do
      let st ← fetchBatch codec remote st (item :: rest)
      drainKinds kinds fuel st

/-- The state before a pull. -/
def PullState.start (store : NamedStore hash) : PullState hash :=
  ⟨store, Tour.start (remote.snapshot, .Snapshot), 0, 0, 0, []⟩

/-- Walk the snapshot once more, and check that its root is the published one. -/
def verifyPull (st : PullState hash) : Except PullError (PullState hash) :=
  match forEachReachable codec st.store remote.snapshot with
  | .error e => .error (.local e)
  | .ok _ =>
    match st.store.readBytes remote.snapshot .Snapshot with
    | .error e => .error (.local e)
    | .ok bytes =>
      match codec.snapshot bytes with
      | none => .error (.local .invalidJson)
      | some snapshot =>
        if snapshot.rootTree = remote.root then .ok st else .error .rootMismatch

/-- The plain pull (`pull_on`). -/
def pullOn (fuel : ℕ) (store : NamedStore hash) : Except PullError (PullState hash) := do
  let st ← drainKinds codec remote allKinds fuel (PullState.start remote store)
  verifyPull codec remote st

/-- The objects of a request that were not processed; what is not known is queued. -/
def pendingItems (queue : BundleMarks) :
    List (ObjectId × ObjectKind) → Except PullError (BundleMarks × List (ObjectId × ObjectKind))
  | [] => .ok (queue, [])
  | (id, kind) :: rest =>
    match queue.get? id with
    | some (_, true) => pendingItems queue rest
    | some (_, false) => do
      let (queue, batch) ← pendingItems queue rest
      .ok (queue, (id, kind) :: batch)
    | none =>
      match Tour.enqueue queue (id, kind) with
      | none => .error (.local .conflictingKinds)
      | some queue => do
        let (queue, batch) ← pendingItems queue rest
        .ok (queue, (id, kind) :: batch)

/-- Take the objects of a request that were not processed (`fetch_pending`). -/
def fetchPending (st : PullState hash) (ids : List (ObjectId × ObjectKind)) :
    Except PullError (PullState hash) := do
  let (queue, batch) ← pendingItems st.queue ids
  fetchBatch codec remote { st with queue := queue } batch

/-- Take a file and its chunks (`fetch_file`). -/
def fetchFile (st : PullState hash) (blob : ObjectId) : Except PullError (PullState hash) := do
  let st ← fetchPending codec remote st [(blob, .Blob)]
  match st.store.readBytes blob .Blob with
  | .error e => .error (.local e)
  | .ok bytes =>
    match codec.blob bytes with
    | none => .error (.local .invalidJson)
    | some value =>
      fetchPending codec remote st (value.chunks.map fun chunk => (chunk.id, .Chunk))

/-- A file that a checkout plan asks for: its blob and its extended attributes. -/
structure FileRequest where
  blob : ObjectId
  xattrs : Option ObjectId

/-- What a checkout does before it writes a file. -/
def fetchRequest (st : PullState hash) (r : FileRequest) : Except PullError (PullState hash) := do
  let st ← fetchFile codec remote st r.blob
  match r.xattrs with
  | none => .ok st
  | some xattrs => fetchPending codec remote st [(xattrs, .Xattrs)]

/-- The files of a plan, one after the other. -/
def fetchPlan (st : PullState hash) : List FileRequest → Except PullError (PullState hash)
  | [] => .ok st
  | r :: plan => do
    let st ← fetchRequest codec remote st r
    fetchPlan st plan

/-- The snapshot and all its trees (`StreamingPull::begin`). -/
def fetchSkeleton (fuel : ℕ) (store : NamedStore hash) : Except PullError (PullState hash) :=
  drainKinds codec remote [.Snapshot, .Tree] fuel (PullState.start remote store)

/-- The streaming pull: the skeleton, the files of a plan, and what is left. -/
def streamingPull (fuel : ℕ) (store : NamedStore hash) (plan : List FileRequest) :
    Except PullError (PullState hash) := do
  let st ← fetchSkeleton codec remote fuel store
  let st ← fetchPlan codec remote st plan
  let st ← drainKinds codec remote allKinds fuel st
  verifyPull codec remote st

end

/-! ## The objects that were processed -/

section

variable {hash : Bytes → ObjectId} {codec : ObjectCodec} {remote : PullRemote}
  {store : NamedStore hash} {st st' : PullState hash} {os os' again again' : List BundleObject}
  {items : List (ObjectId × ObjectKind)}

/-- Where an object comes from: the store before the pull, or the remote. -/
def pullSource (remote : PullRemote) (store : NamedStore hash) (id : ObjectId) :
    Option (ObjectKind × Bytes) :=
  (store.objects.get? id).or ((remote.object id).map fun p => (p.1, p.2.1))

/-- The identifier and the kind of an object. -/
def BundleObject.key (o : BundleObject) : ObjectId × ObjectKind := (o.id, o.kind)

/-- Whether the store had an object before the pull. -/
def NamedStore.has (store : NamedStore hash) (o : BundleObject) : Bool :=
  (store.objects.get? o.id).isSome

/-- What holds during a pull: the objects `os` were processed, each for the first time, and those in
`again` once more. -/
structure PullInv (codec : ObjectCodec) (remote : PullRemote) (store : NamedStore hash)
    (st : PullState hash) (os again : List BundleObject) : Prop where
  tour : Tour.Inv (remote.snapshot, .Snapshot) (os.map (BundleObject.stop codec)) st.queue
  source : ∀ o ∈ os, pullSource remote store o.id = some (o.kind, o.bytes)
  readable : ∀ o ∈ os, ∃ es, codec.objectEdges o.kind o.bytes = .ok es
  stored : ∀ id, st.store.objects.get? id =
    if id ∈ os.map BundleObject.id then pullSource remote store id else store.objects.get? id
  fetched : st.fetchedObjects = (os ++ again).countP fun o => !store.has o
  reused : st.reusedObjects = (os ++ again).countP store.has
  requests : ∀ id, st.requests.count id = (os ++ again).countP fun o => !store.has o && o.id = id

/-- What the processing of some objects adds. -/
structure Advance (codec : ObjectCodec) (remote : PullRemote) (store : NamedStore hash)
    (os again : List BundleObject) (items : List (ObjectId × ObjectKind)) (st' : PullState hash)
    (os' again' : List BundleObject) : Prop where
  inv : PullInv codec remote store st' os' again'
  subset : os ⊆ os'
  keys : ∀ x, x ∈ os'.map BundleObject.key ↔ x ∈ os.map BundleObject.key ∨ x ∈ items
  length : os'.length + again'.length = os.length + again.length + items.length

/-- The invariant holds at the start. -/
theorem PullInv.start (codec : ObjectCodec) (remote : PullRemote) (store : NamedStore hash) :
    PullInv codec remote store (PullState.start remote store) [] [] := by
  constructor
  · exact Tour.inv_start _
  · simp
  · simp
  · intro id
    rfl
  · rfl
  · rfl
  · intro id
    rfl

/-- What the store has comes from there. -/
theorem pullSource_of_get? {id : ObjectId} {x : ObjectKind × Bytes}
    (h : store.objects.get? id = some x) : pullSource remote store id = some x := by
  unfold pullSource
  rw [h]
  rfl

/-- What the store had is still there. -/
theorem PullInv.get?_of_start (h : PullInv codec remote store st os again) {id : ObjectId}
    {x : ObjectKind × Bytes} (hx : store.objects.get? id = some x) :
    st.store.objects.get? id = some x := by
  rw [h.stored]
  split_ifs
  · exact pullSource_of_get? hx
  · exact hx

/-- What was processed is in the store. -/
theorem PullInv.get?_of_mem (h : PullInv codec remote store st os again) {o : BundleObject}
    (ho : o ∈ os) : st.store.objects.get? o.id = some (o.kind, o.bytes) := by
  rw [h.stored, if_pos (List.mem_map.mpr ⟨o, ho, rfl⟩)]
  exact h.source o ho

/-- No object is processed twice. -/
theorem PullInv.nodup (h : PullInv codec remote store st os again) :
    (os.map BundleObject.id).Nodup := by
  rw [← map_node_stop codec os]
  exact h.tour.nodup

/-- No object is processed twice, under any kind. -/
theorem PullInv.nodup_keys (h : PullInv codec remote store st os again) :
    (os.map BundleObject.key).Nodup := by
  apply List.Nodup.of_map Prod.fst
  rw [List.map_map]
  exact h.nodup

/-- An object that is known is known as the snapshot, or through one that was processed. -/
theorem PullInv.known_iff (h : PullInv codec remote store st os again) (x : ObjectId × ObjectKind) :
    (∃ b, st.queue.get? x.1 = some (x.2, b)) ↔
      x = (remote.snapshot, .Snapshot) ∨ ∃ o ∈ os, x ∈ (o.stop codec).edges := by
  rw [h.tour.named]
  simp

/-- What is known after some objects is known after more. -/
theorem PullInv.known_mono (h : PullInv codec remote store st os again)
    (h' : PullInv codec remote store st' os' again') (hsub : os ⊆ os') {x : ObjectId × ObjectKind}
    (hx : ∃ b, st.queue.get? x.1 = some (x.2, b)) : ∃ b, st'.queue.get? x.1 = some (x.2, b) := by
  rw [h'.known_iff]
  rcases (h.known_iff x).mp hx with hroot | ⟨o, ho, hedge⟩
  · exact Or.inl hroot
  · exact Or.inr ⟨o, hsub ho, hedge⟩

/-- The objects that are done are those that were processed. -/
theorem PullInv.visited_iff (h : PullInv codec remote store st os again)
    (x : ObjectId × ObjectKind) :
    st.queue.get? x.1 = some (x.2, true) ↔ x ∈ os.map BundleObject.key := by
  rw [h.tour.visited]
  simp [BundleObject.key, BundleObject.stop, Prod.ext_iff]

/-- An object that is known and was processed was processed with its kind. -/
theorem PullInv.mem_keys_of_known (h : PullInv codec remote store st os again)
    {x : ObjectId × ObjectKind} (hx : ∃ b, st.queue.get? x.1 = some (x.2, b))
    (hid : x.1 ∈ os.map BundleObject.id) : x ∈ os.map BundleObject.key := by
  obtain ⟨b, hb⟩ := hx
  obtain ⟨o, ho, hoid⟩ := List.mem_map.mp hid
  have hvisited := (h.visited_iff o.key).mpr (List.mem_map.mpr ⟨o, ho, rfl⟩)
  have hget : st.queue.get? x.1 = some (o.kind, true) := by
    rw [← hoid]
    exact hvisited
  rw [hb] at hget
  obtain ⟨hkind, rfl⟩ := Prod.mk.inj (Option.some.inj hget)
  exact (h.visited_iff x).mp hb

/-- An object that was processed is the one its source has. -/
theorem PullInv.mem_of_key (h : PullInv codec remote store st os again) {o : BundleObject}
    (hkey : o.key ∈ os.map BundleObject.key)
    (hsource : pullSource remote store o.id = some (o.kind, o.bytes)) : o ∈ os := by
  obtain ⟨q, hq, heq⟩ := List.mem_map.mp hkey
  obtain ⟨hid, hkind⟩ := Prod.mk.inj heq
  have hsame := h.source q hq
  rw [hid, hsource] at hsame
  obtain ⟨-, hbytes⟩ := Prod.mk.inj (Option.some.inj hsame)
  have : q = o := by
    cases q
    cases o
    simp_all
  exact this ▸ hq

/-- An object is processed if its edges can be read and agree with the kinds that are known. -/
theorem processPulledObject_eq_ok_iff {queue queue' : BundleMarks} {o : BundleObject} :
    processPulledObject codec queue o.id o.kind o.bytes = .ok queue' ↔
      (∃ es, codec.objectEdges o.kind o.bytes = .ok es) ∧
        ∃ named, Tour.enqueueAll queue (o.stop codec).edges = some named ∧
          Tour.settle named o.id = queue' := by
  unfold processPulledObject
  cases h : enqueueEdges codec queue o.kind o.bytes with
  | error e =>
    refine ⟨fun hok => absurd hok (by simp), ?_⟩
    rintro ⟨hes, named, hnamed, -⟩
    rw [enqueueEdges_eq_ok_iff.mpr ⟨hes, hnamed⟩] at h
    exact absurd h (by simp)
  | ok named =>
    obtain ⟨hes, hnamed⟩ := enqueueEdges_eq_ok_iff.mp h
    constructor
    · intro hok
      exact ⟨hes, named, hnamed, Except.ok.inj hok⟩
    · rintro ⟨-, named', hnamed', rfl⟩
      rw [hnamed] at hnamed'
      rw [Option.some.inj hnamed']

/-! ## One object -/

/-- **One object is processed**, for the first time or once more. -/
theorem PullInv.process (h : PullInv codec remote store st os again) {o : BundleObject}
    (hknown : ∃ b, st.queue.get? o.id = some (o.kind, b))
    (hsource : pullSource remote store o.id = some (o.kind, o.bytes))
    (hqueue : processPulledObject codec st.queue o.id o.kind o.bytes = .ok st'.queue)
    (hstored : ∀ id, st'.store.objects.get? id =
      if id = o.id then some (o.kind, o.bytes) else st.store.objects.get? id)
    (hfetched : st'.fetchedObjects = st.fetchedObjects + if store.has o then 0 else 1)
    (hreused : st'.reusedObjects = st.reusedObjects + if store.has o then 1 else 0)
    (hrequests : st'.requests = st.requests ++ if store.has o then [] else [o.id]) :
    ∃ os' again', Advance codec remote store os again [o.key] st' os' again' := by
  obtain ⟨hreadable, named, hnamed, hsettle⟩ := processPulledObject_eq_ok_iff.mp hqueue
  have hcount :
      ∀ id, st'.requests.count id = (os ++ again).countP (fun o => !store.has o && o.id = id) +
        if !store.has o && o.id = id then 1 else 0 := by
    intro id
    rw [hrequests, List.count_append, h.requests]
    cases store.has o <;> simp [List.count_singleton]
  have hfetched' : st'.fetchedObjects = ((os ++ again).countP fun o => !store.has o) +
      if !store.has o then 1 else 0 := by
    rw [hfetched, h.fetched]
    cases store.has o <;> rfl
  rw [h.reused] at hreused
  obtain ⟨b, hb⟩ := hknown
  cases b with
  | false =>
    refine ⟨os ++ [o], again, ⟨?_, ?_, ?_, ?_, ?_, ?_, ?_⟩, ?_, ?_, ?_⟩
    · rw [List.map_append, List.map_singleton, ← hsettle]
      exact h.tour.visit hb hnamed
    · intro q hq
      rcases List.mem_append.mp hq with hq | hq
      · exact h.source q hq
      · rw [List.mem_singleton.mp hq]
        exact hsource
    · intro q hq
      rcases List.mem_append.mp hq with hq | hq
      · exact h.readable q hq
      · rw [List.mem_singleton.mp hq]
        exact hreadable
    · intro id
      rw [hstored, h.stored, List.map_append, List.map_singleton]
      by_cases hid : id = o.id
      · simp [hid, hsource]
      · simp [hid]
    · rw [hfetched']
      simp only [List.countP_append, List.countP_singleton]
      omega
    · rw [hreused]
      simp only [List.countP_append, List.countP_singleton]
      omega
    · intro id
      rw [hcount]
      simp only [List.countP_append, List.countP_singleton]
      omega
    · exact List.subset_append_left os [o]
    · intro x
      rw [List.map_append, List.mem_append, List.map_singleton]
    · simp only [List.length_append, List.length_singleton]
      omega
  | true =>
    have hkey : o.key ∈ os.map BundleObject.key := (h.visited_iff o.key).mp hb
    have ho := h.mem_of_key hkey hsource
    have hsame : st'.queue = st.queue := by
      rw [← hsettle]
      exact h.tour.revisit (List.mem_map.mpr ⟨o, ho, rfl⟩) hnamed
    refine ⟨os, again ++ [o], ⟨?_, h.source, h.readable, ?_, ?_, ?_, ?_⟩,
      List.Subset.refl os, ?_, ?_⟩
    · rw [hsame]
      exact h.tour
    · intro id
      rw [hstored]
      split_ifs with hid hmem
      · rw [hid, hsource]
      · exact absurd (hid ▸ List.mem_map.mpr ⟨o, ho, rfl⟩) hmem
      · rw [h.stored, if_pos ‹_›]
      · rw [h.stored, if_neg ‹_›]
    · rw [hfetched', ← List.append_assoc]
      simp only [List.countP_append, List.countP_singleton]
    · rw [hreused, ← List.append_assoc]
      simp only [List.countP_append, List.countP_singleton]
    · intro id
      rw [hcount, ← List.append_assoc]
      simp only [List.countP_append, List.countP_singleton]
    · intro x
      constructor
      · exact Or.inl
      · rintro (hx | hx)
        · exact hx
        · rw [List.mem_singleton.mp hx]
          exact hkey
    · simp only [List.length_append, List.length_singleton]
      omega

/-- What is read is stored. -/
theorem NamedStore.get?_of_readBytes {s : NamedStore hash} {id : ObjectId} {kind : ObjectKind}
    {bytes : Bytes} (h : s.readBytes id kind = .ok bytes) :
    s.objects.get? id = some (kind, bytes) := by
  unfold NamedStore.readBytes at h
  cases hget : s.objects.get? id with
  | none =>
    rw [hget] at h
    exact absurd h (by simp)
  | some x =>
    rw [hget] at h
    dsimp only at h
    split_ifs at h with hkind hname
    rw [← Except.ok.inj h, ← not_ne_iff.mp hkind]

/-- An object the store had is reused. -/
theorem PullInv.reuseOne (h : PullInv codec remote store st os again) {id : ObjectId}
    {kind : ObjectKind} (hknown : ∃ b, st.queue.get? id = some (kind, b))
    (hhas : (store.objects.get? id).isSome) (hok : reuseOne codec st id kind = .ok st') :
    ∃ os' again', Advance codec remote store os again [(id, kind)] st' os' again' := by
  unfold Furrow.reuseOne at hok
  cases hread : st.store.readBytes id kind with
  | error e =>
    rw [hread] at hok
    exact absurd hok (by simp)
  | ok bytes =>
    rw [hread] at hok
    dsimp only at hok
    cases hqueue : processPulledObject codec st.queue id kind bytes with
    | error e =>
      rw [hqueue] at hok
      exact absurd hok (by simp)
    | ok queue =>
      rw [hqueue] at hok
      obtain rfl := Except.ok.inj hok
      have hget := NamedStore.get?_of_readBytes hread
      have hstart : store.objects.get? id = some (kind, bytes) := by
        obtain ⟨x, hx⟩ := Option.isSome_iff_exists.mp hhas
        rw [hx, ← h.get?_of_start hx, hget]
      have hhas' : store.has ⟨id, kind, bytes⟩ = true := hhas
      refine h.process (o := ⟨id, kind, bytes⟩) hknown (pullSource_of_get? hstart) hqueue
        ?_ ?_ ?_ ?_
      · intro id'
        split_ifs with hid
        · rw [hid, hget]
        · rfl
      · rw [if_pos hhas']
        rfl
      · rw [if_pos hhas']
      · rw [if_pos hhas', List.append_nil]

/-- An object the store did not have is fetched. -/
theorem PullInv.fetchOne (h : PullInv codec remote store st os again) {id : ObjectId}
    {kind : ObjectKind} (hknown : ∃ b, st.queue.get? id = some (kind, b))
    (hhas : store.objects.get? id = none) (hok : fetchOne codec remote st id kind = .ok st') :
    ∃ os' again', Advance codec remote store os again [(id, kind)] st' os' again' := by
  unfold Furrow.fetchOne at hok
  cases hobject : remote.object id with
  | none =>
    rw [hobject] at hok
    exact absurd hok (by simp)
  | some p =>
    obtain ⟨kind', bytes, encrypted⟩ := p
    rw [hobject] at hok
    dsimp only at hok
    split_ifs at hok with hkind
    obtain rfl := not_ne_iff.mp hkind
    cases hput : st.store.putBytes kind' bytes with
    | error e =>
      rw [hput] at hok
      exact absurd hok (by simp)
    | ok q =>
      obtain ⟨name, put⟩ := q
      rw [hput] at hok
      dsimp only at hok
      split_ifs at hok with hname
      obtain rfl := not_ne_iff.mp hname
      cases hqueue : processPulledObject codec st.queue name kind' bytes with
      | error e =>
        rw [hqueue] at hok
        exact absurd hok (by simp)
      | ok queue =>
        rw [hqueue] at hok
        obtain rfl := Except.ok.inj hok
        have hsource : pullSource remote store name = some (kind', bytes) := by
          unfold pullSource
          rw [hhas, hobject]
          rfl
        have hhas' : store.has ⟨name, kind', bytes⟩ = false := by
          unfold NamedStore.has
          rw [hhas]
          rfl
        refine h.process (o := ⟨name, kind', bytes⟩) hknown hsource hqueue ?_ ?_ ?_ ?_
        · intro id'
          unfold NamedStore.putBytes at hput
          split_ifs at hput with hlen
          obtain ⟨hid, rfl⟩ := Prod.mk.inj (Except.ok.inj hput)
          dsimp only
          rw [get?_put, hid]
          -- It may have been fetched before: then the same object is there.
          have hcases : (st.store.objects.get? name).getD (kind', bytes) = (kind', bytes) := by
            rw [h.stored, hsource, hhas]
            split_ifs <;> rfl
          rw [hcases]
        · rw [hhas']
          rfl
        · rw [hhas']
          rfl
        · rw [hhas']
          rfl

/-! ## A batch -/

/-- Nothing is an advance. -/
theorem PullInv.advance_nil (h : PullInv codec remote store st os again) :
    Advance codec remote store os again [] st os again :=
  ⟨h, List.Subset.refl os, by simp, by simp⟩

/-- Two advances are one. -/
theorem Advance.trans {mid : PullState hash} {os₁ again₁ : List BundleObject}
    {items' : List (ObjectId × ObjectKind)}
    (h : Advance codec remote store os again items mid os₁ again₁)
    (h' : Advance codec remote store os₁ again₁ items' st' os' again') :
    Advance codec remote store os again (items ++ items') st' os' again' := by
  refine ⟨h'.inv, fun o ho => h'.subset (h.subset ho), ?_, ?_⟩
  · intro x
    rw [h'.keys, h.keys, List.mem_append, or_assoc]
  · have := h.length
    have := h'.length
    rw [List.length_append]
    omega

/-- The order of the items does not matter. -/
theorem Advance.perm {items' : List (ObjectId × ObjectKind)}
    (h : Advance codec remote store os again items st' os' again') (hperm : items.Perm items') :
    Advance codec remote store os again items' st' os' again' := by
  refine ⟨h.inv, h.subset, ?_, ?_⟩
  · intro x
    rw [h.keys, hperm.mem_iff]
  · rw [h.length, hperm.length_eq]

/-- What the store had of a batch is reused, and what it had not is left. -/
theorem PullInv.reuseAll (h : PullInv codec remote store st os again)
    {missing : List (ObjectId × ObjectKind)}
    (hknown : ∀ i ∈ items, ∃ b, st.queue.get? i.1 = some (i.2, b))
    (hvisited : ∀ i ∈ items, i.1 ∈ os.map BundleObject.id → (store.objects.get? i.1).isSome)
    (hok : reuseAll codec st items = .ok (st', missing)) :
    ∃ present os' again', Advance codec remote store os again present st' os' again' ∧
      items.Perm (present ++ missing) ∧ ∀ i ∈ missing, store.objects.get? i.1 = none := by
  induction items generalizing st os again missing with
  | nil =>
    obtain ⟨rfl, rfl⟩ := Prod.mk.inj (Except.ok.inj hok)
    exact ⟨[], os, again, h.advance_nil, List.Perm.refl [], by simp⟩
  | cons i rest ih =>
    obtain ⟨id, kind⟩ := i
    have hknown₁ := hknown (id, kind) List.mem_cons_self
    have hvisited₁ := hvisited (id, kind) List.mem_cons_self
    dsimp only at hknown₁ hvisited₁
    rw [Furrow.reuseAll] at hok
    split_ifs at hok with hhere
    · have hhas : (store.objects.get? id).isSome := by
        by_cases hid : id ∈ os.map BundleObject.id
        · exact hvisited₁ hid
        · rwa [h.stored, if_neg hid] at hhere
      cases hone : Furrow.reuseOne codec st id kind with
      | error e =>
        rw [hone] at hok
        exact absurd hok (by simp [bind, Except.bind])
      | ok mid =>
        rw [hone] at hok
        obtain ⟨os₁, again₁, hadv⟩ := h.reuseOne hknown₁ hhas hone
        obtain ⟨present, os', again', hadv', hperm, hmissing⟩ := ih hadv.inv
          (fun i hi => h.known_mono hadv.inv hadv.subset (hknown i (List.mem_cons_of_mem _ hi)))
          (by
            intro i hi hmem
            obtain ⟨o, ho, hoid⟩ := List.mem_map.mp hmem
            rcases (hadv.keys o.key).mp (List.mem_map.mpr ⟨o, ho, rfl⟩) with hold | hnew
            · obtain ⟨q, hq, hkey⟩ := List.mem_map.mp hold
              have hqid : q.id = i.1 := (congrArg Prod.fst hkey).trans hoid
              exact hvisited i (List.mem_cons_of_mem _ hi) (List.mem_map.mpr ⟨q, hq, hqid⟩)
            · have hid : o.id = id := congrArg Prod.fst (List.mem_singleton.mp hnew)
              rw [← hoid, hid]
              exact hhas) hok
        exact ⟨(id, kind) :: present, os', again', hadv.trans hadv', hperm.cons _, hmissing⟩
    · cases hrest : Furrow.reuseAll codec st rest with
      | error e =>
        rw [hrest] at hok
        exact absurd hok (by simp [bind, Except.bind])
      | ok p =>
        obtain ⟨last, missing'⟩ := p
        rw [hrest] at hok
        obtain ⟨rfl, rfl⟩ := Prod.mk.inj (Except.ok.inj hok)
        obtain ⟨present, os', again', hadv, hperm, hmissing⟩ := ih h
          (fun i hi => hknown i (List.mem_cons_of_mem _ hi))
          (fun i hi => hvisited i (List.mem_cons_of_mem _ hi)) hrest
        refine ⟨present, os', again', hadv, (hperm.cons _).trans List.perm_middle.symm, ?_⟩
        intro i hi
        rcases List.mem_cons.mp hi with rfl | hi
        · dsimp only
          cases hget : store.objects.get? id with
          | none => rfl
          | some x =>
            rw [h.get?_of_start hget] at hhere
            exact absurd rfl hhere
        · exact hmissing i hi

/-- What is left of a batch is fetched. -/
theorem PullInv.fetchAll (h : PullInv codec remote store st os again)
    (hknown : ∀ i ∈ items, ∃ b, st.queue.get? i.1 = some (i.2, b))
    (hmissing : ∀ i ∈ items, store.objects.get? i.1 = none)
    (hok : fetchAll codec remote st items = .ok st') :
    ∃ os' again', Advance codec remote store os again items st' os' again' := by
  induction items generalizing st os again with
  | nil =>
    obtain rfl := Except.ok.inj hok
    exact ⟨os, again, h.advance_nil⟩
  | cons i rest ih =>
    obtain ⟨id, kind⟩ := i
    rw [Furrow.fetchAll] at hok
    cases hone : Furrow.fetchOne codec remote st id kind with
    | error e =>
      rw [hone] at hok
      exact absurd hok (by simp [bind, Except.bind])
    | ok mid =>
      rw [hone] at hok
      obtain ⟨os₁, again₁, hadv⟩ := h.fetchOne (hknown (id, kind) List.mem_cons_self)
        (hmissing (id, kind) List.mem_cons_self) hone
      obtain ⟨os', again', hadv'⟩ := ih hadv.inv
        (fun i hi => h.known_mono hadv.inv hadv.subset (hknown i (List.mem_cons_of_mem _ hi)))
        (fun i hi => hmissing i (List.mem_cons_of_mem _ hi)) hok
      exact ⟨os', again', hadv.trans hadv'⟩

/-- An object that is not processed yet is not among those that were. -/
theorem PullInv.not_mem_of_pending (h : PullInv codec remote store st os again)
    {x : ObjectId × ObjectKind} (hx : st.queue.get? x.1 = some (x.2, false)) :
    x.1 ∉ os.map BundleObject.id := by
  intro hid
  have hvisited := (h.visited_iff x).mpr (h.mem_keys_of_known ⟨false, hx⟩ hid)
  rw [hx] at hvisited
  exact absurd hvisited (by simp)

/-- What is pending was not processed. -/
theorem PullInv.key_not_mem_of_pending (h : PullInv codec remote store st os again)
    {x : ObjectId × ObjectKind} (hx : st.queue.get? x.1 = some (x.2, false)) :
    x ∉ os.map BundleObject.key := by
  intro hkey
  obtain ⟨o, ho, rfl⟩ := List.mem_map.mp hkey
  exact h.not_mem_of_pending hx (List.mem_map.mpr ⟨o, ho, rfl⟩)

/-- **A batch is processed**: each of its objects, as often as it is there. -/
theorem PullInv.fetchBatch (h : PullInv codec remote store st os again)
    (hpending : ∀ i ∈ items, st.queue.get? i.1 = some (i.2, false))
    (hok : fetchBatch codec remote st items = .ok st') :
    ∃ os' again', Advance codec remote store os again items st' os' again' := by
  unfold Furrow.fetchBatch at hok
  cases hreuse : Furrow.reuseAll codec st items with
  | error e =>
    rw [hreuse] at hok
    exact absurd hok (by simp [bind, Except.bind])
  | ok p =>
    obtain ⟨mid, missing⟩ := p
    rw [hreuse] at hok
    have hknown : ∀ i ∈ items, ∃ b, st.queue.get? i.1 = some (i.2, b) :=
      fun i hi => ⟨false, hpending i hi⟩
    obtain ⟨present, os₁, again₁, hadv, hperm, hmissing⟩ := h.reuseAll hknown
      (fun i hi hid => absurd hid (h.not_mem_of_pending (hpending i hi))) hreuse
    obtain ⟨os', again', hadv'⟩ := hadv.inv.fetchAll
      (fun i hi => h.known_mono hadv.inv hadv.subset
        (hknown i (hperm.mem_iff.mpr (List.mem_append_right _ hi)))) hmissing hok
    exact ⟨os', again', (hadv.trans hadv').perm hperm.symm⟩

/-- **Nothing of a batch is processed twice exactly if nothing is twice in it.** -/
theorem Advance.length_eq_iff (h : PullInv codec remote store st os again)
    (hadv : Advance codec remote store os again items st' os' again')
    (hfresh : ∀ i ∈ items, i ∉ os.map BundleObject.key) :
    again.length ≤ again'.length ∧ (again'.length = again.length ↔ items.Nodup) := by
  have hperm : (os'.map BundleObject.key).Perm (os.map BundleObject.key ++ items.dedup) := by
    rw [List.perm_ext_iff_of_nodup hadv.inv.nodup_keys]
    · intro x
      rw [hadv.keys, List.mem_append, List.mem_dedup]
    · refine List.Nodup.append h.nodup_keys (List.nodup_dedup items) ?_
      intro x hx hmem
      exact hfresh x (List.mem_dedup.mp hmem) hx
  have hlen := hperm.length_eq
  rw [List.length_append, List.length_map, List.length_map] at hlen
  have hsub := List.dedup_sublist items
  have hle := hsub.length_le
  have hlength := hadv.length
  refine ⟨by omega, ?_⟩
  rw [← List.dedup_eq_self]
  constructor
  · intro heq
    exact hsub.eq_of_length (by omega)
  · intro heq
    rw [heq] at hlen
    omega

/-! ## Batches until there is none -/

/-- A batch has pending objects of its kinds. -/
theorem nextBatch_pending {queue : BundleMarks} {kinds : List ObjectKind}
    {x : ObjectId × ObjectKind} (hx : x ∈ nextBatch queue kinds) :
    queue.get? x.1 = some (x.2, false) ∧ x.2 ∈ kinds := by
  obtain ⟨⟨id, kind, b⟩, hp, rfl⟩ := List.mem_map.mp (List.mem_of_mem_take hx)
  obtain ⟨hmem, hfilter⟩ := List.mem_filter.mp hp
  have hget := (OrdMap.mem_toList_iff queue).mp hmem
  simp only [Bool.and_eq_true, Bool.not_eq_true', decide_eq_true_eq] at hfilter
  obtain ⟨rfl, hkind⟩ := hfilter
  exact ⟨hget, hkind⟩

/-- A batch has no object twice. -/
theorem nodup_nextBatch (queue : BundleMarks) (kinds : List ObjectKind) :
    (nextBatch queue kinds).Nodup := by
  apply List.Nodup.of_map Prod.fst
  unfold nextBatch
  rw [← List.map_take, List.map_map]
  have hsub : (List.take pullBatch (queue.toList.filter fun p => !p.2.2 && p.2.1 ∈ kinds)).Sublist
      queue.toList := (List.take_sublist _ _).trans List.filter_sublist
  refine List.Nodup.sublist (hsub.map Prod.fst) ?_
  exact queue.keys_sorted.imp fun h => ne_of_lt h

/-- If a batch is empty, all objects of its kinds are done. -/
theorem nextBatch_eq_nil {queue : BundleMarks} {kinds : List ObjectKind}
    (h : nextBatch queue kinds = []) {id : ObjectId} {kind : ObjectKind} {b : Bool}
    (hget : queue.get? id = some (kind, b)) (hkind : kind ∈ kinds) : b = true := by
  by_contra hb
  have hmem : (id, kind, b) ∈ queue.toList.filter fun p => !p.2.2 && p.2.1 ∈ kinds := by
    rw [List.mem_filter]
    exact ⟨(OrdMap.mem_toList_iff queue).mpr hget, by simp [hb, hkind]⟩
  unfold nextBatch at h
  rcases List.take_eq_nil_iff.mp h with hzero | hnil
  · exact absurd hzero (by decide)
  · rw [List.map_eq_nil_iff.mp hnil] at hmem
    exact absurd hmem (by simp)

/-- **Batches process nothing twice**, and only objects of their kinds. -/
theorem PullInv.drainKinds (h : PullInv codec remote store st os again) {kinds : List ObjectKind}
    {fuel : ℕ} (hok : drainKinds codec remote kinds fuel st = .ok st') :
    ∃ os' again', PullInv codec remote store st' os' again' ∧ again'.length = again.length ∧
      os ⊆ os' ∧ (∀ o ∈ os', o ∈ os ∨ o.kind ∈ kinds) ∧ nextBatch st'.queue kinds = [] := by
  induction fuel generalizing st os again with
  | zero => exact absurd hok (by simp [Furrow.drainKinds])
  | succ fuel ih =>
    rw [Furrow.drainKinds] at hok
    cases hbatch : nextBatch st.queue kinds with
    | nil =>
      rw [hbatch] at hok
      obtain rfl := Except.ok.inj hok
      exact ⟨os, again, h, rfl, List.Subset.refl os, fun o ho => Or.inl ho, hbatch⟩
    | cons item rest =>
      rw [hbatch] at hok
      dsimp only at hok
      rw [← hbatch] at hok
      cases hone : Furrow.fetchBatch codec remote st (nextBatch st.queue kinds) with
      | error e =>
        rw [hone] at hok
        exact absurd hok (by simp [bind, Except.bind])
      | ok mid =>
        rw [hone] at hok
        obtain ⟨os₁, again₁, hadv⟩ := h.fetchBatch (fun i hi => (nextBatch_pending hi).1) hone
        have hlength := (hadv.length_eq_iff h fun i hi => h.key_not_mem_of_pending
          (nextBatch_pending hi).1).2.mpr (nodup_nextBatch st.queue kinds)
        obtain ⟨os', again', hinv, hlength', hsub, hkinds, hdone⟩ := ih hadv.inv hok
        refine ⟨os', again', hinv, hlength'.trans hlength, fun o ho => hsub (hadv.subset ho), ?_,
          hdone⟩
        intro o ho
        rcases hkinds o ho with hold | hkind
        · rcases (hadv.keys o.key).mp (List.mem_map.mpr ⟨o, hold, rfl⟩) with hkey | hnew
          · exact Or.inl (h.mem_of_key hkey (hinv.source o ho))
          · exact Or.inr (nextBatch_pending hnew).2
        · exact Or.inr hkind

/-- There are no other kinds. -/
theorem mem_allKinds (kind : ObjectKind) : kind ∈ allKinds := by
  cases kind <;> decide

/-- If nothing is pending, the tour is done. -/
theorem done_of_nextBatch {queue : BundleMarks} (h : nextBatch queue allKinds = []) :
    Tour.Done queue :=
  fun _ kind _ hget => nextBatch_eq_nil h hget (mem_allKinds kind)

/-! ## Two pulls -/

/-- **A pull that is over has processed all that another one has.** -/
theorem PullInv.subset_of_done (h : PullInv codec remote store st os again)
    (h' : PullInv codec remote store st' os' again') (hdone : Tour.Done st'.queue) : os ⊆ os' := by
  have hsame : ∀ o ∈ os, ∀ o' ∈ os', o.key = o'.key → o = o' := by
    intro o ho o' ho' hkey
    obtain ⟨hid, hkind⟩ := Prod.mk.inj hkey
    have hbytes := h.source o ho
    rw [hid, h'.source o' ho'] at hbytes
    obtain ⟨-, hbytes⟩ := Prod.mk.inj (Option.some.inj hbytes)
    cases o
    cases o'
    simp_all
  have hstops := h.tour.subset h'.tour hdone (by
    intro s hs s' hs' hkey
    obtain ⟨o, ho, rfl⟩ := List.mem_map.mp hs
    obtain ⟨o', ho', rfl⟩ := List.mem_map.mp hs'
    rw [hsame o ho o' ho' hkey])
  intro o ho
  obtain ⟨o', ho', heq⟩ := List.mem_map.mp (hstops (List.mem_map.mpr ⟨o, ho, rfl⟩))
  have hkey : o.key = o'.key := Prod.ext (congrArg Tour.Stop.node heq).symm
    (congrArg Tour.Stop.tag heq).symm
  rw [hsame o ho o' ho' hkey]
  exact ho'

/-- No object is listed twice. -/
theorem PullInv.nodup_objects (h : PullInv codec remote store st os again) : os.Nodup :=
  List.Nodup.of_map BundleObject.id h.nodup

/-- Pulls that are over have processed the same objects. -/
theorem PullInv.perm_of_done (h : PullInv codec remote store st os again)
    (h' : PullInv codec remote store st' os' again') (hdone : Tour.Done st.queue)
    (hdone' : Tour.Done st'.queue) : os.Perm os' := by
  rw [List.perm_ext_iff_of_nodup h.nodup_objects h'.nodup_objects]
  intro o
  exact ⟨fun ho => h.subset_of_done h' hdone' ho, fun ho => h'.subset_of_done h hdone ho⟩

/-- They end with the same store. -/
theorem PullInv.store_eq_of_done (h : PullInv codec remote store st os again)
    (h' : PullInv codec remote store st' os' again') (hdone : Tour.Done st.queue)
    (hdone' : Tour.Done st'.queue) : st.store = st'.store := by
  have hperm := (h.perm_of_done h' hdone hdone').map BundleObject.id
  have hobjects : st.store.objects = st'.store.objects := by
    apply OrdMap.ext_get?
    intro id
    rw [h.stored, h'.stored]
    simp only [hperm.mem_iff]
  rcases st with ⟨⟨objects, named⟩, _, _, _, _, _⟩
  rcases st' with ⟨⟨objects', named'⟩, _, _, _, _, _⟩
  cases hobjects
  rfl

section Reference

/-! What is known in one pull is among the objects of another that is over, so that the first one
goes on until it is over, too. -/

variable {ref : PullState hash} {os₀ again₀ : List BundleObject}

/-- What is known here is processed by the other pull. -/
theorem PullInv.mem_reference (href : PullInv codec remote store ref os₀ again₀)
    (hover : Tour.Done ref.queue) (h : PullInv codec remote store st os again)
    {x : ObjectId × ObjectKind} (hx : ∃ b, st.queue.get? x.1 = some (x.2, b)) :
    ∃ o ∈ os₀, o.key = x := by
  obtain ⟨hroot, hclosed⟩ := href.tour.closed hover
  rcases (h.known_iff x).mp hx with rfl | ⟨o, ho, hedge⟩
  · obtain ⟨s, hs, hkey⟩ := hroot
    obtain ⟨q, hq, rfl⟩ := List.mem_map.mp hs
    exact ⟨q, hq, hkey⟩
  · have ho' := h.subset_of_done href hover ho
    obtain ⟨s, hs, hkey⟩ := hclosed _ (List.mem_map.mpr ⟨o, ho', rfl⟩) x hedge
    obtain ⟨q, hq, rfl⟩ := List.mem_map.mp hs
    exact ⟨q, hq, hkey⟩

/-- What the other pull processed can be processed here. -/
theorem PullInv.exists_process (href : PullInv codec remote store ref os₀ again₀)
    (hover : Tour.Done ref.queue) (h : PullInv codec remote store st os again) {o : BundleObject}
    (ho : o ∈ os₀) :
    ∃ queue, processPulledObject codec st.queue o.id o.kind o.bytes = .ok queue := by
  obtain ⟨es, hes⟩ := href.readable o ho
  obtain ⟨-, hclosed⟩ := href.tour.closed hover
  -- The tags of the table are the kinds the objects have at their source.
  obtain ⟨named, hnamed⟩ : ∃ named, Tour.enqueueAll st.queue (o.stop codec).edges = some named := by
    refine Tour.exists_enqueueAll (fun id => (pullSource remote store id).map Prod.fst) ?_ ?_
    · intro id p hp
      obtain ⟨q, hq, hkey⟩ := href.mem_reference hover h (x := (id, p.1)) ⟨p.2, hp⟩
      obtain ⟨hid, hkind⟩ := Prod.mk.inj hkey
      rw [← hid, href.source q hq]
      exact congrArg some hkind
    · intro e he
      obtain ⟨s, hs, hkey⟩ := hclosed _ (List.mem_map.mpr ⟨o, ho, rfl⟩) e he
      obtain ⟨q, hq, rfl⟩ := List.mem_map.mp hs
      rw [← hkey]
      dsimp only
      rw [show (q.stop codec).node = q.id from rfl, href.source q hq]
      rfl
  exact ⟨_, processPulledObject_eq_ok_iff.mpr ⟨⟨es, hes⟩, named, hnamed, rfl⟩⟩

/-- An object that the store has can be reused. -/
theorem PullInv.exists_reuseOne (href : PullInv codec remote store ref os₀ again₀)
    (hover : Tour.Done ref.queue) (h : PullInv codec remote store st os again) {id : ObjectId}
    {kind : ObjectKind} (hknown : ∃ b, st.queue.get? id = some (kind, b))
    (hhas : (store.objects.get? id).isSome) :
    ∃ st', Furrow.reuseOne codec st id kind = .ok st' := by
  obtain ⟨o, ho, hkey⟩ := href.mem_reference hover h (x := (id, kind)) hknown
  obtain ⟨rfl, rfl⟩ := Prod.mk.inj hkey
  obtain ⟨queue, hqueue⟩ := href.exists_process hover h ho
  have hget : st.store.objects.get? o.id = some (o.kind, o.bytes) := by
    obtain ⟨x, hx⟩ := Option.isSome_iff_exists.mp hhas
    rw [h.get?_of_start hx, ← pullSource_of_get? hx, href.source o ho]
  unfold Furrow.reuseOne
  rw [NamedStore.readBytes_of_get? hget]
  dsimp only
  rw [hqueue]
  exact ⟨_, rfl⟩

/-- An object that the store lacks can be fetched. -/
theorem PullInv.exists_fetchOne (href : PullInv codec remote store ref os₀ again₀)
    (hover : Tour.Done ref.queue) (h : PullInv codec remote store st os again) {id : ObjectId}
    {kind : ObjectKind} (hknown : ∃ b, st.queue.get? id = some (kind, b))
    (hhas : store.objects.get? id = none) :
    ∃ st', Furrow.fetchOne codec remote st id kind = .ok st' := by
  obtain ⟨o, ho, hkey⟩ := href.mem_reference hover h (x := (id, kind)) hknown
  obtain ⟨rfl, rfl⟩ := Prod.mk.inj hkey
  obtain ⟨queue, hqueue⟩ := href.exists_process hover h ho
  obtain ⟨hname, hlen⟩ := ref.store.named o.id o.kind o.bytes (href.get?_of_mem ho)
  have hsource := href.source o ho
  unfold pullSource at hsource
  rw [hhas, Option.none_or] at hsource
  obtain ⟨⟨kind, bytes, encrypted⟩, hobject, heq⟩ := Option.map_eq_some_iff.mp hsource
  obtain ⟨rfl, rfl⟩ := Prod.mk.inj heq
  have hput : st.store.putBytes o.kind o.bytes = .ok (objectId hash o.kind o.bytes,
      ⟨st.store.objects.put (objectId hash o.kind o.bytes) o.kind o.bytes,
        st.store.named_put hlen⟩) := dif_pos hlen
  unfold Furrow.fetchOne
  simp only [hobject, hput, hname, hqueue, ne_eq, not_true_eq_false, if_false]
  exact ⟨_, rfl⟩

/-- Objects that the store lacks can be fetched. -/
theorem PullInv.exists_fetchAll (href : PullInv codec remote store ref os₀ again₀)
    (hover : Tour.Done ref.queue) (h : PullInv codec remote store st os again)
    (hknown : ∀ i ∈ items, ∃ b, st.queue.get? i.1 = some (i.2, b))
    (hmissing : ∀ i ∈ items, store.objects.get? i.1 = none) :
    ∃ st', Furrow.fetchAll codec remote st items = .ok st' := by
  induction items generalizing st os again with
  | nil => exact ⟨st, rfl⟩
  | cons i rest ih =>
    have hknown₁ := hknown i List.mem_cons_self
    have hmissing₁ := hmissing i List.mem_cons_self
    obtain ⟨mid, hone⟩ := href.exists_fetchOne hover h hknown₁ hmissing₁
    obtain ⟨os₁, again₁, hadv⟩ := h.fetchOne hknown₁ hmissing₁ hone
    obtain ⟨last, hlast⟩ := ih hadv.inv
      (fun i hi => h.known_mono hadv.inv hadv.subset (hknown i (List.mem_cons_of_mem _ hi)))
      (fun i hi => hmissing i (List.mem_cons_of_mem _ hi))
    refine ⟨last, ?_⟩
    rw [Furrow.fetchAll, hone]
    exact hlast

/-- Objects that are known and different are reused, as far as the store has them. -/
theorem PullInv.exists_reuseAll (href : PullInv codec remote store ref os₀ again₀)
    (hover : Tour.Done ref.queue) (h : PullInv codec remote store st os again)
    (hpending : ∀ i ∈ items, st.queue.get? i.1 = some (i.2, false)) (hnodup : items.Nodup) :
    ∃ p, Furrow.reuseAll codec st items = .ok p := by
  induction items generalizing st os again with
  | nil => exact ⟨(st, []), rfl⟩
  | cons i rest ih =>
    obtain ⟨id, kind⟩ := i
    obtain ⟨hi, hrest⟩ := List.nodup_cons.mp hnodup
    have hpending₁ := hpending (id, kind) List.mem_cons_self
    rw [Furrow.reuseAll]
    split_ifs with hhere
    · have hhas : (store.objects.get? id).isSome := by
        rwa [h.stored, if_neg (h.not_mem_of_pending hpending₁)] at hhere
      obtain ⟨mid, hone⟩ := href.exists_reuseOne hover h ⟨false, hpending₁⟩ hhas
      obtain ⟨os₁, again₁, hadv⟩ := h.reuseOne ⟨false, hpending₁⟩ hhas hone
      have hpending' : ∀ j ∈ rest, mid.queue.get? j.1 = some (j.2, false) := by
        intro j hj
        have hold := hpending j (List.mem_cons_of_mem _ hj)
        obtain ⟨b, hb⟩ := h.known_mono hadv.inv hadv.subset ⟨false, hold⟩
        cases b with
        | false => exact hb
        | true =>
          rcases (hadv.keys j).mp ((hadv.inv.visited_iff j).mp hb) with hkey | hnew
          · exact absurd hkey (h.key_not_mem_of_pending hold)
          · exact absurd (List.mem_singleton.mp hnew ▸ hj) hi
      obtain ⟨p, hp⟩ := ih hadv.inv hpending' hrest
      refine ⟨p, ?_⟩
      rw [hone]
      exact hp
    · obtain ⟨p, hp⟩ := ih h (fun j hj => hpending j (List.mem_cons_of_mem _ hj)) hrest
      rw [hp]
      exact ⟨_, rfl⟩

/-- A batch of pending objects can be fetched. -/
theorem PullInv.exists_fetchBatch (href : PullInv codec remote store ref os₀ again₀)
    (hover : Tour.Done ref.queue) (h : PullInv codec remote store st os again)
    (hpending : ∀ i ∈ items, st.queue.get? i.1 = some (i.2, false)) (hnodup : items.Nodup) :
    ∃ st', Furrow.fetchBatch codec remote st items = .ok st' := by
  obtain ⟨⟨mid, missing⟩, hreuse⟩ := href.exists_reuseAll hover h hpending hnodup
  have hknown : ∀ i ∈ items, ∃ b, st.queue.get? i.1 = some (i.2, b) :=
    fun i hi => ⟨false, hpending i hi⟩
  obtain ⟨present, os₁, again₁, hadv, hperm, hmissing⟩ := h.reuseAll hknown
    (fun i hi hid => absurd hid (h.not_mem_of_pending (hpending i hi))) hreuse
  obtain ⟨last, hlast⟩ := href.exists_fetchAll hover hadv.inv
    (fun i hi => h.known_mono hadv.inv hadv.subset
      (hknown i (hperm.mem_iff.mpr (List.mem_append_right _ hi)))) hmissing
  refine ⟨last, ?_⟩
  unfold Furrow.fetchBatch
  rw [hreuse]
  exact hlast

/-- **Batches come to an end**: each has an object that was not processed. -/
theorem PullInv.exists_drainKinds (href : PullInv codec remote store ref os₀ again₀)
    (hover : Tour.Done ref.queue) (h : PullInv codec remote store st os again) {fuel : ℕ}
    (hfuel : os₀.length < fuel + os.length) (kinds : List ObjectKind) :
    ∃ st', Furrow.drainKinds codec remote kinds fuel st = .ok st' := by
  have hle := (List.subperm_of_subset h.nodup_objects (h.subset_of_done href hover)).length_le
  induction fuel generalizing st os again with
  | zero => omega
  | succ fuel ih =>
    rw [Furrow.drainKinds]
    cases hbatch : nextBatch st.queue kinds with
    | nil => exact ⟨st, rfl⟩
    | cons item rest =>
      dsimp only
      rw [← hbatch]
      have hpending : ∀ i ∈ nextBatch st.queue kinds, st.queue.get? i.1 = some (i.2, false) :=
        fun i hi => (nextBatch_pending hi).1
      have hnodup := nodup_nextBatch st.queue kinds
      obtain ⟨mid, hone⟩ := href.exists_fetchBatch hover h hpending hnodup
      obtain ⟨os₁, again₁, hadv⟩ := h.fetchBatch hpending hone
      have hagain := (hadv.length_eq_iff h fun i hi =>
        h.key_not_mem_of_pending (hpending i hi)).2.mpr hnodup
      have hlength := hadv.length
      rw [hbatch, List.length_cons] at hlength
      have hle₁ := (List.subperm_of_subset hadv.inv.nodup_objects
        (hadv.inv.subset_of_done href hover)).length_le
      obtain ⟨last, hlast⟩ := ih hadv.inv (by omega) hle₁
      refine ⟨last, ?_⟩
      rw [hone]
      exact hlast

/-- The last check looks at the store only, and changes nothing. -/
theorem verifyPull_eq_ok_iff {last : PullState hash} :
    verifyPull codec remote st = .ok last ↔ st = last ∧ ∃ visited bytes snapshot,
      forEachReachable codec st.store remote.snapshot = .ok visited ∧
      st.store.readBytes remote.snapshot .Snapshot = .ok bytes ∧
      codec.snapshot bytes = some snapshot ∧ snapshot.rootTree = remote.root := by
  unfold verifyPull
  cases forEachReachable codec st.store remote.snapshot with
  | error e => simp
  | ok visited =>
    dsimp only
    cases st.store.readBytes remote.snapshot .Snapshot with
    | error e => simp
    | ok bytes =>
      dsimp only
      cases hsnapshot : codec.snapshot bytes with
      | none => simp [hsnapshot]
      | some snapshot =>
        dsimp only
        split_ifs with hroot
        · simp [hsnapshot, hroot]
        · simp [hsnapshot, hroot]

/-- A plain pull processes nothing twice. -/
theorem PullInv.of_pullOn {fuel : ℕ} (h : pullOn codec remote fuel store = .ok st) :
    ∃ os, PullInv codec remote store st os [] ∧ Tour.Done st.queue := by
  unfold pullOn at h
  cases hdrain : Furrow.drainKinds codec remote allKinds fuel (PullState.start remote store) with
  | error e =>
    rw [hdrain] at h
    exact absurd h (by simp [bind, Except.bind])
  | ok mid =>
    rw [hdrain] at h
    obtain ⟨rfl, -⟩ := verifyPull_eq_ok_iff.mp h
    obtain ⟨os', again', hinv, hlength, -, -, hdone⟩ :=
      (PullInv.start codec remote store).drainKinds hdrain
    obtain rfl := List.length_eq_zero_iff.mp hlength
    exact ⟨os', hinv, done_of_nextBatch hdone⟩

/-- **The plain pull completes** wherever another way to pull does. -/
theorem PullInv.exists_pullOn (href : PullInv codec remote store ref os₀ again₀)
    (hover : Tour.Done ref.queue) (hverify : verifyPull codec remote ref = .ok ref) :
    ∃ fuel st, pullOn codec remote fuel store = .ok st := by
  have hstart := PullInv.start codec remote store
  obtain ⟨mid, hdrain⟩ := href.exists_drainKinds hover hstart
    (Nat.lt_succ_self os₀.length) allKinds
  obtain ⟨os', again', hinv, -, -, -, hdone⟩ := hstart.drainKinds hdrain
  have hstore := hinv.store_eq_of_done href (done_of_nextBatch hdone) hover
  refine ⟨os₀.length + 1, mid, ?_⟩
  unfold pullOn
  rw [hdrain]
  refine verifyPull_eq_ok_iff.mpr ⟨rfl, ?_⟩
  rw [hstore]
  exact (verifyPull_eq_ok_iff.mp hverify).2

end Reference

end

end Furrow
