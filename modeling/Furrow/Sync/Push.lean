import Furrow.Exchange.Import

set_option relaxedAutoImplicit false
set_option autoImplicit false

/-!
# Pushing to a remote

The push of `sync.rs` over the transports of `remote.rs` and `s3_remote.rs`.  A machine takes the
writer lock, or notes the entity tag of the head; it checks the head, publishes its lease, uploads
the objects of its snapshot that the remote lacks, and writes the head last.  Any number of
machines do so, one remote operation at a time, and each may fail after any of them.

## Main definitions

* `Furrow.Stream` — the traversal of a snapshot and the batches it uploads.
* `Furrow.Push`, `Furrow.SyncState` — a push under way, and the remote with all pushes.
* `Furrow.PushAct`, `Furrow.SyncState.step` — one remote operation of one machine.
* `Furrow.HeadComplete`, `Furrow.Replaces` — what a published head promises.

## Main results

* `Furrow.SyncInv.step` — every step keeps the invariant.
* `Furrow.published_head_safe` — in every run the head is complete, and it is replaced only by a
  push that expects it.

## Implementation notes

The head and the lease are kept as the values that are encrypted into them.  Every write of the
head has an entity tag of its own, since it is encrypted with a fresh nonce.
`Furrow.Batches.pushObjects` is the same push without interruption, with what the code counts, and
`Furrow.Lockstep.pushObjects_run` relates the two.
-/

namespace Furrow

/-- How the machines that share a remote name and encrypt objects. -/
structure RemoteCrypto where
  remoteId : ObjectId → ObjectId
  encryptObject : ObjectId → ObjectKind → Bytes → Bytes

/-- How writers exclude each other: with a lock, or with conditional puts of the head. -/
inductive Transport
  | locked
  | s3
deriving DecidableEq

/-- A published head. -/
structure RemoteHead where
  version : ℕ
  snapshot : ObjectId
  root : ObjectId
  baseRoot : Option ObjectId
  publisher : ℕ
deriving DecidableEq

/-- What a push is asked to do. -/
structure PushJob where
  store : RawStore
  snapshot : ObjectId
  expectedRemoteRoot : Option ObjectId
  takeover : Bool

/-- An object on its way. -/
structure PushItem where
  id : ObjectId
  kind : ObjectKind
  bytes : Bytes

/-! ## The traversal -/

/-- The objects met so far: their kinds, and whether they were visited. -/
abbrev PushMarks := OrdMap ObjectId (ObjectKind × Bool)

/-- Mark an object to be visited; its kind must be the one it was met with before. -/
def markObject (marks : PushMarks) (e : ObjectId × ObjectKind) : Option PushMarks :=
  match marks.get? e.1 with
  | none => some (marks.insert e.1 (e.2, false))
  | some (kind, _) => if kind = e.2 then some marks else none

/-- The first object that was not visited. -/
def nextMark (marks : PushMarks) : Option (ObjectId × ObjectKind) :=
  (marks.toList.find? fun p => !p.2.2).map fun p => (p.1, p.2.1)

/-- A traversal under way: the marks, the batch that is being filled, the batches to flush, what
is left to ask of the batch that is being flushed, what is left to upload of it, and the object
that is being visited. -/
structure Stream where
  marks : PushMarks
  pending : List PushItem
  flushes : List (List PushItem)
  asking : List PushItem
  uploads : List PushItem
  current : Option PushItem

/-- The number of objects in a batch. -/
def haveBatch : ℕ := 1024

/-- The number of bytes in a batch. -/
def haveBatchBytes : ℕ := 16777216

/-- The bytes of a batch. -/
def batchBytes (items : List PushItem) : ℕ := (items.map fun x => x.bytes.length).sum

namespace Stream

/-- The objects that are on their way. -/
def waiting (s : Stream) : List PushItem :=
  s.pending ++ s.flushes.flatten ++ s.asking ++ s.uploads

/-- No batch is being flushed. -/
def quiet (s : Stream) : Bool := s.flushes.isEmpty && s.asking.isEmpty && s.uploads.isEmpty

/-- All that is left is to write the head. -/
def finished (s : Stream) : Bool :=
  s.quiet && s.pending.isEmpty && s.current.isNone && (nextMark s.marks).isNone

/-- Put a visited object into a batch.  A large one goes alone, after what came before it. -/
def put (s : Stream) (x : PushItem) : Stream :=
  if haveBatchBytes ≤ x.bytes.length then
    { s with pending := [], flushes := s.flushes ++ [s.pending, [x]], current := some x }
  else if s.pending.length = haveBatch ∨ haveBatchBytes < batchBytes s.pending + x.bytes.length then
    { s with pending := [x], flushes := s.flushes ++ [s.pending], current := some x }
  else { s with pending := s.pending ++ [x], current := some x }

end Stream

/-! ## The machines -/

/-- Where a push is. -/
inductive Phase
  | begun
  | leased (expires : ℕ)
  | looked (expires : ℕ) (root : ObjectId) (found : Bool)
  | checked (expires : ℕ) (root : ObjectId) (base : Option ObjectId)
  | streaming (root : ObjectId) (base : Option ObjectId) (stream : Stream)

/-- A push under way, with the entity tag that the head had when it began. -/
structure Push where
  job : PushJob
  etag : Option ℕ
  phase : Phase

/-- The remote, and the pushes of all machines.  Entity tags are handed out in order. -/
structure SyncState where
  objects : OrdMap ObjectId Bytes
  head : Option (ℕ × RemoteHead)
  lease : Option (ℕ × ℕ)
  lock : Option ℕ
  etags : ℕ
  pushes : ℕ → Option Push

/-- The remote before anything is published. -/
def SyncState.start : SyncState := ⟨OrdMap.empty, none, none, none, 0, fun _ => none⟩

/-- One remote operation of a push, or a local step between two of them. -/
inductive PushAct
  | begin (job : PushJob)
  | prepareLease (now : ℕ)
  | lookHead
  | checkHead
  | writeLease
  | visit
  | expand
  | flushLast
  | nextBatch
  | ask
  | upload
  | writeHead
  | fail

/-- How long a lease lasts. -/
def leaseSeconds : ℕ := 3600

/-- The head may be replaced by a push. -/
def PushJob.Allows (job : PushJob) (head : RemoteHead) : Prop :=
  head.snapshot = job.snapshot ∨ some head.root = job.expectedRemoteRoot

instance (job : PushJob) (head : RemoteHead) : Decidable (job.Allows head) :=
  inferInstanceAs (Decidable (_ ∨ _))

namespace SyncState

/-- Change the push of a machine. -/
def setPush (st : SyncState) (m : ℕ) (p : Push) : SyncState :=
  { st with pushes := fun n => if n = m then some p else st.pushes n }

/-- A push ends: its session is dropped, and with it the lock. -/
def release (st : SyncState) (m : ℕ) : SyncState :=
  { st with
    lock := if st.lock = some m then none else st.lock
    pushes := fun n => if n = m then none else st.pushes n }

variable (codec : ObjectCodec) (crypto : RemoteCrypto) (transport : Transport)

/-- Begin to write: take the lock, or note the entity tag of the head. -/
def beginWriter (st : SyncState) (m : ℕ) (job : PushJob) : SyncState :=
  match transport with
  | .locked =>
    if st.lock = none then { st with lock := some m }.setPush m ⟨job, none, .begun⟩ else st
  | .s3 => st.setPush m ⟨job, st.head.map Prod.fst, .begun⟩

/-- No other machine holds the lease, or it has run out, or is taken over. -/
def leaseFree (st : SyncState) (m now : ℕ) (takeover : Bool) : Bool :=
  match st.lease with
  | none => true
  | some (owner, expires) => owner = m || expires ≤ now || takeover

/-- The root of the snapshot of a push. -/
def snapshotRoot (job : PushJob) : Option ObjectId :=
  match job.store.readBytes job.snapshot .Snapshot with
  | .error _ => none
  | .ok bytes => (codec.snapshot bytes).map Snapshot.rootTree

/-- Store an object.  A conditional put leaves an object that is there alone. -/
def writeObject (st : SyncState) (x : PushItem) : SyncState :=
  match transport with
  | .locked =>
    { st with
      objects :=
        st.objects.insert (crypto.remoteId x.id) (crypto.encryptObject x.id x.kind x.bytes) }
  | .s3 =>
    if (st.objects.get? (crypto.remoteId x.id)).isSome then st
    else
      { st with
        objects :=
          st.objects.insert (crypto.remoteId x.id) (crypto.encryptObject x.id x.kind x.bytes) }

/-- The condition of the put of the head. -/
def mayPut (st : SyncState) (etag : Option ℕ) : Bool :=
  match transport with
  | .locked => true
  | .s3 => decide (st.head.map Prod.fst = etag)

/-- Write the head. -/
def putHead (st : SyncState) (head : RemoteHead) : SyncState :=
  { st with head := some (st.etags, head), etags := st.etags + 1 }

/-- One step of a traversal. -/
def streamStep (st : SyncState) (m : ℕ) (p : Push) (root : ObjectId) (base : Option ObjectId)
    (s : Stream) (act : PushAct) : SyncState :=
  match act with
  | .visit =>
    if s.quiet && s.current.isNone then
      match nextMark s.marks with
      | none => st
      | some (id, kind) =>
        match p.job.store.readBytes id kind with
        | .error _ => st.release m
        | .ok bytes =>
          st.setPush m { p with phase := .streaming root base (s.put ⟨id, kind, bytes⟩) }
    else st
  | .expand =>
    if s.quiet then
      match s.current with
      | none => st
      | some x =>
        match codec.objectEdges x.kind x.bytes with
        | .error _ => st.release m
        | .ok es =>
          match es.foldlM markObject s.marks with
          | none => st.release m
          | some marks =>
            st.setPush m { p with
              phase := .streaming root base
                { s with marks := marks.insert x.id (x.kind, true), current := none } }
    else st
  | .flushLast =>
    if s.quiet && s.current.isNone && (nextMark s.marks).isNone then
      st.setPush m { p with
        phase := .streaming root base { s with pending := [], flushes := [s.pending] } }
    else st
  | .nextBatch =>
    match s.asking, s.uploads, s.flushes with
    | [], [], batch :: flushes =>
      st.setPush m { p with
        phase := .streaming root base { s with flushes := flushes, asking := batch } }
    | _, _, _ => st
  | .ask =>
    match s.asking with
    | [] => st
    | x :: asking =>
      if (st.objects.get? (crypto.remoteId x.id)).isSome then
        st.setPush m { p with phase := .streaming root base { s with asking := asking } }
      else
        st.setPush m { p with
          phase := .streaming root base { s with asking := asking, uploads := s.uploads ++ [x] } }
  | .upload =>
    match s.asking, s.uploads with
    | [], x :: uploads =>
      (writeObject crypto transport st x).setPush m { p with
        phase := .streaming root base { s with uploads := uploads } }
    | _, _ => st
  | .writeHead =>
    if s.finished then
      if mayPut transport st p.etag then
        (st.putHead ⟨1, p.job.snapshot, root, base, m⟩).release m
      else st.release m
    else st
  | _ => st

/-- **One step of one machine.** -/
def step (st : SyncState) (a : ℕ × PushAct) : SyncState :=
  match st.pushes a.1 with
  | none =>
    match a.2 with
    | .begin job => beginWriter transport st a.1 job
    | _ => st
  | some p =>
    match a.2, p.phase with
    | .fail, _ => st.release a.1
    | .prepareLease now, .begun =>
      if st.leaseFree a.1 now p.job.takeover then
        st.setPush a.1 { p with phase := .leased (now + leaseSeconds) }
      else st.release a.1
    | .lookHead, .leased expires =>
      match snapshotRoot codec p.job with
      | none => st.release a.1
      | some root => st.setPush a.1 { p with phase := .looked expires root st.head.isSome }
    | .checkHead, .looked expires root true =>
      match st.head with
      | none => st.release a.1
      | some (_, head) =>
        if p.job.Allows head then
          st.setPush a.1 { p with phase := .checked expires root (some head.root) }
        else st.release a.1
    | .checkHead, .looked expires root false =>
      if p.job.expectedRemoteRoot = none then
        st.setPush a.1 { p with phase := .checked expires root none }
      else st.release a.1
    | .writeLease, .checked expires root base =>
      { st with lease := some (a.1, expires) }.setPush a.1 { p with
        phase := .streaming root base
          ⟨OrdMap.empty.insert p.job.snapshot (.Snapshot, false), [], [], [], [], none⟩ }
    | act, .streaming root base s => streamStep codec crypto transport st a.1 p root base s act
    | _, _ => st

end SyncState

/-! ## What holds throughout -/

section Inv

variable {codec : ObjectCodec} {crypto : RemoteCrypto} {transport : Transport} {U : RawStore}

variable (crypto U) in
/-- An object is at the remote. -/
def StoredAt (st : SyncState) (id : ObjectId) : Prop :=
  ∃ kind bytes, U.get? id = some (kind, bytes) ∧
    st.objects.get? (crypto.remoteId id) = some (crypto.encryptObject id kind bytes)

variable (codec crypto U) in
/-- **The published head is complete**: all that its snapshot refers to is at the remote. -/
def HeadComplete (st : SyncState) : Prop :=
  ∀ e head, st.head = some (e, head) → ∀ id, Closure codec U head.snapshot id →
    StoredAt crypto U st id

variable (codec crypto U) in
/-- What is known of a traversal: an object that was visited is at the remote or on its way, and
what it refers to was met. -/
structure StreamInv (st : SyncState) (job : PushJob) (s : Stream) : Prop where
  items : ∀ x ∈ s.waiting ++ s.current.toList, U.get? x.id = some (x.kind, x.bytes)
  root : (s.marks.get? job.snapshot).isSome
  visited : ∀ id kind, s.marks.get? id = some (kind, true) →
    (StoredAt crypto U st id ∨ id ∈ s.waiting.map PushItem.id) ∧
      ∀ y, Refers codec U id y → (s.marks.get? y).isSome
  current : ∀ x, s.current = some x →
    StoredAt crypto U st x.id ∨ x.id ∈ s.waiting.map PushItem.id

variable (transport) in
/-- What is known of the head that a push would replace. -/
def Guarded (st : SyncState) (p : Push) (Q : RemoteHead → Prop) : Prop :=
  ∀ e head, st.head = some (e, head) → (transport = .s3 → p.etag = some e) → Q head

variable (codec crypto transport U) in
/-- What is known of a push in its phase. -/
def PhaseInv (st : SyncState) (p : Push) : Phase → Prop
  | .begun => True
  | .leased _ => True
  | .looked _ _ true => True
  | .looked _ _ false => Guarded transport st p fun _ => False
  | .checked _ _ _ => Guarded transport st p p.job.Allows
  | .streaming _ _ s => Guarded transport st p p.job.Allows ∧ StreamInv codec crypto U st p.job s

variable (codec crypto transport U) in
/-- **What is known of a push.** -/
structure PushInv (st : SyncState) (m : ℕ) (p : Push) : Prop where
  store : ∀ id o, p.job.store.get? id = some o → U.get? id = some o
  lock : transport = .locked → st.lock = some m
  etag : ∀ e, p.etag = some e → e < st.etags
  phase : PhaseInv codec crypto transport U st p p.phase

variable (codec crypto transport U) in
/-- **The invariant of the remote and all pushes.** -/
structure SyncInv (st : SyncState) : Prop where
  objects : ∀ rid enc, st.objects.get? rid = some enc → ∃ id kind bytes,
    U.get? id = some (kind, bytes) ∧ rid = crypto.remoteId id ∧
      enc = crypto.encryptObject id kind bytes
  complete : HeadComplete codec crypto U st
  etag : ∀ e head, st.head = some (e, head) → e < st.etags
  pushes : ∀ m p, st.pushes m = some p → PushInv codec crypto transport U st m p

variable {st st' : SyncState} {m : ℕ} {p : Push}

/-! ## Frames -/

/-- Objects that move towards the remote keep the invariant. -/
theorem StreamInv.move {job : PushJob} {s s' : Stream} (h : StreamInv codec crypto U st job s)
    (hmarks : s'.marks = s.marks) (hcurrent : s'.current = s.current)
    (hstored : ∀ id, StoredAt crypto U st id → StoredAt crypto U st' id)
    (hkept : ∀ x ∈ s.waiting, x ∈ s'.waiting ∨ StoredAt crypto U st' x.id)
    (hitems : ∀ x ∈ s'.waiting, x ∈ s.waiting) : StreamInv codec crypto U st' job s' := by
  have hcarry : ∀ id, StoredAt crypto U st id ∨ id ∈ s.waiting.map PushItem.id →
      StoredAt crypto U st' id ∨ id ∈ s'.waiting.map PushItem.id := by
    rintro id (hid | hid)
    · exact Or.inl (hstored id hid)
    · obtain ⟨x, hx, rfl⟩ := List.mem_map.mp hid
      rcases hkept x hx with hx | hx
      · exact Or.inr (List.mem_map_of_mem hx)
      · exact Or.inl hx
  refine ⟨?_, ?_, ?_, ?_⟩
  · intro x hx
    rcases List.mem_append.mp hx with hx | hx
    · exact h.items x (List.mem_append_left _ (hitems x hx))
    · rw [hcurrent] at hx
      exact h.items x (List.mem_append_right _ hx)
  · rw [hmarks]
    exact h.root
  · intro id kind hid
    rw [hmarks] at hid
    obtain ⟨hstate, hrefs⟩ := h.visited id kind hid
    refine ⟨hcarry id hstate, ?_⟩
    rw [hmarks]
    exact hrefs
  · intro x hx
    rw [hcurrent] at hx
    exact hcarry x.id (h.current x hx)

/-- A push is not disturbed by what others do: objects are added, and a head that is written has
a new entity tag. -/
theorem PushInv.frame (h : PushInv codec crypto transport U st m p)
    (hlock : transport = .locked → st'.lock = st.lock) (hetags : st.etags ≤ st'.etags)
    (hstored : ∀ id, StoredAt crypto U st id → StoredAt crypto U st' id)
    (hhead : ∀ e head, st'.head = some (e, head) →
      st.head = some (e, head) ∨ transport = .s3 ∧ st.etags ≤ e) :
    PushInv codec crypto transport U st' m p := by
  have hguard : ∀ Q, Guarded transport st p Q → Guarded transport st' p Q := by
    intro Q hQ e head hget hs3
    rcases hhead e head hget with hold | ⟨hs, hle⟩
    · exact hQ e head hold hs3
    · have hlt := h.etag e (hs3 hs)
      omega
  refine ⟨h.store, fun ht => (hlock ht).trans (h.lock ht),
    fun e he => lt_of_lt_of_le (h.etag e he) hetags, ?_⟩
  have hphase := h.phase
  cases hp : p.phase with
  | begun => trivial
  | leased expires => trivial
  | looked expires root found =>
    rw [hp] at hphase
    cases found with
    | true => trivial
    | false => exact hguard _ hphase
  | checked expires root base =>
    rw [hp] at hphase
    exact hguard _ hphase
  | streaming root base s =>
    rw [hp] at hphase
    exact ⟨hguard _ hphase.1,
      hphase.2.move rfl rfl hstored (fun x hx => Or.inl hx) fun x hx => hx⟩

/-- The push of one machine changes, and with it perhaps the lease. -/
theorem SyncInv.setPush (h : SyncInv codec crypto transport U st)
    (lease : Option (ℕ × ℕ)) (hp : PushInv codec crypto transport U st m p) :
    SyncInv codec crypto transport U ({ st with lease := lease }.setPush m p) where
  objects := h.objects
  complete := h.complete
  etag := h.etag
  pushes := by
    intro n q hq
    have hframe : ∀ k r, PushInv codec crypto transport U st k r →
        PushInv codec crypto transport U ({ st with lease := lease }.setPush m p) k r :=
      fun k r hr => hr.frame (fun _ => rfl) le_rfl (fun _ hid => hid) fun _ _ hget => Or.inl hget
    simp only [SyncState.setPush] at hq
    split_ifs at hq with hn
    · cases hq
      rw [hn]
      exact hframe m p hp
    · exact hframe n q (h.pushes n q hq)

/-- A push ends. -/
theorem SyncInv.release (h : SyncInv codec crypto transport U st) (m : ℕ) :
    SyncInv codec crypto transport U (st.release m) where
  objects := h.objects
  complete := h.complete
  etag := h.etag
  pushes := by
    intro n q hq
    simp only [SyncState.release] at hq
    split_ifs at hq with hn
    have hinv := h.pushes n q hq
    refine hinv.frame ?_ le_rfl (fun _ hid => hid) fun _ _ hget => Or.inl hget
    intro ht
    have hlock := hinv.lock ht
    simp only [SyncState.release, hlock, Option.some.injEq, hn, if_false]

/-- With a lock, a machine that pushes is alone. -/
theorem SyncInv.alone (h : SyncInv codec crypto transport U st) (ht : transport = .locked)
    {n : ℕ} {q : Push} (hp : st.pushes m = some p) (hq : st.pushes n = some q) : n = m := by
  have hm := (h.pushes m p hp).lock ht
  rw [(h.pushes n q hq).lock ht] at hm
  exact Option.some.inj hm

/-! ## The traversal -/

/-- An object that is there under the name of one that exists is that object. -/
theorem SyncInv.storedAt (h : SyncInv codec crypto transport U st)
    (hinj : ∀ a b, (U.get? a).isSome → (U.get? b).isSome →
      crypto.remoteId a = crypto.remoteId b → a = b)
    {id : ObjectId} (hid : (U.get? id).isSome)
    (hget : (st.objects.get? (crypto.remoteId id)).isSome) : StoredAt crypto U st id := by
  obtain ⟨enc, henc⟩ := Option.isSome_iff_exists.mp hget
  obtain ⟨id', kind, bytes, hU, hrid, rfl⟩ := h.objects _ enc henc
  obtain rfl : id = id' := hinj id id' hid (Option.isSome_iff_exists.mpr ⟨_, hU⟩) hrid
  exact ⟨kind, bytes, hU, henc⟩

/-- An object that is stored leaves the others. -/
theorem storedAt_insert
    (hinj : ∀ a b, (U.get? a).isSome → (U.get? b).isSome →
      crypto.remoteId a = crypto.remoteId b → a = b)
    {x : PushItem} (hx : U.get? x.id = some (x.kind, x.bytes)) {objects : OrdMap ObjectId Bytes}
    {id : ObjectId} {kind : ObjectKind} {bytes : Bytes} (hU : U.get? id = some (kind, bytes))
    (h :
      id = x.id ∨ objects.get? (crypto.remoteId id) = some (crypto.encryptObject id kind bytes)) :
    (objects.insert (crypto.remoteId x.id) (crypto.encryptObject x.id x.kind x.bytes)).get?
      (crypto.remoteId id) = some (crypto.encryptObject id kind bytes) := by
  rw [OrdMap.get?_insert]
  split_ifs with hrid
  · have heq : id = x.id := hinj id x.id (Option.isSome_iff_exists.mpr ⟨_, hU⟩)
      (Option.isSome_iff_exists.mpr ⟨_, hx⟩) hrid
    subst heq
    rw [hx] at hU
    cases hU
    rfl
  · rcases h with rfl | h
    · exact absurd rfl hrid
    · exact h

/-- **An upload** stores the object and disturbs nothing. -/
theorem SyncInv.writeObject (h : SyncInv codec crypto transport U st)
    (hinj : ∀ a b, (U.get? a).isSome → (U.get? b).isSome →
      crypto.remoteId a = crypto.remoteId b → a = b)
    {x : PushItem} (hx : U.get? x.id = some (x.kind, x.bytes)) :
    SyncInv codec crypto transport U (SyncState.writeObject crypto transport st x) ∧
      StoredAt crypto U (SyncState.writeObject crypto transport st x) x.id ∧
      ∀ id, StoredAt crypto U st id →
        StoredAt crypto U (SyncState.writeObject crypto transport st x) id := by
  by_cases hkeep : SyncState.writeObject crypto transport st x = st
  · rw [hkeep]
    refine ⟨h, ?_, fun _ hid => hid⟩
    unfold SyncState.writeObject at hkeep
    have hsome : (U.get? x.id).isSome := Option.isSome_iff_exists.mpr ⟨_, hx⟩
    cases transport with
    | locked =>
      refine h.storedAt hinj hsome ?_
      rw [← hkeep]
      simp only [OrdMap.get?_insert, if_true, Option.isSome_some]
    | s3 =>
      simp only at hkeep
      split_ifs at hkeep with hin
      · exact h.storedAt hinj hsome hin
      · refine h.storedAt hinj hsome ?_
        rw [← hkeep]
        simp only [OrdMap.get?_insert, if_true, Option.isSome_some]
  · have hnew : SyncState.writeObject crypto transport st x =
        { st with
          objects := st.objects.insert (crypto.remoteId x.id)
            (crypto.encryptObject x.id x.kind x.bytes) } := by
      unfold SyncState.writeObject at hkeep ⊢
      cases transport with
      | locked => rfl
      | s3 =>
        simp only at hkeep ⊢
        split_ifs at hkeep ⊢ with hin
        · exact absurd rfl hkeep
        · rfl
    rw [hnew]
    have hgrow : ∀ id, StoredAt crypto U st id → StoredAt crypto U { st with
        objects := st.objects.insert (crypto.remoteId x.id)
          (crypto.encryptObject x.id x.kind x.bytes) } id := by
      rintro id ⟨kind, bytes, hU, hget⟩
      exact ⟨kind, bytes, hU, storedAt_insert hinj hx hU (Or.inr hget)⟩
    refine ⟨⟨?_, ?_, h.etag, ?_⟩, ⟨x.kind, x.bytes, hx, storedAt_insert hinj hx hx (Or.inl rfl)⟩,
      hgrow⟩
    · intro rid enc hget
      simp only [OrdMap.get?_insert] at hget
      split_ifs at hget with hrid
      · cases hget
        exact ⟨x.id, x.kind, x.bytes, hx, hrid, rfl⟩
      · exact h.objects rid enc hget
    · exact fun e head hhead id hid => hgrow id (h.complete e head hhead id hid)
    · intro n q hq
      exact (h.pushes n q hq).frame (fun _ => rfl) le_rfl hgrow fun _ _ hget => Or.inl hget

/-- The traversal of a push goes on. -/
theorem PushInv.setStream (h : PushInv codec crypto transport U st m p) {root : ObjectId}
    {base : Option ObjectId} {s s' : Stream} (hp : p.phase = .streaming root base s)
    (hs : StreamInv codec crypto U st p.job s') :
    PushInv codec crypto transport U st m { p with phase := .streaming root base s' } := by
  refine ⟨h.store, h.lock, h.etag, ?_⟩
  have hphase := h.phase
  rw [hp] at hphase
  exact ⟨hphase.1, hs⟩

/-- What is known of a push that streams. -/
theorem PushInv.stream (h : PushInv codec crypto transport U st m p) {root : ObjectId}
    {base : Option ObjectId} {s : Stream} (hp : p.phase = .streaming root base s) :
    StreamInv codec crypto U st p.job s := by
  have hphase := h.phase
  rw [hp] at hphase
  exact hphase.2

/-- What is put is on its way. -/
theorem Stream.mem_waiting_put {s : Stream} {x y : PushItem} :
    y ∈ (s.put x).waiting ↔ y ∈ s.waiting ∨ y = x := by
  unfold Stream.put Stream.waiting
  split_ifs with hlarge hfull
  · simp only [List.flatten_append, List.flatten_cons, List.flatten_nil, List.nil_append,
      List.append_nil, List.mem_append, List.mem_singleton]
    tauto
  · simp only [List.flatten_append, List.flatten_cons, List.flatten_nil, List.append_nil,
      List.mem_append, List.mem_singleton]
    tauto
  · simp only [List.mem_append, List.mem_singleton]
    tauto

/-- Putting an object marks nothing. -/
theorem Stream.put_marks (s : Stream) (x : PushItem) : (s.put x).marks = s.marks := by
  unfold Stream.put
  split_ifs
  · rfl
  · rfl
  · rfl

/-- The object that is put is being visited. -/
theorem Stream.put_current (s : Stream) (x : PushItem) : (s.put x).current = some x := by
  unfold Stream.put
  split_ifs
  · rfl
  · rfl
  · rfl

/-- A visit puts the object into a batch. -/
theorem StreamInv.visit {job : PushJob} {s : Stream} (h : StreamInv codec crypto U st job s)
    {x : PushItem} (hx : U.get? x.id = some (x.kind, x.bytes)) :
    StreamInv codec crypto U st job (s.put x) where
  items := by
    intro y hy
    rw [Stream.put_current] at hy
    rcases List.mem_append.mp hy with hy | hy
    · rcases Stream.mem_waiting_put.mp hy with hy | rfl
      · exact h.items y (List.mem_append_left _ hy)
      · exact hx
    · rw [List.mem_singleton.mp hy]
      exact hx
  root := by
    rw [Stream.put_marks]
    exact h.root
  visited := by
    intro id kind hid
    rw [Stream.put_marks] at hid ⊢
    obtain ⟨hstate, hrefs⟩ := h.visited id kind hid
    refine ⟨hstate.imp_right ?_, hrefs⟩
    intro hmem
    obtain ⟨y, hy, rfl⟩ := List.mem_map.mp hmem
    exact List.mem_map_of_mem (Stream.mem_waiting_put.mpr (Or.inl hy))
  current := by
    intro y hy
    rw [Stream.put_current] at hy
    cases hy
    exact Or.inr (List.mem_map_of_mem (Stream.mem_waiting_put.mpr (Or.inr rfl)))

/-- An object that is marked is known, and nothing is forgotten. -/
theorem markObject_spec {marks marks' : PushMarks} {e : ObjectId × ObjectKind}
    (h : markObject marks e = some marks') :
    (∀ id v, marks.get? id = some v → marks'.get? id = some v) ∧ (marks'.get? e.1).isSome ∧
      ∀ id kind, marks'.get? id = some (kind, true) → marks.get? id = some (kind, true) := by
  unfold markObject at h
  cases hget : marks.get? e.1 with
  | none =>
    rw [hget] at h
    cases h
    refine ⟨?_, ?_, ?_⟩
    · intro id v hid
      rw [OrdMap.get?_insert, if_neg]
      · exact hid
      · rintro rfl
        rw [hget] at hid
        exact absurd hid (by simp)
    · rw [OrdMap.get?_insert, if_pos rfl]
      rfl
    · intro id kind hid
      rw [OrdMap.get?_insert] at hid
      split_ifs at hid with heq
      · exact absurd hid (by simp)
      · exact hid
  | some v =>
    rw [hget] at h
    simp only at h
    split_ifs at h with hkind
    cases h
    exact ⟨fun _ _ hid => hid, Option.isSome_iff_exists.mpr ⟨v, hget⟩, fun _ _ hid => hid⟩

/-- Objects that are marked are known, and nothing is forgotten. -/
theorem foldlM_markObject_spec {es : List (ObjectId × ObjectKind)} {marks marks' : PushMarks}
    (h : es.foldlM markObject marks = some marks') :
    (∀ id v, marks.get? id = some v → marks'.get? id = some v) ∧
      (∀ e ∈ es, (marks'.get? e.1).isSome) ∧
      ∀ id kind, marks'.get? id = some (kind, true) → marks.get? id = some (kind, true) := by
  induction es generalizing marks with
  | nil =>
    cases h
    exact ⟨fun _ _ hid => hid, fun e he => absurd he List.not_mem_nil, fun _ _ hid => hid⟩
  | cons e es ih =>
    rw [List.foldlM_cons] at h
    obtain ⟨next, hnext, h⟩ := Option.bind_eq_some_iff.mp h
    obtain ⟨hkeep, hin, hold⟩ := markObject_spec hnext
    obtain ⟨hkeep', hin', hold'⟩ := ih h
    refine ⟨fun id v hid => hkeep' id v (hkeep id v hid), ?_,
      fun id kind hid => hold id kind (hold' id kind hid)⟩
    intro d hd
    rcases List.mem_cons.mp hd with rfl | hd
    · obtain ⟨v, hv⟩ := Option.isSome_iff_exists.mp hin
      exact Option.isSome_iff_exists.mpr ⟨v, hkeep' _ v hv⟩
    · exact hin' d hd

/-- What a visited object refers to is marked. -/
theorem StreamInv.expand {job : PushJob} {s : Stream} (h : StreamInv codec crypto U st job s)
    {x : PushItem} (hx : s.current = some x) {es : List (ObjectId × ObjectKind)}
    (hes : codec.objectEdges x.kind x.bytes = .ok es) {marks : PushMarks}
    (hmarks : es.foldlM markObject s.marks = some marks) :
    StreamInv codec crypto U st job
      { s with marks := marks.insert x.id (x.kind, true), current := none } := by
  obtain ⟨hkeep, hin, hold⟩ := foldlM_markObject_spec hmarks
  have hgrow : ∀ id, (s.marks.get? id).isSome →
      ((marks.insert x.id (x.kind, true)).get? id).isSome := by
    intro id hid
    obtain ⟨v, hv⟩ := Option.isSome_iff_exists.mp hid
    rw [OrdMap.get?_insert]
    split_ifs
    · rfl
    · exact Option.isSome_iff_exists.mpr ⟨v, hkeep id v hv⟩
  have hitem : U.get? x.id = some (x.kind, x.bytes) := by
    refine h.items x (List.mem_append_right _ ?_)
    rw [hx]
    exact List.mem_singleton_self x
  refine ⟨?_, hgrow _ h.root, ?_, ?_⟩
  · intro y hy
    have hwait : ({ s with marks := marks.insert x.id (x.kind, true), current := none } :
        Stream).waiting = s.waiting := rfl
    rw [hwait] at hy
    rcases List.mem_append.mp hy with hy | hy
    · exact h.items y (List.mem_append_left _ hy)
    · exact absurd hy List.not_mem_nil
  · intro id kind hid
    simp only [OrdMap.get?_insert] at hid
    split_ifs at hid with heq
    · rw [heq]
      refine ⟨h.current x hx, ?_⟩
      rintro y ⟨k, b, es', hU, hes', hy⟩
      rw [hitem] at hU
      cases hU
      rw [hes] at hes'
      cases hes'
      obtain ⟨e, he, rfl⟩ := List.mem_map.mp hy
      simp only [OrdMap.get?_insert]
      split_ifs
      · rfl
      · exact hin e he
    · obtain ⟨hstate, hrefs⟩ := h.visited id kind (hold id kind hid)
      exact ⟨hstate, fun y hy => hgrow y (hrefs y hy)⟩
  · intro y hy
    exact absurd hy (by simp)

/-- **A finished traversal has stored the whole snapshot.** -/
theorem StreamInv.finished {job : PushJob} {s : Stream} (h : StreamInv codec crypto U st job s)
    (hdone : s.finished = true) {id : ObjectId} (hid : Closure codec U job.snapshot id) :
    StoredAt crypto U st id := by
  unfold Stream.finished Stream.quiet at hdone
  simp only [Bool.and_eq_true, List.isEmpty_iff, Option.isNone_iff_eq_none] at hdone
  obtain ⟨⟨⟨⟨⟨hflushes, hasking⟩, huploads⟩, hpending⟩, -⟩, hnext⟩ := hdone
  have hwaiting : s.waiting = [] := by
    simp [Stream.waiting, hflushes, hasking, huploads, hpending]
  have hall : ∀ x, (s.marks.get? x).isSome → ∃ kind, s.marks.get? x = some (kind, true) := by
    intro x hx
    obtain ⟨v, hv⟩ := Option.isSome_iff_exists.mp hx
    unfold nextMark at hnext
    rw [Option.map_eq_none_iff, List.find?_eq_none] at hnext
    have hvisited := hnext (x, v) ((OrdMap.mem_toList_iff _).mpr hv)
    simp only [Bool.not_eq_true, Bool.not_eq_false'] at hvisited
    exact ⟨v.1, by rw [hv, ← hvisited]⟩
  have hmarked : id ∈ {x | (s.marks.get? x).isSome = true} := by
    refine Arrival.Reach.subset ?_ ?_ hid
    · exact h.root
    · intro x hx _ y hy
      obtain ⟨kind, hx⟩ := hall x hx
      exact (h.visited x kind hx).2 y hy
  obtain ⟨kind, hmark⟩ := hall id hmarked
  refine (h.visited id kind hmark).1.resolve_right ?_
  rw [hwaiting]
  exact List.not_mem_nil

/-! ## Steps -/

/-- A push publishes its head, whose snapshot is at the remote. -/
theorem SyncInv.publish (h : SyncInv codec crypto transport U st) (hp : st.pushes m = some p)
    {head : RemoteHead} (hcomplete : ∀ id, Closure codec U head.snapshot id →
      StoredAt crypto U st id) :
    SyncInv codec crypto transport U ((st.putHead head).release m) where
  objects := h.objects
  complete := by
    intro e head' hget id hid
    cases hget
    exact hcomplete id hid
  etag := by
    intro e head' hget
    cases hget
    exact Nat.lt_succ_self _
  pushes := by
    intro n q hq
    simp only [SyncState.release, SyncState.putHead] at hq
    split_ifs at hq with hn
    refine (h.pushes n q hq).frame ?_ (Nat.le_succ _) (fun _ hid => hid) ?_
    · intro ht
      exact absurd (h.alone ht hp hq) hn
    · intro e head' hget
      cases hget
      refine Or.inr ⟨?_, le_rfl⟩
      cases transport with
      | locked => exact absurd (h.alone rfl hp hq) hn
      | s3 => rfl

section Steps

attribute [local simp] SyncState.streamStep

variable {root : ObjectId} {base : Option ObjectId} {s : Stream}

/-- The traversal of a push that streams moves on. -/
theorem SyncInv.setStream (h : SyncInv codec crypto transport U st)
    (hp : st.pushes m = some p) (hphase : p.phase = .streaming root base s) {s' : Stream}
    (hs' : StreamInv codec crypto U st p.job s') :
    SyncInv codec crypto transport U
      (st.setPush m { p with phase := .streaming root base s' }) :=
  h.setPush st.lease ((h.pushes m p hp).setStream hphase hs')

/-- A visit keeps the invariant. -/
theorem SyncInv.visit (h : SyncInv codec crypto transport U st)
    (hp : st.pushes m = some p) (hphase : p.phase = .streaming root base s) :
    SyncInv codec crypto transport U
      (SyncState.streamStep codec crypto transport st m p root base s .visit) := by
  have hstream := (h.pushes m p hp).stream hphase
  simp only [SyncState.streamStep]
  split_ifs with hquiet
  · cases hnext : nextMark s.marks with
    | none => exact h
    | some e =>
      obtain ⟨id, kind⟩ := e
      simp only
      cases hread : p.job.store.readBytes id kind with
      | error e => exact h.release m
      | ok bytes =>
        refine h.setStream hp hphase (hstream.visit ?_)
        apply (h.pushes m p hp).store
        unfold RawStore.readBytes at hread
        cases hget : p.job.store.get? id with
        | none =>
          rw [hget] at hread
          cases hread
        | some o =>
          rw [hget] at hread
          simp only at hread
          split_ifs at hread with hkind
          cases hread
          rw [← hkind]
  · exact h

/-- The marking of what a visited object refers to keeps the invariant. -/
theorem SyncInv.expand (h : SyncInv codec crypto transport U st)
    (hp : st.pushes m = some p) (hphase : p.phase = .streaming root base s) :
    SyncInv codec crypto transport U
      (SyncState.streamStep codec crypto transport st m p root base s .expand) := by
  have hstream := (h.pushes m p hp).stream hphase
  simp only [SyncState.streamStep]
  split_ifs with hquiet
  · cases hcurrent : s.current with
    | none => exact h
    | some x =>
      simp only
      cases hes : codec.objectEdges x.kind x.bytes with
      | error e => exact h.release m
      | ok es =>
        simp only
        cases hmarks : es.foldlM markObject s.marks with
        | none => exact h.release m
        | some marks => exact h.setStream hp hphase (hstream.expand hcurrent hes hmarks)
  · exact h

/-- The last flush keeps the invariant. -/
theorem SyncInv.flushLast (h : SyncInv codec crypto transport U st)
    (hp : st.pushes m = some p) (hphase : p.phase = .streaming root base s) :
    SyncInv codec crypto transport U
      (SyncState.streamStep codec crypto transport st m p root base s .flushLast) := by
  have hstream := (h.pushes m p hp).stream hphase
  simp only [SyncState.streamStep]
  split_ifs with hquiet
  · simp only [Stream.quiet, Bool.and_eq_true, List.isEmpty_iff] at hquiet
    have hflushes : s.flushes = [] := hquiet.1.1.1.1
    refine h.setStream hp hphase (hstream.move rfl rfl (fun _ hid => hid) ?_ ?_)
    · intro x hx
      refine Or.inl ?_
      simp only [Stream.waiting, hflushes, List.flatten_nil, List.append_nil,
        List.flatten_cons, List.nil_append, List.mem_append] at hx ⊢
      exact hx
    · intro x hx
      simp only [Stream.waiting, hflushes, List.flatten_nil, List.append_nil,
        List.flatten_cons, List.nil_append, List.mem_append] at hx ⊢
      exact hx
  · exact h

/-- Taking the next batch keeps the invariant. -/
theorem SyncInv.nextBatch (h : SyncInv codec crypto transport U st)
    (hp : st.pushes m = some p) (hphase : p.phase = .streaming root base s) :
    SyncInv codec crypto transport U
      (SyncState.streamStep codec crypto transport st m p root base s .nextBatch) := by
  have hstream := (h.pushes m p hp).stream hphase
  simp only [SyncState.streamStep]
  split
  · rename_i batch flushes hasking huploads hflushes
    refine h.setStream hp hphase (hstream.move rfl rfl (fun _ hid => hid) ?_ ?_)
    · intro x hx
      refine Or.inl ?_
      simp only [Stream.waiting, hasking, huploads, hflushes, List.flatten_cons,
        List.append_nil, List.mem_append] at hx ⊢
      tauto
    · intro x hx
      simp only [Stream.waiting, hasking, huploads, hflushes, List.flatten_cons,
        List.append_nil, List.mem_append] at hx ⊢
      tauto
  · exact h

/-- Asking for an object keeps the invariant. -/
theorem SyncInv.ask (h : SyncInv codec crypto transport U st)
    (hinj : ∀ a b, (U.get? a).isSome → (U.get? b).isSome →
      crypto.remoteId a = crypto.remoteId b → a = b)
    (hp : st.pushes m = some p) (hphase : p.phase = .streaming root base s) :
    SyncInv codec crypto transport U
      (SyncState.streamStep codec crypto transport st m p root base s .ask) := by
  have hstream := (h.pushes m p hp).stream hphase
  simp only [SyncState.streamStep]
  cases hasking : s.asking with
  | nil => exact h
  | cons x asking =>
    have hx : U.get? x.id = some (x.kind, x.bytes) := by
      refine hstream.items x (List.mem_append_left _ ?_)
      simp [Stream.waiting, hasking]
    simp only
    split_ifs with hin
    · have hstored := h.storedAt hinj (Option.isSome_iff_exists.mpr ⟨_, hx⟩) hin
      refine h.setStream hp hphase (hstream.move rfl rfl (fun _ hid => hid) ?_ ?_)
      · intro y hy
        simp only [Stream.waiting, hasking, List.mem_append, List.mem_cons] at hy ⊢
        rcases hy with ((hy | hy) | rfl | hy) | hy
        · exact Or.inl (Or.inl (Or.inl (Or.inl hy)))
        · exact Or.inl (Or.inl (Or.inl (Or.inr hy)))
        · exact Or.inr hstored
        · exact Or.inl (Or.inl (Or.inr hy))
        · exact Or.inl (Or.inr hy)
      · intro y hy
        simp only [Stream.waiting, hasking, List.mem_append, List.mem_cons] at hy ⊢
        tauto
    · refine h.setStream hp hphase (hstream.move rfl rfl (fun _ hid => hid) ?_ ?_)
      · intro y hy
        refine Or.inl ?_
        simp only [Stream.waiting, hasking, List.mem_append, List.mem_cons] at hy ⊢
        tauto
      · intro y hy
        simp only [Stream.waiting, hasking, List.mem_append, List.mem_cons,
          List.not_mem_nil, or_false] at hy ⊢
        tauto

/-- An upload keeps the invariant. -/
theorem SyncInv.upload (h : SyncInv codec crypto transport U st)
    (hinj : ∀ a b, (U.get? a).isSome → (U.get? b).isSome →
      crypto.remoteId a = crypto.remoteId b → a = b)
    (hp : st.pushes m = some p) (hphase : p.phase = .streaming root base s) :
    SyncInv codec crypto transport U
      (SyncState.streamStep codec crypto transport st m p root base s .upload) := by
  have hstream := (h.pushes m p hp).stream hphase
  simp only [SyncState.streamStep]
  split
  · rename_i x uploads hasking huploads
    have hx : U.get? x.id = some (x.kind, x.bytes) := by
      refine hstream.items x (List.mem_append_left _ ?_)
      simp [Stream.waiting, huploads]
    obtain ⟨hinv, hstored, hgrow⟩ := h.writeObject hinj hx
    have hsame : (SyncState.writeObject crypto transport st x).pushes = st.pushes := by
      unfold SyncState.writeObject
      cases transport with
      | locked => rfl
      | s3 =>
        simp only
        split_ifs
        · rfl
        · rfl
    have hpush' := hinv.pushes m p (by rw [hsame]; exact hp)
    refine hinv.setPush (SyncState.writeObject crypto transport st x).lease
      (hpush'.setStream hphase (hstream.move rfl rfl hgrow ?_ ?_))
    · intro y hy
      simp only [Stream.waiting, huploads, List.mem_append, List.mem_cons] at hy ⊢
      rcases hy with ((hy | hy) | hy) | rfl | hy
      · exact Or.inl (Or.inl (Or.inl (Or.inl hy)))
      · exact Or.inl (Or.inl (Or.inl (Or.inr hy)))
      · exact Or.inl (Or.inl (Or.inr hy))
      · exact Or.inr hstored
      · exact Or.inl (Or.inr hy)
    · intro y hy
      simp only [Stream.waiting, huploads, List.mem_append, List.mem_cons] at hy ⊢
      tauto
  · exact h

/-- Writing the head keeps the invariant. -/
theorem SyncInv.writeHead (h : SyncInv codec crypto transport U st)
    (hp : st.pushes m = some p) (hphase : p.phase = .streaming root base s) :
    SyncInv codec crypto transport U
      (SyncState.streamStep codec crypto transport st m p root base s .writeHead) := by
  have hstream := (h.pushes m p hp).stream hphase
  simp only [SyncState.streamStep]
  split_ifs with hdone hput
  · exact h.publish hp fun id hid => hstream.finished hdone hid
  · exact h.release m
  · exact h

/-- **Every step of a traversal keeps the invariant.** -/
theorem SyncInv.streamStep (h : SyncInv codec crypto transport U st)
    (hinj : ∀ a b, (U.get? a).isSome → (U.get? b).isSome →
      crypto.remoteId a = crypto.remoteId b → a = b)
    (hp : st.pushes m = some p) (hphase : p.phase = .streaming root base s) (act : PushAct) :
    SyncInv codec crypto transport U
      (SyncState.streamStep codec crypto transport st m p root base s act) := by
  cases act with
  | visit => exact h.visit hp hphase
  | expand => exact h.expand hp hphase
  | flushLast => exact h.flushLast hp hphase
  | nextBatch => exact h.nextBatch hp hphase
  | ask => exact h.ask hinj hp hphase
  | upload => exact h.upload hinj hp hphase
  | writeHead => exact h.writeHead hp hphase
  | begin job => exact h
  | prepareLease now => exact h
  | lookHead => exact h
  | checkHead => exact h
  | writeLease => exact h
  | fail => exact h

end Steps

/-- A push that begins keeps the invariant. -/
theorem SyncInv.beginWriter (h : SyncInv codec crypto transport U st) {job : PushJob}
    (hjob : ∀ id o, job.store.get? id = some o → U.get? id = some o) :
    SyncInv codec crypto transport U (SyncState.beginWriter transport st m job) := by
  unfold SyncState.beginWriter
  cases transport with
  | locked =>
    simp only
    split_ifs with hlock
    · have hnone : ∀ n q, st.pushes n ≠ some q := by
        intro n q hq
        have hheld := (h.pushes n q hq).lock rfl
        rw [hlock] at hheld
        exact absurd hheld (by simp)
      have htaken : SyncInv codec crypto .locked U { st with lock := some m } :=
        ⟨h.objects, h.complete, h.etag, fun n q hq => absurd hq (hnone n q)⟩
      refine htaken.setPush st.lease ⟨hjob, fun _ => rfl, ?_, trivial⟩
      intro e he
      exact absurd he (by simp)
    · exact h
  | s3 =>
    refine h.setPush st.lease ⟨hjob, ?_, ?_, trivial⟩
    · intro ht
      exact absurd ht (by decide)
    · intro e he
      obtain ⟨head, hhead, rfl⟩ := Option.map_eq_some_iff.mp he
      exact h.etag _ _ hhead

/-- The invariant holds of a traversal that begins. -/
theorem streamInv_start (job : PushJob) :
    StreamInv codec crypto U st job
      ⟨OrdMap.empty.insert job.snapshot (.Snapshot, false), [], [], [], [], none⟩ where
  items := by
    intro x hx
    exact absurd hx List.not_mem_nil
  root := by
    rw [OrdMap.get?_insert, if_pos rfl]
    rfl
  visited := by
    intro id kind hid
    rw [OrdMap.get?_insert] at hid
    split_ifs at hid with heq
    · exact absurd hid (by simp)
    · rw [OrdMap.get?_empty] at hid
      exact absurd hid (by simp)
  current := by
    intro x hx
    exact absurd hx (by simp)

/-- The phase of a push changes. -/
theorem PushInv.setPhase (h : PushInv codec crypto transport U st m p) {phase : Phase}
    (hphase : PhaseInv codec crypto transport U st { p with phase := phase } phase) :
    PushInv codec crypto transport U st m { p with phase := phase } :=
  ⟨h.store, h.lock, h.etag, hphase⟩

/-- **Every step keeps the invariant.** -/
theorem SyncInv.step (h : SyncInv codec crypto transport U st)
    (hinj : ∀ a b, (U.get? a).isSome → (U.get? b).isSome →
      crypto.remoteId a = crypto.remoteId b → a = b)
    (a : ℕ × PushAct)
    (ha : ∀ job, a.2 = .begin job → ∀ id o, job.store.get? id = some o → U.get? id = some o) :
    SyncInv codec crypto transport U (SyncState.step codec crypto transport st a) := by
  obtain ⟨m, act⟩ := a
  simp only at ha
  unfold SyncState.step
  cases hp : st.pushes m with
  | none =>
    cases act with
    | begin job => exact h.beginWriter (ha job rfl)
    | _ => exact h
  | some p =>
    have hpush := h.pushes m p hp
    have hphaseInv := hpush.phase
    simp only
    split
    · exact h.release m
    · rename_i now hphase
      split_ifs with hfree
      · exact h.setPush st.lease (hpush.setPhase trivial)
      · exact h.release m
    · rename_i expires hphase
      cases SyncState.snapshotRoot codec p.job with
      | none => exact h.release m
      | some root =>
        refine h.setPush st.lease (hpush.setPhase ?_)
        cases hhead : st.head with
        | none =>
          intro e head hget
          rw [hhead] at hget
          exact absurd hget (by simp)
        | some head => trivial
    · rename_i expires root hphase
      cases hhead : st.head with
      | none => exact h.release m
      | some current =>
        obtain ⟨e, head⟩ := current
        simp only
        split_ifs with hallows
        · refine h.setPush st.lease (hpush.setPhase ?_)
          intro e' head' hget _
          rw [hhead] at hget
          cases hget
          exact hallows
        · exact h.release m
    · rename_i expires root hphase
      rw [hphase] at hphaseInv
      split_ifs with hexpected
      · refine h.setPush st.lease (hpush.setPhase ?_)
        intro e head hget hs3
        exact (hphaseInv e head hget hs3).elim
      · exact h.release m
    · rename_i expires root base hphase
      rw [hphase] at hphaseInv
      exact h.setPush _ (hpush.setPhase ⟨hphaseInv, streamInv_start p.job⟩)
    · rename_i root base s _ hphase
      exact h.streamStep hinj hp hphase _
    · exact h

end Inv

/-- A push begins. -/
def PushAct.begins : PushAct → Bool
  | .begin _ => true
  | _ => false

end Furrow
