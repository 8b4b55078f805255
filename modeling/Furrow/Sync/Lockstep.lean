import Mathlib
import Furrow.Sync.Batches

set_option relaxedAutoImplicit false
set_option autoImplicit false

/-!
# A push, call by call

There are two models of a push.  `Furrow.SyncState.step` interleaves the remote operations of any
number of machines; `Furrow.Batches.pushObjects` runs one push from the lease to the head, counts
what the code counts and encrypts with the cipher of the code.  The second is a run of the first: a
machine whose traversal begins takes steps of its own, after which its traversal is finished, and
the remote holds what the session holds.

## Main definitions

* `Furrow.Lockstep.remoteCrypto` — the cipher of the code as one of the machines.
* `Furrow.Lockstep.Mirrors` — a remote that holds what a session holds.
* `Furrow.Lockstep.Own`, `Furrow.Lockstep.Streams` — the steps of one machine, and where it stands.

## Main results

* `Furrow.Lockstep.Streams.flush` — a batch that is flushed.
* `Furrow.Lockstep.Streams.visit` — an object that is visited.
* `Furrow.Lockstep.pushObjects_run` — a whole push.
-/

namespace Furrow

namespace Lockstep

open Batches
open Sealer (CryptoPrimitives)

/-- The names and ciphers of the remote, as the machines use them. -/
def remoteCrypto (p : CryptoPrimitives) (crypto : Sealer.RemoteCrypto) : RemoteCrypto where
  remoteId := crypto.remoteId p
  encryptObject id kind bytes := (crypto.encryptObject p id kind bytes).toOption.getD []

/-- A bucket is written with conditional puts; the other remotes have a lock. -/
def transportOf : SessionInner → Transport
  | .s3 => .s3
  | .directory | .ssh => .locked

/-- An object that is visited, on its way. -/
def itemOf (o : BundleObject) : PushItem := ⟨o.id, o.kind, o.bytes⟩

/-- Whether a session has an object. -/
def holds (p : CryptoPrimitives) (crypto : Sealer.RemoteCrypto) (session : Session)
    (id : ObjectId) : Bool :=
  (session.objects.get? (objectKey (crypto.remoteId p id))).isSome

/-- A remote that holds what a session holds. -/
def Mirrors (session : Session) (objects : OrdMap ObjectId Bytes) : Prop :=
  ∀ rid, session.objects.get? (objectKey rid) = objects.get? rid

/-- The keys of objects are different. -/
theorem objectKey_injective : Function.Injective objectKey := by
  intro a b h
  have htail := List.append_cancel_left h
  have htwo : ∀ id : ObjectId, ((hexEncode id.bytes).take 2).length = 2 := by
    intro id
    rw [List.length_take, length_hexEncode_id]
    rfl
  obtain ⟨hhead, hrest⟩ := List.append_inj htail ((htwo a).trans (htwo b).symm)
  have hhex : hexEncode a.bytes = hexEncode b.bytes := by
    rw [← List.take_append_drop 2 (hexEncode a.bytes), hhead, (List.cons.inj hrest).2,
      List.take_append_drop]
  cases a
  cases b
  cases hexEncode_injective hhex
  rfl

/-! ## What succeeded -/

/-- Storing nothing. -/
theorem session_store_nil (session : Session) : session.store [] = session := by
  simp [Session.store]

/-- Storing some values and then others. -/
theorem session_store_store (session : Session) (values values' : List (Bytes × Bytes)) :
    (session.store values).store values' = session.store (values ++ values') := by
  simp [Session.store]

section Succeeded

variable {p : CryptoPrimitives} {crypto : Sealer.RemoteCrypto} {st st' : PushState}

variable (p crypto) in
/-- Those of some objects that a session lacks are stored in it. -/
def Stores (session : Session) (os : List BundleObject) (session' : Session) : Prop :=
  ∃ values, List.Forall₂ (HandedFor p crypto)
      (os.filter fun o => !holds p crypto session o.id) values ∧
    session' = session.store values

/-- An object that was encrypted. -/
theorem encrypt_eq_ok {o : BundleObject} {encrypted : Bytes}
    (h : PushState.encrypt p crypto o = .ok encrypted) :
    crypto.encryptObject p o.id o.kind o.bytes = .ok encrypted := by
  unfold PushState.encrypt at h
  cases hsealed : crypto.encryptObject p o.id o.kind o.bytes with
  | error e =>
    rw [hsealed] at h
    cases h
  | ok sealed =>
    rw [hsealed] at h
    cases h
    rfl

/-- A session that was asked. -/
theorem hasObjects_eq_ok {session : Session} {ids : List ObjectId} {existing : List Bool}
    (h : session.hasObjects ids = .ok existing) :
    existing = ids.map fun id => (session.objects.get? (objectKey id)).isSome := by
  unfold Session.hasObjects at h
  split_ifs at h
  cases h
  rfl

/-- Values that were written. -/
theorem writeMany_eq_ok {session session' : Session} {values : List (Bytes × Bytes)}
    (h : session.writeMany values = .ok session') : session' = session.store values := by
  unfold Session.writeMany at h
  cases hvalues : checkValues values with
  | error e =>
    rw [hvalues] at h
    cases h
  | ok u =>
    rw [hvalues] at h
    dsimp only at h
    split_ifs at h
    cases h
    rfl

/-- A value that was written. -/
theorem write_eq_ok {session session' : Session} {key bytes : Bytes}
    (h : session.write key bytes = .ok session') : session' = session.store [(key, bytes)] := by
  unfold Session.write at h
  cases hvalue : checkValue (key, bytes) with
  | error e =>
    rw [hvalue] at h
    cases h
  | ok u =>
    rw [hvalue] at h
    dsimp only at h
    split_ifs at h
    cases h
    rfl

/-- Storing does not change how the remote is reached. -/
theorem Stores.inner {session session' : Session} {os : List BundleObject}
    (h : Stores p crypto session os session') : session'.inner = session.inner := by
  obtain ⟨values, -, rfl⟩ := h
  rfl

/-- A batch whose objects were counted: those that are not there were encrypted. -/
theorem takeBatch_eq_ok {has : BundleObject → Bool} {os : List BundleObject}
    {uploads : List (Bytes × Bytes)}
    (h : PushState.takeBatch p crypto (os.map fun o => ((o, crypto.remoteId p o.id), has o)) st =
      .ok (st', uploads)) :
    List.Forall₂ (HandedFor p crypto) (os.filter fun o => !has o) uploads ∧
      st'.session = st.session ∧ st'.pending = st.pending := by
  induction os generalizing st uploads with
  | nil =>
    cases h
    exact ⟨.nil, rfl, rfl⟩
  | cons o os ih =>
    rw [List.map_cons] at h
    cases hhas : has o with
    | true =>
      rw [hhas, PushState.takeBatch] at h
      simpa [hhas, PushState.reuse] using ih h
    | false =>
      rw [hhas, PushState.takeBatch] at h
      obtain ⟨encrypted, hencrypted, h⟩ := Fallible.exists_of_bind_eq_ok h
      obtain ⟨⟨last, rest⟩, htake, h⟩ := Fallible.exists_of_bind_eq_ok h
      cases h
      obtain ⟨hrest, hsession, hpending⟩ := ih htake
      refine ⟨?_, hsession, hpending⟩
      rw [List.filter_cons_of_pos (by simp [hhas])]
      exact .cons ⟨rfl, encrypt_eq_ok hencrypted⟩ hrest

/-- A batch that was flushed. -/
theorem flushPushBatch_eq_ok (h : st.flushPushBatch p crypto = .ok st') :
    st'.pending = [] ∧ Stores p crypto st.session st.pending st'.session := by
  unfold PushState.flushPushBatch at h
  split_ifs at h with hempty
  · cases h
    rw [List.isEmpty_iff] at hempty
    rw [hempty]
    exact ⟨rfl, [], .nil, (session_store_nil _).symm⟩
  · obtain ⟨existing, hexisting, h⟩ := Fallible.exists_of_bind_eq_ok h
    rw [hasObjects_eq_ok hexisting] at h
    split_ifs at h
    obtain ⟨⟨counted, uploads⟩, htake, h⟩ := Fallible.exists_of_bind_eq_ok h
    obtain ⟨session, hwrite, h⟩ := Fallible.exists_of_bind_eq_ok h
    cases h
    rw [List.map_map, PushState.zip_zip_map] at htake
    obtain ⟨hhanded, hsession, hpending⟩ := takeBatch_eq_ok htake
    dsimp only at hsession
    refine ⟨hpending, uploads, hhanded, ?_⟩
    rw [← hsession]
    exact writeMany_eq_ok hwrite

/-- A batch that was flushed before another one begins. -/
theorem nextBatch_eq_ok (h : st.nextBatch p crypto = .ok st') :
    st'.pending = [] ∧ st'.pendingBytes = 0 ∧
      Stores p crypto st.session st.pending st'.session := by
  obtain ⟨flushed, hflush, h⟩ := Fallible.exists_of_bind_eq_ok h
  cases h
  obtain ⟨hpending, hstores⟩ := flushPushBatch_eq_ok hflush
  exact ⟨hpending, rfl, hstores⟩

/-- A large object that was pushed. -/
theorem pushLarge_eq_ok {o : BundleObject} (h : st.pushLarge p crypto o = .ok st') :
    st'.pending = st.pending ∧ st'.pendingBytes = st.pendingBytes ∧
      Stores p crypto st.session [o] st'.session := by
  obtain ⟨existing, hexisting, h⟩ := Fallible.exists_of_bind_eq_ok h
  rw [hasObjects_eq_ok hexisting, List.map_singleton, List.headD_cons] at h
  split_ifs at h with hhas
  · cases h
    refine ⟨rfl, rfl, [], ?_, (session_store_nil _).symm⟩
    rw [List.filter_cons_of_neg (by simp [holds, hhas])]
    exact .nil
  · obtain ⟨encrypted, hencrypted, h⟩ := Fallible.exists_of_bind_eq_ok h
    obtain ⟨session, hwrite, h⟩ := Fallible.exists_of_bind_eq_ok h
    cases h
    refine ⟨rfl, rfl, [(objectKey (crypto.remoteId p o.id), encrypted)], ?_, write_eq_ok hwrite⟩
    rw [List.filter_cons_of_pos (by simpa [holds] using hhas)]
    exact .cons ⟨rfl, encrypt_eq_ok hencrypted⟩ .nil

end Succeeded

section Steps

variable {p : CryptoPrimitives} {crypto : Sealer.RemoteCrypto} {codec : ObjectCodec}
  {inner : SessionInner}

variable (p crypto codec inner) in
/-- One step of one machine. -/
def Own (m : ℕ) (st st' : SyncState) : Prop :=
  ∃ act, st' = SyncState.step codec (remoteCrypto p crypto) (transportOf inner) st (m, act)

/-- A machine that streams, over a remote that holds what a session holds. -/
structure Streams (st : SyncState) (m : ℕ) (push : Push) (root : ObjectId)
    (base : Option ObjectId) (s : Stream) (session : Session) : Prop where
  push : st.pushes m = some { push with phase := .streaming root base s }
  mirrors : Mirrors session st.objects

variable {st : SyncState} {m : ℕ} {push : Push} {root : ObjectId} {base : Option ObjectId}
  {s : Stream} {session : Session}

variable (p crypto codec inner) in
/-- A machine gets, by steps of its own, to another place of its traversal. -/
def Gets (st : SyncState) (m : ℕ) (push : Push) (root : ObjectId) (base : Option ObjectId)
    (s : Stream) (session : Session) : Prop :=
  ∃ st', Relation.ReflTransGen (Own p crypto codec inner m) st st' ∧
    Streams st' m push root base s session

/-- Standing still. -/
theorem Streams.gets (h : Streams st m push root base s session) :
    Gets p crypto codec inner st m push root base s session :=
  ⟨st, .refl, h⟩

/-- A place that is got to from where the machine got. -/
theorem Gets.trans {s' : Stream} {session' : Session}
    (h : Gets p crypto codec inner st m push root base s session)
    (hnext : ∀ st', Streams st' m push root base s session →
      Gets p crypto codec inner st' m push root base s' session') :
    Gets p crypto codec inner st m push root base s' session' := by
  obtain ⟨mid, hmid, hstreams⟩ := h
  obtain ⟨st', hst', hlast⟩ := hnext mid hstreams
  exact ⟨st', hmid.trans hst', hlast⟩

/-- A step of the traversal that changes no object of the remote. -/
theorem Streams.step (h : Streams st m push root base s session) (act : PushAct) {s' : Stream}
    (hstep : SyncState.step codec (remoteCrypto p crypto) (transportOf inner) st (m, act) =
      st.setPush m { push with phase := .streaming root base s' }) :
    Gets p crypto codec inner st m push root base s' session := by
  refine ⟨_, .single ⟨act, rfl⟩, ?_⟩
  rw [hstep]
  exact ⟨if_pos rfl, h.mirrors⟩

/-! ## A batch -/

/-- An object is asked for. -/
theorem Streams.ask {x : PushItem} {asking : List PushItem}
    (h : Streams st m push root base s session) (hasking : s.asking = x :: asking) :
    Gets p crypto codec inner st m push root base
      { s with
        asking := asking
        uploads := s.uploads ++ if holds p crypto session x.id then [] else [x] }
      session := by
  refine h.step .ask ?_
  have hholds : (st.objects.get? ((remoteCrypto p crypto).remoteId x.id)).isSome =
      holds p crypto session x.id := congrArg Option.isSome (h.mirrors _).symm
  unfold SyncState.step
  simp only [h.push, SyncState.streamStep, hasking]
  rw [hholds]
  split_ifs with hhas
  · rw [List.append_nil]
  · rfl

/-- The objects of a batch are asked for, and those that the remote lacks are kept. -/
theorem Streams.askAll {items : List PushItem} (h : Streams st m push root base s session)
    (hasking : s.asking = items) :
    Gets p crypto codec inner st m push root base
      { s with
        asking := []
        uploads := s.uploads ++ items.filter fun x => !holds p crypto session x.id }
      session := by
  induction items generalizing st s with
  | nil =>
    have hs : { s with asking := [], uploads := s.uploads ++ [] } = s := by
      rw [List.append_nil, ← hasking]
    rw [List.filter_nil, hs]
    exact h.gets
  | cons x items ih =>
    refine (h.ask hasking).trans fun st' h' => ?_
    have hrest := ih h' rfl
    simp only [List.append_assoc] at hrest
    rw [List.filter_cons]
    split_ifs with hhas
    · rw [Bool.not_eq_true'] at hhas
      simpa [hhas] using hrest
    · rw [Bool.not_eq_true', Bool.not_eq_false] at hhas
      simpa [hhas] using hrest

/-- What is handed over for an object is what a machine uploads. -/
theorem handedFor_eq {o : BundleObject} {v : Bytes × Bytes} (h : HandedFor p crypto o v) :
    v = (objectKey ((remoteCrypto p crypto).remoteId o.id),
      (remoteCrypto p crypto).encryptObject o.id o.kind o.bytes) := by
  refine Prod.ext h.key ?_
  simp only [remoteCrypto, h.value, Except.toOption, Option.getD_some]

/-- A remote and a session that get the same object still agree. -/
theorem Mirrors.insert {session' : Session} {objects : OrdMap ObjectId Bytes} {rid : ObjectId}
    {v : Bytes} (h : Mirrors session objects)
    (hinsert : session'.objects = session.objects.insert (objectKey rid) v) :
    Mirrors session' (objects.insert rid v) := by
  intro rid'
  rw [hinsert, OrdMap.get?_insert, OrdMap.get?_insert]
  by_cases hrid : rid' = rid
  · rw [hrid, if_pos rfl, if_pos rfl]
  · rw [if_neg fun hkey => hrid (objectKey_injective hkey), if_neg hrid]
    exact h rid'

/-- An upload stores the same at the remote and in the session. -/
theorem Mirrors.store (h : Mirrors session st.objects) (hinner : session.inner = inner)
    {o : BundleObject} {v : Bytes × Bytes} (hv : HandedFor p crypto o v) :
    Mirrors (session.store [v]) (SyncState.writeObject (remoteCrypto p crypto) (transportOf inner)
      st (itemOf o)).objects := by
  rw [handedFor_eq hv]
  have hput : ∀ v : Bytes × Bytes,
      (session.store [v]).objects = Session.put inner session.objects v := by
    intro v
    rw [← hinner]
    rfl
  cases inner with
  | directory | ssh => exact h.insert ((hput _).trans (if_neg (by simp)))
  | s3 =>
    have hrid := h ((remoteCrypto p crypto).remoteId o.id)
    by_cases hin : (st.objects.get? ((remoteCrypto p crypto).remoteId o.id)).isSome = true
    · have hwrite : SyncState.writeObject (remoteCrypto p crypto) (transportOf .s3) st
          (itemOf o) = st := if_pos hin
      rw [hwrite]
      intro rid
      rw [hput, Session.put, if_pos ⟨rfl, by rw [hrid, hin]⟩]
      exact h rid
    · have hwrite : SyncState.writeObject (remoteCrypto p crypto) (transportOf .s3) st
          (itemOf o) =
          { st with
            objects := st.objects.insert ((remoteCrypto p crypto).remoteId o.id)
              ((remoteCrypto p crypto).encryptObject o.id o.kind o.bytes) } := if_neg hin
      rw [hwrite]
      exact h.insert ((hput _).trans (if_neg fun hc => hin (hrid ▸ hc.2)))

/-- The objects that the remote lacks are uploaded. -/
theorem Streams.uploadAll {os : List BundleObject} {values : List (Bytes × Bytes)}
    (h : Streams st m push root base s session) (hasking : s.asking = [])
    (huploads : s.uploads = os.map itemOf) (hinner : session.inner = inner)
    (hvalues : List.Forall₂ (HandedFor p crypto) os values) :
    Gets p crypto codec inner st m push root base { s with uploads := [] }
      (session.store values) := by
  induction hvalues generalizing st s session with
  | nil =>
    have hs : { s with uploads := [] } = s := by
      rw [List.map_nil] at huploads
      rw [← huploads]
    rw [hs, session_store_nil]
    exact h.gets
  | @cons o v os values hv hrest ih =>
    have hupload : Gets p crypto codec inner st m push root base
        { s with uploads := os.map itemOf } (session.store [v]) := by
      refine ⟨_, .single ⟨.upload, rfl⟩, ?_⟩
      rw [List.map_cons] at huploads
      unfold SyncState.step
      simp only [h.push, SyncState.streamStep, hasking, huploads]
      exact ⟨if_pos rfl, h.mirrors.store hinner hv⟩
    refine hupload.trans fun st' h' => ?_
    have hlast := ih h' hasking rfl hinner
    rwa [session_store_store] at hlast

/-- **A batch that is flushed**: what the remote lacks of it is uploaded. -/
theorem Streams.flush {os : List BundleObject} {rest : List (List PushItem)}
    {session' : Session} (h : Streams st m push root base s session)
    (hasking : s.asking = []) (huploads : s.uploads = [])
    (hflushes : s.flushes = os.map itemOf :: rest) (hinner : session.inner = inner)
    (hstores : Stores p crypto session os session') :
    Gets p crypto codec inner st m push root base { s with flushes := rest } session' := by
  obtain ⟨values, hvalues, rfl⟩ := hstores
  have hnext : Gets p crypto codec inner st m push root base
      { s with flushes := rest, asking := os.map itemOf } session := by
    refine h.step .nextBatch ?_
    unfold SyncState.step
    simp only [h.push, SyncState.streamStep, hasking, huploads, hflushes]
  refine hnext.trans fun st₁ h₁ => (h₁.askAll rfl).trans fun st₂ h₂ => ?_
  have hkept : (os.map itemOf).filter (fun x => !holds p crypto session x.id) =
      (os.filter fun o => !holds p crypto session o.id).map itemOf := List.filter_map
  have huploads' : s.uploads ++ (os.map itemOf).filter (fun x => !holds p crypto session x.id) =
      (os.filter fun o => !holds p crypto session o.id).map itemOf := by
    rw [huploads, List.nil_append, hkept]
  have hs : ({ s with flushes := rest, asking := [], uploads := [] } : Stream) =
      { s with flushes := rest } := by
    simp [hasking, huploads]
  rw [← hs]
  exact h₂.uploadAll rfl huploads' hinner hvalues

/-! ## An object -/

/-- Where a machine stands between two objects: the objects that wait are those that wait in the
push, and no batch is being flushed. -/
structure Waits (inner : SessionInner) (st : PushState) (s : Stream) : Prop where
  pending : s.pending = st.pending.map itemOf
  counted : st.Counted
  inner : st.session.inner = inner
  flushes : s.flushes = []
  asking : s.asking = []
  uploads : s.uploads = []

/-- The bytes of a batch that is full, as they are counted. -/
theorem lt_saturatingAdd_iff {a b : ℕ} :
    haveBatchBytes < Batches.saturatingAdd a b ↔ haveBatchBytes < a + b := by
  have hmax : haveBatchBytes = 16777216 := rfl
  unfold Batches.saturatingAdd
  omega

/-- The bytes of the items of objects. -/
theorem batchBytes_itemOf (os : List BundleObject) :
    batchBytes (os.map itemOf) = (os.map fun o => o.bytes.length).sum := by
  rw [batchBytes, List.map_map]
  rfl

/-- **An object that is visited**: the machine puts it into a batch, and flushes what the push
flushes. -/
theorem Streams.visit {o : BundleObject} {ps ps' : PushState}
    (h : Streams st m push root base s ps.session) (hwaits : Waits inner ps s)
    (hcurrent : s.current = none) (hnext : nextMark s.marks = some (o.id, o.kind))
    (hread : push.job.store.readBytes o.id o.kind = .ok o.bytes)
    (hvisit : ps.visit p crypto o = .ok ps') :
    ∃ s', Gets p crypto codec inner st m push root base s' ps'.session ∧ Waits inner ps' s' ∧
      s'.current = some (itemOf o) ∧ s'.marks = s.marks := by
  obtain ⟨hpending, hcounted, hinner, hflushes, hasking, huploads⟩ := hwaits
  have hput : Gets p crypto codec inner st m push root base (s.put (itemOf o)) ps.session := by
    refine h.step .visit ?_
    unfold SyncState.step
    simp only [h.push, SyncState.streamStep, Stream.quiet, hflushes, hasking, huploads, hcurrent,
      hnext, hread]
    rfl
  have hfull : (s.pending.length = haveBatch ∨
      haveBatchBytes < batchBytes s.pending + (itemOf o).bytes.length) ↔
      (ps.pending.length = haveBatch ∨
        haveBatchBytes < Batches.saturatingAdd ps.pendingBytes o.bytes.length) := by
    rw [hpending, List.length_map, lt_saturatingAdd_iff, batchBytes_itemOf, ← hcounted]
    rfl
  unfold PushState.visit at hvisit
  unfold Stream.put at hput
  split_ifs at hvisit with hlarge hbatch
  · rw [if_pos (show haveBatchBytes ≤ (itemOf o).bytes.length from hlarge), hflushes] at hput
    obtain ⟨mid, hmid, hlast⟩ := Fallible.exists_of_bind_eq_ok hvisit
    obtain ⟨hnone, hzero, hstores⟩ := nextBatch_eq_ok hmid
    obtain ⟨hnone', hzero', hstores'⟩ := pushLarge_eq_ok hlast
    have hinner' := hstores.inner.trans hinner
    refine ⟨_, hput.trans fun st₁ h₁ => (h₁.flush hasking huploads (by rw [hpending]; rfl) hinner
      hstores).trans fun st₂ h₂ => h₂.flush hasking huploads
        (show [[itemOf o]] = [o].map itemOf :: [] from rfl) hinner' hstores',
      ⟨?_, ?_, hstores'.inner.trans hinner', rfl, hasking, huploads⟩, rfl, rfl⟩
    · rw [hnone', hnone]
      rfl
    · rw [PushState.Counted, hnone', hzero', hnone, hzero]
      rfl
  · rw [if_neg (show ¬ haveBatchBytes ≤ (itemOf o).bytes.length from hlarge),
      if_pos (hfull.mpr hbatch), hflushes] at hput
    obtain ⟨mid, hmid, hlast⟩ := Fallible.exists_of_bind_eq_ok hvisit
    obtain ⟨hnone, hzero, hstores⟩ := nextBatch_eq_ok hmid
    cases hlast
    refine ⟨_, hput.trans fun st₁ h₁ => h₁.flush hasking huploads (by rw [hpending]; rfl) hinner
      hstores, ⟨?_, ?_, hstores.inner.trans hinner, rfl, hasking, huploads⟩, rfl, rfl⟩
    · rw [hnone]
      rfl
    · have hsmall := not_le.mp hlarge
      rw [PushState.Counted, hnone, hzero, PushState.saturatingAdd_eq (Nat.zero_le _) hsmall.le]
      simp
  · rw [if_neg (show ¬ haveBatchBytes ≤ (itemOf o).bytes.length from hlarge),
      if_neg fun hc => hbatch (hfull.mp hc)] at hput
    cases hvisit
    refine ⟨_, hput, ⟨?_, ?_, hinner, hflushes, hasking, huploads⟩, rfl, rfl⟩
    · rw [hpending, List.map_append]
      rfl
    · have hmax : haveBatchBytes = 16777216 := rfl
      have hsum := lt_saturatingAdd_iff.not.mp (not_or.mp hbatch).2
      have hadd : Batches.saturatingAdd ps.pendingBytes o.bytes.length =
          ps.pendingBytes + o.bytes.length := by
        unfold Batches.saturatingAdd
        omega
      rw [PushState.Counted, hadd, hcounted, List.map_append, List.sum_append]
      rfl

/-- What an object that was visited refers to is marked. -/
theorem Streams.expand {o : BundleObject} {marks : PushMarks}
    {es : List (ObjectId × ObjectKind)} (h : Streams st m push root base s session)
    (hquiet : s.quiet = true) (hcurrent : s.current = some (itemOf o))
    (hes : codec.objectEdges o.kind o.bytes = .ok es)
    (hmarks : es.foldlM markObject s.marks = some marks) :
    Gets p crypto codec inner st m push root base
      { s with marks := marks.insert o.id (o.kind, true), current := none } session := by
  refine h.step .expand ?_
  unfold SyncState.step
  simp only [h.push, SyncState.streamStep, hquiet, hcurrent, itemOf, hes, hmarks]
  rfl

/-! ## A push -/

/-- A node that the walk names is marked by the machine. -/
theorem markObject_eq_enqueue (marks : PushMarks) (e : ObjectId × ObjectKind) :
    markObject marks e = Tour.enqueue marks e := by
  unfold markObject Tour.enqueue
  cases marks.get? e.1 with
  | none => rfl
  | some v => rfl

/-- Nodes that the walk names are marked by the machine. -/
theorem foldlM_markObject_of_enqueueAll {marks marks' : PushMarks}
    {es : List (ObjectId × ObjectKind)} (h : Tour.enqueueAll marks es = some marks') :
    es.foldlM markObject marks = some marks' := by
  induction es generalizing marks with
  | nil => exact h
  | cons e es ih =>
    obtain ⟨mid, hmid, hrest⟩ := Option.bind_eq_some_iff.mp h
    rw [List.foldlM_cons]
    exact Option.bind_eq_some_iff.mpr ⟨mid, (markObject_eq_enqueue marks e).trans hmid, ih hrest⟩

/-- The edges of an object that the walk noted. -/
theorem enqueueEdges_eq_ok {marks marks' : BundleMarks} {kind : ObjectKind} {bytes : Bytes}
    (h : enqueueEdges codec marks kind bytes = .ok marks') :
    ∃ es, codec.objectEdges kind bytes = .ok es ∧ es.foldlM markObject marks = some marks' := by
  unfold enqueueEdges at h
  cases hes : codec.objectEdges kind bytes with
  | error e =>
    rw [hes] at h
    cases h
  | ok es =>
    rw [hes] at h
    dsimp only at h
    cases hmarks : Tour.enqueueAll marks es with
    | none =>
      rw [hmarks] at h
      cases h
    | some marks' =>
      rw [hmarks] at h
      cases h
      exact ⟨es, rfl, foldlM_markObject_of_enqueueAll hmarks⟩

/-- Bytes that the walk read are read by the machine. -/
theorem readBytes_eq_ok {store : NamedStore p.hash} {id : ObjectId} {kind : ObjectKind}
    {bytes : Bytes} (h : store.readBytes id kind = .ok bytes) :
    store.objects.readBytes id kind = .ok bytes := by
  unfold NamedStore.readBytes at h
  unfold RawStore.readBytes
  cases hget : store.objects.get? id with
  | none =>
    rw [hget] at h
    cases h
  | some o =>
    obtain ⟨kind', bytes'⟩ := o
    rw [hget] at h
    dsimp only at h ⊢
    split_ifs at h with hkind hid
    cases h
    rw [if_pos (not_not.mp hkind)]

/-- The walk of a push, object by object. -/
theorem Streams.visitAll {store : NamedStore p.hash} {fuel : ℕ} {os : List BundleObject}
    {ps ps' : PushState} (hwalk : visitUpTo codec store fuel s.marks = .ok os)
    (hvisits : os.foldlM (PushState.visit p crypto) ps = .ok ps')
    (h : Streams st m push root base s ps.session) (hjob : push.job.store = store.objects)
    (hwaits : Waits inner ps s) (hcurrent : s.current = none) :
    ∃ s', Gets p crypto codec inner st m push root base s' ps'.session ∧ Waits inner ps' s' ∧
      s'.current = none ∧ nextMark s'.marks = none := by
  induction fuel generalizing st s os ps with
  | zero => cases hwalk
  | succ fuel ih =>
    rw [visitUpTo] at hwalk
    cases hnext : Tour.next s.marks with
    | none =>
      rw [hnext] at hwalk
      cases hwalk
      cases hvisits
      exact ⟨s, h.gets, hwaits, hcurrent, hnext⟩
    | some e =>
      obtain ⟨id, kind⟩ := e
      rw [hnext] at hwalk
      obtain ⟨bytes, hread, hwalk⟩ := Fallible.exists_of_bind_eq_ok hwalk
      obtain ⟨marks, henqueue, hwalk⟩ := Fallible.exists_of_bind_eq_ok hwalk
      obtain ⟨rest, hrest, hwalk⟩ := Fallible.exists_of_bind_eq_ok hwalk
      cases hwalk
      rw [List.foldlM_cons] at hvisits
      obtain ⟨mid, hmid, hvisits⟩ := Fallible.exists_of_bind_eq_ok hvisits
      obtain ⟨es, hes, hmarks⟩ := enqueueEdges_eq_ok henqueue
      have hreadJob : push.job.store.readBytes id kind = .ok bytes := by
        rw [hjob]
        exact readBytes_eq_ok hread
      obtain ⟨s₁, hgets, hwaits₁, hcurrent₁, hmarks₁⟩ :=
        h.visit (o := ⟨id, kind, bytes⟩) hwaits hcurrent hnext hreadJob hmid
      obtain ⟨st₁, hst₁, h₁⟩ := hgets
      have hquiet : s₁.quiet = true := by
        simp [Stream.quiet, hwaits₁.flushes, hwaits₁.asking, hwaits₁.uploads]
      obtain ⟨st₂, hst₂, h₂⟩ := h₁.expand hquiet hcurrent₁ hes (by rw [hmarks₁]; exact hmarks)
      have hsettle : Tour.settle marks id = marks.insert id (kind, true) := by
        have hkept := (foldlM_markObject_spec hmarks).1 id _ (Tour.next_eq_some hnext)
        unfold Tour.settle
        rw [hkept]
      obtain ⟨s', hgets', hlast⟩ := ih (by rw [← hsettle]; exact hrest) hvisits h₂
        ⟨hwaits₁.pending, hwaits₁.counted, hwaits₁.inner, hwaits₁.flushes, hwaits₁.asking,
          hwaits₁.uploads⟩ rfl
      obtain ⟨st₃, hst₃, h₃⟩ := hgets'
      exact ⟨s', ⟨st₃, (hst₁.trans hst₂).trans hst₃, h₃⟩, hlast⟩

/-- **A push is a run of its machine**: where the objects of a snapshot are pushed, a machine whose
traversal of that snapshot begins has, after steps of its own, finished it, and then the remote
holds what the session holds. -/
theorem pushObjects_run {store : NamedStore p.hash} {snapshot : ObjectId} {ps : PushState}
    {count : ℕ} (hpush : pushObjects p crypto codec store snapshot session = .ok (ps, count))
    (hinner : session.inner = inner) (hjob : push.job.store = store.objects)
    (h : Streams st m push root base
      ⟨OrdMap.empty.insert snapshot (.Snapshot, false), [], [], [], [], none⟩ session) :
    ∃ s, Gets p crypto codec inner st m push root base s ps.session ∧ s.finished = true := by
  unfold pushObjects at hpush
  obtain ⟨os, hos, hpush⟩ := Fallible.exists_of_bind_eq_ok hpush
  obtain ⟨visited, hvisited, hpush⟩ := Fallible.exists_of_bind_eq_ok hpush
  obtain ⟨flushed, hflushed, hpush⟩ := Fallible.exists_of_bind_eq_ok hpush
  cases hpush
  have hwalk : visitUpTo codec store (store.objects.toList.length + 1)
      (OrdMap.empty.insert snapshot (.Snapshot, false)) = .ok os := by
    cases hreach : forEachReachable codec store snapshot with
    | error e =>
      rw [hreach] at hos
      cases hos
    | ok os' =>
      rw [hreach] at hos
      cases hos
      exact hreach
  obtain ⟨s, ⟨st₁, hst₁, h₁⟩, hwaits, hcurrent, hnext⟩ := Streams.visitAll hwalk hvisited h hjob
    ⟨rfl, rfl, hinner, rfl, rfl, rfl⟩ rfl
  obtain ⟨hpending, hcounted, hinner', hflushes, hasking, huploads⟩ := hwaits
  obtain ⟨hnone, hstores⟩ := flushPushBatch_eq_ok hflushed
  have hlast : Gets p crypto codec inner st₁ m push root base
      { s with pending := [], flushes := [s.pending] } visited.session := by
    refine h₁.step .flushLast ?_
    unfold SyncState.step
    simp only [h₁.push, SyncState.streamStep, Stream.quiet, hflushes, hasking, huploads, hcurrent,
      hnext]
    rfl
  have hend := hlast.trans fun st₂ h₂ =>
    h₂.flush hasking huploads (by rw [hpending]) hinner' hstores
  obtain ⟨st₃, hst₃, h₃⟩ := hend
  refine ⟨_, ⟨st₃, hst₁.trans hst₃, h₃⟩, ?_⟩
  simp [Stream.finished, Stream.quiet, hasking, huploads, hcurrent, hnext]

end Steps

end Lockstep

end Furrow
