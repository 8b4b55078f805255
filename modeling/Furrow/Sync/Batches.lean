import Mathlib
import Furrow.Exchange.Bundle
import Furrow.Exchange.Export
import Furrow.Remote.Sealer
import Furrow.Remote.Values
import Furrow.Sync.Push

set_option relaxedAutoImplicit false
set_option autoImplicit false

/-!
# The batches of a push

What one push does to the remote (`push_locked` between the lease and the head, and
`flush_push_batch`), on any of the three transports.  The objects that are reached from the snapshot
are visited one by one; large ones go alone, the others in batches, and of a batch the objects that
the remote lacks are uploaded in one call.  The state keeps, besides what the code counts, which
objects were uploaded and reused, and the batches that were flushed.

## Main definitions

* `Furrow.Batches.Session` — an open remote with the objects it has.
* `Furrow.Batches.PushState.visit`, `Furrow.Batches.PushState.flushPushBatch` — an object, and a
  batch.
* `Furrow.Batches.pushObjects` — the objects of a snapshot.

## Main results

* `Furrow.Batches.length_encodeWriteFrame_le` — a batch fits into a frame.
* `Furrow.Batches.PushState.Inv.visit` — an object is uploaded, reused or waiting.
* `Furrow.Batches.pushObjects_covers` — every reachable object is uploaded or reused, once.

## Implementation notes

The walk does not depend on what is done with its objects, so the model walks first and pushes then.
Here the push is alone with the remote, and the cipher is that of the code; in `Furrow.SyncState` the
remote operations of all machines interleave, and the cipher is a parameter.
`Furrow.Lockstep.pushObjects_run` shows that this push is a run of one of those machines.
-/

namespace Furrow

namespace Batches

open Sealer (CryptoPrimitives SealError ensureSealed)

/-- Why objects are not pushed. -/
inductive PushError
  | walk (e : BundleError)
  | crypto (e : SealError)
  | remote (e : RemoteError)
  /-- `remote have batch is too large` -/
  | haveBatchTooLarge
  /-- `invalid remote have response` -/
  | invalidHaveResponse
deriving DecidableEq

/-- How a remote is reached. -/
inductive SessionInner
  | directory
  | ssh
  | s3
deriving DecidableEq

/-- An open remote: whether the session is a writer, the objects by their keys, and what the session
handed over so far. -/
structure Session where
  inner : SessionInner
  writer : Bool
  objects : Files
  handed : List (Bytes × Bytes)

/-- `object_key` -/
def objectKey (id : ObjectId) : Bytes :=
  text "objects/" ++ ((hexEncode id.bytes).take 2 ++ slash :: (hexEncode id.bytes).drop 2)

/-- `usize::saturating_add` -/
def saturatingAdd (a b : ℕ) : ℕ := min (a + b) (2 ^ 64 - 1)

namespace Session

/-- Store the value of an object.  A bucket keeps the value it has. -/
def put (inner : SessionInner) (objects : Files) (v : Bytes × Bytes) : Files :=
  if inner = .s3 ∧ (objects.get? v.1).isSome then objects else objects.insert v.1 v.2

/-- Store the values of objects. -/
def store (s : Session) (values : List (Bytes × Bytes)) : Session :=
  { s with objects := values.foldl (put s.inner) s.objects, handed := s.handed ++ values }

/-- `Session::write` of an object. -/
def write (s : Session) (key bytes : Bytes) : Except PushError Session :=
  match checkValue (key, bytes) with
  | .error e => .error (.remote e)
  | .ok () => if s.writer then .ok (s.store [(key, bytes)]) else .error (.remote .notLocked)

/-- `Session::write_many` of objects.  Over ssh they are sent as one frame. -/
def writeMany (s : Session) (values : List (Bytes × Bytes)) : Except PushError Session :=
  match checkValues values with
  | .error e => .error (.remote e)
  | .ok () =>
    if s.inner = .ssh ∧ maxFrameBytes < (encodeWriteFrame values).length then
      .error (.remote .frameTooLarge)
    else if s.writer then .ok (s.store values)
    else .error (.remote .notLocked)

/-- `Session::has_objects` -/
def hasObjects (s : Session) (ids : List ObjectId) : Except PushError (List Bool) :=
  if ids.length ≤ maxHaveBatch then .ok (ids.map fun id => (s.objects.get? (objectKey id)).isSome)
  else .error .haveBatchTooLarge

end Session

/-- A push under way. -/
structure PushState where
  session : Session
  pending : List BundleObject
  pendingBytes : ℕ
  uploadedObjects : ℕ
  reusedObjects : ℕ
  uploadedBytes : ℕ
  uploaded : List ObjectId
  reused : List ObjectId
  batches : List (List BundleObject)

namespace PushState

/-- A push that begins. -/
def new (session : Session) : PushState := ⟨session, [], 0, 0, 0, 0, [], [], []⟩

/-- Count an object that the remote has. -/
def reuse (st : PushState) (o : BundleObject) : PushState :=
  { st with reusedObjects := st.reusedObjects + 1, reused := st.reused ++ [o.id] }

/-- Count an object that is uploaded. -/
def upload (st : PushState) (o : BundleObject) (encrypted : Bytes) : PushState :=
  { st with
    uploadedObjects := st.uploadedObjects + 1
    uploadedBytes := st.uploadedBytes + encrypted.length
    uploaded := st.uploaded ++ [o.id] }

variable (p : CryptoPrimitives) (crypto : Sealer.RemoteCrypto)

/-- Encrypt an object. -/
def encrypt (o : BundleObject) : Except PushError Bytes :=
  (crypto.encryptObject p o.id o.kind o.bytes).mapError .crypto

/-- Count the objects of a batch, and encrypt those that the remote lacks. -/
def takeBatch :
    List ((BundleObject × ObjectId) × Bool) → PushState → Except PushError
      (PushState × List (Bytes × Bytes))
  | [], st => .ok (st, [])
  | ((o, _), true) :: rest, st => takeBatch rest (st.reuse o)
  | ((o, remoteId), false) :: rest, st => do
    let encrypted ← encrypt p crypto o
    let (st, uploads) ← takeBatch rest (st.upload o encrypted)
    .ok (st, (objectKey remoteId, encrypted) :: uploads)

/-- `flush_push_batch` -/
def flushPushBatch (st : PushState) : Except PushError PushState :=
  if st.pending.isEmpty then .ok st
  else do
    let remoteIds := st.pending.map fun o => crypto.remoteId p o.id
    let existing ← st.session.hasObjects remoteIds
    if existing.length ≠ st.pending.length then .error .invalidHaveResponse
    else
      let (st, uploads) ← takeBatch p crypto ((st.pending.zip remoteIds).zip existing)
        { st with pending := [], batches := st.batches ++ [st.pending] }
      let session ← st.session.writeMany uploads
      .ok { st with session := session }

/-- Push an object that is too large for a batch. -/
def pushLarge (st : PushState) (o : BundleObject) : Except PushError PushState := do
  let remoteId := crypto.remoteId p o.id
  let existing ← st.session.hasObjects [remoteId]
  if existing.headD false then .ok (st.reuse o)
  else
    let encrypted ← encrypt p crypto o
    let session ← st.session.write (objectKey remoteId) encrypted
    .ok ({ st with session := session }.upload o encrypted)

/-- Flush the batch, and begin another one. -/
def nextBatch (st : PushState) : Except PushError PushState := do
  let st ← st.flushPushBatch p crypto
  .ok { st with pendingBytes := 0 }

/-- The visitor of `push_locked`. -/
def visit (st : PushState) (o : BundleObject) : Except PushError PushState :=
  if haveBatchBytes ≤ o.bytes.length then do
    let st ← st.nextBatch p crypto
    st.pushLarge p crypto o
  else do
    let st ←
      if st.pending.length = haveBatch ∨
          haveBatchBytes < saturatingAdd st.pendingBytes o.bytes.length then
        st.nextBatch p crypto
      else .ok st
    .ok { st with
      pendingBytes := saturatingAdd st.pendingBytes o.bytes.length
      pending := st.pending ++ [o] }

end PushState

/-- Push the objects that are reached from a snapshot, and count them. -/
def pushObjects (p : CryptoPrimitives) (crypto : Sealer.RemoteCrypto) (codec : ObjectCodec)
    (store : NamedStore p.hash) (snapshot : ObjectId) (session : Session) :
    Except PushError (PushState × ℕ) := do
  let objects ← (forEachReachable codec store snapshot).mapError .walk
  let st ← objects.foldlM (PushState.visit p crypto) (PushState.new session)
  let st ← st.flushPushBatch p crypto
  .ok (st, objects.length)

/-! ## What is relied on -/

/-- What is known of the cipher: a message of an object is encrypted, and a tag of 16 bytes is
added. -/
structure Encrypts (p : CryptoPrimitives) : Prop where
  total : ∀ key nonce aad message, nonce.length = Sealer.nonceLen →
    message.length ≤ maxObjectLen + 33 → ∃ sealed, p.encrypt key nonce aad message = some sealed
  length : ∀ key nonce aad message sealed, p.encrypt key nonce aad message = some sealed →
    sealed.length = message.length + 16

/-- What is handed over for an object: its key at the remote, and its encryption. -/
structure HandedFor (p : CryptoPrimitives) (crypto : Sealer.RemoteCrypto) (o : BundleObject)
    (v : Bytes × Bytes) : Prop where
  key : v.1 = objectKey (crypto.remoteId p o.id)
  value : crypto.encryptObject p o.id o.kind o.bytes = .ok v.2

/-- A batch that may be flushed. -/
structure Legal (batch : List BundleObject) : Prop where
  count : batch.length ≤ haveBatch
  bytes : (batch.map fun o => o.bytes.length).sum ≤ haveBatchBytes

/-- An object of the store: it has the name its bytes give it, and is not too long. -/
structure Fits (p : CryptoPrimitives) (o : BundleObject) : Prop where
  named : objectId p.hash o.kind o.bytes = o.id
  small : o.bytes.length ≤ maxObjectLen

/-! ## Keys and values -/

/-- Two digits for each byte. -/
theorem length_hexEncode (bytes : Bytes) : (hexEncode bytes).length = 2 * bytes.length := by
  induction bytes with
  | nil => rfl
  | cons b bytes ih =>
    have hcons : hexEncode (b :: bytes) =
        [hexDigit (b.val / 16), hexDigit (b.val % 16)] ++ hexEncode bytes := rfl
    rw [hcons, List.length_append, ih, List.length_cons]
    simp only [List.length_cons, List.length_nil]
    omega

/-- An identifier has 64 digits. -/
theorem length_hexEncode_id (id : ObjectId) : (hexEncode id.bytes).length = 64 := by
  rw [length_hexEncode, id.length_eq]

/-- The key of an object has 73 bytes. -/
theorem length_objectKey (id : ObjectId) : (objectKey id).length = 73 := by
  have hlen := length_hexEncode_id id
  have hdir : (text "objects/").length = 8 := by decide
  simp only [objectKey, List.length_append, List.length_cons, List.length_take,
    List.length_drop, hlen, hdir]
  omega

/-- The keys of objects are valid. -/
theorem keyLimit_objectKey (id : ObjectId) : keyLimit (objectKey id) = .ok maxObjectBytes := by
  have hlen := length_hexEncode_id id
  have hkey := length_objectKey id
  have hprefix : text "objects/" <+: objectKey id := List.prefix_append _ _
  have hrefs : ¬ text "refs/" <+: objectKey id := by
    intro h
    have h5 := List.prefix_iff_eq_take.mp h
    rw [show (text "refs/").length = 5 from by decide, objectKey,
      List.take_append_of_le_length (by decide)] at h5
    exact absurd h5 (by decide)
  have hhead : ¬ (objectKey id = text "HEAD" ∨ objectKey id = text "LEASE") := by
    rintro (h | h)
    all_goals
      rw [h] at hkey
      exact absurd hkey (by decide)
  have hdrop : (objectKey id).drop (text "objects/").length =
      (hexEncode id.bytes).take 2 ++ slash :: (hexEncode id.bytes).drop 2 := List.drop_left
  have htwo : ((hexEncode id.bytes).take 2).length = 2 := by
    rw [List.length_take, hlen]
    rfl
  have hvalid : validateKey (objectKey id) = .ok () := by
    unfold validateKey
    rw [if_neg hhead, if_neg hrefs, if_pos hprefix, hdrop]
    dsimp only
    rw [if_pos]
    refine ⟨?_, ?_, ?_⟩
    · rw [List.length_append, List.length_cons, htwo, List.length_drop, hlen]
    · rw [List.getElem?_append_right (by omega), htwo]
      rfl
    · -- Apart from the slash there are only digits.
      have hdigits := List.all_eq_true.mp (isLowerHex_hexEncode id.bytes)
      rw [List.all_eq_true]
      rintro ⟨b, index⟩ hb
      rw [List.mk_mem_zipIdx_iff_getElem?] at hb
      rcases Nat.lt_trichotomy index 2 with hlt | rfl | hgt
      · rw [List.getElem?_append_left (by omega)] at hb
        have hmem := List.mem_of_mem_take (List.mem_of_getElem? hb)
        simp [hdigits b hmem]
      · rfl
      · obtain ⟨k, rfl⟩ := Nat.exists_eq_add_of_lt hgt
        rw [List.getElem?_append_right (by omega), htwo,
          show 2 + k + 1 - 2 = k + 1 by omega, List.getElem?_cons_succ] at hb
        have hmem := List.mem_of_mem_drop (List.mem_of_getElem? hb)
        simp [hdigits b hmem]
  unfold keyLimit
  rw [hvalid]
  simp only [if_pos hprefix]

section

variable {p : CryptoPrimitives} {crypto : Sealer.RemoteCrypto} {o : BundleObject}

/-- The encryption of an object has 78 bytes more: a header, a nonce, the kind, the identifier and a
tag. -/
theorem HandedFor.length (hp : Encrypts p) {v : Bytes × Bytes} (h : HandedFor p crypto o v) :
    v.2.length = o.bytes.length + 78 := by
  have hvalue := h.value
  unfold Sealer.RemoteCrypto.encryptObject at hvalue
  rw [Sealer.ensureSealed_bind_eq_ok_iff] at hvalue
  obtain ⟨-, hvalue⟩ := hvalue
  obtain ⟨ciphertext, hciphertext, heq⟩ := Sealer.RemoteCrypto.sealWith_eq_ok_iff.mp hvalue
  have hnonce : (crypto.objectNonce p o.id).length = 24 := p.keyedXof_length _ _ _
  have hlength := hp.length _ _ _ _ _ hciphertext
  rw [List.length_cons, List.length_append, o.id.length_eq] at hlength
  rw [heq, List.length_append, List.length_append,
    Sealer.RemoteCrypto.sealedMagic_length, hnonce, hlength]
  omega

/-- The key that is handed over has 73 bytes. -/
theorem HandedFor.key_length {v : Bytes × Bytes} (h : HandedFor p crypto o v) :
    v.1.length = 73 := by
  rw [h.key, length_objectKey]

/-- **Batches fit into frames**: what is uploaded of a batch, be it all of it, is encoded within the
limit. -/
theorem length_encodeWriteFrame_le (hp : Encrypts p) {batch items : List BundleObject}
    (hlegal : Legal batch) (hitems : items.Sublist batch) {values : List (Bytes × Bytes)}
    (hvalues : List.Forall₂ (HandedFor p crypto) items values) :
    (encodeWriteFrame values).length ≤ maxFrameBytes := by
  have hlen : (values.flatMap encodeWriteValue).length =
      161 * items.length + (items.map fun o => o.bytes.length).sum := by
    clear hitems
    induction hvalues with
    | nil => rfl
    | cons hv _ ih =>
      rw [List.flatMap_cons, List.length_append, ih, length_encodeWriteValue, hv.key_length,
        hv.length hp, List.length_cons, List.map_cons, List.sum_cons]
      omega
  have hcount : items.length ≤ 1024 := hitems.length_le.trans hlegal.count
  have hbytes : (items.map fun o => o.bytes.length).sum ≤ 16777216 :=
    ((hitems.map _).sum_le_sum fun _ _ => Nat.zero_le _).trans hlegal.bytes
  have hmax : maxFrameBytes = 20971520 := by decide
  rw [encodeWriteFrame, List.length_append, LittleEndian.length_bytes, hlen, hmax]
  omega

/-- An object of the store is encrypted. -/
theorem exists_encrypt (hp : Encrypts p) (crypto : Sealer.RemoteCrypto) (ho : Fits p o) :
    ∃ encrypted, PushState.encrypt p crypto o = .ok encrypted ∧
      HandedFor p crypto o (objectKey (crypto.remoteId p o.id), encrypted) := by
  have hmessage : (o.kind.toU8 :: (o.id.bytes ++ o.bytes)).length ≤ maxObjectLen + 33 := by
    have hsmall := ho.small
    rw [List.length_cons, List.length_append, o.id.length_eq]
    omega
  obtain ⟨ciphertext, hciphertext⟩ := hp.total crypto.key (crypto.objectNonce p o.id)
    (crypto.remoteId p o.id).bytes _ (p.keyedXof_length _ _ _) hmessage
  have hencrypt : crypto.encryptObject p o.id o.kind o.bytes =
      .ok (Sealer.sealedMagic ++ crypto.objectNonce p o.id ++ ciphertext) := by
    unfold Sealer.RemoteCrypto.encryptObject
    rw [Sealer.ensureSealed_bind_eq_ok_iff]
    exact ⟨ho.named, Sealer.RemoteCrypto.sealWith_eq_ok_iff.mpr ⟨ciphertext, hciphertext, rfl⟩⟩
  refine ⟨_, ?_, rfl, hencrypt⟩
  unfold PushState.encrypt
  rw [hencrypt]
  rfl

/-- Values of objects pass the checks. -/
theorem checkValue_of_handedFor (hp : Encrypts p) (ho : Fits p o) {v : Bytes × Bytes}
    (h : HandedFor p crypto o v) : ∃ limit, keyLimit v.1 = .ok limit ∧ v.2.length ≤ limit := by
  have hsmall := ho.small
  refine ⟨maxObjectBytes, by rw [h.key, keyLimit_objectKey], ?_⟩
  rw [h.length hp]
  have hmax : maxObjectBytes = maxObjectLen + 1024 := by decide
  omega

/-! ## What a step does -/

/-- What is stored is there, and what was there stays. -/
theorem isSome_get?_put (inner : SessionInner) (objects : Files) (v : Bytes × Bytes) (key : Bytes) :
    ((Session.put inner objects v).get? key).isSome =
      ((objects.get? key).isSome || decide (key = v.1)) := by
  unfold Session.put
  split_ifs with hkept
  · by_cases hkey : key = v.1
    · rw [hkey, hkept.2]
      rfl
    · simp [hkey]
  · rw [OrdMap.get?_insert]
    split_ifs with hkey <;> simp [hkey]

/-- What is stored is there, and what was there stays. -/
theorem Session.isSome_get?_store (s : Session) (values : List (Bytes × Bytes)) (key : Bytes) :
    ((s.store values).objects.get? key).isSome ↔
      (s.objects.get? key).isSome ∨ ∃ v ∈ values, v.1 = key := by
  have hfold : ∀ (values : List (Bytes × Bytes)) (objects : Files),
      ((values.foldl (Session.put s.inner) objects).get? key).isSome ↔
        (objects.get? key).isSome ∨ ∃ v ∈ values, v.1 = key := by
    intro values
    induction values with
    | nil => simp
    | cons v values ih =>
      intro objects
      rw [List.foldl_cons, ih, isSome_get?_put, Bool.or_eq_true, decide_eq_true_eq,
        List.exists_mem_cons_iff, or_assoc, @eq_comm _ key v.1]
  exact hfold values s.objects

/-- A write of an object stores it. -/
theorem Session.write_eq_store {s : Session} (hwriter : s.writer = true) {key bytes : Bytes}
    {limit : ℕ} (hlimit : keyLimit key = .ok limit) (hlen : bytes.length ≤ limit) :
    s.write key bytes = .ok (s.store [(key, bytes)]) := by
  unfold Session.write
  rw [checkValue_eq_ok_iff.mpr ⟨limit, hlimit, hlen⟩]
  exact if_pos hwriter

/-- A write of a batch stores its objects. -/
theorem Session.writeMany_eq_store {s : Session} (hwriter : s.writer = true)
    {values : List (Bytes × Bytes)}
    (hvalues : ∀ v ∈ values, ∃ limit, keyLimit v.1 = .ok limit ∧ v.2.length ≤ limit)
    (hframe : (encodeWriteFrame values).length ≤ maxFrameBytes) :
    s.writeMany values = .ok (s.store values) := by
  unfold Session.writeMany
  rw [checkValues_eq_ok_iff.mpr hvalues]
  dsimp only
  rw [if_neg fun h => absurd h.2 (by omega), if_pos hwriter]

/-- A batch is asked for at once. -/
theorem Session.hasObjects_eq {s : Session} {ids : List ObjectId} (h : ids.length ≤ maxHaveBatch) :
    s.hasObjects ids = .ok (ids.map fun id => (s.objects.get? (objectKey id)).isSome) := if_pos h

namespace PushState

/-- The counts after a batch of which some objects were there and the others were encrypted. -/
def counted (st : PushState) (missing there : List BundleObject) (uploads : List (Bytes × Bytes)) :
    PushState :=
  { st with
    uploadedObjects := st.uploadedObjects + missing.length
    reusedObjects := st.reusedObjects + there.length
    uploadedBytes := st.uploadedBytes + (uploads.map fun v => v.2.length).sum
    uploaded := st.uploaded ++ missing.map BundleObject.id
    reused := st.reused ++ there.map BundleObject.id }

/-- A batch with the identifiers and the answers for its objects. -/
theorem zip_zip_map {α β γ : Type} (f : α → β) (g : α → γ) (l : List α) :
    (l.zip (l.map f)).zip (l.map g) = l.map fun a => ((a, f a), g a) := by
  induction l with
  | nil => rfl
  | cons a l ih => simp [ih]

/-- The objects of a batch are counted, and those that are not there are encrypted. -/
theorem takeBatch_spec (hp : Encrypts p) (crypto : Sealer.RemoteCrypto) (has : BundleObject → Bool)
    {os : List BundleObject} (hfits : ∀ o ∈ os, Fits p o) (st : PushState) :
    ∃ uploads, takeBatch p crypto (os.map fun o => ((o, crypto.remoteId p o.id), has o)) st =
        .ok (st.counted (os.filter fun o => !has o) (os.filter has) uploads, uploads) ∧
      List.Forall₂ (HandedFor p crypto) (os.filter fun o => !has o) uploads := by
  induction os generalizing st with
  | nil => exact ⟨[], by simp [takeBatch, counted], .nil⟩
  | cons o os ih =>
    have hrest := fun x hx => hfits x (List.mem_cons_of_mem o hx)
    cases hhas : has o with
    | true =>
      obtain ⟨uploads, hok, hhanded⟩ := ih hrest (st.reuse o)
      refine ⟨uploads, ?_, by simpa [hhas] using hhanded⟩
      rw [List.map_cons, hhas, takeBatch, hok]
      simp [hhas, reuse, counted, Nat.add_assoc, Nat.add_comm 1]
    | false =>
      obtain ⟨encrypted, hencrypted, ho⟩ := exists_encrypt hp crypto (hfits o List.mem_cons_self)
      obtain ⟨uploads, hok, hhanded⟩ := ih hrest (st.upload o encrypted)
      refine ⟨(objectKey (crypto.remoteId p o.id), encrypted) :: uploads, ?_,
        by simpa [hhas] using ⟨ho, hhanded⟩⟩
      rw [List.map_cons, hhas, takeBatch, hencrypted]
      simp only [bind, Except.bind, hok]
      simp [hhas, upload, counted, Nat.add_assoc, Nat.add_comm 1]

/-- **What holds between two visits**: every object that was visited is uploaded, reused or
waits. -/
structure Inv (p : CryptoPrimitives) (crypto : Sealer.RemoteCrypto) (start : Session)
    (visited : List BundleObject) (st : PushState) : Prop where
  covered : (st.uploaded ++ st.reused ++ st.pending.map BundleObject.id).Perm
    (visited.map BundleObject.id)
  uploadedObjects : st.uploadedObjects = st.uploaded.length
  reusedObjects : st.reusedObjects = st.reused.length
  handed : ∃ os values, os ⊆ visited ∧ st.uploaded = os.map BundleObject.id ∧
    st.session.handed = start.handed ++ values ∧ List.Forall₂ (HandedFor p crypto) os values ∧
    st.uploadedBytes = (values.map fun v => v.2.length).sum
  present : ∀ id ∈ st.uploaded ++ st.reused,
    (st.session.objects.get? (objectKey (crypto.remoteId p id))).isSome
  writer : st.session.writer = true
  waiting : st.pending ⊆ visited
  legal : Legal st.pending
  batches : ∀ batch ∈ st.batches, Legal batch

variable {start : Session} {visited : List BundleObject} {st : PushState}

/-- The empty batch may be flushed. -/
theorem legal_nil : Legal [] := ⟨Nat.zero_le _, Nat.zero_le _⟩

/-- **Flushing a batch**: all that waited is uploaded or reused. -/
theorem Inv.flush (hp : Encrypts p) (hfits : ∀ o ∈ visited, Fits p o)
    (h : st.Inv p crypto start visited) :
    ∃ st', st.flushPushBatch p crypto = .ok st' ∧ st'.Inv p crypto start visited ∧
    st'.pending = [] ∧
      st'.pendingBytes = st.pendingBytes := by
  unfold flushPushBatch
  by_cases hempty : st.pending = []
  · exact ⟨st, by rw [if_pos (List.isEmpty_iff.mpr hempty)], h, hempty, rfl⟩
  rw [if_neg fun hc => hempty (List.isEmpty_iff.mp hc)]
  let has : BundleObject → Bool := fun o =>
    (st.session.objects.get? (objectKey (crypto.remoteId p o.id))).isSome
  have hwaiting : ∀ o ∈ st.pending, Fits p o := fun o ho => hfits o (h.waiting ho)
  have hcount : (st.pending.map fun o => crypto.remoteId p o.id).length ≤ maxHaveBatch := by
    have hlegal := h.legal.count
    have hmax : haveBatch ≤ maxHaveBatch := by decide
    rw [List.length_map]
    omega
  obtain ⟨uploads, htake, hhanded⟩ := takeBatch_spec hp crypto has hwaiting
    { st with pending := [], batches := st.batches ++ [st.pending] }
  have hframe : (encodeWriteFrame uploads).length ≤ maxFrameBytes :=
    length_encodeWriteFrame_le hp h.legal List.filter_sublist hhanded
  have hchecks : ∀ v ∈ uploads, ∃ limit, keyLimit v.1 = .ok limit ∧ v.2.length ≤ limit := by
    intro v hv
    obtain ⟨o, ho, hov⟩ := Fallible.exists_left_of_forall₂ hhanded hv
    exact checkValue_of_handedFor hp (hwaiting o (List.mem_of_mem_filter ho)) hov
  have hwrite := Session.writeMany_eq_store h.writer hchecks hframe
  have hhave : st.session.hasObjects (st.pending.map fun o => crypto.remoteId p o.id) =
      .ok (st.pending.map has) := by
    rw [Session.hasObjects_eq hcount, List.map_map]
    rfl
  refine ⟨{ st.counted (st.pending.filter fun o => !has o) (st.pending.filter has) uploads with
    session := st.session.store uploads
    pending := []
    batches := st.batches ++ [st.pending] }, ?_, ?_, rfl, rfl⟩
  · simp only [hhave, bind, Except.bind]
    rw [if_neg (by simp), zip_zip_map, htake]
    simp only [hwrite, counted]
  · obtain ⟨os, values, hsub, huploaded, hhandedBefore, hvalues, hbytes⟩ := h.handed
    constructor
    · have hsplit := ((List.filter_append_perm has st.pending).map BundleObject.id).symm
      refine List.Perm.trans ?_ h.covered
      rw [List.perm_iff_count] at hsplit ⊢
      intro id
      have hid := hsplit id
      simp only [counted, List.map_append, List.count_append, List.map_nil, List.count_nil] at hid ⊢
      omega
    · simp [counted, h.uploadedObjects]
    · simp [counted, h.reusedObjects]
    · refine ⟨os ++ st.pending.filter fun o => !has o, values ++ uploads, ?_, ?_, ?_, ?_, ?_⟩
      · exact List.append_subset.mpr
          ⟨hsub, fun o ho => h.waiting (List.mem_of_mem_filter ho)⟩
      · simp [counted, huploaded]
      · simp [Session.store, hhandedBefore]
      · exact List.rel_append hvalues hhanded
      · simp [counted, hbytes]
    · intro id hid
      rw [Session.isSome_get?_store]
      simp only [counted, List.mem_append] at hid
      rcases hid with (hid | hid) | hid | hid
      · exact Or.inl (h.present id (List.mem_append_left _ hid))
      · obtain ⟨o, ho, rfl⟩ := List.mem_map.mp hid
        obtain ⟨v, hv, hov⟩ := Fallible.exists_right_of_forall₂ hhanded ho
        exact Or.inr ⟨v, hv, hov.key⟩
      · exact Or.inl (h.present id (List.mem_append_right _ hid))
      · obtain ⟨o, ho, rfl⟩ := List.mem_map.mp hid
        exact Or.inl (List.mem_filter.mp ho).2
    · exact h.writer
    · simp
    · exact legal_nil
    · intro batch hbatch
      rcases List.mem_append.mp hbatch with hbatch | hbatch
      · exact h.batches batch hbatch
      · rw [List.mem_singleton.mp hbatch]
        exact h.legal

/-- One more object that is visited and waits. -/
theorem Inv.wait (h : st.Inv p crypto start visited) {o : BundleObject}
    (hlegal : Legal (st.pending ++ [o])) (bytes : ℕ) :
    { st with pendingBytes := bytes, pending := st.pending ++ [o] }.Inv p crypto start
      (visited ++ [o]) := by
  obtain ⟨os, values, hsub, hrest⟩ := h.handed
  exact
    { covered := by
        simp only [List.map_append, List.map_singleton, ← List.append_assoc]
        exact h.covered.append_right [o.id]
      uploadedObjects := h.uploadedObjects
      reusedObjects := h.reusedObjects
      handed := ⟨os, values, List.subset_append_of_subset_left _ hsub, hrest⟩
      present := h.present
      writer := h.writer
      waiting := by
        intro x hx
        rcases List.mem_append.mp hx with hx | hx
        · exact List.mem_append_left _ (h.waiting hx)
        · exact List.mem_append_right _ hx
      legal := hlegal
      batches := h.batches }

/-- A large object is uploaded or reused when nothing waits. -/
theorem Inv.pushLarge (hp : Encrypts p) (h : st.Inv p crypto start visited)
    (hempty : st.pending = []) {o : BundleObject} (ho : Fits p o) :
    ∃ st', st.pushLarge p crypto o = .ok st' ∧ st'.Inv p crypto start (visited ++ [o]) ∧
      st'.pending = [] ∧ st'.pendingBytes = st.pendingBytes := by
  obtain ⟨os, values, hsub, huploaded, hhanded, hvalues, hbytes⟩ := h.handed
  have hhave : st.session.hasObjects [crypto.remoteId p o.id] =
      .ok [(st.session.objects.get? (objectKey (crypto.remoteId p o.id))).isSome] :=
    Session.hasObjects_eq (by simp [maxHaveBatch])
  have hcovered := h.covered
  rw [hempty, List.map_nil, List.append_nil, List.perm_iff_count] at hcovered
  unfold PushState.pushLarge
  cases hhas : (st.session.objects.get? (objectKey (crypto.remoteId p o.id))).isSome with
  | true =>
    rw [hhas] at hhave
    simp only [hhave, bind, Except.bind, List.headD_cons, if_true]
    refine ⟨st.reuse o, rfl, ?_, hempty, rfl⟩
    exact
      { covered := by
          rw [List.perm_iff_count]
          intro id
          have hid := hcovered id
          simp only [reuse, hempty, List.map_nil, List.map_append, List.map_singleton,
            List.count_append, List.count_nil] at hid ⊢
          omega
        uploadedObjects := h.uploadedObjects
        reusedObjects := by simp [reuse, h.reusedObjects]
        handed :=
          ⟨os, values, List.subset_append_of_subset_left _ hsub, huploaded,
            hhanded, hvalues, hbytes⟩
        present := by
          intro id hid
          simp only [reuse, List.mem_append, List.mem_singleton] at hid
          rcases hid with hid | hid | rfl
          · exact h.present id (List.mem_append_left _ hid)
          · exact h.present id (List.mem_append_right _ hid)
          · exact hhas
        writer := h.writer
        waiting := by simp [reuse, hempty]
        legal := h.legal
        batches := h.batches }
  | false =>
    obtain ⟨encrypted, hencrypted, hfor⟩ := exists_encrypt hp crypto ho
    obtain ⟨limit, hlimit, hlen⟩ := checkValue_of_handedFor hp ho hfor
    rw [hhas] at hhave
    simp only [hhave, bind, Except.bind, List.headD_cons, Bool.false_eq_true, if_false, hencrypted,
      Session.write_eq_store h.writer hlimit hlen]
    refine ⟨_, rfl, ?_, hempty, rfl⟩
    exact
      { covered := by
          rw [List.perm_iff_count]
          intro id
          have hid := hcovered id
          simp only [upload, hempty, List.map_nil, List.map_append, List.map_singleton,
            List.count_append, List.count_nil] at hid ⊢
          omega
        uploadedObjects := by simp [upload, h.uploadedObjects]
        reusedObjects := h.reusedObjects
        handed := by
          refine ⟨os ++ [o],
            values ++ [(objectKey (crypto.remoteId p o.id), encrypted)], ?_, ?_, ?_, ?_, ?_⟩
          · exact List.append_subset.mpr ⟨List.subset_append_of_subset_left _ hsub,
              List.subset_append_right _ _⟩
          · simp [upload, huploaded]
          · simp [upload, Session.store, hhanded]
          · exact List.rel_append hvalues (.cons hfor .nil)
          · simp [upload, hbytes]
        present := by
          intro id hid
          simp only [upload, List.mem_append, List.mem_singleton] at hid
          refine (Session.isSome_get?_store _ _ _).mpr ?_
          rcases hid with (hid | rfl) | hid
          · exact Or.inl (h.present id (List.mem_append_left _ hid))
          · exact Or.inr ⟨_, List.mem_singleton_self _, rfl⟩
          · exact Or.inl (h.present id (List.mem_append_right _ hid))
        writer := h.writer
        waiting := by simp [upload, hempty]
        legal := h.legal
        batches := h.batches }

/-- The bytes of a batch do not saturate. -/
theorem saturatingAdd_eq {a b : ℕ} (ha : a ≤ haveBatchBytes) (hb : b ≤ haveBatchBytes) :
    saturatingAdd a b = a + b := by
  have hmax : haveBatchBytes = 16777216 := rfl
  unfold saturatingAdd
  omega

/-- The bytes that wait, as they are counted. -/
def Counted (st : PushState) : Prop :=
  st.pendingBytes = (st.pending.map fun o => o.bytes.length).sum

/-- **A visit.** -/
theorem Inv.visit (hp : Encrypts p) (hfits : ∀ o ∈ visited, Fits p o)
    (h : st.Inv p crypto start visited) (hcounted : st.Counted) {o : BundleObject} (ho : Fits p o) :
    ∃ st', st.visit p crypto o = .ok st' ∧ st'.Inv p crypto start
      (visited ++ [o]) ∧ st'.Counted := by
  obtain ⟨flushed, hflush, hinv, hempty, -⟩ := h.flush hp hfits
  have hnext : st.nextBatch p crypto = .ok { flushed with pendingBytes := 0 } := by
    unfold nextBatch
    rw [hflush]
    rfl
  -- The count of the bytes takes no part in the invariant.
  have hinv' : { flushed with pendingBytes := 0 }.Inv p crypto start visited := { hinv with }
  unfold PushState.visit
  by_cases hlarge : haveBatchBytes ≤ o.bytes.length
  · rw [if_pos hlarge, hnext]
    obtain ⟨st', hok, hst', hnone, hzero⟩ := hinv'.pushLarge hp hempty ho
    refine ⟨st', hok, hst', ?_⟩
    rw [Counted, hnone, hzero]
    rfl
  rw [if_neg hlarge]
  by_cases hfull : st.pending.length = haveBatch ∨
      haveBatchBytes < saturatingAdd st.pendingBytes o.bytes.length
  · rw [if_pos hfull, hnext]
    refine ⟨_, rfl, hinv'.wait ?_ _, ?_⟩
    · rw [hempty]
      refine ⟨by simp [haveBatch], ?_⟩
      simpa using (not_le.mp hlarge).le
    · rw [Counted, hempty]
      simpa using saturatingAdd_eq (Nat.zero_le _) (not_le.mp hlarge).le
  · rw [if_neg hfull]
    obtain ⟨hcount, hbytes⟩ := not_or.mp hfull
    have hsum : st.pendingBytes ≤ haveBatchBytes := by
      rw [hcounted]
      exact h.legal.bytes
    have hadd := saturatingAdd_eq hsum (not_le.mp hlarge).le
    rw [hadd] at hbytes
    have hlegal := h.legal.count
    refine ⟨_, rfl, h.wait ⟨?_, ?_⟩ _, ?_⟩
    · rw [List.length_append, List.length_singleton]
      omega
    · rw [List.map_append, List.sum_append, List.map_singleton, List.sum_singleton, ← hcounted]
      omega
    · rw [Counted, List.map_append, List.sum_append, List.map_singleton,
        List.sum_singleton, ← hcounted, hadd]

/-- All visits, one after the other. -/
theorem Inv.visits (hp : Encrypts p) {os : List BundleObject} (hos : ∀ o ∈ os, Fits p o)
    (hfits : ∀ o ∈ visited, Fits p o) (h : st.Inv p crypto start visited) (hcounted : st.Counted) :
    ∃ st', os.foldlM (PushState.visit p crypto) st = .ok st' ∧
      st'.Inv p crypto start (visited ++ os) := by
  induction os generalizing st visited with
  | nil => exact ⟨st, rfl, by rwa [List.append_nil]⟩
  | cons o os ih =>
    obtain ⟨ho, hrest⟩ := List.forall_mem_cons.mp hos
    obtain ⟨mid, hmid, hinv, hcounted'⟩ := h.visit hp hfits hcounted ho
    have hfits' : ∀ x ∈ visited ++ [o], Fits p x := by
      intro x hx
      rcases List.mem_append.mp hx with hx | hx
      · exact hfits x hx
      · rwa [List.mem_singleton.mp hx]
    obtain ⟨st', hst', hlast⟩ := ih hrest hfits' hinv hcounted'
    refine ⟨st', ?_, by simpa using hlast⟩
    rw [List.foldlM_cons, hmid]
    exact hst'

/-- The invariant holds of a push that begins. -/
theorem inv_new (p : CryptoPrimitives) (crypto : Sealer.RemoteCrypto) {session : Session}
    (hwriter : session.writer = true) : (new session).Inv p crypto session [] where
  covered := .nil
  uploadedObjects := rfl
  reusedObjects := rfl
  handed := ⟨[], [], List.nil_subset _, rfl, (List.append_nil _).symm, .nil, rfl⟩
  present := by simp [new]
  writer := hwriter
  waiting := List.nil_subset _
  legal := legal_nil
  batches := by simp [new]

end PushState

/-- **A push covers the snapshot**: of a snapshot that is complete, every object is uploaded once or
counted as reused once, and no other; the remote gets exactly the encryptions of those that are
uploaded, and has all objects in the end.  Every batch is legal, and fits into a frame whatever part
of it is uploaded. -/
theorem pushObjects_covers (hp : Encrypts p) (crypto : Sealer.RemoteCrypto) (codec : ObjectCodec)
    (store : NamedStore p.hash) (snapshot : ObjectId)
    (hcomplete : Complete codec store.objects snapshot) (session : Session)
    (hwriter : session.writer = true) :
    ∃ st count, pushObjects p crypto codec store snapshot session = .ok (st, count) ∧
      (st.uploaded ++ st.reused).Nodup ∧
      (∀ id, id ∈ st.uploaded ++ st.reused ↔ Closure codec store.objects snapshot id) ∧
      st.uploadedObjects = st.uploaded.length ∧ st.reusedObjects = st.reused.length ∧
      count = st.uploadedObjects + st.reusedObjects ∧
      (∃ os values, st.uploaded = os.map BundleObject.id ∧
        (∀ o ∈ os, store.objects.get? o.id = some (o.kind, o.bytes)) ∧
        st.session.handed = session.handed ++ values ∧ List.Forall₂
          (HandedFor p crypto) os values) ∧
      (∀ id, Closure codec store.objects snapshot id →
        (st.session.objects.get? (objectKey (crypto.remoteId p id))).isSome) ∧
      ∀ batch ∈ st.batches, batch.length ≤ haveBatch ∧
        ∀ items values, List.Sublist items batch → List.Forall₂ (HandedFor p crypto) items values →
          (encodeWriteFrame values).length ≤ maxFrameBytes := by
  obtain ⟨os, hos, htoured⟩ := forEachReachable_spec hcomplete
  have hfits : ∀ o ∈ os, Fits p o := by
    intro o ho
    obtain ⟨hnamed, hsmall⟩ := store.named _ _ _ (htoured.stored o ho)
    exact ⟨hnamed, hsmall⟩
  obtain ⟨mid, hmid, hinv⟩ := (PushState.inv_new p crypto hwriter).visits hp hfits (by simp) rfl
  obtain ⟨st, hst, hlast, hempty, -⟩ := hinv.flush hp (by simpa using hfits)
  rw [List.nil_append] at hlast
  have hcovered := hlast.covered
  rw [hempty, List.map_nil, List.append_nil] at hcovered
  have hiff : ∀ id, id ∈ st.uploaded ++ st.reused ↔ Closure codec store.objects snapshot id := by
    intro id
    rw [hcovered.mem_iff, htoured.closure_iff]
  obtain ⟨sent, values, hsub, huploaded, hhanded, hvalues, -⟩ := hlast.handed
  refine ⟨st, os.length, ?_, hcovered.nodup_iff.mpr htoured.nodup, hiff, hlast.uploadedObjects,
    hlast.reusedObjects, ?_, ?_, ?_, ?_⟩
  · unfold pushObjects
    rw [hos]
    simp only [Except.mapError, bind, Except.bind, hmid, hst]
  · have hlen := hcovered.length_eq
    rw [List.length_append, List.length_map] at hlen
    rw [hlast.uploadedObjects, hlast.reusedObjects, hlen]
  · exact ⟨sent, values, huploaded, fun o ho => htoured.stored o (hsub ho), hhanded, hvalues⟩
  · exact fun id hid => hlast.present id ((hiff id).mpr hid)
  · intro batch hbatch
    have hlegal := hlast.batches batch hbatch
    exact ⟨hlegal.count, fun items values hitems hvalues =>
      length_encodeWriteFrame_le hp hlegal hitems hvalues⟩

end

/-! ### The snapshot of two files -/

/-- The identifiers of the objects at the remote, under the key of 32 times 7. -/
def pushRemoteIds : List (ObjectId × ObjectId) :=
  [(sharedSnapshotId, ⟨
    [246, 36, 156, 224, 193, 72, 181, 120, 15, 251, 244, 72, 190, 111, 194, 34, 20, 129, 74, 220,
     132, 199, 85, 215, 232, 217, 42, 81, 158, 17, 223, 117], rfl⟩),
  (sharedTreeId, ⟨
    [124, 40, 41, 249, 85, 125, 175, 201, 127, 2, 179, 212, 4, 169, 68, 185, 227, 132, 1, 102,
     143, 169, 104, 169, 162, 233, 133, 73, 189, 106, 95, 48], rfl⟩),
  (sharedTwiceId, ⟨
    [202, 175, 84, 108, 199, 135, 63, 12, 86, 43, 131, 220, 58, 113, 36, 168, 2, 105, 223, 146,
     16, 64, 75, 184, 139, 238, 158, 33, 125, 180, 128, 88], rfl⟩),
  (sharedOnceId, ⟨
    [99, 54, 135, 75, 96, 129, 34, 80, 0, 101, 170, 58, 12, 147, 169, 67, 254, 24, 249, 108, 146,
     49, 177, 53, 139, 65, 84, 59, 255, 150, 106, 47], rfl⟩),
  (sharedChunkId, ⟨
    [217, 105, 170, 39, 2, 53, 186, 97, 166, 231, 76, 60, 0, 12, 70, 84, 249, 36, 90, 196, 65,
     192, 12, 11, 21, 148, 128, 168, 229, 136, 154, 46], rfl⟩)]

/-- The identifier that this message gives. -/
def pushRemoteId (message : Bytes) : ObjectId :=
  ((pushRemoteIds.find? fun ids =>
    message = text "furrow:remote-id:v1" ++ [0] ++ ids.1.bytes).map Prod.snd).getD (.fill 0)

/-- What is encrypted for an object that is uploaded. -/
structure PushSeal where
  id : ObjectId
  nonce : Bytes
  aad : ObjectId
  plaintext : Bytes
  ciphertext : Bytes
  nonce_length : nonce.length = 24
  ciphertext_length : ciphertext.length = plaintext.length + 16

/-- The nonce of the file that has the chunk once. -/
def onceNonce : Bytes :=
    [99, 11, 206, 54, 190, 162, 155, 191, 130, 6, 191, 80, 243, 139, 117, 40, 132, 32, 20, 215,
     176, 83, 55, 46]

/-- The encryption of the file that has the chunk once. -/
def onceCiphertext : Bytes :=
    [242, 38, 48, 42, 92, 209, 129, 108, 114, 69, 209, 39, 213, 108, 84, 216, 234, 200, 164, 8,
     64, 223, 41, 242, 26, 187, 213, 171, 201, 160, 80, 26, 72, 83, 162, 35, 185, 221, 202, 154,
     166, 133, 27, 7, 170, 75, 78, 120, 104, 88, 211, 13, 29, 32, 55, 203, 244, 109, 207, 166,
     181, 250, 107, 22, 86, 154, 249, 172, 41, 155, 144, 168, 150, 185, 62, 183, 165, 164, 249,
     120, 172, 151, 1, 77, 18, 76, 133, 21, 121, 56, 241, 12, 212, 50, 130, 182, 252, 111, 65,
     228, 242, 73, 182, 10, 67, 240, 146, 26, 252, 20, 240, 187, 38, 222, 203, 180, 55, 173, 120,
     131, 200, 33, 76, 160, 199, 162, 45, 14, 46, 214, 106, 187, 176, 166, 167, 139, 33, 112, 201,
     84, 226, 116, 46, 47, 214, 60, 183, 34, 46, 45, 43, 0, 171, 195, 243, 209, 190, 32, 208, 139,
     24, 219, 126, 27, 56, 166, 202, 179, 194, 155, 127, 120, 140, 16, 186, 230, 120, 56, 85, 220,
     249, 3, 241, 112, 177, 58, 193, 145, 79, 22, 211, 1, 48, 152, 94, 202, 23, 186, 161, 204,
     157, 2, 72, 19, 68]

/-- The file that has the chunk once. -/
def onceSeal : PushSeal where
  id := sharedOnceId
  nonce := onceNonce
  aad := pushRemoteId (text "furrow:remote-id:v1" ++ [0] ++ sharedOnceId.bytes)
  plaintext := 2 :: (sharedOnceId.bytes ++ sharedOnceBytes)
  ciphertext := onceCiphertext
  nonce_length := by decide
  ciphertext_length := by decide +kernel

/-- The nonce of the chunk. -/
def chunkNonce : Bytes :=
    [111, 227, 79, 112, 102, 131, 123, 196, 210, 234, 103, 131, 249, 98, 218, 151, 212, 136, 146,
     224, 160, 248, 1, 64]

/-- The encryption of the chunk. -/
def chunkCiphertext : Bytes :=
    [231, 74, 234, 7, 75, 203, 139, 79, 206, 2, 19, 38, 156, 155, 228, 226, 56, 229, 43, 247, 185,
     47, 127, 213, 128, 133, 183, 210, 16, 43, 237, 225, 0, 36, 168, 39, 81, 178, 125, 222, 88, 7,
     217, 60, 131, 141, 226, 53, 97, 129]

/-- The chunk of both files. -/
def chunkSeal : PushSeal where
  id := sharedChunkId
  nonce := chunkNonce
  aad := pushRemoteId (text "furrow:remote-id:v1" ++ [0] ++ sharedChunkId.bytes)
  plaintext := 1 :: (sharedChunkId.bytes ++ sharedChunkBytes)
  ciphertext := chunkCiphertext
  nonce_length := by decide
  ciphertext_length := by decide

/-- What is encrypted. -/
def pushSeals : List PushSeal := [onceSeal, chunkSeal]

/-- The nonce that this message gives. -/
def pushNonce (message : Bytes) : Bytes :=
  ((pushSeals.find? fun s =>
    message = text "furrow:object-nonce:v1" ++ [0] ++ s.id.bytes).map PushSeal.nonce).getD
      (List.replicate 24 0)

/-- Functions that do for the five objects what the libraries do, and for all else something
simple. -/
def pushPrimitives : CryptoPrimitives where
  hash := sharedHash
  keyedXof _ message n :=
    if n = 32 then (pushRemoteId message).bytes
    else if n = 24 then pushNonce message else List.replicate n 0
  encrypt _ nonce aad message :=
    some (((pushSeals.find? fun s =>
      nonce = s.nonce ∧ aad = s.aad.bytes ∧ message = s.plaintext).map PushSeal.ciphertext).getD
        (message ++ List.replicate 16 0))
  decrypt _ nonce aad sealed :=
    some (((pushSeals.find? fun s =>
      nonce = s.nonce ∧ aad = s.aad.bytes ∧ sealed = s.ciphertext).map PushSeal.plaintext).getD
        (sealed.take (sealed.length - 16)))
  keyedXof_length _ message n := by
    split_ifs with hid hnonce
    · rw [hid]
      exact (pushRemoteId message).length_eq
    · rw [hnonce, pushNonce]
      cases hfind : pushSeals.find? _ with
      | none => exact List.length_replicate
      | some s => exact s.nonce_length
    · exact List.length_replicate

/-- The functions of the sample encrypt. -/
theorem encrypts_pushPrimitives : Encrypts pushPrimitives where
  total _ _ _ _ _ _ := ⟨_, rfl⟩
  length key nonce aad message sealed h := by
    rw [← Option.some.inj h]
    cases hfind : pushSeals.find? fun s =>
        nonce = s.nonce ∧ aad = s.aad.bytes ∧ message = s.plaintext with
    | none =>
      rw [Option.map_none, Option.getD_none, List.length_append, List.length_replicate]
    | some s =>
      have hs := List.find?_some hfind
      rw [decide_eq_true_eq] at hs
      rw [Option.map_some, Option.getD_some, hs.2.2]
      exact s.ciphertext_length

/-- A remote over ssh that has the snapshot, its tree and one of the two files. -/
def pushSession : Session :=
  ⟨.ssh, true, [sharedSnapshotId, sharedTreeId, sharedTwiceId].foldl
    (fun objects id => objects.insert (objectKey ((Sealer.RemoteCrypto.mk (.fill 7)).remoteId
      pushPrimitives id)) []) OrdMap.empty, []⟩

/-- The chunk is an object of the snapshot. -/
theorem reach_sharedChunk :
    Closure sharedCodec sharedObjects sharedSnapshotId sharedChunkId := by
  have htree : Refers sharedCodec sharedObjects sharedSnapshotId sharedTreeId :=
    ⟨.Snapshot, sharedSnapshotBytes, [(sharedTreeId, .Tree)], by decide +kernel, by decide +kernel,
      by simp⟩
  have hfile : Refers sharedCodec sharedObjects sharedTreeId sharedTwiceId :=
    ⟨.Tree, sharedTreeBytes, [(sharedOnceId, .Blob), (sharedTwiceId, .Blob)], by decide +kernel,
      by decide +kernel, by simp⟩
  have hchunk : Refers sharedCodec sharedObjects sharedTwiceId sharedChunkId :=
    ⟨.Blob, sharedTwiceBytes, [(sharedChunkId, .Chunk), (sharedChunkId, .Chunk)], by decide +kernel,
      by decide +kernel, by simp⟩
  exact .step (.step (.step .root (Set.mem_univ _) htree) (Set.mem_univ _) hfile) (Set.mem_univ _)
    hchunk

/-- The five objects are pushed: each is uploaded or reused. -/
theorem pushObjects_covers_shared :
    ∃ st count, pushObjects pushPrimitives ⟨.fill 7⟩ sharedCodec sharedStore sharedSnapshotId
        pushSession = .ok (st, count) ∧
      sharedChunkId ∈ st.uploaded ++ st.reused ∧
      (st.session.objects.get?
        (objectKey ((Sealer.RemoteCrypto.mk (.fill 7)).remoteId pushPrimitives
        sharedChunkId))).isSome := by
  obtain ⟨st, count, hok, -, hiff, -, -, -, -, hpresent, -⟩ :=
    pushObjects_covers encrypts_pushPrimitives ⟨.fill 7⟩ sharedCodec sharedStore sharedSnapshotId
      complete_sharedObjects pushSession rfl
  exact ⟨st, count, hok, (hiff _).mpr reach_sharedChunk, hpresent _ reach_sharedChunk⟩

end Batches

end Furrow
