import Furrow.ContentClass
import Furrow.Pack.Record

set_option relaxedAutoImplicit false
set_option autoImplicit false

/-!
# Sealed objects

`sealer.rs` over `remote_crypto.rs`: what is stored at a remote for an object is a frame with a
nonce and the encryption of its kind, its identifier and its bytes, authenticated together with the
identifier that the remote knows it by.  Chunks are sealed under a key of their own, so that equal
chunks of one identity are stored once; the objects of the structure are sealed under the key of the
cell.

The hash functions and the cipher are parameters.  Of the cipher it is assumed that it seals what is
not too long, opens what it sealed, and opens nothing that it did not seal under the same key, nonce
and associated data.

## Main definitions

* `Furrow.Sealer.CryptoPrimitives`, `Furrow.Sealer.CryptoPrimitives.Authentic` — the hash functions
  and the cipher.
* `Furrow.Sealer.RemoteCrypto.sealWith`, `Furrow.Sealer.RemoteCrypto.openWith` — the frames.
* `Furrow.Sealer.CellSealer.sealObject`, `Furrow.Sealer.CellSealer.openObject` — the objects of an
  identity.

## Main results

* `Furrow.Sealer.RemoteCrypto.openWith_eq_ok_iff` — exactly the frames of an object are opened as
  it.
* `Furrow.Sealer.CellSealer.openObject_iff_sealObject` — opening is the inverse of sealing.
* `Furrow.Sealer.RemoteCrypto.exists_encryptHead` — heads are encrypted, and read again.
* `Furrow.Sealer.CellSealer.sealObject_openObject` — every object is sealed and opened again, and
  what is opened is bound to its identifier.
-/

namespace Furrow

namespace Sealer

/-- A key: `[u8; 32]`, as an identifier is. -/
abbrev CryptoKey := ObjectId

/-- The functions of the libraries: `blake3::hash`, the keyed hash with output of any length, and
the cipher with nonce and associated data. -/
structure CryptoPrimitives where
  hash : Bytes → ObjectId
  keyedXof : CryptoKey → Bytes → ℕ → Bytes
  encrypt : CryptoKey → Bytes → Bytes → Bytes → Option Bytes
  decrypt : CryptoKey → Bytes → Bytes → Bytes → Option Bytes
  /-- The keyed hash fills its output. -/
  keyedXof_length : ∀ key message n, (keyedXof key message n).length = n

namespace CryptoPrimitives

/-- The cipher seals messages of less than 2³² - 1 blocks of 64 bytes. -/
def messageLimit : ℕ := (2 ^ 32 - 1) * 64

/-- What is known of the cipher: what is not too long is sealed, a tag of 16 bytes is added, what
was sealed is opened, and only that. -/
structure Authentic (p : CryptoPrimitives) : Prop where
  seals : ∀ key nonce aad message, nonce.length = 24 → aad.length < messageLimit →
    message.length < messageLimit → ∃ sealed, p.encrypt key nonce aad message = some sealed
  length : ∀ key nonce aad message sealed, p.encrypt key nonce aad message = some sealed →
    sealed.length = message.length + 16
  opens : ∀ key nonce aad message sealed, p.encrypt key nonce aad message = some sealed →
    p.decrypt key nonce aad sealed = some message
  onlySealed : ∀ key nonce aad message sealed, p.decrypt key nonce aad sealed = some message →
    p.encrypt key nonce aad message = some sealed

/-- The keyed hash as an identifier. -/
def keyedHash (p : CryptoPrimitives) (key : CryptoKey) (message : Bytes) : ObjectId :=
  ⟨p.keyedXof key message 32, p.keyedXof_length key message 32⟩

end CryptoPrimitives

/-- Why something is not sealed or opened. -/
inductive SealError
  /-- `object ID does not match bytes` -/
  | idDoesNotMatch
  /-- `encrypt remote object` -/
  | encryptObject
  /-- `encrypted object is truncated` -/
  | objectTruncated
  /-- `invalid encrypted object header` -/
  | objectHeader
  /-- `object nonce mismatch` -/
  | nonceMismatch
  /-- `remote object authentication failed` -/
  | objectAuthentication
  /-- `remote object payload is truncated` -/
  | payloadTruncated
  /-- `invalid remote object kind` -/
  | invalidKind
  /-- `remote object ID mismatch` -/
  | idMismatch
  /-- `remote object content failed verification` -/
  | contentMismatch
  /-- `remote id does not name object` -/
  | remoteIdMismatch
  /-- `object kind mismatch` -/
  | kindMismatch
  /-- `sync metadata exceeds the 1 MiB limit` -/
  | metadataTooLong
  /-- `encrypt sync head` -/
  | encryptHead
  /-- `encrypted sync head is truncated` -/
  | headTruncated
  /-- `invalid encrypted sync-head header` -/
  | headHeader
  /-- `encrypted sync metadata exceeds the 1 MiB limit` -/
  | encryptedTooLong
  /-- `sync-head authentication failed` -/
  | headAuthentication
  /-- `invalid sync-head snapshot ID` -/
  | headSnapshotId
deriving DecidableEq

/-- `OBJECT_MAGIC` of `remote_crypto.rs`. -/
def sealedMagic : Bytes := text "AGEO" ++ [1]

/-- `HEAD_MAGIC` -/
def headMagic : Bytes := text "AGEH" ++ [1]

/-- `NONCE_LEN` -/
def nonceLen : ℕ := 24

/-- `MAX_METADATA_LEN` -/
def maxMetadataLen : ℕ := 1024 * 1024

/-- `anyhow::ensure!` -/
def ensureSealed (p : Prop) [Decidable p] (e : SealError) : Except SealError Unit :=
  if p then .ok () else .error e

/-- A check that passes, and what follows. -/
@[simp] theorem ensureSealed_bind_eq_ok_iff {α : Type} {p : Prop} [Decidable p] {e : SealError}
    {f : Except SealError α} {a : α} : (ensureSealed p e >>= fun _ => f) = .ok a ↔
    p ∧ f = .ok a := by
  unfold ensureSealed
  by_cases hp : p <;> simp [hp, bind, Except.bind]

/-- A value that is there, or an error. -/
def orSealError {α : Type} (o : Option α) (e : SealError) : Except SealError α :=
  match o with
  | some a => .ok a
  | none => .error e

/-- A value that is there, and what follows. -/
@[simp] theorem orSealError_bind_eq_ok_iff {α β : Type} {o : Option α} {e : SealError}
    {f : α → Except SealError β} {b : β} :
    (orSealError o e >>= f) = .ok b ↔ ∃ a, o = some a ∧ f a = .ok b := by
  cases o <;> simp [orSealError, bind, Except.bind]

/-- A step that succeeds, and what follows. -/
theorem sealBind_eq_ok_iff {α β : Type} {x : Except SealError α} {f : α → Except SealError β}
    {b : β} : (x >>= f) = .ok b ↔ ∃ a, x = .ok a ∧ f a = .ok b := by
  cases x <;> simp [bind, Except.bind]

/-! ## Frames -/

/-- A key of `RemoteCrypto`. -/
structure RemoteCrypto where
  key : CryptoKey

namespace RemoteCrypto

variable (p : CryptoPrimitives) (crypto : RemoteCrypto)

/-- `remote_id` -/
def remoteId (id : ObjectId) : ObjectId :=
  p.keyedHash crypto.key (text "furrow:remote-id:v1" ++ [0] ++ id.bytes)

/-- `object_nonce` -/
def objectNonce (id : ObjectId) : Bytes :=
  p.keyedXof crypto.key (text "furrow:object-nonce:v1" ++ [0] ++ id.bytes) nonceLen

/-- `seal_with` -/
def sealWith (remoteId : ObjectId) (nonce : Bytes) (id : ObjectId) (kind : ObjectKind)
    (bytes : Bytes) : Except SealError Bytes := do
  let plaintext := kind.toU8 :: (id.bytes ++ bytes)
  let ciphertext ← orSealError (p.encrypt crypto.key nonce remoteId.bytes plaintext) .encryptObject
  pure (sealedMagic ++ nonce ++ ciphertext)

/-- `encrypt_object` -/
def encryptObject (id : ObjectId) (kind : ObjectKind) (bytes : Bytes) : Except SealError Bytes := do
  ensureSealed (objectId p.hash kind bytes = id) .idDoesNotMatch
  sealWith p crypto (crypto.remoteId p id) (crypto.objectNonce p id) id kind bytes

/-- `open_with` -/
def openWith (remoteId : ObjectId) (expectedNonce : Bytes) (expectedId : ObjectId)
    (framed : Bytes) : Except SealError (ObjectKind × Bytes) := do
  ensureSealed (sealedMagic.length + nonceLen + 16 ≤ framed.length) .objectTruncated
  ensureSealed (framed.take sealedMagic.length = sealedMagic) .objectHeader
  let nonce := (framed.drop sealedMagic.length).take nonceLen
  ensureSealed (nonce = expectedNonce) .nonceMismatch
  let plaintext ← orSealError
    (p.decrypt crypto.key nonce remoteId.bytes (framed.drop (sealedMagic.length + nonceLen)))
    .objectAuthentication
  ensureSealed (33 ≤ plaintext.length) .payloadTruncated
  let kind ← orSealError (plaintext.head?.bind ObjectKind.fromU8) .invalidKind
  ensureSealed ((plaintext.drop 1).take 32 = expectedId.bytes) .idMismatch
  let bytes := plaintext.drop 33
  ensureSealed (objectId p.hash kind bytes = expectedId) .contentMismatch
  pure (kind, bytes)

/-- `decrypt_object` -/
def decryptObject (expectedId : ObjectId) (framed : Bytes) :
    Except SealError (ObjectKind × Bytes) :=
  openWith p crypto (crypto.remoteId p expectedId) (crypto.objectNonce p expectedId) expectedId
    framed

/-- `encrypt_metadata`, with the nonce that was drawn. -/
def encryptMetadata (nonce plaintext context : Bytes) : Except SealError Bytes := do
  ensureSealed (plaintext.length ≤ maxMetadataLen) .metadataTooLong
  let ciphertext ← orSealError (p.encrypt crypto.key nonce context plaintext) .encryptHead
  pure (headMagic ++ nonce ++ ciphertext)

/-- `encrypt_head` -/
def encryptHead (nonce : Bytes) (snapshot : ObjectId) (context : Bytes) : Except SealError Bytes :=
  encryptMetadata p crypto nonce snapshot.bytes context

/-- `decrypt_metadata` -/
def decryptMetadata (framed context : Bytes) : Except SealError Bytes := do
  ensureSealed (headMagic.length + nonceLen + 16 ≤ framed.length) .headTruncated
  ensureSealed (framed.take headMagic.length = headMagic) .headHeader
  let nonce := (framed.drop headMagic.length).take nonceLen
  ensureSealed (framed.length ≤ headMagic.length + nonceLen + 16 + maxMetadataLen) .encryptedTooLong
  let plaintext ← orSealError
    (p.decrypt crypto.key nonce context (framed.drop (headMagic.length + nonceLen)))
      .headAuthentication
  pure plaintext

/-- `decrypt_head` -/
def decryptHead (framed context : Bytes) : Except SealError ObjectId := do
  let plaintext ← decryptMetadata p crypto framed context
  if h : plaintext.length = 32 then pure ⟨plaintext, h⟩ else .error .headSnapshotId

end RemoteCrypto

/-! ## The objects of an identity -/

/-- `CHUNK_RID` -/
def chunkRid : Bytes := text "codeaf:chunk-rid:v1" ++ [0]

/-- `CHUNK_KEY` -/
def chunkKey : Bytes := text "codeaf:chunk-key:v1" ++ [0]

/-- `CHUNK_NONCE` -/
def chunkNonce : Bytes := text "codeaf:chunk-nonce:v1" ++ [0]

/-- How one object is identified, keyed and nonced on the remote (`Scheme`). -/
structure Scheme where
  crypto : RemoteCrypto
  remoteId : ObjectId
  nonce : Bytes

/-- The two secrets of an identity. -/
structure CellSealer where
  cell : RemoteCrypto
  dedup : CryptoKey

namespace CellSealer

variable (p : CryptoPrimitives) (sealer : CellSealer)

/-- `keyed` -/
def keyed (key : CryptoKey) (domain : Bytes) (id : ObjectId) : ObjectId :=
  p.keyedHash key (domain ++ id.bytes)

/-- `CellSealer::scheme`: `Convergent` for chunks and `Structure` for all others. -/
def scheme (kind : ObjectKind) (id : ObjectId) : Scheme :=
  match kind with
  | .Chunk =>
    let key := keyed p sealer.dedup chunkKey id
    ⟨⟨key⟩, keyed p sealer.dedup chunkRid id, p.keyedXof key (chunkNonce ++ []) nonceLen⟩
  | _ => ⟨sealer.cell, sealer.cell.remoteId p id, sealer.cell.objectNonce p id⟩

/-- `remote_id` -/
def remoteId (kind : ObjectKind) (id : ObjectId) : ObjectId := (sealer.scheme p kind id).remoteId

/-- `seal` -/
def sealObject (kind : ObjectKind) (id : ObjectId) (bytes : Bytes) :
    Except SealError (ObjectId × Bytes) := do
  ensureSealed (objectId p.hash kind bytes = id) .idDoesNotMatch
  let scheme := sealer.scheme p kind id
  let sealed ← scheme.crypto.sealWith p scheme.remoteId scheme.nonce id kind bytes
  pure (scheme.remoteId, sealed)

/-- `open` -/
def openObject (kind : ObjectKind) (id rid : ObjectId) (sealed : Bytes) :
    Except SealError Bytes := do
  let scheme := sealer.scheme p kind id
  ensureSealed (scheme.remoteId = rid) .remoteIdMismatch
  let (opened, bytes) ← scheme.crypto.openWith p rid scheme.nonce id sealed
  ensureSealed (opened = kind) .kindMismatch
  pure bytes

end CellSealer

/-! ## What is opened -/

namespace RemoteCrypto

variable {p : CryptoPrimitives} {crypto : RemoteCrypto}

/-- A frame in its three parts. -/
theorem frame_parts {magic nonce : Bytes} (ciphertext : Bytes) (hmagic : magic.length = 5)
    (hnonce : nonce.length = nonceLen) :
    (magic ++ nonce ++ ciphertext).take 5 = magic ∧
      ((magic ++ nonce ++ ciphertext).drop 5).take nonceLen = nonce ∧
      (magic ++ nonce ++ ciphertext).drop (5 + nonceLen) = ciphertext := by
  refine ⟨?_, ?_, ?_⟩
  · rw [List.append_assoc, ← hmagic, List.take_left]
  · rw [List.append_assoc, ← hmagic, List.drop_left, ← hnonce, List.take_left]
  · rw [← hmagic, ← hnonce, ← List.length_append, List.drop_left]

/-- A byte string with the parts of a frame. -/
theorem eq_frame {magic nonce framed : Bytes} (hmagic : framed.take 5 = magic)
    (hnonce : (framed.drop 5).take nonceLen = nonce) :
    framed = magic ++ nonce ++ framed.drop (5 + nonceLen) := by
  rw [← hmagic, ← hnonce, List.append_assoc, ← List.drop_drop, List.take_append_drop,
    List.take_append_drop]

/-- The magic of a sealed object has five bytes. -/
theorem sealedMagic_length : sealedMagic.length = 5 := by decide

/-- The magic of a head has five bytes. -/
theorem headMagic_length : headMagic.length = 5 := by decide

/-- What is sealed is a frame around the encryption. -/
theorem sealWith_eq_ok_iff {rid id : ObjectId} {nonce bytes framed : Bytes} {kind : ObjectKind} :
    crypto.sealWith p rid nonce id kind bytes = .ok framed ↔
      ∃ ciphertext, p.encrypt crypto.key nonce rid.bytes (kind.toU8 :: (id.bytes ++ bytes)) =
        some ciphertext ∧ framed = sealedMagic ++ nonce ++ ciphertext := by
  unfold sealWith
  rw [orSealError_bind_eq_ok_iff]
  simp only [pure, Except.pure, Except.ok.injEq, eq_comm]

/-- A payload that is long enough is a kind, an identifier and bytes. -/
theorem eq_payload {plaintext : Bytes} {id : ObjectId} {kind : ObjectKind}
    (hlen : 33 ≤ plaintext.length) (hkind : plaintext.head?.bind ObjectKind.fromU8 = some kind)
    (hid : (plaintext.drop 1).take 32 = id.bytes) :
    plaintext = kind.toU8 :: (id.bytes ++ plaintext.drop 33) := by
  rcases plaintext with - | ⟨b, rest⟩
  · simp at hlen
  rw [List.head?_cons, Option.bind_some] at hkind
  rw [List.drop_one, List.tail_cons] at hid
  rw [ObjectKind.toU8_of_fromU8 hkind, ← hid, List.drop_succ_cons, List.take_append_drop]

/-- **Exactly the frames of an object are opened as it.** -/
theorem openWith_eq_ok_iff (hp : p.Authentic) {rid id : ObjectId} {nonce framed bytes : Bytes}
    {kind : ObjectKind} (hnonce : nonce.length = nonceLen) :
    crypto.openWith p rid nonce id framed = .ok (kind, bytes) ↔
      objectId p.hash kind bytes = id ∧ crypto.sealWith p rid nonce id kind bytes = .ok framed := by
  unfold openWith
  simp only [sealedMagic_length, ensureSealed_bind_eq_ok_iff, orSealError_bind_eq_ok_iff, pure,
    Except.pure, Except.ok.injEq, Prod.mk.injEq, sealWith_eq_ok_iff]
  constructor
  · rintro ⟨-, hmagic, hnonce', plaintext, hdecrypt, hlen, kind', hkind, hid, hcontent, rfl, rfl⟩
    refine ⟨hcontent, framed.drop (5 + nonceLen), ?_, eq_frame hmagic hnonce'⟩
    rw [hnonce'] at hdecrypt
    rw [← eq_payload hlen hkind hid]
    exact hp.onlySealed _ _ _ _ _ hdecrypt
  · rintro ⟨hcontent, ciphertext, hencrypt, rfl⟩
    obtain ⟨hmagic, hnonce', hrest⟩ := frame_parts ciphertext sealedMagic_length hnonce
    have hlen := hp.length _ _ _ _ _ hencrypt
    have hpayload :
        (id.bytes ++ bytes).take 32 = id.bytes ∧ (id.bytes ++ bytes).drop 32 = bytes := by
      rw [← id.length_eq]
      exact ⟨List.take_left, List.drop_left⟩
    refine ⟨?_, hmagic, hnonce', kind.toU8 :: (id.bytes ++ bytes), ?_, ?_, kind,
      ?_, ?_, ?_, rfl, ?_⟩
    · have h₁ := sealedMagic_length
      simp only [List.length_append, List.length_cons] at hlen ⊢
      omega
    · rw [hnonce', hrest]
      exact hp.opens _ _ _ _ _ hencrypt
    · have := id.length_eq
      simp only [List.length_append, List.length_cons]
      omega
    · simp
    · rw [List.drop_one, List.tail_cons]
      exact hpayload.1
    · rw [List.drop_succ_cons, hpayload.2]
      exact hcontent
    · rw [List.drop_succ_cons]
      exact hpayload.2

/-- An object is sealed unless it is too long. -/
theorem exists_sealWith (hp : p.Authentic) {rid id : ObjectId} {nonce bytes : Bytes}
    {kind : ObjectKind} (hnonce : nonce.length = nonceLen)
    (hlen : bytes.length + 33 < CryptoPrimitives.messageLimit) :
    ∃ framed, crypto.sealWith p rid nonce id kind bytes = .ok framed := by
  have hmessage : (kind.toU8 :: (id.bytes ++ bytes)).length < CryptoPrimitives.messageLimit := by
    rw [List.length_cons, List.length_append, id.length_eq]
    omega
  have haad : rid.bytes.length < CryptoPrimitives.messageLimit := by
    rw [rid.length_eq]
    decide
  obtain ⟨ciphertext, hencrypt⟩ := hp.seals crypto.key nonce rid.bytes _ hnonce haad hmessage
  exact ⟨_, sealWith_eq_ok_iff.mpr ⟨ciphertext, hencrypt, rfl⟩⟩

/-- **Decrypting is the inverse of encrypting.** -/
theorem decryptObject_eq_ok_iff (hp : p.Authentic) {id : ObjectId} {framed bytes : Bytes}
    {kind : ObjectKind} :
    crypto.decryptObject p id framed = .ok (kind, bytes) ↔
      crypto.encryptObject p id kind bytes = .ok framed := by
  have hnonce : (crypto.objectNonce p id).length = nonceLen := p.keyedXof_length _ _ _
  unfold decryptObject encryptObject
  rw [openWith_eq_ok_iff hp hnonce, ensureSealed_bind_eq_ok_iff]

/-- **Heads round-trip**: what `encrypt_head` wrote under a context is read under that context. -/
theorem decryptHead_encryptHead (hp : p.Authentic) {nonce framed context : Bytes}
    {snapshot : ObjectId} (hnonce : nonce.length = nonceLen)
    (h : crypto.encryptHead p nonce snapshot context = .ok framed) :
    crypto.decryptHead p framed context = .ok snapshot := by
  unfold encryptHead encryptMetadata at h
  simp only [ensureSealed_bind_eq_ok_iff, orSealError_bind_eq_ok_iff, pure, Except.pure,
    Except.ok.injEq] at h
  obtain ⟨hmax, ciphertext, hencrypt, rfl⟩ := h
  obtain ⟨hmagic, hnonce', hrest⟩ := frame_parts ciphertext headMagic_length hnonce
  have hlen := hp.length _ _ _ _ _ hencrypt
  have hframe :
      (headMagic ++ nonce ++ ciphertext).length = 5 + nonceLen + (snapshot.bytes.length + 16) := by
    rw [List.length_append, List.length_append, headMagic_length, hnonce, hlen]
  have hmetadata : crypto.decryptMetadata p (headMagic ++ nonce ++ ciphertext) context =
      .ok snapshot.bytes := by
    unfold decryptMetadata
    simp only [headMagic_length, ensureSealed_bind_eq_ok_iff, orSealError_bind_eq_ok_iff, pure,
      Except.pure, Except.ok.injEq]
    refine ⟨by omega, hmagic, by omega, ?_⟩
    rw [hnonce', hrest, hp.opens _ _ _ _ _ hencrypt]
    rfl
  unfold decryptHead
  rw [hmetadata]
  simp [bind, Except.bind, snapshot.length_eq, pure, Except.pure]

/-- Every head is encrypted, and read again under its context. -/
theorem exists_encryptHead (hp : p.Authentic) {nonce context : Bytes} (snapshot : ObjectId)
    (hnonce : nonce.length = nonceLen) (hcontext : context.length < CryptoPrimitives.messageLimit) :
    ∃ framed, crypto.encryptHead p nonce snapshot context = .ok framed ∧
      crypto.decryptHead p framed context = .ok snapshot := by
  have hmessage : snapshot.bytes.length < CryptoPrimitives.messageLimit := by
    rw [snapshot.length_eq]
    decide
  obtain ⟨ciphertext, hencrypt⟩ := hp.seals crypto.key nonce context _ hnonce hcontext hmessage
  have hhead : crypto.encryptHead p nonce snapshot context =
      .ok (headMagic ++ nonce ++ ciphertext) := by
    unfold encryptHead encryptMetadata
    rw [ensureSealed_bind_eq_ok_iff, orSealError_bind_eq_ok_iff]
    refine ⟨?_, ciphertext, hencrypt, rfl⟩
    rw [snapshot.length_eq]
    decide
  exact ⟨_, hhead, decryptHead_encryptHead hp hnonce hhead⟩

end RemoteCrypto

namespace CellSealer

variable {p : CryptoPrimitives} {sealer : CellSealer}

/-- The nonce of every scheme is one of the cipher. -/
theorem scheme_nonce_length (kind : ObjectKind) (id : ObjectId) :
    (sealer.scheme p kind id).nonce.length = nonceLen := by
  cases kind <;> exact p.keyedXof_length _ _ _

/-- **Opening is the inverse of sealing**: an object is opened exactly from what it is sealed as. -/
theorem openObject_iff_sealObject (hp : p.Authentic) {kind : ObjectKind} {id rid : ObjectId}
    {sealed bytes : Bytes} : sealer.openObject p kind id rid sealed = .ok bytes ↔
      sealer.sealObject p kind id bytes = .ok (rid, sealed) := by
  unfold openObject sealObject
  simp only [ensureSealed_bind_eq_ok_iff]
  constructor
  · rintro ⟨rfl, h⟩
    obtain ⟨⟨opened, bytes'⟩, hopened, h⟩ := sealBind_eq_ok_iff.mp h
    simp only [ensureSealed_bind_eq_ok_iff, pure, Except.pure, Except.ok.injEq] at h
    obtain ⟨rfl, rfl⟩ := h
    obtain ⟨hid, hseal⟩ :=
      (RemoteCrypto.openWith_eq_ok_iff hp (scheme_nonce_length _ id)).mp hopened
    exact ⟨hid, sealBind_eq_ok_iff.mpr ⟨sealed, hseal, rfl⟩⟩
  · rintro ⟨hid, h⟩
    obtain ⟨sealed', hseal, h⟩ := sealBind_eq_ok_iff.mp h
    simp only [pure, Except.pure, Except.ok.injEq, Prod.mk.injEq] at h
    obtain ⟨rfl, rfl⟩ := h
    have hopened :=
      (RemoteCrypto.openWith_eq_ok_iff hp (scheme_nonce_length kind id)).mpr ⟨hid, hseal⟩
    refine ⟨rfl, sealBind_eq_ok_iff.mpr ⟨(kind, bytes), hopened, ?_⟩⟩
    simp only [ensureSealed_bind_eq_ok_iff, true_and]
    rfl

/-- Every object of a length the cipher takes is sealed. -/
theorem exists_sealObject (hp : p.Authentic) (kind : ObjectKind) {bytes : Bytes}
    (hlen : bytes.length + 33 < CryptoPrimitives.messageLimit) :
    ∃ rid sealed,
      sealer.sealObject p kind (objectId p.hash kind bytes) bytes = .ok (rid, sealed) := by
  obtain ⟨sealed, hseal⟩ := RemoteCrypto.exists_sealWith hp (scheme_nonce_length kind _) hlen
  unfold sealObject
  exact ⟨_, sealed, ensureSealed_bind_eq_ok_iff.mpr
    ⟨rfl, sealBind_eq_ok_iff.mpr ⟨sealed, hseal, rfl⟩⟩⟩

/-- What was sealed is a frame of the object. -/
theorem sealWith_of_sealObject {kind : ObjectKind} {id rid : ObjectId} {bytes sealed : Bytes}
    (h : sealer.sealObject p kind id bytes = .ok (rid, sealed)) :
    objectId p.hash kind bytes = id ∧ sealer.remoteId p kind id = rid ∧
      (sealer.scheme p kind id).crypto.sealWith p rid
      (sealer.scheme p kind id).nonce id kind bytes =
        .ok sealed := by
  unfold sealObject at h
  rw [ensureSealed_bind_eq_ok_iff] at h
  obtain ⟨sealed', hseal, hpair⟩ := sealBind_eq_ok_iff.mp h.2
  simp only [pure, Except.pure, Except.ok.injEq, Prod.mk.injEq] at hpair
  obtain ⟨rfl, rfl⟩ := hpair
  exact ⟨h.1, rfl, hseal⟩

/-- **Sealing round-trips and binds identity.**  Every object is sealed, and opened again as its
kind, its identifier and its bytes.  What is opened as an object is a payload of its kind, its
identifier and its bytes; these hash to the identifier, and the identifier maps to the one of the
remote.  Objects under one key and heads are encrypted and decrypted alike. -/
theorem sealObject_openObject (hp : p.Authentic) (sealer : CellSealer) :
    (∀ kind bytes, bytes.length + 33 < CryptoPrimitives.messageLimit → ∃ rid sealed,
      sealer.sealObject p kind (objectId p.hash kind bytes) bytes = .ok (rid, sealed)) ∧
    (∀ kind bytes rid sealed,
      sealer.sealObject p kind (objectId p.hash kind bytes) bytes = .ok (rid, sealed) →
        (sealer.scheme p kind (objectId p.hash kind bytes)).crypto.openWith p rid
            (sealer.scheme p kind (objectId p.hash kind bytes)).nonce (objectId p.hash kind bytes)
            sealed = .ok (kind, bytes) ∧
          sealer.openObject p kind (objectId p.hash kind bytes) rid sealed = .ok bytes) ∧
    (∀ kind id rid sealed bytes, sealer.openObject p kind id rid sealed = .ok bytes →
      p.decrypt (sealer.scheme p kind id).crypto.key (sealer.scheme p kind id).nonce rid.bytes
          (sealed.drop (sealedMagic.length + nonceLen)) = some (kind.toU8 :: (id.bytes ++ bytes)) ∧
        objectId p.hash kind bytes = id ∧ sealer.remoteId p kind id = rid) ∧
    (∀ kind id framed bytes, sealer.cell.decryptObject p id framed = .ok (kind, bytes) ↔
      sealer.cell.encryptObject p id kind bytes = .ok framed) ∧
    ∀ snapshot nonce context, nonce.length = nonceLen →
      context.length < CryptoPrimitives.messageLimit → ∃ framed,
        sealer.cell.encryptHead p nonce snapshot context = .ok framed ∧
          sealer.cell.decryptHead p framed context = .ok snapshot := by
  refine ⟨fun kind bytes => exists_sealObject hp kind, ?_, ?_,
    fun kind id framed bytes => RemoteCrypto.decryptObject_eq_ok_iff hp,
    fun snapshot nonce context => RemoteCrypto.exists_encryptHead hp snapshot⟩
  · intro kind bytes rid sealed h
    obtain ⟨hid, -, hseal⟩ := sealWith_of_sealObject h
    exact ⟨(RemoteCrypto.openWith_eq_ok_iff hp (scheme_nonce_length kind _)).mpr ⟨hid, hseal⟩,
      (openObject_iff_sealObject hp).mpr h⟩
  · intro kind id rid sealed bytes h
    obtain ⟨hid, hrid, hseal⟩ := sealWith_of_sealObject ((openObject_iff_sealObject hp).mp h)
    obtain ⟨ciphertext, hencrypt, rfl⟩ := RemoteCrypto.sealWith_eq_ok_iff.mp hseal
    refine ⟨?_, hid, hrid⟩
    rw [RemoteCrypto.sealedMagic_length,
      (RemoteCrypto.frame_parts ciphertext RemoteCrypto.sealedMagic_length
        (scheme_nonce_length kind id)).2.2]
    exact hp.opens _ _ _ _ _ hencrypt

/-! ### A sealed chunk -/

/-- The bytes of the chunk. -/
def sealedChunk : Bytes := text "furrow"

/-- The hash of the chunk. -/
def sealedChunkHash : Bytes :=
  [217, 130, 100, 4, 250, 215, 93, 95, 180, 174, 188, 25, 196, 144, 179, 112, 135, 24, 206, 40, 71,
    63, 102, 161, 20, 183, 241, 58, 254, 80, 87, 65]

/-- The hash has 32 bytes. -/
theorem length_sealedChunkHash : sealedChunkHash.length = 32 := rfl

/-- The identifier of the chunk. -/
def sealedChunkId : ObjectId := ⟨sealedChunkHash, length_sealedChunkHash⟩

/-- The secret that chunks are deduplicated under: 32 times 9. -/
def dedupKey : CryptoKey := .fill 9

/-- The key of the chunk. -/
def sealedChunkKey : CryptoKey :=
  ⟨[184, 125, 83, 114, 144, 79, 216, 40, 113, 126, 144, 114, 220, 177, 197, 201, 215, 127, 221, 97,
    101, 255, 91, 61, 52, 83, 51, 221, 180, 175, 121, 102], rfl⟩

/-- The identifier of the chunk on the remote. -/
def sealedChunkRid : ObjectId :=
  ⟨[175, 67, 132, 198, 46, 6, 143, 193, 5, 149, 196, 185, 118, 114, 54, 0, 86, 12, 130, 117, 187,
    216, 150, 187, 239, 133, 182, 130, 191, 145, 239, 76], rfl⟩

/-- The nonce of the chunk. -/
def sealedChunkNonce : Bytes :=
  [56, 78, 183, 46, 100, 78, 221, 11, 168, 158, 240, 74, 156, 201, 93, 52, 144, 33, 254, 166, 57,
    164, 210, 192]

/-- What is encrypted for the chunk. -/
def sealedChunkPlaintext : Bytes := 1 :: (sealedChunkId.bytes ++ sealedChunk)

/-- The encryption of the chunk. -/
def sealedChunkCiphertext : Bytes :=
  [12, 74, 205, 40, 131, 72, 59, 231, 99, 141, 171, 203, 121, 187, 151, 73, 223, 188, 216, 182, 126,
    209, 53, 226, 214, 250, 113, 63, 172, 3, 194, 231, 35, 132, 202, 195, 109, 5, 221, 219, 148,
    177, 40, 184, 166, 99, 188, 155, 219, 123, 208, 2, 176, 167, 254]

/-- Whether this is the encryption of the chunk. -/
def IsChunkSeal (key : CryptoKey) (nonce aad message : Bytes) : Prop :=
  key = sealedChunkKey ∧ nonce = sealedChunkNonce ∧ aad = sealedChunkRid.bytes ∧
    message = sealedChunkPlaintext

instance (key : CryptoKey) (nonce aad message : Bytes) :
    Decidable (IsChunkSeal key nonce aad message) :=
  inferInstanceAs (Decidable (_ ∧ _))

/-- Functions that do for the chunk what the libraries do, and for all else something simple: a
message with a tag of zeros. -/
def chunkPrimitives : CryptoPrimitives where
  hash message :=
    if message = ObjectKind.domain .Chunk ++ sealedChunk then sealedChunkId else .fill 0
  keyedXof key message n :=
    if key = dedupKey ∧ message = chunkKey ++ sealedChunkId.bytes ∧ n = 32 then sealedChunkKey.bytes
    else if key = dedupKey ∧ message = chunkRid ++ sealedChunkId.bytes ∧ n = 32 then
      sealedChunkRid.bytes
    else if key = sealedChunkKey ∧ message = chunkNonce ∧ n = nonceLen then sealedChunkNonce
    else List.replicate n 0
  encrypt key nonce aad message :=
    if IsChunkSeal key nonce aad message then some sealedChunkCiphertext
    else some (message ++ List.replicate 16 0)
  decrypt key nonce aad sealed :=
    if IsChunkSeal key nonce aad sealedChunkPlaintext ∧ sealed = sealedChunkCiphertext then
      some sealedChunkPlaintext
    else if 16 ≤ sealed.length ∧ sealed.drop (sealed.length - 16) = List.replicate 16 0 ∧
        ¬ IsChunkSeal key nonce aad (sealed.take (sealed.length - 16)) then
      some (sealed.take (sealed.length - 16))
    else none
  keyedXof_length key message n := by
    split_ifs with hkey hrid hnonce
    · rw [hkey.2.2]
      exact sealedChunkKey.length_eq
    · rw [hrid.2.2]
      exact sealedChunkRid.length_eq
    · rw [hnonce.2.2]
      rfl
    · exact List.length_replicate

/-- A message with its tag. -/
theorem tagged_parts (message : Bytes) :
    16 ≤ (message ++ List.replicate 16 (0 : Byte)).length ∧
      (message ++ List.replicate 16 0).drop
      ((message ++ List.replicate 16 (0 : Byte)).length - 16) =
        List.replicate 16 0 ∧
      (message ++ List.replicate 16 0).take
      ((message ++ List.replicate 16 (0 : Byte)).length - 16) =
        message := by
  have hlen : (message ++ List.replicate 16 (0 : Byte)).length = message.length + 16 := by
    rw [List.length_append, List.length_replicate]
  rw [hlen, Nat.add_sub_cancel]
  exact ⟨by omega, List.drop_left, List.take_left⟩

/-- The functions of the sample are as the cipher is assumed to be. -/
theorem chunkPrimitives_authentic : chunkPrimitives.Authentic where
  seals key nonce aad message _ _ _ := by
    simp only [chunkPrimitives]
    split_ifs
    · exact ⟨_, rfl⟩
    · exact ⟨_, rfl⟩
  length key nonce aad message sealed h := by
    simp only [chunkPrimitives] at h
    split_ifs at h with hchunk
    · rw [← Option.some.inj h, hchunk.2.2.2]
      decide
    · rw [← Option.some.inj h, List.length_append, List.length_replicate]
  opens key nonce aad message sealed h := by
    simp only [chunkPrimitives] at h ⊢
    split_ifs at h with hchunk
    · obtain ⟨h₁, h₂, h₃, rfl⟩ := hchunk
      rw [← Option.some.inj h, if_pos ⟨⟨h₁, h₂, h₃, rfl⟩, rfl⟩]
    · obtain ⟨hlen, htag, hmessage⟩ := tagged_parts message
      rw [← Option.some.inj h]
      have hne : message ++ List.replicate 16 0 ≠ sealedChunkCiphertext := by
        intro heq
        rw [heq] at htag
        exact absurd htag (by decide)
      rw [if_neg fun hc => hne hc.2, hmessage, if_pos ⟨hlen, htag, hchunk⟩]
  onlySealed key nonce aad message sealed h := by
    simp only [chunkPrimitives] at h ⊢
    split_ifs at h with hchunk htag
    · rw [← Option.some.inj h, if_pos hchunk.1, hchunk.2]
    · rw [← Option.some.inj h, if_neg htag.2.2, ← htag.2.1, List.take_append_drop]

/-- The chunk is sealed under its own key, and opened again. -/
theorem sealObject_openObject_chunk :
    (CellSealer.mk ⟨.fill 7⟩ dedupKey).sealObject chunkPrimitives .Chunk sealedChunkId sealedChunk =
        .ok (sealedChunkRid, sealedMagic ++ sealedChunkNonce ++ sealedChunkCiphertext) ∧
      (CellSealer.mk ⟨.fill 7⟩ dedupKey).openObject chunkPrimitives .Chunk sealedChunkId
        sealedChunkRid (sealedMagic ++ sealedChunkNonce ++ sealedChunkCiphertext) =
          .ok sealedChunk := by
  have hseal : (CellSealer.mk ⟨.fill 7⟩ dedupKey).sealObject chunkPrimitives .Chunk sealedChunkId
      sealedChunk =
        .ok (sealedChunkRid, sealedMagic ++ sealedChunkNonce ++ sealedChunkCiphertext) := by
    decide
  have hopen := (sealObject_openObject chunkPrimitives_authentic
    (CellSealer.mk ⟨.fill 7⟩ dedupKey)).2.1 .Chunk sealedChunk
  exact ⟨hseal, (hopen _ _ hseal).2⟩

end CellSealer

end Sealer

end Furrow
