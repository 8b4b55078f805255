import Furrow.Remote.Keys
import Furrow.Lib.LittleEndian
import Furrow.Lib.Fallible

set_option relaxedAutoImplicit false
set_option autoImplicit false

/-!
# Write frames

The frame of `remote.rs` in which a helper receives many values at once: their number, and for each
the length of its key, its own length, the key and the value.

## Main definitions

* `Furrow.encodeWriteFrame` — the frame of a list of values.
* `Furrow.decodeWriteFrame` — the values of a frame, with the places where they stand in it.

## Main results

* `Furrow.length_le_of_validateKey` — an accepted key is short enough for a frame.
* `Furrow.decodeWriteFrame_encode` — the values of a frame are those it was made of, and
  each stands where the decoder says.
-/

namespace Furrow

/-- `MAX_KEY_BYTES` -/
def maxKeyBytes : ℕ := 96

/-- `MAX_OBJECT_BYTES` -/
def maxObjectBytes : ℕ := 256 * 1024 * 1024 + 1024

/-- `MAX_METADATA_BYTES` -/
def maxMetadataBytes : ℕ := 1024 * 1024 + 1024

/-- `MAX_HAVE_BATCH` -/
def maxHaveBatch : ℕ := 4096

/-- What is wrong with a write frame. -/
inductive WriteFrameError
  /-- `invalid remote write frame` -/
  | invalid
  /-- `remote write frame has too many objects` -/
  | tooManyObjects
  /-- `truncated remote write frame` -/
  | truncated
  /-- `remote frame key is too long` -/
  | keyTooLong
  /-- `remote frame length overflow` -/
  | overflow
  | key (e : KeyError)
  /-- `remote frame value is too large` -/
  | valueTooLarge
  /-- `remote write frame has trailing bytes` -/
  | trailingBytes
deriving DecidableEq

/-- The limit of the values of a key (`key_limit`). -/
def keyLimit (key : Bytes) : Except KeyError ℕ :=
  match validateKey key with
  | .error e => .error e
  | .ok () => .ok (if text "objects/" <+: key then maxObjectBytes else maxMetadataBytes)

/-! ## The frame -/

/-- One value in a frame. -/
def encodeWriteValue (v : Bytes × Bytes) : Bytes :=
  LittleEndian.bytes 2 v.1.length ++ LittleEndian.bytes 8 v.2.length ++ v.1 ++ v.2

/-- The frame of a list of values (`write_many`). -/
def encodeWriteFrame (values : List (Bytes × Bytes)) : Bytes :=
  LittleEndian.bytes 4 values.length ++ values.flatMap encodeWriteValue

/-- A value in a frame and the place where it starts. -/
structure FrameSlice where
  key : Bytes
  offset : ℕ
  bytes : Bytes
deriving DecidableEq

/-- The value at a place in a frame, and the place behind it. -/
def decodeWriteValue (payload : Bytes) (start : ℕ) : Except WriteFrameError (FrameSlice × ℕ) :=
  if payload.length < start + 10 then .error .truncated
  else
    let keyLen := LittleEndian.value ((payload.drop start).take 2)
    let valueLen := LittleEndian.value ((payload.drop (start + 2)).take 8)
    let cursor := start + 10
    if maxKeyBytes < keyLen then .error .keyTooLong
    else if 2 ^ 64 ≤ cursor + keyLen + valueLen then .error .overflow
    else if payload.length < cursor + keyLen + valueLen then .error .truncated
    else
      -- A key that is no UTF-8 is refused before; `validateKey` has only ASCII keys.
      let key := (payload.drop cursor).take keyLen
      match keyLimit key with
      | .error e => .error (.key e)
      | .ok limit =>
        if limit < valueLen then .error .valueTooLarge
        else
          .ok (⟨key, cursor + keyLen, (payload.drop (cursor + keyLen)).take valueLen⟩,
            cursor + keyLen + valueLen)

/-- The values from a place in a frame to its end. -/
def decodeWriteValues (payload : Bytes) : ℕ → ℕ → Except WriteFrameError (List FrameSlice)
  | 0, cursor => if cursor = payload.length then .ok [] else .error .trailingBytes
  | count + 1, cursor => do
    let (value, next) ← decodeWriteValue payload cursor
    let values ← decodeWriteValues payload count next
    .ok (value :: values)

/-- The values of a frame (`decode_write_frame`). -/
def decodeWriteFrame (payload : Bytes) : Except WriteFrameError (List FrameSlice) :=
  if payload.length < 4 then .error .invalid
  else
    let count := LittleEndian.value (payload.take 4)
    if maxHaveBatch < count then .error .tooManyObjects
    else decodeWriteValues payload count 4

/-! ## Keys are short -/

/-- What is before and behind the last slash. -/
theorem rsplitOnce_spec {text name suffix : Bytes}
    (h : rsplitOnce text = some (name, suffix)) : text = name ++ slash :: suffix := by
  induction text generalizing name suffix with
  | nil => simp [rsplitOnce] at h
  | cons b rest ih =>
    rw [rsplitOnce] at h
    cases hrest : rsplitOnce rest with
    | some p =>
      rw [hrest] at h
      obtain ⟨rfl, rfl⟩ := Prod.mk.inj (Option.some.inj h)
      rw [ih hrest, List.cons_append]
    | none =>
      rw [hrest] at h
      simp only at h
      split_ifs at h with hb
      obtain ⟨rfl, rfl⟩ := Prod.mk.inj (Option.some.inj h)
      rw [hb, List.nil_append]

/-- The name of a reference is not too long. -/
theorem length_le_of_validateRef {name : Bytes} (h : validateRef name = .ok ()) :
    name.length ≤ maxRefBytes := by
  unfold validateRef at h
  split_ifs at h with hlength
  push Not at hlength
  exact hlength.2

/-- An accepted key is short enough for a frame. -/
theorem length_le_of_validateKey {key : Bytes} (h : validateKey key = .ok ()) :
    key.length ≤ maxKeyBytes := by
  have hhead : (text "HEAD").length ≤ maxKeyBytes := by decide
  have hlease : (text "LEASE").length ≤ maxKeyBytes := by decide
  unfold validateKey at h
  split_ifs at h with hplain href hobject
  · rcases hplain with rfl | rfl
    · exact hhead
    · exact hlease
  · obtain ⟨rest, rfl⟩ := href
    rw [List.drop_left] at h
    cases hsplit : rsplitOnce rest with
    | none => simp [hsplit] at h
    | some p =>
      obtain ⟨name, suffix⟩ := p
      rw [hsplit] at h
      simp only at h
      split_ifs at h with hsuffix
      have hname := length_le_of_validateRef h
      have hlen : suffix.length ≤ 5 := by
        rcases hsuffix with rfl | rfl <;> decide
      have hrefs : (text "refs/").length = 5 := by decide
      rw [rsplitOnce_spec hsplit, List.length_append, List.length_append, List.length_cons, hrefs]
      unfold maxRefBytes at hname
      unfold maxKeyBytes
      omega
  · simp only at h
    split_ifs at h with hvalue
    have hobjects : (text "objects/").length = 8 := by decide
    rw [List.length_drop, hobjects] at hvalue
    unfold maxKeyBytes
    omega

/-- A key that has a limit is not too long. -/
theorem length_le_of_keyLimit {key : Bytes} {limit : ℕ} (h : keyLimit key = .ok limit) :
    key.length ≤ maxKeyBytes := by
  unfold keyLimit at h
  split at h
  · exact absurd h (by simp)
  · next hvalid => exact length_le_of_validateKey hvalid

/-- No limit is above that of objects. -/
theorem keyLimit_le {key : Bytes} {limit : ℕ} (h : keyLimit key = .ok limit) :
    limit ≤ maxObjectBytes := by
  unfold keyLimit at h
  split at h
  · exact absurd h (by simp)
  · have hlimit := Except.ok.inj h
    unfold maxObjectBytes maxMetadataBytes at *
    split_ifs at hlimit <;> omega

/-! ## The values of a frame -/

/-- The places of values that stand one after the other. -/
def slicesFrom : ℕ → List (Bytes × Bytes) → List FrameSlice
  | _, [] => []
  | start, v :: values =>
    ⟨v.1, start + 10 + v.1.length, v.2⟩ :: slicesFrom (start + 10 + v.1.length + v.2.length) values

/-- A part of a byte string, cut out at its place. -/
theorem take_drop_eq (a : Bytes) {x : Bytes} (b : Bytes) {payload : Bytes} {i n : ℕ}
    (h : payload = a ++ (x ++ b))
    (hi : i = a.length) (hn : n = x.length) : (payload.drop i).take n = x := by
  subst h hi hn
  rw [List.drop_left, List.take_left]

/-- A value takes ten bytes more than its key and its bytes. -/
theorem length_encodeWriteValue (v : Bytes × Bytes) :
    (encodeWriteValue v).length = 10 + v.1.length + v.2.length := by
  simp only [encodeWriteValue, List.length_append, LittleEndian.length_bytes]

/-- A value within its limits is found where it stands. -/
theorem decodeWriteValue_encode {before rest : Bytes} {v : Bytes × Bytes} {limit : ℕ}
    (hkey : keyLimit v.1 = .ok limit) (hvalue : v.2.length ≤ limit)
    (hsmall : (before ++ (encodeWriteValue v ++ rest)).length < 2 ^ 64) :
    decodeWriteValue (before ++ (encodeWriteValue v ++ rest)) before.length =
      .ok (⟨v.1, before.length + 10 + v.1.length, v.2⟩,
        before.length + 10 + v.1.length + v.2.length) := by
  obtain ⟨key, value⟩ := v
  have hkeylen : key.length ≤ maxKeyBytes := length_le_of_keyLimit hkey
  dsimp only at hvalue
  set payload := before ++ (encodeWriteValue (key, value) ++ rest) with hpayload
  simp only [encodeWriteValue, List.append_assoc] at hpayload
  have hlength : payload.length =
      before.length + 10 + key.length + value.length + rest.length := by
    rw [hpayload]
    simp only [List.length_append, LittleEndian.length_bytes]
    omega
  have hk : (payload.drop before.length).take 2 = LittleEndian.bytes 2 key.length :=
    take_drop_eq before _ hpayload rfl (by simp)
  have hv : (payload.drop (before.length + 2)).take 8 = LittleEndian.bytes 8 value.length :=
    take_drop_eq (before ++ LittleEndian.bytes 2 key.length) (key ++ (value ++ rest))
      (by rw [hpayload]; simp) (by simp) (by simp)
  have hkeyBytes : (payload.drop (before.length + 10)).take key.length = key :=
    take_drop_eq (before ++ LittleEndian.bytes 2 key.length ++ LittleEndian.bytes 8 value.length)
      (value ++ rest) (by rw [hpayload]; simp) (by simp) rfl
  have hvalueBytes :
      (payload.drop (before.length + 10 + key.length)).take value.length = value :=
    take_drop_eq (before ++ LittleEndian.bytes 2 key.length ++
      LittleEndian.bytes 8 value.length ++ key) rest (by rw [hpayload]; simp)
      (by simp only [List.length_append, LittleEndian.length_bytes]) rfl
  unfold maxKeyBytes at hkeylen
  have hkeyLen : LittleEndian.value (LittleEndian.bytes 2 key.length) = key.length := by
    rw [LittleEndian.value_bytes]
    exact Nat.mod_eq_of_lt (by omega)
  have hvalueLen : LittleEndian.value (LittleEndian.bytes 8 value.length) = value.length := by
    rw [LittleEndian.value_bytes]
    exact Nat.mod_eq_of_lt (by omega)
  unfold decodeWriteValue
  simp only [hk, hv, hkeyLen, hvalueLen, hkeyBytes, hvalueBytes, hkey]
  rw [if_neg (by omega), if_neg (by unfold maxKeyBytes; omega), if_neg (by omega),
    if_neg (by omega), if_neg (by omega)]

/-- The values that stand behind a place are found one after the other. -/
theorem decodeWriteValues_encode {values : List (Bytes × Bytes)}
    (hvalues : ∀ v ∈ values, ∃ limit, keyLimit v.1 = .ok limit ∧ v.2.length ≤ limit)
    (before : Bytes) (hsmall : (before ++ values.flatMap encodeWriteValue).length < 2 ^ 64) :
    decodeWriteValues (before ++ values.flatMap encodeWriteValue) values.length before.length =
      .ok (slicesFrom before.length values) := by
  induction values generalizing before with
  | nil => simp [decodeWriteValues, slicesFrom]
  | cons v values ih =>
    obtain ⟨limit, hkey, hvalue⟩ := hvalues v List.mem_cons_self
    rw [List.flatMap_cons] at hsmall ⊢
    have hsplit : before ++ (encodeWriteValue v ++ values.flatMap encodeWriteValue) =
        before ++ encodeWriteValue v ++ values.flatMap encodeWriteValue := by simp
    have hnext : before.length + 10 + v.1.length + v.2.length =
        (before ++ encodeWriteValue v).length := by
      rw [List.length_append, length_encodeWriteValue]
      omega
    rw [List.length_cons, decodeWriteValues, decodeWriteValue_encode hkey hvalue hsmall]
    simp only [bind, Except.bind]
    rw [hsplit] at hsmall ⊢
    rw [hnext, ih (fun u hu => hvalues u (List.mem_cons_of_mem v hu)) _ hsmall]
    simp only [slicesFrom, hnext]

/-- The slices are the values. -/
theorem map_slicesFrom (start : ℕ) (values : List (Bytes × Bytes)) :
    (slicesFrom start values).map (fun slice => (slice.key, slice.bytes)) = values := by
  induction values generalizing start with
  | nil => rfl
  | cons v values ih => rw [slicesFrom, List.map_cons, ih]

/-- The values at their places. -/
theorem slicesFrom_spec (values : List (Bytes × Bytes)) (before : Bytes) :
    List.Forall₂ (fun slice v => slice.key = v.1 ∧ slice.bytes = v.2 ∧
      ((before ++ values.flatMap encodeWriteValue).drop slice.offset).take slice.bytes.length =
        slice.bytes ∧
      slice.offset + slice.bytes.length ≤ (before ++ values.flatMap encodeWriteValue).length)
      (slicesFrom before.length values) values := by
  induction values generalizing before with
  | nil => exact List.Forall₂.nil
  | cons v values ih =>
    obtain ⟨key, value⟩ := v
    have hlen : (encodeWriteValue (key, value)).length = 10 + key.length + value.length :=
      length_encodeWriteValue (key, value)
    have hnext : before.length + 10 + key.length + value.length =
        (before ++ encodeWriteValue (key, value)).length := by
      rw [List.length_append, hlen]
      omega
    rw [slicesFrom, List.flatMap_cons]
    refine List.Forall₂.cons ⟨rfl, rfl, ?_, ?_⟩ ?_
    · refine take_drop_eq (before ++ LittleEndian.bytes 2 key.length ++
        LittleEndian.bytes 8 value.length ++ key) (values.flatMap encodeWriteValue) ?_ ?_ rfl
      · simp [encodeWriteValue]
      · simp only [List.length_append, LittleEndian.length_bytes]
    · rw [List.length_append, List.length_append, hlen]
      dsimp only
      omega
    · rw [hnext, ← List.append_assoc]
      exact ih (before ++ encodeWriteValue (key, value))

/-- Values within their limits make a frame that is not too long for its offsets. -/
theorem length_flatMap_encode_le {values : List (Bytes × Bytes)}
    (hvalues : ∀ v ∈ values, ∃ limit, keyLimit v.1 = .ok limit ∧ v.2.length ≤ limit) :
    (values.flatMap encodeWriteValue).length ≤
      values.length * (10 + maxKeyBytes + maxObjectBytes) := by
  induction values with
  | nil => simp
  | cons v values ih =>
    obtain ⟨limit, hkey, hvalue⟩ := hvalues v List.mem_cons_self
    have hkeylen := length_le_of_keyLimit hkey
    have hlimit := keyLimit_le hkey
    have hrest := ih fun u hu => hvalues u (List.mem_cons_of_mem v hu)
    rw [List.flatMap_cons, List.length_append, List.length_cons, Nat.succ_mul]
    have hv := length_encodeWriteValue v
    omega

/-- **The values of a frame are those it was made of.** -/
theorem decodeWriteFrame_encode {values : List (Bytes × Bytes)}
    (hcount : values.length ≤ maxHaveBatch)
    (hvalues : ∀ v ∈ values, ∃ limit, keyLimit v.1 = .ok limit ∧ v.2.length ≤ limit) :
    decodeWriteFrame (encodeWriteFrame values) = .ok (slicesFrom 4 values) := by
  have hlen : (LittleEndian.bytes 4 values.length).length = 4 := LittleEndian.length_bytes _ _
  have hsmall : (encodeWriteFrame values).length < 2 ^ 64 := by
    have hflat := length_flatMap_encode_le hvalues
    have hmul := Nat.mul_le_mul_right (10 + maxKeyBytes + maxObjectBytes) hcount
    rw [encodeWriteFrame, List.length_append, hlen]
    unfold maxKeyBytes maxObjectBytes maxHaveBatch at *
    omega
  have htake : (encodeWriteFrame values).take 4 = LittleEndian.bytes 4 values.length := by
    rw [encodeWriteFrame, List.take_left' hlen]
  have hvalue : LittleEndian.value (LittleEndian.bytes 4 values.length) = values.length := by
    rw [LittleEndian.value_bytes]
    unfold maxHaveBatch at hcount
    exact Nat.mod_eq_of_lt (by omega)
  have hfour : ¬ (encodeWriteFrame values).length < 4 := by
    rw [encodeWriteFrame, List.length_append, hlen]
    omega
  rw [decodeWriteFrame, if_neg hfour]
  simp only [htake, hvalue]
  rw [if_neg (by omega)]
  have hrest := decodeWriteValues_encode hvalues (LittleEndian.bytes 4 values.length) hsmall
  rw [hlen] at hrest
  exact hrest

end Furrow
