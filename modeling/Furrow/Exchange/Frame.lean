import Mathlib
import Furrow.Exchange.Import
import Furrow.Lib.LittleEndian
import Furrow.Pack.Record

set_option relaxedAutoImplicit false
set_option autoImplicit false

/-!
# Frames

The frames of `exchange/frame.rs`, which carry sealed objects.  A frame is a magic, the length of
a JSON header, the header, and the objects one after the other; the header names each of them.

## Main definitions

* `Furrow.idHex`, `Furrow.parseRid` — identifiers as text.
* `Furrow.Header.toVec` — the header as it is written.
* `Furrow.Pending`, `Furrow.pack` — packs sealed objects into frames.
* `Furrow.decodeFrame` — splits a frame into its objects.
* `Furrow.frameBytesOf` — the frame of a list of objects.

## Main results

* `Furrow.pack_spec` — packing writes the frames of groups of the objects.
* `Furrow.decodeFrame_frameBytesOf` — a frame is split into its objects unless it is too large.
-/

namespace Furrow

/-! ## Text -/

/-- The value of a lowercase hexadecimal digit. -/
def hexValue (b : Byte) : Option ℕ :=
  if 48 ≤ b.val ∧ b.val ≤ 57 then some (b.val - 48)
  else if 97 ≤ b.val ∧ b.val ≤ 102 then some (b.val - 87)
  else none

/-- The bytes of lowercase hexadecimal text. -/
def hexDecode : Bytes → Option Bytes
  | [] => some []
  | a :: b :: rest =>
    match hexValue a, hexValue b, hexDecode rest with
    | some x, some y, some bytes => some (Fin.ofNat 256 (16 * x + y) :: bytes)
    | _, _, _ => none
  | [_] => none

/-- An identifier as text. -/
def idHex (id : ObjectId) : Bytes := hexEncode id.bytes

/-- An identifier in its one spelling: 64 lowercase hexadecimal characters. -/
def parseRid (text : Bytes) : Option ObjectId :=
  match hexDecode text with
  | none => none
  | some bytes => if h : bytes.length = 32 then some ⟨bytes, h⟩ else none

/-- A number in decimal. -/
def decimal (n : ℕ) : Bytes :=
  if n = 0 then [48] else (Nat.digits 10 n).reverse.map fun d => Fin.ofNat 256 (48 + d)

/-! ## The header -/

/-- One object of a frame: its name as text, and where its bytes are. -/
structure ObjectRef where
  rid : Bytes
  off : ℕ
  len : ℕ
deriving DecidableEq

/-- The header of a frame. -/
structure Header where
  version : ℕ
  cellKeyId : Bytes
  objects : List ObjectRef
deriving DecidableEq

/-- An object reference as JSON. -/
def ObjectRef.toVec (r : ObjectRef) : Bytes :=
  text "\x7b\"rid\":\"" ++ r.rid ++ text "\",\"off\":" ++ decimal r.off ++ text ",\"len\":" ++
    decimal r.len ++ text "\x7d"

/-- Elements with commas between them. -/
def commaSeparated : List Bytes → Bytes
  | [] => []
  | [a] => a
  | a :: b :: rest => a ++ text "," ++ commaSeparated (b :: rest)

/-- A header as JSON. -/
def Header.toVec (h : Header) : Bytes :=
  text "\x7b\"V\":" ++ decimal h.version ++ text ",\"cell_key_id\":\"" ++ h.cellKeyId ++
    text "\",\"objects\":[" ++ commaSeparated (h.objects.map ObjectRef.toVec) ++ text "]\x7d"

/-- The magic of a frame, `AGEF` and a version. -/
def frameMagic : Bytes := text "AGEF" ++ [1]

/-- The magic of a sealed object. -/
def sealMagic : Bytes := text "AGEO" ++ [1]

/-- The version of the frame header. -/
def frameVersion : ℕ := 1

/-- The store refuses a header past this size. -/
def maxHeader : ℕ := 1048576

/-- The store refuses a frame past this size. -/
def maxFrame : ℕ := 16777216

/-! ## Packing -/

/-- What goes wrong with frames. -/
inductive FrameError
  | headerTooLarge
  | tooLarge
  | badMagic
  | truncated
  | invalidHeader
  | unsupportedVersion
  | malformedKeyId
  | noObjects
  | notContiguous
  | malformedRid
  | repeatedRid
  | overrun
  | notSealed
  | trailingBytes
deriving DecidableEq

/-- A finished frame and the objects it names. -/
structure Frame where
  bytes : Bytes
  rids : List ObjectId

/-- A frame that is being filled. -/
structure Pending where
  cellKeyId : Bytes
  limit : ℕ
  headerLen : ℕ
  refs : List ObjectRef
  rids : List ObjectId
  payload : Bytes

namespace Pending

/-- A frame without objects. -/
def new (cellKeyId : Bytes) (limit : ℕ) : Pending :=
  ⟨cellKeyId, limit, (Header.toVec ⟨frameVersion, cellKeyId, []⟩).length, [], [], []⟩

/-- How the next object is named.  Its length is kept in 32 bits. -/
def reference (p : Pending) (rid : ObjectId) (len : ℕ) : ObjectRef :=
  ⟨idHex rid, p.payload.length, len % 2 ^ 32⟩

/-- Adding the object keeps the frame within its limit; the first object always fits. -/
def fits (p : Pending) (rid : ObjectId) (len : ℕ) : Bool :=
  p.refs.isEmpty ||
    decide (frameMagic.length + 4 + p.headerLen + 1 + (p.reference rid len).toVec.length +
      p.payload.length + len ≤ p.limit)

/-- Add an object. -/
def push (p : Pending) (rid : ObjectId) (sealed : Bytes) : Pending :=
  { p with
    headerLen := p.headerLen + ((p.reference rid sealed.length).toVec.length +
      if p.refs.isEmpty then 0 else 1)
    refs := p.refs ++ [p.reference rid sealed.length]
    rids := p.rids ++ [rid]
    payload := p.payload ++ sealed }

/-- The bytes of the frame. -/
def finish (p : Pending) : Except FrameError Frame :=
  let header := Header.toVec ⟨frameVersion, p.cellKeyId, p.refs⟩
  if header.length ≤ maxHeader then
    .ok ⟨frameMagic ++ LittleEndian.bytes 4 header.length ++ header ++ p.payload, p.rids⟩
  else .error .headerTooLarge

end Pending

/-- Add one object, after closing the frame that it does not fit into. -/
def packObject (cellKeyId : Bytes) (limit : ℕ) (st : Pending × List Frame)
    (object : ObjectId × Bytes) : Except FrameError (Pending × List Frame) :=
  if st.1.fits object.1 object.2.length then .ok (st.1.push object.1 object.2, st.2)
  else do
    let frame ← st.1.finish
    .ok ((Pending.new cellKeyId limit).push object.1 object.2, st.2 ++ [frame])

/-- Pack objects into frames of at most `limit` bytes.  An object that cannot fit any frame gets
its own. -/
def pack (cellKeyId : Bytes) (limit : ℕ) (objects : List (ObjectId × Bytes)) :
    Except FrameError (List Frame) := do
  let st ← objects.foldlM (packObject cellKeyId limit) (Pending.new cellKeyId limit, [])
  if st.1.refs.isEmpty then .ok st.2
  else do
    let frame ← st.1.finish
    .ok (st.2 ++ [frame])

/-! ## Splitting -/

/-- A key identifier is 32 lowercase hexadecimal characters. -/
def isKeyId (text : Bytes) : Bool := text.length == 32 && text.all fun b => (hexValue b).isSome

/-- The objects that a header names, from an offset on. -/
def objectsFrom (payload : Bytes) :
    List ObjectRef → List ObjectId → ℕ → Except FrameError (List (ObjectId × Bytes))
  | [], _, expected => if expected = payload.length then .ok [] else .error .trailingBytes
  | entry :: refs, seen, expected =>
    if entry.off ≠ expected then .error .notContiguous
    else
      match parseRid entry.rid with
      | none => .error .malformedRid
      | some rid =>
        if rid ∈ seen then .error .repeatedRid
        else if payload.length < expected + entry.len then .error .overrun
        else
          let bytes := (payload.drop expected).take entry.len
          if sealMagic.isPrefixOf bytes then do
            let rest ← objectsFrom payload refs (rid :: seen) (expected + entry.len)
            .ok ((rid, bytes) :: rest)
          else .error .notSealed

/-- The objects of a frame. -/
def objectsOfFrame (refs : List ObjectRef) (payload : Bytes) :
    Except FrameError (List (ObjectId × Bytes)) :=
  if refs.isEmpty then .error .noObjects else objectsFrom payload refs [] 0

/-- Split a frame into its objects, refusing anything the store would refuse. -/
def decodeFrame (fromSlice : Bytes → Option Header) (frame : Bytes) :
    Except FrameError (Bytes × List (ObjectId × Bytes)) :=
  if maxFrame < frame.length then .error .tooLarge
  else if ¬ frameMagic.isPrefixOf frame then .error .badMagic
  else
    let rest := frame.drop frameMagic.length
    if rest.length < 4 then .error .truncated
    else
      let headerLen := LittleEndian.value (rest.take 4)
      if maxHeader < headerLen then .error .headerTooLarge
      else if (rest.drop 4).length < headerLen then .error .truncated
      else
        match fromSlice ((rest.drop 4).take headerLen) with
        | none => .error .invalidHeader
        | some header =>
          if header.version ≠ frameVersion then .error .unsupportedVersion
          else if ¬ isKeyId header.cellKeyId then .error .malformedKeyId
          else
            (objectsOfFrame header.objects ((rest.drop 4).drop headerLen)).map fun objects =>
              (header.cellKeyId, objects)

/-! ## The frame of a list of objects -/

/-- How a frame names some objects, from an offset on. -/
def refsFrom : ℕ → List (ObjectId × Bytes) → List ObjectRef
  | _, [] => []
  | off, o :: objects =>
    ⟨idHex o.1, off, o.2.length % 2 ^ 32⟩ :: refsFrom (off + o.2.length) objects

/-- The bytes of some objects, one after the other. -/
def payloadOf (objects : List (ObjectId × Bytes)) : Bytes := objects.flatMap Prod.snd

/-- The header of the frame of some objects. -/
def headerOf (cellKeyId : Bytes) (objects : List (ObjectId × Bytes)) : Bytes :=
  Header.toVec ⟨frameVersion, cellKeyId, refsFrom 0 objects⟩

/-- The frame of some objects. -/
def frameBytesOf (cellKeyId : Bytes) (objects : List (ObjectId × Bytes)) : Bytes :=
  frameMagic ++ LittleEndian.bytes 4 (headerOf cellKeyId objects).length ++
    headerOf cellKeyId objects ++ payloadOf objects

variable {cellKeyId : Bytes} {limit : ℕ} {objects : List (ObjectId × Bytes)}

/-- The magic of a frame has five bytes. -/
theorem length_frameMagic : frameMagic.length = 5 := by decide

/-- The length of a frame. -/
theorem length_frameBytesOf : (frameBytesOf cellKeyId objects).length =
    9 + (headerOf cellKeyId objects).length + (payloadOf objects).length := by
  unfold frameBytesOf
  simp only [List.length_append, LittleEndian.length_bytes, length_frameMagic]

/-- One more item, and a comma unless it is the first. -/
theorem length_commaSeparated_append (l : List Bytes) (a : Bytes) :
    (commaSeparated (l ++ [a])).length =
      (commaSeparated l).length + (a.length + if l.isEmpty then 0 else 1) := by
  induction l with
  | nil => simp [commaSeparated]
  | cons b l ih =>
    cases l with
    | nil =>
      simp only [List.cons_append, List.nil_append, commaSeparated, List.length_append,
        List.isEmpty_cons, Bool.false_eq_true, if_false]
      have hcomma : (text ",").length = 1 := by decide
      omega
    | cons c l =>
      simp only [List.cons_append, commaSeparated, List.length_append, List.isEmpty_cons,
        Bool.false_eq_true, if_false] at ih ⊢
      omega

/-- An item is no longer than the list. -/
theorem length_le_commaSeparated {l : List Bytes} {a : Bytes} (h : a ∈ l) :
    a.length ≤ (commaSeparated l).length := by
  induction l with
  | nil => exact absurd h List.not_mem_nil
  | cons b l ih =>
    cases l with
    | nil =>
      rw [List.mem_singleton.mp h]
      exact le_rfl
    | cons c l =>
      simp only [commaSeparated, List.length_append]
      rcases List.mem_cons.mp h with rfl | h
      · omega
      · have hrest := ih h
        omega

/-- A header grows by the reference to the new object, and a comma. -/
theorem length_toVec_append (version : ℕ) (refs : List ObjectRef) (r : ObjectRef) :
    (Header.toVec ⟨version, cellKeyId, refs ++ [r]⟩).length =
      (Header.toVec ⟨version, cellKeyId, refs⟩).length +
        (r.toVec.length + if refs.isEmpty then 0 else 1) := by
  unfold Header.toVec
  simp only [List.map_append, List.map_cons, List.map_nil, List.length_append,
    length_commaSeparated_append, List.isEmpty_map]
  omega

/-- References to what is appended begin behind the payload. -/
theorem refsFrom_append (off : ℕ) (a b : List (ObjectId × Bytes)) :
    refsFrom off (a ++ b) = refsFrom off a ++ refsFrom (off + (payloadOf a).length) b := by
  induction a generalizing off with
  | nil => rfl
  | cons o a ih =>
    simp only [List.cons_append, refsFrom, ih, payloadOf, List.flatMap_cons, List.length_append,
      Nat.add_assoc]

/-- There is a reference for each object. -/
theorem refsFrom_isEmpty (off : ℕ) : (refsFrom off objects).isEmpty = objects.isEmpty := by
  cases objects <;> rfl

/-! ## What packing writes -/

/-- The pending frame of some objects. -/
def pendingOf (cellKeyId : Bytes) (limit : ℕ) (objects : List (ObjectId × Bytes)) : Pending :=
  ⟨cellKeyId, limit, (headerOf cellKeyId objects).length, refsFrom 0 objects,
    objects.map Prod.fst, payloadOf objects⟩

/-- A pending frame with one object more. -/
theorem push_pendingOf (o : ObjectId × Bytes) :
    (pendingOf cellKeyId limit objects).push o.1 o.2 =
      pendingOf cellKeyId limit (objects ++ [o]) := by
  have hrefs : refsFrom 0 (objects ++ [o]) = refsFrom 0 objects ++
      [(pendingOf cellKeyId limit objects).reference o.1 o.2.length] := by
    rw [refsFrom_append, Nat.zero_add]
    rfl
  have hheader : (headerOf cellKeyId (objects ++ [o])).length =
      (headerOf cellKeyId objects).length +
        (((pendingOf cellKeyId limit objects).reference o.1 o.2.length).toVec.length +
          if (refsFrom 0 objects).isEmpty then 0 else 1) := by
    unfold headerOf
    rw [hrefs, length_toVec_append]
  have hpayload : payloadOf (objects ++ [o]) = payloadOf objects ++ o.2 := by
    simp [payloadOf]
  unfold pendingOf at hheader hrefs ⊢
  rw [hheader, hrefs, hpayload, List.map_append]
  rfl

/-- A frame that is finished has a header that is not too long. -/
theorem finish_pendingOf {frame : Frame}
    (h : (pendingOf cellKeyId limit objects).finish = .ok frame) :
    (headerOf cellKeyId objects).length ≤ maxHeader ∧
      frame.bytes = frameBytesOf cellKeyId objects := by
  unfold Pending.finish at h
  simp only at h
  split_ifs at h with hlen
  cases h
  exact ⟨hlen, rfl⟩

variable (cellKeyId limit) in
/-- A group of objects that was given a frame: more than one object only within the limit. -/
structure Grouped (g : List (ObjectId × Bytes)) : Prop where
  nonempty : g ≠ []
  small : (∃ o, g = [o]) ∨ (frameBytesOf cellKeyId g).length ≤ limit

/-- **The next object fits** if the frame is empty, or the frame with it keeps within the limit:
the length of the header is kept up to date. -/
theorem fits_pendingOf (o : ObjectId × Bytes) :
    (pendingOf cellKeyId limit objects).fits o.1 o.2.length = true ↔
      objects = [] ∨ (frameBytesOf cellKeyId (objects ++ [o])).length ≤ limit := by
  have hempty : (pendingOf cellKeyId limit objects).refs.isEmpty = objects.isEmpty :=
    refsFrom_isEmpty 0
  unfold Pending.fits
  rw [Bool.or_eq_true, decide_eq_true_eq, hempty, List.isEmpty_iff]
  by_cases hnil : objects = []
  · simp [hnil]
  · have hpush := congrArg Pending.headerLen (@push_pendingOf cellKeyId limit objects o)
    have hheader : (headerOf cellKeyId objects).length +
        (((pendingOf cellKeyId limit objects).reference o.1 o.2.length).toVec.length + 1) =
        (headerOf cellKeyId (objects ++ [o])).length := by
      have hold : (pendingOf cellKeyId limit objects).refs.isEmpty = false := by
        rw [hempty]
        simpa using hnil
      unfold Pending.push at hpush
      simp only [hold, Bool.false_eq_true, if_false] at hpush
      exact hpush
    have hpayload : (payloadOf (objects ++ [o])).length =
        (payloadOf objects).length + o.2.length := by simp [payloadOf]
    have hl : (pendingOf cellKeyId limit objects).headerLen =
        (headerOf cellKeyId objects).length := rfl
    have hp : (pendingOf cellKeyId limit objects).payload = payloadOf objects := rfl
    have hm : (pendingOf cellKeyId limit objects).limit = limit := rfl
    rw [length_frameBytesOf, hpayload, ← hheader, length_frameMagic, hl, hp, hm]
    refine or_congr_right ?_
    omega

/-- An object that fits is added within the limit. -/
theorem grouped_of_fits {o : ObjectId × Bytes}
    (h : (pendingOf cellKeyId limit objects).fits o.1 o.2.length = true) :
    Grouped cellKeyId limit (objects ++ [o]) where
  nonempty := by simp
  small := by
    rcases (fits_pendingOf o).mp h with hnil | hlen
    · exact Or.inl ⟨o, by rw [hnil]; rfl⟩
    · exact Or.inr hlen

variable (cellKeyId limit) in
/-- What holds while objects are packed: the finished frames are those of groups, and the rest is
pending. -/
structure Packed (consumed : List (ObjectId × Bytes)) (st : Pending × List Frame) : Prop where
  split : ∃ (groups : List (List (ObjectId × Bytes))) (current : List (ObjectId × Bytes)),
    groups.flatten ++ current = consumed ∧
    st.1 = pendingOf cellKeyId limit current ∧
    st.2.map Frame.bytes = groups.map (frameBytesOf cellKeyId) ∧
    (∀ g ∈ groups, Grouped cellKeyId limit g ∧ (headerOf cellKeyId g).length ≤ maxHeader) ∧
    (current = [] ∨ Grouped cellKeyId limit current)

/-- One object keeps what holds of the packing. -/
theorem Packed.packObject {consumed : List (ObjectId × Bytes)} {st st' : Pending × List Frame}
    {o : ObjectId × Bytes} (h : Packed cellKeyId limit consumed st)
    (hrun : packObject cellKeyId limit st o = .ok st') :
    Packed cellKeyId limit (consumed ++ [o]) st' := by
  obtain ⟨groups, current, hflat, hpending, hframes, hgroups, hcurrent⟩ := h.split
  unfold Furrow.packObject at hrun
  rw [hpending] at hrun
  split_ifs at hrun with hfits
  · cases hrun
    refine ⟨groups, current ++ [o], ?_, push_pendingOf o, hframes, hgroups,
      Or.inr (grouped_of_fits hfits)⟩
    rw [← hflat, List.append_assoc]
  · cases hfinish : (pendingOf cellKeyId limit current).finish with
    | error e =>
      rw [hfinish] at hrun
      cases hrun
    | ok frame =>
      rw [hfinish] at hrun
      cases hrun
      obtain ⟨hheader, hbytes⟩ := finish_pendingOf hfinish
      have hne : current ≠ [] := by
        rintro rfl
        exact hfits rfl
      have hnew : Pending.new cellKeyId limit = pendingOf cellKeyId limit [] := rfl
      refine ⟨groups ++ [current], [o], ?_, ?_, ?_, ?_, Or.inr ⟨by simp, Or.inl ⟨o, rfl⟩⟩⟩
      · rw [← hflat, List.flatten_append, List.flatten_singleton]
      · rw [hnew]
        exact push_pendingOf o
      · rw [List.map_append, List.map_append, hframes, List.map_singleton, List.map_singleton,
          hbytes]
      · intro g hg
        rcases List.mem_append.mp hg with hg | hg
        · exact hgroups g hg
        · rw [List.mem_singleton.mp hg]
          exact ⟨hcurrent.resolve_left hne, hheader⟩

/-- Objects packed one after the other. -/
theorem packed_of_foldlM {st : Pending × List Frame}
    (h : objects.foldlM (packObject cellKeyId limit) (Pending.new cellKeyId limit, []) = .ok st) :
    Packed cellKeyId limit objects st := by
  have hfold : ∀ (rest consumed : List (ObjectId × Bytes)) (st st' : Pending × List Frame),
      Packed cellKeyId limit consumed st →
      rest.foldlM (packObject cellKeyId limit) st = .ok st' →
      Packed cellKeyId limit (consumed ++ rest) st' := by
    intro rest
    induction rest with
    | nil =>
      intro consumed st st' hst hrun
      cases hrun
      rwa [List.append_nil]
    | cons o rest ih =>
      intro consumed st st' hst hrun
      rw [List.foldlM_cons] at hrun
      cases hone : packObject cellKeyId limit st o with
      | error e =>
        rw [hone] at hrun
        cases hrun
      | ok st₁ =>
        rw [hone] at hrun
        have hnext := ih (consumed ++ [o]) st₁ st' (hst.packObject hone) hrun
        rwa [List.append_assoc] at hnext
  have hstart : Packed cellKeyId limit [] (Pending.new cellKeyId limit, []) :=
    ⟨[], [], rfl, rfl, rfl, fun g hg => absurd hg List.not_mem_nil, Or.inl rfl⟩
  exact hfold objects [] _ _ hstart h

/-- **Packing writes the frames of groups of the objects**, in order.  A group of more than one
object keeps within the limit. -/
theorem pack_spec {frames : List Frame} (h : pack cellKeyId limit objects = .ok frames) :
    ∃ groups : List (List (ObjectId × Bytes)), groups.flatten = objects ∧
      frames.map Frame.bytes = groups.map (frameBytesOf cellKeyId) ∧
      ∀ g ∈ groups, Grouped cellKeyId limit g ∧ (headerOf cellKeyId g).length ≤ maxHeader := by
  unfold pack at h
  cases hrun : objects.foldlM (packObject cellKeyId limit) (Pending.new cellKeyId limit, []) with
  | error e =>
    rw [hrun] at h
    cases h
  | ok st =>
    rw [hrun] at h
    obtain ⟨groups, current, hflat, hpending, hframes, hgroups, hcurrent⟩ :=
      (packed_of_foldlM hrun).split
    simp only [bind, Except.bind] at h
    rw [hpending] at h
    have hempty : (pendingOf cellKeyId limit current).refs.isEmpty = current.isEmpty :=
      refsFrom_isEmpty 0
    rw [hempty] at h
    split_ifs at h with hnil
    · cases h
      rw [List.isEmpty_iff.mp hnil, List.append_nil] at hflat
      exact ⟨groups, hflat, hframes, hgroups⟩
    · cases hfinish : (pendingOf cellKeyId limit current).finish with
      | error e =>
        rw [hfinish] at h
        cases h
      | ok frame =>
        rw [hfinish] at h
        cases h
        obtain ⟨hheader, hbytes⟩ := finish_pendingOf hfinish
        have hne : current ≠ [] := by
          rintro rfl
          exact hnil rfl
        refine ⟨groups ++ [current], ?_, ?_, ?_⟩
        · rw [← hflat, List.flatten_append, List.flatten_singleton]
        · rw [List.map_append, List.map_append, hframes, List.map_singleton,
            List.map_singleton, hbytes]
        · intro g hg
          rcases List.mem_append.mp hg with hg | hg
          · exact hgroups g hg
          · rw [List.mem_singleton.mp hg]
            exact ⟨hcurrent.resolve_left hne, hheader⟩

/-! ## What splitting reads -/

/-- A digit is read back. -/
theorem hexValue_hexDigit {n : ℕ} (h : n < 16) : hexValue (hexDigit n) = some n := by
  have hall : ∀ m : Fin 16, hexValue (hexDigit m.val) = some m.val := by decide
  exact hall ⟨n, h⟩

/-- Bytes are read back from their digits. -/
theorem hexDecode_hexEncode (bytes : Bytes) : hexDecode (hexEncode bytes) = some bytes := by
  induction bytes with
  | nil => rfl
  | cons b bytes ih =>
    have hb := b.isLt
    have hstep : hexEncode (b :: bytes) =
        hexDigit (b.val / 16) :: hexDigit (b.val % 16) :: hexEncode bytes := rfl
    have hbyte : Fin.ofNat 256 (16 * (b.val / 16) + b.val % 16) = b := by
      rw [Nat.div_add_mod]
      exact Fin.ofNat_val_eq_self b
    rw [hstep, hexDecode, hexValue_hexDigit (by omega), hexValue_hexDigit (by omega), ih]
    simp only [hbyte]

/-- An identifier is read back from its text. -/
theorem parseRid_idHex (id : ObjectId) : parseRid (idHex id) = some id := by
  unfold parseRid idHex
  rw [hexDecode_hexEncode]
  simp only [id.length_eq, dite_true]

/-- The objects of a frame are read back, from any offset on. -/
theorem objectsFrom_refsFrom (before : Bytes) (objects : List (ObjectId × Bytes))
    (seen : List ObjectId) (hlen : ∀ o ∈ objects, o.2.length < 2 ^ 32)
    (hseal : ∀ o ∈ objects, sealMagic <+: o.2) (hnodup : (objects.map Prod.fst).Nodup)
    (hseen : ∀ o ∈ objects, o.1 ∉ seen) :
    objectsFrom (before ++ payloadOf objects) (refsFrom before.length objects) seen before.length =
      .ok objects := by
  induction objects generalizing before seen with
  | nil => simp [refsFrom, objectsFrom, payloadOf]
  | cons o objects ih =>
    have hpayload : payloadOf (o :: objects) = o.2 ++ payloadOf objects := by simp [payloadOf]
    have hmod : o.2.length % 2 ^ 32 = o.2.length :=
      Nat.mod_eq_of_lt (hlen o List.mem_cons_self)
    have hbound : ¬ (before ++ payloadOf (o :: objects)).length <
        before.length + o.2.length := by
      rw [hpayload]
      simp only [List.length_append]
      omega
    have hbytes : ((before ++ payloadOf (o :: objects)).drop before.length).take o.2.length =
        o.2 := by
      rw [List.drop_left, hpayload, List.take_left]
    have hmagic : sealMagic.isPrefixOf o.2 = true :=
      List.isPrefixOf_iff_prefix.mpr (hseal o List.mem_cons_self)
    have hrest := ih (before ++ o.2) (o.1 :: seen)
      (fun d hd => hlen d (List.mem_cons_of_mem _ hd))
      (fun d hd => hseal d (List.mem_cons_of_mem _ hd)) (List.nodup_cons.mp hnodup).2 (by
        intro d hd hmem
        rcases List.mem_cons.mp hmem with heq | hmem
        · exact (List.nodup_cons.mp hnodup).1 (heq ▸ List.mem_map_of_mem hd)
        · exact hseen d (List.mem_cons_of_mem _ hd) hmem)
    rw [List.append_assoc, ← hpayload, List.length_append] at hrest
    simp only [refsFrom, objectsFrom, ne_eq, not_true_eq_false, if_false, parseRid_idHex,
      hseen o List.mem_cons_self, hmod, hbound, hbytes, hmagic, if_true, hrest, bind, Except.bind]

/-- **The reader of headers inverts the writer**, on the headers that are written. -/
def ReadsHeaders (fromSlice : Bytes → Option Header) : Prop :=
  ∀ cellKeyId objects, isKeyId cellKeyId = true →
    fromSlice (headerOf cellKeyId objects) = some ⟨frameVersion, cellKeyId, refsFrom 0 objects⟩

/-- What a frame must be for the store to take it, apart from its size. -/
structure Sendable (cellKeyId : Bytes) (objects : List (ObjectId × Bytes)) : Prop where
  key : isKeyId cellKeyId = true
  nonempty : objects ≠ []
  header : (headerOf cellKeyId objects).length ≤ maxHeader
  nodup : (objects.map Prod.fst).Nodup
  sealed : ∀ o ∈ objects, sealMagic <+: o.2

/-- An object is no longer than the payload. -/
theorem length_le_payloadOf {o : ObjectId × Bytes} (h : o ∈ objects) :
    o.2.length ≤ (payloadOf objects).length := by
  obtain ⟨before, after, rfl⟩ := List.append_of_mem h
  simp only [payloadOf, List.flatMap_append, List.flatMap_cons, List.length_append]
  omega

/-- **How a frame is split**: its header is read back, and the payload is divided as it says. -/
theorem decodeFrame_frameBytesOf_eq {fromSlice : Bytes → Option Header}
    (hreads : ReadsHeaders fromSlice) (hkey : isKeyId cellKeyId = true)
    (hlength : (headerOf cellKeyId objects).length ≤ maxHeader) :
    decodeFrame fromSlice (frameBytesOf cellKeyId objects) =
      if maxFrame < (frameBytesOf cellKeyId objects).length then .error .tooLarge
      else (objectsOfFrame (refsFrom 0 objects) (payloadOf objects)).map fun os =>
        (cellKeyId, os) := by
  unfold decodeFrame
  by_cases hlarge : maxFrame < (frameBytesOf cellKeyId objects).length
  · rw [if_pos hlarge, if_pos hlarge]
  · rw [if_neg hlarge, if_neg hlarge]
    have hform : frameBytesOf cellKeyId objects = frameMagic ++
        (LittleEndian.bytes 4 (headerOf cellKeyId objects).length ++
          (headerOf cellKeyId objects ++ payloadOf objects)) := by
      unfold frameBytesOf
      simp only [List.append_assoc]
    have hmagic : frameMagic.isPrefixOf (frameBytesOf cellKeyId objects) = true := by
      rw [List.isPrefixOf_iff_prefix, hform]
      exact List.prefix_append _ _
    have hrest : (frameBytesOf cellKeyId objects).drop frameMagic.length =
        LittleEndian.bytes 4 (headerOf cellKeyId objects).length ++
          (headerOf cellKeyId objects ++ payloadOf objects) := by
      rw [hform, List.drop_left]
    have hfour : (LittleEndian.bytes 4 (headerOf cellKeyId objects).length).length = 4 :=
      LittleEndian.length_bytes 4 _
    have hvalue : LittleEndian.value
        ((LittleEndian.bytes 4 (headerOf cellKeyId objects).length ++
          (headerOf cellKeyId objects ++ payloadOf objects)).take 4) =
        (headerOf cellKeyId objects).length := by
      rw [List.take_left' hfour, LittleEndian.value_bytes]
      refine Nat.mod_eq_of_lt (lt_of_le_of_lt hlength ?_)
      decide
    have hafter : (LittleEndian.bytes 4 (headerOf cellKeyId objects).length ++
        (headerOf cellKeyId objects ++ payloadOf objects)).drop 4 =
        headerOf cellKeyId objects ++ payloadOf objects := List.drop_left' hfour
    have hheader : ¬ maxHeader < (headerOf cellKeyId objects).length := not_lt.mpr hlength
    simp only [hmagic, not_true_eq_false, if_false, hrest, hvalue, hafter, hheader,
      List.take_left, List.drop_left, hreads cellKeyId objects hkey, ne_eq, hkey]
    rw [if_neg (by simp), if_neg (by simp)]

/-- **A frame is split into its objects exactly if it is not too large.** -/
theorem decodeFrame_frameBytesOf {fromSlice : Bytes → Option Header}
    (hreads : ReadsHeaders fromSlice) (h : Sendable cellKeyId objects) :
    decodeFrame fromSlice (frameBytesOf cellKeyId objects) =
      if maxFrame < (frameBytesOf cellKeyId objects).length then .error .tooLarge
      else .ok (cellKeyId, objects) := by
  rw [decodeFrame_frameBytesOf_eq hreads h.key h.header]
  by_cases hlarge : maxFrame < (frameBytesOf cellKeyId objects).length
  · rw [if_pos hlarge, if_pos hlarge]
  · rw [if_neg hlarge, if_neg hlarge]
    have hlen := @length_frameBytesOf cellKeyId objects
    have hsmall : ∀ o ∈ objects, o.2.length < 2 ^ 32 := by
      intro o ho
      have hle := length_le_payloadOf ho
      unfold maxFrame at hlarge
      omega
    have hobjects : objectsOfFrame (refsFrom 0 objects) (payloadOf objects) = .ok objects := by
      unfold objectsOfFrame
      rw [refsFrom_isEmpty, if_neg (by simpa using h.nonempty)]
      have hread := objectsFrom_refsFrom [] objects [] hsmall h.sealed h.nodup (by simp)
      rwa [List.nil_append] at hread
    rw [hobjects]
    rfl

/-! ## The size of a frame -/

/-- Smaller numbers have no more digits. -/
theorem length_decimal_le {m n : ℕ} (h : m ≤ n) : (decimal m).length ≤ (decimal n).length := by
  unfold decimal
  split_ifs with hm hn hn
  · exact le_rfl
  · simp only [List.length_map, List.length_reverse, List.length_singleton]
    exact List.length_pos_iff.mpr (Nat.digits_ne_nil_iff_ne_zero.mpr hn)
  · omega
  · simp only [List.length_map, List.length_reverse]
    exact Nat.le_length_digits_le 10 m n h

/-- Every object is referred to. -/
theorem exists_ref_of_mem {o : ObjectId × Bytes} (h : o ∈ objects) (off : ℕ) :
    ∃ off', (⟨idHex o.1, off', o.2.length % 2 ^ 32⟩ : ObjectRef) ∈ refsFrom off objects := by
  induction objects generalizing off with
  | nil => exact absurd h List.not_mem_nil
  | cons d objects ih =>
    rcases List.mem_cons.mp h with rfl | h
    · exact ⟨off, List.mem_cons_self⟩
    · obtain ⟨off', hmem⟩ := ih h (off + d.2.length)
      exact ⟨off', List.mem_cons_of_mem _ hmem⟩

/-- A frame is at least as large as the frame of each of its objects alone. -/
theorem length_single_le {o : ObjectId × Bytes} (h : o ∈ objects) :
    (frameBytesOf cellKeyId [o]).length ≤ (frameBytesOf cellKeyId objects).length := by
  obtain ⟨off, href⟩ := exists_ref_of_mem h 0
  have hpayload := length_le_payloadOf h
  have hone : (payloadOf [o]).length = o.2.length := by simp [payloadOf]
  have hheader : (headerOf cellKeyId [o]).length ≤ (headerOf cellKeyId objects).length := by
    have hmem := length_le_commaSeparated
      (List.mem_map_of_mem (f := ObjectRef.toVec) href)
    have hoff := length_decimal_le (Nat.zero_le off)
    unfold headerOf Header.toVec
    simp only [refsFrom, List.map_cons, List.map_nil, commaSeparated, List.length_append]
    have hvec : (ObjectRef.toVec ⟨idHex o.1, 0, o.2.length % 2 ^ 32⟩).length ≤
        (ObjectRef.toVec ⟨idHex o.1, off, o.2.length % 2 ^ 32⟩).length := by
      unfold ObjectRef.toVec
      simp only [List.length_append]
      omega
    omega
  rw [length_frameBytesOf, length_frameBytesOf]
  omega

/-- Two digits for each byte. -/
theorem length_hexEncode (bytes : Bytes) : (hexEncode bytes).length = 2 * bytes.length := by
  induction bytes with
  | nil => rfl
  | cons b bytes ih =>
    have hstep : hexEncode (b :: bytes) =
        hexDigit (b.val / 16) :: hexDigit (b.val % 16) :: hexEncode bytes := rfl
    simp only [hstep, List.length_cons, ih]
    omega

/-- An identifier has 64 digits. -/
theorem length_idHex (id : ObjectId) : (idHex id).length = 64 := by
  rw [idHex, length_hexEncode, id.length_eq]

/-- The header of one object is never too large. -/
theorem length_headerOf_single (hkey : isKeyId cellKeyId = true) (o : ObjectId × Bytes) :
    (headerOf cellKeyId [o]).length ≤ maxHeader := by
  have hkeyLen : cellKeyId.length = 32 := by
    unfold isKeyId at hkey
    rw [Bool.and_eq_true, beq_iff_eq] at hkey
    exact hkey.1
  have hbound : o.2.length % 2 ^ 32 ≤ 4294967295 := by omega
  have hlen := length_decimal_le hbound
  have hten : (decimal 4294967295).length = 10 := by norm_num [decimal]
  have hzero : (decimal 0).length = 1 := rfl
  have hone : (decimal 1).length = 1 := by norm_num [decimal]
  have hv : (text "\x7b\"V\":").length = 5 := by decide
  have hc : (text ",\"cell_key_id\":\"").length = 16 := by decide
  have ho : (text "\",\"objects\":[").length = 13 := by decide
  have he : (text "]\x7d").length = 2 := by decide
  have hr : (text "\x7b\"rid\":\"").length = 8 := by decide
  have hf : (text "\",\"off\":").length = 8 := by decide
  have hl : (text ",\"len\":").length = 7 := by decide
  have hd : (text "\x7d").length = 1 := by decide
  unfold headerOf Header.toVec
  simp only [refsFrom, List.map_cons, List.map_nil, commaSeparated, ObjectRef.toVec,
    List.length_append, length_idHex, hkeyLen, frameVersion, maxHeader] at hlen ⊢
  omega

/-- One object is packed into one frame. -/
theorem pack_single (hkey : isKeyId cellKeyId = true) (o : ObjectId × Bytes) :
    pack cellKeyId limit [o] = .ok [⟨frameBytesOf cellKeyId [o], [o.1]⟩] := by
  have hnew : Pending.new cellKeyId limit = pendingOf cellKeyId limit [] := rfl
  have hpush : packObject cellKeyId limit (pendingOf cellKeyId limit [], []) o =
      .ok (pendingOf cellKeyId limit [o], []) := by
    have hfits : (pendingOf cellKeyId limit []).fits o.1 o.2.length = true := rfl
    unfold packObject
    rw [if_pos hfits, push_pendingOf]
    rfl
  have hfinish : (pendingOf cellKeyId limit [o]).finish =
      .ok ⟨frameBytesOf cellKeyId [o], [o.1]⟩ := by
    unfold Pending.finish
    exact if_pos (length_headerOf_single hkey o)
  unfold pack
  rw [hnew, List.foldlM_cons, hpush]
  simp only [List.foldlM_nil, bind, Except.bind, pure, Except.pure]
  have hempty : (pendingOf cellKeyId limit [o]).refs.isEmpty = false := rfl
  rw [hempty, hfinish]
  rfl

/-! ## A header is determined by its text -/

/-- The number that a decimal text stands for. -/
def decimalValue (text : Bytes) : ℕ := Nat.ofDigits 10 (text.reverse.map fun b => b.val - 48)

/-- A number is read back from its digits. -/
theorem decimalValue_decimal (n : ℕ) : decimalValue (decimal n) = n := by
  unfold decimalValue decimal
  split_ifs with hn
  · rw [hn]
    rfl
  · rw [← List.map_reverse, List.reverse_reverse, List.map_map]
    have hdigits : (Nat.digits 10 n).map
        ((fun b : Byte => b.val - 48) ∘ fun d => Fin.ofNat 256 (48 + d)) = Nat.digits 10 n := by
      rw [List.map_congr_left (g := id), List.map_id]
      intro d hd
      have hlt := Nat.digits_lt_base (by norm_num) hd
      simp only [Function.comp_apply, Fin.val_ofNat, id]
      omega
    rw [hdigits, Nat.ofDigits_digits]

/-- A decimal digit. -/
def isDigit (b : Byte) : Bool := decide (48 ≤ b.val ∧ b.val ≤ 57)

/-- A number is written in digits. -/
theorem isDigit_of_mem_decimal {n : ℕ} {b : Byte} (h : b ∈ decimal n) : isDigit b = true := by
  unfold decimal at h
  split_ifs at h with hn
  · rw [List.mem_singleton.mp h]
    decide
  · obtain ⟨d, hd, rfl⟩ := List.mem_map.mp h
    have hlt := Nat.digits_lt_base (by norm_num) (List.mem_reverse.mp hd)
    unfold isDigit
    rw [decide_eq_true_eq, Fin.val_ofNat]
    omega

/-- A number ends where the digits end. -/
theorem decimal_append_inj {m n : ℕ} {x : Byte} {s t : Bytes} (hx : isDigit x = false)
    (h : decimal m ++ x :: s = decimal n ++ x :: t) : m = n ∧ s = t := by
  have htake : ∀ (k : ℕ) (r : Bytes), (decimal k ++ x :: r).takeWhile isDigit = decimal k := by
    intro k r
    rw [List.takeWhile_append_of_pos fun b hb => isDigit_of_mem_decimal hb,
      List.takeWhile_cons_of_neg (by rw [hx]; exact Bool.false_ne_true), List.append_nil]
  have hdec : decimal m = decimal n := by rw [← htake m s, h, htake n t]
  rw [hdec] at h
  refine ⟨?_, (List.cons.inj (List.append_cancel_left h)).2⟩
  rw [← decimalValue_decimal m, hdec, decimalValue_decimal]

/-- A reference ends with its brace. -/
theorem toVec_append_inj {r r' : ObjectRef} {s t : Bytes} (hr : r.rid.length = 64)
    (hr' : r'.rid.length = 64) (h : r.toVec ++ s = r'.toVec ++ t) : r = r' ∧ s = t := by
  obtain ⟨rid, off, len⟩ := r
  obtain ⟨rid', off', len'⟩ := r'
  unfold ObjectRef.toVec at h
  simp only [List.append_assoc] at h hr hr'
  obtain ⟨hrid, h⟩ := List.append_inj (List.append_cancel_left h) (hr.trans hr'.symm)
  have hcomma : text ",\"len\":" = 44 :: text "\"len\":" := by decide
  rw [hcomma] at h
  obtain ⟨hoff, h⟩ := decimal_append_inj (by decide) (List.append_cancel_left h)
  have hbrace : text "\x7d" = [125] := by decide
  rw [hbrace] at h
  obtain ⟨hlen, h⟩ := decimal_append_inj (by decide) (List.append_cancel_left h)
  rw [hrid, hoff, hlen]
  exact ⟨rfl, h⟩

/-- A reference is not empty. -/
theorem toVec_ne_nil (r : ObjectRef) : r.toVec ≠ [] := by
  have hr : text "\x7b\"rid\":\"" ≠ [] := by decide
  unfold ObjectRef.toVec
  simp [hr]

/-- Lists of references differ if their texts do not. -/
theorem commaSeparated_inj {refs refs' : List ObjectRef} (hrefs : ∀ r ∈ refs, r.rid.length = 64)
    (hrefs' : ∀ r ∈ refs', r.rid.length = 64)
    (h : commaSeparated (refs.map ObjectRef.toVec) = commaSeparated (refs'.map ObjectRef.toVec)) :
    refs = refs' := by
  have hhead : ∀ (r : ObjectRef) (rest : List ObjectRef), ∃ s,
      commaSeparated ((r :: rest).map ObjectRef.toVec) = r.toVec ++ s ∧
        (rest = [] ∧ s = [] ∨ rest ≠ [] ∧
          s = text "," ++ commaSeparated (rest.map ObjectRef.toVec)) := by
    intro r rest
    cases rest with
    | nil => exact ⟨[], by simp [commaSeparated], Or.inl ⟨rfl, rfl⟩⟩
    | cons c rest =>
      refine ⟨_, ?_, Or.inr ⟨by simp, rfl⟩⟩
      simp [commaSeparated]
  have hcomma : ∀ s : Bytes, text "," ++ s ≠ [] := by
    intro s
    have hne : text "," ≠ [] := by decide
    simp [hne]
  induction refs generalizing refs' with
  | nil =>
    cases refs' with
    | nil => rfl
    | cons r' rest' =>
      obtain ⟨s, hs, -⟩ := hhead r' rest'
      rw [hs] at h
      have hnil := (List.append_eq_nil_iff.mp h.symm).1
      exact absurd hnil (toVec_ne_nil r')
  | cons r rest ih =>
    cases refs' with
    | nil =>
      obtain ⟨s, hs, -⟩ := hhead r rest
      rw [hs] at h
      exact absurd (List.append_eq_nil_iff.mp h).1 (toVec_ne_nil r)
    | cons r' rest' =>
      obtain ⟨s, hs, hcase⟩ := hhead r rest
      obtain ⟨s', hs', hcase'⟩ := hhead r' rest'
      rw [hs, hs'] at h
      obtain ⟨rfl, rfl⟩ :=
        toVec_append_inj (hrefs r List.mem_cons_self) (hrefs' r' List.mem_cons_self) h
      rcases hcase with ⟨rfl, hnil⟩ | ⟨-, hrest⟩
      · rcases hcase' with ⟨rfl, -⟩ | ⟨-, hrest'⟩
        · rfl
        · exact absurd (hnil ▸ hrest').symm (hcomma _)
      · rcases hcase' with ⟨-, hnil'⟩ | ⟨-, hrest'⟩
        · exact absurd (hnil' ▸ hrest).symm (hcomma _)
        · rw [hrest] at hrest'
          rw [ih (fun d hd => hrefs d (List.mem_cons_of_mem _ hd))
            (fun d hd => hrefs' d (List.mem_cons_of_mem _ hd))
            (List.append_cancel_left hrest')]

/-- A reference names its object by 64 digits. -/
theorem length_rid_of_mem_refsFrom {off : ℕ} {r : ObjectRef} (h : r ∈ refsFrom off objects) :
    r.rid.length = 64 := by
  induction objects generalizing off with
  | nil => exact absurd h List.not_mem_nil
  | cons o objects ih =>
    rcases List.mem_cons.mp h with rfl | h
    · exact length_idHex o.1
    · exact ih h

/-- **The text of a header determines the header.** -/
theorem headerOf_inj {cellKeyId' : Bytes} {objects' : List (ObjectId × Bytes)}
    (hkey : isKeyId cellKeyId = true) (hkey' : isKeyId cellKeyId' = true)
    (h : headerOf cellKeyId objects = headerOf cellKeyId' objects') :
    cellKeyId = cellKeyId' ∧ refsFrom 0 objects = refsFrom 0 objects' := by
  have hlen : ∀ key, isKeyId key = true → key.length = 32 := by
    intro key hk
    unfold isKeyId at hk
    rw [Bool.and_eq_true, beq_iff_eq] at hk
    exact hk.1
  unfold headerOf Header.toVec at h
  simp only [List.append_assoc] at h
  have hrest := List.append_cancel_left (List.append_cancel_left (List.append_cancel_left h))
  obtain ⟨hkeys, hrest⟩ := List.append_inj hrest ((hlen _ hkey).trans (hlen _ hkey').symm)
  refine ⟨hkeys, commaSeparated_inj (fun r hr => length_rid_of_mem_refsFrom hr)
    (fun r hr => length_rid_of_mem_refsFrom hr) ?_⟩
  exact List.append_cancel_right (List.append_cancel_left hrest)

end Furrow
