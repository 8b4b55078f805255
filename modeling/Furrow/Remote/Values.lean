import Furrow.Remote.Frame
import Furrow.Lib.OrdMap
import Furrow.Exchange.Frame

set_option relaxedAutoImplicit false
set_option autoImplicit false

/-!
# Values of a directory remote

Sessions of `remote.rs` that write to one directory: directly, value by value, or through a helper
that receives a frame.  The helper keeps the frame as a file under the name of its hash, and for
each key a pointer to the place of its value in the frame.

## Main definitions

* `Furrow.Remote` — the files of the directory and the locks of the sessions.
* `Furrow.readRemoteValue` — the value of a key, through its pointer if it is one.
* `Furrow.Remote.step` — one call of a session.
* `Furrow.PlainMap.step` — the same call on a map from keys to values.
* `Furrow.lastWritten` — the last value of a key among those that were written.

## Main results

* `Furrow.run_eq_plainRun` — the two agree on every answer and every value that is read, and a read
  gives the last value that was written.
-/

namespace Furrow

open SepOrder

/-- `MAX_FRAME_BYTES` -/
def maxFrameBytes : ℕ := 20 * 1024 * 1024

/-- What goes wrong with a call. -/
inductive RemoteError
  | key (e : KeyError)
  | frame (e : WriteFrameError)
  /-- `remote value exceeds its size limit` -/
  | valueTooLarge
  /-- `remote write requires the writer lock` -/
  | notLocked
  /-- `remote writer lock is already held` -/
  | lockHeld
  /-- `another sync operation is updating the remote` -/
  | contended
  /-- `remote frame is too large` -/
  | frameTooLarge
  /-- A file stands where a directory should be, or a directory where a file should be. -/
  | blocked
deriving DecidableEq

/-- What goes wrong with a read. -/
inductive ReadError
  | key (e : KeyError)
  /-- `invalid remote read limit` -/
  | limit
  | notFound
  /-- `remote file exceeds its size limit` -/
  | fileTooLarge
  /-- `invalid remote frame pointer` -/
  | pointer
  /-- `invalid remote frame ID` -/
  | frameId
  /-- `remote frame value exceeds its size limit` -/
  | valueTooLarge
  /-- `remote frame pointer is out of bounds` -/
  | outOfBounds
deriving DecidableEq

/-- The files of a directory, by their paths. -/
abbrev Files := OrdMap Bytes Bytes

/-- A directory and the locks that are held: the session, and the reference that is locked. -/
structure Remote where
  files : Files
  locks : List (ℕ × Option Bytes)

/-- One call of a session. -/
inductive Call
  /-- `set_ref` and `begin_writer` -/
  | beginWriter (session : ℕ) (ref : Option Bytes)
  /-- `end_writer` -/
  | endWriter (session : ℕ)
  /-- `write` -/
  | write (session : ℕ) (key value : Bytes)
  /-- `write_many` on the directory itself. -/
  | writeMany (session : ℕ) (values : List (Bytes × Bytes))
  /-- `write_many` through a helper on the directory. -/
  | writeFrame (session : ℕ) (values : List (Bytes × Bytes))

/-! ## Files -/

/-- Whether a file stands above a path, or the path is a directory. -/
def Files.blocked (files : Files) (path : Bytes) : Bool :=
  files.keys.any fun p => (p ++ [slash]).isPrefixOf path || (path ++ [slash]).isPrefixOf p

/-- Replace a file (`atomic_write`, `atomic_write_relaxed`). -/
def atomicWrite (files : Files) (path bytes : Bytes) : Except RemoteError Files :=
  if files.blocked path then .error .blocked else .ok (files.insert path bytes)

/-- Write values one after the other, up to the first that fails. -/
def writeEach (files : Files) : List (Bytes × Bytes) → Except RemoteError Unit × Files
  | [] => (.ok (), files)
  | (key, bytes) :: values =>
    match atomicWrite files key bytes with
    | .error e => (.error e, files)
    | .ok files => writeEach files values

/-! ## Frames -/

/-- `FRAME_POINTER_MAGIC` -/
def framePointerMagic : Bytes := text "AGFP" ++ [1]

/-- The file of a frame. -/
def framePath (frameId : Bytes) : Bytes := text "frames/" ++ frameId

/-- The pointer to a value in a frame. -/
def framePointer (frameId : Bytes) (slice : FrameSlice) : Bytes :=
  framePointerMagic ++ frameId ++ LittleEndian.bytes 8 slice.offset ++
    LittleEndian.bytes 8 slice.bytes.length

variable (hash : Bytes → ObjectId)

/-- Keep a frame and point to its values (`write_packed_frame`). -/
def writePackedFrame (files : Files) (payload : Bytes) (slices : List FrameSlice) :
    Except RemoteError Unit × Files :=
  let frameId := hexEncode (hash payload).bytes
  let pointers := slices.map fun slice => (slice.key, framePointer frameId slice)
  if (files.get? (framePath frameId)).isSome then writeEach files pointers
  else
    match atomicWrite files (framePath frameId) payload with
    | .error e => (.error e, files)
    | .ok files => writeEach files pointers

/-- The bytes of a file that is not too large (`read_bounded`). -/
def readBounded (files : Files) (path : Bytes) (limit : ℕ) : Except ReadError Bytes :=
  match files.get? path with
  | none => .error .notFound
  | some bytes => if bytes.length ≤ limit then .ok bytes else .error .fileTooLarge

/-- The value of a key (`read_remote_value`). -/
def readRemoteValue (files : Files) (key : Bytes) (limit : ℕ) : Except ReadError Bytes :=
  match readBounded files key (max limit 85) with
  | .error e => .error e
  | .ok pointer =>
    if ¬ framePointerMagic <+: pointer then
      if pointer.length ≤ limit then .ok pointer else .error .fileTooLarge
    else if pointer.length ≠ 85 then .error .pointer
    else
      let frameId := (pointer.drop 5).take 64
      if ¬ frameId.all isLowerHex then .error .frameId
      else
        let offset := LittleEndian.value ((pointer.drop 69).take 8)
        let length := LittleEndian.value ((pointer.drop 77).take 8)
        if limit < length then .error .valueTooLarge
        else
          match files.get? (framePath frameId) with
          | none => .error .notFound
          | some frame =>
            if 2 ^ 64 ≤ offset + length ∨ frame.length < offset + length then .error .outOfBounds
            else .ok ((frame.drop offset).take length)

/-! ## Calls -/

/-- The check of a value that is to be written. -/
def checkValue (v : Bytes × Bytes) : Except RemoteError Unit :=
  match keyLimit v.1 with
  | .error e => .error (.key e)
  | .ok limit => if v.2.length ≤ limit then .ok () else .error .valueTooLarge

/-- The checks of values, up to the first that fails. -/
def checkValues : List (Bytes × Bytes) → Except RemoteError Unit
  | [] => .ok ()
  | v :: values =>
    match checkValue v with
    | .error e => .error e
    | .ok () => checkValues values

namespace Remote

/-- Whether a session holds a lock. -/
def locked (r : Remote) (session : ℕ) : Bool := r.locks.any fun l => l.1 = session

/-- Take the lock of a reference (`set_ref`, `begin_writer`). -/
def beginWriter (r : Remote) (session : ℕ) (ref : Option Bytes) :
    Except RemoteError Unit × Remote :=
  match ref.elim (.ok ()) validateRef with
  | .error e => (.error (.key e), r)
  | .ok () =>
    let path := lockRelativePath ref
    if r.locked session then (.error .lockHeld, r)
    else if r.files.blocked path then (.error .blocked, r)
    else
      let files := if (r.files.get? path).isSome then r.files else r.files.insert path []
      if r.locks.any fun l => l.2 = ref then (.error .contended, ⟨files, r.locks⟩)
      else (.ok (), ⟨files, (session, ref) :: r.locks⟩)

/-- Give the lock back (`end_writer`). -/
def endWriter (r : Remote) (session : ℕ) : Except RemoteError Unit × Remote :=
  (.ok (), ⟨r.files, r.locks.filter fun l => l.1 ≠ session⟩)

/-- Write values after their checks, if the session holds a lock. -/
def writeChecked (r : Remote) (session : ℕ) (values : List (Bytes × Bytes)) :
    Except RemoteError Unit × Remote :=
  match checkValues values with
  | .error e => (.error e, r)
  | .ok () =>
    if ¬ r.locked session then (.error .notLocked, r)
    else
      let (result, files) := writeEach r.files values
      (result, ⟨files, r.locks⟩)

/-- Write one value (`write`). -/
def write (r : Remote) (session : ℕ) (key value : Bytes) : Except RemoteError Unit × Remote :=
  r.writeChecked session [(key, value)]

/-- Write many values, each to its own file (`write_many`). -/
def writeMany (r : Remote) (session : ℕ) (values : List (Bytes × Bytes)) :
    Except RemoteError Unit × Remote :=
  r.writeChecked session values

/-- Write many values as one frame (`write_many`, and `OP_WRITE_FRAME` of `handle_request`). -/
def writeFrame (r : Remote) (session : ℕ) (values : List (Bytes × Bytes)) :
    Except RemoteError Unit × Remote :=
  match checkValues values with
  | .error e => (.error e, r)
  | .ok () =>
    let payload := encodeWriteFrame values
    if maxFrameBytes < payload.length then (.error .frameTooLarge, r)
    else if ¬ r.locked session then (.error .notLocked, r)
    else
      match decodeWriteFrame payload with
      | .error e => (.error (.frame e), r)
      | .ok slices =>
        let (result, files) := writePackedFrame hash r.files payload slices
        (result, ⟨files, r.locks⟩)

/-- Read a key (`read`). -/
def read (r : Remote) (key : Bytes) (limit : ℕ) : Except ReadError Bytes :=
  match validateKey key with
  | .error e => .error (.key e)
  | .ok () =>
    if maxObjectBytes < limit then .error .limit else readRemoteValue r.files key limit

/-- One call on a directory remote. -/
def step (r : Remote) : Call → Except RemoteError Unit × Remote
  | .beginWriter session ref => r.beginWriter session ref
  | .endWriter session => r.endWriter session
  | .write session key value => r.write session key value
  | .writeMany session values => r.writeMany session values
  | .writeFrame session values => r.writeFrame hash session values

/-- The answers of a sequence of calls, and the remote after them. -/
def run : Remote → List Call → List (Except RemoteError Unit) × Remote
  | r, [] => ([], r)
  | r, call :: calls =>
    let (answer, r) := r.step hash call
    let (answers, r) := run r calls
    (answer :: answers, r)

end Remote

/-- The values of a call. -/
def Call.values : Call → List (Bytes × Bytes)
  | .beginWriter _ _ => []
  | .endWriter _ => []
  | .write _ key value => [(key, value)]
  | .writeMany _ values => values
  | .writeFrame _ values => values

/-! ## The plain map -/

/-- A map from keys to values, with the locks that are held and the files they were taken on. -/
structure PlainMap where
  value : Bytes → Option Bytes
  lockFiles : List Bytes
  locks : List (ℕ × Option Bytes)

namespace PlainMap

/-- The map that nothing was written to. -/
def empty : PlainMap := ⟨fun _ => none, [], []⟩

/-- There is a file at a path. -/
def Present (m : PlainMap) (path : Bytes) : Prop := (m.value path).isSome ∨ path ∈ m.lockFiles

/-- A file above a path, or below it: one of the two would have to be a directory. -/
def InWay (m : PlainMap) (path : Bytes) : Prop :=
  ∃ p, m.Present p ∧ (SepOrder.Below slash p path ∨ SepOrder.Below slash path p)

/-- A key gets a value, and all others keep theirs. -/
def set (m : PlainMap) (key value : Bytes) : PlainMap :=
  { m with value := Function.update m.value key (some value) }

/-- The key has its new value, and the others theirs. -/
theorem value_set (m : PlainMap) (key value path : Bytes) :
    (m.set key value).value path = if path = key then some value else m.value path :=
  Function.update_apply m.value key (some value) path

/-- The key is present, and what was. -/
theorem present_set {m : PlainMap} {key value path : Bytes} :
    (m.set key value).Present path ↔ path = key ∨ m.Present path := by
  unfold Present
  rw [value_set, set]
  by_cases hpath : path = key <;> simp [hpath]

open Classical in
/-- Keys get their values, up to the first that has a file in its way. -/
noncomputable def setAll (m : PlainMap) :
    List (Bytes × Bytes) → Except RemoteError Unit × PlainMap
  | [] => (.ok (), m)
  | (key, value) :: values =>
    if m.InWay key then (.error .blocked, m) else (m.set key value).setAll values

/-- Whether a session holds a lock. -/
def locked (m : PlainMap) (session : ℕ) : Bool := m.locks.any fun l => l.1 = session

open Classical in
/-- A session takes the lock of a reference, if no other one has it. -/
noncomputable def lock (m : PlainMap) (session : ℕ) (ref : Option Bytes) :
    Except RemoteError Unit × PlainMap :=
  match ref.elim (.ok ()) validateRef with
  | .error e => (.error (.key e), m)
  | .ok () =>
    let path := lockRelativePath ref
    if m.locked session then (.error .lockHeld, m)
    else if m.InWay path then (.error .blocked, m)
    else if m.locks.any fun l => l.2 = ref then
      (.error .contended, { m with lockFiles := path :: m.lockFiles })
    else (.ok (), ⟨m.value, path :: m.lockFiles, (session, ref) :: m.locks⟩)

/-- A session that holds a lock writes acceptable values. -/
noncomputable def write (m : PlainMap) (session : ℕ) (values : List (Bytes × Bytes)) :
    Except RemoteError Unit × PlainMap :=
  match checkValues values with
  | .error e => (.error e, m)
  | .ok () => if m.locked session then m.setAll values else (.error .notLocked, m)

/-- A frame is refused for its size and for the number of its values too. -/
noncomputable def writeFrame (m : PlainMap) (session : ℕ) (values : List (Bytes × Bytes)) :
    Except RemoteError Unit × PlainMap :=
  match checkValues values with
  | .error e => (.error e, m)
  | .ok () =>
    if maxFrameBytes < (encodeWriteFrame values).length then (.error .frameTooLarge, m)
    else if m.locked session ∧ maxHaveBatch < values.length then
      (.error (.frame .tooManyObjects), m)
    else m.write session values

/-- One call on the map. -/
noncomputable def step (m : PlainMap) : Call → Except RemoteError Unit × PlainMap
  | .beginWriter session ref => m.lock session ref
  | .endWriter session => (.ok (), { m with locks := m.locks.filter fun l => l.1 ≠ session })
  | .write session key value => m.write session [(key, value)]
  | .writeMany session values => m.write session values
  | .writeFrame session values => m.writeFrame session values

/-- The answers of a sequence of calls, and the map after them. -/
noncomputable def run : PlainMap → List Call → List (Except RemoteError Unit) × PlainMap
  | m, [] => ([], m)
  | m, call :: calls =>
    let (answer, m) := m.step call
    let (answers, m) := run m calls
    (answer :: answers, m)

end PlainMap

/-- What a reader who accepts at most `limit` bytes gets, where a key has a value. -/
def accepted (key : Bytes) (limit : ℕ) (value : Option Bytes) : Option Bytes :=
  if validateKey key = .ok () ∧ limit ≤ maxObjectBytes then
    value.filter fun value => value.length ≤ limit
  else none

/-- The last value of a key among those of the calls that were answered with success. -/
def lastWritten (log : List (Call × Except RemoteError Unit)) (key : Bytes) : Option Bytes :=
  (log.flatMap fun entry => if entry.2.isOk then entry.1.values else []).reverse.lookup key

/-- The frames of a sequence of calls. -/
def writeFramesOf (calls : List Call) : List Bytes :=
  calls.filterMap fun call =>
    match call with
    | .writeFrame _ values => some (encodeWriteFrame values)
    | _ => none

/-! ## Paths of keys and of frames -/

/-- Different bytes have different digits. -/
theorem hexEncode_injective : Function.Injective hexEncode := by
  intro a b h
  have hdecode := congrArg hexDecode h
  rw [hexDecode_hexEncode, hexDecode_hexEncode] at hdecode
  exact Option.some.inj hdecode

/-- Digits are in lower case. -/
theorem isLowerHex_hexEncode (bytes : Bytes) : (hexEncode bytes).all isLowerHex = true := by
  have hdigit : ∀ n < 16, isLowerHex (hexDigit n) = true := by decide
  rw [List.all_eq_true]
  intro b hb
  simp only [hexEncode, List.mem_flatMap, List.mem_cons, List.not_mem_nil, or_false] at hb
  obtain ⟨c, -, rfl | rfl⟩ := hb
  · exact hdigit _ (by omega)
  · exact hdigit _ (by omega)

/-- The first byte of the paths of frames. -/
def frameByte : Byte := 102

/-- The path of a frame begins with its own letter. -/
theorem head?_framePath (frameId : Bytes) : (framePath frameId).head? = some frameByte := rfl

/-- A path and one below it begin alike. -/
theorem head?_below {d k : Bytes} (h : SepOrder.Below slash d k) :
    d.head? = some frameByte ↔ k.head? = some frameByte := by
  obtain ⟨r, rfl⟩ := h
  cases d with
  | nil => simp [slash, frameByte]
  | cons b d => simp

/-- What begins with a path and a slash lies below it. -/
theorem prefix_slash_iff {p path : Bytes} :
    p ++ [slash] <+: path ↔ SepOrder.Below slash p path := by
  constructor
  · rintro ⟨t, rfl⟩
    exact ⟨t, by simp⟩
  · rintro ⟨t, rfl⟩
    exact ⟨t, by simp⟩

/-- A path is blocked by a file above or below it. -/
theorem blocked_iff {files : Files} {path : Bytes} :
    files.blocked path = true ↔
      ∃ p, (files.get? p).isSome ∧ (SepOrder.Below slash p path ∨ SepOrder.Below slash path p) := by
  simp only [Files.blocked, List.any_eq_true, Bool.or_eq_true, List.isPrefixOf_iff_prefix,
    OrdMap.mem_keys_iff, prefix_slash_iff]

/-- A key does not begin as a frame does. -/
theorem head?_of_validateKey {key : Bytes} (h : validateKey key = .ok ()) :
    key.head? ≠ some frameByte := by
  have hhead : (text "HEAD").head? ≠ some frameByte := by decide
  have hlease : (text "LEASE").head? ≠ some frameByte := by decide
  unfold validateKey at h
  split_ifs at h with hplain href hobject
  · rcases hplain with rfl | rfl
    · exact hhead
    · exact hlease
  · obtain ⟨rest, rfl⟩ := href
    have hrefs : ∀ rest, (text "refs/" ++ rest).head? = some 114 := fun _ => rfl
    rw [hrefs]
    decide
  · obtain ⟨rest, rfl⟩ := hobject
    have hobjects : ∀ rest, (text "objects/" ++ rest).head? = some 111 := fun _ => rfl
    rw [hobjects]
    decide

/-- A lock does not begin as a frame does. -/
theorem head?_lockRelativePath (ref : Option Bytes) :
    (lockRelativePath ref).head? ≠ some frameByte := by
  cases ref with
  | none => decide
  | some name =>
    have hrefs : (lockRelativePath (some name)).head? = some 114 := rfl
    rw [hrefs]
    decide

/-- A text is cut at its last slash. -/
theorem rsplitOnce_append {file : Bytes} (hfile : slash ∉ file) (name : Bytes) :
    rsplitOnce (name ++ slash :: file) = some (name, file) := by
  have hnone : rsplitOnce file = none := by
    induction file with
    | nil => rfl
    | cons b file ih =>
      rw [List.mem_cons, not_or] at hfile
      rw [rsplitOnce, ih hfile.2]
      exact if_neg fun hb => hfile.1 hb.symm
  induction name with
  | nil =>
    rw [List.nil_append, rsplitOnce, hnone]
    exact if_pos rfl
  | cons b name ih => rw [List.cons_append, rsplitOnce, ih]

/-- The file of a lock is no key. -/
theorem validateKey_lockRelativePath (ref : Option Bytes) :
    validateKey (lockRelativePath ref) ≠ .ok () := by
  cases ref with
  | none => decide
  | some name =>
    have hslash : slash ∉ text "LEASE.lock" := by decide
    have hhead : ∀ file : Bytes, file.head? ≠ some 114 → lockRelativePath (some name) ≠ file := by
      rintro _ hfile rfl
      exact hfile rfl
    have hplain : ¬ (lockRelativePath (some name) = text "HEAD" ∨
        lockRelativePath (some name) = text "LEASE") :=
      not_or.mpr ⟨hhead _ (by decide), hhead _ (by decide)⟩
    have hdrop : (lockRelativePath (some name)).drop (text "refs/").length =
        name ++ slash :: text "LEASE.lock" := by
      rw [lockRelativePath, refPath, List.append_assoc, List.drop_left]
    unfold validateKey
    rw [if_neg hplain, if_pos ⟨_, (List.append_assoc _ _ _).symm⟩, hdrop, rsplitOnce_append hslash]
    dsimp only
    rw [if_neg (by decide)]
    exact fun h => absurd h (by simp)

/-! ## A directory and the map it stands for -/

/-- A file stands for a value: it is the value, or points to it in a frame that is kept. -/
def Holds (files : Files) (file value : Bytes) : Prop :=
  (file = value ∧ ¬ framePointerMagic <+: value) ∨
    ∃ payload slice, file = framePointer (hexEncode (hash payload).bytes) slice ∧
      files.get? (framePath (hexEncode (hash payload).bytes)) = some payload ∧
      slice.bytes = value ∧ (payload.drop slice.offset).take slice.bytes.length = slice.bytes ∧
      slice.offset + slice.bytes.length ≤ payload.length ∧ payload.length < 2 ^ 64

/-- The files of a directory stand for the values of a map, and the rest of them are frames and the
files of locks. -/
structure StandsFor (frames : List Bytes) (files : Files) (plain : PlainMap) : Prop where
  present : ∀ path, path.head? ≠ some frameByte → ((files.get? path).isSome ↔ plain.Present path)
  value : ∀ path file v, path.head? ≠ some frameByte → files.get? path = some file →
    plain.value path = some v → Holds hash files file v
  frame : ∀ path file, path.head? = some frameByte → files.get? path = some file →
    file ∈ frames ∧ path = framePath (hexEncode (hash file).bytes)
  lockFile : ∀ path ∈ plain.lockFiles, validateKey path ≠ .ok ()
  plain : ∀ path, path.head? = some frameByte → ¬ plain.Present path

section StandsFor

variable {hash} {frames : List Bytes} {files : Files} {plain : PlainMap}

/-- A file holds its value while frames stay. -/
theorem Holds.mono {files' : Files} {file value : Bytes} (h : Holds hash files file value)
    (hframes : ∀ path payload, path.head? = some frameByte → files.get? path = some payload →
      files'.get? path = some payload) : Holds hash files' file value := by
  rcases h with h | ⟨payload, slice, hfile, hget, hrest⟩
  · exact Or.inl h
  · exact Or.inr ⟨payload, slice, hfile, hframes _ _ (head?_framePath _) hget, hrest⟩

/-- The same paths are blocked in the directory and in the map. -/
theorem StandsFor.blocked_iff (h : StandsFor hash frames files plain) {path : Bytes}
    (hpath : path.head? ≠ some frameByte) : files.blocked path = true ↔ plain.InWay path := by
  have hhead : ∀ p, SepOrder.Below slash p path ∨ SepOrder.Below slash path p →
      p.head? ≠ some frameByte := by
    rintro p (hp | hp)
    · rwa [Ne, head?_below hp]
    · rwa [Ne, ← head?_below hp]
  rw [Furrow.blocked_iff]
  constructor
  · rintro ⟨p, hp, hbelow⟩
    exact ⟨p, (h.present p (hhead p hbelow)).mp hp, hbelow⟩
  · rintro ⟨p, hp, hbelow⟩
    exact ⟨p, (h.present p (hhead p hbelow)).mpr hp, hbelow⟩

/-- A file and the value it stands for are written at the same path. -/
theorem StandsFor.insert (h : StandsFor hash frames files plain) {path file v : Bytes}
    (hpath : path.head? ≠ some frameByte) (hholds : Holds hash files file v) :
    StandsFor hash frames (files.insert path file) (plain.set path v) := by
  have hne : ∀ p : Bytes, p.head? = some frameByte → p ≠ path := by
    rintro p hp rfl
    exact hpath hp
  have hkeep : ∀ p payload, p.head? = some frameByte → files.get? p = some payload →
      (files.insert path file).get? p = some payload := by
    intro p payload hp hget
    rw [OrdMap.get?_insert, if_neg (hne p hp)]
    exact hget
  refine ⟨fun p hp => ?_, fun p file' v' hp hfile hv => ?_, fun p payload hp hget => ?_,
    h.lockFile, fun p hp => ?_⟩
  · rw [PlainMap.present_set, OrdMap.get?_insert]
    split_ifs with heq
    · simp [heq]
    · rw [h.present p hp, or_iff_right heq]
  · rw [OrdMap.get?_insert] at hfile
    split_ifs at hfile with heq
    · obtain rfl := Option.some.inj hfile
      subst heq
      rw [PlainMap.value_set, if_pos rfl] at hv
      exact Option.some.inj hv ▸ hholds.mono hkeep
    · rw [PlainMap.value_set, if_neg heq] at hv
      exact (h.value p file' v' hp hfile hv).mono hkeep
  · rw [OrdMap.get?_insert, if_neg (hne p hp)] at hget
    exact h.frame p payload hp hget
  · rw [PlainMap.present_set, or_iff_right (hne p hp)]
    exact h.plain p hp

/-- A file is made for a lock, if there is none. -/
theorem StandsFor.insertLock (h : StandsFor hash frames files plain) (ref : Option Bytes)
    (locks : List (ℕ × Option Bytes)) :
    StandsFor hash frames
      (if (files.get? (lockRelativePath ref)).isSome then files
        else files.insert (lockRelativePath ref) [])
      ⟨plain.value, lockRelativePath ref :: plain.lockFiles, locks⟩ := by
  set path := lockRelativePath ref with hlock
  set made : Files := if (files.get? path).isSome then files else files.insert path [] with hmade
  have hget : ∀ p, p ≠ path → made.get? p = files.get? p := by
    intro p hp
    rw [hmade]
    split_ifs
    · rfl
    · rw [OrdMap.get?_insert, if_neg hp]
  have hhead : path.head? ≠ some frameByte := head?_lockRelativePath ref
  have hne : ∀ p : Bytes, p.head? = some frameByte → p ≠ path := by
    rintro p hp rfl
    exact hhead hp
  have hkeep : ∀ p payload, p.head? = some frameByte → files.get? p = some payload →
      made.get? p = some payload := fun p payload hp hfile => (hget p (hne p hp)).trans hfile
  have hpresent : ∀ p, (⟨plain.value, path :: plain.lockFiles, locks⟩ : PlainMap).Present p ↔
      p = path ∨ plain.Present p := by
    intro p
    unfold PlainMap.Present
    rw [List.mem_cons, or_left_comm]
  have hsome : (made.get? path).isSome := by
    rw [hmade]
    split_ifs with h
    · exact h
    · rw [OrdMap.get?_insert, if_pos rfl]
      rfl
  refine ⟨fun p hp => ?_, fun p file v hp hfile hv => ?_, fun p file hp hfile => ?_, ?_,
    fun p hp => ?_⟩
  · rw [hpresent]
    by_cases heq : p = path
    · exact iff_of_true (heq ▸ hsome) (Or.inl heq)
    · rw [hget p heq, or_iff_right heq]
      exact h.present p hp
  · by_cases heq : p = path
    · obtain ⟨file', hfile'⟩ := Option.isSome_iff_exists.mp ((h.present p hp).mpr
        (Or.inl (Option.isSome_iff_exists.mpr ⟨v, hv⟩)))
      have hsame : made = files := by rw [hmade, if_pos (by rw [← heq, hfile']; rfl)]
      rw [hsame] at hfile ⊢
      exact h.value p file v hp hfile hv
    · rw [hget p heq] at hfile
      exact (h.value p file v hp hfile hv).mono hkeep
  · rw [hget p (hne p hp)] at hfile
    exact h.frame p file hp hfile
  · rw [List.forall_mem_cons]
    exact ⟨validateKey_lockRelativePath ref, h.lockFile⟩
  · rw [hpresent, or_iff_right (hne p hp)]
    exact h.plain p hp

/-- Files and the values they stand for, written one after the other. -/
theorem StandsFor.writeEach {base : Files} {pointers values : List (Bytes × Bytes)}
    (hvalues : List.Forall₂ (fun p v => p.1 = v.1 ∧ Holds hash base p.2 v.2) pointers values)
    (hheads : ∀ v ∈ values, v.1.head? ≠ some frameByte)
    (h : StandsFor hash frames files plain)
    (hbase : ∀ path payload, path.head? = some frameByte → base.get? path = some payload →
      files.get? path = some payload) :
    (Furrow.writeEach files pointers).1 = (plain.setAll values).1 ∧
      StandsFor hash frames (Furrow.writeEach files pointers).2 (plain.setAll values).2 := by
  induction hvalues generalizing files plain with
  | nil => exact ⟨rfl, h⟩
  | @cons p v pointers values hpv hrest ih =>
    obtain ⟨key, file⟩ := p
    obtain ⟨_, value⟩ := v
    obtain ⟨rfl, hholds⟩ := hpv
    have hhead := hheads (key, value) List.mem_cons_self
    dsimp only at hhead hholds
    rw [Furrow.writeEach, PlainMap.setAll, atomicWrite]
    by_cases hblocked : files.blocked key = true
    · rw [if_pos hblocked, if_pos ((h.blocked_iff hhead).mp hblocked)]
      exact ⟨rfl, h⟩
    · rw [if_neg hblocked, if_neg fun hway => hblocked ((h.blocked_iff hhead).mpr hway)]
      refine ih (fun v hv => hheads v (List.mem_cons_of_mem _ hv))
        (h.insert hhead (hholds.mono hbase)) ?_
      intro path payload hpath hget
      have hne : path ≠ key := by
        rintro rfl
        exact hhead hpath
      rw [OrdMap.get?_insert, if_neg hne]
      exact hbase path payload hpath hget

/-- A new frame changes no value. -/
theorem StandsFor.insertFrame (h : StandsFor hash frames files plain) {payload : Bytes}
    (hpayload : payload ∈ frames)
    (hnone : files.get? (framePath (hexEncode (hash payload).bytes)) = none) :
    StandsFor hash frames (files.insert (framePath (hexEncode (hash payload).bytes)) payload)
      plain := by
  set path := framePath (hexEncode (hash payload).bytes) with hpath
  have hne : ∀ p : Bytes, p.head? ≠ some frameByte → p ≠ path := by
    rintro p hp rfl
    exact hp (head?_framePath _)
  have hkeep : ∀ p file, p.head? = some frameByte → files.get? p = some file →
      (files.insert path payload).get? p = some file := by
    intro p file hp hget
    have hp' : p ≠ path := by
      rintro rfl
      rw [hnone] at hget
      exact absurd hget (by simp)
    rw [OrdMap.get?_insert, if_neg hp']
    exact hget
  refine ⟨fun p hp => ?_, fun p file v hp hfile hv => ?_, fun p file hp hget => ?_, h.lockFile,
    h.plain⟩
  · rw [OrdMap.get?_insert, if_neg (hne p hp)]
    exact h.present p hp
  · rw [OrdMap.get?_insert, if_neg (hne p hp)] at hfile
    exact (h.value p file v hp hfile hv).mono hkeep
  · rw [OrdMap.get?_insert] at hget
    split_ifs at hget with heq
    · obtain rfl := Option.some.inj hget
      exact ⟨hpayload, heq⟩
    · exact h.frame p file hp hget

/-- No file is in the way of a frame. -/
theorem StandsFor.blocked_framePath (h : StandsFor hash frames files plain) (payload : Bytes) :
    files.blocked (framePath (hexEncode (hash payload).bytes)) = false := by
  rw [Bool.eq_false_iff, Ne, Furrow.blocked_iff]
  rintro ⟨p, hp, hbelow⟩
  have hhead : p.head? = some frameByte := by
    rcases hbelow with hbelow | hbelow
    · exact (head?_below hbelow).mpr (head?_framePath _)
    · exact (head?_below hbelow).mp (head?_framePath _)
  obtain ⟨file, hfile⟩ := Option.isSome_iff_exists.mp hp
  obtain ⟨-, rfl⟩ := h.frame p file hhead hfile
  have hlength : ∀ bytes, (framePath (hexEncode (hash bytes).bytes)).length = 71 := by
    intro bytes
    rw [framePath, List.length_append, length_hexEncode, ObjectId.length_eq]
    decide
  rcases hbelow with ⟨r, hr⟩ | ⟨r, hr⟩
  · have := congrArg List.length hr
    rw [List.length_append, hlength, hlength, List.length_cons] at this
    omega
  · have := congrArg List.length hr
    rw [List.length_append, hlength, hlength, List.length_cons] at this
    omega

/-- A frame and the pointers to its values stand for the values. -/
theorem StandsFor.writePackedFrame (h : StandsFor hash frames files plain)
    (hcol : ∀ p ∈ frames, ∀ q ∈ frames, hash p = hash q → p = q)
    {values : List (Bytes × Bytes)} (hmem : encodeWriteFrame values ∈ frames)
    (hheads : ∀ v ∈ values, v.1.head? ≠ some frameByte)
    (hsmall : (encodeWriteFrame values).length < 2 ^ 64) :
    (Furrow.writePackedFrame hash files (encodeWriteFrame values) (slicesFrom 4 values)).1 =
        (plain.setAll values).1 ∧
      StandsFor hash frames
        (Furrow.writePackedFrame hash files (encodeWriteFrame values) (slicesFrom 4 values)).2
        (plain.setAll values).2 := by
  set payload := encodeWriteFrame values with hpayload
  set frameId := hexEncode (hash payload).bytes with hframeId
  -- Once the frame is kept, each pointer stands for its value.
  have hkept : ∀ files' : Files, StandsFor hash frames files' plain →
      files'.get? (framePath frameId) = some payload →
      let pointers := (slicesFrom 4 values).map fun slice => (slice.key, framePointer frameId slice)
      (Furrow.writeEach files' pointers).1 = (plain.setAll values).1 ∧
        StandsFor hash frames (Furrow.writeEach files' pointers).2 (plain.setAll values).2 := by
    intro files' h' hget
    refine StandsFor.writeEach ?_ hheads h' fun _ _ _ hbase => hbase
    rw [List.forall₂_map_left_iff]
    have hslices := slicesFrom_spec values (LittleEndian.bytes 4 values.length)
    rw [LittleEndian.length_bytes] at hslices
    refine hslices.imp ?_
    rintro slice v ⟨hkey, hbytes, hplace, hend⟩
    exact ⟨hkey, Or.inr ⟨payload, slice, rfl, hget, hbytes, hplace, hend, hsmall⟩⟩
  unfold Furrow.writePackedFrame
  simp only [← hframeId]
  cases hget : files.get? (framePath frameId) with
  | some file =>
    obtain ⟨hfile, hpath⟩ := h.frame _ file (head?_framePath _) hget
    have hsame : hash payload = hash file := by
      apply ObjectId.bytes_injective
      have := List.append_cancel_left hpath
      rw [hframeId] at this
      exact hexEncode_injective this
    obtain rfl := hcol payload hmem file hfile hsame
    simpa using hkept files h hget
  | none =>
    have hblocked : files.blocked (framePath frameId) = false := h.blocked_framePath payload
    simp only [atomicWrite, hblocked]
    refine hkept _ (h.insertFrame hmem hget) ?_
    rw [OrdMap.get?_insert, if_pos rfl]

/-- A file that is no pointer is read as it is. -/
theorem readRemoteValue_of_plain {key file : Bytes} (hget : files.get? key = some file)
    (hfile : ¬ framePointerMagic <+: file) (limit : ℕ) :
    (Furrow.readRemoteValue files key limit).toOption =
      (some file).filter fun value => value.length ≤ limit := by
  unfold Furrow.readRemoteValue readBounded
  rw [hget, Option.filter_some]
  dsimp only
  by_cases hlimit : file.length ≤ limit
  · rw [if_pos (hlimit.trans (le_max_left limit 85))]
    simp [hfile, hlimit, Except.toOption]
  · have hnone : (if decide (file.length ≤ limit) = true then some file else none) = none :=
      if_neg (by simpa using hlimit)
    rw [hnone]
    split_ifs with hmax
    · simp [hfile, hlimit, Except.toOption]
    · rfl

/-- The parts of a pointer. -/
theorem framePointer_parts {frameId : Bytes} (hid : frameId.length = 64) (slice : FrameSlice) :
    (framePointer frameId slice).length = 85 ∧ framePointerMagic <+: framePointer frameId slice ∧
      ((framePointer frameId slice).drop 5).take 64 = frameId ∧
      ((framePointer frameId slice).drop 69).take 8 = LittleEndian.bytes 8 slice.offset ∧
      ((framePointer frameId slice).drop 77).take 8 =
        LittleEndian.bytes 8 slice.bytes.length := by
  have hmagic : framePointerMagic.length = 5 := by decide
  refine ⟨?_, ?_, ?_, ?_, ?_⟩
  · simp only [framePointer, List.length_append, LittleEndian.length_bytes, hmagic, hid]
  · exact ⟨frameId ++ LittleEndian.bytes 8 slice.offset ++
      LittleEndian.bytes 8 slice.bytes.length, by simp [framePointer]⟩
  · refine take_drop_eq framePointerMagic (LittleEndian.bytes 8 slice.offset ++
      LittleEndian.bytes 8 slice.bytes.length) ?_ hmagic.symm hid.symm
    simp [framePointer]
  · refine take_drop_eq (framePointerMagic ++ frameId) (LittleEndian.bytes 8 slice.bytes.length)
      ?_ ?_ (by simp)
    · simp [framePointer]
    · simp [hmagic, hid]
  · refine take_drop_eq (framePointerMagic ++ frameId ++ LittleEndian.bytes 8 slice.offset) []
      ?_ ?_ (by simp)
    · simp [framePointer]
    · simp [hmagic, hid]

/-- A pointer is followed to its frame. -/
theorem readRemoteValue_of_pointer {key payload : Bytes} {slice : FrameSlice}
    (hget : files.get? key = some (framePointer (hexEncode (hash payload).bytes) slice))
    (hframe : files.get? (framePath (hexEncode (hash payload).bytes)) = some payload)
    (hplace : (payload.drop slice.offset).take slice.bytes.length = slice.bytes)
    (hend : slice.offset + slice.bytes.length ≤ payload.length)
    (hsmall : payload.length < 2 ^ 64) (limit : ℕ) :
    (Furrow.readRemoteValue files key limit).toOption =
      (some slice.bytes).filter fun value => value.length ≤ limit := by
  set frameId := hexEncode (hash payload).bytes with hframeId
  have hid : frameId.length = 64 := by
    rw [hframeId, length_hexEncode, ObjectId.length_eq]
  obtain ⟨hlength, hmagic, hidPart, hoffset, hlen⟩ := framePointer_parts hid slice
  have hoffsetValue : LittleEndian.value (LittleEndian.bytes 8 slice.offset) = slice.offset := by
    rw [LittleEndian.value_bytes]
    exact Nat.mod_eq_of_lt (by omega)
  have hlenValue : LittleEndian.value (LittleEndian.bytes 8 slice.bytes.length) =
      slice.bytes.length := by
    rw [LittleEndian.value_bytes]
    exact Nat.mod_eq_of_lt (by omega)
  have hbounded : readBounded files key (max limit 85) = .ok (framePointer frameId slice) := by
    unfold readBounded
    rw [hget]
    dsimp only
    rw [if_pos (hlength.trans_le (le_max_right limit 85))]
  have hhex : frameId.all isLowerHex = true := isLowerHex_hexEncode _
  unfold Furrow.readRemoteValue
  rw [hbounded]
  simp only [hmagic, hlength, hidPart, hoffset, hlen, hoffsetValue, hlenValue, hframe, hplace, hhex,
    not_true_eq_false, if_false, ne_eq]
  have hbound : ¬ (2 ^ 64 ≤ slice.offset + slice.bytes.length ∨
      payload.length < slice.offset + slice.bytes.length) := by omega
  rw [if_neg hbound, Option.filter_some]
  by_cases hlimit : slice.bytes.length ≤ limit
  · rw [if_neg (by omega), if_pos (by simpa using hlimit)]
    rfl
  · rw [if_pos (by omega), if_neg (by simpa using hlimit)]
    rfl

/-- The value of a key is read, whether it stands alone or in a frame. -/
theorem StandsFor.readRemoteValue (h : StandsFor hash frames files plain) {key : Bytes}
    (hkey : validateKey key = .ok ()) (limit : ℕ) :
    (Furrow.readRemoteValue files key limit).toOption =
      (plain.value key).filter fun value => value.length ≤ limit := by
  have hhead := head?_of_validateKey hkey
  cases hplain : plain.value key with
  | none =>
    have hnone : files.get? key = none := by
      rw [← Option.not_isSome_iff_eq_none, h.present key hhead, PlainMap.Present, not_or, hplain]
      exact ⟨Bool.false_ne_true, fun hlock => h.lockFile key hlock hkey⟩
    simp [Furrow.readRemoteValue, readBounded, hnone, Except.toOption]
  | some v =>
    have hsome : (plain.value key).isSome := by rw [hplain]; rfl
    obtain ⟨file, hget⟩ := Option.isSome_iff_exists.mp ((h.present key hhead).mpr (Or.inl hsome))
    rcases h.value key file v hhead hget hplain with
      ⟨rfl, hmagic⟩ | ⟨payload, slice, rfl, hframe, rfl, hplace, hend, hsmall⟩
    · exact readRemoteValue_of_plain hget hmagic limit
    · exact readRemoteValue_of_pointer hget hframe hplace hend hsmall limit

end StandsFor

/-! ## Calls -/

/-- A value is accepted if its key is and it is not too long. -/
theorem checkValue_eq_ok_iff {v : Bytes × Bytes} :
    checkValue v = .ok () ↔ ∃ limit, keyLimit v.1 = .ok limit ∧ v.2.length ≤ limit := by
  unfold checkValue
  cases keyLimit v.1 with
  | error e => simp
  | ok limit =>
    dsimp only
    split_ifs with hlimit <;> simp [hlimit]

/-- Values are accepted if each of them is. -/
theorem checkValues_eq_ok_iff {values : List (Bytes × Bytes)} :
    checkValues values = .ok () ↔
      ∀ v ∈ values, ∃ limit, keyLimit v.1 = .ok limit ∧ v.2.length ≤ limit := by
  induction values with
  | nil => simp [checkValues]
  | cons v values ih =>
    rw [checkValues, List.forall_mem_cons, ← ih, ← checkValue_eq_ok_iff]
    cases checkValue v with
    | error e => simp
    | ok u => simp

/-- The keys of accepted values do not begin as a frame does. -/
theorem head?_of_checkValues {values : List (Bytes × Bytes)} (h : checkValues values = .ok ()) :
    ∀ v ∈ values, v.1.head? ≠ some frameByte := by
  intro v hv
  obtain ⟨limit, hlimit, -⟩ := checkValues_eq_ok_iff.mp h v hv
  unfold keyLimit at hlimit
  split at hlimit
  · exact absurd hlimit (by simp)
  · next hvalid => exact head?_of_validateKey hvalid

/-- Every value takes a byte at least. -/
theorem le_length_flatMap_encode (values : List (Bytes × Bytes)) :
    values.length ≤ (values.flatMap encodeWriteValue).length := by
  induction values with
  | nil => simp
  | cons v values ih =>
    rw [List.flatMap_cons, List.length_append, List.length_cons]
    have hv := length_encodeWriteValue v
    omega

/-- A frame of checked values is refused only for their number. -/
theorem decodeWriteFrame_of_many {values : List (Bytes × Bytes)}
    (hcount : maxHaveBatch < values.length)
    (hsize : (encodeWriteFrame values).length ≤ maxFrameBytes) :
    decodeWriteFrame (encodeWriteFrame values) = .error .tooManyObjects := by
  have hlen : (LittleEndian.bytes 4 values.length).length = 4 := LittleEndian.length_bytes _ _
  have htake : (encodeWriteFrame values).take 4 = LittleEndian.bytes 4 values.length := by
    rw [encodeWriteFrame, List.take_left' hlen]
  have hflat := le_length_flatMap_encode values
  rw [encodeWriteFrame, List.length_append, hlen] at hsize
  have hvalue : LittleEndian.value (LittleEndian.bytes 4 values.length) = values.length := by
    rw [LittleEndian.value_bytes]
    unfold maxFrameBytes at hsize
    exact Nat.mod_eq_of_lt (by omega)
  have hfour : ¬ (encodeWriteFrame values).length < 4 := by
    rw [encodeWriteFrame, List.length_append, hlen]
    omega
  rw [decodeWriteFrame, if_neg hfour]
  simp only [htake, hvalue]
  rw [if_pos hcount]

/-! ## What the map holds -/

namespace PlainMap

/-- Values change no lock. -/
theorem locks_setAll (m : PlainMap) (values : List (Bytes × Bytes)) :
    (m.setAll values).2.locks = m.locks := by
  induction values generalizing m with
  | nil => rfl
  | cons v values ih =>
    rw [setAll]
    split_ifs
    · rfl
    · exact ih _

/-- After values that were all written, each key has the last of its values. -/
theorem value_setAll {m : PlainMap} {values : List (Bytes × Bytes)}
    (h : (m.setAll values).1 = .ok ()) (key : Bytes) :
    (m.setAll values).2.value key = (values.reverse.lookup key).or (m.value key) := by
  induction values generalizing m with
  | nil => rfl
  | cons v values ih =>
    obtain ⟨k, value⟩ := v
    rw [setAll] at h ⊢
    split_ifs at h ⊢ with hway
    rw [ih h, List.reverse_cons, List.lookup_append, Option.or_assoc]
    congr 1
    rw [value_set, List.lookup_cons, List.lookup_nil]
    by_cases hk : key = k
    · simp [hk]
    · simp [hk, beq_eq_false_iff_ne.mpr hk]

/-- Values are all written, or something is in the way of one. -/
theorem setAll_cases (m : PlainMap) (values : List (Bytes × Bytes)) :
    (m.setAll values).1 = .ok () ∨ (m.setAll values).1 = .error .blocked := by
  induction values generalizing m with
  | nil => exact Or.inl rfl
  | cons v values ih =>
    rw [setAll]
    split_ifs
    · exact Or.inr rfl
    · exact ih _

/-- A write that nothing is in the way of writes all its values, or none. -/
theorem value_write {m : PlainMap} {session : ℕ} {values : List (Bytes × Bytes)}
    (h : (m.write session values).1 ≠ .error .blocked) (key : Bytes) :
    (m.write session values).2.value key =
      ((if (m.write session values).1.isOk then values else []).reverse.lookup key).or
        (m.value key) := by
  unfold write at h ⊢
  cases hcheck : checkValues values with
  | error e => rfl
  | ok u =>
    rw [hcheck] at h
    dsimp only at h ⊢
    cases hlocked : m.locked session with
    | false => rfl
    | true =>
      rw [if_pos hlocked] at h
      have hok := (m.setAll_cases values).resolve_right h
      rw [if_pos rfl, value_setAll hok, hok]
      rfl

/-- The same for each call. -/
theorem value_step {m : PlainMap} {call : Call} (h : (m.step call).1 ≠ .error .blocked)
    (key : Bytes) :
    (m.step call).2.value key =
      ((if (m.step call).1.isOk then call.values else []).reverse.lookup key).or (m.value key) := by
  cases call with
  | beginWriter session ref =>
    have hvalue : (m.lock session ref).2.value = m.value := by
      unfold lock
      cases ref.elim (.ok ()) validateRef with
      | error e => rfl
      | ok u =>
        dsimp only
        split_ifs <;> rfl
    change (m.lock session ref).2.value key = _
    rw [hvalue, Call.values, ite_self]
    rfl
  | endWriter session => rfl
  | write session k value => exact value_write h key
  | writeMany session values => exact value_write h key
  | writeFrame session values =>
    have hcases : m.writeFrame session values = m.write session values ∨
        ∃ e, m.writeFrame session values = (.error e, m) := by
      unfold writeFrame
      cases checkValues values with
      | error e => exact Or.inr ⟨e, rfl⟩
      | ok u =>
        dsimp only
        split_ifs
        · exact Or.inr ⟨_, rfl⟩
        · exact Or.inr ⟨_, rfl⟩
        · exact Or.inl rfl
    change (m.writeFrame session values).1 ≠ _ at h
    change (m.writeFrame session values).2.value key = _
    rcases hcases with hwrite | ⟨e, hwrite⟩
    · rw [hwrite] at h ⊢
      rw [value_write h key]
      simp [step, Call.values, hwrite]
    · simp [step, hwrite, Except.isOk, Except.toBool]

/-- After calls that nothing was in the way of, each key has the last value that was written. -/
theorem value_run {m : PlainMap} {calls : List Call} (h : .error .blocked ∉ (m.run calls).1)
    (key : Bytes) :
    (m.run calls).2.value key =
      (lastWritten (calls.zip (m.run calls).1) key).or (m.value key) := by
  induction calls generalizing m with
  | nil => rfl
  | cons call calls ih =>
    rw [run, List.mem_cons, not_or] at h
    change ((m.step call).2.run calls).2.value key = (lastWritten
      ((call, (m.step call).1) :: calls.zip ((m.step call).2.run calls).1) key).or (m.value key)
    rw [ih h.2, value_step (Ne.symm h.1), ← Option.or_assoc]
    congr 1
    rw [lastWritten, lastWritten, List.flatMap_cons, List.reverse_append, List.lookup_append]

end PlainMap

namespace Remote

/-- A remote and the map it stands for. -/
structure Refines (frames : List Bytes) (r : Remote) (plain : PlainMap) : Prop where
  locks : r.locks = plain.locks
  files : StandsFor hash frames r.files plain

variable {hash} {frames : List Bytes} {r : Remote} {plain : PlainMap}

/-- The same sessions hold a lock. -/
theorem Refines.locked_eq (h : Refines hash frames r plain) (session : ℕ) :
    r.locked session = plain.locked session := by
  unfold locked PlainMap.locked
  rw [h.locks]

/-- A lock is taken on both sides, or refused on both. -/
theorem Refines.beginWriter (h : Refines hash frames r plain) (session : ℕ) (ref : Option Bytes) :
    (r.beginWriter session ref).1 = (plain.lock session ref).1 ∧
      Refines hash frames (r.beginWriter session ref).2 (plain.lock session ref).2 := by
  have hblocked := h.files.blocked_iff (head?_lockRelativePath ref)
  unfold Remote.beginWriter PlainMap.lock
  cases ref.elim (.ok ()) validateRef with
  | error e => exact ⟨rfl, h⟩
  | ok u =>
    dsimp only
    rw [h.locked_eq, h.locks]
    by_cases hlocked : plain.locked session = true
    · rw [if_pos hlocked, if_pos hlocked]
      exact ⟨rfl, h⟩
    · rw [if_neg hlocked, if_neg hlocked]
      by_cases hway : plain.InWay (lockRelativePath ref)
      · rw [if_pos (hblocked.mpr hway), if_pos hway]
        exact ⟨rfl, h⟩
      · rw [if_neg fun hb => hway (hblocked.mp hb), if_neg hway]
        by_cases hheld : (plain.locks.any fun l => l.2 = ref) = true
        · rw [if_pos hheld, if_pos hheld]
          exact ⟨rfl, rfl, h.files.insertLock ref plain.locks⟩
        · rw [if_neg hheld, if_neg hheld]
          exact ⟨rfl, rfl, h.files.insertLock ref _⟩

/-- Values are written on both sides alike. -/
theorem Refines.writeChecked (h : Refines hash frames r plain) (session : ℕ)
    {values : List (Bytes × Bytes)} (hmagic : ∀ v ∈ values, ¬ framePointerMagic <+: v.2) :
    (r.writeChecked session values).1 = (plain.write session values).1 ∧
      Refines hash frames (r.writeChecked session values).2 (plain.write session values).2 := by
  unfold Remote.writeChecked PlainMap.write
  cases hcheck : checkValues values with
  | error e => exact ⟨rfl, h⟩
  | ok u =>
    dsimp only
    rw [h.locked_eq]
    cases hlocked : plain.locked session with
    | false => exact ⟨rfl, h⟩
    | true =>
      have hsame : List.Forall₂ (fun p v => p.1 = v.1 ∧ Holds hash r.files p.2 v.2)
          values values := by
        rw [List.forall₂_same]
        exact fun v hv => ⟨rfl, Or.inl ⟨rfl, hmagic v hv⟩⟩
      obtain ⟨hresult, hfiles⟩ := StandsFor.writeEach hsame (head?_of_checkValues hcheck) h.files
        fun _ _ _ hbase => hbase
      exact ⟨hresult, h.locks.trans (plain.locks_setAll values).symm, hfiles⟩

/-- A frame is written as its values are. -/
theorem Refines.writeFrame (h : Refines hash frames r plain)
    (hcol : ∀ p ∈ frames, ∀ q ∈ frames, hash p = hash q → p = q) (session : ℕ)
    {values : List (Bytes × Bytes)} (hmem : encodeWriteFrame values ∈ frames) :
    (r.writeFrame hash session values).1 = (plain.writeFrame session values).1 ∧
      Refines hash frames (r.writeFrame hash session values).2
        (plain.writeFrame session values).2 := by
  unfold Remote.writeFrame PlainMap.writeFrame PlainMap.write
  cases hcheck : checkValues values with
  | error e => exact ⟨rfl, h⟩
  | ok u =>
    dsimp only
    rw [h.locked_eq]
    by_cases hsize : maxFrameBytes < (encodeWriteFrame values).length
    · rw [if_pos hsize, if_pos hsize]
      exact ⟨rfl, h⟩
    · rw [if_neg hsize, if_neg hsize]
      cases hlocked : plain.locked session with
      | false => exact ⟨rfl, h⟩
      | true =>
        rw [if_neg (not_not_intro rfl)]
        by_cases hcount : maxHaveBatch < values.length
        · rw [decodeWriteFrame_of_many hcount (Nat.le_of_not_lt hsize), if_pos ⟨rfl, hcount⟩]
          exact ⟨rfl, h⟩
        · rw [decodeWriteFrame_encode (Nat.le_of_not_lt hcount) (checkValues_eq_ok_iff.mp hcheck),
            if_neg fun hboth => hcount hboth.2, if_pos rfl]
          have hsmall : (encodeWriteFrame values).length < 2 ^ 64 := by
            unfold maxFrameBytes at hsize
            omega
          obtain ⟨hresult, hfiles⟩ :=
            h.files.writePackedFrame hcol hmem (head?_of_checkValues hcheck) hsmall
          exact ⟨hresult, h.locks.trans (plain.locks_setAll values).symm, hfiles⟩

/-- One call gives the same answer on a remote and on the map it stands for. -/
theorem Refines.step (h : Refines hash frames r plain)
    (hcol : ∀ p ∈ frames, ∀ q ∈ frames, hash p = hash q → p = q) {call : Call}
    (hmem : ∀ payload ∈ writeFramesOf [call], payload ∈ frames)
    (hmagic : ∀ v ∈ call.values, ¬ framePointerMagic <+: v.2) :
    (r.step hash call).1 = (plain.step call).1 ∧
      Refines hash frames (r.step hash call).2 (plain.step call).2 := by
  cases call with
  | beginWriter session ref => exact h.beginWriter session ref
  | endWriter session =>
    refine ⟨rfl, ?_, h.files.present, h.files.value, h.files.frame, h.files.lockFile, h.files.plain⟩
    change r.locks.filter _ = plain.locks.filter _
    rw [h.locks]
  | write session key value => exact h.writeChecked session hmagic
  | writeMany session values => exact h.writeChecked session hmagic
  | writeFrame session values => exact h.writeFrame hcol session (hmem _ (by simp [writeFramesOf]))

/-- A sequence of calls gives the same answers on a remote and on the map it stands for. -/
theorem Refines.run {calls : List Call} (h : Refines hash frames r plain)
    (hcol : ∀ p ∈ frames, ∀ q ∈ frames, hash p = hash q → p = q)
    (hmem : ∀ payload ∈ writeFramesOf calls, payload ∈ frames)
    (hmagic : ∀ call ∈ calls, ∀ v ∈ call.values, ¬ framePointerMagic <+: v.2) :
    (r.run hash calls).1 = (plain.run calls).1 ∧
      Refines hash frames (r.run hash calls).2 (plain.run calls).2 := by
  induction calls generalizing r plain with
  | nil => exact ⟨rfl, h⟩
  | cons call calls ih =>
    have hsplit : writeFramesOf (call :: calls) = writeFramesOf [call] ++ writeFramesOf calls := by
      simp only [writeFramesOf, ← List.filterMap_append, List.singleton_append]
    rw [hsplit] at hmem
    obtain ⟨hanswer, hnext⟩ := h.step hcol
      (fun p hp => hmem p (List.mem_append_left _ hp)) (hmagic call List.mem_cons_self)
    obtain ⟨hanswers, hlast⟩ := ih hnext (fun p hp => hmem p (List.mem_append_right _ hp))
      fun c hc => hmagic c (List.mem_cons_of_mem call hc)
    refine ⟨?_, hlast⟩
    change (r.step hash call).1 :: _ = (plain.step call).1 :: _
    rw [hanswer]
    exact congrArg _ hanswers

/-- A key has the same value in a remote and in the map it stands for. -/
theorem Refines.read (h : Refines hash frames r plain) (key : Bytes) (limit : ℕ) :
    (r.read key limit).toOption = accepted key limit (plain.value key) := by
  unfold Remote.read accepted
  cases hvalid : validateKey key with
  | error e => simp [Except.toOption]
  | ok u =>
    dsimp only
    split_ifs with hlimit hboth hboth
    · omega
    · rfl
    · exact h.files.readRemoteValue hvalid limit
    · exact absurd ⟨rfl, Nat.le_of_not_lt hlimit⟩ hboth

/-- An empty directory. -/
def empty : Remote := ⟨OrdMap.empty, []⟩

/-- The empty directory is the empty map. -/
theorem refines_empty (frames : List Bytes) : Refines hash frames empty .empty := by
  refine ⟨rfl, fun path _ => ?_, fun _ _ _ _ hfile => ?_, fun _ _ _ hfile => ?_, ?_, ?_⟩
  · simp [empty, PlainMap.empty, PlainMap.Present]
  · exact absurd hfile (by simp [empty])
  · exact absurd hfile (by simp [empty])
  · exact fun _ hp => absurd hp List.not_mem_nil
  · simp [PlainMap.empty, PlainMap.Present]

end Remote

/-- **A directory remote is a map from keys to values.**  Whatever is written, alone or in frames,
the answers and the values that are read are those of the map.  Unless a call was stopped by a file
in its way, what is read of a key is the last value of it that a call wrote with success.  And a
frame holds its values. -/
theorem run_eq_plainRun (calls : List Call)
    (hcol : ∀ p ∈ writeFramesOf calls, ∀ q ∈ writeFramesOf calls, hash p = hash q → p = q)
    (hmagic : ∀ call ∈ calls, ∀ v ∈ call.values, ¬ framePointerMagic <+: v.2) :
    let result := Remote.empty.run hash calls
    let plain := PlainMap.empty.run calls
    result.1 = plain.1 ∧
      (∀ key limit, (result.2.read key limit).toOption =
        accepted key limit (plain.2.value key)) ∧
      (.error .blocked ∉ result.1 → ∀ key limit, (result.2.read key limit).toOption =
        accepted key limit (lastWritten (calls.zip result.1) key)) ∧
      ∀ values : List (Bytes × Bytes), values.length ≤ maxHaveBatch →
        (∀ v ∈ values, ∃ limit, keyLimit v.1 = .ok limit ∧ v.2.length ≤ limit) →
        ∃ slices, decodeWriteFrame (encodeWriteFrame values) = .ok slices ∧
          slices.map (fun slice => (slice.key, slice.bytes)) = values := by
  obtain ⟨hanswers, hrefines⟩ :=
    (Remote.refines_empty (writeFramesOf calls)).run hcol (fun _ hp => hp) hmagic
  refine ⟨hanswers, hrefines.read, fun hblocked key limit => ?_, ?_⟩
  · rw [hanswers] at hblocked ⊢
    rw [hrefines.read, PlainMap.value_run hblocked, PlainMap.empty, Option.or_none]
  · intro values hcount hvalues
    exact ⟨_, decodeWriteFrame_encode hcount hvalues, map_slicesFrom 4 values⟩

/-- A head that is written alone and then in a frame, together with a lease; a session without the
lock is refused. -/
def sampleCalls : List Call :=
  [.beginWriter 0 none, .write 0 (text "HEAD") (text "one"),
    .writeFrame 0 [(text "HEAD", text "two"), (text "LEASE", text "w")],
    .write 1 (text "HEAD") (text "three")]

/-- The hash of the frame of the sample. -/
def sampleFrameHash : ObjectId :=
  ⟨[171, 120, 52, 134, 25, 80, 66, 128, 143, 37, 111, 138, 21, 73, 54, 211, 95, 186, 73, 95, 122,
    220, 203, 101, 178, 143, 88, 43, 49, 29, 109, 126], rfl⟩

/-- The head that is read is the one of the frame. -/
theorem run_eq_plainRun_sample :
    ((Remote.empty.run (fun _ => sampleFrameHash) sampleCalls).2.read
      (text "HEAD") maxMetadataBytes).toOption = some (text "two") := by
  have hcol : ∀ p ∈ writeFramesOf sampleCalls, ∀ q ∈ writeFramesOf sampleCalls,
      sampleFrameHash = sampleFrameHash → p = q := by
    intro p hp q hq _
    simp only [writeFramesOf, sampleCalls, List.filterMap_cons, List.filterMap_nil,
      List.mem_singleton] at hp hq
    rw [hp, hq]
  have hmagic : ∀ call ∈ sampleCalls, ∀ v ∈ call.values, ¬ framePointerMagic <+: v.2 := by decide
  have hanswers : (Remote.empty.run (fun _ => sampleFrameHash) sampleCalls).1 =
      [.ok (), .ok (), .ok (), .error .notLocked] := by decide
  have hlast := (run_eq_plainRun (fun _ => sampleFrameHash) sampleCalls hcol hmagic).2.2.1
  rw [hanswers] at hlast
  rw [hlast (by decide)]
  decide

end Furrow
