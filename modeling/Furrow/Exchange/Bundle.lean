import Furrow.Exchange.Survey
import Furrow.Pack.Record
import Furrow.Lib.Tour

set_option relaxedAutoImplicit false
set_option autoImplicit false

/-!
# Bundles

The transport of one snapshot as a byte stream (`bundle.rs`).  The exporter walks from the snapshot,
visits every object once, in the order of their identifiers among those that are known, and writes a
record for each.  The importer reads the records with a table of the objects that are expected.

## Main definitions

* `Furrow.NamedStore` — a store whose objects have the names their bytes give them.
* `Furrow.forEachReachable` — the walk.
* `Furrow.exportBundle`, `Furrow.importBundle` — the two ends of the transport.

## Main results

* `Furrow.forEachReachable_spec` — the walk visits what is reached from the snapshot, each object
  once.
* `Furrow.importObjects_encode` — the importer takes the records of a tour.
* `Furrow.encode_of_importObjects` — it takes nothing else.
-/

namespace Furrow

/-- What goes wrong with a bundle. -/
inductive BundleError
  /-- `invalid snapshot bundle header` -/
  | header
  /-- `snapshot bundle record count mismatch` -/
  | count
  /-- `snapshot bundle omits reachable objects` -/
  | omits
  /-- `snapshot bundle contains trailing data` -/
  | trailing
  /-- `invalid bundle record header` -/
  | recordHeader
  /-- `invalid bundle object kind` -/
  | kind
  /-- `bundle contains an unrelated object` -/
  | unrelated
  /-- `bundle contains a duplicate object` -/
  | duplicate
  /-- `bundle object kind mismatch` -/
  | kindMismatch
  /-- `bundle object is too large` -/
  | tooLarge
  /-- `bundle object checksum mismatch` -/
  | checksum
  /-- `bundle object ID mismatch` -/
  | objectId
  /-- `bundle import ID mismatch` -/
  | importId
  /-- `object reached with conflicting kinds` -/
  | conflictingKinds
  | invalidJson
  | missingObject (id : ObjectId)
  /-- `object kind mismatch` -/
  | storedKind
  /-- `object integrity check failed` -/
  | integrity
  /-- `object exceeds size limit` -/
  | objectTooLong
  | outOfFuel
deriving DecidableEq

/-- `BUNDLE_MAGIC` -/
def bundleMagic : Bytes := text "AGSB" ++ [1]

/-- `RECORD_MAGIC` -/
def bundleRecordMagic : Bytes := text "AGOR"

/-- `END_MAGIC` -/
def bundleEndMagic : Bytes := text "AGSE"

/-- `MAX_BUNDLE_OBJECT` -/
def maxBundleObject : ℕ := 256 * 1024 * 1024

section

variable (hash : Bytes → ObjectId)

/-- A store whose objects have the names their bytes give them, and none is too long. -/
structure NamedStore where
  objects : RawStore
  named : ∀ id kind bytes, objects.get? id = some (kind, bytes) →
    objectId hash kind bytes = id ∧ bytes.length ≤ maxObjectLen

variable {hash}

/-- An object that is put under its name keeps the store named. -/
theorem NamedStore.named_put (store : NamedStore hash) {kind : ObjectKind} {bytes : Bytes}
    (h : bytes.length ≤ maxObjectLen) (id : ObjectId) (kind' : ObjectKind) (bytes' : Bytes)
    (hget : (store.objects.put (objectId hash kind bytes) kind bytes).get? id =
      some (kind', bytes')) :
    objectId hash kind' bytes' = id ∧ bytes'.length ≤ maxObjectLen := by
  unfold RawStore.put at hget
  split_ifs at hget
  · exact store.named id kind' bytes' hget
  · rw [OrdMap.get?_insert] at hget
    split_ifs at hget with hid
    · obtain ⟨rfl, rfl⟩ := Prod.mk.inj (Option.some.inj hget)
      exact ⟨hid.symm, h⟩
    · exact store.named id kind' bytes' hget

/-- Put an object (`put_bytes`); one that is there under its identifier stays. -/
def NamedStore.putBytes (store : NamedStore hash) (kind : ObjectKind) (bytes : Bytes) :
    Except BundleError (ObjectId × NamedStore hash) :=
  if h : bytes.length ≤ maxObjectLen then
    .ok (objectId hash kind bytes,
      ⟨store.objects.put (objectId hash kind bytes) kind bytes, store.named_put h⟩)
  else .error .objectTooLong

/-- The bytes of an object (`read_bytes`). -/
def NamedStore.readBytes (store : NamedStore hash) (id : ObjectId) (expected : ObjectKind) :
    Except BundleError Bytes :=
  match store.objects.get? id with
  | none => .error (.missingObject id)
  | some (kind, bytes) =>
    if kind ≠ expected then .error .storedKind
    else if objectId hash expected bytes ≠ id then .error .integrity
    else .ok bytes

/-- An object of a bundle. -/
structure BundleObject where
  id : ObjectId
  kind : ObjectKind
  bytes : Bytes
deriving DecidableEq

/-- The objects that are known, with their kinds, and whether they were processed. -/
abbrev BundleMarks := Tour.Marks ObjectId ObjectKind

/-! ## The walk -/

/-- Note what an object refers to (`enqueue_edges`). -/
def enqueueEdges (codec : ObjectCodec) (marks : BundleMarks) (kind : ObjectKind) (bytes : Bytes) :
    Except BundleError BundleMarks :=
  match codec.objectEdges kind bytes with
  | .error _ => .error .invalidJson
  | .ok es =>
    match Tour.enqueueAll marks es with
    | none => .error .conflictingKinds
    | some marks => .ok marks

/-- Visit the objects that are known, at most `fuel` of them. -/
def visitUpTo (codec : ObjectCodec) (store : NamedStore hash) :
    ℕ → BundleMarks → Except BundleError (List BundleObject)
  | 0, _ => .error .outOfFuel
  | fuel + 1, marks =>
    match Tour.next marks with
    | none => .ok []
    | some (id, expected) => do
      let bytes ← store.readBytes id expected
      let marks ← enqueueEdges codec marks expected bytes
      let rest ← visitUpTo codec store fuel (Tour.settle marks id)
      .ok (⟨id, expected, bytes⟩ :: rest)

/-- The objects that are reached from a snapshot, as they are visited (`for_each_reachable`).  An
object is visited once, so there are no more visits than objects. -/
def forEachReachable (codec : ObjectCodec) (store : NamedStore hash) (snapshot : ObjectId) :
    Except BundleError (List BundleObject) :=
  visitUpTo codec store (store.objects.toList.length + 1) (Tour.start (snapshot, .Snapshot))

/-! ## The bytes -/

variable (hash) in
/-- The record of an object. -/
def BundleObject.encode (o : BundleObject) : Bytes :=
  bundleRecordMagic ++ ([o.kind.toU8] ++ (LittleEndian.bytes 8 o.bytes.length ++
    (o.id.bytes ++ ((hash o.bytes).bytes ++ o.bytes))))

variable (hash) in
/-- The bundle of a snapshot and its objects. -/
def encodeBundle (snapshot : ObjectId) (objects : List BundleObject) : Bytes :=
  bundleMagic ++ (snapshot.bytes ++ (objects.flatMap (BundleObject.encode hash) ++
    (bundleEndMagic ++ LittleEndian.bytes 8 objects.length)))

/-- Write the bundle of a snapshot (`export`), and count its records. -/
def exportBundle (codec : ObjectCodec) (store : NamedStore hash) (snapshot : ObjectId) :
    Except BundleError (Bytes × ℕ) := do
  let objects ← forEachReachable codec store snapshot
  .ok (encodeBundle hash snapshot objects, objects.length)

/-- An identifier of 32 bytes. -/
def idOfBytes (bytes : Bytes) : Option ObjectId :=
  if h : bytes.length = 32 then some ⟨bytes, h⟩ else none

/-- Whether nothing is left to read. -/
def atEnd {ε : Type} (e : ε) : Cursor Byte ε Unit := fun s =>
  if s = [] then .ok ((), s) else .error (.invalid e)

variable (hash) in
/-- Read one record, and check it against the objects that are expected; without a record, the
bundle ends as it should. -/
def nextObject (marks : BundleMarks) (count : ℕ) :
    Cursor Byte BundleError (Option BundleObject) := do
  let magic ← Cursor.readExact 4
  if magic = bundleEndMagic then
    let expected ← Cursor.readExact 8
    Cursor.ensure (LittleEndian.value expected = count % 2 ^ 64) .count
    Cursor.ensure (marks.toList.all fun p => p.2.2) .omits
    atEnd .trailing
    return none
  else
    Cursor.ensure (magic = bundleRecordMagic) .recordHeader
    let kindByte ← Cursor.readExact 1
    let lenBytes ← Cursor.readExact 8
    let idBytes ← Cursor.readExact 32
    let checksum ← Cursor.readExact 32
    let kind ← Cursor.require (kindByte.head?.bind ObjectKind.fromU8) .kind
    let id ← Cursor.require (idOfBytes idBytes) .unrelated
    let mark ← Cursor.require (marks.get? id) .unrelated
    Cursor.ensure (mark.2 = false) .duplicate
    Cursor.ensure (mark.1 = kind) .kindMismatch
    Cursor.ensure (LittleEndian.value lenBytes ≤ maxBundleObject) .tooLarge
    let bytes ← Cursor.readExact (LittleEndian.value lenBytes)
    Cursor.ensure ((hash bytes).bytes = checksum) .checksum
    Cursor.ensure (objectId hash kind bytes = id) .objectId
    return some ⟨id, kind, bytes⟩

/-- Take the records of a bundle, at most `fuel` of them.  What was put stays if a later record is
refused. -/
def importObjects (codec : ObjectCodec) :
    ℕ → NamedStore hash → BundleMarks → ℕ → Bytes →
      Except (ReadFault BundleError) Unit × NamedStore hash
  | 0, store, _, _, _ => (.error (.invalid .outOfFuel), store)
  | fuel + 1, store, marks, count, input =>
    match nextObject hash marks count input with
    | .error e => (.error e, store)
    | .ok (none, _) => (.ok (), store)
    | .ok (some o, rest) =>
      match store.putBytes o.kind o.bytes with
      | .error e => (.error (.invalid e), store)
      | .ok (id, store) =>
        if id ≠ o.id then (.error (.invalid .importId), store)
        else
          match enqueueEdges codec marks o.kind o.bytes with
          | .error e => (.error (.invalid e), store)
          | .ok marks => importObjects codec fuel store (Tour.settle marks o.id) (count + 1) rest

/-- Read the header of a bundle. -/
def bundleHeader : Cursor Byte BundleError ObjectId := do
  let magic ← Cursor.readExact 5
  Cursor.ensure (magic = bundleMagic) .header
  let snapshot ← Cursor.readExact 32
  Cursor.require (idOfBytes snapshot) .header

/-- Take a bundle into a store (`import`), and walk the snapshot once more. -/
def importBundle (codec : ObjectCodec) (store : NamedStore hash) (input : Bytes) :
    Except (ReadFault BundleError) ObjectId × NamedStore hash :=
  match bundleHeader input with
  | .error e => (.error e, store)
  | .ok (snapshot, rest) =>
    match importObjects codec (rest.length + 1) store (Tour.start (snapshot, .Snapshot)) 0 rest with
    | (.error e, store) => (.error e, store)
    | (.ok (), store) =>
      match forEachReachable codec store snapshot with
      | .error e => (.error (.invalid e), store)
      | .ok _ => (.ok snapshot, store)

/-! ## What the walk visits -/

/-- An object as a stop of a tour. -/
def BundleObject.stop (codec : ObjectCodec) (o : BundleObject) : Tour.Stop ObjectId ObjectKind :=
  ⟨o.id, o.kind, (codec.objectEdges o.kind o.bytes).toOption.getD []⟩

/-- Objects that a tour from the snapshot visits, each of them in some store. -/
structure Toured (codec : ObjectCodec) (objects : RawStore) (snapshot : ObjectId)
    (os : List BundleObject) : Prop where
  stored : ∀ o ∈ os, objects.get? o.id = some (o.kind, o.bytes)
  readable : ∀ o ∈ os, ∃ es, codec.objectEdges o.kind o.bytes = .ok es
  visits : ∃ last, Tour.Visits (Tour.start (snapshot, .Snapshot)) (os.map (BundleObject.stop codec))
    last ∧ Tour.Done last

variable {codec : ObjectCodec} {objects : RawStore} {snapshot : ObjectId} {os : List BundleObject}

/-- The edges of a stop are those of its object. -/
theorem BundleObject.stop_edges {o : BundleObject} {es : List (ObjectId × ObjectKind)}
    (h : codec.objectEdges o.kind o.bytes = .ok es) : (o.stop codec).edges = es := by
  unfold BundleObject.stop
  rw [h]
  rfl

/-- Edges are enqueued if they can be read and agree with the kinds that are known. -/
theorem enqueueEdges_eq_ok_iff {marks marks' : BundleMarks} {o : BundleObject} :
    enqueueEdges codec marks o.kind o.bytes = .ok marks' ↔
      (∃ es, codec.objectEdges o.kind o.bytes = .ok es) ∧
        Tour.enqueueAll marks (o.stop codec).edges = some marks' := by
  unfold enqueueEdges
  cases hes : codec.objectEdges o.kind o.bytes with
  | error e => simp
  | ok es =>
    rw [BundleObject.stop_edges hes]
    dsimp only
    cases Tour.enqueueAll marks es with
    | none => simp
    | some m => simp

/-- A walk that is complete is a finished tour. -/
theorem Toured.inv (h : Toured codec objects snapshot os) :
    ∃ last, Tour.Inv (snapshot, .Snapshot) (os.map (BundleObject.stop codec)) last ∧
      Tour.Done last := by
  obtain ⟨last, hvisits, hdone⟩ := h.visits
  have hinv := (Tour.inv_start (snapshot, ObjectKind.Snapshot)).visits hvisits
  exact ⟨last, hinv, hdone⟩

/-- The nodes of the stops are the identifiers of the objects. -/
theorem map_node_stop (codec : ObjectCodec) (os : List BundleObject) :
    (os.map (BundleObject.stop codec)).map Tour.Stop.node = os.map BundleObject.id := by
  rw [List.map_map]
  rfl

/-- No object is visited twice. -/
theorem Toured.nodup (h : Toured codec objects snapshot os) : (os.map BundleObject.id).Nodup := by
  obtain ⟨last, hinv, -⟩ := h.inv
  rw [← map_node_stop codec os]
  exact hinv.nodup

section Tour

variable {last : BundleMarks}

/-- Each object is the snapshot, or an earlier one refers to it. -/
theorem introduced_of_tour
    (hinv : Tour.Inv (snapshot, .Snapshot) (os.map (BundleObject.stop codec)) last)
    (hreadable : ∀ o ∈ os, ∃ es, codec.objectEdges o.kind o.bytes = .ok es)
    {before after : List BundleObject} {o : BundleObject} (hos : os = before ++ o :: after) :
    (o.id, o.kind) = (snapshot, .Snapshot) ∨
      ∃ p ∈ before, ∃ es, codec.objectEdges p.kind p.bytes = .ok es ∧ (o.id, o.kind) ∈ es := by
  have hstops : os.map (BundleObject.stop codec) = before.map (BundleObject.stop codec) ++
      o.stop codec :: after.map (BundleObject.stop codec) := by
    rw [hos, List.map_append, List.map_cons]
  rcases hinv.introduced _ _ _ hstops with hroot | ⟨s, hs, hedge⟩
  · exact Or.inl hroot
  · obtain ⟨p, hp, rfl⟩ := List.mem_map.mp hs
    obtain ⟨es, hes⟩ := hreadable p (hos ▸ List.mem_append_left _ hp)
    rw [BundleObject.stop_edges hes] at hedge
    exact Or.inr ⟨p, hp, es, hes, hedge⟩

/-- **The objects of a tour are those that are reached from the snapshot.** -/
theorem closure_iff_of_tour
    (hinv : Tour.Inv (snapshot, .Snapshot) (os.map (BundleObject.stop codec)) last)
    (hdone : Tour.Done last) (hstored : ∀ o ∈ os, objects.get? o.id = some (o.kind, o.bytes))
    (hreadable : ∀ o ∈ os, ∃ es, codec.objectEdges o.kind o.bytes = .ok es) (id : ObjectId) :
    Closure codec objects snapshot id ↔ id ∈ os.map BundleObject.id := by
  constructor
  · obtain ⟨⟨root, hroot, heq⟩, hclosed⟩ := hinv.closed hdone
    intro hid
    refine Arrival.Reach.subset (S := {id | id ∈ os.map BundleObject.id}) ?_ ?_ hid
    · obtain ⟨o, ho, rfl⟩ := List.mem_map.mp hroot
      exact List.mem_map.mpr ⟨o, ho, congrArg Prod.fst heq⟩
    · rintro x hx - y ⟨kind, bytes, es, hget, hes, hy⟩
      obtain ⟨o, ho, rfl⟩ := List.mem_map.mp hx
      rw [hstored o ho] at hget
      obtain ⟨rfl, rfl⟩ := Prod.mk.inj (Option.some.inj hget)
      obtain ⟨e, he, rfl⟩ := List.mem_map.mp hy
      rw [← BundleObject.stop_edges hes] at he
      obtain ⟨s, hs, hse⟩ := hclosed _ (List.mem_map.mpr ⟨o, ho, rfl⟩) e he
      obtain ⟨o', ho', rfl⟩ := List.mem_map.mp hs
      exact List.mem_map.mpr ⟨o', ho', congrArg Prod.fst hse⟩
  · -- Induction on the number of objects before: what refers to an object comes earlier.
    have hall : ∀ n before o after, os = before ++ o :: after → before.length = n →
        Closure codec objects snapshot o.id := by
      intro n
      induction n using Nat.strong_induction_on with
      | _ n ih =>
        intro before o after hos hn
        rcases introduced_of_tour hinv hreadable hos with hroot | ⟨p, hp, es, hes, hedge⟩
        · have hid : o.id = snapshot := congrArg Prod.fst hroot
          rw [hid]
          exact Arrival.Reach.root
        · obtain ⟨b, a, rfl⟩ := List.append_of_mem hp
          have hlen : b.length < n := by
            rw [List.length_append, List.length_cons] at hn
            omega
          have hp' := ih b.length hlen b p (a ++ o :: after) (by simp [hos]) rfl
          have hpos : p ∈ os := hos ▸ List.mem_append_left _ hp
          exact Arrival.Reach.step hp' (Set.mem_univ _)
            ⟨p.kind, p.bytes, es, hstored p hpos, hes, List.mem_map.mpr ⟨_, hedge, rfl⟩⟩
    intro hid
    obtain ⟨o, ho, rfl⟩ := List.mem_map.mp hid
    obtain ⟨before, after, hos⟩ := List.append_of_mem ho
    exact hall before.length before o after hos rfl

end Tour

/-- Every object but the snapshot is referred to by one before it. -/
theorem Toured.introduced (h : Toured codec objects snapshot os) {before after : List BundleObject}
    {o : BundleObject} (hos : os = before ++ o :: after) :
    (o.id, o.kind) = (snapshot, .Snapshot) ∨
      ∃ p ∈ before, ∃ es, codec.objectEdges p.kind p.bytes = .ok es ∧ (o.id, o.kind) ∈ es := by
  obtain ⟨last, hinv, -⟩ := h.inv
  exact introduced_of_tour hinv h.readable hos

/-- A complete walk meets what is reached from the snapshot. -/
theorem Toured.closure_iff (h : Toured codec objects snapshot os) (id : ObjectId) :
    Closure codec objects snapshot id ↔ id ∈ os.map BundleObject.id := by
  obtain ⟨last, hinv, hdone⟩ := h.inv
  exact closure_iff_of_tour hinv hdone h.stored h.readable id

/-! ## The walk of a whole snapshot -/

section Walk

variable {store : NamedStore hash}

/-- An object of the store can be read. -/
theorem NamedStore.readBytes_of_get? {id : ObjectId} {kind : ObjectKind} {bytes : Bytes}
    (h : store.objects.get? id = some (kind, bytes)) : store.readBytes id kind = .ok bytes := by
  unfold NamedStore.readBytes
  rw [h]
  simp [(store.named id kind bytes h).1]

/-- What is known during the walk is reached from the snapshot, and there with its kind. -/
theorem kind_of_named (hcomplete : Complete codec store.objects snapshot) {marks : BundleMarks}
    (hinv : Tour.Inv (snapshot, .Snapshot) (os.map (BundleObject.stop codec)) marks)
    (hreached : ∀ o ∈ os, Closure codec store.objects snapshot o.id ∧
      store.objects.get? o.id = some (o.kind, o.bytes)) {id : ObjectId} {p : ObjectKind × Bool}
    (hget : marks.get? id = some p) :
    Closure codec store.objects snapshot id ∧
      ∃ bytes, store.objects.get? id = some (p.1, bytes) := by
  rcases (hinv.named id p.1).mp ⟨p.2, hget⟩ with hroot | ⟨s, hs, hedge⟩
  · obtain ⟨rfl, hkind⟩ := Prod.mk.inj hroot
    rw [hkind]
    exact ⟨Arrival.Reach.root, hcomplete.snapshot⟩
  · obtain ⟨o, ho, rfl⟩ := List.mem_map.mp hs
    obtain ⟨hclosure, hstored⟩ := hreached o ho
    obtain ⟨es, hes, hkinds⟩ := hcomplete.closed o.id hclosure o.kind o.bytes hstored
    rw [BundleObject.stop_edges hes] at hedge
    refine ⟨?_, hkinds _ hedge⟩
    exact Arrival.Reach.step hclosure (Set.mem_univ _)
      ⟨o.kind, o.bytes, es, hstored, hes, List.mem_map.mpr ⟨_, hedge, rfl⟩⟩

/-- **The walk goes on until nothing is left.** -/
theorem visitUpTo_spec (hcomplete : Complete codec store.objects snapshot) (os : List BundleObject)
    {fuel : ℕ} {marks : BundleMarks}
    (hinv : Tour.Inv (snapshot, .Snapshot) (os.map (BundleObject.stop codec)) marks)
    (hreached : ∀ o ∈ os, Closure codec store.objects snapshot o.id ∧
      store.objects.get? o.id = some (o.kind, o.bytes))
    (hfuel : store.objects.toList.length < fuel + os.length) :
    ∃ rest last, visitUpTo codec store fuel marks = .ok rest ∧
      Tour.Visits marks (rest.map (BundleObject.stop codec)) last ∧ Tour.Done last ∧
      ∀ o ∈ rest, store.objects.get? o.id = some (o.kind, o.bytes) ∧
        ∃ es, codec.objectEdges o.kind o.bytes = .ok es := by
  induction fuel generalizing marks os with
  | zero =>
    -- The objects so far are different ones of the store, so there is fuel left.
    have hsub : os.map BundleObject.id ⊆ store.objects.keys := by
      intro id hid
      obtain ⟨o, ho, rfl⟩ := List.mem_map.mp hid
      rw [OrdMap.mem_keys_iff, (hreached o ho).2]
      rfl
    have hnodup : (os.map BundleObject.id).Nodup := by
      rw [← map_node_stop codec os]
      exact hinv.nodup
    have hlen := (List.subperm_of_subset hnodup hsub).length_le
    rw [List.length_map, OrdMap.keys, List.length_map] at hlen
    omega
  | succ fuel ih =>
    rw [visitUpTo]
    cases hnext : Tour.next marks with
    | none => exact ⟨[], marks, rfl, .nil marks, Tour.next_eq_none hnext, by simp⟩
    | some p =>
      obtain ⟨id, kind⟩ := p
      have hpending := Tour.next_eq_some hnext
      obtain ⟨hclosure, bytes, hstored⟩ := kind_of_named hcomplete hinv hreached hpending
      dsimp only at hstored
      obtain ⟨es, hes, hkinds⟩ := hcomplete.closed id hclosure kind bytes hstored
      set o : BundleObject := ⟨id, kind, bytes⟩ with ho
      -- The tags of the table are the kinds of the stored objects.
      obtain ⟨named, hnamed⟩ : ∃ named, Tour.enqueueAll marks es = some named := by
        refine Tour.exists_enqueueAll (fun id => (store.objects.get? id).map Prod.fst) ?_ ?_
        · intro n q hq
          obtain ⟨-, bytes', hget⟩ := kind_of_named hcomplete hinv hreached hq
          rw [hget]
          rfl
        · intro e he
          obtain ⟨bytes', hget⟩ := hkinds e he
          rw [hget]
          rfl
      have hedges : (o.stop codec).edges = es := BundleObject.stop_edges hes
      have hnamed' : Tour.enqueueAll marks (o.stop codec).edges = some named := by
        rw [hedges, hnamed]
      have hinv' : Tour.Inv (snapshot, .Snapshot) ((os ++ [o]).map (BundleObject.stop codec))
          (Tour.settle named id) := by
        rw [List.map_append, List.map_singleton]
        exact hinv.visit hpending hnamed'
      have hreached' : ∀ q ∈ os ++ [o], Closure codec store.objects snapshot q.id ∧
          store.objects.get? q.id = some (q.kind, q.bytes) := by
        intro q hq
        rcases List.mem_append.mp hq with hq | hq
        · exact hreached q hq
        · obtain rfl := List.mem_singleton.mp hq
          exact ⟨hclosure, hstored⟩
      obtain ⟨rest, last, hrest, hvisits, hdone, hall⟩ := ih (os ++ [o]) hinv' hreached' (by
        rw [List.length_append, List.length_singleton]
        omega)
      refine ⟨o :: rest, last, ?_, .cons hpending hnamed' hvisits, hdone, ?_⟩
      · have henqueue : enqueueEdges codec marks kind bytes = .ok named :=
          (enqueueEdges_eq_ok_iff (o := o)).mpr ⟨⟨es, hes⟩, hnamed'⟩
        simp only [NamedStore.readBytes_of_get? hstored, henqueue, hrest, bind, Except.bind]
        rfl
      · intro q hq
        rcases List.mem_cons.mp hq with rfl | hq
        · exact ⟨hstored, es, hes⟩
        · exact hall q hq

/-- **The walk visits what is reached from the snapshot, each object once.** -/
theorem forEachReachable_spec (hcomplete : Complete codec store.objects snapshot) :
    ∃ os, forEachReachable codec store snapshot = .ok os ∧
      Toured codec store.objects snapshot os := by
  obtain ⟨os, last, hos, hvisits, hdone, hall⟩ := visitUpTo_spec hcomplete []
    (Tour.inv_start _) (by simp) (Nat.lt_succ_self store.objects.toList.length)
  exact ⟨os, hos, fun o ho => (hall o ho).1, fun o ho => (hall o ho).2, last, hvisits, hdone⟩

end Walk

/-! ## Reading records -/

/-- An identifier is read back. -/
theorem idOfBytes_bytes (id : ObjectId) : idOfBytes id.bytes = some id := by
  unfold idOfBytes
  rw [dif_pos id.length_eq]

/-- What is read as an identifier are its bytes. -/
theorem bytes_of_idOfBytes {bytes : Bytes} {id : ObjectId} (h : idOfBytes bytes = some id) :
    id.bytes = bytes := by
  unfold idOfBytes at h
  split_ifs at h
  rw [← Option.some.inj h]

/-- The magic of a record has four bytes. -/
theorem length_bundleRecordMagic : bundleRecordMagic.length = 4 := rfl

/-- The magic of the end has four bytes. -/
theorem length_bundleEndMagic : bundleEndMagic.length = 4 := rfl

/-- The record of an object that is expected is read. -/
theorem nextObject_encode {o : BundleObject} {marks : BundleMarks} (count : ℕ) (t : Bytes)
    (hpending : marks.get? o.id = some (o.kind, false)) (hlen : o.bytes.length ≤ maxBundleObject)
    (hid : objectId hash o.kind o.bytes = o.id) :
    nextObject hash marks count (o.encode hash ++ t) = .ok (some o, t) := by
  have hvalue : LittleEndian.value (LittleEndian.bytes 8 o.bytes.length) = o.bytes.length := by
    have hmax : maxBundleObject < 256 ^ 8 := by decide
    rw [LittleEndian.value_bytes]
    exact Nat.mod_eq_of_lt (by omega)
  have hmagic : bundleRecordMagic ≠ bundleEndMagic := by decide
  have hone : [o.kind.toU8].length = 1 := rfl
  have hkind : [o.kind.toU8].head?.bind ObjectKind.fromU8 = some o.kind :=
    ObjectKind.fromU8_toU8 o.kind
  unfold nextObject BundleObject.encode
  simp only [List.append_assoc]
  rw [Cursor.bind_of_ok (Cursor.readExact_append _ _ length_bundleRecordMagic), if_neg hmagic,
    Cursor.bind_of_ok (Cursor.ensure_eq_ok_iff.mpr ⟨rfl, rfl⟩),
    Cursor.bind_of_ok (Cursor.readExact_append _ _ hone),
    Cursor.bind_of_ok (Cursor.readExact_append _ _ (LittleEndian.length_bytes 8 _)),
    Cursor.bind_of_ok (Cursor.readExact_append _ _ o.id.length_eq),
    Cursor.bind_of_ok (Cursor.readExact_append _ _ (hash o.bytes).length_eq),
    Cursor.bind_of_ok (Cursor.require_eq_ok_iff.mpr ⟨hkind, rfl⟩),
    Cursor.bind_of_ok (Cursor.require_eq_ok_iff.mpr ⟨idOfBytes_bytes o.id, rfl⟩),
    Cursor.bind_of_ok (Cursor.require_eq_ok_iff.mpr ⟨hpending, rfl⟩),
    Cursor.bind_of_ok (Cursor.ensure_eq_ok_iff.mpr ⟨rfl, rfl⟩),
    Cursor.bind_of_ok (Cursor.ensure_eq_ok_iff.mpr ⟨rfl, rfl⟩),
    hvalue, Cursor.bind_of_ok (Cursor.ensure_eq_ok_iff.mpr ⟨hlen, rfl⟩),
    Cursor.bind_of_ok (Cursor.readExact_append _ _ rfl),
    Cursor.bind_of_ok (Cursor.ensure_eq_ok_iff.mpr ⟨rfl, rfl⟩),
    Cursor.bind_of_ok (Cursor.ensure_eq_ok_iff.mpr ⟨hid, rfl⟩)]
  rfl

/-- All is processed when the tour is done. -/
theorem all_processed_iff {marks : BundleMarks} :
    (marks.toList.all fun p => p.2.2) = true ↔ Tour.Done marks := by
  rw [List.all_eq_true]
  constructor
  · intro h n tag b hget
    exact h (n, tag, b) ((OrdMap.mem_toList_iff marks).mpr hget)
  · rintro h ⟨n, tag, b⟩ hp
    exact h n tag b ((OrdMap.mem_toList_iff marks).mp hp)

/-- Eight bytes hold 64 bits. -/
theorem pow_256_8 : 256 ^ 8 = 2 ^ 64 := by decide

/-- The end of a bundle is read once nothing is expected any more. -/
theorem nextObject_end {marks : BundleMarks} (count : ℕ) (hdone : Tour.Done marks) :
    nextObject hash marks count (bundleEndMagic ++ LittleEndian.bytes 8 count) = .ok
      (none, []) := by
  have hvalue : LittleEndian.value (LittleEndian.bytes 8 count) = count % 2 ^ 64 := by
    rw [LittleEndian.value_bytes, pow_256_8]
  have hbytes : (LittleEndian.bytes 8 count) = LittleEndian.bytes 8 count ++ [] := by simp
  unfold nextObject
  rw [Cursor.bind_of_ok (Cursor.readExact_append _ _ length_bundleEndMagic), if_pos rfl, hbytes,
    Cursor.bind_of_ok (Cursor.readExact_append _ _ (LittleEndian.length_bytes 8 _)),
    Cursor.bind_of_ok (Cursor.ensure_eq_ok_iff.mpr ⟨hvalue, rfl⟩),
    Cursor.bind_of_ok (Cursor.ensure_eq_ok_iff.mpr ⟨all_processed_iff.mpr hdone, rfl⟩)]
  rfl

/-- What is read is the record of an object that is expected. -/
theorem encode_of_nextObject {marks : BundleMarks} {count : ℕ} {s t : Bytes} {o : BundleObject}
    (h : nextObject hash marks count s = .ok (some o, t)) :
    s = o.encode hash ++ t ∧ marks.get? o.id = some (o.kind, false) ∧
      objectId hash o.kind o.bytes = o.id := by
  unfold nextObject at h
  obtain ⟨magic, s₁, h₁, h⟩ := Cursor.bind_eq_ok_iff.mp h
  split_ifs at h with hmagic
  · obtain ⟨expected, s₂, -, h⟩ := Cursor.bind_eq_ok_iff.mp h
    obtain ⟨_, s₃, -, h⟩ := Cursor.bind_eq_ok_iff.mp h
    obtain ⟨_, s₄, -, h⟩ := Cursor.bind_eq_ok_iff.mp h
    obtain ⟨_, s₅, -, h⟩ := Cursor.bind_eq_ok_iff.mp h
    exact absurd h (by simp [pure, StateT.pure, Except.pure])
  obtain ⟨_, s₂, h₂, h⟩ := Cursor.bind_eq_ok_iff.mp h
  obtain ⟨kindByte, s₃, h₃, h⟩ := Cursor.bind_eq_ok_iff.mp h
  obtain ⟨lenBytes, s₄, h₄, h⟩ := Cursor.bind_eq_ok_iff.mp h
  obtain ⟨idBytes, s₅, h₅, h⟩ := Cursor.bind_eq_ok_iff.mp h
  obtain ⟨checksum, s₆, h₆, h⟩ := Cursor.bind_eq_ok_iff.mp h
  obtain ⟨kind, s₇, h₇, h⟩ := Cursor.bind_eq_ok_iff.mp h
  obtain ⟨id, s₈, h₈, h⟩ := Cursor.bind_eq_ok_iff.mp h
  obtain ⟨mark, s₉, h₉, h⟩ := Cursor.bind_eq_ok_iff.mp h
  obtain ⟨_, s₁₀, h₁₀, h⟩ := Cursor.bind_eq_ok_iff.mp h
  obtain ⟨_, s₁₁, h₁₁, h⟩ := Cursor.bind_eq_ok_iff.mp h
  obtain ⟨_, s₁₂, h₁₂, h⟩ := Cursor.bind_eq_ok_iff.mp h
  obtain ⟨bytes, s₁₃, h₁₃, h⟩ := Cursor.bind_eq_ok_iff.mp h
  obtain ⟨_, s₁₄, h₁₄, h⟩ := Cursor.bind_eq_ok_iff.mp h
  obtain ⟨_, s₁₅, h₁₅, h⟩ := Cursor.bind_eq_ok_iff.mp h
  -- every step either splits off what it read or reads nothing
  obtain ⟨rfl, -⟩ := Cursor.readExact_eq_ok_iff.mp h₁
  obtain ⟨rfl, rfl⟩ := Cursor.ensure_eq_ok_iff.mp h₂
  obtain ⟨rfl, hkindByte⟩ := Cursor.readExact_eq_ok_iff.mp h₃
  obtain ⟨rfl, hlenBytes⟩ := Cursor.readExact_eq_ok_iff.mp h₄
  obtain ⟨rfl, -⟩ := Cursor.readExact_eq_ok_iff.mp h₅
  obtain ⟨rfl, -⟩ := Cursor.readExact_eq_ok_iff.mp h₆
  obtain ⟨hkind, rfl⟩ := Cursor.require_eq_ok_iff.mp h₇
  obtain ⟨hid, rfl⟩ := Cursor.require_eq_ok_iff.mp h₈
  obtain ⟨hmark, rfl⟩ := Cursor.require_eq_ok_iff.mp h₉
  obtain ⟨hfalse, rfl⟩ := Cursor.ensure_eq_ok_iff.mp h₁₀
  obtain ⟨hmarkKind, rfl⟩ := Cursor.ensure_eq_ok_iff.mp h₁₁
  obtain ⟨-, rfl⟩ := Cursor.ensure_eq_ok_iff.mp h₁₂
  obtain ⟨rfl, hbytes⟩ := Cursor.readExact_eq_ok_iff.mp h₁₃
  obtain ⟨rfl, rfl⟩ := Cursor.ensure_eq_ok_iff.mp h₁₄
  obtain ⟨hobject, rfl⟩ := Cursor.ensure_eq_ok_iff.mp h₁₅
  obtain ⟨ho, rfl⟩ := Prod.mk.inj (Except.ok.inj h)
  obtain rfl := Option.some.inj ho
  have hlen : LittleEndian.bytes 8 bytes.length = lenBytes := by
    rw [hbytes, ← hlenBytes, LittleEndian.bytes_value]
  have hbyte : kindByte = [kind.toU8] := by
    obtain ⟨b, rfl⟩ := List.length_eq_one_iff.mp hkindByte
    rw [ObjectKind.toU8_of_fromU8 hkind]
  refine ⟨?_, ?_, hobject⟩
  · rw [BundleObject.encode, hlen, bytes_of_idOfBytes hid, hbyte]
    simp only [List.append_assoc]
  · rw [hmark, ← hmarkKind, ← hfalse]

/-- A bundle that ends has nothing behind its number of records. -/
theorem end_of_nextObject {marks : BundleMarks} {count : ℕ} {s t : Bytes}
    (h : nextObject hash marks count s = .ok (none, t)) :
    s = bundleEndMagic ++ LittleEndian.bytes 8 count ∧ Tour.Done marks := by
  unfold nextObject at h
  obtain ⟨magic, s₁, h₁, h⟩ := Cursor.bind_eq_ok_iff.mp h
  split_ifs at h with hmagic
  · obtain ⟨expected, s₂, h₂, h⟩ := Cursor.bind_eq_ok_iff.mp h
    obtain ⟨_, s₃, h₃, h⟩ := Cursor.bind_eq_ok_iff.mp h
    obtain ⟨_, s₄, h₄, h⟩ := Cursor.bind_eq_ok_iff.mp h
    obtain ⟨_, s₅, h₅, h⟩ := Cursor.bind_eq_ok_iff.mp h
    obtain ⟨rfl, -⟩ := Cursor.readExact_eq_ok_iff.mp h₁
    obtain ⟨rfl, hlen⟩ := Cursor.readExact_eq_ok_iff.mp h₂
    obtain ⟨hcount, rfl⟩ := Cursor.ensure_eq_ok_iff.mp h₃
    obtain ⟨hall, rfl⟩ := Cursor.ensure_eq_ok_iff.mp h₄
    unfold atEnd at h₅
    split_ifs at h₅ with hnil
    rw [← pow_256_8] at hcount
    exact ⟨by rw [hmagic, hnil, LittleEndian.eq_bytes hlen hcount, List.append_nil],
      all_processed_iff.mp hall⟩
  · iterate 14 obtain ⟨_, _, -, h⟩ := Cursor.bind_eq_ok_iff.mp h
    exact absurd h (by simp [pure, StateT.pure, Except.pure])

/-! ## The transport -/

/-- The store with objects put into it. -/
def putBundle (store : RawStore) (os : List BundleObject) : RawStore :=
  os.foldl (fun store o => store.put o.id o.kind o.bytes) store

/-- **The importer takes the records of a tour.** -/
theorem importObjects_encode (store : NamedStore hash) {marks last : BundleMarks} (count : ℕ)
    {fuel : ℕ}
    (hvisits : Tour.Visits marks (os.map (BundleObject.stop codec)) last) (hdone : Tour.Done last)
    (hreadable : ∀ o ∈ os, ∃ es, codec.objectEdges o.kind o.bytes = .ok es)
    (hnamed : ∀ o ∈ os, objectId hash o.kind o.bytes = o.id ∧ o.bytes.length ≤ maxObjectLen)
    (hfuel : os.length < fuel) :
    ∃ store', importObjects codec fuel store marks count (os.flatMap (BundleObject.encode hash) ++
        (bundleEndMagic ++ LittleEndian.bytes 8 (count + os.length))) = (.ok (), store') ∧
      store'.objects = putBundle store.objects os := by
  induction os generalizing store marks count fuel with
  | nil =>
    cases hvisits
    obtain ⟨fuel, rfl⟩ : ∃ m, fuel = m + 1 := ⟨fuel - 1, by simp at hfuel; omega⟩
    refine ⟨store, ?_, rfl⟩
    rw [importObjects, List.flatMap_nil, List.nil_append, List.length_nil, Nat.add_zero,
      nextObject_end count hdone]
  | cons o os ih =>
    rw [List.map_cons] at hvisits
    cases hvisits with
    | cons hpending henqueued hrest =>
      obtain ⟨fuel, rfl⟩ : ∃ m, fuel = m + 1 := ⟨fuel - 1, by omega⟩
      obtain ⟨hid, hlen⟩ := hnamed o List.mem_cons_self
      have henqueue := enqueueEdges_eq_ok_iff.mpr ⟨hreadable o List.mem_cons_self, henqueued⟩
      have hput : store.putBytes o.kind o.bytes = .ok (objectId hash o.kind o.bytes,
          ⟨store.objects.put (objectId hash o.kind o.bytes) o.kind o.bytes,
            store.named_put hlen⟩) := dif_pos hlen
      have hcount : count + (o :: os).length = count + 1 + os.length := by
        rw [List.length_cons]
        omega
      rw [importObjects, List.flatMap_cons, List.append_assoc, hcount,
        nextObject_encode count _ hpending hlen hid]
      simp only [hput, hid, henqueue, ne_eq, not_true_eq_false, if_false]
      obtain ⟨store', hstore', hobjects⟩ := ih _ (count + 1) hrest
        (fun q hq => hreadable q (List.mem_cons_of_mem o hq))
        (fun q hq => hnamed q (List.mem_cons_of_mem o hq)) (Nat.lt_of_succ_lt_succ hfuel)
      exact ⟨store', hstore', hobjects⟩

/-- **The importer takes nothing else.** -/
theorem encode_of_importObjects {store store' : NamedStore hash} {marks : BundleMarks}
    {count fuel : ℕ} {input : Bytes}
    (h : importObjects codec fuel store marks count input = (.ok (), store')) :
    ∃ (os : List BundleObject) (last : BundleMarks),
      input = os.flatMap (BundleObject.encode hash) ++
        (bundleEndMagic ++ LittleEndian.bytes 8 (count + os.length)) ∧
      Tour.Visits marks (os.map (BundleObject.stop codec)) last ∧ Tour.Done last ∧
      ∀ o ∈ os, (∃ es, codec.objectEdges o.kind o.bytes = .ok es) ∧
        objectId hash o.kind o.bytes = o.id := by
  induction fuel generalizing store marks count input with
  | zero => exact absurd h (by simp [importObjects])
  | succ fuel ih =>
    rw [importObjects] at h
    cases hnext : nextObject hash marks count input with
    | error e =>
      rw [hnext] at h
      exact absurd (Prod.mk.inj h).1 (by simp)
    | ok p =>
      obtain ⟨found, rest⟩ := p
      rw [hnext] at h
      cases found with
      | none =>
        obtain ⟨hinput, hdone⟩ := end_of_nextObject hnext
        exact ⟨[], marks, by simpa using hinput, .nil marks, hdone, by simp⟩
      | some o =>
        obtain ⟨hinput, hpending, hid⟩ := encode_of_nextObject hnext
        dsimp only at h
        cases hput : store.putBytes o.kind o.bytes with
        | error e =>
          rw [hput] at h
          exact absurd (Prod.mk.inj h).1 (by simp)
        | ok q =>
          rw [hput] at h
          dsimp only at h
          split_ifs at h with hq
          · exact absurd (Prod.mk.inj h).1 (by simp)
          cases henqueue : enqueueEdges codec marks o.kind o.bytes with
          | error e =>
            rw [henqueue] at h
            exact absurd (Prod.mk.inj h).1 (by simp)
          | ok named =>
            rw [henqueue] at h
            obtain ⟨hreadable, henqueued⟩ := enqueueEdges_eq_ok_iff.mp henqueue
            obtain ⟨os, last, hrest, hvisits, hdone, hall⟩ := ih h
            refine ⟨o :: os, last, ?_, .cons hpending henqueued hvisits, hdone, ?_⟩
            · have hcount : count + (o :: os).length = count + 1 + os.length := by
                rw [List.length_cons]
                omega
              rw [hinput, hrest, hcount, List.flatMap_cons, List.append_assoc]
            · intro r hr
              rcases List.mem_cons.mp hr with rfl | hr
              · exact ⟨hreadable, hid⟩
              · exact hall r hr

/-- An object that is there is not replaced. -/
theorem get?_put (store : RawStore) (id id' : ObjectId) (kind : ObjectKind) (bytes : Bytes) :
    (store.put id kind bytes).get? id' =
      if id' = id then some ((store.get? id).getD (kind, bytes)) else store.get? id' := by
  unfold RawStore.put
  cases hget : store.get? id with
  | none =>
    simp only [Option.isSome_none, Bool.false_eq_true, if_false]
    rw [OrdMap.get?_insert]
    split_ifs <;> rfl
  | some x =>
    simp only [Option.isSome_some, if_true]
    split_ifs with hid
    · rw [hid, hget]
      rfl
    · rfl

/-- What is in a store after objects were put into it. -/
theorem get?_putBundle (store : RawStore) (hnodup : (os.map BundleObject.id).Nodup)
    (id : ObjectId) :
    (∀ x, store.get? id = some x → (putBundle store os).get? id = some x) ∧
      (id ∉ os.map BundleObject.id → (putBundle store os).get? id = store.get? id) ∧
      ∀ o ∈ os, o.id = id → store.get? id = none →
        (putBundle store os).get? id = some (o.kind, o.bytes) := by
  induction os generalizing store with
  | nil => exact ⟨fun _ h => h, fun _ => rfl, by simp⟩
  | cons o os ih =>
    rw [List.map_cons, List.nodup_cons] at hnodup
    obtain ⟨hkept, hother, hnew⟩ := ih (store.put o.id o.kind o.bytes) hnodup.2
    have hput := get?_put store o.id id o.kind o.bytes
    refine ⟨?_, ?_, ?_⟩
    · intro x hx
      apply hkept
      rw [hput]
      split_ifs with hid
      · rw [← hid, hx]
        rfl
      · exact hx
    · intro hid
      rw [List.map_cons, List.mem_cons, not_or] at hid
      refine (hother hid.2).trans ?_
      rw [hput, if_neg hid.1]
    · intro q hq hqid hnone
      rcases List.mem_cons.mp hq with rfl | hq
      · apply hkept
        rw [hput, if_pos hqid.symm, hqid, hnone]
        rfl
      · refine hnew q hq hqid ?_
        have hne : id ≠ o.id := by
          rintro rfl
          exact hnodup.1 (hqid ▸ List.mem_map.mpr ⟨q, hq, rfl⟩)
        rw [hput, if_neg hne, hnone]

/-- A store that has all that is reached from a snapshot has the whole snapshot. -/
theorem Complete.transfer {store store' : RawStore} (h : Complete codec store snapshot)
    (hsame : ∀ id, Closure codec store snapshot id → store'.get? id = store.get? id) :
    Complete codec store' snapshot := by
  have hclosure : ∀ id, Closure codec store' snapshot id → Closure codec store snapshot id := by
    intro id hid
    unfold Closure at hid
    induction hid with
    | root => exact Arrival.Reach.root
    | step _ _ he ih =>
      obtain ⟨kind, bytes, es, hget, hes, hy⟩ := he
      rw [hsame _ ih] at hget
      exact Arrival.Reach.step ih (Set.mem_univ _) ⟨kind, bytes, es, hget, hes, hy⟩
  constructor
  · rw [hsame snapshot Arrival.Reach.root]
    exact h.snapshot
  · intro id hid kind bytes hget
    have hid' := hclosure id hid
    rw [hsame id hid'] at hget
    obtain ⟨es, hes, hkinds⟩ := h.closed id hid' kind bytes hget
    refine ⟨es, hes, ?_⟩
    intro e he
    rw [hsame e.1 (Arrival.Reach.step hid' (Set.mem_univ _)
      ⟨kind, bytes, es, hget, hes, List.mem_map.mpr ⟨e, he, rfl⟩⟩)]
    exact hkinds e he

/-- A bundle begins with its magic and the identifier of its snapshot. -/
theorem bundleHeader_eq_ok_iff {input rest : Bytes} :
    bundleHeader input = .ok (snapshot, rest) ↔
      input = bundleMagic ++ (snapshot.bytes ++ rest) := by
  have hlen : bundleMagic.length = 5 := rfl
  constructor
  · intro h
    unfold bundleHeader at h
    obtain ⟨magic, s₁, h₁, h⟩ := Cursor.bind_eq_ok_iff.mp h
    obtain ⟨_, s₂, h₂, h⟩ := Cursor.bind_eq_ok_iff.mp h
    obtain ⟨id, s₃, h₃, h⟩ := Cursor.bind_eq_ok_iff.mp h
    obtain ⟨hid, rfl⟩ := Cursor.require_eq_ok_iff.mp h
    obtain ⟨rfl, -⟩ := Cursor.readExact_eq_ok_iff.mp h₁
    obtain ⟨rfl, rfl⟩ := Cursor.ensure_eq_ok_iff.mp h₂
    obtain ⟨rfl, -⟩ := Cursor.readExact_eq_ok_iff.mp h₃
    rw [bytes_of_idOfBytes hid]
  · rintro rfl
    unfold bundleHeader
    rw [Cursor.bind_of_ok (Cursor.readExact_append _ _ hlen),
      Cursor.bind_of_ok (Cursor.ensure_eq_ok_iff.mpr ⟨rfl, rfl⟩),
      Cursor.bind_of_ok (Cursor.readExact_append _ _ snapshot.length_eq)]
    exact Cursor.require_eq_ok_iff.mpr ⟨idOfBytes_bytes snapshot, rfl⟩

/-- There is at least one byte for each record. -/
theorem length_le_flatMap_encode (hash : Bytes → ObjectId) (os : List BundleObject) :
    os.length ≤ (os.flatMap (BundleObject.encode hash)).length := by
  induction os with
  | nil => simp
  | cons o os ih =>
    have ho : 1 ≤ (o.encode hash).length := by
      rw [BundleObject.encode, List.length_append, length_bundleRecordMagic]
      omega
    rw [List.flatMap_cons, List.length_append, List.length_cons]
    omega

/-- The bundle of a whole snapshot is taken, and adds what is reached from the snapshot. -/
theorem importBundle_encode {source target : NamedStore hash}
    (hcomplete : Complete codec source.objects snapshot)
    (htoured : Toured codec source.objects snapshot os)
    (hagree : Agree target.objects source.objects) :
    ∃ target', importBundle codec target (encodeBundle hash snapshot os) = (.ok snapshot, target') ∧
      (∀ id, Closure codec source.objects snapshot id →
        target'.objects.get? id = source.objects.get? id) ∧
      ∀ id, ¬ Closure codec source.objects snapshot id →
        target'.objects.get? id = target.objects.get? id := by
  obtain ⟨last, hvisits, hdone⟩ := htoured.visits
  have hnamed : ∀ o ∈ os, objectId hash o.kind o.bytes = o.id ∧ o.bytes.length ≤ maxObjectLen :=
    fun o ho => source.named o.id o.kind o.bytes (htoured.stored o ho)
  set rest := os.flatMap (BundleObject.encode hash) ++
    (bundleEndMagic ++ LittleEndian.bytes 8 os.length) with hrest
  have hfuel : os.length < rest.length + 1 := by
    have := length_le_flatMap_encode hash os
    rw [hrest, List.length_append]
    omega
  obtain ⟨target', himport, hobjects⟩ := importObjects_encode target 0 hvisits
    hdone htoured.readable hnamed hfuel
  rw [Nat.zero_add, ← hrest] at himport
  have hin : ∀ id, Closure codec source.objects snapshot id →
      target'.objects.get? id = source.objects.get? id := by
    intro id hid
    obtain ⟨o, ho, rfl⟩ := List.mem_map.mp ((htoured.closure_iff id).mp hid)
    obtain ⟨hkept, -, hnew⟩ := get?_putBundle target.objects htoured.nodup o.id
    rw [hobjects, htoured.stored o ho]
    cases hget : target.objects.get? o.id with
    | none => exact hnew o ho rfl hget
    | some x =>
      rw [hkept x hget]
      exact congrArg some (hagree o.id x _ hget (htoured.stored o ho))
  refine ⟨target', ?_, hin, ?_⟩
  · have hheader : bundleHeader (encodeBundle hash snapshot os) = .ok (snapshot, rest) :=
      bundleHeader_eq_ok_iff.mpr rfl
    obtain ⟨os', hos', -⟩ := forEachReachable_spec (hcomplete.transfer hin)
    unfold importBundle
    simp only [hheader, himport, hos']
  · intro id hid
    rw [hobjects]
    exact (get?_putBundle _ htoured.nodup id).2.1 fun hmem =>
      hid ((htoured.closure_iff id).mpr hmem)

/-- The objects of a bundle as a store. -/
def recordStore (os : List BundleObject) : RawStore := putBundle OrdMap.empty os

/-- The store of records has each of them. -/
theorem get?_recordStore (hnodup : (os.map BundleObject.id).Nodup) {o : BundleObject}
    (ho : o ∈ os) : (recordStore os).get? o.id = some (o.kind, o.bytes) :=
  (get?_putBundle _ hnodup o.id).2.2 o ho rfl rfl

/-- A bundle that is taken has the records of a tour from its snapshot. -/
theorem toured_of_importBundle {target target' : NamedStore hash} {input : Bytes}
    (h : importBundle codec target input = (.ok snapshot, target')) :
    ∃ os, input = encodeBundle hash snapshot os ∧ Toured codec (recordStore os) snapshot os ∧
      ∀ o ∈ os, objectId hash o.kind o.bytes = o.id := by
  unfold importBundle at h
  cases hheader : bundleHeader input with
  | error e =>
    rw [hheader] at h
    exact absurd (Prod.mk.inj h).1 (by simp)
  | ok p =>
    obtain ⟨root, rest⟩ := p
    rw [hheader] at h
    dsimp only at h
    rcases himport :
      importObjects codec (rest.length + 1) target (Tour.start (root, .Snapshot)) 0 rest with
      ⟨result, store⟩
    rw [himport] at h
    cases result with
    | error e => exact absurd (Prod.mk.inj h).1 (by simp)
    | ok u =>
      dsimp only at h
      cases hwalk : forEachReachable codec store root with
      | error e =>
        rw [hwalk] at h
        exact absurd (Prod.mk.inj h).1 (by simp)
      | ok visited =>
        rw [hwalk] at h
        obtain rfl := Except.ok.inj (Prod.mk.inj h).1
        obtain ⟨os, last, hrest, hvisits, hdone, hall⟩ := encode_of_importObjects himport
        have hinv := (Tour.inv_start (root, ObjectKind.Snapshot)).visits hvisits
        have hnodup : (os.map BundleObject.id).Nodup := by
          rw [← map_node_stop codec os]
          exact hinv.nodup
        refine ⟨os, ?_, ?_, fun o ho => (hall o ho).2⟩
        · rw [bundleHeader_eq_ok_iff.mp hheader, hrest, Nat.zero_add]
          rfl
        · exact ⟨fun o ho => get?_recordStore hnodup ho, fun o ho => (hall o ho).1, last, hvisits,
            hdone⟩

/-- **Bundles carry whole snapshots.**  A whole snapshot is exported and its bundle is taken by any
store, which gains what is reached from the snapshot and nothing else; the walk visits each of these
objects once; and only bundles are taken whose records are what is reached from the snapshot through
them, each once and after one that refers to it. -/
theorem bundle_roundTrip (codec : ObjectCodec) (source target : NamedStore hash)
    (snapshot : ObjectId) (hcomplete : Complete codec source.objects snapshot)
    (hagree : Agree target.objects source.objects) :
    (∃ os, forEachReachable codec source snapshot = .ok os ∧ (os.map BundleObject.id).Nodup ∧
      ∀ id, id ∈ os.map BundleObject.id ↔ Closure codec source.objects snapshot id) ∧
    (∃ bytes count target', exportBundle codec source snapshot = .ok (bytes, count) ∧
      importBundle codec target bytes = (.ok snapshot, target') ∧
      (∀ id, Closure codec source.objects snapshot id →
        target'.objects.get? id = source.objects.get? id) ∧
      ∀ id, ¬ Closure codec source.objects snapshot id →
        target'.objects.get? id = target.objects.get? id) ∧
    ∀ (input : Bytes) (root : ObjectId) (target' : NamedStore hash),
      importBundle codec target input = (.ok root, target') →
      ∃ os, input = encodeBundle hash root os ∧ (os.map BundleObject.id).Nodup ∧
        (∀ id, id ∈ os.map BundleObject.id ↔ Closure codec (recordStore os) root id) ∧
        (∀ o ∈ os, objectId hash o.kind o.bytes = o.id ∧
          (recordStore os).get? o.id = some (o.kind, o.bytes)) ∧
        ∀ before o after, os = before ++ o :: after → (o.id, o.kind) = (root, .Snapshot) ∨
          ∃ p ∈ before, ∃ es, codec.objectEdges p.kind p.bytes = .ok es ∧ (o.id, o.kind) ∈ es := by
  obtain ⟨os, hos, htoured⟩ := forEachReachable_spec hcomplete
  refine ⟨⟨os, hos, htoured.nodup, fun id => (htoured.closure_iff id).symm⟩, ?_, ?_⟩
  · obtain ⟨target', himport, hin, hout⟩ := importBundle_encode hcomplete htoured hagree
    refine ⟨_, os.length, target', ?_, himport, hin, hout⟩
    unfold exportBundle
    rw [hos]
    rfl
  · intro input root target' h
    obtain ⟨os', hinput, htoured', hnamed⟩ := toured_of_importBundle h
    exact ⟨os', hinput, htoured'.nodup, fun id => (htoured'.closure_iff id).symm,
      fun o ho => ⟨hnamed o ho, htoured'.stored o ho⟩,
      fun before o after heq => htoured'.introduced heq⟩

end

/-! ## A snapshot of two files -/

/-- The one chunk of both files. -/
def sharedChunkBytes : Bytes := text "a"

/-- The hash of the chunk. -/
def sharedChunkHash : Bytes :=
  [129, 61, 255, 157, 159, 216, 121, 15, 251, 139, 165, 243, 89, 185, 0, 18, 254, 199, 34, 12, 93,
    71, 218, 26, 205, 50, 125, 96, 97, 185, 15, 146]

/-- The hash has 32 bytes. -/
theorem length_sharedChunkHash : sharedChunkHash.length = 32 := rfl

/-- The identifier of the chunk. -/
def sharedChunkId : ObjectId := ⟨sharedChunkHash, length_sharedChunkHash⟩

/-- A file that has the chunk once, as it is stored:
`{"chunks":[{"id":[129,61,…],"len":1}],"total_len":1}` -/
def sharedOnceBytes : Bytes :=
  [123, 34, 99, 104, 117, 110, 107, 115, 34, 58, 91, 123, 34, 105, 100, 34, 58, 91, 49, 50, 57, 44,
    54, 49, 44, 50, 53, 53, 44, 49, 53, 55, 44, 49, 53, 57, 44, 50, 49, 54, 44, 49, 50, 49, 44, 49,
    53, 44, 50, 53, 49, 44, 49, 51, 57, 44, 49, 54, 53, 44, 50, 52, 51, 44, 56, 57, 44, 49, 56, 53,
    44, 48, 44, 49, 56, 44, 50, 53, 52, 44, 49, 57, 57, 44, 51, 52, 44, 49, 50, 44, 57, 51, 44, 55,
    49, 44, 50, 49, 56, 44, 50, 54, 44, 50, 48, 53, 44, 53, 48, 44, 49, 50, 53, 44, 57, 54, 44, 57,
    55, 44, 49, 56, 53, 44, 49, 53, 44, 49, 52, 54, 93, 44, 34, 108, 101, 110, 34, 58, 49, 125, 93,
    44, 34, 116, 111, 116, 97, 108, 95, 108, 101, 110, 34, 58, 49, 125]

/-- The identifier of the file that has the chunk once. -/
def sharedOnceId : ObjectId :=
  ⟨[225, 59, 63, 227, 197, 167, 28, 193, 29, 92, 197, 247, 233, 249, 188, 98, 136, 228, 29,
    218, 139, 38, 153, 213, 28, 100, 224, 150, 20, 170, 158, 226], rfl⟩

/-- A file that has the chunk twice, as it is stored:
`{"chunks":[{"id":[129,61,…],"len":1},{"id":[129,61,…],"len":1}],"total_len":2}` -/
def sharedTwiceBytes : Bytes :=
  [123, 34, 99, 104, 117, 110, 107, 115, 34, 58, 91, 123, 34, 105, 100, 34, 58, 91, 49, 50, 57, 44,
    54, 49, 44, 50, 53, 53, 44, 49, 53, 55, 44, 49, 53, 57, 44, 50, 49, 54, 44, 49, 50, 49, 44, 49,
    53, 44, 50, 53, 49, 44, 49, 51, 57, 44, 49, 54, 53, 44, 50, 52, 51, 44, 56, 57, 44, 49, 56, 53,
    44, 48, 44, 49, 56, 44, 50, 53, 52, 44, 49, 57, 57, 44, 51, 52, 44, 49, 50, 44, 57, 51, 44, 55,
    49, 44, 50, 49, 56, 44, 50, 54, 44, 50, 48, 53, 44, 53, 48, 44, 49, 50, 53, 44, 57, 54, 44, 57,
    55, 44, 49, 56, 53, 44, 49, 53, 44, 49, 52, 54, 93, 44, 34, 108, 101, 110, 34, 58, 49, 125, 44,
    123, 34, 105, 100, 34, 58, 91, 49, 50, 57, 44, 54, 49, 44, 50, 53, 53, 44, 49, 53, 55, 44, 49,
    53, 57, 44, 50, 49, 54, 44, 49, 50, 49, 44, 49, 53, 44, 50, 53, 49, 44, 49, 51, 57, 44, 49, 54,
    53, 44, 50, 52, 51, 44, 56, 57, 44, 49, 56, 53, 44, 48, 44, 49, 56, 44, 50, 53, 52, 44, 49, 57,
    57, 44, 51, 52, 44, 49, 50, 44, 57, 51, 44, 55, 49, 44, 50, 49, 56, 44, 50, 54, 44, 50, 48, 53,
    44, 53, 48, 44, 49, 50, 53, 44, 57, 54, 44, 57, 55, 44, 49, 56, 53, 44, 49, 53, 44, 49, 52, 54,
    93, 44, 34, 108, 101, 110, 34, 58, 49, 125, 93, 44, 34, 116, 111, 116, 97, 108, 95, 108, 101,
    110, 34, 58, 50, 125]

/-- The identifier of the file that has the chunk twice. -/
def sharedTwiceId : ObjectId :=
  ⟨[241, 36, 184, 7, 246, 229, 173, 217, 183, 177, 48, 166, 140, 159, 116, 73, 138, 189, 182,
    185, 19, 243, 149, 150, 100, 0, 29, 125, 0, 37, 211, 134], rfl⟩

/-- The tree with the two files, as it is stored:
`{"entries":[{"name":[97],"kind":"File","target":[225,59,…],"link_target":[],"mode":33188,
"size":1,"mtime_secs":0,"mtime_nanos":0,"xattrs":null,"class":"Source"},{"name":[98],
"kind":"File","target":[241,36,…],"link_target":[],"mode":33188,"size":2,"mtime_secs":0,
"mtime_nanos":0,"xattrs":null,"class":"Source"}]}` -/
def sharedTreeBytes : Bytes :=
  [123, 34, 101, 110, 116, 114, 105, 101, 115, 34, 58, 91, 123, 34, 110, 97, 109, 101, 34, 58, 91,
    57, 55, 93, 44, 34, 107, 105, 110, 100, 34, 58, 34, 70, 105, 108, 101, 34, 44, 34, 116, 97,
    114, 103, 101, 116, 34, 58, 91, 50, 50, 53, 44, 53, 57, 44, 54, 51, 44, 50, 50, 55, 44, 49, 57,
    55, 44, 49, 54, 55, 44, 50, 56, 44, 49, 57, 51, 44, 50, 57, 44, 57, 50, 44, 49, 57, 55, 44, 50,
    52, 55, 44, 50, 51, 51, 44, 50, 52, 57, 44, 49, 56, 56, 44, 57, 56, 44, 49, 51, 54, 44, 50, 50,
    56, 44, 50, 57, 44, 50, 49, 56, 44, 49, 51, 57, 44, 51, 56, 44, 49, 53, 51, 44, 50, 49, 51, 44,
    50, 56, 44, 49, 48, 48, 44, 50, 50, 52, 44, 49, 53, 48, 44, 50, 48, 44, 49, 55, 48, 44, 49, 53,
    56, 44, 50, 50, 54, 93, 44, 34, 108, 105, 110, 107, 95, 116, 97, 114, 103, 101, 116, 34, 58,
    91, 93, 44, 34, 109, 111, 100, 101, 34, 58, 51, 51, 49, 56, 56, 44, 34, 115, 105, 122, 101, 34,
    58, 49, 44, 34, 109, 116, 105, 109, 101, 95, 115, 101, 99, 115, 34, 58, 48, 44, 34, 109, 116,
    105, 109, 101, 95, 110, 97, 110, 111, 115, 34, 58, 48, 44, 34, 120, 97, 116, 116, 114, 115, 34,
    58, 110, 117, 108, 108, 44, 34, 99, 108, 97, 115, 115, 34, 58, 34, 83, 111, 117, 114, 99, 101,
    34, 125, 44, 123, 34, 110, 97, 109, 101, 34, 58, 91, 57, 56, 93, 44, 34, 107, 105, 110, 100,
    34, 58, 34, 70, 105, 108, 101, 34, 44, 34, 116, 97, 114, 103, 101, 116, 34, 58, 91, 50, 52, 49,
    44, 51, 54, 44, 49, 56, 52, 44, 55, 44, 50, 52, 54, 44, 50, 50, 57, 44, 49, 55, 51, 44, 50, 49,
    55, 44, 49, 56, 51, 44, 49, 55, 55, 44, 52, 56, 44, 49, 54, 54, 44, 49, 52, 48, 44, 49, 53, 57,
    44, 49, 49, 54, 44, 55, 51, 44, 49, 51, 56, 44, 49, 56, 57, 44, 49, 56, 50, 44, 49, 56, 53, 44,
    49, 57, 44, 50, 52, 51, 44, 49, 52, 57, 44, 49, 53, 48, 44, 49, 48, 48, 44, 48, 44, 50, 57, 44,
    49, 50, 53, 44, 48, 44, 51, 55, 44, 50, 49, 49, 44, 49, 51, 52, 93, 44, 34, 108, 105, 110, 107,
    95, 116, 97, 114, 103, 101, 116, 34, 58, 91, 93, 44, 34, 109, 111, 100, 101, 34, 58, 51, 51,
    49, 56, 56, 44, 34, 115, 105, 122, 101, 34, 58, 50, 44, 34, 109, 116, 105, 109, 101, 95, 115,
    101, 99, 115, 34, 58, 48, 44, 34, 109, 116, 105, 109, 101, 95, 110, 97, 110, 111, 115, 34, 58,
    48, 44, 34, 120, 97, 116, 116, 114, 115, 34, 58, 110, 117, 108, 108, 44, 34, 99, 108, 97, 115,
    115, 34, 58, 34, 83, 111, 117, 114, 99, 101, 34, 125, 93, 125]

/-- The identifier of the tree. -/
def sharedTreeId : ObjectId :=
  ⟨[226, 209, 20, 245, 196, 19, 248, 23, 118, 211, 66, 238, 34, 196, 234, 169, 129, 219, 40,
    11, 137, 108, 165, 76, 51, 91, 32, 203, 82, 20, 71, 235], rfl⟩

/-- The snapshot of the two files, as it is stored:
`{"root_tree":[226,209,…],"parent":null,"merge_parents":[],"sealed_at_secs":0,
"sealed_at_nanos":0,"quality":"Quiescent","trigger":"Manual","label":null,"sqlite_backups":[],
"claims":[],"excluded_paths":[]}` -/
def sharedSnapshotBytes : Bytes :=
  [123, 34, 114, 111, 111, 116, 95, 116, 114, 101, 101, 34, 58, 91, 50, 50, 54, 44, 50, 48, 57, 44,
    50, 48, 44, 50, 52, 53, 44, 49, 57, 54, 44, 49, 57, 44, 50, 52, 56, 44, 50, 51, 44, 49, 49, 56,
    44, 50, 49, 49, 44, 54, 54, 44, 50, 51, 56, 44, 51, 52, 44, 49, 57, 54, 44, 50, 51, 52, 44, 49,
    54, 57, 44, 49, 50, 57, 44, 50, 49, 57, 44, 52, 48, 44, 49, 49, 44, 49, 51, 55, 44, 49, 48, 56,
    44, 49, 54, 53, 44, 55, 54, 44, 53, 49, 44, 57, 49, 44, 51, 50, 44, 50, 48, 51, 44, 56, 50, 44,
    50, 48, 44, 55, 49, 44, 50, 51, 53, 93, 44, 34, 112, 97, 114, 101, 110, 116, 34, 58, 110, 117,
    108, 108, 44, 34, 109, 101, 114, 103, 101, 95, 112, 97, 114, 101, 110, 116, 115, 34, 58, 91,
    93, 44, 34, 115, 101, 97, 108, 101, 100, 95, 97, 116, 95, 115, 101, 99, 115, 34, 58, 48, 44,
    34, 115, 101, 97, 108, 101, 100, 95, 97, 116, 95, 110, 97, 110, 111, 115, 34, 58, 48, 44, 34,
    113, 117, 97, 108, 105, 116, 121, 34, 58, 34, 81, 117, 105, 101, 115, 99, 101, 110, 116, 34,
    44, 34, 116, 114, 105, 103, 103, 101, 114, 34, 58, 34, 77, 97, 110, 117, 97, 108, 34, 44, 34,
    108, 97, 98, 101, 108, 34, 58, 110, 117, 108, 108, 44, 34, 115, 113, 108, 105, 116, 101, 95,
    98, 97, 99, 107, 117, 112, 115, 34, 58, 91, 93, 44, 34, 99, 108, 97, 105, 109, 115, 34, 58, 91,
    93, 44, 34, 101, 120, 99, 108, 117, 100, 101, 100, 95, 112, 97, 116, 104, 115, 34, 58, 91, 93,
    125]

/-- The identifier of the snapshot. -/
def sharedSnapshotId : ObjectId :=
  ⟨[208, 144, 13, 232, 9, 9, 123, 43, 113, 128, 111, 33, 125, 182, 72, 89, 216, 122, 179, 255,
    61, 68, 114, 97, 192, 33, 197, 113, 178, 112, 58, 53], rfl⟩

/-- A chunk that no file has. -/
def otherChunkBytes : Bytes := text "b"

/-- The identifier of the other chunk. -/
def otherChunkId : ObjectId :=
  ⟨[156, 124, 96, 155, 183, 208, 60, 181, 185, 245, 187, 44, 238, 213, 162, 141, 220, 205, 225,
    117, 22, 127, 248, 164, 184, 182, 62, 95, 216, 123, 144, 76], rfl⟩

/-- The hash of the chunk without its domain. -/
def sharedPlainHash : Bytes :=
  [23, 118, 47, 221, 217, 105, 164, 83, 146, 93, 101, 113, 122, 195, 238, 162, 19, 32, 182, 107, 84,
    52, 47, 222, 21, 18, 141, 108, 175, 33, 33, 95]

/-- The hash has 32 bytes. -/
theorem length_sharedPlainHash : sharedPlainHash.length = 32 := rfl

/-- The hash on the objects, with their domains and without. -/
def sharedHash (bytes : Bytes) : ObjectId :=
  if bytes = ObjectKind.Chunk.domain ++ sharedChunkBytes then sharedChunkId
  else if bytes = ObjectKind.Chunk.domain ++ otherChunkBytes then otherChunkId
  else if bytes = ObjectKind.Blob.domain ++ sharedOnceBytes then sharedOnceId
  else if bytes = ObjectKind.Blob.domain ++ sharedTwiceBytes then sharedTwiceId
  else if bytes = ObjectKind.Tree.domain ++ sharedTreeBytes then sharedTreeId
  else if bytes = ObjectKind.Snapshot.domain ++ sharedSnapshotBytes then sharedSnapshotId
  else if bytes = sharedChunkBytes then ⟨sharedPlainHash, length_sharedPlainHash⟩
  else if bytes = sharedOnceBytes then
    ⟨[105, 63, 107, 156, 33, 169, 57, 104, 7, 83, 5, 144, 245, 92, 23, 0, 234, 45, 182, 248, 180,
      35, 49, 191, 178, 237, 128, 194, 64, 12, 67, 187], rfl⟩
  else if bytes = sharedTwiceBytes then
    ⟨[156, 164, 180, 73, 223, 9, 45, 81, 70, 228, 208, 108, 213, 151, 101, 89, 106, 166, 19, 88,
      225, 189, 254, 222, 26, 219, 63, 9, 253, 200, 202, 29], rfl⟩
  else if bytes = sharedTreeBytes then
    ⟨[89, 195, 21, 91, 132, 241, 23, 7, 198, 146, 27, 218, 47, 60, 246, 113, 243, 23, 179, 145,
      100, 218, 189, 101, 174, 161, 116, 78, 70, 169, 126, 168], rfl⟩
  else
    ⟨[37, 191, 182, 158, 135, 249, 146, 230, 66, 184, 178, 77, 121, 196, 13, 208, 171, 100, 31,
      162, 63, 128, 109, 10, 212, 241, 21, 155, 32, 43, 233, 164], rfl⟩

/-- The entry of a file. -/
def sharedEntry (name : String) (blob : ObjectId) (size : UInt64) : TreeEntry :=
  ⟨text name, .File, some blob, [], 33188, size, 0, 0, none, .Source⟩

/-- How the objects are read. -/
def sharedCodec : ObjectCodec where
  snapshot bytes :=
    if bytes = sharedSnapshotBytes then some ⟨sharedTreeId, none, [], 0, [], [], []⟩ else none
  tree bytes :=
    if bytes = sharedTreeBytes then
      some ⟨[sharedEntry "a" sharedOnceId 1, sharedEntry "b" sharedTwiceId 2], []⟩
    else none
  blob bytes :=
    if bytes = sharedOnceBytes then some ⟨[⟨sharedChunkId, 1⟩], 1⟩
    else if bytes = sharedTwiceBytes then some ⟨[⟨sharedChunkId, 1⟩, ⟨sharedChunkId, 1⟩], 2⟩
    else none

/-- The objects of the snapshot, by identifier. -/
def sharedObjects : RawStore :=
  [(sharedChunkId, ObjectKind.Chunk, sharedChunkBytes), (sharedOnceId, .Blob, sharedOnceBytes),
    (sharedTwiceId, .Blob, sharedTwiceBytes), (sharedTreeId, .Tree, sharedTreeBytes),
    (sharedSnapshotId, .Snapshot, sharedSnapshotBytes)].foldl
      (fun store o => store.insert o.1 o.2) OrdMap.empty

/-- The objects of the snapshot, by their identifiers. -/
theorem get?_sharedObjects (id : ObjectId) :
    sharedObjects.get? id =
      if id = sharedSnapshotId then some (.Snapshot, sharedSnapshotBytes)
      else if id = sharedTreeId then some (.Tree, sharedTreeBytes)
      else if id = sharedTwiceId then some (.Blob, sharedTwiceBytes)
      else if id = sharedOnceId then some (.Blob, sharedOnceBytes)
      else if id = sharedChunkId then some (.Chunk, sharedChunkBytes) else none := by
  simp only [sharedObjects, List.foldl_cons, List.foldl_nil, OrdMap.get?_insert]
  split_ifs <;> rfl

/-- The objects of the snapshot have the names their bytes give them. -/
theorem named_sharedObjects (id : ObjectId) (kind : ObjectKind) (bytes : Bytes)
    (h : sharedObjects.get? id = some (kind, bytes)) :
    objectId sharedHash kind bytes = id ∧ bytes.length ≤ maxObjectLen := by
  rw [get?_sharedObjects] at h
  split_ifs at h with hid hid hid hid hid <;>
    obtain ⟨rfl, rfl⟩ := Prod.mk.inj (Option.some.inj h) <;> rw [hid] <;> decide +kernel

/-- A store with the snapshot. -/
def sharedStore : NamedStore sharedHash := ⟨sharedObjects, named_sharedObjects⟩

/-- The objects of a store that has the chunk of the files already, and another chunk. -/
def otherObjects : RawStore :=
  (OrdMap.empty.insert sharedChunkId (.Chunk, sharedChunkBytes)).insert otherChunkId
    (.Chunk, otherChunkBytes)

/-- The objects of the other store, by their identifiers. -/
theorem get?_otherObjects (id : ObjectId) :
    otherObjects.get? id =
      if id = otherChunkId then some (.Chunk, otherChunkBytes)
      else if id = sharedChunkId then some (.Chunk, sharedChunkBytes) else none := by
  rw [otherObjects, OrdMap.get?_insert, OrdMap.get?_insert]
  split_ifs <;> rfl

/-- The objects of the other store have the names their bytes give them. -/
theorem named_otherObjects (id : ObjectId) (kind : ObjectKind) (bytes : Bytes)
    (h : otherObjects.get? id = some (kind, bytes)) :
    objectId sharedHash kind bytes = id ∧ bytes.length ≤ maxObjectLen := by
  rw [get?_otherObjects] at h
  split_ifs at h with hid hid <;>
    obtain ⟨rfl, rfl⟩ := Prod.mk.inj (Option.some.inj h) <;> rw [hid] <;> decide

/-- The store that takes the bundle. -/
def otherStore : NamedStore sharedHash := ⟨otherObjects, named_otherObjects⟩

/-- The two stores agree on the chunk that both have. -/
theorem agree_otherObjects : Agree otherObjects sharedObjects := by
  intro id o o' ho ho'
  rw [get?_otherObjects] at ho
  split_ifs at ho with hother hchunk
  · have hnone : sharedObjects.get? otherChunkId = none := by decide
    rw [hother, hnone] at ho'
    exact absurd ho' (by simp)
  · have hshared : sharedObjects.get? sharedChunkId = some (.Chunk, sharedChunkBytes) := by
      decide
    rw [hchunk, hshared] at ho'
    exact Option.some.inj (ho.symm.trans ho')

/-- What the objects refer to is there. -/
theorem edges_sharedObjects (id : ObjectId) (kind : ObjectKind) (bytes : Bytes)
    (h : sharedObjects.get? id = some (kind, bytes)) :
    ∃ es, sharedCodec.objectEdges kind bytes = .ok es ∧
      ∀ e ∈ es, ∃ bytes', sharedObjects.get? e.1 = some (e.2, bytes') := by
  have htree : ∀ e ∈ [(sharedTreeId, ObjectKind.Tree)],
      ∃ bytes', sharedObjects.get? e.1 = some (e.2, bytes') := by
    simpa using ⟨sharedTreeBytes, by decide +kernel⟩
  have hfiles : ∀ e ∈ [(sharedOnceId, ObjectKind.Blob), (sharedTwiceId, .Blob)],
      ∃ bytes', sharedObjects.get? e.1 = some (e.2, bytes') := by
    simpa using ⟨⟨sharedOnceBytes, by decide +kernel⟩, sharedTwiceBytes, by decide +kernel⟩
  have hchunk : ∃ bytes', sharedObjects.get? sharedChunkId = some (.Chunk, bytes') :=
    ⟨sharedChunkBytes, by decide⟩
  rw [get?_sharedObjects] at h
  split_ifs at h <;> obtain ⟨rfl, rfl⟩ := Prod.mk.inj (Option.some.inj h)
  · exact ⟨_, by decide +kernel, htree⟩
  · exact ⟨_, by decide +kernel, hfiles⟩
  · exact ⟨[(sharedChunkId, .Chunk), (sharedChunkId, .Chunk)], by decide +kernel,
      by simpa using hchunk⟩
  · exact ⟨[(sharedChunkId, .Chunk)], by decide, by simpa using hchunk⟩
  · exact ⟨[], rfl, by simp⟩

/-- The snapshot is there with all that it refers to. -/
theorem complete_sharedObjects : Complete sharedCodec sharedObjects sharedSnapshotId where
  snapshot := ⟨sharedSnapshotBytes, by decide +kernel⟩
  closed id _ kind bytes h := edges_sharedObjects id kind bytes h

/-- **A snapshot of two files travels.**  Its objects are taken by a store that has one of them
already and an object of its own. -/
theorem bundle_roundTrip_shared :
    ∃ bytes target', exportBundle sharedCodec sharedStore sharedSnapshotId = .ok (bytes, 5) ∧
      importBundle sharedCodec otherStore bytes = (.ok sharedSnapshotId, target') ∧
      target'.objects.get? sharedTwiceId = some (.Blob, sharedTwiceBytes) ∧
      target'.objects.get? otherChunkId = some (.Chunk, otherChunkBytes) := by
  obtain ⟨-, ⟨bytes, count, target', hexport, himport, hin, hout⟩, -⟩ :=
    bundle_roundTrip sharedCodec sharedStore otherStore sharedSnapshotId complete_sharedObjects
      agree_otherObjects
  have hcount : (exportBundle sharedCodec sharedStore sharedSnapshotId).toOption.map Prod.snd =
      some 5 := by
    decide +kernel
  have htwice : Closure sharedCodec sharedObjects sharedSnapshotId sharedTwiceId := by
    have htree : Refers sharedCodec sharedObjects sharedSnapshotId sharedTreeId :=
      ⟨.Snapshot, sharedSnapshotBytes, [(sharedTreeId, .Tree)], by decide +kernel,
        by decide +kernel, by simp⟩
    have hfile : Refers sharedCodec sharedObjects sharedTreeId sharedTwiceId :=
      ⟨.Tree, sharedTreeBytes, [(sharedOnceId, .Blob), (sharedTwiceId, .Blob)], by decide +kernel,
        by decide +kernel, by simp⟩
    exact .step (.step .root (Set.mem_univ _) htree) (Set.mem_univ _) hfile
  have hother : ¬ Closure sharedCodec sharedObjects sharedSnapshotId otherChunkId := by
    intro h
    obtain ⟨kind, bytes', hget⟩ := complete_sharedObjects.hasKind h
    have hnone : sharedObjects.get? otherChunkId = none := by decide
    exact absurd (hnone.symm.trans hget) (by simp)
  rw [hexport] at hcount
  obtain rfl : count = 5 := Option.some.inj hcount
  refine ⟨bytes, target', hexport, himport, ?_, ?_⟩
  · rw [hin sharedTwiceId htwice]
    change sharedObjects.get? sharedTwiceId = _
    decide +kernel
  · rw [hout otherChunkId hother]
    change otherObjects.get? otherChunkId = _
    decide

end Furrow
