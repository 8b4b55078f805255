import Furrow.Exchange.Export

set_option relaxedAutoImplicit false
set_option autoImplicit false

/-!
# What packing and splitting promise

Which objects share a frame is decided by the size of the frame alone; how long the header may be
is looked at only when the frame is closed, and how long the frame may be only when it is split.
So the groups are determined first, and the two bounds are conditions on the groups.

Splitting takes any bytes.  What it accepts is divided by its header into pieces without a gap,
an overlap or a repeated name.

## Main definitions

* `Furrow.frameGroups` — the groups of objects that share a frame.
* `Furrow.Tiles`, `Furrow.Divides` — a header divides a payload.

## Main results

* `Furrow.pack_eq` — what packing returns, from the groups.
* `Furrow.pack_accepted_iff` — packing succeeds and its frames are accepted, exactly if no group
  has a header that is too large, or a repeated name.
* `Furrow.divides_of_decodeFrame` — what splitting accepts is divided by its header.
* `Furrow.frames_roundTrip_iff` — the frames are split into what was packed, exactly if none is
  too large.
-/

namespace Furrow

/-! ## Groups -/

/-- Objects put into frames by size alone: the next one joins the current frame as long as the
frame keeps within the limit, and the first one of a frame always does. -/
def frameGroups (cellKeyId : Bytes) (limit : ℕ) :
    List (ObjectId × Bytes) → List (ObjectId × Bytes) → List (List (ObjectId × Bytes))
  | current, [] => if current = [] then [] else [current]
  | current, o :: rest =>
    if current = [] ∨ (frameBytesOf cellKeyId (current ++ [o])).length ≤ limit then
      frameGroups cellKeyId limit (current ++ [o]) rest
    else current :: frameGroups cellKeyId limit [o] rest

/-- The frame of a group. -/
def frameOf (cellKeyId : Bytes) (group : List (ObjectId × Bytes)) : Frame :=
  ⟨frameBytesOf cellKeyId group, group.map Prod.fst⟩

section Groups

variable {cellKeyId : Bytes} {limit : ℕ}

/-- The groups are the objects, in order. -/
theorem flatten_frameGroups (current objects : List (ObjectId × Bytes)) :
    (frameGroups cellKeyId limit current objects).flatten = current ++ objects := by
  induction objects generalizing current with
  | nil =>
    unfold frameGroups
    split_ifs with hnil <;> simp [hnil]
  | cons o rest ih =>
    unfold frameGroups
    split_ifs
    · rw [ih, List.append_assoc]
      rfl
    · rw [List.flatten_cons, ih]
      rfl

/-- A group of more than one object keeps within the limit. -/
theorem grouped_of_mem_frameGroups {current objects g : List (ObjectId × Bytes)}
    (hcurrent : current = [] ∨ Grouped cellKeyId limit current)
    (hg : g ∈ frameGroups cellKeyId limit current objects) : Grouped cellKeyId limit g := by
  induction objects generalizing current with
  | nil =>
    unfold frameGroups at hg
    split_ifs at hg with hnil
    · exact absurd hg List.not_mem_nil
    · rw [List.mem_singleton.mp hg]
      exact hcurrent.resolve_left hnil
  | cons o rest ih =>
    unfold frameGroups at hg
    split_ifs at hg with hjoin
    · exact ih (Or.inr (grouped_of_fits ((fits_pendingOf o).mpr hjoin))) hg
    · rcases List.mem_cons.mp hg with rfl | hg
      · exact hcurrent.resolve_left fun hnil => hjoin (Or.inl hnil)
      · exact ih (Or.inr ⟨by simp, Or.inl ⟨o, rfl⟩⟩) hg

/-- A frame is finished if its header is not too long. -/
theorem finish_pendingOf_eq (group : List (ObjectId × Bytes)) :
    (pendingOf cellKeyId limit group).finish =
      if (headerOf cellKeyId group).length ≤ maxHeader then .ok (frameOf cellKeyId group)
      else .error .headerTooLarge := rfl

/-- The frames of groups, unless one of them has a header that is too large. -/
def closeGroups (cellKeyId : Bytes) (groups : List (List (ObjectId × Bytes))) :
    Except FrameError (List Frame) :=
  if ∀ g ∈ groups, (headerOf cellKeyId g).length ≤ maxHeader then
    .ok (groups.map (frameOf cellKeyId))
  else .error .headerTooLarge

/-- A group whose header is not too long gets its frame. -/
theorem closeGroups_cons {group : List (ObjectId × Bytes)}
    (h : (headerOf cellKeyId group).length ≤ maxHeader)
    (groups : List (List (ObjectId × Bytes))) :
    closeGroups cellKeyId (group :: groups) =
      (closeGroups cellKeyId groups).map (frameOf cellKeyId group :: ·) := by
  unfold closeGroups
  simp only [List.forall_mem_cons, h, true_and]
  split_ifs <;> rfl

/-- A group whose header is too long is refused. -/
theorem closeGroups_cons_error {group : List (ObjectId × Bytes)}
    (h : ¬ (headerOf cellKeyId group).length ≤ maxHeader)
    (groups : List (List (ObjectId × Bytes))) :
    closeGroups cellKeyId (group :: groups) = .error .headerTooLarge :=
  if_neg fun hall => h (hall group List.mem_cons_self)

/-- The end of packing: the last frame is closed. -/
def packEnd (st : Pending × List Frame) : Except FrameError (List Frame) :=
  if st.1.refs.isEmpty then .ok st.2
  else do
    let frame ← st.1.finish
    .ok (st.2 ++ [frame])

/-- Packing from the middle on. -/
theorem foldlM_packObject (current objects : List (ObjectId × Bytes)) (done : List Frame) :
    (objects.foldlM (packObject cellKeyId limit) (pendingOf cellKeyId limit current, done) >>=
        packEnd) =
      (closeGroups cellKeyId (frameGroups cellKeyId limit current objects)).map (done ++ ·) := by
  induction objects generalizing current done with
  | nil =>
    have hempty : (pendingOf cellKeyId limit current).refs.isEmpty = current.isEmpty :=
      refsFrom_isEmpty 0
    have hend : ([].foldlM (packObject cellKeyId limit) (pendingOf cellKeyId limit current, done)
        >>= packEnd) = packEnd (pendingOf cellKeyId limit current, done) := rfl
    rw [hend, packEnd, frameGroups]
    simp only [hempty, List.isEmpty_iff]
    by_cases hnil : current = []
    · simp [hnil, closeGroups, Except.map]
    · rw [if_neg hnil, if_neg hnil, finish_pendingOf_eq]
      by_cases hlen : (headerOf cellKeyId current).length ≤ maxHeader
      · rw [if_pos hlen, closeGroups_cons hlen]
        rfl
      · rw [if_neg hlen, closeGroups_cons_error hlen]
        rfl
  | cons o rest ih =>
    rw [List.foldlM_cons, frameGroups]
    by_cases hjoin : current = [] ∨ (frameBytesOf cellKeyId (current ++ [o])).length ≤ limit
    · have hone : packObject cellKeyId limit (pendingOf cellKeyId limit current, done) o =
          .ok (pendingOf cellKeyId limit (current ++ [o]), done) := by
        unfold packObject
        rw [if_pos ((fits_pendingOf o).mpr hjoin), push_pendingOf]
      rw [hone, if_pos hjoin, ← ih (current ++ [o]) done]
      rfl
    · have hfits := mt (fits_pendingOf o).mp hjoin
      have hnew : (Pending.new cellKeyId limit).push o.1 o.2 = pendingOf cellKeyId limit [o] :=
        @push_pendingOf cellKeyId limit [] o
      rw [if_neg hjoin]
      unfold packObject
      rw [if_neg hfits, finish_pendingOf_eq]
      by_cases hlen : (headerOf cellKeyId current).length ≤ maxHeader
      · have hrest := ih [o] (done ++ [frameOf cellKeyId current])
        rw [if_pos hlen, hnew, closeGroups_cons hlen]
        refine hrest.trans ?_
        cases closeGroups cellKeyId (frameGroups cellKeyId limit [o] rest) with
        | error e => rfl
        | ok frames => simp [Except.map]
      · rw [if_neg hlen, closeGroups_cons_error hlen]
        rfl

/-- **What packing returns**: the frames of the groups, unless a group has a header that is too
large. -/
theorem pack_eq (cellKeyId : Bytes) (limit : ℕ) (objects : List (ObjectId × Bytes)) :
    pack cellKeyId limit objects =
      closeGroups cellKeyId (frameGroups cellKeyId limit [] objects) := by
  have hrun := @foldlM_packObject cellKeyId limit [] objects []
  refine hrun.trans ?_
  cases closeGroups cellKeyId (frameGroups cellKeyId limit [] objects) <;> rfl

end Groups

/-! ## What splitting accepts -/

/-- References one after the other from a position on, the last one up to the end. -/
def Tiles : ℕ → List ObjectRef → ℕ → Prop
  | start, [], stop => start = stop
  | start, r :: refs, stop => r.off = start ∧ Tiles (start + r.len) refs stop

/-- A header divides a payload into objects: its references leave no gap and do not overlap, they
cover the payload, and no name is repeated. -/
structure Divides (header : Header) (payload : Bytes) (objects : List (ObjectId × Bytes)) :
    Prop where
  tiles : Tiles 0 header.objects payload.length
  rids : header.objects.map (fun r => parseRid r.rid) = objects.map fun o => some o.1
  lengths : header.objects.map ObjectRef.len = objects.map fun o => o.2.length
  bytes : payloadOf objects = payload
  nodup : (objects.map Prod.fst).Nodup

/-- The objects that a list of references stands for.

**Proof sketch.** Induction along the references.  Each starts where the objects before it end,
its bytes are the next of the payload, and its name was not seen before. -/
theorem objectsFrom_eq_ok {payload : Bytes} {refs : List ObjectRef} {seen : List ObjectId}
    {expected : ℕ} {objects : List (ObjectId × Bytes)}
    (h : objectsFrom payload refs seen expected = .ok objects) :
    Tiles expected refs payload.length ∧
      refs.map (fun r => parseRid r.rid) = objects.map (fun o => some o.1) ∧
      refs.map ObjectRef.len = objects.map (fun o => o.2.length) ∧
      payloadOf objects = payload.drop expected ∧
      (objects.map Prod.fst).Nodup ∧ ∀ o ∈ objects, o.1 ∉ seen := by
  induction refs generalizing seen expected objects with
  | nil =>
    unfold objectsFrom at h
    split_ifs at h with hend
    cases h
    refine ⟨hend, rfl, rfl, ?_, List.nodup_nil, fun o ho => absurd ho List.not_mem_nil⟩
    rw [hend, List.drop_length]
    rfl
  | cons entry refs ih =>
    unfold objectsFrom at h
    cases hrid : parseRid entry.rid with
    | none =>
      simp only [hrid] at h
      split_ifs at h
    | some rid =>
      simp only [hrid] at h
      split_ifs at h with hoff hseen hover hmagic
      obtain ⟨rest, hrest, h⟩ := Fallible.exists_of_bind_eq_ok h
      cases h
      obtain ⟨htiles, hrids, hlengths, hbytes, hnodup, hfresh⟩ := ih hrest
      have hlen : ((payload.drop expected).take entry.len).length = entry.len := by
        rw [List.length_take, List.length_drop]
        omega
      refine ⟨⟨not_not.mp hoff, htiles⟩, ?_, ?_, ?_, ?_, ?_⟩
      · rw [List.map_cons, List.map_cons, hrid, hrids]
      · rw [List.map_cons, List.map_cons, hlengths, hlen]
      · rw [payloadOf, List.flatMap_cons]
        show (payload.drop expected).take entry.len ++ payloadOf rest = _
        rw [hbytes, ← List.drop_drop, List.take_append_drop]
      · rw [List.map_cons, List.nodup_cons]
        refine ⟨fun hmem => ?_, hnodup⟩
        obtain ⟨o, ho, heq⟩ := List.mem_map.mp hmem
        exact hfresh o ho (heq ▸ List.mem_cons_self)
      · intro o ho
        rcases List.mem_cons.mp ho with rfl | ho
        · exact hseen
        · exact fun hmem => hfresh o ho (List.mem_cons_of_mem _ hmem)

/-- A payload that is split is divided as its header says. -/
theorem objectsOfFrame_eq_ok {header : Header} {payload : Bytes}
    {objects : List (ObjectId × Bytes)}
    (h : objectsOfFrame header.objects payload = .ok objects) : Divides header payload objects := by
  unfold objectsOfFrame at h
  split_ifs at h with hempty
  obtain ⟨htiles, hrids, hlengths, hbytes, hnodup, -⟩ := objectsFrom_eq_ok h
  exact ⟨htiles, hrids, hlengths, hbytes, hnodup⟩

/-- **What splitting accepts is divided by its header.**  The bytes are the magic, the length of
the header, the header and the payload, each within the bounds of the store. -/
theorem divides_of_decodeFrame {fromSlice : Bytes → Option Header} {frame cellKeyId : Bytes}
    {objects : List (ObjectId × Bytes)}
    (h : decodeFrame fromSlice frame = .ok (cellKeyId, objects)) :
    frame.length ≤ maxFrame ∧ ∃ length text payload header,
      frame = frameMagic ++ length ++ text ++ payload ∧ length.length = 4 ∧
      LittleEndian.value length = text.length ∧ text.length ≤ maxHeader ∧
      fromSlice text = some header ∧ header.cellKeyId = cellKeyId ∧
      Divides header payload objects := by
  unfold decodeFrame at h
  dsimp only at h
  split_ifs at h with hlarge hmagic hshort hheader htrunc
  rw [List.isPrefixOf_iff_prefix] at hmagic
  obtain ⟨rest, rfl⟩ := hmagic
  rw [List.drop_left] at h hshort hheader htrunc
  split at h
  · cases h
  · rename_i header hread
    split_ifs at h with hversion hkeyId
    cases hobjects : objectsOfFrame header.objects
        ((rest.drop 4).drop (LittleEndian.value (rest.take 4))) with
    | error e =>
      rw [hobjects] at h
      cases h
    | ok os =>
      rw [hobjects] at h
      cases h
      have htext : ((rest.drop 4).take (LittleEndian.value (rest.take 4))).length =
          LittleEndian.value (rest.take 4) := by
        rw [List.length_take]
        omega
      refine ⟨not_lt.mp hlarge, rest.take 4, (rest.drop 4).take (LittleEndian.value (rest.take 4)),
        (rest.drop 4).drop (LittleEndian.value (rest.take 4)), header, ?_, ?_, htext.symm, ?_,
        hread, rfl, objectsOfFrame_eq_ok hobjects⟩
      · rw [List.append_assoc, List.append_assoc, List.take_append_drop, List.take_append_drop]
      · rw [List.length_take]
        omega
      · rw [htext]
        exact not_lt.mp hheader

/-! ## When the frames are accepted -/

section Accepted

variable {cellKeyId : Bytes} {limit : ℕ} {objects : List (ObjectId × Bytes)}
  {fromSlice : Bytes → Option Header}

/-- References are read back as the identifiers of their objects. -/
theorem map_parseRid_refsFrom (off : ℕ) (objects : List (ObjectId × Bytes)) :
    (refsFrom off objects).map (fun r => parseRid r.rid) = objects.map fun o => some o.1 := by
  induction objects generalizing off with
  | nil => rfl
  | cons o objects ih => rw [refsFrom, List.map_cons, List.map_cons, ih, parseRid_idHex]

/-- A frame that is accepted does not repeat a name. -/
theorem nodup_of_decodeFrame (hreads : ReadsHeaders fromSlice) (hkey : isKeyId cellKeyId = true)
    (hlength : (headerOf cellKeyId objects).length ≤ maxHeader)
    {result : Bytes × List (ObjectId × Bytes)}
    (h : decodeFrame fromSlice (frameBytesOf cellKeyId objects) = .ok result) :
    (objects.map Prod.fst).Nodup := by
  rw [decodeFrame_frameBytesOf_eq hreads hkey hlength] at h
  split_ifs at h with hlarge
  cases hobjects : objectsOfFrame (refsFrom 0 objects) (payloadOf objects) with
  | error e =>
    rw [hobjects] at h
    cases h
  | ok os =>
    have hdivides :=
      @objectsOfFrame_eq_ok ⟨frameVersion, cellKeyId, refsFrom 0 objects⟩ _ _ hobjects
    have hsame := (map_parseRid_refsFrom 0 objects).symm.trans hdivides.rids
    have hrids : objects.map Prod.fst = os.map Prod.fst := by
      have hsome : (objects.map Prod.fst).map some = (os.map Prod.fst).map some := by
        rw [List.map_map, List.map_map]
        exact hsame
      exact List.map_injective_iff.mpr (Option.some_injective _) hsome
    rw [hrids]
    exact hdivides.nodup

/-- The objects of a group are among those that are packed. -/
theorem mem_of_mem_frameGroups {g : List (ObjectId × Bytes)}
    (hg : g ∈ frameGroups cellKeyId limit [] objects) {o : ObjectId × Bytes} (ho : o ∈ g) :
    o ∈ objects := by
  have hflat := @flatten_frameGroups cellKeyId limit [] objects
  rw [List.nil_append] at hflat
  rw [← hflat]
  exact List.mem_flatten.mpr ⟨g, hg, ho⟩

/-- A group keeps within the bound on frames if the limit does and each object alone does. -/
theorem length_frame_le (hlimit : limit ≤ maxFrame)
    (hobjects : ∀ o ∈ objects, (frameBytesOf cellKeyId [o]).length ≤ maxFrame)
    {g : List (ObjectId × Bytes)} (hg : g ∈ frameGroups cellKeyId limit [] objects) :
    (frameBytesOf cellKeyId g).length ≤ maxFrame := by
  rcases (grouped_of_mem_frameGroups (Or.inl rfl) hg).small with ⟨o, rfl⟩ | hsmall
  · exact hobjects o (mem_of_mem_frameGroups hg List.mem_cons_self)
  · exact hsmall.trans hlimit

/-- **Packing succeeds and the store accepts every frame, exactly if no group of objects that
share a frame has a header that is too large, or names an object twice.**  The limit is one that
the store accepts, and so is the frame of each object alone.

**Proof sketch.** Packing fails only when a frame is closed with too large a header (`pack_eq`).
A group that is one object is small by assumption, any other by the limit, so a frame is refused
only for a repeated name. -/
theorem pack_accepted_iff (hreads : ReadsHeaders fromSlice) (hkey : isKeyId cellKeyId = true)
    (hlimit : limit ≤ maxFrame)
    (hobjects : ∀ o ∈ objects,
      sealMagic <+: o.2 ∧ (frameBytesOf cellKeyId [o]).length ≤ maxFrame) :
    (∃ frames, pack cellKeyId limit objects = .ok frames ∧
        ∀ frame ∈ frames, ∃ result, decodeFrame fromSlice frame.bytes = .ok result) ↔
      ∀ g ∈ frameGroups cellKeyId limit [] objects,
        (headerOf cellKeyId g).length ≤ maxHeader ∧ (g.map Prod.fst).Nodup := by
  rw [pack_eq, closeGroups]
  constructor
  · rintro ⟨frames, hframes, haccepted⟩ g hg
    split_ifs at hframes with hheaders
    cases hframes
    obtain ⟨result, hresult⟩ := haccepted _ (List.mem_map_of_mem hg)
    exact ⟨hheaders g hg, nodup_of_decodeFrame hreads hkey (hheaders g hg) hresult⟩
  · intro hgroups
    refine ⟨_, if_pos fun g hg => (hgroups g hg).1, fun frame hframe => ?_⟩
    obtain ⟨g, hg, rfl⟩ := List.mem_map.mp hframe
    have hsend : Sendable cellKeyId g :=
      ⟨hkey, (grouped_of_mem_frameGroups (Or.inl rfl) hg).nonempty, (hgroups g hg).1,
        (hgroups g hg).2, fun o ho => (hobjects o (mem_of_mem_frameGroups hg ho)).1⟩
    have hsmall := length_frame_le hlimit (fun o ho => (hobjects o ho).2) hg
    refine ⟨(cellKeyId, g), ?_⟩
    rw [frameOf, decodeFrame_frameBytesOf hreads hsend, if_neg (not_lt.mpr hsmall)]

/-- The length of the header is kept up to date while objects are packed. -/
theorem headerLen_of_foldlM {st : Pending × List Frame}
    (h : objects.foldlM (packObject cellKeyId limit) (Pending.new cellKeyId limit, []) = .ok st) :
    st.1.headerLen = (Header.toVec ⟨frameVersion, cellKeyId, st.1.refs⟩).length := by
  obtain ⟨groups, current, -, hpending, -⟩ := (packed_of_foldlM h).split
  rw [hpending]
  rfl

/-- **Frames are split into what was packed, exactly if none of them is too large.**  In any case
a frame of more than one object keeps within the limit, the length of the header is kept up to
date, and whatever splitting accepts is divided by its header. -/
theorem frames_roundTrip_iff (hreads : ReadsHeaders fromSlice) (hkey : isKeyId cellKeyId = true)
    {frames : List Frame} (hpack : pack cellKeyId limit objects = .ok frames)
    (hnodup : (objects.map Prod.fst).Nodup) (hsealed : ∀ o ∈ objects, sealMagic <+: o.2) :
    ((∃ decoded, (frames.mapM fun frame => decodeFrame fromSlice frame.bytes) = .ok decoded ∧
          decoded.flatMap Prod.snd = objects) ↔
        ∀ g ∈ frameGroups cellKeyId limit [] objects,
          (frameBytesOf cellKeyId g).length ≤ maxFrame) ∧
      (∀ frame ∈ frames, 1 < frame.rids.length → frame.bytes.length ≤ limit) ∧
      (∀ consumed st, consumed <+: objects →
        consumed.foldlM (packObject cellKeyId limit) (Pending.new cellKeyId limit, []) = .ok st →
          st.1.headerLen = (Header.toVec ⟨frameVersion, cellKeyId, st.1.refs⟩).length) ∧
      ∀ bytes keyId os, decodeFrame fromSlice bytes = .ok (keyId, os) →
        ∃ length text payload header, bytes = frameMagic ++ length ++ text ++ payload ∧
          LittleEndian.value length = text.length ∧ fromSlice text = some header ∧
          Divides header payload os := by
  rw [pack_eq, closeGroups] at hpack
  split_ifs at hpack with hheaders
  cases hpack
  have hflat := @flatten_frameGroups cellKeyId limit [] objects
  rw [List.nil_append] at hflat
  have hsend : ∀ g ∈ frameGroups cellKeyId limit [] objects, Sendable cellKeyId g := by
    intro g hg
    have hsub : g <:+: objects := hflat ▸ List.infix_of_mem_flatten hg
    exact ⟨hkey, (grouped_of_mem_frameGroups (Or.inl rfl) hg).nonempty, hheaders g hg,
      (hsub.map Prod.fst).sublist.nodup hnodup, fun o ho => hsealed o (hsub.subset ho)⟩
  have hbytes : ((frameGroups cellKeyId limit [] objects).map (frameOf cellKeyId)).map
      Frame.bytes = (frameGroups cellKeyId limit [] objects).map (frameBytesOf cellKeyId) := by
    rw [List.map_map]
    rfl
  obtain ⟨hsplit, hsmall⟩ := mapM_decodeFrame hreads hbytes hsend
  refine ⟨⟨?_, ?_⟩, ?_, ?_, ?_⟩
  · rintro ⟨decoded, hdecoded, -⟩
    exact hsmall ⟨decoded, hdecoded⟩
  · intro hall
    refine ⟨_, hsplit hall, ?_⟩
    rw [List.flatMap_map, List.flatMap_id']
    exact hflat
  · intro frame hframe hmany
    obtain ⟨g, hg, rfl⟩ := List.mem_map.mp hframe
    rcases (grouped_of_mem_frameGroups (Or.inl rfl) hg).small with ⟨o, rfl⟩ | hlen
    · exact absurd hmany (by simp [frameOf])
    · exact hlen
  · intro consumed st _ hrun
    exact headerLen_of_foldlM hrun
  · intro bytes keyId os hdecode
    obtain ⟨-, length, text, payload, header, hform, -, hvalue, -, hread, -, hdivides⟩ :=
      divides_of_decodeFrame hdecode
    exact ⟨length, text, payload, header, hform, hvalue, hread, hdivides⟩

end Accepted

/-! ## Two sealed objects -/

/-- A key identifier. -/
def packingKey : Bytes := List.replicate 32 48

/-- The key of the samples is one. -/
theorem isKeyId_packingKey : isKeyId packingKey = true := by decide

/-- Two sealed objects. -/
def twoObjects : List (ObjectId × Bytes) :=
  [(.fill 1, sealMagic ++ [7]), (.fill 2, sealMagic ++ [8, 9])]

/-- Either object fits into a frame. -/
theorem length_single_twoObjects {o : ObjectId × Bytes} (ho : o ∈ twoObjects) :
    (frameBytesOf packingKey [o]).length ≤ maxFrame := by
  have hheader := length_headerOf_single isKeyId_packingKey o
  have hpayload : (payloadOf [o]).length ≤ 7 := by
    simp only [twoObjects, List.mem_cons, List.not_mem_nil, or_false] at ho
    rcases ho with rfl | rfl <;> decide
  rw [length_frameBytesOf]
  unfold maxHeader at hheader
  unfold maxFrame
  omega

/-- Both objects are sealed. -/
theorem sealed_twoObjects {o : ObjectId × Bytes} (ho : o ∈ twoObjects) : sealMagic <+: o.2 := by
  simp only [twoObjects, List.mem_cons, List.not_mem_nil, or_false] at ho
  rcases ho with rfl | rfl <;> exact List.prefix_append _ _

/-- With a limit of no bytes each object has its own frame. -/
theorem frameGroups_twoObjects : frameGroups packingKey 0 [] twoObjects =
    [[(.fill 1, sealMagic ++ [7])], [(.fill 2, sealMagic ++ [8, 9])]] := by
  have hlarge : ¬ (frameBytesOf packingKey
      ([(.fill 1, sealMagic ++ [7])] ++ [(.fill 2, sealMagic ++ [8, 9])])).length ≤ 0 := by
    rw [length_frameBytesOf]
    omega
  unfold twoObjects
  simp only [frameGroups, List.nil_append, true_or, if_true, reduceCtorEq, false_or, hlarge,
    if_false]

/-- Two objects are packed into two frames that are accepted. -/
theorem pack_accepted_twoObjects :
    ∃ frames, pack packingKey 0 twoObjects = .ok frames ∧
      ∀ frame ∈ frames, ∃ result, decodeFrame readHeader frame.bytes = .ok result := by
  refine (pack_accepted_iff readHeader_reads isKeyId_packingKey (Nat.zero_le _)
    fun o ho => ⟨sealed_twoObjects ho, length_single_twoObjects ho⟩).mpr ?_
  rw [frameGroups_twoObjects]
  intro g hg
  simp only [List.mem_cons, List.not_mem_nil, or_false] at hg
  rcases hg with rfl | rfl
  · exact ⟨length_headerOf_single isKeyId_packingKey _, List.nodup_singleton _⟩
  · exact ⟨length_headerOf_single isKeyId_packingKey _, List.nodup_singleton _⟩

/-- Two objects are packed and split again. -/
theorem frames_roundTrip_twoObjects :
    ∃ frames, pack packingKey 0 twoObjects = .ok frames ∧
      ∃ decoded, (frames.mapM fun frame => decodeFrame readHeader frame.bytes) = .ok decoded ∧
        decoded.flatMap Prod.snd = twoObjects := by
  have hpack : pack packingKey 0 twoObjects =
      .ok ((frameGroups packingKey 0 [] twoObjects).map (frameOf packingKey)) := by
    rw [pack_eq, closeGroups, if_pos]
    rw [frameGroups_twoObjects]
    intro g hg
    simp only [List.mem_cons, List.not_mem_nil, or_false] at hg
    rcases hg with rfl | rfl <;> exact length_headerOf_single isKeyId_packingKey _
  refine ⟨_, hpack, (frames_roundTrip_iff readHeader_reads isKeyId_packingKey hpack (by decide)
    fun o ho => sealed_twoObjects ho).1.mpr ?_⟩
  intro g hg
  exact length_frame_le (Nat.zero_le _) (fun o ho => length_single_twoObjects ho) hg

/-! ## A frame that is too large -/

/-- A frame of an object that is too large is not split. -/
theorem decodeFrame_large {cellKeyId : Bytes} {o : ObjectId × Bytes}
    (h : maxFrame ≤ o.2.length) (fromSlice : Bytes → Option Header) :
    decodeFrame fromSlice (frameBytesOf cellKeyId [o]) = .error .tooLarge := by
  have hpayload := length_le_payloadOf (List.mem_singleton_self o)
  have hlarge : maxFrame < (frameBytesOf cellKeyId [o]).length := by
    rw [length_frameBytesOf]
    omega
  unfold decodeFrame
  rw [if_pos hlarge]

/-- What a sealed object of more than 16 MiB encrypts. -/
@[irreducible] def largePayload : Bytes := List.replicate maxFrame 0

/-- The payload has 16 MiB. -/
theorem length_largePayload : largePayload.length = maxFrame := by
  rw [largePayload, List.length_replicate]

/-- A sealed object of more than 16 MiB. -/
def largeObject : ObjectId × Bytes := (.fill 1, sealMagic ++ largePayload)

/-- The object does not fit into a frame. -/
theorem length_largeObject : maxFrame ≤ largeObject.2.length := by
  have hlen : largeObject.2.length = sealMagic.length + largePayload.length :=
    List.length_append
  rw [length_largePayload] at hlen
  omega

/-- **A sealed object that is too large for any frame** gets a frame of its own, which is not
split again. -/
theorem frames_roundTrip_fails :
    sealMagic <+: largeObject.2 ∧
      ∃ frames, pack packingKey 8388608 [largeObject] = .ok frames ∧
        ∀ fromSlice, (frames.mapM fun frame => decodeFrame fromSlice frame.bytes) =
          .error .tooLarge := by
  refine ⟨List.prefix_append sealMagic largePayload, _,
    pack_single isKeyId_packingKey largeObject, fun fromSlice => ?_⟩
  rw [List.mapM_cons, decodeFrame_large length_largeObject]
  rfl

/-! ## A header that is too large -/

/-- Objects that fit into one frame share it. -/
theorem frameGroups_eq_single {cellKeyId : Bytes} {limit : ℕ}
    {current objects : List (ObjectId × Bytes)} (hne : current ++ objects ≠ [])
    (h : ∀ g, g <+: current ++ objects → (frameBytesOf cellKeyId g).length ≤ limit) :
    frameGroups cellKeyId limit current objects = [current ++ objects] := by
  induction objects generalizing current with
  | nil =>
    rw [List.append_nil] at hne ⊢
    rw [frameGroups, if_neg hne]
  | cons o rest ih =>
    have happend : current ++ o :: rest = (current ++ [o]) ++ rest := by simp
    rw [happend] at hne h ⊢
    rw [frameGroups, if_pos (Or.inr (h _ (List.prefix_append _ _))), ih hne h]

/-- A number has a digit. -/
theorem length_decimal_pos (n : ℕ) : 0 < (decimal n).length := by
  have hle := length_decimal_le (Nat.zero_le n)
  have hzero : (decimal 0).length = 1 := rfl
  omega

/-- The text of a reference is its name and two numbers. -/
theorem length_toVec_ref (id : ObjectId) (off len : ℕ) :
    (ObjectRef.toVec ⟨idHex id, off, len⟩).length =
      88 + (decimal off).length + (decimal len).length := by
  have hr : (text "\x7b\"rid\":\"").length = 8 := by decide
  have hf : (text "\",\"off\":").length = 8 := by decide
  have hl : (text ",\"len\":").length = 7 := by decide
  have hd : (text "\x7d").length = 1 := by decide
  unfold ObjectRef.toVec
  simp only [List.length_append, length_idHex, hr, hf, hl, hd]
  omega

/-- The text of the references of objects of one length, as long as the numbers are small. -/
theorem length_refs_bounds {objects : List (ObjectId × Bytes)} {off c : ℕ}
    (hlen : ∀ o ∈ objects, o.2.length = c) (hc : c ≤ 9999999)
    (hoff : off + c * objects.length ≤ 9999999) :
    90 * objects.length ≤
        (commaSeparated ((refsFrom off objects).map ObjectRef.toVec)).length ∧
      (commaSeparated ((refsFrom off objects).map ObjectRef.toVec)).length ≤
        103 * objects.length := by
  have hseven : (decimal 9999999).length = 7 := by norm_num [decimal]
  have hcomma : (text ",").length = 1 := by decide
  induction objects generalizing off with
  | nil => exact ⟨Nat.zero_le _, Nat.zero_le _⟩
  | cons o rest ih =>
    have hfirst : o.2.length = c := hlen o List.mem_cons_self
    rw [List.length_cons, Nat.mul_add, Nat.mul_one] at hoff
    have hrest := ih (fun d hd => hlen d (List.mem_cons_of_mem _ hd))
      (show off + o.2.length + c * rest.length ≤ 9999999 by omega)
    have hmod : o.2.length % 2 ^ 32 = c := by
      rw [hfirst]
      exact Nat.mod_eq_of_lt (lt_of_le_of_lt hc (by decide))
    have hone := length_toVec_ref o.1 off (o.2.length % 2 ^ 32)
    rw [hmod] at hone
    have hoff₁ := length_decimal_pos off
    have hoff₂ := length_decimal_le (show off ≤ 9999999 by omega)
    have hlen₁ := length_decimal_pos c
    have hlen₂ := length_decimal_le hc
    rw [refsFrom, List.map_cons, List.length_cons]
    cases hmap : (refsFrom (off + o.2.length) rest).map ObjectRef.toVec with
    | nil =>
      rw [hmap] at hrest
      simp only [commaSeparated, List.length_nil] at hrest ⊢
      rw [hmod]
      omega
    | cons a l =>
      rw [hmap] at hrest
      simp only [commaSeparated, List.length_append, hmod] at hrest ⊢
      omega

/-- The name of the object with a number. -/
def numberedId (i : ℕ) : ObjectId := ⟨LittleEndian.bytes 32 i, LittleEndian.length_bytes 32 i⟩

/-- Small sealed objects, a hundred bytes each. -/
def smallObjects (n : ℕ) : List (ObjectId × Bytes) :=
  (List.range n).map fun i => (numberedId i, sealMagic ++ List.replicate 95 0)

/-- Numbers below 256^32 have identifiers of their own. -/
theorem numberedId_inj {i j : ℕ} (hi : i < 256 ^ 32) (hj : j < 256 ^ 32)
    (h : numberedId i = numberedId j) : i = j := by
  have hbytes : LittleEndian.bytes 32 i = LittleEndian.bytes 32 j :=
    congrArg ObjectId.bytes h
  have hvalue := congrArg LittleEndian.value hbytes
  rwa [LittleEndian.value_bytes, LittleEndian.value_bytes, Nat.mod_eq_of_lt hi,
    Nat.mod_eq_of_lt hj] at hvalue

/-- The small objects are all different. -/
theorem nodup_smallObjects {n : ℕ} (hn : n ≤ 256 ^ 32) :
    ((smallObjects n).map Prod.fst).Nodup := by
  unfold smallObjects
  rw [List.map_map]
  refine List.Nodup.map_on (fun i hi j hj hij => ?_) List.nodup_range
  rw [List.mem_range] at hi hj
  exact numberedId_inj (lt_of_lt_of_le hi hn) (lt_of_lt_of_le hj hn) hij

/-- Each small object has 100 bytes. -/
theorem length_smallObjects {n : ℕ} {o : ObjectId × Bytes} (ho : o ∈ smallObjects n) :
    o.2.length = 100 := by
  obtain ⟨i, -, rfl⟩ := List.mem_map.mp ho
  rw [List.length_append, List.length_replicate]
  rfl

/-- The header and the frame of small objects. -/
theorem length_frame_small {objects : List (ObjectId × Bytes)} (hn : objects.length ≤ 99999)
    (hlen : ∀ o ∈ objects, o.2.length = 100) :
    90 * objects.length ≤ (headerOf packingKey objects).length ∧
      (frameBytesOf packingKey objects).length ≤ 78 + 203 * objects.length := by
  obtain ⟨hlow, hhigh⟩ := @length_refs_bounds objects 0 100 hlen (by decide) (by omega)
  have hpayload : (payloadOf objects).length = 100 * objects.length := by
    rw [payloadOf, List.length_flatMap, List.map_congr_left hlen, List.map_const',
      List.sum_replicate_nat, Nat.mul_comm]
  have hv : (text "\x7b\"V\":").length = 5 := by decide
  have hc : (text ",\"cell_key_id\":\"").length = 16 := by decide
  have ho : (text "\",\"objects\":[").length = 13 := by decide
  have he : (text "]\x7d").length = 2 := by decide
  have hone : (decimal 1).length = 1 := by norm_num [decimal]
  have hkey : packingKey.length = 32 := by decide
  rw [length_frameBytesOf, hpayload]
  unfold headerOf Header.toVec
  simp only [List.length_append, hv, hc, ho, he, hkey, frameVersion, hone]
  omega

/-- The small objects are sealed. -/
theorem sealed_smallObjects {n : ℕ} {o : ObjectId × Bytes} (ho : o ∈ smallObjects n) :
    sealMagic <+: o.2 := by
  obtain ⟨i, -, rfl⟩ := List.mem_map.mp ho
  exact List.prefix_append _ _

/-- Each small object fits into a frame. -/
theorem length_single_smallObjects {n : ℕ} {o : ObjectId × Bytes} (ho : o ∈ smallObjects n) :
    (frameBytesOf packingKey [o]).length ≤ maxFrame := by
  have hlen : ∀ d ∈ [o], d.2.length = 100 := by
    intro d hd
    rw [List.mem_singleton.mp hd]
    exact length_smallObjects ho
  have hone := (length_frame_small (by rw [List.length_singleton]; decide) hlen).2
  rw [List.length_singleton] at hone
  unfold maxFrame
  omega

/-- Many small objects share one frame, and then its header is too large. -/
theorem pack_smallObjects {n : ℕ} (hmany : 12000 ≤ n) (hfew : n ≤ 40000) :
    pack packingKey 8388608 (smallObjects n) = .error .headerTooLarge := by
  have hcount : (smallObjects n).length = n := by
    rw [smallObjects, List.length_map, List.length_range]
  have hall : ∀ o ∈ smallObjects n, o.2.length = 100 := fun o => length_smallObjects
  have hgroups : frameGroups packingKey 8388608 [] (smallObjects n) = [[] ++ smallObjects n] := by
    refine frameGroups_eq_single ?_ fun g hg => ?_
    · rw [List.nil_append, ← List.length_pos_iff, hcount]
      omega
    · rw [List.nil_append] at hg
      have hlen := hg.length_le
      have hsmall := (length_frame_small (by omega) fun o ho => hall o (hg.subset ho)).2
      omega
  rw [pack_eq, hgroups, List.nil_append]
  refine closeGroups_cons_error ?_ []
  have hheader := (length_frame_small (by omega) hall).1
  unfold maxHeader
  omega

/-- **Twelve thousand small objects** are well within the default limit together, and each fits
alone, but the frame that they share is closed with a header that is too large. -/
theorem pack_smallObjects_fails :
    (∀ o ∈ smallObjects 12000,
        sealMagic <+: o.2 ∧ (frameBytesOf packingKey [o]).length ≤ maxFrame) ∧
      ((smallObjects 12000).map Prod.fst).Nodup ∧
      pack packingKey 8388608 (smallObjects 12000) = .error .headerTooLarge :=
  ⟨fun _ ho => ⟨sealed_smallObjects ho, length_single_smallObjects ho⟩,
    nodup_smallObjects (by norm_num), pack_smallObjects (le_refl 12000) (by norm_num)⟩

end Furrow
