import Furrow.Lib.Fallible
import Furrow.Refs.Append

set_option relaxedAutoImplicit false
set_option autoImplicit false

/-!
# What the index can do to an answer

The readers of `refs.rs` look records up through the index.  Most of what may be wrong with an
index is found out and leads to a rebuild.  Two things do not: a last record that points into the
middle of a frame makes every reader fail, since the error of reading there is passed on; and a
record before the last one is not compared with anything until its sequence is asked for, and then
makes that reader fail.

## Main definitions

* `Furrow.RefLog.Answers` — the readers return what a scan returns.
* `Furrow.RefLog.Readable` — what an index must be for that.

## Main results

* `Furrow.RefLog.readRecentIndexed_sound` — a chain of hashes that ends in the last frame is the end
  of the log.
* `Furrow.answers_iff_readable` — the readers return what a scan returns exactly if the index is
  readable.
-/

namespace Furrow

namespace RefLog

/-- **The readers return what a scan of the log returns.** -/
def Answers (c : RefCodec) (s : RefFiles) (ds : List DecodedRecord) : Prop :=
  ∀ truncated,
    (∀ limit, (recent c truncated limit s).1 =
      .ok ((ds.map DecodedRecord.record).reverse.take limit)) ∧
    (head c truncated s).1 = .ok (ds.getLast?.map DecodedRecord.record) ∧
    ∀ sequences : List ℕ, (∀ q ∈ sequences, 1 ≤ q ∧ q ≤ ds.length) →
      (recordsAtSequences c truncated sequences s).1 =
        .ok (sequences.filterMap fun q => ds[q - 1]?.map DecodedRecord.record)

/-- **An index that changes no answer.**  A frame can be read, or none is there, where its last
record points to; and if that record agrees with the frame there, and with the file if the frame
is the end of it, then the records before it are intact and name the frames of their sequences, and
so does the last one, if the log is not shorter than the index. -/
structure Readable (c : RefCodec) (s : RefFiles) (ds : List DecodedRecord) : Prop where
  last : ∀ last, candidate c s = some last → ∀ e, readFrameAt c s.bytes last.start ≠ .error e
  kept : ∀ b last frame, s.index = some b → candidate c s = some last →
    readFrameAt c s.bytes last.start = .ok (some frame) → frame.stop = last.stop →
    frame.frameHash = last.frameHash → (s.bytes.length = last.stop → last.stat = s.stat) →
      (∀ i d, i + 1 < indexCount b → ds[i]? = some d →
        ∃ r, (indexEntries c b)[i]? = some (.ok r) ∧ r.Names d) ∧
      (indexCount b ≤ ds.length → frame.record.sequence = indexCount b)

variable {c : RefCodec} {s : RefFiles} {ds : List DecodedRecord} {len : ℕ} {torn : Bool}

/-! ## Frames and their hashes -/

/-- What is read in a file is read in a longer one. -/
theorem readFrameAt_of_take {file : Bytes} {n start : ℕ} {d : DecodedRecord}
    (h : readFrameAt c (file.take n) start = .ok (some d)) :
    readFrameAt c file start = .ok (some d) := by
  have hdrop : (file.take n).drop start ++ file.drop (max n start) = file.drop start := by
    rcases Nat.le_total n start with hle | hle
    · rw [max_eq_right hle, List.drop_eq_nil_of_le, List.nil_append]
      rw [List.length_take]
      omega
    · rw [max_eq_left hle, List.drop_take]
      have hsplit := List.take_append_drop (n - start) (file.drop start)
      rw [List.drop_drop, Nat.add_sub_cancel' hle] at hsplit
      exact hsplit
  unfold readFrameAt at h ⊢
  split at h
  · rename_i record hash len t hread
    rw [← hdrop, (stable_readFrame c start).ok hread]
    exact h
  · exact absurd h (by simp)
  · exact absurd h (by simp)

/-- The frames of a scan are chained. -/
theorem chained_of_scan {file : Bytes} {offset sequence : ℕ} {previous : ObjectId}
    (h : Scan c file offset previous sequence ds len torn) : chained previous ds = true := by
  induction h with
  | done h => rfl
  | torn hlt h => rfl
  | frame hlt h hprevious hsequence hrest ih =>
    unfold chained
    rw [ih, Bool.and_true, decide_eq_true_eq]
    exact hprevious

/-- The frame before a frame of a scan. -/
theorem previous_of_scan {file : Bytes} {offset sequence : ℕ} {previous : ObjectId}
    {before after : List DecodedRecord} {d : DecodedRecord}
    (h : Scan c file offset previous sequence (before ++ d :: after) len torn) :
    d.record.previousFrame = (before.getLast?.map DecodedRecord.frameHash).getD previous := by
  cases before using List.reverseRecOn with
  | nil => exact h.head_previous.1
  | append_singleton before x =>
    rw [List.append_assoc] at h
    rw [List.getLast?_concat]
    exact h.after.2.2.head_previous.1

/-- **A chain of frames of the log that ends in the last one is the end of the log.** -/
theorem suffix_of_chained (hscan : Scan c s.bytes 0 zeroId 1 ds len torn)
    (hdistinct : (zeroId :: ds.map DecodedRecord.frameHash).Nodup) {expected : ObjectId}
    {l : List DecodedRecord} (hne : l ≠ []) (hmem : ∀ d ∈ l, d ∈ ds)
    (hlast : l.getLast? = ds.getLast?) (hchain : chained expected l = true) : l <:+ ds := by
  obtain ⟨hzero, hnodup⟩ := List.nodup_cons.mp hdistinct
  induction l generalizing expected with
  | nil => exact absurd rfl hne
  | cons g l ih =>
    cases l with
    | nil =>
      have hg : ds.getLast? = some g := by rw [← hlast]; rfl
      exact ⟨ds.dropLast, (dropLast_append_of_getLast? hg).symm⟩
    | cons h t =>
      unfold chained at hchain
      rw [Bool.and_eq_true] at hchain
      obtain ⟨before, hds⟩ := ih (by simp) (fun d hd => hmem d (List.mem_cons_of_mem _ hd))
        (by rw [← hlast, List.getLast?_cons_cons]) hchain.2
      have hprevious : h.record.previousFrame = g.frameHash := by
        have htail := hchain.2
        unfold chained at htail
        rw [Bool.and_eq_true, decide_eq_true_eq] at htail
        exact htail.1
      have hg : g ∈ ds := hmem g List.mem_cons_self
      rw [← hds] at hscan
      have hbefore := previous_of_scan hscan
      cases before using List.reverseRecOn with
      | nil =>
        -- the first frame has none before it
        have hzero' : g.frameHash = zeroId := by
          rw [← hprevious, hbefore]
          rfl
        exact absurd (List.mem_map.mpr ⟨g, hg, hzero'⟩) hzero
      | append_singleton before x =>
        rw [List.getLast?_concat] at hbefore
        have hx : x ∈ ds := by
          rw [← hds]
          simp
        have heq : x = g := by
          apply List.inj_on_of_nodup_map hnodup hx hg
          rw [← hprevious, hbefore]
          rfl
        refine ⟨before, ?_⟩
        rw [← heq, ← hds]
        simp

/-! ## The newest records -/

/-- If all succeed, each one does. -/
theorem eq_map_ok_of_mapM {α ε : Type} {l : List (Except ε α)} {l' : List α}
    (h : l.mapM id = .ok l') : l = l'.map .ok := by
  induction Fallible.mapM_eq_ok_iff.mp h with
  | nil => rfl
  | cons ha hrest ih => exact congrArg₂ List.cons ha (ih (Fallible.mapM_eq_ok_iff.mpr hrest))

/-- An index record leads to a frame if it names the one that is read there. -/
theorem indexedFrame_eq_ok_iff {log : Bytes} {e : IndexRecord} {d : DecodedRecord} :
    indexedFrame c log e = .ok d ↔ readFrameAt c log e.start = .ok (some d) ∧ e.Names d := by
  unfold indexedFrame
  cases hread : readFrameAt c log e.start with
  | error err => simp [bind, Except.bind]
  | ok found =>
    cases found with
    | none =>
      simp only [bind, Except.bind]
      constructor
      · intro h
        exact absurd h (by simp)
      · rintro ⟨h, -⟩
        exact absurd h (by simp)
    | some frame =>
      obtain ⟨hstart, -⟩ := readFrameAt_eq_some c hread
      simp only [bind, Except.bind]
      split_ifs with hagree
      · constructor
        · intro h
          cases h
          exact ⟨rfl, hstart.symm, hagree.1.symm, hagree.2.symm⟩
        · rintro ⟨h, -⟩
          cases h
          rfl
      · constructor
        · intro h
          exact absurd h (by simp)
        · rintro ⟨h, hnames⟩
          cases h
          exact absurd ⟨hnames.2.1.symm, hnames.2.2.symm⟩ hagree

/-- The frames after any number of them are chained to the last of these. -/
theorem chained_drop (hscan : Scan c s.bytes 0 zeroId 1 ds len torn) (m : ℕ) :
    chained (((ds.take m).getLast?.map DecodedRecord.frameHash).getD zeroId) (ds.drop m) =
      true := by
  rw [← List.take_append_drop m ds] at hscan
  cases hdrop : ds.drop m with
  | nil => rfl
  | cons d after =>
    rw [hdrop] at hscan
    unfold chained
    rw [Bool.and_eq_true, decide_eq_true_eq]
    exact ⟨previous_of_scan hscan, chained_of_scan hscan.after.2.2⟩

/-- The newest records are the end of the log, the last one first. -/
theorem newest_eq (limit : ℕ) :
    (ds.drop (ds.length - limit)).reverse.map DecodedRecord.record =
      (ds.map DecodedRecord.record).reverse.take limit := by
  rw [List.take_reverse, List.length_map, ← List.map_drop, List.map_reverse]

/-- The frames of records that name them. -/
theorem forall₂_indexedFrame (hscan : Scan c s.bytes 0 zeroId 1 ds len torn)
    {rs : List IndexRecord} {ds' : List DecodedRecord}
    (h : List.Forall₂ IndexRecord.Names rs ds') (hmem : ∀ d ∈ ds', d ∈ ds) :
    List.Forall₂ (fun e d => indexedFrame c s.bytes e = .ok d) rs ds' := by
  induction h with
  | nil => exact .nil
  | cons hname hrest ih =>
    refine .cons ?_ (ih fun d hd => hmem d (List.mem_cons_of_mem _ hd))
    rw [indexedFrame_eq_ok_iff, hname.1]
    exact ⟨hscan.readFrameAt_of_mem (hmem _ List.mem_cons_self), hname⟩

/-- What is read through the last records of the index. -/
theorem readRecentIndexed_eq_ok_iff {limit : ℕ} {es : List IndexRecord} {found : List LogRecord}
    (hes : readIndexTail c s.index (limit + 1) = .ok es) :
    readRecentIndexed c s limit = .ok found ↔ ∃ decoded,
      List.Forall₂ (fun e d => indexedFrame c s.bytes e = .ok d)
        (if limit < es.length then es.drop 1 else es) decoded ∧
      chained (if limit < es.length then (es.head?.map IndexRecord.frameHash).getD zeroId
        else zeroId) decoded = true ∧
      found = decoded.reverse.map DecodedRecord.record := by
  unfold readRecentIndexed
  rw [hes]
  simp only [bind, Except.bind]
  have hskip : (es.drop (if limit < es.length then 1 else 0)) =
      if limit < es.length then es.drop 1 else es := by
    split_ifs <;> simp
  have hexpected : (if (if limit < es.length then 1 else 0) = 1 then
      (es.head?.map IndexRecord.frameHash).getD zeroId else zeroId) =
      if limit < es.length then (es.head?.map IndexRecord.frameHash).getD zeroId else zeroId := by
    by_cases hlt : limit < es.length <;> simp [hlt]
  rw [hskip, hexpected]
  generalize (if limit < es.length then (es.head?.map IndexRecord.frameHash).getD zeroId
    else zeroId) = expected
  cases hdecoded : (if limit < es.length then es.drop 1 else es).mapM (indexedFrame c s.bytes) with
  | error e =>
    constructor
    · intro h
      exact absurd h (by simp)
    · rintro ⟨decoded, hall, -⟩
      rw [Fallible.mapM_eq_ok_iff.mpr hall] at hdecoded
      exact absurd hdecoded (by simp)
  | ok decoded =>
    have hall := Fallible.mapM_eq_ok_iff.mp hdecoded
    constructor
    · intro h
      simp only at h
      by_cases hchain : chained expected decoded = true
      · rw [if_pos hchain] at h
        exact ⟨decoded, hall, hchain, (Except.ok.inj h).symm⟩
      · rw [if_neg hchain] at h
        exact absurd h (by simp)
    · rintro ⟨decoded', hall', hchain, rfl⟩
      have heq : decoded' = decoded := by
        have := Fallible.mapM_eq_ok_iff.mpr hall'
        rw [hdecoded] at this
        exact (Except.ok.inj this).symm
      subst heq
      simp only
      rw [if_pos hchain]
      rfl

/-- **With an index of all frames the newest records are found.** -/
theorem readRecentIndexed_of_indexOf (hscan : Scan c s.bytes 0 zeroId 1 ds len torn) {b : Bytes}
    (hindex : s.index = some b) (hof : IndexOf c ds b) (limit : ℕ) :
    readRecentIndexed c s limit = .ok ((ds.map DecodedRecord.record).reverse.take limit) := by
  obtain ⟨rs, hrs, hnames⟩ := hof.entries
  have hlen : rs.length = ds.length := hnames.length_eq
  have hes : readIndexTail c s.index (limit + 1) =
      .ok (rs.drop (ds.length - min ds.length (limit + 1))) := by
    rw [hindex, readIndexTail_of_entries hrs, hlen]
  have hall := forall₂_indexedFrame hscan hnames fun d hd => hd
  rw [readRecentIndexed_eq_ok_iff hes]
  refine ⟨ds.drop (ds.length - limit), ?_, ?_, (newest_eq limit).symm⟩
  · by_cases hlt : limit < ds.length
    · rw [if_pos (by rw [List.length_drop, hlen]; omega), List.drop_drop]
      have hdrop : ds.length - min ds.length (limit + 1) + 1 = ds.length - limit := by omega
      rw [hdrop]
      exact List.forall₂_drop _ hall
    · rw [if_neg (by rw [List.length_drop, hlen]; omega)]
      have hdrop : ds.length - min ds.length (limit + 1) = ds.length - limit := by omega
      rw [hdrop]
      exact List.forall₂_drop _ hall
  · have hchain := chained_drop hscan (ds.length - limit)
    have hexpected : (if limit < (rs.drop (ds.length - min ds.length (limit + 1))).length then
        ((rs.drop (ds.length - min ds.length (limit + 1))).head?.map IndexRecord.frameHash).getD
          zeroId else zeroId) =
        ((ds.take (ds.length - limit)).getLast?.map DecodedRecord.frameHash).getD zeroId := by
      by_cases hlt : limit < ds.length
      · rw [if_pos (by rw [List.length_drop, hlen]; omega), List.head?_drop, List.getLast?_take,
          if_neg (by omega)]
        have hi : ds.length - min ds.length (limit + 1) = ds.length - limit - 1 := by omega
        have hi' : ds.length - limit - 1 < ds.length := by omega
        rw [hi, List.getElem?_eq_getElem hi', List.getElem?_eq_getElem (by omega)]
        have hname := hnames.get (i := ds.length - limit - 1) (by omega) hi'
        simp only [Option.map_some, Option.getD_some]
        exact hname.2.2
      · rw [if_neg (by rw [List.length_drop, hlen]; omega)]
        have hzero : ds.length - limit = 0 := by omega
        rw [hzero]
        rfl
    rw [hexpected]
    exact hchain

/-- **A chain of hashes that ends in the last frame gives the newest records**, whatever the rest
of the index is. -/
theorem readRecentIndexed_sound (hscan : Scan c s.bytes 0 zeroId 1 ds len torn)
    (hboundary : ∀ start d, readFrameAt c s.bytes start = .ok (some d) → d ∈ ds)
    (hdistinct : (zeroId :: ds.map DecodedRecord.frameHash).Nodup) {b : Bytes}
    (hindex : s.index = some b) {r : IndexRecord} {dlast : DecodedRecord}
    (hr : (indexEntries c b).getLast? = some (.ok r)) (hname : r.Names dlast)
    (hlast : ds.getLast? = some dlast) {limit : ℕ} (hlimit : limit ≠ 0) {found : List LogRecord}
    (h : readRecentIndexed c s limit = .ok found) :
    found = (ds.map DecodedRecord.record).reverse.take limit := by
  cases hes : readIndexTail c s.index (limit + 1) with
  | error e =>
    unfold readRecentIndexed at h
    rw [hes] at h
    exact absurd h (by simp [bind, Except.bind])
  | ok es =>
    obtain ⟨decoded, hall, hchain, rfl⟩ := (readRecentIndexed_eq_ok_iff hes).mp h
    -- the last records of the index are intact
    have hentries : (indexEntries c b).drop (indexCount b - min (indexCount b) (limit + 1)) =
        es.map .ok := by
      rw [hindex] at hes
      exact eq_map_ok_of_mapM hes
    have hcount : 0 < indexCount b := by
      rw [← length_indexEntries c b]
      exact List.length_pos_of_ne_nil (by rintro hnil; rw [hnil] at hr; exact absurd hr (by simp))
    have hlength : es.length = min (indexCount b) (limit + 1) := by
      have := congrArg List.length hentries
      rw [List.length_drop, List.length_map, length_indexEntries] at this
      omega
    have hesLast : es.getLast? = some r := by
      have := congrArg List.getLast? hentries
      rw [List.getLast?_drop, length_indexEntries, if_neg (by omega), hr, List.getLast?_map,
        eq_comm, Option.map_eq_some_iff] at this
      obtain ⟨r', hr', heq⟩ := this
      cases heq
      exact hr'
    -- so the frames that are read are the end of the log
    have hlimit' : (if limit < es.length then es.drop 1 else es).getLast? = some r := by
      split_ifs with hlt
      · rw [List.getLast?_drop, if_neg (by omega), hesLast]
      · exact hesLast
    obtain ⟨d, hd, hdread⟩ := Fallible.forall₂_getLast hall hlimit'
    have hdlast : d = dlast := by
      rw [indexedFrame_eq_ok_iff, hname.1,
        hscan.readFrameAt_of_mem (List.mem_of_getLast? hlast)] at hdread
      exact (Option.some.inj (Except.ok.inj hdread.1)).symm
    have hmem : ∀ d ∈ decoded, d ∈ ds := by
      intro d hd
      obtain ⟨e, -, he⟩ := Fallible.exists_left_of_forall₂ hall hd
      exact hboundary _ d (indexedFrame_eq_ok_iff.mp he).1
    have hne : decoded ≠ [] := by
      rintro rfl
      exact absurd hd (by simp)
    have hsuffix := suffix_of_chained hscan hdistinct hne hmem (by rw [hd, hdlast, hlast]) hchain
    have hdecoded := List.suffix_iff_eq_drop.mp hsuffix
    have hlen := hall.length_eq
    by_cases hlt : limit < es.length
    · rw [if_pos hlt, List.length_drop] at hlen
      have hlen' : decoded.length = limit := by omega
      rw [hlen'] at hdecoded
      rw [hdecoded, newest_eq]
    · -- the first frame that is read has none before it
      rw [if_neg hlt] at hlen hchain
      obtain ⟨before, hds⟩ := hsuffix
      cases before using List.reverseRecOn with
      | nil =>
        rw [List.nil_append] at hds
        rw [hds] at hlen ⊢
        have hall' : ds.length - limit = 0 := by omega
        rw [← newest_eq, hall', List.drop_zero]
      | append_singleton before x =>
        obtain ⟨g, rest, rfl⟩ := List.exists_cons_of_ne_nil hne
        rw [← hds] at hscan
        have hprevious := previous_of_scan hscan
        unfold chained at hchain
        rw [Bool.and_eq_true, decide_eq_true_eq] at hchain
        rw [hchain.1, List.getLast?_concat] at hprevious
        have hx : x ∈ ds := by
          rw [← hds]
          simp
        exact absurd (List.mem_map.mpr ⟨x, hx, hprevious.symm⟩) (List.nodup_cons.mp hdistinct).1

/-! ## The records of some sequences -/

/-- The frame of a sequence. -/
theorem eq_of_sequence (hscan : Scan c s.bytes 0 zeroId 1 ds len torn) {d : DecodedRecord}
    (hd : d ∈ ds) : ds[d.record.sequence - 1]? = some d := by
  obtain ⟨before, after, rfl⟩ := List.append_of_mem hd
  rw [hscan.after.2.1]
  simp

/-- The frames are numbered from one. -/
theorem sequence_of_getElem? (hscan : Scan c s.bytes 0 zeroId 1 ds len torn) {i : ℕ}
    {d : DecodedRecord} (hd : ds[i]? = some d) : d.record.sequence = i + 1 := by
  have hi : i < ds.length := (List.getElem?_eq_some_iff.mp hd).1
  have hsplit : ds = ds.take i ++ d :: ds.drop (i + 1) := by
    rw [List.getElem?_eq_getElem hi, Option.some.injEq] at hd
    rw [← hd, List.getElem_cons_drop, List.take_append_drop]
  rw [hsplit] at hscan
  rw [hscan.after.2.1, List.length_take]
  omega

/-- **A record is found by its sequence exactly if the index names its frame there.** -/
theorem recordAtSequence_eq_ok_iff (hscan : Scan c s.bytes 0 zeroId 1 ds len torn)
    (hboundary : ∀ start d, readFrameAt c s.bytes start = .ok (some d) → d ∈ ds) {b : Bytes}
    {i : ℕ} {d : DecodedRecord} (hd : ds[i]? = some d) :
    recordAtSequence c b s.bytes (i + 1) = .ok d.record ↔
      ∃ r, (indexEntries c b)[i]? = some (.ok r) ∧ r.Names d := by
  have hsequence := sequence_of_getElem? hscan hd
  have hdmem : d ∈ ds := List.mem_of_getElem? hd
  have hslot : (indexEntries c b)[i]? =
      if i < indexCount b then some (readIndexRecord c (indexSlot b i)) else none := by
    unfold indexEntries
    rw [List.getElem?_map]
    split_ifs with hi
    · rw [List.getElem?_range hi]
      rfl
    · rw [List.getElem?_eq_none (by rw [List.length_range]; omega)]
      rfl
  unfold recordAtSequence
  rw [Nat.add_sub_cancel, hslot]
  by_cases hi : i < indexCount b
  · rw [if_pos ⟨Nat.succ_pos i, hi⟩, if_pos hi]
    cases hr : readIndexRecord c (indexSlot b i) with
    | error e => simp [bind, Except.bind]
    | ok r =>
      simp only [bind, Except.bind, Option.some.injEq, Except.ok.injEq]
      constructor
      · intro h
        refine ⟨r, rfl, ?_⟩
        cases hread : readFrameAt c s.bytes r.start with
        | error e =>
          rw [hread] at h
          exact absurd h (by simp)
        | ok found =>
          rw [hread] at h
          cases found with
          | none => exact absurd h (by simp)
          | some frame =>
            simp only at h
            split_ifs at h with hagree
            have hframe := eq_of_sequence hscan (hboundary _ _ hread)
            rw [hagree.1, Nat.add_sub_cancel, hd] at hframe
            obtain ⟨hstart, -⟩ := readFrameAt_eq_some c hread
            rw [Option.some.inj hframe]
            exact ⟨hstart.symm, hagree.2.1.symm, hagree.2.2.symm⟩
      · rintro ⟨r', rfl, hnames⟩
        rw [hnames.1, hscan.readFrameAt_of_mem hdmem]
        simp only
        rw [if_pos ⟨hsequence, hnames.2.1.symm, hnames.2.2.symm⟩]
        rfl
  · rw [if_neg (by omega), if_neg hi]
    simp

/-- The index names the frame of every sequence. -/
def NamesAll (c : RefCodec) (ds : List DecodedRecord) (b : Bytes) : Prop :=
  ∀ (i : ℕ) (d : DecodedRecord), ds[i]? = some d →
    ∃ r : IndexRecord, (indexEntries c b)[i]? = some (.ok r) ∧ r.Names d

/-- An index that names all frames finds each by its number. -/
theorem mapM_recordAtSequence (hscan : Scan c s.bytes 0 zeroId 1 ds len torn)
    (hboundary : ∀ start d, readFrameAt c s.bytes start = .ok (some d) → d ∈ ds) {b : Bytes}
    (hnames : NamesAll c ds b) {sequences : List ℕ}
    (hsequences : ∀ q ∈ sequences, 1 ≤ q ∧ q ≤ ds.length) :
    sequences.mapM (recordAtSequence c b s.bytes) =
      .ok (sequences.filterMap fun q => ds[q - 1]?.map DecodedRecord.record) := by
  induction sequences with
  | nil => rfl
  | cons q rest ih =>
    obtain ⟨hpos, hle⟩ := hsequences q List.mem_cons_self
    obtain ⟨i, rfl⟩ : ∃ i, q = i + 1 := ⟨q - 1, by omega⟩
    obtain ⟨d, hd⟩ : ∃ d, ds[i]? = some d := ⟨_, List.getElem?_eq_getElem (by omega)⟩
    have hfirst := (recordAtSequence_eq_ok_iff hscan hboundary hd).mpr (hnames i _ hd)
    rw [List.mapM_cons, hfirst, ih fun p hp => hsequences p (List.mem_cons_of_mem _ hp),
      List.filterMap_cons, Nat.add_sub_cancel, hd]
    rfl

/-- An element of the one list has its partner in the other. -/
theorem forall₂_getElem? {α β : Type} {R : α → β → Prop} {l : List α} {l' : List β}
    (h : List.Forall₂ R l l') {i : ℕ} {b : β} (hb : l'[i]? = some b) :
    ∃ a, l[i]? = some a ∧ R a b := by
  induction h generalizing i with
  | nil => exact absurd hb (by simp)
  | @cons x y l l' hxy hrest ih =>
    cases i with
    | zero =>
      have hy : y = b := by simpa using hb
      exact ⟨x, rfl, hy ▸ hxy⟩
    | succ i => exact ih hb

/-- An index of the frames names them all. -/
theorem namesAll_of_indexOf {b : Bytes} (h : IndexOf c ds b) : NamesAll c ds b := by
  obtain ⟨rs, hrs, hnames⟩ := h.entries
  intro i d hd
  obtain ⟨r, hr, hname⟩ := forall₂_getElem? hnames hd
  exact ⟨r, by rw [hrs, List.getElem?_map, hr]; rfl, hname⟩

/-- **An index that was kept names all frames exactly if its own records did**, each in its
place. -/
theorem namesAll_iff_of_extends {before after : List DecodedRecord} {frame : DecodedRecord}
    (hscan : Scan c s.bytes 0 zeroId 1 (before ++ frame :: after) len torn) {b b' : Bytes}
    (hcount : 0 < indexCount b) (h : Extends c b frame after b') :
    NamesAll c (before ++ frame :: after) b' ↔
      (∀ (i : ℕ) (d : DecodedRecord), i + 1 < indexCount b →
        (before ++ frame :: after)[i]? = some d →
        ∃ r : IndexRecord, (indexEntries c b)[i]? = some (.ok r) ∧ r.Names d) ∧
      (indexCount b ≤ (before ++ frame :: after).length →
        frame.record.sequence = indexCount b) := by
  obtain ⟨last, rs, hentries, hlast, hafter⟩ := h.entries
  have hlen : (indexEntries c b).dropLast.length = indexCount b - 1 := by
    rw [List.length_dropLast, length_indexEntries]
  have hsequence : frame.record.sequence = before.length + 1 := by
    rw [hscan.after.2.1, Nat.add_comm]
  have hlow : ∀ i, i + 1 < indexCount b → (indexEntries c b')[i]? = (indexEntries c b)[i]? := by
    intro i hi
    rw [hentries, List.getElem?_append_left (by omega), List.getElem?_dropLast,
      length_indexEntries, if_pos (by omega)]
  have hhigh : ∀ j, (indexEntries c b')[indexCount b - 1 + j]? =
      ((last :: rs).map (Except.ok : IndexRecord → Except RefError IndexRecord))[j]? := by
    intro j
    rw [hentries, List.getElem?_append_right (by omega), hlen, Nat.add_sub_cancel_left]
    rfl
  constructor
  · intro hall
    refine ⟨fun i d hi hd => ?_, fun hle => ?_⟩
    · rw [← hlow i hi]
      exact hall i d hd
    · -- the last record names the frame of its place, and it names one frame only
      obtain ⟨d, hd⟩ : ∃ d, (before ++ frame :: after)[indexCount b - 1]? = some d :=
        ⟨_, List.getElem?_eq_getElem (by omega)⟩
      obtain ⟨r, hr, hname⟩ := hall _ d hd
      have hhead := hhigh 0
      rw [Nat.add_zero, hr] at hhead
      have hrlast : r = last := by simpa using hhead
      have hread := hscan.readFrameAt_of_mem (List.mem_of_getElem? hd)
      rw [← hname.1, hrlast, hlast.1, hscan.after.1] at hread
      have hframe : frame = d := Option.some.inj (Except.ok.inj hread)
      rw [hframe, sequence_of_getElem? hscan hd]
      omega
  · rintro ⟨hkept, hplace⟩ i d hd
    by_cases hi : i + 1 < indexCount b
    · rw [hlow i hi]
      exact hkept i d hi hd
    · have hilt : i < (before ++ frame :: after).length := (List.getElem?_eq_some_iff.mp hd).1
      have hbefore : before.length = indexCount b - 1 := by
        have := hplace (by omega)
        omega
      obtain ⟨j, rfl⟩ : ∃ j, i = indexCount b - 1 + j := ⟨i - (indexCount b - 1), by omega⟩
      rw [hhigh j]
      rw [List.getElem?_append_right (by omega), hbefore, Nat.add_sub_cancel_left] at hd
      obtain ⟨r, hr, hname⟩ := forall₂_getElem? (List.Forall₂.cons hlast hafter) hd
      exact ⟨r, by rw [List.getElem?_map, hr]; rfl, hname⟩

/-- The last record of an index that was kept names the last frame. -/
theorem getLast?_of_extends (before : List DecodedRecord) {after : List DecodedRecord}
    {frame : DecodedRecord} {b b' : Bytes} (h : Extends c b frame after b') :
    ∃ r dlast, (indexEntries c b').getLast? = some (.ok r) ∧ r.Names dlast ∧
      (before ++ frame :: after).getLast? = some dlast := by
  obtain ⟨last, rs, hentries, hlast, hafter⟩ := h.entries
  obtain ⟨r, hr⟩ : ∃ r, (last :: rs).getLast? = some r := ⟨_, List.getLast?_cons⟩
  obtain ⟨d, hd, hname⟩ := Fallible.forall₂_getLast (List.Forall₂.cons hlast hafter) hr
  refine ⟨r, d, ?_, hname, ?_⟩
  · have hmap : Except.ok last :: rs.map .ok =
        (last :: rs).map (Except.ok : IndexRecord → Except RefError IndexRecord) := rfl
    rw [hentries, hmap, List.getLast?_append, List.getLast?_map, hr]
    rfl
  · rw [List.getLast?_append, hd]
    rfl

/-! ## The readers -/

/-- What is known of a log: its frames, that frames are found nowhere else, and that their hashes
differ. -/
structure Sound (c : RefCodec) (log : Bytes) (ds : List DecodedRecord) (len : ℕ) (torn : Bool) :
    Prop where
  scan : Scan c log 0 zeroId 1 ds len torn
  limit : log.length < fileLimit
  boundary : ∀ start d, readFrameAt c log start = .ok (some d) → d ∈ ds
  distinct : (zeroId :: ds.map DecodedRecord.frameHash).Nodup

/-- The sound part of a log is sound by itself. -/
theorem Sound.take {log : Bytes} (h : Sound c log ds len torn) :
    Sound c (log.take len) ds len false where
  scan := h.scan.take (Nat.zero_le _)
  limit := by
    have := h.limit
    rw [List.length_take]
    omega
  boundary := fun start d hread => h.boundary start d (readFrameAt_of_take hread)
  distinct := h.distinct

/-- A log that is not there has no frames. -/
theorem Sound.nil_of_none (h : Sound c s.bytes ds len torn) (hlog : s.log = none) : ds = [] := by
  have hbytes : s.bytes = [] := by
    unfold RefFiles.bytes
    rw [hlog]
    rfl
  have hdone : Scan c s.bytes 0 zeroId 1 [] 0 false := .done (by rw [hbytes]; rfl)
  exact (h.scan.unique hdone).1

/-- An index with a last record has a record. -/
theorem indexCount_pos {b : Bytes} {last : IndexRecord} (hindex : s.index = some b)
    (hlast : candidate c s = some last) : 0 < indexCount b := by
  obtain ⟨b₁, hindex₁, -, -, hgetLast, -, -⟩ := candidate_eq_some hlast
  rw [hindex] at hindex₁
  cases hindex₁
  rw [← length_indexEntries c b]
  apply List.length_pos_of_ne_nil
  rintro hnil
  rw [hnil] at hgetLast
  exact absurd hgetLast (by simp)

/-- A log with a frame, or with something that is none, is there. -/
theorem log_ne_none (start : ℕ) (h : readFrameAt c s.bytes start ≠ .ok none) : s.log ≠ none := by
  intro hlog
  apply h
  have hbytes : s.bytes = [] := by
    unfold RefFiles.bytes
    rw [hlog]
    rfl
  rw [hbytes]
  unfold readFrameAt
  rw [List.drop_nil]
  rfl

/-- The newest records, after the index was brought up to the log. -/
theorem recent_of_ensureIndex (h : Sound c s.bytes ds len torn) {truncated : LogStat}
    {s' : RefFiles} (hrun : ensureIndex c truncated s = (.ok (), s'))
    (hbytes : s'.bytes = s.bytes.take len)
    (hread : ∀ limit found, limit ≠ 0 → readRecentIndexed c s' limit = .ok found →
      found = (ds.map DecodedRecord.record).reverse.take limit) (limit : ℕ) :
    (recent c truncated limit s).1 = .ok ((ds.map DecodedRecord.record).reverse.take limit) := by
  unfold recent
  by_cases hnone : limit = 0 ∨ s.log = none
  · rw [if_pos hnone]
    rcases hnone with rfl | hlog
    · rfl
    · rw [h.nil_of_none hlog]
      simp
  rw [if_neg hnone, hrun]
  simp only
  cases hfound : readRecentIndexed c s' limit with
  | ok found =>
    rw [not_or] at hnone
    rw [hread limit found hnone.1 hfound]
  | error e =>
    have hsound := h.take
    rw [← hbytes] at hsound
    obtain ⟨s₂, hrebuild, hrestored⟩ :=
      rebuildIndex_restored hsound.scan hsound.limit truncated s'.index
    have hrebuild' : rebuildIndex c truncated s' = (.ok (), s₂) := hrebuild
    obtain ⟨b, hindex, hof⟩ := hrestored.index
    have hscan₂ := hsound.take.scan
    rw [← hrestored.bytes] at hscan₂
    simp only [hrebuild']
    exact readRecentIndexed_of_indexOf hscan₂ hindex hof limit

/-- The last record is the newest one. -/
theorem head_of_recent {truncated : LogStat} (h : (recent c truncated 1 s).1 =
    .ok ((ds.map DecodedRecord.record).reverse.take 1)) :
    (head c truncated s).1 = .ok (ds.getLast?.map DecodedRecord.record) := by
  unfold head
  simp only
  rw [h]
  cases ds using List.reverseRecOn with
  | nil => rfl
  | append_singleton ds d => simp [Except.map]

/-- Records are found by their numbers behind an index that names all frames. -/
theorem recordsAtSequences_of_ensureIndex (h : Sound c s.bytes ds len torn) {truncated : LogStat}
    {s' : RefFiles} (hrun : ensureIndex c truncated s = (.ok (), s'))
    (hbytes : s'.bytes = s.bytes.take len) {b : Bytes} (hindex : s'.index = some b)
    (hnames : NamesAll c ds b) {sequences : List ℕ}
    (hsequences : ∀ q ∈ sequences, 1 ≤ q ∧ q ≤ ds.length) :
    (recordsAtSequences c truncated sequences s).1 =
      .ok (sequences.filterMap fun q => ds[q - 1]?.map DecodedRecord.record) := by
  unfold recordsAtSequences
  by_cases hnone : sequences = [] ∨ s.log = none
  · rw [if_pos hnone]
    rcases hnone with rfl | hlog
    · rfl
    · rw [h.nil_of_none hlog]
      simp
  have hsound := h.take
  rw [← hbytes] at hsound
  rw [if_neg hnone, hrun]
  simp only
  rw [hindex]
  exact mapM_recordAtSequence hsound.scan hsound.boundary hnames hsequences

/-- **An index that was made anew changes no answer.** -/
theorem answers_of_restored (h : Sound c s.bytes ds len torn)
    (hrun : ∀ truncated, ∃ s', ensureIndex c truncated s = (.ok (), s') ∧
      Restored c ds len s s') : Answers c s ds := by
  intro truncated
  obtain ⟨s', hensure, hrestored⟩ := hrun truncated
  obtain ⟨b, hindex, hof⟩ := hrestored.index
  have hsound := h.take
  rw [← hrestored.bytes] at hsound
  have hrecent := recent_of_ensureIndex h hensure hrestored.bytes fun limit found _ hfound => by
    rw [readRecentIndexed_of_indexOf hsound.scan hindex hof limit] at hfound
    exact (Except.ok.inj hfound).symm
  exact ⟨hrecent, head_of_recent (hrecent 1), fun sequences hsequences =>
    recordsAtSequences_of_ensureIndex h hensure hrestored.bytes hindex (namesAll_of_indexOf hof)
      hsequences⟩

/-- An index that was kept changes no answer if it names all frames. -/
theorem answers_of_kept {before after : List DecodedRecord} {frame : DecodedRecord}
    (h : Sound c s.bytes (before ++ frame :: after) len torn)
    (hrun : ∀ truncated, ∃ s' b b', ensureIndex c truncated s = (.ok (), s') ∧
      s'.bytes = s.bytes.take len ∧ s.index = some b ∧ s'.index = some b' ∧
        Extends c b frame after b' ∧ NamesAll c (before ++ frame :: after) b') :
    Answers c s (before ++ frame :: after) := by
  intro truncated
  obtain ⟨s', b, b', hensure, hbytes, -, hindex', hextends, hnames⟩ := hrun truncated
  obtain ⟨r, dlast, hr, hname, hlast⟩ := getLast?_of_extends before hextends
  have hsound := h.take
  rw [← hbytes] at hsound
  have hrecent := recent_of_ensureIndex h hensure hbytes fun limit found hlimit hfound =>
    readRecentIndexed_sound hsound.scan hsound.boundary hsound.distinct hindex' hr hname hlast
      hlimit hfound
  exact ⟨hrecent, head_of_recent (hrecent 1), fun sequences hsequences =>
    recordsAtSequences_of_ensureIndex h hensure hbytes hindex' hnames hsequences⟩

end RefLog

/-- **The index changes no answer exactly if it is readable.**  The hypotheses are on what is not
of the repository: frames are found only where the scan finds them, since a payload is text in
which there is no frame, and the hashes of frames differ. -/
theorem answers_iff_readable {c : RefCodec} {s : RefFiles} {ds : List DecodedRecord} {len : ℕ}
    {torn : Bool} (hscan : readRecords c s.bytes 0 zeroId 1 = .ok (ds, len, torn))
    (hlimit : s.bytes.length < fileLimit)
    (hboundary : ∀ start d, readFrameAt c s.bytes start = .ok (some d) → d ∈ ds)
    (hdistinct : (zeroId :: ds.map DecodedRecord.frameHash).Nodup) :
    RefLog.Answers c s ds ↔ RefLog.Readable c s ds := by
  have h : RefLog.Sound c s.bytes ds len torn :=
    ⟨(readRecords_eq_ok_iff c).mp hscan, hlimit, hboundary, hdistinct⟩
  constructor
  · intro hanswers
    refine ⟨fun last hlast e he => ?_, fun b last frame hindex hlast hread hstop hhash hstat => ?_⟩
    · -- the error of reading at the last record is passed on
      have hrecent := (hanswers s.stat).1 1
      have hlog := RefLog.log_ne_none (c := c) (s := s) last.start (by simp [he])
      unfold RefLog.recent at hrecent
      rw [if_neg (by simp [hlog]), RefLog.ensureIndex_of_some hlast, he] at hrecent
      exact absurd hrecent (by simp)
    · obtain ⟨before, after, rfl⟩ := List.append_of_mem (hboundary _ _ hread)
      obtain ⟨s', b₁, b', hensure, hbytes, hindex₁, hindex', hextends⟩ :=
        RefLog.ensureIndex_of_agree h.scan hlimit hlast hread hstop hhash hstat s.stat
      rw [hindex] at hindex₁
      cases hindex₁
      have hcount := RefLog.indexCount_pos hindex hlast
      refine (RefLog.namesAll_iff_of_extends h.scan hcount hextends).mp ?_
      intro i d hd
      have hsound := h.take
      rw [← hbytes] at hsound
      have hilt : i < (before ++ frame :: after).length := (List.getElem?_eq_some_iff.mp hd).1
      have hwithin : ∀ q ∈ [i + 1], 1 ≤ q ∧ q ≤ (before ++ frame :: after).length := by
        intro q hq
        rw [List.mem_singleton.mp hq]
        omega
      have hanswer := (hanswers s.stat).2.2 [i + 1] hwithin
      have hlog := RefLog.log_ne_none (c := c) (s := s) last.start (by simp [hread])
      unfold RefLog.recordsAtSequences at hanswer
      rw [if_neg (by simp [hlog]), hensure] at hanswer
      simp only [hindex', Option.getD_some, List.filterMap_cons, Nat.add_sub_cancel, hd,
        Option.map_some, List.filterMap_nil] at hanswer
      have hrecord := Fallible.mapM_eq_ok_iff.mp hanswer
      cases hrecord with
      | cons hfirst _ =>
        exact (RefLog.recordAtSequence_eq_ok_iff hsound.scan hsound.boundary hd).mp hfirst
  · intro hreadable
    cases hlast : RefLog.candidate c s with
    | none =>
      exact RefLog.answers_of_restored h fun truncated =>
        RefLog.ensureIndex_of_none h.scan hlimit hlast truncated
    | some last =>
      cases hread : readFrameAt c s.bytes last.start with
      | error e => exact absurd hread (hreadable.last last hlast e)
      | ok found =>
        by_cases hkept : ∃ frame, found = some frame ∧ frame.stop = last.stop ∧
            frame.frameHash = last.frameHash ∧ (s.bytes.length = last.stop → last.stat = s.stat)
        · obtain ⟨frame, rfl, hstop, hhash, hstat⟩ := hkept
          obtain ⟨before, after, rfl⟩ := List.append_of_mem (hboundary _ _ hread)
          refine RefLog.answers_of_kept h fun truncated => ?_
          obtain ⟨s', b, b', hensure, hbytes, hindex, hindex', hextends⟩ :=
            RefLog.ensureIndex_of_agree h.scan hlimit hlast hread hstop hhash hstat truncated
          have hcount := RefLog.indexCount_pos hindex hlast
          refine ⟨s', b, b', hensure, hbytes, hindex, hindex', hextends, ?_⟩
          exact (RefLog.namesAll_iff_of_extends h.scan hcount hextends).mpr
            (hreadable.kept b last frame hindex hlast hread hstop hhash hstat)
        · refine RefLog.answers_of_restored h fun truncated => ?_
          refine RefLog.ensureIndex_of_disagree h.scan hlimit hlast hread ?_ truncated
          intro frame hfound hstop hhash
          by_contra hnot
          apply hkept
          refine ⟨frame, hfound, hstop, hhash, fun hend => ?_⟩
          by_contra hstat
          exact hnot ⟨hend, hstat⟩

/-! ### A sample -/

/-- A number as so many ones. -/
def sampleUnary (n : ℕ) : Bytes := List.replicate n 1 ++ [0]

/-- A number, read back from its bytes. -/
def readSampleUnary : Bytes → Option (ℕ × Bytes)
  | [] => none
  | b :: bs => if b = 0 then some (0, bs) else (readSampleUnary bs).map fun p => (p.1 + 1, p.2)

/-- A number is read back. -/
theorem readSampleUnary_append (n : ℕ) (t : Bytes) :
    readSampleUnary (sampleUnary n ++ t) = some (n, t) := by
  induction n with
  | zero => rfl
  | succ n ih =>
    have hcons : sampleUnary (n + 1) ++ t = 1 :: (sampleUnary n ++ t) := rfl
    rw [hcons, readSampleUnary, if_neg (by decide), ih]
    rfl

/-- The triggers, by their numbers. -/
def triggers : List SnapshotTrigger :=
  [.Initial, .Manual, .Watcher, .PreRewind, .ForkBase, .AgentRun, .MergeSource, .PreMerge, .Merge,
    .SyncLocal, .SyncPush, .SyncPull, .Inspection, .Claim, .Release, .Coord]

/-- A record as bytes: numbers in ones, and the rest as it is. -/
def sampleToVec (r : LogRecord) : Bytes :=
  sampleUnary r.sequence ++ (r.snapshotId.bytes ++ (sampleUnary r.sealedAt.toNat ++
    (sampleUnary (-r.sealedAt).toNat ++ (sampleUnary (r.label.elim 0 fun l => l.length + 1) ++
      (r.label.getD [] ++ (sampleUnary (triggers.idxOf r.trigger) ++ r.previousFrame.bytes))))))

/-- An identifier, read back from its bytes. -/
def sampleRefId (b : Bytes) : Option ObjectId :=
  if h : b.length = 32 then some ⟨b, h⟩ else none

/-- A record, read back from its bytes. -/
def sampleFromSlice (b : Bytes) : Option LogRecord := do
  let (sequence, b) ← readSampleUnary b
  let snapshotId ← sampleRefId (b.take 32)
  let (pos, b) ← readSampleUnary (b.drop 32)
  let (neg, b) ← readSampleUnary b
  let (n, b) ← readSampleUnary b
  let label := if n = 0 then none else some (b.take (n - 1))
  let (t, b) ← readSampleUnary (b.drop (n - 1))
  let trigger ← triggers[t]?
  let previousFrame ← sampleRefId b
  pure ⟨sequence, snapshotId, pos - neg, label, trigger, previousFrame⟩

/-- An identifier is read back. -/
theorem sampleId_bytes (id : ObjectId) : sampleRefId id.bytes = some id := by
  unfold sampleRefId
  rw [dif_pos id.length_eq]

/-- The first bytes, up to thirty-two of them. -/
def sampleDigest (b : Bytes) : ObjectId :=
  ⟨(b ++ List.replicate 32 0).take 32, by simp⟩

/-- A way to write records. -/
def sampleCodec : RefCodec where
  hash := sampleDigest
  toVec := sampleToVec
  fromSlice := sampleFromSlice
  fromSlice_toVec := by
    rintro ⟨sequence, snapshotId, sealedAt, label, trigger, previousFrame⟩
    have htrigger : triggers[triggers.idxOf trigger]? = some trigger := by
      cases trigger <;> rfl
    have hsealed : ((sealedAt.toNat : ℤ) - (-sealedAt).toNat) = sealedAt := by omega
    have hid : ∀ t, (snapshotId.bytes ++ t).take 32 = snapshotId.bytes := by
      intro t
      rw [← snapshotId.length_eq, List.take_left]
    have hdrop : ∀ t, (snapshotId.bytes ++ t).drop 32 = t := by
      intro t
      rw [← snapshotId.length_eq, List.drop_left]
    unfold sampleFromSlice sampleToVec
    cases label with
    | none =>
      simp only [bind, Option.bind, readSampleUnary_append, hid, hdrop, sampleId_bytes, htrigger,
        hsealed, Option.elim_none, Option.getD_none, List.nil_append, Nat.zero_sub, List.drop_zero,
        if_true]
      rfl
    | some label =>
      simp only [bind, Option.bind, readSampleUnary_append, hid, hdrop, sampleId_bytes, htrigger,
        hsealed, Option.elim_some, Option.getD_some, Nat.add_sub_cancel, List.drop_left,
        List.take_left, Nat.add_one_ne_zero, if_false]
      rfl

/-- What the file system says of the log. -/
def sampleStat : LogStat := ⟨1, 2, 3, 4, 5, 6⟩

/-- The first record of a log. -/
def sampleRefRecord : LogRecord := ⟨1, .fill 7, 0, none, .Manual, zeroId⟩

/-- The frame of the first record. -/
def sampleFrame : DecodedRecord :=
  ⟨sampleRefRecord, frameHash sampleCodec sampleRefRecord, 0,
    (frameBytes sampleCodec sampleRefRecord).length⟩

/-- The second record, which names the frame of the first. -/
def sampleNextRecord : LogRecord := ⟨2, .fill 8, -5, some [9], .Watcher, sampleFrame.frameHash⟩

/-- The frame of the second record. -/
def sampleNextFrame : DecodedRecord :=
  ⟨sampleNextRecord, frameHash sampleCodec sampleNextRecord, sampleFrame.stop,
    sampleFrame.stop + (frameBytes sampleCodec sampleNextRecord).length⟩

/-- A log of two records and its index. -/
def sampleRefLog : RefFiles :=
  ⟨some (frameBytes sampleCodec sampleRefRecord ++ frameBytes sampleCodec sampleNextRecord),
    some (RefLog.rewriteIndex sampleCodec sampleStat [sampleFrame, sampleNextFrame]), sampleStat⟩

/-- The log of the samples has two frames. -/
theorem sampleLog_scan : readRecords sampleCodec sampleRefLog.bytes 0 zeroId 1 =
    .ok ([sampleFrame, sampleNextFrame], 232, false) := by
  decide +kernel

/-- Frames are found only where the two records are. -/
theorem sampleLog_boundary (start : ℕ) (d : DecodedRecord)
    (h : readFrameAt sampleCodec sampleRefLog.bytes start = .ok (some d)) :
    d ∈ [sampleFrame, sampleNextFrame] := by
  have hall : ∀ i < 232, i ≠ 0 → i ≠ 111 →
      (readFrameAt sampleCodec sampleRefLog.bytes i).toOption.join = none := by
    decide +kernel
  have hfirst : readFrameAt sampleCodec sampleRefLog.bytes 0 = .ok (some sampleFrame) := by
    decide +kernel
  have hnext : readFrameAt sampleCodec sampleRefLog.bytes 111 = .ok (some sampleNextFrame) := by
    decide +kernel
  have hlength : sampleRefLog.bytes.length = 232 := by decide +kernel
  obtain ⟨-, -, hstop, -⟩ := readFrameAt_eq_some sampleCodec h
  have hlt := stop_of_readFrameAt sampleCodec h
  by_cases hzero : start = 0
  · rw [hzero, hfirst] at h
    cases h
    exact List.mem_cons_self
  by_cases hmiddle : start = 111
  · rw [hmiddle, hnext] at h
    cases h
    exact List.mem_cons_of_mem _ List.mem_cons_self
  · have hnone := hall start (by omega) hzero hmiddle
    rw [h] at hnone
    exact absurd hnone (by simp [Except.toOption])

/-- The index of the samples names both frames. -/
theorem index_sampleRefLog :
    let index := RefLog.rewriteIndex sampleCodec sampleStat [sampleFrame, sampleNextFrame]
    RefLog.candidate sampleCodec sampleRefLog = some (.new sampleStat sampleNextFrame) ∧
      indexCount index = 2 ∧ indexEntries sampleCodec index =
        [.ok (.new sampleStat sampleFrame), .ok (.new sampleStat sampleNextFrame)] := by
  decide +kernel

/-- A log of two records and an index that names both. -/
theorem answers_iff_readable_sample :
    RefLog.Answers sampleCodec sampleRefLog [sampleFrame, sampleNextFrame] := by
  have hread : readFrameAt sampleCodec sampleRefLog.bytes 111 = .ok (some sampleNextFrame) := by
    decide +kernel
  obtain ⟨hcandidate, hcount, hentries⟩ := index_sampleRefLog
  refine (answers_iff_readable sampleLog_scan (by decide +kernel) sampleLog_boundary
    (by decide)).mpr ⟨?_, ?_⟩
  · intro last hlast e he
    rw [hcandidate] at hlast
    cases hlast
    exact absurd (hread.symm.trans he) (by simp)
  · intro b last frame hindex hlast hframe _ _ _
    rw [hcandidate] at hlast
    cases hlast
    cases hindex
    rw [hcount, hentries]
    refine ⟨fun i d hi hd => ?_, fun _ => ?_⟩
    · -- the record before the last one
      obtain rfl : i = 0 := by omega
      cases hd
      exact ⟨.new sampleStat sampleFrame, rfl, rfl, rfl, rfl⟩
    · obtain rfl : sampleNextFrame = frame :=
        Option.some.inj (Except.ok.inj (hread.symm.trans hframe))
      rfl

/-- A log of one record, and an index whose record is intact but points behind the first byte of
the frame. -/
def sampleMisled : RefFiles :=
  ⟨some (frameBytes sampleCodec sampleRefRecord),
    some (indexMagic ++ encodeIndexRecord sampleCodec ⟨1, 111, sampleFrame.frameHash, sampleStat⟩),
    sampleStat⟩

/-- **The newest record cannot be read**, although the log is valid. -/
theorem answers_fail : ¬ ∀ (c : RefCodec) (s : RefFiles) (ds : List DecodedRecord) (len : ℕ)
    (torn : Bool), readRecords c s.bytes 0 zeroId 1 = .ok (ds, len, torn) →
      s.bytes.length < fileLimit → RefLog.Answers c s ds := by
  intro h
  have hscan : readRecords sampleCodec sampleMisled.bytes 0 zeroId 1 =
      .ok ([sampleFrame], 111, false) := by
    decide
  have hanswers := h sampleCodec sampleMisled [sampleFrame] 111 false hscan (by decide)
  have hrecent := (hanswers sampleStat).1 1
  have hfails : (RefLog.recent sampleCodec sampleStat 1 sampleMisled).1 =
      .error (.corruption 1) := by
    decide +kernel
  rw [hfails] at hrecent
  exact absurd hrecent (by simp)

end Furrow
