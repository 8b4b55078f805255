import Furrow.Refs.Index

set_option relaxedAutoImplicit false
set_option autoImplicit false

/-!
# Appends that crashes cut

The reference log is a chain of records, whatever appends were cut at whatever byte.  A frame that
was cut is a proper prefix of a frame; the next operation finds no frame there and drops it.  An
index that was cut names some of the first frames; the next operation adds the others.

## Main definitions

* `Furrow.RefLog.completed` — the records of the appends whose frame was written.
* `Furrow.RefLog.Inv` — what the files are between two operations.

## Main results

* `Furrow.RefLog.ensureIndex_of_inv` — every operation starts from the completed appends.
* `Furrow.refLog_faithful` — the log is a chain of the completed appends.
-/

namespace Furrow

section Codec

variable (c : RefCodec)

/-! ## Logs -/

/-- The log of some records. -/
def encodeLog (rs : List LogRecord) : Bytes := rs.flatMap (frameBytes c)

/-- The frames of some records, from an offset on. -/
def framesOf : ℕ → List LogRecord → List DecodedRecord
  | _, [] => []
  | offset, r :: rs =>
    ⟨r, frameHash c r, offset, offset + (frameBytes c r).length⟩ ::
      framesOf (offset + (frameBytes c r).length) rs

/-- **The records are a chain**: numbered without a gap, and each names the frame before it. -/
def Chained : ObjectId → ℕ → List LogRecord → Prop
  | _, _, [] => True
  | previous, sequence, r :: rs =>
    r.previousFrame = previous ∧ r.sequence = sequence ∧ Chained (frameHash c r) (sequence + 1) rs

/-- A record that a frame can hold. -/
def LogRecord.Small (r : LogRecord) : Prop := (c.toVec r).length ≤ maxRecord

/-- Nothing, or a proper prefix of a frame. -/
def Torn (t : Bytes) : Prop := t = [] ∨ ∃ r q, r.Small c ∧ t ++ q = frameBytes c r ∧ q ≠ []

variable {c}

/-- A part of a frame is torn. -/
theorem torn_take {r : LogRecord} (h : r.Small c) {k : ℕ} (hk : k < (frameBytes c r).length) :
    Torn c ((frameBytes c r).take k) := by
  refine Or.inr ⟨r, (frameBytes c r).drop k, h, List.take_append_drop k _, ?_⟩
  rw [Ne, List.drop_eq_nil_iff]
  omega

/-- A frame is not empty. -/
theorem length_pos_frameBytes (r : LogRecord) : 0 < (frameBytes c r).length := by
  rw [length_frameBytes]
  unfold frameHeaderLen
  omega

/-- **A scan of a log finds its records**, and that the rest is no frame. -/
theorem scan_encodeLog {rs : List LogRecord} {previous : ObjectId} {sequence : ℕ}
    (hchain : Chained c previous sequence rs) (hsmall : ∀ r ∈ rs, r.Small c) {t : Bytes}
    (ht : Torn c t) (before : Bytes) :
    Scan c (before ++ (encodeLog c rs ++ t)) before.length previous sequence
      (framesOf c before.length rs) (before.length + (encodeLog c rs).length) (!t.isEmpty) := by
  induction rs generalizing before previous sequence with
  | nil =>
    have hnil : encodeLog c [] = [] := rfl
    rw [hnil, List.nil_append, List.length_nil, Nat.add_zero]
    cases t with
    | nil => exact .done (by rw [List.append_nil])
    | cons b t =>
      obtain ⟨r, q, hr, hpq, hq⟩ := ht.resolve_left (by simp)
      refine .torn ?_ (readFrameAt_short c hr hpq hq before)
      rw [List.length_append, List.length_cons]
      omega
  | cons r rs ih =>
    obtain ⟨hprevious, hsequence, hrest⟩ := hchain
    have hpos := length_pos_frameBytes (c := c) r
    have hcons : encodeLog c (r :: rs) = frameBytes c r ++ encodeLog c rs := rfl
    have hread := readFrameAt_frameBytes c (hsmall r List.mem_cons_self) before
      (encodeLog c rs ++ t)
    have hnext := ih hrest (fun q hq => hsmall q (List.mem_cons_of_mem _ hq))
      (before ++ frameBytes c r)
    rw [List.append_assoc, List.length_append, Nat.add_assoc] at hnext
    rw [hcons, List.append_assoc, List.length_append]
    refine .frame ?_ hread hprevious hsequence hnext
    rw [List.length_append, List.length_append]
    omega

/-- Records one after the other. -/
theorem encodeLog_append (rs rs' : List LogRecord) :
    encodeLog c (rs ++ rs') = encodeLog c rs ++ encodeLog c rs' := List.flatMap_append

/-- The frames of more records. -/
theorem framesOf_append (offset : ℕ) (rs rs' : List LogRecord) :
    framesOf c offset (rs ++ rs') =
      framesOf c offset rs ++ framesOf c (offset + (encodeLog c rs).length) rs' := by
  induction rs generalizing offset with
  | nil => rfl
  | cons r rs ih =>
    have hlen : (encodeLog c (r :: rs)).length =
        (frameBytes c r).length + (encodeLog c rs).length := List.length_append
    rw [List.cons_append, framesOf, framesOf, ih, hlen, List.cons_append, Nat.add_assoc]

/-- The records of the frames. -/
theorem records_framesOf (offset : ℕ) (rs : List LogRecord) :
    (framesOf c offset rs).map DecodedRecord.record = rs := by
  induction rs generalizing offset with
  | nil => rfl
  | cons r rs ih => rw [framesOf, List.map_cons, ih]

/-- There is a frame for each record. -/
theorem length_framesOf (offset : ℕ) (rs : List LogRecord) :
    (framesOf c offset rs).length = rs.length := by
  rw [← List.length_map DecodedRecord.record, records_framesOf]

/-- The last frame is that of the last record. -/
theorem getLast?_framesOf (offset : ℕ) (rs : List LogRecord) :
    ((framesOf c offset rs).getLast?).map (fun d => (d.record, d.frameHash)) =
      rs.getLast?.map fun r => (r, frameHash c r) := by
  induction rs using List.reverseRecOn with
  | nil => rfl
  | append_singleton rs r ih =>
    rw [framesOf_append]
    simp [framesOf]

/-- A record that follows the last one continues the chain. -/
theorem chained_append {previous : ObjectId} {sequence : ℕ} {rs : List LogRecord} {r : LogRecord}
    (h : Chained c previous sequence rs) (hsequence : r.sequence = sequence + rs.length)
    (hprevious : r.previousFrame = (rs.getLast?.map (frameHash c)).getD previous) :
    Chained c previous sequence (rs ++ [r]) := by
  induction rs generalizing previous sequence with
  | nil => exact ⟨hprevious, hsequence, trivial⟩
  | cons q rs ih =>
    obtain ⟨h₁, h₂, hrest⟩ := h
    refine ⟨h₁, h₂, ih hrest ?_ ?_⟩
    · rw [hsequence, List.length_cons]
      omega
    · rw [hprevious]
      cases rs with
      | nil => rfl
      | cons q' rs =>
        rw [List.getLast?_cons_cons]
        cases hlast : (q' :: rs).getLast? with
        | none => exact absurd hlast (by simp)
        | some last => rfl

/-- The number of the last record. -/
theorem sequence_of_chained {previous : ObjectId} {sequence : ℕ} {rs : List LogRecord}
    (h : Chained c previous sequence rs) {r : LogRecord} (hr : rs.getLast? = some r) :
    r.sequence + 1 = sequence + rs.length := by
  induction rs generalizing previous sequence with
  | nil => exact absurd hr (by simp)
  | cons q rs ih =>
    obtain ⟨-, hsequence, hrest⟩ := h
    cases rs with
    | nil =>
      have hq : q = r := by simpa using hr
      rw [← hq, hsequence]
      rfl
    | cons q' rs =>
      rw [List.getLast?_cons_cons] at hr
      rw [ih hrest hr, List.length_cons, List.length_cons, List.length_cons]
      omega

/-! ## The files between two operations -/

namespace RefLog

/-- The index is missing, ends in its header, or names some of the first frames. -/
def IndexInv (c : RefCodec) (ds : List DecodedRecord) : Option Bytes → Prop
  | none => True
  | some b => b.length < indexMagic.length ∨
    (b.take indexMagic.length = indexMagic ∧
      ∃ rs ds₀, indexEntries c b = rs.map .ok ∧ ds₀ <+: ds ∧
        List.Forall₂ IndexRecord.Names rs ds₀)

/-- **What the files are between two operations.** -/
structure Inv (c : RefCodec) (s : RefFiles) (done : List LogRecord) : Prop where
  log : ∃ t, s.bytes = encodeLog c done ++ t ∧ Torn c t
  small : ∀ r ∈ done, r.Small c
  chain : Chained c zeroId 1 done
  limit : s.bytes.length < fileLimit
  index : IndexInv c (framesOf c 0 done) s.index

variable {s : RefFiles} {done : List LogRecord}

/-- A scan of the log finds the frames of its records. -/
theorem Inv.scan (h : Inv c s done) :
    ∃ torn, Scan c s.bytes 0 zeroId 1 (framesOf c 0 done) (encodeLog c done).length torn ∧
      s.bytes.take (encodeLog c done).length = encodeLog c done := by
  obtain ⟨t, hbytes, ht⟩ := h.log
  have hscan := scan_encodeLog h.chain h.small ht []
  rw [List.nil_append, List.length_nil, Nat.zero_add] at hscan
  refine ⟨_, by rw [hbytes]; exact hscan, ?_⟩
  rw [hbytes, List.take_left]

/-- The last index record names the last frame. -/
theorem forall₂_names_getLast {rs : List IndexRecord} {ds : List DecodedRecord} {last : IndexRecord}
    (h : List.Forall₂ IndexRecord.Names rs ds) (hlast : rs.getLast? = some last) :
    ∃ ds₀ frame, ds = ds₀ ++ [frame] ∧ last.Names frame ∧
      List.Forall₂ IndexRecord.Names rs.dropLast ds₀ := by
  induction h with
  | nil => exact absurd hlast (by simp)
  | @cons r d rs ds hrd hrest ih =>
    cases hrest with
    | nil =>
      have hr : r = last := by simpa using hlast
      subst hr
      exact ⟨[], d, rfl, hrd, .nil⟩
    | @cons r' d' rs ds hrd' hrest' =>
      rw [List.getLast?_cons_cons] at hlast
      obtain ⟨ds₀, frame, hds, hnames, hall⟩ := ih hlast
      refine ⟨d :: ds₀, frame, by rw [hds]; rfl, hnames, ?_⟩
      exact .cons hrd hall

/-- **Every operation starts from the completed appends**: what was cut is dropped, and the index
names all frames. -/
theorem ensureIndex_of_inv (h : Inv c s done) (truncated : LogStat) :
    ∃ s', ensureIndex c truncated s = (.ok (), s') ∧ s'.bytes = encodeLog c done ∧
      ∃ b, s'.index = some b ∧ IndexOf c (framesOf c 0 done) b := by
  obtain ⟨torn, hscan, htake⟩ := h.scan
  -- from what a rebuild leaves
  have hrestored : ∀ s', Restored c (framesOf c 0 done) (encodeLog c done).length s s' →
      s'.bytes = encodeLog c done ∧ ∃ b, s'.index = some b ∧ IndexOf c (framesOf c 0 done) b :=
    fun s' hs' => ⟨hs'.bytes.trans htake, hs'.index⟩
  cases hlast : candidate c s with
  | none =>
    obtain ⟨s', hrun, hs'⟩ := ensureIndex_of_none hscan h.limit hlast truncated
    exact ⟨s', hrun, hrestored s' hs'⟩
  | some last =>
    obtain ⟨b, hindex, hshort, hheader, hgetLast, -, -⟩ := candidate_eq_some hlast
    have hinv := h.index
    rw [hindex] at hinv
    rcases hinv with hlt | ⟨-, rs, ds₀, hentries, hfront, hnames⟩
    · exact absurd hlt (by omega)
    · -- the last record names a frame
      have hrs : rs.getLast? = some last := by
        rw [hentries, List.getLast?_map, Option.map_eq_some_iff] at hgetLast
        obtain ⟨r, hr, heq⟩ := hgetLast
        cases heq
        exact hr
      obtain ⟨ds₁, frame, rfl, hframe, hbefore⟩ := forall₂_names_getLast hnames hrs
      obtain ⟨after, hds⟩ := hfront
      have hds' : framesOf c 0 done = ds₁ ++ frame :: after := by
        rw [← hds, List.append_assoc]
        rfl
      rw [hds'] at hscan
      have hread : readFrameAt c s.bytes last.start = .ok (some frame) := by
        rw [hframe.1]
        exact hscan.after.1
      by_cases hstat : s.bytes.length = last.stop ∧ last.stat ≠ s.stat
      · rw [← hds'] at hscan
        obtain ⟨s', hrun, hs'⟩ := ensureIndex_of_disagree hscan h.limit hlast hread
          (fun _ _ _ _ => hstat) truncated
        exact ⟨s', hrun, hrestored s' hs'⟩
      · have hstat' : s.bytes.length = last.stop → last.stat = s.stat := fun hend =>
          not_not.mp fun hne => hstat ⟨hend, hne⟩
        obtain ⟨s', b₁, b', hrun, hbytes, hindex₁, hindex', hextends⟩ := ensureIndex_of_agree hscan
          h.limit hlast hread hframe.2.1.symm hframe.2.2.symm hstat' truncated
        rw [hindex] at hindex₁
        cases hindex₁
        obtain ⟨last', rs', hentries', hlast', hafter⟩ := hextends.entries
        have hcount : indexCount b = ds₁.length + 1 := by
          rw [← length_indexEntries c b, hentries, List.length_map, hnames.length_eq,
            List.length_append]
          rfl
        refine ⟨s', hrun, hbytes.trans htake, b', hindex', ?_, hextends.header,
          rs.dropLast ++ last' :: rs', ?_, ?_⟩
        · rw [hextends.length, hcount, hds', List.length_append, List.length_cons]
          congr 2
          omega
        · rw [hentries', hentries, List.map_append, List.map_dropLast, List.map_cons]
        · rw [hds']
          exact List.rel_append hbefore (.cons hlast' hafter)

/-- What an operation finds and leaves: the completed appends and their index. -/
structure Clean (c : RefCodec) (s : RefFiles) (done : List LogRecord) : Prop where
  bytes : s.bytes = encodeLog c done
  index : ∃ b, s.index = some b ∧ IndexOf c (framesOf c 0 done) b
  small : ∀ r ∈ done, r.Small c
  chain : Chained c zeroId 1 done
  limit : s.bytes.length < fileLimit

/-- A log with its index meets the invariant. -/
theorem Clean.inv (h : Clean c s done) : Inv c s done where
  log := ⟨[], by rw [List.append_nil]; exact h.bytes, Or.inl rfl⟩
  small := h.small
  chain := h.chain
  limit := h.limit
  index := by
    obtain ⟨b, hindex, hof⟩ := h.index
    rw [hindex]
    obtain ⟨rs, hentries, hnames⟩ := hof.entries
    exact Or.inr ⟨hof.header, rs, _, hentries, List.prefix_rfl, hnames⟩

/-- The files after the index was brought up to the log. -/
theorem Inv.clean {s' : RefFiles} (h : Inv c s done) (hbytes : s'.bytes = encodeLog c done)
    (hindex : ∃ b, s'.index = some b ∧ IndexOf c (framesOf c 0 done) b) : Clean c s' done where
  bytes := hbytes
  index := hindex
  small := h.small
  chain := h.chain
  limit := by
    obtain ⟨t, ht, -⟩ := h.log
    have hlimit := h.limit
    rw [ht, List.length_append] at hlimit
    rw [hbytes]
    omega

/-- After the index is ensured, it is that of the log. -/
theorem Inv.ensureIndex (h : Inv c s done) (truncated : LogStat) :
    ∃ s', RefLog.ensureIndex c truncated s = (.ok (), s') ∧ Clean c s' done := by
  obtain ⟨s', hrun, hbytes, hindex⟩ := ensureIndex_of_inv h truncated
  exact ⟨s', hrun, h.clean hbytes hindex⟩

/-- All succeed if each one does. -/
theorem mapM_map_ok {α ε : Type} (l : List α) :
    (l.map (Except.ok : α → Except ε α)).mapM id = .ok l := by
  induction l with
  | nil => rfl
  | cons a l ih =>
    rw [List.map_cons, List.mapM_cons, ih]
    rfl

/-- The last records of an index without damage. -/
theorem readIndexTail_of_entries {b : Bytes} {rs : List IndexRecord}
    (hrs : indexEntries c b = rs.map .ok) (limit : ℕ) :
    readIndexTail c (some b) limit = .ok (rs.drop (rs.length - min rs.length limit)) := by
  have hcount : indexCount b = rs.length := by
    rw [← length_indexEntries c b, hrs, List.length_map]
  unfold readIndexTail
  simp only [hcount, hrs, ← List.map_drop, mapM_map_ok]

/-- The last element is that of the last part. -/
theorem getLast?_drop_last {α : Type} (l : List α) :
    (l.drop (l.length - min l.length 1)).getLast? = l.getLast? := by
  cases l using List.reverseRecOn with
  | nil => rfl
  | append_singleton l a =>
    have hdrop : (l ++ [a]).length - min (l ++ [a]).length 1 = l.length := by
      rw [List.length_append, List.length_singleton]
      omega
    rw [hdrop, List.drop_left, List.getLast?_concat]
    rfl

/-- **The last frame is that of the last completed append.** -/
theorem Clean.lastFrame (h : Clean c s done) :
    RefLog.lastFrame c s = .ok (framesOf c 0 done).getLast? := by
  obtain ⟨b, hindex, hof⟩ := h.index
  obtain ⟨rs, hrs, hnames⟩ := hof.entries
  unfold RefLog.lastFrame
  rw [hindex, readIndexTail_of_entries hrs]
  simp only [bind, Except.bind, getLast?_drop_last]
  cases hlast : rs.getLast? with
  | none =>
    have hnil : rs = [] := List.getLast?_eq_none_iff.mp hlast
    rw [hnil, List.forall₂_nil_left_iff] at hnames
    rw [hnames]
    rfl
  | some last =>
    obtain ⟨ds₀, frame, hds, hframe, -⟩ := forall₂_names_getLast hnames hlast
    obtain ⟨torn, hscan, -⟩ := h.inv.scan
    rw [hds] at hscan ⊢
    simp only [List.getLast?_concat]
    rw [hframe.1]
    exact hscan.after.1

/-! ## Steps -/

/-- The record of an append after some others. -/
def nextRecord (c : RefCodec) (done : List LogRecord) (a : Append) : LogRecord where
  sequence := done.length + 1
  snapshotId := a.snapshotId
  sealedAt := a.sealedAt
  label := a.label
  trigger := a.trigger
  previousFrame := (done.getLast?.map (frameHash c)).getD zeroId

/-- **The completed appends after another one**: there is no new one if the snapshot is the last
one already, if its record is too large, or if its frame was cut. -/
def completeAppend (c : RefCodec) (cut : Option ℕ) (a : Append) (done : List LogRecord) :
    List LogRecord :=
  if done.getLast?.map LogRecord.snapshotId = some a.snapshotId then done
  else if maxRecord < (c.toVec (nextRecord c done a)).length then done
  else if fileLimit ≤ (encodeLog c done).length + (frameBytes c (nextRecord c done a)).length then
    done
  else if cut.any (· < (frameBytes c (nextRecord c done a)).length) then done
  else done ++ [nextRecord c done a]

/-- An append writes the next record. -/
theorem record_eq_nextRecord {done : List LogRecord} (hchain : Chained c zeroId 1 done)
    (a : Append) : a.record (framesOf c 0 done).getLast? = nextRecord c done a := by
  have hlast := getLast?_framesOf (c := c) 0 done
  unfold Append.record nextRecord
  cases hframe : (framesOf c 0 done).getLast? with
  | none =>
    rw [hframe] at hlast
    cases hdone : done.getLast? with
    | some r => simp [hdone] at hlast
    | none =>
      rw [List.getLast?_eq_none_iff.mp hdone]
      rfl
  | some d =>
    rw [hframe] at hlast
    cases hdone : done.getLast? with
    | none => simp [hdone] at hlast
    | some r =>
      simp only [hdone, Option.map_some, Option.some.injEq, Prod.mk.injEq] at hlast
      have hsequence := sequence_of_chained hchain hdone
      simp only [Option.elim_some, Option.map_some, Option.getD_some, hlast.1, hlast.2]
      congr 1
      omega

/-- **A frame that is written, or cut**, with the record of the index. -/
theorem Clean.writeFrame (h : Clean c s done) {r : LogRecord} (hsmall : r.Small c)
    (hchain : Chained c zeroId 1 (done ++ [r]))
    (hlimit : s.bytes.length + (frameBytes c r).length < fileLimit) (written : LogStat)
    (cut : Option ℕ) :
    Inv c (writeFrame c written cut r s)
      (if cut.any (· < (frameBytes c r).length) then done else done ++ [r]) := by
  obtain ⟨b, hindex, hof⟩ := h.index
  obtain ⟨rs, hrs, hnames⟩ := hof.entries
  have hsmall' : ∀ q ∈ done ++ [r], q.Small c := by
    intro q hq
    rcases List.mem_append.mp hq with hq | hq
    · exact h.small q hq
    · rw [List.mem_singleton.mp hq]
      exact hsmall
  have hlog : encodeLog c (done ++ [r]) = s.bytes ++ frameBytes c r := by
    rw [encodeLog_append, h.bytes]
    simp [encodeLog]
  -- the frame and its record
  generalize hentry : (⟨s.bytes.length, s.bytes.length + (frameBytes c r).length, frameHash c r,
    written⟩ : IndexRecord) = entry
  have hfits : entry.Fits := by
    rw [← hentry]
    exact ⟨Nat.le_add_right _ _, hlimit⟩
  have hframes : framesOf c 0 (done ++ [r]) = framesOf c 0 done ++
      [⟨r, frameHash c r, s.bytes.length, s.bytes.length + (frameBytes c r).length⟩] := by
    rw [framesOf_append, Nat.zero_add, ← h.bytes]
    rfl
  have hnames' : List.Forall₂ IndexRecord.Names (rs ++ [entry]) (framesOf c 0 (done ++ [r])) := by
    rw [hframes, ← hentry]
    exact List.rel_append hnames (.cons ⟨rfl, rfl, rfl⟩ .nil)
  have hlonger : framesOf c 0 done <+: framesOf c 0 (done ++ [r]) := by
    rw [hframes]
    exact List.prefix_append ..
  have hb : b.length = indexMagic.length + done.length * indexRecordLen := by
    rw [hof.length, length_framesOf]
  have hwritten : (appendIndex c (some b) entry).drop b.length = encodeIndexRecord c entry := by
    unfold appendIndex
    have hne : b.length ≠ 0 := by
      rw [hb]
      have : 0 < indexMagic.length := by decide
      omega
    simp only [Option.getD_some, if_neg hne, List.drop_left]
  have hheader : ∀ x, (b ++ x).take indexMagic.length = indexMagic := by
    intro x
    rw [List.take_append_of_le_length (by omega), hof.header]
  -- the index with all or some bytes of the record
  have hfull : IndexInv c (framesOf c 0 (done ++ [r])) (some (b ++ encodeIndexRecord c entry)) := by
    refine Or.inr ⟨hheader _, rs ++ [entry], _, ?_, List.prefix_rfl, hnames'⟩
    rw [indexEntries_append_slot c hb (length_encodeIndexRecord c entry),
      readIndexRecord_encode c hfits, hrs, List.map_append]
    rfl
  have hpart : ∀ k, IndexInv c (framesOf c 0 (done ++ [r]))
      (some (b ++ (encodeIndexRecord c entry).take k)) := by
    intro k
    by_cases hk : k < indexRecordLen
    · refine Or.inr ⟨hheader _, rs, _, ?_, hlonger, hnames⟩
      rw [indexEntries_append_tail c hb
        (by rw [List.length_take, length_encodeIndexRecord]; omega), hrs]
    · rw [List.take_of_length_le (by rw [length_encodeIndexRecord]; omega)]
      exact hfull
  cases cut with
  | none =>
    refine ⟨⟨[], ?_, Or.inl rfl⟩, hsmall', hchain, ?_, ?_⟩
    · rw [List.append_nil]
      exact hlog.symm
    · show (s.bytes ++ frameBytes c r).length < fileLimit
      rw [List.length_append]
      exact hlimit
    · show IndexInv c _ (some (s.index.getD [] ++ (appendIndex c s.index _).drop
        (s.index.getD []).length))
      rw [hindex, Option.getD_some, hentry, hwritten]
      exact hfull
  | some k =>
    have hlen : (s.bytes ++ (frameBytes c r).take k).length < fileLimit := by
      rw [List.length_append, List.length_take]
      omega
    by_cases hk : k < (frameBytes c r).length
    · -- the frame is cut
      have hany : (some k).any (· < (frameBytes c r).length) = true := by simpa using hk
      rw [if_pos hany]
      refine ⟨⟨(frameBytes c r).take k, ?_, torn_take hsmall hk⟩, h.small, h.chain, hlen, ?_⟩
      · rw [← h.bytes]
        rfl
      · show IndexInv c _ (if k ≤ (frameBytes c r).length then s.index else _)
        rw [if_pos hk.le]
        exact h.inv.index
    · have hany : ¬ (some k).any (· < (frameBytes c r).length) = true := by simpa using hk
      rw [if_neg hany]
      refine ⟨⟨[], ?_, Or.inl rfl⟩, hsmall', hchain, hlen, ?_⟩
      · show s.bytes ++ (frameBytes c r).take k = _
        rw [List.append_nil, List.take_of_length_le (by omega), hlog]
      · show IndexInv c _ (if k ≤ (frameBytes c r).length then s.index else
          some (s.index.getD [] ++ ((appendIndex c s.index _).drop
            (s.index.getD []).length).take (k - (frameBytes c r).length)))
        split_ifs with hle
        · rw [hindex]
          exact Or.inr ⟨hof.header, rs, _, hrs, hlonger, hnames⟩
        · rw [hindex, Option.getD_some, hentry, hwritten]
          exact hpart _

/-- Opening a log keeps the invariant. -/
theorem Inv.openLog (h : Inv c s done) : Inv c (openLog s) done := by
  have hbytes : (RefLog.openLog s).bytes = s.bytes := rfl
  exact ⟨by rw [hbytes]; exact h.log, h.small, h.chain, by rw [hbytes]; exact h.limit, h.index⟩

/-- The next record continues the chain. -/
theorem chained_nextRecord (hchain : Chained c zeroId 1 done) (a : Append) :
    Chained c zeroId 1 (done ++ [nextRecord c done a]) :=
  chained_append hchain (Nat.add_comm _ _) rfl

/-- What an append returns. -/
def appendResult (c : RefCodec) (cut : Option ℕ) (a : Append) (done : List LogRecord) :
    Except RefError (Option LogRecord) :=
  if done.getLast?.map LogRecord.snapshotId = some a.snapshotId then .ok done.getLast?
  else if maxRecord < (c.toVec (nextRecord c done a)).length then .error .recordTooLarge
  else if fileLimit ≤ (encodeLog c done).length + (frameBytes c (nextRecord c done a)).length then
    .error .fileTooLarge
  else .ok (if cut = none then some (nextRecord c done a) else none)

/-- **An append adds a record to the completed ones, or leaves them.** -/
theorem Inv.appendOrdered (h : Inv c s done) (truncated written : LogStat) (cut : Option ℕ)
    (a : Append) :
    ∃ s', RefLog.appendOrdered c truncated written cut a s = (appendResult c cut a done, s') ∧
      Inv c s' (completeAppend c cut a done) ∧
        (cut = none → s'.bytes = encodeLog c (completeAppend c none a done)) := by
  obtain ⟨s₁, hrun, hclean⟩ := h.openLog.ensureIndex truncated
  have hrecord : (framesOf c 0 done).getLast?.map DecodedRecord.record = done.getLast? := by
    rw [← List.getLast?_map, records_framesOf]
  have hsnapshot : (framesOf c 0 done).getLast?.map (fun frame => frame.record.snapshotId) =
      done.getLast?.map LogRecord.snapshotId := by
    rw [← hrecord, Option.map_map]
    rfl
  unfold RefLog.appendOrdered appendResult completeAppend
  rw [hrun]
  simp only [hclean.lastFrame, hsnapshot, record_eq_nextRecord h.chain, hrecord, hclean.bytes]
  by_cases hsame : done.getLast?.map LogRecord.snapshotId = some a.snapshotId
  · simp only [if_pos hsame]
    exact ⟨s₁, rfl, hclean.inv, fun _ => hclean.bytes⟩
  simp only [if_neg hsame]
  by_cases hlarge : maxRecord < (c.toVec (nextRecord c done a)).length
  · simp only [if_pos hlarge]
    exact ⟨s₁, rfl, hclean.inv, fun _ => hclean.bytes⟩
  simp only [if_neg hlarge]
  by_cases hfile : fileLimit ≤
      (encodeLog c done).length + (frameBytes c (nextRecord c done a)).length
  · simp only [if_pos hfile]
    exact ⟨s₁, rfl, hclean.inv, fun _ => hclean.bytes⟩
  simp only [if_neg hfile]
  have hsmall : (nextRecord c done a).Small c := Nat.le_of_not_lt hlarge
  have hroom : s₁.bytes.length + (frameBytes c (nextRecord c done a)).length < fileLimit := by
    rw [hclean.bytes]
    omega
  refine ⟨_, rfl, hclean.writeFrame hsmall (chained_nextRecord h.chain a) hroom written cut, ?_⟩
  rintro rfl
  show s₁.bytes ++ frameBytes c (nextRecord c done a) = _
  rw [if_neg (by simp), encodeLog_append, hclean.bytes]
  simp [encodeLog]

/-- **The records of a scan are the completed appends.** -/
theorem Inv.records (h : Inv c s done) (truncated : LogStat) :
    ∃ s', RefLog.records c truncated s = (.ok done, s') ∧ Clean c s' done := by
  obtain ⟨torn, hscan, htake⟩ := h.openLog.scan
  obtain ⟨-, -, hwhole, -⟩ := hscan.bounds (Nat.zero_le _)
  unfold RefLog.records
  simp only [(readRecords_eq_ok_iff c).mpr hscan, records_framesOf]
  refine ⟨_, rfl, h.clean ((bytes_truncate hwhole).trans htake) ⟨_, rfl, ?_⟩⟩
  exact indexOf_rewriteIndex c (hscan.fits (Nat.zero_le _) h.openLog.limit _)

/-- A reader leaves the completed appends. -/
theorem Inv.recent (h : Inv c s done) (truncated : LogStat) (limit : ℕ) :
    Inv c (RefLog.recent c truncated limit s).2 done ∧
      (limit ≠ 0 → s.log ≠ none →
        (RefLog.recent c truncated limit s).2.bytes = encodeLog c done) := by
  obtain ⟨s₁, hrun, hclean⟩ := h.ensureIndex truncated
  unfold RefLog.recent
  by_cases hnone : limit = 0 ∨ s.log = none
  · rw [if_pos hnone]
    exact ⟨h, fun hlimit hlog => absurd hnone (by simp [hlimit, hlog])⟩
  rw [if_neg hnone, hrun]
  simp only
  cases readRecentIndexed c s₁ limit with
  | ok found => exact ⟨hclean.inv, fun _ _ => hclean.bytes⟩
  | error e =>
    obtain ⟨torn, hscan, htake⟩ := hclean.inv.scan
    obtain ⟨s₂, hrebuild, hrestored⟩ :=
      rebuildIndex_restored hscan hclean.limit truncated s₁.index
    have hrebuild' : rebuildIndex c truncated s₁ = (.ok (), s₂) := hrebuild
    have hclean₂ := hclean.inv.clean (hrestored.bytes.trans htake) hrestored.index
    simp only [hrebuild']
    exact ⟨hclean₂.inv, fun _ _ => hclean₂.bytes⟩

/-- Records are found by their numbers, and the invariant stays. -/
theorem Inv.recordsAtSequences (h : Inv c s done) (truncated : LogStat) (sequences : List ℕ) :
    Inv c (RefLog.recordsAtSequences c truncated sequences s).2 done ∧
      (sequences ≠ [] → s.log ≠ none →
        (RefLog.recordsAtSequences c truncated sequences s).2.bytes = encodeLog c done) := by
  obtain ⟨s₁, hrun, hclean⟩ := h.ensureIndex truncated
  unfold RefLog.recordsAtSequences
  by_cases hnone : sequences = [] ∨ s.log = none
  · rw [if_pos hnone]
    exact ⟨h, fun hsequences hlog => absurd hnone (by simp [hsequences, hlog])⟩
  · rw [if_neg hnone, hrun]
    exact ⟨hclean.inv, fun _ _ => hclean.bytes⟩

/-! ## Runs -/

/-- What is done to a reference log.  `stat` is a change of what the file system says of it. -/
inductive Step
  | append (truncated written : LogStat) (cut : Option ℕ) (a : Append)
  | records (truncated : LogStat)
  | recent (truncated : LogStat) (limit : ℕ)
  | recordsAtSequences (truncated : LogStat) (sequences : List ℕ)
  | stat (stat : LogStat)

/-- A step. -/
def step (c : RefCodec) (s : RefFiles) : Step → RefFiles
  | .append truncated written cut a => (appendOrdered c truncated written cut a s).2
  | .records truncated => (RefLog.records c truncated s).2
  | .recent truncated limit => (RefLog.recent c truncated limit s).2
  | .recordsAtSequences truncated sequences =>
    (RefLog.recordsAtSequences c truncated sequences s).2
  | .stat stat => { s with stat := stat }

/-- **The appends that are completed by a step.** -/
def completed (c : RefCodec) (done : List LogRecord) : Step → List LogRecord
  | .append _ _ cut a => completeAppend c cut a done
  | _ => done

/-- The files of a new log. -/
def start (stat : LogStat) : RefFiles := ⟨none, none, stat⟩

/-- The invariant holds of a new log. -/
theorem inv_start (c : RefCodec) (stat : LogStat) : Inv c (start stat) [] where
  log := ⟨[], rfl, Or.inl rfl⟩
  small := by simp
  chain := trivial
  limit := by
    show 0 < fileLimit
    decide
  index := trivial

/-- **One step.** -/
theorem Inv.step (h : Inv c s done) (a : Step) :
    Inv c (RefLog.step c s a) (completed c done a) := by
  cases a with
  | append truncated written cut a =>
    obtain ⟨s', hrun, hinv, -⟩ := h.appendOrdered truncated written cut a
    show Inv c (RefLog.appendOrdered c truncated written cut a s).2 _
    rw [hrun]
    exact hinv
  | records truncated =>
    obtain ⟨s', hrun, hclean⟩ := h.records truncated
    show Inv c (RefLog.records c truncated s).2 _
    rw [hrun]
    exact hclean.inv
  | recent truncated limit => exact (h.recent truncated limit).1
  | recordsAtSequences truncated sequences => exact (h.recordsAtSequences truncated sequences).1
  | stat stat => exact ⟨h.log, h.small, h.chain, h.limit, h.index⟩

/-- The invariant holds after any steps. -/
theorem inv_run (c : RefCodec) (stat : LogStat) (steps : List Step) :
    Inv c (steps.foldl (RefLog.step c) (start stat)) (steps.foldl (completed c) []) := by
  have hgeneral : ∀ s done, Inv c s done →
      Inv c (steps.foldl (RefLog.step c) s) (steps.foldl (completed c) done) := by
    induction steps with
    | nil => exact fun s done h => h
    | cons a steps ih => exact fun s done h => ih _ _ (h.step a)
  exact hgeneral _ _ (inv_start c stat)

end RefLog

/-- **The reference log is a faithful chain.**  After any appends and reads, with appends cut at
any byte: a scan returns exactly the completed appends, which are numbered from one without a gap
and chained by the hashes of their frames; the next operation drops what was cut; and an append
returns the record that it has added, or the last one if its snapshot is that already, which adds
none. -/
theorem refLog_faithful (c : RefCodec) (stat : LogStat) (steps : List RefLog.Step)
    (truncated : LogStat) :
    let s := steps.foldl (RefLog.step c) (RefLog.start stat)
    let done := steps.foldl (RefLog.completed c) []
    (RefLog.records c truncated s).1 = .ok done ∧ Chained c zeroId 1 done ∧
      (RefLog.records c truncated s).2.bytes = encodeLog c done ∧
      (∀ limit, limit ≠ 0 → s.log ≠ none →
        (RefLog.recent c truncated limit s).2.bytes = encodeLog c done) ∧
      (∀ sequences, sequences ≠ [] → s.log ≠ none →
        (RefLog.recordsAtSequences c truncated sequences s).2.bytes = encodeLog c done) ∧
      ∀ written a,
        (RefLog.appendOrdered c truncated written none a s).2.bytes =
          encodeLog c (RefLog.completeAppend c none a done) ∧
        (∀ r, (RefLog.appendOrdered c truncated written none a s).1 = .ok (some r) →
          (RefLog.completeAppend c none a done).getLast? = some r) ∧
        ∀ last, done.getLast? = some last → last.snapshotId = a.snapshotId →
          RefLog.completeAppend c none a done = done ∧
            (RefLog.appendOrdered c truncated written none a s).1 = .ok (some last) := by
  intro s done
  have h : RefLog.Inv c s done := RefLog.inv_run c stat steps
  obtain ⟨s₁, hrecords, hclean⟩ := h.records truncated
  refine ⟨by rw [hrecords], h.chain, by rw [hrecords]; exact hclean.bytes,
    fun limit => (h.recent truncated limit).2,
    fun sequences => (h.recordsAtSequences truncated sequences).2, fun written a => ?_⟩
  obtain ⟨s₂, happend, -, hbytes⟩ := h.appendOrdered truncated written none a
  refine ⟨by rw [happend]; exact hbytes rfl, fun r hr => ?_, fun last hlast hsame => ?_⟩
  · rw [happend] at hr
    have hresult : RefLog.appendResult c none a done = .ok (some r) := hr
    unfold RefLog.appendResult at hresult
    unfold RefLog.completeAppend
    simp only [if_true, Option.any_none, Bool.false_eq_true, if_false] at hresult ⊢
    split_ifs at hresult ⊢ with hsame hlarge hfile
    · exact Except.ok.inj hresult
    · rw [List.getLast?_concat]
      exact Except.ok.inj hresult
  · have hsame' : done.getLast?.map LogRecord.snapshotId = some a.snapshotId := by
      rw [hlast, Option.map_some, hsame]
    refine ⟨if_pos hsame', ?_⟩
    rw [happend]
    show RefLog.appendResult c none a done = _
    unfold RefLog.appendResult
    rw [if_pos hsame', hlast]

end Codec

end Furrow
