import Furrow.Refs.Answers

set_option relaxedAutoImplicit false
set_option autoImplicit false

/-!
# Repair of the reference log

`repair_suffix` of `refs.rs`: after a power loss the frames of a log are checked one after the
other, and the log is cut before the first that is not to be trusted.  Below the durable length
nothing is cut; there a frame that is not valid is an error.

## Main definitions

* `Furrow.RefLog.repairLoop`, `Furrow.RefLog.repairSuffix` — the repair.
* `Furrow.RefLog.Trusted` — frames that are to be trusted.

## Main results

* `Furrow.RefLog.found_repairLoop` — the loop finds the longest sequence of such frames.
* `Furrow.RefLog.repairSuffix_longest` — the repair leaves it, or fails and changes nothing.
-/

namespace Furrow

/-- Why a log is not repaired. -/
inductive RepairError (ε : Type)
  /-- `durable reference prefix was lost` -/
  | prefixLost
  /-- `durable reference prefix is corrupt` -/
  | prefixCorrupt
  /-- An error of the test whether a snapshot is present. -/
  | present (e : ε)
deriving DecidableEq

namespace RefLog

variable (c : RefCodec) {ε : Type}

/-- The loop of `repair_suffix`: the frames, and where the log is cut if it is.  Every frame is
longer than a byte, so the length of the file is enough fuel. -/
def repairLoop (file : Bytes) (durableLen : ℕ) (present : ObjectId → Except ε Bool) :
    ℕ → ℕ → ObjectId → ℕ → Except (RepairError ε) (List DecodedRecord × Option ℕ)
  | 0, _, _, _ => .ok ([], none)
  | fuel + 1, offset, previous, sequence =>
    if offset < file.length then
      let cut : Except (RepairError ε) (List DecodedRecord × Option ℕ) :=
        if durableLen ≤ offset then .ok ([], some offset) else .error .prefixCorrupt
      match readFrameAt c file offset with
      | .ok (some frame) =>
        if frame.record.sequence = sequence ∧ frame.record.previousFrame = previous then
          match if offset < durableLen then .ok true else present frame.record.snapshotId with
          | .error e => .error (.present e)
          | .ok false => cut
          | .ok true =>
            match repairLoop file durableLen present fuel frame.stop frame.frameHash
              (sequence + 1) with
            | .error e => .error e
            | .ok (frames, stop) => .ok (frame :: frames, stop)
        else cut
      | _ => cut
    else .ok ([], none)

/-- **Drop what is not to be trusted of the suffix after the durable length** (`repair_suffix`).
`truncated` is what the file system says of the log after it was cut. -/
def repairSuffix (durableLen : ℕ) (present : ObjectId → Except ε Bool) (truncated : LogStat)
    (s : RefFiles) : Except (RepairError ε) Bool × RefFiles :=
  let s := openLog s
  if s.bytes.length < durableLen then (.error .prefixLost, s)
  else
    match repairLoop c s.bytes durableLen present (s.bytes.length + 1) 0 zeroId 1 with
    | .error e => (.error e, s)
    | .ok (_, none) => (.ok false, s)
    | .ok (frames, some offset) =>
      let s := truncate s offset true truncated
      (.ok true, { s with index := some (rewriteIndex c s.stat frames) })

/-- Frames that are to be trusted: they are one after the other, numbered without a gap and chained
by their hashes, and those that start at or after the durable length name a snapshot that is
present. -/
inductive Trusted (file : Bytes) (durableLen : ℕ) (present : ObjectId → Bool) :
    ℕ → ObjectId → ℕ → List DecodedRecord → ℕ → Prop
  | nil (offset : ℕ) (previous : ObjectId) (sequence : ℕ) :
      Trusted file durableLen present offset previous sequence [] offset
  | frame {offset : ℕ} {previous : ObjectId} {sequence : ℕ} {d : DecodedRecord}
      {ds : List DecodedRecord} {stop : ℕ} (h : readFrameAt c file offset = .ok (some d))
      (hsequence : d.record.sequence = sequence) (hprevious : d.record.previousFrame = previous)
      (hpresent : offset < durableLen ∨ present d.record.snapshotId = true)
      (hrest : Trusted file durableLen present d.stop d.frameHash (sequence + 1) ds stop) :
      Trusted file durableLen present offset previous sequence (d :: ds) stop

section Trusting

variable {c} {file : Bytes} {durableLen offset sequence stop : ℕ} {present : ObjectId → Bool}
  {previous : ObjectId} {ds : List DecodedRecord}

/-- Where trusted frames end. -/
theorem Trusted.bounds (h : Trusted c file durableLen present offset previous sequence ds stop)
    (hoffset : offset ≤ file.length) :
    offset ≤ stop ∧ stop ≤ file.length ∧ ∀ d ∈ ds, d.start ≤ d.stop ∧ d.stop ≤ stop := by
  induction h with
  | nil => exact ⟨le_rfl, hoffset, by simp⟩
  | frame h _ _ _ _ ih =>
    obtain ⟨hstart, -, hfile, -⟩ := readFrameAt_eq_some c h
    have hlt := stop_of_readFrameAt c h
    obtain ⟨hlo, hhi, hmem⟩ := ih hfile
    refine ⟨by omega, hhi, fun d' hd' => ?_⟩
    rcases List.mem_cons.mp hd' with rfl | hd'
    · omega
    · exact hmem d' hd'

/-- Trusted frames are found in the log without what follows them. -/
theorem Trusted.take (h : Trusted c file durableLen present offset previous sequence ds stop)
    {len : ℕ} (hlen : stop ≤ len) (hoffset : offset ≤ file.length) :
    Trusted c (file.take len) durableLen present offset previous sequence ds stop := by
  induction h with
  | nil => exact .nil _ _ _
  | frame h hsequence hprevious hpresent hrest ih =>
    obtain ⟨-, -, hfile, hagain⟩ := readFrameAt_eq_some c h
    have hstop := (hrest.bounds hfile).1
    exact .frame (hagain len (hstop.trans hlen)) hsequence hprevious hpresent (ih hlen hfile)

/-- What is trusted in a part of the log is trusted in it. -/
theorem Trusted.of_take {len : ℕ}
    (h : Trusted c (file.take len) durableLen present offset previous sequence ds stop) :
    Trusted c file durableLen present offset previous sequence ds stop := by
  induction h with
  | nil => exact .nil _ _ _
  | frame h hsequence hprevious hpresent _ ih =>
    exact .frame (readFrameAt_of_take h) hsequence hprevious hpresent ih

/-- The test of the loop at an offset. -/
def trustedAt (c : RefCodec) (file : Bytes) (durableLen : ℕ) (present : ObjectId → Bool)
    (offset : ℕ) (previous : ObjectId) (sequence : ℕ) (d : DecodedRecord) : Prop :=
  readFrameAt c file offset = .ok (some d) ∧ d.record.sequence = sequence ∧
    d.record.previousFrame = previous ∧ (offset < durableLen ∨ present d.record.snapshotId = true)

/-- Trusted frames begin with a frame that passes the test. -/
theorem Trusted.cases' (h : Trusted c file durableLen present offset previous sequence ds stop) :
    (ds = [] ∧ stop = offset) ∨
      ∃ d rest, trustedAt c file durableLen present offset previous sequence d ∧ ds = d :: rest ∧
        Trusted c file durableLen present d.stop d.frameHash (sequence + 1) rest stop := by
  cases h with
  | nil => exact Or.inl ⟨rfl, rfl⟩
  | frame h hsequence hprevious hpresent hrest =>
    exact Or.inr ⟨_, _, ⟨h, hsequence, hprevious, hpresent⟩, rfl, hrest⟩

/-- One turn of the loop: it goes on behind a frame that passes the test. -/
theorem repairLoop_of_trustedAt {fuel : ℕ} {d : DecodedRecord} (hlt : offset < file.length)
    (h : trustedAt c file durableLen present offset previous sequence d) :
    repairLoop c file durableLen (fun id => (.ok (present id) : Except ε Bool))
      (fuel + 1) offset previous
        sequence =
      match repairLoop c file durableLen (fun id => (.ok (present id) : Except ε Bool)) fuel d.stop
        d.frameHash (sequence + 1) with
      | .error e => .error e
      | .ok (frames, stop) => .ok (d :: frames, stop) := by
  obtain ⟨hread, hsequence, hprevious, hpresent⟩ := h
  have htest : (if offset < durableLen then .ok true else
      (.ok (present d.record.snapshotId) : Except ε Bool)) = .ok true := by
    split_ifs with hdurable
    · rfl
    · rw [hpresent.resolve_left hdurable]
  rw [repairLoop, if_pos hlt]
  simp only [hread, hsequence, hprevious, and_self, if_true, htest]

/-- One turn of the loop: otherwise the log is cut, or it is an error. -/
theorem repairLoop_of_not_trustedAt {fuel : ℕ} (hlt : offset < file.length)
    (h : ∀ d, ¬ trustedAt c file durableLen present offset previous sequence d) :
    repairLoop c file durableLen (fun id => (.ok (present id) : Except ε Bool))
      (fuel + 1) offset previous
        sequence =
          if durableLen ≤ offset then .ok ([], some offset) else .error .prefixCorrupt := by
  rw [repairLoop, if_pos hlt]
  simp only
  split
  · next d hread =>
    split
    · next hchain =>
      by_cases hdurable : offset < durableLen
      · exact absurd ⟨hread, hchain.1, hchain.2, Or.inl hdurable⟩ (h d)
      · have hpresent : present d.record.snapshotId = false := by
          rw [← Bool.not_eq_true]
          exact fun hp => h d ⟨hread, hchain.1, hchain.2, Or.inr hp⟩
        simp only [hdurable, if_false, hpresent]
    · rfl
  · rfl

/-- What the loop finds: all frames up to the end, the longest sequence of trusted frames and where
it ends, or that there is none up to the durable length. -/
def Found (c : RefCodec) (file : Bytes) (durableLen : ℕ) (present : ObjectId → Bool) (offset : ℕ)
    (previous : ObjectId) (sequence : ℕ) :
    Except (RepairError ε) (List DecodedRecord × Option ℕ) → Prop
  | .ok (ds, none) => Trusted c file durableLen present offset previous sequence ds file.length
  | .ok (ds, some stop) => Trusted c file durableLen present offset previous sequence ds stop ∧
      durableLen ≤ stop ∧ stop < file.length ∧
      ∀ ds' stop', Trusted c file durableLen present offset previous sequence ds' stop' →
        stop' ≤ stop
  | .error .prefixCorrupt =>
      ∀ ds' stop', Trusted c file durableLen present offset previous sequence ds' stop' →
        stop' < durableLen
  | .error _ => False

/-- **The loop finds the longest sequence of trusted frames.** -/
theorem found_repairLoop {fuel : ℕ} (hoffset : offset ≤ file.length)
    (hfuel : file.length < offset + fuel) : Found c file durableLen present offset previous sequence
      (repairLoop c file durableLen (fun id => (.ok (present id) : Except ε Bool))
        fuel offset previous
        sequence) := by
  induction fuel generalizing offset previous sequence with
  | zero => omega
  | succ fuel ih =>
    by_cases hlt : offset < file.length
    · by_cases hd : ∃ d, trustedAt c file durableLen present offset previous sequence d
      · obtain ⟨d, hd⟩ := hd
        obtain ⟨hread, hsequence, hprevious, hpresent⟩ := hd
        obtain ⟨-, -, hfile, -⟩ := readFrameAt_eq_some c hread
        have hstop := stop_of_readFrameAt c hread
        -- trusted frames from here on begin with this one
        have hnext :
            ∀ ds' stop', Trusted c file durableLen present offset previous sequence ds' stop' →
              stop' = offset ∨
              ∃ rest,
                Trusted c file durableLen present d.stop d.frameHash (sequence + 1) rest stop' := by
          intro ds' stop' h'
          rcases h'.cases' with ⟨-, hnil⟩ | ⟨d', rest, hd', -, hrest⟩
          · exact Or.inl hnil
          · have heq := hd'.1.symm.trans hread
            simp only [Except.ok.injEq, Option.some.injEq] at heq
            subst heq
            exact Or.inr ⟨rest, hrest⟩
        have hfound := @ih d.stop (sequence + 1) d.frameHash hfile (by omega)
        rw [repairLoop_of_trustedAt hlt ⟨hread, hsequence, hprevious, hpresent⟩]
        generalize repairLoop c file durableLen (fun id => (.ok (present id) : Except ε Bool)) fuel
          d.stop d.frameHash (sequence + 1) = result at hfound
        rcases result with (- | - | e) | ⟨ds, - | stop⟩
        · exact hfound.elim
        · intro ds' stop' h'
          rcases hnext ds' stop' h' with rfl | ⟨rest, hrest⟩
          · have := hfound [] d.stop (.nil _ _ _)
            omega
          · exact hfound rest stop' hrest
        · exact hfound.elim
        · exact .frame hread hsequence hprevious hpresent hfound
        · obtain ⟨htrusted, hdurable, hend, hlongest⟩ := hfound
          refine ⟨.frame hread hsequence hprevious hpresent htrusted, hdurable, hend, ?_⟩
          intro ds' stop' h'
          rcases hnext ds' stop' h' with rfl | ⟨rest, hrest⟩
          · have := hlongest [] d.stop (.nil _ _ _)
            omega
          · exact hlongest rest stop' hrest
      · have hnone : ∀ d, ¬ trustedAt c file durableLen present offset previous sequence d :=
          fun d hd' => hd ⟨d, hd'⟩
        have hstay :
            ∀ ds' stop', Trusted c file durableLen present offset previous sequence ds' stop' →
              stop' = offset := by
          intro ds' stop' h'
          rcases h'.cases' with ⟨-, hnil⟩ | ⟨d, -, hd', -⟩
          · exact hnil
          · exact absurd hd' (hnone d)
        rw [repairLoop_of_not_trustedAt hlt hnone]
        split_ifs with hdurable
        · exact ⟨.nil _ _ _, hdurable, hlt, fun ds' stop' h' => (hstay ds' stop' h').le⟩
        · intro ds' stop' h'
          rw [hstay ds' stop' h']
          exact not_le.mp hdurable
    · have heq : offset = file.length := by omega
      rw [repairLoop, if_neg hlt]
      show Trusted c file durableLen present offset previous sequence [] file.length
      rw [heq]
      exact .nil _ _ _

/-- A log of trusted frames is gone through to its end. -/
theorem Trusted.repairLoop {fuel : ℕ}
    (h : Trusted c file durableLen present offset previous sequence ds file.length)
    (hoffset : offset ≤ file.length) (hfuel : file.length < offset + fuel) :
    RefLog.repairLoop c file durableLen
      (fun id => (.ok (present id) : Except ε Bool)) fuel offset previous
      sequence = .ok (ds, none) := by
  induction fuel generalizing offset previous sequence ds with
  | zero => omega
  | succ fuel ih =>
    rcases h.cases' with ⟨rfl, rfl⟩ | ⟨d, rest, hd, rfl, hrest⟩
    · rw [RefLog.repairLoop, if_neg (lt_irrefl _)]
    · obtain ⟨-, -, hfile, -⟩ := readFrameAt_eq_some c hd.1
      have hstop := stop_of_readFrameAt c hd.1
      rw [repairLoop_of_trustedAt (by omega) hd, ih hrest hfile (by omega)]

/-- Trusted frames have a place in the index. -/
theorem Trusted.fits (h : Trusted c file durableLen present offset previous sequence ds stop)
    (hoffset : offset ≤ file.length) (hlimit : file.length < fileLimit) (stat : LogStat) :
    ∀ d ∈ ds, (IndexRecord.new stat d).Fits := by
  intro d hd
  obtain ⟨-, hfile, hmem⟩ := h.bounds hoffset
  obtain ⟨hstart, hstop⟩ := hmem d hd
  constructor
  · exact hstart
  · show d.stop < fileLimit
    omega

/-- The log without what is not trusted is gone through to its end. -/
theorem Trusted.repairSuffix {s : RefFiles}
    (htrusted : Trusted c s.bytes durableLen present 0 zeroId 1 ds s.bytes.length)
    (hdurable : durableLen ≤ s.bytes.length) (truncated : LogStat) :
    RefLog.repairSuffix c durableLen (fun id => (.ok (present id) : Except ε Bool)) truncated s =
      (.ok false, openLog s) := by
  have hloop :=
    @Trusted.repairLoop c ε s.bytes durableLen 0 1 present zeroId ds (s.bytes.length + 1) htrusted
      (Nat.zero_le _) (by omega)
  unfold RefLog.repairSuffix
  simp only [show (openLog s).bytes = s.bytes from rfl, if_neg (not_lt.mpr hdurable), hloop]

end Trusting

variable {c}

/-- **The repair keeps exactly the trustworthy prefix.**  It fails and leaves the log unchanged only
if the bytes below the durable length are short or not a chain of frames; otherwise it leaves the
longest sequence of trusted frames and nothing below the durable length is lost.  If something was
cut the index is one of the frames that are left, and else it is as it was.  A second call changes
nothing. -/
theorem repairSuffix_longest (durableLen : ℕ) (present : ObjectId → Bool)
    (truncated truncated' : LogStat) {s : RefFiles} (hlimit : s.bytes.length < fileLimit) :
    let done := repairSuffix c durableLen (fun id => (.ok (present id) : Except ε Bool)) truncated s
    (∀ e, done.1 = .error e → done.2 = openLog s ∧ (s.bytes.length < durableLen ∨
      ¬ ∃ ds, Trusted c (s.bytes.take durableLen) durableLen present 0 zeroId 1 ds durableLen)) ∧
    (∀ cut, done.1 = .ok cut → ∃ ds,
      Trusted c s.bytes durableLen present 0 zeroId 1 ds done.2.bytes.length ∧
      done.2.bytes = s.bytes.take done.2.bytes.length ∧
      (∀ ds' stop', Trusted c s.bytes durableLen present 0 zeroId 1 ds' stop' →
        stop' ≤ done.2.bytes.length) ∧
      durableLen ≤ done.2.bytes.length ∧
      (cut = true → ∃ b, done.2.index = some b ∧ IndexOf c ds b) ∧
      (cut = false → done.2 = openLog s) ∧
      repairSuffix c durableLen (fun id => (.ok (present id) : Except ε Bool)) truncated' done.2 =
        (.ok false, done.2)) := by
  intro done
  have hbytes : (openLog s).bytes = s.bytes := rfl
  by_cases hshort : s.bytes.length < durableLen
  · have hdone : done = (.error .prefixLost, openLog s) := by
      simp only [done, repairSuffix, hbytes, if_pos hshort]
    rw [hdone]
    exact ⟨fun e _ => ⟨rfl, Or.inl hshort⟩, fun cut h => by cases h⟩
  have hfound := @found_repairLoop c ε s.bytes durableLen 0 1 present zeroId (s.bytes.length + 1)
    (Nat.zero_le _) (by omega)
  rcases hloop : repairLoop c s.bytes durableLen (fun id => (.ok (present id) : Except ε Bool))
    (s.bytes.length + 1) 0 zeroId 1 with e | ⟨ds, - | stop⟩
  · have hdone : done = (.error e, openLog s) := by
      simp only [done, repairSuffix, hbytes, if_neg hshort, hloop]
    rw [hdone]
    refine ⟨fun e' _ => ⟨rfl, Or.inr ?_⟩, fun cut h => by cases h⟩
    rintro ⟨ds, htrusted⟩
    rw [hloop] at hfound
    cases e with
    | prefixCorrupt => exact absurd (hfound ds durableLen htrusted.of_take) (lt_irrefl _)
    | prefixLost => exact hfound
    | present e => exact hfound
  · have hdone : done = (.ok false, openLog s) := by
      simp only [done, repairSuffix, hbytes, if_neg hshort, hloop]
    rw [hloop] at hfound
    rw [hdone]
    refine ⟨fun e h => (by cases h), fun cut h => ⟨ds, hfound, ?_, ?_, ?_, ?_, fun _ => rfl, ?_⟩⟩
    · exact (List.take_length).symm
    · exact fun ds' stop' h' => (h'.bounds (Nat.zero_le _)).2.1
    · exact not_lt.mp hshort
    · rintro rfl
      cases h
    · exact Trusted.repairSuffix (s := openLog s) hfound (not_lt.mp hshort) truncated'
  · rw [hloop] at hfound
    obtain ⟨htrusted, hdurable, hend, hlongest⟩ := hfound
    have hdone : done = (.ok true, ⟨some (s.bytes.take stop), some (rewriteIndex c truncated ds),
        truncated⟩) := by
      simp only [done, repairSuffix, hbytes, if_neg hshort, hloop]
      rfl
    have hlen : (s.bytes.take stop).length = stop := by
      rw [List.length_take, min_eq_left hend.le]
    rw [hdone]
    refine ⟨fun e h => (by cases h), fun cut h => ⟨ds, ?_, ?_, ?_, ?_, fun _ => ?_, ?_, ?_⟩⟩
    · show Trusted c s.bytes durableLen present 0 zeroId 1 ds (s.bytes.take stop).length
      rw [hlen]
      exact htrusted
    · show s.bytes.take stop = s.bytes.take (s.bytes.take stop).length
      rw [hlen]
    · intro ds' stop' h'
      show stop' ≤ (s.bytes.take stop).length
      rw [hlen]
      exact hlongest ds' stop' h'
    · show durableLen ≤ (s.bytes.take stop).length
      rw [hlen]
      exact hdurable
    · exact ⟨_, rfl, indexOf_rewriteIndex c (htrusted.fits (Nat.zero_le _) hlimit truncated)⟩
    · rintro rfl
      cases h
    · apply Trusted.repairSuffix
      · show Trusted c (s.bytes.take stop) durableLen present 0 zeroId 1 ds
          (s.bytes.take stop).length
        rw [hlen]
        exact htrusted.take le_rfl (Nat.zero_le _)
      · show durableLen ≤ (s.bytes.take stop).length
        rw [hlen]
        exact hdurable

/-- A log of two records, the second of which is of a snapshot that is not there: the first is
kept. -/
theorem repairSuffix_longest_missing :
    ∃ ds, Trusted sampleCodec sampleRefLog.bytes 0 (fun id => decide (id = .fill 7)) 0 zeroId 1 ds
        (repairSuffix sampleCodec 0 (fun id => (.ok (decide (id = .fill 7)) : Except Unit Bool))
          sampleStat sampleRefLog).2.bytes.length ∧
      (repairSuffix sampleCodec 0 (fun id => (.ok (decide (id = .fill 7)) : Except Unit Bool))
        sampleStat sampleRefLog).2.bytes.length = 111 := by
  have hlimit : sampleRefLog.bytes.length < fileLimit := by decide +kernel
  have hcut : (repairSuffix sampleCodec 0
      (fun id => (.ok (decide (id = .fill 7)) : Except Unit Bool)) sampleStat sampleRefLog).1 =
        .ok true := by decide +kernel
  obtain ⟨ds, htrusted, -⟩ := (repairSuffix_longest 0 (fun id => decide (id = .fill 7)) sampleStat
    sampleStat hlimit).2 true hcut
  exact ⟨ds, htrusted, by decide +kernel⟩

/-- The log without its index. -/
def sampleUnindexed : RefFiles := { sampleRefLog with index := none }

/-- All records are to be trusted: the repair succeeds, and there is still no index. -/
theorem repairSuffix_keeps_index :
    (repairSuffix sampleCodec 0 (fun _ => (.ok true : Except Unit Bool)) sampleStat
        sampleUnindexed).1 = .ok false ∧
      ¬ ∃ ds b, (repairSuffix sampleCodec 0 (fun _ => (.ok true : Except Unit Bool)) sampleStat
        sampleUnindexed).2.index = some b ∧ IndexOf sampleCodec ds b := by
  refine ⟨by decide +kernel, ?_⟩
  rintro ⟨ds, b, hindex, -⟩
  have hnone : (repairSuffix sampleCodec 0 (fun _ => (.ok true : Except Unit Bool)) sampleStat
      sampleUnindexed).2.index = none := by decide +kernel
  rw [hnone] at hindex
  cases hindex

end RefLog

end Furrow
