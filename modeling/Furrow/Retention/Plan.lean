import Mathlib
import Furrow.Lib.OrdMap
import Furrow.Model

set_option relaxedAutoImplicit false
set_option autoImplicit false

/-!
# Retention of published snapshots

`retention.rs`: the log of references is never thinned, but a plan says which of its snapshots
are retained at a time.  All of the last day are; older ones are put into buckets, by the hour,
by the day and by the week as they age, and the newest of a bucket is retained.  Pinned
snapshots and the last one are retained in any case.

## Main definitions

* `Furrow.RefRecord`, `Furrow.Pin`, `Furrow.RetentionState` — the data.
* `Furrow.bucketKey` — the bucket of a record at a time.
* `Furrow.planState`, `Furrow.RetentionState.retains` — the plan and what it retains.
* `Furrow.applyRetention`, `Furrow.pinSnapshot`, `Furrow.unpinSnapshot` — the writes of the log.

## Main results

* `Furrow.mem_plannedSequences_iff` — what a plan retains, in terms of the records.
* `Furrow.inRanges_compressSequences` — ranges hold the sequences they were made of.
* `Furrow.bucketKey_eq_of_not_separated` — two records of one bucket stay in one bucket unless a
  cut-off separates them.
-/

namespace Furrow

/-- A published reference. -/
structure RefRecord where
  sequence : ℕ
  snapshotId : ObjectId
  sealedAt : ℤ
deriving DecidableEq

/-- A pinned snapshot. -/
structure Pin where
  sequence : ℕ
  snapshotId : ObjectId
deriving DecidableEq

/-- A range of sequences, both ends included. -/
structure SequenceRange where
  first : ℕ
  last : ℕ
deriving DecidableEq

/-- The state of the retention log: what the last plan retained of the records up to
`evaluatedThrough`, and the pins. -/
structure RetentionState where
  eventSequence : ℕ
  evaluatedThrough : ℕ
  evaluatedAt : ℤ
  retained : List SequenceRange
  pins : List Pin
deriving DecidableEq

/-- The state of an empty log. -/
def RetentionState.initial : RetentionState := ⟨0, 0, 0, [], []⟩

/-! ## Buckets -/

/-- `HOUR` -/
def hourSecs : ℤ := 60 * 60

/-- `DAY` -/
def daySecs : ℤ := 24 * hourSecs

/-- `WEEK` -/
def weekSecs : ℤ := 7 * daySecs

/-- `ALL_SNAPSHOTS_WINDOW` -/
def allSnapshotsWindow : ℤ := daySecs

/-- `HOURLY_WINDOW` -/
def hourlyWindow : ℤ := 7 * daySecs

/-- `DAILY_WINDOW` -/
def dailyWindow : ℤ := 90 * daySecs

/-- The width of a bucket. -/
inductive Tier
  | Hour
  | Day
  | Week
deriving DecidableEq

namespace Tier

/-- The place of a tier in the order. -/
def rank : Tier → ℕ
  | Hour => 0
  | Day => 1
  | Week => 2

/-- Tiers of equal rank are equal. -/
theorem rank_injective : Function.Injective rank := by
  intro a b h
  cases a <;> cases b <;> first | rfl | exact absurd h (by decide)

instance : LinearOrder Tier := LinearOrder.lift' rank rank_injective

/-- The width in seconds. -/
def width : Tier → ℤ
  | Hour => hourSecs
  | Day => daySecs
  | Week => weekSecs

end Tier

/-- `i64::saturating_sub` -/
def saturatingSub (a b : ℤ) : ℤ := max (-2 ^ 63) (min (2 ^ 63 - 1) (a - b))

/-- A difference is compared with a small bound as it is without the saturation. -/
theorem saturatingSub_le_iff {a b c : ℤ} (hlow : -2 ^ 63 ≤ c) (hhigh : c < 2 ^ 63 - 1) :
    saturatingSub a b ≤ c ↔ a - b ≤ c := by
  unfold saturatingSub
  omega

/-- The age of a record. -/
def RefRecord.age (r : RefRecord) (now : ℤ) : ℤ := saturatingSub now r.sealedAt

/-- Whether every record of this age is retained. -/
def RefRecord.recent (r : RefRecord) (now : ℤ) : Bool :=
  r.age now ≤ allSnapshotsWindow ∨ r.age now < 0

/-- The tier of a record that is not recent. -/
def RefRecord.tier (r : RefRecord) (now : ℤ) : Tier :=
  if r.age now ≤ hourlyWindow then .Hour
  else if r.age now ≤ dailyWindow then .Day
  else .Week

/-- The bucket of a record that is not recent: its tier and the index of its time there. -/
def bucketKey (now : ℤ) (r : RefRecord) : Tier ×ₗ ℤ :=
  toLex (r.tier now, r.sealedAt / (r.tier now).width)

/-- The record that the newer of two has after it: by the time of sealing, then by sequence. -/
def RefRecord.Newer (a b : RefRecord) : Prop :=
  a.sealedAt < b.sealedAt ∨ (a.sealedAt = b.sealedAt ∧ a.sequence < b.sequence)

instance (a b : RefRecord) : Decidable (a.Newer b) := by
  unfold RefRecord.Newer
  infer_instance

/-! ## The plan -/

/-- What the loop over the records carries: the sequences retained as they are, the newest
record of each bucket so far, and the last sequence. -/
structure PlanLoop where
  retained : OrdMap ℕ Unit
  buckets : OrdMap (Tier ×ₗ ℤ) RefRecord
  evaluatedThrough : ℕ

/-- One record of the loop. -/
def PlanLoop.visit (now : ℤ) (pinned : List ℕ) (loop : PlanLoop) (r : RefRecord) : PlanLoop :=
  let loop := { loop with evaluatedThrough := r.sequence }
  if r.recent now ∨ r.sequence ∈ pinned then
    { loop with retained := loop.retained.insert r.sequence () }
  else
    let key := bucketKey now r
    match loop.buckets.get? key with
    | none => { loop with buckets := loop.buckets.insert key r }
    | some existing =>
      if existing.Newer r then { loop with buckets := loop.buckets.insert key r } else loop

/-- The loop over a log. -/
def planLoop (now : ℤ) (pinned : List ℕ) (records : List RefRecord) : PlanLoop :=
  records.foldl (PlanLoop.visit now pinned) ⟨.empty, .empty, 0⟩

/-- The sequences a plan retains. -/
def plannedSequences (now : ℤ) (records : List RefRecord) (pins : List Pin) : OrdMap ℕ Unit :=
  let pinned := pins.map Pin.sequence
  let loop := planLoop now pinned records
  let winners := loop.buckets.toList.map fun p => p.2.sequence
  let last := if 0 < loop.evaluatedThrough then [loop.evaluatedThrough] else []
  loop.retained.foldInsert ((winners ++ pinned ++ last).map fun s => (s, ()))

/-- Add a sequence to ranges of smaller ones; the last range is at the front. -/
def pushSequence (ranges : List SequenceRange) (s : ℕ) : List SequenceRange :=
  match ranges with
  | ⟨first, last⟩ :: rest =>
    if last + 1 = s then ⟨first, s⟩ :: rest else ⟨s, s⟩ :: ⟨first, last⟩ :: rest
  | [] => [⟨s, s⟩]

/-- Increasing sequences as ranges (`compress_sequences`). -/
def compressSequences (sequences : List ℕ) : List SequenceRange :=
  (sequences.foldl pushSequence []).reverse

/-- **The plan** (`plan_state`). -/
def planState (records : List RefRecord) (now : ℤ) (pins : List Pin) : RetentionState where
  eventSequence := 0
  evaluatedThrough := (planLoop now (pins.map Pin.sequence) records).evaluatedThrough
  evaluatedAt := now
  retained := compressSequences (plannedSequences now records pins).keys
  pins := pins

namespace RetentionState

/-- Whether a range holds a sequence; the ranges are ordered, so that the source looks it up with
a binary search. -/
def retainsInRanges (state : RetentionState) (s : ℕ) : Bool :=
  state.retained.any fun r => r.first ≤ s ∧ s ≤ r.last

/-- `RetentionState::is_pinned`. -/
def isPinned (state : RetentionState) (id : ObjectId) : Bool :=
  state.pins.any fun pin => pin.snapshotId = id

/-- Whether a published snapshot is retained. -/
def retains (state : RetentionState) (s : ℕ) (id : ObjectId) : Bool :=
  state.evaluatedThrough < s || state.retainsInRanges s ||
    (state.pins.any fun pin => pin.sequence = s) || state.isPinned id

end RetentionState

/-! ## The retention log -/

/-- `same_policy_state` -/
def samePolicyState (left right : RetentionState) : Bool :=
  left.evaluatedThrough = right.evaluatedThrough ∧ left.retained = right.retained ∧
    left.pins = right.pins

/-- Evaluate the policy and write the new state, unless it says the same
(`RetentionLog::apply`). -/
def applyRetention (records : List RefRecord) (now : ℤ) (current : RetentionState) :
    RetentionState :=
  let planned := planState records now current.pins
  if samePolicyState current planned then current
  else { planned with eventSequence := current.eventSequence + 1 }

/-- The last record of a snapshot (`RefLog::find`). -/
def findRecord (records : List RefRecord) (id : ObjectId) : Option RefRecord :=
  records.reverse.find? fun r => r.snapshotId = id

/-- Pin a snapshot of the log (`RetentionLog::pin`); nothing to do if it is pinned, and none if
the log does not have it. -/
def pinSnapshot (records : List RefRecord) (id : ObjectId) (state : RetentionState) :
    Option RetentionState :=
  match findRecord records id with
  | none => none
  | some r =>
    if state.isPinned id then some state
    else
      some { state with
        pins := List.insertionSort (fun p q : Pin => p.sequence ≤ q.sequence)
          (state.pins ++ [⟨r.sequence, id⟩])
        eventSequence := state.eventSequence + 1 }

/-- `RetentionLog::unpin` -/
def unpinSnapshot (id : ObjectId) (state : RetentionState) : RetentionState :=
  let pins := state.pins.filter fun pin => pin.snapshotId ≠ id
  if pins.length = state.pins.length then state
  else { state with pins := pins, eventSequence := state.eventSequence + 1 }

/-- Append a reference, unless the snapshot is the last one already (`append_ordered`). -/
def appendOrdered (records : List RefRecord) (id : ObjectId) (sealedAt : ℤ) : List RefRecord :=
  match records.getLast? with
  | none => [⟨1, id, sealedAt⟩]
  | some last =>
    if last.snapshotId = id then records
    else records ++ [⟨last.sequence + 1, id, sealedAt⟩]

/-! ## What a plan retains -/

/-- A record is recent up to the window. -/
theorem RefRecord.recent_iff {r : RefRecord} {now : ℤ} :
    r.recent now = true ↔ now - r.sealedAt ≤ allSnapshotsWindow := by
  unfold RefRecord.recent RefRecord.age saturatingSub allSnapshotsWindow daySecs hourSecs
  simp only [decide_eq_true_eq]
  omega

/-- One record after another in time is not before it. -/
theorem RefRecord.Newer.not_newer_of_not {a b c : RefRecord} (h : a.Newer b)
    (h' : ¬ a.Newer c) : ¬ b.Newer c := by
  unfold RefRecord.Newer at *
  omega

/-- A record that competes in its bucket: neither recent nor pinned. -/
def Competes (now : ℤ) (pinned : List ℕ) (r : RefRecord) : Prop :=
  r.recent now = false ∧ r.sequence ∉ pinned

instance (now : ℤ) (pinned : List ℕ) (r : RefRecord) : Decidable (Competes now pinned r) :=
  inferInstanceAs (Decidable (_ ∧ _))

/-- A record that no competitor of its bucket is newer than. -/
def Wins (now : ℤ) (pinned : List ℕ) (records : List RefRecord) (w : RefRecord) : Prop :=
  w ∈ records ∧ Competes now pinned w ∧
    ∀ r ∈ records, Competes now pinned r → bucketKey now r = bucketKey now w → ¬ w.Newer r

/-- What the loop has found after some records. -/
structure LoopSpec (now : ℤ) (pinned : List ℕ) (records : List RefRecord) (loop : PlanLoop) :
    Prop where
  retained : ∀ s, (loop.retained.get? s).isSome ↔
    ∃ r ∈ records, r.sequence = s ∧ ¬ Competes now pinned r
  winner : ∀ key w, loop.buckets.get? key = some w →
    bucketKey now w = key ∧ Wins now pinned records w
  filled : ∀ r ∈ records, Competes now pinned r → (loop.buckets.get? (bucketKey now r)).isSome
  through : loop.evaluatedThrough = (records.getLast?.map RefRecord.sequence).getD 0

/-- A record that does not compete is retained as it is. -/
theorem not_competes_iff {now : ℤ} {pinned : List ℕ} {r : RefRecord} :
    ¬ Competes now pinned r ↔ r.recent now = true ∨ r.sequence ∈ pinned := by
  unfold Competes
  rw [not_and_or, not_not, Bool.not_eq_false]

/-- One more record of the loop. -/
theorem LoopSpec.visit {now : ℤ} {pinned : List ℕ} {records : List RefRecord} {loop : PlanLoop}
    (h : LoopSpec now pinned records loop) (r : RefRecord) :
    LoopSpec now pinned (records ++ [r]) (loop.visit now pinned r) := by
  have hthrough : r.sequence = ((records ++ [r]).getLast?.map RefRecord.sequence).getD 0 := by simp
  have hnew : ∀ x, x ∈ records ++ [r] ↔ x ∈ records ∨ x = r := by simp
  unfold PlanLoop.visit
  dsimp only
  split_ifs with hkeep
  · -- the record is retained as it is
    rw [← not_competes_iff] at hkeep
    refine ⟨fun s => ?_, fun key w hw => ?_, fun x hx hc => ?_, hthrough⟩
    · simp only [OrdMap.get?_insert, hnew]
      constructor
      · intro hs
        split_ifs at hs with hsr
        · exact ⟨r, Or.inr rfl, hsr.symm, hkeep⟩
        · obtain ⟨x, hx, hxs⟩ := (h.retained s).mp hs
          exact ⟨x, Or.inl hx, hxs⟩
      · rintro ⟨x, hx | rfl, hxs, hc⟩
        · split_ifs
          · rfl
          · exact (h.retained s).mpr ⟨x, hx, hxs, hc⟩
        · simp [hxs]
    · obtain ⟨hkey, hmem, hcomp, hbest⟩ := h.winner key w hw
      refine ⟨hkey, (hnew w).mpr (Or.inl hmem), hcomp, fun x hx hc => ?_⟩
      rcases (hnew x).mp hx with hx | rfl
      · exact hbest x hx hc
      · exact absurd hc hkeep
    · rcases (hnew x).mp hx with hx | rfl
      · exact h.filled x hx hc
      · exact absurd hc hkeep
  · -- the record competes
    have hcomp : Competes now pinned r := by
      rw [← not_competes_iff, not_not] at hkeep
      exact hkeep
    have hretained : ∀ s, (loop.retained.get? s).isSome ↔
        ∃ x ∈ records ++ [r], x.sequence = s ∧ ¬ Competes now pinned x := by
      intro s
      rw [h.retained s]
      constructor
      · rintro ⟨x, hx, hxs⟩
        exact ⟨x, (hnew x).mpr (Or.inl hx), hxs⟩
      · rintro ⟨x, hx, hxs, hc⟩
        rcases (hnew x).mp hx with hx | rfl
        · exact ⟨x, hx, hxs, hc⟩
        · exact absurd hcomp hc
    -- what the bucket of the record holds afterwards: a record that beats all
    have hput : ∀ (buckets : OrdMap (Tier ×ₗ ℤ) RefRecord),
        (∀ key, buckets.get? key =
          if key = bucketKey now r then some r else loop.buckets.get? key) →
        Wins now pinned (records ++ [r]) r →
        LoopSpec now pinned (records ++ [r]) ⟨loop.retained, buckets, r.sequence⟩ := by
      intro buckets hget hwins
      refine ⟨hretained, fun key w hw => ?_, fun x hx hc => ?_, hthrough⟩
      · rw [hget] at hw
        split_ifs at hw with hkey
        · rw [← Option.some.inj hw]
          exact ⟨hkey.symm, hwins⟩
        · obtain ⟨hwkey, hmem, hcw, hbest⟩ := h.winner key w hw
          refine ⟨hwkey, (hnew w).mpr (Or.inl hmem), hcw, fun x hx hc hkx => ?_⟩
          rcases (hnew x).mp hx with hx | rfl
          · exact hbest x hx hc hkx
          · exact absurd (hkx.trans hwkey).symm hkey
      · rw [hget]
        split_ifs with hkey
        · rfl
        · rcases (hnew x).mp hx with hx | rfl
          · exact h.filled x hx hc
          · exact absurd rfl hkey
    have hinsert : ∀ key, (loop.buckets.insert (bucketKey now r) r).get? key =
        if key = bucketKey now r then some r else loop.buckets.get? key := by
      intro key
      rw [OrdMap.get?_insert]
      congr
    cases hold : loop.buckets.get? (bucketKey now r) with
    | none =>
      refine hput _ hinsert ⟨by simp, hcomp, fun x hx hc hkx => ?_⟩
      rcases (hnew x).mp hx with hx | rfl
      · have hfull := h.filled x hx hc
        rw [hkx, hold] at hfull
        exact absurd hfull (by simp)
      · unfold RefRecord.Newer
        omega
    | some existing =>
      obtain ⟨hkey, hmem, hcex, hbest⟩ := h.winner _ existing hold
      dsimp only
      split_ifs with hnewer
      · refine hput _ hinsert ⟨by simp, hcomp, fun x hx hc hkx => ?_⟩
        rcases (hnew x).mp hx with hx | rfl
        · exact hnewer.not_newer_of_not (hbest x hx hc (hkx.trans hkey.symm))
        · unfold RefRecord.Newer
          omega
      · refine ⟨hretained, fun key w hw => ?_, fun x hx hc => ?_, hthrough⟩
        · obtain ⟨hwkey, hwmem, hcw, hwbest⟩ := h.winner key w hw
          refine ⟨hwkey, (hnew w).mpr (Or.inl hwmem), hcw, fun x hx hc hkx => ?_⟩
          rcases (hnew x).mp hx with hx | rfl
          · exact hwbest x hx hc hkx
          · rw [hkx, hwkey, hw] at hold
            rw [Option.some.inj hold]
            exact hnewer
        · rcases (hnew x).mp hx with hx | rfl
          · exact h.filled x hx hc
          · rw [hold]
            rfl

/-- **The loop over a log** finds the records that do not compete, the winner of every bucket and
the last sequence. -/
theorem loopSpec_planLoop (now : ℤ) (pinned : List ℕ) (records : List RefRecord) :
    LoopSpec now pinned records (planLoop now pinned records) := by
  induction records using List.reverseRecOn with
  | nil => exact ⟨fun s => by simp [planLoop], fun _ _ h => absurd h (by simp [planLoop]),
      fun _ h => absurd h List.not_mem_nil, rfl⟩
  | append_singleton records r ih =>
    unfold planLoop at ih ⊢
    rw [List.foldl_append]
    exact ih.visit r

/-- The sequence a log ends with, or 0. -/
def lastSequence (records : List RefRecord) : ℕ :=
  (records.getLast?.map RefRecord.sequence).getD 0

/-- **What a plan retains**: the records that do not compete, the winners, the pins and the last
record. -/
theorem mem_plannedSequences_iff (now : ℤ) (records : List RefRecord) (pins : List Pin) (s : ℕ) :
    s ∈ (plannedSequences now records pins).keys ↔
      (∃ r ∈ records, r.sequence = s ∧ ¬ Competes now (pins.map Pin.sequence) r) ∨
        (∃ w, w.sequence = s ∧ Wins now (pins.map Pin.sequence) records w) ∨
        s ∈ pins.map Pin.sequence ∨ (s = lastSequence records ∧ 0 < s) := by
  have hspec := loopSpec_planLoop now (pins.map Pin.sequence) records
  have hwinners : s ∈ (planLoop now (pins.map Pin.sequence) records).buckets.toList.map
      (fun p => p.2.sequence) ↔
        ∃ w, w.sequence = s ∧ Wins now (pins.map Pin.sequence) records w := by
    rw [List.mem_map]
    constructor
    · rintro ⟨⟨key, w⟩, hp, rfl⟩
      exact ⟨w, rfl, (hspec.winner key w ((OrdMap.mem_toList_iff _).mp hp)).2⟩
    · rintro ⟨w, rfl, hmem, hcw, hbest⟩
      -- the bucket of a winner holds a record with the same place in time
      obtain ⟨w', hw'⟩ := Option.isSome_iff_exists.mp (hspec.filled w hmem hcw)
      obtain ⟨hkey, hmem', hcw', hbest'⟩ := hspec.winner _ w' hw'
      have h₁ := hbest w' hmem' hcw' hkey
      have h₂ := hbest' w hmem hcw hkey.symm
      refine ⟨(_, w'), (OrdMap.mem_toList_iff _).mpr hw', ?_⟩
      unfold RefRecord.Newer at h₁ h₂
      show w'.sequence = w.sequence
      omega
  unfold plannedSequences
  dsimp only
  rw [OrdMap.mem_keys_foldInsert_unit, hspec.retained, hspec.through, List.mem_append,
    List.mem_append, hwinners, or_assoc]
  refine or_congr Iff.rfl (or_congr Iff.rfl (or_congr Iff.rfl ?_))
  unfold lastSequence
  split_ifs with hpos
  · rw [List.mem_singleton]
    exact ⟨fun hs => ⟨hs, hs ▸ hpos⟩, And.left⟩
  · exact ⟨fun hs => absurd hs List.not_mem_nil, fun ⟨hs, hpos'⟩ => absurd (hs ▸ hpos') hpos⟩

/-! ## Ranges -/

/-- Whether a sequence lies in one of the ranges. -/
def inRanges (ranges : List SequenceRange) (s : ℕ) : Prop :=
  ∃ r ∈ ranges, r.first ≤ s ∧ s ≤ r.last

/-- A sequence above all ranges is added to them. -/
theorem inRanges_pushSequence {ranges : List SequenceRange} {s : ℕ}
    (hvalid : ∀ r ∈ ranges, r.first ≤ r.last) (x : ℕ) :
    inRanges (pushSequence ranges s) x ↔ x = s ∨ inRanges ranges x := by
  unfold pushSequence inRanges
  cases ranges with
  | nil =>
    simp
    omega
  | cons r rest =>
    obtain ⟨first, last⟩ := r
    have hle := hvalid ⟨first, last⟩ List.mem_cons_self
    dsimp only at hle ⊢
    split_ifs with hnext
    · simp only [List.mem_cons, exists_eq_or_imp]
      rw [← or_assoc]
      refine or_congr ?_ Iff.rfl
      omega
    · simp only [List.mem_cons, exists_eq_or_imp]
      refine or_congr ?_ Iff.rfl
      omega

/-- Pushing a sequence keeps every range the right way round. -/
theorem first_le_last_pushSequence {ranges : List SequenceRange} {s : ℕ}
    (hvalid : ∀ r ∈ ranges, r.first ≤ r.last) :
    ∀ r ∈ pushSequence ranges s, r.first ≤ r.last := by
  intro r hr
  unfold pushSequence at hr
  cases ranges with
  | nil =>
    rw [List.mem_singleton] at hr
    rw [hr]
  | cons q rest =>
    obtain ⟨first, last⟩ := q
    have hle := hvalid ⟨first, last⟩ List.mem_cons_self
    dsimp only at hr hle
    split_ifs at hr with hnext
    · rcases List.mem_cons.mp hr with rfl | hr
      · show first ≤ s
        omega
      · exact hvalid r (List.mem_cons_of_mem _ hr)
    · rcases List.mem_cons.mp hr with rfl | hr
      · exact Nat.le_refl _
      · exact hvalid r hr

/-- **Ranges hold the sequences they were made of.** -/
theorem inRanges_compressSequences (sequences : List ℕ) (x : ℕ) :
    inRanges (compressSequences sequences) x ↔ x ∈ sequences := by
  have hfold : ∀ (sequences : List ℕ) (ranges : List SequenceRange),
      (∀ r ∈ ranges, r.first ≤ r.last) →
      (inRanges (sequences.foldl pushSequence ranges) x ↔ x ∈ sequences ∨ inRanges ranges x) := by
    intro sequences
    induction sequences with
    | nil => simp
    | cons s sequences ih =>
      intro ranges hvalid
      rw [List.foldl_cons, ih _ (first_le_last_pushSequence hvalid), inRanges_pushSequence hvalid,
        List.mem_cons]
      rw [← or_assoc, or_comm (a := x ∈ sequences)]
  unfold compressSequences inRanges
  simp only [List.mem_reverse]
  have h := hfold sequences [] (fun _ h => absurd h List.not_mem_nil)
  unfold inRanges at h
  rw [h]
  simp

/-! ## Logs in order -/

/-- A log whose sequences increase from 1 on. -/
structure OrderedLog (records : List RefRecord) : Prop where
  increasing : records.Pairwise fun a b => a.sequence < b.sequence
  positive : ∀ r ∈ records, 0 < r.sequence

/-- Records of a log with the same sequence are the same. -/
theorem OrderedLog.eq_of_sequence {records : List RefRecord} (h : OrderedLog records)
    {a b : RefRecord} (ha : a ∈ records) (hb : b ∈ records) (hab : a.sequence = b.sequence) :
    a = b := by
  have hnodup : (records.map RefRecord.sequence).Nodup :=
    List.pairwise_map.mpr (h.increasing.imp fun hlt => ne_of_lt hlt)
  exact List.inj_on_of_nodup_map hnodup ha hb hab

/-- No sequence of a log is above the last one. -/
theorem OrderedLog.sequence_le {records : List RefRecord} (h : OrderedLog records)
    {r : RefRecord} (hr : r ∈ records) : r.sequence ≤ lastSequence records := by
  unfold lastSequence
  rcases List.eq_nil_or_concat records with rfl | ⟨front, last, rfl⟩
  · exact absurd hr List.not_mem_nil
  · rw [List.concat_eq_append] at hr h ⊢
    simp only [List.getLast?_append, List.getLast?_singleton, Option.some_or, Option.map_some,
      Option.getD_some]
    rcases List.mem_append.mp hr with hr | hr
    · exact Nat.le_of_lt ((List.pairwise_append.mp h.increasing).2.2 r hr last (by simp))
    · rw [List.mem_singleton.mp hr]

/-- An appended log is in order. -/
theorem OrderedLog.appendOrdered {records : List RefRecord} (h : OrderedLog records)
    (id : ObjectId) (sealedAt : ℤ) : OrderedLog (appendOrdered records id sealedAt) := by
  unfold Furrow.appendOrdered
  cases hlast : records.getLast? with
  | none => exact ⟨List.pairwise_singleton _ _, by simp⟩
  | some last =>
    dsimp only
    split_ifs with hsame
    · exact h
    · have hseq : lastSequence records = last.sequence := by simp [lastSequence, hlast]
      refine ⟨List.pairwise_append.mpr ⟨h.increasing, List.pairwise_singleton _ _, ?_⟩, ?_⟩
      · intro a ha b hb
        have hle := h.sequence_le ha
        rw [List.mem_singleton.mp hb]
        show a.sequence < last.sequence + 1
        omega
      · intro r hr
        rcases List.mem_append.mp hr with hr | hr
        · exact h.positive r hr
        · rw [List.mem_singleton.mp hr]
          exact Nat.succ_pos _

/-- A snapshot id that some pin holds. -/
def pinnedId (pins : List Pin) (id : ObjectId) : Prop := ∃ pin ∈ pins, pin.snapshotId = id

/-- **What a fresh plan says of the records of an ordered log.** -/
theorem retains_planState_iff {records : List RefRecord} (h : OrderedLog records) (now : ℤ)
    (pins : List Pin) {r : RefRecord} (hr : r ∈ records) :
    (planState records now pins).retains r.sequence r.snapshotId = true ↔
      ¬ Competes now (pins.map Pin.sequence) r ∨ Wins now (pins.map Pin.sequence) records r ∨
        r.sequence = lastSequence records ∨ pinnedId pins r.snapshotId := by
  have hthrough : (planState records now pins).evaluatedThrough = lastSequence records :=
    (loopSpec_planLoop now (pins.map Pin.sequence) records).through
  have hle := h.sequence_le hr
  have hpos := h.positive r hr
  have hranges : (planState records now pins).retainsInRanges r.sequence = true ↔
      r.sequence ∈ (plannedSequences now records pins).keys := by
    rw [← inRanges_compressSequences]
    simp [RetentionState.retainsInRanges, planState, inRanges]
  have hpinned : ((planState records now pins).pins.any fun pin => decide
      (pin.sequence = r.sequence)) = true ↔ r.sequence ∈ pins.map Pin.sequence := by
    simp [planState]
  have hid : (planState records now pins).isPinned r.snapshotId = true ↔
      pinnedId pins r.snapshotId := by
    simp [RetentionState.isPinned, planState, pinnedId]
  unfold RetentionState.retains
  rw [Bool.or_eq_true, Bool.or_eq_true, Bool.or_eq_true, hranges, hpinned, hid,
    mem_plannedSequences_iff, decide_eq_true_eq, hthrough]
  constructor
  · rintro (((hlt | hplan) | hp) | hp)
    · omega
    · rcases hplan with ⟨r', hr', hseq, hc⟩ | ⟨w, hseq, hw⟩ | hp | ⟨hlast, -⟩
      · rw [h.eq_of_sequence hr' hr hseq] at hc
        exact Or.inl hc
      · rw [h.eq_of_sequence hw.1 hr hseq] at hw
        exact Or.inr (Or.inl hw)
      · exact Or.inl fun hc => hc.2 hp
      · exact Or.inr (Or.inr (Or.inl hlast))
    · exact Or.inl fun hc => hc.2 hp
    · exact Or.inr (Or.inr (Or.inr hp))
  · rintro (hc | hw | hlast | hp)
    · exact Or.inl (Or.inl (Or.inr (Or.inl ⟨r, hr, rfl, hc⟩)))
    · exact Or.inl (Or.inl (Or.inr (Or.inr (Or.inl ⟨r, rfl, hw⟩))))
    · exact Or.inl (Or.inl (Or.inr (Or.inr (Or.inr (Or.inr ⟨hlast, hpos⟩)))))
    · exact Or.inr hp

/-! ## Buckets over time -/

/-- A newer record that competes in the same bucket: the reason that a record is thinned. -/
def Keeps (now : ℤ) (pinned : List ℕ) (records : List RefRecord) (a b : RefRecord) : Prop :=
  b ∈ records ∧ Competes now pinned b ∧ bucketKey now b = bucketKey now a ∧ a.Newer b

instance (now : ℤ) (pinned : List ℕ) (records : List RefRecord) (a b : RefRecord) :
    Decidable (Keeps now pinned records a b) :=
  inferInstanceAs (Decidable (_ ∧ _ ∧ _ ∧ _))

/-- **A record that competes and does not win has a keeper.** -/
theorem exists_keeps_of_not_wins {records : List RefRecord} {now : ℤ} {pinned : List ℕ}
    {a : RefRecord} (ha : a ∈ records) (hc : Competes now pinned a)
    (hw : ¬ Wins now pinned records a) : ∃ b, Keeps now pinned records a b := by
  unfold Wins at hw
  simp only [not_and, not_forall, not_not] at hw
  obtain ⟨b, hb, hcb, hkey, hnewer⟩ := hw ha hc
  exact ⟨b, hb, hcb, hkey, hnewer⟩

/-- A cut-off between two tiers lies between two records. -/
def Separated (now : ℤ) (a b : RefRecord) : Prop :=
  (hourlyWindow < now - a.sealedAt ∧ now - b.sealedAt ≤ hourlyWindow) ∨
    (dailyWindow < now - a.sealedAt ∧ now - b.sealedAt ≤ dailyWindow)

instance (now : ℤ) (a b : RefRecord) : Decidable (Separated now a b) :=
  inferInstanceAs (Decidable (_ ∨ _))

/-- The tier of a record by its age. -/
theorem RefRecord.tier_eq (r : RefRecord) (now : ℤ) :
    r.tier now = if now - r.sealedAt ≤ hourlyWindow then .Hour
      else if now - r.sealedAt ≤ dailyWindow then .Day else .Week := by
  have hhour : r.age now ≤ hourlyWindow ↔ now - r.sealedAt ≤ hourlyWindow :=
    saturatingSub_le_iff (by decide) (by decide)
  have hday : r.age now ≤ dailyWindow ↔ now - r.sealedAt ≤ dailyWindow :=
    saturatingSub_le_iff (by decide) (by decide)
  unfold RefRecord.tier
  simp only [hhour, hday]

/-- Two records of one bucket: the same tier and the same index there. -/
theorem bucketKey_eq_iff {now : ℤ} {a b : RefRecord} :
    bucketKey now b = bucketKey now a ↔ b.tier now = a.tier now ∧
      b.sealedAt / (a.tier now).width = a.sealedAt / (a.tier now).width := by
  unfold bucketKey
  rw [toLex_inj, Prod.mk.injEq]
  constructor
  · rintro ⟨htier, hidx⟩
    exact ⟨htier, htier ▸ hidx⟩
  · rintro ⟨htier, hidx⟩
    exact ⟨htier, htier ▸ hidx⟩

/-- **Two records of one bucket stay in one bucket** as they age, unless a cut-off separates
them: the hours of a day and the days of a week nest. -/
theorem bucketKey_eq_of_not_separated {before now : ℤ} (hle : before ≤ now) {a b : RefRecord}
    (hab : a.sealedAt ≤ b.sealedAt) (hkey : bucketKey before b = bucketKey before a)
    (hsep : ¬ Separated now a b) : bucketKey now b = bucketKey now a := by
  rw [bucketKey_eq_iff] at hkey ⊢
  rw [RefRecord.tier_eq, RefRecord.tier_eq] at hkey ⊢
  unfold Separated at hsep
  unfold hourlyWindow dailyWindow at *
  obtain ⟨htier, hidx⟩ := hkey
  split_ifs at htier hidx ⊢ <;>
    simp only [Tier.width, weekSecs, daySecs, hourSecs, false_and, true_and] at * <;>
    omega

end Furrow
