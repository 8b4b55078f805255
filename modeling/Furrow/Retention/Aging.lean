import Furrow.Retention.Plan

set_option relaxedAutoImplicit false
set_option autoImplicit false

/-!
# Plans at different times

A plan is made anew at every collection.  A record that was thinned is thinned again as long as
one of the newer records of its bucket stays in one bucket with it.  Buckets nest as records age,
but the cut-offs between the tiers are at fixed ages: between two records of one bucket there is a
time at which the older one has passed a cut-off and the newer one has not.  A record that is
separated in this way from all newer records of its bucket comes back.

## Main definitions

* `Furrow.Thinned` — a record that a plan does not retain.
* `Furrow.Accompanied` — a newer record of the same bucket that no cut-off separates.

## Main results

* `Furrow.retains_planState_eq_false_iff` — the plan thins exactly these records.
* `Furrow.thinned_forever_iff` — what is thinned stays thinned exactly if it is accompanied.
-/

namespace Furrow

/-- A record that a plan thins: it is not pinned, not the last and not recent, and a newer record
competes in its bucket. -/
def Thinned (now : ℤ) (pins : List Pin) (records : List RefRecord) (r : RefRecord) : Prop :=
  Competes now (pins.map Pin.sequence) r ∧ ¬ pinnedId pins r.snapshotId ∧
    r.sequence ≠ lastSequence records ∧ ∃ b, Keeps now (pins.map Pin.sequence) records r b

instance (pins : List Pin) (id : ObjectId) : Decidable (pinnedId pins id) :=
  inferInstanceAs (Decidable (∃ pin ∈ pins, pin.snapshotId = id))

instance (now : ℤ) (pinned : List ℕ) (records : List RefRecord) (a : RefRecord) :
    Decidable (∃ b, Keeps now pinned records a b) :=
  decidable_of_iff (∃ b ∈ records, Keeps now pinned records a b)
    ⟨fun ⟨b, _, hb⟩ => ⟨b, hb⟩, fun ⟨b, hb⟩ => ⟨b, hb.1, hb⟩⟩

instance (now : ℤ) (pins : List Pin) (records : List RefRecord) (r : RefRecord) :
    Decidable (Thinned now pins records r) :=
  inferInstanceAs (Decidable (_ ∧ _ ∧ _ ∧ _))

/-- A winner has no keeper. -/
theorem wins_iff_not_keeps {now : ℤ} {pinned : List ℕ} {records : List RefRecord} {r : RefRecord}
    (hr : r ∈ records) (hc : Competes now pinned r) :
    Wins now pinned records r ↔ ¬ ∃ b, Keeps now pinned records r b := by
  constructor
  · rintro ⟨-, -, hbest⟩ ⟨b, hb, hcb, hkey, hnewer⟩
    exact hbest b hb hcb hkey hnewer
  · intro hnone
    by_contra hw
    exact hnone (exists_keeps_of_not_wins hr hc hw)

/-- **A plan thins exactly these records.** -/
theorem retains_planState_eq_false_iff {records : List RefRecord} (h : OrderedLog records)
    (now : ℤ) (pins : List Pin) {r : RefRecord} (hr : r ∈ records) :
    (planState records now pins).retains r.sequence r.snapshotId = false ↔
      Thinned now pins records r := by
  rw [← Bool.not_eq_true, retains_planState_iff h now pins hr]
  unfold Thinned
  constructor
  · intro hnot
    rw [not_or, not_or, not_or, not_not] at hnot
    obtain ⟨hc, hw, hlast, hid⟩ := hnot
    rw [wins_iff_not_keeps hr hc, not_not] at hw
    exact ⟨hc, hid, hlast, hw⟩
  · rintro ⟨hc, hid, hlast, hkept⟩
    rw [not_or, not_or, not_or, not_not, wins_iff_not_keeps hr hc, not_not]
    exact ⟨hc, hkept, hlast, hid⟩

/-- A record that competes goes on to compete. -/
theorem Competes.mono {now later : ℤ} (hle : now ≤ later) {pinned : List ℕ} {r : RefRecord}
    (h : Competes now pinned r) : Competes later pinned r := by
  refine ⟨?_, h.2⟩
  have hold := h.1
  rw [← Bool.not_eq_true, RefRecord.recent_iff] at hold ⊢
  omega

/-- A record that is not the last of a log is not the last of a longer one. -/
theorem sequence_ne_lastSequence_append {records extension : List RefRecord}
    (h : OrderedLog (records ++ extension)) {r : RefRecord} (hr : r ∈ records)
    (hne : r.sequence ≠ lastSequence records) :
    r.sequence ≠ lastSequence (records ++ extension) := by
  rcases List.eq_nil_or_concat extension with rfl | ⟨front, last, rfl⟩
  · rwa [List.append_nil]
  · rw [List.concat_eq_append] at h ⊢
    have hbefore : r.sequence < last.sequence :=
      (List.pairwise_append.mp h.increasing).2.2 r hr last (by simp)
    have hlast : lastSequence (records ++ (front ++ [last])) = last.sequence := by
      simp [lastSequence]
    omega

/-- The front of a log is in order. -/
theorem OrderedLog.of_append {records extension : List RefRecord}
    (h : OrderedLog (records ++ extension)) : OrderedLog records :=
  ⟨(List.pairwise_append.mp h.increasing).1, fun r hr => h.positive r (List.mem_append_left _ hr)⟩

/-- At a later time, some newer record of the bucket that a record had competes and is on the same
side of both cut-offs. -/
def Accompanied (now later : ℤ) (pinned : List ℕ) (records : List RefRecord) (a : RefRecord) :
    Prop :=
  ∃ b ∈ records, Competes later pinned b ∧ a.Newer b ∧ bucketKey now b = bucketKey now a ∧
    ¬ Separated later a b

instance (now later : ℤ) (pinned : List ℕ) (records : List RefRecord) (a : RefRecord) :
    Decidable (Accompanied now later pinned records a) :=
  inferInstanceAs (Decidable (∃ b ∈ records, _))

/-- A newer record was sealed no earlier. -/
theorem RefRecord.Newer.sealedAt_le {a b : RefRecord} (h : a.Newer b) :
    a.sealedAt ≤ b.sealedAt := by
  unfold RefRecord.Newer at h
  omega

/-- Two records of one bucket have no cut-off between them. -/
theorem not_separated_of_bucketKey_eq {now : ℤ} {a b : RefRecord}
    (h : bucketKey now b = bucketKey now a) : ¬ Separated now a b := by
  rw [bucketKey_eq_iff] at h
  have htier := h.1
  rw [RefRecord.tier_eq, RefRecord.tier_eq] at htier
  unfold Separated
  have hwindows : hourlyWindow < dailyWindow := by decide
  split_ifs at htier <;> omega

/-- A record sealed between two records of one bucket is in that bucket. -/
theorem bucketKey_eq_of_between {now : ℤ} {a b c : RefRecord} (hab : a.sealedAt ≤ b.sealedAt)
    (hbc : b.sealedAt ≤ c.sealedAt) (h : bucketKey now c = bucketKey now a) :
    bucketKey now b = bucketKey now a := by
  rw [bucketKey_eq_iff] at h ⊢
  rw [RefRecord.tier_eq, RefRecord.tier_eq] at h ⊢
  unfold hourlyWindow dailyWindow at *
  obtain ⟨htier, hidx⟩ := h
  split_ifs at htier hidx ⊢ <;>
    simp only [Tier.width, weekSecs, daySecs, hourSecs, false_and, true_and] at * <;>
    omega

/-- A record on the older side of a cut-off is sealed before one on the other side. -/
theorem sealedAt_le_of_separated {now : ℤ} {a b c : RefRecord} (hc : Separated now a c)
    (hb : ¬ Separated now a b) : b.sealedAt ≤ c.sealedAt := by
  unfold Separated at hb hc
  omega

/-- **A kept record is kept later exactly if it is accompanied.**

**Proof sketch.** If no cut-off separates the two they are in one bucket later, since buckets nest.
Conversely take a keeper at the later time and the one there was before.  If a cut-off separates
the earlier one, the later one was sealed between the two, so it was in their bucket. -/
theorem exists_keeps_iff_accompanied {now later : ℤ} (hle : now ≤ later) {pinned : List ℕ}
    {records extension : List RefRecord} {a c : RefRecord} (hkept : Keeps now pinned records a c) :
    (∃ b, Keeps later pinned (records ++ extension) a b) ↔
      Accompanied now later pinned (records ++ extension) a := by
  obtain ⟨hc, hcomp, hkey, hnewer⟩ := hkept
  constructor
  · rintro ⟨b, hb, hcb, hkeyb, hnewerb⟩
    by_cases hsep : Separated later a c
    · have hsepb : ¬ Separated later a b := not_separated_of_bucketKey_eq hkeyb
      exact ⟨b, hb, hcb, hnewerb, bucketKey_eq_of_between hnewerb.sealedAt_le
        (sealedAt_le_of_separated hsep hsepb) hkey, hsepb⟩
    · exact ⟨c, List.mem_append_left _ hc, hcomp.mono hle, hnewer, hkey, hsep⟩
  · rintro ⟨b, hb, hcb, hnewerb, hkeyb, hsep⟩
    exact ⟨b, hb, hcb, bucketKey_eq_of_not_separated hle hnewerb.sealedAt_le hkeyb hsep, hnewerb⟩

/-- **What is thinned stays thinned, exactly if every thinned record is accompanied**: at the
later time there is a newer record, not pinned and more than a day old, that was in its bucket at
the earlier time and that no cut-off separates from it. -/
theorem thinned_forever_iff {records extension : List RefRecord}
    (h : OrderedLog (records ++ extension)) (pins : List Pin) {now later : ℤ}
    (hle : now ≤ later) :
    (∀ r ∈ records, (planState records now pins).retains r.sequence r.snapshotId = false →
        (planState (records ++ extension) later pins).retains r.sequence r.snapshotId = false) ↔
      ∀ r ∈ records, Thinned now pins records r →
        Accompanied now later (pins.map Pin.sequence) (records ++ extension) r := by
  refine forall₂_congr fun r hr => ?_
  rw [retains_planState_eq_false_iff h.of_append now pins hr,
    retains_planState_eq_false_iff h later pins (List.mem_append_left _ hr)]
  refine forall_congr' fun hthin => ?_
  obtain ⟨hc, hid, hlast, c, hkept⟩ := hthin
  rw [← exists_keeps_iff_accompanied hle hkept]
  unfold Thinned
  exact ⟨fun hlater => hlater.2.2.2, fun hkeeps =>
    ⟨hc.mono hle, hid, sequence_ne_lastSequence_append h hr hlast, hkeeps⟩⟩

/-- Two records of one hour and one of the next day. -/
def agingRecords : List RefRecord :=
  [⟨1, .fill 1, 3600000⟩, ⟨2, .fill 2, 3600010⟩, ⟨3, .fill 3, 3600000 + daySecs⟩]

/-- The aging records are an ordered log. -/
theorem orderedLog_agingRecords : OrderedLog agingRecords :=
  ⟨by decide, by decide⟩

/-- After eight days the two records of one hour have both passed the first cut-off. -/
theorem thinned_forever_agingRecords : OrderedLog agingRecords ∧
    ∀ r ∈ agingRecords, (planState agingRecords (3600000 + 2 * daySecs) []).retains r.sequence
        r.snapshotId = false →
      (planState (agingRecords ++ []) (3600000 + 8 * daySecs) []).retains r.sequence
        r.snapshotId = false :=
  ⟨orderedLog_agingRecords, (thinned_forever_iff (by simpa using orderedLog_agingRecords) []
    (by decide)).mpr (by decide)⟩

/-- Five seconds after seven days the first cut-off lies between the two records of one hour: the
first was thinned, and is retained again. -/
theorem thinned_returns :
    OrderedLog agingRecords ∧ (∀ r ∈ agingRecords, r.sealedAt ≤ 3600000 + 2 * daySecs) ∧
      (planState agingRecords (3600000 + 2 * daySecs) []).retains 1 (.fill 1) = false ∧
      (planState agingRecords (3600000 + 7 * daySecs + 5) []).retains 1 (.fill 1) = true :=
  ⟨orderedLog_agingRecords, by decide, by decide, by decide⟩

end Furrow
