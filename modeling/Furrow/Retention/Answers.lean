import Mathlib
import Furrow.Retention.Plan
import Furrow.Lib.Run

set_option relaxedAutoImplicit false
set_option autoImplicit false

/-!
# What the retention log answers

`retention.rs`: a state of the log is checked when it is read, and it answers which sequences up to
a head are retained, by listing the newest and by counting.  The list merges the records after the
evaluated ones, the ranges and the pins through a heap of intervals; the count adds up the three.

## Main definitions

* `Furrow.validateState` — the check.
* `Furrow.recentLoop`, `Furrow.RetentionState.recentSequences` — the list.
* `Furrow.RetentionState.retainedCount` — the count.
* `Furrow.RetentionState.retainedSet` — the sequences that are retained.
* `Furrow.RetentionRun`, `Furrow.RetentionStep` — the writes of the log.

## Main results

* `Furrow.recentLoop_eq` — the loop lists what the intervals cover, from the top.
* `Furrow.RetentionSound.step` — every write leaves a state that passes the check.
* `Furrow.retention_answers` — the answers agree in every run.
-/

namespace Furrow

/-! ## The check -/

/-- Why a state is refused. -/
inductive RetentionError
  /-- `invalid retained sequence range` -/
  | invalidRange
  /-- `overlapping retained ranges` -/
  | overlappingRanges
  /-- `retained range exceeds evaluated history` -/
  | rangeExceedsHistory
  /-- `pins are not ordered` -/
  | pinsNotOrdered
deriving DecidableEq

/-- The loop over the ranges. -/
def validateRanges (evaluatedThrough : ℕ) : ℕ → List SequenceRange → Except RetentionError Unit
  | _, [] => .ok ()
  | previous, r :: ranges =>
    if ¬ (0 < r.first ∧ r.first ≤ r.last) then .error .invalidRange
    else if ¬ previous < r.first then .error .overlappingRanges
    else if ¬ r.last ≤ evaluatedThrough then .error .rangeExceedsHistory
    else validateRanges evaluatedThrough r.last ranges

/-- The loop over the pins. -/
def validatePins : ℕ → List Pin → Except RetentionError Unit
  | _, [] => .ok ()
  | previous, pin :: pins =>
    if ¬ previous < pin.sequence then .error .pinsNotOrdered else validatePins pin.sequence pins

/-- `validate_state` -/
def validateState (state : RetentionState) : Except RetentionError Unit := do
  validateRanges state.evaluatedThrough 0 state.retained
  validatePins 0 state.pins

/-! ## The answers -/

/-- The order of the heap: the later interval is popped first. -/
def Later (p q : ℕ × ℕ) : Prop := q.1 < p.1 ∨ (q.1 = p.1 ∧ q.2 ≤ p.2)

instance : DecidableRel Later := fun _ _ => inferInstanceAs (Decidable (_ ∨ _))

/-- `BinaryHeap::push`, with the heap as the list in which its elements are popped. -/
def pushInterval (heap : List (ℕ × ℕ)) (p : ℕ × ℕ) : List (ℕ × ℕ) := heap.orderedInsert Later p

/-- Pushing an interval adds it to the heap. -/
theorem perm_pushInterval (heap : List (ℕ × ℕ)) (p : ℕ × ℕ) :
    (pushInterval heap p).Perm (p :: heap) :=
  List.perm_orderedInsert Later p heap

/-- The turns of the loop that an interval can still take. -/
def turns (heap : List (ℕ × ℕ)) : ℕ := (heap.map fun p => p.1 + 1 - p.2 + 1).sum

/-- Pushing an interval costs the turns that consing it does. -/
theorem turns_pushInterval (heap : List (ℕ × ℕ)) (p : ℕ × ℕ) :
    turns (pushInterval heap p) = turns (p :: heap) :=
  ((perm_pushInterval heap p).map _).sum_eq

/-- The loop of `recent_sequences`. -/
def recentLoop (limit : ℕ) (heap : List (ℕ × ℕ)) (previous : Option ℕ) (result : List ℕ) : List ℕ :=
  if result.length < limit then
    match heap with
    | [] => result
    | (sequence, first) :: rest =>
      if first ≤ sequence then
        let result := if previous = some sequence then result else result ++ [sequence]
        if first < sequence then
          recentLoop limit (pushInterval rest (sequence - 1, first)) (some sequence) result
        else recentLoop limit rest (some sequence) result
      else recentLoop limit rest previous result
  else result
termination_by turns heap
decreasing_by
  · rw [turns_pushInterval]
    simp only [turns, List.map_cons, List.sum_cons]
    omega
  · simp only [turns, List.map_cons, List.sum_cons]
    omega
  · simp only [turns, List.map_cons, List.sum_cons]
    omega

/-- `u64::saturating_add` -/
def saturatingAdd (a b : ℕ) : ℕ := min (2 ^ 64 - 1) (a + b)

namespace RetentionState

/-- The intervals of `recent_sequences`, in the order in which they are pushed. -/
def intervals (state : RetentionState) (head : ℕ) : List (ℕ × ℕ) :=
  (if state.evaluatedThrough < head then [(head, state.evaluatedThrough + 1)] else []) ++
    (state.retained.map fun r => (min r.last head, r.first)) ++
    (state.pins.filter fun pin => pin.sequence ≤ head).map fun pin => (pin.sequence, pin.sequence)

/-- `recent_sequences` -/
def recentSequences (state : RetentionState) (head limit : ℕ) : List ℕ :=
  if limit = 0 ∨ head = 0 then []
  else recentLoop limit ((state.intervals head).foldl pushInterval []) none []

/-- `retained_count_through` -/
def retainedCountThrough (state : RetentionState) : ℕ :=
  (state.retained.map fun r => r.last - r.first + 1).sum

/-- `retained_count` -/
def retainedCount (state : RetentionState) (head : ℕ) : ℕ :=
  let count := state.retainedCountThrough
  let count :=
    if state.evaluatedThrough < head then saturatingAdd count (head - state.evaluatedThrough)
      else count
  state.pins.foldl (fun count pin =>
    if pin.sequence ≤ state.evaluatedThrough ∧ state.retainsInRanges pin.sequence = false then
      saturatingAdd count 1
    else count) count

instance (ranges : List SequenceRange) (s : ℕ) : Decidable (inRanges ranges s) :=
  inferInstanceAs (Decidable (∃ r ∈ ranges, _))

/-- **The sequences up to a head that are retained**: those after the evaluated ones, those in a
range and the pinned ones. -/
def retainedSet (state : RetentionState) (head : ℕ) : Finset ℕ :=
  (Finset.Icc 1 head).filter fun s => state.evaluatedThrough < s ∨ inRanges state.retained s ∨
    s ∈ state.pins.map Pin.sequence

end RetentionState

/-! ## The list -/

/-- What intervals cover. -/
def covered (heap : List (ℕ × ℕ)) : Finset ℕ := heap.toFinset.biUnion fun p => Finset.Icc p.2 p.1

/-- A sequence is covered when an interval of the heap holds it. -/
theorem mem_covered {heap : List (ℕ × ℕ)} {s : ℕ} :
    s ∈ covered heap ↔ ∃ p ∈ heap, p.2 ≤ s ∧ s ≤ p.1 := by
  simp [covered]

/-- What an interval more covers. -/
theorem mem_covered_cons {p : ℕ × ℕ} {heap : List (ℕ × ℕ)} {s : ℕ} :
    s ∈ covered (p :: heap) ↔ (p.2 ≤ s ∧ s ≤ p.1) ∨ s ∈ covered heap := by
  simp only [mem_covered, List.mem_cons, exists_eq_or_imp]

/-- What a heap covers does not depend on its order. -/
theorem covered_perm {heap heap' : List (ℕ × ℕ)} (h : heap.Perm heap') :
    covered heap = covered heap' := by
  ext s
  simp only [mem_covered, h.mem_iff]

/-- What the loop has still to list. -/
def uncovered (previous : Option ℕ) (heap : List (ℕ × ℕ)) : Finset ℕ :=
  (covered heap).filter fun s => previous ≠ some s

/-- What is left to answer after an answer. -/
theorem uncovered_some (x : ℕ) (heap : List (ℕ × ℕ)) :
    uncovered (some x) heap = (covered heap).erase x := by
  ext s
  rw [uncovered, Finset.mem_filter, Finset.mem_erase, Ne, Option.some.injEq, and_comm, eq_comm]

/-- A heap in its order, below the sequence that was listed last. -/
structure HeapBelow (previous : Option ℕ) (heap : List (ℕ × ℕ)) : Prop where
  sorted : heap.Pairwise Later
  below : ∀ x, previous = some x → ∀ p ∈ heap, p.1 ≤ x

instance : IsTrans (ℕ × ℕ) Later := ⟨fun a b c h h' => by
  unfold Later at *
  omega⟩

instance : Std.Total Later := ⟨fun a b => by
  unfold Later
  omega⟩

/-- Pushing an interval keeps the heap ordered. -/
theorem pairwise_pushInterval {heap : List (ℕ × ℕ)} (h : heap.Pairwise Later) (p : ℕ × ℕ) :
    (pushInterval heap p).Pairwise Later :=
  List.Pairwise.orderedInsert p heap h

/-- The first interval reaches the highest. -/
theorem HeapBelow.le_first {previous : Option ℕ} {p : ℕ × ℕ} {heap : List (ℕ × ℕ)}
    (h : HeapBelow previous (p :: heap)) : ∀ q ∈ p :: heap, q.1 ≤ p.1 := by
  intro q hq
  rcases List.mem_cons.mp hq with rfl | hq
  · exact le_rfl
  · have := (List.pairwise_cons.mp h.sorted).1 q hq
    unfold Later at this
    omega

/-- The heap after an interval was popped and what remains of it was pushed. -/
def popInterval (p : ℕ × ℕ) (rest : List (ℕ × ℕ)) : List (ℕ × ℕ) :=
  if p.2 < p.1 then pushInterval rest (p.1 - 1, p.2) else rest

/-- Popping an interval leaves the heap below its end. -/
theorem HeapBelow.pop {previous : Option ℕ} {p : ℕ × ℕ} {rest : List (ℕ × ℕ)}
    (h : HeapBelow previous (p :: rest)) : HeapBelow (some p.1) (popInterval p rest) where
  sorted := by
    have hrest := (List.pairwise_cons.mp h.sorted).2
    unfold popInterval
    split_ifs
    · exact pairwise_pushInterval hrest _
    · exact hrest
  below := by
    rintro x hx q hq
    rw [← Option.some.inj hx]
    unfold popInterval at hq
    split_ifs at hq
    · rcases List.mem_cons.mp ((perm_pushInterval rest _).mem_iff.mp hq) with rfl | hq
      · exact Nat.sub_le _ _
      · exact h.le_first q (List.mem_cons_of_mem _ hq)
    · exact h.le_first q (List.mem_cons_of_mem _ hq)

/-- What remains is what was covered without the top. -/
theorem uncovered_pop {p : ℕ × ℕ} {rest : List (ℕ × ℕ)}
    (hp : p.2 ≤ p.1) :
    uncovered (some p.1) (popInterval p rest) = (covered (p :: rest)).erase p.1 := by
  ext s
  have hpop : s ∈ covered (popInterval p rest) ↔
      (p.2 < p.1 ∧ p.2 ≤ s ∧ s ≤ p.1 - 1) ∨ s ∈ covered rest := by
    unfold popInterval
    split_ifs with hlt
    · rw [covered_perm (perm_pushInterval rest _), mem_covered_cons]
      simp [hlt]
    · simp [hlt]
  rw [uncovered, Finset.mem_filter, Finset.mem_erase, mem_covered_cons, hpop, Ne, Option.some.injEq]
  constructor
  · rintro ⟨h, hne⟩
    refine ⟨fun heq => hne heq.symm, h.imp_left fun h => ?_⟩
    omega
  · rintro ⟨hne, h⟩
    refine ⟨?_, fun heq => hne heq.symm⟩
    rcases h with h | h
    · left
      omega
    · exact Or.inr h

/-- A set in decreasing order begins with its greatest element. -/
theorem sort_eq_cons {t : Finset ℕ} {x : ℕ} (hx : x ∈ t) (hmax : ∀ s ∈ t, s ≤ x) :
    t.sort (· ≥ ·) = x :: (t.erase x).sort (· ≥ ·) := by
  conv_lhs => rw [← Finset.insert_erase hx]
  exact Finset.sort_insert _ (fun s hs => hmax s (Finset.mem_of_mem_erase hs))
    (Finset.notMem_erase x t)

/-- **The loop lists what the intervals cover**, from the top, without what was listed last. -/
theorem recentLoop_eq {limit : ℕ} {heap : List (ℕ × ℕ)} {previous : Option ℕ} {result : List ℕ}
    (h : HeapBelow previous heap) (hlimit : result.length ≤ limit) :
    recentLoop limit heap previous result =
      result ++ ((uncovered previous heap).sort (· ≥ ·)).take (limit - result.length) := by
  induction hn : turns heap using Nat.strong_induction_on generalizing heap previous result with
  | _ n ih =>
  rw [recentLoop.eq_def]
  by_cases hlt : result.length < limit
  · rw [if_pos hlt]
    rcases heap with - | ⟨p, rest⟩
    · simp [uncovered, covered]
    have hrest : turns rest < n := by
      rw [← hn]
      simp only [turns, List.map_cons, List.sum_cons]
      omega
    obtain ⟨sequence, first⟩ := p
    simp only
    by_cases hempty : first ≤ sequence
    · have hturns : turns (popInterval (sequence, first) rest) < n := by
        unfold popInterval
        split_ifs with hless
        · rw [turns_pushInterval, ← hn]
          simp only [turns, List.map_cons, List.sum_cons] at hless ⊢
          omega
        · exact hrest
      have hloop : ∀ result : List ℕ,
          (if first < sequence then
              recentLoop limit (pushInterval rest (sequence - 1, first)) (some sequence) result
            else recentLoop limit rest (some sequence) result) =
          recentLoop limit (popInterval (sequence, first) rest) (some sequence) result := by
        intro result
        unfold popInterval
        split_ifs <;> rfl
      rw [if_pos hempty, hloop]
      by_cases hprevious : previous = some sequence
      · rw [if_pos hprevious, ih _ hturns h.pop hlimit rfl, uncovered_pop hempty,
          hprevious, uncovered_some]
      · have htop := h.le_first
        have hcovered : uncovered previous ((sequence, first) :: rest) =
            covered ((sequence, first) :: rest) := by
          refine Finset.filter_true_of_mem fun s hs hprev => ?_
          -- a sequence that was listed before is above all that are covered
          obtain ⟨q, hq, -, hle⟩ := mem_covered.mp hs
          have h₁ := h.below s hprev _ List.mem_cons_self
          have h₂ := htop q hq
          exact hprevious (hprev.trans (congrArg some (by simp only at h₁ h₂; omega)))
        have hsort : (covered ((sequence, first) :: rest)).sort (· ≥ ·) =
            sequence :: ((covered ((sequence, first) :: rest)).erase sequence).sort (· ≥ ·) := by
          refine sort_eq_cons (mem_covered_cons.mpr (Or.inl ⟨hempty, le_rfl⟩)) fun s hs => ?_
          obtain ⟨q, hq, -, hle⟩ := mem_covered.mp hs
          exact hle.trans (htop q hq)
        have hlen : (result ++ [sequence]).length ≤ limit := by
          rw [List.length_append]
          exact hlt
        rw [if_neg hprevious, ih _ hturns h.pop hlen rfl, uncovered_pop hempty, hcovered, hsort,
          show limit - result.length = limit - (result ++ [sequence]).length + 1 by
            rw [List.length_append, List.length_singleton]
            omega,
          List.take_succ_cons, List.append_assoc, List.singleton_append]
    · rw [if_neg hempty, ih _ hrest ⟨(List.pairwise_cons.mp h.sorted).2, fun x hx q hq =>
        h.below x hx q (List.mem_cons_of_mem _ hq)⟩ hlimit rfl]
      have hcovered : covered ((sequence, first) :: rest) = covered rest := by
        ext s
        rw [mem_covered_cons]
        refine or_iff_right fun hs => hempty (hs.1.trans hs.2)
      rw [uncovered, uncovered, hcovered]
  · rw [if_neg hlt, show limit - result.length = 0 by omega, List.take_zero, List.append_nil]

/-- Pushing intervals one by one. -/
theorem foldl_pushInterval (intervals heap : List (ℕ × ℕ)) (h : heap.Pairwise Later) :
    (intervals.foldl pushInterval heap).Pairwise Later ∧
      covered (intervals.foldl pushInterval heap) = covered (intervals ++ heap) := by
  induction intervals generalizing heap with
  | nil => exact ⟨h, rfl⟩
  | cons p intervals ih =>
    obtain ⟨hsorted, hcovered⟩ := ih (pushInterval heap p) (pairwise_pushInterval h p)
    refine ⟨hsorted, ?_⟩
    rw [List.foldl_cons, hcovered]
    apply covered_perm
    exact ((perm_pushInterval heap p).append_left intervals).trans List.perm_middle

/-- What the check says of the ranges. -/
theorem validateRanges_eq_ok_iff {evaluatedThrough previous : ℕ} {ranges : List SequenceRange} :
    validateRanges evaluatedThrough previous ranges = .ok () ↔
      (∀ r ∈ ranges, 0 < r.first ∧ r.first ≤ r.last ∧ previous < r.first ∧
        r.last ≤ evaluatedThrough) ∧
        ranges.Pairwise fun a b => a.last < b.first := by
  induction ranges generalizing previous with
  | nil => simp [validateRanges]
  | cons r ranges ih =>
    rw [validateRanges]
    split_ifs with h₁ h₂ h₃
    · rw [ih, List.pairwise_cons]
      constructor
      · rintro ⟨hall, hpairwise⟩
        refine ⟨fun q hq => ?_, fun q hq => (hall q hq).2.2.1, hpairwise⟩
        rcases List.mem_cons.mp hq with rfl | hq
        · omega
        · have := hall q hq
          omega
      · rintro ⟨hall, hafter, hpairwise⟩
        refine ⟨fun q hq => ?_, hpairwise⟩
        have := hall q (List.mem_cons_of_mem _ hq)
        have := hafter q hq
        omega
    all_goals
      simp only [false_iff, not_and]
      intro h
      have := h r List.mem_cons_self
      omega

/-- What the check says of the pins. -/
theorem validatePins_eq_ok_iff {previous : ℕ} {pins : List Pin} :
    validatePins previous pins = .ok () ↔
      (∀ pin ∈ pins, previous < pin.sequence) ∧ pins.Pairwise fun a b =>
        a.sequence < b.sequence := by
  induction pins generalizing previous with
  | nil => simp [validatePins]
  | cons pin pins ih =>
    rw [validatePins]
    split_ifs with h
    · rw [ih, List.pairwise_cons]
      constructor
      · rintro ⟨hall, hpairwise⟩
        refine ⟨fun q hq => ?_, hall, hpairwise⟩
        rcases List.mem_cons.mp hq with rfl | hq
        · exact h
        · exact h.trans (hall q hq)
      · rintro ⟨hall, hafter, hpairwise⟩
        exact ⟨hafter, hpairwise⟩
    · simp only [false_iff, not_and]
      intro hall
      exact absurd (hall pin List.mem_cons_self) h

/-- **What the check says of a state.** -/
theorem validateState_eq_ok_iff {state : RetentionState} :
    validateState state = .ok () ↔
      ((∀ r ∈ state.retained, 0 < r.first ∧ r.first ≤ r.last ∧ r.last ≤ state.evaluatedThrough) ∧
        state.retained.Pairwise fun a b => a.last < b.first) ∧
      (∀ pin ∈ state.pins, 0 < pin.sequence) ∧
        state.pins.Pairwise fun a b => a.sequence < b.sequence := by
  have hbind : validateState state = .ok () ↔
      validateRanges state.evaluatedThrough 0 state.retained = .ok () ∧
        validatePins 0 state.pins = .ok () := by
    unfold validateState
    rcases validateRanges state.evaluatedThrough 0 state.retained with e | _
    · simp [bind, Except.bind]
    · simp [bind, Except.bind]
  rw [hbind, validateRanges_eq_ok_iff, validatePins_eq_ok_iff]
  refine and_congr (and_congr (forall₂_congr fun r _ => ?_) Iff.rfl) Iff.rfl
  omega

namespace RetentionState

variable {state : RetentionState} {head : ℕ}

/-- A sequence is retained when it is not yet evaluated, in a retained range or pinned. -/
theorem mem_retainedSet {s : ℕ} : s ∈ state.retainedSet head ↔
    (1 ≤ s ∧ s ≤ head) ∧ (state.evaluatedThrough < s ∨ inRanges state.retained s ∨
      s ∈ state.pins.map Pin.sequence) := by
  rw [retainedSet, Finset.mem_filter, Finset.mem_Icc]

/-- The intervals cover what is retained. -/
theorem covered_intervals (h : validateState state = .ok ())
    (hhead : state.evaluatedThrough ≤ head) :
    covered (state.intervals head) = state.retainedSet head := by
  obtain ⟨⟨hranges, -⟩, hpins, -⟩ := validateState_eq_ok_iff.mp h
  ext s
  rw [mem_retainedSet]
  simp only [mem_covered, intervals, List.mem_append, inRanges]
  constructor
  · rintro ⟨p, (hp | hp) | hp, hs⟩
    · split_ifs at hp with hlt
      · rw [List.mem_singleton] at hp
        subst hp
        simp only at hs
        exact ⟨by omega, Or.inl (by omega)⟩
      · cases hp
    · obtain ⟨r, hr, rfl⟩ := List.mem_map.mp hp
      have := hranges r hr
      simp only at hs
      exact ⟨by omega, Or.inr (Or.inl ⟨r, hr, by omega⟩)⟩
    · obtain ⟨pin, hpin, rfl⟩ := List.mem_map.mp hp
      rw [List.mem_filter, decide_eq_true_eq] at hpin
      have := hpins pin hpin.1
      simp only at hs
      exact ⟨by omega, Or.inr (Or.inr (List.mem_map.mpr ⟨pin, hpin.1, by omega⟩))⟩
  · rintro ⟨hs, hlt | ⟨r, hr, hin⟩ | hpin⟩
    · refine ⟨(head, state.evaluatedThrough + 1), Or.inl (Or.inl ?_), hlt, hs.2⟩
      rw [if_pos (by omega)]
      exact List.mem_singleton_self _
    · exact ⟨_, Or.inl (Or.inr (List.mem_map_of_mem hr)), hin.1, by simp only; omega⟩
    · obtain ⟨pin, hmem, rfl⟩ := List.mem_map.mp hpin
      refine ⟨(pin.sequence, pin.sequence),
        Or.inr (List.mem_map.mpr ⟨pin, ?_, rfl⟩), le_rfl, le_rfl⟩
      rw [List.mem_filter, decide_eq_true_eq]
      exact ⟨hmem, hs.2⟩

/-- **The list is the retained set from the top.** -/
theorem recentSequences_eq (h : validateState state = .ok ())
    (hhead : state.evaluatedThrough ≤ head) (limit : ℕ) : state.recentSequences head limit =
      ((state.retainedSet head).sort (· ≥ ·)).take limit := by
  unfold recentSequences
  split_ifs with hzero
  · rcases hzero with rfl | rfl
    · rfl
    · simp [retainedSet]
  · obtain ⟨hsorted, hcovered⟩ := foldl_pushInterval (state.intervals head) [] List.Pairwise.nil
    rw [List.append_nil, covered_intervals h hhead] at hcovered
    have hbelow : HeapBelow none ((state.intervals head).foldl pushInterval []) :=
      ⟨hsorted, fun x hx => by cases hx⟩
    rw [recentLoop_eq hbelow (Nat.zero_le _), List.nil_append, List.length_nil, Nat.sub_zero]
    have hall : uncovered none ((state.intervals head).foldl pushInterval []) =
        state.retainedSet head := by
      rw [uncovered, hcovered]
      exact Finset.filter_true_of_mem fun s _ hs => by cases hs
    rw [hall]

end RetentionState

/-! ## The count -/

/-- The sequences of ranges. -/
def rangesSet (ranges : List SequenceRange) : Finset ℕ :=
  covered (ranges.map fun r => (r.last, r.first))

/-- The set of the ranges. -/
theorem mem_rangesSet {ranges : List SequenceRange} {s : ℕ} :
    s ∈ rangesSet ranges ↔ inRanges ranges s := by
  simp [rangesSet, mem_covered, inRanges]

/-- Ranges one after the other hold as many sequences as their lengths add up to. -/
theorem card_rangesSet {ranges : List SequenceRange} (hvalid : ∀ r ∈ ranges, r.first ≤ r.last)
    (h : ranges.Pairwise fun a b => a.last < b.first) :
    (rangesSet ranges).card = (ranges.map fun r => r.last - r.first + 1).sum := by
  induction ranges with
  | nil => rfl
  | cons r ranges ih =>
    obtain ⟨hafter, hpairwise⟩ := List.pairwise_cons.mp h
    have hr := hvalid r List.mem_cons_self
    have hunion : rangesSet (r :: ranges) = Finset.Icc r.first r.last ∪ rangesSet ranges := by
      ext s
      rw [Finset.mem_union, Finset.mem_Icc, rangesSet, List.map_cons, mem_covered_cons]
      rfl
    have hdisjoint : Disjoint (Finset.Icc r.first r.last) (rangesSet ranges) := by
      rw [Finset.disjoint_left]
      intro s hs hs'
      obtain ⟨q, hq, hfirst, -⟩ := mem_rangesSet.mp hs'
      have := hafter q hq
      rw [Finset.mem_Icc] at hs
      omega
    rw [hunion, Finset.card_union_of_disjoint hdisjoint, Nat.card_Icc,
      ih (fun q hq => hvalid q (List.mem_cons_of_mem _ hq)) hpairwise, List.map_cons, List.sum_cons]
    omega

/-- Counting some elements of a list, with saturation. -/
theorem foldl_saturatingAdd {α : Type} (p : α → Prop) [DecidablePred p] (l : List α) (count : ℕ) :
    l.foldl (fun count a => if p a then saturatingAdd count 1 else count) (min (2 ^ 64 - 1) count) =
      min (2 ^ 64 - 1) (count + (l.filter fun a => p a).length) := by
  induction l generalizing count with
  | nil => simp
  | cons a l ih =>
    rw [List.foldl_cons]
    by_cases ha : p a
    · have hadd : saturatingAdd (min (2 ^ 64 - 1) count) 1 = min (2 ^ 64 - 1) (count + 1) := by
        unfold saturatingAdd
        omega
      rw [if_pos ha, hadd, ih, List.filter_cons_of_pos (by simpa using ha), List.length_cons]
      congr 1
      omega
    · rw [if_neg ha, ih, List.filter_cons_of_neg (by simpa using ha)]

namespace RetentionState

variable {state : RetentionState} {head : ℕ}

/-- The binary search answers whether a range holds the sequence. -/
theorem retainsInRanges_iff {s : ℕ} :
    state.retainsInRanges s = true ↔ inRanges state.retained s := by
  simp [retainsInRanges, inRanges]

/-- The pins that no range holds, among the evaluated sequences. -/
def loosePins (state : RetentionState) : List Pin :=
  state.pins.filter fun pin =>
    pin.sequence ≤ state.evaluatedThrough ∧ state.retainsInRanges pin.sequence = false

/-- The retained set in the three parts that are counted. -/
theorem retainedSet_eq (h : validateState state = .ok ()) (hhead : state.evaluatedThrough ≤ head) :
    state.retainedSet head = rangesSet state.retained ∪
      (Finset.Ioc state.evaluatedThrough head ∪ (state.loosePins.map Pin.sequence).toFinset) := by
  obtain ⟨⟨hranges, -⟩, hpins, -⟩ := validateState_eq_ok_iff.mp h
  have hloose : ∀ s, s ∈ (state.loosePins.map Pin.sequence).toFinset ↔
      s ≤ state.evaluatedThrough ∧ ¬ inRanges state.retained s ∧
        s ∈ state.pins.map Pin.sequence := by
    intro s
    rw [List.mem_toFinset, loosePins]
    simp only [List.mem_map, List.mem_filter, decide_eq_true_eq, ← retainsInRanges_iff,
      Bool.not_eq_true]
    constructor
    · rintro ⟨pin, ⟨hpin, hle, hno⟩, rfl⟩
      exact ⟨hle, hno, pin, hpin, rfl⟩
    · rintro ⟨hle, hno, pin, hpin, rfl⟩
      exact ⟨pin, ⟨hpin, hle, hno⟩, rfl⟩
  ext s
  rw [mem_retainedSet, Finset.mem_union, Finset.mem_union, mem_rangesSet, Finset.mem_Ioc, hloose]
  constructor
  · rintro ⟨hs, hlt | hin | hpin⟩
    · exact Or.inr (Or.inl ⟨hlt, hs.2⟩)
    · exact Or.inl hin
    · by_cases hin : inRanges state.retained s
      · exact Or.inl hin
      · rcases lt_or_ge state.evaluatedThrough s with hlt | hle
        · exact Or.inr (Or.inl ⟨hlt, hs.2⟩)
        · exact Or.inr (Or.inr ⟨hle, hin, hpin⟩)
  · rintro (⟨r, hr, hin⟩ | ⟨hlt, hle⟩ | ⟨hle, -, hpin⟩)
    · have := hranges r hr
      exact ⟨by omega, Or.inr (Or.inl ⟨r, hr, hin⟩)⟩
    · exact ⟨by omega, Or.inl hlt⟩
    · obtain ⟨pin, hmem, rfl⟩ := List.mem_map.mp hpin
      exact ⟨⟨hpins pin hmem, hle.trans hhead⟩, Or.inr (Or.inr hpin)⟩

/-- **The count is the size of the retained set.** -/
theorem retainedCount_eq (h : validateState state = .ok ()) (hhead : state.evaluatedThrough ≤ head)
    (hmax : head < 2 ^ 64) : state.retainedCount head = (state.retainedSet head).card := by
  obtain ⟨⟨hranges, hpairwise⟩, -, hsorted⟩ := validateState_eq_ok_iff.mp h
  have hcard : (state.retainedSet head).card =
      state.retainedCountThrough + (head - state.evaluatedThrough) + state.loosePins.length := by
    have hnodup : (state.loosePins.map Pin.sequence).Nodup :=
      List.pairwise_map.mpr ((hsorted.sublist List.filter_sublist).imp fun hlt => ne_of_lt hlt)
    have hloose : ∀ s ∈ (state.loosePins.map Pin.sequence).toFinset,
        s ≤ state.evaluatedThrough ∧ ¬ inRanges state.retained s := by
      intro s hs
      rw [List.mem_toFinset] at hs
      obtain ⟨pin, hpin, rfl⟩ := List.mem_map.mp hs
      rw [loosePins, List.mem_filter, decide_eq_true_eq] at hpin
      rw [← retainsInRanges_iff, Bool.not_eq_true]
      exact hpin.2
    have hdisjoint : Disjoint (Finset.Ioc state.evaluatedThrough head)
        (state.loosePins.map Pin.sequence).toFinset := by
      rw [Finset.disjoint_left]
      intro s hs hs'
      rw [Finset.mem_Ioc] at hs
      have := (hloose s hs').1
      omega
    have hdisjoint' : Disjoint (rangesSet state.retained) (Finset.Ioc state.evaluatedThrough head ∪
        (state.loosePins.map Pin.sequence).toFinset) := by
      rw [Finset.disjoint_left]
      intro s hs hs'
      rw [mem_rangesSet] at hs
      rcases Finset.mem_union.mp hs' with hs' | hs'
      · obtain ⟨r, hr, -, hle⟩ := hs
        have := hranges r hr
        rw [Finset.mem_Ioc] at hs'
        omega
      · exact (hloose s hs').2 hs
    rw [retainedSet_eq h hhead, Finset.card_union_of_disjoint hdisjoint',
      Finset.card_union_of_disjoint hdisjoint,
        card_rangesSet (fun r hr => (hranges r hr).2.1) hpairwise,
      Nat.card_Ioc, List.toFinset_card_of_nodup hnodup, List.length_map, retainedCountThrough]
    omega
  have hle : (state.retainedSet head).card ≤ head := by
    have := Finset.card_filter_le (Finset.Icc 1 head) fun s =>
      state.evaluatedThrough < s ∨ inRanges state.retained s ∨ s ∈ state.pins.map Pin.sequence
    rw [Nat.card_Icc] at this
    exact this
  -- no addition saturates, as every count on the way is at most the head
  have hcount : (if state.evaluatedThrough < head then
      saturatingAdd state.retainedCountThrough (head - state.evaluatedThrough)
      else state.retainedCountThrough) =
        min (2 ^ 64 - 1) (state.retainedCountThrough + (head - state.evaluatedThrough)) := by
    unfold saturatingAdd
    split_ifs <;> omega
  unfold retainedCount
  simp only [hcount]
  rw [foldl_saturatingAdd (fun pin : Pin => pin.sequence ≤ state.evaluatedThrough ∧
    state.retainsInRanges pin.sequence = false), hcard]
  rw [hcard] at hle
  unfold loosePins at hle ⊢
  omega

end RetentionState

/-! ## The writes of the log -/

/-- Ranges, the last one first, that come before some sequences. -/
structure RangesBefore (bound : ℕ) (ranges : List SequenceRange) (sequences : List ℕ) : Prop where
  valid : ∀ r ∈ ranges, 0 < r.first ∧ r.first ≤ r.last ∧ r.last ≤ bound
  pairwise : ranges.Pairwise fun a b => b.last < a.first
  before : ∀ r ∈ ranges, ∀ s ∈ sequences, r.last < s

/-- Pushing the next sequence keeps the ranges before what is to come. -/
theorem RangesBefore.push {bound s : ℕ} {ranges : List SequenceRange} {sequences : List ℕ}
    (h : RangesBefore bound ranges (s :: sequences)) (hs : 0 < s ∧ s ≤ bound)
    (hnext : ∀ x ∈ sequences, s < x) : RangesBefore bound (pushSequence ranges s) sequences := by
  unfold pushSequence
  rcases ranges with - | ⟨⟨first, last⟩, rest⟩
  · refine ⟨fun r hr => ?_, List.pairwise_singleton _ _, fun r hr => ?_⟩
    · rw [List.mem_singleton.mp hr]
      exact ⟨hs.1, le_rfl, hs.2⟩
    · rw [List.mem_singleton.mp hr]
      exact hnext
  have hhead := h.valid ⟨first, last⟩ List.mem_cons_self
  have hlast := h.before ⟨first, last⟩ List.mem_cons_self s List.mem_cons_self
  obtain ⟨hafter, hpairwise⟩ := List.pairwise_cons.mp h.pairwise
  simp only at hhead hlast hafter ⊢
  split_ifs
  · refine ⟨fun r hr => ?_, List.pairwise_cons.mpr ⟨hafter, hpairwise⟩, fun r hr x hx => ?_⟩
    · rcases List.mem_cons.mp hr with rfl | hr
      · simp only
        omega
      · exact h.valid r (List.mem_cons_of_mem _ hr)
    · rcases List.mem_cons.mp hr with rfl | hr
      · exact hnext x hx
      · exact h.before r (List.mem_cons_of_mem _ hr) x (List.mem_cons_of_mem _ hx)
  · refine ⟨fun r hr => ?_, List.pairwise_cons.mpr ⟨fun r hr => ?_, h.pairwise⟩,
      fun r hr x hx => ?_⟩
    · rcases List.mem_cons.mp hr with rfl | hr
      · exact ⟨hs.1, le_rfl, hs.2⟩
      · exact h.valid r hr
    · exact h.before r hr s List.mem_cons_self
    · rcases List.mem_cons.mp hr with rfl | hr
      · exact hnext x hx
      · exact h.before r hr x (List.mem_cons_of_mem _ hx)

/-- The ranges of increasing sequences are in order. -/
theorem compressSequences_valid {bound : ℕ} {sequences : List ℕ}
    (hsorted : sequences.Pairwise (· < ·)) (hbound : ∀ s ∈ sequences, 0 < s ∧ s ≤ bound) :
    (∀ r ∈ compressSequences sequences, 0 < r.first ∧ r.first ≤ r.last ∧ r.last ≤ bound) ∧
      (compressSequences sequences).Pairwise fun a b => a.last < b.first := by
  have hfold : ∀ (sequences : List ℕ) (ranges : List SequenceRange), sequences.Pairwise (· < ·) →
      (∀ s ∈ sequences, 0 < s ∧ s ≤ bound) → RangesBefore bound ranges sequences →
      RangesBefore bound (sequences.foldl pushSequence ranges) [] := by
    intro sequences
    induction sequences with
    | nil => exact fun ranges _ _ h => h
    | cons s sequences ih =>
      intro ranges hsorted hbound h
      obtain ⟨hnext, hsorted⟩ := List.pairwise_cons.mp hsorted
      exact ih _ hsorted (fun x hx => hbound x (List.mem_cons_of_mem _ hx))
        (h.push (hbound s List.mem_cons_self) hnext)
  have h := hfold sequences [] hsorted hbound
    ⟨fun r hr => absurd hr List.not_mem_nil, List.Pairwise.nil, fun r hr =>
      absurd hr List.not_mem_nil⟩
  unfold compressSequences
  exact ⟨fun r hr => h.valid r (List.mem_reverse.mp hr), List.pairwise_reverse.mpr h.pairwise⟩

/-- A log of references and the state of its retention. -/
structure RetentionRun where
  records : List RefRecord
  state : RetentionState

/-- The writes: the log of references grows, the policy is applied, and snapshots are pinned and
unpinned. -/
inductive RetentionStep : RetentionRun → RetentionRun → Prop
  | grow {records new : List RefRecord} {state : RetentionState} (h : OrderedLog (records ++ new)) :
      RetentionStep ⟨records, state⟩ ⟨records ++ new, state⟩
  | apply {records : List RefRecord} {state : RetentionState} (now : ℤ) :
      RetentionStep ⟨records, state⟩ ⟨records, applyRetention records now state⟩
  | pin {records : List RefRecord} {state state' : RetentionState} (id : ObjectId)
      (h : pinSnapshot records id state = some state') :
      RetentionStep ⟨records, state⟩ ⟨records, state'⟩
  | unpin {records : List RefRecord} {state : RetentionState} (id : ObjectId) :
      RetentionStep ⟨records, state⟩ ⟨records, unpinSnapshot id state⟩

/-- What holds in every run: the state passes the check, and every pin is of a record. -/
structure RetentionSound (run : RetentionRun) : Prop where
  ordered : OrderedLog run.records
  valid : validateState run.state = .ok ()
  pinned : ∀ pin ∈ run.state.pins, ∃ r ∈ run.records,
    r.sequence = pin.sequence ∧ r.snapshotId = pin.snapshotId

/-- A plan passes the check. -/
theorem validateState_planState {run : RetentionRun} (h : RetentionSound run) (now : ℤ) (n : ℕ) :
    validateState { planState run.records now run.state.pins with eventSequence := n } = .ok
      () := by
  have hthrough : (planState run.records now run.state.pins).evaluatedThrough =
      lastSequence run.records := (loopSpec_planLoop now _ run.records).through
  have hkeys : ∀ s ∈ (plannedSequences now run.records run.state.pins).keys,
      0 < s ∧ s ≤ lastSequence run.records := by
    intro s hs
    have hrecord : ∀ r ∈ run.records, 0 < r.sequence ∧ r.sequence ≤ lastSequence run.records :=
      fun r hr => ⟨h.ordered.positive r hr, h.ordered.sequence_le hr⟩
    rcases (mem_plannedSequences_iff now run.records run.state.pins s).mp hs with
      ⟨r, hr, rfl, -⟩ | ⟨w, rfl, hw⟩ | hpin | ⟨rfl, hpos⟩
    · exact hrecord r hr
    · exact hrecord w hw.1
    · obtain ⟨pin, hmem, rfl⟩ := List.mem_map.mp hpin
      obtain ⟨r, hr, hseq, -⟩ := h.pinned pin hmem
      rw [← hseq]
      exact hrecord r hr
    · exact ⟨hpos, le_rfl⟩
  have hranges := compressSequences_valid (OrdMap.keys_sorted _) hkeys
  rw [← hthrough] at hranges
  exact validateState_eq_ok_iff.mpr ⟨hranges, (validateState_eq_ok_iff.mp h.valid).2⟩

/-- The record of a snapshot that is found. -/
theorem mem_of_findRecord {records : List RefRecord} {id : ObjectId} {r : RefRecord}
    (h : findRecord records id = some r) : r ∈ records ∧ r.snapshotId = id := by
  unfold findRecord at h
  exact ⟨List.mem_reverse.mp (List.mem_of_find?_eq_some h), by simpa using List.find?_some h⟩

/-- A pin keeps the pins in order. -/
theorem RetentionSound.pin {run : RetentionRun} (h : RetentionSound run) {id : ObjectId}
    {state' : RetentionState} (hpin : pinSnapshot run.records id run.state = some state') :
    RetentionSound ⟨run.records, state'⟩ := by
  unfold pinSnapshot at hpin
  cases hfind : findRecord run.records id with
  | none => simp [hfind] at hpin
  | some r =>
    obtain ⟨hr, hid⟩ := mem_of_findRecord hfind
    rw [hfind] at hpin
    simp only at hpin
    split_ifs at hpin with hpinned
    · rw [← Option.some.inj hpin]
      exact h
    · have hperm := List.perm_insertionSort (fun p q : Pin => p.sequence ≤ q.sequence)
        (run.state.pins ++ [⟨r.sequence, id⟩])
      obtain ⟨hranges, hpos, hsorted⟩ := validateState_eq_ok_iff.mp h.valid
      have hmem : ∀ pin : Pin, pin ∈ List.insertionSort (fun p q : Pin => p.sequence ≤ q.sequence)
          (run.state.pins ++ [⟨r.sequence, id⟩]) ↔
            pin ∈ run.state.pins ∨ pin = ⟨r.sequence, id⟩ := by
        intro pin
        rw [hperm.mem_iff, List.mem_append, List.mem_singleton]
      -- a pin with this sequence would be one of this snapshot
      have hnew : r.sequence ∉ run.state.pins.map Pin.sequence := by
        intro hseq
        obtain ⟨pin, hpin', hseq⟩ := List.mem_map.mp hseq
        obtain ⟨r', hr', hseq', hid'⟩ := h.pinned pin hpin'
        apply hpinned
        rw [RetentionState.isPinned, List.any_eq_true]
        refine ⟨pin, hpin', ?_⟩
        rw [decide_eq_true_eq, ← hid', h.ordered.eq_of_sequence hr' hr (hseq'.trans hseq), hid]
      have hnodup : ((List.insertionSort (fun p q : Pin => p.sequence ≤ q.sequence)
          (run.state.pins ++ [⟨r.sequence, id⟩])).map Pin.sequence).Nodup := by
        rw [(hperm.map _).nodup_iff, List.map_append, List.nodup_append]
        refine ⟨List.pairwise_map.mpr (hsorted.imp fun hlt => ne_of_lt hlt), by simp, ?_⟩
        intro s hs s' hs' heq
        simp only [List.map_cons, List.map_nil, List.mem_singleton] at hs'
        exact hnew (hs' ▸ heq ▸ hs)
      have hle : (List.insertionSort (fun p q : Pin => p.sequence ≤ q.sequence)
          (run.state.pins ++ [⟨r.sequence, id⟩])).Pairwise fun a b => a.sequence ≤ b.sequence := by
        have : Std.Total fun p q : Pin => p.sequence ≤ q.sequence := ⟨fun p q => le_total _ _⟩
        have : IsTrans Pin fun p q => p.sequence ≤ q.sequence := ⟨fun p q s => le_trans⟩
        exact List.pairwise_insertionSort _ _
      rw [← Option.some.inj hpin]
      refine ⟨h.ordered,
        validateState_eq_ok_iff.mpr ⟨hranges, fun pin hp => ?_, ?_⟩, fun pin hp => ?_⟩
      · rcases (hmem pin).mp hp with hp | rfl
        · exact hpos pin hp
        · exact h.ordered.positive r hr
      · exact (hle.and (List.pairwise_map.mp hnodup)).imp fun h => lt_of_le_of_ne h.1 h.2
      · rcases (hmem pin).mp hp with hp | rfl
        · exact h.pinned pin hp
        · exact ⟨r, hr, rfl, hid⟩

/-- **Every write leaves a state that passes the check.** -/
theorem RetentionSound.step {run run' : RetentionRun} (h : RetentionSound run)
    (hstep : RetentionStep run run') : RetentionSound run' := by
  cases hstep with
  | grow hordered =>
    refine ⟨hordered, h.valid, fun pin hpin => ?_⟩
    obtain ⟨r, hr, hrest⟩ := h.pinned pin hpin
    exact ⟨r, List.mem_append_left _ hr, hrest⟩
  | @apply records state now =>
    unfold applyRetention
    simp only
    split_ifs
    · exact h
    · exact ⟨h.ordered, validateState_planState h now _, h.pinned⟩
  | pin id hpin => exact h.pin hpin
  | unpin id =>
    unfold unpinSnapshot
    simp only
    split_ifs
    · exact h
    · obtain ⟨hranges, hpos, hsorted⟩ := validateState_eq_ok_iff.mp h.valid
      exact ⟨h.ordered, validateState_eq_ok_iff.mpr ⟨hranges,
        fun pin hpin =>
          hpos pin (List.mem_of_mem_filter hpin), hsorted.sublist List.filter_sublist⟩,
        fun pin hpin => h.pinned pin (List.mem_of_mem_filter hpin)⟩

/-- The states that any sequence of writes leads to. -/
def RetentionReachable (run : RetentionRun) : Prop :=
  Relation.ReflTransGen RetentionStep ⟨[], .initial⟩ run

/-- **The state passes the check in every run.** -/
theorem RetentionReachable.sound {run : RetentionRun} (h : RetentionReachable run) :
    RetentionSound run := by
  induction h with
  | refl => exact ⟨⟨List.Pairwise.nil, by simp⟩, rfl, fun pin hpin => absurd hpin List.not_mem_nil⟩
  | tail _ hstep ih => exact ih.step hstep

/-- **The answers of the retention log agree.**  In every run the state passes the check, the list
is the retained set from the top and the count is its size, for every head that is not before the
evaluated sequences. -/
theorem retention_answers {run : RetentionRun} (h : RetentionReachable run) :
    validateState run.state = .ok () ∧
      ∀ head, run.state.evaluatedThrough ≤ head → head < 2 ^ 64 →
        (∀ limit, run.state.recentSequences head limit =
          ((run.state.retainedSet head).sort (· ≥ ·)).take limit) ∧
        run.state.retainedCount head = (run.state.retainedSet head).card :=
  ⟨h.sound.valid, fun _ hhead hmax =>
    ⟨RetentionState.recentSequences_eq h.sound.valid hhead,
      RetentionState.retainedCount_eq h.sound.valid hhead hmax⟩⟩

/-- A run in which one snapshot is published, pinned and evaluated. -/
theorem retention_answers_pinned :
    (applyRetention [⟨1, .fill 1, 0⟩] 5 ⟨1, 0, 0, [], [⟨1, .fill 1⟩]⟩).retainedCount 3 =
      ((applyRetention [⟨1, .fill 1, 0⟩] 5 ⟨1, 0, 0, [], [⟨1, .fill 1⟩]⟩).retainedSet 3).card := by
  have hgrow : RetentionStep ⟨[], .initial⟩ ⟨[] ++ [⟨1, .fill 1, 0⟩], .initial⟩ :=
    .grow ⟨List.pairwise_singleton _ _, by simp⟩
  have hpin : RetentionStep ⟨[⟨1, .fill 1, 0⟩], .initial⟩
      ⟨[⟨1, .fill 1, 0⟩], ⟨1, 0, 0, [], [⟨1, .fill 1⟩]⟩⟩ := .pin (.fill 1) (by decide)
  have hreach : RetentionReachable ⟨[⟨1, .fill 1, 0⟩],
      applyRetention [⟨1, .fill 1, 0⟩] 5 ⟨1, 0, 0, [], [⟨1, .fill 1⟩]⟩⟩ :=
    ((Relation.ReflTransGen.single hgrow).tail hpin).tail (.apply 5)
  exact ((retention_answers hreach).2 3 (by decide) (by decide)).2

end Furrow
