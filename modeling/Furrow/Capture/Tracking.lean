import Mathlib
import Furrow.Lib.OrdMap
import Furrow.Lib.Run
import Furrow.Model

set_option relaxedAutoImplicit false
set_option autoImplicit false

/-!
# Change tracking

A retained repository watches its files (`change_tracking.rs`).  The events of the watcher arrive in
a queue; a fence takes what has arrived into a table of dirty paths, each with a sequence number.  A
capture takes the dirty paths, or those it is told, and at its end drops from the table what it has
read, unless it is not sure of the table.

## Main definitions

* `Furrow.ChangeTracker` — the queue, the table and the head they are relative to.
* `Furrow.trackedChanges`, `Furrow.beginCapture`, `Furrow.finishCapture` — the operations.
* `Furrow.TrackStep` — the steps of a repository whose files are written.

## Main results

* `Furrow.TrackInv.step` — what every step keeps.
* `Furrow.no_change_lost` — no change is missing from the dirty paths.

## Implementation notes

The times of writes and of reads, and `newest`, which says up to when the events of a path are in
the table, are there for the statements.  The fence's own events are left out; a fence that is not
reached, or that cannot be written, makes the tracker uncertain.
-/

namespace Furrow

/-- An absolute path, by its components. -/
abbrev WatchPath := List Bytes

/-- An event of the watcher, and when it arrived.  It is not sure if it asks for a rescan, reports
an error, or a name or a directory appears or goes away. -/
structure WatchEvent where
  paths : List WatchPath
  unsure : Bool
  time : ℕ

/-- `QUEUE` -/
def watchQueue : ℕ := 8192

/-- The watcher's queue and what was taken from it (`ChangeTracker`).  The identity stands for the
policy, the generation of the store and the mounts. -/
structure ChangeTracker (I : Type) where
  queue : List WatchEvent
  overflow : Bool
  dirty : OrdMap WatchPath ℕ
  sequence : ℕ
  uncertain : Bool
  baseline : Option ObjectId
  identity : I
  newest : WatchPath → ℕ

/-- How a fence ends. -/
inductive Fence
  /-- The marker has come through the queue. -/
  | reached
  /-- The time was over after some events. -/
  | late (n : ℕ)
  /-- The marker cannot be written. -/
  | unwritten

namespace ChangeTracker

variable {I : Type}

/-- A tracker that was just registered. -/
def new (identity : I) : ChangeTracker I :=
  ⟨[], false, OrdMap.empty, 0, false, none, identity, fun _ => 0⟩

/-- An event arrives; a full queue drops it. -/
def receive (t : ChangeTracker I) (e : WatchEvent) : ChangeTracker I :=
  if t.queue.length < watchQueue then { t with queue := t.queue ++ [e] }
  else { t with overflow := true }

/-- Note a path of an event. -/
def recordPath (time : ℕ) (t : ChangeTracker I) (path : WatchPath) : ChangeTracker I :=
  let dirty := t.dirty.insert path (t.sequence + 1)
  let newest := Function.update t.newest path (max (t.newest path) time)
  if watchQueue < dirty.toList.length then
    { t with
      sequence := t.sequence + 1
      dirty := OrdMap.empty
      uncertain := true
      newest := newest }
  else { t with sequence := t.sequence + 1, dirty := dirty, newest := newest }

/-- Take an event into the table (`record`). -/
def record (t : ChangeTracker I) (e : WatchEvent) : ChangeTracker I :=
  e.paths.foldl (recordPath e.time) { t with uncertain := t.uncertain || e.unsure }

/-- Take what has arrived (`catch_up`). -/
def catchUp (t : ChangeTracker I) (fence : Fence) : ChangeTracker I :=
  let t := { t with sequence := t.sequence + 1 }
  match fence with
  | .unwritten => { t with uncertain := true }
  | .reached =>
    let t := { t.queue.foldl record t with queue := [] }
    { t with uncertain := t.uncertain || t.overflow, overflow := false }
  | .late n =>
    let t := { (t.queue.take n).foldl record t with queue := t.queue.drop n }
    { t with uncertain := true, overflow := false }

end ChangeTracker

/-- What a dirty path is to the capture. -/
inductive PathRole
  /-- Not in the tree, or the repository's own. -/
  | outside
  /-- The root of the tree. -/
  | root
  /-- A file that says what is captured (`capture_rules_changed`). -/
  | rules
  | inside
deriving DecidableEq

/-- A capture that has begun: the paths it is for (without them, all), the sequence number before
it, whether the table was trusted, when it began and the head it began at. -/
structure OpenCapture where
  captured : Option (List WatchPath)
  watermark : ℕ
  trusted : Bool
  startedAt : ℕ
  base : Option ObjectId

/-- The tracker of a repository, its head, the writes so far, and when the content that a snapshot
has for a path was read. -/
structure TrackState (I : Type) where
  tracker : Option (ChangeTracker I)
  identity : I
  head : Option ObjectId
  capture : Option OpenCapture
  clock : ℕ
  writes : List (WatchPath × ℕ)
  readAt : ObjectId → WatchPath → ℕ

/-- A path that a caller names: absolute, or relative to the root. -/
structure Hint where
  absolute : Bool
  path : WatchPath

/-- A plan that was sealed: the paths it is for, whether it is for all, and whether the paths are
those of the tracker. -/
structure SealedPlan where
  changed : Option (List Hint)
  full : Bool
  watched : Bool

/-- Whether a path is one of some paths or under one of them. -/
def coveredPath (paths : List WatchPath) (path : WatchPath) : Bool :=
  paths.any fun p => p.isPrefixOf path

section

variable {I : Type} [DecidableEq I] (root : WatchPath) (role : WatchPath → PathRole)

/-- The place of a hint. -/
def Hint.resolve (h : Hint) : WatchPath := if h.absolute then h.path else root ++ h.path

/-- What becomes of the dirty paths: those in the tree, none if the root is among them, or none
and the table is not sure any more. -/
inductive Screened
  | paths (paths : List WatchPath)
  | all
  | unsure

/-- Sort out the dirty paths, one after the other. -/
def screenPaths : List WatchPath → Screened
  | [] => .paths []
  | p :: rest =>
    match role p with
    | .outside => screenPaths rest
    | .root => .all
    | .rules => .unsure
    | .inside =>
      match screenPaths rest with
      | .paths paths => .paths (p :: paths)
      | other => other

/-- The changed paths, if the tracker is sure of them, and the sequence number
(`tracked_changes`). -/
def trackedChanges (s : TrackState I) (fence : Fence) :
    Option (List WatchPath) × ℕ × TrackState I :=
  match s.tracker with
  | none => (none, 0, s)
  | some t =>
    let t := t.catchUp fence
    let t := { t with uncertain := t.uncertain || t.identity ≠ s.identity }
    if t.uncertain || t.baseline ≠ s.head then (none, t.sequence, { s with tracker := some t })
    else
      match screenPaths role t.dirty.keys with
      | .paths paths => (some paths, t.sequence, { s with tracker := some t })
      | .all => (none, t.sequence, { s with tracker := some t })
      | .unsure => (none, t.sequence, { s with tracker := some { t with uncertain := true } })

/-- Register a new tracker (`enable_change_tracking`), if that works. -/
def enableTracking (s : TrackState I) (works : Bool) : TrackState I :=
  { s with tracker := if works then some (ChangeTracker.new s.identity) else none }

/-- Whether there is a tracker that is not sure (`prepare_full_tracking`). -/
def needsRebuild (s : TrackState I) : Bool := s.tracker.any fun t => t.uncertain

/-- The first part of a capture (`snapshot_internal_with_parent`).  A sealed plan keeps to its
paths. -/
def beginCapture (s : TrackState I) (changed : Option (List WatchPath)) (sealing : Bool)
    (fence fence' : Fence) (works : Bool) : TrackState I :=
  let first := trackedChanges role s fence
  let r := if changed.isNone && needsRebuild first.2.2 then
      trackedChanges role (enableTracking first.2.2 works) fence'
    else first
  let captured := if sealing then changed else changed.or r.1
  { r.2.2 with capture := some ⟨captured, r.2.1, r.1.isSome, r.2.2.clock, r.2.2.head⟩ }

/-- Seal a plan (`seal_plan`), which is refused if there are dirty paths outside it. -/
def sealPlan (s : TrackState I) (plan : SealedPlan) (fence fence' fence'' : Fence) (works : Bool) :
    TrackState I :=
  let changed := plan.changed.map fun hints => hints.map (Hint.resolve root)
  if plan.full then beginCapture role s changed true fence' fence'' works
  else
    let r := trackedChanges role s fence
    if plan.watched then
      match r.1 with
      | none => r.2.2
      | some dirty =>
        if dirty.all (coveredPath (changed.getD [])) then
          beginCapture role r.2.2 changed true fence' fence'' works
        else r.2.2
    else beginCapture role r.2.2 changed true fence' fence'' works

/-- What a capture leaves of the table: what came after it began, and what it was not for. -/
def consumeDirty (dirty : OrdMap WatchPath ℕ) (c : OpenCapture) : OrdMap WatchPath ℕ :=
  dirty.filter fun path sequence =>
    decide (c.watermark < sequence) || c.captured.any fun paths => !coveredPath paths path

/-- The end of a capture (`finish_tracked_capture`). -/
def finishTracking (t : ChangeTracker I) (c : OpenCapture) (id : ObjectId) : ChangeTracker I :=
  if c.captured.isSome && (!c.trusted || t.uncertain) then t
  else { t with dirty := consumeDirty t.dirty c, baseline := some id }

/-- When a capture has read a path: what it is for, and what else it has read, at the times of
its reads; the rest is as in the head before. -/
def readTimes (readAt : ObjectId → WatchPath → ℕ) (c : OpenCapture) (more : WatchPath → Bool)
    (read : WatchPath → ℕ) (path : WatchPath) : ℕ :=
  if c.captured.all (fun paths => coveredPath paths path) || more path then read path
  else
    match c.base with
    | none => read path
    | some base => readAt base path

/-- Publish what was captured. -/
def finishCapture (s : TrackState I) (id : ObjectId) (more : WatchPath → Bool)
    (read : WatchPath → ℕ) (works : Bool) : TrackState I :=
  match s.capture with
  | none => s
  | some c =>
    let published := { s with
      capture := none, head := some id
      readAt := Function.update s.readAt id (readTimes s.readAt c more read) }
    if c.captured.isNone && needsRebuild s then enableTracking published works
    else { published with tracker := s.tracker.map fun t => finishTracking t c id }

/-- A step of the repository or of those who write its files. -/
inductive TrackStep (I : Type)
  /-- A file is written, and its event arrives. -/
  | write (path : WatchPath) (unsure : Bool)
  /-- Another event arrives. -/
  | event (paths : List WatchPath) (unsure : Bool)
  | setIdentity (identity : I)
  | enable (works : Bool)
  /-- The changes are asked for. -/
  | query (fence : Fence)
  /-- A capture begins, with or without paths. -/
  | begin (changed : Option (List Hint)) (fence fence' : Fence) (works : Bool)
  | sealed (plan : SealedPlan) (fence fence' fence'' : Fence) (works : Bool)
  | finish (id : ObjectId) (more : WatchPath → Bool) (read : WatchPath → ℕ) (works : Bool)
  /-- A capture fails. -/
  | abandon

/-- An event arrives now. -/
def arrive (s : TrackState I) (paths : List WatchPath) (unsure : Bool) : TrackState I :=
  { s with tracker := s.tracker.map fun t => t.receive ⟨paths, unsure, s.clock⟩ }

/-- One step.  While a capture is open, no other begins and no tracker is registered. -/
def TrackState.step (s : TrackState I) : TrackStep I → TrackState I
  | .write path unsure =>
    arrive { s with clock := s.clock + 1, writes := (path, s.clock + 1) :: s.writes } [path] unsure
  | .event paths unsure => arrive s paths unsure
  | .setIdentity identity => { s with identity := identity }
  | .enable works => if s.capture.isSome then s else enableTracking s works
  | .query fence => (trackedChanges role s fence).2.2
  | .begin changed fence fence' works =>
    if s.capture.isSome then s
    else
      beginCapture role s (changed.map fun hints => hints.map (Hint.resolve root)) false fence
        fence' works
  | .sealed plan fence fence' fence'' works =>
    if s.capture.isSome then s else sealPlan root role s plan fence fence' fence'' works
  | .finish id more read works => finishCapture s id more read works
  | .abandon => { s with capture := none }

/-- A capture reads after it began, and gives a snapshot that was not there: it has its parent's
identifier in it. -/
def TrackState.Allows (s : TrackState I) : TrackStep I → Prop
  | .finish id _ read _ => (∀ c, s.capture = some c →
      (∀ path, c.startedAt ≤ read path) ∧ c.base ≠ some id) ∧
      ∀ t, s.tracker = some t → t.baseline ≠ some id
  | _ => True

/-- A repository without a tracker. -/
def TrackState.start (identity : I) (head : Option ObjectId) : TrackState I :=
  ⟨none, identity, head, none, 0, [], fun _ _ => 0⟩

end

/-! ## What a fence takes -/

section

variable {I : Type} {t t' t'' : ChangeTracker I}

namespace ChangeTracker

/-- An event for a path is in the queue, or an entry in the table that is newer than `w`. -/
def Holds (t : ChangeTracker I) (w : ℕ) (path : WatchPath) : Prop :=
  (∃ e ∈ t.queue, path ∈ e.paths) ∨ ∃ n, t.dirty.get? path = some n ∧ w < n

/-- Events up to a time were taken into the table. -/
structure Noted (time : ℕ) (t t' : ChangeTracker I) : Prop where
  sequence : t.sequence ≤ t'.sequence
  entries : ∀ p n, t'.dirty.get? p = some n →
    (t.dirty.get? p = some n ∧ t'.newest p = t.newest p) ∨ (t.sequence < n ∧ n ≤ t'.sequence)
  newest : ∀ p, t'.newest p ≤ max (t.newest p) time
  certain : t'.uncertain = false → t.uncertain = false
  kept : t'.uncertain = false → ∀ p n, t.dirty.get? p = some n →
    ∃ m, t'.dirty.get? p = some m ∧ (m = n ∨ t.sequence < m)
  queue : t'.queue = t.queue
  overflow : t'.overflow = t.overflow
  baseline : t'.baseline = t.baseline
  identity : t'.identity = t.identity

/-- A tracker notes what it has noted. -/
theorem noted_refl (time : ℕ) (t : ChangeTracker I) : Noted time t t :=
  ⟨le_rfl, fun _ _ h => Or.inl ⟨h, rfl⟩, fun _ => le_max_left _ _, id,
    fun _ _ n h => ⟨n, h, Or.inl rfl⟩, rfl, rfl, rfl, rfl⟩

/-- What is noted stays so. -/
theorem Noted.trans {time : ℕ} (h : Noted time t t') (h' : Noted time t' t'') :
    Noted time t t'' := by
  constructor
  · exact h.sequence.trans h'.sequence
  · intro p n hn
    have hle := h.sequence
    have hle' := h'.sequence
    rcases h'.entries p n hn with ⟨hmid, hnewest⟩ | hnew
    · rcases h.entries p n hmid with ⟨hold, hnewest'⟩ | hnew
      · exact Or.inl ⟨hold, hnewest.trans hnewest'⟩
      · exact Or.inr ⟨hnew.1, by omega⟩
    · exact Or.inr ⟨by omega, hnew.2⟩
  · intro p
    have := h.newest p
    have := h'.newest p
    omega
  · exact fun hc => h.certain (h'.certain hc)
  · intro hc p n hn
    have hle := h.sequence
    obtain ⟨m, hm, hcases⟩ := h.kept (h'.certain hc) p n hn
    obtain ⟨k, hk, hcases'⟩ := h'.kept hc p m hm
    exact ⟨k, hk, by omega⟩
  · exact h'.queue.trans h.queue
  · exact h'.overflow.trans h.overflow
  · exact h'.baseline.trans h.baseline
  · exact h'.identity.trans h.identity

/-- An entry that is there stays newer than what it was newer than. -/
theorem Noted.newer {time w : ℕ} (h : Noted time t t') (hw : w ≤ t.sequence)
    (hc : t'.uncertain = false) {p : WatchPath} (hp : ∃ n, t.dirty.get? p = some n ∧ w < n) :
    ∃ n, t'.dirty.get? p = some n ∧ w < n := by
  obtain ⟨n, hn, hlt⟩ := hp
  obtain ⟨m, hm, hcases⟩ := h.kept hc p n hn
  exact ⟨m, hm, by omega⟩

/-- A path that is recorded is noted, or the tracker is uncertain. -/
theorem noted_recordPath {time bound : ℕ} (htime : time ≤ bound) (t : ChangeTracker I)
    (path : WatchPath) : Noted bound t (recordPath time t path) ∧
      ((recordPath time t path).uncertain = false →
        (recordPath time t path).dirty.get? path = some (t.sequence + 1)) := by
  have hget : ∀ p, (t.dirty.insert path (t.sequence + 1)).get? p =
      if p = path then some (t.sequence + 1) else t.dirty.get? p := by
    intro p
    rw [OrdMap.get?_insert]
    split_ifs <;> rfl
  have hnewest : ∀ p, Function.update t.newest path (max (t.newest path) time) p ≤
      max (t.newest p) bound := by
    intro p
    by_cases hp : p = path
    · subst hp
      rw [Function.update_self]
      omega
    · rw [Function.update_of_ne hp]
      exact le_max_left _ _
  unfold recordPath
  dsimp only
  split_ifs with hfull
  · refine ⟨⟨Nat.le_succ _, ?_, hnewest, ?_, ?_, rfl, rfl, rfl, rfl⟩, ?_⟩
    · intro p n hn
      exact absurd hn (by simp)
    · intro hc
      exact absurd hc (by simp)
    · intro hc
      exact absurd hc (by simp)
    · intro hc
      exact absurd hc (by simp)
  · refine ⟨⟨Nat.le_succ _, ?_, hnewest, id, ?_, rfl, rfl, rfl, rfl⟩, fun _ => ?_⟩
    · intro p n hn
      dsimp only at hn
      rw [hget] at hn
      by_cases hp : p = path
      · rw [if_pos hp] at hn
        obtain rfl := Option.some.inj hn
        exact Or.inr ⟨Nat.lt_succ_self _, le_rfl⟩
      · rw [if_neg hp] at hn
        exact Or.inl ⟨hn, Function.update_of_ne hp _ _⟩
    · intro _ p n hn
      dsimp only
      rw [hget]
      by_cases hp : p = path
      · rw [if_pos hp]
        exact ⟨_, rfl, Or.inr (Nat.lt_succ_self _)⟩
      · rw [if_neg hp]
        exact ⟨n, hn, Or.inl rfl⟩
    · dsimp only
      rw [hget, if_pos rfl]

/-- Paths that are recorded are noted, or the tracker is uncertain. -/
theorem noted_foldl_recordPath {time bound : ℕ} (htime : time ≤ bound) (t : ChangeTracker I)
    (paths : List WatchPath) : Noted bound t (paths.foldl (recordPath time) t) ∧
      ((paths.foldl (recordPath time) t).uncertain = false → ∀ p ∈ paths,
        ∃ n, (paths.foldl (recordPath time) t).dirty.get? p = some n ∧ t.sequence < n) := by
  induction paths generalizing t with
  | nil => exact ⟨noted_refl bound t, by simp⟩
  | cons path paths ih =>
    obtain ⟨hone, hself⟩ := noted_recordPath htime t path
    obtain ⟨hrest, hall⟩ := ih (recordPath time t path)
    have hle := hone.sequence
    rw [List.foldl_cons]
    refine ⟨hone.trans hrest, ?_⟩
    intro hc p hp
    rcases List.mem_cons.mp hp with rfl | hp
    · have hnew := hself (hrest.certain hc)
      exact hrest.newer hle hc ⟨_, hnew, Nat.lt_succ_self _⟩
    · obtain ⟨n, hn, hlt⟩ := hall hc p hp
      exact ⟨n, hn, by omega⟩

/-- **Events are taken into the table**: each of their paths gets a new entry. -/
theorem noted_foldl_record (bound : ℕ) (t : ChangeTracker I) {events : List WatchEvent}
    (htime : ∀ e ∈ events, e.time ≤ bound) : Noted bound t (events.foldl record t) ∧
      ((events.foldl record t).uncertain = false → ∀ e ∈ events, ∀ p ∈ e.paths,
        ∃ n, (events.foldl record t).dirty.get? p = some n ∧ t.sequence < n) := by
  induction events generalizing t with
  | nil => exact ⟨noted_refl bound t, by simp⟩
  | cons e events ih =>
    have hdoubt : Noted bound t { t with uncertain := t.uncertain || e.unsure } :=
      ⟨le_rfl, fun _ _ h => Or.inl ⟨h, rfl⟩, fun _ => le_max_left _ _,
        fun h => (Bool.or_eq_false_iff.mp h).1, fun _ _ n h =>
          ⟨n, h, Or.inl rfl⟩, rfl, rfl, rfl, rfl⟩
    obtain ⟨hpaths, hself⟩ := noted_foldl_recordPath (htime e List.mem_cons_self)
      { t with uncertain := t.uncertain || e.unsure } e.paths
    have hone : Noted bound t (record t e) := hdoubt.trans hpaths
    obtain ⟨hrest, hall⟩ := ih (record t e) fun q hq => htime q (List.mem_cons_of_mem e hq)
    have hle := hone.sequence
    rw [List.foldl_cons]
    refine ⟨hone.trans hrest, ?_⟩
    intro hc q hq p hp
    rcases List.mem_cons.mp hq with rfl | hq
    · exact hrest.newer hle hc (hself (hrest.certain hc) p hp)
    · obtain ⟨n, hn, hlt⟩ := hall hc q hq p hp
      exact ⟨n, hn, by omega⟩

end ChangeTracker

end

/-! ## What every step keeps -/

section

variable {I : Type} {s s' : TrackState I} {t t' : ChangeTracker I}

/-- What the table and the queue of a tracker say about the writes: those that the head it is
relative to has not read are there, and so are those since a capture began. -/
structure TrackerInv (s : TrackState I) (t : ChangeTracker I) : Prop where
  sequence : ∀ p n, t.dirty.get? p = some n → n ≤ t.sequence
  newest : ∀ p, t.newest p ≤ s.clock
  queue : ∀ e ∈ t.queue, e.time ≤ s.clock
  base : t.uncertain = false → t.overflow = false → ∀ b, t.baseline = some b →
    ∀ p time, (p, time) ∈ s.writes → s.readAt b p < time → t.Holds 0 p
  watermark : ∀ c, s.capture = some c → c.watermark ≤ t.sequence
  trusted : ∀ c, s.capture = some c → c.trusted = true → t.baseline = c.base
  older : ∀ c, s.capture = some c → ∀ p n, t.dirty.get? p = some n → n ≤ c.watermark →
    t.newest p ≤ c.startedAt
  since : t.uncertain = false → t.overflow = false → ∀ c, s.capture = some c →
    ∀ p time, (p, time) ∈ s.writes → c.startedAt < time → t.Holds c.watermark p

/-- What holds of a repository: of its tracker, and that no write is in the future. -/
structure TrackInv (s : TrackState I) : Prop where
  tracker : ∀ t, s.tracker = some t → TrackerInv s t
  writes : ∀ p time, (p, time) ∈ s.writes → time ≤ s.clock
  capture : ∀ c, s.capture = some c → c.startedAt ≤ s.clock

/-- A tracker that was just registered has nothing to say yet. -/
theorem trackerInv_new (s : TrackState I) (h : s.capture = none) (identity : I) :
    TrackerInv s (ChangeTracker.new identity) := by
  have hno : ∀ c, s.capture ≠ some c := by
    intro c hc
    rw [h] at hc
    exact absurd hc (by simp)
  constructor
  · intro p n hn
    exact absurd hn (by simp [ChangeTracker.new])
  · exact fun _ => Nat.zero_le _
  · intro e he
    exact absurd he (by simp [ChangeTracker.new])
  · intro _ _ b hb
    exact absurd hb (by simp [ChangeTracker.new])
  · exact fun c hc => absurd hc (hno c)
  · exact fun c hc => absurd hc (hno c)
  · exact fun c hc => absurd hc (hno c)
  · exact fun _ _ c hc => absurd hc (hno c)

/-- Only the writes, the reads, the clock and the open capture matter. -/
theorem TrackerInv.congr (h : TrackerInv s t) (hclock : s'.clock = s.clock)
    (hwrites : s'.writes = s.writes) (hread : s'.readAt = s.readAt)
    (hcapture : s'.capture = s.capture ∨ s'.capture = none) : TrackerInv s' t := by
  have hopen : ∀ c, s'.capture = some c → s.capture = some c := by
    intro c hc
    rcases hcapture with heq | hnone
    · rw [← heq, hc]
    · rw [hnone] at hc
      exact absurd hc (by simp)
  constructor
  · exact h.sequence
  · rw [hclock]
    exact h.newest
  · rw [hclock]
    exact h.queue
  · rw [hwrites, hread]
    exact h.base
  · exact fun c hc => h.watermark c (hopen c hc)
  · exact fun c hc => h.trusted c (hopen c hc)
  · exact fun c hc => h.older c (hopen c hc)
  · rw [hwrites]
    exact fun hc ho c hopen' => h.since hc ho c (hopen c hopen')

/-- Doubt does no harm. -/
theorem TrackerInv.doubt (h : TrackerInv s t) {uncertain : Bool}
    (hdoubt : uncertain = false → t.uncertain = false) :
    TrackerInv s { t with uncertain := uncertain } :=
  ⟨h.sequence, h.newest, h.queue, fun hc => h.base (hdoubt hc), h.watermark, h.trusted, h.older,
    fun hc => h.since (hdoubt hc)⟩

/-- **A fence keeps what is known.**  If the tracker is sure after it, all is in the table. -/
theorem TrackerInv.catchUp (h : TrackerInv s t) (fence : Fence) :
    TrackerInv s (t.catchUp fence) ∧ ((t.catchUp fence).uncertain = false →
      (t.catchUp fence).queue = [] ∧ (t.catchUp fence).overflow = false) := by
  -- Whichever part of the queue is taken, its events are noted and the others stay.
  have htake : ∀ taken rest uncertain overflow, t.queue = taken ++ rest →
      (uncertain = false →
        (taken.foldl ChangeTracker.record { t with sequence := t.sequence + 1 }).uncertain = false ∧
          t.overflow = false) →
      TrackerInv s { taken.foldl ChangeTracker.record { t with sequence := t.sequence + 1 } with
        queue := rest, uncertain := uncertain, overflow := overflow } := by
    intro taken rest uncertain overflow hqueue hsure
    have htimes : ∀ e ∈ taken, e.time ≤ s.clock := by
      intro e he
      exact h.queue e (hqueue ▸ List.mem_append_left _ he)
    have hfence : ChangeTracker.Noted s.clock t { t with sequence := t.sequence + 1 } :=
      ⟨Nat.le_succ _, fun _ _ h => Or.inl ⟨h, rfl⟩, fun _ => le_max_left _ _, id,
        fun _ _ n h => ⟨n, h, Or.inl rfl⟩, rfl, rfl, rfl, rfl⟩
    obtain ⟨hnoted, htaken⟩ := ChangeTracker.noted_foldl_record s.clock
      { t with sequence := t.sequence + 1 } htimes
    have hall := hfence.trans hnoted
    have hle := hall.sequence
    set last := taken.foldl ChangeTracker.record { t with sequence := t.sequence + 1 } with hlast
    -- What the tracker held before it holds now.
    have hholds : uncertain = false → ∀ w p, w ≤ t.sequence → t.Holds w p →
        ChangeTracker.Holds
          { last with queue := rest, uncertain := uncertain, overflow := overflow } w p := by
      intro hc w p hw hp
      obtain ⟨hsure', -⟩ := hsure hc
      rcases hp with ⟨e, he, hpe⟩ | hdirty
      · rw [hqueue] at he
        rcases List.mem_append.mp he with he | he
        · obtain ⟨n, hn, hlt⟩ := htaken hsure' e he p hpe
          dsimp only at hlt
          exact Or.inr ⟨n, hn, by omega⟩
        · exact Or.inl ⟨e, he, hpe⟩
      · exact Or.inr (hall.newer hw hsure' hdirty)
    constructor
    · intro p n hn
      rcases hall.entries p n hn with ⟨hold, -⟩ | hnew
      · exact (h.sequence p n hold).trans hle
      · exact hnew.2
    · intro p
      exact (hall.newest p).trans (max_le (h.newest p) le_rfl)
    · intro e he
      exact h.queue e (hqueue ▸ List.mem_append_right _ he)
    · intro hc _ b hb p time hwrite hread
      obtain ⟨hsure', hoverflow⟩ := hsure hc
      have hb' : t.baseline = some b := hall.baseline ▸ hb
      exact hholds hc 0 p (Nat.zero_le _)
        (h.base (hall.certain hsure') hoverflow b hb' p time hwrite hread)
    · intro c hcapture
      exact (h.watermark c hcapture).trans hle
    · intro c hcapture htrusted
      exact hall.baseline.trans (h.trusted c hcapture htrusted)
    · intro c hcapture p n hn hw
      have hmark := h.watermark c hcapture
      rcases hall.entries p n hn with ⟨hold, hnewest⟩ | hnew
      · exact hnewest.le.trans (h.older c hcapture p n hold hw)
      · omega
    · intro hc _ c hcapture p time hwrite hlt
      obtain ⟨hsure', hoverflow⟩ := hsure hc
      exact hholds hc c.watermark p (h.watermark c hcapture)
        (h.since (hall.certain hsure') hoverflow c hcapture p time hwrite hlt)
  have hfold : ∀ taken : List WatchEvent, (∀ e ∈ taken, e ∈ t.queue) →
      (taken.foldl ChangeTracker.record { t with sequence := t.sequence + 1 }).overflow =
        t.overflow := by
    intro taken hsub
    exact (ChangeTracker.noted_foldl_record s.clock { t with sequence := t.sequence + 1 }
      fun e he => h.queue e (hsub e he)).1.overflow
  cases fence with
  | unwritten =>
    refine ⟨?_, fun hc => absurd hc (by simp [ChangeTracker.catchUp])⟩
    exact htake [] t.queue true t.overflow rfl (by simp)
  | reached =>
    have hover := hfold t.queue fun _ he => he
    refine ⟨?_, fun _ => ⟨rfl, rfl⟩⟩
    refine htake t.queue [] _ false (by simp) ?_
    intro hc
    obtain ⟨hsure, hoverflow⟩ := Bool.or_eq_false_iff.mp hc
    exact ⟨hsure, hover ▸ hoverflow⟩
  | late n =>
    refine ⟨?_, fun hc => absurd hc (by simp [ChangeTracker.catchUp])⟩
    exact htake (t.queue.take n) (t.queue.drop n) true false (List.take_append_drop n _).symm
      (by simp)

/-- A tracker that knows the changes may be put in place. -/
theorem TrackInv.setTracker (h : TrackInv s) (ht : TrackerInv s t) :
    TrackInv { s with tracker := some t } := by
  refine ⟨?_, h.writes, h.capture⟩
  intro t' ht'
  obtain rfl := Option.some.inj ht'
  exact ht.congr rfl rfl rfl (Or.inl rfl)

/-- Tracking that is enabled keeps the invariant. -/
theorem TrackInv.enableTracking (h : TrackInv s) (hcapture : s.capture = none) (works : Bool) :
    TrackInv (enableTracking s works) := by
  refine ⟨?_, h.writes, h.capture⟩
  intro t ht
  unfold Furrow.enableTracking at ht
  cases works with
  | false => exact absurd ht (by simp)
  | true =>
    obtain rfl := Option.some.inj ht
    exact trackerInv_new (Furrow.enableTracking s true) hcapture _

/-- What a capture leaves in the table was there. -/
theorem get?_consumeDirty (dirty : OrdMap WatchPath ℕ) (c : OpenCapture) (p : WatchPath) :
    (consumeDirty dirty c).get? p = (dirty.get? p).filter fun n =>
      decide (c.watermark < n) || c.captured.any fun paths => !coveredPath paths p := by
  unfold consumeDirty
  rw [OrdMap.get?_filter]

/-- **A capture ends**: what it has not read is still in the table or in the queue. -/
theorem TrackerInv.finishTracking (h : TrackerInv s t) {c : OpenCapture}
    (hcapture : s.capture = some c) {id : ObjectId} {more : WatchPath → Bool}
    {read : WatchPath → ℕ} (hread : ∀ p, c.startedAt ≤ read p) (hfresh : t.baseline ≠ some id)
    (hclock : s'.clock = s.clock) (hwrites : s'.writes = s.writes) (hclosed : s'.capture = none)
    (hreadAt : s'.readAt = Function.update s.readAt id (readTimes s.readAt c more read)) :
    TrackerInv s' (finishTracking t c id) := by
  have hno : ∀ c, s'.capture ≠ some c := by
    intro c hc
    rw [hclosed] at hc
    exact absurd hc (by simp)
  unfold Furrow.finishTracking
  split_ifs with hkeep
  · refine ⟨h.sequence, ?_, ?_, ?_, fun c hc => absurd hc (hno c), fun c hc => absurd hc (hno c),
      fun c hc => absurd hc (hno c), fun _ _ c hc => absurd hc (hno c)⟩
    · rw [hclock]
      exact h.newest
    · rw [hclock]
      exact h.queue
    · intro hc ho b hb p time hwrite hlt
      have hne : b ≠ id := by
        rintro rfl
        exact hfresh hb
      rw [hreadAt, Function.update_of_ne hne] at hlt
      exact h.base hc ho b hb p time (hwrites ▸ hwrite) hlt
  · refine ⟨?_, ?_, ?_, ?_, fun c hc => absurd hc (hno c), fun c hc => absurd hc (hno c),
      fun c hc => absurd hc (hno c), fun _ _ c hc => absurd hc (hno c)⟩
    · intro p n hn
      dsimp only at hn
      rw [get?_consumeDirty] at hn
      exact h.sequence p n (Option.filter_eq_some_iff.mp hn).1
    · rw [hclock]
      exact h.newest
    · rw [hclock]
      exact h.queue
    · intro hc ho b hb p time hwrite hlt
      obtain rfl := Option.some.inj hb
      rw [hwrites] at hwrite
      rw [hreadAt, Function.update_self] at hlt
      -- What holds of the table before and is kept by the capture holds after it.
      have hkept : ∀ w, (∀ n, t.dirty.get? p = some n → w < n →
          (decide (c.watermark < n) || c.captured.any fun paths => !coveredPath paths p) = true) →
          t.Holds w p → ChangeTracker.Holds
            { t with dirty := consumeDirty t.dirty c, baseline := some id } 0 p := by
        intro w hfilter hholds
        rcases hholds with hqueue | ⟨n, hn, hw⟩
        · exact Or.inl hqueue
        · refine Or.inr ⟨n, ?_, by omega⟩
          dsimp only
          rw [get?_consumeDirty]
          exact Option.filter_eq_some_iff.mpr ⟨hn, hfilter n hn hw⟩
      have hsince : read p < time → ChangeTracker.Holds
          { t with dirty := consumeDirty t.dirty c, baseline := some id } 0 p := by
        intro hlt
        refine hkept c.watermark ?_ (h.since hc ho c hcapture p time hwrite
          ((hread p).trans_lt hlt))
        intro n _ hw
        rw [decide_eq_true hw, Bool.true_or]
      unfold readTimes at hlt
      split_ifs at hlt with hcovered
      · exact hsince hlt
      · cases hbase : c.base with
        | none =>
          rw [hbase] at hlt
          exact hsince hlt
        | some base =>
          rw [hbase] at hlt
          -- The path is not among those the capture is for, so its entry stays.
          obtain ⟨hnot, -⟩ := Bool.or_eq_false_iff.mp (Bool.eq_false_iff.mpr hcovered)
          cases hcaptured : c.captured with
          | none =>
            rw [hcaptured] at hnot
            exact absurd hnot (by simp)
          | some paths =>
            rw [hcaptured] at hnot hkeep
            have htrusted : c.trusted = true := by
              by_contra hfalse
              exact hkeep (by simp [hfalse])
            have hbaseline := (h.trusted c hcapture htrusted).trans hbase
            refine hkept 0 ?_ (h.base hc ho base hbaseline p time hwrite hlt)
            intro n _ _
            have hout : coveredPath paths p = false := hnot
            simp [hcaptured, hout]

/-- An event arrives. -/
theorem TrackerInv.receive (h : TrackerInv s t) {paths : List WatchPath} {unsure : Bool}
    (hclock : s.clock ≤ s'.clock) (hread : s'.readAt = s.readAt) (hcapture : s'.capture = s.capture)
    (hwrites : ∀ p time, (p, time) ∈ s'.writes → (p, time) ∈ s.writes ∨ p ∈ paths) :
    TrackerInv s' (t.receive ⟨paths, unsure, s'.clock⟩) := by
  unfold ChangeTracker.receive
  split_ifs with hroom
  · have hholds : ∀ w p time, (p, time) ∈ s'.writes → ((p, time) ∈ s.writes → t.Holds w p) →
        ChangeTracker.Holds { t with queue := t.queue ++ [⟨paths, unsure, s'.clock⟩] } w p := by
      intro w p time hwrite hold
      rcases hwrites p time hwrite with hw | hp
      · rcases hold hw with ⟨e, he, hpe⟩ | hdirty
        · exact Or.inl ⟨e, List.mem_append_left _ he, hpe⟩
        · exact Or.inr hdirty
      · exact Or.inl ⟨_, List.mem_append_right _ List.mem_cons_self, hp⟩
    refine ⟨h.sequence, fun p => (h.newest p).trans hclock, ?_, ?_, ?_, ?_, ?_, ?_⟩
    · intro e he
      rcases List.mem_append.mp he with he | he
      · exact (h.queue e he).trans hclock
      · rw [List.mem_singleton.mp he]
    · intro hc ho b hb p time hwrite hlt
      rw [hread] at hlt
      exact hholds 0 p time hwrite fun hw => h.base hc ho b hb p time hw hlt
    · rw [hcapture]
      exact h.watermark
    · rw [hcapture]
      exact h.trusted
    · rw [hcapture]
      exact h.older
    · intro hc ho c hopen p time hwrite hlt
      rw [hcapture] at hopen
      exact hholds c.watermark p time hwrite fun hw => h.since hc ho c hopen p time hw hlt
  · refine ⟨h.sequence, fun p => (h.newest p).trans hclock,
      fun e he => (h.queue e he).trans hclock, fun _ ho => absurd ho (by simp), ?_, ?_, ?_,
      fun _ ho => absurd ho (by simp)⟩
    · rw [hcapture]
      exact h.watermark
    · rw [hcapture]
      exact h.trusted
    · rw [hcapture]
      exact h.older

/-- The invariant holds at the start. -/
theorem trackInv_start (identity : I) (head : Option ObjectId) :
    TrackInv (TrackState.start identity head) := by
  refine ⟨?_, ?_, ?_⟩
  · intro t ht
    exact absurd ht (by simp [TrackState.start])
  · intro p time hwrite
    exact absurd hwrite (by simp [TrackState.start])
  · intro c hc
    exact absurd hc (by simp [TrackState.start])

/-- A capture that ends keeps the invariant. -/
theorem TrackInv.finishCapture (h : TrackInv s) {id : ObjectId} {more : WatchPath → Bool}
    {read : WatchPath → ℕ} {works : Bool} (hallows : s.Allows (.finish id more read works)) :
    TrackInv (finishCapture s id more read works) := by
  obtain ⟨hread, hfresh⟩ := hallows
  unfold Furrow.finishCapture
  cases hcapture : s.capture with
  | none => exact h
  | some c =>
    dsimp only
    have hnone : ∀ c' : OpenCapture, (none : Option OpenCapture) ≠ some c' := by simp
    split_ifs with hrebuild
    · refine ⟨?_, h.writes, fun c' hc' => absurd hc' (hnone c')⟩
      intro t ht
      unfold Furrow.enableTracking at ht
      cases works with
      | false => exact absurd ht (by simp)
      | true =>
        obtain rfl := Option.some.inj ht
        exact trackerInv_new _ rfl _
    · refine ⟨?_, h.writes, fun c' hc' => absurd hc' (hnone c')⟩
      intro t ht
      obtain ⟨t₀, ht₀, rfl⟩ := Option.map_eq_some_iff.mp ht
      exact (h.tracker t₀ ht₀).finishTracking hcapture (hread c hcapture).1 (hfresh t₀ ht₀) rfl rfl
        rfl rfl

end

/-! ## The operations -/

section

variable {I : Type} [DecidableEq I] {root : WatchPath} {role : WatchPath → PathRole}
  {s s' : TrackState I} {t t' : ChangeTracker I}

/-- A path in the tree that is dirty is among the changed paths. -/
theorem mem_of_screenPaths {dirty paths : List WatchPath}
    (h : screenPaths role dirty = .paths paths) {p : WatchPath} (hp : p ∈ dirty)
    (hrole : role p = .inside) : p ∈ paths := by
  induction dirty generalizing paths with
  | nil => exact absurd hp (by simp)
  | cons q rest ih =>
    rw [screenPaths] at h
    cases hq : role q with
    | outside =>
      rw [hq] at h
      rcases List.mem_cons.mp hp with rfl | hp
      · rw [hq] at hrole
        exact absurd hrole (by simp)
      · exact ih h hp
    | root =>
      rw [hq] at h
      exact absurd h (by simp)
    | rules =>
      rw [hq] at h
      exact absurd h (by simp)
    | inside =>
      rw [hq] at h
      cases hrest : screenPaths role rest with
      | paths found =>
        rw [hrest] at h
        obtain rfl := Screened.paths.inj h
        rcases List.mem_cons.mp hp with rfl | hp
        · exact List.mem_cons_self
        · exact List.mem_cons_of_mem q (ih hrest hp)
      | all =>
        rw [hrest] at h
        exact absurd h (by simp)
      | unsure =>
        rw [hrest] at h
        exact absurd h (by simp)

/-- What asking for the changes does: only the tracker takes a fence and maybe doubts. -/
structure Asked (role : WatchPath → PathRole) (s : TrackState I)
    (r : Option (List WatchPath) × ℕ × TrackState I) : Prop where
  same : r.2.2 = { s with tracker := r.2.2.tracker }
  inv : TrackInv r.2.2
  sequence : ∀ t, r.2.2.tracker = some t → r.2.1 = t.sequence
  answer : ∀ paths, r.1 = some paths → ∃ t, r.2.2.tracker = some t ∧ t.uncertain = false ∧
    t.overflow = false ∧ t.queue = [] ∧ t.baseline = s.head ∧
    screenPaths role t.dirty.keys = .paths paths

/-- The question what has changed keeps the invariant, and is answered. -/
theorem TrackInv.trackedChanges (h : TrackInv s) (role : WatchPath → PathRole) (fence : Fence) :
    Asked role s (trackedChanges role s fence) := by
  unfold Furrow.trackedChanges
  cases htracker : s.tracker with
  | none =>
    refine ⟨rfl, h, ?_, ?_⟩
    · intro t ht
      rw [htracker] at ht
      exact absurd ht (by simp)
    · intro paths hpaths
      exact absurd hpaths (by simp)
  | some t =>
    obtain ⟨hinv, hdone⟩ := (h.tracker t htracker).catchUp fence
    dsimp only
    set last : ChangeTracker I := { t.catchUp fence with
      uncertain :=
        (t.catchUp fence).uncertain || (t.catchUp fence).identity ≠ s.identity } with hlast
    have hcertain : last.uncertain = false → (t.catchUp fence).uncertain = false := by
      intro hc
      exact (Bool.or_eq_false_iff.mp hc).1
    have hdoubt : TrackerInv s last := hinv.doubt hcertain
    have hnone : ∀ t' : ChangeTracker I, TrackerInv s t' → t'.sequence = last.sequence →
        Asked role s (none, last.sequence, { s with tracker := some t' }) := by
      intro t' ht' hsequence
      refine ⟨rfl, h.setTracker ht', ?_, ?_⟩
      · intro t'' ht''
        obtain rfl := Option.some.inj ht''
        exact hsequence.symm
      · intro paths hpaths
        exact absurd hpaths (by simp)
    split_ifs with hdiffers
    · exact hnone last hdoubt rfl
    · obtain ⟨hsure, hhead⟩ := Bool.or_eq_false_iff.mp (Bool.eq_false_iff.mpr hdiffers)
      rw [decide_eq_false_iff_not, not_ne_iff] at hhead
      cases hscreen : screenPaths role last.dirty.keys with
      | paths paths =>
        refine ⟨rfl, h.setTracker hdoubt, ?_, ?_⟩
        · intro t' ht'
          obtain rfl := Option.some.inj ht'
          rfl
        · intro paths' hpaths
          obtain rfl := Option.some.inj hpaths
          obtain ⟨hqueue, hoverflow⟩ := hdone (hcertain hsure)
          exact ⟨last, rfl, hsure, hoverflow, hqueue, hhead, hscreen⟩
      | all => exact hnone last hdoubt rfl
      | unsure => exact hnone _ (hdoubt.doubt fun hc => absurd hc (by simp)) rfl

/-- **A capture begins**: the sequence number of the tracker is its watermark. -/
theorem TrackInv.beginCapture (h : TrackInv s) (hcapture : s.capture = none)
    (changed : Option (List WatchPath)) (sealing : Bool) (fence fence' : Fence) (works : Bool) :
    TrackInv (beginCapture role s changed sealing fence fence' works) := by
  -- Either question leaves a state that has no open capture.
  have hopen : ∀ r : Option (List WatchPath) × ℕ × TrackState I, ∀ s₀ : TrackState I,
      Asked role s₀ r → ∀ captured,
      TrackInv { r.2.2 with
        capture := some ⟨captured, r.2.1, r.1.isSome, r.2.2.clock, r.2.2.head⟩ } := by
    intro r s₀ hr captured
    refine ⟨?_, hr.inv.writes, ?_⟩
    · intro t ht
      have hinv := hr.inv.tracker t ht
      have hsequence := hr.sequence t ht
      refine ⟨hinv.sequence, hinv.newest, hinv.queue, hinv.base, ?_, ?_, ?_, ?_⟩
      · intro c hc
        obtain rfl := Option.some.inj hc
        exact hsequence.le
      · intro c hc htrusted
        obtain rfl := Option.some.inj hc
        obtain ⟨paths, hpaths⟩ := Option.isSome_iff_exists.mp htrusted
        obtain ⟨t', ht', -, -, -, hbaseline, -⟩ := hr.answer paths hpaths
        have htt : t' = t := Option.some.inj (ht'.symm.trans ht)
        have hhead : r.2.2.head = s₀.head := by rw [hr.same]
        rw [← htt, hbaseline]
        exact hhead.symm
      · intro c hc p n _ _
        obtain rfl := Option.some.inj hc
        exact hinv.newest p
      · intro _ _ c hc p time hwrite hlt
        obtain rfl := Option.some.inj hc
        have := hr.inv.writes p time hwrite
        dsimp only at hlt
        omega
    · intro c hc
      obtain rfl := Option.some.inj hc
      exact le_rfl
  have hfirst := h.trackedChanges role fence
  unfold Furrow.beginCapture
  dsimp only
  split_ifs with hrebuild
  all_goals first
    | exact hopen _ _ hfirst _
    | refine hopen _ _ (TrackInv.trackedChanges (hfirst.inv.enableTracking ?_ works) role fence') _
      rw [hfirst.same]
      exact hcapture

/-- The plan of a seal keeps the invariant. -/
theorem TrackInv.sealPlan (h : TrackInv s) (hcapture : s.capture = none) (plan : SealedPlan)
    (fence fence' fence'' : Fence) (works : Bool) :
    TrackInv (sealPlan root role s plan fence fence' fence'' works) := by
  have hasked := h.trackedChanges role fence
  have hclosed : (Furrow.trackedChanges role s fence).2.2.capture = none := by
    rw [hasked.same]
    exact hcapture
  unfold Furrow.sealPlan
  dsimp only
  split_ifs with hfull hwatched
  · exact h.beginCapture hcapture _ _ _ _ _
  · cases hdirty : (Furrow.trackedChanges role s fence).1 with
    | none => exact hasked.inv
    | some dirty =>
      dsimp only
      split_ifs
      · exact hasked.inv.beginCapture hclosed _ _ _ _ _
      · exact hasked.inv
  · exact hasked.inv.beginCapture hclosed _ _ _ _ _

/-- **What every step keeps.** -/
theorem TrackInv.step (h : TrackInv s) (a : TrackStep I) (hallows : s.Allows a) :
    TrackInv (s.step root role a) := by
  cases a with
  | write path unsure =>
    refine ⟨?_, ?_, ?_⟩
    · intro t ht
      obtain ⟨t₀, ht₀, rfl⟩ := Option.map_eq_some_iff.mp ht
      refine (h.tracker t₀ ht₀).receive (Nat.le_succ s.clock) rfl rfl ?_
      intro p time hwrite
      rcases List.mem_cons.mp hwrite with heq | hwrite
      · exact Or.inr (List.mem_singleton.mpr (Prod.mk.inj heq).1)
      · exact Or.inl hwrite
    · intro p time hwrite
      rcases List.mem_cons.mp hwrite with heq | hwrite
      · exact (Prod.mk.inj heq).2.le
      · exact (h.writes p time hwrite).trans (Nat.le_succ s.clock)
    · intro c hc
      exact (h.capture c hc).trans (Nat.le_succ s.clock)
  | event paths unsure =>
    refine ⟨?_, h.writes, h.capture⟩
    intro t ht
    obtain ⟨t₀, ht₀, rfl⟩ := Option.map_eq_some_iff.mp ht
    exact (h.tracker t₀ ht₀).receive le_rfl rfl rfl fun p time hwrite => Or.inl hwrite
  | setIdentity identity =>
    refine ⟨?_, h.writes, h.capture⟩
    intro t ht
    exact (h.tracker t ht).congr rfl rfl rfl (Or.inl rfl)
  | enable works =>
    unfold TrackState.step
    dsimp only
    split_ifs with hopen
    · exact h
    · exact h.enableTracking (Option.not_isSome_iff_eq_none.mp hopen) works
  | query fence => exact (h.trackedChanges role fence).inv
  | begin changed fence fence' works =>
    unfold TrackState.step
    dsimp only
    split_ifs with hopen
    · exact h
    · exact h.beginCapture (Option.not_isSome_iff_eq_none.mp hopen) _ _ _ _ _
  | sealed plan fence fence' fence'' works =>
    unfold TrackState.step
    dsimp only
    split_ifs with hopen
    · exact h
    · exact h.sealPlan (Option.not_isSome_iff_eq_none.mp hopen) _ _ _ _ _
  | finish id more read works => exact h.finishCapture hallows
  | abandon =>
    refine ⟨?_, h.writes, fun c hc => absurd hc (by simp [TrackState.step])⟩
    intro t ht
    exact (h.tracker t ht).congr rfl rfl rfl (Or.inr rfl)

/-- **No change is lost.**  Whatever was written after the head has read it is among the changed
paths, or under one, whenever the tracker gives any; and what the end of a capture drops from the
table is no newer than its read, unless the whole tracker is replaced. -/
theorem no_change_lost (root : WatchPath) (role : WatchPath → PathRole) (identity : I)
    (head : Option ObjectId) (steps : List (TrackStep I))
    (hallowed : Run.Along (TrackState.step root role) TrackState.Allows
      (TrackState.start identity head) steps) :
    let s := steps.foldl (TrackState.step root role) (TrackState.start identity head)
    (∀ fence paths w s', trackedChanges role s fence = (some paths, w, s') →
      ∀ b, s.head = some b → ∀ p time, (p, time) ∈ s.writes → s.readAt b p < time →
        role p = .inside → coveredPath paths p = true) ∧
    ∀ id more read works, s.Allows (.finish id more read works) →
      ∀ t t', s.tracker = some t →
        (s.step root role (.finish id more read works)).tracker = some t' →
        ∀ p n, t.dirty.get? p = some n → t'.dirty.get? p = none →
          t' = ChangeTracker.new s.identity ∨
            t.newest p ≤ (s.step root role (.finish id more read works)).readAt id p := by
  intro s
  have hinv : TrackInv s := (hallowed.throughout (fun s a h hallows => h.step a hallows)
    (trackInv_start identity head)).last
  constructor
  · intro fence paths w s' hanswer b hhead p time hwrite hlt hrole
    have hasked := hinv.trackedChanges role fence
    rw [hanswer] at hasked
    obtain ⟨t, ht, hcertain, hoverflow, hqueue, hbaseline, hscreen⟩ := hasked.answer paths rfl
    have hsame : s' = { s with tracker := s'.tracker } := hasked.same
    have hwrites : s'.writes = s.writes := by rw [hsame]
    have hreadAt : s'.readAt = s.readAt := by rw [hsame]
    have hholds :=
      (hasked.inv.tracker t ht).base hcertain hoverflow b (hbaseline.trans hhead) p time
        (hwrites ▸ hwrite) (by rw [hreadAt]; exact hlt)
    rcases hholds with ⟨e, he, -⟩ | ⟨n, hn, -⟩
    · rw [hqueue] at he
      exact absurd he (by simp)
    · have hkey : p ∈ t.dirty.keys := by
        rw [OrdMap.mem_keys_iff, hn]
        rfl
      have hmem := mem_of_screenPaths hscreen hkey hrole
      exact List.any_eq_true.mpr ⟨p, hmem, List.isPrefixOf_iff_prefix.mpr List.prefix_rfl⟩
  · intro id more read works hallows t t' ht ht' p n hn hgone
    obtain ⟨hread, -⟩ := hallows
    cases hcapture : s.capture with
    | none =>
      simp only [TrackState.step, finishCapture, hcapture] at ht'
      rw [ht] at ht'
      rw [Option.some.inj ht', hgone] at hn
      exact absurd hn (by simp)
    | some c =>
      simp only [TrackState.step, finishCapture, hcapture] at ht' ⊢
      split_ifs at ht' ⊢ with hrebuild
      · left
        unfold enableTracking at ht'
        cases works with
        | false => exact absurd ht' (by simp)
        | true => exact (Option.some.inj ht').symm
      · right
        dsimp only at ht' ⊢
        rw [ht] at ht'
        obtain rfl := Option.some.inj ht'
        change (finishTracking t c id).dirty.get? p = none at hgone
        by_cases hkeep : (c.captured.isSome && (!c.trusted || t.uncertain)) = true
        · rw [finishTracking, if_pos hkeep, hn] at hgone
          exact absurd hgone (by simp)
        · rw [finishTracking, if_neg hkeep] at hgone
          dsimp only at hgone
          rw [get?_consumeDirty, hn, Option.filter_eq_none_iff] at hgone
          obtain ⟨hold, hscope⟩ := Bool.or_eq_false_iff.mp
            (Bool.eq_false_iff.mpr (hgone n rfl))
          have hle : n ≤ c.watermark := Nat.le_of_not_lt (of_decide_eq_false hold)
          have hcovered : c.captured.all (fun paths => coveredPath paths p) = true := by
            cases hpaths : c.captured with
            | none => rfl
            | some paths =>
              rw [hpaths] at hscope
              simpa using hscope
          rw [Function.update_self, readTimes, hcovered, Bool.true_or, if_pos rfl]
          exact ((hinv.tracker t ht).older c hcapture p n hn hle).trans ((hread c hcapture).1 p)

end

/-- A file of the tree. -/
def watchedFile : WatchPath := [[114], [97]]

/-- The hash of the watched file. -/
def watchedHash : Bytes :=
  [168, 0, 254, 53, 86, 45, 74, 20, 243, 114, 204, 238, 50, 169, 157, 66, 203, 28,
    226, 207, 249, 31, 140, 96, 58, 26, 99, 140, 75, 159, 42, 63]

/-- The hash has 32 bytes. -/
theorem length_watchedHash : watchedHash.length = 32 := rfl

/-- The snapshot of a first capture. -/
def watchedId : ObjectId := ⟨watchedHash, length_watchedHash⟩

/-- The files are watched and captured, and then a file is written. -/
def watchedSteps : List (TrackStep Unit) :=
  [.enable true, .begin none .reached .reached true,
    .finish watchedId (fun _ => false) (fun _ => 0) true, .write watchedFile false]

/-- The repository after that. -/
def watchedState : TrackState Unit :=
  watchedSteps.foldl (TrackState.step [[114]] fun _ => .inside) (TrackState.start () none)

/-- The file is among the changed paths. -/
theorem no_change_lost_sample :
    ∃ paths w s', trackedChanges (fun _ => .inside) watchedState .reached = (some paths, w, s') ∧
      coveredPath paths watchedFile = true := by
  have hallowed : Run.Along (TrackState.step [[114]] fun _ => .inside) TrackState.Allows
      (TrackState.start () none) watchedSteps := by
    refine ⟨trivial, trivial, ⟨?_, ?_⟩, trivial, trivial⟩
    · intro c hc
      obtain rfl := Option.some.inj hc
      exact ⟨fun _ => le_rfl, fun h =>
        absurd (show (none : Option ObjectId) = some watchedId from h) (by simp)⟩
    · intro t ht
      obtain rfl := Option.some.inj ht
      decide
  obtain ⟨hchanged, -⟩ := no_change_lost [[114]] (fun _ => .inside) () none watchedSteps hallowed
  refine ⟨[watchedFile], _, _, rfl, ?_⟩
  exact hchanged .reached [watchedFile] _ _ rfl watchedId rfl watchedFile 1 List.mem_cons_self
    (by decide) rfl

end Furrow
