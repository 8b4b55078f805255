import Furrow.Daemon.Router

set_option relaxedAutoImplicit false
set_option autoImplicit false

/-!
# No capture is lost

A capture is durable once a group sync that began after its reference was appended has succeeded.
Between its answer and that moment it must be known to the flusher: the dirty flag is set, or a
flush that will cover it is under way.  The writer sets the flag before it answers, and the flusher
clears it before it begins to sync, so no clearing can hide a capture that is not covered.

## Main definitions

* `Furrow.Daemon.InFlush`, `Furrow.Daemon.Owed` — a flush that covers a capture; a capture that is
  covered or known to the flusher.
* `Furrow.Daemon.ShutdownInv`, `Furrow.Daemon.CaptureInv`, `Furrow.Daemon.SyncInv` — what holds in
  every state of a run.

## Main results

* `Furrow.Daemon.no_capture_lost` — sync requests, shutdown and every state of a run.
-/

namespace Furrow

namespace Daemon

/-! ## Shutdown -/

/-- The flusher was told to stop. -/
def Flusher.Stopping : Flusher → Prop
  | .waiting => False
  | .swapped stopping => stopping = true
  | .syncing _ stopping => stopping = true
  | .synced stopping => stopping = true
  | .failed _ stopping => stopping = true
  | .restored stopping => stopping = true
  | .exiting => True
  | .exited _ => True

/-- The flusher was told to stop, and its last group sync has not failed. -/
def Flusher.Quiet : Flusher → Prop
  | .swapped stopping => stopping = true
  | .syncing _ stopping => stopping = true
  | .synced stopping => stopping = true
  | .exiting => True
  | .exited ok => ok = true
  | _ => False

/-- A flusher at rest is stopping. -/
theorem Flusher.Quiet.stopping {f : Flusher} (h : f.Quiet) : f.Stopping := by
  cases f <;> first | exact h | trivial

section Runs

variable {T V E : Type}

/-- The writer takes no more jobs. -/
def Writer.Stopped : Writer V E → Prop
  | .finishing => True
  | .exited _ => True
  | _ => False

/-- What holds of the threads: the flusher stops after the writer, and after its last swap the
dirty flag stays clear. -/
structure ShutdownInv (s : State T V E) : Prop where
  writer : s.stop = true → s.writer.Stopped
  flusher : s.flusher.Stopping → s.stop = true
  quiet : s.flusher.Quiet → s.dirty = false
  joined : ∀ ok, s.writer = .exited ok → s.flusher = .exited ok
  closed : ∀ ok, s.router = .closed ok → s.writer = .exited ok

/-- While the writer works, nothing has stopped. -/
theorem ShutdownInv.working {s : State T V E} (h : ShutdownInv s) (hw : ¬ s.writer.Stopped) :
    s.stop = false ∧ ¬ s.flusher.Stopping ∧ ∀ ok, s.router ≠ .closed ok := by
  have hstop : s.stop = false := by
    rw [← Bool.not_eq_true]
    exact fun hs => hw (h.writer hs)
  refine ⟨hstop, fun hf => ?_, fun ok hc => ?_⟩
  · rw [h.flusher hf] at hstop
    cases hstop
  · rw [h.closed ok hc] at hw
    exact hw trivial

/-- A step of the writer that is not its last. -/
theorem ShutdownInv.work {s s' : State T V E} (h : ShutdownInv s) (hw : ¬ s.writer.Stopped)
    (hw' : ¬ s'.writer.Stopped) (hstop : s'.stop = s.stop) (hflusher : s'.flusher = s.flusher)
    (hrouter : s'.router = s.router) : ShutdownInv s' := by
  obtain ⟨hnot, hrunning, hopen⟩ := h.working hw
  refine ⟨fun hs => ?_, fun hf => ?_, fun hq => ?_, fun ok he => ?_, fun ok hc => ?_⟩
  · rw [hstop, hnot] at hs
    cases hs
  · rw [hflusher] at hf
    exact absurd hf hrunning
  · rw [hflusher] at hq
    exact absurd hq.stopping hrunning
  · rw [he] at hw'
    exact absurd trivial hw'
  · rw [hrouter] at hc
    exact absurd hc (hopen ok)

/-- A step of the flusher. -/
theorem ShutdownInv.flush {s s' : State T V E} (h : ShutdownInv s)
    (hexited : ∀ ok, s.flusher ≠ .exited ok) (hflusher : s'.flusher.Stopping → s'.stop = true)
    (hquiet : s'.flusher.Quiet → s'.dirty = false) (hstop : s'.stop = s.stop)
    (hwriter : s'.writer = s.writer) (hrouter : s'.router = s.router) : ShutdownInv s' := by
  have hnot : ∀ ok, s.writer ≠ .exited ok := fun ok he => hexited ok (h.joined ok he)
  refine ⟨fun hs => ?_, hflusher, hquiet, fun ok he => ?_, fun ok hc => ?_⟩
  · rw [hwriter]
    rw [hstop] at hs
    exact h.writer hs
  · rw [hwriter] at he
    exact absurd he (hnot ok)
  · rw [hrouter] at hc
    exact absurd (h.closed ok hc) (hnot ok)

/-! ## What the flusher owes -/

/-- A flush is under way whose group sync begins after a capture was appended.  When it has failed,
it is under way until the dirty flag is set again. -/
def InFlush (s : State T V E) (c : ℕ) : Prop :=
  match s.flusher with
  | .swapped _ => True
  | .syncing covers _ => c ∈ covers
  | .failed covers _ => c ∈ covers
  | _ => False

/-- A capture is covered, or the flusher knows that something is to be covered. -/
def Owed (s : State T V E) (c : ℕ) : Prop := c ∈ s.covered ∨ s.dirty = true ∨ InFlush s c

/-- A step of another thread than the flusher. -/
theorem Owed.other {s s' : State T V E} {c : ℕ} (h : Owed s c) (hcovered : s.covered ⊆ s'.covered)
    (hdirty : s.dirty = true → s'.dirty = true) (hflusher : s'.flusher = s.flusher) :
    Owed s' c := by
  rcases h with h | h | h
  · exact Or.inl (hcovered h)
  · exact Or.inr (Or.inl (hdirty h))
  · refine Or.inr (Or.inr ?_)
    unfold InFlush at h ⊢
    rw [hflusher]
    exact h

variable [DecidableEq T]

/-- Every step keeps what holds of a shutdown. -/
theorem ShutdownInv.step {s s' : State T V E} (hstep : Step s s') (h : ShutdownInv s) :
    ShutdownInv s' := by
  have hkeep := h
  obtain ⟨hwriter, hflusher, hquiet, hjoined, hclosed⟩ := hkeep
  cases hstep with
  | submit | enter | refuse | send | receive | receiveBarrier | cancel | waitLate | beginSync
  | endSync | failSync | idle => exact ⟨hwriter, hflusher, hquiet, hjoined, hclosed⟩
  | take hw | check hw | expire hw | claim hw | skip hw | blocked hw | noHandle hw | start hw
  | mark hw | append hw | sealed _ hw | beginDurable hw | endDurable _ hw | handOver hw
  | nothingPending hw | respond hw | fail _ hw | run _ hw | captureFails _ hw
  | durableFails _ hw =>
    exact h.work (by rw [hw]; exact id) id rfl rfl rfl
  | disconnect hw hqueue hsenders hdropped =>
    refine ⟨fun _ => trivial, fun _ => rfl, hquiet, fun ok he => (nomatch he), fun ok hc => ?_⟩
    rw [show s.router = .closed ok from hc] at hdropped
    cases hdropped
  | @join ok hw hf =>
    refine ⟨fun _ => trivial, hflusher, hquiet, fun ok' he => ?_, fun ok' hc => ?_⟩
    · cases he
      exact hf
    · have hcontra := hclosed ok' hc
      rw [hw] at hcontra
      cases hcontra
  | swap stopping hf hs hd =>
    exact h.flush (by rw [hf]; exact fun _ => nofun) (fun hb => hs hb) (fun _ => rfl) rfl rfl rfl
  | stopIdle hf hs hd =>
    exact h.flush (by rw [hf]; exact fun _ => nofun) (fun _ => hs) (fun _ => hd) rfl rfl rfl
  | beginFlush hf | openFails hf | endFlush hf | flushFails hf | restore hf =>
    rw [hf] at hflusher hquiet
    refine h.flush (by rw [hf]; exact fun _ => nofun) hflusher ?_ rfl rfl rfl
    first
    | exact hquiet
    | exact fun hq => hq.elim
  | @clearError stopping hf =>
    rw [hf] at hflusher hquiet
    cases stopping with
    | true =>
      exact h.flush (by rw [hf]; exact fun _ => nofun) (fun _ => hflusher rfl)
        (fun _ => hquiet rfl) rfl rfl rfl
    | false =>
      exact h.flush (by rw [hf]; exact fun _ => nofun) (fun hs => hs.elim) (fun hq => hq.elim)
        rfl rfl rfl
  | @noteError stopping hf =>
    rw [hf] at hflusher hquiet
    cases stopping with
    | true =>
      exact h.flush (by rw [hf]; exact fun _ => nofun) (fun _ => hflusher rfl)
        (fun hq => nomatch hq) rfl rfl rfl
    | false =>
      exact h.flush (by rw [hf]; exact fun _ => nofun) (fun hs => hs.elim) (fun hq => hq.elim)
        rfl rfl rfl
  | checkpoint ok hf =>
    rw [hf] at hflusher hquiet
    exact h.flush (by rw [hf]; exact fun _ => nofun) (fun _ => hflusher trivial)
      (fun _ => hquiet trivial) rfl rfl rfl
  | close hr | drop hr =>
    exact ⟨hwriter, hflusher, hquiet, hjoined, fun ok hc => nomatch hc⟩
  | closed hr hw =>
    refine ⟨hwriter, hflusher, hquiet, hjoined, fun ok hc => ?_⟩
    cases hc
    exact hw

/-! ## What steps leave alone -/

/-- A request that is submitted stays the same request. -/
theorem Step.request_frame {s s' : State T V E} (hstep : Step s s') {j : ℕ}
    (h : (s.requests j).caller ≠ .fresh) :
    (s'.requests j).caller ≠ .fresh ∧ (s'.requests j).ask = (s.requests j).ask ∧
      (s'.requests j).before = (s.requests j).before := by
  have hset : ∀ (i : ℕ) (r : Request T V E), (i = j → r.caller ≠ .fresh ∧
      r.ask = (s.requests j).ask ∧ r.before = (s.requests j).before) →
      (Function.update s.requests i r j).caller ≠ .fresh ∧
        (Function.update s.requests i r j).ask = (s.requests j).ask ∧
        (Function.update s.requests i r j).before = (s.requests j).before :=
    fun i r hr => update_frame (fun q => q.caller ≠ .fresh ∧ q.ask = (s.requests j).ask ∧
      q.before = (s.requests j).before) s.requests ⟨h, rfl, rfl⟩ hr
  cases hstep with
  | submit i ask hfresh =>
    refine hset i _ fun hij => ?_
    rw [hij] at hfresh
    exact absurd hfresh h
  | enter i | refuse i | send i | receive i | receiveBarrier i | cancel i | waitLate i
  | beginSync i | endSync i | failSync i =>
    refine hset i _ fun hij => ?_
    subst hij
    exact ⟨nofun, rfl, rfl⟩
  | @expire i hw | @claim i hw | @skip i hw | @noHandle i hw | @respond i _ hw =>
    refine hset i _ fun hij => ?_
    subst hij
    exact ⟨h, rfl, rfl⟩
  | _ => exact ⟨h, rfl, rfl⟩

/-- Captures stay appended, covered and answered. -/
theorem Step.captures_mono {s s' : State T V E} (hstep : Step s s') :
    s.appended ⊆ s'.appended ∧ s.covered ⊆ s'.covered ∧ s.captured ⊆ s'.captured := by
  cases hstep <;>
    exact ⟨by first | exact List.Subset.refl _ | exact List.subset_append_left _ _,
      by first | exact List.Subset.refl _ | exact List.subset_append_left _ _,
      by first | exact List.Subset.refl _ | exact List.subset_append_left _ _⟩

/-! ## Captures -/

/-- **A capture stays owed until it is covered.** -/
theorem Owed.step {s s' : State T V E} (hstep : Step s s') {c : ℕ} (happended : c ∈ s.appended)
    (h : Owed s c) : Owed s' c := by
  have hcovered := hstep.captures_mono.2.1
  cases hstep with
  | swap => exact Or.inr (Or.inr trivial)
  | beginFlush | openFails => exact Or.inr (Or.inr happended)
  | restore => exact Or.inr (Or.inl rfl)
  | handOver => exact Or.inr (Or.inl rfl)
  | endFlush hf =>
    rcases h with h | h | h
    · exact Or.inl (List.mem_append_left _ h)
    · exact Or.inr (Or.inl h)
    · unfold InFlush at h
      rw [hf] at h
      exact Or.inl (List.mem_append_right _ h)
  | flushFails hf =>
    rcases h with h | h | h
    · exact Or.inl h
    · exact Or.inr (Or.inl h)
    · unfold InFlush at h
      rw [hf] at h
      exact Or.inr (Or.inr h)
  | stopIdle hf | clearError hf | noteError hf | checkpoint _ hf =>
    rcases h with h | h | h
    · exact Or.inl h
    · exact Or.inr (Or.inl h)
    · unfold InFlush at h
      rw [hf] at h
      exact h.elim
  | _ => exact h.other hcovered id rfl

/-- The job that the writer is busy with. -/
def Writer.job : Writer V E → Option ℕ
  | .took i => some i
  | .checked i => some i
  | .claimed i => some i
  | .running i => some i
  | .sealing i => some i
  | .appended i => some i
  | .syncing i _ => some i
  | .finished i _ => some i
  | .flagged i _ => some i
  | _ => none

/-- What the writer has to hand over for its job: a capture that is appended is covered, or its
handle is dirty, and later the flusher knows. -/
def WriterOwes (s : State T V E) : Prop :=
  match s.writer with
  | .sealing _ => ∃ t, s.dirtyHandle t = true
  | .appended i => i ∈ s.appended ∧ ∃ t, s.dirtyHandle t = true
  | .syncing i covers => i ∈ s.appended ∧ i ∈ covers
  | .finished i r => r.captures (s.requests i).ask = true →
      i ∈ s.appended ∧ (i ∈ s.covered ∨ ∃ t, s.dirtyHandle t = true)
  | .flagged i r => r.captures (s.requests i).ask = true → i ∈ s.appended ∧ Owed s i
  | _ => True

/-- What holds of the captures. -/
structure CaptureInv (s : State T V E) : Prop where
  queue : ∀ i ∈ s.queue, (s.requests i).caller ≠ .fresh
  job : ∀ i, s.writer.job = some i → (s.requests i).caller ≠ .fresh
  writer : WriterOwes s
  appended : ∀ c ∈ s.captured, c ∈ s.appended
  owed : ∀ c ∈ s.captured, Owed s c

/-- A step of another thread leaves the writer with what it has to hand over. -/
theorem WriterOwes.other {s s' : State T V E} (hstep : Step s s') (h : WriterOwes s)
    (hjob : ∀ i, s.writer.job = some i → (s.requests i).caller ≠ .fresh)
    (hwriter : s'.writer = s.writer) (hhandles : s'.dirtyHandle = s.dirtyHandle) :
    WriterOwes s' := by
  obtain ⟨happended, hcovered, -⟩ := hstep.captures_mono
  unfold WriterOwes at h ⊢
  rw [hwriter, hhandles]
  cases hw : s.writer with
  | sealing i =>
    rw [hw] at h
    exact h
  | appended i =>
    rw [hw] at h
    exact ⟨happended h.1, h.2⟩
  | syncing i covers =>
    rw [hw] at h
    exact ⟨happended h.1, h.2⟩
  | finished i r =>
    rw [hw] at h hjob
    intro hcaptures
    rw [(hstep.request_frame (hjob i rfl)).2.1] at hcaptures
    obtain ⟨hi, hkept⟩ := h hcaptures
    exact ⟨happended hi, hkept.imp_left fun hc => hcovered hc⟩
  | flagged i r =>
    rw [hw] at h hjob
    intro hcaptures
    rw [(hstep.request_frame (hjob i rfl)).2.1] at hcaptures
    obtain ⟨hi, howed⟩ := h hcaptures
    exact ⟨happended hi, howed.step hstep hi⟩
  | _ => trivial

/-- **What a step leaves the writer to hand over.** -/
theorem WriterOwes.step {s s' : State T V E} (hstep : Step s s') (h : WriterOwes s)
    (hjob : ∀ i, s.writer.job = some i → (s.requests i).caller ≠ .fresh) : WriterOwes s' := by
  have hstep' := hstep
  cases hstep with
  | take | check | expire | claim | skip | noHandle | start | respond | disconnect | join =>
    trivial
  | blocked | fail | captureFails | durableFails =>
    intro hcaptures
    cases hcaptures
  | @run i v hw hask =>
    intro hcaptures
    cases hkind : (s.requests i).ask with
    | Seal t d => exact absurd hkind (hask t d)
    | Sync t | Other t =>
      rw [show (Reply.result (.ok v) : Reply V E).captures (s.requests i).ask = false from by
        rw [hkind]; rfl] at hcaptures
      cases hcaptures
  | @mark i t d hw hask => exact ⟨t, Function.update_self t true s.dirtyHandle⟩
  | append hw =>
    unfold WriterOwes at h
    rw [hw] at h
    exact ⟨List.mem_append_right _ List.mem_cons_self, h⟩
  | sealed v hw hask =>
    unfold WriterOwes at h
    rw [hw] at h
    exact fun _ => ⟨h.1, Or.inr h.2⟩
  | beginDurable hw hask =>
    unfold WriterOwes at h
    rw [hw] at h
    exact ⟨h.1, h.1⟩
  | endDurable v hw =>
    unfold WriterOwes at h
    rw [hw] at h
    exact fun _ => ⟨h.1, Or.inl (List.mem_append_right _ h.2)⟩
  | handOver hw hpending =>
    unfold WriterOwes at h
    rw [hw] at h
    exact fun hcaptures => ⟨(h hcaptures).1, Or.inr (Or.inl rfl)⟩
  | nothingPending hw hpending =>
    unfold WriterOwes at h
    rw [hw] at h
    intro hcaptures
    obtain ⟨happended, hcovered | ⟨t, ht⟩⟩ := h hcaptures
    · exact ⟨happended, Or.inl hcovered⟩
    · rw [hpending t] at ht
      cases ht
  | _ => exact h.other hstep' hjob rfl rfl

/-- A job is in the queue because it was there, or because it is sent. -/
theorem Step.queue_cases {s s' : State T V E} (hstep : Step s s') {j : ℕ} (h : j ∈ s'.queue) :
    j ∈ s.queue ∨ (s.requests j).caller = .sending := by
  cases hstep with
  | send i hsending =>
    rcases List.mem_append.mp h with h | h
    · exact Or.inl h
    · rw [List.mem_singleton.mp h]
      exact Or.inr hsending
  | take hw hqueue =>
    rw [hqueue]
    exact Or.inl (List.mem_cons_of_mem _ h)
  | _ => exact Or.inl h

/-- The writer is busy with the job it had, or with one from the queue. -/
theorem Step.job_cases {s s' : State T V E} (hstep : Step s s') {j : ℕ}
    (h : s'.writer.job = some j) : s.writer.job = some j ∨ j ∈ s.queue := by
  cases hstep with
  | take hw hqueue =>
    cases h
    rw [hqueue]
    exact Or.inr List.mem_cons_self
  | expire | skip | noHandle | respond | disconnect | join => cases h
  | check hw | claim hw | blocked hw | start hw | fail _ hw | run _ hw | mark hw
  | captureFails _ hw | append hw | sealed _ hw | beginDurable hw | durableFails _ hw
  | endDurable _ hw | handOver hw | nothingPending hw =>
    rw [hw]
    exact Or.inl h
  | _ => exact Or.inl h

/-- A capture was answered before, or is answered now. -/
theorem Step.captured_cases {s s' : State T V E} (hstep : Step s s') {c : ℕ}
    (h : c ∈ s'.captured) : c ∈ s.captured ∨ ∃ r : Reply V E, s.writer = .flagged c r ∧
      r.captures (s.requests c).ask = true := by
  cases hstep with
  | @respond i r hw =>
    rcases List.mem_append.mp h with h | h
    · exact Or.inl h
    · split at h
      · rename_i hcaptures
        rw [List.mem_singleton.mp h]
        exact Or.inr ⟨r, hw, hcaptures⟩
      · cases h
  | _ => exact Or.inl h

/-- Every step keeps what holds of captures. -/
theorem CaptureInv.step {s s' : State T V E} (hstep : Step s s') (h : CaptureInv s) :
    CaptureInv s' := by
  obtain ⟨happend, -, -⟩ := hstep.captures_mono
  -- a capture that is answered now was handed over by the writer
  have hflagged : ∀ c ∈ s'.captured, c ∈ s.appended ∧ Owed s c := by
    intro c hc
    rcases hstep.captured_cases hc with hc | ⟨r, hw, hcaptures⟩
    · exact ⟨h.appended c hc, h.owed c hc⟩
    · have howes := h.writer
      unfold WriterOwes at howes
      rw [hw] at howes
      exact howes hcaptures
  refine ⟨fun j hj => ?_, fun j hj => ?_, h.writer.step hstep h.job, fun c hc => ?_, fun c hc => ?_⟩
  · refine (hstep.request_frame ?_).1
    rcases hstep.queue_cases hj with hj | hj
    · exact h.queue j hj
    · rw [hj]
      exact nofun
  · refine (hstep.request_frame ?_).1
    rcases hstep.job_cases hj with hj | hj
    · exact h.job j hj
    · exact h.queue j hj
  · exact happend (hflagged c hc).1
  · exact (hflagged c hc).2.step hstep (hflagged c hc).1

/-! ## Sync requests -/

/-- What a caller has covered of the captures that were answered before it. -/
def CallerCovers (s : State T V E) (i : ℕ) : Prop :=
  match (s.requests i).caller with
  | .syncing covers => (s.requests i).before ⊆ covers
  | .answered .durable => (s.requests i).before ⊆ s.covered
  | _ => True

/-- What holds of the sync requests. -/
structure SyncInv (s : State T V E) : Prop where
  before : ∀ i, (s.requests i).before ⊆ s.captured
  covers : ∀ i, CallerCovers s i

/-- A step that changes one request at most. -/
theorem SyncInv.set {s s' : State T V E} (hstep : Step s s') (h : SyncInv s) {i : ℕ}
    {r : Request T V E} (hrequests : s'.requests = Function.update s.requests i r)
    (hbefore : r.before ⊆ s'.captured) (hcovers : CallerCovers s' i) : SyncInv s' := by
  obtain ⟨-, hcovered, hcaptured⟩ := hstep.captures_mono
  have hother : ∀ j, j ≠ i → s'.requests j = s.requests j := by
    intro j hj
    rw [hrequests, Function.update_of_ne hj]
  refine ⟨fun j => ?_, fun j => ?_⟩
  · by_cases hj : j = i
    · rw [hj, hrequests, Function.update_self]
      exact hbefore
    · rw [hother j hj]
      exact List.Subset.trans (h.before j) hcaptured
  · by_cases hj : j = i
    · rw [hj]
      exact hcovers
    · have hkeep := h.covers j
      unfold CallerCovers at hkeep ⊢
      rw [hother j hj]
      split at hkeep
      · exact hkeep
      · exact List.Subset.trans hkeep hcovered
      · trivial

/-- A step that leaves the callers alone. -/
theorem SyncInv.other {s s' : State T V E} (hstep : Step s s') (h : SyncInv s)
    (hcaller : ∀ i, (s'.requests i).caller = (s.requests i).caller)
    (hbefore : ∀ i, (s'.requests i).before = (s.requests i).before) : SyncInv s' := by
  obtain ⟨-, hcovered, hcaptured⟩ := hstep.captures_mono
  refine ⟨fun j => ?_, fun j => ?_⟩
  · rw [hbefore j]
    exact List.Subset.trans (h.before j) hcaptured
  · have hkeep := h.covers j
    unfold CallerCovers at hkeep ⊢
    rw [hcaller j, hbefore j]
    split at hkeep
    · exact hkeep
    · exact List.Subset.trans hkeep hcovered
    · trivial

/-- Every step keeps what holds of group commits. -/
theorem SyncInv.step {s s' : State T V E} (hstep : Step s s') (hcapture : CaptureInv s)
    (h : SyncInv s) : SyncInv s' := by
  have hstep' := hstep
  have hself : ∀ (i : ℕ) (r : Request T V E), Function.update s.requests i r i = r :=
    fun i r => Function.update_self i r s.requests
  cases hstep with
  | submit i ask hfresh =>
    refine h.set hstep' rfl (List.Subset.refl _) ?_
    unfold CallerCovers State.set
    simp only [hself]
  | enter i | refuse i | send i | receive i | receiveBarrier i | cancel i | waitLate i
  | failSync i =>
    refine h.set hstep' rfl (h.before i) ?_
    unfold CallerCovers State.set
    simp only [hself]
  | beginSync i hordered =>
    refine h.set hstep' rfl (h.before i) ?_
    unfold CallerCovers State.set
    simp only [hself]
    exact fun c hc => hcapture.appended c (h.before i hc)
  | endSync i hsyncing =>
    have hcovers := h.covers i
    unfold CallerCovers at hcovers
    rw [hsyncing] at hcovers
    refine h.set hstep' rfl (h.before i) ?_
    unfold CallerCovers State.set
    simp only [hself]
    exact fun c hc => List.mem_append_right _ (hcovers hc)
  | expire | claim | skip | noHandle | respond =>
    refine h.other hstep' (fun j => ?_) (fun j => ?_) <;>
    · simp only [State.set, Function.update_apply]
      split
      · rename_i hj
        rw [hj]
      · rfl
  | _ => exact h.other hstep' (fun _ => rfl) (fun _ => rfl)

/-! ## Runs -/

/-- What holds in every state of a run. -/
theorem Reachable.invariants {s : State T V E} (h : Reachable s) :
    ShutdownInv s ∧ CaptureInv s ∧ SyncInv s := by
  refine h.induction (I := fun s => ShutdownInv s ∧ CaptureInv s ∧ SyncInv s) (fun ask => ?_)
    (fun s s' hstep hinv => ?_)
  · refine ⟨⟨nofun, fun hf => hf.elim, fun hq => hq.elim, fun _ => nofun, fun _ => nofun⟩,
      ⟨nofun, nofun, trivial, nofun, nofun⟩, ⟨fun _ => List.Subset.refl _, fun _ => trivial⟩⟩
  · obtain ⟨hshutdown, hcapture, hsync⟩ := hinv
    exact ⟨hshutdown.step hstep, hcapture.step hstep, hsync.step hstep hcapture⟩

/-- **No capture is lost.**  When a sync request is answered durable, the captures that were
answered before it was submitted are covered; when `close_durable` returns `Ok`, all captures that
were ever answered are; and in every state, for an answered capture that is not covered, the dirty
flag is set or a flush that will cover it is under way. -/
theorem no_capture_lost {s : State T V E} (h : Reachable s) :
    (∀ i, (s.requests i).caller = .answered .durable → ∀ c ∈ (s.requests i).before,
      c ∈ s.covered) ∧
    (s.router = .closed true → ∀ c ∈ s.captured, c ∈ s.covered) ∧
    (∀ c ∈ s.captured, c ∉ s.covered → s.dirty = true ∨ InFlush s c) := by
  obtain ⟨hshutdown, hcapture, hsync⟩ := h.invariants
  refine ⟨fun i hi c hc => ?_, fun hclosed c hc => ?_, fun c hc hnot => ?_⟩
  · have hcovers := hsync.covers i
    unfold CallerCovers at hcovers
    rw [hi] at hcovers
    exact hcovers hc
  · -- the flusher has exited without an error, so nothing is left for it
    have hflusher : s.flusher = .exited true := hshutdown.joined _ (hshutdown.closed _ hclosed)
    have hclean : s.dirty = false := hshutdown.quiet (by rw [hflusher]; rfl)
    rcases hcapture.owed c hc with hcovered | hdirty | hflush
    · exact hcovered
    · rw [hclean] at hdirty
      cases hdirty
    · unfold InFlush at hflush
      rw [hflusher] at hflush
      exact hflush.elim
  · exact (hcapture.owed c hc).resolve_left hnot

/-- A capture is answered and no group sync has begun. -/
theorem no_capture_lost_unsynced : ∃ s : State Unit Unit Unit, Reachable s ∧ 0 ∈ s.captured ∧
    0 ∉ s.covered ∧ (s.dirty = true ∨ InFlush s 0) := by
  have hinit : Reachable (State.init (.Other ()) : State Unit Unit Unit) := ⟨.Other (), .refl⟩
  have hsent := ((hinit.tail (.submit 0 (.Seal () false) rfl)).tail (.enter 0 rfl rfl)).tail
    (.send 0 rfl)
  have hclaimed := ((hsent.tail (.take rfl rfl)).tail (.check rfl)).tail (.claim rfl rfl)
  have happended := ((hclaimed.tail (.start rfl rfl)).tail (.mark rfl rfl)).tail (.append rfl)
  have hanswered := ((happended.tail (.sealed () rfl rfl)).tail (.handOver rfl ⟨(), rfl⟩)).tail
    (.respond rfl)
  exact ⟨_, hanswered, List.mem_singleton_self 0, List.not_mem_nil,
    (no_capture_lost hanswered).2.2 0 (List.mem_singleton_self 0) List.not_mem_nil⟩

end Runs

end Daemon

end Furrow
