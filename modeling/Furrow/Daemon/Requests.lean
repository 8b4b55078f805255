import Mathlib
import Furrow.Daemon.Durability

set_option relaxedAutoImplicit false
set_option autoImplicit false

/-!
# What callers are answered

A caller that gives up and the writer that takes its job decide independently; they meet in the
state of the job, which either of them changes from `queued`, and in the reply.  A verb is started
only after the writer has won the state, so a caller that canceled its job, or was refused by the
writer, knows that the verb never runs.

## Main definitions

* `Furrow.Daemon.starts`, `Furrow.Daemon.Serial` — the verbs that were started; one at a time.
* `Furrow.Daemon.QueueInv`, `Furrow.Daemon.RunInv`, `Furrow.Daemon.ReplyInv` — what holds in every
  state of a run.
* `Furrow.Daemon.Receives` — what a caller is answered after a result of its verb.

## Main results

* `Furrow.Daemon.requests_answered` — timeouts, order and results in every run.
-/

namespace Furrow

namespace Daemon

section Events

variable {V E : Type}

/-- The verbs that were started, in order. -/
def starts (events : List (Event V E)) : List ℕ :=
  events.filterMap fun
    | .start i => some i
    | .stop _ _ => none

/-- The verbs that have ended, in order, with their results. -/
def stops (events : List (Event V E)) : List (ℕ × Except E V) :=
  events.filterMap fun
    | .start _ => none
    | .stop i r => some (i, r)

/-- A request that starts is the last one to. -/
@[simp] theorem starts_start (events : List (Event V E)) (i : ℕ) :
    starts (events ++ [.start i]) = starts events ++ [i] := by
  simp [starts]

/-- A request that stops does not start. -/
@[simp] theorem starts_stop (events : List (Event V E)) (i : ℕ) (r : Except E V) :
    starts (events ++ [.stop i r]) = starts events := by
  simp [starts]

/-- A request that starts does not stop. -/
@[simp] theorem stops_start (events : List (Event V E)) (i : ℕ) :
    stops (events ++ [.start i]) = stops events := by
  simp [stops]

/-- A request that stops is the last one to. -/
@[simp] theorem stops_stop (events : List (Event V E)) (i : ℕ) (r : Except E V) :
    stops (events ++ [.stop i r]) = stops events ++ [(i, r)] := by
  simp [stops]

/-- What has stopped is among the events. -/
theorem mem_stops {events : List (Event V E)} {i : ℕ} {r : Except E V} :
    (i, r) ∈ stops events ↔ Event.stop i r ∈ events := by
  unfold stops
  rw [List.mem_filterMap]
  constructor
  · rintro ⟨e, he, heq⟩
    cases e with
    | start j => cases heq
    | stop j r' =>
      cases heq
      exact he
  · exact fun h => ⟨_, h, rfl⟩

/-- Verbs run one at a time: between a start and its stop there is nothing.  The second argument is
the verb that runs at the end. -/
inductive Serial : List (Event V E) → Option ℕ → Prop
  | nil : Serial [] none
  | start {events : List (Event V E)} (i : ℕ) (h : Serial events none) :
      Serial (events ++ [.start i]) (some i)
  | stop {events : List (Event V E)} {i : ℕ} (r : Except E V) (h : Serial events (some i)) :
      Serial (events ++ [.stop i r]) none

/-- The verbs that have ended, and the one that runs, are those that were started. -/
theorem Serial.stops_eq {events : List (Event V E)} {running : Option ℕ}
    (h : Serial events running) :
    (stops events).map Prod.fst ++ running.toList = starts events := by
  induction h with
  | nil => rfl
  | start i _ ih =>
    rw [stops_start, starts_start, ← ih]
    simp
  | stop r _ ih =>
    rw [stops_stop, starts_stop, ← ih]
    simp

/-- A verb that is started once has one result. -/
theorem Serial.result_unique {events : List (Event V E)} {running : Option ℕ}
    (h : Serial events running) (hnodup : (starts events).Nodup) {i : ℕ} {r r' : Except E V}
    (hr : Event.stop i r ∈ events) (hr' : Event.stop i r' ∈ events) : r' = r := by
  rw [← h.stops_eq] at hnodup
  have hkeys : ((stops events).map Prod.fst).Nodup := hnodup.of_append_left
  have hpair := List.inj_on_of_nodup_map hkeys (mem_stops.mpr hr') (mem_stops.mpr hr) rfl
  exact congrArg Prod.snd hpair

end Events

section Runs

variable {T V E : Type}

/-- The caller has sent its job. -/
def Caller.sent : Caller V E → Bool
  | .fresh => false
  | .entered => false
  | .sending => false
  | .answered .stopping => false
  | _ => true

/-- The job that is taken and whose verb is not started. -/
def Writer.pending : Writer V E → Option ℕ
  | .took i => some i
  | .checked i => some i
  | .claimed i => some i
  | _ => none

/-- The job whose verb runs. -/
def Writer.executing : Writer V E → Option ℕ
  | .running i => some i
  | .sealing i => some i
  | .appended i => some i
  | .syncing i _ => some i
  | _ => none

/-- The reply that is ready. -/
def Writer.reply : Writer V E → Option (ℕ × Reply V E)
  | .finished i r => some (i, r)
  | .flagged i r => some (i, r)
  | _ => none

/-- What a reply to a job says of the run of its verb. -/
def Replies (events : List (Event V E)) (i : ℕ) : Reply V E → Prop
  | .result r => Event.stop i r ∈ events
  | _ => i ∉ starts events

/-- What the answer to a request says of its job. -/
def Request.Settled (q : Request T V E) : Prop :=
  match q.caller with
  | .ordered => q.ask.syncing = true ∧ ∃ v, q.reply = some (.result (.ok v))
  | .syncing _ => q.ask.syncing = true ∧ ∃ v, q.reply = some (.result (.ok v))
  | .answered (.reply r) =>
    q.reply = some r ∧ (q.ask.syncing = false ∨ ∀ v, r ≠ .result (.ok v))
  | .answered .timeout => q.state = .canceled
  | .answered .durable => q.ask.syncing = true ∧ ∃ v, q.reply = some (.result (.ok v))
  | .answered (.syncFailed _) => q.ask.syncing = true ∧ ∃ v, q.reply = some (.result (.ok v))
  | _ => True

/-- What holds of the queue. -/
structure QueueInv (s : State T V E) : Prop where
  accepted : s.accepted = s.taken ++ s.queue
  nodup : s.accepted.Nodup
  sent : ∀ i ∈ s.accepted, (s.requests i).caller.sent = true
  job : ∀ i, s.writer.job = some i → i ∈ s.taken

/-- What holds of the verbs that were started. -/
structure RunInv (s : State T V E) : Prop where
  order : (starts s.events ++ s.writer.pending.toList).Sublist s.taken
  serial : Serial s.events s.writer.executing
  claimed : ∀ i, s.writer = .claimed i → (s.requests i).state = .running
  started : ∀ i ∈ starts s.events, (s.requests i).state = .running

/-- What holds of replies and answers. -/
structure ReplyInv (s : State T V E) : Prop where
  reply : ∀ i r, (s.requests i).reply = some r →
    i ∈ s.taken ∧ s.writer.job ≠ some i ∧ Replies s.events i r
  writer : ∀ i r, s.writer.reply = some (i, r) → Replies s.events i r
  caller : ∀ i, (s.requests i).Settled

/-- A job that is taken and not started was never started. -/
theorem RunInv.not_started {s : State T V E} (h : RunInv s) (hqueue : QueueInv s) {i : ℕ}
    (hi : s.writer.pending = some i) : i ∉ starts s.events := by
  have htaken : s.taken.Nodup := by
    have hnodup := hqueue.nodup
    rw [hqueue.accepted] at hnodup
    exact hnodup.of_append_left
  have hnodup := h.order.nodup htaken
  rw [hi] at hnodup
  intro hmem
  exact (List.disjoint_of_nodup_append hnodup) hmem (List.mem_singleton_self i)

/-- A request without a reply is settled as before when it gets one. -/
theorem Request.Settled.replied {q : Request T V E} (h : q.Settled) (hnone : q.reply = none)
    (r : Option (Reply V E)) : ({ q with reply := r } : Request T V E).Settled := by
  obtain ⟨ask, state, reply, caller, before⟩ := q
  cases hnone
  cases caller with
  | ordered | syncing =>
    obtain ⟨-, _, hv⟩ := h
    cases hv
  | answered a =>
    cases a with
    | reply r' => cases h.1
    | durable | syncFailed =>
      obtain ⟨-, _, hv⟩ := h
      cases hv
    | timeout | stopping => exact h
  | fresh | entered | sending | waiting | late => trivial

/-- A request whose job is queued is settled as before when the job is claimed. -/
theorem Request.Settled.claimed {q : Request T V E} (h : q.Settled) (hqueued : q.state = .queued)
    (claimed : JobState) : ({ q with state := claimed } : Request T V E).Settled := by
  obtain ⟨ask, state, reply, caller, before⟩ := q
  cases hqueued
  cases caller with
  | answered a =>
    cases a with
    | timeout => cases h
    | _ => exact h
  | _ => exact h

variable [DecidableEq T]

/-! ## What steps leave alone -/

/-- A job that is sent stays sent. -/
theorem Step.sent_stable {s s' : State T V E} (hstep : Step s s') {j : ℕ}
    (h : (s.requests j).caller.sent = true) : (s'.requests j).caller.sent = true := by
  have hset : ∀ (i : ℕ) (r : Request T V E), (i = j → r.caller.sent = true) →
      (Function.update s.requests i r j).caller.sent = true :=
    fun i r hr => update_frame (fun q => q.caller.sent = true) s.requests h hr
  cases hstep with
  | submit i _ hc | enter i hc | refuse i hc =>
    refine hset i _ fun hij => ?_
    subst hij
    rw [hc] at h
    cases h
  | send i | receive i | receiveBarrier i | cancel i | waitLate i | beginSync i | endSync i
  | failSync i => exact hset i _ fun _ => rfl
  | @expire i hw | @claim i hw | @skip i hw | @noHandle i hw | @respond i _ hw =>
    refine hset i _ fun hij => ?_
    subst hij
    exact h
  | _ => exact h

/-- A job whose state is decided keeps it. -/
theorem Step.state_stable {s s' : State T V E} (hstep : Step s s') {j : ℕ}
    (h : (s.requests j).state ≠ .queued) : (s'.requests j).state = (s.requests j).state := by
  have hset : ∀ (i : ℕ) (r : Request T V E), (i = j → r.state = (s.requests j).state) →
      (Function.update s.requests i r j).state = (s.requests j).state :=
    fun i r hr => update_frame (fun q => q.state = (s.requests j).state) s.requests rfl hr
  cases hstep with
  | submit i | enter i | refuse i | send i | receive i | receiveBarrier i | waitLate i
  | beginSync i | endSync i | failSync i =>
    refine hset i _ fun hij => ?_
    subst hij
    rfl
  | cancel i _ hstate =>
    refine hset i _ fun hij => ?_
    subst hij
    exact absurd hstate h
  | @claim i _ hstate =>
    refine hset i _ fun hij => ?_
    subst hij
    exact absurd hstate h
  | @expire i | @skip i | @noHandle i | @respond i =>
    refine hset i _ fun hij => ?_
    subst hij
    rfl
  | _ => rfl

/-- An answer is final. -/
theorem Step.answer_stable {s s' : State T V E} (hstep : Step s s') {j : ℕ} {a : Answer V E}
    (h : (s.requests j).caller = .answered a) : (s'.requests j).caller = .answered a := by
  have hset : ∀ (i : ℕ) (r : Request T V E), (i = j → r.caller = .answered a) →
      (Function.update s.requests i r j).caller = .answered a :=
    fun i r hr => update_frame (fun q => q.caller = .answered a) s.requests h hr
  cases hstep with
  | submit i _ hc | enter i hc | refuse i hc | send i hc | cancel i hc | waitLate i hc
  | beginSync i hc | endSync i hc =>
    refine hset i _ fun hij => ?_
    subst hij
    rw [hc] at h
    cases h
  | receive i hc | receiveBarrier i hc | failSync i _ hc =>
    refine hset i _ fun hij => ?_
    subst hij
    rcases hc with hc | hc <;>
    · rw [hc] at h
      cases h
  | @expire i hw | @claim i hw | @skip i hw | @noHandle i hw | @respond i _ hw =>
    refine hset i _ fun hij => ?_
    subst hij
    exact h
  | _ => exact h

/-! ## The queue -/

/-- Every step keeps what holds of the queue. -/
theorem QueueInv.step {s s' : State T V E} (hstep : Step s s') (h : QueueInv s) : QueueInv s' := by
  have hsent : ∀ i ∈ s.accepted, (s'.requests i).caller.sent = true :=
    fun i hi => hstep.sent_stable (h.sent i hi)
  cases hstep with
  | send i hc =>
    have hnew : i ∉ s.accepted := by
      intro hmem
      have hcontra := h.sent i hmem
      rw [hc] at hcontra
      cases hcontra
    refine ⟨?_, ?_, fun j hj => ?_, h.job⟩
    · change s.accepted ++ [i] = s.taken ++ (s.queue ++ [i])
      rw [h.accepted, List.append_assoc]
    · exact List.nodup_append.mpr ⟨h.nodup, List.nodup_singleton i, fun a ha b hb hab =>
        hnew (List.mem_singleton.mp hb ▸ hab ▸ ha)⟩
    · rcases List.mem_append.mp hj with hj | hj
      · exact hsent j hj
      · rw [List.mem_singleton.mp hj]
        change (Function.update s.requests i _ i).caller.sent = true
        rw [Function.update_self]
        rfl
  | @take i rest hw hqueue =>
    refine ⟨?_, h.nodup, hsent, fun j hj => ?_⟩
    · change s.accepted = (s.taken ++ [i]) ++ rest
      rw [h.accepted, hqueue, List.append_assoc]
      rfl
    · cases hj
      exact List.mem_append_right _ (List.mem_singleton_self i)
  | check hw | claim hw | blocked hw | start hw | fail _ hw | run _ hw | mark hw
  | captureFails _ hw | append hw | sealed _ hw | beginDurable hw | durableFails _ hw
  | endDurable _ hw | handOver hw | nothingPending hw =>
    refine ⟨h.accepted, h.nodup, hsent, fun j hj => h.job j ?_⟩
    rw [hw]
    exact hj
  | expire | skip | noHandle | respond | disconnect | join =>
    exact ⟨h.accepted, h.nodup, hsent, nofun⟩
  | _ => exact ⟨h.accepted, h.nodup, hsent, h.job⟩

/-! ## The verbs -/

/-- Verbs are started in the order their jobs were taken. -/
theorem RunInv.order_step {s s' : State T V E} (hstep : Step s s') (h : RunInv s) :
    (starts s'.events ++ s'.writer.pending.toList).Sublist s'.taken := by
  have horder := h.order
  have hstarts : (starts s.events).Sublist s.taken :=
    (List.sublist_append_left _ _).trans horder
  cases hstep with
  | @take i rest hw hqueue =>
    exact hstarts.append (List.Sublist.refl [i])
  | check hw | claim hw =>
    rw [hw] at horder
    exact horder
  | @start i hw herror =>
    rw [hw] at horder
    change (starts (s.events ++ [Event.start i]) ++ []).Sublist s.taken
    rw [starts_start, List.append_nil]
    exact horder
  | fail | run | captureFails | sealed | durableFails | endDurable =>
    change (starts (s.events ++ [Event.stop _ _]) ++ []).Sublist s.taken
    rw [starts_stop, List.append_nil]
    exact hstarts
  | expire | skip | blocked | noHandle | mark | append | beginDurable | handOver
  | nothingPending | respond | disconnect | join =>
    change (starts s.events ++ []).Sublist s.taken
    rw [List.append_nil]
    exact hstarts
  | _ => exact horder

/-- Verbs run one at a time. -/
theorem RunInv.serial_step {s s' : State T V E} (hstep : Step s s') (h : RunInv s) :
    Serial s'.events s'.writer.executing := by
  have hserial := h.serial
  cases hstep with
  | start hw =>
    rw [hw] at hserial
    exact hserial.start _
  | fail _ hw | run _ hw | captureFails _ hw | sealed _ hw | durableFails _ hw
  | endDurable _ hw =>
    rw [hw] at hserial
    exact hserial.stop _
  | take hw | check hw | expire hw | claim hw | skip hw | blocked hw | noHandle hw | mark hw
  | append hw | beginDurable hw | handOver hw | nothingPending hw | respond hw | disconnect hw
  | join hw =>
    rw [hw] at hserial
    exact hserial
  | _ => exact hserial

/-- The writer has won the state of a job before it starts the verb. -/
theorem RunInv.claimed_step {s s' : State T V E} (hstep : Step s s') (h : RunInv s) :
    ∀ i, s'.writer = .claimed i → (s'.requests i).state = .running := by
  have hkeep : ∀ i, s.writer = .claimed i → (s'.requests i).state = .running := by
    intro i hi
    have hstate := h.claimed i hi
    rw [hstep.state_stable (by rw [hstate]; exact nofun)]
    exact hstate
  cases hstep with
  | @claim i hw hstate =>
    intro j hj
    cases hj
    change (Function.update s.requests i _ i).state = .running
    rw [Function.update_self]
  | take | check | expire | skip | blocked | noHandle | start | fail | run | mark | captureFails
  | append | sealed | beginDurable | durableFails | endDurable | handOver | nothingPending
  | respond | disconnect | join => exact nofun
  | _ => exact hkeep

/-- A verb is started now, or was started before. -/
theorem Step.starts_cases {s s' : State T V E} (hstep : Step s s') {i : ℕ}
    (h : i ∈ starts s'.events) : i ∈ starts s.events ∨ s.writer = .claimed i := by
  cases hstep with
  | @start j hw =>
    change i ∈ starts (s.events ++ [Event.start j]) at h
    rw [starts_start] at h
    rcases List.mem_append.mp h with h | h
    · exact Or.inl h
    · rw [List.mem_singleton.mp h]
      exact Or.inr hw
  | fail | run | captureFails | sealed | durableFails | endDurable =>
    change i ∈ starts (s.events ++ [Event.stop _ _]) at h
    rw [starts_stop] at h
    exact Or.inl h
  | _ => exact Or.inl h

/-- Every step keeps what holds of the request that runs. -/
theorem RunInv.step {s s' : State T V E} (hstep : Step s s') (h : RunInv s) : RunInv s' := by
  refine ⟨h.order_step hstep, h.serial_step hstep, h.claimed_step hstep, fun i hi => ?_⟩
  have hstate : (s.requests i).state = .running := by
    rcases hstep.starts_cases hi with hi | hi
    · exact h.started i hi
    · exact h.claimed i hi
  rw [hstep.state_stable (by rw [hstate]; exact nofun)]
  exact hstate

/-! ## Replies -/

/-- The events of a run are kept. -/
theorem Step.events_mono {s s' : State T V E} (hstep : Step s s') : s.events ⊆ s'.events := by
  cases hstep <;> first | exact List.Subset.refl _ | exact List.subset_append_left _ _

/-- What a reply says of a run stays true when the job is no longer the writer's. -/
theorem Replies.step {s s' : State T V E} (hstep : Step s s') {i : ℕ} {r : Reply V E}
    (h : Replies s.events i r) (hclaimed : s.writer ≠ .claimed i) : Replies s'.events i r := by
  cases r with
  | result r => exact hstep.events_mono h
  | refused | timeout =>
    intro hi
    rcases hstep.starts_cases hi with hi | hi
    · exact h hi
    · exact hclaimed hi

/-- The reply that becomes ready is the result of the run, or the verb was not started. -/
theorem ReplyInv.writer_step {s s' : State T V E} (hstep : Step s s') (h : ReplyInv s)
    (hqueue : QueueInv s) (hrun : RunInv s) :
    ∀ i r, s'.writer.reply = some (i, r) → Replies s'.events i r := by
  have hkeep : ∀ i r, s.writer.reply = some (i, r) → Replies s'.events i r := by
    intro i r hr
    refine (h.writer i r hr).step hstep fun hclaimed => ?_
    rw [hclaimed] at hr
    cases hr
  cases hstep with
  | @blocked i hw =>
    intro j r hj
    cases hj
    exact hrun.not_started hqueue (by rw [hw]; rfl)
  | fail | run | captureFails | sealed | durableFails | endDurable =>
    intro j r hj
    cases hj
    exact List.mem_append_right _ (List.mem_singleton_self _)
  | handOver hw | nothingPending hw =>
    intro j r hj
    refine hkeep j r ?_
    rw [hw]
    exact hj
  | take | check | expire | claim | skip | noHandle | start | mark | append | beginDurable
  | respond | disconnect | join => exact nofun
  | _ => exact hkeep

/-- A job is replied to now, without a run or with a result, or was replied to before. -/
theorem Step.reply_cases {s s' : State T V E} (hstep : Step s s') {j : ℕ} {r : Reply V E}
    (h : (s'.requests j).reply = some r) : (s.requests j).reply = some r ∨
      (s.writer.job = some j ∧ s'.writer.job = none ∧ s'.events = s.events ∧
        ((s.writer.pending = some j ∧ ∀ r', r ≠ .result r') ∨ s.writer = .flagged j r)) := by
  -- the reply of one request is changed, or of none
  have hset : ∀ (i : ℕ) (q : Request T V E), (Function.update s.requests i q j).reply = some r →
      (s.requests j).reply = some r ∨ (i = j ∧ q.reply = some r) :=
    fun i q => update_frame (fun q' => q'.reply = some r → (s.requests j).reply = some r ∨
      (i = j ∧ q.reply = some r)) s.requests Or.inl fun hij hq => Or.inr ⟨hij, hq⟩
  cases hstep with
  | submit i | enter i | refuse i | send i | receive i | receiveBarrier i | cancel i | waitLate i
  | beginSync i | endSync i | failSync i =>
    rcases hset i _ h with hold | ⟨hij, hq⟩
    · exact Or.inl hold
    · subst hij
      exact Or.inl hq
  | @claim i hw =>
    rcases hset i _ h with hold | ⟨hij, hq⟩
    · exact Or.inl hold
    · subst hij
      exact Or.inl hq
  | @expire i hw | @skip i hw | @noHandle i hw =>
    rcases hset i _ h with hold | ⟨hij, hq⟩
    · exact Or.inl hold
    · subst hij
      cases hq
      rw [hw]
      exact Or.inr ⟨rfl, rfl, rfl, Or.inl ⟨rfl, fun _ => nofun⟩⟩
  | @respond i r' hw =>
    rcases hset i _ h with hold | ⟨hij, hq⟩
    · exact Or.inl hold
    · subst hij
      cases hq
      rw [hw]
      exact Or.inr ⟨rfl, rfl, rfl, Or.inr rfl⟩
  | _ => exact Or.inl h

/-- Jobs stay taken. -/
theorem Step.taken_mono {s s' : State T V E} (hstep : Step s s') : s.taken ⊆ s'.taken := by
  cases hstep <;> first | exact List.Subset.refl _ | exact List.subset_append_left _ _

/-- A reply is the result of the request, or says why there is none. -/
theorem ReplyInv.reply_step {s s' : State T V E} (hstep : Step s s') (h : ReplyInv s)
    (hqueue : QueueInv s) (hrun : RunInv s) (i : ℕ) (r : Reply V E)
    (hr : (s'.requests i).reply = some r) :
    i ∈ s'.taken ∧ s'.writer.job ≠ some i ∧ Replies s'.events i r := by
  rcases hstep.reply_cases hr with hold | ⟨hjob, hnone, hevents, hnew⟩
  · obtain ⟨htaken, hjob, hreplies⟩ := h.reply i r hold
    refine ⟨hstep.taken_mono htaken, fun hjob' => ?_, hreplies.step hstep fun hclaimed => ?_⟩
    · -- a job is taken once
      rcases hstep.job_cases hjob' with hjob' | hqueued
      · exact hjob hjob'
      · have hnodup := hqueue.nodup
        rw [hqueue.accepted] at hnodup
        exact (List.disjoint_of_nodup_append hnodup) htaken hqueued
    · rw [hclaimed] at hjob
      exact hjob rfl
  · refine ⟨hstep.taken_mono (hqueue.job i hjob), by rw [hnone]; exact nofun, ?_⟩
    rw [hevents]
    rcases hnew with ⟨hpending, hr⟩ | hflagged
    · have hnot := hrun.not_started hqueue hpending
      cases r with
      | result r => exact absurd rfl (hr r)
      | refused | timeout => exact hnot
    · exact h.writer i r (by rw [hflagged]; rfl)

/-! ## Answers -/

/-- A caller that has its reply has settled. -/
theorem ReplyInv.caller_step {s s' : State T V E} (hstep : Step s s') (h : ReplyInv s) (j : ℕ) :
    (s'.requests j).Settled := by
  have hset : ∀ (i : ℕ) (q : Request T V E), q.Settled →
      (Function.update s.requests i q j).Settled :=
    fun i q hq => update_frame _ s.requests (h.caller j) fun _ => hq
  -- the writer's job has no reply yet
  have hjob : ∀ i, s.writer.job = some i → (s.requests i).reply = none := by
    intro i hi
    cases hreply : (s.requests i).reply with
    | none => rfl
    | some r => exact absurd hi (h.reply i r hreply).2.1
  cases hstep with
  | submit i | enter i | refuse i | send i | waitLate i => exact hset i _ trivial
  | receive i hc hreply hdone => exact hset i _ ⟨hreply, hdone⟩
  | @receiveBarrier i v hc hreply hsync => exact hset i _ ⟨hsync, v, hreply⟩
  | cancel i => exact hset i _ rfl
  | beginSync i hc | endSync i hc =>
    have hsettled := h.caller i
    unfold Request.Settled at hsettled
    rw [hc] at hsettled
    exact hset i _ hsettled
  | failSync i e hc =>
    have hsettled := h.caller i
    unfold Request.Settled at hsettled
    refine hset i _ ?_
    rcases hc with hc | hc <;>
    · rw [hc] at hsettled
      exact hsettled
  | @claim i hw hstate => exact hset i _ ((h.caller i).claimed hstate _)
  | @expire i hw | @skip i hw | @noHandle i hw | @respond i _ hw =>
    exact hset i _ ((h.caller i).replied (hjob i (by rw [hw]; rfl)) _)
  | _ => exact h.caller j

/-- Every step keeps what holds of replies. -/
theorem ReplyInv.step {s s' : State T V E} (hstep : Step s s') (h : ReplyInv s)
    (hqueue : QueueInv s) (hrun : RunInv s) : ReplyInv s' :=
  ⟨h.reply_step hstep hqueue hrun, h.writer_step hstep hqueue hrun, h.caller_step hstep⟩

/-! ## Runs -/

/-- What holds of the requests in every state of a run. -/
theorem Reachable.requests {s : State T V E} (h : Reachable s) :
    QueueInv s ∧ RunInv s ∧ ReplyInv s := by
  refine h.induction (I := fun s => QueueInv s ∧ RunInv s ∧ ReplyInv s) (fun ask => ?_)
    (fun s s' hstep hinv => ?_)
  · exact ⟨⟨rfl, List.nodup_nil, nofun, nofun⟩, ⟨List.Sublist.refl [], .nil, nofun, nofun⟩,
      ⟨nofun, nofun, fun _ => trivial⟩⟩
  · obtain ⟨hqueue, hrun, hreply⟩ := hinv
    exact ⟨hqueue.step hstep, hrun.step hstep, hreply.step hstep hqueue hrun⟩

/-- What a caller is answered after a result of its verb.  For a sync request the verb is the
barrier; when that has succeeded, the answer is that of the caller's own group sync. -/
def Receives (ask : Ask T) (r : Except E V) (a : Answer V E) : Prop :=
  match ask.syncing, r with
  | true, .ok _ => a = .durable ∨ ∃ e, a = .syncFailed e
  | _, r => a = .reply (.result r)

/-- A caller whose verb was started is answered with its result. -/
theorem answered_of_started {s : State T V E} (h : Reachable s) {i : ℕ} {a : Answer V E}
    (ha : (s.requests i).caller = .answered a) (hi : i ∈ starts s.events) :
    ∃ r, Event.stop i r ∈ s.events ∧ Receives (s.requests i).ask r a := by
  obtain ⟨hqueue, hrun, hreply⟩ := h.requests
  have hsettled := hreply.caller i
  unfold Request.Settled at hsettled
  rw [ha] at hsettled
  cases a with
  | reply r =>
    obtain ⟨hr, hdone⟩ := hsettled
    have hreplies := (hreply.reply i r hr).2.2
    cases r with
    | result r =>
      refine ⟨r, hreplies, ?_⟩
      unfold Receives
      split
      · rename_i hsync
        rcases hdone with hdone | hdone
        · rw [hdone] at hsync
          cases hsync
        · exact absurd rfl (hdone _)
      · rfl
    | refused | timeout => exact absurd hi hreplies
  | timeout =>
    have hstate := hrun.started i hi
    rw [show (s.requests i).state = .canceled from hsettled] at hstate
    cases hstate
  | stopping =>
    have htaken : i ∈ s.taken := ((List.sublist_append_left _ _).trans hrun.order).subset hi
    have hsent := hqueue.sent i (by rw [hqueue.accepted]; exact List.mem_append_left _ htaken)
    rw [ha] at hsent
    cases hsent
  | durable =>
    obtain ⟨hsync, v, hr⟩ := hsettled
    refine ⟨.ok v, (hreply.reply i _ hr).2.2, ?_⟩
    unfold Receives
    rw [hsync]
    exact Or.inl rfl
  | syncFailed e =>
    obtain ⟨hsync, v, hr⟩ := hsettled
    refine ⟨.ok v, (hreply.reply i _ hr).2.2, ?_⟩
    unfold Receives
    rw [hsync]
    exact Or.inr ⟨e, rfl⟩

/-- A caller that was answered with the queue timeout has no verb that was started. -/
theorem not_started_of_timeout {s : State T V E} (h : Reachable s) {i : ℕ} {a : Answer V E}
    (ha : (s.requests i).caller = .answered a) (htimeout : a.queueTimeout = true) :
    i ∉ starts s.events := by
  intro hi
  obtain ⟨r, -, hr⟩ := answered_of_started h ha hi
  unfold Receives at hr
  split at hr
  · rcases hr with rfl | ⟨e, rfl⟩ <;> cases htimeout
  · subst hr
    cases htimeout

/-- **A timed-out request never runs, and a verb that runs is answered.**  A request whose caller
was answered with the queue timeout has no run of its verb then or later; verbs are started at most
once, one at a time and in the order of the queue; and a caller whose verb was started is answered
with the one result of that run. -/
theorem requests_answered {s : State T V E} (h : Reachable s) :
    (∀ i a, (s.requests i).caller = .answered a → a.queueTimeout = true →
      ∀ s', Relation.ReflTransGen Step s s' → i ∉ starts s'.events) ∧
    ((starts s.events).Nodup ∧ (starts s.events).Sublist s.accepted ∧
      ∃ running, Serial s.events running) ∧
    (∀ i a, (s.requests i).caller = .answered a → i ∈ starts s.events →
      ∃ r, Event.stop i r ∈ s.events ∧ (∀ r', Event.stop i r' ∈ s.events → r' = r) ∧
        Receives (s.requests i).ask r a) := by
  obtain ⟨hqueue, hrun, -⟩ := h.requests
  have hsublist : (starts s.events).Sublist s.accepted := by
    rw [hqueue.accepted]
    exact ((List.sublist_append_left _ _).trans hrun.order).trans (List.sublist_append_left _ _)
  have hnodup : (starts s.events).Nodup := hsublist.nodup hqueue.nodup
  refine ⟨fun i a ha htimeout s' hlater => ?_, ⟨hnodup, hsublist, _, hrun.serial⟩,
    fun i a ha hi => ?_⟩
  · obtain ⟨hreachable, ha'⟩ : Reachable s' ∧ (s'.requests i).caller = .answered a := by
      induction hlater with
      | refl => exact ⟨h, ha⟩
      | tail _ hlast ih => exact ⟨ih.1.tail hlast, hlast.answer_stable ih.2⟩
    exact not_started_of_timeout hreachable ha' htimeout
  · obtain ⟨r, hr, hreceives⟩ := answered_of_started h ha hi
    exact ⟨r, hr, fun r' hr' => hrun.serial.result_unique hnodup hr hr', hreceives⟩

/-- One caller gives up while its job is in the queue, and the verb of another is run. -/
theorem requests_answered_canceled : ∃ s : State Unit Unit Unit, Reachable s ∧
    (s.requests 0).caller = .answered .timeout ∧ starts s.events = [1] ∧
    ∀ s', Relation.ReflTransGen Step s s' → 0 ∉ starts s'.events := by
  have hinit : Reachable (State.init (.Other ()) : State Unit Unit Unit) := ⟨.Other (), .refl⟩
  have hfirst := ((hinit.tail (.submit 0 (.Other ()) rfl)).tail (.enter 0 rfl rfl)).tail
    (.send 0 rfl)
  have hsecond := ((hfirst.tail (.submit 1 (.Other ()) rfl)).tail (.enter 1 rfl rfl)).tail
    (.send 1 rfl)
  have hcanceled := hsecond.tail (.cancel 0 rfl rfl)
  have hskipped := ((hcanceled.tail (.take rfl rfl)).tail (.check rfl)).tail (.skip rfl nofun)
  have hclaimed := ((hskipped.tail (.take rfl rfl)).tail (.check rfl)).tail (.claim rfl rfl)
  have hstarted := hclaimed.tail (.start rfl rfl)
  exact ⟨_, hstarted, rfl, rfl, (requests_answered hstarted).1 0 _ rfl rfl⟩

end Runs

end Daemon

end Furrow
