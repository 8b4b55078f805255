import Mathlib

set_option relaxedAutoImplicit false
set_option autoImplicit false

/-!
# The daemon of a store

`router.rs` and `handle.rs` of the daemon.  A store has one writer thread, which takes requests from
a queue and runs them one at a time; a flusher thread, which makes captures durable in groups; and
any number of callers, each of which waits for its answer and may give up.  A sync request puts a
barrier into the queue and then makes a group sync of its own.  At shutdown no request is admitted
any more, the queue is drained, and the flusher is stopped.

The threads meet in a few shared places: the queue, the state of a job, its reply, and the dirty
flag of the flusher.  A step of the machine is one access to these, so a run is any interleaving.
Requests are numbered; the number of a seal request also stands for the capture that it makes.

## Main definitions

* `Furrow.Daemon.Request` — a request, its job and its caller.
* `Furrow.Daemon.Writer`, `Furrow.Daemon.Flusher` — where the two threads stand.
* `Furrow.Daemon.State`, `Furrow.Daemon.Step` — the machine.
-/

namespace Furrow

namespace Daemon

/-- What is asked for.  Every verb but these two is `Other`. -/
inductive Ask (T : Type)
  | Seal (target : T) (durable : Bool)
  | Sync (target : T)
  | Other (target : T)

/-- Whether the writer runs a barrier in place of the verb. -/
def Ask.syncing {T : Type} : Ask T → Bool
  | Sync _ => true
  | _ => false

/-- The repository that is asked for. -/
def Ask.target {T : Type} : Ask T → T
  | Seal t _ => t
  | Sync t => t
  | Other t => t

/-- The state of a job: `QUEUED`, `RUNNING` or `CANCELED`. -/
inductive JobState
  | queued
  | running
  | canceled
deriving DecidableEq

/-- What the writer answers to a job. -/
inductive Reply (V E : Type)
  /-- The result of its verb. -/
  | result (r : Except E V)
  /-- Its handle could not be opened, or `group commit failed`. -/
  | refused
  /-- `store writer is still busy after waiting …`: the deadline has passed, or the caller has
  given up. -/
  | timeout

/-- What a caller is answered. -/
inductive Answer (V E : Type)
  /-- What the writer has replied. -/
  | reply (r : Reply V E)
  /-- The queue timeout, when the caller has canceled its job. -/
  | timeout
  /-- `daemon is stopping` -/
  | stopping
  /-- `durable: true` -/
  | durable
  /-- The group sync of a sync request has failed. -/
  | syncFailed (e : E)

/-- Whether an answer is the queue timeout. -/
def Answer.queueTimeout {V E : Type} : Answer V E → Bool
  | timeout => true
  | reply .timeout => true
  | _ => false

/-- Where a caller stands. -/
inductive Caller (V E : Type)
  /-- No request yet. -/
  | fresh
  /-- A sync request is registered. -/
  | entered
  /-- The caller has a sender of the queue. -/
  | sending
  /-- The job is sent; the caller waits until the deadline. -/
  | waiting
  /-- The deadline has passed while the job was running; the caller waits for its reply. -/
  | late
  /-- The barrier of a sync request has run. -/
  | ordered
  /-- The group sync of a sync request; it covers what was appended when it began. -/
  | syncing (covers : List ℕ)
  | answered (a : Answer V E)

/-- A request. -/
structure Request (T V E : Type) where
  ask : Ask T
  state : JobState
  reply : Option (Reply V E)
  caller : Caller V E
  /-- The captures that were answered before the request was submitted. -/
  before : List ℕ

/-- Where the writer thread stands. -/
inductive Writer (V E : Type)
  /-- Waiting for a job. -/
  | waiting
  /-- A job is taken; its deadline is to be checked. -/
  | took (i : ℕ)
  /-- The deadline has not passed; the job is to be claimed. -/
  | checked (i : ℕ)
  /-- The job is claimed; its handle is to be found. -/
  | claimed (i : ℕ)
  /-- The verb runs. -/
  | running (i : ℕ)
  /-- A seal has marked its handle dirty, and captures. -/
  | sealing (i : ℕ)
  /-- A seal has appended its reference. -/
  | appended (i : ℕ)
  /-- The sync of a durable seal; it covers what was appended when it began. -/
  | syncing (i : ℕ) (covers : List ℕ)
  /-- The reply is ready; pending captures are to be handed to the flusher. -/
  | finished (i : ℕ) (r : Reply V E)
  /-- The reply is to be sent. -/
  | flagged (i : ℕ) (r : Reply V E)
  /-- The queue is disconnected; the flusher is stopped and joined. -/
  | finishing
  | exited (ok : Bool)

/-- Where the flusher thread stands; `stopping` says that it was told to stop. -/
inductive Flusher
  | waiting
  /-- The dirty flag was set, and is cleared. -/
  | swapped (stopping : Bool)
  /-- A group sync; it covers what was appended when it began. -/
  | syncing (covers : List ℕ) (stopping : Bool)
  /-- The group sync has succeeded; the error is to be cleared. -/
  | synced (stopping : Bool)
  /-- The group sync has failed; the dirty flag is to be set again. -/
  | failed (covers : List ℕ) (stopping : Bool)
  /-- The dirty flag is set again; the error is to be noted. -/
  | restored (stopping : Bool)
  /-- The checkpointer is stopped and joined. -/
  | exiting
  | exited (ok : Bool)

/-- Where the router stands. -/
inductive Router
  | running
  /-- No request is admitted; syncs are waited for. -/
  | closing
  /-- The writer's queue is dropped. -/
  | dropped
  | closed (ok : Bool)

/-- A verb is started, or has ended. -/
inductive Event (V E : Type)
  | start (i : ℕ)
  | stop (i : ℕ) (r : Except E V)

/-- The state of the daemon for one store. -/
structure State (T V E : Type) where
  requests : ℕ → Request T V E
  /-- The callers that have a sender of the queue. -/
  senders : ℕ
  activeSyncs : ℕ
  queue : List ℕ
  writer : Writer V E
  /-- The handles that are dirty. -/
  dirtyHandle : T → Bool
  flusher : Flusher
  /-- The dirty flag of the flusher. -/
  dirty : Bool
  /-- The error of the flusher's last group sync. -/
  flushError : Bool
  stop : Bool
  router : Router
  /-- The captures whose reference is appended. -/
  appended : List ℕ
  /-- The captures that a successful group sync covers, which began after they were appended. -/
  covered : List ℕ
  /-- The captures that were answered. -/
  captured : List ℕ
  /-- The jobs in the order they were sent. -/
  accepted : List ℕ
  /-- The jobs in the order they were taken. -/
  taken : List ℕ
  /-- The runs of verbs. -/
  events : List (Event V E)

section Machine

variable {T V E : Type}

/-- Change one request. -/
def State.set (s : State T V E) (i : ℕ) (r : Request T V E) : State T V E :=
  { s with requests := Function.update s.requests i r }

/-- The daemon at its start; the ask of a request that is not submitted says nothing. -/
def State.init (ask : Ask T) : State T V E where
  requests := fun _ => ⟨ask, .queued, none, .fresh, []⟩
  senders := 0
  activeSyncs := 0
  queue := []
  writer := .waiting
  dirtyHandle := fun _ => false
  flusher := .waiting
  dirty := false
  flushError := false
  stop := false
  router := .running
  appended := []
  covered := []
  captured := []
  accepted := []
  taken := []
  events := []

/-- Whether a reply to a request answers a capture. -/
def Reply.captures (ask : Ask T) : Reply V E → Bool
  | .result (.ok _) => match ask with
    | .Seal _ _ => true
    | _ => false
  | _ => false

/-- What holds of a request holds of it after one request is changed. -/
theorem update_frame (P : Request T V E → Prop) (requests : ℕ → Request T V E) {i j : ℕ}
    {r : Request T V E} (h : P (requests j)) (hr : i = j → P r) :
    P (Function.update requests i r j) := by
  by_cases hij : i = j
  · rw [hij, Function.update_self]
    exact hr hij
  · rw [Function.update_of_ne (Ne.symm hij)]
    exact h

variable [DecidableEq T]

/-- **One step of the daemon.** -/
inductive Step : State T V E → State T V E → Prop
  -- callers: `submit_with_sync`
  | submit {s : State T V E} (i : ℕ) (ask : Ask T) (h : (s.requests i).caller = .fresh) :
      Step s
        { s.set i { s.requests i with ask := ask, caller := .entered, before := s.captured } with
        activeSyncs := s.activeSyncs + if ask.syncing then 1 else 0 }
  | enter {s : State T V E} (i : ℕ) (h : (s.requests i).caller = .entered)
      (hopen : s.router = .running) :
      Step s { s.set i { s.requests i with caller := .sending } with senders := s.senders + 1 }
  | refuse {s : State T V E} (i : ℕ) (h : (s.requests i).caller = .entered)
      (hopen : s.router ≠ .running) :
      Step s { s.set i { s.requests i with caller := .answered .stopping } with
        activeSyncs := s.activeSyncs - if (s.requests i).ask.syncing then 1 else 0 }
  | send {s : State T V E} (i : ℕ) (h : (s.requests i).caller = .sending) :
      Step s { s.set i { s.requests i with caller := .waiting } with
        senders := s.senders - 1, queue := s.queue ++ [i], accepted := s.accepted ++ [i] }
  | receive {s : State T V E} (i : ℕ) {r : Reply V E}
      (h : (s.requests i).caller = .waiting ∨ (s.requests i).caller = .late)
      (hreply : (s.requests i).reply = some r)
      (hdone : (s.requests i).ask.syncing = false ∨ ∀ v, r ≠ .result (.ok v)) :
      Step s { s.set i { s.requests i with caller := .answered (.reply r) } with
        activeSyncs := s.activeSyncs - if (s.requests i).ask.syncing then 1 else 0 }
  | receiveBarrier {s : State T V E} (i : ℕ) {v : V}
      (h : (s.requests i).caller = .waiting ∨ (s.requests i).caller = .late)
      (hreply : (s.requests i).reply = some (.result (.ok v)))
      (hsync : (s.requests i).ask.syncing = true) :
      Step s (s.set i { s.requests i with caller := .ordered })
  | cancel {s : State T V E} (i : ℕ) (h : (s.requests i).caller = .waiting)
      (hstate : (s.requests i).state = .queued) :
      Step s { s.set i { s.requests i with state := .canceled, caller := .answered .timeout } with
        activeSyncs := s.activeSyncs - if (s.requests i).ask.syncing then 1 else 0 }
  | waitLate {s : State T V E} (i : ℕ) (h : (s.requests i).caller = .waiting)
      (hstate : (s.requests i).state ≠ .queued) :
      Step s (s.set i { s.requests i with caller := .late })
  | beginSync {s : State T V E} (i : ℕ) (h : (s.requests i).caller = .ordered) :
      Step s (s.set i { s.requests i with caller := .syncing s.appended })
  | endSync {s : State T V E} (i : ℕ) {covers : List ℕ}
      (h : (s.requests i).caller = .syncing covers) :
      Step s { s.set i { s.requests i with caller := .answered .durable } with
        covered := s.covered ++ covers, activeSyncs := s.activeSyncs - 1 }
  | failSync {s : State T V E} (i : ℕ) {covers : List ℕ} (e : E)
      (h : (s.requests i).caller = .ordered ∨ (s.requests i).caller = .syncing covers) :
      Step s { s.set i { s.requests i with caller := .answered (.syncFailed e) } with
        activeSyncs := s.activeSyncs - 1 }
  -- the writer: `Writer::spawn`
  | take {s : State T V E} {i : ℕ} {rest : List ℕ} (h : s.writer = .waiting)
      (hqueue : s.queue = i :: rest) :
      Step s { s with writer := .took i, queue := rest, taken := s.taken ++ [i] }
  | check {s : State T V E} {i : ℕ} (h : s.writer = .took i) :
      Step s { s with writer := .checked i }
  | expire {s : State T V E} {i : ℕ} (h : s.writer = .took i) :
      Step s { s.set i { s.requests i with reply := some .timeout } with writer := .waiting }
  | claim {s : State T V E} {i : ℕ} (h : s.writer = .checked i)
      (hstate : (s.requests i).state = .queued) :
      Step s { s.set i { s.requests i with state := .running } with writer := .claimed i }
  | skip {s : State T V E} {i : ℕ} (h : s.writer = .checked i)
      (hstate : (s.requests i).state ≠ .queued) :
      Step s { s.set i { s.requests i with reply := some .timeout } with writer := .waiting }
  | blocked {s : State T V E} {i : ℕ} (h : s.writer = .claimed i) (herror : s.flushError = true) :
      Step s { s with writer := .finished i .refused }
  | noHandle {s : State T V E} {i : ℕ} (h : s.writer = .claimed i)
      (herror : s.flushError = false) :
      Step s { s.set i { s.requests i with reply := some .refused } with writer := .waiting }
  | start {s : State T V E} {i : ℕ} (h : s.writer = .claimed i) (herror : s.flushError = false) :
      Step s { s with writer := .running i, events := s.events ++ [.start i] }
  -- the verbs: `Handle::seal`, the barrier, and any other
  | fail {s : State T V E} {i : ℕ} (e : E) (h : s.writer = .running i) :
      Step s { s with
        writer := .finished i (.result (.error e)),
        events := s.events ++ [.stop i (.error e)] }
  | run {s : State T V E} {i : ℕ} (v : V) (h : s.writer = .running i)
      (hask : ∀ t d, (s.requests i).ask ≠ .Seal t d) :
      Step s { s with
        writer := .finished i (.result (.ok v)),
        events := s.events ++ [.stop i (.ok v)] }
  | mark {s : State T V E} {i : ℕ} {t : T} {d : Bool} (h : s.writer = .running i)
      (hask : (s.requests i).ask = .Seal t d) :
      Step s { s with writer := .sealing i, dirtyHandle := Function.update s.dirtyHandle t true }
  | captureFails {s : State T V E} {i : ℕ} (e : E) (h : s.writer = .sealing i) :
      Step s { s with
        writer := .finished i (.result (.error e)),
        events := s.events ++ [.stop i (.error e)] }
  | append {s : State T V E} {i : ℕ} (h : s.writer = .sealing i) :
      Step s { s with writer := .appended i, appended := s.appended ++ [i] }
  | sealed {s : State T V E} {i : ℕ} {t : T} (v : V) (h : s.writer = .appended i)
      (hask : (s.requests i).ask = .Seal t false) :
      Step s { s with
        writer := .finished i (.result (.ok v)),
        events := s.events ++ [.stop i (.ok v)] }
  | beginDurable {s : State T V E} {i : ℕ} {t : T} (h : s.writer = .appended i)
      (hask : (s.requests i).ask = .Seal t true) :
      Step s { s with writer := .syncing i s.appended }
  | durableFails {s : State T V E} {i : ℕ} {covers : List ℕ} (e : E)
      (h : s.writer = .syncing i covers) :
      Step s { s with
        writer := .finished i (.result (.error e)),
        events := s.events ++ [.stop i (.error e)] }
  | endDurable {s : State T V E} {i : ℕ} {covers : List ℕ} (v : V)
      (h : s.writer = .syncing i covers) :
      Step s { s with
        writer := .finished i (.result (.ok v)), covered := s.covered ++ covers,
        dirtyHandle := Function.update s.dirtyHandle (s.requests i).ask.target false,
        events := s.events ++ [.stop i (.ok v)] }
  -- after a verb: pending captures are handed over, and the reply is sent
  | handOver {s : State T V E} {i : ℕ} {r : Reply V E} (h : s.writer = .finished i r)
      (hpending : ∃ t, s.dirtyHandle t = true) :
      Step s { s with writer := .flagged i r, dirty := true, dirtyHandle := fun _ => false }
  | nothingPending {s : State T V E} {i : ℕ} {r : Reply V E} (h : s.writer = .finished i r)
      (hpending : ∀ t, s.dirtyHandle t = false) :
      Step s { s with writer := .flagged i r }
  | respond {s : State T V E} {i : ℕ} {r : Reply V E} (h : s.writer = .flagged i r) :
      Step s { s.set i { s.requests i with reply := some r } with
        writer := .waiting
        captured := s.captured ++ if r.captures (s.requests i).ask then [i] else [] }
  | disconnect {s : State T V E} (h : s.writer = .waiting) (hqueue : s.queue = [])
      (hsenders : s.senders = 0) (hdropped : s.router = .dropped) :
      Step s { s with writer := .finishing, stop := true }
  | join {s : State T V E} {ok : Bool} (h : s.writer = .finishing)
    (hflusher : s.flusher = .exited ok) :
      Step s { s with writer := .exited ok }
  -- the flusher
  | swap {s : State T V E} (stopping : Bool) (h : s.flusher = .waiting)
      (hstop : stopping = true → s.stop = true) (hdirty : s.dirty = true) :
      Step s { s with flusher := .swapped stopping, dirty := false }
  | idle {s : State T V E} (h : s.flusher = .waiting) (hdirty : s.dirty = false) : Step s s
  | stopIdle {s : State T V E} (h : s.flusher = .waiting) (hstop : s.stop = true)
      (hdirty : s.dirty = false) : Step s { s with flusher := .exiting }
  | beginFlush {s : State T V E} {stopping : Bool} (h : s.flusher = .swapped stopping) :
      Step s { s with flusher := .syncing s.appended stopping }
  | openFails {s : State T V E} {stopping : Bool} (h : s.flusher = .swapped stopping) :
      Step s { s with flusher := .failed s.appended stopping }
  | endFlush {s : State T V E} {covers : List ℕ} {stopping : Bool}
      (h : s.flusher = .syncing covers stopping) :
      Step s { s with flusher := .synced stopping, covered := s.covered ++ covers }
  | flushFails {s : State T V E} {covers : List ℕ} {stopping : Bool}
      (h : s.flusher = .syncing covers stopping) :
      Step s { s with flusher := .failed covers stopping }
  | clearError {s : State T V E} {stopping : Bool} (h : s.flusher = .synced stopping) :
      Step s { s with flusher := if stopping then .exiting else .waiting, flushError := false }
  | restore {s : State T V E} {covers : List ℕ} {stopping : Bool}
      (h : s.flusher = .failed covers stopping) :
      Step s { s with flusher := .restored stopping, dirty := true }
  | noteError {s : State T V E} {stopping : Bool} (h : s.flusher = .restored stopping) :
      Step s { s with flusher := if stopping then .exited false else .waiting, flushError := true }
  | checkpoint {s : State T V E} (ok : Bool) (h : s.flusher = .exiting) :
      Step s { s with flusher := .exited ok }
  -- the router: `close_durable`
  | close {s : State T V E} (h : s.router = .running) : Step s { s with router := .closing }
  | drop {s : State T V E} (h : s.router = .closing) (hsyncs : s.activeSyncs = 0) :
      Step s { s with router := .dropped }
  | closed {s : State T V E} {ok : Bool} (h : s.router = .dropped)
    (hwriter : s.writer = .exited ok) :
      Step s { s with router := .closed ok }

/-- The states of a run. -/
def Reachable (s : State T V E) : Prop :=
  ∃ ask, Relation.ReflTransGen Step (State.init ask) s

/-- A step from a reachable state leads to one. -/
theorem Reachable.tail {s s' : State T V E} (h : Reachable s) (hstep : Step s s') :
    Reachable s' := by
  obtain ⟨ask, hrun⟩ := h
  exact ⟨ask, hrun.tail hstep⟩

/-- **What every step keeps holds of every state of a run.** -/
theorem Reachable.induction {I : State T V E → Prop} (hinit : ∀ ask, I (State.init ask))
    (hstep : ∀ s s', Step s s' → I s → I s') {s : State T V E} (h : Reachable s) : I s := by
  obtain ⟨ask, hrun⟩ := h
  induction hrun with
  | refl => exact hinit ask
  | tail _ hlast ih => exact hstep _ _ hlast ih

end Machine

end Daemon

end Furrow
