import Furrow.Lib.Run
import Furrow.Radar.Conflicts

set_option relaxedAutoImplicit false
set_option autoImplicit false

/-!
# The event stream of a family

The events that the reconciliations of `radar.rs` write are meant to be replayed: what opens or
updates a conflict sets its members and its claim state, what resolves it removes it.  An event is
written only if there is none of its identifier, and the identifier is a digest of what the event
says.  So a change that a conflict has seen before is not in the stream a second time.

## Main definitions

* `Furrow.Radar.step` — observations, reconciliations, and forks that go away.
* `Furrow.replay` — what the events say, one after the other.
* `Furrow.Radar.conflicts` — the active conflicts with their members and claim states.
* `Furrow.RadarStep.Fresh` — a step whose changes are not in the stream.

## Main results

* `Furrow.replay_eq_conflicts` — a stream that no change was left out of is replayable.
-/

namespace Furrow

/-! ## Steps -/

/-- The table `radar_keep`. -/
def radarKeep : List Bytes → List Bytes → Except RadarError (List Bytes)
  | kept, [] => .ok kept
  | kept, forkId :: rest =>
    if !isId forkId then .error .invalidForkId
    else if forkId ∈ kept then .error .forkTwice
    else radarKeep (kept ++ [forkId]) rest

/-- The radar without the scopes of forks that are gone. -/
def Radar.keepScopes (r : Radar) (kept : List Bytes) : Radar :=
  { r with dirty := r.dirty.filter fun key _ => (ofLex key).1 ∈ kept }

/-- The radar without the universes of forks that are gone. -/
def Radar.keepUniverses (r : Radar) (kept : List Bytes) : Radar :=
  { r with universes := r.universes.filter fun fork _ => fork ∈ kept }

/-- **Forget the forks that are gone** (`retain_universes`). -/
def retainUniverses (hash : Bytes → Bytes) (family : Bytes) (forkIds : List Bytes)
    (claims : List ClaimRecord) (r : Radar) : Except RadarError Radar := do
  let kept ← radarKeep [] forkIds
  pure ((reconcileConflicts hash family claims (r.keepScopes kept)).keepUniverses kept)

/-- What is done to a radar. -/
inductive RadarStep
  | observe (store : ObjectStore) (fuel : ℕ) (registration : UniverseRegistration)
  | reconcile (claims : List ClaimRecord)
  | retainUniverses (forkIds : List Bytes) (claims : List ClaimRecord)

/-- A step; one that fails changes nothing. -/
def Radar.step (hash : Bytes → Bytes) (family : Bytes) (r : Radar) : RadarStep → Radar
  | .observe store fuel registration =>
    match observe store fuel registration r.toObserved with
    | .ok (_, observed) => { r with toObserved := observed }
    | .error _ => r
  | .reconcile claims => reconcileConflicts hash family claims r
  | .retainUniverses forkIds claims =>
    match Furrow.retainUniverses hash family forkIds claims r with
    | .ok r' => r'
    | .error _ => r

/-- The radar of a new family. -/
def Radar.start : Radar where
  universes := .empty
  dirty := .empty
  activeConflicts := .empty
  activeMembers := .empty
  log := ⟨[], 0⟩

/-! ## Replay -/

/-- Conflicts with their members and claim states. -/
abbrev Conflicts := OrdMap Bytes (List Bytes × ClaimState)

/-- What one event does to the conflicts. -/
def replayEvent (conflicts : Conflicts) (e : RadarEvent) : Conflicts :=
  match e.state with
  | .opened | .updated => conflicts.insert e.path (e.forks.map EventFork.forkId, e.claimState)
  | .resolved => conflicts.erase e.path

/-- The conflicts that events tell of. -/
def replay (rows : List RadarEvent) : Conflicts := rows.foldl replayEvent .empty

/-- The active conflicts with their members and claim states. -/
def Radar.conflicts (r : Radar) : Conflicts :=
  (OrdMap.empty : Conflicts).foldInsert (r.activeConflicts.toList.map fun p =>
    (p.1, ((r.activeMembers.get? p.1).getD [], p.2.claimState)))

/-- No change that a reconciliation finds has the identifier of an event in the table, and no two
have the same. -/
structure NewEvents (hash : Bytes → Bytes) (family : Bytes) (claims : List ClaimRecord)
    (r : Radar) : Prop where
  absent : ∀ path ∈ r.conflictPaths, ∀ change, conflictChange r claims path = some change →
    ∀ e ∈ r.log.rows, e.eventId ≠ eventId hash family path change
  distinct : ∀ path ∈ r.conflictPaths, ∀ path' ∈ r.conflictPaths, ∀ change change',
    conflictChange r claims path = some change → conflictChange r claims path' = some change' →
      eventId hash family path change = eventId hash family path' change' → path = path'

/-- **A step whose changes are not in the stream already.** -/
def RadarStep.Fresh (hash : Bytes → Bytes) (family : Bytes) (r : Radar) : RadarStep → Prop
  | .observe .. => True
  | .reconcile claims => NewEvents hash family claims r
  | .retainUniverses forkIds claims =>
    ∀ kept, radarKeep [] forkIds = .ok kept → NewEvents hash family claims (r.keepScopes kept)

/-! ## Forks that are registered -/

/-- The forks that the tables name have a universe. -/
structure Radar.Registered (r : Radar) : Prop where
  ids : ∀ fork, (r.universes.get? fork).isSome → fork.length = 32
  dirty : ∀ key ∈ r.dirty.keys, (r.universes.get? (ofLex key).1).isSome
  members : ∀ path members, r.activeMembers.get? path = some members →
    members ≠ [] ∧ ∀ fork ∈ members, (r.universes.get? fork).isSome
  paths : ∀ path, (r.activeMembers.get? path).isSome ↔ (r.activeConflicts.get? path).isSome

/-- Nothing is observed at the start. -/
theorem registered_start : Radar.start.Registered where
  ids := by simp [Radar.start]
  dirty := by simp [Radar.start, OrdMap.mem_keys_iff]
  members := by simp [Radar.start]
  paths := by simp [Radar.start]

/-- A conflict with its members and its claims. -/
theorem get?_conflicts (r : Radar) (path : Bytes) :
    r.conflicts.get? path = (r.activeConflicts.get? path).map fun c =>
      ((r.activeMembers.get? path).getD [], c.claimState) := by
  unfold Radar.conflicts
  rw [OrdMap.get?_foldInsert _ (f := fun p => (r.activeConflicts.get? p).map fun c =>
    ((r.activeMembers.get? p).getD [], c.claimState)), List.map_map]
  · split_ifs with hkey
    · rfl
    · have hnone : r.activeConflicts.get? path = none := by
        rw [← Option.not_isSome_iff_eq_none, ← OrdMap.mem_keys_iff]
        exact hkey
      rw [hnone, OrdMap.get?_empty]
      rfl
  · intro p hp
    obtain ⟨q, hq, rfl⟩ := List.mem_map.mp hp
    simp only
    rw [(OrdMap.mem_toList_iff _).mp hq]
    rfl

/-! ## Signatures -/

section Signature

variable {universes : OrdMap Bytes Universe} {ms ms' : List Bytes}

/-- An event names all members that have a universe. -/
theorem forkIds_eventForks (h : ∀ fork ∈ ms, (universes.get? fork).isSome) :
    (eventForks universes ms).map EventFork.forkId = ms := by
  induction ms with
  | nil => rfl
  | cons fork rest ih =>
    obtain ⟨u, hu⟩ := Option.isSome_iff_exists.mp (h fork List.mem_cons_self)
    have hrest := ih fun f hf => h f (List.mem_cons_of_mem _ hf)
    unfold eventForks at hrest ⊢
    rw [List.filterMap_cons, hu]
    simp only [Option.map_some, List.map_cons]
    rw [hrest]

/-- Registered forks are all in the event. -/
theorem eventForks_eq_nil_iff (h : ∀ fork ∈ ms, (universes.get? fork).isSome) :
    eventForks universes ms = [] ↔ ms = [] := by
  rw [← List.map_eq_nil_iff (f := EventFork.forkId), forkIds_eventForks h]

/-- The signature of a conflict begins with its first member. -/
theorem forkSignature_cons {fork : Bytes} {u : Universe} (hu : universes.get? fork = some u) :
    ∃ tail : Bytes → Bytes, ∀ rest, forkSignature (eventForks universes (fork :: rest)) =
      fork ++ tail (if eventForks universes rest = [] then []
        else 44 :: forkSignature (eventForks universes rest)) ∧
          Function.Injective tail ∧ ∀ b, tail b ≠ [] := by
  refine ⟨fun b => [64] ++ hexEncode u.head.bytes ++ b, fun rest => ⟨?_, ?_, ?_⟩⟩
  · have hcons : eventForks universes (fork :: rest) =
        ⟨fork, u.name, hexEncode u.head.bytes⟩ :: eventForks universes rest := by
      unfold eventForks
      rw [List.filterMap_cons, hu]
      rfl
    rw [hcons]
    unfold forkSignature
    cases hrest : eventForks universes rest with
    | nil => simp [EventFork.signature]
    | cons f fs => simp [EventFork.signature, List.intercalate]
  · intro b b' hb
    exact List.append_cancel_left hb
  · intro b
    simp

/-- **Members with the same signature are the same**: identifiers have the same length. -/
theorem eq_of_forkSignature_eq (hids : ∀ fork, (universes.get? fork).isSome → fork.length = 32)
    (h : ∀ fork ∈ ms, (universes.get? fork).isSome)
    (h' : ∀ fork ∈ ms', (universes.get? fork).isSome)
    (heq : forkSignature (eventForks universes ms) = forkSignature (eventForks universes ms')) :
    ms = ms' := by
  have hnil : forkSignature (eventForks universes []) = [] := rfl
  induction ms generalizing ms' with
  | nil =>
    cases ms' with
    | nil => rfl
    | cons fork' rest' =>
      obtain ⟨u', hu'⟩ := Option.isSome_iff_exists.mp (h' fork' List.mem_cons_self)
      obtain ⟨tail, htail⟩ := forkSignature_cons hu'
      obtain ⟨hsig, -, hne⟩ := htail rest'
      rw [hnil, hsig] at heq
      exact absurd (List.append_eq_nil_iff.mp heq.symm).2 (hne _)
  | cons fork rest ih =>
    obtain ⟨u, hu⟩ := Option.isSome_iff_exists.mp (h fork List.mem_cons_self)
    obtain ⟨tail, htail⟩ := forkSignature_cons hu
    cases ms' with
    | nil =>
      obtain ⟨hsig, -, hne⟩ := htail rest
      rw [hnil, hsig] at heq
      exact absurd (List.append_eq_nil_iff.mp heq).2 (hne _)
    | cons fork' rest' =>
      have hrest := fun f hf => h f (List.mem_cons_of_mem fork hf)
      have hrest' := fun f hf => h' f (List.mem_cons_of_mem fork' hf)
      obtain ⟨u', hu'⟩ := Option.isSome_iff_exists.mp (h' fork' List.mem_cons_self)
      obtain ⟨tail', htail'⟩ := forkSignature_cons hu'
      have hlen : fork.length = fork'.length := by
        rw [hids fork (by simp [hu]), hids fork' (by simp [hu'])]
      have hfork : fork = fork' := by
        rw [(htail rest).1, (htail' rest').1] at heq
        exact (List.append_inj heq hlen).1
      subst hfork
      rw [(htail rest).1, (htail rest').1] at heq
      have hafter := (htail rest).2.1 (List.append_cancel_left heq)
      congr 1
      apply ih hrest hrest'
      split_ifs at hafter with hn hn'
      · rw [hn, hn']
      · exact (List.cons.inj hafter).2

end Signature

/-! ## Changes -/

section Change

variable {r : Radar}

/-- What a change does to the conflict at its path. -/
def ConflictChange.effect (conflict : Option (List Bytes × ClaimState)) :
    Option ConflictChange → Option (List Bytes × ClaimState)
  | none => conflict
  | some change =>
    match change.state with
    | .opened | .updated => some (change.forks.map EventFork.forkId, change.claimState)
    | .resolved => none

section Cases

variable {claims : List ClaimRecord} {path : Bytes}

/-- A conflict with the same forks and claims has not changed. -/
theorem conflictChange_eq_none (h : forkSignature (r.nextForks path) =
    forkSignature (r.oldForks path) ∧ r.nextClaimState claims path = r.oldClaimState path) :
    conflictChange r claims path = none := by
  simp [conflictChange, h]

/-- A conflict that had no forks is opened. -/
theorem conflictChange_opened
    (h : forkSignature (r.nextForks path) ≠ forkSignature (r.oldForks path))
    (hold : r.oldForks path = []) (hnext : r.nextForks path ≠ []) :
    conflictChange r claims path =
      some ⟨.opened, r.nextForks path, r.nextClaimState claims path⟩ := by
  have hold' : (r.oldForks path).isEmpty = true := by simp [hold]
  have hnext' : (r.nextForks path).isEmpty = false := by simp [hnext]
  simp only [conflictChange, if_neg (not_and_of_not_left _ h), hold', hnext']

/-- A conflict that has no forks any more is resolved. -/
theorem conflictChange_resolved
    (h : forkSignature (r.nextForks path) ≠ forkSignature (r.oldForks path))
    (hold : r.oldForks path ≠ []) (hnext : r.nextForks path = []) :
    conflictChange r claims path = some ⟨.resolved, r.oldForks path, r.oldClaimState path⟩ := by
  have hold' : (r.oldForks path).isEmpty = false := by simp [hold]
  have hnext' : (r.nextForks path).isEmpty = true := by simp [hnext]
  simp only [conflictChange, if_neg (not_and_of_not_left _ h), hold', hnext']

/-- A conflict that has other forks or claims is updated. -/
theorem conflictChange_updated (h : ¬ (forkSignature (r.nextForks path) =
    forkSignature (r.oldForks path) ∧ r.nextClaimState claims path = r.oldClaimState path))
    (hold : r.oldForks path ≠ []) (hnext : r.nextForks path ≠ []) :
    conflictChange r claims path =
      some ⟨.updated, r.nextForks path, r.nextClaimState claims path⟩ := by
  have hold' : (r.oldForks path).isEmpty = false := by simp [hold]
  have hnext' : (r.nextForks path).isEmpty = false := by simp [hnext]
  simp only [conflictChange, if_neg h, hold', hnext']

end Cases

/-- The members of a conflict have scopes. -/
theorem mem_keys_of_mem_nextMembers {path fork : Bytes}
    (h : fork ∈ nextMembers (scopeRows r.dirty) path) :
    ∃ key ∈ r.dirty.keys, (ofLex key).1 = fork := by
  obtain ⟨d₁, d₂, hpair, -, hfork⟩ := mem_nextMembers_iff_groupedAt.mp h
  rcases hfork with rfl | rfl
  · obtain ⟨key, hkey, rfl⟩ := List.mem_map.mp hpair.left
    exact ⟨key, hkey, rfl⟩
  · obtain ⟨key, hkey, rfl⟩ := List.mem_map.mp hpair.right
    exact ⟨key, hkey, rfl⟩

/-- A conflict has members. -/
theorem nextMembers_ne_nil {rows : List ScopeRow} {path : Bytes}
    (h : path ∈ (nextConflicts rows).keys) : nextMembers rows path ≠ [] := by
  obtain ⟨d₁, d₂, hpair, rfl⟩ := mem_pairPaths_iff.mp (mem_nextConflicts_iff.mp h).1
  exact List.ne_nil_of_mem (mem_nextMembers_iff_groupedAt.mpr (groupedAt_of_pairOf hpair).1)

namespace Radar.Registered

variable (h : r.Registered)
include h

/-- The members of a conflict are registered. -/
theorem nextMembers {path fork : Bytes} (hfork : fork ∈ nextMembers (scopeRows r.dirty) path) :
    (r.universes.get? fork).isSome := by
  obtain ⟨key, hkey, rfl⟩ := mem_keys_of_mem_nextMembers hfork
  exact h.dirty key hkey

/-- What a path was: no conflict, or one with members. -/
theorem old_cases (path : Bytes) :
    (r.activeConflicts.get? path = none ∧ r.oldForks path = [] ∧
      r.oldClaimState path = .unclaimed) ∨
    ∃ c members, r.activeConflicts.get? path = some c ∧
      r.activeMembers.get? path = some members ∧
        r.oldForks path = eventForks r.universes members ∧ r.oldForks path ≠ [] ∧
          r.oldClaimState path = c.claimState := by
  cases hc : r.activeConflicts.get? path with
  | none =>
    have hnone : r.activeMembers.get? path = none := by
      rw [← Option.not_isSome_iff_eq_none, h.paths, hc]
      simp
    refine Or.inl ⟨rfl, ?_, ?_⟩
    · rw [Radar.oldForks, hnone]
      rfl
    · rw [Radar.oldClaimState, hc]
      rfl
  | some c =>
    obtain ⟨members, hmembers⟩ : ∃ members, r.activeMembers.get? path = some members := by
      rw [← Option.isSome_iff_exists, h.paths, hc]
      rfl
    obtain ⟨hne, hreg⟩ := h.members path members hmembers
    have hforks : r.oldForks path = eventForks r.universes members := by
      rw [Radar.oldForks, hmembers]
      rfl
    refine Or.inr ⟨c, members, rfl, hmembers, hforks, ?_, ?_⟩
    · rw [hforks, Ne, eventForks_eq_nil_iff hreg]
      exact hne
    · rw [Radar.oldClaimState, hc]
      rfl

/-- What a path is: no conflict, or one with members. -/
theorem next_cases (claims : List ClaimRecord) (path : Bytes) :
    (path ∉ (nextConflicts (scopeRows r.dirty)).keys ∧ r.nextForks path = [] ∧
      r.nextClaimState claims path = .unclaimed) ∨
    (path ∈ (nextConflicts (scopeRows r.dirty)).keys ∧
      r.nextForks path = eventForks r.universes (Furrow.nextMembers (scopeRows r.dirty) path) ∧
        r.nextForks path ≠ [] ∧
          (r.nextConflict claims path).claimState = r.nextClaimState claims path) := by
  by_cases hkey : path ∈ (nextConflicts (scopeRows r.dirty)).keys
  · have hforks : r.nextForks path =
        eventForks r.universes (Furrow.nextMembers (scopeRows r.dirty) path) := by
      rw [Radar.nextForks, if_pos hkey]
    have hne : r.nextForks path ≠ [] := by
      rw [hforks, Ne, eventForks_eq_nil_iff fun f hf => h.nextMembers hf]
      exact nextMembers_ne_nil hkey
    exact Or.inr ⟨hkey, hforks, hne, by rw [Radar.nextConflict, if_neg hne]⟩
  · have hforks : r.nextForks path = [] := by
      rw [Radar.nextForks, if_neg hkey]
      rfl
    exact Or.inl ⟨hkey, hforks, by rw [Radar.nextClaimState, if_pos hforks]⟩

/-- **A change leads from the conflict there was to the one there is.** -/
theorem effect_conflictChange (hash : Bytes → Bytes) (family : Bytes) (claims : List ClaimRecord)
    (path : Bytes) :
    ConflictChange.effect (r.conflicts.get? path) (conflictChange r claims path) =
      (reconcileConflicts hash family claims r).conflicts.get? path := by
  rw [get?_conflicts, get?_conflicts, get?_activeConflicts, get?_activeMembers]
  have hnextIds : (eventForks r.universes (Furrow.nextMembers (scopeRows r.dirty) path)).map
      EventFork.forkId = Furrow.nextMembers (scopeRows r.dirty) path :=
    forkIds_eventForks fun f hf => h.nextMembers hf
  rcases h.old_cases path with ⟨hc, hof, hoc⟩ | ⟨c, members, hc, hm, hof, hone, hoc⟩ <;>
    rcases h.next_cases claims path with ⟨hkey, hnf, hnc⟩ | ⟨hkey, hnf, hnne, hclaim⟩
  · rw [conflictChange_eq_none ⟨by rw [hnf, hof], by rw [hnc, hoc]⟩, hc, if_neg hkey, if_neg hkey]
    rfl
  · have hchanged : forkSignature (r.nextForks path) ≠ forkSignature (r.oldForks path) := by
      intro hsig
      have hnil : Furrow.nextMembers (scopeRows r.dirty) path = [] :=
        eq_of_forkSignature_eq h.ids (fun f hf => h.nextMembers hf) (by simp)
          (by rw [← hnf, hsig, hof]; rfl)
      exact nextMembers_ne_nil hkey hnil
    rw [conflictChange_opened hchanged hof hnne, if_pos hkey, if_pos hkey]
    simp only [ConflictChange.effect, Option.map_some, Option.getD_some, hclaim, hnf, hnextIds]
  · have hchanged : forkSignature (r.nextForks path) ≠ forkSignature (r.oldForks path) := by
      intro hsig
      have hnil : members = [] :=
        eq_of_forkSignature_eq h.ids (h.members path members hm).2 (by simp)
          (by rw [← hof, ← hsig, hnf]; rfl)
      exact (h.members path members hm).1 hnil
    rw [conflictChange_resolved hchanged hone hnf, if_neg hkey, if_neg hkey]
    rfl
  · by_cases hsame : forkSignature (r.nextForks path) = forkSignature (r.oldForks path) ∧
        r.nextClaimState claims path = r.oldClaimState path
    · have hmembers := eq_of_forkSignature_eq h.ids (fun f hf => h.nextMembers hf)
        (h.members path members hm).2 (by rw [← hof, ← hnf]; exact hsame.1)
      rw [conflictChange_eq_none hsame, hc, hm, if_pos hkey, if_pos hkey]
      simp only [ConflictChange.effect, Option.map_some, Option.getD_some, hclaim, hsame.2, hoc,
        hmembers]
    · rw [conflictChange_updated hsame hone hnne, if_pos hkey, if_pos hkey]
      simp only [ConflictChange.effect, Option.map_some, Option.getD_some, hclaim, hnf, hnextIds]

end Radar.Registered

end Change

/-! ## A reconciliation -/

/-- The events are numbered from one on, without a gap. -/
def EventLog.Gapless (log : EventLog) : Prop :=
  log.rows.map RadarEvent.sequence = List.range' 1 log.lastSequence

section Reconcile

variable {hash : Bytes → Bytes} {family : Bytes}

/-- The event of a change. -/
def eventOf (hash : Bytes → Bytes) (family path : Bytes) (sequence : ℕ) (change : ConflictChange) :
    RadarEvent :=
  ⟨sequence, eventId hash family path change, change.state, conflictId hash family path, path,
    change.forks, change.claimState⟩

/-- A new event is the last row. -/
theorem rows_insertEvent {path : Bytes} {change : ConflictChange} {log : EventLog}
    (h : ∀ e ∈ log.rows, e.eventId ≠ eventId hash family path change) :
    (insertEvent hash family path change log).rows =
      log.rows ++ [eventOf hash family path (log.lastSequence + 1) change] := by
  have hany : (log.rows.any fun e => e.eventId = eventId hash family path change) = false := by
    rw [List.any_eq_false]
    intro e he
    simpa using h e he
  unfold insertEvent
  rw [hany]
  rfl

/-- A new event leaves no gap. -/
theorem EventLog.Gapless.insertEvent {path : Bytes} {change : ConflictChange} {log : EventLog}
    (hlog : log.Gapless) (h : ∀ e ∈ log.rows, e.eventId ≠ eventId hash family path change) :
    (insertEvent hash family path change log).Gapless := by
  unfold EventLog.Gapless at hlog ⊢
  rw [rows_insertEvent h, List.map_append, hlog]
  show _ = List.range' 1 (log.lastSequence + 1)
  rw [List.range'_concat]
  simp [eventOf, Nat.add_comm]

/-- One event more, replayed. -/
theorem get?_replay_append (rows : List RadarEvent) (path : Bytes) (sequence : ℕ)
    (change : ConflictChange) (k : Bytes) :
    (replay (rows ++ [eventOf hash family path sequence change])).get? k =
      if k = path then ConflictChange.effect ((replay rows).get? k) (some change)
      else (replay rows).get? k := by
  have happend : replay (rows ++ [eventOf hash family path sequence change]) =
      replayEvent (replay rows) (eventOf hash family path sequence change) := by
    unfold replay
    rw [List.foldl_append, List.foldl_cons, List.foldl_nil]
  rw [happend]
  cases hstate : change.state with
  | opened =>
    simp only [replayEvent, eventOf, ConflictChange.effect, hstate]
    rw [OrdMap.get?_insert]
    split_ifs <;> rfl
  | updated =>
    simp only [replayEvent, eventOf, ConflictChange.effect, hstate]
    rw [OrdMap.get?_insert]
    split_ifs <;> rfl
  | resolved =>
    simp only [replayEvent, eventOf, ConflictChange.effect, hstate]
    rw [OrdMap.get?_erase]
    split_ifs <;> rfl

/-- What the loop over the paths does to the stream, if no change is left out. -/
theorem foldl_reconcilePath {r : Radar} {claims : List ClaimRecord} {paths : List Bytes}
    (hnodup : paths.Nodup) {log : EventLog} (hlog : log.Gapless)
    (habsent : ∀ path ∈ paths, ∀ change, conflictChange r claims path = some change →
      ∀ e ∈ log.rows, e.eventId ≠ eventId hash family path change)
    (hdistinct : ∀ path ∈ paths, ∀ path' ∈ paths, ∀ change change',
      conflictChange r claims path = some change → conflictChange r claims path' = some change' →
        eventId hash family path change = eventId hash family path' change' → path = path') :
    (paths.foldl (reconcilePath hash family r claims) log).Gapless ∧
      ∀ k, (replay (paths.foldl (reconcilePath hash family r claims) log).rows).get? k =
        if k ∈ paths then ConflictChange.effect ((replay log.rows).get? k)
          (conflictChange r claims k)
        else (replay log.rows).get? k := by
  induction paths generalizing log with
  | nil => exact ⟨hlog, fun k => by simp⟩
  | cons path rest ih =>
    obtain ⟨hpath, hrest⟩ := List.nodup_cons.mp hnodup
    have hdistinct' := fun p hp p' hp' => hdistinct p (List.mem_cons_of_mem path hp) p'
      (List.mem_cons_of_mem path hp')
    rw [List.foldl_cons]
    cases hchange : conflictChange r claims path with
    | none =>
      have hstep : reconcilePath hash family r claims log path = log := by
        rw [reconcilePath, hchange]
      rw [hstep]
      obtain ⟨hgapless, hget⟩ := ih hrest hlog
        (fun p hp => habsent p (List.mem_cons_of_mem _ hp)) hdistinct'
      refine ⟨hgapless, fun k => ?_⟩
      rw [hget k]
      by_cases hk : k = path
      · subst hk
        simp [hpath, hchange, ConflictChange.effect]
      · simp [hk]
    | some change =>
      have hstep : reconcilePath hash family r claims log path =
          insertEvent hash family path change log := by
        rw [reconcilePath, hchange]
      have hnew := habsent path List.mem_cons_self change hchange
      rw [hstep]
      -- the new event is of another path than those that are left
      have habsent' : ∀ p ∈ rest, ∀ c, conflictChange r claims p = some c →
          ∀ e ∈ (insertEvent hash family path change log).rows,
            e.eventId ≠ eventId hash family p c := by
        intro p hp c hc e he
        rw [rows_insertEvent hnew, List.mem_append, List.mem_singleton] at he
        rcases he with he | rfl
        · exact habsent p (List.mem_cons_of_mem _ hp) c hc e he
        · intro heq
          have := hdistinct path List.mem_cons_self p (List.mem_cons_of_mem _ hp) change c hchange
            hc heq
          exact hpath (this ▸ hp)
      obtain ⟨hgapless, hget⟩ := ih hrest (hlog.insertEvent hnew) habsent' hdistinct'
      refine ⟨hgapless, fun k => ?_⟩
      rw [hget k, rows_insertEvent hnew, get?_replay_append]
      by_cases hk : k = path
      · subst hk
        simp [hpath, hchange]
      · simp [hk]

/-- The events of one path raise the sequence. -/
theorem lastSequence_reconcilePath (r : Radar) (claims : List ClaimRecord) (log : EventLog)
    (path : Bytes) :
    log.lastSequence ≤ (reconcilePath hash family r claims log path).lastSequence := by
  unfold reconcilePath
  cases conflictChange r claims path with
  | none => exact le_rfl
  | some change => exact Nat.le_succ _

/-- The events of all paths raise the sequence. -/
theorem lastSequence_foldl (r : Radar) (claims : List ClaimRecord) (paths : List Bytes)
    (log : EventLog) :
    log.lastSequence ≤ (paths.foldl (reconcilePath hash family r claims) log).lastSequence := by
  induction paths generalizing log with
  | nil => exact le_rfl
  | cons path rest ih => exact (lastSequence_reconcilePath r claims log path).trans (ih _)

/-- Nothing is dropped as long as there are few events. -/
theorem trim_eq_self {log : EventLog} (hlog : log.Gapless)
    (hlimit : log.lastSequence ≤ eventLimit) : log.trim = log := by
  have hsequence : ∀ e ∈ log.rows, 1 ≤ e.sequence ∧ e.sequence ≤ log.lastSequence := by
    intro e he
    have hmem : e.sequence ∈ List.range' 1 log.lastSequence := by
      rw [← hlog]
      exact List.mem_map_of_mem he
    rw [List.mem_range'_1] at hmem
    omega
  have hrows : log.rows.filter (fun e =>
      ((log.rows.map RadarEvent.sequence).max?.elim 0 fun m : ℕ => (m : ℤ) - eventLimit) <
        e.sequence) = log.rows := by
    rw [List.filter_eq_self]
    intro e he
    obtain ⟨hpos, -⟩ := hsequence e he
    rw [decide_eq_true_eq]
    cases hmax : (log.rows.map RadarEvent.sequence).max? with
    | none =>
      show (0 : ℤ) < e.sequence
      omega
    | some m =>
      obtain ⟨e', he', rfl⟩ := List.mem_map.mp (List.max?_mem hmax)
      have hle := (hsequence e' he').2
      show (e'.sequence : ℤ) - eventLimit < e.sequence
      omega
  unfold EventLog.trim
  rw [hrows]

/-- **The stream tells of the active conflicts**, as long as nothing was dropped. -/
def Radar.Replayable (r : Radar) : Prop := replay r.log.rows = r.conflicts

/-- The invariant of a run. -/
structure Radar.Told (r : Radar) : Prop where
  registered : r.Registered
  told : r.log.lastSequence ≤ eventLimit → r.log.Gapless ∧ r.Replayable

/-- The forks of a reconciliation are those of the dirty scopes. -/
theorem registered_reconcile {r : Radar} (h : r.Registered) (claims : List ClaimRecord) :
    (reconcileConflicts hash family claims r).Registered where
  ids := h.ids
  dirty := h.dirty
  members := by
    intro path members hmembers
    rw [get?_activeMembers] at hmembers
    split_ifs at hmembers with hkey
    rw [← Option.some.inj hmembers]
    exact ⟨nextMembers_ne_nil hkey, fun fork hfork => h.nextMembers hfork⟩
  paths := by
    intro path
    rw [get?_activeMembers, get?_activeConflicts]
    split_ifs <;> simp

/-- The paths that are reconciled are those of conflicts, old and new. -/
theorem mem_conflictPaths_iff {r : Radar} {path : Bytes} :
    path ∈ r.conflictPaths ↔ path ∈ (nextConflicts (scopeRows r.dirty)).keys ∨
      path ∈ r.activeConflicts.keys := by
  unfold Radar.conflictPaths
  rw [OrdMap.mem_keys_foldInsert_unit, ← OrdMap.mem_keys_iff]

/-- **A reconciliation that finds only new changes keeps the stream replayable.** -/
theorem told_reconcile {r : Radar} (h : r.Told) {claims : List ClaimRecord}
    (hnew : NewEvents hash family claims r) : (reconcileConflicts hash family claims r).Told := by
  refine ⟨registered_reconcile h.registered claims, fun hlimit => ?_⟩
  have hlast : r.log.lastSequence ≤ eventLimit :=
    (lastSequence_foldl r claims r.conflictPaths r.log).trans hlimit
  obtain ⟨hgapless, htold⟩ := h.told hlast
  have hnodup : r.conflictPaths.Nodup :=
    (OrdMap.keys_sorted _).imp fun hlt => ne_of_lt hlt
  obtain ⟨hgapless', hget⟩ := foldl_reconcilePath hnodup hgapless hnew.absent hnew.distinct
  have htrim := trim_eq_self hgapless' hlimit
  have hlog : (reconcileConflicts hash family claims r).log =
      r.conflictPaths.foldl (reconcilePath hash family r claims) r.log := htrim
  refine ⟨by rw [hlog]; exact hgapless', ?_⟩
  unfold Radar.Replayable
  rw [hlog]
  apply OrdMap.ext_get?
  intro k
  rw [hget k, htold]
  split_ifs with hk
  · exact h.registered.effect_conflictChange hash family claims k
  · -- a path that is no conflict before or after
    rw [mem_conflictPaths_iff, not_or] at hk
    have hnone : r.activeConflicts.get? k = none := by
      rw [← Option.not_isSome_iff_eq_none, ← OrdMap.mem_keys_iff]
      exact hk.2
    rw [get?_conflicts, get?_conflicts, get?_activeConflicts, if_neg hk.1, hnone]
    rfl

end Reconcile

/-! ## Observations -/

/-- The scopes are those there were and some of one fork. -/
def DirtyScopes.Only (fork : Bytes) (before after : DirtyScopes) : Prop :=
  ∀ key ∈ after.keys, (ofLex key).1 = fork ∨ key ∈ before.keys

namespace DirtyScopes.Only

variable {fork : Bytes} {before after : DirtyScopes}

/-- What is filtered are rows of the fork. -/
theorem filter (h : Only fork before after) (p : ScopeKey → ScopeAction → Bool) :
    Only fork before (OrdMap.filter after p) := by
  intro key hkey
  apply h key
  rw [OrdMap.mem_keys_iff] at hkey ⊢
  rw [OrdMap.get?_filter] at hkey
  obtain ⟨action, haction⟩ := Option.isSome_iff_exists.mp hkey
  rw [(Option.filter_eq_some_iff.mp haction).1]
  rfl

/-- What is inserted is a row of the fork. -/
theorem insertScope (h : Only fork before after) (path : Bytes) (scope : Scope)
    (action : ScopeAction) : Only fork before (insertScope fork path scope action after) := by
  intro key hkey
  unfold Furrow.insertScope at hkey
  rw [OrdMap.mem_keys_iff, OrdMap.get?_insert] at hkey
  split_ifs at hkey with heq
  · exact Or.inl (by rw [heq]; rfl)
  · exact h key ((OrdMap.mem_keys_iff _).mpr hkey)

/-- What is inserted under a condition is a row of the fork. -/
theorem insertIf (h : Only fork before after) (condition : Bool) (path : Bytes) (scope : Scope)
    (action : ScopeAction) :
    Only fork before (insertIf condition fork path scope action after) := by
  unfold Furrow.insertIf
  split_ifs
  · exact h.insertScope path scope action
  · exact h

end DirtyScopes.Only

section Preserve

variable {σ : Type} {P : σ → Prop} {store : ObjectStore}

/-- What each step preserves, the loop preserves. -/
theorem foldlM_preserves {α ε : Type} {f : σ → α → Except ε σ} {l : List α}
    (h : ∀ s a s', f s a = .ok s' → P s → P s') {s s' : σ} (hrun : l.foldlM f s = .ok s')
    (hs : P s) : P s' := by
  induction l generalizing s with
  | nil =>
    rw [List.foldlM_nil] at hrun
    cases hrun
    exact hs
  | cons a rest ih =>
    rw [List.foldlM_cons] at hrun
    obtain ⟨s₁, h₁, hrest⟩ := Fallible.exists_of_bind_eq_ok hrun
    exact ih hrest (h s a s₁ h₁ hs)

/-- What every visit keeps, a walk of a subtree keeps. -/
theorem visitSubtree_preserves {visitor : σ → Bytes → TreeEntry → Except RadarError σ}
    (h : ∀ s path entry s', visitor s path entry = .ok s' → P s → P s') {fuel : ℕ}
    {root : ObjectId} {pfx : Bytes} {s s' : σ}
    (hrun : visitSubtree store visitor fuel root pfx s = .ok s') (hs : P s) : P s' := by
  induction fuel generalizing root pfx s s' with
  | zero => exact absurd hrun (by simp [visitSubtree])
  | succ fuel ih =>
    unfold visitSubtree at hrun
    obtain ⟨entries, -, hfold⟩ := Fallible.exists_of_bind_eq_ok hrun
    refine foldlM_preserves (fun s entry s' hstep hs => ?_) hfold hs
    unfold visitSubtreeEntry at hstep
    obtain ⟨s₁, hvisit, hbelow⟩ := Fallible.exists_of_bind_eq_ok hstep
    have h₁ := h _ _ _ _ hvisit hs
    split_ifs at hbelow with hkind
    · split at hbelow
      · exact absurd hbelow (by simp)
      · exact ih hbelow h₁
    · cases hbelow
      exact h₁

/-- What every visit keeps, a walk of the changes keeps. -/
theorem visitChangedScopes_preserves {visitor : σ → Bytes → Except RadarError σ}
    (h : ∀ s path s', visitor s path = .ok s' → P s → P s') {fuel : ℕ} {before after : ObjectId}
    {pfx : Bytes} {s s' : σ}
    (hrun : visitChangedScopes store visitor fuel before after pfx s = .ok s') (hs : P s) :
    P s' := by
  induction fuel generalizing before after pfx s s' with
  | zero => exact absurd hrun (by simp [visitChangedScopes])
  | succ fuel ih =>
    unfold visitChangedScopes at hrun
    obtain ⟨pairs, -, hfold⟩ := Fallible.exists_of_bind_eq_ok hrun
    refine foldlM_preserves (fun s pair s' hstep hs => ?_) hfold hs
    unfold visitChanged at hstep
    split at hstep
    · exact absurd hstep (by simp)
    · obtain ⟨s₁, hvisit, hbelow⟩ := Fallible.exists_of_bind_eq_ok hstep
      have h₁ := h _ _ _ hvisit hs
      split at hbelow
      · exact ih hbelow h₁
      · cases hbelow
        exact h₁

end Preserve

/-- What is inserted for a path is of its fork. -/
theorem only_insertScopes {store : ObjectStore} {fuel : ℕ} {fork path : Bytes}
    {base head : Option TreeEntry} {before dirty dirty' : DirtyScopes}
    (hrun : insertScopes store fuel fork path base head dirty = .ok dirty')
    (h : DirtyScopes.Only fork before dirty) : DirtyScopes.Only fork before dirty' := by
  unfold insertScopes at hrun
  split at hrun
  · split_ifs at hrun <;> cases hrun
    · exact h.insertIf _ _ _ _
    · exact h.insertIf _ _ _ _
    · exact h
    · exact h.insertIf _ _ _ _
  · cases hrun
    exact h.insertIf _ _ _ _
  · split_ifs at hrun
    · unfold insertAddedSubtree at hrun
      split at hrun
      · exact absurd hrun (by simp)
      · obtain ⟨s, hvisit, hrun⟩ := Fallible.exists_of_bind_eq_ok hrun
        have hs : DirtyScopes.Only fork before s.1 := by
          refine visitSubtree_preserves (P := fun s => DirtyScopes.Only fork before s.1)
            (fun s path entry s' hstep hs => ?_) hvisit h
          unfold addLeaf at hstep
          split_ifs at hstep <;> cases hstep
          · exact hs.insertScope _ _ _
          · exact hs
        split_ifs at hrun <;> cases hrun
        · exact hs.insertScope _ _ _
        · exact hs
    · cases hrun
      exact h.insertIf _ _ _ _
  · cases hrun
    exact h

/-- A path gets scopes of its fork only. -/
theorem only_recomputeScope {store : ObjectStore} {fuel : ℕ} {fork : Bytes}
    {baseRoot headRoot : ObjectId} {before dirty dirty' : DirtyScopes} {path : Bytes}
    (hrun : recomputeScope store fuel fork baseRoot headRoot dirty path = .ok dirty')
    (h : DirtyScopes.Only fork before dirty) : DirtyScopes.Only fork before dirty' := by
  unfold recomputeScope at hrun
  split_ifs at hrun with hignored
  · cases hrun
    exact h.filter _
  · obtain ⟨base, -, hrun⟩ := Fallible.exists_of_bind_eq_ok hrun
    obtain ⟨head, -, hrun⟩ := Fallible.exists_of_bind_eq_ok hrun
    exact only_insertScopes hrun (h.filter _)

/-- **An observation adds a universe and changes the scopes of its fork.** -/
theorem observe_cases {store : ObjectStore} {fuel : ℕ} {registration : UniverseRegistration}
    {s s' : Observed} {changed : Bool} (h : observe store fuel registration s = .ok (changed, s')) :
    isId registration.forkId = true ∧
      s'.universes = s.universes.insert registration.forkId ⟨registration.name,
        registration.workspaceId, registration.baseSnapshot, registration.headSnapshot⟩ ∧
          DirtyScopes.Only registration.forkId s.dirty s'.dirty := by
  have hself : DirtyScopes.Only registration.forkId s.dirty s.dirty := fun key hkey => Or.inr hkey
  unfold observe at h
  simp only at h
  split_ifs at h with hid hsame htaken htaken
  · cases h
    exact ⟨by simpa using hid, rfl, hself⟩
  · obtain ⟨base, -, h⟩ := Fallible.exists_of_bind_eq_ok h
    obtain ⟨head, -, h⟩ := Fallible.exists_of_bind_eq_ok h
    obtain ⟨previous, -, h⟩ := Fallible.exists_of_bind_eq_ok h
    exact absurd h (by simp)
  · obtain ⟨base, -, h⟩ := Fallible.exists_of_bind_eq_ok h
    obtain ⟨head, -, h⟩ := Fallible.exists_of_bind_eq_ok h
    obtain ⟨previous, -, h⟩ := Fallible.exists_of_bind_eq_ok h
    obtain ⟨dirty, hupdate, h⟩ := Fallible.exists_of_bind_eq_ok h
    cases h
    refine ⟨by simpa using hid, rfl, ?_⟩
    refine visitChangedScopes_preserves (fun d path d' hstep hd => only_recomputeScope hstep hd)
      hupdate ?_
    split_ifs
    · exact hself.filter _
    · exact hself

/-! ## Runs -/

section Run

variable {hash : Bytes → Bytes} {family : Bytes} {r : Radar}

/-- Observing a fork keeps all rows registered. -/
theorem registered_observe (h : r.Registered) {store : ObjectStore} {fuel : ℕ}
    {registration : UniverseRegistration} {changed : Bool} {observed : Observed}
    (hrun : observe store fuel registration r.toObserved = .ok (changed, observed)) :
    ({ r with toObserved := observed } : Radar).Registered := by
  obtain ⟨hid, huniverses, honly⟩ := observe_cases hrun
  have hkept : ∀ fork, (r.universes.get? fork).isSome → (observed.universes.get? fork).isSome := by
    intro fork hfork
    rw [huniverses, OrdMap.get?_insert]
    split_ifs
    · rfl
    · exact hfork
  refine ⟨?_, ?_, ?_, h.paths⟩
  · intro fork hfork
    have hfork' : (observed.universes.get? fork).isSome := hfork
    rw [huniverses, OrdMap.get?_insert] at hfork'
    split_ifs at hfork' with heq
    · rw [heq]
      unfold isId at hid
      rw [Bool.and_eq_true, decide_eq_true_eq] at hid
      exact hid.1
    · exact h.ids fork hfork'
  · intro key hkey
    rcases honly key hkey with heq | hold
    · show (observed.universes.get? (ofLex key).1).isSome
      rw [huniverses, OrdMap.get?_insert, if_pos heq]
      rfl
    · exact hkept _ (h.dirty key hold)
  · intro path members hmembers
    obtain ⟨hne, hreg⟩ := h.members path members hmembers
    exact ⟨hne, fun fork hfork => hkept fork (hreg fork hfork)⟩

/-- The rows that are kept are of forks that are. -/
theorem mem_keys_keepScopes {kept : List Bytes} {key : ScopeKey}
    (h : key ∈ (r.keepScopes kept).dirty.keys) : key ∈ r.dirty.keys ∧ (ofLex key).1 ∈ kept := by
  rw [OrdMap.mem_keys_iff] at h
  obtain ⟨action, haction⟩ := Option.isSome_iff_exists.mp h
  unfold Radar.keepScopes at haction
  rw [OrdMap.get?_filter, Option.filter_eq_some_iff, decide_eq_true_eq] at haction
  exact ⟨(OrdMap.mem_keys_iff _).mpr (by rw [haction.1]; rfl), haction.2⟩

/-- Forgetting forks keeps the log true. -/
theorem told_keepScopes (h : r.Told) (kept : List Bytes) : (r.keepScopes kept).Told where
  registered :=
    { ids := h.registered.ids
      dirty := fun key hkey => h.registered.dirty key (mem_keys_keepScopes hkey).1
      members := h.registered.members
      paths := h.registered.paths }
  told := h.told

/-- The universes that go are of forks that are in no conflict any more. -/
theorem told_retain (h : r.Told) {claims : List ClaimRecord} {kept : List Bytes}
    (hnew : NewEvents hash family claims (r.keepScopes kept)) :
    ((reconcileConflicts hash family claims (r.keepScopes kept)).keepUniverses kept).Told := by
  have hscopes := told_keepScopes h kept
  have htold := told_reconcile hscopes hnew
  have hget : ∀ fork, (r.universes.get? fork).isSome → fork ∈ kept →
      ((r.universes.filter fun fork _ => fork ∈ kept).get? fork).isSome := by
    intro fork hfork hkept
    obtain ⟨u, hu⟩ := Option.isSome_iff_exists.mp hfork
    rw [OrdMap.get?_filter, hu]
    simp [hkept]
  refine ⟨⟨?_, ?_, ?_, htold.registered.paths⟩, htold.told⟩
  · intro fork hfork
    have hfork' : ((r.universes.filter fun fork _ => fork ∈ kept).get? fork).isSome := hfork
    rw [OrdMap.get?_filter] at hfork'
    obtain ⟨u, hu⟩ := Option.isSome_iff_exists.mp hfork'
    exact h.registered.ids fork (by rw [(Option.filter_eq_some_iff.mp hu).1]; rfl)
  · intro key hkey
    obtain ⟨hold, hkept⟩ := mem_keys_keepScopes hkey
    exact hget _ (h.registered.dirty key hold) hkept
  · intro path members hmembers
    obtain ⟨hne, hreg⟩ := htold.registered.members path members hmembers
    refine ⟨hne, fun fork hfork => hget fork (hreg fork hfork) ?_⟩
    have hmembers' : (reconcileConflicts hash family claims (r.keepScopes kept)).activeMembers.get?
        path = some members := hmembers
    rw [get?_activeMembers] at hmembers'
    split_ifs at hmembers' with hkey
    rw [← Option.some.inj hmembers'] at hfork
    obtain ⟨key, hkey, rfl⟩ := mem_keys_of_mem_nextMembers hfork
    exact (mem_keys_keepScopes hkey).2

/-- **One step.** -/
theorem told_step (h : r.Told) {a : RadarStep} (hfresh : a.Fresh hash family r) :
    (r.step hash family a).Told := by
  cases a with
  | observe store fuel registration =>
    cases hrun : observe store fuel registration r.toObserved with
    | error e =>
      simp only [Radar.step, hrun]
      exact h
    | ok result =>
      simp only [Radar.step, hrun]
      exact ⟨registered_observe h.registered hrun, h.told⟩
  | reconcile claims => exact told_reconcile h hfresh
  | retainUniverses forkIds claims =>
    cases hkept : radarKeep [] forkIds with
    | error e =>
      have hrun : Furrow.retainUniverses hash family forkIds claims r = .error e := by
        unfold Furrow.retainUniverses
        rw [hkept]
        rfl
      simp only [Radar.step, hrun]
      exact h
    | ok kept =>
      have hrun : Furrow.retainUniverses hash family forkIds claims r =
          .ok ((reconcileConflicts hash family claims (r.keepScopes kept)).keepUniverses kept) := by
        unfold Furrow.retainUniverses
        rw [hkept]
        rfl
      simp only [Radar.step, hrun]
      exact told_retain h (hfresh kept hkept)

end Run

/-- The log is true at the start. -/
theorem told_start : Radar.start.Told where
  registered := registered_start
  told := fun _ => ⟨rfl, rfl⟩

/-- **A stream that no change was left out of is replayable**, in every state of every run, as long
as no event had to be dropped. -/
theorem replay_eq_conflicts (hash : Bytes → Bytes) (family : Bytes) (steps : List RadarStep)
    (hfresh : Run.Along (Radar.step hash family) (fun r a => a.Fresh hash family r) .start steps) :
    Run.Throughout (Radar.step hash family)
      (fun r => r.log.lastSequence ≤ eventLimit → r.Replayable) .start steps := by
  have htold : Run.Throughout (Radar.step hash family) Radar.Told .start steps :=
    hfresh.throughout (fun r a h hf => told_step h hf) told_start
  exact htold.mono fun r h hlimit => (h.told hlimit).2

/-! ### A sample -/

/-- A source file with some content. -/
def sampleSource (content : Byte) : TreeEntry :=
  ⟨text "a.rs", .File, some (.fill content), [], 0o644, 1, 0, 0, none, .Source⟩

/-- A snapshot of a tree. -/
def sampleSealed (root : ObjectId) : Object := .snapshot ⟨root, none, [], 0, [], [], []⟩

/-- An empty base and two heads with a file of the same name. -/
def sampleHeads : ObjectStore := fun id =>
  if id = .fill 1 then some (.tree ⟨[], []⟩)
  else if id = .fill 2 then some (.tree ⟨[sampleSource 21], []⟩)
  else if id = .fill 3 then some (.tree ⟨[sampleSource 22], []⟩)
  else if id = .fill 11 then some (sampleSealed (.fill 1))
  else if id = .fill 12 then some (sampleSealed (.fill 2))
  else if id = .fill 13 then some (sampleSealed (.fill 3))
  else none

/-- A claim on the file. -/
def sampleCovering : ClaimRecord :=
  ⟨text "1", text "a.rs", text "alpha", sampleFork 49, 0, 3600⟩

/-- Both forks are observed, and the conflict is reconciled. -/
def sampleOpened : List RadarStep :=
  [.observe sampleHeads 9 ⟨sampleFork 49, text "one", sampleFork 49, .fill 11, .fill 12⟩,
    .observe sampleHeads 9 ⟨sampleFork 50, text "two", sampleFork 50, .fill 11, .fill 13⟩,
    .reconcile []]

/-- A single path in conflict, whose change is not logged yet, makes its events new. -/
private theorem newEvents_of_single {hash : Bytes → Bytes} {family : Bytes}
    {claims : List ClaimRecord} {r : Radar} (path : Bytes) (change : ConflictChange)
    (hpaths : r.conflictPaths = [path]) (hchange : conflictChange r claims path = some change)
    (habsent : ∀ e ∈ r.log.rows, e.eventId ≠ eventId hash family path change) :
    NewEvents hash family claims r := by
  constructor
  · intro p hp c hc
    rw [hpaths, List.mem_singleton] at hp
    subst hp
    rw [← Option.some.inj (hchange.symm.trans hc)]
    exact habsent
  · intro p hp p' hp' c c' _ _ _
    rw [hpaths, List.mem_singleton] at hp hp'
    rw [hp, hp']

/-- The members of the conflict. -/
def sampleMembers : List EventFork :=
  [⟨sampleFork 49, text "one", hexEncode (ObjectId.fill 12).bytes⟩,
    ⟨sampleFork 50, text "two", hexEncode (ObjectId.fill 13).bytes⟩]

/-- A conflict that is opened and then claimed. -/
theorem replay_eq_conflicts_sample :
    Run.Throughout (Radar.step id []) (fun r => r.log.lastSequence ≤ eventLimit → r.Replayable)
      .start (sampleOpened ++ [.reconcile [sampleCovering]]) := by
  apply replay_eq_conflicts
  refine ⟨trivial, trivial, ?_, ?_, trivial⟩
  · exact newEvents_of_single (text "a.rs") ⟨.opened, sampleMembers, .unclaimed⟩ (by decide)
      (by decide) (by decide)
  · exact newEvents_of_single (text "a.rs") ⟨.updated, sampleMembers, .covered⟩ (by decide)
      (by decide +kernel) (by decide +kernel)

/-- The claim is released and made again. -/
def sampleToggled : List RadarStep :=
  sampleOpened ++ [.reconcile [sampleCovering], .reconcile [], .reconcile [sampleCovering]]

/-- **The stream says that the file is unclaimed while it is covered**: the last change has the
identifier of an event that the stream has already. -/
theorem replay_eq_conflicts_fails : ¬ ∀ (hash : Bytes → Bytes) (family : Bytes)
    (steps : List RadarStep), Run.Throughout (Radar.step hash family)
      (fun r => r.log.lastSequence ≤ eventLimit → r.Replayable) .start steps := by
  intro h
  have hlast := (h id [] sampleToggled).last (by decide +kernel)
  have hreplay : (replay (sampleToggled.foldl (Radar.step id []) .start).log.rows).get?
      (text "a.rs") = some ([sampleFork 49, sampleFork 50], .unclaimed) := by
    decide +kernel
  have hactive : (sampleToggled.foldl (Radar.step id []) .start).conflicts.get? (text "a.rs") =
      some ([sampleFork 49, sampleFork 50], .covered) := by
    decide
  unfold Radar.Replayable at hlast
  rw [hlast, hactive] at hreplay
  exact absurd hreplay (by decide)

end Furrow
