import Mathlib
import Furrow.Claims.Registry
import Furrow.Radar.Scopes

set_option relaxedAutoImplicit false
set_option autoImplicit false

/-!
# Conflicts between forks

`reconcile_conflicts` of `radar.rs`.  Every pair of overlapping scopes of two forks is grouped
under a path; a path with another one above it is dropped; the members of a path are the forks of
the pairs that were grouped there.  What has changed since the last reconciliation is written to
the table of events.

## Main definitions

* `Furrow.ScopeRow.overlaps`, `Furrow.pairPath` — the pairs, and where they are grouped.
* `Furrow.nextConflicts`, `Furrow.nextMembers` — the conflicts with their members.
* `Furrow.Radar` — the tables.
* `Furrow.conflictChange` — what has changed at a path.
* `Furrow.reconcileConflicts` — a reconciliation.

## Main results

* `Furrow.conflicts_complete_iff` — when no conflict is lost.

## Implementation notes

`hash` stands for the first sixteen bytes of a BLAKE3 digest, in hexadecimal.
-/

namespace Furrow

/-- A row of the table of dirty scopes. -/
structure ScopeRow where
  fork : Bytes
  path : Bytes
  scope : Scope
deriving DecidableEq

/-- The rows of the table. -/
def scopeRows (dirty : DirtyScopes) : List ScopeRow :=
  dirty.keys.map fun key => ⟨(ofLex key).1, (ofLex (ofLex key).2).1, (ofLex (ofLex key).2).2⟩

/-- A path is another one or below it. -/
def coveredBy (dir path : Bytes) : Bool := path = dir || liesBelow dir path

/-- Two scopes overlap: the same path, or one path in the subtree of the other. -/
def ScopeRow.overlaps (d₁ d₂ : ScopeRow) : Bool :=
  (d₁.scope = .exact && d₂.scope = .exact && d₁.path = d₂.path) ||
    (d₁.scope = .subtree && coveredBy d₁.path d₂.path) ||
    (d₂.scope = .subtree && coveredBy d₂.path d₁.path)

/-- The path that two overlapping scopes are grouped under. -/
def pairPath (d₁ d₂ : ScopeRow) : Bytes :=
  if d₁.scope = .subtree ∧ d₂.scope = .subtree ∧ d₁.path.length ≤ d₂.path.length then d₁.path
  else if d₁.scope = .subtree then d₁.path
  else if d₂.scope = .subtree then d₂.path
  else d₁.path

/-- A row of the table `radar_pairs`. -/
structure RadarPair where
  path : Bytes
  left : Bytes
  right : Bytes
deriving DecidableEq

/-- The pairs of overlapping scopes of two forks, the smaller fork on the left. -/
def radarPairs (rows : List ScopeRow) : List RadarPair :=
  rows.flatMap fun d₁ => (rows.filter fun d₂ => d₁.fork < d₂.fork && d₁.overlaps d₂).map fun d₂ =>
    ⟨pairPath d₁ d₂, d₁.fork, d₂.fork⟩

/-- The paths that pairs are grouped under. -/
def pairPaths (rows : List ScopeRow) : List Bytes := (radarPairs rows).map RadarPair.path

/-- Whether a path has another one above it. -/
def hasParent (paths : List Bytes) (child : Bytes) : Bool :=
  paths.any fun parent => parent.length < child.length && liesBelow parent child

/-- The table `radar_next`: the paths that have none above them, in order. -/
def nextConflicts (rows : List ScopeRow) : OrdMap Bytes Unit :=
  (OrdMap.empty : OrdMap Bytes Unit).foldInsert
    (((pairPaths rows).filter fun path => !hasParent (pairPaths rows) path).map fun p => (p, ()))

/-- The table `radar_next_members`: the forks of the pairs that are grouped under a path, in
order. -/
def nextMembers (rows : List ScopeRow) (path : Bytes) : List Bytes :=
  ((OrdMap.empty : OrdMap Bytes Unit).foldInsert
    (((radarPairs rows).filter fun pair => pair.path = path).flatMap fun pair =>
      [(pair.left, ()), (pair.right, ())])).keys

/-! ## Reconciliation -/

/-- Who claims the path of a conflict. -/
inductive ClaimState
  | unclaimed
  | covered
  | contested
deriving DecidableEq

/-- How a claim state is stored. -/
def ClaimState.text : ClaimState → Bytes
  | unclaimed => Furrow.text "unclaimed"
  | covered => Furrow.text "covered"
  | contested => Furrow.text "contested"

/-- The claims on a path, by the number of workspaces that hold them. -/
def claimState (path : Bytes) (claims : List ClaimRecord) : ClaimState :=
  match ((claims.filter fun c => matchesPath c.pattern path).map ClaimRecord.workspaceId).dedup
      |>.length with
  | 0 => .unclaimed
  | 1 => .covered
  | _ => .contested

/-- What an event says of a conflict. -/
inductive EventState
  | opened
  | updated
  | resolved
deriving DecidableEq

/-- How the state of an event is stored. -/
def EventState.text : EventState → Bytes
  | opened => Furrow.text "opened"
  | updated => Furrow.text "updated"
  | resolved => Furrow.text "resolved"

/-- A member of a conflict, as an event names it. -/
structure EventFork where
  forkId : Bytes
  name : Bytes
  headSnapshot : Bytes
deriving DecidableEq

/-- A row of the table `events`. -/
structure RadarEvent where
  sequence : ℕ
  eventId : Bytes
  state : EventState
  conflictId : Bytes
  path : Bytes
  forks : List EventFork
  claimState : ClaimState
deriving DecidableEq

/-- The table `events`, in order, with the last number that was given out. -/
structure EventLog where
  rows : List RadarEvent
  lastSequence : ℕ

/-- A row of the table `active_conflicts`. -/
structure ActiveConflict where
  signature : Bytes
  claimState : ClaimState
deriving DecidableEq

/-- The tables of a radar.  The active members are kept by path, in order. -/
structure Radar extends Observed where
  activeConflicts : OrdMap Bytes ActiveConflict
  activeMembers : OrdMap Bytes (List Bytes)
  log : EventLog

/-- The members of a conflict, with what the universes say of them now. -/
def eventForks (universes : OrdMap Bytes Universe) (members : List Bytes) : List EventFork :=
  members.filterMap fun fork =>
    (universes.get? fork).map fun u => ⟨fork, u.name, hexEncode u.head.bytes⟩

/-- A member in the signature of a conflict. -/
def EventFork.signature (fork : EventFork) : Bytes := fork.forkId ++ [64] ++ fork.headSnapshot

/-- The forks of an event, as one text. -/
def forkSignature (forks : List EventFork) : Bytes := [44].intercalate (forks.map (·.signature))

/-- What has changed at a path. -/
structure ConflictChange where
  state : EventState
  forks : List EventFork
  claimState : ClaimState
deriving DecidableEq

/-- The members that a path has now; none if it is no conflict. -/
def Radar.nextForks (r : Radar) (path : Bytes) : List EventFork :=
  eventForks r.universes
    (if path ∈ (nextConflicts (scopeRows r.dirty)).keys then nextMembers (scopeRows r.dirty) path
      else [])

/-- The members that a path had at the last reconciliation. -/
def Radar.oldForks (r : Radar) (path : Bytes) : List EventFork :=
  eventForks r.universes ((r.activeMembers.get? path).getD [])

/-- The claim state that a path has now. -/
def Radar.nextClaimState (r : Radar) (claims : List ClaimRecord) (path : Bytes) : ClaimState :=
  if r.nextForks path = [] then .unclaimed else claimState path claims

/-- The claim state that a path had at the last reconciliation. -/
def Radar.oldClaimState (r : Radar) (path : Bytes) : ClaimState :=
  ((r.activeConflicts.get? path).map ActiveConflict.claimState).getD .unclaimed

/-- **What has changed at a path since the last reconciliation.** -/
def conflictChange (r : Radar) (claims : List ClaimRecord) (path : Bytes) :
    Option ConflictChange :=
  let nextForks := r.nextForks path
  let oldForks := r.oldForks path
  let nextClaimState := r.nextClaimState claims path
  let oldClaimState := r.oldClaimState path
  if forkSignature nextForks = forkSignature oldForks ∧ nextClaimState = oldClaimState then none
  else
    match oldForks.isEmpty, nextForks.isEmpty with
    | true, false => some ⟨.opened, nextForks, nextClaimState⟩
    | false, true => some ⟨.resolved, oldForks, oldClaimState⟩
    | false, false => some ⟨.updated, nextForks, nextClaimState⟩
    | true, true => none

section Digest

variable (hash : Bytes → Bytes) (family : Bytes)

/-- `digest_id` -/
def digestId (domain : Bytes) (parts : List Bytes) : Bytes :=
  hash (domain ++ parts.flatMap fun part => part ++ [0])

/-- The identifier of a conflict: a digest of its path. -/
def conflictId (path : Bytes) : Bytes :=
  digestId hash (text "furrow:radar-conflict:v1" ++ [0]) [family, path]

/-- The identifier of an event: a digest of what it says. -/
def eventId (path : Bytes) (change : ConflictChange) : Bytes :=
  digestId hash (text "furrow:radar-event:v1" ++ [0])
    [conflictId hash family path, change.state.text, forkSignature change.forks,
      change.claimState.text]

/-- Write an event (`insert_event`), unless there is one of its identifier.  The number of an
event that is not written is not given out again. -/
def insertEvent (path : Bytes) (change : ConflictChange) (log : EventLog) : EventLog where
  rows :=
    if log.rows.any fun e => e.eventId = eventId hash family path change then log.rows
    else log.rows ++ [⟨log.lastSequence + 1, eventId hash family path change, change.state,
      conflictId hash family path, path, change.forks, change.claimState⟩]
  lastSequence := log.lastSequence + 1

/-- Write what has changed at a path. -/
def reconcilePath (r : Radar) (claims : List ClaimRecord) (log : EventLog) (path : Bytes) :
    EventLog :=
  match conflictChange r claims path with
  | some change => insertEvent hash family path change log
  | none => log

/-- The number of events that are kept. -/
def eventLimit : ℕ := 10000

/-- Drop the events that are too old. -/
def EventLog.trim (log : EventLog) : EventLog :=
  { log with rows := log.rows.filter fun e =>
      ((log.rows.map RadarEvent.sequence).max?.elim 0 fun m : ℕ => (m : ℤ) - eventLimit) <
        e.sequence }

/-- The paths of the conflicts there are and of those there were, in order. -/
def Radar.conflictPaths (r : Radar) : List Bytes :=
  ((nextConflicts (scopeRows r.dirty)).foldInsert
    (r.activeConflicts.keys.map fun path => (path, ()))).keys

/-- The row of a conflict, after the loop. -/
def Radar.nextConflict (r : Radar) (claims : List ClaimRecord) (path : Bytes) : ActiveConflict :=
  if r.nextForks path = [] then ⟨[], .unclaimed⟩
  else ⟨forkSignature (r.nextForks path), r.nextClaimState claims path⟩

/-- **A reconciliation** (`reconcile_conflicts`). -/
def reconcileConflicts (claims : List ClaimRecord) (r : Radar) : Radar where
  universes := r.universes
  dirty := r.dirty
  activeConflicts := (OrdMap.empty : OrdMap Bytes ActiveConflict).foldInsert
    ((nextConflicts (scopeRows r.dirty)).keys.map fun path => (path, r.nextConflict claims path))
  activeMembers := (OrdMap.empty : OrdMap Bytes (List Bytes)).foldInsert
    ((nextConflicts (scopeRows r.dirty)).keys.map fun path =>
      (path, nextMembers (scopeRows r.dirty) path))
  log := (r.conflictPaths.foldl (reconcilePath hash family r claims) r.log).trim

end Digest

/-! ## The tables -/

/-- The pairs are those of rows of different forks that overlap. -/
theorem mem_radarPairs_iff {rows : List ScopeRow} {pair : RadarPair} :
    pair ∈ radarPairs rows ↔ ∃ d₁ ∈ rows, ∃ d₂ ∈ rows, d₁.fork < d₂.fork ∧
      d₁.overlaps d₂ = true ∧ pair = ⟨pairPath d₁ d₂, d₁.fork, d₂.fork⟩ := by
  unfold radarPairs
  simp only [List.mem_flatMap, List.mem_map, List.mem_filter, Bool.and_eq_true, decide_eq_true_eq]
  constructor
  · rintro ⟨d₁, h₁, d₂, ⟨h₂, hlt, hoverlap⟩, rfl⟩
    exact ⟨d₁, h₁, d₂, h₂, hlt, hoverlap, rfl⟩
  · rintro ⟨d₁, h₁, d₂, h₂, hlt, hoverlap, rfl⟩
    exact ⟨d₁, h₁, d₂, ⟨h₂, hlt, hoverlap⟩, rfl⟩

/-- Conflicts are at the paths of pairs that are below no other. -/
theorem mem_nextConflicts_iff {rows : List ScopeRow} {path : Bytes} :
    path ∈ (nextConflicts rows).keys ↔
      path ∈ pairPaths rows ∧ hasParent (pairPaths rows) path = false := by
  unfold nextConflicts
  rw [OrdMap.mem_keys_foldInsert_unit, List.mem_filter, Bool.not_eq_true']
  simp

/-- The members of a conflict are the forks of its pairs. -/
theorem mem_nextMembers_iff {rows : List ScopeRow} {path fork : Bytes} :
    fork ∈ nextMembers rows path ↔
      ∃ pair ∈ radarPairs rows, pair.path = path ∧ (fork = pair.left ∨ fork = pair.right) := by
  have hmap : (((radarPairs rows).filter fun pair => pair.path = path).flatMap fun pair =>
      [(pair.left, ()), (pair.right, ())]) =
        ((((radarPairs rows).filter fun pair => pair.path = path).flatMap fun pair =>
          [pair.left, pair.right]).map fun f => (f, ())) := by
    rw [List.map_flatMap]
    rfl
  unfold nextMembers
  rw [hmap, OrdMap.mem_keys_foldInsert_unit, List.mem_flatMap]
  simp only [OrdMap.get?_empty, Option.isSome_none, Bool.false_eq_true, false_or,
    List.mem_filter, decide_eq_true_eq, List.mem_cons, List.not_mem_nil, or_false]
  constructor
  · rintro ⟨pair, ⟨hpair, hpath⟩, hfork⟩
    exact ⟨pair, hpair, hpath, hfork⟩
  · rintro ⟨pair, hpair, hpath, hfork⟩
    exact ⟨pair, ⟨hpair, hpath⟩, hfork⟩

/-! ## Paths above a path -/

/-- What lies below a directory has its path and a slash in front. -/
theorem liesBelow_iff {dir path : Bytes} :
    liesBelow dir path = true ↔ ∃ rest, path = dir ++ slash :: rest := by
  unfold liesBelow
  rw [Bool.and_eq_true, decide_eq_true_eq, List.isPrefixOf_iff_prefix]
  constructor
  · rintro ⟨⟨tail, rfl⟩, hslash⟩
    rw [List.getElem?_append_right le_rfl, Nat.sub_self] at hslash
    cases tail with
    | nil => exact absurd hslash (by simp)
    | cons b rest =>
      refine ⟨rest, ?_⟩
      rw [List.getElem?_cons_zero] at hslash
      rw [Option.some.inj hslash]
  · rintro ⟨rest, rfl⟩
    exact ⟨List.prefix_append .., by simp⟩

/-- What is covered is the path or lies below it. -/
theorem coveredBy_iff {dir path : Bytes} :
    coveredBy dir path = true ↔ path = dir ∨ liesBelow dir path = true := by
  unfold coveredBy
  rw [Bool.or_eq_true, decide_eq_true_eq]

/-- A path covers itself. -/
theorem coveredBy_self (path : Bytes) : coveredBy path path = true :=
  coveredBy_iff.mpr (Or.inl rfl)

/-- What lies below is longer. -/
theorem length_lt_of_liesBelow {dir path : Bytes} (h : liesBelow dir path = true) :
    dir.length < path.length := by
  obtain ⟨rest, rfl⟩ := liesBelow_iff.mp h
  rw [List.length_append, List.length_cons]
  omega

/-- What is covered is no shorter. -/
theorem length_le_of_coveredBy {dir path : Bytes} (h : coveredBy dir path = true) :
    dir.length ≤ path.length := by
  rcases coveredBy_iff.mp h with rfl | hbelow
  · exact le_rfl
  · exact (length_lt_of_liesBelow hbelow).le

/-- Lying below is transitive. -/
theorem liesBelow_trans {a b c : Bytes} (hab : liesBelow a b = true) (hbc : liesBelow b c = true) :
    liesBelow a c = true := by
  obtain ⟨r, rfl⟩ := liesBelow_iff.mp hab
  obtain ⟨r', rfl⟩ := liesBelow_iff.mp hbc
  exact liesBelow_iff.mpr ⟨r ++ slash :: r', by simp⟩

/-- Being covered is transitive. -/
theorem coveredBy_trans {a b c : Bytes} (hab : coveredBy a b = true) (hbc : coveredBy b c = true) :
    coveredBy a c = true := by
  rcases coveredBy_iff.mp hab with rfl | hab
  · exact hbc
  · rcases coveredBy_iff.mp hbc with rfl | hbc
    · exact coveredBy_iff.mpr (Or.inr hab)
    · exact coveredBy_iff.mpr (Or.inr (liesBelow_trans hab hbc))

/-- Two paths above the same path are one above the other. -/
theorem coveredBy_total {a b path : Bytes} (ha : coveredBy a path = true)
    (hb : coveredBy b path = true) : coveredBy a b = true ∨ coveredBy b a = true := by
  rcases coveredBy_iff.mp ha with rfl | ha
  · exact Or.inr hb
  · rcases coveredBy_iff.mp hb with rfl | hb
    · exact Or.inl (coveredBy_iff.mpr (Or.inr ha))
    · obtain ⟨r, rfl⟩ := liesBelow_iff.mp ha
      obtain ⟨r', hr'⟩ := liesBelow_iff.mp hb
      -- the slash after the shorter path is in the longer one
      rcases List.append_eq_append_iff.mp hr' with ⟨m, rfl, hm⟩ | ⟨m, rfl, hm⟩
      · cases m with
        | nil => exact Or.inl (by rw [List.append_nil]; exact coveredBy_self a)
        | cons c m =>
          rw [List.cons_append, List.cons.injEq] at hm
          exact Or.inl (coveredBy_iff.mpr (Or.inr (liesBelow_iff.mpr ⟨m, by rw [hm.1]⟩)))
      · cases m with
        | nil => exact Or.inl (by rw [List.append_nil]; exact coveredBy_self b)
        | cons c m =>
          rw [List.cons_append, List.cons.injEq] at hm
          exact Or.inr (coveredBy_iff.mpr (Or.inr (liesBelow_iff.mpr ⟨m, by rw [hm.1]⟩)))

/-- A path has no parent if it lies below none. -/
theorem hasParent_eq_false_iff {paths : List Bytes} {child : Bytes} :
    hasParent paths child = false ↔ ∀ parent ∈ paths, liesBelow parent child = false := by
  unfold hasParent
  rw [List.any_eq_false]
  refine forall₂_congr fun parent _ => ?_
  rw [Bool.and_eq_true, decide_eq_true_eq, Bool.eq_false_iff]
  constructor
  · intro h hbelow
    exact h ⟨length_lt_of_liesBelow hbelow, hbelow⟩
  · intro h hbelow
    exact h hbelow.2

/-- Above every path there is one with none above it. -/
theorem exists_topmost {paths : List Bytes} {path : Bytes} (h : path ∈ paths) :
    ∃ top ∈ paths, coveredBy top path = true ∧ hasParent paths top = false := by
  induction hn : path.length using Nat.strong_induction_on generalizing path with
  | _ n ih =>
    cases hparent : hasParent paths path with
    | false => exact ⟨path, h, coveredBy_self path, hparent⟩
    | true =>
      obtain ⟨parent, hmem, hp⟩ := List.any_eq_true.mp hparent
      rw [Bool.and_eq_true, decide_eq_true_eq] at hp
      obtain ⟨top, htop, hcover, hnone⟩ := ih parent.length (by omega) hmem rfl
      exact ⟨top, htop, coveredBy_trans hcover (coveredBy_iff.mpr (Or.inr hp.2)), hnone⟩

/-! ## No conflict is lost -/

/-- The path that two overlapping scopes have in common: the deeper one. -/
def overlapPath (d₁ d₂ : ScopeRow) : Bytes :=
  if d₁.path.length ≤ d₂.path.length then d₂.path else d₁.path

/-- Two rows are of different forks, in order, and overlap. -/
structure PairOf (rows : List ScopeRow) (d₁ d₂ : ScopeRow) : Prop where
  left : d₁ ∈ rows
  right : d₂ ∈ rows
  lt : d₁.fork < d₂.fork
  overlaps : d₁.overlaps d₂ = true

/-- A fork has an overlap that is grouped under a path. -/
def GroupedAt (rows : List ScopeRow) (fork path : Bytes) : Prop :=
  ∃ d₁ d₂, PairOf rows d₁ d₂ ∧ pairPath d₁ d₂ = path ∧ (fork = d₁.fork ∨ fork = d₂.fork)

/-- **Any two forks with overlapping scopes are members of a conflict at or above the path they
have in common.** -/
def Radar.Complete (r : Radar) : Prop :=
  ∀ d₁ ∈ scopeRows r.dirty, ∀ d₂ ∈ scopeRows r.dirty, d₁.fork ≠ d₂.fork →
    d₁.overlaps d₂ = true →
      ∃ path members, path ∈ r.activeConflicts.keys ∧
        r.activeMembers.get? path = some members ∧
          coveredBy path (overlapPath d₁ d₂) = true ∧ d₁.fork ∈ members ∧ d₂.fork ∈ members

/-- **Groups that are dropped lose no member**: if the path of a pair lies below the path of
another pair, and this one below no other, then both forks of the first pair have an overlap that
is grouped there too. -/
def KeepsForks (rows : List ScopeRow) : Prop :=
  ∀ d₁ d₂ e₁ e₂, PairOf rows d₁ d₂ → PairOf rows e₁ e₂ →
    liesBelow (pairPath e₁ e₂) (pairPath d₁ d₂) = true →
      (∀ c₁ c₂, PairOf rows c₁ c₂ → liesBelow (pairPath c₁ c₂) (pairPath e₁ e₂) = false) →
        GroupedAt rows d₁.fork (pairPath e₁ e₂) ∧ GroupedAt rows d₂.fork (pairPath e₁ e₂)

/-- The paths of pairs. -/
theorem mem_pairPaths_iff {rows : List ScopeRow} {path : Bytes} :
    path ∈ pairPaths rows ↔ ∃ d₁ d₂, PairOf rows d₁ d₂ ∧ pairPath d₁ d₂ = path := by
  unfold pairPaths
  simp only [List.mem_map, mem_radarPairs_iff]
  constructor
  · rintro ⟨_, ⟨d₁, h₁, d₂, h₂, hlt, hoverlap, rfl⟩, rfl⟩
    exact ⟨d₁, d₂, ⟨h₁, h₂, hlt, hoverlap⟩, rfl⟩
  · rintro ⟨d₁, d₂, h, rfl⟩
    exact ⟨_, ⟨d₁, h.left, d₂, h.right, h.lt, h.overlaps, rfl⟩, rfl⟩

/-- The members of a conflict are the forks that are grouped there. -/
theorem mem_nextMembers_iff_groupedAt {rows : List ScopeRow} {fork path : Bytes} :
    fork ∈ nextMembers rows path ↔ GroupedAt rows fork path := by
  simp only [mem_nextMembers_iff, mem_radarPairs_iff]
  constructor
  · rintro ⟨_, ⟨d₁, h₁, d₂, h₂, hlt, hoverlap, rfl⟩, rfl, hfork⟩
    exact ⟨d₁, d₂, ⟨h₁, h₂, hlt, hoverlap⟩, rfl, hfork⟩
  · rintro ⟨d₁, d₂, h, rfl, hfork⟩
    exact ⟨_, ⟨d₁, h.left, d₂, h.right, h.lt, h.overlaps, rfl⟩, rfl, hfork⟩

/-- The table of the active members after a reconciliation. -/
theorem get?_activeMembers (hash : Bytes → Bytes) (family : Bytes) (claims : List ClaimRecord)
    (r : Radar) (path : Bytes) :
    (reconcileConflicts hash family claims r).activeMembers.get? path =
      if path ∈ (nextConflicts (scopeRows r.dirty)).keys then
        some (nextMembers (scopeRows r.dirty) path)
      else none := by
  unfold reconcileConflicts
  rw [OrdMap.get?_foldInsert OrdMap.empty (f := fun p => some (nextMembers (scopeRows r.dirty) p))
    (by simp), List.map_map, OrdMap.get?_empty]
  simp only [Function.comp_def, List.map_id']

/-- The table of the active conflicts after a reconciliation. -/
theorem get?_activeConflicts (hash : Bytes → Bytes) (family : Bytes) (claims : List ClaimRecord)
    (r : Radar) (path : Bytes) :
    (reconcileConflicts hash family claims r).activeConflicts.get? path =
      if path ∈ (nextConflicts (scopeRows r.dirty)).keys then some (r.nextConflict claims path)
      else none := by
  unfold reconcileConflicts
  rw [OrdMap.get?_foldInsert OrdMap.empty (f := fun p => some (r.nextConflict claims p))
    (by simp), List.map_map, OrdMap.get?_empty]
  simp only [Function.comp_def, List.map_id']

namespace ScopeRow

/-- Overlapping is symmetric. -/
theorem overlaps_comm (d₁ d₂ : ScopeRow) : d₁.overlaps d₂ = d₂.overlaps d₁ := by
  unfold overlaps
  have hpath : decide (d₁.path = d₂.path) = decide (d₂.path = d₁.path) :=
    decide_eq_decide.mpr eq_comm
  rw [Bool.or_right_comm, Bool.and_comm (decide (d₁.scope = .exact)), hpath]

/-- Of two overlapping scopes one path is above the other. -/
theorem coveredBy_of_overlaps {d₁ d₂ : ScopeRow} (h : d₁.overlaps d₂ = true) :
    coveredBy d₁.path d₂.path = true ∨ coveredBy d₂.path d₁.path = true := by
  unfold overlaps at h
  simp only [Bool.or_eq_true, Bool.and_eq_true, decide_eq_true_eq] at h
  rcases h with (⟨-, hpath⟩ | ⟨-, hcover⟩) | ⟨-, hcover⟩
  · exact Or.inl (by rw [hpath]; exact coveredBy_self _)
  · exact Or.inl hcover
  · exact Or.inr hcover

end ScopeRow

/-- What is covered and no longer is the path. -/
theorem eq_of_coveredBy_of_length {a b : Bytes} (h : coveredBy a b = true)
    (hlen : b.length ≤ a.length) : b = a := by
  rcases coveredBy_iff.mp h with rfl | hbelow
  · rfl
  · exact absurd (length_lt_of_liesBelow hbelow) (by omega)

/-- Two rows overlap at one path. -/
theorem overlapPath_comm {d₁ d₂ : ScopeRow} (h : d₁.overlaps d₂ = true) :
    overlapPath d₁ d₂ = overlapPath d₂ d₁ := by
  unfold overlapPath
  rcases lt_trichotomy d₁.path.length d₂.path.length with hlt | heq | hlt
  · rw [if_pos hlt.le, if_neg (by omega)]
  · rw [if_pos heq.le, if_pos heq.ge]
    rcases ScopeRow.coveredBy_of_overlaps h with hcover | hcover
    · exact eq_of_coveredBy_of_length hcover heq.ge
    · exact (eq_of_coveredBy_of_length hcover heq.le).symm
  · rw [if_neg (by omega), if_pos hlt.le]

/-- Both paths of two overlapping scopes are above the one they have in common. -/
theorem coveredBy_overlapPath {d₁ d₂ : ScopeRow} (h : d₁.overlaps d₂ = true) :
    coveredBy d₁.path (overlapPath d₁ d₂) = true ∧ coveredBy d₂.path
      (overlapPath d₁ d₂) = true := by
  unfold overlapPath
  rcases ScopeRow.coveredBy_of_overlaps h with hcover | hcover
  · rw [if_pos (length_le_of_coveredBy hcover)]
    exact ⟨hcover, coveredBy_self _⟩
  · split_ifs with hlen
    · have heq := eq_of_coveredBy_of_length hcover hlen
      rw [heq]
      exact ⟨coveredBy_self _, coveredBy_self _⟩
    · exact ⟨coveredBy_self _, hcover⟩

/-- The path that a pair is grouped under is one of its own. -/
theorem pairPath_eq_or (d₁ d₂ : ScopeRow) :
    pairPath d₁ d₂ = d₁.path ∨ pairPath d₁ d₂ = d₂.path := by
  unfold pairPath
  split_ifs <;> simp

/-- The path of a pair covers the one where its rows overlap. -/
theorem coveredBy_pairPath {d₁ d₂ : ScopeRow} (h : d₁.overlaps d₂ = true) :
    coveredBy (pairPath d₁ d₂) (overlapPath d₁ d₂) = true := by
  obtain ⟨h₁, h₂⟩ := coveredBy_overlapPath h
  rcases pairPath_eq_or d₁ d₂ with hpath | hpath
  · rw [hpath]
    exact h₁
  · rw [hpath]
    exact h₂

/-- **The only conflict that the forks of a pair can share is the topmost one above them**: paths
that are kept are not above one another. -/
theorem shared_iff {hash : Bytes → Bytes} {family : Bytes} {claims : List ClaimRecord} {r : Radar}
    {d₁ d₂ : ScopeRow} {top : Bytes} (hpair : PairOf (scopeRows r.dirty) d₁ d₂)
    (htop : top ∈ pairPaths (scopeRows r.dirty))
    (hcover : coveredBy top (pairPath d₁ d₂) = true)
    (hnone : hasParent (pairPaths (scopeRows r.dirty)) top = false) :
    (∃ path members, path ∈ (reconcileConflicts hash family claims r).activeConflicts.keys ∧
      (reconcileConflicts hash family claims r).activeMembers.get? path = some members ∧
        coveredBy path (overlapPath d₁ d₂) = true ∧ d₁.fork ∈ members ∧ d₂.fork ∈ members) ↔
      GroupedAt (scopeRows r.dirty) d₁.fork top ∧ GroupedAt (scopeRows r.dirty) d₂.fork top := by
  have hover : coveredBy top (overlapPath d₁ d₂) = true :=
    coveredBy_trans hcover (coveredBy_pairPath hpair.overlaps)
  constructor
  · rintro ⟨path, members, -, hmembers, hpath, h₁, h₂⟩
    rw [get?_activeMembers] at hmembers
    split_ifs at hmembers with hkeys
    obtain ⟨hmem, hparent⟩ := mem_nextConflicts_iff.mp hkeys
    have heq : path = top := by
      rcases coveredBy_total hpath hover with hle | hle
      · rcases coveredBy_iff.mp hle with rfl | hbelow
        · rfl
        · exact absurd hbelow (by rw [hasParent_eq_false_iff.mp hnone path hmem]; decide)
      · rcases coveredBy_iff.mp hle with rfl | hbelow
        · rfl
        · exact absurd hbelow (by rw [hasParent_eq_false_iff.mp hparent top htop]; decide)
    rw [← Option.some.inj hmembers, mem_nextMembers_iff_groupedAt, heq] at h₁ h₂
    exact ⟨h₁, h₂⟩
  · rintro ⟨h₁, h₂⟩
    have hkeys := mem_nextConflicts_iff.mpr ⟨htop, hnone⟩
    refine ⟨top, nextMembers (scopeRows r.dirty) top, ?_, ?_, hover,
      mem_nextMembers_iff_groupedAt.mpr h₁, mem_nextMembers_iff_groupedAt.mpr h₂⟩
    · rw [OrdMap.mem_keys_iff, get?_activeConflicts, if_pos hkeys]
      rfl
    · rw [get?_activeMembers, if_pos hkeys]

/-- Both forks of a pair are grouped at its path. -/
theorem groupedAt_of_pairOf {rows : List ScopeRow} {d₁ d₂ : ScopeRow} (h : PairOf rows d₁ d₂) :
    GroupedAt rows d₁.fork (pairPath d₁ d₂) ∧ GroupedAt rows d₂.fork (pairPath d₁ d₂) :=
  ⟨⟨d₁, d₂, h, rfl, Or.inl rfl⟩, ⟨d₁, d₂, h, rfl, Or.inr rfl⟩⟩

/-- **A reconciliation loses no conflict exactly if the groups that it drops lose no member.** -/
theorem conflicts_complete_iff (hash : Bytes → Bytes) (family : Bytes) (claims : List ClaimRecord)
    (r : Radar) :
    (reconcileConflicts hash family claims r).Complete ↔ KeepsForks (scopeRows r.dirty) := by
  constructor
  · intro h d₁ d₂ e₁ e₂ hd he hbelow hnone
    have htop : pairPath e₁ e₂ ∈ pairPaths (scopeRows r.dirty) :=
      mem_pairPaths_iff.mpr ⟨e₁, e₂, he, rfl⟩
    have hparent : hasParent (pairPaths (scopeRows r.dirty)) (pairPath e₁ e₂) = false := by
      rw [hasParent_eq_false_iff]
      intro parent hmem
      obtain ⟨c₁, c₂, hc, rfl⟩ := mem_pairPaths_iff.mp hmem
      exact hnone c₁ c₂ hc
    exact (shared_iff hd htop (coveredBy_iff.mpr (Or.inr hbelow)) hparent).mp
      (h d₁ hd.left d₂ hd.right (ne_of_lt hd.lt) hd.overlaps)
  · intro h
    -- the forks of a pair share the topmost conflict above it
    have hpair : ∀ d₁ d₂, PairOf (scopeRows r.dirty) d₁ d₂ →
        ∃ path members, path ∈ (reconcileConflicts hash family claims r).activeConflicts.keys ∧
          (reconcileConflicts hash family claims r).activeMembers.get? path = some members ∧
            coveredBy path (overlapPath d₁ d₂) = true ∧ d₁.fork ∈ members ∧
              d₂.fork ∈ members := by
      intro d₁ d₂ hd
      obtain ⟨top, htop, hcover, hparent⟩ :=
        exists_topmost (mem_pairPaths_iff.mpr ⟨d₁, d₂, hd, rfl⟩)
      refine (shared_iff hd htop hcover hparent).mpr ?_
      rcases coveredBy_iff.mp hcover with heq | hbelow
      · rw [← heq]
        exact groupedAt_of_pairOf hd
      · obtain ⟨e₁, e₂, he, rfl⟩ := mem_pairPaths_iff.mp htop
        refine h d₁ d₂ e₁ e₂ hd he hbelow fun c₁ c₂ hc => ?_
        exact hasParent_eq_false_iff.mp hparent _ (mem_pairPaths_iff.mpr ⟨c₁, c₂, hc, rfl⟩)
    intro d₁ h₁ d₂ h₂ hne hoverlap
    rcases lt_or_gt_of_ne hne with hlt | hlt
    · exact hpair d₁ d₂ ⟨h₁, h₂, hlt, hoverlap⟩
    · have hoverlap' : d₂.overlaps d₁ = true := by
        rw [ScopeRow.overlaps_comm]
        exact hoverlap
      obtain ⟨path, members, hkeys, hmembers, hcover, hm₁, hm₂⟩ :=
        hpair d₂ d₁ ⟨h₂, h₁, hlt, hoverlap'⟩
      refine ⟨path, members, hkeys, hmembers, ?_, hm₂, hm₁⟩
      rw [overlapPath_comm hoverlap]
      exact hcover

/-! ### A sample -/

/-- A fork whose identifier repeats a digit. -/
def sampleFork (digit : Byte) : Bytes := List.replicate 32 digit

/-- The universe of a fork. -/
def sampleUniverse (digit : Byte) : Universe :=
  ⟨[digit], sampleFork digit, .fill 0, .fill digit⟩

/-- Two forks change a directory and two others a file in it. -/
def sampleScopes : Radar where
  universes := (OrdMap.empty : OrdMap Bytes Universe).foldInsert
    ([49, 50, 51, 52].map fun digit => (sampleFork digit, sampleUniverse digit))
  dirty := (OrdMap.empty : DirtyScopes).foldInsert
    [(scopeKey (sampleFork 49) (text "d") .exact, .modify),
      (scopeKey (sampleFork 50) (text "d") .exact, .modify),
      (scopeKey (sampleFork 51) (text "d/x") .exact, .modify),
      (scopeKey (sampleFork 52) (text "d/x") .exact, .modify)]
  activeConflicts := .empty
  activeMembers := .empty
  log := ⟨[], 0⟩

/-- **The conflict over the file is lost**: it is dropped for the one over the directory, which
only the first two forks are members of. -/
theorem conflicts_complete_fails : ¬ ∀ (hash : Bytes → Bytes) (family : Bytes)
    (claims : List ClaimRecord) (r : Radar),
    (reconcileConflicts hash family claims r).Complete := by
  intro h
  obtain ⟨path, members, -, hmembers, -, hthree, -⟩ := h id [] [] sampleScopes
    ⟨sampleFork 51, text "d/x", .exact⟩ (by decide)
    ⟨sampleFork 52, text "d/x", .exact⟩ (by decide) (by decide) (by decide)
  rw [get?_activeMembers] at hmembers
  split_ifs at hmembers with hkeys
  have hpaths : (nextConflicts (scopeRows sampleScopes.dirty)).keys = [text "d"] := by
    decide
  rw [hpaths, List.mem_singleton] at hkeys
  have hforks : nextMembers (scopeRows sampleScopes.dirty) (text "d") =
      [sampleFork 49, sampleFork 50] := by
    decide
  rw [← Option.some.inj hmembers, hkeys, hforks] at hthree
  exact absurd hthree (by decide)

end Furrow
