import Mathlib
import Furrow.ContentClass
import Furrow.Lib.OrdMap
import Furrow.Tree.Dir

set_option relaxedAutoImplicit false
set_option autoImplicit false

/-!
# Dirty scopes

`radar.rs`: what each fork of a family has changed since its base.  An observation of a fork
compares the head that was seen last with the new one, and for every path that differs computes
the scopes anew, from the base and the new head.

## Main definitions

* `Furrow.findPath` — the entry at a path of a stored tree.
* `Furrow.DirtyScopes`, `Furrow.Observed` — the tables.
* `Furrow.recomputeScope` — the scopes of a path.
* `Furrow.observe` — an observation.
-/

namespace Furrow

/-- What the radar complains about. -/
inductive RadarError
  | store (e : StoreError)
  /-- `tree path contains an empty component` -/
  | emptyComponent
  /-- `directory entry has no tree target` -/
  | noTreeTarget
  /-- `missing tree entry` -/
  | missingEntry
  /-- `added directory has no tree` -/
  | addedHasNoTree
  /-- `directory has no tree` -/
  | directoryHasNoTree
  /-- `invalid fork ID` -/
  | invalidForkId
  /-- Two forks with one workspace. -/
  | workspaceTaken
  /-- A fork that is named twice. -/
  | forkTwice
deriving DecidableEq

/-- Read from the store. -/
def fromStore {α : Type} : Except StoreError α → Except RadarError α
  | .ok a => .ok a
  | .error e => .error (.store e)

/-! ## Lookups -/

/-- The entry at the end of some components. -/
def findComponents (store : ObjectStore) (fuel : ℕ) :
    ObjectId → List Bytes → Except RadarError (Option TreeEntry)
  | _, [] => .ok none
  | tree, component :: rest =>
    if component = [] then .error .emptyComponent
    else do
      match ← fromStore (findEntry store fuel tree component) with
      | none => pure none
      | some entry =>
        if rest = [] then pure (some entry)
        else if entry.kind ≠ .Directory then pure none
        else
          match entry.target with
          | none => .error .noTreeTarget
          | some target => findComponents store fuel target rest

/-- The entry at a path (`find_path`). -/
def findPath (store : ObjectStore) (fuel : ℕ) (root : ObjectId) (path : Bytes) :
    Except RadarError (Option TreeEntry) :=
  if path = [] then .ok none else findComponents store fuel root (path.splitOn slash)

/-! ## Tables -/

/-- What a scope covers: a path, or a path and all below it. -/
inductive Scope
  | exact
  | subtree
deriving DecidableEq, Repr

namespace Scope

/-- The number a scope is stored with. -/
def toNat : Scope → ℕ
  | exact => 0
  | subtree => 1

/-- Scopes have numbers of their own. -/
theorem toNat_injective : Function.Injective toNat := by
  intro a b h
  cases a <;> cases b <;> first | rfl | exact absurd h (by decide)

instance : LinearOrder Scope := LinearOrder.lift' toNat toNat_injective

end Scope

/-- What a fork did. -/
inductive ScopeAction
  | add
  | modify
  | delete
deriving DecidableEq, Repr

/-- The key of a scope: a fork, a path and what it covers. -/
abbrev ScopeKey := Bytes ×ₗ (Bytes ×ₗ Scope)

/-- The key of a scope of a fork. -/
def scopeKey (fork path : Bytes) (scope : Scope) : ScopeKey := toLex (fork, toLex (path, scope))

/-- The table `dirty_scopes`. -/
abbrev DirtyScopes := OrdMap ScopeKey ScopeAction

/-- Whether a path lies below another, as the queries say it. -/
def liesBelow (dir path : Bytes) : Bool := dir.isPrefixOf path && path[dir.length]? = some slash

/-- `remove_scope` -/
def removeScope (fork path : Bytes) (descendants : Bool) (dirty : DirtyScopes) : DirtyScopes :=
  dirty.filter fun key _ =>
    !((ofLex key).1 = fork &&
      ((ofLex (ofLex key).2).1 = path || (descendants && liesBelow path (ofLex (ofLex key).2).1)))

/-- `insert_scope` -/
def insertScope (fork path : Bytes) (scope : Scope) (action : ScopeAction) (dirty : DirtyScopes) :
    DirtyScopes :=
  dirty.insert (scopeKey fork path scope) action

/-! ## The scopes of a path -/

/-- The classes of files that conflicts are looked for in. -/
def relevant : ContentClass → Bool
  | .Source | .ConfigSecret | .Database | .Lockfile => true
  | _ => false

/-- `ignored_path` -/
def ignoredPath (path : Bytes) : Bool :=
  path = text ".furrow" || (text ".furrow/").isPrefixOf path || path = text ".git" ||
    (text ".git/").isPrefixOf path

/-- `directory_metadata_equal` -/
def directoryMetadataEqual (left right : TreeEntry) : Bool :=
  left.kind = right.kind ∧ left.name = right.name ∧ left.mode = right.mode ∧
    left.xattrs = right.xattrs ∧ left.contentClass = right.contentClass

/-- `entry_semantically_equal` -/
def entrySemanticallyEqual (left right : TreeEntry) : Bool :=
  left.kind = right.kind ∧ left.name = right.name ∧ left.target = right.target ∧
    left.linkTarget = right.linkTarget ∧ left.mode = right.mode ∧ left.size = right.size ∧
    left.xattrs = right.xattrs ∧ left.contentClass = right.contentClass

section Visit

variable {σ : Type}

/-- What `visit_subtree` does with one entry: visit it and, if it is a directory, go on below
it. -/
def visitSubtreeEntry (visitor : σ → Bytes → TreeEntry → Except RadarError σ)
    (go : ObjectId → Bytes → σ → Except RadarError σ) (pfx : Bytes) (s : σ) (entry : TreeEntry) :
    Except RadarError σ := do
  let path := joinPath pfx entry.name
  let s ← visitor s path entry
  if entry.kind = .Directory then
    match entry.target with
    | none => .error .directoryHasNoTree
    | some child => go child path s
  else pure s

/-- All entries below a directory. -/
def visitSubtree (store : ObjectStore) (visitor : σ → Bytes → TreeEntry → Except RadarError σ) :
    ℕ → ObjectId → Bytes → σ → Except RadarError σ
  | 0, _, _, _ => .error (.store .outOfFuel)
  | fuel + 1, root, pfx, s => do
    let entries ← fromStore (forEachEntry store fuel root)
    entries.foldlM (visitSubtreeEntry visitor (visitSubtree store visitor fuel) pfx) s

/-- The tree of an entry that is a directory. -/
def directoryTree (entry : Option TreeEntry) : Option ObjectId :=
  (entry.filter fun e => e.kind = .Directory).bind TreeEntry.target

/-- What `visit_changed_scopes` does with two entries of one name: visit their path and, if both
are directories, go on below it. -/
def visitChanged (visitor : σ → Bytes → Except RadarError σ)
    (go : ObjectId → ObjectId → Bytes → σ → Except RadarError σ) (pfx : Bytes) (s : σ)
    (pair : EntryPair) : Except RadarError σ :=
  match pair.1.or pair.2 with
  | none => .error .missingEntry
  | some entry => do
    let path := joinPath pfx entry.name
    let s ← visitor s path
    match directoryTree pair.1, directoryTree pair.2 with
    | some left, some right => go left right path s
    | _, _ => pure s

/-- All paths that differ between two trees. -/
def visitChangedScopes (store : ObjectStore) (visitor : σ → Bytes → Except RadarError σ) :
    ℕ → ObjectId → ObjectId → Bytes → σ → Except RadarError σ
  | 0, _, _, _, _ => .error (.store .outOfFuel)
  | fuel + 1, before, after, pfx, s => do
    let pairs ← fromStore (diffEntries store fuel before after)
    pairs.foldlM (visitChanged visitor (visitChangedScopes store visitor fuel) pfx) s

end Visit

/-- One entry of an added directory: files are scopes of their own, and are counted. -/
def addLeaf (fork : Bytes) (s : DirtyScopes × ℕ) (path : Bytes) (entry : TreeEntry) :
    Except RadarError (DirtyScopes × ℕ) :=
  if entry.kind ≠ .Directory ∧ relevant entry.contentClass ∧ !ignoredPath path then
    .ok (insertScope fork path .exact .add s.1, s.2 + 1)
  else .ok s

/-- The scopes of an added directory: its files, or itself if it has none. -/
def insertAddedSubtree (store : ObjectStore) (fuel : ℕ) (fork path : Bytes) (directory : TreeEntry)
    (dirty : DirtyScopes) : Except RadarError DirtyScopes :=
  match directory.target with
  | none => .error .addedHasNoTree
  | some root => do
    let s ← visitSubtree store (addLeaf fork) fuel root path (dirty, 0)
    if s.2 = 0 ∧ relevant directory.contentClass then
      pure (insertScope fork path .exact .add s.1)
    else pure s.1

/-- The entry is there, and is one of a directory. -/
def entryIsDirectory (entry : Option TreeEntry) : Bool :=
  match entry with
  | some e => e.kind = .Directory
  | none => false

/-- Insert a scope if a class is relevant. -/
def insertIf (condition : Bool) (fork path : Bytes) (scope : Scope) (action : ScopeAction)
    (dirty : DirtyScopes) : DirtyScopes :=
  if condition then insertScope fork path scope action dirty else dirty

/-- The new scopes of a path, after the old ones were removed. -/
def insertScopes (store : ObjectStore) (fuel : ℕ) (fork path : Bytes)
    (base head : Option TreeEntry) (dirty : DirtyScopes) : Except RadarError DirtyScopes :=
  match base, head with
  | some left, some right =>
    if left.kind = .Directory ∧ right.kind = .Directory then
      .ok (insertIf (!directoryMetadataEqual left right && relevant right.contentClass) fork path
        .exact .modify dirty)
    else if entryIsDirectory base != entryIsDirectory head then
      .ok (insertIf (relevant left.contentClass || relevant right.contentClass) fork path .subtree
        .modify dirty)
    else if entrySemanticallyEqual left right then .ok dirty
    else
      .ok (insertIf (relevant left.contentClass || relevant right.contentClass) fork path .exact
        .modify dirty)
  | some left, none =>
    .ok (insertIf (relevant left.contentClass) fork path
      (if left.kind = .Directory then .subtree else .exact) .delete dirty)
  | none, some right =>
    if right.kind = .Directory then insertAddedSubtree store fuel fork path right dirty
    else .ok (insertIf (relevant right.contentClass) fork path .exact .add dirty)
  | none, none => .ok dirty

/-- **The scopes of a path, computed anew** (`recompute_scope`). -/
def recomputeScope (store : ObjectStore) (fuel : ℕ) (fork : Bytes) (baseRoot headRoot : ObjectId)
    (dirty : DirtyScopes) (path : Bytes) : Except RadarError DirtyScopes :=
  if ignoredPath path then .ok (removeScope fork path true dirty)
  else do
    let base ← findPath store fuel baseRoot path
    let head ← findPath store fuel headRoot path
    let structural := entryIsDirectory base != entryIsDirectory head
    insertScopes store fuel fork path base head (removeScope fork path structural dirty)

/-- `update_dirty_scopes` -/
def updateDirtyScopes (store : ObjectStore) (fuel : ℕ) (fork : Bytes)
    (baseRoot headRoot comparisonRoot : ObjectId) (dirty : DirtyScopes) :
    Except RadarError DirtyScopes :=
  visitChangedScopes store (recomputeScope store fuel fork baseRoot headRoot) fuel comparisonRoot
    headRoot [] dirty

/-! ## Observations -/

/-- A row of the table `universes`. -/
structure Universe where
  name : Bytes
  workspaceId : Bytes
  base : ObjectId
  head : ObjectId
deriving DecidableEq

/-- What an observation is of. -/
structure UniverseRegistration where
  forkId : Bytes
  name : Bytes
  workspaceId : Bytes
  baseSnapshot : ObjectId
  headSnapshot : ObjectId

/-- The tables of universes and scopes. -/
structure Observed where
  universes : OrdMap Bytes Universe
  dirty : DirtyScopes

/-- `validate_id` -/
def isId (value : Bytes) : Bool :=
  value.length = 32 && value.all fun b =>
    (48 ≤ b && b ≤ 57) || (65 ≤ b && b ≤ 70) || (97 ≤ b && b ≤ 102)

/-- The snapshot under an identifier. -/
def readSnapshot (store : ObjectStore) (id : ObjectId) : Except RadarError Snapshot :=
  match store id with
  | none => .error (.store .missingObject)
  | some (.snapshot s) => .ok s
  | some _ => .error (.store .kindMismatch)

/-- Whether another fork has a workspace. -/
def workspaceTaken (universes : OrdMap Bytes Universe) (fork workspaceId : Bytes) : Bool :=
  universes.toList.any fun p => p.1 ≠ fork && p.2.workspaceId = workspaceId

/-- The root of the head that was seen last, if that was from the same base. -/
def previousRoot (store : ObjectStore) (current : Option Universe) (base : ObjectId) :
    Except RadarError (Option ObjectId) :=
  match current with
  | none => .ok none
  | some u =>
    if u.base = base then do
      let snapshot ← readSnapshot store u.head
      pure (some snapshot.rootTree)
    else .ok none

/-- **An observation** (`observe`); the result says whether it was of something new. -/
def observe (store : ObjectStore) (fuel : ℕ) (registration : UniverseRegistration)
    (s : Observed) : Except RadarError (Bool × Observed) :=
  let fork := registration.forkId
  let row : Universe := ⟨registration.name, registration.workspaceId,
    registration.baseSnapshot, registration.headSnapshot⟩
  let current := s.universes.get? fork
  let universes := s.universes.insert fork row
  if !isId fork then .error .invalidForkId
  else if current.map (fun u => (u.base, u.head)) =
      some (registration.baseSnapshot, registration.headSnapshot) then
    if workspaceTaken s.universes fork registration.workspaceId then .error .workspaceTaken
    else .ok (false, { s with universes := universes })
  else do
    let base ← readSnapshot store registration.baseSnapshot
    let head ← readSnapshot store registration.headSnapshot
    let previous ← previousRoot store current registration.baseSnapshot
    if workspaceTaken s.universes fork registration.workspaceId then .error .workspaceTaken
    else do
      let dirty := if previous.isNone then s.dirty.filter fun key _ => (ofLex key).1 ≠ fork
        else s.dirty
      let dirty ← updateDirtyScopes store fuel fork base.rootTree head.rootTree
        (previous.getD base.rootTree) dirty
      pure (true, ⟨universes, dirty⟩)

end Furrow
