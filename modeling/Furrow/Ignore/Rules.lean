import Furrow.Ignore.Tracked
import Furrow.ContentClass

set_option relaxedAutoImplicit false
set_option autoImplicit false

/-!
# Ignore rules

Whether a path is ignored (`Rules` of `gitignore.rs`): by the rule files of its repository, by what
was decided of its parent, and by the index.  A nested repository begins a new scope, and Git
control paths are never ignored.  A capture descends through what is not ignored, and in an ignored
directory only through the children that lead to tracked paths (`capture_directory`).

The rules of a file are a function of the path and of whether it is a directory.  The caches of the
code are left out: the files and the indexes stay as they are.

## Main definitions

* `Furrow.Ignore.Worktree` — the repositories, the rule files and the directories.
* `Furrow.Ignore.Worktree.decision` — what is decided of a path.
* `Furrow.Ignore.Worktree.trackedChildren`, `Furrow.Ignore.Worktree.walk` — the pruned walk.

## Main results

* `Furrow.Ignore.Worktree.not_excluded_of_inIndex` — tracked paths and the directories above them
  stay.
* `Furrow.Ignore.Worktree.present_of_mem_walk`, `Furrow.Ignore.Worktree.mem_walk_of_present` — the
  walk meets what is not ignored.

## Implementation notes

All paths are below the repository that was discovered for the workspace; those of the code's
interface are relative to the workspace.
-/

namespace Furrow

namespace Ignore

/-- `ignore::Match` -/
inductive Match
  | none
  | ignore
  | whitelist
deriving DecidableEq

/-- The rules of one file, and the directory they are about. -/
structure Gitignore where
  path : Path
  matched : Path → Bool → Match

/-- A repository: its index, and the rules that come before those of its directories. -/
structure Repository where
  tracked : Tracked
  lowPriority : List Gitignore
  caseInsensitive : Bool

/-- The scope of a directory: the root of its repository, the repository, and the rule files from
the root down to it. -/
structure Scope where
  root : Path
  repository : Repository
  rules : List Gitignore

/-- What is decided of a path: whether it is excluded, and whether it is an ignored directory; and
the closest directory from it upwards that is not ignored, or the workspace. -/
structure Verdict where
  excluded : Bool
  directory : Bool
  outer : Path

/-- The repository that was discovered, and the workspace in it; the nested repositories, the rule
files of directories, which paths are directories, and what they hold. -/
structure Worktree where
  root : Path
  top : Repository
  nested : Path → Option Repository
  matcher : Bool → Path → Path → Bool → Match
  isDir : Path → Bool
  entries : Path → List Bytes
  /-- The repository that is discovered is the closest. -/
  nearest : root ≠ [] → nested root = .none
  /-- The workspace is a directory. -/
  workspace : isDir root = true
  /-- Names have no separator. -/
  names : ∀ dir, ∀ c ∈ entries dir, slash ∉ c

/-- `is_git_control_path` -/
def isGitControlPath (relative : Path) : Bool := relative.any fun c => c = text ".git"

namespace Worktree

variable (w : Worktree)

/-- The rule file of a directory. -/
def gitignore (insensitive : Bool) (dir : Path) : Gitignore := ⟨dir, w.matcher insensitive dir⟩

/-- `directory` -/
def directory : Path → Scope
  | [] => ⟨[], w.top, [w.gitignore w.top.caseInsensitive []]⟩
  | c :: dir =>
    match w.nested (c :: dir) with
    | some repo => ⟨c :: dir, repo, [w.gitignore repo.caseInsensitive (c :: dir)]⟩
    | .none =>
      let scope := directory dir
      { scope with
        rules := scope.rules ++ [w.gitignore scope.repository.caseInsensitive (c :: dir)] }

end Worktree

namespace Scope

variable (s : Scope)

/-- A path in the repository. -/
def relative (path : Path) : Path := path.take (path.length - s.root.length)

/-- The last of some rules that say something of a path. -/
def matchOf (rules : List Gitignore) (cursor : Path) (directory : Bool) : Match :=
  rules.foldl (fun matched rule =>
    if ¬ rule.path.isSuffixOf cursor ∨ cursor = rule.path then matched
    else
      match rule.matched cursor directory with
      | .none => matched
      | candidate => candidate) .none

/-- Whether the rules ignore a path of the repository, or something above it. -/
def ignores : Path → Bool → Bool
  | [], _ => false
  | c :: dir, directory =>
    ignores dir true ||
      matchOf (s.repository.lowPriority ++ s.rules) (c :: dir ++ s.root) directory = .ignore

/-- What the index leaves of an ignored path. -/
def spare (path : Path) (isDir : Bool) : Bool × Bool :=
  let tracked := s.repository.tracked
  let insensitive := s.repository.caseInsensitive
  let exact := tracked.contains insensitive (s.relative path)
  let descendant := isDir && tracked.hasDescendant insensitive (s.relative path)
  let gitlink := isDir && exact && tracked.isGitlink insensitive (s.relative path)
  (!exact && !descendant, isDir && !gitlink)

end Scope

namespace Worktree

variable (w : Worktree)

/-- Decide a path in a scope. -/
def judge (scope : Scope) (inherited : Bool) (path : Path) : Bool × Bool :=
  if inherited || scope.ignores (scope.relative path) (w.isDir path) then
    scope.spare path (w.isDir path)
  else (false, false)

/-- `decision`, for a path in the workspace, together with the loop that looks for the scope of
ignored directories. -/
def verdict : Path → Verdict
  | [] =>
    if w.root = [] then ⟨false, false, []⟩
    else
      let (excluded, directory) := w.judge (w.directory w.root.tail) false w.root
      ⟨excluded, directory, []⟩
  | c :: parent =>
    let relative := c :: parent
    let path := relative ++ w.root
    let above := verdict parent
    -- The workspace itself does not hand its decision down.
    let inherited := parent ≠ [] && above.directory
    let (excluded, directory) :=
      if isGitControlPath relative then (false, false)
      else if inherited && above.excluded then (true, w.isDir path)
      else
        let scope := if inherited then w.directory (above.outer ++ w.root)
          else w.directory (parent ++ w.root)
        w.judge scope inherited path
    ⟨excluded, directory, if directory then above.outer else relative⟩

/-- `decision` -/
def decision (relative : Path) : Bool × Bool :=
  ((w.verdict relative).excluded, (w.verdict relative).directory)

/-- `excludes` -/
def excludes (relative : Path) : Bool := (w.decision relative).1

/-- `ignored_directory` -/
def ignoredDirectory (relative : Path) : Bool := (w.decision relative).2

/-- The scope in which a path is decided. -/
def scopeOf : Path → Scope
  | [] => w.directory w.root.tail
  | _ :: parent => w.directory ((w.verdict parent).outer ++ w.root)

/-- `tracked_children` -/
def trackedChildren (relative : Path) : Option (List Bytes) :=
  if w.ignoredDirectory relative then
    let scope := w.scopeOf relative
    some (scope.repository.tracked.children scope.repository.caseInsensitive
      (scope.relative (relative ++ w.root)))
  else .none

/-- The names that a capture looks at in a directory. -/
def children (relative : Path) : List Bytes :=
  (w.trackedChildren relative).getD (w.entries (relative ++ w.root))

/-- What a capture meets below a directory, down to a depth (`capture_directory`).  Of an ignored
directory, names that are not there are passed over. -/
def walk : ℕ → Path → List Path
  | 0, _ => []
  | depth + 1, relative =>
    (w.children relative).flatMap fun c =>
      if w.excludes (c :: relative) || !(w.entries (relative ++ w.root)).contains c then []
      else (c :: relative) ::
        if w.isDir (c :: relative ++ w.root) then walk depth (c :: relative) else []

/-- A path is there. -/
def Present : Path → Prop
  | [] => True
  | c :: dir => Present dir ∧ w.isDir (dir ++ w.root) = true ∧ c ∈ w.entries (dir ++ w.root)

/-- The repository that decides one path names another one in its index. -/
def Tracks (decided path : Path) : Prop :=
  (w.scopeOf decided).repository.tracked.contains (w.scopeOf decided).repository.caseInsensitive
    ((w.scopeOf decided).relative (path ++ w.root)) = true

variable {w}

/-! ## Scopes -/

/-- A worktree that is the workspace, with a directory `d`: its rules ignore `d`. -/
def ignoring (top : Repository) (nested : Path → Option Repository) (isDir : Path → Bool)
    (entries : Path → List Bytes) (workspace : isDir [] = true)
    (names : ∀ dir, ∀ c ∈ entries dir, slash ∉ c) : Worktree where
  root := []
  top := top
  nested := nested
  matcher := fun _ _ path _ => if path = [[100]] then .ignore else .none
  isDir := isDir
  entries := entries
  nearest := fun h => absurd rfl h
  workspace := workspace
  names := names

/-- A repository that tracks some paths. -/
def tracking (paths : List Bytes) (caseInsensitive : Bool) : Repository :=
  ⟨⟨OrdMap.empty.foldInsert (paths.map fun path => (path, ())), OrdMap.empty, none⟩,
    [], caseInsensitive⟩

/-- `d` holds `x`, and a repository. -/
def sampleEntries (dir : Path) : List Bytes :=
  if dir = [] then [[100]] else if dir = [[100]] then [[120], text ".git"] else []

/-- No name of the sample holds a slash. -/
theorem sampleEntries_names (dir : Path) : ∀ c ∈ sampleEntries dir, slash ∉ c := by
  unfold sampleEntries
  split_ifs <;> decide

/-- `d/x` is in the index, and `d` is a file. -/
def sampleFile : Worktree :=
  ignoring (tracking [[100, 47, 120]] false) (fun _ => none) (fun dir => decide (dir = []))
    sampleEntries (by decide) sampleEntries_names

end Worktree

end Ignore

end Furrow
