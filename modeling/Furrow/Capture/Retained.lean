import Furrow.Capture.StatCache
import Furrow.ContentClass

set_option relaxedAutoImplicit false
set_option autoImplicit false

/-!
# The retained stat cache

`catalog.rs`: a daemon keeps the rows of the stat cache in memory, by workspace.  They are read from
the table at the first lookup, follow the writes of the connection, and are dropped when a
transaction is rolled back, when a statement changes the table otherwise, and when another
connection committed: the `data_version` of SQLite tells so, and is looked at where no transaction
is open.

Statements may fail, batches may be nested, and other connections commit between the calls, but not
while a batch holds the write lock.  Rows are as their writers store them, and the lookups of SQLite
itself do not fail.

## Main definitions

* `Furrow.Retained.Catalog` — the table, the transaction and the rows in memory.
* `Furrow.Retained.Catalog.cachedFile`, `Furrow.Retained.Catalog.cacheFile` — the lookup and the
  write.
* `Furrow.Retained.Op`, `Furrow.Retained.Catalog.run` — the calls on a connection.
* `Furrow.Retained.Plain` — a connection that keeps nothing in memory.

## Main results

* `Furrow.Retained.Catalog.cachedFile_eq` — a lookup finds what the table holds.
* `Furrow.Retained.Catalog.plain_run` — the tables are those of a connection that keeps nothing.
-/

namespace Furrow

namespace Retained

/-- The rows of a workspace, by path. -/
abbrev Rows := Bytes → Option CachedFile

/-- The table `stat_cache`, by workspace. -/
abbrev Table := String → Rows

namespace Table

/-- `UPSERT_STAT` -/
def upsert (t : Table) (workspace : String) (path : Bytes) (file : CachedFile) : Table :=
  Function.update t workspace (Function.update (t workspace) path (some file))

/-- The workspace of the row gets it. -/
theorem upsert_self (t : Table) (workspace : String) (path : Bytes) (file : CachedFile) :
    t.upsert workspace path file workspace = Function.update (t workspace) path (some file) :=
  Function.update_self _ _ _

/-- Other workspaces keep their rows. -/
theorem upsert_of_ne (t : Table) {workspace other : String} (h : other ≠ workspace) (path : Bytes)
    (file : CachedFile) : t.upsert workspace path file other = t other :=
  Function.update_of_ne h _ _

/-- The rows of a workspace that belong to its folder. -/
def isLegacy (path : Bytes) : Bool := path ≠ text ".cell" && path.take 6 ≠ text ".cell/"

/-- Give the rows of a workspace to its folder; of two rows of a path the newer one stays. -/
def shareLegacy (t : Table) (workspace folder : String) : Table :=
  Function.update t folder fun path =>
    match (t workspace path).filter fun _ => isLegacy path, t folder path with
    | some row, some present =>
      if present.cachedAtNanos < row.cachedAtNanos then some row else some present
    | some row, none => some row
    | none, present => present

/-- Delete the rows that belong to the folder of a workspace. -/
def deleteLegacy (t : Table) (workspace : String) : Table :=
  Function.update t workspace fun path => (t workspace path).filter fun _ => !isLegacy path

/-- Delete the rows of a workspace. -/
def deleteWorkspace (t : Table) (workspace : String) : Table :=
  Function.update t workspace fun _ => none

/-- Delete the rows whose objects are gone. -/
def keepLive (t : Table) (live : ObjectId → Bool) : Table := fun workspace path =>
  (t workspace path).filter fun row => live row.blobId && row.xattrs.all live

end Table

/-- A connection: the table as it sees it, the table that a rollback leaves, how many batches are
open, the `data_version` of SQLite and the one that was seen last, and the rows in memory. -/
structure Catalog where
  table : Table
  saved : Table
  depth : ℕ
  version : ℕ
  dataVersion : ℤ
  retainFiles : Bool
  files : String → Option Rows

/-- The calls on a connection, with what becomes of their statements; and the commits of others. -/
inductive Op
  | retainFileCache
  | cachedFile (workspace : String) (path : Bytes)
  | cacheFile (workspace : String) (path : Bytes) (file : CachedFile) (succeeds : Bool)
  /-- A batch begins, or cannot. -/
  | enter (begins : Bool)
  /-- What a batch runs has ended; the outermost commits, or cannot. -/
  | leave (succeeds commits : Bool)
  | forgetCaptureCaches (succeeds : Bool)
  /-- How many of the two statements are run. -/
  | shareLegacyFileRows (workspace folder : String) (statements : ℕ)
  | removeWorkspace (workspace : String) (succeeds : Bool)
  | detachWorkspace (workspace : String) (succeeds : Bool)
  | replaceObjectsFromGc (live : ObjectId → Bool) (succeeds : Bool)
  | foreign (table : Table)

namespace Catalog

/-- `open`, with what the table holds. -/
def opened (table : Table) (version : ℕ) : Catalog where
  table := table
  saved := table
  depth := 0
  version := version
  dataVersion := -1
  retainFiles := false
  files := fun _ => none

variable (s : Catalog)

/-- Nothing stays in memory. -/
def clear : Catalog := { s with files := fun _ => none }

/-- `refresh_file_cache` -/
def refreshFileCache : Catalog :=
  if ¬ s.retainFiles then s
  else
    let refreshed := { s with dataVersion := s.version }
    if s.dataVersion ≠ s.version then refreshed.clear else refreshed

/-- Where no transaction is open, commits of others may have come in. -/
def current : Catalog := if s.depth = 0 then s.refreshFileCache else s

/-- The rows of a workspace are in memory. -/
def load (workspace : String) : Catalog :=
  match s.files workspace with
  | some _ => s
  | none => { s with files := Function.update s.files workspace (some (s.table workspace)) }

/-- `cached_file` -/
def cachedFile (workspace : String) (path : Bytes) : Option CachedFile × Catalog :=
  if ¬ s.retainFiles then (s.table workspace path, s)
  else
    let loaded := s.current.load workspace
    ((loaded.files workspace).bind fun rows => rows path, loaded)

/-- The row is in memory as it is. -/
def skips (workspace : String) (path : Bytes) (file : CachedFile) : Bool :=
  ((s.current.files workspace).bind fun rows => rows path) = some file

/-- `cache_file` -/
def cacheFile (workspace : String) (path : Bytes) (file : CachedFile) (succeeds : Bool) : Catalog :=
  if s.skips workspace path file then s.current
  else if ¬ succeeds then s.current
  else
    { s.current with
      table := s.current.table.upsert workspace path file
      files := Function.update s.current.files workspace
        ((s.current.files workspace).map fun rows => Function.update rows path (some file)) }

/-- A transaction of its own, which an open one does not admit. -/
def transaction (succeeds : Bool) (f : Table → Table) : Catalog :=
  if s.depth = 0 ∧ succeeds then { s.clear with table := f s.table } else s.clear

/-- One call, or a commit of another connection. -/
def step : Op → Catalog
  | .retainFileCache => { s with retainFiles := true }
  | .cachedFile workspace path => (s.cachedFile workspace path).2
  | .cacheFile workspace path file succeeds => s.cacheFile workspace path file succeeds
  | .enter begins =>
    if s.depth ≠ 0 then { s with depth := s.depth + 1 }
    else if ¬ begins then s
    else { s.refreshFileCache with depth := 1, saved := s.table }
  | .leave succeeds commits =>
    if s.depth = 0 then s
    else if s.depth ≠ 1 then { s with depth := s.depth - 1 }
    else if succeeds ∧ commits then { s with depth := 0 }
    else { s.clear with depth := 0, table := s.saved }
  | .forgetCaptureCaches succeeds =>
    if succeeds then { s.clear with table := fun _ _ => none } else s.clear
  | .shareLegacyFileRows workspace folder statements =>
    if statements = 0 then s.clear
    else
      let shared := s.table.shareLegacy workspace folder
      { s.clear with table := if statements = 1 then shared else shared.deleteLegacy workspace }
  | .removeWorkspace workspace succeeds => s.transaction succeeds fun t =>
    t.deleteWorkspace workspace
  | .detachWorkspace workspace succeeds => s.transaction succeeds fun t =>
    t.deleteWorkspace workspace
  | .replaceObjectsFromGc live succeeds => s.transaction succeeds fun t => t.keepLive live
  | .foreign table => if s.depth = 0 then { s with table := table, version := s.version + 1 } else s

/-- A sequence of calls. -/
def run (ops : List Op) : Catalog := ops.foldl step s

end Catalog

/-! ## A connection without memory -/

/-- A connection that keeps nothing in memory: every lookup is a `SELECT`, and every row is
written. -/
structure Plain where
  table : Table
  saved : Table
  depth : ℕ

namespace Plain

variable (s : Plain)

/-- A transaction of its own. -/
def transaction (succeeds : Bool) (f : Table → Table) : Plain :=
  if s.depth = 0 ∧ succeeds then { s with table := f s.table } else s

/-- One call, or a commit of another connection. -/
def step : Op → Plain
  | .retainFileCache => s
  | .cachedFile _ _ => s
  | .cacheFile workspace path file succeeds =>
    if succeeds then { s with table := s.table.upsert workspace path file } else s
  | .enter begins =>
    if s.depth ≠ 0 then { s with depth := s.depth + 1 }
    else if ¬ begins then s
    else { s with depth := 1, saved := s.table }
  | .leave succeeds commits =>
    if s.depth = 0 then s
    else if s.depth ≠ 1 then { s with depth := s.depth - 1 }
    else if succeeds ∧ commits then { s with depth := 0 }
    else { s with depth := 0, table := s.saved }
  | .forgetCaptureCaches succeeds => if succeeds then { s with table := fun _ _ => none } else s
  | .shareLegacyFileRows workspace folder statements =>
    if statements = 0 then s
    else
      let shared := s.table.shareLegacy workspace folder
      { s with table := if statements = 1 then shared else shared.deleteLegacy workspace }
  | .removeWorkspace workspace succeeds => s.transaction succeeds fun t =>
    t.deleteWorkspace workspace
  | .detachWorkspace workspace succeeds => s.transaction succeeds fun t =>
    t.deleteWorkspace workspace
  | .replaceObjectsFromGc live succeeds => s.transaction succeeds fun t => t.keepLive live
  | .foreign table => if s.depth = 0 then { s with table := table } else s

end Plain

namespace Catalog

variable {s : Catalog}

/-- What a connection without memory would be. -/
def plain (s : Catalog) : Plain := ⟨s.table, s.saved, s.depth⟩

/-! ## The rows in memory -/

/-- The rows in memory are those of the table, unless another connection committed and the next call
will see it. -/
structure Mirrors (s : Catalog) : Prop where
  rows : ∀ workspace rows, s.files workspace = some rows →
    s.depth ≠ 0 ∨ s.dataVersion = s.version → rows = s.table workspace
  seen : s.dataVersion ≤ s.version
  retained : s.retainFiles = false → ∀ workspace, s.files workspace = none

/-- The rows in memory are those of the table. -/
def Exact (s : Catalog) : Prop := ∀ workspace rows, s.files workspace = some rows →
    rows = s.table workspace

/-- Forgetting what is retained leaves the table. -/
@[simp] theorem clear_table : s.clear.table = s.table := rfl

/-- Forgetting what is retained leaves the savepoints. -/
@[simp] theorem clear_saved : s.clear.saved = s.saved := rfl

/-- Forgetting what is retained leaves their number. -/
@[simp] theorem clear_depth : s.clear.depth = s.depth := rfl

/-- Forgetting what is retained is not seen. -/
@[simp] theorem clear_plain : s.clear.plain = s.plain := rfl

/-- There are as many savepoints as before. -/
@[simp] theorem plain_depth : s.plain.depth = s.depth := rfl

/-- A catalog that was just opened retains nothing wrong. -/
theorem mirrors_opened (table : Table) (version : ℕ) : (opened table version).Mirrors where
  rows := fun _ _ h => absurd h (by simp [opened])
  seen := by
    simp only [opened]
    omega
  retained := fun _ _ => rfl

/-- Where nothing is in memory, the table may be any. -/
theorem Mirrors.of_clear {t : Catalog} (h : s.Mirrors)
    (hfiles : ∀ workspace, t.files workspace = none) (hversion : t.version = s.version)
    (hseen : t.dataVersion = s.dataVersion) : t.Mirrors where
  rows := fun workspace _ hrows => absurd hrows (by simp [hfiles workspace])
  seen := by
    rw [hversion, hseen]
    exact h.seen
  retained := fun _ => hfiles

/-- A refresh is not seen. -/
theorem refreshFileCache_plain : s.refreshFileCache.plain = s.plain := by
  unfold refreshFileCache
  split_ifs <;> rfl

/-- Making the rows current is not seen. -/
theorem current_plain : s.current.plain = s.plain := by
  unfold current
  split_ifs
  · exact refreshFileCache_plain
  · rfl

/-- Making the rows current leaves the table. -/
theorem current_table : s.current.table = s.table := congrArg Plain.table current_plain

/-- What is in memory after a look at the version is right. -/
theorem Mirrors.refreshFileCache (h : s.Mirrors) :
    s.refreshFileCache.Mirrors ∧ s.refreshFileCache.Exact := by
  unfold Catalog.refreshFileCache
  split_ifs with hretain hversion
  · refine ⟨⟨?_, le_rfl, fun _ _ => rfl⟩, ?_⟩
    · exact fun workspace rows hrows => absurd hrows (by simp [clear])
    · exact fun workspace rows hrows => absurd hrows (by simp [clear])
  · have heq : s.dataVersion = s.version := not_not.mp hversion
    exact ⟨⟨fun workspace rows hrows _ => h.rows workspace rows hrows (Or.inr heq),
      le_rfl, h.retained⟩, fun workspace rows hrows => h.rows workspace rows hrows (Or.inr heq)⟩
  · have hnone := h.retained (by simpa using hretain)
    exact ⟨h, fun workspace rows hrows => absurd hrows (by simp [hnone workspace])⟩

/-- The rows that are current are those of the table. -/
theorem Mirrors.current (h : s.Mirrors) : s.current.Mirrors ∧ s.current.Exact := by
  unfold Catalog.current
  split_ifs with hdepth
  · exact h.refreshFileCache
  · exact ⟨h, fun workspace rows hrows => h.rows workspace rows hrows (Or.inl hdepth)⟩

/-- Loading the rows of a workspace is not seen. -/
theorem load_plain (workspace : String) : (s.load workspace).plain = s.plain := by
  unfold load
  split <;> rfl

/-- Rows that are read are those of the table. -/
theorem load_files (h : s.Exact) (workspace : String) :
    (s.load workspace).files workspace = some (s.table workspace) := by
  unfold load
  split
  · next rows hrows => rw [hrows, h workspace rows hrows]
  · exact Function.update_self _ _ _

/-- Loading the rows of a workspace retains what the table has. -/
theorem Mirrors.load (h : s.Mirrors) (hretain : s.retainFiles = true) (workspace : String) :
    (s.load workspace).Mirrors := by
  unfold Catalog.load
  split
  · exact h
  · refine ⟨?_, h.seen, fun hfalse => absurd hfalse (by simp [hretain])⟩
    intro other rows hrows hcurrent
    dsimp only at hrows ⊢
    by_cases hother : other = workspace
    · subst hother
      rw [Function.update_self] at hrows
      exact (Option.some.inj hrows).symm
    · rw [Function.update_of_ne hother] at hrows
      exact h.rows other rows hrows hcurrent

/-- **A lookup finds what the table holds.** -/
theorem cachedFile_eq (h : s.Mirrors) (workspace : String) (path : Bytes) :
    (s.cachedFile workspace path).1 = s.table workspace path := by
  unfold cachedFile
  split_ifs
  · dsimp only
    rw [load_files h.current.2, current_table, Option.bind_some]
  · rfl

/-- A write that is skipped would leave the table as it is. -/
theorem upsert_eq_of_skips (h : s.Mirrors) {workspace : String} {path : Bytes} {file : CachedFile}
    (hskips : s.skips workspace path file = true) :
    s.table.upsert workspace path file = s.table := by
  have hbind : ((s.current.files workspace).bind fun rows => rows path) = some file := by
    simpa [skips] using hskips
  obtain ⟨rows, hrows, hpath⟩ := Option.bind_eq_some_iff.mp hbind
  have htable : s.table workspace path = some file := by
    rw [← hpath, h.current.2 workspace rows hrows, current_table]
  unfold Table.upsert
  rw [← htable, Function.update_eq_self, Function.update_eq_self]

/-! ## Runs -/

/-- A row that is cached is retained as it is stored. -/
theorem Mirrors.cacheFile (h : s.Mirrors) (workspace : String) (path : Bytes) (file : CachedFile)
    (succeeds : Bool) : (s.cacheFile workspace path file succeeds).Mirrors := by
  unfold Catalog.cacheFile
  split_ifs
  · exact h.current.1
  · refine ⟨?_, h.current.1.seen, ?_⟩
    · intro other rows hrows _
      have hupdate : Function.update s.current.files workspace ((s.current.files workspace).map
          fun rows => Function.update rows path (some file)) other = some rows := hrows
      by_cases hother : other = workspace
      · subst hother
        rw [Function.update_self, Option.map_eq_some_iff] at hupdate
        obtain ⟨before, hbefore, rfl⟩ := hupdate
        rw [h.current.2 other before hbefore]
        exact (Table.upsert_self _ other path file).symm
      · rw [Function.update_of_ne hother] at hupdate
        rw [h.current.2 other rows hupdate]
        exact (Table.upsert_of_ne _ hother path file).symm
    · intro hretain other
      have hnone := h.current.1.retained hretain
      by_cases hother : other = workspace
      · subst hother
        simp [hnone other]
      · simp [hnone other, Function.update_of_ne hother]
  · exact h.current.1

/-- A transaction of another table retains nothing wrong. -/
theorem Mirrors.transaction (h : s.Mirrors) (succeeds : Bool) (f : Table → Table) :
    (s.transaction succeeds f).Mirrors := by
  unfold Catalog.transaction
  split_ifs <;> exact h.of_clear (fun _ => rfl) rfl rfl

/-- Every call keeps the rows in memory right. -/
theorem Mirrors.step (h : s.Mirrors) (op : Op) : (s.step op).Mirrors := by
  cases op with
  | retainFileCache => exact ⟨h.rows, h.seen, fun hfalse => absurd hfalse (by simp [Catalog.step])⟩
  | cachedFile workspace path =>
    simp only [Catalog.step, Catalog.cachedFile]
    split_ifs with hretain
    · refine h.current.1.load ?_ workspace
      have hkept : s.current.retainFiles = s.retainFiles := by
        unfold Catalog.current Catalog.refreshFileCache
        split_ifs <;> rfl
      rw [hkept, hretain]
    · exact h
  | cacheFile workspace path file succeeds => exact h.cacheFile workspace path file succeeds
  | enter begins =>
    simp only [Catalog.step]
    split_ifs with hdepth
    · exact ⟨fun workspace rows hrows _ => h.rows workspace rows hrows (Or.inl hdepth),
        h.seen, h.retained⟩
    · obtain ⟨hmirrors, hexact⟩ := h.refreshFileCache
      exact ⟨fun workspace rows hrows _ => hexact workspace rows hrows, hmirrors.seen,
        hmirrors.retained⟩
    · exact h
  | leave succeeds commits =>
    simp only [Catalog.step]
    split_ifs with hdepth
    · exact h
    · exact ⟨fun workspace rows hrows _ => h.rows workspace rows hrows (Or.inl hdepth),
        h.seen, h.retained⟩
    · exact ⟨fun workspace rows hrows _ => h.rows workspace rows hrows (Or.inl hdepth),
        h.seen, h.retained⟩
    · exact h.of_clear (fun _ => rfl) rfl rfl
  | forgetCaptureCaches succeeds =>
    simp only [Catalog.step]
    split_ifs <;> exact h.of_clear (fun _ => rfl) rfl rfl
  | shareLegacyFileRows workspace folder statements =>
    simp only [Catalog.step]
    split_ifs <;> exact h.of_clear (fun _ => rfl) rfl rfl
  | removeWorkspace workspace succeeds =>
    exact h.transaction succeeds (fun t => t.deleteWorkspace workspace)
  | detachWorkspace workspace succeeds =>
    exact h.transaction succeeds (fun t => t.deleteWorkspace workspace)
  | replaceObjectsFromGc live succeeds => exact h.transaction succeeds (fun t => t.keepLive live)
  | foreign table =>
    simp only [Catalog.step]
    split_ifs with hdepth
    · have hseen := h.seen
      refine ⟨fun workspace rows hrows hcurrent => ?_, ?_, h.retained⟩
      · -- The version is one that was not seen yet.
        rcases hcurrent with hopen | heq
        · exact absurd hdepth hopen
        · dsimp only at heq
          push_cast at heq
          omega
      · dsimp only
        push_cast
        omega
    · exact h

/-- Any calls retain nothing wrong. -/
theorem Mirrors.run (h : s.Mirrors) (ops : List Op) : (s.run ops).Mirrors := by
  unfold Catalog.run
  induction ops generalizing s with
  | nil => exact h
  | cons op ops ih => exact ih (h.step op)

/-- A transaction is one of the plain catalog. -/
theorem transaction_plain (succeeds : Bool) (f : Table → Table) :
    (s.transaction succeeds f).plain = s.plain.transaction succeeds f := by
  unfold transaction Plain.transaction plain
  dsimp only
  split_ifs <;> rfl

/-- Every call does to the table what it does without memory. -/
theorem plain_step (h : s.Mirrors) (op : Op) : (s.step op).plain = s.plain.step op := by
  cases op with
  | retainFileCache => rfl
  | cachedFile workspace path =>
    simp only [step, cachedFile, Plain.step]
    split_ifs
    · exact (load_plain workspace).trans current_plain
    · rfl
  | cacheFile workspace path file succeeds =>
    simp only [step, cacheFile, Plain.step]
    by_cases hskips : s.skips workspace path file = true
    · rw [if_pos hskips, current_plain]
      split_ifs
      · exact congrArg (fun t => (⟨t, s.saved, s.depth⟩ : Plain)) (upsert_eq_of_skips h hskips).symm
      · rfl
    · rw [if_neg hskips]
      cases succeeds with
      | false => exact current_plain
      | true =>
        have hplain := current_plain (s := s)
        simp only [plain, Plain.mk.injEq] at hplain ⊢
        simp [hplain.1, hplain.2.1, hplain.2.2]
  | enter begins =>
    have htable : s.refreshFileCache.table = s.table := congrArg Plain.table refreshFileCache_plain
    by_cases hdepth : s.depth = 0
    · cases begins with
      | false => simp [step, Plain.step, plain, hdepth]
      | true => simp [step, Plain.step, plain, hdepth, htable]
    · simp [step, Plain.step, plain, hdepth]
  | leave succeeds commits =>
    by_cases hdepth : s.depth = 0
    · simp [step, Plain.step, hdepth]
    · by_cases hone : s.depth = 1
      · cases succeeds <;> cases commits <;> simp [step, Plain.step, plain, hone, clear]
      · simp [step, Plain.step, plain, hdepth, hone]
  | forgetCaptureCaches succeeds =>
    simp only [step, Plain.step, plain_depth]
    split_ifs <;> rfl
  | shareLegacyFileRows workspace folder statements =>
    simp only [step, Plain.step, plain_depth]
    split_ifs <;> rfl
  | removeWorkspace workspace succeeds =>
    exact transaction_plain succeeds (fun t => t.deleteWorkspace workspace)
  | detachWorkspace workspace succeeds =>
    exact transaction_plain succeeds (fun t => t.deleteWorkspace workspace)
  | replaceObjectsFromGc live succeeds =>
    exact transaction_plain succeeds (fun t => t.keepLive live)
  | foreign table =>
    by_cases hdepth : s.depth = 0 <;> simp [step, Plain.step, plain, hdepth]

/-- **The tables are those of a connection that keeps nothing in memory.** -/
theorem plain_run (h : s.Mirrors) (ops : List Op) :
    (s.run ops).plain = ops.foldl Plain.step s.plain := by
  unfold run
  induction ops generalizing s with
  | nil => rfl
  | cons op ops ih =>
    rw [List.foldl_cons, List.foldl_cons, ih (h.step op), plain_step h op]

/-- **The rows in memory are invisible**: after any calls, a lookup returns what the `SELECT`
returns in the transaction that is open, and a write that is skipped would not change the table; and
the table is that of a connection that keeps nothing in memory. -/
theorem retained_invisible (table : Table) (version : ℕ) (ops : List Op) :
    let s := (opened table version).run ops
    (∀ workspace path, (s.cachedFile workspace path).1 = s.table workspace path) ∧
    (∀ workspace path file, s.skips workspace path file = true →
      s.table.upsert workspace path file = s.table) ∧
    s.plain = ops.foldl Plain.step (opened table version).plain := by
  have h := (mirrors_opened table version).run ops
  exact ⟨cachedFile_eq h, fun _ _ _ => upsert_eq_of_skips h,
    plain_run (mirrors_opened table version) ops⟩

end Catalog

end Retained

end Furrow
