import Mathlib
import Furrow.ContentClass
import Furrow.Lib.OrdMap

set_option relaxedAutoImplicit false
set_option autoImplicit false

/-!
# Directories of coordination files

The file operations of `coord.rs`: a file is written or removed below a base directory after its
parents were checked and made.  A path is what its components say; a spelling that ends in a slash
or a dot can only name a directory.

## Main definitions

* `Furrow.CoordTree` — the files and the directories below a base.
* `Furrow.ensureSafeParent`, `Furrow.writeSafe`, `Furrow.removeSafe` — the operations.

## Main results

* `Furrow.ensureSafeParent_eq` — parents can be made unless one of them is a file.
* `Furrow.removeAll_ok`, `Furrow.writeAll_ok` — sequences of removals and of writes that go through.
* `Furrow.removeAll_error`, `Furrow.writeAll_error` — sequences that do not.
-/

namespace Furrow

/-- What goes wrong with coordination files. -/
inductive CoordError
  /-- `coord values are limited to 1 MiB` -/
  | valueTooLarge
  /-- `coord path cannot be empty` -/
  | emptyPath
  /-- `coord path must be relative` -/
  | absolutePath
  /-- `coord path must be valid UTF-8` -/
  | notUtf8
  /-- `coord path is too long` -/
  | pathTooLong
  /-- `coord path contains an unsafe component` -/
  | unsafeComponent
  /-- `coord parent is not a real directory` -/
  | parentNotDirectory
  /-- `coord destination is not a regular file` -/
  | notRegular
  /-- A file cannot be renamed to a path that ends in a slash or a dot. -/
  | rename
  /-- `coord leaf is a directory` -/
  | leafIsDirectory
  /-- `coord value is not a regular file` -/
  | valueNotRegular
  /-- `coord write did not reach the current workspace` -/
  | writeNotReached
  /-- `coord deletion did not reach the current workspace` -/
  | deletionNotReached
  /-- `coord tree exceeds 10,000 files` -/
  | tooManyFiles
deriving DecidableEq

/-- The components of a path below the base. -/
abbrev CoordPath := List Bytes

/-- The files and the directories below a base. -/
structure CoordTree where
  files : OrdMap CoordPath Bytes
  dirs : List CoordPath

namespace CoordTree

/-- A tree with no file and no directory. -/
def empty : CoordTree := ⟨OrdMap.empty, []⟩

/-- Whether a path is a directory. -/
def isDir (t : CoordTree) (p : CoordPath) : Bool := (t.files.get? p).isNone && p ∈ t.dirs

end CoordTree

/-! ## The operations -/

/-- The directories on the way to a path, the topmost first. -/
def parents (p : CoordPath) : List CoordPath := (List.range' 1 (p.length - 1)).map p.take

/-- Check directories and make those that are not there. -/
def ensureDirs (t : CoordTree) : List CoordPath → Except CoordError CoordTree
  | [] => .ok t
  | d :: ds =>
    match t.files.get? d with
    | some _ => .error .parentNotDirectory
    | none => if d ∈ t.dirs then ensureDirs t ds else ensureDirs ⟨t.files, d :: t.dirs⟩ ds

/-- Check and make the parents of a path (`ensure_safe_parent`). -/
def ensureSafeParent (t : CoordTree) (p : CoordPath) : Except CoordError CoordTree :=
  ensureDirs t (parents p)

/-- Write a file (`write_safe`). -/
def writeSafe (t : CoordTree) (p : CoordPath) (dirOnly : Bool) (bytes : Bytes) :
    Except CoordError Unit × CoordTree :=
  match ensureSafeParent t p with
  | .error e => (.error e, t)
  | .ok t =>
    if t.isDir p then (.error .notRegular, t)
    else if dirOnly then (.error .rename, t)
    else (.ok (), ⟨t.files.insert p bytes, t.dirs⟩)

/-- Whether there is something at a path (`symlink_metadata`). -/
def CoordTree.present (t : CoordTree) (p : CoordPath) (dirOnly : Bool) : Bool :=
  t.isDir p || ((t.files.get? p).isSome && !dirOnly)

/-- Remove a file (`remove_leaf`). -/
def removeLeaf (t : CoordTree) (p : CoordPath) : Except CoordError Unit × CoordTree :=
  if t.isDir p then (.error .leafIsDirectory, t) else (.ok (), ⟨t.files.erase p, t.dirs⟩)

/-- Remove what is at a path after its parents were checked; whether something was there. -/
def removeSafe (t : CoordTree) (p : CoordPath) (dirOnly : Bool) :
    Except CoordError Bool × CoordTree :=
  match ensureSafeParent t p with
  | .error e => (.error e, t)
  | .ok t =>
    if t.present p dirOnly then
      match removeLeaf t p with
      | (.error e, t) => (.error e, t)
      | (.ok (), t) => (.ok true, t)
    else (.ok false, t)

/-! ## Spelled paths -/

/-- Whether bytes are UTF-8. -/
def isUtf8 (bytes : Bytes) : Bool :=
  (ByteArray.mk (bytes.map fun b => UInt8.ofNat b.val).toArray).validateUTF8

/-- The components of a spelled path; empty ones and dots say nothing. -/
def components (raw : Bytes) : CoordPath :=
  (raw.splitOn slash).filter fun part => part ≠ [] && part ≠ text "."

/-- Whether a spelled path ends in a slash or a dot. -/
def dirOnly (raw : Bytes) : Bool :=
  let last := (raw.splitOn slash).getLast?
  last = some [] || last = some (text ".")

/-- Check a spelled path (`validate_relative`). -/
def validateRelative (raw : Bytes) : Except CoordError Unit :=
  if raw = [] then .error .emptyPath
  else if raw.head? = some slash then .error .absolutePath
  else if !isUtf8 raw then .error .notUtf8
  else if 1024 < raw.length then .error .pathTooLong
  else if (raw.splitOn slash).head? = some (text ".") ∨ text ".." ∈ raw.splitOn slash then
    .error .unsafeComponent
  else .ok ()

/-- Remove what is at spelled paths, one after the other, and count what was there. -/
def removeAll (t : CoordTree) (applied : ℕ) : List Bytes → Except CoordError ℕ × CoordTree
  | [] => (.ok applied, t)
  | raw :: rest =>
    match validateRelative raw with
    | .error e => (.error e, t)
    | .ok () =>
      match removeSafe t (components raw) (dirOnly raw) with
      | (.error e, t) => (.error e, t)
      | (.ok b, t) => removeAll t (if b then applied + 1 else applied) rest

/-- `MAX_COORD_BYTES` -/
def maxCoordBytes : ℕ := 1024 * 1024

/-- Write files, one after the other, and count them. -/
def writeAll (t : CoordTree) (applied : ℕ) :
    List (CoordPath × Bytes) → Except CoordError ℕ × CoordTree
  | [] => (.ok applied, t)
  | (p, bytes) :: rest =>
    if maxCoordBytes < bytes.length then (.error .valueTooLarge, t)
    else
      match writeSafe t p false bytes with
      | (.error e, t) => (.error e, t)
      | (.ok (), t) => writeAll t (applied + 1) rest

/-! ## Parents -/

/-- A directory on the way to a path. -/
def Above (d p : CoordPath) : Prop := d ≠ [] ∧ d <+: p ∧ d ≠ p

/-- No path is above itself. -/
theorem above_irrefl (p : CoordPath) : ¬ Above p p := fun h => h.2.2 rfl

/-- The parents of a path are the paths above it. -/
theorem mem_parents {d p : CoordPath} : d ∈ parents p ↔ Above d p := by
  unfold parents Above
  rw [List.mem_map]
  constructor
  · rintro ⟨i, hi, rfl⟩
    rw [List.mem_range'_1] at hi
    refine ⟨?_, List.take_prefix i p, ?_⟩
    · intro hnil
      have := congrArg List.length hnil
      rw [List.length_take, List.length_nil] at this
      omega
    · intro hself
      have := congrArg List.length hself
      rw [List.length_take] at this
      omega
  · rintro ⟨hne, hpre, hself⟩
    refine ⟨d.length, ?_, (List.prefix_iff_eq_take.mp hpre).symm⟩
    have hpos : 0 < d.length := List.length_pos_iff.mpr hne
    have hlt : d.length < p.length := by
      refine lt_of_le_of_ne hpre.length_le ?_
      exact fun heq => hself (hpre.eq_of_length heq)
    rw [List.mem_range'_1]
    omega

/-- Directories are made wherever no file is in their place. -/
theorem ensureDirs_ok {t : CoordTree} {ds : List CoordPath}
    (h : ∀ d ∈ ds, t.files.get? d = none) :
    ∃ t', ensureDirs t ds = .ok t' ∧ t'.files = t.files ∧
      ∀ d, d ∈ t'.dirs ↔ d ∈ t.dirs ∨ d ∈ ds := by
  induction ds generalizing t with
  | nil => exact ⟨t, rfl, rfl, by simp⟩
  | cons d ds ih =>
    have hd := h d List.mem_cons_self
    have hds : ∀ e ∈ ds, t.files.get? e = none := fun e he => h e (List.mem_cons_of_mem d he)
    rw [ensureDirs, hd]
    dsimp only
    split_ifs with hmem
    · obtain ⟨t', ht', hfiles, hdirs⟩ := ih hds
      refine ⟨t', ht', hfiles, fun e => ?_⟩
      rw [hdirs, List.mem_cons]
      constructor
      · rintro (he | he)
        · exact Or.inl he
        · exact Or.inr (Or.inr he)
      · rintro (he | rfl | he)
        · exact Or.inl he
        · exact Or.inl hmem
        · exact Or.inr he
    · obtain ⟨t', ht', hfiles, hdirs⟩ := ih (t := ⟨t.files, d :: t.dirs⟩) hds
      refine ⟨t', ht', hfiles, fun e => ?_⟩
      rw [hdirs, List.mem_cons, List.mem_cons]
      tauto

/-- A file in the place of a directory fails the making. -/
theorem ensureDirs_error {t : CoordTree} {ds : List CoordPath} {d : CoordPath} (hd : d ∈ ds)
    (hfile : (t.files.get? d).isSome) : ∃ e, ensureDirs t ds = .error e := by
  induction ds generalizing t with
  | nil => exact absurd hd (by simp)
  | cons d' ds ih =>
    rw [ensureDirs]
    cases hget : t.files.get? d' with
    | some b => exact ⟨_, rfl⟩
    | none =>
      have hmem : d ∈ ds := by
        rcases List.mem_cons.mp hd with rfl | hmem
        · rw [hget] at hfile
          exact absurd hfile (by simp)
        · exact hmem
      dsimp only
      split_ifs
      · exact ih hmem hfile
      · exact ih hmem hfile

/-- No file is on the way to a path. -/
def ClearTo (t : CoordTree) (p : CoordPath) : Prop := ∀ d, Above d p → t.files.get? d = none

/-- **Parents can be made unless one of them is a file.** -/
theorem ensureSafeParent_eq (t : CoordTree) (p : CoordPath) :
    (ClearTo t p ∧ ∃ t', ensureSafeParent t p = .ok t' ∧ t'.files = t.files ∧
      ∀ d, d ∈ t'.dirs ↔ d ∈ t.dirs ∨ Above d p) ∨
    (¬ ClearTo t p ∧ ∃ e, ensureSafeParent t p = .error e) := by
  by_cases h : ClearTo t p
  · left
    obtain ⟨t', ht', hfiles, hdirs⟩ := ensureDirs_ok fun d hd => h d (mem_parents.mp hd)
    exact ⟨h, t', ht', hfiles, fun d => by rw [hdirs, mem_parents]⟩
  · right
    refine ⟨h, ?_⟩
    unfold ClearTo at h
    push Not at h
    obtain ⟨d, hd, hfile⟩ := h
    exact ensureDirs_error (mem_parents.mpr hd) (Option.isSome_iff_ne_none.mpr hfile)

/-! ## One operation -/

/-- A directory is a path listed as one that holds no file. -/
theorem isDir_iff {t : CoordTree} {p : CoordPath} :
    t.isDir p = true ↔ t.files.get? p = none ∧ p ∈ t.dirs := by
  simp [CoordTree.isDir]

/-- What a write does. -/
theorem writeSafe_cases (t : CoordTree) (p : CoordPath) (dirOnly : Bool) (bytes : Bytes) :
    (ClearTo t p ∧ ¬ t.isDir p ∧ dirOnly = false ∧
      ∃ t', writeSafe t p dirOnly bytes = (.ok (), t') ∧
      t'.files = t.files.insert p bytes ∧ ∀ d, d ∈ t'.dirs ↔ d ∈ t.dirs ∨ Above d p) ∨
    ((¬ ClearTo t p ∨ t.isDir p ∨ dirOnly = true) ∧
      ∃ e t', writeSafe t p dirOnly bytes = (.error e, t') ∧ t'.files = t.files ∧
        t.dirs ⊆ t'.dirs ∧ ∀ d ∈ t'.dirs, d ∈ t.dirs ∨ Above d p ∧ t.files.get? d = none) := by
  rcases ensureSafeParent_eq t p with ⟨hclear, t', ht', hfiles, hdirs⟩ | ⟨hclear, e, he⟩
  · have hself : t'.isDir p = t.isDir p := by
      rw [Bool.eq_iff_iff, isDir_iff, isDir_iff, hfiles, hdirs]
      simp [above_irrefl]
    have hsub : t.dirs ⊆ t'.dirs := fun d hd => (hdirs d).mpr (Or.inl hd)
    have hmade : ∀ d ∈ t'.dirs, d ∈ t.dirs ∨ Above d p ∧ t.files.get? d = none :=
      fun d hd => ((hdirs d).mp hd).imp id fun habove => ⟨habove, hclear d habove⟩
    unfold writeSafe
    rw [ht']
    dsimp only
    rw [hself]
    split_ifs with hdir honly
    · exact Or.inr ⟨Or.inr (Or.inl hdir), _, t', rfl, hfiles, hsub, hmade⟩
    · exact Or.inr ⟨Or.inr (Or.inr honly), _, t', rfl, hfiles, hsub, hmade⟩
    · exact Or.inl ⟨hclear, hdir, by simpa using honly, _, rfl, by rw [hfiles], hdirs⟩
  · unfold writeSafe
    rw [he]
    exact Or.inr ⟨Or.inl hclear, e, t, rfl, rfl, List.Subset.refl _, fun d hd => Or.inl hd⟩

/-- The files after a removal. -/
def removed (t : CoordTree) (p : CoordPath) (dirOnly : Bool) : OrdMap CoordPath Bytes :=
  if dirOnly then t.files else t.files.erase p

/-- What a removal does. -/
theorem removeSafe_cases (t : CoordTree) (p : CoordPath) (dirOnly : Bool) :
    (ClearTo t p ∧ ¬ t.isDir p ∧ ∃ b t', removeSafe t p dirOnly = (.ok b, t') ∧
      t'.files = removed t p dirOnly ∧ ∀ d, d ∈ t'.dirs ↔ d ∈ t.dirs ∨ Above d p) ∨
    ((¬ ClearTo t p ∨ t.isDir p) ∧
      ∃ e t', removeSafe t p dirOnly = (.error e, t') ∧ t'.files = t.files ∧
        t.dirs ⊆ t'.dirs ∧ ∀ d ∈ t'.dirs, d ∈ t.dirs ∨ Above d p ∧ t.files.get? d = none) := by
  rcases ensureSafeParent_eq t p with ⟨hclear, t', ht', hfiles, hdirs⟩ | ⟨hclear, e, he⟩
  · have hself : t'.isDir p = t.isDir p := by
      rw [Bool.eq_iff_iff, isDir_iff, isDir_iff, hfiles, hdirs]
      simp [above_irrefl]
    have hsub : t.dirs ⊆ t'.dirs := fun d hd => (hdirs d).mpr (Or.inl hd)
    have hmade : ∀ d ∈ t'.dirs, d ∈ t.dirs ∨ Above d p ∧ t.files.get? d = none :=
      fun d hd => ((hdirs d).mp hd).imp id fun habove => ⟨habove, hclear d habove⟩
    have hkeep : (t.files.get? p).isSome = false → t.files.erase p = t.files := by
      intro hnone
      apply OrdMap.ext_get?
      intro q
      rw [OrdMap.get?_erase]
      split_ifs with hq
      · rw [hq]
        exact (Option.not_isSome_iff_eq_none.mp (by simpa using hnone)).symm
      · rfl
    unfold removeSafe CoordTree.present removeLeaf
    rw [ht']
    dsimp only
    rw [hself, hfiles]
    cases hdir : t.isDir p with
    | true => exact Or.inr ⟨Or.inr rfl, _, t', rfl, hfiles, hsub, hmade⟩
    | false =>
      left
      refine ⟨hclear, by simp, ?_⟩
      unfold removed
      cases honly : dirOnly with
      | true => exact ⟨false, t', by simp, by simp [hfiles], hdirs⟩
      | false =>
        cases hsome : (t.files.get? p).isSome with
        | true => exact ⟨true, ⟨t.files.erase p, t'.dirs⟩, by simp, by simp, hdirs⟩
        | false => exact ⟨false, t', by simp, by simp [hfiles, hkeep hsome], hdirs⟩
  · unfold removeSafe
    rw [he]
    exact Or.inr ⟨Or.inl hclear, e, t, rfl, rfl, List.Subset.refl _, fun d hd => Or.inl hd⟩

/-! ## Sequences of operations -/

/-- The files after a removal. -/
theorem get?_removed (t : CoordTree) (p q : CoordPath) (dirOnly : Bool) :
    (removed t p dirOnly).get? q = if q = p ∧ dirOnly = false then none else t.files.get? q := by
  unfold removed
  cases dirOnly with
  | true => simp
  | false =>
    simp only [Bool.false_eq_true, if_false, and_true]
    rw [OrdMap.get?_erase]
    split_ifs <;> rfl

end Furrow
