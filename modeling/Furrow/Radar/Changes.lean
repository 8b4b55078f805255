import Furrow.Radar.Conflicts

set_option relaxedAutoImplicit false
set_option autoImplicit false

/-!
# What a fork has changed

The scopes of a fork as a function of the two trees, and what an observation makes of the scopes
that are stored.  An observation visits the paths where the head that was seen last and the new
one differ, a directory before what is in it, and computes the scopes of each from the base and
the new head.  So the scopes of one path pass through the visits of the names above it, one after
the other: this is followed name by name, through the base and the two heads at once.

## Main definitions

* `Furrow.Dir.entryAt`, `Furrow.Dir.descend` — lookups along a list of names.
* `Furrow.changedRows` — the scopes of a path, from the base and a head.
* `Furrow.walkRows` — what an observation makes of the scopes of a path.
* `Furrow.Converges` — the steps from one head to the next that keep the scopes exact.

## Main results

* `Furrow.walkRows_changedRows` — in such a step the scopes of a head become those of the next.
-/

namespace Furrow

/-! ## Lookups along names -/

/-- The entry of a name. -/
def Dir.entry (D : Dir) (n : Bytes) : Option TreeEntry := entryNamed n D.entries

/-- The entry at the end of a list of names. -/
def Dir.entryAt : Dir → List Bytes → Option TreeEntry
  | _, [] => none
  | D, [n] => D.entry n
  | D, n :: m :: rest => (D.subdir n).entryAt (m :: rest)

/-- The directory at the end of a list of names, if there is one. -/
def Dir.descend : Dir → List Bytes → Option Dir
  | D, [] => some D
  | D, n :: rest => if entryIsDirectory (D.entry n) then (D.subdir n).descend rest else none

/-- Nothing is no directory. -/
@[simp] theorem entryIsDirectory_none : entryIsDirectory none = false := rfl

/-- The empty directory has no entry. -/
@[simp] theorem Dir.entry_nil (n : Bytes) : Dir.nil.entry n = none := rfl

/-- The empty directory has nothing below it. -/
@[simp] theorem Dir.entryAt_nil (names : List Bytes) : Dir.nil.entryAt names = none := by
  induction names with
  | nil => rfl
  | cons n rest ih =>
    cases rest with
    | nil => rfl
    | cons m rest => exact ih

/-- Whether a file lies in a directory whose class conflicts are looked for in. -/
def Dir.hasLeaf (D : Dir) : Bool :=
  D.flat.any fun p => p.2.kind ≠ .Directory && relevant p.2.contentClass

/-! ## The rows of a path -/

/-- What is stored for a path, for each scope. -/
abbrev Rows := Scope → Option ScopeAction

/-- Nothing is stored. -/
def Rows.clear : Rows := fun _ => none

/-- One row, on a condition. -/
def Rows.onlyIf (condition : Bool) (scope : Scope) (action : ScopeAction) : Rows :=
  fun s => if condition && s = scope then some action else none

/-- A condition that fails gives no row. -/
@[simp] theorem Rows.onlyIf_false (scope : Scope) (action : ScopeAction) :
    Rows.onlyIf false scope action = Rows.clear := by
  funext s
  simp [Rows.onlyIf, Rows.clear]

/-- The rows that a visit of a path stores for the path itself; `sub` is what the head has below
it. -/
def visitedRows (base head : Option TreeEntry) (sub : Dir) : Rows :=
  match base, head with
  | some left, some right =>
    if left.kind = .Directory ∧ right.kind = .Directory then
      Rows.onlyIf (!directoryMetadataEqual left right && relevant right.contentClass)
        .exact .modify
    else if entryIsDirectory base != entryIsDirectory head then
      Rows.onlyIf (relevant left.contentClass || relevant right.contentClass) .subtree .modify
    else if entrySemanticallyEqual left right then Rows.clear
    else Rows.onlyIf (relevant left.contentClass || relevant right.contentClass) .exact .modify
  | some left, none =>
    Rows.onlyIf (relevant left.contentClass)
      (if left.kind = .Directory then .subtree else .exact) .delete
  | none, some right =>
    if right.kind = .Directory then
      Rows.onlyIf (!sub.hasLeaf && relevant right.contentClass) .exact .add
    else Rows.onlyIf (relevant right.contentClass) .exact .add
  | none, none => Rows.clear

/-- The rows of a file in a directory that was added. -/
def leafRows (leaf : Option TreeEntry) : Rows :=
  match leaf with
  | some e => Rows.onlyIf (e.kind ≠ .Directory && relevant e.contentClass) .exact .add
  | none => Rows.clear

/-- Nothing has no rows. -/
@[simp] theorem leafRows_none : leafRows none = Rows.clear := rfl

/-- What a visit of a path makes of the rows of a path below it, where the head has `leaf`. -/
def belowRows (base head leaf : Option TreeEntry) (old : Rows) : Rows :=
  if entryIsDirectory base = entryIsDirectory head then old
  else if base.isNone then leafRows leaf
  else Rows.clear

/-- **The rows of a path, from the base and a head.**  Where one of the two has no directory on
the way, the files of an added directory are all there is. -/
def changedRows : Dir → Dir → List Bytes → Rows
  | _, _, [] => Rows.clear
  | B, H, [n] => visitedRows (B.entry n) (H.entry n) (H.subdir n)
  | B, H, n :: m :: rest =>
    if entryIsDirectory (B.entry n) && entryIsDirectory (H.entry n) then
      changedRows (B.subdir n) (H.subdir n) (m :: rest)
    else if (B.entry n).isNone then leafRows ((H.subdir n).entryAt (m :: rest))
    else Rows.clear

/-- **What an observation makes of the rows of a path**, by the visits of the names on the way:
`P` is the head that was seen last and `H` the new one. -/
def walkRows : Dir → Dir → Dir → List Bytes → Rows → Rows
  | _, _, _, [], old => old
  | B, P, H, [n], old =>
    if P.entry n = H.entry n then old else visitedRows (B.entry n) (H.entry n) (H.subdir n)
  | B, P, H, n :: m :: rest, old =>
    if P.entry n = H.entry n then old
    else
      let below := belowRows (B.entry n) (H.entry n) ((H.subdir n).entryAt (m :: rest)) old
      if entryIsDirectory (P.entry n) && entryIsDirectory (H.entry n) then
        walkRows (B.subdir n) (P.subdir n) (H.subdir n) (m :: rest) below
      else below

/-! ## Steps that keep the rows exact -/

/-- Whether a path that is in one of two trees, or differs between them, has scopes; `sub` is what
the second has below it. -/
def recorded (base head : Option TreeEntry) (sub : Dir) : Bool :=
  match base, head with
  | some left, some right =>
    if left.kind = .Directory ∧ right.kind = .Directory then
      !directoryMetadataEqual left right && relevant right.contentClass
    else !entrySemanticallyEqual left right &&
      (relevant left.contentClass || relevant right.contentClass)
  | some left, none => relevant left.contentClass
  | none, some right => relevant right.contentClass || right.kind = .Directory && sub.hasLeaf
  | none, none => false

/-- A directory of a class that conflicts are looked for in, without any file of one. -/
def bareDirectory (entry : Option TreeEntry) (sub : Dir) : Bool :=
  match entry with
  | some e => e.kind = .Directory && relevant e.contentClass && !sub.hasLeaf
  | none => false

/-- What holds of all names in the directories that two trees share. -/
def EverywhereIn (L R : Dir) (p : Dir → Dir → Bytes → Prop) : Prop :=
  ∀ names L' R', L.descend names = some L' → R.descend names = some R' → ∀ n, p L' R' n

/-- The rows below one name stay exact. -/
structure ConvergesAt (B P H : Dir) (n : Bytes) : Prop where
  /-- A directory of the base that was gone comes back with nothing to record below it. -/
  restored : entryIsDirectory (B.entry n) → ¬ entryIsDirectory (P.entry n) →
    entryIsDirectory (H.entry n) → EverywhereIn (B.subdir n) (H.subdir n) fun B' H' m =>
      ¬ recorded (B'.entry m) (H'.entry m) (H'.subdir m)
  /-- A directory that the base does not have goes away only if no file in it was recorded. -/
  dropped : B.entry n = none → entryIsDirectory (P.entry n) → ¬ entryIsDirectory (H.entry n) →
    ¬ (P.subdir n).hasLeaf
  /-- In a directory that the base does not have, no directory without files is changed. -/
  added : B.entry n = none → entryIsDirectory (P.entry n) → entryIsDirectory (H.entry n) →
    EverywhereIn (P.subdir n) (H.subdir n) fun P' H' m =>
      P'.entry m ≠ H'.entry m → ¬ bareDirectory (H'.entry m) (H'.subdir m)
  /-- In a directory that replaces a file of the base, nothing that is recorded is changed. -/
  replacing : B.entry n ≠ none → ¬ entryIsDirectory (B.entry n) → entryIsDirectory (P.entry n) →
    entryIsDirectory (H.entry n) → EverywhereIn (P.subdir n) (H.subdir n) fun P' H' m =>
      P'.entry m ≠ H'.entry m → ¬ recorded none (H'.entry m) (H'.subdir m)

/-- **The steps that keep the rows exact**, from the head `P` to the head `H`. -/
def Converges (B P H : Dir) : Prop :=
  ∀ names B' P' H', B.descend names = some B' → P.descend names = some P' →
    H.descend names = some H' → ∀ n, ConvergesAt B' P' H' n

/-- The way into a directory, name by name. -/
theorem Dir.descend_cons {D : Dir} {n : Bytes} (h : entryIsDirectory (D.entry n) = true)
    (names : List Bytes) : D.descend (n :: names) = (D.subdir n).descend names := by
  rw [Dir.descend, if_pos h]

/-- What converges does so in its subdirectories. -/
theorem Converges.subdir {B P H : Dir} (h : Converges B P H) {n : Bytes}
    (hB : entryIsDirectory (B.entry n) = true) (hP : entryIsDirectory (P.entry n) = true)
    (hH : entryIsDirectory (H.entry n) = true) :
    Converges (B.subdir n) (P.subdir n) (H.subdir n) := by
  intro names B' P' H' hB' hP' hH'
  rw [← Dir.descend_cons hB] at hB'
  rw [← Dir.descend_cons hP] at hP'
  rw [← Dir.descend_cons hH] at hH'
  exact h _ B' P' H' hB' hP' hH'

/-- What converges does so at each name. -/
theorem Converges.here {B P H : Dir} (h : Converges B P H) (n : Bytes) : ConvergesAt B P H n :=
  h [] B P H rfl rfl rfl n

/-- What holds everywhere holds at each name. -/
theorem EverywhereIn.here {L R : Dir} {p : Dir → Dir → Bytes → Prop} (h : EverywhereIn L R p)
    (n : Bytes) : p L R n := h [] L R rfl rfl n

/-- What holds everywhere holds in the subdirectories. -/
theorem EverywhereIn.subdir {L R : Dir} {p : Dir → Dir → Bytes → Prop} (h : EverywhereIn L R p)
    {n : Bytes} (hL : entryIsDirectory (L.entry n) = true)
    (hR : entryIsDirectory (R.entry n) = true) : EverywhereIn (L.subdir n) (R.subdir n) p := by
  intro names L' R' hL' hR'
  rw [← Dir.descend_cons hL] at hL'
  rw [← Dir.descend_cons hR] at hR'
  exact h _ L' R' hL' hR'

/-! ## Rows where nothing is recorded -/

section Stored

variable {store : ObjectStore}

/-- The subdirectories of a stored directory are stored. -/
theorem Dir.Stored.subdir_stored {D : Dir} (hD : D.Stored store) (n : Bytes) :
    (D.subdir n).Stored store := by
  rcases hD.subdir n with ⟨e, t, -, -, -, hden⟩ | ⟨-, hnil⟩
  · exact hden.stored
  · rw [hnil]
    trivial

/-- Where there is no directory, there is nothing below. -/
theorem Dir.Stored.subdir_nil {D : Dir} (hD : D.Stored store) {n : Bytes}
    (h : entryIsDirectory (D.entry n) = false) : D.subdir n = .nil := by
  apply hD.subdir_eq_nil
  intro e he hk
  simp [Dir.entry, he, entryIsDirectory, hk] at h

/-- Equal entries of two trees have the same below them. -/
theorem Dir.Stored.subdir_congr {D D' : Dir} (hD : D.Stored store) (hD' : D'.Stored store)
    {n : Bytes} (h : D.entry n = D'.entry n) : D.subdir n = D'.subdir n := by
  rcases hD.subdir n with ⟨e, t, he, hk, ht, hden⟩ | ⟨hno, hnil⟩
  · have he' : entryNamed n D'.entries = some e := by
      rw [← he]
      exact h.symm
    obtain ⟨t', ht', hden'⟩ := hD'.subdir_denotes he' hk
    rw [ht, Option.some.injEq] at ht'
    subst ht'
    exact hden.unique hden'
  · rw [hnil, hD'.subdir_eq_nil]
    intro e he
    exact hno e (by rw [← he]; exact h)

end Stored

/-- The entries are among all that is below. -/
theorem Dir.mem_flat_of_mem_entries {D : Dir} {e : TreeEntry} (h : e ∈ D.entries) :
    (e.name, e) ∈ D.flat := by
  induction D with
  | nil => exact absurd h List.not_mem_nil
  | cons x sub rest _ ih =>
    rw [Dir.flat]
    rcases List.mem_cons.mp h with rfl | h
    · exact List.mem_cons_self
    · exact List.mem_append_right _ (ih h)

/-- What is below a subdirectory is below the directory. -/
theorem Dir.exists_flat_of_subdir {D : Dir} {n k : Bytes} {e : TreeEntry}
    (h : (k, e) ∈ (D.subdir n).flat) : ∃ k', (k', e) ∈ D.flat := by
  induction D with
  | nil => exact absurd h List.not_mem_nil
  | cons x sub rest _ ih =>
    rw [Dir.subdir] at h
    rw [Dir.flat]
    split_ifs at h with hx
    · refine ⟨x.name ++ slash :: k, List.mem_append_left _ (List.mem_cons_of_mem _ ?_)⟩
      exact List.mem_map.mpr ⟨(k, e), h, rfl⟩
    · obtain ⟨k', hk'⟩ := ih h
      exact ⟨k', List.mem_append_right _ hk'⟩

/-- What is found along names is in the flat view. -/
theorem Dir.exists_flat_of_entryAt {D : Dir} {names : List Bytes} {e : TreeEntry}
    (h : D.entryAt names = some e) : ∃ k, (k, e) ∈ D.flat := by
  induction names generalizing D with
  | nil => exact absurd h (by simp [Dir.entryAt])
  | cons n rest ih =>
    cases rest with
    | nil => exact ⟨e.name, Dir.mem_flat_of_mem_entries (entryNamed_some h).2⟩
    | cons m rest =>
      obtain ⟨k, hk⟩ := ih h
      exact Dir.exists_flat_of_subdir hk

/-- Where no file is recorded, the files of an added directory have no rows. -/
theorem leafRows_of_not_hasLeaf {D : Dir} (h : ¬ D.hasLeaf = true) (names : List Bytes) :
    leafRows (D.entryAt names) = Rows.clear := by
  cases he : D.entryAt names with
  | none => rfl
  | some e =>
    obtain ⟨k, hk⟩ := Dir.exists_flat_of_entryAt he
    have hleaf : (decide (e.kind ≠ .Directory) && relevant e.contentClass) = false := by
      rw [Dir.hasLeaf, List.any_eq_true] at h
      by_contra hne
      exact h ⟨(k, e), hk, by simpa using hne⟩
    rw [leafRows, hleaf, Rows.onlyIf_false]

/-- Files below an entry that is not recorded have no rows. -/
theorem leafRows_of_not_recorded {head : Option TreeEntry} {sub : Dir}
    (h : ¬ recorded none head sub = true) (hdir : entryIsDirectory head = true)
    (names : List Bytes) : leafRows (sub.entryAt names) = Rows.clear := by
  apply leafRows_of_not_hasLeaf
  intro hleaf
  cases head with
  | none => exact absurd hdir (by simp [entryIsDirectory])
  | some e =>
    have hk : e.kind = .Directory := by simpa [entryIsDirectory] using hdir
    exact h (by simp [recorded, hk, hleaf])

/-- A path that is not recorded has no rows. -/
theorem visitedRows_of_not_recorded {base head : Option TreeEntry} {sub : Dir}
    (h : ¬ recorded base head sub = true) : visitedRows base head sub = Rows.clear := by
  rw [Bool.not_eq_true] at h
  cases base with
  | none =>
    cases head with
    | none => rfl
    | some right =>
      have hr : relevant right.contentClass = false := (Bool.or_eq_false_iff.mp h).1
      simp [visitedRows, hr]
  | some left =>
    cases head with
    | none =>
      have hl : relevant left.contentClass = false := h
      simp [visitedRows, hl]
    | some right =>
      unfold recorded at h
      unfold visitedRows
      dsimp only at h ⊢
      split_ifs at h ⊢ with hdir hstruct hsem
      · rw [h, Rows.onlyIf_false]
      · have hsem : entrySemanticallyEqual left right = false := by
          by_contra heq
          rw [Bool.not_eq_false] at heq
          have hkind : left.kind = right.kind := (of_decide_eq_true heq).1
          simp [entryIsDirectory, hkind] at hstruct
        rw [hsem, Bool.not_false, Bool.true_and] at h
        rw [h, Rows.onlyIf_false]
      · rfl
      · rw [Bool.not_eq_true] at hsem
        rw [hsem, Bool.not_false, Bool.true_and] at h
        rw [h, Rows.onlyIf_false]

/-- A path that is the same in both trees is not recorded. -/
theorem not_recorded_self (entry : Option TreeEntry) (sub : Dir) :
    ¬ recorded entry entry sub = true := by
  cases entry with
  | none => simp [recorded]
  | some e =>
    simp [recorded, directoryMetadataEqual, entrySemanticallyEqual]

/-- A path that is added is a file of an added directory, unless it is a directory without
files. -/
theorem visitedRows_none {head : Option TreeEntry} {sub : Dir}
    (h : ¬ bareDirectory head sub = true) : visitedRows none head sub = leafRows head := by
  cases head with
  | none => rfl
  | some e =>
    by_cases hk : e.kind = .Directory
    · have hbare : (!sub.hasLeaf && relevant e.contentClass) = false := by
        by_contra hne
        rw [Bool.not_eq_false, Bool.and_eq_true, Bool.not_eq_true'] at hne
        exact h (by simp [bareDirectory, hk, hne.1, hne.2])
      simp only [visitedRows, hk, if_true, hbare, leafRows, ne_eq, not_true, decide_false,
        Bool.false_and, Rows.onlyIf_false]
    · simp [visitedRows, leafRows, hk]

/-! ## A step -/

section Step

variable {store : ObjectStore}

/-- Two trees with nothing to record have no rows. -/
theorem changedRows_eq_clear {B H : Dir} (hH : H.Stored store)
    (h : EverywhereIn B H fun B' H' m => ¬ recorded (B'.entry m) (H'.entry m) (H'.subdir m))
    (names : List Bytes) : changedRows B H names = Rows.clear := by
  induction names generalizing B H with
  | nil => rfl
  | cons n rest ih =>
    cases rest with
    | nil => exact visitedRows_of_not_recorded (h.here n)
    | cons m rest =>
      rw [changedRows]
      split_ifs with hdir hnone
      · rw [Bool.and_eq_true] at hdir
        exact ih (hH.subdir_stored n) (h.subdir hdir.1 hdir.2)
      · by_cases hk : entryIsDirectory (H.entry n) = true
        · have hhere := h.here n
          rw [Option.isNone_iff_eq_none.mp hnone] at hhere
          exact leafRows_of_not_recorded hhere hk _
        · rw [hH.subdir_nil (Bool.eq_false_of_not_eq_true hk), Dir.entryAt_nil]
          rfl
      · rfl

/-- The visits in a directory that the base does not have leave its files as they are. -/
theorem walkRows_added {P H : Dir}
    (h : EverywhereIn P H fun P' H' m =>
      P'.entry m ≠ H'.entry m → ¬ bareDirectory (H'.entry m) (H'.subdir m))
    (names : List Bytes) :
    walkRows .nil P H names (leafRows (H.entryAt names)) = leafRows (H.entryAt names) := by
  induction names generalizing P H with
  | nil => rfl
  | cons n rest ih =>
    cases rest with
    | nil =>
      rw [walkRows]
      split_ifs with heq
      · rfl
      · exact visitedRows_none (h.here n heq)
    | cons m rest =>
      have hbelow : belowRows (Dir.nil.entry n) (H.entry n) ((H.subdir n).entryAt (m :: rest))
          (leafRows (H.entryAt (n :: m :: rest))) =
            leafRows ((H.subdir n).entryAt (m :: rest)) := by
        rw [belowRows]
        split_ifs with hsame hnone
        · rfl
        · rfl
        · exact absurd rfl hnone
      rw [walkRows]
      dsimp only
      rw [hbelow]
      split_ifs with heq hdir
      · rfl
      · rw [Bool.and_eq_true] at hdir
        exact ih (h.subdir hdir.1 hdir.2)
      · rfl

/-- The visits in a directory that replaces a file of the base store nothing, if nothing that is
recorded has changed. -/
theorem walkRows_replacing {P H : Dir}
    (h : EverywhereIn P H fun P' H' m =>
      P'.entry m ≠ H'.entry m → ¬ recorded none (H'.entry m) (H'.subdir m))
    (names : List Bytes) : walkRows .nil P H names Rows.clear = Rows.clear := by
  induction names generalizing P H with
  | nil => rfl
  | cons n rest ih =>
    cases rest with
    | nil =>
      rw [walkRows]
      split_ifs with heq
      · rfl
      · exact visitedRows_of_not_recorded (h.here n heq)
    | cons m rest =>
      rw [walkRows]
      dsimp only
      by_cases heq : P.entry n = H.entry n
      · rw [if_pos heq]
      · have hbelow : belowRows (Dir.nil.entry n) (H.entry n)
            ((H.subdir n).entryAt (m :: rest)) Rows.clear = Rows.clear := by
          rw [belowRows]
          split_ifs with hsame
          · rfl
          · have hdir : entryIsDirectory (H.entry n) = true :=
              Bool.eq_true_of_not_eq_false fun hno => hsame hno.symm
            exact leafRows_of_not_recorded (h.here n heq) hdir _
          · rfl
        rw [if_neg heq, hbelow]
        split_ifs with hdir
        · rw [Bool.and_eq_true] at hdir
          exact ih (h.subdir hdir.1 hdir.2)
        · rfl

/-- **A step that keeps the rows exact makes the rows of the new head of those of the last.**

**Proof sketch.** Along the names.  Where the base and both heads have a directory, the visit of
its path changes nothing below it, and the argument goes on there.  At the first name where one of
the three has none, either the visit replaces what is below by what the base and the new head say,
or it leaves it as it was, and then the step says that there is nothing to replace. -/
theorem walkRows_changedRows {B P H : Dir} (hB : B.Stored store) (hP : P.Stored store)
    (hH : H.Stored store) (h : Converges B P H) (names : List Bytes) :
    walkRows B P H names (changedRows B P names) = changedRows B H names := by
  induction names generalizing B P H with
  | nil => rfl
  | cons n rest ih =>
    cases rest with
    | nil =>
      rw [walkRows, changedRows, changedRows]
      split_ifs with heq
      · rw [heq, hP.subdir_congr hH heq]
      · rfl
    | cons m rest =>
      have hhere := h.here n
      by_cases heq : P.entry n = H.entry n
      · rw [walkRows, if_pos heq, changedRows, changedRows, heq, hP.subdir_congr hH heq]
      · rw [walkRows, if_neg heq]
        dsimp only
        cases hBn : entryIsDirectory (B.entry n) with
        | true =>
          have hsome : (B.entry n).isNone = false := by
            cases hb : B.entry n with
            | none => simp [hb, entryIsDirectory] at hBn
            | some e => rfl
          cases hPn : entryIsDirectory (P.entry n) <;> cases hHn : entryIsDirectory (H.entry n)
          · simp [belowRows, changedRows, hBn, hHn, hsome]
          · have hclear := changedRows_eq_clear (hH.subdir_stored n)
              (hhere.restored hBn (by simp [hPn]) hHn) (m :: rest)
            simp [belowRows, changedRows, hBn, hPn, hHn, hsome, hclear]
          · simp [belowRows, changedRows, hBn, hHn, hsome]
          · have hsub := ih (hB.subdir_stored n) (hP.subdir_stored n) (hH.subdir_stored n)
              (h.subdir hBn hPn hHn)
            simpa [belowRows, changedRows, hBn, hPn, hHn] using hsub
        | false =>
          have hBnil := hB.subdir_nil hBn
          cases hPn : entryIsDirectory (P.entry n) <;> cases hHn : entryIsDirectory (H.entry n)
          · have hPnil := hP.subdir_nil hPn
            have hHnil := hH.subdir_nil hHn
            simp [belowRows, changedRows, hBn, hPn, hHn, hPnil, hHnil]
          · simp [belowRows, changedRows, hBn, hHn]
          · have hHnil := hH.subdir_nil hHn
            cases hb : B.entry n with
            | none =>
              have hleaf := leafRows_of_not_hasLeaf (hhere.dropped hb hPn (by simp [hHn]))
                (m :: rest)
              simp [belowRows, changedRows, hHn, hHnil, hb, hleaf]
            | some e =>
              rw [hb] at hBn
              simp [belowRows, changedRows, hBn, hPn, hHn, hb]
          · rw [hBnil]
            cases hb : B.entry n with
            | none =>
              have hadded := walkRows_added (hhere.added hb hPn hHn) (m :: rest)
              simp [belowRows, changedRows, hHn, hb, hadded]
            | some e =>
              have hreplacing := walkRows_replacing
                (hhere.replacing (by simp [hb]) (by simp [hBn]) hPn hHn) (m :: rest)
              rw [hb] at hBn
              simp [belowRows, changedRows, hBn, hHn, hb, hreplacing]

/-- A tree has no rows against itself. -/
theorem changedRows_self {B : Dir} (hB : B.Stored store) (names : List Bytes) :
    changedRows B B names = Rows.clear := by
  apply changedRows_eq_clear hB
  intro above L R hL hR n
  rw [hL, Option.some.injEq] at hR
  subst hR
  exact not_recorded_self _ _

/-- The step from the base itself keeps the rows exact. -/
theorem converges_base (B H : Dir) : Converges B B H := by
  intro above B' P' H' hB hP hH n
  rw [hB, Option.some.injEq] at hP
  subst hP
  refine ⟨fun h h' => absurd h h', fun h h' => ?_, fun h h' => ?_, fun _ h h' => absurd h' h⟩
  · rw [h, entryIsDirectory_none] at h'
    exact absurd h' Bool.false_ne_true
  · rw [h, entryIsDirectory_none] at h'
    exact absurd h' Bool.false_ne_true

end Step

end Furrow
