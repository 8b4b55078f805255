import Furrow.Merge.Trees
import Furrow.Restore.Relink

set_option relaxedAutoImplicit false
set_option autoImplicit false

/-!
# The changes of a plan

`diff_directory` and `record_tree_difference` of `repository.rs`: two Merkle trees are compared
directory by directory, and every path that a rewind must touch is recorded, a directory before what
is in it.  A directory of which only the target differs is recorded if something in it is; it is
taken back otherwise.

## Main definitions

* `Furrow.diffDirectory` — the comparison.
* `Furrow.Differs` — the entries of a path differ in more than the target of a directory.

## Main results

* `Furrow.diffDirectory_exact` — the recorded paths are the selected ones at or above a difference.
-/

namespace Furrow

open SepOrder

/-- What a rewind does with a path. -/
inductive ChangeAction
  | restore
  | remove
  | replace
deriving DecidableEq

/-- A path that a rewind touches, and what becomes of it. -/
structure RewindChange where
  rawPath : Bytes
  action : ChangeAction
deriving DecidableEq

/-- Without a target that only stands for what is in a directory. -/
def bare (entry : TreeEntry) : TreeEntry :=
  if entry.kind = .Directory then { entry with target := none } else entry

/-- `directory_target_only_difference` -/
def directoryTargetOnlyDifference : Option TreeEntry → Option TreeEntry → Bool
  | some before, some after =>
    if before.kind ≠ .Directory ∨ after.kind ≠ .Directory then false
    else { before with target := none } == { after with target := none }
  | _, _ => false

/-- What becomes of a path. -/
def changeAction : Option TreeEntry → Option TreeEntry → ChangeAction
  | none, _ => .restore
  | some _, none => .remove
  | some _, some _ => .replace

/-- The subtree of an entry. -/
def subtree (entry : Option TreeEntry) : Option ObjectId :=
  (entry.filter fun entry => entry.kind = .Directory).bind TreeEntry.target

/-- `subtree_intersects` -/
def subtreeIntersects (path : Bytes) (selections : List Bytes) : Bool :=
  selections.isEmpty ||
    selections.any fun selection =>
      (Relink.pathComponents selection).isPrefixOf (Relink.pathComponents path) ||
        (Relink.pathComponents path).isPrefixOf (Relink.pathComponents selection)

section Code

variable (store : ObjectStore) (selections : List Bytes)

/-- `record_tree_difference`; `go` compares two subdirectories. -/
def recordTreeDifference
    (go : Option ObjectId → Option ObjectId → Bytes → List RewindChange →
      Except StoreError (List RewindChange))
    (pfx : Bytes) (changes : List RewindChange) (pair : EntryPair) :
    Except StoreError (List RewindChange) := do
  let (before, after) := pair
  match before.or after with
  | none => throw .expectedEntry
  | some entry =>
    validateName entry.name
    let path := joinPath pfx entry.name
    if before.isNone && after.any fun entry => entry.kind = .SocketMarker then pure changes
    else do
      let parentSelected := Relink.selected path selections
      let recorded := if parentSelected then changes ++ [⟨path, changeAction before after⟩]
        else changes
      let below ←
        (if subtreeIntersects path selections ∧
          ((subtree before).isSome ∨ (subtree after).isSome) then
          go (subtree before) (subtree after) path recorded
        else pure recorded)
      if parentSelected && below.length = changes.length + 1 &&
        directoryTargetOnlyDifference before after then
        pure below.dropLast
      else pure below

/-- `diff_directory` -/
def diffDirectory : ℕ → Option ObjectId → Option ObjectId → Bytes → List RewindChange →
    Except StoreError (List RewindChange)
  | 0, _, _, _, _ => .error .outOfFuel
  | fuel + 1, before, after, pfx, changes => do
    let pairs ←
      match before, after with
      | some before, some after => diffEntries store fuel before after
      | some before, none =>
        (fun es => es.map fun e => (some e, none)) <$> forEachEntry store fuel before
      | none, some after =>
        (fun es => es.map fun e => (none, some e)) <$> forEachEntry store fuel after
      | none, none => pure []
    pairs.foldlM (recordTreeDifference selections (diffDirectory fuel) pfx) changes

end Code

/-! ## What is recorded -/

/-- The entries of a path differ in more than the target of a directory; a socket that is not there
is none to be made. -/
def Differs (before after : Option TreeEntry) : Prop :=
  before.map bare ≠ after.map bare ∧
    ¬ (before = none ∧ ∃ entry, after = some entry ∧ entry.kind = .SocketMarker)

/-- A path is another one, or above it. -/
def AtOrAbove (k k' : Bytes) : Prop := k' = k ∨ ∃ r, k' = k ++ slash :: r

/-- A path below a prefix is selected, and at or above a difference. -/
def Recorded (selections : List Bytes) (B O : Dir) (pfx k : Bytes) : Prop :=
  Relink.selected (joinPath pfx k) selections = true ∧ ∃ k', AtOrAbove k k' ∧
    Differs (B.get k') (O.get k')

/-- The recorded change of a path. -/
def changeAt (B O : Dir) (pfx k : Bytes) : RewindChange :=
  ⟨joinPath pfx k, changeAction (B.get k) (O.get k)⟩

/-- An earlier change of a plan is not of a path that is the later one's, or below it. -/
def ListedBefore (c d : RewindChange) : Prop := ¬ AtOrAbove d.rawPath c.rawPath

/-! ## Paths -/

/-- A path below a directory is not the root. -/
theorem joinPath_ne_nil {pfx k : Bytes} (h : k ≠ []) : joinPath pfx k ≠ [] := by
  unfold joinPath
  split_ifs
  · exact h
  · simp

/-- A name below a path, joined. -/
theorem joinPath_append_slash (pfx n r : Bytes) :
    joinPath pfx (n ++ slash :: r) = joinPath pfx n ++ slash :: r := by
  unfold joinPath
  split_ifs <;> simp

/-- Different names below a directory have different paths. -/
theorem joinPath_injective (pfx : Bytes) : Function.Injective (joinPath pfx) := by
  intro k k' h
  unfold joinPath at h
  split_ifs at h
  · exact h
  · exact (List.cons.inj (List.append_cancel_left h)).2

/-- The names above a path are its first ones. -/
theorem pathComponents_append_slash {p : Bytes} (hp : p ≠ []) (r : Bytes) :
    Relink.pathComponents p <+: Relink.pathComponents (p ++ slash :: r) := by
  obtain ⟨c, rest, hsplit⟩ := List.exists_cons_of_ne_nil (List.splitOn_ne_nil slash p)
  obtain ⟨b, bytes, rfl⟩ := List.exists_cons_of_ne_nil hp
  unfold Relink.pathComponents
  dsimp only
  rw [List.splitOn_append_cons_self, List.filter_append, hsplit, ← List.append_assoc]
  exact List.prefix_append _ _

variable {selections : List Bytes}

/-- What is in a selected path is selected. -/
theorem selected_below {p : Bytes} (hp : p ≠ []) (r : Bytes)
    (h : Relink.selected p selections = true) :
    Relink.selected (p ++ slash :: r) selections = true := by
  unfold Relink.selected at h ⊢
  rw [Bool.or_eq_true, List.any_eq_true] at h ⊢
  rcases h with hempty | ⟨selection, hmem, hpre⟩
  · exact Or.inl hempty
  · refine Or.inr ⟨selection, hmem, List.isPrefixOf_iff_prefix.mpr ?_⟩
    exact (List.isPrefixOf_iff_prefix.mp hpre).trans (pathComponents_append_slash hp r)

/-- What a selected path is in is not passed over. -/
theorem subtreeIntersects_of_selected {p r : Bytes} (hp : p ≠ [])
    (h : Relink.selected (p ++ slash :: r) selections = true) :
    subtreeIntersects p selections = true := by
  unfold Relink.selected at h
  unfold subtreeIntersects
  rw [Bool.or_eq_true, List.any_eq_true] at h ⊢
  rcases h with hempty | ⟨selection, hmem, hpre⟩
  · exact Or.inl hempty
  · refine Or.inr ⟨selection, hmem, ?_⟩
    rw [Bool.or_eq_true, List.isPrefixOf_iff_prefix, List.isPrefixOf_iff_prefix]
    exact List.prefix_or_prefix_of_prefix (List.isPrefixOf_iff_prefix.mp hpre)
      (pathComponents_append_slash hp r)

/-- The first name of a path is that of what is below it. -/
theorem splitFirst_below (k r : Bytes) :
    (splitFirst slash (k ++ slash :: r)).1 = (splitFirst slash k).1 := by
  obtain ⟨hmem, hk | ⟨k', -, hk⟩⟩ := splitFirst_cases slash k
  · rw [hk] at hmem ⊢
    rw [splitFirst_append hmem]
  · have hlong : k ++ slash :: r = (splitFirst slash k).1 ++ slash :: (k' ++ slash :: r) := by
      rw [← List.cons_append, ← List.append_assoc, ← hk]
    rw [hlong, splitFirst_append hmem]

/-- A path and those below it begin with the same name. -/
theorem AtOrAbove.first_eq {k k' : Bytes} (h : AtOrAbove k k') :
    (splitFirst slash k').1 = (splitFirst slash k).1 := by
  rcases h with rfl | ⟨r, rfl⟩
  · rfl
  · exact splitFirst_below k r

/-- A path is not below itself. -/
theorem AtOrAbove.not_below {p r : Bytes} (h : AtOrAbove (p ++ slash :: r) p) : False := by
  rcases h with h | ⟨r', h⟩
  · exact absurd (List.append_right_eq_self.mp h.symm) (by simp)
  · rw [List.append_assoc] at h
    exact absurd (List.append_right_eq_self.mp h.symm) (by simp)

/-- What is above after a directory was put in front was above before. -/
theorem AtOrAbove.of_joinPath {pfx k k' : Bytes}
    (h : AtOrAbove (joinPath pfx k) (joinPath pfx k')) : AtOrAbove k k' := by
  rcases h with h | ⟨r, h⟩
  · exact Or.inl (joinPath_injective pfx h)
  · rw [← joinPath_append_slash] at h
    exact Or.inr ⟨r, joinPath_injective pfx h⟩

/-! ## Differences -/

/-- The kind of an entry does not depend on its target. -/
theorem bare_kind (entry : TreeEntry) : (bare entry).kind = entry.kind := by
  unfold bare
  split_ifs <;> rfl

/-- Entries that are not equal differ, unless they are directories that differ in their targets
only. -/
theorem directoryTargetOnlyDifference_iff {a b : Option TreeEntry} (hab : a ≠ b) :
    directoryTargetOnlyDifference a b = true ↔ a.map bare = b.map bare := by
  cases a with
  | none =>
    cases b with
    | none => exact absurd rfl hab
    | some b => simp [directoryTargetOnlyDifference]
  | some a =>
    cases b with
    | none => simp [directoryTargetOnlyDifference]
    | some b =>
      rw [Option.map_some, Option.map_some, Option.some.injEq]
      unfold directoryTargetOnlyDifference
      by_cases ha : a.kind = .Directory
      · by_cases hb : b.kind = .Directory
        · simp [ha, hb, bare]
        · have hne : bare a ≠ bare b := fun heq => hb (by rw [← bare_kind b, ← heq, bare_kind, ha])
          simp [hb, hne]
      · have hne : bare a ≠ bare b := by
          intro heq
          have hkind : b.kind ≠ .Directory := fun hb =>
            ha (by rw [← bare_kind a, heq, bare_kind, hb])
          unfold bare at heq
          rw [if_neg ha, if_neg hkind] at heq
          exact hab (congrArg some heq)
        simp [ha, hne]

/-- An entry does not differ from itself. -/
theorem not_differs_self (a : Option TreeEntry) : ¬ Differs a a := fun h => h.1 rfl

/-- Everything is gone if there is nothing now. -/
theorem mergeDiff_nil (es : List TreeEntry) : mergeDiff es [] = es.map fun e => (some e, none) := by
  induction es with
  | nil => rfl
  | cons e es ih => rw [mergeDiff, mergeInto, ih, List.map_cons]

/-- What is in a directory is no larger than it. -/
theorem size_subdir_le (D : Dir) (n : Bytes) : (D.subdir n).size ≤ D.size := by
  induction D with
  | nil => exact le_refl _
  | cons x sub rest _ ih =>
    rw [Dir.subdir, Dir.size]
    split_ifs <;> omega

section Exact

variable {store : ObjectStore}

/-- A stored directory, or none. -/
def MaybeDenotes (store : ObjectStore) : Option ObjectId → Dir → Prop
  | some id, D => DirDenotes store id D
  | none, D => D = .nil

/-- The entries of a stored directory are sorted. -/
theorem MaybeDenotes.sorted {id : Option ObjectId} {D : Dir} (h : MaybeDenotes store id D) :
    NameSorted D.entries := by
  cases id with
  | some id => exact DirDenotes.sorted h
  | none =>
    rw [show D = .nil from h]
    exact List.Pairwise.nil

/-- What a directory refers to is stored. -/
theorem MaybeDenotes.stored {id : Option ObjectId} {D : Dir} (h : MaybeDenotes store id D) :
    D.Stored store := by
  cases id with
  | some id => exact DirDenotes.stored h
  | none =>
    rw [show D = .nil from h]
    exact trivial

/-- The subtree of an entry stands for what is in it. -/
theorem maybeDenotes_subtree {D : Dir} (hD : D.Stored store) (n : Bytes) :
    MaybeDenotes store (subtree (entryNamed n D.entries)) (D.subdir n) := by
  rcases hD.subdir n with ⟨e, t, he, hk, ht, hden⟩ | ⟨hno, hnil⟩
  · have hsub : subtree (entryNamed n D.entries) = some t := by
      unfold subtree
      rw [he]
      simp [Option.filter, hk, ht]
    rw [hsub]
    exact hden
  · have hsub : subtree (entryNamed n D.entries) = none := by
      unfold subtree
      cases he : entryNamed n D.entries with
      | none => rfl
      | some e => simp [Option.filter, hno e he]
    rw [hsub]
    exact hnil

/-- What a comparison of two directories records. -/
def Records (store : ObjectStore) (selections : List Bytes) (b o : Option ObjectId) (B O : Dir) :
    Prop :=
  ∃ m, ∀ pfx, ∃ R, (∀ c, c ∈ R ↔ ∃ k, Recorded selections B O pfx k ∧ c = changeAt B O pfx k) ∧
    R.Pairwise ListedBefore ∧
    ∀ fuel, m ≤ fuel →
      ∀ changes, diffDirectory store selections fuel b o pfx changes = .ok (changes ++ R)

variable {B O : Dir} {n : Bytes}

/-- Below a name, what is recorded is what is recorded of the subdirectories. -/
theorem recorded_below (hn : slash ∉ n) (hne : n ≠ []) (pfx r : Bytes) :
    Recorded selections (B.subdir n) (O.subdir n) (joinPath pfx n) r ↔
      Recorded selections B O pfx (n ++ slash :: r) := by
  unfold Recorded
  rw [joinPath_joinPath pfx hne]
  refine and_congr_right fun _ => ⟨?_, ?_⟩
  · rintro ⟨k', habove, hdiffers⟩
    refine ⟨n ++ slash :: k', ?_, ?_⟩
    · rcases habove with rfl | ⟨r', rfl⟩
      · exact Or.inl rfl
      · exact Or.inr ⟨r', by simp⟩
    · rw [Dir.get_below B hn, Dir.get_below O hn]
      exact hdiffers
  · rintro ⟨k', habove, hdiffers⟩
    rcases habove with rfl | ⟨r', rfl⟩
    · rw [Dir.get_below B hn, Dir.get_below O hn] at hdiffers
      exact ⟨r, Or.inl rfl, hdiffers⟩
    · rw [List.append_assoc, List.cons_append, Dir.get_below B hn, Dir.get_below O hn] at hdiffers
      exact ⟨r ++ slash :: r', Or.inr ⟨r', rfl⟩, hdiffers⟩

/-- The change of a path, seen from the subdirectory it is in. -/
theorem changeAt_below (hn : slash ∉ n) (hne : n ≠ []) (pfx r : Bytes) :
    changeAt (B.subdir n) (O.subdir n) (joinPath pfx n) r = changeAt B O pfx (n ++ slash :: r) := by
  unfold changeAt
  rw [joinPath_joinPath pfx hne, Dir.get_below B hn, Dir.get_below O hn]

/-- Where neither entry has a subtree, nothing differs below. -/
theorem not_differs_below (hB : B.Stored store) (hO : O.Stored store) (hn : slash ∉ n)
    (hb : subtree (entryNamed n B.entries) = none) (ho : subtree (entryNamed n O.entries) = none)
    (r : Bytes) : ¬ Differs (B.get (n ++ slash :: r)) (O.get (n ++ slash :: r)) := by
  have hB' := maybeDenotes_subtree hB n
  have hO' := maybeDenotes_subtree hO n
  rw [hb] at hB'
  rw [ho] at hO'
  have hnilB : B.subdir n = .nil := hB'
  have hnilO : O.subdir n = .nil := hO'
  rw [Dir.get_below B hn, Dir.get_below O hn, hnilB, hnilO]
  exact not_differs_self _

/-- The changes of the paths below a name. -/
def RecordsBelow (selections : List Bytes) (B O : Dir) (pfx n : Bytes) (R : List RewindChange) :
    Prop :=
  (∀ c, c ∈ R ↔ ∃ r, Recorded selections B O pfx (n ++ slash :: r) ∧
    c = changeAt B O pfx (n ++ slash :: r)) ∧ R.Pairwise ListedBefore

/-- The visit of the subdirectories records what is below the name; they are passed over if nothing
there is selected. -/
theorem exists_recordsBelow (hB : B.Stored store) (hO : O.Stored store) (hn : slash ∉ n)
    (hne : n ≠ [])
    (hsub : Records store selections (subtree (entryNamed n B.entries))
      (subtree (entryNamed n O.entries)) (B.subdir n) (O.subdir n)) :
    ∃ m, ∀ pfx, ∃ R, RecordsBelow selections B O pfx n R ∧ ∀ fuel, m ≤ fuel → ∀ changes,
      (if subtreeIntersects (joinPath pfx n) selections ∧
          ((subtree (entryNamed n B.entries)).isSome ∨
            (subtree (entryNamed n O.entries)).isSome) then
        diffDirectory store selections fuel (subtree (entryNamed n B.entries))
          (subtree (entryNamed n O.entries)) (joinPath pfx n) changes
      else pure changes) = .ok (changes ++ R) := by
  obtain ⟨m, hgo⟩ := hsub
  refine ⟨m, fun pfx => ?_⟩
  obtain ⟨R, hR, horder, hrun⟩ := hgo (joinPath pfx n)
  by_cases hcond : subtreeIntersects (joinPath pfx n) selections = true ∧
      ((subtree (entryNamed n B.entries)).isSome = true ∨
        (subtree (entryNamed n O.entries)).isSome = true)
  · refine ⟨R, ⟨fun c => ?_, horder⟩, fun fuel hf changes => ?_⟩
    · rw [hR]
      constructor
      · rintro ⟨r, hr, rfl⟩
        exact ⟨r, (recorded_below hn hne pfx r).mp hr, changeAt_below hn hne pfx r⟩
      · rintro ⟨r, hr, rfl⟩
        exact ⟨r, (recorded_below hn hne pfx r).mpr hr, (changeAt_below hn hne pfx r).symm⟩
    · rw [if_pos hcond]
      exact hrun fuel hf changes
  · refine ⟨[], ⟨fun c => ⟨fun hc => absurd hc List.not_mem_nil, ?_⟩, List.Pairwise.nil⟩,
      fun fuel _ changes => ?_⟩
    · rintro ⟨r, ⟨hselected, k', habove, hdiffers⟩, -⟩
      rw [joinPath_append_slash] at hselected
      refine absurd ⟨subtreeIntersects_of_selected (joinPath_ne_nil hne) hselected, ?_⟩ hcond
      by_contra hnone
      rw [not_or, Option.not_isSome_iff_eq_none, Option.not_isSome_iff_eq_none] at hnone
      have hnotBelow := not_differs_below hB hO hn hnone.1 hnone.2
      rcases habove with rfl | ⟨r', rfl⟩
      · exact hnotBelow r hdiffers
      · rw [List.append_assoc, List.cons_append] at hdiffers
        exact hnotBelow _ hdiffers
    · rw [if_neg hcond, List.append_nil]
      rfl

/-- Nothing is recorded below a name exactly if nothing differs there. -/
theorem RecordsBelow.eq_nil_iff {pfx : Bytes} {R : List RewindChange}
    (h : RecordsBelow selections B O pfx n R) (hne : n ≠ [])
    (hselected : Relink.selected (joinPath pfx n) selections = true) :
    R = [] ↔ ∀ r, ¬ Differs (B.get (n ++ slash :: r)) (O.get (n ++ slash :: r)) := by
  constructor
  · intro hnil r hdiffers
    have hmem :=
      (h.1 (changeAt B O pfx (n ++ slash :: r))).mpr ⟨r, ⟨?_, _, Or.inl rfl, hdiffers⟩, rfl⟩
    · rw [hnil] at hmem
      exact absurd hmem List.not_mem_nil
    · rw [joinPath_append_slash]
      exact selected_below (joinPath_ne_nil hne) r hselected
  · intro hno
    refine List.eq_nil_iff_forall_not_mem.mpr fun c hc => ?_
    obtain ⟨r, ⟨-, k', habove, hdiffers⟩, -⟩ := (h.1 c).mp hc
    rcases habove with rfl | ⟨r', rfl⟩
    · exact hno r hdiffers
    · rw [List.append_assoc, List.cons_append] at hdiffers
      exact hno _ hdiffers

/-- A selected name is recorded if it differs, or something below it. -/
theorem RecordsBelow.recorded_iff {pfx : Bytes} {R : List RewindChange}
    (h : RecordsBelow selections B O pfx n R) (hn : slash ∉ n) (hne : n ≠ [])
    (hselected : Relink.selected (joinPath pfx n) selections = true)
    (hab : entryNamed n B.entries ≠ entryNamed n O.entries)
    (hsocket : ¬ (entryNamed n B.entries = none ∧
      ∃ entry, entryNamed n O.entries = some entry ∧ entry.kind = .SocketMarker)) :
    Recorded selections B O pfx n ↔
      ¬ (R = [] ∧
        directoryTargetOnlyDifference (entryNamed n B.entries)
        (entryNamed n O.entries) = true) := by
  have honly := directoryTargetOnlyDifference_iff hab
  have hdiffers : Differs (B.get n) (O.get n) ↔
      directoryTargetOnlyDifference (entryNamed n B.entries) (entryNamed n O.entries) ≠ true := by
    rw [Dir.get_name B hn, Dir.get_name O hn]
    exact ⟨fun hd htrue => hd.1 (honly.mp htrue), fun hd =>
      ⟨fun heq => hd (honly.mpr heq), hsocket⟩⟩
  rw [h.eq_nil_iff hne hselected]
  constructor
  · rintro ⟨-, k', rfl | ⟨r, rfl⟩, hd⟩ ⟨hno, htrue⟩
    · exact hdiffers.mp hd htrue
    · exact hno r hd
  · intro hnot
    refine ⟨hselected, ?_⟩
    by_cases htrue :
        directoryTargetOnlyDifference (entryNamed n B.entries) (entryNamed n O.entries) = true
    · by_contra hnone
      exact hnot ⟨fun r hd => hnone ⟨_, Or.inr ⟨r, rfl⟩, hd⟩, htrue⟩
    · exact ⟨n, Or.inl rfl, hdiffers.mpr htrue⟩

/-- One step of the comparison, given what it records below the name. -/
theorem recordTreeDifference_run
    {go : Option ObjectId → Option ObjectId → Bytes → List RewindChange →
      Except StoreError (List RewindChange)} {pfx : Bytes} {a b : Option TreeEntry} {e : TreeEntry}
    {R : List RewindChange} (he : a.or b = some e) (hvalid : validateName e.name = .ok ())
    (hsocket : ¬ (a = none ∧ ∃ entry, b = some entry ∧ entry.kind = .SocketMarker))
    (hgo : ∀ changes, (if subtreeIntersects (joinPath pfx e.name) selections ∧
        ((subtree a).isSome ∨ (subtree b).isSome) then
      go (subtree a) (subtree b) (joinPath pfx e.name) changes else pure changes) =
        .ok (changes ++ R))
    (changes : List RewindChange) :
    recordTreeDifference selections go pfx changes (a, b) =
      .ok (if Relink.selected (joinPath pfx e.name) selections = true then
        if R = [] ∧ directoryTargetOnlyDifference a b = true then changes
        else changes ++ ⟨joinPath pfx e.name, changeAction a b⟩ :: R
      else changes ++ R) := by
  unfold recordTreeDifference
  dsimp only
  rw [he]
  dsimp only
  rw [hvalid]
  simp only [bind, Except.bind]
  have hnotSocket :
      ¬ ((a.isNone && b.any fun entry => decide (entry.kind = .SocketMarker)) = true) := by
    rw [Bool.and_eq_true, Option.isNone_iff_eq_none, Option.any_eq_true]
    rintro ⟨hnone, entry, hentry, hkind⟩
    exact hsocket ⟨hnone, entry, hentry, by simpa using hkind⟩
  rw [if_neg hnotSocket, hgo]
  dsimp only
  by_cases hselected : Relink.selected (joinPath pfx e.name) selections = true
  · have hdropped : (Relink.selected (joinPath pfx e.name) selections &&
        decide
          ((changes ++ [(⟨joinPath pfx e.name, changeAction a b⟩ : RewindChange)] ++ R).length =
            changes.length + 1) && directoryTargetOnlyDifference a b) = true ↔
        R = [] ∧ directoryTargetOnlyDifference a b = true := by
      have hlen :
          (changes ++ [(⟨joinPath pfx e.name, changeAction a b⟩ : RewindChange)] ++ R).length =
            changes.length + 1 ↔ R = [] := by
        rw [List.length_append, List.length_append, List.length_singleton,
          ← List.length_eq_zero_iff]
        omega
      rw [Bool.and_eq_true, Bool.and_eq_true, decide_eq_true_eq, hlen]
      exact ⟨fun h => ⟨h.1.2, h.2⟩, fun h => ⟨⟨hselected, h.1⟩, h.2⟩⟩
    rw [if_pos hselected, if_pos hselected]
    by_cases hboth : R = [] ∧ directoryTargetOnlyDifference a b = true
    · rw [if_pos (hdropped.mpr hboth), if_pos hboth, hboth.1, List.append_nil, List.dropLast_concat]
      rfl
    · rw [if_neg fun h => hboth (hdropped.mp h), if_neg hboth, List.append_assoc]
      rfl
  · rw [if_neg hselected, if_neg hselected, if_neg (by simp [hselected])]
    rfl

variable (selections) in
/-- A socket that is not there is passed over, and has nothing below it. -/
theorem recordTreeDifference_socket (hB : B.Stored store) (hO : O.Stored store) (hn : slash ∉ n)
    (hvalid : validateName n = .ok ()) (hnone : entryNamed n B.entries = none) {entry : TreeEntry}
    (hentry : entryNamed n O.entries = some entry) (hkind : entry.kind = .SocketMarker) :
    (∀ pfx k, (splitFirst slash k).1 = n → ¬ Recorded selections B O pfx k) ∧
      ∀ go pfx changes, recordTreeDifference selections go pfx changes
        (entryNamed n B.entries, entryNamed n O.entries) = .ok changes := by
  constructor
  · rintro pfx k hk ⟨-, k', habove, hdiffers⟩
    rcases Dir.head_cases n k' with rfl | ⟨r, rfl⟩ | hother
    · rw [Dir.get_name B hn, Dir.get_name O hn] at hdiffers
      exact hdiffers.2 ⟨hnone, entry, hentry, hkind⟩
    · refine not_differs_below hB hO hn (by rw [hnone]; rfl) ?_ r hdiffers
      rw [hentry]
      simp [subtree, Option.filter, hkind]
    · exact hother (habove.first_eq.trans hk).symm
  · intro go pfx changes
    unfold recordTreeDifference
    rw [hnone, hentry]
    simp only [Option.none_or]
    rw [(entryNamed_some hentry).1, hvalid]
    simp [hkind, bind, Except.bind, pure, Except.pure]

/-- **One name**: it is recorded with what is below it. -/
theorem recordTreeDifference_eq (hB : B.Stored store) (hO : O.Stored store) {a b : Option TreeEntry}
    (h : Reported B.entries O.entries a b)
    (hsub : ∀ n, Reported B.entries O.entries (entryNamed n B.entries) (entryNamed n O.entries) →
      Records store selections (subtree (entryNamed n B.entries)) (subtree (entryNamed n O.entries))
        (B.subdir n) (O.subdir n)) :
    ∃ m e, a.or b = some e ∧ ∀ pfx, ∃ R,
      (∀ c, c ∈ R ↔ ∃ k, (splitFirst slash k).1 = e.name ∧ Recorded selections B O pfx k ∧
        c = changeAt B O pfx k) ∧
      R.Pairwise ListedBefore ∧
      ∀ fuel, m ≤ fuel → ∀ changes,
        recordTreeDifference selections (diffDirectory store selections fuel) pfx changes (a, b) =
          .ok (changes ++ R) := by
  obtain ⟨e, he, hslash, hne, rfl, rfl⟩ := reported_name hB hO h
  have hvalid : validateName e.name = .ok () := by
    rcases Option.or_eq_some_iff.mp he with h' | ⟨-, h'⟩
    · exact hB.validName (entryNamed_some h').2
    · exact hO.validName (entryNamed_some h').2
  by_cases hsocket : entryNamed e.name B.entries = none ∧
      ∃ entry, entryNamed e.name O.entries = some entry ∧ entry.kind = .SocketMarker
  · obtain ⟨hnone, entry, hentry, hkind⟩ := hsocket
    obtain ⟨hno, hrun⟩ :=
      recordTreeDifference_socket selections hB hO hslash hvalid hnone hentry hkind
    refine ⟨0, e, he, fun pfx =>
      ⟨[], fun c => ⟨fun hc => absurd hc List.not_mem_nil, ?_⟩, List.Pairwise.nil,
        fun fuel _ changes => by rw [hrun, List.append_nil]⟩⟩
    rintro ⟨k, hk, hrecorded, -⟩
    exact absurd hrecorded (hno pfx k hk)
  obtain ⟨m, hbelow⟩ := exists_recordsBelow hB hO hslash hne (hsub e.name h)
  refine ⟨m, e, he, fun pfx => ?_⟩
  obtain ⟨R, hR, hgo⟩ := hbelow pfx
  have hcode := fun fuel hf => recordTreeDifference_run he hvalid hsocket (hgo fuel hf)
  -- The paths that start with the name are the name and those below it.
  have hmembers : ∀ c, (∃ k, (splitFirst slash k).1 = e.name ∧ Recorded selections B O pfx k ∧
      c = changeAt B O pfx k) ↔
      (Recorded selections B O pfx e.name ∧ c = changeAt B O pfx e.name) ∨ c ∈ R := by
    intro c
    rw [hR.1]
    constructor
    · rintro ⟨k, hk, hrecorded, rfl⟩
      rcases Dir.head_cases e.name k with rfl | ⟨r, rfl⟩ | hother
      · exact Or.inl ⟨hrecorded, rfl⟩
      · exact Or.inr ⟨r, hrecorded, rfl⟩
      · exact absurd hk.symm hother
    · rintro (⟨hrecorded, rfl⟩ | ⟨r, hrecorded, rfl⟩)
      · exact ⟨e.name, by rw [splitFirst_of_notMem hslash], hrecorded, rfl⟩
      · exact ⟨_, by rw [splitFirst_append hslash], hrecorded, rfl⟩
  have hchange : changeAt B O pfx e.name =
      ⟨joinPath pfx e.name,
        changeAction (entryNamed e.name B.entries) (entryNamed e.name O.entries)⟩ := by
    unfold changeAt
    rw [Dir.get_name B hslash, Dir.get_name O hslash]
  by_cases hkeep : Recorded selections B O pfx e.name
  · refine ⟨changeAt B O pfx e.name :: R, fun c => ?_, ?_, fun fuel hf changes => ?_⟩
    · rw [hmembers, List.mem_cons]
      exact or_congr_left ⟨fun hc => ⟨hkeep, hc⟩, fun hc => hc.2⟩
    · refine List.pairwise_cons.mpr ⟨fun c hc habove => ?_, hR.2⟩
      obtain ⟨r, -, rfl⟩ := (hR.1 c).mp hc
      unfold changeAt at habove
      dsimp only at habove
      rw [joinPath_append_slash] at habove
      exact habove.not_below
    · rw [hcode fuel hf, if_pos hkeep.1,
        if_neg ((hR.recorded_iff hslash hne hkeep.1 h.1 hsocket).mp hkeep), hchange]
  · refine ⟨R, fun c => ?_, hR.2, fun fuel hf changes => ?_⟩
    · rw [hmembers]
      exact ⟨Or.inr, fun hc => hc.resolve_left fun hboth => hkeep hboth.1⟩
    · rw [hcode fuel hf]
      split_ifs with hselected hboth
      · rw [hboth.1, List.append_nil]
      · exact absurd ((hR.recorded_iff hslash hne hselected h.1 hsocket).mpr hboth) hkeep
      · rfl

/-- The names of a comparison, one after another. -/
theorem foldlM_recordTreeDifference (hB : B.Stored store) (hO : O.Stored store)
    (hsub : ∀ n, Reported B.entries O.entries (entryNamed n B.entries) (entryNamed n O.entries) →
      Records store selections (subtree (entryNamed n B.entries)) (subtree (entryNamed n O.entries))
        (B.subdir n) (O.subdir n))
    (pairs : List EntryPair) (h : ∀ p ∈ pairs, Reported B.entries O.entries p.1 p.2)
    (hnames : pairs.Pairwise NamedBefore) :
    ∃ m, ∀ pfx, ∃ R, (∀ c, c ∈ R ↔ ∃ k, (∃ p ∈ pairs, ∃ e, p.1.or p.2 = some e ∧
        (splitFirst slash k).1 = e.name) ∧ Recorded selections B O pfx k ∧ c = changeAt B O pfx k) ∧
      R.Pairwise ListedBefore ∧
      ∀ fuel, m ≤ fuel → ∀ changes,
        pairs.foldlM
          (recordTreeDifference selections (diffDirectory store selections fuel) pfx) changes =
          .ok (changes ++ R) := by
  induction pairs with
  | nil =>
    exact ⟨0, fun pfx =>
      ⟨[], by simp, List.Pairwise.nil, fun fuel _ changes => by simp [pure, Except.pure]⟩⟩
  | cons p pairs ih =>
    obtain ⟨hbefore, hrest⟩ := List.pairwise_cons.mp hnames
    obtain ⟨m, e, he, hone⟩ := recordTreeDifference_eq hB hO (h p List.mem_cons_self) hsub
    obtain ⟨m', hmany⟩ := ih (fun q hq => h q (List.mem_cons_of_mem _ hq)) hrest
    refine ⟨m + m', fun pfx => ?_⟩
    obtain ⟨R, hR, horder, hrun⟩ := hone pfx
    obtain ⟨R', hR', horder', hrun'⟩ := hmany pfx
    refine ⟨R ++ R', fun c => ?_, ?_, fun fuel hf changes => ?_⟩
    · rw [List.mem_append, hR, hR']
      constructor
      · rintro (⟨k, hk, hc⟩ | ⟨k, ⟨q, hq, hk⟩, hc⟩)
        · exact ⟨k, ⟨p, List.mem_cons_self, e, he, hk⟩, hc⟩
        · exact ⟨k, ⟨q, List.mem_cons_of_mem _ hq, hk⟩, hc⟩
      · rintro ⟨k, ⟨q, hq, e', he', hk⟩, hc⟩
        rcases List.mem_cons.mp hq with rfl | hq
        · rw [he, Option.some.injEq] at he'
          exact Or.inl ⟨k, by rw [hk, he'], hc⟩
        · exact Or.inr ⟨k, ⟨q, hq, e', he', hk⟩, hc⟩
    · -- Paths with different first names are not one above another.
      refine List.pairwise_append.mpr ⟨horder, horder', fun c hc d hd habove => ?_⟩
      obtain ⟨k, hk, -, rfl⟩ := (hR c).mp hc
      obtain ⟨k', ⟨q, hq, e', he', hk'⟩, -, rfl⟩ := (hR' d).mp hd
      have hsame := (AtOrAbove.of_joinPath habove).first_eq
      rw [hk, hk'] at hsame
      exact absurd (hbefore q hq e e' he he') (by rw [hsame]; exact lt_irrefl _)
    · rw [List.foldlM_cons, hrun fuel (by omega)]
      simp only [bind, Except.bind]
      rw [hrun' fuel (by omega), List.append_assoc]

/-- A recorded path starts with a name that is reported. -/
theorem reported_of_recorded (hB : B.Stored store) (hO : O.Stored store) {pfx k : Bytes}
    (h : Recorded selections B O pfx k) :
    ∃ a b e, Reported B.entries O.entries a b ∧ a.or b = some e ∧
    (splitFirst slash k).1 = e.name := by
  obtain ⟨-, k', habove, hdiffers⟩ := h
  rw [← habove.first_eq]
  obtain ⟨hslash, hcases⟩ := splitFirst_cases slash k'
  generalize hn : (splitFirst slash k').1 = n at hslash hcases
  have hdiff : entryNamed n B.entries ≠ entryNamed n O.entries := by
    intro heq
    have hget : B.get k' = O.get k' := by
      rcases hcases with hk | ⟨r, -, hk⟩
      · rw [hk] at hn
        dsimp only at hn
        rw [hn, Dir.get_name B hslash, Dir.get_name O hslash, heq]
      · rw [hk, Dir.get_below B hslash, Dir.get_below O hslash, subdir_eq_of_entry_eq hB hO heq]
    rw [hget] at hdiffers
    exact not_differs_self _ hdiffers
  have hrep : Reported B.entries O.entries (entryNamed n B.entries) (entryNamed n O.entries) :=
    ⟨hdiff, n, rfl, rfl⟩
  obtain ⟨e, he, -, -, -, -⟩ := reported_name hB hO hrep
  refine ⟨_, _, e, hrep, he, ?_⟩
  cases hb : entryNamed n B.entries with
  | some x =>
    rw [hb, Option.some_or, Option.some.injEq] at he
    rw [← he, (entryNamed_some hb).1]
  | none =>
    rw [hb, Option.none_or] at he
    rw [(entryNamed_some he).1]

variable (selections) in
/-- The pairs that a comparison goes through. -/
theorem diffDirectory_pairs {b o : Option ObjectId} (hB : MaybeDenotes store b B)
    (hO : MaybeDenotes store o O) :
    ∃ w, ∀ fuel, w ≤ fuel → ∀ pfx changes, diffDirectory store selections
      (fuel + 1) b o pfx changes =
      (mergeDiff B.entries O.entries).foldlM
        (recordTreeDifference selections (diffDirectory store selections fuel) pfx) changes := by
  cases b with
  | some b =>
    cases o with
    | some o =>
      obtain ⟨w, hw⟩ :=
        diffEntries_eq (DirDenotes.page hB) (DirDenotes.page hO) (DirDenotes.sorted hB)
          (DirDenotes.sorted hO)
      refine ⟨w, fun fuel hf pfx changes => ?_⟩
      rw [diffDirectory, hw fuel hf]
      rfl
    | none =>
      obtain ⟨w, hw⟩ := forEachEntry_eq (DirDenotes.page hB)
      refine ⟨w, fun fuel hf pfx changes => ?_⟩
      rw [show O = .nil from hO, show Dir.nil.entries = [] from rfl, mergeDiff_nil,
        diffDirectory, hw fuel hf]
      rfl
  | none =>
    rw [show B = .nil from hB]
    cases o with
    | some o =>
      obtain ⟨w, hw⟩ := forEachEntry_eq (DirDenotes.page hO)
      refine ⟨w, fun fuel hf pfx changes => ?_⟩
      rw [diffDirectory, hw fuel hf]
      rfl
    | none =>
      rw [show O = .nil from hO]
      exact ⟨0, fun fuel _ pfx changes => rfl⟩

variable (selections) in
/-- **The changes of a plan are the selected paths at or above a difference**, each once and a
directory before what is in it.

**Proof sketch.** Induction on the sizes of the two trees.  `diff_entries` reports the pairs of
unequal entries, and each visit records what is to be recorded at and below its name; equal entries
have equal contents, so nothing is recorded below a name that is not reported. -/
theorem diffDirectory_exact {b o : Option ObjectId} (hB : MaybeDenotes store b B)
    (hO : MaybeDenotes store o O) : Records store selections b o B O := by
  induction hsize : B.size + O.size using Nat.strong_induction_on generalizing b o B O with
  | _ s ih =>
    have hsub :
        ∀ n, Reported B.entries O.entries (entryNamed n B.entries) (entryNamed n O.entries) →
          Records store selections (subtree (entryNamed n B.entries))
          (subtree (entryNamed n O.entries)) (B.subdir n) (O.subdir n) := by
      intro n hrep
      refine ih _ ?_ (maybeDenotes_subtree hB.stored n) (maybeDenotes_subtree hO.stored n) rfl
      have hsizeB := size_subdir_le B n
      have hsizeO := size_subdir_le O n
      cases heB : entryNamed n B.entries with
      | some e =>
        have := Dir.size_subdir_lt heB
        omega
      | none =>
        cases heO : entryNamed n O.entries with
        | some e =>
          have := Dir.size_subdir_lt heO
          omega
        | none => exact absurd (heB.trans heO.symm) hrep.1
    have hrep : ∀ p ∈ mergeDiff B.entries O.entries, Reported B.entries O.entries p.1 p.2 :=
      fun p hp => (mem_mergeDiff_iff hB.sorted hO.sorted).mp hp
    obtain ⟨w, hw⟩ := diffDirectory_pairs selections hB hO
    obtain ⟨m, hfold⟩ := foldlM_recordTreeDifference hB.stored hO.stored hsub _ hrep
      (mergeDiff_pairwise hB.sorted hO.sorted)
    refine ⟨w + m + 1, fun pfx => ?_⟩
    obtain ⟨R, hR, horder, hrun⟩ := hfold pfx
    refine ⟨R, fun c => (hR c).trans ?_, horder, fun fuel hf changes => ?_⟩
    · refine exists_congr fun k => ⟨fun hc => hc.2, fun hc => ⟨?_, hc⟩⟩
      obtain ⟨a, b', e, hab, he, hk⟩ := reported_of_recorded hB.stored hO.stored hc.1
      exact ⟨(a, b'), (mem_mergeDiff_iff hB.sorted hO.sorted).mpr hab, e, he, hk⟩
    · obtain ⟨f, rfl⟩ : ∃ f, fuel = f + 1 := ⟨fuel - 1, by omega⟩
      rw [hw f (by omega), hrun f (by omega)]

/-- The changes of a rewind from one root to another. -/
theorem rewindChanges_exact {b o : ObjectId} (hB : DirDenotes store b B)
    (hO : DirDenotes store o O) :
    ∃ m R,
      (∀ fuel, m ≤ fuel → diffDirectory store selections fuel (some b) (some o) [] [] = .ok R) ∧
      R.Pairwise (fun c d => ¬ AtOrAbove d.rawPath c.rawPath) ∧
      ∀ c, c ∈ R ↔ ∃ k, (Relink.selected k selections = true ∧
        ∃ k', AtOrAbove k k' ∧ Differs (B.get k') (O.get k')) ∧
          c = ⟨k, changeAction (B.get k) (O.get k)⟩ := by
  obtain ⟨m, hrecords⟩ :=
    diffDirectory_exact selections (show MaybeDenotes store (some b) B from hB)
      (show MaybeDenotes store (some o) O from hO)
  obtain ⟨R, hR, horder, hrun⟩ := hrecords []
  exact ⟨m, R, fun fuel hf => hrun fuel hf [], horder, hR⟩

end Exact

/-- From the root with `d/f` and `d-x` to the one with `d/f`, `d/g` and another `d-x`. -/
theorem rewindChanges_exact_sample :
    ∃ B O, DirDenotes sampleStore (.fill 1) B ∧ DirDenotes sampleStore (.fill 3) O ∧
      ∃ m R, (∀ fuel, m ≤ fuel →
          diffDirectory sampleStore [] fuel (some (.fill 1)) (some (.fill 3)) [] [] = .ok R) ∧
        R.Pairwise (fun c d => ¬ AtOrAbove d.rawPath c.rawPath) ∧
        ∀ c, c ∈ R ↔ ∃ k, (Relink.selected k [] = true ∧
          ∃ k', AtOrAbove k k' ∧ Differs (B.get k') (O.get k')) ∧
            c = ⟨k, changeAction (B.get k) (O.get k)⟩ := by
  obtain ⟨⟨B, hB⟩, -, ⟨O, hO⟩, -, -⟩ := sample_wellFormed
  exact ⟨B, O, hB, hO, rewindChanges_exact hB hO⟩

-- The directory is recorded for the file that is made in it.
example : diffDirectory sampleStore [] 9 (some (.fill 1)) (some (.fill 3)) [] [] =
    .ok [⟨[100], .replace⟩, ⟨[100, 47, 103], .restore⟩, ⟨[100, 45, 120], .replace⟩] := by
  decide

end Furrow
