import Furrow.Merge.Trees

set_option relaxedAutoImplicit false
set_option autoImplicit false

/-!
# Applying a plan

The changes of a plan made on our side: what a merge without conflicts leaves at each path, that
it leaves a tree, and that it does not matter which of the two sides is ours.

## Main definitions

* `Furrow.applyChanges` — the changes of a plan, made on a map.
* `Furrow.mergedEntry` — what a merge leaves at a path.
* `Furrow.HasParents` — the parent of every path is a directory.

## Main results

* `Furrow.get?_applyChanges` — a merge without conflicts, path by path.
* `Furrow.plan_merges` — it leaves a tree with the right contents.
* `Furrow.plan_symmetric` — merging is symmetric.
-/

namespace Furrow

/-- Make one change. -/
def MergeChange.apply (side : OrdMap Bytes TreeEntry) (change : MergeChange) :
    OrdMap Bytes TreeEntry :=
  match change.action with
  | .Set entry => side.insert change.path entry
  | .Remove => side.erase change.path

/-- Make the changes of a plan. -/
def applyChanges (changes : List MergeChange) (side : OrdMap Bytes TreeEntry) :
    OrdMap Bytes TreeEntry :=
  changes.foldl MergeChange.apply side

/-- The entry that an action leaves. -/
def MergeAction.entry : MergeAction → Option TreeEntry
  | .Set entry => some entry
  | .Remove => none

/-- What a merge leaves at a path. -/
def mergedEntry (base ours theirs : Option TreeEntry) : Option TreeEntry :=
  if equivalent ours theirs then ours else if equivalent base ours then theirs else ours

/-- The parent of every path is a directory. -/
def HasParents (S : OrdMap Bytes TreeEntry) : Prop :=
  ∀ d n, slash ∉ n → (S.get? (d ++ slash :: n)).isSome → isDirectory (S.get? d) = true

/-! ## Parents -/

/-- If the parents are directories, everything above a path is one.

**Proof sketch.** Induction on the length of what stands behind the path above.  If that has a
separator, it is cut at the first one: what is above the rest is a directory, so it is there, and
its parent is the path above. -/
theorem HasParents.parentClosed {S : OrdMap Bytes TreeEntry} (h : HasParents S) :
    ParentClosed S := by
  rintro d _ ⟨r, rfl⟩ hsome
  induction hlen : r.length using Nat.strong_induction_on generalizing d r with
  | _ len ih =>
    by_cases hr : slash ∈ r
    · obtain ⟨n, rest, rfl, hn⟩ := List.eq_append_cons_of_mem hr
      have hassoc : d ++ slash :: (n ++ slash :: rest) = d ++ slash :: n ++ slash :: rest := by
        simp
      rw [hassoc] at hsome
      have hdir := ih rest.length (by rw [← hlen]; simp; omega) (d ++ slash :: n) rest hsome rfl
      apply h d n hn
      exact Option.isSome_iff_ne_none.mpr (ne_none_of_isDirectory hdir)
    · exact h d r hr hsome

/-- A closed side has the parents of what it has. -/
theorem ParentClosed.hasParents {S : OrdMap Bytes TreeEntry} (h : ParentClosed S) :
    HasParents S := fun d n _ hsome => h d _ ⟨n, rfl⟩ hsome

/-- Nothing is below a path that is not a directory. -/
theorem ParentClosed.get?_eq_none {S : OrdMap Bytes TreeEntry} (h : ParentClosed S) {d k : Bytes}
    (hk : SepOrder.Below slash d k) (hd : isDirectory (S.get? d) = false) : S.get? k = none := by
  rw [← Option.not_isSome_iff_eq_none]
  intro hsome
  rw [h d k hk hsome] at hd
  exact absurd hd (by decide)

/-! ## Changes one after the other -/

/-- A change decides its own path, and leaves the others. -/
theorem get?_apply (side : OrdMap Bytes TreeEntry) (change : MergeChange) (k : Bytes) :
    (change.apply side).get? k = if k = change.path then change.action.entry else side.get? k := by
  obtain ⟨path, action⟩ := change
  cases action with
  | Set entry =>
    rw [MergeChange.apply, OrdMap.get?_insert]
    split_ifs <;> rfl
  | Remove =>
    rw [MergeChange.apply, OrdMap.get?_erase]
    split_ifs <;> rfl

/-- The changes that a loop over paths collects, made on a map. -/
theorem get?_applyChanges_pathChanges (outcome : Bytes → PathOutcome) {paths : List Bytes}
    (hpaths : paths.Pairwise (· < ·)) (side : OrdMap Bytes TreeEntry) (k : Bytes) :
    (applyChanges (pathChanges outcome paths) side).get? k =
      if k ∈ paths then
        match outcome k with
        | .change action => action.entry
        | _ => side.get? k
      else side.get? k := by
  induction paths generalizing side with
  | nil => rfl
  | cons path paths ih =>
    obtain ⟨hlt, hpaths'⟩ := List.pairwise_cons.mp hpaths
    have hnot : path ∉ paths := fun hmem => absurd (hlt path hmem) (lt_irrefl _)
    have hstep : applyChanges (pathChanges outcome (path :: paths)) side =
        applyChanges (pathChanges outcome paths) (match outcome path with
          | .change action => MergeChange.apply side ⟨path, action⟩
          | _ => side) := by
      unfold applyChanges pathChanges
      rw [List.filterMap_cons]
      cases outcome path <;> rfl
    rw [hstep, ih hpaths']
    by_cases hk : k = path
    · subst hk
      rw [if_neg hnot, if_pos List.mem_cons_self]
      cases outcome k with
      | change action => rw [get?_apply, if_pos rfl]
      | keep => rfl
      | conflict kind => rfl
    · have hside : (match outcome path with
          | .change action => MergeChange.apply side ⟨path, action⟩
          | _ => side).get? k = side.get? k := by
        cases outcome path with
        | change action => rw [get?_apply, if_neg hk]
        | keep => rfl
        | conflict kind => rfl
      simp only [List.mem_cons, hk, false_or, hside]

/-! ## Conflicts -/

section Conflicts

variable {B O T : OrdMap Bytes TreeEntry}

/-- The paths of a merge are those of the three sides. -/
theorem mem_paths {k : Bytes} :
    k ∈ pathSet (B.keys ++ O.keys ++ T.keys) ↔
      (B.get? k).isSome ∨ (O.get? k).isSome ∨ (T.get? k).isSome := by
  simp only [mem_pathSet, List.mem_append, OrdMap.mem_keys_iff, or_assoc]

/-- A conflict of the loop is at a path that one of the maps has. -/
theorem flatOutcome_of_absent {k : Bytes} (hk : k ∉ pathSet (B.keys ++ O.keys ++ T.keys)) :
    flatOutcome B O T k = .keep := by
  rw [mem_paths, not_or, not_or] at hk
  simp only [Option.not_isSome_iff_eq_none] at hk
  unfold flatOutcome mergePath
  rw [hk.2.1, hk.2.2, equivalent_self, if_pos rfl]

/-- The conflicts of a plan: those of the loop and, where it has none, those of lost
directories. -/
theorem mem_conflicts {c : MergeConflict} :
    c ∈ (plan B O T).conflicts ↔ flatOutcome B O T c.path = .conflict c.kind ∨
      (c.kind = .Ancestor ∧ (isDirectory (B.get? c.path) = true ∧
        ancestorConflict B O T c.path = true) ∧ Free B O T c.path) := by
  have hdistinct := distinctPaths_pathConflicts (flatOutcome B O T)
    (pathSet_sorted (B.keys ++ O.keys ++ T.keys))
  have hloop : ∀ c : MergeConflict, c ∈ pathConflicts (flatOutcome B O T)
      (pathSet (B.keys ++ O.keys ++ T.keys)) ↔ flatOutcome B O T c.path = .conflict c.kind := by
    intro c
    rw [mem_pathConflicts]
    refine ⟨fun h => h.2, fun h => ⟨?_, h⟩⟩
    by_contra habsent
    rw [flatOutcome_of_absent habsent] at h
    exact absurd h (by simp)
  have hfree : (∀ c' ∈ pathConflicts (flatOutcome B O T) (pathSet (B.keys ++ O.keys ++ T.keys)),
      c'.path ≠ c.path) ↔ Free B O T c.path := by
    simp only [hloop]
    constructor
    · intro h kind hkind
      exact h ⟨c.path, kind⟩ hkind rfl
    · intro h c' hc' hpath
      exact h c'.kind (hpath ▸ hc')
  unfold plan
  dsimp only
  rw [finish_conflicts (distinctPaths_foldl hdistinct), List.mem_insertionSort,
    mem_foldl_addAncestorConflict, hloop, mem_flatAncestors, hfree]

/-- A plan without conflicts: the loop has none, and no directory is lost. -/
theorem conflicts_eq_nil_iff :
    (plan B O T).conflicts = [] ↔ (∀ d, Free B O T d) ∧
      ∀ d, isDirectory (B.get? d) = true → ancestorConflict B O T d = false := by
  rw [List.eq_nil_iff_forall_not_mem]
  simp only [mem_conflicts, not_or]
  constructor
  · intro h
    have hfree : ∀ d, Free B O T d := fun d kind hkind => (h ⟨d, kind⟩).1 hkind
    refine ⟨hfree, fun d hd => ?_⟩
    rw [Bool.eq_false_iff]
    intro hancestor
    exact (h ⟨d, .Ancestor⟩).2 ⟨rfl, ⟨hd, hancestor⟩, hfree d⟩
  · rintro ⟨hfree, hancestor⟩ c
    refine ⟨hfree c.path c.kind, ?_⟩
    rintro ⟨-, ⟨hd, hc⟩, -⟩
    rw [hancestor c.path hd] at hc
    exact absurd hc (by decide)

/-- **A merge without conflicts, path by path.** -/
theorem get?_applyChanges (h : (plan B O T).conflicts = []) (k : Bytes) :
    (applyChanges (plan B O T).changes O).get? k =
      mergedEntry (B.get? k) (O.get? k) (T.get? k) := by
  have hchanges : (plan B O T).changes =
      pathChanges (flatOutcome B O T) (pathSet (B.keys ++ O.keys ++ T.keys)) := by
    unfold plan finish at h ⊢
    dsimp only at h ⊢
    rw [h]
    simp
  have hkeep : ∀ b o t : Option TreeEntry, (match mergePath b o t with
      | .change action => action.entry
      | _ => o) = mergedEntry b o t := by
    intro b o t
    unfold mergePath mergedEntry
    split_ifs
    · rfl
    · cases t <;> rfl
    · rfl
    · rfl
  rw [hchanges, get?_applyChanges_pathChanges _ (pathSet_sorted _)]
  split_ifs with hk
  · exact hkeep _ _ _
  · have hout := flatOutcome_of_absent hk
    unfold flatOutcome at hout
    rw [← hkeep, hout]

end Conflicts

/-! ## What a merge leaves -/

/-- What a merge leaves at a path where the loop has no conflict. -/
structure MergedAt (base ours theirs merged : Option TreeEntry) : Prop where
  byTheirs : equivalent base ours = true → equivalent base theirs = false → merged = theirs
  byOurs : equivalent base ours = false → equivalent base theirs = true → merged = ours
  byBoth : equivalent base ours = false → equivalent base theirs = false →
    equivalent merged ours = true ∧ equivalent merged theirs = true
  byNeither : equivalent base ours = true → equivalent base theirs = true → merged = ours

/-- Sides that both differ from the base are equivalent, where there is no conflict. -/
theorem Free.equivalent {B O T : OrdMap Bytes TreeEntry} {k : Bytes} (h : Free B O T k)
    (hO : equivalent (B.get? k) (O.get? k) = false)
    (hT : equivalent (B.get? k) (T.get? k) = false) :
    equivalent (O.get? k) (T.get? k) = true := by
  by_contra hne
  apply h (directConflict (B.get? k) (O.get? k) (T.get? k))
  unfold flatOutcome mergePath
  rw [if_neg hne, hO, hT]
  rfl

/-- A free path is merged to its entry. -/
theorem mergedAt {B O T : OrdMap Bytes TreeEntry} {k : Bytes} (h : Free B O T k) :
    MergedAt (B.get? k) (O.get? k) (T.get? k)
      (mergedEntry (B.get? k) (O.get? k) (T.get? k)) where
  byTheirs hO hT := by
    have hne : equivalent (O.get? k) (T.get? k) = false := by rw [← equivalent_trans hO, hT]
    rw [mergedEntry, hne, hO]
    rfl
  byOurs hO hT := by
    simp [mergedEntry, hO]
  byBoth hO hT := by
    have heq := h.equivalent hO hT
    rw [mergedEntry, if_pos heq]
    exact ⟨equivalent_self _, heq⟩
  byNeither hO hT := by
    have heq : equivalent (O.get? k) (T.get? k) = true := by rw [← equivalent_trans hO, hT]
    rw [mergedEntry, if_pos heq]

section Parents

variable {B O T : OrdMap Bytes TreeEntry}

/-- Where one side has lost a directory, the other has changed nothing below it. -/
theorem unchanged_below (h : (plan B O T).conflicts = []) {d k : Bytes}
    (hd : isDirectory (B.get? d) = true) (hk : SepOrder.Below slash d k) :
    (isDirectory (O.get? d) = false → isDirectory (T.get? d) = true →
        equivalent (B.get? k) (T.get? k) = true) ∧
      (isDirectory (T.get? d) = false → isDirectory (O.get? d) = true →
        equivalent (B.get? k) (O.get? k) = true) := by
  have hno := (conflicts_eq_nil_iff.mp h).2 d hd
  rw [Bool.eq_false_iff, ne_eq, ancestorConflict_iff, not_or] at hno
  constructor
  · intro hO hT
    by_contra hne
    exact hno.1 ⟨hO, hT, k, hk, Bool.eq_false_of_not_eq_true hne⟩
  · intro hT hO
    by_contra hne
    exact hno.2 ⟨hT, hO, k, hk, Bool.eq_false_of_not_eq_true hne⟩

/-- **A merge without conflicts leaves a tree.**

**Proof sketch.** An entry that is left is ours or theirs, so the paths above it are directories on
that side.  If such a path is taken from the other side and is no directory there, that side has
lost a directory of the base; the side of the entry then has changed nothing below it, so the
entry would have been taken from the other side, which has nothing there. -/
theorem parentClosed_applyChanges (hO : ParentClosed O) (hT : ParentClosed T)
    (h : (plan B O T).conflicts = []) : ParentClosed (applyChanges (plan B O T).changes O) := by
  intro d k hk hsome
  rw [get?_applyChanges h] at hsome ⊢
  have hfree := (conflicts_eq_nil_iff.mp h).1 d
  by_contra hno
  rw [Bool.not_eq_true] at hno
  unfold mergedEntry at hsome hno
  by_cases hkeep :
      equivalent (O.get? k) (T.get? k) = false ∧ equivalent (B.get? k) (O.get? k) = true
  · -- the entry is theirs
    rw [hkeep.1, hkeep.2, if_neg Bool.false_ne_true, if_pos rfl] at hsome
    have hTd := hT d k hk hsome
    split_ifs at hno with heq hbase
    · rw [isDirectory_eq_of_equivalent heq, hTd] at hno
      exact absurd hno (by decide)
    · rw [hTd] at hno
      exact absurd hno (by decide)
    · have hBT : equivalent (B.get? d) (T.get? d) = true := by
        by_contra hBT
        exact heq (hfree.equivalent (Bool.eq_false_of_not_eq_true hbase)
          (Bool.eq_false_of_not_eq_true hBT))
      have hBd : isDirectory (B.get? d) = true := by
        rw [isDirectory_eq_of_equivalent hBT, hTd]
      have hsame := (unchanged_below h hBd hk).1 hno hTd
      rw [equivalent_trans hkeep.2, hkeep.1] at hsame
      exact absurd hsame (by decide)
  · -- the entry is ours
    have hours : (O.get? k).isSome = true := by
      split_ifs at hsome with heq hbase
      · exact hsome
      · exact absurd ⟨Bool.eq_false_of_not_eq_true heq, hbase⟩ hkeep
      · exact hsome
    have hOd := hO d k hk hours
    split_ifs at hno with heq hbase
    · rw [hOd] at hno
      exact absurd hno (by decide)
    · have hBd : isDirectory (B.get? d) = true := by
        rw [isDirectory_eq_of_equivalent hbase, hOd]
      have hsame := (unchanged_below h hBd hk).2 hno hOd
      have hnone := hT.get?_eq_none hk hno
      apply hkeep
      refine ⟨?_, hsame⟩
      obtain ⟨e, he⟩ := Option.isSome_iff_exists.mp hours
      rw [he, hnone]
      rfl
    · rw [hOd] at hno
      exact absurd hno (by decide)

end Parents

/-- **A merge without conflicts leaves a tree with the right contents**: each path has the entry
of the side that changed it, and nothing is left below a path that is not a directory. -/
theorem plan_merges {B O T : OrdMap Bytes TreeEntry} (hO : HasParents O) (hT : HasParents T)
    (h : (plan B O T).conflicts = []) :
    HasParents (applyChanges (plan B O T).changes O) ∧
      (∀ k, MergedAt (B.get? k) (O.get? k) (T.get? k)
        ((applyChanges (plan B O T).changes O).get? k)) ∧
      ∀ d k, SepOrder.Below slash d k →
        isDirectory ((applyChanges (plan B O T).changes O).get? d) = false →
          (applyChanges (plan B O T).changes O).get? k = none := by
  have hclosed := parentClosed_applyChanges hO.parentClosed hT.parentClosed h
  refine ⟨hclosed.hasParents, fun k => ?_, fun d k hk hd => hclosed.get?_eq_none hk hd⟩
  rw [get?_applyChanges h]
  exact mergedAt ((conflicts_eq_nil_iff.mp h).1 k)

/-- A directory `d` with a file `d/f`. -/
def sampleSide (content : Byte) : OrdMap Bytes TreeEntry :=
  (OrdMap.empty.insert [100] (sampleDirectory [100] (.fill 11))).insert [100, 47, 102]
    (sampleFile [102] content)

/-- The sample has its directories. -/
theorem sampleSide_hasParents (content : Byte) : HasParents (sampleSide content) := by
  intro d n hn hsome
  have hkeys : (sampleSide content).keys = [[100], [100, 47, 102]] := rfl
  rw [← OrdMap.mem_keys_iff, hkeys, List.mem_cons, List.mem_singleton] at hsome
  rcases hsome with h | h
  · exact absurd h (SepOrder.append_sep_ne (by decide) n)
  · obtain ⟨rfl, -⟩ : d = [100] ∧ n = [102] := by
      match d, h with
      | [], h => exact absurd (List.cons.inj h).1 (by decide)
      | [c], h => simpa [slash] using h
      | [c, c'], h => simp [slash] at h
      | c :: c' :: c'' :: rest, h => simpa using congrArg List.length h
    rfl

/-- The content that theirs has changed is taken over. -/
theorem plan_merges_sample :
    (applyChanges (plan (sampleSide 1) (sampleSide 1) (sampleSide 2)).changes
      (sampleSide 1)).get? [100, 47, 102] = (sampleSide 2).get? [100, 47, 102] :=
  ((plan_merges (sampleSide_hasParents 1) (sampleSide_hasParents 2) (by decide)).2.1
    [100, 47, 102]).byTheirs (by decide) (by decide)

/-! ## Symmetry -/

/-- A conflict at a path is one from either side. -/
theorem directConflict_comm (b o t : Option TreeEntry) :
    directConflict b o t = directConflict b t o := by
  unfold directConflict
  cases o with
  | none => cases t <;> rfl
  | some o =>
    cases t with
    | none => rfl
    | some t =>
      dsimp only
      by_cases hk : o.kind = t.kind
      · simp only [hk]
      · rw [if_pos (Or.inl hk), if_pos (Or.inl (Ne.symm hk))]

/-- The loop has the same conflicts with the sides exchanged. -/
theorem flatOutcome_conflict_comm (B O T : OrdMap Bytes TreeEntry) (k : Bytes)
    (kind : ConflictKind) :
    flatOutcome B O T k = .conflict kind ↔ flatOutcome B T O k = .conflict kind := by
  unfold flatOutcome mergePath
  rw [equivalent_comm (T.get? k) (O.get? k), directConflict_comm _ (T.get? k)]
  split_ifs <;> simp

/-- A conflict above a path is one from either side. -/
theorem ancestorConflict_comm (B O T : OrdMap Bytes TreeEntry) (d : Bytes) :
    ancestorConflict B O T d = ancestorConflict B T O d := by
  rw [Bool.eq_iff_iff, ancestorConflict_iff, ancestorConflict_iff, or_comm]

/-- The conflicts of a plan are in order, one for each path. -/
theorem conflicts_sorted (B O T : OrdMap Bytes TreeEntry) :
    (plan B O T).conflicts.Pairwise fun a b => a.path < b.path := by
  have hdistinct := distinctPaths_pathConflicts (flatOutcome B O T)
    (pathSet_sorted (B.keys ++ O.keys ++ T.keys))
  unfold plan
  dsimp only
  rw [finish_conflicts (distinctPaths_foldl hdistinct)]
  exact sort_strict (distinctPaths_foldl hdistinct)

/-- The conflicts are the same from either side. -/
theorem conflicts_comm (B O T : OrdMap Bytes TreeEntry) :
    (plan B O T).conflicts = (plan B T O).conflicts := by
  refine List.Perm.eq_of_pairwise (fun a b _ _ hab hba => ?_) (conflicts_sorted B O T)
    (conflicts_sorted B T O) ?_
  · exact absurd (lt_trans hab hba) (lt_irrefl _)
  · have hnodup : ∀ O T : OrdMap Bytes TreeEntry, (plan B O T).conflicts.Nodup :=
      fun O T => (conflicts_sorted B O T).imp fun hab heq =>
        absurd (heq ▸ hab) (lt_irrefl _)
    refine (List.perm_ext_iff_of_nodup (hnodup O T) (hnodup T O)).mpr fun c => ?_
    simp only [mem_conflicts, Free, ne_eq, flatOutcome_conflict_comm B O T,
      ancestorConflict_comm B O T]

/-- What is left at a path without conflict is the same from both sides, times and directory
contents apart. -/
theorem mergedEntry_comm {B O T : OrdMap Bytes TreeEntry} {k : Bytes} (h : Free B O T k) :
    equivalent (mergedEntry (B.get? k) (O.get? k) (T.get? k))
      (mergedEntry (B.get? k) (T.get? k) (O.get? k)) = true := by
  unfold mergedEntry
  rw [equivalent_comm (T.get? k) (O.get? k)]
  split_ifs with heq hO hT hT
  · exact heq
  · exact absurd ((equivalent_trans hO).symm.trans hT) heq
  · exact equivalent_self _
  · exact equivalent_self _
  · exact absurd (h.equivalent (Bool.eq_false_of_not_eq_true hO)
      (Bool.eq_false_of_not_eq_true hT)) heq

/-- **Merging is symmetric**: the same conflicts, and without conflicts the same paths with
equivalent entries. -/
theorem plan_symmetric (B O T : OrdMap Bytes TreeEntry) :
    (plan B O T).conflicts = (plan B T O).conflicts ∧
      ((plan B O T).conflicts = [] →
        (applyChanges (plan B O T).changes O).keys = (applyChanges (plan B T O).changes T).keys ∧
          ∀ k, equivalent ((applyChanges (plan B O T).changes O).get? k)
            ((applyChanges (plan B T O).changes T).get? k) = true) := by
  refine ⟨conflicts_comm B O T, fun h => ?_⟩
  have h' : (plan B T O).conflicts = [] := by rw [← conflicts_comm, h]
  have hsame : ∀ k, equivalent ((applyChanges (plan B O T).changes O).get? k)
      ((applyChanges (plan B T O).changes T).get? k) = true := by
    intro k
    rw [get?_applyChanges h, get?_applyChanges h']
    exact mergedEntry_comm ((conflicts_eq_nil_iff.mp h).1 k)
  refine ⟨?_, hsame⟩
  have hkeys := OrdMap.filterMap_congr_of_sorted (f := some)
    (applyChanges (plan B O T).changes O).keys_sorted
    (applyChanges (plan B T O).changes T).keys_sorted fun k _ => by
      rw [OrdMap.mem_keys_iff, OrdMap.mem_keys_iff, Option.isSome_iff_ne_none,
        Option.isSome_iff_ne_none, ne_eq, ne_eq, equivalent_none_iff (hsame k)]
  simpa using hkeys

/-- The merged directory is the same from either side. -/
theorem plan_symmetric_sample :
    equivalent ((applyChanges (plan (sampleSide 1) (sampleSide 1) (sampleSide 2)).changes
        (sampleSide 1)).get? [100])
      ((applyChanges (plan (sampleSide 1) (sampleSide 2) (sampleSide 1)).changes
        (sampleSide 2)).get? [100]) = true :=
  ((plan_symmetric (sampleSide 1) (sampleSide 1) (sampleSide 2)).2 (by decide)).2 [100]

end Furrow
