import Furrow.Tree.Build

set_option relaxedAutoImplicit false
set_option autoImplicit false

/-!
# The levels of a tree

`Builder::finish` writes one level of branches after the other until one page is left.  A branch
takes references up to a target length, and a reference holds two names, each byte of which is a
decimal number.  A level is shorter than the one below exactly if two neighbouring references fit
on one branch; if none do, every branch holds one reference, with the same names as before, and
the loop goes on.

## Main definitions

* `Furrow.NeighboursShare` — two neighbouring references fit on one branch, or one fits on none.
* `Furrow.LevelAbove` — the levels that are reached.
* `Furrow.Stuck` — references whose names alone keep them apart.

## Main results

* `Furrow.levelShrinks_iff` — when a level is shorter than the one below.
* `Furrow.branchLevels_returns` — if every level is, the loop returns.
* `Furrow.branchLevels_of_stuck` — if the names are too long, it never does.
-/

namespace Furrow

/-! ## One level -/

/-- Neighbouring references that are too long to share a branch. -/
abbrev RefsApart (p q : TreePage) : Prop :=
  Paging.Apart branchOverhead targetTreePageBytes TreePage.jsonLen p q

/-- Two neighbouring references fit on one branch, or a reference fits on none: then the level is
refused. -/
def NeighboursShare (pages : List TreePage) : Prop :=
  ¬ pages.IsChain RefsApart ∨ ∃ p ∈ pages, maxTreePageBytes < branchOverhead + p.jsonLen

instance (pages : List TreePage) : Decidable (NeighboursShare pages) :=
  inferInstanceAs (Decidable (_ ∨ _))

/-- A level that is written is shorter than the one below. -/
def LevelShrinks (idOf : Object → ObjectId) (pages : List TreePage) : Prop :=
  ∀ level os, writeBranchLevel idOf pages = .ok (level, os) → level.length < pages.length

section Level

variable {idOf : Object → ObjectId}

/-- The length of a branch is the length of its page. -/
theorem jsonList_pages (group : List TreePage) :
    jsonList [jsonField "pages" (jsonList (group.map TreePage.jsonLen))] =
      Paging.pageLen branchOverhead TreePage.jsonLen group := by
  have hname : "pages".length = 5 := rfl
  have hoverhead : branchOverhead = 12 := rfl
  simp only [Paging.pageLen, hoverhead, jsonList, jsonField, hname, List.sum_cons, List.sum_nil,
    List.length_map, List.length_singleton]
  omega

/-- The reference to a branch. -/
def branchPage (idOf : Object → ObjectId) (first last : TreePage) (group : List TreePage) :
    TreePage :=
  ⟨first.firstName, last.lastName, (group.map TreePage.entryCount).sum, idOf (.tree ⟨[], group⟩)⟩

/-- A branch within the bound is stored. -/
theorem storeBranch_of_le {group : List TreePage} {first last : TreePage}
    (hfirst : group.head? = some first) (hlast : group.getLast? = some last)
    (hlen : Paging.pageLen branchOverhead TreePage.jsonLen group ≤ maxTreePageBytes) :
    storeBranch idOf group =
      .ok (branchPage idOf first last group, .tree ⟨[], group⟩) := by
  unfold storeBranch
  rw [hfirst, hlast]
  dsimp only
  rw [if_pos (by rw [jsonList_pages]; exact hlen)]
  rfl

/-- A branch of some pages within the limit is stored. -/
theorem exists_storeBranch (idOf : Object → ObjectId) {group : List TreePage} (hne : group ≠ [])
    (hlen : Paging.pageLen branchOverhead TreePage.jsonLen group ≤ maxTreePageBytes) :
    ∃ result, storeBranch idOf group = .ok result := by
  obtain ⟨first, rest, rfl⟩ := List.exists_cons_of_ne_nil hne
  exact ⟨_, storeBranch_of_le rfl (List.getLast?_eq_some_getLast hne) hlen⟩

/-- Groups that can be stored are stored one by one. -/
theorem exists_storeAll {α : Type} {storeOne : List α → Except BuildError (TreePage × Object)}
    {groups : List (List α)} (h : ∀ g ∈ groups, ∃ result, storeOne g = .ok result) :
    ∃ pages os, storeAll storeOne groups = .ok (pages, os) := by
  induction groups with
  | nil => exact ⟨[], [], rfl⟩
  | cons group groups ih =>
    obtain ⟨⟨page, o⟩, hone⟩ := h group List.mem_cons_self
    obtain ⟨pages, os, hall⟩ := ih fun g hg => h g (List.mem_cons_of_mem _ hg)
    refine ⟨page :: pages, o :: os, ?_⟩
    unfold storeAll
    rw [hone, hall]
    rfl

/-- One page is stored for each group. -/
theorem length_storeAll {α : Type} {storeOne : List α → Except BuildError (TreePage × Object)}
    {groups : List (List α)} {pages : List TreePage} {os : List Object}
    (h : storeAll storeOne groups = .ok (pages, os)) : pages.length = groups.length := by
  induction groups generalizing pages os with
  | nil =>
    cases h
    rfl
  | cons group groups ih =>
    unfold storeAll at h
    obtain ⟨⟨page, o⟩, -, h⟩ := Fallible.exists_of_bind_eq_ok h
    obtain ⟨⟨pages', os'⟩, hrest, h⟩ := Fallible.exists_of_bind_eq_ok h
    cases h
    rw [List.length_cons, List.length_cons, ih hrest]

/-- A level above some pages has a page. -/
theorem level_ne_nil {pages level : List TreePage} {os : List Object} (hne : pages ≠ [])
    (h : writeBranchLevel idOf pages = .ok (level, os)) : level ≠ [] := by
  unfold writeBranchLevel at h
  cases hgroups : Paging.pages branchOverhead targetTreePageBytes maxTreePageBytes
      TreePage.jsonLen pages with
  | none =>
    rw [hgroups] at h
    cases h
  | some groups =>
    rw [hgroups] at h
    have hlen := length_storeAll h
    rintro rfl
    rw [List.length_nil, eq_comm, List.length_eq_zero_iff] at hlen
    exact Paging.pages_ne_nil hgroups hne hlen

/-- A level without a reference that is too long is written, one page for each group. -/
theorem exists_writeBranchLevel (idOf : Object → ObjectId) {pages : List TreePage}
    (hsmall : ∀ p ∈ pages, branchOverhead + p.jsonLen ≤ maxTreePageBytes) :
    ∃ groups level os, Paging.pages branchOverhead targetTreePageBytes maxTreePageBytes
        TreePage.jsonLen pages = some groups ∧
      writeBranchLevel idOf pages = .ok (level, os) ∧ level.length = groups.length := by
  cases hgroups : Paging.pages branchOverhead targetTreePageBytes maxTreePageBytes
      TreePage.jsonLen pages with
  | none =>
    obtain ⟨p, hp, hlarge⟩ := (Paging.pages_eq_none_iff (by decide)).mp hgroups
    exact absurd (hsmall p hp) (not_le.mpr hlarge)
  | some groups =>
    have hne := (Paging.flatten_pages hgroups).2
    have hlen := Paging.pageLen_le hgroups
    obtain ⟨level, os, hstore⟩ :=
      exists_storeAll fun g hg => exists_storeBranch idOf (hne g hg) (hlen g hg)
    refine ⟨groups, level, os, rfl, ?_, length_storeAll hstore⟩
    unfold writeBranchLevel
    rw [hgroups]
    exact hstore

/-- **A level is shorter than the one below exactly if two neighbours share a branch**, or it is
refused. -/
theorem levelShrinks_iff (idOf : Object → ObjectId) (pages : List TreePage) :
    LevelShrinks idOf pages ↔ NeighboursShare pages := by
  unfold NeighboursShare
  by_cases hlarge : ∃ p ∈ pages, maxTreePageBytes < branchOverhead + p.jsonLen
  · have htarget : targetTreePageBytes ≤ maxTreePageBytes := by decide
    have hnone := (Paging.pages_eq_none_iff htarget).mpr hlarge
    refine iff_of_true (fun level os hwrite => ?_) (Or.inr hlarge)
    unfold writeBranchLevel at hwrite
    rw [hnone] at hwrite
    exact absurd hwrite (by simp)
  · have hsmall : ∀ p ∈ pages, branchOverhead + p.jsonLen ≤ maxTreePageBytes := by
      intro p hp
      by_contra hlt
      exact hlarge ⟨p, hp, not_le.mp hlt⟩
    obtain ⟨groups, level, os, hgroups, hwrite, hcount⟩ := exists_writeBranchLevel idOf hsmall
    rw [or_iff_left hlarge, ← Paging.length_pages_lt_iff hgroups hsmall, ← hcount]
    constructor
    · intro hshrinks
      exact hshrinks level os hwrite
    · intro hlt level' os' hwrite'
      rw [hwrite, Except.ok.injEq, Prod.mk.injEq] at hwrite'
      rw [← hwrite'.1]
      exact hlt

end Level

/-! ## All levels -/

/-- The levels that are reached from one. -/
inductive LevelAbove (idOf : Object → ObjectId) : List TreePage → List TreePage → Prop
  | refl (pages : List TreePage) : LevelAbove idOf pages pages
  | step {pages level above : List TreePage} {os : List Object} (h : 2 ≤ pages.length)
      (hwrite : writeBranchLevel idOf pages = .ok (level, os))
      (habove : LevelAbove idOf level above) : LevelAbove idOf pages above

section Levels

variable {idOf : Object → ObjectId}

/-- One turn of the loop. -/
theorem branchLevels_succ {pages : List TreePage} (h : 2 ≤ pages.length) (fuel : ℕ) :
    branchLevels idOf (fuel + 1) pages = (do
      let (level, os) ← writeBranchLevel idOf pages
      let (rest, root) ← branchLevels idOf fuel level
      pure (os ++ rest, root)) := by
  match pages, h with
  | _ :: _ :: _, _ => rfl

/-- Storing a leaf needs no fuel. -/
theorem storeLeaf_ne_outOfFuel (group : List TreeEntry) :
    storeLeaf idOf group ≠ .error .outOfFuel := by
  unfold storeLeaf
  split
  · dsimp only
    split_ifs <;> exact fun h => nomatch h
  · exact fun h => nomatch h

/-- Storing a branch needs no fuel. -/
theorem storeBranch_ne_outOfFuel (group : List TreePage) :
    storeBranch idOf group ≠ .error .outOfFuel := by
  unfold storeBranch
  split
  · dsimp only
    split_ifs <;> exact fun h => nomatch h
  · exact fun h => nomatch h

/-- Storing groups needs no fuel when storing one does not. -/
theorem storeAll_ne_outOfFuel {α : Type}
    {storeOne : List α → Except BuildError (TreePage × Object)}
    (hone : ∀ g, storeOne g ≠ .error .outOfFuel) (groups : List (List α)) :
    storeAll storeOne groups ≠ .error .outOfFuel := by
  induction groups with
  | nil =>
    intro h
    cases h
  | cons group groups ih =>
    unfold storeAll
    cases hfirst : storeOne group with
    | error e =>
      intro h
      cases h
      exact hone group hfirst
    | ok result =>
      cases hall : storeAll storeOne groups with
      | error e =>
        intro h
        cases h
        exact ih hall
      | ok results =>
        intro h
        cases h

/-- A level that is refused is not out of fuel. -/
theorem writeBranchLevel_ne_outOfFuel (pages : List TreePage) :
    writeBranchLevel idOf pages ≠ .error .outOfFuel := by
  unfold writeBranchLevel
  split
  · exact fun h => nomatch h
  · exact storeAll_ne_outOfFuel storeBranch_ne_outOfFuel _

/-- **If every level is shorter than the one below, the loop returns** after at most as many
levels as there are pages.

**Proof sketch.** Induction on the bound.  One page is the end; otherwise the next level, if it is
written at all, has fewer pages, and the levels reached from it are reached from here. -/
theorem branchLevels_returns {pages : List TreePage} (hne : pages ≠ [])
    (h : ∀ level, LevelAbove idOf pages level → 2 ≤ level.length → NeighboursShare level)
    {fuel : ℕ} (hfuel : pages.length ≤ fuel) :
    branchLevels idOf fuel pages ≠ .error .outOfFuel := by
  induction fuel generalizing pages with
  | zero => exact absurd (List.length_eq_zero_iff.mp (Nat.le_zero.mp hfuel)) hne
  | succ fuel ih =>
    by_cases hone : 2 ≤ pages.length
    · rw [branchLevels_succ hone]
      cases hwrite : writeBranchLevel idOf pages with
      | error e =>
        intro hout
        cases hout
        exact writeBranchLevel_ne_outOfFuel pages hwrite
      | ok result =>
        obtain ⟨level, os⟩ := result
        have hshorter := (levelShrinks_iff idOf pages).mpr (h pages (.refl pages) hone) level os
          hwrite
        have hrest := ih (level_ne_nil hne hwrite)
          (fun above habove => h above (.step hone hwrite habove)) (by omega)
        intro hout
        cases hbranch : branchLevels idOf fuel level with
        | error e =>
          simp only [bind, Except.bind, hbranch] at hout
          cases hout
          exact hrest hbranch
        | ok result => simp [bind, Except.bind, hbranch, pure, Except.pure] at hout
    · obtain ⟨page, rest, rfl⟩ := List.exists_cons_of_ne_nil hne
      cases rest with
      | nil => exact fun hout => nomatch hout
      | cons q rest => exact absurd (by simp) hone

/-! ## Building -/

/-- The references to the leaves of a directory. -/
def leafLevel (idOf : Object → ObjectId) (entries : List TreeEntry) :
    Except BuildError (List TreePage × List Object) :=
  match Paging.pages leafOverhead targetTreePageBytes maxTreePageBytes TreeEntry.jsonLen
      entries with
  | none => .error .entryTooLarge
  | some groups => storeAll (storeLeaf idOf) groups

/-- A directory with entries has leaves. -/
theorem leafLevel_ne_nil {entries : List TreeEntry} {leaves : List TreePage} {os : List Object}
    (hne : entries ≠ []) (h : leafLevel idOf entries = .ok (leaves, os)) : leaves ≠ [] := by
  unfold leafLevel at h
  cases hgroups : Paging.pages leafOverhead targetTreePageBytes maxTreePageBytes
      TreeEntry.jsonLen entries with
  | none =>
    rw [hgroups] at h
    cases h
  | some groups =>
    rw [hgroups] at h
    have hlen := length_storeAll h
    rintro rfl
    rw [List.length_nil, eq_comm, List.length_eq_zero_iff] at hlen
    exact Paging.pages_ne_nil hgroups hne hlen

/-- Building a directory is writing its leaves and then the levels above them. -/
theorem buildTree_eq {entries : List TreeEntry} (hsorted : sortedPrefix entries = entries)
    (hne : entries ≠ []) (fuel : ℕ) :
    buildTree idOf fuel entries = (do
      let (leaves, os) ← leafLevel idOf entries
      let (rest, root) ← branchLevels idOf fuel leaves
      pure (os ++ rest, root)) := by
  unfold buildTree leafLevel
  rw [hsorted]
  cases hgroups : Paging.pages leafOverhead targetTreePageBytes maxTreePageBytes
      TreeEntry.jsonLen entries with
  | none => rfl
  | some groups =>
    cases groups with
    | nil => exact absurd (Paging.flatten_pages hgroups).1.symm hne
    | cons group groups => simp only [lt_irrefl, if_false]

/-- **When the levels of a tree end.**  A level is shorter than the one below exactly if two
neighbouring references share a branch, or it is refused; and if this is so for every level of two
or more pages that is reached from the leaves of a directory, then building it returns. -/
theorem levels_end (idOf : Object → ObjectId) :
    (∀ pages, LevelShrinks idOf pages ↔ NeighboursShare pages) ∧
      ∀ entries, (∀ leaves os level, leafLevel idOf entries = .ok (leaves, os) →
          LevelAbove idOf leaves level → 2 ≤ level.length → NeighboursShare level) →
        ∃ n, ∀ fuel, n ≤ fuel → buildTree idOf fuel entries ≠ .error .outOfFuel := by
  refine ⟨levelShrinks_iff idOf, fun entries hlevels => ?_⟩
  by_cases hne : entries = []
  · subst hne
    exact ⟨0, fun fuel _ h => nomatch h⟩
  · by_cases hsorted : sortedPrefix entries = entries
    · cases hleaves : leafLevel idOf entries with
      | error e =>
        refine ⟨0, fun fuel _ h => ?_⟩
        rw [buildTree_eq hsorted hne, hleaves] at h
        cases h
        unfold leafLevel at hleaves
        split at hleaves
        · cases hleaves
        · exact storeAll_ne_outOfFuel storeLeaf_ne_outOfFuel _ hleaves
      | ok result =>
        obtain ⟨leaves, os⟩ := result
        refine ⟨leaves.length, fun fuel hfuel h => ?_⟩
        have hreturns := branchLevels_returns (leafLevel_ne_nil hne hleaves)
          (fun level habove => hlevels leaves os level hleaves habove) hfuel
        rw [buildTree_eq hsorted hne, hleaves] at h
        cases hbranch : branchLevels idOf fuel leaves with
        | error e =>
          simp only [bind, Except.bind, hbranch] at h
          cases h
          exact hreturns hbranch
        | ok result => simp [bind, Except.bind, hbranch, pure, Except.pure] at h
    · refine ⟨0, fun fuel _ h => ?_⟩
      have hfront := sortedPrefix_isPrefix entries
      have hshort : (sortedPrefix entries).length < entries.length :=
        lt_of_le_of_ne hfront.length_le fun hlen => hsorted (hfront.eq_of_length hlen)
      unfold buildTree at h
      split at h
      · cases h
      · rw [if_pos hshort] at h
        cases h

end Levels

/-- The references to the two leaves share a branch. -/
theorem levels_end_sample :
    (∃ leaves os, leafLevel sampleNodeId sampleEntries = .ok (leaves, os) ∧ leaves.length = 2) ∧
      ∃ n, ∀ fuel, n ≤ fuel → buildTree sampleNodeId fuel sampleEntries ≠ .error .outOfFuel := by
  have hcheck : (leafLevel sampleNodeId sampleEntries).toOption.any (fun l =>
      decide (l.1.length = 2 ∧ NeighboursShare l.1) &&
        (writeBranchLevel sampleNodeId l.1).toOption.all fun b => decide (b.1.length = 1)) =
          true := by
    decide +kernel
  cases hleaves : leafLevel sampleNodeId sampleEntries with
  | error e =>
    rw [hleaves] at hcheck
    cases hcheck
  | ok result =>
    obtain ⟨leaves, os⟩ := result
    rw [hleaves] at hcheck
    simp only [Except.toOption, Option.any_some, Bool.and_eq_true, decide_eq_true_eq] at hcheck
    refine ⟨⟨leaves, os, rfl, hcheck.1.1⟩, ?_⟩
    refine (levels_end sampleNodeId).2 sampleEntries ?_
    intro leaves' os' level hleaves' habove htwo
    rw [hleaves, Except.ok.injEq, Prod.mk.injEq] at hleaves'
    rw [← hleaves'.1] at habove
    cases habove with
    | refl => exact hcheck.1.2
    | step h hwrite habove =>
      rw [hwrite] at hcheck
      have hone := of_decide_eq_true hcheck.2
      cases habove with
      | refl => exact absurd htwo (by rw [hone]; decide)
      | step h => exact absurd h (by rw [hone]; decide)

/-! ## Names that are too long -/

/-- What the names add to the length of a reference. -/
def TreePage.namesLen (p : TreePage) : ℕ := 53 + jsonBytes p.firstName + jsonBytes p.lastName

/-- References whose names alone keep neighbours apart; no reference is too long for a branch. -/
structure Stuck (pages : List TreePage) : Prop where
  apart : pages.IsChain fun p q =>
    targetTreePageBytes < branchOverhead + p.namesLen + 1 + q.namesLen
  small : ∀ p ∈ pages, branchOverhead + p.namesLen + 149 ≤ maxTreePageBytes

section Stuck

variable {idOf : Object → ObjectId}

/-- The length of a reference. -/
theorem TreePage.jsonLen_eq (p : TreePage) :
    p.jsonLen = p.namesLen + decimalLen p.entryCount + jsonBytes p.target.bytes := by
  have h₁ : "first_name".length = 10 := rfl
  have h₂ : "last_name".length = 9 := rfl
  have h₃ : "entry_count".length = 11 := rfl
  have h₄ : "target".length = 6 := rfl
  simp only [TreePage.jsonLen, TreePage.namesLen, jsonList, jsonField, h₁, h₂, h₃, h₄,
    List.sum_cons, List.sum_nil, List.length_cons, List.length_nil]
  omega

/-- A 64-bit number has at most twenty digits. -/
theorem decimalLen_le (n : ℕ) : decimalLen n ≤ 20 := by
  unfold decimalLen
  have hfilter := List.length_filter_le (fun k => decide (10 ^ (k + 1) ≤ n)) (List.range 19)
  rw [List.length_range] at hfilter
  omega

/-- A byte has at most three digits. -/
theorem decimalLen_byte_le (b : Byte) : decimalLen b.val ≤ 3 := by
  revert b
  decide +kernel

/-- The digits of a byte string. -/
theorem sum_decimalLen_le (bytes : Bytes) :
    (bytes.map fun b => decimalLen b.val).sum ≤ 3 * bytes.length := by
  induction bytes with
  | nil => exact Nat.le_refl _
  | cons b bytes ih =>
    have hb := decimalLen_byte_le b
    rw [List.map_cons, List.sum_cons, List.length_cons]
    omega

/-- An identifier takes at most 129 bytes. -/
theorem jsonBytes_id_le (id : ObjectId) : jsonBytes id.bytes ≤ 129 := by
  have hsum := sum_decimalLen_le id.bytes
  have hlen := id.length_eq
  unfold jsonBytes jsonList
  rw [List.length_map]
  omega

/-- A page reference is at least as long as its names. -/
theorem TreePage.namesLen_le (p : TreePage) : p.namesLen ≤ p.jsonLen := by
  rw [p.jsonLen_eq]
  omega

/-- A page reference is its names and at most 149 bytes more. -/
theorem TreePage.jsonLen_le (p : TreePage) : p.jsonLen ≤ p.namesLen + 149 := by
  have hcount := decimalLen_le p.entryCount
  have hid := jsonBytes_id_le p.target
  rw [p.jsonLen_eq]
  omega

/-- The reference to the branch that holds one reference. -/
def wrapPage (idOf : Object → ObjectId) (p : TreePage) : TreePage := branchPage idOf p p [p]

/-- Page references that share no branch are wrapped one by one. -/
theorem storeAll_singletons {pages : List TreePage}
    (h : ∀ p ∈ pages, branchOverhead + p.jsonLen ≤ maxTreePageBytes) :
    storeAll (storeBranch idOf) (pages.map fun p => [p]) =
      .ok (pages.map (wrapPage idOf), pages.map fun p => .tree ⟨[], [p]⟩) := by
  induction pages with
  | nil => rfl
  | cons p pages ih =>
    have hlen : Paging.pageLen branchOverhead TreePage.jsonLen [p] ≤ maxTreePageBytes := by
      have hp := h p List.mem_cons_self
      simpa [Paging.pageLen] using hp
    have hone : storeBranch idOf [p] = .ok (wrapPage idOf p, .tree ⟨[], [p]⟩) :=
      storeBranch_of_le rfl rfl hlen
    rw [List.map_cons, storeAll, hone, ih fun q hq => h q (List.mem_cons_of_mem _ hq)]
    rfl

/-- **A stuck level is written again**, with the same names. -/
theorem Stuck.writeBranchLevel {pages : List TreePage} (h : Stuck pages) :
    writeBranchLevel idOf pages =
      .ok (pages.map (wrapPage idOf), pages.map fun p => .tree ⟨[], [p]⟩) := by
  have hsmall : ∀ p ∈ pages, branchOverhead + p.jsonLen ≤ maxTreePageBytes := by
    intro p hp
    have hle := h.small p hp
    have hlen := p.jsonLen_le
    omega
  have hapart : pages.IsChain RefsApart := by
    refine h.apart.imp fun p q hpq => ?_
    have hp := p.namesLen_le
    have hq := q.namesLen_le
    show targetTreePageBytes < branchOverhead + p.jsonLen + 1 + q.jsonLen
    omega
  unfold Furrow.writeBranchLevel
  rw [Paging.pages_of_apart hapart hsmall]
  exact storeAll_singletons hsmall

/-- Wrapping the references of a stuck level leaves it stuck. -/
theorem Stuck.wrap {pages : List TreePage} (h : Stuck pages) (idOf : Object → ObjectId) :
    Stuck (pages.map (wrapPage idOf)) where
  apart := (List.isChain_map (wrapPage idOf)).mpr h.apart
  small := by
    intro p hp
    obtain ⟨q, hq, rfl⟩ := List.mem_map.mp hp
    exact h.small q hq

/-- **Two or more pages whose names are too long are never put under one node.** -/
theorem branchLevels_of_stuck {pages : List TreePage} (h : Stuck pages) (htwo : 2 ≤ pages.length)
    (fuel : ℕ) : branchLevels idOf fuel pages = .error .outOfFuel := by
  induction fuel generalizing pages with
  | zero => rfl
  | succ fuel ih =>
    have hnext := ih (h.wrap idOf) (by rw [List.length_map]; exact htwo)
    rw [branchLevels_succ htwo, h.writeBranchLevel]
    simp only [bind, Except.bind, hnext]

end Stuck

/-! ## Four files -/

/-- A file name of 255 letters. -/
def longName (last : Byte) : Bytes := List.replicate 254 122 ++ [last]

/-- A file with such a name. -/
def longEntry (last : Byte) : TreeEntry :=
  { name := longName last, kind := .File, target := some (.fill 1), linkTarget := [],
    mode := 0o100644, size := 1, mtimeSecs := 0, mtimeNanos := 0, xattrs := none,
    contentClass := .Source }

/-- Four files with names of 255 letters. -/
def longEntries : List TreeEntry :=
  [longEntry 100, longEntry 101, longEntry 102, longEntry 103]

/-- The references to the two leaves of the four files. -/
def longLeaves (idOf : Object → ObjectId) : List TreePage :=
  [⟨longName 100, longName 102, 3, idOf (.tree ⟨longEntries.take 3, []⟩)⟩,
    ⟨longName 103, longName 103, 1, idOf (.tree ⟨longEntries.drop 3, []⟩)⟩]

/-- A leaf within the limit is stored under its first and last name. -/
theorem storeLeaf_of_le {idOf : Object → ObjectId} {group : List TreeEntry}
    {first last : TreeEntry} (hfirst : group.head? = some first)
    (hlast : group.getLast? = some last)
    (hlen : jsonList [jsonField "entries" (jsonList (group.map TreeEntry.jsonLen))] ≤
      maxTreePageBytes) :
    storeLeaf idOf group = .ok (⟨first.name, last.name, group.length, idOf (.tree ⟨group, []⟩)⟩,
      .tree ⟨group, []⟩) := by
  unfold storeLeaf
  rw [hfirst, hlast]
  exact if_pos hlen

/-- The leaves of the long names: three files, then one. -/
theorem leafLevel_longEntries (idOf : Object → ObjectId) :
    leafLevel idOf longEntries = .ok (longLeaves idOf,
      [.tree ⟨longEntries.take 3, []⟩, .tree ⟨longEntries.drop 3, []⟩]) := by
  have hgroups : Paging.pages leafOverhead targetTreePageBytes maxTreePageBytes TreeEntry.jsonLen
      longEntries = some [longEntries.take 3, longEntries.drop 3] := by decide +kernel
  have hfirst : jsonList [jsonField "entries" (jsonList
      ((longEntries.take 3).map TreeEntry.jsonLen))] ≤ maxTreePageBytes := by decide +kernel
  have hsecond : jsonList [jsonField "entries" (jsonList
      ((longEntries.drop 3).map TreeEntry.jsonLen))] ≤ maxTreePageBytes := by decide +kernel
  have hone := @storeLeaf_of_le idOf (longEntries.take 3) (longEntry 100) (longEntry 102) rfl rfl
    hfirst
  have htwo := @storeLeaf_of_le idOf (longEntries.drop 3) (longEntry 103) (longEntry 103) rfl rfl
    hsecond
  unfold leafLevel
  rw [hgroups]
  simp only [storeAll, hone, htwo, bind, Except.bind, pure, Except.pure]
  rfl

/-- The level of these leaves is stuck. -/
theorem stuck_longLeaves (idOf : Object → ObjectId) : Stuck (longLeaves idOf) where
  apart := by
    have hname : ∀ last ∈ [(100 : Byte), 102, 103], jsonBytes (longName last) = 1021 := by
      decide +kernel
    refine .cons_cons ?_ (List.isChain_singleton _)
    show 4096 < 12 + (53 + jsonBytes (longName 100) + jsonBytes (longName 102)) + 1 +
      (53 + jsonBytes (longName 103) + jsonBytes (longName 103))
    rw [hname 100 (by decide), hname 102 (by decide), hname 103 (by decide)]
    decide
  small := by
    have hname : ∀ last ∈ [(100 : Byte), 102, 103], jsonBytes (longName last) = 1021 := by
      decide +kernel
    intro p hp
    simp only [longLeaves, List.mem_cons, List.not_mem_nil, or_false] at hp
    unfold TreePage.namesLen
    rcases hp with rfl | rfl
    · dsimp only
      rw [hname 100 (by decide), hname 102 (by decide)]
      decide
    · dsimp only
      rw [hname 103 (by decide)]
      decide

/-- **The directory with four files of 255 letters is never built**: its entries are sorted and
small, and whatever the identifiers are the levels above its two leaves do not end. -/
theorem longEntries_never_built :
    NameSorted longEntries ∧
      (∀ e ∈ longEntries, leafOverhead + e.jsonLen ≤ maxTreePageBytes) ∧
      ∀ idOf fuel, buildTree idOf fuel longEntries = .error .outOfFuel := by
  have hsorted : sortedPrefix longEntries = longEntries := by decide +kernel
  refine ⟨hsorted ▸ nameSorted_sortedPrefix longEntries, by decide +kernel, fun idOf fuel => ?_⟩
  have hlevels : branchLevels idOf fuel (longLeaves idOf) = .error .outOfFuel :=
    branchLevels_of_stuck (stuck_longLeaves idOf) (Nat.le_refl 2) fuel
  have hne : longEntries ≠ [] := fun h => nomatch congrArg List.length h
  rw [buildTree_eq hsorted hne, leafLevel_longEntries]
  simp only [bind, Except.bind, hlevels]

end Furrow
