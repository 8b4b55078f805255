import Mathlib
import Furrow.Model

set_option relaxedAutoImplicit false
set_option autoImplicit false

/-!
# The base of a merge

`derive_merge_base` of `repository.rs`: when a snapshot is merged without a base, the base is
looked for in its ancestry.  The search follows `parent` and `merge_parents` and stops on each path
at the first snapshot that the workspace has published itself.  If it meets one such snapshot that
is the base; if it meets none or several, the caller has to name one.

A snapshot that is met on one path may be an ancestor of one that is met on another.  Then only
the latter is nearest, but the search has met both.

## Main definitions

* `Furrow.searchAncestry`, `Furrow.deriveMergeBase` — the search and its answer.
* `Furrow.ParentOf`, `Furrow.FirstMet`, `Furrow.Nearest` — ancestry and the lineage.

## Main results

* `Furrow.searchAncestry_spec` — the search ends, with the snapshots that are met first.
* `Furrow.deriveMergeBase_iff` — when the answer is the one nearest snapshot of the lineage.
-/

namespace Furrow

/-- Why no base is derived. -/
inductive MergeBaseError
  /-- `source workspace has no sealed snapshot` -/
  | noSealedSnapshot
  /-- `… has more than 100000 locally known ancestors` -/
  | tooManyAncestors
  /-- `… references ancestor …, which is not present in the local object store` -/
  | missingAncestor
  /-- `… shares no common ancestor with the current workspace lineage` -/
  | noCommonAncestor
  /-- `… has more than one possible merge base` -/
  | manyCandidates
  /-- The bound on the number of steps was reached. -/
  | outOfFuel
deriving DecidableEq

/-- `ANCESTRY_LIMIT` -/
def ancestryLimit : ℕ := 100000

/-- The state of the search; the top of `pending` is the head of the list. -/
structure AncestrySearch where
  pending : List ObjectId
  visited : List ObjectId
  candidates : List ObjectId

/-- Note a parent, unless it was noted before. -/
def AncestrySearch.note (s : AncestrySearch) (parent : ObjectId) : AncestrySearch :=
  if parent ∈ s.visited then s
  else { s with pending := parent :: s.pending, visited := parent :: s.visited }

/-- The parents of a snapshot, in the order they are read. -/
def Snapshot.parents (snapshot : Snapshot) : List ObjectId :=
  snapshot.parent.toList ++ snapshot.mergeParents

/-- The search, until nothing is pending. -/
def searchAncestry (store : ObjectStore) (lineage : List ObjectId) (limit : ℕ) :
    ℕ → AncestrySearch → Except MergeBaseError (List ObjectId)
  | 0, _ => .error .outOfFuel
  | fuel + 1, s =>
    match s.pending with
    | [] => .ok s.candidates
    | id :: rest =>
      if limit < s.visited.length then .error .tooManyAncestors
      else if id ∈ lineage then
        searchAncestry store lineage limit fuel
          { s with pending := rest, candidates := s.candidates.insert id }
      else
        match store id with
        | some (.snapshot snapshot) =>
          searchAncestry store lineage limit fuel
            (snapshot.parents.foldl AncestrySearch.note { s with pending := rest })
        | _ => .error .missingAncestor

/-- **The base of a merge with a snapshot** (`derive_merge_base`); `lineage` are the snapshots of
the workspace's timeline.  Every turn of the search takes a snapshot that was not taken before, so
that it ends within the bound on the ancestors. -/
def deriveMergeBase (store : ObjectStore) (lineage : List ObjectId) (theirs : ObjectId) :
    Except MergeBaseError ObjectId :=
  if lineage.isEmpty then .error .noSealedSnapshot
  else
    match searchAncestry store lineage ancestryLimit (ancestryLimit + 1) ⟨[theirs],
      [theirs], []⟩ with
    | .error e => .error e
    | .ok [] => .error .noCommonAncestor
    | .ok [base] => .ok base
    | .ok _ => .error .manyCandidates

/-! ## Ancestry -/

section Ancestry

variable (store : ObjectStore) (lineage : List ObjectId)

/-- A snapshot names another as its parent, or as a parent of its merge. -/
def ParentOf (a b : ObjectId) : Prop :=
  ∃ snapshot, store a = some (.snapshot snapshot) ∧ b ∈ snapshot.parents

/-- A snapshot is reached from another by following parents. -/
def Ancestry : ObjectId → ObjectId → Prop := Relation.ReflTransGen (ParentOf store)

/-- A step of the search: it does not go on at a member of the lineage. -/
def SearchStep (a b : ObjectId) : Prop := a ∉ lineage ∧ ParentOf store a b

/-- A snapshot that is met on a path with no member of the lineage before it. -/
def Met (theirs a : ObjectId) : Prop := Relation.ReflTransGen (SearchStep store lineage) theirs a

/-- A member of the lineage that is the first one on some path. -/
def FirstMet (theirs a : ObjectId) : Prop := Met store lineage theirs a ∧ a ∈ lineage

/-- A member of the lineage that is reached. -/
def CommonAncestor (theirs a : ObjectId) : Prop := a ∈ lineage ∧ Ancestry store theirs a

/-- A member of the lineage that is reached, and is not an ancestor of another one. -/
def Nearest (theirs a : ObjectId) : Prop :=
  CommonAncestor store lineage theirs a ∧
    ∀ c, CommonAncestor store lineage theirs c → Ancestry store c a → c = a

/-- One member of the lineage is nearest alone. -/
def NearestAlone (theirs a : ObjectId) : Prop :=
  Nearest store lineage theirs a ∧ ∀ c, Nearest store lineage theirs c → c = a

/-- All ancestors are in the store. -/
def AncestryPresent (theirs : ObjectId) : Prop :=
  ∀ a, Ancestry store theirs a → ∃ snapshot, store a = some (.snapshot snapshot)

/-- No snapshot is its own proper ancestor: an identifier is the hash of the parents. -/
def Acyclic : Prop := ∀ a, ¬ Relation.TransGen (ParentOf store) a a

end Ancestry

section Search

variable {store : ObjectStore} {lineage : List ObjectId} {theirs : ObjectId}

/-- What is met is an ancestor. -/
theorem Met.ancestry {a : ObjectId} (h : Met store lineage theirs a) : Ancestry store theirs a := by
  have hstep : SearchStep store lineage ≤ ParentOf store := fun _ _ hab => hab.2
  exact Relation.ReflTransGen.mono hstep theirs a h

/-- **Every path to the lineage has a first member**, and the rest of the path starts there. -/
theorem exists_firstMet {a : ObjectId} (h : CommonAncestor store lineage theirs a) :
    ∃ c, FirstMet store lineage theirs c ∧ Ancestry store c a := by
  obtain ⟨ha, hpath⟩ := h
  -- the path is followed from its start; it ends in the lineage, so a first member is met
  induction hpath using Relation.ReflTransGen.head_induction_on with
  | refl => exact ⟨a, ⟨.refl, ha⟩, .refl⟩
  | @head b c hstep hrest ih =>
    by_cases hb : b ∈ lineage
    · exact ⟨b, ⟨.refl, hb⟩, .head hstep hrest⟩
    · obtain ⟨d, ⟨hmet, hd⟩, hda⟩ := ih
      exact ⟨d, ⟨.head ⟨hb, hstep⟩ hmet, hd⟩, hda⟩

/-- What is met first in the lineage is a common ancestor. -/
theorem FirstMet.commonAncestor {a : ObjectId} (h : FirstMet store lineage theirs a) :
    CommonAncestor store lineage theirs a := ⟨h.2, h.1.ancestry⟩

/-- A nearest member is met first. -/
theorem Nearest.firstMet {a : ObjectId} (h : Nearest store lineage theirs a) :
    FirstMet store lineage theirs a := by
  obtain ⟨c, hc, hca⟩ := exists_firstMet h.1
  rw [← h.2 c hc.commonAncestor hca]
  exact hc

/-- Two snapshots that are ancestors of each other are one. -/
theorem Acyclic.antisymm (h : Acyclic store) {a b : ObjectId} (hab : Ancestry store a b)
    (hba : Ancestry store b a) : a = b := by
  rcases Relation.reflTransGen_iff_eq_or_transGen.mp hab with heq | hab
  · exact heq.symm
  · exact absurd (Relation.TransGen.trans_left hab hba) (h a)

/-- If one member alone is met first, it is nearest alone. -/
theorem nearestAlone_of_firstMet (hacyclic : Acyclic store) {a : ObjectId}
    (ha : FirstMet store lineage theirs a)
    (honly : ∀ c, FirstMet store lineage theirs c → c = a) :
    NearestAlone store lineage theirs a := by
  refine ⟨⟨ha.commonAncestor, fun c hc hca => ?_⟩, fun c hc => honly c hc.firstMet⟩
  obtain ⟨d, hd, hdc⟩ := exists_firstMet hc
  rw [honly d hd] at hdc
  exact hacyclic.antisymm hca hdc

/-! ## The search -/

/-- Noting parents puts the new ones on top. -/
theorem foldl_note (ps : List ObjectId) (s : AncestrySearch) :
    ∃ new, (ps.foldl AncestrySearch.note s).pending = new ++ s.pending ∧
      (ps.foldl AncestrySearch.note s).visited = new ++ s.visited ∧
      (ps.foldl AncestrySearch.note s).candidates = s.candidates ∧ new.Nodup ∧
      (∀ x ∈ new, x ∈ ps ∧ x ∉ s.visited) ∧ ∀ p ∈ ps, p ∈ new ++ s.visited := by
  induction ps generalizing s with
  | nil =>
    exact ⟨[], rfl, rfl, rfl, List.nodup_nil, fun x hx => absurd hx List.not_mem_nil,
      fun p hp => absurd hp List.not_mem_nil⟩
  | cons p ps ih =>
    rw [List.foldl_cons]
    by_cases hp : p ∈ s.visited
    · have hsame : s.note p = s := if_pos hp
      rw [hsame]
      obtain ⟨new, hpending, hvisited, hcandidates, hnodup, hnew, hall⟩ := ih s
      refine ⟨new, hpending, hvisited, hcandidates, hnodup,
        fun x hx => ⟨List.mem_cons_of_mem _ (hnew x hx).1, (hnew x hx).2⟩, fun q hq => ?_⟩
      rcases List.mem_cons.mp hq with rfl | hq
      · exact List.mem_append_right _ hp
      · exact hall q hq
    · have hnote : s.note p =
          { s with pending := p :: s.pending, visited := p :: s.visited } := if_neg hp
      rw [hnote]
      obtain ⟨new, hpending, hvisited, hcandidates, hnodup, hnew, hall⟩ :=
        ih { s with pending := p :: s.pending, visited := p :: s.visited }
      refine ⟨new ++ [p], by rw [hpending]; simp, by rw [hvisited]; simp, hcandidates, ?_, ?_, ?_⟩
      · refine List.Nodup.append hnodup (List.nodup_singleton p) fun x hx hxp => ?_
        rw [List.mem_singleton.mp hxp] at hx
        exact (hnew p hx).2 List.mem_cons_self
      · intro x hx
        rcases List.mem_append.mp hx with hx | hx
        · exact ⟨List.mem_cons_of_mem _ (hnew x hx).1,
            fun hmem => (hnew x hx).2 (List.mem_cons_of_mem _ hmem)⟩
        · rw [List.mem_singleton.mp hx]
          exact ⟨List.mem_cons_self, hp⟩
      · intro q hq
        rw [List.append_assoc]
        rcases List.mem_cons.mp hq with rfl | hq
        · exact List.mem_append_right _ List.mem_cons_self
        · exact hall q hq

variable (store lineage theirs) in
/-- What holds during the search: what was visited is met, and what is no longer pending has been
looked at. -/
structure SearchInv (limit : ℕ) (s : AncestrySearch) : Prop where
  nodup : s.visited.Nodup
  pending_nodup : s.pending.Nodup
  pending_sub : ∀ x ∈ s.pending, x ∈ s.visited
  start : theirs ∈ s.visited
  met : ∀ x ∈ s.visited, Met store lineage theirs x
  closed : ∀ x ∈ s.visited, x ∉ s.pending → ∀ y, SearchStep store lineage x y → y ∈ s.visited
  candidates : ∀ c, c ∈ s.candidates ↔ (c ∈ s.visited ∧ c ∉ s.pending) ∧ c ∈ lineage
  candidates_nodup : s.candidates.Nodup
  bounded : s.visited.length ≤ limit + s.pending.length

/-- The invariant holds when the search begins. -/
theorem searchInv_start (limit : ℕ) :
    SearchInv store lineage theirs limit ⟨[theirs], [theirs], []⟩ where
  nodup := List.nodup_singleton _
  pending_nodup := List.nodup_singleton _
  pending_sub := fun _ hx => hx
  start := List.mem_singleton_self _
  met := by
    intro x hx
    rw [List.mem_singleton.mp hx]
    exact .refl
  closed := fun _ hx hnot => absurd hx hnot
  candidates := fun c => ⟨fun hc => absurd hc List.not_mem_nil, fun hc => absurd hc.1.1 hc.1.2⟩
  candidates_nodup := List.nodup_nil
  bounded := Nat.le_add_left 1 limit

/-- A member of the lineage is taken. -/
theorem SearchInv.take {limit : ℕ} {id : ObjectId} {rest visited candidates : List ObjectId}
    (h : SearchInv store lineage theirs limit ⟨id :: rest, visited, candidates⟩)
    (hlimit : visited.length ≤ limit) (hid : id ∈ lineage) :
    SearchInv store lineage theirs limit ⟨rest, visited, candidates.insert id⟩ where
  nodup := h.nodup
  pending_nodup := (List.nodup_cons.mp h.pending_nodup).2
  pending_sub := fun x hx => h.pending_sub x (List.mem_cons_of_mem _ hx)
  start := h.start
  met := h.met
  closed := by
    intro x hx hrest y hstep
    by_cases hxid : x = id
    · exact absurd (hxid ▸ hid) hstep.1
    · exact h.closed x hx (fun hmem => (List.mem_cons.mp hmem).elim hxid hrest) y hstep
  candidates := by
    intro c
    rw [List.mem_insert_iff, h.candidates c]
    have hfresh := (List.nodup_cons.mp h.pending_nodup).1
    constructor
    · rintro (rfl | ⟨⟨hc, hpending⟩, hlin⟩)
      · exact ⟨⟨h.pending_sub c List.mem_cons_self, hfresh⟩, hid⟩
      · exact ⟨⟨hc, fun hmem => hpending (List.mem_cons_of_mem _ hmem)⟩, hlin⟩
    · rintro ⟨⟨hc, hpending⟩, hlin⟩
      by_cases hcid : c = id
      · exact Or.inl hcid
      · exact Or.inr ⟨⟨hc, fun hmem => (List.mem_cons.mp hmem).elim hcid hpending⟩, hlin⟩
  candidates_nodup := h.candidates_nodup.insert
  bounded := Nat.le_add_right_of_le hlimit

/-- The parents of another snapshot are noted. -/
theorem SearchInv.expand {limit : ℕ} {id : ObjectId} {rest visited candidates : List ObjectId}
    (h : SearchInv store lineage theirs limit ⟨id :: rest, visited, candidates⟩)
    (hlimit : visited.length ≤ limit) (hid : id ∉ lineage) {snapshot : Snapshot}
    (hsnapshot : store id = some (.snapshot snapshot)) :
    SearchInv store lineage theirs limit
      (snapshot.parents.foldl AncestrySearch.note ⟨rest, visited, candidates⟩) := by
  obtain ⟨new, hpending, hvisited, hcandidates, hnodup, hnew, hall⟩ :=
    foldl_note snapshot.parents ⟨rest, visited, candidates⟩
  generalize hs : snapshot.parents.foldl AncestrySearch.note ⟨rest, visited, candidates⟩ = s at *
  dsimp only at hpending hvisited hcandidates hnew hall
  have hidmem : id ∈ visited := h.pending_sub id List.mem_cons_self
  have hfresh : id ∉ rest := (List.nodup_cons.mp h.pending_nodup).1
  have hrest : ∀ x ∈ rest, x ∈ visited := fun x hx => h.pending_sub x (List.mem_cons_of_mem _ hx)
  refine ⟨?_, ?_, ?_, ?_, ?_, ?_, ?_, ?_, ?_⟩
  · rw [hvisited]
    exact hnodup.append h.nodup fun x hx hmem => (hnew x hx).2 hmem
  · rw [hpending]
    exact hnodup.append (List.nodup_cons.mp h.pending_nodup).2
      fun x hx hmem => (hnew x hx).2 (hrest x hmem)
  · rw [hpending, hvisited]
    intro x hx
    rcases List.mem_append.mp hx with hx | hx
    · exact List.mem_append_left _ hx
    · exact List.mem_append_right _ (hrest x hx)
  · rw [hvisited]
    exact List.mem_append_right _ h.start
  · rw [hvisited]
    intro x hx
    rcases List.mem_append.mp hx with hx | hx
    · exact .tail (h.met id hidmem) ⟨hid, snapshot, hsnapshot, (hnew x hx).1⟩
    · exact h.met x hx
  · rw [hpending, hvisited]
    intro x hx hnot y hstep
    rw [List.mem_append, not_or] at hnot
    rcases List.mem_append.mp hx with hx | hx
    · exact absurd hx hnot.1
    · by_cases hxid : x = id
      · obtain ⟨-, snapshot', hsnapshot', hy⟩ := hstep
        rw [hxid, hsnapshot, Option.some.injEq, Object.snapshot.injEq] at hsnapshot'
        exact hall y (hsnapshot' ▸ hy)
      · exact List.mem_append_right _
          (h.closed x hx (fun hmem => (List.mem_cons.mp hmem).elim hxid hnot.2) y hstep)
  · rw [hpending, hvisited, hcandidates]
    intro c
    rw [h.candidates c]
    constructor
    · rintro ⟨⟨hc, hnot⟩, hlin⟩
      refine ⟨⟨List.mem_append_right _ hc, fun hmem => ?_⟩, hlin⟩
      rcases List.mem_append.mp hmem with hmem | hmem
      · exact (hnew c hmem).2 hc
      · exact hnot (List.mem_cons_of_mem _ hmem)
    · rintro ⟨⟨hc, hnot⟩, hlin⟩
      rw [List.mem_append, not_or] at hnot
      refine ⟨⟨(List.mem_append.mp hc).resolve_left hnot.1, fun hmem => ?_⟩, hlin⟩
      rcases List.mem_cons.mp hmem with rfl | hmem
      · exact hid hlin
      · exact hnot.2 hmem
  · rw [hcandidates]
    exact h.candidates_nodup
  · rw [hpending, hvisited, List.length_append, List.length_append]
    omega

/-- When nothing is pending, everything that is met was visited. -/
theorem SearchInv.complete {limit : ℕ} {visited candidates : List ObjectId}
    (h : SearchInv store lineage theirs limit ⟨[], visited, candidates⟩) {a : ObjectId}
    (ha : Met store lineage theirs a) : a ∈ visited := by
  induction ha with
  | refl => exact h.start
  | tail _ hstep ih => exact h.closed _ ih List.not_mem_nil _ hstep

variable (store lineage theirs) in
/-- At most so many snapshots are met. -/
def MetAtMost (limit : ℕ) : Prop :=
  ∃ met : List ObjectId, met.Nodup ∧ (∀ x, x ∈ met ↔ Met store lineage theirs x) ∧
    met.length ≤ limit

/-- **The search ends**, with the members of the lineage that are met first, or with more
snapshots than allowed.

**Proof sketch.** Each turn takes one pending snapshot for good, so the snapshots that were taken
are as many as the turns.  They were all visited, so the bound on the visited ones stops the search
within the fuel. -/
theorem searchAncestry_spec (hpresent : AncestryPresent store theirs) {limit fuel : ℕ}
    {s : AncestrySearch} (h : SearchInv store lineage theirs limit s)
    (hfuel : limit + 1 + s.pending.length ≤ fuel + s.visited.length) :
    (∃ candidates, searchAncestry store lineage limit fuel s = .ok candidates ∧
        candidates.Nodup ∧ (∀ c, c ∈ candidates ↔ FirstMet store lineage theirs c) ∧
        MetAtMost store lineage theirs limit) ∨
      (searchAncestry store lineage limit fuel s = .error .tooManyAncestors ∧
        ¬ MetAtMost store lineage theirs limit) := by
  induction fuel generalizing s with
  | zero =>
    have hbounded := h.bounded
    omega
  | succ fuel ih =>
    obtain ⟨pending, visited, candidates⟩ := s
    cases pending with
    | nil =>
      refine Or.inl ⟨candidates, rfl, h.candidates_nodup, fun c => ?_, visited, h.nodup,
        fun x => ⟨h.met x, h.complete⟩, h.bounded⟩
      rw [h.candidates c]
      exact ⟨fun hc => ⟨h.met c hc.1.1, hc.2⟩, fun hc =>
        ⟨⟨h.complete hc.1, List.not_mem_nil⟩, hc.2⟩⟩
    | cons id rest =>
      rw [searchAncestry]
      dsimp only
      by_cases hlimit : limit < visited.length
      · rw [if_pos hlimit]
        refine Or.inr ⟨rfl, ?_⟩
        rintro ⟨met, -, hall, hlen⟩
        have hsub : visited.length ≤ met.length :=
          (h.nodup.subperm fun x hx => (hall x).mpr (h.met x hx)).length_le
        omega
      · rw [if_neg hlimit]
        by_cases hid : id ∈ lineage
        · rw [if_pos hid]
          refine ih (h.take (not_lt.mp hlimit) hid) ?_
          simp only [List.length_cons] at hfuel ⊢
          omega
        · rw [if_neg hid]
          obtain ⟨snapshot, hsnapshot⟩ :=
            hpresent id (h.met id (h.pending_sub id List.mem_cons_self)).ancestry
          rw [hsnapshot]
          dsimp only
          refine ih (h.expand (not_lt.mp hlimit) hid hsnapshot) ?_
          obtain ⟨new, hpending, hvisited, -⟩ :=
            foldl_note snapshot.parents ⟨rest, visited, candidates⟩
          rw [hpending, hvisited]
          simp only [List.length_cons, List.length_append] at hfuel ⊢
          omega

/-- **The base is derived as documented** — the answer is a snapshot exactly if that snapshot is
the only nearest member of the lineage — **if and only if**, whenever there is such a member, at
most 100000 snapshots are met before the lineage and no other member is met first on any path. -/
theorem deriveMergeBase_iff (hacyclic : Acyclic store)
    (hpresent : AncestryPresent store theirs) :
    (∀ base, deriveMergeBase store lineage theirs = .ok base ↔
        NearestAlone store lineage theirs base) ↔
      ((∃ base, NearestAlone store lineage theirs base) →
        MetAtMost store lineage theirs ancestryLimit ∧
          ∀ a b, FirstMet store lineage theirs a → FirstMet store lineage theirs b → a = b) := by
  have hstart : SearchInv store lineage theirs ancestryLimit ⟨[theirs], [theirs], []⟩ :=
    searchInv_start ancestryLimit
  have hspec := searchAncestry_spec hpresent hstart (Nat.le_refl (ancestryLimit + 1 + 1))
  -- what is derived is nearest alone
  have hsound : ∀ base, deriveMergeBase store lineage theirs = .ok base →
      (∀ a, FirstMet store lineage theirs a ↔ a = base) ∧
        MetAtMost store lineage theirs ancestryLimit := by
    intro base hbase
    unfold deriveMergeBase at hbase
    split_ifs at hbase with hempty
    rcases hspec with ⟨candidates, hsearch, -, hmem, hmet⟩ | ⟨hsearch, -⟩
    · rw [hsearch] at hbase
      match candidates, hbase with
      | [b], hbase =>
        cases hbase
        exact ⟨fun a => by rw [← hmem a, List.mem_singleton], hmet⟩
    · rw [hsearch] at hbase
      cases hbase
  have hnearest : ∀ base, deriveMergeBase store lineage theirs = .ok base →
      NearestAlone store lineage theirs base := fun base hbase =>
    nearestAlone_of_firstMet hacyclic (((hsound base hbase).1 base).mpr rfl)
      fun c hc => ((hsound base hbase).1 c).mp hc
  constructor
  · rintro hiff ⟨base, hbase⟩
    obtain ⟨hfirst, hmet⟩ := hsound base ((hiff base).mpr hbase)
    exact ⟨hmet, fun a b ha hb => ((hfirst a).mp ha).trans ((hfirst b).mp hb).symm⟩
  · intro hcond base
    refine ⟨hnearest base, fun halone => ?_⟩
    obtain ⟨hmet, honly⟩ := hcond ⟨base, halone⟩
    have hfirst := halone.1.firstMet
    unfold deriveMergeBase
    rw [if_neg (by simpa using List.ne_nil_of_mem hfirst.2)]
    rcases hspec with ⟨candidates, hsearch, hnodup, hmem, -⟩ | ⟨-, hmany⟩
    · have hsingle : candidates = [base] := by
        refine List.perm_singleton.mp ((List.perm_ext_iff_of_nodup hnodup
          (List.nodup_singleton base)).mpr fun c => ?_)
        rw [hmem c, List.mem_singleton]
        exact ⟨fun hc => honly c base hc hfirst, fun hc => hc ▸ hfirst⟩
      rw [hsearch, hsingle]
    · exact absurd hmet hmany

end Search

/-! ## A history with a merge -/

/-- A snapshot with these parents. -/
def historySnapshot (parent : Option ObjectId) (mergeParents : List ObjectId) : Object :=
  .snapshot ⟨.fill 0, parent, mergeParents, 0, [], [], []⟩

/-- Two snapshots of a workspace, one after the other; another workspace starts from the first one
and then merges the second one. -/
def mergeHistory : ObjectStore := fun id =>
  if id = .fill 1 then some (historySnapshot none [])
  else if id = .fill 2 then some (historySnapshot (some (.fill 1)) [])
  else if id = .fill 3 then some (historySnapshot (some (.fill 1)) [])
  else if id = .fill 4 then some (historySnapshot (some (.fill 3)) [.fill 2])
  else none

/-- The parents in this history. -/
theorem parentOf_mergeHistory {a b : ObjectId} (h : ParentOf mergeHistory a b) :
    (a, b) ∈ [((.fill 2 : ObjectId), (.fill 1 : ObjectId)), (.fill 3, .fill 1), (.fill 4, .fill 3),
      (.fill 4, .fill 2)] := by
  obtain ⟨snapshot, hsnapshot, hb⟩ := h
  unfold mergeHistory at hsnapshot
  split_ifs at hsnapshot with h₁ h₂ h₃ h₄ <;>
    simp only [historySnapshot, Option.some.injEq, Object.snapshot.injEq] at hsnapshot <;>
    rw [← hsnapshot] at hb <;>
    simp [Snapshot.parents] at hb
  · simp [h₂, hb]
  · simp [h₃, hb]
  · rcases hb with hb | hb <;> simp [h₄, hb]

/-- Parents come before their children. -/
theorem lt_of_parentOf_mergeHistory {a b : ObjectId} (h : ParentOf mergeHistory a b) : b < a := by
  have hall : ∀ p ∈ [((.fill 2 : ObjectId), (.fill 1 : ObjectId)), (.fill 3, .fill 1),
      (.fill 4, .fill 3), (.fill 4, .fill 2)], p.2 < p.1 := by decide
  exact hall (a, b) (parentOf_mergeHistory h)

/-- The sample has no cycle. -/
theorem acyclic_mergeHistory : Acyclic mergeHistory := by
  have hlt : ∀ {a b}, Relation.TransGen (ParentOf mergeHistory) a b → b < a := by
    intro a b h
    induction h with
    | single hab => exact lt_of_parentOf_mergeHistory hab
    | tail _ hbc ih => exact lt_trans (lt_of_parentOf_mergeHistory hbc) ih
  exact fun a h => lt_irrefl a (hlt h)

/-- Ancestors of the sample have smaller numbers. -/
theorem le_of_ancestry_mergeHistory {a b : ObjectId} (h : Ancestry mergeHistory a b) : b ≤ a := by
  induction h with
  | refl => exact le_refl a
  | tail _ hbc ih => exact le_trans (lt_of_parentOf_mergeHistory hbc).le ih

/-- The sample has all ancestors. -/
theorem ancestryPresent_mergeHistory {theirs : ObjectId}
    (h : ∃ snapshot, mergeHistory theirs = some (.snapshot snapshot)) :
    AncestryPresent mergeHistory theirs := by
  intro a ha
  cases ha with
  | refl => exact h
  | tail _ hstep =>
    have hmem := parentOf_mergeHistory hstep
    simp only [List.mem_cons, Prod.mk.injEq, List.not_mem_nil, or_false] at hmem
    rcases hmem with ⟨-, rfl⟩ | ⟨-, rfl⟩ | ⟨-, rfl⟩ | ⟨-, rfl⟩ <;> exact ⟨_, rfl⟩

/-- The first snapshot is the base of a merge with the second one for a workspace that has only
published the first. -/
theorem deriveMergeBase_mergeHistory :
    deriveMergeBase mergeHistory [.fill 1] (.fill 2) = .ok (.fill 1) ∧
      NearestAlone mergeHistory [.fill 1] (.fill 2) (.fill 1) := by
  have hbase : deriveMergeBase mergeHistory [.fill 1] (.fill 2) = .ok (.fill 1) := rfl
  refine ⟨hbase, ((deriveMergeBase_iff acyclic_mergeHistory
    (ancestryPresent_mergeHistory ⟨_, rfl⟩)).mpr (fun _ => ⟨?_, fun a b ha hb => ?_⟩) _).mp hbase⟩
  · refine ⟨[.fill 2, .fill 1], by decide, fun x => ⟨fun hx => ?_, fun hx => ?_⟩, by decide⟩
    · have hstep : SearchStep mergeHistory [.fill 1] (.fill 2) (.fill 1) :=
        ⟨by decide, _, rfl, by decide⟩
      simp only [List.mem_cons, List.not_mem_nil, or_false] at hx
      rcases hx with rfl | rfl
      · exact .refl
      · exact .single hstep
    · induction hx with
      | refl => decide
      | @tail y z _ hstep ih =>
        obtain ⟨hout, hparent⟩ := hstep
        have hmem := parentOf_mergeHistory hparent
        simp only [List.mem_cons, Prod.mk.injEq, List.not_mem_nil, or_false] at hmem ih
        rcases hmem with ⟨-, rfl⟩ | ⟨-, rfl⟩ | ⟨rfl, -⟩ | ⟨rfl, -⟩
        · decide
        · decide
        · exact absurd ih (by decide)
        · exact absurd ih (by decide)
  · rw [List.mem_singleton.mp ha.2, List.mem_singleton.mp hb.2]

/-- **A member that is met on one path is an ancestor of one that is met on another**: the second
snapshot is nearest alone, and no base is derived. -/
theorem deriveMergeBase_fails :
    Acyclic mergeHistory ∧ AncestryPresent mergeHistory (.fill 4) ∧
      NearestAlone mergeHistory [.fill 1, .fill 2] (.fill 4) (.fill 2) ∧
      deriveMergeBase mergeHistory [.fill 1, .fill 2] (.fill 4) = .error .manyCandidates := by
  have hchild : ParentOf mergeHistory (.fill 4) (.fill 2) := ⟨_, rfl, by decide⟩
  have hparent : ParentOf mergeHistory (.fill 2) (.fill 1) := ⟨_, rfl, by decide⟩
  have hcommon : CommonAncestor mergeHistory [.fill 1, .fill 2] (.fill 4) (.fill 2) :=
    ⟨by decide, .single hchild⟩
  refine ⟨acyclic_mergeHistory, ancestryPresent_mergeHistory ⟨_, rfl⟩, ⟨⟨hcommon, ?_⟩, ?_⟩, ?_⟩
  · rintro c ⟨hc, -⟩ hanc
    have hle := le_of_ancestry_mergeHistory hanc
    simp only [List.mem_cons, List.not_mem_nil, or_false] at hc
    rcases hc with rfl | rfl
    · exact absurd hle (by decide)
    · rfl
  · rintro c ⟨⟨hc, -⟩, hnearest⟩
    simp only [List.mem_cons, List.not_mem_nil, or_false] at hc
    rcases hc with rfl | rfl
    · exact absurd (hnearest _ hcommon (.single hparent)) (by decide)
    · rfl
  · rfl

end Furrow
