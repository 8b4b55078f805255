import Furrow.Radar.Changes

set_option relaxedAutoImplicit false
set_option autoImplicit false

/-!
# The walks of an observation

What the lookups and the walks of `radar.rs` do in stored trees: a lookup finds the entry at the
end of the names, the walk of an added directory visits its flat view, and the walk of two heads
visits, of the names on the way to a path, those up to the first one that is the same in both.

## Main results

* `Furrow.findPath_eq` — a lookup.
* `Furrow.visitSubtree_eq` — the walk of a directory.
* `Furrow.visitChangedScopes_eq` — the walk of two heads.
-/

namespace Furrow

open SepOrder

/-! ## Lookups -/

section Lookup

variable {store : ObjectStore}

/-- The components of a path are looked up one after the other. -/
theorem findComponents_eq {id : ObjectId} {D : Dir} (h : DirDenotes store id D)
    {names : List Bytes} (hne : names ≠ []) (hnames : ∀ n ∈ names, n ≠ []) :
    ∃ k, ∀ fuel, k ≤ fuel → findComponents store fuel id names = .ok (D.entryAt names) := by
  induction names generalizing id D with
  | nil => exact absurd rfl hne
  | cons n rest ih =>
    have hn : n ≠ [] := hnames n List.mem_cons_self
    obtain ⟨k, hk⟩ := findEntry_eq h.page h.sorted
    cases rest with
    | nil =>
      refine ⟨k, fun fuel hf => ?_⟩
      rw [findComponents, if_neg hn, hk fuel hf n]
      cases he : entryNamed n D.entries <;> simp [Dir.entryAt, Dir.entry, he, fromStore] <;> rfl
    | cons m rest =>
      rcases h.stored.subdir n with ⟨e, t, he, hkind, ht, hden⟩ | ⟨hno, hnil⟩
      · obtain ⟨j, hj⟩ := ih hden (by simp) fun x hx => hnames x (List.mem_cons_of_mem _ hx)
        refine ⟨k + j, fun fuel hf => ?_⟩
        rw [findComponents, if_neg hn, hk fuel (by omega) n, he]
        simp only [fromStore, bind, Except.bind, hkind, ht]
        exact hj fuel (by omega)
      · refine ⟨k, fun fuel hf => ?_⟩
        rw [findComponents, if_neg hn, hk fuel hf n]
        cases he : entryNamed n D.entries with
        | none => simp [Dir.entryAt, hnil, fromStore, bind, Except.bind, pure, Except.pure]
        | some e =>
          simp [Dir.entryAt, hnil, fromStore, bind, Except.bind, pure, Except.pure, hno e he]

end Lookup

/-! ## Paths and names -/

/-- The path of a list of names. -/
def pathOf (names : List Bytes) : Bytes := [slash].intercalate names

/-- Names that can stand in a path. -/
def AreNames (names : List Bytes) : Prop := ∀ n ∈ names, n ≠ [] ∧ slash ∉ n

/-- The path of one name. -/
@[simp] theorem pathOf_singleton (n : Bytes) : pathOf [n] = n := List.intercalate_singleton

/-- The path of more names. -/
theorem pathOf_cons_cons (n m : Bytes) (rest : List Bytes) :
    pathOf (n :: m :: rest) = n ++ slash :: pathOf (m :: rest) := by
  rw [pathOf, List.intercalate_cons_cons, List.append_assoc]
  rfl

/-- A path is cut into its names. -/
theorem splitOn_pathOf {names : List Bytes} (hne : names ≠ []) (h : ∀ n ∈ names, slash ∉ n) :
    (pathOf names).splitOn slash = names := List.splitOn_intercalate slash h hne

/-- The parts of a path make it up. -/
theorem pathOf_splitOn (path : Bytes) : pathOf (path.splitOn slash) = path :=
  List.intercalate_splitOn slash

/-- Names have a path. -/
theorem pathOf_ne_nil {names : List Bytes} (hne : names ≠ []) (h : AreNames names) :
    pathOf names ≠ [] := by
  cases names with
  | nil => exact absurd rfl hne
  | cons n rest =>
    have hn : n ≠ [] := (h n List.mem_cons_self).1
    cases rest with
    | nil => rwa [pathOf_singleton]
    | cons m rest =>
      rw [pathOf_cons_cons]
      exact List.append_ne_nil_of_left_ne_nil hn _

/-- Paths of more names. -/
theorem pathOf_append {above : List Bytes} (habove : above ≠ []) {names : List Bytes}
    (hne : names ≠ []) : pathOf (above ++ names) = pathOf above ++ slash :: pathOf names := by
  induction above with
  | nil => exact absurd rfl habove
  | cons n rest ih =>
    obtain ⟨x, xs, rfl⟩ := List.exists_cons_of_ne_nil hne
    cases rest with
    | nil => rw [List.singleton_append, pathOf_cons_cons, pathOf_singleton]
    | cons m rest =>
      have htail := ih (by simp)
      rw [List.cons_append] at htail
      rw [List.cons_append, List.cons_append, pathOf_cons_cons, pathOf_cons_cons, htail]
      simp

/-- The path of a name below a directory. -/
theorem joinPath_pathOf {above : List Bytes} (h : AreNames above) (n : Bytes) :
    joinPath (pathOf above) n = pathOf (above ++ [n]) := by
  cases above with
  | nil => simp [pathOf]
  | cons m rest =>
    have hne := pathOf_ne_nil (by simp) h
    rw [joinPath, if_neg (by simpa using hne), pathOf_append (by simp) (by simp),
      pathOf_singleton]

/-- **A lookup finds the entry at the end of the names.** -/
theorem findPath_eq {store : ObjectStore} {id : ObjectId} {D : Dir} (h : DirDenotes store id D)
    {names : List Bytes} (hne : names ≠ []) (hnames : AreNames names) :
    ∃ k, ∀ fuel, k ≤ fuel → findPath store fuel id (pathOf names) = .ok (D.entryAt names) := by
  obtain ⟨k, hk⟩ := findComponents_eq h hne fun n hn => (hnames n hn).1
  refine ⟨k, fun fuel hf => ?_⟩
  rw [findPath, if_neg (pathOf_ne_nil hne hnames),
    splitOn_pathOf hne fun n hn => (hnames n hn).2, hk fuel hf]

/-! ## The walk of a directory -/

section Subtree

variable {store : ObjectStore} {σ : Type}

/-- The visits of a walk are those of the flat view under the prefix. -/
theorem foldlM_visitSubtreeEntry {D : Dir} (hD : D.Stored store) :
    ∃ k, ∀ fuel, k ≤ fuel → ∀ (visitor : σ → Bytes → TreeEntry → Except RadarError σ) pfx s,
      D.entries.foldlM (visitSubtreeEntry visitor (visitSubtree store visitor fuel) pfx) s =
        (underPrefix pfx D.flat).foldlM (fun s p => visitor s p.1 p.2) s := by
  induction D with
  | nil => exact ⟨0, fun fuel _ visitor pfx s => rfl⟩
  | cons e sub rest ihsub ihrest =>
    obtain ⟨hname, hsub, hrest⟩ := hD
    obtain ⟨m, hm⟩ := ihrest hrest
    have hne : e.name ≠ [] := (validateName_ok hname).1
    have hflat : ∀ pfx, underPrefix pfx (Dir.cons e sub rest).flat =
        (joinPath pfx e.name, e) :: (underPrefix (joinPath pfx e.name) sub.flat ++
          underPrefix pfx rest.flat) := by
      intro pfx
      rw [← underPrefix_below pfx hne]
      simp [Dir.flat, underPrefix]
    split_ifs at hsub with hk
    · obtain ⟨t, ht, hp, -, hst⟩ := hsub
      obtain ⟨n, hn⟩ := ihsub hst
      obtain ⟨w, hw⟩ := forEachEntry_eq hp
      refine ⟨n + m + w + 1, fun fuel hf visitor pfx s => ?_⟩
      obtain ⟨k, rfl⟩ : ∃ k, fuel = k + 1 := ⟨fuel - 1, by omega⟩
      rw [Dir.entries, List.foldlM_cons, hflat, List.foldlM_cons, visitSubtreeEntry]
      cases hv : visitor s (joinPath pfx e.name) e with
      | error err => rfl
      | ok s' =>
        simp only [hk, if_true, ht, visitSubtree, hw k (by omega), fromStore, bind, Except.bind]
        rw [List.foldlM_append, ← hn k (by omega)]
        cases sub.entries.foldlM (visitSubtreeEntry visitor (visitSubtree store visitor k)
          (joinPath pfx e.name)) s' with
        | error err => rfl
        | ok s'' => exact hm (k + 1) (by omega) visitor pfx s''
    · refine ⟨m, fun fuel hf visitor pfx s => ?_⟩
      rw [Dir.entries, List.foldlM_cons, hflat, List.foldlM_cons, hsub, visitSubtreeEntry]
      simp only [hk, if_false, bind_assoc, pure_bind, Dir.flat, underPrefix, List.map_nil,
        List.nil_append, hm fuel hf]

/-- **The walk of a directory visits its flat view.** -/
theorem visitSubtree_eq {id : ObjectId} {D : Dir} (h : DirDenotes store id D) :
    ∃ k, ∀ fuel, k ≤ fuel → ∀ (visitor : σ → Bytes → TreeEntry → Except RadarError σ) pfx s,
      visitSubtree store visitor fuel id pfx s =
        (underPrefix pfx D.flat).foldlM (fun s p => visitor s p.1 p.2) s := by
  obtain ⟨n, hn⟩ := foldlM_visitSubtreeEntry (σ := σ) h.stored
  obtain ⟨w, hw⟩ := forEachEntry_eq h.page
  refine ⟨n + w + 1, fun fuel hf visitor pfx s => ?_⟩
  obtain ⟨k, rfl⟩ : ∃ k, fuel = k + 1 := ⟨fuel - 1, by omega⟩
  rw [visitSubtree, hw k (by omega)]
  exact hn k (by omega) visitor pfx s

end Subtree

/-! ## The walk of two heads -/

/-- The visits on the way to a path. -/
def visitedNames : Dir → Dir → List Bytes → List (List Bytes)
  | _, _, [] => []
  | P, H, n :: rest =>
    if P.entry n = H.entry n then []
    else [n] :: (if entryIsDirectory (P.entry n) && entryIsDirectory (H.entry n) then
      (visitedNames (P.subdir n) (H.subdir n) rest).map (n :: ·) else [])

/-- A walk makes some visits, in this order, whatever is visited. -/
def Performs (walk : ∀ σ : Type, (σ → Bytes → Except RadarError σ) → ℕ → Bytes → σ →
    Except RadarError σ) (visits : List (List Bytes)) : Prop :=
  ∃ k, ∀ fuel, k ≤ fuel → ∀ (σ : Type) (visitor : σ → Bytes → Except RadarError σ)
    (above : List Bytes) (s : σ), AreNames above →
      walk σ visitor fuel (pathOf above) s =
        (visits.map fun names => pathOf (above ++ names)).foldlM visitor s

/-- The visits are those on the way to every path. -/
structure VisitsOf (P H : Dir) (visits : List (List Bytes)) : Prop where
  names : ∀ q ∈ visits, q ≠ [] ∧ AreNames q
  filter : ∀ names, visits.filter (fun q => q <+: names) = visitedNames P H names

/-- The name of a pair. -/
def PairNamed (p : EntryPair) (n : Bytes) : Prop := ∃ e, p.1.or p.2 = some e ∧ e.name = n

/-- The visits of some pairs are those on the way to every path that starts with one of their
names. -/
structure PairVisits (P H : Dir) (pairs : List EntryPair) (visits : List (List Bytes)) :
    Prop where
  names : ∀ q ∈ visits, q ≠ [] ∧ AreNames q
  named : ∀ n rest, (∃ p ∈ pairs, PairNamed p n) →
    visits.filter (fun q => q <+: n :: rest) = visitedNames P H (n :: rest)
  other : ∀ n rest, (∀ p ∈ pairs, ¬ PairNamed p n) →
    visits.filter (fun q => q <+: n :: rest) = []

/-- A pair has one name. -/
theorem PairNamed.unique {p : EntryPair} {n m : Bytes} (h : PairNamed p n) (h' : PairNamed p m) :
    n = m := by
  obtain ⟨e, he, rfl⟩ := h
  obtain ⟨e', he', rfl⟩ := h'
  rw [he, Option.some.injEq] at he'
  rw [he']

/-- Prefixes with the same first name. -/
theorem filter_map_cons (n : Bytes) (rest : List Bytes) (l : List (List Bytes)) :
    (l.map (n :: ·)).filter (fun q => q <+: n :: rest) =
      (l.filter fun q => q <+: rest).map (n :: ·) := by
  rw [List.filter_map]
  congr 1
  apply List.filter_congr
  intro q _
  simp [List.cons_prefix_cons]

/-- Prefixes with another first name. -/
theorem filter_map_cons_of_ne {n m : Bytes} (h : m ≠ n) (rest : List Bytes)
    (l : List (List Bytes)) : (l.map (m :: ·)).filter (fun q => q <+: n :: rest) = [] := by
  rw [List.filter_eq_nil_iff]
  intro q hq
  obtain ⟨q', -, rfl⟩ := List.mem_map.mp hq
  simp [List.cons_prefix_cons, h]

section Changed

variable {store : ObjectStore}

/-- A directory has its tree. -/
theorem directoryTree_eq_some {D : Dir} (hD : D.Stored store) {n : Bytes}
    (h : entryIsDirectory (D.entry n) = true) :
    ∃ t, directoryTree (D.entry n) = some t ∧ DirDenotes store t (D.subdir n) := by
  rcases hD.subdir n with ⟨e, t, he, hk, ht, hden⟩ | ⟨hno, -⟩
  · exact ⟨t, by simp [directoryTree, Dir.entry, he, hk, ht, Option.filter], hden⟩
  · cases he : D.entry n with
    | none => simp [he] at h
    | some e =>
      rw [he] at h
      exact absurd (by simpa [entryIsDirectory] using h) (hno e he)

/-- What is no directory has no tree. -/
theorem directoryTree_eq_none {entry : Option TreeEntry} (h : entryIsDirectory entry = false) :
    directoryTree entry = none := by
  cases entry with
  | none => rfl
  | some e =>
    have hk : e.kind ≠ .Directory := by simpa [entryIsDirectory] using h
    simp [directoryTree, Option.filter, hk]

/-- The names of entries of stored trees can stand in a path. -/
theorem Dir.Stored.isName {D : Dir} (hD : D.Stored store) {n : Bytes} {e : TreeEntry}
    (h : D.entry n = some e) : n ≠ [] ∧ slash ∉ n := by
  obtain ⟨rfl, hmem⟩ := entryNamed_some h
  exact validateName_ok (hD.validName hmem)

/-- The entries of one name are a pair of this name. -/
theorem pairNamed_entry {P H : Dir} {n : Bytes} (h : P.entry n ≠ H.entry n) :
    PairNamed (P.entry n, H.entry n) n := by
  cases hp : P.entry n with
  | some e => exact ⟨e, Option.some_or .., (entryNamed_some hp).1⟩
  | none =>
    cases hh : H.entry n with
    | some e => exact ⟨e, Option.none_or .., (entryNamed_some hh).1⟩
    | none => exact absurd (hp.trans hh.symm) h

/-- Where entries differ, there is a name. -/
theorem isName_of_ne {P H : Dir} (hP : P.Stored store) (hH : H.Stored store) {n : Bytes}
    (h : P.entry n ≠ H.entry n) : n ≠ [] ∧ slash ∉ n := by
  cases hp : P.entry n with
  | some e => exact hP.isName hp
  | none =>
    cases hh : H.entry n with
    | some e => exact hH.isName hh
    | none => exact absurd (hp.trans hh.symm) h

/-- The visits of one pair: its path and, if both entries are directories, what is below. -/
theorem exists_visits_of_pair {P H : Dir} (hP : P.Stored store) (hH : H.Stored store) {n : Bytes}
    (hne : P.entry n ≠ H.entry n)
    (ih : entryIsDirectory (P.entry n) = true → ∀ left right,
      DirDenotes store left (P.subdir n) → DirDenotes store right (H.subdir n) → ∃ visits,
        Performs (fun _ visitor fuel => visitChangedScopes store visitor fuel left right) visits ∧
          VisitsOf (P.subdir n) (H.subdir n) visits) :
    ∃ visits, Performs (fun _ visitor fuel pfx s =>
      visitChanged visitor (visitChangedScopes store visitor fuel) pfx s (P.entry n, H.entry n))
        visits ∧ PairVisits P H [(P.entry n, H.entry n)] visits := by
  obtain ⟨e, he, hname⟩ := pairNamed_entry hne
  have hn := isName_of_ne hP hH hne
  have hother : ∀ m, (∀ p ∈ [(P.entry n, H.entry n)], ¬ PairNamed p m) → n ≠ m := by
    rintro m hm rfl
    exact hm _ List.mem_cons_self (pairNamed_entry hne)
  have hnamed : ∀ m, (∃ p ∈ [(P.entry n, H.entry n)], PairNamed p m) → m = n := by
    rintro m ⟨p, hp, hm⟩
    rw [List.mem_singleton.mp hp] at hm
    exact hm.unique (pairNamed_entry hne)
  by_cases hdir : (entryIsDirectory (P.entry n) && entryIsDirectory (H.entry n)) = true
  · rw [Bool.and_eq_true] at hdir
    obtain ⟨left, hleft, hdl⟩ := directoryTree_eq_some hP hdir.1
    obtain ⟨right, hright, hdr⟩ := directoryTree_eq_some hH hdir.2
    obtain ⟨visits, ⟨k, hk⟩, hvisits⟩ := ih hdir.1 left right hdl hdr
    refine ⟨[n] :: visits.map (n :: ·), ⟨k, ?_⟩, ?_, ?_, ?_⟩
    · intro fuel hf σ visitor above s habove
      have habove' : AreNames (above ++ [n]) := by
        intro x hx
        rcases List.mem_append.mp hx with hx | hx
        · exact habove x hx
        · exact List.mem_singleton.mp hx ▸ hn
      beta_reduce
      unfold visitChanged
      rw [he]
      simp only [hname, joinPath_pathOf habove, List.map_cons, List.foldlM_cons, hleft, hright,
        List.map_map, Function.comp_def]
      cases visitor s (pathOf (above ++ [n])) with
      | error err => rfl
      | ok s' =>
        simp only [bind, Except.bind]
        have hbelow := hk fuel hf σ visitor _ s' habove'
        beta_reduce at hbelow
        rw [hbelow]
        simp
    · intro q hq
      rcases List.mem_cons.mp hq with rfl | hq
      · exact ⟨by simp, fun x hx => List.mem_singleton.mp hx ▸ hn⟩
      · obtain ⟨q', hq', rfl⟩ := List.mem_map.mp hq
        refine ⟨by simp, fun x hx => ?_⟩
        rcases List.mem_cons.mp hx with rfl | hx
        · exact hn
        · exact (hvisits.names q' hq').2 x hx
    · intro m rest hm
      rw [hnamed m hm, visitedNames, if_neg hne, if_pos (Bool.and_eq_true .. ▸ hdir),
        ← hvisits.filter rest, ← filter_map_cons]
      simp
    · intro m rest hm
      have hnm := hother m hm
      rw [List.filter_cons, filter_map_cons_of_ne hnm]
      simp [List.cons_prefix_cons, hnm]
  · refine ⟨[[n]], ⟨0, ?_⟩, ?_, ?_, ?_⟩
    · intro fuel _ σ visitor above s habove
      have htrees : directoryTree (P.entry n) = none ∨ directoryTree (H.entry n) = none := by
        rw [Bool.not_eq_true, Bool.and_eq_false_iff] at hdir
        exact hdir.imp directoryTree_eq_none directoryTree_eq_none
      beta_reduce
      unfold visitChanged
      rw [he]
      simp only [hname, joinPath_pathOf habove, List.map_cons, List.map_nil, List.foldlM_cons,
        List.foldlM_nil]
      cases visitor s (pathOf (above ++ [n])) with
      | error err => rfl
      | ok s' =>
        rcases htrees with h | h
        · simp [h, bind, Except.bind]
        · cases directoryTree (P.entry n) <;> simp [h, bind, Except.bind]
    · intro q hq
      rw [List.mem_singleton.mp hq]
      exact ⟨by simp, fun x hx => List.mem_singleton.mp hx ▸ hn⟩
    · intro m rest hm
      rw [hnamed m hm, visitedNames, if_neg hne, if_neg hdir]
      simp
    · intro m rest hm
      simp [List.cons_prefix_cons, hother m hm]

/-- The visits of some pairs, one pair after the other. -/
theorem exists_visits_of_pairs {P H : Dir} {pairs : List EntryPair}
    (hpairs : pairs.Pairwise NamedBefore)
    (h : ∀ p ∈ pairs, ∃ visits, Performs (fun _ visitor fuel pfx s =>
      visitChanged visitor (visitChangedScopes store visitor fuel) pfx s p) visits ∧
        PairVisits P H [p] visits) :
    ∃ visits, Performs (fun _ visitor fuel pfx s =>
      pairs.foldlM (visitChanged visitor (visitChangedScopes store visitor fuel) pfx) s) visits ∧
        PairVisits P H pairs visits := by
  induction pairs with
  | nil =>
    refine ⟨[], ⟨0, fun _ _ _ _ _ _ _ => rfl⟩, ?_, ?_, fun _ _ _ => rfl⟩
    · intro q hq
      exact absurd hq List.not_mem_nil
    · rintro n rest ⟨p, hp, -⟩
      exact absurd hp List.not_mem_nil
  | cons p pairs ih =>
    obtain ⟨hbefore, hpairs'⟩ := List.pairwise_cons.mp hpairs
    obtain ⟨first, ⟨k, hk⟩, hfirst⟩ := h p List.mem_cons_self
    obtain ⟨later, ⟨j, hj⟩, hlater⟩ := ih hpairs' fun q hq => h q (List.mem_cons_of_mem _ hq)
    refine ⟨first ++ later, ⟨k + j, ?_⟩, ?_, ?_, ?_⟩
    · intro fuel hf σ visitor above s habove
      have hp := hk fuel (by omega) σ visitor above s habove
      beta_reduce at hp ⊢
      rw [List.foldlM_cons, hp, List.map_append, List.foldlM_append]
      congr 1
      funext s'
      exact hj fuel (by omega) σ visitor above s' habove
    · intro q hq
      exact (List.mem_append.mp hq).elim (hfirst.names q) (hlater.names q)
    · rintro n rest ⟨q, hq, hn⟩
      rw [List.filter_append]
      rcases List.mem_cons.mp hq with rfl | hq
      · -- the names of later pairs are other names
        have hnone : ∀ r ∈ pairs, ¬ PairNamed r n := by
          rintro r hr ⟨e', he', hn'⟩
          obtain ⟨e, he, hn⟩ := hn
          have hlt := hbefore r hr e e' he he'
          rw [hn, hn'] at hlt
          exact absurd hlt (lt_irrefl _)
        rw [hfirst.named n rest ⟨q, List.mem_cons_self, hn⟩, hlater.other n rest hnone,
          List.append_nil]
      · have hnone : ∀ r ∈ [p], ¬ PairNamed r n := by
          rintro r hr ⟨e, he, hn'⟩
          rw [List.mem_singleton.mp hr] at he
          obtain ⟨e', he', hn⟩ := hn
          have hlt := hbefore q hq e e' he he'
          rw [hn, hn'] at hlt
          exact absurd hlt (lt_irrefl _)
        rw [hfirst.other n rest hnone, hlater.named n rest ⟨q, hq, hn⟩, List.nil_append]
    · intro n rest hn
      rw [List.filter_append, hfirst.other n rest, hlater.other n rest, List.append_nil]
      · exact fun r hr => hn r (List.mem_cons_of_mem _ hr)
      · intro r hr
        exact hn r (List.mem_singleton.mp hr ▸ List.mem_cons_self)

/-- **The walk of two heads** makes, on the way to every path, the visits up to the first name
that is the same in both.

**Proof sketch.** Induction on the size of the first tree.  The comparison of the two directories
reports the names that differ, once each and in order; the visits of a pair are its path and, if
both entries are directories, those of the walk below it. -/
theorem visitChangedScopes_eq {left right : ObjectId} {P H : Dir} (hP : DirDenotes store left P)
    (hH : DirDenotes store right H) :
    ∃ visits, Performs (fun _ visitor fuel => visitChangedScopes store visitor fuel left right)
      visits ∧ VisitsOf P H visits := by
  induction hsize : P.size using Nat.strong_induction_on generalizing left right P H with
  | _ size ih =>
    obtain ⟨w, hw⟩ := diffEntries_eq hP.page hH.page hP.sorted hH.sorted
    have hpair : ∀ p ∈ mergeDiff P.entries H.entries, ∃ n, P.entry n ≠ H.entry n ∧
        p = (P.entry n, H.entry n) := by
      rintro ⟨a, b⟩ hp
      obtain ⟨hab, n, rfl, rfl⟩ := (mem_mergeDiff_iff hP.sorted hH.sorted).mp hp
      exact ⟨n, hab, rfl⟩
    have hvisit : ∀ p ∈ mergeDiff P.entries H.entries, ∃ visits,
        Performs (fun _ visitor fuel pfx s =>
          visitChanged visitor (visitChangedScopes store visitor fuel) pfx s p) visits ∧
          PairVisits P H [p] visits := by
      intro p hp
      obtain ⟨n, hne, rfl⟩ := hpair p hp
      apply exists_visits_of_pair hP.stored hH.stored hne
      intro hdir l r hl hr
      cases he : P.entry n with
      | none => simp [he] at hdir
      | some e => exact ih _ (hsize ▸ Dir.size_subdir_lt he) hl hr rfl
    obtain ⟨visits, ⟨k, hk⟩, hvisits⟩ :=
      exists_visits_of_pairs (mergeDiff_pairwise hP.sorted hH.sorted) hvisit
    refine ⟨visits, ⟨w + k + 1, ?_⟩, hvisits.names, ?_⟩
    · intro fuel hf σ visitor above s habove
      obtain ⟨j, rfl⟩ : ∃ j, fuel = j + 1 := ⟨fuel - 1, by omega⟩
      beta_reduce
      rw [visitChangedScopes, hw j (by omega)]
      exact hk j (by omega) σ visitor above s habove
    · intro names
      cases names with
      | nil =>
        rw [visitedNames, List.filter_eq_nil_iff]
        intro q hq
        simpa using (hvisits.names q hq).1
      | cons n rest =>
        by_cases heq : P.entry n = H.entry n
        · rw [visitedNames, if_pos heq]
          apply hvisits.other
          rintro p hp hn
          obtain ⟨m, hne, rfl⟩ := hpair p hp
          rw [(pairNamed_entry hne).unique hn] at hne
          exact hne heq
        · apply hvisits.named
          refine ⟨_, (mem_mergeDiff_iff hP.sorted hH.sorted).mpr ⟨heq, n, rfl, rfl⟩, ?_⟩
          exact pairNamed_entry heq

end Changed

end Furrow
