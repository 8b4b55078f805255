import Furrow.Radar.Events
import Furrow.Radar.Visits

set_option relaxedAutoImplicit false
set_option autoImplicit false

/-!
# Observing a fork again

An observation only looks at the paths where the head that was seen last and the new one differ.
Here the table it leaves is compared with that of one observation of the last head in an empty
database.

## Main definitions

* `Furrow.rowsAt` — the rows of a path in the table.
* `Furrow.Exact` — the table holds what a head has changed.
* `Furrow.observeAll` — observations one after the other.

## Main results

* `Furrow.updateDirtyScopes_exact` — an update in a step that keeps the rows exact.
* `Furrow.observeAll_eq_fresh` — after such steps the table is that of one observation.
-/

namespace Furrow

open SepOrder

/-! ## The table -/

/-- The rows of a path of a fork. -/
def rowsAt (dirty : DirtyScopes) (fork path : Bytes) : Rows :=
  fun scope => dirty.get? (scopeKey fork path scope)

/-- The keys of a fork differ in path or scope. -/
theorem scopeKey_inj {fork path path' : Bytes} {scope scope' : Scope} :
    scopeKey fork path scope = scopeKey fork path' scope' ↔ path = path' ∧ scope = scope' := by
  constructor
  · intro h
    have h := congrArg (fun key => ofLex (ofLex key).2) h
    simpa [scopeKey] using h
  · rintro ⟨rfl, rfl⟩
    rfl

/-- Two tables of one fork with the same rows are equal. -/
theorem dirtyScopes_ext {fork : Bytes} {dirty dirty' : DirtyScopes}
    (hd : DirtyScopes.Only fork OrdMap.empty dirty)
    (hd' : DirtyScopes.Only fork OrdMap.empty dirty')
    (h : ∀ path, rowsAt dirty fork path = rowsAt dirty' fork path) : dirty = dirty' := by
  apply OrdMap.ext_get?
  intro key
  by_cases hfork : (ofLex key).1 = fork
  · subst hfork
    exact congrFun (h (ofLex (ofLex key).2).1) (ofLex (ofLex key).2).2
  · have hnone : ∀ d : DirtyScopes, DirtyScopes.Only fork OrdMap.empty d → d.get? key = none := by
      intro d hd
      rw [← Option.not_isSome_iff_eq_none, ← OrdMap.mem_keys_iff]
      intro hkey
      rcases hd key hkey with hof | hempty
      · exact hfork hof
      · exact absurd hempty List.not_mem_nil
    rw [hnone dirty hd, hnone dirty' hd']

/-- The rows of a path after a scope is removed. -/
theorem rowsAt_removeScope (fork path : Bytes) (descendants : Bool) (dirty : DirtyScopes)
    (path' : Bytes) :
    rowsAt (removeScope fork path descendants dirty) fork path' =
      if path' = path ∨ (descendants = true ∧ liesBelow path path' = true) then Rows.clear
      else rowsAt dirty fork path' := by
  funext scope
  rw [rowsAt, removeScope, OrdMap.get?_filter]
  split_ifs with h
  · cases dirty.get? (scopeKey fork path' scope) with
    | none => rfl
    | some action =>
      rcases h with rfl | ⟨rfl, hbelow⟩
      · simp [Option.filter, scopeKey, Rows.clear]
      · simp [Option.filter, scopeKey, Rows.clear, hbelow]
  · rw [rowsAt]
    cases dirty.get? (scopeKey fork path' scope) with
    | none => rfl
    | some action =>
      rw [not_or, not_and, Bool.not_eq_true] at h
      simpa [Option.filter, scopeKey, h.1] using h.2

/-- The rows of a path after a scope is inserted. -/
theorem rowsAt_insertScope (fork path : Bytes) (scope : Scope) (action : ScopeAction)
    (dirty : DirtyScopes) (path' : Bytes) :
    rowsAt (insertScope fork path scope action dirty) fork path' =
      fun s => if path' = path ∧ s = scope then some action else rowsAt dirty fork path' s := by
  funext s
  rw [rowsAt, insertScope, OrdMap.get?_insert]
  simp only [scopeKey_inj, rowsAt]

/-- The rows of other paths stay. -/
theorem rowsAt_insertIf_of_ne {condition : Bool} {fork path : Bytes} {scope : Scope}
    {action : ScopeAction} {dirty : DirtyScopes} {path' : Bytes} (h : path' ≠ path) :
    rowsAt (insertIf condition fork path scope action dirty) fork path' =
      rowsAt dirty fork path' := by
  rw [insertIf]
  split_ifs
  · rw [rowsAt_insertScope]
    funext s
    rw [if_neg fun hs => h hs.1]
  · rfl

/-- A row is put where there was none. -/
theorem rowsAt_insertIf_self {condition : Bool} {fork path : Bytes} {scope : Scope}
    {action : ScopeAction} {dirty : DirtyScopes} (h : rowsAt dirty fork path = Rows.clear) :
    rowsAt (insertIf condition fork path scope action dirty) fork path =
      Rows.onlyIf condition scope action := by
  rw [insertIf]
  cases condition with
  | true =>
    rw [if_pos rfl, rowsAt_insertScope, h]
    funext s
    simp [Rows.onlyIf, Rows.clear]
  | false => rw [if_neg Bool.false_ne_true, h, Rows.onlyIf_false]

/-! ## The files of an added directory -/

/-- Whether an entry of an added directory is a scope of its own. -/
def isAddedLeaf (p : Bytes × TreeEntry) : Bool :=
  p.2.kind ≠ .Directory && relevant p.2.contentClass && !ignoredPath p.1

/-- The visits of an added directory insert its files and count them. -/
theorem foldlM_addLeaf (fork : Bytes) (l : List (Bytes × TreeEntry)) (s : DirtyScopes × ℕ) :
    l.foldlM (fun s p => addLeaf fork s p.1 p.2) s =
      .ok (OrdMap.foldInsert s.1 ((l.filter isAddedLeaf).map fun p =>
        (scopeKey fork p.1 .exact, ScopeAction.add)), s.2 + (l.filter isAddedLeaf).length) := by
  induction l generalizing s with
  | nil => rfl
  | cons p rest ih =>
    rw [List.foldlM_cons, addLeaf]
    by_cases hp : isAddedLeaf p = true
    · have hcond : p.2.kind ≠ .Directory ∧ relevant p.2.contentClass = true ∧
          (!ignoredPath p.1) = true := by simpa [isAddedLeaf, and_assoc] using hp
      rw [if_pos hcond, List.filter_cons_of_pos hp]
      simp only [bind, Except.bind]
      rw [ih]
      simp only [List.map_cons, List.length_cons, OrdMap.foldInsert, List.foldl_cons, insertScope]
      congr 2
      omega
    · have hcond : ¬ (p.2.kind ≠ .Directory ∧ relevant p.2.contentClass = true ∧
          (!ignoredPath p.1) = true) := by simpa [isAddedLeaf, and_assoc] using hp
      rw [if_neg hcond, List.filter_cons_of_neg hp]
      exact ih s

/-! ## Ignored paths -/

/-- Names without a separator. -/
def SlashFree (names : List Bytes) : Prop := ∀ n ∈ names, slash ∉ n

/-- Names have no slash. -/
theorem AreNames.slashFree {names : List Bytes} (h : AreNames names) : SlashFree names :=
  fun n hn => (h n hn).2

/-- A path begins with a name and a slash if that is its first name. -/
theorem isPrefixOf_slash {m n : Bytes} (hm : slash ∉ m) (hn : slash ∉ n) (r : Bytes) :
    (m ++ [slash]).isPrefixOf (n ++ slash :: r) = true ↔ n = m := by
  rw [List.isPrefixOf_iff_prefix]
  constructor
  · rintro ⟨t, ht⟩
    rw [List.append_assoc, List.singleton_append] at ht
    have hfirst := congrArg (splitFirst slash) ht
    rw [splitFirst_append hm, splitFirst_append hn] at hfirst
    exact (congrArg Prod.fst hfirst).symm
  · rintro rfl
    exact ⟨r, by simp⟩

/-- A path is ignored by its first name. -/
theorem ignoredPath_pathOf {n : Bytes} {rest : List Bytes} (h : SlashFree (n :: rest)) :
    ignoredPath (pathOf (n :: rest)) = decide (n = text ".furrow" ∨ n = text ".git") := by
  have hn : slash ∉ n := h n List.mem_cons_self
  have hfurrow : slash ∉ text ".furrow" := by decide
  have hgit : slash ∉ text ".git" := by decide
  have hf : text ".furrow/" = text ".furrow" ++ [slash] := by decide
  have hg : text ".git/" = text ".git" ++ [slash] := by decide
  unfold ignoredPath
  rw [hf, hg]
  cases rest with
  | nil =>
    have hno : ∀ m : Bytes, (m ++ [slash]).isPrefixOf n = false := by
      intro m
      rw [Bool.eq_false_iff, ne_eq, List.isPrefixOf_iff_prefix]
      intro hpre
      exact hn (hpre.subset (by simp))
    rw [pathOf_singleton, hno, hno, Bool.or_false, Bool.or_false, ← Bool.decide_or]
  | cons m rest =>
    have hne : ∀ x : Bytes, slash ∉ x → ¬ n ++ slash :: pathOf (m :: rest) = x :=
      fun x hx => append_sep_ne hx _
    rw [pathOf_cons_cons, Bool.eq_iff_iff]
    simp only [Bool.or_eq_true, decide_eq_true_eq, isPrefixOf_slash hfurrow hn,
      isPrefixOf_slash hgit hn, hne _ hfurrow, hne _ hgit, false_or, or_false]

/-- Paths above each other are ignored together. -/
theorem ignoredPath_prefix {q names : List Bytes} (hq : q ≠ []) (hpre : q <+: names)
    (h : SlashFree names) : ignoredPath (pathOf q) = ignoredPath (pathOf names) := by
  obtain ⟨rest, rfl⟩ := hpre
  obtain ⟨n, tail, rfl⟩ := List.exists_cons_of_ne_nil hq
  rw [List.cons_append] at h ⊢
  rw [ignoredPath_pathOf h, ignoredPath_pathOf]
  intro x hx
  apply h x
  rcases List.mem_cons.mp hx with rfl | hx
  · exact List.mem_cons_self
  · exact List.mem_cons_of_mem _ (List.mem_append_left _ hx)

/-- A path lies below another if it has more names. -/
theorem liesBelow_pathOf {q names : List Bytes} (hq : q ≠ []) (hqs : SlashFree q)
    (hne : names ≠ []) (h : SlashFree names) :
    liesBelow (pathOf q) (pathOf names) = true ↔ q <+: names ∧ names ≠ q := by
  rw [liesBelow_iff]
  constructor
  · rintro ⟨r, hr⟩
    have hsplit := congrArg (List.splitOn slash) hr
    rw [List.splitOn_append_cons_self, splitOn_pathOf hq hqs, splitOn_pathOf hne h] at hsplit
    rw [hsplit]
    exact ⟨List.prefix_append .., by simp⟩
  · rintro ⟨⟨rest, rfl⟩, hlonger⟩
    have hrest : rest ≠ [] := by
      rintro rfl
      exact hlonger (List.append_nil q)
    exact ⟨pathOf rest, pathOf_append hq hrest⟩

/-- Different names have different paths. -/
theorem pathOf_injective {q names : List Bytes} (hq : q ≠ []) (hqs : SlashFree q)
    (hne : names ≠ []) (h : SlashFree names) (heq : pathOf names = pathOf q) : names = q := by
  have hsplit := congrArg (List.splitOn slash) heq
  rwa [splitOn_pathOf hq hqs, splitOn_pathOf hne h] at hsplit

/-- The parts of a path have no slash. -/
theorem slashFree_splitOn (path : Bytes) : SlashFree (path.splitOn slash) := by
  induction path with
  | nil =>
    intro n hn
    simp only [List.splitOn_nil, List.mem_singleton] at hn
    rw [hn]
    exact List.not_mem_nil
  | cons c path ih =>
    rw [List.splitOn_cons_eq_if_modifyHead]
    split_ifs with hc
    · intro n hn
      rcases List.mem_cons.mp hn with rfl | hn
      · exact List.not_mem_nil
      · exact ih n hn
    · cases hsplit : path.splitOn slash with
      | nil => exact absurd hsplit (List.splitOn_ne_nil slash path)
      | cons first rest =>
        rw [hsplit] at ih
        intro n hn
        rcases List.mem_cons.mp hn with rfl | hn
        · have hcs : slash ≠ c := fun h => hc (by simp [h])
          have hfirst : slash ∉ first := ih first List.mem_cons_self
          exact fun hmem => (List.mem_cons.mp hmem).elim hcs hfirst
        · exact ih n (List.mem_cons_of_mem _ hn)

/-- Names one after the other have no slash. -/
theorem SlashFree.append {q rest : List Bytes} (hq : SlashFree q) (hrest : SlashFree rest) :
    SlashFree (q ++ rest) := by
  intro n hn
  exact (List.mem_append.mp hn).elim (hq n) (hrest n)

/-- What is below a path that is not ignored is not ignored. -/
theorem ignoredPath_below {q : List Bytes} (hq : q ≠ []) (hqs : SlashFree q)
    (h : ignoredPath (pathOf q) = false) (r : Bytes) :
    ignoredPath (pathOf q ++ slash :: r) = false := by
  have hsplit := slashFree_splitOn r
  have hne : r.splitOn slash ≠ [] := List.splitOn_ne_nil slash r
  rw [← pathOf_splitOn r, ← pathOf_append hq hne,
    ← ignoredPath_prefix hq (List.prefix_append ..) (hqs.append hsplit), h]

/-! ## A visit -/

section Visit

variable {store : ObjectStore} {fork : Bytes}

/-- What is at a path is what is at its names. -/
theorem Dir.get_pathOf (D : Dir) {names : List Bytes} (hne : names ≠ []) (h : SlashFree names) :
    D.get (pathOf names) = D.entryAt names := by
  induction names generalizing D with
  | nil => exact absurd rfl hne
  | cons n rest ih =>
    have hn : slash ∉ n := h n List.mem_cons_self
    cases rest with
    | nil =>
      rw [pathOf_singleton, D.get_name hn]
      rfl
    | cons m rest =>
      rw [pathOf_cons_cons, D.get_below hn]
      exact ih _ (by simp) fun x hx => h x (List.mem_cons_of_mem _ hx)

/-- The rows after the files of an added directory were inserted. -/
theorem rowsAt_foldInsert (leaves : List (Bytes × TreeEntry)) (dirty : DirtyScopes) (path : Bytes) :
    rowsAt (OrdMap.foldInsert dirty (leaves.map fun p =>
      (scopeKey fork p.1 .exact, ScopeAction.add))) fork path =
        fun s => if s = .exact ∧ ∃ p ∈ leaves, p.1 = path then some .add
          else rowsAt dirty fork path s := by
  funext s
  have hget := OrdMap.get?_foldInsert dirty (f := fun _ => some .add)
    (l := leaves.map fun p => (scopeKey fork p.1 .exact, ScopeAction.add)) (by
      intro p hp
      obtain ⟨q, -, rfl⟩ := List.mem_map.mp hp
      rfl) (scopeKey fork path s)
  have hmem : scopeKey fork path s ∈ (leaves.map fun p =>
      (scopeKey fork p.1 .exact, ScopeAction.add)).map Prod.fst ↔
        s = .exact ∧ ∃ p ∈ leaves, p.1 = path := by
    simp only [List.map_map, List.mem_map, Function.comp_apply, scopeKey_inj]
    constructor
    · rintro ⟨p, hp, hpath, hs⟩
      exact ⟨hs.symm, p, hp, hpath⟩
    · rintro ⟨rfl, p, hp, hpath⟩
      exact ⟨p, hp, hpath, rfl⟩
  rw [rowsAt, hget]
  simp only [hmem]
  rfl

/-- The files of an added directory, with their paths. -/
theorem exists_leaf_iff {q : List Bytes} (hq : q ≠ []) (hnames : AreNames q)
    (hign : ignoredPath (pathOf q) = false) {D : Dir} (hs : NameSorted D.entries)
    (hD : D.Stored store) (path : Bytes) :
    (∃ p ∈ (underPrefix (pathOf q) D.flat).filter isAddedLeaf, p.1 = path) ↔
      ∃ r e, path = pathOf q ++ slash :: r ∧ D.get r = some e ∧ e.kind ≠ .Directory ∧
        relevant e.contentClass = true := by
  have hjoin : ∀ r, joinPath (pathOf q) r = pathOf q ++ slash :: r := by
    intro r
    rw [joinPath, if_neg]
    simpa using pathOf_ne_nil hq hnames
  have hbelow := ignoredPath_below hq hnames.slashFree hign
  constructor
  · rintro ⟨p, hp, rfl⟩
    rw [List.mem_filter, underPrefix, List.mem_map] at hp
    obtain ⟨⟨⟨r, e⟩, hre, rfl⟩, hleaf⟩ := hp
    refine ⟨r, e, hjoin r, (Dir.mem_flat_iff hs hD).mp hre, ?_⟩
    simpa [isAddedLeaf, hjoin, hbelow] using hleaf
  · rintro ⟨r, e, rfl, hget, hleaf⟩
    refine ⟨(joinPath (pathOf q) r, e), ?_, hjoin r⟩
    rw [List.mem_filter, underPrefix, List.mem_map]
    refine ⟨⟨(r, e), (Dir.mem_flat_iff hs hD).mpr hget, rfl⟩, ?_⟩
    simpa [isAddedLeaf, hjoin, hbelow] using hleaf

/-- A directory has a leaf if a relevant file is below it. -/
theorem Dir.hasLeaf_iff {D : Dir} (hs : NameSorted D.entries) (hD : D.Stored store) :
    D.hasLeaf = true ↔ ∃ r e, D.get r = some e ∧ e.kind ≠ .Directory ∧
      relevant e.contentClass = true := by
  rw [Dir.hasLeaf, List.any_eq_true]
  constructor
  · rintro ⟨⟨r, e⟩, hre, hleaf⟩
    exact ⟨r, e, (Dir.mem_flat_iff hs hD).mp hre, by simpa using hleaf⟩
  · rintro ⟨r, e, hget, hleaf⟩
    exact ⟨(r, e), (Dir.mem_flat_iff hs hD).mpr hget, by simpa using hleaf⟩

/-- The count of the files of an added directory. -/
theorem length_leaves_eq_zero {q : List Bytes} (hq : q ≠ []) (hnames : AreNames q)
    (hign : ignoredPath (pathOf q) = false) {D : Dir} (hs : NameSorted D.entries)
    (hD : D.Stored store) :
    ((underPrefix (pathOf q) D.flat).filter isAddedLeaf).length = 0 ↔ D.hasLeaf = false := by
  rw [List.length_eq_zero_iff, Bool.eq_false_iff, ne_eq, Dir.hasLeaf_iff hs hD,
    List.eq_nil_iff_forall_not_mem]
  constructor
  · rintro hnone ⟨r, e, hleaf⟩
    obtain ⟨p, hp, -⟩ := (exists_leaf_iff hq hnames hign hs hD _).mpr ⟨r, e, rfl, hleaf⟩
    exact hnone p hp
  · intro hnone p hp
    obtain ⟨r, e, -, hleaf⟩ := (exists_leaf_iff hq hnames hign hs hD p.1).mp ⟨p, hp, rfl⟩
    exact hnone ⟨r, e, hleaf⟩

variable (fork) in
/-- The rows of an added directory, where there were none at its path or below it. -/
theorem insertAddedSubtree_rows {q : List Bytes} (hq : q ≠ []) (hnames : AreNames q)
    (hign : ignoredPath (pathOf q) = false) {e : TreeEntry} {t : ObjectId}
    (ht : e.target = some t) {D : Dir} (hD : DirDenotes store t D) :
    ∃ k, ∀ fuel, k ≤ fuel → ∀ dirty, rowsAt dirty fork (pathOf q) = Rows.clear →
      (∀ path, liesBelow (pathOf q) path = true → rowsAt dirty fork path = Rows.clear) →
      ∃ dirty', insertAddedSubtree store fuel fork (pathOf q) e dirty = .ok dirty' ∧
        rowsAt dirty' fork (pathOf q) =
          Rows.onlyIf (!D.hasLeaf && relevant e.contentClass) .exact .add ∧
        (∀ r, rowsAt dirty' fork (pathOf q ++ slash :: r) = leafRows (D.get r)) ∧
        ∀ path, path ≠ pathOf q → liesBelow (pathOf q) path = false →
          rowsAt dirty' fork path = rowsAt dirty fork path := by
  obtain ⟨k, hk⟩ := visitSubtree_eq (σ := DirtyScopes × ℕ) hD
  refine ⟨k, fun fuel hf dirty hhere hbelow => ?_⟩
  have hleaf := exists_leaf_iff hq hnames hign hD.sorted hD.stored
  have hcount := length_leaves_eq_zero hq hnames hign hD.sorted hD.stored
  have hself : ∀ r, pathOf q ≠ pathOf q ++ slash :: r := by
    intro r h
    simpa using congrArg List.length h
  have hne : ∀ r, pathOf q ++ slash :: r ≠ pathOf q := fun r h => hself r h.symm
  -- the last insertion is that of a single row, as the other visits do it
  have hrun : insertAddedSubtree store fuel fork (pathOf q) e dirty =
      .ok (insertIf (!D.hasLeaf && relevant e.contentClass) fork (pathOf q) .exact .add
        (OrdMap.foldInsert dirty (((underPrefix (pathOf q) D.flat).filter isAddedLeaf).map fun p =>
          (scopeKey fork p.1 .exact, ScopeAction.add)))) := by
    rw [insertAddedSubtree, ht]
    simp only [hk fuel hf, foldlM_addLeaf, bind, Except.bind, Nat.zero_add, hcount, insertIf,
      pure, Except.pure]
    cases D.hasLeaf <;> cases relevant e.contentClass <;> rfl
  refine ⟨_, hrun, ?_, ?_, ?_⟩
  · apply rowsAt_insertIf_self
    rw [rowsAt_foldInsert, hhere]
    funext s
    rw [if_neg]
    rintro ⟨-, hp⟩
    obtain ⟨r, -, hr, -⟩ := (hleaf _).mp hp
    exact hself r hr
  · intro r
    rw [rowsAt_insertIf_of_ne (hne r), rowsAt_foldInsert,
      hbelow _ (liesBelow_iff.mpr ⟨r, rfl⟩)]
    funext s
    have hr : (∃ p ∈ (underPrefix (pathOf q) D.flat).filter isAddedLeaf,
        p.1 = pathOf q ++ slash :: r) ↔ ∃ x, D.get r = some x ∧ x.kind ≠ .Directory ∧
          relevant x.contentClass = true := by
      rw [hleaf]
      constructor
      · rintro ⟨r', x, heq, hx⟩
        have hr' : r = r' := by simpa using heq
        exact ⟨x, hr' ▸ hx⟩
      · rintro ⟨x, hx⟩
        exact ⟨r, x, rfl, hx⟩
    cases hget : D.get r with
    | none =>
      rw [if_neg]
      · rfl
      · rintro ⟨-, hp⟩
        obtain ⟨x, hx, -⟩ := hr.mp hp
        rw [hget] at hx
        exact absurd hx (by simp)
    | some x =>
      by_cases hx : x.kind ≠ .Directory ∧ relevant x.contentClass = true
      · simp only [hr.mpr ⟨x, hget, hx⟩, and_true]
        simp [leafRows, Rows.onlyIf, Rows.clear, hx.1, hx.2]
      · rw [if_neg]
        · have hno : (decide (x.kind ≠ .Directory) && relevant x.contentClass) = false := by
            rw [Bool.eq_false_iff]
            simpa using hx
          rw [leafRows, hno, Rows.onlyIf_false]
        · rintro ⟨-, hp⟩
          obtain ⟨y, hy, hleaf⟩ := hr.mp hp
          rw [hget, Option.some.injEq] at hy
          exact hx (hy ▸ hleaf)
  · intro path hpath hlies
    rw [rowsAt_insertIf_of_ne hpath, rowsAt_foldInsert]
    funext s
    rw [if_neg]
    rintro ⟨-, hp⟩
    obtain ⟨r, -, hr, -⟩ := (hleaf _).mp hp
    rw [liesBelow_iff.mpr ⟨r, hr⟩] at hlies
    exact absurd hlies Bool.true_eq_false.mp

/-- What the insertion for a path leaves in the table. -/
structure Inserted (fork path : Bytes) (rows : Rows) (below : Bytes → Rows)
    (dirty dirty' : DirtyScopes) : Prop where
  here : rowsAt dirty' fork path = rows
  below : ∀ r, rowsAt dirty' fork (path ++ slash :: r) = below r
  other : ∀ path', path' ≠ path → liesBelow path path' = false →
    rowsAt dirty' fork path' = rowsAt dirty fork path'

/-- A row that is inserted under a condition. -/
theorem Inserted.insertIf {path : Bytes} {dirty : DirtyScopes}
    (h : rowsAt dirty fork path = Rows.clear) (condition : Bool) (scope : Scope)
    (action : ScopeAction) :
    Inserted fork path (Rows.onlyIf condition scope action)
      (fun r => rowsAt dirty fork (path ++ slash :: r)) dirty
      (insertIf condition fork path scope action dirty) where
  here := rowsAt_insertIf_self h
  below r := rowsAt_insertIf_of_ne fun heq => by simpa using congrArg List.length heq
  other _ hne _ := rowsAt_insertIf_of_ne hne

/-- Nothing is inserted. -/
theorem Inserted.none {path : Bytes} {dirty : DirtyScopes}
    (h : rowsAt dirty fork path = Rows.clear) :
    Inserted fork path Rows.clear (fun r => rowsAt dirty fork (path ++ slash :: r)) dirty dirty :=
  ⟨h, fun _ => rfl, fun _ _ _ => rfl⟩

variable (fork) in
/-- The new scopes of a path, after the old ones were removed. -/
theorem insertScopes_rows {q : List Bytes} (hq : q ≠ []) (hnames : AreNames q)
    (hign : ignoredPath (pathOf q) = false) (base head : Option TreeEntry) {sub : Dir}
    (hsub : ∀ e, head = some e → e.kind = .Directory →
      ∃ t, e.target = some t ∧ DirDenotes store t sub) :
    ∃ k, ∀ fuel, k ≤ fuel → ∀ dirty, rowsAt dirty fork (pathOf q) = Rows.clear →
      (entryIsDirectory base ≠ entryIsDirectory head →
        ∀ path, liesBelow (pathOf q) path = true → rowsAt dirty fork path = Rows.clear) →
      ∃ dirty', insertScopes store fuel fork (pathOf q) base head dirty = .ok dirty' ∧
        Inserted fork (pathOf q) (visitedRows base head sub)
          (fun r => belowRows base head (sub.get r) (rowsAt dirty fork (pathOf q ++ slash :: r)))
          dirty dirty' := by
  -- where the directory is not an added one, what is below stays as it is
  have hkeep : ∀ dirty r, (base = none → entryIsDirectory head = false) →
      (entryIsDirectory base ≠ entryIsDirectory head →
        ∀ path, liesBelow (pathOf q) path = true → rowsAt dirty fork path = Rows.clear) →
      belowRows base head (sub.get r) (rowsAt dirty fork (pathOf q ++ slash :: r)) =
        rowsAt dirty fork (pathOf q ++ slash :: r) := by
    intro dirty r hadded hbelow
    rw [belowRows]
    split_ifs with hsame hnone
    · rfl
    · rw [Option.isNone_iff_eq_none] at hnone
      rw [hnone, hadded hnone] at hsame
      exact absurd rfl hsame
    · exact (hbelow hsame _ (liesBelow_iff.mpr ⟨r, rfl⟩)).symm
  cases base with
  | some left =>
    refine ⟨0, fun fuel _ dirty hhere hbelow => ?_⟩
    simp only [hkeep dirty _ (by simp) hbelow]
    cases head with
    | none =>
      rw [insertScopes, visitedRows]
      exact ⟨_, rfl, Inserted.insertIf hhere _ _ _⟩
    | some right =>
      rw [insertScopes, visitedRows]
      split_ifs
      · exact ⟨_, rfl, Inserted.insertIf hhere _ _ _⟩
      · exact ⟨_, rfl, Inserted.insertIf hhere _ _ _⟩
      · exact ⟨_, rfl, Inserted.none hhere⟩
      · exact ⟨_, rfl, Inserted.insertIf hhere _ _ _⟩
  | none =>
    cases head with
    | none =>
      refine ⟨0, fun fuel _ dirty hhere hbelow => ?_⟩
      simp only [hkeep dirty _ (by simp) hbelow]
      exact ⟨_, rfl, Inserted.none hhere⟩
    | some right =>
      by_cases hk : right.kind = .Directory
      · obtain ⟨t, ht, hden⟩ := hsub right rfl hk
        obtain ⟨k, hrun⟩ := insertAddedSubtree_rows fork hq hnames hign ht hden
        refine ⟨k, fun fuel hf dirty hhere hbelow => ?_⟩
        have hdiff : entryIsDirectory none ≠ entryIsDirectory (some right) := by
          simp [entryIsDirectory, hk]
        obtain ⟨dirty', hinsert, hself, hleaves, hother⟩ :=
          hrun fuel hf dirty hhere (hbelow hdiff)
        refine ⟨dirty', ?_, ?_, ?_, hother⟩
        · rw [insertScopes, if_pos hk, hinsert]
        · rw [hself, visitedRows, if_pos hk]
        · intro r
          rw [hleaves r, belowRows, if_neg hdiff]
          rfl
      · refine ⟨0, fun fuel _ dirty hhere hbelow => ?_⟩
        simp only [hkeep dirty _ (fun _ => by simp [entryIsDirectory, hk]) hbelow]
        rw [insertScopes, if_neg hk, visitedRows, if_neg hk]
        exact ⟨_, rfl, Inserted.insertIf hhere _ _ _⟩

end Visit

/-- What is below the directory at the end of a list of names. -/
def Dir.subdirAt : Dir → List Bytes → Dir
  | D, [] => D
  | D, n :: rest => (D.subdir n).subdirAt rest

/-- The way to a subdirectory, and on. -/
theorem Dir.entryAt_append (D : Dir) {q rest : List Bytes} (hrest : rest ≠ []) :
    D.entryAt (q ++ rest) = (D.subdirAt q).entryAt rest := by
  induction q generalizing D with
  | nil => rfl
  | cons n q ih =>
    obtain ⟨m, tail, htail⟩ : ∃ m tail, q ++ rest = m :: tail :=
      List.exists_cons_of_ne_nil (by simp [hrest])
    rw [List.cons_append, htail, Dir.entryAt, ← htail, ih, Dir.subdirAt]

/-- A subdirectory is stored as its entry says. -/
theorem Dir.Stored.subdirAt_denotes {store : ObjectStore} {D : Dir} (hD : D.Stored store)
    {q : List Bytes} {e : TreeEntry} (he : D.entryAt q = some e) (hk : e.kind = .Directory) :
    ∃ t, e.target = some t ∧ DirDenotes store t (D.subdirAt q) := by
  induction q generalizing D with
  | nil => exact absurd he (by simp [Dir.entryAt])
  | cons n rest ih =>
    cases rest with
    | nil => exact hD.subdir_denotes he hk
    | cons m rest => exact ih (hD.subdir_stored n) he

/-- **What a visit of a path makes of the rows of a path.** -/
def visitRows (B H : Dir) (q names : List Bytes) (old : Rows) : Rows :=
  if q <+: names then
    if ignoredPath (pathOf q) then Rows.clear
    else if names = q then visitedRows (B.entryAt q) (H.entryAt q) (H.subdirAt q)
    else belowRows (B.entryAt q) (H.entryAt q) (H.entryAt names) old
  else old

section Recompute

variable {store : ObjectStore} {base head : ObjectId} {B H : Dir}

/-- The rows of a path after it is computed again. -/
theorem recomputeScope_rows (fork : Bytes) (hB : DirDenotes store base B)
    (hH : DirDenotes store head H) {q : List Bytes} (hq : q ≠ []) (hnames : AreNames q) :
    ∃ k, ∀ fuel, k ≤ fuel → ∀ dirty, ∃ dirty',
      recomputeScope store fuel fork base head dirty (pathOf q) = .ok dirty' ∧
        ∀ names ≠ [], SlashFree names → rowsAt dirty' fork (pathOf names) =
          visitRows B H q names (rowsAt dirty fork (pathOf names)) := by
  have hqs := hnames.slashFree
  by_cases hign : ignoredPath (pathOf q) = true
  · refine ⟨0, fun fuel _ dirty => ⟨_, by rw [recomputeScope, if_pos hign], ?_⟩⟩
    intro names hne hfree
    rw [rowsAt_removeScope, visitRows]
    by_cases hpre : q <+: names
    · rw [if_pos, if_pos hpre, if_pos hign]
      by_cases heq : names = q
      · exact Or.inl (by rw [heq])
      · exact Or.inr ⟨rfl, (liesBelow_pathOf hq hqs hne hfree).mpr ⟨hpre, heq⟩⟩
    · rw [if_neg, if_neg hpre]
      rintro (heq | ⟨-, hlies⟩)
      · exact hpre (pathOf_injective hq hqs hne hfree heq ▸ List.prefix_refl _)
      · exact hpre ((liesBelow_pathOf hq hqs hne hfree).mp hlies).1
  · have hign' := Bool.eq_false_of_not_eq_true hign
    obtain ⟨i, hi⟩ := findPath_eq hB hq hnames
    obtain ⟨j, hj⟩ := findPath_eq hH hq hnames
    obtain ⟨k, hk⟩ := insertScopes_rows fork hq hnames hign' (B.entryAt q) (H.entryAt q)
      fun e he hkind => hH.stored.subdirAt_denotes he hkind
    refine ⟨i + j + k, fun fuel hf dirty => ?_⟩
    have hremoved := rowsAt_removeScope fork (pathOf q)
      (entryIsDirectory (B.entryAt q) != entryIsDirectory (H.entryAt q)) dirty
    obtain ⟨dirty', hrun, hinserted⟩ := hk fuel (by omega) (removeScope fork (pathOf q)
      (entryIsDirectory (B.entryAt q) != entryIsDirectory (H.entryAt q)) dirty)
      (by rw [hremoved, if_pos (Or.inl rfl)])
      (by
        intro hdiff path hlies
        rw [hremoved, if_pos (Or.inr ⟨by simpa using hdiff, hlies⟩)])
    refine ⟨dirty', ?_, ?_⟩
    · rw [recomputeScope, if_neg hign, hi fuel (by omega), hj fuel (by omega)]
      exact hrun
    · intro names hne hfree
      rw [visitRows]
      by_cases hpre : q <+: names
      · rw [if_pos hpre, if_neg hign]
        by_cases heq : names = q
        · rw [if_pos heq, heq, hinserted.here]
        · obtain ⟨rest, rfl⟩ := hpre
          have hrest : rest ≠ [] := by
            rintro rfl
            exact heq (List.append_nil q)
          have hrestfree : SlashFree rest := fun n hn => hfree n (List.mem_append_right _ hn)
          rw [if_neg heq, pathOf_append hq hrest, hinserted.below, Dir.get_pathOf _ hrest hrestfree,
            H.entryAt_append hrest, hremoved, belowRows, belowRows]
          by_cases hsame : entryIsDirectory (B.entryAt q) = entryIsDirectory (H.entryAt q)
          · rw [if_pos hsame, if_pos hsame, if_neg]
            rintro (hself | ⟨hdiff, -⟩)
            · simpa using congrArg List.length hself
            · simp [hsame] at hdiff
          · rw [if_neg hsame, if_neg hsame]
      · rw [if_neg hpre, hinserted.other, hremoved, if_neg]
        · rintro (heq | ⟨-, hlies⟩)
          · exact hpre (pathOf_injective hq hqs hne hfree heq ▸ List.prefix_refl _)
          · exact hpre ((liesBelow_pathOf hq hqs hne hfree).mp hlies).1
        · intro heq
          exact hpre (pathOf_injective hq hqs hne hfree heq ▸ List.prefix_refl _)
        · rw [Bool.eq_false_iff]
          intro hlies
          exact hpre ((liesBelow_pathOf hq hqs hne hfree).mp hlies).1

/-- The visits of a walk, one after the other: those on the way to a path make its rows. -/
theorem foldlM_recomputeScope (fork : Bytes) (hB : DirDenotes store base B)
    (hH : DirDenotes store head H) {visits : List (List Bytes)}
    (hvisits : ∀ q ∈ visits, q ≠ [] ∧ AreNames q) :
    ∃ k, ∀ fuel, k ≤ fuel → ∀ dirty, ∃ dirty',
      (visits.map pathOf).foldlM (recomputeScope store fuel fork base head) dirty = .ok dirty' ∧
        ∀ names ≠ [], SlashFree names → rowsAt dirty' fork (pathOf names) =
          (visits.filter fun q => q <+: names).foldl (fun old q => visitRows B H q names old)
            (rowsAt dirty fork (pathOf names)) := by
  induction visits with
  | nil => exact ⟨0, fun fuel _ dirty => ⟨dirty, rfl, fun _ _ _ => rfl⟩⟩
  | cons q rest ih =>
    obtain ⟨hq, hnames⟩ := hvisits q List.mem_cons_self
    obtain ⟨i, hi⟩ := recomputeScope_rows fork hB hH hq hnames
    obtain ⟨j, hj⟩ := ih fun x hx => hvisits x (List.mem_cons_of_mem _ hx)
    refine ⟨i + j, fun fuel hf dirty => ?_⟩
    obtain ⟨dirty₁, hrun₁, hrows₁⟩ := hi fuel (by omega) dirty
    obtain ⟨dirty₂, hrun₂, hrows₂⟩ := hj fuel (by omega) dirty₁
    refine ⟨dirty₂, ?_, ?_⟩
    · rw [List.map_cons, List.foldlM_cons, hrun₁]
      exact hrun₂
    · intro names hne hfree
      rw [hrows₂ names hne hfree, hrows₁ names hne hfree]
      by_cases hpre : q <+: names
      · rw [List.filter_cons_of_pos (by simpa using hpre), List.foldl_cons]
      · rw [List.filter_cons_of_neg (by simpa using hpre), visitRows, if_neg hpre]

/-- The root is not visited. -/
theorem ne_nil_of_mem_visitedNames {P H : Dir} {names q : List Bytes}
    (h : q ∈ visitedNames P H names) : q ≠ [] := by
  cases names with
  | nil => exact absurd h List.not_mem_nil
  | cons n rest =>
    rw [visitedNames] at h
    split_ifs at h
    · exact absurd h List.not_mem_nil
    · rcases List.mem_cons.mp h with rfl | h
      · simp
      · obtain ⟨q', -, rfl⟩ := List.mem_map.mp h
        simp
    · rw [List.mem_singleton.mp h]
      simp

/-- What a visit makes of the rows of a path at it or below it, where it is not ignored. -/
def passRows (B H : Dir) (q names : List Bytes) (old : Rows) : Rows :=
  if names = q then visitedRows (B.entryAt q) (H.entryAt q) (H.subdirAt q)
  else belowRows (B.entryAt q) (H.entryAt q) (H.entryAt names) old

/-- A pass in a subdirectory. -/
theorem passRows_cons (B H : Dir) (n : Bytes) {q names : List Bytes} (hq : q ≠ [])
    (hne : names ≠ []) (old : Rows) :
    passRows B H (n :: q) (n :: names) old = passRows (B.subdir n) (H.subdir n) q names old := by
  obtain ⟨m, tail, rfl⟩ := List.exists_cons_of_ne_nil hq
  obtain ⟨m', tail', rfl⟩ := List.exists_cons_of_ne_nil hne
  rw [passRows, passRows]
  simp only [List.cons.injEq, true_and]
  rfl

/-- The visits on the way to a path make of its rows what is followed name by name. -/
theorem foldl_passRows (B P H : Dir) (names : List Bytes) (old : Rows) :
    (visitedNames P H names).foldl (fun old q => passRows B H q names old) old =
      walkRows B P H names old := by
  induction names generalizing B P H old with
  | nil => rfl
  | cons n rest ih =>
    cases rest with
    | nil =>
      rw [visitedNames, walkRows]
      split_ifs
      · rfl
      · simp [visitedNames, passRows, Dir.entryAt, Dir.subdirAt]
      · simp [passRows, Dir.entryAt, Dir.subdirAt]
    | cons m rest =>
      have hfirst : passRows B H [n] (n :: m :: rest) old =
          belowRows (B.entry n) (H.entry n) ((H.subdir n).entryAt (m :: rest)) old := by
        rw [passRows, if_neg (by simp)]
        rfl
      rw [visitedNames, walkRows]
      dsimp only
      split_ifs with heq hdir
      · rfl
      · rw [List.foldl_cons, hfirst, List.foldl_map, ← ih]
        apply List.foldl_ext
        intro old q hq
        exact passRows_cons B H n (ne_nil_of_mem_visitedNames hq) (by simp) old
      · rw [List.foldl_cons, hfirst, List.foldl_nil]

end Recompute

/-! ## An update -/

/-- The table holds what a head has changed since the base. -/
def Exact (B H : Dir) (fork : Bytes) (dirty : DirtyScopes) : Prop :=
  ∀ names ≠ [], SlashFree names → rowsAt dirty fork (pathOf names) =
    if ignoredPath (pathOf names) then Rows.clear else changedRows B H names

/-- Two tables of one fork that hold the same are equal. -/
theorem Exact.unique {B H : Dir} {fork : Bytes} {dirty dirty' : DirtyScopes}
    (h : Exact B H fork dirty) (h' : Exact B H fork dirty')
    (honly : DirtyScopes.Only fork OrdMap.empty dirty)
    (honly' : DirtyScopes.Only fork OrdMap.empty dirty') : dirty = dirty' := by
  apply dirtyScopes_ext honly honly'
  intro path
  have hne : path.splitOn slash ≠ [] := List.splitOn_ne_nil slash path
  rw [← pathOf_splitOn path, h _ hne (slashFree_splitOn path), h' _ hne (slashFree_splitOn path)]

/-- An empty table holds what the base has changed since itself. -/
theorem exact_empty {store : ObjectStore} {B : Dir} (hB : B.Stored store) (fork : Bytes) :
    Exact B B fork OrdMap.empty := by
  intro names _ _
  rw [changedRows_self hB names, ite_self]
  rfl

/-- **An update keeps the table exact**, in a step that keeps the rows exact. -/
theorem updateDirtyScopes_exact {store : ObjectStore} (fork : Bytes)
    {base comparison head : ObjectId} {B P H : Dir} (hB : DirDenotes store base B)
    (hP : DirDenotes store comparison P) (hH : DirDenotes store head H) (h : Converges B P H) :
    ∃ k, ∀ fuel, k ≤ fuel → ∀ dirty, Exact B P fork dirty → ∃ dirty',
      updateDirtyScopes store fuel fork base head comparison dirty = .ok dirty' ∧
        Exact B H fork dirty' := by
  obtain ⟨visits, ⟨i, hi⟩, hvisits⟩ := visitChangedScopes_eq hP hH
  obtain ⟨j, hj⟩ := foldlM_recomputeScope fork hB hH hvisits.names
  refine ⟨i + j, fun fuel hf dirty hexact => ?_⟩
  obtain ⟨dirty', hrun, hrows⟩ := hj fuel (by omega) dirty
  refine ⟨dirty', ?_, ?_⟩
  · have hwalk := hi fuel (by omega) DirtyScopes (recomputeScope store fuel fork base head) []
      dirty (fun _ hn => absurd hn List.not_mem_nil)
    exact hwalk.trans hrun
  · intro names hne hfree
    have hpass : ∀ q ∈ visits.filter (fun q => q <+: names), q <+: names ∧
        ignoredPath (pathOf q) = ignoredPath (pathOf names) := by
      intro q hq
      obtain ⟨hmem, hpre⟩ := List.mem_filter.mp hq
      rw [decide_eq_true_eq] at hpre
      exact ⟨hpre, ignoredPath_prefix (hvisits.names q hmem).1 hpre hfree⟩
    rw [hrows names hne hfree, hexact names hne hfree]
    by_cases hign : ignoredPath (pathOf names) = true
    · -- every visit on the way removes the rows
      rw [if_pos hign, if_pos hign]
      generalize visits.filter (fun q => q <+: names) = chain at hpass
      induction chain with
      | nil => rfl
      | cons q rest ih =>
        obtain ⟨hpre, hq⟩ := hpass q List.mem_cons_self
        rw [List.foldl_cons, visitRows, if_pos hpre, hq, if_pos hign]
        exact ih fun x hx => hpass x (List.mem_cons_of_mem _ hx)
    · rw [if_neg hign, if_neg hign,
        ← walkRows_changedRows hB.stored hP.stored hH.stored h names, ← foldl_passRows,
        ← hvisits.filter names]
      apply List.foldl_ext
      intro old q hq
      obtain ⟨hpre, hqign⟩ := hpass q hq
      rw [visitRows, if_pos hpre, hqign, if_neg hign, passRows]

/-! ## Observations -/

/-- A snapshot of a tree. -/
def SnapshotDenotes (store : ObjectStore) (id : ObjectId) (D : Dir) : Prop :=
  ∃ snapshot, readSnapshot store id = .ok snapshot ∧ DirDenotes store snapshot.rootTree D

/-- An empty database. -/
def Observed.empty : Observed := ⟨OrdMap.empty, OrdMap.empty⟩

/-- Observations one after the other. -/
def observeAll (store : ObjectStore) (fuel : ℕ) (registrations : List UniverseRegistration)
    (s : Observed) : Except RadarError Observed :=
  registrations.foldlM (fun s registration => Prod.snd <$> observe store fuel registration s) s

/-- A database with one fork, of which a head was seen last. -/
structure Tracks (B H : Dir) (fork : Bytes) (base head : ObjectId) (s : Observed) : Prop where
  universes : ∃ name workspaceId,
    s.universes = OrdMap.empty.insert fork ⟨name, workspaceId, base, head⟩
  only : DirtyScopes.Only fork OrdMap.empty s.dirty
  exact : Exact B H fork s.dirty

/-- A fork has one universe. -/
theorem insert_insert_empty (fork : Bytes) (u v : Universe) :
    ((OrdMap.empty : OrdMap Bytes Universe).insert fork u).insert fork v =
      OrdMap.empty.insert fork v := by
  apply OrdMap.ext_get?
  intro k
  rw [OrdMap.get?_insert, OrdMap.get?_insert, OrdMap.get?_insert]
  split_ifs <;> rfl

/-- No other fork has a workspace. -/
theorem workspaceTaken_insert_empty (fork workspaceId : Bytes) (u : Universe) :
    workspaceTaken ((OrdMap.empty : OrdMap Bytes Universe).insert fork u) fork workspaceId =
      false := by
  simp [workspaceTaken, OrdMap.insert, OrdMap.insertList, OrdMap.empty]

/-- Changes of one fork are one. -/
theorem DirtyScopes.Only.trans {fork : Bytes} {d₁ d₂ d₃ : DirtyScopes}
    (h₁ : DirtyScopes.Only fork d₁ d₂) (h₂ : DirtyScopes.Only fork d₂ d₃) :
    DirtyScopes.Only fork d₁ d₃ := by
  intro key hkey
  exact (h₂ key hkey).elim Or.inl (h₁ key)

/-- A snapshot has one tree. -/
theorem SnapshotDenotes.unique {store : ObjectStore} {id : ObjectId} {D D' : Dir}
    (h : SnapshotDenotes store id D) (h' : SnapshotDenotes store id D') : D = D' := by
  obtain ⟨snapshot, hread, hden⟩ := h
  obtain ⟨snapshot', hread', hden'⟩ := h'
  rw [hread, Except.ok.injEq] at hread'
  subst hread'
  exact hden.unique hden'

section Observe

variable {store : ObjectStore} {fork : Bytes} {base : ObjectId} {B : Dir}
  {registration : UniverseRegistration}

/-- The first observation of a fork. -/
theorem observe_first (hfork : isId fork = true) (hB : SnapshotDenotes store base B)
    (hreg : registration.forkId = fork ∧ registration.baseSnapshot = base) {H : Dir}
    (hH : SnapshotDenotes store registration.headSnapshot H) :
    ∃ k, ∀ fuel, k ≤ fuel → ∃ s', observe store fuel registration .empty = .ok (true, s') ∧
      Tracks B H fork base registration.headSnapshot s' := by
  obtain ⟨rfl, rfl⟩ := hreg
  obtain ⟨baseSnapshot, hreadB, hdenB⟩ := hB
  obtain ⟨headSnapshot, hreadH, hdenH⟩ := hH
  obtain ⟨k, hk⟩ := updateDirtyScopes_exact registration.forkId hdenB hdenB hdenH
    (converges_base B H)
  refine ⟨k, fun fuel hf => ?_⟩
  obtain ⟨dirty, hupdate, hexact⟩ := hk fuel hf OrdMap.empty (exact_empty hdenB.stored _)
  have hrun : observe store fuel registration .empty =
      .ok (true, ⟨OrdMap.empty.insert registration.forkId ⟨registration.name,
        registration.workspaceId, registration.baseSnapshot, registration.headSnapshot⟩,
        dirty⟩) := by
    have htaken : workspaceTaken (OrdMap.empty : OrdMap Bytes Universe) registration.forkId
        registration.workspaceId = false := rfl
    have hfilter : (OrdMap.empty : DirtyScopes).filter
        (fun key _ => (ofLex key).1 ≠ registration.forkId) = OrdMap.empty := rfl
    simp only [observe, Observed.empty, hfork, hreadB, hreadH, previousRoot, htaken,
      OrdMap.get?_empty, bind, Except.bind, Option.isNone_none, if_true, Option.getD_none]
    rw [hfilter, hupdate]
    rfl
  obtain ⟨-, huniverses, honly⟩ := observe_cases hrun
  exact ⟨_, hrun, ⟨registration.name, registration.workspaceId, rfl⟩, honly, hexact⟩

/-- A further observation, in a step that keeps the rows exact. -/
theorem observe_next (hfork : isId fork = true) (hB : SnapshotDenotes store base B)
    (hreg : registration.forkId = fork ∧ registration.baseSnapshot = base) {previous : ObjectId}
    {P H : Dir} (hP : SnapshotDenotes store previous P)
    (hH : SnapshotDenotes store registration.headSnapshot H) (h : Converges B P H) :
    ∃ k, ∀ fuel, k ≤ fuel → ∀ s, Tracks B P fork base previous s →
      ∃ changed s', observe store fuel registration s = .ok (changed, s') ∧
        Tracks B H fork base registration.headSnapshot s' := by
  obtain ⟨rfl, rfl⟩ := hreg
  by_cases hsame : previous = registration.headSnapshot
  · subst hsame
    refine ⟨0, fun fuel _ s htracks => ?_⟩
    obtain ⟨name, workspaceId, huniverses⟩ := htracks.universes
    have hget : s.universes.get? registration.forkId =
        some ⟨name, workspaceId, registration.baseSnapshot, registration.headSnapshot⟩ := by
      rw [huniverses, OrdMap.get?_insert, if_pos rfl]
    refine ⟨false, ⟨s.universes.insert registration.forkId ⟨registration.name,
      registration.workspaceId, registration.baseSnapshot, registration.headSnapshot⟩, s.dirty⟩,
      ?_, ⟨registration.name, registration.workspaceId, ?_⟩, htracks.only, ?_⟩
    · simp only [observe, hget, hfork, Option.map_some, if_true]
      rw [huniverses, workspaceTaken_insert_empty]
      rfl
    · rw [huniverses]
      exact insert_insert_empty ..
    · rw [← hP.unique hH]
      exact htracks.exact
  · obtain ⟨baseSnapshot, hreadB, hdenB⟩ := hB
    obtain ⟨previousSnapshot, hreadP, hdenP⟩ := hP
    obtain ⟨headSnapshot, hreadH, hdenH⟩ := hH
    obtain ⟨k, hk⟩ := updateDirtyScopes_exact registration.forkId hdenB hdenP hdenH h
    refine ⟨k, fun fuel hf s htracks => ?_⟩
    obtain ⟨name, workspaceId, huniverses⟩ := htracks.universes
    obtain ⟨dirty, hupdate, hexact⟩ := hk fuel hf s.dirty htracks.exact
    have hget : s.universes.get? registration.forkId =
        some ⟨name, workspaceId, registration.baseSnapshot, previous⟩ := by
      rw [huniverses, OrdMap.get?_insert, if_pos rfl]
    have htaken : workspaceTaken s.universes registration.forkId registration.workspaceId =
        false := by
      rw [huniverses]
      exact workspaceTaken_insert_empty ..
    have hrun : observe store fuel registration s =
        .ok (true, ⟨s.universes.insert registration.forkId ⟨registration.name,
          registration.workspaceId, registration.baseSnapshot, registration.headSnapshot⟩,
          dirty⟩) := by
      simp only [observe, hget, hfork, hreadB, hreadH, hreadP, previousRoot, htaken,
        Option.map_some, Option.some.injEq, Prod.mk.injEq, true_and, hsame, if_true, if_false,
        bind, Except.bind, pure, Except.pure, Option.isNone_some, Option.getD_some,
        Bool.false_eq_true, hupdate]
      rfl
    obtain ⟨-, -, honly⟩ := observe_cases hrun
    refine ⟨true, _, hrun, ⟨registration.name, registration.workspaceId, ?_⟩,
      htracks.only.trans honly, hexact⟩
    rw [huniverses]
    exact insert_insert_empty ..

/-- Observations of a fork that is in the database, in steps that keep the rows exact. -/
theorem observeAll_next (hfork : isId fork = true) (hB : SnapshotDenotes store base B)
    {registrations : List UniverseRegistration}
    (hreg : ∀ r ∈ registrations, r.forkId = fork ∧ r.baseSnapshot = base) {heads : List Dir}
    (hheads : List.Forall₂ (fun r H => SnapshotDenotes store r.headSnapshot H) registrations heads)
    {previous : ObjectId} {P : Dir} (hP : SnapshotDenotes store previous P)
    (hsteps : List.IsChain (Converges B) (P :: heads)) :
    ∃ k, ∀ fuel, k ≤ fuel → ∀ s, Tracks B P fork base previous s →
      ∃ s', observeAll store fuel registrations s = .ok s' ∧
        Tracks B ((P :: heads).getLast (by simp)) fork base
          ((registrations.getLast?.map UniverseRegistration.headSnapshot).getD previous) s' := by
  induction hheads generalizing previous P with
  | nil => exact ⟨0, fun fuel _ s htracks => ⟨s, rfl, htracks⟩⟩
  | @cons r H rs Hs hH hrest ih =>
    rw [List.isChain_cons_cons] at hsteps
    obtain ⟨i, hi⟩ := observe_next hfork hB (hreg r List.mem_cons_self) hP hH hsteps.1
    obtain ⟨j, hj⟩ := ih (fun x hx => hreg x (List.mem_cons_of_mem _ hx)) hH hsteps.2
    refine ⟨i + j, fun fuel hf s htracks => ?_⟩
    obtain ⟨changed, s₁, hrun₁, htracks₁⟩ := hi fuel (by omega) s htracks
    obtain ⟨s₂, hrun₂, htracks₂⟩ := hj fuel (by omega) s₁ htracks₁
    refine ⟨s₂, ?_, ?_⟩
    · rw [observeAll, List.foldlM_cons, hrun₁]
      exact hrun₂
    · rw [List.getLast_cons (by simp)]
      cases rs with
      | nil => exact htracks₂
      | cons r' rs =>
        rw [List.getLast?_cons_cons]
        cases hlast : (r' :: rs).getLast? with
        | none => simp at hlast
        | some last =>
          rw [hlast] at htracks₂
          exact htracks₂

end Observe

/-- **Observing a fork again is observing it once.**  If every step from one head to the next
keeps the rows exact, the table after the last observation is the one that a single observation
of the last head leaves in an empty database.

**Proof sketch.** The first observation starts from the base, and such a step always keeps the
rows exact (`converges_base`); each further one makes the rows of the new head of those of the last
(`observe_next`).  Both tables then hold what the last head has changed, and nothing else. -/
theorem observeAll_eq_fresh {store : ObjectStore} {fork : Bytes} {base : ObjectId} {B : Dir}
    (hfork : isId fork = true) (hB : SnapshotDenotes store base B)
    {registrations : List UniverseRegistration} {last : UniverseRegistration}
    (hreg : ∀ r ∈ registrations, r.forkId = fork ∧ r.baseSnapshot = base) {heads : List Dir}
    (hheads : List.Forall₂ (fun r H => SnapshotDenotes store r.headSnapshot H) registrations heads)
    (hsteps : List.IsChain (Converges B) heads) (hlast : registrations.getLast? = some last) :
    ∃ k, ∀ fuel, k ≤ fuel → ∃ s fresh,
      observeAll store fuel registrations .empty = .ok s ∧
        observe store fuel last .empty = .ok (true, fresh) ∧ s.dirty = fresh.dirty := by
  cases hheads with
  | nil => exact absurd hlast (by simp)
  | @cons r H rs Hs hH hrest =>
    have hall : List.Forall₂ (fun r H => SnapshotDenotes store r.headSnapshot H) (r :: rs)
      (H :: Hs) := .cons hH hrest
    obtain ⟨H', hgetLast, hH'⟩ := Fallible.forall₂_getLast hall hlast
    have hlastH : (H :: Hs).getLast (by simp) = H' := by
      rw [List.getLast?_eq_some_getLast (by simp)] at hgetLast
      exact Option.some.inj hgetLast
    have hmem : last ∈ r :: rs := List.mem_of_getLast? hlast
    obtain ⟨i, hi⟩ := observe_first hfork hB (hreg r List.mem_cons_self) hH
    obtain ⟨j, hj⟩ := observeAll_next hfork hB (fun x hx => hreg x (List.mem_cons_of_mem _ hx))
      hrest hH hsteps
    obtain ⟨k, hk⟩ := observe_first hfork hB (hreg last hmem) hH'
    refine ⟨i + j + k, fun fuel hf => ?_⟩
    obtain ⟨s₁, hrun₁, htracks₁⟩ := hi fuel (by omega)
    obtain ⟨s, hrun, htracks⟩ := hj fuel (by omega) s₁ htracks₁
    obtain ⟨fresh, hfresh, htracksf⟩ := hk fuel (by omega)
    refine ⟨s, fresh, ?_, hfresh, ?_⟩
    · rw [observeAll, List.foldlM_cons, hrun₁]
      exact hrun
    · rw [hlastH] at htracks
      exact htracks.exact.unique htracksf.exact htracks.only htracksf.only

/-! ### A sample -/

/-- An observation of a fork of an empty base. -/
def sampleSighting (head : ObjectId) : UniverseRegistration :=
  ⟨sampleFork 49, text "one", sampleFork 49, .fill 11, head⟩

/-- A tree with one file. -/
def sampleFileTree (content : Byte) : Dir := .cons (sampleSource content) .nil .nil

/-- The tree of one file is stored. -/
theorem sampleFileTree_denotes {store : ObjectStore} {root : ObjectId} {content : Byte}
    (h : store root = some (.tree ⟨[sampleSource content], []⟩)) :
    DirDenotes store root (sampleFileTree content) where
  page := .leaf h
  sorted := List.pairwise_singleton ..
  stored := ⟨rfl, by simp [sampleSource], trivial⟩

/-- The tree of one file has no directory. -/
theorem sampleFileTree_entry (content : Byte) (n : Bytes) :
    entryIsDirectory ((sampleFileTree content).entry n) = false := by
  rw [Dir.entry, sampleFileTree, Dir.entries, entryNamed_cons]
  split_ifs <;> rfl

/-- A tree with a directory that has the file. -/
def sampleSrcTree (root : ObjectId) (content : Byte) : Dir :=
  .cons ⟨text "src", .Directory, some root, [], 0o755, 0, 0, 0, none, .Source⟩
    (sampleFileTree content) .nil

/-- The tree with one directory is stored. -/
theorem sampleSrcTree_denotes {store : ObjectStore} {id root : ObjectId} {content : Byte}
    (h : store id = some (.tree ⟨(sampleSrcTree root content).entries, []⟩))
    (hfile : store root = some (.tree ⟨[sampleSource content], []⟩)) :
    DirDenotes store id (sampleSrcTree root content) where
  page := .leaf h
  sorted := List.pairwise_singleton ..
  stored := by
    have hsub := sampleFileTree_denotes hfile
    exact ⟨rfl, ⟨root, rfl, hsub.page, hsub.sorted, hsub.stored⟩, trivial⟩

/-- Both trees have the same directory. -/
theorem sampleSrcTree_entry (root root' : ObjectId) (content content' : Byte) (n : Bytes) :
    entryIsDirectory ((sampleSrcTree root content).entry n) =
      entryIsDirectory ((sampleSrcTree root' content').entry n) := by
  simp only [Dir.entry, sampleSrcTree, Dir.entries, entryNamed_cons]
  split_ifs <;> rfl

/-- The directory has one file. -/
theorem sampleSrcTree_subdir (root : ObjectId) (content : Byte) (n : Bytes) :
    (sampleSrcTree root content).subdir n = sampleFileTree content ∨
      (sampleSrcTree root content).subdir n = .nil := by
  unfold sampleSrcTree Dir.subdir
  split_ifs
  · exact Or.inl rfl
  · exact Or.inr rfl

/-- The file in the directory changes; the base does not have the directory. -/
theorem sampleSrcTree_converges (root root' : ObjectId) (content content' : Byte) :
    Converges .nil (sampleSrcTree root content) (sampleSrcTree root' content') := by
  intro names B' P' H' hB hP hH n
  cases names with
  | cons m rest => exact absurd hB (by simp [Dir.descend])
  | nil =>
    cases hB
    cases hP
    cases hH
    refine ⟨fun h => absurd h (by simp), fun _ hP hH => ?_, fun _ _ _ => ?_, fun h => absurd rfl h⟩
    · rw [sampleSrcTree_entry root root' content content'] at hP
      exact absurd hP hH
    · -- what is changed in the directory is a file
      intro names P' H' _ hH m _
      have hentry : ∀ m, entryIsDirectory (((sampleSrcTree root' content').subdir n).entry m) =
          false := by
        intro m
        rcases sampleSrcTree_subdir root' content' n with h | h <;> rw [h]
        · exact sampleFileTree_entry content' m
        · rfl
      cases names with
      | cons k rest => exact absurd hH (by simp [Dir.descend, hentry])
      | nil =>
        cases hH
        have hm := hentry m
        unfold bareDirectory
        split
        · next e he =>
          rw [he] at hm
          simp [show e.kind ≠ .Directory by simpa [entryIsDirectory] using hm]
        · exact Bool.false_ne_true

/-- The directory with two contents of the file, in two snapshots. -/
def sampleGrown : ObjectStore := fun id =>
  if id = .fill 4 then some (.tree ⟨(sampleSrcTree (.fill 2) 21).entries, []⟩)
  else if id = .fill 5 then some (.tree ⟨(sampleSrcTree (.fill 3) 22).entries, []⟩)
  else if id = .fill 14 then some (sampleSealed (.fill 4))
  else if id = .fill 15 then some (sampleSealed (.fill 5))
  else sampleHeads id

/-- A new directory is observed, and then a change of the file in it. -/
theorem observeAll_eq_fresh_sample : ∃ k, ∀ fuel, k ≤ fuel → ∃ s fresh,
    observeAll sampleGrown fuel [sampleSighting (.fill 14), sampleSighting (.fill 15)] .empty =
        .ok s ∧
      observe sampleGrown fuel (sampleSighting (.fill 15)) .empty = .ok (true, fresh) ∧
        s.dirty = fresh.dirty := by
  have hbase : SnapshotDenotes sampleGrown (.fill 11) .nil :=
    ⟨⟨.fill 1, none, [], 0, [], [], []⟩, rfl, .leaf rfl, List.Pairwise.nil, trivial⟩
  have hreg : ∀ r ∈ [sampleSighting (.fill 14), sampleSighting (.fill 15)],
      r.forkId = sampleFork 49 ∧ r.baseSnapshot = .fill 11 := by
    intro r hr
    simp only [List.mem_cons, List.not_mem_nil, or_false] at hr
    rcases hr with rfl | rfl <;> exact ⟨rfl, rfl⟩
  have hheads : List.Forall₂ (fun r H => SnapshotDenotes sampleGrown r.headSnapshot H)
      [sampleSighting (.fill 14), sampleSighting (.fill 15)]
      [sampleSrcTree (.fill 2) 21, sampleSrcTree (.fill 3) 22] :=
    .cons ⟨⟨.fill 4, none, [], 0, [], [], []⟩, rfl, sampleSrcTree_denotes rfl rfl⟩
      (.cons ⟨⟨.fill 5, none, [], 0, [], [], []⟩, rfl, sampleSrcTree_denotes rfl rfl⟩ .nil)
  exact observeAll_eq_fresh (by decide) hbase hreg hheads
    (.cons_cons (sampleSrcTree_converges _ _ _ _) (.singleton _)) rfl

/-- The directory is added, and removed again. -/
def sampleDropped : ObjectStore := fun id =>
  if id = .fill 4 then some (.tree ⟨(sampleSrcTree (.fill 2) 21).entries, []⟩)
  else if id = .fill 14 then some (sampleSealed (.fill 4))
  else if id = .fill 15 then some (sampleSealed (.fill 1))
  else sampleHeads id

/-- **Observing step by step is not observing afresh**: the row of a file stays when its directory
is gone. -/
theorem observeAll_eq_fresh_fails : ¬ ∀ (store : ObjectStore) (fuel : ℕ) (fork : Bytes)
    (base : ObjectId) (B : Dir) (registrations : List UniverseRegistration)
    (last : UniverseRegistration) (heads : List Dir) (s fresh : Observed), isId fork = true →
      SnapshotDenotes store base B →
      (∀ r ∈ registrations, r.forkId = fork ∧ r.baseSnapshot = base) →
      List.Forall₂ (fun r H => SnapshotDenotes store r.headSnapshot H) registrations heads →
      registrations.getLast? = some last →
      observeAll store fuel registrations .empty = .ok s →
      observe store fuel last .empty = .ok (true, fresh) → s.dirty = fresh.dirty := by
  intro h
  have hrun : ((observeAll sampleDropped 9 [sampleSighting (.fill 14), sampleSighting (.fill 15)]
      .empty).toOption.map fun s => s.dirty.keys) =
        some [scopeKey (sampleFork 49) (text "src/a.rs") .exact] := by decide
  have hfresh : ((observe sampleDropped 9 (sampleSighting (.fill 15)) .empty).toOption.map
      fun s => (s.1, s.2.dirty.keys)) = some (true, []) := by decide
  obtain ⟨s, hs, hkeys⟩ := Option.map_eq_some_iff.mp hrun
  obtain ⟨⟨changed, fresh⟩, hf, hkeysf⟩ := Option.map_eq_some_iff.mp hfresh
  obtain ⟨rfl, hempty⟩ := Prod.mk.inj hkeysf
  have heq := h sampleDropped 9 (sampleFork 49) (.fill 11) .nil
    [sampleSighting (.fill 14), sampleSighting (.fill 15)] (sampleSighting (.fill 15))
    [sampleSrcTree (.fill 2) 21, .nil] s fresh (by decide)
    ⟨⟨.fill 1, none, [], 0, [], [], []⟩, rfl, .leaf rfl, List.Pairwise.nil, trivial⟩
    (by
      intro r hr
      simp only [List.mem_cons, List.not_mem_nil, or_false] at hr
      rcases hr with rfl | rfl <;> exact ⟨rfl, rfl⟩)
    (.cons ⟨⟨.fill 4, none, [], 0, [], [], []⟩, rfl, sampleSrcTree_denotes rfl rfl⟩
      (.cons ⟨⟨.fill 1, none, [], 0, [], [], []⟩, rfl, .leaf rfl, List.Pairwise.nil, trivial⟩ .nil))
    rfl (by
      cases hobserve : observeAll sampleDropped 9
        [sampleSighting (.fill 14), sampleSighting (.fill 15)] .empty <;>
          simp_all [Except.toOption])
    (by
      cases hobserve : observe sampleDropped 9 (sampleSighting (.fill 15)) .empty <;>
        simp_all [Except.toOption])
  rw [heq, hempty] at hkeys
  exact absurd hkeys (by simp)

end Furrow
