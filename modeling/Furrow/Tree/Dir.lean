import Furrow.Lib.OrdMap
import Furrow.Lib.SepOrder
import Furrow.Tree.Read

set_option relaxedAutoImplicit false
set_option autoImplicit false

/-!
# Directory trees

A whole captured tree, independent of how its directories are cut into pages, and the flat view
of it: `flatten_tree` maps every path to its entry.

## Main definitions

* `Furrow.Dir` — a directory with everything below it, in first-child next-sibling form.
* `Furrow.Dir.get` — the entry at a relative path.
* `Furrow.DirDenotes` — the stored root `id` is a well formed tree with the contents `D`.
* `Furrow.insertTree` — a recursive walk that inserts a value for every path.
* `Furrow.flattenInto`, `Furrow.flattenTree` — the map from paths to entries.

## Main results

* `Furrow.DirDenotes.unique` — a stored root has one contents.
* `Furrow.flattenTree_eq` — flattening a well formed tree gives the map of its lookups.
-/

namespace Furrow

open SepOrder

/-- Reject names that no directory can hold (`validate_name`). -/
def validateName (name : Bytes) : Except StoreError Unit :=
  if name.isEmpty then .error .emptyName
  else if name = [46] ∨ name = [46, 46] then .error .unsafeName
  else if 0 ∈ name ∨ slash ∈ name then .error .invalidName
  else .ok ()

/-- A valid name is not empty and holds no separator. -/
theorem validateName_ok {name : Bytes} (h : validateName name = .ok ()) :
    name ≠ [] ∧ slash ∉ name := by
  unfold validateName at h
  split_ifs at h with h1 h2 h3
  rw [not_or] at h3
  exact ⟨by simpa using h1, h3.2⟩

/-- The path of a name under a prefix (`join_path`). -/
def joinPath (pfx name : Bytes) : Bytes := if pfx.isEmpty then name else pfx ++ slash :: name

/-- A name joined to the root is the name. -/
@[simp] theorem joinPath_nil (name : Bytes) : joinPath [] name = name := rfl

/-- Joining is associative around a nonempty name. -/
theorem joinPath_joinPath (pfx : Bytes) {name : Bytes} (h : name ≠ []) (r : Bytes) :
    joinPath (joinPath pfx name) r = joinPath pfx (name ++ slash :: r) := by
  cases pfx with
  | nil => simp [joinPath, h]
  | cons c pfx => simp [joinPath]

/-- A directory with everything below it: an entry, the contents of that entry if it is a
directory, and the entries after it. -/
inductive Dir
  | nil
  | cons (e : TreeEntry) (sub rest : Dir)

namespace Dir

/-- The entries of the directory itself. -/
def entries : Dir → List TreeEntry
  | nil => []
  | cons e _ rest => e :: rest.entries

/-- The contents of the subdirectory of a name; nothing where there is none. -/
def subdir : Dir → Bytes → Dir
  | nil, _ => nil
  | cons e sub rest, n => if e.name = n then sub else rest.subdir n

/-- The entry at a relative path. -/
def get : Dir → Bytes → Option TreeEntry
  | nil, _ => none
  | cons e sub rest, k =>
    if e.name = (splitFirst slash k).1 then
      match (splitFirst slash k).2 with
      | none => some e
      | some r => sub.get r
    else rest.get k

/-- All paths with their entries, a directory before what is below it. -/
def flat : Dir → List (Bytes × TreeEntry)
  | nil => []
  | cons e sub rest =>
    (e.name, e) :: (sub.flat.map fun p => (e.name ++ slash :: p.1, p.2)) ++ rest.flat

/-- The number of entries, those below included. -/
def size : Dir → ℕ
  | nil => 0
  | cons _ sub rest => 1 + sub.size + rest.size

/-- Well formed contents backed by the store: names are valid, a directory has a target that
stands for what is below it in strict name order, and nothing else has anything below it. -/
def Stored (store : ObjectStore) : Dir → Prop
  | nil => True
  | cons e sub rest =>
    validateName e.name = .ok () ∧
      (if e.kind = .Directory then
        ∃ t, e.target = some t ∧ PageDenotes store t sub.entries ∧ NameSorted sub.entries ∧
          sub.Stored store
      else sub = nil) ∧
      rest.Stored store

end Dir

/-- The stored root `id` is a well formed tree with the contents `D`. -/
structure DirDenotes (store : ObjectStore) (id : ObjectId) (D : Dir) : Prop where
  page : PageDenotes store id D.entries
  sorted : NameSorted D.entries
  stored : D.Stored store

/-! ## Lookups -/

namespace Dir

variable {store : ObjectStore}

/-- A subdirectory of a directory that has an entry is smaller than it. -/
theorem size_subdir_lt {D : Dir} {n : Bytes} {e : TreeEntry}
    (h : entryNamed n D.entries = some e) : (D.subdir n).size < D.size := by
  induction D with
  | nil => simp [entries] at h
  | cons x sub rest _ ih =>
    rw [entries, entryNamed_cons] at h
    rw [subdir, size]
    by_cases hx : x.name = n
    · rw [if_pos hx]
      omega
    · rw [if_neg hx] at h ⊢
      have := ih h
      omega

/-- A single name is looked up among the entries of the directory. -/
theorem get_name (D : Dir) {n : Bytes} (hn : slash ∉ n) : D.get n = entryNamed n D.entries := by
  induction D with
  | nil => rfl
  | cons e sub rest _ ih =>
    rw [get, splitFirst_of_notMem hn, entries, entryNamed_cons, ih]

/-- A longer path is looked up in the subdirectory of its first name. -/
theorem get_below (D : Dir) {n : Bytes} (hn : slash ∉ n) (r : Bytes) :
    D.get (n ++ slash :: r) = (D.subdir n).get r := by
  induction D with
  | nil => rfl
  | cons e sub rest _ ih =>
    rw [get, splitFirst_append hn, subdir, ih]
    by_cases h : e.name = n <;> simp [h]

/-- The first name of a path that is found is the name of an entry. -/
theorem exists_entry_of_get {D : Dir} {k : Bytes} {x : TreeEntry} (h : D.get k = some x) :
    ∃ e ∈ D.entries, e.name = (splitFirst slash k).1 := by
  induction D with
  | nil => simp [get] at h
  | cons e sub rest _ ih =>
    by_cases he : e.name = (splitFirst slash k).1
    · exact ⟨e, List.mem_cons_self, he⟩
    · rw [get, if_neg he] at h
      obtain ⟨e', he', hn⟩ := ih h
      exact ⟨e', List.mem_cons_of_mem _ he', hn⟩

/-- A path is the name of the head entry, or lies below it, or starts with another name. -/
theorem head_cases (n k : Bytes) :
    k = n ∨ (∃ r, k = n ++ slash :: r) ∨ n ≠ (splitFirst slash k).1 := by
  by_cases hn : n = (splitFirst slash k).1
  · rcases (splitFirst_cases slash k).2 with hk | ⟨r, -, hk⟩
    · rw [hk] at hn
      exact Or.inl hn.symm
    · rw [← hn] at hk
      exact Or.inr (Or.inl ⟨r, hk⟩)
  · exact Or.inr (Or.inr hn)

/-- A path that starts with the name of the head of a sorted directory is not found in the
tail. -/
theorem get_tail_eq_none {e : TreeEntry} {sub rest : Dir}
    (hs : NameSorted (cons e sub rest).entries) {k : Bytes}
    (hk : (splitFirst slash k).1 = e.name) : rest.get k = none := by
  rw [Option.eq_none_iff_forall_ne_some]
  intro x h
  obtain ⟨e', he', hn⟩ := exists_entry_of_get h
  have hlt : e.name < e'.name := (List.pairwise_cons.mp hs).1 e' he'
  rw [hn, hk] at hlt
  exact absurd hlt (lt_irrefl _)

/-- Membership in the paths below a name. -/
theorem mem_map_below {n k : Bytes} {x : TreeEntry} {l : List (Bytes × TreeEntry)} :
    (k, x) ∈ l.map (fun p => (n ++ slash :: p.1, p.2)) ↔
      ∃ r, k = n ++ slash :: r ∧ (r, x) ∈ l := by
  simp only [List.mem_map, Prod.mk.injEq, Prod.exists]
  constructor
  · rintro ⟨r, y, hr, rfl, rfl⟩
    exact ⟨r, rfl, hr⟩
  · rintro ⟨r, rfl, hr⟩
    exact ⟨r, x, hr, rfl, rfl⟩

/-- What is below an entry of stored contents is itself sorted and stored. -/
theorem Stored.sub {e : TreeEntry} {sub rest : Dir} (h : (cons e sub rest).Stored store) :
    NameSorted sub.entries ∧ sub.Stored store := by
  obtain ⟨-, hsub, -⟩ := h
  by_cases hk : e.kind = .Directory
  · rw [if_pos hk] at hsub
    obtain ⟨t, -, -, hss, hst⟩ := hsub
    exact ⟨hss, hst⟩
  · rw [if_neg hk] at hsub
    subst hsub
    exact ⟨List.Pairwise.nil, trivial⟩

/-- **The flat view is the graph of the lookups.**

**Proof sketch.** Induction on the contents.  A path found under the head entry starts with
its name, a path found in the tail starts with a later one, so the two never mix. -/
theorem mem_flat_iff {D : Dir} (hs : NameSorted D.entries) (hD : D.Stored store) {k : Bytes}
    {x : TreeEntry} : (k, x) ∈ D.flat ↔ D.get k = some x := by
  induction D generalizing k with
  | nil => simp [flat, get]
  | cons e sub rest ihsub ihrest =>
    have hslash : slash ∉ e.name := (validateName_ok hD.1).2
    have hrest := ihrest (k := k) (List.pairwise_cons.mp hs).2 hD.2.2
    rw [flat, List.cons_append, List.mem_cons, List.mem_append, mem_map_below, hrest]
    rcases head_cases e.name k with rfl | ⟨r, rfl⟩ | hne
    · have hnone := get_tail_eq_none hs (by rw [splitFirst_of_notMem hslash])
      have hbelow : ∀ r, e.name ≠ e.name ++ slash :: r := fun r h => append_sep_ne hslash r h.symm
      rw [hnone, get, splitFirst_of_notMem hslash, if_pos rfl]
      simp [hbelow, eq_comm]
    · have hnone := get_tail_eq_none hs (by rw [splitFirst_append hslash r])
      have hname : e.name ++ slash :: r ≠ e.name := append_sep_ne hslash r
      rw [hnone, get, splitFirst_append hslash, if_pos rfl]
      simp [hname, ← ihsub hD.sub.1 hD.sub.2]
    · have hname : k ≠ e.name := fun h => hne (by rw [h, splitFirst_of_notMem hslash])
      have hbelow : ∀ r, k ≠ e.name ++ slash :: r :=
        fun r h => hne (by rw [h, splitFirst_append hslash])
      rw [get, if_neg hne]
      simp [hname, hbelow]

/-- What is above a path that is found is a directory. -/
theorem get_isDirectory_of_below {D : Dir} (hD : D.Stored store) {d r : Bytes} {x : TreeEntry}
    (h : D.get (d ++ slash :: r) = some x) : ∃ e, D.get d = some e ∧ e.kind = .Directory := by
  induction D generalizing d with
  | nil => simp [get] at h
  | cons e sub rest ihsub ihrest =>
    have hslash : slash ∉ e.name := (validateName_ok hD.1).2
    rcases head_cases e.name d with rfl | ⟨d', rfl⟩ | hne
    · rw [get, splitFirst_append hslash, if_pos rfl] at h
      refine ⟨e, by rw [get, splitFirst_of_notMem hslash, if_pos rfl], ?_⟩
      by_contra hk
      have hsub := hD.2.1
      rw [if_neg hk] at hsub
      simp [hsub, get] at h
    · rw [List.append_assoc, List.cons_append, get, splitFirst_append hslash, if_pos rfl] at h
      rw [get, splitFirst_append hslash, if_pos rfl]
      exact ihsub hD.sub.2 h
    · have hfirst : (splitFirst slash (d ++ slash :: r)).1 = (splitFirst slash d).1 := by
        obtain ⟨hmem, hd | ⟨d', -, hd⟩⟩ := splitFirst_cases slash d
        · rw [hd] at hmem ⊢
          rw [splitFirst_append hmem]
        · rw [show d ++ slash :: r = (splitFirst slash d).1 ++ slash :: (d' ++ slash :: r) by
            rw [← List.cons_append, ← List.append_assoc, ← hd], splitFirst_append hmem]
      rw [get, if_neg (hfirst ▸ hne)] at h
      rw [get, if_neg hne]
      exact ihrest hD.2.2 h

/-- Stored contents are determined by the entries of the directory: equal targets stand for
equal contents. -/
theorem Stored.unique {D D' : Dir} (hD : D.Stored store) (hD' : D'.Stored store)
    (h : D.entries = D'.entries) : D = D' := by
  induction D generalizing D' with
  | nil =>
    cases D' with
    | nil => rfl
    | cons e sub rest => simp [entries] at h
  | cons e sub rest ihsub ihrest =>
    cases D' with
    | nil => simp [entries] at h
    | cons e' sub' rest' =>
      simp only [entries, List.cons.injEq] at h
      obtain ⟨rfl, hrest⟩ := h
      obtain ⟨-, hsub, hr⟩ := hD
      obtain ⟨-, hsub', hr'⟩ := hD'
      rw [ihrest hr hr' hrest]
      split_ifs at hsub hsub' with hk
      · obtain ⟨t, ht, hp, -, hst⟩ := hsub
        obtain ⟨t', ht', hp', -, hst'⟩ := hsub'
        rw [ht, Option.some.injEq] at ht'
        subst ht'
        rw [ihsub hst hst' (hp.unique hp')]
      · rw [hsub, hsub']

end Dir

/-- A stored root has one contents. -/
theorem DirDenotes.unique {store : ObjectStore} {id : ObjectId} {D D' : Dir}
    (h : DirDenotes store id D) (h' : DirDenotes store id D') : D = D' :=
  h.stored.unique h'.stored (h.page.unique h'.page)

/-- What is found at a subdirectory's name: a directory entry comes with its contents, and
nothing is below any other entry. -/
theorem Dir.Stored.subdir {store : ObjectStore} {D : Dir} (hD : D.Stored store) (n : Bytes) :
    (∃ e t, entryNamed n D.entries = some e ∧ e.kind = .Directory ∧ e.target = some t ∧
        DirDenotes store t (D.subdir n)) ∨
      ((∀ e, entryNamed n D.entries = some e → e.kind ≠ .Directory) ∧ D.subdir n = .nil) := by
  induction D with
  | nil => exact Or.inr ⟨fun e he => by simp [Dir.entries] at he, rfl⟩
  | cons e sub rest _ ihrest =>
    obtain ⟨-, hsub, hrest⟩ := hD
    rw [Dir.entries, entryNamed_cons, Dir.subdir]
    by_cases hn : e.name = n
    · rw [if_pos hn, if_pos hn]
      split_ifs at hsub with hk
      · obtain ⟨t, ht, hp, hss, hst⟩ := hsub
        exact Or.inl ⟨e, t, rfl, hk, ht, ⟨hp, hss, hst⟩⟩
      · exact Or.inr ⟨fun x hx => Option.some.inj hx ▸ hk, hsub⟩
    · rw [if_neg hn, if_neg hn]
      exact ihrest hrest

/-- Entries of stored contents have valid names. -/
theorem Dir.Stored.validName {store : ObjectStore} {D : Dir} (hD : D.Stored store) {e : TreeEntry}
    (he : e ∈ D.entries) : validateName e.name = .ok () := by
  induction D with
  | nil => exact absurd he List.not_mem_nil
  | cons x sub rest _ ih =>
    rcases List.mem_cons.mp he with rfl | he
    · exact hD.1
    · exact ih hD.2.2 he

/-- Nothing is below an entry that is not there or is not a directory. -/
theorem Dir.Stored.subdir_eq_nil {store : ObjectStore} {D : Dir} (hD : D.Stored store) {n : Bytes}
    (h : ∀ e, entryNamed n D.entries = some e → e.kind ≠ .Directory) : D.subdir n = .nil := by
  rcases hD.subdir n with ⟨e, t, he, hk, -⟩ | ⟨-, hnil⟩
  · exact absurd hk (h e he)
  · exact hnil

/-- The contents below a directory entry. -/
theorem Dir.Stored.subdir_denotes {store : ObjectStore} {D : Dir} (hD : D.Stored store)
    {n : Bytes} {e : TreeEntry} (he : entryNamed n D.entries = some e)
    (hk : e.kind = .Directory) :
    ∃ t, e.target = some t ∧ DirDenotes store t (D.subdir n) := by
  rcases hD.subdir n with ⟨e', t, he', -, ht, hden⟩ | ⟨hno, -⟩
  · rw [he, Option.some.injEq] at he'
    subst he'
    exact ⟨t, ht, hden⟩
  · exact absurd hk (hno e he)

/-! ## Flattening -/

section Insert

variable {V : Type}

/-- What a recursive tree walk does with one entry: insert its value under its path and, if it
is a directory, go on below it. -/
def insertVisit (value : TreeEntry → Except StoreError V) (noTarget : StoreError)
    (go : ObjectId → Bytes → OrdMap Bytes V → Except StoreError (OrdMap Bytes V))
    (pfx : Bytes) (output : OrdMap Bytes V) (entry : TreeEntry) :
    Except StoreError (OrdMap Bytes V) := do
  let v ← value entry
  let path := joinPath pfx entry.name
  let output := output.insert path v
  if entry.kind = .Directory then
    match entry.target with
    | none => throw noTarget
    | some target => go target path output
  else pure output

/-- The recursive walk of a stored tree that inserts a value for every path under a prefix. -/
def insertTree (store : ObjectStore) (value : TreeEntry → Except StoreError V)
    (noTarget : StoreError) :
    ℕ → ObjectId → Bytes → OrdMap Bytes V → Except StoreError (OrdMap Bytes V)
  | 0, _, _, _ => .error .outOfFuel
  | fuel + 1, treeId, pfx, output => do
    let entries ← forEachEntry store fuel treeId
    entries.foldlM (insertVisit value noTarget (insertTree store value noTarget fuel) pfx) output

/-- A path-value list moved under a prefix. -/
def underPrefix (pfx : Bytes) (l : List (Bytes × V)) : List (Bytes × V) :=
  l.map fun p => (joinPath pfx p.1, p.2)

/-- A list moved below a name and then under a prefix is moved under the joined prefix. -/
theorem underPrefix_below (pfx : Bytes) {name : Bytes} (hname : name ≠ []) (l : List (Bytes × V)) :
    underPrefix pfx (l.map fun p => (name ++ slash :: p.1, p.2)) =
      underPrefix (joinPath pfx name) l := by
  unfold underPrefix
  rw [List.map_map]
  apply List.map_congr_left
  intro p _
  simp only [Function.comp_apply, joinPath_joinPath pfx hname]

variable {store : ObjectStore} {value : TreeEntry → Except StoreError V} {f : TreeEntry → V}

/-- The visits of a walk insert the flat view under the prefix, provided every entry with a
valid name has a value. -/
theorem foldlM_insertVisit (noTarget : StoreError)
    (hvalue : ∀ e, validateName e.name = .ok () → value e = .ok (f e)) {D : Dir}
    (hD : D.Stored store) :
    ∃ n, ∀ fuel, n ≤ fuel → ∀ pfx output,
      D.entries.foldlM (insertVisit value noTarget (insertTree store value noTarget fuel) pfx)
          output =
        .ok (output.foldInsert (underPrefix pfx (D.flat.map fun p => (p.1, f p.2)))) := by
  induction D with
  | nil => exact ⟨0, fun fuel _ pfx output => rfl⟩
  | cons e sub rest ihsub ihrest =>
    obtain ⟨hname, hsub, hrest⟩ := hD
    obtain ⟨m, hm⟩ := ihrest hrest
    have hne : e.name ≠ [] := (validateName_ok hname).1
    have hflat : ∀ pfx, underPrefix pfx ((Dir.cons e sub rest).flat.map fun p => (p.1, f p.2)) =
        (joinPath pfx e.name, f e) ::
          underPrefix (joinPath pfx e.name) (sub.flat.map fun p => (p.1, f p.2)) ++
          underPrefix pfx (rest.flat.map fun p => (p.1, f p.2)) := by
      intro pfx
      rw [← underPrefix_below pfx hne]
      simp [Dir.flat, underPrefix, Function.comp_def]
    split_ifs at hsub with hk
    · obtain ⟨t, ht, hp, -, hst⟩ := hsub
      obtain ⟨n, hn⟩ := ihsub hst
      obtain ⟨w, hw⟩ := forEachEntry_eq hp
      refine ⟨n + m + w + 1, fun fuel hf pfx output => ?_⟩
      obtain ⟨k, rfl⟩ : ∃ k, fuel = k + 1 := ⟨fuel - 1, by omega⟩
      have hvisit : insertVisit value noTarget (insertTree store value noTarget (k + 1)) pfx
          output e = .ok ((output.insert (joinPath pfx e.name) (f e)).foldInsert
            (underPrefix (joinPath pfx e.name) (sub.flat.map fun p => (p.1, f p.2)))) := by
        simp only [insertVisit, hvalue e hname, hk, if_true, ht, insertTree, hw k (by omega),
          bind, Except.bind]
        exact hn k (by omega) _ _
      rw [Dir.entries, List.foldlM_cons, hvisit, hflat, OrdMap.foldInsert_append]
      exact hm (k + 1) (by omega) _ _
    · refine ⟨m, fun fuel hf pfx output => ?_⟩
      have hvisit : insertVisit value noTarget (insertTree store value noTarget fuel) pfx
          output e = .ok (output.insert (joinPath pfx e.name) (f e)) := by
        simp [insertVisit, hvalue e hname, hk, bind, Except.bind, pure, Except.pure]
      rw [Dir.entries, List.foldlM_cons, hvisit, hflat, hsub, OrdMap.foldInsert_append]
      exact hm fuel hf _ _

/-- **A walk inserts the flat view of the tree under the prefix.** -/
theorem insertTree_eq (noTarget : StoreError)
    (hvalue : ∀ e, validateName e.name = .ok () → value e = .ok (f e)) {id : ObjectId} {D : Dir}
    (h : DirDenotes store id D) :
    ∃ n, ∀ fuel, n ≤ fuel → ∀ pfx output,
      insertTree store value noTarget fuel id pfx output =
        .ok (output.foldInsert (underPrefix pfx (D.flat.map fun p => (p.1, f p.2)))) := by
  obtain ⟨n, hn⟩ := foldlM_insertVisit noTarget hvalue h.stored
  obtain ⟨w, hw⟩ := forEachEntry_eq h.page
  refine ⟨n + w + 1, fun fuel hf pfx output => ?_⟩
  obtain ⟨k, rfl⟩ : ∃ k, fuel = k + 1 := ⟨fuel - 1, by omega⟩
  rw [insertTree, hw k (by omega)]
  exact hn k (by omega) _ _

end Insert

/-- Insert every path of a stored tree under a prefix (`flatten_into`). -/
def flattenInto (store : ObjectStore) (fuel : ℕ) (treeId : ObjectId) (pfx : Bytes)
    (output : OrdMap Bytes TreeEntry) : Except StoreError (OrdMap Bytes TreeEntry) :=
  insertTree store (fun entry => do validateName entry.name; pure entry) .directoryMissingTree
    fuel treeId pfx output

/-- The map from paths to entries of a stored tree (`flatten_tree`). -/
def flattenTree (store : ObjectStore) (fuel : ℕ) (root : ObjectId) :
    Except StoreError (OrdMap Bytes TreeEntry) :=
  flattenInto store fuel root [] OrdMap.empty

/-- **Flattening a well formed tree gives the map of its lookups.** -/
theorem flattenTree_eq {store : ObjectStore} {root : ObjectId} {D : Dir}
    (h : DirDenotes store root D) :
    ∃ n m, (∀ fuel, n ≤ fuel → flattenTree store fuel root = .ok m) ∧
      ∀ k, m.get? k = D.get k := by
  have hvalue : ∀ e : TreeEntry, validateName e.name = .ok () →
      (do validateName e.name; pure e : Except StoreError TreeEntry) = .ok (id e) := by
    intro e he
    rw [he]
    rfl
  obtain ⟨n, hn⟩ := insertTree_eq .directoryMissingTree hvalue h
  refine ⟨n, _, fun fuel hf => hn fuel hf [] OrdMap.empty, fun k => ?_⟩
  have hlist : underPrefix [] (D.flat.map fun p => (p.1, id p.2)) = D.flat := by
    simp [underPrefix]
  rw [hlist]
  exact OrdMap.get?_foldInsert_empty (fun k x => Dir.mem_flat_iff h.sorted h.stored) k

end Furrow
