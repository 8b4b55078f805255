import Mathlib
import Furrow.Lib.Fallible
import Furrow.Lib.Paging
import Furrow.Objects
import Furrow.Tree.Read

set_option relaxedAutoImplicit false
set_option autoImplicit false

/-!
# Building tree nodes

The `Builder` of `tree.rs`.  Sorted entries are put on leaves, and references to leaves on
branches, level by level until one node is left.  How much fits on a page is decided by the
length of the JSON text.  What a builder puts into the store and the identifier it returns
depend on the entries alone.

## Main definitions

* `Furrow.TreeEntry.jsonLen`, `Furrow.TreePage.jsonLen` — encoded lengths.
* `Furrow.storeLeaf`, `Furrow.storeBranch` — one node and the reference to it.
* `Furrow.buildTree` — all nodes of a directory.

## Main results

* `Furrow.pageDenotes_buildTree` — a store with the nodes that were built has the entries under
  the root.
* `Furrow.writeTree_roundTrip` — what was written is read back, walked and searched.
* `Furrow.diffEntries_writeNodes` — two directories that were written are compared name by name.
-/

namespace Furrow

/-! ## Encoded lengths -/

/-- The number of decimal digits of a `u64`. -/
def decimalLen (n : ℕ) : ℕ := 1 + ((List.range 19).filter fun k => 10 ^ (k + 1) ≤ n).length

/-- The length of a signed number. -/
def signedLen (n : ℤ) : ℕ := decimalLen n.natAbs + if n < 0 then 1 else 0

/-- The length of a JSON list of encoded items. -/
def jsonList (items : List ℕ) : ℕ := 2 + items.sum + (items.length - 1)

/-- Byte strings are encoded as lists of numbers. -/
def jsonBytes (b : Bytes) : ℕ := jsonList (b.map fun c => decimalLen c.val)

/-- The length of an identifier, or of `null`. -/
def jsonId : Option ObjectId → ℕ
  | some id => jsonBytes id.bytes
  | none => 4

/-- The length of a quoted text. -/
def jsonText (s : String) : ℕ := s.length + 2

/-- The length of a field of an object, with its name. -/
def jsonField (name : String) (value : ℕ) : ℕ := name.length + 3 + value

/-- The name serde writes for a kind. -/
def EntryKind.text : EntryKind → String
  | File => "File"
  | Directory => "Directory"
  | Symlink => "Symlink"
  | Fifo => "Fifo"
  | SocketMarker => "SocketMarker"

/-- `ContentClass::as_str`. -/
def ContentClass.asStr : ContentClass → String
  | Source => "source"
  | VcsMeta => "vcs-meta"
  | ConfigSecret => "config-secret"
  | Dependency => "dependency"
  | BuildOutput => "build-output"
  | Database => "database"
  | Lockfile => "lockfile"
  | Scratch => "scratch"

/-- The length of an encoded entry. -/
def TreeEntry.jsonLen (e : TreeEntry) : ℕ :=
  jsonList [jsonField "name" (jsonBytes e.name), jsonField "kind" (jsonText e.kind.text),
    jsonField "target" (jsonId e.target), jsonField "link_target" (jsonBytes e.linkTarget),
    jsonField "mode" (decimalLen e.mode.toNat), jsonField "size" (decimalLen e.size.toNat),
    jsonField "mtime_secs" (signedLen e.mtimeSecs),
    jsonField "mtime_nanos" (decimalLen e.mtimeNanos.toNat),
    jsonField "xattrs" (jsonId e.xattrs), jsonField "class" (jsonText e.contentClass.asStr)]

/-- The length of an encoded reference. -/
def TreePage.jsonLen (p : TreePage) : ℕ :=
  jsonList [jsonField "first_name" (jsonBytes p.firstName),
    jsonField "last_name" (jsonBytes p.lastName),
    jsonField "entry_count" (decimalLen p.entryCount),
      jsonField "target" (jsonBytes p.target.bytes)]

/-- `MAX_TREE_PAGE_BYTES` -/
def maxTreePageBytes : ℕ := 64 * 1024

/-- `TARGET_TREE_PAGE_BYTES` -/
def targetTreePageBytes : ℕ := 4 * 1024

/-- The length of a leaf without entries. -/
def leafOverhead : ℕ := jsonList [jsonField "entries" (jsonList [])]

/-- The length of a branch without references. -/
def branchOverhead : ℕ := jsonList [jsonField "pages" (jsonList [])]

/-! ## Nodes -/

/-- What a builder complains about. -/
inductive BuildError
  /-- `directory entries must be strictly sorted and unique` -/
  | unsorted
  /-- `single directory entry exceeds 64 KiB` -/
  | entryTooLarge
  /-- `single tree page reference exceeds 64 KiB` -/
  | pageTooLarge
  /-- `empty tree leaf`, `empty tree branch` -/
  | emptyPage
  /-- `tree leaf exceeded page limit`, `tree branch exceeded page limit` -/
  | nodeTooLarge
  /-- The bound on the number of levels was reached. -/
  | outOfFuel
deriving DecidableEq

section Nodes

variable (idOf : Object → ObjectId)

/-- A leaf and the reference to it. -/
def storeLeaf (entries : List TreeEntry) : Except BuildError (TreePage × Object) :=
  match entries.head?, entries.getLast? with
  | some first, some last =>
    let tree : Object := .tree ⟨entries, []⟩
    if jsonList [jsonField "entries" (jsonList (entries.map TreeEntry.jsonLen))] ≤ maxTreePageBytes
    then .ok (⟨first.name, last.name, entries.length, idOf tree⟩, tree)
    else .error .nodeTooLarge
  | _, _ => .error .emptyPage

/-- A branch and the reference to it. -/
def storeBranch (pages : List TreePage) : Except BuildError (TreePage × Object) :=
  match pages.head?, pages.getLast? with
  | some first, some last =>
    let tree : Object := .tree ⟨[], pages⟩
    if jsonList [jsonField "pages" (jsonList (pages.map TreePage.jsonLen))] ≤
        maxTreePageBytes then
      .ok (⟨first.firstName, last.lastName, (pages.map TreePage.entryCount).sum, idOf tree⟩, tree)
    else .error .nodeTooLarge
  | _, _ => .error .emptyPage

/-- Store every group of items as one node. -/
def storeAll {α : Type} (store : List α → Except BuildError (TreePage × Object)) :
    List (List α) → Except BuildError (List TreePage × List Object)
  | [] => .ok ([], [])
  | group :: groups => do
    let (page, o) ← store group
    let (pages, os) ← storeAll store groups
    pure (page :: pages, o :: os)

/-- One level of branches (`write_branch_level`). -/
def writeBranchLevel (pages : List TreePage) : Except BuildError (List TreePage × List Object) :=
  match Paging.pages branchOverhead targetTreePageBytes maxTreePageBytes TreePage.jsonLen pages with
  | none => .error .pageTooLarge
  | some groups => storeAll (storeBranch idOf) groups

/-- Levels of branches until one node is left. -/
def branchLevels : ℕ → List TreePage → Except BuildError (List Object × ObjectId)
  | 0, _ => .error .outOfFuel
  | _ + 1, [page] => .ok ([], page.target)
  | fuel + 1, pages => do
    let (level, os) ← writeBranchLevel idOf pages
    let (rest, root) ← branchLevels fuel level
    pure (os ++ rest, root)

/-- The entries before the first whose name does not increase; `push` refuses that one. -/
def sortedPrefix : List TreeEntry → List TreeEntry
  | a :: b :: rest => if a.name < b.name then a :: sortedPrefix (b :: rest) else [a]
  | entries => entries

/-- **The nodes of a directory and its root.** -/
def buildTree (fuel : ℕ) (entries : List TreeEntry) : Except BuildError (List Object × ObjectId) :=
  match Paging.pages leafOverhead targetTreePageBytes maxTreePageBytes TreeEntry.jsonLen
      (sortedPrefix entries) with
  | none => .error .entryTooLarge
  | some groups =>
    if (sortedPrefix entries).length < entries.length then .error .unsorted
    else
      match groups with
      | [] => .ok ([.tree ⟨[], []⟩], idOf (.tree ⟨[], []⟩))
      | groups => do
        let (leaves, os) ← storeAll (storeLeaf idOf) groups
        let (rest, root) ← branchLevels idOf fuel leaves
        pure (os ++ rest, root)

end Nodes

/-! ## What was built -/

/-- The sorted part is a beginning of the entries. -/
theorem sortedPrefix_isPrefix (entries : List TreeEntry) : sortedPrefix entries <+: entries := by
  induction entries using sortedPrefix.induct with
  | case1 a b rest h ih =>
    rw [sortedPrefix, if_pos h]
    exact (List.prefix_cons_inj a).mpr ih
  | case2 a b rest h =>
    rw [sortedPrefix, if_neg h]
    exact (List.prefix_cons_inj a).mpr List.nil_prefix
  | case3 entries h =>
    have heq : sortedPrefix entries = entries := by
      unfold sortedPrefix
      split
      · exact absurd rfl (h _ _ _)
      · rfl
    simp only [heq, List.prefix_rfl]

/-- The sorted part begins with the first entry. -/
theorem head?_sortedPrefix (entries : List TreeEntry) :
    (sortedPrefix entries).head? = entries.head? := by
  induction entries using sortedPrefix.induct with
  | case1 a b rest h ih =>
    rw [sortedPrefix, if_pos h]
    rfl
  | case2 a b rest h =>
    rw [sortedPrefix, if_neg h]
    rfl
  | case3 entries h =>
    rw [sortedPrefix]
    exact h

/-- The names before the first that does not increase do. -/
theorem nameSorted_sortedPrefix (entries : List TreeEntry) : NameSorted (sortedPrefix entries) := by
  have : IsTrans TreeEntry fun a b => a.name < b.name := ⟨fun _ _ _ => lt_trans⟩
  unfold NameSorted
  rw [← List.isChain_iff_pairwise]
  induction entries using sortedPrefix.induct with
  | case1 a b rest h ih =>
    rw [sortedPrefix, if_pos h]
    refine List.isChain_cons.mpr ⟨fun y hy => ?_, ih⟩
    rw [head?_sortedPrefix] at hy
    rw [← Option.some.inj hy]
    exact h
  | case2 a b rest h =>
    rw [sortedPrefix, if_neg h]
    exact List.isChain_singleton a
  | case3 entries h =>
    rw [sortedPrefix]
    · match entries, h with
      | [], _ => exact .nil
      | [a], _ => exact List.isChain_singleton a
      | a :: b :: rest, h => exact absurd rfl (h a b rest)
    · exact h

section Denotes

variable {idOf : Object → ObjectId} {store : ObjectStore}

/-- A reference stands for some entries. -/
def RefDenotes (store : ObjectStore) (page : TreePage) (es : List TreeEntry) : Prop :=
  PageDenotes store page.target es ∧ es.head?.map TreeEntry.name = some page.firstName ∧
    es.getLast?.map TreeEntry.name = some page.lastName ∧ es.length = page.entryCount

/-- What a leaf stands for. -/
theorem refDenotes_storeLeaf {entries : List TreeEntry} {page : TreePage} {o : Object}
    (h : storeLeaf idOf entries = .ok (page, o)) (ho : store (idOf o) = some o) :
    RefDenotes store page entries := by
  unfold storeLeaf at h
  split at h
  · rename_i first last hfirst hlast
    dsimp only at h
    split_ifs at h with hlen
    have hpair := Except.ok.inj h
    rw [Prod.mk.injEq] at hpair
    obtain ⟨rfl, rfl⟩ := hpair
    exact ⟨.leaf ho, by rw [hfirst]; rfl, by rw [hlast]; rfl, rfl⟩
  · exact absurd h (by simp)

/-- References one after the other, with what each stands for. -/
theorem pagesDenote_iff {pages : List TreePage} {es : List TreeEntry} :
    PagesDenote store pages es ↔
      ∃ parts : List (List TreeEntry), parts.flatten = es ∧ List.Forall₂
        (RefDenotes store) pages parts := by
  induction pages generalizing es with
  | nil =>
    constructor
    · intro h
      cases h
      exact ⟨[], rfl, .nil⟩
    · rintro ⟨parts, rfl, hparts⟩
      cases hparts
      exact .nil
  | cons page pages ih =>
    constructor
    · intro h
      cases h with
      | cons hpage hfirst hlast hcount hrest =>
        obtain ⟨parts, rfl, hparts⟩ := ih.mp hrest
        exact ⟨_ :: parts, rfl, .cons ⟨hpage, hfirst, hlast, hcount⟩ hparts⟩
    · rintro ⟨parts, rfl, hparts⟩
      cases hparts with
      | cons hpage hparts =>
        obtain ⟨hpage, hfirst, hlast, hcount⟩ := hpage
        exact .cons hpage hfirst hlast hcount (ih.mpr ⟨_, rfl, hparts⟩)

/-- What references stand for together: the first and the last name and the number of the
entries are those of the first and the last reference and the sum of their counts. -/
theorem bounds_of_forall₂ {pages : List TreePage} {parts : List (List TreeEntry)}
    (h : List.Forall₂ (RefDenotes store) pages parts) :
    parts.flatten.length = (pages.map TreePage.entryCount).sum ∧
      parts.flatten.head?.map TreeEntry.name = pages.head?.map TreePage.firstName ∧
      parts.flatten.getLast?.map TreeEntry.name = pages.getLast?.map TreePage.lastName := by
  induction h with
  | nil => exact ⟨rfl, rfl, rfl⟩
  | @cons page part pages parts hpage hrest ih =>
    obtain ⟨-, hfirst, hlast, hcount⟩ := hpage
    obtain ⟨hlen, -, hend⟩ := ih
    refine ⟨by simp [hcount, hlen], ?_, ?_⟩
    · have hne : part ≠ [] := by
        rintro rfl
        simp at hfirst
      obtain ⟨e, part, rfl⟩ := List.exists_cons_of_ne_nil hne
      simpa using hfirst
    · rw [List.flatten_cons, List.getLast?_append, List.getLast?_cons]
      cases hrest with
      | nil => simpa using hlast
      | @cons page' part' pages' parts' hpage' hrest' =>
        rw [List.getLast?_cons] at hend
        cases hl : (part' :: parts').flatten.getLast? with
        | none =>
          rw [hl] at hend
          exact absurd hend (by simp)
        | some e =>
          rw [hl] at hend
          simpa [List.getLast?_cons] using hend

/-- What a branch stands for. -/
theorem refDenotes_storeBranch {pages : List TreePage} {page : TreePage} {o : Object}
    (h : storeBranch idOf pages = .ok (page, o)) (ho : store (idOf o) = some o)
    {parts : List (List TreeEntry)} (hparts : List.Forall₂ (RefDenotes store) pages parts) :
    RefDenotes store page parts.flatten := by
  obtain ⟨hlen, hhead, hend⟩ := bounds_of_forall₂ hparts
  unfold storeBranch at h
  split at h
  · rename_i first last hfirst hlast
    dsimp only at h
    split_ifs at h with hfits
    have hpair := Except.ok.inj h
    rw [Prod.mk.injEq] at hpair
    obtain ⟨rfl, rfl⟩ := hpair
    obtain ⟨rest, rfl⟩ : ∃ rest, pages = first :: rest :=
      ⟨pages.tail, (List.cons_head?_tail hfirst).symm⟩
    refine ⟨.branch ho (pagesDenote_iff.mpr ⟨parts, rfl, hparts⟩), ?_, ?_, hlen⟩
    · rw [hhead, hfirst]
      rfl
    · rw [hend, hlast]
      rfl
  · exact absurd h (by simp)

/-- What groups that are stored one by one stand for: each what its items stand for. -/
theorem forall₂_storeAll {α : Type} {storeOne : List α → Except BuildError (TreePage × Object)}
    {groups : List (List α)} {pages : List TreePage} {os : List Object}
    (h : storeAll storeOne groups = .ok (pages, os)) (hos : ∀ o ∈ os, store (idOf o) = some o)
    {parts : List (List TreeEntry)}
    (hone : List.Forall₂ (fun group part => ∀ page o, storeOne group = .ok (page, o) →
      store (idOf o) = some o → RefDenotes store page part) groups parts) :
    List.Forall₂ (RefDenotes store) pages parts := by
  induction hone generalizing pages os with
  | nil =>
    have hpair := Except.ok.inj h
    rw [Prod.mk.injEq] at hpair
    rw [← hpair.1]
    exact .nil
  | @cons group part groups parts hfirst hrest ih =>
    unfold storeAll at h
    obtain ⟨⟨page, o⟩, hpage, h⟩ := Fallible.exists_of_bind_eq_ok h
    obtain ⟨⟨pages', os'⟩, hpages, h⟩ := Fallible.exists_of_bind_eq_ok h
    have hpair := Except.ok.inj h
    rw [Prod.mk.injEq] at hpair
    obtain ⟨rfl, rfl⟩ := hpair
    refine .cons (hfirst page o hpage (hos _ List.mem_cons_self)) ?_
    exact ih hpages fun o ho => hos o (List.mem_cons_of_mem _ ho)

/-- Groups of references, with what each group stands for. -/
theorem forall₂_groups {groups : List (List TreePage)} {parts : List (List TreeEntry)}
    (h : List.Forall₂ (RefDenotes store) groups.flatten parts) :
    ∃ partss : List (List (List TreeEntry)), partss.flatten = parts ∧
      List.Forall₂ (List.Forall₂ (RefDenotes store)) groups partss := by
  induction groups generalizing parts with
  | nil =>
    cases h
    exact ⟨[], rfl, .nil⟩
  | cons group groups ih =>
    rw [List.flatten_cons] at h
    have hfirst := List.forall₂_take group.length h
    have hrest := List.forall₂_drop group.length h
    rw [List.take_left] at hfirst
    rw [List.drop_left] at hrest
    obtain ⟨partss, hflat, hgroups⟩ := ih hrest
    refine ⟨parts.take group.length :: partss, ?_, .cons hfirst hgroups⟩
    rw [List.flatten_cons, hflat, List.take_append_drop]

/-- One level of branches stands for what the references stood for. -/
theorem forall₂_writeBranchLevel {pages level : List TreePage} {os : List Object}
    (h : writeBranchLevel idOf pages = .ok (level, os)) (hos : ∀ o ∈ os, store (idOf o) = some o)
    {parts : List (List TreeEntry)} (hparts : List.Forall₂ (RefDenotes store) pages parts) :
    ∃ parts', parts'.flatten = parts.flatten ∧ List.Forall₂ (RefDenotes store) level parts' := by
  unfold writeBranchLevel at h
  cases hgroups : Paging.pages branchOverhead targetTreePageBytes maxTreePageBytes
      TreePage.jsonLen pages with
  | none =>
    rw [hgroups] at h
    exact absurd h (by simp)
  | some groups =>
    rw [hgroups] at h
    rw [← (Paging.flatten_pages hgroups).1] at hparts
    obtain ⟨partss, rfl, hall⟩ := forall₂_groups hparts
    refine ⟨partss.map List.flatten, List.flatten_flatten.symm ▸ rfl,
      forall₂_storeAll h hos ?_⟩
    refine List.forall₂_map_right_iff.mpr (hall.imp fun group parts hgroup page o hstore ho => ?_)
    exact refDenotes_storeBranch hstore ho hgroup

/-- Levels of branches stand for what the references stood for. -/
theorem pageDenotes_branchLevels {fuel : ℕ} {pages : List TreePage} {os : List Object}
    {root : ObjectId} (h : branchLevels idOf fuel pages = .ok (os, root))
    (hos : ∀ o ∈ os, store (idOf o) = some o) {parts : List (List TreeEntry)}
    (hparts : List.Forall₂ (RefDenotes store) pages parts) :
    PageDenotes store root parts.flatten := by
  induction fuel generalizing pages os parts with
  | zero => exact absurd h (by simp [branchLevels])
  | succ fuel ih =>
    by_cases hone : ∃ page, pages = [page]
    · obtain ⟨page, rfl⟩ := hone
      have hpair := Except.ok.inj h
      rw [Prod.mk.injEq] at hpair
      cases hparts with
      | cons hpage hnil =>
        cases hnil
        rw [← hpair.2]
        simpa using hpage.1
    · rw [branchLevels] at h
      · obtain ⟨⟨level, os'⟩, hlevel, h⟩ := Fallible.exists_of_bind_eq_ok h
        obtain ⟨⟨rest, root'⟩, hrest, h⟩ := Fallible.exists_of_bind_eq_ok h
        have hpair := Except.ok.inj h
        rw [Prod.mk.injEq] at hpair
        obtain ⟨rfl, rfl⟩ := hpair
        obtain ⟨parts', hflat, hparts'⟩ := forall₂_writeBranchLevel hlevel
          (fun o ho => hos o (List.mem_append_left _ ho)) hparts
        rw [← hflat]
        exact ih hrest (fun o ho => hos o (List.mem_append_right _ ho)) hparts'
      · exact fun page hpage => hone ⟨page, hpage⟩

/-- Leaves stand for the entries on them. -/
theorem forall₂_leaves (groups : List (List TreeEntry)) :
    List.Forall₂ (fun group part => ∀ page o, storeLeaf idOf group = .ok (page, o) →
      store (idOf o) = some o → RefDenotes store page part) groups groups :=
  List.forall₂_same.mpr fun _ _ _ _ hstore ho => refDenotes_storeLeaf hstore ho

/-- **A store with the nodes that were built has the entries under the root.** -/
theorem pageDenotes_buildTree {fuel : ℕ} {entries : List TreeEntry} {os : List Object}
    {root : ObjectId} (h : buildTree idOf fuel entries = .ok (os, root))
    (hos : ∀ o ∈ os, store (idOf o) = some o) :
    PageDenotes store root entries ∧ NameSorted entries := by
  unfold buildTree at h
  cases hgroups : Paging.pages leafOverhead targetTreePageBytes maxTreePageBytes TreeEntry.jsonLen
      (sortedPrefix entries) with
  | none =>
    rw [hgroups] at h
    exact absurd h (by simp)
  | some groups =>
    rw [hgroups] at h
    dsimp only at h
    split_ifs at h with hlen
    have heq : sortedPrefix entries = entries :=
      (sortedPrefix_isPrefix entries).eq_of_length_le (by omega)
    have hflat := (Paging.flatten_pages hgroups).1
    rw [heq] at hflat
    have hsorted := nameSorted_sortedPrefix entries
    rw [heq] at hsorted
    refine ⟨?_, hsorted⟩
    split at h
    · have hpair := Except.ok.inj h
      rw [Prod.mk.injEq] at hpair
      obtain ⟨rfl, rfl⟩ := hpair
      rw [← hflat]
      exact .leaf (hos _ (List.mem_singleton_self _))
    · obtain ⟨⟨leaves, os'⟩, hleaves, h⟩ := Fallible.exists_of_bind_eq_ok h
      obtain ⟨⟨rest, root'⟩, hrest, h⟩ := Fallible.exists_of_bind_eq_ok h
      have hpair := Except.ok.inj h
      rw [Prod.mk.injEq] at hpair
      obtain ⟨rfl, rfl⟩ := hpair
      rw [← hflat]
      exact pageDenotes_branchLevels hrest (fun o ho => hos o (List.mem_append_right _ ho))
        (forall₂_storeAll hleaves (fun o ho => hos o (List.mem_append_left _ ho))
          (forall₂_leaves groups))

end Denotes

/-! ## Which nodes are built -/

section BuiltNodes

variable {idOf : Object → ObjectId}

/-- Every node comes from a group that is stored. -/
theorem mem_storeAll {α : Type} {storeOne : List α → Except BuildError (TreePage × Object)}
    {groups : List (List α)} {pages : List TreePage} {os : List Object}
    (h : storeAll storeOne groups = .ok (pages, os)) :
    ∀ o ∈ os, ∃ group ∈ groups, ∃ page, storeOne group = .ok (page, o) := by
  induction groups generalizing pages os with
  | nil =>
    have hpair := Except.ok.inj h
    rw [Prod.mk.injEq] at hpair
    rw [← hpair.2]
    exact fun _ ho => absurd ho List.not_mem_nil
  | cons group groups ih =>
    unfold storeAll at h
    obtain ⟨⟨page, o⟩, hpage, h⟩ := Fallible.exists_of_bind_eq_ok h
    obtain ⟨⟨pages', os'⟩, hpages, h⟩ := Fallible.exists_of_bind_eq_ok h
    have hpair := Except.ok.inj h
    rw [Prod.mk.injEq] at hpair
    obtain ⟨rfl, rfl⟩ := hpair
    intro x hx
    rcases List.mem_cons.mp hx with rfl | hx
    · exact ⟨group, List.mem_cons_self, page, hpage⟩
    · obtain ⟨g, hg, hrest⟩ := ih hpages x hx
      exact ⟨g, List.mem_cons_of_mem _ hg, hrest⟩

/-- The node of a leaf holds its entries. -/
theorem eq_of_storeLeaf {group : List TreeEntry} {page : TreePage} {o : Object}
    (h : storeLeaf idOf group = .ok (page, o)) :
    o = .tree ⟨group, []⟩ := by
  unfold storeLeaf at h
  split at h
  · dsimp only at h
    split_ifs at h
    have hpair := Except.ok.inj h
    rw [Prod.mk.injEq] at hpair
    exact hpair.2.symm
  · exact absurd h (by simp)

/-- The node of a branch holds its references. -/
theorem eq_of_storeBranch {group : List TreePage} {page : TreePage} {o : Object}
    (h : storeBranch idOf group = .ok (page, o)) :
    o = .tree ⟨[], group⟩ := by
  unfold storeBranch at h
  split at h
  · dsimp only at h
    split_ifs at h
    have hpair := Except.ok.inj h
    rw [Prod.mk.injEq] at hpair
    exact hpair.2.symm
  · exact absurd h (by simp)

end BuiltNodes

/-! ## The round trip -/

/-- The length of an encoded node; a list that is empty is left out. -/
def Tree.jsonLen (t : Tree) : ℕ :=
  jsonList ((if t.entries.isEmpty then [] else
      [jsonField "entries" (jsonList (t.entries.map TreeEntry.jsonLen))]) ++
    if t.pages.isEmpty then [] else [jsonField "pages" (jsonList (t.pages.map TreePage.jsonLen))])

section RoundTrip

variable {idOf : Object → ObjectId} {store : ObjectStore}

/-- A leaf that is stored is small. -/
theorem jsonLen_storeLeaf {group : List TreeEntry} {page : TreePage} {o : Object}
    (h : storeLeaf idOf group = .ok (page, o)) :
    (⟨group, []⟩ : Tree).jsonLen ≤ maxTreePageBytes := by
  unfold storeLeaf at h
  split at h
  · rename_i first last hfirst hlast
    dsimp only at h
    split_ifs at h with hlen
    obtain ⟨rest, rfl⟩ : ∃ rest, group = first :: rest :=
      ⟨group.tail, (List.cons_head?_tail hfirst).symm⟩
    exact hlen
  · exact absurd h (by simp)

/-- A branch that is stored is small. -/
theorem jsonLen_storeBranch {group : List TreePage} {page : TreePage} {o : Object}
    (h : storeBranch idOf group = .ok (page, o)) :
    (⟨[], group⟩ : Tree).jsonLen ≤ maxTreePageBytes := by
  unfold storeBranch at h
  split at h
  · rename_i first last hfirst hlast
    dsimp only at h
    split_ifs at h with hlen
    obtain ⟨rest, rfl⟩ : ∃ rest, group = first :: rest :=
      ⟨group.tail, (List.cons_head?_tail hfirst).symm⟩
    exact hlen
  · exact absurd h (by simp)

/-- A node is small, and its references say what is below them. -/
def SoundNode (store : ObjectStore) (entries : List TreeEntry) (o : Object) : Prop :=
  ∃ t : Tree, o = .tree t ∧ t.jsonLen ≤ maxTreePageBytes ∧
    ∀ page ∈ t.pages, ∃ es, es <:+: entries ∧ RefDenotes store page es

/-- References to parts of a list say what is below them. -/
theorem exists_part {pages : List TreePage} {parts : List (List TreeEntry)}
    (h : List.Forall₂ (RefDenotes store) pages parts) {page : TreePage} (hpage : page ∈ pages) :
    ∃ es, es <:+: parts.flatten ∧ RefDenotes store page es := by
  induction h with
  | nil => exact absurd hpage List.not_mem_nil
  | @cons p part pages parts hp hrest ih =>
    rw [List.flatten_cons]
    rcases List.mem_cons.mp hpage with rfl | hpage
    · exact ⟨part, (List.prefix_append ..).isInfix, hp⟩
    · obtain ⟨es, hes, hdenotes⟩ := ih hpage
      exact ⟨es, hes.trans (List.suffix_append ..).isInfix, hdenotes⟩

/-- Every node that the branch levels make is sound for the entries below the first level. -/
theorem sound_branchLevels {fuel : ℕ} {pages : List TreePage} {os : List Object}
    {root : ObjectId} (h : branchLevels idOf fuel pages = .ok (os, root))
    (hos : ∀ o ∈ os, store (idOf o) = some o) {parts : List (List TreeEntry)}
    (hparts : List.Forall₂ (RefDenotes store) pages parts) :
    ∀ o ∈ os, SoundNode store parts.flatten o := by
  induction fuel generalizing pages os parts with
  | zero => exact absurd h (by simp [branchLevels])
  | succ fuel ih =>
    by_cases hone : ∃ page, pages = [page]
    · obtain ⟨page, rfl⟩ := hone
      have hpair := Except.ok.inj h
      rw [Prod.mk.injEq] at hpair
      rw [← hpair.1]
      exact fun o ho => absurd ho List.not_mem_nil
    · rw [branchLevels] at h
      · obtain ⟨⟨level, os'⟩, hlevel, h⟩ := Fallible.exists_of_bind_eq_ok h
        obtain ⟨⟨rest, root'⟩, hrest, h⟩ := Fallible.exists_of_bind_eq_ok h
        have hpair := Except.ok.inj h
        rw [Prod.mk.injEq] at hpair
        obtain ⟨rfl, rfl⟩ := hpair
        obtain ⟨parts', hflat, hparts'⟩ := forall₂_writeBranchLevel hlevel
          (fun o ho => hos o (List.mem_append_left _ ho)) hparts
        have habove := ih hrest (fun o ho => hos o (List.mem_append_right _ ho)) hparts'
        rw [hflat] at habove
        intro o ho
        rcases List.mem_append.mp ho with ho | ho
        · unfold writeBranchLevel at hlevel
          cases hgroups : Paging.pages branchOverhead targetTreePageBytes maxTreePageBytes
              TreePage.jsonLen pages with
          | none =>
            rw [hgroups] at hlevel
            exact absurd hlevel (by simp)
          | some groups =>
            rw [hgroups] at hlevel
            obtain ⟨group, hgroup, page, hstore⟩ := mem_storeAll hlevel o ho
            refine ⟨⟨[], group⟩, eq_of_storeBranch hstore, jsonLen_storeBranch hstore, ?_⟩
            intro page' hpage'
            apply exists_part hparts
            rw [← (Paging.flatten_pages hgroups).1]
            exact List.mem_flatten.mpr ⟨group, hgroup, hpage'⟩
        · exact habove o ho
      · exact fun page hpage => hone ⟨page, hpage⟩

/-- Every node of a directory is small, and its references say what is below them. -/
theorem sound_buildTree {fuel : ℕ} {entries : List TreeEntry} {os : List Object}
    {root : ObjectId} (h : buildTree idOf fuel entries = .ok (os, root))
    (hos : ∀ o ∈ os, store (idOf o) = some o) : ∀ o ∈ os, SoundNode store entries o := by
  unfold buildTree at h
  cases hgroups : Paging.pages leafOverhead targetTreePageBytes maxTreePageBytes TreeEntry.jsonLen
      (sortedPrefix entries) with
  | none =>
    rw [hgroups] at h
    exact absurd h (by simp)
  | some groups =>
    rw [hgroups] at h
    dsimp only at h
    split_ifs at h with hlen
    have heq : sortedPrefix entries = entries :=
      (sortedPrefix_isPrefix entries).eq_of_length_le (by omega)
    have hflat := (Paging.flatten_pages hgroups).1
    rw [heq] at hflat
    split at h
    · have hpair := Except.ok.inj h
      rw [Prod.mk.injEq] at hpair
      rw [← hpair.1]
      intro o ho
      rw [List.mem_singleton.mp ho]
      exact ⟨⟨[], []⟩, rfl, by decide, fun page hpage => absurd hpage List.not_mem_nil⟩
    · obtain ⟨⟨leaves, os'⟩, hleaves, h⟩ := Fallible.exists_of_bind_eq_ok h
      obtain ⟨⟨rest, root'⟩, hrest, h⟩ := Fallible.exists_of_bind_eq_ok h
      have hpair := Except.ok.inj h
      rw [Prod.mk.injEq] at hpair
      obtain ⟨rfl, rfl⟩ := hpair
      intro o ho
      rcases List.mem_append.mp ho with ho | ho
      · obtain ⟨group, -, page, hstore⟩ := mem_storeAll hleaves o ho
        exact ⟨⟨group, []⟩, eq_of_storeLeaf hstore, jsonLen_storeLeaf hstore,
          fun page hpage => absurd hpage List.not_mem_nil⟩
      · rw [← hflat]
        exact sound_branchLevels hrest (fun o ho => hos o (List.mem_append_right _ ho))
          (forall₂_storeAll hleaves (fun o ho => hos o (List.mem_append_left _ ho))
            (forall₂_leaves groups)) o ho

/-- Write the nodes of a directory into a table of objects (`write`); the nodes are returned
too. -/
def writeNodes (idOf : Object → ObjectId) (fuel : ℕ) (objects : OrdMap ObjectId Object)
    (entries : List TreeEntry) :
    Except BuildError (OrdMap ObjectId Object × List Object × ObjectId) := do
  let (os, root) ← buildTree idOf fuel entries
  pure (putObjects objects (withIds idOf os), os, root)

/-- What is written is what is built. -/
theorem buildTree_of_writeNodes {fuel : ℕ} {objects objects' : OrdMap ObjectId Object}
    {entries : List TreeEntry} {os : List Object} {root : ObjectId}
    (h : writeNodes idOf fuel objects entries = .ok (objects', os, root)) :
    buildTree idOf fuel entries = .ok (os, root) := by
  unfold writeNodes at h
  obtain ⟨⟨os', root'⟩, hbuild, h⟩ := Fallible.exists_of_bind_eq_ok h
  have hpair := Except.ok.inj h
  simp only [Prod.mk.injEq] at hpair
  obtain ⟨-, rfl, rfl⟩ := hpair
  exact hbuild

/-- Without a collision every object is found under its identifier. -/
theorem get?_of_not_collides {objects : OrdMap ObjectId Object} {os : List Object}
    (hput : collides idOf objects os = false) : ∀ o ∈ os, objects.get? (idOf o) = some o := by
  intro o ho
  by_contra hne
  rw [collides, List.any_eq_false] at hput
  exact hput o ho (by simpa using hne)

/-- **What was written is read back.**  If a list of entries is written, and no node meets another
object under its identifier, then walking the root yields the list, searching it finds the entry
of each name, every node is small, and every reference has the first name, the last name and the
number of the entries below it. -/
theorem writeTree_roundTrip {fuel : ℕ} {objects objects' : OrdMap ObjectId Object}
    {entries : List TreeEntry} {os : List Object} {root : ObjectId}
    (h : writeNodes idOf fuel objects entries = .ok (objects', os, root))
    (hput : collides idOf objects' os = false) :
    (∃ n, ∀ fuel, n ≤ fuel → forEachEntry objects'.get? fuel root = .ok entries) ∧
      (∃ n, ∀ fuel, n ≤ fuel → ∀ name,
        findEntry objects'.get? fuel root name = .ok (entryNamed name entries)) ∧
      ∀ o ∈ os, SoundNode objects'.get? entries o := by
  have hbuild := buildTree_of_writeNodes h
  have hos := get?_of_not_collides hput
  obtain ⟨hpage, hsorted⟩ := pageDenotes_buildTree hbuild hos
  exact ⟨forEachEntry_eq hpage, findEntry_eq hpage hsorted, sound_buildTree hbuild hos⟩

/-- **A comparison of two directories is exact.**  In a store that has the nodes of two written
directories, comparing the roots visits the names in increasing order, so each at most once, and
visits a pair exactly when it is the two entries of one name and they differ.  The two page
layouts do not matter.

**Proof sketch.** Both roots stand for the lists that were written, and comparing nodes is
comparing the lists they stand for (`diffEntries_eq`). -/
theorem diffEntries_writeNodes {fuel₁ fuel₂ : ℕ}
    {objects objects₁ objects₁' objects₂ objects₂' : OrdMap ObjectId Object}
    {es fs : List TreeEntry} {os₁ os₂ : List Object} {left right : ObjectId}
    (hleft : writeNodes idOf fuel₁ objects₁ es = .ok (objects₁', os₁, left))
    (hright : writeNodes idOf fuel₂ objects₂ fs = .ok (objects₂', os₂, right))
    (hput : collides idOf objects (os₁ ++ os₂) = false) :
    ∃ pairs n, (∀ fuel, n ≤ fuel → diffEntries objects.get? fuel left right = .ok pairs) ∧
      pairs.Pairwise NamedBefore ∧ ∀ a b, (a, b) ∈ pairs ↔ Reported es fs a b := by
  have hos := get?_of_not_collides hput
  obtain ⟨hpage₁, hsorted₁⟩ := pageDenotes_buildTree (buildTree_of_writeNodes hleft)
    fun o ho => hos o (List.mem_append_left _ ho)
  obtain ⟨hpage₂, hsorted₂⟩ := pageDenotes_buildTree (buildTree_of_writeNodes hright)
    fun o ho => hos o (List.mem_append_right _ ho)
  obtain ⟨n, hn⟩ := diffEntries_eq hpage₁ hpage₂ hsorted₁ hsorted₂
  exact ⟨mergeDiff es fs, n, hn, mergeDiff_pairwise hsorted₁ hsorted₂,
    fun a b => mem_mergeDiff_iff hsorted₁ hsorted₂⟩

end RoundTrip

/-- A file with a name of 201 bytes: three of them fill a leaf. -/
def wideEntry (letter : Byte) (size : UInt64) : TreeEntry :=
  { name := letter :: List.replicate 200 122, kind := .File, target := some (.fill letter),
    linkTarget := [], mode := 0o100644, size := size, mtimeSecs := 0, mtimeNanos := 0,
    xattrs := none, contentClass := .Source }

/-- A directory with six files, on two leaves. -/
def sampleEntries : List TreeEntry :=
  [wideEntry 97 1, wideEntry 98 1, wideEntry 99 1, wideEntry 100 1, wideEntry 101 1,
    wideEntry 102 1]

/-- The same directory later: a file has changed, one is gone and one is new. -/
def laterEntries : List TreeEntry :=
  [wideEntry 97 1, wideEntry 98 1, wideEntry 99 1, wideEntry 100 1, wideEntry 101 2,
    wideEntry 103 1]

/-- BLAKE3 on the nodes of the samples: the names and sizes of a leaf, the targets of a branch. -/
def sampleNodeId : Object → ObjectId
  | .tree t =>
    ⟨(t.entries.flatMap (fun e : TreeEntry => e.name.take 1 ++ [Fin.ofNat 256 e.size.toNat]) ++
      t.pages.flatMap (fun p : TreePage => p.target.bytes.take 6) ++ List.replicate 32 0).take 32,
      List.length_take_of_le (by
        rw [List.length_append, List.length_replicate]
        exact Nat.le_add_left _ _)⟩
  | _ => .fill 0

/-- A directory of two leaves and a branch. -/
theorem writeTree_roundTrip_sample : ∃ objects os root,
    writeNodes sampleNodeId 2 OrdMap.empty sampleEntries = .ok (objects, os, root) ∧
    os.length = 3 ∧
    (∃ n, ∀ fuel, n ≤ fuel → forEachEntry objects.get? fuel root = .ok sampleEntries) ∧
    (∃ n, ∀ fuel, n ≤ fuel → ∀ name,
      findEntry objects.get? fuel root name = .ok (entryNamed name sampleEntries)) ∧
    ∀ o ∈ os, SoundNode objects.get? sampleEntries o := by
  have hcheck : (writeNodes sampleNodeId 2 OrdMap.empty sampleEntries).toOption.any (fun r =>
      r.2.1.length = 3 ∧ collides sampleNodeId r.1 r.2.1 = false) = true := by decide +kernel
  cases hwrite : writeNodes sampleNodeId 2 OrdMap.empty sampleEntries with
  | error e =>
    rw [hwrite] at hcheck
    cases hcheck
  | ok result =>
    obtain ⟨objects, os, root⟩ := result
    rw [hwrite] at hcheck
    obtain ⟨hlen, hput⟩ := of_decide_eq_true hcheck
    exact ⟨objects, os, root, rfl, hlen, writeTree_roundTrip hwrite hput⟩

/-- The two directories share their first leaf. -/
theorem diffEntries_writeNodes_sample : ∃ objects objects' os os' left right,
    writeNodes sampleNodeId 2 OrdMap.empty sampleEntries = .ok (objects, os, left) ∧
    writeNodes sampleNodeId 2 objects laterEntries = .ok (objects', os', right) ∧
    os.head? = os'.head? ∧
    ∃ pairs n, (∀ fuel, n ≤ fuel → diffEntries objects'.get? fuel left right = .ok pairs) ∧
      pairs.Pairwise NamedBefore ∧
      ∀ a b, (a, b) ∈ pairs ↔ Reported sampleEntries laterEntries a b := by
  have hcheck : (writeNodes sampleNodeId 2 OrdMap.empty sampleEntries).toOption.any (fun l =>
      (writeNodes sampleNodeId 2 l.1 laterEntries).toOption.any fun r =>
        l.2.1.head? = r.2.1.head? ∧ collides sampleNodeId r.1 (l.2.1 ++ r.2.1) = false) = true := by
    decide +kernel
  cases hleft : writeNodes sampleNodeId 2 OrdMap.empty sampleEntries with
  | error e =>
    rw [hleft] at hcheck
    cases hcheck
  | ok result =>
    obtain ⟨objects, os, left⟩ := result
    rw [hleft] at hcheck
    simp only [Except.toOption, Option.any_some] at hcheck
    cases hright : writeNodes sampleNodeId 2 objects laterEntries with
    | error e =>
      rw [hright] at hcheck
      cases hcheck
    | ok result =>
      obtain ⟨objects', os', right⟩ := result
      rw [hright] at hcheck
      obtain ⟨hhead, hput⟩ := of_decide_eq_true hcheck
      exact ⟨objects, objects', os, os', left, right, rfl, hright, hhead,
        diffEntries_writeNodes hleft hright hput⟩

end Furrow
