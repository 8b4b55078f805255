import Mathlib
import Furrow.Model

set_option relaxedAutoImplicit false
set_option autoImplicit false

/-!
# Reading stored directories

The reading half of `tree.rs`: a directory is stored as a tree of bounded nodes, leaves holding
entries and branches holding page references.  `Entries` walks the nodes depth first and yields
the entries in name order; `diff_entries` compares two stored directories and descends page by
page where the two branch nodes are aligned.

Stored graphs can be deep, so the functions here take a fuel argument that bounds the number of
steps; running out of it is an error of its own and never a result.

## Main definitions

* `Furrow.readNode` — load one node (`read_node`).
* `Furrow.drain`, `Furrow.forEachEntry` — the entries under a node, by the stack of `Entries`.
* `Furrow.mergeDiff`, `Furrow.diffEntries` — the two-way comparison (`diff_entries`).
* `Furrow.findEntry` — the search of a name (`find_entry`).
* `Furrow.PageDenotes` — a node and everything under its pages stands for a list of entries.

## Main results

* `Furrow.forEachEntry_eq` — a node yields exactly the entries it stands for.
* `Furrow.diffEntries_eq` — comparing two nodes is comparing the lists they stand for,
  whatever the two page layouts are.
* `Furrow.findEntry_eq` — a node is searched as the list it stands for.
-/

namespace Furrow

/-- Why a read of the store fails. -/
inductive StoreError
  /-- `missing object …` -/
  | missingObject
  /-- `object kind mismatch` -/
  | kindMismatch
  /-- `tree node mixes leaf entries and branch pages` -/
  | mixedTreeNode
  /-- `directory missing tree ID` -/
  | directoryMissingTree
  /-- The panic `directory has a tree target`. -/
  | expectedTreeTarget
  /-- The panic `tree diff always provides an entry`. -/
  | expectedEntry
  /-- `empty path component in snapshot` -/
  | emptyName
  /-- `unsafe path component in snapshot` -/
  | unsafeName
  /-- `invalid path component in snapshot` -/
  | invalidName
  /-- The bound on the number of steps was reached. -/
  | outOfFuel
deriving DecidableEq, Repr

/-- `read_struct(id, ObjectKind::Tree)`. -/
def readTree (store : ObjectStore) (id : ObjectId) : Except StoreError Tree :=
  match store id with
  | none => .error .missingObject
  | some (.tree t) => .ok t
  | some _ => .error .kindMismatch

/-- Load one tree node (`read_node`). -/
def readNode (store : ObjectStore) (id : ObjectId) : Except StoreError Tree := do
  let tree ← readTree store id
  if tree.entries.isEmpty || tree.pages.isEmpty then pure tree else throw .mixedTreeNode

/-- A frame of the stack of `Entries`. -/
inductive EntryFrame
  | Node (id : ObjectId)
  | Leaf (entries : List TreeEntry)

/-- `Entries::next_entry` driven until the stack is empty.  The top of the stack is the head
of the list; a branch pushes its pages so that the first one is on top. -/
def drain (store : ObjectStore) : ℕ → List EntryFrame → Except StoreError (List TreeEntry)
  | 0, _ => .error .outOfFuel
  | _ + 1, [] => .ok []
  | fuel + 1, .Leaf [] :: stack => drain store fuel stack
  | fuel + 1, .Leaf (e :: es) :: stack => do
    let rest ← drain store fuel (.Leaf es :: stack)
    pure (e :: rest)
  | fuel + 1, .Node id :: stack => do
    let tree ← readNode store id
    if tree.pages.isEmpty then drain store fuel (.Leaf tree.entries :: stack)
    else drain store fuel (tree.pages.map (fun p => .Node p.target) ++ stack)

/-- The entries `for_each_entry` visits, in order. -/
def forEachEntry (store : ObjectStore) (fuel : ℕ) (root : ObjectId) :
    Except StoreError (List TreeEntry) :=
  drain store fuel [.Node root]

/-- What a comparison hands to its visitor: the entries of one name on both sides. -/
abbrev EntryPair := Option TreeEntry × Option TreeEntry

/-- The comparison loop while the left side stands at `l`; `rest` compares what follows `l`
with what is left of the right side. -/
def mergeInto (l : TreeEntry) (rest : List TreeEntry → List EntryPair) :
    List TreeEntry → List EntryPair
  | [] => (some l, none) :: rest []
  | r :: rs =>
    if l.name = r.name then
      if l ≠ r then (some l, some r) :: rest rs else rest rs
    else if l.name < r.name then (some l, none) :: rest (r :: rs)
    else (none, some r) :: mergeInto l rest rs

/-- The comparison of two entry sequences, in visiting order. -/
def mergeDiff : List TreeEntry → List TreeEntry → List EntryPair
  | [], rs => rs.map fun r => (none, some r)
  | l :: ls, rs => mergeInto l (mergeDiff ls) rs

/-- Two branch nodes whose pages cover the same name ranges. -/
def alignedBranches (left right : Tree) : Bool :=
  !left.pages.isEmpty && left.pages.length == right.pages.length &&
    (left.pages.zip right.pages).all fun p =>
      p.1.firstName == p.2.firstName && p.1.lastName == p.2.lastName

/-- The pairs `diff_entries` visits, in order. -/
def diffEntries (store : ObjectStore) :
    ℕ → ObjectId → ObjectId → Except StoreError (List EntryPair)
  | 0, _, _ => .error .outOfFuel
  | fuel + 1, left, right =>
    if left = right then pure []
    else do
      let leftNode ← readNode store left
      let rightNode ← readNode store right
      if alignedBranches leftNode rightNode then do
        let parts ← (leftNode.pages.zip rightNode.pages).mapM fun p =>
          diffEntries store fuel p.1.target p.2.target
        pure parts.flatten
      else do
        let leftEntries ← forEachEntry store fuel left
        let rightEntries ← forEachEntry store fuel right
        pure (mergeDiff leftEntries rightEntries)

/-! ## What a node stands for -/

/-- Names increase strictly. -/
def NameSorted (es : List TreeEntry) : Prop := es.Pairwise fun a b => a.name < b.name

mutual

/-- The node `id` stands for the entries `es`: a leaf for its own, a branch for those of its
pages in order. -/
inductive PageDenotes (store : ObjectStore) : ObjectId → List TreeEntry → Prop
  | leaf {id : ObjectId} {es : List TreeEntry} :
      store id = some (.tree ⟨es, []⟩) → PageDenotes store id es
  | branch {id : ObjectId} {p : TreePage} {ps : List TreePage} {es : List TreeEntry} :
      store id = some (.tree ⟨[], p :: ps⟩) → PagesDenote store (p :: ps) es →
      PageDenotes store id es

/-- A list of page references stands for the entries under them, and each reference records
the first name, the last name and the number of the entries under it. -/
inductive PagesDenote (store : ObjectStore) : List TreePage → List TreeEntry → Prop
  | nil : PagesDenote store [] []
  | cons {p : TreePage} {ps : List TreePage} {es rest : List TreeEntry} :
      PageDenotes store p.target es →
      es.head?.map TreeEntry.name = some p.firstName →
      es.getLast?.map TreeEntry.name = some p.lastName →
      es.length = p.entryCount →
      PagesDenote store ps rest → PagesDenote store (p :: ps) (es ++ rest)

end

/-- A node read from the store. -/
theorem readNode_eq {store : ObjectStore} {id : ObjectId} {t : Tree}
    (h : store id = some (.tree t)) (ht : t.entries = [] ∨ t.pages = []) :
    readNode store id = .ok t := by
  unfold readNode readTree
  rw [h]
  rcases ht with ht | ht <;> simp [ht, Bind.bind, Except.bind, pure, Except.pure]

mutual

/-- A node stands for one list of entries. -/
theorem PageDenotes.unique {store : ObjectStore} {id : ObjectId} {es es' : List TreeEntry} :
    PageDenotes store id es → PageDenotes store id es' → es = es'
  | .leaf h, .leaf h' => by
    rw [h] at h'
    simpa using h'
  | .leaf h, .branch h' _ => by
    rw [h] at h'
    simp at h'
  | .branch h _, .leaf h' => by
    rw [h] at h'
    simp at h'
  | .branch h hp, .branch h' hp' => by
    rw [h] at h'
    simp only [Option.some.injEq, Object.tree.injEq, Tree.mk.injEq, true_and] at h'
    exact PagesDenote.unique hp (h' ▸ hp')

/-- A list of pages stands for one list of entries. -/
theorem PagesDenote.unique {store : ObjectStore} {ps : List TreePage} {es es' : List TreeEntry} :
    PagesDenote store ps es → PagesDenote store ps es' → es = es'
  | .nil, .nil => rfl
  | .cons h _ _ _ hs, .cons h' _ _ _ hs' => by
    rw [PageDenotes.unique h h', PagesDenote.unique hs hs']

end

/-! ## Walking the entries -/

section Walk

variable {store : ObjectStore}

/-- Draining a leaf frame yields its entries, one step each and one to drop the frame. -/
theorem drain_leaf (es : List TreeEntry) (fuel : ℕ) (stack : List EntryFrame) :
    drain store (fuel + (es.length + 1)) (.Leaf es :: stack) =
      (es ++ ·) <$> drain store fuel stack := by
  induction es with
  | nil =>
    simp only [List.length_nil, drain]
    cases drain store fuel stack <;> rfl
  | cons e es ih =>
    rw [List.length_cons, show fuel + (es.length + 1 + 1) = fuel + (es.length + 1) + 1 by omega]
    simp only [drain]
    rw [ih]
    cases drain store fuel stack <;> rfl

mutual

/-- Draining a node yields the entries it stands for, after a fixed number of steps.

**Proof sketch.** A leaf replaces its node frame by a leaf frame (`drain_leaf`); a branch
replaces it by the frames of its pages, which are drained one after the other. -/
theorem PageDenotes.drain {id : ObjectId} {es : List TreeEntry} :
    PageDenotes store id es → ∃ n, ∀ fuel stack,
      drain store (fuel + n) (.Node id :: stack) = (es ++ ·) <$> drain store fuel stack
  | .leaf h => by
    refine ⟨es.length + 1 + 1, fun fuel stack => ?_⟩
    rw [show fuel + (es.length + 1 + 1) = fuel + (es.length + 1) + 1 by omega, Furrow.drain,
      readNode_eq h (Or.inr rfl)]
    exact drain_leaf es fuel stack
  | .branch h hp => by
    obtain ⟨n, hn⟩ := PagesDenote.drain hp
    refine ⟨n + 1, fun fuel stack => ?_⟩
    rw [show fuel + (n + 1) = fuel + n + 1 by omega, Furrow.drain,
      readNode_eq h (Or.inl rfl), ← hn]
    rfl

/-- Draining the frames of a list of pages yields the entries they stand for. -/
theorem PagesDenote.drain {ps : List TreePage} {es : List TreeEntry} :
    PagesDenote store ps es → ∃ n, ∀ fuel stack,
      drain store (fuel + n) (ps.map (fun p => .Node p.target) ++ stack) =
        (es ++ ·) <$> drain store fuel stack
  | .nil => by
    refine ⟨0, fun fuel stack => ?_⟩
    simp only [Nat.add_zero, List.map_nil, List.nil_append]
    cases Furrow.drain store fuel stack <;> rfl
  | .cons h _ _ _ hs => by
    obtain ⟨n, hn⟩ := PageDenotes.drain h
    obtain ⟨m, hm⟩ := PagesDenote.drain hs
    refine ⟨m + n, fun fuel stack => ?_⟩
    rw [show fuel + (m + n) = fuel + m + n by omega, List.map_cons, List.cons_append, hn, hm]
    cases Furrow.drain store fuel stack <;> simp [Functor.map, Except.map]

end

/-- **A node yields exactly the entries it stands for.** -/
theorem forEachEntry_eq {id : ObjectId} {es : List TreeEntry} (h : PageDenotes store id es) :
    ∃ n, ∀ fuel, n ≤ fuel → forEachEntry store fuel id = .ok es := by
  obtain ⟨n, hn⟩ := h.drain
  refine ⟨1 + n, fun fuel hf => ?_⟩
  obtain ⟨k, rfl⟩ : ∃ k, fuel = k + 1 + n := ⟨fuel - (1 + n), by omega⟩
  rw [forEachEntry, hn, drain]
  simp [Functor.map, Except.map]

end Walk

/-! ## Comparing entries -/

/-- Comparing a list with itself reports nothing. -/
theorem mergeDiff_self (xs : List TreeEntry) : mergeDiff xs xs = [] := by
  induction xs with
  | nil => rfl
  | cons x xs ih => simp [mergeDiff, mergeInto, ih]

/-- Every name of the one list precedes every name of the other. -/
def NamesBefore (xs ys : List TreeEntry) : Prop := ∀ x ∈ xs, ∀ y ∈ ys, x.name < y.name

/-- Entries of the right side that precede the whole left side are reported as they come. -/
theorem mergeDiff_right_first {xs ys zs : List TreeEntry} (h : NamesBefore ys xs) :
    mergeDiff xs (ys ++ zs) = (ys.map fun r => (none, some r)) ++ mergeDiff xs zs := by
  cases xs with
  | nil => simp [mergeDiff]
  | cons x xs =>
    induction ys with
    | nil => rfl
    | cons y ys ih =>
      have hyx : y.name < x.name := h y List.mem_cons_self x List.mem_cons_self
      have ih' := ih fun a ha => h a (List.mem_cons_of_mem _ ha)
      simp only [mergeDiff] at ih'
      have hne : x.name ≠ y.name := ne_of_gt hyx
      have hnlt : ¬ x.name < y.name := not_lt_of_gt hyx
      simp only [mergeDiff, List.cons_append, mergeInto, List.map_cons, hne, hnlt, if_false, ih']

/-- **Comparison is local.**  When all names of a first part precede all names of a second
part, on both sides, the two parts can be compared on their own.

**Proof sketch.** Induction on the left first part.  If it is empty, what is left of the right
first part precedes everything on the left.  If it starts with `x`, induction on the right
first part follows the comparison loop: `x` is reported or skipped before any entry of the
second parts is looked at. -/
theorem mergeDiff_append {xs xs' ys ys' : List TreeEntry} (hxy : NamesBefore xs ys')
    (hyx : NamesBefore ys xs') :
    mergeDiff (xs ++ xs') (ys ++ ys') = mergeDiff xs ys ++ mergeDiff xs' ys' := by
  induction xs generalizing ys with
  | nil => simpa [mergeDiff] using mergeDiff_right_first hyx
  | cons x xs ih =>
    have hxs : NamesBefore xs ys' := fun a ha => hxy a (List.mem_cons_of_mem _ ha)
    induction ys with
    | nil =>
      have ih' : mergeDiff (xs ++ xs') ys' = mergeDiff xs [] ++ mergeDiff xs' ys' :=
        ih hxs fun a ha => absurd ha List.not_mem_nil
      cases ys' with
      | nil => simp only [List.cons_append, mergeDiff, mergeInto, List.append_nil, ih']
      | cons y ys' =>
        have hlt : x.name < y.name := hxy x List.mem_cons_self y List.mem_cons_self
        have hne : x.name ≠ y.name := ne_of_lt hlt
        simp only [List.cons_append, List.nil_append, mergeDiff, mergeInto, hne, hlt, if_true,
          if_false, ih']
    | cons y ys ihy =>
      have hys : NamesBefore ys xs' := fun a ha => hyx a (List.mem_cons_of_mem _ ha)
      have ihy' := ihy hys
      simp only [List.cons_append, mergeDiff] at ihy' ⊢
      simp only [mergeInto]
      split_ifs
      · simp [ih hxs hys]
      · simp [ih hxs hys]
      · have ih' := ih hxs hyx
        simp only [List.cons_append] at ih'
        simp [ih']
      · simp [ihy']

/-- The entry of a name in a list of entries. -/
def entryNamed (n : Bytes) (es : List TreeEntry) : Option TreeEntry := es.find? fun e => e.name = n

/-- Nothing is named in an empty list. -/
@[simp] theorem entryNamed_nil (n : Bytes) : entryNamed n [] = none := rfl

/-- The first entry of the name, by the head of the list. -/
theorem entryNamed_cons (n : Bytes) (e : TreeEntry) (es : List TreeEntry) :
    entryNamed n (e :: es) = if e.name = n then some e else entryNamed n es := by
  unfold entryNamed
  rw [List.find?_cons]
  by_cases h : e.name = n <;> simp [h]

/-- The entry found under a name bears that name and is one of the list. -/
theorem entryNamed_some {n : Bytes} {es : List TreeEntry} {e : TreeEntry}
    (h : entryNamed n es = some e) : e.name = n ∧ e ∈ es :=
  ⟨by simpa using List.find?_some h, List.mem_of_find?_eq_some h⟩

/-- A name that precedes all names of the list is not found in it. -/
theorem entryNamed_eq_none_of_lt {n : Bytes} {es : List TreeEntry}
    (h : ∀ e ∈ es, n < e.name) : entryNamed n es = none := by
  unfold entryNamed
  rw [List.find?_eq_none]
  intro e he hn
  have hlt : n < e.name := h e he
  rw [show e.name = n by simpa using hn] at hlt
  exact absurd hlt (lt_irrefl _)

/-- In a sorted list an entry is found under its own name. -/
theorem entryNamed_of_mem {es : List TreeEntry} (hs : NameSorted es) {e : TreeEntry}
    (he : e ∈ es) : entryNamed e.name es = some e := by
  induction es with
  | nil => exact absurd he List.not_mem_nil
  | cons x es ih =>
    obtain ⟨hx, hes⟩ := List.pairwise_cons.mp hs
    rw [entryNamed_cons]
    rcases List.mem_cons.mp he with rfl | he
    · simp
    · have hne : x.name ≠ e.name := ne_of_lt (hx e he)
      rw [if_neg hne, ih hes he]

/-- A pair of different entries that two lists have under one name. -/
def Reported (xs ys : List TreeEntry) (a b : Option TreeEntry) : Prop :=
  a ≠ b ∧ ∃ n, a = entryNamed n xs ∧ b = entryNamed n ys

/-- One name can be split off what two lists report. -/
theorem reported_split {xs xs' ys ys' : List TreeEntry} {m : Bytes} {a b : Option TreeEntry}
    (hxs : ∀ n, n ≠ m → entryNamed n xs = entryNamed n xs') (hx : entryNamed m xs' = none)
    (hys : ∀ n, n ≠ m → entryNamed n ys = entryNamed n ys') (hy : entryNamed m ys' = none) :
    Reported xs ys a b ↔
      (a ≠ b ∧ a = entryNamed m xs ∧ b = entryNamed m ys) ∨ Reported xs' ys' a b := by
  constructor
  · intro h
    obtain ⟨hab, n, ha, hb⟩ := h
    by_cases hn : n = m
    · subst hn
      exact Or.inl ⟨hab, ha, hb⟩
    · rw [hxs n hn] at ha
      rw [hys n hn] at hb
      exact Or.inr ⟨hab, n, ha, hb⟩
  · intro h
    rcases h with ⟨hab, ha, hb⟩ | ⟨hab, n, ha, hb⟩
    · exact ⟨hab, m, ha, hb⟩
    · have hn : n ≠ m := by
        intro hn
        subst hn
        rw [hx] at ha
        rw [hy] at hb
        exact hab (ha.trans hb.symm)
      exact ⟨hab, n, ha.trans (hxs n hn).symm, hb.trans (hys n hn).symm⟩

/-- Away from the name of its head, a list has the entries of its tail. -/
theorem entryNamed_cons_ne {n : Bytes} {e : TreeEntry} (es : List TreeEntry) (h : n ≠ e.name) :
    entryNamed n (e :: es) = entryNamed n es := by
  rw [entryNamed_cons, if_neg (Ne.symm h)]

/-- In a sorted list the head's name does not occur again. -/
theorem entryNamed_tail_eq_none {e : TreeEntry} {es : List TreeEntry}
    (h : NameSorted (e :: es)) : entryNamed e.name es = none :=
  entryNamed_eq_none_of_lt (List.pairwise_cons.mp h).1

/-- In a sorted list, names before the head's do not occur. -/
theorem entryNamed_eq_none_of_lt_head {n : Bytes} {e : TreeEntry} {es : List TreeEntry}
    (h : NameSorted (e :: es)) (hn : n < e.name) : entryNamed n (e :: es) = none := by
  apply entryNamed_eq_none_of_lt
  intro x hx
  rcases List.mem_cons.mp hx with rfl | hx
  · exact hn
  · exact lt_trans hn ((List.pairwise_cons.mp h).1 x hx)

/-- **What a comparison reports.**  A pair is reported exactly when it is the pair of entries
that the two lists have under some name, and the two are not equal.

**Proof sketch.** Induction along the loop.  Each turn of it handles the smallest name left on
the two sides; `reported_split` takes that name off both lists. -/
theorem mem_mergeDiff_iff {xs ys : List TreeEntry} (hxs : NameSorted xs) (hys : NameSorted ys)
    {a b : Option TreeEntry} : (a, b) ∈ mergeDiff xs ys ↔ Reported xs ys a b := by
  induction xs generalizing ys with
  | nil =>
    simp only [mergeDiff, List.mem_map, Prod.mk.injEq]
    constructor
    · rintro ⟨y, hy, rfl, rfl⟩
      exact ⟨by simp, y.name, rfl, (entryNamed_of_mem hys hy).symm⟩
    · rintro ⟨hab, n, rfl, rfl⟩
      obtain ⟨y, hy⟩ := Option.ne_none_iff_exists'.mp (Ne.symm hab)
      exact ⟨y, (entryNamed_some hy).2, rfl, hy.symm⟩
  | cons x xs ih =>
    have hxs' : NameSorted xs := (List.pairwise_cons.mp hxs).2
    induction ys with
    | nil =>
      rw [reported_split (fun n hn => entryNamed_cons_ne xs hn) (entryNamed_tail_eq_none hxs)
        (fun n _ => rfl) (entryNamed_nil x.name), entryNamed_cons, if_pos rfl, entryNamed_nil,
        ← ih hxs' hys]
      simp only [mergeDiff, mergeInto, List.mem_cons, Prod.mk.injEq]
      exact or_congr_left ⟨fun h => ⟨by simp [h.1, h.2], h.1, h.2⟩, fun h => h.2⟩
    | cons y ys ihy =>
      have hys' : NameSorted ys := (List.pairwise_cons.mp hys).2
      rcases lt_trichotomy x.name y.name with hlt | heq | hgt
      · rw [reported_split (fun n hn => entryNamed_cons_ne xs hn) (entryNamed_tail_eq_none hxs)
          (fun n _ => rfl) (entryNamed_eq_none_of_lt_head hys hlt), entryNamed_cons, if_pos rfl,
          entryNamed_eq_none_of_lt_head hys hlt, ← ih hxs' hys]
        have hne : x.name ≠ y.name := ne_of_lt hlt
        simp only [mergeDiff, mergeInto, hne, hlt, if_true, if_false, List.mem_cons,
          Prod.mk.injEq]
        exact or_congr_left ⟨fun h => ⟨by simp [h.1, h.2], h.1, h.2⟩, fun h => h.2⟩
      · rw [reported_split (fun n hn => entryNamed_cons_ne xs hn) (entryNamed_tail_eq_none hxs)
          (fun n hn => entryNamed_cons_ne ys (heq ▸ hn)) (heq ▸ entryNamed_tail_eq_none hys),
          entryNamed_cons, if_pos rfl, entryNamed_cons, if_pos heq.symm, ← ih hxs' hys']
        simp only [mergeDiff, mergeInto, heq, if_true]
        by_cases hxy : x = y
        · subst hxy
          simp only [ne_eq, not_true_eq_false, if_false]
          refine ⟨Or.inr, fun h => ?_⟩
          rcases h with ⟨hab, ha, hb⟩ | h
          · exact absurd (ha.trans hb.symm) hab
          · exact h
        · simp only [ne_eq, hxy, not_false_eq_true, if_true, List.mem_cons, Prod.mk.injEq]
          exact or_congr_left ⟨fun h => ⟨by simp [h.1, h.2, hxy], h.1, h.2⟩, fun h => h.2⟩
      · have ihy' : (a, b) ∈ mergeDiff (x :: xs) ys ↔ Reported (x :: xs) ys a b := ihy hys'
        rw [reported_split (fun n _ => rfl) (entryNamed_eq_none_of_lt_head hxs hgt)
          (fun n hn => entryNamed_cons_ne ys hn) (entryNamed_tail_eq_none hys),
          entryNamed_eq_none_of_lt_head hxs hgt, entryNamed_cons, if_pos rfl, ← ihy']
        have hne : x.name ≠ y.name := ne_of_gt hgt
        have hnlt : ¬ x.name < y.name := not_lt_of_gt hgt
        simp only [mergeDiff, mergeInto, hne, hnlt, if_false, List.mem_cons, Prod.mk.injEq]
        exact or_congr_left ⟨fun h => ⟨by simp [h.1, h.2], h.1, h.2⟩, fun h => h.2⟩

/-- The pairs of a comparison come in the order of their names. -/
def NamedBefore (p q : EntryPair) : Prop :=
  ∀ a b, p.1.or p.2 = some a → q.1.or q.2 = some b → a.name < b.name

/-- A pair of a comparison is of one of the lists. -/
theorem mem_or_mem_of_mergeDiff {xs ys : List TreeEntry} (hxs : NameSorted xs)
    (hys : NameSorted ys) {p : EntryPair} (hp : p ∈ mergeDiff xs ys) {a : TreeEntry}
    (ha : p.1.or p.2 = some a) : a ∈ xs ∨ a ∈ ys := by
  obtain ⟨l, r⟩ := p
  obtain ⟨-, n, rfl, rfl⟩ := (mem_mergeDiff_iff hxs hys).mp hp
  cases hl : entryNamed n xs with
  | some x =>
    rw [hl, Option.some_or, Option.some.injEq] at ha
    exact Or.inl (ha ▸ (entryNamed_some hl).2)
  | none =>
    rw [hl, Option.none_or] at ha
    exact Or.inr (entryNamed_some ha).2

/-- A pair whose name is before all of two lists can come first. -/
theorem pairwise_cons_mergeDiff {xs ys : List TreeEntry} (hxs : NameSorted xs)
    (hys : NameSorted ys) {p : EntryPair} {a : TreeEntry} (ha : p.1.or p.2 = some a)
    (hbefore : ∀ b, b ∈ xs ∨ b ∈ ys → a.name < b.name)
    (h : (mergeDiff xs ys).Pairwise NamedBefore) :
    (p :: mergeDiff xs ys).Pairwise NamedBefore := by
  refine List.pairwise_cons.mpr ⟨?_, h⟩
  intro q hq x y hx hy
  rw [ha, Option.some.injEq] at hx
  exact hx ▸ hbefore y (mem_or_mem_of_mergeDiff hxs hys hq hy)

/-- A comparison reports names in their order, so no name twice. -/
theorem mergeDiff_pairwise {xs ys : List TreeEntry} (hxs : NameSorted xs) (hys : NameSorted ys) :
    (mergeDiff xs ys).Pairwise NamedBefore := by
  induction xs generalizing ys with
  | nil =>
    rw [mergeDiff, List.pairwise_map]
    refine List.Pairwise.imp ?_ hys
    intro y z hyz a b ha hb
    rw [Option.none_or, Option.some.injEq] at ha hb
    exact ha ▸ hb ▸ hyz
  | cons x xs ih =>
    obtain ⟨hx, hxs'⟩ := List.pairwise_cons.mp hxs
    induction ys with
    | nil =>
      refine pairwise_cons_mergeDiff hxs' hys (p := (some x, none)) (Option.some_or ..) ?_
        (ih hxs' hys)
      rintro b (hb | hb)
      · exact hx b hb
      · exact absurd hb List.not_mem_nil
    | cons y ys ihy =>
      obtain ⟨hy, hys'⟩ := List.pairwise_cons.mp hys
      rcases lt_trichotomy x.name y.name with hlt | heq | hgt
      · have hne : x.name ≠ y.name := ne_of_lt hlt
        simp only [mergeDiff, mergeInto, hne, hlt, if_true, if_false]
        refine pairwise_cons_mergeDiff hxs' hys (p := (some x, none)) (Option.some_or ..) ?_
          (ih hxs' hys)
        rintro b (hb | hb)
        · exact hx b hb
        · rcases List.mem_cons.mp hb with rfl | hb
          · exact hlt
          · exact lt_trans hlt (hy b hb)
      · simp only [mergeDiff, mergeInto, heq, if_true]
        have hrest := ih hxs' hys'
        split_ifs
        · refine pairwise_cons_mergeDiff hxs' hys' (p := (some x, some y)) (Option.some_or ..) ?_
            hrest
          rintro b (hb | hb)
          · exact hx b hb
          · exact heq ▸ hy b hb
        · exact hrest
      · have hne : x.name ≠ y.name := ne_of_gt hgt
        have hnlt : ¬ x.name < y.name := not_lt_of_gt hgt
        simp only [mergeDiff, mergeInto, hne, hnlt, if_false]
        refine pairwise_cons_mergeDiff hxs hys' (p := (none, some y)) (Option.none_or ..) ?_
          (ihy hys')
        rintro b (hb | hb)
        · rcases List.mem_cons.mp hb with rfl | hb
          · exact hgt
          · exact lt_trans hgt (hx b hb)
        · exact hy b hb

/-! ## Comparing stored directories -/

section Diff

variable {store : ObjectStore}

/-- In a sorted list every name is at most the last one. -/
theorem name_le_last {es : List TreeEntry} (hs : NameSorted es) {m : Bytes}
    (hm : es.getLast?.map TreeEntry.name = some m) : ∀ e ∈ es, e.name ≤ m := by
  obtain ⟨l, hl, rfl⟩ := Option.map_eq_some_iff.mp hm
  obtain ⟨init, rfl⟩ := List.getLast?_eq_some_iff.mp hl
  intro e he
  rcases List.mem_append.mp he with he | he
  · exact le_of_lt ((List.pairwise_append.mp hs).2.2 e he l (by simp))
  · rw [List.mem_singleton.mp he]

/-- A sorted concatenation splits into sorted parts, the first before the second. -/
theorem NameSorted.of_append {es rest : List TreeEntry} (h : NameSorted (es ++ rest)) :
    NameSorted es ∧ NameSorted rest ∧ NamesBefore es rest := List.pairwise_append.mp h

/-- A part that ends where the first part of a sorted list ends comes before the second part
of that list. -/
theorem namesBefore_of_last {es fs rest : List TreeEntry} {m : Bytes} (hes : NameSorted es)
    (hm : es.getLast?.map TreeEntry.name = some m) (hm' : fs.getLast?.map TreeEntry.name = some m)
    (h : NamesBefore fs rest) : NamesBefore es rest := by
  obtain ⟨l, hl, hlm⟩ := Option.map_eq_some_iff.mp hm'
  intro e he y hy
  refine lt_of_le_of_lt (name_le_last hes hm e he) ?_
  rw [← hlm]
  exact h l (List.mem_of_getLast? hl) y hy

/-- The pages of two branch nodes that cover the same name ranges. -/
def AlignedPages (ps qs : List TreePage) : Prop :=
  List.Forall₂ (fun p q => p.firstName = q.firstName ∧ p.lastName = q.lastName) ps qs

/-- The alignment test of `diff_entries` decides whether the page ranges agree. -/
theorem alignedBranches_iff (left right : Tree) :
    alignedBranches left right = true ↔ left.pages ≠ [] ∧ AlignedPages left.pages right.pages := by
  unfold alignedBranches AlignedPages
  rw [List.forall₂_iff_zip]
  simp only [Bool.and_eq_true, Bool.not_eq_true', List.isEmpty_eq_false_iff, beq_iff_eq,
    List.all_eq_true, Prod.forall, and_assoc]

/-- Reading a node that stands for something. -/
theorem PageDenotes.readNode {id : ObjectId} {es : List TreeEntry} (h : PageDenotes store id es) :
    ∃ t, readNode store id = .ok t ∧
      (t.pages = [] ∨ PagesDenote store t.pages es) := by
  cases h with
  | leaf h => exact ⟨_, readNode_eq h (Or.inr rfl), Or.inl rfl⟩
  | branch h hp => exact ⟨_, readNode_eq h (Or.inl rfl), Or.inr hp⟩

/-- Two nodes that are not compared page by page are compared entry by entry. -/
theorem diffEntries_flat {left right : ObjectId} {es fs : List TreeEntry} {l r : Tree}
    (hl : PageDenotes store left es) (hr : PageDenotes store right fs)
    (hrl : Furrow.readNode store left = .ok l) (hrr : Furrow.readNode store right = .ok r)
    (hne : left ≠ right) (hna : alignedBranches l r = false) :
    ∃ n, ∀ fuel, n ≤ fuel → diffEntries store fuel left right = .ok (mergeDiff es fs) := by
  obtain ⟨n, hn⟩ := forEachEntry_eq hl
  obtain ⟨m, hm⟩ := forEachEntry_eq hr
  refine ⟨n + m + 1, fun fuel hf => ?_⟩
  obtain ⟨k, rfl⟩ : ∃ k, fuel = k + 1 := ⟨fuel - 1, by omega⟩
  simp [diffEntries, hne, hrl, hrr, hna, hn k (by omega), hm k (by omega), Bind.bind, Except.bind,
    pure, Except.pure]

/-- A node compared with itself. -/
theorem diffEntries_self (id : ObjectId) :
    ∃ n, ∀ fuel, n ≤ fuel → diffEntries store fuel id id = .ok [] := by
  refine ⟨1, fun fuel hf => ?_⟩
  obtain ⟨k, rfl⟩ : ∃ k, fuel = k + 1 := ⟨fuel - 1, by omega⟩
  simp [diffEntries, pure, Except.pure]

mutual

/-- **Comparing two nodes is comparing the lists they stand for**, whatever the two page
layouts are.

**Proof sketch.** Equal identifiers stand for the same list.  Otherwise, if both nodes are
branches over the same name ranges, the pages are compared in pairs (`diffPages_eq`); if not,
both entry lists are walked. -/
theorem diffEntries_eq {left right : ObjectId} {es fs : List TreeEntry} :
    PageDenotes store left es → PageDenotes store right fs → NameSorted es → NameSorted fs →
      ∃ n, ∀ fuel, n ≤ fuel → diffEntries store fuel left right = .ok (mergeDiff es fs)
  | .leaf h, hr, _, _ => by
    by_cases hid : left = right
    · subst hid
      rw [PageDenotes.unique (.leaf h) hr, mergeDiff_self]
      exact diffEntries_self left
    · obtain ⟨r, hrr, -⟩ := hr.readNode
      exact diffEntries_flat (.leaf h) hr (readNode_eq h (Or.inr rfl)) hrr hid
        (by simp [alignedBranches])
  | .branch h hp, hr, hes, hfs => by
    by_cases hid : left = right
    · subst hid
      rw [PageDenotes.unique (.branch h hp) hr, mergeDiff_self]
      exact diffEntries_self left
    · obtain ⟨r, hrr, hrp⟩ := hr.readNode
      have hrl := readNode_eq h (Or.inl rfl)
      cases hal : alignedBranches ⟨[], _ :: _⟩ r with
      | false => exact diffEntries_flat (.branch h hp) hr hrl hrr hid hal
      | true =>
        have hpages := ((alignedBranches_iff _ _).mp hal).2
        have hrp' : PagesDenote store r.pages fs := by
          rcases hrp with hnil | hrp
          · rw [hnil] at hpages
            nomatch hpages
          · exact hrp
        obtain ⟨n, hn⟩ := diffPages_eq hp hrp' hes hfs hpages
        refine ⟨n + 1, fun fuel hf => ?_⟩
        obtain ⟨k, rfl⟩ : ∃ k, fuel = k + 1 := ⟨fuel - 1, by omega⟩
        obtain ⟨parts, hparts, hflat⟩ := hn k (by omega)
        rw [← hflat, diffEntries, if_neg hid, hrl, hrr]
        simp only [Bind.bind, Except.bind, hal, if_true]
        rw [hparts]
        rfl

/-- Comparing two lists of pages over the same name ranges, in pairs. -/
theorem diffPages_eq {ps qs : List TreePage} {es fs : List TreeEntry} :
    PagesDenote store ps es → PagesDenote store qs fs → NameSorted es → NameSorted fs →
      AlignedPages ps qs →
      ∃ n, ∀ fuel, n ≤ fuel → ∃ parts,
        ((ps.zip qs).mapM fun p => diffEntries store fuel p.1.target p.2.target) = .ok parts ∧
          parts.flatten = mergeDiff es fs
  | .nil, .nil, _, _, _ => ⟨0, fun fuel _ => ⟨[], rfl, rfl⟩⟩
  | @PagesDenote.cons _ _ _ es₁ es₂ h _ hlast _ hs,
      @PagesDenote.cons _ _ _ fs₁ fs₂ h' _ hlast' _ hs', hes, hfs, .cons hpq hal => by
    obtain ⟨hes1, hes2, hbes⟩ := hes.of_append
    obtain ⟨hfs1, hfs2, hbfs⟩ := hfs.of_append
    obtain ⟨n, hn⟩ := diffEntries_eq h h' hes1 hfs1
    obtain ⟨m, hm⟩ := diffPages_eq hs hs' hes2 hfs2 hal
    refine ⟨n + m, fun fuel hf => ?_⟩
    obtain ⟨parts, hparts, hflat⟩ := hm fuel (by omega)
    refine ⟨mergeDiff es₁ fs₁ :: parts, ?_, ?_⟩
    · rw [List.zip_cons_cons, List.mapM_cons, hn fuel (by omega), hparts]
      rfl
    · rw [List.flatten_cons, hflat, mergeDiff_append]
      · exact namesBefore_of_last hes1 hlast (hpq.2 ▸ hlast') hbfs
      · exact namesBefore_of_last hfs1 hlast' (hpq.2 ▸ hlast) hbes

end

end Diff

/-! ## Searching a name -/

/-- The entry of a name in a stored directory (`find_entry`). -/
def findEntry (store : ObjectStore) : ℕ → ObjectId → Bytes → Except StoreError (Option TreeEntry)
  | 0, _, _ => .error .outOfFuel
  | fuel + 1, current, name => do
    let tree ← readNode store current
    if tree.pages.isEmpty then pure (entryNamed name tree.entries)
    else
      match tree.pages.find? fun page => page.firstName ≤ name ∧ name ≤ page.lastName with
      | none => pure none
      | some page => findEntry store fuel page.target name

section Find

variable {store : ObjectStore}

/-- The first entry of the name is in the first list that has one. -/
theorem entryNamed_append {n : Bytes} {es fs : List TreeEntry} :
    entryNamed n (es ++ fs) = (entryNamed n es).or (entryNamed n fs) :=
  List.find?_append

/-- The first name of a sorted list is its smallest. -/
theorem head_le_name {es : List TreeEntry} (hs : NameSorted es) {m : Bytes}
    (hm : es.head?.map TreeEntry.name = some m) : ∀ e ∈ es, m ≤ e.name := by
  cases es with
  | nil => exact absurd hm (by simp)
  | cons x es =>
    have hx : x.name = m := by simpa using hm
    intro e he
    rcases List.mem_cons.mp he with rfl | he
    · exact hx.ge
    · exact hx ▸ ((List.pairwise_cons.mp hs).1 e he).le

mutual

/-- A node is searched as the list it stands for. -/
theorem findEntry_eq {id : ObjectId} {es : List TreeEntry} :
    PageDenotes store id es → NameSorted es →
      ∃ k, ∀ fuel, k ≤ fuel → ∀ n, findEntry store fuel id n = .ok (entryNamed n es)
  | .leaf h, _ => by
    refine ⟨1, fun fuel hf n => ?_⟩
    obtain ⟨k, rfl⟩ : ∃ k, fuel = k + 1 := ⟨fuel - 1, by omega⟩
    rw [findEntry, readNode_eq h (Or.inr rfl)]
    rfl
  | .branch h hp, hs => by
    obtain ⟨k, hk⟩ := findPages_eq hp hs
    refine ⟨k + 1, fun fuel hf n => ?_⟩
    obtain ⟨j, rfl⟩ : ∃ j, fuel = j + 1 := ⟨fuel - 1, by omega⟩
    rw [findEntry, readNode_eq h (Or.inl rfl), ← hk j (by omega) n]
    rfl

/-- The page whose range has a name is searched, and no other page has the name. -/
theorem findPages_eq {ps : List TreePage} {es : List TreeEntry} :
    PagesDenote store ps es → NameSorted es →
      ∃ k, ∀ fuel, k ≤ fuel → ∀ n,
        (match ps.find? fun page => page.firstName ≤ n ∧ n ≤ page.lastName with
          | none => pure none
          | some page => findEntry store fuel page.target n) =
          (.ok (entryNamed n es) : Except StoreError (Option TreeEntry))
  | .nil, _ => ⟨0, fun _ _ _ => rfl⟩
  | @PagesDenote.cons _ p _ es₁ es₂ h hfirst hlast _ hs, hsorted => by
    obtain ⟨hes₁, hes₂, hbefore⟩ := hsorted.of_append
    obtain ⟨k, hk⟩ := findEntry_eq h hes₁
    obtain ⟨j, hj⟩ := findPages_eq hs hes₂
    refine ⟨k + j, fun fuel hf n => ?_⟩
    rw [List.find?_cons, entryNamed_append]
    by_cases hrange : p.firstName ≤ n ∧ n ≤ p.lastName
    · -- what follows the page comes after its last name
      have hnone : entryNamed n es₂ = none := by
        apply entryNamed_eq_none_of_lt
        intro e he
        obtain ⟨l, hl, hlm⟩ := Option.map_eq_some_iff.mp hlast
        exact lt_of_le_of_lt hrange.2 (hlm ▸ hbefore l (List.mem_of_getLast? hl) e he)
      simp only [hrange, and_self, decide_true, hnone, Option.or_none]
      exact hk fuel (by omega) n
    · have hnone : entryNamed n es₁ = none := by
        rw [Option.eq_none_iff_forall_ne_some]
        intro e he
        obtain ⟨rfl, hmem⟩ := entryNamed_some he
        exact hrange ⟨head_le_name hes₁ hfirst e hmem, name_le_last hes₁ hlast e hmem⟩
      simp only [hrange, decide_false, hnone, Option.none_or]
      exact hj fuel (by omega) n

end

end Find

end Furrow
