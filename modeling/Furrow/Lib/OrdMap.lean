import Mathlib

set_option relaxedAutoImplicit false
set_option autoImplicit false

/-!
# Ordered finite maps

A finite map with keys in a linear order, kept as an association list whose keys increase
strictly.  It is the iteration-order view of a balanced search tree: two maps with the same
lookups are the same list, and reading the list front to back visits the keys in order.

## Main definitions

* `OrdMap` — strictly increasing association lists, with `OrdMap.get?`, `OrdMap.insert`,
  `OrdMap.empty` and `OrdMap.keys`.
* `OrdMap.foldInsert` — inserting a list of pairs from left to right.
* `OrdMap.filter`, `OrdMap.erase` — dropping pairs.

## Main results

* `OrdMap.get?_insert` — lookup after an insertion.
* `OrdMap.mem_toList_iff` — membership of a pair is a successful lookup.
* `OrdMap.ext_get?` — a map is determined by its lookups.
-/

/-- A finite map as an association list with strictly increasing keys. -/
structure OrdMap (K V : Type) [LinearOrder K] where
  /-- The pairs, in key order. -/
  toList : List (K × V)
  /-- Keys increase strictly, so no key occurs twice. -/
  sorted : toList.Pairwise (fun a b => a.1 < b.1)

namespace OrdMap

variable {K V : Type} [LinearOrder K]

instance [DecidableEq V] : DecidableEq (OrdMap K V) := fun a b =>
  decidable_of_iff (a.toList = b.toList) ⟨fun h =>
    by cases a; cases b; cases h; rfl, fun h => h ▸ rfl⟩

/-- The map without a key. -/
def empty : OrdMap K V := ⟨[], List.Pairwise.nil⟩

/-- The value stored under a key. -/
def get? (m : OrdMap K V) (k : K) : Option V := (m.toList.find? fun p => p.1 = k).map Prod.snd

/-- The keys, in order. -/
def keys (m : OrdMap K V) : List K := m.toList.map Prod.fst

/-- Insertion into a sorted association list, replacing the value of an equal key. -/
def insertList (k : K) (v : V) : List (K × V) → List (K × V)
  | [] => [(k, v)]
  | (k', v') :: rest =>
    if k < k' then (k, v) :: (k', v') :: rest
    else if k = k' then (k, v) :: rest
    else (k', v') :: insertList k v rest

/-- The keys after an insertion are the new key and the old ones. -/
theorem mem_insertList_key {k : K} {v : V} {l : List (K × V)} {p : K × V}
    (h : p ∈ insertList k v l) : p = (k, v) ∨ p ∈ l := by
  induction l with
  | nil => simpa [insertList] using h
  | cons q rest ih =>
    obtain ⟨k', v'⟩ := q
    simp only [insertList] at h
    split_ifs at h with h1 h2
    · simpa using h
    · rcases List.mem_cons.mp h with h | h
      · exact Or.inl h
      · exact Or.inr (List.mem_cons_of_mem _ h)
    · rcases List.mem_cons.mp h with h | h
      · exact Or.inr (by simp [h])
      · rcases ih h with h | h
        · exact Or.inl h
        · exact Or.inr (List.mem_cons_of_mem _ h)

/-- Insertion keeps the keys strictly increasing. -/
theorem sorted_insertList (k : K) (v : V) {l : List (K × V)}
    (hl : l.Pairwise (fun a b => a.1 < b.1)) :
    (insertList k v l).Pairwise (fun a b => a.1 < b.1) := by
  induction l with
  | nil => simp [insertList]
  | cons q rest ih =>
    obtain ⟨k', v'⟩ := q
    obtain ⟨hhead, htail⟩ := List.pairwise_cons.mp hl
    simp only [insertList]
    split_ifs with h1 h2
    · refine List.pairwise_cons.mpr ⟨fun p hp => ?_, hl⟩
      rcases List.mem_cons.mp hp with rfl | hp
      · exact h1
      · exact lt_trans h1 (hhead p hp)
    · subst h2
      exact List.pairwise_cons.mpr ⟨hhead, htail⟩
    · refine List.pairwise_cons.mpr ⟨fun p hp => ?_, ih htail⟩
      rcases mem_insertList_key hp with rfl | hp
      · exact lt_of_le_of_ne (not_lt.mp h1) (Ne.symm h2)
      · exact hhead p hp

/-- Insert a pair, replacing the value of an equal key. -/
def insert (m : OrdMap K V) (k : K) (v : V) : OrdMap K V :=
  ⟨insertList k v m.toList, sorted_insertList k v m.sorted⟩

/-- Insert a list of pairs, from left to right. -/
def foldInsert (m : OrdMap K V) (l : List (K × V)) : OrdMap K V :=
  l.foldl (fun m p => m.insert p.1 p.2) m

/-- In a sorted association list a lookup finds exactly the pair stored under the key. -/
theorem find?_eq_some_iff {l : List (K × V)} (hl : l.Pairwise (fun a b => a.1 < b.1))
    {k : K} {v : V} : (l.find? fun p => p.1 = k).map Prod.snd = some v ↔ (k, v) ∈ l := by
  induction l with
  | nil => simp
  | cons q rest ih =>
    obtain ⟨k', v'⟩ := q
    obtain ⟨hhead, htail⟩ := List.pairwise_cons.mp hl
    by_cases hk : k' = k
    · subst hk
      constructor
      · intro h
        have hv : v' = v := by simpa using h
        simp [hv]
      · intro h
        rcases List.mem_cons.mp h with h | h
        · simp [(Prod.mk.inj h).2]
        · exact absurd (hhead _ h) (lt_irrefl _)
    · rw [List.find?_cons_of_neg (by simpa using hk), ih htail]
      simp [Ne.symm hk]

/-- Membership of a pair in a map is a successful lookup. -/
theorem mem_toList_iff (m : OrdMap K V) {k : K} {v : V} :
    (k, v) ∈ m.toList ↔ m.get? k = some v :=
  (find?_eq_some_iff m.sorted).symm

/-- A key occurs in a map exactly when its lookup succeeds. -/
theorem mem_keys_iff (m : OrdMap K V) {k : K} : k ∈ m.keys ↔ (m.get? k).isSome := by
  rw [Option.isSome_iff_exists]
  constructor
  · intro h
    obtain ⟨⟨k', v⟩, hp, rfl⟩ := List.mem_map.mp h
    exact ⟨v, m.mem_toList_iff.mp hp⟩
  · rintro ⟨v, hv⟩
    exact List.mem_map.mpr ⟨(k, v), m.mem_toList_iff.mpr hv, rfl⟩

/-- The keys of a map increase strictly. -/
theorem keys_sorted (m : OrdMap K V) : m.keys.Pairwise (· < ·) :=
  List.pairwise_map.mpr m.sorted

/-- The empty map binds nothing. -/
@[simp] theorem get?_empty (k : K) : (empty : OrdMap K V).get? k = none := rfl

/-- Membership after an insertion: the new pair, or an old pair under another key. -/
theorem mem_insertList_iff {k : K} {v : V} {l : List (K × V)}
    (hl : l.Pairwise (fun a b => a.1 < b.1)) {p : K × V} :
    p ∈ insertList k v l ↔ p = (k, v) ∨ (p.1 ≠ k ∧ p ∈ l) := by
  induction l with
  | nil => simp [insertList]
  | cons q rest ih =>
    obtain ⟨k', v'⟩ := q
    obtain ⟨hhead, htail⟩ := List.pairwise_cons.mp hl
    simp only [insertList]
    split_ifs with h1 h2
    · have hne : ∀ p ∈ (k', v') :: rest, p.1 ≠ k := by
        intro p hp
        rcases List.mem_cons.mp hp with rfl | hp
        · exact ne_of_gt h1
        · exact ne_of_gt (lt_trans h1 (hhead p hp))
      rw [List.mem_cons]
      exact or_congr_right ⟨fun h => ⟨hne p h, h⟩, fun h => h.2⟩
    · subst h2
      rw [List.mem_cons]
      refine or_congr_right ⟨fun h => ⟨ne_of_gt (hhead p h), List.mem_cons_of_mem _ h⟩, ?_⟩
      rintro ⟨hp, h⟩
      rcases List.mem_cons.mp h with rfl | h
      · exact absurd rfl hp
      · exact h
    · rw [List.mem_cons, ih htail, List.mem_cons]
      constructor
      · rintro (rfl | h | ⟨hp, h⟩)
        · exact Or.inr ⟨fun h => h2 h.symm, Or.inl rfl⟩
        · exact Or.inl h
        · exact Or.inr ⟨hp, Or.inr h⟩
      · rintro (h | ⟨hp, rfl | h⟩)
        · exact Or.inr (Or.inl h)
        · exact Or.inl rfl
        · exact Or.inr (Or.inr ⟨hp, h⟩)

/-- Lookup after an insertion. -/
theorem get?_insert (m : OrdMap K V) (k k' : K) (v : V) :
    (m.insert k v).get? k' = if k' = k then some v else m.get? k' := by
  apply Option.ext
  intro w
  rw [← mem_toList_iff]
  change (k', w) ∈ insertList k v m.toList ↔ _
  rw [mem_insertList_iff m.sorted]
  split_ifs with h
  · subst h
    simp [eq_comm]
  · simp [h, mem_toList_iff]

/-- A map is determined by its lookups. -/
theorem ext_get? {m m' : OrdMap K V} (h : ∀ k, m.get? k = m'.get? k) : m = m' := by
  have hl : m.toList = m'.toList := by
    have hasymm : ∀ a b : K × V, a ∈ m.toList → b ∈ m'.toList → a.1 < b.1 → b.1 < a.1 → a = b := by
      intro a b _ _ hab hba
      exact absurd (lt_trans hab hba) (lt_irrefl _)
    refine List.Perm.eq_of_pairwise hasymm m.sorted m'.sorted ?_
    rw [List.perm_ext_iff_of_nodup]
    · intro p
      rw [m.mem_toList_iff, m'.mem_toList_iff, h]
    · exact m.sorted.imp fun hab hEq => absurd (hEq ▸ hab) (lt_irrefl _)
    · exact m'.sorted.imp fun hab hEq => absurd (hEq ▸ hab) (lt_irrefl _)
  cases m
  cases m'
  simpa using hl

/-- Lookup after inserting pairs of the graph of `f`: the inserted keys get their value, the
others keep theirs.  A key may be inserted more than once. -/
theorem get?_foldInsert (m : OrdMap K V) {l : List (K × V)} {f : K → Option V}
    (hl : ∀ p ∈ l, f p.1 = some p.2) (k : K) :
    (m.foldInsert l).get? k = if k ∈ l.map Prod.fst then f k else m.get? k := by
  induction l generalizing m with
  | nil => simp [foldInsert]
  | cons q rest ih =>
    have hstep : m.foldInsert (q :: rest) = (m.insert q.1 q.2).foldInsert rest := rfl
    have hq : f q.1 = some q.2 := hl q List.mem_cons_self
    rw [hstep, ih _ fun p hp => hl p (List.mem_cons_of_mem _ hp), get?_insert, List.map_cons]
    by_cases hk : k = q.1
    · subst hk
      simp [hq]
    · simp only [List.mem_cons, hk, false_or, if_false]

/-- A map built from the whole graph of `f` has the lookups of `f`. -/
theorem get?_foldInsert_empty {l : List (K × V)} {f : K → Option V}
    (hl : ∀ k v, (k, v) ∈ l ↔ f k = some v) (k : K) :
    ((empty : OrdMap K V).foldInsert l).get? k = f k := by
  rw [get?_foldInsert empty fun p hp => (hl p.1 p.2).mp hp, get?_empty]
  split_ifs with hk
  · rfl
  · symm
    rw [Option.eq_none_iff_forall_ne_some]
    intro v hv
    exact hk (List.mem_map.mpr ⟨(k, v), (hl k v).mpr hv, rfl⟩)

/-- All pairs of a map, inserted one by one, are the map. -/
theorem foldInsert_toList (m : OrdMap K V) : empty.foldInsert m.toList = m :=
  ext_get? (get?_foldInsert_empty fun _ _ => m.mem_toList_iff)

/-- A map to the one-point type is a set: inserting keys adds them. -/
theorem mem_keys_foldInsert_unit (m : OrdMap K Unit) (l : List K) (k : K) :
    k ∈ (m.foldInsert (l.map fun k => (k, ()))).keys ↔ (m.get? k).isSome ∨ k ∈ l := by
  have hfst : (l.map fun k => (k, ())).map Prod.fst = l := by
    rw [List.map_map]
    exact List.map_id l
  rw [mem_keys_iff, get?_foldInsert m (f := fun _ => some ()) (by simp), hfst]
  split_ifs with hk <;> simp [hk]

/-- A key after the insertions is one of the inserted ones or an old one. -/
theorem isSome_get?_foldInsert (m : OrdMap K V) (l : List (K × V)) (k : K) :
    ((m.foldInsert l).get? k).isSome ↔ k ∈ l.map Prod.fst ∨ (m.get? k).isSome := by
  induction l generalizing m with
  | nil => simp [foldInsert]
  | cons q rest ih =>
    have hstep : m.foldInsert (q :: rest) = (m.insert q.1 q.2).foldInsert rest := rfl
    rw [hstep, ih, get?_insert, List.map_cons, List.mem_cons]
    split_ifs with hk
    · simp [hk]
    · simp [hk]

/-- A pair after the insertions is one of the inserted ones or an old one. -/
theorem mem_of_get?_foldInsert {m : OrdMap K V} {l : List (K × V)} {k : K} {v : V}
    (h : (m.foldInsert l).get? k = some v) : (k, v) ∈ l ∨ m.get? k = some v := by
  induction l generalizing m with
  | nil => exact Or.inr h
  | cons q rest ih =>
    have hstep : m.foldInsert (q :: rest) = (m.insert q.1 q.2).foldInsert rest := rfl
    rw [hstep] at h
    rcases ih h with h | h
    · exact Or.inl (List.mem_cons_of_mem _ h)
    · rw [get?_insert] at h
      split_ifs at h with hk
      · rw [hk, ← Option.some.inj h]
        exact Or.inl List.mem_cons_self
      · exact Or.inr h

/-- Inserting a concatenation is inserting its parts one after the other. -/
theorem foldInsert_append (m : OrdMap K V) (l l' : List (K × V)) :
    m.foldInsert (l ++ l') = (m.foldInsert l).foldInsert l' :=
  List.foldl_append ..

/-- Keep the pairs that pass a test. -/
def filter (m : OrdMap K V) (p : K → V → Bool) : OrdMap K V :=
  ⟨m.toList.filter fun q => p q.1 q.2, m.sorted.filter _⟩

/-- Lookup after a filter. -/
theorem get?_filter (m : OrdMap K V) (p : K → V → Bool) (k : K) :
    (m.filter p).get? k = (m.get? k).filter (p k) := by
  apply Option.ext
  intro v
  rw [← mem_toList_iff, Option.filter_eq_some_iff, ← mem_toList_iff]
  simp [filter, List.mem_filter]

/-- Change every value. -/
def mapValues {W : Type} (m : OrdMap K V) (f : V → W) : OrdMap K W :=
  ⟨m.toList.map fun p => (p.1, f p.2), List.pairwise_map.mpr m.sorted⟩

/-- Lookup after a change of every value. -/
theorem get?_mapValues {W : Type} (m : OrdMap K V) (f : V → W) (k : K) :
    (m.mapValues f).get? k = (m.get? k).map f := by
  apply Option.ext
  intro w
  rw [← mem_toList_iff, Option.map_eq_some_iff]
  simp only [mapValues, List.mem_map, Prod.mk.injEq, Prod.exists]
  constructor
  · rintro ⟨k', v, hmem, rfl, rfl⟩
    exact ⟨v, (mem_toList_iff m).mp hmem, rfl⟩
  · rintro ⟨v, hv, rfl⟩
    exact ⟨k, v, (mem_toList_iff m).mpr hv, rfl, rfl⟩

/-- The map without a key. -/
def erase (m : OrdMap K V) (k : K) : OrdMap K V := m.filter fun k' _ => k' ≠ k

/-- Lookup after an erasure. -/
theorem get?_erase (m : OrdMap K V) (k k' : K) :
    (m.erase k).get? k' = if k' = k then none else m.get? k' := by
  unfold erase
  rw [get?_filter]
  split_ifs with h
  · subst h
    cases m.get? k' <;> simp
  · cases m.get? k' <;> simp [h]

/-- A filtered map over a strictly sorted list depends only on the members with a value. -/
theorem filterMap_congr_of_sorted {W : Type} {f : K → Option W} {l l' : List K}
    (hl : l.Pairwise (· < ·)) (hl' : l'.Pairwise (· < ·))
    (h : ∀ k, (f k).isSome → (k ∈ l ↔ k ∈ l')) : l.filterMap f = l'.filterMap f := by
  have hfilter : ∀ l : List K, l.filterMap f = (l.filter fun k => (f k).isSome).filterMap f := by
    intro l
    rw [List.filterMap_filter]
    apply List.filterMap_congr
    intro k _
    cases f k <;> simp
  have hmem : ∀ k, k ∈ l.filter (fun k => (f k).isSome) ↔ k ∈ l'.filter fun k => (f k).isSome := by
    intro k
    simp only [List.mem_filter]
    exact ⟨fun hk => ⟨(h k hk.2).mp hk.1, hk.2⟩, fun hk => ⟨(h k hk.2).mpr hk.1, hk.2⟩⟩
  rw [hfilter l, hfilter l', (hl.filter _).eq_of_mem_iff (hl'.filter _) hmem]

end OrdMap
