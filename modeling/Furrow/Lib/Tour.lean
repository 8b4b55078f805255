import Mathlib
import Furrow.Lib.OrdMap

set_option relaxedAutoImplicit false
set_option autoImplicit false

/-!
# Tours of a graph

A graph is toured from a root: a stop names further nodes, each with the tag it is expected to
have, and every node that was named is to be visited once.  The table of a tour keeps the nodes that
were named so far, and which of them were visited.

## Main definitions

* `Tour.Stop` — a node that is visited, with its tag and the nodes it names.
* `Tour.enqueue`, `Tour.settle`, `Tour.next` — the steps on the table.
* `Tour.Visits` — stops that are visited one after the other.

## Main results

* `Tour.Inv.visits` — what the table says about the stops so far.
* `Tour.Inv.closed` — at the end, the stops are closed under the nodes they name.
* `Tour.Inv.subset` — tours that are over have the same stops.
-/

namespace Tour

variable {N T : Type} [LinearOrder N]

/-- A node that is visited. -/
structure Stop (N T : Type) where
  node : N
  tag : T
  edges : List (N × T)

/-- The nodes that were named, with their tags, and whether they were visited. -/
abbrev Marks (N T : Type) [LinearOrder N] := OrdMap N (T × Bool)

/-- Note that a node was visited. -/
def settle (marks : Marks N T) (n : N) : Marks N T :=
  match marks.get? n with
  | none => marks
  | some (tag, _) => marks.insert n (tag, true)

/-- The first node that was not visited yet. -/
def next (marks : Marks N T) : Option (N × T) :=
  (marks.toList.find? fun p => !p.2.2).map fun p => (p.1, p.2.1)

/-- All nodes that were named were visited. -/
def Done (marks : Marks N T) : Prop := ∀ n tag b, marks.get? n = some (tag, b) → b = true

/-- What `next` picks is queued and not yet expanded. -/
theorem next_eq_some {marks : Marks N T} {n : N} {tag : T} (h : next marks = some (n, tag)) :
    marks.get? n = some (tag, false) := by
  obtain ⟨⟨m, t, b⟩, hfind, heq⟩ := Option.map_eq_some_iff.mp h
  obtain ⟨rfl, rfl⟩ := Prod.mk.inj heq
  have hb := List.find?_some hfind
  simp only [Bool.not_eq_true'] at hb
  subst hb
  exact (OrdMap.mem_toList_iff marks).mp (List.mem_of_find?_eq_some hfind)

/-- When nothing is left to pick the tour is done. -/
theorem next_eq_none {marks : Marks N T} (h : next marks = none) : Done marks := by
  intro n tag b hget
  have hfind := Option.map_eq_none_iff.mp h
  have hb := List.find?_eq_none.mp hfind (n, tag, b) ((OrdMap.mem_toList_iff marks).mpr hget)
  simpa using hb

/-- The marks after one node is settled. -/
theorem get?_settle (marks : Marks N T) (n n' : N) :
    (settle marks n).get? n' =
      if n' = n then (marks.get? n).map fun p => (p.1, true) else marks.get? n' := by
  unfold settle
  cases h : marks.get? n with
  | none =>
    split_ifs with heq
    · rw [heq, h]
      rfl
    · rfl
  | some p =>
    dsimp only
    rw [OrdMap.get?_insert]
    split_ifs <;> rfl

/-! ## The stops so far -/

/-- What the table of a tour says about the stops so far. -/
structure Inv (root : N × T) (stops : List (Stop N T)) (marks : Marks N T) : Prop where
  /-- The nodes that were named are the root and those the stops name. -/
  named : ∀ n t, (∃ b, marks.get? n = some (t, b)) ↔ (n, t) = root ∨ ∃ s ∈ stops, (n, t) ∈ s.edges
  /-- The nodes that were visited are the stops. -/
  visited : ∀ n t, marks.get? n = some (t, true) ↔ ∃ s ∈ stops, s.node = n ∧ s.tag = t
  /-- No node was visited twice. -/
  nodup : (stops.map Stop.node).Nodup
  /-- Each stop is the root or was named by an earlier one. -/
  introduced : ∀ before s after, stops = before ++ s :: after →
    (s.node, s.tag) = root ∨ ∃ p ∈ before, (s.node, s.tag) ∈ p.edges

/-- The table of a tour that begins. -/
def start (root : N × T) : Marks N T := OrdMap.empty.insert root.1 (root.2, false)

/-- The invariant holds at the start. -/
theorem inv_start (root : N × T) : Inv root [] (start root) := by
  have hget : ∀ n, (start root).get? n = if n = root.1 then some (root.2, false) else none := by
    intro n
    rw [start, OrdMap.get?_insert]
    rfl
  constructor
  · intro n t
    rw [hget]
    constructor
    · rintro ⟨b, hb⟩
      split_ifs at hb with hn
      obtain ⟨ht, -⟩ := Prod.mk.inj (Option.some.inj hb)
      exact Or.inl (Prod.ext hn ht.symm)
    · rintro (rfl | ⟨s, hs, -⟩)
      · exact ⟨false, if_pos rfl⟩
      · exact absurd hs (by simp)
  · intro n t
    rw [hget]
    split_ifs <;> simp
  · simp
  · intro before s after h
    simp at h

/-- **A tour that is over is closed.** -/
theorem Inv.closed {root : N × T} {stops : List (Stop N T)} {marks : Marks N T}
    (h : Inv root stops marks) (hdone : Done marks) :
    (∃ s ∈ stops, (s.node, s.tag) = root) ∧
      ∀ s ∈ stops, ∀ e ∈ s.edges, ∃ s' ∈ stops, (s'.node, s'.tag) = e := by
  have hall : ∀ n t, (n, t) = root ∨ (∃ s ∈ stops, (n, t) ∈ s.edges) →
      ∃ s ∈ stops, (s.node, s.tag) = (n, t) := by
    intro n t hn
    obtain ⟨b, hb⟩ := (h.named n t).mpr hn
    obtain rfl := hdone n t b hb
    obtain ⟨s, hs, hnode, htag⟩ := (h.visited n t).mp hb
    exact ⟨s, hs, Prod.ext hnode htag⟩
  refine ⟨hall root.1 root.2 (Or.inl rfl), ?_⟩
  intro s hs e he
  exact hall e.1 e.2 (Or.inr ⟨s, hs, he⟩)

/-- A tour that is over has all stops of another one, if a node names the same in both. -/
theorem Inv.subset {root : N × T} {stops stops' : List (Stop N T)} {marks marks' : Marks N T}
    (h : Inv root stops marks) (h' : Inv root stops' marks') (hdone : Done marks')
    (hsame : ∀ s ∈ stops, ∀ s' ∈ stops', (s.node, s.tag) = (s'.node, s'.tag) → s = s') :
    stops ⊆ stops' := by
  obtain ⟨hroot, hclosed⟩ := h'.closed hdone
  -- Induction on the stops so far: each is the root or was named by an earlier one.
  have hall : ∀ l, l <+: stops → l ⊆ stops' := by
    intro l
    induction l using List.reverseRecOn with
    | nil => simp
    | append_singleton l s ih =>
      rintro ⟨after, hafter⟩
      have hl : l ⊆ stops' := ih ⟨s :: after, by rw [← hafter]; simp⟩
      have heq : stops = l ++ s :: after := by rw [← hafter]; simp
      have hs : s ∈ stops := by rw [heq]; simp
      have hmem : s ∈ stops' := by
        rcases h.introduced l s after heq with hkey | ⟨p, hp, hedge⟩
        · obtain ⟨s', hs', hkey'⟩ := hroot
          rw [hsame s hs s' hs' (hkey.trans hkey'.symm)]
          exact hs'
        · obtain ⟨s', hs', hkey'⟩ := hclosed p (hl hp) _ hedge
          rw [hsame s hs s' hs' hkey'.symm]
          exact hs'
      exact List.append_subset.mpr ⟨hl, by simpa using hmem⟩
  exact hall stops List.prefix_rfl

/-! ## Naming nodes -/

variable [DecidableEq T]

/-- Name a node; it must not have been named with another tag. -/
def enqueue (marks : Marks N T) (e : N × T) : Option (Marks N T) :=
  match marks.get? e.1 with
  | none => some (marks.insert e.1 (e.2, false))
  | some (tag, _) => if tag = e.2 then some marks else none

/-- Name nodes, one after the other. -/
def enqueueAll : Marks N T → List (N × T) → Option (Marks N T)
  | marks, [] => some marks
  | marks, e :: es => (enqueue marks e).bind fun marks => enqueueAll marks es

/-- Stops that are visited one after the other, each of them named before and not visited. -/
inductive Visits : Marks N T → List (Stop N T) → Marks N T → Prop
  | nil (marks : Marks N T) : Visits marks [] marks
  | cons {marks named last : Marks N T} {s : Stop N T} {stops : List (Stop N T)}
      (hpending : marks.get? s.node = some (s.tag, false))
      (hnamed : enqueueAll marks s.edges = some named)
      (hrest : Visits (settle named s.node) stops last) : Visits marks (s :: stops) last

/-- What is in the table after a node was named. -/
theorem get?_enqueue {marks marks' : Marks N T} {e : N × T} (h : enqueue marks e = some marks')
    (n : N) :
    marks'.get? n = if n = e.1 then some ((marks.get? n).getD (e.2, false)) else marks.get? n := by
  unfold enqueue at h
  cases hget : marks.get? e.1 with
  | none =>
    rw [hget] at h
    obtain rfl := Option.some.inj h
    rw [OrdMap.get?_insert]
    split_ifs with heq
    · rw [heq, hget]
      rfl
    · rfl
  | some p =>
    rw [hget] at h
    dsimp only at h
    split_ifs at h
    obtain rfl := Option.some.inj h
    split_ifs with heq
    · rw [heq, hget]
      rfl
    · rfl

/-- A node that was named keeps its tag. -/
theorem tag_of_enqueue {marks marks' : Marks N T} {e : N × T} (h : enqueue marks e = some marks') :
    ∃ b, marks'.get? e.1 = some (e.2, b) := by
  rw [get?_enqueue h, if_pos rfl]
  unfold enqueue at h
  cases hget : marks.get? e.1 with
  | none => exact ⟨false, rfl⟩
  | some p =>
    rw [hget] at h
    dsimp only at h
    split_ifs at h with htag
    exact ⟨p.2, by rw [← htag]; rfl⟩

/-- What is in the table after nodes were named: what was there, and the nodes. -/
theorem enqueueAll_spec {marks marks' : Marks N T} {es : List (N × T)}
    (h : enqueueAll marks es = some marks') (n : N) :
    (∀ p, marks.get? n = some p → marks'.get? n = some p ∧ ∀ t, (n, t) ∈ es → t = p.1) ∧
      (marks.get? n = none → (∀ t, (n, t) ∈ es → marks'.get? n = some (t, false)) ∧
        ∀ t b, marks'.get? n = some (t, b) → (n, t) ∈ es ∧ b = false) := by
  induction es generalizing marks with
  | nil =>
    obtain rfl := Option.some.inj h
    refine ⟨fun p hp => ⟨hp, by simp⟩, fun hnone => ⟨by simp, ?_⟩⟩
    intro t b hget
    rw [hnone] at hget
    exact absurd hget (by simp)
  | cons e es ih =>
    obtain ⟨mid, hmid, hrest⟩ := Option.bind_eq_some_iff.mp h
    obtain ⟨hkept, hnew⟩ := ih hrest
    have hget := get?_enqueue hmid n
    constructor
    · intro p hp
      have hp' : mid.get? n = some p := by
        rw [hget, hp]
        split_ifs <;> rfl
      refine ⟨(hkept p hp').1, ?_⟩
      intro t ht
      rcases List.mem_cons.mp ht with rfl | ht
      · obtain ⟨b, hb⟩ := tag_of_enqueue hmid
        dsimp only at hb
        rw [hp'] at hb
        exact (congrArg Prod.fst (Option.some.inj hb)).symm
      · exact (hkept p hp').2 t ht
    · intro hnone
      rw [hnone] at hget
      by_cases hn : n = e.1
      · rw [if_pos hn] at hget
        have hmidget : mid.get? n = some (e.2, false) := hget
        obtain ⟨hlast, htags⟩ := hkept _ hmidget
        constructor
        · intro t ht
          rcases List.mem_cons.mp ht with rfl | ht
          · exact hlast
          · rw [hlast, htags t ht]
        · intro t b hb
          rw [hlast] at hb
          obtain ⟨rfl, rfl⟩ := Prod.mk.inj (Option.some.inj hb)
          exact ⟨hn ▸ List.mem_cons_self, rfl⟩
      · rw [if_neg hn] at hget
        obtain ⟨hadd, honly⟩ := hnew hget
        constructor
        · intro t ht
          rcases List.mem_cons.mp ht with rfl | ht
          · exact absurd rfl hn
          · exact hadd t ht
        · intro t b hb
          obtain ⟨ht, hfalse⟩ := honly t b hb
          exact ⟨List.mem_cons_of_mem e ht, hfalse⟩

/-- Naming succeeds if all tags are those a node really has. -/
theorem exists_enqueueAll (tagOf : N → Option T) {marks : Marks N T} {es : List (N × T)}
    (hmarks : ∀ n p, marks.get? n = some p → tagOf n = some p.1)
    (hes : ∀ e ∈ es, tagOf e.1 = some e.2) : ∃ marks', enqueueAll marks es = some marks' := by
  induction es generalizing marks with
  | nil => exact ⟨marks, rfl⟩
  | cons e es ih =>
    have he := hes e List.mem_cons_self
    obtain ⟨mid, hmid⟩ : ∃ mid, enqueue marks e = some mid := by
      unfold enqueue
      cases hget : marks.get? e.1 with
      | none => exact ⟨_, rfl⟩
      | some p =>
        have htag := hmarks e.1 p hget
        rw [he] at htag
        exact ⟨marks, if_pos (Option.some.inj htag).symm⟩
    have hmid' : ∀ n p, mid.get? n = some p → tagOf n = some p.1 := by
      intro n p hp
      rw [get?_enqueue hmid] at hp
      split_ifs at hp with hn
      · obtain ⟨b, hb⟩ := tag_of_enqueue hmid
        rw [get?_enqueue hmid, if_pos rfl, ← hn, hp] at hb
        rw [hn, he, Option.some.inj hb]
      · exact hmarks n p hp
    obtain ⟨marks', h⟩ := ih hmid' fun e' he' => hes e' (List.mem_cons_of_mem e he')
    exact ⟨marks', Option.bind_eq_some_iff.mpr ⟨mid, hmid, h⟩⟩

/-- **One more stop.** -/
theorem Inv.visit {root : N × T} {stops : List (Stop N T)} {marks marks' : Marks N T}
    (h : Inv root stops marks) {s : Stop N T} (hpending : marks.get? s.node = some (s.tag, false))
    (hnamed : enqueueAll marks s.edges = some marks') :
    Inv root (stops ++ [s]) (settle marks' s.node) := by
  have hspec := enqueueAll_spec hnamed
  have hself : marks'.get? s.node = some (s.tag, false) := ((hspec s.node).1 _ hpending).1
  have hfresh : s.node ∉ stops.map Stop.node := by
    intro hmem
    obtain ⟨p, hp, hnode⟩ := List.mem_map.mp hmem
    have hvisited := (h.visited p.node p.tag).mpr ⟨p, hp, rfl, rfl⟩
    rw [hnode, hpending] at hvisited
    exact absurd hvisited (by simp)
  -- Naming keeps what was there and adds what the stop names.
  have hadded : ∀ n t, (∃ b, marks'.get? n = some (t, b)) ↔
      (∃ b, marks.get? n = some (t, b)) ∨ (n, t) ∈ s.edges := by
    intro n t
    obtain ⟨hkept, hnew⟩ := hspec n
    cases hget : marks.get? n with
    | none =>
      obtain ⟨hadd, honly⟩ := hnew hget
      constructor
      · rintro ⟨b, hb⟩
        exact Or.inr (honly t b hb).1
      · rintro (⟨b, hb⟩ | ht)
        · exact absurd hb (by simp)
        · exact ⟨false, hadd t ht⟩
    | some p =>
      obtain ⟨hlast, htags⟩ := hkept p hget
      constructor
      · rintro ⟨b, hb⟩
        rw [hlast] at hb
        exact Or.inl ⟨b, hb⟩
      · rintro (⟨b, hb⟩ | ht)
        · exact ⟨b, hb ▸ hlast⟩
        · exact ⟨p.2, by rw [hlast, htags t ht]⟩
  have hvisited' : ∀ n t, marks'.get? n = some (t, true) ↔ marks.get? n = some (t, true) := by
    intro n t
    obtain ⟨hkept, hnew⟩ := hspec n
    cases hget : marks.get? n with
    | none =>
      constructor
      · intro hb
        exact absurd ((hnew hget).2 t true hb).2 (by simp)
      · intro hb
        exact absurd hb (by simp)
    | some p => rw [(hkept p hget).1]
  constructor
  · intro n t
    have hsettle : (∃ b, (settle marks' s.node).get? n = some (t, b)) ↔
        ∃ b, marks'.get? n = some (t, b) := by
      rw [get?_settle]
      split_ifs with hn
      · rw [hn, hself]
        simp
      · rfl
    rw [hsettle, hadded, h.named]
    simp only [List.mem_append, List.mem_singleton]
    constructor
    · rintro ((hroot | ⟨p, hp, hedge⟩) | hedge)
      · exact Or.inl hroot
      · exact Or.inr ⟨p, Or.inl hp, hedge⟩
      · exact Or.inr ⟨s, Or.inr rfl, hedge⟩
    · rintro (hroot | ⟨p, hp | rfl, hedge⟩)
      · exact Or.inl (Or.inl hroot)
      · exact Or.inl (Or.inr ⟨p, hp, hedge⟩)
      · exact Or.inr hedge
  · intro n t
    rw [get?_settle]
    simp only [List.mem_append, List.mem_singleton]
    split_ifs with hn
    · rw [hself, hn]
      constructor
      · intro heq
        obtain ⟨rfl, -⟩ := Prod.mk.inj (Option.some.inj heq)
        exact ⟨s, Or.inr rfl, rfl, rfl⟩
      · rintro ⟨p, hp | rfl, hnode, htag⟩
        · exact absurd (List.mem_map.mpr ⟨p, hp, hnode⟩) hfresh
        · rw [htag]
          rfl
    · rw [hvisited', h.visited]
      constructor
      · rintro ⟨p, hp, hrest⟩
        exact ⟨p, Or.inl hp, hrest⟩
      · rintro ⟨p, hp | rfl, hnode, htag⟩
        · exact ⟨p, hp, hnode, htag⟩
        · exact absurd hnode.symm hn
  · rw [List.map_append, List.map_singleton]
    rw [← List.concat_eq_append]
    exact List.Nodup.concat hfresh h.nodup
  · intro before q after heq
    rcases List.eq_nil_or_concat after with rfl | ⟨after', r, rfl⟩
    · obtain ⟨rfl, hq⟩ := List.append_inj' heq rfl
      obtain rfl := (List.cons.inj hq).1
      exact (h.named s.node s.tag).mp ⟨false, hpending⟩
    · have heq' : stops ++ [s] = (before ++ q :: after') ++ [r] := by simpa using heq
      obtain ⟨hstops, -⟩ := List.append_inj' heq' rfl
      exact h.introduced before q after' hstops

/-- **What the table says after a tour.** -/
theorem Inv.visits {root : N × T} {stops rest : List (Stop N T)} {marks last : Marks N T}
    (h : Inv root stops marks) (hrest : Visits marks rest last) :
    Inv root (stops ++ rest) last := by
  induction hrest generalizing stops with
  | nil marks => simpa using h
  | cons hpending hnamed _ ih =>
    have := ih (h.visit hpending hnamed)
    simpa using this

/-- A stop that is visited once more leaves the table as it is. -/
theorem Inv.revisit {root : N × T} {stops : List (Stop N T)} {marks marks' : Marks N T}
    (h : Inv root stops marks) {s : Stop N T} (hs : s ∈ stops)
    (hnamed : enqueueAll marks s.edges = some marks') : settle marks' s.node = marks := by
  -- What the stop names was named when it was visited.
  have hsame : marks' = marks := by
    apply OrdMap.ext_get?
    intro n
    obtain ⟨hkept, hnew⟩ := enqueueAll_spec hnamed n
    cases hget : marks.get? n with
    | some p => exact (hkept p hget).1
    | none =>
      cases hget' : marks'.get? n with
      | none => rfl
      | some p =>
        have hedge := ((hnew hget).2 p.1 p.2 hget').1
        obtain ⟨b, hb⟩ := (h.named n p.1).mpr (Or.inr ⟨s, hs, hedge⟩)
        rw [hget] at hb
        exact absurd hb (by simp)
  have hvisited := (h.visited s.node s.tag).mpr ⟨s, hs, rfl, rfl⟩
  apply OrdMap.ext_get?
  intro n
  rw [hsame, get?_settle]
  split_ifs with hn
  · rw [hn, hvisited]
    rfl
  · rfl

end Tour
