import Mathlib
import Furrow.Lib.OrdMap

set_option relaxedAutoImplicit false
set_option autoImplicit false

/-!
# Marking with masks

A marker visits the nodes of a graph from some roots.  Every mark carries a mask from a join
semilattice, a node hands masks on to its successors, and a node whose mask has grown is visited
again.  The result is the least set of marks that contains the roots and is closed under the
edges, whatever the order of the visits.

## Main definitions

* `Marking.Reaches` — the least set of marks.
* `Marking.enqueue`, `Marking.next`, `Marking.settle`, `Marking.run` — the marker.

## Main results

* `Marking.run_spec` — the marker ends with the least set of marks, or a reached node has no
  successors to read.
* `Marking.Inv.unique`, `Marking.acc_visit` — visits in any order end, and with the same marks.
* `Marking.Reaches.mono` — fewer roots with smaller masks reach less.
* `Marking.readable_of_each` — roots that are readable one by one are readable together.
-/

namespace Marking

variable {N T M ε : Type}

/-- A node to visit, with what is expected of it and the mask it is reached with. -/
structure Edge (N T M : Type) where
  node : N
  tag : T
  mask : M

/-- The mark of a node: what is expected of it, all masks it was reached with, and whether it
has been visited with them. -/
structure Mark (T M : Type) where
  tag : T
  mask : M
  processed : Bool

/-- The marks of a run. -/
abbrev Marks (N T M : Type) [LinearOrder N] := OrdMap N (Mark T M)

section Reaches

variable [SemilatticeSup M] (expand : N → T → M → Except ε (List (Edge N T M)))

/-- The least set of marks that contains the roots and is closed under edges and joins. -/
inductive Reaches (roots : List (Edge N T M)) : N → T → M → Prop
  | root {e : Edge N T M} (h : e ∈ roots) : Reaches roots e.node e.tag e.mask
  | step {n : N} {t : T} {m : M} {es : List (Edge N T M)} {e : Edge N T M}
      (h : Reaches roots n t m) (hes : expand n t m = .ok es) (he : e ∈ es) :
      Reaches roots e.node e.tag e.mask
  | join {n : N} {t : T} {m m' : M} (h : Reaches roots n t m) (h' : Reaches roots n t m') :
      Reaches roots n t (m ⊔ m')

/-- What the marker relies on: whether a node can be read does not depend on the mask, a larger
mask finds at least as much, every node is expected to be one thing, and a node does not add to
its own mask. -/
structure Lawful (tagOf : N → T) : Prop where
  total : ∀ {n t m es}, expand n t m = .ok es → ∀ m', ∃ es', expand n t m' = .ok es'
  mono : ∀ {n t m m' es}, m ≤ m' → expand n t m = .ok es →
    ∃ es', expand n t m' = .ok es' ∧
      ∀ e ∈ es, ∃ e' ∈ es', e'.node = e.node ∧ e'.tag = e.tag ∧ e.mask ≤ e'.mask
  tag : ∀ {n m es}, expand n (tagOf n) m = .ok es → ∀ e ∈ es, e.tag = tagOf e.node
  self : ∀ {n m es}, expand n (tagOf n) m = .ok es → ∀ e ∈ es, e.node = n → e.mask ≤ m

variable {expand} {tagOf : N → T} {roots : List (Edge N T M)}

/-- A reached node is expected to be what it is. -/
theorem Reaches.tag_eq (hlaw : Lawful expand tagOf) (hroots : ∀ e ∈ roots, e.tag = tagOf e.node)
    {n : N} {t : T} {m : M} (h : Reaches expand roots n t m) : t = tagOf n := by
  induction h with
  | root h => exact hroots _ h
  | step h hes he ih =>
    subst ih
    exact hlaw.tag hes _ he
  | join h h' ih ih' => exact ih

/-- **Fewer roots with smaller masks reach less.** -/
theorem Reaches.mono (hlaw : Lawful expand tagOf) {roots' : List (Edge N T M)}
    (hroots : ∀ e ∈ roots, ∃ m, Reaches expand roots' e.node e.tag m ∧ e.mask ≤ m)
    {n : N} {t : T} {m : M} (h : Reaches expand roots n t m) :
    ∃ m', Reaches expand roots' n t m' ∧ m ≤ m' := by
  induction h with
  | root h => exact hroots _ h
  | step h hes he ih =>
    obtain ⟨m', hm', hle⟩ := ih
    obtain ⟨es', hes', hall⟩ := hlaw.mono hle hes
    obtain ⟨e', he', hnode, htag, hmask⟩ := hall _ he
    refine ⟨e'.mask, ?_, hmask⟩
    rw [← hnode, ← htag]
    exact .step hm' hes' he'
  | join h h' ih ih' =>
    obtain ⟨m₁, h₁, hle₁⟩ := ih
    obtain ⟨m₂, h₂, hle₂⟩ := ih'
    exact ⟨m₁ ⊔ m₂, .join h₁ h₂, sup_le_sup hle₁ hle₂⟩

/-! ## Graphs that can be read to the end -/

variable (expand) in
/-- Everything that is reached can be read. -/
def Readable (roots : List (Edge N T M)) : Prop :=
  ∀ n t m, Reaches expand roots n t m → ∃ es, expand n t m = .ok es

/-- A graph stays readable when nodes that are not reached change. -/
theorem Readable.congr {expand' : N → T → M → Except ε (List (Edge N T M))}
    (h : Readable expand roots)
    (hsame : ∀ n t m, Reaches expand roots n t m → expand' n t m = expand n t m) :
    Readable expand' roots := by
  have hback : ∀ n t m, Reaches expand' roots n t m → Reaches expand roots n t m := by
    intro n t m hr
    induction hr with
    | root he => exact .root he
    | step hr hes he ih => exact .step ih (hsame _ _ _ ih ▸ hes) he
    | join hr hr' ih ih' => exact .join ih ih'
  intro n t m hr
  rw [hsame n t m (hback n t m hr)]
  exact h n t m (hback n t m hr)

/-- Fewer roots with smaller masks are readable too. -/
theorem Readable.mono (hlaw : Lawful expand tagOf) {roots' : List (Edge N T M)}
    (h : Readable expand roots')
    (hroots : ∀ e ∈ roots, ∃ m, Reaches expand roots' e.node e.tag m ∧ e.mask ≤ m) :
    Readable expand roots := by
  intro n t m hr
  obtain ⟨m', hr', -⟩ := hr.mono hlaw hroots
  obtain ⟨es, hes⟩ := h n t m' hr'
  exact hlaw.total hes m

variable (expand) in
/-- What a join of masks finds at a node, its parts find. -/
def Splits : Prop :=
  ∀ {n t m m' es es₁ es₂}, expand n t (m ⊔ m') = .ok es → expand n t m = .ok es₁ →
    expand n t m' = .ok es₂ → ∀ e ∈ es,
      (∃ e₁ ∈ es₁, e₁.node = e.node ∧ e₁.tag = e.tag ∧ e.mask ≤ e₁.mask) ∨
      (∃ e₂ ∈ es₂, e₂.node = e.node ∧ e₂.tag = e.tag ∧ e.mask ≤ e₂.mask) ∨
      ∃ e₁ ∈ es₁, ∃ e₂ ∈ es₂, (e₁.node = e.node ∧ e₁.tag = e.tag) ∧
        (e₂.node = e.node ∧ e₂.tag = e.tag) ∧ e.mask ≤ e₁.mask ⊔ e₂.mask

variable (expand) in
/-- Marks that can be read, and whose successors are such marks again. -/
structure Closed (good : N → T → M → Prop) : Prop where
  expands : ∀ {n t m}, good n t m → ∃ es, expand n t m = .ok es
  step : ∀ {n t m es}, good n t m → expand n t m = .ok es → ∀ e ∈ es, good e.node e.tag e.mask

/-- A mark below a join of good marks. -/
inductive Built (good : N → T → M → Prop) : N → T → M → Prop
  | good {n : N} {t : T} {m : M} (h : good n t m) : Built good n t m
  | join {n : N} {t : T} {m m' : M} (h : Built good n t m) (h' : Built good n t m') :
      Built good n t (m ⊔ m')
  | le {n : N} {t : T} {m m' : M} (h : Built good n t m') (hle : m ≤ m') : Built good n t m

section Built

variable {good : N → T → M → Prop}

/-- A node built under closed rules expands under every tag and mask it was built for. -/
theorem Built.expands (hlaw : Lawful expand tagOf) (hclosed : Closed expand good) {n : N} {t : T}
    {m : M} (h : Built good n t m) : ∃ es, expand n t m = .ok es := by
  induction h with
  | good h => exact hclosed.expands h
  | join h h' ih ih' =>
    obtain ⟨es, hes⟩ := ih
    exact hlaw.total hes _
  | le h hle ih =>
    obtain ⟨es, hes⟩ := ih
    exact hlaw.total hes _

/-- The successors of such a mark are such marks. -/
theorem Built.step (hlaw : Lawful expand tagOf) (hsplit : Splits expand)
    (hclosed : Closed expand good) {n : N} {t : T} {m : M} (h : Built good n t m)
    {es : List (Edge N T M)} (hes : expand n t m = .ok es) {e : Edge N T M} (he : e ∈ es) :
    Built good e.node e.tag e.mask := by
  induction h generalizing es e with
  | good h => exact .good (hclosed.step h hes e he)
  | join h h' ih ih' =>
    obtain ⟨es₁, hes₁⟩ := h.expands hlaw hclosed
    obtain ⟨es₂, hes₂⟩ := h'.expands hlaw hclosed
    rcases hsplit hes hes₁ hes₂ e he with ⟨e₁, he₁, hnode, htag, hle⟩ |
      ⟨e₂, he₂, hnode, htag, hle⟩ | ⟨e₁, he₁, e₂, he₂, ⟨hnode₁, htag₁⟩, ⟨hnode₂, htag₂⟩, hle⟩
    · rw [← hnode, ← htag]
      exact .le (ih hes₁ he₁) hle
    · rw [← hnode, ← htag]
      exact .le (ih' hes₂ he₂) hle
    · have h₁ := ih hes₁ he₁
      have h₂ := ih' hes₂ he₂
      rw [hnode₁, htag₁] at h₁
      rw [hnode₂, htag₂] at h₂
      exact .le (.join h₁ h₂) hle
  | le h hle ih =>
    obtain ⟨es', hes', hall⟩ := hlaw.mono hle hes
    obtain ⟨e', he', hnode, htag, hmask⟩ := hall e he
    rw [← hnode, ← htag]
    exact .le (ih hes' he') hmask

/-- What is reached from good roots is below a join of good marks. -/
theorem Reaches.built (hlaw : Lawful expand tagOf) (hsplit : Splits expand)
    (hclosed : Closed expand good) (hroots : ∀ e ∈ roots, good e.node e.tag e.mask)
    {n : N} {t : T} {m : M} (h : Reaches expand roots n t m) : Built good n t m := by
  induction h with
  | root he => exact .good (hroots _ he)
  | step hr hes he ih => exact ih.step hlaw hsplit hclosed hes he
  | join hr hr' ih ih' => exact .join ih ih'

/-- A node that is built has a mask under which it is good. -/
theorem Built.exists_good {n : N} {t : T} {m : M} (h : Built good n t m) :
    ∃ m', good n t m' := by
  induction h with
  | good h => exact ⟨_, h⟩
  | join h h' ih ih' => exact ih
  | le h hle ih => exact ih

/-- **Good roots are readable**, also where their masks are joined. -/
theorem readable_of_closed (hlaw : Lawful expand tagOf) (hsplit : Splits expand)
    (hclosed : Closed expand good) (h : ∀ e ∈ roots, good e.node e.tag e.mask) :
    Readable expand roots :=
  fun _ _ _ hr => (hr.built hlaw hsplit hclosed h).expands hlaw hclosed

end Built

/-- A root that is readable can be read. -/
theorem Readable.expands {e : Edge N T M} (h : Readable expand [e]) :
    ∃ es, expand e.node e.tag e.mask = .ok es :=
  h _ _ _ (.root (List.mem_singleton_self e))

/-- What a readable root leads to is readable. -/
theorem Readable.step (hlaw : Lawful expand tagOf) {e e' : Edge N T M}
    (h : Readable expand [e]) {es : List (Edge N T M)}
    (hes : expand e.node e.tag e.mask = .ok es) (he' : e' ∈ es) : Readable expand [e'] := by
  refine h.mono hlaw fun e'' he'' => ?_
  rw [List.mem_singleton.mp he'']
  exact ⟨e'.mask, .step (.root (List.mem_singleton_self e)) hes he', le_refl _⟩

/-- **Roots that are readable one by one are readable together.** -/
theorem readable_of_each (hlaw : Lawful expand tagOf) (hsplit : Splits expand)
    (h : ∀ e ∈ roots, Readable expand [e]) : Readable expand roots := by
  have hclosed : Closed expand fun n t m => Readable expand [⟨n, t, m⟩] :=
    ⟨fun hr => hr.expands, fun hr hes e he => hr.step hlaw hes he⟩
  exact readable_of_closed hlaw hsplit hclosed h

end Reaches

section Marks

variable [LinearOrder N]

/-- The first pending node. -/
def next (marks : Marks N T M) : Option (N × Mark T M) :=
  marks.toList.find? fun p => !p.2.processed

/-- The node has been visited. -/
def settle (marks : Marks N T M) (n : N) : Marks N T M :=
  match marks.get? n with
  | none => marks
  | some k => marks.insert n { k with processed := true }

/-- The marks after settling a node. -/
theorem get?_settle (marks : Marks N T M) (n n' : N) :
    (settle marks n).get? n' =
      if n' = n then (marks.get? n).map fun k => { k with processed := true }
      else marks.get? n' := by
  unfold settle
  cases hk : marks.get? n with
  | none =>
    by_cases hn : n' = n
    · subst hn
      simp [hk]
    · simp [hn]
  | some k =>
    by_cases hn : n' = n <;> simp [OrdMap.get?_insert, hn]

/-- The pending node that is picked. -/
theorem next_eq_some {marks : Marks N T M} {n : N} {k : Mark T M} (h : next marks = some (n, k)) :
    marks.get? n = some k ∧ k.processed = false := by
  refine ⟨(marks.mem_toList_iff).mp (List.mem_of_find?_eq_some h), ?_⟩
  simpa using List.find?_some h

/-- Nothing is pending when every mark is settled. -/
theorem next_eq_none {marks : Marks N T M} (h : next marks = none) {n : N} {k : Mark T M}
    (hk : marks.get? n = some k) : k.processed = true := by
  have hall := List.find?_eq_none.mp h (n, k) ((marks.mem_toList_iff).mpr hk)
  simpa using hall

end Marks

section Run

variable [LinearOrder N] [SemilatticeSup M] [DecidableEq M]

/-- Mark a node.  A mask that says something new makes it pending again; what is expected of the
node stays as it was first. -/
def enqueue (marks : Marks N T M) (e : Edge N T M) : Marks N T M :=
  match marks.get? e.node with
  | none => marks.insert e.node ⟨e.tag, e.mask, false⟩
  | some k =>
    if k.mask ⊔ e.mask = k.mask then marks
    else marks.insert e.node ⟨k.tag, k.mask ⊔ e.mask, false⟩

variable (expand : N → T → M → Except ε (List (Edge N T M)))

/-- Visit pending nodes until there are none; the first node that cannot be read ends the
run. -/
def run : ℕ → Marks N T M → Except ε (Marks N T M)
  | 0, marks => .ok marks
  | fuel + 1, marks =>
    match next marks with
    | none => .ok marks
    | some (n, k) =>
      match expand n k.tag k.mask with
      | .error e => .error e
      | .ok es => run fuel (settle (es.foldl enqueue marks) n)

/-! ## Marks -/

/-- A node is marked with at least a mask. -/
def Marked (marks : Marks N T M) (n : N) (m : M) : Prop :=
  ∃ k, marks.get? n = some k ∧ m ≤ k.mask

/-- The marks after an enqueue, node by node. -/
theorem get?_enqueue (marks : Marks N T M) (e : Edge N T M) (n : N) :
    (enqueue marks e).get? n =
      if n = e.node then
        match marks.get? n with
        | none => some ⟨e.tag, e.mask, false⟩
        | some k =>
          if k.mask ⊔ e.mask = k.mask then some k else some ⟨k.tag, k.mask ⊔ e.mask, false⟩
      else marks.get? n := by
  unfold enqueue
  by_cases hn : n = e.node
  · subst hn
    cases hk : marks.get? e.node with
    | none => simp [OrdMap.get?_insert]
    | some k =>
      by_cases hle : k.mask ⊔ e.mask = k.mask
      · simp [hk, hle]
      · simp [OrdMap.get?_insert, hle]
  · rw [if_neg hn]
    cases hk : marks.get? e.node with
    | none => simp [OrdMap.get?_insert, hn]
    | some k =>
      by_cases hle : k.mask ⊔ e.mask = k.mask
      · simp [hle]
      · simp [OrdMap.get?_insert, hle, hn]

/-- An enqueue marks its node. -/
theorem marked_enqueue_self (marks : Marks N T M) (e : Edge N T M) :
    Marked (enqueue marks e) e.node e.mask := by
  unfold Marked
  rw [get?_enqueue, if_pos rfl]
  cases hk : marks.get? e.node with
  | none => exact ⟨_, rfl, le_refl _⟩
  | some k =>
    by_cases hle : k.mask ⊔ e.mask = k.mask
    · exact ⟨k, by simp [hle], sup_eq_left.mp hle⟩
    · exact ⟨⟨k.tag, k.mask ⊔ e.mask, false⟩, by simp [hle], le_sup_right⟩

/-- Marks stay and grow. -/
theorem Marked.enqueue {marks : Marks N T M} {n : N} {m : M} (h : Marked marks n m)
    (e : Edge N T M) : Marked (enqueue marks e) n m := by
  obtain ⟨k, hk, hle⟩ := h
  unfold Marked
  rw [get?_enqueue]
  by_cases hn : n = e.node
  · subst hn
    rw [if_pos rfl, hk]
    by_cases hgrow : k.mask ⊔ e.mask = k.mask
    · exact ⟨k, by simp [hgrow], hle⟩
    · exact ⟨⟨k.tag, k.mask ⊔ e.mask, false⟩, by simp [hgrow], hle.trans le_sup_left⟩
  · rw [if_neg hn]
    exact ⟨k, hk, hle⟩

omit [DecidableEq M] in
/-- Settling a node keeps what is marked. -/
theorem Marked.settle {marks : Marks N T M} {n : N} {m : M} (h : Marked marks n m) (n' : N) :
    Marked (settle marks n') n m := by
  obtain ⟨k, hk, hle⟩ := h
  unfold Marked
  rw [get?_settle]
  by_cases hn : n = n'
  · subst hn
    rw [if_pos rfl, hk]
    exact ⟨_, rfl, hle⟩
  · rw [if_neg hn]
    exact ⟨k, hk, hle⟩

/-- Enqueueing edges keeps what is marked. -/
theorem Marked.foldl_enqueue {marks : Marks N T M} {n : N} {m : M} (h : Marked marks n m)
    (es : List (Edge N T M)) : Marked (es.foldl Marking.enqueue marks) n m := by
  induction es generalizing marks with
  | nil => exact h
  | cons e es ih => exact ih (h.enqueue e)

/-- Enqueueing a list marks all of it. -/
theorem marked_foldl_enqueue (marks : Marks N T M) {es : List (Edge N T M)} {e : Edge N T M}
    (he : e ∈ es) : Marked (es.foldl Marking.enqueue marks) e.node e.mask := by
  induction es generalizing marks with
  | nil => exact absurd he List.not_mem_nil
  | cons e' es ih =>
    rcases List.mem_cons.mp he with rfl | he
    · exact (marked_enqueue_self marks _).foldl_enqueue es
    · exact ih _ he

/-- Enqueueing what a node is marked with already changes nothing there. -/
theorem get?_foldl_enqueue_of_le {marks : Marks N T M} {n : N} {k : Mark T M}
    (hk : marks.get? n = some k) {es : List (Edge N T M)}
    (h : ∀ e ∈ es, e.node = n → e.mask ≤ k.mask) :
    (es.foldl enqueue marks).get? n = some k := by
  induction es generalizing marks with
  | nil => exact hk
  | cons e es ih =>
    refine ih ?_ fun e' he' => h e' (List.mem_cons_of_mem _ he')
    rw [get?_enqueue]
    by_cases hn : n = e.node
    · have hle : k.mask ⊔ e.mask = k.mask := sup_eq_left.mpr (h e List.mem_cons_self hn.symm)
      rw [if_pos hn, hk]
      simp [hle]
    · rw [if_neg hn, hk]

/-- A mark that is settled after enqueueing was there before. -/
theorem get?_of_foldl_enqueue {marks : Marks N T M} {es : List (Edge N T M)} {n : N}
    {k : Mark T M} (h : (es.foldl enqueue marks).get? n = some k) (hk : k.processed = true) :
    marks.get? n = some k := by
  induction es generalizing marks with
  | nil => exact h
  | cons e es ih =>
    have hstep := ih h
    rw [get?_enqueue] at hstep
    split_ifs at hstep with hn
    · cases hold : marks.get? n with
      | none =>
        rw [hold] at hstep
        rw [← Option.some.inj hstep] at hk
        exact absurd hk (by simp)
      | some k' =>
        rw [hold] at hstep
        simp only at hstep
        split_ifs at hstep with hle
        · exact hstep
        · rw [← Option.some.inj hstep] at hk
          exact absurd hk (by simp)
    · exact hstep

/-! ## The invariant of a run -/

variable {expand} {tagOf : N → T} {roots : List (Edge N T M)}

variable (expand roots) in
/-- The invariant: every mark is reached, the roots are marked, and so are the successors of
settled nodes. -/
structure Inv (marks : Marks N T M) : Prop where
  sound : ∀ n k, marks.get? n = some k → Reaches expand roots n k.tag k.mask
  covers : ∀ e ∈ roots, Marked marks e.node e.mask
  closed : ∀ n k, marks.get? n = some k → k.processed = true →
    ∃ es, expand n k.tag k.mask = .ok es ∧ ∀ e ∈ es, Marked marks e.node e.mask

/-- Enqueueing what is reached leaves only marks that are reached. -/
theorem sound_foldl_enqueue (hlaw : Lawful expand tagOf)
    (hroots : ∀ e ∈ roots, e.tag = tagOf e.node) {marks : Marks N T M}
    (h : ∀ n k, marks.get? n = some k → Reaches expand roots n k.tag k.mask)
    {es : List (Edge N T M)} (hes : ∀ e ∈ es, Reaches expand roots e.node e.tag e.mask)
    (n : N) (k : Mark T M) (hk : (es.foldl enqueue marks).get? n = some k) :
    Reaches expand roots n k.tag k.mask := by
  induction es generalizing marks with
  | nil => exact h n k hk
  | cons e es ih =>
    refine ih (fun n k hk => ?_) (fun e' he' => hes e' (List.mem_cons_of_mem _ he')) hk
    have he := hes e List.mem_cons_self
    rw [get?_enqueue] at hk
    split_ifs at hk with hn
    · subst hn
      cases hold : marks.get? e.node with
      | none =>
        rw [hold] at hk
        rw [← Option.some.inj hk]
        exact he
      | some k' =>
        have hk' := h e.node k' hold
        have htag : e.tag = k'.tag :=
          (he.tag_eq hlaw hroots).trans (hk'.tag_eq hlaw hroots).symm
        rw [hold] at hk
        simp only at hk
        split_ifs at hk with hle
        · rw [← Option.some.inj hk]
          exact hk'
        · rw [← Option.some.inj hk]
          rw [htag] at he
          exact .join hk' he
    · exact h n k hk

/-- The invariant holds when the roots are enqueued. -/
theorem inv_roots (hlaw : Lawful expand tagOf) (hroots : ∀ e ∈ roots, e.tag = tagOf e.node) :
    Inv expand roots (roots.foldl enqueue (.empty : Marks N T M)) := by
  refine ⟨fun n k hk => ?_, fun e he => marked_foldl_enqueue _ he, fun n k hk hp => ?_⟩
  · exact sound_foldl_enqueue hlaw hroots (fun n k h => absurd h (by simp))
      (fun e he => .root he) n k hk
  · exact absurd (get?_of_foldl_enqueue hk hp) (by simp)

/-- **One visit keeps the invariant.** -/
theorem Inv.visit (hlaw : Lawful expand tagOf) (hroots : ∀ e ∈ roots, e.tag = tagOf e.node)
    {marks : Marks N T M} (h : Inv expand roots marks) {n : N} {k : Mark T M}
    (hk : marks.get? n = some k) {es : List (Edge N T M)} (hes : expand n k.tag k.mask = .ok es) :
    Inv expand roots (settle (es.foldl enqueue marks) n) := by
  have hreach := h.sound n k hk
  have htag := hreach.tag_eq hlaw hroots
  have hself : (es.foldl enqueue marks).get? n = some k :=
    get?_foldl_enqueue_of_le hk (hlaw.self (htag ▸ hes))
  have hnew : ∀ e ∈ es, Reaches expand roots e.node e.tag e.mask :=
    fun e he => .step hreach hes he
  have hsound := sound_foldl_enqueue hlaw hroots h.sound hnew
  refine ⟨fun n' k' hk' => ?_, fun e he => ((h.covers e he).foldl_enqueue es).settle n,
    fun n' k' hk' hp => ?_⟩
  · rw [get?_settle] at hk'
    split_ifs at hk' with hn
    · rw [hself] at hk'
      rw [← Option.some.inj hk', hn]
      exact hreach
    · exact hsound n' k' hk'
  · rw [get?_settle] at hk'
    split_ifs at hk' with hn
    · rw [hself] at hk'
      rw [← Option.some.inj hk', hn]
      exact ⟨es, hes, fun e he => (marked_foldl_enqueue marks he).settle n⟩
    · obtain ⟨es', hes', hall⟩ := h.closed n' k' (get?_of_foldl_enqueue hk' hp) hp
      exact ⟨es', hes', fun e he => ((hall e he).foldl_enqueue es).settle n⟩

/-- **A run keeps the invariant**, and if it fails, a reached node could not be read. -/
theorem Inv.run (hlaw : Lawful expand tagOf) (hroots : ∀ e ∈ roots, e.tag = tagOf e.node)
    {marks : Marks N T M} (h : Inv expand roots marks) (fuel : ℕ) :
    (∃ marks', Marking.run expand fuel marks = .ok marks' ∧ Inv expand roots marks') ∨
      ∃ e n t m, Marking.run expand fuel marks = .error e ∧ Reaches expand roots n t m ∧
        expand n t m = .error e := by
  induction fuel generalizing marks with
  | zero => exact Or.inl ⟨marks, rfl, h⟩
  | succ fuel ih =>
    rw [Marking.run]
    cases hnext : next marks with
    | none => exact Or.inl ⟨marks, rfl, h⟩
    | some p =>
      obtain ⟨n, k⟩ := p
      have hk := (next_eq_some hnext).1
      simp only
      cases hes : expand n k.tag k.mask with
      | error e => exact Or.inr ⟨e, n, k.tag, k.mask, rfl, h.sound n k hk, hes⟩
      | ok es => exact ih (h.visit hlaw hroots hk hes)

omit [DecidableEq M] in
/-- A settled set of marks contains everything that is reached. -/
theorem Inv.complete (hlaw : Lawful expand tagOf) (hroots : ∀ e ∈ roots, e.tag = tagOf e.node)
    {marks : Marks N T M} (h : Inv expand roots marks) (hdone : next marks = none)
    {n : N} {t : T} {m : M} (hreach : Reaches expand roots n t m) : Marked marks n m := by
  induction hreach with
  | root he => exact h.covers _ he
  | step hr hes he ih =>
    obtain ⟨k, hk, hle⟩ := ih
    obtain ⟨es', hes', hall⟩ := h.closed _ k hk (next_eq_none hdone hk)
    have htag := (hr.tag_eq hlaw hroots).trans ((h.sound _ k hk).tag_eq hlaw hroots).symm
    rw [htag] at hes
    obtain ⟨es'', hes'', hmono⟩ := hlaw.mono hle hes
    rw [hes'] at hes''
    obtain ⟨e', he', hnode, -, hmask⟩ := hmono _ he
    obtain ⟨k', hk', hle'⟩ := hall e' (Except.ok.inj hes'' ▸ he')
    exact ⟨k', hnode ▸ hk', hmask.trans hle'⟩
  | join hr hr' ih ih' =>
    obtain ⟨k, hk, hle⟩ := ih
    obtain ⟨k', hk', hle'⟩ := ih'
    rw [hk] at hk'
    rw [← Option.some.inj hk'] at hle'
    exact ⟨k, hk, sup_le hle hle'⟩

/-! ## Enough visits -/

variable {weight : M → ℕ} {bound : ℕ}

variable (weight bound) in
/-- How often a node can still be visited or change. -/
def pot : Option (Mark T M) → ℕ
  | none => 2 * bound + 2
  | some k => 2 * (bound - weight k.mask) + if k.processed then 0 else 1

variable (weight bound) in
/-- How many visits of some nodes there can still be. -/
def potential (nodes : List N) (marks : Marks N T M) : ℕ :=
  (nodes.map fun n => pot weight bound (marks.get? n)).sum

/-- Enqueueing never raises what a node can still do. -/
theorem pot_enqueue_le (hmono : ∀ m m' : M, m < m' → weight m < weight m')
    (hbound : ∀ m, weight m ≤ bound) (marks : Marks N T M) (e : Edge N T M) (n : N) :
    pot weight bound ((enqueue marks e).get? n) ≤ pot weight bound (marks.get? n) := by
  rw [get?_enqueue]
  split_ifs with hn
  · cases hk : marks.get? n with
    | none =>
      simp only [pot, Bool.false_eq_true, if_false]
      omega
    | some k =>
      by_cases hle : k.mask ⊔ e.mask = k.mask
      · simp [hle]
      · have hlt := hmono k.mask (k.mask ⊔ e.mask) (lt_of_le_of_ne le_sup_left (Ne.symm hle))
        have hmax := hbound (k.mask ⊔ e.mask)
        simp only [hle, if_false, pot, Bool.false_eq_true]
        omega
  · exact le_refl _

/-- Enqueueing edges raises no node's potential. -/
theorem pot_foldl_enqueue_le (hmono : ∀ m m' : M, m < m' → weight m < weight m')
    (hbound : ∀ m, weight m ≤ bound) (marks : Marks N T M) (es : List (Edge N T M)) (n : N) :
    pot weight bound ((es.foldl enqueue marks).get? n) ≤ pot weight bound (marks.get? n) := by
  induction es generalizing marks with
  | nil => exact le_refl _
  | cons e es ih => exact (ih _).trans (pot_enqueue_le hmono hbound marks e n)

/-- A visit uses up one of the possible ones. -/
theorem potential_visit_lt (hlaw : Lawful expand tagOf)
    (hroots : ∀ e ∈ roots, e.tag = tagOf e.node)
    (hmono : ∀ m m' : M, m < m' → weight m < weight m') (hbound : ∀ m, weight m ≤ bound)
    {nodes : List N} {marks : Marks N T M} (h : Inv expand roots marks) {n : N} {k : Mark T M}
    (hk : marks.get? n = some k) (hp : k.processed = false) (hn : n ∈ nodes)
    {es : List (Edge N T M)} (hes : expand n k.tag k.mask = .ok es) :
    potential weight bound nodes (settle (es.foldl enqueue marks) n) <
      potential weight bound nodes marks := by
  have htag := (h.sound n k hk).tag_eq hlaw hroots
  have hself : (es.foldl enqueue marks).get? n = some k :=
    get?_foldl_enqueue_of_le hk (hlaw.self (htag ▸ hes))
  apply List.sum_lt_sum
  · intro n' _
    rw [get?_settle]
    split_ifs with hn'
    · rw [hn', hself, hk]
      simp only [Option.map_some, pot, hp, if_true, Bool.false_eq_true, if_false]
      omega
    · exact pot_foldl_enqueue_le hmono hbound marks es n'
  · refine ⟨n, hn, ?_⟩
    rw [get?_settle, if_pos rfl, hself, hk]
    simp only [Option.map_some, pot, hp, if_true, Bool.false_eq_true, if_false]
    omega

/-- With as many visits as are possible, nothing stays pending. -/
theorem next_of_run (hlaw : Lawful expand tagOf) (hroots : ∀ e ∈ roots, e.tag = tagOf e.node)
    (hmono : ∀ m m' : M, m < m' → weight m < weight m') (hbound : ∀ m, weight m ≤ bound)
    {nodes : List N} (hnodes : ∀ n t m es, expand n t m = .ok es → n ∈ nodes)
    {marks marks' : Marks N T M} (h : Inv expand roots marks) {fuel : ℕ}
    (hfuel : potential weight bound nodes marks < fuel)
    (hrun : run expand fuel marks = .ok marks') : next marks' = none := by
  induction fuel generalizing marks with
  | zero => exact absurd hfuel (Nat.not_lt_zero _)
  | succ fuel ih =>
    rw [run] at hrun
    cases hnext : next marks with
    | none =>
      rw [hnext] at hrun
      rwa [← Except.ok.inj hrun]
    | some p =>
      obtain ⟨n, k⟩ := p
      obtain ⟨hk, hp⟩ := next_eq_some hnext
      rw [hnext] at hrun
      simp only at hrun
      cases hes : expand n k.tag k.mask with
      | error e =>
        rw [hes] at hrun
        exact absurd hrun (by simp)
      | ok es =>
        rw [hes] at hrun
        have hlt := potential_visit_lt hlaw hroots hmono hbound h hk hp
          (hnodes n k.tag k.mask es hes) hes
        exact ih (h.visit hlaw hroots hk hes) (by omega) hrun

variable (weight bound) in
omit [SemilatticeSup M] [DecidableEq M] in
/-- A node that is not marked yet can still do the most. -/
theorem potential_le (marks : Marks N T M) (nodes : List N) :
    potential weight bound nodes marks ≤ nodes.length * (2 * bound + 2) := by
  have hle : ∀ x ∈ nodes.map fun n => pot weight bound (marks.get? n), x ≤ 2 * bound + 2 := by
    intro x hx
    obtain ⟨n, -, rfl⟩ := List.mem_map.mp hx
    unfold pot
    split
    · exact le_refl _
    · split_ifs <;> omega
  have hsum := List.sum_le_card_nsmul _ _ hle
  rwa [List.length_map, smul_eq_mul] at hsum

/-- A run that succeeds ends with settled marks. -/
theorem settled_of_run (hlaw : Lawful expand tagOf) (hroots : ∀ e ∈ roots, e.tag = tagOf e.node)
    (hmono : ∀ m m' : M, m < m' → weight m < weight m') (hbound : ∀ m, weight m ≤ bound)
    {nodes : List N} (hnodes : ∀ n t m es, expand n t m = .ok es → n ∈ nodes) {fuel : ℕ}
    (hfuel : nodes.length * (2 * bound + 2) < fuel) {marks : Marks N T M}
    (hrun : run expand fuel (roots.foldl enqueue .empty) = .ok marks) :
    Inv expand roots marks ∧ next marks = none := by
  have hinit : Inv expand roots (roots.foldl enqueue .empty) := inv_roots hlaw hroots
  have hpot := potential_le weight bound (roots.foldl enqueue (.empty : Marks N T M)) nodes
  have hdone := next_of_run hlaw hroots hmono hbound hnodes hinit (by omega) hrun
  rcases hinit.run hlaw hroots fuel with ⟨marks', hrun', hinv⟩ | ⟨e, n, t, m, hrun', -⟩
  · rw [hrun] at hrun'
    rw [Except.ok.inj hrun']
    exact ⟨hinv, Except.ok.inj hrun' ▸ hdone⟩
  · rw [hrun] at hrun'
    exact absurd hrun' (by simp)

/-- **The marker computes the least set of marks.**  It ends with exactly the marks that are
reached, each with the largest mask it is reached with; or it fails, and then some reached node
cannot be read.

**Proof sketch.** `Inv` is kept by every visit.  Every visit lowers the number of visits that
are still possible, so that nothing is pending at the end, and a settled set of marks is closed
under the edges. -/
theorem run_spec (hlaw : Lawful expand tagOf) (hroots : ∀ e ∈ roots, e.tag = tagOf e.node)
    (hmono : ∀ m m' : M, m < m' → weight m < weight m') (hbound : ∀ m, weight m ≤ bound)
    {nodes : List N} (hnodes : ∀ n t m es, expand n t m = .ok es → n ∈ nodes) {fuel : ℕ}
    (hfuel : nodes.length * (2 * bound + 2) < fuel) :
    (∃ marks, run expand fuel (roots.foldl enqueue .empty) = .ok marks ∧
        (∀ n k, marks.get? n = some k → Reaches expand roots n k.tag k.mask) ∧
        (∀ n t m, Reaches expand roots n t m → Marked marks n m) ∧
        ∀ n t m, Reaches expand roots n t m → ∃ es, expand n t m = .ok es) ∨
      ∃ e n t m, run expand fuel (roots.foldl enqueue .empty) = .error e ∧
        Reaches expand roots n t m ∧ expand n t m = .error e := by
  have hinit : Inv expand roots (roots.foldl enqueue .empty) := inv_roots hlaw hroots
  rcases hinit.run hlaw hroots fuel with ⟨marks, hrun, -⟩ | hfail
  · left
    obtain ⟨hinv, hdone⟩ := settled_of_run hlaw hroots hmono hbound hnodes hfuel hrun
    refine ⟨marks, hrun, hinv.sound, fun n t m h => hinv.complete hlaw hroots hdone h, ?_⟩
    intro n t m h
    obtain ⟨k, hk, -⟩ := hinv.complete hlaw hroots hdone h
    obtain ⟨es, hes, -⟩ := hinv.closed n k hk (next_eq_none hdone hk)
    have htag := (h.tag_eq hlaw hroots).trans ((hinv.sound n k hk).tag_eq hlaw hroots).symm
    rw [htag]
    exact hlaw.total hes m
  · exact Or.inr hfail

/-! ## Any order -/

variable (expand) in
/-- One visit, of any pending node. -/
inductive Visit : Marks N T M → Marks N T M → Prop
  | pending {marks : Marks N T M} {n : N} {k : Mark T M} {es : List (Edge N T M)}
      (hk : marks.get? n = some k) (hp : k.processed = false)
      (hes : expand n k.tag k.mask = .ok es) : Visit marks (settle (es.foldl enqueue marks) n)

/-- Visits in any order keep the invariant. -/
theorem Inv.visits (hlaw : Lawful expand tagOf) (hroots : ∀ e ∈ roots, e.tag = tagOf e.node)
    {marks marks' : Marks N T M} (h : Inv expand roots marks)
    (hrun : Relation.ReflTransGen (Visit expand) marks marks') : Inv expand roots marks' := by
  induction hrun with
  | refl => exact h
  | tail _ hvisit ih =>
    cases hvisit with
    | pending hk hp hes => exact ih.visit hlaw hroots hk hes

omit [DecidableEq M] in
/-- **Settled marks are unique**: they are the nodes that are reached, each with the join of all
masks it is reached with. -/
theorem Inv.unique (hlaw : Lawful expand tagOf) (hroots : ∀ e ∈ roots, e.tag = tagOf e.node)
    {marks marks' : Marks N T M} (h : Inv expand roots marks) (h' : Inv expand roots marks')
    (hdone : next marks = none) (hdone' : next marks' = none) : marks = marks' := by
  have hsome : ∀ {marks marks' : Marks N T M}, Inv expand roots marks →
      Inv expand roots marks' → next marks = none → next marks' = none → ∀ n k,
        marks.get? n = some k → marks'.get? n = some k := by
    intro marks marks' h h' hdone hdone' n k hk
    have hreach := h.sound n k hk
    obtain ⟨k', hk', hle⟩ := h'.complete hlaw hroots hdone' hreach
    have hreach' := h'.sound n k' hk'
    obtain ⟨k'', hk'', hle'⟩ := h.complete hlaw hroots hdone hreach'
    rw [hk] at hk''
    rw [← Option.some.inj hk''] at hle'
    have htag : k'.tag = k.tag :=
      (hreach'.tag_eq hlaw hroots).trans (hreach.tag_eq hlaw hroots).symm
    have hprocessed := next_eq_none hdone hk
    have hprocessed' := next_eq_none hdone' hk'
    obtain ⟨tag, mask, processed⟩ := k
    obtain ⟨tag', mask', processed'⟩ := k'
    dsimp only at hle hle' htag hprocessed hprocessed'
    rw [hk', htag, hprocessed, hprocessed', le_antisymm hle' hle]
  apply OrdMap.ext_get?
  intro n
  cases hk : marks.get? n with
  | some k => exact (hsome h h' hdone hdone' n k hk).symm
  | none =>
    cases hk' : marks'.get? n with
    | none => rfl
    | some k' =>
      rw [hsome h' h hdone' hdone n k' hk'] at hk
      exact absurd hk (by simp)

/-- **Every order of visits ends.** -/
theorem acc_visit (hlaw : Lawful expand tagOf) (hroots : ∀ e ∈ roots, e.tag = tagOf e.node)
    (hmono : ∀ m m' : M, m < m' → weight m < weight m') (hbound : ∀ m, weight m ≤ bound)
    {nodes : List N} (hnodes : ∀ n t m es, expand n t m = .ok es → n ∈ nodes)
    {marks : Marks N T M} (h : Inv expand roots marks) :
    Acc (fun marks' marks => Visit expand marks marks') marks := by
  induction hpot : potential weight bound nodes marks using Nat.strong_induction_on
    generalizing marks with
  | _ p ih =>
    refine Acc.intro _ fun marks' hvisit => ?_
    cases hvisit with
    | pending hk hp hes =>
      have hlt := potential_visit_lt hlaw hroots hmono hbound h hk hp
        (hnodes _ _ _ _ hes) hes
      exact ih _ (hpot ▸ hlt) (h.visit hlaw hroots hk hes) rfl

end Run

end Marking
