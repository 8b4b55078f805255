import Mathlib

set_option relaxedAutoImplicit false
set_option autoImplicit false

/-!
# Greedy paging

Items with an encoded length are put on pages one after the other.  A page starts with a fixed
overhead, items on it are separated by one byte, and a page that an item would take over a target
length is closed before the item, unless it is empty.  An item that no page can hold is an error.

## Main definitions

* `Paging.push` — one item.
* `Paging.pages` — the pages of a list.

## Main results

* `Paging.flatten_pages` — the pages hold the items in order, and none is empty.
* `Paging.pages_eq_none_iff` — paging fails only for an item that no page can hold.
* `Paging.length_pages_lt_iff` — there are fewer pages than items if two neighbours fit on a page.
-/

namespace Paging

variable {α : Type}

/-- The closed pages, the open page and its length. -/
structure Pages (α : Type) where
  closed : List (List α)
  page : List α
  bytes : ℕ

/-- The separator before the next item. -/
def separator (page : List α) : ℕ := if page.isEmpty then 0 else 1

variable (overhead target limit : ℕ) (len : α → ℕ)

/-- Put one item. -/
def push (s : Pages α) (a : α) : Option (Pages α) :=
  let s := if target < s.bytes + separator s.page + len a ∧ s.page ≠ [] then
      ⟨s.closed ++ [s.page], [], overhead⟩
    else s
  let bytes := s.bytes + separator s.page + len a
  if bytes ≤ limit then some ⟨s.closed, s.page ++ [a], bytes⟩ else none

/-- Put the items of a list. -/
def pushAll : Pages α → List α → Option (Pages α)
  | s, [] => some s
  | s, a :: as =>
    match push overhead target limit len s a with
    | none => none
    | some s' => pushAll s' as

/-- The pages of a list. -/
def pages (items : List α) : Option (List (List α)) :=
  (pushAll overhead target limit len ⟨[], [], overhead⟩ items).map fun s =>
    if s.page.isEmpty then s.closed else s.closed ++ [s.page]

variable {overhead target limit len}

/-- One item is put after all others, and closed pages are not empty. -/
theorem push_spec {s s' : Pages α} {a : α} (h : push overhead target limit len s a = some s')
    (hclosed : ∀ p ∈ s.closed, p ≠ []) :
    s'.closed.flatten ++ s'.page = s.closed.flatten ++ s.page ++ [a] ∧
      ∀ p ∈ s'.closed, p ≠ [] := by
  unfold push at h
  split_ifs at h with hfull
  · dsimp only at h
    split_ifs at h
    rw [← Option.some.inj h]
    refine ⟨by simp, fun p hp => ?_⟩
    rcases List.mem_append.mp hp with hp | hp
    · exact hclosed p hp
    · rw [List.mem_singleton.mp hp]
      exact hfull.2
  · dsimp only at h
    split_ifs at h
    rw [← Option.some.inj h]
    exact ⟨by simp, hclosed⟩

/-- Pushing items appends them to the pages in order, and closes no empty page. -/
theorem pushAll_spec {items : List α} {s s' : Pages α}
    (h : pushAll overhead target limit len s items = some s')
    (hclosed : ∀ p ∈ s.closed, p ≠ []) :
    s'.closed.flatten ++ s'.page = s.closed.flatten ++ s.page ++ items ∧
      ∀ p ∈ s'.closed, p ≠ [] := by
  induction items generalizing s with
  | nil =>
    rw [← Option.some.inj h]
    exact ⟨by simp, hclosed⟩
  | cons a items ih =>
    unfold pushAll at h
    cases hpush : push overhead target limit len s a with
    | none =>
      rw [hpush] at h
      exact absurd h (by simp)
    | some s₁ =>
      rw [hpush] at h
      obtain ⟨hflat, hclosed₁⟩ := push_spec hpush hclosed
      obtain ⟨hflat', hclosed'⟩ := ih h hclosed₁
      refine ⟨?_, hclosed'⟩
      rw [hflat', hflat]
      simp

/-- **The pages hold the items in order**, and none is empty. -/
theorem flatten_pages {items : List α} {ps : List (List α)}
    (h : pages overhead target limit len items = some ps) :
    ps.flatten = items ∧ ∀ p ∈ ps, p ≠ [] := by
  unfold pages at h
  obtain ⟨s, hs, rfl⟩ := Option.map_eq_some_iff.mp h
  obtain ⟨hflat, hclosed⟩ := pushAll_spec hs (fun p hp => absurd hp List.not_mem_nil)
  split_ifs with hpage
  · rw [List.isEmpty_iff.mp hpage] at hflat
    exact ⟨by simpa using hflat, hclosed⟩
  · refine ⟨by simpa using hflat, fun p hp => ?_⟩
    rcases List.mem_append.mp hp with hp | hp
    · exact hclosed p hp
    · rw [List.mem_singleton.mp hp]
      simpa using hpage

/-- There is a page if there is an item. -/
theorem pages_ne_nil {items : List α} {ps : List (List α)}
    (h : pages overhead target limit len items = some ps) (hne : items ≠ []) : ps ≠ [] := by
  rintro rfl
  exact hne (flatten_pages h).1.symm

/-! ## How many pages there are -/

variable (overhead target len) in
/-- Two items that cannot be on one page. -/
def Apart (a b : α) : Prop := target < overhead + len a + 1 + len b

instance (a b : α) : Decidable (Apart overhead target len a b) :=
  inferInstanceAs (Decidable (_ < _))

/-- The number of pages, with the open one. -/
def Pages.count (s : Pages α) : ℕ := s.closed.length + if s.page.isEmpty then 0 else 1

/-- The count kept on the way is the number of pages made. -/
theorem length_pages {items : List α} {ps : List (List α)} {s : Pages α}
    (hs : pushAll overhead target limit len ⟨[], [], overhead⟩ items = some s)
    (h : pages overhead target limit len items = some ps) : ps.length = s.count := by
  unfold pages at h
  rw [hs] at h
  rw [← Option.some.inj h]
  unfold Pages.count
  by_cases hpage : s.page.isEmpty = true
  · simp only [hpage, if_true, Nat.add_zero]
  · simp only [hpage, Bool.false_eq_true, if_false, List.length_append, List.length_singleton]

/-- The open page of a state that has just one item. -/
structure Single (overhead : ℕ) (len : α → ℕ) (s : Pages α) (a : α) : Prop where
  page : s.page = [a]
  bytes : s.bytes = overhead + len a

/-- With one item on the open page the count is one more than the closed pages. -/
theorem Single.count_eq {s : Pages α} {a : α} (h : Single overhead len s a) :
    s.count = s.closed.length + 1 := by
  unfold Pages.count
  rw [h.page]
  rfl

/-- An item that does not fit beside the one on the page gets a page of its own. -/
theorem push_apart {s : Pages α} {a b : α} (hs : Single overhead len s a)
    (hab : Apart overhead target len a b) (hb : overhead + len b ≤ limit) :
    push overhead target limit len s b = some ⟨s.closed ++ [[a]], [b], overhead + len b⟩ := by
  have hfull : target < s.bytes + separator s.page + len b ∧ s.page ≠ [] := by
    rw [hs.bytes, hs.page]
    exact ⟨hab, by simp⟩
  have hempty : overhead + separator ([] : List α) + len b ≤ limit := by
    simpa [separator] using hb
  unfold push
  rw [if_pos hfull]
  dsimp only
  rw [if_pos hempty, hs.page]
  rfl

/-- An item that fits beside the one on the page joins it. -/
theorem push_joins {s s' : Pages α} {a b : α} (hs : Single overhead len s a)
    (hab : ¬ Apart overhead target len a b)
    (h : push overhead target limit len s b = some s') : s'.count = s.count := by
  have hfits : ¬ (target < s.bytes + separator s.page + len b ∧ s.page ≠ []) := by
    rw [hs.bytes, hs.page]
    exact fun hfull => hab hfull.1
  unfold push at h
  rw [if_neg hfits] at h
  dsimp only at h
  split_ifs at h
  rw [← Option.some.inj h, hs.count_eq]
  simp [Pages.count]

/-- One item needs at most one more page. -/
theorem push_count_le {s s' : Pages α} {a : α}
    (h : push overhead target limit len s a = some s') : s'.count ≤ s.count + 1 := by
  unfold push at h
  split_ifs at h with hfull
  · dsimp only at h
    split_ifs at h
    rw [← Option.some.inj h]
    have hpage : s.page.isEmpty = false := by simpa using hfull.2
    simp [Pages.count, hpage]
  · dsimp only at h
    split_ifs at h
    rw [← Option.some.inj h]
    simp [Pages.count]

/-- Each item adds at most one page. -/
theorem pushAll_count_le {items : List α} {s s' : Pages α}
    (h : pushAll overhead target limit len s items = some s') :
    s'.count ≤ s.count + items.length := by
  induction items generalizing s with
  | nil =>
    rw [← Option.some.inj h]
    exact Nat.le_add_right ..
  | cons a items ih =>
    unfold pushAll at h
    cases hpush : push overhead target limit len s a with
    | none =>
      rw [hpush] at h
      exact absurd h (by simp)
    | some s₁ =>
      rw [hpush] at h
      have hone := push_count_le hpush
      have hrest := ih h
      rw [List.length_cons]
      omega

/-- Items that are all apart are put on pages of their own. -/
theorem pushAll_apart {items : List α} {s : Pages α} {a : α} (hs : Single overhead len s a)
    (hapart : (a :: items).IsChain (Apart overhead target len))
    (hsmall : ∀ b ∈ items, overhead + len b ≤ limit) :
    ∃ s', pushAll overhead target limit len s items = some s' ∧ s'.page.isEmpty = false ∧
      s'.closed ++ [s'.page] = s.closed ++ (a :: items).map fun b => [b] := by
  induction items generalizing s a with
  | nil => exact ⟨s, rfl, by rw [hs.page]; rfl, by rw [hs.page]; rfl⟩
  | cons b items ih =>
    rw [List.isChain_cons_cons] at hapart
    have hpush := push_apart hs hapart.1 (hsmall b List.mem_cons_self)
    have hnext : Single overhead len ⟨s.closed ++ [[a]], [b], overhead + len b⟩ b := ⟨rfl, rfl⟩
    obtain ⟨s', hs', hpage, hpages⟩ :=
      ih hnext hapart.2 fun c hc => hsmall c (List.mem_cons_of_mem _ hc)
    refine ⟨s', ?_, hpage, ?_⟩
    · rw [pushAll, hpush]
      exact hs'
    · rw [hpages, List.append_assoc]
      rfl

/-- The first item is put on the first page. -/
theorem push_first {a : α} (ha : overhead + len a ≤ limit) :
    push overhead target limit len ⟨[], [], overhead⟩ a = some ⟨[], [a], overhead + len a⟩ := by
  simp [push, separator, ha]

/-- **Items that are all apart have a page each.** -/
theorem pages_of_apart {items : List α} (hapart : items.IsChain (Apart overhead target len))
    (hsmall : ∀ a ∈ items, overhead + len a ≤ limit) :
    pages overhead target limit len items = some (items.map fun a => [a]) := by
  cases items with
  | nil => rfl
  | cons a items =>
    have hfirst : Single overhead len ⟨[], [a], overhead + len a⟩ a := ⟨rfl, rfl⟩
    obtain ⟨s', hs', hpage, hpages⟩ := pushAll_apart hfirst hapart
      fun b hb => hsmall b (List.mem_cons_of_mem _ hb)
    rw [pages, pushAll, push_first (hsmall a List.mem_cons_self)]
    dsimp only
    rw [hs', Option.map_some, hpage, if_neg (by decide), hpages]
    rfl

/-- Where two neighbours fit on one page there are fewer pages than items. -/
theorem pushAll_count_lt {items : List α} {s s' : Pages α} {a : α} (hs : Single overhead len s a)
    (hfit : ¬ (a :: items).IsChain (Apart overhead target len))
    (h : pushAll overhead target limit len s items = some s') :
    s'.count < s.count + items.length := by
  induction items generalizing s a with
  | nil => exact absurd (List.isChain_singleton a) hfit
  | cons b items ih =>
    rw [pushAll] at h
    cases hpush : push overhead target limit len s b with
    | none =>
      rw [hpush] at h
      exact absurd h (by simp)
    | some s₁ =>
      rw [hpush] at h
      dsimp only at h
      rw [List.length_cons]
      by_cases hab : Apart overhead target len a b
      · rw [List.isChain_cons_cons, not_and] at hfit
        have hb : overhead + len b ≤ limit := by
          by_contra hlarge
          have hfull : target < s.bytes + separator s.page + len b ∧ s.page ≠ [] := by
            rw [hs.bytes, hs.page]
            exact ⟨hab, by simp⟩
          have hempty : ¬ overhead + separator ([] : List α) + len b ≤ limit := by
            simpa [separator] using hlarge
          unfold push at hpush
          rw [if_pos hfull] at hpush
          dsimp only at hpush
          rw [if_neg hempty] at hpush
          exact absurd hpush (by simp)
        rw [push_apart hs hab hb, Option.some.injEq] at hpush
        have hnext : Single overhead len s₁ b := hpush ▸ ⟨rfl, rfl⟩
        have hrest := ih hnext (hfit hab) h
        have hcount : s₁.count = s.count + 1 := by
          rw [hnext.count_eq, hs.count_eq, ← hpush]
          simp
        omega
      · have hcount := push_joins hs hab hpush
        have hrest := pushAll_count_le h
        omega

/-- **There are fewer pages than items exactly if two neighbours fit on one page.** -/
theorem length_pages_lt_iff {items : List α} {ps : List (List α)}
    (h : pages overhead target limit len items = some ps)
    (hsmall : ∀ a ∈ items, overhead + len a ≤ limit) :
    ps.length < items.length ↔ ¬ items.IsChain (Apart overhead target len) := by
  constructor
  · intro hlt hapart
    rw [pages_of_apart hapart hsmall, Option.some.injEq] at h
    rw [← h, List.length_map] at hlt
    exact lt_irrefl _ hlt
  · intro hfit
    cases items with
    | nil => exact absurd .nil hfit
    | cons a items =>
      cases hs : pushAll overhead target limit len ⟨[], [], overhead⟩ (a :: items) with
      | none =>
        rw [pages, hs] at h
        exact absurd h (by simp)
      | some s =>
        rw [length_pages hs h]
        rw [pushAll, push_first (hsmall a List.mem_cons_self)] at hs
        have hfirst : Single overhead len ⟨[], [a], overhead + len a⟩ a := ⟨rfl, rfl⟩
        have hlt := pushAll_count_lt hfirst hfit hs
        have hone :
            ({ closed := [], page := [a], bytes := overhead + len a } : Pages α).count = 1 :=
          rfl
        rw [hone, Nat.add_comm] at hlt
        exact hlt

/-! ## The length of a page -/

variable (overhead len) in
/-- The length of a page with its overhead and separators. -/
def pageLen (page : List α) : ℕ := overhead + (page.map len).sum + (page.length - 1)

/-- The length of the open page is kept up to date, and no page is over the limit. -/
structure Measured (overhead limit : ℕ) (len : α → ℕ) (s : Pages α) : Prop where
  bytes : s.bytes = pageLen overhead len s.page
  closed : ∀ p ∈ s.closed, pageLen overhead len p ≤ limit
  page : s.page ≠ [] → s.bytes ≤ limit

/-- The length of a page after one more item. -/
theorem pageLen_append (page : List α) (a : α) :
    pageLen overhead len (page ++ [a]) =
      pageLen overhead len page + separator page + len a := by
  cases page with
  | nil => simp [pageLen, separator]
  | cons b page =>
    simp [pageLen, separator]
    omega

/-- One push keeps the measured length true and within the limit. -/
theorem Measured.push {s s' : Pages α} {a : α} (hs : Measured overhead limit len s)
    (h : push overhead target limit len s a = some s') : Measured overhead limit len s' := by
  unfold Paging.push at h
  split_ifs at h with hfull
  · dsimp only at h
    split_ifs at h with hlen
    rw [← Option.some.inj h]
    refine ⟨?_, fun p hp => ?_, fun _ => hlen⟩
    · exact (pageLen_append [] a).symm
    · rcases List.mem_append.mp hp with hp | hp
      · exact hs.closed p hp
      · rw [List.mem_singleton.mp hp, ← hs.bytes]
        exact hs.page hfull.2
  · dsimp only at h
    split_ifs at h with hlen
    rw [← Option.some.inj h]
    refine ⟨?_, hs.closed, fun _ => hlen⟩
    rw [pageLen_append, hs.bytes]

/-- Pushing items keeps the measured length true and within the limit. -/
theorem Measured.pushAll {items : List α} {s s' : Pages α} (hs : Measured overhead limit len s)
    (h : pushAll overhead target limit len s items = some s') : Measured overhead limit len s' := by
  induction items generalizing s with
  | nil =>
    rw [← Option.some.inj h]
    exact hs
  | cons a items ih =>
    unfold Paging.pushAll at h
    cases hpush : Paging.push overhead target limit len s a with
    | none =>
      rw [hpush] at h
      exact absurd h (by simp)
    | some s₁ =>
      rw [hpush] at h
      exact ih (hs.push hpush) h

/-- **No page is over the limit.** -/
theorem pageLen_le {items : List α} {ps : List (List α)}
    (h : pages overhead target limit len items = some ps) :
    ∀ p ∈ ps, pageLen overhead len p ≤ limit := by
  unfold pages at h
  obtain ⟨s, hs, rfl⟩ := Option.map_eq_some_iff.mp h
  have hstart : Measured overhead limit len ⟨[], [], overhead⟩ :=
    ⟨by simp [pageLen], fun p hp => absurd hp List.not_mem_nil, fun hne => absurd rfl hne⟩
  have hend := hstart.pushAll hs
  intro p hp
  split_ifs at hp with hpage
  · exact hend.closed p hp
  · rcases List.mem_append.mp hp with hp | hp
    · exact hend.closed p hp
    · rw [List.mem_singleton.mp hp, ← hend.bytes]
      exact hend.page (by simpa using hpage)

/-- An item is refused exactly if it alone is over the limit. -/
theorem push_eq_none_iff {s : Pages α} {a : α} (hs : Measured overhead limit len s)
    (htarget : target ≤ limit) :
    push overhead target limit len s a = none ↔ limit < overhead + len a := by
  have hbytes := hs.bytes
  unfold push
  split_ifs with hfull
  · dsimp only
    simp only [separator, List.isEmpty_nil, if_true, Nat.add_zero, ite_eq_right_iff, reduceCtorEq,
      imp_false, not_le]
  · dsimp only
    simp only [ite_eq_right_iff, reduceCtorEq, imp_false, not_le]
    by_cases hpage : s.page = []
    · rw [hpage] at hbytes ⊢
      rw [hbytes]
      simp [pageLen, separator]
    · rw [not_and_or, not_not] at hfull
      have hfits := hfull.resolve_right hpage
      unfold pageLen at hbytes
      omega

/-- **Paging fails exactly if an item alone is over the limit.** -/
theorem pages_eq_none_iff {items : List α} (htarget : target ≤ limit) :
    pages overhead target limit len items = none ↔ ∃ a ∈ items, limit < overhead + len a := by
  have hall : ∀ (items : List α) (s : Pages α), Measured overhead limit len s →
      (pushAll overhead target limit len s items = none ↔
        ∃ a ∈ items, limit < overhead + len a) := by
    intro items
    induction items with
    | nil => simp [pushAll]
    | cons a items ih =>
      intro s hs
      rw [pushAll]
      cases hpush : push overhead target limit len s a with
      | none => simp [(push_eq_none_iff hs htarget).mp hpush]
      | some s₁ =>
        have hsmall : ¬ limit < overhead + len a := by
          rw [← push_eq_none_iff hs htarget, hpush]
          simp
        dsimp only
        rw [ih s₁ (hs.push hpush)]
        simp [hsmall]
  have hstart : Measured overhead limit len ⟨[], [], overhead⟩ :=
    ⟨by simp [pageLen], fun p hp => absurd hp List.not_mem_nil, fun hne => absurd rfl hne⟩
  rw [pages, Option.map_eq_none_iff, hall items _ hstart]

end Paging
