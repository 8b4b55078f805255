import Mathlib

set_option relaxedAutoImplicit false
set_option autoImplicit false

/-!
# Lexicographic order around a separator

Words over a linear order, compared lexicographically, with one letter `s` singled out as a
separator.  The words *below* `d` are the words `d ++ s :: r`.  They form an interval of the
order, but not the interval that starts right after `d`: a word `d ++ c :: r` with `c < s`
lies strictly between `d` and every word below `d`.

## Main definitions

* `SepOrder.Below` — the words under a prefix and the separator.
* `SepOrder.splitFirst` — a word cut at its first separator.

## Main results

* `SepOrder.gt_cases` — a word greater than `d` lies before, among or after the words below `d`.
* `SepOrder.first_gt_below_iff` — the first word after `d` in a sorted list lies below `d`
  exactly when some word of the list does and none lies strictly between `d` and `d ++ [s]`.
-/

namespace SepOrder

variable {α : Type} [LinearOrder α]

/-- The words under `d` and the separator `s`. -/
def Below (s : α) (d k : List α) : Prop := ∃ r, k = d ++ s :: r

/-- A word is smaller than each of its proper extensions. -/
theorem lt_append_cons (d : List α) (c : α) (r : List α) : d < d ++ c :: r := by
  induction d with
  | nil => exact List.nil_lt_cons c r
  | cons a d ih => exact List.cons_lt_cons_iff.mpr (Or.inr ⟨rfl, ih⟩)

/-- A common prefix does not change the comparison. -/
theorem append_lt_append_iff (d x y : List α) : d ++ x < d ++ y ↔ x < y := by
  induction d with
  | nil => rfl
  | cons a d ih => simp [ih]

/-- A word greater than `d` either extends `d`, or is greater than every extension of `d`. -/
theorem extends_or_gt {d k : List α} (h : d < k) :
    (∃ c r, k = d ++ c :: r) ∨ ∀ x, d ++ x < k := by
  induction d generalizing k with
  | nil =>
    cases k with
    | nil => exact absurd h (lt_irrefl _)
    | cons c r => exact Or.inl ⟨c, r, rfl⟩
  | cons a d ih =>
    cases k with
    | nil => exact absurd h (List.not_lt_nil _)
    | cons b k =>
      rcases List.cons_lt_cons_iff.mp h with hab | ⟨rfl, hdk⟩
      · exact Or.inr fun x => List.cons_lt_cons_iff.mpr (Or.inl hab)
      · rcases ih hdk with ⟨c, r, rfl⟩ | hgt
        · exact Or.inl ⟨c, r, rfl⟩
        · exact Or.inr fun x => List.cons_lt_cons_iff.mpr (Or.inr ⟨rfl, hgt x⟩)

/-- Every word below `d` is greater than `d`. -/
theorem Below.lt {s : α} {d k : List α} (h : Below s d k) : d < k := by
  obtain ⟨r, rfl⟩ := h
  exact lt_append_cons d s r

/-- A word smaller than `d ++ [s]` is smaller than every word below `d`. -/
theorem lt_of_lt_sep {s : α} {d k x : List α} (hk : k < d ++ [s]) (hx : Below s d x) : k < x := by
  obtain ⟨r, rfl⟩ := hx
  cases r with
  | nil => exact hk
  | cons c r =>
    refine lt_trans hk ?_
    rw [append_lt_append_iff]
    exact lt_append_cons [s] c r

/-- **Position of a greater word.**  A word greater than `d` lies strictly between `d` and
`d ++ [s]`, or below `d`, or after every word below `d`. -/
theorem gt_cases (s : α) {d k : List α} (h : d < k) :
    k < d ++ [s] ∨ Below s d k ∨ ∀ x, Below s d x → x < k := by
  rcases extends_or_gt h with ⟨c, r, rfl⟩ | hgt
  · rcases lt_trichotomy c s with hc | rfl | hc
    · exact Or.inl ((append_lt_append_iff d _ _).mpr (List.cons_lt_cons_iff.mpr (Or.inl hc)))
    · exact Or.inr (Or.inl ⟨r, rfl⟩)
    · refine Or.inr (Or.inr ?_)
      rintro x ⟨y, rfl⟩
      exact (append_lt_append_iff d _ _).mpr (List.cons_lt_cons_iff.mpr (Or.inl hc))
  · refine Or.inr (Or.inr ?_)
    rintro x ⟨y, rfl⟩
    exact hgt _

/-- In a strictly sorted list, a member smaller than the first hit of a search is no hit. -/
theorem not_hit_of_lt_find? {β : Type} [LinearOrder β] {p : β → Bool} {l : List β} {k x : β}
    (hl : l.Pairwise (· < ·)) (hk : l.find? p = some k) (hx : x ∈ l) (hxk : x < k) :
    ¬ p x = true := by
  obtain ⟨-, as, bs, rfl, has⟩ := List.find?_eq_some_iff_append.mp hk
  rcases List.mem_append.mp hx with hx | hx
  · simpa using has x hx
  · rcases List.mem_cons.mp hx with rfl | hx
    · exact absurd hxk (lt_irrefl _)
    · have hkx := (List.pairwise_cons.mp (List.pairwise_append.mp hl).2.1).1 x hx
      exact absurd (lt_trans hxk hkx) (lt_irrefl _)

/-- **The ordered probe.**  In a strictly sorted list of words, the first one greater than `d`
lies below `d` exactly when the list has a word below `d` and none strictly between `d` and
`d ++ [s]`.

**Proof sketch.** If the first greater word `k` is below `d`, a word of the list strictly
between `d` and `d ++ [s]` would be smaller than `k` and greater than `d`.  Conversely, some
word of the list is greater than `d`, so there is a first one `k`; it is at most the given
word below `d`, hence not after all of them, and it is not in between, so `gt_cases` puts it
below `d`. -/
theorem first_gt_below_iff (s : α) (d : List α) {l : List (List α)} (hl : l.Pairwise (· < ·)) :
    (∃ k, l.find? (fun k => decide (d < k)) = some k ∧ Below s d k) ↔
      (∃ k ∈ l, Below s d k) ∧ ∀ k ∈ l, d < k → ¬ k < d ++ [s] := by
  constructor
  · rintro ⟨k, hk, hb⟩
    refine ⟨⟨k, List.mem_of_find?_eq_some hk, hb⟩, fun x hx hdx hxs => ?_⟩
    exact not_hit_of_lt_find? hl hk hx (lt_of_lt_sep hxs hb) (by simpa using hdx)
  · rintro ⟨⟨x, hx, hbx⟩, hnone⟩
    have hsome : (l.find? fun k => decide (d < k)).isSome := by
      rw [List.find?_isSome]
      exact ⟨x, hx, by simpa using hbx.lt⟩
    obtain ⟨k, hk⟩ := Option.isSome_iff_exists.mp hsome
    have hdk : d < k := by simpa using List.find?_some hk
    refine ⟨k, hk, ?_⟩
    rcases gt_cases s hdk with h | h | h
    · exact absurd h (hnone k (List.mem_of_find?_eq_some hk) hdk)
    · exact h
    · -- `x` would be a hit before the first one
      exact absurd (by simpa using hbx.lt) (not_hit_of_lt_find? hl hk hx (h x hbx))

/-! ## Cutting at the first separator -/

/-- The part of a word before its first separator, and the part after it if there is one. -/
def splitFirst (s : α) : List α → List α × Option (List α)
  | [] => ([], none)
  | c :: k => if c = s then ([], some k) else (c :: (splitFirst s k).1, (splitFirst s k).2)

/-- A word without the separator is its own first part. -/
theorem splitFirst_of_notMem {s : α} {n : List α} (h : s ∉ n) : splitFirst s n = (n, none) := by
  induction n with
  | nil => rfl
  | cons c n ih =>
    have hc : c ≠ s := fun hc => h (hc ▸ List.mem_cons_self)
    rw [splitFirst, if_neg hc, ih fun hn => h (List.mem_cons_of_mem _ hn)]

/-- A word without the separator, then the separator: that is where the cut is made. -/
theorem splitFirst_append {s : α} {n : List α} (h : s ∉ n) (r : List α) :
    splitFirst s (n ++ s :: r) = (n, some r) := by
  induction n with
  | nil => simp [splitFirst]
  | cons c n ih =>
    have hc : c ≠ s := fun hc => h (hc ▸ List.mem_cons_self)
    rw [List.cons_append, splitFirst, if_neg hc, ih fun hn => h (List.mem_cons_of_mem _ hn)]

omit [LinearOrder α] in
/-- A word with the separator is not a word without it. -/
theorem append_sep_ne {s : α} {n m : List α} (hm : s ∉ m) (r : List α) : n ++ s :: r ≠ m := by
  intro h
  rw [← h] at hm
  exact hm (List.mem_append_right _ List.mem_cons_self)

/-- Every word is its first part alone, or its first part, the separator and the rest. -/
theorem splitFirst_cases (s : α) (k : List α) :
    s ∉ (splitFirst s k).1 ∧
      (splitFirst s k = (k, none) ∨
        ∃ r, (splitFirst s k).2 = some r ∧ k = (splitFirst s k).1 ++ s :: r) := by
  induction k with
  | nil => exact ⟨List.not_mem_nil, Or.inl rfl⟩
  | cons c k ih =>
    by_cases hc : c = s
    · subst hc
      simp [splitFirst]
    · simp only [splitFirst, hc, if_false]
      obtain ⟨hmem, ih⟩ := ih
      refine ⟨?_, ?_⟩
      · rw [List.mem_cons]
        intro h
        rcases h with h | h
        · exact hc h.symm
        · exact hmem h
      · rcases ih with ih | ⟨r, hr, hk⟩
        · exact Or.inl (by rw [ih])
        · exact Or.inr ⟨r, hr, by rw [List.cons_append, ← hk]⟩

end SepOrder
