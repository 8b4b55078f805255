import Mathlib

set_option relaxedAutoImplicit false
set_option autoImplicit false

/-!
# Classes of a list

The members of a list that have the same label, as lists of two or more, in the order of their first
members.

## Main definitions

* `Classes.ofLabel` — the members with a label.
* `Classes.groups` — the classes of two or more.
* `Classes.first` — the first member of a class.

## Main results

* `Classes.groups_eq_iff` — labels that tell the same members apart make the same classes.
* `Classes.joined_iff` — when labels that are given to first members make the classes again.
-/

namespace Classes

variable {α β γ : Type} [DecidableEq β] [DecidableEq γ]

/-- The members of a list with the label of a member. -/
def ofLabel (f : α → β) (l : List α) (a : α) : List α := l.filter fun b => f b = f a

/-- The classes of two or more members, by their first members. -/
def groups [DecidableEq α] (f : α → β) (l : List α) : List (List α) :=
  l.filterMap fun a =>
    if 1 < (ofLabel f l a).length ∧ (ofLabel f l a).head? = some a then some (ofLabel f l a)
      else none

/-- The first member of the class of a member. -/
def first (f : α → β) (l : List α) (a : α) : α := (ofLabel f l a).headD a

variable {f : α → β} {g : α → γ} {l : List α} {a b : α}

/-- The class of `a` holds the members of `l` with `a`'s label. -/
theorem mem_ofLabel : b ∈ ofLabel f l a ↔ b ∈ l ∧ f b = f a := by
  unfold ofLabel
  rw [List.mem_filter, decide_eq_true_eq]

/-- Equal labels name the same class. -/
theorem ofLabel_congr (h : f a = f b) : ofLabel f l a = ofLabel f l b := by
  unfold ofLabel
  rw [h]

/-- The representative is in its class. -/
theorem first_mem (ha : a ∈ l) : first f l a ∈ ofLabel f l a := by
  have hself : a ∈ ofLabel f l a := mem_ofLabel.mpr ⟨ha, rfl⟩
  unfold first
  obtain ⟨b, rest, heq⟩ := List.exists_cons_of_ne_nil (List.ne_nil_of_mem hself)
  rw [heq]
  exact List.mem_cons_self

/-- The representative is in the list. -/
theorem first_mem_list (ha : a ∈ l) : first f l a ∈ l := (mem_ofLabel.mp (first_mem ha)).1

/-- The representative has the label of its class. -/
theorem label_first (ha : a ∈ l) : f (first f l a) = f a := (mem_ofLabel.mp (first_mem ha)).2

/-- The representative is the head of its class. -/
theorem head?_ofLabel (ha : a ∈ l) : (ofLabel f l a).head? = some (first f l a) := by
  have hself : a ∈ ofLabel f l a := mem_ofLabel.mpr ⟨ha, rfl⟩
  unfold first
  obtain ⟨b, rest, heq⟩ := List.exists_cons_of_ne_nil (List.ne_nil_of_mem hself)
  rw [heq]
  rfl

/-- Members of one class have one representative. -/
theorem first_congr (ha : a ∈ l) (hb : b ∈ l) (h : f a = f b) : first f l a = first f l b := by
  have hheads := head?_ofLabel (f := f) ha
  rw [ofLabel_congr h, head?_ofLabel hb] at hheads
  exact (Option.some.inj hheads).symm

/-- A representative represents itself. -/
theorem first_first (ha : a ∈ l) : first f l (first f l a) = first f l a :=
  first_congr (first_mem_list ha) ha (label_first ha)

variable [DecidableEq α]

/-- The groups are the classes of at least two, each listed at its representative. -/
theorem mem_groups {c : List α} : c ∈ groups f l ↔
    ∃ a ∈ l, 1 < (ofLabel f l a).length ∧ (ofLabel f l a).head? = some a ∧ c = ofLabel f l a := by
  unfold groups
  rw [List.mem_filterMap]
  constructor
  · rintro ⟨a, ha, hc⟩
    split_ifs at hc with h
    exact ⟨a, ha, h.1, h.2, (Option.some.inj hc).symm⟩
  · rintro ⟨a, ha, hlen, hhead, rfl⟩
    exact ⟨a, ha, by rw [if_pos ⟨hlen, hhead⟩]⟩

/-- Members with labels of their own make no class of two. -/
theorem groups_eq_nil (hl : l.Nodup) (hinj : ∀ a ∈ l, ∀ b ∈ l, f a = f b → a = b) :
    groups f l = [] := by
  rw [List.eq_nil_iff_forall_not_mem]
  intro c hc
  obtain ⟨a, ha, hlen, -, rfl⟩ := mem_groups.mp hc
  have heq : ∀ b ∈ ofLabel f l a, b = a := fun b hb =>
    hinj b (mem_ofLabel.mp hb).1 a ha (mem_ofLabel.mp hb).2
  have hnodup : (ofLabel f l a).Nodup := hl.filter _
  cases hclass : ofLabel f l a with
  | nil => simp [hclass] at hlen
  | cons b rest =>
    cases rest with
    | nil => simp [hclass] at hlen
    | cons b' rest =>
      rw [hclass] at heq hnodup
      have hne : b ≠ b' := (List.nodup_cons.mp hnodup).1 ∘ fun h => h ▸ List.mem_cons_self
      exact hne ((heq b (by simp)).trans (heq b' (by simp)).symm)

/-- Two members are in one of the classes exactly if they have the same label. -/
theorem exists_group_iff (hab : a ≠ b) (ha : a ∈ l) (hb : b ∈ l) :
    (∃ c ∈ groups f l, a ∈ c ∧ b ∈ c) ↔ f a = f b := by
  constructor
  · rintro ⟨c, hc, hac, hbc⟩
    obtain ⟨e, -, -, -, rfl⟩ := mem_groups.mp hc
    rw [(mem_ofLabel.mp hac).2, (mem_ofLabel.mp hbc).2]
  · intro h
    have hclass : ofLabel f l (first f l a) = ofLabel f l a := ofLabel_congr (label_first ha)
    have hama : a ∈ ofLabel f l a := mem_ofLabel.mpr ⟨ha, rfl⟩
    have hbma : b ∈ ofLabel f l a := mem_ofLabel.mpr ⟨hb, h.symm⟩
    refine ⟨ofLabel f l a,
      mem_groups.mpr ⟨first f l a, first_mem_list ha, ?_, ?_, hclass.symm⟩, hama, hbma⟩
    · rw [hclass]
      by_contra hlen
      obtain ⟨e, he⟩ : ∃ e, ofLabel f l a = [e] := by
        refine List.length_eq_one_iff.mp ?_
        have hpos := List.length_pos_of_mem hama
        omega
      rw [he, List.mem_singleton] at hama hbma
      exact hab (hama.trans hbma.symm)
    · rw [hclass]
      exact head?_ofLabel ha

/-- No member is in two of the classes. -/
theorem groups_apart (hl : l.Nodup) : (groups f l).Pairwise fun c c' => ∀ a ∈ c, a ∉ c' := by
  unfold groups
  rw [List.pairwise_filterMap]
  refine hl.imp fun {a b} hab c hc c' hc' e he he' => ?_
  split_ifs at hc with ha
  split_ifs at hc' with hb
  rw [← Option.some.inj hc] at he
  rw [← Option.some.inj hc'] at he'
  have hsame : f a = f b := (mem_ofLabel.mp he).2.symm.trans (mem_ofLabel.mp he').2
  have hheads := ha.2
  rw [ofLabel_congr hsame, hb.2] at hheads
  exact hab (Option.some.inj hheads).symm

/-- **Labels that tell the same members apart make the same classes**, and no others do. -/
theorem groups_eq_iff : groups f l = groups g l ↔ ∀ a ∈ l, ∀ b ∈ l, f a = f b ↔ g a = g b := by
  constructor
  · intro h a ha b hb
    by_cases hab : a = b
    · rw [hab]
      exact ⟨fun _ => rfl, fun _ => rfl⟩
    · rw [← exists_group_iff hab ha hb, ← exists_group_iff hab ha hb, h]
  · intro h
    have hclass : ∀ a ∈ l, ofLabel f l a = ofLabel g l a := by
      intro a ha
      refine List.filter_congr fun b hb => ?_
      rw [decide_eq_decide]
      exact h b hb a ha
    unfold groups
    refine List.filterMap_congr fun a ha => ?_
    rw [hclass a ha]

/-- **Labels that are given to first members, and from them to their classes, make the classes again
exactly if they tell the first members apart.** -/
theorem joined_iff (hg : ∀ a ∈ l, g a = g (first f l a)) :
    groups g l = groups f l ↔
      ∀ a ∈ l, ∀ b ∈ l, first f l a = a → first f l b = b → g a = g b → a = b := by
  rw [groups_eq_iff]
  constructor
  · intro h a ha b hb hfa hfb hab
    rw [← hfa, ← hfb]
    exact first_congr ha hb ((h a ha b hb).mp hab)
  · intro h a ha b hb
    constructor
    · intro hab
      have hfirst : first f l a = first f l b := by
        refine h _ (first_mem_list ha) _ (first_mem_list hb) (first_first ha) (first_first hb) ?_
        rw [← hg a ha, ← hg b hb, hab]
      rw [← label_first (f := f) ha, hfirst, label_first (f := f) hb]
    · intro hab
      rw [hg a ha, hg b hb, first_congr ha hb hab]

end Classes
