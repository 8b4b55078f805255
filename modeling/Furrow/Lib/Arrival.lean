import Mathlib

set_option relaxedAutoImplicit false
set_option autoImplicit false

/-!
# Taking the nodes of a graph as they arrive

The nodes of a graph arrive one after the other, in any order.  A node is taken once it has
arrived and a path of nodes that are held or have arrived leads to it from the root.  What is
held in the end does not depend on when the nodes arrived, nor on when they were taken.

## Main definitions

* `Arrival.Reach` — what the nodes of a set lead to from the root.
* `Arrival.taken` — what is held after taking all that can be taken.
* `Arrival.Progress` — what holds between the arrivals.

## Main results

* `Arrival.taken_subset`, `Arrival.Progress.taken_eq` — taking early loses nothing and gains
  nothing.
-/

namespace Arrival

variable {α : Type} (edge : α → α → Prop) (root : α)

/-- The nodes that a path from the root leads to, all before the last in `U`. -/
inductive Reach (U : Set α) : α → Prop
  | root : Reach U root
  | step {x y : α} (h : Reach U x) (hx : x ∈ U) (he : edge x y) : Reach U y

/-- What is held after all that can be taken has been: `P` was held and `A` has arrived. -/
def taken (P A : Set α) : Set α := P ∪ {x | x ∈ A ∧ Reach edge root (P ∪ A) x}

variable {edge root} {P₀ F P A D U V : Set α}

/-- What is reached under a smaller set of followed nodes is reached under a larger one. -/
theorem Reach.mono (hUV : U ⊆ V) {x : α} (h : Reach edge root U x) : Reach edge root V x := by
  induction h with
  | root => exact .root
  | step _ hx he ih => exact .step ih (hUV hx) he

/-- A set that contains the root and the successors of its members contains all they lead to. -/
theorem Reach.subset {S : Set α} (hroot : root ∈ S)
    (hstep : ∀ x ∈ S, x ∈ U → ∀ y, edge x y → y ∈ S) {x : α} (h : Reach edge root U x) :
    x ∈ S := by
  induction h with
  | root => exact hroot
  | step _ hx he ih => exact hstep _ ih hx _ he

variable (edge root P₀ F P A D) in
/-- What holds while `F` arrives: `P₀` was held at first, `D` has arrived so far, `P` is held
and the arrived nodes `A` have not been dropped. -/
structure Progress : Prop where
  start : P₀ ⊆ P
  within : P ⊆ taken edge root P₀ F
  arrived : A ⊆ F
  kept : D ⊆ P ∪ A

/-- Arriving in two rounds takes no more than arriving in one. -/
theorem taken_subset (h : P ⊆ taken edge root P₀ F) (hA : A ⊆ F) :
    taken edge root P A ⊆ taken edge root P₀ F := by
  have hsub : P ∪ A ⊆ P₀ ∪ F := by
    rintro x (hx | hx)
    · rcases h hx with hx | hx
      · exact Or.inl hx
      · exact Or.inr hx.1
    · exact Or.inr (hA hx)
  rintro x (hx | hx)
  · exact h hx
  · exact Or.inr ⟨hA hx.1, hx.2.mono hsub⟩

/-- **Once all have arrived, taking what is left gives what taking all at once gives.** -/
theorem Progress.taken_eq (h : Progress edge root P₀ F P A D) (hF : F ⊆ D) :
    taken edge root P A = taken edge root P₀ F := by
  refine Set.Subset.antisymm (taken_subset h.within h.arrived) ?_
  have hsub : P₀ ∪ F ⊆ P ∪ A := by
    rintro x (hx | hx)
    · exact Or.inl (h.start hx)
    · exact h.kept (hF hx)
  rintro x (hx | hx)
  · exact Or.inl (h.start hx)
  · rcases h.kept (hF hx.1) with hP | hA
    · exact Or.inl hP
    · exact Or.inr ⟨hA, hx.2.mono hsub⟩

end Arrival
