import Mathlib

set_option relaxedAutoImplicit false
set_option autoImplicit false

/-!
# Runs of a machine

A machine takes one step after the other.  What holds of all states of a run follows from what
one step preserves.

## Main definitions

* `Run.Along` — a property of every step, in the state it is taken in.
* `Run.Throughout` — a property of every state.

## Main results

* `Run.Along.imp` — what holds of the steps of a run with an invariant.
* `Run.Along.throughout` — an invariant that the steps keep.
* `Run.throughout_iff_along` — the steps of a run after which a property holds.
-/

namespace Run

variable {σ α : Type} (step : σ → α → σ)

/-- Something holds of every step of a run, in the state it is taken in. -/
def Along (P : σ → α → Prop) : σ → List α → Prop
  | _, [] => True
  | s, a :: as => P s a ∧ Along P (step s a) as

/-- Something holds of every state of a run, the first and the last included. -/
def Throughout (P : σ → Prop) : σ → List α → Prop
  | s, [] => P s
  | s, a :: as => P s ∧ Throughout P (step s a) as

variable {step}

/-- Two things hold of every step. -/
theorem Along.and {P Q : σ → α → Prop} {s : σ} {as : List α} (hP : Along step P s as)
    (hQ : Along step Q s as) : Along step (fun s a => P s a ∧ Q s a) s as := by
  induction as generalizing s with
  | nil => trivial
  | cons a as ih => exact ⟨⟨hP.1, hQ.1⟩, ih hP.2 hQ.2⟩

/-- **What holds of every step of a run**, if it follows from an invariant that the steps keep. -/
theorem Along.imp {P Q : σ → α → Prop} {I : σ → Prop}
    (hstep : ∀ s a, I s → P s a → Q s a ∧ I (step s a)) {s : σ} {as : List α} (hs : I s)
    (h : Along step P s as) : Along step Q s as := by
  induction as generalizing s with
  | nil => trivial
  | cons a as ih =>
    obtain ⟨hQ, hnext⟩ := hstep s a hs h.1
    exact ⟨hQ, ih hnext h.2⟩

/-- **An invariant that the steps of a run keep holds throughout it.** -/
theorem Along.throughout {P : σ → α → Prop} {I : σ → Prop}
    (hstep : ∀ s a, I s → P s a → I (step s a)) {s : σ} {as : List α} (hs : I s)
    (h : Along step P s as) : Throughout step I s as := by
  induction as generalizing s with
  | nil => exact hs
  | cons a as ih => exact ⟨hs, ih (hstep s a hs h.1) h.2⟩

/-- What holds throughout holds at the start. -/
theorem Throughout.first {P : σ → Prop} {s : σ} {as : List α} (h : Throughout step P s as) :
    P s := by
  cases as with
  | nil => exact h
  | cons a as => exact h.1

/-- What holds throughout holds at the end. -/
theorem Throughout.last {P : σ → Prop} {s : σ} {as : List α} (h : Throughout step P s as) :
    P (as.foldl step s) := by
  induction as generalizing s with
  | nil => exact h
  | cons a as ih => exact ih h.2

/-- What holds throughout, weakened. -/
theorem Throughout.mono {P Q : σ → Prop} (hPQ : ∀ s, P s → Q s) {s : σ} {as : List α}
    (h : Throughout step P s as) : Throughout step Q s as := by
  induction as generalizing s with
  | nil => exact hPQ s h
  | cons a as ih => exact ⟨hPQ s h.1, ih h.2⟩

/-- **A property holds throughout a run exactly if every step is one after which it holds.** -/
theorem throughout_iff_along {P : σ → α → Prop} {Q : σ → α → Prop} {I : σ → Prop}
    (hstep : ∀ s a, I s → P s a → (I (step s a) ↔ Q s a)) {s : σ} {as : List α} (hs : I s)
    (h : Along step P s as) : Throughout step I s as ↔ Along step Q s as := by
  induction as generalizing s with
  | nil => exact ⟨fun _ => trivial, fun _ => hs⟩
  | cons a as ih =>
    constructor
    · intro hI
      have hnext := hI.2.first
      exact ⟨(hstep s a hs h.1).mp hnext, (ih hnext h.2).mp hI.2⟩
    · intro hQ
      have hnext := (hstep s a hs h.1).mpr hQ.1
      exact ⟨hs, (ih hnext h.2).mpr hQ.2⟩

end Run
