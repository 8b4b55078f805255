import Mathlib

set_option relaxedAutoImplicit false
set_option autoImplicit false

/-!
# Computations that may fail and keep their effects

A computation on a state returns a value or an error together with the state it leaves behind:
an error undoes nothing.  What holds of the state afterwards, whether there was an error or not,
is composed from what holds after the parts.

## Main definitions

* `Fallible` — state passing with errors that keep the state.
* `Fallible.each` — a computation for each member of a list, up to the first error.
* `Fallible.Runs` — what a computation does whether it succeeds or not, and what holds if it does.

## Main results

* `Fallible.exists_of_bind_eq_ok`, `Fallible.mapM_eq_ok_iff` — a sequence without state that
  succeeds.
* `Fallible.bind_state` — what holds of the state after a sequence.
* `Fallible.Runs.bind`, `Fallible.Runs.each` — the rules for `Runs`.
-/

/-- A computation on a state that may fail; what it has done to the state stays. -/
def Fallible (σ ε α : Type) := σ → Except ε α × σ

namespace Fallible

variable {σ ε α β : Type}

/-- The computation that does nothing. -/
protected def pure (a : α) : Fallible σ ε α := fun s => (.ok a, s)

/-- First one computation, then, if it succeeds, one that depends on its value. -/
protected def bind (x : Fallible σ ε α) (f : α → Fallible σ ε β) : Fallible σ ε β := fun s =>
  match x s with
  | (.ok a, s) => f a s
  | (.error e, s) => (.error e, s)

instance : Monad (Fallible σ ε) where
  pure := Fallible.pure
  bind := Fallible.bind

/-- The computation that fails. -/
def fail (e : ε) : Fallible σ ε α := fun s => (.error e, s)

/-- Change the state. -/
def update (f : σ → σ) : Fallible σ ε Unit := fun s => (.ok (), f s)

/-- Choose how to go on by the state. -/
def inspect (f : σ → Fallible σ ε α) : Fallible σ ε α := fun s => f s s

/-- Do something for each member of a list, up to the first error. -/
def each (f : β → Fallible σ ε Unit) : List β → Fallible σ ε Unit
  | [] => pure ()
  | b :: bs => do
    f b
    each f bs

/-- A sequence of plain computations that succeeds: both parts did. -/
theorem exists_of_bind_eq_ok {x : Except ε α} {f : α → Except ε β} {b : β}
    (h : (x >>= f) = .ok b) : ∃ a, x = .ok a ∧ f a = .ok b := by
  cases x with
  | error e => exact absurd h (by simp [Bind.bind, Except.bind])
  | ok a => exact ⟨a, rfl, h⟩

/-- A member of the right list has a partner. -/
theorem exists_left_of_forall₂ {α β : Type} {R : α → β → Prop} {l : List α} {l' : List β}
    (h : List.Forall₂ R l l') {b : β} (hb : b ∈ l') : ∃ a ∈ l, R a b := by
  induction h with
  | nil => exact absurd hb List.not_mem_nil
  | cons hone _ ih =>
    rcases List.mem_cons.mp hb with rfl | hb
    · exact ⟨_, List.mem_cons_self, hone⟩
    · obtain ⟨a, ha, hR⟩ := ih hb
      exact ⟨a, List.mem_cons_of_mem _ ha, hR⟩

/-- A member of the left list has a partner. -/
theorem exists_right_of_forall₂ {α β : Type} {R : α → β → Prop} {l : List α} {l' : List β}
    (h : List.Forall₂ R l l') {a : α} (ha : a ∈ l) : ∃ b ∈ l', R a b :=
  exists_left_of_forall₂ h.flip ha

/-- Lists that are related item by item are related in their last items. -/
theorem forall₂_getLast {α β : Type} {R : α → β → Prop} {l : List α} {l' : List β}
    (h : List.Forall₂ R l l') {a : α} (ha : l.getLast? = some a) :
    ∃ b, l'.getLast? = some b ∧ R a b := by
  induction h with
  | nil => exact absurd ha (by simp)
  | @cons x y l l' hxy hrest ih =>
    cases hrest with
    | nil =>
      have hx : x = a := by simpa using ha
      exact ⟨y, rfl, hx ▸ hxy⟩
    | cons hxy' hrest' =>
      rw [List.getLast?_cons_cons] at ha ⊢
      exact ih ha

/-- A list of computations without state succeeds if each of them does. -/
theorem mapM_eq_ok_iff {f : α → Except ε β} {l : List α} {l' : List β} :
    l.mapM f = .ok l' ↔ List.Forall₂ (fun a b => f a = .ok b) l l' := by
  induction l generalizing l' with
  | nil =>
    rw [List.mapM_nil, List.forall₂_nil_left_iff]
    constructor
    · intro h
      cases h
      rfl
    · rintro rfl
      rfl
  | cons a l ih =>
    rw [List.mapM_cons]
    constructor
    · intro h
      cases hb : f a with
      | error e =>
        rw [hb] at h
        exact absurd h (by simp [bind, Except.bind])
      | ok b =>
        rw [hb] at h
        cases hl : l.mapM f with
        | error e =>
          rw [hl] at h
          exact absurd h (by simp [bind, Except.bind])
        | ok bs =>
          rw [hl] at h
          cases h
          exact .cons hb (ih.mp hl)
    · intro h
      cases h with
      | cons hb hrest =>
        rw [hb, ih.mpr hrest]
        rfl

/-- `inspect` runs its continuation on the state it is given. -/
theorem inspect_apply (f : σ → Fallible σ ε α) (s : σ) : inspect f s = f s s := rfl

/-- A sequence whose first part succeeds goes on from the state that part left. -/
theorem bind_of_ok {x : Fallible σ ε α} {f : α → Fallible σ ε β} {s s' : σ} {a : α}
    (h : x s = (.ok a, s')) : (x >>= f) s = f a s' := by
  change Fallible.bind x f s = f a s'
  rw [Fallible.bind, h]

/-- A sequence whose first part fails stops in the state that part left. -/
theorem bind_of_error {x : Fallible σ ε α} {f : α → Fallible σ ε β} {s s' : σ} {e : ε}
    (h : x s = (.error e, s')) : (x >>= f) s = (.error e, s') := by
  change Fallible.bind x f s = _
  rw [Fallible.bind, h]

/-- **The rule for sequences**: what holds of the state after the first part, and after the
second part whenever the first one succeeds, holds after both. -/
theorem bind_state {P : σ → Prop} {x : Fallible σ ε α} {f : α → Fallible σ ε β} {s : σ}
    (hx : P (x s).2) (hf : ∀ a s', x s = (.ok a, s') → P s' → P (f a s').2) :
    P ((x >>= f) s).2 := by
  cases hrun : x s with
  | mk result s' =>
    rw [hrun] at hx
    cases result with
    | ok a =>
      rw [bind_of_ok hrun]
      exact hf a s' hrun hx
    | error e =>
      rw [bind_of_error hrun]
      exact hx

/-! ## Computations that may fail -/

/-- From a state with a property, a run leads to a related state, and to `Q` with its value if it
succeeds. -/
def Runs (R : σ → σ → Prop) (P : σ → Prop) (x : Fallible σ ε α) (Q : α → σ → Prop) : Prop :=
  ∀ s, P s → R s (x s).2 ∧ ∀ a, (x s).1 = .ok a → Q a (x s).2

section Runs

variable {R : σ → σ → Prop} {P : σ → Prop} {x : Fallible σ ε α} {Q : α → σ → Prop}

/-- Weaker after, stronger before, and a weaker relation. -/
theorem Runs.weaken {R' : σ → σ → Prop} {P' : σ → Prop} {Q' : α → σ → Prop} (h : Runs R P x Q)
    (hR : ∀ s s', R s s' → R' s s') (hP : ∀ s, P' s → P s) (hQ : ∀ a s, Q a s → Q' a s) :
    Runs R' P' x Q' := by
  intro s hs
  obtain ⟨hrel, hval⟩ := h s (hP s hs)
  exact ⟨hR _ _ hrel, fun a ha => hQ a _ (hval a ha)⟩

/-- What the relation keeps holds before and after. -/
theorem Runs.frame {F : σ → Prop} (h : Runs R P x Q) (hF : ∀ s s', F s → R s s' → F s') :
    Runs R (fun s => P s ∧ F s) x (fun a s => Q a s ∧ F s) := by
  intro s hs
  obtain ⟨hrel, hval⟩ := h s hs.1
  exact ⟨hrel, fun a ha => ⟨hval a ha, hF s _ hs.2 hrel⟩⟩

/-- The rule for `pure`. -/
theorem runs_pure {a : α} (hrefl : ∀ s, R s s) (h : ∀ s, P s → Q a s) :
    Runs R P (pure a : Fallible σ ε α) Q := by
  intro s hs
  refine ⟨hrefl s, fun b hb => ?_⟩
  cases hb
  exact h s hs

/-- **The rule for sequences.** -/
theorem Runs.bind {f : α → Fallible σ ε β} {Q' : β → σ → Prop}
    (htrans : ∀ s s' s'', R s s' → R s' s'' → R s s'') (hx : Runs R P x Q)
    (hf : ∀ a, Runs R (Q a) (f a) Q') : Runs R P (x >>= f) Q' := by
  intro s hs
  obtain ⟨hrel, hval⟩ := hx s hs
  cases hrun : x s with
  | mk result s' =>
    rw [hrun] at hrel hval
    cases result with
    | error e =>
      rw [bind_of_error hrun]
      exact ⟨hrel, fun _ hb => nomatch hb⟩
    | ok a =>
      rw [bind_of_ok hrun]
      obtain ⟨hrel', hval'⟩ := hf a s' (hval a rfl)
      exact ⟨htrans _ _ _ hrel hrel', hval'⟩

/-- **The rule for lists**: a property is kept for each member, and what is then known of the
member stays as it is. -/
theorem Runs.each {f : β → Fallible σ ε Unit} {F : β → σ → Prop} (hrefl : ∀ s, R s s)
    (htrans : ∀ s s' s'', R s s' → R s' s'' → R s s'') {bs : List β}
    (hF : ∀ b ∈ bs, ∀ s s', F b s → R s s' → F b s')
    (h : ∀ b ∈ bs, Runs R P (f b) fun _ s => P s ∧ F b s) :
    Runs R P (each f bs) fun _ s => P s ∧ ∀ b ∈ bs, F b s := by
  induction bs with
  | nil => exact runs_pure hrefl fun _ hs => ⟨hs, fun b hb => absurd hb List.not_mem_nil⟩
  | cons b bs ih =>
    refine Runs.bind htrans (h b List.mem_cons_self) fun _ => ?_
    have hrest := ih (fun b' hb' => hF b' (List.mem_cons_of_mem _ hb'))
      fun b' hb' => h b' (List.mem_cons_of_mem _ hb')
    refine (hrest.frame (hF b List.mem_cons_self)).weaken (fun _ _ h => h) (fun _ hs => hs)
      fun _ s hs => ⟨hs.1.1, fun b' hb' => ?_⟩
    rcases List.mem_cons.mp hb' with rfl | hb'
    · exact hs.2
    · exact hs.1.2 b' hb'

end Runs

end Fallible
