import Mathlib

set_option relaxedAutoImplicit false
set_option autoImplicit false

/-!
# Reading records from a growing sequence

Readers that consume a sequence from the front and stop for one of two reasons: the sequence is
too short, or what was read so far is wrong.  Such a reader is *stable* if more input changes
nothing once it has decided, which is what makes a cut-off record recognisable as one.

## Main definitions

* `Cursor` — a reader with the two kinds of failure.
* `Cursor.readExact`, `Cursor.available`, `Cursor.ensure`, `Cursor.require` — the primitive
  steps.
* `Cursor.Stable` — more input does not change a decision.

## Main results

* `Cursor.Stable.bind` — stability composes.
* `Cursor.Stable.short_of_append` — a proper prefix of what a stable reader consumes is short.
-/

/-- Why a reader stops. -/
inductive ReadFault (ε : Type)
  /-- The sequence ends too early. -/
  | short
  /-- What was read is wrong. -/
  | invalid (e : ε)
deriving DecidableEq

/-- A reader that consumes a sequence from the front. -/
abbrev Cursor (β ε : Type) := StateT (List β) (Except (ReadFault ε))

namespace Cursor

variable {β ε α γ : Type}

/-- Read exactly `n` symbols. -/
def readExact (n : ℕ) : Cursor β ε (List β) := fun s =>
  if n ≤ s.length then .ok (s.take n, s.drop n) else .error .short

/-- Go on only if `n` more symbols are there. -/
def available (n : ℕ) : Cursor β ε Unit := fun s =>
  if s.length < n then .error .short else .ok ((), s)

/-- Go on only if a test on what was read so far succeeds. -/
def ensure (p : Prop) [Decidable p] (e : ε) : Cursor β ε Unit := fun s =>
  if p then .ok ((), s) else .error (.invalid e)

/-- Go on only with a value computed from what was read so far. -/
def require (o : Option α) (e : ε) : Cursor β ε α := fun s =>
  match o with
  | some a => .ok (a, s)
  | none => .error (.invalid e)

/-- Reading `n` symbols splits the sequence after them. -/
theorem readExact_eq_ok_iff {n : ℕ} {s x t : List β} :
    (readExact n : Cursor β ε (List β)) s = .ok (x, t) ↔ s = x ++ t ∧ x.length = n := by
  unfold readExact
  split_ifs with h
  · simp only [Except.ok.injEq, Prod.mk.injEq]
    constructor
    · rintro ⟨rfl, rfl⟩
      exact ⟨(List.take_append_drop n s).symm, List.length_take_of_le h⟩
    · rintro ⟨rfl, rfl⟩
      simp
  · simp only [false_iff, not_and]
    rintro rfl rfl
    simp at h

/-- Reading a sequence of the right length from the front. -/
theorem readExact_append {n : ℕ} (x t : List β) (h : x.length = n) :
    (readExact n : Cursor β ε (List β)) (x ++ t) = .ok (x, t) :=
  readExact_eq_ok_iff.mpr ⟨rfl, h⟩

/-- A bind that succeeds has a first part that succeeds. -/
theorem bind_eq_ok_iff {m : Cursor β ε α} {f : α → Cursor β ε γ} {s t : List β} {c : γ} :
    (m >>= f) s = .ok (c, t) ↔ ∃ a s', m s = .ok (a, s') ∧ f a s' = .ok (c, t) := by
  change (Except.bind (m s) fun p => f p.1 p.2) = _ ↔ _
  cases m s with
  | error e => simp [Except.bind]
  | ok p =>
    obtain ⟨a, s'⟩ := p
    simp [Except.bind]

/-- A bind after a first part that succeeds. -/
theorem bind_of_ok {m : Cursor β ε α} {f : α → Cursor β ε γ} {s s' : List β} {a : α}
    (h : m s = .ok (a, s')) : (m >>= f) s = f a s' := by
  change (Except.bind (m s) fun p => f p.1 p.2) = _
  rw [h]
  rfl

/-- A test that succeeds reads nothing. -/
theorem ensure_eq_ok_iff {p : Prop} [Decidable p] {e : ε} {s t : List β} :
    (ensure p e : Cursor β ε Unit) s = .ok ((), t) ↔ p ∧ s = t := by
  unfold ensure
  split_ifs with h <;> simp [h]

/-- A value that is there reads nothing. -/
theorem require_eq_ok_iff {o : Option α} {e : ε} {s t : List β} {a : α} :
    (require o e : Cursor β ε α) s = .ok (a, t) ↔ o = some a ∧ s = t := by
  unfold require
  cases o <;> simp

/-- `available n` succeeds exactly when `n` symbols are left, and consumes nothing. -/
theorem available_eq_ok_iff {n : ℕ} {s t : List β} :
    (available n : Cursor β ε Unit) s = .ok ((), t) ↔ n ≤ s.length ∧ s = t := by
  unfold available
  split_ifs with h
  · simp only [false_iff, not_and]
    intro hn
    omega
  · simp [Nat.le_of_not_lt h]

/-- More input changes nothing once the reader has decided. -/
def Stable (m : Cursor β ε α) : Prop :=
  ∀ s u, match m s with
    | .ok (a, t) => m (s ++ u) = .ok (a, t ++ u)
    | .error (.invalid e) => m (s ++ u) = .error (.invalid e)
    | .error .short => True

/-- A stable reader that succeeds leaves whatever follows its input unread. -/
theorem Stable.ok {m : Cursor β ε α} (hm : Stable m) {s t : List β} {a : α}
    (h : m s = .ok (a, t)) (u : List β) : m (s ++ u) = .ok (a, t ++ u) := by
  have := hm s u
  rw [h] at this
  exact this

/-- A stable reader that finds its input invalid does so whatever follows it. -/
theorem Stable.invalid {m : Cursor β ε α} (hm : Stable m) {s : List β} {e : ε}
    (h : m s = .error (.invalid e)) (u : List β) : m (s ++ u) = .error (.invalid e) := by
  have := hm s u
  rw [h] at this
  exact this

/-- Returning a value is stable. -/
theorem stable_pure (a : α) : Stable (pure a : Cursor β ε α) := fun _ _ => rfl

/-- Reading exactly `n` symbols is stable. -/
theorem stable_readExact (n : ℕ) : Stable (readExact n : Cursor β ε (List β)) := by
  intro s u
  unfold readExact
  by_cases h : n ≤ s.length
  · have h' : n ≤ (s ++ u).length := by
      rw [List.length_append]
      omega
    simp only [h, h', if_true]
    rw [List.take_append_of_le_length h, List.drop_append_of_le_length h]
  · simp [h]

/-- Asking for `n` symbols is stable. -/
theorem stable_available (n : ℕ) : Stable (available n : Cursor β ε Unit) := by
  intro s u
  unfold available
  by_cases h : s.length < n
  · simp [h]
  · have h' : ¬ (s ++ u).length < n := by
      rw [List.length_append]
      omega
    simp only [h, h', if_false]

/-- A check that reads nothing is stable. -/
theorem stable_ensure (p : Prop) [Decidable p] (e : ε) :
    Stable (ensure p e : Cursor β ε Unit) := by
  intro s u
  unfold ensure
  by_cases h : p <;> simp [h]

/-- Requiring a value is stable. -/
theorem stable_require (o : Option α) (e : ε) : Stable (require o e : Cursor β ε α) := by
  intro s u
  unfold require
  cases o <;> simp

/-- **Stability composes.** -/
theorem Stable.bind {m : Cursor β ε α} {f : α → Cursor β ε γ} (hm : Stable m)
    (hf : ∀ a, Stable (f a)) : Stable (m >>= f) := by
  intro s u
  have hbind : ∀ s, (m >>= f) s = Except.bind (m s) fun p => f p.1 p.2 := fun _ => rfl
  rw [hbind, hbind]
  cases h : m s with
  | ok p =>
    rw [hm.ok h u]
    exact hf p.1 p.2 u
  | error e =>
    cases e with
    | short => trivial
    | invalid e =>
      rw [hm.invalid h u]
      rfl

/-- **A cut-off record is short.**  If a stable reader consumes a sequence exactly, it is short
on every proper prefix of it. -/
theorem Stable.short_of_append {m : Cursor β ε α} (hm : Stable m) {s u : List β} {a : α}
    (h : m (s ++ u) = .ok (a, [])) (hu : u ≠ []) : m s = .error .short := by
  cases hs : m s with
  | ok p =>
    have := hm.ok hs u
    rw [h] at this
    simp only [Except.ok.injEq, Prod.mk.injEq, List.nil_eq, List.append_eq_nil_iff] at this
    exact absurd this.2.2 hu
  | error e =>
    cases e with
    | short => rfl
    | invalid e =>
      have := hm.invalid hs u
      rw [h] at this
      exact absurd this (by simp)

end Cursor
