import Furrow.Lib.OrdMap

set_option relaxedAutoImplicit false
set_option autoImplicit false

/-!
# Pairings

Pairs of keys and values come in one after the other, and are put into a map.  A key that comes
again must have the value it had.  Two such maps, one for each direction, tell whether the pairs
match things one to one.

## Main definitions

* `Pairing.Functional` — a key has one value only.
* `Pairing.Consistent` — the pairs go together with a map.

## Main results

* `Pairing.consistent_cons` — what one pair does to the map.
* `Pairing.functional_iff` — both directions of a list of pairs made from one list.
-/

namespace Pairing

variable {K V : Type}

/-- A key has one value only. -/
def Functional (l : List (K × V)) : Prop := ∀ x ∈ l, ∀ y ∈ l, x.1 = y.1 → x.2 = y.2

/-- Pairs made from the members of a list, both ways. -/
theorem functional_iff {α : Type} (l : List α) (f : α → K) (g : α → V) :
    (Functional (l.map fun a => (f a, g a)) ∧ Functional (l.map fun a => (g a, f a))) ↔
      ∀ a ∈ l, ∀ b ∈ l, f a = f b ↔ g a = g b := by
  constructor
  · rintro ⟨hf, hg⟩ a ha b hb
    exact ⟨hf _ (List.mem_map_of_mem ha) _ (List.mem_map_of_mem hb),
      hg _ (List.mem_map_of_mem ha) _ (List.mem_map_of_mem hb)⟩
  · intro h
    constructor
    all_goals
      intro x hx y hy hxy
      obtain ⟨a, ha, rfl⟩ := List.mem_map.mp hx
      obtain ⟨b, hb, rfl⟩ := List.mem_map.mp hy
    · exact (h a ha b hb).mp hxy
    · exact (h a ha b hb).mpr hxy

section Maps

variable [LinearOrder K]

/-- The pairs agree with a map, and with one another. -/
def Consistent (m : OrdMap K V) (l : List (K × V)) : Prop :=
  (∀ x ∈ l, ∀ v, m.get? x.1 = some v → v = x.2) ∧ Functional l

/-- A list is consistent with the empty map exactly when it pairs no key twice. -/
theorem consistent_empty (l : List (K × V)) : Consistent OrdMap.empty l ↔ Functional l :=
  ⟨fun h => h.2, fun h => ⟨fun _ _ _ hv => absurd hv (by simp), h⟩⟩

/-- **A pair goes together with a map if its key is new or has its value; then it is in the
map.** -/
theorem consistent_cons (m : OrdMap K V) (k : K) (v : V) (l : List (K × V)) :
    Consistent m ((k, v) :: l) ↔ (∀ w, m.get? k = some w → w = v) ∧ Consistent
      (m.insert k v) l := by
  constructor
  · rintro ⟨hmap, hfun⟩
    refine ⟨fun w hw => hmap (k, v) List.mem_cons_self w hw, ?_, ?_⟩
    · intro x hx w hw
      rw [OrdMap.get?_insert] at hw
      split_ifs at hw with hk
      · rw [← Option.some.inj hw]
        exact hfun (k, v) List.mem_cons_self x (List.mem_cons_of_mem _ hx) hk.symm
      · exact hmap x (List.mem_cons_of_mem _ hx) w hw
    · exact fun x hx y hy => hfun x (List.mem_cons_of_mem _ hx) y (List.mem_cons_of_mem _ hy)
  · rintro ⟨hk, hmap, hfun⟩
    have hhead : ∀ x ∈ l, x.1 = k → x.2 = v := by
      intro x hx hxk
      exact (hmap x hx v (by rw [OrdMap.get?_insert, if_pos hxk])).symm
    refine ⟨?_, ?_⟩
    · intro x hx w hw
      rcases List.mem_cons.mp hx with rfl | hx
      · exact hk w hw
      · by_cases hxk : x.1 = k
        · rw [hhead x hx hxk]
          exact hk w (hxk ▸ hw)
        · exact hmap x hx w (by rw [OrdMap.get?_insert, if_neg hxk, hw])
    · intro x hx y hy hxy
      rcases List.mem_cons.mp hx with rfl | hx <;> rcases List.mem_cons.mp hy with rfl | hy
      · rfl
      · exact (hhead y hy hxy.symm).symm
      · exact hhead x hx hxy
      · exact hfun x hx y hy hxy

end Maps

end Pairing
