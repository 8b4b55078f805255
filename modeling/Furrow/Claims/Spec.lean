import Furrow.Claims.Glob

set_option relaxedAutoImplicit false
set_option autoImplicit false

/-!
# What claim patterns mean

The paths of a pattern, as a relation between the two: what each wildcard stands for, which byte
strings are character classes, and what a class selects.  The matcher decides this relation.

## Main definitions

* `Furrow.ClassItem`, `Furrow.ClassItems`, `Furrow.IsClass` — character classes.
* `Furrow.PathMatch` — the paths of a pattern.

## Main results

* `Furrow.characterClass_eq_some_iff` — the class parser reads exactly the classes.
* `Furrow.matchesPath_iff` — the matcher decides the relation.
-/

namespace Furrow

/-! ### Character classes -/

/-- A member of a character class: a byte, or the bytes from one to another. -/
inductive ClassItem
  | single (c : Byte)
  | range (lo hi : Byte)

/-- Whether a member has a byte. -/
def ClassItem.selects (value : Byte) : ClassItem → Bool
  | .single c => c = value
  | .range lo hi => lo ≤ value && value ≤ hi

/-- A hyphen and the end of a range. -/
def RangeFollows (pattern : Bytes) : Prop := ∃ hi rest, pattern = 45 :: hi :: rest ∧ hi ≠ 93

/-- The members of a class up to the `]` that closes it, and the pattern after it. -/
inductive ClassItems : Bytes → List ClassItem → Bytes → Prop
  | close (next : Bytes) : ClassItems (93 :: next) [] next
  | range {lo hi : Byte} {rest next : Bytes} {items : List ClassItem} (hlo : lo ≠ 93)
      (hhi : hi ≠ 93) (h : ClassItems rest items next) :
      ClassItems (lo :: 45 :: hi :: rest) (.range lo hi :: items) next
  | single {c : Byte} {rest next : Bytes} {items : List ClassItem} (hc : c ≠ 93)
      (hrange : ¬ RangeFollows rest) (h : ClassItems rest items next) :
      ClassItems (c :: rest) (.single c :: items) next

/-- The bytes that negate a class: `!` and `^`. -/
def isNegation (c : Byte) : Bool := c = 33 || c = 94

/-- The pattern after a `[` is a class: members, perhaps negated, and at least one of them. -/
def IsClass (pattern : Bytes) (negated : Bool) (items : List ClassItem) (next : Bytes) : Prop :=
  items ≠ [] ∧ negated = pattern.head?.any isNegation ∧
    ClassItems (if negated then pattern.tail else pattern) items next

/-- Whether a class selects a byte. -/
def classSelects (negated : Bool) (items : List ClassItem) (value : Byte) : Bool :=
  items.any (ClassItem.selects value) != negated

/-- The two readings of what comes after a byte of a class. -/
theorem classBody_cons (value : Byte) {c : Byte} (rest : Bytes) (matched : Bool) (hc : c ≠ 93) :
    (∃ hi rest', rest = 45 :: hi :: rest' ∧ hi ≠ 93 ∧ classBody value (c :: rest) matched =
        classBody value rest' (matched || (ClassItem.range c hi).selects value)) ∨
      (¬ RangeFollows rest ∧ classBody value (c :: rest) matched =
        classBody value rest (matched || (ClassItem.single c).selects value)) := by
  rcases rest with - | ⟨d, - | ⟨e, rest⟩⟩
  · right
    refine ⟨?_, by simp [classBody, hc]⟩
    rintro ⟨hi, rest, h, -⟩
    cases h
  · right
    refine ⟨?_, by simp [classBody, hc, ClassItem.selects]⟩
    rintro ⟨hi, rest, h, -⟩
    cases h
  · by_cases hrange : d = 45 ∧ e ≠ 93
    · obtain ⟨rfl, he⟩ := hrange
      left
      refine ⟨e, rest, rfl, he, ?_⟩
      rw [classBody, if_neg hc]
      simp only [he, ne_eq, not_false_eq_true, and_self, if_true]
      rfl
    · right
      refine ⟨?_, ?_⟩
      · rintro ⟨hi, rest', h, hhi⟩
        cases h
        exact hrange ⟨rfl, hhi⟩
      · rw [classBody, if_neg hc]
        simp only [hrange, if_false]
        rfl

/-- The loop of the class parser reads the members. -/
theorem classBody_eq_some_iff {value : Byte} (pattern : Bytes) (matched m : Bool) (next : Bytes) :
    classBody value pattern matched = some (m, next) ↔
      ∃ items, ClassItems pattern items next ∧
        m = (matched || items.any (ClassItem.selects value)) := by
  induction hn : pattern.length using Nat.strong_induction_on generalizing pattern matched with
  | _ n ih =>
  rcases pattern with - | ⟨c, rest⟩
  · simp only [classBody, reduceCtorEq, false_iff, not_exists, not_and]
    rintro items h
    cases h
  rw [List.length_cons] at hn
  by_cases hc : c = 93
  · subst hc
    rw [show classBody value (93 :: rest) matched = some (matched, rest) by
        unfold classBody
        rfl,
      Option.some.injEq, Prod.mk.injEq]
    constructor
    · rintro ⟨rfl, rfl⟩
      exact ⟨[], .close rest, by simp⟩
    · rintro ⟨items, hitems, rfl⟩
      cases hitems with
      | close => simp
      | range hlo => exact absurd rfl hlo
      | single hc => exact absurd rfl hc
  · rcases classBody_cons value rest matched hc with
      ⟨hi, rest', rfl, hhi, heq⟩ | ⟨hrange, heq⟩
    · rw [heq, ih rest'.length (by simp only [List.length_cons] at hn; omega) rest' _ rfl]
      constructor
      · rintro ⟨items, hitems, rfl⟩
        exact ⟨_, .range hc hhi hitems, by simp [Bool.or_assoc]⟩
      · rintro ⟨items, hitems, rfl⟩
        cases hitems with
        | close => exact absurd rfl hc
        | range hlo hhi h => exact ⟨_, h, by simp [Bool.or_assoc]⟩
        | single hc hrange h => exact absurd ⟨hi, rest', rfl, hhi⟩ hrange
    · rw [heq, ih rest.length (by omega) rest _ rfl]
      constructor
      · rintro ⟨items, hitems, rfl⟩
        exact ⟨_, .single hc hrange hitems, by simp [Bool.or_assoc]⟩
      · rintro ⟨items, hitems, rfl⟩
        cases hitems with
        | close => exact absurd rfl hc
        | range hlo hhi h => exact absurd ⟨_, _, rfl, hhi⟩ hrange
        | single hc hrange h => exact ⟨_, h, by simp [Bool.or_assoc]⟩

/-- **The class parser reads exactly the classes**, for a byte that is not a separator. -/
theorem characterClass_eq_some_iff {pattern : Bytes} {value : Byte} (hvalue : value ≠ slash)
    (m : Bool) (next : Bytes) :
    characterClass pattern (some value) = some (m, next) ↔
      ∃ negated items, IsClass pattern negated items next ∧
      m = classSelects negated items value := by
  have hnegated : decide (pattern.head? = some 33 ∨ pattern.head? = some 94) =
      pattern.head?.any isNegation := by
    cases pattern with
    | nil => simp
    | cons c rest => simp [isNegation, Bool.decide_or]
  unfold characterClass IsClass
  rw [Option.filter_some, if_pos (by simpa using hvalue)]
  simp only [hnegated]
  generalize hcontent :
    (if pattern.head?.any isNegation = true then pattern.tail else pattern) = content
  have hempty : ∀ items, ClassItems content items next →
      (items = [] ↔ content.head? = some 93) := by
    intro items h
    cases h with
    | close => simp
    | range hlo => simp [hlo]
    | single hc => simp [hc]
  constructor
  · intro h
    split at h
    · cases h
    · next hhead =>
      obtain ⟨⟨m', next'⟩, hbody, heq⟩ := Option.map_eq_some_iff.mp h
      simp only [Prod.mk.injEq] at heq
      obtain ⟨rfl, rfl⟩ := heq
      obtain ⟨items, hitems, rfl⟩ := (classBody_eq_some_iff _ _ _ _).mp hbody
      refine ⟨_, items, ⟨fun hnil => hhead ((hempty items hitems).mp hnil), rfl, ?_⟩, ?_⟩
      · rw [hcontent]
        exact hitems
      · simp [classSelects]
  · rintro ⟨negated, items, ⟨hne, rfl, hitems⟩, rfl⟩
    rw [hcontent] at hitems
    rw [if_neg fun hhead => hne ((hempty items hitems).mpr hhead),
      (classBody_eq_some_iff content false _ next).mpr ⟨items, hitems, rfl⟩]
    simp [classSelects]

/-- A byte string of which a class is read does not begin with a separator. -/
theorem characterClass_slash (pattern : Bytes) : characterClass pattern (some slash) = none := by
  unfold characterClass
  rw [Option.filter_some, if_neg (by simp)]

/-- The matcher one byte of the pattern at a time. -/
theorem matchesPath_cons (c : Byte) (pattern path : Bytes) :
    matchesPath (c :: pattern) path =
      if c = 42 then
        let recursive : Bool := pattern.head? = some 42
        let next := if recursive then pattern.tail else pattern
        matchesPath next path ||
          match path with
          | [] => false
          | b :: rest => (recursive || b ≠ slash) && matchesPath (c :: pattern) rest
      else if c = 63 then
        match path with
        | [] => false
        | b :: rest => b ≠ slash && matchesPath pattern rest
      else if c = 91 then
        match characterClass pattern path.head? with
        | some (matched, next) => matched && matchesPath next path.tail
        | none => path.head? = some 91 && matchesPath pattern path.tail
      else path.head? = some c && matchesPath pattern path.tail := by
  have hfuel : ∀ p s : Bytes, p.length + s.length < pattern.length + 1 + path.length →
      globMatch (pattern.length + 1 + path.length) p s = matchesPath p s :=
    fun p s h => globMatch_eq_matchesPath h
  have htail : path.tail.length ≤ path.length := by
    rw [List.length_tail]
    omega
  rw [matchesPath, List.length_cons, globMatch_cons]
  split_ifs with hstar hquestion hclass
  · have hnext :
        (if decide (pattern.head? = some 42) = true then pattern.tail else pattern).length ≤
          pattern.length := by
      split_ifs
      · rw [List.length_tail]
        omega
      · exact le_rfl
    simp only
    rw [hfuel _ _ (by omega)]
    cases path with
    | nil => rfl
    | cons b rest =>
      simp only
      rw [hfuel (c :: pattern) rest (by simp only [List.length_cons]; omega)]
  · cases path with
    | nil => rfl
    | cons b rest =>
      simp only
      rw [hfuel pattern rest (by simp only [List.length_cons]; omega)]
  · rcases hcc : characterClass pattern path.head? with - | ⟨matched, next⟩
    · simp only
      rw [hfuel pattern path.tail (by omega)]
    · simp only
      have := length_of_characterClass hcc
      rw [hfuel next path.tail (by omega)]
  · rw [hfuel pattern path.tail (by omega)]

/-! ### Patterns -/

/-- **The paths of a pattern.**  `**` stands for any bytes, `*` for any bytes of one component, `?`
for one of them and a class for one that it selects; a `[` that opens no class stands for itself,
as every other byte does. -/
inductive PathMatch : Bytes → Bytes → Prop
  | nil : PathMatch [] []
  | recursive {pattern path : Bytes} (skipped : Bytes) (h : PathMatch pattern path) :
      PathMatch (42 :: 42 :: pattern) (skipped ++ path)
  | star {pattern path : Bytes} (hsingle : pattern.head? ≠ some 42) (skipped : Bytes)
      (hskipped : slash ∉ skipped) (h : PathMatch pattern path) :
      PathMatch (42 :: pattern) (skipped ++ path)
  | one {pattern path : Bytes} {b : Byte} (hb : b ≠ slash) (h : PathMatch pattern path) :
      PathMatch (63 :: pattern) (b :: path)
  | inClass {pattern next path : Bytes} {negated : Bool} {items : List ClassItem} {b : Byte}
      (hclass : IsClass pattern negated items next) (hb : b ≠ slash)
      (hselects : classSelects negated items b = true) (h : PathMatch next path) :
      PathMatch (91 :: pattern) (b :: path)
  | bracket {pattern path : Bytes}
      (hclass : ∀ negated items next, ¬ IsClass pattern negated items next) (h :
        PathMatch pattern path) : PathMatch (91 :: pattern) (91 :: path)
  | literal {pattern path : Bytes} {c : Byte} (hc : isWild c = false) (h : PathMatch pattern path) :
      PathMatch (c :: pattern) (c :: path)

/-- A pattern that is not a class is one for no byte. -/
theorem characterClass_eq_none_iff {pattern : Bytes} {value : Byte} (hvalue : value ≠ slash) :
    characterClass pattern (some value) = none ↔
      ∀ negated items next, ¬ IsClass pattern negated items next := by
  constructor
  · intro h negated items next hclass
    have := (characterClass_eq_some_iff hvalue _ next).mpr ⟨negated, items, hclass, rfl⟩
    rw [h] at this
    cases this
  · intro h
    rcases hcc : characterClass pattern (some value) with - | ⟨m, next⟩
    · rfl
    · obtain ⟨negated, items, hclass, -⟩ := (characterClass_eq_some_iff hvalue m next).mp hcc
      exact absurd hclass (h negated items next)

/-- A recursive wildcard takes up any bytes. -/
theorem matchesPath_recursive {pattern path : Bytes} (skipped : Bytes)
    (h : matchesPath pattern path = true) :
    matchesPath (42 :: 42 :: pattern) (skipped ++ path) = true := by
  induction skipped with
  | nil =>
    rw [matchesPath_cons]
    simp [h]
  | cons b skipped ih =>
    rw [List.cons_append, matchesPath_cons]
    simp [ih]

/-- A wildcard takes up any bytes of one component. -/
theorem matchesPath_star {pattern path : Bytes} (hsingle : pattern.head? ≠ some 42)
    (skipped : Bytes) (hskipped : slash ∉ skipped) (h : matchesPath pattern path = true) :
    matchesPath (42 :: pattern) (skipped ++ path) = true := by
  induction skipped with
  | nil =>
    rw [matchesPath_cons]
    simp [h, hsingle]
  | cons b skipped ih =>
    rw [List.mem_cons, not_or] at hskipped
    rw [List.cons_append, matchesPath_cons]
    simp [ih hskipped.2, Ne.symm hskipped.1]

/-- Every path of a pattern is found. -/
theorem matchesPath_of_pathMatch {pattern path : Bytes} (h : PathMatch pattern path) :
    matchesPath pattern path = true := by
  induction h with
  | nil => rfl
  | recursive skipped h ih => exact matchesPath_recursive skipped ih
  | star hsingle skipped hskipped h ih => exact matchesPath_star hsingle skipped hskipped ih
  | one hb h ih =>
    rw [matchesPath_cons]
    simp [hb, ih]
  | inClass hclass hb hselects h ih =>
    have hcc := (characterClass_eq_some_iff hb _ _).mpr ⟨_, _, hclass, rfl⟩
    rw [matchesPath_cons]
    simp [hcc, hselects, ih]
  | bracket hclass h ih =>
    have hcc := (characterClass_eq_none_iff (show (91 : Byte) ≠ slash by decide)).mpr hclass
    rw [matchesPath_cons]
    simp [hcc, ih]
  | @literal pattern path c hc h ih =>
    simp only [isWild, Bool.or_eq_false_iff, decide_eq_false_iff_not] at hc
    rw [matchesPath_cons]
    simp [hc, ih]

/-- What is found is a path of the pattern. -/
theorem pathMatch_of_matchesPath {pattern path : Bytes} (h : matchesPath pattern path = true) :
    PathMatch pattern path := by
  induction hn : pattern.length + path.length using Nat.strong_induction_on
    generalizing pattern path with
  | _ n ih =>
  rcases pattern with - | ⟨c, pattern⟩
  · cases path with
    | nil => exact .nil
    | cons b path => cases h
  rw [List.length_cons] at hn
  rw [matchesPath_cons] at h
  split_ifs at h with hstar hquestion hclass
  · subst hstar
    simp only [Bool.or_eq_true] at h
    rcases h with h | h
    · -- the wildcard stands for nothing more
      by_cases hhead : pattern.head? = some 42
      · obtain ⟨rest, rfl⟩ : ∃ rest, pattern = 42 :: rest := by
          cases pattern with
          | nil => cases hhead
          | cons d rest => exact ⟨rest, by simpa using hhead⟩
        simp only [List.head?_cons, decide_true, if_true, List.tail_cons] at h
        rw [List.length_cons] at hn
        exact .recursive [] (ih _ (by omega) h rfl)
      · simp only [hhead, decide_false, Bool.false_eq_true, if_false] at h
        exact .star hhead [] List.not_mem_nil (ih _ (by omega) h rfl)
    · -- it takes up one byte more
      rcases path with - | ⟨b, rest⟩
      · cases h
      simp only [Bool.and_eq_true, Bool.or_eq_true, decide_eq_true_eq] at h
      rw [List.length_cons] at hn
      have hrest := ih (pattern.length + 1 + rest.length) (by omega) h.2 (by rw [List.length_cons])
      cases hrest with
      | recursive skipped hrest => exact .recursive (b :: skipped) hrest
      | star hsingle skipped hskipped hrest =>
        refine .star hsingle (b :: skipped) ?_ hrest
        rw [List.mem_cons, not_or]
        rcases h.1 with hrec | hb
        · exact absurd hrec hsingle
        · exact ⟨Ne.symm hb, hskipped⟩
      | literal hc => exact absurd hc (by decide)
  · subst hquestion
    rcases path with - | ⟨b, rest⟩
    · cases h
    simp only [Bool.and_eq_true, decide_eq_true_eq] at h
    rw [List.length_cons] at hn
    exact .one h.1 (ih _ (by omega) h.2 rfl)
  · subst hclass
    rcases path with - | ⟨b, rest⟩
    · simp [characterClass] at h
    rw [List.length_cons] at hn
    simp only [List.head?_cons, List.tail_cons] at h
    by_cases hb : b = slash
    · subst hb
      rw [characterClass_slash] at h
      simp only [Bool.and_eq_true, decide_eq_true_eq, Option.some.injEq] at h
      exact absurd h.1 (by decide)
    rcases hcc : characterClass pattern (some b) with - | ⟨m, next⟩
    · rw [hcc] at h
      simp only [Bool.and_eq_true, decide_eq_true_eq, Option.some.injEq] at h
      obtain ⟨rfl, h⟩ := h
      exact .bracket ((characterClass_eq_none_iff hb).mp hcc) (ih _ (by omega) h rfl)
    · rw [hcc] at h
      simp only [Bool.and_eq_true] at h
      have hlen := length_of_characterClass hcc
      obtain ⟨negated, items, hclass, rfl⟩ := (characterClass_eq_some_iff hb m next).mp hcc
      exact .inClass hclass hb h.1 (ih _ (by omega) h.2 rfl)
  · rcases path with - | ⟨b, rest⟩
    · simp at h
    rw [List.length_cons] at hn
    simp only [List.head?_cons, List.tail_cons, Bool.and_eq_true, decide_eq_true_eq,
      Option.some.injEq] at h
    obtain ⟨rfl, h⟩ := h
    refine .literal ?_ (ih _ (by omega) h rfl)
    simp [isWild, hstar, hquestion, hclass]

/-- **The matcher decides which paths are of a pattern.** -/
theorem matchesPath_iff {pattern path : Bytes} :
    matchesPath pattern path = true ↔ PathMatch pattern path :=
  ⟨pathMatch_of_matchesPath, matchesPath_of_pathMatch⟩

end Furrow
