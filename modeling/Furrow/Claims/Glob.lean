import Mathlib
import Furrow.ContentClass

set_option relaxedAutoImplicit false
set_option autoImplicit false

/-!
# Claim patterns

`claims.rs`: the patterns of claims, the paths that they match, and the test for two patterns
that may match a common path.  The test compares the components before the first wildcard.

## Main definitions

* `Furrow.matchesPath` — whether a pattern matches a path.
* `Furrow.patternsMayOverlap` — the test that claims are checked with.

## Main results

* `Furrow.patternsMayOverlap_of_matchesPath` — patterns that match a common path do not pass the
  test.
-/

namespace Furrow

/-! ## Patterns and paths -/

/-- The bytes that are more than themselves in a pattern: `*`, `?` and `[`. -/
def isWild (b : Byte) : Bool := b = 42 || b = 63 || b = 91

/-- `contains_wildcard`. -/
def containsWildcard (value : Bytes) : Bool := value.any isWild

/-- The rest of a character class, with whether the byte was matched so far; `]` ends it. -/
def classBody (value : Byte) : Bytes → Bool → Option (Bool × Bytes)
  | [], _ => none
  | c :: rest, matched =>
    if c = 93 then some (matched, rest)
    else
      match rest with
      | d :: e :: rest' =>
        if d = 45 ∧ e ≠ 93 then classBody value rest' (matched || (c ≤ value && value ≤ e))
        else classBody value (d :: e :: rest') (matched || c = value)
      | rest => classBody value rest (matched || c = value)

/-- A character class, from the byte after `[`: whether it matches, and what comes after it.  A
class without an end, or with nothing in it, is none. -/
def characterClass (pattern : Bytes) (value : Option Byte) : Option (Bool × Bytes) :=
  match value.filter fun b => b ≠ slash with
  | none => none
  | some value =>
    let negated : Bool := pattern.head? = some 33 ∨ pattern.head? = some 94
    let content := if negated then pattern.tail else pattern
    if content.head? = some 93 then none
    else (classBody value content false).map fun p => (p.1 != negated, p.2)

/-- Match a pattern against a path, from some byte of each on (`glob_match`).  A step of the
recursion shortens one of the two. -/
def globMatch : ℕ → Bytes → Bytes → Bool
  | 0, _, _ => false
  | _ + 1, [], path => path.isEmpty
  | fuel + 1, c :: pattern, path =>
    if c = 42 then
      let recursive : Bool := pattern.head? = some 42
      let next := if recursive then pattern.tail else pattern
      globMatch fuel next path ||
        match path with
        | [] => false
        | b :: rest => (recursive || b ≠ slash) && globMatch fuel (c :: pattern) rest
    else if c = 63 then
      match path with
      | [] => false
      | b :: rest => b ≠ slash && globMatch fuel pattern rest
    else if c = 91 then
      match characterClass pattern path.head? with
      | some (matched, next) => matched && globMatch fuel next path.tail
      | none => path.head? = some 91 && globMatch fuel pattern path.tail
    else path.head? = some c && globMatch fuel pattern path.tail

/-- The match of a pattern that is not empty, by its first byte. -/
theorem globMatch_cons (fuel : ℕ) (c : Byte) (pattern path : Bytes) :
    globMatch (fuel + 1) (c :: pattern) path =
      if c = 42 then
        let recursive : Bool := pattern.head? = some 42
        let next := if recursive then pattern.tail else pattern
        globMatch fuel next path ||
          match path with
          | [] => false
          | b :: rest => (recursive || b ≠ slash) && globMatch fuel (c :: pattern) rest
      else if c = 63 then
        match path with
        | [] => false
        | b :: rest => b ≠ slash && globMatch fuel pattern rest
      else if c = 91 then
        match characterClass pattern path.head? with
        | some (matched, next) => matched && globMatch fuel next path.tail
        | none => path.head? = some 91 && globMatch fuel pattern path.tail
      else path.head? = some c && globMatch fuel pattern path.tail := by
  rw [globMatch.eq_def]

/-- **Whether a pattern matches a path.** -/
def matchesPath (pattern path : Bytes) : Bool :=
  globMatch (pattern.length + path.length + 1) pattern path

/-- The components before the first wildcard. -/
def literalPrefix (pattern : Bytes) : List Bytes :=
  (pattern.splitOn slash).takeWhile fun component => !containsWildcard component

/-- **The test for two patterns that may match a common path.** -/
def patternsMayOverlap (left right : Bytes) : Bool :=
  if left = right then true
  else if !containsWildcard left && !containsWildcard right then false
  else
    (literalPrefix left).isPrefixOf (literalPrefix right) ||
      (literalPrefix right).isPrefixOf (literalPrefix left)

/-! ## Enough steps -/

/-- What is left after the body of a class is shorter. -/
theorem length_of_classBody {value : Byte} {pattern : Bytes} {matched m : Bool} {next : Bytes}
    (h : classBody value pattern matched = some (m, next)) : next.length < pattern.length := by
  fun_induction classBody value pattern matched with
  | case1 => exact absurd h (by simp)
  | case2 rest matched =>
    rw [← (Prod.mk.inj (Option.some.inj h)).2]
    simp
  | case3 matched c hc d e rest' hrange ih =>
    have := ih h
    simp only [List.length_cons]
    omega
  | case4 matched c hc d e rest' hrange ih =>
    have := ih h
    simp only [List.length_cons] at this ⊢
    omega
  | case5 matched c rest hc hshort ih =>
    have := ih h
    simp only [List.length_cons]
    omega

/-- What is left after a class is shorter, and a class consumes a byte. -/
theorem length_of_characterClass {pattern : Bytes} {value : Option Byte} {m : Bool} {next : Bytes}
    (h : characterClass pattern value = some (m, next)) :
    next.length < pattern.length ∧ value ≠ none := by
  unfold characterClass at h
  split at h
  · exact absurd h (by simp)
  · rename_i b hb
    have hvalue : value ≠ none := by
      rintro rfl
      exact absurd hb (by simp)
    refine ⟨?_, hvalue⟩
    dsimp only at h
    split_ifs at h
    · obtain ⟨p, hp, heq⟩ := Option.map_eq_some_iff.mp h
      have hlen := length_of_classBody hp
      rw [(Prod.mk.inj heq).2, List.length_tail] at hlen
      omega
    · obtain ⟨p, hp, heq⟩ := Option.map_eq_some_iff.mp h
      have hlen := length_of_classBody hp
      rwa [(Prod.mk.inj heq).2] at hlen

/-- With as many steps as there are bytes, more steps change nothing. -/
theorem globMatch_succ {fuel : ℕ} {pattern path : Bytes}
    (h : pattern.length + path.length < fuel) :
    globMatch (fuel + 1) pattern path = globMatch fuel pattern path := by
  induction fuel generalizing pattern path with
  | zero => exact absurd h (Nat.not_lt_zero _)
  | succ fuel ih =>
    cases pattern with
    | nil => rfl
    | cons c pattern =>
      rw [List.length_cons] at h
      rw [globMatch_cons, globMatch_cons]
      split_ifs with hstar hquestion hclass
      · have hnext : (if (decide (pattern.head? = some 42)) = true then pattern.tail
            else pattern).length ≤ pattern.length := by
          split_ifs
          · rw [List.length_tail]
            omega
          · exact Nat.le_refl _
        dsimp only
        rw [ih (by omega)]
        cases path with
        | nil => rfl
        | cons b rest =>
          rw [List.length_cons] at h
          dsimp only
          rw [ih (by simp only [List.length_cons]; omega)]
      · cases path with
        | nil => rfl
        | cons b rest =>
          rw [List.length_cons] at h
          dsimp only
          rw [ih (by omega)]
      · split
        · rename_i matched next hsome
          obtain ⟨hlen, -⟩ := length_of_characterClass hsome
          rw [ih (by rw [List.length_tail]; omega)]
        · rw [ih (by rw [List.length_tail]; omega)]
      · rw [ih (by rw [List.length_tail]; omega)]

/-- **A match does not depend on how many steps there are**, as long as there are enough. -/
theorem globMatch_eq_matchesPath {fuel : ℕ} {pattern path : Bytes}
    (h : pattern.length + path.length < fuel) :
    globMatch fuel pattern path = matchesPath pattern path := by
  unfold matchesPath
  induction fuel with
  | zero => exact absurd h (Nat.not_lt_zero _)
  | succ fuel ih =>
    rcases Nat.lt_succ_iff_lt_or_eq.mp h with hlt | heq
    · rw [globMatch_succ hlt, ih hlt]
    · rw [heq]

/-! ## Literal components -/

/-- A literal byte matches itself only. -/
theorem globMatch_literal {fuel : ℕ} {c : Byte} {pattern path : Bytes} (hc : isWild c = false)
    (h : globMatch fuel (c :: pattern) path = true) :
    ∃ rest fuel', path = c :: rest ∧ globMatch fuel' pattern rest = true := by
  cases fuel with
  | zero => exact absurd h (by simp [globMatch])
  | succ fuel =>
    simp only [isWild, Bool.or_eq_false_iff, decide_eq_false_iff_not] at hc
    obtain ⟨⟨hstar, hquestion⟩, hclass⟩ := hc
    rw [globMatch_cons, if_neg hstar, if_neg hquestion, if_neg hclass, Bool.and_eq_true] at h
    obtain ⟨hhead, hrest⟩ := h
    cases path with
    | nil => exact absurd hhead (by simp)
    | cons b rest =>
      rw [decide_eq_true_eq, List.head?_cons, Option.some.injEq] at hhead
      exact ⟨rest, fuel, by rw [hhead], hrest⟩

/-- A literal start of a pattern is the start of every path that it matches. -/
theorem globMatch_append {fuel : ℕ} {literal pattern path : Bytes}
    (hliteral : containsWildcard literal = false)
    (h : globMatch fuel (literal ++ pattern) path = true) :
    ∃ rest fuel', path = literal ++ rest ∧ globMatch fuel' pattern rest = true := by
  induction literal generalizing fuel path with
  | nil => exact ⟨path, fuel, rfl, h⟩
  | cons c literal ih =>
    obtain ⟨hc, hrest⟩ : isWild c = false ∧ containsWildcard literal = false := by
      simpa [containsWildcard] using hliteral
    obtain ⟨rest, fuel', rfl, hmatch⟩ := globMatch_literal hc h
    obtain ⟨rest', fuel'', rfl, hmatch'⟩ := ih hrest hmatch
    exact ⟨rest', fuel'', rfl, hmatch'⟩

/-- A literal pattern matches itself only. -/
theorem eq_of_globMatch {fuel : ℕ} {literal path : Bytes}
    (hliteral : containsWildcard literal = false) (h : globMatch fuel literal path = true) :
    path = literal := by
  rw [← List.append_nil literal] at h
  obtain ⟨rest, fuel', rfl, hmatch⟩ := globMatch_append hliteral h
  cases fuel' with
  | zero => exact absurd hmatch (by simp [globMatch])
  | succ fuel' =>
    rw [globMatch, List.isEmpty_iff] at hmatch
    rw [hmatch, List.append_nil]

/-- **A path that a pattern matches starts with its literal components.** -/
theorem literalPrefix_isPrefix {fuel : ℕ} {pattern path : Bytes}
    (h : globMatch fuel pattern path = true) :
    literalPrefix pattern <+: path.splitOn slash := by
  induction hlen : pattern.length using Nat.strong_induction_on generalizing fuel pattern path with
  | _ n ih =>
    by_cases hslash : slash ∈ pattern
    · -- the first component, and the pattern after it
      obtain ⟨first, rest, rfl, hfirst⟩ := List.eq_append_cons_of_mem hslash
      unfold literalPrefix
      rw [List.splitOn_append_cons_self_of_not_mem hfirst, List.takeWhile_cons]
      split_ifs with hliteral
      · have hwild : containsWildcard (first ++ [slash]) = false := by
          rw [containsWildcard, List.any_append, Bool.or_eq_false_iff]
          rw [Bool.not_eq_true'] at hliteral
          exact ⟨hliteral, by decide⟩
        rw [show first ++ slash :: rest = (first ++ [slash]) ++ rest by simp] at h
        obtain ⟨path', fuel', rfl, hmatch⟩ := globMatch_append hwild h
        rw [List.append_assoc, List.singleton_append,
          List.splitOn_append_cons_self_of_not_mem hfirst]
        have hshort : rest.length < n := by
          rw [← hlen, List.length_append, List.length_cons]
          omega
        exact List.cons_prefix_cons.mpr ⟨rfl, ih rest.length hshort hmatch rfl⟩
      · exact List.nil_prefix
    · unfold literalPrefix
      rw [List.splitOn_eq_singleton hslash, List.takeWhile_cons]
      split_ifs with hliteral
      · rw [eq_of_globMatch (by simpa using hliteral) h, List.splitOn_eq_singleton hslash]
        exact List.prefix_rfl
      · exact List.nil_prefix

/-- **Patterns that match a common path do not pass the test.** -/
theorem patternsMayOverlap_of_matchesPath {left right path : Bytes}
    (hleft : matchesPath left path = true) (hright : matchesPath right path = true) :
    patternsMayOverlap left right = true := by
  unfold matchesPath at hleft hright
  unfold patternsMayOverlap
  split_ifs with heq hliteral
  · rfl
  · rw [Bool.and_eq_true, Bool.not_eq_true', Bool.not_eq_true'] at hliteral
    exact absurd ((eq_of_globMatch hliteral.1 hleft).symm.trans
      (eq_of_globMatch hliteral.2 hright)) heq
  · rw [Bool.or_eq_true, List.isPrefixOf_iff_prefix, List.isPrefixOf_iff_prefix]
    exact List.prefix_or_prefix_of_prefix (literalPrefix_isPrefix hleft)
      (literalPrefix_isPrefix hright)

example : patternsMayOverlap (text "src/auth/**") (text "src/auth/login.rs") = true := by decide

end Furrow
