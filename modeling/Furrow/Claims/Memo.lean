import Furrow.Claims.Spec

set_option relaxedAutoImplicit false
set_option autoImplicit false

/-!
# The memoised matcher

`matches_path` works on indices into the pattern and the path and keeps the result for each pair of
them in a table.  Every access by index is one that fails where the index is out of range.  No
access fails, no entry of the table is ever wrong, and the result is that of the relation between
patterns and paths.

## Main definitions

* `Furrow.Memo.characterClass` — the class parser on indices.
* `Furrow.Memo.globStep`, `Furrow.Memo.globMatch`, `Furrow.Memo.matchesPath` — the matcher.
* `Furrow.Memo.Table` — a table without wrong entries.

## Main results

* `Furrow.Memo.computes_globMatch` — the matcher computes the result and keeps the table right.
* `Furrow.Memo.matchesPath_eq` — it decides the relation, without an access out of range.
-/

namespace Furrow

namespace Memo

/-! ### Classes by index -/

/-- Whether a range begins at an index: `index + 2 < pattern.len() && pattern[index + 1] == b'-' &&
pattern[index + 2] != b']'`. -/
def isRange (pattern : Bytes) (index : ℕ) : Option Bool :=
  if index + 2 < pattern.length then do
    let hyphen ← pattern[index + 1]?
    if hyphen = 45 then do
      let hi ← pattern[index + 2]?
      pure (hi ≠ 93)
    else pure false
  else pure false

/-- The loop of `character_class`: where it ends, and whether the byte was matched. -/
def classLoop (pattern : Bytes) (value : Byte) (index : ℕ) (matched : Bool) : Option (ℕ × Bool) :=
  if _h : index < pattern.length then do
    let c ← pattern[index]?
    if c = 93 then pure (index, matched)
    else do
      let range ← isRange pattern index
      if range then do
        let hi ← pattern[index + 2]?
        classLoop pattern value (index + 3) (matched || (c ≤ value && value ≤ hi))
      else classLoop pattern value (index + 1) (matched || c = value)
  else pure (index, matched)
termination_by pattern.length - index

/-- `character_class`. -/
def characterClass (pattern : Bytes) (start : ℕ) (value : Option Byte) :
    Option (Option (Bool × ℕ)) :=
  match value.filter fun b => b ≠ slash with
  | none => pure none
  | some value => do
    let negated := (pattern[start + 1]?).any isNegation
    let contentStart := start + 1 + if negated then 1 else 0
    let (index, matched) ← classLoop pattern value contentStart false
    if index = pattern.length ∨ index = contentStart then pure none
    else pure (some (matched != negated, index + 1))

/-! ### The matcher -/

/-- The table of results: one entry for each index into the pattern and the path. -/
abbrev Entries := List (Option Bool)

/-- A computation on the table, which fails with an index out of range. -/
abbrev Search := StateT Entries Option

/-- One call of `glob_match` whose result is not in the table. -/
def globStep (pattern path : Bytes) (search : ℕ → ℕ → Search Bool) (patternIndex pathIndex : ℕ) :
    Search Bool :=
  if patternIndex = pattern.length then pure (pathIndex = path.length)
  else do
    let c ← StateT.lift pattern[patternIndex]?
    if c = 42 then do
      let recursive : Bool := pattern[patternIndex + 1]? = some 42
      let next := patternIndex + if recursive then 2 else 1
      if ← search next pathIndex then pure true
      else if pathIndex < path.length then
        if recursive then search patternIndex (pathIndex + 1)
        else do
          let b ← StateT.lift path[pathIndex]?
          if b ≠ slash then search patternIndex (pathIndex + 1) else pure false
      else pure false
    else if c = 63 then
      if pathIndex < path.length then do
        let b ← StateT.lift path[pathIndex]?
        if b ≠ slash then search (patternIndex + 1) (pathIndex + 1) else pure false
      else pure false
    else if c = 91 then do
      match ← StateT.lift (characterClass pattern patternIndex path[pathIndex]?) with
      | some (matched, next) => if matched then search next (pathIndex + 1) else pure false
      | none =>
        if path[pathIndex]? = some 91 then search (patternIndex + 1) (pathIndex + 1) else pure false
    else if path[pathIndex]? = some c then search (patternIndex + 1) (pathIndex + 1)
    else pure false

/-- `glob_match`, for at most `fuel` nested calls. -/
def globMatch (pattern path : Bytes) (width : ℕ) : ℕ → ℕ → ℕ → Search Bool
  | 0, _, _ => StateT.lift none
  | fuel + 1, patternIndex, pathIndex => do
    let slot := patternIndex * width + pathIndex
    let memo ← get
    match ← StateT.lift memo[slot]? with
    | some result => pure result
    | none => do
      let result ← globStep pattern path (globMatch pattern path width fuel) patternIndex pathIndex
      let memo ← get
      if slot < memo.length then do
        set (memo.set slot (some result))
        pure result
      else StateT.lift none

/-- `matches_path`. -/
def matchesPath (pattern path : Bytes) : Option Bool :=
  let width := path.length + 1
  let memo : Entries := List.replicate ((pattern.length + 1) * width) none
  (globMatch pattern path width (pattern.length + path.length + 1) 0 0 memo).map Prod.fst

/-! ### Indices are in range -/

/-- A pattern from a position inside it, as a byte and the rest. -/
theorem drop_eq_cons {l : Bytes} {i : ℕ} {c : Byte} (h : l[i]? = some c) :
    l.drop i = c :: l.drop (i + 1) := by
  obtain ⟨hi, rfl⟩ := List.getElem?_eq_some_iff.mp h
  exact List.drop_eq_getElem_cons hi

/-- The test for a range looks at no byte that is not there. -/
theorem isRange_spec (pattern : Bytes) (index : ℕ) :
    (∃ hi, isRange pattern index = some true ∧ pattern[index + 2]? = some hi ∧ hi ≠ 93 ∧
        index + 3 ≤ pattern.length ∧
        pattern.drop (index + 1) = 45 :: hi :: pattern.drop (index + 3)) ∨
      (isRange pattern index = some false ∧ ¬ RangeFollows (pattern.drop (index + 1))) := by
  unfold isRange
  by_cases hlt : index + 2 < pattern.length
  · have hhyphen := List.getElem?_eq_getElem (show index + 1 < pattern.length by omega)
    have hhi := List.getElem?_eq_getElem hlt
    have hdrop : pattern.drop (index + 1) =
        pattern[index + 1] :: pattern[index + 2] :: pattern.drop (index + 3) := by
      rw [drop_eq_cons hhyphen, drop_eq_cons hhi]
    rw [if_pos hlt, hhyphen, hhi, hdrop]
    simp only [Option.bind_eq_bind, Option.bind_some]
    by_cases hrange : pattern[index + 1] = 45 ∧ pattern[index + 2] ≠ 93
    · left
      exact ⟨pattern[index + 2], by simp [hrange.1, hrange.2], rfl, hrange.2, hlt, by rw [hrange.1]⟩
    · right
      refine ⟨?_, ?_⟩
      · by_cases hc : pattern[index + 1] = 45
        · have : pattern[index + 2] = 93 := by
            by_contra hne
            exact hrange ⟨hc, hne⟩
          simp [hc, this]
        · simp [hc]
      · rintro ⟨hi, rest, heq, hne⟩
        simp only [List.cons.injEq] at heq
        exact hrange ⟨heq.1, heq.2.1 ▸ hne⟩
  · right
    refine ⟨by rw [if_neg hlt]; rfl, ?_⟩
    rintro ⟨hi, rest, heq, -⟩
    have := congrArg List.length heq
    simp only [List.length_drop, List.length_cons] at this
    omega

/-- The loop of the class parser ends at the `]` that closes the class, or at the end. -/
theorem classLoop_spec (pattern : Bytes) (value : Byte) (index : ℕ) (matched : Bool)
    (h : index ≤ pattern.length) :
    ∃ i m, classLoop pattern value index matched = some (i, m) ∧ index ≤ i ∧ i ≤ pattern.length ∧
      (i = index → (pattern.drop index).head? = some 93 ∨ index = pattern.length) ∧
      ((pattern.drop index).head? = some 93 → i = index) ∧
      classBody value (pattern.drop index) matched =
        if i = pattern.length then none else some (m, pattern.drop (i + 1)) := by
  induction hn :
    pattern.length - index using Nat.strong_induction_on generalizing index matched with
  | _ n ih =>
  rw [classLoop]
  by_cases hlt : index < pattern.length
  · have hget := List.getElem?_eq_getElem hlt
    rw [dif_pos hlt, hget, drop_eq_cons hget]
    simp only [Option.bind_eq_bind, Option.bind_some, List.head?_cons, Option.some.injEq]
    by_cases hc : pattern[index] = 93
    · refine ⟨index, matched, by rw [if_pos hc]; rfl, le_rfl, h, fun _ =>
        Or.inl hc, fun _ => rfl, ?_⟩
      rw [if_neg hlt.ne, hc]
      unfold classBody
      rfl
    · rw [if_neg hc]
      rcases isRange_spec pattern index with ⟨hi, hrange, hhi, hne, hlen, hdrop⟩ | ⟨hrange, hno⟩
      · obtain ⟨i, m, heq, hle, hle', -, -, hbody⟩ := ih (pattern.length - (index + 3)) (by omega)
          (index + 3) (matched || (pattern[index] ≤ value && value ≤ hi)) hlen rfl
        refine ⟨i, m, ?_, by omega, hle', fun hi => by omega, fun hi => absurd hi hc, ?_⟩
        · rw [hrange, hhi]
          simpa using heq
        · rcases classBody_cons value (pattern.drop (index + 1)) matched hc with
            ⟨hi', rest, heq', hne', hbody'⟩ | ⟨hno, -⟩
          · rw [hdrop, List.cons.injEq, List.cons.injEq] at heq'
            obtain ⟨-, rfl, rfl⟩ := heq'
            rw [hbody', ← hbody]
            rfl
          · exact absurd ⟨hi, _, hdrop, hne⟩ hno
      · obtain ⟨i, m, heq, hle, hle', -, -, hbody⟩ := ih (pattern.length - (index + 1)) (by omega)
          (index + 1) (matched || pattern[index] = value) hlt rfl
        refine ⟨i, m, ?_, by omega, hle', fun hi => by omega, fun hi => absurd hi hc, ?_⟩
        · rw [hrange]
          simpa using heq
        · rcases classBody_cons value (pattern.drop (index + 1)) matched hc with
            ⟨hi', rest, heq', hne', -⟩ | ⟨-, hbody'⟩
          · exact absurd ⟨hi', rest, heq', hne'⟩ hno
          · rw [hbody', ← hbody]
            rfl
  · have heq : index = pattern.length := by omega
    rw [dif_neg hlt]
    refine ⟨index, matched, rfl, le_rfl, h, fun _ => Or.inr heq, fun _ => rfl, ?_⟩
    rw [if_pos heq, heq, List.drop_length]
    rfl

/-- **The class parser on indices** reads what the one on bytes does. -/
theorem characterClass_spec (pattern : Bytes) (start : ℕ) (value : Option Byte)
    (h : start < pattern.length) :
    (characterClass pattern start value = some none ∧
        Furrow.characterClass (pattern.drop (start + 1)) value = none) ∨
      ∃ m next, characterClass pattern start value = some (some (m, next)) ∧ start < next ∧
        next ≤ pattern.length ∧
        Furrow.characterClass (pattern.drop (start + 1)) value = some (m, pattern.drop next) := by
  unfold characterClass Furrow.characterClass
  rcases hfilter : value.filter fun b => decide (b ≠ slash) with - | value'
  · exact Or.inl ⟨rfl, rfl⟩
  have hneg : decide ((pattern.drop (start + 1)).head? = some 33 ∨
      (pattern.drop (start + 1)).head? = some 94) = (pattern[start + 1]?).any isNegation := by
    rw [List.head?_drop]
    cases pattern[start + 1]? with
    | none => simp
    | some c => simp [isNegation, Bool.decide_or]
  simp only [hneg]
  generalize hnegated : (pattern[start + 1]?).any isNegation = negated
  -- the members begin at an index of the pattern
  have hcontent :
      (if negated = true then (pattern.drop (start + 1)).tail else pattern.drop (start + 1)) =
        pattern.drop (start + 1 + if negated then 1 else 0) := by
    cases negated
    · rfl
    · exact List.tail_drop
  have hstart : start + 1 + (if negated then 1 else 0) ≤ pattern.length := by
    cases negated with
    | false => exact h
    | true =>
      cases hc : pattern[start + 1]? with
      | none => simp [hc] at hnegated
      | some c => exact (List.getElem?_eq_some_iff.mp hc).1
  rw [hcontent]
  obtain ⟨i, m, hloop, hle, hle', hhead, hhead', hbody⟩ :=
    classLoop_spec pattern value' (start + 1 + if negated then 1 else 0) false hstart
  simp only [hloop, Option.bind_eq_bind, Option.bind_some, hbody]
  have hpos : start < start + 1 + if negated then 1 else 0 := by omega
  generalize start + 1 + (if negated then 1 else 0) = content at *
  by_cases hend : i = pattern.length
  · left
    simp [hend]
  by_cases hempty : i = content
  · left
    have hnone : (pattern.drop content).head? = some 93 := by
      rcases hhead hempty with h | h
      · exact h
      · omega
    exact ⟨by rw [if_pos (Or.inr hempty)]; rfl, by rw [if_pos hnone]⟩
  · right
    refine ⟨m != negated, i + 1, ?_, by omega, by omega, ?_⟩
    · rw [if_neg (not_or.mpr ⟨hend, hempty⟩)]
      rfl
    · rw [if_neg fun h => hempty (hhead' h), if_neg hend]
      rfl

/-! ### The table -/

section Tables

variable (pattern path : Bytes)

/-- The result for a pair of indices. -/
def result (patternIndex pathIndex : ℕ) : Bool :=
  Furrow.matchesPath (pattern.drop patternIndex) (path.drop pathIndex)

/-- A table of the right size in which every result is the one for its pair of indices. -/
structure Table (memo : Entries) : Prop where
  length_eq : memo.length = (pattern.length + 1) * (path.length + 1)
  right : ∀ patternIndex ≤ pattern.length, ∀ pathIndex ≤ path.length, ∀ r,
    memo[patternIndex * (path.length + 1) + pathIndex]? = some (some r) →
      r = result pattern path patternIndex pathIndex

/-- A search that gives a result on every such table, and keeps it one. -/
def Computes (search : Search Bool) (r : Bool) : Prop :=
  ∀ memo, Table pattern path memo → ∃ memo', search memo = some (r, memo') ∧
    Table pattern path memo'

variable {pattern path}

/-- Returning the right answer computes it. -/
theorem computes_pure (r : Bool) : Computes pattern path (pure r) r :=
  fun memo h => ⟨memo, rfl, h⟩

/-- An access within range. -/
theorem computes_lift {α : Type} {o : Option α} {a : α} {f : α → Search Bool} {r : Bool}
    (ho : o = some a) (h : Computes pattern path (f a) r) :
    Computes pattern path (StateT.lift o >>= f) r := by
  intro memo hmemo
  obtain ⟨memo', heq, htable⟩ := h memo hmemo
  refine ⟨memo', ?_, htable⟩
  rw [ho]
  exact heq

/-- A search that is only made if the first one fails. -/
theorem computes_or {x y : Search Bool} {a b : Bool} (hx : Computes pattern path x a)
    (hy : Computes pattern path y b) :
    Computes pattern path (do if ← x then pure true else y) (a || b) := by
  intro memo hmemo
  obtain ⟨memo', heq, htable⟩ := hx memo hmemo
  cases a with
  | true => exact ⟨memo', by simp [StateT.bind, bind, heq]; rfl, htable⟩
  | false =>
    obtain ⟨memo'', heq', htable'⟩ := hy memo' htable
    refine ⟨memo'', ?_, htable'⟩
    simp only [bind, StateT.bind, heq, Option.bind_some, Bool.false_or]
    exact heq'

/-- A search that is only made under a condition. -/
theorem computes_and {x : Search Bool} {b : Bool} {p : Prop} [Decidable p]
    (hx : p → Computes pattern path x b) :
    Computes pattern path (if p then x else pure false) (decide p && b) := by
  by_cases hp : p
  · simpa [hp] using hx hp
  · simpa [hp] using computes_pure false

/-- Two pairs of indices have different entries. -/
theorem slot_inj {p p' s s' width : ℕ} (hs : s < width) (hs' : s' < width)
    (h : p * width + s = p' * width + s') : p = p' ∧ s = s' := by
  have hpos : 0 < width := by omega
  have hdiv := congrArg (· / width) h
  have hmod := congrArg (· % width) h
  simp only [Nat.mul_comm _ width, Nat.mul_add_div hpos, Nat.div_eq_of_lt hs,
    Nat.div_eq_of_lt hs', Nat.mul_add_mod, Nat.mod_eq_of_lt hs, Nat.mod_eq_of_lt hs'] at hdiv hmod
  exact ⟨hdiv, hmod⟩

/-- Every pair of indices has an entry. -/
theorem slot_lt {p s : ℕ} (hp : p ≤ pattern.length) (hs : s ≤ path.length) :
    p * (path.length + 1) + s < (pattern.length + 1) * (path.length + 1) := by
  calc p * (path.length + 1) + s < p * (path.length + 1) + (path.length + 1) := by omega
    _ = (p + 1) * (path.length + 1) := (Nat.succ_mul _ _).symm
    _ ≤ (pattern.length + 1) * (path.length + 1) := Nat.mul_le_mul_right _ (by omega)

/-- A table stays one when a result is entered. -/
theorem Table.set {memo : Entries} (h : Table pattern path memo) {p s : ℕ} (hs : s ≤ path.length) :
    Table pattern path (memo.set (p * (path.length + 1) + s) (some (result pattern path p s))) where
  length_eq := by rw [List.length_set, h.length_eq]
  right p' hp' s' hs' r hr := by
    by_cases heq : p * (path.length + 1) + s = p' * (path.length + 1) + s'
    · obtain ⟨rfl, rfl⟩ := slot_inj (by omega) (by omega) heq
      have hlt : p * (path.length + 1) + s < memo.length := h.length_eq ▸ slot_lt hp' hs'
      rw [List.getElem?_set_self hlt] at hr
      simpa using hr.symm
    · rw [List.getElem?_set_ne heq] at hr
      exact h.right p' hp' s' hs' r hr

/-- The result for a pair of indices by the first byte of the pattern. -/
theorem result_eq {p s : ℕ} {c : Byte} (hget : pattern[p]? = some c) :
    result pattern path p s =
      if c = 42 then
        result pattern path (p + if pattern[p + 1]? = some 42 then 2 else 1) s ||
          match path[s]? with
          | none => false
          | some b =>
            (decide (pattern[p + 1]? = some 42) || b ≠ slash) && result pattern path p (s + 1)
      else if c = 63 then
        match path[s]? with
        | none => false
        | some b => b ≠ slash && result pattern path (p + 1) (s + 1)
      else if c = 91 then
        match Furrow.characterClass (pattern.drop (p + 1)) path[s]? with
        | some (matched, next) => matched && Furrow.matchesPath next (path.drop (s + 1))
        | none => path[s]? = some 91 && result pattern path (p + 1) (s + 1)
      else path[s]? = some c && result pattern path (p + 1) (s + 1) := by
  have hnext : (if decide (pattern[p + 1]? = some 42) = true then pattern.drop (p + 1 + 1)
      else pattern.drop (p + 1)) =
        pattern.drop (p + if pattern[p + 1]? = some 42 then 2 else 1) := by
    by_cases h : pattern[p + 1]? = some 42
    · simp [h]
    · simp [h]
  simp only [result]
  rw [drop_eq_cons hget, matchesPath_cons]
  simp only [List.head?_drop, List.tail_drop, hnext]
  rcases hpath : path[s]? with - | b
  · have hdrop : path.drop s = [] := by
      rw [List.drop_eq_nil_iff]
      exact List.getElem?_eq_none_iff.mp hpath
    simp only [hdrop] <;> rfl
  · simp only [drop_eq_cons hpath] <;> rfl

/-- A byte of the path that is there. -/
theorem lt_of_getElem?_eq_some {l : Bytes} {i : ℕ} {b : Byte} (h : l[i]? = some b) : i < l.length :=
  (List.getElem?_eq_some_iff.mp h).1

/-- One step of the matcher gives the right result if the calls it makes do. -/
theorem computes_globStep {search : ℕ → ℕ → Search Bool} {p s : ℕ} (hp : p ≤ pattern.length)
    (hs : s ≤ path.length)
    (hsearch : ∀ p' s', p' ≤ pattern.length → s' ≤ path.length → p + s < p' + s' →
      Computes pattern path (search p' s') (result pattern path p' s')) :
    Computes pattern path (globStep pattern path search p s) (result pattern path p s) := by
  unfold globStep
  by_cases hend : p = pattern.length
  · have hresult : result pattern path p s = decide (s = path.length) := by
      rw [result, hend, List.drop_length]
      change (path.drop s).isEmpty = _
      rw [Bool.eq_iff_iff, List.isEmpty_iff, List.drop_eq_nil_iff, decide_eq_true_eq]
      omega
    rw [if_pos hend, hresult]
    exact computes_pure _
  have hlt : p < pattern.length := by omega
  have hget := List.getElem?_eq_getElem hlt
  rw [if_neg hend]
  apply computes_lift hget
  generalize pattern[p] = c at hget
  -- the calls with the next byte of the path, under a condition on it
  have hstep : ∀ b, path[s]? = some b → Computes pattern path (search (p + 1) (s + 1))
      (result pattern path (p + 1) (s + 1)) := fun b hb =>
    hsearch (p + 1) (s + 1) hlt (lt_of_getElem?_eq_some hb) (by omega)
  have hliteral : ∀ d, Computes pattern path
      (if path[s]? = some d then search (p + 1) (s + 1) else pure false)
      (decide (path[s]? = some d) && result pattern path (p + 1) (s + 1)) := fun d =>
    computes_and fun h => hstep d h
  rw [result_eq hget]
  by_cases hstar : c = 42
  · rw [if_pos hstar, if_pos hstar]
    simp only [decide_eq_true_eq]
    have hnext : p + (if pattern[p + 1]? = some 42 then 2 else 1) ≤ pattern.length := by
      split_ifs with h
      · exact lt_of_getElem?_eq_some h
      · exact hlt
    refine computes_or (hsearch _ s hnext hs (by split_ifs <;> omega)) ?_
    rcases hpath : path[s]? with - | b
    · rw [if_neg (not_lt.mpr (List.getElem?_eq_none_iff.mp hpath))]
      exact computes_pure false
    · have hs' := lt_of_getElem?_eq_some hpath
      have hcall := hsearch p (s + 1) hp hs' (by omega)
      rw [if_pos hs']
      by_cases hrec : pattern[p + 1]? = some 42
      · simpa [hrec] using hcall
      · simp only [if_neg hrec, decide_eq_false hrec, Bool.false_or]
        exact computes_lift rfl (computes_and fun _ => hcall)
  rw [if_neg hstar, if_neg hstar]
  by_cases hquestion : c = 63
  · rw [if_pos hquestion, if_pos hquestion]
    rcases hpath : path[s]? with - | b
    · rw [if_neg (not_lt.mpr (List.getElem?_eq_none_iff.mp hpath))]
      exact computes_pure false
    · rw [if_pos (lt_of_getElem?_eq_some hpath)]
      exact computes_lift rfl (computes_and fun _ => hstep b hpath)
  rw [if_neg hquestion, if_neg hquestion]
  by_cases hclass : c = 91
  · rw [if_pos hclass, if_pos hclass]
    rcases characterClass_spec pattern p path[s]? hlt with ⟨heq, heq'⟩ |
      ⟨matched, next, heq, hnext, hnext', heq'⟩
    · rw [heq']
      exact computes_lift heq (hliteral 91)
    · rw [heq']
      apply computes_lift heq
      have hvalue := (length_of_characterClass heq').2
      obtain ⟨b, hb⟩ := Option.ne_none_iff_exists'.mp hvalue
      have hcall := hsearch next (s + 1) hnext' (lt_of_getElem?_eq_some hb) (by omega)
      have := @computes_and pattern path _ _ (matched = true) _ fun _ => hcall
      rw [Bool.decide_eq_true] at this
      exact this
  · rw [if_neg hclass, if_neg hclass]
    exact hliteral c

/-- **The matcher computes the result for a pair of indices**, and keeps the table right. -/
theorem computes_globMatch {fuel p s : ℕ} (hp : p ≤ pattern.length) (hs : s ≤ path.length)
    (hfuel : pattern.length + path.length < fuel + (p + s)) :
    Computes pattern path (globMatch pattern path (path.length + 1) fuel p s)
      (result pattern path p s) := by
  induction fuel generalizing p s with
  | zero => omega
  | succ fuel ih =>
    intro memo hmemo
    have hslot : p * (path.length + 1) + s < memo.length := hmemo.length_eq ▸ slot_lt hp hs
    have hget := List.getElem?_eq_getElem hslot
    rw [globMatch]
    rcases hentry : memo[p * (path.length + 1) + s] with - | r
    · -- the result is computed and entered
      have hstep : Computes pattern path
          (globStep pattern path (globMatch pattern path (path.length + 1) fuel) p s)
          (result pattern path p s) :=
        computes_globStep hp hs fun p' s' hp' hs' hlt => ih hp' hs' (by omega)
      obtain ⟨memo', heq, htable⟩ := hstep memo hmemo
      have hslot' : p * (path.length + 1) + s < memo'.length := htable.length_eq ▸ slot_lt hp hs
      refine ⟨_, ?_, htable.set (p := p) hs⟩
      simp only [bind, StateT.bind, get, getThe, MonadStateOf.get, StateT.get, pure, StateT.lift,
        Option.bind_some, hget, hentry, heq, hslot', if_true]
      rfl
    · -- the result is in the table
      refine ⟨memo, ?_, hmemo⟩
      rw [hmemo.right p hp s hs r (by rw [hget, hentry])] at hentry
      simp only [bind, StateT.bind, get, getThe, MonadStateOf.get, StateT.get, pure, StateT.lift,
        Option.bind_some, hget, hentry, StateT.pure]

end Tables

/-- **Glob matching meets its specification**: the memoised matcher decides the relation between
patterns and paths, and uses no index that is out of range. -/
theorem matchesPath_eq (pattern path : Bytes) :
    ∃ r, matchesPath pattern path = some r ∧ (r = true ↔ PathMatch pattern path) := by
  have hempty : Table pattern path
      (List.replicate ((pattern.length + 1) * (path.length + 1)) none) := by
    refine ⟨List.length_replicate, fun p _ s _ r hr => ?_⟩
    rw [List.getElem?_replicate] at hr
    split at hr
    · cases hr
    · cases hr
  have hcomputes : Computes pattern path
      (globMatch pattern path (path.length + 1) (pattern.length + path.length + 1) 0 0)
      (result pattern path 0 0) :=
    computes_globMatch (Nat.zero_le _) (Nat.zero_le _) (by omega)
  obtain ⟨memo, heq, -⟩ := hcomputes _ hempty
  refine ⟨Furrow.matchesPath pattern path, ?_, matchesPath_iff⟩
  rw [matchesPath, heq]
  rfl

end Memo

end Furrow
