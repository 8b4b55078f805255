import Furrow.Merge.Plan

set_option relaxedAutoImplicit false
set_option autoImplicit false

/-!
# The Merkle planner against the flat planner

`plan_trees` sees only the paths that differ from the base, collected page by page, and decides
ancestor conflicts by one probe of the ordered map of differences.  This file describes what
those differences are and says exactly when the plan that comes out is the flat one.

## Main definitions

* `Furrow.deltaAt` — the difference of two trees at a path.
* `Furrow.PlannersAgree` — the condition on the three maps under which the two planners agree.

## Main results

* `Furrow.collectDelta_eq` — the collected differences are all the differences.
* `Furrow.planTrees_eq_plan_iff` — the planners agree exactly under `PlannersAgree`.
-/

namespace Furrow

open SepOrder

section Collect

variable {store : ObjectStore}

/-- The difference of two trees at a path, if there is one. -/
def deltaAt (before after : Bytes → Option TreeEntry) (k : Bytes) : Option Delta :=
  if equivalent (before k) (after k) then none else some ⟨before k, after k⟩

/-- The delta of an entry that one side has and the other has not. -/
def sideDelta (added : Bool) (e : TreeEntry) : Delta :=
  if added then ⟨none, some e⟩ else ⟨some e, none⟩

/-- The differences below the entry of a name on one side only. -/
theorem collectSide_eq (added : Bool) {D : Dir} (hD : D.Stored store) (n : Bytes) :
    ∃ m, ∀ fuel, m ≤ fuel → ∀ path output,
      collectSide store fuel (entryNamed n D.entries) path added output =
        .ok (output.foldInsert
          (underPrefix path ((D.subdir n).flat.map fun p => (p.1, sideDelta added p.2)))) := by
  have hskip : ∀ {entry : Option TreeEntry}, (∀ e, entry = some e → e.kind ≠ .Directory) →
      ∀ fuel path output, collectSide store fuel entry path added output = .ok output := by
    intro entry hentry fuel path output
    cases entry with
    | none => rfl
    | some e => simp [collectSide, Option.filter, hentry e rfl, pure, Except.pure]
  rcases hD.subdir n with ⟨e, t, he, hk, ht, hden⟩ | ⟨hno, hnil⟩
  · have hvalue : ∀ e : TreeEntry, validateName e.name = .ok () →
        (fun entry => .ok (sideDelta added entry) : TreeEntry → Except StoreError Delta) e =
          .ok (sideDelta added e) := fun e _ => rfl
    obtain ⟨m, hm⟩ := insertTree_eq .expectedTreeTarget hvalue hden
    refine ⟨m, fun fuel hf path output => ?_⟩
    rw [he, collectSide]
    simp only [Option.filter, hk, decide_true, if_true, ht]
    exact hm fuel hf path output
  · refine ⟨0, fun fuel _ path output => ?_⟩
    rw [hskip hno, hnil]
    rfl

/-- The difference at the name itself. -/
def headDelta (n : Bytes) (a b : Option TreeEntry) : List (Bytes × Delta) :=
  if equivalent a b then [] else [(n, ⟨a, b⟩)]

/-- The differences at and below a name, from those of the two subdirectories. -/
def nameDeltas (n : Bytes) (a b : Option TreeEntry) (below : List (Bytes × Delta)) :
    List (Bytes × Delta) :=
  headDelta n a b ++ below.map fun p => (n ++ slash :: p.1, p.2)

/-- A list holds exactly the differences of two trees. -/
def IsDelta (B O : Dir) (L : List (Bytes × Delta)) : Prop :=
  ∀ k δ, (k, δ) ∈ L ↔ deltaAt B.get O.get k = some δ

/-- The differences at and below a name are those of the trees at the paths that start with
the name. -/
theorem mem_nameDeltas {B O : Dir} {n : Bytes} (hn : slash ∉ n) {below : List (Bytes × Delta)}
    (hbelow : IsDelta (B.subdir n) (O.subdir n) below) {k : Bytes} {δ : Delta} :
    (k, δ) ∈ nameDeltas n (entryNamed n B.entries) (entryNamed n O.entries) below ↔
      (splitFirst slash k).1 = n ∧ deltaAt B.get O.get k = some δ := by
  have hhead : (k, δ) ∈ headDelta n (entryNamed n B.entries) (entryNamed n O.entries) ↔
      k = n ∧ deltaAt B.get O.get n = some δ := by
    unfold headDelta deltaAt
    rw [Dir.get_name B hn, Dir.get_name O hn]
    split_ifs <;> simp [eq_comm]
  have hmap : (k, δ) ∈ (below.map fun p => (n ++ slash :: p.1, p.2)) ↔
      ∃ r, k = n ++ slash :: r ∧ deltaAt B.get O.get (n ++ slash :: r) = some δ := by
    have hb : ∀ r, deltaAt B.get O.get (n ++ slash :: r) =
        deltaAt (B.subdir n).get (O.subdir n).get r := by
      intro r
      unfold deltaAt
      rw [Dir.get_below B hn, Dir.get_below O hn]
    simp only [List.mem_map, Prod.mk.injEq, Prod.exists, hb, ← hbelow _ δ]
    constructor
    · rintro ⟨r, y, hr, rfl, rfl⟩
      exact ⟨r, rfl, hr⟩
    · rintro ⟨r, rfl, hr⟩
      exact ⟨r, δ, hr, rfl, rfl⟩
  rw [nameDeltas, List.mem_append, hhead, hmap]
  rcases Dir.head_cases n k with rfl | ⟨r, rfl⟩ | hne
  · rw [splitFirst_of_notMem hn]
    have hno : ∀ r, k ≠ k ++ slash :: r := fun r h => append_sep_ne hn r h.symm
    simp [hno]
  · rw [splitFirst_append hn]
    have hno : n ++ slash :: r ≠ n := append_sep_ne hn r
    simp [hno]
  · have h1 : k ≠ n := fun h => hne (by rw [h, splitFirst_of_notMem hn])
    have h2 : ∀ r, k ≠ n ++ slash :: r := fun r h => hne (by rw [h, splitFirst_append hn])
    simp [h1, h2, Ne.symm hne]

/-- The differences between some contents and nothing, either way round. -/
theorem isDelta_side (added : Bool) {X : Dir} (hs : NameSorted X.entries) (hX : X.Stored store) :
    IsDelta (if added then .nil else X) (if added then X else .nil)
      (X.flat.map fun p => (p.1, sideDelta added p.2)) := by
  intro k δ
  have hdelta : deltaAt (if added then Dir.nil else X).get (if added then X else Dir.nil).get k =
      some δ ↔ ∃ x, X.get k = some x ∧ sideDelta added x = δ := by
    unfold deltaAt sideDelta
    cases added <;> cases hx : X.get k <;> simp [hx, Dir.get, equivalent]
  rw [hdelta]
  simp only [List.mem_map, Prod.mk.injEq, Prod.exists, ← Dir.mem_flat_iff hs hX]
  constructor
  · rintro ⟨k', x, hx, rfl, h⟩
    exact ⟨x, hx, h⟩
  · rintro ⟨x, hx, h⟩
    exact ⟨k, x, hx, rfl, h⟩

/-- Inserting the difference at a name and then the differences below it. -/
theorem foldInsert_nameDeltas {n : Bytes} (hn : n ≠ []) (a b : Option TreeEntry)
    (below : List (Bytes × Delta)) (pfx : Bytes) (output : OrdMap Bytes Delta) :
    output.foldInsert (underPrefix pfx (nameDeltas n a b below)) =
      (if equivalent a b then output else output.insert (joinPath pfx n) ⟨a, b⟩).foldInsert
        (underPrefix (joinPath pfx n) below) := by
  rw [← underPrefix_below pfx hn, nameDeltas, headDelta]
  split_ifs
  · rfl
  · simp [underPrefix, OrdMap.foldInsert]

/-- The state of affairs at one pair that `diff_entries` reports: the two entries of one name. -/
theorem reported_name {B O : Dir} (hB : B.Stored store) (hO : O.Stored store)
    {a b : Option TreeEntry} (h : Reported B.entries O.entries a b) :
    ∃ e, a.or b = some e ∧ slash ∉ e.name ∧ e.name ≠ [] ∧
      a = entryNamed e.name B.entries ∧ b = entryNamed e.name O.entries := by
  obtain ⟨hab, n, ha, hb⟩ := h
  have hex : ∃ e, a.or b = some e ∧ e.name = n ∧ validateName e.name = .ok () := by
    cases a with
    | some e =>
      have he := entryNamed_some ha.symm
      exact ⟨e, rfl, he.1, hB.validName he.2⟩
    | none =>
      cases b with
      | none => exact absurd rfl hab
      | some e =>
        have he := entryNamed_some hb.symm
        exact ⟨e, rfl, he.1, hO.validName he.2⟩
  obtain ⟨e, he, rfl, hv⟩ := hex
  exact ⟨e, he, (validateName_ok hv).2, (validateName_ok hv).1, ha, hb⟩

/-- What is collected from two stored directories whatever the prefix and the map so far. -/
def Collects (store : ObjectStore) (b o : ObjectId) (B O : Dir) : Prop :=
  ∃ m L, IsDelta B O L ∧ ∀ fuel, m ≤ fuel → ∀ pfx output,
    collectDelta store fuel b o pfx output = .ok (output.foldInsert (underPrefix pfx L))

/-- Two entries of which at most one is a directory: what is below is new or gone. -/
theorem collectSides_eq {B O : Dir} (hB : B.Stored store) (hO : O.Stored store) {n : Bytes}
    (hdirs :
      (isDirectory (entryNamed n B.entries) && isDirectory (entryNamed n O.entries)) = false) :
    ∃ m below, IsDelta (B.subdir n) (O.subdir n) below ∧ ∀ fuel, m ≤ fuel → ∀ path output,
      (collectSide store fuel (entryNamed n B.entries) path false output >>= fun output =>
        collectSide store fuel (entryNamed n O.entries) path true output) =
          .ok (output.foldInsert (underPrefix path below)) := by
  obtain ⟨m, hm⟩ := collectSide_eq false hB n
  obtain ⟨m', hm'⟩ := collectSide_eq true hO n
  refine ⟨m + m', ((B.subdir n).flat.map fun p => (p.1, sideDelta false p.2)) ++
    ((O.subdir n).flat.map fun p => (p.1, sideDelta true p.2)), ?_, ?_⟩
  · rcases hB.subdir n with ⟨e, t, he, hk, -, hden⟩ | ⟨-, hnilB⟩
    · -- the entry of the base is a directory, so nothing is below the other one
      have hnilO : O.subdir n = .nil := by
        apply hO.subdir_eq_nil
        intro e' he' hk'
        simp [he, he', isDirectory, hk, hk'] at hdirs
      rw [hnilO]
      simpa [Dir.flat] using isDelta_side false hden.sorted hden.stored
    · rw [hnilB]
      rcases hO.subdir n with ⟨e, t, -, -, -, hden⟩ | ⟨-, hnilO⟩
      · simpa [Dir.flat] using isDelta_side true hden.sorted hden.stored
      · rw [hnilO]
        intro k δ
        simp [Dir.flat, deltaAt, Dir.get, equivalent]
  · intro fuel hf path output
    rw [hm fuel (by omega)]
    simp only [bind, Except.bind]
    rw [hm' fuel (by omega), ← OrdMap.foldInsert_append, underPrefix, underPrefix,
      ← List.map_append]
    rfl

/-- One visit of `collect_delta` inserts the differences at and below a name, if comparing two
subdirectories collects theirs.

**Proof sketch.** If both entries are directories, the differences below are those of the two
subdirectories.  Otherwise at most one of them is a directory, and everything below it is new
or gone. -/
theorem deltaVisit_eq {B O : Dir} (hB : B.Stored store) (hO : O.Stored store)
    (ih : ∀ n b o, DirDenotes store b (B.subdir n) → DirDenotes store o (O.subdir n) →
      (∃ e, entryNamed n B.entries = some e) → Collects store b o (B.subdir n) (O.subdir n))
    {a b : Option TreeEntry} (h : Reported B.entries O.entries a b) :
    ∃ m e L, a.or b = some e ∧
      (∀ k δ, (k, δ) ∈ L ↔ (splitFirst slash k).1 = e.name ∧ deltaAt B.get O.get k = some δ) ∧
      ∀ fuel, m ≤ fuel → ∀ pfx output,
        deltaVisit store fuel (collectDelta store fuel) pfx output (a, b) =
          .ok (output.foldInsert (underPrefix pfx L)) := by
  obtain ⟨e, he, hslash, hne, ha, hb⟩ := reported_name hB hO h
  -- the differences below the name, by the kinds of the two entries
  have hbelow : ∃ m below, IsDelta (B.subdir e.name) (O.subdir e.name) below ∧
      ∀ fuel, m ≤ fuel → ∀ pfx output,
        deltaVisit store fuel (collectDelta store fuel) pfx output (a, b) =
          .ok ((if equivalent a b then output
            else output.insert (joinPath pfx e.name) ⟨a, b⟩).foldInsert
              (underPrefix (joinPath pfx e.name) below)) := by
    cases hdirs : isDirectory a && isDirectory b with
    | true =>
      obtain ⟨hda, hdb⟩ := Bool.and_eq_true_iff.mp hdirs
      obtain ⟨x, hx, hxk⟩ := isDirectory_iff.mp hda
      obtain ⟨y, hy, hyk⟩ := isDirectory_iff.mp hdb
      obtain ⟨t, ht, hdent⟩ := hB.subdir_denotes (ha.symm.trans hx) hxk
      obtain ⟨u, hu, hdenu⟩ := hO.subdir_denotes (hb.symm.trans hy) hyk
      obtain ⟨m, below, hdelta, hgo⟩ := ih e.name t u hdent hdenu ⟨x, ha.symm.trans hx⟩
      refine ⟨m, below, hdelta, fun fuel hf pfx output => ?_⟩
      simp only [deltaVisit, he, hdirs, if_true]
      simp only [hx, hy, Option.bind_some, ht, hu]
      exact hgo fuel hf _ _
    | false =>
      obtain ⟨m, below, hdelta, hside⟩ := collectSides_eq hB hO (by rw [← ha, ← hb, hdirs])
      refine ⟨m, below, hdelta, fun fuel hf pfx output => ?_⟩
      rw [← ha, ← hb] at hside
      simp only [deltaVisit, he, hdirs]
      exact hside fuel hf _ _
  obtain ⟨m, below, hdelta, hvisit⟩ := hbelow
  refine ⟨m, e, nameDeltas e.name a b below, he, ?_, ?_⟩
  · intro k δ
    rw [ha, hb]
    exact mem_nameDeltas hslash hdelta
  · intro fuel hf pfx output
    rw [foldInsert_nameDeltas hne]
    exact hvisit fuel hf pfx output

/-- A run of visits inserts the differences at and below the reported names. -/
theorem foldlM_deltaVisit {B O : Dir} (hB : B.Stored store) (hO : O.Stored store)
    (ih : ∀ n b o, DirDenotes store b (B.subdir n) → DirDenotes store o (O.subdir n) →
      (∃ e, entryNamed n B.entries = some e) → Collects store b o (B.subdir n) (O.subdir n))
    (pairs : List EntryPair) (h : ∀ p ∈ pairs, Reported B.entries O.entries p.1 p.2) :
    ∃ m L, (∀ k δ, (k, δ) ∈ L ↔ (∃ p ∈ pairs, ∃ e, p.1.or p.2 = some e ∧
        (splitFirst slash k).1 = e.name) ∧ deltaAt B.get O.get k = some δ) ∧
      ∀ fuel, m ≤ fuel → ∀ pfx output,
        pairs.foldlM (deltaVisit store fuel (collectDelta store fuel) pfx) output =
          .ok (output.foldInsert (underPrefix pfx L)) := by
  induction pairs with
  | nil => exact ⟨0, [], by simp, fun fuel _ pfx output => rfl⟩
  | cons p pairs ihp =>
    obtain ⟨m, e, L, he, hL, hvisit⟩ := deltaVisit_eq hB hO ih (h p List.mem_cons_self)
    obtain ⟨m', L', hL', hrest⟩ := ihp fun q hq => h q (List.mem_cons_of_mem _ hq)
    refine ⟨m + m', L ++ L', ?_, ?_⟩
    · intro k δ
      rw [List.mem_append, hL, hL', List.exists_mem_cons_iff, or_and_right]
      refine or_congr_left (and_congr_left fun _ => ?_)
      rw [he]
      simp
    · intro fuel hf pfx output
      rw [List.foldlM_cons, hvisit fuel (by omega)]
      simp only [bind, Except.bind]
      rw [hrest fuel (by omega), ← OrdMap.foldInsert_append, underPrefix, underPrefix,
        ← List.map_append]
      rfl

/-- Two entries of one name that are equal have the same contents below them. -/
theorem subdir_eq_of_entry_eq {B O : Dir} (hB : B.Stored store) (hO : O.Stored store) {n : Bytes}
    (h : entryNamed n B.entries = entryNamed n O.entries) : B.subdir n = O.subdir n := by
  rcases hB.subdir n with ⟨e, t, he, hk, ht, hden⟩ | ⟨hno, hnil⟩
  · obtain ⟨t', ht', hden'⟩ := hO.subdir_denotes (h.symm.trans he) hk
    rw [ht, Option.some.injEq] at ht'
    subst ht'
    exact hden.unique hden'
  · rw [hnil, hO.subdir_eq_nil fun e he => hno e (h.trans he)]

/-- A path at which two trees differ starts with a name that is reported. -/
theorem reported_of_deltaAt {B O : Dir} (hB : B.Stored store) (hO : O.Stored store) {k : Bytes}
    {δ : Delta} (h : deltaAt B.get O.get k = some δ) :
    ∃ a b e, Reported B.entries O.entries a b ∧ a.or b = some e ∧
      (splitFirst slash k).1 = e.name := by
  obtain ⟨hslash, hcases⟩ := splitFirst_cases slash k
  generalize hn : (splitFirst slash k).1 = n at hslash hcases
  have hdiff : entryNamed n B.entries ≠ entryNamed n O.entries := by
    intro heq
    have hget : B.get k = O.get k := by
      rcases hcases with hk | ⟨r, -, hk⟩
      · rw [hk] at hn
        simp only at hn
        subst hn
        rw [Dir.get_name B hslash, Dir.get_name O hslash, heq]
      · rw [hk, Dir.get_below B hslash, Dir.get_below O hslash, subdir_eq_of_entry_eq hB hO heq]
    rw [deltaAt, if_pos (by rw [equivalent_iff, hget])] at h
    exact absurd h (by simp)
  have hrep : Reported B.entries O.entries (entryNamed n B.entries) (entryNamed n O.entries) :=
    ⟨hdiff, n, rfl, rfl⟩
  obtain ⟨e, he, -, -, ha, -⟩ := reported_name hB hO hrep
  refine ⟨_, _, e, hrep, he, ?_⟩
  cases hb : entryNamed n B.entries with
  | some x =>
    rw [hb, Option.some_or, Option.some.injEq] at he
    rw [← he, (entryNamed_some hb).1]
  | none =>
    rw [hb, Option.none_or] at he
    rw [(entryNamed_some he).1]

/-- **The collected differences are all the differences.**

**Proof sketch.** Induction on the size of the first tree.  `diff_entries` reports the pairs of
unequal entries, and each visit inserts what differs at and below its name; equal entries have
equal contents, so nothing differs below a name that is not reported. -/
theorem collectDelta_eq {b o : ObjectId} {B O : Dir} (hB : DirDenotes store b B)
    (hO : DirDenotes store o O) : Collects store b o B O := by
  induction hsize : B.size using Nat.strong_induction_on generalizing b o B O with
  | _ s ih =>
    have hsub : ∀ n b o, DirDenotes store b (B.subdir n) → DirDenotes store o (O.subdir n) →
        (∃ e, entryNamed n B.entries = some e) →
        Collects store b o (B.subdir n) (O.subdir n) := by
      intro n b' o' hb' ho' he
      obtain ⟨e, he⟩ := he
      exact ih _ (hsize ▸ Dir.size_subdir_lt he) hb' ho' rfl
    by_cases hbo : b = o
    · subst hbo
      have hself : B = O := hB.unique hO
      subst hself
      refine ⟨1, [], ?_, fun fuel hf pfx output => ?_⟩
      · intro k δ
        rw [deltaAt, if_pos (by rw [equivalent_iff])]
        simp
      · obtain ⟨f, rfl⟩ : ∃ f, fuel = f + 1 := ⟨fuel - 1, by omega⟩
        rw [collectDelta, if_pos rfl]
        rfl
    · obtain ⟨w, hw⟩ := diffEntries_eq hB.page hO.page hB.sorted hO.sorted
      have hrep : ∀ p ∈ mergeDiff B.entries O.entries, Reported B.entries O.entries p.1 p.2 :=
        fun p hp => (mem_mergeDiff_iff hB.sorted hO.sorted).mp hp
      obtain ⟨m, L, hL, hrun⟩ := foldlM_deltaVisit hB.stored hO.stored hsub _ hrep
      refine ⟨w + m + 1, L, ?_, fun fuel hf pfx output => ?_⟩
      · intro k δ
        rw [hL]
        refine ⟨fun h => h.2, fun h => ⟨?_, h⟩⟩
        obtain ⟨a, c, e, hab, he, hk⟩ := reported_of_deltaAt hB.stored hO.stored h
        exact ⟨(a, c), (mem_mergeDiff_iff hB.sorted hO.sorted).mpr hab, e, he, hk⟩
      · obtain ⟨f, rfl⟩ : ∃ f, fuel = f + 1 := ⟨fuel - 1, by omega⟩
        rw [collectDelta, if_neg hbo, hw f (by omega)]
        exact hrun f (by omega) pfx output

end Collect

/-! ## Agreement of the two planners -/

section Agree

variable {B O T S : OrdMap Bytes TreeEntry} {od td sd : OrdMap Bytes Delta}

/-- The side differs from the base at some path below `d`. -/
def ChangedBelow (B S : OrdMap Bytes TreeEntry) (d : Bytes) : Prop :=
  ∃ k, SepOrder.Below slash d k ∧ equivalent (B.get? k) (S.get? k) = false

/-- The side differs from the base at some path that sorts after `d` and before everything
below `d`, such as `d-x` or `d.x`. -/
def ChangedBetween (B S : OrdMap Bytes TreeEntry) (d : Bytes) : Prop :=
  ∃ k, d < k ∧ k < d ++ [slash] ∧ equivalent (B.get? k) (S.get? k) = false

/-- An entry is equivalent to itself. -/
@[simp] theorem equivalent_self (a : Option TreeEntry) : equivalent a a = true :=
  (equivalent_iff a a).mpr rfl

/-- Equivalent entries are equivalent to the same entries. -/
theorem equivalent_trans {a b c : Option TreeEntry} (h : equivalent a b = true) :
    equivalent a c = equivalent b c := by
  rw [Bool.eq_iff_iff, equivalent_iff, equivalent_iff, (equivalent_iff a b).mp h]

/-- Equivalence is symmetric. -/
theorem equivalent_comm (a b : Option TreeEntry) : equivalent a b = equivalent b a := by
  rw [Bool.eq_iff_iff, equivalent_iff, equivalent_iff, eq_comm]

/-- A directory and something else are not equivalent. -/
theorem equivalent_eq_false_of_isDirectory {x y : Option TreeEntry}
    (h : isDirectory x ≠ isDirectory y) : equivalent x y = false := by
  rw [← Bool.not_eq_true]
  exact fun heq => h (isDirectory_eq_of_equivalent heq)

/-- A directory is there. -/
theorem ne_none_of_isDirectory {x : Option TreeEntry} (h : isDirectory x = true) : x ≠ none := by
  intro hx
  rw [hx] at h
  exact absurd h (by decide)

/-- Equivalent sides are absent together. -/
theorem equivalent_none_iff {x y : Option TreeEntry} (h : equivalent x y = true) :
    x = none ↔ y = none := by
  rw [equivalent_iff] at h
  rw [← Option.map_eq_none_iff (f := TreeEntry.compared), h, Option.map_eq_none_iff]

/-- The collected differences of one side. -/
def IsDeltaMap (B S : OrdMap Bytes TreeEntry) (sd : OrdMap Bytes Delta) : Prop :=
  ∀ k, sd.get? k = deltaAt B.get? S.get? k

/-- A path is among the differences exactly when the two sides are not equivalent there. -/
theorem IsDeltaMap.mem_keys (h : IsDeltaMap B S sd) {k : Bytes} :
    k ∈ sd.keys ↔ equivalent (B.get? k) (S.get? k) = false := by
  rw [OrdMap.mem_keys_iff, h k, deltaAt]
  split_ifs with heq <;> simp [heq]

/-- The ordered probe finds a changed path below `d` unless a changed path lies in between. -/
theorem IsDeltaMap.hasDescendant_iff (h : IsDeltaMap B S sd) (d : Bytes) :
    deltaHasDescendant sd d = true ↔ ChangedBelow B S d ∧ ¬ ChangedBetween B S d := by
  have hprobe := first_gt_below_iff slash d sd.keys_sorted
  have hfind : ((sd.keys.filter fun path => d ≤ path).find? fun path => path ≠ d) =
      sd.keys.find? fun path => decide (d < path) := by
    rw [List.find?_filter]
    congr 1
    funext path
    apply decide_eq_decide.mpr
    rw [decide_eq_true_iff, decide_eq_true_iff, ne_comm]
    exact lt_iff_le_and_ne.symm
  unfold deltaHasDescendant
  rw [hfind]
  constructor
  · intro hany
    cases hk : sd.keys.find? fun path => decide (d < path) with
    | none => simp [hk] at hany
    | some k =>
      rw [hk] at hany
      obtain ⟨⟨x, hx, hbelow⟩, hnone⟩ := hprobe.mp ⟨k, hk, isDescendant_iff.mp hany⟩
      refine ⟨⟨x, hbelow, h.mem_keys.mp hx⟩, ?_⟩
      rintro ⟨y, hdy, hys, hy⟩
      exact hnone y (h.mem_keys.mpr hy) hdy hys
  · rintro ⟨⟨x, hbelow, hx⟩, hnone⟩
    obtain ⟨k, hk, hkb⟩ := hprobe.mpr ⟨⟨x, h.mem_keys.mpr hx, hbelow⟩,
      fun y hy hdy hys => hnone ⟨y, hdy, hys, h.mem_keys.mp hy⟩⟩
    rw [hk]
    exact isDescendant_iff.mpr hkb

/-- The flat planner's subtree scan finds exactly the changed paths below `d`. -/
theorem subtreeChanged_iff (B S : OrdMap Bytes TreeEntry) (d : Bytes) :
    subtreeChanged B S d = true ↔ ChangedBelow B S d := by
  unfold subtreeChanged ChangedBelow
  simp only [Bool.or_eq_true, List.any_eq_true, List.mem_filter, Prod.exists, isDescendant_iff,
    Bool.not_eq_true', OrdMap.mem_toList_iff]
  constructor
  · rintro (⟨k, e, ⟨hk, hb⟩, hne⟩ | ⟨k, e, ⟨hk, hb⟩, hne⟩)
    · exact ⟨k, hb, by rw [hk]; exact hne⟩
    · exact ⟨k, hb, by rw [hk]; exact hne⟩
  · rintro ⟨k, hb, hne⟩
    cases hB : B.get? k with
    | some e => exact Or.inl ⟨k, e, ⟨hB, hb⟩, by rw [← hB]; exact hne⟩
    | none =>
      cases hS : S.get? k with
      | some e => exact Or.inr ⟨k, e, ⟨hS, hb⟩, by rw [hB, ← hS, ← hB]; exact hne⟩
      | none =>
        rw [hB, hS] at hne
        exact absurd hne (by decide)

/-- The loop of the Merkle planner has the outcome of the flat one at every path. -/
theorem deltaOutcome_eq (ho : IsDeltaMap B O od) (ht : IsDeltaMap B T td) :
    deltaOutcome od td = flatOutcome B O T := by
  funext k
  unfold deltaOutcome flatOutcome
  rw [ho k, ht k, deltaAt, deltaAt]
  cases hBO : equivalent (B.get? k) (O.get? k) with
  | true =>
    have hOT : ∀ c, equivalent (O.get? k) c = equivalent (B.get? k) c :=
      fun c => (equivalent_trans hBO).symm
    cases hBT : equivalent (B.get? k) (T.get? k) with
    | true => simp [mergePath, hOT, hBT]
    | false => simp [mergePath, hOT, hBT, hBO]
  | false =>
    cases hBT : equivalent (B.get? k) (T.get? k) with
    | true =>
      have hOB : equivalent (O.get? k) (B.get? k) = false := by rw [equivalent_comm, hBO]
      have hOT : equivalent (O.get? k) (T.get? k) = false := by
        rw [equivalent_comm, ← equivalent_trans hBT, hBO]
      simp [mergePath, hOB, hOT, hBO, hBT]
    | false => simp

/-- Both planners look at every path with an outcome. -/
theorem mem_paths_iff (ho : IsDeltaMap B O od) (ht : IsDeltaMap B T td) {k : Bytes}
    (h : flatOutcome B O T k ≠ .keep) :
    k ∈ pathSet (B.keys ++ O.keys ++ T.keys) ∧ k ∈ pathSet (od.keys ++ td.keys) := by
  have hOT : equivalent (O.get? k) (T.get? k) = false := by
    cases hOT : equivalent (O.get? k) (T.get? k) with
    | false => rfl
    | true => simp [flatOutcome, mergePath, hOT] at h
  simp only [mem_pathSet, List.mem_append, OrdMap.mem_keys_iff B, OrdMap.mem_keys_iff O,
    OrdMap.mem_keys_iff T, ho.mem_keys, ht.mem_keys]
  constructor
  · cases hO : O.get? k with
    | some e => simp
    | none =>
      cases hT : T.get? k with
      | some e => simp
      | none =>
        rw [hO, hT] at hOT
        exact absurd hOT (by decide)
  · by_contra hno
    rw [not_or, Bool.not_eq_false, Bool.not_eq_false] at hno
    rw [← equivalent_trans hno.1, hno.2] at hOT
    exact absurd hOT (by decide)

/-- The conflicts of the loop are at distinct paths. -/
theorem distinctPaths_pathConflicts (outcome : Bytes → PathOutcome) {paths : List Bytes}
    (h : paths.Pairwise (· < ·)) : DistinctPaths (pathConflicts outcome paths) := by
  unfold DistinctPaths pathConflicts
  rw [List.pairwise_filterMap]
  refine h.imp fun {a b} hab c hc c' hc' => ?_
  split at hc
  · split at hc'
    · rw [← Option.some.inj hc, ← Option.some.inj hc']
      exact ne_of_lt hab
    · exact absurd hc' (by simp)
  · exact absurd hc (by simp)

/-- A conflict of the loop is the outcome at its path. -/
theorem mem_pathConflicts {outcome : Bytes → PathOutcome} {paths : List Bytes}
    {c : MergeConflict} :
    c ∈ pathConflicts outcome paths ↔ c.path ∈ paths ∧ outcome c.path = .conflict c.kind := by
  unfold pathConflicts
  rw [List.mem_filterMap]
  constructor
  · rintro ⟨k, hk, hc⟩
    split at hc
    · rw [← Option.some.inj hc]
      exact ⟨hk, by assumption⟩
    · exact absurd hc (by simp)
  · rintro ⟨hc, ho⟩
    exact ⟨c.path, hc, by rw [ho]⟩

/-- The loops of the two planners collect the same changes and the same conflicts. -/
theorem pathLoop_eq (ho : IsDeltaMap B O od) (ht : IsDeltaMap B T td) :
    pathChanges (deltaOutcome od td) (pathSet (od.keys ++ td.keys)) =
        pathChanges (flatOutcome B O T) (pathSet (B.keys ++ O.keys ++ T.keys)) ∧
      pathConflicts (deltaOutcome od td) (pathSet (od.keys ++ td.keys)) =
        pathConflicts (flatOutcome B O T) (pathSet (B.keys ++ O.keys ++ T.keys)) := by
  have hpaths : ∀ k, flatOutcome B O T k ≠ .keep →
      (k ∈ pathSet (od.keys ++ td.keys) ↔ k ∈ pathSet (B.keys ++ O.keys ++ T.keys)) :=
    fun k hk => iff_of_true (mem_paths_iff ho ht hk).2 (mem_paths_iff ho ht hk).1
  rw [deltaOutcome_eq ho ht]
  constructor
  · refine OrdMap.filterMap_congr_of_sorted (pathSet_sorted _) (pathSet_sorted _) fun k hk => ?_
    exact hpaths k fun hkeep => by simp [hkeep] at hk
  · refine OrdMap.filterMap_congr_of_sorted (pathSet_sorted _) (pathSet_sorted _) fun k hk => ?_
    exact hpaths k fun hkeep => by simp [hkeep] at hk

/-- The loop has no conflict at `d`. -/
def Free (B O T : OrdMap Bytes TreeEntry) (d : Bytes) : Prop :=
  ∀ kind, flatOutcome B O T d ≠ .conflict kind

/-- A path is free when no conflict of the loop is at it. -/
theorem free_iff (ho : IsDeltaMap B O od) (ht : IsDeltaMap B T td) (d : Bytes) :
    (∀ c ∈ pathConflicts (flatOutcome B O T) (pathSet (B.keys ++ O.keys ++ T.keys)), c.path ≠ d) ↔
      Free B O T d := by
  simp only [mem_pathConflicts, Free]
  constructor
  · intro h kind hkind
    exact h ⟨d, kind⟩ ⟨(mem_paths_iff ho ht (by simp [hkind])).1, hkind⟩ rfl
  · rintro h c ⟨-, hc⟩ rfl
    exact h c.kind hc

/-- The paths at which the flat planner adds an ancestor conflict. -/
theorem mem_flatAncestors (d : Bytes) :
    d ∈ pathSet ((B.toList.filter fun p =>
        p.2.kind = .Directory ∧ ancestorConflict B O T p.1).map Prod.fst) ↔
      isDirectory (B.get? d) = true ∧ ancestorConflict B O T d = true := by
  simp only [mem_pathSet, List.mem_map, List.mem_filter, decide_eq_true_eq, Prod.exists,
    exists_and_right, exists_eq_right, isDirectory_iff, OrdMap.mem_toList_iff]
  constructor
  · rintro ⟨e, he, hk, ha⟩
    exact ⟨⟨e, he, hk⟩, ha⟩
  · rintro ⟨⟨e, he, hk⟩, ha⟩
    exact ⟨e, he, hk, ha⟩

/-- The two planners agree exactly when they add ancestor conflicts at the same free paths. -/
theorem planDeltas_eq_plan_iff_ancestors (ho : IsDeltaMap B O od) (ht : IsDeltaMap B T td) :
    planDeltas od td = plan B O T ↔
      ∀ d, Free B O T d → ((d ∈ ancestorPaths od td ∨ d ∈ ancestorPaths td od) ↔
        isDirectory (B.get? d) = true ∧ ancestorConflict B O T d = true) := by
  have hdistinct := distinctPaths_pathConflicts (flatOutcome B O T)
    (pathSet_sorted (B.keys ++ O.keys ++ T.keys))
  unfold planDeltas plan
  simp only [(pathLoop_eq ho ht).1, (pathLoop_eq ho ht).2]
  rw [← List.foldl_append,
    finish_congr (distinctPaths_foldl hdistinct) (distinctPaths_foldl hdistinct)]
  simp only [mem_foldl_addAncestorConflict, List.mem_append, mem_flatAncestors, free_iff ho ht]
  constructor
  · intro h d hd
    have hno : (⟨d, .Ancestor⟩ : MergeConflict) ∉ pathConflicts (flatOutcome B O T)
        (pathSet (B.keys ++ O.keys ++ T.keys)) :=
      fun hmem => hd _ (mem_pathConflicts.mp hmem).2
    have hc := h ⟨d, .Ancestor⟩
    rw [or_iff_right hno, or_iff_right hno] at hc
    simpa [hd] using hc
  · intro h c
    exact or_congr_right (and_congr_right fun _ => and_congr_left fun hc => h c.path hc)

/-- The entry the Merkle planner takes for the other side at a directory of the base is a
directory also where the other side deleted it: the deletion is read as the base entry. -/
theorem otherEntry_isDirectory_iff (ht : IsDeltaMap B T td) {d : Bytes} {b : TreeEntry}
    (hb : B.get? d = some b) (hk : b.kind = .Directory) :
    (((td.get? d).bind Delta.after).getD b).kind = .Directory ↔
      isDirectory (T.get? d) = true ∨ T.get? d = none := by
  rw [ht d, deltaAt]
  cases heq : equivalent (B.get? d) (T.get? d) with
  | true =>
    have hdir : isDirectory (T.get? d) = true := by
      rw [← isDirectory_eq_of_equivalent heq, hb]
      simp [isDirectory, hk]
    simp [hdir, hk]
  | false => cases hT : T.get? d <;> simp [hk, isDirectory]

/-- The paths at which the Merkle planner finds a lost directory with changes below it on the
other side. -/
theorem mem_ancestorPaths (ho : IsDeltaMap B O od) (ht : IsDeltaMap B T td) (d : Bytes) :
    d ∈ ancestorPaths od td ↔
      isDirectory (B.get? d) = true ∧ isDirectory (O.get? d) = false ∧
        (isDirectory (T.get? d) = true ∨ T.get? d = none) ∧
        ChangedBelow B T d ∧ ¬ ChangedBetween B T d := by
  rw [← ht.hasDescendant_iff d]
  unfold ancestorPaths
  simp only [List.mem_map, List.mem_filter, Prod.exists, exists_and_right, exists_eq_right,
    OrdMap.mem_toList_iff]
  constructor
  · rintro ⟨δ, hδ, hmatch⟩
    rw [ho d, deltaAt] at hδ
    split_ifs at hδ
    obtain rfl := Option.some.inj hδ
    cases hb : B.get? d with
    | none => simp [hb] at hmatch
    | some b =>
      simp only [hb, Bool.and_eq_true, decide_eq_true_eq, Bool.not_eq_true'] at hmatch
      obtain ⟨⟨⟨hk, hO⟩, hT⟩, hdesc⟩ := hmatch
      exact ⟨by simp [isDirectory, hk], hO, (otherEntry_isDirectory_iff ht hb hk).mp hT, hdesc⟩
  · rintro ⟨hB, hO, hT, hdesc⟩
    obtain ⟨b, hb, hk⟩ := isDirectory_iff.mp hB
    have hne : equivalent (B.get? d) (O.get? d) = false :=
      equivalent_eq_false_of_isDirectory (hB.trans_ne (by rw [hO]; decide))
    refine ⟨⟨B.get? d, O.get? d⟩, by rw [ho d, deltaAt, hne]; rfl, ?_⟩
    simp only [hb, Bool.and_eq_true, decide_eq_true_eq, Bool.not_eq_true']
    exact ⟨⟨⟨hk, hO⟩, (otherEntry_isDirectory_iff ht hb hk).mpr hT⟩, hdesc⟩

/-- The paths at which the flat planner finds a lost directory with changes below it on the
other side. -/
theorem ancestorConflict_iff (d : Bytes) :
    ancestorConflict B O T d = true ↔
      (isDirectory (O.get? d) = false ∧ isDirectory (T.get? d) = true ∧ ChangedBelow B T d) ∨
        (isDirectory (T.get? d) = false ∧ isDirectory (O.get? d) = true ∧ ChangedBelow B O d) := by
  unfold ancestorConflict
  simp only [Bool.or_eq_true, Bool.and_eq_true, Bool.not_eq_true', subtreeChanged_iff]
  constructor
  · rintro (⟨⟨⟨hO, hT⟩, hc⟩, -⟩ | ⟨⟨⟨hT, hO⟩, hc⟩, -⟩)
    · exact Or.inl ⟨hO, hT, hc⟩
    · exact Or.inr ⟨hT, hO, hc⟩
  · rintro (⟨hO, hT, hc⟩ | ⟨hT, hO, hc⟩)
    · exact Or.inl ⟨⟨⟨hO, hT⟩, hc⟩, equivalent_eq_false_of_isDirectory (by rw [hO, hT]; decide)⟩
    · exact Or.inr ⟨⟨⟨hT, hO⟩, hc⟩, equivalent_eq_false_of_isDirectory (by rw [hO, hT]; decide)⟩

/-- The condition at one directory of the base under which the planners agree there. -/
structure AgreeAt (B O T : OrdMap Bytes TreeEntry) (d : Bytes) : Prop where
  /-- Both sides deleted a directory that was not empty: each of them also changed a path that
  sorts between the directory and what was below it. -/
  bothDeleted : O.get? d = none → T.get? d = none →
    (∃ k, SepOrder.Below slash d k ∧ (B.get? k).isSome) →
      ChangedBetween B O d ∧ ChangedBetween B T d
  /-- Our side lost the directory and their side changed something below it and left the
  directory alone: their side changed no path in between. -/
  lostByOurs : isDirectory (O.get? d) = false → equivalent (B.get? d) (T.get? d) = true →
    ChangedBelow B T d → ¬ ChangedBetween B T d
  /-- The same with the sides exchanged. -/
  lostByTheirs : isDirectory (T.get? d) = false → equivalent (B.get? d) (O.get? d) = true →
    ChangedBelow B O d → ¬ ChangedBetween B O d

/-- **The planners agree** at every directory of the base. -/
def PlannersAgree (B O T : OrdMap Bytes TreeEntry) : Prop :=
  ∀ d, isDirectory (B.get? d) = true → AgreeAt B O T d

/-- Every path above an entry is a directory. -/
def ParentClosed (S : OrdMap Bytes TreeEntry) : Prop :=
  ∀ d k, SepOrder.Below slash d k → (S.get? k).isSome → isDirectory (S.get? d) = true

/-- Below a path that a side deleted, the changes are the entries of the base. -/
theorem changedBelow_of_deleted (hS : ParentClosed S) {d : Bytes} (hd : S.get? d = none) :
    ChangedBelow B S d ↔ ∃ k, SepOrder.Below slash d k ∧ (B.get? k).isSome := by
  have hnone : ∀ k, SepOrder.Below slash d k → S.get? k = none := by
    intro k hk
    rw [← Option.not_isSome_iff_eq_none]
    intro hsome
    have hdir := hS d k hk hsome
    rw [hd] at hdir
    exact absurd hdir (by decide)
  constructor
  · rintro ⟨k, hk, hne⟩
    refine ⟨k, hk, ?_⟩
    rw [hnone k hk] at hne
    cases hB : B.get? k with
    | some e => rfl
    | none =>
      rw [hB] at hne
      exact absurd hne (by decide)
  · rintro ⟨k, hk, hsome⟩
    refine ⟨k, hk, ?_⟩
    rw [hnone k hk]
    obtain ⟨e, he⟩ := Option.isSome_iff_exists.mp hsome
    rw [he]
    rfl

/-- A path is free unless all three sides differ there. -/
theorem free_iff_equivalent (d : Bytes) :
    Free B O T d ↔ equivalent (O.get? d) (T.get? d) = true ∨
      equivalent (B.get? d) (O.get? d) = true ∨ equivalent (B.get? d) (T.get? d) = true := by
  unfold Free flatOutcome mergePath
  cases equivalent (O.get? d) (T.get? d) <;> cases equivalent (B.get? d) (O.get? d) <;>
    cases equivalent (B.get? d) (T.get? d) <;> simp

/-- At a directory of the base, the planners add the same ancestor conflict exactly under
`AgreeAt`.

**Proof sketch.** By which of the two sides still has the directory.  If both have it, neither
planner adds a conflict.  If one has it, the path is free only if that side left the entry
alone, and then the planners differ by the paths in between.  If neither has it, the flat
planner adds nothing, while the Merkle planner takes a deletion for the base entry. -/
theorem agreeAt_iff (hO : ParentClosed O) (hT : ParentClosed T) {d : Bytes}
    (hB : isDirectory (B.get? d) = true) :
    AgreeAt B O T d ↔ (Free B O T d →
      ((isDirectory (O.get? d) = false ∧ (isDirectory (T.get? d) = true ∨ T.get? d = none) ∧
            ChangedBelow B T d ∧ ¬ ChangedBetween B T d) ∨
          (isDirectory (T.get? d) = false ∧ (isDirectory (O.get? d) = true ∨ O.get? d = none) ∧
            ChangedBelow B O d ∧ ¬ ChangedBetween B O d) ↔
        (isDirectory (O.get? d) = false ∧ isDirectory (T.get? d) = true ∧ ChangedBelow B T d) ∨
          (isDirectory (T.get? d) = false ∧ isDirectory (O.get? d) = true ∧
            ChangedBelow B O d))) := by
  rw [free_iff_equivalent]
  cases hdO : isDirectory (O.get? d) with
  | true =>
    have hOsome : O.get? d ≠ none := ne_none_of_isDirectory hdO
    cases hdT : isDirectory (T.get? d) with
    | true =>
      refine ⟨fun _ _ => by simp, fun _ => ⟨fun h => absurd h hOsome, ?_, ?_⟩⟩
      · exact fun h => absurd (hdO.symm.trans h) (by decide)
      · exact fun h => absurd (hdT.symm.trans h) (by decide)
    | false =>
      have hOT := equivalent_eq_false_of_isDirectory (hdO.trans_ne (by rw [hdT]; decide))
      have hBT := equivalent_eq_false_of_isDirectory (hB.trans_ne (by rw [hdT]; decide))
      simp only [hOT, hBT, Bool.false_eq_true, or_false, false_or, false_and, Bool.true_eq_false,
        true_or, true_and]
      constructor
      · intro h heq
        exact ⟨fun hc => hc.1, fun hc => ⟨hc, h.lostByTheirs hdT heq hc⟩⟩
      · intro h
        refine ⟨fun hO' => absurd hO' hOsome, fun hf => absurd (hdO.symm.trans hf) (by decide), ?_⟩
        exact fun _ heq hc => ((h heq).mpr hc).2
  | false =>
    have hBO := equivalent_eq_false_of_isDirectory (hB.trans_ne (by rw [hdO]; decide))
    cases hdT : isDirectory (T.get? d) with
    | true =>
      have hTsome : T.get? d ≠ none := ne_none_of_isDirectory hdT
      have hOT := equivalent_eq_false_of_isDirectory (hdO.trans_ne (by rw [hdT]; decide))
      simp only [hOT, hBO, Bool.false_eq_true, or_false, false_or, false_and, Bool.true_eq_false,
        true_or, true_and]
      constructor
      · intro h heq
        exact ⟨fun hc => hc.1, fun hc => ⟨hc, h.lostByOurs hdO heq hc⟩⟩
      · intro h
        refine ⟨fun _ hT' => absurd hT' hTsome, fun _ heq hc => ((h heq).mpr hc).2, ?_⟩
        exact fun hf => absurd (hdT.symm.trans hf) (by decide)
    | false =>
      have hBT := equivalent_eq_false_of_isDirectory (hB.trans_ne (by rw [hdT]; decide))
      simp only [hBO, hBT, Bool.false_eq_true, or_false, false_or, false_and, and_false, true_and,
        iff_false, not_or]
      constructor
      · intro h heq
        have hboth : O.get? d = none ↔ T.get? d = none := equivalent_none_iff heq
        refine ⟨?_, ?_⟩
        · rintro ⟨hT', hc, hbt⟩
          have hb := (changedBelow_of_deleted hT hT').mp hc
          exact hbt (h.bothDeleted (hboth.mpr hT') hT' hb).2
        · rintro ⟨hO', hc, hbt⟩
          have hb := (changedBelow_of_deleted hO hO').mp hc
          exact hbt (h.bothDeleted hO' (hboth.mp hO') hb).1
      · intro h
        refine ⟨fun hO' hT' hb => ?_, fun _ heq => absurd (hBT.symm.trans heq) (by decide),
          fun _ heq => absurd (hBO.symm.trans heq) (by decide)⟩
        obtain ⟨h1, h2⟩ := h (by rw [hO', hT']; rfl)
        refine ⟨by_contra fun hbt => h2 ⟨hO', ?_, hbt⟩, by_contra fun hbt => h1 ⟨hT', ?_, hbt⟩⟩
        · exact (changedBelow_of_deleted hO hO').mpr hb
        · exact (changedBelow_of_deleted hT hT').mpr hb

/-- The two planners agree on the maps exactly under `PlannersAgree`. -/
theorem planDeltas_eq_plan_iff (ho : IsDeltaMap B O od) (ht : IsDeltaMap B T td)
    (hO : ParentClosed O) (hT : ParentClosed T) :
    planDeltas od td = plan B O T ↔ PlannersAgree B O T := by
  rw [planDeltas_eq_plan_iff_ancestors ho ht]
  simp only [mem_ancestorPaths ho ht, mem_ancestorPaths ht ho, ancestorConflict_iff, ← and_or_left]
  refine forall_congr' fun d => ?_
  cases hB : isDirectory (B.get? d) with
  | false => simp
  | true =>
    simp only [true_and, forall_const]
    exact (agreeAt_iff hO hT hB).symm

end Agree

/-! ## The planner on Merkle roots -/

/-- The stored root is a well formed tree: directories have tree targets, names are valid,
sorted and unique, and every page records what is below it. -/
def WellFormedTree (store : ObjectStore) (root : ObjectId) : Prop := ∃ D, DirDenotes store root D

/-- The collected differences of two well formed trees are the differences of their flat maps. -/
theorem collectDelta_isDeltaMap {store : ObjectStore} {b o : ObjectId} {D E : Dir}
    (hD : DirDenotes store b D) (hE : DirDenotes store o E) {B O : OrdMap Bytes TreeEntry}
    (hB : ∀ k, B.get? k = D.get k) (hO : ∀ k, O.get? k = E.get k) :
    ∃ n od, (∀ fuel, n ≤ fuel → collectDelta store fuel b o [] OrdMap.empty = .ok od) ∧
      IsDeltaMap B O od := by
  obtain ⟨n, L, hL, hrun⟩ := collectDelta_eq hD hE
  refine ⟨n, _, fun fuel hf => hrun fuel hf [] OrdMap.empty, fun k => ?_⟩
  have hlist : underPrefix [] L = L := by simp [underPrefix]
  rw [hlist, OrdMap.get?_foldInsert_empty hL, deltaAt, deltaAt, hB, hO]

/-- The flat map of a well formed tree has a directory above every entry. -/
theorem parentClosed_of_denotes {store : ObjectStore} {b : ObjectId} {D : Dir}
    (hD : DirDenotes store b D) {B : OrdMap Bytes TreeEntry} (hB : ∀ k, B.get? k = D.get k) :
    ParentClosed B := by
  rintro d k ⟨r, rfl⟩ hk
  rw [hB] at hk ⊢
  obtain ⟨x, hx⟩ := Option.isSome_iff_exists.mp hk
  exact isDirectory_iff.mpr (Dir.get_isDirectory_of_below hD.stored hx)

/-- **When the Merkle planner is the flat planner.**  On three well formed trees both planners
return a plan, and the two plans are equal exactly under `PlannersAgree`.

**Proof sketch.** The collected differences are the differences of the flat maps, so the two
loops have the same outcomes; what can differ are the ancestor conflicts, and those are
compared directory by directory in `agreeAt_iff`. -/
theorem planTrees_eq_plan_iff (store : ObjectStore) (baseRoot oursRoot theirsRoot : ObjectId)
    (hbase : WellFormedTree store baseRoot) (hours : WellFormedTree store oursRoot)
    (htheirs : WellFormedTree store theirsRoot) :
    ∃ n base ours theirs merged,
      (∀ fuel, n ≤ fuel →
        flattenTree store fuel baseRoot = .ok base ∧ flattenTree store fuel oursRoot = .ok ours ∧
          flattenTree store fuel theirsRoot = .ok theirs ∧
          planTrees store fuel baseRoot oursRoot theirsRoot = .ok merged) ∧
      (merged = plan base ours theirs ↔ PlannersAgree base ours theirs) := by
  obtain ⟨D, hD⟩ := hbase
  obtain ⟨E, hE⟩ := hours
  obtain ⟨F, hF⟩ := htheirs
  obtain ⟨n₁, B, hflatB, hB⟩ := flattenTree_eq hD
  obtain ⟨n₂, O, hflatO, hO⟩ := flattenTree_eq hE
  obtain ⟨n₃, T, hflatT, hT⟩ := flattenTree_eq hF
  obtain ⟨n₄, od, hod, hdeltaO⟩ := collectDelta_isDeltaMap hD hE hB hO
  obtain ⟨n₅, td, htd, hdeltaT⟩ := collectDelta_isDeltaMap hD hF hB hT
  refine ⟨n₁ + n₂ + n₃ + n₄ + n₅, B, O, T, planDeltas od td, fun fuel hf => ?_, ?_⟩
  · refine ⟨hflatB fuel (by omega), hflatO fuel (by omega), hflatT fuel (by omega), ?_⟩
    rw [planTrees, hod fuel (by omega), htd fuel (by omega)]
    rfl
  · exact planDeltas_eq_plan_iff hdeltaO hdeltaT (parentClosed_of_denotes hE hO)
      (parentClosed_of_denotes hF hT)

/-! ### Two merges on which the planners differ -/

/-- A one-byte file. -/
def sampleFile (name : Bytes) (content : Byte) : TreeEntry :=
  { name := name, kind := .File, target := some (.fill content), linkTarget := [],
    mode := 0o100644, size := 1, mtimeSecs := 0, mtimeNanos := 0, xattrs := none,
    contentClass := .Source }

/-- A directory with the given tree. -/
def sampleDirectory (name : Bytes) (tree : ObjectId) : TreeEntry :=
  { name := name, kind := .Directory, target := some tree, linkTarget := [], mode := 0o040755,
    size := 0, mtimeSecs := 0, mtimeNanos := 0, xattrs := none, contentClass := .Source }

/-- The names `d`, `d-x`, `f` and `g`. -/
def sampleNames : Bytes × Bytes × Bytes × Bytes := ([100], [100, 45, 120], [102], [103])

/-- Three sides of a merge: the base holds `d/f` and `d-x`; ours has no `d` any more; theirs
adds `d/g` and edits `d-x`; a fourth root holds nothing. -/
def sampleStore : ObjectStore := fun id =>
  let (d, dx, f, g) := sampleNames
  if id = .fill 1 then some (.tree ⟨[sampleDirectory d (.fill 11), sampleFile dx 1], []⟩)
  else if id = .fill 2 then some (.tree ⟨[sampleFile dx 1], []⟩)
  else if id = .fill 3 then some (.tree ⟨[sampleDirectory d (.fill 12), sampleFile dx 2], []⟩)
  else if id = .fill 4 then some (.tree ⟨[], []⟩)
  else if id = .fill 5 then some (.tree ⟨[sampleDirectory d (.fill 11)], []⟩)
  else if id = .fill 11 then some (.tree ⟨[sampleFile f 1], []⟩)
  else if id = .fill 12 then some (.tree ⟨[sampleFile f 1, sampleFile g 1], []⟩)
  else none

/-- A single-leaf root over the contents `D`. -/
private theorem sample_denotes {id : ObjectId} {D : Dir}
    (hpage : sampleStore id = some (.tree ⟨D.entries, []⟩)) (hsorted : NameSorted D.entries)
    (hstored : D.Stored sampleStore) : DirDenotes sampleStore id D :=
  ⟨.leaf hpage, hsorted, hstored⟩

/-- The names of the sample are valid. -/
private theorem sample_names_valid :
    validateName sampleNames.1 = .ok () ∧ validateName sampleNames.2.1 = .ok () ∧
      validateName sampleNames.2.2.1 = .ok () ∧ validateName sampleNames.2.2.2 = .ok () := by
  decide

/-- The five roots of the sample store are well formed. -/
theorem sample_wellFormed :
    WellFormedTree sampleStore (.fill 1) ∧ WellFormedTree sampleStore (.fill 2) ∧
      WellFormedTree sampleStore (.fill 3) ∧ WellFormedTree sampleStore (.fill 4) ∧
      WellFormedTree sampleStore (.fill 5) := by
  obtain ⟨hd, hdx, hf, hg⟩ := sample_names_valid
  have h11 : DirDenotes sampleStore (.fill 11) (.cons (sampleFile [102] 1) .nil .nil) :=
    sample_denotes (by decide) (List.pairwise_singleton _ _) ⟨hf, rfl, trivial⟩
  have h12 : DirDenotes sampleStore (.fill 12)
      (.cons (sampleFile [102] 1) .nil (.cons (sampleFile [103] 1) .nil .nil)) :=
    sample_denotes (by decide) (by unfold NameSorted; decide)
      ⟨hf, rfl, hg, rfl, trivial⟩
  refine ⟨⟨.cons (sampleDirectory [100] (.fill 11)) (.cons (sampleFile [102] 1) .nil .nil)
      (.cons (sampleFile [100, 45, 120] 1) .nil .nil), ?_⟩,
    ⟨.cons (sampleFile [100, 45, 120] 1) .nil .nil, ?_⟩,
    ⟨.cons (sampleDirectory [100] (.fill 12))
      (.cons (sampleFile [102] 1) .nil (.cons (sampleFile [103] 1) .nil .nil))
      (.cons (sampleFile [100, 45, 120] 2) .nil .nil), ?_⟩,
    ⟨.nil, ?_⟩,
    ⟨.cons (sampleDirectory [100] (.fill 11)) (.cons (sampleFile [102] 1) .nil .nil) .nil, ?_⟩⟩
  · exact sample_denotes (by decide) (by unfold NameSorted; decide)
      ⟨hd, ⟨.fill 11, rfl, h11.page, h11.sorted, h11.stored⟩, hdx, rfl, trivial⟩
  · exact sample_denotes (by decide) (List.pairwise_singleton _ _) ⟨hdx, rfl, trivial⟩
  · exact sample_denotes (by decide) (by unfold NameSorted; decide)
      ⟨hd, ⟨.fill 12, rfl, h12.page, h12.sorted, h12.stored⟩, hdx, rfl, trivial⟩
  · exact sample_denotes (by decide) List.Pairwise.nil trivial
  · exact sample_denotes (by decide) (List.pairwise_singleton _ _)
      ⟨hd, ⟨.fill 11, rfl, h11.page, h11.sorted, h11.stored⟩, trivial⟩

/-- Whether the two planners return the same plan. -/
def samePlans (store : ObjectStore) (fuel : ℕ) (baseRoot oursRoot theirsRoot : ObjectId) :
    Except StoreError Bool := do
  let base ← flattenTree store fuel baseRoot
  let ours ← flattenTree store fuel oursRoot
  let theirs ← flattenTree store fuel theirsRoot
  let merged ← planTrees store fuel baseRoot oursRoot theirsRoot
  pure (merged = plan base ours theirs)

/-- **Two merges of well formed trees on which the planners differ.**  In the first, ours
deleted `d`, theirs added `d/g` and edited `d-x`: the Merkle planner misses the conflict at
`d`, because the first changed path after `d` is `d-x`.  In the second, both sides deleted the
directory `d` that held one file: the Merkle planner reports a conflict at `d`. -/
theorem planTrees_differs_from_plan :
    (WellFormedTree sampleStore (.fill 1) ∧ WellFormedTree sampleStore (.fill 2) ∧
        WellFormedTree sampleStore (.fill 3) ∧
        samePlans sampleStore 20 (.fill 1) (.fill 2) (.fill 3) = .ok false) ∧
      (WellFormedTree sampleStore (.fill 5) ∧ WellFormedTree sampleStore (.fill 4) ∧
        samePlans sampleStore 20 (.fill 5) (.fill 4) (.fill 4) = .ok false) := by
  obtain ⟨h1, h2, h3, h4, h5⟩ := sample_wellFormed
  exact ⟨⟨h1, h2, h3, by decide⟩, ⟨h5, h4, by decide⟩⟩

/-- The condition decides the first of the two merges. -/
theorem planTrees_eq_plan_iff_sample :
    ∃ n base ours theirs merged,
      (∀ fuel, n ≤ fuel →
        flattenTree sampleStore fuel (.fill 1) = .ok base ∧
          flattenTree sampleStore fuel (.fill 2) = .ok ours ∧
          flattenTree sampleStore fuel (.fill 3) = .ok theirs ∧
          planTrees sampleStore fuel (.fill 1) (.fill 2) (.fill 3) = .ok merged) ∧
      (merged = plan base ours theirs ↔ PlannersAgree base ours theirs) :=
  planTrees_eq_plan_iff sampleStore (.fill 1) (.fill 2) (.fill 3) sample_wellFormed.1
    sample_wellFormed.2.1 sample_wellFormed.2.2.1

end Furrow
