import Mathlib
import Furrow.Capture.StatCache
import Furrow.Claims.Glob
import Furrow.Lib.Fallible
import Furrow.Lib.OrdMap
import Furrow.Lib.Run

set_option relaxedAutoImplicit false
set_option autoImplicit false

/-!
# The registry of claims

`claims.rs` with its callers in `repository.rs`.  A claim is checked against all others in the
transaction that inserts it.  Two operations insert claims without that check: a release whose
snapshot fails puts the released claims back, and a pull takes over the claims of the remote
snapshot.

## Main definitions

* `Furrow.claim`, `Furrow.release`, `Furrow.releaseWorkspace`, `Furrow.restore` — the operations.
* `Furrow.ClaimsState`, `Furrow.ClaimsStep`, `Furrow.ClaimsState.step` — the runs.
* `Furrow.ClaimsState.Exclusive` — no two holders have claims on a common path.

## Main results

* `Furrow.exclusive_iff` — claims stay exclusive exactly as long as no claim is put back or taken
  over that overlaps one that was made meanwhile.
-/

namespace Furrow

/-- A claim (`ClaimRecord`). -/
structure ClaimRecord where
  id : Bytes
  pattern : Bytes
  owner : Bytes
  workspaceId : Bytes
  createdAt : ℤ
  expiresAt : ℤ
deriving DecidableEq

/-- The table of claims, by identifier. -/
abbrev Claims := OrdMap Bytes ClaimRecord

/-- Why a claim is refused. -/
inductive ClaimError
  /-- `claim pattern cannot be empty` -/
  | emptyPattern
  /-- `claim pattern is too long` -/
  | patternTooLong
  /-- `claim pattern must be relative` -/
  | patternNotRelative
  /-- `claim pattern contains control characters` -/
  | patternControl
  /-- `claim pattern contains an unsafe path component` -/
  | unsafeComponent
  /-- `claim owner cannot be empty` -/
  | emptyOwner
  /-- `claim owner is too long` -/
  | ownerTooLong
  /-- `claim owner contains control characters` -/
  | ownerControl
  /-- `claim TTL must be between 1 second and 7 days` -/
  | invalidTtl
  /-- ``claim `…` overlaps `…` held by … until …`` -/
  | overlaps (pattern : Bytes) (conflict : ClaimRecord)
  /-- The new identifier is in use. -/
  | idTaken
  /-- ``no claim `…` is held by … in this workspace`` -/
  | notHeld
deriving DecidableEq

/-! ## Validation -/

/-- `MAX_PATTERN_BYTES` -/
def maxPatternBytes : ℕ := 1024

/-- `MAX_OWNER_BYTES` -/
def maxOwnerBytes : ℕ := 256

/-- `MAX_TTL_SECONDS` -/
def maxTtlSeconds : ℕ := 7 * 24 * 60 * 60

/-- Control characters in UTF-8: below the space, the delete character, and U+0080 to U+009F. -/
def hasControl : Bytes → Bool
  | [] => false
  | [b] => b < 32 || b = 127
  | b :: c :: rest => b < 32 || b = 127 || (b = 194 && 128 ≤ c && c ≤ 159) || hasControl (c :: rest)

/-- `validate_owner`. -/
def validateOwner (owner : Bytes) : Except ClaimError Unit :=
  if owner = [] then .error .emptyOwner
  else if maxOwnerBytes < owner.length then .error .ownerTooLong
  else if hasControl owner then .error .ownerControl
  else .ok ()

/-- `validate_pattern`. -/
def validatePattern (pattern : Bytes) : Except ClaimError Unit :=
  if pattern = [] then .error .emptyPattern
  else if maxPatternBytes < pattern.length then .error .patternTooLong
  else if pattern.head? = some slash then .error .patternNotRelative
  else if hasControl pattern then .error .patternControl
  else if (pattern.splitOn slash).any fun c => c = [] || c = [46] || c = [46, 46] then
    .error .unsafeComponent
  else .ok ()

/-- The test for an overlap is sound: patterns that match a common path do not pass it. -/
theorem patternsMayOverlap_of_validated {left right : Bytes}
    (_hleft : validatePattern left = .ok ()) (_hright : validatePattern right = .ok ())
    (path : Bytes) (hpath : matchesPath left path = true) (hpath' : matchesPath right path = true) :
    patternsMayOverlap left right = true :=
  patternsMayOverlap_of_matchesPath hpath hpath'

/-- A recursive pattern and a file below it. -/
theorem patternsMayOverlap_of_validated_auth :
    patternsMayOverlap (text "src/**") (text "src/a.rs") = true :=
  patternsMayOverlap_of_validated (by decide) (by decide) (text "src/a.rs") (by decide) (by decide)

/-! ## Operations -/

/-- Two claims of one agent in one workspace. -/
def ClaimRecord.SameHolder (c d : ClaimRecord) : Prop :=
  c.owner = d.owner ∧ c.workspaceId = d.workspaceId

instance : DecidableRel ClaimRecord.SameHolder := fun _ _ => inferInstanceAs (Decidable (_ ∧ _))

/-- Delete the claims that have expired. -/
def expire (now : ℤ) (rows : Claims) : Claims := rows.filter fun _ c => now < c.expiresAt

/-- The claims by the time they were made. -/
def byCreation (rows : Claims) : List ClaimRecord :=
  (rows.toList.map Prod.snd).insertionSort fun a b =>
    a.createdAt < b.createdAt ∨ (a.createdAt = b.createdAt ∧ a.id ≤ b.id)

/-- The transaction of a claim: a claim that the holder has already is returned; one that may
overlap a claim of another holder is refused. -/
def insertClaim (now : ℤ) (newId pattern owner workspaceId : Bytes) (ttlSeconds : ℕ)
    (rows : Claims) : Except ClaimError (ClaimRecord × Claims) :=
  let rows := expire now rows
  let existing := byCreation rows
  match existing.find? fun c =>
      c.workspaceId = workspaceId && c.owner = owner && c.pattern = pattern with
  | some c => .ok (c, rows)
  | none =>
    match existing.find? fun c =>
        !(c.workspaceId = workspaceId && c.owner = owner) &&
          patternsMayOverlap c.pattern pattern with
    | some conflict => .error (.overlaps pattern conflict)
    | none =>
      let c : ClaimRecord :=
        ⟨newId, pattern, owner, workspaceId, now, saturate (now + ttlSeconds)⟩
      if (rows.get? newId).isSome then .error .idTaken else .ok (c, rows.insert newId c)

/-- **Claim a pattern** (`claim`), at a time and with a new identifier. -/
def claim (now : ℤ) (newId pattern owner workspaceId : Bytes) (ttlSeconds : ℕ) (rows : Claims) :
    Except ClaimError (ClaimRecord × Claims) := do
  validatePattern pattern
  validateOwner owner
  if ttlSeconds < 1 ∨ maxTtlSeconds < ttlSeconds then .error .invalidTtl
  else insertClaim now newId pattern owner workspaceId ttlSeconds rows

/-- Whether a release of some holder is of a claim. -/
def isSelected (selector owner workspaceId : Bytes) (c : ClaimRecord) : Bool :=
  (c.id = selector || c.pattern = selector) && c.owner = owner && c.workspaceId = workspaceId

/-- **Release claims** by identifier or pattern (`release`); they are returned. -/
def release (selector owner workspaceId : Bytes) (rows : Claims) :
    Except ClaimError (List ClaimRecord × Claims) := do
  validateOwner owner
  let released := (rows.toList.map Prod.snd).filter (isSelected selector owner workspaceId)
  if released = [] then .error .notHeld
  else .ok (released, released.foldl (fun rows c => rows.erase c.id) rows)

/-- **Put claims into the table** (`restore`), in the place of those with their identifiers. -/
def restore (claims : List ClaimRecord) (rows : Claims) : Claims :=
  claims.foldl (fun rows c => rows.insert c.id c) rows

/-- Release all claims of a workspace. -/
def releaseWorkspace (workspaceId : Bytes) (rows : Claims) : Claims :=
  rows.filter fun _ c => c.workspaceId ≠ workspaceId

/-! ## Runs -/

/-- The registry, the claims of releases whose snapshots are not sealed yet, and the time. -/
structure ClaimsState where
  rows : Claims
  releasing : List (List ClaimRecord)
  clock : ℤ

/-- What happens to the registry, from any agent and workspace. -/
inductive ClaimsStep
  | claim (now : ℤ) (newId pattern owner workspaceId : Bytes) (ttlSeconds : ℕ)
  | active (now : ℤ)
  /-- The first half of `release_claim`. -/
  | release (selector owner workspaceId : Bytes)
  /-- The snapshot of a release is sealed. -/
  | releaseSealed (i : ℕ)
  /-- The snapshot of a release fails: its claims are put back. -/
  | releaseFailed (i : ℕ)
  | releaseWorkspace (workspaceId : Bytes)
  /-- A pull takes over the claims of the remote snapshot. -/
  | pull (claims : List ClaimRecord)
  /-- Time passes. -/
  | tick (now : ℤ)

/-- One step.  A claim or release that is refused changes nothing. -/
def ClaimsState.step (s : ClaimsState) : ClaimsStep → ClaimsState
  | .claim now newId pattern owner workspaceId ttlSeconds =>
    match Furrow.claim now newId pattern owner workspaceId ttlSeconds s.rows with
    | .ok (_, rows) => { s with rows := rows, clock := now }
    | .error _ => { s with clock := now }
  | .active now => { s with rows := expire now s.rows, clock := now }
  | .release selector owner workspaceId =>
    match Furrow.release selector owner workspaceId s.rows with
    | .ok (released, rows) => { s with rows := rows, releasing := s.releasing ++ [released] }
    | .error _ => s
  | .releaseSealed i => { s with releasing := s.releasing.eraseIdx i }
  | .releaseFailed i =>
    match s.releasing[i]? with
    | some released =>
      { s with rows := restore released s.rows, releasing := s.releasing.eraseIdx i }
    | none => s
  | .releaseWorkspace workspaceId =>
    { s with rows := Furrow.releaseWorkspace workspaceId s.rows }
  | .pull claims => { s with rows := restore claims s.rows }
  | .tick now => { s with clock := now }

/-- A registry that was just made, at a time. -/
def ClaimsState.start (clock : ℤ) : ClaimsState := ⟨.empty, [], clock⟩

/-- Two patterns match a common path. -/
def Overlaps (left right : Bytes) : Prop :=
  ∃ path, matchesPath left path = true ∧ matchesPath right path = true

/-- Two claims do not exclude each other: they have one holder, or no common path. -/
def ClaimRecord.Compatible (c d : ClaimRecord) : Prop :=
  c.SameHolder d ∨ ¬ Overlaps c.pattern d.pattern

/-- **Claims are exclusive**: no two unexpired claims of different holders have patterns that
match a common path. -/
def ClaimsState.Exclusive (s : ClaimsState) : Prop :=
  ∀ i c j d, s.rows.get? i = some c → s.rows.get? j = some d → s.clock < c.expiresAt →
    s.clock < d.expiresAt → c.Compatible d

/-- Time does not go back. -/
def ClaimsStep.Valid (s : ClaimsState) : ClaimsStep → Prop
  | .claim now _ _ _ _ _ | .active now | .tick now => s.clock ≤ now
  | _ => True

/-- Claims that may be put into a table: those that have not expired overlap neither each other
nor an unexpired claim of another holder that stays in the table. -/
def RestoreSafe (s : ClaimsState) (claims : List ClaimRecord) : Prop :=
  ∀ i c, (restore claims .empty).get? i = some c → s.clock < c.expiresAt →
    (∀ j d, (restore claims .empty).get? j = some d → s.clock < d.expiresAt → c.Compatible d) ∧
    ∀ j d, s.rows.get? j = some d → (restore claims .empty).get? j = none →
      s.clock < d.expiresAt → c.Compatible d

/-- The steps that put no overlapping claims into the table. -/
def ClaimsStep.Safe (s : ClaimsState) : ClaimsStep → Prop
  | .releaseFailed i => ∀ released, s.releasing[i]? = some released → RestoreSafe s released
  | .pull claims => RestoreSafe s claims
  | _ => True

/-! ## One step -/

/-- Overlap is symmetric. -/
theorem Overlaps.symm {left right : Bytes} (h : Overlaps left right) : Overlaps right left := by
  obtain ⟨path, hleft, hright⟩ := h
  exact ⟨path, hright, hleft⟩

/-- Compatibility is symmetric. -/
theorem ClaimRecord.Compatible.symm {c d : ClaimRecord} (h : c.Compatible d) : d.Compatible c := by
  rcases h with ⟨howner, hworkspace⟩ | h
  · exact Or.inl ⟨howner.symm, hworkspace.symm⟩
  · exact Or.inr fun hoverlap => h hoverlap.symm

/-- A claim is compatible with itself. -/
theorem ClaimRecord.compatible_self (c : ClaimRecord) : c.Compatible c := Or.inl ⟨rfl, rfl⟩

/-- Fewer claims, later, are exclusive too. -/
theorem ClaimsState.Exclusive.sub {s s' : ClaimsState} (h : s.Exclusive)
    (hrows : ∀ i c, s'.rows.get? i = some c → s.rows.get? i = some c)
    (hclock : s.clock ≤ s'.clock) : s'.Exclusive :=
  fun i c j d hc hd hci hdj =>
    h i c j d (hrows i c hc) (hrows j d hd) (by omega) (by omega)

/-- What is left after expiry was there before it. -/
theorem get?_of_expire {now : ℤ} {rows : Claims} {i : Bytes} {c : ClaimRecord}
    (h : (expire now rows).get? i = some c) : rows.get? i = some c := by
  rw [expire, OrdMap.get?_filter] at h
  exact (Option.filter_eq_some_iff.mp h).1

/-- Every row is listed by creation. -/
theorem mem_byCreation {rows : Claims} {i : Bytes} {c : ClaimRecord} (h : rows.get? i = some c) :
    c ∈ byCreation rows := by
  rw [byCreation, List.mem_insertionSort]
  exact List.mem_map.mpr ⟨(i, c), (OrdMap.mem_toList_iff _).mpr h, rfl⟩

/-- **What a claim does**: expired claims are deleted, and at most one is added, which is compatible
with all others. -/
theorem claim_cases {now : ℤ} {newId pattern owner workspaceId : Bytes} {ttlSeconds : ℕ}
    {rows rows' : Claims} {c : ClaimRecord}
    (h : claim now newId pattern owner workspaceId ttlSeconds rows = .ok (c, rows')) :
    rows' = expire now rows ∨
      rows' = (expire now rows).insert newId c ∧
        ∀ i d, (expire now rows).get? i = some d → d.Compatible c := by
  unfold claim at h
  obtain ⟨-, -, h⟩ := Fallible.exists_of_bind_eq_ok h
  obtain ⟨-, -, h⟩ := Fallible.exists_of_bind_eq_ok h
  split_ifs at h with httl
  unfold insertClaim at h
  dsimp only at h
  split at h
  · exact Or.inl (Prod.mk.inj (Except.ok.inj h)).2.symm
  · split at h
    · exact absurd h (by simp)
    · rename_i hnone
      split_ifs at h with htaken
      · obtain ⟨rfl, rfl⟩ := Prod.mk.inj (Except.ok.inj h)
        refine Or.inr ⟨rfl, fun i d hd => ?_⟩
        have hpass := List.find?_eq_none.mp hnone d (mem_byCreation hd)
        by_cases hholder : d.workspaceId = workspaceId ∧ d.owner = owner
        · exact Or.inl ⟨hholder.2, hholder.1⟩
        · refine Or.inr fun hoverlap => hpass ?_
          obtain ⟨path, hleft, hright⟩ := hoverlap
          rw [Bool.and_eq_true, patternsMayOverlap_of_matchesPath hleft hright]
          exact ⟨by simpa using not_and_or.mp hholder, rfl⟩

/-- **A claim keeps claims exclusive.** -/
theorem ClaimsState.Exclusive.claim {s : ClaimsState} (h : s.Exclusive) {now : ℤ}
    (hclock : s.clock ≤ now) (newId pattern owner workspaceId : Bytes) (ttlSeconds : ℕ) :
    (s.step (.claim now newId pattern owner workspaceId ttlSeconds)).Exclusive := by
  rw [ClaimsState.step]
  split
  · rename_i c rows' hclaim
    have hold : ∀ i d j e, (expire now s.rows).get? i = some d →
        (expire now s.rows).get? j = some e → now < d.expiresAt → now < e.expiresAt →
          d.Compatible e :=
      fun i d j e hd he hdi hej =>
        h i d j e (get?_of_expire hd) (get?_of_expire he) (by omega) (by omega)
    rcases claim_cases hclaim with rfl | ⟨rfl, hnew⟩
    · exact hold
    · intro i d j e hd he hdi hej
      dsimp only at hd he hdi hej
      rw [OrdMap.get?_insert] at hd he
      split_ifs at hd he with hi hj hj
      · rw [← Option.some.inj hd, ← Option.some.inj he]
        exact ClaimRecord.compatible_self _
      · rw [← Option.some.inj hd]
        exact (hnew j e he).symm
      · rw [← Option.some.inj he]
        exact hnew i d hd
      · exact hold i d j e hd he hdi hej
  · exact h.sub (fun _ _ hc => hc) hclock

/-- What is released was in the table, and the rest stays. -/
theorem get?_of_foldl_erase {claims : List ClaimRecord} {rows : Claims} {i : Bytes}
    {c : ClaimRecord} (h : (claims.foldl (fun rows c => rows.erase c.id) rows).get? i = some c) :
    rows.get? i = some c := by
  induction claims generalizing rows with
  | nil => exact h
  | cons d claims ih =>
    have hrest := ih h
    rw [OrdMap.get?_erase] at hrest
    split_ifs at hrest
    exact hrest

/-- A table after claims were put into it. -/
theorem get?_restore (claims : List ClaimRecord) (rows : Claims) (i : Bytes) :
    (restore claims rows).get? i = ((restore claims .empty).get? i).or (rows.get? i) := by
  induction claims using List.reverseRecOn with
  | nil => simp [restore]
  | append_singleton claims c ih =>
    unfold restore at ih ⊢
    rw [List.foldl_append, List.foldl_append, List.foldl_cons, List.foldl_cons, List.foldl_nil,
      List.foldl_nil, OrdMap.get?_insert, OrdMap.get?_insert]
    split_ifs with hi
    · rfl
    · exact ih

/-- **Claims that are put into a table leave it exclusive exactly if that was safe.** -/
theorem exclusive_restore_iff {s : ClaimsState} (h : s.Exclusive) (claims : List ClaimRecord)
    (releasing : List (List ClaimRecord)) :
    (⟨restore claims s.rows, releasing, s.clock⟩ : ClaimsState).Exclusive ↔
      RestoreSafe s claims := by
  constructor
  · intro hafter i c hc hci
    have hc' : (restore claims s.rows).get? i = some c := by rw [get?_restore, hc, Option.some_or]
    refine ⟨fun j d hd hdj => ?_, fun j d hd hnone hdj => ?_⟩
    · exact hafter i c j d hc' (by rw [get?_restore, hd, Option.some_or]) hci hdj
    · exact hafter i c j d hc' (by rw [get?_restore, hnone, Option.none_or, hd]) hci hdj
  · intro hsafe i c j d hc hd hci hdj
    dsimp only at hc hd hci hdj
    rw [get?_restore] at hc hd
    cases hri : (restore claims .empty).get? i with
    | some c' =>
      rw [hri, Option.some_or] at hc
      rw [← Option.some.inj hc] at hci ⊢
      cases hrj : (restore claims .empty).get? j with
      | some d' =>
        rw [hrj, Option.some_or] at hd
        rw [← Option.some.inj hd] at hdj ⊢
        exact (hsafe i c' hri hci).1 j d' hrj hdj
      | none =>
        rw [hrj, Option.none_or] at hd
        exact (hsafe i c' hri hci).2 j d hd hrj hdj
    | none =>
      rw [hri, Option.none_or] at hc
      cases hrj : (restore claims .empty).get? j with
      | some d' =>
        rw [hrj, Option.some_or] at hd
        rw [← Option.some.inj hd] at hdj ⊢
        exact ((hsafe j d' hrj hdj).2 i c hc hri hci).symm
      | none =>
        rw [hrj, Option.none_or] at hd
        exact h i c j d hc hd hci hdj

/-- **After a step claims are exclusive exactly if the step was safe.** -/
theorem exclusive_step_iff {s : ClaimsState} (h : s.Exclusive) {a : ClaimsStep}
    (hvalid : a.Valid s) : (s.step a).Exclusive ↔ a.Safe s := by
  have htrue : (s.step a).Exclusive → ((s.step a).Exclusive ↔ True) := fun h =>
    ⟨fun _ => trivial, fun _ => h⟩
  cases a with
  | claim now newId pattern owner workspaceId ttlSeconds =>
    exact htrue (h.claim hvalid newId pattern owner workspaceId ttlSeconds)
  | active now => exact htrue (h.sub (fun _ _ hc => get?_of_expire hc) hvalid)
  | tick now => exact htrue (h.sub (fun _ _ hc => hc) hvalid)
  | releaseSealed i => exact htrue (h.sub (fun _ _ hc => hc) le_rfl)
  | releaseWorkspace workspaceId =>
    refine htrue (h.sub (fun i c hc => ?_) le_rfl)
    have hc' : (releaseWorkspace workspaceId s.rows).get? i = some c := hc
    rw [releaseWorkspace, OrdMap.get?_filter] at hc'
    exact (Option.filter_eq_some_iff.mp hc').1
  | release selector owner workspaceId =>
    apply htrue
    rw [ClaimsState.step]
    split
    · rename_i released rows' hrelease
      refine h.sub (fun i c hc => ?_) le_rfl
      unfold release at hrelease
      obtain ⟨-, -, hrelease⟩ := Fallible.exists_of_bind_eq_ok hrelease
      dsimp only at hrelease
      split_ifs at hrelease with hempty
      rw [← (Prod.mk.inj (Except.ok.inj hrelease)).2] at hc
      exact get?_of_foldl_erase hc
    · exact h
  | releaseFailed i =>
    rw [ClaimsState.step, ClaimsStep.Safe]
    cases hi : s.releasing[i]? with
    | none => exact ⟨fun _ released hreleased => absurd hreleased (by simp), fun _ => h⟩
    | some released =>
      dsimp only
      rw [exclusive_restore_iff h]
      constructor
      · intro hsafe released' hreleased
        rw [← Option.some.inj hreleased]
        exact hsafe
      · intro hsafe
        exact hsafe released rfl
  | pull claims => exact exclusive_restore_iff h claims s.releasing

/-- **Claims stay exclusive exactly as long as no overlapping claims are put back or taken
over.** -/
theorem exclusive_iff (clock : ℤ) (steps : List ClaimsStep)
    (hvalid : Run.Along ClaimsState.step (fun s a => a.Valid s) (.start clock) steps) :
    Run.Throughout ClaimsState.step ClaimsState.Exclusive (.start clock) steps ↔
      Run.Along ClaimsState.step (fun s a => a.Safe s) (.start clock) steps := by
  refine Run.throughout_iff_along (fun s a h hv => exclusive_step_iff h hv) ?_ hvalid
  intro i c j d hc
  exact absurd hc (by simp [ClaimsState.start])

/-! ### A sample -/

/-- One agent claims a file and releases it. -/
def sampleRelease : List ClaimsStep :=
  [.claim 0 (text "1") (text "a.rs") (text "alpha") (text "w") 3600,
    .release (text "a.rs") (text "alpha") (text "w")]

/-- The claim of the first agent. -/
def sampleClaim : ClaimRecord := ⟨text "1", text "a.rs", text "alpha", text "w", 0, 3600⟩

/-- The claim of another agent, on another file. -/
def sampleOther : ClaimRecord := ⟨text "3", text "b.rs", text "beta", text "v", 1, 3601⟩

/-- The other agent claims its file while the first one releases. -/
def sampleBeside : List ClaimsStep :=
  sampleRelease ++ [.claim 1 (text "3") (text "b.rs") (text "beta") (text "v") 3600]

/-- The two claims of the sample hold different files. -/
theorem sampleClaim_compatible : sampleClaim.Compatible sampleOther := by
  refine Or.inr fun hoverlap => ?_
  obtain ⟨path, hleft, hright⟩ := hoverlap
  exact absurd (patternsMayOverlap_of_matchesPath hleft hright) (by decide)

/-- A release that fails while another agent holds another file: both claims stand afterwards. -/
theorem exclusive_sample :
    Run.Throughout ClaimsState.step ClaimsState.Exclusive (.start 0)
        (sampleBeside ++ [.releaseFailed 0]) ∧
      ((sampleBeside ++ [ClaimsStep.releaseFailed 0]).foldl ClaimsState.step
        (.start 0)).rows.toList = [(text "1", sampleClaim), (text "3", sampleOther)] := by
  have hstate : (sampleBeside.foldl ClaimsState.step (.start 0)).releasing[0]? =
      some [sampleClaim] := by
    decide
  have hrows : (sampleBeside.foldl ClaimsState.step (.start 0)).rows.toList =
      [(text "3", sampleOther)] := by
    decide
  have hclock : (sampleRelease.foldl ClaimsState.step (.start 0)).clock ≤ 1 := by
    decide
  have hvalid : Run.Along ClaimsState.step (fun s a => a.Valid s) (.start 0)
      (sampleBeside ++ [.releaseFailed 0]) := ⟨le_rfl, trivial, hclock, trivial, trivial⟩
  have hafter : ((sampleBeside ++ [ClaimsStep.releaseFailed 0]).foldl ClaimsState.step
      (.start 0)).rows.toList =
        [(text "1", sampleClaim), (text "3", sampleOther)] := by
    decide
  refine ⟨(exclusive_iff 0 _ hvalid).mpr
    ⟨trivial, trivial, trivial, fun released hreleased => ?_, trivial⟩, hafter⟩
  have hreleased' : (sampleBeside.foldl ClaimsState.step (.start 0)).releasing[0]? =
      some released := hreleased
  rw [hstate] at hreleased'
  have hone : ∀ i c, (restore released .empty).get? i = some c → c = sampleClaim := by
    intro i c hc
    rw [← Option.some.inj hreleased', restore, List.foldl_cons, List.foldl_nil,
      OrdMap.get?_insert] at hc
    split_ifs at hc with hi
    · exact (Option.some.inj hc).symm
    · exact absurd hc (by simp)
  intro i c hc _
  rw [hone i c hc]
  refine ⟨fun j d hd _ => ?_, fun j d hd _ _ => ?_⟩
  · rw [hone j d hd]
    exact ClaimRecord.compatible_self _
  · have hmem := (OrdMap.mem_toList_iff _).mpr hd
    have hmem' : (j, d) ∈ (sampleBeside.foldl ClaimsState.step (.start 0)).rows.toList := hmem
    rw [hrows] at hmem'
    rw [(Prod.mk.inj (List.mem_singleton.mp hmem')).2]
    exact sampleClaim_compatible

/-- Another agent claims the file before the release fails. -/
def sampleConflict : List ClaimsStep :=
  sampleRelease ++ [.claim 1 (text "2") (text "a.rs") (text "beta") (text "v") 3600,
    .releaseFailed 0]

/-- **Two agents hold a claim on the same file**: a release fails after another agent has claimed
what was released. -/
theorem exclusive_fails : ∃ (clock : ℤ) (steps : List ClaimsStep),
    Run.Along ClaimsState.step (fun s a => a.Valid s) (.start clock) steps ∧
      ¬ Run.Throughout ClaimsState.step ClaimsState.Exclusive (.start clock) steps := by
  have hvalid : Run.Along ClaimsState.step (fun s a => a.Valid s) (.start 0) sampleConflict :=
    ⟨le_rfl, trivial, show (sampleRelease.foldl ClaimsState.step (.start 0)).clock ≤ 1 by
      decide, trivial, trivial⟩
  refine ⟨0, sampleConflict, hvalid, fun h => ?_⟩
  have hfirst : (sampleConflict.foldl ClaimsState.step (.start 0)).rows.get? (text "1") =
      some sampleClaim := by
    decide
  have hsecond : (sampleConflict.foldl ClaimsState.step (.start 0)).rows.get? (text "2") =
      some ⟨text "2", text "a.rs", text "beta", text "v", 1, 3601⟩ := by
    decide
  have hclock : (sampleConflict.foldl ClaimsState.step (.start 0)).clock = 1 := by
    decide
  rcases h.last _ _ _ _ hfirst hsecond (by rw [hclock]; decide) (by rw [hclock]; decide) with
    hsame | hdisjoint
  · exact absurd hsame (by decide)
  · exact hdisjoint ⟨text "a.rs", by decide, by decide⟩

end Furrow
