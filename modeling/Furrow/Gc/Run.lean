import Furrow.Gc.Collect
import Furrow.Lib.Run

set_option relaxedAutoImplicit false
set_option autoImplicit false

/-!
# Runs of a store with collections

Snapshots are published, pinned and unpinned, and collections run at times that do not decrease.
Every collection plans the retention anew from the whole log, in which the records of thinned
snapshots stay.  A record that lost its bucket was swept; nothing brings its objects back.  It
loses its bucket again as long as the record that was kept in its place is in the same bucket.
A cut-off between two tiers can fall between the two, and then the lost record is alone in a
bucket, is planned to be retained, and the traversal misses its objects.

## Main definitions

* `Furrow.GcState`, `Furrow.GcStep`, `Furrow.GcState.step` — the runs.
* `Furrow.GcStep.Valid` — what a step is in the first place.
* `Furrow.GcStep.Safe` — the steps that take no keeper away from a lost record.

## Main results

* `Furrow.GcSound.step` — the invariant.
* `Furrow.collect_completes` — no collection of a safe run misses an object.
-/

namespace Furrow

/-- A store and the time of its last collection. -/
structure GcState where
  tables : StoreTables
  clock : ℤ

/-- What happens to a store. -/
inductive GcStep
  | publish (workspaceId : Bytes) (new : List (ObjectId × Object)) (id : ObjectId) (sealedAt : ℤ)
  | pin (workspaceId : Bytes) (fuel : ℕ) (id : ObjectId)
  | unpin (workspaceId : Bytes) (id : ObjectId)
  | collect (dryRun : Bool) (now : ℤ)

/-- One step. -/
def GcState.step (s : GcState) : GcStep → GcState
  | .publish workspaceId new id sealedAt =>
    { s with tables := publishSnapshot workspaceId new id sealedAt s.tables }
  | .pin workspaceId fuel id => { s with tables := Furrow.pin workspaceId fuel id s.tables }
  | .unpin workspaceId id => { s with tables := Furrow.unpin workspaceId id s.tables }
  | .collect dryRun now => ⟨(Furrow.collect dryRun now s.tables).2, now⟩

/-- A store that was just made, at a time. -/
def GcState.start (clock : ℤ) : GcState := ⟨.empty, clock⟩

/-- The steps a run is made of: a published snapshot is complete, with objects of the kinds that
their identifiers stand for, and the time of a collection is not before the last one. -/
def GcStep.Valid (kindOf : ObjectId → ObjectKind) (s : GcState) : GcStep → Prop
  | .publish _ new id _ =>
    (∀ p ∈ new, p.2.kind = kindOf p.1 ∧ ∀ mask, ∀ e ∈ p.2.edges mask, e.tag = kindOf e.node) ∧
      Present (putObjects s.tables.objects new) [⟨id, .Snapshot, allClassMask⟩]
  | .pin _ _ _ => True
  | .unpin _ _ => True
  | .collect _ now => s.clock ≤ now

/-- **A collection misses no object**: it succeeds, and all that its traversal reaches, with the
masks it is reached with, is in the store. -/
def GcStep.Completes (s : GcState) : GcStep → Prop
  | .collect dryRun now =>
    (∃ report, (Furrow.collect dryRun now s.tables).1 = .ok report) ∧
      ∀ id kind mask, GcReaches s.tables.objects (s.tables.roots dryRun now) id kind mask →
        ∃ o, s.tables.objects.get? id = some o ∧ o.kind = kind
  | _ => True

/-- A record whose objects the store does not all have any more, up to the bytes of the classes
that its age keeps. -/
def Lost (objects : OrdMap ObjectId Object) (now : ℤ) (r : RefRecord) : Prop :=
  ¬ Present objects [r.root (byteMask now r.sealedAt false)]

/-- The sequences that are pinned. -/
def Workspace.pinned (w : Workspace) : List ℕ := w.retention.pins.map Pin.sequence

/-- **The steps that take no keeper away from a lost record.**  A pin is of a snapshot that is
complete, and does not take the last keeper of a lost record out of its bucket.  A collection is
not at a time at which a cut-off between two tiers separates a lost record from all that were
kept in its place. -/
def GcStep.Safe (s : GcState) : GcStep → Prop
  | .publish _ _ _ _ => True
  | .pin workspaceId fuel id =>
    let w := s.tables.workspace workspaceId
    isExact s.tables.objects.get? fuel id = true → w.retention.isPinned id = false →
      ∀ r, findRecord w.records id = some r →
        Present s.tables.objects [r.root allClassMask] ∧
          ∀ a ∈ w.records, Lost s.tables.objects s.clock a →
            (∃ b, Keeps s.clock w.pinned w.records a b) →
              ∃ b, Keeps s.clock w.pinned w.records a b ∧ b.sequence ≠ r.sequence
  | .unpin _ _ => True
  | .collect _ now =>
    ∀ workspaceId w, s.tables.workspaces.get? workspaceId = some w →
      ∀ a ∈ w.records, Lost s.tables.objects now a →
        (∃ b, Keeps s.clock w.pinned w.records a b) →
          ∃ b, Keeps s.clock w.pinned w.records a b ∧ ¬ Separated now a b

/-! ## Keepers -/

/-- A record with a keeper is not recent. -/
theorem Keeps.recent_eq_false {clock : ℤ} {pinned : List ℕ} {records : List RefRecord}
    {a b : RefRecord} (h : Keeps clock pinned records a b) : a.recent clock = false := by
  obtain ⟨-, ⟨hb, -⟩, -, hnewer⟩ := h
  rw [Bool.eq_false_iff, ne_eq, RefRecord.recent_iff] at hb ⊢
  unfold RefRecord.Newer at hnewer
  omega

/-- A record that is not recent does not become so. -/
theorem RefRecord.recent_eq_false_of_le {r : RefRecord} {clock now : ℤ} (hle : clock ≤ now)
    (h : r.recent clock = false) : r.recent now = false := by
  rw [Bool.eq_false_iff, ne_eq, RefRecord.recent_iff] at h ⊢
  omega

/-- A keeper stays one, unless a cut-off separates it from the record. -/
theorem Keeps.advance {clock now : ℤ} {pinned : List ℕ} {records : List RefRecord}
    {a b : RefRecord} (hle : clock ≤ now) (h : Keeps clock pinned records a b)
    (hsep : ¬ Separated now a b) : Keeps now pinned records a b := by
  obtain ⟨hmem, ⟨hrecent, hpin⟩, hkey, hnewer⟩ := h
  have hab : a.sealedAt ≤ b.sealedAt := by
    unfold RefRecord.Newer at hnewer
    omega
  exact ⟨hmem, ⟨RefRecord.recent_eq_false_of_le hle hrecent, hpin⟩,
    bucketKey_eq_of_not_separated hle hab hkey hsep, hnewer⟩

/-- A keeper stays one when the log grows and other records are pinned. -/
theorem Keeps.change {clock : ℤ} {pinned pinned' : List ℕ} {records records' : List RefRecord}
    {a b : RefRecord} (h : Keeps clock pinned records a b)
    (hrecords : ∀ r ∈ records, r ∈ records') (hpinned : b.sequence ∉ pinned') :
    Keeps clock pinned' records' a b :=
  ⟨hrecords b h.1, ⟨h.2.1.1, hpinned⟩, h.2.2⟩

/-! ## The invariant -/

/-- What holds of a workspace between steps: the last record and the pinned ones are complete,
and every other is as complete as its age asks for, or has a keeper. -/
structure WorkspaceSound (kindOf : ObjectId → ObjectKind) (objects : OrdMap ObjectId Object)
    (clock : ℤ) (w : Workspace) : Prop where
  ordered : OrderedLog w.records
  snapshots : ∀ r ∈ w.records, kindOf r.snapshotId = .Snapshot
  noIntent : w.intent = none
  noIncoming : w.incoming = none
  pins : ∀ pin ∈ w.retention.pins, ∃ r ∈ w.records,
    r.sequence = pin.sequence ∧ r.snapshotId = pin.snapshotId
  exact : ∀ r ∈ w.records,
    r.sequence = lastSequence w.records ∨ pinnedId w.retention.pins r.snapshotId →
      Present objects [r.root allClassMask]
  kept : ∀ r ∈ w.records, Lost objects clock r → ∃ b, Keeps clock w.pinned w.records r b

/-- The invariant of a run. -/
structure GcSound (kindOf : ObjectId → ObjectKind) (s : GcState) : Prop where
  kinded : WellKinded kindOf s.tables.objects
  workspaces : ∀ id w, s.tables.workspaces.get? id = some w →
    WorkspaceSound kindOf s.tables.objects s.clock w

/-- A workspace that was just made. -/
theorem WorkspaceSound.empty (kindOf : ObjectId → ObjectKind) (objects : OrdMap ObjectId Object)
    (clock : ℤ) : WorkspaceSound kindOf objects clock .empty where
  ordered := ⟨List.Pairwise.nil, fun _ h => absurd h List.not_mem_nil⟩
  snapshots := fun _ h => absurd h List.not_mem_nil
  noIntent := rfl
  noIncoming := rfl
  pins := fun _ h => absurd h List.not_mem_nil
  exact := fun _ h => absurd h List.not_mem_nil
  kept := fun _ h => absurd h List.not_mem_nil

/-- A sound state is sound for every workspace. -/
theorem GcSound.workspace {kindOf : ObjectId → ObjectKind} {s : GcState} (h : GcSound kindOf s)
    (id : Bytes) : WorkspaceSound kindOf s.tables.objects s.clock (s.tables.workspace id) := by
  unfold StoreTables.workspace
  cases hw : s.tables.workspaces.get? id with
  | none => exact WorkspaceSound.empty kindOf _ _
  | some w => exact h.workspaces id w hw

/-- A run starts with the invariant. -/
theorem gcSound_start (kindOf : ObjectId → ObjectKind) (clock : ℤ) :
    GcSound kindOf (.start clock) where
  kinded := ⟨fun _ _ h => absurd h (by simp [GcState.start, StoreTables.empty]),
    fun _ _ h => absurd h (by simp [GcState.start, StoreTables.empty])⟩
  workspaces := fun _ _ h => absurd h (by simp [GcState.start, StoreTables.empty])

/-- A store with some of the objects is well-kinded. -/
theorem WellKinded.of_sub {kindOf : ObjectId → ObjectKind}
    {objects objects' : OrdMap ObjectId Object} (h : WellKinded kindOf objects)
    (hsub : ∀ id o, objects'.get? id = some o → objects.get? id = some o) :
    WellKinded kindOf objects' :=
  ⟨fun id o ho => h.kind id o (hsub id o ho), fun id o ho => h.edge id o (hsub id o ho)⟩

/-- A lost record stays lost with fewer objects. -/
theorem Lost.of_grow {objects objects' : OrdMap ObjectId Object} {now : ℤ} {r : RefRecord}
    (hold : ∀ id o, objects.get? id = some o → objects'.get? id = some o)
    (h : Lost objects' now r) : Lost objects now r :=
  fun hpresent => h (hpresent.grow hold)

/-- A record that is lost at a time was lost before. -/
theorem Lost.of_le {kindOf : ObjectId → ObjectKind} {objects : OrdMap ObjectId Object}
    (hkinded : WellKinded kindOf objects) {clock now : ℤ} (hle : clock ≤ now) {r : RefRecord}
    (h : Lost objects now r) : Lost objects clock r :=
  fun hpresent => h (hpresent.mask_mono hkinded (byteMask_antitone hle))

/-- A complete record is not lost. -/
theorem not_lost_of_present {kindOf : ObjectId → ObjectKind} {objects : OrdMap ObjectId Object}
    (hkinded : WellKinded kindOf objects) {now : ℤ} {r : RefRecord}
    (h : Present objects [r.root allClassMask]) : ¬ Lost objects now r :=
  fun hlost => hlost (h.mask_mono hkinded (byteMask_subset _ _ _))

/-- The invariant of a workspace stays when objects are put. -/
theorem WorkspaceSound.grow {kindOf : ObjectId → ObjectKind}
    {objects objects' : OrdMap ObjectId Object} {clock : ℤ} {w : Workspace}
    (h : WorkspaceSound kindOf objects clock w)
    (hold : ∀ id o, objects.get? id = some o → objects'.get? id = some o) :
    WorkspaceSound kindOf objects' clock w :=
  { h with
    exact := fun r hr hexact => (h.exact r hr hexact).grow hold
    kept := fun r hr hlost => h.kept r hr (hlost.of_grow hold) }

/-- The invariant of a run after one workspace has changed. -/
theorem GcSound.update {kindOf : ObjectId → ObjectKind} {s : GcState} (h : GcSound kindOf s)
    {objects : OrdMap ObjectId Object} (hkinded : WellKinded kindOf objects)
    (hold : ∀ id o, s.tables.objects.get? id = some o → objects.get? id = some o)
    {workspaceId : Bytes} {w : Workspace} (hw : WorkspaceSound kindOf objects s.clock w) :
    GcSound kindOf { s with tables := { s.tables with
      objects := objects, workspaces := s.tables.workspaces.insert workspaceId w } } := by
  refine ⟨hkinded, fun id w' hw' => ?_⟩
  dsimp only at hw'
  rw [OrdMap.get?_insert] at hw'
  split_ifs at hw' with hid
  · rw [← Option.some.inj hw']
    exact hw
  · exact (h.workspaces id w' hw').grow hold

/-! ## Steps between collections -/

/-- Objects of the right kinds leave the store well-kinded. -/
theorem WellKinded.putObjects {kindOf : ObjectId → ObjectKind} {objects : OrdMap ObjectId Object}
    (h : WellKinded kindOf objects) {new : List (ObjectId × Object)}
    (hnew : ∀ p ∈ new, p.2.kind = kindOf p.1 ∧
      ∀ mask, ∀ e ∈ p.2.edges mask, e.tag = kindOf e.node) :
    WellKinded kindOf (putObjects objects new) := by
  refine ⟨fun id o ho => ?_, fun id o ho => ?_⟩
  · rcases mem_of_get?_putObjects ho with ho | ho
    · exact h.kind id o ho
    · exact (hnew _ ho).1
  · rcases mem_of_get?_putObjects ho with ho | ho
    · exact h.edge id o ho
    · exact (hnew _ ho).2

/-- A published snapshot is the last record of its log or was it before. -/
theorem mem_appendOrdered {records : List RefRecord} {id : ObjectId} {sealedAt : ℤ}
    {r : RefRecord} (hr : r ∈ appendOrdered records id sealedAt) :
    r ∈ records ∨ r.snapshotId = id := by
  unfold appendOrdered at hr
  split at hr
  · rw [List.mem_singleton.mp hr]
    exact Or.inr rfl
  · split_ifs at hr with hsame
    · exact Or.inl hr
    · rcases List.mem_append.mp hr with hr | hr
      · exact Or.inl hr
      · rw [List.mem_singleton.mp hr]
        exact Or.inr rfl

/-- Records stay in a log. -/
theorem mem_appendOrdered_of_mem {records : List RefRecord} {id : ObjectId} {sealedAt : ℤ}
    {r : RefRecord} (hr : r ∈ records) : r ∈ appendOrdered records id sealedAt := by
  unfold appendOrdered
  split
  · rename_i hlast
    rw [List.getLast?_eq_none_iff.mp hlast] at hr
    exact absurd hr List.not_mem_nil
  · split_ifs with hsame
    · exact hr
    · exact List.mem_append_left _ hr

/-- The last record of a log names the snapshot that was published. -/
theorem snapshotId_of_last {records : List RefRecord} (hordered : OrderedLog records)
    {id : ObjectId} {sealedAt : ℤ} {r : RefRecord} (hr : r ∈ appendOrdered records id sealedAt)
    (hlast : r.sequence = lastSequence (appendOrdered records id sealedAt)) :
    r.snapshotId = id := by
  have hordered' := hordered.appendOrdered id sealedAt
  obtain ⟨last, hmem, hid, hseq⟩ : ∃ last ∈ appendOrdered records id sealedAt,
      last.snapshotId = id ∧ last.sequence = lastSequence (appendOrdered records id sealedAt) := by
    unfold lastSequence appendOrdered
    split
    · exact ⟨_, List.mem_singleton_self _, rfl, rfl⟩
    · rename_i last hget
      split_ifs with hsame
      · exact ⟨last, List.mem_of_getLast? hget, hsame, by rw [hget]; rfl⟩
      · exact ⟨_, List.mem_append_right _ (List.mem_singleton_self _), rfl, by simp⟩
  rw [hordered'.eq_of_sequence hr hmem (hlast.trans hseq.symm), hid]

/-- **A published snapshot keeps the invariant.** -/
theorem GcSound.publish {kindOf : ObjectId → ObjectKind} {s : GcState} (h : GcSound kindOf s)
    {workspaceId : Bytes} {new : List (ObjectId × Object)} {id : ObjectId} {sealedAt : ℤ}
    (hvalid : (GcStep.publish workspaceId new id sealedAt).Valid kindOf s) :
    GcSound kindOf (s.step (.publish workspaceId new id sealedAt)) := by
  obtain ⟨hnew, hpresent⟩ := hvalid
  have hkinded := h.kinded.putObjects hnew
  have hold : ∀ i o, s.tables.objects.get? i = some o →
      (putObjects s.tables.objects new).get? i = some o :=
    fun i o ho => get?_putObjects_of_some new ho
  have hw := (h.workspace workspaceId).grow hold
  refine h.update hkinded hold ⟨hw.ordered.appendOrdered id sealedAt, fun r hr => ?_, hw.noIntent,
    hw.noIncoming, fun p hp => ?_, fun r hr hexact => ?_, fun r hr hlost => ?_⟩
  · rcases mem_appendOrdered hr with hr | hr
    · exact hw.snapshots r hr
    · rw [hr]
      exact hpresent.kindOf_eq hkinded
  · obtain ⟨r, hr, hrest⟩ := hw.pins p hp
    exact ⟨r, mem_appendOrdered_of_mem hr, hrest⟩
  · rcases hexact with hlast | hpinned
    · unfold RefRecord.root
      rw [snapshotId_of_last hw.ordered hr hlast]
      exact hpresent
    · rcases mem_appendOrdered hr with hr | hr
      · exact hw.exact r hr (Or.inr hpinned)
      · unfold RefRecord.root
        rw [hr]
        exact hpresent
  · rcases mem_appendOrdered hr with hr | hr
    · obtain ⟨b, hb⟩ := hw.kept r hr hlost
      exact ⟨b, hb.change (fun r hr => mem_appendOrdered_of_mem hr) hb.2.1.2⟩
    · refine absurd hlost (not_lost_of_present hkinded ?_)
      unfold RefRecord.root
      rw [hr]
      exact hpresent

/-- The record that is pinned is the last of its snapshot in the log. -/
theorem findRecord_spec {records : List RefRecord} {id : ObjectId} {r : RefRecord}
    (h : findRecord records id = some r) : r ∈ records ∧ r.snapshotId = id := by
  unfold findRecord at h
  refine ⟨List.mem_reverse.mp (List.mem_of_find?_eq_some h), ?_⟩
  simpa using List.find?_some h

/-- **A pin keeps the invariant** if it takes no last keeper away. -/
theorem GcSound.pin {kindOf : ObjectId → ObjectKind} {s : GcState} (h : GcSound kindOf s)
    {workspaceId : Bytes} {fuel : ℕ} {id : ObjectId}
    (hsafe : (GcStep.pin workspaceId fuel id).Safe s) :
    GcSound kindOf (s.step (.pin workspaceId fuel id)) := by
  have hw := h.workspace workspaceId
  simp only [GcState.step, Furrow.pin]
  split_ifs with hexact
  · unfold pinSnapshot
    cases hfind : findRecord (s.tables.workspace workspaceId).records id with
    | none => exact h
    | some r =>
      dsimp only
      obtain ⟨hmem, hid⟩ := findRecord_spec hfind
      split_ifs with hpinned
      · exact h.update h.kinded (fun _ _ ho => ho) hw
      · obtain ⟨hpresent, hkeeper⟩ := hsafe hexact (Bool.eq_false_iff.mpr hpinned) r hfind
        -- the pins are those before and the new one
        have hpins : ∀ p, p ∈ List.insertionSort (fun p q : Pin => p.sequence ≤ q.sequence)
            ((s.tables.workspace workspaceId).retention.pins ++ [⟨r.sequence, id⟩]) ↔
              p ∈ (s.tables.workspace workspaceId).retention.pins ∨ p = ⟨r.sequence, id⟩ := by
          intro p
          rw [(List.perm_insertionSort _ _).mem_iff, List.mem_append, List.mem_singleton]
        refine h.update h.kinded (fun _ _ ho => ho) ⟨hw.ordered, hw.snapshots, hw.noIntent,
          hw.noIncoming, fun p hp => ?_, fun a ha hex => ?_, fun a ha hlost => ?_⟩
        · rcases (hpins p).mp hp with hp | rfl
          · exact hw.pins p hp
          · exact ⟨r, hmem, rfl, hid⟩
        · rcases hex with hlast | ⟨p, hp, hpid⟩
          · exact hw.exact a ha (Or.inl hlast)
          · rcases (hpins p).mp hp with hp | rfl
            · exact hw.exact a ha (Or.inr ⟨p, hp, hpid⟩)
            · have hroot : a.root allClassMask = r.root allClassMask := by
                unfold RefRecord.root
                rw [← hpid, hid]
              rw [hroot]
              exact hpresent
        · obtain ⟨b, hb, hne⟩ := hkeeper a ha hlost (hw.kept a ha hlost)
          refine ⟨b, hb.change (fun _ hr => hr) fun hseq => ?_⟩
          obtain ⟨p, hp, hpseq⟩ := List.mem_map.mp hseq
          rcases (hpins p).mp hp with hp | rfl
          · exact hb.2.1.2 (List.mem_map.mpr ⟨p, hp, hpseq⟩)
          · exact hne hpseq.symm
  · exact h

/-- **An unpinned snapshot keeps the invariant.** -/
theorem GcSound.unpin {kindOf : ObjectId → ObjectKind} {s : GcState} (h : GcSound kindOf s)
    (workspaceId : Bytes) (id : ObjectId) : GcSound kindOf (s.step (.unpin workspaceId id)) := by
  have hw := h.workspace workspaceId
  simp only [GcState.step, Furrow.unpin]
  have hpins : ∀ p ∈ (unpinSnapshot id (s.tables.workspace workspaceId).retention).pins,
      p ∈ (s.tables.workspace workspaceId).retention.pins := by
    intro p hp
    unfold unpinSnapshot at hp
    dsimp only at hp
    split_ifs at hp
    · exact hp
    · exact List.mem_of_mem_filter hp
  refine h.update h.kinded (fun _ _ ho => ho) ⟨hw.ordered, hw.snapshots, hw.noIntent,
    hw.noIncoming, fun p hp => hw.pins p (hpins p hp), fun r hr hex => hw.exact r hr ?_,
    fun r hr hlost => ?_⟩
  · rcases hex with hlast | ⟨p, hp, hpid⟩
    · exact Or.inl hlast
    · exact Or.inr ⟨p, hpins p hp, hpid⟩
  · obtain ⟨b, hb⟩ := hw.kept r hr hlost
    refine ⟨b, hb.change (fun _ hr => hr) fun hseq => ?_⟩
    obtain ⟨p, hp, hpseq⟩ := List.mem_map.mp hseq
    exact hb.2.1.2 (List.mem_map.mpr ⟨p, hpins p hp, hpseq⟩)

/-! ## Collections -/

/-- A lost record is not retained: it was not the last one and is not pinned, and a keeper of it
is in its bucket. -/
theorem WorkspaceSound.not_retains_of_lost {kindOf : ObjectId → ObjectKind}
    {objects : OrdMap ObjectId Object} {clock now : ℤ} {w : Workspace}
    (h : WorkspaceSound kindOf objects clock w) (hkinded : WellKinded kindOf objects)
    {a b : RefRecord} (ha : a ∈ w.records) (hlost : Lost objects now a)
    (hb : Keeps now w.pinned w.records a b) :
    ¬ (planState w.records now w.retention.pins).retains a.sequence a.snapshotId = true := by
  have hincomplete : ¬ (a.sequence = lastSequence w.records ∨
      pinnedId w.retention.pins a.snapshotId) :=
    fun hexact => not_lost_of_present hkinded (h.exact a ha hexact) hlost
  rw [retains_planState_iff h.ordered now w.retention.pins ha]
  rintro (hcompetes | hwins | hlast | hpinned)
  · rcases not_competes_iff.mp hcompetes with hrecent | hseq
    · rw [hb.recent_eq_false] at hrecent
      exact absurd hrecent Bool.false_ne_true
    · obtain ⟨p, hp, hpseq⟩ := List.mem_map.mp hseq
      obtain ⟨r, hr, hrseq, hrid⟩ := h.pins p hp
      have hra : r = a := h.ordered.eq_of_sequence hr ha (hrseq.trans hpseq)
      exact hincomplete (Or.inr ⟨p, hp, hra ▸ hrid.symm⟩)
  · exact hwins.2.2 b hb.1 hb.2.1 hb.2.2.1 hb.2.2.2
  · exact hincomplete (Or.inl hlast)
  · exact hincomplete (Or.inr hpinned)

/-- A safe time leaves every lost record a keeper. -/
theorem WorkspaceSound.kept_at {kindOf : ObjectId → ObjectKind} {objects : OrdMap ObjectId Object}
    {clock now : ℤ} {w : Workspace} (h : WorkspaceSound kindOf objects clock w)
    (hkinded : WellKinded kindOf objects) (hle : clock ≤ now)
    (hsafe : ∀ a ∈ w.records, Lost objects now a → (∃ b, Keeps clock w.pinned w.records a b) →
      ∃ b, Keeps clock w.pinned w.records a b ∧ ¬ Separated now a b)
    {a : RefRecord} (ha : a ∈ w.records) (hlost : Lost objects now a) :
    ∃ b, Keeps now w.pinned w.records a b := by
  obtain ⟨b, hb, hsep⟩ := hsafe a ha hlost (h.kept a ha (hlost.of_le hkinded hle))
  exact ⟨b, hb.advance hle hsep⟩

/-- The root of a record that is neither the last nor pinned keeps what its age keeps. -/
theorem Workspace.rootMask_eq (now : ℤ) (w : Workspace) (dryRun : Bool) (r : RefRecord) :
    (w.rootMask now (w.plan dryRun now) r = allClassMask ∧
        (r.sequence = lastSequence w.records ∨ pinnedId w.retention.pins r.snapshotId)) ∨
      (w.rootMask now (w.plan dryRun now) r = byteMask now r.sealedAt false ∧
        ¬ (r.sequence = lastSequence w.records ∨ pinnedId w.retention.pins r.snapshotId)) := by
  have hpinned : (w.plan dryRun now).isPinned r.snapshotId = true ↔
      pinnedId w.retention.pins r.snapshotId := by
    unfold RetentionState.isPinned pinnedId
    rw [pins_plan]
    simp
  unfold Workspace.rootMask
  by_cases hexact : r.sequence = lastSequence w.records ∨ pinnedId w.retention.pins r.snapshotId
  · refine Or.inl ⟨?_, hexact⟩
    rw [← hpinned] at hexact
    simp [byteMask, hexact]
  · refine Or.inr ⟨?_, hexact⟩
    rw [← hpinned] at hexact
    rw [decide_eq_false hexact]

/-- The roots of a workspace with no other roots than its records. -/
theorem WorkspaceSound.mem_roots_iff {kindOf : ObjectId → ObjectKind}
    {objects : OrdMap ObjectId Object} {clock now : ℤ} {w : Workspace}
    (h : WorkspaceSound kindOf objects clock w) (dryRun : Bool) (e : GcEdge) :
    e ∈ w.roots dryRun now ↔ ∃ r ∈ w.records,
      (planState w.records now w.retention.pins).retains r.sequence r.snapshotId = true ∧
        e = r.root (w.rootMask now (w.plan dryRun now) r) := by
  unfold Workspace.roots Workspace.retainedRecords
  rw [h.noIntent, h.noIncoming]
  simp only [List.append_nil, List.mem_map, List.mem_filter, retains_plan]
  constructor
  · rintro ⟨r, ⟨hr, hretains⟩, rfl⟩
    exact ⟨r, hr, hretains, rfl⟩
  · rintro ⟨r, hr, hretains, rfl⟩
    exact ⟨r, ⟨hr, hretains⟩, rfl⟩

/-- **All roots of a workspace are present** at a safe time. -/
theorem WorkspaceSound.present_root {kindOf : ObjectId → ObjectKind}
    {objects : OrdMap ObjectId Object} {clock now : ℤ} {w : Workspace}
    (h : WorkspaceSound kindOf objects clock w) (hkinded : WellKinded kindOf objects)
    (hkept : ∀ a ∈ w.records, Lost objects now a → ∃ b, Keeps now w.pinned w.records a b)
    {dryRun : Bool} {e : GcEdge} (he : e ∈ w.roots dryRun now) : Present objects [e] := by
  obtain ⟨r, hr, hretains, rfl⟩ := (h.mem_roots_iff dryRun e).mp he
  rcases w.rootMask_eq now dryRun r with ⟨hmask, hexact⟩ | ⟨hmask, -⟩
  · rw [hmask]
    exact h.exact r hr hexact
  · rw [hmask]
    by_contra hlost
    obtain ⟨b, hb⟩ := hkept r hr hlost
    exact h.not_retains_of_lost hkinded hr hlost hb hretains

/-- What a root reaches is kept by a sweep. -/
theorem present_sweep {kindOf : ObjectId → ObjectKind} {objects : OrdMap ObjectId Object}
    (hkinded : WellKinded kindOf objects) {roots : List GcEdge} (hpresent : Present objects roots)
    {marks : GcMarks}
    (hmarks : ∀ id, (marks.get? id).isSome ↔ ∃ kind mask, GcReaches objects roots id kind mask)
    {e : GcEdge} (he : e ∈ roots) :
    Present (objects.filter fun id _ => (marks.get? id).isSome) [e] := by
  have hone : ∀ e' ∈ [e], e' ∈ roots := by
    intro e' he'
    rw [List.mem_singleton.mp he']
    exact he
  refine (hpresent.sub hkinded hone).congr fun id kind mask hr => ?_
  have hroots : ∀ e' ∈ [e], ∃ m, GcReaches objects roots e'.node e'.tag m ∧ e'.mask ≤ m :=
    fun e' he' => ⟨e'.mask, .root (hone e' he'), le_refl _⟩
  obtain ⟨m, hm, -⟩ := Marking.Reaches.mono hkinded.lawful hroots hr
  rw [OrdMap.get?_filter, (hmarks id).mpr ⟨kind, m, hm⟩]
  cases objects.get? id <;> rfl

/-- The invariant of a workspace after a sweep: what was retained is there, and what was not has
a keeper. -/
theorem WorkspaceSound.swept {kindOf : ObjectId → ObjectKind}
    {objects objects' : OrdMap ObjectId Object} {clock now : ℤ} {w : Workspace}
    (h : WorkspaceSound kindOf objects clock w) (hkinded : WellKinded kindOf objects')
    (hroots : ∀ e ∈ w.roots false now, Present objects' [e]) :
    WorkspaceSound kindOf objects' now (w.persist now) := by
  have hpins : (w.persist now).retention.pins = w.retention.pins := pins_plan false now w
  have hpinned : (w.persist now).pinned = w.pinned := by
    unfold Workspace.pinned
    rw [hpins]
  have hroot : ∀ r ∈ w.records,
      (planState w.records now w.retention.pins).retains r.sequence r.snapshotId = true →
        Present objects' [r.root (w.rootMask now (w.plan false now) r)] :=
    fun r hr hretains => hroots _ ((h.mem_roots_iff false _).mpr ⟨r, hr, hretains, rfl⟩)
  refine ⟨h.ordered, h.snapshots, h.noIntent, h.noIncoming, ?_, fun r hr hexact => ?_,
    fun r hr hlost => ?_⟩
  · rw [hpins]
    exact h.pins
  · rw [hpins] at hexact
    have hretains := (retains_planState_iff h.ordered now w.retention.pins hr).mpr
      (Or.inr (Or.inr hexact))
    rcases w.rootMask_eq now false r with ⟨hmask, -⟩ | ⟨-, hnot⟩
    · rw [← hmask]
      exact hroot r hr hretains
    · exact absurd hexact hnot
  · rw [hpinned]
    have hnot : ¬ (planState w.records now w.retention.pins).retains r.sequence
        r.snapshotId = true := by
      intro hretains
      have hpresent := hroot r hr hretains
      rcases w.rootMask_eq now false r with ⟨hmask, -⟩ | ⟨hmask, -⟩
      · rw [hmask] at hpresent
        exact not_lost_of_present hkinded hpresent hlost
      · rw [hmask] at hpresent
        exact hlost hpresent
    rw [retains_planState_iff h.ordered now w.retention.pins hr] at hnot
    simp only [not_or, not_not] at hnot
    exact exists_keeps_of_not_wins hr hnot.1 hnot.2.1

/-- All roots of a store are present at a safe time. -/
theorem GcSound.present_roots {kindOf : ObjectId → ObjectKind} {s : GcState}
    (h : GcSound kindOf s) {dryRun : Bool} {now : ℤ}
    (hvalid : (GcStep.collect dryRun now).Valid kindOf s)
    (hsafe : (GcStep.collect dryRun now).Safe s) :
    Present s.tables.objects (s.tables.roots dryRun now) := by
  refine Marking.readable_of_each h.kinded.lawful (splits_expandObject _) fun e he => ?_
  obtain ⟨⟨id, w⟩, hw, he⟩ := List.mem_flatMap.mp he
  have hget := (OrdMap.mem_toList_iff _).mp hw
  have hsound := h.workspaces id w hget
  exact hsound.present_root h.kinded
    (fun a ha hlost => hsound.kept_at h.kinded hvalid (hsafe id w hget) ha hlost) he

/-- The roots of a store are identifiers of snapshots. -/
theorem GcSound.kindOf_root {kindOf : ObjectId → ObjectKind} {s : GcState} (h : GcSound kindOf s)
    {dryRun : Bool} {now : ℤ} {e : GcEdge} (he : e ∈ s.tables.roots dryRun now) :
    kindOf e.node = .Snapshot := by
  obtain ⟨⟨id, w⟩, hw, he⟩ := List.mem_flatMap.mp he
  have hsound := h.workspaces id w ((OrdMap.mem_toList_iff _).mp hw)
  obtain ⟨r, hr, -, rfl⟩ := (hsound.mem_roots_iff dryRun e).mp he
  exact hsound.snapshots r hr

/-- **A collection at a safe time succeeds and keeps the invariant.** -/
theorem GcSound.collect {kindOf : ObjectId → ObjectKind} {s : GcState} (h : GcSound kindOf s)
    {dryRun : Bool} {now : ℤ} (hvalid : (GcStep.collect dryRun now).Valid kindOf s)
    (hsafe : (GcStep.collect dryRun now).Safe s) :
    (GcStep.collect dryRun now).Completes s ∧ GcSound kindOf (s.step (.collect dryRun now)) := by
  have hpresent := h.present_roots hvalid hsafe
  rcases collect_spec h.kinded (fun e he => h.kindOf_root he) with
    ⟨-, report, marks, hrun, hmarks⟩ | ⟨hmissing, -⟩
  · refine ⟨⟨⟨report, by rw [hrun]⟩, fun id kind mask hr => ?_⟩, ?_⟩
    · obtain ⟨es, hes⟩ := hpresent id kind mask hr
      obtain ⟨o, ho, hkind, -⟩ := expandObject_eq_ok_iff.mp hes
      exact ⟨o, ho, hkind⟩
    · unfold GcState.step
      simp only [hrun]
      cases dryRun with
      | true =>
        -- nothing but the time has changed
        refine ⟨h.kinded, fun id w hw => ?_⟩
        have hsound := h.workspaces id w hw
        exact { hsound with
          kept := fun a ha hlost => hsound.kept_at h.kinded hvalid (hsafe id w hw) ha hlost }
      | false =>
        have hsub : ∀ id o,
            (s.tables.objects.filter fun id _ => (marks.get? id).isSome).get? id = some o →
              s.tables.objects.get? id = some o := by
          intro id o ho
          rw [OrdMap.get?_filter] at ho
          exact (Option.filter_eq_some_iff.mp ho).1
        refine ⟨h.kinded.of_sub hsub, fun id w hw => ?_⟩
        have hw' : (s.tables.workspaces.mapValues (Workspace.persist now)).get? id = some w := hw
        rw [OrdMap.get?_mapValues] at hw'
        obtain ⟨w', hget, rfl⟩ := Option.map_eq_some_iff.mp hw'
        refine (h.workspaces id w' hget).swept (h.kinded.of_sub hsub) fun e he => ?_
        exact present_sweep h.kinded hpresent hmarks
          (List.mem_flatMap.mpr ⟨(id, w'), (OrdMap.mem_toList_iff _).mpr hget, he⟩)
  · exact absurd hpresent hmissing

/-! ## Runs -/

/-- **One step keeps the invariant**, and misses no object. -/
theorem GcSound.step {kindOf : ObjectId → ObjectKind} {s : GcState} (h : GcSound kindOf s)
    {step : GcStep} (hvalid : step.Valid kindOf s) (hsafe : step.Safe s) :
    step.Completes s ∧ GcSound kindOf (s.step step) := by
  cases step with
  | publish workspaceId new id sealedAt => exact ⟨trivial, h.publish hvalid⟩
  | pin workspaceId fuel id => exact ⟨trivial, h.pin hsafe⟩
  | unpin workspaceId id => exact ⟨trivial, h.unpin workspaceId id⟩
  | collect dryRun now => exact h.collect hvalid hsafe

/-- **No collection of a safe run misses an object.** -/
theorem collect_completes (kindOf : ObjectId → ObjectKind) (start : ℤ) (steps : List GcStep)
    (hvalid : Run.Along GcState.step (fun s step => step.Valid kindOf s) (.start start) steps)
    (hsafe : Run.Along GcState.step (fun s step => step.Safe s) (.start start) steps) :
    Run.Along GcState.step (fun s step => step.Completes s) (.start start) steps :=
  Run.Along.imp (fun _ _ h ha => h.step ha.1 ha.2) (gcSound_start kindOf start) (hvalid.and hsafe)

/-! ### A sample -/

/-- A traversal that succeeds has found all that is reached. -/
theorem present_of_traverse {kindOf : ObjectId → ObjectKind} {objects : OrdMap ObjectId Object}
    (hkinded : WellKinded kindOf objects) {id : ObjectId} (hid : kindOf id = .Snapshot)
    {mask : Mask} (h : (traverse objects [⟨id, .Snapshot, mask⟩]).toOption.isSome = true) :
    Present objects [⟨id, .Snapshot, mask⟩] := by
  have hroots : ∀ e ∈ [(⟨id, .Snapshot, mask⟩ : GcEdge)], e.tag = kindOf e.node := by
    intro e he
    rw [List.mem_singleton.mp he]
    exact hid.symm
  rcases traverse_spec hkinded hroots with ⟨_, -, hpresent, -⟩ | ⟨⟨e, hrun⟩, -⟩
  · exact hpresent
  · rw [hrun] at h
    exact absurd h Bool.false_ne_true

/-- The kinds of the identifiers of the sample. -/
def sampleKindOf (id : ObjectId) : ObjectKind := if id = .fill 1 then .Tree else .Snapshot

/-- A snapshot of an empty directory. -/
def sampleSnapshot (sealedAt : ℤ) : Object :=
  .snapshot ⟨.fill 1, none, [], sealedAt, [], [], []⟩

/-- Publish a snapshot of an empty directory. -/
def samplePublish (b : Byte) (sealedAt : ℤ) : GcStep :=
  .publish (text "w") [(.fill 1, .tree ⟨[], []⟩), (.fill b, sampleSnapshot sealedAt)] (.fill b)
    sealedAt

/-- Two snapshots within an hour, and one a day later. -/
def sampleSteps : List GcStep :=
  [samplePublish 2 3600000, samplePublish 3 3600010, samplePublish 4 (3600000 + daySecs)]

/-- A published sample is valid, in a store that is well-kinded and in which it is complete. -/
theorem valid_samplePublish {s : GcState} (hkinded : WellKinded sampleKindOf s.tables.objects)
    (b : Byte) (sealedAt : ℤ) (hb : sampleKindOf (.fill b) = .Snapshot)
    (h : (traverse (s.step (samplePublish b sealedAt)).tables.objects
      [⟨.fill b, .Snapshot, allClassMask⟩]).toOption.isSome = true) :
    (samplePublish b sealedAt).Valid sampleKindOf s ∧
      WellKinded sampleKindOf (s.step (samplePublish b sealedAt)).tables.objects := by
  have hnew : ∀ p ∈ [(ObjectId.fill 1, Object.tree ⟨[], []⟩), (.fill b, sampleSnapshot sealedAt)],
      p.2.kind = sampleKindOf p.1 ∧ ∀ mask, ∀ e ∈ p.2.edges mask, e.tag = sampleKindOf e.node := by
    intro p hp
    rcases List.mem_cons.mp hp with rfl | hp
    · exact ⟨rfl, fun mask e he => absurd he (by simp [Object.edges])⟩
    · rw [List.mem_singleton.mp hp]
      refine ⟨hb.symm, fun mask e he => ?_⟩
      rw [List.mem_singleton.mp he]
      rfl
  have hkinded' := hkinded.putObjects hnew
  exact ⟨⟨hnew, present_of_traverse hkinded' hb h⟩, hkinded'⟩

/-- The sample with two collections after it is valid. -/
theorem valid_sampleSteps (first second : ℤ) (hfirst : 0 ≤ first) (hle : first ≤ second) :
    Run.Along GcState.step (fun s step => step.Valid sampleKindOf s) (.start 0)
      (sampleSteps ++ [.collect false first, .collect false second]) := by
  obtain ⟨h₁, k₁⟩ := valid_samplePublish (gcSound_start sampleKindOf 0).kinded 2 3600000
    (by decide) (by decide)
  obtain ⟨h₂, k₂⟩ := valid_samplePublish k₁ 3 3600010 (by decide) (by decide)
  obtain ⟨h₃, -⟩ := valid_samplePublish k₂ 4 (3600000 + daySecs) (by decide) (by decide)
  exact ⟨h₁, h₂, h₃, hfirst, hle, trivial⟩

/-- The state of the sample after a collection two days later. -/
def sampleState : GcState :=
  (sampleSteps.foldl GcState.step (.start 0)).step (.collect false (3600000 + 2 * daySecs))

/-- The log of the sample. -/
def sampleRecords : List RefRecord :=
  [⟨1, .fill 2, 3600000⟩, ⟨2, .fill 3, 3600010⟩, ⟨3, .fill 4, 3600000 + daySecs⟩]

/-- A store with one workspace. -/
theorem records_of_workspaces {t : StoreTables} {records : List RefRecord}
    (hall : t.workspaces.toList.map (fun p => (p.2.records, p.2.pinned)) = [(records, [])])
    {id : Bytes} {w : Workspace} (h : t.workspaces.get? id = some w) :
    w.records = records ∧ w.pinned = [] := by
  have hmem := List.mem_map_of_mem (f := fun p : Bytes × Workspace => (p.2.records, p.2.pinned))
    ((OrdMap.mem_toList_iff _).mpr h)
  rw [hall, List.mem_singleton, Prod.mk.injEq] at hmem
  exact hmem

/-- Steps that are safe: a second collection when both snapshots of the hour are in the tier of
days. -/
theorem safe_sampleSteps : Run.Along GcState.step (fun s step => step.Safe s) (.start 0)
    (sampleSteps ++ [.collect false (3600000 + 2 * daySecs),
      .collect false (3600000 + 8 * daySecs)]) := by
  refine ⟨trivial, trivial, trivial, fun id w hw a ha hlost hkeeper => ?_,
    fun id w hw a ha hlost hkeeper => ?_, trivial⟩
  · -- nothing competes at the start
    have hall : ((sampleSteps.foldl GcState.step (.start 0)).tables.workspaces.toList.map
        fun p => (p.2.records, p.2.pinned)) = [(sampleRecords, [])] := by decide
    obtain ⟨hrecords, -⟩ := records_of_workspaces hall hw
    obtain ⟨b, hb, ⟨hrecent, -⟩, -⟩ := hkeeper
    rw [hrecords] at hb
    simp only [sampleRecords, List.mem_cons, List.not_mem_nil, or_false] at hb
    rcases hb with rfl | rfl | rfl <;> exact absurd hrecent (by decide)
  · -- the second snapshot of the hour is still the keeper of the first
    have hall : (sampleState.tables.workspaces.toList.map
        fun p => (p.2.records, p.2.pinned)) = [(sampleRecords, [])] := by decide
    obtain ⟨hrecords, hpinned⟩ := records_of_workspaces hall hw
    rw [hrecords] at ha hkeeper ⊢
    rw [hpinned] at hkeeper ⊢
    simp only [sampleRecords, List.mem_cons, List.not_mem_nil, or_false] at ha
    rcases ha with rfl | rfl | rfl
    · refine ⟨⟨2, .fill 3, 3600010⟩, ?_, by decide⟩
      show Keeps (3600000 + 2 * daySecs) [] sampleRecords _ _
      decide
    · refine absurd hkeeper ?_
      show ¬ ∃ b, Keeps (3600000 + 2 * daySecs) [] sampleRecords _ b
      rintro ⟨b, hb⟩
      have hmem := hb.1
      simp only [sampleRecords, List.mem_cons, List.not_mem_nil, or_false] at hmem
      revert hb
      rcases hmem with rfl | rfl | rfl <;> decide
    · refine absurd hkeeper ?_
      show ¬ ∃ b, Keeps (3600000 + 2 * daySecs) [] sampleRecords _ b
      rintro ⟨b, hb⟩
      have hmem := hb.1
      simp only [sampleRecords, List.mem_cons, List.not_mem_nil, or_false] at hmem
      revert hb
      rcases hmem with rfl | rfl | rfl <;> decide

/-- A run in which a snapshot is swept and loses its bucket again. -/
theorem collect_completes_sample :
    Run.Along GcState.step (fun s step => step.Valid sampleKindOf s) (.start 0)
        (sampleSteps ++ [.collect false (3600000 + 2 * daySecs),
          .collect false (3600000 + 8 * daySecs)]) ∧
      Run.Along GcState.step (fun s step => step.Safe s) (.start 0)
        (sampleSteps ++ [.collect false (3600000 + 2 * daySecs),
          .collect false (3600000 + 8 * daySecs)]) ∧
      Run.Along GcState.step (fun s step => step.Completes s) (.start 0)
        (sampleSteps ++ [.collect false (3600000 + 2 * daySecs),
          .collect false (3600000 + 8 * daySecs)]) := by
  have hvalid := valid_sampleSteps (3600000 + 2 * daySecs) (3600000 + 8 * daySecs) (by decide)
    (by decide)
  exact ⟨hvalid, safe_sampleSteps, collect_completes sampleKindOf 0 _ hvalid safe_sampleSteps⟩

/-- **A swept snapshot is retained again.**  Two snapshots of one hour compete, and the older one
is swept.  Seven days after the older one it is in the tier of days, and the other is not yet. -/
theorem collect_misses_swept :
    ∃ (kindOf : ObjectId → ObjectKind) (start : ℤ) (steps : List GcStep),
      Run.Along GcState.step (fun s step => step.Valid kindOf s) (.start start) steps ∧
        ¬ Run.Along GcState.step (fun s step => step.Completes s) (.start start) steps := by
  refine ⟨sampleKindOf, 0, _, valid_sampleSteps (3600000 + 2 * daySecs)
    (3600000 + 7 * daySecs + 5) (by decide) (by decide), fun h => ?_⟩
  obtain ⟨-, -, -, -, ⟨⟨report, hok⟩, -⟩, -⟩ := h
  have hfails : (collect false (3600000 + 7 * daySecs + 5) sampleState.tables).1.toOption =
      none := by
    decide +kernel
  have hok' : (collect false (3600000 + 7 * daySecs + 5) sampleState.tables).1 = .ok report := hok
  rw [hok'] at hfails
  exact absurd hfails (by simp [Except.toOption])

end Furrow
