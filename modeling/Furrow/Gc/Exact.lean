import Furrow.Gc.Run
import Furrow.Pack.Record

set_option relaxedAutoImplicit false
set_option autoImplicit false

/-!
# What a collection keeps

A collection keeps exactly the least set of objects that contains its roots and is closed under
the edges of the traversal, each handing its mask on.  The roots are the retained records with
the classes of their age, and with all classes the last record of every workspace, the pinned
ones, and the snapshots of a restore or a transfer that is not finished.

## Main definitions

* `Furrow.IsRoot`, `Furrow.Kept` — the roots, and the least set that contains them.
* `Furrow.GcSizes`, `Furrow.collectSizes` — the sizes in bytes that a collection reports.
* `Furrow.AnyOrder` — what holds of a traversal whatever the order of its visits.

## Main results

* `Furrow.collect_exact` — a collection keeps exactly that set, whatever the order, and a dry run
  reports the same.
-/

namespace Furrow

/-! ## The roots -/

/-- The roots of a collection. -/
inductive IsRoot (t : StoreTables) (now : ℤ) : GcEdge → Prop
  | retained {id : Bytes} {w : Workspace} {r : RefRecord} (hw : t.workspaces.get? id = some w)
      (hr : r ∈ w.records)
      (hretains : (planState w.records now w.retention.pins).retains r.sequence r.snapshotId) :
      IsRoot t now (r.root (byteMask now r.sealedAt false))
  | head {id : Bytes} {w : Workspace} {r : RefRecord} (hw : t.workspaces.get? id = some w)
      (hr : w.records.getLast? = some r) : IsRoot t now (r.root allClassMask)
  | pinned {id : Bytes} {w : Workspace} {r : RefRecord} (hw : t.workspaces.get? id = some w)
      (hr : r ∈ w.records) (hpin : pinnedId w.retention.pins r.snapshotId) :
      IsRoot t now (r.root allClassMask)
  | restoring {id : Bytes} {w : Workspace} {pre target snapshot : ObjectId}
      (hw : t.workspaces.get? id = some w) (hintent : w.intent = some (pre, target))
      (hs : snapshot = pre ∨ snapshot = target) : IsRoot t now ⟨snapshot, .Snapshot, allClassMask⟩
  | incoming {id : Bytes} {w : Workspace} {snapshot : ObjectId}
      (hw : t.workspaces.get? id = some w) (hincoming : w.incoming = some snapshot) :
      IsRoot t now ⟨snapshot, .Snapshot, allClassMask⟩

/-- The least set that contains the roots and is closed under the edges. -/
inductive Kept (t : StoreTables) (now : ℤ) : ObjectId → ObjectKind → Mask → Prop
  | root {e : GcEdge} (he : IsRoot t now e) : Kept t now e.node e.tag e.mask
  | edge {id : ObjectId} {kind : ObjectKind} {mask : Mask} {o : Object} {e : GcEdge}
      (h : Kept t now id kind mask) (ho : t.objects.get? id = some o) (hkind : o.kind = kind)
      (he : e ∈ o.edges mask) : Kept t now e.node e.tag e.mask

/-- Two records of an ordered log with the last sequence are the last one. -/
theorem OrderedLog.getLast?_eq {records : List RefRecord} (h : OrderedLog records)
    {r : RefRecord} (hr : r ∈ records) (hlast : r.sequence = lastSequence records) :
    records.getLast? = some r := by
  cases hget : records.getLast? with
  | none =>
    rw [List.getLast?_eq_none_iff.mp hget] at hr
    exact absurd hr List.not_mem_nil
  | some r' =>
    unfold lastSequence at hlast
    rw [hget] at hlast
    rw [h.eq_of_sequence hr (List.mem_of_getLast? hget) hlast]

/-- What a collection takes as a root is one. -/
theorem isRoot_of_mem_roots {t : StoreTables} {now : ℤ} {dryRun : Bool}
    (hordered : ∀ id w, t.workspaces.get? id = some w → OrderedLog w.records) {e : GcEdge}
    (he : e ∈ t.roots dryRun now) : IsRoot t now e := by
  obtain ⟨⟨id, w⟩, hw, he⟩ := List.mem_flatMap.mp he
  rw [OrdMap.mem_toList_iff] at hw
  unfold Workspace.roots at he
  rcases List.mem_append.mp he with he | he
  · rcases List.mem_append.mp he with he | he
    · obtain ⟨r, hr, rfl⟩ := List.mem_map.mp he
      obtain ⟨hr, hretains⟩ := List.mem_filter.mp hr
      rw [retains_plan] at hretains
      rcases w.rootMask_eq now dryRun r with ⟨hmask, hexact⟩ | ⟨hmask, -⟩
      · rw [hmask]
        rcases hexact with hlast | hpin
        · exact .head hw ((hordered id w hw).getLast?_eq hr hlast)
        · exact .pinned hw hr hpin
      · rw [hmask]
        exact .retained hw hr hretains
    · split at he
      · rename_i pre target hintent
        rcases List.mem_cons.mp he with rfl | he
        · exact .restoring hw hintent (Or.inl rfl)
        · rw [List.mem_singleton.mp he]
          exact .restoring hw hintent (Or.inr rfl)
      · exact absurd he List.not_mem_nil
  · split at he
    · rename_i snapshot hincoming
      rw [List.mem_singleton.mp he]
      exact .incoming hw hincoming
    · exact absurd he List.not_mem_nil

/-- The root of a retained record, with at least the classes of its age. -/
theorem exists_root_of_retained {t : StoreTables} {now : ℤ} (dryRun : Bool) {id : Bytes}
    {w : Workspace} (hw : t.workspaces.get? id = some w) {r : RefRecord} (hr : r ∈ w.records)
    (hretains : (planState w.records now w.retention.pins).retains r.sequence r.snapshotId) :
    r.root (w.rootMask now (w.plan dryRun now) r) ∈ t.roots dryRun now := by
  refine List.mem_flatMap.mpr ⟨(id, w), (OrdMap.mem_toList_iff _).mpr hw, ?_⟩
  refine List.mem_append_left _ (List.mem_append_left _ (List.mem_map.mpr ⟨r, ?_, rfl⟩))
  rw [Workspace.retainedRecords, List.mem_filter, retains_plan]
  exact ⟨hr, hretains⟩

/-- **Every root is taken as one**, with at least its mask: the last record and the pinned ones
are always retained. -/
theorem exists_mem_roots_of_isRoot {t : StoreTables} {now : ℤ} (dryRun : Bool)
    (hordered : ∀ id w, t.workspaces.get? id = some w → OrderedLog w.records) {e : GcEdge}
    (he : IsRoot t now e) :
    ∃ e' ∈ t.roots dryRun now, e'.node = e.node ∧ e'.tag = e.tag ∧ e.mask ⊆ e'.mask := by
  -- an exact record is retained, and its root has all classes
  have hexact : ∀ {id w r}, t.workspaces.get? id = some w → r ∈ w.records →
      r.sequence = lastSequence w.records ∨ pinnedId w.retention.pins r.snapshotId →
        ∃ e' ∈ t.roots dryRun now,
          e'.node = r.snapshotId ∧ e'.tag = .Snapshot ∧ allClassMask ⊆ e'.mask := by
    intro id w r hw hr h
    have hretains := (retains_planState_iff (hordered id w hw) now w.retention.pins hr).mpr
      (Or.inr (Or.inr h))
    refine ⟨_, exists_root_of_retained dryRun hw hr hretains, rfl, rfl, ?_⟩
    rcases w.rootMask_eq now dryRun r with ⟨hmask, -⟩ | ⟨-, hnot⟩
    · rw [RefRecord.root, hmask]
    · exact absurd h hnot
  cases he with
  | @retained id w r hw hr hretains =>
    refine ⟨_, exists_root_of_retained dryRun hw hr hretains, rfl, rfl, ?_⟩
    rcases w.rootMask_eq now dryRun r with ⟨hmask, -⟩ | ⟨hmask, -⟩
    · rw [RefRecord.root, RefRecord.root, hmask]
      exact byteMask_subset now r.sealedAt false
    · rw [RefRecord.root, RefRecord.root, hmask]
  | @head id w r hw hr =>
    refine hexact hw (List.mem_of_getLast? hr) (Or.inl ?_)
    rw [lastSequence, hr]
    rfl
  | pinned hw hr hpin => exact hexact hw hr (Or.inr hpin)
  | @restoring id w pre target snapshot hw hintent hs =>
    refine ⟨⟨snapshot, .Snapshot, allClassMask⟩, List.mem_flatMap.mpr
      ⟨(id, w), (OrdMap.mem_toList_iff _).mpr hw, ?_⟩, rfl, rfl, Finset.Subset.refl _⟩
    rw [Workspace.roots, hintent]
    refine List.mem_append_left _ (List.mem_append_right _ ?_)
    rcases hs with rfl | rfl <;> simp
  | @incoming id w snapshot hw hincoming =>
    refine ⟨⟨snapshot, .Snapshot, allClassMask⟩, List.mem_flatMap.mpr
      ⟨(id, w), (OrdMap.mem_toList_iff _).mpr hw, ?_⟩, rfl, rfl, Finset.Subset.refl _⟩
    rw [Workspace.roots, hincoming]
    exact List.mem_append_right _ (List.mem_singleton_self _)

/-- A dry run has the same roots. -/
theorem roots_dryRun (t : StoreTables) (now : ℤ) (dryRun : Bool) :
    t.roots dryRun now = t.roots false now := by
  have hw : ∀ w : Workspace, w.roots dryRun now = w.roots false now := by
    intro w
    have hretained :
        w.retainedRecords (w.plan dryRun now) = w.retainedRecords (w.plan false now) := by
      unfold Workspace.retainedRecords
      simp only [retains_plan]
    have hmask :
        ∀ r, w.rootMask now (w.plan dryRun now) r = w.rootMask now (w.plan false now) r := by
      intro r
      unfold Workspace.rootMask RetentionState.isPinned
      rw [pins_plan, pins_plan]
    unfold Workspace.roots
    simp only [hretained, hmask]
  unfold StoreTables.roots
  simp only [hw]

/-! ## What is kept -/

section Kept

variable {kindOf : ObjectId → ObjectKind} {t : StoreTables} {now : ℤ}

/-- What is kept is reached, with at least its mask. -/
theorem Kept.reaches
    (hordered : ∀ id w, t.workspaces.get? id = some w → OrderedLog w.records)
    {id : ObjectId} {kind : ObjectKind} {mask : Mask} (h : Kept t now id kind mask) :
    ∃ mask', GcReaches t.objects (t.roots false now) id kind mask' ∧ mask ⊆ mask' := by
  induction h with
  | root he =>
    obtain ⟨e', he', hnode, htag, hmask⟩ := exists_mem_roots_of_isRoot false hordered he
    rw [← hnode, ← htag]
    exact ⟨e'.mask, .root he', hmask⟩
  | @edge id kind mask o e h ho hkind he ih =>
    obtain ⟨mask', hreach, hle⟩ := ih
    obtain ⟨e', he', hnode, htag, hmask⟩ := o.edges_mono hle e he
    rw [← hnode, ← htag]
    exact ⟨e'.mask, .step hreach (expandObject_eq_ok_iff.mpr ⟨o, ho, hkind, rfl⟩) he', hmask⟩

/-- **What is reached is kept**, if all of it is there. -/
theorem kept_of_reaches (hkinded : WellKinded kindOf t.objects)
    (hordered : ∀ id w, t.workspaces.get? id = some w → OrderedLog w.records)
    (hpresent : Present t.objects (t.roots false now)) {id : ObjectId} {kind : ObjectKind}
    {mask : Mask} (h : GcReaches t.objects (t.roots false now) id kind mask) :
    ∃ mask', Kept t now id kind mask' := by
  have hclosed : Marking.Closed (expandObject t.objects) (Kept t now) := by
    refine ⟨fun {id kind mask} hkept => ?_, fun {id kind mask es} hkept hes e he => ?_⟩
    · obtain ⟨mask', hreach, -⟩ := hkept.reaches hordered
      obtain ⟨es, hes⟩ := hpresent id kind mask' hreach
      exact hkinded.lawful.total hes mask
    · obtain ⟨o, ho, hkind, rfl⟩ := expandObject_eq_ok_iff.mp hes
      exact .edge hkept ho hkind he
  have hbuilt := Marking.Reaches.built hkinded.lawful (splits_expandObject t.objects) hclosed
    (fun e he => .root (isRoot_of_mem_roots hordered he)) h
  exact hbuilt.exists_good

/-- The mask that all below an object of a kind is kept with: all classes, or the bytes. -/
def wholeMask : ObjectKind → Mask
  | .Snapshot | .Tree => allClassMask
  | .Blob => {blobBytesBit}
  | .Chunk | .Xattrs => ∅

/-- With the whole mask an object hands the whole mask on to all it refers to. -/
theorem exists_edge_of_ref {o : Object} {mask : Mask} (hmask : wholeMask o.kind ⊆ mask)
    {r : ObjectId} (hr : r ∈ o.refs) :
    ∃ e ∈ o.edges mask, e.node = r ∧ wholeMask e.tag ⊆ e.mask := by
  have hblob : ∀ c : ContentClass, allClassMask ⊆ mask →
      wholeMask .Blob ⊆ blobMask mask c := by
    intro c hall
    rw [blobMask, if_pos (hall (bit_mem_allClassMask c))]
    exact Finset.Subset.refl _
  cases o with
  | chunk bytes => exact absurd hr List.not_mem_nil
  | xattrs entries => exact absurd hr List.not_mem_nil
  | blob b =>
    obtain ⟨c, hc, rfl⟩ := List.mem_map.mp hr
    have hbit : blobBytesBit ∈ mask := hmask (Finset.mem_singleton_self _)
    simp only [Object.edges, if_pos hbit]
    exact ⟨_, List.mem_map_of_mem hc, rfl, Finset.Subset.refl _⟩
  | snapshot s =>
    rcases List.mem_cons.mp hr with rfl | hr
    · exact ⟨_, List.mem_cons_self, rfl, hmask⟩
    · obtain ⟨backup, hbackup, rfl⟩ := List.mem_map.mp hr
      exact ⟨_, List.mem_cons_of_mem _ (List.mem_map_of_mem hbackup), rfl, hblob _ hmask⟩
  | tree tree =>
    rcases List.mem_append.mp hr with hr | hr
    · obtain ⟨page, hpage, rfl⟩ := List.mem_map.mp hr
      exact ⟨_, List.mem_append_left _ (List.mem_map_of_mem hpage), rfl, hmask⟩
    · obtain ⟨entry, hentry, hr⟩ := List.mem_flatMap.mp hr
      have hone : ∃ e ∈ entry.edges mask, e.node = r ∧ wholeMask e.tag ⊆ e.mask := by
        unfold TreeEntry.refs at hr
        unfold TreeEntry.edges
        rcases List.mem_append.mp hr with hr | hr
        · rw [Option.mem_toList] at hr
          rw [hr]
          exact ⟨⟨r, .Xattrs, ∅⟩, by simp, rfl, Finset.Subset.refl _⟩
        · split at hr
          · rename_i target hkind htarget
            rw [List.mem_singleton.mp hr]
            refine ⟨⟨target, .Blob, blobMask mask entry.contentClass⟩, ?_, rfl, hblob _ hmask⟩
            simp [hkind, htarget]
          · rename_i target hkind htarget
            rw [List.mem_singleton.mp hr]
            refine ⟨⟨target, .Tree, mask⟩, ?_, rfl, hmask⟩
            simp [hkind, htarget]
          · exact absurd hr List.not_mem_nil
      obtain ⟨e, he, hrest⟩ := hone
      exact ⟨e, List.mem_append_right _ (List.mem_flatMap.mpr ⟨entry, hentry, he⟩), hrest⟩

/-- **All that is below a root with all classes is kept.** -/
theorem kept_below (hkinded : WellKinded kindOf t.objects)
    (hkept : ∀ id kind mask, Kept t now id kind mask → kind = kindOf id) {e : GcEdge}
    (he : IsRoot t now e) (htag : e.tag = .Snapshot) (hmask : e.mask = allClassMask)
    {id : ObjectId} (h : Below t.objects e.node id) :
    ∃ kind mask, Kept t now id kind mask ∧ wholeMask kind ⊆ mask := by
  induction h with
  | root =>
    refine ⟨e.tag, e.mask, .root he, ?_⟩
    rw [htag, hmask]
    exact Finset.Subset.refl _
  | @ref id r o h ho hr ih =>
    obtain ⟨kind, mask, hk, hwhole⟩ := ih
    have hkind : o.kind = kind := (hkinded.kind id o ho).trans (hkept id kind mask hk).symm
    obtain ⟨e', he', rfl, hwhole'⟩ := exists_edge_of_ref (hkind ▸ hwhole) hr
    exact ⟨e'.tag, e'.mask, .edge hk ho hkind he', hwhole'⟩

end Kept

/-! ## Sizes -/

/-- The sizes in bytes that a collection reports. -/
structure GcSizes where
  reachablePayload : ℕ
  unreachablePayload : ℕ
  physicalBefore : ℕ
  physicalAfter : ℕ
  reclaimed : ℕ
deriving DecidableEq

/-- `RECORD_OVERHEAD` -/
def recordOverhead : ℕ := headerLen + objectEnd.length

/-- The length of the pack that `compact` writes, record by record. -/
def compactedLen (objectLen : ObjectId → ℕ) (ids : List ObjectId) : ℕ :=
  ids.foldl (fun position id => (position + headerLen) + objectLen id + objectEnd.length) 0

/-- The sizes of a collection, from the lengths of the payloads and the size of the packs: a dry
run projects the size afterwards, a real one has written the pack. -/
def collectSizes (payloadLen : Object → ℕ) (physicalBytes : ℕ) (dryRun : Bool) (now : ℤ)
    (t : StoreTables) : Except GcError GcSizes := do
  let marks ← traverse t.objects (t.roots dryRun now)
  let objectLen (id : ObjectId) : ℕ := ((t.objects.get? id).map payloadLen).getD 0
  let total := (t.objects.toList.map fun p => payloadLen p.2).sum
  let reachable := (marks.keys.map objectLen).sum
  let after :=
    if dryRun then reachable + marks.toList.length * recordOverhead
    else compactedLen objectLen marks.keys
  pure ⟨reachable, total - reachable, physicalBytes, after, physicalBytes - after⟩

/-- A compacted pack has the projected length. -/
theorem compactedLen_eq (objectLen : ObjectId → ℕ) (ids : List ObjectId) :
    compactedLen objectLen ids = (ids.map objectLen).sum + ids.length * recordOverhead := by
  have hfold : ∀ (ids : List ObjectId) (position : ℕ),
      ids.foldl (fun position id => (position + headerLen) + objectLen id + objectEnd.length)
        position = position + (ids.map objectLen).sum + ids.length * recordOverhead := by
    intro ids
    induction ids with
    | nil => simp
    | cons id ids ih =>
      intro position
      rw [List.foldl_cons, ih, List.map_cons, List.sum_cons, List.length_cons, Nat.succ_mul]
      unfold recordOverhead
      omega
  rw [compactedLen, hfold, Nat.zero_add]

/-- A dry run reports the same sizes. -/
theorem collectSizes_dryRun (payloadLen : Object → ℕ) (physicalBytes : ℕ) (now : ℤ)
    (t : StoreTables) :
    collectSizes payloadLen physicalBytes true now t =
      collectSizes payloadLen physicalBytes false now t := by
  unfold collectSizes
  rw [roots_dryRun t now true]
  simp only [compactedLen_eq, OrdMap.keys, List.length_map, Bool.false_eq_true, if_false, if_true]

/-! ## The result -/

/-- Whatever the order of the visits of a traversal: it comes to an end, every object that is
pending on the way can be read, and at the end the marks are these. -/
def AnyOrder (objects : OrdMap ObjectId Object) (roots : List GcEdge) (marks : GcMarks) : Prop :=
  Acc (fun marks' marks => Marking.Visit (expandObject objects) marks marks')
      (roots.foldl Marking.enqueue .empty) ∧
    ∀ marks', Relation.ReflTransGen (Marking.Visit (expandObject objects))
        (roots.foldl Marking.enqueue .empty) marks' →
      (∀ id k, marks'.get? id = some k → k.processed = false →
        ∃ es, expandObject objects id k.tag k.mask = .ok es) ∧
      (Marking.next marks' = none → marks' = marks)

/-- **The order of the visits does not matter.** -/
theorem anyOrder_traverse {kindOf : ObjectId → ObjectKind} {objects : OrdMap ObjectId Object}
    (hkinded : WellKinded kindOf objects) {roots : List GcEdge}
    (hroots : ∀ e ∈ roots, e.tag = kindOf e.node) (hpresent : Present objects roots)
    {marks : GcMarks} (hrun : traverse objects roots = .ok marks) :
    AnyOrder objects roots marks := by
  have hmono : ∀ m m' : Mask, m < m' → m.card < m'.card := fun _ _ h => Finset.card_lt_card h
  have hbound : ∀ m : Mask, m.card ≤ 16 := fun m => Finset.card_le_univ m
  have hinit : Marking.Inv (expandObject objects) roots (roots.foldl Marking.enqueue .empty) :=
    Marking.inv_roots hkinded.lawful hroots
  obtain ⟨hinv, hdone⟩ := Marking.settled_of_run hkinded.lawful hroots hmono hbound
    expandObject_mem_keys (traverseFuel_bound objects) hrun
  refine ⟨Marking.acc_visit hkinded.lawful hroots hmono hbound expandObject_mem_keys hinit,
    fun marks' hvisits => ?_⟩
  have hinv' := hinit.visits hkinded.lawful hroots hvisits
  exact ⟨fun id k hk _ => hpresent id k.tag k.mask (hinv'.sound id k hk),
    fun hdone' => hinv'.unique hkinded.lawful hroots hinv hdone' hdone⟩

/-- Every root is a snapshot. -/
theorem tag_of_isRoot {t : StoreTables} {now : ℤ} {e : GcEdge} (he : IsRoot t now e) :
    e.tag = .Snapshot := by
  cases he <;> rfl

/-- What a collection reports if its traversal succeeds. -/
def collectReport (dryRun : Bool) (now : ℤ) (t : StoreTables) (marks : GcMarks) : GcReport :=
  let published := (t.workspaces.toList.map fun p => p.2.records.length).sum
  let retained := (t.workspaces.toList.map fun p =>
    (p.2.retainedRecords (p.2.plan dryRun now)).length).sum
  { dryRun := dryRun
    roots := countRoots .empty (t.roots dryRun now)
    reachableObjects := marks.toList.length
    unreachableObjects := t.objects.toList.length - marks.toList.length
    publishedSnapshots := published
    retainedSnapshots := retained
    thinnedSnapshots := published - retained }

/-- The collection whose traversal succeeds, in terms of its marks. -/
theorem collect_eq_of_traverse {t : StoreTables} {dryRun : Bool} {now : ℤ} {marks : GcMarks}
    (h : traverse t.objects (t.roots dryRun now) = .ok marks) :
    collect dryRun now t = (.ok (collectReport dryRun now t marks),
      if dryRun then t else (t.persist false now).sweep marks) := by
  unfold collect
  rw [Fallible.inspect_apply]
  simp only [h]
  cases dryRun <;> rfl

/-- **A collection is exact.**  After one that succeeds the objects are exactly those of the least
set that contains the roots and is closed under the edges, and all of that set is there; below a
root with all classes everything is kept; the traversal has the same result in any order; and a
dry run of the same store changes nothing and reports the same. -/
theorem collect_exact {kindOf : ObjectId → ObjectKind} {t t' : StoreTables} {now : ℤ}
    {report : GcReport} (hkinded : WellKinded kindOf t.objects)
    (hroots : ∀ e ∈ t.roots false now, kindOf e.node = .Snapshot)
    (hordered : ∀ id w, t.workspaces.get? id = some w → OrderedLog w.records)
    (hrun : collect false now t = (.ok report, t')) :
    (∀ id o, t'.objects.get? id = some o ↔
        t.objects.get? id = some o ∧ ∃ kind mask, Kept t now id kind mask) ∧
      (∀ id kind mask, Kept t now id kind mask → ∃ o, t'.objects.get? id = some o ∧ o.kind = kind) ∧
      (∀ e, IsRoot t now e → e.mask = allClassMask →
        ∀ id, Below t.objects e.node id → (t'.objects.get? id).isSome) ∧
      (∃ marks, traverse t.objects (t.roots false now) = .ok marks ∧
        AnyOrder t.objects (t.roots false now) marks ∧
        ∀ id, (t'.objects.get? id).isSome ↔ (marks.get? id).isSome) ∧
      (∃ report', collect true now t = (.ok report', t) ∧
        report = { report' with dryRun := false }) ∧
      ∀ payloadLen physicalBytes, collectSizes payloadLen physicalBytes true now t =
        collectSizes payloadLen physicalBytes false now t := by
  have htags : ∀ e ∈ t.roots false now, e.tag = kindOf e.node := by
    intro e he
    rw [tag_roots he, hroots e he]
  -- the traversal succeeded, since the collection did
  obtain ⟨marks, htraverse, hpresent, hmarks⟩ : ∃ marks,
      traverse t.objects (t.roots false now) = .ok marks ∧ Present t.objects (t.roots false now) ∧
        ∀ id, (marks.get? id).isSome ↔
          ∃ kind mask, GcReaches t.objects (t.roots false now) id kind mask := by
    rcases traverse_spec hkinded htags with h | ⟨-, hmissing⟩
    · exact h
    · rcases collect_spec hkinded hroots with ⟨hpresent, -⟩ | ⟨-, e, hfail⟩
      · exact absurd hpresent hmissing
      · rw [hrun] at hfail
        exact absurd (Prod.mk.inj hfail).1 (by simp)
  have hkept : ∀ id, (marks.get? id).isSome ↔ ∃ kind mask, Kept t now id kind mask := by
    intro id
    rw [hmarks]
    constructor
    · rintro ⟨kind, mask, hreach⟩
      obtain ⟨mask', hk⟩ := kept_of_reaches hkinded hordered hpresent hreach
      exact ⟨kind, mask', hk⟩
    · rintro ⟨kind, mask, hk⟩
      obtain ⟨mask', hreach, -⟩ := hk.reaches hordered
      exact ⟨kind, mask', hreach⟩
  have hobject : ∀ id kind mask, Kept t now id kind mask →
      ∃ o, t.objects.get? id = some o ∧ o.kind = kind := by
    intro id kind mask hk
    obtain ⟨mask', hreach, -⟩ := hk.reaches hordered
    obtain ⟨es, hes⟩ := hpresent id kind mask' hreach
    obtain ⟨o, ho, hkind, -⟩ := expandObject_eq_ok_iff.mp hes
    exact ⟨o, ho, hkind⟩
  have hkindOf : ∀ id kind mask, Kept t now id kind mask → kind = kindOf id := by
    intro id kind mask hk
    obtain ⟨o, ho, hkind⟩ := hobject id kind mask hk
    rw [← hkind, hkinded.kind id o ho]
  have hresult : collect false now t =
      (.ok (collectReport false now t marks), (t.persist false now).sweep marks) := by
    rw [collect_eq_of_traverse htraverse]
    rfl
  rw [hrun] at hresult
  obtain ⟨hreport, rfl⟩ := Prod.mk.inj hresult
  have hget : ∀ id, ((t.persist false now).sweep marks).objects.get? id =
      (t.objects.get? id).filter fun _ => (marks.get? id).isSome := by
    intro id
    rw [StoreTables.sweep, OrdMap.get?_filter]
    rfl
  have hsome : ∀ id o, ((t.persist false now).sweep marks).objects.get? id = some o ↔
      t.objects.get? id = some o ∧ ∃ kind mask, Kept t now id kind mask := by
    intro id o
    rw [hget, Option.filter_eq_some_iff, hkept]
  have hthere : ∀ id kind mask, Kept t now id kind mask →
      ∃ o, ((t.persist false now).sweep marks).objects.get? id = some o ∧ o.kind = kind := by
    intro id kind mask hk
    obtain ⟨o, ho, hkind⟩ := hobject id kind mask hk
    exact ⟨o, (hsome id o).mpr ⟨ho, kind, mask, hk⟩, hkind⟩
  refine ⟨hsome, hthere, fun e he hmask id hbelow => ?_, ⟨marks, htraverse,
    anyOrder_traverse hkinded htags hpresent htraverse, fun id => ?_⟩,
    ⟨collectReport true now t marks, ?_, ?_⟩, fun payloadLen physicalBytes =>
      collectSizes_dryRun payloadLen physicalBytes now t⟩
  · obtain ⟨kind, mask, hk, -⟩ := kept_below hkinded hkindOf he (tag_of_isRoot he) hmask hbelow
    obtain ⟨o, ho, -⟩ := hthere id kind mask hk
    rw [ho]
    rfl
  · constructor
    · intro h
      obtain ⟨o, ho⟩ := Option.isSome_iff_exists.mp h
      exact (hkept id).mpr ((hsome id o).mp ho).2
    · intro h
      obtain ⟨kind, mask, hk⟩ := (hkept id).mp h
      obtain ⟨o, ho, -⟩ := hthere id kind mask hk
      rw [ho]
      rfl
  · rw [← roots_dryRun t now true] at htraverse
    rw [collect_eq_of_traverse htraverse]
    rfl
  · rw [Except.ok.inj hreport]
    unfold collectReport
    rw [roots_dryRun t now true]
    simp only [Workspace.retainedRecords, retains_plan]

/-- A collection that thins one of three snapshots. -/
theorem collect_exact_sample :
    let t := (sampleSteps.foldl GcState.step (.start 0)).tables
    let now := 3600000 + 2 * daySecs
    ∃ report t', collect false now t = (.ok report, t') ∧
      (∀ id o, t'.objects.get? id = some o ↔
        t.objects.get? id = some o ∧ ∃ kind mask, Kept t now id kind mask) ∧
      ∃ report', collect true now t = (.ok report', t) ∧
        report = { report' with dryRun := false } := by
  intro t now
  obtain ⟨-, k₁⟩ := valid_samplePublish (gcSound_start sampleKindOf 0).kinded 2 3600000
    (by decide) (by decide)
  obtain ⟨-, k₂⟩ := valid_samplePublish k₁ 3 3600010 (by decide) (by decide)
  obtain ⟨-, hkinded⟩ := valid_samplePublish k₂ 4 (3600000 + daySecs) (by decide)
    (by decide)
  have hroots : ∀ e ∈ t.roots false now, sampleKindOf e.node = .Snapshot := by
    have hall : ((t.roots false now).all fun e => sampleKindOf e.node = .Snapshot) = true := by
      decide
    intro e he
    simpa using List.all_eq_true.mp hall e he
  have hordered : ∀ id w, t.workspaces.get? id = some w → OrderedLog w.records := by
    intro id w hw
    have hall : (t.workspaces.toList.map fun p => (p.2.records, p.2.pinned)) =
        [(sampleRecords, [])] := by
      decide
    rw [(records_of_workspaces hall hw).1]
    exact ⟨by decide, by decide⟩
  have hok : (collect false now t).1.toOption.isSome = true := by decide
  cases hrun : collect false now t with
  | mk result t' =>
    cases result with
    | error e =>
      rw [hrun] at hok
      exact absurd hok (by simp [Except.toOption])
    | ok report =>
      obtain ⟨hexact, -, -, -, hdry, -⟩ := collect_exact hkinded hroots hordered hrun
      exact ⟨report, t', rfl, hexact, hdry⟩

end Furrow
