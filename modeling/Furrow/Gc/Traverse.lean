import Mathlib
import Furrow.ContentClass
import Furrow.Lib.Marking
import Furrow.Retention.Plan

set_option relaxedAutoImplicit false
set_option autoImplicit false

/-!
# Reachability with class masks

The traversal of `gc.rs`.  A root is marked with the classes whose bytes it keeps at its age;
trees hand their mask on, a file hands on one bit that says whether its bytes are kept, and only
then its chunks are marked.  Manifests, trees and attributes are kept whatever the mask.

## Main definitions

* `Furrow.byteMask` — the classes whose bytes a root keeps.
* `Furrow.Object.edges`, `Furrow.expandObject` — the edges of the traversal.
* `Furrow.traverse` — the traversal.

## Main results

* `Furrow.byteMask_antitone` — a root never keeps more as it ages.
* `Furrow.traverse_spec` — the traversal of a complete graph succeeds and marks exactly what is
  reached.
-/

namespace Furrow

/-- What a collection complains about. -/
inductive GcError
  /-- `missing object …` -/
  | missing (id : ObjectId)
  /-- `reachable object kind mismatch` -/
  | kindMismatch (id : ObjectId)
deriving DecidableEq

/-- A mark request of the traversal. -/
abbrev GcEdge := Marking.Edge ObjectId ObjectKind Mask

/-- The marks of a traversal. -/
abbrev GcMarks := Marking.Marks ObjectId ObjectKind Mask

/-- **The classes whose bytes a root keeps** (`byte_mask`): all for an exact root, else those
whose window its age is in. -/
def byteMask (now sealedAt : ℤ) (exactRoot : Bool) : Mask :=
  if exactRoot ∨ now < sealedAt then allClassMask
  else
    let age := saturatingSub now sealedAt
    {ContentClass.Source.bit, ContentClass.VcsMeta.bit, ContentClass.ConfigSecret.bit,
        ContentClass.Lockfile.bit} ∪
      (if age ≤ 30 * daySecs then {ContentClass.Database.bit} else ∅) ∪
      (if age ≤ 3 * daySecs then {ContentClass.Dependency.bit, ContentClass.BuildOutput.bit}
        else ∅) ∪
      (if age ≤ daySecs then {ContentClass.Scratch.bit} else ∅)

/-- The mask a file is marked with: its bytes are kept if its class is. -/
def blobMask (mask : Mask) (c : ContentClass) : Mask := if c.bit ∈ mask then {blobBytesBit} else ∅

/-- What an entry of a tree marks. -/
def TreeEntry.edges (mask : Mask) (entry : TreeEntry) : List GcEdge :=
  (match entry.xattrs with
    | some xattrs => [⟨xattrs, .Xattrs, ∅⟩]
    | none => []) ++
  match entry.kind, entry.target with
  | .File, some target => [⟨target, .Blob, blobMask mask entry.contentClass⟩]
  | .Directory, some target => [⟨target, .Tree, mask⟩]
  | _, _ => []

/-- What an object marks. -/
def Object.edges (mask : Mask) : Object → List GcEdge
  | .snapshot s =>
    ⟨s.rootTree, .Tree, mask⟩ ::
      s.sqliteBackups.map fun backup => ⟨backup.blob, .Blob, blobMask mask (classify backup.path)⟩
  | .tree t =>
    (t.pages.map fun page => ⟨page.target, .Tree, mask⟩) ++
      t.entries.flatMap (TreeEntry.edges mask)
  | .blob b => if blobBytesBit ∈ mask then b.chunks.map fun c => ⟨c.id, .Chunk, ∅⟩ else []
  | .chunk _ | .xattrs _ => []

/-- Read a marked object and find what it marks. -/
def expandObject (objects : OrdMap ObjectId Object) (id : ObjectId) (expected : ObjectKind)
    (mask : Mask) : Except GcError (List GcEdge) :=
  match objects.get? id with
  | none => .error (.missing id)
  | some o => if o.kind = expected then .ok (o.edges mask) else .error (.kindMismatch id)

/-- A bound on the visits: an object is visited again only when its mask has grown. -/
def traverseFuel (objects : OrdMap ObjectId Object) : ℕ := objects.toList.length * (2 * 16 + 2) + 1

/-- **The traversal** from some roots. -/
def traverse (objects : OrdMap ObjectId Object) (roots : List GcEdge) : Except GcError GcMarks :=
  Marking.run (expandObject objects) (traverseFuel objects) (roots.foldl Marking.enqueue .empty)

/-- What the traversal reaches from some roots. -/
abbrev GcReaches (objects : OrdMap ObjectId Object) (roots : List GcEdge) :=
  Marking.Reaches (expandObject objects) roots

/-! ## Masks -/

/-- No root keeps more than all classes. -/
theorem byteMask_subset (now sealedAt : ℤ) (exactRoot : Bool) :
    byteMask now sealedAt exactRoot ⊆ allClassMask := by
  unfold byteMask
  dsimp only
  split_ifs <;> decide

/-- A root never keeps more as it ages. -/
theorem byteMask_antitone {before now sealedAt : ℤ} (h : before ≤ now) :
    byteMask now sealedAt false ⊆ byteMask before sealedAt false := by
  by_cases hfuture : before < sealedAt
  · have hall : byteMask before sealedAt false = allClassMask := by
      unfold byteMask
      rw [if_pos (Or.inr hfuture)]
    rw [hall]
    exact byteMask_subset now sealedAt false
  · intro b hb
    unfold byteMask saturatingSub daySecs hourSecs at *
    have hnow : ¬ now < sealedAt := by omega
    simp only [Bool.false_eq_true, false_or, hfuture, hnow, if_false] at hb ⊢
    simp only [Finset.mem_union] at hb ⊢
    rcases hb with ((hb | hb) | hb) | hb
    · exact Or.inl (Or.inl (Or.inl hb))
    · refine Or.inl (Or.inl (Or.inr ?_))
      split_ifs at hb with hage
      · rwa [if_pos (by omega)]
      · exact absurd hb (Finset.notMem_empty _)
    · refine Or.inl (Or.inr ?_)
      split_ifs at hb with hage
      · rwa [if_pos (by omega)]
      · exact absurd hb (Finset.notMem_empty _)
    · refine Or.inr ?_
      split_ifs at hb with hage
      · rwa [if_pos (by omega)]
      · exact absurd hb (Finset.notMem_empty _)

/-- A union of masks asks nothing of a blob that neither asks. -/
theorem blobMask_union (mask mask' : Mask) (c : ContentClass) :
    blobMask (mask ∪ mask') c ⊆ blobMask mask c ∪ blobMask mask' c := by
  unfold blobMask
  by_cases h : c.bit ∈ mask <;> by_cases h' : c.bit ∈ mask' <;> simp [h, h']

/-- A larger mask asks more of a blob. -/
theorem blobMask_mono {mask mask' : Mask} (h : mask ⊆ mask') (c : ContentClass) :
    blobMask mask c ⊆ blobMask mask' c := by
  unfold blobMask
  split_ifs with hm hm'
  · exact Finset.Subset.refl _
  · exact absurd (h hm) hm'
  · exact Finset.empty_subset _
  · exact Finset.Subset.refl _

/-! ## The edges are lawful -/

/-- What every mask finds at an object, and what more a larger one does. -/
theorem TreeEntry.edges_mono {mask mask' : Mask} (h : mask ⊆ mask') (entry : TreeEntry) :
    ∀ e ∈ entry.edges mask, ∃ e' ∈ entry.edges mask',
      e'.node = e.node ∧ e'.tag = e.tag ∧ e.mask ⊆ e'.mask := by
  intro e he
  unfold TreeEntry.edges at he ⊢
  rcases List.mem_append.mp he with he | he
  · exact ⟨e, List.mem_append_left _ he, rfl, rfl, Finset.Subset.refl _⟩
  · split at he
    · rename_i target hkind htarget
      rw [List.mem_singleton.mp he]
      exact ⟨⟨target, .Blob, blobMask mask' entry.contentClass⟩,
        List.mem_append_right _ (by simp), rfl, rfl, blobMask_mono h _⟩
    · rename_i target hkind htarget
      rw [List.mem_singleton.mp he]
      exact ⟨⟨target, .Tree, mask'⟩, List.mem_append_right _ (by simp), rfl, rfl, h⟩
    · exact absurd he List.not_mem_nil

/-- A larger mask finds at least as much. -/
theorem Object.edges_mono {mask mask' : Mask} (h : mask ⊆ mask') (o : Object) :
    ∀ e ∈ o.edges mask, ∃ e' ∈ o.edges mask',
      e'.node = e.node ∧ e'.tag = e.tag ∧ e.mask ⊆ e'.mask := by
  intro e he
  cases o with
  | chunk bytes => exact absurd he List.not_mem_nil
  | xattrs entries => exact absurd he List.not_mem_nil
  | blob b =>
    simp only [Object.edges] at he ⊢
    split_ifs at he with hbit
    · rw [if_pos (h hbit)]
      exact ⟨e, he, rfl, rfl, Finset.Subset.refl _⟩
    · exact absurd he List.not_mem_nil
  | snapshot s =>
    simp only [Object.edges] at he ⊢
    rcases List.mem_cons.mp he with rfl | he
    · exact ⟨_, List.mem_cons_self, rfl, rfl, h⟩
    · obtain ⟨backup, hbackup, rfl⟩ := List.mem_map.mp he
      exact ⟨⟨backup.blob, .Blob, blobMask mask' (classify backup.path)⟩,
        List.mem_cons_of_mem _ (List.mem_map_of_mem hbackup), rfl, rfl, blobMask_mono h _⟩
  | tree t =>
    simp only [Object.edges] at he ⊢
    rcases List.mem_append.mp he with he | he
    · obtain ⟨page, hpage, rfl⟩ := List.mem_map.mp he
      exact ⟨⟨page.target, .Tree, mask'⟩, List.mem_append_left _ (List.mem_map_of_mem hpage),
        rfl, rfl, h⟩
    · obtain ⟨entry, hentry, he⟩ := List.mem_flatMap.mp he
      obtain ⟨e', he', hrest⟩ := entry.edges_mono h e he
      exact ⟨e', List.mem_append_right _ (List.mem_flatMap.mpr ⟨entry, hentry, he'⟩), hrest⟩

/-- An edge to an object of the same kind hands the mask on unchanged. -/
theorem Object.mask_of_edge {mask : Mask} {o : Object} {e : GcEdge} (he : e ∈ o.edges mask)
    (htag : e.tag = o.kind) : e.mask = mask := by
  cases o with
  | chunk bytes => exact absurd he List.not_mem_nil
  | xattrs entries => exact absurd he List.not_mem_nil
  | blob b =>
    simp only [Object.edges] at he
    split_ifs at he with hbit
    · obtain ⟨c, -, rfl⟩ := List.mem_map.mp he
      exact absurd htag (by simp [Object.kind])
    · exact absurd he List.not_mem_nil
  | snapshot s =>
    simp only [Object.edges] at he
    rcases List.mem_cons.mp he with rfl | he
    · rfl
    · obtain ⟨backup, -, rfl⟩ := List.mem_map.mp he
      exact absurd htag (by simp [Object.kind])
  | tree t =>
    simp only [Object.edges] at he
    rcases List.mem_append.mp he with he | he
    · obtain ⟨page, -, rfl⟩ := List.mem_map.mp he
      rfl
    · obtain ⟨entry, -, he⟩ := List.mem_flatMap.mp he
      unfold TreeEntry.edges at he
      rcases List.mem_append.mp he with he | he
      · split at he
        · rw [List.mem_singleton.mp he] at htag
          exact absurd htag (by simp [Object.kind])
        · exact absurd he List.not_mem_nil
      · split at he
        · rw [List.mem_singleton.mp he] at htag
          exact absurd htag (by simp [Object.kind])
        · rw [List.mem_singleton.mp he]
        · exact absurd he List.not_mem_nil

/-- A store whose identifiers stand for one kind each: an object has the kind of its identifier,
and so has whatever an object refers to. -/
structure WellKinded (kindOf : ObjectId → ObjectKind) (objects : OrdMap ObjectId Object) :
    Prop where
  kind : ∀ id o, objects.get? id = some o → o.kind = kindOf id
  edge : ∀ id o, objects.get? id = some o → ∀ mask, ∀ e ∈ o.edges mask, e.tag = kindOf e.node

/-- An object expands exactly when it is present with the kind expected of it. -/
theorem expandObject_eq_ok_iff {objects : OrdMap ObjectId Object} {id : ObjectId}
    {expected : ObjectKind} {mask : Mask} {es : List GcEdge} :
    expandObject objects id expected mask = .ok es ↔
      ∃ o, objects.get? id = some o ∧ o.kind = expected ∧ es = o.edges mask := by
  unfold expandObject
  cases h : objects.get? id with
  | none => simp
  | some o =>
    by_cases hk : o.kind = expected
    · simp [hk, eq_comm]
    · simp [hk]

/-- The traversal of a well-kinded store is lawful. -/
theorem WellKinded.lawful {kindOf : ObjectId → ObjectKind} {objects : OrdMap ObjectId Object}
    (h : WellKinded kindOf objects) : Marking.Lawful (expandObject objects) kindOf where
  total hes m' := by
    obtain ⟨o, ho, hk, -⟩ := expandObject_eq_ok_iff.mp hes
    exact ⟨o.edges m', expandObject_eq_ok_iff.mpr ⟨o, ho, hk, rfl⟩⟩
  mono hle hes := by
    obtain ⟨o, ho, hk, rfl⟩ := expandObject_eq_ok_iff.mp hes
    exact ⟨o.edges _, expandObject_eq_ok_iff.mpr ⟨o, ho, hk, rfl⟩, o.edges_mono hle⟩
  tag hes e he := by
    obtain ⟨o, ho, -, rfl⟩ := expandObject_eq_ok_iff.mp hes
    exact h.edge _ o ho _ e he
  self hes e he hself := by
    obtain ⟨o, ho, hk, rfl⟩ := expandObject_eq_ok_iff.mp hes
    have htag : e.tag = o.kind := by rw [h.edge _ o ho _ e he, hself, hk]
    rw [o.mask_of_edge he htag]

/-- What a union of masks finds at an entry, its parts find. -/
theorem TreeEntry.edges_union {mask mask' : Mask} {entry : TreeEntry} {e : GcEdge}
    (he : e ∈ entry.edges (mask ∪ mask')) :
    ∃ e₁ ∈ entry.edges mask, ∃ e₂ ∈ entry.edges mask', (e₁.node = e.node ∧ e₁.tag = e.tag) ∧
      (e₂.node = e.node ∧ e₂.tag = e.tag) ∧ e.mask ⊆ e₁.mask ∪ e₂.mask := by
  unfold TreeEntry.edges at he ⊢
  rcases List.mem_append.mp he with he | he
  · exact ⟨e, List.mem_append_left _ he, e, List.mem_append_left _ he, ⟨rfl, rfl⟩, ⟨rfl, rfl⟩,
      Finset.subset_union_left⟩
  · split at he
    · rename_i target hkind htarget
      rw [List.mem_singleton.mp he]
      exact ⟨⟨target, .Blob, blobMask mask entry.contentClass⟩, List.mem_append_right _ (by simp),
        ⟨target, .Blob, blobMask mask' entry.contentClass⟩, List.mem_append_right _ (by simp),
        ⟨rfl, rfl⟩, ⟨rfl, rfl⟩, blobMask_union mask mask' entry.contentClass⟩
    · rename_i target hkind htarget
      rw [List.mem_singleton.mp he]
      exact ⟨⟨target, .Tree, mask⟩, List.mem_append_right _ (by simp),
        ⟨target, .Tree, mask'⟩, List.mem_append_right _ (by simp),
        ⟨rfl, rfl⟩, ⟨rfl, rfl⟩, Finset.Subset.refl _⟩
    · exact absurd he List.not_mem_nil

/-- What a union of masks finds, its parts find. -/
theorem splits_expandObject (objects : OrdMap ObjectId Object) :
    Marking.Splits (expandObject objects) := by
  intro id kind mask mask' es es₁ es₂ hes hes₁ hes₂ e he
  obtain ⟨o, ho, hk, rfl⟩ := expandObject_eq_ok_iff.mp hes
  rw [expandObject_eq_ok_iff.mpr ⟨o, ho, hk, rfl⟩] at hes₁ hes₂
  rw [← Except.ok.inj hes₁, ← Except.ok.inj hes₂]
  cases o with
  | chunk bytes => exact absurd he List.not_mem_nil
  | xattrs entries => exact absurd he List.not_mem_nil
  | blob b =>
    simp only [Object.edges] at he ⊢
    split_ifs at he with hbit
    · rcases Finset.mem_union.mp hbit with hbit | hbit
      · rw [if_pos hbit]
        exact Or.inl ⟨e, he, rfl, rfl, Finset.Subset.refl _⟩
      · rw [if_pos hbit]
        exact Or.inr (Or.inl ⟨e, he, rfl, rfl, Finset.Subset.refl _⟩)
    · exact absurd he List.not_mem_nil
  | snapshot s =>
    simp only [Object.edges] at he ⊢
    refine Or.inr (Or.inr ?_)
    rcases List.mem_cons.mp he with rfl | he
    · exact ⟨_, List.mem_cons_self, _, List.mem_cons_self, ⟨rfl, rfl⟩, ⟨rfl, rfl⟩,
        Finset.Subset.refl _⟩
    · obtain ⟨backup, hbackup, rfl⟩ := List.mem_map.mp he
      exact ⟨⟨backup.blob, .Blob, blobMask mask (classify backup.path)⟩,
        List.mem_cons_of_mem _ (List.mem_map_of_mem hbackup),
        ⟨backup.blob, .Blob, blobMask mask' (classify backup.path)⟩,
        List.mem_cons_of_mem _ (List.mem_map_of_mem hbackup),
        ⟨rfl, rfl⟩, ⟨rfl, rfl⟩, blobMask_union mask mask' _⟩
  | tree t =>
    simp only [Object.edges] at he ⊢
    refine Or.inr (Or.inr ?_)
    rcases List.mem_append.mp he with he | he
    · obtain ⟨page, hpage, rfl⟩ := List.mem_map.mp he
      exact ⟨⟨page.target, .Tree, mask⟩, List.mem_append_left _ (List.mem_map_of_mem hpage),
        ⟨page.target, .Tree, mask'⟩, List.mem_append_left _ (List.mem_map_of_mem hpage),
        ⟨rfl, rfl⟩, ⟨rfl, rfl⟩, Finset.Subset.refl _⟩
    · obtain ⟨entry, hentry, he⟩ := List.mem_flatMap.mp he
      obtain ⟨e₁, he₁, e₂, he₂, hrest⟩ := TreeEntry.edges_union he
      exact ⟨e₁, List.mem_append_right _ (List.mem_flatMap.mpr ⟨entry, hentry, he₁⟩),
        e₂, List.mem_append_right _ (List.mem_flatMap.mpr ⟨entry, hentry, he₂⟩), hrest⟩

/-- All that is reached from some roots is there, with the kind it is expected to have. -/
def Present (objects : OrdMap ObjectId Object) (roots : List GcEdge) : Prop :=
  Marking.Readable (expandObject objects) roots

/-- What expands is present. -/
theorem expandObject_mem_keys {objects : OrdMap ObjectId Object} (id : ObjectId)
    (kind : ObjectKind) (mask : Mask) (es : List GcEdge)
    (hes : expandObject objects id kind mask = .ok es) : id ∈ objects.keys := by
  obtain ⟨o, ho, -⟩ := expandObject_eq_ok_iff.mp hes
  rw [OrdMap.mem_keys_iff, ho]
  rfl

/-- The fuel covers every change of a mark. -/
theorem traverseFuel_bound (objects : OrdMap ObjectId Object) :
    objects.keys.length * (2 * 16 + 2) < traverseFuel objects := by
  unfold traverseFuel OrdMap.keys
  rw [List.length_map]
  exact Nat.lt_succ_self _

/-- **The traversal of a complete graph succeeds** and marks exactly what is reached; and if it
succeeds, the graph was complete. -/
theorem traverse_spec {kindOf : ObjectId → ObjectKind} {objects : OrdMap ObjectId Object}
    (h : WellKinded kindOf objects) {roots : List GcEdge}
    (hroots : ∀ e ∈ roots, e.tag = kindOf e.node) :
    (∃ marks, traverse objects roots = .ok marks ∧ Present objects roots ∧
        ∀ id, (marks.get? id).isSome ↔ ∃ kind mask, GcReaches objects roots id kind mask) ∨
      (∃ e, traverse objects roots = .error e) ∧ ¬ Present objects roots := by
  have hmono : ∀ m m' : Mask, m < m' → m.card < m'.card := fun _ _ h => Finset.card_lt_card h
  have hbound : ∀ m : Mask, m.card ≤ 16 := fun m => Finset.card_le_univ m
  rcases Marking.run_spec h.lawful hroots hmono hbound expandObject_mem_keys
      (traverseFuel_bound objects) with
    ⟨marks, hrun, hsound, hcomplete, hread⟩ | ⟨e, id, kind, mask, hrun, hreach, hfail⟩
  · refine Or.inl ⟨marks, hrun, hread, fun id => ⟨fun hm => ?_, ?_⟩⟩
    · obtain ⟨k, hk⟩ := Option.isSome_iff_exists.mp hm
      exact ⟨k.tag, k.mask, hsound id k hk⟩
    · rintro ⟨kind, mask, hr⟩
      obtain ⟨k, hk, -⟩ := hcomplete id kind mask hr
      rw [hk]
      rfl
  · refine Or.inr ⟨⟨e, hrun⟩, fun hpresent => ?_⟩
    obtain ⟨es, hes⟩ := hpresent id kind mask hreach
    rw [hes] at hfail
    exact absurd hfail (by simp)

/-- The identifier of a root that is present stands for its kind. -/
theorem Present.kindOf_eq {kindOf : ObjectId → ObjectKind} {objects : OrdMap ObjectId Object}
    (hkinded : WellKinded kindOf objects) {id : ObjectId} {kind : ObjectKind} {mask : Mask}
    (h : Present objects [⟨id, kind, mask⟩]) : kindOf id = kind := by
  obtain ⟨es, hes⟩ := Marking.Readable.expands h
  obtain ⟨o, ho, hkind, -⟩ := expandObject_eq_ok_iff.mp hes
  rw [← hkinded.kind id o ho, hkind]

/-- What is present stays present when only objects that are not reached change. -/
theorem Present.congr {objects objects' : OrdMap ObjectId Object} {roots : List GcEdge}
    (h : Present objects roots)
    (hsame : ∀ id kind mask, GcReaches objects roots id kind mask →
      objects'.get? id = objects.get? id) : Present objects' roots := by
  refine Marking.Readable.congr h fun id kind mask hr => ?_
  unfold expandObject
  rw [hsame id kind mask hr]

/-- More objects leave present what was. -/
theorem Present.grow {objects objects' : OrdMap ObjectId Object} {roots : List GcEdge}
    (h : Present objects roots)
    (hold : ∀ id o, objects.get? id = some o → objects'.get? id = some o) :
    Present objects' roots := by
  refine h.congr fun id kind mask hr => ?_
  obtain ⟨es, hes⟩ := h id kind mask hr
  obtain ⟨o, ho, -⟩ := expandObject_eq_ok_iff.mp hes
  rw [ho, hold id o ho]

/-- A root is present with every smaller mask. -/
theorem Present.mask_mono {kindOf : ObjectId → ObjectKind} {objects : OrdMap ObjectId Object}
    (hkinded : WellKinded kindOf objects) {id : ObjectId} {kind : ObjectKind} {mask mask' : Mask}
    (hle : mask ⊆ mask') (h : Present objects [⟨id, kind, mask'⟩]) :
    Present objects [⟨id, kind, mask⟩] := by
  refine Marking.Readable.mono hkinded.lawful h fun e he => ?_
  rw [List.mem_singleton.mp he]
  exact ⟨mask', .root (e := ⟨id, kind, mask'⟩) (by simp), hle⟩

/-- Some of the roots are present if all are. -/
theorem Present.sub {kindOf : ObjectId → ObjectKind} {objects : OrdMap ObjectId Object}
    (hkinded : WellKinded kindOf objects) {roots roots' : List GcEdge}
    (hsub : ∀ e ∈ roots, e ∈ roots') (h : Present objects roots') : Present objects roots :=
  Marking.Readable.mono hkinded.lawful h fun e he => ⟨e.mask, .root (hsub e he), le_refl _⟩

end Furrow
