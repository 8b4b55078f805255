import Furrow.Lib.OrdMap
import Furrow.Pack.Record

set_option relaxedAutoImplicit false
set_option autoImplicit false

/-!
# The object index

The part of `catalog.rs` that indexes packs: the table of object locations, whose primary key
is the identifier, and the table of pack checkpoints.  The capture caches ride along: they are
rows of some type that recovery can only drop as a whole.

## Main definitions

* `Furrow.Catalog` — the tables.
* `Furrow.Catalog.insertObject`, `Furrow.Catalog.resetPackIndex`,
  `Furrow.Catalog.deletePackObjectsFrom` — the writes.
* `Furrow.Catalog.packHighWater`, `Furrow.Catalog.packPrefixObjectCount`,
  `Furrow.Catalog.packCrossingObjectCount` — the queries.

## Main results

* `Furrow.Catalog.object_insertObject` — an insertion keeps a row that is there.
* `Furrow.Catalog.packHighWater_le_iff` — the high water bounds the ends of all rows.
-/

namespace Furrow

/-- The file name of a pack. -/
abbrev PackName := Bytes

/-- Where an object is stored. -/
structure ObjectLocation where
  kind : ObjectKind
  pack : PackName
  offset : ℕ
  len : ℕ
deriving DecidableEq

namespace ObjectLocation

/-- The end of the record of an object: `offset + len + 4`. -/
def recordEnd (l : ObjectLocation) : ℕ := l.offset + l.len + 4

end ObjectLocation

/-- How much of a pack has been verified. -/
structure PackCheckpoint where
  verifiedLen : ℕ
  objectCount : ℕ
  lastObject : Option ObjectId
  lastRecordStart : ℕ
deriving DecidableEq

/-- The checkpoint of a pack that has none. -/
def PackCheckpoint.zero : PackCheckpoint := ⟨0, 0, none, 0⟩

/-- The tables of the catalog; `R` is the type of the rows of the capture caches. -/
structure Catalog (R : Type) where
  objects : OrdMap ObjectId ObjectLocation
  checkpoints : OrdMap PackName PackCheckpoint
  caches : List R

namespace Catalog

variable {R : Type}

/-- The catalog of a new store. -/
def empty : Catalog R := ⟨OrdMap.empty, OrdMap.empty, []⟩

/-- The location of an object. -/
def object (c : Catalog R) (id : ObjectId) : Option ObjectLocation := c.objects.get? id

/-- The checkpoint of a pack. -/
def packCheckpoint (c : Catalog R) (pack : PackName) : Option PackCheckpoint :=
  c.checkpoints.get? pack

/-- `INSERT OR IGNORE`: a row that is there stays. -/
def insertObject (c : Catalog R) (id : ObjectId) (location : ObjectLocation) : Catalog R :=
  match c.objects.get? id with
  | some _ => c
  | none => { c with objects := c.objects.insert id location }

/-- Replace the checkpoint of a pack. -/
def setPackCheckpoint (c : Catalog R) (pack : PackName) (checkpoint : PackCheckpoint) : Catalog R :=
  { c with checkpoints := c.checkpoints.insert pack checkpoint }

/-- Drop the rows and the checkpoint of a pack. -/
def resetPackIndex (c : Catalog R) (pack : PackName) : Catalog R :=
  { c with objects := c.objects.filter fun _ l => l.pack ≠ pack
           checkpoints := c.checkpoints.erase pack }

/-- Drop the rows of a pack from a payload offset on. -/
def deletePackObjectsFrom (c : Catalog R) (pack : PackName) (payloadOffset : ℕ) : Catalog R :=
  { c with objects := c.objects.filter fun _ l => !(l.pack = pack ∧ payloadOffset ≤ l.offset) }

/-- Drop the capture caches. -/
def forgetCaptureCaches (c : Catalog R) : Catalog R := { c with caches := [] }

/-- The rows of a pack. -/
def packRows (c : Catalog R) (pack : PackName) : List ObjectLocation :=
  (c.objects.toList.map Prod.snd).filter fun l => l.pack = pack

/-- The end of the furthest row of a pack, or 0. -/
def packHighWater (c : Catalog R) (pack : PackName) : ℕ :=
  ((c.packRows pack).map ObjectLocation.recordEnd).foldl max 0

/-- The number of rows of a pack that end at or before a length. -/
def packPrefixObjectCount (c : Catalog R) (pack : PackName) (verifiedLen : ℕ) : ℕ :=
  ((c.packRows pack).filter fun l => l.recordEnd ≤ verifiedLen).length

/-- The number of rows of a pack that start before a length and end after it. -/
def packCrossingObjectCount (c : Catalog R) (pack : PackName) (verifiedLen : ℕ) : ℕ :=
  ((c.packRows pack).filter fun l => l.offset < verifiedLen ∧ verifiedLen < l.recordEnd).length

/-! ## Rows -/

/-- The rows of a pack are the locations found under some identifier. -/
theorem mem_packRows {c : Catalog R} {pack : PackName} {l : ObjectLocation} :
    l ∈ c.packRows pack ↔ l.pack = pack ∧ ∃ id, c.object id = some l := by
  unfold packRows object
  simp only [List.mem_filter, List.mem_map, Prod.exists, exists_eq_right, decide_eq_true_eq,
    OrdMap.mem_toList_iff]
  exact and_comm

/-- The maximum of a list is at most a bound exactly when every member is. -/
private theorem foldl_max_le {l : List ℕ} {a n : ℕ} :
    l.foldl max a ≤ n ↔ a ≤ n ∧ ∀ x ∈ l, x ≤ n := by
  induction l generalizing a with
  | nil => simp
  | cons x l ih =>
    rw [List.foldl_cons, ih]
    simp only [List.mem_cons, forall_eq_or_imp, max_le_iff, and_assoc]

/-- The high water is at most a length exactly when every row ends by then. -/
theorem packHighWater_le_iff {c : Catalog R} {pack : PackName} {n : ℕ} :
    c.packHighWater pack ≤ n ↔ ∀ l ∈ c.packRows pack, l.recordEnd ≤ n := by
  unfold packHighWater
  rw [foldl_max_le]
  simp

/-- The objects of other packs stay. -/
@[simp] theorem object_resetPackIndex (c : Catalog R) (pack : PackName) (id : ObjectId) :
    (c.resetPackIndex pack).object id = (c.object id).filter fun l => l.pack ≠ pack :=
  OrdMap.get?_filter _ _ _

/-- The checkpoint of the pack is gone. -/
@[simp] theorem packCheckpoint_resetPackIndex (c : Catalog R) (pack : PackName) :
    (c.resetPackIndex pack).packCheckpoint pack = none := by
  simp [resetPackIndex, packCheckpoint, OrdMap.get?_erase]

/-- The objects of the pack from an offset on are gone. -/
@[simp] theorem object_deletePackObjectsFrom (c : Catalog R) (pack : PackName) (n : ℕ)
    (id : ObjectId) : (c.deletePackObjectsFrom pack n).object id =
      (c.object id).filter fun l => !(l.pack = pack ∧ n ≤ l.offset) :=
  OrdMap.get?_filter _ _ _

/-- A checkpoint changes no object. -/
@[simp] theorem object_setPackCheckpoint (c : Catalog R) (pack : PackName) (k : PackCheckpoint)
    (id : ObjectId) : (c.setPackCheckpoint pack k).object id = c.object id := rfl

/-- The checkpoint is the one that was set. -/
@[simp] theorem packCheckpoint_setPackCheckpoint (c : Catalog R) (pack : PackName)
    (k : PackCheckpoint) : (c.setPackCheckpoint pack k).packCheckpoint pack = some k := by
  simp [setPackCheckpoint, packCheckpoint, OrdMap.get?_insert]

/-- A row after an insertion: an old row stays. -/
theorem object_insertObject (c : Catalog R) (id id' : ObjectId) (l : ObjectLocation) :
    (c.insertObject id l).object id' =
      (c.object id').or (if id' = id then some l else none) := by
  unfold insertObject object
  cases h : c.objects.get? id with
  | some l' =>
    by_cases hid : id' = id
    · subst hid
      simp [h]
    · simp [hid]
  | none =>
    simp only [OrdMap.get?_insert]
    by_cases hid : id' = id
    · subst hid
      simp [h]
    · simp [hid]

/-- An object changes no checkpoint. -/
@[simp] theorem checkpoints_insertObject (c : Catalog R) (id : ObjectId) (l : ObjectLocation) :
    (c.insertObject id l).checkpoints = c.checkpoints := by
  unfold insertObject
  split <;> rfl

/-- An object changes no cache. -/
@[simp] theorem caches_insertObject (c : Catalog R) (id : ObjectId) (l : ObjectLocation) :
    (c.insertObject id l).caches = c.caches := by
  unfold insertObject
  split <;> rfl

end Catalog

end Furrow
