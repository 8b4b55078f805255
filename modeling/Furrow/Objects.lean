import Furrow.Lib.OrdMap
import Furrow.Model

set_option relaxedAutoImplicit false
set_option autoImplicit false

/-!
# The object table

The objects of a store by identifier.  An object is put only if its identifier is not there yet.

## Main definitions

* `Furrow.putObject`, `Furrow.putObjects` — put objects.
* `Furrow.collides` — objects that are not where their identifiers say.
* `Furrow.Object.refs`, `Furrow.Below` — what an object refers to, and all that is below it.

## Main results

* `Furrow.get?_putObjects_of_some` — what is in the store stays as it is.
-/

namespace Furrow

/-- Put an object into the store, unless it has one with this identifier. -/
def putObject (objects : OrdMap ObjectId Object) (p : ObjectId × Object) :
    OrdMap ObjectId Object :=
  if (objects.get? p.1).isSome then objects else objects.insert p.1 p.2

/-- Put some objects into the store. -/
def putObjects (objects : OrdMap ObjectId Object) (new : List (ObjectId × Object)) :
    OrdMap ObjectId Object :=
  new.foldl putObject objects

/-- An object of the store stays when others are put. -/
theorem get?_putObjects_of_some {objects : OrdMap ObjectId Object}
    (new : List (ObjectId × Object)) {id : ObjectId} {o : Object} (h : objects.get? id = some o) :
    (putObjects objects new).get? id = some o := by
  unfold putObjects
  induction new generalizing objects with
  | nil => exact h
  | cons p new ih =>
    apply ih
    unfold putObject
    split_ifs with hp
    · exact h
    · rw [OrdMap.get?_insert, if_neg]
      · exact h
      · intro hid
        rw [← hid, h] at hp
        exact hp rfl

/-- An object of the store was there or was put. -/
theorem mem_of_get?_putObjects {objects : OrdMap ObjectId Object}
    {new : List (ObjectId × Object)} {id : ObjectId} {o : Object}
    (h : (putObjects objects new).get? id = some o) :
    objects.get? id = some o ∨ (id, o) ∈ new := by
  unfold putObjects at h
  induction new generalizing objects with
  | nil => exact Or.inl h
  | cons p new ih =>
    rcases ih h with h | h
    · unfold putObject at h
      split_ifs at h with hp
      · exact Or.inl h
      · rw [OrdMap.get?_insert] at h
        split_ifs at h with hid
        · refine Or.inr ?_
          rw [hid, ← Option.some.inj h]
          exact List.mem_cons_self
        · exact Or.inl h
    · exact Or.inr (List.mem_cons_of_mem _ h)

/-- The pairs that put objects under their identifiers. -/
def withIds (idOf : Object → ObjectId) (os : List Object) : List (ObjectId × Object) :=
  os.map fun o => (idOf o, o)

/-- Some object is not under its identifier: there was another one. -/
def collides (idOf : Object → ObjectId) (objects : OrdMap ObjectId Object) (os : List Object) :
    Bool :=
  os.any fun o => objects.get? (idOf o) ≠ some o

/-! ## References -/

/-- What an entry of a tree refers to. -/
def TreeEntry.refs (entry : TreeEntry) : List ObjectId :=
  entry.xattrs.toList ++
    match entry.kind, entry.target with
    | .File, some target => [target]
    | .Directory, some target => [target]
    | _, _ => []

/-- What an object refers to, but for the snapshots that came before it. -/
def Object.refs : Object → List ObjectId
  | .snapshot s => s.rootTree :: s.sqliteBackups.map SqliteBackup.blob
  | .tree t => t.pages.map TreePage.target ++ t.entries.flatMap TreeEntry.refs
  | .blob b => b.chunks.map ChunkRef.id
  | .chunk _ | .xattrs _ => []

/-- An object and all that it refers to, directly or through others. -/
inductive Below (objects : OrdMap ObjectId Object) (root : ObjectId) : ObjectId → Prop
  | root : Below objects root root
  | ref {id r : ObjectId} {o : Object} (h : Below objects root id)
      (ho : objects.get? id = some o) (hr : r ∈ o.refs) : Below objects root r

end Furrow
