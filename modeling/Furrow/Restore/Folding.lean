import Mathlib
import Furrow.Lib.SepOrder
import Furrow.Shrink

set_option relaxedAutoImplicit false
set_option autoImplicit false

/-!
# Rewind where names are folded

`plan_rewind` and `apply_plan_at_with_file_sync` on a file system that finds an entry by the key of
its name, however it is spelled.  The plan holds back what is changed and has a twin in its
directory that sorts first (`colliding_paths`).  Twins are looked for in the target only: a path of
the workspace with another spelling is removed, and with it what was just written.

The calls fail only where something is in their way.  There are regular files and directories only,
without hard links; nothing is excluded, and the whole workspace is rewound.  The content of a file
stands for the objects that hold it.  `Furrow.Agreement` compares this model with the others.

## Main definitions

* `Furrow.Folding.Tree`, `Furrow.Folding.Current` — trees of spelled paths; in the second one, names
  differ by their keys.
* `Furrow.Folding.Rewind.restores`, `Furrow.Folding.Rewind.removals`, `Furrow.Folding.Rewind.held` —
  the plan.
* `Furrow.Folding.Rewind.apply` — the loops, over a disk of keys.
* `Furrow.Folding.Rewind.Clear` — no path that stays in the plan meets another.

## Main results

* `Furrow.Folding.Rewind.present_of_clear` — where paths do not meet, all of the target is there.
* `Furrow.Folding.Rewind.restores_iff` — and only there.
-/

namespace Furrow

namespace Folding

/-- The names that lead to an object. -/
abbrev Slot := List Bytes

/-- An object and its attributes. -/
abbrev Look := DiskNode × List (Bytes × Bytes)

/-- Directories and regular files, by their spelled paths. -/
structure Tree where
  entries : OrdMap Slot Look
  plain :
    ∀ p node, entries.get? p = some node →
    (∃ content mode mtime, node.1 = .file content mode mtime) ∨ node.1.isDir = true
  named : ∀ p node, entries.get? p = some node → p ≠ [] ∧ ∀ n ∈ p, normalName n = true
  housed : ∀ p node, entries.get? p = some node → ∀ q, q ≠ [] → q <+: p → q ≠ p →
    ∃ dir, entries.get? q = some dir ∧ dir.1.isDir = true

/-- The key of every name of a path. -/
def fold (key : Bytes → Bytes) (p : Slot) : List Bytes := p.map key

/-- What a folding file system can hold: one entry for every key. -/
structure Current (key : Bytes → Bytes) extends Tree where
  single : ∀ p q node node', entries.get? p = some node → entries.get? q = some node' →
    fold key p = fold key q → p = q

namespace Tree

variable (t : Tree)

/-- What is at a path. -/
def get? (p : Slot) : Option Look := t.entries.get? p

/-- All paths, in their bytewise order. -/
def paths : List Slot := t.entries.keys.insertionSort fun p q =>
    Shrink.joinPath p ≤ Shrink.joinPath q

end Tree

/-- The objects of a disk, by the keys that lead to them. -/
abbrev Disk := List Bytes → Option Look

/-- A rewind: how names are folded, what is there, and what is wanted. -/
structure Rewind where
  key : Bytes → Bytes
  now : Current key
  target : Tree

namespace Rewind

variable (x : Rewind)

/-! ## The plan -/

/-- Whether the entry of a path has changed, or that of something in it (`diff_directory`). -/
def changed (p : Slot) : Bool :=
  (x.now.paths ++ x.target.paths).any fun q =>
    p.isPrefixOf q && decide (x.now.get? q ≠ x.target.get? q)

/-- The name that is kept of those with the same key: the first in the tree (`kept_names`). -/
def keptTwin (p : Slot) : Slot :=
  (x.target.entries.keys.filter fun q =>
    q.dropLast = p.dropLast ∧ x.key (q.getLastD []) = x.key (p.getLastD [])).headD p

/-- The changed paths that have to stay behind another one (`colliding_paths`). -/
def held : List Slot := x.target.paths.filter fun p => x.changed p && decide (x.keptTwin p ≠ p)

/-- A path is held, or in one that is (`covers`). -/
def covered (p : Slot) : Bool := x.held.any fun h => h.isPrefixOf p

/-- The paths of the target that the plan changes. -/
def restores : List Slot := x.target.paths.filter fun p => x.changed p && !x.covered p

/-- The target has a directory at a path. -/
def isDirectory (p : Slot) : Bool := (x.target.get? p).any fun node => node.1.isDir

/-- The directories that are restored. -/
def restoredDirs : List Slot := x.restores.filter x.isDirectory

/-- The files that are restored. -/
def restoredFiles : List Slot := x.restores.filter fun p => !x.isDirectory p

/-- The paths to be removed, longest first. -/
def removals : List Slot :=
  (x.now.paths.filter fun p => (x.target.get? p).isNone && !x.covered p).insertionSort fun p q =>
    (Shrink.joinPath q).length ≤ (Shrink.joinPath p).length

/-! ## The disk -/

/-- Where a path is on the disk: under the keys of its names. -/
def at_ (p : Slot) : List Bytes := fold x.key p

/-- The disk before the rewind. -/
def disk : Disk := fun f =>
    (x.now.entries.toList.find? fun e => decide (x.at_ e.1 = f)).map Prod.snd

/-- A directory is under these keys. -/
def dirAt (s : Disk) (f : List Bytes) : Bool := (s f).any fun node => node.1.isDir

/-- `remove_path`: a directory with all that is in it. -/
def removePath (s : Disk) (f : List Bytes) : Disk :=
  if dirAt s f then fun g => if f.isPrefixOf g then none else s g
  else fun g => if g = f then none else s g

/-- A directory that is not there is made; a file is in the way. -/
def mkdir (s : Disk) (f : List Bytes) : Option Disk :=
  match s f with
  | none => some (Function.update s f (some (.directory 493 (0, 0), [])))
  | some node => if node.1.isDir then some s else none

/-- `create_dir_all` -/
def createDirAll (s : Disk) (f : List Bytes) : Option Disk :=
  ((f.dropLast.inits ++ [f]).filter fun g => g ≠ []).foldlM mkdir s

/-- Change the object at a place. -/
def modify (s : Disk) (f : List Bytes) (g : DiskNode → DiskNode) : Disk :=
  Function.update s f ((s f).map fun node => (g node.1, node.2))

/-- The first loop, for one directory. -/
def makeDirectory (s : Disk) (p : Slot) : Option Disk :=
  match x.target.get? p with
  | some (.directory mode _, _) =>
    let s := if (s (x.at_ p)).isSome ∧ dirAt s (x.at_ p) = false then removePath s (x.at_ p) else s
    (createDirAll s (x.at_ p)).map fun s => modify s (x.at_ p) (DiskNode.setMode (mode ||| 448))
  | _ => some s

/-- The second loop, for one file. -/
def writeFile (s : Disk) (p : Slot) : Option Disk :=
  match x.target.get? p with
  | some node =>
    (createDirAll s (x.at_ p.dropLast)).map fun s =>
      Function.update (if dirAt s (x.at_ p) then removePath s (x.at_ p)
        else s) (x.at_ p) (some node)
  | none => some s

/-- The third loop, for one path. -/
def removeEntry (s : Disk) (p : Slot) : Disk :=
  if (s (x.at_ p)).isSome then removePath s (x.at_ p) else s

/-- The last loop, for one directory, which must be there. -/
def finishEntry (s : Disk) (p : Slot) : Option Disk :=
  match x.target.get? p, s (x.at_ p) with
  | some (.directory mode mtime, _), some _ =>
    some (modify (modify s (x.at_ p) (DiskNode.setMode mode)) (x.at_ p) (DiskNode.setMtime mtime))
  | some (.directory _ _, _), none => none
  | _, _ => some s

/-- **Apply the plan.** -/
def apply : Option Disk := do
  let s ← x.restoredDirs.foldlM x.makeDirectory x.disk
  let s ← x.restoredFiles.foldlM x.writeFile s
  x.restoredDirs.reverse.foldlM x.finishEntry (x.removals.foldl x.removeEntry s)

/-! ## What is wanted -/

/-- A path of the target that is not held, nor in one that is. -/
def Free (p : Slot) : Prop := x.target.get? p ≠ none ∧ x.covered p = false

/-- The content of the target is at a place: a file as it was, or a directory. -/
def Holds (node : Look) (found : Option Look) : Prop :=
  if node.1.isDir then ∃ dir, found = some dir ∧ dir.1.isDir = true else found = some node

/-- A path of the target is there. -/
def Present (s : Disk) (p : Slot) : Prop := ∀ node, x.target.get? p = some node → Holds node
    (s (x.at_ p))

/-- **The rewind does what it should**: it comes to its end, and every free path is there. -/
def Restores : Prop := ∃ s, x.apply = some s ∧ ∀ p, x.Free p → x.Present s p

/-- Two objects are directories both, or the same file. -/
def Agree (node node' : Look) : Prop := node.1.isDir = true ∧ node'.1.isDir = true ∨ node = node'

/-- No free path has the keys of a path that the plan removes; free paths with the same keys are
directories both, or the same files. -/
def Clear : Prop :=
  ∀ p, x.Free p →
    (∀ q, x.now.get? q ≠ none → x.target.get? q = none → x.covered q = false → x.at_ q ≠ x.at_ p) ∧
    ∀ p', x.Free p' → x.at_ p' = x.at_ p → ∀ node node', x.target.get? p = some node →
      x.target.get? p' = some node' → Agree node node'

/-! ## Paths -/

section Paths

/-- A path with more names, joined. -/
theorem joinPath_append {p : Slot} {c : Bytes} {r : Slot} (hp : p ≠ []) :
    Shrink.joinPath (p ++ c :: r) = Shrink.joinPath p ++ slash :: Shrink.joinPath (c :: r) := by
  induction p with
  | nil => exact absurd rfl hp
  | cons a p ih =>
    cases p with
    | nil =>
      unfold Shrink.joinPath
      simp [List.intercalate]
    | cons b p =>
      have hcons : ∀ rest :
          Slot, Shrink.joinPath (a :: b :: rest) = a ++ slash :: Shrink.joinPath (b :: rest) := by
        intro rest
        unfold Shrink.joinPath
        simp [List.intercalate]
      rw [List.cons_append, List.cons_append, hcons, hcons, ← List.cons_append,
        ih (List.cons_ne_nil b p), List.append_assoc, List.cons_append]

/-- What a path is in comes before it. -/
theorem joinPath_lt {p q : Slot} (hp : p ≠ []) (hpre : p <+: q) (hne : p ≠ q) :
    Shrink.joinPath p < Shrink.joinPath q := by
  obtain ⟨rest, rfl⟩ := hpre
  cases rest with
  | nil => exact absurd (List.append_nil p).symm hne
  | cons c r =>
    rw [joinPath_append hp]
    exact SepOrder.lt_append_cons _ _ _

variable {t : Tree} {p q : Slot} {node : Look}

/-- The paths of a tree are those where something is. -/
theorem Tree.mem_paths : p ∈ t.paths ↔ t.get? p ≠ none := by
  unfold Tree.paths Tree.get?
  rw [List.mem_insertionSort, OrdMap.mem_keys_iff, Option.isSome_iff_ne_none]

/-- They are in their order. -/
theorem Tree.sorted_paths : t.paths.Pairwise fun p q => Shrink.joinPath p ≤ Shrink.joinPath q :=
  List.pairwise_insertionSort _ _

/-- What is above a path is a directory. -/
theorem Tree.above (h : t.get? p = some node) (hq : q ≠ []) (hpre : q <+: p) (hne : q ≠ p) :
    ∃ dir, t.get? q = some dir ∧ dir.1.isDir = true := t.housed p node h q hq hpre hne

end Paths

section Facts

variable {x : Rewind} {p q : Slot} {node : Look} {s : Disk}

/-- What is below a held path is held too. -/
theorem covered_of_prefix (hpre : q <+: p) (h : x.covered q = true) : x.covered p = true := by
  unfold covered at h ⊢
  obtain ⟨e, he, hpq⟩ := List.any_eq_true.mp h
  exact List.any_eq_true.mpr ⟨e, he,
    List.isPrefixOf_iff_prefix.mpr ((List.isPrefixOf_iff_prefix.mp hpq).trans hpre)⟩

/-- What is above a free path is a free directory. -/
theorem Free.above (h : x.Free p) (hq : q ≠ []) (hpre : q <+: p) (hne : q ≠ p) :
    x.Free q ∧ x.isDirectory q = true := by
  obtain ⟨node, hnode⟩ := Option.ne_none_iff_exists'.mp h.1
  obtain ⟨dir, hdir, hisDir⟩ := Tree.above hnode hq hpre hne
  refine ⟨⟨by rw [hdir]; simp, ?_⟩, ?_⟩
  · by_contra hcovered
    have hp := covered_of_prefix hpre (by simpa using hcovered)
    rw [h.2] at hp
    exact absurd hp (by simp)
  · unfold isDirectory
    rw [hdir]
    exact hisDir

/-- Keys follow the names. -/
theorem at_mono (hpre : q <+: p) : x.at_ q <+: x.at_ p := hpre.map _

/-- A place above that of a path is that of a path above it. -/
theorem exists_above {f : List Bytes} (hpre : f <+: x.at_ p) : ∃ q, q <+: p ∧ x.at_ q = f := by
  refine ⟨p.take f.length, List.take_prefix _ _, ?_⟩
  unfold at_ fold
  rw [List.map_take]
  exact (List.prefix_iff_eq_take.mp hpre).symm

/-- Only the root has no keys. -/
theorem at_ne_nil (h : p ≠ []) : x.at_ p ≠ [] := by
  unfold at_ fold
  simpa using h

/-- A directory is an object of that kind. -/
theorem dirAt_iff {f : List Bytes} :
    dirAt s f = true ↔ ∃ node, s f = some node ∧ node.1.isDir = true := by
  unfold dirAt
  rw [Option.any_eq_true]

/-- A directory is present if one is under its keys. -/
theorem present_dir (hp : x.target.get? p = some node) (hdir : node.1.isDir = true) :
    x.Present s p ↔ dirAt s (x.at_ p) = true := by
  unfold Present
  rw [dirAt_iff]
  constructor
  · intro h
    have hholds := h node hp
    unfold Holds at hholds
    rwa [if_pos hdir] at hholds
  · intro h node' hp'
    rw [hp] at hp'
    unfold Holds
    rw [← Option.some.inj hp', if_pos hdir]
    exact h

/-- A file is present if it is under its keys. -/
theorem present_file (hp : x.target.get? p = some node) (hdir : node.1.isDir = false) :
    x.Present s p ↔ s (x.at_ p) = some node := by
  unfold Present
  constructor
  · intro h
    have hholds := h node hp
    unfold Holds at hholds
    rwa [if_neg (by rw [hdir]; simp)] at hholds
  · intro h node' hp'
    rw [hp] at hp'
    unfold Holds
    rw [← Option.some.inj hp', if_neg (by rw [hdir]; simp)]
    exact h

/-- A directory of the target is an object of that kind. -/
theorem isDirectory_iff :
    x.isDirectory p = true ↔ ∃ node, x.target.get? p = some node ∧ node.1.isDir = true := by
  unfold isDirectory
  rw [Option.any_eq_true]

/-- What is left alone is there. -/
theorem disk_of_now (h : x.now.get? p = some node) : x.disk (x.at_ p) = some node := by
  unfold disk
  have hmem : (p, node) ∈ x.now.entries.toList := (OrdMap.mem_toList_iff _).mpr h
  obtain ⟨e, he⟩ :
      ∃ e, x.now.entries.toList.find? (fun e => decide (x.at_ e.1 = x.at_ p)) = some e :=
    Option.isSome_iff_exists.mp (List.find?_isSome.mpr ⟨(p, node), hmem, by simp⟩)
  have hfold : x.at_ e.1 = x.at_ p := by simpa using List.find?_some he
  have hget : x.now.entries.get? e.1 = some e.2 :=
    (OrdMap.mem_toList_iff _).mp (List.mem_of_find?_eq_some he)
  have hep : e.1 = p := x.now.single e.1 p e.2 node hget h hfold
  rw [he, Option.map_some]
  rw [hep] at hget
  rw [← hget]
  exact h

/-- A path that has not changed is in the workspace as in the target. -/
theorem unchanged_get (hp : x.target.get? p ≠ none) (h : x.changed p = false) :
    x.now.get? p = x.target.get? p := by
  unfold changed at h
  rw [List.any_eq_false] at h
  by_contra hne
  refine h p (List.mem_append_right _ (Tree.mem_paths.mpr hp)) ?_
  rw [Bool.and_eq_true, decide_eq_true_eq, List.isPrefixOf_iff_prefix]
  exact ⟨List.prefix_refl p, hne⟩

/-- The free paths that have changed are restored. -/
theorem mem_restores : p ∈ x.restores ↔ x.Free p ∧ x.changed p = true := by
  unfold restores Free
  rw [List.mem_filter, Tree.mem_paths, Bool.and_eq_true, Bool.not_eq_true']
  tauto

/-- A path that has not changed is present before the plan is applied. -/
theorem present_of_unchanged (hp : x.Free p) (h : x.changed p = false) : x.Present x.disk p := by
  obtain ⟨node, hnode⟩ := Option.ne_none_iff_exists'.mp hp.1
  have hdisk : x.disk (x.at_ p) = some node := disk_of_now ((unchanged_get hp.1 h).trans hnode)
  cases hdir : node.1.isDir with
  | true => exact (present_dir hnode hdir).mpr (dirAt_iff.mpr ⟨node, hdisk, hdir⟩)
  | false => exact (present_file hnode hdir).mpr hdisk

end Facts

/-! ## One call -/

section Calls

variable {s : Disk} {f : List Bytes}

/-- Directories that are there are not made. -/
theorem foldlM_mkdir {l : List (List Bytes)} (h : ∀ g ∈ l, dirAt s g = true) :
    l.foldlM mkdir s = some s := by
  induction l with
  | nil => rfl
  | cons g l ih =>
    obtain ⟨node, hnode, hdir⟩ := dirAt_iff.mp (h g List.mem_cons_self)
    have hmkdir : mkdir s g = some s := by
      unfold mkdir
      rw [hnode]
      exact if_pos hdir
    rw [List.foldlM_cons, hmkdir]
    exact ih fun g hg => h g (List.mem_cons_of_mem _ hg)

/-- Where the directories above are there, only the last one is made. -/
theorem createDirAll_of_above (hf : f ≠ []) (h : ∀ g, g ≠ [] → g <+: f → g ≠ f → dirAt s g = true) :
    createDirAll s f = mkdir s f := by
  have hlist : ∀ g ∈ f.dropLast.inits.filter fun g => g ≠ [], dirAt s g = true := by
    intro g hg
    rw [List.mem_filter, List.mem_inits, decide_eq_true_eq] at hg
    refine h g hg.2 (hg.1.trans (List.dropLast_prefix f)) ?_
    rintro rfl
    have hlen := hg.1.length_le
    rw [List.length_dropLast] at hlen
    have hpos := List.length_pos_of_ne_nil hf
    omega
  have hlast : ([f].filter fun g => g ≠ []) = [f] := by simp [hf]
  unfold createDirAll
  rw [List.filter_append, hlast, List.foldlM_append, foldlM_mkdir hlist]
  change (do let s' ← some s; [f].foldlM mkdir s') = mkdir s f
  simp

/-- Directories above a path that are all there are not made. -/
theorem createDirAll_of_dirs (h : ∀ g, g ≠ [] → g <+: f → dirAt s g = true) :
    createDirAll s f = some s := by
  by_cases hf : f = []
  · rw [hf]
    rfl
  · rw [createDirAll_of_above hf fun g hg hpre _ => h g hg hpre]
    obtain ⟨node, hnode, hdir⟩ := dirAt_iff.mp (h f hf (List.prefix_refl f))
    unfold mkdir
    rw [hnode]
    exact if_pos hdir

/-- A change that keeps kinds keeps directories. -/
theorem dirAt_modify {g : DiskNode → DiskNode} (hg : ∀ node, (g node).isDir = node.isDir)
    (e : List Bytes) : dirAt (modify s f g) e = dirAt s e := by
  unfold dirAt modify
  by_cases he : e = f
  · rw [he, Function.update_self, Option.any_map]
    cases s f with
    | none => rfl
    | some node => exact hg node.1
  · rw [Function.update_of_ne he]

/-- Other keys are left alone. -/
theorem modify_of_ne {g : DiskNode → DiskNode} {e : List Bytes} (he : e ≠ f) :
    modify s f g e = s e :=
  Function.update_of_ne he _ _

variable {x : Rewind} {p : Slot} {node : Look}

/-- **The first loop**, for one directory: only its place changes. -/
theorem makeDirectory_spec (hp : x.target.get? p = some node) (hdir : node.1.isDir = true)
    (hne : p ≠ []) (habove : ∀ g, g ≠ [] → g <+: x.at_ p → g ≠ x.at_ p → dirAt s g = true) :
    ∃ s', x.makeDirectory s p = some s' ∧ dirAt s' (x.at_ p) = true ∧ ∀ f, f ≠ x.at_ p →
    s' f = s f := by
  have hat : x.at_ p ≠ [] := at_ne_nil hne
  obtain ⟨node, xattrs⟩ := node
  cases node with
  | directory mode mtime =>
    unfold makeDirectory
    rw [hp]
    dsimp only
    -- What is no directory goes.
    have hclear : ∀ s₁, s₁ = (if (s (x.at_ p)).isSome = true ∧ dirAt s (x.at_ p) = false
        then removePath s (x.at_ p) else s) →
        (∀ f, f ≠ x.at_ p → s₁ f = s f) ∧ (s₁ (x.at_ p) = none ∨ dirAt s₁ (x.at_ p) = true) := by
      rintro s₁ rfl
      split_ifs with hfile
      · unfold removePath
        rw [if_neg (by rw [hfile.2]; simp)]
        exact ⟨fun f hf => if_neg hf, Or.inl (if_pos rfl)⟩
      · refine ⟨fun _ _ => rfl, ?_⟩
        cases hthere : s (x.at_ p) with
        | none => exact Or.inl rfl
        | some node =>
          right
          rw [hthere] at hfile
          simpa using hfile
    obtain ⟨hsame, hopen⟩ := hclear _ rfl
    generalize (if (s (x.at_ p)).isSome = true ∧ dirAt s (x.at_ p) = false
      then removePath s (x.at_ p) else s) = s₁ at hsame hopen
    have habove₁ : ∀ g, g ≠ [] → g <+: x.at_ p → g ≠ x.at_ p → dirAt s₁ g = true := by
      intro g hg hpre hgp
      unfold dirAt
      rw [hsame g hgp]
      exact habove g hg hpre hgp
    rw [createDirAll_of_above hat habove₁]
    have hmade : ∃ s₂, mkdir s₁ (x.at_ p) = some s₂ ∧ dirAt s₂ (x.at_ p) = true ∧
        ∀ f, f ≠ x.at_ p → s₂ f = s₁ f := by
      rcases hopen with hnone | hdirAt
      · refine ⟨_, by unfold mkdir; rw [hnone], ?_, fun f hf => Function.update_of_ne hf _ _⟩
        unfold dirAt
        rw [Function.update_self]
        rfl
      · obtain ⟨node, hnode, hisDir⟩ := dirAt_iff.mp hdirAt
        refine ⟨s₁, ?_, hdirAt, fun _ _ => rfl⟩
        unfold mkdir
        rw [hnode]
        exact if_pos hisDir
    obtain ⟨s₂, hmkdir, hdirAt, hsame₂⟩ := hmade
    rw [hmkdir, Option.map_some]
    refine ⟨_, rfl, ?_, fun f hf => ?_⟩
    · rw [dirAt_modify fun node => by cases node <;> rfl]
      exact hdirAt
    · rw [modify_of_ne hf, hsame₂ f hf, hsame f hf]
  | file content mode mtime => exact absurd hdir (by simp [DiskNode.isDir])
  | link target mtime => exact absurd hdir (by simp [DiskNode.isDir])
  | fifo mode mtime => exact absurd hdir (by simp [DiskNode.isDir])

/-- **The second loop**, for one file: what changes is at its place, or below it. -/
theorem writeFile_spec (hp : x.target.get? p = some node)
    (habove : ∀ g, g ≠ [] → g <+: x.at_ p.dropLast → dirAt s g = true) :
    ∃ s', x.writeFile s p = some s' ∧ s' (x.at_ p) = some node ∧
      ∀ f, ¬ x.at_ p <+: f → s' f = s f := by
  unfold writeFile
  rw [hp]
  dsimp only
  rw [createDirAll_of_dirs habove, Option.map_some]
  refine ⟨_, rfl, Function.update_self _ _ _, fun f hf => ?_⟩
  have hne : f ≠ x.at_ p := by
    rintro rfl
    exact hf (List.prefix_refl _)
  rw [Function.update_of_ne hne]
  split_ifs with hdir
  · unfold removePath
    rw [if_pos hdir]
    exact if_neg fun hpre => hf (List.isPrefixOf_iff_prefix.mp hpre)
  · rfl

/-- **The third loop**, for one path: it goes, and what is below it. -/
theorem removeEntry_spec (p : Slot) (s : Disk) :
    x.removeEntry s p (x.at_ p) = none ∧ (∀ f, ¬ x.at_ p <+: f → x.removeEntry s p f = s f) ∧
      ∀ f, s f = none → x.removeEntry s p f = none := by
  unfold removeEntry
  split_ifs with hsome
  · unfold removePath
    split_ifs with hdir
    · refine ⟨if_pos (List.isPrefixOf_iff_prefix.mpr (List.prefix_refl _)),
        fun f hf => ?_, fun f hf => ?_⟩
      · exact if_neg fun hpre => hf (List.isPrefixOf_iff_prefix.mp hpre)
      · dsimp only
        rw [hf]
        split_ifs <;> rfl
    · refine ⟨if_pos rfl, fun f hf => if_neg ?_, fun f hf => ?_⟩
      · rintro rfl
        exact hf (List.prefix_refl _)
      · dsimp only
        rw [hf]
        split_ifs <;> rfl
  · exact ⟨by simpa using hsome, fun _ _ => rfl, fun _ h => h⟩

/-- **The last loop**, for one directory: it stays one, and nothing appears. -/
theorem finishEntry_spec {s' : Disk} (h : x.finishEntry s p = some s') :
    (∀ f, f ≠ x.at_ p → s' f = s f) ∧ (∀ f, s f = none → s' f = none) ∧
    ∀ f, dirAt s' f = dirAt s f := by
  have hmodify : ∀ (s : Disk) (g : DiskNode → DiskNode) (f : List Bytes), s f = none →
      modify s (x.at_ p) g f = none := by
    intro s g f hf
    by_cases hfp : f = x.at_ p
    · unfold modify
      rw [hfp] at hf ⊢
      rw [Function.update_self, hf]
      rfl
    · rw [modify_of_ne hfp, hf]
  unfold finishEntry at h
  split at h
  · rw [← Option.some.inj h]
    refine ⟨fun f hf => ?_, fun f hf => hmodify _ _ _ (hmodify _ _ _ hf), fun f => ?_⟩
    · rw [modify_of_ne hf, modify_of_ne hf]
    · rw [dirAt_modify fun node => by cases node <;> rfl,
        dirAt_modify fun node => by cases node <;> rfl]
  · exact absurd h (by simp)
  · rw [← Option.some.inj h]
    exact ⟨fun _ _ => rfl, fun _ h => h, fun _ => rfl⟩

/-- A directory that is there can be finished. -/
theorem finishEntry_some (hdir : dirAt s (x.at_ p) = true) : ∃ s', x.finishEntry s p = some s' := by
  obtain ⟨node, hnode, -⟩ := dirAt_iff.mp hdir
  unfold finishEntry
  rw [hnode]
  split
  · exact ⟨_, rfl⟩
  · rename_i heq
    exact absurd heq (by simp)
  · exact ⟨_, rfl⟩

end Calls

/-! ## The loops -/

section Loops

variable {x : Rewind} {p q : Slot} {s : Disk}

/-- Free paths with the same keys are of the same kind. -/
theorem Clear.isDirectory_eq (h : x.Clear) (hp : x.Free p) (hq : x.Free q)
    (hat : x.at_ q = x.at_ p) : x.isDirectory q = x.isDirectory p := by
  obtain ⟨node, hnode⟩ := Option.ne_none_iff_exists'.mp hp.1
  obtain ⟨node', hnode'⟩ := Option.ne_none_iff_exists'.mp hq.1
  unfold isDirectory
  rw [hnode, hnode', Option.any_some, Option.any_some]
  rcases (h p hp).2 q hq hat node node' hnode hnode' with ⟨hdir, hdir'⟩ | heq
  · rw [hdir, hdir']
  · rw [heq]

/-- No free path is below the place of a free file. -/
theorem Clear.at_eq_of_prefix (h : x.Clear) (hp : x.Free p) (hfile : x.isDirectory p = false)
    (hq : x.Free q) (hpre : x.at_ p <+: x.at_ q) : x.at_ q = x.at_ p := by
  obtain ⟨r, hr, hat⟩ := exists_above hpre
  by_cases hrq : r = q
  · rw [← hrq, hat]
  · obtain ⟨node, hnode⟩ := Option.ne_none_iff_exists'.mp hp.1
    have hpne : p ≠ [] := (x.target.named p node hnode).1
    have hrne : r ≠ [] := by
      rintro rfl
      exact at_ne_nil (x := x) hpne (by rw [← hat]; rfl)
    obtain ⟨hfree, hdir⟩ := hq.above hrne hr hrq
    rw [h.isDirectory_eq hp hfree hat, hfile] at hdir
    exact absurd hdir (by simp)

/-- Where a free path is there, it still is after a change somewhere else. -/
theorem Present.of_eq {s' : Disk} (h : x.Present s p) (hsame : s' (x.at_ p) = s (x.at_ p)) :
    x.Present s' p := by
  unfold Present at h ⊢
  rw [hsame]
  exact h

/-- A directory that is present is under its keys. -/
theorem dirAt_of_present (hdir : x.isDirectory p = true) (h : x.Present s p) :
    dirAt s (x.at_ p) = true := by
  obtain ⟨node, hnode, hisDir⟩ := isDirectory_iff.mp hdir
  exact (present_dir hnode hisDir).mp h

/-- A directory under the keys of a path makes it present. -/
theorem present_of_dirAt (hdir : x.isDirectory p = true) (h : dirAt s (x.at_ p) = true) :
    x.Present s p := by
  obtain ⟨node, hnode, hisDir⟩ := isDirectory_iff.mp hdir
  exact (present_dir hnode hisDir).mpr h

/-- Directories that are there lead to a path. -/
theorem dirAt_above (hp : x.Free p) (hthere : ∀ q, q ≠ [] → q <+: p → q ≠ p → x.Present s q)
    {f : List Bytes} (hf : f ≠ []) (hpre : f <+: x.at_ p) (hne : f ≠ x.at_ p) :
    dirAt s f = true := by
  obtain ⟨q, hq, rfl⟩ := exists_above hpre
  have hqp : q ≠ p := by
    rintro rfl
    exact hne rfl
  have hqne : q ≠ [] := by
    rintro rfl
    exact hf rfl
  exact dirAt_of_present (hp.above hqne hq hqp).2 (hthere q hqne hq hqp)

/-- **After the first loop** the directories are there, and files that are to be left alone. -/
theorem makeDirectories (hclear : x.Clear) {l : List Slot}
    (hl : ∀ p ∈ l, x.Free p ∧ x.isDirectory p = true)
    (hsorted : l.Pairwise fun p q => Shrink.joinPath p ≤ Shrink.joinPath q)
    (hdirs : ∀ p, x.Free p → x.isDirectory p = true → p ∉ l → x.Present s p)
    (hfiles : ∀ p, x.Free p → x.isDirectory p = false → x.changed p = false → x.Present s p) :
    ∃ s', l.foldlM x.makeDirectory s = some s' ∧
      (∀ p, x.Free p → x.isDirectory p = true → x.Present s' p) ∧
      ∀ p, x.Free p → x.isDirectory p = false → x.changed p = false → x.Present s' p := by
  induction l generalizing s with
  | nil => exact ⟨s, rfl, fun p hp hd => hdirs p hp hd List.not_mem_nil, hfiles⟩
  | cons p l ih =>
    obtain ⟨hp, hdir⟩ := hl p List.mem_cons_self
    obtain ⟨hfirst, hsorted'⟩ := List.pairwise_cons.mp hsorted
    obtain ⟨node, hnode, hisDir⟩ := isDirectory_iff.mp hdir
    have hne : p ≠ [] := (x.target.named p node hnode).1
    -- What is above the path comes before it, so that it has been made.
    have hthere : ∀ q, q ≠ [] → q <+: p → q ≠ p → x.Present s q := by
      intro q hq hpre hqp
      obtain ⟨hfree, hdirq⟩ := hp.above hq hpre hqp
      refine hdirs q hfree hdirq fun hmem => ?_
      have hlt := joinPath_lt hq hpre hqp
      rcases List.mem_cons.mp hmem with heq | hmem
      · exact hqp heq
      · exact absurd hlt (not_lt_of_ge (hfirst q hmem))
    obtain ⟨s₁, hmake, hmade, hsame⟩ := makeDirectory_spec hnode hisDir hne fun f hf hpre hfp =>
      dirAt_above hp hthere hf hpre hfp
    rw [List.foldlM_cons, hmake]
    refine ih (fun q hq => hl q (List.mem_cons_of_mem _ hq)) hsorted' (fun q hq hd hmem => ?_)
      fun q hq hf hch => ?_
    · by_cases hat : x.at_ q = x.at_ p
      · exact present_of_dirAt hd (hat.symm ▸ hmade)
      · by_cases hqp : q = p
        · exact absurd (congrArg x.at_ hqp) hat
        · refine (hdirs q hq hd fun hm => ?_).of_eq (hsame _ hat)
          exact (List.mem_cons.mp hm).elim hqp hmem
    · have hat : x.at_ q ≠ x.at_ p := by
        intro hat
        rw [hclear.isDirectory_eq hp hq hat, hdir] at hf
        exact absurd hf (by simp)
      exact (hfiles q hq hf hch).of_eq (hsame _ hat)

/-- **After the second loop** the files are there too. -/
theorem writeFiles (hclear : x.Clear) {l : List Slot}
    (hl : ∀ p ∈ l, x.Free p ∧ x.isDirectory p = false)
    (hdirs : ∀ p, x.Free p → x.isDirectory p = true → x.Present s p)
    (hfiles : ∀ p, x.Free p → x.isDirectory p = false → p ∉ l → x.Present s p) :
    ∃ s', l.foldlM x.writeFile s = some s' ∧ ∀ p, x.Free p → x.Present s' p := by
  induction l generalizing s with
  | nil =>
    refine ⟨s, rfl, fun p hp => ?_⟩
    cases hd : x.isDirectory p with
    | true => exact hdirs p hp hd
    | false => exact hfiles p hp hd List.not_mem_nil
  | cons p l ih =>
    obtain ⟨hp, hfile⟩ := hl p List.mem_cons_self
    obtain ⟨node, hnode⟩ := Option.ne_none_iff_exists'.mp hp.1
    have hthere : ∀ q, q ≠ [] → q <+: p → q ≠ p → x.Present s q := fun q hq hpre hqp =>
      hdirs q (hp.above hq hpre hqp).1 (hp.above hq hpre hqp).2
    have hne : p ≠ [] := (x.target.named p node hnode).1
    obtain ⟨s₁, hwrite, hwritten, hsame⟩ := writeFile_spec hnode (s := s) (fun f hf hpre => by
      have hlen : f.length < (x.at_ p).length := by
        have hle := hpre.length_le
        unfold at_ fold at hle ⊢
        rw [List.length_map, List.length_dropLast] at hle
        rw [List.length_map]
        have hpos := List.length_pos_of_ne_nil hne
        omega
      refine dirAt_above hp hthere hf (hpre.trans (at_mono (List.dropLast_prefix p))) ?_
      rintro rfl
      exact absurd hlen (lt_irrefl _))
    have hstill : ∀ q, x.Free q → x.Present s q → x.at_ q ≠ x.at_ p → x.Present s₁ q := by
      intro q hq hpresent hat
      refine hpresent.of_eq (hsame _ fun hpre => ?_)
      exact hat (hclear.at_eq_of_prefix hp hfile hq hpre)
    rw [List.foldlM_cons, hwrite]
    refine ih (fun q hq => hl q (List.mem_cons_of_mem _ hq)) (fun q hq hd => ?_)
      fun q hq hf hmem => ?_
    · refine hstill q hq (hdirs q hq hd) fun hat => ?_
      rw [hclear.isDirectory_eq hp hq hat, hfile] at hd
      exact absurd hd (by simp)
    · by_cases hat : x.at_ q = x.at_ p
      · -- A file with the same keys is the same file.
        obtain ⟨node', hnode'⟩ := Option.ne_none_iff_exists'.mp hq.1
        have hnotDir : node'.1.isDir = false := by
          unfold isDirectory at hf
          rw [hnode'] at hf
          exact hf
        refine (present_file hnode' hnotDir).mpr ?_
        rcases (hclear p hp).2 q hq hat node node' hnode hnode' with ⟨-, hd⟩ | heq
        · rw [hnotDir] at hd
          exact absurd hd (by simp)
        · rw [hat, hwritten, heq]
      · refine hstill q hq ?_ hat
        by_cases hqp : q = p
        · exact absurd (congrArg x.at_ hqp) hat
        · exact hfiles q hq hf fun hm => (List.mem_cons.mp hm).elim hqp hmem

/-- The removals of a plan. -/
theorem mem_removals : p ∈ x.removals ↔
    x.now.get? p ≠ none ∧ x.target.get? p = none ∧ x.covered p = false := by
  unfold removals
  rw [List.mem_insertionSort, List.mem_filter, Tree.mem_paths, Bool.and_eq_true,
    Option.isNone_iff_eq_none, Bool.not_eq_true']

/-- **The third loop** takes no free path. -/
theorem removeEntries (hclear : x.Clear) {l : List Slot} (hl : ∀ p ∈ l, p ∈ x.removals)
    (h : ∀ p, x.Free p → x.Present s p) :
    ∀ p, x.Free p → x.Present (l.foldl x.removeEntry s) p := by
  induction l generalizing s with
  | nil => exact h
  | cons q l ih =>
    refine ih (fun p hp => hl p (List.mem_cons_of_mem _ hp)) fun p hp => ?_
    obtain ⟨hnow, hgone, hcovered⟩ := mem_removals.mp (hl q List.mem_cons_self)
    refine (h p hp).of_eq ((removeEntry_spec q s).2.1 _ fun hpre => ?_)
    obtain ⟨r, hr, hat⟩ := exists_above hpre
    obtain ⟨node, hnode⟩ := Option.ne_none_iff_exists'.mp hnow
    have hrne : r ≠ [] := by
      rintro rfl
      exact at_ne_nil (x := x) (x.now.named q node hnode).1 (by rw [← hat]; rfl)
    have hfree : x.Free r := by
      by_cases hrp : r = p
      · rw [hrp]
        exact hp
      · exact (hp.above hrne hr hrp).1
    exact (hclear r hfree).1 q hnow hgone hcovered hat.symm

/-- **The last loop** comes to its end, and takes nothing. -/
theorem finishEntries (hclear : x.Clear) {l : List Slot}
    (hl : ∀ p ∈ l, x.Free p ∧ x.isDirectory p = true) (h : ∀ p, x.Free p → x.Present s p) :
    ∃ s', l.foldlM x.finishEntry s = some s' ∧ ∀ p, x.Free p → x.Present s' p := by
  induction l generalizing s with
  | nil => exact ⟨s, rfl, h⟩
  | cons p l ih =>
    obtain ⟨hp, hdir⟩ := hl p List.mem_cons_self
    obtain ⟨s₁, hfinish⟩ := finishEntry_some (x := x) (p := p) (dirAt_of_present hdir (h p hp))
    obtain ⟨hsame, -, hdirAt⟩ := finishEntry_spec hfinish
    rw [List.foldlM_cons, hfinish]
    refine ih (fun q hq => hl q (List.mem_cons_of_mem _ hq)) fun q hq => ?_
    cases hd : x.isDirectory q with
    | true =>
      refine present_of_dirAt hd ?_
      rw [hdirAt]
      exact dirAt_of_present hd (h q hq)
    | false =>
      refine (h q hq).of_eq (hsame _ fun hat => ?_)
      rw [hclear.isDirectory_eq hp hq hat, hdir] at hd
      exact absurd hd (by simp)

/-- The directories that are restored, by their conditions. -/
theorem mem_restoredDirs :
    p ∈ x.restoredDirs ↔ (x.Free p ∧ x.changed p = true) ∧ x.isDirectory p = true := by
  unfold restoredDirs
  rw [List.mem_filter, mem_restores]

/-- The files that are restored, by their conditions. -/
theorem mem_restoredFiles :
    p ∈ x.restoredFiles ↔ (x.Free p ∧ x.changed p = true) ∧ x.isDirectory p = false := by
  unfold restoredFiles
  rw [List.mem_filter, mem_restores, Bool.not_eq_true']

/-- **Where no free path meets another, all of them are there after the rewind.** -/
theorem present_of_clear (hclear : x.Clear) : x.Restores := by
  have hunchanged : ∀ p, x.Free p → x.changed p = false → x.Present x.disk p := fun p hp h =>
    present_of_unchanged hp h
  obtain ⟨s₁, hmake, hdirs, hfiles⟩ := makeDirectories (s := x.disk) (l := x.restoredDirs) hclear
    (fun p hp => ⟨(mem_restoredDirs.mp hp).1.1, (mem_restoredDirs.mp hp).2⟩)
    ((Tree.sorted_paths.filter _).filter _)
    (fun p hp hd hmem => hunchanged p hp (by
      by_contra hch
      exact hmem (mem_restoredDirs.mpr ⟨⟨hp, by simpa using hch⟩, hd⟩)))
    fun p hp _ hch => hunchanged p hp hch
  obtain ⟨s₂, hwrite, hall⟩ := writeFiles (l := x.restoredFiles) hclear
    (fun p hp => ⟨(mem_restoredFiles.mp hp).1.1, (mem_restoredFiles.mp hp).2⟩) hdirs
    fun p hp hf hmem => hfiles p hp hf (by
      by_contra hch
      exact hmem (mem_restoredFiles.mpr ⟨⟨hp, by simpa using hch⟩, hf⟩))
  have hkept := removeEntries (l := x.removals) hclear (fun p hp => hp) hall
  obtain ⟨s₃, hfinish, hlast⟩ := finishEntries (l := x.restoredDirs.reverse) hclear
    (fun p hp => ⟨(mem_restoredDirs.mp (List.mem_reverse.mp hp)).1.1,
      (mem_restoredDirs.mp (List.mem_reverse.mp hp)).2⟩) hkept
  refine ⟨s₃, ?_, hlast⟩
  unfold apply
  rw [hmake]
  change (do
    let s ← x.restoredFiles.foldlM x.writeFile s₁
    x.restoredDirs.reverse.foldlM x.finishEntry (x.removals.foldl x.removeEntry s)) = some s₃
  rw [hwrite]
  exact hfinish

/-- What is removed stays away. -/
theorem gone_of_removed {l : List Slot} (hq : q ∈ l) (s : Disk) :
    l.foldl x.removeEntry s (x.at_ q) = none := by
  have hstays : ∀ (l : List Slot) (s : Disk) (f : List Bytes), s f = none →
      l.foldl x.removeEntry s f = none := by
    intro l
    induction l with
    | nil => exact fun _ _ h => h
    | cons r l ih => exact fun s f hf => ih _ f ((removeEntry_spec r s).2.2 f hf)
  induction l generalizing s with
  | nil => exact absurd hq List.not_mem_nil
  | cons r l ih =>
    rcases List.mem_cons.mp hq with rfl | hq
    · exact hstays l _ _ (removeEntry_spec q s).1
    · exact ih hq _

/-- Finishing directories makes nothing. -/
theorem gone_of_finished {l : List Slot} {s s' : Disk} (h : l.foldlM x.finishEntry s = some s')
    {f : List Bytes} (hf : s f = none) : s' f = none := by
  induction l generalizing s with
  | nil =>
    rw [← Option.some.inj h]
    exact hf
  | cons p l ih =>
    rw [List.foldlM_cons] at h
    obtain ⟨s₁, hfirst, hrest⟩ := Option.bind_eq_some_iff.mp h
    exact ih hrest ((finishEntry_spec hfirst).2.1 f hf)

/-- **A rewind restores every free path, exactly if no free path has the keys of a path that it
removes, nor those of another one that differs.** -/
theorem restores_iff (x : Rewind) : x.Restores ↔ x.Clear := by
  refine ⟨?_, present_of_clear⟩
  rintro ⟨s, happly, hpresent⟩ p hp
  unfold apply at happly
  obtain ⟨s₁, -, happly⟩ := Option.bind_eq_some_iff.mp happly
  obtain ⟨s₂, -, hfinish⟩ := Option.bind_eq_some_iff.mp happly
  constructor
  · intro q hnow hgone hcovered hat
    have hnone :=
      gone_of_finished hfinish (gone_of_removed (mem_removals.mpr ⟨hnow, hgone, hcovered⟩) s₂)
    rw [hat] at hnone
    obtain ⟨node, hnode⟩ := Option.ne_none_iff_exists'.mp hp.1
    have hholds := hpresent p hp node hnode
    rw [hnone] at hholds
    unfold Holds at hholds
    split_ifs at hholds
    · obtain ⟨dir, hdir, -⟩ := hholds
      exact absurd hdir (by simp)
  · intro p' hp' hat node node' hnode hnode'
    have hholds := hpresent p hp node hnode
    have hholds' := hpresent p' hp' node' hnode'
    rw [hat] at hholds'
    unfold Holds at hholds hholds'
    split_ifs at hholds hholds' with hdir hdir' hdir'
    · exact Or.inl ⟨hdir, hdir'⟩
    · obtain ⟨dir, heq, hisDir⟩ := hholds
      rw [heq] at hholds'
      rw [Option.some.inj hholds'] at hisDir
      exact absurd hisDir hdir'
    · obtain ⟨dir, heq, hisDir⟩ := hholds'
      rw [heq] at hholds
      rw [Option.some.inj hholds] at hisDir
      exact absurd hisDir hdir
    · rw [hholds] at hholds'
      exact Or.inr (Option.some.inj hholds')

end Loops

/-- A tree with one file. -/
def single (name : Bytes) (hname : normalName name = true) (content : Bytes) : Tree where
  entries := OrdMap.empty.insert [name] (.file content 420 (7, 0), [])
  plain := by
    intro p node h
    rw [OrdMap.get?_insert] at h
    split_ifs at h
    · rw [← Option.some.inj h]
      exact Or.inl ⟨content, 420, (7, 0), rfl⟩
    · exact absurd h (by simp)
  named := by
    intro p node h
    rw [OrdMap.get?_insert] at h
    split_ifs at h with hp
    · rw [hp]
      exact ⟨by simp, fun n hn => by rw [List.mem_singleton.mp hn]; exact hname⟩
    · exact absurd h (by simp)
  housed := by
    intro p node h q hq hpre hne
    rw [OrdMap.get?_insert] at h
    split_ifs at h with hp
    · have hlen := List.length_pos_of_ne_nil hq
      exact absurd (hpre.eq_of_length_le (by rw [hp, List.length_singleton]; omega)) hne
    · exact absurd h (by simp)

-- A name that has changed in its case only: the file is written, and removed under its old name.
example :
    let x : Rewind := {
      key := fun name => name.map fun b => if 65 ≤ b ∧ b ≤ 90 then b + 32 else b
      now := { single (text "Readme") (by decide) [1] with
        single := by
          intro p q node node' hp hq _
          have honly :
              ∀ {p node}, (single (text "Readme") (by decide) [1]).entries.get? p = some node →
                p = [text "Readme"] := by
            intro p node h
            by_contra hne
            exact absurd (((OrdMap.get?_insert _ _ _ _).symm.trans h).symm.trans (if_neg hne))
              (by simp)
          rw [honly hp, honly hq] }
      target := single (text "README") (by decide) [2] }
    x.held = [] ∧ x.apply.map (fun s => s [text "readme"]) = some none := by
  decide

end Rewind

end Folding

end Furrow
