import Furrow.Restore.Apply
import Furrow.Restore.Crash
import Furrow.Restore.Folding
import Furrow.Restore.Links

set_option relaxedAutoImplicit false
set_option autoImplicit false

/-!
# The models of a rewind agree

`apply_plan_at_with_file_sync` is modelled four times, each time with as much of the file system as
the results need.  `Furrow.Rewind.applyPlan` has symbolic links and calls that fail, and takes any
plan; `Furrow.Folding.Rewind.apply` has names that are folded, `Furrow.Links.applyPlan` files with
several names, and `Furrow.Crash.rewindCalls` the single calls.  The last three make the plan
themselves.  It is the same plan, and where names are not folded and no file has two names, the
loops of the second and of the third leave the same at every path.

## Main definitions

* `Furrow.Agreement.Shows` — a disk on which every object has one name shows what is at the paths.
* `Furrow.Agreement.Unlinked` — the workspaces of the one model are the trees of the other.
* `Furrow.Agreement.Recorded` — the disks of the calls are these trees.

## Main results

* `Furrow.Agreement.look_rewind` — the two models of a rewind end alike.
* `Furrow.Agreement.Recorded.plan_eq` — the calls follow the same plan.
* `Furrow.Agreement.safeJoin_joinPath`, `Furrow.Agreement.selectedPath_eq` — paths as names and as
  bytes are let through and selected alike.
-/

namespace Furrow

namespace Agreement

open Links (Stage)

/-! ## Disks -/

/-- A disk of objects shows what is at the paths; an object has one name, and numbers from `next` on
are free. -/
structure Shows (s : Stage) (d : Folding.Disk) : Prop where
  look : ∀ p, s.look p = d p
  used : ∀ p i, s.at_ p = some i → i < s.next
  single : ∀ p q i, s.at_ p = some i → s.at_ q = some i → p = q

section Calls

variable {s : Stage} {d d' : Folding.Disk} {p q : List Bytes}

/-- Something is at a path in both. -/
theorem Shows.isSome_eq (h : Shows s d) (p : List Bytes) : (s.at_ p).isSome = (d p).isSome := by
  rw [← h.look, Stage.look, Option.isSome_map]

/-- A directory is at a path in both. -/
theorem Shows.dirAt_eq (h : Shows s d) (p : List Bytes) : s.dirAt p = Folding.Rewind.dirAt d p := by
  rw [Folding.Rewind.dirAt, ← h.look, Stage.look, Option.any_map]
  rfl

/-- What is kept is kept in both. -/
theorem Shows.keep (h : Shows s d) (g : List Bytes → Bool) :
    Shows (s.keep g) fun q => if g q = true then d q else none where
  look := by
    intro q
    rw [Stage.look, Stage.at_keep]
    split_ifs
    · exact h.look q
    · rfl
  used := by
    intro q i hq
    rw [Stage.at_keep] at hq
    split_ifs at hq
    exact h.used q i hq
  single := by
    intro q q' i hq hq'
    rw [Stage.at_keep] at hq hq'
    split_ifs at hq hq'
    exact h.single q q' i hq hq'

/-- A new object is at its path in both. -/
theorem Shows.create (h : Shows s d) (p : List Bytes) (node : DiskNode)
    (xattrs : List (Bytes × Bytes)) :
    Shows (s.create p node xattrs) (Function.update d p (some (node, xattrs))) where
  look := by
    intro q
    rw [Stage.look, Stage.at_create]
    by_cases hq : q = p
    · rw [if_pos hq, hq, Function.update_self, Option.map_some]
      simp only [Stage.create, Function.update_self]
    · rw [if_neg hq, Function.update_of_ne hq, ← h.look, Stage.look]
      -- the number of the new object is that of no other
      refine Option.map_congr fun i hi => ?_
      have hne := (h.used q i hi).ne
      simp only [Stage.create, Function.update_of_ne hne]
  used := by
    intro q i hq
    rw [Stage.at_create] at hq
    have hnext : (s.create p node xattrs).next = s.next + 1 := rfl
    rw [hnext]
    split_ifs at hq with heq
    · cases hq
      exact Nat.lt_succ_self _
    · exact Nat.lt_succ_of_lt (h.used q i hq)
  single := by
    intro q q' i hq hq'
    rw [Stage.at_create] at hq hq'
    split_ifs at hq hq' with heq heq' heq'
    · exact heq.trans heq'.symm
    · cases hq
      exact absurd (h.used q' _ hq') (lt_irrefl _)
    · cases hq'
      exact absurd (h.used q _ hq) (lt_irrefl _)
    · exact h.single q q' i hq hq'

/-- The object at a path changes in both. -/
theorem Shows.modify (h : Shows s d) (p : List Bytes) (f : DiskNode → DiskNode) :
    Shows (s.modify p f) (Folding.Rewind.modify d p f) where
  look := by
    intro q
    unfold Folding.Rewind.modify
    by_cases hq : q = p
    · rw [hq, Function.update_self, ← h.look, Stage.look, Stage.look, Stage.at_modify,
        Option.map_map]
      refine Option.map_congr fun i hi => ?_
      unfold Stage.modify
      rw [hi]
      simp only [Function.update_self, Function.comp_apply]
    · rw [Function.update_of_ne hq, ← h.look, Stage.look, Stage.look, Stage.at_modify]
      refine Option.map_congr fun i hi => ?_
      unfold Stage.modify
      split
      · rename_i j hj
        have hne : i ≠ j := by
          rintro rfl
          exact hq (h.single q p i hi hj)
        simp only [Function.update_of_ne hne]
      · rfl
  used := by
    intro q i hq
    rw [Stage.at_modify] at hq
    rw [Stage.modify_next]
    exact h.used q i hq
  single := by
    intro q q' i hq hq'
    rw [Stage.at_modify] at hq hq'
    exact h.single q q' i hq hq'

/-- `remove_path` -/
theorem Shows.removePath (h : Shows s d) (p : List Bytes) :
    Shows (s.removePath p) (Folding.Rewind.removePath d p) := by
  unfold Stage.removePath Folding.Rewind.removePath
  rw [h.dirAt_eq]
  split_ifs
  · convert h.keep fun q => !p.isPrefixOf q using 2 with q
    cases p.isPrefixOf q <;> rfl
  · convert h.keep fun q => decide (q ≠ p) using 2 with q
    by_cases hq : q = p
    · simp [hq]
    · simp [hq]

/-- A loop of both models. -/
theorem Shows.foldl {f : Stage → List Bytes → Stage}
    {g : Folding.Disk → List Bytes → Option Folding.Disk} {l : List (List Bytes)}
    (hstep : ∀ s d d' p, p ∈ l → Shows s d → g d p = some d' → Shows (f s p) d') (h : Shows s d)
    (hrun : l.foldlM g d = some d') : Shows (l.foldl f s) d' := by
  induction l generalizing s d with
  | nil =>
    cases hrun
    exact h
  | cons p l ih =>
    rw [List.foldlM_cons] at hrun
    obtain ⟨mid, hmid, hrest⟩ := Option.bind_eq_some_iff.mp hrun
    have hfirst := hstep s d mid p List.mem_cons_self h hmid
    exact ih (fun s d d' q hq => hstep s d d' q (List.mem_cons_of_mem p hq)) hfirst hrest

/-- A directory that is not there is made in both. -/
theorem Shows.mkdir (h : Shows s d) (hmake : Folding.Rewind.mkdir d p = some d') :
    Shows (s.mkdir p) d' := by
  unfold Folding.Rewind.mkdir at hmake
  unfold Stage.mkdir
  rw [h.isSome_eq]
  cases hnode : d p with
  | none =>
    rw [hnode] at hmake
    cases hmake
    exact h.create p _ _
  | some node =>
    rw [hnode] at hmake
    simp only at hmake
    split_ifs at hmake
    cases hmake
    exact h

/-- The directories down to a path are those above it, and itself. -/
theorem inits_filter (p : List Bytes) :
    (p.inits.filter fun q => q ≠ []) = (p.dropLast.inits ++ [p]).filter fun q => q ≠ [] := by
  rcases List.eq_nil_or_concat p with rfl | ⟨l, a, rfl⟩
  · rfl
  · rw [List.concat_eq_append, List.dropLast_concat, List.inits_append]
    simp

/-- `create_dir_all` -/
theorem Shows.createDirAll (h : Shows s d) (hmake : Folding.Rewind.createDirAll d p = some d') :
    Shows (s.createDirAll p) d' := by
  unfold Stage.createDirAll
  rw [inits_filter]
  exact h.foldl (fun _ _ _ _ _ h hmake => h.mkdir hmake) hmake

end Calls

/-! ## Names that are not folded -/

section Plain

variable {x : Folding.Rewind} {p : List Bytes}

/-- Names that are not folded lead where they say. -/
theorem at_eq_self (hkey : ∀ name, x.key name = name) (p : List Bytes) : x.at_ p = p := by
  unfold Folding.Rewind.at_ Folding.fold
  exact (List.map_congr_left fun name _ => hkey name).trans (List.map_id p)

/-- A path has no twin. -/
theorem keptTwin_eq_self (hkey : ∀ name, x.key name = name) (hp : x.target.get? p ≠ none) :
    x.keptTwin p = p := by
  have hmemp : p ∈ x.target.entries.keys := by
    rw [OrdMap.mem_keys_iff, Option.isSome_iff_ne_none]
    exact hp
  have hne : ∀ q ∈ x.target.entries.keys, q ≠ [] := by
    intro q hq
    obtain ⟨node, hnode⟩ := Option.isSome_iff_exists.mp ((OrdMap.mem_keys_iff _).mp hq)
    exact (x.target.named q node hnode).1
  unfold Folding.Rewind.keptTwin
  have hall : ∀ q ∈ x.target.entries.keys.filter (fun q =>
      q.dropLast = p.dropLast ∧ x.key (q.getLastD []) = x.key (p.getLastD [])), q = p := by
    intro q hq
    obtain ⟨hmem, hsame⟩ := List.mem_filter.mp hq
    obtain ⟨hdir, hname⟩ := of_decide_eq_true hsame
    rw [hkey, hkey] at hname
    obtain ⟨l, a, rfl⟩ := List.eq_nil_or_concat q |>.resolve_left (hne q hmem)
    obtain ⟨l', a', rfl⟩ := List.eq_nil_or_concat p |>.resolve_left (hne p hmemp)
    simp only [List.concat_eq_append, List.dropLast_concat] at hdir
    simp only [List.concat_eq_append, List.getLastD_concat] at hname
    rw [hdir, hname]
  have hself : p ∈ x.target.entries.keys.filter (fun q =>
      q.dropLast = p.dropLast ∧ x.key (q.getLastD []) = x.key (p.getLastD [])) :=
    List.mem_filter.mpr ⟨hmemp, by simp⟩
  obtain ⟨q, rest, heq⟩ := List.exists_cons_of_ne_nil (List.ne_nil_of_mem hself)
  rw [heq] at hall ⊢
  exact hall q List.mem_cons_self

/-- Nothing is held back. -/
theorem covered_eq_false (hkey : ∀ name, x.key name = name) : x.covered p = false := by
  have hheld : x.held = [] := by
    unfold Folding.Rewind.held
    rw [List.filter_eq_nil_iff]
    intro q hq
    rw [keptTwin_eq_self hkey (Folding.Rewind.Tree.mem_paths.mp hq)]
    simp
  unfold Folding.Rewind.covered
  rw [hheld]
  rfl

/-- The plan has all paths of the target that have changed. -/
theorem restores_eq_filter (hkey : ∀ name, x.key name = name) :
    x.restores = x.target.paths.filter x.changed := by
  unfold Folding.Rewind.restores
  exact List.filter_congr fun p _ => by rw [covered_eq_false hkey, Bool.not_false, Bool.and_true]

/-- And all paths of the workspace that are not in the target. -/
theorem removals_eq_filter (hkey : ∀ name, x.key name = name) :
    x.removals = (x.now.paths.filter fun p => (x.target.get? p).isNone).insertionSort fun p q =>
      (Shrink.joinPath q).length ≤ (Shrink.joinPath p).length := by
  unfold Folding.Rewind.removals
  congr 1
  exact List.filter_congr fun p _ => by rw [covered_eq_false hkey, Bool.not_false, Bool.and_true]

end Plain

/-! ## Plans -/

/-- A rewind in which names are not folded, over workspaces without hard links. -/
structure Unlinked (x : Folding.Rewind) (now old : Stage) : Prop where
  key : ∀ name, x.key name = name
  now : Shows now x.now.get?
  old : Shows old x.target.get?

section Plans

variable {x : Folding.Rewind} {w now old : Stage} {t : Folding.Tree} {p : List Bytes}

/-- The paths of both are the same. -/
theorem Shows.paths_eq (h : Shows w t.get?) : w.paths = t.paths := by
  unfold Stage.paths Folding.Tree.paths
  have hkeys : w.disk.entries.keys = t.entries.keys := by
    refine w.disk.entries.keys_sorted.eq_of_mem_iff t.entries.keys_sorted fun p => ?_
    rw [OrdMap.mem_keys_iff, OrdMap.mem_keys_iff]
    exact Bool.eq_iff_iff.mp (h.isSome_eq p)
  rw [hkeys]

/-- The disk before the rewind is the workspace. -/
theorem Unlinked.shows_disk (h : Unlinked x now old) : Shows now x.disk where
  look := by
    intro p
    cases hp : x.now.get? p with
    | some node =>
      have hdisk := Folding.Rewind.disk_of_now hp
      rw [at_eq_self h.key] at hdisk
      rw [h.now.look, hdisk]
      exact hp
    | none =>
      rw [h.now.look]
      refine hp.trans (Eq.symm ?_)
      unfold Folding.Rewind.disk
      rw [Option.map_eq_none_iff, List.find?_eq_none]
      intro e he
      rw [decide_eq_true_eq, at_eq_self h.key]
      rintro rfl
      have hget := (OrdMap.mem_toList_iff _).mp he
      exact absurd (hp.symm.trans hget) (by simp)
  used := h.now.used
  single := h.now.single

/-- Both plans change the same paths. -/
theorem Unlinked.changed_eq (h : Unlinked x now old) : Links.changed now old = x.changed := by
  funext p
  unfold Links.changed Folding.Rewind.changed
  rw [h.now.paths_eq, h.old.paths_eq]
  simp only [h.now.look, h.old.look]

/-- Both plans restore the same paths. -/
theorem Unlinked.restores_eq (h : Unlinked x now old) :
    Links.changedPaths now old = x.restores := by
  rw [restores_eq_filter h.key, Links.changedPaths, h.changed_eq, h.old.paths_eq]

/-- A directory of the target is one in both. -/
theorem Unlinked.isDirectory_eq (h : Unlinked x now old) (p : List Bytes) :
    old.dirAt p = x.isDirectory p := by
  rw [Folding.Rewind.isDirectory, ← h.old.look, Stage.look, Option.any_map]
  rfl

/-- The directories that are restored. -/
theorem Unlinked.dirs_eq (h : Unlinked x now old) : Links.changedDirs now old = x.restoredDirs := by
  unfold Links.changedDirs Folding.Rewind.restoredDirs
  rw [h.restores_eq]
  exact List.filter_congr fun p _ => h.isDirectory_eq p

/-- The files that are restored. -/
theorem Unlinked.files_eq (h : Unlinked x now old) :
    Links.changedFiles now old = x.restoredFiles := by
  unfold Links.changedFiles Folding.Rewind.restoredFiles
  rw [h.restores_eq]
  refine List.filter_congr fun p hp => ?_
  obtain ⟨node, hnode⟩ := Option.ne_none_iff_exists'.mp
    (Folding.Rewind.Tree.mem_paths.mp (List.mem_of_mem_filter hp))
  have hlook := (h.old.look p).trans hnode
  unfold Stage.look at hlook
  obtain ⟨i, hi, heq⟩ := Option.map_eq_some_iff.mp hlook
  rw [← h.isDirectory_eq, Stage.fileAt, Stage.dirAt, hi]
  have hplain := x.target.plain p node hnode
  rw [← heq] at hplain
  simp only [Option.any_some]
  rcases hplain with ⟨content, mode, mtime, hfile⟩ | hdir
  · rw [show old.disk.node i = .file content mode mtime from hfile]
    rfl
  · change (old.disk.node i).isDir = true at hdir
    cases hobject : old.disk.node i with
    | directory mode mtime => rfl
    | _ => exact absurd hdir (by rw [hobject]; simp [DiskNode.isDir])

/-- The paths to be removed. -/
theorem Unlinked.removals_eq (h : Unlinked x now old) : Links.removals now old = x.removals := by
  rw [removals_eq_filter h.key, Links.removals, h.now.paths_eq]
  congr 1
  exact List.filter_congr fun p _ => by rw [← h.old.look, Stage.look, Option.isNone_map]

end Plans

/-! ## Loops -/

section Loops

variable {x : Folding.Rewind} {now old s : Stage} {d d' : Folding.Disk} {p : List Bytes}

/-- The first loop, for one directory. -/
theorem Unlinked.makeDirectory (h : Unlinked x now old) (hs : Shows s d)
    (hmake : x.makeDirectory d p = some d') : Shows (Links.makeDirectory old s p) d' := by
  unfold Folding.Rewind.makeDirectory at hmake
  unfold Links.makeDirectory
  rw [h.old.look]
  rw [at_eq_self h.key] at hmake
  split at hmake
  · rename_i mode mtime xattrs hnode
    rw [hnode]
    simp only at hmake ⊢
    obtain ⟨mid, hmid, rfl⟩ := Option.map_eq_some_iff.mp hmake
    refine Shows.modify (Shows.createDirAll ?_ hmid) p _
    rw [hs.isSome_eq, hs.dirAt_eq]
    split_ifs
    · exact hs.removePath p
    · exact hs
  · rename_i hnot
    cases hmake
    split
    · rename_i mode mtime xattrs hnode
      exact absurd hnode (hnot mode mtime xattrs)
    · exact hs

/-- The second loop, for one file. -/
theorem Unlinked.writeFile (h : Unlinked x now old) (hs : Shows s d)
    (hwrite : x.writeFile d p = some d') : Shows (Links.writeFile old s p) d' := by
  unfold Folding.Rewind.writeFile at hwrite
  unfold Links.writeFile
  rw [h.old.look]
  rw [at_eq_self h.key, at_eq_self h.key] at hwrite
  cases hnode : x.target.get? p with
  | none =>
    rw [hnode] at hwrite
    cases hwrite
    exact hs
  | some node =>
    rw [hnode] at hwrite
    obtain ⟨mid, hmid, rfl⟩ := Option.map_eq_some_iff.mp hwrite
    refine Shows.create ?_ p node.1 node.2
    have hmade := hs.createDirAll hmid
    rw [hmade.dirAt_eq]
    split_ifs
    · exact hmade.removePath p
    · exact hmade

/-- The third loop, for one path. -/
theorem Unlinked.removeEntry (h : Unlinked x now old) (hs : Shows s d) :
    Shows (Links.removeEntry s p) (x.removeEntry d p) := by
  unfold Links.removeEntry Folding.Rewind.removeEntry
  rw [at_eq_self h.key, hs.isSome_eq]
  split_ifs
  · exact hs.removePath p
  · exact hs

/-- The last loop, for one directory. -/
theorem Unlinked.finishEntry (h : Unlinked x now old) (hs : Shows s d)
    (hfinish : x.finishEntry d p = some d') : Shows (Links.finishEntry old s p) d' := by
  unfold Folding.Rewind.finishEntry at hfinish
  unfold Links.finishEntry
  rw [h.old.look]
  rw [at_eq_self h.key] at hfinish
  split at hfinish
  · rename_i mode mtime xattrs node hnode hd
    rw [hnode]
    cases hfinish
    exact (hs.modify p _).modify p _
  · exact absurd hfinish (by simp)
  · rename_i hnot hnone
    cases hfinish
    split
    · rename_i mode mtime xattrs hnode
      cases hd : d p with
      | none => exact absurd hd (hnone mode mtime xattrs hnode)
      | some node => exact absurd hd (hnot mode mtime xattrs node hnode)
    · exact hs

/-- The loops before the links are restored. -/
theorem Unlinked.applyPlan (h : Unlinked x now old) {d₁ d₂ : Folding.Disk}
    (hmake : x.restoredDirs.foldlM x.makeDirectory x.disk = some d₁)
    (hwrite : x.restoredFiles.foldlM x.writeFile d₁ = some d₂) :
    Shows (Links.applyPlan now old) (x.removals.foldl x.removeEntry d₂) := by
  unfold Links.applyPlan
  rw [h.dirs_eq, h.files_eq, h.removals_eq]
  have hmade : Shows (x.restoredDirs.foldl (Links.makeDirectory old) now) d₁ :=
    h.shows_disk.foldl (fun _ _ _ _ _ hs hmake => h.makeDirectory hs hmake) hmake
  have hwritten : Shows (x.restoredFiles.foldl (Links.writeFile old)
      (x.restoredDirs.foldl (Links.makeDirectory old) now)) d₂ :=
    hmade.foldl (fun _ _ _ _ _ hs hwrite => h.writeFile hs hwrite) hwrite
  generalize x.restoredFiles.foldl (Links.writeFile old) _ = s at hwritten
  clear hwrite
  induction x.removals generalizing s d₂ with
  | nil => exact hwritten
  | cons p l ih => exact ih _ (h.removeEntry hwritten)

/-- A snapshot without hard links records none. -/
theorem Unlinked.hardlinks_eq (h : Unlinked x now old) : old.hardlinks = [] := by
  have hnodup : old.files.Nodup := by
    have hkeys : old.disk.entries.keys.Nodup := old.disk.entries.keys_sorted.imp ne_of_lt
    exact ((List.perm_insertionSort _ _).nodup_iff.mpr hkeys).filter _
  have hgroups : old.groups = [] := by
    refine Classes.groups_eq_nil hnodup fun p hp q _ hpq => ?_
    obtain ⟨i, hi, -⟩ := Stage.fileAt_iff.mp (Stage.mem_files.mp hp)
    exact h.old.single p q i hi (hpq ▸ hi)
  unfold Stage.hardlinks
  rw [hgroups]
  rfl

/-- **The two models of a rewind end alike.**  Over workspaces without hard links, and where names
are not folded, the rewind that knows of folded names and the rewind that knows of hard links leave
the same at every path. -/
theorem look_rewind (h : Unlinked x now old) (session : Links.Session) (counter : ℕ)
    (happly : x.apply = some d) (p : List Bytes) :
    (session.rewind now old counter).look p = d p := by
  unfold Folding.Rewind.apply at happly
  obtain ⟨d₁, hmake, happly⟩ := Option.bind_eq_some_iff.mp happly
  obtain ⟨d₂, hwrite, hfinish⟩ := Option.bind_eq_some_iff.mp happly
  have hplan := h.applyPlan hmake hwrite
  have hrelinked : session.relinked old counter (Links.applyPlan now old) =
      Links.applyPlan now old := by
    unfold Links.Session.relinked
    rw [h.hardlinks_eq]
    rfl
  have hfinished : Shows (x.restoredDirs.reverse.foldl (Links.finishEntry old)
      (Links.applyPlan now old)) d :=
    hplan.foldl (fun _ _ _ _ _ hs hfinish => h.finishEntry hs hfinish) hfinish
  unfold Links.Session.rewind
  rw [hrelinked, h.dirs_eq]
  exact hfinished.look p

end Loops

/-! ## Calls -/

/-- What a file or a directory looks like. -/
def lookOf : Crash.Node → Folding.Look
  | .file content mode mtime xattrs => (.file content mode mtime, xattrs.toList)
  | .directory mode mtime => (.directory mode mtime, [])

/-- The disks of a rewind by calls are the trees of one in which names are not folded. -/
structure Recorded (x : Folding.Rewind) (now target : Crash.Disk) : Prop where
  key : ∀ name, x.key name = name
  now : ∀ p, x.now.get? p = ((now.at_ p).map Crash.Node.captured).map lookOf
  target : ∀ p, x.target.get? p = (target.at_ p).map lookOf

section Recorded

variable {x : Folding.Rewind} {now target : Crash.Disk} {p : List Bytes}

/-- What looks the same is the same. -/
theorem lookOf_injective : Function.Injective lookOf := by
  intro node node' h
  cases node with
  | file content mode mtime xattrs =>
    cases node' with
    | file content' mode' mtime' xattrs' =>
      obtain ⟨hnode, hxattrs⟩ := Prod.mk.inj h
      obtain ⟨rfl, rfl, rfl⟩ := DiskNode.file.inj hnode
      have heq : xattrs = xattrs' := OrdMap.ext_get? fun name => by
        rw [← OrdMap.foldInsert_toList xattrs, ← OrdMap.foldInsert_toList xattrs', hxattrs]
      rw [heq]
    | directory mode' mtime' => exact absurd (Prod.mk.inj h).1 (by simp)
  | directory mode mtime =>
    cases node' with
    | file content' mode' mtime' xattrs' => exact absurd (Prod.mk.inj h).1 (by simp)
    | directory mode' mtime' =>
      obtain ⟨rfl, rfl⟩ := DiskNode.directory.inj (Prod.mk.inj h).1
      rfl

/-- The paths of both are the same. -/
theorem paths_eq_of_get? {d : Crash.Disk} {t : Folding.Tree}
    (h : ∀ p, (t.get? p).isSome = (d.at_ p).isSome) : d.paths = t.paths := by
  unfold Crash.Disk.paths Folding.Tree.paths
  have hkeys : d.entries.keys = t.entries.keys := by
    refine d.entries.keys_sorted.eq_of_mem_iff t.entries.keys_sorted fun p => ?_
    rw [OrdMap.mem_keys_iff, OrdMap.mem_keys_iff]
    exact (congrArg (· = true) (h p)).symm.to_iff
  rw [hkeys]

/-- The paths of the workspace. -/
theorem Recorded.now_paths (h : Recorded x now target) : now.paths = x.now.paths :=
  paths_eq_of_get? fun p => (congrArg Option.isSome (h.now p)).trans (by simp)

/-- The paths of the target. -/
theorem Recorded.target_paths (h : Recorded x now target) : target.paths = x.target.paths :=
  paths_eq_of_get? fun p => (congrArg Option.isSome (h.target p)).trans (by simp)

/-- Both plans change the same paths. -/
theorem Recorded.changed_eq (h : Recorded x now target) :
    Crash.changed now target = x.changed := by
  funext p
  unfold Crash.changed Folding.Rewind.changed
  rw [h.now_paths, h.target_paths]
  simp only [h.now, h.target, ne_eq, (Option.map_injective lookOf_injective).eq_iff]

/-- A directory of the target is one in both. -/
theorem Recorded.isDirectory_eq (h : Recorded x now target) (p : List Bytes) :
    x.isDirectory p = target.dirAt p := by
  rw [Folding.Rewind.isDirectory, h.target, Option.any_map, Crash.Disk.dirAt]
  congr 1
  funext node
  cases node <;> rfl

/-- **The calls follow the same plan**: the directories and files that are restored, and the paths
that are removed. -/
theorem Recorded.plan_eq (h : Recorded x now target) :
    Crash.changedDirs now target = x.restoredDirs ∧
      Crash.changedFiles now target = x.restoredFiles ∧
      Crash.removals now target = x.removals := by
  refine ⟨?_, ?_, ?_⟩
  · rw [Folding.Rewind.restoredDirs, restores_eq_filter h.key, List.filter_filter,
      Crash.changedDirs, h.changed_eq, h.target_paths]
    exact List.filter_congr fun p _ => by rw [h.isDirectory_eq, Bool.and_comm]
  · rw [Folding.Rewind.restoredFiles, restores_eq_filter h.key, List.filter_filter,
      Crash.changedFiles, h.changed_eq, ← h.target_paths]
    refine List.filter_congr fun p hp => ?_
    rw [h.isDirectory_eq, Bool.and_comm]
    congr 1
    rcases target.at_cases p with ⟨hnone, -, -⟩ | ⟨hdir, hfile⟩ | ⟨hfile, hdir⟩
    · have hmem := Folding.Rewind.Tree.mem_paths.mp (h.target_paths ▸ hp)
      rw [h.target, hnone] at hmem
      exact absurd rfl hmem
    · rw [hdir, hfile]
      rfl
    · rw [hdir, hfile]
      rfl
  · rw [removals_eq_filter h.key, Crash.removals, h.now_paths]
    congr 1
    exact List.filter_congr fun p _ => by rw [h.target, Option.isNone_map]

end Recorded

/-! ## Paths -/

section Paths

variable {path : Rewind.RelPath}

/-- A path is made of names. -/
theorem names_ne_nil (path : Rewind.RelPath) : path.names ≠ [] :=
  List.append_ne_nil_of_right_ne_nil _ (List.cons_ne_nil _ _)

/-- **The models of `safe_join` agree**: what the one lets through as names, the other does as
bytes. -/
theorem safeJoin_joinPath (h : path.names.all normalName = true) :
    Relink.safeJoin (Shrink.joinPath path.names) = true := by
  have hnormal : ∀ c ∈ path.names, normalName c = true := List.all_eq_true.mp h
  unfold Relink.safeJoin
  rw [(Shrink.Session.pathComponents_joinPath (names_ne_nil path) hnormal).1, List.all_eq_true]
  intro c hc
  have hname := hnormal c hc
  simp only [normalName, decide_eq_true_eq] at hname ⊢
  refine ⟨?_, hname.2.1, hname.2.2.1⟩
  rintro rfl
  exact hname.2.2.2 (List.mem_singleton_self slash)

/-- **The models of `selected` agree** on these paths. -/
theorem selectedPath_eq (h : path.names.all normalName = true) (selections : List Bytes) :
    Rewind.selectedPath path (selections.map Relink.pathComponents) =
      Relink.selected (Shrink.joinPath path.names) selections := by
  have hnormal : ∀ c ∈ path.names, normalName c = true := List.all_eq_true.mp h
  unfold Rewind.selectedPath Relink.selected
  rw [(Shrink.Session.pathComponents_joinPath (names_ne_nil path) hnormal).1, List.isEmpty_map,
    List.any_map]
  rfl

end Paths

end Agreement

end Furrow
