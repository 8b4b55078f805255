import Mathlib
import Furrow.Lib.Run
import Furrow.Restore.Folding
import Furrow.Restore.Steps

set_option relaxedAutoImplicit false
set_option autoImplicit false

/-!
# A rewind that is cut short

`rewind` and `recover_interrupted_rewind`.  Before the first change the snapshot from before the
rewind is noted (`write_restore_intent`); a call that fails is followed by a rewind to that
snapshot, and so is the next start of a process that stopped.  A rewind back starts from whatever is
there: directories that have been prepared and not finished, temporary files, files of either tree.

Only a start looks at the note.  A process that goes on after a rewind back has failed can begin
another rewind, which notes the workspace as it is then.

## Main definitions

* `Furrow.Crash.Workspace` — a disk on which every entry is in a directory.
* `Furrow.Crash.Machine` — a workspace with its note; `Furrow.Crash.Machine.step` — what happens to
  it.
* `Furrow.Crash.Settled` — its content for a user, for whom a rewind is one step.

## Main results

* `Furrow.Crash.run_rewindCalls` — a rewind reaches its target from everywhere.
* `Furrow.Crash.settled_steps` — rewinds happen altogether or not at all, wherever they and their
  recoveries are cut short.
-/

namespace Furrow

namespace Crash

open Furrow.Crash.Disk

/-! ## A rewind -/

/-- A workspace that is in order. -/
structure Workspace extends Disk where
  housed_of_at : Sound toDisk

/-! ### What can be restored -/

namespace Node

/-- A capture records directories as directories. -/
@[simp] theorem isDir_captured (node : Node) : node.captured.isDir = node.isDir := by
  cases node <;> rfl

/-- A directory can be restored as one. -/
@[simp] theorem isDir_kept (h : Host) (node : Node) : (node.kept h).isDir = node.isDir := by
  cases node <;> rfl

/-- Only attributes are lost. -/
@[simp] theorem plain_kept (h : Host) (node : Node) : (node.kept h).plain = node.plain := by
  cases node <;> rfl

/-- Attributes that can be restored are left in a second time. -/
theorem restorableXattrs_idem (xattrs : OrdMap Bytes Bytes) :
    restorableXattrs (restorableXattrs xattrs) = restorableXattrs xattrs := by
  apply OrdMap.ext_get?
  intro name
  simp only [restorableXattrs, OrdMap.get?_filter, Option.filter_filter, Bool.and_self]

/-- What can be restored is what can be restored of a capture. -/
@[simp] theorem kept_captured (h : Host) (node : Node) : node.captured.kept h = node.kept h := by
  cases node with
  | file content mode mtime xattrs => simp only [captured, kept, restorableXattrs_idem]
  | directory mode mtime => rfl

/-- What was restored can be restored. -/
@[simp] theorem kept_kept (h : Host) (node : Node) : (node.kept h).kept h = node.kept h := by
  cases node with
  | file content mode mtime xattrs =>
    have hxattrs : (restorableXattrs ((restorableXattrs xattrs).filter h.takes)).filter h.takes =
        (restorableXattrs xattrs).filter h.takes := by
      apply OrdMap.ext_get?
      intro name
      simp only [restorableXattrs, OrdMap.get?_filter, Option.filter_filter]
      congr 1
      funext value
      cases h.takes name value <;> simp
    rw [kept, kept, hxattrs]
  | directory mode mtime => rfl

end Node

section Rewind

variable {h : Host} {now target d d' : Disk} {p q dir : Slot} {P : Slot → Prop}

/-- **A path is as it should be**: its entries differ in attributes that cannot be restored only. -/
def AsIn (h : Host) (d target : Disk) (p : Slot) : Prop :=
  (d.at_ p).map (Node.kept h) = (target.at_ p).map (Node.kept h)

/-- What can be restored is there. -/
theorem AsIn.of_kept (hat : d.at_ p = (target.at_ p).map (Node.kept h)) : AsIn h d target p := by
  rw [AsIn, hat, Option.map_map]
  congr 1
  funext node
  exact Node.kept_kept h node

/-- What is restored is a directory exactly if it should be. -/
theorem dirAt_eq_of_kept (hat : d.at_ p = (target.at_ p).map (Node.kept h)) :
    d.dirAt p = target.dirAt p := by
  unfold Disk.dirAt
  rw [hat]
  cases target.at_ p with
  | none => rfl
  | some node => exact Node.isDir_kept h node

/-- A path has changed if something at or below it differs from what a capture records. -/
theorem changed_iff : changed now target p = true ↔
    ∃ q, p <+: q ∧ (now.at_ q).map Node.captured ≠ target.at_ q := by
  unfold changed
  rw [List.any_eq_true]
  constructor
  · rintro ⟨q, -, hq⟩
    rw [Bool.and_eq_true, List.isPrefixOf_iff_prefix, decide_eq_true_eq] at hq
    exact ⟨q, hq⟩
  · rintro ⟨q, hpre, hne⟩
    refine ⟨q, ?_,
      by rw [Bool.and_eq_true, List.isPrefixOf_iff_prefix, decide_eq_true_eq]; exact ⟨hpre, hne⟩⟩
    rw [List.mem_append, mem_paths, mem_paths]
    by_contra hnone
    rw [not_or, not_not, not_not] at hnone
    refine hne ?_
    rw [hnone.1, hnone.2]
    rfl

/-- Nothing differs at or below what has not changed. -/
theorem eq_of_unchanged (hp : changed now target p = false) (hpre : p <+: q) :
    (now.at_ q).map Node.captured = target.at_ q := by
  by_contra hne
  rw [changed_iff.mpr ⟨q, hpre, hne⟩] at hp
  exact absurd hp (by simp)

/-- What is not in the target and has not changed is not there. -/
theorem eq_none_of_unchanged (hp : changed now target p = false) (hpre : p <+: q)
    (hnone : target.at_ q = none) : now.at_ q = none :=
  Option.map_eq_none_iff.mp ((eq_of_unchanged hp hpre).trans hnone)

/-- What has not changed is as it should be. -/
theorem AsIn.of_unchanged (hp : changed now target p = false) (hat : d.at_ p = now.at_ p) :
    AsIn h d target p := by
  rw [AsIn, hat, ← eq_of_unchanged hp List.prefix_rfl, Option.map_map]
  congr 1
  funext node
  exact (Node.kept_captured h node).symm

/-- What is above a change has changed. -/
theorem changed_above (hp : changed now target p = true) (hpre : q <+: p) :
    changed now target q = true := by
  obtain ⟨r, hr, hne⟩ := changed_iff.mp hp
  exact changed_iff.mpr ⟨r, hpre.trans hr, hne⟩

/-- What holds while a plan is applied: entries are of one of the trees, and those that have not
changed are as they were. -/
structure Kept (now target d : Disk) : Prop where
  sound : Sound d
  known : ∀ q, d.at_ q ≠ none → now.at_ q ≠ none ∨ target.at_ q ≠ none
  fixed : ∀ q, changed now target q = false → d.at_ q = now.at_ q

/-- A step that touches only changed paths keeps the others. -/
theorem Kept.of_frame (hkept : Kept now target d) (hsound : Sound d') (hframe : Frame P dir d d')
    (hdir : changed now target dir = true)
    (hknown : ∀ q, P q → d'.at_ q ≠ none → now.at_ q ≠ none ∨ target.at_ q ≠ none)
    (hfixed : ∀ q, P q → changed now target q = false → d'.at_ q = now.at_ q) :
    Kept now target d' where
  sound := hsound
  known q hq := by
    by_cases hP : P q
    · exact hknown q hP hq
    · exact hkept.known q fun hnone => hq ((hframe.eq_none_iff hP).mpr hnone)
  fixed q hq := by
    by_cases hP : P q
    · exact hfixed q hP hq
    · rw [hframe.at_eq hP, hkept.fixed q hq]
      rintro rfl
      rw [hdir] at hq
      exact absurd hq (by simp)

variable (htarget : Sound target)

/-- A directory of the target that has changed, or a file. -/
def IsDirectory (now target : Disk) (p : Slot) : Prop :=
  changed now target p = true ∧ target.dirAt p = true

/-- A file of the target that is to be restored. -/
def IsFile (now target : Disk) (p : Slot) : Prop :=
  changed now target p = true ∧ target.fileAt p = true

include htarget in
/-- What is changed in the target is in a directory that is there. -/
theorem housed_of_target (hp : changed now target p = true) (hat : target.at_ p ≠ none)
    (hdirs : IsDirectory now target p.dropLast → d.dirAt p.dropLast = true) :
    d.housed p = true := by
  obtain ⟨hne, hhouse⟩ := housed_iff.mp (htarget p hat)
  refine housed_iff.mpr ⟨hne, hhouse.imp_right fun hdir =>
    hdirs ⟨changed_above hp (List.dropLast_prefix p), hdir⟩⟩

include htarget in
/-- **After the first loop** all directories are there. -/
theorem makeDirectories {l : List Slot} (hl : ∀ p ∈ l, IsDirectory now target p)
    (hsorted : l.Pairwise fun p q => Shrink.joinPath p ≤ Shrink.joinPath q)
    (hkept : Kept now target d) (hdirs : ∀ p, IsDirectory now target p → p ∉ l → d.dirAt p = true) :
    ∃ d', runSteps h d (l.flatMap (makeDirectory target)) = some d' ∧ Kept now target d' ∧
      ∀ p, IsDirectory now target p → d'.dirAt p = true := by
  induction l generalizing d with
  | nil => exact ⟨d, rfl, hkept, fun p hp => hdirs p hp List.not_mem_nil⟩
  | cons p l ih =>
    obtain ⟨hfirst, hsorted'⟩ := List.pairwise_cons.mp hsorted
    obtain ⟨hchanged, hdir⟩ := hl p List.mem_cons_self
    have hat := at_ne_none_of_dirAt hdir
    have hne := htarget.ne_nil hat
    -- The directory above comes before it.
    have hp : d.housed p = true := housed_of_target htarget hchanged hat fun hparent => by
      refine hdirs _ hparent fun hmem => ?_
      have hparentNe := htarget.ne_nil (at_ne_none_of_dirAt hparent.2)
      have hlt := Folding.Rewind.joinPath_lt hparentNe (List.dropLast_prefix p) (dropLast_ne hne)
      rcases List.mem_cons.mp hmem with heq | hmem
      · exact dropLast_ne hne heq
      · exact absurd hlt (not_lt_of_ge (hfirst _ hmem))
    obtain ⟨d₁, hrun, hmade, hframe⟩ := makeDirectory_spec (h := h) hkept.sound hp hdir
    have hkept₁ : Kept now target d₁ := hkept.of_frame (hkept.sound.runSteps hrun) hframe
      (changed_above hchanged (List.dropLast_prefix p)) (fun q hq _ => Or.inr (hq ▸ hat)) fun q hq
        hun => by
        rw [hq, hchanged] at hun
        exact absurd hun (by simp)
    obtain ⟨d', hrun', hkept', hall⟩ :=
      ih (fun q hq => hl q (List.mem_cons_of_mem _ hq)) hsorted' hkept₁ fun q hq hmem => by
        by_cases hqp : q = p
        · exact hqp ▸ hmade
        · rw [hframe.dirAt_eq hqp]
          exact hdirs q hq fun hm => (List.mem_cons.mp hm).elim hqp hmem
    exact ⟨d', by rw [List.flatMap_cons]; exact runSteps_append hrun hrun', hkept', hall⟩

include htarget in
/-- **After the second loop** all files are there too. -/
theorem writeFiles {l : List Slot} (hl : ∀ p ∈ l, IsFile now target p) (hkept : Kept now target d)
    (hdirs : ∀ p, IsDirectory now target p → d.dirAt p = true)
    (hfiles : ∀ p, IsFile now target p → p ∉ l → d.at_ p = (target.at_ p).map (Node.kept h)) :
    ∃ d', runSteps h d (l.flatMap (writeFile h target)) = some d' ∧ Kept now target d' ∧
      (∀ p, IsDirectory now target p → d'.dirAt p = true) ∧
      ∀ p, IsFile now target p → d'.at_ p = (target.at_ p).map (Node.kept h) := by
  induction l generalizing d with
  | nil => exact ⟨d, rfl, hkept, hdirs, fun p hp => hfiles p hp List.not_mem_nil⟩
  | cons p l ih =>
    obtain ⟨hchanged, hfile⟩ := hl p List.mem_cons_self
    have hat := at_ne_none_of_fileAt hfile
    have hne := htarget.ne_nil hat
    have hnotDir := not_dirAt_of_fileAt hfile
    have hnone : ∀ q, p <+: q → q ≠ p → target.at_ q = none := fun q => htarget.at_below hne hnotDir
    obtain ⟨d₁, hrun, hwritten, hbelow, hframe⟩ := writeFile_spec (h := h) hkept.sound
      (housed_of_target htarget hchanged hat (hdirs _)) hfile
    have hkept₁ : Kept now target d₁ := hkept.of_frame (hkept.sound.runSteps hrun) hframe
      (changed_above hchanged (List.dropLast_prefix p))
      (fun q hq hsome => by
        by_cases hqp : q = p
        · exact Or.inr (hqp ▸ hat)
        · exact absurd (hbelow q hq hqp) hsome)
      fun q hq hun => by
        by_cases hqp : q = p
        · rw [hqp, hchanged] at hun
          exact absurd hun (by simp)
        · rw [hbelow q hq hqp, eq_none_of_unchanged hun List.prefix_rfl (hnone q hq hqp)]
    have hapart : ∀ q, target.at_ q ≠ none → q ≠ p → ¬ p <+: q := fun q hq hqp hpre =>
      hq (hnone q hpre hqp)
    obtain ⟨d', hrun', hkept', hdirs', hfiles'⟩ :=
      ih (fun q hq => hl q (List.mem_cons_of_mem _ hq)) hkept₁ (fun q hq => by
        have hqp : q ≠ p := by
          rintro rfl
          exact absurd hq.2 (by rw [hnotDir]; simp)
        rw [hframe.dirAt_eq (hapart q (at_ne_none_of_dirAt hq.2) hqp)]
        exact hdirs q hq)
      fun q hq hmem => by
        by_cases hqp : q = p
        · rw [hqp, hwritten]
        · have hqat := at_ne_none_of_fileAt hq.2
          rw [hframe.at_eq (hapart q hqat hqp)]
          · exact hfiles q hq fun hm => (List.mem_cons.mp hm).elim hqp hmem
          · -- What a path is in is a directory of the target.
            rintro rfl
            rcases (housed_iff.mp (htarget p hat)).2 with hroot | hdir
            · exact htarget.ne_nil hqat hroot
            · rw [not_dirAt_of_fileAt hq.2] at hdir
              exact absurd hdir (by simp)
    exact ⟨d', by rw [List.flatMap_cons]; exact runSteps_append hrun hrun', hkept', hdirs', hfiles'⟩

include htarget in
/-- **After the third loop** nothing else is there. -/
theorem removeEntries {l : List Slot} (hnow : Sound now)
    (hl : ∀ p ∈ l, now.at_ p ≠ none ∧ target.at_ p = none) (hkept : Kept now target d)
    (hdirs : ∀ p, IsDirectory now target p → d.dirAt p = true)
    (hfiles : ∀ p, IsFile now target p → d.at_ p = (target.at_ p).map (Node.kept h))
    (hgone : ∀ p, now.at_ p ≠ none → target.at_ p = none → p ∉ l → d.at_ p = none) :
    ∃ d', runSteps h d (l.map removePath) = some d' ∧ Kept now target d' ∧
      (∀ p, IsDirectory now target p → d'.dirAt p = true) ∧
      (∀ p, IsFile now target p → d'.at_ p = (target.at_ p).map (Node.kept h)) ∧
      ∀ p, now.at_ p ≠ none → target.at_ p = none → d'.at_ p = none := by
  induction l generalizing d with
  | nil => exact ⟨d, rfl, hkept, hdirs, hfiles, fun p hp hn => hgone p hp hn List.not_mem_nil⟩
  | cons p l ih =>
    obtain ⟨hat, hnone⟩ := hl p List.mem_cons_self
    have hchanged : changed now target p = true :=
      changed_iff.mpr ⟨p, List.prefix_rfl, fun heq =>
        hat (Option.map_eq_none_iff.mp (heq.trans hnone))⟩
    by_cases hthere : d.at_ p = none
    · have hrest :=
        ih (fun q hq => hl q (List.mem_cons_of_mem _ hq)) hkept hdirs hfiles fun q hq hqn hmem => by
        by_cases hqp : q = p
        · exact hqp ▸ hthere
        · exact hgone q hq hqn fun hm => (List.mem_cons.mp hm).elim hqp hmem
      obtain ⟨d', hrun', hall⟩ := hrest
      refine ⟨d', ?_, hall⟩
      rw [List.map_cons]
      have hnothing : d.run h (removePath p d) = some d := by
        rw [removePath_eq_nil hkept.sound (hnow.ne_nil hat) hthere]
        rfl
      exact runSteps_cons hnothing hrun'
    have hne := hkept.sound.ne_nil hthere
    have hnotDir : target.dirAt p = false := by
      unfold Disk.dirAt
      rw [hnone]
      rfl
    have hapart : ∀ q, target.at_ q ≠ none → ¬ p <+: q := fun q hq hpre => by
      by_cases hqp : q = p
      · exact hq (hqp ▸ hnone)
      · exact hq (htarget.at_below hne hnotDir hpre hqp)
    obtain ⟨d₁, hrun, hempty, hframe⟩ := removePath_spec (h := h) hkept.sound p
    have hkept₁ : Kept now target d₁ := hkept.of_frame (hkept.sound.run hrun) hframe
      (changed_above hchanged (List.dropLast_prefix p)) (fun q hq hsome =>
        absurd (hempty q hq) hsome)
      fun q hq hun => by
        rw [hempty q hq, eq_none_of_unchanged hun List.prefix_rfl]
        by_contra hsome
        exact hapart q hsome hq
    obtain ⟨d', hrun', hkept', hdirs', hfiles', hgone'⟩ :=
      ih (fun q hq => hl q (List.mem_cons_of_mem _ hq)) hkept₁ (fun q hq => by
        rw [hframe.dirAt_eq (hapart q (at_ne_none_of_dirAt hq.2))]
        exact hdirs q hq)
      (fun q hq => by
        have hqat := at_ne_none_of_fileAt hq.2
        rw [hframe.at_eq (hapart q hqat), hfiles q hq]
        -- What is there is in a directory, which is no file of the target.
        rintro rfl
        rcases (housed_iff.mp (hkept.sound p hthere)).2 with hroot | hdir
        · exact htarget.ne_nil hqat hroot
        · rw [dirAt_eq_of_kept (hfiles _ hq), not_dirAt_of_fileAt hq.2] at hdir
          exact absurd hdir (by simp))
      fun q hq hqn hmem => by
        by_cases hpre : p <+: q
        · exact hempty q hpre
        · refine (hframe.eq_none_iff hpre).mpr (hgone q hq hqn fun hm => ?_)
          rcases List.mem_cons.mp hm with rfl | hm
          · exact hpre List.prefix_rfl
          · exact hmem hm
    exact ⟨d', by rw [List.map_cons]; exact runSteps_cons hrun hrun', hkept',
      hdirs', hfiles', hgone'⟩

/-- **After the last loop** the directories are as they should be. -/
theorem finishDirectories {l : List Slot} (hl : ∀ p ∈ l, d.dirAt p = true ∧ target.dirAt p = true)
    (hdone : ∀ p, p ∉ l → AsIn h d target p) :
    ∃ d', runSteps h d (l.flatMap (finishDirectory target)) = some d' ∧
    ∀ p, AsIn h d' target p := by
  induction l generalizing d with
  | nil => exact ⟨d, rfl, fun p => hdone p List.not_mem_nil⟩
  | cons p l ih =>
    obtain ⟨hthere, hdir⟩ := hl p List.mem_cons_self
    obtain ⟨d₁, hrun, hat, hsame⟩ := finishDirectory_spec (h := h) hthere hdir
    have hstill : ∀ q, d₁.at_ q = target.at_ q ∨ q ≠ p ∧ d₁.at_ q = d.at_ q := fun q => by
      by_cases hqp : q = p
      · exact Or.inl (hqp ▸ hat)
      · exact Or.inr ⟨hqp, hsame q hqp⟩
    obtain ⟨d', hrun', hall⟩ := ih
      (fun q hq => by
        obtain ⟨hthere', hdir'⟩ := hl q (List.mem_cons_of_mem _ hq)
        refine ⟨?_, hdir'⟩
        unfold Disk.dirAt
        rcases hstill q with heq | ⟨-, heq⟩ <;> rw [heq]
        · exact hdir'
        · exact hthere')
      fun q hmem => by
        rcases hstill q with heq | ⟨hqp, heq⟩
        · rw [AsIn, heq]
        · rw [AsIn, heq]
          exact hdone q fun hm => (List.mem_cons.mp hm).elim hqp hmem
    exact ⟨d', by rw [List.flatMap_cons]; exact runSteps_append hrun hrun', hall⟩

end Rewind

section Reach

variable {now target : Disk} {p : Slot}

/-- The directories of a plan. -/
theorem mem_changedDirs : p ∈ changedDirs now target ↔ IsDirectory now target p := by
  unfold changedDirs IsDirectory
  rw [List.mem_filter, mem_paths, Bool.and_eq_true]
  exact ⟨And.right, fun hp => ⟨at_ne_none_of_dirAt hp.2, hp⟩⟩

/-- The files of a plan. -/
theorem mem_changedFiles : p ∈ changedFiles now target ↔ IsFile now target p := by
  unfold changedFiles IsFile
  rw [List.mem_filter, mem_paths, Bool.and_eq_true]
  exact ⟨And.right, fun hp => ⟨at_ne_none_of_fileAt hp.2, hp⟩⟩

/-- The removals of a plan. -/
theorem mem_removals : p ∈ removals now target ↔ now.at_ p ≠ none ∧ target.at_ p = none := by
  unfold removals
  rw [List.mem_insertionSort, List.mem_filter, mem_paths, Option.isNone_iff_eq_none]

/-- **A rewind reaches its target**, whatever is there: all calls succeed, and the workspace is that
of the target with all contents, modes and times, and with the attributes that can be restored.

**Proof sketch.** Every loop keeps what has not changed.  The first one makes all directories of the
target that have changed, each after the one above; the second one writes the files, in directories
that are there; the third one removes the rest, which is below no file and no directory of the
target. The times of directories move until the last loop, which sets them. -/
theorem run_rewindCalls (h : Host) (now target : Workspace) :
    ∃ d', now.toDisk.run h (rewindCalls h now.toDisk target.toDisk) = some d' ∧
      ∀ p, AsIn h d' target.toDisk p := by
  have hnow := now.housed_of_at
  have htarget := target.housed_of_at
  have hkept : Kept now.toDisk target.toDisk now.toDisk :=
    ⟨hnow, fun q hq => Or.inl hq, fun q _ => rfl⟩
  have hsorted : (changedDirs now.toDisk target.toDisk).Pairwise fun p q =>
      Shrink.joinPath p ≤ Shrink.joinPath q := (List.pairwise_insertionSort _ _).filter _
  obtain ⟨d₁, hrun₁, hkept₁, hdirs₁⟩ :=
    makeDirectories (h := h) htarget (fun p hp => mem_changedDirs.mp hp) hsorted hkept fun p hp
      hmem => absurd (mem_changedDirs.mpr hp) hmem
  obtain ⟨d₂, hrun₂, hkept₂, hdirs₂, hfiles₂⟩ := writeFiles (h := h) htarget
    (fun p hp => mem_changedFiles.mp hp) hkept₁ hdirs₁ fun p hp hmem =>
      absurd (mem_changedFiles.mpr hp) hmem
  obtain ⟨d₃, hrun₃, hkept₃, hdirs₃, hfiles₃, hgone₃⟩ := removeEntries (h := h) htarget hnow
    (fun p hp => mem_removals.mp hp) hkept₂ hdirs₂ hfiles₂
    fun p hp hn hmem => absurd (mem_removals.mpr ⟨hp, hn⟩) hmem
  have hdone : ∀ p, p ∉ (changedDirs now.toDisk target.toDisk).reverse →
      AsIn h d₃ target.toDisk p := by
    intro p hmem
    rw [List.mem_reverse, mem_changedDirs] at hmem
    cases hchanged : changed now.toDisk target.toDisk p with
    | false => exact AsIn.of_unchanged hchanged (hkept₃.fixed p hchanged)
    | true =>
      rcases target.toDisk.at_cases p with ⟨hnone, -⟩ | ⟨hdir, -⟩ | ⟨hfile, -⟩
      · have hgone : d₃.at_ p = none := by
          by_contra hsome
          rcases hkept₃.known p hsome with hat | hat
          · exact hsome (hgone₃ p hat hnone)
          · exact hat hnone
        rw [AsIn, hgone, hnone]
      · exact absurd ⟨hchanged, hdir⟩ hmem
      · exact AsIn.of_kept (hfiles₃ p ⟨hchanged, hfile⟩)
  obtain ⟨d₄, hrun₄, hall⟩ := finishDirectories (h := h)
    (fun p hp => by
      have hdir := mem_changedDirs.mp (List.mem_reverse.mp hp)
      exact ⟨hdirs₃ p hdir, hdir.2⟩) hdone
  exact ⟨d₄,
    run_script (runSteps_append hrun₁ (runSteps_append hrun₂ (runSteps_append hrun₃ hrun₄))), hall⟩

end Reach

/-! ## Cut short -/

/-- `verify_plan_state`: the paths of a plan are as they should be.  What is said of attributes is
that they can be set. -/
def verify (now target d : Disk) : Bool :=
  ((now.paths ++ target.paths).filter (changed now target)).all fun p =>
    (d.at_ p).map Node.plain = (target.at_ p).map Node.plain

/-- A workspace after calls, as far as they go. -/
def Workspace.halt (h : Host) (w : Workspace) (calls : List Call) : Workspace :=
  ⟨w.toDisk.halt h calls, w.housed_of_at.halt calls⟩

/-- What a capture records at a path. -/
theorem at_captured (d : Disk) (p : Slot) :
    ({ d with entries := d.entries.mapValues Node.captured } : Disk).at_ p =
      (d.at_ p).map Node.captured :=
  OrdMap.get?_mapValues d.entries Node.captured p

/-- What is captured is in directories. -/
theorem Sound.captured {d : Disk} (hsound : Sound d) :
    Sound { d with entries := d.entries.mapValues Node.captured } := by
  intro p hp
  have hat : d.at_ p ≠ none := fun hnone => hp (by rw [at_captured, hnone]; rfl)
  have hdir : ({ d with entries := d.entries.mapValues Node.captured } : Disk).dirAt p.dropLast =
      d.dirAt p.dropLast := by
    unfold Disk.dirAt
    rw [at_captured]
    cases d.at_ p.dropLast with
    | none => rfl
    | some node => exact Node.isDir_captured node
  rw [housed_iff, hdir, ← housed_iff]
  exact hsound p hat

/-- The snapshot of a workspace. -/
def Workspace.captured (w : Workspace) : Workspace :=
  ⟨{ w.toDisk with entries := w.entries.mapValues Node.captured }, w.housed_of_at.captured⟩

/-- What is in a workspace, but for attributes that cannot be restored. -/
def Workspace.content (h : Host) (w : Workspace) (p : Slot) : Option Node :=
  (w.at_ p).map (Node.kept h)

/-- A workspace, and the note of a rewind that has not come to its end. -/
structure Machine where
  disk : Workspace
  note : Option Workspace

/-- What becomes of a rewind: it gets through; the process stops after some calls; or a call fails
after some, and the rewind back gets through, or ends after some. -/
inductive Course
  | through
  | stops (n : ℕ)
  | fails (n : ℕ) (back : Option ℕ)

/-- What happens: a rewind; a start, whose recovery may end after some calls; anything else in the
workspace. -/
inductive Event
  | rewind (target : Workspace) (course : Course)
  | reopen (cut : Option ℕ)
  | edit (w : Workspace)

namespace Machine

variable (h : Host)

/-- A rewind that may end after some calls, and whether it got through. -/
def attempt (w target : Workspace) (cut : Option ℕ) : Workspace × Bool :=
  let calls := rewindCalls h w.toDisk target.toDisk
  match cut with
  | none => (w.halt h calls, (w.toDisk.run h calls).isSome)
  | some n => (w.halt h (calls.take n), false)

/-- The rewind back after an error. -/
def rollback (pre w : Workspace) (cut : Option ℕ) : Machine :=
  let (after, done) := attempt h w pre cut
  ⟨after, if done && verify w.toDisk pre.toDisk after.toDisk then none else some pre⟩

/-- `rewind`, with a note of the workspace as it is, in the place of an earlier one. -/
def rewind (w target : Workspace) : Course → Machine
  | .through =>
    let (after, done) := attempt h w target none
    if done && verify w.toDisk target.toDisk after.toDisk then ⟨after, none⟩
    else rollback h w.captured after none
  | .stops n => ⟨(attempt h w target (some n)).1, some w.captured⟩
  | .fails n back => rollback h w.captured (attempt h w target (some n)).1 back

/-- `recover_interrupted_rewind` -/
def recover (pre w : Workspace) (cut : Option ℕ) : Machine :=
  let (after, done) := attempt h w pre cut
  ⟨after, if done then none else some pre⟩

/-- **What happens to a workspace.**  Only a start looks at the note. -/
def step (m : Machine) : Event → Machine
  | .rewind target course => rewind h m.disk target course
  | .reopen cut =>
    match m.note with
    | none => m
    | some pre => recover h pre m.disk cut
  | .edit w => { m with disk := w }

end Machine

/-- What a workspace is for its user: its content, or the one that it goes back to, and whether it
can be used. -/
structure Settled where
  content : Slot → Option Node
  ready : Bool

/-- A rewind that does not get through is one to what was there when it began. -/
def Settled.step (h : Host) (found : Slot → Option Node) (s : Settled) : Event → Settled
  | .rewind target .through => ⟨target.content h, true⟩
  | .rewind _ (.stops _) => ⟨found, false⟩
  | .rewind _ (.fails _ back) => ⟨found, back.isNone⟩
  | .reopen cut => ⟨s.content, s.ready || cut.isNone⟩
  | .edit w => if s.ready then ⟨w.content h, true⟩ else s

/-- The content is what is there, or what is noted. -/
def Machine.settled (h : Host) (m : Machine) : Settled :=
  ⟨(m.note.getD m.disk).content h, m.note.isNone⟩

/-- A rewind begins where no other one has been noted. -/
def Event.Fresh (m : Machine) : Event → Prop
  | .rewind _ _ => m.note = none
  | _ => True

section Settle

variable {h : Host}

/-- Calls that all succeed go to their end. -/
theorem halt_eq {d d' : Disk} {calls : List Call} (hrun : d.run h calls = some d') :
    d.halt h calls = d' := by
  induction calls generalizing d with
  | nil => exact Option.some.inj hrun
  | cons c calls ih =>
    unfold Disk.run at hrun
    rw [List.foldlM_cons] at hrun
    obtain ⟨e, he, hrest⟩ := Option.bind_eq_some_iff.mp hrun
    rw [Disk.halt, he]
    exact ih hrest

/-- An attempt that is not cut short gets through, and reaches its target. -/
theorem attempt_through (w target : Workspace) :
    (Machine.attempt h w target none).2 = true ∧
      ∀ p, AsIn h (Machine.attempt h w target none).1.toDisk target.toDisk p := by
  obtain ⟨d', hrun, hall⟩ := run_rewindCalls h w target
  unfold Machine.attempt
  dsimp only
  refine ⟨by rw [hrun]; rfl, fun p => ?_⟩
  unfold Workspace.halt
  dsimp only
  rw [halt_eq hrun]
  exact hall p

/-- A disk that is as the target at every path is verified. -/
theorem verify_of_asIn {now target d : Disk} (hall : ∀ p, AsIn h d target p) :
    verify now target d = true := by
  refine List.all_eq_true.mpr fun p _ => decide_eq_true ?_
  have hplain := congrArg (Option.map Node.plain) (hall p)
  rw [Option.map_map, Option.map_map] at hplain
  have hkept : Node.plain ∘ Node.kept h = Node.plain := funext (Node.plain_kept h)
  rwa [hkept] at hplain

/-- A capture of a workspace has the same content. -/
theorem content_captured (w : Workspace) : w.captured.content h = w.content h := by
  funext p
  unfold Workspace.content Workspace.captured
  dsimp only
  rw [at_captured, Option.map_map]
  congr 1
  funext node
  exact Node.kept_captured h node

/-- A rewind back leads to the content of before, or to an intent that does. -/
theorem settled_rollback (pre w : Workspace) (cut : Option ℕ) :
    (Machine.rollback h pre w cut).settled h = ⟨pre.content h, cut.isNone⟩ := by
  unfold Machine.rollback Machine.settled
  cases cut with
  | some n => rfl
  | none =>
    obtain ⟨hdone, hall⟩ := attempt_through (h := h) w pre
    dsimp only
    rw [hdone, verify_of_asIn hall]
    exact congrArg (Settled.mk · true) (funext hall)

/-- **A rewind** is one step, wherever it begins. -/
theorem settled_rewind (w target : Workspace) (course : Course) (s : Settled) :
    (Machine.rewind h w target course).settled h =
      s.step h (w.content h) (.rewind target course) := by
  cases course with
  | through =>
    obtain ⟨hdone, hall⟩ := attempt_through (h := h) w target
    unfold Machine.rewind
    dsimp only
    rw [hdone, verify_of_asIn hall]
    exact congrArg (Settled.mk · true) (funext hall)
  | stops n => exact congrArg (Settled.mk · false) (content_captured w)
  | fails n back =>
    refine (settled_rollback w.captured _ back).trans ?_
    rw [content_captured]
    rfl

/-- **One event** does to a machine what it does to its content. -/
theorem settled_step (m : Machine) (e : Event) :
    (m.step h e).settled h = (m.settled h).step h (m.disk.content h) e := by
  obtain ⟨disk, note⟩ := m
  cases e with
  | rewind target course => exact settled_rewind disk target course _
  | reopen cut =>
    cases note with
    | none => cases cut <;> rfl
    | some pre =>
      cases cut with
      | some n => rfl
      | none =>
        obtain ⟨hdone, hall⟩ := attempt_through (h := h) disk pre
        unfold Machine.step Machine.recover Machine.settled
        dsimp only
        rw [hdone]
        exact congrArg (Settled.mk · true) (funext hall)
  | edit w => cases note <;> rfl

/-- Where no other rewind has been noted, a rewind begins with the content. -/
theorem step_of_fresh (m : Machine) {e : Event} (he : e.Fresh m) :
    (m.settled h).step h (m.disk.content h) e = (m.settled h).step h (m.settled h).content e := by
  cases e with
  | rewind target course =>
    have hcontent : (m.settled h).content = m.disk.content h := by
      unfold Machine.settled
      rw [show m.note = none from he]
      rfl
    rw [hcontent]
  | reopen cut => rfl
  | edit w => rfl

/-- **Rewinds happen altogether or not at all.**  Whatever happens, and wherever rewinds, the
rewinds back and the recoveries are cut short: after a rewind that got through, the workspace has
the content of its target; after one that did not, it has the content that was there when the rewind
began, at once or when a recovery gets through.  As long as no rewind begins where another one has
been noted, those that did not get through have not happened. -/
theorem settled_steps (h : Host) (m : Machine) (events : List Event) :
    (∀ before e after, events = before ++ e :: after →
      ((before ++ [e]).foldl (Machine.step h) m).settled h =
        ((before.foldl (Machine.step h) m).settled h).step h
          ((before.foldl (Machine.step h) m).disk.content h) e) ∧
    (Run.Along (Machine.step h) (fun m e => e.Fresh m) m events →
      (events.foldl (Machine.step h) m).settled h =
        events.foldl (fun s e => s.step h s.content e) (m.settled h)) := by
  refine ⟨fun before e _ _ => ?_, fun hfresh => ?_⟩
  · rw [List.foldl_append, List.foldl_cons, List.foldl_nil, settled_step]
  · induction events generalizing m with
    | nil => rfl
    | cons e events ih =>
      obtain ⟨he, hrest⟩ := hfresh
      rw [List.foldl_cons, List.foldl_cons, ih _ hrest, settled_step, step_of_fresh m he]

end Settle

/-- A host with long temporary names. -/
def sampleHost : Host where
  clock n := (n, 0)
  takes name _ := name ≠ text "trusted.a"
  tempName names := List.replicate ((names.map List.length).sum + 1) 46
  tempName_new names hmem := by
    have hle := List.le_sum_of_mem (List.mem_map_of_mem (f := List.length) hmem)
    rw [List.length_replicate] at hle
    omega
  chunks content := [content]
  chunks_flatten content := by simp

/-- Every entry is in a directory if all are. -/
theorem sound_of_keys {d : Disk} (hall : (d.entries.keys.all fun p => d.housed p) = true) :
    Sound d :=
  fun _ hp => List.all_eq_true.mp hall _ (mem_keys.mpr hp)

/-- A file with an attribute that is captured and one that is not, and a directory that cannot be
written with a file in it. -/
def sampleBefore : Workspace where
  entries := OrdMap.empty.foldInsert
    [([[97]], .file [1] 292 (5, 0) (OrdMap.empty.foldInsert
        [(text "com.apple.quarantine", [1]), (text "user.a", [2])])),
      ([[98]], .directory 365 (6, 0)), ([[98], [99]], .file [3] 420 (7, 0) OrdMap.empty)]
  changes := 0
  housed_of_at := sound_of_keys (by decide)

/-- The file has become a directory with a file in it, and the directory a file. -/
def sampleAfter : Workspace where
  entries := OrdMap.empty.foldInsert
    [([[97]], .directory 365 (8, 0)),
      ([[97], [98]], .file [2] 292 (9, 0) (OrdMap.empty.foldInsert
        [(text "trusted.a", [1]), (text "user.a", [4])])),
      ([[98]], .file [5, 6] 420 (9, 0) OrdMap.empty)]
  changes := 0
  housed_of_at := sound_of_keys (by decide)

/-- A rewind from the one to the other: the attribute that the system does not take is left out. -/
theorem run_rewindCalls_sample :
    ∃ d', sampleBefore.toDisk.run sampleHost
        (rewindCalls sampleHost sampleBefore.toDisk sampleAfter.toDisk) = some d' ∧
      d'.at_ [[97], [98]] =
        some (.file [2] 292 (9, 0) (OrdMap.empty.insert (text "user.a") [4])) ∧
      d'.at_ [[98], [99]] = none := by
  obtain ⟨d', hrun, hall⟩ := run_rewindCalls sampleHost sampleBefore sampleAfter
  have hd : sampleBefore.toDisk.run sampleHost
      (rewindCalls sampleHost sampleBefore.toDisk sampleAfter.toDisk) = some d' := hrun
  refine ⟨d', hd, ?_, ?_⟩
  · have hcomputed :
        ((sampleBefore.toDisk.run sampleHost
          (rewindCalls sampleHost sampleBefore.toDisk sampleAfter.toDisk)).map fun d =>
          d.at_ [[97], [98]]) =
            some (some (.file [2] 292 (9, 0) (OrdMap.empty.insert (text "user.a") [4]))) := by
      decide
    rw [hd] at hcomputed
    exact Option.some.inj hcomputed
  · exact Option.map_eq_none_iff.mp ((hall [[98], [99]]).trans (by decide))

/-- A rewind is cut short, and so is the first recovery; after the second one it has not
happened. -/
theorem settled_steps_sample :
    (([.rewind sampleAfter (.stops 4), .reopen (some 2), .reopen none] : List Event).foldl
      (Machine.step sampleHost) ⟨sampleBefore, none⟩).settled sampleHost =
        ⟨sampleBefore.content sampleHost, true⟩ :=
  (settled_steps sampleHost ⟨sampleBefore, none⟩ _).2 ⟨rfl, trivial, trivial, trivial⟩

-- A file becomes a directory with a file in it.
example : rewindCalls sampleHost ⟨OrdMap.empty.insert [[97]] (.file [1] 420 (5, 0) OrdMap.empty), 0⟩
      ⟨(OrdMap.empty.insert [[97]] (.directory 365 (6, 0))).insert [[97],
        [98]] (.file [2] 420 (7, 0) OrdMap.empty), 0⟩ =
    [.unlink [[97]], .mkdir [[97]], .chmod [[97]] 493, .create [[97], [46]],
      .write [[97], [46]] [2],
      .chmod [[97], [46]] 420, .rename [[97], [46]] [[97], [98]], .utimes [[97], [98]] (7, 0),
      .chmod [[97]] 365, .utimes [[97]] (6, 0)] := by
  decide

end Crash

end Furrow
