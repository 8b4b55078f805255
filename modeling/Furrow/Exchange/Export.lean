import Furrow.Exchange.Frame
import Furrow.Lib.Fallible

set_option relaxedAutoImplicit false
set_option autoImplicit false

/-!
# Exporting a snapshot

The export of `exchange/export.rs`: the objects under a head that the ledger of a remote store
does not name are sealed and packed into frames, parents before children.  With the frames split
again into files, an import brings the snapshot into another store.

## Main definitions

* `Furrow.ExportJob.unsent`, `Furrow.ExportJob.run` — an export.
* `Furrow.Import.importFrames` — an import of frames.

## Main results

* `Furrow.ExportJob.run_spec` — the frames of an export hold the sealed objects that the ledger
  does not name.
* `Furrow.transfer_iff` — the snapshot arrives exactly if no object is too large for a frame.

## Implementation notes

Objects are sealed one by one as they are packed.  An object that cannot be sealed fails the
export whether or not frames were written before it, so here all are sealed first.
-/

namespace Furrow

/-- What goes wrong in an export. -/
inductive ExportError
  | limitTooLarge
  | incomplete (head : ObjectId)
  | exchange (e : ExchangeError)
  | cannotSeal (id : ObjectId)
  | frame (e : FrameError)
deriving DecidableEq

/-- Parents are sent before children. -/
def sendRank : ObjectKind → ℕ
  | .Snapshot => 0
  | .Tree => 1
  | .Xattrs => 2
  | .Blob => 3
  | .Chunk => 4

/-- The order in which objects are sent. -/
def sendBefore (a b : ObjectKind × ObjectId) : Bool :=
  decide (sendRank a.1 < sendRank b.1) ||
    (decide (sendRank a.1 = sendRank b.1) && decide (a.2 ≤ b.2))

/-- An export: how objects are read and sealed, the head, the key as frames name it, and the size
at which a frame is closed. -/
structure ExportJob where
  source : Import
  cellKeyId : Bytes
  limit : ℕ

namespace ExportJob

variable (job : ExportJob)

/-- The objects under the head that the ledger does not name, in the order they are sent. -/
def unsent (store : RawStore) (ledger : List ObjectId) :
    Except ExportError (List (ObjectKind × ObjectId)) :=
  match survey job.source.codec store job.source.head (some 1) with
  | .error e => .error (.exchange e)
  | .ok found =>
    if found.missing = [] then
      .ok ((found.present.filter fun e =>
        job.source.sealer.remoteId e.1 e.2 ∉ ledger).mergeSort sendBefore)
    else .error (.incomplete job.source.head)

/-- Seal an object of the store. -/
def sealStored (store : RawStore) (e : ObjectKind × ObjectId) :
    Except ExportError (ObjectId × Bytes) :=
  match store.readBytes e.2 e.1 with
  | .error error => .error (.exchange error)
  | .ok bytes =>
    match job.source.sealer.sealObject e.1 e.2 bytes with
    | none => .error (.cannotSeal e.2)
    | some file => .ok file

/-- **The export.** -/
def run (store : RawStore) (ledger : List ObjectId) : Except ExportError (List Frame) :=
  if maxFrame < job.limit then .error .limitTooLarge
  else
    match job.unsent store ledger with
    | .error e => .error e
    | .ok objects =>
      match objects.mapM (job.sealStored store) with
      | .error e => .error e
      | .ok sealed =>
        match pack job.cellKeyId job.limit sealed with
        | .error e => .error (.frame e)
        | .ok frames => .ok frames

end ExportJob

/-- Split frames into files and import them. -/
def Import.importFrames (job : Import) (fromSlice : Bytes → Option Header) (st : ImportState)
    (frames : List Frame) : Except FrameError (Except ExchangeError Taken × ImportState) :=
  match frames.mapM fun frame => decodeFrame fromSlice frame.bytes with
  | .error e => .error e
  | .ok decoded =>
    .ok (job.run { st with inbox := st.inbox.foldInsert (decoded.flatMap Prod.snd) })

section Spec

variable {job : ExportJob} {D start : RawStore} {ledger : List ObjectId}

/-- In a store that holds the whole snapshot, all of it is reached. -/
theorem reached_of_complete {codec : ObjectCodec} {head : ObjectId} (hD : Complete codec D head)
    {id : ObjectId} (h : Closure codec D head id) : Reached codec D D head id := by
  have hmem : id ∈ {x | Reached codec D D head x} := by
    refine Arrival.Reach.subset .root ?_ h
    intro x hx _ y hy
    obtain ⟨kind, bytes, hbytes⟩ := hD.hasKind (Reached.closure hx)
    exact Arrival.Reach.step hx (Option.isSome_iff_exists.mpr ⟨_, hbytes⟩) hy
  exact hmem

variable (job D ledger) in
/-- An object of the snapshot that the ledger does not name, and the file it is sealed into. -/
def ExportJob.Sends (file : ObjectId × Bytes) : Prop :=
  ∃ kind id bytes, Closure job.source.codec D job.source.head id ∧
    D.get? id = some (kind, bytes) ∧ job.source.sealer.remoteId kind id ∉ ledger ∧
    job.source.sealer.sealObject kind id bytes = some file

/-- What is sent: all that is reached and is not in the ledger. -/
theorem ExportJob.mem_unsent (hsrc : job.source.Source D)
    {objects : List (ObjectKind × ObjectId)} (h : job.unsent D ledger = .ok objects)
    {e : ObjectKind × ObjectId} :
    e ∈ objects ↔ Closure job.source.codec D job.source.head e.2 ∧ D.HasKind e ∧
      job.source.sealer.remoteId e.1 e.2 ∉ ledger := by
  have hagree : Agree D D := by
    intro id x y hx hy
    rw [hx] at hy
    exact Option.some.inj hy
  obtain ⟨found, hrun, hsound, hend⟩ := survey_spec hsrc.complete hagree (some 1)
  unfold ExportJob.unsent at h
  rw [hrun] at h
  simp only at h
  split_ifs at h with hnil
  cases h
  have hall : ∀ id, Reached job.source.codec D D job.source.head id →
      id ∈ idsOf found.present := by
    intro id hid
    rcases hend with henough | hend
    · unfold Walk.enough at henough
      rw [hnil] at henough
      exact absurd henough (by decide)
    · rcases hend id hid with hid | ⟨kind, hid⟩
      · exact hid
      · rw [hnil] at hid
        exact absurd hid List.not_mem_nil
  rw [List.mem_mergeSort, List.mem_filter, decide_eq_true_eq]
  constructor
  · rintro ⟨hmem, hledger⟩
    obtain ⟨-, hkind, hreach⟩ := hsound.present e hmem
    exact ⟨hreach.closure, hkind, hledger⟩
  · rintro ⟨hclosure, hkind, hledger⟩
    obtain ⟨kind, hmem⟩ := hall e.2 (reached_of_complete hsrc.complete hclosure)
    have heq : kind = e.1 := RawStore.HasKind.unique (hsound.present _ hmem).2.1 hkind
    subst heq
    exact ⟨hmem, hledger⟩

/-- A stored object is sealed as it is. -/
theorem ExportJob.sealStored_eq_ok {e : ObjectKind × ObjectId} {bytes : Bytes}
    {file : ObjectId × Bytes} (hget : D.get? e.2 = some (e.1, bytes)) :
    job.sealStored D e = .ok file ↔ job.source.sealer.sealObject e.1 e.2 bytes = some file := by
  have hread : D.readBytes e.2 e.1 = .ok bytes := by
    unfold RawStore.readBytes
    rw [hget]
    exact if_pos rfl
  unfold ExportJob.sealStored
  rw [hread]
  cases hseal : job.source.sealer.sealObject e.1 e.2 bytes with
  | none => simp [hseal]
  | some f => simp [hseal]

/-- No object is sent twice. -/
theorem ExportJob.nodup_unsent {objects : List (ObjectKind × ObjectId)}
    (h : job.unsent D ledger = .ok objects) : (objects.map Prod.snd).Nodup := by
  unfold ExportJob.unsent at h
  cases hrun : survey job.source.codec D job.source.head (some 1) with
  | error e =>
    rw [hrun] at h
    cases h
  | ok found =>
    rw [hrun] at h
    simp only at h
    split_ifs at h with hnil
    cases h
    have hperm := (List.mergeSort_perm (found.present.filter fun e =>
      job.source.sealer.remoteId e.1 e.2 ∉ ledger) sendBefore).map Prod.snd
    rw [hperm.nodup_iff]
    exact (survey_nodup hrun).sublist (List.filter_sublist.map Prod.snd)

/-- **What an export sends**: the sealed objects that the ledger does not name, each once, in
the frames of groups of them. -/
theorem ExportJob.run_spec (hsrc : job.source.Source D) {frames : List Frame}
    (h : job.run D ledger = .ok frames) :
    job.limit ≤ maxFrame ∧ ∃ groups : List (List (ObjectId × Bytes)),
      (∀ file, file ∈ groups.flatten ↔ job.Sends D ledger file) ∧
      (∀ e : ObjectKind × ObjectId, Closure job.source.codec D job.source.head e.2 →
        D.HasKind e → job.source.sealer.remoteId e.1 e.2 ∉ ledger →
        job.source.sealer.remoteId e.1 e.2 ∈ groups.flatten.map Prod.fst) ∧
      (groups.flatten.map Prod.fst).Nodup ∧
      frames.map Frame.bytes = groups.map (frameBytesOf job.cellKeyId) ∧
      ∀ g ∈ groups, Grouped job.cellKeyId job.limit g ∧
        (headerOf job.cellKeyId g).length ≤ maxHeader := by
  unfold ExportJob.run at h
  split_ifs at h with hlimit
  refine ⟨not_lt.mp hlimit, ?_⟩
  cases hunsent : job.unsent D ledger with
  | error e =>
    rw [hunsent] at h
    cases h
  | ok objects =>
    rw [hunsent] at h
    simp only at h
    cases hsealed : objects.mapM (job.sealStored D) with
    | error e =>
      rw [hsealed] at h
      cases h
    | ok sealed =>
      rw [hsealed] at h
      simp only at h
      cases hpack : pack job.cellKeyId job.limit sealed with
      | error e =>
        rw [hpack] at h
        cases h
      | ok packed =>
        rw [hpack] at h
        cases h
        obtain ⟨groups, hflat, hbytes, hgroups⟩ := pack_spec hpack
        have hall := Fallible.mapM_eq_ok_iff.mp hsealed
        have hsend : List.Forall₂ (fun e file => Closure job.source.codec D job.source.head e.2 ∧
            D.HasKind e ∧ file.1 = job.source.sealer.remoteId e.1 e.2) objects sealed := by
          have hmem : ∀ e ∈ objects, Closure job.source.codec D job.source.head e.2 ∧
              D.HasKind e := fun e he =>
            ⟨((ExportJob.mem_unsent hsrc hunsent).mp he).1,
              ((ExportJob.mem_unsent hsrc hunsent).mp he).2.1⟩
          clear hsealed hunsent hpack hflat
          induction hall with
          | nil => exact .nil
          | @cons e file objects sealed hone _ ih =>
            obtain ⟨hclosure, bytes, hget⟩ := hmem e List.mem_cons_self
            obtain ⟨-, hrid, -⟩ :=
              CellSealer.sealObject_eq_some ((ExportJob.sealStored_eq_ok hget).mp hone)
            exact .cons ⟨hclosure, ⟨bytes, hget⟩, hrid⟩
              (ih fun d hd => hmem d (List.mem_cons_of_mem _ hd))
        refine ⟨groups, ?_, ?_, ?_, hbytes, hgroups⟩
        · intro file
          rw [hflat]
          constructor
          · intro hfile
            obtain ⟨e, he, hone⟩ := Fallible.exists_left_of_forall₂ hall hfile
            obtain ⟨hclosure, ⟨bytes, hget⟩, hledger⟩ :=
              (ExportJob.mem_unsent hsrc hunsent).mp he
            exact ⟨e.1, e.2, bytes, hclosure, hget, hledger,
              (ExportJob.sealStored_eq_ok hget).mp hone⟩
          · rintro ⟨kind, id, bytes, hclosure, hget, hledger, hseal⟩
            have he := (ExportJob.mem_unsent (e := (kind, id)) hsrc hunsent).mpr
              ⟨hclosure, ⟨bytes, hget⟩, hledger⟩
            obtain ⟨file', hfile', hone⟩ := Fallible.exists_right_of_forall₂ hall he
            have hseal' := (ExportJob.sealStored_eq_ok (e := (kind, id)) hget).mp hone
            rw [hseal] at hseal'
            rw [Option.some.inj hseal']
            exact hfile'
        · intro e hclosure hkind hledger
          have he := (ExportJob.mem_unsent hsrc hunsent).mpr ⟨hclosure, hkind, hledger⟩
          obtain ⟨file, hfile, -, -, hrid⟩ := Fallible.exists_right_of_forall₂ hsend he
          rw [hflat, ← hrid]
          exact List.mem_map_of_mem hfile
        · rw [hflat]
          have hnodup := ExportJob.nodup_unsent hunsent
          clear hall hsealed hunsent hpack hflat
          induction hsend with
          | nil => exact List.nodup_nil
          | @cons e file objects sealed hone hrest ih =>
            rw [List.map_cons, List.nodup_cons] at hnodup ⊢
            refine ⟨?_, ih hnodup.2⟩
            intro hmem
            obtain ⟨file', hfile', heq⟩ := List.mem_map.mp hmem
            obtain ⟨e', he', hclosure', hkind', hrid'⟩ :=
              Fallible.exists_left_of_forall₂ hrest hfile'
            have hid : e'.2 = e.2 := hsrc.distinct e' e hclosure' hone.1 hkind' hone.2.1
              (hrid'.symm.trans (heq.trans hone.2.2))
            exact hnodup.1 (List.mem_map.mpr ⟨e', he', hid⟩)

/-! ## The transfer -/

/-- Frames that may be sent are decoded to their groups. -/
theorem mapM_decodeFrame {fromSlice : Bytes → Option Header} {cellKeyId : Bytes}
    (hreads : ReadsHeaders fromSlice) {groups : List (List (ObjectId × Bytes))}
    {frames : List Frame} (hbytes : frames.map Frame.bytes = groups.map (frameBytesOf cellKeyId))
    (hgroups : ∀ g ∈ groups, Sendable cellKeyId g) :
    ((∀ g ∈ groups, (frameBytesOf cellKeyId g).length ≤ maxFrame) →
        (frames.mapM fun frame => decodeFrame fromSlice frame.bytes) =
          .ok (groups.map fun g => (cellKeyId, g))) ∧
      ((∃ decoded, (frames.mapM fun frame => decodeFrame fromSlice frame.bytes) = .ok decoded) →
        ∀ g ∈ groups, (frameBytesOf cellKeyId g).length ≤ maxFrame) := by
  have hpairs : List.Forall₂ (fun frame g => frame.bytes = frameBytesOf cellKeyId g)
      frames groups := by
    have hmap : List.Forall₂ (· = ·) (frames.map Frame.bytes)
        (groups.map (frameBytesOf cellKeyId)) := by
      rw [hbytes]
      exact List.forall₂_refl _
    rwa [List.forall₂_map_left_iff, List.forall₂_map_right_iff] at hmap
  clear hbytes
  constructor
  · intro hsmall
    rw [Fallible.mapM_eq_ok_iff, List.forall₂_map_right_iff]
    induction hpairs with
    | nil => exact .nil
    | @cons frame g frames groups heq _ ih =>
      refine .cons ?_ (ih (fun d hd => hgroups d (List.mem_cons_of_mem _ hd))
        fun d hd => hsmall d (List.mem_cons_of_mem _ hd))
      rw [heq, decodeFrame_frameBytesOf hreads (hgroups g List.mem_cons_self),
        if_neg (not_lt.mpr (hsmall g List.mem_cons_self))]
  · rintro ⟨decoded, hdecoded⟩ g hg
    obtain ⟨frame, hframe, heq⟩ := Fallible.exists_left_of_forall₂ hpairs hg
    obtain ⟨result, -, hone⟩ :=
      Fallible.exists_right_of_forall₂ (Fallible.mapM_eq_ok_iff.mp hdecoded) hframe
    rw [heq, decodeFrame_frameBytesOf hreads (hgroups g hg)] at hone
    split_ifs at hone with hlarge
    exact not_lt.mp hlarge

/-- The sealed objects that are sent are files of the snapshot. -/
theorem ExportJob.Sends.isFile {file : ObjectId × Bytes} (h : job.Sends D ledger file) :
    job.source.IsFile D file := by
  obtain ⟨kind, id, bytes, hclosure, hget, -, hseal⟩ := h
  exact ⟨kind, id, bytes, hclosure, hget, hseal⟩

/-- **What a receiver holds after it has imported all that was sent**: the snapshot, if it held
what the ledger names. -/
theorem ExportJob.receive (hsrc : job.source.Source D) (hagree : Agree start D)
    (hledger : ∀ e : ObjectKind × ObjectId, Closure job.source.codec D job.source.head e.2 →
      D.HasKind e → job.source.sealer.remoteId e.1 e.2 ∈ ledger → e.2 ∈ start.held)
    {files : List (ObjectId × Bytes)} (hfiles : ∀ file ∈ files, job.Sends D ledger file)
    (hall : ∀ e : ObjectKind × ObjectId, Closure job.source.codec D job.source.head e.2 →
      D.HasKind e → job.source.sealer.remoteId e.1 e.2 ∉ ledger →
      job.source.sealer.remoteId e.1 e.2 ∈ files.map Prod.fst) :
    (job.source.run ⟨start, OrdMap.empty.foldInsert files⟩).1.isOk = true ∧
      (∀ id, Closure job.source.codec D job.source.head id →
        (job.source.run ⟨start, OrdMap.empty.foldInsert files⟩).2.store.get? id = D.get? id) ∧
      want job.source.codec job.source.sealer
        (job.source.run ⟨start, OrdMap.empty.foldInsert files⟩).2.store job.source.head =
          .ok [] := by
  have hF : ∀ file ∈ files, job.source.IsFile D file := fun file hfile => (hfiles file hfile).isFile
  have hstart : ImportState.Inv job.source D start files ∅ ⟨start, OrdMap.empty⟩ :=
    ImportState.inv_start
  obtain ⟨hgrown, hheld, hok⟩ :=
    (hstart.deliver fun f (hf : f ∈ files) => hf).run hsrc hagree hF Set.subset_union_right
  set after := (job.source.run ⟨start, OrdMap.empty.foldInsert files⟩).2.store with hafter
  have hcover : ∀ id, Closure job.source.codec D job.source.head id →
      id ∈ start.held ∪ job.source.objectsOf D (namesOf files) := by
    intro id hid
    obtain ⟨kind, hkind⟩ := hsrc.complete.hasKind hid
    by_cases hrid : job.source.sealer.remoteId kind id ∈ ledger
    · exact Or.inl (hledger (kind, id) hid hkind hrid)
    · exact Or.inr ⟨hid, kind, hkind, hall (kind, id) hid hkind hrid⟩
  have hreach : ∀ id, Closure job.source.codec D job.source.head id →
      Arrival.Reach (Refers job.source.codec D) job.source.head
        (start.held ∪ job.source.objectsOf D (namesOf files)) id := by
    intro id hid
    have hmem : id ∈ {x | Closure job.source.codec D job.source.head x ∧
        Arrival.Reach (Refers job.source.codec D) job.source.head
          (start.held ∪ job.source.objectsOf D (namesOf files)) x} := by
      refine Arrival.Reach.subset ?_ ?_ hid
      · exact ⟨Arrival.Reach.root, Arrival.Reach.root⟩
      · rintro x ⟨hx, hreach⟩ _ y hy
        exact ⟨Arrival.Reach.step hx trivial hy, Arrival.Reach.step hreach (hcover x hx) hy⟩
    exact hmem.2
  have hin : ∀ id, Closure job.source.codec D job.source.head id → id ∈ after.held := by
    intro id hid
    rw [hheld]
    rcases hcover id hid with hstart | harrived
    · exact Or.inl hstart
    · exact Or.inr ⟨harrived, hreach id hid⟩
  refine ⟨?_, ?_, (want_eq_nil_iff hsrc (hgrown.agree hagree)).mpr hin⟩
  · rw [hok]
    rintro rid - id ⟨hid, -⟩
    refine ⟨hin id hid, (hreach id hid).mono ?_⟩
    rintro x (hx | hx)
    · exact hgrown.held hx
    · exact hin x hx.1
  · intro id hid
    obtain ⟨kind, bytes, hget⟩ := hsrc.complete.hasKind hid
    obtain ⟨o, ho⟩ := Option.isSome_iff_exists.mp (hin id hid)
    simp only at hget
    rw [ho, hget, hgrown.agree hagree id o _ ho hget]

variable (job D ledger) in
/-- Every object that an export sends fits into a frame of its own that the store takes. -/
def ExportJob.FitsFrames : Prop :=
  ∀ file, job.Sends D ledger file → (frameBytesOf job.cellKeyId [file]).length ≤ maxFrame

/-- The frames of an export can be split exactly if every object fits into a frame. -/
theorem ExportJob.frames_small_iff {groups : List (List (ObjectId × Bytes))}
    (hmem : ∀ file, file ∈ groups.flatten ↔ job.Sends D ledger file)
    (hlimit : job.limit ≤ maxFrame)
    (hgroups : ∀ g ∈ groups, Grouped job.cellKeyId job.limit g) :
    (∀ g ∈ groups, (frameBytesOf job.cellKeyId g).length ≤ maxFrame) ↔
      job.FitsFrames D ledger := by
  constructor
  · intro hsmall file hfile
    obtain ⟨g, hg, hin⟩ := List.mem_flatten.mp ((hmem file).mpr hfile)
    exact (length_single_le hin).trans (hsmall g hg)
  · intro hfits g hg
    rcases (hgroups g hg).small with ⟨o, rfl⟩ | hsmall
    · exact hfits o ((hmem o).mp (List.mem_flatten.mpr ⟨[o], hg, List.mem_cons_self⟩))
    · exact hsmall.trans hlimit

/-- **A snapshot arrives exactly if no object is too large for a frame.**  The store of the
sender holds the whole snapshot, the receiver what the ledger names, and packing has succeeded.
Then the frames can be split and imported, with every object of the snapshot as the sender has it
and nothing left to want, if and only if each object that was sent fits into a frame that the
store takes. -/
theorem transfer_iff (job : ExportJob) (D start : RawStore) (ledger : List ObjectId)
    (fromSlice : Bytes → Option Header) (frames : List Frame) (hsrc : job.source.Source D)
    (hagree : Agree start D) (hreads : ReadsHeaders fromSlice)
    (hkey : isKeyId job.cellKeyId = true)
    (hmagic : ∀ kind id bytes file, job.source.sealer.sealObject kind id bytes = some file →
      sealMagic <+: file.2)
    (hledger : ∀ e : ObjectKind × ObjectId, Closure job.source.codec D job.source.head e.2 →
      D.HasKind e → job.source.sealer.remoteId e.1 e.2 ∈ ledger → e.2 ∈ start.held)
    (hexport : job.run D ledger = .ok frames) :
    (∃ result,
        job.source.importFrames fromSlice ⟨start, OrdMap.empty⟩ frames = .ok result ∧
        result.1.isOk = true ∧
        (∀ id, Closure job.source.codec D job.source.head id →
          result.2.store.get? id = D.get? id) ∧
        want job.source.codec job.source.sealer result.2.store job.source.head = .ok []) ↔
      job.FitsFrames D ledger := by
  obtain ⟨hlimit, groups, hmem, hsent, hnodup, hbytes, hgroups⟩ := ExportJob.run_spec hsrc hexport
  have hsendable : ∀ g ∈ groups, Sendable job.cellKeyId g := by
    intro g hg
    refine ⟨hkey, (hgroups g hg).1.nonempty, (hgroups g hg).2, ?_, ?_⟩
    · exact hnodup.sublist ((List.sublist_flatten_of_mem hg).map Prod.fst)
    · intro file hfile
      obtain ⟨kind, id, bytes, -, -, -, hseal⟩ :=
        (hmem file).mp (List.mem_flatten.mpr ⟨g, hg, hfile⟩)
      exact hmagic kind id bytes file hseal
  obtain ⟨hsplit, hsmall⟩ := mapM_decodeFrame hreads hbytes hsendable
  rw [← ExportJob.frames_small_iff hmem hlimit fun g hg => (hgroups g hg).1]
  constructor
  · rintro ⟨result, hresult, -⟩
    unfold Import.importFrames at hresult
    cases hdecoded : frames.mapM fun frame => decodeFrame fromSlice frame.bytes with
    | error e =>
      rw [hdecoded] at hresult
      cases hresult
    | ok decoded => exact hsmall ⟨decoded, hdecoded⟩
  · intro hall
    have hfiles : (groups.map fun g => (job.cellKeyId, g)).flatMap Prod.snd = groups.flatten := by
      rw [List.flatMap_map]
      exact List.flatMap_id
    refine ⟨job.source.run ⟨start, OrdMap.empty.foldInsert groups.flatten⟩, ?_,
      ExportJob.receive hsrc hagree hledger (fun file hfile => (hmem file).mp hfile) hsent⟩
    unfold Import.importFrames
    rw [hsplit hall]
    simp only [hfiles]

end Spec

/-! ## An object that is too large -/

/-- An export of which the ledger lacks one object. -/
theorem ExportJob.run_single {job : ExportJob} {D : RawStore} {ledger : List ObjectId}
    (hsrc : job.source.Source D) (hkey : isKeyId job.cellKeyId = true)
    (hlimit : job.limit ≤ maxFrame) {kind : ObjectKind} {id : ObjectId} {bytes : Bytes}
    {file : ObjectId × Bytes} (hclosure : Closure job.source.codec D job.source.head id)
    (hget : D.get? id = some (kind, bytes))
    (hseal : job.source.sealer.sealObject kind id bytes = some file)
    (hrid : job.source.sealer.remoteId kind id ∉ ledger)
    (hothers : ∀ e : ObjectKind × ObjectId, D.HasKind e →
      job.source.sealer.remoteId e.1 e.2 ∉ ledger → e.2 = id) :
    job.run D ledger = .ok [⟨frameBytesOf job.cellKeyId [file], [file.1]⟩] := by
  have hagree : Agree D D := by
    intro id x y hx hy
    rw [hx] at hy
    exact Option.some.inj hy
  obtain ⟨found, hrun, -, -⟩ := survey_spec hsrc.complete hagree (some 1)
  have hmissing : found.missing = [] := by
    rw [missing_eq_nil_iff hsrc.complete hagree (by decide) hrun]
    intro x hx
    obtain ⟨k, b, hb⟩ := hsrc.complete.hasKind hx
    exact Option.isSome_iff_exists.mpr ⟨_, hb⟩
  obtain ⟨objects, hunsent⟩ : ∃ objects, job.unsent D ledger = .ok objects := by
    unfold ExportJob.unsent
    rw [hrun]
    simp only [hmissing, if_true]
    exact ⟨_, rfl⟩
  have hmem : (kind, id) ∈ objects :=
    (ExportJob.mem_unsent hsrc hunsent).mpr ⟨hclosure, ⟨bytes, hget⟩, hrid⟩
  have hids : ∀ e ∈ objects, e = (kind, id) := by
    intro e he
    obtain ⟨-, hkind, hnot⟩ := (ExportJob.mem_unsent hsrc hunsent).mp he
    have hid := hothers e hkind hnot
    obtain ⟨k, x⟩ := e
    simp only at hid
    subst hid
    rw [RawStore.HasKind.unique hkind ⟨bytes, hget⟩]
  have hobjects : objects = [(kind, id)] := by
    have hnodup := ExportJob.nodup_unsent hunsent
    cases objects with
    | nil => exact absurd hmem List.not_mem_nil
    | cons e rest =>
      cases rest with
      | nil => rw [hids e List.mem_cons_self]
      | cons d rest =>
        have hd := hids d (List.mem_cons_of_mem _ List.mem_cons_self)
        rw [hids e List.mem_cons_self, hd] at hnodup
        simp at hnodup
  have hone : [(kind, id)].mapM (job.sealStored D) = .ok [file] := by
    rw [Fallible.mapM_eq_ok_iff]
    exact .cons ((ExportJob.sealStored_eq_ok hget).mpr hseal) .nil
  unfold ExportJob.run
  rw [if_neg (not_lt.mpr hlimit), hunsent, hobjects]
  simp only [hone, pack_single hkey file]

open scoped Classical in
/-- A reader of headers: the header that has the text. -/
noncomputable def readHeader (text : Bytes) : Option Header :=
  if h : ∃ p : Bytes × List (ObjectId × Bytes), isKeyId p.1 = true ∧ headerOf p.1 p.2 = text then
    some ⟨frameVersion, h.choose.1, refsFrom 0 h.choose.2⟩
  else none

/-- The reader of the samples reads the headers that are written. -/
theorem readHeader_reads : ReadsHeaders readHeader := by
  intro cellKeyId objects hkey
  have hex : ∃ p : Bytes × List (ObjectId × Bytes), isKeyId p.1 = true ∧
      headerOf p.1 p.2 = headerOf cellKeyId objects := ⟨(cellKeyId, objects), hkey, rfl⟩
  unfold readHeader
  rw [dif_pos hex]
  obtain ⟨hk, hr⟩ := headerOf_inj hex.choose_spec.1 hkey hex.choose_spec.2
  rw [hk, hr]

/-- A receiver that holds all of the sample snapshot but the manifest of its file. -/
def sampleReceiver : RawStore :=
  OrdMap.empty.foldInsert [(.fill 4, (.Snapshot, [1])), (.fill 3, (.Tree, [2])),
    (.fill 1, (.Chunk, [7]))]

/-- What the ledger names: all but the manifest. -/
def sampleLedger : List ObjectId := [.fill 4, .fill 3, .fill 1]

/-- A sender that holds the manifest too. -/
def manifestSender (manifest : Bytes) : RawStore :=
  sampleReceiver.insert (.fill 2) (.Blob, manifest)

/-- A list as it is stored. -/
def jsonArray (items : List Bytes) : Bytes :=
  text "[" ++ ((items.intersperse (text ",")).flatten ++ text "]")

/-- A chunk of a manifest as it is stored. -/
def ChunkRef.json (c : ChunkRef) : Bytes :=
  text "\x7b\"id\":" ++ (jsonArray (c.id.bytes.map fun b => decimal b.val) ++
    (text ",\"len\":" ++ (decimal c.len.toNat ++ text "\x7d")))

/-- A manifest as it is stored. -/
def Blob.json (blob : Blob) : Bytes :=
  text "\x7b\"chunks\":" ++
    (jsonArray (blob.chunks.map ChunkRef.json) ++
      (text ",\"total_len\":" ++
        (decimal blob.totalLen.toNat ++ text "\x7d")))

/-- The export of a snapshot whose file has the chunks that its manifest lists. -/
def manifestJob (blob : Blob) : ExportJob where
  source :=
    ⟨{ sampleExchangeCodec with
        blob := fun bytes => if bytes = blob.json then some blob else none }, sampleSealer, .fill 4⟩
  cellKeyId := List.replicate 32 48
  limit := 8388608

/-- The sealed manifest. -/
def manifestFile (manifest : Bytes) : ObjectId × Bytes :=
  (.fill 2, sampleSealHeader ++ 2 :: manifest)

/-- What the receiver has. -/
theorem sampleReceiver_toList : sampleReceiver.toList =
    [(.fill 1, (.Chunk, [7])), (.fill 3, (.Tree, [2])), (.fill 4, (.Snapshot, [1]))] := by
  decide

/-- The objects of the sender. -/
theorem manifestSender_cases {manifest : Bytes} {id : ObjectId} {o : ObjectKind × Bytes}
    (h : (manifestSender manifest).get? id = some o) :
    (id, o) = (.fill 1, (.Chunk, [7])) ∨ (id, o) = (.fill 2, (.Blob, manifest)) ∨
      (id, o) = (.fill 3, (.Tree, [2])) ∨ (id, o) = (.fill 4, (.Snapshot, [1])) := by
  unfold manifestSender at h
  rw [OrdMap.get?_insert] at h
  split_ifs at h with hid
  · cases h
    rw [hid]
    exact Or.inr (Or.inl rfl)
  · have hmem := (OrdMap.mem_toList_iff _).mpr h
    rw [sampleReceiver_toList] at hmem
    simp only [List.mem_cons, List.not_mem_nil, or_false] at hmem
    rcases hmem with hmem | hmem | hmem
    · exact Or.inl hmem
    · exact Or.inr (Or.inr (Or.inl hmem))
    · exact Or.inr (Or.inr (Or.inr hmem))

/-- The sender has what the receiver has. -/
theorem manifestSender_get? (manifest : Bytes) {id : ObjectId} {o : ObjectKind × Bytes}
    (hid : id ≠ .fill 2) (h : sampleReceiver.get? id = some o) :
    (manifestSender manifest).get? id = some o := by
  rw [manifestSender, OrdMap.get?_insert, if_neg hid]
  exact h

/-- The sender has the manifest. -/
theorem manifestSender_blob (manifest : Bytes) :
    (manifestSender manifest).get? (.fill 2) = some (.Blob, manifest) := by
  rw [manifestSender, OrdMap.get?_insert, if_pos rfl]

/-- A manifest refers to its chunks. -/
theorem objectEdges_manifest (blob : Blob) :
    (manifestJob blob).source.codec.objectEdges .Blob blob.json =
      .ok (blob.chunks.map fun chunk => (chunk.id, .Chunk)) := by
  have hblob : (manifestJob blob).source.codec.blob blob.json = some blob := if_pos rfl
  rw [ObjectCodec.objectEdges, hblob]

/-- The sender has the whole snapshot. -/
theorem manifest_complete {blob : Blob} (hchunks : ∀ c ∈ blob.chunks, c.id = .fill 1) :
    Complete (manifestJob blob).source.codec (manifestSender blob.json) (.fill 4) where
  snapshot := ⟨[1], manifestSender_get? _ (by decide) (by decide)⟩
  closed := by
    intro id _ kind bytes hget
    rcases manifestSender_cases hget with heq | heq | heq | heq
    · cases heq
      exact ⟨[], rfl, by simp⟩
    · cases heq
      refine ⟨_, objectEdges_manifest blob, ?_⟩
      intro e he
      obtain ⟨c, hc, rfl⟩ := List.mem_map.mp he
      rw [hchunks c hc]
      exact ⟨[7], manifestSender_get? _ (by decide) (by decide)⟩
    · cases heq
      refine ⟨[(.fill 2, .Blob)], rfl, ?_⟩
      intro e he
      rw [List.mem_singleton.mp he]
      exact ⟨_, manifestSender_blob _⟩
    · cases heq
      refine ⟨[(.fill 3, .Tree)], rfl, ?_⟩
      intro e he
      rw [List.mem_singleton.mp he]
      exact ⟨[2], manifestSender_get? _ (by decide) (by decide)⟩

/-- Identifiers are the same at the remote. -/
theorem sampleSealer_remoteId (kind : ObjectKind) (id : ObjectId) :
    sampleSealer.remoteId kind id = id := by
  rw [CellSealer.remoteId, sampleSealer_scheme]
  rfl

/-- The sender is a source of the import. -/
theorem manifest_source {blob : Blob} (hchunks : ∀ c ∈ blob.chunks, c.id = .fill 1) :
    (manifestJob blob).source.Source (manifestSender blob.json) where
  complete := manifest_complete hchunks
  lawful := sampleSealer_lawful
  distinct := by
    intro a b _ _ _ _ h
    have hremote : ∀ e : ObjectKind × ObjectId,
        (manifestJob blob).source.sealer.remoteId e.1 e.2 = e.2 :=
      fun e => sampleSealer_remoteId e.1 e.2
    rwa [hremote, hremote] at h

/-- What is sealed begins with the magic. -/
theorem sampleSealer_magic (kind : ObjectKind) (id : ObjectId) (bytes : Bytes)
    (file : ObjectId × Bytes) (h : sampleSealer.sealObject kind id bytes = some file) :
    sealMagic <+: file.2 := by
  obtain ⟨-, -, hsealed⟩ := CellSealer.sealObject_eq_some h
  rw [sampleSealer_scheme] at hsealed
  have hfile : sampleSealHeader ++ kind.toU8 :: bytes = file.2 := Option.some.inj hsealed
  have hmagic : sealMagic = sampleSealHeader := by decide
  rw [hmagic, ← hfile]
  exact List.prefix_append _ _

/-- The manifest, sealed. -/
theorem manifest_seal (manifest : Bytes) :
    sampleSealer.sealObject .Blob (.fill 2) manifest = some (manifestFile manifest) := by
  have hobject : sampleSealer.objectId .Blob manifest = .fill 2 := rfl
  rw [CellSealer.sealObject, if_pos hobject, sampleSealer_scheme, sampleSealer_remoteId]
  rfl

/-- The receiver holds what the ledger names. -/
theorem sampleReceiver_holds (e : ObjectKind × ObjectId)
    (h : sampleSealer.remoteId e.1 e.2 ∈ sampleLedger) : e.2 ∈ sampleReceiver.held := by
  rw [sampleSealer_remoteId] at h
  have hall : ∀ id ∈ sampleLedger, (sampleReceiver.get? id).isSome = true := by decide
  exact hall e.2 h

/-- The ledger names all but the manifest. -/
theorem manifest_unsent {manifest : Bytes} {kind : ObjectKind} {id : ObjectId} {bytes : Bytes}
    (hget : (manifestSender manifest).get? id = some (kind, bytes))
    (hnot : sampleSealer.remoteId kind id ∉ sampleLedger) :
    kind = .Blob ∧ id = .fill 2 ∧ bytes = manifest := by
  rw [sampleSealer_remoteId] at hnot
  rcases manifestSender_cases hget with heq | heq | heq | heq
  · cases heq
    exact absurd (by decide) hnot
  · cases heq
    exact ⟨rfl, rfl, rfl⟩
  · cases heq
    exact absurd (by decide) hnot
  · cases heq
    exact absurd (by decide) hnot

/-- The receiver agrees with the sender. -/
theorem manifest_agree (manifest : Bytes) : Agree sampleReceiver (manifestSender manifest) := by
  intro id x y hx hy
  have hid : id ≠ .fill 2 := by
    rintro rfl
    have hnone : sampleReceiver.get? (.fill 2) = none := by decide
    rw [hnone] at hx
    exact absurd hx (by simp)
  rw [manifestSender_get? manifest hid hx] at hy
  exact Option.some.inj hy

/-- The manifest is reached from the snapshot. -/
theorem manifest_closure {blob : Blob} (manifest : Bytes) :
    Closure (manifestJob blob).source.codec (manifestSender manifest) (.fill 4) (.fill 2) := by
  have htree : Closure (manifestJob blob).source.codec (manifestSender manifest) (.fill 4)
      (.fill 3) := by
    refine .step .root trivial ⟨.Snapshot, [1], [(.fill 3, .Tree)], ?_, rfl, List.mem_cons_self⟩
    exact manifestSender_get? manifest (by decide) (by decide)
  refine .step htree trivial ⟨.Tree, [2], [(.fill 2, .Blob)], ?_, rfl, List.mem_cons_self⟩
  exact manifestSender_get? manifest (by decide) (by decide)

/-- The manifest is sent in a frame of its own. -/
theorem manifest_run {blob : Blob} (hchunks : ∀ c ∈ blob.chunks, c.id = .fill 1) :
    (manifestJob blob).run (manifestSender blob.json) sampleLedger =
      .ok [⟨frameBytesOf (List.replicate 32 48) [manifestFile blob.json], [.fill 2]⟩] := by
  have hkey : isKeyId (List.replicate 32 48) = true := by decide
  have hlimit : 8388608 ≤ maxFrame := by decide
  refine ExportJob.run_single (manifest_source hchunks) hkey hlimit (manifest_closure blob.json)
    (manifestSender_blob blob.json) (manifest_seal blob.json) ?_ ?_
  · exact fun hin => absurd ((sampleSealer_remoteId .Blob (.fill 2)) ▸ hin) (by decide)
  · rintro ⟨kind, id⟩ ⟨bytes, hget⟩ hnot
    exact (manifest_unsent hget hnot).2.1

/-- A file of one chunk. -/
def smallBlob : Blob := ⟨[⟨.fill 1, 1⟩], 1⟩

/-- A small manifest arrives. -/
theorem transfer_iff_sample :
    ∃ result, (manifestJob smallBlob).source.importFrames readHeader ⟨sampleReceiver, OrdMap.empty⟩
        [⟨frameBytesOf (List.replicate 32 48) [manifestFile smallBlob.json], [.fill 2]⟩] =
          .ok result ∧
      result.1.isOk = true ∧
      (∀ id, Closure (manifestJob smallBlob).source.codec (manifestSender smallBlob.json)
          (.fill 4) id →
        result.2.store.get? id = (manifestSender smallBlob.json).get? id) ∧
      want (manifestJob smallBlob).source.codec sampleSealer result.2.store (.fill 4) = .ok [] := by
  have hchunks : ∀ c ∈ smallBlob.chunks, c.id = .fill 1 := by
    intro c hc
    rw [List.mem_singleton.mp hc]
  refine (transfer_iff (manifestJob smallBlob) (manifestSender smallBlob.json) sampleReceiver
    sampleLedger readHeader _ (manifest_source hchunks) (manifest_agree smallBlob.json)
    readHeader_reads (by decide) sampleSealer_magic (fun e _ _ hin => sampleReceiver_holds e hin)
    (manifest_run hchunks)).mpr ?_
  rintro file ⟨kind, id, bytes, -, hget, hnot, hseal⟩
  obtain ⟨rfl, rfl, rfl⟩ := manifest_unsent hget hnot
  have hfile : some (manifestFile smallBlob.json) = some file :=
    (manifest_seal smallBlob.json).symm.trans hseal
  cases hfile
  have hvalid : isKeyId (List.replicate 32 48) = true := by decide
  have hheader := length_headerOf_single hvalid (manifestFile smallBlob.json)
  have hpayload : (payloadOf [manifestFile smallBlob.json]).length = 113 := by decide +kernel
  have hkey : (manifestJob smallBlob).cellKeyId = List.replicate 32 48 := rfl
  rw [hkey, length_frameBytesOf, hpayload]
  unfold maxHeader at hheader
  unfold maxFrame
  omega

/-- Sealing adds six bytes. -/
theorem length_manifestFile (manifest : Bytes) :
    (manifestFile manifest).2.length = 6 + manifest.length := by
  unfold manifestFile
  rw [List.length_append, List.length_cons]
  have hheader : sampleSealHeader.length = 5 := rfl
  omega

/-- The frame of a manifest that is too large is refused. -/
theorem manifest_refused (job : Import) (fromSlice : Bytes → Option Header) (st : ImportState)
    {manifest : Bytes} (h : maxFrame ≤ manifest.length) :
    job.importFrames fromSlice st
        [⟨frameBytesOf (List.replicate 32 48) [manifestFile manifest], [.fill 2]⟩] =
      .error .tooLarge := by
  have hpayload := length_le_payloadOf (List.mem_singleton_self (manifestFile manifest))
  have hmanifest := length_manifestFile manifest
  have hlarge : maxFrame <
      (frameBytesOf (List.replicate 32 48) [manifestFile manifest]).length := by
    rw [length_frameBytesOf]
    omega
  have hdecode : decodeFrame fromSlice
      (frameBytesOf (List.replicate 32 48) [manifestFile manifest]) = .error .tooLarge := by
    unfold decodeFrame
    rw [if_pos hlarge]
  unfold Import.importFrames
  simp only [List.mapM_cons, hdecode, bind, Except.bind]

/-- An array is at least as long as its items. -/
theorem length_le_jsonArray (items : List Bytes) :
    (items.map List.length).sum ≤ (jsonArray items).length := by
  have hle : (items.map List.length).sum ≤ (items.intersperse (text ",")).flatten.length := by
    induction items with
    | nil => simp
    | cons a items ih =>
      cases items with
      | nil => simp
      | cons b items =>
        rw [List.intersperse_cons_cons, List.flatten_cons, List.flatten_cons, List.length_append,
          List.length_append, List.map_cons, List.sum_cons]
        omega
  rw [jsonArray, List.length_append, List.length_append]
  omega

/-- A manifest is at least as long as its chunks. -/
theorem length_le_json (blob : Blob) :
    (blob.chunks.map fun c => c.json.length).sum ≤ blob.json.length := by
  have hle := length_le_jsonArray (blob.chunks.map ChunkRef.json)
  rw [List.map_map] at hle
  refine hle.trans ?_
  rw [Blob.json, List.length_append, List.length_append]
  omega

/-- A chunk of zeros. -/
def zeroChunk : ChunkRef := ⟨.fill 1, 1048576⟩

/-- A file of zeros: all of its 195084 chunks are the same. -/
@[irreducible] def largeBlob : Blob := ⟨List.replicate 195084 zeroChunk, 204560400384⟩

/-- All chunks of the large file are the same. -/
theorem largeBlob_chunks (c : ChunkRef) (h : c ∈ largeBlob.chunks) : c.id = .fill 1 := by
  unfold largeBlob at h
  rw [List.eq_of_mem_replicate h]
  rfl

/-- A chunk takes 86 bytes of the manifest. -/
theorem length_zeroChunk : zeroChunk.json.length = 86 := by decide

/-- The manifest of the large file fits no frame. -/
theorem le_length_largeBlob : maxFrame ≤ largeBlob.json.length := by
  have hchunks : largeBlob.chunks = List.replicate 195084 zeroChunk := by rw [largeBlob]
  have hle := length_le_json largeBlob
  rw [hchunks, List.map_replicate, length_zeroChunk, List.sum_replicate, smul_eq_mul] at hle
  unfold maxFrame
  omega

/-- **A manifest that is too large is sent in a frame that no store takes.**  The sender holds
the whole snapshot, the receiver all that the ledger names, and packing succeeds. -/
theorem transfer_fails :
    (manifestJob largeBlob).source.Source (manifestSender largeBlob.json) ∧
      Agree sampleReceiver (manifestSender largeBlob.json) ∧
      (∀ e : ObjectKind × ObjectId, sampleSealer.remoteId e.1 e.2 ∈ sampleLedger →
        e.2 ∈ sampleReceiver.held) ∧
      ∃ frames, (manifestJob largeBlob).run (manifestSender largeBlob.json) sampleLedger =
          .ok frames ∧
        ∀ fromSlice, (manifestJob largeBlob).source.importFrames fromSlice
          ⟨sampleReceiver, OrdMap.empty⟩ frames = .error .tooLarge :=
  ⟨manifest_source largeBlob_chunks, manifest_agree _, sampleReceiver_holds, _,
    manifest_run largeBlob_chunks, fun fromSlice =>
      manifest_refused _ fromSlice _ le_length_largeBlob⟩

end Furrow
