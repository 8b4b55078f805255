import Furrow.Archive.Restore

set_option relaxedAutoImplicit false
set_option autoImplicit false

/-!
# What was captured is restored

`archive.rs`: a store keeps the chunks and the manifests of all captures.  A scan of a directory
that `restore` has filled sees the objects that were captured: what it says of an object follows
from its inode, and the names of an inode are the names of the file.

## Main definitions

* `Furrow.Archive.Disk.look` — an object, as it is after a restore.
* `Furrow.Archive.Store.Keeps` — one store has what another one has.

## Main results

* `Furrow.Archive.Restored.entryOf_look` — the entry of an object is the one that was captured.
* `Furrow.Archive.Archiver.captures_spec` — captures keep what is stored.
* `Furrow.Archive.Archiver.restore_capture` — what was captured is restored, whatever was captured
  before and since.
-/

namespace Furrow

namespace Archive

/-! ## What a scan sees of it -/

namespace Restored

variable {ι : Type} {a : Archiver ι} {v : Volume} {l : List (Path × Item)} {d : Disk}
    {x y : Path × Item}

/-- Every object is there. -/
theorem found (h : Restored l d) (hx : x ∈ l) : ∃ i, d.ino x.1 = some i :=
  Option.ne_none_iff_exists'.mp ((h.names x.1).mpr (List.mem_map_of_mem hx))

/-- Every object has its body. -/
theorem body (h : Restored l d) (hx : x ∈ l) : d.body x.1 = some x.2.body := by
  obtain ⟨i, hi⟩ := h.found hx
  rw [body_of_ino hi, (h.inode x hx i hi).1]

/-- Every object is seen as it was captured. -/
theorem item_eq (h : Restored l d) (hx : x ∈ l) :
    (d.item v a x.1).body = x.2.body ∧ (d.item v a x.1).attrs = x.2.attrs ∧
      (d.item v a x.1).mode &&& 4095 = x.2.mode &&& 4095 ∧ (d.item v a x.1).secs = x.2.secs ∧
      (d.item v a x.1).nanos = x.2.nanos := by
  obtain ⟨i, hi⟩ := h.found hx
  unfold Disk.item
  rw [hi, Option.getD_some]
  exact h.inode x hx i hi

/-- Files are seen as files. -/
theorem isFile_item (h : Restored l d) (hx : x ∈ l) : (d.item v a x.1).isFile = x.2.isFile := by
  unfold Item.isFile
  rw [(h.item_eq hx).1]

/-- Objects are one on the disk if they are in the listing. -/
theorem ino_item (h : Restored l d) (hx : x ∈ l) (hy : y ∈ l) :
    (d.item v a x.1).ino = (d.item v a y.1).ino ↔ d.ino x.1 = d.ino y.1 := by
  obtain ⟨i, hi⟩ := h.found hx
  obtain ⟨j, hj⟩ := h.found hy
  unfold Disk.item
  rw [hi, hj, Option.some.injEq]
  exact Iff.rfl

/-- Names are of one file exactly if they were. -/
theorem sameFile_item (h : Restored l d) (hx : x ∈ l) (hy : y ∈ l) :
    (d.item v a x.1).sameFile (d.item v a y.1) = x.2.sameFile y.2 := by
  rw [Bool.eq_iff_iff, Item.sameFile_iff, h.isFile_item hx, h.isFile_item hy,
    h.ino_item hx hy, h.same x hx y hy]
  constructor
  · rintro ⟨hfile, -, -, rfl | hs⟩
    · exact Item.sameFile_self hfile
    · exact hs
  · intro hs
    obtain ⟨hfile, hfile', -, -⟩ := Item.sameFile_iff.mp hs
    exact ⟨hfile, hfile', rfl, Or.inr hs⟩

/-- All names are in directories. -/
theorem sound (h : Restored l d) (hroot : ∃ x ∈ l, x.1 = [] ∧ x.2.isDir = true)
    (hparents : ∀ x ∈ l, x.1 = [] ∨ ∃ y ∈ l, y.1 = x.1.dropLast ∧ y.2.isDir = true) : d.Sound := by
  have hdir : ∀ y ∈ l, y.2.isDir = true → d.body y.1 = some .directory := fun y hy hd => by
    rw [h.body hy, of_decide_eq_true hd]
  refine ⟨?_, fun p hp hne => ?_⟩
  · obtain ⟨x, hx, hpath, hd⟩ := hroot
    exact hpath ▸ hdir x hx hd
  · obtain ⟨x, hx, rfl⟩ := List.mem_map.mp ((h.names p).mp hp)
    obtain ⟨y, hy, hpath, hd⟩ := (hparents x hx).resolve_left hne
    exact hpath ▸ hdir y hy hd

/-- The names of an inode are counted. -/
theorem nlink_item (h : Restored l d) (hsorted : (l.map Prod.fst).Pairwise (· < ·)) (hx : x ∈ l)
    (hfile : x.2.isFile = true) :
    (d.item v a x.1).nlink = (l.filter fun y => y.2.sameFile x.2).length := by
  obtain ⟨i, hi⟩ := h.found hx
  have hkeys : d.names.keys = l.map Prod.fst :=
    d.names.keys_sorted.eq_of_mem_iff hsorted fun q => Disk.mem_keys.trans (h.names q)
  have htoList : d.names.toList = l.map fun y => (y.1, (d.ino y.1).getD 0) := by
    have hself : d.names.toList = d.names.keys.map fun q => (q, (d.ino q).getD 0) := by
      unfold OrdMap.keys
      rw [List.map_map]
      refine (List.map_id _).symm.trans (List.map_congr_left fun e he => Prod.ext rfl ?_)
      have hget : d.ino e.1 = some e.2 := d.names.mem_toList_iff.mp he
      dsimp only [Function.comp_apply, id_eq]
      rw [hget, Option.getD_some]
    rw [hself, hkeys, List.map_map]
    rfl
  have hnlink : (d.item v a x.1).nlink = d.nlink i := by
    unfold Disk.item
    rw [hi, Option.getD_some]
  rw [hnlink, Disk.nlink, htoList, List.filter_map, List.length_map]
  congr 1
  refine List.filter_congr fun y hy => ?_
  obtain ⟨j, hj⟩ := h.found hy
  rw [Function.comp_apply, Bool.eq_iff_iff, decide_eq_true_eq, hj, Option.getD_some]
  have hsame := h.same y hy x hx
  rw [hi, hj, Option.some.injEq] at hsame
  rw [hsame]
  exact or_iff_right_of_imp fun heq => heq.symm ▸ Item.sameFile_self hfile

end Restored

/-- An object that was captured, as it is after a restore. -/
def Disk.look {ι : Type} (d : Disk) (v : Volume) (a : Archiver ι) (x : Path × Item) : Path × Item :=
  (x.1, d.item v a x.1)

namespace Restored

variable {ι : Type} {a : Archiver ι} {v : Volume} {l : List (Path × Item)} {d : Disk}
    {x y : Path × Item}

/-- The objects that are the same file. -/
theorem filter_look (h : Restored l d) (hx : x ∈ l) :
    (l.map (d.look v a)).filter (fun y => y.2.sameFile (d.look v a x).2) =
      (l.filter fun y => y.2.sameFile x.2).map (d.look v a) := by
  rw [List.filter_map]
  congr 1
  exact List.filter_congr fun y hy => h.sameFile_item hy hx

/-- The first path of an object is the one that was captured. -/
theorem rep_look (h : Restored l d) (hx : x ∈ l) :
    Host.rep (l.map (d.look v a)) (d.look v a x) = Host.rep l x := by
  have hfind : (l.map (d.look v a)).find? (fun y => y.2.sameFile (d.look v a x).2) =
      (l.find? fun y => y.2.sameFile x.2).map (d.look v a) := by
    rw [List.find?_map]
    congr 1
    exact Host.find?_congr_mem fun y hy => h.sameFile_item hy hx
  unfold Host.rep
  rw [hfind, Option.map_map]
  rfl

/-- **The entry of an object** is the one that was captured, if the owner is and its names were
counted. -/
theorem entryOf_look (h : Restored l d) (hsorted : (l.map Prod.fst).Pairwise (· < ·)) (hx : x ∈ l)
    (howner : x.2.uid = a.euid ∧ x.2.gid = a.egid)
    (hcounted : x.2.isFile = true → (l.filter fun y => y.2.sameFile x.2).length = x.2.nlink) :
    a.host.entryOf (l.map (d.look v a)) (d.look v a x) = a.host.entryOf l x := by
  obtain ⟨hbody, hattrs, hmode, hsecs, hnanos⟩ := h.item_eq (v := v) (a := a) hx
  have hkind : Host.kindOf (d.item v a x.1) = Host.kindOf x.2 := by
    unfold Host.kindOf
    rw [hbody]
  have hlinks : (if x.2.isFile = true then (d.item v a x.1).nlink else 0) =
      if x.2.isFile = true then x.2.nlink else 0 :=
    if_ctx_congr Iff.rfl (fun hfile =>
      (h.nlink_item hsorted hx hfile).trans (hcounted hfile)) fun _ => rfl
  unfold Host.entryOf
  rw [h.rep_look hx]
  unfold Disk.look Host.entry
  dsimp only
  rw [hbody, hattrs, hmode, hsecs, hnanos, hkind, h.isFile_item hx, hlinks, howner.1, howner.2]
  rfl

/-- A scan accepts what was accepted. -/
theorem accepts_item (h : Restored l d) (hx : x ∈ l) {rootDevice : ℕ}
    (haccepts : a.host.Accepts rootDevice x.2) : a.host.Accepts v.dev (d.item v a x.1) := by
  obtain ⟨-, -, hkind, -, hattrs⟩ := haccepts
  obtain ⟨hbody, hattrs', -⟩ := h.item_eq (v := v) (a := a) hx
  refine ⟨rfl, ⟨rfl, rfl⟩, by rw [hbody]; exact hkind, ?_, by rw [hattrs']; exact hattrs⟩
  rintro ⟨-, -, hblocks⟩
  have hle : (d.item v a x.1).body.content.length ≤ (d.item v a x.1).blocks * 512 := by
    unfold Disk.item
    dsimp only
    omega
  exact absurd hblocks (not_lt.mpr hle)

end Restored

/-! ## A capture, and back -/

namespace Host

variable {h : Host} {w : Workspace} {archive : Archived}

/-- **What is captured**: all objects are accepted, no file has a name elsewhere, and the manifest
is in its budgets. -/
theorem capture_eq_ok_iff : h.capture w = .ok archive ↔ w.tree.item.isDir = true ∧
    (∀ x ∈ w.items, h.Accepts w.tree.item.dev x.2) ∧
    (∀ x ∈ w.items, x.2.isFile = true →
      (w.items.filter fun y => y.2.sameFile x.2).length = x.2.nlink) ∧
    h.validateManifest (w.items.map (h.entryOf w.items)) = true ∧
    archive =
      ⟨(w.items.map (h.entryOf w.items)).flatMap Entry.chunks,
      w.items.map (h.entryOf w.items)⟩ := by
  have hgroups : ((w.items.map (h.entryOf w.items)).filter fun e => e.kind = .file).any (fun e =>
      groupSize (w.items.map (h.entryOf w.items)) e.group ≠ e.links) = false ↔
      ∀ x ∈ w.items, x.2.isFile = true →
        (w.items.filter fun y => y.2.sameFile x.2).length = x.2.nlink := by
    have hfilter : (w.items.map (h.entryOf w.items)).filter (fun e => e.kind = .file) =
        (w.items.filter fun x => x.2.isFile).map (h.entryOf w.items) := filesOf_map w.items
    rw [hfilter, List.any_eq_false]
    simp only [List.forall_mem_map, List.mem_filter, and_imp, decide_eq_true_eq, ne_eq,
      not_not, group_entryOf]
    refine forall₃_congr fun x hx hfile => ?_
    have hlinks : (h.entryOf w.items x).links = x.2.nlink := by
      simp [entryOf, entry, hfile]
    rw [hlinks]
    exact (count_groups w.distinct hx hfile) ▸ Iff.rfl
  unfold capture
  cases hscan : h.scan w with
  | error e =>
    dsimp only
    refine ⟨fun heq => absurd heq (by simp), fun hall => ?_⟩
    rw [(scan_eq_ok_iff w _).mpr ⟨hall.1, hall.2.1, rfl⟩] at hscan
    exact absurd hscan (by simp)
  | ok entries =>
    obtain ⟨hdir, haccepts, rfl⟩ := (scan_eq_ok_iff w entries).mp hscan
    dsimp only
    rw [← hgroups]
    split_ifs with h₁ h₂ h₃
    · exact ⟨fun heq => absurd heq (by simp), fun hall =>
        absurd (h₁.symm.trans hall.2.2.1) (by simp)⟩
    · exact absurd rfl h₂
    · rw [Except.ok.injEq, eq_comm]
      exact ⟨fun heq => ⟨hdir, haccepts, Bool.eq_false_of_not_eq_true h₁, h₃, heq⟩,
        fun hall => hall.2.2.2.2⟩
    · exact ⟨fun heq => absurd heq (by simp), fun hall => absurd hall.2.2.2.1 h₃⟩

end Host

/-- Every snapshot is stored under its own identifier. -/
def Store.Sound {ι : Type} (a : Archiver ι) (s : Store ι) : Prop :=
  ∀ id m, s.snapshots id = some m → a.manifestId m = id

/-- A store has what another one has. -/
structure Store.Keeps {ι : Type} (s s' : Store ι) : Prop where
  chunks : ∀ key row, s.chunks.get? key = some row → s'.chunks.get? key = some row
  snapshots : ∀ id m, s.snapshots id = some m → s'.snapshots id = some m

namespace Archiver

variable {ι : Type} [DecidableEq ι] {a : Archiver ι} {chunks chunks' : Chunks} {s s' : Store ι}
  {w : Workspace} {id : ι}

/-- The row of a chunk is one of its bytes. -/
theorem decode_encode (bytes : Bytes) :
    (a.encode bytes).rawLength = bytes.length ∧ a.decode (a.encode bytes) = .ok bytes := by
  unfold encode
  dsimp only
  split_ifs
  · exact ⟨rfl, a.decompress_compress bytes⟩
  · exact ⟨rfl, rfl⟩

/-- The row of a chunk is not longer than the chunk. -/
theorem length_encode {bytes : Bytes} (hpos : 0 < bytes.length) :
    0 < (a.encode bytes).bytes.length ∧ (a.encode bytes).bytes.length ≤ bytes.length := by
  unfold encode
  dsimp only
  split_ifs with hshorter
  · exact ⟨List.length_pos_iff.mpr (a.compress_ne_nil bytes), hshorter.le⟩
  · exact ⟨hpos, le_rfl⟩

/-- **What is stored of a chunk is read**: the lengths and the digest are those of the chunk. -/
theorem readChunk_of_get? {bytes : Bytes} (hpos : 0 < bytes.length) (hmax : bytes.length ≤ maxChunk)
    (hget : chunks.get? (a.digest bytes) = some (a.encode bytes)) :
    a.readChunk chunks (a.digest bytes) = .ok bytes := by
  obtain ⟨hraw, hdecode⟩ := decode_encode (a := a) bytes
  obtain ⟨hencoded, hle⟩ := length_encode (a := a) hpos
  unfold readChunk
  rw [hget]
  dsimp only
  rw [hraw, hdecode, if_neg (not_not.mpr ⟨hencoded, hle.trans hmax⟩),
    if_neg (not_not.mpr ⟨hpos, hmax⟩)]
  exact if_pos ⟨rfl, rfl⟩

/-- What can be read can be read as long as the row stays. -/
theorem readChunk_mono {key raw : Bytes} (h : a.readChunk chunks key = .ok raw)
    (hkeeps : ∀ row, chunks.get? key = some row → chunks'.get? key = some row) :
    a.readChunk chunks' key = .ok raw := by
  unfold readChunk at h ⊢
  cases hget : chunks.get? key with
  | none =>
    rw [hget] at h
    exact absurd h (by simp)
  | some row =>
    rw [hget] at h
    rw [hkeeps row hget]
    exact h

/-- **A chunk that is added** can be read, and all others stay. -/
theorem addChunk_spec {bytes : Bytes} (hpos : 0 < bytes.length) (hmax : bytes.length ≤ maxChunk)
    (h : a.addChunk chunks bytes = .ok chunks') :
    (∀ key row, chunks.get? key = some row → chunks'.get? key = some row) ∧
      a.readChunk chunks' (a.digest bytes) = .ok bytes := by
  unfold addChunk at h
  cases hget : chunks.get? (a.digest bytes) with
  | none =>
    rw [hget] at h
    obtain rfl := Except.ok.inj h
    refine ⟨fun key row hkey => ?_, readChunk_of_get? hpos hmax ?_⟩
    · have hne : key ≠ a.digest bytes := by
        rintro rfl
        rw [hget] at hkey
        exact absurd hkey (by simp)
      rw [OrdMap.get?_insert, if_neg hne]
      exact hkey
    · rw [OrdMap.get?_insert, if_pos rfl]
  | some row =>
    rw [hget] at h
    dsimp only at h
    cases hread : a.readChunk chunks (a.digest bytes) with
    | error e =>
      rw [hread] at h
      exact absurd h (by simp)
    | ok existing =>
      rw [hread] at h
      dsimp only at h
      split_ifs at h with hsame
      obtain rfl := Except.ok.inj h
      exact ⟨fun _ _ hkey => hkey, hread.trans (congrArg Except.ok (not_not.mp hsame))⟩

/-- Chunks that are added can be read, and those that were there stay. -/
theorem addChunks_spec {pieces : List Bytes}
    (hbounds : ∀ c ∈ pieces, 0 < c.length ∧ c.length ≤ maxChunk)
    (h : pieces.foldlM a.addChunk chunks = .ok chunks') :
    (∀ key row, chunks.get? key = some row → chunks'.get? key = some row) ∧
      ∀ c ∈ pieces, a.readChunk chunks' (a.digest c) = .ok c := by
  induction pieces generalizing chunks with
  | nil =>
    obtain rfl := Except.ok.inj h
    exact ⟨fun _ _ hkey => hkey, fun c hc => absurd hc List.not_mem_nil⟩
  | cons bytes pieces ih =>
    obtain ⟨⟨hpos, hmax⟩, hbounds'⟩ := List.forall_mem_cons.mp hbounds
    rw [List.foldlM_cons] at h
    cases hadd : a.addChunk chunks bytes with
    | error e =>
      rw [hadd] at h
      exact absurd h (by simp [bind, Except.bind])
    | ok chunks₁ =>
      rw [hadd] at h
      obtain ⟨hold, hnew⟩ := addChunk_spec hpos hmax hadd
      obtain ⟨hrest, hall⟩ := ih hbounds' h
      exact ⟨fun key row hkey => hrest key row (hold key row hkey),
        List.forall_mem_cons.mpr ⟨readChunk_mono hnew fun row => hrest _ row, hall⟩⟩

/-- Chunks that are stored are not added again. -/
theorem addChunks_stored {pieces : List Bytes}
    (h : ∀ c ∈ pieces, a.readChunk chunks (a.digest c) = .ok c) :
    pieces.foldlM a.addChunk chunks = .ok chunks := by
  induction pieces with
  | nil => rfl
  | cons bytes pieces ih =>
    have hread := h bytes List.mem_cons_self
    have hadd : a.addChunk chunks bytes = .ok chunks := by
      unfold addChunk
      cases hget : chunks.get? (a.digest bytes) with
      | none =>
        unfold readChunk at hread
        rw [hget] at hread
        exact absurd hread (by simp)
      | some row =>
        dsimp only
        rw [hread]
        exact if_neg (not_not.mpr rfl)
    rw [List.foldlM_cons, hadd]
    exact ih fun c hc => h c (List.mem_cons_of_mem _ hc)

/-- The chunks of objects are neither empty nor too long. -/
theorem pieces_bounded (items : List (Path × Item)) :
    ∀ c ∈ items.flatMap fun x => a.pieces x.2, 0 < c.length ∧ c.length ≤ maxChunk := by
  intro c hc
  obtain ⟨x, -, hc⟩ := List.mem_flatMap.mp hc
  unfold pieces at hc
  split_ifs at hc
  · exact a.split_bounded _ c hc
  · exact absurd hc List.not_mem_nil

/-- A capture stores the pieces of all files, and then the manifest. -/
theorem capture_eq_ok_iff : a.capture s w = .ok (s', id) ↔ ∃ chunks archive,
    (w.items.flatMap fun x => a.pieces x.2).foldlM a.addChunk s.chunks = .ok chunks ∧
    a.host.capture w = .ok archive ∧ a.manifestId archive.manifest = id ∧
    ⟨chunks, if (s.snapshots id).isSome then s.snapshots
      else Function.update s.snapshots id (some archive.manifest)⟩ = s' := by
  unfold capture
  cases (w.items.flatMap fun x => a.pieces x.2).foldlM a.addChunk s.chunks with
  | error e => simp [bind, Except.bind]
  | ok chunks =>
    cases a.host.capture w with
    | error e => simp [bind, Except.bind]
    | ok archive =>
      simp only [bind, Except.bind, pure, Except.pure, Except.ok.injEq, Prod.mk.injEq]
      constructor
      · rintro ⟨rfl, rfl⟩
        exact ⟨chunks, archive, rfl, rfl, rfl, rfl⟩
      · rintro ⟨_, _, rfl, rfl, rfl, rfl⟩
        exact ⟨rfl, rfl⟩

/-- **A capture** keeps what is stored. -/
theorem keeps_of_capture (h : a.capture s w = .ok (s', id)) : s.Keeps s' := by
  obtain ⟨chunks, archive, hchunks, -, -, rfl⟩ := capture_eq_ok_iff.mp h
  refine ⟨(addChunks_spec (pieces_bounded w.items) hchunks).1, fun key m hm => ?_⟩
  dsimp only
  split_ifs with hsome
  · exact hm
  · rw [Function.update_of_ne (by rintro rfl; exact hsome (by rw [hm]; rfl))]
    exact hm

/-- A capture keeps the store sound. -/
theorem sound_of_capture (hs : s.Sound a) (h : a.capture s w = .ok (s', id)) : s'.Sound a := by
  obtain ⟨chunks, archive, -, -, rfl, rfl⟩ := capture_eq_ok_iff.mp h
  intro key m hm
  dsimp only at hm
  split_ifs at hm with hsome
  · exact hs key m hm
  · rw [Function.update_apply] at hm
    split_ifs at hm with hkey
    · rw [← Option.some.inj hm, hkey]
    · exact hs key m hm

/-- What a capture stored is there. -/
theorem get?_of_capture (hs : s.Sound a) (h : a.capture s w = .ok (s', id)) : ∃ archive,
    a.host.capture w = .ok archive ∧ a.manifestId archive.manifest = id ∧
    s'.snapshots id = some archive.manifest ∧
    ∀ x ∈ w.items, ∀ c ∈ a.pieces x.2, a.readChunk s'.chunks (a.digest c) = .ok c := by
  obtain ⟨chunks, archive, hchunks, harchive, hid, rfl⟩ := capture_eq_ok_iff.mp h
  refine ⟨archive, harchive, hid, ?_, fun x hx c hc =>
    (addChunks_spec (pieces_bounded w.items) hchunks).2 c (List.mem_flatMap.mpr ⟨x, hx, hc⟩)⟩
  dsimp only
  split_ifs with hsome
  · obtain ⟨m, hm⟩ := Option.isSome_iff_exists.mp hsome
    rw [hm, a.manifestId_injective ((hs id m hm).trans hid.symm)]
  · rw [Function.update_self]

/-- **A run of captures** keeps what is stored. -/
theorem captures_spec (hs : s.Sound a) (workspaces : List Workspace) :
    s.Keeps (a.captures s workspaces) ∧ (a.captures s workspaces).Sound a := by
  induction workspaces generalizing s with
  | nil => exact ⟨⟨fun _ _ h => h, fun _ _ h => h⟩, hs⟩
  | cons w workspaces ih =>
    have hcons : a.captures s (w :: workspaces) =
        a.captures (((a.capture s w).map Prod.fst).toOption.getD s) workspaces := rfl
    rw [hcons]
    cases hcapture : a.capture s w with
    | error e => exact ih hs
    | ok result =>
      obtain ⟨s₁, id⟩ := result
      have hkeeps := keeps_of_capture hcapture
      obtain ⟨hrest, hsound⟩ := ih (sound_of_capture hs hcapture)
      exact ⟨⟨fun key c hc => hrest.chunks key c (hkeeps.chunks key c hc),
        fun key m hm => hrest.snapshots key m (hkeeps.snapshots key m hm)⟩, hsound⟩

/-- The pieces of a captured file can be read. -/
theorem stored_of_mem {l : List (Path × Item)} (hl : Captured a chunks l) {c : Bytes}
    (hc : c ∈ l.flatMap fun x => a.pieces x.2) : a.readChunk chunks (a.digest c) = .ok c := by
  obtain ⟨x, hx, hc⟩ := List.mem_flatMap.mp hc
  unfold pieces at hc
  split_ifs at hc with hfile
  · exact hl.chunks x hx hfile c hc
  · exact absurd hc List.not_mem_nil

/-- The chunks that the entries name are read. -/
theorem mapM_chunks {l : List (Path × Item)} (hl : Captured a chunks l) :
    ∃ pieces, ((l.map (a.host.entryOf l)).flatMap Entry.chunks).mapM
      (a.readChunk chunks) = .ok pieces := by
  have hids : (l.map (a.host.entryOf l)).flatMap Entry.chunks =
      (l.flatMap fun x => a.pieces x.2).map a.digest := by
    rw [List.flatMap_map, List.map_flatMap]
    refine List.flatMap_congr fun x _ => ?_
    show (if x.2.isFile = true then (a.split x.2.body.content).map a.digest else []) = _
    unfold pieces
    split_ifs <;> rfl
  rw [hids]
  exact ⟨_, mapM_readChunk _ fun c hc => stored_of_mem hl hc⟩

end Archiver

namespace Archiver

variable {ι : Type} [DecidableEq ι] {a : Archiver ι} {v : Volume}

/-- The workspace that has been restored. -/
theorem exists_restored {w : Resident} {d : Disk} (h : Restored w.items d)
    (hdir : w.tree.item.isDir = true) : ∃ w' :
    Workspace, w'.tree = d.tree v a ∧ w'.items = w.items.map (d.look v a) := by
  have hroot : ∃ x ∈ w.items, x.1 = [] ∧ x.2.isDir = true := by
    refine ⟨([], w.tree.item), ?_, rfl, hdir⟩
    unfold Workspace.items
    cases w.tree with
    | node item children => exact List.mem_cons_self
  have hitems : items [] (d.tree v a) = w.items.map (d.look v a) :=
    Disk.items_tree (h.sound hroot (parent_of_mem_items [] w.tree)) w.sorted h.names
  have hfst : (w.items.map (d.look v a)).map Prod.fst = w.items.map Prod.fst := by
    rw [List.map_map]
    rfl
  refine ⟨⟨d.tree v a, ?_, ?_, ?_⟩, rfl, hitems⟩
  · rw [hitems, hfst]
    exact w.distinct
  · rw [hitems]
    intro x hx y hy hsame
    obtain ⟨x, hx', rfl⟩ := List.mem_map.mp hx
    obtain ⟨y, hy', rfl⟩ := List.mem_map.mp hy
    have hino : d.ino x.1 = d.ino y.1 := (h.ino_item hx' hy').mp (Item.sameFile_iff.mp hsame).2.2.2
    show d.item v a x.1 = d.item v a y.1
    unfold Disk.item
    rw [hino]
  · rw [hitems]
    intro x hx hfile
    obtain ⟨x, hx', rfl⟩ := List.mem_map.mp hx
    rw [h.filter_look hx', List.length_map]
    exact (h.nlink_item (sorted_items [] w.tree w.sorted) hx'
      ((h.isFile_item hx').symm.trans hfile)).ge

/-- The first entry is made with the directory. -/
theorem made_root {x : Path × Item} (hx : x.1 = []) (hdir : x.2.isDir = true) :
    Made [x] (freshRoot v) := by
  have hbody : x.2.body = .directory := of_decide_eq_true hdir
  have hino : ∀ q, (freshRoot v).ino q = if q = [] then some 0 else none := fun q =>
    (OrdMap.get?_insert OrdMap.empty [] q 0).trans (by split_ifs <;> rfl)
  have hself : (freshRoot v).ino x.1 = some 0 := by rw [hino, if_pos hx]
  refine ⟨fun q => ?_, fun q i hi => ?_, fun y hy => ?_, fun y hy target ht => ?_,
    fun y hy z hz => ?_⟩
  · rw [hino, List.map_singleton, List.mem_singleton, hx]
    split_ifs with hq <;> simp [hq]
  · rw [hino] at hi
    split_ifs at hi
    exact Option.some.inj hi ▸ Nat.zero_lt_one
  · rw [List.mem_singleton.mp hy, body_of_ino hself, hbody]
    rfl
  · rw [List.mem_singleton.mp hy, hbody] at ht
    exact absurd ht (by simp)
  · rw [List.mem_singleton.mp hy, List.mem_singleton.mp hz]
    simp

/-- What was captured of a workspace. -/
theorem captured_items {chunks : Chunks} (w : Resident)
    (haccepts : ∀ x ∈ w.items, a.host.Accepts w.tree.item.dev x.2)
    (hchunks : ∀ x ∈ w.items, ∀ c ∈ a.pieces x.2, a.readChunk chunks (a.digest c) = .ok c) :
    Captured a chunks w.items where
  housed := Host.housed_items w.toWorkspace
  sorted := sorted_items [] w.tree w.sorted
  parents := parent_of_mem_items [] w.tree
  kinds x hx := (haccepts x hx).2.2.1
  chunks x hx hfile c hc := hchunks x hx c (by unfold pieces; rwa [if_pos hfile])

/-- **What was captured is restored**, whatever was captured before and since: the new directory has
the same names, contents, links, attributes, modes and times.  Captured again, it is the same
snapshot, and nothing is added. -/
theorem restore_capture (a : Archiver ι) (v : Volume) (earlier later : List Workspace)
    (w : Resident) (s : Store ι) (id : ι)
    (hcapture : a.capture (a.captures .empty earlier) w.toWorkspace = .ok (s, id)) :
    ∃ d manifest, a.restore v false (a.captures s later) id = .ok d ∧ Restored w.items d ∧
      a.host.scan w.toWorkspace = .ok manifest ∧ a.scanTree (d.tree v a) = .ok manifest ∧
      (∃ w' : Workspace, w'.tree = d.tree v a ∧
        a.capture (a.captures s later) w' = .ok (a.captures s later, id)) ∧
      ∃ receipt, a.verify (a.captures s later) id (d.tree v a) = .ok receipt := by
  have hempty : Store.Sound a .empty := fun id m hm => absurd hm (by simp [Store.empty])
  have hbefore := (captures_spec hempty earlier).2
  obtain ⟨archive, harchive, hid, hsnapshot, hpieces⟩ := get?_of_capture hbefore hcapture
  obtain ⟨hkeeps, hsound⟩ := captures_spec (sound_of_capture hbefore hcapture) later
  obtain ⟨hdir, haccepts, hcounted, hvalid, rfl⟩ := Host.capture_eq_ok_iff.mp harchive
  dsimp only at hid hsnapshot
  generalize a.captures s later = store at hkeeps hsound
  have hl : Captured a store.chunks w.items := captured_items w haccepts fun x hx c hc =>
    readChunk_mono (hpieces x hx c hc) fun row => hkeeps.chunks _ row
  have hsnapshot := hkeeps.snapshots id _ hsnapshot
  -- The three passes.
  obtain ⟨x₀, todo, hsplit, hpath₀, hdir₀⟩ :
      ∃ x₀ todo, w.items = x₀ :: todo ∧ x₀.1 = [] ∧ x₀.2.isDir = true := by
    revert hdir
    unfold Workspace.items
    cases w.tree with
    | node item children => exact fun hdir => ⟨([], item), _, rfl, rfl, hdir⟩
  obtain ⟨d₀, hmake, hmade⟩ :=
    makeEntries_spec (v :=
      v) hl (show w.items = [x₀] ++ todo from hsplit) (List.mem_singleton.mpr hpath₀.symm)
      (made_root hpath₀ hdir₀)
  have hfirst :
      a.makeEntry v store.chunks (freshRoot v) (a.host.entryOf w.items x₀) = .ok (freshRoot v) := by
    have hname : (a.host.entryOf w.items x₀).name = [] := hpath₀
    have hkind : (a.host.entryOf w.items x₀).kind = .directory := by
      show Host.kindOf x₀.2 = .directory
      rw [Host.kindOf, of_decide_eq_true hdir₀]
      rfl
    rw [makeEntry, if_pos hname, if_pos hkind]
  have hpass :
      (w.items.map (a.host.entryOf w.items)).foldlM (a.makeEntry v store.chunks) (freshRoot v) =
        .ok d₀ := by
    conv_lhs => rw [hsplit]
    rw [List.map_cons, List.foldlM_cons, ← hsplit, hfirst]
    exact hmake
  obtain ⟨d₁, d₂, hattrs, htimes, hrestored⟩ :=
    passes_spec (a := a) hl.housed hl.kinds w.symlinks hmade
  -- What a scan sees.
  obtain ⟨w', htree, hitems⟩ := exists_restored (a := a) (v := v) hrestored hdir
  have hentries :
      w'.items.map (a.host.entryOf w'.items) = w.items.map (a.host.entryOf w.items) := by
    rw [hitems, List.map_map]
    exact List.map_congr_left fun x hx =>
      hrestored.entryOf_look hl.sorted hx (haccepts x hx).2.1 (hcounted x hx)
  have hdir' : w'.tree.item.isDir = true ∧ w'.tree.item.dev = v.dev := by
    have hroot : w'.tree.item = d₂.item v a [] := by
      rw [htree]
      unfold Disk.tree
      generalize (d₂.names.keys.map List.length).sum = levels
      cases levels <;> rfl
    have hx₀ : x₀ ∈ w.items := hsplit ▸ List.mem_cons_self
    have hbody := (hrestored.item_eq (v := v) (a := a) hx₀).1
    rw [hpath₀] at hbody
    rw [hroot]
    refine ⟨?_, rfl⟩
    unfold Item.isDir
    rw [hbody]
    exact hdir₀
  have haccepts' : ∀ x ∈ w'.items, a.host.Accepts w'.tree.item.dev x.2 := by
    rw [hitems, hdir'.2]
    exact List.forall_mem_map.mpr fun x hx => hrestored.accepts_item hx (haccepts x hx)
  have hscan : a.scanTree (d₂.tree v a) = .ok (w.items.map (a.host.entryOf w.items)) := by
    rw [← htree, ← hentries]
    exact (Host.scan_eq_ok_iff w' _).mpr ⟨hdir'.1, haccepts', rfl⟩
  have hload : a.load store id = .ok (w.items.map (a.host.entryOf w.items)) := by
    unfold load
    rw [hsnapshot]
    dsimp only
    rw [if_neg (not_not.mpr hid),
      if_neg (not_not.mpr (show a.validateManifest _ = true from hvalid))]
  refine ⟨d₂, _, ?_, hrestored,
    (Host.scan_eq_ok_iff w.toWorkspace _).mpr ⟨hdir, haccepts, rfl⟩, hscan, ⟨w', htree, ?_⟩,
      Host.receipt (w.items.map (a.host.entryOf w.items)), ?_⟩
  · unfold restore
    rw [hload]
    simp only [Bool.false_eq_true, if_false, bind, Except.bind, pure, Except.pure]
    rw [hpass]
    dsimp only
    rw [hattrs]
    dsimp only
    rw [htimes]
    dsimp only
    rw [hscan]
    exact if_neg (not_not.mpr rfl)
  · have hsame : (w'.items.flatMap fun x => a.pieces x.2) =
        w.items.flatMap fun x => a.pieces x.2 := by
      rw [hitems, List.flatMap_map]
      refine List.flatMap_congr fun x hx => ?_
      show a.pieces (d₂.item v a x.1) = a.pieces x.2
      unfold pieces
      rw [hrestored.isFile_item hx, (hrestored.item_eq hx).1]
    refine capture_eq_ok_iff.mpr ⟨store.chunks, _, ?_, Host.capture_eq_ok_iff.mpr
      ⟨hdir'.1, haccepts', ?_, ?_, rfl⟩, ?_, ?_⟩
    · rw [hsame]
      exact addChunks_stored fun c hc => stored_of_mem hl hc
    · rw [hitems]
      refine List.forall_mem_map.mpr fun x hx hfile => ?_
      rw [hrestored.filter_look hx, List.length_map]
      exact (hrestored.nlink_item hl.sorted hx ((hrestored.isFile_item hx).symm.trans hfile)).symm
    · rw [hentries]
      exact hvalid
    · dsimp only
      rw [hentries]
      exact hid
    · rw [hsnapshot]
      rfl
  · obtain ⟨pieces, hpieces⟩ := mapM_chunks hl
    unfold verify
    rw [hload]
    simp only [bind, Except.bind, pure, Except.pure]
    rw [hpieces]
    dsimp only
    rw [hscan]
    exact if_neg (not_not.mpr rfl)

/-- Pieces of at most 32 bytes. -/
def sampleSplit : Bytes → List Bytes
  | [] => []
  | byte :: content =>
    match sampleSplit content with
    | [] => [[byte]]
    | piece :: pieces =>
      if piece.length < 32 then (byte :: piece) :: pieces else [byte] :: piece :: pieces

/-- The pieces of the sample make up the content. -/
theorem sampleSplit_flatten (content : Bytes) : (sampleSplit content).flatten = content := by
  induction content with
  | nil => rfl
  | cons byte content ih =>
    unfold sampleSplit
    split
    · next hnil =>
      rw [hnil] at ih
      rw [← ih]
      rfl
    · next piece pieces hcons =>
      rw [hcons, List.flatten_cons] at ih
      split_ifs <;> simp [ih]

/-- The pieces of the sample are neither empty nor too long. -/
theorem sampleSplit_bounded (content : Bytes) :
    ∀ piece ∈ sampleSplit content, 0 < piece.length ∧ piece.length ≤ 32 := by
  induction content with
  | nil => exact fun piece hpiece => absurd hpiece List.not_mem_nil
  | cons byte content ih =>
    unfold sampleSplit
    split
    · simp
    · next piece pieces hcons =>
      rw [hcons] at ih
      obtain ⟨hfirst, hrest⟩ := List.forall_mem_cons.mp ih
      split_ifs with hlt
      · exact List.forall_mem_cons.mpr ⟨⟨Nat.succ_pos _, hlt⟩, hrest⟩
      · exact List.forall_mem_cons.mpr ⟨by simp, ih⟩

/-- Equal bytes are stored as one, after a header; others as they are. -/
def sampleCompress (raw : Bytes) : Bytes :=
  if raw = List.replicate raw.length (raw.headD 0) then [40, 181, 47, 253, 1, raw.headD 0]
  else [40, 181, 47, 253, 0] ++ raw

/-- What is behind the header, as long as it should be. -/
def sampleDecompress (packed : Bytes) (length : ℕ) : Except String Bytes :=
  match packed.drop 4 with
  | kind :: rest =>
    if kind = 1 then .ok (List.replicate length (rest.headD 0)) else .ok rest
  | [] => .error "io"

/-- The compression of the sample can be undone. -/
theorem sampleDecompress_compress (raw : Bytes) :
    sampleDecompress (sampleCompress raw) raw.length = .ok raw := by
  unfold sampleCompress
  split_ifs with hsame
  · exact congrArg Except.ok hsame.symm
  · rfl

/-- Chunks and manifests are their own digests. -/
def sampleArchiver : Archiver (List Entry) where
  euid := 1
  egid := 1
  split := sampleSplit
  split_flatten := sampleSplit_flatten
  split_bounded content chunk hchunk := by
    obtain ⟨hpos, hle⟩ := sampleSplit_bounded content chunk hchunk
    exact ⟨hpos, hle.trans (Nat.le_of_ble_eq_true rfl)⟩
  digest chunk := chunk
  manifestId manifest := manifest
  digest_injective := Function.injective_id
  manifestId_injective := Function.injective_id
  compress := sampleCompress
  decompress := sampleDecompress
  decompress_compress := sampleDecompress_compress
  compress_ne_nil raw := by
    unfold sampleCompress
    split_ifs <;> simp
  validateManifest _ := true

/-- New objects get an attribute, and every change has a time of its own. -/
def sampleVolume : Volume where
  dev := 3
  clock n := (100 + n, 0)
  inherited := OrdMap.empty.insert (text "user.inherited") [1]
  directoryMode := 493

/-- A directory that may not be written, with one file of two names, and a symlink. -/
def sampleResident : Resident where
  tree := .node (Host.sampleItem 1 2 320 .directory)
    [([97], .node (Host.sampleItem 2 2 420 (.file (List.replicate 20 7))) []),
      ([98], .node (Host.sampleItem 2 2 420 (.file (List.replicate 20 7))) []),
        ([99], .node (Host.sampleItem 3 1 511 (.symlink [97])) [])]
  distinct := by decide
  shared := by
    intro x hx y hy hsame
    simp only [Archive.items, itemsOf, Item.isDir, Host.sampleItem, List.nil_append] at hx hy
    simp only [decide_true, if_true, reduceCtorEq, decide_false, Bool.false_eq_true, if_false,
      List.mem_cons, List.cons_append, List.nil_append, List.not_mem_nil, or_false] at hx hy
    rcases hx with rfl | rfl | rfl | rfl <;> rcases hy with rfl | rfl | rfl | rfl <;>
      first | rfl | exact absurd hsame (by simp [Item.sameFile, Item.isFile])
  counted := by decide
  sorted := by
    have hnames : ([97] : Bytes) < [98] ∧ ([97] : Bytes) < [99] ∧ ([98] : Bytes) < [99] := by decide
    simpa [Tree.Sorted, SortedOf, and_assoc] using hnames
  symlinks := by
    intro x hx target ht
    simp only [Workspace.items, Archive.items, itemsOf, Item.isDir, Host.sampleItem,
      List.nil_append] at hx
    simp only [decide_true, if_true, reduceCtorEq, decide_false, Bool.false_eq_true, if_false,
      List.mem_cons, List.cons_append, List.nil_append, List.not_mem_nil, or_false] at hx
    rcases hx with rfl | rfl | rfl | rfl <;> first | rfl | exact absurd ht (by simp)

/-- A workspace is restored after others were captured. -/
theorem restore_capture_sample : ∃ s id,
    sampleArchiver.capture (sampleArchiver.captures .empty [Host.sampleRemnant])
      sampleResident.toWorkspace = .ok (s, id) ∧
    ∃ d manifest,
      sampleArchiver.restore sampleVolume false
        (sampleArchiver.captures s [Host.sampleWorkspace]) id = .ok d ∧
      Restored sampleResident.items d ∧ sampleArchiver.host.scan sampleResident.toWorkspace =
        .ok manifest ∧
      sampleArchiver.scanTree (d.tree sampleVolume sampleArchiver) = .ok manifest ∧
      (∃ w' : Workspace, w'.tree = d.tree sampleVolume sampleArchiver ∧
        sampleArchiver.capture (sampleArchiver.captures s [Host.sampleWorkspace]) w' =
          .ok (sampleArchiver.captures s [Host.sampleWorkspace], id)) ∧
      ∃ receipt, sampleArchiver.verify (sampleArchiver.captures s [Host.sampleWorkspace]) id
        (d.tree sampleVolume sampleArchiver) = .ok receipt :=
  ⟨_, _, rfl,
    Archiver.restore_capture sampleArchiver sampleVolume [Host.sampleRemnant] [Host.sampleWorkspace]
      sampleResident _ _ rfl⟩

end Archiver

end Archive

end Furrow
