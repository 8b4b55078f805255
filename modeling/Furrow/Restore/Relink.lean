import Mathlib
import Furrow.Lib.OrdMap
import Furrow.Restore.Disk
import Furrow.Policy

set_option relaxedAutoImplicit false
set_option autoImplicit false

/-!
# Putting hard links back

`hardlink.rs` and `restore_links`: the members of a recorded group that are still as their entries
say, by mode, size and time, are linked to the first of them.  A link is made beside the member and
renamed over it; the file system may refuse either call.  The directory of an entry that is made or
taken away gets the time of the call.

A member is compared with its own entry, and never with the first one: they may hold different
bytes.

## Main definitions

* `Furrow.Relink.LinkDisk` — directory entries, and the objects that they share.
* `Furrow.Relink.Session.restore` — the groups, one after the other.
* `Furrow.Relink.Session.Twins` — the members that would be linked look alike.

## Main results

* `Furrow.Relink.Session.shown_restore` — where members look alike, every path looks as before, but
  for the times of directories.
* `Furrow.Relink.Session.linked_restore` — members that do not are linked all the same.
-/

namespace Furrow

namespace Relink

/-- A directory entry, by the names that lead to it. -/
abbrev Slot := List Bytes

/-- A directory with a new time; other objects keep theirs. -/
def restamp (now : ℤ × UInt32) : DiskNode → DiskNode
  | .directory mode _ => .directory mode now
  | node => node

/-- What is seen, but for the times of directories. -/
def timeless (tree : DiskTree) : DiskTree := fun p => (tree p).map (restamp (0, 0))

/-- The directory entries, and the objects: several entries may share one. -/
structure LinkDisk where
  entries : OrdMap Slot ℕ
  node : ℕ → DiskNode

namespace LinkDisk

variable (d : LinkDisk)

/-- The object at an entry. -/
def seen : DiskTree := fun p => (d.entries.get? p).map d.node

/-- `same_file` -/
def sameFile (p q : Slot) : Bool := d.entries.get? p = d.entries.get? q

/-- One more entry for the object at an entry. -/
def link (source target : Slot) : LinkDisk :=
  match d.entries.get? source with
  | some i => { d with entries := d.entries.insert target i }
  | none => d

/-- One entry less. -/
def unlink (p : Slot) : LinkDisk := { d with entries := d.entries.erase p }

/-- The directory that an entry is in gets a new time. -/
def stamp (now : ℤ × UInt32) (p : Slot) : LinkDisk :=
  match d.entries.get? p.dropLast with
  | some i => { d with node := Function.update d.node i (restamp now (d.node i)) }
  | none => d

end LinkDisk

/-- What the file system does: the links and the renames that it refuses, and the times of its
calls. -/
structure Refusals where
  link : Slot → Slot → Bool
  rename : Slot → Slot → Bool
  clock : ℕ → ℤ × UInt32

/-- `hard_link`, which replaces nothing. -/
def hardLink (k : Refusals) (now : ℤ × UInt32) (d : LinkDisk) (source target : Slot) :
    Option LinkDisk :=
  if k.link source target ∨ (d.entries.get? target).isSome then none
  else some ((d.link source target).stamp now target)

/-- `rename`, over an entry of another object. -/
def rename (k : Refusals) (now : ℤ × UInt32) (d : LinkDisk) (source target : Slot) :
    Option LinkDisk :=
  if k.rename source target then none
  else some ((((d.link source target).unlink source).stamp now source).stamp now target)

/-- `remove_file` -/
def removeFile (now : ℤ × UInt32) (d : LinkDisk) (p : Slot) : LinkDisk := (d.unlink p).stamp now p

/-- The components of a path, as the code sees them; `/` and `.` stand for those that begin it. -/
def pathComponents (raw : Bytes) : List Bytes :=
  let parts := raw.splitOn slash
  (if raw.head? = some slash then [[slash]] else if parts.head? = some [46] then [[46]] else []) ++
    parts.filter fun c => c ≠ [] ∧ c ≠ [46]

/-- `safe_join` -/
def safeJoin (path : Bytes) : Bool :=
  (pathComponents path).all fun c => c ≠ [slash] ∧ c ≠ [46] ∧ c ≠ [46, 46]

/-- `selected` -/
def selected (path : Bytes) (selections : List Bytes) : Bool :=
  selections.isEmpty ||
    selections.any fun selection => (pathComponents selection).isPrefixOf (pathComponents path)

/-- What a restore of links is given: the root, the policy, the selected paths, and the entries of
the snapshot, which may be unreadable; and the names of its temporary links. -/
structure Session where
  root : Slot
  limit : ℕ
  protected_ : CapturePolicy
  selectedPaths : List Bytes
  lookupTreePath : Bytes → Option (Option TreeEntry)
  tempName : ℕ → Bytes
  tempName_injective : Function.Injective tempName

/-- The disk, the number of links that were tried, and the paths that stay copies. -/
structure State where
  disk : LinkDisk
  counter : ℕ
  unlinked : List Bytes

/-- `stat_matches_entry` -/
def statMatchesEntry (node : DiskNode) (entry : TreeEntry) : Bool :=
  match node with
  | .file content mode mtime =>
    mode = entry.mode ∧ content.length = entry.size.toNat ∧
      mtime = (entry.mtimeSecs, entry.mtimeNanos)
  | _ => false

namespace Session

variable (x : Session)

/-- The entry at a path below the root (`symlink_metadata`). -/
def place (tree : DiskTree) (path : Bytes) : Option Slot :=
  resolve tree false x.limit x.root (path.splitOn slash)

/-- Whether a path is passed over without a look at the snapshot. -/
def passes (path : Bytes) : Bool :=
  x.protected_.excludesBytes path || !selected path x.selectedPaths

/-- Whether the look at a path does not fail. -/
def readable (path : Bytes) : Bool :=
  x.passes path || (safeJoin path && (x.lookupTreePath path).isSome)

/-- The entry of a path that is selected and still is the file of the snapshot (`intact_member`, and
the policy); nothing if the look fails. -/
def intact (tree : DiskTree) (path : Bytes) : Option (Option Slot) :=
  if x.passes path then some none
  else if ¬ safeJoin path then none
  else
    match x.lookupTreePath path with
    | none => none
    | some none => some none
    | some (some entry) =>
      if entry.kind ≠ .File then some none
      else
        match x.place tree path with
        | none => some none
        | some slot =>
          some (if (tree slot).any fun node => statMatchesEntry node entry then some slot else none)

/-- The intact members of a group. -/
def members (tree : DiskTree) : List Bytes → Option (List (Bytes × Slot))
  | [] => some []
  | path :: paths =>
    match x.intact tree path with
    | none => none
    | some found =>
      (members tree paths).map fun more =>
        match found with
        | some slot => (path, slot) :: more
        | none => more

/-- The temporary link beside an entry. -/
def beside (counter : ℕ) (slot : Slot) : Slot := slot.dropLast ++ [x.tempName counter]

/-- `relink`, and whether it went well.  Each try has a time for its first call and one for the
second. -/
def relink (k : Refusals) (s : State) (anchor slot : Slot) : State × Bool :=
  let beside := x.beside s.counter slot
  let tried := { s with counter := s.counter + 1 }
  match hardLink k (k.clock (2 * s.counter)) s.disk anchor beside with
  | none => (tried, false)
  | some linked =>
    match rename k (k.clock (2 * s.counter + 1)) linked beside slot with
    | none => ({ tried with disk := removeFile (k.clock (2 * s.counter + 1)) linked beside }, false)
    | some renamed => ({ tried with disk := renamed }, true)

/-- One member of a group. -/
def join (k : Refusals) (anchor : Slot) (s : State) (member : Bytes × Slot) : State :=
  if s.disk.sameFile anchor member.2 then s
  else
    let tried := x.relink k s anchor member.2
    if tried.2 then tried.1 else { tried.1 with unlinked := tried.1.unlinked ++ [member.1] }

/-- `restore`, and whether it came to the end. -/
def restore (k : Refusals) (s : State) : List (List Bytes) → State × Bool
  | [] => (s, true)
  | group :: groups =>
    match x.members s.disk.seen group with
    | none => (s, false)
    | some [] => restore k s groups
    | some (anchor :: rest) => restore k (rest.foldl (x.join k anchor.2) s) groups

/-- The intact members of a group look like the first one, in all groups down to one with a path
that cannot be looked up. -/
def Twins (tree : DiskTree) (groups : List (List Bytes)) : Prop :=
  ∀ group ∈ groups.takeWhile fun group => group.all x.readable, ∀ anchor rest,
    x.members tree group = some (anchor :: rest) → ∀ member ∈ rest, tree member.2 = tree anchor.2

variable {x}

/-! ## Times of directories -/

/-- The last time counts. -/
@[simp] theorem restamp_restamp (now now' : ℤ × UInt32) (node : DiskNode) :
    restamp now (restamp now' node) = restamp now node := by
  cases node <;> rfl

/-- Only files match, and these keep their times. -/
@[simp] theorem statMatchesEntry_restamp (now : ℤ × UInt32) (node : DiskNode) (entry : TreeEntry) :
    statMatchesEntry (restamp now node) entry = statMatchesEntry node entry := by
  cases node <;> rfl

/-- The times of directories lead nowhere. -/
theorem resolve_timeless (tree : DiskTree) (follow : Bool) (limit : ℕ) (dir path : List Bytes) :
    resolve (timeless tree) follow limit dir path = resolve tree follow limit dir path := by
  induction limit generalizing dir path with
  | zero => cases path <;> rfl
  | succ limit ih =>
    cases path with
    | nil => rfl
    | cons name rest =>
      rw [resolve, resolve, ih, ih]
      have hnode : timeless tree (dir ++ [name]) = (tree (dir ++ [name])).map (restamp (0, 0)) :=
        rfl
      rw [hnode]
      cases tree (dir ++ [name]) with
      | none => rfl
      | some node => cases node <;> simp [restamp, ih]

/-- Whether a member is intact does not depend on the times of directories. -/
theorem intact_timeless (tree : DiskTree) (path : Bytes) :
    x.intact (timeless tree) path = x.intact tree path := by
  have hplace : x.place (timeless tree) path = x.place tree path := resolve_timeless tree _ _ _ _
  have hmatches :
      ∀ slot entry, ((timeless tree) slot).any (fun node => statMatchesEntry node entry) =
        (tree slot).any fun node => statMatchesEntry node entry := by
    intro slot entry
    unfold timeless
    cases tree slot <;> simp
  unfold intact
  rw [hplace]
  simp only [hmatches]

/-- The members of a group do not depend on the times of directories. -/
theorem members_timeless (tree : DiskTree) (group : List Bytes) :
    x.members (timeless tree) group = x.members tree group := by
  induction group with
  | nil => rfl
  | cons path paths ih => rw [members, members, intact_timeless, ih]

/-- A disk that is another one but for the times of directories. -/
def Stamped (d e : LinkDisk) : Prop :=
  e.entries = d.entries ∧ ∀ i, restamp (0, 0) (e.node i) = restamp (0, 0) (d.node i)

/-- Nothing is stamped. -/
theorem Stamped.refl (d : LinkDisk) : Stamped d d := ⟨rfl, fun _ => rfl⟩

/-- What is stamped twice is stamped. -/
theorem Stamped.trans {d e f : LinkDisk} (h : Stamped d e) (h' : Stamped e f) : Stamped d f :=
  ⟨h'.1.trans h.1, fun i => (h'.2 i).trans (h.2 i)⟩

/-- Stamping a directory changes nothing else. -/
theorem stamped_stamp (d : LinkDisk) (now : ℤ × UInt32) (p : Slot) : Stamped d (d.stamp now p) := by
  unfold LinkDisk.stamp
  split
  · rename_i j _
    refine ⟨rfl, fun i => ?_⟩
    dsimp only
    by_cases hij : i = j
    · rw [hij, Function.update_self, restamp_restamp]
    · rw [Function.update_of_ne hij]
  · exact Stamped.refl d

/-- A link on a stamped disk. -/
theorem Stamped.link {d e : LinkDisk} (h : Stamped d e) (source target : Slot) :
    Stamped (d.link source target) (e.link source target) := by
  unfold LinkDisk.link
  rw [h.1]
  split
  · exact ⟨rfl, h.2⟩
  · exact h

/-- A removal on a stamped disk. -/
theorem Stamped.unlink {d e : LinkDisk} (h : Stamped d e) (p : Slot) :
    Stamped (d.unlink p) (e.unlink p) := by
  unfold LinkDisk.unlink
  rw [h.1]
  exact ⟨rfl, h.2⟩

/-- A stamped disk looks the same, but for the times of directories. -/
theorem Stamped.shown {d e : LinkDisk} (h : Stamped d e) : timeless e.seen = timeless d.seen := by
  funext p
  unfold timeless LinkDisk.seen
  rw [h.1]
  cases d.entries.get? p with
  | none => rfl
  | some i => exact congrArg some (h.2 i)

/-- A file is seen wherever the same is seen but for the times of directories. -/
theorem file_of_timeless {tree tree' : DiskTree} (h : timeless tree' = timeless tree) {p : Slot}
    {content : Bytes} {mode : UInt32} {mtime : ℤ × UInt32}
    (hp : tree p = some (.file content mode mtime)) :
    tree' p = some (.file content mode mtime) := by
  have hsame := congrFun h p
  unfold timeless at hsame
  rw [hp] at hsame
  obtain ⟨node, hnode, heq⟩ := Option.map_eq_some_iff.mp hsame
  cases node with
  | directory mode' mtime' => exact absurd heq (by simp [restamp])
  | file _ _ _ | link _ _ | fifo _ _ => rw [hnode]; exact congrArg some heq

/-! ## Links -/

/-- A link is to the object of its source. -/
theorem get?_link {d : LinkDisk} {source : Slot} {i : ℕ} (h : d.entries.get? source = some i)
    (target p : Slot) :
    (d.link source target).entries.get? p = if p = target then some i else d.entries.get? p := by
  unfold LinkDisk.link
  rw [h]
  refine (OrdMap.get?_insert d.entries target p i).trans ?_
  split_ifs <;> rfl

/-- A link changes no object. -/
theorem link_node (d : LinkDisk) (source target : Slot) : (d.link source target).node = d.node := by
  unfold LinkDisk.link
  split <;> rfl

/-- A link that is taken away again was never there. -/
theorem unlink_link {d : LinkDisk} {source target : Slot} {i : ℕ}
    (h : d.entries.get? source = some i) (hfree : d.entries.get? target = none) :
    (d.link source target).unlink target = d := by
  have hentries : ((d.link source target).unlink target).entries = d.entries := by
    refine OrdMap.ext_get? fun p => ?_
    unfold LinkDisk.unlink
    dsimp only
    rw [OrdMap.get?_erase, get?_link h]
    split_ifs with hp
    · rw [hp, hfree]
    · rfl
  have hnode : ((d.link source target).unlink target).node = d.node := link_node d source target
  exact congrArg₂ LinkDisk.mk hentries hnode

/-- The disk after a link beside an entry was renamed over it, before any directory has a new
time. -/
def relinked (d : LinkDisk) (anchor slot beside : Slot) : LinkDisk :=
  ((d.link anchor beside).link beside slot).unlink beside

/-- A path that is relinked stands for the object of the anchor. -/
theorem get?_relinked {d : LinkDisk} {anchor slot beside : Slot} {i : ℕ}
    (h : d.entries.get? anchor = some i) (hslot : slot ≠ beside)
    (hfree : d.entries.get? beside = none) (p : Slot) :
    (relinked d anchor slot beside).entries.get? p =
      if p = slot then some i else d.entries.get? p := by
  have hbeside : (d.link anchor beside).entries.get? beside = some i := by
    rw [get?_link h, if_pos rfl]
  unfold relinked LinkDisk.unlink
  dsimp only
  rw [OrdMap.get?_erase, get?_link hbeside, get?_link h]
  by_cases hp : p = beside
  · rw [if_pos hp, if_neg (by rw [hp]; exact Ne.symm hslot), hp, hfree]
  · rw [if_neg hp, if_neg hp]

/-- Relinking changes no object. -/
theorem relinked_node (d : LinkDisk) (anchor slot beside : Slot) :
    (relinked d anchor slot beside).node = d.node := by
  unfold relinked LinkDisk.unlink
  dsimp only
  rw [link_node, link_node]

/-- What a try to link becomes: the entries stay as they are, or no call is refused.  Only
directories get other times. -/
theorem relink_disk (k : Refusals) {s : State} {anchor slot : Slot} {i j : ℕ}
    (hanchor : s.disk.entries.get? anchor = some i) (hslot : s.disk.entries.get? slot = some j) :
    Stamped s.disk (x.relink k s anchor slot).1.disk ∨
      k.link anchor (x.beside s.counter slot) = false ∧
      k.rename (x.beside s.counter slot) slot = false ∧
      slot ≠ x.beside s.counter slot ∧ s.disk.entries.get? (x.beside s.counter slot) = none ∧
      Stamped (relinked s.disk anchor slot (x.beside s.counter slot))
        (x.relink k s anchor slot).1.disk := by
  unfold relink hardLink
  dsimp only
  by_cases hrefused : k.link anchor (x.beside s.counter slot) = true ∨
      (s.disk.entries.get? (x.beside s.counter slot)).isSome = true
  · rw [if_pos hrefused]
    exact Or.inl (Stamped.refl _)
  rw [if_neg hrefused]
  obtain ⟨hlink, hfree⟩ := not_or.mp hrefused
  have hnone : s.disk.entries.get? (x.beside s.counter slot) = none := by simpa using hfree
  have hne : slot ≠ x.beside s.counter slot := by
    intro heq
    rw [← heq, hslot] at hnone
    exact absurd hnone (by simp)
  have hlinked :=
    stamped_stamp (s.disk.link anchor (x.beside s.counter slot)) (k.clock (2 * s.counter))
      (x.beside s.counter slot)
  unfold rename
  by_cases hstuck : k.rename (x.beside s.counter slot) slot = true
  · left
    simp only [if_pos hstuck]
    have hback := (hlinked.unlink (x.beside s.counter slot)).trans (stamped_stamp _
      (k.clock (2 * s.counter + 1)) (x.beside s.counter slot))
    rw [unlink_link hanchor hnone] at hback
    exact hback
  · right
    simp only [if_neg hstuck]
    refine ⟨by simpa using hlink, by simpa using hstuck, hne, hnone, ?_⟩
    exact (((hlinked.link (x.beside s.counter slot) slot).unlink (x.beside s.counter slot)).trans
      (stamped_stamp _ _ _)).trans (stamped_stamp _ _ _)

/-- What a try to link becomes where no call is refused. -/
theorem relink_granted (k : Refusals) {s : State} {anchor slot : Slot}
    (hlink : k.link anchor (x.beside s.counter slot) = false)
    (hrename : k.rename (x.beside s.counter slot) slot = false)
    (hfree : s.disk.entries.get? (x.beside s.counter slot) = none) :
    Stamped (relinked s.disk anchor slot (x.beside s.counter slot))
      (x.relink k s anchor slot).1.disk := by
  have hlinked :=
    stamped_stamp (s.disk.link anchor (x.beside s.counter slot)) (k.clock (2 * s.counter))
      (x.beside s.counter slot)
  simp only [relink, hardLink, rename, hlink, hrename, hfree]
  simp only [Option.isSome_none, Bool.false_eq_true, or_self, if_false]
  exact (((hlinked.link (x.beside s.counter slot) slot).unlink (x.beside s.counter slot)).trans
    (stamped_stamp _ _ _)).trans (stamped_stamp _ _ _)

/-- A member is relinked unless it is the same file. -/
theorem join_disk (k : Refusals) (anchor : Slot) (s : State) (member : Bytes × Slot) :
    (x.join k anchor s member).disk = if s.disk.sameFile anchor member.2 then s.disk
      else (x.relink k s anchor member.2).1.disk := by
  unfold join
  dsimp only
  split_ifs <;> rfl

/-- Every attempt takes a temporary name. -/
theorem relink_counter (k : Refusals) (s : State) (anchor slot : Slot) :
    (x.relink k s anchor slot).1.counter = s.counter + 1 := by
  unfold relink
  dsimp only
  split
  · rfl
  · split <;> rfl

/-- Temporary names are not taken twice. -/
theorem join_counter (k : Refusals) (anchor : Slot) (s : State) (member : Bytes × Slot) :
    s.counter ≤ (x.join k anchor s member).counter := by
  unfold join
  dsimp only
  split_ifs
  · exact le_rfl
  all_goals exact (Nat.le_succ _).trans (relink_counter k s anchor member.2).ge

/-! ## Members -/

/-- A member can be judged if its entry can be looked up. -/
theorem isSome_intact (tree : DiskTree) (path : Bytes) :
    (x.intact tree path).isSome = x.readable path := by
  unfold intact readable
  by_cases hpass : x.passes path = true
  · simp [hpass]
  by_cases hsafe : safeJoin path = true
  · rw [if_neg hpass, if_neg (by simpa using hsafe)]
    cases hlookup : x.lookupTreePath path with
    | none => simp [hpass]
    | some found =>
      cases found with
      | none => simp [hsafe]
      | some entry =>
        dsimp only
        split_ifs
        · simp [hsafe]
        · cases x.place tree path <;> simp [hsafe]
  · simp [hpass, hsafe]

/-- Whether the members of a group can be looked up does not depend on the disk. -/
theorem isSome_members (tree : DiskTree) (group : List Bytes) :
    (x.members tree group).isSome = group.all x.readable := by
  induction group with
  | nil => rfl
  | cons path paths ih =>
    rw [members, List.all_cons, ← ih, ← isSome_intact tree path]
    cases x.intact tree path <;> simp

/-- A member that is intact is a file. -/
theorem intact_seen {tree : DiskTree} {path : Bytes} {slot : Slot}
    (h : x.intact tree path = some (some slot)) :
    ∃ content mode mtime, tree slot = some (.file content mode mtime) := by
  unfold intact at h
  split_ifs at h
  · exact absurd h (by simp)
  · cases hlookup : x.lookupTreePath path with
    | none => simp [hlookup] at h
    | some found =>
      cases found with
      | none => simp [hlookup] at h
      | some entry =>
        simp only [hlookup] at h
        split_ifs at h
        · exact absurd h (by simp)
        · cases hplace : x.place tree path with
          | none => simp [hplace] at h
          | some at_ =>
            simp only [hplace, Option.some.injEq] at h
            split_ifs at h with hmatches
            · rw [← Option.some.inj h]
              obtain ⟨node, hnode, hentry⟩ := Option.any_eq_true _ _ |>.mp hmatches
              cases node with
              | file content mode mtime => exact ⟨content, mode, mtime, hnode⟩
              | directory _ _ | link _ _ | fifo _ _ =>
                exact absurd hentry (by simp [statMatchesEntry])

/-- Members are regular files. -/
theorem members_seen {tree : DiskTree} {group : List Bytes} {found : List (Bytes × Slot)}
    (h : x.members tree group = some found) {member : Bytes × Slot} (hmember : member ∈ found) :
    ∃ content mode mtime, tree member.2 = some (.file content mode mtime) := by
  induction group generalizing found with
  | nil =>
    rw [← Option.some.inj h] at hmember
    exact absurd hmember List.not_mem_nil
  | cons path paths ih =>
    rw [members] at h
    cases hintact : x.intact tree path with
    | none => simp [hintact] at h
    | some place =>
      rw [hintact] at h
      obtain ⟨more, hmore, rfl⟩ := Option.map_eq_some_iff.mp h
      cases place with
      | none => exact ih hmore hmember
      | some slot =>
        rcases List.mem_cons.mp hmember with rfl | hrest
        · exact intact_seen hintact
        · exact ih hmore hrest

/-- What is seen is the object of an entry. -/
theorem entry_of_seen {d : LinkDisk} {p : Slot} {node : DiskNode} (h : d.seen p = some node) :
    ∃ i, d.entries.get? p = some i ∧ d.node i = node := Option.map_eq_some_iff.mp h

/-! ## Members that look alike -/

/-- A link to an entry that looks alike changes nothing that is seen but the times of
directories. -/
theorem shown_join (k : Refusals) {s : State} {anchor : Slot} {member : Bytes × Slot}
    {node : DiskNode} (hanchor : timeless s.disk.seen anchor = some node)
    (hmember : timeless s.disk.seen member.2 = some node) :
    timeless (x.join k anchor s member).disk.seen = timeless s.disk.seen := by
  obtain ⟨look, hlook, hnode⟩ := Option.map_eq_some_iff.mp hanchor
  obtain ⟨i, hi, rfl⟩ := entry_of_seen hlook
  obtain ⟨look', hlook', -⟩ := Option.map_eq_some_iff.mp hmember
  obtain ⟨j, hj, -⟩ := entry_of_seen hlook'
  rw [join_disk]
  split_ifs
  · rfl
  rcases relink_disk (x := x) k hi hj with hstamped | ⟨-, -, hne, hfree, hstamped⟩
  · exact hstamped.shown
  · refine hstamped.shown.trans (funext fun p => ?_)
    unfold timeless LinkDisk.seen at hmember ⊢
    rw [get?_relinked hi hne hfree, relinked_node]
    split_ifs with hp
    · rw [hp, hmember, Option.map_some, Option.map_some, hnode]
    · rfl

/-- So with all members of a group. -/
theorem shown_joins (k : Refusals) {s : State} {anchor : Slot} {rest : List (Bytes × Slot)}
    {node : DiskNode} (hanchor : timeless s.disk.seen anchor = some node)
    (hrest : ∀ member ∈ rest, timeless s.disk.seen member.2 = some node) :
    timeless (rest.foldl (x.join k anchor) s).disk.seen = timeless s.disk.seen := by
  induction rest generalizing s with
  | nil => rfl
  | cons member rest ih =>
    have hsame := shown_join (x := x) k hanchor (hrest member List.mem_cons_self)
    rw [List.foldl_cons, ih (hsame ▸ hanchor) fun m hm =>
      hsame ▸ hrest m (List.mem_cons_of_mem _ hm), hsame]

/-- Members look alike whatever the times of directories. -/
theorem Twins.congr {tree tree' : DiskTree} {groups : List (List Bytes)} (h : x.Twins tree groups)
    (hsame : timeless tree' = timeless tree) : x.Twins tree' groups := by
  intro group hgroup anchor rest hmembers member hmember
  rw [← members_timeless, hsame, members_timeless] at hmembers
  have halike := h group hgroup anchor rest hmembers member hmember
  obtain ⟨content, mode, mtime, hanchor⟩ := members_seen hmembers List.mem_cons_self
  rw [file_of_timeless hsame hanchor, file_of_timeless hsame (halike.trans hanchor)]

/-- **Where members look alike, every path looks as before**, but for the times of directories. -/
theorem shown_restore (k : Refusals) {s : State} {groups : List (List Bytes)}
    (h : x.Twins s.disk.seen groups) :
    timeless (x.restore k s groups).1.disk.seen = timeless s.disk.seen := by
  induction groups generalizing s with
  | nil => rfl
  | cons group groups ih =>
    rw [restore]
    cases hmembers : x.members s.disk.seen group with
    | none => rfl
    | some found =>
      have hreadable : group.all x.readable = true := by
        rw [← isSome_members s.disk.seen, hmembers]
        rfl
      have hmore : x.Twins s.disk.seen groups := fun g hg => h g (by
        rw [List.takeWhile_cons, hreadable, if_pos rfl]
        exact List.mem_cons_of_mem _ hg)
      cases found with
      | nil => exact ih hmore
      | cons anchor rest =>
        obtain ⟨content, mode, mtime, hnode⟩ := members_seen hmembers List.mem_cons_self
        have hanchor : timeless s.disk.seen anchor.2 = some (.file content mode mtime) := by
          unfold timeless
          rw [hnode]
          rfl
        have hrest :
            ∀ member ∈ rest, timeless s.disk.seen member.2 = some (.file content mode mtime) := by
          intro member hmember
          rw [← hanchor]
          refine congrArg (Option.map (restamp (0, 0)))
            (h group ?_ anchor rest hmembers member hmember)
          rw [List.takeWhile_cons, hreadable, if_pos rfl]
          exact List.mem_cons_self
        have hsame := shown_joins (x := x) k hanchor hrest
        exact (ih (hmore.congr hsame)).trans hsame

/-! ## Members that do not -/

/-- A file system that allows one link only. -/
def only (anchor slot : Slot) : Refusals where
  link := fun source _ => source ≠ anchor
  rename := fun _ target => target ≠ slot
  clock := fun _ => (0, 0)

/-- The names of temporary links from some number on are free. -/
def Free (x : Session) (d : LinkDisk) (counter : ℕ) : Prop :=
  ∀ n, counter ≤ n → ∀ dir, d.entries.get? (dir ++ [x.tempName n]) = none

/-- Names of temporary links run out of use. -/
theorem exists_free (x : Session) (d : LinkDisk) : ∃ counter, Free x d counter := by
  have hfinite : {n : ℕ | ∃ dir : Slot, dir ++ [x.tempName n] ∈ d.entries.keys}.Finite := by
    have hnames : {c : Bytes | ∃ dir : Slot, dir ++ [c] ∈ d.entries.keys}.Finite := by
      refine (List.finite_toSet (d.entries.keys.map fun p => p.getLastD [])).subset ?_
      rintro c ⟨dir, hmem⟩
      exact List.mem_map.mpr ⟨dir ++ [c], hmem, by simp⟩
    have hpreimage := Set.Finite.preimage (f := x.tempName) x.tempName_injective.injOn hnames
    exact hpreimage
  obtain ⟨bound, hbound⟩ := hfinite.bddAbove
  refine ⟨bound + 1, fun n hn dir => ?_⟩
  by_contra hsome
  have hmem : dir ++ [x.tempName n] ∈ d.entries.keys := by
    rw [OrdMap.mem_keys_iff]
    exact Option.isSome_iff_ne_none.mpr hsome
  have hle := hbound ⟨dir, hmem⟩
  omega

section OneLink

variable {d : LinkDisk} {anchor slot : Slot} {i j counter : ℕ}

/-- The disk with one link: an entry has become another one. -/
def Linked (d : LinkDisk) (i : ℕ) (slot : Slot) (e : LinkDisk) : Prop :=
  (∀ n, restamp (0, 0) (e.node n) = restamp (0, 0) (d.node n)) ∧
    ∀ p, e.entries.get? p = if p = slot then some i else d.entries.get? p

/-- The disk is as it was, or has one link. -/
def Reached (d : LinkDisk) (i : ℕ) (slot : Slot) (counter : ℕ) (s : State) : Prop :=
  counter ≤ s.counter ∧ (Stamped d s.disk ∨ Linked d i slot s.disk)

/-- A link stays where directories are stamped. -/
theorem Linked.stamped {e f : LinkDisk} (h : Linked d i slot e) (h' : Stamped e f) :
    Linked d i slot f :=
  ⟨fun n => (h'.2 n).trans (h.1 n), fun p => by rw [h'.1, h.2]⟩

/-- Relinking leaves the slot linked. -/
theorem linked_relinked {e f : LinkDisk} {beside : Slot} (hanchor : d.entries.get? anchor = some i)
    (hstamped : Stamped d e) (hne : slot ≠ beside) (hfree : e.entries.get? beside = none)
    (h : Stamped (relinked e anchor slot beside) f) : Linked d i slot f := by
  have hget := get?_relinked (hstamped.1.symm ▸ hanchor) hne hfree
  have hlinked : Linked d i slot (relinked e anchor slot beside) :=
    ⟨fun n => by rw [relinked_node, hstamped.2], fun p => by rw [hget, hstamped.1]⟩
  exact hlinked.stamped h

/-- Entries stay where there were some. -/
theorem Reached.exists_entry {s : State} (h : Reached d i slot counter s) {p : Slot} {n : ℕ}
    (hp : d.entries.get? p = some n) : ∃ n', s.disk.entries.get? p = some n' := by
  rcases h.2 with hstamped | hlinked
  · exact ⟨n, by rw [hstamped.1, hp]⟩
  · rw [hlinked.2]
    split_ifs
    · exact ⟨i, rfl⟩
    · exact ⟨n, hp⟩

/-- No member makes a second link. -/
theorem reached_join (hanchor : d.entries.get? anchor = some i) {s : State}
    (h : Reached d i slot counter s) {source : Slot} (member : Bytes × Slot) {n n' : ℕ}
    (hsource : d.entries.get? source = some n) (hmember : d.entries.get? member.2 = some n') :
    Reached d i slot counter (x.join (only anchor slot) source s member) ∧
      (Linked d i slot s.disk →
        Linked d i slot (x.join (only anchor slot) source s member).disk) := by
  have hcounter : counter ≤ (x.join (only anchor slot) source s member).counter :=
    h.1.trans (join_counter _ _ _ _)
  obtain ⟨m, hm⟩ := h.exists_entry hsource
  obtain ⟨m', hm'⟩ := h.exists_entry hmember
  have hsame : Stamped s.disk (x.join (only anchor slot) source s member).disk ∨
      Stamped d s.disk ∧ Linked d i slot (x.join (only anchor slot) source s member).disk := by
    rw [join_disk]
    split_ifs with hsameFile
    · exact Or.inl (Stamped.refl _)
    rcases relink_disk (x := x) (only anchor slot) hm hm' with
      hstamped | ⟨hlink, hrename, hne, hfree, hstamped⟩
    · exact Or.inl hstamped
    have hsourceEq : source = anchor := by simpa [only] using hlink
    have hmemberEq : member.2 = slot := by simpa [only] using hrename
    rcases h.2 with hd | hlinked
    · right
      rw [hsourceEq, hmemberEq] at hstamped ⊢
      rw [hmemberEq] at hne hfree
      exact ⟨hd, linked_relinked hanchor hd hne hfree hstamped⟩
    · -- The two are one file already.
      refine absurd ?_ hsameFile
      unfold LinkDisk.sameFile
      rw [hsourceEq, hmemberEq, hlinked.2, hlinked.2, if_pos rfl, hanchor]
      simp
  rcases hsame with hstamped | ⟨hd, hlinked⟩
  · refine ⟨⟨hcounter, ?_⟩, fun hl => hl.stamped hstamped⟩
    rcases h.2 with hd | hl
    · exact Or.inl (hd.trans hstamped)
    · exact Or.inr (hl.stamped hstamped)
  · exact ⟨⟨hcounter, Or.inr hlinked⟩, fun _ => hlinked⟩

/-- The pair itself is linked. -/
theorem linked_join (hanchor : d.entries.get? anchor = some i)
    (hslot : d.entries.get? slot = some j) (hij : i ≠ j) (hfree : Free x d counter) {s : State}
    (h : Reached d i slot counter s) (path : Bytes) :
    Linked d i slot (x.join (only anchor slot) anchor s (path, slot)).disk := by
  rcases h.2 with hd | hlinked
  · have hnone : s.disk.entries.get? (x.beside s.counter slot) = none := by
      rw [hd.1]
      exact hfree s.counter h.1 _
    have hne : slot ≠ x.beside s.counter slot := by
      intro heq
      rw [← heq, hd.1, hslot] at hnone
      exact absurd hnone (by simp)
    have hsame : s.disk.sameFile anchor slot = false := by
      unfold LinkDisk.sameFile
      rw [hd.1, hanchor, hslot]
      simpa using hij
    rw [join_disk, hsame, if_neg (by simp)]
    exact linked_relinked hanchor hd hne hnone
      (relink_granted (only anchor slot) (by simp [only]) (by simp [only]) hnone)
  · exact (reached_join hanchor h (path, slot) hanchor hslot).2 hlinked

/-- The members of one group, one after the other. -/
theorem reached_joins (hanchor : d.entries.get? anchor = some i) {s : State}
    (h : Reached d i slot counter s) {source : Slot} {n : ℕ}
    (hsource : d.entries.get? source = some n) {rest : List (Bytes × Slot)}
    (hrest : ∀ member ∈ rest, ∃ n', d.entries.get? member.2 = some n') :
    Reached d i slot counter (rest.foldl (x.join (only anchor slot) source) s) ∧
      (Linked d i slot s.disk →
        Linked d i slot (rest.foldl (x.join (only anchor slot) source) s).disk) := by
  induction rest generalizing s with
  | nil => exact ⟨h, id⟩
  | cons member rest ih =>
    obtain ⟨n', hn'⟩ := hrest member List.mem_cons_self
    obtain ⟨hreached, hkept⟩ := reached_join (x := x) hanchor h member hsource hn'
    obtain ⟨hlast, hlinked⟩ := ih hreached fun m hm => hrest m (List.mem_cons_of_mem _ hm)
    exact ⟨hlast, fun hl => hlinked (hkept hl)⟩

/-- A group with the pair is linked. -/
theorem linked_joins (hanchor : d.entries.get? anchor = some i)
    (hslot : d.entries.get? slot = some j) (hij : i ≠ j) (hfree : Free x d counter) {s : State}
    (h : Reached d i slot counter s) {rest : List (Bytes × Slot)}
    (hrest : ∀ member ∈ rest, ∃ n', d.entries.get? member.2 = some n') {path : Bytes}
    (hmem : (path, slot) ∈ rest) :
    Linked d i slot (rest.foldl (x.join (only anchor slot) anchor) s).disk := by
  obtain ⟨before, after, rfl⟩ := List.append_of_mem hmem
  rw [List.foldl_append, List.foldl_cons]
  have hbefore := reached_joins (x := x) hanchor h hanchor fun m (hm : m ∈ before) =>
    hrest m (List.mem_append_left _ hm)
  have hlinked := linked_join (x := x) hanchor hslot hij hfree hbefore.1 path
  have hreached := (reached_join (x := x) hanchor hbefore.1 (path, slot) hanchor hslot).1
  exact (reached_joins (x := x) hanchor hreached hanchor fun m (hm : m ∈ after) =>
    hrest m (List.mem_append_right _ (List.mem_cons_of_mem _ hm))).2 hlinked

/-- Members that are found have entries. -/
theorem exists_entry_of_members (hslot : d.entries.get? slot = some j) {s : State}
    (h : Reached d i slot counter s) {group : List Bytes}
    {found : List (Bytes × Slot)} (hfound : x.members s.disk.seen group = some found)
    {member : Bytes × Slot} (hmember : member ∈ found) : ∃ n, d.entries.get? member.2 = some n := by
  obtain ⟨content, mode, mtime, hnode⟩ := members_seen hfound hmember
  obtain ⟨n, hn, -⟩ := entry_of_seen hnode
  rcases h.2 with hstamped | hlinked
  · exact ⟨n, hstamped.1 ▸ hn⟩
  · rw [hlinked.2] at hn
    by_cases heq : member.2 = slot
    · exact ⟨j, heq ▸ hslot⟩
    · rw [if_neg heq] at hn
      exact ⟨n, hn⟩

/-- The groups that follow leave the link. -/
theorem reached_restore (hanchor : d.entries.get? anchor = some i)
    (hslot : d.entries.get? slot = some j) {s : State} (h : Reached d i slot counter s)
    (hlinked : Linked d i slot s.disk) (groups : List (List Bytes)) :
    Linked d i slot (x.restore (only anchor slot) s groups).1.disk := by
  induction groups generalizing s with
  | nil => exact hlinked
  | cons group groups ih =>
    rw [restore]
    cases hmembers : x.members s.disk.seen group with
    | none => exact hlinked
    | some found =>
      cases found with
      | nil => exact ih h hlinked
      | cons first rest =>
        obtain ⟨n, hn⟩ := exists_entry_of_members hslot h hmembers List.mem_cons_self
        obtain ⟨hreached, hkept⟩ := reached_joins (x := x) hanchor h hn fun m (hm : m ∈ rest) =>
          exists_entry_of_members hslot h hmembers (List.mem_cons_of_mem _ hm)
        exact ih hreached (hkept hlinked)

/-- **Members that do not look alike are linked all the same.** -/
theorem linked_restore (hanchor : d.entries.get? anchor = some i)
    (hslot : d.entries.get? slot = some j) (hij : i ≠ j) (hfree : Free x d counter) {s : State}
    (h : Reached d i slot counter s) {groups : List (List Bytes)} {group : List Bytes}
    (hgroup : group ∈ groups.takeWhile fun group => group.all x.readable) {first : Bytes × Slot}
    {rest : List (Bytes × Slot)} (hmembers : x.members d.seen group = some (first :: rest))
    (hfirst : first.2 = anchor) (path : Bytes) (hmem : (path, slot) ∈ rest) :
    Linked d i slot (x.restore (only anchor slot) s groups).1.disk := by
  induction groups generalizing s with
  | nil => exact absurd hgroup List.not_mem_nil
  | cons g groups ih =>
    rw [List.takeWhile_cons] at hgroup
    split_ifs at hgroup with hreadable
    · rcases h.2 with hd | hlinked
      · have hsome : (x.members s.disk.seen g).isSome = true := by
          rw [isSome_members, hreadable]
        obtain ⟨found, hfound⟩ := Option.isSome_iff_exists.mp hsome
        rw [restore, hfound]
        rcases List.mem_cons.mp hgroup with rfl | hrest
        · rw [← members_timeless, hd.shown, members_timeless, hmembers] at hfound
          rw [← Option.some.inj hfound]
          dsimp only
          have hself : Reached d i slot counter ⟨d, counter, []⟩ :=
            ⟨le_rfl, Or.inl (Stamped.refl d)⟩
          have hentries : ∀ m ∈ first :: rest, ∃ n, d.entries.get? m.2 = some n := fun m hm =>
            exists_entry_of_members hslot hself hmembers hm
          have hlinked := linked_joins (x := x) hanchor hslot hij hfree h
            (fun m hm => hentries m (List.mem_cons_of_mem _ hm)) hmem
          have hreached := (reached_joins (x := x) hanchor h hanchor fun m (hm : m ∈ rest) =>
            hentries m (List.mem_cons_of_mem _ hm)).1
          rw [hfirst]
          exact reached_restore hanchor hslot hreached hlinked groups
        · cases found with
          | nil => exact ih h hrest
          | cons other more =>
            obtain ⟨n, hn⟩ := exists_entry_of_members hslot h hfound List.mem_cons_self
            have hreached := (reached_joins (x := x) hanchor h hn fun m (hm : m ∈ more) =>
              exists_entry_of_members hslot h hfound (List.mem_cons_of_mem _ hm)).1
            exact ih hreached hrest
      · exact reached_restore hanchor hslot h hlinked (g :: groups)
    · exact absurd hgroup List.not_mem_nil

end OneLink

/-- **Relinking changes nothing that is seen, but for the times of directories, exactly if the
intact members of every group look like the first of them**, whatever links the file system
refuses. -/
theorem restore_unseen_iff (x : Session) (d : LinkDisk) (groups : List (List Bytes)) :
    (∀ (k : Refusals) (counter : ℕ) (unlinked : List Bytes),
      timeless (x.restore k ⟨d, counter, unlinked⟩ groups).1.disk.seen = timeless d.seen) ↔
      x.Twins d.seen groups := by
  constructor
  · intro h group hgroup first rest hmembers member hmember
    by_contra hne
    obtain ⟨content, mode, mtime, hnode⟩ := members_seen hmembers List.mem_cons_self
    obtain ⟨i, hi, hnodeI⟩ := entry_of_seen hnode
    obtain ⟨content', mode', mtime', hnode'⟩ :=
      members_seen hmembers (List.mem_cons_of_mem _ hmember)
    obtain ⟨j, hj, hnodeJ⟩ := entry_of_seen hnode'
    have hij : i ≠ j := by
      rintro rfl
      exact hne (by rw [hnode, hnode', ← hnodeI, ← hnodeJ])
    obtain ⟨counter, hfree⟩ := exists_free x d
    have hlinked := linked_restore hi hj hij hfree
      (s := ⟨d, counter, []⟩) ⟨le_rfl, Or.inl (Stamped.refl d)⟩ hgroup hmembers rfl member.1 hmember
    -- The object of the first one is seen at the other, and it is a file.
    have hthere :
        timeless (x.restore (only first.2 member.2) ⟨d, counter, []⟩ groups).1.disk.seen member.2 =
          some (.file content mode mtime) := by
      unfold timeless LinkDisk.seen
      rw [hlinked.2, if_pos rfl, Option.map_some, Option.map_some, hlinked.1, hnodeI]
      rfl
    have hfile : timeless d.seen member.2 = some (.file content' mode' mtime') := by
      unfold timeless
      rw [hnode']
      rfl
    rw [h (only first.2 member.2) counter [], hfile] at hthere
    exact hne (by rw [hnode, hnode', Option.some.inj hthere])
  · intro h k counter unlinked
    exact shown_restore k h

/-- A disk with two files of one byte. -/
def sampleDisk : LinkDisk where
  entries := (OrdMap.empty.insert [text "a"] 0).insert [text "b"] 1
  node := fun i => .file [if i = 0 then 1 else 2] 420 (7, 0)

/-- Names of different lengths are different. -/
theorem tildes_injective : Function.Injective fun n => List.replicate (n + 1) (126 : Byte) := by
  intro m n h
  have hlen := congrArg List.length h
  rw [List.length_replicate, List.length_replicate] at hlen
  omega

/-- The entries of the snapshot say of both files what is true of them. -/
def sampleSession : Session where
  root := []
  limit := 40
  protected_ := ⟨[], none⟩
  selectedPaths := []
  lookupTreePath := fun path => some (some ⟨path, .File, none, [], 420, 1, 7, 0, none, .Source⟩)
  tempName := fun n => List.replicate (n + 1) 126
  tempName_injective := tildes_injective

/-- Two files of a group with the same mode, size and time: the second one becomes the first. -/
theorem restore_replaces_bytes :
    sampleDisk.seen [text "b"] = some (.file [2] 420 (7, 0)) ∧
    (sampleSession.restore ⟨fun _ _ => false, fun _ _ => false, fun _ => (9, 0)⟩ ⟨sampleDisk, 0, []⟩
      [[text "a", text "b"]]).1.disk.seen [text "b"] = some (.file [1] 420 (7, 0)) := by
  decide

end Session

end Relink

end Furrow
