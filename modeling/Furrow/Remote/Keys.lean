import Furrow.ContentClass
import Furrow.Lib.SepOrder

set_option relaxedAutoImplicit false
set_option autoImplicit false

/-!
# Keys of a remote

The keys of `remote.rs`: objects by their identifiers, and for each reference the published head,
the lease of the writer and the file that is locked while the lease is changed.  The name of a
reference is part of the three paths, and may itself have parts.

## Main definitions

* `Furrow.validateRef`, `Furrow.validateKey` — names and keys that are accepted.
* `Furrow.headKey`, `Furrow.leaseKey`, `Furrow.lockRelativePath` — the paths of a reference.
* `Furrow.Apart` — no path of one reference is in the way of a path of another.

## Main results

* `Furrow.apart_iff` — when two references are apart.
-/

namespace Furrow

open SepOrder

/-- What is wrong with a key. -/
inductive KeyError
  /-- `invalid sync ref name` -/
  | invalidRef
  /-- `sync ref name may contain only letters, numbers, dot, dash, underscore, and slash` -/
  | refCharacters
  /-- `sync ref name must not start or end with a slash` -/
  | refSlash
  /-- `sync ref name must not contain empty, '.', or '..' path segments` -/
  | refSegments
  /-- `invalid remote key` -/
  | invalidKey
  /-- `invalid remote object key` -/
  | invalidObjectKey
deriving DecidableEq

/-- `MAX_REF_BYTES` -/
def maxRefBytes : ℕ := 80

/-- `u8::is_ascii_alphanumeric` -/
def isAlphanumeric (b : Byte) : Bool :=
  (48 ≤ b && b ≤ 57) || (65 ≤ b && b ≤ 90) || (97 ≤ b && b ≤ 122)

/-- The characters of the name of a reference. -/
def isRefByte (b : Byte) : Bool :=
  isAlphanumeric b || b = 46 || b = 95 || b = 45 || b = slash

/-- Check the name of a reference (`validate_ref`). -/
def validateRef (name : Bytes) : Except KeyError Unit :=
  if name = [] ∨ maxRefBytes < name.length then .error .invalidRef
  else if !name.all isRefByte then .error .refCharacters
  else if name.head? = some slash ∨ name.getLast? = some slash then .error .refSlash
  else if !(name.splitOn slash).all fun segment =>
      segment ≠ [] && segment ≠ text "." && segment ≠ text ".." then .error .refSegments
  else .ok ()

/-- A text cut at its last slash (`rsplit_once`). -/
def rsplitOnce : Bytes → Option (Bytes × Bytes)
  | [] => none
  | b :: rest =>
    match rsplitOnce rest with
    | some (name, suffix) => some (b :: name, suffix)
    | none => if b = slash then some ([], rest) else none

/-- A lowercase hexadecimal digit. -/
def isLowerHex (b : Byte) : Bool := (48 ≤ b && b ≤ 57) || (97 ≤ b && b ≤ 102)

/-- Check a key (`validate_key`): the head or the lease of a reference, or an object. -/
def validateKey (key : Bytes) : Except KeyError Unit :=
  if key = text "HEAD" ∨ key = text "LEASE" then .ok ()
  else if text "refs/" <+: key then
    match rsplitOnce (key.drop (text "refs/").length) with
    | none => .error .invalidKey
    | some (name, suffix) =>
      if suffix = text "HEAD" ∨ suffix = text "LEASE" then validateRef name
      else .error .invalidKey
  else if text "objects/" <+: key then
    let value := key.drop (text "objects/").length
    if value.length = 65 ∧ value[2]? = some slash ∧
        (value.zipIdx.all fun (b, index) => index = 2 || isLowerHex b) then .ok ()
    else .error .invalidObjectKey
  else .error .invalidKey

/-- A file of a reference; without a name it is that of the first reference there was. -/
def refPath (file : Bytes) : Option Bytes → Bytes
  | none => file
  | some name => text "refs/" ++ name ++ slash :: file

/-- The key of a head. -/
def headKey : Option Bytes → Bytes := refPath (text "HEAD")

/-- The key of a lease. -/
def leaseKey : Option Bytes → Bytes := refPath (text "LEASE")

/-- The path of a lock. -/
def lockRelativePath : Option Bytes → Bytes := refPath (text "LEASE.lock")

/-- The paths of a reference with a name. -/
def refPaths (name : Bytes) : List Bytes :=
  [headKey (some name), leaseKey (some name), lockRelativePath (some name)]

/-! ## References that are apart -/

/-- No path of one reference is a path of the other, or above one. -/
def Apart (r s : Bytes) : Prop :=
  ∀ p ∈ refPaths r, ∀ q ∈ refPaths s,
    p ≠ q ∧ ¬ SepOrder.Below slash p q ∧ ¬ SepOrder.Below slash q p

/-- The files of a reference. -/
def refFiles : List Bytes := [text "HEAD", text "LEASE", text "LEASE.lock"]

/-- A name is another one with the name of a file behind it, alone or with more parts. -/
def NestedIn (r s : Bytes) : Prop :=
  ∃ file ∈ refFiles, s = r ++ slash :: file ∨ SepOrder.Below slash (r ++ slash :: file) s

/-- The paths of a reference are those of its files. -/
theorem mem_refPaths {name p : Bytes} :
    p ∈ refPaths name ↔ ∃ file ∈ refFiles, p = text "refs/" ++ (name ++ slash :: file) := by
  simp [refPaths, refFiles, headKey, leaseKey, lockRelativePath, refPath]

/-- The files of a reference have no slash. -/
theorem slash_notMem_refFiles {file : Bytes} (h : file ∈ refFiles) : slash ∉ file := by
  have hall : ∀ file ∈ refFiles, slash ∉ file := by decide
  exact hall file h

/-- Two ways to cut a path, one of them at its last separator. -/
theorem append_sep_eq_iff {s y a t : Bytes} (hy : slash ∉ y) :
    s ++ slash :: y = a ++ slash :: t ↔
      (s = a ∧ t = y) ∨ ∃ u, s = a ++ slash :: u ∧ t = u ++ slash :: y := by
  constructor
  · intro h
    rcases List.append_eq_append_iff.mp h with ⟨c, hac, hc⟩ | ⟨c, hsc, hc⟩
    · cases c with
      | nil =>
        rw [List.append_nil] at hac
        exact Or.inl ⟨hac.symm, (List.cons.inj hc).2.symm⟩
      | cons b c =>
        obtain ⟨-, hyc⟩ := List.cons.inj hc
        exact absurd (hyc ▸ List.mem_append_right c List.mem_cons_self) hy
    · cases c with
      | nil =>
        rw [List.append_nil] at hsc
        exact Or.inl ⟨hsc, (List.cons.inj hc).2⟩
      | cons b c =>
        obtain ⟨rfl, hct⟩ := List.cons.inj hc
        exact Or.inr ⟨c, hsc, hct⟩
  · rintro (⟨rfl, rfl⟩ | ⟨u, rfl, rfl⟩)
    · rfl
    · simp

/-- A file of a reference lies below that of another if the name does, or is it. -/
theorem below_file_iff {r s x y : Bytes} (hy : slash ∉ y) :
    SepOrder.Below slash (r ++ slash :: x) (s ++ slash :: y) ↔
      s = r ++ slash :: x ∨ SepOrder.Below slash (r ++ slash :: x) s := by
  unfold SepOrder.Below
  constructor
  · rintro ⟨t, ht⟩
    rcases (append_sep_eq_iff hy).mp ht with ⟨hs, -⟩ | ⟨u, hs, -⟩
    · exact Or.inl hs
    · exact Or.inr ⟨u, hs⟩
  · rintro (rfl | ⟨u, rfl⟩)
    · exact ⟨y, rfl⟩
    · exact ⟨u ++ slash :: y, by simp⟩

/-- What is below stays so behind the same path. -/
theorem below_append_iff (a p q : Bytes) :
    SepOrder.Below slash (a ++ p) (a ++ q) ↔ SepOrder.Below slash p q := by
  unfold SepOrder.Below
  simp [List.append_assoc]

/-- **References are apart unless the name of one is the other's, with the name of a file behind
it.** -/
theorem apart_iff {r s : Bytes} (hne : r ≠ s) :
    Apart r s ↔ ¬ NestedIn r s ∧ ¬ NestedIn s r := by
  have hHead : ∀ name, text "refs/" ++ (name ++ slash :: text "HEAD") ∈ refPaths name :=
    fun name => mem_refPaths.mpr ⟨text "HEAD", List.mem_cons_self, rfl⟩
  have hslash : slash ∉ text "HEAD" := slash_notMem_refFiles List.mem_cons_self
  constructor
  · intro h
    constructor
    · rintro ⟨file, hfile, hnested⟩
      apply (h _ (mem_refPaths.mpr ⟨file, hfile, rfl⟩) _ (hHead s)).2.1
      exact (below_append_iff _ _ _).mpr ((below_file_iff hslash).mpr hnested)
    · rintro ⟨file, hfile, hnested⟩
      apply (h _ (hHead r) _ (mem_refPaths.mpr ⟨file, hfile, rfl⟩)).2.2
      exact (below_append_iff _ _ _).mpr ((below_file_iff hslash).mpr hnested)
  · rintro ⟨hrs, hsr⟩ p hp q hq
    obtain ⟨x, hx, rfl⟩ := mem_refPaths.mp hp
    obtain ⟨y, hy, rfl⟩ := mem_refPaths.mp hq
    have hxs := slash_notMem_refFiles hx
    have hys := slash_notMem_refFiles hy
    rw [below_append_iff, below_append_iff, below_file_iff hys, below_file_iff hxs]
    refine ⟨?_, fun h => hrs ⟨x, hx, h⟩, fun h => hsr ⟨y, hy, h⟩⟩
    intro heq
    rcases (append_sep_eq_iff hxs).mp (List.append_cancel_left heq) with ⟨hrs', -⟩ | ⟨u, -, hyu⟩
    · exact hne hrs'
    · exact hys (hyu ▸ List.mem_append_right u List.mem_cons_self)

/-- A reference and one that is nested deeper, both accepted. -/
theorem apart_iff_sample :
    text "team/a" ≠ text "team/a/b" ∧ validateRef (text "team/a") = .ok () ∧
      validateRef (text "team/a/b") = .ok () ∧
      (Apart (text "team/a") (text "team/a/b") ↔
        ¬ NestedIn (text "team/a") (text "team/a/b") ∧
          ¬ NestedIn (text "team/a/b") (text "team/a")) :=
  ⟨by decide, by decide, by decide, apart_iff (by decide)⟩

/-- The head of the reference `a` is a directory of the reference `a/HEAD`. -/
theorem apart_fails :
    ¬ ∀ r s : Bytes, validateRef r = .ok () → validateRef s = .ok () → r ≠ s → Apart r s := by
  intro h
  have hapart := h (text "a") (text "a/HEAD") (by decide) (by decide) (by decide)
  refine (hapart (headKey (some (text "a"))) List.mem_cons_self
    (headKey (some (text "a/HEAD"))) List.mem_cons_self).2.1 ?_
  exact ⟨text "HEAD", by decide⟩

end Furrow
