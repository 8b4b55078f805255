import Mathlib
import Furrow.Model
import Furrow.Lib.LittleEndian

set_option relaxedAutoImplicit false
set_option autoImplicit false

/-!
# Sorted directories

The names of a directory in the order of their bytes (`sorted_dir.rs`).  A small directory is sorted
in memory; of a large one, runs of names are sorted and written to files, and then merged, with the
first name of each run in a heap.

## Main definitions

* `Furrow.SortedDir.SortedDirectory` — a directory that is being read.
* `Furrow.SortedDir.openDirectory`, `Furrow.SortedDir.SortedDirectory.next` — how it is read.

## Main results

* `Furrow.SortedDir.drain_merge` — the merge gives the names of its runs in order.
* `Furrow.SortedDir.openDirectory_exact` — each name is given once, in increasing order.
-/

namespace Furrow

namespace SortedDir

/-- What goes wrong with a directory. -/
inductive DirError
  /-- `filename too long` -/
  | filenameTooLong
  /-- A run ends within a name. -/
  | unexpectedEof
deriving DecidableEq

/-- The first name that is left of a run, and the run. -/
structure HeapName where
  name : Bytes
  run : ℕ
deriving DecidableEq

/-- The order of the heap, in which the smallest name is the greatest. -/
def HeapName.before (a b : HeapName) : Bool := a.name < b.name || (a.name = b.name && a.run ≤ b.run)

/-- `BinaryHeap::pop` -/
def pop : List HeapName → Option (HeapName × List HeapName)
  | [] => none
  | a :: heap =>
    match pop heap with
    | none => some (a, [])
    | some (b, rest) => if a.before b then some (a, b :: rest) else some (b, a :: rest)

/-- Names in the order of their bytes. -/
def sortNames (names : List Bytes) : List Bytes := names.mergeSort fun a b => decide (a ≤ b)

/-- A name in a run. -/
def encodeName (name : Bytes) : Bytes := LittleEndian.bytes 4 name.length ++ name

/-- Write a name (`u32::try_from`). -/
def writeName (name : Bytes) : Except DirError Bytes :=
  if name.length < 2 ^ 32 then .ok (encodeName name) else .error .filenameTooLong

/-- Write names, one after the other. -/
def writeNames : List Bytes → Except DirError Bytes
  | [] => .ok []
  | name :: names => do
    let bytes ← writeName name
    let rest ← writeNames names
    .ok (bytes ++ rest)

/-- `spill_run` -/
def spillRun (names : List Bytes) : Except DirError Bytes := writeNames (sortNames names)

/-- `read_name`, and what is left of the run. -/
def readName (input : Bytes) : Except DirError (Option (Bytes × Bytes)) :=
  if input = [] then .ok none
  else if input.length < 4 then .error .unexpectedEof
  else
    let length := LittleEndian.value (input.take 4)
    let rest := input.drop 4
    if rest.length < length then .error .unexpectedEof
    else .ok (some (rest.take length, rest.drop length))

/-- A directory that is being read: in memory, or from runs. -/
inductive SortedDirectory
  | memory (names : List Bytes)
  | merge (runs : List Bytes) (heap : List HeapName)

/-- Read the entries: the names that are left, and the runs that were spilled. -/
def readEntries (perRun : ℕ) : List Bytes → List Bytes → List Bytes →
    Except DirError (List Bytes × List Bytes)
  | [], names, runs => .ok (names, runs)
  | entry :: entries, names, runs =>
    if (names ++ [entry]).length = perRun then do
      let run ← spillRun (names ++ [entry])
      readEntries perRun entries [] (runs ++ [run])
    else readEntries perRun entries (names ++ [entry]) runs

/-- Read the first name of each run. -/
def fillHeap : ℕ → List Bytes → Except DirError (List Bytes × List HeapName)
  | _, [] => .ok ([], [])
  | run, input :: inputs => do
    let first ← readName input
    let (readers, heap) ← fillHeap (run + 1) inputs
    match first with
    | none => .ok (input :: readers, heap)
    | some (name, rest) => .ok (rest :: readers, ⟨name, run⟩ :: heap)

/-- `SortedDirectory::open`, with runs of some length. -/
def openDirectory (perRun : ℕ) (entries : List Bytes) : Except DirError SortedDirectory := do
  let (names, runs) ← readEntries perRun entries [] []
  if runs.isEmpty then .ok (.memory (sortNames names))
  else
    let runs ← if names.isEmpty then .ok runs else do
      let run ← spillRun names
      .ok (runs ++ [run])
    let (readers, heap) ← fillHeap 0 runs
    .ok (.merge readers heap)

/-- `Iterator::next` -/
def SortedDirectory.next : SortedDirectory → Option (Except DirError Bytes × SortedDirectory)
  | .memory [] => none
  | .memory (name :: names) => some (.ok name, .memory names)
  | .merge runs heap =>
    match pop heap with
    | none => none
    | some (item, heap) =>
      match readName (runs.getD item.run []) with
      | .ok (some (name, rest)) =>
        some (.ok item.name, .merge (runs.set item.run rest) (⟨name, item.run⟩ :: heap))
      | .ok none => some (.ok item.name, .merge runs heap)
      | .error e => some (.error e, .merge runs heap)

/-- All that is given, if that comes to an end within some steps. -/
def SortedDirectory.drain : ℕ → SortedDirectory → Option (List (Except DirError Bytes))
  | 0, _ => none
  | fuel + 1, d =>
    match d.next with
    | none => some []
    | some (item, d) => (d.drain fuel).map (item :: ·)

/-! ## The heap -/

/-- Only an empty heap has no first name. -/
theorem pop_eq_none {heap : List HeapName} (h : pop heap = none) : heap = [] := by
  cases heap with
  | nil => rfl
  | cons a heap =>
    rw [pop] at h
    split at h
    · exact absurd h (by simp)
    · split_ifs at h

/-- What is taken from the heap has the smallest name. -/
theorem pop_spec {heap rest : List HeapName} {m : HeapName} (h : pop heap = some (m, rest)) :
    heap.Perm (m :: rest) ∧ ∀ b ∈ rest, m.name ≤ b.name := by
  induction heap generalizing m rest with
  | nil => exact absurd h (by simp [pop])
  | cons a heap ih =>
    rw [pop] at h
    cases hpop : pop heap with
    | none =>
      rw [hpop] at h
      obtain ⟨rfl, rfl⟩ := Prod.mk.inj (Option.some.inj h)
      rw [pop_eq_none hpop]
      exact ⟨List.Perm.refl _, by simp⟩
    | some p =>
      obtain ⟨b, others⟩ := p
      obtain ⟨hperm, hle⟩ := ih hpop
      rw [hpop] at h
      dsimp only at h
      split_ifs at h with hbefore
      · obtain ⟨rfl, rfl⟩ := Prod.mk.inj (Option.some.inj h)
        have hab : a.name ≤ b.name := by
          simp only [HeapName.before, Bool.or_eq_true, decide_eq_true_eq, Bool.and_eq_true]
            at hbefore
          rcases hbefore with hlt | ⟨heq, -⟩
          · exact hlt.le
          · exact heq.le
        refine ⟨hperm.cons a, ?_⟩
        intro c hc
        rcases List.mem_cons.mp hc with rfl | hc
        · exact hab
        · exact hab.trans (hle c hc)
      · obtain ⟨rfl, rfl⟩ := Prod.mk.inj (Option.some.inj h)
        have hba : b.name ≤ a.name := by
          simp only [HeapName.before, Bool.or_eq_true, decide_eq_true_eq, Bool.and_eq_true, not_or]
            at hbefore
          exact not_lt.mp hbefore.1
        refine ⟨(hperm.cons a).trans (List.Perm.swap b a others), ?_⟩
        intro c hc
        rcases List.mem_cons.mp hc with rfl | hc
        · exact hba
        · exact hle c hc

/-! ## The runs -/

/-- A name is read back from its encoding. -/
theorem readName_encode {name : Bytes} (h : name.length < 2 ^ 32) (rest : Bytes) :
    readName (encodeName name ++ rest) = .ok (some (name, rest)) := by
  have hlen : (LittleEndian.bytes 4 name.length).length = 4 := LittleEndian.length_bytes 4 _
  have hvalue : LittleEndian.value (LittleEndian.bytes 4 name.length) = name.length := by
    rw [LittleEndian.value_bytes]
    exact Nat.mod_eq_of_lt h
  have htake : (encodeName name ++ rest).take 4 = LittleEndian.bytes 4 name.length := by
    rw [encodeName, List.append_assoc, List.take_left' hlen]
  have hdrop : (encodeName name ++ rest).drop 4 = name ++ rest := by
    rw [encodeName, List.append_assoc, List.drop_left' hlen]
  have hne : encodeName name ++ rest ≠ [] := by
    intro hnil
    rw [hnil] at htake
    rw [← htake] at hlen
    exact absurd hlen (by simp)
  have hfour : ¬ (encodeName name ++ rest).length < 4 := by
    rw [encodeName, List.length_append, List.length_append, hlen]
    omega
  unfold readName
  rw [if_neg hne, if_neg hfour]
  simp only [htake, hdrop, hvalue, List.take_left, List.drop_left]
  rw [if_neg (by rw [List.length_append]; omega)]

/-- The bytes of names. -/
def encodeNames (names : List Bytes) : Bytes := names.flatMap encodeName

/-- Names are written, unless one is too long. -/
theorem writeNames_cases (names : List Bytes) :
    ((∀ n ∈ names, n.length < 2 ^ 32) ∧ writeNames names = .ok (encodeNames names)) ∨
      ((∃ n ∈ names, 2 ^ 32 ≤ n.length) ∧ writeNames names = .error .filenameTooLong) := by
  induction names with
  | nil => exact Or.inl ⟨by simp, rfl⟩
  | cons name names ih =>
    by_cases hname : name.length < 2 ^ 32
    · rcases ih with ⟨hall, hok⟩ | ⟨⟨n, hn, hlong⟩, herr⟩
      · left
        refine ⟨List.forall_mem_cons.mpr ⟨hname, hall⟩, ?_⟩
        rw [writeNames, writeName, if_pos hname, hok]
        rfl
      · right
        refine ⟨⟨n, List.mem_cons_of_mem _ hn, hlong⟩, ?_⟩
        rw [writeNames, writeName, if_pos hname, herr]
        rfl
    · right
      refine ⟨⟨name, List.mem_cons_self, not_lt.mp hname⟩, ?_⟩
      rw [writeNames, writeName, if_neg hname]
      rfl

/-- Sorting loses no name. -/
theorem sortNames_perm (names : List Bytes) : (sortNames names).Perm names :=
  List.mergeSort_perm _ _

/-- Names that were sorted are sorted. -/
theorem sortNames_sorted (names : List Bytes) : (sortNames names).Pairwise (· ≤ ·) := by
  have h := @List.pairwise_mergeSort Bytes (fun a b => decide (a ≤ b))
    (fun a b c hab hbc => by simpa using (of_decide_eq_true hab).trans (of_decide_eq_true hbc))
    (fun a b => by simpa using le_total a b) names
  exact h.imp fun hab => of_decide_eq_true hab

/-! ## The merge -/

/-- The names that are left of the runs, and where they are: the first of each run in the heap, the
others in the run. -/
structure Merging (rest : List (List Bytes)) (runs : List Bytes) (heap : List HeapName) : Prop where
  inputs : runs = rest.map fun l => encodeNames l.tail
  firsts : ∀ name run, ⟨name, run⟩ ∈ heap ↔ ∃ l, rest[run]? = some (name :: l)
  nodup : heap.Nodup
  sorted : ∀ l ∈ rest, l.Pairwise (· ≤ ·)
  short : ∀ l ∈ rest, ∀ n ∈ l, n.length < 2 ^ 32

/-- Take the first name of one of some lists. -/
theorem flatten_perm_cons_set {rest : List (List Bytes)} {i : ℕ} {x : Bytes} {l : List Bytes}
    (h : rest[i]? = some (x :: l)) : rest.flatten.Perm (x :: (rest.set i l).flatten) := by
  induction rest generalizing i with
  | nil => simp at h
  | cons first rest ih =>
    cases i with
    | zero =>
      rw [List.getElem?_cons_zero] at h
      obtain rfl := Option.some.inj h
      simp
    | succ i =>
      rw [List.getElem?_cons_succ] at h
      rw [List.set_cons_succ, List.flatten_cons, List.flatten_cons]
      exact ((ih h).append_left first).trans List.perm_middle

variable {rest : List (List Bytes)} {runs : List Bytes} {heap heap' : List HeapName} {m : HeapName}

/-- What is taken from the heap is not greater than anything that is left. -/
theorem Merging.le (h : Merging rest runs heap) (hpop : pop heap = some (m, heap')) {n : Bytes}
    (hn : n ∈ rest.flatten) : m.name ≤ n := by
  obtain ⟨hperm, hle⟩ := pop_spec hpop
  obtain ⟨l, hl, hnl⟩ := List.mem_flatten.mp hn
  obtain ⟨run, hrun⟩ := List.getElem?_of_mem hl
  cases l with
  | nil => exact absurd hnl List.not_mem_nil
  | cons first l =>
    have hfirst : m.name ≤ first := by
      have hmem := hperm.mem_iff.mp ((h.firsts first run).mpr ⟨l, hrun⟩)
      rcases List.mem_cons.mp hmem with heq | hmem
      · rw [← heq]
      · exact hle _ hmem
    rcases List.mem_cons.mp hnl with rfl | hnl
    · exact hfirst
    · exact hfirst.trans ((List.pairwise_cons.mp (h.sorted _ hl)).1 n hnl)

/-- A name is taken from its run; what comes next in the run, if anything, goes to the heap. -/
theorem Merging.step (h : Merging rest runs heap) (hpop : pop heap = some (m, heap')) :
    ∃ l runs' heap'', rest[m.run]? = some (m.name :: l) ∧
      (SortedDirectory.merge runs heap).next = some (.ok m.name, .merge runs' heap'') ∧
      Merging (rest.set m.run l) runs' heap'' := by
  obtain ⟨hperm, -⟩ := pop_spec hpop
  obtain ⟨l, hl⟩ := (h.firsts m.name m.run).mp (hperm.mem_iff.mpr List.mem_cons_self)
  have hlt : m.run < rest.length := (List.getElem?_eq_some_iff.mp hl).1
  have hmem : m.name :: l ∈ rest := List.mem_of_getElem? hl
  have hnodup := List.nodup_cons.mp (hperm.nodup_iff.mp h.nodup)
  have hinput : runs.getD m.run [] = encodeNames l := by
    rw [h.inputs, List.getD_eq_getElem?_getD, List.getElem?_map, hl]
    rfl
  have hset : ∀ r, (rest.set m.run l)[r]? = if m.run = r then some l else rest[r]? := by
    intro r
    rw [List.getElem?_set]
    split_ifs <;> rfl
  -- The other runs keep their first names, and of this run none is left in the heap.
  have hkept :
      ∀ name run, ⟨name, run⟩ ∈ heap' ↔ m.run ≠ run ∧ ∃ l, rest[run]? = some (name :: l) := by
    intro name run
    have hiff := h.firsts name run
    rw [hperm.mem_iff, List.mem_cons] at hiff
    constructor
    · intro hin
      have hthere := hiff.mp (Or.inr hin)
      refine ⟨?_, hthere⟩
      rintro rfl
      obtain ⟨l', hl'⟩ := hthere
      rw [hl] at hl'
      obtain ⟨rfl, -⟩ := List.cons.inj (Option.some.inj hl')
      exact hnodup.1 hin
    · rintro ⟨hne, hthere⟩
      rcases hiff.mpr hthere with heq | hin
      · exact absurd (congrArg HeapName.run heq).symm hne
      · exact hin
  have hsorted : ∀ l' ∈ rest.set m.run l, l'.Pairwise (· ≤ ·) := by
    intro l' hl'
    rcases List.mem_or_eq_of_mem_set hl' with hl' | rfl
    · exact h.sorted l' hl'
    · exact (List.pairwise_cons.mp (h.sorted _ hmem)).2
  have hshort : ∀ l' ∈ rest.set m.run l, ∀ n ∈ l', n.length < 2 ^ 32 := by
    intro l' hl'
    rcases List.mem_or_eq_of_mem_set hl' with hl' | rfl
    · exact h.short l' hl'
    · exact fun n hn => h.short _ hmem n (List.mem_cons_of_mem _ hn)
  have hruns : ∀ input, input = encodeNames l.tail →
      runs.set m.run input = (rest.set m.run l).map fun l => encodeNames l.tail := by
    intro input hin
    rw [hin, h.inputs, List.map_set]
  cases l with
  | nil =>
    refine ⟨[], runs, heap', hl, ?_, ?_, ?_, hnodup.2, hsorted, hshort⟩
    · rw [SortedDirectory.next, hpop]
      simp only [hinput]
      rfl
    · have hsame : runs.set m.run [] = runs := by
        refine List.ext_getElem? fun r => ?_
        rw [List.getElem?_set]
        split_ifs with hr hlen
        · subst hr
          rw [h.inputs, List.getElem?_map, hl]
          rfl
        · rw [← hr, List.getElem?_eq_none_iff.mpr (not_lt.mp hlen)]
        · rfl
      rw [← hruns [] rfl, hsame]
    · intro name run
      rw [hkept, hset]
      split_ifs with hr
      · simp [hr]
      · simp [hr]
  | cons next l =>
    have hnext : next.length < 2 ^ 32 := h.short _ hmem next (by simp)
    have hread : readName (runs.getD m.run []) = .ok (some (next, encodeNames l)) := by
      rw [hinput, encodeNames, List.flatMap_cons, readName_encode hnext]
      rfl
    refine ⟨next :: l, runs.set m.run (encodeNames l), ⟨next, m.run⟩ :: heap', hl, ?_,
      hruns _ rfl, ?_, ?_, hsorted, hshort⟩
    · rw [SortedDirectory.next, hpop]
      simp only [hread]
    · intro name run
      rw [List.mem_cons, hkept, hset]
      split_ifs with hr
      · subst hr
        simp [eq_comm]
      · have hne : (⟨name, run⟩ : HeapName) ≠ ⟨next, m.run⟩ := fun heq =>
          hr (congrArg HeapName.run heq).symm
        simp [hr, hne]
    · exact List.nodup_cons.mpr ⟨fun hin => ((hkept _ _).mp hin).1 rfl, hnodup.2⟩

/-- **The merge of sorted runs** gives all their names, in order. -/
theorem drain_merge (h : Merging rest runs heap) {fuel : ℕ} (hfuel : rest.flatten.length < fuel) :
    ∃ out : List Bytes, (SortedDirectory.merge runs heap).drain fuel = some (out.map .ok) ∧
      out.Perm rest.flatten ∧ out.Pairwise (· ≤ ·) := by
  induction fuel generalizing rest runs heap with
  | zero => exact absurd hfuel (Nat.not_lt_zero _)
  | succ fuel ih =>
    cases hpop : pop heap with
    | none =>
      have hnil : rest.flatten = [] := by
        rw [List.flatten_eq_nil_iff]
        intro l hl
        obtain ⟨run, hrun⟩ := List.getElem?_of_mem hl
        cases l with
        | nil => rfl
        | cons first l =>
          have hin := (h.firsts first run).mpr ⟨l, hrun⟩
          rw [pop_eq_none hpop] at hin
          exact absurd hin List.not_mem_nil
      refine ⟨[], ?_, by rw [hnil], .nil⟩
      rw [SortedDirectory.drain, SortedDirectory.next, hpop]
      rfl
    | some p =>
      obtain ⟨m, heap'⟩ := p
      obtain ⟨l, runs', heap'', hl, hnext, hstep⟩ := h.step hpop
      have hperm := flatten_perm_cons_set hl
      have hlen := hperm.length_eq
      rw [List.length_cons] at hlen
      obtain ⟨out, hout, houtPerm, hsorted⟩ := ih hstep (by omega)
      refine ⟨m.name :: out, ?_, (houtPerm.cons m.name).trans hperm.symm, ?_⟩
      · rw [SortedDirectory.drain, hnext]
        simp only [hout]
        rfl
      · refine List.pairwise_cons.mpr ⟨fun n hn => ?_, hsorted⟩
        exact h.le hpop (hperm.mem_iff.mpr (List.mem_cons_of_mem _ (houtPerm.mem_iff.mp hn)))

/-! ## Opening -/

/-- The entries are parted into runs and what is left, or one of them is too long. -/
theorem readEntries_cases (perRun : ℕ) (entries names runs : List Bytes) :
    (∃ (names' : List Bytes) (parts : List (List Bytes)), readEntries perRun entries names runs =
        .ok (names', runs ++ parts.map fun part => encodeNames (sortNames part)) ∧
      (parts.flatten ++ names').Perm (names ++ entries) ∧
      ∀ part ∈ parts, ∀ n ∈ part, n.length < 2 ^ 32) ∨
    ((∃ n ∈ names ++ entries, 2 ^ 32 ≤ n.length) ∧
      readEntries perRun entries names runs = .error .filenameTooLong) := by
  induction entries generalizing names runs with
  | nil => exact Or.inl ⟨names, [], by simp [readEntries], by simp, by simp⟩
  | cons entry entries ih =>
    rw [readEntries]
    have happend : names ++ entry :: entries = (names ++ [entry]) ++ entries := by simp
    split_ifs with hfull
    · rcases writeNames_cases (sortNames (names ++ [entry])) with ⟨hshort, hwrite⟩ |
        ⟨⟨n, hn, hlong⟩, hwrite⟩
      · have hrun :
            spillRun (names ++ [entry]) = .ok (encodeNames (sortNames (names ++ [entry]))) :=
          hwrite
        rw [hrun]
        rcases ih [] (runs ++ [encodeNames (sortNames (names ++ [entry]))]) with
          ⟨names', parts, hread, hperm, hparts⟩ | ⟨⟨n, hn, hlong⟩, hread⟩
        · left
          refine ⟨names', (names ++ [entry]) :: parts, ?_, ?_, ?_⟩
          · simp only [bind, Except.bind, hread]
            simp
          · rw [List.nil_append] at hperm
            rw [happend, List.flatten_cons, List.append_assoc]
            exact hperm.append_left _
          · refine List.forall_mem_cons.mpr ⟨fun n hn => ?_, hparts⟩
            exact hshort n ((sortNames_perm _).mem_iff.mpr hn)
        · right
          refine ⟨⟨n, ?_, hlong⟩, ?_⟩
          · rw [happend]
            exact List.mem_append_right _ (by simpa using hn)
          · simp only [bind, Except.bind, hread]
      · right
        have hrun : spillRun (names ++ [entry]) = .error .filenameTooLong := hwrite
        rw [hrun]
        refine ⟨⟨n, ?_, hlong⟩, rfl⟩
        rw [happend]
        exact List.mem_append_left _ ((sortNames_perm _).mem_iff.mp hn)
    · have hrest := ih (names ++ [entry]) runs
      rw [← happend] at hrest
      exact hrest

/-- The heap gets the first name of each run. -/
theorem fillHeap_encode (run : ℕ) {parts : List (List Bytes)}
    (hshort : ∀ part ∈ parts, ∀ n ∈ part, n.length < 2 ^ 32) :
    ∃ heap, fillHeap run (parts.map encodeNames) =
        .ok (parts.map fun part => encodeNames part.tail, heap) ∧
      (∀ name r, ⟨name, r⟩ ∈ heap ↔ ∃ i l, r = run + i ∧ parts[i]? = some (name :: l)) ∧
      heap.Nodup := by
  induction parts generalizing run with
  | nil => exact ⟨[], rfl, by simp, .nil⟩
  | cons part parts ih =>
    obtain ⟨hpart, hparts⟩ := List.forall_mem_cons.mp hshort
    obtain ⟨heap, hfill, hheap, hnodup⟩ := ih (run + 1) hparts
    have hlater : ∀ name r, (∃ i l, r = run + i ∧ (part :: parts)[i]? = some (name :: l)) ↔
        (r = run ∧ ∃ l, part = name :: l) ∨ ⟨name, r⟩ ∈ heap := by
      intro name r
      rw [hheap]
      constructor
      · rintro ⟨i, l, rfl, hi⟩
        cases i with
        | zero => exact Or.inl ⟨rfl, l, Option.some.inj hi⟩
        | succ i => exact Or.inr ⟨i, l, by omega, hi⟩
      · rintro (⟨rfl, l, rfl⟩ | ⟨i, l, rfl, hi⟩)
        · exact ⟨0, l, rfl, rfl⟩
        · exact ⟨i + 1, l, by omega, hi⟩
    cases part with
    | nil =>
      refine ⟨heap, ?_, ?_, hnodup⟩
      · rw [List.map_cons, fillHeap, hfill]
        rfl
      · intro name r
        rw [hlater]
        simp
    | cons first part =>
      have hread :
          readName (encodeNames (first :: part)) = .ok (some (first, encodeNames part)) := by
        rw [encodeNames, List.flatMap_cons, readName_encode (hpart first List.mem_cons_self)]
        rfl
      refine ⟨⟨first, run⟩ :: heap, ?_, ?_, ?_⟩
      · rw [List.map_cons, fillHeap, hread, hfill]
        rfl
      · intro name r
        rw [hlater, List.mem_cons]
        simp only [HeapName.mk.injEq, List.cons.injEq]
        constructor
        · rintro (⟨rfl, rfl⟩ | hin)
          · exact Or.inl ⟨rfl, part, rfl, rfl⟩
          · exact Or.inr hin
        · rintro (⟨rfl, l, rfl, -⟩ | hin)
          · exact Or.inl ⟨rfl, rfl⟩
          · exact Or.inr hin
      · refine List.nodup_cons.mpr ⟨fun hin => ?_, hnodup⟩
        obtain ⟨i, l, hi, -⟩ := (hheap first run).mp hin
        omega

/-- Runs that were spilled are merged. -/
theorem merging_of_spilled {parts : List (List Bytes)}
    (hshort : ∀ part ∈ parts, ∀ n ∈ part, n.length < 2 ^ 32) :
    ∃ runs heap, fillHeap 0 (parts.map fun part => encodeNames (sortNames part)) = .ok
      (runs, heap) ∧
      Merging (parts.map sortNames) runs heap := by
  have hshort' : ∀ part ∈ parts.map sortNames, ∀ n ∈ part, n.length < 2 ^ 32 := by
    intro part hpart n hn
    obtain ⟨names, hnames, rfl⟩ := List.mem_map.mp hpart
    exact hshort names hnames n ((sortNames_perm names).mem_iff.mp hn)
  obtain ⟨heap, hfill, hheap, hnodup⟩ := fillHeap_encode 0 hshort'
  rw [List.map_map] at hfill
  refine ⟨_, heap, hfill, rfl, ?_, hnodup, ?_, hshort'⟩
  · intro name run
    rw [hheap]
    simp
  · intro part hpart
    obtain ⟨names, -, rfl⟩ := List.mem_map.mp hpart
    exact sortNames_sorted names

/-- Sorting each run loses no name. -/
theorem flatten_map_sortNames_perm (parts : List (List Bytes)) :
    (parts.map sortNames).flatten.Perm parts.flatten := by
  induction parts with
  | nil => exact .nil
  | cons part parts ih => exact (sortNames_perm part).append ih

/-- Names in memory are given one after the other. -/
theorem drain_memory (names : List Bytes) {fuel : ℕ} (h : names.length < fuel) :
    (SortedDirectory.memory names).drain fuel = some (names.map .ok) := by
  induction names generalizing fuel with
  | nil =>
    obtain ⟨fuel, rfl⟩ := Nat.exists_eq_succ_of_ne_zero (by omega : fuel ≠ 0)
    rfl
  | cons name names ih =>
    obtain ⟨fuel, rfl⟩ := Nat.exists_eq_succ_of_ne_zero (by omega : fuel ≠ 0)
    rw [List.length_cons] at h
    rw [SortedDirectory.drain, SortedDirectory.next]
    simp only [ih (by omega : names.length < fuel)]
    rfl

/-- Sorted lists of the same names are the same, and distinct names increase. -/
theorem eq_sortNames {out names : List Bytes} (hnodup : names.Nodup) (hperm : out.Perm names)
    (hsorted : out.Pairwise (· ≤ ·)) : out = sortNames names ∧ out.Pairwise (· < ·) := by
  constructor
  · exact (hperm.trans (sortNames_perm names).symm).eq_of_pairwise
      (fun a b _ _ hab hba => le_antisymm hab hba) hsorted (sortNames_sorted names)
  · have hdistinct : out.Pairwise (· ≠ ·) := hperm.nodup_iff.mpr hnodup
    exact hsorted.imp₂ (fun a b hle hne => lt_of_le_of_ne hle hne) hdistinct

/-- **Directories are read exactly**, whatever the length of the runs: each of the distinct names is
given once, in increasing order, as by sorting them all in memory; unless a name is spilled that is
too long. -/
theorem openDirectory_exact (perRun : ℕ) (names : List Bytes) (hnodup : names.Nodup) :
    (∃ d out, openDirectory perRun names = .ok d ∧
      d.drain (names.length + 1) = some (out.map .ok) ∧ out = sortNames names ∧ out.Perm names ∧
      out.Pairwise (· < ·)) ∨
    (openDirectory perRun names = .error .filenameTooLong ∧ ∃ n ∈ names, 2 ^ 32 ≤ n.length) := by
  -- What is merged from parts of the names is their sorted list.
  have hmerge : ∀ parts : List (List Bytes), parts.flatten.Perm names →
      (∀ part ∈ parts, ∀ n ∈ part, n.length < 2 ^ 32) →
      ∃ runs heap, fillHeap 0 (parts.map fun part => encodeNames (sortNames part)) =
        .ok (runs, heap) ∧ ∃ out :
            List Bytes,
              (SortedDirectory.merge runs heap).drain (names.length + 1) = some (out.map .ok) ∧
              out = sortNames names ∧ out.Perm names ∧ out.Pairwise (· < ·) := by
    intro parts hparts hshort
    obtain ⟨runs, heap, hfill, hmerging⟩ := merging_of_spilled hshort
    have hperm := (flatten_map_sortNames_perm parts).trans hparts
    have hlen : (parts.map sortNames).flatten.length < names.length + 1 := by
      rw [hperm.length_eq]
      omega
    obtain ⟨out, hdrain, hout, hsorted⟩ := drain_merge hmerging hlen
    have houtNames := hout.trans hperm
    obtain ⟨heq, hlt⟩ := eq_sortNames hnodup houtNames hsorted
    exact ⟨runs, heap, hfill, out, hdrain, heq, houtNames, hlt⟩
  rcases readEntries_cases perRun names [] [] with
    ⟨left, parts, hread, hperm, hshort⟩ | ⟨hlong, hread⟩
  · rw [List.nil_append] at hread hperm
    unfold openDirectory
    rw [hread]
    simp only [bind, Except.bind]
    by_cases hparts : parts = []
    · left
      subst hparts
      have hleft : left.Perm names := by simpa using hperm
      have houtNames := (sortNames_perm left).trans hleft
      obtain ⟨heq, hlt⟩ := eq_sortNames hnodup houtNames (sortNames_sorted left)
      refine ⟨.memory (sortNames left), sortNames left, rfl, ?_, heq, houtNames, hlt⟩
      exact drain_memory _ (by rw [houtNames.length_eq]; omega)
    · rw [if_neg (by simpa using hparts)]
      by_cases hleft : left = []
      · left
        subst hleft
        obtain ⟨runs, heap, hfill, out, hout⟩ := hmerge parts (by simpa using hperm) hshort
        refine ⟨.merge runs heap, out, ?_, hout⟩
        rw [if_pos List.isEmpty_nil]
        simp only [hfill]
      · rw [if_neg (by simpa using hleft)]
        rcases writeNames_cases (sortNames left) with ⟨hall, hwrite⟩ | ⟨⟨n, hn, hlong⟩, hwrite⟩
        · left
          have hrun : spillRun left = .ok (encodeNames (sortNames left)) := hwrite
          have hshort' : ∀ part ∈ parts ++ [left], ∀ n ∈ part, n.length < 2 ^ 32 := by
            intro part hpart
            rcases List.mem_append.mp hpart with hpart | hpart
            · exact hshort part hpart
            · rw [List.mem_singleton.mp hpart]
              exact fun n hn => hall n ((sortNames_perm left).mem_iff.mpr hn)
          obtain ⟨runs, heap, hfill, out, hout⟩ :=
            hmerge (parts ++ [left]) (by simpa using hperm) hshort'
          rw [List.map_append, List.map_singleton] at hfill
          refine ⟨.merge runs heap, out, ?_, hout⟩
          simp only [hrun, hfill]
        · right
          have hrun : spillRun left = .error .filenameTooLong := hwrite
          refine ⟨by simp only [hrun], n, ?_, hlong⟩
          exact hperm.mem_iff.mp (List.mem_append_right _ ((sortNames_perm left).mem_iff.mp hn))
  · right
    refine ⟨?_, by simpa using hlong⟩
    unfold openDirectory
    rw [hread]
    rfl

/-- Five names, in the order of a directory. -/
def fiveNames : List Bytes := [[98], [97, 97], [], [97], [99]]

/-- They are read in order from runs of two. -/
theorem openDirectory_exact_five : ∃ d, openDirectory 2 fiveNames = .ok d ∧
    d.drain 6 = some ([[], [97], [97, 97], [98], [99]].map .ok) := by
  rcases openDirectory_exact 2 fiveNames (by decide) with
    ⟨d, out, hopen, hdrain, heq, -⟩ | ⟨-, n, hn, hlong⟩
  · refine ⟨d, hopen, ?_⟩
    have hsorted : [[], [97], [97, 97], [98], [99]] = sortNames fiveNames :=
      (eq_sortNames (by decide) (by decide) (by decide)).1
    rw [hsorted, ← heq]
    exact hdrain
  · have hshort : ∀ n ∈ fiveNames, n.length < 2 ^ 32 := by decide
    exact absurd (hshort n hn) (not_lt.mpr hlong)

end SortedDir

end Furrow
