import Mathlib
import Furrow.Model

set_option relaxedAutoImplicit false
set_option autoImplicit false

/-!
# Cutting a file into chunks

`chunker.rs`: a file is read in blocks and cut where a rolling hash of its bytes has enough zero
bits, never before `MIN_CHUNK` bytes and never after `MAX_CHUNK`.  The stream keeps what a block
still holds from one chunk to the next, so a chunk may begin and end anywhere in a block.

What a stream has still to deliver is one byte string: the rest of its block and what its reader
holds.  The chunk it delivers next is a function of that string alone, and so the chunks do not
depend on how the bytes arrive.

## Main definitions

* `Furrow.gear`, `Furrow.roll`, `Furrow.boundary` — the hash and the test for a cut.
* `Furrow.ByteReader`, `Furrow.ChunkStream` — a reader and the stream over it.
* `Furrow.ChunkStream.nextChunk`, `Furrow.ChunkStream.drain` — one chunk, and all of them.
* `Furrow.takeChunk` — the first chunk of a byte string.

## Main results

* `Furrow.ChunkStream.nextChunk_spec` — a stream delivers the first chunk of what it has to.
* `Furrow.drain_lossless` — chunks are lossless, bounded and independent of reads.
-/

namespace Furrow

/-- The constants of `chunker.rs`. -/
def MIN_CHUNK : ℕ := 64 * 1024

/-- The length from which a chunk is cut more readily. -/
@[inherit_doc MIN_CHUNK]
def AVG_CHUNK : ℕ := 256 * 1024

/-- The greatest length of a chunk. -/
@[inherit_doc MIN_CHUNK]
def MAX_CHUNK : ℕ := 1024 * 1024

/-- The length of the buffer. -/
@[inherit_doc MIN_CHUNK]
def READ_BUFFER : ℕ := 64 * 1024

/-! ### The rolling hash -/

/-- One turn of the generator in `gear_table`. -/
def gearState (state : UInt64) : UInt64 :=
  let state := state ^^^ (state >>> 12)
  let state := state ^^^ (state <<< 25)
  state ^^^ (state >>> 27)

/-- The loop of `gear_table`, with the entries still to be filled. -/
def gearEntries : ℕ → UInt64 → List UInt64
  | 0, _ => []
  | n + 1, state => gearState state * 0x2545f4914f6cdd1d :: gearEntries n (gearState state)

/-- `gear_table`. -/
def gearTable : List UInt64 := gearEntries 256 0x9e3779b97f4a7c15

/-- The table has an entry for each byte. -/
theorem gearEntries_length (n : ℕ) (state : UInt64) : (gearEntries n state).length = n := by
  induction n generalizing state with
  | zero => rfl
  | succ n ih => simp [gearEntries, ih]

/-- `GEAR[value as usize]`. -/
def gear (value : Byte) : UInt64 :=
  gearTable.get ⟨value, by rw [gearTable, gearEntries_length]; exact value.isLt⟩

/-- `rotate_left(1)`. -/
def rotateLeft (hash : UInt64) : UInt64 := (hash <<< 1) ||| (hash >>> 63)

/-- The hash after one more byte. -/
def roll (hash : UInt64) (value : Byte) : UInt64 := rotateLeft hash + gear value

/-- The masks of `next_chunk`. -/
def earlyMask : UInt64 := UInt64.ofNat (AVG_CHUNK * 2) - 1

/-- The mask of a chunk of average length. -/
@[inherit_doc earlyMask]
def lateMask : UInt64 := UInt64.ofNat (AVG_CHUNK / 2) - 1

/-- Whether a chunk that has come to `len` bytes is cut there. -/
def boundary (len : ℕ) (hash : UInt64) : Bool :=
  if len < MIN_CHUNK then false
  else if len < AVG_CHUNK then hash &&& earlyMask == 0
  else hash &&& lateMask == 0

/-! ### The stream -/

/-- A reader: what its calls of `read` are going to give.  A call gives no more than the buffer
takes, and leaves the rest for the next one; when nothing is left it gives no bytes. -/
abbrev ByteReader (ε : Type) := List (Except ε Bytes)

/-- `Read::read` with a buffer of a given length. -/
def ByteReader.read {ε : Type} (capacity : ℕ) : ByteReader ε → Except ε Bytes × ByteReader ε
  | [] => (.ok [], [])
  | .error e :: rest => (.error e, rest)
  | .ok data :: rest =>
    (.ok (data.take capacity),
      if data.length ≤ capacity then rest else .ok (data.drop capacity) :: rest)

/-- `ChunkStream`: a block of the reader's bytes, of which those from `position` to `filled` have
not been delivered. -/
structure ChunkStream (ε : Type) where
  reader : ByteReader ε
  buffer : Bytes
  position : ℕ
  filled : ℕ
  eof : Bool
  position_le : position ≤ filled
  filled_le : filled ≤ buffer.length

namespace ChunkStream

variable {ε : Type}

/-- `ChunkStream::new`. -/
def new (reader : ByteReader ε) : ChunkStream ε where
  reader := reader
  buffer := List.replicate READ_BUFFER 0
  position := 0
  filled := 0
  eof := false
  position_le := le_rfl
  filled_le := Nat.zero_le _

/-- The bytes of the block that have not been delivered. -/
def block (s : ChunkStream ε) : Bytes := (s.buffer.take s.filled).drop s.position

/-- The bytes that are buffered and not taken. -/
theorem block_length (s : ChunkStream ε) : s.block.length = s.filled - s.position := by
  simp [block, s.filled_le]

/-- `self.position += n`. -/
def advance (s : ChunkStream ε) (n : ℕ) (h : n ≤ s.filled - s.position) : ChunkStream ε :=
  { s with
    position := s.position + n
    position_le := by
      have := s.position_le
      omega }

/-- `self.filled = self.reader.read(&mut self.buffer)?; self.position = 0`, with `self.eof` set
when nothing was read. -/
def refill (s : ChunkStream ε) : Except ε Unit × ChunkStream ε :=
  match ByteReader.read s.buffer.length s.reader with
  | (.error e, reader) => (.error e, { s with reader := reader })
  | (.ok data, reader) =>
    (.ok (), {
      reader := reader
      buffer := data ++ s.buffer.drop data.length
      position := 0
      filled := data.length
      eof := s.eof || data.isEmpty
      position_le := Nat.zero_le _
      filled_le := by simp })

end ChunkStream

/-- The loop over the bytes that were taken from the block: the chunk and how many of the bytes
are in it if the chunk is cut, and otherwise the chunk and its hash. -/
def scanBlock : Bytes → Bytes → UInt64 → ℕ → (Bytes × ℕ) ⊕ (Bytes × UInt64)
  | [], out, hash, _ => .inr (out, hash)
  | value :: taken, out, hash, offset =>
    let out := out ++ [value]
    let hash := roll hash value
    if boundary out.length hash then .inl (out, offset + 1)
    else scanBlock taken out hash (offset + 1)

/-- Bytes among which there is no cut are all in the chunk. -/
theorem length_of_scanBlock_inr {taken out out' : Bytes} {hash hash' : UInt64} {offset : ℕ}
    (h : scanBlock taken out hash offset = .inr (out', hash')) :
    out'.length = out.length + taken.length := by
  induction taken generalizing out hash offset with
  | nil =>
    simp only [scanBlock, Sum.inr.injEq, Prod.mk.injEq] at h
    simp [← h.1]
  | cons value taken ih =>
    simp only [scanBlock] at h
    split at h
    · cases h
    · rw [ih h]
      simp only [List.length_append, List.length_cons, List.length_nil]
      omega

/-- A cut is after one of the bytes. -/
theorem le_of_scanBlock_inl {taken out out' : Bytes} {hash : UInt64} {offset n : ℕ}
    (h : scanBlock taken out hash offset = .inl (out', n)) : n ≤ offset + taken.length := by
  induction taken generalizing out hash offset with
  | nil => cases h
  | cons value taken ih =>
    simp only [scanBlock] at h
    simp only [List.length_cons]
    split at h
    · simp only [Sum.inl.injEq, Prod.mk.injEq] at h
      omega
    · have := ih h
      omega

namespace ChunkStream

variable {ε : Type}

/-- A block is read when nothing is left of the last one. -/
def ready (s : ChunkStream ε) : Except ε Unit × ChunkStream ε :=
  if s.position = s.filled then s.refill else (.ok (), s)

/-- A block that is not empty has a byte to deliver. -/
theorem position_lt_of_ready {s s' : ChunkStream ε} (h : s.ready = (.ok (), s'))
    (hfilled : s'.filled ≠ 0) : s'.position < s'.filled := by
  unfold ready at h
  split at h
  · unfold refill at h
    split at h
    · cases h
    · simp only [Prod.mk.injEq, true_and] at h
      subst h
      exact Nat.pos_of_ne_zero hfilled
  · next hne =>
    simp only [Prod.mk.injEq, true_and] at h
    subst h
    exact lt_of_le_of_ne s.position_le hne

/-- How many bytes of the block are looked at for a chunk of `len` bytes. -/
def take (s : ChunkStream ε) (len : ℕ) : ℕ := min (s.filled - s.position) (MAX_CHUNK - len)

/-- No more is taken than there is. -/
theorem take_le (s : ChunkStream ε) (len : ℕ) : s.take len ≤ s.filled - s.position :=
  min_le_left _ _

/-- What is taken is there. -/
theorem length_take_block (s : ChunkStream ε) (len : ℕ) :
    (s.block.take (s.take len)).length = s.take len := by
  rw [List.length_take, block_length]
  exact min_eq_left (s.take_le len)

/-- The loop of `next_chunk`, with the chunk and its hash so far. -/
def nextChunkLoop (s : ChunkStream ε) (out : Bytes) (hash : UInt64) :
    Except ε (Option Bytes) × ChunkStream ε :=
  let finish (s : ChunkStream ε) : Except ε (Option Bytes) × ChunkStream ε :=
    (.ok (if out.isEmpty then none else some out), s)
  if hout : out.length < MAX_CHUNK then
    match hready : s.ready with
    | (.error e, s) => (.error e, s)
    | (.ok (), s) =>
      if hfilled : s.filled = 0 then finish s
      else
        match hscan : scanBlock (s.block.take (s.take out.length)) out hash 0 with
        | .inl (out', n) =>
          (.ok (some out'), s.advance n (by
            have := le_of_scanBlock_inl hscan
            rw [length_take_block] at this
            have := s.take_le out.length
            omega))
        | .inr (out', hash) =>
          nextChunkLoop (s.advance (s.take out.length) (s.take_le _)) out' hash
  else finish s
termination_by MAX_CHUNK - out.length
decreasing_by
  have h₁ := position_lt_of_ready hready hfilled
  have h₂ := length_of_scanBlock_inr hscan
  rw [length_take_block, take] at h₂
  omega

/-- `ChunkStream::next_chunk`. -/
def nextChunk (s : ChunkStream ε) : Except ε (Option Bytes) × ChunkStream ε :=
  if s.eof then (.ok none, s) else s.nextChunkLoop [] 0

/-- `while let Some(chunk) = stream.next_chunk()?`, for at most `fuel` calls: the chunks, if the
stream came to its end. -/
def drain : ℕ → ChunkStream ε → Except ε (Option (List Bytes))
  | 0, _ => .ok none
  | fuel + 1, s =>
    match s.nextChunk with
    | (.error e, _) => .error e
    | (.ok none, _) => .ok (some [])
    | (.ok (some chunk), s) => (drain fuel s).map fun rest => rest.map (chunk :: ·)

end ChunkStream

/-! ### The first chunk of a byte string -/

/-- The first chunk of a byte string and what follows it, when the bytes of `out` are in the chunk
already. -/
def takeChunk : Bytes → Bytes → UInt64 → Bytes × Bytes
  | [], out, _ => (out, [])
  | value :: rest, out, hash =>
    if out.length < MAX_CHUNK then
      let out := out ++ [value]
      let hash := roll hash value
      if boundary out.length hash then (out, rest) else takeChunk rest out hash
    else (out, value :: rest)

/-- A full chunk takes nothing more. -/
theorem takeChunk_full {out : Bytes} (h : ¬ out.length < MAX_CHUNK) (rest : Bytes) (hash : UInt64) :
    takeChunk rest out hash = (out, rest) := by
  cases rest with
  | nil => rfl
  | cons value rest => rw [takeChunk, if_neg h]

/-- A cut found in the block is the cut of the byte string. -/
theorem takeChunk_of_scanBlock_inl (more : Bytes) {taken out out' : Bytes} {hash : UInt64}
    {offset n : ℕ} (hmax : out.length + taken.length ≤ MAX_CHUNK)
    (h : scanBlock taken out hash offset = .inl (out', n)) :
    takeChunk (taken ++ more) out hash = (out', taken.drop (n - offset) ++ more) ∧
      out' ≠ [] ∧ offset < n := by
  induction taken generalizing out hash offset with
  | nil => cases h
  | cons value taken ih =>
    rw [List.length_cons] at hmax
    have hlt : out.length < MAX_CHUNK := by omega
    simp only [scanBlock] at h
    rw [List.cons_append, takeChunk, if_pos hlt]
    split at h
    · next hcut =>
      simp only [Sum.inl.injEq, Prod.mk.injEq] at h
      obtain ⟨rfl, rfl⟩ := h
      simp only [hcut, if_true]
      refine ⟨?_, by simp, by omega⟩
      rw [show offset + 1 - offset = 1 by omega, List.drop_one, List.tail_cons]
    · next hcut =>
      have hlen : (out ++ [value]).length + taken.length ≤ MAX_CHUNK := by
        simp only [List.length_append, List.length_cons, List.length_nil]
        omega
      obtain ⟨h₁, h₂, h₃⟩ := ih hlen h
      simp only [hcut, Bool.false_eq_true, if_false]
      refine ⟨?_, h₂, by omega⟩
      rw [h₁, show n - offset = n - (offset + 1) + 1 by omega, List.drop_succ_cons]

/-- Bytes of the block without a cut are passed over. -/
theorem takeChunk_of_scanBlock_inr (more : Bytes) {taken out out' : Bytes}
    {hash hash' : UInt64} {offset : ℕ}
    (hmax : out.length + taken.length ≤ MAX_CHUNK)
    (h : scanBlock taken out hash offset = .inr (out', hash')) :
    takeChunk (taken ++ more) out hash = takeChunk more out' hash' := by
  induction taken generalizing out hash offset with
  | nil =>
    simp only [scanBlock, Sum.inr.injEq, Prod.mk.injEq] at h
    rw [h.1, h.2, List.nil_append]
  | cons value taken ih =>
    rw [List.length_cons] at hmax
    have hlt : out.length < MAX_CHUNK := by omega
    simp only [scanBlock] at h
    split at h
    · cases h
    · next hcut =>
      have hlen : (out ++ [value]).length + taken.length ≤ MAX_CHUNK := by
        simp only [List.length_append, List.length_cons, List.length_nil]
        omega
      rw [List.cons_append, takeChunk, if_pos hlt]
      simp only [hcut, Bool.false_eq_true, if_false]
      exact ih hlen h

/-- The chunk and the rest are the byte string. -/
theorem takeChunk_append (rest out : Bytes) (hash : UInt64) :
    (takeChunk rest out hash).1 ++ (takeChunk rest out hash).2 = out ++ rest := by
  induction rest generalizing out hash with
  | nil => rfl
  | cons value rest ih =>
    simp only [takeChunk]
    split_ifs
    · simp
    · rw [ih]
      simp
    · rfl

/-- A chunk is at most `MAX_CHUNK` long. -/
theorem takeChunk_length_le (rest out : Bytes) (hash : UInt64) (h : out.length ≤ MAX_CHUNK) :
    (takeChunk rest out hash).1.length ≤ MAX_CHUNK := by
  induction rest generalizing out hash with
  | nil => exact h
  | cons value rest ih =>
    have hstep : out.length < MAX_CHUNK → (out ++ [value]).length ≤ MAX_CHUNK := by
      intro hlt
      simp only [List.length_append, List.length_cons, List.length_nil]
      omega
    simp only [takeChunk]
    split_ifs with hlt hcut
    · exact hstep hlt
    · exact ih _ _ (hstep hlt)
    · exact h

/-- Nothing is cut below `MIN_CHUNK`. -/
theorem min_le_of_boundary {len : ℕ} {hash : UInt64} (h : boundary len hash = true) :
    MIN_CHUNK ≤ len := by
  unfold boundary at h
  split at h
  · cases h
  · next hmin => exact not_lt.mp hmin

/-- A chunk can be long enough and not too long. -/
theorem min_le_max : MIN_CHUNK ≤ MAX_CHUNK := by decide

/-- A chunk that is followed by more is at least `MIN_CHUNK` long. -/
theorem le_takeChunk_length (rest out : Bytes) (hash : UInt64)
    (h : (takeChunk rest out hash).2 ≠ []) : MIN_CHUNK ≤ (takeChunk rest out hash).1.length := by
  induction rest generalizing out hash with
  | nil => exact absurd rfl h
  | cons value rest ih =>
    simp only [takeChunk] at h ⊢
    split_ifs at h ⊢ with hlt hcut
    · exact min_le_of_boundary hcut
    · exact ih _ _ h
    · exact min_le_max.trans (not_lt.mp hlt)

/-- The first chunk of a byte string has its first byte. -/
theorem takeChunk_ne_nil (rest : Bytes) (hash : UInt64) (h : rest ≠ []) :
    (takeChunk rest [] hash).1 ≠ [] := by
  intro hnil
  by_cases hrest : (takeChunk rest [] hash).2 = []
  · have := takeChunk_append rest [] hash
    rw [hnil, hrest] at this
    exact h this.symm
  · have := le_takeChunk_length rest [] hash hrest
    rw [hnil] at this
    exact absurd this (by decide)

/-! ### What a stream has still to deliver -/

section Delivery

variable {ε : Type}

/-- A reader that gives these bytes in some non-empty reads. -/
def ByteReader.Holds (reader : ByteReader ε) (rest : Bytes) : Prop :=
  ∃ pieces : List Bytes, reader = pieces.map .ok ∧ (∀ p ∈ pieces, p ≠ []) ∧ pieces.flatten = rest

/-- A read gives the first of the bytes, and none only at their end. -/
theorem ByteReader.Holds.read {reader : ByteReader ε} {rest : Bytes} (h : reader.Holds rest)
    {capacity : ℕ} (hpos : 0 < capacity) :
    ∃ data reader' rest', ByteReader.read capacity reader = (.ok data, reader') ∧
      ByteReader.Holds reader' rest' ∧ rest = data ++ rest' ∧ (data = [] → rest = []) := by
  obtain ⟨pieces, rfl, hne, rfl⟩ := h
  cases pieces with
  | nil => exact ⟨[], [], [], rfl, ⟨[], rfl, by simp, rfl⟩, rfl, fun _ => rfl⟩
  | cons piece pieces =>
    have hpiece : piece ≠ [] := hne piece List.mem_cons_self
    have htail : ∀ p ∈ pieces, p ≠ [] := fun p hp => hne p (List.mem_cons_of_mem _ hp)
    have hdata : piece.take capacity ≠ [] := by
      rw [Ne, List.take_eq_nil_iff]
      rintro (hzero | hnil)
      · omega
      · exact hpiece hnil
    by_cases hfit : piece.length ≤ capacity
    · refine ⟨piece.take capacity, pieces.map .ok, pieces.flatten, ?_,
        ⟨pieces, rfl, htail, rfl⟩, ?_, fun h => absurd h hdata⟩
      · simp [ByteReader.read, hfit]
      · simp [List.take_of_length_le hfit]
    · refine ⟨piece.take capacity, .ok (piece.drop capacity) :: pieces.map .ok,
        piece.drop capacity ++ pieces.flatten, ?_, ⟨piece.drop capacity :: pieces, rfl, ?_, rfl⟩,
          ?_,
        fun h => absurd h hdata⟩
      · simp [ByteReader.read, hfit]
      · intro p hp
        rcases List.mem_cons.mp hp with rfl | hp
        · rw [Ne, List.drop_eq_nil_iff]
          exact hfit
        · exact htail p hp
      · rw [← List.append_assoc, List.take_append_drop, List.flatten_cons]

namespace ChunkStream

/-- The bytes a stream has still to deliver: those left in the block, and then the reader's. -/
structure Holds (s : ChunkStream ε) (rest : Bytes) : Prop where
  buffer : 0 < s.buffer.length
  bytes : ∃ more, ByteReader.Holds s.reader more ∧ rest = s.block ++ more
  eof : s.eof = true → rest = []

/-- A new stream delivers what its reader has. -/
theorem holds_new {reader : ByteReader ε} {input : Bytes} (h : reader.Holds input) :
    (new reader).Holds input where
  buffer := by
    rw [new, List.length_replicate]
    decide
  bytes := ⟨input, h, by simp [block, new]⟩
  eof h := by cases h

/-- Reading a block changes nothing of what is to be delivered, and an empty block means that
nothing is. -/
theorem Holds.ready {s : ChunkStream ε} {rest : Bytes} (h : s.Holds rest) :
    ∃ s', s.ready = (.ok (), s') ∧ s'.Holds rest ∧ (s'.filled = 0 → rest = []) := by
  obtain ⟨more, hmore, rfl⟩ := h.bytes
  unfold ChunkStream.ready
  split
  · next heq =>
    have hblock : s.block = [] := List.eq_nil_of_length_eq_zero (by rw [block_length]; omega)
    obtain ⟨data, reader', rest', hread, hholds, rfl, hnil⟩ := hmore.read h.buffer
    unfold refill
    simp only [hread]
    refine ⟨_, rfl, ⟨?_, ⟨rest', hholds, ?_⟩, ?_⟩, ?_⟩
    · have := h.buffer
      simp only [List.length_append, List.length_drop]
      omega
    · rw [hblock, List.nil_append]
      simp [block]
    · intro heof
      rcases Bool.or_eq_true _ _ ▸ heof with heof | heof
      · exact h.eof heof
      · rw [hblock, hnil (List.isEmpty_iff.mp heof), List.nil_append]
    · intro hzero
      rw [hblock, hnil (List.eq_nil_of_length_eq_zero hzero), List.nil_append]
  · next hne =>
    refine ⟨s, rfl, h, fun hzero => ?_⟩
    have := s.position_le
    omega

/-- Delivered bytes of the block are no longer held. -/
theorem Holds.advance {s : ChunkStream ε} {rest : Bytes} (h : s.Holds rest) {n : ℕ}
    (hn : n ≤ s.filled - s.position) :
    ∃ more, rest = s.block ++ more ∧ (s.advance n hn).Holds (s.block.drop n ++ more) := by
  obtain ⟨more, hmore, rfl⟩ := h.bytes
  refine ⟨more, rfl, h.buffer, ⟨more, hmore, ?_⟩, fun heof => ?_⟩
  · simp [block, ChunkStream.advance]
  · have hnil := List.append_eq_nil_iff.mp (h.eof heof)
    rw [hnil.1, hnil.2, List.drop_nil, List.nil_append]

/-- Bytes are cut at two places. -/
theorem drop_take_append_drop {l : Bytes} {n m : ℕ} (h : n ≤ m) :
    l.drop n = (l.take m).drop n ++ l.drop m := by
  have hlen : n - (l.take m).length = 0 ∨ l.drop m = [] := by
    rw [List.length_take, List.drop_eq_nil_iff]
    omega
  conv_lhs => rw [← List.take_append_drop m l]
  rw [List.drop_append]
  rcases hlen with h | h
  · rw [h, List.drop_zero]
  · rw [h, List.drop_nil]

/-- The loop goes on with the first chunk of what is to be delivered. -/
theorem nextChunkLoop_spec (s : ChunkStream ε) (out : Bytes) (hash : UInt64) {rest : Bytes}
    (h : s.Holds rest) :
    ∃ s', s.nextChunkLoop out hash =
        (.ok (if (takeChunk rest out hash).1.isEmpty then none
          else some (takeChunk rest out hash).1), s') ∧
      s'.Holds (takeChunk rest out hash).2 := by
  induction hm :
    MAX_CHUNK - out.length using Nat.strong_induction_on generalizing s out hash rest with
  | _ m ih =>
  by_cases hout : out.length < MAX_CHUNK
  · obtain ⟨s₁, hready, h₁, hzero⟩ := h.ready
    by_cases hfilled : s₁.filled = 0
    · refine ⟨s₁, ?_, ?_⟩
      · rw [nextChunkLoop]
        simp only [hout, dif_pos, hzero hfilled, takeChunk]
        split
        · next e s₂ heq => cases hready.symm.trans heq
        · next s₂ heq =>
          cases hready.symm.trans heq
          rw [dif_pos hfilled]
      · rw [hzero hfilled, takeChunk, ← hzero hfilled]
        exact h₁
    · have hlt := position_lt_of_ready hready hfilled
      have hmax : out.length + (s₁.block.take (s₁.take out.length)).length ≤ MAX_CHUNK := by
        rw [length_take_block, take]
        omega
      rw [nextChunkLoop]
      simp only [hout, dif_pos]
      split
      · next e s₂ heq => cases hready.symm.trans heq
      · next s₂ heq =>
        cases hready.symm.trans heq
        rw [dif_neg hfilled]
        split
        · next out' n hscan =>
          have hn : n ≤ s₁.take out.length := by
            have := le_of_scanBlock_inl hscan
            rw [length_take_block] at this
            omega
          obtain ⟨more, rfl, hadv⟩ := h₁.advance (hn.trans (s₁.take_le _))
          obtain ⟨hchunk, hne, -⟩ := takeChunk_of_scanBlock_inl
            (s₁.block.drop (s₁.take out.length) ++ more) hmax hscan
          rw [← List.append_assoc, List.take_append_drop, Nat.sub_zero,
            ← List.append_assoc, ← drop_take_append_drop hn] at hchunk
          rw [hchunk]
          refine ⟨_, ?_, hadv⟩
          rw [if_neg (by simpa using hne)]
        · next out' hash' hscan =>
          obtain ⟨more, rfl, hadv⟩ := h₁.advance (s₁.take_le out.length)
          have hchunk := takeChunk_of_scanBlock_inr
            (s₁.block.drop (s₁.take out.length) ++ more) hmax hscan
          rw [← List.append_assoc, List.take_append_drop] at hchunk
          rw [hchunk]
          have hlen := length_of_scanBlock_inr hscan
          rw [length_take_block, take] at hlen
          exact ih (MAX_CHUNK - out'.length) (by omega) _ out' hash' hadv rfl
  · refine ⟨s, ?_, ?_⟩
    · rw [nextChunkLoop, dif_neg hout, takeChunk_full hout]
    · rw [takeChunk_full hout]
      exact h

/-- `next_chunk` delivers the first chunk of what is to be delivered. -/
theorem nextChunk_spec {s : ChunkStream ε} {rest : Bytes} (h : s.Holds rest) :
    ∃ s', s.nextChunk =
        (.ok (if rest = [] then none else some (takeChunk rest [] 0).1), s') ∧
      s'.Holds (takeChunk rest [] 0).2 := by
  unfold nextChunk
  split
  · next heof =>
    refine ⟨s, by rw [if_pos (h.eof heof)], ?_⟩
    rw [h.eof heof, takeChunk, ← h.eof heof]
    exact h
  · obtain ⟨s', heq, hs'⟩ := nextChunkLoop_spec s [] 0 h
    refine ⟨s', ?_, hs'⟩
    rw [heq]
    by_cases hrest : rest = []
    · simp [hrest, takeChunk]
    · simp [hrest, takeChunk_ne_nil rest 0 hrest]

end ChunkStream

end Delivery

/-! ### All the chunks -/

/-- The chunks of a byte string. -/
def cutUp : ℕ → Bytes → List Bytes
  | 0, _ => []
  | n + 1, rest =>
    if rest = [] then [] else (takeChunk rest [] 0).1 :: cutUp n (takeChunk rest [] 0).2

/-- Each chunk makes what remains shorter. -/
theorem takeChunk_rest_length {rest : Bytes} (h : rest ≠ []) :
    (takeChunk rest [] 0).2.length < rest.length := by
  have happend := congrArg List.length (takeChunk_append rest [] 0)
  have hpos := List.length_pos_iff.mpr (takeChunk_ne_nil rest 0 h)
  simp only [List.length_append, List.length_nil] at happend
  omega

/-- The chunks are the byte string, cut up within the bounds. -/
theorem cutUp_spec (n : ℕ) (rest : Bytes) (h : rest.length ≤ n) :
    (cutUp n rest).flatten = rest ∧ (∀ c ∈ cutUp n rest, c.length ≤ MAX_CHUNK) ∧
      ∀ c ∈ (cutUp n rest).dropLast, MIN_CHUNK ≤ c.length := by
  induction n generalizing rest with
  | zero =>
    have hnil : rest = [] := List.eq_nil_of_length_eq_zero (by omega)
    simp [cutUp, hnil]
  | succ n ih =>
    rw [cutUp]
    split
    · next hnil => simp [hnil]
    · next hne =>
      have hlt := takeChunk_rest_length hne
      obtain ⟨hflat, hmax, hmin⟩ := ih (takeChunk rest [] 0).2 (by omega)
      refine ⟨?_, ?_, ?_⟩
      · rw [List.flatten_cons, hflat, takeChunk_append, List.nil_append]
      · intro c hc
        rcases List.mem_cons.mp hc with rfl | hc
        · exact takeChunk_length_le rest [] 0 (Nat.zero_le _)
        · exact hmax c hc
      · intro c hc
        -- a chunk that is not the last has bytes after it
        rcases hchunks : cutUp n (takeChunk rest [] 0).2 with - | ⟨next, others⟩
        · rw [hchunks] at hc
          cases hc
        · rw [hchunks, List.dropLast_cons₂] at hc
          rcases List.mem_cons.mp hc with rfl | hc
          · apply le_takeChunk_length
            intro hnil
            rw [hnil] at hchunks
            cases n <;> simp [cutUp] at hchunks
          · exact hmin c (by rw [hchunks]; exact hc)

/-- A stream delivers the chunks of what it holds. -/
theorem ChunkStream.Holds.drain {ε : Type} (n : ℕ) {s : ChunkStream ε} {rest : Bytes}
    (h : s.Holds rest) (hn : rest.length ≤ n) (fuel : ℕ) (hfuel : n < fuel) :
    ChunkStream.drain fuel s = .ok (some (cutUp n rest)) := by
  induction n generalizing s rest fuel with
  | zero =>
    have hnil : rest = [] := List.eq_nil_of_length_eq_zero (by omega)
    obtain ⟨s', heq, -⟩ := nextChunk_spec h
    cases fuel with
    | zero => omega
    | succ fuel => simp [ChunkStream.drain, heq, hnil, cutUp]
  | succ n ih =>
    obtain ⟨s', heq, hs'⟩ := nextChunk_spec h
    cases fuel with
    | zero => omega
    | succ fuel =>
      rw [cutUp]
      split
      · next hnil => simp [ChunkStream.drain, heq, hnil]
      · next hne =>
        have hlt := takeChunk_rest_length hne
        rw [if_neg hne] at heq
        simp only [ChunkStream.drain, heq, ih hs' (by omega) fuel (by omega)]
        rfl

/-- Chunking is lossless, bounded and independent of reads: however the reads split the input, the
stream comes to its end with the same chunks, which are the input cut up into pieces of at most
`MAX_CHUNK` bytes, all but the last with at least `MIN_CHUNK`. -/
theorem drain_lossless (ε : Type) (input : Bytes) :
    ∃ chunks : List Bytes,
      (∀ pieces : List Bytes, (∀ p ∈ pieces, p ≠ []) → pieces.flatten = input →
        ∀ fuel > input.length,
          (ChunkStream.new (pieces.map (.ok : Bytes → Except ε Bytes))).drain fuel =
          .ok (some chunks)) ∧
      chunks.flatten = input ∧ (∀ c ∈ chunks, c.length ≤ MAX_CHUNK) ∧
      ∀ c ∈ chunks.dropLast, MIN_CHUNK ≤ c.length := by
  refine ⟨cutUp input.length input, ?_, cutUp_spec input.length input le_rfl⟩
  intro pieces hne hflat fuel hfuel
  have hholds := ChunkStream.holds_new (ε := ε) ⟨pieces, rfl, hne, hflat⟩
  exact hholds.drain input.length le_rfl fuel hfuel

end Furrow
