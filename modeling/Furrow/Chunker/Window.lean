import Mathlib
import Furrow.Chunker.Stream

set_option relaxedAutoImplicit false
set_option autoImplicit false

/-!
# What a cut depends on

The hash of `next_chunk` is rotated by one bit for each byte, not shifted: a byte that has left
the window of the last 64 comes round again.  One byte more changes the hash by a permutation of its
values, so two chunks in progress that end in the same bytes have the same hash exactly if the
bytes before have.

Some values of the hash are left as they are by one of the bytes, and one of these values is the
hash of seven bytes.  A chunk that goes on with that byte has the same hash at every length, which
gives chunks of all lengths that end in the same 64 bytes and are cut differently.

## Main definitions

* `Furrow.rolled` — the hash of a chunk.
* `Furrow.cutsAfter` — whether a chunk that has come so far ends there.
* `Furrow.ChunkStream.InProgress`, `Furrow.ChunkStream.Cuts` — the same of a stream.
* `Furrow.ChunkStream.CutAlike` — the cut depends on the last 64 bytes and the size range only.

## Main results

* `Furrow.rolled_append_inj` — the hash forgets no byte.
* `Furrow.ChunkStream.cuts_iff` — a stream cuts where the test says.
* `Furrow.ChunkStream.cutAlike_iff` — at which lengths chunks are cut alike.
-/

namespace Furrow

/-- The hash of the bytes of a chunk. -/
def rolled (chunk : Bytes) : UInt64 := chunk.foldl roll 0

/-- The hash of one byte more. -/
@[simp] theorem rolled_concat (chunk : Bytes) (value : Byte) :
    rolled (chunk ++ [value]) = roll (rolled chunk) value := by
  simp [rolled]

/-- The hash of more bytes. -/
theorem rolled_append (a b : Bytes) : rolled (a ++ b) = b.foldl roll (rolled a) := by
  simp [rolled]

/-- Whether a chunk ends after the bytes it has come to. -/
def cutsAfter (chunk : Bytes) : Bool :=
  boundary chunk.length (rolled chunk) || decide (chunk.length = MAX_CHUNK)

/-- The size ranges of a chunk: below `MIN_CHUNK`, up to `AVG_CHUNK`, up to `MAX_CHUNK`, full. -/
inductive SizeRange
  | belowMin
  | minToAvg
  | avgToMax
  | full
deriving DecidableEq

/-- The range that a length is in. -/
@[inherit_doc SizeRange]
def sizeRange (len : ℕ) : SizeRange :=
  if len < MIN_CHUNK then .belowMin
  else if len < AVG_CHUNK then .minToAvg
  else if len < MAX_CHUNK then .avgToMax
  else .full

/-! ### The hash does not forget -/

/-- A rotation doubles, and brings the highest bit to the lowest. -/
theorem rotateLeft_toNat (hash : UInt64) :
    (rotateLeft hash).toNat = hash.toNat * 2 % 2 ^ 64 + hash.toNat / 2 ^ 63 := by
  have hlt := hash.toNat_lt
  have hhigh : hash.toNat / 2 ^ 63 < 2 ^ 1 := by omega
  have hlow : hash.toNat * 2 % 2 ^ 64 = (hash.toNat % 2 ^ 63) <<< 1 := by
    rw [Nat.shiftLeft_eq]
    omega
  have hshl : (hash <<< 1).toNat = hash.toNat * 2 % 2 ^ 64 := by
    rw [UInt64.toNat_shiftLeft, Nat.shiftLeft_eq]
    rfl
  have hshr : (hash >>> 63).toNat = hash.toNat / 2 ^ 63 := by
    rw [UInt64.toNat_shiftRight, Nat.shiftRight_eq_div_pow]
    rfl
  rw [rotateLeft, UInt64.toNat_or, hshl, hshr, hlow, Nat.shiftLeft_add_eq_or_of_lt hhigh]

/-- Numbers are equal if their lowest bits and the rest are. -/
theorem eq_of_bit_below {a b c d : ℕ} (ha : a < 2) (hb : b < 2) (h : c * 2 + a = d * 2 + b) :
    a = b ∧ c = d := by omega

/-- A rotation loses nothing. -/
theorem rotateLeft_injective : Function.Injective rotateLeft := by
  intro x y h
  have hdouble : ∀ n : ℕ, n * 2 % 2 ^ 64 = n % 2 ^ 63 * 2 := by
    intro n
    omega
  have hbit : ∀ z : UInt64, z.toNat / 2 ^ 63 < 2 := fun z => Nat.div_lt_of_lt_mul z.toNat_lt
  have h' := congrArg UInt64.toNat h
  rw [rotateLeft_toNat, rotateLeft_toNat, hdouble, hdouble] at h'
  -- the bit that comes in below is the one that went out above
  obtain ⟨hhigh, hlow⟩ := eq_of_bit_below (hbit x) (hbit y) h'
  apply UInt64.toNat_inj.mp
  rw [← Nat.div_add_mod x.toNat (2 ^ 63), hlow, hhigh, Nat.div_add_mod]

/-- No byte makes the hash forget: what was different stays different. -/
theorem roll_injective (value : Byte) : Function.Injective (roll · value) := by
  intro x y h
  exact rotateLeft_injective ((UInt64.add_left_inj _).mp h)

/-- The hashes of two chunks that end alike agree exactly if those of the bytes before do. -/
theorem rolled_append_inj {a b : Bytes} (window : Bytes) :
    rolled (a ++ window) = rolled (b ++ window) ↔ rolled a = rolled b := by
  induction window using List.reverseRecOn with
  | nil => simp
  | append_singleton window value ih =>
    rw [← List.append_assoc, ← List.append_assoc, rolled_concat, rolled_concat, ← ih]
    exact (roll_injective value).eq_iff

/-! ### Where a chunk ends -/

/-- One byte more in a chunk. -/
theorem takeChunk_cons {out : Bytes} (hlt : out.length < MAX_CHUNK) (value : Byte) (rest : Bytes) :
    takeChunk (value :: rest) out (rolled out) =
      if cutsAfter (out ++ [value]) then (out ++ [value], rest)
      else takeChunk rest (out ++ [value]) (rolled (out ++ [value])) := by
  rw [takeChunk, if_pos hlt]
  simp only [cutsAfter, rolled_concat, Bool.or_eq_true, decide_eq_true_eq]
  by_cases hcut : boundary (out ++ [value]).length (roll (rolled out) value) = true
  · simp only [hcut, if_true, true_or]
  · by_cases hmax : (out ++ [value]).length = MAX_CHUNK
    · rw [if_neg hcut, if_pos (Or.inr hmax), takeChunk_full (by omega)]
    · rw [if_neg hcut, if_neg (not_or.mpr ⟨hcut, hmax⟩)]

/-- Bytes after which there is no cut are passed over. -/
theorem takeChunk_skip (out taken rest : Bytes) (hlt : out.length < MAX_CHUNK)
    (h : ∀ k, 0 < k → k ≤ taken.length → cutsAfter (out ++ taken.take k) = false) :
    takeChunk (taken ++ rest) out (rolled out) =
        takeChunk rest (out ++ taken) (rolled (out ++ taken)) ∧
      (out ++ taken).length < MAX_CHUNK := by
  induction taken generalizing out with
  | nil => simpa using hlt
  | cons value taken ih =>
    have hfirst : cutsAfter (out ++ [value]) = false := by simpa using h 1 one_pos (by simp)
    have hlt' : (out ++ [value]).length < MAX_CHUNK := by
      have hne : (out ++ [value]).length ≠ MAX_CHUNK := by
        simp only [cutsAfter, Bool.or_eq_false_iff, decide_eq_false_iff_not] at hfirst
        exact hfirst.2
      simp only [List.length_append, List.length_cons, List.length_nil] at hne ⊢
      omega
    have hrest :
        ∀ k, 0 < k → k ≤ taken.length → cutsAfter (out ++ [value] ++ taken.take k) = false := by
      intro k hpos hk
      simpa using h (k + 1) (Nat.succ_pos k) (by simpa using hk)
    obtain ⟨heq, hlen⟩ := ih _ hlt' hrest
    rw [List.cons_append, takeChunk_cons hlt, hfirst, if_neg Bool.false_ne_true, heq,
      List.append_assoc, List.singleton_append]
    rw [List.append_assoc, List.singleton_append] at hlen
    exact ⟨rfl, hlen⟩

/-- A chunk ends at its first cut. -/
theorem takeChunk_of_cutsAfter (bytes : Bytes) {k : ℕ} (hpos : 0 < k) (hk : k ≤ bytes.length)
    (hcut : cutsAfter (bytes.take k) = true)
    (h : ∀ j, 0 < j → j < k → cutsAfter (bytes.take j) = false) :
    (takeChunk bytes [] 0).1 = bytes.take k := by
  obtain ⟨j, rfl⟩ : ∃ j, k = j + 1 := ⟨k - 1, by omega⟩
  have hskip := takeChunk_skip [] (bytes.take j) (bytes.drop j) (by decide) (by
    intro i hi hij
    rw [List.length_take] at hij
    rw [List.nil_append, List.take_take, min_eq_left (by omega)]
    exact h i hi (by omega))
  rw [List.take_append_drop, List.nil_append] at hskip
  rw [show takeChunk bytes [] 0 = takeChunk bytes [] (rolled []) from rfl, hskip.1,
    List.drop_eq_getElem_cons (by omega), takeChunk_cons hskip.2,
      ← List.take_succ_eq_append_getElem,
    if_pos hcut]

/-- What is in a chunk stays in it. -/
theorem prefix_takeChunk (rest out : Bytes) (hash : UInt64) :
    out <+: (takeChunk rest out hash).1 := by
  induction rest generalizing out hash with
  | nil => exact List.prefix_rfl
  | cons value rest ih =>
    simp only [takeChunk]
    split_ifs
    · exact List.prefix_append _ _
    · exact (List.prefix_append _ _).trans (ih _ _)
    · exact List.prefix_rfl

/-- A chunk that is not cut goes on while there are bytes. -/
theorem takeChunk_ne_of_lt {out rest : Bytes} (hlt : out.length < MAX_CHUNK) (hrest : rest ≠ []) :
    (takeChunk rest out (rolled out)).1 ≠ out := by
  cases rest with
  | nil => exact absurd rfl hrest
  | cons value rest =>
    have hgrow : out ++ [value] <+: (takeChunk (value :: rest) out (rolled out)).1 := by
      rw [takeChunk_cons hlt]
      split
      · exact List.prefix_rfl
      · exact prefix_takeChunk _ _ _
    intro heq
    have := hgrow.length_le
    rw [heq, List.length_append, List.length_cons] at this
    omega

namespace ChunkStream

variable {ε : Type} {s : ChunkStream ε} {chunk rest : Bytes}

/-- The next chunk of a stream has come to these bytes. -/
def InProgress (s : ChunkStream ε) (chunk : Bytes) : Prop :=
  ∃ delivered, s.nextChunk.1 = .ok (some delivered) ∧ chunk <+: delivered

/-- The next chunk of a stream is cut after these bytes. -/
def Cuts (s : ChunkStream ε) (chunk : Bytes) : Prop := s.nextChunk.1 = .ok (some chunk)

/-- The next chunk of a stream that holds bytes. -/
theorem Holds.nextChunk_fst (h : s.Holds rest) (hne : rest ≠ []) :
    s.nextChunk.1 = .ok (some (takeChunk rest [] 0).1) := by
  obtain ⟨s', heq, -⟩ := nextChunk_spec h
  rw [heq, if_neg hne]

/-- A chunk is in progress exactly if there was no cut before. -/
theorem inProgress_iff (h : s.Holds (chunk ++ rest)) (hne : chunk ++ rest ≠ []) :
    s.InProgress chunk ↔ ∀ k, 0 < k → k < chunk.length → cutsAfter (chunk.take k) = false := by
  have hfst := h.nextChunk_fst hne
  constructor
  · rintro ⟨delivered, hdelivered, hprefix⟩
    rw [hfst, Except.ok.injEq, Option.some.injEq] at hdelivered
    -- otherwise the chunk would end at the first of the cuts
    by_contra hcuts
    push Not at hcuts
    classical
    obtain ⟨hpos, hk, hcut⟩ := Nat.find_spec hcuts
    set k := Nat.find hcuts with hkdef
    have htake : ∀ j ≤ k, (chunk ++ rest).take j = chunk.take j := by
      intro j hj
      rw [List.take_append_of_le_length (by omega)]
    have heq := takeChunk_of_cutsAfter (chunk ++ rest) hpos
      (by rw [List.length_append]; omega) (by rw [htake k le_rfl]; simpa using hcut) (by
        intro j hj hjk
        rw [htake j (by omega)]
        have := Nat.find_min hcuts hjk
        simp only [not_and, ne_eq, not_not] at this
        exact this hj (by omega))
    rw [← hdelivered, heq, htake k le_rfl] at hprefix
    have := hprefix.length_le
    rw [List.length_take] at this
    omega
  · intro hcuts
    refine ⟨_, hfst, ?_⟩
    rcases List.eq_nil_or_concat' chunk with rfl | ⟨init, value, rfl⟩
    · exact List.nil_prefix
    · have hskip := takeChunk_skip [] init ([value] ++ rest) (by decide) (by
        intro k hpos hk
        have := hcuts k hpos (by simp; omega)
        rwa [List.take_append_of_le_length hk] at this)
      rw [List.nil_append] at hskip
      rw [List.append_assoc, show takeChunk (init ++ ([value] ++ rest)) [] 0 =
        takeChunk (init ++ ([value] ++ rest)) [] (rolled []) from rfl, hskip.1,
        List.singleton_append, takeChunk_cons hskip.2]
      split
      · exact List.prefix_rfl
      · exact prefix_takeChunk _ _ _

/-- A stream cuts the chunk in progress where the test says. -/
theorem cuts_iff (h : s.Holds (chunk ++ rest)) (hchunk : chunk ≠ []) (hrest : rest ≠ [])
    (hprogress : s.InProgress chunk) : s.Cuts chunk ↔ cutsAfter chunk = true := by
  have hne : chunk ++ rest ≠ [] := by simp [hchunk]
  have hcuts := (inProgress_iff h hne).mp hprogress
  have hpos := List.length_pos_iff.mpr hchunk
  rw [Cuts, h.nextChunk_fst hne, Except.ok.injEq, Option.some.injEq]
  constructor
  · intro heq
    by_contra hcut
    rw [Bool.not_eq_true] at hcut
    have hskip := takeChunk_skip [] chunk rest (by decide) (by
      intro k hk hle
      rcases hle.lt_or_eq with hlt | rfl
      · exact hcuts k hk hlt
      · simpa using hcut)
    rw [List.nil_append] at hskip
    rw [show takeChunk (chunk ++ rest) [] 0 = takeChunk (chunk ++ rest) [] (rolled []) from rfl,
      hskip.1] at heq
    exact takeChunk_ne_of_lt hskip.2 hrest heq
  · intro hcut
    have heq := takeChunk_of_cutsAfter (chunk ++ rest) hpos (by simp) (by simpa using hcut) (by
      intro j hj hlt
      rw [List.take_append_of_le_length hlt.le]
      exact hcuts j hj hlt)
    simpa using heq

end ChunkStream

/-! ### Chunks that end alike -/

/-- Nothing is cut below `MIN_CHUNK`. -/
theorem cutsAfter_of_lt {chunk : Bytes} (h : chunk.length < MIN_CHUNK) :
    cutsAfter chunk = false := by
  have hmax := min_le_max
  rw [cutsAfter, boundary, if_pos h, Bool.false_or, decide_eq_false_iff_not]
  omega

/-- Lengths in the same range are on the same side of each bound. -/
theorem sizeRange_lt_iff {m n : ℕ} (h : sizeRange m = sizeRange n) {bound : ℕ}
    (hbound : bound = MIN_CHUNK ∨ bound = AVG_CHUNK ∨ bound = MAX_CHUNK) :
    m < bound ↔ n < bound := by
  have h₁ : MIN_CHUNK < AVG_CHUNK := by decide
  have h₂ : AVG_CHUNK < MAX_CHUNK := by decide
  unfold sizeRange at h
  rcases hbound with rfl | rfl | rfl <;> split_ifs at h <;> omega

namespace ChunkStream

variable {ε : Type} {s s' : ChunkStream ε}

/-- A chunk in progress is not too long. -/
theorem InProgress.length_le {chunk rest : Bytes} (hprogress : s.InProgress chunk)
    (h : s.Holds (chunk ++ rest)) (hne : chunk ++ rest ≠ []) : chunk.length ≤ MAX_CHUNK := by
  obtain ⟨delivered, hdelivered, hprefix⟩ := hprogress
  rw [h.nextChunk_fst hne, Except.ok.injEq, Option.some.injEq] at hdelivered
  refine hprefix.length_le.trans ?_
  rw [← hdelivered]
  exact takeChunk_length_le _ _ _ (Nat.zero_le _)

variable (ε) in
/-- **The cut depends on the last 64 bytes and the size range only**, for chunks in progress of two
lengths, in streams that go on. -/
def CutAlike (m n : ℕ) : Prop :=
  ∀ (s s' : ChunkStream ε) (a b window rest rest' : Bytes), window.length = 64 →
    (a ++ window).length = m → (b ++ window).length = n →
    s.Holds (a ++ window ++ rest) → s'.Holds (b ++ window ++ rest') → rest ≠ [] → rest' ≠ [] →
    s.InProgress (a ++ window) → s'.InProgress (b ++ window) →
    (s.Cuts (a ++ window) ↔ s'.Cuts (b ++ window))

/-- Chunks below `MIN_CHUNK` are not cut, and full ones are. -/
theorem cutAlike_of_bounds {m n : ℕ} (hrange : sizeRange m = sizeRange n)
    (h : m < MIN_CHUNK ∨ MAX_CHUNK ≤ m) : CutAlike ε m n := by
  intro s s' a b window rest rest' hwindow ha hb hs hs' hrest hrest' hprogress hprogress'
  have hne : a ++ window ≠ [] := List.ne_nil_of_length_pos (by rw [List.length_append]; omega)
  have hne' : b ++ window ≠ [] := List.ne_nil_of_length_pos (by rw [List.length_append]; omega)
  rw [cuts_iff hs hne hrest hprogress, cuts_iff hs' hne' hrest' hprogress']
  rcases h with hmin | hfull
  · have hmin' : n < MIN_CHUNK := (sizeRange_lt_iff hrange (Or.inl rfl)).mp hmin
    rw [cutsAfter_of_lt (ha ▸ hmin), cutsAfter_of_lt (hb ▸ hmin')]
  · have hfull' : MAX_CHUNK ≤ n := by
      have := sizeRange_lt_iff hrange (Or.inr (Or.inr rfl))
      omega
    have hle := hprogress.length_le hs (by simp [hrest])
    have hle' := hprogress'.length_le hs' (by simp [hrest'])
    have hm : (a ++ window).length = MAX_CHUNK := by omega
    have hn : (b ++ window).length = MAX_CHUNK := by omega
    simp only [cutsAfter, hm, hn, decide_true, Bool.or_true]

/-- A stream over one byte string. -/
theorem holds_single {input : Bytes} (h : input ≠ []) :
    (ChunkStream.new [(.ok input : Except ε Bytes)]).Holds input :=
  holds_new ⟨[input], rfl, by simpa using h, by simp⟩

end ChunkStream

/-! ### Two chunks that end alike and are cut differently

After seven bytes the hash has a value that the byte 101 leaves as it is, so that it is the same
after any number of them. -/

/-- The bytes before. -/
def lead : Bytes := [112, 211, 13, 113, 6, 119, 250]

/-- Their hash. -/
def steadyHash : UInt64 := 9096940168153829011

/-- The bytes with which a chunk begins. -/
def steady (n : ℕ) : Bytes := lead ++ List.replicate n 101

/-- The last 64 bytes. -/
def steadyWindow : Bytes := List.replicate 61 101 ++ [1, 73, 126]

/-- The length of a steady prefix. -/
@[simp] theorem length_steady (n : ℕ) : (steady n).length = n + 7 := by
  rw [steady, List.length_append, List.length_replicate]
  exact Nat.add_comm _ _

/-- A byte keeps the steady hash. -/
theorem roll_steadyHash : roll steadyHash 101 = steadyHash := by decide +kernel

/-- A steady prefix has the steady hash. -/
theorem rolled_steady (n : ℕ) : rolled (steady n) = steadyHash := by
  induction n with
  | zero => decide +kernel
  | succ n ih =>
    rw [steady, List.replicate_succ', ← List.append_assoc, rolled_concat, ← steady, ih]
    exact roll_steadyHash

/-- A part of a steady prefix is one. -/
theorem take_steady {k n : ℕ} (hk : 7 ≤ k) (hn : k ≤ n + 7) :
    (steady n).take k = steady (k - 7) := by
  have hlead : lead.length = 7 := rfl
  rw [steady, steady, List.take_append, List.take_of_length_le (by omega),
    List.take_replicate, hlead, min_eq_left (by omega)]

/-- No hash on the way is one that the weaker of the masks cuts at. -/
def quietFrom (hash : UInt64) : Bytes → Bool
  | [] => true
  | value :: rest => roll hash value &&& lateMask != 0 && quietFrom (roll hash value) rest

/-- No cut is made within quiet bytes. -/
theorem quietFrom_take {bytes out : Bytes} (h : quietFrom (rolled out) bytes = true) {k : ℕ}
    (hpos : 0 < k) (hk : k ≤ bytes.length) : rolled (out ++ bytes.take k) &&& lateMask ≠ 0 := by
  induction bytes generalizing out k with
  | nil => exact absurd hk (by simp; omega)
  | cons value rest ih =>
    rw [quietFrom, Bool.and_eq_true, bne_iff_ne] at h
    obtain ⟨j, rfl⟩ : ∃ j, k = j + 1 := ⟨k - 1, by omega⟩
    rw [List.take_succ_cons, List.append_cons]
    rcases Nat.eq_zero_or_pos j with rfl | hj
    · rw [List.take_zero, List.append_nil, rolled_concat]
      exact h.1
    · exact ih (by rw [rolled_concat]; exact h.2) hj (by simpa using hk)

/-- A hash that the stronger mask cuts at is one that the weaker one cuts at. -/
theorem lateMask_of_earlyMask {hash : UInt64} (h : hash &&& earlyMask = 0) :
    hash &&& lateMask = 0 := by
  have hmask : earlyMask &&& lateMask = lateMask := by decide
  rw [← hmask, ← UInt64.and_assoc, h, UInt64.zero_and]

/-- Where the weaker mask does not cut there is no cut. -/
theorem cutsAfter_of_late {chunk : Bytes} (hlt : chunk.length < MAX_CHUNK)
    (h : rolled chunk &&& lateMask ≠ 0) : cutsAfter chunk = false := by
  have hearly : rolled chunk &&& earlyMask ≠ 0 := fun he => h (lateMask_of_earlyMask he)
  rw [cutsAfter, decide_eq_false hlt.ne, Bool.or_false, boundary]
  split_ifs
  · rfl
  · exact beq_eq_false_iff_ne.mpr hearly
  · exact beq_eq_false_iff_ne.mpr h

/-- Where the stronger mask cuts there is a cut. -/
theorem cutsAfter_of_early {chunk : Bytes} (hmin : MIN_CHUNK ≤ chunk.length)
    (h : rolled chunk &&& earlyMask = 0) : cutsAfter chunk = true := by
  rw [cutsAfter, boundary, if_neg (not_lt.mpr hmin), h, lateMask_of_earlyMask h]
  split_ifs <;> rfl

/-- After the first bytes, a chunk is not cut as long as the bytes that follow are quiet. -/
theorem cutsAfter_take_steady {n k : ℕ} {tail : Bytes} (hquiet : quietFrom steadyHash tail = true)
    (hlt : (steady n ++ tail).length < MAX_CHUNK) (hk : k ≤ (steady n ++ tail).length) :
    cutsAfter ((steady n ++ tail).take k) = false := by
  have hlen : ((steady n ++ tail).take k).length = k := by rw [List.length_take, min_eq_left hk]
  have htail : (steady n ++ tail).length = n + 7 + tail.length := by
    rw [List.length_append, length_steady]
  by_cases hmin : k < MIN_CHUNK
  · exact cutsAfter_of_lt (by omega)
  · have hbound : MIN_CHUNK = 65536 := rfl
    apply cutsAfter_of_late (by omega)
    by_cases hsteady : k ≤ n + 7
    · rw [List.take_append_of_le_length (by rw [length_steady]; exact hsteady),
        take_steady (by omega) hsteady, rolled_steady]
      decide
    · rw [List.take_append, List.take_of_length_le (by rw [length_steady]; omega), length_steady]
      exact quietFrom_take (by rw [rolled_steady]; exact hquiet) (by omega) (by omega)

namespace ChunkStream

variable {ε : Type} {m n : ℕ}

/-- A stream of a chunk and one byte more. -/
def before (chunk : Bytes) : ChunkStream ε := ChunkStream.new [.ok (chunk ++ [0])]

/-- The stream before a chunk holds it and a byte more. -/
theorem before_holds (chunk : Bytes) : (before chunk : ChunkStream ε).Holds (chunk ++ [0]) :=
  holds_single (by simp)

/-- A chunk without a cut is in progress. -/
theorem before_inProgress {chunk : Bytes}
    (h : ∀ k < chunk.length, cutsAfter (chunk.take k) = false) :
    (before chunk : ChunkStream ε).InProgress chunk :=
  (inProgress_iff (before_holds chunk) (by simp)).mpr fun k _ hk => h k hk

/-- The chunk is cut after its last byte if its hash says so. -/
theorem before_cuts_iff {chunk : Bytes} (hne : chunk ≠ [])
    (h : ∀ k < chunk.length, cutsAfter (chunk.take k) = false) :
    (before chunk : ChunkStream ε).Cuts chunk ↔ cutsAfter chunk = true :=
  cuts_iff (before_holds chunk) hne (by simp) (before_inProgress h)

/-- The bytes before the window of the chunk that is cut. -/
def cutBefore (m : ℕ) : Bytes := steady (m - 71)

/-- The bytes before the window of the chunk that is not cut. -/
def uncutBefore (n : ℕ) : Bytes := steady (n - 72) ++ [0]

/-- The bytes of the chunk that is cut. -/
theorem cutBefore_append (hm : 71 ≤ m) :
    cutBefore m ++ steadyWindow = steady (m - 10) ++ [1, 73] ++ [126] := by
  have hcount : m - 71 + 61 = m - 10 := by omega
  rw [cutBefore, steadyWindow, steady, steady, ← hcount, ← List.replicate_append_replicate]
  simp only [List.append_assoc]
  rfl

/-- The chunk that is cut has its length. -/
theorem length_cutBefore_append (hm : 71 ≤ m) : (cutBefore m ++ steadyWindow).length = m := by
  rw [cutBefore_append hm]
  simp only [List.length_append, length_steady, List.length_cons, List.length_nil]
  omega

/-- The bytes of the chunk that is not cut. -/
theorem uncutBefore_append (n : ℕ) :
    uncutBefore n ++ steadyWindow = steady (n - 72) ++ (0 :: steadyWindow) := by
  rw [uncutBefore, List.append_assoc, List.singleton_append]

/-- The chunk that is not cut has its length. -/
theorem length_uncutBefore_append (hn : 72 ≤ n) : (uncutBefore n ++ steadyWindow).length = n := by
  have hwindow : steadyWindow.length = 64 := rfl
  rw [uncutBefore_append, List.length_append, length_steady, List.length_cons, hwindow]
  omega

/-- The one chunk is in progress to its end, and is cut there. -/
theorem cutBefore_spec (hmin : MIN_CHUNK ≤ m) (hmax : m < MAX_CHUNK) :
    (∀ k < (cutBefore m ++ steadyWindow).length,
        cutsAfter ((cutBefore m ++ steadyWindow).take k) = false) ∧
      cutsAfter (cutBefore m ++ steadyWindow) = true := by
  have hbound : MIN_CHUNK = 65536 := rfl
  have hlen := length_cutBefore_append (m := m) (by omega)
  have hinit : (steady (m - 10) ++ [1, 73]).length = m - 1 := by
    rw [List.length_append, length_steady]
    simp only [List.length_cons, List.length_nil]
    omega
  constructor
  · intro k hk
    rw [hlen] at hk
    rw [cutBefore_append (by omega), List.take_append_of_le_length (by omega)]
    exact cutsAfter_take_steady (by decide +kernel) (by omega) (by omega)
  · refine cutsAfter_of_early (by omega) ?_
    rw [cutBefore_append (by omega), rolled_append, rolled_append, rolled_steady]
    decide +kernel

/-- The other chunk is in progress to its end, and is not cut there. -/
theorem uncutBefore_spec (hmin : MIN_CHUNK ≤ n) (hmax : n < MAX_CHUNK) {k : ℕ}
    (hk : k ≤ (uncutBefore n ++ steadyWindow).length) :
    cutsAfter ((uncutBefore n ++ steadyWindow).take k) = false := by
  have hbound : MIN_CHUNK = 65536 := rfl
  have hlen := length_uncutBefore_append (n := n) (by omega)
  rw [uncutBefore_append] at hk hlen ⊢
  exact cutsAfter_take_steady (by decide +kernel) (by omega) hk

/-- **Of any two lengths in the same range there are chunks that end alike and are cut
differently.** -/
theorem cuts_differ (hmin : MIN_CHUNK ≤ m) (hmax : m < MAX_CHUNK) (hmin' : MIN_CHUNK ≤ n)
    (hmax' : n < MAX_CHUNK) :
    (before (cutBefore m ++ steadyWindow) : ChunkStream ε).InProgress
    (cutBefore m ++ steadyWindow) ∧
    (before (uncutBefore n ++ steadyWindow) : ChunkStream ε).InProgress
      (uncutBefore n ++ steadyWindow) ∧
    (before (cutBefore m ++ steadyWindow) : ChunkStream ε).Cuts (cutBefore m ++ steadyWindow) ∧
    ¬ (before (uncutBefore n ++ steadyWindow) : ChunkStream ε).Cuts
      (uncutBefore n ++ steadyWindow) := by
  obtain ⟨hquiet, hcut⟩ := cutBefore_spec hmin hmax
  have hquiet' : ∀ k < (uncutBefore n ++ steadyWindow).length,
      cutsAfter ((uncutBefore n ++ steadyWindow).take k) = false :=
    fun k hk => uncutBefore_spec hmin' hmax' hk.le
  have huncut := uncutBefore_spec hmin' hmax' le_rfl
  rw [List.take_length] at huncut
  refine ⟨before_inProgress hquiet, before_inProgress hquiet',
    (before_cuts_iff (by simp [steadyWindow]) hquiet).mpr hcut, ?_⟩
  rw [before_cuts_iff (by simp [steadyWindow]) hquiet', huncut]
  exact Bool.false_ne_true

/-- **The cut depends on the last 64 bytes and the size range exactly below `MIN_CHUNK` and at
`MAX_CHUNK`.** -/
theorem cutAlike_iff (hm : 64 ≤ m) (hn : 64 ≤ n) (hrange : sizeRange m = sizeRange n) :
    CutAlike ε m n ↔ m < MIN_CHUNK ∨ MAX_CHUNK ≤ m := by
  refine ⟨fun h => ?_, cutAlike_of_bounds hrange⟩
  by_contra hbounds
  have hmin := sizeRange_lt_iff hrange (Or.inl rfl)
  have hmax := sizeRange_lt_iff hrange (Or.inr (Or.inr rfl))
  have hbound : MIN_CHUNK = 65536 := rfl
  obtain ⟨hprogress, hprogress', hcuts, huncut⟩ :=
    @cuts_differ ε m n (by omega) (by omega) (by omega) (by omega)
  exact huncut ((h _ _ _ _ steadyWindow [0] [0] rfl (length_cutBefore_append (by omega))
    (length_uncutBefore_append (by omega)) (before_holds _) (before_holds _) (by simp) (by simp)
    hprogress hprogress').mp hcuts)

/-- Short chunks are cut alike, and longer ones of other lengths are not. -/
theorem cutAlike_iff_sample : CutAlike Unit 100 200 ∧ ¬ CutAlike Unit 65536 200000 := by
  have hshort : CutAlike Unit 100 200 ↔ 100 < MIN_CHUNK ∨ MAX_CHUNK ≤ 100 :=
    cutAlike_iff (by decide) (by decide) (by decide)
  have hlong : CutAlike Unit 65536 200000 ↔ 65536 < MIN_CHUNK ∨ MAX_CHUNK ≤ 65536 :=
    cutAlike_iff (by decide) (by decide) (by decide)
  exact ⟨hshort.mpr (Or.inl (by decide)), fun h => absurd (hlong.mp h) (by decide)⟩

/-- Two chunks in progress of 65536 bytes that end in the same 64; one is cut there and the other is
not. -/
theorem cuts_differ_min :
    steadyWindow.length = 64 ∧ (cutBefore 65536 ++ steadyWindow).length = 65536 ∧
    (uncutBefore 65536 ++ steadyWindow).length = 65536 ∧
    (before (cutBefore 65536 ++ steadyWindow) : ChunkStream Unit).InProgress
      (cutBefore 65536 ++ steadyWindow) ∧
    (before (uncutBefore 65536 ++ steadyWindow) : ChunkStream Unit).InProgress
      (uncutBefore 65536 ++ steadyWindow) ∧
    (before (cutBefore 65536 ++ steadyWindow) : ChunkStream Unit).Cuts
      (cutBefore 65536 ++ steadyWindow) ∧
    ¬ (before (uncutBefore 65536 ++ steadyWindow) : ChunkStream Unit).Cuts
      (uncutBefore 65536 ++ steadyWindow) :=
  ⟨rfl, length_cutBefore_append (by decide), length_uncutBefore_append (by decide),
    cuts_differ (by decide) (by decide) (by decide) (by decide)⟩

end ChunkStream

end Furrow
