import Furrow.Pack.Recover

set_option relaxedAutoImplicit false
set_option autoImplicit false

/-!
# Recovery is exact and repeatable

A crash leaves the active pack as a sequence of records with a piece behind it, and the catalog
with a checkpoint somewhere among them.  From every such state recovery leads to the same index,
the one a scan of the whole pack would build, and a second recovery finds nothing to do.

## Main definitions

* `Furrow.RecoverablePack` — what a crash may leave of a pack.
* `Furrow.ExactIndex` — the index of exactly the valid records.

## Main results

* `Furrow.recoverPack_below_frontier` — a pack damaged below the frontier is refused as it is.
* `Furrow.recoverPack_again` — a second recovery changes nothing.
* `Furrow.recoverPack_exact` — recovery is exact, repeatable and never cuts below the frontier.
-/

namespace Furrow

section

variable {R : Type} (hash : Bytes → ObjectId) (durableLen : Option ℕ) (name : PackName)

/-! ## Damage below the frontier -/

/-- The scan refuses to stop below the frontier. -/
theorem scanEnd_below_frontier {d : ℕ} (hd : durableLen = some d) {rest : Bytes}
    {e : ReadFault PackError} (hrest : readRecord hash rest = .error e) (hne : rest ≠ [])
    {scan : PackCheckpoint} (hlt : scan.verifiedLen < d) (s : PackState R) :
    ∃ error, scanEnd hash durableLen name rest scan s = (.error error, s) := by
  have hempty : rest.isEmpty = false := by simpa using hne
  have hbelow : (durableLen.any fun len => decide (len ≤ scan.verifiedLen)) = false := by
    simp [hd, hlt]
  unfold scanEnd
  simp only [hempty, Bool.false_eq_true, if_false, hrest]
  unfold stopAt
  rw [hbelow]
  cases e with
  | invalid error => exact ⟨error, rfl⟩
  | short =>
    refine ⟨.durablePrefixCorrupt, ?_⟩
    simp [truncatePackTail, hd, hlt, Except.map]

/-- **A pack damaged below the frontier is refused as it is**: if its valid records end before
the frontier, recovery is an error and the pack stays. -/
theorem recoverPack_below_frontier {d : ℕ} (hd : durableLen = some d) {rs : List PackRecord}
    {tail : Bytes} {s : PackState R} (hpack : s.pack = encodeAll hash rs ++ tail)
    (hfits : CheckpointFits hash name rs s.catalog)
    (hlt : (encodeAll hash (rs ++ validRecords hash tail)).length < d) :
    (∃ error, (recoverPackUnderCatalogLock hash durableLen name s).1 = .error error) ∧
      (recoverPackUnderCatalogLock hash durableLen name s).2.pack = s.pack := by
  by_cases hlost : ∀ d, durableLen = some d → d ≤ s.pack.length
  · obtain ⟨htail, e, he⟩ := scanRest_spec hash tail
    have hle := hlost d hd
    have hne : scanRest hash tail ≠ [] := by
      intro hnil
      rw [hnil, List.append_nil] at htail
      have hlen : s.pack.length = (encodeAll hash (rs ++ validRecords hash tail)).length := by
        rw [hpack, encodeAll_append, ← htail]
      omega
    have hfits' : CheckpointFits hash name rs (forgetLost name s).catalog := by
      intro k hk
      rw [Catalog.packCheckpoint, forgetLost_checkpoints] at hk
      simpa [Catalog.elsewhere] using hfits k hk
    obtain ⟨rs₁, rs₂, rfl, hstart, -⟩ := prepareScan_spec hash durableLen name hfits'
    have hdrop : s.pack.drop (encodeAll hash rs₁).length = encodeAll hash rs₂ ++ tail := by
      rw [hpack, encodeAll_append, List.append_assoc, List.drop_left]
    rw [recoverPack_eq hash durableLen name s hlost]
    simp only [forgetLost_pack, hstart, verifiedLen_checkpointOf, hdrop, validRecords_encodeAll,
      scanRest_encodeAll, ← checkpointOf_append]
    have hstop : (checkpointOf hash (rs₁ ++ (rs₂ ++ validRecords hash tail))).verifiedLen < d := by
      rwa [verifiedLen_checkpointOf, ← List.append_assoc]
    obtain ⟨error, hend⟩ := scanEnd_below_frontier hash durableLen name hd he hne hstop
      ⟨s.pack, insertAll hash name (encodeAll hash rs₁).length (rs₂ ++ validRecords hash tail)
        (prepareScan durableLen name (forgetLost name s)).catalog⟩
    rw [hend]
    exact ⟨⟨error, rfl⟩, rfl⟩
  · simp only [not_forall, Nat.not_le] at hlost
    obtain ⟨d', hd', hlt'⟩ := hlost
    unfold recoverPackUnderCatalogLock
    simp [hd', hlt']

/-! ## What a crash leaves -/

/-- What a crash may leave of a pack: records with distinct identifiers, all that is durable
among them, and behind them a proper prefix of one more record or, if a frontier is known,
anything. -/
structure RecoverablePack (rs : List PackRecord) (tail : Bytes) : Prop where
  distinct : (rs.map (PackRecord.id hash)).Nodup
  behind : ∀ d, durableLen = some d → d ≤ (encodeAll hash rs).length
  tail : (∃ r q, q ≠ [] ∧ tail ++ q = PackRecord.encode hash r) ∨ durableLen.isSome

variable {hash durableLen} in
/-- The piece behind the records can be dropped. -/
theorem RecoverablePack.droppable {rs : List PackRecord} {tail : Bytes}
    (h : RecoverablePack hash durableLen rs tail) :
    DroppableTail hash durableLen (encodeAll hash (rs ++ validRecords hash tail)).length
      (scanRest hash tail) := by
  refine ⟨fun d hd => ?_, ?_⟩
  · have hle := h.behind d hd
    rw [encodeAll_append, List.length_append]
    omega
  · rcases h.tail with ⟨r, q, hq, hr⟩ | hsome
    · have hshort := readRecord_short hash hr hq
      rw [scanRest_of_error hash hshort]
      exact Or.inr (Or.inl hshort)
    · exact Or.inr (Or.inr hsome)

/-- Every record of the pack is valid, so that the valid ones extend them. -/
theorem prefix_validRecords (rs : List PackRecord) (tail : Bytes) :
    rs <+: validRecords hash (encodeAll hash rs ++ tail) := by
  rw [validRecords_encodeAll]
  exact List.prefix_append _ _

/-- The index of exactly the valid records.  An identifier has one row, for its first record,
unless another pack has the object; rows of other packs stay.  With one record for each
identifier these are one row for each record. -/
structure ExactIndex (valid : List PackRecord) (before after : Catalog R) : Prop where
  rows : ∀ id l, l.pack = name → (after.object id = some l ↔
    before.elsewhere name id = none ∧ locate hash name 0 valid id = some l)
  elsewhere : ∀ id, after.elsewhere name id = before.elsewhere name id
  end_eq : ((after.packCheckpoint name).getD .zero).verifiedLen = (encodeAll hash valid).length
  last : ((after.packCheckpoint name).getD .zero).lastObject =
    valid.getLast?.map (PackRecord.id hash)
  each : (valid.map (PackRecord.id hash)).Nodup →
    (∀ r ∈ valid, before.elsewhere name (r.id hash) = none) →
    (∀ id l, l.pack = name →
      (after.object id = some l ↔ (id, l) ∈ rowsOf hash name 0 valid)) ∧
    (after.packCheckpoint name).getD .zero = checkpointOf hash valid ∧
    (checkpointOf hash valid).objectCount = valid.length
  others : ∀ p, p ≠ name → after.packCheckpoint p = before.packCheckpoint p

/-- The checkpoint names the last record. -/
theorem lastObject_checkpointOf (rs : List PackRecord) :
    (checkpointOf hash rs).lastObject = rs.getLast?.map (PackRecord.id hash) := by
  rcases List.eq_nil_or_concat rs with rfl | ⟨rs, r, rfl⟩
  · rfl
  · rw [List.concat_eq_append, checkpointOf_append]
    simp [PackCheckpoint.advance]

/-- The rows of this pack in a lookup that prefers other packs. -/
theorem elsewhere_or_eq_some_iff {c : Catalog R} {id : ObjectId} {o : Option ObjectLocation}
    {l : ObjectLocation} (hl : l.pack = name) :
    (c.elsewhere name id).or o = some l ↔ c.elsewhere name id = none ∧ o = some l := by
  rw [Option.or_eq_some_iff, or_iff_right]
  intro h
  rw [Catalog.elsewhere, Option.filter_eq_some_iff] at h
  exact absurd hl (by simpa using h.2)

variable {hash name} in
/-- The checkpoint that recovery leaves. -/
theorem Recovered.checkpoint_getD {rs : List PackRecord} {before after : Catalog R}
    (h : Recovered hash name rs before after) :
    (after.packCheckpoint name).getD .zero = checkpointOf hash rs := by
  rcases h.checkpoint with hk | ⟨hk, rfl⟩
  · rw [hk, Option.getD_some]
  · rw [hk]
    rfl

variable {hash name} in
/-- What recovery leaves is the exact index. -/
theorem Recovered.exactIndex {rs : List PackRecord} {before after : Catalog R}
    (h : Recovered hash name rs before after) : ExactIndex hash name rs before after := by
  refine ⟨fun id l hl => ?_, fun id => ?_, ?_, ?_, fun hnodup hnone => ⟨fun id l hl => ?_, ?_⟩,
    h.others⟩
  · rw [h.objects, elsewhere_or_eq_some_iff name hl]
  · rw [Catalog.elsewhere, h.objects]
    cases he : before.elsewhere name id with
    | some l =>
      rw [Option.some_or, ← he, Catalog.elsewhere, Option.filter_filter]
      simp
    | none =>
      rw [Option.none_or]
      cases hl : locate hash name 0 rs id with
      | none => rfl
      | some l =>
        have hpack : l.pack = name :=
          (mem_rowsOf hash name (mem_rowsOf_of_locate hash name hl)).1
        simp [Option.filter_some, hpack]
  · rw [h.checkpoint_getD, verifiedLen_checkpointOf]
  · rw [h.checkpoint_getD, lastObject_checkpointOf]
  · rw [h.objects, elsewhere_or_eq_some_iff name hl, locate_eq_some_iff hash name hnodup]
    refine and_iff_right_of_imp fun hmem => ?_
    have hid : id ∈ rs.map (PackRecord.id hash) := by
      rw [← map_fst_rowsOf hash name 0]
      exact List.mem_map_of_mem hmem
    obtain ⟨r, hr, rfl⟩ := List.mem_map.mp hid
    exact hnone r hr
  · exact ⟨h.checkpoint_getD, objectCount_checkpointOf hash rs⟩

/-! ## Once more -/

variable {hash name} in
/-- The index that recovery leaves fits the pack that it leaves. -/
theorem Recovered.checkpointFits {rs : List PackRecord} {before after : Catalog R}
    (h : Recovered hash name rs before after) : CheckpointFits hash name rs after := by
  intro k hk
  refine ⟨rs, [], (List.append_nil rs).symm, ?_, fun id l hl _ => ?_⟩
  · rcases h.checkpoint with hk' | ⟨hk', -⟩
    · exact Option.some.inj (hk.symm.trans hk')
    · rw [hk] at hk'
      exact absurd hk' (by simp)
  · rw [h.exactIndex.elsewhere, h.exactIndex.rows id l hl]

variable {hash name} in
/-- Two recoveries of the same records leave the same rows. -/
theorem Recovered.objects_eq {rs : List PackRecord} {before before' after after' : Catalog R}
    (h : Recovered hash name rs before after) (h' : Recovered hash name rs before' after')
    (hsame : ∀ id, before'.elsewhere name id = before.elsewhere name id) :
    after'.objects = after.objects := by
  apply OrdMap.ext_get?
  intro id
  show after'.object id = after.object id
  rw [h'.objects, h.objects, hsame]

variable {hash name} in
/-- No row of a recovered index is lost. -/
theorem Recovered.packHighWater_le {rs : List PackRecord} {before after : Catalog R}
    (h : Recovered hash name rs before after) :
    after.packHighWater name ≤ (encodeAll hash rs).length := by
  rw [Catalog.packHighWater_le_iff]
  intro l hl
  obtain ⟨hpack, id, hid⟩ := Catalog.mem_packRows.mp hl
  exact recordEnd_le_of_rebuilt hash name h.objects hid hpack

/-- An empty pack keeps the checkpoint that recovery left it. -/
theorem trustedCheckpoint_of_nil {before after : Catalog R}
    (h : Recovered hash name [] before after) :
    trustedCheckpoint durableLen name ⟨[], after⟩ = after.packCheckpoint name := by
  unfold trustedCheckpoint
  rcases h.checkpoint with hk | ⟨hk, -⟩
  · have hwater := h.packHighWater_le
    rw [hk, Option.filter_some, if_pos, Option.filter_some, if_pos]
    · simp only [encodeAll_nil, List.length_nil] at hwater
      have hzero : checkpointOf hash [] = .zero := rfl
      simp [validateCheckpoint, hzero, PackCheckpoint.zero]
      omega
    · cases durableLen with
      | none => rfl
      | some d => simp [checkpointOf, PackCheckpoint.zero]
  · rw [hk]
    rfl

/-- **A second recovery changes nothing.** -/
theorem recoverPack_again {rs : List PackRecord} {before after : Catalog R}
    (h : Recovered hash name rs before after)
    (hbehind : ∀ d, durableLen = some d → d ≤ (encodeAll hash rs).length) :
    recoverPackUnderCatalogLock hash durableLen name ⟨encodeAll hash rs, after⟩ =
      (.ok (), ⟨encodeAll hash rs, after⟩) := by
  have hnone : validRecords hash [] = [] := rfl
  have hrest : scanRest hash [] = [] := rfl
  obtain ⟨c, hrun, hrec, hcaches, hempty⟩ := recoverPack_droppable hash durableLen name
    (s := ⟨encodeAll hash rs, after⟩) (List.append_nil _).symm h.checkpointFits
      (by rw [hnone, hrest, List.append_nil]; exact ⟨hbehind, Or.inl rfl⟩)
  rw [hnone, List.append_nil] at hrun hrec hempty
  have hwater : forgetLost name ⟨encodeAll hash rs, after⟩ = ⟨encodeAll hash rs, after⟩ := by
    unfold forgetLost
    rw [if_neg (Nat.not_lt.mpr h.packHighWater_le)]
  have hobjects : c.objects = after.objects := h.objects_eq hrec h.exactIndex.elsewhere
  have hcheckpoint : c.packCheckpoint name = after.packCheckpoint name := by
    by_cases hnil : rs = []
    · subst hnil
      rw [hempty rfl, hwater]
      exact trustedCheckpoint_of_nil hash durableLen name h
    · rcases h.checkpoint with hk | ⟨-, hk⟩
      · rcases hrec.checkpoint with hk' | ⟨-, hk'⟩
        · rw [hk, hk']
        · exact absurd hk' hnil
      · exact absurd hk hnil
  have hcheckpoints : c.checkpoints = after.checkpoints := by
    apply OrdMap.ext_get?
    intro p
    by_cases hp : p = name
    · subst hp
      exact hcheckpoint
    · exact hrec.others p hp
  have hkept : c.caches = after.caches := by
    rw [hcaches, recoveredCaches, if_neg]
    rw [not_or, hrest]
    exact ⟨Nat.not_lt.mpr h.packHighWater_le, fun hne => hne rfl⟩
  rw [hrun]
  cases c
  simp only at hobjects hcheckpoints hkept
  rw [hobjects, hcheckpoints, hkept]

/-! ## The whole -/

/-- The catalog without the checkpoint of the pack: recovery then starts from byte 0. -/
def Catalog.forgetCheckpoint (c : Catalog R) : Catalog R :=
  { c with checkpoints := c.checkpoints.erase name }

/-- Without a checkpoint there is nothing to fit. -/
theorem checkpointFits_forgetCheckpoint (rs : List PackRecord) (c : Catalog R) :
    CheckpointFits hash name rs (c.forgetCheckpoint name) := by
  intro k hk
  simp [Catalog.forgetCheckpoint, Catalog.packCheckpoint, OrdMap.get?_erase] at hk

/-- **Recovery is exact, repeatable and never cuts below the frontier.**

* Whatever the state, the pack stays as it is or recovery succeeds with a prefix of it that the
  frontier does not pass; a pack whose valid records end below the frontier is refused.
* After a crash recovery succeeds, cuts the pack to its valid records and leaves their exact
  index.  Starting from byte 0 leads to the same pack, rows, caches and checkpoint, and a second
  recovery changes nothing.

**Proof sketch.** `recoverPack_droppable` says what recovery does from any checkpoint that fits,
with or without one, and the state it leaves fits again (`Recovered.checkpointFits`), so that
the same lemma describes the second recovery. -/
theorem recoverPack_exact :
    (∀ s : PackState R,
      (recoverPackUnderCatalogLock hash durableLen name s).2.pack = s.pack ∨
        ((recoverPackUnderCatalogLock hash durableLen name s).1 = .ok () ∧
          ∃ n, (recoverPackUnderCatalogLock hash durableLen name s).2.pack = s.pack.take n ∧
            ∀ d, durableLen = some d → d ≤ n)) ∧
    (∀ (rs : List PackRecord) (tail : Bytes) (c : Catalog R) (d : ℕ), durableLen = some d →
      CheckpointFits hash name rs c →
      (encodeAll hash (validRecords hash (encodeAll hash rs ++ tail))).length < d →
      ∃ error c', recoverPackUnderCatalogLock hash durableLen name ⟨encodeAll hash rs ++ tail, c⟩ =
        (.error error, ⟨encodeAll hash rs ++ tail, c'⟩)) ∧
    (∀ (rs : List PackRecord) (tail : Bytes) (c : Catalog R),
      RecoverablePack hash durableLen rs tail → CheckpointFits hash name rs c →
      let valid := validRecords hash (encodeAll hash rs ++ tail)
      ∃ c', recoverPackUnderCatalogLock hash durableLen name ⟨encodeAll hash rs ++ tail, c⟩ =
          (.ok (), ⟨encodeAll hash valid, c'⟩) ∧
        rs <+: valid ∧ encodeAll hash valid <+: encodeAll hash rs ++ tail ∧
        ExactIndex hash name valid c c' ∧
        (∃ c₀, recoverPackUnderCatalogLock hash durableLen name
            ⟨encodeAll hash rs ++ tail, c.forgetCheckpoint name⟩ =
              (.ok (), ⟨encodeAll hash valid, c₀⟩) ∧
          c₀.objects = c'.objects ∧ c₀.caches = c'.caches ∧
          ∀ p, (c₀.packCheckpoint p).getD .zero = (c'.packCheckpoint p).getD .zero) ∧
        recoverPackUnderCatalogLock hash durableLen name ⟨encodeAll hash valid, c'⟩ =
          (.ok (), ⟨encodeAll hash valid, c'⟩)) := by
  refine ⟨recoverPack_keeps_frontier hash durableLen name, ?_, ?_⟩
  · intro rs tail c d hd hfits hlt
    rw [validRecords_encodeAll] at hlt
    obtain ⟨⟨error, herror⟩, hpack⟩ := recoverPack_below_frontier hash durableLen name hd
      (s := ⟨encodeAll hash rs ++ tail, c⟩) rfl hfits hlt
    cases hrun :
      recoverPackUnderCatalogLock hash durableLen name ⟨encodeAll hash rs ++ tail, c⟩ with
    | mk result s =>
      rw [hrun] at herror hpack
      simp only at herror hpack
      exact ⟨error, s.catalog, by rw [herror, ← hpack]⟩
  · intro rs tail c hrecoverable hfits valid
    have hvalid : valid = rs ++ validRecords hash tail := validRecords_encodeAll hash rs tail
    obtain ⟨c', hrun, hrec, hcaches, -⟩ := recoverPack_droppable hash durableLen name
      (s := ⟨encodeAll hash rs ++ tail, c⟩) rfl hfits hrecoverable.droppable
    obtain ⟨c₀, hrun₀, hrec₀, hcaches₀, -⟩ := recoverPack_droppable hash durableLen name
      (s := ⟨encodeAll hash rs ++ tail, c.forgetCheckpoint name⟩) rfl
      (checkpointFits_forgetCheckpoint hash name rs c) hrecoverable.droppable
    rw [← hvalid] at hrun hrec hrun₀ hrec₀
    have hbehind : ∀ d, durableLen = some d → d ≤ (encodeAll hash valid).length := by
      rw [hvalid]
      exact hrecoverable.droppable.behind
    refine ⟨c', hrun, prefix_validRecords hash rs tail, ?_, hrec.exactIndex,
      ⟨c₀, hrun₀, hrec.objects_eq hrec₀ fun _ => rfl, hcaches₀.trans hcaches.symm, fun p => ?_⟩,
      recoverPack_again hash durableLen name hrec hbehind⟩
    · obtain ⟨t, -, ht, -⟩ := validRecords_partition hash (encodeAll hash rs ++ tail)
      exact ⟨t, ht.symm⟩
    · by_cases hp : p = name
      · subst hp
        rw [hrec₀.checkpoint_getD, hrec.checkpoint_getD]
      · rw [hrec₀.others p hp, hrec.others p hp]
        simp [Catalog.forgetCheckpoint, Catalog.packCheckpoint, OrdMap.get?_erase, hp]

end

/-! ## A sample pack -/

/-- BLAKE3 on the inputs of the samples, as a table. -/
def sampleHash (bytes : Bytes) : ObjectId :=
  if bytes = text "a" then
    ⟨[23, 118, 47, 221, 217, 105, 164, 83, 146, 93, 101, 113, 122, 195, 238, 162,
      19, 32, 182, 107, 84, 52, 47, 222, 21, 18, 141, 108, 175, 33, 33, 95], rfl⟩
  else if bytes = ObjectKind.domain .Chunk ++ text "a" then
    ⟨[129, 61, 255, 157, 159, 216, 121, 15, 251, 139, 165, 243, 89, 185, 0, 18,
      254, 199, 34, 12, 93, 71, 218, 26, 205, 50, 125, 96, 97, 185, 15, 146], rfl⟩
  else .fill 0

/-- The record of the chunk `a`. -/
def sampleRecord : PackRecord := ⟨.Chunk, text "a", by decide⟩

/-- The name of the sample pack. -/
def samplePack : PackName := text "p"

/-- The index of a pack with the sample record alone. -/
def sampleCatalog : Catalog Unit :=
  (insertAll sampleHash samplePack 0 [sampleRecord] .empty).setPackCheckpoint samplePack
    (checkpointOf sampleHash [sampleRecord])

/-- The sample index is as recovery would leave it. -/
theorem recovered_sampleCatalog :
    Recovered sampleHash samplePack [sampleRecord] (.empty : Catalog Unit) sampleCatalog := by
  refine ⟨fun id => ?_, Or.inl (Catalog.packCheckpoint_setPackCheckpoint _ _ _), fun p hp => ?_⟩
  · rw [sampleCatalog, Catalog.object_setPackCheckpoint, object_insertAll]
    rfl
  · rw [sampleCatalog, Catalog.setPackCheckpoint, Catalog.packCheckpoint, OrdMap.get?_insert,
      if_neg hp, checkpoints_insertAll]
    rfl

/-- A record and the first ten bytes of another one, with a checkpoint behind the first:
recovery cuts the ten bytes off. -/
theorem recoverPack_exact_sample :
    RecoverablePack sampleHash none [sampleRecord] ((sampleRecord.encode sampleHash).take 10) ∧
      CheckpointFits sampleHash samplePack [sampleRecord] sampleCatalog ∧
      ∃ c', recoverPackUnderCatalogLock sampleHash none samplePack
          ⟨encodeAll sampleHash [sampleRecord] ++ (sampleRecord.encode sampleHash).take 10,
            sampleCatalog⟩ = (.ok (), ⟨encodeAll sampleHash [sampleRecord], c'⟩) := by
  have hpack : RecoverablePack sampleHash none [sampleRecord]
      ((sampleRecord.encode sampleHash).take 10) := by
    refine ⟨List.nodup_singleton _, fun d hd => absurd hd (by simp), Or.inl
      ⟨sampleRecord, (sampleRecord.encode sampleHash).drop 10, by decide,
        List.take_append_drop 10 _⟩⟩
  have hfits := recovered_sampleCatalog.checkpointFits
  have hvalid : validRecords sampleHash (encodeAll sampleHash [sampleRecord] ++
      (sampleRecord.encode sampleHash).take 10) = [sampleRecord] := by decide
  obtain ⟨c', hrun, -⟩ := (recoverPack_exact sampleHash none samplePack).2.2 _ _ _ hpack hfits
  rw [hvalid] at hrun
  exact ⟨hpack, hfits, c', hrun⟩

/-- A valid record behind the frontier that repeats an identifier gets no row of its own. -/
theorem recoverPack_repeated_record :
    RecoverablePack sampleHash (some 83) [sampleRecord] (sampleRecord.encode sampleHash) ∧
      CheckpointFits sampleHash samplePack [sampleRecord] (.empty : Catalog Unit) ∧
      validRecords sampleHash (encodeAll sampleHash [sampleRecord] ++
        sampleRecord.encode sampleHash) = [sampleRecord, sampleRecord] ∧
      (recoverPackUnderCatalogLock sampleHash (some 83) samplePack
        ⟨encodeAll sampleHash [sampleRecord] ++ sampleRecord.encode sampleHash,
          (.empty : Catalog Unit)⟩).1 = .ok () ∧
      ((recoverPackUnderCatalogLock sampleHash (some 83) samplePack
        ⟨encodeAll sampleHash [sampleRecord] ++ sampleRecord.encode sampleHash,
          (.empty : Catalog Unit)⟩).2.catalog.packRows samplePack).length = 1 := by
  refine ⟨⟨List.nodup_singleton _, fun d hd => ?_, Or.inr rfl⟩, fun k hk => ?_, ?_, ?_, ?_⟩
  · rw [← Option.some.inj hd]
    decide
  · exact absurd hk (by simp [Catalog.empty, Catalog.packCheckpoint])
  · decide +kernel
  · decide +kernel
  · decide +kernel

end Furrow
