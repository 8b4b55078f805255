import Furrow.Sync.Pull

set_option relaxedAutoImplicit false
set_option autoImplicit false

/-!
# Streaming

How the streaming pull compares with the plain one.  A plan asks for the files of the snapshot, one
after the other, and a file is taken with its chunks in one batch.  The batch has a chunk as often
as the file has it, if no file before has brought it; it is then fetched, or reused, as often.

## Main definitions

* `Furrow.Listed` — what the snapshot and its trees refer to.
* `Furrow.ChunksOnce` — no file of a plan has a chunk twice that is not in a file before it.

## Main results

* `Furrow.PullInv.fetchPlan` — what the files of a plan add to the objects that were processed.
* `Furrow.streamingPull_matches_iff` — when the two pulls fetch and count alike.
-/

namespace Furrow

section

variable {hash : Bytes → ObjectId} {codec : ObjectCodec} {remote : PullRemote}
  {store : NamedStore hash} {st st' : PullState hash} {os os' again again' : List BundleObject}
  {items : List (ObjectId × ObjectKind)}

/-! ## The files of a plan -/

/-- What the snapshot and its trees refer to. -/
inductive Listed (codec : ObjectCodec) (remote : PullRemote) (store : NamedStore hash) :
    ObjectId × ObjectKind → Prop
  | snapshot : Listed codec remote store (remote.snapshot, .Snapshot)
  | edge {x e : ObjectId × ObjectKind} {bytes : Bytes} {es : List (ObjectId × ObjectKind)}
      (hx : Listed codec remote store x) (hkind : x.2 ∈ [ObjectKind.Snapshot, ObjectKind.Tree])
      (hsource : pullSource remote store x.1 = some (x.2, bytes))
      (hes : codec.objectEdges x.2 bytes = .ok es) (he : e ∈ es) : Listed codec remote store e

/-- The chunks of a file. -/
def chunksOf (codec : ObjectCodec) (remote : PullRemote) (store : NamedStore hash)
    (blob : ObjectId) : List ObjectId :=
  match pullSource remote store blob with
  | some (.Blob, bytes) =>
    match codec.blob bytes with
    | some value => value.chunks.map fun chunk => chunk.id
    | none => []
  | _ => []

/-- No file of a plan has a chunk twice that is not in a file before it. -/
def ChunksOnce (chunks : ObjectId → List ObjectId) : List ObjectId → List FileRequest → Prop
  | _, [] => True
  | seen, r :: plan =>
    ((chunks r.blob).filter fun c => c ∉ seen).Nodup ∧
      ChunksOnce chunks (seen ++ chunks r.blob) plan

/-- Once the snapshot and the trees are there, what they refer to is known. -/
theorem PullInv.known_of_listed (h : PullInv codec remote store st os again)
    (hdone : nextBatch st.queue [.Snapshot, .Tree] = []) {x : ObjectId × ObjectKind}
    (hx : Listed codec remote store x) : ∃ b, st.queue.get? x.1 = some (x.2, b) := by
  induction hx with
  | snapshot => exact (h.known_iff _).mpr (Or.inl rfl)
  | @edge x e bytes es _ hkind hsource hes he ih =>
    obtain ⟨b, hb⟩ := ih
    obtain rfl := nextBatch_eq_nil hdone hb hkind
    have ho : (⟨x.1, x.2, bytes⟩ : BundleObject) ∈ os :=
      h.mem_of_key ((h.visited_iff x).mp hb) hsource
    refine (h.known_iff e).mpr (Or.inr ⟨_, ho, ?_⟩)
    rw [BundleObject.stop_edges hes]
    exact he

/-- Of what is known, a request takes what was not processed. -/
theorem pendingItems_of_known {queue : BundleMarks}
    (hknown : ∀ i ∈ items, ∃ b, queue.get? i.1 = some (i.2, b)) :
    pendingItems queue items =
      .ok (queue, items.filter fun i => queue.get? i.1 = some (i.2, false)) := by
  induction items with
  | nil => rfl
  | cons i rest ih =>
    obtain ⟨id, kind⟩ := i
    obtain ⟨b, hb⟩ := hknown (id, kind) List.mem_cons_self
    dsimp only at hb
    have hrest := ih fun j hj => hknown j (List.mem_cons_of_mem _ hj)
    rw [pendingItems, hb]
    cases b with
    | false =>
      dsimp only
      rw [hrest, List.filter_cons_of_pos (by simp [hb])]
      rfl
    | true =>
      dsimp only
      rw [hrest, List.filter_cons_of_neg (by simp [hb])]

/-- **A request processes nothing twice exactly if nothing new is twice in it.** -/
theorem PullInv.fetchPending (h : PullInv codec remote store st os again)
    (hknown : ∀ i ∈ items, ∃ b, st.queue.get? i.1 = some (i.2, b))
    (hok : fetchPending codec remote st items = .ok st') :
    ∃ os' again', PullInv codec remote store st' os' again' ∧ os ⊆ os' ∧
      (∀ x, x ∈ os'.map BundleObject.key ↔ x ∈ os.map BundleObject.key ∨ x ∈ items) ∧
      again.length ≤ again'.length ∧ (again'.length = again.length ↔
        (items.filter fun i => i ∉ os.map BundleObject.key).Nodup) := by
  unfold Furrow.fetchPending at hok
  rw [pendingItems_of_known hknown] at hok
  set batch := items.filter fun i => st.queue.get? i.1 = some (i.2, false) with hbatch
  have hpending : ∀ i ∈ batch, st.queue.get? i.1 = some (i.2, false) := by
    intro i hi
    simpa using (List.mem_filter.mp hi).2
  obtain ⟨os', again', hadv⟩ := h.fetchBatch hpending hok
  obtain ⟨hle, hiff⟩ := hadv.length_eq_iff h fun i hi => h.key_not_mem_of_pending (hpending i hi)
  -- What is known is pending or was processed.
  have hcases : ∀ i ∈ items, st.queue.get? i.1 = some (i.2, false) ↔
      i ∉ os.map BundleObject.key := by
    intro i hi
    obtain ⟨b, hb⟩ := hknown i hi
    rw [← h.visited_iff, hb]
    cases b <;> simp
  have hfilter : batch = items.filter fun i => i ∉ os.map BundleObject.key := by
    rw [hbatch]
    apply List.filter_congr
    intro i hi
    simp only [hcases i hi]
  refine ⟨os', again', hadv.inv, hadv.subset, ?_, hle, hfilter ▸ hiff⟩
  intro x
  rw [hadv.keys, hfilter, List.mem_filter]
  constructor
  · rintro (hold | hnew)
    · exact Or.inl hold
    · exact Or.inr hnew.1
  · rintro (hold | hnew)
    · exact Or.inl hold
    · by_cases hx : x ∈ os.map BundleObject.key
      · exact Or.inl hx
      · exact Or.inr ⟨hnew, by simpa using hx⟩

/-- One object of the list advances the pull, also if it is done already. -/
theorem PullInv.fetchPending_one (h : PullInv codec remote store st os again)
    {i : ObjectId × ObjectKind} (hknown : ∃ b, st.queue.get? i.1 = some (i.2, b))
    (hok : Furrow.fetchPending codec remote st [i] = .ok st') :
    ∃ os' again', PullInv codec remote store st' os' again' ∧ os ⊆ os' ∧
      (∀ x, x ∈ os'.map BundleObject.key ↔ x ∈ os.map BundleObject.key ∨ x = i) ∧
      again'.length = again.length := by
  have hknown' : ∀ j ∈ [i], ∃ b, st.queue.get? j.1 = some (j.2, b) := by
    intro j hj
    rw [List.mem_singleton.mp hj]
    exact hknown
  obtain ⟨os', again', hinv, hsub, hkeys, -, hiff⟩ := h.fetchPending hknown' hok
  have hnodup : ([i].filter fun i => i ∉ os.map BundleObject.key).Nodup :=
    (List.nodup_singleton i).filter _
  exact ⟨os', again', hinv, hsub, by simpa using hkeys, hiff.mpr hnodup⟩

/-- A file's chunks are what its blob, once processed, refers to. -/
theorem chunksOf_eq {blob : ObjectId} {bytes : Bytes} {value : Blob}
    (hsource : pullSource remote store blob = some (.Blob, bytes))
    (hvalue : codec.blob bytes = some value) :
    chunksOf codec remote store blob = value.chunks.map fun chunk => chunk.id := by
  unfold chunksOf
  simp only [hsource, hvalue]

/-- **A file is taken.** -/
theorem PullInv.fetchFile (h : PullInv codec remote store st os again) {blob : ObjectId}
    {seen : List ObjectId} (hknown : ∃ b, st.queue.get? blob = some (.Blob, b))
    (hseen : ∀ c, (c, .Chunk) ∈ os.map BundleObject.key ↔ c ∈ seen)
    (hok : fetchFile codec remote st blob = .ok st') :
    ∃ os' again', PullInv codec remote store st' os' again' ∧ os ⊆ os' ∧
      (∀ c, (c, .Chunk) ∈ os'.map BundleObject.key ↔ c ∈ seen ++ chunksOf codec remote store blob) ∧
      again.length ≤ again'.length ∧ (again'.length = again.length ↔
        ((chunksOf codec remote store blob).filter fun c => c ∉ seen).Nodup) := by
  unfold Furrow.fetchFile at hok
  cases hblob : Furrow.fetchPending codec remote st [(blob, .Blob)] with
  | error e =>
    rw [hblob] at hok
    exact absurd hok (by simp [bind, Except.bind])
  | ok mid =>
    rw [hblob] at hok
    obtain ⟨os₁, again₁, hinv₁, hsub₁, hkeys₁, hlength₁⟩ :=
      h.fetchPending_one (i := (blob, .Blob)) hknown hblob
    obtain ⟨o, ho, hkey⟩ := List.mem_map.mp ((hkeys₁ (blob, .Blob)).mpr (Or.inr rfl))
    obtain ⟨rfl, hkind⟩ := Prod.mk.inj hkey
    have hget := hinv₁.get?_of_mem ho
    have hsource := hinv₁.source o ho
    rw [hkind] at hget hsource
    simp only [bind, Except.bind, NamedStore.readBytes_of_get? hget] at hok
    cases hvalue : codec.blob o.bytes with
    | none =>
      rw [hvalue] at hok
      exact absurd hok (by simp)
    | some value =>
      rw [hvalue] at hok
      dsimp only at hok
      have hchunks := chunksOf_eq hsource hvalue
      have hitems : (value.chunks.map fun chunk => (chunk.id, ObjectKind.Chunk)) =
          (chunksOf codec remote store o.id).map fun c => (c, ObjectKind.Chunk) := by
        rw [hchunks, List.map_map]
        rfl
      rw [hitems] at hok
      -- The chunks are known since the blob was processed.
      have hedges : (o.stop codec).edges =
          (chunksOf codec remote store o.id).map fun c => (c, ObjectKind.Chunk) := by
        rw [← hitems]
        apply BundleObject.stop_edges
        rw [hkind, ObjectCodec.objectEdges, hvalue]
      obtain ⟨os', again', hinv, hsub, hkeys, hle, hiff⟩ := hinv₁.fetchPending
        (fun i hi => (hinv₁.known_iff i).mpr (Or.inr ⟨o, ho, hedges ▸ hi⟩)) hok
      have hseen₁ : ∀ c, (c, ObjectKind.Chunk) ∈ os₁.map BundleObject.key ↔ c ∈ seen := by
        intro c
        rw [hkeys₁, hseen]
        simp
      refine ⟨os', again', hinv, fun q hq => hsub (hsub₁ hq), ?_, hlength₁ ▸ hle, ?_⟩
      · intro c
        rw [hkeys, hseen₁, List.mem_append]
        simp
      · rw [← hlength₁, hiff, List.filter_map, List.nodup_map_iff (fun a b hab =>
          (Prod.mk.inj hab).1)]
        apply iff_of_eq
        congr 1
        apply List.filter_congr
        intro c _
        simp only [Function.comp_apply, hseen₁]

/-- **The files of a plan are taken**: nothing twice exactly if no file has a chunk twice that is
not in a file before it. -/
theorem PullInv.fetchPlan (h : PullInv codec remote store st os again) {plan : List FileRequest}
    {seen : List ObjectId}
    (hknown : ∀ r ∈ plan, (∃ b, st.queue.get? r.blob = some (.Blob, b)) ∧
      ∀ x, r.xattrs = some x → ∃ b, st.queue.get? x = some (.Xattrs, b))
    (hseen : ∀ c, (c, .Chunk) ∈ os.map BundleObject.key ↔ c ∈ seen)
    (hok : fetchPlan codec remote st plan = .ok st') :
    ∃ os' again', PullInv codec remote store st' os' again' ∧ again.length ≤ again'.length ∧
      (again'.length = again.length ↔ ChunksOnce (chunksOf codec remote store) seen plan) := by
  induction plan generalizing st os again seen with
  | nil =>
    obtain rfl := Except.ok.inj hok
    exact ⟨os, again, h, le_rfl, iff_of_true rfl trivial⟩
  | cons r plan ih =>
    obtain ⟨hblob, hxattrs⟩ := hknown r List.mem_cons_self
    rw [Furrow.fetchPlan] at hok
    cases hrequest : fetchRequest codec remote st r with
    | error e =>
      rw [hrequest] at hok
      exact absurd hok (by simp [bind, Except.bind])
    | ok mid =>
      rw [hrequest] at hok
      unfold fetchRequest at hrequest
      cases hfile : Furrow.fetchFile codec remote st r.blob with
      | error e =>
        rw [hfile] at hrequest
        exact absurd hrequest (by simp [bind, Except.bind])
      | ok file =>
        rw [hfile] at hrequest
        obtain ⟨os₁, again₁, hinv₁, hsub₁, hseen₁, hle₁, hiff₁⟩ := h.fetchFile hblob hseen hfile
        -- The extended attributes are one more object, and no chunk.
        obtain ⟨os₂, again₂, hinv₂, hsub₂, hseen₂, hlength₂⟩ : ∃ os₂ again₂,
            PullInv codec remote store mid os₂ again₂ ∧ os₁ ⊆ os₂ ∧
            (∀ c, (c, ObjectKind.Chunk) ∈ os₂.map BundleObject.key ↔
              (c, ObjectKind.Chunk) ∈ os₁.map BundleObject.key) ∧
            again₂.length = again₁.length := by
          cases hx : r.xattrs with
          | none =>
            simp only [bind, Except.bind, hx] at hrequest
            obtain rfl := Except.ok.inj hrequest
            exact ⟨os₁, again₁, hinv₁, List.Subset.refl os₁, fun _ => Iff.rfl, rfl⟩
          | some x =>
            simp only [bind, Except.bind, hx] at hrequest
            obtain ⟨os₂, again₂, hinv₂, hsub₂, hkeys₂, hlength₂⟩ := hinv₁.fetchPending_one
              (i := (x, .Xattrs)) (h.known_mono hinv₁ hsub₁ (hxattrs x hx)) hrequest
            refine ⟨os₂, again₂, hinv₂, hsub₂, ?_, hlength₂⟩
            intro c
            rw [hkeys₂]
            simp
        have hsub : os ⊆ os₂ := fun o ho => hsub₂ (hsub₁ ho)
        obtain ⟨os', again', hinv, hle, hiff⟩ := ih hinv₂
          (by
            intro q hq
            obtain ⟨hqblob, hqxattrs⟩ := hknown q (List.mem_cons_of_mem _ hq)
            exact ⟨h.known_mono hinv₂ hsub (x := (q.blob, .Blob)) hqblob,
              fun x hx => h.known_mono hinv₂ hsub (x := (x, .Xattrs)) (hqxattrs x hx)⟩)
          (fun c => (hseen₂ c).trans (hseen₁ c)) hok
        refine ⟨os', again', hinv, by omega, ?_⟩
        rw [ChunksOnce, ← hiff₁, ← hiff]
        omega

/-! ## The two ways to pull -/

/-- What a streaming pull has processed. -/
theorem PullInv.of_streamingPull {fuel : ℕ} {plan : List FileRequest}
    (hplan : ∀ r ∈ plan, Listed codec remote store (r.blob, .Blob) ∧
      ∀ x, r.xattrs = some x → Listed codec remote store (x, .Xattrs))
    (h : streamingPull codec remote fuel store plan = .ok st) :
    ∃ os again, PullInv codec remote store st os again ∧ Tour.Done st.queue ∧
      verifyPull codec remote st = .ok st ∧
      (again = [] ↔ ChunksOnce (chunksOf codec remote store) [] plan) := by
  unfold streamingPull at h
  cases hskeleton : fetchSkeleton codec remote fuel store with
  | error e =>
    rw [hskeleton] at h
    exact absurd h (by simp [bind, Except.bind])
  | ok skeleton =>
    rw [hskeleton] at h
    cases hfiles : Furrow.fetchPlan codec remote skeleton plan with
    | error e => exact absurd h (by simp [bind, Except.bind, hfiles])
    | ok files =>
      cases hdrain : Furrow.drainKinds codec remote allKinds fuel files with
      | error e => exact absurd h (by simp [bind, Except.bind, hfiles, hdrain])
      | ok last =>
        simp only [bind, Except.bind, hfiles, hdrain] at h
        obtain ⟨rfl, hverified⟩ := verifyPull_eq_ok_iff.mp h
        obtain ⟨os₁, again₁, hinv₁, hlength₁, -, hkinds, hdone₁⟩ :=
          (PullInv.start codec remote store).drainKinds hskeleton
        -- No chunk is taken with the trees.
        have hseen : ∀ c, (c, ObjectKind.Chunk) ∈ os₁.map BundleObject.key ↔
            c ∈ ([] : List ObjectId) := by
          intro c
          constructor
          · intro hc
            obtain ⟨o, ho, hkey⟩ := List.mem_map.mp hc
            rcases hkinds o ho with hnil | hkind
            · exact absurd hnil (by simp)
            · rw [show o.kind = .Chunk from congrArg Prod.snd hkey] at hkind
              exact absurd hkind (by decide)
          · simp
        obtain ⟨os₂, again₂, hinv₂, -, hiff⟩ := hinv₁.fetchPlan
          (fun r hr => ⟨hinv₁.known_of_listed hdone₁ (hplan r hr).1,
            fun x hx => hinv₁.known_of_listed hdone₁ ((hplan r hr).2 x hx)⟩) hseen hfiles
        obtain ⟨os', again', hinv, hlength, -, -, hdone⟩ := hinv₂.drainKinds hdrain
        refine ⟨os', again', hinv, done_of_nextBatch hdone, h, ?_⟩
        rw [← hiff, ← List.length_eq_zero_iff, hlength, hlength₁]
        rfl

/-- What was processed once and was not in the store was asked for once. -/
theorem PullInv.count_requests (h : PullInv codec remote store st os []) {id : ObjectId}
    (hid : id ∈ os.map BundleObject.id) (habsent : store.objects.get? id = none) :
    st.requests.count id = 1 := by
  have hcount : os.countP (fun o => !store.has o && o.id = id) =
      (os.map BundleObject.id).count id := by
    rw [List.count_eq_countP, List.countP_map]
    apply List.countP_congr
    intro o _
    by_cases ho : o.id = id
    · simp [ho, NamedStore.has, habsent]
    · simp [ho]
  rw [h.requests, List.append_nil, hcount]
  exact List.count_eq_one_of_mem h.nodup hid

/-- **The streaming pull matches the plain one**, on a plan for files of the snapshot, exactly if no
file of the plan has a chunk twice that is not in a file before it. -/
theorem streamingPull_matches_iff (codec : ObjectCodec) (remote : PullRemote)
    (store : NamedStore hash) (plan : List FileRequest) (fuel : ℕ) (st : PullState hash)
    (hplan : ∀ r ∈ plan, Listed codec remote store (r.blob, .Blob) ∧
      ∀ x, r.xattrs = some x → Listed codec remote store (x, .Xattrs))
    (hok : streamingPull codec remote fuel store plan = .ok st) :
    (∃ fuel' st', pullOn codec remote fuel' store = .ok st' ∧ st.store = st'.store ∧
      st.fetchedObjects = st'.fetchedObjects ∧ st.reusedObjects = st'.reusedObjects ∧
      ∀ id, Closure codec st.store.objects remote.snapshot id → store.objects.get? id = none →
        st.requests.count id = 1) ↔
    ChunksOnce (chunksOf codec remote store) [] plan := by
  obtain ⟨os, again, hinv, hdone, hverify, hiff⟩ := PullInv.of_streamingPull hplan hok
  rw [← hiff]
  constructor
  · rintro ⟨fuel', st', hpull, -, hfetched, hreused, -⟩
    obtain ⟨os', hinv', hdone'⟩ := PullInv.of_pullOn hpull
    have hperm := hinv.perm_of_done hinv' hdone hdone'
    -- The counters differ by what was processed once more.
    rw [hinv.fetched, hinv'.fetched, List.append_nil, List.countP_append, hperm.countP_eq]
      at hfetched
    rw [hinv.reused, hinv'.reused, List.append_nil, List.countP_append, hperm.countP_eq] at hreused
    have hall := List.length_eq_countP_add_countP store.has (l := again)
    apply List.length_eq_zero_iff.mp
    have hnot : again.countP (fun o => !store.has o) =
        again.countP (fun o => decide ¬ (store.has o = true)) := by
      apply List.countP_congr
      intro o _
      simp
    omega
  · rintro rfl
    obtain ⟨fuel', st', hpull⟩ := hinv.exists_pullOn hdone hverify
    obtain ⟨os', hinv', hdone'⟩ := PullInv.of_pullOn hpull
    have hperm := hinv.perm_of_done hinv' hdone hdone'
    refine ⟨fuel', st', hpull, hinv.store_eq_of_done hinv' hdone hdone', ?_, ?_, ?_⟩
    · rw [hinv.fetched, hinv'.fetched, List.append_nil, List.append_nil, hperm.countP_eq]
    · rw [hinv.reused, hinv'.reused, List.append_nil, List.append_nil, hperm.countP_eq]
    · intro id hid habsent
      refine hinv.count_requests ?_ habsent
      exact (closure_iff_of_tour hinv.tour hdone (fun o ho => hinv.get?_of_mem ho)
        hinv.readable id).mp hid

end

/-! ## A snapshot of two files -/

/-- The remote that has the objects. -/
def pulledRemote : PullRemote where
  snapshot := sharedSnapshotId
  root := sharedTreeId
  object id :=
    if id = sharedChunkId then some (.Chunk, sharedChunkBytes, 64)
    else if id = sharedOnceId then some (.Blob, sharedOnceBytes, 256)
    else if id = sharedTwiceId then some (.Blob, sharedTwiceBytes, 384)
    else if id = sharedTreeId then some (.Tree, sharedTreeBytes, 640)
    else if id = sharedSnapshotId then some (.Snapshot, sharedSnapshotBytes, 448)
    else none

/-- A store without objects. -/
def pulledStore : NamedStore sharedHash := ⟨OrdMap.empty, by simp⟩

/-- What the two pulls report. -/
def PullState.report {hash : Bytes → ObjectId} (st : PullState hash) : ℕ × ℕ × List ObjectId :=
  (st.fetchedObjects, st.reusedObjects, st.requests)

/-- A pull that reports has succeeded. -/
theorem exists_of_report {hash : Bytes → ObjectId} {x : Except PullError (PullState hash)}
    {r : ℕ × ℕ × List ObjectId} (h : x.toOption.map PullState.report = some r) :
    ∃ st, x = .ok st ∧ st.report = r := by
  cases x with
  | error e => exact absurd h (by simp [Except.toOption])
  | ok st => exact ⟨st, rfl, Option.some.inj h⟩

/-- Both files are listed. -/
theorem listed_pulled {blob : ObjectId} (h : blob = sharedOnceId ∨ blob = sharedTwiceId) :
    Listed sharedCodec pulledRemote pulledStore (blob, .Blob) := by
  have hsnapshot : pullSource pulledRemote pulledStore sharedSnapshotId =
      some (.Snapshot, sharedSnapshotBytes) := by decide +kernel
  have htree :
      pullSource pulledRemote pulledStore sharedTreeId = some (.Tree, sharedTreeBytes) := by
    decide +kernel
  have hroot : sharedCodec.objectEdges .Snapshot sharedSnapshotBytes =
      .ok [(sharedTreeId, .Tree)] := by decide +kernel
  have hfiles : sharedCodec.objectEdges .Tree sharedTreeBytes =
      .ok [(sharedOnceId, .Blob), (sharedTwiceId, .Blob)] := by decide +kernel
  have hlisted : Listed sharedCodec pulledRemote pulledStore (sharedTreeId, .Tree) :=
    .edge .snapshot List.mem_cons_self hsnapshot hroot List.mem_cons_self
  refine .edge hlisted (List.mem_cons_of_mem _ List.mem_cons_self) htree hfiles ?_
  rcases h with rfl | rfl
  · exact List.mem_cons_self
  · exact List.mem_cons_of_mem _ List.mem_cons_self

/-- The chunk of the file that has it once. -/
theorem chunksOf_pulledOnce :
    chunksOf sharedCodec pulledRemote pulledStore sharedOnceId = [sharedChunkId] := by
  decide

/-- The chunks of the file that has it twice. -/
theorem chunksOf_pulledTwice : chunksOf sharedCodec pulledRemote pulledStore sharedTwiceId =
    [sharedChunkId, sharedChunkId] := by
  decide +kernel

/-- Both files are listed: the chunk is fetched once. -/
theorem report_onceTwice : (streamingPull sharedCodec pulledRemote 5 pulledStore
    [⟨sharedOnceId, none⟩, ⟨sharedTwiceId, none⟩]).toOption.map PullState.report =
      some (5, 0,
        [sharedSnapshotId, sharedTreeId, sharedOnceId, sharedChunkId, sharedTwiceId]) := by
  decide +kernel

/-- The file that has the chunk twice is listed: the chunk is fetched twice. -/
theorem report_twice : (streamingPull sharedCodec pulledRemote 5 pulledStore
    [⟨sharedTwiceId, none⟩]).toOption.map PullState.report =
      some (6, 0, [sharedSnapshotId, sharedTreeId, sharedTwiceId, sharedChunkId, sharedChunkId,
        sharedOnceId]) := by
  decide +kernel

/-- The pull without a list. -/
theorem report_plain :
    (pullOn sharedCodec pulledRemote 5 pulledStore).toOption.map PullState.report = some (5, 0,
      [sharedSnapshotId, sharedTreeId, sharedOnceId, sharedTwiceId, sharedChunkId]) := by
  decide +kernel

/-- After a file with the chunk, a file that has it twice is pulled as by the plain pull. -/
theorem streamingPull_matches_sample :
    ∃ st fuel' st', streamingPull sharedCodec pulledRemote 5 pulledStore
        [⟨sharedOnceId, none⟩, ⟨sharedTwiceId, none⟩] = .ok st ∧
      pullOn sharedCodec pulledRemote fuel' pulledStore = .ok st' ∧ st.store = st'.store ∧
      st.fetchedObjects = st'.fetchedObjects ∧ st.reusedObjects = st'.reusedObjects ∧
      st.fetchedObjects = 5 := by
  obtain ⟨st, hst, hreport⟩ := exists_of_report report_onceTwice
  have hplan : ∀ r ∈ [(⟨sharedOnceId, none⟩ : FileRequest), ⟨sharedTwiceId, none⟩],
      Listed sharedCodec pulledRemote pulledStore (r.blob, .Blob) ∧
        ∀ x, r.xattrs = some x → Listed sharedCodec pulledRemote pulledStore (x, .Xattrs) := by
    intro r hr
    simp only [List.mem_cons, List.not_mem_nil, or_false] at hr
    rcases hr with rfl | rfl
    · exact ⟨listed_pulled (Or.inl rfl), by simp⟩
    · exact ⟨listed_pulled (Or.inr rfl), by simp⟩
  have honce : ChunksOnce (chunksOf sharedCodec pulledRemote pulledStore) []
      [⟨sharedOnceId, none⟩, ⟨sharedTwiceId, none⟩] := by
    simp only [ChunksOnce, chunksOf_pulledOnce, chunksOf_pulledTwice]
    simp
  obtain ⟨fuel', st', hpull, hstore, hfetched, hreused, -⟩ :=
    (streamingPull_matches_iff sharedCodec pulledRemote pulledStore _ 5 st hplan hst).mpr honce
  obtain ⟨hcount, -⟩ := Prod.mk.inj hreport
  exact ⟨st, fuel', st', hst, hpull, hstore, hfetched, hreused, hcount⟩

/-- On its own, the file that has the chunk twice has it fetched twice. -/
theorem streamingPull_fetches_twice :
    Listed sharedCodec pulledRemote pulledStore (sharedTwiceId, .Blob) ∧
    ∃ st st', streamingPull sharedCodec pulledRemote 5 pulledStore
      [⟨sharedTwiceId, none⟩] = .ok st ∧
      pullOn sharedCodec pulledRemote 5 pulledStore = .ok st' ∧ st.fetchedObjects = 6 ∧
      st'.fetchedObjects = 5 ∧ st.requests.count sharedChunkId = 2 := by
  obtain ⟨st, hst, hreport⟩ := exists_of_report report_twice
  obtain ⟨st', hst', hreport'⟩ := exists_of_report report_plain
  obtain ⟨hcount, hrest⟩ := Prod.mk.inj hreport
  obtain ⟨-, hrequests⟩ := Prod.mk.inj hrest
  obtain ⟨hcount', -⟩ := Prod.mk.inj hreport'
  refine ⟨listed_pulled (Or.inr rfl), st, st', hst, hst', hcount, hcount', ?_⟩
  rw [hrequests]
  decide

end Furrow
