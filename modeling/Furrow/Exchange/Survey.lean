import Mathlib
import Furrow.Lib.Arrival
import Furrow.Lib.OrdMap
import Furrow.Model

set_option relaxedAutoImplicit false
set_option autoImplicit false

/-!
# What a store holds of a snapshot

The walk of `exchange/survey.rs`.  It goes from a head through the objects of a store, opens
those that are there and lists those that are not.  It can be resumed: an import keeps it over
its passes, and tells it what the objects it stored refer to.

## Main definitions

* `Furrow.RawStore` — the objects of a store as bytes.
* `Furrow.ObjectCodec.objectEdges` — what the bytes of an object refer to.
* `Furrow.Walk`, `Furrow.Walk.explore`, `Furrow.survey` — the walk.
* `Furrow.Complete`, `Furrow.Agree` — a store that holds a whole snapshot, and one that holds the
  same objects as another as far as it goes.

## Main results

* `Furrow.Walk.Inv.explore` — an exploration keeps what is known of a walk.
* `Furrow.survey_spec` — a survey lists what is reached, split by whether it is there.
-/

namespace Furrow

/-- The objects of a store as bytes, by identifier. -/
abbrev RawStore := OrdMap ObjectId (ObjectKind × Bytes)

/-- How the objects that refer to others are read from JSON. -/
structure ObjectCodec where
  snapshot : Bytes → Option Snapshot
  tree : Bytes → Option Tree
  blob : Bytes → Option Blob

/-- What goes wrong in an exchange. -/
inductive ExchangeError
  | outOfFuel
  | missingObject (id : ObjectId)
  | kindMismatch
  | invalidJson
  | importObject (rid : ObjectId)
  | notWanted (rid head : ObjectId)
deriving DecidableEq

/-- What an entry of a tree refers to, with the kinds that are expected there. -/
def TreeEntry.objectEdges (entry : TreeEntry) : List (ObjectId × ObjectKind) :=
  (entry.xattrs.toList.map fun xattrs => (xattrs, ObjectKind.Xattrs)) ++
    match entry.kind, entry.target with
    | .File, some id => [(id, .Blob)]
    | .Directory, some id => [(id, .Tree)]
    | _, _ => []

namespace ObjectCodec

/-- The objects that the bytes of an object refer to, with their kinds. -/
def objectEdges (codec : ObjectCodec) (kind : ObjectKind) (bytes : Bytes) :
    Except ExchangeError (List (ObjectId × ObjectKind)) :=
  match kind with
  | .Snapshot =>
    match codec.snapshot bytes with
    | none => .error .invalidJson
    | some snapshot =>
      .ok ((snapshot.rootTree, .Tree) ::
        snapshot.sqliteBackups.map fun backup => (backup.blob, .Blob))
  | .Tree =>
    match codec.tree bytes with
    | none => .error .invalidJson
    | some tree =>
      .ok ((tree.pages.map fun page => (page.target, .Tree)) ++
        tree.entries.flatMap TreeEntry.objectEdges)
  | .Blob =>
    match codec.blob bytes with
    | none => .error .invalidJson
    | some blob => .ok (blob.chunks.map fun chunk => (chunk.id, .Chunk))
  | .Chunk | .Xattrs => .ok []

end ObjectCodec

namespace RawStore

/-- The bytes of an object that is expected to be of a kind. -/
def readBytes (store : RawStore) (id : ObjectId) (expected : ObjectKind) :
    Except ExchangeError Bytes :=
  match store.get? id with
  | none => .error (.missingObject id)
  | some (kind, bytes) => if kind = expected then .ok bytes else .error .kindMismatch

/-- Put an object into the store, unless there is one under its identifier. -/
def put (store : RawStore) (id : ObjectId) (kind : ObjectKind) (bytes : Bytes) : RawStore :=
  if (store.get? id).isSome then store else store.insert id (kind, bytes)

/-- The identifiers of the objects that are there. -/
def held (store : RawStore) : Set ObjectId := {id | (store.get? id).isSome}

end RawStore

/-! ## The walk -/

/-- A walk that can be resumed: the objects it has met, and those it has not visited yet. -/
structure Walk where
  seen : List ObjectId
  queue : List (ObjectKind × ObjectId)

/-- What a survey found: the objects that are there, and those that are not. -/
structure Survey where
  present : List (ObjectKind × ObjectId)
  missing : List (ObjectKind × ObjectId)
deriving DecidableEq

/-- Chunks and xattrs are leaves, so they are never opened during a walk. -/
def isLeaf : ObjectKind → Bool
  | .Chunk | .Xattrs => true
  | _ => false

namespace Walk

/-- The walk before its first step. -/
def new (head : ObjectId) : Walk := ⟨[head], [(.Snapshot, head)]⟩

/-- Queue an object that was not met before. -/
def enqueue (walk : Walk) (e : ObjectId × ObjectKind) : Walk :=
  if e.1 ∈ walk.seen then walk else ⟨e.1 :: walk.seen, walk.queue ++ [(e.2, e.1)]⟩

/-- Queue what the bytes of an object refer to. -/
def expand (codec : ObjectCodec) (walk : Walk) (kind : ObjectKind) (bytes : Bytes) :
    Except ExchangeError Walk :=
  (codec.objectEdges kind bytes).map fun es => es.foldl enqueue walk

/-- No more missing objects are asked for. -/
def enough (missingLimit : Option ℕ) (found : Survey) : Bool :=
  match missingLimit with
  | none => false
  | some limit => limit ≤ found.missing.length

/-- Visit the objects of the queue, at most `fuel` of them. -/
def exploreUpTo (codec : ObjectCodec) (store : RawStore) (missingLimit : Option ℕ) :
    ℕ → Walk → Survey → Except ExchangeError (Walk × Survey)
  | 0, _, _ => .error .outOfFuel
  | fuel + 1, walk, found =>
    if enough missingLimit found then .ok (walk, found)
    else
      match walk.queue with
      | [] => .ok (walk, found)
      | (kind, id) :: queue =>
        if (store.get? id).isSome then
          let found := { found with present := found.present ++ [(kind, id)] }
          if isLeaf kind then exploreUpTo codec store missingLimit fuel ⟨walk.seen, queue⟩ found
          else do
            let bytes ← store.readBytes id kind
            let walk ← expand codec ⟨walk.seen, queue⟩ kind bytes
            exploreUpTo codec store missingLimit fuel walk found
        else
          exploreUpTo codec store missingLimit fuel ⟨walk.seen, queue⟩
            { found with missing := found.missing ++ [(kind, id)] }

/-- All that the objects of a store refer to. -/
def targets (codec : ObjectCodec) (store : RawStore) : List ObjectId :=
  store.toList.flatMap fun p =>
    match codec.objectEdges p.2.1 p.2.2 with
    | .ok es => es.map Prod.fst
    | .error _ => []

/-- Explore until the queue is empty, or enough objects are known to be missing.  An object is
queued once, so there are no more visits than queued objects and references. -/
def explore (codec : ObjectCodec) (store : RawStore) (missingLimit : Option ℕ) (walk : Walk) :
    Except ExchangeError (Walk × Survey) :=
  exploreUpTo codec store missingLimit (walk.queue.length + (targets codec store).length + 1) walk
    ⟨[], []⟩

end Walk

/-- What a store holds of a snapshot, and what it lacks. -/
def survey (codec : ObjectCodec) (store : RawStore) (head : ObjectId) (missingLimit : Option ℕ) :
    Except ExchangeError Survey :=
  ((Walk.new head).explore codec store missingLimit).map Prod.snd

/-! ## Whole snapshots -/

/-- An object of the store refers to another one. -/
def Refers (codec : ObjectCodec) (store : RawStore) (x y : ObjectId) : Prop :=
  ∃ kind bytes es, store.get? x = some (kind, bytes) ∧ codec.objectEdges kind bytes = .ok es ∧
    y ∈ es.map Prod.fst

/-- The objects that are reached from a head through the objects of a store. -/
def Closure (codec : ObjectCodec) (store : RawStore) (head : ObjectId) : ObjectId → Prop :=
  Arrival.Reach (Refers codec store) head Set.univ

/-- **A store holds a whole snapshot.**  All that is reached from the head is there under the
kind it is referred to with, and can be read. -/
structure Complete (codec : ObjectCodec) (store : RawStore) (head : ObjectId) : Prop where
  snapshot : ∃ bytes, store.get? head = some (.Snapshot, bytes)
  closed : ∀ id, Closure codec store head id → ∀ kind bytes, store.get? id = some (kind, bytes) →
    ∃ es, codec.objectEdges kind bytes = .ok es ∧
      ∀ e ∈ es, ∃ bytes', store.get? e.1 = some (e.2, bytes')

/-- Two stores hold the same object under an identifier they share: identifiers are hashes. -/
def Agree (a b : RawStore) : Prop :=
  ∀ id x y, a.get? id = some x → b.get? id = some y → x = y

/-! ## Queueing -/

section Queue

variable {walk : Walk} {es : List (ObjectId × ObjectKind)}

/-- What is seen after edges are enqueued. -/
theorem Walk.mem_seen_foldl {id : ObjectId} :
    id ∈ (es.foldl Walk.enqueue walk).seen ↔ id ∈ walk.seen ∨ id ∈ es.map Prod.fst := by
  induction es generalizing walk with
  | nil => simp
  | cons e es ih =>
    rw [List.foldl_cons, ih]
    unfold Walk.enqueue
    split_ifs with h
    · simp only [List.map_cons, List.mem_cons]
      constructor
      · rintro (h' | h')
        · exact Or.inl h'
        · exact Or.inr (Or.inr h')
      · rintro (h' | rfl | h')
        · exact Or.inl h'
        · exact Or.inl h
        · exact Or.inr h'
    · simp only [List.map_cons, List.mem_cons]
      tauto

/-- What is queued stays queued. -/
theorem Walk.mem_queue_foldl_of_mem {e : ObjectKind × ObjectId} (h : e ∈ walk.queue) :
    e ∈ (es.foldl Walk.enqueue walk).queue := by
  induction es generalizing walk with
  | nil => exact h
  | cons d es ih =>
    apply ih
    unfold Walk.enqueue
    split_ifs
    · exact h
    · exact List.mem_append_left _ h

/-- What is queued was there, or is one of the edges. -/
theorem Walk.mem_of_mem_queue_foldl {e : ObjectKind × ObjectId}
    (h : e ∈ (es.foldl Walk.enqueue walk).queue) : e ∈ walk.queue ∨ (e.2, e.1) ∈ es := by
  induction es generalizing walk with
  | nil => exact Or.inl h
  | cons d es ih =>
    rcases ih h with h | h
    · unfold Walk.enqueue at h
      split_ifs at h
      · exact Or.inl h
      · rcases List.mem_append.mp h with h | h
        · exact Or.inl h
        · rw [List.mem_singleton.mp h]
          exact Or.inr List.mem_cons_self
    · exact Or.inr (List.mem_cons_of_mem _ h)

/-- What is met for the first time is queued. -/
theorem Walk.queued_of_seen_foldl {id : ObjectId} (h : id ∈ (es.foldl Walk.enqueue walk).seen) :
    id ∈ walk.seen ∨ ∃ kind, (kind, id) ∈ (es.foldl Walk.enqueue walk).queue := by
  induction es generalizing walk with
  | nil => exact Or.inl h
  | cons e es ih =>
    rcases ih h with h | h
    · unfold Walk.enqueue at h
      split_ifs at h with he
      · exact Or.inl h
      · rcases List.mem_cons.mp h with rfl | h
        · refine Or.inr ⟨e.2, ?_⟩
          rw [List.foldl_cons]
          apply Walk.mem_queue_foldl_of_mem
          rw [Walk.enqueue, if_neg he]
          exact List.mem_append_right _ List.mem_cons_self
        · exact Or.inl h
    · exact Or.inr h

/-- The visits that are left: the queued objects, and the references to objects not met yet. -/
def Walk.potential (T : Finset ObjectId) (walk : Walk) : ℕ :=
  walk.queue.length + (T \ walk.seen.toFinset).card

/-- Edges into a set do not raise the potential. -/
theorem Walk.potential_foldl_le {T : Finset ObjectId} (h : ∀ e ∈ es, e.1 ∈ T) :
    (es.foldl Walk.enqueue walk).potential T ≤ walk.potential T := by
  induction es generalizing walk with
  | nil => exact le_rfl
  | cons e es ih =>
    refine (ih fun d hd => h d (List.mem_cons_of_mem _ hd)).trans ?_
    unfold Walk.enqueue
    split_ifs with he
    · exact le_rfl
    · have hmem : e.1 ∈ T \ walk.seen.toFinset := by
        rw [Finset.mem_sdiff, List.mem_toFinset]
        exact ⟨h e List.mem_cons_self, he⟩
      have hdrop : T \ (e.1 :: walk.seen).toFinset = (T \ walk.seen.toFinset).erase e.1 := by
        rw [List.toFinset_cons, Finset.sdiff_insert]
      have hpos := Finset.card_pos.mpr ⟨e.1, hmem⟩
      unfold Walk.potential
      rw [hdrop, Finset.card_erase_of_mem hmem]
      simp only [List.length_append, List.length_singleton]
      omega

end Queue

/-! ## What a walk has met -/

/-- The identifiers of some objects. -/
def idsOf (objects : List (ObjectKind × ObjectId)) : Set ObjectId :=
  {id | ∃ kind, (kind, id) ∈ objects}

/-- The identifiers of two lists. -/
theorem mem_idsOf_append {a b : List (ObjectKind × ObjectId)} {id : ObjectId} :
    id ∈ idsOf (a ++ b) ↔ id ∈ idsOf a ∨ id ∈ idsOf b := by
  unfold idsOf
  simp only [List.mem_append, Set.mem_ofPred_eq]
  exact exists_or

/-- The identifier of one object. -/
theorem mem_idsOf_singleton {kind : ObjectKind} {x id : ObjectId} :
    id ∈ idsOf [(kind, x)] ↔ id = x := by
  simp [idsOf]

/-- An object is in the store under a kind. -/
def RawStore.HasKind (store : RawStore) (e : ObjectKind × ObjectId) : Prop :=
  ∃ bytes, store.get? e.2 = some (e.1, bytes)

/-- What is reached from the head through the objects that are there. -/
def Reached (codec : ObjectCodec) (D store : RawStore) (head : ObjectId) : ObjectId → Prop :=
  Arrival.Reach (Refers codec D) head store.held

/-- **What is known of a walk**, in a store with objects of `D`.  An object that was met is still
queued, or it was visited and what it refers to was met, or it is one of `out`. -/
structure Walk.Inv (codec : ObjectCodec) (D : RawStore) (head : ObjectId) (store : RawStore)
    (visited out : Set ObjectId) (walk : Walk) : Prop where
  root : head ∈ walk.seen
  queued : ∀ e ∈ walk.queue, e.2 ∈ walk.seen ∧ D.HasKind e
  reached : ∀ id ∈ walk.seen, Reached codec D store head id
  settled : ∀ id ∈ walk.seen, id ∈ idsOf walk.queue ∨
    (id ∈ store.held ∧ id ∈ visited ∧ ∀ y, Refers codec D id y → y ∈ walk.seen) ∨ id ∈ out

section Walk

variable {codec : ObjectCodec} {D store : RawStore} {head : ObjectId} {visited out : Set ObjectId}
  {walk : Walk}

/-- What a walk reaches is in the closure. -/
theorem Reached.closure {id : ObjectId} (h : Reached codec D store head id) :
    Closure codec D head id :=
  h.mono (Set.subset_univ _)

/-- What is in the closure has a kind. -/
theorem Complete.hasKind (hD : Complete codec D head) {id : ObjectId}
    (h : Closure codec D head id) : ∃ kind, D.HasKind (kind, id) := by
  unfold Closure at h
  cases h with
  | root => exact ⟨.Snapshot, hD.snapshot⟩
  | step h _ he =>
    obtain ⟨kind, bytes, es, hget, hes, hy⟩ := he
    obtain ⟨es', hes', hkinds⟩ := hD.closed _ h kind bytes hget
    rw [hes] at hes'
    cases hes'
    obtain ⟨e, he, rfl⟩ := List.mem_map.mp hy
    exact ⟨e.2, hkinds e he⟩

/-- The invariant holds of a new walk. -/
theorem Walk.inv_new (hD : Complete codec D head) :
    Walk.Inv codec D head store ∅ ∅ (Walk.new head) where
  root := List.mem_cons_self
  queued := by
    intro e he
    rw [List.mem_singleton.mp he]
    exact ⟨List.mem_cons_self, hD.snapshot⟩
  reached := by
    intro id hid
    rw [List.mem_singleton.mp hid]
    exact .root
  settled := by
    intro id hid
    rw [List.mem_singleton.mp hid]
    exact Or.inl ⟨.Snapshot, List.mem_cons_self⟩

/-- More is known to have been visited, or to be out. -/
theorem Walk.Inv.weaken {visited' out' : Set ObjectId}
    (h : Walk.Inv codec D head store visited out walk) (hv : visited ⊆ visited')
    (ho : out ⊆ out') : Walk.Inv codec D head store visited' out' walk where
  root := h.root
  queued := h.queued
  reached := h.reached
  settled := by
    intro id hid
    rcases h.settled id hid with hq | ⟨hs, hi, hy⟩ | hi
    · exact Or.inl hq
    · exact Or.inr (Or.inl ⟨hs, hv hi, hy⟩)
    · exact Or.inr (Or.inr (ho hi))

/-- A store that grows does not disturb a walk. -/
theorem Walk.Inv.grow {store' : RawStore} (h : Walk.Inv codec D head store visited out walk)
    (hgrow : store.held ⊆ store'.held) : Walk.Inv codec D head store' visited out walk where
  root := h.root
  queued := h.queued
  reached := fun id hid => (h.reached id hid).mono hgrow
  settled := by
    intro id hid
    rcases h.settled id hid with hq | ⟨hs, hi, hy⟩ | hi
    · exact Or.inl hq
    · exact Or.inr (Or.inl ⟨hgrow hs, hi, hy⟩)
    · exact Or.inr (Or.inr hi)

/-- The first object of the queue is taken out. -/
theorem Walk.Inv.pop {seen : List ObjectId} {kind : ObjectKind} {x : ObjectId}
    {queue : List (ObjectKind × ObjectId)}
    (h : Walk.Inv codec D head store visited out ⟨seen, (kind, x) :: queue⟩) :
    Walk.Inv codec D head store visited (out ∪ {x}) ⟨seen, queue⟩ where
  root := h.root
  queued := fun e he => h.queued e (List.mem_cons_of_mem _ he)
  reached := h.reached
  settled := by
    intro id hid
    rcases h.settled id hid with ⟨k, hq⟩ | hi | hi
    · rcases List.mem_cons.mp hq with heq | hq
      · cases heq
        exact Or.inr (Or.inr (Or.inr rfl))
      · exact Or.inl ⟨k, hq⟩
    · exact Or.inr (Or.inl hi)
    · exact Or.inr (Or.inr (Or.inl hi))

/-- **What an object refers to is queued**, and the object is settled. -/
theorem Walk.Inv.expand (hD : Complete codec D head) {kind : ObjectKind} {x : ObjectId}
    {bytes : Bytes} {es : List (ObjectId × ObjectKind)}
    (h : Walk.Inv codec D head store visited (out ∪ {x}) walk) (hx : x ∈ walk.seen)
    (hheld : x ∈ store.held) (hvisited : x ∈ visited) (hget : D.get? x = some (kind, bytes))
    (hes : codec.objectEdges kind bytes = .ok es) :
    Walk.Inv codec D head store visited out (es.foldl Walk.enqueue walk) where
  root := Walk.mem_seen_foldl.mpr (Or.inl h.root)
  queued := by
    intro e he
    rcases Walk.mem_of_mem_queue_foldl he with he | he
    · exact ⟨Walk.mem_seen_foldl.mpr (Or.inl (h.queued e he).1), (h.queued e he).2⟩
    · obtain ⟨es', hes', hkinds⟩ := hD.closed x (h.reached x hx).closure kind bytes hget
      rw [hes] at hes'
      cases hes'
      exact ⟨Walk.mem_seen_foldl.mpr (Or.inr (List.mem_map_of_mem he)), hkinds _ he⟩
  reached := by
    intro id hid
    rcases Walk.mem_seen_foldl.mp hid with hid | hid
    · exact h.reached id hid
    · exact .step (h.reached x hx) hheld ⟨kind, bytes, es, hget, hes, hid⟩
  settled := by
    intro id hid
    rcases Walk.queued_of_seen_foldl hid with hold | hq
    · rcases h.settled id hold with ⟨k, hq⟩ | ⟨hs, hi, hy⟩ | hi | hi
      · exact Or.inl ⟨k, Walk.mem_queue_foldl_of_mem hq⟩
      · exact Or.inr (Or.inl ⟨hs, hi, fun y hxy => Walk.mem_seen_foldl.mpr (Or.inl (hy y hxy))⟩)
      · exact Or.inr (Or.inr hi)
      · rw [Set.mem_singleton_iff.mp hi]
        refine Or.inr (Or.inl ⟨hheld, hvisited, ?_⟩)
        rintro y ⟨kind', bytes', es', hget', hes', hy⟩
        rw [hget] at hget'
        cases hget'
        rw [hes] at hes'
        cases hes'
        exact Walk.mem_seen_foldl.mpr (Or.inr hy)
    · exact Or.inl hq

/-- Once nothing is queued, all that is reached was met. -/
theorem Walk.Inv.covers {U : Set ObjectId} (h : Walk.Inv codec D head store visited out walk)
    (hqueue : walk.queue = []) (hout : ∀ id ∈ U, id ∉ out) {id : ObjectId}
    (hid : Arrival.Reach (Refers codec D) head U id) : id ∈ walk.seen := by
  refine Arrival.Reach.subset (S := {x | x ∈ walk.seen}) h.root ?_ hid
  intro x hx hU y hy
  rcases h.settled x hx with ⟨k, hq⟩ | ⟨_, _, hys⟩ | hi
  · rw [hqueue] at hq
    exact absurd hq List.not_mem_nil
  · exact hys y hy
  · exact absurd hi (hout x hU)

/-! ## Exploring -/

variable (codec D store head) in
/-- What a survey lists is reached, and there or not as it says. -/
structure Survey.Sound (found : Survey) : Prop where
  present : ∀ e ∈ found.present, e.2 ∈ store.held ∧ D.HasKind e ∧ Reached codec D store head e.2
  missing : ∀ e ∈ found.missing, e.2 ∉ store.held ∧ D.HasKind e ∧ Reached codec D store head e.2

/-- An edge of a stored object leads to a target. -/
theorem mem_targets {kind : ObjectKind} {x : ObjectId} {bytes : Bytes}
    {es : List (ObjectId × ObjectKind)} (hget : store.get? x = some (kind, bytes))
    (hes : codec.objectEdges kind bytes = .ok es) {e : ObjectId × ObjectKind} (he : e ∈ es) :
    e.1 ∈ Walk.targets codec store := by
  unfold Walk.targets
  refine List.mem_flatMap.mpr ⟨(x, kind, bytes), (store.mem_toList_iff).mpr hget, ?_⟩
  simp only [hes]
  exact List.mem_map_of_mem he

/-- A leaf refers to nothing. -/
theorem objectEdges_of_isLeaf {kind : ObjectKind} (h : isLeaf kind = true) (bytes : Bytes) :
    codec.objectEdges kind bytes = .ok [] := by
  cases kind with
  | Chunk => rfl
  | Xattrs => rfl
  | Blob => simp [isLeaf] at h
  | Tree => simp [isLeaf] at h
  | Snapshot => simp [isLeaf] at h

/-- A visit of an object that is there comes down to queueing what it refers to. -/
theorem exploreUpTo_of_held {missingLimit : Option ℕ} {fuel : ℕ} {seen : List ObjectId}
    {queue : List (ObjectKind × ObjectId)} {found : Survey} {kind : ObjectKind} {x : ObjectId}
    {bytes : Bytes} {es : List (ObjectId × ObjectKind)}
    (hget : store.get? x = some (kind, bytes)) (hes : codec.objectEdges kind bytes = .ok es)
    (henough : Walk.enough missingLimit found = false) :
    Walk.exploreUpTo codec store missingLimit (fuel + 1) ⟨seen, (kind, x) :: queue⟩ found =
      Walk.exploreUpTo codec store missingLimit fuel (es.foldl Walk.enqueue ⟨seen, queue⟩)
        { found with present := found.present ++ [(kind, x)] } := by
  have hread : store.readBytes x kind = .ok bytes := by
    unfold RawStore.readBytes
    rw [hget]
    exact if_pos rfl
  have hexpand : Walk.expand codec ⟨seen, queue⟩ kind bytes =
      .ok (es.foldl Walk.enqueue ⟨seen, queue⟩) := by
    unfold Walk.expand
    rw [hes]
    rfl
  rw [Walk.exploreUpTo]
  simp only [henough, Bool.false_eq_true, if_false, hget, Option.isSome_some, if_true]
  by_cases hleaf : isLeaf kind = true
  · rw [objectEdges_of_isLeaf hleaf] at hes
    cases hes
    rw [if_pos hleaf]
    rfl
  · rw [if_neg hleaf, hread]
    simp only [bind, Except.bind, hexpand]

/-- **An exploration keeps what is known of a walk**, and it ends: the visits that are left
become fewer with every visit. -/
theorem Walk.Inv.exploreUpTo (hD : Complete codec D head) (hagree : Agree store D)
    (missingLimit : Option ℕ) {T : Finset ObjectId}
    (hT : ∀ id ∈ Walk.targets codec store, id ∈ T) {fuel : ℕ} {walk : Walk} {found : Survey}
    (h : Walk.Inv codec D head store (visited ∪ idsOf found.present) (out ∪ idsOf found.missing)
      walk)
    (hfound : found.Sound codec D store head) (hfuel : walk.potential T < fuel) :
    ∃ walk' found', Walk.exploreUpTo codec store missingLimit fuel walk found =
        .ok (walk', found') ∧
      Walk.Inv codec D head store (visited ∪ idsOf found'.present) (out ∪ idsOf found'.missing)
        walk' ∧
      found'.Sound codec D store head ∧
      (walk'.queue = [] ∨ Walk.enough missingLimit found' = true) := by
  induction fuel generalizing walk found with
  | zero => exact absurd hfuel (Nat.not_lt_zero _)
  | succ fuel ih =>
    by_cases henough : Walk.enough missingLimit found = true
    · exact ⟨walk, found, by rw [Walk.exploreUpTo, if_pos henough], h, hfound, Or.inr henough⟩
    · have hmore : Walk.enough missingLimit found = false := by simpa using henough
      obtain ⟨seen, queue⟩ := walk
      cases queue with
      | nil =>
        refine ⟨⟨seen, []⟩, found, ?_, h, hfound, Or.inl rfl⟩
        rw [Walk.exploreUpTo, if_neg henough]
      | cons e queue =>
        obtain ⟨kind, x⟩ := e
        obtain ⟨hseen, bytes, hbytes⟩ := h.queued _ List.mem_cons_self
        simp only at hseen hbytes
        have hreach := h.reached x hseen
        have hdrop : Walk.potential T ⟨seen, queue⟩ < fuel := by
          unfold Walk.potential at hfuel ⊢
          simp only [List.length_cons] at hfuel ⊢
          omega
        by_cases hheld : x ∈ store.held
        · obtain ⟨o, ho⟩ := Option.isSome_iff_exists.mp hheld
          rw [hagree x o _ ho hbytes] at ho
          obtain ⟨es, hes, -⟩ := hD.closed x hreach.closure kind bytes hbytes
          rw [exploreUpTo_of_held ho hes hmore]
          apply ih
          · have hpop : Walk.Inv codec D head store
                (visited ∪ idsOf (found.present ++ [(kind, x)]))
                ((out ∪ idsOf found.missing) ∪ {x}) ⟨seen, queue⟩ := by
              refine h.pop.weaken ?_ (Set.Subset.refl _)
              rintro id (hid | hid)
              · exact Or.inl hid
              · exact Or.inr (mem_idsOf_append.mpr (Or.inl hid))
            refine hpop.expand hD hseen hheld ?_ hbytes hes
            exact Or.inr (mem_idsOf_append.mpr (Or.inr (mem_idsOf_singleton.mpr rfl)))
          · refine ⟨?_, hfound.missing⟩
            intro d hd
            rcases List.mem_append.mp hd with hd | hd
            · exact hfound.present d hd
            · rw [List.mem_singleton.mp hd]
              exact ⟨hheld, ⟨bytes, hbytes⟩, hreach⟩
          · refine lt_of_le_of_lt (Walk.potential_foldl_le ?_) hdrop
            exact fun d hd => hT _ (mem_targets ho hes hd)
        · have hnone : (store.get? x).isSome = false := by simpa [RawStore.held] using hheld
          have hstep : Walk.exploreUpTo codec store missingLimit (fuel + 1)
              ⟨seen, (kind, x) :: queue⟩ found =
              Walk.exploreUpTo codec store missingLimit fuel ⟨seen, queue⟩
                { found with missing := found.missing ++ [(kind, x)] } := by
            rw [Walk.exploreUpTo]
            simp only [hmore, Bool.false_eq_true, if_false, hnone]
          rw [hstep]
          refine ih (h.pop.weaken (Set.Subset.refl _) ?_) ⟨hfound.present, ?_⟩ hdrop
          · rintro id ((hid | hid) | hid)
            · exact Or.inl hid
            · exact Or.inr (mem_idsOf_append.mpr (Or.inl hid))
            · exact Or.inr (mem_idsOf_append.mpr (Or.inr (mem_idsOf_singleton.mpr hid)))
          · intro d hd
            rcases List.mem_append.mp hd with hd | hd
            · exact hfound.missing d hd
            · rw [List.mem_singleton.mp hd]
              exact ⟨hheld, ⟨bytes, hbytes⟩, hreach⟩

/-- A walk ends, and its invariant holds then. -/
theorem Walk.Inv.explore (hD : Complete codec D head) (hagree : Agree store D)
    (missingLimit : Option ℕ) (h : Walk.Inv codec D head store visited out walk) :
    ∃ walk' found', walk.explore codec store missingLimit = .ok (walk', found') ∧
      Walk.Inv codec D head store (visited ∪ idsOf found'.present) (out ∪ idsOf found'.missing)
        walk' ∧
      found'.Sound codec D store head ∧
      (walk'.queue = [] ∨ Walk.enough missingLimit found' = true) := by
  refine Walk.Inv.exploreUpTo hD hagree missingLimit
    (T := (Walk.targets codec store).toFinset) (fun id hid => List.mem_toFinset.mpr hid)
    (h.weaken Set.subset_union_left Set.subset_union_left) ⟨by simp, by simp⟩ ?_
  unfold Walk.potential
  have hcard := (Finset.card_le_card (Finset.sdiff_subset
    (s := (Walk.targets codec store).toFinset) (t := walk.seen.toFinset))).trans
    (List.toFinset_card_le _)
  omega

/-- **A survey** lists what is reached, split by whether it is there, unless it stops early. -/
theorem survey_spec (hD : Complete codec D head) (hagree : Agree store D)
    (missingLimit : Option ℕ) :
    ∃ found, survey codec store head missingLimit = .ok found ∧
      found.Sound codec D store head ∧
      (Walk.enough missingLimit found = true ∨ ∀ id, Reached codec D store head id →
        id ∈ idsOf found.present ∨ id ∈ idsOf found.missing) := by
  have hnew : Walk.Inv codec D head store ∅ ∅ (Walk.new head) := Walk.inv_new hD
  obtain ⟨walk', found, hrun, hinv, hsound, hend⟩ := hnew.explore hD hagree missingLimit
  refine ⟨found, by rw [survey, hrun]; rfl, hsound, ?_⟩
  rcases hend with hqueue | henough
  · refine Or.inr ?_
    intro id hid
    have hseen := hinv.covers hqueue (U := store.held) ?_ hid
    · rcases hinv.settled id hseen with ⟨k, hq⟩ | ⟨_, hi | hi, _⟩ | hi | hi
      · rw [hqueue] at hq
        exact absurd hq List.not_mem_nil
      · exact absurd hi (Set.notMem_empty _)
      · exact Or.inl hi
      · exact absurd hi (Set.notMem_empty _)
      · exact Or.inr hi
    · rintro x hx (hi | ⟨kind, hi⟩)
      · exact Set.notMem_empty _ hi
      · exact (hsound.missing _ hi).1 hx
  · exact Or.inl henough

/-- **Nothing is missing exactly if all that is reached from the head is there.** -/
theorem missing_eq_nil_iff (hD : Complete codec D head) (hagree : Agree store D)
    {missingLimit : Option ℕ} (hlimit : missingLimit ≠ some 0) {found : Survey}
    (h : survey codec store head missingLimit = .ok found) :
    found.missing = [] ↔ ∀ id, Closure codec D head id → id ∈ store.held := by
  obtain ⟨found', hrun, hsound, hend⟩ := survey_spec hD hagree missingLimit
  rw [h] at hrun
  cases hrun
  constructor
  · intro hnil
    have hall : ∀ id, Reached codec D store head id → id ∈ store.held := by
      rcases hend with henough | hall
      · unfold Walk.enough at henough
        rw [hnil] at henough
        cases missingLimit with
        | none => exact absurd henough Bool.false_ne_true
        | some limit =>
          rw [decide_eq_true_eq, List.length_nil, Nat.le_zero] at henough
          exact absurd (congrArg some henough) hlimit
      · intro id hid
        rcases hall id hid with ⟨kind, hi⟩ | ⟨kind, hi⟩
        · exact (hsound.present _ hi).1
        · rw [hnil] at hi
          exact absurd hi List.not_mem_nil
    intro id hid
    have hreach : id ∈ {x | Reached codec D store head x} := by
      refine Arrival.Reach.subset .root ?_ hid
      intro x hx _ y hy
      exact Arrival.Reach.step hx (hall x hx) hy
    exact hall id hreach
  · intro hall
    rw [List.eq_nil_iff_forall_not_mem]
    intro e he
    obtain ⟨hout, -, hreach⟩ := hsound.missing e he
    exact hout (hall _ hreach.closure)

/-! ## No object twice -/

/-- The visited objects and the queued ones are all different, and were met. -/
structure Walk.Fresh (walk : Walk) (found : Survey) : Prop where
  nodup : (found.present.map Prod.snd ++ walk.queue.map Prod.snd).Nodup
  seen : ∀ id ∈ found.present.map Prod.snd ++ walk.queue.map Prod.snd, id ∈ walk.seen

/-- An edge that is enqueued keeps the walk fresh. -/
theorem Walk.Fresh.enqueue {found : Survey} (h : walk.Fresh found) (e : ObjectId × ObjectKind) :
    (walk.enqueue e).Fresh found := by
  unfold Walk.enqueue
  split_ifs with he
  · exact h
  · have hids : found.present.map Prod.snd ++ (walk.queue ++ [(e.2, e.1)]).map Prod.snd =
        (found.present.map Prod.snd ++ walk.queue.map Prod.snd) ++ [e.1] := by
      rw [List.map_append, ← List.append_assoc]
      rfl
    refine ⟨?_, ?_⟩
    · simp only [hids]
      rw [List.nodup_append]
      refine ⟨h.nodup, List.nodup_singleton _, ?_⟩
      intro a ha b hb heq
      rw [List.mem_singleton.mp hb] at heq
      exact he (heq ▸ h.seen a ha)
    · intro id hid
      simp only [hids] at hid
      rcases List.mem_append.mp hid with hid | hid
      · exact List.mem_cons_of_mem _ (h.seen id hid)
      · rw [List.mem_singleton.mp hid]
        exact List.mem_cons_self

/-- Edges that are enqueued keep the walk fresh. -/
theorem Walk.Fresh.foldl {found : Survey} (es : List (ObjectId × ObjectKind))
    (h : walk.Fresh found) : (es.foldl Walk.enqueue walk).Fresh found := by
  induction es generalizing walk with
  | nil => exact h
  | cons e es ih => exact ih (h.enqueue e)

/-- A walk stays fresh. -/
theorem Walk.Fresh.exploreUpTo {missingLimit : Option ℕ} {fuel : ℕ} {walk walk' : Walk}
    {found found' : Survey} (h : walk.Fresh found)
    (hrun : Walk.exploreUpTo codec store missingLimit fuel walk found = .ok (walk', found')) :
    walk'.Fresh found' := by
  induction fuel generalizing walk found with
  | zero => cases hrun
  | succ fuel ih =>
    obtain ⟨seen, queue⟩ := walk
    rw [Walk.exploreUpTo] at hrun
    by_cases henough : Walk.enough missingLimit found = true
    · rw [if_pos henough] at hrun
      cases hrun
      exact h
    · rw [if_neg henough] at hrun
      cases queue with
      | nil =>
        cases hrun
        exact h
      | cons e queue =>
        obtain ⟨kind, x⟩ := e
        simp only at hrun
        have hmoved : (found.present ++ [(kind, x)]).map Prod.snd ++ queue.map Prod.snd =
            found.present.map Prod.snd ++ ((kind, x) :: queue).map Prod.snd := by
          simp
        have hvisit : Walk.Fresh ⟨seen, queue⟩
            { found with present := found.present ++ [(kind, x)] } := by
          refine ⟨?_, ?_⟩
          · simp only [hmoved]
            exact h.nodup
          · intro id hid
            simp only [hmoved] at hid
            exact h.seen id hid
        have hsub : (found.present.map Prod.snd ++ queue.map Prod.snd).Sublist
            (found.present.map Prod.snd ++ ((kind, x) :: queue).map Prod.snd) := by
          rw [List.map_cons]
          exact List.Sublist.append_left (List.sublist_cons_self _ _) _
        by_cases hheld : (store.get? x).isSome = true
        · rw [if_pos hheld] at hrun
          by_cases hleaf : isLeaf kind = true
          · rw [if_pos hleaf] at hrun
            exact ih hvisit hrun
          · rw [if_neg hleaf] at hrun
            cases hread : store.readBytes x kind with
            | error e =>
              rw [hread] at hrun
              cases hrun
            | ok bytes =>
              rw [hread] at hrun
              simp only [bind, Except.bind, Walk.expand] at hrun
              cases hes : codec.objectEdges kind bytes with
              | error e =>
                rw [hes] at hrun
                cases hrun
              | ok es =>
                rw [hes] at hrun
                exact ih (hvisit.foldl es) hrun
        · rw [if_neg hheld] at hrun
          have hskip : Walk.Fresh ⟨seen, queue⟩
              { found with missing := found.missing ++ [(kind, x)] } :=
            ⟨h.nodup.sublist hsub, fun id hid => h.seen id (hsub.subset hid)⟩
          exact ih hskip hrun

/-- A survey lists no object twice. -/
theorem survey_nodup {missingLimit : Option ℕ} {found : Survey}
    (h : survey codec store head missingLimit = .ok found) :
    (found.present.map Prod.snd).Nodup := by
  unfold survey Walk.explore at h
  cases hrun : Walk.exploreUpTo codec store missingLimit
      ((Walk.new head).queue.length + (Walk.targets codec store).length + 1) (Walk.new head)
      ⟨[], []⟩ with
  | error e =>
    rw [hrun] at h
    cases h
  | ok result =>
    rw [hrun] at h
    cases h
    have hstart : (Walk.new head).Fresh ⟨[], []⟩ :=
      ⟨List.nodup_singleton _, fun id hid => hid⟩
    exact (List.nodup_append.mp (hstart.exploreUpTo hrun).nodup).1

end Walk

end Furrow
