import Mathlib.Data.List.Nodup
import Idgs.Cluster.Table
import Idgs.Common.Lists
import Idgs.Common.Replay
import Idgs.Common.Run

/-!
# The target of partition migrations

The `MigrationTargetActor` of a member migrates the partitions that are new on it, one after the
other. For each it asks the partition's primary member for every partitioned store, with a
`StoreMigrationTargetActor` that receives the store's data, and declares the partition ready when
all of these have reported.
-/

namespace Idgs.Store

open Function List

open Cluster (PartitionState)

namespace MigrationTarget

/-- A store is known by the names of its schema and its own. -/
abbrev Key := String × String

/-- What the actor reads of a store's configuration: its names, and whether it is a
`PARTITION_TABLE`. -/
structure StoreConfig where
  key : Key
  partitioned : Bool := true
deriving DecidableEq

/-- `StoreMigrationInfo`; no actor is the empty `storeActorId`. -/
structure StoreMigrationInfo where
  key : Key
  state : PartitionState := .migrating
  storeActorId : Option ℕ := none
deriving DecidableEq

/-- A `StoreMigrationTargetActor` at work: the store that it fills, and the one that it has
requested. -/
structure StoreMigrationTargetActor where
  actorId : ℕ
  partId : ℤ
  sourceMemberId : ℤ
  store : Key
  request : Key
deriving DecidableEq

/-- What has happened: partitions are added, cleared before their migration starts, started; stores
requested and received in full; states multicast and completions sent to a source. -/
inductive Event
  | added (partId : ℤ)
  | cleared (partId : ℤ)
  | started (partId : ℤ)
  | requested (partId : ℤ) (store : Key)
  | received (partId : ℤ) (store : Key)
  | stateChanged (partId : ℤ) (state : PartitionState) (sourceMemberId : ℤ)
  | partitionMigrationComplete (partId sourceMemberId : ℤ)
deriving DecidableEq

/-- The fields of `MigrationTargetActor`, the store actors at work and the events so far, the newest
first. `due` says that a call of `startPartitionMigration` is still to come, `blocked` that a thread
waits for the lock forever. -/
structure State where
  partId : ℤ := -1
  sourceMemberId : ℤ := -1
  partitionQueue : List ℤ := []
  storeMigrationQueue : List Key := []
  storeMigrationMap : List StoreMigrationInfo := []
  actors : List StoreMigrationTargetActor := []
  nextActorId : ℕ := 0
  due : Bool := false
  blocked : Bool := false
  log : List Event := []

/-- The value that the constructor gives `storeMigrationBatchSize`; nothing changes it. -/
def storeMigrationBatchSize : ℤ := -1

/-- `multicastPartitionStateChangeEvent`. -/
def multicastPartitionStateChangeEvent (partId : ℤ) (state : PartitionState) (s : State) : State :=
  { s with log := .stateChanged partId state s.sourceMemberId :: s.log }

/-- `std::map::insert`: a key that is there is kept. -/
def insertInfo (info : StoreMigrationInfo) (infos : List StoreMigrationInfo) :
    List StoreMigrationInfo :=
  if infos.any (·.key = info.key) then infos else infos ++ [info]

/-- A new `StoreMigrationTargetActor` for `store` requests `request` from the source. -/
def requestStore (store request : Key) (s : State) : State :=
  { s with
    actors := s.actors ++ [⟨s.nextActorId, s.partId, s.sourceMemberId, store, request⟩]
    nextActorId := s.nextActorId + 1
    log := .requested s.partId request :: s.log }

/-- One round of the loop over the stores in `nextPartitionMigration`. -/
def migrateStore (batchSize : ℤ) (s : State) (store : StoreConfig) : State :=
  if store.partitioned then
    if batchSize < s.storeMigrationMap.length then
      { s with
        storeMigrationQueue := s.storeMigrationQueue ++ [store.key]
        storeMigrationMap := insertInfo { key := store.key } s.storeMigrationMap }
    else
      { requestStore store.key store.key s with
        storeMigrationMap :=
          insertInfo { key := store.key, storeActorId := some s.nextActorId } s.storeMigrationMap }
  else s

/-- The loop over the stores. -/
def migrateStores (stores : List StoreConfig) (s : State) : State :=
  let batchSize := if storeMigrationBatchSize = -1 then (stores.length : ℤ)
    else storeMigrationBatchSize
  stores.foldl (migrateStore batchSize) s

/-- `MigrationTargetActor::nextPartitionMigration` on the queue that is left; `primary` is the
primary member of each partition. Cancelled entries are skipped, a partition without a source is
ready at once. A caller that holds the lock waits for itself when the stores' turn comes. -/
def nextPartitionMigration (stores : List StoreConfig) (primary : ℤ → ℤ) (locked : Bool) :
    List ℤ → State → State
  | [], s => { s with partitionQueue := [], partId := -1, sourceMemberId := -1 }
  | p :: queue, s =>
    if p = -1 then nextPartitionMigration stores primary locked queue s
    else
      let s := { s with partId := p, sourceMemberId := primary p }
      if primary p = -1 then
        nextPartitionMigration stores primary locked queue
          (multicastPartitionStateChangeEvent p .ready s)
      else
        let s := multicastPartitionStateChangeEvent p .migrating
          { s with partitionQueue := queue, log := .started p :: s.log }
        if locked then { s with blocked := true } else migrateStores stores s

/-- `MigrationTargetActor::addPartition`. -/
def addPartition (p : ℤ) (s : State) : State :=
  { s with partitionQueue := s.partitionQueue ++ [p], due := true, log := .added p :: s.log }

/-- `MigrationTargetActor::startPartitionMigration`. -/
def startPartitionMigration (stores : List StoreConfig) (primary : ℤ → ℤ) (s : State) : State :=
  let s := { s with due := false }
  if s.partId = -1 then nextPartitionMigration stores primary false s.partitionQueue s else s

/-- The store actors that are in the map are told to stop. -/
def cancelActors (s : State) : State :=
  { s with
    storeMigrationQueue := []
    actors :=
      s.actors.filter fun a => ¬∃ info ∈ s.storeMigrationMap, info.storeActorId = some a.actorId }

/-- `MigrationTargetActor::clearPartitionData`, the data apart. -/
def clearPartitionData (p : ℤ) (s : State) : State :=
  let s := { s with partitionQueue := s.partitionQueue.map fun q => if q = p then -1 else q }
  if s.partId = p then
    let s := cancelActors s
    if s.sourceMemberId ≠ -1 then
      { s with log := .partitionMigrationComplete p s.sourceMemberId :: s.log }
    else s
  else { s with log := .cleared p :: s.log }

/-- `MigrationTargetActor::handleMemberLeave`, which holds the lock until its end. -/
def handleMemberLeave (stores : List StoreConfig) (primary : ℤ → ℤ) (memberId : ℤ) (s : State) :
    State :=
  if s.partId ≠ -1 ∧ memberId = s.sourceMemberId then
    let s := { cancelActors s with storeMigrationMap := [] }
    nextPartitionMigration stores primary true (s.partitionQueue ++ [s.partId]) s
  else s

/-- `MigrationTargetActor::handleStoreMigrationComplete`. The request for the next store of the
queue names the store that is complete. -/
def handleStoreMigrationComplete (stores : List StoreConfig) (primary : ℤ → ℤ) (key : Key)
    (s : State) : State :=
  if s.storeMigrationMap.any (·.key = key) then
    let infos := s.storeMigrationMap.map fun info =>
      if info.key = key then { info with state := .ready, storeActorId := none } else info
    match s.storeMigrationQueue with
    | store :: queue =>
      { requestStore store key s with
        storeMigrationQueue := queue
        storeMigrationMap := infos.map fun info =>
          if info.key = store then { info with storeActorId := some s.nextActorId } else info }
    | [] =>
      if infos.any (·.state ≠ .ready) then { s with storeMigrationMap := infos }
      else
        let s := multicastPartitionStateChangeEvent s.partId .ready { s with
          storeMigrationMap := [] }
        nextPartitionMigration stores primary false s.partitionQueue
          { s with log := .partitionMigrationComplete s.partId s.sourceMemberId :: s.log }
  else s

/-- Steps: the calls of the partition listener, the `i`th store actor reports that it has received
everything, a member leaves. `primary` is the partition table at that time. -/
inductive Step
  | addPartition (p : ℤ)
  | startPartitionMigration (primary : ℤ → ℤ)
  | clearPartitionData (p : ℤ)
  | storeMigrationComplete (i : ℕ) (primary : ℤ → ℤ)
  | memberLeave (memberId : ℤ) (primary : ℤ → ℤ)

/-- One step. -/
def step (stores : List StoreConfig) (s : State) (a : Step) : Option State :=
  if s.blocked then none
  else
    match a with
    | .addPartition p => some (addPartition p s)
    | .startPartitionMigration primary => some (startPartitionMigration stores primary s)
    | .clearPartitionData p => some (clearPartitionData p s)
    | .storeMigrationComplete i primary =>
      match s.actors[i]? with
      | none => none
      | some a =>
        let log := if a.store = a.request then .received a.partId a.store :: s.log else s.log
        some (handleStoreMigrationComplete stores primary a.request
          { s with actors := s.actors.eraseIdx i, log := log })
    | .memberLeave m primary => some (handleMemberLeave stores primary m s)

/-! ## What is promised -/

/-- The partition's last cancellation is not followed by a new order to migrate it. -/
def cancelled (p : ℤ) : List Event → Bool
  | [] => false
  | .added q :: log => if q = p then false else cancelled p log
  | .cleared q :: log => if q = p then true else cancelled p log
  | _ :: log => cancelled p log

/-- What has happened since the partition's migration was started last. -/
def sinceStart (p : ℤ) (log : List Event) : List Event := log.takeWhile (· ≠ .started p)

/-- A partition that has a source is declared ready when all its stores have been received since its
migration was started, and no cancelled partition is requested. -/
def EventOk (stores : List StoreConfig) (before : List Event) : Event → Prop
  | .stateChanged p .ready sourceMemberId =>
    sourceMemberId ≠ -1 → ∀ store ∈ stores, store.partitioned = true →
      .received p store.key ∈ sinceStart p before
  | .requested p _ => cancelled p before = false
  | _ => True

def LogOk (stores : List StoreConfig) (log : List Event) : Prop :=
  ∀ e before, e :: before <:+ log → EventOk stores before e

/-- The actor is not stuck: while a partition is current, one of its stores is under way, and
otherwise no partition is waiting, once the partition listener has returned. -/
structure Sound (stores : List StoreConfig) (s : State) : Prop where
  free : s.blocked = false
  progress : s.partId ≠ -1 → ∃ a ∈ s.actors, a.partId = s.partId
  idle : s.due = false → s.partId = -1 → s.partitionQueue = []
  events : LogOk stores s.log

/-- Some partition of the queue has a source. -/
def HasSource (primary : ℤ → ℤ) (queue : List ℤ) : Prop := ∃ p ∈ queue, p ≠ -1 ∧ primary p ≠ -1

/-- No path is taken that forgets to go on: a migration from a source starts when there is a
partitioned store; the current partition is not cleared; and when its source leaves, no partition of
the queue, to which it returns, has a source. -/
def GoesOn (stores : List StoreConfig) (s : State) : Step → Prop
  | .startPartitionMigration primary => s.partId = -1 → HasSource primary s.partitionQueue →
      ∃ store ∈ stores, store.partitioned = true
  | .clearPartitionData p => p ≠ s.partId
  | .memberLeave m primary => s.partId ≠ -1 → m = s.sourceMemberId →
      ¬HasSource primary (s.partitionQueue ++ [s.partId])
  | _ => True

instance (primary : ℤ → ℤ) (queue : List ℤ) : Decidable (HasSource primary queue) := by
  unfold HasSource
  infer_instance

instance (stores : List StoreConfig) (s : State) (a : Step) : Decidable (GoesOn stores s a) := by
  unfold GoesOn
  split <;> infer_instance

/-! ## The log -/

theorem LogOk.cons {stores : List StoreConfig} {log : List Event} {e : Event} (h : LogOk stores log)
    (he : EventOk stores log e) : LogOk stores (e :: log) := by
  intro e' before hsuffix
  rcases suffix_cons_iff.mp hsuffix with heq | hsuffix
  · cases heq
    exact he
  · exact h e' before hsuffix

theorem sinceStart_cons {p : ℤ} {e : Event} (log : List Event) (he : e ≠ .started p) :
    sinceStart p (e :: log) = e :: sinceStart p log := by
  rw [sinceStart, takeWhile_cons_of_pos (by simpa using he)]
  rfl

/-! ## The invariant -/

/-- A partition is current: the map has an entry for each partitioned store; those that are ready
have been received, and for each of the others an actor is at work, which the map knows. -/
structure Busy (stores : List StoreConfig) (s : State) : Prop where
  source : s.sourceMemberId ≠ -1
  uncancelled : cancelled s.partId s.log = false
  queue : s.storeMigrationQueue = []
  keys : s.storeMigrationMap.map StoreMigrationInfo.key =
    (stores.filter StoreConfig.partitioned).map StoreConfig.key
  received : ∀ info ∈ s.storeMigrationMap, info.state = .ready →
    .received s.partId info.key ∈ sinceStart s.partId s.log
  working : ∀ info ∈ s.storeMigrationMap, info.state ≠ .ready → ∃ a ∈ s.actors, a.request = info.key
  actors : ∀ a ∈ s.actors, a.partId = s.partId ∧ a.store = a.request ∧
    ∃ info ∈ s.storeMigrationMap, info.key = a.request ∧ info.state ≠ .ready ∧
      info.storeActorId = some a.actorId
  distinct : (s.actors.map StoreMigrationTargetActor.request).Nodup

/-- Nothing is under way. -/
structure Clean (s : State) : Prop where
  queue : s.storeMigrationQueue = []
  map : s.storeMigrationMap = []
  actors : s.actors = []

/-- What holds between the steps. -/
structure Inv (stores : List StoreConfig) (s : State) : Prop where
  free : s.blocked = false
  events : LogOk stores s.log
  uncancelled : ∀ p ∈ s.partitionQueue, p ≠ -1 → cancelled p s.log = false
  busy : s.partId ≠ -1 → Busy stores s ∧ s.actors ≠ []
  clean : s.partId = -1 → Clean s
  idle : s.partId = -1 → s.due = false → s.partitionQueue = []

theorem inv_init (stores : List StoreConfig) : Inv stores {} where
  free := rfl
  events := by
    intro e before hsuffix
    exact absurd (suffix_nil.mp hsuffix) (cons_ne_nil e before)
  uncancelled := by
    intro p hp
    cases hp
  busy := fun h => absurd rfl h
  clean := fun _ => ⟨rfl, rfl, rfl⟩
  idle := fun _ _ => rfl

theorem Inv.sound {stores : List StoreConfig} {s : State} (h : Inv stores s) : Sound stores s where
  __ := h
  progress := by
    intro hpart
    obtain ⟨hbusy, hactors⟩ := h.busy hpart
    obtain ⟨a, ha⟩ := exists_mem_of_ne_nil _ hactors
    exact ⟨a, ha, (hbusy.actors a ha).1⟩
  idle := fun hdue hpart => h.idle hpart hdue

/-! ## Starting a partition -/

section Steps

variable {stores done : List StoreConfig} {s s' : State}

theorem insertInfo_of_fresh {info : StoreMigrationInfo} {infos : List StoreMigrationInfo}
    (h : info.key ∉ infos.map StoreMigrationInfo.key) :
    insertInfo info infos = infos ++ [info] := by
  rw [insertInfo, if_neg]
  rw [any_eq_true]
  rintro ⟨info', hmem, hkey⟩
  exact h (mem_map.mpr ⟨info', hmem, of_decide_eq_true hkey⟩)

/-- What starting the stores of a partition leaves alone. -/
structure Unmoved (s s' : State) : Prop where
  partId : s'.partId = s.partId
  sourceMemberId : s'.sourceMemberId = s.sourceMemberId
  partitionQueue : s'.partitionQueue = s.partitionQueue
  due : s'.due = s.due
  blocked : s'.blocked = s.blocked
  cancelled : ∀ p, cancelled p s'.log = cancelled p s.log

theorem Unmoved.trans {s₁ s₂ s₃ : State} (h : Unmoved s₁ s₂) (h' : Unmoved s₂ s₃) :
    Unmoved s₁ s₃ where
  partId := h'.partId.trans h.partId
  sourceMemberId := h'.sourceMemberId.trans h.sourceMemberId
  partitionQueue := h'.partitionQueue.trans h.partitionQueue
  due := h'.due.trans h.due
  blocked := h'.blocked.trans h.blocked
  cancelled := fun p => (h'.cancelled p).trans (h.cancelled p)

theorem migrateStore_unmoved (batchSize : ℤ) (s : State) (store : StoreConfig) :
    Unmoved s (migrateStore batchSize s store) := by
  unfold migrateStore
  split
  · split
    · exact ⟨rfl, rfl, rfl, rfl, rfl, fun _ => rfl⟩
    · exact ⟨rfl, rfl, rfl, rfl, rfl, fun _ => rfl⟩
  · exact ⟨rfl, rfl, rfl, rfl, rfl, fun _ => rfl⟩

/-- A store of its own, while the batch is not full, gets an entry and an actor. -/
theorem migrateStore_of_fresh {batchSize : ℤ} {store : StoreConfig}
    (hpart : store.partitioned = true) (hsize : (s.storeMigrationMap.length : ℤ) ≤ batchSize)
    (hfresh : store.key ∉ s.storeMigrationMap.map StoreMigrationInfo.key) :
    migrateStore batchSize s store = { requestStore store.key store.key s with
      storeMigrationMap :=
        s.storeMigrationMap ++ [{ key := store.key, storeActorId := some s.nextActorId }] } := by
  rw [migrateStore, if_pos hpart, if_neg (by omega), insertInfo_of_fresh hfresh]

/-- One round of the loop, when all stores so far are migrating. -/
theorem Busy.migrateStore (batchSize : ℤ) (store : StoreConfig) (h : Busy done s)
    (hmigrating : ∀ info ∈ s.storeMigrationMap, info.state ≠ .ready)
    (hsize : (s.storeMigrationMap.length : ℤ) ≤ batchSize)
    (hfresh : store.key ∉ done.map StoreConfig.key) :
    Busy (done ++ [store]) (migrateStore batchSize s store) ∧
      ∀ info ∈ (migrateStore batchSize s store).storeMigrationMap, info.state ≠ .ready := by
  by_cases hpart : store.partitioned = true
  · have hkeys : store.key ∉ s.storeMigrationMap.map StoreMigrationInfo.key := by
      rw [h.keys]
      exact fun hmem => hfresh (map_subset _ filter_sublist.subset hmem)
    have hnew : ∀ info : StoreMigrationInfo,
        info ∈ s.storeMigrationMap ++ [{ key := store.key, storeActorId := some s.nextActorId }] →
        info.state ≠ .ready := by
      intro info hinfo
      rcases mem_append.mp hinfo with hold | hlast
      · exact hmigrating info hold
      · rw [mem_singleton.mp hlast]
        rintro ⟨⟩
    rw [migrateStore_of_fresh hpart hsize hkeys]
    refine ⟨⟨h.source, h.uncancelled, h.queue, ?_, fun info hinfo hready =>
      absurd hready (hnew info hinfo),
      ?_, ?_, ?_⟩, hnew⟩
    · simp [h.keys, hpart]
    · intro info hinfo _
      rcases mem_append.mp hinfo with hold | hlast
      · obtain ⟨a, ha, hrequest⟩ := h.working info hold (hmigrating info hold)
        exact ⟨a, mem_append_left _ ha, hrequest⟩
      · rw [mem_singleton.mp hlast]
        exact ⟨_, mem_append_right _ (mem_singleton_self _), rfl⟩
    · intro a ha
      rcases mem_append.mp ha with hold | hlast
      · obtain ⟨hpartId, hstore, info, hinfo, hrest⟩ := h.actors a hold
        exact ⟨hpartId, hstore, info, mem_append_left _ hinfo, hrest⟩
      · rw [mem_singleton.mp hlast]
        exact ⟨rfl, rfl, _, mem_append_right _ (mem_singleton_self _), rfl, by rintro ⟨⟩,
          rfl⟩
    · simp only [requestStore, map_append, map_cons, map_nil]
      rw [nodup_append]
      refine ⟨h.distinct, nodup_singleton _, ?_⟩
      rintro k hk _ hlast rfl
      rw [mem_singleton.mp hlast] at hk
      obtain ⟨a, ha, hrequest⟩ := mem_map.mp hk
      obtain ⟨-, -, info, hinfo, hkey, -⟩ := h.actors a ha
      exact hkeys (mem_map.mpr ⟨info, hinfo, hkey.trans hrequest⟩)
  · have hsame : MigrationTarget.migrateStore batchSize s store = s := by
      rw [MigrationTarget.migrateStore, if_neg hpart]
    rw [hsame]
    refine ⟨⟨h.source, h.uncancelled, h.queue, ?_, h.received, h.working, h.actors, h.distinct⟩,
      hmigrating⟩
    simp [h.keys, hpart]

/-- A store that is requested is one of a partition that has not been cancelled. -/
theorem LogOk.migrateStore {batchSize : ℤ} {store : StoreConfig} (h : LogOk stores s.log)
    (huncancelled : cancelled s.partId s.log = false) :
    LogOk stores (migrateStore batchSize s store).log := by
  unfold MigrationTarget.migrateStore
  split
  · split
    · exact h
    · exact h.cons huncancelled
  · exact h

/-- The loop over the stores that are left. The batch takes them all. -/
theorem Busy.foldl_migrateStore (batchSize : ℤ) (rest : List StoreConfig) (h : Busy done s)
    (hlog : LogOk stores s.log) (hmigrating : ∀ info ∈ s.storeMigrationMap, info.state ≠ .ready)
    (hsize : ((done ++ rest).length : ℤ) ≤ batchSize)
    (hkeys : ((done ++ rest).map StoreConfig.key).Nodup) :
    Busy (done ++ rest) (rest.foldl (MigrationTarget.migrateStore batchSize) s) ∧
      LogOk stores (rest.foldl (MigrationTarget.migrateStore batchSize) s).log ∧
      (∀ info ∈ (rest.foldl (MigrationTarget.migrateStore batchSize) s).storeMigrationMap,
        info.state ≠ .ready) ∧
      Unmoved s (rest.foldl (MigrationTarget.migrateStore batchSize) s) := by
  induction rest generalizing done s with
  | nil =>
    rw [append_nil]
    exact ⟨h, hlog, hmigrating, rfl, rfl, rfl, rfl, rfl, fun _ => rfl⟩
  | cons store rest ih =>
    have hlength : s.storeMigrationMap.length ≤ done.length := by
      have hmap := congrArg List.length h.keys
      rw [length_map, length_map] at hmap
      rw [hmap]
      exact length_filter_le _ _
    rw [length_append] at hsize
    have hfresh : store.key ∉ done.map StoreConfig.key := by
      rw [map_append, nodup_append] at hkeys
      intro hmem
      exact hkeys.2.2 _ hmem _ mem_cons_self rfl
    obtain ⟨hbusy, hall⟩ := Busy.migrateStore batchSize store h hmigrating (by omega) hfresh
    rw [append_cons] at hkeys ⊢
    have hrest := ih hbusy (hlog.migrateStore h.uncancelled) hall
      (by
        simp only [length_append, length_cons, length_nil] at hsize ⊢
        omega) hkeys
    exact ⟨hrest.1, hrest.2.1, hrest.2.2.1,
      (migrateStore_unmoved batchSize s store).trans hrest.2.2.2⟩

/-- A partition with a source starts: every partitioned store is requested. -/
theorem Inv.started {p source : ℤ} {queue : List ℤ} (hkeys : (stores.map StoreConfig.key).Nodup)
    (hclean : Clean s) (hfree : s.blocked = false) (hlog : LogOk stores s.log) (hp : p ≠ -1)
    (hsource : source ≠ -1) (huncancelled : ∀ q ∈ p :: queue, q ≠ -1 → cancelled q s.log = false)
    (hstore : ∃ store ∈ stores, store.partitioned = true) :
    Inv stores (migrateStores stores (multicastPartitionStateChangeEvent p .migrating
      { s with
        partId := p, sourceMemberId := source, partitionQueue := queue, log :=
        .started p :: s.log })) := by
  have hp' : cancelled p s.log = false := huncancelled p mem_cons_self hp
  have hbusy : Busy [] (multicastPartitionStateChangeEvent p .migrating
      { s with
        partId := p, sourceMemberId := source, partitionQueue := queue, log :=
          .started p :: s.log }) := by
    refine ⟨hsource, hp', hclean.queue, ?_, ?_, ?_, ?_, ?_⟩
    · simp [multicastPartitionStateChangeEvent, hclean.map]
    · intro info hinfo
      simp [multicastPartitionStateChangeEvent, hclean.map] at hinfo
    · intro info hinfo
      simp [multicastPartitionStateChangeEvent, hclean.map] at hinfo
    · intro a ha
      simp [multicastPartitionStateChangeEvent, hclean.actors] at ha
    · simp [multicastPartitionStateChangeEvent, hclean.actors]
  have hstarted : LogOk stores (.stateChanged p .migrating source :: .started p :: s.log) :=
    (hlog.cons (e := .started p) trivial).cons trivial
  obtain ⟨hall, hevents, hmigrating, hunmoved⟩ := hbusy.foldl_migrateStore stores.length
    stores hstarted
    (by intro info hinfo; simp [multicastPartitionStateChangeEvent, hclean.map] at hinfo)
    (by rw [nil_append]) (by rwa [nil_append])
  rw [nil_append] at hall
  rw [migrateStores, if_pos (show storeMigrationBatchSize = -1 from rfl)]
  have hpartId := hunmoved.partId
  refine ⟨hunmoved.blocked.trans hfree, hevents, ?_, fun _ => ⟨hall, ?_⟩, fun hnone => ?_,
    fun hnone => ?_⟩
  · intro q hq hne
    rw [hunmoved.partitionQueue] at hq
    rw [hunmoved.cancelled]
    exact huncancelled q (mem_cons_of_mem p hq) hne
  · obtain ⟨store, hmem, hpart⟩ := hstore
    have hkey : store.key ∈ (stores.filter StoreConfig.partitioned).map StoreConfig.key :=
      mem_map_of_mem (mem_filter.mpr ⟨hmem, hpart⟩)
    rw [← hall.keys] at hkey
    obtain ⟨info, hinfo, -⟩ := mem_map.mp hkey
    obtain ⟨a, ha, -⟩ := hall.working info hinfo (hmigrating info hinfo)
    exact ne_nil_of_mem ha
  · exact absurd (hpartId.symm.trans hnone) hp
  · exact absurd (hpartId.symm.trans hnone) hp

/-- The next partition of the queue that has a source starts, or none is left. -/
theorem Inv.next {primary : ℤ → ℤ} {locked : Bool} {queue : List ℤ}
    (hkeys : (stores.map StoreConfig.key).Nodup) (hclean : Clean s) (hfree : s.blocked = false)
    (hlog : LogOk stores s.log) (huncancelled : ∀ p ∈ queue, p ≠ -1 → cancelled p s.log = false)
    (hlocked : locked = true → ¬HasSource primary queue)
    (hstore : HasSource primary queue → ∃ store ∈ stores, store.partitioned = true) :
    Inv stores (nextPartitionMigration stores primary locked queue s) := by
  induction queue generalizing s with
  | nil =>
    refine ⟨hfree, hlog, ?_, fun hne => absurd rfl hne, fun _ =>
      ⟨hclean.queue, hclean.map, hclean.actors⟩,
      fun _ _ => rfl⟩
    intro p hp
    cases hp
  | cons p queue ih =>
    have htail : ∀ q ∈ queue, q ≠ -1 → cancelled q s.log = false :=
      fun q hq => huncancelled q (mem_cons_of_mem p hq)
    have hsources : HasSource primary queue → HasSource primary (p :: queue) := by
      rintro ⟨q, hq, hrest⟩
      exact ⟨q, mem_cons_of_mem p hq, hrest⟩
    have hlocked' : locked = true → ¬HasSource primary queue :=
      fun hl hs => hlocked hl (hsources hs)
    have hstore' := fun hs => hstore (hsources hs)
    rw [nextPartitionMigration]
    split
    · exact ih hclean hfree hlog htail hlocked' hstore'
    · rename_i hp
      simp only
      split
      · rename_i hnone
        refine ih ⟨hclean.queue, hclean.map, hclean.actors⟩ hfree
          (hlog.cons ?_) htail hlocked' hstore'
        exact fun hsource => absurd hnone hsource
      · rename_i hsource
        have hhas : HasSource primary (p :: queue) := ⟨p, mem_cons_self, hp, hsource⟩
        split
        · rename_i hl
          exact absurd hhas (hlocked hl)
        · exact Inv.started hkeys hclean hfree hlog hp hsource huncancelled (hstore hhas)

/-! ## Every step keeps the invariant -/

section

variable (h : Inv stores s)

include h

/-- The flag of the listener concerns the queue of a member that has nothing current only. -/
theorem Inv.addPartition (p : ℤ) : Inv stores (addPartition p s) where
  free := h.free
  events := h.events.cons (e := .added p) trivial
  uncancelled := by
    intro q hq hne
    simp only [MigrationTarget.addPartition, cancelled]
    split
    · rfl
    · rename_i hpq
      rcases mem_append.mp hq with hold | hlast
      · exact h.uncancelled q hold hne
      · exact absurd (mem_singleton.mp hlast).symm hpq
  busy := by
    intro hpart
    obtain ⟨hbusy, hactors⟩ := h.busy hpart
    refine ⟨⟨hbusy.source, ?_, hbusy.queue, hbusy.keys, ?_, hbusy.working, hbusy.actors,
      hbusy.distinct⟩,
      hactors⟩
    · simp only [MigrationTarget.addPartition, cancelled]
      split
      · rfl
      · exact hbusy.uncancelled
    · intro info hinfo hready
      simp only [MigrationTarget.addPartition]
      rw [sinceStart_cons _ (by rintro ⟨⟩)]
      exact mem_cons_of_mem _ (hbusy.received info hinfo hready)
  clean := fun hpart => ⟨(h.clean hpart).queue, (h.clean hpart).map, (h.clean hpart).actors⟩
  idle := by rintro _ ⟨⟩

theorem Inv.startPartitionMigration (hkeys : (stores.map StoreConfig.key).Nodup)
    {primary : ℤ → ℤ} (hguard : GoesOn stores s (.startPartitionMigration primary)) :
    Inv stores (startPartitionMigration stores primary s) := by
  simp only [MigrationTarget.startPartitionMigration]
  split
  · rename_i hpart
    have hclean := h.clean hpart
    exact Inv.next hkeys ⟨hclean.queue, hclean.map, hclean.actors⟩ h.free h.events h.uncancelled
      (by rintro ⟨⟩) (hguard hpart)
  · rename_i hpart
    refine ⟨h.free, h.events, h.uncancelled, fun hne => ?_, fun hnone => absurd hnone hpart,
      fun hnone => absurd hnone hpart⟩
    obtain ⟨hbusy, hactors⟩ := h.busy hne
    exact ⟨⟨hbusy.source, hbusy.uncancelled, hbusy.queue, hbusy.keys, hbusy.received, hbusy.working,
      hbusy.actors, hbusy.distinct⟩, hactors⟩

/-- A partition that is not current is cleared: it is no longer in the queue. -/
theorem Inv.clearPartitionData {p : ℤ} (hp : p ≠ s.partId) :
    Inv stores (clearPartitionData p s) := by
  simp only [MigrationTarget.clearPartitionData, if_neg hp.symm]
  have hcancelled : ∀ q, q ≠ p → cancelled q (.cleared p :: s.log) = cancelled q s.log := by
    intro q hq
    rw [cancelled, if_neg (Ne.symm hq)]
  refine ⟨h.free, h.events.cons (e := .cleared p) trivial, ?_, fun hne => ?_, fun hnone => ?_, ?_⟩
  · intro q hq hne
    obtain ⟨q', hq', hmap⟩ := mem_map.mp hq
    split at hmap
    · exact absurd hmap.symm hne
    · rename_i hne'
      subst hmap
      exact (hcancelled q' hne').trans (h.uncancelled q' hq' hne)
  · obtain ⟨hbusy, hactors⟩ := h.busy hne
    refine ⟨⟨hbusy.source, (hcancelled _ (Ne.symm hp)).trans hbusy.uncancelled, hbusy.queue,
      hbusy.keys, ?_,
      hbusy.working, hbusy.actors, hbusy.distinct⟩, hactors⟩
    intro info hinfo hready
    simp only
    rw [sinceStart_cons _ (by rintro ⟨⟩)]
    exact mem_cons_of_mem _ (hbusy.received info hinfo hready)
  · have hclean := h.clean hnone
    exact ⟨hclean.queue, hclean.map, hclean.actors⟩
  · intro hnone hdue
    simp only
    rw [h.idle hnone hdue, map_nil]

/-- The source leaves: no actor stays at work, and no other source is there to go on with. -/
theorem Inv.handleMemberLeave (hkeys : (stores.map StoreConfig.key).Nodup)
    {m : ℤ} {primary : ℤ → ℤ} (hguard : GoesOn stores s (.memberLeave m primary)) :
    Inv stores (handleMemberLeave stores primary m s) := by
  simp only [MigrationTarget.handleMemberLeave]
  split
  · rename_i hleave
    obtain ⟨hpart, hm⟩ := hleave
    obtain ⟨hbusy, -⟩ := h.busy hpart
    have hnone := hguard hpart hm
    refine Inv.next hkeys ⟨rfl, rfl, ?_⟩ h.free h.events ?_ (fun _ => hnone) (fun hs =>
      absurd hs hnone)
    · simp only [cancelActors, filter_eq_nil_iff, decide_eq_true_eq, not_not]
      intro a ha
      obtain ⟨-, -, info, hinfo, -, -, hid⟩ := hbusy.actors a ha
      exact ⟨info, hinfo, hid⟩
    · intro p hp hne
      rcases mem_append.mp hp with hold | hlast
      · exact h.uncancelled p hold hne
      · rw [mem_singleton.mp hlast]
        exact hbusy.uncancelled
  · exact h

end

/-- The entries when a store is complete. -/
def completed (key : Key) (infos : List StoreMigrationInfo) : List StoreMigrationInfo :=
  infos.map fun info =>
    if info.key = key then { info with state := .ready, storeActorId := none } else info

theorem completed_keys (key : Key) (infos : List StoreMigrationInfo) :
    (completed key infos).map StoreMigrationInfo.key = infos.map StoreMigrationInfo.key := by
  rw [completed, map_map]
  refine map_congr_left fun info _ => ?_
  simp only [comp_apply]
  split <;> rfl

/-- An entry of the store itself is ready, the others are what they were. -/
theorem mem_completed {key : Key} {infos : List StoreMigrationInfo} {info : StoreMigrationInfo}
    (h : info ∈ completed key infos) :
    (info.key = key ∧ info.state = .ready) ∨ (info.key ≠ key ∧ info ∈ infos) := by
  obtain ⟨old, hold, heq⟩ := mem_map.mp h
  split at heq
  · rename_i hkey
    rw [← heq]
    exact .inl ⟨hkey, rfl⟩
  · rename_i hkey
    rw [← heq]
    exact .inr ⟨hkey, hold⟩

/-- The actors that remain have requested other stores. -/
theorem Busy.others (h : Busy stores s) {i : ℕ} {a a' : StoreMigrationTargetActor}
    (ha : s.actors[i]? = some a) (ha' : a' ∈ s.actors.eraseIdx i) :
    a' ∈ s.actors ∧ a'.request ≠ a.request := by
  obtain ⟨hi, rfl⟩ := List.getElem?_eq_some_iff.mp ha
  refine ⟨eraseIdx_subset ha', fun heq => ?_⟩
  have hperm := (getElem_cons_eraseIdx_perm hi).map StoreMigrationTargetActor.request
  have hnodup := hperm.nodup_iff.mpr h.distinct
  rw [map_cons, nodup_cons] at hnodup
  exact hnodup.1 (mem_map.mpr ⟨a', ha', heq⟩)

/-- A store is complete, and others of the partition are not. -/
theorem Busy.report (h : Busy stores s) {i : ℕ} {a : StoreMigrationTargetActor}
    (ha : s.actors[i]? = some a) :
    Busy stores { s with
      actors := s.actors.eraseIdx i, log := .received s.partId a.request :: s.log
      storeMigrationMap := completed a.request s.storeMigrationMap } where
  __ := h
  keys := (completed_keys _ _).trans h.keys
  received := by
    intro info hinfo hready
    simp only
    rw [sinceStart_cons _ (by rintro ⟨⟩)]
    rcases mem_completed hinfo with ⟨hkey, -⟩ | ⟨-, hold⟩
    · rw [hkey]
      exact mem_cons_self
    · exact mem_cons_of_mem _ (h.received info hold hready)
  working := by
    intro info hinfo hnot
    rcases mem_completed hinfo with ⟨-, hready⟩ | ⟨hkey, hold⟩
    · exact absurd hready hnot
    · obtain ⟨a', ha', hrequest⟩ := h.working info hold hnot
      rcases Common.eq_or_mem_eraseIdx ha ha' with rfl | hmem
      · exact absurd hrequest.symm hkey
      · exact ⟨a', hmem, hrequest⟩
  actors := by
    intro a' ha'
    obtain ⟨hmem, hne⟩ := h.others ha ha'
    obtain ⟨hpartId, hstore, info, hinfo, hkey, hrest⟩ := h.actors a' hmem
    refine ⟨hpartId, hstore, info, mem_map.mpr ⟨info, hinfo, ?_⟩, hkey, hrest⟩
    rw [if_neg]
    rw [hkey]
    exact hne
  distinct := h.distinct.sublist (List.Sublist.map _ (eraseIdx_sublist _ _))

/-- A store actor reports. When all stores are there, the next partition starts. -/
theorem Inv.storeMigrationComplete (h : Inv stores s) (hkeys : (stores.map StoreConfig.key).Nodup)
    {i : ℕ} {primary : ℤ → ℤ} {a : StoreMigrationTargetActor} (ha : s.actors[i]? = some a) :
    Inv stores (handleStoreMigrationComplete stores primary a.request
      { s with actors := s.actors.eraseIdx i, log := .received s.partId a.request :: s.log }) := by
  have hmem : a ∈ s.actors := mem_of_getElem? ha
  have hpart : s.partId ≠ -1 := by
    intro hnone
    rw [(h.clean hnone).actors] at hmem
    cases hmem
  obtain ⟨hbusy, -⟩ := h.busy hpart
  have hreport := hbusy.report ha
  obtain ⟨-, -, info, hinfo, hkey, -⟩ := hbusy.actors a hmem
  have hany : s.storeMigrationMap.any (·.key = a.request) = true :=
    any_eq_true.mpr ⟨info, hinfo, decide_eq_true hkey⟩
  have hlog : LogOk stores (.received s.partId a.request :: s.log) :=
    h.events.cons (e := .received s.partId a.request) trivial
  have hqueue := hbusy.queue
  rw [hqueue] at hreport
  simp only [handleStoreMigrationComplete, if_pos hany, hqueue]
  rw [← completed]
  split
  · rename_i hwaiting
    refine ⟨h.free, hlog, h.uncancelled, fun _ => ⟨hreport, ?_⟩, fun hnone => absurd hnone hpart,
      fun hnone => absurd hnone hpart⟩
    obtain ⟨info', hinfo', hnot⟩ := any_eq_true.mp hwaiting
    obtain ⟨a', ha', -⟩ := hreport.working info' hinfo' (of_decide_eq_true hnot)
    exact ne_nil_of_mem ha'
  · rename_i hdone
    have hready : ∀ info ∈ completed a.request s.storeMigrationMap, info.state = .ready := by
      intro info hinfo
      by_contra hnot
      exact hdone (any_eq_true.mpr ⟨info, hinfo, decide_eq_true hnot⟩)
    have hactors : s.actors.eraseIdx i = [] := by
      refine eq_nil_iff_forall_not_mem.mpr fun a' ha' => ?_
      obtain ⟨-, -, info, hinfo, -, hnot, -⟩ := hreport.actors a' ha'
      exact hnot (hready info hinfo)
    have hstores : ∃ store ∈ stores, store.partitioned = true := by
      have hmap : info.key ∈ (stores.filter StoreConfig.partitioned).map StoreConfig.key := by
        rw [← hbusy.keys]
        exact mem_map_of_mem hinfo
      obtain ⟨store, hstore, -⟩ := mem_map.mp hmap
      exact ⟨store, (mem_filter.mp hstore).1, (mem_filter.mp hstore).2⟩
    refine Inv.next hkeys ⟨rfl, rfl, hactors⟩ h.free ((hlog.cons ?_).cons trivial) h.uncancelled
      (by rintro ⟨⟩) fun _ => hstores
    intro _ store hstore hpartitioned
    have hmap : store.key ∈
        (completed a.request s.storeMigrationMap).map StoreMigrationInfo.key := by
      rw [completed_keys, hbusy.keys]
      exact mem_map_of_mem (mem_filter.mpr ⟨hstore, hpartitioned⟩)
    obtain ⟨info', hinfo', hkey'⟩ := mem_map.mp hmap
    rw [← hkey']
    exact hreport.received info' hinfo' (hready info' hinfo')

theorem Inv.step (h : Inv stores s) (hkeys : (stores.map StoreConfig.key).Nodup) {a : Step}
    (hguard : GoesOn stores s a) (hstep : step stores s a = some s') : Inv stores s' := by
  unfold MigrationTarget.step at hstep
  rw [if_neg (by rw [h.free]; rintro ⟨⟩)] at hstep
  cases a with
  | addPartition p =>
    cases hstep
    exact h.addPartition p
  | startPartitionMigration primary =>
    cases hstep
    exact h.startPartitionMigration hkeys hguard
  | clearPartitionData p =>
    cases hstep
    exact h.clearPartitionData hguard
  | storeMigrationComplete i primary =>
    simp only at hstep
    split at hstep
    · cases hstep
    · rename_i a ha
      have hmem : a ∈ s.actors := mem_of_getElem? ha
      have hpart : s.partId ≠ -1 := by
        intro hnone
        rw [(h.clean hnone).actors] at hmem
        cases hmem
      obtain ⟨hpartId, hstore, -⟩ := (h.busy hpart).1.actors a hmem
      rw [if_pos hstore, hpartId, hstore] at hstep
      cases hstep
      exact h.storeMigrationComplete hkeys ha
  | memberLeave m primary =>
    cases hstep
    exact h.handleMemberLeave hkeys hguard

end Steps

/-- In every run in which no path is taken that forgets to go on, the actor is never stuck, and
neither declares a partition ready too early nor requests a cancelled one. -/
theorem sound_of_goesOn {stores : List StoreConfig} (hkeys : (stores.map StoreConfig.key).Nodup)
    {s : State}
    (hrun : Common.Reaches (step stores) (GoesOn stores) {} s) : Sound stores s :=
  (hrun.invariant (P := Inv stores) (inv_init stores)
    fun _ _ _ h hguard hstep => h.step hkeys hguard hstep).sound

/-- Two partitioned stores and a replicated one. -/
def threeStores : List StoreConfig :=
  [⟨("s", "orders"), true⟩, ⟨("s", "regions"), false⟩, ⟨("s", "parts"), true⟩]

/-- Two partitions are added and the second is cleared while the first one is migrated. -/
def clearWaiting : List Step :=
  [.addPartition 0, .addPartition 1, .startPartitionMigration fun _ => 7, .clearPartitionData 1,
    .storeMigrationComplete 1 fun _ => 7, .storeMigrationComplete 0 fun _ => 7]

theorem sound_of_goesOn_clearWaiting : ∃ s,
    Common.Reaches (step threeStores) (GoesOn threeStores) {} s ∧
      .stateChanged 0 .ready 7 ∈ s.log ∧ Sound threeStores s := by
  have hbool : (Common.replay (step threeStores) (GoesOn threeStores) {} clearWaiting).any
      (fun s => decide (.stateChanged 0 .ready 7 ∈ s.log)) = true := by
    decide +kernel
  obtain ⟨s, hs, hready⟩ := (Option.any_eq_true _ _).mp hbool
  have hrun := Common.reaches_of_replay hs
  exact ⟨s, hrun, of_decide_eq_true hready, sound_of_goesOn (by decide) hrun⟩

/-- Two partitions are added and the first is cleared while it is migrated. -/
def clearCurrent : List Step :=
  [.addPartition 0, .addPartition 1, .startPartitionMigration fun _ => 7, .clearPartitionData 0]

/-- The second partition waits forever. -/
theorem not_sound_of_run : ¬ ∀ s, Common.Reaches (step threeStores) Common.anyStep {} s →
    Sound threeStores s := by
  intro hall
  have hbool : (Common.replay (step threeStores) Common.anyStep {} clearCurrent).any
      (fun s => decide (s.partId = 0) && s.actors.isEmpty && decide (s.partitionQueue = [1])) =
        true := by
    decide +kernel
  obtain ⟨s, hs, hend⟩ := (Option.any_eq_true _ _).mp hbool
  simp only [Bool.and_eq_true, decide_eq_true_eq, List.isEmpty_iff] at hend
  obtain ⟨⟨hpart, hactors⟩, -⟩ := hend
  obtain ⟨a, ha, -⟩ := (hall s (Common.reaches_of_replay hs)).progress (by rw [hpart]; decide)
  rw [hactors] at ha
  cases ha

end MigrationTarget

end Idgs.Store
