import Idgs.Store.MigrationTarget

/-!
# Migrating a partition in batches

A `storeMigrationBatchSize` other than `-1` bounds the stores of a partition that are migrated at a
time: the others wait in `storeMigrationQueue`, and each store that is complete lets the next one
start. The constructor's value is `-1`, with which no store ever waits.
-/

namespace Idgs.Store

open List

namespace MigrationTarget

/-! ## The actor with any batch size -/

namespace Batched

variable (storeMigrationBatchSize : ℤ) (stores : List StoreConfig) (primary : ℤ → ℤ)

/-- `batchSize` in `nextPartitionMigration`. -/
def batchSize : ℤ := if storeMigrationBatchSize = -1 then (stores.length : ℤ)
    else storeMigrationBatchSize

/-- The loop over the stores. -/
def migrateStores (s : State) : State :=
  stores.foldl (migrateStore (batchSize storeMigrationBatchSize stores)) s

/-- `MigrationTargetActor::nextPartitionMigration`. -/
def nextPartitionMigration (locked : Bool) : List ℤ → State → State
  | [], s => { s with partitionQueue := [], partId := -1, sourceMemberId := -1 }
  | p :: queue, s =>
    if p = -1 then nextPartitionMigration locked queue s
    else
      let s := { s with partId := p, sourceMemberId := primary p }
      if primary p = -1 then
        nextPartitionMigration locked queue (multicastPartitionStateChangeEvent p .ready s)
      else
        let s := multicastPartitionStateChangeEvent p .migrating
          { s with partitionQueue := queue, log := .started p :: s.log }
        if locked then { s with blocked := true }
        else migrateStores storeMigrationBatchSize stores s

/-- `MigrationTargetActor::startPartitionMigration`. -/
def startPartitionMigration (s : State) : State :=
  let s := { s with due := false }
  if s.partId = -1 then
    nextPartitionMigration storeMigrationBatchSize stores primary false s.partitionQueue s else s

/-- `MigrationTargetActor::handleMemberLeave`. -/
def handleMemberLeave (memberId : ℤ) (s : State) : State :=
  if s.partId ≠ -1 ∧ memberId = s.sourceMemberId then
    let s := { cancelActors s with storeMigrationMap := [] }
    nextPartitionMigration storeMigrationBatchSize stores primary true
      (s.partitionQueue ++ [s.partId]) s
  else s

/-- `MigrationTargetActor::handleStoreMigrationComplete`. -/
def handleStoreMigrationComplete (key : Key) (s : State) : State :=
  if s.storeMigrationMap.any (·.key = key) then
    let infos := s.storeMigrationMap.map fun info =>
      if info.key = key then { info with state := .ready, storeActorId := none } else info
    match s.storeMigrationQueue with
    | store :: queue =>
      { requestStore store key s with
        storeMigrationQueue := queue
        storeMigrationMap := infos.map fun info =>
          if info.key = store then { info with storeActorId := some s.nextActorId } else info }
    | [] =>
      if infos.any (·.state ≠ .ready) then { s with storeMigrationMap := infos }
      else
        let s := multicastPartitionStateChangeEvent s.partId .ready { s with
          storeMigrationMap := [] }
        nextPartitionMigration storeMigrationBatchSize stores primary false s.partitionQueue
          { s with log := .partitionMigrationComplete s.partId s.sourceMemberId :: s.log }
  else s

/-- One step. -/
def step (s : State) (a : Step) : Option State :=
  if s.blocked then none
  else
    match a with
    | .addPartition p => some (addPartition p s)
    | .startPartitionMigration primary =>
      some (startPartitionMigration storeMigrationBatchSize stores primary s)
    | .clearPartitionData p => some (clearPartitionData p s)
    | .storeMigrationComplete i primary =>
      match s.actors[i]? with
      | none => none
      | some a =>
        let log := if a.store = a.request then .received a.partId a.store :: s.log else s.log
        some (handleStoreMigrationComplete storeMigrationBatchSize stores primary a.request
          { s with actors := s.actors.eraseIdx i, log := log })
    | .memberLeave m primary => some (handleMemberLeave storeMigrationBatchSize stores primary m s)

end Batched

/-! ## What is promised -/

/-- Keys are compared by their two names. -/
local instance : LawfulBEq Key := inferInstance

/-- The stores that a partition consists of. -/
def partitionedKeys (stores : List StoreConfig) : List Key :=
  (stores.filter StoreConfig.partitioned).map StoreConfig.key

/-- How often a store has been requested since the migration of the partition was started. -/
def requests (p : ℤ) (key : Key) (log : List Event) : ℕ :=
  (sinceStart p log).count (.requested p key)

/-- The partition's migration has requested each of its stores once, and nothing else. -/
def RequestedOnce (stores : List StoreConfig) (p : ℤ) (log : List Event) : Prop :=
  ∀ key, requests p key log = if key ∈ partitionedKeys stores then 1 else 0

/-- The stores of a partition migrate under their own names: an actor requests the store that it
fills; no store is requested twice, and each has been when no transfer is in progress or the
partition is declared ready; no more than a batch is in progress; and a partition from a source is
declared ready when all transfers are complete. -/
structure OwnNames (storeMigrationBatchSize : ℤ) (stores : List StoreConfig) (s : State) :
    Prop where
  own : ∀ a ∈ s.actors, a.request = a.store
  atMostOnce : s.partId ≠ -1 → ∀ key, requests s.partId key s.log ≤ 1
  all : s.partId ≠ -1 → s.actors = [] → RequestedOnce stores s.partId s.log
  batch : (s.actors.length : ℤ) ≤ Batched.batchSize storeMigrationBatchSize stores
  ready : ∀ p sourceMemberId before, .stateChanged p .ready sourceMemberId :: before <:+ s.log →
    sourceMemberId ≠ -1 → RequestedOnce stores p before ∧
      ∀ key ∈ partitionedKeys stores, .received p key ∈ sinceStart p before

/-- The migration of the current partition is neither cancelled nor cut off from its source. -/
def Undisturbed (s : State) : Step → Prop
  | .clearPartitionData p => p ≠ s.partId
  | .memberLeave m _ => s.partId ≠ -1 → m ≠ s.sourceMemberId
  | _ => True

instance (s : State) (a : Step) : Decidable (Undisturbed s a) :=
  match a with
  | .clearPartitionData p => inferInstanceAs (Decidable (p ≠ s.partId))
  | .memberLeave m _ => inferInstanceAs (Decidable (s.partId ≠ -1 → m ≠ s.sourceMemberId))
  | .addPartition _ => .isTrue trivial
  | .startPartitionMigration _ => .isTrue trivial
  | .storeMigrationComplete _ _ => .isTrue trivial

/-! ## Batches that take all stores -/

section Loop

variable {stores rest : List StoreConfig} {s s' : State}

theorem length_insertInfo_le (info : StoreMigrationInfo) (infos : List StoreMigrationInfo) :
    (insertInfo info infos).length ≤ infos.length + 1 := by
  unfold insertInfo
  split
  · exact Nat.le_succ _
  · rw [length_append, length_singleton]

/-- A round that starts a store. -/
theorem migrateStore_of_le {batchSize : ℤ} {store : StoreConfig} (hpart : store.partitioned = true)
    (hsize : (s.storeMigrationMap.length : ℤ) ≤ batchSize) :
    migrateStore batchSize s store = { requestStore store.key store.key s with
      storeMigrationMap :=
        insertInfo { key := store.key, storeActorId := some s.nextActorId } s.storeMigrationMap }
          := by
  rw [migrateStore, if_pos hpart, if_neg (by omega)]

theorem migrateStore_of_not {batchSize : ℤ} {store : StoreConfig}
    (hpart : store.partitioned ≠ true) :
    migrateStore batchSize s store = s := by
  rw [migrateStore, if_neg hpart]

/-- Two batches that take all the stores that are left are the same. -/
theorem foldl_migrateStore_congr {b b' : ℤ}
    (hb : (s.storeMigrationMap.length : ℤ) + (rest.filter StoreConfig.partitioned).length ≤ b)
    (hb' : (s.storeMigrationMap.length : ℤ) + (rest.filter StoreConfig.partitioned).length ≤ b') :
    rest.foldl (migrateStore b) s = rest.foldl (migrateStore b') s := by
  induction rest generalizing s with
  | nil => rfl
  | cons store rest ih =>
    rw [foldl_cons, foldl_cons]
    by_cases hpart : store.partitioned = true
    · rw [filter_cons_of_pos hpart, length_cons] at hb hb'
      rw [migrateStore_of_le hpart (by omega), migrateStore_of_le hpart (by omega)]
      have hlength :=
        length_insertInfo_le { key := store.key, storeActorId := some s.nextActorId }
        s.storeMigrationMap
      refine ih ?_ ?_
      · dsimp only
        omega
      · dsimp only
        omega
    · rw [filter_cons_of_neg hpart] at hb hb'
      rw [migrateStore_of_not hpart, migrateStore_of_not hpart]
      exact ih hb hb'

/-- The requests of a loop that starts all stores, the last one first. -/
theorem foldl_migrateStore_log {b : ℤ}
    (hb : (s.storeMigrationMap.length : ℤ) + (rest.filter StoreConfig.partitioned).length ≤ b) :
    (rest.foldl (migrateStore b) s).storeMigrationQueue = s.storeMigrationQueue ∧
      (rest.foldl (migrateStore b) s).log =
        (partitionedKeys rest).reverse.map (Event.requested s.partId) ++ s.log := by
  induction rest generalizing s with
  | nil => exact ⟨rfl, rfl⟩
  | cons store rest ih =>
    rw [foldl_cons]
    by_cases hpart : store.partitioned = true
    · rw [filter_cons_of_pos hpart, length_cons] at hb
      rw [migrateStore_of_le hpart (by omega)]
      have hlength :=
        length_insertInfo_le { key := store.key, storeActorId := some s.nextActorId }
        s.storeMigrationMap
      obtain ⟨hqueue, hlog⟩ := ih (s := { requestStore store.key store.key s with
        storeMigrationMap :=
          insertInfo { key := store.key, storeActorId := some s.nextActorId } s.storeMigrationMap
            }) (by
            dsimp only
            omega)
      refine ⟨hqueue, hlog.trans ?_⟩
      rw [partitionedKeys, partitionedKeys, filter_cons_of_pos hpart, map_cons,
        reverse_cons, map_append, append_assoc]
      rfl
    · rw [filter_cons_of_neg hpart] at hb
      rw [migrateStore_of_not hpart]
      obtain ⟨hqueue, hlog⟩ := ih hb
      refine ⟨hqueue, hlog.trans ?_⟩
      rw [partitionedKeys, partitionedKeys, filter_cons_of_neg hpart]

/-- A loop with a full batch has more than the batch in progress. -/
theorem length_actors_foldl {b : ℤ} (hold : (s.storeMigrationMap.length : ℤ) ≤ b →
      s.storeMigrationMap.length ≤ s.actors.length) (hfull :
      b < s.storeMigrationMap.length → b < s.actors.length)
    (hb : b < s.actors.length + (rest.filter StoreConfig.partitioned).length) :
    b < (rest.foldl (migrateStore b) s).actors.length := by
  induction rest generalizing s with
  | nil => simpa using hb
  | cons store rest ih =>
    rw [foldl_cons]
    by_cases hpart : store.partitioned = true
    · rw [filter_cons_of_pos hpart, length_cons] at hb
      by_cases hsize : (s.storeMigrationMap.length : ℤ) ≤ b
      · rw [migrateStore_of_le hpart hsize]
        have hlength :=
          length_insertInfo_le { key := store.key, storeActorId := some s.nextActorId }
          s.storeMigrationMap
        have hnew : (requestStore store.key store.key s).actors.length = s.actors.length + 1 := by
          simp [requestStore]
        have hmap := hold hsize
        refine ih ?_ ?_ ?_ <;> dsimp only <;> omega
      · have hactors := hfull (by omega)
        rw [migrateStore, if_pos hpart, if_pos (by omega)]
        refine ih (fun h => ?_) (fun _ => hactors) ?_
        · dsimp only at h ⊢
          have hge : s.storeMigrationMap.length ≤
              (insertInfo { key := store.key } s.storeMigrationMap).length := by
            unfold insertInfo
            split
            · exact Nat.le_refl _
            · rw [length_append]
              exact Nat.le_add_right _ _
          omega
        · dsimp only
          omega
    · rw [filter_cons_of_neg hpart] at hb
      rw [migrateStore_of_not hpart]
      exact ih hold hfull hb

end Loop

/-- The batch takes all stores of a partition. -/
def TakesAll (storeMigrationBatchSize : ℤ) (stores : List StoreConfig) : Prop :=
  storeMigrationBatchSize = -1 ∨ ((partitionedKeys stores).length : ℤ) ≤ storeMigrationBatchSize

namespace TakesAll

variable {b : ℤ} {stores : List StoreConfig} {s : State}

theorem le_batchSize (h : TakesAll b stores) :
    ((stores.filter StoreConfig.partitioned).length : ℤ) ≤ Batched.batchSize b stores := by
  have hle := length_filter_le StoreConfig.partitioned stores
  unfold Batched.batchSize
  split
  · omega
  · rename_i hne
    have hb := h.resolve_left hne
    rwa [partitionedKeys, length_map] at hb

/-- With the constructor's value the actor is the one of the code. -/
theorem migrateStores_eq (h : TakesAll b stores) (hmap : s.storeMigrationMap = []) :
    Batched.migrateStores b stores s = migrateStores stores s := by
  have hall : TakesAll storeMigrationBatchSize stores := .inl rfl
  have hle : ∀ {b}, TakesAll b stores → (s.storeMigrationMap.length : ℤ) +
      (stores.filter StoreConfig.partitioned).length ≤ Batched.batchSize b stores := by
    intro b hb
    rw [hmap]
    simpa using hb.le_batchSize
  exact foldl_migrateStore_congr (hle h) (hle hall)

theorem nextPartitionMigration_eq (h : TakesAll b stores) (primary : ℤ → ℤ) (locked : Bool)
    {queue : List ℤ} (hmap : s.storeMigrationMap = []) :
    Batched.nextPartitionMigration b stores primary locked queue s =
      nextPartitionMigration stores primary locked queue s := by
  induction queue generalizing s with
  | nil => rfl
  | cons p queue ih =>
    rw [Batched.nextPartitionMigration, nextPartitionMigration]
    split
    · exact ih hmap
    · dsimp only
      split
      · exact ih hmap
      · split
        · rfl
        · exact h.migrateStores_eq hmap

end TakesAll

/-! ## Runs in which all stores are started together -/

/-- What the requests of a run rest on: no store waits, and the map is empty between two
partitions. -/
structure Settled (s : State) : Prop where
  queue : s.storeMigrationQueue = []
  map : s.partId = -1 → s.storeMigrationMap = []

/-- With a batch that takes all stores, the actor does what it does without batches. -/
theorem TakesAll.step_eq {b : ℤ} {stores : List StoreConfig} (h : TakesAll b stores) {s : State}
    (hs : Settled s) (a : Step) : Batched.step b stores s a = step stores s a := by
  unfold Batched.step step
  split
  · rfl
  · cases a with
    | addPartition p | clearPartitionData p => rfl
    | startPartitionMigration primary =>
      dsimp only [Batched.startPartitionMigration, startPartitionMigration]
      split
      · rename_i hpart
        exact congrArg some (h.nextPartitionMigration_eq primary false (hs.map hpart))
      · rfl
    | storeMigrationComplete i primary =>
      dsimp only
      cases s.actors[i]? with
      | none => rfl
      | some a =>
        dsimp only [Batched.handleStoreMigrationComplete, handleStoreMigrationComplete]
        rw [hs.queue]
        dsimp only
        split
        · split
          · rfl
          · exact congrArg some (h.nextPartitionMigration_eq primary false rfl)
        · rfl
    | memberLeave m primary =>
      dsimp only [Batched.handleMemberLeave, handleMemberLeave]
      split
      · exact congrArg some (h.nextPartitionMigration_eq primary true rfl)
      · rfl

/-- A partition was declared ready after all its stores had been requested. -/
def ReadyOnce (stores : List StoreConfig) (log : List Event) : Prop :=
  ∀ p sourceMemberId before, .stateChanged p .ready sourceMemberId :: before <:+ log →
    sourceMemberId ≠ -1 →
    RequestedOnce stores p before

section Log

variable {stores : List StoreConfig} {log : List Event} {p : ℤ} {e : Event}

theorem RequestedOnce.cons (h : RequestedOnce stores p log) (hstarted : e ≠ .started p)
    (hrequested : ∀ key, e ≠ .requested p key) : RequestedOnce stores p (e :: log) := by
  intro key
  rw [requests, sinceStart_cons log hstarted, count_cons_of_ne (hrequested key)]
  exact h key

/-- The requests of the loop are those of the partition. -/
theorem requestedOnce_started (hkeys : (partitionedKeys stores).Nodup) {sourceMemberId : ℤ} :
    RequestedOnce stores p ((partitionedKeys stores).reverse.map (Event.requested p) ++
      .stateChanged p .migrating sourceMemberId :: .started p :: log) := by
  intro key
  have hothers : ∀ e ∈ (partitionedKeys stores).reverse.map (Event.requested p),
      decide (e ≠ .started p) = true := by
    intro e he
    obtain ⟨key, -, rfl⟩ := mem_map.mp he
    rfl
  have hsince : sinceStart p ((partitionedKeys stores).reverse.map (Event.requested p) ++
      .stateChanged p .migrating sourceMemberId :: .started p :: log) =
      (partitionedKeys stores).reverse.map (Event.requested p) ++
      [.stateChanged p .migrating sourceMemberId] := by
    rw [sinceStart, takeWhile_append_of_pos hothers, takeWhile_cons_of_pos rfl,
      takeWhile_cons_of_neg (by simp)]
  have hinjective : Function.Injective (Event.requested p) := fun _ _ heq => by cases heq; rfl
  have hnodup : ((partitionedKeys stores).reverse.map (Event.requested p)).Nodup :=
    (nodup_reverse.mpr hkeys).map hinjective
  rw [requests, hsince, count_append, hnodup.count, count_cons_of_ne (by rintro ⟨⟩),
    count_nil, Nat.add_zero]
  simp only [mem_map_of_injective hinjective, mem_reverse]

theorem ReadyOnce.cons (h : ReadyOnce stores log)
    (he : ∀ p sourceMemberId, e = .stateChanged p .ready sourceMemberId → sourceMemberId ≠ -1 →
      RequestedOnce stores p log) : ReadyOnce stores (e :: log) := by
  intro p sourceMemberId before hsuffix hsource
  rcases suffix_cons_iff.mp hsuffix with heq | hold
  · cases heq
    exact he p sourceMemberId rfl hsource
  · exact h p sourceMemberId before hold hsource

theorem ReadyOnce.requested (h : ReadyOnce stores log) (keys : List Key) :
    ReadyOnce stores (keys.map (Event.requested p) ++ log) := by
  induction keys with
  | nil => exact h
  | cons key keys ih => exact ih.cons (by rintro _ _ ⟨⟩)

end Log

/-- The requests so far. -/
structure Requests (stores : List StoreConfig) (s : State) : Prop extends Settled s where
  once : s.partId ≠ -1 → RequestedOnce stores s.partId s.log
  ready : ReadyOnce stores s.log

section Requests

variable {stores : List StoreConfig} {s s' : State}

theorem requests_init (stores : List StoreConfig) : Requests stores {} where
  queue := rfl
  map := fun _ => rfl
  once := fun h => absurd rfl h
  ready := by
    intro p sourceMemberId before hsuffix
    exact absurd (suffix_nil.mp hsuffix) (cons_ne_nil _ _)

/-- A state that differs in what its requests do not rest on. -/
theorem Requests.congr (h : Requests stores s)
    (hqueue : s'.storeMigrationQueue = s.storeMigrationQueue)
    (hmap : s'.storeMigrationMap = s.storeMigrationMap) (hpart : s'.partId = s.partId)
    (hlog : s'.log = s.log) : Requests stores s' where
  queue := hqueue.trans h.queue
  map := fun hnone => hmap.trans (h.map (hpart.symm.trans hnone))
  once := fun hne => by
    rw [hpart, hlog]
    exact h.once (hpart ▸ hne)
  ready := hlog ▸ h.ready

/-- The loop over the stores of a partition that has just been started. -/
theorem requests_migrateStores (hkeys : (partitionedKeys stores).Nodup) {log : List Event}
    {sourceMemberId : ℤ}
    (hpart : s.partId ≠ -1) (hqueue : s.storeMigrationQueue = []) (hmap : s.storeMigrationMap = [])
    (hlog : s.log = .stateChanged s.partId .migrating sourceMemberId :: .started s.partId :: log)
    (hready : ReadyOnce stores log) : Requests stores (migrateStores stores s) := by
  have hall : (s.storeMigrationMap.length : ℤ) + (stores.filter StoreConfig.partitioned).length ≤
      Batched.batchSize storeMigrationBatchSize stores := by
    rw [hmap]
    have htakes : TakesAll storeMigrationBatchSize stores := .inl rfl
    simpa using htakes.le_batchSize
  obtain ⟨hqueue', hlog'⟩ := foldl_migrateStore_log hall
  have hpart' : (migrateStores stores s).partId = s.partId := by
    have hloop : ∀ (b : ℤ) (rest : List StoreConfig) (s : State),
        (rest.foldl (migrateStore b) s).partId = s.partId := by
      intro b rest
      induction rest with
      | nil => exact fun _ => rfl
      | cons store rest ih => exact fun s => (ih _).trans (migrateStore_unmoved b s store).partId
    exact hloop _ stores s
  have hstarted : (migrateStores stores s).log =
      (partitionedKeys stores).reverse.map (Event.requested s.partId) ++
      .stateChanged s.partId .migrating sourceMemberId :: .started s.partId :: log := hlog ▸ hlog'
  refine ⟨⟨hqueue'.trans hqueue, fun hnone => absurd (hpart'.symm.trans hnone) hpart⟩, fun _ =>
    ?_, ?_⟩
  · rw [hpart', hstarted]
    exact requestedOnce_started hkeys
  · rw [hstarted]
    exact ((hready.cons (by rintro _ _ ⟨⟩)).cons (by rintro _ _ ⟨⟩)).requested _

/-- The next partition that has a source requests its stores. -/
theorem requests_next (hkeys : (partitionedKeys stores).Nodup) (primary : ℤ → ℤ) {queue : List ℤ}
    (hqueue : s.storeMigrationQueue = []) (hmap : s.storeMigrationMap = [])
    (hready : ReadyOnce stores s.log) :
    Requests stores (nextPartitionMigration stores primary false queue s) := by
  induction queue generalizing s with
  | nil => exact ⟨⟨hqueue, fun _ => hmap⟩, fun hne => absurd rfl hne, hready⟩
  | cons p queue ih =>
    rw [nextPartitionMigration]
    split
    · exact ih hqueue hmap hready
    · rename_i hp
      dsimp only
      split
      · rename_i hnone
        refine ih hqueue hmap (hready.cons ?_)
        intro _ _ heq hsource
        cases heq
        exact absurd hnone hsource
      · exact requests_migrateStores hkeys hp hqueue hmap rfl hready

/-- A store actor is gone, and may have reported a store. -/
theorem Requests.received (h : Requests stores s) (actors : List StoreMigrationTargetActor)
    (a : StoreMigrationTargetActor) : Requests stores { s with
      actors := actors
      log := if a.store = a.request then .received a.partId a.store :: s.log else s.log } := by
  refine ⟨⟨h.queue, h.map⟩, fun hne => ?_, ?_⟩
  · dsimp only
    split
    · exact (h.once hne).cons (by rintro ⟨⟩) (by rintro _ ⟨⟩)
    · exact h.once hne
  · dsimp only
    split
    · exact h.ready.cons (by rintro _ _ ⟨⟩)
    · exact h.ready

/-- A store is complete. When all stores are, the next partition starts. -/
theorem Requests.handleStoreMigrationComplete (h : Requests stores s)
    (hkeys : (partitionedKeys stores).Nodup) (primary : ℤ → ℤ) (key : Key) :
    Requests stores (handleStoreMigrationComplete stores primary key s) := by
  unfold MigrationTarget.handleStoreMigrationComplete
  split
  · rename_i hany
    -- an entry of the map is there, so a partition is current
    have hpart : s.partId ≠ -1 := by
      intro hnone
      rw [h.map hnone] at hany
      cases hany
    dsimp only
    rw [h.queue]
    dsimp only
    split
    · exact ⟨⟨rfl, fun hnone => absurd hnone hpart⟩, h.once, h.ready⟩
    · refine requests_next hkeys primary rfl rfl (ReadyOnce.cons ?_ (by rintro _ _ ⟨⟩))
      refine h.ready.cons ?_
      intro _ _ heq _
      cases heq
      exact h.once hpart
  · exact h

theorem Requests.step (h : Requests stores s) (hkeys : (partitionedKeys stores).Nodup) {a : Step}
    (hguard : Undisturbed s a) (hstep : step stores s a = some s') : Requests stores s' := by
  unfold MigrationTarget.step at hstep
  split at hstep
  · cases hstep
  cases a with
  | addPartition p =>
    cases hstep
    exact ⟨⟨h.queue, h.map⟩, fun hne => (h.once hne).cons (by rintro ⟨⟩) (by rintro _ ⟨⟩),
      h.ready.cons (by rintro _ _ ⟨⟩)⟩
  | startPartitionMigration primary =>
    cases hstep
    unfold startPartitionMigration
    dsimp only
    split
    · rename_i hpart
      exact requests_next hkeys primary h.queue (h.map hpart) h.ready
    · exact h.congr rfl rfl rfl rfl
  | clearPartitionData p =>
    cases hstep
    have hp : s.partId ≠ p := fun heq => hguard heq.symm
    simp only [clearPartitionData, if_neg hp]
    exact ⟨⟨h.queue, h.map⟩, fun hne => (h.once hne).cons (by rintro ⟨⟩) (by rintro _ ⟨⟩),
      h.ready.cons (by rintro _ _ ⟨⟩)⟩
  | storeMigrationComplete i primary =>
    dsimp only at hstep
    split at hstep
    · cases hstep
    rename_i a _
    cases hstep
    exact (h.received _ a).handleStoreMigrationComplete hkeys primary a.request
  | memberLeave m primary =>
    cases hstep
    have hstay : ¬(s.partId ≠ -1 ∧ m = s.sourceMemberId) := fun hleave => hguard hleave.1 hleave.2
    simp only [handleMemberLeave, if_neg hstay]
    exact h

end Requests

/-! ## Own names -/

section Result

variable {b : ℤ} {stores : List StoreConfig} {s s' : State}

/-- Without partitioned stores nothing is ever requested. -/
structure Idle (s : State) : Prop where
  map : s.storeMigrationMap = []
  actors : s.actors = []

theorem foldl_migrateStore_of_none {rest : List StoreConfig}
    (hnone : ∀ store ∈ rest, store.partitioned ≠ true) (b : ℤ)
    (s : State) : rest.foldl (migrateStore b) s = s := by
  induction rest with
  | nil => rfl
  | cons store rest ih =>
    rw [foldl_cons, migrateStore_of_not (hnone store mem_cons_self)]
    exact ih fun other hother => hnone other (mem_cons_of_mem _ hother)

theorem Idle.next (hnone : ∀ store ∈ stores, store.partitioned ≠ true) (primary : ℤ → ℤ)
    {queue : List ℤ} (h : Idle s) : Idle (nextPartitionMigration stores primary false queue s) := by
  induction queue generalizing s with
  | nil => exact ⟨h.map, h.actors⟩
  | cons p queue ih =>
    rw [nextPartitionMigration]
    split
    · exact ih h
    · dsimp only
      split
      · exact ih ⟨h.map, h.actors⟩
      · rw [if_neg Bool.false_ne_true, migrateStores, foldl_migrateStore_of_none hnone]
        exact ⟨h.map, h.actors⟩

theorem Idle.step (hnone : ∀ store ∈ stores, store.partitioned ≠ true) (h : Idle s) {a : Step}
    (hguard : Undisturbed s a) (hstep : step stores s a = some s') : Idle s' := by
  unfold MigrationTarget.step at hstep
  split at hstep
  · cases hstep
  cases a with
  | addPartition p =>
    cases hstep
    exact ⟨h.map, h.actors⟩
  | startPartitionMigration primary =>
    cases hstep
    unfold startPartitionMigration
    dsimp only
    split
    · exact Idle.next hnone primary ⟨h.map, h.actors⟩
    · exact ⟨h.map, h.actors⟩
  | clearPartitionData p =>
    cases hstep
    have hp : s.partId ≠ p := fun heq => hguard heq.symm
    simp only [clearPartitionData, if_neg hp]
    exact ⟨h.map, h.actors⟩
  | storeMigrationComplete i primary =>
    rw [h.actors] at hstep
    cases hstep
  | memberLeave m primary =>
    cases hstep
    have hstay : ¬(s.partId ≠ -1 ∧ m = s.sourceMemberId) := fun hleave => hguard hleave.1 hleave.2
    simp only [handleMemberLeave, if_neg hstay]
    exact h

/-- Where all stores are started together, the run is one without batches. -/
theorem reaches_step (h : TakesAll b stores) (hkeys : (partitionedKeys stores).Nodup)
    (hrun : Common.Reaches (Batched.step b stores) Undisturbed {} s) :
    Common.Reaches (step stores) Undisturbed {} s ∧ Requests stores s := by
  induction hrun with
  | refl => exact ⟨.refl, requests_init stores⟩
  | tail a _ hguard hstep ih =>
    obtain ⟨hrun, hrequests⟩ := ih
    rw [h.step_eq hrequests.toSettled a] at hstep
    exact ⟨hrun.tail a hguard hstep, hrequests.step hkeys hguard hstep⟩

/-- Each actor at work is for another store of the partition. -/
theorem Busy.length_actors_le (h : Busy stores s) :
    s.actors.length ≤ (partitionedKeys stores).length := by
  have hsubset : s.actors.map StoreMigrationTargetActor.request ⊆ partitionedKeys stores := by
    intro key hkey
    obtain ⟨a, ha, rfl⟩ := mem_map.mp hkey
    obtain ⟨-, -, info, hinfo, hrequest, -⟩ := h.actors a ha
    rw [partitionedKeys, ← h.keys, ← hrequest]
    exact mem_map_of_mem hinfo
  have hle := (subperm_of_subset h.distinct hsubset).length_le
  rwa [length_map] at hle

/-- Undisturbed migrations go on, when there are stores. -/
theorem goesOn_of_undisturbed (hstore : ∃ store ∈ stores, store.partitioned = true) {a : Step}
    (h : Undisturbed s a) : GoesOn stores s a := by
  cases a with
  | startPartitionMigration primary => exact fun _ _ => hstore
  | clearPartitionData p => exact h
  | memberLeave m primary => exact fun hpart hm => absurd hm (h hpart)
  | addPartition p => trivial
  | storeMigrationComplete i primary => trivial

/-- A batch that takes all stores lets each migrate under its own name. -/
theorem ownNames_of_takesAll (h : TakesAll b stores) (hkeys : (stores.map StoreConfig.key).Nodup)
    (hrun : Common.Reaches (Batched.step b stores) Undisturbed {} s) : OwnNames b stores s := by
  have hpartitioned : (partitionedKeys stores).Nodup :=
    hkeys.sublist (List.Sublist.map _ filter_sublist)
  obtain ⟨hrun, hrequests⟩ := reaches_step h hpartitioned hrun
  have honce : s.partId ≠ -1 → ∀ key, requests s.partId key s.log ≤ 1 := by
    intro hpart key
    rw [hrequests.once hpart key]
    split
    · exact Nat.le_refl 1
    · exact Nat.zero_le 1
  have hsize : ((partitionedKeys stores).length : ℤ) ≤ Batched.batchSize b stores := by
    rw [partitionedKeys, length_map]
    exact h.le_batchSize
  by_cases hstore : ∃ store ∈ stores, store.partitioned = true
  · have hinv : Inv stores s := hrun.invariant (inv_init stores) fun _ _ _ hinv hguard hstep =>
      hinv.step hkeys (goesOn_of_undisturbed hstore hguard) hstep
    refine ⟨?_, honce, fun hpart _ => hrequests.once hpart, ?_, ?_⟩
    · intro a ha
      by_cases hpart : s.partId = -1
      · rw [(hinv.clean hpart).actors] at ha
        cases ha
      · obtain ⟨-, hown, -⟩ := (hinv.busy hpart).1.actors a ha
        exact hown.symm
    · by_cases hpart : s.partId = -1
      · rw [(hinv.clean hpart).actors, length_nil]
        omega
      · have hle := (hinv.busy hpart).1.length_actors_le
        omega
    · intro p sourceMemberId before hsuffix hsource
      refine ⟨hrequests.ready p sourceMemberId before hsuffix hsource, fun key hkey => ?_⟩
      obtain ⟨store, hmem, rfl⟩ := mem_map.mp hkey
      obtain ⟨hstores, hpart⟩ := mem_filter.mp hmem
      exact hinv.events _ before hsuffix hsource store hstores hpart
  · have hnone : ∀ store ∈ stores, store.partitioned ≠ true :=
      fun store hmem hpart => hstore ⟨store, hmem, hpart⟩
    have hidle : Idle s := hrun.invariant ⟨rfl, rfl⟩ fun _ _ _ hidle hguard hstep =>
      hidle.step hnone hguard hstep
    refine ⟨?_, honce, fun hpart _ => hrequests.once hpart, ?_, ?_⟩
    · rw [hidle.actors]
      exact fun a ha => absurd ha not_mem_nil
    · rw [hidle.actors, length_nil]
      omega
    · intro p sourceMemberId before hsuffix hsource
      refine ⟨hrequests.ready p sourceMemberId before hsuffix hsource, fun key hkey => ?_⟩
      obtain ⟨store, hmem, -⟩ := mem_map.mp hkey
      obtain ⟨hstores, hpart⟩ := mem_filter.mp hmem
      exact absurd hpart (hnone store hstores)

/-- A smaller batch is exceeded as soon as the first partition starts. -/
theorem exists_exceeded (hb : 0 ≤ b) (hfew : b < (partitionedKeys stores).length) :
    ∃ s, Common.Reaches (Batched.step b stores) Undisturbed {} s ∧
      Batched.batchSize b stores < s.actors.length := by
  have hadd : Batched.step b stores {} (.addPartition 0) = some (addPartition 0 {}) := rfl
  have hstart : Batched.step b stores (addPartition 0 {}) (.startPartitionMigration fun _ => 0) =
      some (Batched.startPartitionMigration b stores (fun _ => 0) (addPartition 0 {})) := rfl
  have hrun : Common.Reaches (Batched.step b stores) Undisturbed {} (addPartition 0 {}) :=
    Common.Reaches.refl.tail (.addPartition 0) trivial hadd
  refine ⟨_, hrun.tail (.startPartitionMigration fun _ => 0) trivial hstart, ?_⟩
  have hsize : Batched.batchSize b stores = b := if_neg (by omega)
  have hlength : (partitionedKeys stores).length = (stores.filter StoreConfig.partitioned).length :=
    length_map _
  have hloop : Batched.startPartitionMigration b stores (fun _ => 0) (addPartition 0 {}) =
      stores.foldl (migrateStore (Batched.batchSize b stores))
      (multicastPartitionStateChangeEvent 0 .migrating
        { log := [.started 0, .added 0], partId := 0, sourceMemberId := 0 }) := rfl
  rw [hloop, hsize]
  refine length_actors_foldl (fun _ => Nat.zero_le _) (fun hfull => ?_) ?_
  · simp only [multicastPartitionStateChangeEvent, length_nil] at hfull
    omega
  · simp only [multicastPartitionStateChangeEvent, length_nil]
    omega

end Result

/-- In every run in which no current migration is cancelled or cut off, the stores migrate under
their own names and no more than a batch at a time, if and only if the batch takes all stores of a
partition. -/
theorem ownNames_iff {b : ℤ} (hb : -1 ≤ b) {stores : List StoreConfig}
    (hkeys : (stores.map StoreConfig.key).Nodup) :
    (∀ s, Common.Reaches (Batched.step b stores) Undisturbed {} s → OwnNames b stores s) ↔
      b = -1 ∨ ((partitionedKeys stores).length : ℤ) ≤ b := by
  constructor
  · intro hall
    by_contra hnot
    rw [not_or, not_le] at hnot
    have hpos : 0 ≤ b := by omega
    obtain ⟨s, hrun, hexceeded⟩ := exists_exceeded hpos hnot.2
    have hbatch := (hall s hrun).batch
    omega
  · exact fun h s hrun => ownNames_of_takesAll h hkeys hrun

/-- Two stores fit into a batch of two. -/
theorem ownNames_iff_two :
    (∀ s, Common.Reaches (Batched.step 2 threeStores) Undisturbed {} s → OwnNames 2 threeStores s) ↔
      (2 : ℤ) = -1 ∨ ((partitionedKeys threeStores).length : ℤ) ≤ 2 :=
  ownNames_iff (by decide) (by decide)

/-- Three partitioned stores, which are migrated with a batch size of one. -/
def threePartitioned : List StoreConfig :=
  [⟨("s", "orders"), true⟩, ⟨("s", "lines"), true⟩, ⟨("s", "parts"), true⟩]

/-- A partition is migrated and its first store is complete. -/
def completeFirst : List Step :=
  [.addPartition 0, .startPartitionMigration fun _ => 7, .storeMigrationComplete 0 fun _ => 7]

/-- The store that waited is not requested under its own name. -/
theorem not_ownNames : ¬ ∀ s, Common.Reaches (Batched.step 1 threePartitioned) Undisturbed {} s →
    OwnNames 1 threePartitioned s := by
  intro hall
  have hbool : (Common.replay (Batched.step 1 threePartitioned) Undisturbed {} completeFirst).any
      (fun s => s.actors.any fun a => decide (a.request ≠ a.store)) = true := by
    decide +kernel
  obtain ⟨s, hs, hactors⟩ := (Option.any_eq_true _ _).mp hbool
  obtain ⟨a, ha, hmismatch⟩ := List.any_eq_true.mp hactors
  exact of_decide_eq_true hmismatch ((hall s (Common.reaches_of_replay hs)).own a ha)

end MigrationTarget

end Idgs.Store
