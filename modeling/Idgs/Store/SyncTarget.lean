import Idgs.Cluster.Table
import Idgs.Common.Run
import Idgs.Common.Tables
import Mathlib.Data.List.Nodup

/-!
# The target of store synchronisations

The `SyncTargetActor` of a member that has come in copies every replicated store from one other
member. For each store it makes a `StoreSyncTargetActor`, which asks the source for batches of the
store's data; the completion is routed to the `SyncTargetActor`, which knows a transfer by the name
of its store only. When the source leaves, the actors of the transfers under way are told by message
to empty their stores, and new transfers from another source start at once.
-/

namespace Idgs.Store

open Function List

open Cluster (Member MemberState)

namespace SyncTarget

/-! ## State -/

/-- A store is known by the names of its schema and its own. -/
abbrev Key := String × String

/-- What the actor reads of a store's configuration: its names, and whether it is `REPLICATED`. -/
structure StoreConfig where
  key : Key
  replicated : Bool := true
deriving DecidableEq

/-- The stores of the data store, and the settings. -/
structure Setup where
  stores : List StoreConfig
  distinct : (stores.map StoreConfig.key).Nodup
  storeSyncBatchSize : ℤ
  localMemberId : ℤ
  migrationBatchSize : ℕ

/-- The keys of the replicated stores. -/
def Setup.replicated (setup : Setup) : List Key :=
  (setup.stores.filter fun store => store.replicated).map StoreConfig.key

/-- `StoreSyncInfo`; no actor is the empty `storeActorId`. -/
structure StoreSyncInfo where
  key : Key
  storeActorId : Option ℕ := none
  syncronizing : Bool := true
deriving DecidableEq

/-- The messages between a `StoreSyncTargetActor` and its source. -/
inductive SyncMessage (E : Type*)
  | syncRequest
  | syncData (batch : List E)
  | syncComplete
deriving DecidableEq

/-- A `StoreSyncTargetActor`, with the source's side of the transfer and the messages in flight: one
of the exchange, `SOURCE_MEMBER_LEAVE`, and the `SYNC_COMPLETE` that it routed. `snapshot` is what
the source has found in the store, `rest` what it has still to send. -/
structure StoreSyncTargetActor (E : Type*) where
  store : Key := ("", "")
  source : ℤ := -1
  exchange : Option (SyncMessage E) := none
  snapshot : Option (List E) := none
  rest : List E := []
  terminated : Bool := false
  sourceMemberLeave : Bool := false
  routed : Bool := false

/-- The fields of `SyncTargetActor`, where no source is `none`, the actors of the transfers, the
entries of each store with the actor that put them, and the members that have left. A queued info is
the map's object, or one that the map did not take. `chosen` is the last source found, `latest` the
transfer started last for a store, and `counted` the transfers whose `SYNC_COMPLETE` was counted,
each with the latest one of the store at that time. -/
structure State (E : Type*) where
  sourceMId : Option ℤ := none
  syncronizing : Bool := false
  storeSyncMap : List StoreSyncInfo := []
  storeSyncQueue : List (Key × Bool) := []
  actors : ℕ → StoreSyncTargetActor E := fun _ => {}
  nextActorId : ℕ := 0
  arrivals : Key → List (ℕ × E) := fun _ => []
  left : List ℤ := []
  chosen : Option ℤ := none
  latest : Key → Option ℕ := fun _ => none
  counted : List (ℕ × Option ℕ) := []

variable {E : Type*}

/-! ## The handlers -/

/-- `SyncTargetActor::getSourceMember`. -/
def getSourceMember (localMemberId : ℤ) (memberTable : List Member) : Option ℤ :=
  (memberTable.find? fun member =>
    member.id ≠ localMemberId ∧ (member.state = .prepared ∨ member.state = .active) ∧
      member.localStore).map
      Member.id

/-- `std::map::insert`: a key that is there is kept. -/
def insertInfo (info : StoreSyncInfo) (infos : List StoreSyncInfo) : List StoreSyncInfo :=
  if infos.any (·.key = info.key) then infos else infos ++ [info]

/-- The info of a store is written. -/
def setInfo (key : Key) (f : StoreSyncInfo → StoreSyncInfo) (infos : List StoreSyncInfo) :
    List StoreSyncInfo :=
  infos.map fun info => if info.key = key then f info else info

/-- A new `StoreSyncTargetActor` requests the store from the source. -/
def requestStore (source : ℤ) (key : Key) (s : State E) : State E :=
  { s with
    actors :=
      Function.update s.actors s.nextActorId { store := key, source, exchange := some .syncRequest }
    nextActorId := s.nextActorId + 1
    latest := Function.update s.latest key (some s.nextActorId) }

/-- One round of the loop over the stores in `startSyncData`. -/
def syncStore (batchSize source : ℤ) (s : State E) (store : StoreConfig) : State E :=
  if store.replicated then
    if batchSize < s.storeSyncMap.length then
      { s with
        storeSyncQueue := s.storeSyncQueue ++ [(store.key, !s.storeSyncMap.any (·.key = store.key))]
        storeSyncMap := insertInfo { key := store.key } s.storeSyncMap }
    else
      { requestStore source store.key s with
        storeSyncMap :=
          insertInfo { key := store.key, storeActorId := some s.nextActorId } s.storeSyncMap }
  else s

/-- `batchSize` of `startSyncData`. -/
def Setup.batchSize (setup : Setup) : ℤ :=
  if setup.storeSyncBatchSize = -1 then setup.stores.length else setup.storeSyncBatchSize

/-- `SyncTargetActor::startSyncData`. -/
def startSyncData (setup : Setup) (memberTable : List Member) (s : State E) : State E :=
  match getSourceMember setup.localMemberId memberTable with
  | none => { s with sourceMId := none, syncronizing := false }
  | some source =>
    setup.stores.foldl (syncStore setup.batchSize source)
      { s with sourceMId := some source, syncronizing := true, chosen := some source }

/-- `SyncTargetActor::handleMemberLeaveEvent`, up to the restart. -/
def abandon (s : State E) : State E :=
  { s with
    actors := fun t =>
      if s.storeSyncMap.any (·.storeActorId = some t) then
        { s.actors t with sourceMemberLeave := true }
      else s.actors t
    arrivals := fun key =>
      if s.storeSyncMap.any fun info => info.key = key ∧ info.storeActorId = none then []
      else s.arrivals key
    storeSyncMap := []
    storeSyncQueue := []
    syncronizing := false }

/-- `SyncTargetActor::handleMemberLeaveEvent`. -/
def handleMemberLeaveEvent (setup : Setup) (memberTable : List Member) (memberId : ℤ)
    (s : State E) : State E :=
  if s.sourceMId = some memberId then startSyncData setup memberTable (abandon s) else s

/-- `DataSyncListener::memberStatusChanged`, as far as it is about synchronisations. -/
def memberStatusChanged (setup : Setup) (memberTable : List Member) (member : Member)
    (s : State E) : State E :=
  let s := if member.state = .inactive ∧ member.localStore then
    handleMemberLeaveEvent setup memberTable member.id s else s
  if (member.state = .prepared ∨ member.state = .active) ∧ member.localStore ∧ member.id =
    setup.localMemberId then
    startSyncData setup memberTable s
  else s

/-- `SyncTargetActor::handleSyncComplete`, for the completion that transfer `t` has routed. -/
def handleSyncComplete (t : ℕ) (s : State E) : State E :=
  let key := (s.actors t).store
  if s.storeSyncMap.any (·.key = key) then
    let s := { s with
      storeSyncMap :=
        setInfo key (fun info =>
        { info with syncronizing := false, storeActorId := none }) s.storeSyncMap
      counted := (t, s.latest key) :: s.counted }
    match s.storeSyncQueue with
    | (next, shared) :: queue =>
      { requestStore (s.sourceMId.getD (-1)) next s with
        storeSyncQueue := queue
        storeSyncMap :=
          if shared then
            setInfo next (fun info =>
              { info with storeActorId := some s.nextActorId }) s.storeSyncMap
          else s.storeSyncMap }
    | [] =>
      if s.storeSyncMap.any (·.syncronizing) then s
      else { s with storeSyncMap := [], sourceMId := none, syncronizing := false }
  else s

/-- The next batch of a transfer. -/
def sendData (batchSize : ℕ) (content : List E) (a : StoreSyncTargetActor E) :
    StoreSyncTargetActor E :=
  if content = [] then { a with exchange := some .syncComplete }
  else { a with
    rest := content.drop batchSize, exchange := some (.syncData (content.take batchSize)) }

/-- `SyncSourceActor::handleSyncRequest` for the first request, which finds `content` in the store,
and `StoreSyncSourceActor::handleSyncRequest` for the others. -/
def handleSyncRequest (batchSize : ℕ) (content : List E) (a : StoreSyncTargetActor E) :
    StoreSyncTargetActor E :=
  match a.snapshot with
  | none => sendData batchSize content { a with snapshot := some content }
  | some _ => sendData batchSize a.rest a

/-- What the `StoreSyncTargetActor` `t` does with a message of its source: `handleSyncData` and
`handleSyncComplete`. A terminated actor gets no messages. -/
def handleExchange (t : ℕ) (s : State E) : Option (State E) :=
  let a := s.actors t
  match a.exchange with
  | some (.syncData batch) =>
    if a.terminated then
      some { s with actors := Function.update s.actors t { a with exchange := none } }
    else some { s with
      actors := Function.update s.actors t { a with exchange := some .syncRequest }
      arrivals :=
        Function.update s.arrivals a.store (s.arrivals a.store ++ batch.map fun entry =>
        (t, entry)) }
  | some .syncComplete =>
    if a.terminated then
      some { s with actors := Function.update s.actors t { a with exchange := none } }
    else some { s with
      actors := Function.update s.actors t { a with
        exchange := none, routed := true, terminated := true } }
  | _ => none

/-- `StoreSyncTargetActor::handleSourceMemberLeave`. -/
def handleSourceMemberLeave (t : ℕ) (s : State E) : State E :=
  let a := s.actors t
  if a.terminated then
    { s with actors := Function.update s.actors t { a with sourceMemberLeave := false } }
  else { s with
    actors := Function.update s.actors t { a with sourceMemberLeave := false, terminated := true }
    arrivals := Function.update s.arrivals a.store [] }

/-- Steps: a member leaves, a message from or to a source that has left is lost, the listener hears
of a member, and messages are handled. -/
inductive Step (E : Type*)
  | leave (member : ℤ)
  | lost (t : ℕ)
  | memberStatusChanged (memberTable : List Member) (member : Member)
  | syncRequest (t : ℕ) (content : List E)
  | exchange (t : ℕ)
  | sourceMemberLeave (t : ℕ)
  | syncComplete (t : ℕ)

/-- One step. A member that has left handles no request, and no member is inactive that has not
left. -/
def step (setup : Setup) (s : State E) : Step E → Option (State E)
  | .leave member => some { s with left := member :: s.left }
  | .lost t =>
    if (s.actors t).exchange.isSome ∧ (s.actors t).source ∈ s.left then
      some { s with actors := Function.update s.actors t { s.actors t with exchange := none } }
    else none
  | .memberStatusChanged memberTable member =>
    if member.state = .inactive ∧ member.id ∉ s.left then none
    else some (memberStatusChanged setup memberTable member s)
  | .syncRequest t content =>
    match (s.actors t).exchange with
    | some .syncRequest =>
      if (s.actors t).source ∈ s.left then none
      else some { s with
        actors := Function.update s.actors t
          (handleSyncRequest setup.migrationBatchSize content (s.actors t)) }
    | _ => none
  | .exchange t => handleExchange t s
  | .sourceMemberLeave t =>
    if (s.actors t).sourceMemberLeave then some (handleSourceMemberLeave t s) else none
  | .syncComplete t =>
    if (s.actors t).routed then
      some (handleSyncComplete t
        { s with actors := Function.update s.actors t { s.actors t with routed := false } })
    else none

/-! ## What is claimed -/

/-- The entries of a transfer that are in the store. -/
def held (s : State E) (t : ℕ) : List E :=
  (s.arrivals (s.actors t).store).filterMap fun x => if x.1 = t then some x.2 else none

/-- No message of a synchronisation is in flight. -/
def Quiet (s : State E) : Prop :=
  ∀ t, (s.actors t).exchange.isNone ∧ (s.actors t).sourceMemberLeave = false ∧
    (s.actors t).routed = false

/-- The transfer has brought all that the source had, and the store still has it. -/
def Transferred (s : State E) (t : ℕ) : Prop := (s.actors t).snapshot = some (held s t)

/-- Every replicated store was transferred by the transfer started last for it, from the last
source, and only its own completion was counted for it. -/
def Synced (setup : Setup) (s : State E) : Prop :=
  s.syncronizing = false ∧ ∀ key ∈ setup.replicated, ∃ t, s.latest key = some t ∧
    (s.actors t).store = key ∧
    s.chosen = some (s.actors t).source ∧ Transferred s t ∧ ∀ c ∈ s.counted, c.2 = some t → c.1 = t

/-- The transfers that are outstanding. -/
def outstanding (s : State E) : List StoreSyncInfo := s.storeSyncMap.filter (·.storeActorId.isSome)

/-- A synchronisation is started by the member's own state only when none is going on; a
`SOURCE_MEMBER_LEAVE` that empties a store is handled before the transfer started last for the store
has brought an entry; and a `SYNC_COMPLETE` is handled while its transfer is the store's one in the
map, if the map has one. -/
def Orderly (setup : Setup) (s : State E) : Step E → Prop
  | .memberStatusChanged _ member => member.id = setup.localMemberId → s.storeSyncMap = []
  | .sourceMemberLeave t =>
    (s.actors t).terminated = false → s.latest (s.actors t).store ≠ some t →
      ∀ last ∈ s.latest (s.actors t).store, held s last = []
  | .syncComplete t => ∀ info ∈ s.storeSyncMap, info.key = (s.actors t).store →
      info.storeActorId = some t
  | _ => True

/-! ## Transfers -/

/-- How far a transfer has come that is under way; `entries` are those of its entries that the store
has. -/
def Stage (a : StoreSyncTargetActor E) (entries : List E) : Prop :=
  (a.exchange = some .syncRequest ∧ a.snapshot = none ∧ entries = []) ∨
    (a.exchange = some .syncRequest ∧ a.snapshot = some (entries ++ a.rest)) ∨
      (∃ batch, a.exchange = some (.syncData batch) ∧
      a.snapshot = some (entries ++ batch ++ a.rest)) ∨
        (a.exchange = some .syncComplete ∧ a.snapshot = some entries)

/-- A transfer from the source that is to be counted: it is under way, unless the source has left,
or its completion has been routed. -/
structure Pending (source : ℤ) (left : List ℤ) (a : StoreSyncTargetActor E) (entries : List E) :
    Prop where
  sender : a.source = source
  leave : a.sourceMemberLeave = false
  stage : (a.terminated = false ∧ a.routed = false ∧
    (Stage a entries ∨ (a.exchange = none ∧ source ∈ left))) ∨
    (a.terminated = true ∧ a.routed = true ∧ a.exchange = none ∧ a.snapshot = some entries)

/-- A transfer from the source that has been counted. -/
structure Done (source : ℤ) (a : StoreSyncTargetActor E) (entries : List E) : Prop where
  sender : a.source = source
  leave : a.sourceMemberLeave = false
  routed : a.routed = false
  exchange : a.exchange = none
  snapshot : a.snapshot = some entries

section Stage

variable {a : StoreSyncTargetActor E} {entries : List E} {source : ℤ} {left : List ℤ}

theorem Pending.mono {left' : List ℤ} (h : Pending source left a entries)
    (hsub : ∀ m ∈ left, m ∈ left') :
    Pending source left' a entries :=
  ⟨h.sender, h.leave, h.stage.imp_left fun ⟨hterm, hrouted, hstage⟩ =>
    ⟨hterm, hrouted, hstage.imp_right fun ⟨hnone, hleft⟩ => ⟨hnone, hsub _ hleft⟩⟩⟩

/-- The source answers a request with what follows. -/
theorem stage_sendData {batchSize : ℕ} {content : List E}
    (hsnapshot : a.snapshot = some (entries ++ content)) :
    Stage (sendData batchSize content a) entries := by
  unfold sendData
  split
  · rename_i hnil
    refine .inr (.inr (.inr ⟨rfl, ?_⟩))
    rw [hnil, append_nil] at hsnapshot
    exact hsnapshot
  · refine .inr (.inr (.inl ⟨content.take batchSize, rfl, ?_⟩))
    rw [append_assoc, take_append_drop]
    exact hsnapshot

theorem sendData_frame (batchSize : ℕ) (content : List E) (a : StoreSyncTargetActor E) :
    (sendData batchSize content a).store = a.store ∧ (sendData batchSize content a).source =
      a.source ∧
      (sendData batchSize content a).sourceMemberLeave = a.sourceMemberLeave ∧
        (sendData batchSize content a).terminated = a.terminated ∧
          (sendData batchSize content a).routed = a.routed := by
  unfold sendData
  split
  · exact ⟨rfl, rfl, rfl, rfl, rfl⟩
  · exact ⟨rfl, rfl, rfl, rfl, rfl⟩

theorem handleSyncRequest_frame (batchSize : ℕ) (content : List E) (a : StoreSyncTargetActor E) :
    (handleSyncRequest batchSize content a).store = a.store ∧
      (handleSyncRequest batchSize content a).source = a.source ∧
        (handleSyncRequest batchSize content a).sourceMemberLeave = a.sourceMemberLeave ∧
          (handleSyncRequest batchSize content a).terminated = a.terminated ∧
            (handleSyncRequest batchSize content a).routed = a.routed := by
  unfold handleSyncRequest
  split
  · exact sendData_frame _ _ _
  · exact sendData_frame _ _ _

theorem Stage.handleSyncRequest {batchSize : ℕ} (content : List E) (h : Stage a entries)
    (hrequest : a.exchange = some .syncRequest) :
    Stage (handleSyncRequest batchSize content a) entries := by
  unfold SyncTarget.handleSyncRequest
  rcases h with ⟨-, hnone, hentries⟩ | ⟨-, hsome⟩ | ⟨batch, hdata, -⟩ | ⟨hcomplete, -⟩
  · rw [hnone, hentries]
    exact stage_sendData rfl
  · rw [hsome]
    exact stage_sendData hsome
  · rw [hdata] at hrequest
    cases hrequest
  · rw [hcomplete] at hrequest
    cases hrequest

end Stage

/-! ## The invariant -/

/-- An info of the map: its transfer is pending, its store waits in the queue, or its transfer has
been counted. -/
inductive InfoOk (s : State E) (source : ℤ) : StoreSyncInfo → Prop
  | pending {key : Key} {t : ℕ} (latest : s.latest key = some t) (store : (s.actors t).store = key)
      (pending : Pending source s.left (s.actors t) (held s t)) : InfoOk s source ⟨key, some t,
        true⟩
  | queued {key : Key} (queued : (key, true) ∈ s.storeSyncQueue) : InfoOk s source ⟨key, none, true⟩
  | done {key : Key} {t : ℕ} (latest : s.latest key = some t) (store : (s.actors t).store = key)
      (done : Done source (s.actors t) (held s t)) : InfoOk s source ⟨key, none, false⟩

/-- A synchronisation from the source is going on. -/
structure Running (setup : Setup) (s : State E) (source : ℤ) : Prop where
  sourceMId : s.sourceMId = some source
  chosen : s.chosen = some source
  keys : s.storeSyncMap.map StoreSyncInfo.key = setup.replicated
  infos : ∀ info ∈ s.storeSyncMap, InfoOk s source info
  queued : ∀ q ∈ s.storeSyncQueue, q.2 = true ∧ q.1 ∈ setup.replicated ∧
    ∀ info ∈ s.storeSyncMap, info.key = q.1 → info.storeActorId = none ∧ info.syncronizing = true
  distinct : (s.storeSyncQueue.map Prod.fst).Nodup
  busy : s.storeSyncQueue ≠ [] → ∃ info ∈ s.storeSyncMap, info.storeActorId.isSome = true
  going : ∃ info ∈ s.storeSyncMap, info.syncronizing = true

/-- The transfers started last are done, unless their source has left. -/
def Finished (setup : Setup) (s : State E) : Prop :=
  ∀ source, s.chosen = some source → source ∈ s.left ∨
    ∀ key ∈ setup.replicated, ∃ t, s.latest key = some t ∧ (s.actors t).store = key ∧
      Done source (s.actors t) (held s t)

/-- No synchronisation is going on. -/
structure Idle (setup : Setup) (s : State E) : Prop where
  storeSyncMap : s.storeSyncMap = []
  storeSyncQueue : s.storeSyncQueue = []
  sourceMId : s.sourceMId = none
  syncronizing : s.syncronizing = false
  finished : Finished setup s

/-- The actors known to a state have been made. -/
structure Made (s : State E) : Prop where
  fresh : ∀ t, s.nextActorId ≤ t → s.actors t = {}
  arrivals : ∀ key, ∀ x ∈ s.arrivals key, x.1 < s.nextActorId
  latest : ∀ key t, s.latest key = some t → t < s.nextActorId
  counted : ∀ c ∈ s.counted, ∀ t, c.2 = some t → c.1 = t

/-- What holds in every state of an orderly run. -/
structure Inv (setup : Setup) (s : State E) : Prop where
  made : Made s
  phase : Idle setup s ∨ ∃ source, Running setup s source

theorem inv_init (setup : Setup) : Inv setup ({} : State E) where
  made := ⟨fun _ _ => rfl, fun _ _ hx => absurd hx not_mem_nil, fun _ _ h =>
    absurd h (Option.some_ne_none _).symm,
    fun _ hc => absurd hc not_mem_nil⟩
  phase := .inl ⟨rfl, rfl, rfl, rfl, fun _ h => absurd h (Option.some_ne_none _).symm⟩

variable {t : ℕ}

section Actors

variable {setup : Setup} {s : State E} {source : ℤ} {acts : ℕ → StoreSyncTargetActor E}
  {arr : Key → List (ℕ × E)} {gone : List ℤ} {info : StoreSyncInfo}

/-- The transfers started last come no harm from what happens to the actors. -/
def Keeps (s : State E) (acts : ℕ → StoreSyncTargetActor E) (arr : Key → List (ℕ × E))
    (gone : List ℤ) : Prop :=
  ∀ t, s.latest (s.actors t).store = some t → (acts t).store = (s.actors t).store ∧
    ((∃ info ∈ s.storeSyncMap, info.key = (s.actors t).store) → ∀ source,
      Pending source s.left (s.actors t) (held s t) →
        Pending source gone (acts t)
        (held { s with actors := acts, arrivals := arr, left := gone } t)) ∧
    ∀ source, Done source (s.actors t) (held s t) →
      Done source (acts t) (held { s with actors := acts, arrivals := arr, left := gone } t)

theorem InfoOk.keeps (h : InfoOk s source info) (hinfo : info ∈ s.storeSyncMap)
    (hkeeps : Keeps s acts arr gone) :
    InfoOk { s with actors := acts, arrivals := arr, left := gone } source info := by
  cases h with
  | pending latest store pending =>
    subst store
    obtain ⟨hstore, hpending, -⟩ := hkeeps _ latest
    exact .pending latest hstore (hpending ⟨_, hinfo, rfl⟩ _ pending)
  | queued queued => exact .queued queued
  | done latest store done =>
    subst store
    obtain ⟨hstore, -, hdone⟩ := hkeeps _ latest
    exact .done latest hstore (hdone _ done)

/-- A step of the actors. -/
theorem Inv.actors (h : Inv setup s) (hkeeps : Keeps s acts arr gone)
    (hleft : ∀ m ∈ s.left, m ∈ gone) (hfresh : ∀ t, s.nextActorId ≤ t → acts t = {})
    (harrivals : ∀ key, ∀ x ∈ arr key, x.1 < s.nextActorId) :
    Inv setup { s with actors := acts, arrivals := arr, left := gone } := by
  refine ⟨⟨hfresh, harrivals, h.made.latest, h.made.counted⟩, ?_⟩
  rcases h.phase with hidle | ⟨source, hrun⟩
  · refine .inl ⟨hidle.storeSyncMap, hidle.storeSyncQueue, hidle.sourceMId, hidle.syncronizing,
      fun source hchosen => ?_⟩
    rcases hidle.finished source hchosen with hgone | hdone
    · exact .inl (hleft _ hgone)
    · refine .inr fun key hkey => ?_
      obtain ⟨t, hlatest, rfl, ht⟩ := hdone key hkey
      obtain ⟨hstore, -, hkept⟩ := hkeeps t hlatest
      exact ⟨t, hlatest, hstore, hkept source ht⟩
  · exact .inr ⟨source, hrun.sourceMId, hrun.chosen, hrun.keys,
      fun info hinfo => (hrun.infos info hinfo).keeps hinfo hkeeps, hrun.queued, hrun.distinct,
      hrun.busy, hrun.going⟩

/-- What happens to one actor only harms no other one. -/
theorem keeps_of_self {a : StoreSyncTargetActor E}
    (hothers : ∀ t', t' ≠ t → s.latest (s.actors t').store = some t' →
      held { s with actors := update s.actors t a, arrivals := arr } t' = held s t')
    (hself : s.latest (s.actors t).store = some t → a.store = (s.actors t).store ∧
      ((∃ info ∈ s.storeSyncMap, info.key = (s.actors t).store) → ∀ source,
        Pending source s.left (s.actors t) (held s t) →
          Pending source s.left a
          (held { s with actors := update s.actors t a, arrivals := arr } t)) ∧
      ∀ source, Done source (s.actors t) (held s t) →
        Done source a (held { s with actors := update s.actors t a, arrivals := arr } t)) :
    Keeps s (update s.actors t a) arr s.left := by
  intro t' hlatest
  by_cases ht : t' = t
  · subst ht
    rw [update_self]
    exact hself hlatest
  · have hheld := hothers t' ht hlatest
    rw [update_of_ne ht]
    exact ⟨rfl, fun _ source h => hheld.symm ▸ h, fun source h => hheld.symm ▸ h⟩

theorem held_update {a : StoreSyncTargetActor E} (hstore : a.store = (s.actors t).store) (t' : ℕ) :
    held { s with actors := update s.actors t a } t' = held s t' := by
  unfold held
  by_cases ht : t' = t
  · subst ht
    simp only [update_self, hstore]
  · simp only [update_of_ne ht]

theorem fresh_update (h : Made s) {a : StoreSyncTargetActor E} (ht : t < s.nextActorId) :
    ∀ t', s.nextActorId ≤ t' → update s.actors t a t' = {} := by
  intro t' ht'
  rw [update_of_ne (by omega)]
  exact h.fresh t' ht'

theorem held_append {a : StoreSyncTargetActor E} (hstore : a.store = (s.actors t).store)
    (batch : List E) (t' : ℕ) :
    held { s with
        actors := update s.actors t a
        arrivals := update s.arrivals (s.actors t).store
          (s.arrivals (s.actors t).store ++ batch.map fun entry => (t, entry)) } t' =
      if t' = t then held s t ++ batch else held s t' := by
  have htags : ∀ t'' : ℕ,
      (batch.map fun entry => (t, entry)).filterMap (fun x => if x.1 = t'' then some x.2
      else none) =
      if t'' = t then batch else [] := by
    intro t''
    rw [filterMap_map]
    split
    · subst t''
      simp
    · rename_i hne
      simp [Ne.symm hne]
  unfold held
  by_cases ht : t' = t
  · subst ht
    simp only [update_self, hstore, filterMap_append, htags, if_true]
  · simp only [update_of_ne ht, if_neg ht]
    by_cases hs : (s.actors t').store = (s.actors t).store
    · rw [hs, update_self, filterMap_append, htags, if_neg ht, append_nil]
    · rw [update_of_ne hs]

/-- A message of the exchange is lost. -/
theorem Inv.lost (h : Inv setup s) (hgone : (s.actors t).source ∈ s.left) (ht : t < s.nextActorId) :
    Inv setup
    { s with actors := update s.actors t { s.actors t with exchange := none } } := by
  refine h.actors
    (keeps_of_self (fun t' _ _ => held_update (by rfl) t') fun _ =>
      ⟨rfl, fun _ source hp => ?_, fun source hd => ?_⟩)
    (fun _ hm => hm) (fresh_update h.made ht) h.made.arrivals
  · rw [held_update (by rfl)]
    refine ⟨hp.sender, hp.leave, ?_⟩
    rcases hp.stage with ⟨hterm, hrouted, -⟩ | ⟨hterm, hrouted, -, hsnapshot⟩
    · exact .inl ⟨hterm, hrouted, .inr ⟨rfl, hp.sender ▸ hgone⟩⟩
    · exact .inr ⟨hterm, hrouted, rfl, hsnapshot⟩
  · rw [held_update (by rfl)]
    exact ⟨hd.sender, hd.leave, hd.routed, rfl, hd.snapshot⟩

/-- The source answers a request. -/
theorem Inv.syncRequest (h : Inv setup s) {batchSize : ℕ} (content : List E)
    (hrequest : (s.actors t).exchange = some .syncRequest) (ht : t < s.nextActorId) :
    Inv setup { s with
      actors :=
        update s.actors t (handleSyncRequest batchSize content (s.actors t)) } := by
  obtain ⟨hstore, hsource, hleave, hterminated, hrouted⟩ :=
    handleSyncRequest_frame batchSize content (s.actors t)
  refine h.actors (keeps_of_self (fun t' _ _ => held_update hstore t')
      fun _ => ⟨hstore, fun _ source hp => ?_, fun source hd => ?_⟩)
    (fun _ hm => hm) (fresh_update h.made ht) h.made.arrivals
  · rw [held_update hstore]
    refine ⟨hsource.trans hp.sender, hleave.trans hp.leave, ?_⟩
    rcases hp.stage with ⟨hterm, hroute, hstage | ⟨hnone, -⟩⟩ | ⟨-, -, hnone, -⟩
    · exact .inl ⟨hterminated.trans hterm, hrouted.trans hroute,
        .inl (hstage.handleSyncRequest content hrequest)⟩
    · rw [hrequest] at hnone
      cases hnone
    · rw [hrequest] at hnone
      cases hnone
  · have hnone := hd.exchange
    rw [hrequest] at hnone
    cases hnone

/-- A terminated actor is not pending with a message of the exchange to come, nor is a done one. -/
theorem not_pending_of_terminated {message : SyncMessage E}
    (hexchange : (s.actors t).exchange = some message) (hterm : (s.actors t).terminated = true) :
    (∀ source, ¬ Pending source s.left (s.actors t) (held s t)) ∧
      ∀ source, ¬ Done source (s.actors t) (held s t) := by
  refine ⟨fun source hp => ?_, fun source hd => ?_⟩
  · rcases hp.stage with ⟨hfalse, -⟩ | ⟨-, -, hnone, -⟩
    · rw [hterm] at hfalse
      cases hfalse
    · rw [hexchange] at hnone
      cases hnone
  · have hnone := hd.exchange
    rw [hexchange] at hnone
    cases hnone

/-- An actor without a message of the exchange to come that was neither pending nor done. -/
theorem Inv.dropped (h : Inv setup s) {message : SyncMessage E}
    (hexchange : (s.actors t).exchange = some message) (hterm : (s.actors t).terminated = true)
    (ht : t < s.nextActorId) :
    Inv setup
    { s with actors := update s.actors t { s.actors t with exchange := none } } := by
  obtain ⟨hpending, hdone⟩ := not_pending_of_terminated hexchange hterm
  exact h.actors (keeps_of_self (fun t' _ _ => held_update (by rfl) t')
      fun _ => ⟨rfl, fun _ source hp => absurd hp (hpending source), fun source hd =>
        absurd hd (hdone source)⟩)
    (fun _ hm => hm) (fresh_update h.made ht) h.made.arrivals

/-- A batch comes into the store. -/
theorem Inv.syncData (h : Inv setup s) {batch : List E}
    (hdata : (s.actors t).exchange = some (.syncData batch))
    (hterm : (s.actors t).terminated = false) (ht : t < s.nextActorId) :
    Inv setup { s with
      actors := update s.actors t { s.actors t with exchange := some .syncRequest }
      arrivals := update s.arrivals (s.actors t).store
        (s.arrivals (s.actors t).store ++ batch.map fun entry => (t, entry)) } := by
  refine h.actors (keeps_of_self (fun t' hne _ => ?_) fun _ =>
    ⟨rfl, fun _ source hp => ?_, fun source hd => ?_⟩)
    (fun _ hm => hm) (fresh_update h.made ht) fun key x hx => ?_
  · exact (held_append (by rfl) batch t').trans (if_neg hne)
  · rw [held_append (by rfl) batch t, if_pos rfl]
    refine ⟨hp.sender, hp.leave, ?_⟩
    rcases hp.stage with ⟨-, hroute, hstage | ⟨hnone, -⟩⟩ | ⟨htrue, -⟩
    · refine .inl ⟨hterm, hroute, .inl ?_⟩
      rcases hstage with ⟨hrequest, -⟩ | ⟨hrequest, -⟩ | ⟨batch', hdata',
        hsnapshot⟩ | ⟨hcomplete, -⟩
      · rw [hdata] at hrequest
        cases hrequest
      · rw [hdata] at hrequest
        cases hrequest
      · rw [hdata] at hdata'
        obtain rfl : batch = batch' := SyncMessage.syncData.inj (Option.some.inj hdata')
        exact .inr (.inl ⟨rfl, hsnapshot⟩)
      · rw [hdata] at hcomplete
        cases hcomplete
    · rw [hdata] at hnone
      cases hnone
    · rw [hterm] at htrue
      cases htrue
  · have hnone := hd.exchange
    rw [hdata] at hnone
    cases hnone
  · by_cases hkey : key = (s.actors t).store
    · subst hkey
      rw [update_self] at hx
      rcases mem_append.1 hx with hold | hnew
      · exact h.made.arrivals _ x hold
      · obtain ⟨entry, -, rfl⟩ := mem_map.1 hnew
        exact ht
    · rw [update_of_ne hkey] at hx
      exact h.made.arrivals key x hx

/-- A completion is routed. -/
theorem Inv.complete (h : Inv setup s) (hcomplete : (s.actors t).exchange = some .syncComplete)
    (hterm : (s.actors t).terminated = false) (ht : t < s.nextActorId) :
    Inv setup { s with
      actors := update s.actors t
        { s.actors t with exchange := none, routed := true, terminated := true } } := by
  refine h.actors (keeps_of_self (fun t' _ _ => held_update (by rfl) t')
      fun _ => ⟨rfl, fun _ source hp => ?_, fun source hd => ?_⟩)
    (fun _ hm => hm) (fresh_update h.made ht) h.made.arrivals
  · rw [held_update (by rfl)]
    refine ⟨hp.sender, hp.leave, .inr ⟨rfl, rfl, rfl, ?_⟩⟩
    rcases hp.stage with ⟨-, -, hstage | ⟨hnone, -⟩⟩ | ⟨htrue, -⟩
    · rcases hstage with ⟨hrequest, -⟩ | ⟨hrequest, -⟩ | ⟨batch, hdata, -⟩ | ⟨-, hsnapshot⟩
      · rw [hcomplete] at hrequest
        cases hrequest
      · rw [hcomplete] at hrequest
        cases hrequest
      · rw [hcomplete] at hdata
        cases hdata
      · exact hsnapshot
    · rw [hcomplete] at hnone
      cases hnone
    · rw [hterm] at htrue
      cases htrue
  · have hnone := hd.exchange
    rw [hcomplete] at hnone
    cases hnone

/-- A transfer that was abandoned empties its store. -/
theorem Inv.sourceMemberLeave (h : Inv setup s) (hleave : (s.actors t).sourceMemberLeave = true)
    (horderly : (s.actors t).terminated = false → s.latest (s.actors t).store ≠ some t →
      ∀ last, s.latest (s.actors t).store = some last → held s last = [])
    (ht : t < s.nextActorId) : Inv setup (handleSourceMemberLeave t s) := by
  have hself : (∀ source, ¬ Pending source s.left (s.actors t) (held s t)) ∧
      ∀ source, ¬ Done source (s.actors t) (held s t) := by
    refine ⟨fun source hp => ?_, fun source hd => ?_⟩
    · exact Bool.false_ne_true (hp.leave.symm.trans hleave)
    · exact Bool.false_ne_true (hd.leave.symm.trans hleave)
  unfold handleSourceMemberLeave
  dsimp only
  split
  · exact h.actors (keeps_of_self (fun t' _ _ => held_update (by rfl) t')
        fun _ => ⟨rfl, fun _ source hp => absurd hp (hself.1 source), fun source hd =>
          absurd hd (hself.2 source)⟩)
      (fun _ hm => hm) (fresh_update h.made ht) h.made.arrivals
  · rename_i hterm
    refine h.actors (keeps_of_self (fun t' hne hlatest => ?_)
        fun _ => ⟨rfl, fun _ source hp => absurd hp (hself.1 source), fun source hd =>
          absurd hd (hself.2 source)⟩)
      (fun _ hm => hm) (fresh_update h.made ht) fun key x hx => ?_
    · by_cases hs : (s.actors t').store = (s.actors t).store
      · rw [hs] at hlatest
        have hne' : s.latest (s.actors t).store ≠ some t := fun heq =>
          hne (Option.some.inj (hlatest.symm.trans heq))
        rw [horderly (Bool.eq_false_iff.2 hterm) hne' t' hlatest]
        unfold held
        simp only [update_of_ne hne, hs, update_self, filterMap_nil]
      · unfold held
        simp only [update_of_ne hne, update_of_ne hs]
    · by_cases hkey : key = (s.actors t).store
      · subst hkey
        rw [update_self] at hx
        exact absurd hx not_mem_nil
      · rw [update_of_ne hkey] at hx
        exact h.made.arrivals key x hx

end Actors

/-! ## Starting transfers -/

section Start

variable {setup : Setup} {s : State E} {source : ℤ} {key : Key} {info : StoreSyncInfo}

theorem Made.requestStore (h : Made s) (source : ℤ) (key : Key) :
    Made (requestStore source key s) := by
  refine ⟨fun t ht => ?_, fun k x hx => Nat.lt_succ_of_lt (h.arrivals k x hx), fun k t hlatest =>
    ?_, h.counted⟩
  · have hlt : s.nextActorId < t := ht
    exact (update_of_ne (by omega) _ _).trans (h.fresh t (by omega))
  · rcases Common.update_some_iff.mp hlatest with ⟨-, rfl⟩ | ⟨-, hlatest⟩
    · exact Nat.lt_succ_self _
    · exact Nat.lt_succ_of_lt (h.latest k t hlatest)

/-- No entry in a store is one of an actor that is still to be made. -/
theorem Made.filterMap_arrivals (h : Made s) (key : Key) :
    (s.arrivals key).filterMap (fun x => if x.1 = s.nextActorId then some x.2 else none) = [] := by
  rw [filterMap_eq_nil_iff]
  intro x hx
  exact if_neg (Nat.ne_of_lt (h.arrivals key x hx))

/-- The info of a store that has just been requested. -/
theorem infoOk_requested (h : Made s) (source : ℤ) (key : Key) (queue : List (Key × Bool))
    (infos : List StoreSyncInfo) :
    InfoOk { requestStore source key s with storeSyncQueue := queue, storeSyncMap := infos } source
      ⟨key, some s.nextActorId, true⟩ := by
  have hactor : (requestStore source key s).actors s.nextActorId =
      { store := key, source, exchange := some .syncRequest } := update_self ..
  refine .pending (update_self ..) (congrArg StoreSyncTargetActor.store hactor) ?_
  change Pending source s.left ((requestStore source key s).actors s.nextActorId)
    ((s.arrivals ((requestStore source key s).actors s.nextActorId).store).filterMap _)
  rw [hactor, h.filterMap_arrivals]
  exact ⟨rfl, rfl, .inl ⟨rfl, rfl, .inl (.inl ⟨rfl, rfl, rfl⟩)⟩⟩

/-- The info of another store. -/
theorem InfoOk.requestStore (h : InfoOk s source info) (hmade : Made s) {source' : ℤ}
    (hne : info.key ≠ key) {queue : List (Key × Bool)}
    (hqueue : (info.key, true) ∈ s.storeSyncQueue → (info.key, true) ∈ queue)
    (infos : List StoreSyncInfo) :
    InfoOk { requestStore source' key s with
      storeSyncQueue := queue, storeSyncMap := infos } source info := by
  have hactor : ∀ t, s.latest info.key = some t →
      (SyncTarget.requestStore source' key s).actors t = s.actors t :=
    fun t ht => update_of_ne (Nat.ne_of_lt (hmade.latest _ t ht)) _ _
  have hlatest : (SyncTarget.requestStore source' key s).latest info.key = s.latest info.key :=
    update_of_ne hne _ _
  cases h with
  | @pending key t latest store pending =>
    have ht := hactor t latest
    refine .pending (hlatest.trans latest)
      ((congrArg StoreSyncTargetActor.store ht).trans store) ?_
    change Pending source s.left ((SyncTarget.requestStore source' _ s).actors t)
      ((s.arrivals ((SyncTarget.requestStore source' _ s).actors t).store).filterMap _)
    rw [ht]
    exact pending
  | queued queued => exact .queued (hqueue queued)
  | @done key t latest store done =>
    have ht := hactor t latest
    refine .done (hlatest.trans latest) ((congrArg StoreSyncTargetActor.store ht).trans store) ?_
    change Done source ((SyncTarget.requestStore source' _ s).actors t)
      ((s.arrivals ((SyncTarget.requestStore source' _ s).actors t).store).filterMap _)
    rw [ht]
    exact done

/-- The queue grows. -/
theorem InfoOk.queue (h : InfoOk s source info) {queue : List (Key × Bool)}
    (hqueue : ∀ q ∈ s.storeSyncQueue, q ∈ queue) (infos : List StoreSyncInfo) :
    InfoOk { s with storeSyncQueue := queue, storeSyncMap := infos } source info := by
  cases h with
  | pending latest store pending => exact .pending latest store pending
  | queued queued => exact .queued (hqueue _ queued)
  | done latest store done => exact .done latest store done

theorem insertInfo_of_new {infos : List StoreSyncInfo}
    (hnew : ∀ other ∈ infos, other.key ≠ info.key) :
    insertInfo info infos = infos ++ [info] := by
  refine if_neg ?_
  rw [any_eq_true]
  rintro ⟨other, hother, heq⟩
  exact hnew other hother (of_decide_eq_true heq)

/-- What holds when some stores have had their turn in `startSyncData`. -/
structure Starting (source : ℤ) (before : List StoreConfig) (s : State E) : Prop where
  made : Made s
  sourceMId : s.sourceMId = some source
  chosen : s.chosen = some source
  keys : s.storeSyncMap.map StoreSyncInfo.key =
    (before.filter fun store => store.replicated).map StoreConfig.key
  infos : ∀ info ∈ s.storeSyncMap, InfoOk s source info ∧ info.syncronizing = true
  queued : ∀ q ∈ s.storeSyncQueue, q.2 = true ∧ q.1 ∈ s.storeSyncMap.map StoreSyncInfo.key ∧
    ∀ info ∈ s.storeSyncMap, info.key = q.1 → info.storeActorId = none
  distinct : (s.storeSyncQueue.map Prod.fst).Nodup
  busy : s.storeSyncMap ≠ [] → ∃ info ∈ s.storeSyncMap, info.storeActorId.isSome = true

/-- A store's turn. -/
theorem Starting.syncStore {before : List StoreConfig} (h : Starting source before s)
    {batchSize : ℤ}
    (hbatch : 0 ≤ batchSize) {store : StoreConfig} (hnew : store.key ∉ before.map StoreConfig.key) :
    Starting source (before ++ [store]) (syncStore batchSize source s store) := by
  have hkeys : ((before ++ [store]).filter fun store => store.replicated).map StoreConfig.key =
      s.storeSyncMap.map StoreSyncInfo.key ++ if store.replicated then [store.key] else [] := by
    rw [filter_append, map_append, ← h.keys]
    cases hrep : store.replicated <;> simp [hrep]
  have hfresh : ∀ info ∈ s.storeSyncMap, info.key ≠ store.key := by
    rintro info hinfo heq
    have hmem : info.key ∈ (before.filter fun store => store.replicated).map StoreConfig.key :=
      h.keys ▸ mem_map_of_mem hinfo
    obtain ⟨other, hother, hkey⟩ := mem_map.1 hmem
    exact hnew (heq ▸ hkey ▸ mem_map_of_mem (mem_of_mem_filter hother))
  have hany : s.storeSyncMap.any (·.key = store.key) = false := by
    rw [any_eq_false]
    intro info hinfo
    simpa using hfresh info hinfo
  unfold SyncTarget.syncStore
  split
  · rename_i hrep
    rw [if_pos hrep] at hkeys
    split
    · rename_i hfull
      rw [hany]
      rw [insertInfo_of_new hfresh]
      refine ⟨⟨h.made.fresh, h.made.arrivals, h.made.latest, h.made.counted⟩, h.sourceMId, h.chosen,
        ?_, ?_, ?_, ?_, ?_⟩
      · rw [hkeys, map_append]
        rfl
      · intro info hinfo
        rcases mem_append.1 hinfo with hold | hnew
        · exact ⟨(h.infos info hold).1.queue (fun q hq => mem_append_left _ hq) _,
            (h.infos info hold).2⟩
        · obtain rfl := mem_singleton.1 hnew
          exact ⟨.queued (mem_append_right _ mem_cons_self), rfl⟩
      · intro q hq
        rcases mem_append.1 hq with hold | hnew
        · obtain ⟨hshared, hmem, hinfos⟩ := h.queued q hold
          refine ⟨hshared, ?_, fun info hinfo hkey => ?_⟩
          · rw [map_append]
            exact mem_append_left _ hmem
          · rcases mem_append.1 hinfo with hold | hnew
            · exact hinfos info hold hkey
            · obtain rfl := mem_singleton.1 hnew
              rfl
        · obtain rfl := mem_singleton.1 hnew
          refine ⟨rfl, ?_, fun info hinfo hkey => ?_⟩
          · rw [map_append]
            exact mem_append_right _ mem_cons_self
          · rcases mem_append.1 hinfo with hold | hnew
            · exact absurd hkey (hfresh info hold)
            · obtain rfl := mem_singleton.1 hnew
              rfl
      · rw [map_append, nodup_append]
        refine ⟨h.distinct, nodup_singleton _, fun a ha b hb => ?_⟩
        obtain rfl := mem_singleton.1 hb
        rintro rfl
        obtain ⟨q, hq, hkey⟩ := mem_map.1 ha
        obtain ⟨info, hinfo, hinfokey⟩ := mem_map.1 (h.queued q hq).2.1
        exact hfresh info hinfo (hinfokey.trans hkey)
      · intro _
        have hlen : 0 < s.storeSyncMap.length := by omega
        obtain ⟨info, hinfo, hactor⟩ := h.busy (length_pos_iff.1 hlen)
        exact ⟨info, mem_append_left _ hinfo, hactor⟩
    · rw [insertInfo_of_new hfresh]
      have hrequested := h.made.requestStore source store.key
      refine ⟨⟨hrequested.fresh, hrequested.arrivals, hrequested.latest, hrequested.counted⟩,
        h.sourceMId, h.chosen, ?_, ?_,
        ?_, h.distinct, ?_⟩
      · rw [hkeys, map_append]
        rfl
      · intro info hinfo
        rcases mem_append.1 hinfo with hold | hnew
        · exact ⟨(h.infos info hold).1.requestStore h.made (hfresh info hold) id _,
            (h.infos info hold).2⟩
        · obtain rfl := mem_singleton.1 hnew
          exact ⟨infoOk_requested h.made source store.key s.storeSyncQueue _, rfl⟩
      · intro q hq
        obtain ⟨hshared, hmem, hinfos⟩ := h.queued q hq
        refine ⟨hshared, ?_, fun info hinfo hkey => ?_⟩
        · rw [map_append]
          exact mem_append_left _ hmem
        · rcases mem_append.1 hinfo with hold | hnew
          · exact hinfos info hold hkey
          · obtain rfl := mem_singleton.1 hnew
            obtain ⟨other, hother, hotherkey⟩ := mem_map.1 hmem
            exact absurd (hotherkey.trans hkey.symm) (hfresh other hother)
      · intro _
        exact ⟨_, mem_append_right _ mem_cons_self, rfl⟩
  · rename_i hrep
    rw [if_neg hrep, append_nil] at hkeys
    exact ⟨h.made, h.sourceMId, h.chosen, hkeys.symm, h.infos, h.queued, h.distinct, h.busy⟩

/-- The loop over the stores. -/
theorem Starting.foldl {batchSize : ℤ} (hbatch : 0 ≤ batchSize) :
    ∀ (stores before : List StoreConfig) (s : State E),
    ((before ++ stores).map StoreConfig.key).Nodup →
      Starting source before s →
      Starting source (before ++ stores) (stores.foldl (SyncTarget.syncStore batchSize source) s)
  | [], before, s, _, h => by
      rw [append_nil]
      exact h
  | store :: stores, before, s, hdistinct, h => by
      have hnew : store.key ∉ before.map StoreConfig.key := by
        rw [map_append, map_cons, nodup_append] at hdistinct
        exact fun hmem => hdistinct.2.2 _ hmem _ mem_cons_self rfl
      have hassoc : before ++ store :: stores = before ++ [store] ++ stores := by simp
      rw [hassoc] at hdistinct ⊢
      exact Starting.foldl hbatch stores (before ++ [store]) _ hdistinct (h.syncStore hbatch hnew)

/-- A synchronisation is started where none was going on. -/
theorem Inv.startSyncData (hmade : Made s) (hmap : s.storeSyncMap = [])
    (hqueue : s.storeSyncQueue = []) (hfinished : Finished setup s) (hbatch : 0 ≤ setup.batchSize)
    (hreplicated : setup.replicated ≠ [])
    (memberTable : List Member) : Inv setup (startSyncData setup memberTable s) := by
  unfold SyncTarget.startSyncData
  split
  · exact ⟨⟨hmade.fresh, hmade.arrivals, hmade.latest, hmade.counted⟩,
      .inl ⟨hmap, hqueue, rfl, rfl, hfinished⟩⟩
  · rename_i source _
    have hinit : Starting source []
        { s with sourceMId := some source, syncronizing := true, chosen := some source } := by
      refine ⟨⟨hmade.fresh, hmade.arrivals, hmade.latest, hmade.counted⟩, rfl, rfl, ?_, ?_, ?_,
        ?_, ?_⟩
      · simp [hmap]
      · simp [hmap]
      · simp [hqueue]
      · simp [hqueue]
      · simp [hmap]
    have hstarted := Starting.foldl hbatch setup.stores [] _ setup.distinct hinit
    rw [nil_append] at hstarted
    have hsome : (setup.stores.foldl (SyncTarget.syncStore setup.batchSize source) { s with
        sourceMId := some source, syncronizing := true, chosen := some source }).storeSyncMap ≠
        [] := by
      intro hnil
      have hkeys := hstarted.keys
      rw [hnil] at hkeys
      exact hreplicated hkeys.symm
    obtain ⟨info, hinfo, hactor⟩ := hstarted.busy hsome
    refine ⟨hstarted.made, .inr ⟨source, hstarted.sourceMId, hstarted.chosen, hstarted.keys,
      fun info hinfo => (hstarted.infos info hinfo).1, fun q hq => ?_, hstarted.distinct,
      fun _ => ⟨info, hinfo, hactor⟩, ⟨info, hinfo, (hstarted.infos info hinfo).2⟩⟩⟩
    obtain ⟨hshared, hmem, hinfos⟩ := hstarted.queued q hq
    refine ⟨hshared, ?_, fun info hinfo hkey =>
      ⟨hinfos info hinfo hkey, (hstarted.infos info hinfo).2⟩⟩
    rw [hstarted.keys] at hmem
    exact hmem

/-- Where the map has nothing, no synchronisation is going on. -/
theorem Inv.idle (h : Inv setup s) (hmap : s.storeSyncMap = []) : Idle setup s := by
  rcases h.phase with hidle | ⟨source, hrun⟩
  · exact hidle
  · obtain ⟨info, hinfo, -⟩ := hrun.going
    rw [hmap] at hinfo
    exact absurd hinfo not_mem_nil

theorem Made.abandon (h : Made s) (hrun : Running setup s source) : Made (abandon s) := by
  refine ⟨fun t ht => ?_, fun key x hx => ?_, h.latest, h.counted⟩
  · change (if s.storeSyncMap.any (·.storeActorId = some t) then _ else _) = _
    rw [if_neg]
    · exact h.fresh t ht
    · rw [any_eq_true]
      rintro ⟨info, hinfo, hactor⟩
      have hactor : info.storeActorId = some t := of_decide_eq_true hactor
      cases hrun.infos info hinfo with
      | pending latest store pending =>
        obtain rfl := Option.some.inj hactor
        exact absurd (h.latest _ _ latest) (Nat.not_lt.2 ht)
      | queued _ | done _ _ _ => cases hactor
  · change x ∈
      (if s.storeSyncMap.any (fun info => info.key = key ∧ info.storeActorId = none) then []
      else _) at hx
    split at hx
    · exact absurd hx not_mem_nil
    · exact h.arrivals key x hx

/-- The listener hears of a member. -/
theorem Inv.memberStatusChanged (h : Inv setup s) {memberTable : List Member} {member : Member}
    (hgone : member.state = .inactive → member.id ∈ s.left)
    (horderly : member.id = setup.localMemberId → s.storeSyncMap = [])
    (hbatch : 0 ≤ setup.batchSize) (hreplicated : setup.replicated ≠ []) :
    Inv setup (memberStatusChanged setup memberTable member s) := by
  unfold SyncTarget.memberStatusChanged
  by_cases hinactive : member.state = .inactive
  · have hnot : ¬ ((member.state = .prepared ∨ member.state = .active) ∧ member.localStore = true ∧
        member.id = setup.localMemberId) := by
      rw [hinactive]
      rintro ⟨hstate | hstate, -⟩ <;> cases hstate
    dsimp only
    rw [if_neg hnot]
    split
    · unfold handleMemberLeaveEvent
      split
      · rename_i hsource
        rcases h.phase with hidle | ⟨source, hrun⟩
        · rw [hidle.sourceMId] at hsource
          cases hsource
        · obtain rfl : source = member.id := Option.some.inj (hrun.sourceMId.symm.trans hsource)
          refine Inv.startSyncData (h.made.abandon hrun) rfl rfl (fun source' hchosen =>
            .inl ?_) hbatch hreplicated
            memberTable
          obtain rfl : member.id = source' := Option.some.inj (hrun.chosen.symm.trans hchosen)
          exact hgone hinactive
      · exact h
    · exact h
  · have hno : ¬ (member.state = .inactive ∧ member.localStore = true) :=
      fun hleave => hinactive hleave.1
    dsimp only
    rw [if_neg hno]
    split
    · rename_i hstart
      have hidle := h.idle (horderly hstart.2.2)
      exact Inv.startSyncData h.made hidle.storeSyncMap hidle.storeSyncQueue hidle.finished hbatch
        hreplicated memberTable
    · exact h

end Start

/-! ## Completions -/

section Complete

variable {setup : Setup} {s : State E} {source : ℤ}

theorem any_key_iff (s : State E) (key : Key) :
    s.storeSyncMap.any (·.key = key) = true ↔ ∃ info ∈ s.storeSyncMap, info.key = key := by
  rw [any_eq_true]
  simp only [decide_eq_true_eq]

theorem map_key_setInfo (key : Key) (f : StoreSyncInfo → StoreSyncInfo)
    (hf : ∀ info, (f info).key = info.key) (infos : List StoreSyncInfo) :
    (setInfo key f infos).map StoreSyncInfo.key = infos.map StoreSyncInfo.key := by
  unfold setInfo
  rw [map_map]
  refine map_congr_left fun info _ => ?_
  change (if info.key = key then f info else info).key = info.key
  split
  · exact hf info
  · rfl

/-- The completion that a transfer has routed is counted for its store. -/
def count (t : ℕ) (s : State E) : State E :=
  { s with
    actors := Function.update s.actors t { s.actors t with routed := false }
    storeSyncMap := setInfo (s.actors t).store
      (fun info => { info with syncronizing := false, storeActorId := none }) s.storeSyncMap
    counted := (t, s.latest (s.actors t).store) :: s.counted }

/-- The transfer whose completion is counted was the one in the map. -/
theorem Running.pending (hrun : Running setup s source)
    (horderly : ∀ info ∈ s.storeSyncMap, info.key = (s.actors t).store → info.storeActorId = some t)
    (hkey : ∃ info ∈ s.storeSyncMap, info.key = (s.actors t).store) :
    s.latest (s.actors t).store = some t ∧ Pending source s.left (s.actors t) (held s t) := by
  obtain ⟨info, hinfo, hinfokey⟩ := hkey
  have hactor := horderly info hinfo hinfokey
  cases hrun.infos info hinfo with
  | pending latest store pending =>
    obtain rfl := Option.some.inj hactor
    exact ⟨hinfokey ▸ latest, pending⟩
  | queued _ | done _ _ _ => cases hactor

theorem Pending.done {a : StoreSyncTargetActor E} {entries : List E} {left : List ℤ}
    (h : Pending source left a entries) (hrouted : a.routed = true) :
    Done source { a with routed := false } entries := by
  rcases h.stage with ⟨-, hfalse, -⟩ | ⟨-, -, hexchange, hsnapshot⟩
  · exact absurd (hfalse.symm.trans hrouted) Bool.false_ne_true
  · exact ⟨h.sender, h.leave, rfl, hexchange, hsnapshot⟩

/-- The infos after a completion has been counted. -/
theorem Running.infos_count (hrun : Running setup s source) (hrouted : (s.actors t).routed = true)
    (horderly : ∀ info ∈ s.storeSyncMap, info.key = (s.actors t).store → info.storeActorId = some t)
    (hkey : ∃ info ∈ s.storeSyncMap, info.key = (s.actors t).store) :
    ∀ info ∈ (count t s).storeSyncMap, InfoOk (count t s) source info := by
  obtain ⟨hlatest, hpending⟩ := hrun.pending horderly hkey
  intro info hinfo
  obtain ⟨info, hold, rfl⟩ := mem_map.1 hinfo
  split
  · rename_i hinfokey
    change InfoOk (count t s) source ⟨info.key, none, false⟩
    rw [hinfokey]
    have hactor : (count t s).actors t = { s.actors t with routed := false } :=
      update_self ..
    have hheld : held (count t s) t = held s t := held_update (by rfl) t
    refine .done hlatest (by rw [hactor]) ?_
    rw [hheld, hactor]
    exact hpending.done hrouted
  · rename_i hne
    have hother : ∀ t', (s.actors t').store = info.key →
        (count t s).actors t' = s.actors t' ∧ held (count t s) t' = held s t' := by
      intro t' hstore
      have ht : t' ≠ t := fun heq => hne (heq ▸ hstore).symm
      exact ⟨update_of_ne ht _ _, held_update (by rfl) t'⟩
    cases hrun.infos info hold with
    | pending latest store pending =>
      obtain ⟨hactor, hheld⟩ := hother _ store
      exact .pending latest ((congrArg StoreSyncTargetActor.store hactor).trans store)
        (hactor ▸ hheld ▸ pending)
    | queued queued => exact .queued queued
    | done latest store done =>
      obtain ⟨hactor, hheld⟩ := hother _ store
      exact .done latest ((congrArg StoreSyncTargetActor.store hactor).trans store)
        (hactor ▸ hheld ▸ done)

theorem Made.count (h : Made s) (ht : t < s.nextActorId)
    (hlatest : s.latest (s.actors t).store = some t) :
    Made (count t s) := by
  refine ⟨fresh_update h ht, h.arrivals, h.latest, fun c hc t' hc' => ?_⟩
  rcases mem_cons.1 hc with rfl | hold
  · exact Option.some.inj (hlatest.symm.trans hc')
  · exact h.counted c hold t' hc'

theorem mem_setInfo {key : Key} {f : StoreSyncInfo → StoreSyncInfo} {infos : List StoreSyncInfo}
    {info : StoreSyncInfo} (h : info ∈ setInfo key f infos) :
    (info ∈ infos ∧ info.key ≠ key) ∨ ∃ old ∈ infos, old.key = key ∧ info = f old := by
  obtain ⟨old, hold, rfl⟩ := mem_map.1 h
  by_cases hkey : old.key = key
  · exact .inr ⟨old, hold, hkey, if_pos hkey⟩
  · refine .inl ?_
    rw [if_neg hkey]
    exact ⟨hold, hkey⟩

/-- A completion is counted, and the next store of the queue is requested, or the synchronisation
ends. -/
theorem Running.handleSyncComplete (h : Inv setup s) (hrun : Running setup s source)
    (hrouted : (s.actors t).routed = true) (ht : t < s.nextActorId)
    (horderly : ∀ info ∈ s.storeSyncMap, info.key = (s.actors t).store → info.storeActorId = some t)
    (hkey : ∃ info ∈ s.storeSyncMap, info.key = (s.actors t).store) :
    Inv setup
      (match s.storeSyncQueue with
      | (next, shared) :: queue =>
        { requestStore (s.sourceMId.getD (-1)) next (count t s) with
          storeSyncQueue := queue
          storeSyncMap :=
            if shared then
              setInfo next (fun info => { info with storeActorId := some s.nextActorId })
                (count t s).storeSyncMap
            else (count t s).storeSyncMap }
      | [] =>
        if (count t s).storeSyncMap.any (·.syncronizing) then count t s
        else { count t s with
          storeSyncMap := [], sourceMId := none, syncronizing := false }) := by
  have hmade := h.made.count ht (hrun.pending horderly hkey).1
  have hinfos := hrun.infos_count hrouted horderly hkey
  have hkeys : (count t s).storeSyncMap.map StoreSyncInfo.key = setup.replicated :=
    (map_key_setInfo _ _ (by intro _; rfl) _).trans hrun.keys
  cases hqueue : s.storeSyncQueue with
  | cons q queue =>
    obtain ⟨next, shared⟩ := q
    -- the queue's stores are not the one that is complete
    have hother : ∀ q ∈ s.storeSyncQueue, q.1 ≠ (s.actors t).store := by
      intro q hq heq
      obtain ⟨info, hinfo, hinfokey⟩ := hkey
      have hnone := ((hrun.queued q hq).2.2 info hinfo (hinfokey.trans heq.symm)).1
      rw [horderly info hinfo hinfokey] at hnone
      cases hnone
    have hwaiting : ∀ q ∈ s.storeSyncQueue, ∀ info ∈ (count t s).storeSyncMap, info.key = q.1 →
        info.storeActorId = none ∧ info.syncronizing = true := by
      intro q hq info hinfo hinfokey
      rcases mem_setInfo hinfo with ⟨hold, -⟩ | ⟨old, -, hold, rfl⟩
      · exact (hrun.queued q hq).2.2 info hold hinfokey
      · exact absurd (hinfokey.symm.trans hold) (hother q hq)
    have hmem : (next, shared) ∈ s.storeSyncQueue := hqueue ▸ mem_cons_self
    have htail : ∀ q ∈ queue, q ∈ s.storeSyncQueue :=
      fun q hq => hqueue ▸ mem_cons_of_mem _ hq
    obtain ⟨rfl, hnext, -⟩ := hrun.queued _ hmem
    have hdistinct := hrun.distinct
    rw [hqueue, map_cons, nodup_cons] at hdistinct
    have hrequested := hmade.requestStore source next
    obtain ⟨info, hinfo, hinfokey⟩ := mem_map.1 (hkeys ▸ hnext)
    have hnew : { info with storeActorId := some s.nextActorId } ∈
        setInfo next (fun info => { info with storeActorId := some s.nextActorId })
        (count t s).storeSyncMap :=
      mem_map.2 ⟨info, hinfo, if_pos hinfokey⟩
    dsimp only
    rw [hrun.sourceMId, Option.getD_some, if_pos rfl]
    refine ⟨⟨hrequested.fresh, hrequested.arrivals, hrequested.latest, hrequested.counted⟩,
      .inr ⟨source, hrun.sourceMId, hrun.chosen,
      (map_key_setInfo _ _ (by intro _; rfl) _).trans hkeys, ?_, ?_,
        hdistinct.2, fun _ => ⟨_, hnew, rfl⟩, ⟨_, hnew, (hwaiting _ hmem info hinfo hinfokey).2⟩⟩⟩
    · intro info' hinfo'
      rcases mem_setInfo hinfo' with ⟨hold, hne⟩ | ⟨old, hold, holdkey, rfl⟩
      · refine (hinfos info' hold).requestStore hmade hne (fun hq => ?_) _
        have hq : (info'.key, true) ∈ (next, true) :: queue := hqueue ▸ hq
        exact (mem_cons.1 hq).resolve_left fun heq => hne (congrArg Prod.fst heq)
      · obtain ⟨hnone, hsync⟩ := hwaiting _ hmem old hold holdkey
        obtain ⟨key, actor, sync⟩ := old
        obtain rfl : sync = true := hsync
        obtain rfl : key = next := holdkey
        exact infoOk_requested hmade source key queue _
    · intro q hq
      obtain ⟨hshared, hrep, -⟩ := hrun.queued q (htail q hq)
      refine ⟨hshared, hrep, fun info' hinfo' hinfokey' => ?_⟩
      rcases mem_setInfo hinfo' with ⟨hold, -⟩ | ⟨old, hold, holdkey, rfl⟩
      · exact hwaiting q (htail q hq) info' hold hinfokey'
      · exact absurd (mem_map.2 ⟨q, hq, hinfokey'.symm.trans holdkey⟩) hdistinct.1
  | nil =>
    dsimp only
    split
    · rename_i hgoing
      rw [any_eq_true] at hgoing
      exact ⟨hmade, .inr ⟨source, hrun.sourceMId, hrun.chosen, hkeys, hinfos,
        fun q hq => absurd (hqueue ▸ hq) not_mem_nil, hrun.distinct,
        fun hne => absurd hqueue hne, hgoing⟩⟩
    · rename_i hover
      refine ⟨⟨hmade.fresh, hmade.arrivals, hmade.latest, hmade.counted⟩,
        .inl ⟨rfl, hqueue, rfl, rfl, fun source' hchosen => .inr fun key hmem => ?_⟩⟩
      obtain rfl : source = source' := Option.some.inj (hrun.chosen.symm.trans hchosen)
      obtain ⟨info, hinfo, rfl⟩ := mem_map.1 (hkeys ▸ hmem)
      have hsync : info.syncronizing ≠ true :=
        fun hsync => hover (any_eq_true.2 ⟨info, hinfo, hsync⟩)
      cases hinfos info hinfo with
      | pending _ _ _ | queued _ => exact absurd rfl hsync
      | done latest store done => exact ⟨_, latest, store, done⟩

/-- `SyncTargetActor` handles a completion. -/
theorem Inv.syncComplete (h : Inv setup s) (hrouted : (s.actors t).routed = true)
    (ht : t < s.nextActorId) (horderly : ∀ info ∈ s.storeSyncMap, info.key = (s.actors t).store →
      info.storeActorId = some t) :
    Inv setup (SyncTarget.handleSyncComplete t
      { s with actors := update s.actors t { s.actors t with routed := false } }) := by
  have hstore : (update s.actors t { s.actors t with routed := false } t).store =
      (s.actors t).store := by
    rw [update_self]
  unfold SyncTarget.handleSyncComplete
  dsimp only
  rw [hstore]
  by_cases hkey : ∃ info ∈ s.storeSyncMap, info.key = (s.actors t).store
  · rw [if_pos ((any_key_iff s _).2 hkey)]
    rcases h.phase with hidle | ⟨source, hrun⟩
    · obtain ⟨info, hinfo, -⟩ := hkey
      rw [hidle.storeSyncMap] at hinfo
      exact absurd hinfo not_mem_nil
    · exact hrun.handleSyncComplete h hrouted ht horderly hkey
  · rw [if_neg fun hany => hkey ((any_key_iff s _).1 hany)]
    refine h.actors (keeps_of_self (fun t' _ _ => held_update (by rfl) t')
        fun _ => ⟨rfl, fun hinfo => absurd hinfo hkey, fun source hd => ?_⟩)
      (fun _ hm => hm) (fresh_update h.made ht) h.made.arrivals
    exact absurd (hd.routed.symm.trans hrouted) Bool.false_ne_true

end Complete

/-! ## Orderly runs -/

section Runs

variable {setup : Setup} {s s' : State E}

theorem Made.lt_of_exchange (h : Made s) {message : SyncMessage E}
    (hexchange : (s.actors t).exchange = some message) : t < s.nextActorId := by
  by_contra hge
  rw [h.fresh t (Nat.not_lt.1 hge)] at hexchange
  cases hexchange

theorem Made.lt_of_sourceMemberLeave (h : Made s) (hleave : (s.actors t).sourceMemberLeave = true) :
    t < s.nextActorId := by
  by_contra hge
  rw [h.fresh t (Nat.not_lt.1 hge)] at hleave
  cases hleave

theorem Made.lt_of_routed (h : Made s) (hrouted : (s.actors t).routed = true) :
    t < s.nextActorId := by
  by_contra hge
  rw [h.fresh t (Nat.not_lt.1 hge)] at hrouted
  cases hrouted

/-- A message of the exchange is handled. -/
theorem Inv.exchange (h : Inv setup s) (hstep : handleExchange t s = some s') : Inv setup s' := by
  unfold handleExchange at hstep
  dsimp only at hstep
  split at hstep
  · rename_i batch hdata
    have ht := h.made.lt_of_exchange hdata
    split at hstep
    · rename_i hterm
      obtain rfl := Option.some.inj hstep
      exact h.dropped hdata hterm ht
    · rename_i hterm
      obtain rfl := Option.some.inj hstep
      exact h.syncData hdata (Bool.eq_false_iff.2 hterm) ht
  · rename_i hcomplete
    have ht := h.made.lt_of_exchange hcomplete
    split at hstep
    · rename_i hterm
      obtain rfl := Option.some.inj hstep
      exact h.dropped hcomplete hterm ht
    · rename_i hterm
      obtain rfl := Option.some.inj hstep
      exact h.complete hcomplete (Bool.eq_false_iff.2 hterm) ht
  · cases hstep

/-- An orderly step keeps the invariant. -/
theorem Inv.step (h : Inv setup s) {a : Step E} (horderly : Orderly setup s a)
    (hbatch : 0 ≤ setup.batchSize)
    (hreplicated : setup.replicated ≠ []) (hstep : step setup s a = some s') : Inv setup s' := by
  cases a with
  | leave member =>
    obtain rfl := Option.some.inj hstep
    refine h.actors (fun t _ =>
      ⟨rfl, fun _ source hp => hp.mono fun m hm => mem_cons_of_mem _ hm,
      fun source hd => hd⟩) (fun m hm => mem_cons_of_mem _ hm) h.made.fresh h.made.arrivals
  | lost t =>
    obtain ⟨⟨hsome, hgone⟩, hs⟩ := Option.ite_none_right_eq_some.1 hstep
    obtain rfl := Option.some.inj hs
    obtain ⟨message, hexchange⟩ := Option.isSome_iff_exists.1 hsome
    exact h.lost hgone (h.made.lt_of_exchange hexchange)
  | memberStatusChanged memberTable member =>
    obtain ⟨hgone, hs⟩ := Option.ite_none_left_eq_some.1 hstep
    obtain rfl := Option.some.inj hs
    refine h.memberStatusChanged (fun hinactive => ?_) horderly hbatch hreplicated
    by_contra hnot
    exact hgone ⟨hinactive, hnot⟩
  | syncRequest t content =>
    unfold SyncTarget.step at hstep
    dsimp only at hstep
    split at hstep
    · rename_i hrequest
      obtain ⟨-, hs⟩ := Option.ite_none_left_eq_some.1 hstep
      obtain rfl := Option.some.inj hs
      exact h.syncRequest content hrequest (h.made.lt_of_exchange hrequest)
    · cases hstep
  | exchange t => exact h.exchange hstep
  | sourceMemberLeave t =>
    obtain ⟨hleave, hs⟩ := Option.ite_none_right_eq_some.1 hstep
    obtain rfl := Option.some.inj hs
    exact h.sourceMemberLeave hleave horderly (h.made.lt_of_sourceMemberLeave hleave)
  | syncComplete t =>
    obtain ⟨hrouted, hs⟩ := Option.ite_none_right_eq_some.1 hstep
    obtain rfl := Option.some.inj hs
    exact h.syncComplete hrouted (h.made.lt_of_routed hrouted) horderly

/-- Nothing is pending that no message is in flight for, unless the source has left. -/
theorem not_pending_of_quiet (hquiet : Quiet s) {source : ℤ} (hstays : source ∉ s.left) (t : ℕ) :
    ¬ Pending source s.left (s.actors t) (held s t) := by
  intro hp
  obtain ⟨hnone, -, hrouted⟩ := hquiet t
  have hnone := Option.isNone_iff_eq_none.1 hnone
  rcases hp.stage with ⟨-, -, hstage | ⟨-, hgone⟩⟩ | ⟨-, htrue, -⟩
  · unfold Stage at hstage
    rw [hnone] at hstage
    rcases hstage with ⟨h, -⟩ | ⟨h, -⟩ | ⟨_, h, -⟩ | ⟨h, -⟩ <;> cases h
  · exact hstays hgone
  · exact Bool.false_ne_true (hrouted.symm.trans htrue)

/-- When no message is in flight, every replicated store has been transferred from the last source,
if that has not left. -/
theorem Inv.synced (h : Inv setup s) (hquiet : Quiet s) {source : ℤ}
    (hchosen : s.chosen = some source) (hstays : source ∉ s.left) : Synced setup s := by
  have hidle : Idle setup s := by
    rcases h.phase with hidle | ⟨source', hrun⟩
    · exact hidle
    · exfalso
      obtain rfl : source' = source := Option.some.inj (hrun.chosen.symm.trans hchosen)
      have hnone : ∀ info ∈ s.storeSyncMap, info.storeActorId.isSome = true → False := by
        intro info hinfo hsome
        cases hrun.infos info hinfo with
        | @pending _ t _ _ pending => exact not_pending_of_quiet hquiet hstays t pending
        | queued _ | done _ _ _ => cases hsome
      obtain ⟨info, hinfo, hsync⟩ := hrun.going
      cases hrun.infos info hinfo with
      | pending latest store pending => exact hnone _ hinfo rfl
      | queued queued =>
        obtain ⟨info', hinfo', hsome⟩ := hrun.busy (ne_nil_of_mem queued)
        exact hnone info' hinfo' hsome
      | done latest store done => cases hsync
  refine ⟨hidle.syncronizing, fun key hkey => ?_⟩
  obtain ⟨t, hlatest, hstore, hdone⟩ := (hidle.finished source hchosen).resolve_left hstays key hkey
  refine ⟨t, hlatest, hstore, hchosen.trans (congrArg some hdone.sender.symm), hdone.snapshot,
    fun c hc hct => ?_⟩
  exact h.made.counted c hc t hct

/-- The transfers that are outstanding are those of different replicated stores. -/
theorem Inv.length_outstanding (h : Inv setup s) :
    (outstanding s).length ≤ setup.replicated.length := by
  refine (length_filter_le _ _).trans ?_
  rcases h.phase with hidle | ⟨source, hrun⟩
  · rw [hidle.storeSyncMap]
    exact Nat.zero_le _
  · rw [← hrun.keys, length_map]

end Runs

/-! ## A source that leaves -/

instance [DecidableEq E] (setup : Setup) (s : State E) (a : Step E) :
    Decidable (Orderly setup s a) := by
  unfold Orderly
  split <;> infer_instance

/-- Member 1 comes in; there is one replicated store. -/
def oneStore : Setup where
  stores := [{ key := ("app", "orders") }]
  distinct := by decide
  storeSyncBatchSize := -1
  localMemberId := 1
  migrationBatchSize := 200

/-- The member table: member 1 and the others that are active. -/
def activeMembers (ids : List ℤ) : List Member :=
  { id := 1, state := .prepared } :: ids.map fun id => { id, state := .active }

/-- Member 2 leaves, and the first transfer is abandoned for one from member 3, whose entry comes
`late` after the `SOURCE_MEMBER_LEAVE` or before it. -/
def sourceLeaves (late : Bool) : List (Step ℕ) :=
  [.memberStatusChanged (activeMembers [2, 3]) { id := 1, state := .prepared }, .leave 2,
    .memberStatusChanged (activeMembers [3]) { id := 2, state := .inactive }, .lost 0,
    .syncRequest 1 [7]] ++
  (if late then [.sourceMemberLeave 0, .exchange 1] else [.exchange 1, .sourceMemberLeave 0]) ++
  [.syncRequest 1 [], .exchange 1, .syncComplete 1]

/-- The state after the run, where a step that is not possible would lead nowhere. -/
def afterSourceLeaves (late : Bool) : State ℕ :=
  (Common.replay (step oneStore) Common.anyStep {} (sourceLeaves late)).getD {}

/-- The entry comes after `SOURCE_MEMBER_LEAVE` here. -/
theorem replay_late : Common.replay (step oneStore) (Orderly oneStore) {} (sourceLeaves true) =
    some (afterSourceLeaves true) := rfl

/-- The entry comes before it here. -/
theorem replay_early : Common.replay (step oneStore) Common.anyStep {} (sourceLeaves false) =
    some (afterSourceLeaves false) := rfl

theorem quiet_afterSourceLeaves : Quiet (afterSourceLeaves false) := by
  intro t
  match t with
  | 0 => decide
  | 1 => decide
  | _ + 2 => exact ⟨rfl, rfl, rfl⟩

end SyncTarget

end Idgs.Store
