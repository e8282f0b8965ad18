import Idgs.Rdd.Placement

/-!
# The names of RDDs

The service of every member has a table from names to `RddLocal` objects, which are kept by
pointers: the upstream and downstream objects of an object are objects of the same member. An RDD is
the actor that the service makes for it. The actor has the members make their objects, tells them
when the partitions are there and when the state changes, and when it is destroyed it has them
remove the objects; these messages carry the name of the RDD.

The messages are handled as they should be where the name is still that of their RDD. A new RDD may
take a name from an RDD without live downstream RDDs; if that had a listener, the new one is a
delegate of the same store. An actor looks for downstream RDDs on its own member only, so it may
terminate only when there are none on the others, and the others may not link to an RDD that has
terminated.
-/

namespace Idgs.Rdd.NamedRdds

open Placement (ActorId)

/-! ## Requests and messages -/

/-- `CreateDelegateRddRequest`. -/
structure CreateDelegateRddRequest where
  schemaName : Option String := none
  storeName : String
  rddName : String

/-- `CreateRddRequest`: the transformer, the names of the inputs and the name of the RDD. -/
structure CreateRddRequest where
  transformerOpName : String
  inRdd : List String
  outRdd : String

/-- The request that an RDD is made of. -/
inductive Request
  | delegate (request : CreateDelegateRddRequest)
  | rdd (request : CreateRddRequest)

/-- The name that the RDD gets. -/
def Request.rddName : Request → String
  | .delegate request => request.rddName
  | .rdd request => request.outRdd

/-- What the actor of an RDD sends to the service of a member. -/
inductive Payload
  | createDelegatePartition (request : CreateDelegateRddRequest)
  | createRddPartition (request : CreateRddRequest)
  | partitionCreated (rddName : String) (state : RddState)
  | rddStateSync (rddName : String) (state : RddState)
  | removeRddLocal (rddName : String)

/-- A message on its way: to the service of a member, or `OP_DESTROY` to the actor of an RDD. -/
inductive Message
  | toService (dest : ℕ) (source : ActorId) (payload : Payload)
  | destroy (actor : ActorId)

/-! ## The state -/

/-- A store of a member: its schema and its name. -/
abbrev Store := String × String

/-- What the services know of the cluster. -/
structure Service where
  /-- The members with a local store. -/
  members : List ℕ
  nodup : members.Nodup
  /-- The stores of each member, in the order of their schemas. -/
  dataStore : ℕ → List Store
  /-- The member has the transformer and can register the types. -/
  prepares : ℕ → CreateRddRequest → Bool
  /-- The operator of the input of that index can be parsed. -/
  parse : CreateRddRequest → ℕ → Bool

/-- `DataStore::getStore`, with a schema or without. -/
def Service.getStore (cfg : Service) (m : ℕ) : Option String → String → Option Store
  | some schemaName, storeName =>
    if (schemaName, storeName) ∈ cfg.dataStore m then some (schemaName, storeName) else none
  | none, storeName => (cfg.dataStore m).find? fun store => store.2 = storeName

/-- The store that a delegate is of. -/
def Service.storeOf (cfg : Service) (m : ℕ) (request : CreateDelegateRddRequest) : Option Store :=
  cfg.getStore m request.schemaName request.storeName

/-- `RddLocal`, on the member that has it. Upstream and downstream are addresses of others. -/
structure RddLocal where
  member : ℕ
  rddName : String
  rddId : ActorId
  state : RddState
  transformerMsg : Option Request := none
  delegateRdd : Bool := false
  rddStoreListener : Option ℕ := none
  upstreamRddLocal : List ℕ := []
  downstreamRddLocal : List ℕ := []

/-- The store of a delegate. -/
def RddLocal.store (cfg : Service) (x : RddLocal) : Option Store :=
  match x.transformerMsg with
  | some (.delegate request) => cfg.storeOf x.member request
  | _ => none

/-- The listener of a delegate, with the store that it listens to. -/
def RddLocal.listening (cfg : Service) (x : RddLocal) : Option (ℕ × (ℕ × Store)) :=
  x.rddStoreListener.bind fun listener => (x.store cfg).map fun store =>
    (listener, (x.member, store))

/-- The states of an actor: one that is left `active` handles no further message. -/
inductive ActorState
  | idle | active | terminate
deriving DecidableEq

/-- `BaseRddActor`: its request, its object, and whether it is wanted. -/
structure RddActor where
  request : Request
  rddLocal : ℕ
  active : Bool := true
  state : ActorState := .idle

/-- The tables of the members, the objects by their addresses, and the messages on their way. -/
structure Cluster where
  /-- The next address that is free. -/
  next : ℕ := 0
  rddLocal : ℕ → Option RddLocal := fun _ => none
  /-- The object that has a name on a member. -/
  rddLocalMap : ℕ × String → Option ℕ := fun _ => none
  /-- The listeners of a store on a member. -/
  listeners : ℕ × Store → List ℕ := fun _ => []
  actors : ActorId → Option RddActor := fun _ => none
  inFlight : List Message := []
  /-- The members whose process has gone wrong. -/
  crashed : ℕ → Bool := fun _ => false

namespace Cluster

/-- The object that has a name on a member. -/
def entry (s : Cluster) (k : ℕ × String) : Option RddLocal := (s.rddLocalMap k).bind s.rddLocal

def post (s : Cluster) (messages : List Message) : Cluster :=
  { s with inFlight := s.inFlight ++ messages }

/-- `multicastRddMessage`. -/
def multicast (cfg : Service) (s : Cluster) (source : ActorId) (payload : Payload) : Cluster :=
  s.post (cfg.members.map fun m => .toService m source payload)

def setEntry (s : Cluster) (k : ℕ × String) (o : Option ℕ) : Cluster :=
  { s with rddLocalMap := Function.update s.rddLocalMap k o }

def modify (s : Cluster) (o : ℕ) (f : RddLocal → RddLocal) : Cluster :=
  { s with rddLocal := Function.update s.rddLocal o ((s.rddLocal o).map f) }

def setActor (s : Cluster) (a : ActorId) (actor : RddActor) : Cluster :=
  { s with actors := Function.update s.actors a (some actor) }

def setListeners (s : Cluster) (k : ℕ × Store) (listeners : List ℕ) : Cluster :=
  { s with listeners := Function.update s.listeners k listeners }

def crash (s : Cluster) (m : ℕ) : Cluster := { s with crashed := Function.update s.crashed m true }

/-- A new object at the next address. -/
def allocate (s : Cluster) (x : RddLocal) : Cluster :=
  { s with
    next := s.next + 1
    rddLocal := Function.update s.rddLocal s.next (some x) }

/-! ## The listeners of a store -/

/-- `listeners.erase(remove(listeners.begin(), listeners.end(), listener))`, which is undefined when
the listener is not there. -/
def eraseRemove (listener : ℕ) (listeners : List ℕ) : Option (List ℕ) :=
  let kept := listeners.filter fun l => l ≠ listener
  if listener ∈ listeners then some (kept ++ listeners.drop (kept.length + 1)) else none

def eraseListener (s : Cluster) (k : ℕ × Store) (listener : ℕ) : Option Cluster :=
  (eraseRemove listener (s.listeners k)).map (s.setListeners k)

/-- The listener of the object that loses its name is taken off the list of the store of the new
RDD. -/
def replaceListener (s : Cluster) (k : ℕ × Store) (x : RddLocal) : Option Cluster :=
  match x.rddStoreListener with
  | none => some s
  | some listener => s.eraseListener k listener

/-! ## Creating RDDs -/

/-- A new actor with its object, which gets the name. -/
def newRdd (s : Cluster) (m : ℕ) (request : Request) (x : RddLocal) : Cluster :=
  (((s.allocate x).setEntry (m, request.rddName) (some s.next)).setActor x.rddId
    { request := request, rddLocal := s.next })

/-- `handleCreateStoreDelegate`, with the `handleRddCreate` of the actor. -/
def handleCreateStoreDelegate (cfg : Service) (s : Cluster) (m : ℕ)
    (request : CreateDelegateRddRequest) : Cluster :=
  match cfg.storeOf m request with
  | none => s
  | some store =>
    match (s.entry (m, request.rddName)).elim (some s) (s.replaceListener (m, store)) with
    | none => s.crash m
    | some s =>
      let a : ActorId := ⟨m, s.next⟩
      (s.newRdd m (.delegate request)
        { member := m, rddName := request.rddName, rddId := a, state := .init
          transformerMsg := some (.delegate request), delegateRdd := true }).multicast cfg a
        (.createDelegatePartition request)

/-- `handleCreateRdd`, with the `handleRddCreate` of the actor. -/
def handleCreateRdd (cfg : Service) (s : Cluster) (m : ℕ) (request : CreateRddRequest) : Cluster :=
  if request.inRdd = [] then s
  else
    let a : ActorId := ⟨m, s.next⟩
    (s.newRdd m (.rdd request)
      { member := m, rddName := request.outRdd, rddId := a, state := .init }).multicast cfg a
      (.createRddPartition request)

/-- What `handleCreateDelegatePartition` makes of the object, but for the listener. -/
def openDelegate (request : CreateDelegateRddRequest) (x : RddLocal) : RddLocal :=
  { x with
    state := .created
    transformerMsg := some (.delegate request)
    delegateRdd := true }

/-- A new listener for the object, at the next address. -/
def addListener (s : Cluster) (k : ℕ × Store) (o : ℕ) : Cluster :=
  { s.modify o fun x => { x with rddStoreListener := some s.next } with
    next := s.next + 1
    listeners := Function.update s.listeners k (s.listeners k ++ [s.next]) }

/-- A new object for the RDD gets its name. -/
def newEntry (s : Cluster) (m : ℕ) (rddName : String) (source : ActorId) : Cluster :=
  (s.allocate { member := m, rddName := rddName, rddId := source, state := .init }).setEntry
  (m, rddName)
    (some s.next)

/-- The object is opened and gets a listener. -/
def fillDelegate (s : Cluster) (k : ℕ × Store) (o : ℕ) (request : CreateDelegateRddRequest) :
    Cluster :=
  (s.modify o (openDelegate request)).addListener k o

/-- A new object is. -/
def newDelegate (s : Cluster) (m : ℕ) (store : Store) (source : ActorId)
    (request : CreateDelegateRddRequest) :
    Cluster :=
  (s.newEntry m request.rddName source).fillDelegate (m, store) s.next request

/-- `handleCreateDelegatePartition`. -/
def handleCreateDelegatePartition (cfg : Service) (s : Cluster) (m : ℕ) (source : ActorId)
    (request : CreateDelegateRddRequest) : Cluster :=
  match cfg.storeOf m request with
  | none => s
  | some store =>
    match s.rddLocalMap (m, request.rddName), s.entry (m, request.rddName) with
    | some o, some x =>
      if x.rddId = source then s.fillDelegate (m, store) o request
      else
        match s.replaceListener (m, store) x with
        | none => s.crash m
        | some s => s.newDelegate m store source request
    | _, _ => s.newDelegate m store source request

/-- What `handleCreateRddPartition` makes of the object. -/
def openRdd (request : CreateRddRequest) (x : RddLocal) : RddLocal :=
  { x with
    state := .created
    transformerMsg := some (.rdd request) }

/-- `handleCreateRddPartition`. -/
def handleCreateRddPartition (s : Cluster) (m : ℕ) (source : ActorId) (request : CreateRddRequest) :
    Cluster :=
  match s.rddLocalMap (m, request.outRdd), s.entry (m, request.outRdd) with
  | some o, some x =>
    if x.rddId = source then s.modify o (openRdd request)
    else (s.newEntry m request.outRdd source).modify s.next (openRdd request)
  | _, _ => (s.newEntry m request.outRdd source).modify s.next (openRdd request)

/-! ## Preparing RDDs -/

/-- What the first loop of `handlePartitionCreated` finds of the inputs. -/
inductive Inputs
  | ready | wait | error
deriving DecidableEq

/-- The inputs are looked at one after the other. -/
def inputs (s : Cluster) (m : ℕ) : List String → Inputs
  | [] => .ready
  | name :: names =>
    match s.entry (m, name) with
    | none => .wait
    | some y =>
      if y.state = .error then .error
      else if y.state = .init ∨ y.state = .created then .wait
      else inputs s m names

/-- `addUpstreamRddLocal` and `addDownstreamRddLocal`. -/
def link (s : Cluster) (u o : ℕ) : Cluster :=
  (s.modify o fun x => { x with upstreamRddLocal := x.upstreamRddLocal ++ [u] }).modify u
    fun y => { y with downstreamRddLocal := y.downstreamRddLocal ++ [o] }

/-- The second loop, which stops at the first operator that cannot be parsed. -/
def linkInputs (parse : ℕ → Bool) (m o : ℕ) : Cluster → ℕ → List String → Cluster × Bool
  | s, _, [] => (s, true)
  | s, i, name :: names =>
    match s.rddLocalMap (m, name) with
    | none => (s, false)
    | some u => if parse i then linkInputs parse m o (s.link u o) (i + 1) names
        else (s.link u o, false)

/-- The end of `handlePartitionCreated`: the state is taken from other members. -/
def partitionsKnown (s : Cluster) (m o : ℕ) (source : ActorId) (state : RddState) : Cluster :=
  if source.memberId = m then s else s.modify o fun x => { x with state := state }

/-- `handlePartitionCreated`. -/
def handlePartitionCreated (cfg : Service) (s : Cluster) (m : ℕ) (source : ActorId)
    (rddName : String)
    (state : RddState) : Cluster :=
  match s.rddLocalMap (m, rddName), s.entry (m, rddName) with
  | some o, some x =>
    if x.delegateRdd then s.partitionsKnown m o source state
    else
      match x.transformerMsg with
      | some (.rdd request) =>
        match s.inputs m request.inRdd with
        | .wait => s.post [.toService m source (.partitionCreated rddName state)]
        | .error => s
        | .ready =>
          if cfg.prepares m request then
            match linkInputs (cfg.parse request) m o s 0 request.inRdd with
            | (s, true) => s.partitionsKnown m o source state
            | (s, false) => s
          else s
      | _ => s.crash m
  | _, _ => s

/-- `handleRddStateSync`. -/
def handleRddStateSync (s : Cluster) (m : ℕ) (rddName : String) (state : RddState) : Cluster :=
  match s.rddLocalMap (m, rddName) with
  | none => s
  | some o => s.modify o fun x => { x with state := state }

/-! ## Destroying RDDs -/

/-- `handleRddDestroy`. -/
def handleRddDestroy (s : Cluster) (m : ℕ) (rddName : String) : Cluster :=
  match s.entry (m, rddName) with
  | none => s
  | some x => s.post [.destroy x.rddId]

/-- `BaseRddActor::onDestroy`: an RDD with downstream objects on its member waits for them, but its
actor is then left `active`. -/
def onDestroy (cfg : Service) (s : Cluster) (a : ActorId) : Cluster :=
  match s.actors a with
  | none => s
  | some actor =>
    if actor.state = .idle then
      match s.rddLocal actor.rddLocal with
      | none => s
      | some x =>
        if x.downstreamRddLocal = [] then
          (s.setActor a { actor with active := false, state := .terminate }).multicast cfg a
            (.removeRddLocal x.rddName)
        else s.setActor a { actor with active := false, state := .active }
    else s

/-- `BaseRddActor::onDownstreamRemoved`, when there is still an actor. -/
def onDownstreamRemoved (s : Cluster) (a : ActorId) : Cluster :=
  match s.actors a with
  | none => s
  | some actor => if actor.state ≠ .terminate ∧ actor.active = false then s.post [.destroy a] else s

/-- `RddLocal::removeDownstreamRddLocal`. -/
def removeDownstreamRddLocal (m o : ℕ) (s : Cluster) (u : ℕ) : Cluster :=
  match s.rddLocal u with
  | none => s
  | some y =>
    let s := s.modify u fun y => { y with downstreamRddLocal := y.downstreamRddLocal.erase o }
    if y.downstreamRddLocal.erase o = [] ∧ y.rddId.memberId = m then s.onDownstreamRemoved y.rddId
    else s

/-- What `RddLocal::onDestroy` leaves of the object. -/
def clearLocal (x : RddLocal) : RddLocal :=
  { x with
    upstreamRddLocal := []
    downstreamRddLocal := []
    rddStoreListener := none }

/-- `RddLocal::onDestroy`. -/
def destroyLocal (s : Cluster) (m o : ℕ) (x : RddLocal) : Cluster :=
  (x.upstreamRddLocal.foldl (removeDownstreamRddLocal m o) s).modify o clearLocal

/-- The store of a delegate is looked up by its name alone. -/
def releaseListener (cfg : Service) (s : Cluster) (m : ℕ) (x : RddLocal) : Option Cluster :=
  if x.delegateRdd then
    match x.transformerMsg with
    | some (.delegate request) =>
      (cfg.getStore m none request.storeName).bind fun store =>
        x.rddStoreListener.bind fun listener => s.eraseListener (m, store) listener
    | _ => none
  else some s

/-- `handleRemoveRddLocal`. -/
def handleRemoveRddLocal (cfg : Service) (s : Cluster) (m : ℕ) (rddName : String) : Cluster :=
  match s.rddLocalMap (m, rddName), s.entry (m, rddName) with
  | some o, some x =>
    match s.releaseListener cfg m x with
    | none => s.crash m
    | some s => (s.destroyLocal m o x).setEntry (m, rddName) none
  | _, _ => s

/-! ## Steps -/

/-- The service of a member handles a message. -/
def serve (cfg : Service) (s : Cluster) (m : ℕ) (source : ActorId) : Payload → Cluster
  | .createDelegatePartition request => s.handleCreateDelegatePartition cfg m source request
  | .createRddPartition request => s.handleCreateRddPartition m source request
  | .partitionCreated rddName state => s.handlePartitionCreated cfg m source rddName state
  | .rddStateSync rddName state => s.handleRddStateSync m rddName state
  | .removeRddLocal rddName => s.handleRemoveRddLocal cfg m rddName

/-- A message is handled, but nothing is on a member that has gone wrong. -/
def handle (cfg : Service) (s : Cluster) : Message → Cluster
  | .toService m source payload => if s.crashed m then s else s.serve cfg m source payload
  | .destroy a => s.onDestroy cfg a

/-- The steps: the requests of clients to the service of a member, what the actor of an RDD says to
the members while it is idle, and the delivery of any message that is on its way. -/
inductive ClusterStep
  | createStoreDelegate (m : ℕ) (request : CreateDelegateRddRequest)
  | createRdd (m : ℕ) (request : CreateRddRequest)
  | rddDestroy (m : ℕ) (rddName : String)
  | partitionCreated (a : ActorId)
  | stateChanged (a : ActorId) (state : RddState)
  | deliver (i : ℕ)

/-- The object of an actor that is idle. -/
def idleActor (s : Cluster) (a : ActorId) : Option ℕ :=
  (s.actors a).bind fun actor => if actor.state = .idle then some actor.rddLocal else none

def remove (s : Cluster) (i : ℕ) : Cluster := { s with inFlight := s.inFlight.eraseIdx i }

/-- A step. -/
def step (cfg : Service) (s : Cluster) : ClusterStep → Option Cluster
  | .createStoreDelegate m request => if s.crashed m then none
    else some (s.handleCreateStoreDelegate cfg m request)
  | .createRdd m request => if s.crashed m then none else some (s.handleCreateRdd cfg m request)
  | .rddDestroy m rddName => if s.crashed m then none else some (s.handleRddDestroy m rddName)
  | .partitionCreated a =>
    (s.idleActor a).bind fun o => (s.rddLocal o).map fun x =>
      s.multicast cfg a (.partitionCreated x.rddName .prepared)
  | .stateChanged a state =>
    (s.idleActor a).bind fun o => (s.rddLocal o).map fun x =>
      (s.modify o fun x => { x with state := state }).multicast cfg a
      (.rddStateSync x.rddName state)
  | .deliver i => (s.inFlight[i]?).map ((s.remove i).handle cfg)

/-! ## What names designate -/

/-- The actor of the RDD has not terminated. -/
def Alive (s : Cluster) (a : ActorId) : Prop := ∃ actor ∈ s.actors a, actor.state ≠ .terminate

/-- An RDD that has not terminated is downstream of the RDD on some member. -/
def HasLiveDownstream (s : Cluster) (a : ActorId) : Prop :=
  ∃ o < s.next, ∃ x ∈ s.rddLocal o, x.rddId = a ∧ ∃ p ∈ x.downstreamRddLocal, ∃ y ∈ s.rddLocal p,
    s.Alive y.rddId

/-- The listener of the object that has a name. -/
def listening (cfg : Service) (s : Cluster) (k : ℕ × String) : Option (ℕ × (ℕ × Store)) :=
  (s.entry k).bind (RddLocal.listening cfg)

/-- No member has gone wrong, and the list of every store has the listeners of the delegates that
have a name, each once. -/
structure Registered (cfg : Service) (s : Cluster) : Prop where
  crashed : ∀ m, s.crashed m = false
  nodup : ∀ k, (s.listeners k).Nodup
  listeners : ∀ k listener, listener ∈ s.listeners k ↔
    ∃ name, s.listening cfg name = some (listener, k)

/-- The RDD whose state or removal a message is about. -/
def about : Message → Option ActorId
  | .toService _ source (.partitionCreated _ _) => some source
  | .toService _ source (.rddStateSync _ _) => some source
  | .toService _ source (.removeRddLocal _) => some source
  | _ => none

/-- The object loses its name. -/
def Loses (s s' : Cluster) (k : ℕ × String) (o : ℕ) : Prop :=
  s.rddLocalMap k = some o ∧ s'.rddLocalMap k ≠ some o

/-- A message about the state or the removal of an RDD concerns objects of that RDD only, and no
object of an RDD with a live downstream RDD loses its name. -/
structure Designated (s : Cluster) (label : ClusterStep) (s' : Cluster) : Prop where
  own : ∀ i msg a, label = .deliver i → s.inFlight[i]? = some msg → about msg = some a →
    ∀ k o x, s.rddLocalMap k = some o → s.rddLocal o = some x →
      (s'.rddLocalMap k ≠ some o ∨ (s'.rddLocal o).map RddLocal.state ≠ some x.state) → x.rddId = a
  upstream : ∀ k o x, s.Loses s' k o → s.rddLocal o = some x → ¬ s.HasLiveDownstream x.rddId

/-! ## Orderly steps -/

/-- The object may lose its name to an RDD, of which the store is given when it is a delegate. -/
def Replaceable (cfg : Service) (s : Cluster) (store : Option Store) (x : RddLocal) : Prop :=
  ¬ s.HasLiveDownstream x.rddId ∧
    (x.rddStoreListener = none ∨ store.isSome = true ∧ x.store cfg = store)

/-- The inputs that get linked: those up to the first operator that cannot be parsed. -/
def linkedInputs (parse : ℕ → Bool) : ℕ → List String → List String
  | _, [] => []
  | i, name :: names => if parse i then name :: linkedInputs parse (i + 1) names else [name]

/-- The inputs of the RDD that get linked now, if any, are alive if it is. -/
def InputsAlive (cfg : Service) (s : Cluster) (m : ℕ) (source : ActorId)
    (request : CreateRddRequest) : Prop :=
  s.inputs m request.inRdd = .ready → cfg.prepares m request = true → s.Alive source →
    ∀ name ∈ linkedInputs (cfg.parse request) 0 request.inRdd, ∀ y ∈ s.entry (m, name),
    s.Alive y.rddId

/-- The partitions of the RDD were created here, and its inputs may be linked. -/
def Linkable (cfg : Service) (s : Cluster) (m : ℕ) (source : ActorId) (x : RddLocal) : Prop :=
  match x.transformerMsg with
  | some (.delegate _) => True
  | some (.rdd request) => s.InputsAlive cfg m source request
  | none => False

/-- A delegate has its listener, and the name of its store alone leads to the store. -/
def Releasable (cfg : Service) (m : ℕ) (x : RddLocal) : Prop :=
  match x.transformerMsg with
  | some (.delegate request) =>
    x.rddStoreListener.isSome = true ∧ (cfg.storeOf m request).isSome = true ∧
      cfg.getStore m none request.storeName = cfg.storeOf m request
  | _ => True

/-- The message is handled where the name is that of its RDD or free, or may be taken; a delegate is
removed when it has its listener and the name alone leads to its store, and an actor terminates when
no downstream RDD is alive. -/
def HandledOrderly (cfg : Service) (s : Cluster) : Message → Prop
  | .toService m source (.createDelegatePartition request) =>
    ∀ store ∈ cfg.storeOf m request, ∀ x ∈ s.entry (m, request.rddName),
      x.rddId = source ∨ s.Replaceable cfg (some store) x
  | .toService m source (.createRddPartition request) =>
    ∀ x ∈ s.entry (m, request.outRdd), x.rddId = source ∨ s.Replaceable cfg none x
  | .toService m source (.partitionCreated rddName _) =>
    ∀ x ∈ s.entry (m, rddName), x.rddId = source ∧ s.Linkable cfg m source x
  | .toService m source (.rddStateSync rddName _) => ∀ x ∈ s.entry (m, rddName), x.rddId = source
  | .toService m source (.removeRddLocal rddName) =>
    ∀ x ∈ s.entry (m, rddName), x.rddId = source ∧ Releasable cfg m x
  | .destroy a =>
    ∀ o ∈ s.idleActor a, ∀ x ∈ s.rddLocal o, x.downstreamRddLocal = [] → ¬ s.HasLiveDownstream a

/-- A step that takes a name only where it may, and handles messages as they should be. -/
def Orderly (cfg : Service) (s : Cluster) : ClusterStep → Prop
  | .createStoreDelegate m request =>
    ∀ store ∈ cfg.storeOf m request, ∀ x ∈ s.entry (m, request.rddName),
      s.Replaceable cfg (some store) x
  | .createRdd m request => request.inRdd ≠ [] →
      ∀ x ∈ s.entry (m, request.outRdd), s.Replaceable cfg none x
  | .deliver i => ∀ msg ∈ s.inFlight[i]?, s.HandledOrderly cfg msg
  | _ => True

instance (s : Cluster) (a : ActorId) : Decidable (s.Alive a) :=
  inferInstanceAs (Decidable (∃ actor ∈ s.actors a, _))

instance (s : Cluster) (a : ActorId) : Decidable (s.HasLiveDownstream a) :=
  inferInstanceAs (Decidable (∃ o < s.next, ∃ x ∈ s.rddLocal o, _))

instance (cfg : Service) (s : Cluster) (store : Option Store) (x : RddLocal) :
    Decidable (s.Replaceable cfg store x) :=
  inferInstanceAs (Decidable (_ ∧ _))

instance (cfg : Service) (s : Cluster) (m : ℕ) (source : ActorId) (request : CreateRddRequest) :
    Decidable (s.InputsAlive cfg m source request) :=
  inferInstanceAs (Decidable (_ → _))

instance (cfg : Service) (s : Cluster) (m : ℕ) (source : ActorId) (x : RddLocal) :
    Decidable (s.Linkable cfg m source x) := by
  unfold Linkable
  split <;> infer_instance

instance (cfg : Service) (m : ℕ) (x : RddLocal) : Decidable (Releasable cfg m x) := by
  unfold Releasable
  split <;> infer_instance

instance (cfg : Service) (s : Cluster) (msg : Message) : Decidable (s.HandledOrderly cfg msg) := by
  unfold HandledOrderly
  split <;> infer_instance

instance (cfg : Service) (s : Cluster) (label : ClusterStep) : Decidable (s.Orderly cfg label) := by
  unfold Orderly
  split <;> infer_instance

end Cluster

end Idgs.Rdd.NamedRdds
