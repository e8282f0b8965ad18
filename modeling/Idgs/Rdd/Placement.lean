import Idgs.Rdd.Evaluation

/-!
# Where the partitions of an RDD are

Every member makes its own `RddLocal` of an RDD and hosts the partitions that its own partition
table gives it then. The member of the RDD makes its `RddLocal` when it creates the RDD, the others
when the creation message gets to them. It collects the actors of the partitions, sends the map of
them to the members, and counts the members that have it.
-/

namespace Idgs.Rdd.Placement

/-- `ActorId`: a member and an actor on it. -/
structure ActorId where
  memberId : ℕ
  actorId : ℕ
deriving DecidableEq

/-- `CreateRddRequest` and `CreateDelegateRddRequest`: the name of the RDD and those of its inputs,
each with whether its expressions can be parsed. For a delegate `valid` says whether the member has
the store, otherwise whether it has the transformer and can register the types. -/
structure CreateRddRequest where
  outRdd : ℕ
  inRdd : List (ℕ × Bool) := []
  delegate : Bool := false
  valid : ℕ → Bool := fun _ => true

/-- `RddLocal`: what a member knows about an RDD. Upstream and downstream are other such objects of
the member. -/
structure RddLocal where
  member : ℕ
  rddName : ℕ
  rddId : ActorId
  state : RddState
  delegateRdd : Bool
  localPartitions : List ℕ
  transformerMsg : Option CreateRddRequest := none
  localPartitionMap : ℕ → Option ActorId := fun _ => none
  partitionActors : ℕ → Option ActorId := fun _ => none
  partitionStates : ℕ → RddState := fun _ => .init
  upstreamRddLocal : List ℕ := []
  downstreamRddLocal : List ℕ := []

/-- The messages of the creation; the codes say whether it was a success. -/
inductive Message
  | createRddPartition (dest : ℕ) (src : ActorId) (request : CreateRddRequest)
  | createRddPartitionResponse (dest : ActorId) (src : ℕ) (code : Bool) (parts : List (ℕ × ActorId))
  | partitionCreated (dest : ℕ) (src : ActorId) (rddName : ℕ) (parts : List (ℕ × ActorId))
  | rddPartitionPrepared (dest : ActorId) (src : ℕ) (code : Bool)
  | rddStateSync (dest rddName : ℕ) (state : RddState)

/-- An entry of a member table; its index is the id of the member. -/
structure StoreMember where
  available : Bool
  localStore : Bool

/-- The tables of the members, their RDDs, and the messages on their way. -/
structure Cluster where
  /-- The primary member of each partition, as each member knows it. -/
  primaryMemberId : ℕ → ℕ → ℕ
  /-- The member table of each member. -/
  memberTable : ℕ → List StoreMember
  rddLocal : ℕ → Option RddLocal := fun _ => none
  /-- For each member the object that has a name. -/
  rddLocalMap : ℕ → ℕ → Option ℕ := fun _ _ => none
  /-- The object of the actor of an RDD. -/
  rddActor : ActorId → Option ℕ := fun _ => none
  /-- The RDD that a name was given to last. -/
  rddOf : ℕ → Option ActorId := fun _ => none
  nextObject : ℕ := 0
  nextActor : ℕ := 0
  inFlight : List Message := []

/-- What happens: a table changes on a member, a client creates an RDD on a member, a message is
handled or lost, an RDD fails, and the evaluation of a prepared RDD changes its state and those of
its partitions. -/
inductive ClusterStep
  | partitionTable (m p primary : ℕ)
  | memberTable (m : ℕ) (table : List StoreMember)
  | createRdd (m : ℕ) (request : CreateRddRequest)
  | deliver (i : ℕ)
  | lose (i : ℕ)
  | fail (a : ActorId)
  | evaluate (a : ActorId) (state : RddState) (partitionStates : ℕ → RddState)

/-- The constructor of `RddLocal`: the local partitions are read from the partition table. -/
def RddLocal.new (partitionSize : ℕ) (primary : ℕ → ℕ) (member rddName : ℕ) (rddId : ActorId)
    (delegate : Bool) :
    RddLocal where
  member := member
  rddName := rddName
  rddId := rddId
  state := .init
  delegateRdd := delegate
  localPartitions := (List.range partitionSize).filter fun p => member = primary p

/-- A member has told its partitions. -/
def RddLocal.addPartitions (x : RddLocal) (state : RddState) (parts : List (ℕ × ActorId)) :
    RddLocal :=
  parts.foldl
    (fun x part =>
      { x with
        partitionStates := Function.update x.partitionStates part.1 state
        partitionActors := Function.update x.partitionActors part.1 (some part.2) })
    x

namespace Cluster

variable (partitionSize : ℕ)

/-! ## Objects and messages -/

/-- The object has changed. -/
def setRddLocal (s : Cluster) (o : ℕ) (x : RddLocal) : Cluster :=
  { s with rddLocal := Function.update s.rddLocal o (some x) }

/-- Change an object. -/
def modifyRddLocal (s : Cluster) (o : ℕ) (f : RddLocal → RddLocal) : Cluster :=
  match s.rddLocal o with
  | some x => s.setRddLocal o (f x)
  | none => s

/-- Send messages. -/
def send (s : Cluster) (messages : List Message) : Cluster :=
  { s with inFlight := s.inFlight ++ messages }

/-- The members that a member's table has as local stores. -/
def localStores (s : Cluster) (m : ℕ) : List ℕ :=
  (List.range (s.memberTable m).length).filter fun i => ((s.memberTable m)[i]?).any (·.localStore)

/-- `multicastRddMessage`: a message to the available members among them. -/
def multicastRddMessage (s : Cluster) (m : ℕ) (message : ℕ → Message) : Cluster :=
  s.send (((s.localStores m).filter fun i => ((s.memberTable m)[i]?).any (·.available)).map message)

/-- `processRddStateChanged`. -/
def processRddStateChanged (s : Cluster) (x : RddLocal) : Cluster :=
  s.multicastRddMessage x.rddId.memberId fun d => .rddStateSync d x.rddName x.state

/-- The state of an RDD changes on its member, and the others are told. -/
def changeRddState (s : Cluster) (o : ℕ) (x : RddLocal) : Cluster :=
  (s.setRddLocal o x).processRddStateChanged x

/-- `processRddError`. -/
def processRddError (s : Cluster) (o : ℕ) (x : RddLocal) : Cluster :=
  s.changeRddState o { x with state := .error }

/-! ## The handlers -/

/-- `handleCreateRdd` and `handleCreateStoreDelegate`, with `handleRddCreate` of the actor. -/
def handleCreateRdd (s : Cluster) (m : ℕ) (request : CreateRddRequest) : Cluster :=
  if (if request.delegate then !request.valid m else request.inRdd.isEmpty) then s
  else
    let a : ActorId := ⟨m, s.nextActor⟩
    let x := RddLocal.new partitionSize (s.primaryMemberId m) m request.outRdd a request.delegate
    let x := { x with transformerMsg := if request.delegate then some request else none }
    send
      { s with
        rddLocal := Function.update s.rddLocal s.nextObject (some x)
        rddLocalMap := Function.update s.rddLocalMap m
          (Function.update (s.rddLocalMap m) request.outRdd (some s.nextObject))
        rddActor := Function.update s.rddActor a (some s.nextObject)
        rddOf := Function.update s.rddOf request.outRdd (some a)
        nextObject := s.nextObject + 1
        nextActor := s.nextActor + 1 }
      ((s.localStores m).map fun d => .createRddPartition d a request)

/-- The object that `handleCreateRddPartition` goes on with: that of the same RDD when it is there,
otherwise a new one. -/
def partRddLocal (s : Cluster) (dest : ℕ) (src : ActorId) (request : CreateRddRequest) :
    ℕ × RddLocal :=
  let fresh :=
    (s.nextObject,
      RddLocal.new partitionSize (s.primaryMemberId dest) dest request.outRdd src request.delegate)
  match s.rddLocalMap dest request.outRdd with
  | none => fresh
  | some o =>
    match s.rddLocal o with
    | none => fresh
    | some x => if x.rddId = src then (o, x) else fresh

/-- `handleCreateRddPartition` and `handleCreateDelegatePartition`. The actors of the partitions
have new ids. -/
def handleCreateRddPartition (s : Cluster) (dest : ℕ) (src : ActorId) (request : CreateRddRequest) :
    Cluster :=
  if request.delegate && !request.valid dest then
    s.send [.createRddPartitionResponse src dest false []]
  else
    let (o, x) := s.partRddLocal partitionSize dest src request
    let actor := fun p => (⟨dest, s.nextActor + p⟩ : ActorId)
    let x := { x with
      transformerMsg := some request
      state := .created
      localPartitionMap := fun p => if p ∈ x.localPartitions then some (actor p)
        else x.localPartitionMap p }
    send
      { s with
        rddLocal := Function.update s.rddLocal o (some x)
        rddLocalMap := Function.update s.rddLocalMap dest
          (Function.update (s.rddLocalMap dest) request.outRdd (some o))
        nextObject := s.nextObject + 1
        nextActor := s.nextActor + partitionSize }
      [.createRddPartitionResponse src dest true (x.localPartitions.map fun p => (p, actor p))]

/-- `handleCreateRddPartitionResponse`. -/
def handleCreateRddPartitionResponse (s : Cluster) (a : ActorId) (code : Bool)
    (parts : List (ℕ × ActorId)) :
    Option Cluster :=
  (s.rddActor a).bind fun o => (s.rddLocal o).map fun x =>
    if x.state = .error then s
    else if !code then s.processRddError o x
    else
      let x := RddLocal.addPartitions x .created parts
      let s := s.setRddLocal o x
      if (List.range partitionSize).all fun p => x.partitionStates p = .created then
        s.multicastRddMessage a.memberId fun d => .partitionCreated d x.rddId x.rddName
          ((List.range partitionSize).filterMap fun p => (x.partitionActors p).map fun ac =>
            (p, ac))
      else s

/-- What the states of the inputs mean for `handlePartitionCreated`. -/
inductive Inputs
  | ready | wait | error

/-- The inputs in order, up to the first one that is not there, has failed or is not prepared. -/
def checkInputs (s : Cluster) (dest : ℕ) : List (ℕ × Bool) → Inputs
  | [] => .ready
  | (u, _) :: rest =>
    match (s.rddLocalMap dest u).bind s.rddLocal with
    | none => .wait
    | some y =>
      if y.state = .error then .error
      else if y.state = .init ∨ y.state = .created then .wait
      else checkInputs s dest rest

/-- `addUpstreamRddLocal` and `addDownstreamRddLocal`. -/
def link (s : Cluster) (o u : ℕ) : Cluster :=
  (s.modifyRddLocal o fun x =>
    { x with upstreamRddLocal := x.upstreamRddLocal ++ [u] }).modifyRddLocal u
    fun y => { y with downstreamRddLocal := y.downstreamRddLocal ++ [o] }

/-- The inputs are linked in order, up to the first one whose expressions cannot be parsed. -/
def linkInputs (s : Cluster) (dest o : ℕ) : List (ℕ × Bool) → Cluster × Bool
  | [] => (s, true)
  | (u, parsed) :: rest =>
    match s.rddLocalMap dest u with
    | none => (s, false)
    | some v => if parsed then linkInputs (s.link o v) dest o rest else (s.link o v, false)

/-- `handlePartitionCreated` up to the states and actors of the partitions: the cluster and the
code, or nothing when the message has to wait for an input. -/
def prepareInputs (s : Cluster) (dest o : ℕ) (x : RddLocal) : Option (Option (Cluster × Bool)) :=
  if x.delegateRdd then some (some (s, true))
  else x.transformerMsg.map fun request =>
    match s.checkInputs dest request.inRdd with
    | .wait => none
    | .error => some (s, false)
    | .ready => if request.valid dest then some (s.linkInputs dest o request.inRdd)
        else some (s, false)

/-- `handlePartitionCreated`. A message that has to wait is posted again. -/
def handlePartitionCreated (s : Cluster) (dest : ℕ) (src : ActorId) (rddName : ℕ)
    (parts : List (ℕ × ActorId)) :
    Option Cluster :=
  match s.rddLocalMap dest rddName with
  | none => some (s.send [.rddPartitionPrepared src dest false])
  | some o => (s.rddLocal o).bind fun x => (s.prepareInputs dest o x).map fun
      | none => s.send [.partitionCreated dest src rddName parts]
      | some (s, false) => s.send [.rddPartitionPrepared src dest false]
      | some (s, true) =>
        let s := if src.memberId = dest then s
          else s.modifyRddLocal o fun x =>
            RddLocal.addPartitions { x with state := .prepared } .prepared parts
        s.send [.rddPartitionPrepared src dest true]

/-- `handleRddPartitionPrepared`: the partitions of the member are counted as the partition table
has it now. -/
def handleRddPartitionPrepared (s : Cluster) (a : ActorId) (src : ℕ) (code : Bool) :
    Option Cluster :=
  (s.rddActor a).bind fun o => (s.rddLocal o).map fun x =>
    if x.state = .error then s
    else if !code then s.processRddError o x
    else
      let primary := s.primaryMemberId a.memberId
      let x := { x with
        partitionStates := fun p => if p < partitionSize ∧ src = primary p then .prepared
          else x.partitionStates p }
      if (List.range partitionSize).all fun p => x.partitionStates p = .prepared then
        s.changeRddState o { x with state := if x.delegateRdd then .ready else .prepared }
      else s.setRddLocal o x

/-- `handleRddStateSync`. -/
def handleRddStateSync (s : Cluster) (dest rddName : ℕ) (state : RddState) : Cluster :=
  match s.rddLocalMap dest rddName with
  | none => s
  | some o => s.modifyRddLocal o fun x => { x with state := state }

/-- Handle a message. -/
def handle (s : Cluster) : Message → Option Cluster
  | .createRddPartition dest src request =>
    some (s.handleCreateRddPartition partitionSize dest src request)
  | .createRddPartitionResponse dest _ code parts =>
    s.handleCreateRddPartitionResponse partitionSize dest code parts
  | .partitionCreated dest src rddName parts => s.handlePartitionCreated dest src rddName parts
  | .rddPartitionPrepared dest src code => s.handleRddPartitionPrepared partitionSize dest src code
  | .rddStateSync dest rddName state => some (s.handleRddStateSync dest rddName state)

/-- The message is not on its way any more. -/
def remove (s : Cluster) (i : ℕ) : Cluster := { s with inFlight := s.inFlight.eraseIdx i }

/-- States of an RDD whose partitions are not all prepared. -/
def unprepared (state : RddState) : Bool := state = .init || state = .created || state = .error

/-- One step. -/
def step (s : Cluster) : ClusterStep → Option Cluster
  | .partitionTable m p primary => some
      { s with
        primaryMemberId :=
          Function.update s.primaryMemberId m (Function.update (s.primaryMemberId m) p primary) }
  | .memberTable m table => some { s with memberTable := Function.update s.memberTable m table }
  | .createRdd m request => some (s.handleCreateRdd partitionSize m request)
  | .deliver i => (s.inFlight[i]?).bind fun m => (s.remove i).handle partitionSize m
  | .lose i => some (s.remove i)
  | .fail a => (s.rddActor a).bind fun o => (s.rddLocal o).map fun x => s.processRddError o x
  | .evaluate a state partitionStates =>
    (s.rddActor a).bind fun o => (s.rddLocal o).bind fun x =>
      if unprepared x.state || unprepared state then none
      else some (s.changeRddState o { x with state := state, partitionStates := partitionStates })

/-! ## One home for each partition -/

/-- The member hosts the partition with that actor. -/
def Hosts (s : Cluster) (a : ActorId) (m p : ℕ) (actor : ActorId) : Prop :=
  ∃ o x, s.rddLocal o = some x ∧ x.rddId = a ∧ x.member = m ∧ x.localPartitionMap p = some actor

/-- `getUpstreamPartition` and `getDownstreamPartition`: the partitions of the same index. -/
def partitionsOf (s : Cluster) (objects : List ℕ) (p : ℕ) : List (Option ActorId) :=
  objects.map fun u => (s.rddLocal u).bind fun y => y.localPartitionMap p

/-- When an RDD is PREPARED or READY, each of its partitions has one home, which all its members
know; and the partitions of an RDD and of its upstream RDDs are together. -/
structure OneHome (s : Cluster) : Prop where
  home : ∀ a o x, s.rddActor a = some o → s.rddLocal o = some x →
    x.state = .prepared ∨ x.state = .ready →
    ∀ p < partitionSize, ∃! m, ∃ actor, s.Hosts a m p actor
  named : ∀ a o x, s.rddActor a = some o → s.rddLocal o = some x →
    x.state = .prepared ∨ x.state = .ready →
    ∀ o' y, s.rddLocal o' = some y → y.rddId = a → ∀ p < partitionSize,
      ∃ m actor, s.Hosts a m p actor ∧ y.partitionActors p = some actor
  together : ∀ o x, s.rddLocal o = some x → ∀ u ∈ x.upstreamRddLocal, ∃ y, s.rddLocal u = some y ∧
    ∀ p m m' actor actor', s.Hosts x.rddId m p actor → s.Hosts y.rddId m' p actor' → m = m'
  found : ∀ o x p, s.rddLocal o = some x → (x.localPartitionMap p).isSome →
    none ∉ s.partitionsOf x.upstreamRddLocal p ∧ none ∉ s.partitionsOf x.downstreamRddLocal p

/-! ## Agreeing reads -/

/-- A member's table gives the partitions of the RDD to their owners. -/
def Reads (s : Cluster) (owner : ℕ → ℕ → ℕ) (m rddName : ℕ) : Prop :=
  ∀ p < partitionSize, s.primaryMemberId m p = owner rddName p

/-- The message makes a local part of that RDD. -/
def creates (a : ActorId) : Message → Bool
  | .createRddPartition _ src _ => src = a
  | _ => false

/-- The RDD may become PREPARED: the members that host no partition of it have the partition map,
and no other member makes a local part of it any more. -/
def IdleReady (s : Cluster) (a : ActorId) : Prop :=
  (∀ o < s.nextObject, ∀ y ∈ s.rddLocal o, y.rddId = a → y.localPartitions = [] →
    ∀ p < partitionSize, (y.partitionActors p).isSome = true) ∧
  ∀ m ∈ s.inFlight, creates a m = false

/-- All partitions but those of the member are counted. -/
def LastAnswer (s : Cluster) (x : RddLocal) (m src : ℕ) : Prop :=
  ∀ p < partitionSize, x.partitionStates p = .prepared ∨ src = s.primaryMemberId m p

/-- The member that handles the message reads the owners from its table; and when it counts the last
answer, the members without partitions are ready. -/
def AgreeingMessage (owner : ℕ → ℕ → ℕ) (s : Cluster) : Message → Prop
  | .createRddPartition dest _ request => s.Reads partitionSize owner dest request.outRdd
  | .rddPartitionPrepared a src code => code = true → ∀ o ∈ s.rddActor a, ∀ x ∈ s.rddLocal o,
      s.Reads partitionSize owner a.memberId x.rddName ∧
        (s.LastAnswer partitionSize x a.memberId src → s.IdleReady partitionSize a)
  | _ => True

/-- Every read of a partition table for an RDD gives the same owners, which its inputs have as well;
and names are not given again. -/
def Agreeing (owner : ℕ → ℕ → ℕ) (s : Cluster) : ClusterStep → Prop
  | .createRdd m request =>
    s.rddOf request.outRdd = none ∧ s.Reads partitionSize owner m request.outRdd ∧
      ∀ u ∈ request.inRdd, ∀ p < partitionSize, owner u.1 p = owner request.outRdd p
  | .deliver i => ∀ m ∈ s.inFlight[i]?, s.AgreeingMessage partitionSize owner m
  | _ => True

instance (s : Cluster) (owner : ℕ → ℕ → ℕ) (m rddName : ℕ) :
    Decidable (s.Reads partitionSize owner m rddName) :=
  inferInstanceAs (Decidable (∀ p < partitionSize, _))

instance (s : Cluster) (a : ActorId) : Decidable (s.IdleReady partitionSize a) :=
  inferInstanceAs (Decidable ((∀ o < s.nextObject, ∀ y ∈ s.rddLocal o, _) ∧ ∀ m ∈ s.inFlight, _))

instance (s : Cluster) (x : RddLocal) (m src : ℕ) :
    Decidable (s.LastAnswer partitionSize x m src) :=
  inferInstanceAs (Decidable (∀ p < partitionSize, _))

instance (owner : ℕ → ℕ → ℕ) (s : Cluster) (m : Message) :
    Decidable (s.AgreeingMessage partitionSize owner m) := by
  unfold AgreeingMessage
  split <;> infer_instance

instance (owner : ℕ → ℕ → ℕ) (s : Cluster) (a : ClusterStep) :
    Decidable (s.Agreeing partitionSize owner a) := by
  unfold Agreeing
  split <;> infer_instance

end Cluster

end Idgs.Rdd.Placement
