import Idgs.Rdd.Evaluation

/-!
# The actions of an RDD

The actor of one RDD with everything around it. Clients ask for actions at any time; the actor keeps
what it cannot serve at once in a queue, asks the partitions and answers when all of them have
responded. What the partitions, the upstream and the downstream RDDs and the other members send is
left open: any message of theirs may come at any time. Messages are handled in any order.

The state of an RDD is shared with the RDD service on the member of the actor, where the messages
that announce a change of state to all members arrive as well.
-/

namespace Idgs.Rdd.BaseRddActor

/-- `pb::RddResultCode`. -/
inductive RddResultCode
  | success | notSupport | unkownError | invalidKey | invalidValue | rddNotFound
    | partitionActorNotFound
  | invalidPartitionActor | transformerNotFound | actionNotFound | invalidExpressionSize
      | invalidField
  | fieldNotFound | dataConvertError | invalidRddInput | transformerParamNotFound
      | actionParamNotFound
  | invalidTransformerParam | invalidActionParam | byZero | joinTypeNotFound | rddStateInit
  | rddStateDependencyProcessing | rddStateProcessing | rddStateTransformComplete | storeNotFound
      | emptyMessage
  | invalidKeySchema | invalidValueSchema | parseExpressionError | rddNameExists | rddError
deriving DecidableEq

variable {ω ρ : Type*}

/-- `pb::ActionRequest`: the operation with its parameters is of type `ω`. The first field tells the
messages apart. -/
structure ActionRequest (ω : Type*) where
  no : ℕ
  action_id : String
  action : ω

/-- What a client receives: to which request, `pb::ActionResponse` and the attachment
ACTION_RESULT. -/
structure ActionResponse (ρ : Type*) where
  request : ℕ
  action_id : Option String
  result_code : RddResultCode
  actionResult : Option ρ

/-- `RddAction`, but for the request that it keeps. -/
structure RddAction where
  state : RddState
  partitionState : ℕ → RddState
  actionResult : ℕ → List String
  code : RddResultCode

/-- `RddAction::RddAction`. -/
def RddAction.new : RddAction := ⟨.init, fun _ => .init, fun _ => [], .success⟩

/-- `RddAction::setPartitionState`. -/
def RddAction.setPartitionState (partitionSize partition : ℕ) (state : RddState) (a : RddAction) :
    RddAction :=
  let a := { a with partitionState := Function.update a.partitionState partition state }
  if ∀ i < partitionSize, a.partitionState i = .ready then { a with state := .ready } else a

/-- `RddAction::addActionResult` for all values of a response. -/
def RddAction.addActionResult (partition : ℕ) (values : List String) (a : RddAction) : RddAction :=
  { a with
    actionResult :=
      Function.update a.actionResult partition (a.actionResult partition ++ values) }

/-- The messages that concern the actor. What answers a request carries it; the actor looks only at
the action id. -/
inductive Msg (ω : Type*)
  | rddActionRequest (r : ActionRequest ω)
  | actionMessageProcess
  | partitionActionRequest (r : ActionRequest ω) (partition : ℕ)
  | rddActionResponse (r : ActionRequest ω) (partition : ℕ) (result_code : RddResultCode)
      (values : List String)
  | rddTransform
  | rddStateSync (state : RddState)
  | persistTypeSync
  | createRddPartitionResponse (partitions : List ℕ) (result_code : RddResultCode)
  | rddPartitionPrepared (partitions : List ℕ) (result_code : RddResultCode)
  | rddTransformPrepared (partitions : List ℕ)
  | partitionTransformComplete (partition : ℕ) (result_code : RddResultCode)
  | partitionReady (partition : ℕ)
  | upstreamRddError

/-- What other parties may send at any time; `partitions` are those of the member that sends. -/
def Msg.isOutside : Msg ω → Bool
  | .rddTransform | .createRddPartitionResponse .. | .rddPartitionPrepared
    .. | .rddTransformPrepared ..
  | .partitionTransformComplete .. | .partitionReady .. | .upstreamRddError => true
  | _ => false

/-- The surroundings: the partitions and the aggregation of an action over their results. -/
structure RddConfig (ω ρ : Type*) where
  partitionSize : ℕ
  partition_pos : 0 < partitionSize
  isDelegateRdd : Bool
  aggregate : ω → List (List String) → RddResultCode × Option ρ

/-- The actor, its `RddLocal` and the messages. The queue and the map share the `RddAction` objects,
which are kept here under the number of their request. `underway` says that the RDD is being created
or transformed, with messages between other parties. The last two fields are history: the requests,
and what the partitions have answered to them. -/
structure RddActor (ω ρ : Type*) where
  rddState : RddState
  persistType : PersistType
  partitionState : ℕ → RddState
  actionQueue : List (ActionRequest ω)
  rddActions : String → Option (ActionRequest ω)
  actions : ℕ → RddAction
  inFlight : List (Msg ω)
  responses : List (ActionResponse ρ)
  underway : Bool
  undefinedBehavior : Bool
  requests : List (ActionRequest ω)
  results : ℕ → ℕ → Option (RddResultCode × List String)

namespace RddActor

variable (cfg : RddConfig ω ρ)

/-! ## Sending -/

/-- A message is on its way. -/
def send (s : RddActor ω ρ) (m : Msg ω) : RddActor ω ρ := { s with inFlight := s.inFlight ++ [m] }

/-- RDD_ACTION_RESPONSE to the client. -/
def respond (s : RddActor ω ρ) (r : ActionRequest ω) (action_id : Option String)
    (result_code : RddResultCode)
    (actionResult : Option ρ) : RddActor ω ρ :=
  { s with responses := s.responses ++ [⟨r.no, action_id, result_code, actionResult⟩] }

/-- `setRddState` and `processRddStateChanged`, of whose messages the one to the own member matters
here. -/
def setRddState (s : RddActor ω ρ) (state : RddState) : RddActor ω ρ :=
  { s with rddState := state }.send (.rddStateSync state)

/-- All partitions are in a state. -/
def allPartitions (s : RddActor ω ρ) (state : RddState) : Bool :=
  decide (∀ partition < cfg.partitionSize, s.partitionState partition = state)

/-- The state of all partitions is set. -/
def setPartitions (s : RddActor ω ρ) (state : RddState) : RddActor ω ρ :=
  { s with partitionState := fun _ => state }

/-- The state of some partitions is set. -/
def setPartitionStates (s : RddActor ω ρ) (partitions : List ℕ) (state : RddState) : RddActor ω ρ :=
  { s with
    partitionState := fun partition =>
      if partition ∈ partitions then state else s.partitionState partition }

/-! ## The evaluation of the RDD -/

/-- `BaseRddActor::processRddReady`. -/
def processRddReady (s : RddActor ω ρ) : RddActor ω ρ :=
  let s := s.setRddState (if s.persistType = .none then .prepared else .ready)
  if s.actionQueue ≠ [] then s.send .actionMessageProcess else s

/-- The responses of `processRddError`, one for each queued action. -/
def respondError (s : RddActor ω ρ) (r : ActionRequest ω) : RddActor ω ρ :=
  s.respond r (some r.action_id) .rddError none

/-- `BaseRddActor::processRddError`. -/
def processRddError (s : RddActor ω ρ) : RddActor ω ρ :=
  let s := s.setRddState .error
  { s.actionQueue.foldl respondError s with actionQueue := [] }

/-- `BaseRddActor::handleCreateRddPartitionResponse`. -/
def handleCreateRddPartitionResponse (partitions : List ℕ) (code : RddResultCode)
    (s : RddActor ω ρ) : RddActor ω ρ :=
  if s.rddState = .error then s
  else if code ≠ .success then s.processRddError
  else s.setPartitionStates partitions .created

/-- `BaseRddActor::handleRddPartitionPrepared`. -/
def handleRddPartitionPrepared (partitions : List ℕ) (code : RddResultCode) (s : RddActor ω ρ) :
    RddActor ω ρ :=
  if s.rddState = .error then s
  else if code ≠ .success then s.processRddError
  else
    let s := s.setPartitionStates partitions .prepared
    if allPartitions cfg s .prepared then
      let s := s.setRddState (if cfg.isDelegateRdd then .ready else .prepared)
      if s.actionQueue ≠ [] then s.send .rddTransform else s
    else s

/-- `BaseRddActor::handleRddTransform`. -/
def handleRddTransform (s : RddActor ω ρ) : RddActor ω ρ :=
  match s.rddState with
  | .error => s.processRddError
  | .init | .created => s.send .rddTransform
  | .prepared =>
    let s := { s.setRddState .processing with underway := true }
    if s.actionQueue ≠ [] ∧ s.persistType = .none then
      (s.setPartitions .init).send .persistTypeSync
    else s.setPartitions .prepared
  | .ready => { s.setRddState .processing with underway := true }.setPartitions .prepared
  | _ => s

/-- `BaseRddActor::handlePartitionTransformComplete`. -/
def handlePartitionTransformComplete (partition : ℕ) (code : RddResultCode) (s : RddActor ω ρ) :
    RddActor ω ρ :=
  let s := s.setPartitionStates [partition] (if code ≠ .success then .error else .ready)
  if allPartitions cfg s .ready then s.processRddReady else s

/-- `BaseRddActor::handlePartitionReady`. -/
def handlePartitionReady (partition : ℕ) (s : RddActor ω ρ) : RddActor ω ρ :=
  let state := if s.persistType ≠ .none then .transformComplete else .ready
  let s := s.setPartitionStates [partition] state
  if allPartitions cfg s state && s.persistType = .none then s.processRddReady else s

/-! ## Actions -/

/-- An action is entered into the map and the queue. -/
def addAction (r : ActionRequest ω) (s : RddActor ω ρ) : RddActor ω ρ :=
  { s with
    -- `insert` keeps what is there
    rddActions :=
      Function.update s.rddActions r.action_id (some ((s.rddActions r.action_id).getD r))
    actionQueue := s.actionQueue ++ [r]
    actions := Function.update s.actions r.no .new }

/-- `BaseRddActor::handleRddActionRequest`. -/
def handleRddActionRequest (r : ActionRequest ω) (s : RddActor ω ρ) : RddActor ω ρ :=
  match s.rddState with
  | .error => s.respond r (some r.action_id) .rddError none
  | .processing => s.respond r (some r.action_id) .rddStateProcessing none
  | .prepared => (s.addAction r).send .rddTransform
  | .ready => (s.addAction r).send .actionMessageProcess
  | _ => s.addAction r

/-- The requests to the partitions that have not responded. -/
def requestPartitions (s : RddActor ω ρ) (r : ActionRequest ω) : RddActor ω ρ :=
  (List.range cfg.partitionSize).foldl
    (fun s partition =>
      if (s.actions r.no).partitionState partition ≠ .ready then
        s.send (.partitionActionRequest r partition) else s) s

/-- The loop body of `handleActionProcess`, with the state that was read before the loop. -/
def processAction (state : RddState) (s : RddActor ω ρ) (r : ActionRequest ω) : RddActor ω ρ :=
  match state with
  | .error => s.respond r none .rddError none
  | .ready => requestPartitions cfg s r
  | _ => s

/-- `BaseRddActor::handleActionProcess`. -/
def handleActionProcess (s : RddActor ω ρ) : RddActor ω ρ :=
  { s.actionQueue.foldl (processAction cfg s.rddState) s with actionQueue := [] }

/-- What a response of a partition changes in the action. -/
def receive (partition : ℕ) (code : RddResultCode) (values : List String) (a : RddAction) :
    RddAction :=
  let a := a.setPartitionState cfg.partitionSize partition .ready
  let a := if code ≠ .success then { a with code := code } else a
  a.addActionResult partition values

/-- The results of the partitions, as they are aggregated. -/
def partitionResults (a : RddAction) : List (List String) :=
  (List.range cfg.partitionSize).map a.actionResult

/-- The response to the client. The code of the aggregation is overwritten. -/
def answer (s : RddActor ω ρ) (r : ActionRequest ω) (a : RddAction) (action_id : String) :
    RddActor ω ρ :=
  let actionResult := if a.code = .success then (cfg.aggregate r.action (partitionResults cfg a)).2
    else none
  { s with rddActions := Function.update s.rddActions action_id none }.respond r
  (some action_id) a.code actionResult

/-- `BaseRddActor::handleRddActionResponse`. The iterator is dereferenced also when the action is
not found. -/
def handleRddActionResponse (action_id : String) (partition : ℕ) (code : RddResultCode)
    (values : List String)
    (s : RddActor ω ρ) : RddActor ω ρ :=
  match s.rddActions action_id with
  | none => { s with undefinedBehavior := true }
  | some r =>
    let a := receive cfg partition code values (s.actions r.no)
    let s := { s with actions := Function.update s.actions r.no a }
    if a.state = .ready then answer cfg s r a action_id else s

/-! ## Steps -/

/-- A message is handled: by the actor, or by the RDD service on its member. -/
def handleMessage (s : RddActor ω ρ) : Msg ω → RddActor ω ρ
  | .rddActionRequest r => s.handleRddActionRequest r
  | .actionMessageProcess => handleActionProcess cfg s
  | .partitionActionRequest .. => s
  | .rddActionResponse r partition code values =>
    handleRddActionResponse cfg r.action_id partition code values s
  | .rddTransform => s.handleRddTransform
  | .rddStateSync state => { s with rddState := state }
  | .persistTypeSync => { s with persistType := .ordered }
  | .createRddPartitionResponse partitions code =>
    s.handleCreateRddPartitionResponse partitions code
  | .rddPartitionPrepared partitions code => handleRddPartitionPrepared cfg partitions code s
  | .rddTransformPrepared partitions => s.setPartitionStates partitions .prepared
  | .partitionTransformComplete partition code =>
    handlePartitionTransformComplete cfg partition code s
  | .partitionReady partition => handlePartitionReady cfg partition s
  | .upstreamRddError => s.processRddError

/-- What can happen: a client sends a request; a message in flight is handled; a partition handles a
request; another party sends; the service on the member of the RDD has created its partitions; a
partition of a delegate RDD on the member of the actor sets its state; or nothing comes any more. -/
inductive ActorStep (ω : Type*)
  | request (action_id : String) (action : ω)
  | handle (i : ℕ)
  | partition (i : ℕ) (code : RddResultCode) (values : List String)
  | outside (m : Msg ω)
  | created
  | delegateTransformed (partition : ℕ)
  | settled

/-- The step function. -/
def step (s : RddActor ω ρ) : ActorStep ω → Option (RddActor ω ρ)
  | .request action_id action =>
    let r := ⟨s.requests.length, action_id, action⟩
    some ({ s with requests := s.requests ++ [r] }.send (.rddActionRequest r))
  | .handle i =>
    match s.inFlight[i]? with
    | none => none
    | some (.partitionActionRequest ..) => none
    | some m => some (handleMessage cfg { s with inFlight := s.inFlight.eraseIdx i } m)
  | .partition i code values =>
    match s.inFlight[i]? with
    | some (.partitionActionRequest r partition) =>
      some ({ s with
        inFlight := s.inFlight.eraseIdx i
        results := fun no p =>
          if no = r.no ∧ p = partition then some (code, values) else s.results no p }.send
        (.rddActionResponse r partition code values))
    | _ => none
  | .outside m => if m.isOutside then some (s.send m) else none
  | .created => if s.rddState = .init then some { s with rddState := .created } else none
  | .delegateTransformed partition => some (s.setPartitionStates [partition] .transformComplete)
  | .settled => if s.inFlight = [] then some { s with underway := false } else none

/-- An RDD that is being created. -/
def init (persistType : PersistType) : RddActor ω ρ where
  rddState := .init
  persistType := persistType
  partitionState := fun _ => .init
  actionQueue := []
  rddActions := fun _ => none
  actions := fun _ => .new
  inFlight := []
  responses := []
  underway := true
  undefinedBehavior := false
  requests := []
  results := fun _ _ => none

end RddActor

end Idgs.Rdd.BaseRddActor
