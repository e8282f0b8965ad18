import Idgs.Common.Run
import Idgs.Common.TotalOrder
import Idgs.Rdd.RddGraph

/-!
# Evaluating RDDs

The actors of the RDDs and of their partitions, with their message queues and the messages between
them. An action on an RDD that has not been evaluated makes its actor ask the upstream RDDs to
transform, down to RDDs that hold rows; the partitions of these push their rows through the
transformers, and when the upstream RDDs of an RDD have all said that they are ready, its partitions
check that nothing waits in their queues and report themselves ready.

A message to an actor on the same member is put into its queue at once, unless it is posted; every
other message is in flight, and the messages of one sender to one receiver arrive in the order in
which they were sent.
-/

namespace Idgs.Rdd

/-- `pb::RddState`. -/
inductive RddState
  | init | created | prepared | processing | transformComplete | ready | error
deriving DecidableEq

/-- The parties: the actors of the RDDs, of their partitions and of the RDD service of every member,
and clients. -/
inductive Actor
  | client
  | rdd (d : ℕ)
  | partition (d p : ℕ)
  | service (m : ℕ)
deriving DecidableEq

/-- The messages. The rows of a RE_PARTITION or a PARTITION_STORE message are sent one by one
here. -/
inductive Msg (ρ : Type*)
  | rddTransform
  | partitionTransformComplete (p : ℕ)
  | upstreamRddReady
  | checkPartitionReady
  | partitionReady (p : ℕ)
  | rePartition (row : ρ)
  | partitionStore (row : ρ)
  | rddActionRequest (action : ℕ)
  | actionMessageProcess
  | persistTypeSync (d : ℕ)
  | rddTransformPrepared (m : ℕ)

/-- The row that a message carries. -/
def Msg.row? {ρ : Type*} : Msg ρ → Option ρ
  | .rePartition row => some row
  | .partitionStore row => some row
  | _ => none

/-- A table with one entry set. -/
def setEntry {α : Type*} (t : ℕ → ℕ → α) (a b : ℕ) (v : α) : ℕ → ℕ → α :=
  fun a' b' => if a' = a ∧ b' = b then v else t a' b'

@[simp] theorem setEntry_self {α : Type*} (t : ℕ → ℕ → α) (a b : ℕ) (v : α) :
    setEntry t a b v a b = v :=
  if_pos ⟨rfl, rfl⟩

theorem setEntry_of_ne {α : Type*} {t : ℕ → ℕ → α} {a b a' b' : ℕ} {v : α}
    (h : ¬ (a' = a ∧ b' = b)) :
    setEntry t a b v a' b' = t a' b' := if_neg h

/-- What the actors of the RDDs know. `persistType` and `transformed` are in the `RddLocal` objects
of a member, the rest is in the actor of an RDD. The last three fields are history: whether a
partition has been transformed, has reported itself ready and has been used by an action. -/
structure RddProgress where
  persistType : ℕ → ℕ → PersistType
  transformed : ℕ → ℕ → Bool
  rddState : ℕ → RddState
  partitionState : ℕ → ℕ → RddState
  actionQueue : ℕ → List ℕ
  pushed : ℕ → ℕ → Bool
  reported : ℕ → ℕ → Bool
  used : ℕ → ℕ → Bool

/-- The state of all RDDs: what their actors know, the rows and the cache of every partition, and
the messages. The last two fields are history: the rows sent to a partition or pushed into it, and
those it has handed on. -/
structure Evaluation (ρ : Type*) extends RddProgress where
  dataMap : ℕ → ℕ → List ρ
  localCache : ℕ → ℕ → List ρ
  useRepartitionLocalCache : ℕ → ℕ → Bool
  msgQueue : Actor → List (Actor × Msg ρ)
  inFlight : List ((Actor × Actor) × Msg ρ)
  sent : ℕ → ℕ → List ρ
  passed : ℕ → ℕ → List ρ

/-- What can happen: a message arrives, an actor handles the first message of its queue, or a client
asks for an action. -/
inductive EvaluationStep
  | deliver (src dst : Actor)
  | handle (a : Actor)
  | action (d action : ℕ)

namespace Evaluation

variable {ρ : Type*} (g : RddGraph ρ)

/-! ## Messages -/

/-- The member that an actor is on. -/
def memberOf : Actor → ℕ
  | .client => 0
  | .rdd d => g.rddMember d
  | .partition _ p => g.primaryMember p
  | .service m => m

/-- A message is put into the queue of an actor. -/
def putMessage (s : Evaluation ρ) (src dst : Actor) (m : Msg ρ) : Evaluation ρ :=
  { s with msgQueue := Function.update s.msgQueue dst (s.msgQueue dst ++ [(src, m)]) }

/-- `postMessage`. -/
def postMessage (s : Evaluation ρ) (src dst : Actor) (m : Msg ρ) : Evaluation ρ :=
  { s with inFlight := s.inFlight ++ [((src, dst), m)] }

/-- `sendMessage`. -/
def sendMessage (s : Evaluation ρ) (src dst : Actor) (m : Msg ρ) : Evaluation ρ :=
  if memberOf g src = memberOf g dst then s.putMessage src dst m else s.postMessage src dst m

/-! ## Rows -/

/-- The RE_PARTITION message for a row. -/
def sendRow (d i : ℕ) (s : Evaluation ρ) (row : ρ) : Evaluation ρ :=
  sendMessage g s (.partition d i) (.partition d (g.calcPartitionId row)) (.rePartition row)

/-- `PairRddPartition::flushLocalCache`. The cache is in the order of the keys in the source. -/
def flushLocalCache (d i : ℕ) (s : Evaluation ρ) : Evaluation ρ :=
  (s.localCache d i).foldl (sendRow g d i) { s with localCache := setEntry s.localCache d i [] }

/-- `PairRddPartition::repartition`. -/
def repartitionRow (d i : ℕ) (s : Evaluation ρ) (row : ρ) : Evaluation ρ :=
  let p := g.calcPartitionId row
  let s := { s with sent := setEntry s.sent d p (s.sent d p ++ [row]) }
  if s.useRepartitionLocalCache d i then
    let s := { s with localCache := setEntry s.localCache d i (s.localCache d i ++ [row]) }
    if g.batchMessage < (s.localCache d i).length then flushLocalCache g d i s else s
  else sendRow g d i s row

/-- `PairRddPartition::put`: the partition sends itself a PARTITION_STORE message. -/
def putRow (d i : ℕ) (s : Evaluation ρ) (row : ρ) : Evaluation ρ :=
  sendMessage g { s with sent := setEntry s.sent d i (s.sent d i ++ [row]) }
    (.partition d i) (.partition d i) (.partitionStore row)

/-- `BaseRddPartition::transform` of one row: a partition that does not store its rows hands them
on. -/
def transformRow (processRow : Evaluation ρ → ℕ → ρ → Evaluation ρ) (i : ℕ) (s : Evaluation ρ)
    (u : ℕ)
    (row : ρ) : Evaluation ρ :=
  (g.downstreamRdd u).foldl (fun s e =>
      if g.pushes u e then
        (e.transformRow (g.params s.dataMap e.rdd i) row).foldl (fun s out =>
          processRow s e.rdd out) s
      else s)
    { s with passed := setEntry s.passed u i (s.passed u i ++ [row]) }

/-- `PairRddPartition::processRow` at partition `i` of RDD `d`. There are never more calls inside
each other than RDDs. -/
def processRow (i : ℕ) : ℕ → Evaluation ρ → ℕ → ρ → Evaluation ρ
  | 0, s, _, _ => s
  | n + 1, s, d, row =>
    if g.repartition d then repartitionRow g d i s row
    else if s.persistType (g.primaryMember i) d = .none then
      transformRow g (processRow i n) i { s with
        sent := setEntry s.sent d i (s.sent d i ++ [row]) } d row
    else putRow g d i s row

/-- A `Transformer` takes the rows of a partition; the `GroupTransformer` caches what it sends. -/
def transformInto (u i : ℕ) (s : Evaluation ρ) (e : Downstream ρ) : Evaluation ρ :=
  let rows := e.transform (g.params s.dataMap e.rdd i) (s.dataMap u i)
  if g.group e.rdd then
    flushLocalCache g e.rdd i (rows.foldl (fun s row => processRow g i g.rddSize s e.rdd row)
      { s with useRepartitionLocalCache := setEntry s.useRepartitionLocalCache e.rdd i true })
  else rows.foldl (fun s row => processRow g i g.rddSize s e.rdd row) s

/-- `BaseRddPartition::transform` of a partition. -/
def transform (u i : ℕ) (s : Evaluation ρ) : Evaluation ρ :=
  (g.downstreamRdd u).foldl (fun s e => if g.pushes u e then transformInto g u i s e else s) s

/-- `PairRddPartition::persist`. -/
def persistRow (d p : ℕ) (s : Evaluation ρ) (row : ρ) : Evaluation ρ :=
  if s.persistType (g.primaryMember p) d = .none then s
  else { s with dataMap := setEntry s.dataMap d p (s.dataMap d p ++ [row]) }

/-! ## The actor of a partition -/

/-- `PairRddPartition::handleRddTransform`. That of a store delegate RDD also notes it in the
`RddLocal` of its member. -/
def handlePartitionTransform (d p : ℕ) (s : Evaluation ρ) : Evaluation ρ :=
  let s := transform g d p s
  let s := { s with
    pushed := setEntry s.pushed d p true
    partitionState :=
      if g.isDelegateRdd d ∧ g.primaryMember p = g.rddMember d then
        setEntry s.partitionState d p .transformComplete
      else s.partitionState }
  sendMessage g s (.partition d p) (.rdd d) (.partitionTransformComplete p)

/-- `PairRddPartition::handleRePartition`, for RDDs that do not aggregate. -/
def handleRePartition (d p : ℕ) (s : Evaluation ρ) (row : ρ) : Evaluation ρ :=
  if s.persistType (g.primaryMember p) d = .none then
    transformRow g (processRow g p g.rddSize) p s d row
  else persistRow g d p s row

/-- `PairRddPartition::handleCheckPartitionReady`. -/
def handleCheckPartitionReady (d p : ℕ) (src : Actor) (s : Evaluation ρ) : Evaluation ρ :=
  if s.msgQueue (.partition d p) = [] then
    sendMessage g { s with reported := setEntry s.reported d p true }
      (.partition d p) (.rdd d) (.partitionReady p)
  else s.postMessage src (.partition d p) .checkPartitionReady

/-! ## The actor of an RDD -/

/-- A message to the actors of all partitions. -/
def toPartitions (send : Evaluation ρ → Actor → Actor → Msg ρ → Evaluation ρ) (d : ℕ) (m : Msg ρ)
    (s : Evaluation ρ) : Evaluation ρ :=
  (List.range g.partitionSize).foldl (fun s p => send s (.rdd d) (.partition d p) m) s

/-- `BaseRddActor::callUpstreamTransform`. -/
def callUpstreamTransform (d : ℕ) (s : Evaluation ρ) : Evaluation ρ :=
  (if g.upstreamSync d then g.upstreamRdd d else g.paramRdd d).foldl
    (fun s u => s.postMessage (.rdd d) (.rdd u) .rddTransform) s

/-- All partitions are in the state. -/
def allPartitions (s : Evaluation ρ) (d : ℕ) (state : RddState) : Bool :=
  (List.range g.partitionSize).all fun p => s.partitionState d p = state

/-- `BaseRddActor::processRddReady`. -/
def processRddReady (d : ℕ) (s : Evaluation ρ) : Evaluation ρ :=
  let state : RddState := if s.persistType (g.rddMember d) d = .none then .prepared else .ready
  let s := { s with rddState := Function.update s.rddState d state }
  let s := if s.actionQueue d = [] then s
    else sendMessage g s (.rdd d) (.rdd d) .actionMessageProcess
  (g.downstreamRdd d).foldl (fun s e => sendMessage g s (.rdd d) (.rdd e.rdd) .upstreamRddReady) s

/-- `BaseRddActor::handleRddTransform`: the other downstream RDDs, up to the one that asks, are
asked to transform as well. -/
def callDownstreamTransform (d : ℕ) (src : Actor) (s : Evaluation ρ) : Evaluation ρ :=
  ((g.downstreamRdd d).takeWhile fun e => Actor.rdd e.rdd ≠ src).foldl
    (fun s e => s.postMessage (.rdd d) (.rdd e.rdd) .rddTransform) s

/-- `BaseRddActor::handleRddTransform` of an RDD that is prepared. -/
def startPrepared (d : ℕ) (s : Evaluation ρ) : Evaluation ρ :=
  let s := { s with
    rddState := Function.update s.rddState d .processing
    transformed := fun m u => if m = g.rddMember d ∧ u ∈ g.upstreamRdd d then false
      else s.transformed m u }
  if s.actionQueue d ≠ [] ∧ s.persistType (g.rddMember d) d = .none then
    let s := { s with partitionState := Function.update s.partitionState d fun _ => .init }
    g.members.foldl (fun s m => s.postMessage (.rdd d) (.service m) (.persistTypeSync d)) s
  else
    callUpstreamTransform g d
      { s with partitionState := Function.update s.partitionState d fun _ => .prepared }

/-- `BaseRddActor::handleRddTransform` of an RDD that is ready. -/
def startReady (d : ℕ) (s : Evaluation ρ) : Evaluation ρ :=
  toPartitions g postMessage d .rddTransform { s with
    rddState := Function.update s.rddState d .processing
    partitionState := Function.update s.partitionState d fun _ => .prepared }

/-- `BaseRddActor::handleRddTransform`. -/
def handleRddTransform (d : ℕ) (src : Actor) (s : Evaluation ρ) : Evaluation ρ :=
  match s.rddState d with
  | .init | .created => s.postMessage src (.rdd d) .rddTransform
  | .prepared => callDownstreamTransform g d src (startPrepared g d s)
  | .ready => callDownstreamTransform g d src (startReady g d s)
  | .processing | .transformComplete | .error => s

/-- `BaseRddActor::handleRddTransformPrepared`. -/
def handleRddTransformPrepared (d m : ℕ) (s : Evaluation ρ) : Evaluation ρ :=
  let s := { s with partitionState := Function.update s.partitionState d fun p =>
    if g.primaryMember p = m then .prepared else s.partitionState d p }
  if allPartitions g s d .prepared then callUpstreamTransform g d s else s

/-- `BaseRddActor::handlePartitionTransformComplete`. -/
def handlePartitionTransformComplete (d p : ℕ) (s : Evaluation ρ) : Evaluation ρ :=
  let s := { s with partitionState := setEntry s.partitionState d p .ready }
  if allPartitions g s d .ready then processRddReady g d s else s

/-- `BaseRddActor::handlePartitionReady`. -/
def handlePartitionReady (d p : ℕ) (s : Evaluation ρ) : Evaluation ρ :=
  if s.persistType (g.rddMember d) d = .none then
    let s := { s with partitionState := setEntry s.partitionState d p .ready }
    if allPartitions g s d .ready then processRddReady g d s else s
  else
    let s := { s with partitionState := setEntry s.partitionState d p .transformComplete }
    if allPartitions g s d .transformComplete then toPartitions g (sendMessage g) d .rddTransform s
    else s

/-- Whether the actor of RDD `d` takes the upstream RDDs in the list to be transformed, when `src`
says so. -/
def upstreamTransformed (d : ℕ) (src : Actor) (s : Evaluation ρ) (us : List ℕ) : Bool :=
  us.all fun u => Actor.rdd u = src || s.transformed (g.rddMember d) u

/-- `BaseRddActor::handleUpstreamReady`. -/
def handleUpstreamReady (d : ℕ) (src : Actor) (s : Evaluation ρ) : Evaluation ρ :=
  let upstreamReady := upstreamTransformed g d src s (g.upstreamRdd d)
  let paramReady := upstreamTransformed g d src s (g.paramRdd d)
  let s := { s with transformed := fun m u =>
    if m = g.rddMember d ∧ u ∈ g.upstreamRdd d ∧ Actor.rdd u = src then true
    else s.transformed m u }
  let first := (g.upstreamRdd d).head?.getD 0
  if g.upstreamSync d = false ∧ s.transformed (g.rddMember d) first = false ∧ paramReady then
    s.postMessage (.rdd d) (.rdd first) .rddTransform
  else if upstreamReady then toPartitions g (sendMessage g) d .checkPartitionReady s
  else s

/-- `BaseRddActor::handleRddActionRequest`. While an RDD is being processed the action is
refused. -/
def handleRddActionRequest (d action : ℕ) (s : Evaluation ρ) : Evaluation ρ :=
  if s.rddState d = .error ∨ s.rddState d = .processing then s
  else
    let s := { s with actionQueue := Function.update s.actionQueue d (s.actionQueue d ++ [action]) }
    if s.rddState d = .prepared then sendMessage g s (.rdd d) (.rdd d) .rddTransform
    else if s.rddState d = .ready then sendMessage g s (.rdd d) (.rdd d) .actionMessageProcess
    else s

/-- `BaseRddActor::handleActionProcess`. -/
def handleActionProcess (d : ℕ) (s : Evaluation ρ) : Evaluation ρ :=
  let actions := s.actionQueue d
  let s := { s with actionQueue := Function.update s.actionQueue d [] }
  if s.rddState d = .ready then
    actions.foldl (fun s action => toPartitions g postMessage d (.rddActionRequest action) s) s
  else s

/-! ## Steps -/

/-- `RddInternalServiceActor::handlePersistTypeSync`. -/
def handlePersistTypeSync (m d : ℕ) (src : Actor) (s : Evaluation ρ) : Evaluation ρ :=
  sendMessage g { s with persistType := setEntry s.persistType m d .ordered }
    (.service m) src (.rddTransformPrepared m)

/-- The handlers of the actors; a message that an actor has no handler for is dropped. -/
def handleMessage (a src : Actor) (m : Msg ρ) (s : Evaluation ρ) : Evaluation ρ :=
  match a, m with
  | .rdd d, .rddTransform => handleRddTransform g d src s
  | .rdd d, .partitionTransformComplete p => handlePartitionTransformComplete g d p s
  | .rdd d, .upstreamRddReady => handleUpstreamReady g d src s
  | .rdd d, .partitionReady p => handlePartitionReady g d p s
  | .rdd d, .rddActionRequest action => handleRddActionRequest g d action s
  | .rdd d, .actionMessageProcess => handleActionProcess g d s
  | .rdd d, .rddTransformPrepared m => handleRddTransformPrepared g d m s
  | .partition d p, .rddTransform => handlePartitionTransform g d p s
  | .partition d p, .checkPartitionReady => handleCheckPartitionReady g d p src s
  | .partition d p, .rePartition row => handleRePartition g d p s row
  | .partition d p, .partitionStore row => persistRow g d p s row
  | .partition d p, .rddActionRequest _ => { s with used := setEntry s.used d p true }
  | .service m, .persistTypeSync d => handlePersistTypeSync g m d src s
  | _, _ => s

/-- One step. -/
def step (s : Evaluation ρ) : EvaluationStep → Option (Evaluation ρ)
  | .deliver src dst =>
    (Common.takeFirst (src, dst) s.inFlight).map fun r =>
    { s with inFlight := r.2 }.putMessage src dst r.1
  | .handle a =>
    match s.msgQueue a with
    | [] => none
    | (src, m) :: rest =>
      some (handleMessage g a src m { s with msgQueue := Function.update s.msgQueue a rest })
  | .action d action => some (s.putMessage .client (.rdd d) (.rddActionRequest action))

/-- All RDDs have been created, and none has been evaluated. -/
def init : Evaluation ρ where
  persistType := fun _ d => g.persistType d
  transformed := fun _ _ => false
  rddState := fun d => if g.isDelegateRdd d then .ready else .prepared
  partitionState := fun _ _ => .prepared
  actionQueue := fun _ => []
  pushed := fun _ _ => false
  reported := fun _ _ => false
  used := fun _ _ => false
  dataMap := g.source
  localCache := fun _ _ => []
  useRepartitionLocalCache := fun _ _ => false
  msgQueue := fun _ => []
  inFlight := []
  sent := fun _ _ => []
  passed := fun _ _ => []

end Evaluation

end Idgs.Rdd
