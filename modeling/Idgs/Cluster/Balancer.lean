import Idgs.Cluster.Table

/-!
# The partition balancer

`SimplePartitionBalancer` computes a new partition table when one member joins or leaves, in three
strategies: `simpleBalance` while there are no more members than replicas, `balanceLeave` and
`balanceJoin` otherwise; `adjust` then swaps replicas. All of them change the table through
`setMember` and `swapMember` only.

`float` arithmetic enters through the expected counts alone. It is exact rational arithmetic
followed by the rounding function of the call, and `rand()` is an oracle, so that results about the
balancer hold for every rounding and every sequence of random numbers.
-/

namespace Idgs.Cluster

/-- What the environment contributes to one call: the rounding of `float` operations, and the value
that `rand()` returns when `balanceLeave` treats replica `r` of partition `p`. -/
structure BalanceOracle where
  round : ℚ → ℚ
  rand : ℕ → ℕ → ℕ

/-- The counters of the `MemberWrapper`s, by position in the membership table: partitions held at
each replica position, and in total. -/
structure Counters where
  partitionCount : ℕ → ℕ → ℤ
  totalPartitionCount : ℕ → ℤ

namespace Counters

/-- `MemberWrapper::resetPartitionCount`, for every member. -/
def reset : Counters := ⟨fun _ _ => 0, fun _ => 0⟩

/-- Add `d` to a member's counter for replica `pos`, and to its total. -/
def add (c : Counters) (m pos : ℕ) (d : ℤ) : Counters where
  partitionCount := Function.update c.partitionCount m
    (Function.update (c.partitionCount m) pos (c.partitionCount m pos + d))
  totalPartitionCount := Function.update c.totalPartitionCount m (c.totalPartitionCount m + d)

/-- `MemberWrapper::increasePartitionCount` of the member with a given id, if it is one. -/
def increasePartitionCount (c : Counters) (mid : ℤ) (pos : ℕ) : Counters :=
  if 0 ≤ mid then c.add mid.toNat pos 1 else c

/-- `MemberWrapper::decreasePartitionCount` of the member with a given id, if it is one. -/
def decreasePartitionCount (c : Counters) (mid : ℤ) (pos : ℕ) : Counters :=
  if 0 ≤ mid then c.add mid.toNat pos (-1) else c

end Counters

/-- A call of `setMember`, with the partition it was applied to. -/
structure SetMemberCall where
  part : ℕ
  pos : ℕ
  mid : ℤ
  before : Partition

/-- What `balance` changes: `new_partitions` and the members' counters. The calls of `setMember` are
kept as a history; no function of the balancer reads them. -/
structure Work where
  newPartitions : List Partition
  counters : Counters
  calls : List SetMemberCall

namespace Work

/-- `new_partitions[part]`. -/
def partition (w : Work) (part : ℕ) : Partition := w.newPartitions.getD part []

/-- `new_partitions[part].getMemberId(pos)`. -/
def getMemberId (w : Work) (part pos : ℕ) : ℤ := (w.partition part).getMemberId pos

end Work

/-- `SimplePartitionBalancer` during one call: what stays fixed while the table is rebuilt. `mid` is
the position of the member that joins or leaves. -/
structure SimplePartitionBalancer where
  config : ClusterConfig
  members : List Member
  mid : ℕ
  totalAvailableMemberCount : ℕ
  expectPartCount : ℕ → ℤ
  rand : ℕ → ℕ → ℕ

namespace BalancerUtil

/-- Sum of the weights of the available members, as `calcualtePartitionCount` accumulates it. -/
def totalWeight (round : ℚ → ℚ) (members : List Member) : ℚ :=
  members.foldl (fun total m => if m.isAvailable then round (total + m.weight) else total) 0

/-- The expected partition count that `calcualtePartitionCount` gives member `i`. -/
def expectPartCount (round : ℚ → ℚ) (partCount : ℕ) (members : List Member) (i : ℕ) : ℤ :=
  let weightPerPart := round (totalWeight round members / round partCount)
  let m := members.getD i {}
  if m.isAvailable then ⌈round (m.weight / weightPerPart)⌉ else 0

/-- The actual partition counts that `calcualtePartitionCount` sets. -/
def countPartitions (partCount replicaCount : ℕ) (partitions : List Partition) : Counters :=
  (List.range partCount).foldl (fun c i =>
    (List.range replicaCount).foldl (fun c r =>
      c.increasePartitionCount ((partitions.getD i []).getMemberId r) r) c) .reset

end BalancerUtil

namespace SimplePartitionBalancer

variable (b : SimplePartitionBalancer)

/-- The joining or leaving member. -/
def member : Member := b.members.getD b.mid {}

/-- `(*members)[mid].isAvailable()` for a member id found in a cell. -/
def isAvailable (mid : ℤ) : Bool := isAvailableId b.members mid

/-- `max_replicas`: replica positions that the available members can fill. -/
def maxReplicas : ℕ := min b.totalAvailableMemberCount b.config.maxReplicaCount

/-- `MAX_PRIORITY`. -/
def maxPriority : ℕ := max 10 (b.config.partitionCount / 3)

/-! ## Changing the table -/

/-- The first empty cell after `pos`, where a displaced member can move. -/
def freeCell? (p : Partition) (pos : ℕ) : Option ℕ :=
  (List.range' (pos + 1) (b.maxReplicas - (pos + 1))).find? fun i => decide (p.getMemberId i < 0)

/-- The cells that `setMember` leaves: `mid` at `pos` in state `PS_INIT`, and the member it
displaces, when available, in the next empty cell with its state. -/
def place (p : Partition) (pos : ℕ) (mid : ℤ) : Partition :=
  let oldMid := p.getMemberId pos
  let oldPs := p.getState pos
  let p := p.setCell pos mid .init
  if b.isAvailable oldMid then
    match b.freeCell? p pos with
    | some i => p.setCell i oldMid oldPs
    | none => p
  else p

/-- The counter updates of `setMember`. -/
def placeCounters (c : Counters) (p : Partition) (pos : ℕ) (mid : ℤ) : Counters :=
  let oldMid := p.getMemberId pos
  let p := p.setCell pos mid .init
  let c := (c.increasePartitionCount mid pos).decreasePartitionCount oldMid pos
  if b.isAvailable oldMid then
    match b.freeCell? p pos with
    | some i => c.increasePartitionCount oldMid i
    | none => c
  else c

/-- `setMember`: set `partitions[part][pos]` to `mid`, move the original member if possible. -/
def setMember (w : Work) (part pos : ℕ) (mid : ℤ) : Work where
  newPartitions := w.newPartitions.modify part fun p => b.place p pos mid
  counters := b.placeCounters w.counters (w.partition part) pos mid
  calls := w.calls ++ [⟨part, pos, mid, w.partition part⟩]

/-- The cells that `swapMember` leaves: those at `pos1` and `pos2` have changed places. -/
def swapCells (p : Partition) (pos1 pos2 : ℕ) : Partition :=
  (p.setCell pos2 (p.getMemberId pos1) (p.getState pos1)).setCell pos1
    (p.getMemberId pos2) (p.getState pos2)

/-- `swapMember`: swap the cells at `pos1` and `pos2`. -/
def swapMember (w : Work) (part pos1 pos2 : ℕ) : Work :=
  let mid1 := w.getMemberId part pos1
  let mid2 := w.getMemberId part pos2
  { w with
    newPartitions := w.newPartitions.modify part fun p => swapCells p pos1 pos2
    counters := (((w.counters.decreasePartitionCount mid1 pos1).increasePartitionCount mid1 pos2)
      |>.decreasePartitionCount mid2 pos2).increasePartitionCount mid2 pos1 }

/-- `checkMember`: whether `partitions[part]` can take `mid`. -/
def checkMember (w : Work) (part : ℕ) (mid : ℤ) : Bool :=
  decide (mid < 0) ||
    (List.range b.maxReplicas).all fun i => decide (w.getMemberId part i ≠ mid)

/-! ## Choosing a member -/

/-- The bound on a member's total count at a priority, the same in all strategies. -/
def totalLimit (i : ℕ) (priority : ℤ) : ℤ :=
  b.expectPartCount i * b.maxReplicas + priority * (1 + ((b.maxReplicas - 1) / 2 : ℕ))

/-- The test that `simple_balance` and `balanceLeave` make on the member at position `i`. -/
def accepts (w : Work) (part pos : ℕ) (priority : ℤ) (i : ℕ) : Bool :=
  let m := b.members.getD i {}
  m.isAvailable &&
    decide (w.counters.partitionCount i pos < b.expectPartCount i + priority) &&
    decide (w.counters.totalPartitionCount i < b.totalLimit i priority) &&
    b.checkMember w part m.id

/-- One round over the members from `index` on: the first accepted one, and the index after it. -/
def scanMembers (ok : ℕ → Bool) (size : ℕ) : (k index : ℕ) → Option ℕ × ℕ
  | 0, index => (none, index)
  | k + 1, index =>
    let next := if index + 1 ≥ size then 0 else index + 1
    if ok index then (some index, next) else scanMembers ok size k next

/-- Rounds over the members at increasing priorities. -/
def scanPriorities (ok : ℤ → ℕ → Bool) (size : ℕ) : List ℤ → ℕ → Option ℕ × ℕ
  | [], index => (none, index)
  | priority :: rest, index =>
    match scanMembers (ok priority) size size index with
    | (some i, index) => (some i, index)
    | (none, index) => scanPriorities ok size rest index

/-- The priorities `-4 .. MAX_PRIORITY` in order. -/
def priorities : List ℤ := (List.range (b.maxPriority + 5)).map fun i => (i : ℤ) - 4

/-- The search of `simple_balance` and `balanceLeave` for a member to put at
`partitions[part][pos]`. -/
def findMember (w : Work) (part pos index : ℕ) : Option ℕ × ℕ :=
  scanPriorities (b.accepts w part pos) b.members.length b.priorities index

/-! ## The strategies -/

/-- `leave_mid` of `simple_balance`. -/
def leaveMid : ℤ := if b.member.isAvailable then -1 else b.member.id

/-- `simple_balance` on too few members, at replica `r`: take over a replica that is going to be
cleared. The source tests `mid != leave_mid`, the member being replaced, and not `mid2`. -/
def compactReplica (w : Work) (p r : ℕ) : Work :=
  let mid := w.getMemberId p r
  if mid < 0 ∨ mid = b.leaveMid then
    match (List.range' b.maxReplicas (b.config.maxReplicaCount - b.maxReplicas)).find? fun r2 =>
        decide (0 ≤ w.getMemberId p r2 ∧ mid ≠ b.leaveMid) with
    | some r2 => swapMember w p r r2
    | none => w
  else w

/-- `simple_balance` on too few members, for partition `p`: clear the replicas from `max_replicas`
on. -/
def compactPartition (w : Work) (p : ℕ) : Work :=
  let w := (List.range b.maxReplicas).foldl (fun w r => b.compactReplica w p r) w
  (List.range' b.maxReplicas (b.config.maxReplicaCount - b.maxReplicas)).foldl
    (fun w r2 => b.setMember w p r2 (-1)) w

/-- What `simple_balance` and `balanceLeave` do with replica `r` of partition `p` once they have
searched for a member. -/
def fillCell (w : Work) (leaveMid : ℤ) (p r : ℕ) (found : Option ℕ × ℕ) : Work × ℕ :=
  match found with
  | (some i, index) => (b.setMember w p r (b.members.getD i {}).id, index)
  | (none, index) =>
    if w.getMemberId p r = leaveMid then (b.setMember w p r (-1), index) else (w, index)

/-- `simple_balance` at replica `r` of partition `p`, with the running `member_index`. -/
def simpleStep (st : Work × ℕ) (r p : ℕ) : Work × ℕ :=
  let w := st.1
  let mid := w.getMemberId p r
  if 0 ≤ mid ∧ mid ≠ b.leaveMid ∧
      w.counters.partitionCount mid.toNat r ≤ b.expectPartCount mid.toNat then st
  else b.fillCell w b.leaveMid p r (b.findMember w p r st.2)

/-- `simple_balance`. -/
def simpleBalance (w : Work) : Work :=
  let w := if b.totalAvailableMemberCount < b.config.maxReplicaCount then
      (List.range b.config.partitionCount).foldl b.compactPartition w
    else w
  ((List.range b.maxReplicas).foldl (fun st r =>
    (List.range b.config.partitionCount).foldl (fun st p => b.simpleStep st r p) st) (w, 0)).1

/-- `balanceLeave` at replica `r` of partition `p`: only empty cells and cells of the leaving member
are filled, from a random member on. -/
def leaveStep (w : Work) (r p : ℕ) : Work :=
  let mid := w.getMemberId p r
  if 0 ≤ mid ∧ mid ≠ b.member.id then w
  else (b.fillCell w b.member.id p r (b.findMember w p r (b.rand r p % b.members.length))).1

/-- `balanceLeave`. -/
def balanceLeave (w : Work) : Work :=
  (List.range b.maxReplicas).foldl (fun w r =>
    (List.range b.config.partitionCount).foldl (fun w p => b.leaveStep w r p) w) w

/-- The running variables of `balanceJoin`: the table, `part_index`, and whether this replica is
done. -/
structure JoinState where
  work : Work
  partIndex : ℕ
  replicaOk : Bool

/-- Whether `balanceJoin` takes replica `r` of the partition away from the member holding it. -/
def takesOver (w : Work) (part r : ℕ) (state : ℕ) (priority : ℤ) : Bool :=
  let mid := w.getMemberId part r
  (decide (mid < 0) ||
    (decide (((w.partition part).getState r).toNat ≤ state) &&
      decide (b.expectPartCount mid.toNat + priority < w.counters.partitionCount mid.toNat r) &&
      decide (b.totalLimit mid.toNat priority < w.counters.totalPartitionCount mid.toNat))) &&
    b.checkMember w part b.member.id

/-- One iteration of the innermost loop of `balanceJoin`. -/
def joinStep (r : ℕ) (st : JoinState) (state : ℕ) (priority : ℤ) : JoinState :=
  if st.replicaOk then st
  else
    let part := st.partIndex
    let next := if part + 1 ≥ b.config.partitionCount then 0 else part + 1
    if st.work.getMemberId part r = b.member.id then { st with partIndex := next }
    else if b.takesOver st.work part r state priority then
      let w := b.setMember st.work part r b.member.id
      ⟨w, next, decide (b.expectPartCount b.mid - 1 ≤ w.counters.partitionCount b.mid r)⟩
    else { st with partIndex := next }

/-- The `state`, `priority` pairs of `balanceJoin` in order: states `PS_INIT .. PS_SOURCE`,
priorities `4 .. -3` in each. -/
def joinPasses : List (ℕ × ℤ) :=
  (List.range 4).flatMap fun state => (List.range 8).map fun i => (state, 4 - (i : ℤ))

/-- `balanceJoin`. -/
def balanceJoin (w : Work) : Work :=
  ((List.range b.maxReplicas).foldl (fun st r =>
    joinPasses.foldl (fun st pass =>
      (List.range b.config.partitionCount).foldl (fun st _ => b.joinStep r st pass.1 pass.2) st)
      { st with replicaOk := false }) ⟨w, 0, false⟩).work

/-- The swap that `adjust` makes for replica `r` of partition `p`, if any. -/
def adjustTarget? (w : Work) (r p : ℕ) : Option ℕ :=
  let mid := w.getMemberId p r
  (List.range' (r + 1) (b.maxReplicas - (r + 1))).find? fun r2 =>
    let mid2 := w.getMemberId p r2
    decide (0 ≤ mid2) && (decide (mid < 0) ||
      decide (2 ≤ (w.counters.partitionCount mid.toNat r - w.counters.partitionCount mid.toNat r2) +
        (w.counters.partitionCount mid2.toNat r2 - w.counters.partitionCount mid2.toNat r)))

/-- `adjust` at replica `r` of partition `p`. -/
def adjustStep (w : Work) (r p : ℕ) : Work :=
  match b.adjustTarget? w r p with
  | some r2 => swapMember w p r r2
  | none => w

/-- `adjust`: swap replicas if necessary. -/
def adjust (w : Work) : Work :=
  (List.range b.maxReplicas).foldl (fun w r =>
    (List.range b.config.partitionCount).foldl (fun w p => b.adjustStep w r p) w) w

/-- The strategy that `balance` chooses. -/
def rebalance (w : Work) : Work :=
  if b.totalAvailableMemberCount ≤ b.config.maxReplicaCount then b.simpleBalance w
  else if b.member.state = .inactive then b.balanceLeave w
  else b.balanceJoin w

end SimplePartitionBalancer

/-! ## A call of `balance` -/

/-- Arguments of `SimplePartitionBalancer::balance`, with the configuration and the oracle. -/
structure BalanceInput where
  oracle : BalanceOracle
  config : ClusterConfig
  members : List Member
  partitions : List Partition
  mid : ℕ

/-- `DeltaPartitionItemEvent`. -/
structure DeltaPartitionItem where
  partId : ℕ
  position : ℕ
  oldMid : ℤ
  newMid : ℤ
  state : Option PartitionState
deriving DecidableEq

/-- `DeltaPartitionEvent`. -/
abbrev DeltaPartitionEvent := List DeltaPartitionItem

/-- The item that `generatePartitionDeltaList` emits for one cell. -/
def deltaItem? (oldPart newPart : Partition) (i j : ℕ) : Option DeltaPartitionItem :=
  if oldPart.getMemberId j ≠ newPart.getMemberId j then
    some
      { partId := i
        position := j
        oldMid := oldPart.getMemberId j
        newMid := newPart.getMemberId j
        state := if newPart.getState j ≠ oldPart.getState j then some (newPart.getState j)
          else none }
  else none

/-- `BalancerUtil::generatePartitionDeltaList`. -/
def generatePartitionDeltaList (oldPartitions newPartitions : List Partition) :
    DeltaPartitionEvent :=
  let replicaCount := (oldPartitions.getD 0 []).getReplicaCount
  (List.range oldPartitions.length).flatMap fun i =>
    (List.range replicaCount).filterMap fun j =>
      deltaItem? (oldPartitions.getD i []) (newPartitions.getD i []) i j

namespace BalanceInput

variable (x : BalanceInput)

/-- The balancer of the call after `calcualtePartitionCount`. -/
def balancer : SimplePartitionBalancer where
  config := x.config
  members := x.members
  mid := x.mid
  totalAvailableMemberCount := x.members.countP Member.isAvailable
  expectPartCount := BalancerUtil.expectPartCount x.oracle.round x.config.partitionCount x.members
  rand := x.oracle.rand

/-- The table and the counters that the strategies start from. -/
def start : Work where
  newPartitions := x.partitions
  counters :=
    BalancerUtil.countPartitions x.config.partitionCount x.config.maxReplicaCount x.partitions
  calls := []

/-- The table and the counters at the end of the call. -/
def result : Work := x.balancer.adjust (x.balancer.rebalance x.start)

/-- `new_partitions` at the end of the call. -/
def newPartitions : List Partition := x.result.newPartitions

/-- `SimplePartitionBalancer::balance`: the event it creates. -/
def balance : DeltaPartitionEvent := generatePartitionDeltaList x.partitions x.newPartitions

end BalanceInput

end Idgs.Cluster
