import Mathlib.Data.Rat.Floor

/-!
# Membership table and partition table

The tables of `idgs::cluster`: a member's record (`pb::Member`), a partition with its replica cells
(`pb::Partition`, `PartitionWrapper`) and the configuration that fixes their sizes. Of `pb::Member`
the model keeps the fields that membership and balancing read; end points are one address value.
-/

namespace Idgs.Cluster

/-! ## Members -/

/-- `pb::MemberState`. -/
inductive MemberState
  | inactive | initial | taken | joined | prepared | active
deriving DecidableEq, Repr

/-- The numbers of `pb::MemberState`, by which states are compared. -/
def MemberState.toNat : MemberState → ℕ
  | inactive => 0
  | initial => 1
  | taken => 2
  | joined => 3
  | prepared => 4
  | active => 5

/-- `MF_LEADING` of `pb::MemberFlag`. -/
def MF_LEADING : UInt64 := 1

/-- `pb::Member`, with the defaults of the message. -/
structure Member where
  publicAddress : ℕ := 0
  localStore : Bool := true
  weight : ℚ := 100
  id : ℤ := -1
  nodeId : UInt32 := 0
  pid : UInt32 := 0
  state : MemberState := .initial
  flags : UInt64 := 0
deriving DecidableEq

namespace Member

/-- `MemberWrapper::isAvailable`. -/
def isAvailable (m : Member) : Bool :=
  decide (0 ≤ m.id) && m.localStore && decide (MemberState.joined.toNat ≤ m.state.toNat)

/-- `MemberWrapper::isLeading`. -/
def isLeading (m : Member) : Bool := m.flags &&& MF_LEADING != 0

/-- `MemberWrapper::setLeading`. -/
def setLeading (m : Member) (flag : Bool) : Member :=
  if flag then { m with flags := m.flags ||| MF_LEADING }
  else { m with flags := m.flags &&& ~~~MF_LEADING }

/-- `MemberWrapper::setState`. -/
def setState (m : Member) (status : MemberState) : Member := { m with state := status }

/-- `MemberWrapper::setId`. -/
def setId (m : Member) (id : ℤ) : Member := { m with id := id }

theorem flags_or_and_self (x y : UInt64) : (x ||| y) &&& y = y := by
  apply UInt64.toBitVec_inj.mp
  simp only [UInt64.toBitVec_and, UInt64.toBitVec_or]
  ext i hi
  simpa using fun h => .inr h

theorem flags_andNot_and_self (x y : UInt64) : (x &&& ~~~y) &&& y = 0 := by
  apply UInt64.toBitVec_inj.mp
  simp only [UInt64.toBitVec_and, UInt64.toBitVec_not]
  ext i hi
  simp only [BitVec.getElem_and, BitVec.getElem_not, UInt64.toBitVec_zero, BitVec.getElem_zero,
    Bool.and_assoc, Bool.not_and_self, Bool.and_false]

@[simp] theorem isLeading_setLeading (m : Member) (flag : Bool) :
    (m.setLeading flag).isLeading = flag := by
  cases flag with
  | true => simp only [setLeading, isLeading, if_true, flags_or_and_self]; decide
  | false => simp [setLeading, isLeading, flags_andNot_and_self]

/-- The leading flag is no part of what makes a member available. -/
theorem setLeading_fields (m : Member) (flag : Bool) :
    (m.setLeading flag).id = m.id ∧ (m.setLeading flag).state = m.state ∧
      (m.setLeading flag).localStore = m.localStore := by
  unfold setLeading
  split <;> exact ⟨rfl, rfl, rfl⟩

/-- An inactive member is not available. -/
theorem not_isAvailable_of_inactive {m : Member} (h : m.state = .inactive) :
    m.isAvailable = false := by
  simp [isAvailable, h, MemberState.toNat]

end Member

/-- A member id found in a partition cell belongs to an available member. -/
def isAvailableId (members : List Member) (mid : ℤ) : Bool :=
  decide (0 ≤ mid) && (members.getD mid.toNat {}).isAvailable

/-! ## Partitions -/

/-- `pb::PartitionState`. -/
inductive PartitionState
  | init | migrating | ready | source
deriving DecidableEq, Repr

/-- The numbers of `pb::PartitionState`, by which states are compared. -/
def PartitionState.toNat : PartitionState → ℕ
  | init => 0
  | migrating => 1
  | ready => 2
  | source => 3

/-- `state >= PS_READY`: the replica holds the partition's data. -/
def PartitionState.isReady (s : PartitionState) : Bool :=
  decide (PartitionState.ready.toNat ≤ s.toNat)

@[simp] theorem PartitionState.isReady_init : PartitionState.init.isReady = false := rfl

/-- `pb::PartitionCell`. -/
structure Cell where
  memberId : ℤ := -1
  state : PartitionState := .init
deriving DecidableEq

/-- `PartitionWrapper`: the cells of a partition, the primary replica first. -/
abbrev Partition := List Cell

namespace Partition

/-- `PartitionWrapper::PartitionWrapper(int replicas)`. -/
def ofReplicas (replicas : ℕ) : Partition := List.replicate replicas {}

/-- `PartitionWrapper::getReplicaCount`, a `uint8_t`. -/
def getReplicaCount (p : Partition) : ℕ := p.length % 256

/-- `PartitionWrapper::getMemberId`. -/
def getMemberId (p : Partition) (index : ℕ) : ℤ := (p.getD index {}).memberId

/-- `PartitionWrapper::getState`. -/
def getState (p : Partition) (pos : ℕ) : PartitionState := (p.getD pos {}).state

/-- `PartitionWrapper::setMemberId`. -/
def setMemberId (p : Partition) (index : ℕ) (memberId : ℤ) : Partition :=
  p.modify index fun c => { c with memberId := memberId }

/-- `PartitionWrapper::setState`. -/
def setState (p : Partition) (pos : ℕ) (state : PartitionState) : Partition :=
  p.modify pos fun c => { c with state := state }

/-- `PartitionWrapper::getPrimaryMemberId`: the holder of the first cell that is at least
`PS_READY`. -/
def getPrimaryMemberId (p : Partition) : ℤ :=
  match p.find? fun c => c.state.isReady with
  | some c => c.memberId
  | none => -1

/-- `PartitionWrapper::getMemberState`. -/
def getMemberState (p : Partition) (memberId : ℤ) : PartitionState :=
  match p.find? fun c => c.memberId == memberId with
  | some c => c.state
  | none => .init

/-- Overwrite a whole cell: `setMemberId` followed by `setState`. -/
def setCell (p : Partition) (pos : ℕ) (memberId : ℤ) (state : PartitionState) : Partition :=
  (p.setMemberId pos memberId).setState pos state

end Partition

/-- `pb::ClusterConfig`, as far as the tables depend on it. -/
structure ClusterConfig where
  partitionCount : ℕ
  maxReplicaCount : ℕ
deriving DecidableEq

/-- `PartitionManagerActor::createPartitionTable`; the replica count is passed as a `uint8_t`. -/
def createPartitionTable (cfg : ClusterConfig) : List Partition :=
  List.replicate cfg.partitionCount (Partition.ofReplicas (cfg.maxReplicaCount % 256))

end Idgs.Cluster
