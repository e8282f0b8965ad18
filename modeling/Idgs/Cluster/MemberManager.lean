import Idgs.Cluster.PartitionManager

/-!
# The member manager

`MemberManagerActor` keeps a process's copy of the membership table. A configuration change of the
group makes a joining process multicast itself and the others mark the ones that left; the leading
member answers a joiner with its whole table and tells everybody the position of the new member.
Every change of a member's state is passed on to the partition manager of the same process.
-/

namespace Idgs.Cluster

open List

/-- The cluster module of one process: its own entry of the configuration, and its tables. -/
structure Node where
  cfg : Member
  cluster : ClusterConfig
  localMemberIndex : ℤ := -1
  members : List Member := []
  partitions : List Partition := []

/-- The process of a member, as the group communication names it. -/
structure MemberAddress where
  nodeid : UInt32
  pid : UInt32
deriving DecidableEq

/-- `pb::ClusterChangeEvent`. -/
structure ClusterChangeEvent where
  memberList : List MemberAddress
  leftList : List MemberAddress
  joinedList : List MemberAddress
deriving DecidableEq

/-- The address of a member's process. -/
def Member.address (m : Member) : MemberAddress := ⟨m.nodeId, m.pid⟩

namespace Node

/-! ## The membership table -/

/-- `MemberManagerActor::getLocalMember`. -/
def getLocalMember (n : Node) : Option Member :=
  if n.localMemberIndex < 0 then none else n.members[n.localMemberIndex.toNat]?

/-- `MemberManagerActor::isLocalMember`. -/
def isLocalMember (n : Node) (m : Member) : Bool := n.cfg.publicAddress == m.publicAddress

/-- `MemberManagerActor::findAddPos`: the first inactive position, or a new one; it is marked
`MS_TAKEN`. -/
def findAddPos (members : List Member) : ℕ × List Member :=
  match members.findIdx? fun m => m.state == .inactive with
  | some i => (i, members.modify i (·.setState .taken))
  | none => (members.length, members ++ [({} : Member).setState .taken])

/-- `MemberManagerActor::addMember` at a position. -/
def addMember (members : List Member) (m : Member) (pos : ℕ) : List Member :=
  (members ++ List.replicate (pos + 1 - members.length) ({} : Member)).set pos (m.setId pos)

/-- `MemberManagerActor::findMember` by process. -/
def findMember (members : List Member) (a : MemberAddress) : Option ℕ :=
  members.findIdx? fun m => m.nodeId == a.nodeid && m.pid == a.pid

/-- `MemberManagerActor::setMemberStatus`; of the listeners, the partition manager multicasts. -/
def setMemberStatus (oracle : ℕ → BalanceOracle) (n : Node) (i : ℕ) (status : MemberState) :
    Node × List Multicast :=
  let n := { n with members := n.members.modify i (·.setState status) }
  (n, PartitionManager.memberStatusChanged (oracle i) n.cluster n.getLocalMember n.members
    n.partitions (n.members.getD i {}))

/-! ## Joins -/

/-- `MemberManagerActor::handleLeadingJoinEvent`. -/
def handleLeadingJoinEvent (oracle : ℕ → BalanceOracle) (n : Node) (joinedMember : Member) :
    Node × List Multicast :=
  let (pos, members) := findAddPos n.members
  let members := addMember members joinedMember pos
  let n := { n with
    members := members.modify pos (·.setState .joined)
    localMemberIndex := if n.isLocalMember joinedMember then pos else n.localMemberIndex }
  setMemberStatus oracle n pos .joined

/-- `MemberManagerActor::handleNormalJoin`: the table is sent before the position is reserved in
it. -/
def handleNormalJoin (n : Node) (member : Member) : Node × List Multicast :=
  let (pos, members) := findAddPos n.members
  ({ n with members := members },
    [.wholeMemberTable member n.members, .deltaMember member pos])

/-- `MemberManagerActor::handleJoinEvent`. -/
def handleJoinEvent (oracle : ℕ → BalanceOracle) (n : Node) (joinedMember : Member) :
    Node × List Multicast :=
  if joinedMember.isLeading then handleLeadingJoinEvent oracle n joinedMember
  else
    match n.getLocalMember with
    | some localMember => if localMember.isLeading then handleNormalJoin n joinedMember else (n, [])
    | none => (n, [])

/-- `MemberManagerActor::handleWholeMemberTableEvent`. -/
def handleWholeMemberTableEvent (n : Node) (joinedMember : Member) (table : List Member) : Node :=
  if n.isLocalMember joinedMember then { n with members := n.members ++ table } else n

/-- `MemberManagerActor::handleDeltaMemberEvent`. -/
def handleDeltaMemberEvent (oracle : ℕ → BalanceOracle) (n : Node) (member : Member) (pos : ℕ) :
    Node × List Multicast :=
  if n.members = [] then (n, [])
  else
    let n := { n with
      members := addMember n.members member pos
      localMemberIndex := if n.isLocalMember member then pos else n.localMemberIndex }
    setMemberStatus oracle n pos .joined

/-- `MemberManagerActor::handleMemberStatusEvent`. The source also lets the position just past the
table through, where there is no member to change. -/
def handleMemberStatusEvent (oracle : ℕ → BalanceOracle) (n : Node) (pos : ℕ)
    (status : MemberState) :
    Node × List Multicast :=
  if n.members = [] ∨ n.getLocalMember = none then (n, [])
  else if n.members.length ≤ pos then (n, [])
  else setMemberStatus oracle n pos status

/-! ## Leaves -/

/-- `MemberManagerActor::checkLeadingLeave`: the leading one among the positions that leave. -/
def checkLeadingLeave (members : List Member) (leaveMembers : List ℕ) : Option ℕ :=
  leaveMembers.find? fun i => (members.getD i {}).isLeading

/-- `MemberManagerActor::selectLeading`: the first member that stays and is prepared or active. -/
def selectLeading (members : List Member) (leaveMembers : List ℕ) : Option ℕ :=
  (members.find? fun m =>
    (!leaveMembers.any fun i => m.id == (members.getD i {}).id) &&
      (m.state == .active || m.state == .prepared)).map fun m => m.id.toNat

/-- `setMemberStatus` for several members in turn. -/
def setMemberStatuses (oracle : ℕ → BalanceOracle) (n : Node) (status : MemberState) :
    List ℕ → Node × List Multicast
  | [] => (n, [])
  | i :: rest =>
    let (n, sent) := setMemberStatus oracle n i status
    let (n, sent') := setMemberStatuses oracle n status rest
    (n, sent ++ sent')

/-- The branch of `handleLeaveMembers` for a leave of the leading member at `leading`, once
`newLeading` is selected: the state of the old leading member is set both before and after it loses
its flag. -/
def replaceLeading (oracle : ℕ → BalanceOracle) (n : Node) (leading newLeading : ℕ)
    (leaveMembers : List ℕ) : Node × List Multicast :=
  let n := { n with members := n.members.modify newLeading (·.setLeading true) }
  let (n, sent₁) := setMemberStatus oracle n leading .inactive
  let n := { n with members := n.members.modify leading (·.setLeading false) }
  let (n, sent₂) := setMemberStatus oracle n leading .inactive
  let (n, sent₃) := setMemberStatuses oracle n .inactive (leaveMembers.filter (· ≠ leading))
  (n, sent₁ ++ sent₂ ++ sent₃)

/-- `MemberManagerActor::handleLeaveMembers`. Nothing happens on a process that is among those that
left, or when no member can be selected as leading. -/
def handleLeaveMembers (oracle : ℕ → BalanceOracle) (n : Node) (leaveMembers : List ℕ) :
    Node × List Multicast :=
  if n.getLocalMember = none then (n, [])
  else if leaveMembers.any fun i => n.localMemberIndex == (n.members.getD i {}).id then (n, [])
  else
    match checkLeadingLeave n.members leaveMembers with
    | some leading =>
      match selectLeading n.members leaveMembers with
      | some newLeading => replaceLeading oracle n leading newLeading leaveMembers
      | none => (n, [])
    | none => setMemberStatuses oracle n .inactive leaveMembers

/-! ## Configuration changes -/

/-- The loop of `handleClusterChange` over the joined list, from index `j` on: the configuration may
get the leading flag, and a process that finds itself multicasts itself. -/
def handleJoinedList (evt : ClusterChangeEvent) :
    (j : ℕ) → List MemberAddress → Member → Member × List Multicast
  | _, [], cfg => (cfg, [])
  | j, a :: rest, cfg =>
    let cfg := if evt.memberList.length ≤ evt.joinedList.length ∧ j = 0 then
        { cfg with flags := cfg.flags ||| MF_LEADING }
      else cfg
    let (cfg', sent) := handleJoinedList evt (j + 1) rest cfg
    (cfg', (if cfg.nodeId = a.nodeid ∧ cfg.pid = a.pid then [.member cfg] else []) ++ sent)

/-- `MemberManagerActor::handleClusterChange`. -/
def handleClusterChange (oracle : ℕ → BalanceOracle) (n : Node) (evt : ClusterChangeEvent) :
    Node × List Multicast :=
  let (n, sent) :=
    if evt.leftList ≠ [] ∧ n.getLocalMember ≠ none then
      handleLeaveMembers oracle n (evt.leftList.filterMap (findMember n.members))
    else (n, [])
  let (cfg, sent') := handleJoinedList evt 0 evt.joinedList n.cfg
  ({ n with cfg := cfg }, sent ++ sent')

/-! ## Messages -/

/-- The handler of a multicast message; `none` when the process ends with `LOG(FATAL)`. -/
def handle (oracle : ℕ → BalanceOracle) (n : Node) : Multicast → Option (Node × List Multicast)
  | .member m => some (handleJoinEvent oracle n m)
  | .wholeMemberTable joinedMember table =>
    some (handleWholeMemberTableEvent n joinedMember table, [])
  | .deltaMember member pos => some (handleDeltaMemberEvent oracle n member pos)
  | .memberStatus pos status => some (handleMemberStatusEvent oracle n pos status)
  | .wholePartitionTable evt =>
    (PartitionManager.handleWholePartitionTableEvent n.cluster n.getLocalMember n.partitions
      evt).map
      fun partitions => ({ n with partitions := partitions }, [])
  | .deltaPartitions evt =>
    some ({ n with partitions :=
      PartitionManager.handleDeltaPartitionEvent n.getLocalMember n.partitions evt }, [])
  | .partitionStatus evt =>
    some ({ n with partitions :=
      PartitionManager.handlePartitionStatusChangedEvent n.partitions evt }, [])

/-! ## Reading the table after a change -/

theorem getD_modify (members : List Member) (i j : ℕ) (f : Member → Member) :
    (members.modify i f).getD j {} =
      if j = i ∧ j < members.length then f (members.getD j {}) else members.getD j {} := by
  by_cases hj : j = i
  · subst hj
    by_cases hl : j < members.length
    · simp [hl]
    · simp [hl]
  · simp [hj, Ne.symm hj]

theorem getD_of_length_le {members : List Member} {i : ℕ} (h : members.length ≤ i) :
    members.getD i {} = {} := by
  rw [getD_eq_getElem?_getD, getElem?_eq_none h, Option.getD_none]

section

variable (members : List Member)

theorem length_addMember (m : Member) (pos : ℕ) :
    (addMember members m pos).length = max members.length (pos + 1) := by
  simp [addMember]
  omega

/-- The position holds the new member; positions created on the way hold default members. -/
theorem getD_addMember (m : Member) (pos i : ℕ) :
    (addMember members m pos).getD i {} = if i = pos then m.setId pos else members.getD i {} := by
  have hlen := length_addMember members m pos
  unfold addMember at hlen ⊢
  by_cases hi : i = pos
  · subst hi
    rw [length_set] at hlen
    rw [if_pos rfl, getD_eq_getElem?_getD, getElem?_set_self (by omega), Option.getD_some]
  · rw [if_neg hi, getD_eq_getElem?_getD, getElem?_set_ne (Ne.symm hi)]
    by_cases hl : i < members.length
    · rw [getElem?_append_left hl, getD_eq_getElem?_getD]
    · rw [getElem?_append_right (by omega), getD_of_length_le (by omega)]
      simp only [getElem?_replicate]
      split <;> rfl

/-- What `findAddPos` does to the entries of the table: it keeps them, but for an inactive one that
is marked as taken or a new one at the end. -/
theorem getD_findAddPos (i : ℕ) :
    ((findAddPos members).2.getD i {} = members.getD i {} ∧
        (i < (findAddPos members).2.length → i < members.length)) ∨
      (i < members.length ∧ (members.getD i {}).state = .inactive ∧
        (findAddPos members).2.getD i {} = (members.getD i {}).setState .taken) ∨
      (i = members.length ∧ (findAddPos members).2.getD i {} = ({} : Member).setState .taken) := by
  unfold findAddPos
  split
  · rename_i pos hpos
    rw [getD_modify]
    split
    · rename_i h
      obtain ⟨rfl, hi⟩ := h
      obtain ⟨hlt, hinactive, -⟩ := findIdx?_eq_some_iff_getElem.mp hpos
      refine .inr (.inl ⟨hi, ?_, rfl⟩)
      simpa [hlt] using hinactive
    · exact .inl ⟨rfl, by simp⟩
  · rcases lt_trichotomy i members.length with hi | hi | hi
    · left
      rw [getD_eq_getElem?_getD, getElem?_append_left hi, getD_eq_getElem?_getD]
      exact ⟨rfl, fun _ => hi⟩
    · subst hi
      right; right
      exact ⟨rfl, by simp⟩
    · left
      rw [getD_of_length_le (by simp; omega), getD_of_length_le (by omega)]
      refine ⟨rfl, fun hlt => ?_⟩
      rw [length_append, length_singleton] at hlt
      omega

theorem length_le_findAddPos :
    members.length ≤ (findAddPos members).2.length := by
  unfold findAddPos
  split <;> simp

end

end Node

end Idgs.Cluster
