import Idgs.Common.Run
import Idgs.Cluster.TableSound
import Idgs.Cluster.MemberManager

/-!
# Rebalancing while deltas are in flight

The leading member computes every rebalancing on the table it has at that moment, and the table
changes only when the multicast delta is delivered. The state of a run is what the leading process
knows together with the deltas that are still in flight; when the leading member leaves, it is the
process of the member that takes over, which has applied the same stream.

As long as no rebalancing is computed while another delta is in flight, the table with all deltas
applied is sound. Two leaves in one event are enough to break it.
-/

namespace Idgs.Cluster

open List

/-- The delta in a multicast, if it carries one. -/
def Multicast.delta? : Multicast → Option DeltaPartitionEvent
  | .deltaPartitions evt => some evt
  | _ => none

/-- The deltas among some multicasts. -/
def deltas (sent : List Multicast) : List DeltaPartitionEvent := sent.filterMap Multicast.delta?

/-- The process of the leading member, and the deltas that are not delivered yet. -/
structure LeadingView where
  node : Node
  pending : List DeltaPartitionEvent := []

namespace LeadingView

/-- Nobody has joined, and the partition table is empty. -/
def init (cluster : ClusterConfig) : LeadingView where
  node := { cfg := {}, cluster := cluster, partitions := createPartitionTable cluster }

/-- What reaches the leading process. -/
inductive Event
  | leadingJoin (m : Member)
  | join (m : Member)
  | deltaMember (m : Member) (pos : ℕ)
  | memberStatus (pos : ℕ) (status : MemberState)
  | clusterChange (evt : ClusterChangeEvent)
  | partitionStatus (evt : PartitionStatusChangeEvent)
  | deliver

/-- An event, with what the environment contributes to the rebalancings it starts. -/
structure Step where
  event : Event
  oracle : ℕ → BalanceOracle

/-- The positions of the members that an event reports as left. -/
def leaving (n : Node) (evt : ClusterChangeEvent) : List ℕ :=
  evt.leftList.filterMap (Node.findMember n.members)

/-- The leading member is among those that leave. -/
def leadingLeaves (n : Node) (leave : List ℕ) : Bool :=
  leave.any fun i => n.localMemberIndex == (n.members.getD i {}).id

/-- The process that the run follows through a leave: that of the member to be selected as leading,
if the leading member itself leaves. -/
def survivor (n : Node) (leave : List ℕ) : Node :=
  if leadingLeaves n leave then
    match Node.selectLeading n.members leave with
    | some i => { n with localMemberIndex := i, cfg := n.members.getD i {} }
    | none => n
  else n

/-- A position that the leading member can hand out. -/
def Free (members : List Member) (pos : ℕ) : Prop :=
  pos = members.length ∨ pos < members.length ∧
    ((members.getD pos {}).state = .inactive ∨ (members.getD pos {}).state = .taken)

instance (members : List Member) (pos : ℕ) : Decidable (Free members pos) := by
  unfold Free
  infer_instance

/-- The handlers of the leading process. The first member joins as the leading one; others get a
free position; only the state of a member that has joined is reported; a process id is not zero. A
member that has joined applies every delta that is delivered. -/
def react (v : LeadingView) (a : Step) : Option (Node × List Multicast) :=
  match a.event with
  | .leadingJoin m =>
    if v.node.members = [] ∧ m.isLeading then
      some (Node.handleJoinEvent a.oracle { v.node with cfg := m } m)
    else none
  | .join m => if m.isLeading then none else some (Node.handleJoinEvent a.oracle v.node m)
  | .deltaMember m pos =>
    if m.isLeading = false ∧ v.node.isLocalMember m = false ∧ Free v.node.members pos then
      some (Node.handleDeltaMemberEvent a.oracle v.node m pos)
    else none
  | .memberStatus pos status =>
    if MemberState.joined.toNat ≤ (v.node.members.getD pos {}).state.toNat ∧
        (status = .prepared ∨ status = .active) then
      some (Node.handleMemberStatusEvent a.oracle v.node pos status)
    else none
  | .clusterChange evt =>
    if evt.leftList.all fun l => l.pid != 0 then
      some (Node.handleClusterChange a.oracle (survivor v.node (leaving v.node evt)) evt)
    else none
  | .partitionStatus evt =>
    some ({ v.node with partitions :=
      PartitionManager.handlePartitionStatusChangedEvent v.node.partitions evt }, [])
  | .deliver =>
    match v.pending with
    | [] => none
    | evt :: _ =>
      some ({ v.node with partitions := PartitionManager.balanceOk v.node.partitions evt }, [])

/-- The deltas that an event leaves undelivered, apart from the new ones. -/
def remaining (v : LeadingView) : Event → List DeltaPartitionEvent
  | .deliver => v.pending.tail
  | _ => v.pending

/-- One step of a run. -/
def step (v : LeadingView) (a : Step) : Option LeadingView :=
  (v.react a).map fun r => ⟨r.1, v.remaining a.event ++ deltas r.2⟩

/-- The partition table once all pending deltas are applied. -/
def applied (v : LeadingView) : List Partition :=
  v.pending.foldl PartitionManager.balanceOk v.node.partitions

/-- No partition holds a member in two cells, and no cell holds an inactive member. -/
structure TableOk (v : LeadingView) : Prop where
  once : ∀ q, (v.applied.getD q []).AtMostOnce
  active : ∀ q i, 0 ≤ holder v.applied q i →
    (v.node.members.getD (holder v.applied q i).toNat {}).state ≠ .inactive

/-- The event starts at most one rebalancing, and that with no delta pending; and when the leading
member leaves, a prepared or active member stays. -/
def Sequential (v : LeadingView) (a : Step) : Prop :=
  (match v.react a with
    | some r => deltas r.2 = [] ∨ v.pending = [] ∧ (deltas r.2).length = 1
    | none => True) ∧
  (match a.event with
    | .clusterChange evt => leadingLeaves v.node (leaving v.node evt) = true →
        (Node.selectLeading v.node.members (leaving v.node evt)).isSome = true
    | _ => True)

instance (v : LeadingView) (a : Step) : Decidable (Sequential v a) := by
  unfold Sequential
  have h₁ : Decidable (match v.react a with
    | some r => deltas r.2 = [] ∨ v.pending = [] ∧ (deltas r.2).length = 1
    | none => True) := by split <;> infer_instance
  have h₂ : Decidable (match a.event with
    | .clusterChange evt => leadingLeaves v.node (leaving v.node evt) = true →
        (Node.selectLeading v.node.members (leaving v.node evt)).isSome = true
    | _ => True) := by split <;> infer_instance
  infer_instance

/-! ## The invariant -/

/-- The entry of a position that is reserved at the end of the table. -/
def placeholder : Member := ({} : Member).setState .taken

/-- What the tables of the leading process satisfy: positions are ids, and the leading flag is on
the local member only, which is there. -/
structure Base (n : Node) : Prop where
  replicas_lt : n.cluster.maxReplicaCount < 256
  shaped : TableShaped n.cluster n.partitions
  ids : ∀ i < n.members.length, (n.members.getD i {}).id = i ∨ n.members.getD i {} = placeholder
  flags : ∀ i, (n.members.getD i {}).isLeading = true → n.localMemberIndex = i
  leading : n.members ≠ [] → ∃ l : ℕ, n.localMemberIndex = l ∧ l < n.members.length ∧
    (n.members.getD l {}).isLeading = true ∧ (n.members.getD l {}).id = l ∧
    MemberState.joined.toNat ≤ (n.members.getD l {}).state.toNat

/-- The invariant of a run. -/
structure Inv (v : LeadingView) : Prop where
  base : Base v.node
  sound : TableSound v.node.members v.applied

theorem isAvailable_placeholder : placeholder.isAvailable = false := by decide

theorem isAvailable_default : ({} : Member).isAvailable = false := by decide

theorem isAvailable_joined {m : Member} {i : ℕ} (hid : m.id = i) (hstore : m.localStore = true) :
    (m.setState .joined).isAvailable = true := by
  simp [Member.isAvailable, Member.setState, hid, hstore]

/-- Soundness needs the available members only. -/
theorem TableSound.of_available {members members' : List Member} {table : List Partition}
    (h : TableSound members table) (hkeep : ∀ i, (members.getD i {}).isAvailable = true →
      (members'.getD i {}).isAvailable = true) :
    TableSound members' table := by
  refine h.mono fun q i _ hav => ?_
  simp only [isAvailableId, Bool.and_eq_true] at hav ⊢
  exact ⟨hav.1, hkeep _ hav.2⟩

variable {n : Node}

theorem Base.getLocalMember (h : Base n) (hne : n.members ≠ []) :
    ∃ l, n.getLocalMember = some l ∧ l.isLeading = true := by
  obtain ⟨l, hindex, hlt, hflag, -⟩ := h.leading hne
  refine ⟨n.members.getD l {}, ?_, hflag⟩
  have hnonneg : ¬ n.localMemberIndex < 0 := by omega
  rw [Node.getLocalMember, if_neg hnonneg, hindex]
  simp [hlt]

/-! ## The deltas of a status change -/

section Deltas

variable {oracle : BalanceOracle} {cluster : ClusterConfig} {l changed : Member}
    {members : List Member}
  {partitions : List Partition} (hlead : l.isLeading = true)

include hlead

theorem deltas_joined (hstate : changed.state = .joined) :
    deltas (PartitionManager.memberStatusChanged oracle cluster
      (some l) members partitions changed) =
      if changed.localStore then
        [PartitionManager.balance oracle cluster members partitions changed] else [] := by
  simp only [PartitionManager.memberStatusChanged, hlead, hstate]
  cases changed.isLeading <;> cases changed.localStore <;> rfl

theorem deltas_inactive (hstate : changed.state = .inactive) (hflag : changed.isLeading = false) :
    deltas (PartitionManager.memberStatusChanged oracle cluster
      (some l) members partitions changed) =
      if changed.localStore then
        [PartitionManager.balance oracle cluster members partitions changed] else [] := by
  simp only [PartitionManager.memberStatusChanged, hlead, hstate, hflag]
  cases changed.localStore <;> rfl

theorem memberStatusChanged_other (hstate : changed.state ≠ .joined ∧
      (changed.state = .inactive → changed.isLeading = true)) :
    PartitionManager.memberStatusChanged oracle cluster
    (some l) members partitions changed = [] := by
  simp only [PartitionManager.memberStatusChanged, hlead]
  by_cases hinactive : changed.state = .inactive
  · simp [hinactive, hstate.2 hinactive]
  · simp [hstate.1, hinactive]

end Deltas

/-! ## One status change -/

/-- The delta of a rebalancing for the member at position `i`, applied to the table it was computed
on. -/
theorem tableSound_after_balance (h : Base n) {i : ℕ} (hi : i < n.members.length)
    (hid : (n.members.getD i {}).id = i)
    (hstate : (n.members.getD i {}).isAvailable = true ∨ (n.members.getD i {}).state = .inactive)
    {members₀ : List Member} (hsound : TableSound members₀ n.partitions)
    (hkeep : ∀ j, j ≠ i → (members₀.getD j {}).isAvailable = true →
      (n.members.getD j {}).isAvailable = true) (oracle : BalanceOracle) :
    TableSound n.members (PartitionManager.balanceOk n.partitions
      (PartitionManager.balance oracle n.cluster n.members n.partitions (n.members.getD i {})))
      := by
  unfold PartitionManager.balance
  rw [hid, Int.toNat_natCast]
  refine tableSound_balance (x := ⟨oracle, n.cluster, n.members, n.partitions, i⟩) h.shaped
    h.replicas_lt (fun j hj hav => ?_) hi hstate hsound.once (fun q j hj => ?_)
  · rcases hav with hav | hij
    · rcases h.ids j hj with hjid | hjplace
      · exact hjid
      · rw [show n.members.getD j {} = placeholder from hjplace, isAvailable_placeholder] at hav
        cases hav
    · have hij' : j = i := hij
      rw [hij']
      exact hid
  · by_cases hne : (holder n.partitions q j).toNat = i
    · right
      have hnonneg : 0 ≤ holder n.partitions q j := hj
      show holder n.partitions q j = (i : ℤ)
      omega
    · left
      have hav := hsound.held q j hj
      simp only [isAvailableId, Bool.and_eq_true] at hav ⊢
      exact ⟨hav.1, hkeep _ hne hav.2⟩

variable {pending : List DeltaPartitionEvent}

/-- A member that joins, or one without the leading flag that becomes inactive: with at most the
delta of this change in flight, the table stays sound. -/
theorem tableSound_setMemberStatus {oracle : ℕ → BalanceOracle} {i : ℕ}
    {status : MemberState} (hbase : Base (Node.setMemberStatus oracle n i status).1)
    (hi : i < n.members.length) (hid : (n.members.getD i {}).id = i)
    (hstatus : status = .joined ∨ status = .inactive ∧ (n.members.getD i {}).isLeading = false)
    {members₀ : List Member}
    (hsound : TableSound members₀ (pending.foldl PartitionManager.balanceOk n.partitions))
    (hkeep : ∀ j, j ≠ i → (members₀.getD j {}).isAvailable = true →
      (n.members.getD j {}).isAvailable = true)
    (hstore : (n.members.getD i {}).localStore = false → (members₀.getD i {}).isAvailable = false)
    (hseq : deltas (Node.setMemberStatus oracle n i status).2 = [] ∨
      pending = [] ∧ (deltas (Node.setMemberStatus oracle n i status).2).length = 1) :
    TableSound (Node.setMemberStatus oracle n i status).1.members
      ((pending ++ deltas (Node.setMemberStatus oracle n i status).2).foldl
        PartitionManager.balanceOk n.partitions) := by
  set n' := (Node.setMemberStatus oracle n i status).1 with hn'
  have hlen : n'.members.length = n.members.length := by simp [hn', Node.setMemberStatus]
  have hget : ∀ j, n'.members.getD j {} =
      if j = i ∧ j < n.members.length then (n.members.getD j {}).setState status
      else n.members.getD j {} := fun j => Node.getD_modify _ _ _ _
  have hself : n'.members.getD i {} = (n.members.getD i {}).setState status := by
    rw [hget, if_pos ⟨rfl, hi⟩]
  have hother : ∀ j, j ≠ i → n'.members.getD j {} = n.members.getD j {} := by
    intro j hj
    rw [hget, if_neg (fun h => hj h.1)]
  have hkeep' : ∀ j, j ≠ i → (members₀.getD j {}).isAvailable = true →
      (n'.members.getD j {}).isAvailable = true := by
    intro j hj hav
    rw [hother j hj]
    exact hkeep j hj hav
  obtain ⟨l, hlocal, hlead⟩ := hbase.getLocalMember (by
    intro hnil
    rw [← hlen, hnil] at hi
    exact absurd hi (by simp))
  have hdeltas : deltas (Node.setMemberStatus oracle n i status).2 =
      if (n.members.getD i {}).localStore then
        [PartitionManager.balance (oracle i) n'.cluster n'.members n'.partitions
          (n'.members.getD i {})] else [] := by
    have hsent : (Node.setMemberStatus oracle n i status).2 =
        PartitionManager.memberStatusChanged (oracle i) n'.cluster n'.getLocalMember n'.members
          n'.partitions (n'.members.getD i {}) := rfl
    rw [hsent, hlocal]
    rcases hstatus with rfl | ⟨rfl, hflag⟩
    · rw [deltas_joined hlead (by rw [hself]; rfl), hself]
      rfl
    · rw [deltas_inactive hlead (by rw [hself]; rfl) (by rw [hself]; exact hflag), hself]
      rfl
  cases hlocalStore : (n.members.getD i {}).localStore with
  | true =>
    rw [hlocalStore, if_pos rfl] at hdeltas
    rw [hdeltas] at hseq ⊢
    obtain rfl : pending = [] := by
      rcases hseq with hnil | ⟨hpending, -⟩
      · cases hnil
      · exact hpending
    refine tableSound_after_balance hbase (hlen ▸ hi) ?_ ?_ hsound hkeep' (oracle i)
    · rw [hself]
      exact hid
    · rw [hself]
      rcases hstatus with rfl | ⟨rfl, -⟩
      · exact .inl (isAvailable_joined hid hlocalStore)
      · exact .inr rfl
  | false =>
    rw [hlocalStore] at hdeltas
    rw [hdeltas, if_neg (by simp), append_nil]
    refine TableSound.of_available hsound fun j hav => ?_
    by_cases hj : j = i
    · subst hj
      rw [hstore hlocalStore] at hav
      cases hav
    · exact hkeep' j hj hav

/-! ## The tables after each event -/

/-- A status change keeps the tables in order, except that the leading member must stay joined. -/
theorem Base.setMemberStatus (h : Base n) (oracle : ℕ → BalanceOracle)
    (status : MemberState) {i : ℕ} (hid : (n.members.getD i {}).id = i)
    (hlive : MemberState.joined.toNat ≤ status.toNat ∨ n.localMemberIndex ≠ i) :
    Base (Node.setMemberStatus oracle n i status).1 := by
  have hget : ∀ j, (n.members.modify i (·.setState status)).getD j {} =
      if j = i ∧ j < n.members.length then (n.members.getD j {}).setState status
      else n.members.getD j {} := fun j => Node.getD_modify _ _ _ _
  refine ⟨h.replicas_lt, h.shaped, fun j hj => ?_, fun j hflag => ?_, fun hne => ?_⟩
  · have hj' : j < n.members.length := by simpa [Node.setMemberStatus] using hj
    change ((n.members.modify i _).getD j {}).id = j ∨ (n.members.modify i _).getD j {} =
      placeholder
    rw [hget]
    split
    · rename_i hcase
      left
      rw [hcase.1]
      exact hid
    · exact h.ids j hj'
  · change ((n.members.modify i _).getD j {}).isLeading = true at hflag
    rw [hget] at hflag
    split at hflag
    · exact h.flags j hflag
    · exact h.flags j hflag
  · have hne' : n.members ≠ [] := by
      intro hnil
      exact hne (by simp [Node.setMemberStatus, hnil])
    obtain ⟨l, hindex, hlt, hflag, hlid, hstate⟩ := h.leading hne'
    refine ⟨l, hindex, by simpa [Node.setMemberStatus] using hlt, ?_⟩
    change ((n.members.modify i _).getD l {}).isLeading = true ∧
      ((n.members.modify i _).getD l {}).id = l ∧ _ ≤ ((n.members.modify i _).getD l {}).state.toNat
    rw [hget]
    split
    · rename_i hcase
      refine ⟨hflag, hlid, ?_⟩
      rcases hlive with hjoined | hother
      · exact hjoined
      · exact absurd (hcase.1 ▸ hindex) hother
    · exact ⟨hflag, hlid, hstate⟩

/-- Reserving a position. -/
theorem Base.findAddPos (h : Base n) (hne : n.members ≠ []) :
    Base { n with members := (Node.findAddPos n.members).2 } := by
  have hget := Node.getD_findAddPos n.members
  refine ⟨h.replicas_lt, h.shaped, fun j hj => ?_, fun j hflag => ?_, fun _ => ?_⟩
  · dsimp only at hj ⊢
    rcases hget j with ⟨hsame, hlt⟩ | ⟨hlt, hinactive, htaken⟩ | ⟨-, hplace⟩
    · rw [hsame]
      exact h.ids j (hlt hj)
    · rw [htaken]
      left
      rcases h.ids j hlt with hid | hplace
      · exact hid
      · rw [hplace] at hinactive
        cases hinactive
    · exact .inr hplace
  · dsimp only at hflag ⊢
    rcases hget j with ⟨hsame, -⟩ | ⟨-, -, htaken⟩ | ⟨-, hplace⟩
    · rw [hsame] at hflag
      exact h.flags j hflag
    · rw [htaken] at hflag
      exact h.flags j hflag
    · rw [hplace] at hflag
      exact absurd hflag (by decide)
  · obtain ⟨l, hindex, hlt, hflag, hlid, hstate⟩ := h.leading hne
    refine ⟨l, hindex, ?_⟩
    dsimp only
    rcases hget l with ⟨hsame, -⟩ | ⟨-, hinactive, -⟩ | ⟨heq, -⟩
    · rw [hsame]
      exact ⟨lt_of_lt_of_le hlt (Node.length_le_findAddPos _), hflag, hlid, hstate⟩
    · rw [hinactive] at hstate
      exact absurd hstate (by decide)
    · omega

/-- A member takes a free position, not yet joined. -/
theorem Base.addMember (h : Base n) (hne : n.members ≠ []) {m : Member} {pos : ℕ}
    (hm : m.isLeading = false) (hfree : Free n.members pos) :
    Base { n with members := Node.addMember n.members m pos } := by
  have hget := Node.getD_addMember n.members m pos
  have hlen := Node.length_addMember n.members m pos
  obtain ⟨l, hindex, hlt, hflag, hlid, hstate⟩ := h.leading hne
  have hl : l ≠ pos := by
    rintro rfl
    rcases hfree with heq | ⟨-, hinactive | htaken⟩
    · omega
    · rw [hinactive] at hstate
      exact absurd hstate (by decide)
    · rw [htaken] at hstate
      exact absurd hstate (by decide)
  refine ⟨h.replicas_lt, h.shaped, fun j hj => ?_, fun j hjflag => ?_, fun _ => ?_⟩
  · dsimp only at hj ⊢
    rw [hget]
    split
    · rename_i heq
      left
      rw [heq]
      rfl
    · refine h.ids j ?_
      rcases hfree with heq | ⟨hlt', -⟩ <;> omega
  · dsimp only at hjflag ⊢
    rw [hget] at hjflag
    split at hjflag
    · have hm' : (m.setId pos).isLeading = m.isLeading := rfl
      rw [hm', hm] at hjflag
      cases hjflag
    · exact h.flags j hjflag
  · refine ⟨l, hindex, ?_⟩
    dsimp only
    rw [hget, if_neg hl]
    exact ⟨by omega, hflag, hlid, hstate⟩

/-- The leading flag moves from the local member, which leaves, to a member that stays. -/
theorem Base.moveLeading (h : Base n) {l s : ℕ} (hl : n.localMemberIndex = l)
    (hlid : (n.members.getD l {}).id = l) (hs : s < n.members.length) (hne : s ≠ l)
    (hsid : (n.members.getD s {}).id = s)
    (hstate : MemberState.joined.toNat ≤ (n.members.getD s {}).state.toNat) (cfg : Member) :
    Base { n with
      localMemberIndex := s
      cfg := cfg
      members := (n.members.modify s (·.setLeading true)).modify l (·.setLeading false) } := by
  have hset := Member.setLeading_fields
  have hget : ∀ j,
      ((n.members.modify s (·.setLeading true)).modify l (·.setLeading false)).getD j {} =
      if j = l ∧ j < n.members.length then (n.members.getD j {}).setLeading false
      else if j = s ∧ j < n.members.length then (n.members.getD j {}).setLeading true
      else n.members.getD j {} := by
    intro j
    rw [Node.getD_modify, Node.getD_modify, length_modify]
    by_cases hj : j = l
    · have hjs : j ≠ s := by omega
      simp only [hjs, false_and, if_false]
    · simp only [hj, false_and, if_false]
  refine ⟨h.replicas_lt, h.shaped, fun j hj => ?_, fun j hflag => ?_, fun _ => ?_⟩
  · have hj' : j < n.members.length := by simpa using hj
    dsimp only
    rw [hget]
    -- both members whose flag changes have their position as id
    split
    · rename_i hjl
      left
      rw [(hset _ _).1, hjl.1]
      exact hlid
    · split
      · rename_i hjs
        left
        rw [(hset _ _).1, hjs.1]
        exact hsid
      · exact h.ids j hj'
  · dsimp only at hflag ⊢
    rw [hget] at hflag
    split at hflag
    · simp at hflag
    · rename_i hjl
      split at hflag
      · rename_i hjs
        rw [hjs.1]
      · -- any other member with the flag would have been the old local member
        have hold := h.flags j hflag
        have hjl' : j = l := by omega
        refine absurd ⟨hjl', ?_⟩ hjl
        by_contra hout
        rw [Node.getD_of_length_le (by omega)] at hflag
        exact absurd hflag (by decide)
  · refine ⟨s, rfl, by simpa using hs, ?_⟩
    dsimp only
    rw [hget, if_neg (fun hc => hne hc.1), if_pos ⟨rfl, hs⟩]
    refine ⟨Member.isLeading_setLeading _ _, (hset _ _).1.trans hsid, ?_⟩
    rw [(hset _ _).2.1]
    exact hstate

/-! ## Leaves -/

/-- What a handler leaves behind when the deltas `pending` were in flight before. -/
structure Ok (pending : List DeltaPartitionEvent) (r : Node × List Multicast) : Prop where
  base : Base r.1
  sound : TableSound r.1.members
    ((pending ++ deltas r.2).foldl PartitionManager.balanceOk r.1.partitions)

/-- The deltas in `sent` are at most one, and that only when none was in flight. -/
def AtMostOne (pending : List DeltaPartitionEvent) (sent : List Multicast) : Prop :=
  deltas sent = [] ∨ pending = [] ∧ (deltas sent).length = 1

theorem deltas_append (sent sent' : List Multicast) :
    deltas (sent ++ sent') = deltas sent ++ deltas sent' := filterMap_append

theorem AtMostOne.left {sent sent' : List Multicast}
    (h : AtMostOne pending (sent ++ sent')) : AtMostOne pending sent := by
  unfold AtMostOne at h ⊢
  rw [deltas_append, append_eq_nil_iff, length_append] at h
  rcases h with h | ⟨hpending, hlen⟩
  · exact .inl h.1
  · by_cases hnil : deltas sent = []
    · exact .inl hnil
    · have hpos := length_pos_iff.mpr hnil
      exact .inr ⟨hpending, by omega⟩

theorem AtMostOne.right {sent sent' : List Multicast}
    (h : AtMostOne pending (sent ++ sent')) : AtMostOne (pending ++ deltas sent) sent' := by
  unfold AtMostOne at h ⊢
  rw [deltas_append, append_eq_nil_iff, length_append] at h
  rcases h with h | ⟨hpending, hlen⟩
  · exact .inl h.2
  · by_cases hnil : deltas sent = []
    · rw [hnil, append_nil]
      exact .inr ⟨hpending, by rw [hnil] at hlen; simpa using hlen⟩
    · have hpos := length_pos_iff.mpr hnil
      exact .inl (eq_nil_of_length_eq_zero (by omega))

theorem isAvailable_of_not_localStore {m : Member} (h : m.localStore = false) :
    m.isAvailable = false := by
  simp [Member.isAvailable, h]

/-- Members other than the local one become inactive, one after the other. -/
theorem ok_setMemberStatuses {oracle : ℕ → BalanceOracle} {leave : List ℕ} (h : Base n)
    (hsound : TableSound n.members (pending.foldl PartitionManager.balanceOk n.partitions))
    (hleave : ∀ i ∈ leave, i < n.members.length ∧ (n.members.getD i {}).id = i ∧
      n.localMemberIndex ≠ i)
    (hseq : AtMostOne pending (Node.setMemberStatuses oracle n .inactive leave).2) :
    Ok pending (Node.setMemberStatuses oracle n .inactive leave) := by
  induction leave generalizing n pending with
  | nil => exact ⟨h, by simpa [Node.setMemberStatuses, deltas] using hsound⟩
  | cons i leave ih =>
    obtain ⟨hi, hid, hlocal⟩ := hleave i mem_cons_self
    have hbase := h.setMemberStatus oracle .inactive hid (.inr hlocal)
    have hflag : (n.members.getD i {}).isLeading = false := by
      by_contra hlead
      exact hlocal (h.flags i (by simpa using hlead))
    have hfirst := tableSound_setMemberStatus hbase hi hid (.inr ⟨rfl, hflag⟩) hsound
      (fun j _ hav => hav) isAvailable_of_not_localStore hseq.left
    have hrest := ih hbase hfirst (fun j hj => ?_) hseq.right
    · refine ⟨hrest.base, ?_⟩
      have htable := hrest.sound
      rw [append_assoc, ← deltas_append] at htable
      exact htable
    · obtain ⟨hj', hjid, hjlocal⟩ := hleave j (mem_cons_of_mem _ hj)
      refine ⟨by simpa [Node.setMemberStatus] using hj', ?_, hjlocal⟩
      change ((n.members.modify i _).getD j {}).id = j
      rw [Node.getD_modify]
      split
      · exact hjid
      · exact hjid

theorem setLeading_getD_fields (members : List Member) (i j : ℕ) (flag : Bool) :
    ((members.modify i (·.setLeading flag)).getD j {}).id = (members.getD j {}).id ∧
      ((members.modify i (·.setLeading flag)).getD j {}).state = (members.getD j {}).state ∧
      ((members.modify i (·.setLeading flag)).getD j {}).localStore =
        (members.getD j {}).localStore := by
  rw [Node.getD_modify]
  split
  · exact Member.setLeading_fields _ _
  · exact ⟨rfl, rfl, rfl⟩

/-- The first of the two status changes of the old leading member sends nothing, and the second one
is that of a member without the flag. -/
theorem replaceLeading_eq (oracle : ℕ → BalanceOracle) {l s : ℕ}
    (hindex : n.localMemberIndex = s) (hs : s < n.members.length) (hl : l < n.members.length)
    (hne : s ≠ l) (hlead : (n.members.getD l {}).isLeading = true) (leave : List ℕ) :
    Node.replaceLeading oracle n l s leave =
      let moved : Node := { n with
        members := (n.members.modify s (·.setLeading true)).modify l (·.setLeading false) }
      let r := Node.setMemberStatus oracle moved l .inactive
      let r' := Node.setMemberStatuses oracle r.1 .inactive (leave.filter (· ≠ l))
      (r'.1, r.2 ++ r'.2) := by
  set members₁ := n.members.modify s (·.setLeading true) with hmembers₁
  set n₂ : Node := { n with members := members₁.modify l (·.setState .inactive) } with hn₂
  -- the first change is not rebalanced: the new leading member sees a leading member leave
  have hfirst : Node.setMemberStatus oracle { n with members := members₁ } l .inactive =
      (n₂, []) := by
    have hget : ∀ j, n₂.members.getD j {} =
        if j = l then (n.members.getD l {}).setState .inactive
        else if j = s then (n.members.getD s {}).setLeading true
        else n.members.getD j {} := by
      intro j
      change (members₁.modify l _).getD j {} = _
      rw [Node.getD_modify, hmembers₁, Node.getD_modify, length_modify]
      by_cases hjl : j = l
      · simp only [hjl, Ne.symm hne, hl, and_self, if_true, false_and, if_false]
      · by_cases hjs : j = s
        · simp only [hjs, hne, hs, and_self, if_true, false_and, if_false]
        · simp only [hjl, hjs, false_and, if_false]
    have hlocal : n₂.getLocalMember = some (n₂.members.getD s {}) := by
      have hnonneg : ¬ n₂.localMemberIndex < 0 := by
        change ¬ n.localMemberIndex < 0
        omega
      have hs₂ : s < n₂.members.length := by simpa [hn₂, hmembers₁] using hs
      rw [Node.getLocalMember, if_neg hnonneg]
      change n₂.members[n.localMemberIndex.toNat]? = _
      rw [hindex]
      simp [hs₂]
    have hslead : (n₂.members.getD s {}).isLeading = true := by
      rw [hget, if_neg hne, if_pos rfl]
      exact Member.isLeading_setLeading _ _
    have hnone : PartitionManager.memberStatusChanged (oracle l) n₂.cluster n₂.getLocalMember
        n₂.members n₂.partitions (n₂.members.getD l {}) = [] := by
      rw [hlocal]
      refine memberStatusChanged_other hslead ?_
      rw [hget, if_pos rfl]
      exact ⟨by simp [Member.setState], fun _ => hlead⟩
    exact Prod.ext rfl hnone
  -- the second change finds the same tables as if the flag had been moved first
  have hsecond : Node.setMemberStatus oracle
        { n₂ with members := n₂.members.modify l (·.setLeading false) } l .inactive =
      Node.setMemberStatus oracle
        { n with members := members₁.modify l (·.setLeading false) } l .inactive := by
    have hmembers : (n₂.members.modify l (·.setLeading false)).modify l (·.setState .inactive) =
        (members₁.modify l (·.setLeading false)).modify l (·.setState .inactive) := by
      change ((members₁.modify l _).modify l _).modify l _ = _
      rw [modify_modify_eq, modify_modify_eq, modify_modify_eq]
      rfl
    unfold Node.setMemberStatus
    dsimp only
    rw [hmembers]
  unfold Node.replaceLeading
  dsimp only
  rw [← hmembers₁, hfirst]
  dsimp only
  rw [hsecond, nil_append]

/-- The leading member leaves, and `s` takes over. -/
theorem ok_replaceLeading {oracle : ℕ → BalanceOracle} {n₀ : Node} {leave : List ℕ} {l s : ℕ}
    (h : Base n₀) (cfg : Member)
    (hsound : TableSound n₀.members (pending.foldl PartitionManager.balanceOk n₀.partitions))
    (hl : n₀.localMemberIndex = l) (hllt : l < n₀.members.length)
    (hlid : (n₀.members.getD l {}).id = l) (hllead : (n₀.members.getD l {}).isLeading = true)
    (hs : s < n₀.members.length) (hsid : (n₀.members.getD s {}).id = s)
    (hsstate : MemberState.joined.toNat ≤ (n₀.members.getD s {}).state.toNat)
    (hsleave : s ∉ leave) (hlleave : l ∈ leave)
    (hleave : ∀ i ∈ leave, i < n₀.members.length ∧ (n₀.members.getD i {}).id = i)
    (hseq : AtMostOne pending (Node.replaceLeading oracle
      { n₀ with localMemberIndex := s, cfg := cfg } l s leave).2) :
    Ok pending (Node.replaceLeading oracle
      { n₀ with localMemberIndex := s, cfg := cfg } l s leave) := by
  have hne : s ≠ l := fun heq => hsleave (heq ▸ hlleave)
  have hmoved := h.moveLeading hl hlid hs hne hsid hsstate cfg
  rw [replaceLeading_eq oracle (n := { n₀ with localMemberIndex := s, cfg := cfg }) rfl hs hllt hne
    hllead leave] at hseq ⊢
  dsimp only at hseq ⊢
  set moved : Node := { n₀ with
    localMemberIndex := s
    cfg := cfg
    members :=
      (n₀.members.modify s (·.setLeading true)).modify l (·.setLeading false) } with hmoved'
  have hfields : ∀ j, (moved.members.getD j {}).id = (n₀.members.getD j {}).id ∧
      (moved.members.getD j {}).state = (n₀.members.getD j {}).state ∧
      (moved.members.getD j {}).localStore = (n₀.members.getD j {}).localStore := by
    intro j
    obtain ⟨hid, hstate, hstore⟩ := setLeading_getD_fields
      (n₀.members.modify s (·.setLeading true)) l j false
    obtain ⟨hid', hstate', hstore'⟩ := setLeading_getD_fields n₀.members s j true
    exact ⟨hid.trans hid', hstate.trans hstate', hstore.trans hstore'⟩
  have havail : ∀ j, (moved.members.getD j {}).isAvailable =
      (n₀.members.getD j {}).isAvailable := by
    intro j
    obtain ⟨hid, hstate, hstore⟩ := hfields j
    rw [Member.isAvailable, Member.isAvailable, hid, hstate, hstore]
  have hlen : moved.members.length = n₀.members.length := by simp [hmoved']
  have hlmoved : (moved.members.getD l {}).isLeading = false := by
    by_contra hlead
    have hindex : (s : ℤ) = l := hmoved.flags l (by simpa using hlead)
    omega
  have hlocal : moved.localMemberIndex ≠ l := by
    change (s : ℤ) ≠ l
    omega
  have hbase := hmoved.setMemberStatus oracle .inactive ((hfields l).1.trans hlid)
    (.inr hlocal)
  have hfirst := tableSound_setMemberStatus hbase (hlen ▸ hllt) ((hfields l).1.trans hlid)
    (.inr ⟨rfl, hlmoved⟩) hsound (fun j _ hav => (havail j).trans hav)
    (fun hstore => (havail l) ▸ isAvailable_of_not_localStore hstore) hseq.left
  have hrest := ok_setMemberStatuses hbase hfirst (fun j hj => ?_) hseq.right
  · refine ⟨hrest.base, ?_⟩
    have htable := hrest.sound
    rw [append_assoc, ← deltas_append] at htable
    exact htable
  · have hjleave : j ∈ leave := mem_of_mem_filter hj
    obtain ⟨hj', hjid⟩ := hleave j hjleave
    refine ⟨by simpa [Node.setMemberStatus, hlen] using hj', ?_, ?_⟩
    · change ((moved.members.modify l _).getD j {}).id = j
      rw [Node.getD_modify]
      split
      · exact (hfields j).1.trans hjid
      · exact (hfields j).1.trans hjid
    · change (s : ℤ) ≠ j
      intro heq
      have hsj : s = j := by omega
      exact hsleave (hsj ▸ hjleave)

variable {v : LeadingView}

/-- A handler that does nothing leaves everything in order. -/
theorem Inv.ok_unchanged (h : Inv v) : Ok v.pending (v.node, []) :=
  ⟨h.base, by simpa [deltas, applied] using h.sound⟩

/-- The member that is selected as leading stays, and has joined. -/
theorem selectLeading_spec (h : Base n) {leave : List ℕ} {s : ℕ}
    (hselect : Node.selectLeading n.members leave = some s) :
    s < n.members.length ∧ (n.members.getD s {}).id = s ∧
      MemberState.joined.toNat ≤ (n.members.getD s {}).state.toNat ∧
      ∀ i ∈ leave, (n.members.getD i {}).id ≠ s := by
  unfold Node.selectLeading at hselect
  rw [Option.map_eq_some_iff] at hselect
  obtain ⟨m, hfind, hs⟩ := hselect
  have hpred := find?_some hfind
  obtain ⟨k, hk, hkm⟩ := mem_iff_getElem.mp (mem_of_find?_eq_some hfind)
  have hget : n.members.getD k {} = m := by simp [hk, hkm]
  simp only [Bool.and_eq_true, Bool.not_eq_true', any_eq_false, beq_iff_eq, Bool.or_eq_true]
    at hpred
  obtain ⟨hstays, hstate⟩ := hpred
  have hjoined : MemberState.joined.toNat ≤ m.state.toNat := by
    rcases hstate with hactive | hprepared
    · rw [hactive]; decide
    · rw [hprepared]; decide
  have hid : m.id = k := by
    rcases h.ids k hk with hid | hplace
    · rw [hget] at hid
      exact hid
    · rw [hget] at hplace
      rw [hplace] at hjoined
      exact absurd hjoined (by decide)
  obtain rfl : k = s := by omega
  refine ⟨hk, hget ▸ hid, hget ▸ hjoined, fun i hi heq => hstays i hi ?_⟩
  rw [hid, heq]

/-- The leave of members from the tables of the process that the run follows. -/
theorem ok_handleLeaveMembers {oracle : ℕ → BalanceOracle} (h : Inv v) {leave : List ℕ}
    (hleave : ∀ i ∈ leave, i < v.node.members.length ∧ (v.node.members.getD i {}).id = i)
    (hsuccessor : leadingLeaves v.node leave = true →
      (Node.selectLeading v.node.members leave).isSome = true)
    (hseq : AtMostOne v.pending (Node.handleLeaveMembers oracle (survivor v.node leave) leave).2) :
    Ok v.pending (Node.handleLeaveMembers oracle (survivor v.node leave) leave) := by
  by_cases hgone : leadingLeaves v.node leave = true
  · -- the leading member leaves: the run moves on to the process of its successor
    obtain ⟨s, hselect⟩ := Option.isSome_iff_exists.mp (hsuccessor hgone)
    obtain ⟨hs, hsid, hsstate, hstays⟩ := selectLeading_spec h.base hselect
    simp only [leadingLeaves, any_eq_true, beq_iff_eq] at hgone
    obtain ⟨i, hi, hlocal⟩ := hgone
    obtain ⟨hilt, hiid⟩ := hleave i hi
    obtain ⟨l, hindex, hllt, hlead, hlid, -⟩ := h.base.leading (by
      intro hnil
      rw [hnil] at hilt
      exact absurd hilt (by simp))
    obtain rfl : i = l := by omega
    have hsurvivor : survivor v.node leave =
        { v.node with localMemberIndex := s, cfg := v.node.members.getD s {} } := by
      have hgone : leadingLeaves v.node leave = true := by
        simp only [leadingLeaves, any_eq_true, beq_iff_eq]
        exact ⟨i, hi, hlocal⟩
      rw [survivor, if_pos hgone, hselect]
    have hthere : ¬ Node.getLocalMember
        { v.node with localMemberIndex := s, cfg := v.node.members.getD s {} } = none := by
      simp [Node.getLocalMember, hs]
    have hstay : ¬ (leave.any fun j => (s : ℤ) == (v.node.members.getD j {}).id) = true := by
      simp only [any_eq_true, beq_iff_eq, not_exists, not_and]
      intro j hj heq
      exact hstays j hj heq.symm
    have hcheck : Node.checkLeadingLeave v.node.members leave = some i := by
      unfold Node.checkLeadingLeave
      cases hfind : leave.find? fun j => (v.node.members.getD j {}).isLeading with
      | none => exact absurd hlead (find?_eq_none.mp hfind i hi)
      | some j =>
        have hjlead : (v.node.members.getD j {}).isLeading = true :=
          find?_some (p := fun j => (v.node.members.getD j {}).isLeading) hfind
        have hj := h.base.flags j hjlead
        have hji : j = i := by omega
        rw [hji]
    have hhandle : Node.handleLeaveMembers oracle (survivor v.node leave) leave =
        Node.replaceLeading oracle
          { v.node with localMemberIndex := s, cfg := v.node.members.getD s {} } i s leave := by
      rw [hsurvivor, Node.handleLeaveMembers, if_neg hthere, if_neg hstay]
      dsimp only
      rw [hcheck, hselect]
    rw [hhandle] at hseq ⊢
    exact ok_replaceLeading h.base _ h.sound hindex hllt hlid hlead hs hsid hsstate
      (fun hmem => hstays s hmem hsid) hi hleave hseq
  · have hsurvivor : survivor v.node leave = v.node := by
      rw [survivor, if_neg hgone]
    rw [hsurvivor] at hseq ⊢
    unfold Node.handleLeaveMembers at hseq ⊢
    by_cases hnone : v.node.getLocalMember = none
    · rw [if_pos hnone]
      exact h.ok_unchanged
    · have hcheck : Node.checkLeadingLeave v.node.members leave = none := by
        refine find?_eq_none.mpr fun i hi hlead => hgone ?_
        simp only [leadingLeaves, any_eq_true, beq_iff_eq]
        exact ⟨i, hi, (h.base.flags i hlead).trans (hleave i hi).2.symm⟩
      have hstay : ¬ (leave.any fun i =>
          v.node.localMemberIndex == (v.node.members.getD i {}).id) = true := hgone
      rw [if_neg hnone, if_neg hstay, hcheck] at hseq ⊢
      refine ok_setMemberStatuses h.base h.sound (fun i hi => ?_) hseq
      refine ⟨(hleave i hi).1, (hleave i hi).2, fun hlocal => hgone ?_⟩
      simp only [leadingLeaves, any_eq_true, beq_iff_eq]
      exact ⟨i, hi, hlocal.trans (hleave i hi).2.symm⟩

/-- Of a configuration change, only the leaves matter to the tables. -/
theorem handleClusterChange_eq (oracle : ℕ → BalanceOracle) (n : Node) (evt : ClusterChangeEvent) :
    ∃ cfg sent, deltas sent = [] ∧ Node.handleClusterChange oracle n evt =
      ({ (Node.handleLeaveMembers oracle n (leaving n evt)).1 with cfg := cfg },
        (Node.handleLeaveMembers oracle n (leaving n evt)).2 ++ sent) := by
  have hself : ∀ (a : MemberAddress) (cfg : Member),
      deltas (if cfg.nodeId = a.nodeid ∧ cfg.pid = a.pid then [.member cfg] else []) = [] := by
    intro a cfg
    split <;> rfl
  have hjoined : ∀ (rest : List MemberAddress) (j : ℕ) (cfg : Member),
      deltas (Node.handleJoinedList evt j rest cfg).2 = [] := by
    intro rest
    induction rest with
    | nil => exact fun _ _ => rfl
    | cons a rest ih =>
      intro j cfg
      rw [Node.handleJoinedList]
      dsimp only
      rw [deltas_append, ih, append_nil]
      exact hself a _
  have hleft : (if evt.leftList ≠ [] ∧ n.getLocalMember ≠ none then
        Node.handleLeaveMembers oracle n (leaving n evt) else (n, [])) =
      Node.handleLeaveMembers oracle n (leaving n evt) := by
    split
    · rfl
    · rename_i hcase
      unfold Node.handleLeaveMembers
      by_cases hlocal : n.getLocalMember = none
      · rw [if_pos hlocal]
      · have hnil : evt.leftList = [] := by
          by_contra hne
          exact hcase ⟨hne, hlocal⟩
        rw [if_neg hlocal, leaving, hnil]
        rfl
  set cfg := (Node.handleLeaveMembers oracle n (leaving n evt)).1.cfg with hcfg
  refine ⟨(Node.handleJoinedList evt 0 evt.joinedList cfg).1,
    (Node.handleJoinedList evt 0 evt.joinedList cfg).2, hjoined evt.joinedList 0 cfg, ?_⟩
  unfold Node.handleClusterChange
  unfold leaving at hleft ⊢
  rw [hleft]
  rfl

theorem Base.withCfg (h : Base n) (cfg : Member) : Base { n with cfg := cfg } :=
  ⟨h.replicas_lt, h.shaped, h.ids, h.flags, h.leading⟩

theorem survivor_members (n : Node) (leave : List ℕ) : (survivor n leave).members = n.members := by
  unfold survivor
  split
  · split <;> rfl
  · rfl

/-- A process that leaves has an entry of its own, not a reserved one. -/
theorem leaving_spec (h : Base n) {evt : ClusterChangeEvent}
    (hpid : evt.leftList.all (fun l => l.pid != 0) = true) :
    ∀ i ∈ leaving n evt, i < n.members.length ∧ (n.members.getD i {}).id = i := by
  intro i hi
  obtain ⟨a, ha, hfind⟩ := mem_filterMap.mp hi
  obtain ⟨hlt, haddress, -⟩ := findIdx?_eq_some_iff_getElem.mp hfind
  refine ⟨hlt, ?_⟩
  rcases h.ids i hlt with hid | hplace
  · exact hid
  · have hpid' := all_eq_true.mp hpid a ha
    have hget : n.members.getD i {} = n.members[i] := by simp [hlt]
    rw [← hget, hplace] at haddress
    simp only [Bool.and_eq_true, beq_iff_eq] at haddress
    rw [← haddress.2] at hpid'
    exact absurd hpid' (by decide)

theorem ok_clusterChange {oracle : ℕ → BalanceOracle} (h : Inv v)
    {evt : ClusterChangeEvent} (hpid : evt.leftList.all (fun l => l.pid != 0) = true)
    (hsuccessor : leadingLeaves v.node (leaving v.node evt) = true →
      (Node.selectLeading v.node.members (leaving v.node evt)).isSome = true)
    (hseq : AtMostOne v.pending
      (Node.handleClusterChange oracle (survivor v.node (leaving v.node evt)) evt).2) :
    Ok v.pending (Node.handleClusterChange oracle (survivor v.node (leaving v.node evt)) evt) := by
  have hleaving : leaving (survivor v.node (leaving v.node evt)) evt = leaving v.node evt := by
    rw [leaving, survivor_members]
    rfl
  obtain ⟨cfg, sent, hsent, hhandle⟩ :=
    handleClusterChange_eq oracle (survivor v.node (leaving v.node evt)) evt
  rw [hhandle, hleaving] at hseq ⊢
  have hok := ok_handleLeaveMembers h (leaving_spec h.base hpid) hsuccessor hseq.left
  refine ⟨hok.base.withCfg cfg, ?_⟩
  dsimp only
  rw [deltas_append, hsent, append_nil]
  exact hok.sound

/-! ## Joins -/

/-- The first member becomes the leading one. -/
theorem ok_leadingJoin {oracle : ℕ → BalanceOracle} (h : Inv v) {m : Member}
    (hempty : v.node.members = []) (hlead : m.isLeading = true)
    (hseq : AtMostOne v.pending (Node.handleJoinEvent oracle { v.node with cfg := m } m).2) :
    Ok v.pending (Node.handleJoinEvent oracle { v.node with cfg := m } m) := by
  let n : Node := { v.node with
    cfg := m, localMemberIndex := 0, members := [(m.setId 0).setState .joined] }
  have hhandle : Node.handleJoinEvent oracle { v.node with cfg := m } m =
      Node.setMemberStatus oracle n 0 .joined := by
    rw [Node.handleJoinEvent, if_pos hlead, Node.handleLeadingJoinEvent]
    simp [hempty, Node.findAddPos, Node.addMember, Node.isLocalMember, n]
  have hbase : Base n := by
    refine ⟨h.base.replicas_lt, h.base.shaped, fun i hi => ?_, fun i hflag => ?_, fun _ => ?_⟩
    · obtain rfl : i = 0 := by simpa [n] using hi
      exact .inl rfl
    · by_contra hne
      have hi : n.members.length ≤ i := by
        have hlen : n.members.length = 1 := rfl
        have hindex : n.localMemberIndex = 0 := rfl
        omega
      rw [Node.getD_of_length_le hi] at hflag
      exact absurd hflag (by decide)
    · exact ⟨0, rfl, by simp [n], hlead, rfl, le_refl _⟩
  rw [hhandle] at hseq ⊢
  have hafter := hbase.setMemberStatus oracle .joined (i := 0) rfl (.inl (by decide))
  refine ⟨hafter, tableSound_setMemberStatus hafter (by simp [n]) rfl (.inl rfl) h.sound
    (fun j _ hav => ?_) (fun _ => ?_) hseq⟩
  · rw [hempty] at hav
    exact absurd hav (by simp [isAvailable_default])
  · rw [hempty]
    exact isAvailable_default

/-- Reserving a position for a joiner. -/
theorem ok_join {oracle : ℕ → BalanceOracle} (h : Inv v) {m : Member}
    (hlead : m.isLeading = false) : Ok v.pending (Node.handleJoinEvent oracle v.node m) := by
  rw [Node.handleJoinEvent, if_neg (by simp [hlead])]
  by_cases hempty : v.node.members = []
  · have hnone : v.node.getLocalMember = none := by
      rw [Node.getLocalMember, hempty]
      split <;> rfl
    rw [hnone]
    exact h.ok_unchanged
  · obtain ⟨l, hlocal, hl⟩ := h.base.getLocalMember hempty
    rw [hlocal]
    dsimp only
    rw [if_pos hl]
    refine ⟨h.base.findAddPos hempty, ?_⟩
    have hnone : deltas (Node.handleNormalJoin v.node m).2 = [] := rfl
    rw [hnone, append_nil]
    refine TableSound.of_available h.sound fun i hav => ?_
    change ((Node.findAddPos v.node.members).2.getD i {}).isAvailable = true
    rcases Node.getD_findAddPos v.node.members i with ⟨hsame, -⟩ | ⟨-, hinactive, -⟩ | ⟨heq, -⟩
    · rw [hsame]
      exact hav
    · rw [Member.not_isAvailable_of_inactive hinactive] at hav
      cases hav
    · rw [Node.getD_of_length_le heq.ge, isAvailable_default] at hav
      cases hav

/-- A member joins at a free position. -/
theorem ok_deltaMember {oracle : ℕ → BalanceOracle} (h : Inv v) {m : Member}
    {pos : ℕ} (hlead : m.isLeading = false) (hother : v.node.isLocalMember m = false)
    (hfree : Free v.node.members pos)
    (hseq : AtMostOne v.pending (Node.handleDeltaMemberEvent oracle v.node m pos).2) :
    Ok v.pending (Node.handleDeltaMemberEvent oracle v.node m pos) := by
  unfold Node.handleDeltaMemberEvent at hseq ⊢
  by_cases hempty : v.node.members = []
  · rw [if_pos hempty]
    exact h.ok_unchanged
  · rw [if_neg hempty, hother] at hseq ⊢
    have hget := Node.getD_addMember v.node.members m pos
    have hself : (Node.addMember v.node.members m pos).getD pos {} = m.setId pos := by
      rw [hget, if_pos rfl]
    have hbase := (h.base.addMember hempty hlead hfree).setMemberStatus oracle .joined
      (i := pos) (congrArg Member.id hself) (.inl (by decide))
    have hnot : (v.node.members.getD pos {}).isAvailable = false := by
      rcases hfree with heq | ⟨-, hinactive | htaken⟩
      · rw [Node.getD_of_length_le heq.ge]
        exact isAvailable_default
      · exact Member.not_isAvailable_of_inactive hinactive
      · simp only [Member.isAvailable, htaken]
        simp [MemberState.toNat]
    refine ⟨hbase, tableSound_setMemberStatus hbase ?_ (congrArg Member.id hself) (.inl rfl) h.sound
      (fun j hj hav => ?_) (fun _ => hnot) hseq⟩
    · have hlen := Node.length_addMember v.node.members m pos
      change pos < (Node.addMember v.node.members m pos).length
      omega
    · change ((Node.addMember v.node.members m pos).getD j {}).isAvailable = true
      rw [hget, if_neg hj]
      exact hav

/-- The report that a member is prepared or active. -/
theorem ok_memberStatus {oracle : ℕ → BalanceOracle} (h : Inv v) {pos : ℕ} {status : MemberState}
    (hjoined : MemberState.joined.toNat ≤ (v.node.members.getD pos {}).state.toNat)
    (hstatus : status = .prepared ∨ status = .active) :
    Ok v.pending (Node.handleMemberStatusEvent oracle v.node pos status) := by
  have hlive : MemberState.joined.toNat ≤ status.toNat ∧ status ≠ .joined ∧ status ≠ .inactive := by
    rcases hstatus with rfl | rfl <;> decide
  unfold Node.handleMemberStatusEvent
  split
  · exact h.ok_unchanged
  · rename_i hthere
    split
    · exact h.ok_unchanged
    · rename_i hpos
      rw [not_or] at hthere
      have hlt : pos < v.node.members.length := by omega
      have hid : (v.node.members.getD pos {}).id = pos := by
        rcases h.base.ids pos hlt with hid | hplace
        · exact hid
        · rw [hplace] at hjoined
          exact absurd hjoined (by decide)
      have hbase := h.base.setMemberStatus oracle status hid (.inl hlive.1)
      have hget : ∀ j, (v.node.members.modify pos (·.setState status)).getD j {} =
          if j = pos ∧ j < v.node.members.length then (v.node.members.getD j {}).setState status
          else v.node.members.getD j {} := fun j => Node.getD_modify _ _ _ _
      have hnone : (Node.setMemberStatus oracle v.node pos status).2 = [] := by
        obtain ⟨l, hlocal, hl⟩ := hbase.getLocalMember (by
          intro hnil
          have hzero := congrArg List.length hnil
          simp [Node.setMemberStatus] at hzero
          exact hthere.1 hzero)
        have hsent : (Node.setMemberStatus oracle v.node pos status).2 =
            PartitionManager.memberStatusChanged (oracle pos) v.node.cluster
              (Node.setMemberStatus oracle v.node pos status).1.getLocalMember
              (v.node.members.modify pos (·.setState status)) v.node.partitions
              ((v.node.members.modify pos (·.setState status)).getD pos {}) := rfl
        rw [hsent, hlocal]
        refine memberStatusChanged_other hl ?_
        rw [hget, if_pos ⟨rfl, hlt⟩]
        exact ⟨hlive.2.1, fun hinactive => absurd hinactive hlive.2.2⟩
      refine ⟨hbase, ?_⟩
      rw [hnone, show deltas [] = [] from rfl, append_nil]
      refine TableSound.of_available h.sound fun j hav => ?_
      change ((v.node.members.modify pos (·.setState status)).getD j {}).isAvailable = true
      rw [hget]
      split
      · simp only [Member.isAvailable, Bool.and_eq_true, decide_eq_true_eq] at hav ⊢
        exact ⟨hav.1, hlive.1⟩
      · exact hav

/-! ## Whole runs -/

/-- The holders after the pending deltas depend on the holders before them. -/
theorem holder_foldl_balanceOk_congr {table table' : List Partition}
    (hlen : ∀ q, (table'.getD q []).length = (table.getD q []).length)
    (hsame : ∀ q i, holder table' q i = holder table q i) (pending : List DeltaPartitionEvent) :
    ∀ q i, holder (pending.foldl PartitionManager.balanceOk table') q i =
      holder (pending.foldl PartitionManager.balanceOk table) q i := by
  induction pending generalizing table table' with
  | nil => exact hsame
  | cons evt rest ih =>
    refine ih (fun q => ?_) (fun q i => ?_)
    · rw [PartitionManager.length_getD_balanceOk, PartitionManager.length_getD_balanceOk]
      exact hlen q
    · exact PartitionManager.holder_balanceOk_congr hlen hsame evt q i

/-- Any event but a delivery, handled without breaking the guard. -/
theorem ok_react {a : Step} {r : Node × List Multicast} (h : Inv v)
    (hseq : Sequential v a) (hreact : v.react a = some r) (hdeliver : a.event ≠ .deliver) :
    Ok v.pending r := by
  obtain ⟨hone, hsuccessor⟩ := hseq
  rw [hreact] at hone
  unfold react at hreact
  cases hevent : a.event with
  | leadingJoin m =>
    rw [hevent] at hreact
    dsimp only at hreact
    split at hreact
    · rename_i hfirst
      cases hreact
      exact ok_leadingJoin h hfirst.1 hfirst.2 hone
    · cases hreact
  | join m =>
    rw [hevent] at hreact
    dsimp only at hreact
    split at hreact
    · cases hreact
    · rename_i hlead
      cases hreact
      exact ok_join h (by simpa using hlead)
  | deltaMember m pos =>
    rw [hevent] at hreact
    dsimp only at hreact
    split at hreact
    · rename_i hjoin
      cases hreact
      exact ok_deltaMember h hjoin.1 hjoin.2.1 hjoin.2.2 hone
    · cases hreact
  | memberStatus pos status =>
    rw [hevent] at hreact
    dsimp only at hreact
    split at hreact
    · rename_i hstatus
      cases hreact
      exact ok_memberStatus h hstatus.1 hstatus.2
    · cases hreact
  | clusterChange evt =>
    rw [hevent] at hreact hsuccessor
    dsimp only at hreact hsuccessor
    split at hreact
    · rename_i hpid
      cases hreact
      exact ok_clusterChange h hpid hsuccessor hone
    · cases hreact
  | partitionStatus evt =>
    rw [hevent] at hreact
    cases hreact
    have hlen := PartitionManager.length_handlePartitionStatusChangedEvent v.node.partitions evt
    have hsame := PartitionManager.holder_handlePartitionStatusChangedEvent v.node.partitions evt
    refine ⟨⟨h.base.replicas_lt, ⟨?_, fun q hq => (hlen q).trans (h.base.shaped.replicas q hq)⟩,
      h.base.ids, h.base.flags, h.base.leading⟩, ?_⟩
    · exact (length_modify _ _ _).trans h.base.shaped.rows
    · rw [show deltas [] = [] from rfl, append_nil]
      exact h.sound.congr (holder_foldl_balanceOk_congr hlen hsame v.pending)
  | deliver => exact absurd hevent hdeliver

/-- Every step keeps the invariant. -/
theorem Inv.step {v' : LeadingView} {a : Step} (h : Inv v) (hseq : Sequential v a)
    (hstep : v.step a = some v') : Inv v' := by
  obtain ⟨r, hreact, rfl⟩ := Option.map_eq_some_iff.mp hstep
  by_cases hdeliver : a.event = .deliver
  · rw [hdeliver]
    unfold react at hreact
    rw [hdeliver] at hreact
    dsimp only at hreact
    split at hreact
    · cases hreact
    · rename_i evt rest hpending
      cases hreact
      refine ⟨⟨h.base.replicas_lt, PartitionManager.TableShaped.balanceOk h.base.shaped evt,
        h.base.ids, h.base.flags, h.base.leading⟩, ?_⟩
      have hsound := h.sound
      unfold applied at hsound ⊢
      rw [hpending] at hsound
      simpa [remaining, hpending, deltas] using hsound
  · have hok := ok_react h hseq hreact hdeliver
    have hremaining : v.remaining a.event = v.pending := by
      cases hevent : a.event <;> first | rfl | exact absurd hevent hdeliver
    rw [hremaining]
    exact ⟨hok.base, hok.sound⟩

theorem inv_init {cluster : ClusterConfig} (hlt : cluster.maxReplicaCount < 256) :
    Inv (init cluster) where
  base := ⟨hlt, tableShaped_createPartitionTable hlt, fun i hi => absurd hi (by simp [init]),
    fun i hflag => absurd hflag (by simp [init, Member.isLeading]), fun hne => absurd rfl hne⟩
  sound := by
    have hnobody := holder_createPartitionTable cluster
    refine ⟨fun q i j hi => ?_, fun q i hi => ?_⟩
    · have hi' : 0 ≤ holder (createPartitionTable cluster) q i := hi
      rw [hnobody] at hi'
      exact absurd hi' (by decide)
    · have hi' : 0 ≤ holder (createPartitionTable cluster) q i := hi
      rw [hnobody] at hi'
      exact absurd hi' (by decide)

theorem Inv.tableOk (h : Inv v) : TableOk v where
  once := h.sound.once
  active := by
    intro q i hi hinactive
    have hav := h.sound.held q i hi
    simp only [isAvailableId, Bool.and_eq_true] at hav
    rw [Member.not_isAvailable_of_inactive hinactive] at hav
    cases hav.2

/-- **Rebalancing one delta at a time**: from the empty table, in every run whose events each start
at most one rebalancing, with no earlier delta in flight, and leave a member that can be leading,
the table with all pending deltas applied has no member twice in a partition and no inactive
holder. -/
theorem tableOk_of_sequential {cluster : ClusterConfig} (hlt : cluster.maxReplicaCount < 256)
    {v : LeadingView} (hrun : Common.Reaches step Sequential (init cluster) v) : TableOk v :=
  (hrun.invariant (inv_init hlt) fun _ _ _ h hseq hstep => h.step hseq hstep).tableOk

/-! ## Two leaves in one event -/

/-- The `i`-th of some store members, the first of them leading. -/
def storeMember (i : ℕ) : Member where
  publicAddress := i + 1
  nodeId := 1
  pid := UInt32.ofNat (i + 1)
  state := .inactive
  flags := if i = 0 then MF_LEADING else 0

/-- Exact arithmetic, and `rand()` always 2. -/
def twos : ℕ → BalanceOracle := fun _ => ⟨id, fun _ _ => 2⟩

/-- Member `i` joins, its delta is delivered, and it is prepared. -/
def joinEvents : ℕ → List Event
  | 0 => [.leadingJoin (storeMember 0), .deliver, .memberStatus 0 .prepared]
  | i => [.join (storeMember i), .deltaMember (storeMember i) i, .deliver,
      .memberStatus i .prepared]

/-- Members 0, 1, 2 and 3 join one after the other. -/
def joins : List Step := ((List.range 4).flatMap joinEvents).map fun event => ⟨event, twos⟩

/-- Members 3 and 2 leave in one event. -/
def twoLeave : Step := ⟨.clusterChange ⟨[⟨1, 1⟩, ⟨1, 2⟩], [⟨1, 4⟩, ⟨1, 3⟩], []⟩, twos⟩

/-- The joins alone are a run of single deltas. -/
theorem joins_tableOk :
    ∃ v, Common.replay step Sequential (init ⟨1, 1⟩) joins = some v ∧ TableOk v := by
  have hsome : (Common.replay step Sequential (init ⟨1, 1⟩) joins).isSome = true := by
      decide +kernel
  obtain ⟨v, hv⟩ := Option.isSome_iff_exists.mp hsome
  exact ⟨v, hv, tableOk_of_sequential (by decide) (Common.reaches_of_replay hv)⟩

/-- Both deltas of the two leaves are computed on the table that member 3 holds: the first one puts
member 2 there, the second one finds nothing to do. -/
theorem not_tableOk_of_run :
    ¬ ∀ v, Common.Reaches step Common.anyStep (init ⟨1, 1⟩) v → TableOk v := by
  intro hall
  have hbad : (Common.replay step Common.anyStep (init ⟨1, 1⟩) (joins ++ [twoLeave])).any (fun v =>
      decide (0 ≤ holder v.applied 0 0) &&
        decide ((v.node.members.getD (holder v.applied 0 0).toNat {}).state = .inactive)) =
        true := by
    decide +kernel
  obtain ⟨v, hv, hv'⟩ := (Option.any_eq_true _ _).mp hbad
  simp only [Bool.and_eq_true, decide_eq_true_eq] at hv'
  exact (hall v (Common.reaches_of_replay hv)).active 0 0 hv'.1 hv'.2

end LeadingView

end Idgs.Cluster
