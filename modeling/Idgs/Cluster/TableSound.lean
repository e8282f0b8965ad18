import Idgs.Cluster.BalancerSound
import Idgs.Cluster.PartitionManager

/-!
# Well-formed partition tables and the deltas between them

A table is sound for a membership when no partition holds a member twice and every holder is an
available member. Only the holders matter, so soundness is read off the member ids of the cells.
Applying the delta of one rebalancing to the table that it was computed on gives a sound table.
-/

namespace Idgs.Cluster

open Partition

/-- The member in a cell of a table, `-1` for an empty one. -/
def holder (table : List Partition) (q i : ℕ) : ℤ := ((table.getD q []).cell i).memberId

/-- No partition holds a member twice, and every holder is an available member. -/
structure TableSound (members : List Member) (table : List Partition) : Prop where
  once : ∀ q, (table.getD q []).AtMostOnce
  held : ∀ q i, 0 ≤ holder table q i → isAvailableId members (holder table q i) = true

/-- The table has a row for each partition and a cell for each replica of the configuration. -/
structure TableShaped (cluster : ClusterConfig) (table : List Partition) : Prop where
  rows : table.length = cluster.partitionCount
  replicas : ∀ q < cluster.partitionCount, (table.getD q []).length = cluster.maxReplicaCount

/-- Tables with the same holders are sound together. -/
theorem TableSound.congr {members : List Member} {table table' : List Partition}
    (h : TableSound members table) (hsame : ∀ q i, holder table' q i = holder table q i) :
    TableSound members table' where
  once := by
    intro q i j hi hij
    have hi' : 0 ≤ holder table q i := (hsame q i) ▸ hi
    have hij' : holder table q i = holder table q j := by rw [← hsame, ← hsame]; exact hij
    exact h.once q i j hi' hij'
  held := by
    intro q i hi
    rw [hsame] at hi ⊢
    exact h.held q i hi

/-- Soundness survives a change of the membership that keeps the holders available. -/
theorem TableSound.mono {members members' : List Member} {table : List Partition}
    (h : TableSound members table)
    (hkeep : ∀ q i, 0 ≤ holder table q i → isAvailableId members (holder table q i) = true →
      isAvailableId members' (holder table q i) = true) : TableSound members' table :=
  ⟨h.once, fun q i hi => hkeep q i hi (h.held q i hi)⟩

/-- Outside of the configuration there are no holders. -/
theorem TableShaped.holder_of_out {cluster : ClusterConfig} {table : List Partition}
    (h : TableShaped cluster table) {q i : ℕ}
    (hout : ¬ (q < cluster.partitionCount ∧ i < cluster.maxReplicaCount)) :
    holder table q i = -1 := by
  have hcell : (table.getD q []).cell i = {} := by
    by_cases hq : q < cluster.partitionCount
    · have hi : ¬ i < cluster.maxReplicaCount := fun hi => hout ⟨hq, hi⟩
      exact cell_of_length_le (by rw [h.replicas q hq]; omega)
    · rw [List.getD_eq_getElem?_getD, List.getElem?_eq_none (by rw [h.rows]; omega),
        Option.getD_none, cell_nil]
  rw [holder, hcell]

/-- The table that a process starts with. -/
theorem tableShaped_createPartitionTable {cluster : ClusterConfig}
    (hlt : cluster.maxReplicaCount < 256) :
    TableShaped cluster (createPartitionTable cluster) where
  rows := by simp [createPartitionTable]
  replicas := by
    intro q hq
    simp [createPartitionTable, ofReplicas, hq, Nat.mod_eq_of_lt hlt]

theorem holder_createPartitionTable (cluster : ClusterConfig) (q i : ℕ) :
    holder (createPartitionTable cluster) q i = -1 := by
  unfold holder createPartitionTable
  by_cases hq : q < cluster.partitionCount
  · simp only [List.getD_eq_getElem?_getD, List.getElem?_replicate, hq, if_true, Option.getD_some,
      ofReplicas, cell]
    split <;> rfl
  · simp [hq]

/-! ## Deltas -/

namespace PartitionManager

theorem TableShaped.balanceOk {cluster : ClusterConfig} {table : List Partition}
    (h : TableShaped cluster table) (evt : DeltaPartitionEvent) :
    TableShaped cluster (balanceOk table evt) where
  rows := (length_balanceOk table evt).trans h.rows
  replicas := fun q hq => (length_getD_balanceOk table evt q).trans (h.replicas q hq)

/-- The holders after a delta depend on the holders before it. -/
theorem holder_balanceOk_congr {table table' : List Partition}
    (hlen : ∀ q, (table'.getD q []).length = (table.getD q []).length)
    (hsame : ∀ q i, holder table' q i = holder table q i) (evt : DeltaPartitionEvent) (q i : ℕ) :
    holder (balanceOk table' evt) q i = holder (balanceOk table evt) q i := by
  induction evt generalizing table table' with
  | nil => exact hsame q i
  | cons item evt ih =>
    refine ih (fun q => ?_) (fun q i => ?_)
    · have h := length_getD_balanceOk table [item] q
      have h' := length_getD_balanceOk table' [item] q
      exact h'.trans ((hlen q).trans h.symm)
    · by_cases hi : i < (table.getD q []).length
      · have hcell := tableCell_balanceOkItem table item hi
        have hcell' :=
          tableCell_balanceOkItem table' item (i := q) (j := i) (by rw [hlen]; exact hi)
        have hq : (tableCell table' q i).memberId = (tableCell table q i).memberId := hsame q i
        change (tableCell (balanceOkItem table' item) q i).memberId =
          (tableCell (balanceOkItem table item) q i).memberId
        rw [hcell, hcell']
        split
        · rfl
        · exact hq
      · have h := length_getD_balanceOk table [item] q
        have h' := length_getD_balanceOk table' [item] q
        have hout : ((balanceOk table [item]).getD q []).cell i = {} :=
          cell_of_length_le (by rw [h]; omega)
        have hout' : ((balanceOk table' [item]).getD q []).cell i = {} :=
          cell_of_length_le (by rw [h', hlen]; omega)
        exact congrArg Cell.memberId (hout'.trans hout.symm)

/-- Setting the state of a cell keeps its holder. -/
theorem memberId_cell_setState (p : Partition) (pos i : ℕ) (state : PartitionState) :
    ((p.setState pos state).cell i).memberId = (p.cell i).memberId := by
  unfold setState cell
  by_cases hi : pos = i
  · subst hi
    cases h : p[pos]? <;> simp [h]
  · simp [hi]

section

variable (table : List Partition)

/-- What a status change does to the row of its partition. -/
theorem getD_handlePartitionStatusChangedEvent
    (evt : PartitionStatusChangeEvent) (q : ℕ) :
    (handlePartitionStatusChangedEvent table evt).getD q [] = table.getD q [] ∨
      ∃ pos, (handlePartitionStatusChangedEvent table evt).getD q [] =
        (table.getD q []).setState pos evt.state := by
  unfold handlePartitionStatusChangedEvent
  by_cases hq : evt.partitionId = q
  · subst hq
    cases hrow : table[evt.partitionId]? with
    | none => simp [hrow]
    | some p =>
      simp only [List.getD_eq_getElem?_getD, List.getElem?_modify_eq, hrow,
        Option.map_eq_map, Option.map_some, Option.getD_some]
      split
      · exact .inr ⟨_, rfl⟩
      · exact .inl rfl
  · simp [hq]

/-- A status change keeps the holders. -/
theorem holder_handlePartitionStatusChangedEvent
    (evt : PartitionStatusChangeEvent) (q i : ℕ) :
    holder (handlePartitionStatusChangedEvent table evt) q i = holder table q i := by
  unfold holder
  rcases getD_handlePartitionStatusChangedEvent table evt q with h | ⟨pos, h⟩
  · rw [h]
  · rw [h, memberId_cell_setState]

theorem length_handlePartitionStatusChangedEvent
    (evt : PartitionStatusChangeEvent) (q : ℕ) :
    ((handlePartitionStatusChangedEvent table evt).getD q []).length =
      (table.getD q []).length := by
  rcases getD_handlePartitionStatusChangedEvent table evt q with h | ⟨pos, h⟩
  · rw [h]
  · rw [h]
    simp [setState]

end

end PartitionManager

/-! ## One rebalancing -/

/-- **Applying the delta of a rebalancing**: if before it no partition held a member twice, and all
holders were available but for the member that leaves, the table with the delta applied is sound. -/
theorem tableSound_balance {x : BalanceInput} (hshaped : TableShaped x.config x.partitions)
    (hlt : x.config.maxReplicaCount < 256)
    (hids : ∀ i < x.members.length, (x.members.getD i {}).isAvailable = true ∨ i = x.mid →
      (x.members.getD i {}).id = i)
    (hmid : x.mid < x.members.length) (hstate : (x.members.getD x.mid {}).isAvailable = true ∨
      (x.members.getD x.mid {}).state = .inactive)
    (honce : ∀ q, (x.partitions.getD q []).AtMostOnce) (hheld : ∀ q i, 0 ≤ holder x.partitions q i →
      isAvailableId x.members (holder x.partitions q i) = true ∨ holder x.partitions q i = x.mid) :
    TableSound x.members (PartitionManager.balanceOk x.partitions x.balance) := by
  have hid : x.balancer.member.id = x.mid := hids x.mid hmid (.inr rfl)
  have hlive : x.balancer.Live x.start := by
    refine ⟨fun q hq => ?_, hshaped.rows, fun q i hi => ?_⟩
    · have hq' : q < x.partitions.length := hq
      exact hshaped.replicas q (hshaped.rows ▸ hq')
    · rw [hid]
      exact hheld q i hi
  have hnew :=
    SimplePartitionBalancer.rebalance_sound (b := x.balancer) hids hmid hstate hlive honce
  obtain ⟨w₁, hedits₁, hedits₂⟩ := x.balancer.rebalance_edits hmid x.start
  have hrows : x.newPartitions.length = x.config.partitionCount := by
    have h₁ := SimplePartitionBalancer.Edits.length_eq _ hedits₁
    have h₂ := SimplePartitionBalancer.Edits.length_eq _ hedits₂
    exact (h₂.trans h₁).trans hshaped.rows
  have hcells : ∀ q < x.config.partitionCount,
      (x.newPartitions.getD q []).length = x.config.maxReplicaCount := by
    intro q hq
    have hshape₁ := SimplePartitionBalancer.Edits.shaped _ hedits₁ hlive.shaped
    have hshape₂ := SimplePartitionBalancer.Edits.shaped _ hedits₂ hshape₁
    exact hshape₂ q (by rw [← hrows] at hq; exact hq)
  have hnewShaped : TableShaped x.config x.newPartitions := ⟨hrows, hcells⟩
  have happlied := PartitionManager.TableShaped.balanceOk hshaped x.balance
  -- the table with the delta applied has the holders of the new table
  have hsame : ∀ q i, holder (PartitionManager.balanceOk x.partitions x.balance) q i =
      holder x.newPartitions q i := by
    intro q i
    by_cases hin : q < x.config.partitionCount ∧ i < x.config.maxReplicaCount
    · obtain ⟨hq, hi⟩ := hin
      have hfirst := hshaped.replicas 0 (by omega)
      have hcell : PartitionManager.tableCell (PartitionManager.balanceOk x.partitions x.balance)
          q i =
          PartitionManager.appliedCell (PartitionManager.tableCell x.partitions q i)
            (PartitionManager.tableCell x.newPartitions q i) :=
        PartitionManager.tableCell_balanceOk_generate (by rw [hshaped.rows]; exact hq)
          (by rw [getReplicaCount, hfirst, Nat.mod_eq_of_lt hlt]; exact hi)
          (by rw [hshaped.replicas q hq]; exact hi)
      exact (congrArg Cell.memberId hcell).trans (PartitionManager.appliedCell_memberId _ _)
    · rw [happlied.holder_of_out hin, hnewShaped.holder_of_out hin]
  refine TableSound.congr ⟨hnew.1, fun q i hi => ?_⟩ hsame
  exact hnew.2 q i hi

end Idgs.Cluster
