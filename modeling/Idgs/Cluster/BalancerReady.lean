import Mathlib.Tactic.IntervalCases
import Idgs.Cluster.PartitionManager

/-!
# Which rebalancings keep a partition's data

A replica holds data when its cell is at least `PS_READY`, and it can serve when its holder is
available. `setMember` overwrites a cell with `PS_INIT`; the replica it displaces survives only if a
later cell is empty. A rebalancing therefore keeps the data of a partition exactly when none of its
`setMember` calls overwrites the last such replica without a cell to move it to.
-/

namespace Idgs.Cluster

open Partition List

namespace SimplePartitionBalancer

variable (b : SimplePartitionBalancer)

/-- The replica in a cell has the data and belongs to an available member. -/
def serves (c : Cell) : Bool := b.isAvailable c.memberId && c.state.isReady

/-- The call overwrites the last serving replica of its partition, and there is no later empty
cell. -/
def DropsLast (call : SetMemberCall) : Prop :=
  b.serves (call.before.cell call.pos) = true ∧ b.movesTo call.before call.pos call.mid = none ∧
    ∀ i < call.before.length, i ≠ call.pos → b.serves (call.before.cell i) = false

instance (call : SetMemberCall) : Decidable (b.DropsLast call) := by
  unfold DropsLast
  infer_instance

/-! ## Serving replicas across one edit -/

theorem serves_default : b.serves {} = false := by
  simp [serves, isAvailable, isAvailableId]

theorem serves_init (mid : ℤ) : b.serves ⟨mid, .init⟩ = false := by
  simp [serves]

theorem not_serves_of_neg {c : Cell} (h : c.memberId < 0) : b.serves c = false := by
  simp [serves, isAvailable, isAvailableId, h]

theorem exists_serves_iff (p : Partition) :
    (∃ c ∈ p, b.serves c = true) ↔ ∃ i, b.serves (p.cell i) = true := by
  constructor
  · rintro ⟨c, hc, hserves⟩
    obtain ⟨i, -, rfl⟩ := exists_cell_of_mem hc
    exact ⟨i, hserves⟩
  · rintro ⟨i, hserves⟩
    by_cases hi : i < p.length
    · exact ⟨p.cell i, cell_mem hi, hserves⟩
    · rw [cell_of_length_le (by omega), b.serves_default] at hserves
      cases hserves

/-- `setMember` keeps a serving replica unless it drops the last one. -/
theorem exists_serves_place {p : Partition} {pos : ℕ} (hpos : pos < p.length)
    (hmax : b.maxReplicas ≤ p.length) (part : ℕ) (mid : ℤ) :
    (∃ c ∈ b.place p pos mid, b.serves c = true) ↔
      (∃ c ∈ p, b.serves c = true) ∧ ¬ b.DropsLast ⟨part, pos, mid, p⟩ := by
  rw [exists_serves_iff, exists_serves_iff]
  constructor
  · rintro ⟨i, hi⟩
    rw [b.cell_place hpos hmax] at hi
    split at hi
    · rw [b.serves_init] at hi
      cases hi
    · rename_i hne
      split at hi
      · rename_i hmoves
        refine ⟨⟨pos, hi⟩, fun hdrops => ?_⟩
        rw [hdrops.2.1] at hmoves
        cases hmoves
      · refine ⟨⟨i, hi⟩, fun hdrops => ?_⟩
        have hlt : i < p.length := by
          by_contra hge
          rw [cell_of_length_le (by omega), b.serves_default] at hi
          cases hi
        rw [hdrops.2.2 i hlt hne] at hi
        cases hi
  · rintro ⟨⟨i, hi⟩, hkeeps⟩
    by_cases hother : ∃ j, j ≠ pos ∧ b.serves (p.cell j) = true
    · -- another serving replica stays where it is: a cell that is moved into was empty
      obtain ⟨j, hne, hj⟩ := hother
      refine ⟨j, ?_⟩
      rw [b.cell_place hpos hmax, if_neg hne, if_neg, hj]
      intro hmoves
      rw [b.not_serves_of_neg (b.movesTo_spec hmoves).2.2.2] at hj
      cases hj
    · -- the replica at `pos` is the only one, so it must have been moved
      have hi' : i = pos := by
        by_contra hne
        exact hother ⟨i, hne, hi⟩
      subst hi'
      cases hmoves : b.movesTo p i mid with
      | some j =>
        refine ⟨j, ?_⟩
        obtain ⟨-, hlt, -, -⟩ := b.movesTo_spec hmoves
        rw [b.cell_place hpos hmax, if_neg (by omega), if_pos hmoves, hi]
      | none =>
        refine absurd ⟨hi, hmoves, fun j _ hne => ?_⟩ hkeeps
        by_contra hserves
        exact hother ⟨j, hne, by simpa using hserves⟩

theorem exists_serves_swapCells {p : Partition} {pos1 pos2 : ℕ} (h1 : pos1 < p.length)
    (h2 : pos2 < p.length) :
    (∃ c ∈ swapCells p pos1 pos2, b.serves c = true) ↔ ∃ c ∈ p, b.serves c = true := by
  rw [exists_serves_iff, exists_serves_iff]
  constructor
  · rintro ⟨i, hi⟩
    rw [cell_swapCells h1 h2] at hi
    split at hi
    · exact ⟨pos2, hi⟩
    · split at hi
      · exact ⟨pos1, hi⟩
      · exact ⟨i, hi⟩
  · rintro ⟨i, hi⟩
    by_cases hi1 : i = pos1
    · subst hi1
      refine ⟨pos2, ?_⟩
      rw [cell_swapCells h1 h2]
      split
      · rename_i heq
        rw [heq, hi]
      · rw [if_pos rfl, hi]
    · by_cases hi2 : i = pos2
      · subst hi2
        exact ⟨pos1, by rw [cell_swapCells h1 h2, if_pos rfl, hi]⟩
      · exact ⟨i, by rw [cell_swapCells h1 h2, if_neg hi1, if_neg hi2, hi]⟩

/-- The cells that `setMember` leaves are old ones or in state `PS_INIT`. -/
theorem mem_place {p : Partition} {pos : ℕ} {mid : ℤ} (hpos : pos < p.length)
    (hmax : b.maxReplicas ≤ p.length) {c : Cell} (hc : c ∈ b.place p pos mid) :
    c ∈ p ∨ c.state = .init := by
  obtain ⟨i, hi, rfl⟩ := exists_cell_of_mem hc
  rw [b.length_place] at hi
  rw [b.cell_place hpos hmax]
  split
  · exact .inr rfl
  · split
    · exact .inl (cell_mem hpos)
    · exact .inl (cell_mem hi)

theorem mem_swapCells {p : Partition} {pos1 pos2 : ℕ} (h1 : pos1 < p.length) (h2 : pos2 < p.length)
    {c : Cell} (hc : c ∈ swapCells p pos1 pos2) : c ∈ p := by
  obtain ⟨i, hi, rfl⟩ := exists_cell_of_mem hc
  rw [length_swapCells] at hi
  rw [cell_swapCells h1 h2]
  split
  · exact cell_mem h2
  · split
    · exact cell_mem h1
    · exact cell_mem hi

/-! ## Serving replicas over a whole call -/

/-- One call of `setMember` on a table, seen at partition `q`. -/
theorem exists_serves_setMember {w : Work} (hshape : b.Shaped w) {pos : ℕ}
    (hpos : pos < b.config.maxReplicaCount) (part : ℕ) (mid : ℤ) (q : ℕ) :
    (∃ c ∈ (b.setMember w part pos mid).partition q, b.serves c = true) ↔
      (∃ c ∈ w.partition q, b.serves c = true) ∧
        (part = q → ¬ b.DropsLast ⟨part, pos, mid, w.partition part⟩) := by
  rw [partition_setMember]
  by_cases hq : q = part
  · subst hq
    rw [if_pos rfl]
    rcases hshape.length_or b q with hrow | hnil
    · rw [b.exists_serves_place (hrow ▸ hpos) (hrow ▸ b.maxReplicas_le) q mid]
      simp
    · simp [hnil]
  · rw [if_neg hq]
    simp [Ne.symm hq]

/-- Between `w₀` and `w`, partition `q` has kept a serving replica exactly when no call dropped the
last one, and its cells are old ones or fresh. -/
structure Served (w₀ : Work) (q : ℕ) (w : Work) : Prop where
  rows : w.newPartitions.length = w₀.newPartitions.length
  shaped : b.Shaped w
  serves_iff : (∃ c ∈ w.partition q, b.serves c = true) ↔
    (∃ c ∈ w₀.partition q, b.serves c = true) ∧
      ∀ call ∈ w.calls, call.part = q → ¬ b.DropsLast call
  cells : ∀ c ∈ w.partition q, c ∈ w₀.partition q ∨ c.state = .init

theorem Served.edit {w₀ w w' : Work} {q k : ℕ} (hk : k ≤ b.config.maxReplicaCount)
    (h : b.Served w₀ q w) (hedit : b.Edit k w w') : b.Served w₀ q w' := by
  refine ⟨(hedit.length_eq b).1.trans h.rows, hedit.shaped b h.shaped, ?_, ?_⟩
  · rcases hedit.cases with ⟨part, pos, mid, hpos, rfl⟩ | ⟨part, pos1, pos2, h1, h2, rfl⟩
    · rw [b.exists_serves_setMember h.shaped (by omega), h.serves_iff]
      simp only [setMember, mem_append, mem_singleton, or_imp, forall_and, forall_eq, and_assoc]
    · have hcalls : (swapMember w part pos1 pos2).calls = w.calls := rfl
      rw [hcalls, ← h.serves_iff, partition_swapMember]
      split
      · rcases h.shaped.length_or b q with hrow | hnil
        · exact b.exists_serves_swapCells (by omega) (by omega)
        · rw [hnil, swapCells_nil]
      · rfl
  · intro c hc
    have hmax := b.maxReplicas_le
    rcases hedit.row_cases b h.shaped q with hsame | ⟨pos, mid, hpos, hrow, -, hplace⟩ |
      ⟨pos1, pos2, h1, h2, hrow, hswap⟩
    · exact h.cells c (hsame ▸ hc)
    · rw [hplace] at hc
      rcases b.mem_place (by omega) (by omega) hc with hold | hinit
      · exact h.cells c hold
      · exact .inr hinit
    · rw [hswap] at hc
      exact h.cells c (mem_swapCells (by omega) (by omega) hc)

theorem Served.edits {w₀ w w' : Work} {q k : ℕ} (hk : k ≤ b.config.maxReplicaCount)
    (h : b.Served w₀ q w) (hedits : b.Edits k w w') : b.Served w₀ q w' := by
  induction hedits with
  | refl => exact h
  | tail _ hedit ih => exact ih.edit b hk hedit

/-- The whole of a rebalancing. -/
theorem served_rebalance (hmid : b.mid < b.members.length) {w : Work} (hshape : b.Shaped w)
    (hcalls : w.calls = []) (q : ℕ) : b.Served w q (b.adjust (b.rebalance w)) := by
  obtain ⟨w₁, hcompact, hfill⟩ := b.rebalance_edits hmid w
  have hstart : b.Served w q w := ⟨rfl, hshape, by simp [hcalls], fun c hc => .inl hc⟩
  exact (hstart.edits b le_rfl hcompact).edits b b.maxReplicas_le hfill

/-! ## Leaves with enough members left drop nothing -/

/-- No call so far overwrote a serving replica. -/
def SparesServing (w : Work) : Prop :=
  ∀ call ∈ w.calls, b.serves (call.before.cell call.pos) = false

theorem SparesServing.setMember {w : Work} (h : b.SparesServing w) {part pos : ℕ} (mid : ℤ)
    (hcell : b.serves ((w.partition part).cell pos) = false) :
    b.SparesServing (b.setMember w part pos mid) := by
  intro call hcall
  rcases mem_append.mp hcall with hold | hnew
  · exact h call hold
  · obtain rfl := mem_singleton.mp hnew
    exact hcell

/-- `balanceLeave` only fills empty cells and cells of the leaving member. -/
theorem leaveStep_sparesServing (hleft : b.isAvailable b.member.id = false) {w : Work}
    (h : b.SparesServing w) (r p : ℕ) : b.SparesServing (b.leaveStep w r p) := by
  unfold leaveStep
  dsimp only
  split
  · exact h
  · rename_i hkept
    have hcell : b.serves ((w.partition p).cell r) = false := by
      rw [not_and_or, not_le, not_not] at hkept
      rcases hkept with hneg | hleaving
      · exact b.not_serves_of_neg hneg
      · have hmid : ((w.partition p).cell r).memberId = b.member.id := hleaving
        simp [serves, hmid, hleft]
    unfold fillCell
    split
    · exact h.setMember b _ hcell
    · split
      · exact h.setMember b _ hcell
      · exact h

theorem balanceLeave_sparesServing (hleft : b.isAvailable b.member.id = false) {w : Work}
    (h : b.SparesServing w) : b.SparesServing (b.balanceLeave w) := by
  refine Common.foldl_invariant _ (fun w r _ hw => ?_) h
  refine Common.foldl_invariant _ (fun w p _ hw => ?_) hw
  exact b.leaveStep_sparesServing hleft hw r p

theorem adjust_sparesServing {w : Work} (h : b.SparesServing w) : b.SparesServing (b.adjust w) := by
  refine Common.foldl_invariant _ (fun w r _ hw => ?_) h
  refine Common.foldl_invariant _ (fun w p _ hw => ?_) hw
  unfold adjustStep
  split
  · exact hw
  · exact hw

end SimplePartitionBalancer

/-! ## A call of `balance` -/

namespace BalanceInput

variable (x : BalanceInput)

/-- The joining or leaving member. -/
def member : Member := x.members.getD x.mid {}

/-- The tables that `balance` is called with: one row for each partition and one cell for each
replica, a member at most once in a partition, every cell empty or held by a store member, available
members with their position as id. -/
structure WellFormed : Prop where
  rows : x.partitions.length = x.config.partitionCount
  replicas : ∀ p ∈ x.partitions, p.length = x.config.maxReplicaCount
  replicas_lt : x.config.maxReplicaCount < 256
  nodup : ∀ p ∈ x.partitions, ∀ i < p.length, ∀ j < p.length,
    0 ≤ (p.cell i).memberId → (p.cell i).memberId = (p.cell j).memberId → i = j
  holders : ∀ p ∈ x.partitions, ∀ c ∈ p, c = {} ∨
    0 ≤ c.memberId ∧ c.memberId.toNat < x.members.length ∧
      (x.members.getD c.memberId.toNat {}).localStore = true
  ids : ∀ i < x.members.length, (x.members.getD i {}).isAvailable = true ∨ i = x.mid →
    (x.members.getD i {}).id = i
  mid_lt : x.mid < x.members.length

/-- Before the call, some member other than the leaving one holds partition `p` with its data. -/
def SurvivorReady (p : ℕ) : Prop :=
  ∃ c ∈ x.partitions.getD p [], c.state.isReady = true ∧ 0 ≤ c.memberId ∧
    ¬ (x.member.state = .inactive ∧ c.memberId = x.member.id)

/-- If a surviving member had the data of partition `p`, an available member has it in `table`,
which then has a primary member. -/
def KeepsReady (table : List Partition) (p : ℕ) : Prop :=
  x.SurvivorReady p →
    (∃ c ∈ table.getD p [], x.balancer.serves c = true) ∧ (table.getD p []).getPrimaryMemberId ≠ -1

/-- If a surviving member had the data of partition `p`, then an available member had it, and no
`setMember` of the call overwrites the last such replica without a later empty cell. -/
def NeverDropsLast (p : ℕ) : Prop :=
  x.SurvivorReady p →
    (∃ c ∈ x.partitions.getD p [], x.balancer.serves c = true) ∧
      ∀ call ∈ x.result.calls, call.part = p → ¬ x.balancer.DropsLast call

instance (p : ℕ) : Decidable (x.SurvivorReady p) := by
  unfold SurvivorReady
  infer_instance

instance (table : List Partition) (p : ℕ) : Decidable (x.KeepsReady table p) := by
  unfold KeepsReady
  infer_instance

instance (p : ℕ) : Decidable (x.NeverDropsLast p) := by
  unfold NeverDropsLast
  infer_instance

variable {x}

section

variable (h : x.WellFormed)

include h

theorem WellFormed.row_mem {p : ℕ} (hp : p < x.config.partitionCount) :
    x.partitions.getD p [] ∈ x.partitions := by
  have hlt : p < x.partitions.length := h.rows ▸ hp
  simp [getElem?_eq_getElem hlt]

theorem WellFormed.served (p : ℕ) :
    x.balancer.Served x.start p x.result := by
  refine x.balancer.served_rebalance h.mid_lt (fun q hq => ?_) rfl p
  have hq' : q < x.partitions.length := hq
  exact h.replicas _ (h.row_mem (h.rows ▸ hq'))

theorem WellFormed.length_newPartition {p : ℕ} (hp : p < x.config.partitionCount) :
    (x.newPartitions.getD p []).length = x.config.maxReplicaCount := by
  have hserved := h.served p
  have hrows : x.result.newPartitions.length = x.partitions.length := hserved.rows
  exact hserved.shaped p (by rw [hrows, h.rows]; exact hp)

/-- A row whose cells with data are cells of a well-formed row has a primary member if it has
data. -/
theorem WellFormed.getPrimaryMemberId_ne {p : ℕ}
    (hp : p < x.config.partitionCount) {row : Partition}
    (hcells : ∀ c ∈ row, c ∈ x.partitions.getD p [] ∨ c.state = .init)
    (hready : ∃ c ∈ row, c.state.isReady = true) : row.getPrimaryMemberId ≠ -1 := by
  unfold getPrimaryMemberId
  cases hfind : row.find? fun c => c.state.isReady with
  | none =>
    obtain ⟨c, hc, hstate⟩ := hready
    exact absurd hstate (by simpa using find?_eq_none.mp hfind c hc)
  | some c =>
    have hstate : c.state.isReady = true := by simpa using find?_some hfind
    intro hneg
    rcases hcells c (mem_of_find?_eq_some hfind) with hold | hinit
    · rcases h.holders _ (h.row_mem hp) c hold with rfl | ⟨hpos, -⟩
      · cases hstate
      · have hid : c.memberId = -1 := hneg
        omega
    · rw [hinit] at hstate
      cases hstate

/-- The cells of the table that the members hold after applying the event of the call. -/
theorem WellFormed.cell_balanceOk {p i : ℕ} (hp : p < x.config.partitionCount)
    (hi : i < x.config.maxReplicaCount) :
    cell ((PartitionManager.balanceOk x.partitions x.balance).getD p []) i =
      PartitionManager.appliedCell (cell (x.partitions.getD p []) i)
        (cell (x.newPartitions.getD p []) i) := by
  have hrow := h.replicas _ (h.row_mem hp)
  have hfirst := h.replicas _ (h.row_mem (p := 0) (by omega))
  refine PartitionManager.tableCell_balanceOk_generate (h.rows ▸ hp) ?_ (hrow.symm ▸ hi)
  rw [getReplicaCount, hfirst, Nat.mod_eq_of_lt h.replicas_lt]
  exact hi

/-- A replica with data in the new table is unchanged by going through the event. -/
theorem WellFormed.appliedCell_of_ready {p i : ℕ}
    (hp : p < x.config.partitionCount) (hi : i < x.config.maxReplicaCount)
    (hready : (cell (x.newPartitions.getD p []) i).state.isReady = true)
    (hpos : 0 ≤ (cell (x.newPartitions.getD p []) i).memberId) :
    PartitionManager.appliedCell (cell (x.partitions.getD p []) i)
      (cell (x.newPartitions.getD p []) i) = cell (x.newPartitions.getD p []) i := by
  unfold PartitionManager.appliedCell
  split
  · rename_i hsame
    -- the cell is an old one, and its member was in the partition only once
    have hserved := h.served p
    have hlen : i < (x.newPartitions.getD p []).length := lt_length_of_memberId hpos
    have hrow := h.replicas _ (h.row_mem hp)
    rcases hserved.cells _ (cell_mem hlen) with hold | hinit
    · obtain ⟨j, hj, hcell⟩ := exists_cell_of_mem hold
      have hids : (cell (x.partitions.getD p []) i).memberId =
          (cell (x.partitions.getD p []) j).memberId := by
        rw [hsame]
        exact congrArg Cell.memberId hcell.symm
      have hij := h.nodup _ (h.row_mem hp) i (hrow ▸ hi) j hj (hsame ▸ hpos) hids
      subst hij
      exact hcell
    · have hinit' : (cell (x.newPartitions.getD p []) i).state = .init := hinit
      rw [hinit'] at hready
      cases hready
  · rfl

/-- The cells with data that the members hold after applying the event are old cells. -/
theorem WellFormed.mem_balanceOk {p : ℕ} (hp : p < x.config.partitionCount) :
    ∀ c ∈ (PartitionManager.balanceOk x.partitions x.balance).getD p [],
      c ∈ x.partitions.getD p [] ∨ c.state = .init := by
  intro c hc
  obtain ⟨i, hi, rfl⟩ := exists_cell_of_mem hc
  have hrow := h.replicas _ (h.row_mem hp)
  rw [PartitionManager.length_getD_balanceOk, hrow] at hi
  rw [h.cell_balanceOk hp hi]
  unfold PartitionManager.appliedCell
  split
  · exact .inl (cell_mem (hrow.symm ▸ hi))
  · have hserved := h.served p
    exact hserved.cells _ (cell_mem ((h.length_newPartition hp).symm ▸ hi))

/-- When a member leaves and more members than replicas stay, no call drops a serving replica. -/
theorem WellFormed.not_dropsLast_of_leave (hleft : x.member.state = .inactive)
    (hmany : x.config.maxReplicaCount < x.members.countP Member.isAvailable) :
    ∀ call ∈ x.result.calls, ¬ x.balancer.DropsLast call := by
  have hid : x.balancer.member.id = x.mid := h.ids _ h.mid_lt (.inr rfl)
  have hgone : x.balancer.isAvailable x.balancer.member.id = false := by
    rw [hid, SimplePartitionBalancer.isAvailable, isAvailableId, Int.toNat_natCast]
    have hinactive : (x.balancer.members.getD x.mid {}).isAvailable = false :=
      Member.not_isAvailable_of_inactive hleft
    rw [hinactive, Bool.and_false]
  have hstrategy : x.balancer.rebalance x.start = x.balancer.balanceLeave x.start := by
    have hstate : x.balancer.member.state = .inactive := hleft
    have hcount : ¬ x.balancer.totalAvailableMemberCount ≤ x.balancer.config.maxReplicaCount :=
      Nat.not_le.mpr hmany
    rw [SimplePartitionBalancer.rebalance, if_neg hcount, if_pos hstate]
  have hnone : x.balancer.SparesServing x.start := fun call hcall => absurd hcall not_mem_nil
  have hspares : x.balancer.SparesServing x.result := by
    unfold result
    rw [hstrategy]
    exact x.balancer.adjust_sparesServing (x.balancer.balanceLeave_sparesServing hgone hnone)
  intro call hcall hdrops
  have hserves := hdrops.1
  rw [hspares call hcall] at hserves
  cases hserves

end

/-- Member `mid` leaves a partition whose data is on members 1 and 2, with member 0 still
migrating. -/
def leaveOf (mid : ℕ) : BalanceInput where
  oracle := ⟨id, fun _ _ => 0⟩
  config := ⟨1, 3⟩
  members := (List.range 3).map fun (i : ℕ) =>
    { id := i, state := if i = mid then .inactive else .active }
  partitions := [[⟨1, .ready⟩, ⟨0, .migrating⟩, ⟨2, .ready⟩]]
  mid := mid

theorem leaveOf_wellFormed {mid : ℕ} (hmid : mid < 3) : (leaveOf mid).WellFormed where
  rows := rfl
  replicas := by simp [leaveOf]
  replicas_lt := by simp [leaveOf]
  nodup := by simp only [leaveOf]; decide
  holders := by interval_cases mid <;> decide
  ids := by interval_cases mid <;> decide
  mid_lt := by simpa [leaveOf] using hmid

end BalanceInput

end Idgs.Cluster
