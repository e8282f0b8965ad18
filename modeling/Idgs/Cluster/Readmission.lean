import Mathlib.Data.List.Nodup
import Mathlib.Data.List.TakeWhile
import Idgs.Cluster.BalancerMoves

/-!
# Members that are dropped from a partition and put back

A rebalancing may drop a member from a partition, when a later cell is not free for it, and put it
back further on as an empty replica. The event that it multicasts and the migrations that follow
from it look at member ids only. So where such a member ends in its old cell, the members keep a
state that the balancer has reset, and where it ends in another cell, its replica is reset and
nobody fills it.
-/

namespace Idgs.Cluster

open Partition List

/-! ## Migrations -/

/-- The commands of a `MigrateAction`. -/
inductive MigrateCommand
  | new | del
deriving DecidableEq

/-- `MigrateAction`. -/
structure MigrateAction where
  partitionId : ℕ
  memberId : ℤ
  command : MigrateCommand
deriving DecidableEq

namespace BalancerUtil

/-- The members that are in the items of a partition as old ones, and not in the table any more. -/
def delActions (part : Partition) (pid : ℕ) (items : List DeltaPartitionItem) :
    List MigrateAction :=
  items.filterMap fun item =>
    if 0 ≤ item.oldMid ∧ ∀ i < part.getReplicaCount, part.getMemberId i ≠ item.oldMid then
      some ⟨pid, item.oldMid, .del⟩
    else none

/-- Whether a member is among the new ones of the items, and not among the old ones. -/
def isNew (items : List DeltaPartitionItem) (mid : ℤ) : Bool :=
  decide (0 ≤ mid) && (items.any fun item => item.newMid == mid) && !items.any fun item =>
    item.oldMid == mid

/-- The members of the table that are in the items of a partition as new ones only. -/
def newActions (part : Partition) (pid : ℕ) (items : List DeltaPartitionItem) :
    List MigrateAction :=
  (List.range part.getReplicaCount).filterMap fun i =>
    if isNew items (part.getMemberId i) then some ⟨pid, part.getMemberId i, .new⟩ else none

/-- `BalancerUtil::generateMigrateActionList`: the items are taken in runs of one partition. -/
def generateMigrateActionList (partitions : List Partition) :
    DeltaPartitionEvent → List MigrateAction
  | [] => []
  | item :: evt =>
    let pid := item.partId
    let items := item :: evt.takeWhile fun next => next.partId == pid
    delActions (partitions.getD pid []) pid items ++
      newActions (partitions.getD pid []) pid items ++
      generateMigrateActionList partitions (evt.dropWhile fun next => next.partId == pid)
termination_by evt => evt.length
decreasing_by
  exact Nat.lt_succ_of_le (List.dropWhile_sublist _).length_le

theorem mem_delActions_command {part : Partition} {pid : ℕ} {items : List DeltaPartitionItem}
    {a : MigrateAction} (h : a ∈ delActions part pid items) : a.command = .del := by
  obtain ⟨item, -, hitem⟩ := mem_filterMap.mp h
  split at hitem
  · rw [← Option.some.inj hitem]
  · cases hitem

theorem mem_newActions {part : Partition} {pid : ℕ} {items : List DeltaPartitionItem}
    {a : MigrateAction} :
    a ∈ newActions part pid items ↔
      ∃ i < part.getReplicaCount,
        isNew items (part.getMemberId i) = true ∧ a = ⟨pid, part.getMemberId i, .new⟩ := by
  rw [newActions, mem_filterMap]
  refine exists_congr fun i => ?_
  rw [mem_range]
  refine and_congr_right fun _ => ?_
  split
  · rename_i hnew
    exact ⟨fun h => ⟨hnew, (Option.some.inj h).symm⟩, fun h => congrArg some h.2.symm⟩
  · rename_i hnew
    exact ⟨fun h => absurd h (Option.some_ne_none _).symm, fun h => absurd h.1 hnew⟩

/-- The new actions for a partition with nothing new. -/
theorem newActions_nil (part : Partition) (pid : ℕ) : newActions part pid [] = [] := by
  refine eq_nil_iff_forall_not_mem.mpr fun a ha => ?_
  obtain ⟨i, -, hnew, -⟩ := mem_newActions.mp ha
  simp [isNew] at hnew

/-- In items that are sorted by partition, those after a run belong to later partitions. -/
theorem lt_of_mem_dropWhile {pid : ℕ} {evt : DeltaPartitionEvent}
    (hsorted : evt.Pairwise fun x y => x.partId ≤ y.partId)
    (hle : ∀ item ∈ evt, pid ≤ item.partId) :
    ∀ item ∈ evt.dropWhile fun next => next.partId == pid, pid < item.partId := by
  induction evt with
  | nil => exact fun item hitem => absurd hitem not_mem_nil
  | cons first evt ih =>
    obtain ⟨hfirst, hsorted⟩ := pairwise_cons.mp hsorted
    intro item hitem
    by_cases hpid : first.partId = pid
    · rw [dropWhile_cons_of_pos (by simpa using hpid)] at hitem
      exact ih hsorted (fun item hitem => hle item (mem_cons_of_mem _ hitem)) item hitem
    · rw [dropWhile_cons_of_neg (by simpa using hpid)] at hitem
      have hlt : pid < first.partId :=
        Nat.lt_of_le_of_ne (hle first mem_cons_self) (Ne.symm hpid)
      rcases mem_cons.mp hitem with rfl | hmem
      · exact hlt
      · exact Nat.lt_of_lt_of_le hlt (hfirst item hmem)

/-- The new actions of a partition come from its own items. -/
theorem count_generateMigrateActionList (partitions : List Partition) {evt : DeltaPartitionEvent}
    (hsorted : evt.Pairwise fun x y => x.partId ≤ y.partId) (p : ℕ) (mid : ℤ) :
    (generateMigrateActionList partitions evt).count ⟨p, mid, .new⟩ =
      (newActions (partitions.getD p []) p (evt.filter fun item => item.partId == p)).count ⟨p, mid,
        .new⟩ := by
  fun_induction generateMigrateActionList partitions evt with
  | case1 => rw [filter_nil, newActions_nil]
  | case2 item evt pid items ih =>
    obtain ⟨hitem, hrest⟩ := pairwise_cons.mp hsorted
    have hdrop := ih (hrest.sublist (dropWhile_sublist _))
    have hdel : (delActions (partitions.getD pid []) pid items).count ⟨p, mid, .new⟩ = 0 :=
      count_eq_zero.mpr fun hmem => by cases mem_delActions_command hmem
    rw [count_append, count_append, hdel, Nat.zero_add, hdrop]
    have hsplit : evt.filter (fun item => item.partId == p) =
        (evt.takeWhile fun next => next.partId == pid).filter (fun item => item.partId == p) ++
          (evt.dropWhile fun next => next.partId == pid).filter (fun item =>
          item.partId == p) := by
      rw [← filter_append, takeWhile_append_dropWhile]
    by_cases hp : pid = p
    · -- the run has all items of the partition
      have hnone : (evt.dropWhile fun next => next.partId == pid).filter (fun item =>
          item.partId == p) = [] := by
        refine filter_eq_nil_iff.mpr fun later hlater heq => ?_
        have hlt := lt_of_mem_dropWhile hrest hitem later hlater
        have hsame : later.partId = p := by simpa using heq
        omega
      have hrun : (evt.takeWhile fun next => next.partId == pid).filter (fun item =>
          item.partId == p) =
          evt.takeWhile fun next => next.partId == pid :=
        filter_eq_self.mpr fun next hnext => by
          have hpid : next.partId = pid := by simpa using mem_takeWhile_imp hnext
          simpa using hpid.trans hp
      rw [hnone, newActions_nil, count_nil, Nat.add_zero,
        filter_cons_of_pos (by simpa using hp), hsplit, hnone, hrun, append_nil, ← hp]
    · have hother : (newActions (partitions.getD pid []) pid items).count ⟨p, mid, .new⟩ = 0 := by
        refine count_eq_zero.mpr fun hmem => ?_
        obtain ⟨i, -, -, haction⟩ := mem_newActions.mp hmem
        exact hp (congrArg MigrateAction.partitionId haction).symm
      have hrun : (evt.takeWhile fun next => next.partId == pid).filter (fun item =>
          item.partId == p) = [] := by
        refine filter_eq_nil_iff.mpr fun next hnext heq => hp ?_
        have hpid : next.partId = pid := by simpa using mem_takeWhile_imp hnext
        have hsame : next.partId = p := by simpa using heq
        exact hpid.symm.trans hsame
      rw [hother, Nat.zero_add, filter_cons_of_neg (by simpa using hp), hsplit, hrun, nil_append]

/-- A member that is in one cell of the partition at most gets at most one new action. -/
theorem count_newActions {part : Partition} (honce : part.AtMostOnce) (pid : ℕ)
    (items : List DeltaPartitionItem) {i : ℕ} (hi : i < part.getReplicaCount)
    (hnew : isNew items (part.getMemberId i) = true) :
    (newActions part pid items).count ⟨pid, part.getMemberId i, .new⟩ = 1 := by
  have honly : (newActions part pid items).Nodup := by
    refine nodup_range.filterMap fun j k a hj hk => ?_
    rw [Option.mem_def] at hj hk
    split at hj
    · rename_i hnewj
      split at hk
      · have hids := congrArg MigrateAction.memberId (Option.some.inj (hj.trans hk.symm))
        rw [isNew, Bool.and_eq_true, Bool.and_eq_true] at hnewj
        exact honce j k (of_decide_eq_true hnewj.1.1) hids
      · cases hk
    · cases hj
  exact count_eq_one_of_mem honly (mem_newActions.mpr ⟨i, hi, hnew, rfl⟩)

end BalancerUtil

/-! ## Members that the call puts into a partition -/

/-- A member has been put into a partition. -/
def Work.PutIn (w : Work) (q : ℕ) (mid : ℤ) : Prop :=
  ∃ call ∈ w.calls, call.part = q ∧ call.mid = mid

/-- The replicas of partition `q`: of a member that has been put there, without data; of another, as
before. -/
structure Work.Traced (w₀ : Work) (q : ℕ) (w : Work) : Prop where
  fresh : ∀ c ∈ (w.partition q).held, w.PutIn q c.memberId → c.state = .init
  old : ∀ c ∈ (w.partition q).held, ¬ w.PutIn q c.memberId → c ∈ (w₀.partition q).held

namespace SimplePartitionBalancer

variable (b : SimplePartitionBalancer)

theorem putIn_setMember {w : Work} {part pos q : ℕ} {mid m : ℤ} :
    (b.setMember w part pos mid).PutIn q m ↔ w.PutIn q m ∨ part = q ∧ mid = m := by
  unfold Work.PutIn setMember
  constructor
  · rintro ⟨call, hcall, hput⟩
    rcases mem_append.mp hcall with hold | hnew
    · exact .inl ⟨call, hold, hput⟩
    · obtain rfl := mem_singleton.mp hnew
      exact .inr hput
  · rintro (⟨call, hcall, hput⟩ | hput)
    · exact ⟨call, mem_append_left _ hcall, hput⟩
    · exact ⟨_, mem_append_right _ (mem_singleton_self _), hput⟩

theorem putIn_swapMember {w : Work} {part pos1 pos2 q : ℕ} {m : ℤ} :
    (swapMember w part pos1 pos2).PutIn q m ↔ w.PutIn q m := Iff.rfl

theorem traced_setMember {w₀ w : Work} {q : ℕ} (h : w₀.Traced q w) (hshape : b.Shaped w)
    {part pos : ℕ} (hpos : pos < b.config.maxReplicaCount) {mid : ℤ}
    (hmid : mid < 0 ∨ ∀ i, ((w.partition part).cell i).memberId ≠ mid) :
    w₀.Traced q (b.setMember w part pos mid) := by
  have hmax := b.maxReplicas_le
  by_cases hq : part = q
  · subst hq
    -- a replica is the new one, or was there before and has another member
    have hcells : ∀ c ∈ ((b.setMember w part pos mid).partition part).held,
        c = ⟨mid, .init⟩ ∨ c ∈ (w.partition part).held ∧ c.memberId ≠ mid := by
      intro c hc
      obtain ⟨hnonneg, i, hi⟩ := mem_held.mp hc
      have hne : c ∈ (w.partition part).held → c.memberId ≠ mid := by
        intro hc heq
        obtain ⟨-, j, hj⟩ := mem_held.mp hc
        rcases hmid with hneg | hnot
        · omega
        · exact hnot j (hj ▸ heq)
      rw [partition_setMember, if_pos rfl] at hi
      rcases hshape.length_or b part with hrow | hnil
      · rw [b.cell_place (by omega) (by omega)] at hi
        split at hi
        · exact .inl hi.symm
        · split at hi
          · have hold := mem_held.mpr ⟨hnonneg, pos, hi⟩
            exact .inr ⟨hold, hne hold⟩
          · have hold := mem_held.mpr ⟨hnonneg, i, hi⟩
            exact .inr ⟨hold, hne hold⟩
      · rw [hnil, place_nil, cell_nil] at hi
        rw [← hi] at hnonneg
        exact absurd hnonneg (by decide)
    refine ⟨fun c hc hput => ?_, fun c hc hput => ?_⟩
    · rcases hcells c hc with rfl | ⟨hold, hne⟩
      · rfl
      · rcases b.putIn_setMember.mp hput with hput | ⟨-, heq⟩
        · exact h.fresh c hold hput
        · exact absurd heq.symm hne
    · rcases hcells c hc with rfl | ⟨hold, -⟩
      · exact absurd (b.putIn_setMember.mpr (.inr ⟨rfl, rfl⟩)) hput
      · exact h.old c hold fun hput' => hput (b.putIn_setMember.mpr (.inl hput'))
  · have hrow : (b.setMember w part pos mid).partition q = w.partition q := by
      rw [partition_setMember, if_neg (Ne.symm hq)]
    have hputs : ∀ m, (b.setMember w part pos mid).PutIn q m ↔ w.PutIn q m := fun m =>
      b.putIn_setMember.trans (or_iff_left fun hput => hq hput.1)
    refine ⟨fun c hc hput => ?_, fun c hc hput => ?_⟩
    · exact h.fresh c (hrow ▸ hc) ((hputs _).mp hput)
    · exact h.old c (hrow ▸ hc) fun hput' => hput ((hputs _).mpr hput')

theorem traced_edit {w₀ w w' : Work} {q k : ℕ} (hk : k ≤ b.config.maxReplicaCount)
    (h : w₀.Traced q w)
    (hshape : b.Shaped w) (htail : k = b.maxReplicas → b.TailEmpty w) (hedit : b.Edit k w w') :
    w₀.Traced q w' := by
  cases hedit with
  | clear part pos hpos => exact b.traced_setMember h hshape (by omega) (.inl (by decide))
  | put part pos i hk' hpos hput hcheck =>
    exact b.traced_setMember h hshape (by omega) (b.ne_of_checkMember (htail hk' part) hcheck)
  | swap part pos1 pos2 h1 h2 =>
    have hheld : ((swapMember w part pos1 pos2).partition q).held = (w.partition q).held :=
      b.held_swapMember hshape (by omega) (by omega) part q
    refine ⟨fun c hc hput => ?_, fun c hc hput => ?_⟩
    · exact h.fresh c (hheld ▸ hc) (putIn_swapMember.mp hput)
    · exact h.old c (hheld ▸ hc) fun hput' => hput (putIn_swapMember.mpr hput')

/-- Edits within all cells: where they put members, there are no further cells. -/
theorem traced_edits_all {w₀ w w' : Work} {q : ℕ} (h : w₀.Traced q w) (hshape : b.Shaped w)
    (hedits : b.Edits b.config.maxReplicaCount w w') : w₀.Traced q w' := by
  induction hedits with
  | refl => exact h
  | tail hprev hedit ih =>
    have hmid := Edits.shaped b hprev hshape
    refine b.traced_edit le_rfl ih hmid (fun hall p i hi => ?_) hedit
    exact b.memberId_neg_of_le hmid (hall ▸ hi)

/-- Edits within the first `max_replicas` cells, with empty cells after them. -/
theorem traced_edits {w₀ w w' : Work} {q : ℕ} (h : w₀.Traced q w) (hshape : b.Shaped w)
    (htail : b.TailEmpty w) (hedits : b.Edits b.maxReplicas w w') :
    w₀.Traced q w' ∧ b.TailEmpty w' := by
  induction hedits with
  | refl => exact ⟨h, htail⟩
  | tail hprev hedit ih =>
    have hmid := Edits.shaped b hprev hshape
    exact ⟨b.traced_edit b.maxReplicas_le ih.1 hmid (fun _ => ih.2) hedit,
      hedit.tailEmpty b hmid ih.2⟩

/-- The whole of a rebalancing. -/
theorem traced_rebalance (hmid : b.mid < b.members.length) {w : Work} (hshape : b.Shaped w)
    (hrows : w.newPartitions.length = b.config.partitionCount) (hcalls : w.calls = []) (q : ℕ) :
    w.Traced q (b.adjust (b.rebalance w)) := by
  have hstart : w.Traced q w := by
    refine ⟨fun c _ hput => ?_, fun c hc _ => hc⟩
    obtain ⟨call, hcall, -⟩ := hput
    rw [hcalls] at hcall
    cases hcall
  obtain ⟨w₁, hcompact, htail, hfill⟩ := b.rebalance_edits_tailEmpty hmid hshape hrows
  have hfirst := b.traced_edits_all hstart hshape hcompact
  exact (b.traced_edits hfirst (Edits.shaped b hcompact hshape) htail hfill).1

end SimplePartitionBalancer

/-! ## A call of `balance` -/

namespace BalanceInput

variable (x : BalanceInput)

/-- Cell `i` of the partition was held in a state other than `PS_INIT`, and `setMember` has put its
member into the partition. -/
def Readmitted (p i : ℕ) : Prop :=
  0 ≤ (cell (x.partitions.getD p []) i).memberId ∧ (cell (x.partitions.getD p []) i).state ≠ .init ∧
    x.result.PutIn p (cell (x.partitions.getD p []) i).memberId

/-- The replica in cell `i` before is in cell `j` of the table that `balance` computes. -/
def StaysIn (p i j : ℕ) : Prop :=
  (cell (x.newPartitions.getD p []) j).memberId = (cell (x.partitions.getD p []) i).memberId

/-- The table that the members hold after applying the event of the call. -/
def applied : List Partition := PartitionManager.balanceOk x.partitions x.balance

/-- Available members keep the state that they had for partition `p`. -/
def KeepsStates (p : ℕ) : Prop :=
  ∀ i j, x.balancer.isAvailable (cell (x.partitions.getD p []) i).memberId = true →
    (cell (x.applied.getD p []) j).memberId = (cell (x.partitions.getD p []) i).memberId →
      (cell (x.applied.getD p []) j).state = (cell (x.partitions.getD p []) i).state

/-- A replica of partition `p` without data, whose member has not been without data there before, is
filled by exactly one migration. -/
def MigratesFresh (p : ℕ) : Prop :=
  ∀ j, 0 ≤ (cell (x.applied.getD p []) j).memberId → (cell (x.applied.getD p []) j).state = .init →
    ⟨(cell (x.applied.getD p []) j).memberId, .init⟩ ∉ x.partitions.getD p [] →
      (BalancerUtil.generateMigrateActionList x.applied x.balance).count
        ⟨p, (cell (x.applied.getD p []) j).memberId, .new⟩ = 1

variable {x}

section

variable (h : x.WellFormed)

include h

theorem WellFormed.traced (p : ℕ) : x.start.Traced p x.result :=
  x.balancer.traced_rebalance h.mid_lt h.shaped h.rows rfl p

/-- A replica of the new table whose member was in the same partition before: as it was, or without
data if the member has been put there. -/
theorem WellFormed.state_of_staysIn {p i j : ℕ}
    (hi : 0 ≤ (cell (x.partitions.getD p []) i).memberId) (hstays : x.StaysIn p i j) :
    (x.result.PutIn p (cell (x.partitions.getD p []) i).memberId →
        (cell (x.newPartitions.getD p []) j).state = .init) ∧
      (¬ x.result.PutIn p (cell (x.partitions.getD p []) i).memberId →
        (cell (x.newPartitions.getD p []) j).state = (cell (x.partitions.getD p []) i).state) := by
  have hheld : cell (x.newPartitions.getD p []) j ∈ (x.result.partition p).held :=
    mem_held.mpr ⟨hstays ▸ hi, j, rfl⟩
  refine ⟨fun hput => (h.traced p).fresh _ hheld (hstays ▸ hput), fun hput => ?_⟩
  obtain ⟨-, k, hk⟩ := mem_held.mp ((h.traced p).old _ hheld (hstays ▸ hput))
  have hsame : i = k := h.atMostOnce p i k hi (hstays.symm.trans (congrArg Cell.memberId hk).symm)
  have hcell : cell (x.partitions.getD p []) i = cell (x.newPartitions.getD p []) j := hsame ▸ hk
  rw [hcell]

theorem WellFormed.length_newPartitions :
    x.newPartitions.length = x.config.partitionCount :=
  (h.served 0).rows.trans h.rows

theorem WellFormed.atMostOnce_newPartitions (p : ℕ) :
    (x.newPartitions.getD p []).AtMostOnce := by
  obtain ⟨w₁, hcompact, htail, hfill⟩ :=
    x.balancer.rebalance_edits_tailEmpty h.mid_lt h.shaped h.rows
  have hfirst :=
    SimplePartitionBalancer.Edits.atMostOnce_of_all x.balancer hcompact h.shaped h.atMostOnce
  have hshape := SimplePartitionBalancer.Edits.shaped x.balancer hcompact h.shaped
  exact (SimplePartitionBalancer.Edits.atMostOnce x.balancer hfill hshape htail hfirst).2 p

/-- A held cell of a row is a cell of the configuration. -/
theorem WellFormed.lt_of_held {p i : ℕ} (hi : 0 ≤ (cell (x.partitions.getD p []) i).memberId) :
    p < x.config.partitionCount ∧ i < x.config.maxReplicaCount := by
  have hlen := lt_length_of_memberId hi
  have hp : p < x.config.partitionCount := by
    by_contra hp
    rw [getD_eq_getElem?_getD, getElem?_eq_none (by rw [h.rows]; omega)] at hlen
    exact absurd hlen (Nat.not_lt_zero i)
  exact ⟨hp, h.replicas _ (h.row_mem hp) ▸ hlen⟩

theorem WellFormed.length_applied {p : ℕ} (hp : p < x.config.partitionCount) :
    (x.applied.getD p []).length = x.config.maxReplicaCount :=
  (PartitionManager.length_getD_balanceOk _ _ p).trans (h.replicas _ (h.row_mem hp))

/-- The event transmits the holders of the new table. -/
theorem WellFormed.memberId_applied (p i : ℕ) :
    (cell (x.applied.getD p []) i).memberId = (cell (x.newPartitions.getD p []) i).memberId := by
  by_cases hin : p < x.config.partitionCount ∧ i < x.config.maxReplicaCount
  · exact (congrArg Cell.memberId (h.cell_balanceOk hin.1 hin.2)).trans
      (PartitionManager.appliedCell_memberId _ _)
  · have hempty : ∀ table : List Partition, table.length = x.config.partitionCount →
        (∀ q < x.config.partitionCount, (table.getD q []).length = x.config.maxReplicaCount) →
          cell (table.getD p []) i = {} := by
      intro table hrows hcells
      by_cases hp : p < x.config.partitionCount
      · exact cell_of_length_le (by rw [hcells p hp]; omega)
      · rw [getD_eq_getElem?_getD, getElem?_eq_none (by omega), Option.getD_none, cell_nil]
    rw [hempty x.applied ((PartitionManager.length_balanceOk _ _).trans h.rows) fun q hq =>
      h.length_applied hq,
      hempty x.newPartitions h.length_newPartitions fun q hq => h.length_newPartition hq]

/-- A replica that is in the partition before and after the call keeps its state in the applied
table where it keeps its cell, and has the state of the new table elsewhere. -/
theorem WellFormed.cell_applied {p i j : ℕ}
    (hi : 0 ≤ (cell (x.partitions.getD p []) i).memberId) (hstays : x.StaysIn p i j) :
    cell (x.applied.getD p []) j =
      if i = j then cell (x.partitions.getD p []) i else cell (x.newPartitions.getD p []) j := by
  have hnew : 0 ≤ (cell (x.newPartitions.getD p []) j).memberId := hstays ▸ hi
  have hp := (h.lt_of_held hi).1
  have hj : j < x.config.maxReplicaCount := h.length_newPartition hp ▸ lt_length_of_memberId hnew
  refine (h.cell_balanceOk hp hj).trans ?_
  unfold PartitionManager.appliedCell
  by_cases hij : i = j
  · rw [if_pos hij, if_pos (hij ▸ hstays.symm), hij]
  · rw [if_neg hij, if_neg]
    intro hsame
    exact hij (h.atMostOnce p i j hi (hstays.symm.trans hsame.symm))

end

theorem cell_eq {c d : Cell} (hid : c.memberId = d.memberId) (hstate : c.state = d.state) :
    c = d := by
  cases c
  cases d
  exact congrArg₂ Cell.mk hid hstate

/-- Tables with the same cells in rows of the same lengths are equal. -/
theorem table_ext {t t' : List Partition} (hrows : t.length = t'.length)
    (hcells : ∀ p < t.length, (t.getD p []).length = (t'.getD p []).length)
    (h : ∀ p < t.length, ∀ i < (t.getD p []).length, cell (t.getD p []) i = cell (t'.getD p []) i) :
    t = t' := by
  refine ext_getElem hrows fun p hp hp' => ?_
  have hcellsp := hcells p hp
  have hp₀ := h p hp
  simp only [getD_eq_getElem?_getD, getElem?_eq_getElem hp, getElem?_eq_getElem hp',
    Option.getD_some] at hcellsp hp₀
  refine ext_getElem hcellsp fun i hi hi' => ?_
  have hcell := hp₀ i hi
  simpa [cell, getElem?_eq_getElem hi, getElem?_eq_getElem hi'] using hcell

/-- A cell without a member is the default one, in the old and in the new table. -/
theorem WellFormed.state_of_empty (h : x.WellFormed) {p i : ℕ} (hp : p < x.config.partitionCount)
    (hi : i < x.config.maxReplicaCount) (hold : ¬ 0 ≤ (cell (x.partitions.getD p []) i).memberId)
    (hnew : ¬ 0 ≤ (cell (x.newPartitions.getD p []) i).memberId) :
    (cell (x.partitions.getD p []) i).state = (cell (x.newPartitions.getD p []) i).state := by
  have hinit : ∀ c ∈ x.partitions.getD p [], ¬ 0 ≤ c.memberId → c.state = .init := by
    intro c hc hneg
    rcases h.holders _ (h.row_mem hp) c hc with rfl | ⟨hnonneg, -⟩
    · rfl
    · exact absurd hnonneg hneg
  have hrow := h.replicas _ (h.row_mem hp)
  have hnewrow := h.length_newPartition hp
  rw [hinit _ (cell_mem (by omega)) hold]
  rcases (h.served p).cells _
    (cell_mem (p := x.newPartitions.getD p []) (i := i) (by omega)) with hmem | hstate
  · exact (hinit _ hmem hnew).symm
  · exact hstate.symm

/-- When member 0 leaves three partitions of two replicas, member 2 has data for one of them. -/
def heavyLeave : BalanceInput where
  oracle := ⟨id, fun _ _ => 0⟩
  config := ⟨3, 2⟩
  members := [{ id := 0, state := .inactive }, { id := 1, state := .active },
    { id := 2, state := .active, weight := 50 }]
  partitions := [[⟨1, .init⟩, ⟨0, .ready⟩], [⟨0, .ready⟩, ⟨1, .ready⟩], [⟨2, .ready⟩, ⟨0, .init⟩]]
  mid := 0

theorem heavyLeave_wellFormed : heavyLeave.WellFormed where
  rows := rfl
  replicas := by simp [heavyLeave]
  replicas_lt := by simp [heavyLeave]
  nodup := by simp only [heavyLeave]; decide
  holders := by decide
  ids := by decide
  mid_lt := by simp [heavyLeave]

/-- When member 2 leaves, nobody is put into the partition. -/
theorem leaveOf_not_readmitted (p i : ℕ) : ¬ (leaveOf 2).Readmitted p i := by
  rintro ⟨hheld, -, call, hcall, -, hmid⟩
  have hclears : ∀ call ∈ (leaveOf 2).result.calls, call.mid < 0 := by decide +kernel
  have hneg := hclears call hcall
  omega

theorem generatePartitionDeltaList_sorted (old new : List Partition) :
    (generatePartitionDeltaList old new).Pairwise fun a b => a.partId ≤ b.partId := by
  have hpart : ∀ i, ∀ item ∈ (List.range (old.getD 0 []).getReplicaCount).filterMap fun j =>
      deltaItem? (old.getD i []) (new.getD i []) i j, item.partId = i := by
    intro i item hitem
    obtain ⟨j, -, hdelta⟩ := mem_filterMap.mp hitem
    exact (PartitionManager.deltaItem?_eq_some hdelta).1
  refine pairwise_flatMap.mpr ⟨fun i _ => ?_, ?_⟩
  · refine List.Pairwise.imp_of_mem (fun ha hb _ => ?_) (pairwise_of_forall fun _ _ => trivial)
    exact ((hpart i _ ha).trans (hpart i _ hb).symm).le
  · refine pairwise_lt_range.imp fun hlt a ha b hb => ?_
    rw [hpart _ a ha, hpart _ b hb]
    exact Nat.le_of_lt hlt

theorem balance_sorted (x : BalanceInput) : x.balance.Pairwise fun a b => a.partId ≤ b.partId :=
  generatePartitionDeltaList_sorted _ _

theorem deltaItem?_oldMid {oldPart newPart : Partition} {i j : ℕ} {item : DeltaPartitionItem}
    (h : deltaItem? oldPart newPart i j = some item) : item.oldMid = (oldPart.cell j).memberId := by
  unfold deltaItem? at h
  split at h
  · rw [← Option.some.inj h]
    rfl
  · cases h

/-- The items of a partition: one for each cell whose holder differs. -/
theorem WellFormed.mem_items (h : x.WellFormed) {p : ℕ} {item : DeltaPartitionItem} :
    item ∈ x.balance.filter (fun item => item.partId == p) ↔
      p < x.config.partitionCount ∧ ∃ j < x.config.maxReplicaCount,
        deltaItem? (x.partitions.getD p []) (x.newPartitions.getD p []) p j = some item := by
  have hcount : ∀ hp : 0 < x.config.partitionCount,
      (x.partitions.getD 0 []).getReplicaCount = x.config.maxReplicaCount := by
    intro hp
    rw [getReplicaCount, h.replicas _ (h.row_mem hp), Nat.mod_eq_of_lt h.replicas_lt]
  rw [mem_filter, beq_iff_eq, balance, PartitionManager.mem_generatePartitionDeltaList]
  constructor
  · rintro ⟨⟨i, hi, j, hj, hdelta⟩, hpart⟩
    obtain rfl : i = p := (PartitionManager.deltaItem?_eq_some hdelta).1.symm.trans hpart
    rw [h.rows] at hi
    rw [hcount (by omega)] at hj
    exact ⟨hi, j, hj, hdelta⟩
  · rintro ⟨hp, j, hj, hdelta⟩
    refine ⟨⟨p, h.rows ▸ hp, j, ?_, hdelta⟩, (PartitionManager.deltaItem?_eq_some hdelta).1⟩
    rw [hcount (by omega)]
    exact hj

/-- The new actions for a member of the applied table: one if it was not in the partition before. -/
theorem WellFormed.count_migrations (h : x.WellFormed) {p j : ℕ}
    (hj : 0 ≤ (cell (x.newPartitions.getD p []) j).memberId) (hp : p < x.config.partitionCount)
    (hnone : ∀ i, ¬ x.StaysIn p i j) :
    (BalancerUtil.generateMigrateActionList x.applied x.balance).count
      ⟨p, (cell (x.newPartitions.getD p []) j).memberId, .new⟩ = 1 := by
  have hlt : j < x.config.maxReplicaCount := h.length_newPartition hp ▸ lt_length_of_memberId hj
  rw [BalancerUtil.count_generateMigrateActionList _ x.balance_sorted, ← h.memberId_applied]
  have honce : (x.applied.getD p []).AtMostOnce := by
    intro i k hi hik
    rw [h.memberId_applied] at hi hik
    rw [h.memberId_applied] at hik
    exact h.atMostOnce_newPartitions p i k hi hik
  refine BalancerUtil.count_newActions honce p _ ?_ ?_
  · rw [getReplicaCount, h.length_applied hp, Nat.mod_eq_of_lt h.replicas_lt]
    exact hlt
  · have hid : (x.applied.getD p []).getMemberId j =
      (cell (x.newPartitions.getD p []) j).memberId :=
      h.memberId_applied p j
    rw [hid, BalancerUtil.isNew, Bool.and_eq_true, Bool.and_eq_true, Bool.not_eq_true',
      decide_eq_true_iff]
    refine ⟨⟨hj, any_eq_true.mpr ?_⟩, any_eq_false.mpr fun item hitem => ?_⟩
    · obtain ⟨item, hdelta⟩ := PartitionManager.deltaItem?_of_ne (j := j)
        (fun hsame => hnone j hsame.symm) p
      refine ⟨item, h.mem_items.mpr ⟨hp, j, hlt, hdelta⟩, ?_⟩
      have happly := (PartitionManager.deltaItem?_eq_some hdelta).2.2.2
      rw [beq_iff_eq, ← happly]
      rfl
    · obtain ⟨-, i, -, hdelta⟩ := h.mem_items.mp hitem
      rw [beq_iff_eq]
      intro hold
      exact hnone i (hold.symm.trans (deltaItem?_oldMid hdelta))

/-- No new action is for a member that an item removes from another cell of the partition. -/
theorem WellFormed.count_migrations_eq_zero (h : x.WellFormed) {p i j : ℕ}
    (hi : 0 ≤ (cell (x.partitions.getD p []) i).memberId) (hstays : x.StaysIn p i j) (hij : i ≠ j) :
    (BalancerUtil.generateMigrateActionList x.applied x.balance).count
      ⟨p, (cell (x.partitions.getD p []) i).memberId, .new⟩ = 0 := by
  rw [BalancerUtil.count_generateMigrateActionList _ x.balance_sorted]
  refine count_eq_zero.mpr fun hmem => ?_
  obtain ⟨k, -, hnew, haction⟩ := BalancerUtil.mem_newActions.mp hmem
  have hid : (cell (x.partitions.getD p []) i).memberId = (x.applied.getD p []).getMemberId k :=
    congrArg MigrateAction.memberId haction
  rw [← hid, BalancerUtil.isNew, Bool.and_eq_true, Bool.not_eq_true'] at hnew
  have hmoved : (cell (x.partitions.getD p []) i).memberId ≠
      (cell (x.newPartitions.getD p []) i).memberId := by
    intro hsame
    have hnewi : 0 ≤ (cell (x.newPartitions.getD p []) i).memberId := hsame ▸ hi
    exact hij (h.atMostOnce_newPartitions p i j hnewi (hsame.symm.trans hstays.symm))
  obtain ⟨item, hdelta⟩ := PartitionManager.deltaItem?_of_ne hmoved p
  have hp := h.lt_of_held hi
  have hold := any_eq_false.mp hnew.2 item (h.mem_items.mpr ⟨hp.1, i, hp.2, hdelta⟩)
  exact hold (beq_iff_eq.mpr (deltaItem?_oldMid hdelta))

end BalanceInput

end Idgs.Cluster
