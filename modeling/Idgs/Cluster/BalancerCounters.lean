import Mathlib.Algebra.BigOperators.Group.Finset.Piecewise
import Mathlib.Algebra.Order.BigOperators.Group.Finset
import Idgs.Common.Lists
import Idgs.Cluster.BalancerMoves
import Idgs.Cluster.TableSound

/-!
# The counters of the balancer

All placement decisions read the partition counts of the members. They are counted once, at the
start of a call of `balance`, and then kept up to date by every call of `setMember` and
`swapMember`.
-/

namespace Idgs.Cluster

open Partition Finset

/-! ## Updates of the counters -/

namespace Counters

section

variable (c : Counters)

@[simp] theorem add_partitionCount (m pos : ℕ) (d : ℤ) (m' r : ℕ) :
    (c.add m pos d).partitionCount m' r =
      c.partitionCount m' r + if m' = m ∧ r = pos then d else 0 := by
  unfold add
  by_cases hm : m' = m
  · subst hm
    by_cases hr : r = pos
    · subst hr
      simp
    · simp [hr]
  · simp [hm]

@[simp] theorem add_totalPartitionCount (m pos : ℕ) (d : ℤ) (m' : ℕ) :
    (c.add m pos d).totalPartitionCount m' =
      c.totalPartitionCount m' + if m' = m then d else 0 := by
  unfold add
  by_cases hm : m' = m
  · subst hm
    simp
  · simp [hm]

theorem increase_partitionCount (mid : ℤ) (pos m r : ℕ) :
    (c.increasePartitionCount mid pos).partitionCount m r =
      c.partitionCount m r + if mid = m ∧ r = pos then 1 else 0 := by
  unfold increasePartitionCount
  split
  next hmid =>
    rw [add_partitionCount]
    by_cases h : mid = m ∧ r = pos
    · rw [if_pos h, if_pos (by omega)]
    · rw [if_neg h, if_neg (by omega)]
  next hmid =>
    rw [if_neg (by omega), add_zero]

theorem decrease_partitionCount (mid : ℤ) (pos m r : ℕ) :
    (c.decreasePartitionCount mid pos).partitionCount m r =
      c.partitionCount m r - if mid = m ∧ r = pos then 1 else 0 := by
  unfold decreasePartitionCount
  split
  next hmid =>
    rw [add_partitionCount]
    by_cases h : mid = m ∧ r = pos
    · rw [if_pos h, if_pos (by omega), sub_eq_add_neg]
    · rw [if_neg h, if_neg (by omega), sub_zero, add_zero]
  next hmid =>
    rw [if_neg (by omega), sub_zero]

end

/-- The totals are the sums over the replica positions. -/
def Summed (replicas : ℕ) (c : Counters) : Prop :=
  ∀ m, c.totalPartitionCount m = ∑ r ∈ range replicas, c.partitionCount m r

section

variable {replicas : ℕ} {c : Counters} (h : c.Summed replicas)

include h

theorem Summed.add {m pos : ℕ}
    (hpos : pos < replicas) (d : ℤ) : (c.add m pos d).Summed replicas := by
  intro m'
  simp only [add_totalPartitionCount, add_partitionCount, sum_add_distrib, h m']
  by_cases hm : m' = m
  · have hsum : ∑ r ∈ range replicas, (if m' = m ∧ r = pos then d else 0) = d := by
      simp [hm, hpos]
    rw [hsum, if_pos hm]
  · simp [hm]

theorem Summed.increase {pos : ℕ}
    (hpos : pos < replicas) (mid : ℤ) : (c.increasePartitionCount mid pos).Summed replicas := by
  unfold increasePartitionCount
  split
  · exact h.add hpos 1
  · exact h

theorem Summed.decrease {pos : ℕ}
    (hpos : pos < replicas) (mid : ℤ) : (c.decreasePartitionCount mid pos).Summed replicas := by
  unfold decreasePartitionCount
  split
  · exact h.add hpos (-1)
  · exact h

end

end Counters

/-! ## What the counters count -/

/-- The partitions that a member holds at a replica. -/
def heldAt (table : List Partition) (m r : ℕ) : ℕ :=
  table.countP fun p : Partition => decide (p.getMemberId r = (m : ℤ))

/-- The counters of a table: each counter of a replica is the number of partitions that the member
holds there, and each total is their sum. -/
structure Counted (replicas : ℕ) (w : Work) : Prop where
  partition : ∀ m r, w.counters.partitionCount m r = heldAt w.newPartitions m r
  summed : w.counters.Summed replicas

/-- Changing one partition changes what is counted by what it changes there. -/
theorem heldAt_modify {table : List Partition} {part : ℕ} (hpart : part < table.length)
    (f : Partition → Partition) (m r : ℕ) :
    (heldAt (table.modify part f) m r : ℤ) =
      heldAt table m r + (if (f (table.getD part [])).getMemberId r = m then 1 else 0) -
        if (table.getD part []).getMemberId r = m then 1 else 0 := by
  have hrow : table.getD part [] = table[part] := by
    rw [List.getD_eq_getElem?_getD, List.getElem?_eq_getElem hpart, Option.getD_some]
  have hcount :=
    Common.countP_modify (fun p : Partition => decide (p.getMemberId r = (m : ℤ))) f hpart
  simp only [decide_eq_true_eq] at hcount
  rw [hrow, heldAt, heldAt]
  split at hcount <;> split at hcount <;> simp [*] <;> omega

/-- A member that a partition holds at a replica is counted there. -/
theorem one_le_heldAt {table : List Partition} {part : ℕ} (hpart : part < table.length)
    {r : ℕ} (hmid : 0 ≤ (table.getD part []).getMemberId r) :
    1 ≤ heldAt table ((table.getD part []).getMemberId r).toNat r := by
  have hrow : table.getD part [] ∈ table := by
    rw [List.getD_eq_getElem?_getD, List.getElem?_eq_getElem hpart, Option.getD_some]
    exact List.getElem_mem hpart
  refine List.countP_pos_iff.mpr ⟨_, hrow, ?_⟩
  rw [decide_eq_true_eq, Int.toNat_of_nonneg hmid]

/-- Whether a call of `decreasePartitionCount` finds something to take away. -/
def Takeable (c : Counters) (mid : ℤ) (pos : ℕ) : Prop :=
  0 ≤ mid → 0 < c.partitionCount mid.toNat pos ∧ 0 < c.totalPartitionCount mid.toNat

/-- A member has a positive total where it has a positive counter and none that is negative. -/
theorem takeable_of_pos {replicas pos : ℕ} {c : Counters} (hsummed : c.Summed replicas)
    (hpos : pos < replicas) (hnonneg : ∀ m r, 0 ≤ c.partitionCount m r) {mid : ℤ}
    (hcount : 0 ≤ mid → 0 < c.partitionCount mid.toNat pos) : Takeable c mid pos := by
  intro hmid
  refine ⟨hcount hmid, ?_⟩
  rw [hsummed]
  exact (hcount hmid).trans_le
    (single_le_sum (fun r _ => hnonneg mid.toNat r) (mem_range.mpr hpos))

theorem Counted.nonneg {replicas : ℕ} {w : Work} (h : Counted replicas w) (m r : ℕ) :
    0 ≤ w.counters.partitionCount m r := by
  rw [h.partition]
  exact Int.natCast_nonneg _

/-- The counter of the member in a cell is positive. -/
theorem Counted.count_pos {replicas part pos : ℕ} {w : Work} (h : Counted replicas w)
    (hpart : part < w.newPartitions.length) (hmid : 0 ≤ w.getMemberId part pos) :
    0 < w.counters.partitionCount (w.getMemberId part pos).toNat pos := by
  rw [h.partition]
  exact Int.natCast_pos.mpr (one_le_heldAt hpart hmid)

/-! ## One call of `setMember` and of `swapMember` -/

namespace SimplePartitionBalancer

variable (b : SimplePartitionBalancer)

/-- `placeCounters` in one case distinction. -/
theorem placeCounters_eq (c : Counters) (p : Partition) (pos : ℕ) (mid : ℤ) :
    b.placeCounters c p pos mid = match b.movesTo p pos mid with
      | some i => ((c.increasePartitionCount mid pos).decreasePartitionCount
          (p.getMemberId pos) pos).increasePartitionCount (p.getMemberId pos) i
      | none => (c.increasePartitionCount mid pos).decreasePartitionCount
          (p.getMemberId pos) pos := by
  unfold placeCounters movesTo
  dsimp only
  split <;> rfl

/-- What `setMember` counts for a member at a replica. -/
theorem placeCounters_partitionCount (c : Counters) (p : Partition) (pos : ℕ) (mid : ℤ) (m r : ℕ) :
    (b.placeCounters c p pos mid).partitionCount m r =
      c.partitionCount m r + (if mid = m ∧ r = pos then 1 else 0) -
        (if p.getMemberId pos = m ∧ r = pos then 1 else 0) +
        if b.movesTo p pos mid = some r ∧ p.getMemberId pos = m then 1 else 0 := by
  rw [placeCounters_eq]
  cases hmove : b.movesTo p pos mid with
  | none =>
    have hnot : ¬ ((none : Option ℕ) = some r ∧ p.getMemberId pos = m) := fun h => by cases h.1
    simp only
    rw [Counters.decrease_partitionCount, Counters.increase_partitionCount, if_neg hnot, add_zero]
  | some i =>
    simp only
    rw [Counters.increase_partitionCount, Counters.decrease_partitionCount,
      Counters.increase_partitionCount]
    congr 2
    rw [Option.some_inj, and_comm, eq_comm (a := r)]

variable {replicas : ℕ} {w : Work} {part pos pos1 pos2 : ℕ}

/-- `setMember` keeps the counters up to date. -/
theorem counted_setMember (h : Counted replicas w) (hpart : part < w.newPartitions.length)
    (hlength : (w.partition part).length = replicas) (hpos : pos < replicas)
    (hmax : b.maxReplicas ≤ replicas) (mid : ℤ) :
    Counted replicas (b.setMember w part pos mid) where
  partition m r := by
    have hcell : (b.place (w.partition part) pos mid).cell r = _ :=
      b.cell_place (hlength ▸ hpos) (hlength ▸ hmax) r
    have hrow : w.newPartitions.getD part [] = w.partition part := rfl
    simp only [setMember]
    rw [placeCounters_partitionCount, h.partition, heldAt_modify hpart, hrow]
    simp only [getMemberId_eq_cell, hcell]
    by_cases hr : r = pos
    · subst hr
      have hstays : b.movesTo (w.partition part) r mid ≠ some r := fun hmove => by
        obtain ⟨-, hlt, -⟩ := b.movesTo_spec hmove
        omega
      simp only [if_true, and_true, hstays, false_and, if_false]
      split_ifs <;> omega
    · by_cases hmove : b.movesTo (w.partition part) pos mid = some r
      · obtain ⟨-, -, -, hfree⟩ := b.movesTo_spec hmove
        have hnot : (Partition.cell (w.partition part) r).memberId ≠ m := by omega
        simp [hr, hmove, hnot]
      · simp only [hr, hmove, and_false, false_and, if_false]
        split_ifs <;> omega
  summed := by
    simp only [setMember]
    rw [placeCounters_eq]
    have hplaced := (h.summed.increase hpos mid).decrease hpos ((w.partition part).getMemberId pos)
    split
    next i hmove =>
      obtain ⟨-, -, hi, -⟩ := b.movesTo_spec hmove
      exact hplaced.increase (hi.trans_le hmax) _
    next => exact hplaced

/-- `swapMember` keeps the counters up to date. -/
theorem counted_swapMember (h : Counted replicas w) (hpart : part < w.newPartitions.length)
    (hlength : (w.partition part).length = replicas) (hpos1 : pos1 < replicas)
    (hpos2 : pos2 < replicas) :
    Counted replicas (swapMember w part pos1 pos2) where
  partition m r := by
    have hcell := cell_swapCells (hlength ▸ hpos1) (hlength ▸ hpos2) (i := r)
    have hrow : w.newPartitions.getD part [] = w.partition part := rfl
    simp only [swapMember]
    rw [heldAt_modify hpart, hrow]
    simp only [Counters.increase_partitionCount, Counters.decrease_partitionCount, h.partition,
      Work.getMemberId, getMemberId_eq_cell, hcell]
    by_cases h1 : r = pos1
    · subst h1
      by_cases h2 : r = pos2
      · subst h2
        simp only [if_true, and_true]
        split_ifs <;> omega
      · simp only [h2, if_true, and_true, and_false, if_false]
        split_ifs <;> omega
    · by_cases h2 : r = pos2
      · subst h2
        simp only [h1, if_true, and_true, and_false, if_false]
        split_ifs <;> omega
      · simp only [h1, h2, and_false, if_false]
        split_ifs <;> omega
  summed := (((h.summed.decrease hpos1 _).increase hpos2 _).decrease hpos2 _).increase hpos1 _

end SimplePartitionBalancer

/-! ## The start -/

section Start

variable (partitions : List Partition) (replicas : ℕ)

theorem countRow_partitionCount (p : Partition) (c : Counters) (m r : ℕ) :
    ((List.range replicas).foldl
        (fun c r => c.increasePartitionCount (p.getMemberId r) r) c).partitionCount m r =
      c.partitionCount m r + if r < replicas ∧ p.getMemberId r = m then 1 else 0 := by
  induction replicas with
  | zero => simp
  | succ n ih =>
    rw [List.range_succ, List.foldl_append, List.foldl_cons, List.foldl_nil,
      Counters.increase_partitionCount, ih]
    by_cases hr : r = n
    · subst hr
      simp
    · have hlt : r < n + 1 ↔ r < n := by omega
      simp [hr, hlt]

theorem countPartitions_partitionCount (n m r : ℕ) :
    (BalancerUtil.countPartitions n replicas partitions).partitionCount m r =
      (List.range n).countP fun i =>
        decide (r < replicas ∧ (partitions.getD i []).getMemberId r = (m : ℤ)) := by
  induction n with
  | zero => rfl
  | succ n ih =>
    unfold BalancerUtil.countPartitions at ih ⊢
    rw [List.range_succ, List.foldl_append, List.foldl_cons, List.foldl_nil,
      countRow_partitionCount, ih, List.countP_append, List.countP_singleton]
    push_cast
    simp

theorem summed_countPartitions (n : ℕ) :
    (BalancerUtil.countPartitions n replicas partitions).Summed replicas := by
  unfold BalancerUtil.countPartitions
  refine Common.foldl_invariant (Counters.Summed replicas) (fun c i _ hc => ?_) fun m => ?_
  · exact Common.foldl_invariant (Counters.Summed replicas)
      (fun c r hr hc => hc.increase (List.mem_range.mp hr) _) hc
  · simp [Counters.reset]

end Start

namespace BalanceInput

variable (x : BalanceInput)

/-- `calcualtePartitionCount` counts the partitions of the table. -/
theorem counted_start (h : TableShaped x.config x.partitions) :
    Counted x.config.maxReplicaCount x.start where
  partition m r := by
    have hlist : (List.range x.partitions.length).map (fun i => x.partitions.getD i []) =
        x.partitions := by
      refine List.ext_getElem (by simp) fun i hi hi' => ?_
      simp [List.getElem?_eq_getElem hi']
    have hrow : ∀ p ∈ x.partitions, ¬ r < x.config.maxReplicaCount → p.getMemberId r ≠ (m : ℤ) := by
      intro p hp hr
      obtain ⟨q, hq, rfl⟩ := List.mem_iff_getElem.mp hp
      have hlength := h.replicas q (h.rows ▸ hq)
      rw [List.getD_eq_getElem?_getD, List.getElem?_eq_getElem hq, Option.getD_some] at hlength
      rw [getMemberId_eq_cell, cell_of_length_le (by omega)]
      exact fun heq => by simp at heq
    have hcount := countPartitions_partitionCount x.partitions x.config.maxReplicaCount
      x.config.partitionCount m r
    have hheld : heldAt x.partitions m r = (List.range x.config.partitionCount).countP fun i =>
        decide (r < x.config.maxReplicaCount ∧
          (x.partitions.getD i []).getMemberId r = (m : ℤ)) := by
      rw [← h.rows, heldAt]
      conv_lhs => rw [← hlist]
      rw [List.countP_map]
      refine List.countP_congr fun i hi => ?_
      rw [List.mem_range] at hi
      have hmem : x.partitions.getD i [] ∈ x.partitions := by
        rw [List.getD_eq_getElem?_getD, List.getElem?_eq_getElem hi, Option.getD_some]
        exact List.getElem_mem hi
      simp only [Function.comp_apply, decide_eq_true_eq]
      refine ⟨fun heq => ⟨?_, heq⟩, And.right⟩
      by_contra hr
      exact hrow _ hmem hr heq
    exact hcount.trans (congrArg Nat.cast hheld.symm)
  summed := summed_countPartitions x.partitions x.config.maxReplicaCount x.config.partitionCount

end BalanceInput

/-! ## Sequences of calls -/

/-- A call of `setMember` or of `swapMember`. -/
inductive TableCall
  | setMember (part pos : ℕ) (mid : ℤ)
  | swapMember (part pos1 pos2 : ℕ)
deriving DecidableEq

namespace SimplePartitionBalancer

variable (b : SimplePartitionBalancer)

/-- The call is about cells of the table. -/
def InTable : TableCall → Prop
  | .setMember part pos _ => part < b.config.partitionCount ∧ pos < b.config.maxReplicaCount
  | .swapMember part pos1 pos2 => part < b.config.partitionCount ∧
      pos1 < b.config.maxReplicaCount ∧ pos2 < b.config.maxReplicaCount

/-- A call is made. -/
def call (w : Work) : TableCall → Work
  | .setMember part pos mid => b.setMember w part pos mid
  | .swapMember part pos1 pos2 => swapMember w part pos1 pos2

/-- The calls of `decreasePartitionCount` that it makes in turn, for the members that are found in
the cells, and the counters that each of them finds. -/
def decreases (w : Work) : TableCall → List (Counters × ℤ × ℕ)
  | .setMember part pos mid =>
    [(w.counters.increasePartitionCount mid pos, w.getMemberId part pos, pos)]
  | .swapMember part pos1 pos2 =>
    let mid1 := w.getMemberId part pos1
    let mid2 := w.getMemberId part pos2
    [(w.counters, mid1, pos1),
      ((w.counters.decreasePartitionCount mid1 pos1).increasePartitionCount mid1 pos2, mid2,
        pos2)]

variable {b} {w : Work}

/-- The table has a row for each partition and a cell for each replica. -/
structure HasShape (b : SimplePartitionBalancer) (w : Work) : Prop where
  rows : w.newPartitions.length = b.config.partitionCount
  shaped : b.Shaped w

theorem HasShape.length (h : b.HasShape w) {part : ℕ} (hpart : part < b.config.partitionCount) :
    (w.partition part).length = b.config.maxReplicaCount :=
  h.shaped part (h.rows ▸ hpart)

/-- A call keeps the shape of the table, and the counters of the table. -/
theorem counted_call (h : Counted b.config.maxReplicaCount w) (hshape : b.HasShape w)
    {c : TableCall} (hc : b.InTable c) :
    Counted b.config.maxReplicaCount (b.call w c) ∧ b.HasShape (b.call w c) := by
  cases c with
  | setMember part pos mid =>
    obtain ⟨hpart, hpos⟩ := hc
    refine ⟨counted_setMember b h (hshape.rows ▸ hpart) (hshape.length hpart) hpos
      b.maxReplicas_le mid, ?_, fun q hq => ?_⟩
    · simpa [call, setMember] using hshape.rows
    · simp only [call] at hq ⊢
      have hq' : q < w.newPartitions.length := by simpa [setMember] using hq
      rw [partition_setMember]
      split
      · rw [length_place]
        exact hshape.shaped q hq'
      · exact hshape.shaped q hq'
  | swapMember part pos1 pos2 =>
    obtain ⟨hpart, hpos1, hpos2⟩ := hc
    refine ⟨counted_swapMember h (hshape.rows ▸ hpart) (hshape.length hpart) hpos1 hpos2, ?_,
      fun q hq => ?_⟩
    · simpa [call, swapMember] using hshape.rows
    · simp only [call] at hq ⊢
      have hq' : q < w.newPartitions.length := by simpa [swapMember] using hq
      rw [partition_swapMember]
      split
      · rw [length_swapCells]
        exact hshape.shaped q hq'
      · exact hshape.shaped q hq'

/-- No call takes a partition away from a member that has none at the replica. -/
theorem takeable_call (h : Counted b.config.maxReplicaCount w) (hshape : b.HasShape w)
    {c : TableCall} (hc : b.InTable c) :
    ∀ d ∈ decreases w c, Takeable d.1 d.2.1 d.2.2 := by
  cases c with
  | setMember part pos mid =>
    obtain ⟨hpart, hpos⟩ := hc
    intro d hd
    obtain rfl := List.mem_singleton.mp hd
    show Takeable (w.counters.increasePartitionCount mid pos) (w.getMemberId part pos) pos
    refine takeable_of_pos (h.summed.increase hpos mid) hpos (fun m r => ?_) fun hmid => ?_
    · have hnonneg := h.nonneg m r
      rw [Counters.increase_partitionCount]
      split <;> omega
    · have hcount := h.count_pos (hshape.rows ▸ hpart) hmid
      rw [Counters.increase_partitionCount]
      split <;> omega
  | swapMember part pos1 pos2 =>
    obtain ⟨hpart, hpos1, hpos2⟩ := hc
    have hcount : ∀ {pos}, 0 ≤ w.getMemberId part pos →
        0 < w.counters.partitionCount (w.getMemberId part pos).toNat pos :=
      fun hmid => h.count_pos (hshape.rows ▸ hpart) hmid
    intro d hd
    rcases List.mem_cons.mp hd with rfl | hd
    · exact takeable_of_pos h.summed hpos1 h.nonneg hcount
    · obtain rfl := List.mem_singleton.mp hd
      show Takeable ((w.counters.decreasePartitionCount (w.getMemberId part pos1) pos1
        ).increasePartitionCount (w.getMemberId part pos1) pos2) (w.getMemberId part pos2) pos2
      refine takeable_of_pos ((h.summed.decrease hpos1 _).increase hpos2 _) hpos2
        (fun m r => ?_) fun hmid => ?_
      · have hnonneg := h.nonneg m r
        rw [Counters.increase_partitionCount, Counters.decrease_partitionCount]
        by_cases hfirst : w.getMemberId part pos1 = m ∧ r = pos1
        · obtain ⟨hm, rfl⟩ := hfirst
          have hone := @hcount r (by omega)
          rw [hm, Int.toNat_natCast] at hone
          split <;> split <;> omega
        · rw [if_neg hfirst]
          split <;> omega
      · have hone := hcount hmid
        rw [Counters.increase_partitionCount, Counters.decrease_partitionCount,
          Int.toNat_of_nonneg hmid]
        split_ifs with hfirst hsecond <;> omega

/-- Edits within the replicas of the configuration are calls about cells of the table. -/
theorem exists_calls {k : ℕ} (hk : k ≤ b.config.maxReplicaCount) {w' : Work}
    (h : b.EditsWithin k w w') :
    ∃ calls : List TableCall, (∀ c ∈ calls, b.InTable c) ∧ calls.foldl b.call w = w' := by
  induction h with
  | refl => exact ⟨[], fun c hc => absurd hc List.not_mem_nil, rfl⟩
  | @tail w₁ w₂ _ hedit ih =>
    obtain ⟨calls, hcalls, hrun⟩ := ih
    obtain ⟨part, hpart, hedit⟩ := hedit
    have hone : ∃ c, b.InTable c ∧ b.call w₁ c = w₂ := by
      cases hedit with
      | clear pos hpos => exact ⟨.setMember part pos (-1), ⟨hpart, hpos.trans_le hk⟩, rfl⟩
      | put pos i _ hpos _ _ => exact ⟨.setMember part pos _, ⟨hpart, hpos.trans_le hk⟩, rfl⟩
      | swap pos1 pos2 h1 h2 =>
        exact ⟨.swapMember part pos1 pos2, ⟨hpart, h1.trans_le hk, h2.trans_le hk⟩, rfl⟩
    obtain ⟨c, hc, hcall⟩ := hone
    refine ⟨calls ++ [c], fun c' hc' => ?_, ?_⟩
    · rcases List.mem_append.mp hc' with hc' | hc'
      · exact hcalls c' hc'
      · exact List.mem_singleton.mp hc' ▸ hc
    · rw [List.foldl_append, hrun]
      exact hcall

end SimplePartitionBalancer

namespace BalanceInput

open SimplePartitionBalancer

variable {x : BalanceInput}

/-- The counters are exact after every sequence of calls. -/
theorem counted_calls (h : TableShaped x.config x.partitions) {calls : List TableCall}
    (hcalls : ∀ c ∈ calls, x.balancer.InTable c) :
    Counted x.config.maxReplicaCount (calls.foldl x.balancer.call x.start) ∧
      x.balancer.HasShape (calls.foldl x.balancer.call x.start) := by
  have hstart : x.balancer.HasShape x.start :=
    ⟨h.rows, fun q hq => h.replicas q (h.rows ▸ hq)⟩
  exact Common.foldl_invariant
    (fun w => Counted x.config.maxReplicaCount w ∧ x.balancer.HasShape w)
    (fun w c hc hw => counted_call hw.1 hw.2 (hcalls c hc)) ⟨counted_start x h, hstart⟩

/-- **The counters of the balancer are exact.** The table of a call of `balance` comes from a
sequence of calls of `setMember` and `swapMember`; and after every such sequence each member's
counter of a replica is the number of partitions that it holds there, each total is the sum of its
counters, and the next call takes nothing away from a counter that is zero. -/
theorem counters_exact (x : BalanceInput) (hshaped : TableShaped x.config x.partitions)
    (hmid : x.mid < x.members.length) :
    (∃ calls : List TableCall, (∀ c ∈ calls, x.balancer.InTable c) ∧
      calls.foldl x.balancer.call x.start = x.result) ∧
    ∀ calls : List TableCall, (∀ c ∈ calls, x.balancer.InTable c) →
      Counted x.config.maxReplicaCount (calls.foldl x.balancer.call x.start) ∧
        ∀ c, x.balancer.InTable c →
          ∀ d ∈ decreases (calls.foldl x.balancer.call x.start) c, Takeable d.1 d.2.1 d.2.2 := by
  refine ⟨?_, fun calls hcalls => ?_⟩
  · obtain ⟨w₁, hcompact, hfill⟩ := x.balancer.rebalance_within hmid x.start
    obtain ⟨calls, hcalls, hrun⟩ := exists_calls le_rfl hcompact
    obtain ⟨calls', hcalls', hrun'⟩ := exists_calls x.balancer.maxReplicas_le hfill
    refine ⟨calls ++ calls', fun c hc => ?_, ?_⟩
    · exact (List.mem_append.mp hc).elim (hcalls c) (hcalls' c)
    · rw [List.foldl_append, hrun]
      exact hrun'
  · obtain ⟨hcounted, hshape⟩ := counted_calls hshaped hcalls
    exact ⟨hcounted, fun c hc => takeable_call hcounted hshape hc⟩

/-- When member 2 takes over partition 0, the counters of both members are exact. -/
theorem counters_exact_thirdMember :
    Counted 1 ((thirdMember .joined).balancer.call (thirdMember .joined).start
      (.setMember 0 0 2)) :=
  ((counters_exact (thirdMember .joined) ⟨rfl, by decide⟩ (by decide)).2 [.setMember 0 0 2]
    fun c hc => by rw [List.mem_singleton.mp hc]; exact ⟨by decide, by decide⟩).1

end BalanceInput

end Idgs.Cluster
