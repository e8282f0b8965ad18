import Idgs.Cluster.BalancerMoves

/-!
# What a rebalancing fills

`simple_balance` and `balanceLeave` go through the first `max_replicas` cells of all partitions and
search a member for each cell that is empty or of the leaving member. The search is bounded: a
member is not taken at a position where it has its expected count plus `MAX_PRIORITY`, nor over the
corresponding total. A cell for which every member outside of the partition is over these bounds is
left empty, and no later iteration fills it.
-/

namespace Idgs.Cluster

open Partition List

namespace SimplePartitionBalancer

variable (b : SimplePartitionBalancer)

/-! ## The search for a member -/

/-- A round that finds nobody has tested every index from its start, around the end. -/
theorem scanMembers_none {ok : ℕ → Bool} {size k index : ℕ} (hindex : index < size)
    (h : (scanMembers ok size k index).1 = none) {i : ℕ} (hi : i < size)
    (hreached : index ≤ i ∧ i < index + k ∨ i + size < index + k) : ok i = false := by
  induction k generalizing index with
  | zero => omega
  | succ k ih =>
    rw [scanMembers] at h
    split at h
    · cases h
    · rename_i hrejected
      by_cases hhere : i = index
      · subst hhere
        simpa using hrejected
      · refine ih ?_ h ?_
        · split <;> omega
        · split <;> omega

theorem scanPriorities_none {ok : ℤ → ℕ → Bool} {size : ℕ} {ps : List ℤ} {index : ℕ}
    (hindex : index < size) (h : (scanPriorities ok size ps index).1 = none) :
    ∀ priority ∈ ps, ∀ i < size, ok priority i = false := by
  induction ps generalizing index with
  | nil => exact fun priority hmem => absurd hmem not_mem_nil
  | cons first ps ih =>
    have hnext : (scanMembers (ok first) size size index).2 < size := scanMembers_snd_lt hindex
    rw [scanPriorities] at h
    split at h
    · cases h
    · rename_i next hscan
      have hround : (scanMembers (ok first) size size index).1 = none := by rw [hscan]
      intro priority hmem i hi
      rcases mem_cons.mp hmem with rfl | hrest
      · exact scanMembers_none hindex hround hi (by omega)
      · exact ih (by simpa [hscan] using hnext) h priority hrest i hi

theorem mem_priorities {priority : ℤ} :
    priority ∈ b.priorities ↔ -4 ≤ priority ∧ priority ≤ b.maxPriority := by
  simp only [priorities, mem_map, bind_eq_flatMap, mem_flatMap, pure_def, mem_singleton, mem_range]
  constructor
  · rintro ⟨-, ⟨i, hi, rfl⟩, rfl⟩
    omega
  · intro h
    exact ⟨priority + 4, ⟨(priority + 4).toNat, by omega, by omega⟩, by omega⟩

variable {w : Work}

/-- The bounds grow with the priority. -/
theorem accepts_mono {part pos i : ℕ} {priority priority' : ℤ} (hle : priority ≤ priority')
    (h : b.accepts w part pos priority i = true) : b.accepts w part pos priority' i = true := by
  have htotal : b.totalLimit i priority ≤ b.totalLimit i priority' := by
    have hscaled :=
      mul_le_mul_of_nonneg_right hle (Int.natCast_nonneg (1 + (b.maxReplicas - 1) / 2))
    unfold totalLimit
    push_cast at hscaled ⊢
    omega
  simp only [accepts, Bool.and_eq_true, decide_eq_true_eq] at h ⊢
  obtain ⟨⟨⟨havailable, hcount⟩, hlimit⟩, hcheck⟩ := h
  exact ⟨⟨⟨havailable, by omega⟩, by omega⟩, hcheck⟩

/-- No member can be put into a cell: none passes the test of the search at `MAX_PRIORITY`. -/
def NoCandidate (w : Work) (part pos : ℕ) : Prop :=
  ∀ i < b.members.length, b.accepts w part pos b.maxPriority i = false

instance (w : Work) (part pos : ℕ) : Decidable (b.NoCandidate w part pos) := by
  unfold NoCandidate
  infer_instance

/-- The search finds a member exactly when there is a candidate. -/
theorem findMember_none_iff {part pos index : ℕ} (hindex : index < b.members.length) :
    (b.findMember w part pos index).1 = none ↔ b.NoCandidate w part pos := by
  constructor
  · intro h i hi
    exact scanPriorities_none hindex h _ (b.mem_priorities.mpr (by omega)) i hi
  · intro h
    cases hfound : b.findMember w part pos index with
    | mk found next =>
      cases found with
      | none => rfl
      | some i =>
        obtain ⟨hi, priority, hmem, hok⟩ := scanPriorities_spec hindex hfound
        have haccepted := b.accepts_mono (b.mem_priorities.mp hmem).2 hok
        rw [h i hi] at haccepted
        cases haccepted

/-! ## Filling a cell -/

/-- A cell is to be filled: it is empty, or its holder is the leaving member. -/
def Vacant (leaving : ℤ) (w : Work) (p r : ℕ) : Prop :=
  w.getMemberId p r < 0 ∨ w.getMemberId p r = leaving

/-- A cell is to be filled and no member can be put into it. -/
def Stuck (leaving : ℤ) (w : Work) (p r : ℕ) : Prop := Vacant leaving w p r ∧ b.NoCandidate w p r

instance (leaving : ℤ) (w : Work) (p r : ℕ) : Decidable (Vacant leaving w p r) := by
  unfold Vacant
  infer_instance

instance (leaving : ℤ) (w : Work) (p r : ℕ) : Decidable (b.Stuck leaving w p r) := by
  unfold Stuck
  infer_instance

/-- The rows of the table and the cells in them are those of the configuration. -/
def Complete (w : Work) : Prop := w.newPartitions.length = b.config.partitionCount ∧ b.Shaped w

theorem Complete.edits {k : ℕ} {w' : Work} (h : b.Complete w) (hedits : b.Edits k w w') :
    b.Complete w' :=
  ⟨(Edits.length_eq b hedits).trans h.1, Edits.shaped b hedits h.2⟩

variable {p : ℕ}

section

variable (h : b.Complete w)

include h

theorem Complete.length_partition (hp : p < b.config.partitionCount) :
    (w.partition p).length = b.config.maxReplicaCount := h.2 p (h.1.symm ▸ hp)

theorem getMemberId_setMember_self {r : ℕ} (hp : p < b.config.partitionCount)
    (hr : r < b.maxReplicas) (mid : ℤ) : (b.setMember w p r mid).getMemberId p r = mid := by
  have hmax := b.maxReplicas_le
  have hrow := h.length_partition b hp
  change (((b.setMember w p r mid).partition p).cell r).memberId = mid
  rw [partition_setMember, if_pos rfl, b.cell_place (by omega) (by omega), if_pos rfl]

/-- `setMember` changes its own cell and later ones of the same partition. -/
theorem getMemberId_setMember_of_before {r part pos : ℕ}
    (hbefore : r < pos ∨ p ≠ part) (hpos : pos < b.maxReplicas) (mid : ℤ) :
    (b.setMember w part pos mid).getMemberId p r = w.getMemberId p r := by
  have hmax := b.maxReplicas_le
  change (((b.setMember w part pos mid).partition p).cell r).memberId =
    ((w.partition p).cell r).memberId
  rw [partition_setMember]
  split
  · rename_i hpart
    have hlt : r < pos := hbefore.resolve_right fun hne => hne hpart
    rcases h.2.length_or b p with hrow | hnil
    · rw [b.cell_place (by omega) (by omega), if_neg (by omega), if_neg]
      intro hmoves
      obtain ⟨-, hlater, -, -⟩ := b.movesTo_spec hmoves
      omega
    · rw [hnil, place_nil]
  · rfl

/-- After `fillCell` has treated a vacant cell, it is empty exactly where the search was stuck. -/
theorem nonneg_fillCell_iff {leaving : ℤ} {r index : ℕ}
    (hp : p < b.config.partitionCount) (hr : r < b.maxReplicas)
    (hindex : index < b.members.length) :
    0 ≤ (b.fillCell w leaving p r (b.findMember w p r index)).1.getMemberId p r ↔
      ¬ b.Stuck leaving w p r := by
  have hnone : (b.findMember w p r index).1 = none ↔ b.NoCandidate w p r :=
    b.findMember_none_iff hindex
  cases hfound : b.findMember w p r index with
  | mk found next =>
    rw [hfound] at hnone
    cases found with
    | some i =>
      obtain ⟨hi, havailable, -⟩ := b.findMember_spec hindex hfound
      have hid : 0 ≤ (b.members.getD i {}).id := by
        simp only [Member.isAvailable, Bool.and_eq_true, decide_eq_true_eq] at havailable
        exact havailable.1.1
      rw [fillCell, b.getMemberId_setMember_self h hp hr]
      refine ⟨fun _ hstuck => ?_, fun _ => hid⟩
      cases hnone.mpr hstuck.2
    | none =>
      have hcandidate := hnone.mp rfl
      rw [fillCell]
      split
      · rename_i hleaving
        rw [b.getMemberId_setMember_self h hp hr]
        exact ⟨fun hneg => absurd hneg (by decide), fun hstuck =>
          absurd ⟨.inr hleaving, hcandidate⟩ hstuck⟩
      · rename_i hstays
        refine ⟨fun hnonneg hstuck => ?_, fun hstuck => ?_⟩
        · rcases hstuck.1 with hneg | hleaving
          · exact absurd hnonneg (not_le.mpr hneg)
          · exact hstays hleaving
        · by_contra hneg
          exact hstuck ⟨.inl (not_le.mp hneg), hcandidate⟩

/-- `fillCell` changes its own cell and later ones of the same partition. -/
theorem getMemberId_fillCell_of_before {leaving : ℤ} {r part pos index : ℕ}
    (hbefore : r < pos ∨ p ≠ part) (hpos : pos < b.maxReplicas) :
    (b.fillCell w leaving part pos (b.findMember w part pos index)).1.getMemberId p r =
      w.getMemberId p r := by
  unfold fillCell
  split
  · exact b.getMemberId_setMember_of_before h hbefore hpos _
  · split
    · exact b.getMemberId_setMember_of_before h hbefore hpos _
    · rfl

end

/-! ## The loops of `simple_balance` -/

theorem nonneg_simpleStep_iff {st : Work × ℕ} (h : b.Complete st.1) {r : ℕ}
    (hp : p < b.config.partitionCount) (hr : r < b.maxReplicas) (hindex : st.2 < b.members.length) :
    0 ≤ (b.simpleStep st r p).1.getMemberId p r ↔ ¬ b.Stuck b.leaveMid st.1 p r := by
  unfold simpleStep
  dsimp only
  split
  · rename_i hkept
    refine ⟨fun _ hstuck => ?_, fun _ => hkept.1⟩
    rcases hstuck.1 with hneg | hleaving
    · omega
    · exact hkept.2.1 hleaving
  · exact b.nonneg_fillCell_iff h hp hr hindex

theorem getMemberId_simpleStep_of_before {st : Work × ℕ} (h : b.Complete st.1) {r part pos : ℕ}
    (hbefore : r < pos ∨ p ≠ part) (hpos : pos < b.maxReplicas) :
    (b.simpleStep st pos part).1.getMemberId p r = st.1.getMemberId p r := by
  unfold simpleStep
  dsimp only
  split
  · rfl
  · exact b.getMemberId_fillCell_of_before h hbefore hpos

/-- The state in which the filling loops of `simple_balance` reach a cell. -/
def fillAt (w : Work) (r p : ℕ) : Work × ℕ :=
  Common.loopsAt b.simpleStep b.config.partitionCount (w, 0) r p

/-- A cell is empty after the loops exactly when they were stuck there. -/
theorem nonneg_fill_iff (hpos : 0 < b.members.length) (h : b.Complete w) {r : ℕ}
    (hp : p < b.config.partitionCount) (hr : r < b.maxReplicas) :
    0 ≤ (b.fill w).getMemberId p r ↔ ¬ b.Stuck b.leaveMid (b.fillAt w r p).1 p r := by
  refine Common.loops_establish (fun st : Work × ℕ => b.Complete st.1 ∧ st.2 < b.members.length)
    (fun st : Work × ℕ => 0 ≤ st.1.getMemberId p r ↔
      ¬ b.Stuck b.leaveMid (b.fillAt w r p).1 p r) hr hp ?_
    ⟨h, hpos⟩ ?_ ?_
  · intro st r p hr _ hst
    obtain ⟨hedits, hindex⟩ := b.simpleStep_edits hr hst.2 p
    exact ⟨hst.1.edits b hedits, hindex⟩
  · intro hst
    exact b.nonneg_simpleStep_iff hst.1 hp hr hst.2
  · intro st r' p' hlater hr' _ hst hcell
    rw [b.getMemberId_simpleStep_of_before hst.1 (by omega) hr']
    exact hcell

/-! ## The loops of `balanceLeave` -/

theorem nonneg_leaveStep_iff (h : b.Complete w) {r : ℕ} (hp : p < b.config.partitionCount)
    (hr : r < b.maxReplicas) (hpos : 0 < b.members.length) :
    0 ≤ (b.leaveStep w r p).getMemberId p r ↔ ¬ b.Stuck b.member.id w p r := by
  unfold leaveStep
  dsimp only
  split
  · rename_i hkept
    refine ⟨fun _ hstuck => ?_, fun _ => hkept.1⟩
    rcases hstuck.1 with hneg | hleaving
    · omega
    · exact hkept.2 hleaving
  · exact b.nonneg_fillCell_iff h hp hr (Nat.mod_lt _ hpos)

theorem getMemberId_leaveStep_of_before (h : b.Complete w) {r part pos : ℕ}
    (hbefore : r < pos ∨ p ≠ part) (hpos : pos < b.maxReplicas) :
    (b.leaveStep w pos part).getMemberId p r = w.getMemberId p r := by
  unfold leaveStep
  dsimp only
  split
  · rfl
  · exact b.getMemberId_fillCell_of_before h hbefore hpos

/-- The state in which the loops of `balanceLeave` reach a cell. -/
def leaveAt (w : Work) (r p : ℕ) : Work := Common.loopsAt b.leaveStep b.config.partitionCount w r p

/-- A cell is empty after the loops exactly when they were stuck there. -/
theorem nonneg_balanceLeave_iff (hpos : 0 < b.members.length) (h : b.Complete w) {r : ℕ}
    (hp : p < b.config.partitionCount) (hr : r < b.maxReplicas) :
    0 ≤ (b.balanceLeave w).getMemberId p r ↔ ¬ b.Stuck b.member.id (b.leaveAt w r p) p r := by
  refine Common.loops_establish b.Complete
    (fun w' => 0 ≤ w'.getMemberId p r ↔
      ¬ b.Stuck b.member.id (b.leaveAt w r p) p r) hr hp ?_ h ?_ ?_
  · intro w' r p hr _ hw'
    exact hw'.edits b (b.leaveStep_edits hr hpos w' p)
  · intro hw'
    exact b.nonneg_leaveStep_iff hw' hp hr hpos
  · intro w' r' p' hlater hr' _ hw' hcell
    rw [b.getMemberId_leaveStep_of_before hw' (by omega) hr']
    exact hcell

/-! ## Partitions without empty cells -/

/-- The first `max_replicas` cells of a partition have members. -/
def Filled (w : Work) (p : ℕ) : Prop := ∀ r < b.maxReplicas, 0 ≤ w.getMemberId p r

theorem filled_swapMember (h : b.Complete w) {pos1 pos2 : ℕ} (h1 : pos1 < b.maxReplicas)
    (h2 : pos2 < b.maxReplicas) (part p : ℕ) :
    b.Filled (swapMember w part pos1 pos2) p ↔ b.Filled w p := by
  have hmax := b.maxReplicas_le
  have hrow : (swapMember w part pos1 pos2).partition p = w.partition p ∨
      ∀ r, ((swapMember w part pos1 pos2).partition p).cell r =
      if r = pos1 then (w.partition p).cell pos2
        else if r = pos2 then (w.partition p).cell pos1 else (w.partition p).cell r := by
    rw [partition_swapMember]
    split
    · rcases h.2.length_or b p with hrow | hnil
      · exact .inr (cell_swapCells (by omega) (by omega))
      · exact .inl (by rw [hnil, swapCells_nil])
    · exact .inl rfl
  unfold Filled Work.getMemberId
  simp only [getMemberId_eq_cell]
  rcases hrow with hsame | hcell
  · rw [hsame]
  · constructor
    · intro hfilled r hr
      by_cases hr2 : r = pos2
      · have hheld := hfilled pos1 h1
        rwa [hcell, if_pos rfl, ← hr2] at hheld
      · by_cases hr1 : r = pos1
        · have hheld := hfilled pos2 h2
          rwa [hcell, if_neg (fun heq => hr2 (hr1.trans heq.symm)), if_pos rfl, ← hr1] at hheld
        · have hheld := hfilled r hr
          rwa [hcell, if_neg hr1, if_neg hr2] at hheld
    · intro hfilled r hr
      rw [hcell]
      split
      · exact hfilled pos2 h2
      · split
        · exact hfilled pos1 h1
        · exact hfilled r hr

/-- `adjust` moves empty cells only within the first `max_replicas`. -/
theorem filled_adjust (h : b.Complete w) (p : ℕ) : b.Filled (b.adjust w) p ↔ b.Filled w p := by
  have hinv : b.Complete (b.adjust w) ∧ (b.Filled (b.adjust w) p ↔ b.Filled w p) := by
    refine Common.foldl_invariant
      (fun w' => b.Complete w' ∧ (b.Filled w' p ↔ b.Filled w p)) (fun w' r hr hw' => ?_) ⟨h,
        Iff.rfl⟩
    refine Common.foldl_invariant
      (fun w' => b.Complete w' ∧ (b.Filled w' p ↔ b.Filled w p)) (fun w' part _ hw' => ?_) hw'
    rw [mem_range] at hr
    refine ⟨hw'.1.edits b (b.adjustStep_edits hr w' part), ?_⟩
    unfold adjustStep
    split
    · rename_i r2 htarget
      have hmem := mem_of_find?_eq_some htarget
      rw [mem_range'_1] at hmem
      exact (b.filled_swapMember hw'.1 hr (by omega) part p).trans hw'.2
    · exact hw'.2
  exact hinv.2

/-- Putting a member into a partition empties none of its cells. -/
theorem Filled.setMember (h : b.Complete w) (hfilled : b.Filled w p) {part pos : ℕ}
    (hpos : pos < b.maxReplicas) {mid : ℤ} (hmid : 0 ≤ mid) :
    b.Filled (b.setMember w part pos mid) p := by
  have hmax := b.maxReplicas_le
  intro r hr
  change 0 ≤ (((b.setMember w part pos mid).partition p).cell r).memberId
  rw [partition_setMember]
  split
  · rcases h.2.length_or b p with hrow | hnil
    · rw [b.cell_place (by omega) (by omega)]
      split
      · exact hmid
      · split
        · exact hfilled pos hpos
        · exact hfilled r hr
    · rw [hnil, place_nil, ← hnil]
      exact hfilled r hr
  · exact hfilled r hr

/-- `balanceJoin` empties no cell. -/
theorem Filled.balanceJoin (hmid : b.mid < b.members.length) (hactive : b.member.state ≠ .inactive)
    (hid : 0 ≤ b.member.id) (h : b.Complete w) (hfilled : b.Filled w p) :
    b.Filled (b.balanceJoin w) p := by
  have hinv : b.Complete (b.balanceJoin w) ∧ b.Filled (b.balanceJoin w) p := by
    let inv : JoinState → Prop := fun st => b.Complete st.work ∧ b.Filled st.work p
    have hstart : inv ⟨w, 0, false⟩ := ⟨h, hfilled⟩
    refine Common.foldl_invariant inv (fun st r hr hst => ?_) hstart
    refine Common.foldl_invariant inv (fun st pass _ hst => ?_) hst
    refine Common.foldl_invariant inv (fun st _ _ hst => ?_) hst
    rw [mem_range] at hr
    refine ⟨hst.1.edits b (b.joinStep_edits hr hmid hactive st pass.1 pass.2), ?_⟩
    unfold joinStep
    dsimp only
    split
    · exact hst.2
    · split
      · exact hst.2
      · split
        · exact hst.2.setMember b hst.1 hr hid
        · exact hst.2
  exact hinv.2

end SimplePartitionBalancer

/-! ## A call of `balance` -/

namespace BalanceInput

variable (x : BalanceInput)

/-- The number of available members. -/
def availableCount : ℕ := x.members.countP Member.isAvailable

/-- The number of available members before the call: without the one that joins, or with the one
that leaves. -/
def previousCount : ℕ := if x.member.isAvailable then x.availableCount - 1 else x.availableCount + 1

/-- The occupied cells of a partition are its first ones, as many as there are replicas for `n`
members. -/
def FullFor (n : ℕ) (table : List Partition) (p : ℕ) : Prop :=
  ∀ i < x.config.maxReplicaCount,
    0 ≤ (cell (table.getD p []) i).memberId ↔ i < min n x.config.maxReplicaCount

instance (n : ℕ) (table : List Partition) (p : ℕ) : Decidable (x.FullFor n table p) := by
  unfold FullFor
  infer_instance

/-- Whenever the loops of the call reach a cell of partition `p` that is empty or of the leaving
member, some member outside of the partition is under its bounds for the position. -/
def NeverStuck (p : ℕ) : Prop :=
  ∀ r < x.balancer.maxReplicas,
    if x.availableCount ≤ x.config.maxReplicaCount then
      ¬ x.balancer.Stuck x.balancer.leaveMid
        (x.balancer.fillAt (x.balancer.compact x.start) r p).1 p r
    else if x.member.state = .inactive then
      ¬ x.balancer.Stuck x.balancer.member.id (x.balancer.leaveAt x.start r p) p r
    else True

variable {x}

theorem WellFormed.complete (h : x.WellFormed) : x.balancer.Complete x.start := ⟨h.rows, h.shaped⟩

/-- The cells past the replicas that the members can fill are empty in the new table. -/
theorem WellFormed.tailEmpty_result (h : x.WellFormed) : x.balancer.TailEmpty x.result := by
  obtain ⟨w₁, hcompact, htail, hfill⟩ :=
    x.balancer.rebalance_edits_tailEmpty h.mid_lt h.shaped h.rows
  have hshape := SimplePartitionBalancer.Edits.shaped x.balancer hcompact h.shaped
  have honce :=
    SimplePartitionBalancer.Edits.atMostOnce_of_all x.balancer hcompact h.shaped h.atMostOnce
  exact (SimplePartitionBalancer.Edits.atMostOnce x.balancer hfill hshape htail honce).1

/-- **A rebalancing keeps the table well formed**: in the new table no partition has a member twice
or an unavailable one, and the cells past the replicas that the available members can fill are
empty. -/
theorem newPartitions_wellFormed (h : x.WellFormed)
    (hstate : x.member.isAvailable = true ∨ x.member.state = .inactive)
    (hothers : ∀ p ∈ x.partitions, ∀ c ∈ p, 0 ≤ c.memberId →
      isAvailableId x.members c.memberId = true ∨ c.memberId = x.mid) (p : ℕ) :
    (x.newPartitions.getD p []).AtMostOnce ∧
      (∀ c ∈ x.newPartitions.getD p [], 0 ≤ c.memberId →
        isAvailableId x.members c.memberId = true) ∧
      ∀ i, min x.availableCount x.config.maxReplicaCount ≤ i →
        (cell (x.newPartitions.getD p []) i).memberId < 0 := by
  have hlive : x.balancer.Live x.start := by
    refine ⟨h.shaped, h.rows, fun q i hi => ?_⟩
    have hlen := lt_length_of_memberId hi
    have hrow : x.start.partition q ∈ x.partitions := by
      by_cases hq : q < x.config.partitionCount
      · exact h.row_mem hq
      · have hbeyond : x.start.newPartitions.length ≤ q := by
          rw [h.complete.1]
          exact not_lt.mp hq
        rw [SimplePartitionBalancer.partition_of_length_le hbeyond] at hlen
        exact absurd hlen (Nat.not_lt_zero i)
    rw [h.member_id]
    exact hothers _ hrow _ (cell_mem hlen) hi
  obtain ⟨honce, hheld⟩ :=
    SimplePartitionBalancer.rebalance_sound (b := x.balancer) h.ids h.mid_lt hstate hlive
      h.atMostOnce
  refine ⟨honce p, fun c hc hnonneg => ?_, h.tailEmpty_result p⟩
  obtain ⟨i, -, rfl⟩ := exists_cell_of_mem hc
  exact hheld p i hnonneg

/-- A partition is fully replicated in the new table exactly when its first `max_replicas` cells are
occupied. -/
theorem WellFormed.fullFor_iff_filled (h : x.WellFormed) (p : ℕ) :
    x.FullFor x.availableCount x.newPartitions p ↔ x.balancer.Filled x.result p := by
  have hmax := x.balancer.maxReplicas_le
  have hmin : x.balancer.maxReplicas = min x.availableCount x.config.maxReplicaCount := rfl
  constructor
  · intro hfull r hr
    exact (hfull r (Nat.lt_of_lt_of_le hr hmax)).mpr (hmin ▸ hr)
  · intro hfilled i _
    refine ⟨fun hheld => ?_, fun hi => hfilled i (hmin ▸ hi)⟩
    by_contra hout
    have hempty := h.tailEmpty_result p i (hmin ▸ not_lt.mp hout)
    exact absurd hheld (not_le.mpr hempty)

/-- A member of weight 1 joins one of weight 1000, which has `n` partitions. -/
def lightJoin (n : ℕ) : BalanceInput where
  oracle := ⟨id, fun _ _ => 0⟩
  config := ⟨n, 2⟩
  members :=
    [{ id := 0, state := .active, weight := 1000 }, { id := 1, state := .joined, weight := 1 }]
  partitions := List.replicate n [⟨0, .ready⟩, {}]
  mid := 1

theorem lightJoin_wellFormed (n : ℕ) : (lightJoin n).WellFormed where
  rows := length_replicate
  replicas := by simp [lightJoin]
  replicas_lt := by simp [lightJoin]
  nodup := by
    intro p hp
    rw [eq_of_mem_replicate hp]
    decide
  holders := by
    intro p hp
    rw [eq_of_mem_replicate hp]
    change ∀ c ∈ [⟨0, .ready⟩, {}], c = ({} : Cell) ∨ 0 ≤ c.memberId ∧
      c.memberId.toNat < (lightJoin 0).members.length ∧
        ((lightJoin 0).members.getD c.memberId.toNat {}).localStore = true
    decide
  ids := by
    change ∀ i < (lightJoin 0).members.length, ((lightJoin 0).members.getD i {}).isAvailable =
      true ∨ i = 1 →
      ((lightJoin 0).members.getD i {}).id = i
    decide
  mid_lt := by simp [lightJoin]

theorem lightJoin_previous (n : ℕ) (p : ℕ) (hp : p < n) :
    (lightJoin n).FullFor (lightJoin n).previousCount (lightJoin n).partitions p := by
  have hrow : (lightJoin n).partitions.getD p [] = [⟨0, .ready⟩, {}] := by
    simp [lightJoin, hp]
  unfold FullFor
  rw [hrow]
  change ∀ i < 2, 0 ≤ (cell [⟨0, .ready⟩, {}] i).memberId ↔ i < min (lightJoin 0).previousCount 2
  decide

/-- The light member is in a partition once. -/
theorem newPartitions_wellFormed_lightJoin : ((lightJoin 3).newPartitions.getD 0 []).AtMostOnce :=
  (newPartitions_wellFormed (lightJoin_wellFormed 3) (.inl (by decide)) (fun p hp c hc hheld => by
    rw [List.eq_of_mem_replicate hp] at hc
    rcases List.mem_pair.mp hc with rfl | rfl
    · exact .inl (by decide)
    · exact absurd hheld (by decide)) 0).1

end BalanceInput

end Idgs.Cluster
