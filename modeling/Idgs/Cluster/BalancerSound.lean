import Idgs.Cluster.BalancerEdits

/-!
# A rebalanced table is well formed

From a table in which no partition holds a member twice and only the leaving member is unavailable,
every strategy computes such a table again, and no cell of it is held by an unavailable member: the
leaving member is cleared from every cell the loops run through, and the cells past `max_replicas`
are empty.
-/

namespace Idgs.Cluster

open Partition List

/-- No member is in two cells of the partition. -/
def Partition.AtMostOnce (p : Partition) : Prop :=
  ∀ i j, 0 ≤ (p.cell i).memberId → (p.cell i).memberId = (p.cell j).memberId → i = j

namespace SimplePartitionBalancer

variable (b : SimplePartitionBalancer)

/-! ## One edit of a partition -/

/-- Putting a member that is not in the partition, or nobody, keeps the members apart. -/
theorem atMostOnce_place {p : Partition} {pos : ℕ} {mid : ℤ} (hpos : pos < p.length)
    (hmax : b.maxReplicas ≤ p.length) (h : p.AtMostOnce)
    (hmid : mid < 0 ∨ ∀ i, (p.cell i).memberId ≠ mid) : (b.place p pos mid).AtMostOnce := by
  -- the new holder is in no old cell; the other cells are read through an injective map of
  -- positions
  have hnew : ∀ i, 0 ≤ mid → (p.cell i).memberId ≠ mid := by
    intro i hnonneg
    rcases hmid with hneg | hnot
    · omega
    · exact hnot i
  have hcell : ∀ i, i ≠ pos → (b.place p pos mid).cell i =
      p.cell (if b.movesTo p pos mid = some i then pos else i) := by
    intro i hi
    rw [b.cell_place hpos hmax, if_neg hi]
    split <;> rfl
  have hself : ((b.place p pos mid).cell pos).memberId = mid := by
    rw [b.cell_place hpos hmax, if_pos rfl]
  intro i j hi hij
  by_cases hipos : i = pos
  · by_cases hjpos : j = pos
    · omega
    · rw [hipos, hself] at hi hij
      rw [hcell j hjpos] at hij
      exact absurd hij.symm (hnew _ hi)
  · by_cases hjpos : j = pos
    · rw [hjpos, hself] at hij
      rw [hij] at hi
      rw [hcell i hipos] at hij
      exact absurd hij (hnew _ hi)
    · rw [hcell i hipos] at hi hij
      rw [hcell j hjpos] at hij
      have hsame := h _ _ hi hij
      grind

theorem atMostOnce_swapCells {p : Partition} {pos1 pos2 : ℕ} (h1 : pos1 < p.length)
    (h2 : pos2 < p.length) (h : p.AtMostOnce) : (swapCells p pos1 pos2).AtMostOnce := by
  -- a swap reads the cells through an injective map of positions
  have hcell : ∀ i, (swapCells p pos1 pos2).cell i =
      p.cell (if i = pos1 then pos2 else if i = pos2 then pos1 else i) := by
    intro i
    rw [cell_swapCells h1 h2]
    split
    · rfl
    · split <;> rfl
  intro i j hi hij
  rw [hcell] at hi
  rw [hcell, hcell] at hij
  have hsame := h _ _ hi hij
  grind

/-- A property of all holders survives `place` if the new holder has it. -/
theorem forall_holder_place {P : ℤ → Prop} {p : Partition} {pos : ℕ} {mid : ℤ}
    (hpos : pos < p.length) (hmax : b.maxReplicas ≤ p.length)
    (h : ∀ i, 0 ≤ (p.cell i).memberId → P (p.cell i).memberId) (hmid : 0 ≤ mid → P mid) (i : ℕ)
    (hi : 0 ≤ ((b.place p pos mid).cell i).memberId) : P ((b.place p pos mid).cell i).memberId := by
  revert hi
  rw [b.cell_place hpos hmax]
  split
  · exact hmid
  · split
    · exact h pos
    · exact h i

theorem forall_holder_swapCells {P : ℤ → Prop} {p : Partition} {pos1 pos2 : ℕ}
    (h1 : pos1 < p.length) (h2 : pos2 < p.length)
    (h : ∀ i, 0 ≤ (p.cell i).memberId → P (p.cell i).memberId) (i : ℕ)
    (hi : 0 ≤ ((swapCells p pos1 pos2).cell i).memberId) :
    P ((swapCells p pos1 pos2).cell i).memberId := by
  revert hi
  rw [cell_swapCells h1 h2]
  split
  · exact h pos2
  · split
    · exact h pos1
    · exact h i

/-! ## Cells past `max_replicas` -/

/-- The cells past `max_replicas` are empty. -/
def TailEmpty (w : Work) : Prop :=
  ∀ q i, b.maxReplicas ≤ i → ((w.partition q).cell i).memberId < 0

/-- The positions past `max_replicas` that are held by a member. -/
def tailHeld (w : Work) : Set (ℕ × ℕ) :=
  {x | b.maxReplicas ≤ x.2 ∧ 0 ≤ ((w.partition x.1).cell x.2).memberId}

theorem tailEmpty_iff (w : Work) : b.TailEmpty w ↔ ∀ x, x ∉ b.tailHeld w := by
  constructor
  · rintro h ⟨q, i⟩ ⟨hi, hheld⟩
    exact absurd hheld (not_le.mpr (h q i hi))
  · intro h q i hi
    by_contra hheld
    exact h (q, i) ⟨hi, not_lt.mp hheld⟩

variable {w : Work}

/-- Past the replicas of the configuration there are no cells. -/
theorem memberId_neg_of_le (hshape : b.Shaped w) {q i : ℕ}
    (hi : b.config.maxReplicaCount ≤ i) : ((w.partition q).cell i).memberId < 0 := by
  have hcell : (w.partition q).cell i = {} := by
    rcases hshape.length_or b q with hrow | hnil
    · exact cell_of_length_le (by omega)
    · rw [hnil, cell_nil]
  rw [hcell]
  decide

theorem Edit.tailEmpty {w' : Work} (h : b.Edit b.maxReplicas w w') (hshape : b.Shaped w)
    (htail : b.TailEmpty w) : b.TailEmpty w' := by
  have hmax := b.maxReplicas_le
  intro q i hi
  rcases h.row_cases b hshape q with hsame | ⟨pos, mid, hpos, hrow, -, hplace⟩ |
    ⟨pos1, pos2, h1, h2, hrow, hswap⟩
  · rw [hsame]
    exact htail q i hi
  · rw [hplace, b.cell_place (by omega) (by omega), if_neg (by omega), if_neg]
    · exact htail q i hi
    · intro hmoves
      obtain ⟨-, -, hlt, -⟩ := b.movesTo_spec hmoves
      omega
  · rw [hswap, cell_swapCells (by omega) (by omega), if_neg (by omega), if_neg (by omega)]
    exact htail q i hi

section

variable (hshape : b.Shaped w)

include hshape

/-- Clearing a cell past `max_replicas` takes it out of the held positions. -/
theorem tailHeld_clear {r2 : ℕ} (hlt : r2 < b.config.maxReplicaCount) (p : ℕ) :
    ∀ x ∈ b.tailHeld (b.setMember w p r2 (-1)), x ∈ b.tailHeld w ∧ x ≠ (p, r2) := by
  rintro ⟨q, i⟩ ⟨hi, hheld⟩
  have hmax := b.maxReplicas_le
  rw [partition_setMember] at hheld
  dsimp only at hi hheld
  split at hheld
  · rename_i hq
    subst hq
    rcases hshape.length_or b q with hrow | hnil
    · rw [b.cell_place (by omega) (by omega)] at hheld
      split at hheld
      · exact absurd hheld (by decide)
      · rename_i hne
        rw [if_neg] at hheld
        · exact ⟨⟨hi, hheld⟩, by simp [hne]⟩
        · intro hmoves
          obtain ⟨-, -, hlt', -⟩ := b.movesTo_spec hmoves
          omega
    · rw [hnil, place_nil, cell_nil] at hheld
      exact absurd hheld (by decide)
  · rename_i hq
    exact ⟨⟨hi, hheld⟩, by simp [hq]⟩

/-- Compaction only swaps empty cells to the end. -/
theorem tailHeld_compactReplica {r : ℕ} (hr : r < b.maxReplicas)
    (p : ℕ) : ∀ x ∈ b.tailHeld (b.compactReplica w p r), x ∈ b.tailHeld w := by
  unfold compactReplica
  dsimp only
  split
  · rename_i hcond
    split
    · rename_i r2 hfind
      have hmem := mem_of_find?_eq_some hfind
      have hfound := find?_some hfind
      simp only [decide_eq_true_eq] at hfound
      rw [mem_range'_1] at hmem
      -- the slip of the source: a cell of the leaving member is never swapped, so this one is empty
      have hneg : w.getMemberId p r < 0 := by
        rcases hcond with hneg | hleaving
        · exact hneg
        · exact absurd hleaving hfound.2
      rintro ⟨q, i⟩ ⟨hi, hheld⟩
      rw [partition_swapMember] at hheld
      dsimp only at hi hheld
      split at hheld
      · rename_i hq
        subst hq
        rcases hshape.length_or b q with hrow | hnil
        · rw [cell_swapCells (by omega) (by omega), if_neg (by omega)] at hheld
          split at hheld
          · exact absurd hheld (not_le.mpr hneg)
          · exact ⟨hi, hheld⟩
        · rw [hnil, swapCells_nil, cell_nil] at hheld
          exact absurd hheld (by decide)
      · exact ⟨hi, hheld⟩
    · exact fun x hx => hx
  · exact fun x hx => hx

/-- The swaps that start the compaction of partition `p`. -/
theorem tailHeld_compactReplicas (p : ℕ) :
    ∀ x ∈ b.tailHeld ((List.range b.maxReplicas).foldl (fun w r => b.compactReplica w p r) w),
      x ∈ b.tailHeld w := by
  have hswaps := Common.foldl_removes b.tailHeld (fun _ => (∅ : Set (ℕ × ℕ))) b.Shaped
    (f := fun w r => b.compactReplica w p r) (l := List.range b.maxReplicas)
    (fun w r hr hw => Edits.shaped b (b.compactReplica_edits (mem_range.mp hr) w p) hw)
    (fun w r hr hw x hx =>
      ⟨b.tailHeld_compactReplica hw (mem_range.mp hr) p x hx, Set.notMem_empty x⟩) hshape
  exact fun x hx => (hswaps x hx).1

/-- Compacting partition `p` empties its cells past `max_replicas`. -/
theorem tailHeld_compactPartition (p : ℕ) :
    ∀ x ∈ b.tailHeld (b.compactPartition w p), x ∈ b.tailHeld w ∧ x ∉ {x : ℕ × ℕ | x.1 = p} := by
  have hswapped : b.Shaped
      ((List.range b.maxReplicas).foldl (fun w r => b.compactReplica w p r) w) := by
    refine Common.foldl_invariant b.Shaped (fun w r hr hw => ?_) hshape
    exact Edits.shaped b (b.compactReplica_edits (mem_range.mp hr) w p) hw
  have hclears := Common.foldl_removes b.tailHeld (fun r2 => {(p, r2)}) b.Shaped
    (f := fun w r2 => b.setMember w p r2 (-1))
    (l := List.range' b.maxReplicas (b.config.maxReplicaCount - b.maxReplicas))
    (fun w r2 hr2 hw => ?_) (fun w r2 hr2 hw x hx => ?_) hswapped
  · intro x hx
    obtain ⟨hmid, hcleared⟩ := hclears x hx
    refine ⟨b.tailHeld_compactReplicas hshape p x hmid, fun hp => ?_⟩
    have hlt : x.2 < b.config.maxReplicaCount := by
      by_contra hge
      have hfinal := Edits.shaped b (b.compactPartition_edits w p) hshape
      exact absurd hx.2 (not_le.mpr (b.memberId_neg_of_le hfinal (by omega)))
    exact hcleared x.2 (mem_range'_1.mpr ⟨hx.1, by omega⟩) (Prod.ext hp rfl)
  · rw [mem_range'_1] at hr2
    have hedit : b.Edit b.config.maxReplicaCount w (b.setMember w p r2 (-1)) :=
      .clear p r2 (by omega)
    exact hedit.shaped b hw
  · rw [mem_range'_1] at hr2
    exact b.tailHeld_clear hw (by omega) p x hx

/-- With as many members as replicas, a shaped table has no cells past `max_replicas`. -/
theorem tailEmpty_of_lt
    (hmany : b.config.maxReplicaCount ≤ b.totalAvailableMemberCount) : b.TailEmpty w := by
  intro q i hi
  refine b.memberId_neg_of_le hshape ?_
  have hmax : b.maxReplicas = b.config.maxReplicaCount := Nat.min_eq_right hmany
  omega

/-- After the compaction, or where there are enough members, the cells past `max_replicas` are
empty. -/
theorem compact_tailEmpty
    (hrows : w.newPartitions.length = b.config.partitionCount) : b.TailEmpty (b.compact w) := by
  unfold compact
  split
  · rw [tailEmpty_iff]
    have hremoved := Common.foldl_removes b.tailHeld (fun p => {x : ℕ × ℕ | x.1 = p})
      (fun w => b.Shaped w ∧ w.newPartitions.length = b.config.partitionCount)
      (f := b.compactPartition) (l := List.range b.config.partitionCount)
      (fun w p _ hw => ⟨Edits.shaped b (b.compactPartition_edits w p) hw.1,
        (Edits.length_eq b (b.compactPartition_edits w p)).trans hw.2⟩)
      (fun w p _ hw => b.tailHeld_compactPartition hw.1 p) ⟨hshape, hrows⟩
    intro x hx
    obtain ⟨hfirst, hall⟩ := hremoved x hx
    by_cases hp : x.1 < b.config.partitionCount
    · exact hall x.1 (mem_range.mpr hp) rfl
    · have hheld := hfirst.2
      rw [partition_of_length_le (by omega), cell_nil] at hheld
      exact absurd hheld (by decide)
  · rename_i henough
    exact b.tailEmpty_of_lt hshape (by omega)

end

/-- A whole rebalancing, with the cells past `max_replicas` empty from the edits on that put
members. -/
theorem rebalance_edits_tailEmpty (hmid : b.mid < b.members.length) (hshape : b.Shaped w)
    (hrows : w.newPartitions.length = b.config.partitionCount) :
    ∃ w₁, b.Edits b.config.maxReplicaCount w w₁ ∧ b.TailEmpty w₁ ∧
      b.Edits b.maxReplicas w₁ (b.adjust (b.rebalance w)) := by
  have hpos : 0 < b.members.length := by omega
  unfold rebalance
  split
  · exact ⟨b.compact w, b.compact_edits w, b.compact_tailEmpty hshape hrows,
      (b.fill_edits hpos _).trans (b.adjust_edits _)⟩
  · rename_i hmany
    have htail := b.tailEmpty_of_lt hshape (by omega)
    split
    · exact ⟨w, .refl, htail, (b.balanceLeave_edits hpos w).trans (b.adjust_edits _)⟩
    · rename_i hactive
      exact ⟨w, .refl, htail, (b.balanceJoin_edits hmid hactive w).trans (b.adjust_edits _)⟩

/-! ## Cells of the leaving member -/

/-- The positions whose holder is not available. -/
def stale (w : Work) : Set (ℕ × ℕ) :=
  {x | 0 ≤ ((w.partition x.1).cell x.2).memberId ∧
    b.isAvailable ((w.partition x.1).cell x.2).memberId = false}

/-- Every holder is available or is the member that joins or leaves. -/
def HeldByLive (w : Work) : Prop :=
  ∀ q i, 0 ≤ ((w.partition q).cell i).memberId →
    b.isAvailable ((w.partition q).cell i).memberId = true ∨
      ((w.partition q).cell i).memberId = b.member.id

/-- Setting a cell to an available member or to nobody takes it out of the stale positions, and the
member it displaces is moved only if available. -/
theorem stale_setMember (hshape : b.Shaped w) {p r : ℕ} (hr : r < b.config.maxReplicaCount)
    {mid : ℤ} (hmid : mid < 0 ∨ b.isAvailable mid = true) :
    ∀ x ∈ b.stale (b.setMember w p r mid), x ∈ b.stale w ∧ x ≠ (p, r) := by
  rintro ⟨q, i⟩ hx
  have hmax := b.maxReplicas_le
  unfold stale at hx ⊢
  rw [Set.mem_ofPred_eq, partition_setMember] at hx
  dsimp only at hx
  split at hx
  · rename_i hq
    subst hq
    rcases hshape.length_or b q with hrow | hnil
    · rw [b.cell_place (by omega) (by omega)] at hx
      split at hx
      · obtain ⟨hnonneg, hnot⟩ := hx
        rcases hmid with hneg | hav
        · exact absurd hnonneg (not_le.mpr hneg)
        · rw [hav] at hnot
          cases hnot
      · rename_i hne
        split at hx
        · rename_i hmoves
          rw [(b.movesTo_spec hmoves).1] at hx
          cases hx.2
        · exact ⟨hx, by simp [hne]⟩
    · rw [hnil, place_nil, cell_nil] at hx
      exact absurd hx.1 (by decide)
  · rename_i hq
    exact ⟨hx, by simp [hq]⟩

/-- An edit keeps every property of holders that the members to be put have. -/
theorem Edit.forall_holder {P : ℤ → Prop} (hput : ∀ i, b.MayPut i → P (b.members.getD i {}).id)
    {k : ℕ} (hk : k ≤ b.config.maxReplicaCount) {w' : Work} (h : b.Edit k w w')
    (hshape : b.Shaped w)
    (hP : ∀ q i, 0 ≤ ((w.partition q).cell i).memberId → P ((w.partition q).cell i).memberId) :
    ∀ q i, 0 ≤ ((w'.partition q).cell i).memberId → P ((w'.partition q).cell i).memberId := by
  have hmax := b.maxReplicas_le
  intro q
  rcases h.row_cases b hshape q with hsame | ⟨pos, mid, hpos, hrow, hmid, hplace⟩ |
    ⟨pos1, pos2, h1, h2, hrow, hswap⟩
  · rw [hsame]
    exact hP q
  · rw [hplace]
    refine b.forall_holder_place (by omega) (by omega) (hP q) fun hnonneg => ?_
    rcases hmid with rfl | ⟨-, ⟨i, hi, rfl⟩, -⟩
    · exact absurd hnonneg (by decide)
    · exact hput i hi
  · rw [hswap]
    exact forall_holder_swapCells (by omega) (by omega) (hP q)

/-- A member that passes `checkMember` is nowhere in the partition when the cells past
`max_replicas`, which `checkMember` does not look at, are empty. -/
theorem ne_of_checkMember {q : ℕ} {mid : ℤ}
    (htail : ∀ i, b.maxReplicas ≤ i → ((w.partition q).cell i).memberId < 0)
    (hcheck : b.checkMember w q mid = true) :
    mid < 0 ∨ ∀ i, ((w.partition q).cell i).memberId ≠ mid := by
  by_cases hneg : mid < 0
  · exact .inl hneg
  · refine .inr fun i => ?_
    by_cases hi : i < b.maxReplicas
    · simp only [checkMember, hneg, decide_false, Bool.false_or, all_eq_true,
        decide_eq_true_eq] at hcheck
      exact hcheck i (mem_range.mpr hi)
    · have hempty := htail i (by omega)
      omega

/-- An edit keeps the members of a partition apart; putting one needs the cells past `max_replicas`
to be empty. -/
theorem Edit.atMostOnce {k : ℕ} (hk : k ≤ b.config.maxReplicaCount) {w' : Work}
    (h : b.Edit k w w') (hshape : b.Shaped w) (htail : k = b.maxReplicas → b.TailEmpty w)
    (honce : ∀ q, (w.partition q).AtMostOnce) (q : ℕ) : (w'.partition q).AtMostOnce := by
  have hmax := b.maxReplicas_le
  rcases h.row_cases b hshape q with hsame | ⟨pos, mid, hpos, hrow, hmid, hplace⟩ |
    ⟨pos1, pos2, h1, h2, hrow, hswap⟩
  · rw [hsame]
    exact honce q
  · rw [hplace]
    refine b.atMostOnce_place (by omega) (by omega) (honce q) ?_
    rcases hmid with rfl | ⟨hk', -, hcheck⟩
    · exact .inl (by decide)
    · exact b.ne_of_checkMember (htail hk' q) hcheck
  · rw [hswap]
    exact atMostOnce_swapCells (by omega) (by omega) (honce q)

/-! ## The table of a whole call -/

/-- Within the first `max_replicas` cells, with empty cells after them, members stay apart. -/
theorem Edits.atMostOnce {w' : Work} (h : b.Edits b.maxReplicas w w') (hshape : b.Shaped w)
    (htail : b.TailEmpty w) (honce : ∀ q, (w.partition q).AtMostOnce) :
    b.TailEmpty w' ∧ ∀ q, (w'.partition q).AtMostOnce := by
  induction h with
  | refl => exact ⟨htail, honce⟩
  | tail hprev hedit ih =>
    have hmid := Edits.shaped b hprev hshape
    exact ⟨hedit.tailEmpty b hmid ih.1,
      hedit.atMostOnce b b.maxReplicas_le hmid (fun _ => ih.1) ih.2⟩

/-- Within all cells too: where edits then put members, there are no further cells. -/
theorem Edits.atMostOnce_of_all {w' : Work} (h : b.Edits b.config.maxReplicaCount w w')
    (hshape : b.Shaped w) (honce : ∀ q, (w.partition q).AtMostOnce) :
    ∀ q, (w'.partition q).AtMostOnce := by
  induction h with
  | refl => exact honce
  | tail hprev hedit ih =>
    have hmid := Edits.shaped b hprev hshape
    refine hedit.atMostOnce b le_rfl hmid (fun hall q i hi => ?_) ih
    exact b.memberId_neg_of_le hmid (hall ▸ hi)

/-- With empty cells past `max_replicas`, clearing the first ones clears the whole table. -/
theorem not_stale_of_tailEmpty (hrows : w.newPartitions.length = b.config.partitionCount)
    (htail : b.TailEmpty w)
    (h : ∀ x ∈ b.stale w, x.1 < b.config.partitionCount → b.maxReplicas ≤ x.2) :
    ∀ x, x ∉ b.stale w := by
  rintro ⟨q, i⟩ hx
  by_cases hq : q < b.config.partitionCount
  · exact absurd hx.1 (not_le.mpr (htail q i (h _ hx hq)))
  · have hheld := hx.1
    rw [partition_of_length_le (by omega), cell_nil] at hheld
    exact absurd hheld (by decide)

/-- The loops over the first `max_replicas` replicas and all partitions: if the step for replica `r`
of partition `p` takes that cell out of the stale ones, they all end up taken out. -/
theorem stale_loops {σ : Type*} (table : σ → Work) (inv : σ → Prop) {step : σ → ℕ → ℕ → σ}
    (hinv : ∀ s r p, r < b.maxReplicas → inv s → inv (step s r p))
    (hstep : ∀ s r p, r < b.maxReplicas → inv s → ∀ x ∈ b.stale (table (step s r p)),
      x ∈ b.stale (table s) ∧ x ∉ ({(p, r)} : Set (ℕ × ℕ))) {s : σ} (hs : inv s) :
    ∀ x ∈ b.stale (table ((List.range b.maxReplicas).foldl (fun s r =>
        (List.range b.config.partitionCount).foldl (fun s p => step s r p) s) s)),
      x.1 < b.config.partitionCount → b.maxReplicas ≤ x.2 := by
  have hrow : ∀ s, ∀ r ∈ List.range b.maxReplicas, inv s → ∀ x ∈ b.stale (table
      ((List.range b.config.partitionCount).foldl (fun s p => step s r p) s)),
      x ∈ b.stale (table s) ∧ x ∉ {x : ℕ × ℕ | x.2 = r ∧ x.1 < b.config.partitionCount} := by
    intro s r hr hs x hx
    obtain ⟨hfirst, hcleared⟩ := Common.foldl_removes (fun s => b.stale (table s))
      (fun p => {(p, r)}) inv (fun s p _ hs => hinv s r p (mem_range.mp hr) hs)
      (fun s p _ hs => hstep s r p (mem_range.mp hr) hs) hs x hx
    refine ⟨hfirst, ?_⟩
    rintro ⟨hxr, hxp⟩
    exact hcleared x.1 (mem_range.mpr hxp) (Prod.ext rfl hxr)
  have hall := Common.foldl_removes (fun s => b.stale (table s))
    (fun r => {x : ℕ × ℕ | x.2 = r ∧ x.1 < b.config.partitionCount}) inv
    (fun s r hr hs => Common.foldl_invariant inv
      (fun s p _ hs => hinv s r p (mem_range.mp hr) hs) hs) hrow hs
  intro x hx hp
  by_contra hlt
  exact (hall x hx).2 x.2 (mem_range.mpr (by omega)) ⟨rfl, hp⟩

section Rebalance

variable {b}
variable (hids : ∀ i < b.members.length, (b.members.getD i {}).isAvailable = true ∨ i = b.mid →
    (b.members.getD i {}).id = i)
  (hmid : b.mid < b.members.length)
  (hstate : b.member.isAvailable = true ∨ b.member.state = .inactive)

include hids hmid

theorem isAvailable_member : b.isAvailable b.member.id = b.member.isAvailable := by
  have hid : b.member.id = b.mid := hids b.mid hmid (.inr rfl)
  rw [hid, isAvailable, isAvailableId]
  simp [member]

/-- A stale cell is one of the leaving member. -/
theorem leaveMid_of_stale (hlive : b.HeldByLive w) {q i : ℕ} (h : (q, i) ∈ b.stale w) :
    w.getMemberId q i = b.member.id ∧ b.leaveMid = b.member.id := by
  obtain ⟨hnonneg, hnot⟩ := h
  rcases hlive q i hnonneg with hav | hid
  · rw [hav] at hnot
    cases hnot
  · refine ⟨hid, ?_⟩
    have hgone : b.member.isAvailable = false := by
      rw [← isAvailable_member hids hmid, ← hid]
      exact hnot
    rw [leaveMid, hgone]
    rfl

include hstate

theorem isAvailable_of_mayPut {i : ℕ} (h : b.MayPut i) :
    b.isAvailable (b.members.getD i {}).id = true := by
  rcases h with ⟨hi, hav | ⟨rfl, hactive⟩⟩
  · rw [hids i hi (.inl hav), isAvailable, isAvailableId]
    simpa using hav
  · have hav : b.member.isAvailable = true := hstate.resolve_right hactive
    exact (isAvailable_member hids hmid).trans hav

theorem stale_fillCell (hshape : b.Shaped w) {p r index : ℕ} {leaving : ℤ}
    (hr : r < b.maxReplicas) (hindex : index < b.members.length)
    (hleaving : (p, r) ∈ b.stale w → w.getMemberId p r = leaving) :
    ∀ x ∈ b.stale (b.fillCell w leaving p r (b.findMember w p r index)).1,
      x ∈ b.stale w ∧ x ∉ ({(p, r)} : Set (ℕ × ℕ)) := by
  have hmax := b.maxReplicas_le
  intro x hx
  cases hfound : b.findMember w p r index with
  | mk found next =>
    rw [hfound] at hx
    cases found with
    | some i =>
      obtain ⟨hi, hav, -⟩ := b.findMember_spec hindex hfound
      have hput := isAvailable_of_mayPut hids hmid hstate ⟨hi, .inl hav⟩
      exact b.stale_setMember hshape (by omega) (.inr hput) x hx
    | none =>
      rw [fillCell] at hx
      split at hx
      · exact b.stale_setMember hshape (by omega) (.inl (by decide)) x hx
      · rename_i hother
        refine ⟨hx, fun hpr => ?_⟩
        obtain rfl := Set.mem_singleton_iff.mp hpr
        exact hother (hleaving hx)

/-- A step of `simple_balance` leaves no unavailable member in the cell it treats. -/
theorem stale_simpleStep {st : Work × ℕ} (hshape : b.Shaped st.1) (hlive : b.HeldByLive st.1)
    (hindex : st.2 < b.members.length) {r : ℕ} (hr : r < b.maxReplicas) (p : ℕ) :
    ∀ x ∈ b.stale (b.simpleStep st r p).1, x ∈ b.stale st.1 ∧ x ∉ ({(p, r)} : Set (ℕ × ℕ)) := by
  have hleaving : (p, r) ∈ b.stale st.1 → st.1.getMemberId p r = b.leaveMid := by
    intro hx
    obtain ⟨hid, hleave⟩ := leaveMid_of_stale hids hmid hlive hx
    exact hid.trans hleave.symm
  unfold simpleStep
  dsimp only
  split
  · rename_i hkept
    intro x hx
    refine ⟨hx, fun hpr => ?_⟩
    obtain rfl := Set.mem_singleton_iff.mp hpr
    exact hkept.2.1 (hleaving hx)
  · exact stale_fillCell hids hmid hstate hshape hr hindex hleaving

/-- A step of `balanceLeave` leaves no unavailable member in the cell it treats. -/
theorem stale_leaveStep (hshape : b.Shaped w) (hlive : b.HeldByLive w) {r : ℕ}
    (hr : r < b.maxReplicas) (p : ℕ) :
    ∀ x ∈ b.stale (b.leaveStep w r p), x ∈ b.stale w ∧ x ∉ ({(p, r)} : Set (ℕ × ℕ)) := by
  have hleaving : (p, r) ∈ b.stale w → w.getMemberId p r = b.member.id :=
    fun hx => (leaveMid_of_stale hids hmid hlive hx).1
  unfold leaveStep
  dsimp only
  split
  · rename_i hkept
    intro x hx
    refine ⟨hx, fun hpr => ?_⟩
    obtain rfl := Set.mem_singleton_iff.mp hpr
    exact hkept.2 (hleaving hx)
  · exact stale_fillCell hids hmid hstate hshape hr (Nat.mod_lt _ (by omega)) hleaving

theorem Edits.heldByLive {k : ℕ} (hk : k ≤ b.config.maxReplicaCount) {w' : Work}
    (h : b.Edits k w w') (hshape : b.Shaped w) (hlive : b.HeldByLive w) : b.HeldByLive w' := by
  induction h with
  | refl => exact hlive
  | tail hprev hedit ih =>
    refine Edit.forall_holder (P := fun id => b.isAvailable id = true ∨ id = b.member.id) b
      (fun i hi => ?_) hk hedit (Edits.shaped b hprev hshape) ih
    exact .inl (isAvailable_of_mayPut hids hmid hstate hi)

/-- What the loops of the strategies keep. -/
structure Live (b : SimplePartitionBalancer) (w : Work) : Prop where
  shaped : b.Shaped w
  rows : w.newPartitions.length = b.config.partitionCount
  held : b.HeldByLive w

theorem Live.edits {k : ℕ} (hk : k ≤ b.config.maxReplicaCount) {w' : Work} (h : Live b w)
    (hedits : b.Edits k w w') : Live b w' where
  shaped := Edits.shaped b hedits h.shaped
  rows := (Edits.length_eq b hedits).trans h.rows
  held := Edits.heldByLive hids hmid hstate hk hedits h.shaped h.held

/-- After `fill`, no cell among the first `max_replicas` is stale. -/
theorem stale_fill (h : Live b w) :
    ∀ x ∈ b.stale (b.fill w), x.1 < b.config.partitionCount → b.maxReplicas ≤ x.2 := by
  refine b.stale_loops Prod.fst (fun st => Live b st.1 ∧ st.2 < b.members.length) ?_ ?_
    (s := (w, 0)) ⟨h, by omega⟩
  · intro st r p hr hst
    obtain ⟨hedits, hindex⟩ := b.simpleStep_edits hr hst.2 p
    exact ⟨Live.edits hids hmid hstate b.maxReplicas_le hst.1 hedits, hindex⟩
  · intro st r p hr hst
    exact stale_simpleStep hids hmid hstate hst.1.shaped hst.1.held hst.2 hr p

/-- After `balanceLeave`, no cell among the first `max_replicas` is stale. -/
theorem stale_balanceLeave (h : Live b w) :
    ∀ x ∈ b.stale (b.balanceLeave w), x.1 < b.config.partitionCount → b.maxReplicas ≤ x.2 := by
  refine b.stale_loops id (Live b) ?_ ?_ h
  · intro w r p hr hw
    exact Live.edits hids hmid hstate b.maxReplicas_le hw (b.leaveStep_edits hr (by omega) w p)
  · intro w r p hr hw
    exact stale_leaveStep hids hmid hstate hw.shaped hw.held hr p

/-- Edits put available members only. -/
theorem Edits.not_stale {k : ℕ} (hk : k ≤ b.config.maxReplicaCount) {w' : Work}
    (h : b.Edits k w w') (hshape : b.Shaped w) (hnone : ∀ x, x ∉ b.stale w) :
    ∀ x, x ∉ b.stale w' := by
  induction h with
  | refl => exact hnone
  | tail hprev hedit ih =>
    have hall := Edit.forall_holder (P := fun id => b.isAvailable id = true) b
      (fun i hi => isAvailable_of_mayPut hids hmid hstate hi) hk hedit
      (Edits.shaped b hprev hshape) (fun q i hi => ?_)
    · rintro ⟨q, i⟩ ⟨hi, hnot⟩
      rw [hall q i hi] at hnot
      cases hnot
    · by_contra hnot
      exact ih (q, i) ⟨hi, by simpa using hnot⟩

/-- **One rebalancing computes a well-formed table**: no member twice in a partition, and every
holder available. -/
theorem rebalance_sound (h : Live b w) (honce : ∀ q, (w.partition q).AtMostOnce) :
    (∀ q, ((b.adjust (b.rebalance w)).partition q).AtMostOnce) ∧
      ∀ q i, 0 ≤ (((b.adjust (b.rebalance w)).partition q).cell i).memberId →
        b.isAvailable (((b.adjust (b.rebalance w)).partition q).cell i).memberId = true := by
  have hmax := b.maxReplicas_le
  -- with more members than replicas, all cells are among the first `max_replicas`
  have hfull : ¬ b.totalAvailableMemberCount ≤ b.config.maxReplicaCount → b.TailEmpty w :=
    fun hmany => b.tailEmpty_of_lt h.shaped (by omega)
  have hstrategy : Live b (b.rebalance w) ∧ (b.TailEmpty (b.rebalance w) ∧
      ∀ q, ((b.rebalance w).partition q).AtMostOnce) ∧ ∀ x, x ∉ b.stale (b.rebalance w) := by
    unfold rebalance
    split
    · have hcompact := Live.edits hids hmid hstate le_rfl h (b.compact_edits w)
      have hedits := b.fill_edits (by omega) (b.compact w)
      have hfill := Live.edits hids hmid hstate hmax hcompact hedits
      have hsound := Edits.atMostOnce b hedits hcompact.shaped
        (b.compact_tailEmpty h.shaped h.rows)
        (Edits.atMostOnce_of_all b (b.compact_edits w) h.shaped honce)
      exact ⟨hfill, hsound, b.not_stale_of_tailEmpty hfill.rows hsound.1
        (stale_fill hids hmid hstate hcompact)⟩
    · rename_i hmany
      split
      · have hedits := b.balanceLeave_edits (by omega) w
        have hleave := Live.edits hids hmid hstate hmax h hedits
        have hsound := Edits.atMostOnce b hedits h.shaped (hfull hmany) honce
        exact ⟨hleave, hsound, b.not_stale_of_tailEmpty hleave.rows hsound.1
          (stale_balanceLeave hids hmid hstate h)⟩
      · rename_i hactive
        have hedits := b.balanceJoin_edits hmid hactive w
        refine ⟨Live.edits hids hmid hstate hmax h hedits,
          Edits.atMostOnce b hedits h.shaped (hfull hmany) honce,
          Edits.not_stale hids hmid hstate hmax hedits h.shaped ?_⟩
        -- nobody leaves, so the only member that may be unavailable is available
        rintro ⟨q, i⟩ hx
        have hid := (leaveMid_of_stale hids hmid h.held hx).1
        have hnot : b.isAvailable b.member.id = false := hid ▸ hx.2
        rw [isAvailable_member hids hmid, hstate.resolve_right hactive] at hnot
        cases hnot
  obtain ⟨hlive, hsound, hnone⟩ := hstrategy
  have hadjust := b.adjust_edits (b.rebalance w)
  refine ⟨(Edits.atMostOnce b hadjust hlive.shaped hsound.1 hsound.2).2,
    fun q i hi => ?_⟩
  by_contra hnot
  exact Edits.not_stale hids hmid hstate hmax hadjust hlive.shaped hnone (q, i)
    ⟨hi, by simpa using hnot⟩

end Rebalance

end SimplePartitionBalancer

end Idgs.Cluster
