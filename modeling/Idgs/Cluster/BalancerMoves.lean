import Idgs.Cluster.BalancerReady
import Idgs.Cluster.BalancerSound

/-!
# What a rebalancing moves

With more members than replicas, `balanceLeave` overwrites only cells that are empty or belong to
the leaving member, and `balanceJoin` puts the joining member into a partition at most once, for at
most one other; `adjust` permutes the cells of a partition. So replicas stay where a rebalancing has
no reason to move them.
-/

namespace Idgs.Cluster

open Partition List

namespace Partition

/-- The replicas of a partition: its cells that are held by a member. -/
def held (p : Partition) : Set Cell := {c | c ∈ p ∧ 0 ≤ c.memberId}

theorem mem_held {p : Partition} {c : Cell} : c ∈ p.held ↔ 0 ≤ c.memberId ∧ ∃ i, p.cell i = c := by
  constructor
  · rintro ⟨hc, hnonneg⟩
    obtain ⟨i, -, hi⟩ := exists_cell_of_mem hc
    exact ⟨hnonneg, i, hi⟩
  · rintro ⟨hnonneg, i, rfl⟩
    exact ⟨cell_mem (lt_length_of_memberId hnonneg), hnonneg⟩

end Partition

namespace SimplePartitionBalancer

variable (b : SimplePartitionBalancer)

/-! ## One edit -/

/-- `setMember` keeps every replica but the one it overwrites. -/
theorem held_place_of_ne {p : Partition} {pos : ℕ} (hpos : pos < p.length)
    (hmax : b.maxReplicas ≤ p.length)
    (mid : ℤ) {c : Cell} (hc : c ∈ p.held) (hne : p.cell pos ≠ c) :
    c ∈ (b.place p pos mid).held := by
  obtain ⟨hnonneg, i, rfl⟩ := mem_held.mp hc
  refine mem_held.mpr ⟨hnonneg, i, ?_⟩
  have hi : i ≠ pos := fun h => hne (h ▸ rfl)
  rw [b.cell_place hpos hmax, if_neg hi, if_neg]
  -- a cell that is moved into was empty
  intro hmoves
  exact absurd hnonneg (not_le.mpr (b.movesTo_spec hmoves).2.2.2)

/-- `setMember` adds the member as a fresh replica and removes at most the one it displaces. -/
theorem held_place {p : Partition} {pos : ℕ} (hpos : pos < p.length)
    (hmax : b.maxReplicas ≤ p.length) (honce : p.AtMostOnce) {mid : ℤ} (hmid : 0 ≤ mid) :
    ∃ removed : Set Cell, removed.Subsingleton ∧
      (b.place p pos mid).held = insert ⟨mid, .init⟩ (p.held \ removed) := by
  refine ⟨{c | c = p.cell pos ∧ b.movesTo p pos mid = none}, fun c hc d hd =>
    hc.1.trans hd.1.symm, ?_⟩
  ext c
  constructor
  · intro hc
    obtain ⟨hnonneg, i, hi⟩ := mem_held.mp hc
    rw [b.cell_place hpos hmax] at hi
    split at hi
    · exact .inl hi.symm
    · rename_i hne
      refine .inr ?_
      split at hi
      · rename_i hmoves
        refine ⟨mem_held.mpr ⟨hnonneg, pos, hi⟩, fun hremoved => ?_⟩
        rw [hremoved.2] at hmoves
        cases hmoves
      · refine ⟨mem_held.mpr ⟨hnonneg, i, hi⟩, fun hremoved => hne ?_⟩
        have hsame : (p.cell i).memberId = (p.cell pos).memberId := by rw [hi, hremoved.1]
        exact honce i pos (hi ▸ hnonneg) hsame
  · rintro (rfl | ⟨hc, hkept⟩)
    · exact mem_held.mpr ⟨hmid, pos, by rw [b.cell_place hpos hmax, if_pos rfl]⟩
    · by_cases hpos' : p.cell pos = c
      · cases hmoves : b.movesTo p pos mid with
        | none => exact absurd ⟨hpos'.symm, hmoves⟩ hkept
        | some j =>
          obtain ⟨-, hlt, -, -⟩ := b.movesTo_spec hmoves
          refine mem_held.mpr ⟨hc.2, j, ?_⟩
          rw [b.cell_place hpos hmax, if_neg (by omega), if_pos hmoves, hpos']
      · exact b.held_place_of_ne hpos hmax mid hc hpos'

/-- A swap keeps the replicas. -/
theorem held_swapCells {p : Partition} {pos1 pos2 : ℕ} (h1 : pos1 < p.length)
    (h2 : pos2 < p.length) :
    (swapCells p pos1 pos2).held = p.held := by
  ext c
  rw [mem_held, mem_held]
  refine and_congr_right fun _ => ⟨?_, ?_⟩
  · rintro ⟨i, hi⟩
    rw [cell_swapCells h1 h2] at hi
    split at hi
    · exact ⟨pos2, hi⟩
    · split at hi
      · exact ⟨pos1, hi⟩
      · exact ⟨i, hi⟩
  · rintro ⟨i, hi⟩
    by_cases h2' : i = pos2
    · exact ⟨pos1, by rw [cell_swapCells h1 h2, if_pos rfl, ← h2', hi]⟩
    · by_cases h1' : i = pos1
      · refine ⟨pos2, ?_⟩
        rw [cell_swapCells h1 h2, if_neg (fun h => h2' (h1'.trans h.symm)), if_pos rfl, ← h1', hi]
      · exact ⟨i, by rw [cell_swapCells h1 h2, if_neg h1', if_neg h2', hi]⟩

/-- `swapMember` keeps the replicas of every partition. -/
theorem held_swapMember {w : Work} (hshape : b.Shaped w) {pos1 pos2 : ℕ}
    (h1 : pos1 < b.config.maxReplicaCount) (h2 : pos2 < b.config.maxReplicaCount) (part q : ℕ) :
    ((swapMember w part pos1 pos2).partition q).held = (w.partition q).held := by
  rw [partition_swapMember]
  split
  · rcases hshape.length_or b q with hrow | hnil
    · exact held_swapCells (by omega) (by omega)
    · rw [hnil, swapCells_nil]
  · rfl

/-- `adjust` keeps the replicas of every partition. -/
theorem held_adjust {w : Work} (hshape : b.Shaped w) (q : ℕ) :
    ((b.adjust w).partition q).held = (w.partition q).held := by
  have hmax := b.maxReplicas_le
  have hinv : b.Shaped (b.adjust w) ∧ ((b.adjust w).partition q).held = (w.partition q).held := by
    refine Common.foldl_invariant
      (fun w' => b.Shaped w' ∧ (w'.partition q).held = (w.partition q).held) (fun w' r hr hw' => ?_)
      ⟨hshape, rfl⟩
    refine Common.foldl_invariant
      (fun w' => b.Shaped w' ∧ (w'.partition q).held = (w.partition q).held) (fun w' p _ hw' =>
        ?_) hw'
    refine ⟨Edits.shaped b (b.adjustStep_edits (mem_range.mp hr) w' p) hw'.1, ?_⟩
    unfold adjustStep
    split
    · rename_i r2 htarget
      have hmem := mem_of_find?_eq_some htarget
      rw [mem_range'_1] at hmem
      exact (b.held_swapMember hw'.1 (by omega) (by omega) p q).trans hw'.2
    · exact hw'.2
  exact hinv.2

/-! ## A member leaves -/

/-- A replica of a member other than the leaving one. -/
def Survives (c : Cell) : Prop := 0 ≤ c.memberId ∧ c.memberId ≠ b.member.id

/-- `setMember` on a cell that no surviving member holds keeps the surviving replicas. -/
theorem survives_setMember {w : Work} (hshape : b.Shaped w) {p r : ℕ} (hr : r < b.maxReplicas)
    (hcell : ¬ b.Survives ((w.partition p).cell r)) (mid : ℤ) {q : ℕ} {c : Cell}
    (hc : c ∈ w.partition q)
    (hsurvives : b.Survives c) : c ∈ (b.setMember w p r mid).partition q := by
  have hmax := b.maxReplicas_le
  rw [partition_setMember]
  split
  · rename_i hq
    subst hq
    rcases hshape.length_or b q with hrow | hnil
    · refine (b.held_place_of_ne (by omega) (by omega) mid ⟨hc, hsurvives.1⟩ ?_).1
      intro heq
      exact hcell (heq ▸ hsurvives)
    · rw [hnil] at hc
      cases hc
  · exact hc

theorem survives_leaveStep {w : Work} (hshape : b.Shaped w) {p r : ℕ} (hr : r < b.maxReplicas)
    {q : ℕ} {c : Cell}
    (hc : c ∈ w.partition q) (hsurvives : b.Survives c) : c ∈ (b.leaveStep w r p).partition q := by
  unfold leaveStep
  dsimp only
  split
  · exact hc
  · rename_i hcell
    unfold fillCell
    split
    · exact b.survives_setMember hshape hr hcell _ hc hsurvives
    · split
      · exact b.survives_setMember hshape hr hcell _ hc hsurvives
      · exact hc

/-- `balanceLeave` keeps the replicas of the members that stay. -/
theorem survives_balanceLeave (hpos : 0 < b.members.length) {w : Work} (hshape : b.Shaped w) {q : ℕ}
    {c : Cell}
    (hc : c ∈ w.partition q) (hsurvives : b.Survives c) : c ∈ (b.balanceLeave w).partition q := by
  have hinv : b.Shaped (b.balanceLeave w) ∧ c ∈ (b.balanceLeave w).partition q := by
    refine Common.foldl_invariant (fun w' => b.Shaped w' ∧ c ∈ w'.partition q)
      (fun w' r hr hw' => ?_) ⟨hshape, hc⟩
    refine Common.foldl_invariant (fun w' => b.Shaped w' ∧ c ∈ w'.partition q)
      (fun w' p _ hw' => ?_) hw'
    exact ⟨Edits.shaped b (b.leaveStep_edits (mem_range.mp hr) hpos w' p) hw'.1,
      b.survives_leaveStep hw'.1 (mem_range.mp hr) hw'.2 hsurvives⟩
  exact hinv.2

/-! ## A member joins -/

/-- A partition's replicas after a join: as before, or the joining member is new among them and at
most one other is gone. -/
def JoinMoves (old new : Partition) : Prop :=
  new.held = old.held ∨
    ((∀ c ∈ old.held, c.memberId ≠ b.member.id) ∧
      ∃ removed : Set Cell, removed.Subsingleton ∧
        new.held = insert ⟨b.member.id, .init⟩ (old.held \ removed))

/-- What the loops of `balanceJoin` keep. -/
structure JoinInv (w₀ w : Work) : Prop where
  shaped : b.Shaped w
  once : ∀ q, (w.partition q).AtMostOnce
  moves : ∀ q, b.JoinMoves (w₀.partition q) (w.partition q)

section

variable (hfull : b.maxReplicas = b.config.maxReplicaCount)

include hfull

/-- Putting the joining member into a partition that it is not in. -/
theorem JoinInv.setMember (hid : 0 ≤ b.member.id)
    {w₀ w : Work} (h : b.JoinInv w₀ w) {p r : ℕ} (hr : r < b.maxReplicas)
    (hcheck : b.checkMember w p b.member.id = true) :
    b.JoinInv w₀ (b.setMember w p r b.member.id) := by
  have htail : ∀ i, b.maxReplicas ≤ i → ((w.partition p).cell i).memberId < 0 :=
    fun i hi => b.memberId_neg_of_le h.shaped (hfull ▸ hi)
  have hnot : ∀ i, ((w.partition p).cell i).memberId ≠ b.member.id :=
    (b.ne_of_checkMember htail hcheck).resolve_left (not_lt.mpr hid)
  refine ⟨?_, fun q => ?_, fun q => ?_⟩
  · intro q hq
    rw [partition_setMember]
    have hq' : q < w.newPartitions.length := by simpa [SimplePartitionBalancer.setMember] using hq
    split
    · rw [length_place, h.shaped q hq']
    · exact h.shaped q hq'
  · rw [partition_setMember]
    split
    · rename_i hq
      subst hq
      rcases h.shaped.length_or b q with hrow | hnil
      · exact b.atMostOnce_place (by omega) (by omega) (h.once q) (.inr hnot)
      · rw [hnil, place_nil, ← hnil]
        exact h.once q
    · exact h.once q
  · rw [partition_setMember]
    split
    · rename_i hq
      subst hq
      rcases h.shaped.length_or b q with hrow | hnil
      · obtain ⟨removed, hremoved, hheld⟩ :=
          b.held_place (show r < (w.partition q).length by omega) (by omega) (h.once q) hid
        rcases h.moves q with hsame | ⟨-, removed', -, hjoined⟩
        · refine .inr ⟨fun c hc hmid => ?_, removed, hremoved, hsame ▸ hheld⟩
          rw [← hsame] at hc
          obtain ⟨-, i, rfl⟩ := mem_held.mp hc
          exact hnot i hmid
        · -- it is not in the partition, so it has not been put there before
          have hin : (⟨b.member.id, .init⟩ : Cell) ∈ (w.partition q).held :=
            hjoined ▸ Set.mem_insert _ _
          obtain ⟨-, i, hi⟩ := mem_held.mp hin
          exact absurd (congrArg Cell.memberId hi) (hnot i)
      · rw [hnil, place_nil, ← hnil]
        exact h.moves q
    · exact h.moves q

theorem JoinInv.joinStep (hid : 0 ≤ b.member.id)
    {w₀ : Work} {st : JoinState} (h : b.JoinInv w₀ st.work) {r : ℕ} (hr : r < b.maxReplicas)
    (state : ℕ) (priority : ℤ) : b.JoinInv w₀ (b.joinStep r st state priority).work := by
  unfold SimplePartitionBalancer.joinStep
  dsimp only
  split
  · exact h
  · split
    · exact h
    · split
      · rename_i htakes
        rw [takesOver, Bool.and_eq_true] at htakes
        exact h.setMember b hfull hid hr htakes.2
      · exact h

theorem JoinInv.balanceJoin (hid : 0 ≤ b.member.id)
    {w₀ w : Work} (h : b.JoinInv w₀ w) : b.JoinInv w₀ (b.balanceJoin w) := by
  refine Common.foldl_invariant (fun st : JoinState => b.JoinInv w₀ st.work) (fun st r hr hst =>
    ?_) h
  refine Common.foldl_invariant (fun st : JoinState => b.JoinInv w₀ st.work) (fun st pass _ hst =>
    ?_) hst
  refine Common.foldl_invariant (fun st : JoinState => b.JoinInv w₀ st.work) (fun st _ _ hst =>
    ?_) hst
  exact hst.joinStep b hfull hid (mem_range.mp hr) pass.1 pass.2

end

end SimplePartitionBalancer

/-! ## A call of `balance` -/

namespace BalanceInput

variable {x : BalanceInput}

theorem WellFormed.shaped (h : x.WellFormed) : x.balancer.Shaped x.start := by
  intro q hq
  have hq' : q < x.partitions.length := hq
  exact h.replicas _ (h.row_mem (h.rows ▸ hq'))

theorem WellFormed.atMostOnce (h : x.WellFormed) (q : ℕ) : (x.partitions.getD q []).AtMostOnce := by
  intro i j hi hij
  by_cases hq : q < x.config.partitionCount
  · have hmem := h.row_mem hq
    exact h.nodup _ hmem i (lt_length_of_memberId hi) j (lt_length_of_memberId (hij ▸ hi)) hi hij
  · have hout : x.partitions.length ≤ q := by rw [h.rows]; omega
    rw [getD_eq_getElem?_getD, getElem?_eq_none hout, Option.getD_none, cell_nil] at hi
    exact absurd hi (by decide)

theorem WellFormed.member_id (h : x.WellFormed) : x.balancer.member.id = x.mid :=
  h.ids _ h.mid_lt (.inr rfl)

/-- **Rebalancing moves little** when there are more members than replicas. A leave keeps every
replica of a member that stays, once; a join changes the replicas of a partition only by putting the
joining member in, for at most one other. -/
theorem moves_little (h : x.WellFormed)
    (hmany : x.config.maxReplicaCount < x.members.countP Member.isAvailable)
    (q : ℕ) :
    ((∀ c ∈ x.partitions.getD q [], x.balancer.Survives c →
        c ∈ (x.balancer.adjust (x.balancer.balanceLeave x.start)).partition q) ∧
      ((x.balancer.adjust (x.balancer.balanceLeave x.start)).partition q).AtMostOnce) ∧
    x.balancer.JoinMoves (x.partitions.getD q [])
      ((x.balancer.adjust (x.balancer.balanceJoin x.start)).partition q) := by
  have hfull : x.balancer.maxReplicas = x.balancer.config.maxReplicaCount :=
    Nat.min_eq_right (Nat.le_of_lt hmany)
  have hpos : 0 < x.balancer.members.length := Nat.lt_of_le_of_lt (Nat.zero_le _) h.mid_lt
  have hleave := x.balancer.balanceLeave_edits hpos x.start
  have hshape := SimplePartitionBalancer.Edits.shaped x.balancer hleave h.shaped
  refine ⟨⟨fun c hc hsurvives => ?_, ?_⟩, ?_⟩
  · have hkept := x.balancer.survives_balanceLeave hpos h.shaped (q := q) hc hsurvives
    have hheld : c ∈ ((x.balancer.adjust (x.balancer.balanceLeave x.start)).partition q).held := by
      rw [x.balancer.held_adjust hshape]
      exact ⟨hkept, hsurvives.1⟩
    exact hheld.1
  · have htail : x.balancer.TailEmpty x.start := fun q i hi =>
      x.balancer.memberId_neg_of_le h.shaped (hfull ▸ hi)
    exact (SimplePartitionBalancer.Edits.atMostOnce x.balancer
      (hleave.trans (x.balancer.adjust_edits _)) h.shaped htail h.atMostOnce).2 q
  · have hstart : x.balancer.JoinInv x.start x.start := ⟨h.shaped, h.atMostOnce, fun q => .inl rfl⟩
    have hjoin := hstart.balanceJoin x.balancer hfull (by rw [h.member_id]; omega)
    have hmoves := hjoin.moves q
    unfold SimplePartitionBalancer.JoinMoves at hmoves ⊢
    rw [x.balancer.held_adjust hjoin.shaped]
    exact hmoves

/-- Two members with one replica of two partitions each, and member 2 between them and its own. -/
def thirdMember (state : MemberState) : BalanceInput where
  oracle := ⟨id, fun _ _ => 0⟩
  config := ⟨2, 1⟩
  members :=
    [{ id := 0, state := .active }, { id := 1, state := .active }, { id := 2, state := state }]
  partitions := [[⟨0, .ready⟩], [⟨1, .source⟩]]
  mid := 2

theorem thirdMember_wellFormed (state : MemberState) : (thirdMember state).WellFormed where
  rows := rfl
  replicas := by simp [thirdMember]
  replicas_lt := by simp [thirdMember]
  nodup := by simp only [thirdMember]; decide
  holders := by cases state <;> decide
  ids := by cases state <;> decide
  mid_lt := by simp [thirdMember]

/-- When member 2 joins, partition 0 moves to it or stays as it is. -/
theorem moves_little_thirdMember : (thirdMember .joined).balancer.JoinMoves [⟨0, .ready⟩]
    (((thirdMember .joined).balancer.adjust
      ((thirdMember .joined).balancer.balanceJoin (thirdMember .joined).start)).partition 0) :=
  (moves_little (thirdMember_wellFormed .joined) (by decide) 0).2

end BalanceInput

end Idgs.Cluster
