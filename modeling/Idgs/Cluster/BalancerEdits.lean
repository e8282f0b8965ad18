import Idgs.Common.Fold
import Idgs.Cluster.Balancer

/-!
# What the balancer can do to a table

Every strategy changes the table through `setMember` and `swapMember`. This module says what one
such call does to the cells of a partition, and that a whole call of `balance` is a sequence of
them: first the compaction of `simple_balance`, which only clears and swaps, then the calls that
stay within the first `max_replicas` cells. Invariants of the table then need one lemma about an
edit.
-/

namespace Idgs.Cluster

open List

/-! ## Cells of a partition -/

namespace Partition

/-- The cell at a position, the default cell past the end. -/
def cell (p : Partition) (i : ℕ) : Cell := p.getD i {}

theorem getMemberId_eq_cell (p : Partition) (i : ℕ) : p.getMemberId i = (p.cell i).memberId := rfl

theorem cell_of_length_le {p : Partition} {i : ℕ} (h : p.length ≤ i) : p.cell i = {} := by
  simp [cell, getElem?_eq_none h]

@[simp] theorem cell_nil (i : ℕ) : cell [] i = {} := rfl

theorem cell_mem {p : Partition} {i : ℕ} (h : i < p.length) : p.cell i ∈ p := by
  simp [cell, getElem?_eq_getElem h]

theorem exists_cell_of_mem {p : Partition} {c : Cell} (h : c ∈ p) :
    ∃ i, i < p.length ∧ p.cell i = c := by
  obtain ⟨i, hi, rfl⟩ := mem_iff_getElem.mp h
  exact ⟨i, hi, by simp [cell, getElem?_eq_getElem hi]⟩

/-- A cell whose holder is a member lies inside the partition. -/
theorem lt_length_of_memberId {p : Partition} {i : ℕ} (h : 0 ≤ (p.cell i).memberId) :
    i < p.length := by
  by_contra hi
  rw [cell_of_length_le (by omega)] at h
  exact absurd h (by decide)

theorem setCell_eq_set (p : Partition) (pos : ℕ) (mid : ℤ) (st : PartitionState) :
    p.setCell pos mid st = p.set pos ⟨mid, st⟩ := by
  apply ext_getElem?
  intro i
  by_cases hi : pos = i
  · subst hi
    cases h : p[pos]? <;> simp [setCell, setMemberId, setState, getElem?_set, h]
    · simpa using h
    · exact (List.getElem?_eq_some_iff.mp h).1
  · simp [setCell, setMemberId, setState, hi]

@[simp] theorem length_setCell (p : Partition) (pos : ℕ) (mid : ℤ) (st : PartitionState) :
    (p.setCell pos mid st).length = p.length := by
  simp [setCell, setMemberId, setState]

theorem cell_setCell (p : Partition) (pos i : ℕ) (mid : ℤ) (st : PartitionState) :
    (p.setCell pos mid st).cell i =
      if i = pos ∧ pos < p.length then ⟨mid, st⟩ else p.cell i := by
  rw [setCell_eq_set]
  unfold cell
  by_cases hi : i = pos
  · subst hi
    by_cases hl : i < p.length
    · simp [hl]
    · simp [hl]
  · simp [hi, Ne.symm hi]

theorem cell_setCell_of_ne {p : Partition} {pos i : ℕ} (h : i ≠ pos) (mid : ℤ)
    (st : PartitionState) : (p.setCell pos mid st).cell i = p.cell i := by
  rw [cell_setCell, if_neg (fun hi => h hi.1)]

end Partition

namespace SimplePartitionBalancer

open Partition

variable (b : SimplePartitionBalancer)

theorem maxReplicas_le : b.maxReplicas ≤ b.config.maxReplicaCount := Nat.min_le_right _ _

/-- What `freeCell?` finds is a later cell among the first `max_replicas`, and empty. -/
theorem freeCell?_spec {p : Partition} {pos i : ℕ} (h : b.freeCell? p pos = some i) :
    pos < i ∧ i < b.maxReplicas ∧ (p.cell i).memberId < 0 := by
  have hmem := mem_of_find?_eq_some h
  have hfree := find?_some h
  rw [mem_range'_1] at hmem
  exact ⟨by omega, by omega, of_decide_eq_true hfree⟩

/-- A member that is available has a position, so its cell is not empty. -/
theorem nonneg_of_isAvailable {mid : ℤ} (h : b.isAvailable mid) : 0 ≤ mid := by
  simp only [isAvailable, isAvailableId, Bool.and_eq_true, decide_eq_true_eq] at h
  exact h.1

/-! ## One call of `setMember` and of `swapMember` on the cells -/

@[simp] theorem length_place (p : Partition) (pos : ℕ) (mid : ℤ) :
    (b.place p pos mid).length = p.length := by
  unfold place
  dsimp only
  split
  · split <;> simp
  · simp

@[simp] theorem place_nil (pos : ℕ) (mid : ℤ) : b.place [] pos mid = [] :=
  eq_nil_of_length_eq_zero (by simp)

/-- Where `setMember` moves the member it displaces: nowhere when that member is not available or no
later cell is empty. -/
def movesTo (p : Partition) (pos : ℕ) (mid : ℤ) : Option ℕ :=
  if b.isAvailable (p.getMemberId pos) then b.freeCell? (p.setCell pos mid .init) pos else none

/-- `place` in one case distinction. -/
theorem place_eq (p : Partition) (pos : ℕ) (mid : ℤ) :
    b.place p pos mid = match b.movesTo p pos mid with
      | some i => (p.setCell pos mid .init).setCell i (p.getMemberId pos) (p.getState pos)
      | none => p.setCell pos mid .init := by
  unfold place movesTo
  dsimp only
  split <;> rfl

/-- The displaced member moves to a later empty cell of the partition before the call. -/
theorem movesTo_spec {p : Partition} {pos i : ℕ} {mid : ℤ} (h : b.movesTo p pos mid = some i) :
    b.isAvailable (p.cell pos).memberId ∧ pos < i ∧ i < b.maxReplicas ∧
    (p.cell i).memberId < 0 := by
  unfold movesTo at h
  split at h
  · rename_i hav
    obtain ⟨hlt, hmax, hfree⟩ := b.freeCell?_spec h
    rw [cell_setCell_of_ne (by omega)] at hfree
    exact ⟨hav, hlt, hmax, hfree⟩
  · cases h

/-- The cells after `place`: the new holder at `pos`, the old cell where the displaced member
moves. -/
theorem cell_place {p : Partition} {pos : ℕ} {mid : ℤ} (hpos : pos < p.length)
    (hmax : b.maxReplicas ≤ p.length) (i : ℕ) :
    (b.place p pos mid).cell i =
      if i = pos then ⟨mid, .init⟩
      else if b.movesTo p pos mid = some i then p.cell pos
      else p.cell i := by
  rw [place_eq]
  cases hm : b.movesTo p pos mid with
  | none =>
    rw [cell_setCell]
    simp [hpos]
  | some j =>
    obtain ⟨-, hlt, hj, -⟩ := b.movesTo_spec hm
    rw [cell_setCell, cell_setCell, length_setCell]
    by_cases hi : i = j
    · subst hi
      rw [if_pos ⟨rfl, by omega⟩, if_neg (by omega), if_pos rfl]
      rfl
    · simp [hi, Ne.symm hi, hpos]

@[simp] theorem length_swapCells (p : Partition) (pos1 pos2 : ℕ) :
    (swapCells p pos1 pos2).length = p.length := by
  simp [swapCells]

@[simp] theorem swapCells_nil (pos1 pos2 : ℕ) : swapCells [] pos1 pos2 = [] :=
  eq_nil_of_length_eq_zero (by simp)

/-- The cells after `swapCells`. -/
theorem cell_swapCells {p : Partition} {pos1 pos2 : ℕ} (h1 : pos1 < p.length)
    (h2 : pos2 < p.length) (i : ℕ) :
    (swapCells p pos1 pos2).cell i =
      if i = pos1 then p.cell pos2 else if i = pos2 then p.cell pos1 else p.cell i := by
  unfold swapCells
  rw [cell_setCell, cell_setCell, length_setCell]
  by_cases hi : i = pos1
  · rw [if_pos ⟨hi, h1⟩, if_pos hi]
    rfl
  · rw [if_neg (fun h => hi h.1), if_neg hi]
    by_cases hj : i = pos2
    · rw [if_pos ⟨hj, h2⟩, if_pos hj]
      rfl
    · rw [if_neg (fun h => hj h.1), if_neg hj]

/-! ## Edits of the table -/

theorem partition_setMember (w : Work) (part pos : ℕ) (mid : ℤ) (q : ℕ) :
    (b.setMember w part pos mid).partition q =
      if q = part then b.place (w.partition q) pos mid else w.partition q := by
  by_cases hq : q = part
  · subst hq
    by_cases hl : q < w.newPartitions.length <;> simp [setMember, Work.partition, hl]
  · simp [setMember, Work.partition, hq, Ne.symm hq]

theorem partition_swapMember (w : Work) (part pos1 pos2 q : ℕ) :
    (swapMember w part pos1 pos2).partition q =
      if q = part then swapCells (w.partition q) pos1 pos2 else w.partition q := by
  by_cases hq : q = part
  · subst hq
    by_cases hl : q < w.newPartitions.length <;> simp [swapMember, Work.partition, hl]
  · simp [swapMember, Work.partition, hq, Ne.symm hq]

/-- The member at position `i` may be put into a partition: it is available, or it is the member
that joins. -/
def MayPut (i : ℕ) : Prop :=
  i < b.members.length ∧
    ((b.members.getD i {}).isAvailable = true ∨ i = b.mid ∧ b.member.state ≠ .inactive)

/-- One change of the table, within the first `k` cells of a partition. Members are only put into
partitions once `k` is `max_replicas`, after `checkMember`. -/
inductive Edit (k : ℕ) (w : Work) : Work → Prop
  | clear (part pos : ℕ) : pos < k → Edit k w (b.setMember w part pos (-1))
  | put (part pos i : ℕ) : k = b.maxReplicas → pos < k → b.MayPut i →
      b.checkMember w part (b.members.getD i {}).id →
      Edit k w (b.setMember w part pos (b.members.getD i {}).id)
  | swap (part pos1 pos2 : ℕ) : pos1 < k → pos2 < k → Edit k w (swapMember w part pos1 pos2)

/-- Sequences of edits within the first `k` cells. -/
abbrev Edits (k : ℕ) : Work → Work → Prop := Relation.ReflTransGen (b.Edit k)

/-- An edit of one partition. -/
inductive EditOf (k part : ℕ) (w : Work) : Work → Prop
  | clear (pos : ℕ) : pos < k → EditOf k part w (b.setMember w part pos (-1))
  | put (pos i : ℕ) : k = b.maxReplicas → pos < k → b.MayPut i →
      b.checkMember w part (b.members.getD i {}).id →
      EditOf k part w (b.setMember w part pos (b.members.getD i {}).id)
  | swap (pos1 pos2 : ℕ) : pos1 < k → pos2 < k → EditOf k part w (swapMember w part pos1 pos2)

/-- Sequences of edits of one partition. -/
abbrev EditsOf (k part : ℕ) : Work → Work → Prop := Relation.ReflTransGen (b.EditOf k part)

/-- Sequences of edits of the partitions of the configuration. -/
abbrev EditsWithin (k : ℕ) : Work → Work → Prop :=
  Relation.ReflTransGen fun w w' => ∃ part < b.config.partitionCount, b.EditOf k part w w'

variable {b} in
theorem EditOf.edit {k part : ℕ} {w w' : Work} (h : b.EditOf k part w w') : b.Edit k w w' := by
  cases h with
  | clear pos hpos => exact .clear part pos hpos
  | put pos i hk hpos hput hcheck => exact .put part pos i hk hpos hput hcheck
  | swap pos1 pos2 h1 h2 => exact .swap part pos1 pos2 h1 h2

variable {b} in
theorem EditsOf.edits {k part : ℕ} {w w' : Work} (h : b.EditsOf k part w w') :
    b.Edits k w w' := Relation.ReflTransGen.mono (fun _ _ hedit => hedit.edit) _ _ h

variable {b} in
theorem EditsOf.within {k part : ℕ} {w w' : Work} (h : b.EditsOf k part w w')
    (hpart : part < b.config.partitionCount) : b.EditsWithin k w w' :=
  Relation.ReflTransGen.mono (fun _ _ hedit => ⟨part, hpart, hedit⟩) _ _ h

variable {b} in
theorem EditsWithin.edits {k : ℕ} {w w' : Work} (h : b.EditsWithin k w w') : b.Edits k w w' :=
  Relation.ReflTransGen.mono (fun _ _ ⟨_, _, hedit⟩ => hedit.edit) _ _ h

/-- Every row of the table has a cell for each replica of the configuration. -/
def Shaped (w : Work) : Prop :=
  ∀ q < w.newPartitions.length, (w.partition q).length = b.config.maxReplicaCount

theorem partition_of_length_le {w : Work} {q : ℕ} (h : w.newPartitions.length ≤ q) :
    w.partition q = [] := by
  simp [Work.partition, getElem?_eq_none h]

/-- A partition of a shaped table has its cells, or there is no such partition. -/
theorem Shaped.length_or {w : Work} (h : b.Shaped w) (q : ℕ) :
    (w.partition q).length = b.config.maxReplicaCount ∨ w.partition q = [] := by
  by_cases hq : q < w.newPartitions.length
  · exact .inl (h q hq)
  · exact .inr (partition_of_length_le (by omega))

section

variable {k : ℕ} {w w' : Work} (h : b.Edit k w w')

include h

/-- An edit is a call of `setMember` or of `swapMember` within the first `k` cells. -/
theorem Edit.cases :
    (∃ part pos mid, pos < k ∧ w' = b.setMember w part pos mid) ∨
      ∃ part pos1 pos2, pos1 < k ∧ pos2 < k ∧ w' = swapMember w part pos1 pos2 := by
  cases h with
  | clear part pos hpos => exact .inl ⟨part, pos, -1, hpos, rfl⟩
  | put part pos i _ hpos _ _ => exact .inl ⟨part, pos, _, hpos, rfl⟩
  | swap part pos1 pos2 h1 h2 => exact .inr ⟨part, pos1, pos2, h1, h2, rfl⟩

/-- Edits keep the number of partitions and of replicas. -/
theorem Edit.length_eq :
    w'.newPartitions.length = w.newPartitions.length ∧
      ∀ q, (w'.partition q).length = (w.partition q).length := by
  rcases h.cases with ⟨part, pos, mid, -, rfl⟩ | ⟨part, pos1, pos2, -, -, rfl⟩
  · refine ⟨by simp [setMember], fun q => ?_⟩
    rw [partition_setMember]
    split <;> simp
  · refine ⟨by simp [swapMember], fun q => ?_⟩
    rw [partition_swapMember]
    split <;> simp

theorem Edit.shaped (hshape : b.Shaped w) :
    b.Shaped w' := by
  obtain ⟨hrows, hcells⟩ := h.length_eq
  intro q hq
  rw [hcells, hshape q (hrows ▸ hq)]

end

theorem Edits.length_eq {k : ℕ} {w w' : Work} (h : b.Edits k w w') :
    w'.newPartitions.length = w.newPartitions.length := by
  induction h with
  | refl => rfl
  | tail _ hedit ih => exact (hedit.length_eq b).1.trans ih

theorem Edits.shaped {k : ℕ} {w w' : Work} (h : b.Edits k w w') (hshape : b.Shaped w) :
    b.Shaped w' := by
  induction h with
  | refl => exact hshape
  | tail _ hedit ih => exact hedit.shaped b ih

/-- What an edit does to one partition: nothing, a `place` of nobody or of a member that is not
among its first `max_replicas` cells, or a swap. -/
theorem Edit.row_cases {k : ℕ} {w w' : Work} (h : b.Edit k w w') (hshape : b.Shaped w) (q : ℕ) :
    w'.partition q = w.partition q ∨
      (∃ pos mid, pos < k ∧ (w.partition q).length = b.config.maxReplicaCount ∧
        (mid = -1 ∨ k = b.maxReplicas ∧ (∃ i, b.MayPut i ∧ mid = (b.members.getD i {}).id) ∧
          b.checkMember w q mid) ∧
        w'.partition q = b.place (w.partition q) pos mid) ∨
      ∃ pos1 pos2, pos1 < k ∧ pos2 < k ∧ (w.partition q).length = b.config.maxReplicaCount ∧
        w'.partition q = swapCells (w.partition q) pos1 pos2 := by
  by_cases hq : q < w.newPartitions.length
  · have hrow := hshape q hq
    cases h with
    | clear part pos hpos =>
      rw [partition_setMember]
      split
      · exact .inr (.inl ⟨pos, -1, hpos, hrow, .inl rfl, rfl⟩)
      · exact .inl rfl
    | put part pos i hk' hpos hput hcheck =>
      rw [partition_setMember]
      split
      · rename_i heq
        subst heq
        exact .inr (.inl ⟨pos, _, hpos, hrow, .inr ⟨hk', ⟨i, hput, rfl⟩, hcheck⟩, rfl⟩)
      · exact .inl rfl
    | swap part pos1 pos2 h1 h2 =>
      rw [partition_swapMember]
      split
      · exact .inr (.inr ⟨pos1, pos2, h1, h2, hrow, rfl⟩)
      · exact .inl rfl
  · left
    have hq' : w'.newPartitions.length ≤ q := by rw [(h.length_eq b).1]; omega
    rw [partition_of_length_le hq', partition_of_length_le (by omega)]

/-- The search for a member, when it finds one, found it at an index below `size` that passes the
test at some priority. -/
theorem scanMembers_spec {ok : ℕ → Bool} {size k index i next : ℕ} (hindex : index < size)
    (h : scanMembers ok size k index = (some i, next)) : i < size ∧ ok i := by
  induction k generalizing index with
  | zero => cases h
  | succ k ih =>
    rw [scanMembers] at h
    split at h
    · rename_i hok
      cases h
      exact ⟨hindex, hok⟩
    · refine ih ?_ h
      split <;> omega

/-- A round that finds nobody ends at an index that is again below `size`. -/
theorem scanMembers_snd_lt {ok : ℕ → Bool} {size k index : ℕ} (hindex : index < size) :
    (scanMembers ok size k index).2 < size := by
  induction k generalizing index with
  | zero => exact hindex
  | succ k ih =>
    have hnext : (if index + 1 ≥ size then 0 else index + 1) < size := by split <;> omega
    rw [scanMembers]
    split
    · exact hnext
    · exact ih hnext

theorem scanPriorities_spec {ok : ℤ → ℕ → Bool} {size : ℕ} {ps : List ℤ} {index i next : ℕ}
    (hindex : index < size) (h : scanPriorities ok size ps index = (some i, next)) :
    i < size ∧ ∃ priority ∈ ps, ok priority i := by
  induction ps generalizing index with
  | nil => cases h
  | cons priority ps ih =>
    rw [scanPriorities] at h
    split at h
    · rename_i j next' hscan
      cases h
      obtain ⟨hi, hok⟩ := scanMembers_spec hindex hscan
      exact ⟨hi, priority, mem_cons_self, hok⟩
    · rename_i next' hscan
      have hnext : (scanMembers (ok priority) size size index).2 < size :=
        scanMembers_snd_lt hindex
      obtain ⟨hi, other, hmem, hok⟩ := ih (by simpa [hscan] using hnext) h
      exact ⟨hi, other, mem_cons_of_mem _ hmem, hok⟩

theorem scanPriorities_snd_lt {ok : ℤ → ℕ → Bool} {size : ℕ} {ps : List ℤ} {index : ℕ}
    (hindex : index < size) : (scanPriorities ok size ps index).2 < size := by
  induction ps generalizing index with
  | nil => exact hindex
  | cons priority ps ih =>
    have hscan : (scanMembers (ok priority) size size index).2 < size := scanMembers_snd_lt hindex
    rw [scanPriorities]
    split
    · rename_i h
      simpa [h] using hscan
    · rename_i h
      exact ih (by simpa [h] using hscan)

/-- A member that `findMember` finds is available and passes `checkMember`. -/
theorem findMember_spec {w : Work} {part pos index i next : ℕ} (hindex : index < b.members.length)
    (h : b.findMember w part pos index = (some i, next)) :
    i < b.members.length ∧ (b.members.getD i {}).isAvailable ∧
      b.checkMember w part (b.members.getD i {}).id := by
  obtain ⟨hi, priority, -, hok⟩ := scanPriorities_spec hindex h
  simp only [accepts, Bool.and_eq_true] at hok
  exact ⟨hi, hok.1.1.1, hok.2⟩

theorem findMember_snd_lt {w : Work} {part pos index : ℕ} (hindex : index < b.members.length) :
    (b.findMember w part pos index).2 < b.members.length :=
  scanPriorities_snd_lt hindex

/-! ## The strategies are sequences of edits -/

/-- Compaction clears and swaps within the replicas of the configuration. -/
theorem compactReplica_editsOf {r : ℕ} (hr : r < b.maxReplicas) (w : Work) (p : ℕ) :
    b.EditsOf b.config.maxReplicaCount p w (b.compactReplica w p r) := by
  have hle := b.maxReplicas_le
  unfold compactReplica
  dsimp only
  split
  · split
    · rename_i r2 hfind
      have hmem := mem_of_find?_eq_some hfind
      rw [mem_range'_1] at hmem
      exact .single (.swap r r2 (by omega) (by omega))
    · exact .refl
  · exact .refl

theorem compactReplica_edits {r : ℕ} (hr : r < b.maxReplicas) (w : Work) (p : ℕ) :
    b.Edits b.config.maxReplicaCount w (b.compactReplica w p r) :=
  (b.compactReplica_editsOf hr w p).edits

theorem compactPartition_editsOf (w : Work) (p : ℕ) :
    b.EditsOf b.config.maxReplicaCount p w (b.compactPartition w p) := by
  refine (Common.foldl_reflTransGen id (fun w r hr => ?_) w).trans
    (Common.foldl_reflTransGen id (fun w r2 hr2 => ?_) _)
  · exact b.compactReplica_editsOf (mem_range.mp hr) w p
  · rw [mem_range'_1] at hr2
    exact .single (.clear r2 (by omega))

theorem compactPartition_edits (w : Work) (p : ℕ) :
    b.Edits b.config.maxReplicaCount w (b.compactPartition w p) :=
  (b.compactPartition_editsOf w p).edits

/-- Filling a cell is at most one edit, with a member that the search found. -/
theorem fillCell_editsOf {w : Work} {leaveMid : ℤ} {p r index : ℕ} (hr : r < b.maxReplicas)
    (hindex : index < b.members.length) :
    b.EditsOf b.maxReplicas p w (b.fillCell w leaveMid p r (b.findMember w p r index)).1 ∧
      (b.fillCell w leaveMid p r (b.findMember w p r index)).2 < b.members.length := by
  have hsnd : (b.findMember w p r index).2 < b.members.length := b.findMember_snd_lt hindex
  cases hfound : b.findMember w p r index with
  | mk found next =>
    rw [hfound] at hsnd
    cases found with
    | some i =>
      obtain ⟨hi, hav, hcheck⟩ := b.findMember_spec hindex hfound
      exact ⟨.single (.put r i rfl hr ⟨hi, .inl hav⟩ hcheck), hsnd⟩
    | none =>
      rw [fillCell]
      split
      · exact ⟨.single (.clear r hr), hsnd⟩
      · exact ⟨.refl, hsnd⟩

section

variable {r : ℕ} (hr : r < b.maxReplicas)

include hr

theorem simpleStep_editsOf {st : Work × ℕ} (hindex : st.2 < b.members.length) (p : ℕ) :
    b.EditsOf b.maxReplicas p st.1 (b.simpleStep st r p).1 ∧
      (b.simpleStep st r p).2 < b.members.length := by
  unfold simpleStep
  dsimp only
  split
  · exact ⟨.refl, hindex⟩
  · exact b.fillCell_editsOf hr hindex

theorem simpleStep_edits {st : Work × ℕ} (hindex : st.2 < b.members.length) (p : ℕ) :
    b.Edits b.maxReplicas st.1 (b.simpleStep st r p).1 ∧
      (b.simpleStep st r p).2 < b.members.length :=
  (b.simpleStep_editsOf hr hindex p).imp_left EditsOf.edits

theorem leaveStep_editsOf (hpos : 0 < b.members.length)
    (w : Work) (p : ℕ) : b.EditsOf b.maxReplicas p w (b.leaveStep w r p) := by
  unfold leaveStep
  dsimp only
  split
  · exact .refl
  · exact (b.fillCell_editsOf hr (Nat.mod_lt _ hpos)).1

theorem leaveStep_edits (hpos : 0 < b.members.length) (w : Work)
    (p : ℕ) : b.Edits b.maxReplicas w (b.leaveStep w r p) :=
  (b.leaveStep_editsOf hr hpos w p).edits

theorem joinStep_editsOf (hmid : b.mid < b.members.length)
    (hactive : b.member.state ≠ .inactive) (st : JoinState) (state : ℕ) (priority : ℤ) :
    b.EditsOf b.maxReplicas st.partIndex st.work (b.joinStep r st state priority).work := by
  unfold joinStep
  dsimp only
  split
  · exact .refl
  · split
    · exact .refl
    · split
      · rename_i htakes
        rw [takesOver, Bool.and_eq_true] at htakes
        exact .single (.put _ b.mid rfl hr ⟨hmid, .inr ⟨rfl, hactive⟩⟩ htakes.2)
      · exact .refl

theorem joinStep_edits (hmid : b.mid < b.members.length)
    (hactive : b.member.state ≠ .inactive) (st : JoinState) (state : ℕ) (priority : ℤ) :
    b.Edits b.maxReplicas st.work (b.joinStep r st state priority).work :=
  (b.joinStep_editsOf hr hmid hactive st state priority).edits

end

/-- The running `part_index` stays among the partitions. -/
theorem joinStep_partIndex_lt {r : ℕ} {st : JoinState}
    (hindex : st.partIndex < b.config.partitionCount) (state : ℕ) (priority : ℤ) :
    (b.joinStep r st state priority).partIndex < b.config.partitionCount := by
  have hnext : (if st.partIndex + 1 ≥ b.config.partitionCount then 0 else st.partIndex + 1) <
      b.config.partitionCount := by
    split <;> omega
  unfold joinStep
  dsimp only
  split
  · exact hindex
  · split
    · exact hnext
    · split
      · exact hnext
      · exact hnext

theorem adjustStep_editsOf {r : ℕ} (hr : r < b.maxReplicas) (w : Work) (p : ℕ) :
    b.EditsOf b.maxReplicas p w (b.adjustStep w r p) := by
  unfold adjustStep
  split
  · rename_i r2 htarget
    have hmem := mem_of_find?_eq_some htarget
    rw [mem_range'_1] at hmem
    exact .single (.swap r r2 hr (by omega))
  · exact .refl

theorem adjustStep_edits {r : ℕ} (hr : r < b.maxReplicas) (w : Work) (p : ℕ) :
    b.Edits b.maxReplicas w (b.adjustStep w r p) :=
  (b.adjustStep_editsOf hr w p).edits

/-- The compaction that `simple_balance` starts with, when there are fewer members than replicas. -/
def compact (w : Work) : Work :=
  if b.totalAvailableMemberCount < b.config.maxReplicaCount then
    (List.range b.config.partitionCount).foldl b.compactPartition w
  else w

/-- The filling loops of `simple_balance`. -/
def fill (w : Work) : Work :=
  ((List.range b.maxReplicas).foldl (fun st r =>
    (List.range b.config.partitionCount).foldl (fun st p => b.simpleStep st r p) st) (w, 0)).1

theorem simpleBalance_eq (w : Work) : b.simpleBalance w = b.fill (b.compact w) := rfl

theorem compact_within (w : Work) : b.EditsWithin b.config.maxReplicaCount w (b.compact w) := by
  unfold compact
  split
  · exact Common.foldl_reflTransGen id (fun w p hp =>
      (b.compactPartition_editsOf w p).within (mem_range.mp hp)) w
  · exact .refl

theorem compact_edits (w : Work) : b.Edits b.config.maxReplicaCount w (b.compact w) :=
  (b.compact_within w).edits

section

variable (hpos : 0 < b.members.length)

include hpos

theorem fill_within (w : Work) :
    b.EditsWithin b.maxReplicas w (b.fill w) := by
  -- the invariant of the loops also keeps the running `member_index` in range
  let inv : Work × ℕ → Prop := fun st =>
    b.EditsWithin b.maxReplicas w st.1 ∧ st.2 < b.members.length
  have hstep : ∀ st, ∀ r ∈ List.range b.maxReplicas, inv st →
      inv ((List.range b.config.partitionCount).foldl (fun st p => b.simpleStep st r p) st) := by
    intro st r hr hst
    refine Common.foldl_invariant inv (fun st p hp hst => ?_) hst
    obtain ⟨hedits, hindex⟩ := b.simpleStep_editsOf (mem_range.mp hr) hst.2 p
    exact ⟨hst.1.trans (hedits.within (mem_range.mp hp)), hindex⟩
  have hstart : inv (w, 0) := ⟨.refl, hpos⟩
  exact (Common.foldl_invariant inv hstep hstart).1

theorem fill_edits (w : Work) :
    b.Edits b.maxReplicas w (b.fill w) :=
  (b.fill_within hpos w).edits

theorem balanceLeave_within (w : Work) :
    b.EditsWithin b.maxReplicas w (b.balanceLeave w) :=
  Common.foldl_reflTransGen id (fun w _ hr =>
    Common.foldl_reflTransGen id (fun w p hp =>
      (b.leaveStep_editsOf (mem_range.mp hr) hpos w p).within (mem_range.mp hp)) w) w

theorem balanceLeave_edits (w : Work) :
    b.Edits b.maxReplicas w (b.balanceLeave w) :=
  (b.balanceLeave_within hpos w).edits

end

theorem balanceJoin_within (hmid : b.mid < b.members.length) (hactive : b.member.state ≠ .inactive)
    (w : Work) : b.EditsWithin b.maxReplicas w (b.balanceJoin w) := by
  rcases Nat.eq_zero_or_pos b.config.partitionCount with hzero | hcount
  · -- without partitions, the innermost loop does nothing
    exact Common.foldl_reflTransGen JoinState.work (fun st _ _ =>
      Common.foldl_reflTransGen JoinState.work (fun st _ _ => by rw [hzero]; exact .refl)
        { st with replicaOk := false }) ⟨w, 0, false⟩
  let inv : JoinState → Prop := fun st =>
    b.EditsWithin b.maxReplicas w st.work ∧ st.partIndex < b.config.partitionCount
  have hstart : inv ⟨w, 0, false⟩ := ⟨.refl, hcount⟩
  refine (Common.foldl_invariant inv (fun st r hr hst => ?_) hstart).1
  refine Common.foldl_invariant inv (fun st pass _ hst => ?_) hst
  refine Common.foldl_invariant inv (fun st _ _ hst => ?_) hst
  have hedits := b.joinStep_editsOf (mem_range.mp hr) hmid hactive st pass.1 pass.2
  exact ⟨hst.1.trans (hedits.within hst.2), b.joinStep_partIndex_lt hst.2 pass.1 pass.2⟩

theorem balanceJoin_edits (hmid : b.mid < b.members.length) (hactive : b.member.state ≠ .inactive)
    (w : Work) : b.Edits b.maxReplicas w (b.balanceJoin w) :=
  (b.balanceJoin_within hmid hactive w).edits

theorem adjust_within (w : Work) : b.EditsWithin b.maxReplicas w (b.adjust w) :=
  Common.foldl_reflTransGen id (fun w _ hr =>
    Common.foldl_reflTransGen id (fun w p hp =>
      (b.adjustStep_editsOf (mem_range.mp hr) w p).within (mem_range.mp hp)) w) w

theorem adjust_edits (w : Work) : b.Edits b.maxReplicas w (b.adjust w) :=
  (b.adjust_within w).edits

/-- A whole rebalancing: edits that clear and swap, then edits within the first `max_replicas`
cells. -/
theorem rebalance_within (hmid : b.mid < b.members.length) (w : Work) :
    ∃ w₁, b.EditsWithin b.config.maxReplicaCount w w₁ ∧
      b.EditsWithin b.maxReplicas w₁ (b.adjust (b.rebalance w)) := by
  have hpos : 0 < b.members.length := by omega
  unfold rebalance
  split
  · exact ⟨b.compact w, b.compact_within w, (b.fill_within hpos _).trans (b.adjust_within _)⟩
  · split
    · exact ⟨w, .refl, (b.balanceLeave_within hpos w).trans (b.adjust_within _)⟩
    · rename_i hactive
      exact ⟨w, .refl, (b.balanceJoin_within hmid hactive w).trans (b.adjust_within _)⟩

theorem rebalance_edits (hmid : b.mid < b.members.length) (w : Work) :
    ∃ w₁, b.Edits b.config.maxReplicaCount w w₁ ∧
      b.Edits b.maxReplicas w₁ (b.adjust (b.rebalance w)) := by
  obtain ⟨w₁, hcompact, hfill⟩ := b.rebalance_within hmid w
  exact ⟨w₁, hcompact.edits, hfill.edits⟩

end SimplePartitionBalancer

end Idgs.Cluster
