import Idgs.Cluster.BalancerEdits

/-!
# The partition manager

`PartitionManagerActor` keeps a member's copy of the partition table. Three multicast events change
it: the whole table that the leading member sends to a joiner, the deltas of a rebalancing, and the
status changes of single replicas. The leading member reacts to a join or leave with
`memberStatusChanged`.
-/

namespace Idgs.Cluster

open List

/-- `pb::WholePartitionEvent`. -/
structure WholePartitionEvent where
  joinedMemberId : ℤ
  table : List Partition
deriving DecidableEq

/-- `pb::PartitionStatusChangeEvent`. -/
structure PartitionStatusChangeEvent where
  partitionId : ℕ
  memberId : ℤ
  state : PartitionState
deriving DecidableEq

/-- The multicast messages of the cluster module, those of the member manager first. -/
inductive Multicast
  | member (m : Member)
  | wholeMemberTable (joinedMember : Member) (table : List Member)
  | deltaMember (member : Member) (position : ℕ)
  | memberStatus (memberId : ℕ) (state : MemberState)
  | wholePartitionTable (evt : WholePartitionEvent)
  | deltaPartitions (evt : DeltaPartitionEvent)
  | partitionStatus (evt : PartitionStatusChangeEvent)
deriving DecidableEq

namespace PartitionManager

/-! ## Handlers -/

/-- `setMemberId` and, if the item has a state, `setState`, for one item of a delta. -/
def balanceOkItem (partitions : List Partition) (item : DeltaPartitionItem) : List Partition :=
  partitions.modify item.partId fun p =>
    let p := p.setMemberId item.position item.newMid
    match item.state with
    | some state => p.setState item.position state
    | none => p

/-- `PartitionManagerActor::balanceOk`. -/
def balanceOk (partitions : List Partition) (evt : DeltaPartitionEvent) : List Partition :=
  evt.foldl balanceOkItem partitions

/-- `PartitionManagerActor::handleDeltaPartitionEvent`, the listeners apart. -/
def handleDeltaPartitionEvent (localMember : Option Member) (partitions : List Partition)
    (evt : DeltaPartitionEvent) : List Partition :=
  match localMember with
  | none => partitions
  | some _ => balanceOk partitions evt

/-- `PartitionManagerActor::handleWholePartitionTableEvent`. A table of another size ends the
process with `LOG(FATAL)`, which is `none` here. -/
def handleWholePartitionTableEvent (cfg : ClusterConfig) (localMember : Option Member)
    (partitions : List Partition) (evt : WholePartitionEvent) : Option (List Partition) :=
  match localMember with
  | none => some partitions
  | some member =>
    if member.id ≠ evt.joinedMemberId then some partitions
    else if evt.table.length ≠ cfg.partitionCount then none
    else some (evt.table ++ partitions.drop evt.table.length)

/-- `PartitionManagerActor::handlePartitionStatusChangedEvent`: the first cell of the member changes
its state. -/
def handlePartitionStatusChangedEvent (partitions : List Partition)
    (evt : PartitionStatusChangeEvent) : List Partition :=
  partitions.modify evt.partitionId fun p =>
    match p.findIdx? fun c => evt.memberId == c.memberId with
    | some i => p.setState i evt.state
    | none => p

/-- `PartitionManagerActor::balance`: the event computed for a member on the local tables. -/
def balance (oracle : BalanceOracle) (cfg : ClusterConfig) (members : List Member)
    (partitions : List Partition) (member : Member) : DeltaPartitionEvent :=
  BalanceInput.balance ⟨oracle, cfg, members, partitions, member.id.toNat⟩

/-- `PartitionManagerActor::memberStatusChanged`: the multicasts, in order. Only the leading member
reacts; a leading member that leaves is not rebalanced. -/
def memberStatusChanged (oracle : BalanceOracle) (cfg : ClusterConfig) (localMember : Option Member)
    (members : List Member) (partitions : List Partition) (changed : Member) : List Multicast :=
  match localMember with
  | none => []
  | some member =>
    if !member.isLeading then []
    else if changed.state = .joined then
      (if changed.isLeading then [] else [.wholePartitionTable ⟨changed.id, partitions⟩]) ++
      (if changed.localStore then
        [.deltaPartitions (balance oracle cfg members partitions changed)] else []) ++
      [.memberStatus changed.id.toNat .prepared]
    else if changed.state = .inactive then
      if changed.isLeading then []
      else if changed.localStore then
        [.deltaPartitions (balance oracle cfg members partitions changed)]
      else []
    else []

/-! ## Applying a delta -/

/-- A cell of a table. -/
def tableCell (partitions : List Partition) (i j : ℕ) : Cell :=
  Partition.cell (partitions.getD i []) j

/-- What an item does to its cell. -/
def applyItem (item : DeltaPartitionItem) (c : Cell) : Cell :=
  ⟨item.newMid, item.state.getD c.state⟩

section

variable (partitions : List Partition)

@[simp] theorem length_balanceOkItem (item : DeltaPartitionItem) :
    (balanceOkItem partitions item).length = partitions.length := by
  simp [balanceOkItem]

@[simp] theorem length_balanceOk (evt : DeltaPartitionEvent) :
    (balanceOk partitions evt).length = partitions.length := by
  induction evt generalizing partitions with
  | nil => rfl
  | cons item evt ih => exact (ih _).trans (length_balanceOkItem partitions item)

/-- An item changes one cell. -/
theorem balanceOkItem_eq (item : DeltaPartitionItem) :
    balanceOkItem partitions item =
      partitions.modify item.partId fun p => p.modify item.position (applyItem item) := by
  unfold balanceOkItem
  congr 1
  funext p
  cases hs : item.state with
  | none =>
    have hf : applyItem item = fun c => { c with memberId := item.newMid } := by
      funext c
      simp [applyItem, hs]
    rw [hf]
    rfl
  | some st =>
    have hf : applyItem item =
        (fun c => { c with state := st }) ∘ fun c => { c with memberId := item.newMid } := by
      funext c
      simp [applyItem, hs]
    rw [hf, ← modify_modify_eq]
    rfl

theorem getD_balanceOkItem (item : DeltaPartitionItem) (i : ℕ) :
    (balanceOkItem partitions item).getD i [] =
      if item.partId = i then (partitions.getD i []).modify item.position (applyItem item)
      else partitions.getD i [] := by
  rw [balanceOkItem_eq]
  by_cases hi : item.partId = i
  · subst hi
    cases h : partitions[item.partId]? <;> simp [h]
  · simp [hi]

/-- Deltas keep the shape of the table. -/
theorem length_getD_balanceOk (evt : DeltaPartitionEvent) (i : ℕ) :
    ((balanceOk partitions evt).getD i []).length = (partitions.getD i []).length := by
  induction evt generalizing partitions with
  | nil => rfl
  | cons item evt ih =>
    refine (ih _).trans ?_
    rw [getD_balanceOkItem]
    split <;> simp

theorem tableCell_balanceOkItem (item : DeltaPartitionItem) {i j : ℕ}
    (hj : j < (partitions.getD i []).length) :
    tableCell (balanceOkItem partitions item) i j =
      if item.partId = i ∧ item.position = j then applyItem item (tableCell partitions i j)
      else tableCell partitions i j := by
  unfold tableCell
  rw [getD_balanceOkItem]
  by_cases hi : item.partId = i
  · rw [if_pos hi]
    unfold Partition.cell
    by_cases hpos : item.position = j
    · rw [if_pos ⟨hi, hpos⟩, hpos]
      simp only [getD_eq_getElem?_getD, getElem?_modify_eq]
      rw [← getD_eq_getElem?_getD, getElem?_eq_getElem hj]
      rfl
    · simp [hpos]
  · rw [if_neg hi, if_neg (fun h => hi h.1)]

end

/-- A second application of the same item changes nothing. -/
theorem applyItem_applyItem (item : DeltaPartitionItem) (c : Cell) :
    applyItem item (applyItem item c) = applyItem item c := by
  cases hs : item.state <;> simp [applyItem, hs]

/-- An event that has one item for a cell, perhaps repeated, applies it. -/
theorem tableCell_balanceOk {evt : DeltaPartitionEvent} {i j : ℕ} {it : DeltaPartitionItem}
    (hpart : it.partId = i) (hpos : it.position = j)
    (h : ∀ item ∈ evt, item.partId = i → item.position = j → item = it)
    {partitions : List Partition} (hj : j < (partitions.getD i []).length) :
    tableCell (balanceOk partitions evt) i j =
      if it ∈ evt then applyItem it (tableCell partitions i j) else tableCell partitions i j := by
  induction evt generalizing partitions with
  | nil => simp [balanceOk]
  | cons item evt ih =>
    have hrow : j < ((balanceOkItem partitions item).getD i []).length := by
      rw [getD_balanceOkItem]
      split <;> simpa using hj
    have htail := ih (fun item hmem => h item (mem_cons_of_mem _ hmem))
      hrow
    refine htail.trans ?_
    rw [tableCell_balanceOkItem partitions item hj]
    by_cases hitem : item = it
    · subst hitem
      have hkey : item.partId = i ∧ item.position = j := ⟨hpart, hpos⟩
      simp only [if_pos hkey, applyItem_applyItem, ite_self, mem_cons_self, if_true]
    · have hkey : ¬ (item.partId = i ∧ item.position = j) :=
        fun hk => hitem (h item mem_cons_self hk.1 hk.2)
      rw [if_neg hkey]
      simp [mem_cons, Ne.symm hitem]

/-- An event without an item for a cell leaves it alone. -/
theorem tableCell_balanceOk_of_not_mem {evt : DeltaPartitionEvent} {i j : ℕ}
    (h : ∀ item ∈ evt, ¬ (item.partId = i ∧ item.position = j)) {partitions : List Partition}
    (hj : j < (partitions.getD i []).length) :
    tableCell (balanceOk partitions evt) i j = tableCell partitions i j := by
  let it : DeltaPartitionItem := ⟨i, j, 0, 0, none⟩
  have hnot : it ∉ evt := fun hmem => h it hmem ⟨rfl, rfl⟩
  have hcell := tableCell_balanceOk (show it.partId = i from rfl) (show it.position = j from rfl)
    (fun item hmem hi hp => absurd ⟨hi, hp⟩ (h item hmem)) hj
  rw [hcell, if_neg hnot]

/-! ## The delta between two tables -/

theorem mem_generatePartitionDeltaList {old new : List Partition} {item : DeltaPartitionItem} :
    item ∈ generatePartitionDeltaList old new ↔
      ∃ i < old.length, ∃ j < (old.getD 0 []).getReplicaCount,
        deltaItem? (old.getD i []) (new.getD i []) i j = some item := by
  simp [generatePartitionDeltaList, mem_flatMap, mem_filterMap]

/-- The state of an item, absent when unchanged, gives the new state in either case. -/
theorem getD_changed (new old : PartitionState) :
    (if new ≠ old then some new else none).getD old = new := by
  by_cases h : new = old
  · simp [h]
  · simp [h]

theorem deltaItem?_eq_some {oldPart newPart : Partition} {i j : ℕ} {item : DeltaPartitionItem}
    (h : deltaItem? oldPart newPart i j = some item) :
    item.partId = i ∧ item.position = j ∧ (oldPart.cell j).memberId ≠ (newPart.cell j).memberId ∧
      applyItem item (oldPart.cell j) = newPart.cell j := by
  unfold deltaItem? at h
  split at h
  · rename_i hne
    cases h
    refine ⟨rfl, rfl, hne, ?_⟩
    change Cell.mk (newPart.getMemberId j) (Option.getD _ (oldPart.getState j)) = newPart.cell j
    rw [getD_changed]
    rfl
  · cases h

theorem deltaItem?_of_ne {oldPart newPart : Partition} {j : ℕ}
    (h : (oldPart.cell j).memberId ≠ (newPart.cell j).memberId) (i : ℕ) :
    ∃ item, deltaItem? oldPart newPart i j = some item := by
  have hne : oldPart.getMemberId j ≠ newPart.getMemberId j := h
  rw [deltaItem?, if_pos hne]
  exact ⟨_, rfl⟩

/-- What the event of a rebalancing makes of a cell: the cell of the new table where the holder
differs, the old cell otherwise. A change of the state alone is not transmitted. -/
def appliedCell (oldCell newCell : Cell) : Cell :=
  if oldCell.memberId = newCell.memberId then oldCell else newCell

theorem appliedCell_memberId (oldCell newCell : Cell) :
    (appliedCell oldCell newCell).memberId = newCell.memberId := by
  unfold appliedCell
  split
  · assumption
  · rfl

/-- Applying the generated event to the table that it was generated from. -/
theorem tableCell_balanceOk_generate {old new : List Partition} {i j : ℕ} (hi : i < old.length)
    (hcount : j < (old.getD 0 []).getReplicaCount) (hj : j < (old.getD i []).length) :
    tableCell (balanceOk old (generatePartitionDeltaList old new)) i j =
      appliedCell (tableCell old i j) (tableCell new i j) := by
  have hmem : ∀ item ∈ generatePartitionDeltaList old new, item.partId = i → item.position = j →
      deltaItem? (old.getD i []) (new.getD i []) i j = some item := by
    intro item hitem hpart hpos
    obtain ⟨i', -, j', -, hdelta⟩ := mem_generatePartitionDeltaList.mp hitem
    obtain ⟨hi', hj', -, -⟩ := deltaItem?_eq_some hdelta
    obtain rfl : i' = i := by omega
    obtain rfl : j' = j := by omega
    exact hdelta
  unfold appliedCell
  by_cases hsame : (tableCell old i j).memberId = (tableCell new i j).memberId
  · rw [if_pos hsame, tableCell_balanceOk_of_not_mem ?_ hj]
    rintro item hitem ⟨hpart, hpos⟩
    obtain ⟨-, -, hne, -⟩ := deltaItem?_eq_some (hmem item hitem hpart hpos)
    exact hne hsame
  · rw [if_neg hsame]
    obtain ⟨it, hit⟩ := deltaItem?_of_ne hsame i
    obtain ⟨hpart, hpos, -, happly⟩ := deltaItem?_eq_some hit
    rw [tableCell_balanceOk hpart hpos ?_ hj,
      if_pos (mem_generatePartitionDeltaList.mpr ⟨i, hi, j, hcount, hit⟩)]
    · exact happly
    · intro item hitem hpart hpos
      exact Option.some.inj ((hmem item hitem hpart hpos).symm.trans hit)

end PartitionManager

end Idgs.Cluster
