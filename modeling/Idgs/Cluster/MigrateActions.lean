import Idgs.Cluster.Readmission
import Idgs.Cluster.TableSound

/-!
# The migrations between two partition tables

A rebalanced table is published as the list of the cells that changed, and the members that have to
migrate data are worked out from that list and the new table. A member that left one cell of a
partition and is in another cell of it migrates nothing, so the actions are the difference of the
two sets of members.
-/

namespace Idgs.Cluster

open Partition List

/-! ## What is promised -/

/-- A table with a row for each partition and a cell for each replica, and no member twice in a
partition. The number of replicas is a `uint8_t`. -/
structure WellFormed (partitions : ℕ) (replicas : UInt8) (table : List Partition) : Prop where
  rows : table.length = partitions
  cells : ∀ q < partitions, (table.getD q []).length = replicas.toNat
  once : ∀ q, (table.getD q []).AtMostOnce

/-- A member is in a cell of a partition. -/
def HasMember (table : List Partition) (p : ℕ) (mid : ℤ) : Prop :=
  0 ≤ mid ∧ ∃ i, holder table p i = mid

/-- The change that an action is for. -/
def MigrateAction.Due (old new : List Partition) (action : MigrateAction) : Prop :=
  match action.command with
  | .new => HasMember new action.partitionId action.memberId ∧
      ¬HasMember old action.partitionId action.memberId
  | .del => HasMember old action.partitionId action.memberId ∧
      ¬HasMember new action.partitionId action.memberId

namespace WellFormed

variable {partitions : ℕ} {replicas : UInt8} {table : List Partition}

section

variable (h : WellFormed partitions replicas table)

include h

theorem getReplicaCount {q : ℕ} (hq : q < partitions) :
    (table.getD q []).getReplicaCount = replicas.toNat := by
  rw [Partition.getReplicaCount, h.cells q hq]
  exact Nat.mod_eq_of_lt replicas.toNat_lt

/-- The members are in cells of the table. -/
theorem lt_of_holder {q i : ℕ} (hheld : 0 ≤ holder table q i) :
    q < partitions ∧ i < replicas.toNat := by
  have hempty : ∀ p : Partition, p.length ≤ i → (p.cell i).memberId = -1 := fun p hp => by
    rw [cell_of_length_le hp]
  by_cases hq : q < partitions
  · refine ⟨hq, ?_⟩
    by_contra hi
    have hout := hempty (table.getD q []) (by rw [h.cells q hq]; omega)
    rw [holder, hout] at hheld
    omega
  · have hnil : table.getD q [] = [] := by
      rw [getD_eq_getElem?_getD, getElem?_eq_none (by rw [h.rows]; omega),
        Option.getD_none]
    have hout := hempty (table.getD q []) (by rw [hnil]; exact Nat.zero_le i)
    rw [holder, hout] at hheld
    omega

/-- A member of a partition, by the cells that the loops go through. -/
theorem hasMember_iff {p : ℕ} {mid : ℤ} :
    HasMember table p mid ↔ p < partitions ∧ 0 ≤ mid ∧ ∃ i < replicas.toNat, holder table p i =
      mid := by
  constructor
  · rintro ⟨hmid, i, rfl⟩
    obtain ⟨hp, hi⟩ := h.lt_of_holder hmid
    exact ⟨hp, hmid, i, hi, rfl⟩
  · rintro ⟨-, hmid, i, -, hheld⟩
    exact ⟨hmid, i, hheld⟩

end

end WellFormed

/-! ## The actions of one partition -/

namespace BalancerUtil

theorem mem_delActions {part : Partition} {pid : ℕ} {items : List DeltaPartitionItem}
    {a : MigrateAction} :
    a ∈ delActions part pid items ↔ ∃ item ∈ items, 0 ≤ item.oldMid ∧
      (∀ i < part.getReplicaCount, part.getMemberId i ≠ item.oldMid) ∧
      a = ⟨pid, item.oldMid, .del⟩ := by
  rw [delActions, mem_filterMap]
  refine exists_congr fun item => and_congr_right fun _ => ?_
  split
  · rename_i hgone
    rw [Option.some.injEq]
    exact ⟨fun h => ⟨hgone.1, hgone.2, h.symm⟩, fun h => h.2.2.symm⟩
  · rename_i hgone
    exact ⟨fun h => absurd h (Option.some_ne_none _).symm, fun h => absurd ⟨h.1, h.2.1⟩ hgone⟩

/-- The items of a partition in the delta. -/
def deltaRow (replicas : ℕ) (old new : List Partition) (p : ℕ) : DeltaPartitionEvent :=
  (List.range replicas).filterMap fun j => deltaItem? (old.getD p []) (new.getD p []) p j

theorem deltaItem?_eq_some {old new : List Partition} {p j : ℕ} {item : DeltaPartitionItem}
    (h : deltaItem? (old.getD p []) (new.getD p []) p j = some item) :
    item.partId = p ∧ item.oldMid = holder old p j ∧ item.newMid = holder new p j ∧
      holder old p j ≠ holder new p j := by
  unfold deltaItem? at h
  split at h
  · rename_i hne
    obtain rfl := Option.some.inj h
    exact ⟨rfl, rfl, rfl, hne⟩
  · cases h

theorem exists_deltaItem? {old new : List Partition} {p j : ℕ}
    (hne : holder old p j ≠ holder new p j) :
    ∃ item, deltaItem? (old.getD p []) (new.getD p []) p j = some item :=
  ⟨_, if_pos hne⟩

theorem partId_of_mem_deltaRow {replicas : ℕ} {old new : List Partition} {p : ℕ}
    {item : DeltaPartitionItem} (h : item ∈ deltaRow replicas old new p) : item.partId = p := by
  obtain ⟨j, -, hitem⟩ := mem_filterMap.mp h
  exact (deltaItem?_eq_some hitem).1

/-- The old members of the items are those that left a cell. -/
theorem exists_oldMid {replicas : ℕ} {old new : List Partition} {p : ℕ} {mid : ℤ} :
    (∃ item ∈ deltaRow replicas old new p, item.oldMid = mid) ↔
      ∃ j < replicas, holder old p j = mid ∧ holder new p j ≠ mid := by
  constructor
  · rintro ⟨item, hitem, rfl⟩
    obtain ⟨j, hj, hdelta⟩ := mem_filterMap.mp hitem
    obtain ⟨-, hold, -, hne⟩ := deltaItem?_eq_some hdelta
    rw [hold]
    exact ⟨j, mem_range.mp hj, rfl, hne.symm⟩
  · rintro ⟨j, hj, rfl, hne⟩
    obtain ⟨item, hdelta⟩ := exists_deltaItem? hne.symm
    obtain ⟨-, hold, -, -⟩ := deltaItem?_eq_some hdelta
    exact ⟨item, mem_filterMap.mpr ⟨j, mem_range.mpr hj, hdelta⟩, hold⟩

/-- The new members of the items are those that came into a cell. -/
theorem exists_newMid {replicas : ℕ} {old new : List Partition} {p : ℕ} {mid : ℤ} :
    (∃ item ∈ deltaRow replicas old new p, item.newMid = mid) ↔
      ∃ j < replicas, holder new p j = mid ∧ holder old p j ≠ mid := by
  constructor
  · rintro ⟨item, hitem, rfl⟩
    obtain ⟨j, hj, hdelta⟩ := mem_filterMap.mp hitem
    obtain ⟨-, -, hnew, hne⟩ := deltaItem?_eq_some hdelta
    rw [hnew]
    exact ⟨j, mem_range.mp hj, rfl, hne⟩
  · rintro ⟨j, hj, rfl, hne⟩
    obtain ⟨item, hdelta⟩ := exists_deltaItem? hne
    obtain ⟨-, -, hnew, -⟩ := deltaItem?_eq_some hdelta
    exact ⟨item, mem_filterMap.mpr ⟨j, mem_range.mpr hj, hdelta⟩, hnew⟩

/-- A member is new in the items when it came into a cell and left none. -/
theorem isNew_deltaRow {replicas : ℕ} {old new : List Partition} {p : ℕ} {mid : ℤ} :
    isNew (deltaRow replicas old new p) mid = true ↔
      0 ≤ mid ∧ (∃ j < replicas, holder new p j = mid ∧ holder old p j ≠ mid) ∧
        ¬∃ j < replicas, holder old p j = mid ∧ holder new p j ≠ mid := by
  rw [← exists_newMid, ← exists_oldMid, isNew]
  simp [and_assoc]

section Row

variable {partitions : ℕ} {replicas : UInt8} {old new : List Partition} {p : ℕ}

section

variable (hold : WellFormed partitions replicas old)

include hold

/-- A deletion in a partition is due. -/
theorem mem_delActions_deltaRow
    (hnew : WellFormed partitions replicas new) (hp : p < partitions) {a : MigrateAction} :
    a ∈ delActions (new.getD p []) p (deltaRow replicas.toNat old new p) ↔
      a.partitionId = p ∧ a.command = .del ∧ a.Due old new := by
  rw [mem_delActions, hnew.getReplicaCount hp]
  constructor
  · rintro ⟨item, hitem, hmid, hgone, rfl⟩
    obtain ⟨j, hj, hleft, -⟩ := exists_oldMid.mp ⟨item, hitem, rfl⟩
    refine ⟨rfl, rfl, hold.hasMember_iff.mpr ⟨hp, hmid, j, hj, hleft⟩, fun hkept => ?_⟩
    obtain ⟨-, -, i, hi, hheld⟩ := hnew.hasMember_iff.mp hkept
    exact hgone i hi hheld
  · obtain ⟨pid, mid, command⟩ := a
    rintro ⟨rfl, rfl, hleft, hgone⟩
    obtain ⟨-, hmid, j, hj, hheld⟩ := hold.hasMember_iff.mp hleft
    have hout : ∀ i < replicas.toNat, holder new pid i ≠ mid := fun i hi hi' =>
      hgone (hnew.hasMember_iff.mpr ⟨hp, hmid, i, hi, hi'⟩)
    obtain ⟨item, hitem, rfl⟩ := exists_oldMid.mpr ⟨j, hj, hheld, hout j hj⟩
    exact ⟨item, hitem, hmid, hout, rfl⟩

/-- An addition in a partition is due. -/
theorem mem_newActions_deltaRow
    (hnew : WellFormed partitions replicas new) (hp : p < partitions) {a : MigrateAction} :
    a ∈ newActions (new.getD p []) p (deltaRow replicas.toNat old new p) ↔
      a.partitionId = p ∧ a.command = .new ∧ a.Due old new := by
  rw [mem_newActions, hnew.getReplicaCount hp]
  constructor
  · rintro ⟨i, hi, hisNew, rfl⟩
    obtain ⟨hmid, ⟨j, hj, hcame, hother⟩, hnone⟩ := isNew_deltaRow.mp hisNew
    refine ⟨rfl, rfl, hnew.hasMember_iff.mpr ⟨hp, hmid, i, hi, rfl⟩, fun hhad => ?_⟩
    -- it was in another cell, which it left, since it is now in the cell `j` only
    obtain ⟨-, -, k, hk, hheld⟩ := hold.hasMember_iff.mp hhad
    refine hnone ⟨k, hk, hheld, fun hstay => ?_⟩
    have hheldNew : 0 ≤ holder new p k := by rw [hstay]; exact hmid
    have hsame : k = j := hnew.once p k j hheldNew (hstay.trans hcame.symm)
    exact hother (hsame ▸ hheld)
  · obtain ⟨pid, mid, command⟩ := a
    rintro ⟨hpid, hcommand, hdue⟩
    dsimp only at hpid hcommand
    subst hpid hcommand
    obtain ⟨hcame, hnot⟩ := hdue
    dsimp only at hcame hnot hp ⊢
    obtain ⟨-, hmid, i, hi, rfl⟩ := hnew.hasMember_iff.mp hcame
    have hout : ∀ k < replicas.toNat, holder old pid k ≠ holder new pid i := fun k hk hk' =>
      hnot (hold.hasMember_iff.mpr ⟨hp, hmid, k, hk, hk'⟩)
    refine ⟨i, hi, isNew_deltaRow.mpr ⟨hmid, ⟨i, hi, rfl, hout i hi⟩, ?_⟩, rfl⟩
    rintro ⟨k, hk, hheld, -⟩
    exact hout k hk hheld

/-- No deletion is listed twice: an old member left one cell only. -/
theorem nodup_delActions_deltaRow :
    (delActions (new.getD p []) p (deltaRow replicas.toNat old new p)).Nodup := by
  rw [delActions, deltaRow, filterMap_filterMap]
  refine nodup_range.filterMap fun j k a hj hk => ?_
  have hread : ∀ {j : ℕ}, a ∈ (deltaItem? (old.getD p []) (new.getD p []) p j).bind (fun item =>
      if 0 ≤ item.oldMid ∧ ∀ i < (new.getD p []).getReplicaCount, (new.getD p []).getMemberId i ≠
        item.oldMid then
        some (MigrateAction.mk p item.oldMid .del) else none) →
          0 ≤ holder old p j ∧ holder old p j = a.memberId := by
    intro j hj
    obtain ⟨item, hitem, hact⟩ := Option.bind_eq_some_iff.mp hj
    obtain ⟨-, hmid, -, -⟩ := deltaItem?_eq_some hitem
    split at hact
    · rename_i hgone
      obtain rfl := Option.some.inj hact
      exact ⟨hmid ▸ hgone.1, hmid.symm⟩
    · cases hact
  obtain ⟨hheld, hj⟩ := hread hj
  obtain ⟨-, hk⟩ := hread hk
  exact hold.once p j k hheld (hj.trans hk.symm)

end

theorem nodup_newActions {part : Partition} (honce : part.AtMostOnce) (pid : ℕ)
    (items : List DeltaPartitionItem) :
    (newActions part pid items).Nodup := by
  refine nodup_range.filterMap fun j k a hj hk => ?_
  have hread : ∀ {j : ℕ}, (a ∈ if isNew items (part.getMemberId j) then
      some (MigrateAction.mk pid (part.getMemberId j) .new) else none) →
      0 ≤ part.getMemberId j ∧ part.getMemberId j = a.memberId := by
    intro j hj
    split at hj
    · rename_i hnew
      obtain rfl := Option.some.inj hj
      rw [isNew, Bool.and_eq_true, Bool.and_eq_true] at hnew
      exact ⟨of_decide_eq_true hnew.1.1, rfl⟩
    · cases hj
  obtain ⟨hheld, hj⟩ := hread hj
  obtain ⟨-, hk⟩ := hread hk
  exact honce j k hheld (hj.trans hk.symm)

end Row

/-! ## The partitions one after another -/

/-- The items of one partition are taken together. -/
theorem generateMigrateActionList_append (partitions : List Partition) {pid : ℕ}
    {items rest : DeltaPartitionEvent}
    (hitems : ∀ item ∈ items, item.partId = pid) (hrest : ∀ item ∈ rest, item.partId ≠ pid) :
    generateMigrateActionList partitions (items ++ rest) =
      delActions (partitions.getD pid []) pid items ++ newActions
      (partitions.getD pid []) pid items ++
        generateMigrateActionList partitions rest := by
  cases items with
  | nil => rw [newActions_nil, delActions, filterMap_nil, nil_append, nil_append, nil_append]
  | cons item items =>
    obtain rfl : item.partId = pid := hitems item mem_cons_self
    have hsame : ∀ other ∈ items, (other.partId == item.partId) = true := fun other hother => by
      simpa using hitems other (mem_cons_of_mem _ hother)
    have htake : (items ++ rest).takeWhile (fun other => other.partId == item.partId) =
        items := by
      rw [takeWhile_append_of_pos hsame]
      have hnil : rest.takeWhile (fun other => other.partId == item.partId) = [] := by
        cases rest with
        | nil => rfl
        | cons other rest =>
          exact takeWhile_cons_of_neg (by simpa using hrest other mem_cons_self)
      rw [hnil, append_nil]
    have hdrop : (items ++ rest).dropWhile (fun other => other.partId == item.partId) = rest := by
      rw [dropWhile_append_of_pos hsame]
      cases rest with
      | nil => rfl
      | cons other rest =>
        exact dropWhile_cons_of_neg (by simpa using hrest other mem_cons_self)
    rw [cons_append, generateMigrateActionList, htake, hdrop]

/-- The actions of a delta are those of its partitions. -/
theorem generateMigrateActionList_delta (old new : List Partition) :
    generateMigrateActionList new (generatePartitionDeltaList old new) =
      (List.range old.length).flatMap fun p =>
        delActions (new.getD p []) p (deltaRow (old.getD 0 []).getReplicaCount old new p) ++
          newActions (new.getD p []) p (deltaRow (old.getD 0 []).getReplicaCount old new p) := by
  have hrows : ∀ ps : List ℕ, ps.Nodup →
      generateMigrateActionList new
      (ps.flatMap (deltaRow (old.getD 0 []).getReplicaCount old new)) =
        ps.flatMap fun p =>
        delActions (new.getD p []) p (deltaRow (old.getD 0 []).getReplicaCount old new p) ++
          newActions (new.getD p []) p (deltaRow (old.getD 0 []).getReplicaCount old new p) := by
    intro ps
    induction ps with
    | nil => intro _; rw [flatMap_nil, flatMap_nil, generateMigrateActionList]
    | cons p ps ih =>
      intro hnodup
      obtain ⟨hp, hps⟩ := nodup_cons.mp hnodup
      have hothers : ∀ item ∈ ps.flatMap (deltaRow (old.getD 0 []).getReplicaCount old new),
          item.partId ≠ p := by
        intro item hitem heq
        obtain ⟨p', hp', hmem⟩ := mem_flatMap.mp hitem
        have hpart : item.partId = p' := partId_of_mem_deltaRow hmem
        exact hp (heq ▸ hpart ▸ hp')
      rw [flatMap_cons, flatMap_cons, generateMigrateActionList_append new (fun item hitem =>
        partId_of_mem_deltaRow hitem) hothers, ih hps]
  exact hrows (List.range old.length) nodup_range

end BalancerUtil

/-! ## The difference -/

open BalancerUtil

/-- The actions for the delta of two tables are the members that a partition gains and loses, each
once. -/
theorem generateMigrateActionList_due {partitions : ℕ} {replicas : UInt8} {old new : List Partition}
    (hold : WellFormed partitions replicas old) (hnew : WellFormed partitions replicas new) :
    (generateMigrateActionList new (generatePartitionDeltaList old new)).Nodup ∧
      ∀ action, action ∈ generateMigrateActionList new (generatePartitionDeltaList old new) ↔
        action.Due old new := by
  have hrow : ∀ p < partitions, ∀ action,
      (action ∈ delActions (new.getD p []) p (deltaRow (old.getD 0 []).getReplicaCount old new p) ↔
        action.partitionId = p ∧ action.command = .del ∧ action.Due old new) ∧
      (action ∈ newActions (new.getD p []) p (deltaRow (old.getD 0 []).getReplicaCount old new p) ↔
        action.partitionId = p ∧ action.command = .new ∧ action.Due old new) := by
    intro p hp action
    rw [hold.getReplicaCount (Nat.zero_lt_of_lt hp)]
    exact ⟨mem_delActions_deltaRow hold hnew hp, mem_newActions_deltaRow hold hnew hp⟩
  rw [generateMigrateActionList_delta, hold.rows]
  refine ⟨?_, fun action => ?_⟩
  · refine List.nodup_flatMap.mpr ⟨fun p hp => ?_, ?_⟩
    · have hlt := List.mem_range.mp hp
      refine List.nodup_append'.mpr ⟨?_, nodup_newActions (hnew.once p) p _, ?_⟩
      · rw [hold.getReplicaCount (Nat.zero_lt_of_lt hlt)]
        exact nodup_delActions_deltaRow hold
      · intro action hdel hadd
        have hcommand := ((hrow p hlt action).1.mp hdel).2.1
        rw [((hrow p hlt action).2.mp hadd).2.1] at hcommand
        cases hcommand
    · refine List.Pairwise.imp_of_mem (fun {p q} hp hq hne action hactp hactq =>
        hne ?_) List.nodup_range
      have hpart : ∀ {p}, p ∈ List.range partitions →
          action ∈ delActions (new.getD p []) p
          (deltaRow (old.getD 0 []).getReplicaCount old new p) ++
            newActions (new.getD p []) p (deltaRow (old.getD 0 []).getReplicaCount old new p) →
          action.partitionId = p := by
        intro p hp hact
        rcases List.mem_append.mp hact with hdel | hadd
        · exact ((hrow p (List.mem_range.mp hp) action).1.mp hdel).1
        · exact ((hrow p (List.mem_range.mp hp) action).2.mp hadd).1
      exact (hpart hp hactp).symm.trans (hpart hq hactq)
  · rw [List.mem_flatMap]
    constructor
    · rintro ⟨p, hp, hact⟩
      rcases List.mem_append.mp hact with hdel | hadd
      · exact ((hrow p (List.mem_range.mp hp) action).1.mp hdel).2.2
      · exact ((hrow p (List.mem_range.mp hp) action).2.mp hadd).2.2
    · intro hdue
      cases hcommand : action.command with
      | new =>
          have hcame : HasMember new action.partitionId action.memberId := by
            rw [MigrateAction.Due, hcommand] at hdue
            exact hdue.1
          have hp := (hnew.hasMember_iff.mp hcame).1
          exact ⟨_, List.mem_range.mpr hp, List.mem_append_right _
            ((hrow _ hp action).2.mpr ⟨rfl, hcommand, hdue⟩)⟩
      | del =>
          have hleft : HasMember old action.partitionId action.memberId := by
            rw [MigrateAction.Due, hcommand] at hdue
            exact hdue.1
          have hp := (hold.hasMember_iff.mp hleft).1
          exact ⟨_, List.mem_range.mpr hp, List.mem_append_left _
            ((hrow _ hp action).1.mpr ⟨rfl, hcommand, hdue⟩)⟩

/-- A partition whose two members change places, and whose third one gives way to another. -/
theorem generateMigrateActionList_due_permuted :
    let old : List Partition := [[⟨1, .ready⟩, ⟨2, .ready⟩, ⟨3, .ready⟩]]
    let new : List Partition := [[⟨2, .ready⟩, ⟨1, .ready⟩, ⟨4, .init⟩]]
    (generateMigrateActionList new (generatePartitionDeltaList old new)).Nodup ∧
      ∀ action, action ∈ generateMigrateActionList new (generatePartitionDeltaList old new) ↔
        action.Due old new := by
  intro old new
  have hthree : ∀ {a b c : Cell}, 0 ≤ a.memberId → 0 ≤ b.memberId → 0 ≤ c.memberId →
      a.memberId ≠ b.memberId → a.memberId ≠ c.memberId → b.memberId ≠ c.memberId →
      WellFormed 1 3 [[a, b, c]] := by
    intro a b c ha hb hc hab hac hbc
    refine ⟨rfl, fun q hq => by obtain rfl : q = 0 := by omega
                                rfl, ?_⟩
    rintro (_ | q)
    · rintro (_ | _ | _ | i) (_ | _ | _ | j) hi hij <;> simp_all [Partition.cell]
    · rintro i j hi -
      simp [Partition.cell] at hi
  have hold : WellFormed 1 3 old :=
    hthree (by decide) (by decide) (by decide) (by decide) (by decide) (by decide)
  have hnew : WellFormed 1 3 new :=
    hthree (by decide) (by decide) (by decide) (by decide) (by decide) (by decide)
  exact generateMigrateActionList_due hold hnew

end Idgs.Cluster
