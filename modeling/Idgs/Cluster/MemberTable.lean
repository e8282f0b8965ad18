import Idgs.Cluster.MemberManager

/-!
# What the member manager does to a membership table

The handlers of one process as functions of its table: a leave, a join and a change of state, each
with what it keeps. Of the multicasts that a handler returns only those of the member manager matter
here, as the partition manager's do not change a membership table.
-/

namespace Idgs.Cluster

open List

/-- The messages of the member manager. -/
def Multicast.isMember : Multicast → Bool
  | .member _ => true
  | .wholeMemberTable _ _ => true
  | .deltaMember _ _ => true
  | .memberStatus _ _ => true
  | _ => false

namespace Node

/-! ## Tables -/

/-- A table in which positions are ids, no position is reserved, and at most one member is
leading. -/
structure TableOk (table : List Member) : Prop where
  ids : ∀ i < table.length, (table.getD i {}).id = i
  taken : ∀ i, (table.getD i {}).state ≠ .taken
  leading : ∀ i j, (table.getD i {}).isLeading = true → (table.getD j {}).isLeading = true → i = j

theorem tableOk_nil : TableOk [] where
  ids := fun i hi => absurd hi (Nat.not_lt_zero i)
  taken := fun i => by simp
  leading := fun i j hi => by simp [Member.isLeading] at hi

/-- A field that a change of an entry keeps. -/
theorem map_modify {α : Type*} {g : Member → α} {f : Member → Member} (h : ∀ m, g (f m) = g m)
    (table : List Member) (i : ℕ) : (table.modify i f).map g = table.map g := by
  refine ext_getElem? fun j => ?_
  rw [getElem?_map, getElem?_map, getElem?_modify]
  cases table[j]? with
  | none => rfl
  | some m =>
    by_cases hij : i = j
    · simp [hij, h]
    · simp [hij]

/-- The ids of a table are read off the list of its ids. -/
theorem getD_id_of_map_eq {table table' : List Member}
    (h : table'.map Member.id = table.map Member.id)
    (i : ℕ) : (table'.getD i {}).id = (table.getD i {}).id := by
  have hget := congrArg (fun l => l[i]?) h
  simp only [getElem?_map] at hget
  rw [getD_eq_getElem?_getD, getD_eq_getElem?_getD]
  cases h' : table'[i]? <;> cases h'' : table[i]? <;> simp_all

/-- A change of state keeps a table in order, unless it reserves the position. -/
theorem TableOk.setState {table : List Member} (h : TableOk table) (pos : ℕ) {status : MemberState}
    (hstatus : status ≠ .taken) : TableOk (table.modify pos (·.setState status)) where
  ids := by
    intro i hi
    rw [length_modify] at hi
    have hmap : (table.modify pos (·.setState status)).map Member.id = table.map Member.id :=
      map_modify (f := (·.setState status)) (fun _ => rfl) table pos
    rw [getD_id_of_map_eq hmap]
    exact h.ids i hi
  taken := by
    intro i
    rw [getD_modify]
    split
    · exact hstatus
    · exact h.taken i
  leading := by
    have hflags : ∀ i, ((table.modify pos (·.setState status)).getD i {}).isLeading =
        (table.getD i {}).isLeading := by
      intro i
      rw [getD_modify]
      split <;> rfl
    intro i j hi hj
    rw [hflags] at hi hj
    exact h.leading i j hi hj

/-! ## A leave -/

/-- The table with the given positions inactive. -/
def inactivate (table : List Member) (leave : List ℕ) : List Member :=
  leave.foldl (fun table i => table.modify i (·.setState .inactive)) table

/-- The table after `handleLeaveMembers` on a member that stays. -/
def leaveTable (table : List Member) (leave : List ℕ) : List Member :=
  match checkLeadingLeave table leave with
  | some leading =>
    match selectLeading table leave with
    | some newLeading =>
      inactivate ((((table.modify newLeading (·.setLeading true)).modify leading
        (·.setState .inactive)).modify leading (·.setLeading false)).modify leading
        (·.setState .inactive)) (leave.filter (· ≠ leading))
    | none => table
  | none => inactivate table leave

theorem map_inactivate {α : Type*} {g : Member → α} (h : ∀ m, g (m.setState .inactive) = g m)
    (table : List Member) (leave : List ℕ) : (inactivate table leave).map g = table.map g := by
  induction leave generalizing table with
  | nil => rfl
  | cons i leave ih => exact (ih _).trans (map_modify h table i)

theorem getD_inactivate (table : List Member) (leave : List ℕ) (i : ℕ) :
    (inactivate table leave).getD i {} =
      if i ∈ leave ∧ i < table.length then (table.getD i {}).setState .inactive
      else table.getD i {} := by
  induction leave generalizing table with
  | nil => simp [inactivate]
  | cons a leave ih =>
    rw [inactivate, foldl_cons, ← inactivate, ih, length_modify, getD_modify]
    by_cases hl : i < table.length
    · by_cases ha : i = a
      · subst ha
        simp [hl, Member.setState]
      · simp [hl, ha]
    · simp [hl]

/-- A leave keeps every field that neither a state nor the leading flag changes. -/
theorem map_leaveTable {α : Type*} {g : Member → α} (hstate : ∀ m s, g (m.setState s) = g m)
    (hleading : ∀ m flag, g (m.setLeading flag) = g m) (table : List Member) (leave : List ℕ) :
    (leaveTable table leave).map g = table.map g := by
  unfold leaveTable
  split
  · split
    · rw [map_inactivate (fun m => hstate m _), map_modify (fun m => hstate m _),
        map_modify (fun m => hleading m _), map_modify (fun m => hstate m _),
        map_modify (fun m => hleading m _)]
    · rfl
  · exact map_inactivate (fun m => hstate m _) table leave

section

variable (table : List Member)

section

variable (leave : List ℕ)

theorem length_leaveTable :
    (leaveTable table leave).length = table.length := by
  have h := map_leaveTable (g := fun _ => ()) (fun _ _ => rfl) (fun _ _ => rfl) table leave
  simpa using congrArg List.length h

theorem map_address_leaveTable :
    (leaveTable table leave).map Member.address = table.map Member.address :=
  map_leaveTable (fun _ _ => rfl)
    (fun m flag => by unfold Member.setLeading; split <;> rfl) table leave

/-- The states after a leave: the members that leave may become inactive, the others keep theirs. -/
theorem state_leaveTable (i : ℕ) :
    ((leaveTable table leave).getD i {}).state = (table.getD i {}).state ∨
      (i ∈ leave ∧ ((leaveTable table leave).getD i {}).state = .inactive) := by
  unfold leaveTable
  split
  · rename_i leading hleading
    have hmem : leading ∈ leave := mem_of_find?_eq_some hleading
    split
    · simp only [getD_inactivate, getD_modify, length_modify]
      by_cases hi : i ∈ leave
      · by_cases hl : i < table.length
        · right
          refine ⟨hi, ?_⟩
          by_cases hlead : i = leading
          · subst hlead
            simp [hl, Member.setState]
          · simp [hi, hl, hlead, Member.setState]
        · left
          simp [hl]
      · left
        have hne : i ≠ leading := fun h => hi (h ▸ hmem)
        simp only [mem_filter, hi, hne, false_and, if_false]
        split
        · exact (Member.setLeading_fields _ _).2.1
        · rfl
    · exact .inl rfl
  · rw [getD_inactivate]
    split
    · rename_i h
      exact .inr ⟨h.1, rfl⟩
    · exact .inl rfl

/-- The leading flags after a leave: the selected member has it instead of the one that left. -/
theorem isLeading_leaveTable (i : ℕ) :
    ((leaveTable table leave).getD i {}).isLeading =
      match checkLeadingLeave table leave, selectLeading table leave with
      | some leading, some newLeading =>
        if i < table.length then
          !decide (i = leading) && (decide (i = newLeading) || (table.getD i {}).isLeading)
        else false
      | _, _ => (table.getD i {}).isLeading := by
  have hstate : ∀ (m : Member) s, (m.setState s).isLeading = m.isLeading := fun _ _ => rfl
  have hinactivate : ∀ table leave, ((inactivate table leave).getD i {}).isLeading =
      (table.getD i {}).isLeading := by
    intro table leave
    rw [getD_inactivate]
    split <;> rfl
  unfold leaveTable
  cases checkLeadingLeave table leave with
  | none => exact hinactivate table leave
  | some leading =>
    cases selectLeading table leave with
    | none => rfl
    | some newLeading =>
      simp only [hinactivate, getD_modify, length_modify]
      by_cases hl : i < table.length
      · by_cases hlead : i = leading
        · subst hlead
          simp [hl, hstate]
        · by_cases hnew : i = newLeading
          · subst hnew
            simp [hl, hlead]
          · simp [hl, hlead, hnew]
      · simp [hl]
        rfl

end

end

theorem TableOk.leaveTable {table : List Member} (h : TableOk table) (leave : List ℕ) :
    TableOk (leaveTable table leave) where
  ids := by
    intro i hi
    rw [length_leaveTable] at hi
    have hmap := map_leaveTable (g := Member.id) (fun _ _ => rfl)
      (fun m flag => (Member.setLeading_fields m flag).1) table leave
    rw [getD_id_of_map_eq hmap]
    exact h.ids i hi
  taken := by
    intro i
    rcases state_leaveTable table leave i with heq | ⟨-, heq⟩
    · rw [heq]
      exact h.taken i
    · rw [heq]
      decide
  leading := by
    intro i j hi hj
    rw [isLeading_leaveTable] at hi hj
    cases hcheck : checkLeadingLeave table leave with
    | none =>
      rw [hcheck] at hi hj
      exact h.leading i j hi hj
    | some leading =>
      cases hselect : selectLeading table leave with
      | none =>
        rw [hcheck, hselect] at hi hj
        exact h.leading i j hi hj
      | some newLeading =>
        have hold : (table.getD leading {}).isLeading = true := by
          simpa using find?_some hcheck
        have hnew : ∀ k, (if k < table.length then
            !decide (k = leading) && (decide (k = newLeading) || (table.getD k {}).isLeading)
            else false) = true → k = newLeading := by
          intro k hk
          split at hk
          · simp only [Bool.and_eq_true, Bool.not_eq_true', decide_eq_false_iff_not,
              Bool.or_eq_true, decide_eq_true_eq] at hk
            exact hk.2.resolve_right fun hlead => hk.1 (h.leading k leading hlead hold)
          · cases hk
        rw [hcheck, hselect] at hi hj
        exact (hnew i hi).trans (hnew j hj).symm

/-! ## A join -/

/-- The table after the delta of a joiner. -/
def joinedTable (table : List Member) (m : Member) (pos : ℕ) : List Member :=
  (addMember table m pos).modify pos (·.setState .joined)

section

variable (table : List Member)

theorem findAddPos_le : (findAddPos table).1 ≤ table.length := by
  unfold findAddPos
  split
  · rename_i i hi
    obtain ⟨hlt, -⟩ := findIdx?_eq_some_iff_getElem.mp hi
    exact hlt.le
  · exact le_rfl

/-- The position that is given out is inactive, or new. -/
theorem findAddPos_inactive :
    (findAddPos table).1 < table.length →
    (table.getD (findAddPos table).1 {}).state = .inactive := by
  unfold findAddPos
  split
  · rename_i i hi
    obtain ⟨hlt, hinactive, -⟩ := findIdx?_eq_some_iff_getElem.mp hi
    intro _
    rw [getD_eq_getElem?_getD, getElem?_eq_getElem hlt, Option.getD_some]
    simpa using hinactive
  · exact fun h => absurd h (lt_irrefl _)

/-- Reserving the position makes no difference once the new member is there. -/
theorem joinedTable_findAddPos (m : Member) :
    joinedTable (findAddPos table).2 m (findAddPos table).1 =
      joinedTable table m (findAddPos table).1 := by
  have hadd : addMember (findAddPos table).2 m (findAddPos table).1 =
      addMember table m (findAddPos table).1 := by
    unfold addMember findAddPos
    split
    · rename_i i hi
      obtain ⟨hlt, -⟩ := findIdx?_eq_some_iff_getElem.mp hi
      have hzero : i + 1 - table.length = 0 := by omega
      have hset : (table.modify i (·.setState .taken)).set i (m.setId i) =
          table.set i (m.setId i) := by
        refine ext_getElem? fun j => ?_
        by_cases hij : i = j <;> simp [hij, getElem?_set]
      simpa [hzero] using hset
    · simp
  rw [joinedTable, hadd, ← joinedTable]

theorem getD_joinedTable (m : Member) (pos i : ℕ) :
    (joinedTable table m pos).getD i {} =
      if i = pos then (m.setId pos).setState .joined else table.getD i {} := by
  have hlen := length_addMember table m pos
  rw [joinedTable, getD_modify, getD_addMember]
  by_cases hi : i = pos
  · subst hi
    rw [if_pos ⟨rfl, by omega⟩, if_pos rfl, if_pos rfl]
  · rw [if_neg fun h => hi h.1, if_neg hi, if_neg hi]

theorem length_joinedTable (m : Member) :
    (joinedTable table m (findAddPos table).1).length =
      max table.length ((findAddPos table).1 + 1) := by
  rw [joinedTable, length_modify, length_addMember]

end

theorem TableOk.joinedTable {table : List Member} (h : TableOk table) {m : Member}
    (hm : m.isLeading = false) : TableOk (joinedTable table m (findAddPos table).1) where
  ids := by
    intro i hi
    rw [length_joinedTable] at hi
    have hle := findAddPos_le table
    rw [getD_joinedTable]
    split
    · rename_i heq
      rw [heq]
      rfl
    · exact h.ids i (by omega)
  taken := by
    intro i
    rw [getD_joinedTable]
    split
    · intro hstate
      cases hstate
    · exact h.taken i
  leading := by
    have hold : ∀ i, ((Node.joinedTable table m (findAddPos table).1).getD i {}).isLeading = true →
        (table.getD i {}).isLeading = true := by
      intro i hi
      rw [getD_joinedTable] at hi
      split at hi
      · exact absurd (hm.symm.trans hi) (by decide)
      · exact hi
    exact fun i j hi hj => h.leading i j (hold i hi) (hold j hj)

/-- The addresses after a join: the new one, and those of before but for the one that is
replaced. -/
theorem map_address_joinedTable (table : List Member) (m : Member) :
    (joinedTable table m (findAddPos table).1).map Member.address =
      if (findAddPos table).1 < table.length then
        (table.map Member.address).set (findAddPos table).1 m.address
      else table.map Member.address ++ [m.address] := by
  have hle := findAddPos_le table
  rw [joinedTable, map_modify (f := (·.setState .joined)) (fun _ => rfl), addMember]
  split
  · rename_i hlt
    have hzero : (findAddPos table).1 + 1 - table.length = 0 := by omega
    rw [hzero, replicate_zero, append_nil, map_set]
    rfl
  · rename_i hlt
    have hpos : (findAddPos table).1 = table.length := by omega
    rw [hpos, Nat.add_sub_cancel_left, replicate_one, set_append]
    simp [Member.setId, Member.address]

/-! ## Handlers -/

/-- The messages of the member manager among those a handler returns. -/
def memberMessages (sent : List Multicast) : List Multicast := sent.filter Multicast.isMember

/-- The only such message that follows a change of state tells that a joiner is prepared. -/
theorem memberMessages_memberStatusChanged (oracle : BalanceOracle) (cfg : ClusterConfig)
    (localMember : Option Member) (members : List Member) (partitions : List Partition)
    (changed : Member) :
    ∀ x ∈ memberMessages (PartitionManager.memberStatusChanged oracle cfg localMember members
        partitions changed),
      changed.state = .joined ∧ ∃ pos, x = .memberStatus pos .prepared := by
  intro x hx
  obtain ⟨hx, hmember⟩ := mem_filter.mp hx
  unfold PartitionManager.memberStatusChanged at hx
  split at hx
  · cases hx
  · split at hx
    · cases hx
    · split at hx
      · rename_i hjoined
        refine ⟨hjoined, changed.id.toNat, ?_⟩
        simp only [mem_append, mem_singleton] at hx
        rcases hx with (hx | hx) | rfl
        · split at hx
          · cases hx
          · cases mem_singleton.mp hx
            cases hmember
        · split at hx
          · cases mem_singleton.mp hx
            cases hmember
          · cases hx
        · rfl
      · split at hx
        · split at hx
          · cases hx
          · split at hx
            · cases mem_singleton.mp hx
              cases hmember
            · cases hx
        · cases hx

/-- A member that becomes inactive causes no message of the member manager. -/
theorem setMemberStatus_inactive (oracle : ℕ → BalanceOracle) (n : Node) (i : ℕ) :
    setMemberStatus oracle n i .inactive =
      ({ n with members := n.members.modify i (·.setState .inactive) },
        (setMemberStatus oracle n i .inactive).2) ∧
      memberMessages (setMemberStatus oracle n i .inactive).2 = [] := by
  refine ⟨rfl, eq_nil_iff_forall_not_mem.mpr fun x hx => ?_⟩
  obtain ⟨hjoined, -⟩ := memberMessages_memberStatusChanged _ _ _ _ _ _ x hx
  dsimp only at hjoined
  rw [getD_modify] at hjoined
  split at hjoined
  · cases hjoined
  · rename_i hi
    have hlen : n.members.length ≤ i := by
      by_contra hlt
      exact hi ⟨rfl, by omega⟩
    rw [getD_of_length_le hlen] at hjoined
    cases hjoined

theorem memberMessages_append (sent sent' : List Multicast) :
    memberMessages (sent ++ sent') = memberMessages sent ++ memberMessages sent' :=
  filter_append ..

/-- Several members become inactive. -/
theorem setMemberStatuses_inactive (oracle : ℕ → BalanceOracle) (n : Node) (leave : List ℕ) :
    (setMemberStatuses oracle n .inactive leave).1 =
        { n with members := inactivate n.members leave } ∧
      memberMessages (setMemberStatuses oracle n .inactive leave).2 = [] := by
  induction leave generalizing n with
  | nil => exact ⟨rfl, rfl⟩
  | cons i leave ih =>
    obtain ⟨-, hsent⟩ := setMemberStatus_inactive oracle n i
    obtain ⟨hnode, hsent'⟩ := ih (setMemberStatus oracle n i .inactive).1
    refine ⟨hnode, ?_⟩
    rw [setMemberStatuses, memberMessages_append, hsent, hsent', append_nil]

/-- A leave on a member that stays. -/
theorem handleLeaveMembers_some (oracle : ℕ → BalanceOracle) {n : Node} {leave : List ℕ}
    (hlocal : n.getLocalMember ≠ none)
    (hstays : ∀ i ∈ leave, n.localMemberIndex ≠ (n.members.getD i {}).id) :
    (handleLeaveMembers oracle n leave).1 = { n with members := leaveTable n.members leave } ∧
      memberMessages (handleLeaveMembers oracle n leave).2 = [] := by
  have hany : ¬(leave.any fun i => n.localMemberIndex == (n.members.getD i {}).id) = true := by
    simpa using hstays
  rw [handleLeaveMembers, if_neg hlocal, if_neg hany]
  unfold leaveTable
  cases checkLeadingLeave n.members leave with
  | none => exact setMemberStatuses_inactive oracle n leave
  | some leading =>
    cases selectLeading n.members leave with
    | none => exact ⟨rfl, rfl⟩
    | some newLeading =>
      let table₁ := n.members.modify newLeading (·.setLeading true)
      let table₂ := (table₁.modify leading (·.setState .inactive)).modify leading
        (·.setLeading false)
      obtain ⟨-, hsent₁⟩ := setMemberStatus_inactive oracle { n with members := table₁ } leading
      obtain ⟨-, hsent₂⟩ := setMemberStatus_inactive oracle { n with members := table₂ } leading
      obtain ⟨hnode, hsent₃⟩ := setMemberStatuses_inactive oracle
        { n with members := table₂.modify leading (·.setState .inactive) }
        (leave.filter (· ≠ leading))
      refine ⟨hnode, ?_⟩
      dsimp only [replaceLeading]
      rw [memberMessages_append, memberMessages_append]
      exact append_eq_nil_iff.mpr ⟨append_eq_nil_iff.mpr ⟨hsent₁, hsent₂⟩, hsent₃⟩

/-- The configuration with the leading flag. -/
def leadingCfg (cfg : Member) : Member := { cfg with flags := cfg.flags ||| MF_LEADING }

theorem handleJoinedList_succ (evt : ClusterChangeEvent) (j : ℕ) (joined : List MemberAddress)
    (cfg : Member) : handleJoinedList evt (j + 1) joined cfg =
      (cfg, (joined.filter (· = cfg.address)).map fun _ => .member cfg) := by
  induction joined generalizing j with
  | nil => rfl
  | cons a joined ih =>
    have hcond : ¬(evt.memberList.length ≤ evt.joinedList.length ∧ j + 1 = 0) := by omega
    rw [handleJoinedList, if_neg hcond]
    dsimp only
    rw [ih (j + 1), filter_cons]
    by_cases ha : a = cfg.address
    · subst ha
      simp [Member.address]
    · have hne : ¬(cfg.nodeId = a.nodeid ∧ cfg.pid = a.pid) := by
        intro h
        exact ha (by cases a; simp_all [Member.address])
      rw [if_neg hne]
      simp [ha]

/-- The joined list gives the configuration the leading flag if it is as long as the member list; a
process that finds itself in it multicasts itself. -/
theorem handleJoinedList_zero (evt : ClusterChangeEvent) (joined : List MemberAddress)
    (hnodup : joined.Nodup) (cfg : Member) :
    let cfg' := if joined ≠ [] ∧ evt.memberList.length ≤ evt.joinedList.length then leadingCfg cfg
      else cfg
    handleJoinedList evt 0 joined cfg =
      (cfg', if cfg.address ∈ joined then [.member cfg'] else []) := by
  have hfilter : ∀ (m : Member), (joined.filter (· = m.address)).map (fun _ => Multicast.member m) =
      if m.address ∈ joined then [.member m] else [] := by
    intro m
    split
    · rename_i hmem
      have hone : joined.filter (· = m.address) = [m.address] := by
        rw [filter_eq, hnodup.count, if_pos hmem, replicate_one]
      rw [hone, map_singleton]
    · rename_i hmem
      have hnone : joined.filter (· = m.address) = [] := by
        refine filter_eq_nil_iff.mpr fun a ha => ?_
        intro heq
        exact hmem ((of_decide_eq_true heq) ▸ ha)
      rw [hnone, map_nil]
  cases joined with
  | nil => rfl
  | cons a joined =>
    have hsent : ∀ (m : Member), (if m.nodeId = a.nodeid ∧ m.pid = a.pid then [Multicast.member m]
        else []) ++ (handleJoinedList evt (0 + 1) joined m).2 =
        if m.address ∈ a :: joined then [.member m] else [] := by
      intro m
      rw [← hfilter, filter_cons, handleJoinedList_succ]
      by_cases ha : a = m.address
      · subst ha
        simp [Member.address]
      · have hne : ¬(m.nodeId = a.nodeid ∧ m.pid = a.pid) := by
          intro h
          exact ha (by cases a; simp_all [Member.address])
        rw [if_neg hne]
        simp [ha]
    dsimp only
    by_cases hcond : evt.memberList.length ≤ evt.joinedList.length
    · simp only [handleJoinedList, hcond, true_and, if_true, ne_eq, reduceCtorEq,
        not_false_eq_true]
      refine Prod.ext ?_ (hsent (leadingCfg cfg))
      rw [handleJoinedList_succ]
      rfl
    · simp only [handleJoinedList, hcond, false_and, if_false, and_false]
      refine Prod.ext ?_ (hsent cfg)
      rw [handleJoinedList_succ]

end Node

end Idgs.Cluster
