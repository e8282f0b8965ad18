import Mathlib.Data.List.Find
import Idgs.Cluster.MembershipRuns

/-!
# One leading member

The founder of a group gets the leading flag from the configuration change that it finds only itself
in; when the leading member leaves, the others give the flag to the first prepared or active member
that stays. Two processes that found a group together both become leading, and a leave after which
nobody can be selected leaves the group without one.
-/

namespace Idgs.Cluster

open List

namespace Membership

/-- The member's own entry has the leading flag. -/
def Leads (s : State) (p : MemberAddress) : Prop :=
  IsMember s p ∧ ((s.nodes p).getLocalMember.any fun m => m.isLeading) = true

instance (s : State) (p : MemberAddress) : Decidable (Leads s p) :=
  inferInstanceAs (Decidable (_ ∧ _))

/-- When the leading member leaves and another member stays, the first prepared or active entry of a
process that does not leave is the one of a member. -/
def Succeeds (s : State) : Step → Prop
  | .change left _ => ∀ l ∈ left, Leads s l → (∃ q ∈ s.group, q ∉ left ∧ IsMember s q) →
      (((s.nodes l).members.find? fun m => decide (m.address ∉ left) &&
        (m.state == .active || m.state == .prepared)).any fun m =>
          decide (IsMember s m.address)) = true
  | _ => True

instance (s : State) : (a : Step) → Decidable (Succeeds s a)
  | .change _ _ => by
      dsimp only [Succeeds]
      infer_instance
  | .status _ _ => inferInstanceAs (Decidable True)
  | .deliver _ => inferInstanceAs (Decidable True)

/-- Joins are serial, and a leading member that leaves has a successor. -/
def Orderly (s : State) (a : Step) : Prop := Serial s a ∧ Succeeds s a

instance (s : State) (a : Step) : Decidable (Orderly s a) := inferInstanceAs (Decidable (_ ∧ _))

/-- Every table marks at most one member as leading, the members agree on it, and it is one of
them. -/
structure OneLeading (s : State) : Prop where
  unique : ∀ p ∈ s.group, ∀ i j, ((s.nodes p).members.getD i {}).isLeading = true →
    ((s.nodes p).members.getD j {}).isLeading = true → i = j
  same : ∀ p q, IsMember s p → IsMember s q → ∀ i,
    ((s.nodes p).members.getD i {}).isLeading = ((s.nodes q).members.getD i {}).isLeading
  led : (∃ p, IsMember s p) → ∃ l, Leads s l

/-! ## The leading entry of the common table -/

/-- A member has the leading entry of the common table. -/
def Led (table : List Member) (pend : Pending) (s : State) : Prop :=
  ∃ l ∈ s.group, ∃ i, MemberOk table pend l (s.nodes l) i ∧ (table.getD i {}).isLeading = true

/-- If there is a member, there is a leading one. -/
def LedIfAny (table : List Member) (pend : Pending) (s : State) : Prop :=
  (∃ p ∈ s.group, ∃ i, MemberOk table pend p (s.nodes p) i) → Led table pend s

/-- Reserving a position changes no leading flag. -/
theorem isLeading_findAddPos (table : List Member) (i : ℕ) :
    ((Node.findAddPos table).2.getD i {}).isLeading = (table.getD i {}).isLeading := by
  rcases Node.getD_findAddPos table i with ⟨heq, -⟩ | ⟨-, -, heq⟩ | ⟨hi, heq⟩
  · rw [heq]
  · rw [heq]
    rfl
  · rw [heq, Node.getD_of_length_le hi.ge]
    rfl

theorem isLeading_memberTable (table : List Member) (p : MemberAddress) (pend : Pending) (i : ℕ) :
    ((pend.memberTable table p).getD i {}).isLeading = (table.getD i {}).isLeading := by
  cases pend with
  | none | founding _ _ => rfl
  | snapshot _ _ | delta _ _ =>
    rw [Pending.memberTable]
    split
    · exact isLeading_findAddPos table i
    · rfl

theorem Inv.oneLeading {table : List Member} {pend : Pending} {s : State} (h : Inv table pend s)
    (hled : LedIfAny table pend s) : OneLeading s where
  unique := by
    intro p hp i j hi hj
    rcases h.nodes p hp with ⟨k, hk⟩ | ⟨-, hmembers⟩
    · rw [hk.members, isLeading_memberTable] at hi hj
      exact h.sound.leading i j hi hj
    · have hstranger : pend.strangerTable table p = table ∨ pend.strangerTable table p = [] := by
        cases pend with
        | none | founding _ _ | snapshot _ _ => exact .inr rfl
        | delta l m =>
          by_cases hm : m.address = p
          · exact .inl (if_pos hm)
          · exact .inr (if_neg hm)
      rw [hmembers] at hi hj
      rcases hstranger with heq | heq
      · rw [heq] at hi hj
        exact h.sound.leading i j hi hj
      · rw [heq] at hi hj
        exact Node.tableOk_nil.leading i j hi hj
  same := by
    intro p q hp hq i
    obtain ⟨j, hj⟩ := h.memberOk hp
    obtain ⟨k, hk⟩ := h.memberOk hq
    rw [hj.members, hk.members, isLeading_memberTable, isLeading_memberTable]
  led := by
    rintro ⟨p, hp⟩
    obtain ⟨j, hj⟩ := h.memberOk hp
    obtain ⟨l, hl, i, hi, hlead⟩ := hled ⟨p, hp.1, j, hj⟩
    have hlocal := hi.getLocalMember
    rw [hi.entry] at hlocal
    refine ⟨l, ⟨hl, ?_⟩, ?_⟩
    · rw [hlocal]
      exact Option.some_ne_none _
    · rw [hlocal]
      exact hlead

/-- A member that keeps its position is leading after a step if its new entry is. -/
theorem Inv.led {table : List Member} {pend : Pending} {s : State} (h : Inv table pend s)
    {l : MemberAddress} {i : ℕ} (hl : l ∈ s.group) (hindex : (s.nodes l).localMemberIndex = i)
    (hlead : (table.getD i {}).isLeading = true) : Led table pend s := by
  rcases h.nodes l hl with ⟨j, hj⟩ | ⟨hstranger, -⟩
  · have heq := hj.index.symm.trans hindex
    obtain rfl := Int.ofNat.inj heq
    exact ⟨l, hl, j, hj, hlead⟩
  · rw [hindex] at hstranger
    omega

/-! ## Messages -/

/-- A process gets a position only from its own founding request or its own delta. -/
theorem localMemberIndex_handle (oracle : ℕ → BalanceOracle) (n : Node) (m : Multicast) :
    ((n.handle oracle m).getD (n, [])).1.localMemberIndex = n.localMemberIndex ∨
      ∃ m', ((m = .member m' ∧ m'.isLeading = true) ∨ ∃ pos, m = .deltaMember m' pos) ∧
        n.isLocalMember m' = true := by
  cases m with
  | member m' =>
    by_cases hlead : m'.isLeading = true
    · by_cases hlocal : n.isLocalMember m' = true
      · exact .inr ⟨m', .inl ⟨rfl, hlead⟩, hlocal⟩
      · left
        simp only [Node.handle, Option.getD_some, Node.handleJoinEvent, if_pos hlead]
        simp [Node.handleLeadingJoinEvent, Node.setMemberStatus, hlocal]
    · left
      simp only [Node.handle, Option.getD_some, Node.handleJoinEvent, if_neg hlead]
      split
      · split <;> rfl
      · rfl
  | wholeMemberTable m' table =>
    left
    simp only [Node.handle, Option.getD_some, Node.handleWholeMemberTableEvent]
    split <;> rfl
  | deltaMember m' pos =>
    by_cases hlocal : n.isLocalMember m' = true
    · exact .inr ⟨m', .inr ⟨pos, rfl⟩, hlocal⟩
    · left
      simp only [Node.handle, Option.getD_some, Node.handleDeltaMemberEvent]
      split
      · rfl
      · simp [Node.setMemberStatus]
  | memberStatus pos status =>
    left
    simp only [Node.handle, Option.getD_some, Node.handleMemberStatusEvent]
    split
    · rfl
    · split <;> rfl
  | wholePartitionTable evt =>
    left
    simp only [Node.handle]
    cases PartitionManager.handleWholePartitionTableEvent n.cluster n.getLocalMember n.partitions
      evt <;> rfl
  | deltaPartitions evt | partitionStatus evt => exact .inl rfl

section Deliver

variable (oracle : ℕ → BalanceOracle) {table table' : List Member} {pend pend' : Pending}
    {s : State}
  {p : MemberAddress} {m : Multicast} {rest : List (MemberAddress × Multicast)}

/-- A member keeps its position when a message is delivered. -/
theorem Inv.index_deliver (h : Inv table pend s) (htake : Taken s p m rest) {q : MemberAddress}
    {i : ℕ} (hq : q ∈ s.group) (hi : MemberOk table pend q (s.nodes q) i) :
    ((react (fun n => (n.handle oracle m).getD (n, [])) { s with flight := rest }).nodes
      q).localMemberIndex = i := by
  rw [react_nodes (s := s) hq]
  rcases localMemberIndex_handle oracle (s.nodes q) m with hsame | ⟨m', hm, hlocal⟩
  · exact hsame.trans hi.index
  · -- the message would announce the member
    have hnew : newcomer m = some m'.address := by
      rcases hm with ⟨rfl, -⟩ | ⟨pos, rfl⟩ <;> rfl
    have hannounced : m'.address ∈ announced s.flight :=
      mem_filterMap.mpr ⟨_, htake.mem, hnew⟩
    have hjoiner : m'.address ∈ s.group ∧ m' = (s.nodes m'.address).cfg := by
      rcases hm with ⟨rfl, -⟩ | ⟨pos, rfl⟩
      · have hcfg := h.flight.requests p m' htake.mem
        have haddress : m'.address = p := hcfg ▸ h.group.address p
        rw [haddress]
        exact ⟨h.flight.senders _ htake.mem, hcfg⟩
      · have hpend := (h.delta_unique htake.mem).2
        have hpending := h.pending
        rcases hpend with rfl | rfl
        · exact ⟨hpending.2.1, hpending.2.2.1⟩
        · exact ⟨hpending.2.1, hpending.2.2.1⟩
    rw [h.group.isLocalMember hjoiner.1 hjoiner.2 hq, decide_eq_true_eq] at hlocal
    have hstranger := (h.stranger_of_newcomer hq (hlocal ▸ hannounced)).1
    rw [hi.index] at hstranger
    omega

/-- The leading member stays so when a message is delivered, if its entry keeps the flag. -/
theorem Inv.led_deliver (h : Inv table pend s) (htake : Taken s p m rest)
    (h' : Inv table' pend' (react (fun n => (n.handle oracle m).getD (n, []))
      { s with flight := rest }))
    (hkeep : ∀ i, i ≠ (Node.findAddPos table).1 → (table.getD i {}).isLeading = true →
      (table'.getD i {}).isLeading = true)
    (hled : Led table pend s) :
    Led table' pend'
      (react (fun n => (n.handle oracle m).getD (n, [])) { s with flight := rest }) := by
  obtain ⟨l, hl, i, hi, hlead⟩ := hled
  exact h'.led hl (h.index_deliver oracle htake hl hi) (hkeep i hi.ne_findAddPos hlead)

/-- A message that makes no member leaves the group led, if it was. -/
theorem Inv.ledIfAny_deliver (h : Inv table pend s) (htake : Taken s p m rest)
    (hfounding : isFounding m = false) (hdelta : ∀ m' pos, m ≠ .deltaMember m' pos)
    (h' : Inv table' pend' (react (fun n => (n.handle oracle m).getD (n, []))
      { s with flight := rest }))
    (hkeep : ∀ i, i ≠ (Node.findAddPos table).1 → (table.getD i {}).isLeading = true →
      (table'.getD i {}).isLeading = true)
    (hled : LedIfAny table pend s) :
    LedIfAny table' pend' (react (fun n => (n.handle oracle m).getD (n, []))
      { s with flight := rest }) := by
  rintro ⟨q, hq, i, hi⟩
  have hindex := hi.index
  rw [react_nodes (s := s) hq] at hindex
  have hsame : ((((s.nodes q).handle oracle m).getD (s.nodes q, [])).1).localMemberIndex =
      (s.nodes q).localMemberIndex := by
    rcases localMemberIndex_handle oracle (s.nodes q) m with hsame | ⟨m', hm, -⟩
    · exact hsame
    · rcases hm with ⟨rfl, hlead⟩ | ⟨pos, rfl⟩
      · exact absurd (hfounding.symm.trans hlead) (by decide)
      · exact absurd rfl (hdelta m' pos)
  refine h.led_deliver oracle htake h' hkeep (hled ⟨q, hq, ?_⟩)
  rcases h.nodes q hq with hmember | ⟨hstranger, -⟩
  · exact hmember
  · rw [hsame.symm.trans hindex] at hstranger
    omega

end Deliver

/-! ## Changes -/

/-- In a table that names every process once, a process is found at its position. -/
theorem findMember_of_nodup {table : List Member} (hnodup : (table.map Member.address).Nodup)
    {i : ℕ} (hi : i < table.length) : Node.findMember table (table.getD i {}).address = some i := by
  have hget : ∀ j (hj : j < table.length), table.getD j {} = table[j] := by
    intro j hj
    rw [getD_eq_getElem?_getD, getElem?_eq_getElem hj, Option.getD_some]
  refine findIdx?_eq_some_iff_getElem.mpr ⟨hi, ?_, fun j hj => ?_⟩
  · rw [hget i hi]
    simp [Member.address]
  · have hjlt : j < table.length := lt_trans hj hi
    have hne : table[j].address ≠ table[i].address := by
      intro heq
      refine nodup_iff_getElem?_ne_getElem?.mp hnodup j i hj (by simpa using hi) ?_
      simpa [hjlt, hi] using heq
    rw [hget i hi]
    intro hboth
    simp only [Bool.and_eq_true, beq_iff_eq] at hboth
    refine hne ?_
    simp only [Member.address, MemberAddress.mk.injEq] at hboth ⊢
    exact hboth

/-- The positions of the processes that leave. -/
theorem mem_leave_iff {table : List Member} (hnodup : (table.map Member.address).Nodup)
    {left : List MemberAddress} {i : ℕ} (hi : i < table.length) :
    i ∈ left.filterMap (Node.findMember table) ↔ (table.getD i {}).address ∈ left := by
  constructor
  · intro hmem
    obtain ⟨a, ha, hfind⟩ := mem_filterMap.mp hmem
    rw [(findMember_spec hfind).2]
    exact ha
  · intro hleft
    exact mem_filterMap.mpr ⟨_, hleft, findMember_of_nodup hnodup hi⟩

/-- `selectLeading` takes the first prepared or active entry of a process that does not leave. -/
theorem selectLeading_eq {table : List Member} (hsound : Node.TableOk table)
    (hnodup : (table.map Member.address).Nodup) (left : List MemberAddress) :
    Node.selectLeading table (left.filterMap (Node.findMember table)) =
      (table.find? fun m => decide (m.address ∉ left) &&
        (m.state == .active || m.state == .prepared)).map fun m => m.id.toNat := by
  unfold Node.selectLeading
  congr 1
  refine find?_congr fun m hm => ?_
  obtain ⟨i, hi, hget⟩ := getElem_of_mem hm
  have hentry : table.getD i {} = m := by
    rw [getD_eq_getElem?_getD, getElem?_eq_getElem hi, hget, Option.getD_some]
  have hid : m.id = i := hentry ▸ hsound.ids i hi
  congr 1
  rw [Bool.eq_iff_iff, Bool.not_eq_true', any_eq_false, decide_eq_true_eq, ← hentry,
    ← mem_leave_iff hnodup hi, hentry]
  constructor
  · intro hall hmem
    exact hall i hmem (by rw [hentry]; exact beq_self_eq_true _)
  · intro hnot j hj heq
    obtain ⟨a, -, hfind⟩ := mem_filterMap.mp hj
    rw [beq_iff_eq, hid, hsound.ids j (findMember_spec hfind).1] at heq
    obtain rfl := Int.ofNat.inj heq
    exact hnot hj

section Change

variable (oracle : ℕ → BalanceOracle) {table : List Member} {pend : Pending} {s : State}
  {left joined : List MemberAddress}

section

variable (h : Inv table pend s)

include h

theorem Inv.nodup_addresses : (table.map Member.address).Nodup :=
  (nodup_append.mp h.newcomers).1

/-- If the leading member stays, so does its flag. -/
theorem Inv.leading_stays {l : MemberAddress} {i : ℕ}
    (hi : MemberOk table pend l (s.nodes l) i) (hlead : (table.getD i {}).isLeading = true)
    (hl : l ∉ left) :
    ((Node.leaveTable table (left.filterMap (Node.findMember table))).getD i {}).isLeading =
      true := by
  have hcheck : Node.checkLeadingLeave table (left.filterMap (Node.findMember table)) = none := by
    refine find?_eq_none.mpr fun k hk hklead => ?_
    obtain rfl := h.sound.leading i k hlead hklead
    exact hi.not_mem_leave hl hk
  rw [Node.isLeading_leaveTable, hcheck]
  exact hlead

/-- If the leading member leaves, its successor has the flag. -/
theorem Inv.leading_leaves {l q : MemberAddress} {i k : ℕ}
    (hi : MemberOk table pend l (s.nodes l) i) (hlead : (table.getD i {}).isLeading = true)
    (hl : l ∈ left) (hk : MemberOk table pend q (s.nodes q) k) (hq : q ∉ left)
    (hfind : (table.find? fun m => decide (m.address ∉ left) &&
      (m.state == .active || m.state == .prepared)) = some (table.getD k {})) :
    ((Node.leaveTable table (left.filterMap (Node.findMember table))).getD k {}).isLeading =
      true := by
  have hmem : i ∈ left.filterMap (Node.findMember table) :=
    (mem_leave_iff h.nodup_addresses hi.lt).mpr (hi.address ▸ hl)
  have hcheck : Node.checkLeadingLeave table (left.filterMap (Node.findMember table)) = some i := by
    cases hcheck : Node.checkLeadingLeave table (left.filterMap (Node.findMember table)) with
    | none => exact absurd hlead (find?_eq_none.mp hcheck i hmem)
    | some j =>
      have hjlead : (table.getD j {}).isLeading = true := by simpa using find?_some hcheck
      rw [h.sound.leading j i hjlead hlead]
  have hselect : Node.selectLeading table (left.filterMap (Node.findMember table)) = some k := by
    rw [selectLeading_eq h.sound h.nodup_addresses, hfind, Option.map_some, h.sound.ids k hk.lt,
      Int.toNat_natCast]
  have hne : k ≠ i := by
    rintro rfl
    exact hq (hk.unique hi ▸ hl)
  rw [Node.isLeading_leaveTable, hcheck, hselect]
  simp [hk.lt, hne]

/-- A change of which somebody stays leaves the group led. -/
theorem Inv.ledIfAny_change (hchange : Changed s left joined)
    (hanswer : left ≠ [] → ∀ x ∈ s.flight, isAnswer x.2 = false)
    (hsucceeds : Succeeds s (.change left joined))
    (h' : Inv (Node.leaveTable table (left.filterMap (Node.findMember table))) pend
      (react (changeHandler oracle s left joined) (changing s left joined)))
    (hled : LedIfAny table pend s) :
    LedIfAny (Node.leaveTable table (left.filterMap (Node.findMember table))) pend
      (react (changeHandler oracle s left joined) (changing s left joined)) := by
  have hindex : ∀ p ∈ (remaining s left).group ++ joined,
      ((react (changeHandler oracle s left joined) (changing s left joined)).nodes
        p).localMemberIndex = (s.nodes p).localMemberIndex := by
    intro p hp
    have hnode : (react (changeHandler oracle s left joined) (changing s left joined)).nodes p =
        (changeHandler oracle s left joined (s.nodes p)).1 := if_pos hp
    rw [hnode, changeHandler, (h.change_spec oracle hchange (p := p) hp hanswer).1]
    split <;> rfl
  rintro ⟨p, hp, j, hj⟩
  -- a member of the new group was one before
  have hpindex : (s.nodes p).localMemberIndex = j := (hindex p hp).symm.trans hj.index
  have hpold : p ∈ (remaining s left).group := by
    rcases mem_append.mp hp with hold | hnew
    · exact hold
    · rw [(h.group.fresh p (hchange.new p hnew)).1] at hpindex
      omega
  obtain ⟨hpgroup, hpstays⟩ := mem_remaining.mp hpold
  have hmember : ∃ j, MemberOk table pend p (s.nodes p) j := by
    rcases h.nodes p hpgroup with hmember | ⟨hstranger, -⟩
    · exact hmember
    · rw [hstranger] at hpindex
      omega
  have hisMember : ∀ q ∈ s.group, ∀ k, MemberOk table pend q (s.nodes q) k → IsMember s q := by
    intro q hq k hk
    refine ⟨hq, ?_⟩
    rw [hk.getLocalMember]
    exact Option.some_ne_none _
  obtain ⟨l, hl, i, hi, hlead⟩ := hled ⟨p, hpgroup, hmember⟩
  by_cases hleaves : l ∈ left
  · -- the leading member leaves, so no join is pending
    have hleft : left ≠ [] := ne_nil_of_mem hleaves
    have hpend : pend = .none := by
      rcases h.pending_of_noAnswer (hanswer hleft) with rfl | ⟨a, m, rfl⟩
      · rfl
      · have hlt := hi.lt
        rw [h.pending.1] at hlt
        cases hlt
    have hmembers : (s.nodes l).members = table := by
      rw [hi.members, hpend]
      rfl
    have hleads : Leads s l := by
      refine ⟨hisMember l hl i hi, ?_⟩
      rw [hi.getLocalMember, hi.entry]
      exact hlead
    obtain ⟨k, hk⟩ := hmember
    have hsucc := hsucceeds l hleaves hleads ⟨p, hpgroup, hpstays, hisMember p hpgroup k hk⟩
    obtain ⟨m, hfind, hheir⟩ := (Option.any_eq_true _ _).mp hsucc
    rw [hmembers] at hfind
    have hheir := of_decide_eq_true hheir
    obtain ⟨n, hn⟩ := h.memberOk hheir
    -- the entry found is the successor's own
    obtain ⟨x, hx, hget⟩ := getElem_of_mem (mem_of_find?_eq_some hfind)
    have hxentry : table.getD x {} = m := by
      rw [getD_eq_getElem?_getD, getElem?_eq_getElem hx, hget, Option.getD_some]
    have hxn : x = n := by
      have hfindx := findMember_of_nodup h.nodup_addresses hx
      have hfindn := findMember_of_nodup h.nodup_addresses hn.lt
      rw [hxentry] at hfindx
      rw [hn.address, hfindx] at hfindn
      exact Option.some.inj hfindn
    subst hxn
    have hstays : m.address ∉ left := by
      have hprop := find?_some hfind
      simp only [Bool.and_eq_true, decide_eq_true_eq] at hprop
      exact hprop.1
    have hheirGroup : m.address ∈ (remaining s left).group ++ joined :=
      mem_append_left _ (mem_remaining.mpr ⟨hheir.1, hstays⟩)
    refine h'.led hheirGroup ((hindex _ hheirGroup).trans hn.index) ?_
    exact h.leading_leaves hi hlead hleaves hn hstays (hxentry ▸ hfind)
  · have hlgroup : l ∈ (remaining s left).group ++ joined :=
      mem_append_left _ (mem_remaining.mpr ⟨hl, hleaves⟩)
    exact h'.led hlgroup ((hindex l hlgroup).trans hi.index) (h.leading_stays hi hlead hleaves)

end

end Change

/-! ## Runs -/

/-- Every orderly step keeps the invariant and leaves the group led. -/
theorem Inv.step_led {oracle : ℕ → BalanceOracle} {table : List Member} {pend : Pending}
    {s s' : State} {a : Step} (h : Inv table pend s) (hled : LedIfAny table pend s)
    (horderly : Orderly s a) (hstep : Membership.step oracle s a = some s') :
    ∃ table' pend', Inv table' pend' s' ∧ LedIfAny table' pend' s' := by
  obtain ⟨hserial, hsucceeds⟩ := horderly
  cases a with
  | change left joined =>
    simp only [Membership.step] at hstep
    split at hstep
    · rename_i hchange
      cases hstep
      have hchange := changed_of_isChange hchange
      obtain ⟨hanswer, hfounding, hone⟩ := hserial
      by_cases hempty : (remaining s left).group = []
      · obtain ⟨pend', hinv⟩ :=
          h.change_founding oracle hchange hanswer hempty (hone hempty)
        refine ⟨[], pend', hinv, ?_⟩
        rintro ⟨p, -, i, hi⟩
        exact absurd hi.lt (Nat.not_lt_zero i)
      · have hinv := h.change_staying oracle hchange hanswer hfounding hempty
        exact ⟨_, pend, hinv, h.ledIfAny_change oracle hchange hanswer hsucceeds hinv hled⟩
    · cases hstep
  | status p status =>
    simp only [Membership.step] at hstep
    split at hstep
    · rename_i hstatus
      cases hstep
      exact ⟨table, pend, h.send_status hstatus.1 hstatus.2.2, hled⟩
    · cases hstep
  | deliver p =>
    simp only [Membership.step] at hstep
    split at hstep
    · rename_i m rest htake
      cases hstep
      have htaken : Taken s p m rest := ⟨htake⟩
      have hguard := hserial m (by rw [htake]; rfl)
      have hkind := h.flight.kinds _ htaken.mem
      cases m with
      | member m =>
        have hanswer := hguard.resolve_left Bool.false_ne_true
        cases hlead : m.isLeading with
        | true =>
          have hinv := h.deliver_founding oracle hlead htaken
          refine ⟨_, .none, hinv, ?_⟩
          rintro ⟨q, hq, i, hi⟩
          refine ⟨q, hq, i, hi, ?_⟩
          obtain rfl : i = 0 := Nat.lt_one_iff.mp hi.lt
          exact hlead
        | false =>
          obtain ⟨pend', hinv⟩ := h.deliver_request oracle hanswer hlead htaken
          exact ⟨table, pend', hinv, h.ledIfAny_deliver oracle htaken hlead
            (by rintro _ _ ⟨⟩) hinv (fun _ _ hi => hi) hled⟩
      | wholeMemberTable m snapshot =>
        have hinv := h.deliver_snapshot htaken
        exact ⟨table, .delta p m, hinv, h.ledIfAny_deliver oracle htaken rfl
          (by rintro _ _ ⟨⟩) hinv (fun _ _ hi => hi) hled⟩
      | deltaMember m pos =>
        have hinv := h.deliver_delta oracle htaken
        have hanswers : Answers table s p m := by
          have hpending := h.pending
          rcases (h.delta_unique htaken.mem).2 with rfl | rfl
          · exact hpending
          · exact hpending
        obtain ⟨hl, -, -, -, i, hindex, hlead⟩ := hanswers
        refine ⟨_, .none, hinv, fun _ => h.led_deliver oracle htaken hinv
          (fun k hk hklead => ?_) (h.led hl hindex hlead)⟩
        rw [Node.getD_joinedTable, if_neg hk]
        exact hklead
      | memberStatus pos status =>
        have hanswer := hguard.resolve_left Bool.false_ne_true
        have hinv := h.deliver_status oracle hanswer htaken
        refine ⟨_, pend, hinv, h.ledIfAny_deliver oracle htaken rfl
          (by rintro _ _ ⟨⟩) hinv (fun i _ hi => ?_) hled⟩
        rw [Node.getD_modify]
        split
        · exact hi
        · exact hi
      | wholePartitionTable evt | deltaPartitions evt | partitionStatus evt => cases hkind
    · cases hstep

/-- **One leading member**: when joins follow one another and a leading member that leaves has a
successor, every table marks at most one member as leading, the members agree on it, and as long as
there is a member one of them is leading. -/
theorem oneLeading_of_orderly {oracle : ℕ → BalanceOracle} {cluster : ClusterConfig}
    {cfg : MemberAddress → Member} {s : State}
    (hrun : Common.Reaches (step oracle) Orderly (init cluster cfg) s) : OneLeading s := by
  have hinv : ∃ table pend, Inv table pend s ∧ LedIfAny table pend s :=
    hrun.invariant (P := fun s => ∃ table pend, Inv table pend s ∧ LedIfAny table pend s)
      ⟨[], .none, inv_init cluster cfg, fun ⟨p, hp, _⟩ => absurd hp List.not_mem_nil⟩
      fun _ _ _ ⟨_, _, h, hled⟩ horderly hstep => h.step_led hled horderly hstep
  obtain ⟨table, pend, h, hled⟩ := hinv
  exact h.oneLeading hled

/-- The founder leaves, and B succeeds it. -/
def founderLeaves : List Step := joinsOfTwo ++ [.change [processA] []]

theorem founderLeaves_oneLeading :
    ∃ s, Common.replay (step noBalance) Orderly nobody founderLeaves = some s ∧ Leads s processB ∧
      OneLeading s := by
  have hbool : (Common.replay (step noBalance) Orderly nobody founderLeaves).any (fun s =>
      decide (Leads s processB)) = true := by
    decide +kernel
  obtain ⟨s, hs, hleads⟩ := (Option.any_eq_true _ _).mp hbool
  exact ⟨s, hs, of_decide_eq_true hleads, oneLeading_of_orderly (Common.reaches_of_replay hs)⟩

/-- Two processes that join by the same first change are both marked as leading. -/
theorem not_oneLeading_of_run :
    ¬ ∀ s, Common.Reaches (step noBalance) Common.anyStep nobody s → OneLeading s := by
  intro hall
  have hbool : (Common.replay (step noBalance) Common.anyStep nobody
      [.change [] [processA, processB], .deliver processA, .deliver processB]).any (fun s =>
        decide (processA ∈ s.group ∧ ((s.nodes processA).members.getD 0 {}).isLeading = true ∧
          ((s.nodes processA).members.getD 1 {}).isLeading = true)) = true := by
    decide +kernel
  obtain ⟨s, hs, htwo⟩ := (Option.any_eq_true _ _).mp hbool
  obtain ⟨hgroup, h0, h1⟩ := of_decide_eq_true htwo
  exact absurd ((hall s (Common.reaches_of_replay hs)).unique processA hgroup 0 1 h0 h1) (by decide)

end Membership

end Idgs.Cluster
