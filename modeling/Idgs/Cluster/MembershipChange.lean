import Idgs.Cluster.MembershipDelivery

/-!
# Configuration changes of the group

Members mark the processes that have left, and joined processes multicast their requests. When
nobody is left of the old group, the joined process founds it anew.
-/

namespace Idgs.Cluster

open List

namespace Membership

/-! ## Configuration changes -/

/-- The configuration of a process after a change: it may get the leading flag. -/
def changedCfg (cfg : Member) (members joined : List MemberAddress) : Member :=
  if joined ≠ [] ∧ members.length ≤ joined.length then Node.leadingCfg cfg else cfg

/-- What `handleClusterChange` does at a member that stays, and at a process that is no member. -/
theorem handleClusterChange_spec (oracle : ℕ → BalanceOracle) (n : Node)
    (evt : ClusterChangeEvent) (hnodup : evt.joinedList.Nodup)
    (hstays : ∀ i ∈ evt.leftList.filterMap (Node.findMember n.members),
      n.localMemberIndex ≠ (n.members.getD i {}).id) :
    let cfg := changedCfg n.cfg evt.memberList evt.joinedList
    (n.handleClusterChange oracle evt).1 =
        (if n.getLocalMember = none then { n with cfg := cfg }
        else { n with
          cfg := cfg
          members := Node.leaveTable n.members
            (evt.leftList.filterMap (Node.findMember n.members)) }) ∧
      Node.memberMessages (n.handleClusterChange oracle evt).2 =
        if n.cfg.address ∈ evt.joinedList then [.member cfg] else [] := by
  have hjoined : Node.handleJoinedList evt 0 evt.joinedList n.cfg =
      (changedCfg n.cfg evt.memberList evt.joinedList, if n.cfg.address ∈ evt.joinedList then
        [.member (changedCfg n.cfg evt.memberList evt.joinedList)] else []) :=
    Node.handleJoinedList_zero evt evt.joinedList hnodup n.cfg
  have hmessages : Node.memberMessages (if n.cfg.address ∈ evt.joinedList then
      [.member (changedCfg n.cfg evt.memberList evt.joinedList)] else []) =
      if n.cfg.address ∈ evt.joinedList then
        [.member (changedCfg n.cfg evt.memberList evt.joinedList)] else [] := by
    split <;> rfl
  dsimp only
  by_cases hlocal : n.getLocalMember = none
  · have hcond : ¬(evt.leftList ≠ [] ∧ n.getLocalMember ≠ none) := fun hc => hc.2 hlocal
    simp only [Node.handleClusterChange, if_neg hcond, if_pos hlocal, hjoined, nil_append]
    exact ⟨trivial, hmessages⟩
  · by_cases hleft : evt.leftList = []
    · have hcond : ¬(evt.leftList ≠ [] ∧ n.getLocalMember ≠ none) := fun hc => hc.1 hleft
      have hleave : Node.leaveTable n.members (evt.leftList.filterMap (Node.findMember n.members)) =
          n.members := by
        rw [hleft]
        rfl
      simp only [Node.handleClusterChange, if_neg hcond, if_neg hlocal, hjoined, nil_append, hleave]
      exact ⟨trivial, hmessages⟩
    · obtain ⟨hnode, hsent⟩ := Node.handleLeaveMembers_some oracle hlocal hstays
      simp only [Node.handleClusterChange, if_pos (And.intro hleft hlocal), if_neg hlocal, hjoined,
        Node.memberMessages_append, hsent, nil_append, hnode]
      exact ⟨trivial, hmessages⟩

theorem findMember_spec {table : List Member} {a : MemberAddress} {i : ℕ}
    (h : Node.findMember table a = some i) :
    i < table.length ∧ (table.getD i {}).address = a := by
  obtain ⟨hlt, hi, -⟩ := findIdx?_eq_some_iff_getElem.mp h
  simp only [Bool.and_eq_true, beq_iff_eq] at hi
  refine ⟨hlt, ?_⟩
  rw [getD_eq_getElem?_getD, getElem?_eq_getElem hlt, Option.getD_some]
  cases a
  simp_all [Member.address]

/-- The positions of processes that leave are not the one of a member that stays. -/
theorem MemberOk.not_mem_leave {table : List Member} {pend : Pending} {p : MemberAddress} {n : Node}
    {i : ℕ} (h : MemberOk table pend p n i) {left : List MemberAddress} (hp : p ∉ left) :
    i ∉ left.filterMap (Node.findMember table) := by
  intro hmem
  obtain ⟨a, ha, hfind⟩ := mem_filterMap.mp hmem
  exact hp (h.address.symm.trans (findMember_spec hfind).2 ▸ ha)

/-- The conditions of a change. -/
structure Changed (s : State) (left joined : List MemberAddress) : Prop where
  nonempty : left ≠ [] ∨ joined ≠ []
  leaves : ∀ p ∈ left, p ∈ s.group
  nodup : joined.Nodup
  new : ∀ p ∈ joined, p ∉ s.past
  addresses :
    (((remaining s left).group ++ joined).map fun p => (s.nodes p).cfg.publicAddress).Nodup

theorem changed_of_isChange {s : State} {left joined : List MemberAddress}
    (h : isChange s left joined = true) : Changed s left joined := by
  simp only [isChange, Bool.and_eq_true, decide_eq_true_eq] at h
  exact ⟨h.1.1.1, h.1.1.2, h.1.2.1, h.1.2.2, h.2⟩

section Change

variable (oracle : ℕ → BalanceOracle) {table : List Member} {pend : Pending} {s : State}
  {left joined : List MemberAddress}

theorem mem_remaining {p : MemberAddress} :
    p ∈ (remaining s left).group ↔ p ∈ s.group ∧ p ∉ left := by
  simp [remaining]

/-- The processes of the new group, each once. -/
theorem Changed.group_nodup (hchange : Changed s left joined) (h : GroupOk s) :
    ((remaining s left).group ++ joined).Nodup := by
  refine nodup_append.mpr ⟨h.nodup.filter _, hchange.nodup, fun p hp q hq => ?_⟩
  rintro rfl
  exact hchange.new p hq (h.past p (mem_remaining.mp hp).1)

/-- The reaction of every process of the new group. -/
theorem Inv.change_spec (h : Inv table pend s) (hchange : Changed s left joined)
    {p : MemberAddress} (hp : p ∈ (remaining s left).group ++ joined)
    (hanswer : left ≠ [] → ∀ x ∈ s.flight, isAnswer x.2 = false) :
    let evt : ClusterChangeEvent := ⟨(remaining s left).group ++ joined, left, joined⟩
    let cfg := changedCfg (s.nodes p).cfg evt.memberList joined
    ((s.nodes p).handleClusterChange oracle evt).1 =
        (if (s.nodes p).getLocalMember = none then { s.nodes p with cfg := cfg }
        else { s.nodes p with
          cfg := cfg
          members := Node.leaveTable (s.nodes p).members
            (left.filterMap (Node.findMember (s.nodes p).members)) }) ∧
      Node.memberMessages ((s.nodes p).handleClusterChange oracle evt).2 =
        if p ∈ joined then [.member cfg] else [] := by
  have hspec := handleClusterChange_spec oracle (s.nodes p)
    ⟨(remaining s left).group ++ joined, left, joined⟩ hchange.nodup
  simp only [h.group.address p] at hspec
  refine hspec fun i hi => ?_
  have hleft : left ≠ [] := by
    rintro rfl
    cases hi
  rcases mem_append.mp hp with hold | hnew
  · obtain ⟨hgroup, hstays⟩ := mem_remaining.mp hold
    rcases h.nodes p hgroup with ⟨j, hj⟩ | hstranger
    · have hpend : pend = .none := by
        rcases h.pending_of_noAnswer (hanswer hleft) with rfl | ⟨a, m, rfl⟩
        · rfl
        · have hlt := hj.lt
          rw [h.pending.1] at hlt
          cases hlt
      subst hpend
      have hmembers : (s.nodes p).members = table := hj.members
      rw [hmembers] at hi ⊢
      obtain ⟨a, -, hfind⟩ := mem_filterMap.mp hi
      rw [hj.index, h.sound.ids i (findMember_spec hfind).1]
      intro heq
      obtain rfl := Int.ofNat.inj heq
      exact hj.not_mem_leave hstays hi
    · have hmembers : (s.nodes p).members = [] := by
        rw [hstranger.2]
        rcases h.pending_of_noAnswer (hanswer hleft) with rfl | ⟨a, m, rfl⟩ <;> rfl
      rw [hmembers] at hi
      obtain ⟨a, -, hfind⟩ := mem_filterMap.mp hi
      cases (findMember_spec hfind).1
  · obtain ⟨-, hmembers, -⟩ := h.group.fresh p (hchange.new p hnew)
    rw [hmembers] at hi
    obtain ⟨a, -, hfind⟩ := mem_filterMap.mp hi
    cases (findMember_spec hfind).1

/-- The state in which the new group handles a change. -/
def changing (s : State) (left joined : List MemberAddress) : State :=
  { remaining s left with
    past := s.past ++ joined
    group := (remaining s left).group ++ joined }

/-- What the new group does. -/
def changeHandler (oracle : ℕ → BalanceOracle) (s : State) (left joined : List MemberAddress)
    (n : Node) : Node × List Multicast :=
  n.handleClusterChange oracle ⟨(remaining s left).group ++ joined, left, joined⟩

/-- The configuration of a process in the new group. -/
def newCfg (s : State) (left joined : List MemberAddress) (p : MemberAddress) : Member :=
  changedCfg (s.nodes p).cfg ((remaining s left).group ++ joined) joined

theorem newCfg_address (left joined : List MemberAddress) (h : GroupOk s) (p : MemberAddress) :
    (newCfg s left joined p).address = p := by
  unfold newCfg changedCfg
  split
  · exact h.address p
  · exact h.address p

theorem newCfg_publicAddress (p : MemberAddress) :
    (newCfg s left joined p).publicAddress = (s.nodes p).cfg.publicAddress := by
  unfold newCfg changedCfg
  split <;> rfl

section

variable (h : Inv table pend s)

include h

section

variable (hchange : Changed s left joined)

include hchange

/-- The joined processes multicast their requests. -/
theorem Inv.change_flight
    (hanswer : left ≠ [] → ∀ x ∈ s.flight, isAnswer x.2 = false) :
    (react (changeHandler oracle s left joined) (changing s left joined)).flight =
      (remaining s left).flight ++ joined.map fun p => (p, .member (newCfg s left joined p)) := by
  have hgroup := fun p hp => (h.change_spec oracle hchange (p := p) hp hanswer).2
  have hmessages : ∀ p ∈ (remaining s left).group ++ joined,
      ((Node.memberMessages (changeHandler oracle s left joined (s.nodes p)).2).map fun m =>
      (p, m)) =
        if p ∈ joined then [(p, Multicast.member (newCfg s left joined p))] else [] := by
    intro p hp
    rw [changeHandler, hgroup p hp]
    split <;> rfl
  have hold : (remaining s left).group.flatMap (fun p =>
      if p ∈ joined then [(p, Multicast.member (newCfg s left joined p))] else []) = [] := by
    refine flatMap_eq_nil_iff.mpr fun p hp => if_neg fun hjoined => ?_
    exact hchange.new p hjoined (h.group.past p (mem_remaining.mp hp).1)
  have hnew : joined.flatMap (fun p =>
      if p ∈ joined then [(p, Multicast.member (newCfg s left joined p))] else []) =
      joined.map fun p => (p, .member (newCfg s left joined p)) := by
    rw [map_eq_flatMap]
    exact flatMap_congr fun p hp => if_pos hp
  calc (react (changeHandler oracle s left joined) (changing s left joined)).flight
      = (remaining s left).flight ++ ((remaining s left).group ++ joined).flatMap fun p =>
          (Node.memberMessages (changeHandler oracle s left joined (s.nodes p)).2).map
            fun m => (p, m) := rfl
    _ = (remaining s left).flight ++ joined.map fun p =>
          (p, .member (newCfg s left joined p)) := by
        rw [flatMap_congr hmessages, flatMap_append, hold, hnew, nil_append]

/-- The group after a change. -/
theorem Inv.change_group
    (hanswer : left ≠ [] → ∀ x ∈ s.flight, isAnswer x.2 = false) :
    GroupOk (react (changeHandler oracle s left joined) (changing s left joined)) ∧
      ∀ p ∈ (remaining s left).group ++ joined,
        ((react (changeHandler oracle s left joined) (changing s left joined)).nodes p).cfg =
          newCfg s left joined p := by
  have hcfg : ∀ p ∈ (remaining s left).group ++ joined,
      ((react (changeHandler oracle s left joined) (changing s left joined)).nodes p).cfg =
        newCfg s left joined p := by
    intro p hp
    have hnode : (react (changeHandler oracle s left joined) (changing s left joined)).nodes p =
        (changeHandler oracle s left joined (s.nodes p)).1 := if_pos hp
    rw [hnode, changeHandler, (h.change_spec oracle hchange (p := p) hp hanswer).1]
    split <;> rfl
  have hout : ∀ p, p ∉ (remaining s left).group ++ joined →
      (react (changeHandler oracle s left joined) (changing s left joined)).nodes p = s.nodes p :=
    fun p hp => if_neg hp
  refine ⟨⟨hchange.group_nodup h.group, fun p hp => ?_, fun p hp => ?_, fun p => ?_,
    fun p hp q hq heq => ?_⟩, hcfg⟩
  · rcases mem_append.mp hp with hold | hnew
    · exact mem_append_left _ (h.group.past p (mem_remaining.mp hold).1)
    · exact mem_append_right _ hnew
  · have hpast : p ∉ s.past := fun hpast => hp (mem_append_left _ hpast)
    have hnot : p ∉ (remaining s left).group ++ joined := by
      intro hgroup
      rcases mem_append.mp hgroup with hold | hnew
      · exact hpast (h.group.past p (mem_remaining.mp hold).1)
      · exact hp (mem_append_right _ hnew)
    rw [hout p hnot]
    exact h.group.fresh p hpast
  · by_cases hp : p ∈ (remaining s left).group ++ joined
    · rw [hcfg p hp]
      exact newCfg_address left joined h.group p
    · rw [hout p hp]
      exact h.group.address p
  · rw [hcfg p hp, hcfg q hq, newCfg_publicAddress, newCfg_publicAddress] at heq
    exact inj_on_of_nodup_map hchange.addresses hp hq heq

/-- The messages in flight after a change. -/
theorem Inv.change_flightOk
    (hanswer : left ≠ [] → ∀ x ∈ s.flight, isAnswer x.2 = false)
    (hsame : ∀ p ∈ (remaining s left).group, newCfg s left joined p = (s.nodes p).cfg) :
    FlightOk (react (changeHandler oracle s left joined) (changing s left joined)) := by
  have hflight := h.change_flight oracle hchange hanswer
  have hcfg := (h.change_group oracle hchange hanswer).2
  have hmem : ∀ x ∈ (react (changeHandler oracle s left joined) (changing s left joined)).flight,
      (x ∈ s.flight ∧ x.1 ∈ (remaining s left).group) ∨
        (x.1 ∈ joined ∧ x.2 = .member (newCfg s left joined x.1)) := by
    intro x hx
    rw [hflight] at hx
    rcases mem_append.mp hx with hx | hx
    · obtain ⟨hx, hleft⟩ := mem_filter.mp hx
      exact .inl ⟨hx, mem_remaining.mpr ⟨h.flight.senders x hx, of_decide_eq_true hleft⟩⟩
    · obtain ⟨p, hp, rfl⟩ := mem_map.mp hx
      exact .inr ⟨hp, rfl⟩
  refine ⟨fun x hx => ?_, fun x hx => ?_, fun p m hm => ?_, fun p i status hstatus => ?_⟩
  · rcases hmem x hx with ⟨-, hx⟩ | ⟨hx, -⟩
    · exact mem_append_left _ hx
    · exact mem_append_right _ hx
  · rcases hmem x hx with ⟨hx, -⟩ | ⟨-, hx⟩
    · exact h.flight.kinds x hx
    · rw [hx]
      rfl
  · rcases hmem _ hm with ⟨hold, hp⟩ | ⟨hp, hm⟩
    · rw [hcfg p (mem_append_left _ hp), hsame p hp]
      exact h.flight.requests p m hold
    · rw [hcfg p (mem_append_right _ hp)]
      exact Multicast.member.inj hm
  · rcases hmem _ hstatus with ⟨hold, -⟩ | ⟨-, hx⟩
    · exact h.flight.states p i status hold
    · cases hx

/-- The last process has left; a joiner founds the group anew. -/
theorem Inv.change_founding
    (hanswer : left ≠ [] → ∀ x ∈ s.flight, isAnswer x.2 = false)
    (hempty : (remaining s left).group = []) (hone : joined.length ≤ 1) :
    ∃ pend', Inv [] pend'
    (react (changeHandler oracle s left joined) (changing s left joined)) := by
  have hflight := h.change_flight oracle hchange hanswer
  obtain ⟨hgroup, hcfg⟩ := h.change_group oracle hchange hanswer
  have hflightOk := h.change_flightOk oracle hchange hanswer fun p hp => by
    rw [hempty] at hp
    cases hp
  have hnoflight : (remaining s left).flight = [] := by
    refine eq_nil_iff_forall_not_mem.mpr fun x hx => ?_
    obtain ⟨hx, hleft⟩ := mem_filter.mp hx
    have hmem := mem_remaining.mpr ⟨h.flight.senders x hx, of_decide_eq_true hleft⟩
    rw [hempty] at hmem
    cases hmem
  rw [hnoflight, nil_append] at hflight
  have hall : (changing s left joined).group = joined := by
    rw [changing, hempty, nil_append]
  match joined, hone with
  | [], _ =>
    refine ⟨.none,
      { group := hgroup, flight := hflightOk, newcomers := ?_, newcomersPast := ?_
        sound := Node.tableOk_nil, traffic := by rw [hflight]; rfl, pending := trivial
        nodes := fun p hp => ?_ }⟩
    · rw [hflight]
      exact nodup_nil
    · rw [hflight]
      exact fun a ha => absurd ha not_mem_nil
    · have hp' : p ∈ (changing s left []).group := hp
      rw [hall] at hp'
      cases hp'
  | [a], _ =>
    have ha : a ∈ (remaining s left).group ++ [a] := mem_append_right _ mem_cons_self
    have hlead : (newCfg s left [a] a).isLeading = true := by
      have hcond : [a] ≠ [] ∧ ((remaining s left).group ++ [a]).length ≤ [a].length :=
        ⟨cons_ne_nil _ _, by rw [hempty]; exact le_rfl⟩
      rw [newCfg, changedCfg, if_pos hcond, Member.isLeading, Node.leadingCfg,
        Member.flags_or_and_self]
      decide
    have haddress := newCfg_address left [a] h.group a
    have hannounced : announced
        (react (changeHandler oracle s left [a]) (changing s left [a])).flight = [a] := by
      rw [hflight]
      exact congrArg (fun b => [b]) haddress
    refine ⟨.founding a (newCfg s left [a] a),
      { group := hgroup, flight := hflightOk, newcomers := ?_, newcomersPast := ?_
        sound := Node.tableOk_nil, traffic := ?_, pending := ⟨rfl, hall, (hcfg a ha).symm⟩
        nodes := fun p hp => .inr ?_ }⟩
    · rw [hannounced]
      exact nodup_singleton a
    · rw [hannounced]
      intro b hb
      exact mem_append_right _ hb
    · rw [hflight]
      simp [isJoin, isFounding, hlead, Pending.traffic]
    · have hp' : p ∈ (changing s left [a]).group := hp
      rw [hall] at hp'
      obtain rfl := mem_singleton.mp hp'
      obtain ⟨hindex, hmembers, -⟩ := h.group.fresh p (hchange.new p hp')
      have hnode : (react (changeHandler oracle s left [p]) (changing s left [p])).nodes p =
          (changeHandler oracle s left [p] (s.nodes p)).1 := if_pos ha
      rw [hnode, changeHandler, (h.change_spec oracle hchange (p := p) ha hanswer).1,
        if_pos (getLocalMember_of_stranger hindex)]
      exact ⟨hindex, hmembers⟩

/-- A change in a group of which somebody stays. -/
theorem Inv.change_staying
    (hanswer : left ≠ [] → ∀ x ∈ s.flight, isAnswer x.2 = false)
    (hfounding : joined ≠ [] → ∀ x ∈ (remaining s left).flight, isFounding x.2 = false)
    (hstay : (remaining s left).group ≠ []) :
    Inv (Node.leaveTable table (left.filterMap (Node.findMember table))) pend
      (react (changeHandler oracle s left joined) (changing s left joined)) := by
  have hflight := h.change_flight oracle hchange hanswer
  obtain ⟨hgroup, hcfg⟩ := h.change_group oracle hchange hanswer
  -- nobody becomes leading by the change
  have hsame : ∀ p, newCfg s left joined p = (s.nodes p).cfg := by
    intro p
    have hlen : 0 < (remaining s left).group.length := length_pos_iff.mpr hstay
    refine if_neg fun hcond => ?_
    have hle := hcond.2
    rw [length_append] at hle
    omega
  have hflightOk := h.change_flightOk oracle hchange hanswer fun p _ => hsame p
  -- the founder's request is delivered before anything changes
  have hpend : pend = .none ∨ (left = [] ∧ ∀ a m, pend ≠ .founding a m) := by
    have hnot : ∀ a m, pend ≠ .founding a m := by
      rintro a m rfl
      obtain ⟨-, hone, hm⟩ := h.pending
      have ha : a ∈ (remaining s left).group := by
        obtain ⟨b, hb⟩ := exists_mem_of_ne_nil _ hstay
        have hb' := (mem_remaining.mp hb).1
        rw [hone] at hb'
        exact mem_singleton.mp hb' ▸ hb
      obtain ⟨hagroup, hstays⟩ := mem_remaining.mp ha
      have hleft : left = [] := by
        by_contra hne
        obtain ⟨b, hb⟩ := exists_mem_of_ne_nil _ hne
        have hb' := hchange.leaves b hb
        rw [hone] at hb'
        exact hstays (mem_singleton.mp hb' ▸ hb)
      have hjoined : joined ≠ [] := hchange.nonempty.resolve_left fun hne => hne hleft
      have hrequest : (a, Multicast.member m) ∈ s.flight.filter fun x => isJoin x.2 := by
        rw [h.traffic]
        exact mem_cons_self
      obtain ⟨hmem, hfound⟩ := mem_filter.mp hrequest
      have hrest : (a, Multicast.member m) ∈ (remaining s left).flight :=
        mem_filter.mpr ⟨hmem, decide_eq_true hstays⟩
      have hno := hfounding hjoined _ hrest
      rw [isJoin, hno] at hfound
      cases hfound
    by_cases hleft : left = []
    · exact .inr ⟨hleft, hnot⟩
    · rcases h.pending_of_noAnswer (hanswer hleft) with rfl | ⟨a, m, rfl⟩
      · exact .inl rfl
      · exact absurd rfl (hnot a m)
  have htable : left = [] → Node.leaveTable table (left.filterMap (Node.findMember table)) =
      table := by
    rintro rfl
    rfl
  have haddress := Node.map_address_leaveTable table (left.filterMap (Node.findMember table))
  have hannounced : announced
      (react (changeHandler oracle s left joined) (changing s left joined)).flight =
        announced (remaining s left).flight ++ joined := by
    have hjoined : announced (joined.map fun p => (p, Multicast.member (newCfg s left joined p))) =
        joined := by
      rw [announced, filterMap_map]
      have hsome : ∀ p ∈ joined, ((fun x : MemberAddress × Multicast => newcomer x.2) ∘
          fun p => (p, Multicast.member (newCfg s left joined p))) p = some p :=
        fun p _ => congrArg some (newCfg_address left joined h.group p)
      rw [filterMap_congr hsome, filterMap_some]
    rw [hflight, announced, filterMap_append, ← announced, ← announced, hjoined]
  have hsub : (announced (remaining s left).flight).Sublist (announced s.flight) :=
    filter_sublist.filterMap _
  have hold : ∀ a ∈ table.map Member.address ++ announced (remaining s left).flight, a ∈
      s.past := by
    intro a ha
    refine h.newcomersPast a ?_
    exact ((List.Sublist.refl _).append hsub).subset ha
  refine
    { group := hgroup, flight := hflightOk
      newcomers := ?_, newcomersPast := fun a ha => ?_
      sound := h.sound.leaveTable _
      traffic := ?_, pending := ?_, nodes := fun p hp => ?_ }
  · rw [hannounced, haddress, ← append_assoc]
    refine nodup_append.mpr ⟨?_, hchange.nodup, fun a ha b hb => ?_⟩
    · exact h.newcomers.sublist ((List.Sublist.refl _).append hsub)
    · rintro rfl
      exact hchange.new a hb (hold a ha)
  · rw [hannounced, haddress, ← append_assoc] at ha
    rcases mem_append.mp ha with ha | ha
    · exact mem_append_left _ (hold a ha)
    · exact mem_append_right _ ha
  · have hjoined : (joined.map fun p => (p, Multicast.member (newCfg s left joined p))).filter
        (fun x => isJoin x.2) = [] := by
      refine filter_eq_nil_iff.mpr fun x hx => ?_
      obtain ⟨p, hp, rfl⟩ := mem_map.mp hx
      have hlead := (h.group.fresh p (hchange.new p hp)).2.2
      rw [hsame p]
      simp [isJoin, isAnswer, isFounding, hlead]
    rw [hflight, filter_append, hjoined, append_nil]
    rcases hpend with rfl | ⟨rfl, -⟩
    · refine filter_eq_nil_iff.mpr fun x hx => ?_
      exact filter_eq_nil_iff.mp h.traffic x (mem_filter.mp hx).1
    · rw [htable rfl, ← h.traffic]
      simp [remaining]
  · have hanswers : left = [] → ∀ l m, Answers table s l m →
        Answers table (react (changeHandler oracle s left joined) (changing s left joined)) l
        m := by
      rintro rfl l m ⟨hl, hm, hmcfg, hlead, i, hindex, hi⟩
      have hmem : ∀ p ∈ s.group, p ∈ (remaining s []).group ++ joined :=
        fun p hp => mem_append_left _ (mem_remaining.mpr ⟨hp, not_mem_nil⟩)
      refine ⟨hmem l hl, hmem _ hm, ?_, hlead, i, ?_, hi⟩
      · rw [hcfg _ (hmem _ hm), hsame]
        exact hmcfg
      · have hnode : (react (changeHandler oracle s [] joined) (changing s [] joined)).nodes l =
            (changeHandler oracle s [] joined (s.nodes l)).1 := if_pos (hmem l hl)
        rw [hnode, changeHandler, (h.change_spec oracle hchange (p := l) (hmem l hl) hanswer).1]
        split <;> exact hindex
    rcases hpend with rfl | ⟨hleft, hnot⟩
    · trivial
    · rw [htable hleft]
      cases pend with
      | none => trivial
      | founding a m => exact absurd rfl (hnot a m)
      | snapshot l m | delta l m => exact hanswers hleft l m h.pending
  · have hnode : (react (changeHandler oracle s left joined) (changing s left joined)).nodes p =
        (changeHandler oracle s left joined (s.nodes p)).1 := if_pos hp
    have hspec := (h.change_spec oracle hchange (p := p) hp hanswer).1
    rw [hnode, changeHandler, hspec]
    rcases mem_append.mp hp with hgroupOld | hnew
    · obtain ⟨hpgroup, hstays⟩ := mem_remaining.mp hgroupOld
      rcases h.nodes p hpgroup with ⟨i, hi⟩ | hstranger
      · left
        have hlocal : (s.nodes p).getLocalMember ≠ none := by
          rw [hi.getLocalMember]
          exact Option.some_ne_none _
        rw [if_neg hlocal]
        refine ⟨i, hi.change haddress rfl ?_ ?_⟩
        · rcases Node.state_leaveTable table (left.filterMap (Node.findMember table)) i with
            heq | ⟨hmem, -⟩
          · rw [heq]
            exact hi.live
          · exact absurd hmem (hi.not_mem_leave hstays)
        · rcases hpend with rfl | ⟨rfl, -⟩
          · rw [hi.members]
            rfl
          · exact hi.members
      · right
        rw [if_pos (getLocalMember_of_stranger hstranger.1)]
        refine ⟨hstranger.1, hstranger.2.trans ?_⟩
        rcases hpend with rfl | ⟨rfl, -⟩ <;> rfl
    · right
      obtain ⟨hindex, hmembers, -⟩ := h.group.fresh p (hchange.new p hnew)
      rw [if_pos (getLocalMember_of_stranger hindex)]
      refine ⟨hindex, hmembers.trans ?_⟩
      rcases hpend with rfl | ⟨rfl, hnot⟩
      · rfl
      · cases pend with
        | none => rfl
        | founding a m => exact absurd rfl (hnot a m)
        | snapshot l m => rfl
        | delta l m =>
          have hne : m.address ≠ p := by
            rintro rfl
            exact hchange.new _ hnew (h.group.past _ h.pending.2.1)
          simp only [Pending.strangerTable, if_neg hne]

end

end

end Change

end Membership

end Idgs.Cluster
