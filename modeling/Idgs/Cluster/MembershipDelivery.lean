import Idgs.Cluster.Membership

/-!
# Delivery of the messages of a join

Each message of the member manager keeps the invariant: a change of state, the request of a joiner,
the request of the founder, the snapshot and the delta.
-/

namespace Idgs.Cluster

open List

namespace Membership

/-! ## Reactions -/

/-- A reaction that only tells that joiners are prepared. -/
def Quiet (sent : List Multicast) : Prop :=
  ∀ x ∈ Node.memberMessages sent, ∃ i, x = .memberStatus i .prepared

theorem quiet_nil : Quiet [] := fun _ hx => absurd hx not_mem_nil

variable {f : Node → Node × List Multicast} {s : State}

theorem mem_react_flight {x : MemberAddress × Multicast} (hx : x ∈ (react f s).flight) :
    x ∈ s.flight ∨ (x.1 ∈ s.group ∧ x.2 ∈ Node.memberMessages (f (s.nodes x.1)).2) := by
  rcases mem_append.mp hx with hx | hx
  · exact .inl hx
  · obtain ⟨p, hp, hx⟩ := mem_flatMap.mp hx
    obtain ⟨m, hm, rfl⟩ := mem_map.mp hx
    exact .inr ⟨hp, hm⟩

variable {p : MemberAddress}

theorem react_nodes {flight} (hp : p ∈ s.group) :
    (react f { s with flight := flight }).nodes p = (f (s.nodes p)).1 := if_pos hp

/-- A reaction that keeps the configurations keeps the group in order. -/
theorem GroupOk.react {flight}
    (h : GroupOk s) (hcfg : ∀ p ∈ s.group, (f (s.nodes p)).1.cfg = (s.nodes p).cfg) :
    GroupOk (react f { s with flight := flight }) := by
  have hall : ∀ p, ((Membership.react f { s with flight := flight }).nodes p).cfg =
      (s.nodes p).cfg := by
    intro p
    simp only [Membership.react]
    split
    · rename_i hp
      exact hcfg p hp
    · rfl
  refine ⟨h.nodup, h.past, fun p hp => ?_, fun p => ?_, fun p hp q hq heq => ?_⟩
  · have hnot : p ∉ s.group := fun hg => hp (h.past p hg)
    simp only [Membership.react, if_neg hnot]
    exact h.fresh p hp
  · rw [hall]
    exact h.address p
  · rw [hall, hall] at heq
    exact h.publicAddress p hp q hq heq

/-- Messages of a reaction that are no requests and announce no wrong state are in order. -/
theorem FlightOk.react {rest} (h : FlightOk s) (hrest : ∀ x ∈ rest, x ∈ s.flight)
    (hcfg : ∀ p ∈ s.group, (f (s.nodes p)).1.cfg = (s.nodes p).cfg)
    (hsent : ∀ p ∈ s.group, ∀ x ∈ Node.memberMessages (f (s.nodes p)).2,
      (∃ i, x = .memberStatus i .prepared) ∨ isAnswer x = true) :
    FlightOk (react f { s with flight := rest }) := by
  refine ⟨fun x hx => ?_, fun x hx => ?_, fun p m hm => ?_, fun p i status hstatus => ?_⟩
  · rcases mem_react_flight hx with hx | ⟨hx, -⟩
    · exact h.senders x (hrest x hx)
    · exact hx
  · rcases mem_react_flight hx with hx | ⟨-, hx⟩
    · exact h.kinds x (hrest x hx)
    · exact (mem_filter.mp hx).2
  · rcases mem_react_flight hm with hm | ⟨hp, hm⟩
    · have hp : p ∈ s.group := h.senders _ (hrest _ hm)
      simp only [Membership.react, if_pos hp]
      exact (h.requests p m (hrest _ hm)).trans (hcfg p hp).symm
    · rcases hsent p hp _ hm with ⟨i, heq⟩ | hanswer
      · cases heq
      · cases hanswer
  · rcases mem_react_flight hstatus with hx | ⟨hp, hx⟩
    · exact h.states p i status (hrest _ hx)
    · rcases hsent p hp _ hx with ⟨j, heq⟩ | hanswer
      · cases heq
        exact ⟨by decide, by decide⟩
      · cases hanswer

/-- A quiet reaction adds nothing to the pending join, and announces nobody. -/
theorem react_quiet (hquiet : ∀ p ∈ s.group, Quiet (f (s.nodes p)).2) :
    (react f s).flight.filter (fun x => isJoin x.2) = s.flight.filter (fun x => isJoin x.2) ∧
      announced (react f s).flight = announced s.flight := by
  have hextra : ∀ x ∈ s.group.flatMap (fun p =>
      (Node.memberMessages (f (s.nodes p)).2).map fun m => (p, m)),
      ∃ i, x.2 = .memberStatus i .prepared := by
    intro x hx
    obtain ⟨p, hp, hx⟩ := mem_flatMap.mp hx
    obtain ⟨m, hm, rfl⟩ := mem_map.mp hx
    exact hquiet p hp m hm
  have hjoin : (s.group.flatMap fun p => (Node.memberMessages (f (s.nodes p)).2).map
      fun m => (p, m)).filter (fun x => isJoin x.2) = [] := by
    refine filter_eq_nil_iff.mpr fun x hx => ?_
    obtain ⟨i, hi⟩ := hextra x hx
    rw [hi]
    exact Bool.false_ne_true
  have hnew : announced (s.group.flatMap fun p => (Node.memberMessages (f (s.nodes p)).2).map
      fun m => (p, m)) = [] := by
    refine filterMap_eq_nil_iff.mpr fun x hx => ?_
    obtain ⟨i, hi⟩ := hextra x hx
    rw [hi]
    rfl
  constructor
  · rw [react, filter_append, hjoin, append_nil]
  · rw [react, announced, filterMap_append, ← announced, ← announced, hnew, append_nil]

/-- The reactions of a group in which one process reacts. -/
theorem flatMap_of_one {α β : Type*} {l : List α} {g : α → List β} {a : α} (hnodup : l.Nodup)
    (ha : a ∈ l) (hg : ∀ b ∈ l, b ≠ a → g b = []) : l.flatMap g = g a := by
  obtain ⟨before, after, rfl⟩ := append_of_mem ha
  have hnot := (nodup_cons.mp (perm_middle.nodup_iff.mp hnodup)).1
  have hbefore : before.flatMap g = [] := by
    refine flatMap_eq_nil_iff.mpr fun b hb => hg b (by simp [hb]) ?_
    rintro rfl
    exact hnot (mem_append_left _ hb)
  have hafter : after.flatMap g = [] := by
    refine flatMap_eq_nil_iff.mpr fun b hb => hg b (by simp [hb]) ?_
    rintro rfl
    exact hnot (mem_append_right _ hb)
  rw [flatMap_append, flatMap_cons, hbefore, hafter, nil_append, append_nil]

/-- The message taken out of flight, and what is left. -/
structure Taken (s : State) (p : MemberAddress) (m : Multicast)
    (rest : List (MemberAddress × Multicast)) : Prop where
  take : Common.takeFirst p s.flight = some (m, rest)

theorem Taken.mem {m : Multicast} {rest}
    (h : Taken s p m rest) : (p, m) ∈ s.flight := Common.takeFirst_mem h.take

theorem Taken.rest {m : Multicast} {rest} (h : Taken s p m rest) : ∀ x ∈ rest, x ∈ s.flight :=
  fun _ hx => Common.mem_of_mem_takeFirst h.take hx

/-- The processes announced in flight are those that the message announces and those that the rest
do. -/
theorem Taken.announced {m : Multicast} {rest} (h : Taken s p m rest) :
    (announced s.flight).Perm ((newcomer m).toList ++ announced rest) := by
  have hperm := (Common.takeFirst_perm h.take).filterMap fun x => newcomer x.2
  rw [filterMap_cons] at hperm
  cases hm : newcomer m with
  | none | some _ => simpa [hm, Membership.announced] using hperm

variable {table : List Member} {pend : Pending}

/-- Announcements that are left are in order, for a table with the same addresses. -/
theorem Inv.newcomers_rest {table' : List Member}
    (h : Inv table pend s) {m : Multicast} {rest} (htake : Taken s p m rest)
    (haddress : table'.map Member.address = table.map Member.address) :
    (table'.map Member.address ++ announced rest).Nodup ∧
      ∀ a ∈ table'.map Member.address ++ announced rest, a ∈ s.past := by
  have hsub : ∀ a ∈ announced rest, a ∈ announced s.flight := fun a ha =>
    (htake.announced.mem_iff).mpr (mem_append_right _ ha)
  rw [haddress]
  constructor
  · have hnodup := (htake.announced.append_left (table.map Member.address)).nodup_iff.mp h.newcomers
    refine hnodup.sublist (List.Sublist.append_left ?_ _)
    exact sublist_append_right _ _
  · intro a ha
    rcases mem_append.mp ha with ha | ha
    · exact h.newcomersPast a (mem_append_left _ ha)
    · exact h.newcomersPast a (mem_append_right _ (hsub a ha))

/-! ## Delivery of a change of state -/

/-- What `handleMemberStatusEvent` does at a member, and at a process that is none. -/
theorem handleMemberStatusEvent_spec (oracle : ℕ → BalanceOracle) (n : Node) (pos : ℕ)
    (status : MemberState) :
    (n.handleMemberStatusEvent oracle pos status).1 =
        (if n.getLocalMember = none then n
        else { n with members := n.members.modify pos (·.setState status) }) ∧
      Quiet (n.handleMemberStatusEvent oracle pos status).2 := by
  unfold Node.handleMemberStatusEvent
  by_cases hlocal : n.getLocalMember = none
  · rw [if_pos (.inr hlocal), if_pos hlocal]
    exact ⟨rfl, quiet_nil⟩
  · have hne : n.members ≠ [] := by
      rintro hnil
      refine hlocal ?_
      rw [Node.getLocalMember, hnil]
      split <;> rfl
    rw [if_neg (not_or.mpr ⟨hne, hlocal⟩), if_neg hlocal]
    split
    · rename_i hlen
      rw [modify_eq_self hlen]
      exact ⟨rfl, quiet_nil⟩
    · exact ⟨rfl, fun x hx => (Node.memberMessages_memberStatusChanged _ _ _ _ _ _ x hx).2⟩

/-- A member's position is kept by a change of the common table that keeps the addresses, and the
state at that position active. -/
theorem MemberOk.change {table' : List Member} {pend' : Pending}
    {n n' : Node} {i : ℕ} (h : MemberOk table pend p n i)
    (haddress : table'.map Member.address = table.map Member.address)
    (hindex : n'.localMemberIndex = n.localMemberIndex)
    (hlive : (table'.getD i {}).state ≠ .inactive)
    (hmembers : n'.members = pend'.memberTable table' p) : MemberOk table' pend' p n' i where
  lt := by
    have hlen := congrArg List.length haddress
    rw [length_map, length_map] at hlen
    rw [hlen]
    exact h.lt
  index := hindex.trans h.index
  address := by
    have hget := congrArg (fun l => l[i]?) haddress
    simp only [getElem?_map] at hget
    have hentry := h.address
    rw [getD_eq_getElem?_getD] at hentry ⊢
    rw [getElem?_eq_getElem h.lt] at hget hentry
    cases hget' : table'[i]? with
    | none => rw [hget'] at hget; cases hget
    | some m =>
      rw [hget'] at hget
      exact (Option.some.inj hget).trans hentry
  live := hlive
  members := hmembers

/-- Before anybody is a member every process is a stranger. -/
theorem Inv.founding_stranger {a : MemberAddress} {m : Member}
    (h : Inv table (.founding a m) s) (hp : p ∈ s.group) :
    (s.nodes p).localMemberIndex = -1 ∧ (s.nodes p).members = [] := by
  rcases h.nodes p hp with ⟨i, hi⟩ | hstranger
  · have hlt := hi.lt
    rw [h.pending.1] at hlt
    cases hlt
  · exact hstranger

/-- When no answer is in flight, at most the founder's request is pending. -/
theorem Inv.pending_of_noAnswer
    (h : Inv table pend s) (hanswer : ∀ x ∈ s.flight, isAnswer x.2 = false) :
    pend = .none ∨ ∃ a m, pend = .founding a m := by
  have hnot : ∀ x ∈ pend.traffic table, isAnswer x.2 = false := by
    intro x hx
    rw [← h.traffic] at hx
    exact hanswer x (mem_filter.mp hx).1
  cases pend with
  | none => exact .inl rfl
  | founding a m => exact .inr ⟨a, m, rfl⟩
  | snapshot l m | delta l m => cases hnot _ mem_cons_self

theorem Inv.deliver_status (oracle : ℕ → BalanceOracle)
    (h : Inv table pend s) (hanswer : ∀ x ∈ s.flight, isAnswer x.2 = false)
    {pos : ℕ} {status : MemberState} {rest}
    (htake : Taken s p (.memberStatus pos status) rest) :
    Inv (table.modify pos (·.setState status)) pend
      (react (fun n => n.handleMemberStatusEvent oracle pos status) { s with flight := rest }) := by
  have hspec := fun q => handleMemberStatusEvent_spec oracle (s.nodes q) pos status
  have hcfg : ∀ q ∈ s.group,
      ((s.nodes q).handleMemberStatusEvent oracle pos status).1.cfg = (s.nodes q).cfg := by
    intro q _
    rw [(hspec q).1]
    split <;> rfl
  obtain ⟨hfilter, hannounced⟩ := react_quiet
    (f := fun n => n.handleMemberStatusEvent oracle pos status) (s := { s with flight := rest })
    fun q _ => (hspec q).2
  have hstates := h.flight.states p pos status htake.mem
  have haddress : (table.modify pos (·.setState status)).map Member.address =
      table.map Member.address :=
    Node.map_modify (f := (·.setState status)) (fun _ => rfl) table pos
  obtain ⟨hnodup, hpast⟩ := h.newcomers_rest htake haddress
  have hrest := (Common.takeFirst_filter_of_not (P := fun x => isJoin x.2) htake.take rfl).trans
    h.traffic
  have hpend := h.pending_of_noAnswer hanswer
  refine
    { group := h.group.react hcfg
      flight := h.flight.react htake.rest hcfg fun q _ x hx => .inl ((hspec q).2 x hx)
      newcomers := hannounced ▸ hnodup
      newcomersPast := hannounced ▸ hpast
      sound := h.sound.setState pos hstates.1
      traffic := ?_, pending := ?_, nodes := fun q hq => ?_ }
  · rw [hfilter, hrest]
    rcases hpend with rfl | ⟨a, m, rfl⟩ <;> rfl
  · rcases hpend with rfl | ⟨a, m, rfl⟩
    · trivial
    · obtain ⟨htable, hgroup, hm⟩ := h.pending
      have ha : a ∈ s.group := hgroup ▸ mem_cons_self
      refine ⟨by rw [htable]; exact modify_nil _ _, hgroup, hm.trans ?_⟩
      rw [react_nodes ha]
      exact (hcfg a ha).symm
  · rw [react_nodes (s := s) hq, (hspec q).1]
    have hstranger : (s.nodes q).localMemberIndex = -1 →
        (if (s.nodes q).getLocalMember = none then s.nodes q
          else { s.nodes q with members := (s.nodes q).members.modify pos (·.setState status) }) =
          s.nodes q := fun hindex => if_pos (getLocalMember_of_stranger hindex)
    rcases hpend with rfl | ⟨a, m, rfl⟩
    · rcases h.nodes q hq with ⟨i, hi⟩ | hq'
      · left
        have hlocal : (s.nodes q).getLocalMember ≠ none := by
          rw [hi.getLocalMember]
          exact Option.some_ne_none _
        rw [if_neg hlocal]
        refine ⟨i, hi.change haddress rfl ?_ (by rw [hi.members]; rfl)⟩
        rw [Node.getD_modify]
        split
        · exact hstates.2
        · exact hi.live
      · right
        rw [hstranger hq'.1]
        exact hq'
    · right
      have hq' := h.founding_stranger hq
      rw [hstranger hq'.1]
      exact hq'

/-- A member multicasts its status. -/
theorem Inv.send_status (h : Inv table pend s) {pos : ℕ} {status : MemberState} (hp : p ∈ s.group)
    (hstatus : MemberState.joined.toNat ≤ status.toNat) :
    Inv table pend { s with flight := s.flight ++ [(p, .memberStatus pos status)] } where
  __ := h
  group := ⟨h.group.nodup, h.group.past, h.group.fresh, h.group.address, h.group.publicAddress⟩
  flight := by
    have hmem : ∀ x ∈ s.flight ++ [(p, Multicast.memberStatus pos status)],
        x ∈ s.flight ∨ x = (p, .memberStatus pos status) := fun x hx => by
      simpa using hx
    refine ⟨fun x hx => ?_, fun x hx => ?_, fun q m hm => ?_, fun q i status' hx => ?_⟩
    · rcases hmem x hx with hx | rfl
      · exact h.flight.senders x hx
      · exact hp
    · rcases hmem x hx with hx | rfl
      · exact h.flight.kinds x hx
      · rfl
    · rcases hmem _ hm with hm | hm
      · exact h.flight.requests q m hm
      · cases hm
    · rcases hmem _ hx with hx | hx
      · exact h.flight.states q i status' hx
      · cases hx
        constructor
        · rintro rfl
          exact absurd hstatus (by decide)
        · rintro rfl
          exact absurd hstatus (by decide)
  newcomers := by simpa [announced, newcomer] using h.newcomers
  newcomersPast := by simpa [announced, newcomer] using h.newcomersPast
  traffic := by simpa [isJoin, isAnswer, isFounding] using h.traffic
  pending := by
    cases pend with
    | none => trivial
    | founding a m => exact h.pending
    | snapshot l m | delta l m => exact h.pending

/-! ## Delivery of a request -/

/-- A message that nobody reacts to is dropped. -/
theorem Inv.deliver_ignored (h : Inv table pend s) {m : Multicast} {rest} (htake : Taken s p m rest)
    (hjoin : isJoin m = false)
    (hf : ∀ q ∈ s.group, f (s.nodes q) = (s.nodes q, [])) :
    Inv table pend (react f { s with flight := rest }) := by
  have hcfg : ∀ q ∈ s.group, (f (s.nodes q)).1.cfg = (s.nodes q).cfg := fun q hq => by rw [hf q hq]
  obtain ⟨hfilter, hannounced⟩ := react_quiet (f := f) (s := { s with flight := rest })
    fun q hq => by
      rw [hf q hq]
      exact quiet_nil
  obtain ⟨hnodup, hpast⟩ := h.newcomers_rest htake rfl
  have hsame : ∀ q ∈ s.group, (react f { s with flight := rest }).nodes q = s.nodes q := by
    intro q hq
    rw [react_nodes (s := s) hq, hf q hq]
  have hanswers : ∀ l m, Answers table s l m →
      Answers table (react f { s with flight := rest }) l m := by
    rintro l m ⟨hl, hm, hmcfg, hlead, i, hindex, hi⟩
    exact ⟨hl, hm, by rw [hsame _ hm]; exact hmcfg, hlead, i, by rw [hsame l hl]; exact hindex, hi⟩
  refine
    { group := h.group.react hcfg
      flight := h.flight.react htake.rest hcfg fun q hq x hx => ?_
      newcomers := hannounced ▸ hnodup
      newcomersPast := hannounced ▸ hpast
      sound := h.sound
      traffic :=
        hfilter.trans ((Common.takeFirst_filter_of_not (P := fun x => isJoin x.2) htake.take
        hjoin).trans h.traffic)
      pending := ?_
      nodes := fun q hq => ?_ }
  · rw [hf q hq] at hx
    cases hx
  · cases pend with
    | none => trivial
    | founding a m =>
      obtain ⟨htable, hgroup, hm⟩ := h.pending
      have ha : a ∈ s.group := hgroup ▸ mem_cons_self
      exact ⟨htable, hgroup, by rw [hsame a ha]; exact hm⟩
    | snapshot l m | delta l m => exact hanswers l m h.pending
  · rw [hsame q hq]
    exact h.nodes q hq

/-- What `handleJoinEvent` does with the request of a process that is not leading. -/
theorem handleJoinEvent_request {oracle : ℕ → BalanceOracle} {n : Node} {m : Member}
    (hm : m.isLeading = false) : n.handleJoinEvent oracle m =
      match n.getLocalMember with
      | some localMember => if localMember.isLeading then n.handleNormalJoin m else (n, [])
      | none => (n, []) := by
  rw [Node.handleJoinEvent, hm]
  rfl

theorem Inv.deliver_request (oracle : ℕ → BalanceOracle)
    (h : Inv table pend s) (hanswer : ∀ x ∈ s.flight, isAnswer x.2 = false)
    {m : Member} (hm : m.isLeading = false) {rest}
    (htake : Taken s p (.member m) rest) :
    ∃ pend', Inv table pend'
    (react (fun n => n.handleJoinEvent oracle m) { s with flight := rest }) := by
  have hjoin : isJoin (.member m) = false := by simp [isJoin, isAnswer, isFounding, hm]
  have hp : p ∈ s.group := h.flight.senders _ htake.mem
  have hmp : m = (s.nodes p).cfg := h.flight.requests p m htake.mem
  have hmaddress : m.address = p := hmp ▸ h.group.address p
  by_cases hleader : ∃ l ∈ s.group, ∃ e, (s.nodes l).getLocalMember = some e ∧ e.isLeading = true
  · -- the leading member reserves a position and answers
    obtain ⟨l, hl, e, hlocal, hlead⟩ := hleader
    have hmember : ∃ i, MemberOk table pend l (s.nodes l) i := by
      rcases h.nodes l hl with hmember | hstranger
      · exact hmember
      · rw [getLocalMember_of_stranger hstranger.1] at hlocal
        cases hlocal
    obtain ⟨i, hi⟩ := hmember
    have hpend : pend = .none := by
      rcases h.pending_of_noAnswer hanswer with rfl | ⟨a, m', rfl⟩
      · rfl
      · have hlt := hi.lt
        rw [h.pending.1] at hlt
        cases hlt
    subst hpend
    have hentry : (table.getD i {}).isLeading = true := by
      rw [hi.getLocalMember, hi.entry] at hlocal
      rw [Option.some.inj hlocal]
      exact hlead
    have hf_l : (s.nodes l).handleJoinEvent oracle m =
        ({ s.nodes l with members := (Node.findAddPos table).2 },
          [.wholeMemberTable m table, .deltaMember m (Node.findAddPos table).1]) := by
      have hmembers : (s.nodes l).members = table := hi.members
      rw [handleJoinEvent_request hm, hlocal]
      simp only [hlead, if_true, Node.handleNormalJoin, hmembers]
    have hf_ne : ∀ q ∈ s.group, q ≠ l → (s.nodes q).handleJoinEvent oracle m = (s.nodes q, []) := by
      intro q hq hne
      rw [handleJoinEvent_request hm]
      rcases h.nodes q hq with ⟨j, hj⟩ | hstranger
      · rw [hj.getLocalMember, hj.entry]
        have hnot : ¬(table.getD j {}).isLeading = true := by
          intro hlead'
          obtain rfl := h.sound.leading i j hentry hlead'
          exact hne (hj.unique hi)
        exact if_neg hnot
      · rw [getLocalMember_of_stranger hstranger.1]
    have hcfg : ∀ q ∈ s.group, ((s.nodes q).handleJoinEvent oracle m).1.cfg = (s.nodes q).cfg := by
      intro q hq
      by_cases hql : q = l
      · rw [hql, hf_l]
      · rw [hf_ne q hq hql]
    have hindex : ∀ q ∈ s.group,
        ((s.nodes q).handleJoinEvent oracle m).1.localMemberIndex =
        (s.nodes q).localMemberIndex := by
      intro q hq
      by_cases hql : q = l
      · rw [hql, hf_l]
      · rw [hf_ne q hq hql]
    have hflight : (react (fun n => n.handleJoinEvent oracle m) { s with flight := rest }).flight =
        rest ++ [(l, .wholeMemberTable m table),
        (l, .deltaMember m (Node.findAddPos table).1)] := by
      rw [react, flatMap_of_one h.group.nodup hl fun q hq hne => by rw [hf_ne q hq hne]; rfl, hf_l]
      rfl
    have hrest := (Common.takeFirst_filter_of_not (P := fun x => isJoin x.2) htake.take hjoin).trans
      h.traffic
    have hannounced : (announced (rest ++ [(l, Multicast.wholeMemberTable m table),
        (l, .deltaMember m (Node.findAddPos table).1)])).Perm (announced s.flight) := by
      refine List.Perm.trans ?_ htake.announced.symm
      rw [announced, filterMap_append]
      exact perm_append_comm
    refine ⟨.snapshot l m,
      { group := h.group.react hcfg
        flight := h.flight.react htake.rest hcfg fun q hq x hx => .inr ?_
        newcomers := ?_, newcomersPast := fun a ha => ?_
        sound := h.sound
        traffic := ?_
        pending := ⟨hl, hmaddress ▸ hp, ?_, hm, i, ?_, hentry⟩
        nodes := fun q hq => ?_ }⟩
    · by_cases hql : q = l
      · rw [hql, hf_l] at hx
        rcases mem_cons.mp hx with rfl | hx
        · rfl
        · rw [mem_singleton.mp hx]
          rfl
      · rw [hf_ne q hq hql] at hx
        cases hx
    · rw [hflight]
      exact (hannounced.append_left _).nodup_iff.mpr h.newcomers
    · rw [hflight] at ha
      exact h.newcomersPast a ((hannounced.append_left _).mem_iff.mp ha)
    · rw [hflight, filter_append, hrest]
      rfl
    · rw [hmaddress, react_nodes (s := s) hp, hcfg p hp]
      exact hmp
    · rw [react_nodes (s := s) hl, hindex l hl]
      exact hi.index
    · rw [react_nodes (s := s) hq]
      rcases h.nodes q hq with ⟨j, hj⟩ | hstranger
      · left
        refine ⟨j, hj.change rfl (hindex q hq) hj.live ?_⟩
        by_cases hql : q = l
        · rw [hql, hf_l]
          simp only [Pending.memberTable, if_true]
        · rw [hf_ne q hq hql]
          simp only [Pending.memberTable, if_neg hql]
          exact hj.members
      · right
        have hql : q ≠ l := by
          rintro rfl
          rw [getLocalMember_of_stranger hstranger.1] at hlocal
          cases hlocal
        rw [hf_ne q hq hql]
        exact hstranger
  · refine ⟨pend, h.deliver_ignored htake hjoin fun q hq => ?_⟩
    rw [handleJoinEvent_request hm]
    cases hlocal : (s.nodes q).getLocalMember with
    | none => rfl
    | some e =>
      have hnot : ¬e.isLeading = true := fun hlead => hleader ⟨q, hq, e, hlocal, hlead⟩
      simp only [if_neg hnot]

/-! ## Delivery of the founder's request -/

theorem tableOk_founder (m : Member) : Node.TableOk (Node.joinedTable [] m 0) where
  ids := by
    intro i hi
    obtain rfl : i = 0 := Nat.lt_one_iff.mp hi
    rfl
  taken := by
    intro i
    rw [Node.getD_joinedTable]
    split
    · intro hstate
      cases hstate
    · simp
  leading := by
    have hzero : ∀ i, ((Node.joinedTable [] m 0).getD i {}).isLeading = true → i = 0 := by
      intro i hi
      rw [Node.getD_joinedTable] at hi
      by_contra hne
      rw [if_neg hne] at hi
      simp [Member.isLeading] at hi
    exact fun i j hi hj => (hzero i hi).trans (hzero j hj).symm

theorem Inv.deliver_founding (oracle : ℕ → BalanceOracle)
    (h : Inv table pend s) {m : Member} (hm : m.isLeading = true)
    {rest} (htake : Taken s p (.member m) rest) :
    Inv (Node.joinedTable [] m 0) .none
      (react (fun n => n.handleJoinEvent oracle m) { s with flight := rest }) := by
  have hjoin : isJoin (.member m) = true := by simp [isJoin, isFounding, hm]
  have hmem : (p, Multicast.member m) ∈ pend.traffic table :=
    h.traffic ▸ mem_filter.mpr ⟨htake.mem, hjoin⟩
  have hpend : pend = .founding p m := by
    cases pend with
    | none => cases hmem
    | founding a m' =>
      cases mem_singleton.mp hmem
      rfl
    | snapshot l m' | delta l m' => simp [Pending.traffic] at hmem
  subst hpend
  obtain ⟨htable, hgroup, hmp⟩ := h.pending
  subst htable
  have hp : p ∈ s.group := hgroup ▸ mem_cons_self
  have honly : ∀ q ∈ s.group, q = p := fun q hq => mem_singleton.mp (hgroup ▸ hq)
  have hmaddress : m.address = p := hmp ▸ h.group.address p
  have hmembers : (s.nodes p).members = [] := (h.founding_stranger hp).2
  have hlocal : (s.nodes p).isLocalMember m = true := by
    rw [Node.isLocalMember, hmp]
    exact beq_self_eq_true _
  have hf : ((s.nodes p).handleJoinEvent oracle m).1 =
      { s.nodes p with members := Node.joinedTable [] m 0, localMemberIndex := 0 } := by
    rw [Node.handleJoinEvent, if_pos hm, Node.handleLeadingJoinEvent, hmembers]
    have hlocal' : ∀ members, Node.isLocalMember { s.nodes p with members := members } m = true :=
      fun _ => hlocal
    simp [Node.setMemberStatus, hlocal, Node.joinedTable, Node.findAddPos, Node.addMember,
      Member.setState]
  have hquiet : Quiet ((s.nodes p).handleJoinEvent oracle m).2 := by
    intro x hx
    rw [Node.handleJoinEvent, if_pos hm] at hx
    exact (Node.memberMessages_memberStatusChanged _ _ _ _ _ _ x hx).2
  have hcfg : ∀ q ∈ s.group, ((s.nodes q).handleJoinEvent oracle m).1.cfg = (s.nodes q).cfg := by
    intro q hq
    rw [honly q hq, hf]
  obtain ⟨hfilter, hannounced⟩ := react_quiet (f := fun n => n.handleJoinEvent oracle m)
    (s := { s with flight := rest }) fun q hq => by
      rw [honly q hq]
      exact hquiet
  have htraffic := Common.takeFirst_filter_of_sender (P := fun x => isJoin x.2) (l := p) htake.take
    hjoin fun x hx => by
      rw [h.traffic] at hx
      rw [mem_singleton.mp hx]
  have hperm : (announced s.flight).Perm (p :: announced rest) := hmaddress ▸ htake.announced
  refine
    { group := h.group.react hcfg
      flight := h.flight.react htake.rest hcfg fun q hq x hx => .inl (by
        rw [honly q hq] at hx
        exact hquiet x hx)
      newcomers := ?_, newcomersPast := fun a ha => ?_
      sound := tableOk_founder m
      traffic := ?_
      pending := trivial
      nodes := fun q hq => ?_ }
  · have haddress : (Node.joinedTable [] m 0).map Member.address = [p] := by rw [← hmaddress]; rfl
    rw [hannounced, haddress]
    exact hperm.nodup_iff.mp h.newcomers
  · have haddress : (Node.joinedTable [] m 0).map Member.address = [p] := by rw [← hmaddress]; rfl
    rw [hannounced, haddress] at ha
    exact h.newcomersPast a (hperm.mem_iff.mpr ha)
  · rw [hfilter]
    rw [h.traffic] at htraffic
    exact (List.cons.inj htraffic).2.symm
  · left
    refine ⟨0, ?_⟩
    rw [react_nodes (s := s) hq, honly q hq, hf]
    exact ⟨Nat.zero_lt_one, rfl, hmaddress, (by rintro ⟨⟩), rfl⟩

/-! ## Delivery of the snapshot -/

/-- Only the joiner listens on its address. -/
theorem GroupOk.isLocalMember (h : GroupOk s) {m : Member} (hjoiner : m.address ∈ s.group)
    (hcfg : m = (s.nodes m.address).cfg) {q : MemberAddress} (hq : q ∈ s.group) :
    (s.nodes q).isLocalMember m = decide (q = m.address) := by
  rw [Node.isLocalMember, Bool.eq_iff_iff, beq_iff_eq, decide_eq_true_eq]
  constructor
  · intro heq
    rw [hcfg] at heq
    exact h.publicAddress q hq _ hjoiner heq
  · intro heq
    rw [heq, ← hcfg]

theorem Inv.deliver_snapshot (h : Inv table pend s) {m : Member} {snapshot : List Member} {rest}
    (htake : Taken s p (.wholeMemberTable m snapshot) rest) :
    Inv table (.delta p m)
      (react (fun n => (n.handleWholeMemberTableEvent m snapshot, [])) { s with
        flight := rest }) := by
  have hmem : (p, Multicast.wholeMemberTable m snapshot) ∈ pend.traffic table :=
    h.traffic ▸ mem_filter.mpr ⟨htake.mem, rfl⟩
  obtain ⟨hpend, rfl⟩ : pend = .snapshot p m ∧ snapshot = table := by
    cases pend with
    | none => cases hmem
    | founding _ _ | delta _ _ => simp [Pending.traffic] at hmem
    | snapshot l m' =>
      simp only [Pending.traffic, mem_cons, Prod.mk.injEq, Multicast.wholeMemberTable.injEq,
        reduceCtorEq, and_false, not_mem_nil, or_false] at hmem
      obtain ⟨rfl, rfl, rfl⟩ := hmem
      exact ⟨rfl, rfl⟩
  subst hpend
  obtain ⟨hl, hjoiner, hmcfg, hmlead, i, hindex, hlead⟩ := h.pending
  have hlocal := fun q hq => h.group.isLocalMember (q := q) hjoiner hmcfg hq
  have hf : ∀ q ∈ s.group, (s.nodes q).handleWholeMemberTableEvent m snapshot =
      if q = m.address then { s.nodes q with members := (s.nodes q).members ++ snapshot }
      else s.nodes q := by
    intro q hq
    rw [Node.handleWholeMemberTableEvent, hlocal q hq]
    by_cases heq : q = m.address <;> simp [heq]
  have hcfg : ∀ q ∈ s.group,
      ((s.nodes q).handleWholeMemberTableEvent m snapshot).cfg = (s.nodes q).cfg := by
    intro q hq
    rw [hf q hq]
    split <;> rfl
  have hindex' : ∀ q ∈ s.group,
      ((s.nodes q).handleWholeMemberTableEvent m snapshot).localMemberIndex =
      (s.nodes q).localMemberIndex := by
    intro q hq
    rw [hf q hq]
    split <;> rfl
  obtain ⟨hfilter, hannounced⟩ := react_quiet
    (f := fun n => (n.handleWholeMemberTableEvent m snapshot, [])) (s := { s with flight := rest })
    fun _ _ => quiet_nil
  obtain ⟨hnodup, hpast⟩ := h.newcomers_rest htake rfl
  have htraffic := Common.takeFirst_filter_of_sender (P := fun x => isJoin x.2) (l := p) htake.take
    rfl fun x hx => by
      rw [h.traffic] at hx
      rcases mem_cons.mp hx with rfl | hx
      · rfl
      · rw [mem_singleton.mp hx]
  rw [h.traffic] at htraffic
  have hrest := (List.cons.inj htraffic).2
  have hnew : m.address ∈ announced s.flight := by
    have hdelta : (p, Multicast.deltaMember m (Node.findAddPos snapshot).1) ∈ rest :=
      (mem_filter.mp (hrest ▸ mem_cons_self)).1
    exact mem_filterMap.mpr ⟨_, htake.rest _ hdelta, rfl⟩
  refine
    { group := h.group.react hcfg
      flight := h.flight.react htake.rest hcfg fun q _ x hx => absurd hx not_mem_nil
      newcomers := hannounced ▸ hnodup
      newcomersPast := hannounced ▸ hpast
      sound := h.sound
      traffic := hfilter.trans hrest.symm
      pending := ⟨hl, hjoiner, ?_, hmlead, i, ?_, hlead⟩
      nodes := fun q hq => ?_ }
  · rw [react_nodes (s := s) hjoiner, hcfg _ hjoiner]
    exact hmcfg
  · rw [react_nodes (s := s) hl, hindex' p hl]
    exact hindex
  · rw [react_nodes (s := s) hq]
    rcases h.nodes q hq with ⟨j, hj⟩ | hstranger
    · left
      have hne : q ≠ m.address := by
        rintro rfl
        have hstranger := h.stranger_of_newcomer hq hnew
        have hindexq := hj.index
        rw [hstranger.1] at hindexq
        omega
      refine ⟨j, hj.change rfl (hindex' q hq) hj.live ?_⟩
      rw [hf q hq, if_neg hne]
      exact hj.members
    · right
      refine ⟨(hindex' q hq).trans hstranger.1, ?_⟩
      rw [hf q hq]
      have hmembers : (s.nodes q).members = [] := hstranger.2
      by_cases hqm : q = m.address
      · simp [Pending.strangerTable, hqm.symm, hmembers]
      · simp [Pending.strangerTable, hqm, Ne.symm hqm, hmembers]

/-! ## Delivery of the delta -/

/-- What `handleDeltaMemberEvent` does where the table is not empty. -/
theorem handleDeltaMemberEvent_spec (oracle : ℕ → BalanceOracle) (n : Node) (m : Member) (pos : ℕ) :
    (n.handleDeltaMemberEvent oracle m pos).1 =
        (if n.members = [] then n
        else { n with
          members := Node.joinedTable n.members m pos
          localMemberIndex := if n.isLocalMember m then pos else n.localMemberIndex }) ∧
      Quiet (n.handleDeltaMemberEvent oracle m pos).2 := by
  unfold Node.handleDeltaMemberEvent
  by_cases hmembers : n.members = []
  · rw [if_pos hmembers, if_pos hmembers]
    exact ⟨rfl, quiet_nil⟩
  · rw [if_neg hmembers, if_neg hmembers]
    exact ⟨rfl, fun x hx => (Node.memberMessages_memberStatusChanged _ _ _ _ _ _ x hx).2⟩

/-- The addresses after a join are those of before and the joiner's. -/
theorem newcomers_joinedTable {m : Member} {rest : List MemberAddress}
    (h : (table.map Member.address ++ m.address :: rest).Nodup) :
    ((Node.joinedTable table m (Node.findAddPos table).1).map Member.address ++ rest).Nodup ∧
      ∀ a ∈ (Node.joinedTable table m (Node.findAddPos table).1).map Member.address ++ rest,
        a ∈ table.map Member.address ++ m.address :: rest := by
  have hmiddle := perm_middle.nodup_iff.mp h
  obtain ⟨hnot, hrest⟩ := nodup_cons.mp hmiddle
  rw [Node.map_address_joinedTable]
  split
  · rename_i hlt
    have hset : ∀ a ∈ (table.map Member.address).set (Node.findAddPos table).1 m.address,
        a ∈ table.map Member.address ∨ a = m.address := fun a ha => mem_or_eq_of_mem_set ha
    obtain ⟨htable, hrest', hdisjoint⟩ := nodup_append.mp hrest
    constructor
    · refine nodup_append.mpr ⟨?_, hrest', fun a ha b hb => ?_⟩
      · exact List.Nodup.set htable fun hmem => hnot (mem_append_left _ hmem)
      · rcases hset a ha with ha | rfl
        · exact hdisjoint a ha b hb
        · rintro rfl
          exact hnot (mem_append_right _ hb)
    · intro a ha
      rcases mem_append.mp ha with ha | ha
      · rcases hset a ha with ha | rfl
        · exact mem_append_left _ ha
        · exact mem_append_right _ mem_cons_self
      · exact mem_append_right _ (mem_cons_of_mem _ ha)
  · rw [append_assoc, singleton_append]
    exact ⟨h, fun a ha => ha⟩

theorem Inv.deliver_delta (oracle : ℕ → BalanceOracle)
    (h : Inv table pend s) {m : Member} {pos : ℕ} {rest}
    (htake : Taken s p (.deltaMember m pos) rest) :
    Inv (Node.joinedTable table m (Node.findAddPos table).1) .none
      (react (fun n => n.handleDeltaMemberEvent oracle m pos) { s with flight := rest }) := by
  have hmem : (p, Multicast.deltaMember m pos) ∈ pend.traffic table :=
    h.traffic ▸ mem_filter.mpr ⟨htake.mem, rfl⟩
  have hone : ∀ l, (∀ x ∈ pend.traffic table, x.1 = l) →
      pend.traffic table = (p, .deltaMember m pos) :: rest.filter fun x => isJoin x.2 := by
    intro l hl
    rw [← h.traffic] at hl ⊢
    exact Common.takeFirst_filter_of_sender (P := fun x => isJoin x.2) htake.take rfl hl
  -- the snapshot comes first
  obtain ⟨hpend, rfl, hrest⟩ : pend = .delta p m ∧ pos = (Node.findAddPos table).1 ∧
      rest.filter (fun x => isJoin x.2) = [] := by
    cases pend with
    | none => cases hmem
    | founding a m' => simp [Pending.traffic] at hmem
    | snapshot l m' =>
      have hl := hone l fun x hx => by
        rcases mem_cons.mp hx with rfl | hx
        · rfl
        · rw [mem_singleton.mp hx]
      cases hl
    | delta l m' =>
      have hl := hone l fun x hx => by rw [mem_singleton.mp hx]
      simp only [Pending.traffic, List.cons.injEq, Prod.mk.injEq,
        Multicast.deltaMember.injEq] at hl
      obtain ⟨⟨rfl, rfl, rfl⟩, hrest⟩ := hl
      exact ⟨rfl, rfl, hrest.symm⟩
  subst hpend
  obtain ⟨hl, hjoiner, hmcfg, hmlead, i, hindex, hlead⟩ := h.pending
  have hlocal := fun q hq => h.group.isLocalMember (q := q) hjoiner hmcfg hq
  have hspec := fun q => handleDeltaMemberEvent_spec oracle (s.nodes q) m (Node.findAddPos table).1
  have hcfg : ∀ q ∈ s.group,
      ((s.nodes q).handleDeltaMemberEvent oracle m (Node.findAddPos table).1).1.cfg =
        (s.nodes q).cfg := by
    intro q _
    rw [(hspec q).1]
    split <;> rfl
  obtain ⟨hfilter, hannounced⟩ := react_quiet
    (f := fun n => n.handleDeltaMemberEvent oracle m (Node.findAddPos table).1)
    (s := { s with flight := rest }) fun q _ => (hspec q).2
  have hperm : (announced s.flight).Perm (m.address :: announced rest) := htake.announced
  have hnodup := ((hperm.append_left _).nodup_iff.mp h.newcomers)
  obtain ⟨hnodup', hpast'⟩ := newcomers_joinedTable hnodup
  have hnew : m.address ∈ announced s.flight := hperm.mem_iff.mpr mem_cons_self
  -- the answering member is one, so the table is not empty
  have hne : table ≠ [] := by
    rintro rfl
    simp [Member.isLeading] at hlead
  refine
    { group := h.group.react hcfg
      flight := h.flight.react htake.rest hcfg fun q _ x hx => .inl ((hspec q).2 x hx)
      newcomers := hannounced ▸ hnodup'
      newcomersPast := fun a ha => ?_
      sound := h.sound.joinedTable hmlead
      traffic := hfilter.trans hrest
      pending := trivial
      nodes := fun q hq => ?_ }
  · rw [hannounced] at ha
    exact h.newcomersPast a ((hperm.append_left _).mem_iff.mpr (hpast' a ha))
  · rw [react_nodes (s := s) hq, (hspec q).1, hlocal q hq]
    rcases h.nodes q hq with ⟨j, hj⟩ | hstranger
    · left
      have hqm : q ≠ m.address := by
        rintro rfl
        have hindexq := hj.index
        rw [(h.stranger_of_newcomer hq hnew).1] at hindexq
        omega
      have hmembers : (s.nodes q).members ≠ [] := by
        intro hnil
        have hlt := hj.local_lt
        rw [hnil] at hlt
        cases hlt
      rw [if_neg hmembers, decide_eq_false hqm, if_neg Bool.false_ne_true]
      have hentry : (Node.joinedTable table m (Node.findAddPos table).1).getD j {} =
          table.getD j {} := by
        rw [Node.getD_joinedTable, if_neg hj.ne_findAddPos]
      refine ⟨j, ⟨?_, hj.index, hentry ▸ hj.address, hentry ▸ hj.live, ?_⟩⟩
      · rw [Node.length_joinedTable]
        exact lt_of_lt_of_le hj.lt (le_max_left _ _)
      · rw [hj.members]
        simp only [Pending.memberTable]
        split
        · exact Node.joinedTable_findAddPos table m
        · rfl
    · by_cases hqm : q = m.address
      · -- the joiner
        left
        have hmembers : (s.nodes q).members = table := by
          rw [hstranger.2]
          simp [Pending.strangerTable, hqm]
        rw [hmembers, if_neg hne, decide_eq_true hqm, if_pos rfl]
        have hentry : (Node.joinedTable table m (Node.findAddPos table).1).getD
            (Node.findAddPos table).1 {} =
            (m.setId (Node.findAddPos table).1).setState .joined := by
          rw [Node.getD_joinedTable, if_pos rfl]
        refine ⟨(Node.findAddPos table).1, ⟨?_, rfl, ?_, ?_, rfl⟩⟩
        · rw [Node.length_joinedTable]
          exact lt_of_lt_of_le (Nat.lt_succ_self _) (le_max_right _ _)
        · rw [hentry]
          exact hqm.symm
        · rw [hentry]
          rintro ⟨⟩
      · right
        have hmembers : (s.nodes q).members = [] := by
          rw [hstranger.2]
          simp [Pending.strangerTable, Ne.symm hqm]
        rw [if_pos hmembers]
        exact ⟨hstranger.1, hmembers⟩

end Membership

end Idgs.Cluster
