import Idgs.Cluster.MembershipChange

/-!
# Agreement of the membership tables

In every run in which joins follow one another, the members agree, up to the position reserved for
the joiner. Each way of disturbing a join makes them disagree.
-/

namespace Idgs.Cluster

open List

namespace Membership

/-! ## Runs -/

/-- Every step of a run in which joins are serial keeps the invariant. -/
theorem Inv.step {oracle : ℕ → BalanceOracle} {table : List Member} {pend : Pending} {s s' : State}
    {a : Step} (h : Inv table pend s) (hserial : Serial s a)
    (hstep : Membership.step oracle s a = some s') : ∃ table' pend', Inv table' pend' s' := by
  cases a with
  | change left joined =>
    simp only [Membership.step] at hstep
    split at hstep
    · rename_i hchange
      cases hstep
      have hchange := changed_of_isChange hchange
      obtain ⟨hanswer, hfounding, hone⟩ := hserial
      by_cases hempty : (remaining s left).group = []
      · obtain ⟨pend', hinv⟩ :=
          h.change_founding oracle hchange hanswer hempty (hone hempty)
        exact ⟨[], pend', hinv⟩
      · exact ⟨_, pend, h.change_staying oracle hchange hanswer hfounding hempty⟩
    · cases hstep
  | status p status =>
    simp only [Membership.step] at hstep
    split at hstep
    · rename_i hstatus
      cases hstep
      obtain ⟨hp, hlocal, hjoined⟩ := hstatus
      exact ⟨table, pend, h.send_status hp hjoined⟩
    · cases hstep
  | deliver p =>
    simp only [Membership.step] at hstep
    split at hstep
    · rename_i m rest htake
      cases hstep
      have htaken : Taken s p m rest := ⟨htake⟩
      have hguard := hserial m (by rw [htake]; rfl)
      have hkind := h.flight.kinds _ htaken.mem
      cases m with
      | member m =>
        have hanswer := hguard.resolve_left Bool.false_ne_true
        cases hlead : m.isLeading with
        | true => exact ⟨_, .none, h.deliver_founding oracle hlead htaken⟩
        | false =>
          obtain ⟨pend', hinv⟩ := h.deliver_request oracle hanswer hlead htaken
          exact ⟨table, pend', hinv⟩
      | wholeMemberTable m snapshot => exact ⟨table, .delta p m, h.deliver_snapshot htaken⟩
      | deltaMember m pos => exact ⟨_, .none, h.deliver_delta oracle htaken⟩
      | memberStatus pos status =>
        have hanswer := hguard.resolve_left Bool.false_ne_true
        exact ⟨_, pend, h.deliver_status oracle hanswer htaken⟩
      | wholePartitionTable evt | deltaPartitions evt | partitionStatus evt => cases hkind
    · cases hstep

theorem inv_of_serial {oracle : ℕ → BalanceOracle} {cluster : ClusterConfig}
    {cfg : MemberAddress → Member} {s : State}
    (hrun : Common.Reaches (step oracle) Serial (init cluster cfg) s) :
    ∃ table pend, Inv table pend s :=
  hrun.invariant (P := fun s => ∃ table pend, Inv table pend s) ⟨[], .none, inv_init cluster cfg⟩
    fun _ _ _ ⟨_, _, h⟩ hserial hstep => h.step hserial hstep

section

variable {table : List Member} {pend : Pending} {s : State} (h : Inv table pend s)

include h

theorem Inv.memberOk
    {p : MemberAddress} (hp : IsMember s p) : ∃ i, MemberOk table pend p (s.nodes p) i := by
  rcases h.nodes p hp.1 with hmember | hstranger
  · exact hmember
  · exact absurd (getLocalMember_of_stranger hstranger.1) hp.2

/-- A member's table is the common one, or it has reserved the next position for a joiner. -/
theorem Inv.memberTable (p : MemberAddress) :
    pend.memberTable table p = table ∨ (pend.memberTable table p = (Node.findAddPos table).2 ∧
      ∃ m, (p, .deltaMember m (Node.findAddPos table).1) ∈ s.flight) := by
  have hmem : ∀ x ∈ pend.traffic table, x ∈ s.flight := fun x hx =>
    (mem_filter.mp (h.traffic ▸ hx)).1
  cases pend with
  | none => exact .inl rfl
  | founding a m => exact .inl rfl
  | snapshot l m =>
    by_cases hp : p = l
    · subst hp
      exact .inr ⟨if_pos rfl, m, hmem _ (mem_cons_of_mem _ mem_cons_self)⟩
    · exact .inl (if_neg hp)
  | delta l m =>
    by_cases hp : p = l
    · subst hp
      exact .inr ⟨if_pos rfl, m, hmem _ mem_cons_self⟩
    · exact .inl (if_neg hp)

/-- The delta in flight is the one of the pending join. -/
theorem Inv.delta_unique
    {r : MemberAddress} {m : Member} {i : ℕ} (hdelta : (r, .deltaMember m i) ∈ s.flight) :
    i = (Node.findAddPos table).1 ∧ (pend = .snapshot r m ∨ pend = .delta r m) := by
  have hmem : (r, Multicast.deltaMember m i) ∈ pend.traffic table :=
    h.traffic ▸ mem_filter.mpr ⟨hdelta, rfl⟩
  cases pend with
  | none => cases hmem
  | founding a m' => simp [Pending.traffic] at hmem
  | snapshot l m' =>
    simp only [Pending.traffic, mem_cons, Prod.mk.injEq, reduceCtorEq, and_false,
      Multicast.deltaMember.injEq, not_mem_nil, or_false, false_or] at hmem
    obtain ⟨rfl, rfl, rfl⟩ := hmem
    exact ⟨rfl, .inl rfl⟩
  | delta l m' =>
    simp only [Pending.traffic, mem_cons, Prod.mk.injEq, Multicast.deltaMember.injEq,
      not_mem_nil, or_false] at hmem
    obtain ⟨rfl, rfl, rfl⟩ := hmem
    exact ⟨rfl, .inr rfl⟩

theorem Inv.agree :
    Agree s where
  same := by
    intro p q hp hq i
    obtain ⟨j, hj⟩ := h.memberOk hp
    obtain ⟨k, hk⟩ := h.memberOk hq
    rw [hj.members, hk.members]
    by_cases hi : i = (Node.findAddPos table).1
    · subst hi
      rcases h.memberTable p with hptable | ⟨-, m, hm⟩
      · rcases h.memberTable q with hqtable | ⟨-, m, hm⟩
        · rw [hptable, hqtable]
          exact .inl rfl
        · exact .inr ⟨m, .inr hm⟩
      · exact .inr ⟨m, .inl hm⟩
    · left
      have hentry : ∀ p, (pend.memberTable table p)[i]? = table[i]? := by
        intro p
        rcases h.memberTable p with hptable | ⟨hptable, -⟩
        · rw [hptable]
        · rw [hptable, getElem?_findAddPos hi]
      rw [hentry, hentry]
  own := by
    intro p hp
    obtain ⟨i, hi⟩ := h.memberOk hp
    refine ⟨i, hi.index, ?_, ?_⟩
    · rw [hi.entry]
      exact hi.address
    · rw [hi.entry]
      exact h.sound.ids i hi.lt
  positions := by
    intro p q hp hq heq
    obtain ⟨i, hi⟩ := h.memberOk hp
    obtain ⟨j, hj⟩ := h.memberOk hq
    rw [hi.index, hj.index] at heq
    obtain rfl := Int.ofNat.inj heq
    exact hi.unique hj
  handed := by
    intro r m i hdelta
    obtain ⟨rfl, hpend⟩ := h.delta_unique hdelta
    refine ⟨fun p hp heq => ?_, fun r' m' hdelta' => ?_⟩
    · obtain ⟨j, hj⟩ := h.memberOk hp
      rw [hj.index] at heq
      exact hj.ne_findAddPos (Int.ofNat.inj heq)
    · obtain ⟨-, hpend'⟩ := h.delta_unique hdelta'
      rcases hpend with rfl | rfl <;> rcases hpend' with heq | heq <;> cases heq <;> rfl
  taken := by
    intro p hp i hstate
    obtain ⟨j, hj⟩ := h.memberOk hp
    rw [hj.members] at hstate
    rcases h.memberTable p with hptable | ⟨hptable, hdelta⟩
    · rw [hptable] at hstate
      exact absurd hstate (h.sound.taken i)
    · rw [hptable] at hstate
      by_cases hi : i = (Node.findAddPos table).1
      · subst hi
        exact hdelta
      · rw [getD_eq_getElem?_getD, getElem?_findAddPos hi, ← getD_eq_getElem?_getD] at hstate
        exact absurd hstate (h.sound.taken i)

end

instance (s : State) (p : MemberAddress) : Decidable (IsMember s p) :=
  inferInstanceAs (Decidable (_ ∧ _))

/-- Three processes without a store, on ports of their own. -/
def processCfg (p : MemberAddress) : Member :=
  { publicAddress := p.nodeid.toNat, localStore := false }

def processA : MemberAddress := ⟨1, 1⟩
def processB : MemberAddress := ⟨2, 1⟩
def processC : MemberAddress := ⟨3, 1⟩

/-- Without a store nothing is balanced. -/
def noBalance : ℕ → BalanceOracle := fun _ => ⟨id, fun _ _ => 0⟩

/-- Nobody has joined yet. -/
def nobody : State := init ⟨1, 1⟩ processCfg

/-- Process A founds the group and B joins it. -/
def joinsOfTwo : List Step :=
  [.change [] [processA], .deliver processA, .deliver processA, .change [] [processB],
    .deliver processB, .deliver processA, .deliver processA, .deliver processA]

/-- Runs in which the answer to a joiner is disturbed, with two members that end with different
tables: a second request, a change of state and a leave behind the snapshot, a process that joins
before the founder is in its table, and a group of two founders. -/
def disturbedRuns : List (List Step × MemberAddress × MemberAddress) :=
  [([.change [] [processA], .deliver processA, .deliver processA, .change [] [processB],
      .change [] [processC], .deliver processB, .deliver processC, .deliver processA,
      .deliver processA, .deliver processA, .deliver processA], processA, processC),
    ([.change [] [processA], .deliver processA, .deliver processA, .change [] [processB],
      .status processA .active, .deliver processB, .deliver processA, .deliver processA,
      .deliver processA], processA, processB),
    (joinsOfTwo ++ [.change [] [processC], .deliver processC, .deliver processA,
      .change [processB] [], .deliver processA], processA, processC),
    ([.change [] [processA], .change [] [processB], .deliver processA, .deliver processA,
      .deliver processB, .deliver processA, .deliver processA], processA, processB),
    ([.change [] [processA, processB], .deliver processA, .deliver processB, .deliver processA,
      .deliver processA, .deliver processB, .change [] [processC], .deliver processC,
      .deliver processA, .deliver processA, .deliver processB, .deliver processB], processA,
      processC)]

end Membership

end Idgs.Cluster
