import Idgs.Common.Lists
import Idgs.Net.InnerTcp

/-!
# Members stay connected when errors are noticed in time

Of two members the one with the larger id connects. Once it has heard that both are PREPARED it has
a connection for the other's id that goes to it, or will when the next attempt is made, unless an
older connection was in the way.
-/

namespace Idgs.Net.InnerTcp

open Function List

/-! ## Events about one id -/

/-- The event is about the id. -/
def about (id : ℕ) (e : ℕ × Member) : Option Member := if e.1 = id then some e.2 else none

/-- The events about an id that a process has still to handle. -/
def pending (s : InnerTcp) (p id : ℕ) : List Member := (s.events p).filterMap (about id)

/-- The entry after some events. -/
def lastEntry (entry : Option Member) (ms : List Member) : Option Member :=
  ms.foldl (fun _ m => some m) entry

/-- A member becomes ACTIVE only when it is PREPARED. -/
def Orderly (entry : Option Member) : List Member → Prop
  | [] => True
  | m :: ms => (m.state = .active → entry = some ⟨m.process, .prepared⟩) ∧ Orderly (some m) ms

theorem lastEntry_append (entry : Option Member) (ms : List Member) (m : Member) :
    lastEntry entry (ms ++ [m]) = some m := by
  unfold lastEntry
  rw [foldl_append]
  rfl

theorem orderly_append {entry : Option Member} {ms : List Member} {m : Member}
    (h : Orderly entry ms)
    (hm : m.state = .active → lastEntry entry ms = some ⟨m.process, .prepared⟩) :
    Orderly entry (ms ++ [m]) := by
  induction ms generalizing entry with
  | nil => exact ⟨hm, trivial⟩
  | cons m' ms ih => exact ⟨h.1, ih h.2 hm⟩

theorem about_self (id : ℕ) (m : Member) : about id (id, m) = some m := if_pos rfl

theorem about_of_ne {id : ℕ} {e : ℕ × Member} (h : e.1 ≠ id) : about id e = none := if_neg h

/-- Handling the first event about an id takes it off. -/
theorem filterMap_about_eraseIdx {l : List (ℕ × Member)} {k id : ℕ} {m : Member}
    (hk : l[k]? = some (id, m)) (hfirst : ∀ e ∈ l.take k, e.1 ≠ id) :
    l.filterMap (about id) = m :: (l.eraseIdx k).filterMap (about id) := by
  obtain ⟨hlt, hget⟩ := List.getElem?_eq_some_iff.mp hk
  have hnone : (l.take k).filterMap (about id) = [] :=
    filterMap_eq_nil_iff.mpr fun e he => about_of_ne (hfirst e he)
  conv_lhs => rw [← take_append_drop k l, drop_eq_getElem_cons hlt, hget]
  rw [filterMap_append, hnone, nil_append, filterMap_cons_some (about_self id m),
    eraseIdx_eq_take_drop_succ, filterMap_append, hnone, nil_append]

/-- The events about other ids are the same. -/
theorem filterMap_about_eraseIdx_of_ne {l : List (ℕ × Member)} {k id id' : ℕ} {m : Member}
    (hk : l[k]? = some (id, m)) (hne : id ≠ id') :
    (l.eraseIdx k).filterMap (about id') = l.filterMap (about id') := by
  obtain ⟨hlt, hget⟩ := List.getElem?_eq_some_iff.mp hk
  conv_rhs => rw [← take_append_drop k l, drop_eq_getElem_cons hlt, hget]
  rw [filterMap_append, filterMap_cons_none (about_of_ne hne),
    eraseIdx_eq_take_drop_succ, filterMap_append]

/-! ## The invariant -/

/-- What a process knows and has still to hear about the members is right. -/
structure InformedAt (s : InnerTcp) (p : ℕ) : Prop where
  view : ∀ id, lastEntry (s.memberTable p id) (s.pending p id) = s.member id
  orderly : ∀ id, Orderly (s.memberTable p id) (s.pending p id)
  own : ∀ m ∈ s.pending p (s.id p), m.state.isReady = true
  entry : ∀ id m, s.memberTable p id = some m ∨ m ∈ s.pending p id →
    m.process < s.nextProcess ∧ s.id m.process = id

/-- The members are processes with their ids, and know about each other. -/
structure Informed (s : InnerTcp) : Prop where
  member : ∀ id m, s.member id = some m → m.process < s.nextProcess ∧ s.id m.process = id
  live : ∀ p, s.Live p → s.InformedAt p

/-- What holds of the connections by themselves. -/
structure Sockets (s : InnerTcp) : Prop where
  endPoint : ∀ p id q, s.endPoint p id = some q → q < s.nextProcess ∧ s.id q = id
  registered : ∀ p id c, s.connections p id = some c →
    c < s.nextConnection ∧ (s.connection c).owner = p ∧ (s.connection c).peerMemberId = id
  ends : ∀ c < s.nextConnection, (s.connection c).owner < s.nextProcess ∧
    (s.connection c).remote < s.nextProcess ∧
    s.id (s.connection c).remote = (s.connection c).peerMemberId
  fresh : ∀ c, s.nextConnection ≤ c → (s.connection c).state = .terminated
  terminated : ∀ c < s.nextConnection, (s.connection c).state = .terminated →
    ¬ s.Live (s.connection c).remote
  connecting : ∀ c retry established, (s.connection c).state = .connecting retry established →
    (s.connection c).peerMemberId < s.id (s.connection c).owner
  handshakes : ∀ c ∈ s.handshakes, c < s.nextConnection ∧
    (s.connection c).peerMemberId < s.id (s.connection c).owner
  accepted : ∀ c < s.nextConnection, (s.connection c).state = .ready →
    s.Live (s.connection c).owner →
    s.Live (s.connection c).remote → (s.connection c).peerMemberId < s.id (s.connection c).owner →
    c ∈ s.handshakes ∨ ∃ c', s.connections (s.connection c).remote (s.id (s.connection c).owner) =
    some c' ∧
      (s.connection c').remote = (s.connection c).owner

/-- The connection goes to the process, or the next attempt will be made to it. -/
def LeadsTo (s : InnerTcp) (c q : ℕ) : Prop :=
  (s.connection c).remote = q ∨
    (∃ retry < 3, (s.connection c).state = .connecting retry false) ∧
    ¬ s.Live (s.connection c).remote ∧
      s.endPoint (s.connection c).owner (s.connection c).peerMemberId = some q

/-- A member that is PREPARED or ACTIVE in the table of the process has a connection there. -/
def Linked (s : InnerTcp) (p id : ℕ) : Prop :=
  ∀ m, s.memberTable p id = some m → m.state.isReady = true → s.Live m.process →
    ∃ c, s.connections p id = some c ∧ s.LeadsTo c m.process

/-- The invariant. -/
structure Inv (s : InnerTcp) : Prop where
  informed : s.Informed
  sockets : s.Sockets
  linked : ∀ p, s.Live p → s.localReady p = true → ∀ id < s.id p, s.Linked p id
  unlinked : ∀ p, s.Live p → s.localReady p = false → ∀ id < s.id p, s.connections p id = none

/-! ## Members -/

section Steps

variable {s s' : InnerTcp}

theorem Live.lt (h : s.Informed) {p : ℕ} (hp : s.Live p) : p < s.nextProcess := by
  obtain ⟨m, hm, rfl, -⟩ := hp
  exact (h.member _ m hm).1

/-- Members with the same id are the same process. -/
theorem Live.eq {p q : ℕ} (hp : s.Live p) (hq : s.Live q) (hid : s.id p = s.id q) : p = q := by
  obtain ⟨m, hm, rfl, -⟩ := hp
  obtain ⟨m', hm', rfl, -⟩ := hq
  rw [hid, Option.mem_def.mp hm'] at hm
  exact congrArg Member.process (Option.some.inj hm).symm

/-- The connections are the same, and processes have at most left. -/
structure Leaves (s s' : InnerTcp) : Prop where
  id : ∀ p < s.nextProcess, s'.id p = s.id p
  nextProcess : s.nextProcess ≤ s'.nextProcess
  live : ∀ p < s.nextProcess, s'.Live p → s.Live p
  endPoint : s'.endPoint = s.endPoint
  connections : s'.connections = s.connections
  connection : s'.connection = s.connection
  nextConnection : s'.nextConnection = s.nextConnection
  handshakes : s'.handshakes = s.handshakes

theorem Leaves.sockets (h : Leaves s s') (hs : s.Sockets) : s'.Sockets where
  endPoint := fun p id q hq => by
    rw [h.endPoint] at hq
    obtain ⟨hlt, hid⟩ := hs.endPoint p id q hq
    exact ⟨Nat.lt_of_lt_of_le hlt h.nextProcess, (h.id q hlt).trans hid⟩
  registered := by
    rw [h.connections, h.connection, h.nextConnection]
    exact hs.registered
  ends := fun c hc => by
    rw [h.nextConnection] at hc
    obtain ⟨howner, hremote, hid⟩ := hs.ends c hc
    rw [h.connection, h.id _ hremote]
    exact ⟨Nat.lt_of_lt_of_le howner h.nextProcess, Nat.lt_of_lt_of_le hremote h.nextProcess, hid⟩
  fresh := by
    rw [h.connection, h.nextConnection]
    exact hs.fresh
  terminated := fun c hc hstate hlive => by
    rw [h.nextConnection] at hc
    rw [h.connection] at hstate hlive
    exact hs.terminated c hc hstate (h.live _ (hs.ends c hc).2.1 hlive)
  connecting := fun c retry established hstate => by
    rw [h.connection] at hstate ⊢
    have hc : c < s.nextConnection := by
      by_contra hge
      rw [hs.fresh c (Nat.not_lt.mp hge)] at hstate
      cases hstate
    rw [h.id _ (hs.ends c hc).1]
    exact hs.connecting c retry established hstate
  handshakes := fun c hc => by
    rw [h.handshakes] at hc
    obtain ⟨hlt, hpeer⟩ := hs.handshakes c hc
    rw [h.connection, h.nextConnection, h.id _ (hs.ends c hlt).1]
    exact ⟨hlt, hpeer⟩
  accepted := fun c hc hstate howner hremote hpeer => by
    rw [h.nextConnection] at hc
    obtain ⟨hownerlt, hremotelt, -⟩ := hs.ends c hc
    rw [h.connection] at hstate howner hremote hpeer ⊢
    rw [h.connections, h.handshakes, h.id _ hownerlt]
    rw [h.id _ hownerlt] at hpeer
    exact hs.accepted c hc hstate (h.live _ hownerlt howner) (h.live _ hremotelt hremote) hpeer

theorem Leaves.linked (h : Leaves s s') (hs : s.Sockets) {p id : ℕ}
    (htable : s'.memberTable p id = s.memberTable p id)
    (hentry : ∀ m, s.memberTable p id = some m → m.process < s.nextProcess)
    (hlinked : s.Linked p id) :
    s'.Linked p id := by
  intro m hm hready hlive
  rw [htable] at hm
  obtain ⟨c, hc, hleads⟩ := hlinked m hm hready (h.live _ (hentry m hm) hlive)
  refine ⟨c, h.connections ▸ hc, ?_⟩
  unfold LeadsTo at hleads ⊢
  rw [h.connection, h.endPoint]
  refine hleads.imp_right fun ⟨hretry, hdead, hend⟩ =>
    ⟨hretry, fun hlive => hdead (h.live _ ?_ hlive), hend⟩
  exact (hs.ends c (hs.registered p id c hc).1).2.1

/-! ## Joining and leaving -/

section

variable (s : InnerTcp)

theorem member_setMember (id : ℕ) (m : Member) :
    (s.setMember id m).member = update s.member id (some m) := rfl

theorem member_setMember_self (id : ℕ) (m : Member) :
    (s.setMember id m).member id = some m := by
  rw [member_setMember, update_self]

theorem member_setMember_of_ne {id id' : ℕ} (m : Member) (h : id' ≠ id) :
    (s.setMember id m).member id' = s.member id' := by
  rw [member_setMember, update_of_ne h]

theorem pending_setMember (id : ℕ) (m : Member) (p id' : ℕ) :
    (s.setMember id m).pending p id' = s.pending p id' ++ (about id' (id, m)).toList := by
  unfold pending setMember
  rw [filterMap_append]
  refine congrArg ((s.events p).filterMap (about id') ++ ·) ?_
  cases h : about id' (id, m) with
  | none => exact filterMap_cons_none h
  | some m' => exact filterMap_cons_some h

end

/-- A new state of a member is told to all processes. -/
theorem InformedAt.setMember {p : ℕ} (h : s.InformedAt p) {id : ℕ} {m : Member}
    (hm : m.process < s.nextProcess ∧ s.id m.process = id)
    (hown : s.id p = id → m.state.isReady = true)
    (hactive : m.state = .active → s.member id = some ⟨m.process, .prepared⟩) :
    (s.setMember id m).InformedAt p where
  view := fun id' => by
    rw [pending_setMember]
    by_cases hid : id' = id
    · subst hid
      rw [about_self, member_setMember_self]
      exact lastEntry_append _ _ m
    · rw [about_of_ne (Ne.symm hid), Option.toList_none, append_nil, member_setMember_of_ne s m hid]
      exact h.view id'
  orderly := fun id' => by
    rw [pending_setMember]
    by_cases hid : id' = id
    · subst hid
      rw [about_self]
      exact orderly_append (h.orderly id') fun hstate => (h.view id').trans (hactive hstate)
    · rw [about_of_ne (Ne.symm hid), Option.toList_none, append_nil]
      exact h.orderly id'
  own := fun m' hm' => by
    rw [pending_setMember] at hm'
    rcases mem_append.mp hm' with hm' | hm'
    · exact h.own m' hm'
    · by_cases hid : s.id p = id
      · rw [show about ((s.setMember id m).id p) (id, m) = some m from hid ▸ about_self _ m] at hm'
        obtain rfl := mem_singleton.mp hm'
        exact hown hid
      · rw [show about ((s.setMember id m).id p) (id, m) =
          none from about_of_ne (Ne.symm hid)] at hm'
        exact absurd hm' not_mem_nil
  entry := fun id' m' hor => by
    rw [pending_setMember] at hor
    rcases hor with htable | hmem
    · exact h.entry id' m' (.inl htable)
    rcases mem_append.mp hmem with hmem | hmem
    · exact h.entry id' m' (.inr hmem)
    · by_cases hid : id = id'
      · subst hid
        rw [about_self] at hmem
        obtain rfl := mem_singleton.mp hmem
        exact hm
      · rw [about_of_ne hid] at hmem
        exact absurd hmem not_mem_nil

/-- The members after a change. -/
theorem member_of_setMember {id id' : ℕ} {m m' : Member}
    (hm' : (s.setMember id m).member id' = some m') :
    (id' = id ∧ m' = m) ∨ (id' ≠ id ∧ s.member id' = some m') := by
  by_cases hid : id' = id
  · rw [hid, member_setMember_self] at hm'
    exact .inl ⟨hid, (Option.some.inj hm').symm⟩
  · rw [member_setMember_of_ne s m hid] at hm'
    exact .inr ⟨hid, hm'⟩

/-- The connections stay when a member's state changes or it leaves. -/
theorem Inv.setMember (h : s.Inv) {id : ℕ} {m : Member}
    (hm : m.process < s.nextProcess ∧ s.id m.process = id)
    (hlive : ∀ p, (s.setMember id m).Live p → s.Live p ∧ (s.id p = id → m.state.isReady = true))
    (hactive : m.state = .active → s.member id = some ⟨m.process, .prepared⟩) :
    (s.setMember id m).Inv := by
  have hleaves : Leaves s (s.setMember id m) :=
    ⟨fun _ _ => rfl, Nat.le_refl _, fun p _ hp => (hlive p hp).1, rfl, rfl, rfl, rfl, rfl⟩
  refine ⟨⟨fun id' m' hm' => ?_, fun p hp => ?_⟩, hleaves.sockets h.sockets,
    fun p hp hlocal id' hid => ?_,
    fun p hp hlocal id' hid => h.unlinked p (hlive p hp).1 hlocal id' hid⟩
  · rcases member_of_setMember hm' with ⟨rfl, rfl⟩ | ⟨-, hold⟩
    · exact hm
    · exact h.informed.member id' m' hold
  · exact (h.informed.live p (hlive p hp).1).setMember hm (hlive p hp).2 hactive
  · refine hleaves.linked h.sockets rfl (fun m' hm' =>
      ?_) (h.linked p (hlive p hp).1 hlocal id' hid)
    exact ((h.informed.live p (hlive p hp).1).entry id' m' (.inl hm')).1

/-- Who is a member after a change. -/
theorem live_setMember {id : ℕ} {m : Member} {p : ℕ} (hp : (s.setMember id m).Live p) :
    (s.id p = id ∧ m.process = p ∧ m.state ≠ .inactive) ∨ (s.id p ≠ id ∧ s.Live p) := by
  obtain ⟨m', hm', hprocess, hstate⟩ := hp
  rcases member_of_setMember hm' with ⟨hid, rfl⟩ | ⟨hid, hold⟩
  · exact .inl ⟨hid, hprocess, hstate⟩
  · exact .inr ⟨hid, m', hold, hprocess, hstate⟩

theorem member_of_liveMember {id : ℕ} {m : Member} (hm : s.liveMember id = some m) :
    s.member id = some m ∧ m.state ≠ .inactive := by
  obtain ⟨m', hm', hif⟩ := Option.bind_eq_some_iff.mp hm
  split at hif
  · cases hif
  · rename_i hstate
    obtain rfl := Option.some.inj hif
    exact ⟨hm', hstate⟩

/-- A member's state changes. -/
theorem Inv.setState (h : s.Inv) {id : ℕ} {m : Member} (hm : s.liveMember id = some m)
    {state : MemberState}
    (hstate : m.state = .joined ∧ state = .prepared ∨ m.state = .prepared ∧ state = .active) :
    (s.setMember id { m with state := state }).Inv := by
  obtain ⟨hmember, hactive⟩ := member_of_liveMember hm
  have hready : state.isReady = true := by
    rcases hstate with ⟨-, rfl⟩ | ⟨-, rfl⟩ <;> rfl
  refine h.setMember (h.informed.member id m hmember) (fun p hp =>
    ⟨?_, fun _ => hready⟩) fun hnew => ?_
  · rcases live_setMember hp with ⟨hid, hprocess, -⟩ | ⟨-, hold⟩
    · exact ⟨m, hid ▸ hmember, hprocess, hactive⟩
    · exact hold
  · rcases hstate with ⟨-, rfl⟩ | ⟨hprepared, -⟩
    · cases hnew
    · rw [hmember, ← hprepared]

/-- A member leaves. -/
theorem Inv.leave (h : s.Inv) {id : ℕ} {m : Member} (hm : s.liveMember id = some m) :
    (s.setMember id { m with state := .inactive }).Inv := by
  obtain ⟨hmember, -⟩ := member_of_liveMember hm
  refine h.setMember (h.informed.member id m hmember) (fun p hp => ?_) fun hnew => by cases hnew
  rcases live_setMember hp with ⟨-, -, hstate⟩ | ⟨hid, hold⟩
  · exact absurd rfl hstate
  · exact ⟨hold, fun heq => absurd heq hid⟩

/-- A process gets an id. -/
def assign (s : InnerTcp) (id : ℕ) : InnerTcp :=
  { s with id := Function.update s.id s.nextProcess id, nextProcess := s.nextProcess + 1 }

theorem id_assign_of_lt (s : InnerTcp) (id : ℕ) {p : ℕ} (hp : p < s.nextProcess) :
    (s.assign id).id p = s.id p := by
  unfold assign
  exact update_of_ne (Nat.ne_of_lt hp) ..

theorem id_assign_self (s : InnerTcp) (id : ℕ) : (s.assign id).id s.nextProcess = id := by
  unfold assign
  exact update_self ..

theorem InformedAt.assign {p : ℕ} (h : s.InformedAt p) (hp : p < s.nextProcess) (id : ℕ) :
    (s.assign id).InformedAt p where
  __ := h
  own := by
    rw [id_assign_of_lt s id hp]
    exact h.own
  entry := fun id' m hor => by
    obtain ⟨hlt, hid⟩ := h.entry id' m hor
    exact ⟨Nat.lt_succ_of_lt hlt, (id_assign_of_lt s id hlt).trans hid⟩

/-- A process joins. -/
theorem Inv.join (h : s.Inv) (id : ℕ) : (s.join id).Inv := by
  have hid : ∀ p < s.nextProcess, (s.join id).id p = s.id p := fun p hp => id_assign_of_lt s id hp
  have hself : (s.join id).id s.nextProcess = id := id_assign_self s id
  have hmember : ∀ id' m, (s.join id).member id' = some m →
      (id' = id ∧ m = ⟨s.nextProcess, .joined⟩) ∨ (id' ≠ id ∧ s.member id' = some m) :=
      fun id' m hm =>
    member_of_setMember (s := s.assign id) hm
  have htable : ∀ p ≠ s.nextProcess, (s.join id).memberTable p = s.memberTable p := fun p hp =>
    update_of_ne hp ..
  have htableself : (s.join id).memberTable s.nextProcess = (s.join id).member :=
    update_self ..
  have hpending : ∀ p ≠ s.nextProcess, (s.join id).pending p =
      ((s.assign id).setMember id ⟨s.nextProcess, .joined⟩).pending p := by
    intro p hp
    funext id'
    exact congrArg (List.filterMap (about id')) (update_of_ne hp ..)
  have hevents : (s.join id).events s.nextProcess = [] := update_self ..
  have hpendingself : ∀ id', (s.join id).pending s.nextProcess id' = [] := fun id' =>
    congrArg (List.filterMap (about id')) hevents
  -- the processes that were there do not have the id
  have hlive : ∀ p, (s.join id).Live p →
      p = s.nextProcess ∨ (p < s.nextProcess ∧ s.Live p ∧ s.id p ≠ id) := by
    rintro p ⟨m, hm, rfl, hstate⟩
    rcases hmember _ m hm with ⟨-, rfl⟩ | ⟨hne, hold⟩
    · exact .inl rfl
    · obtain ⟨hlt, -⟩ := h.informed.member _ m hold
      rw [hid _ hlt] at hold hne
      exact .inr ⟨hlt, ⟨m, hold, rfl, hstate⟩, hne⟩
  have hmemberlt : ∀ id' m, (s.join id).member id' = some m →
      m.process < s.nextProcess + 1 ∧ (s.join id).id m.process = id' := by
    intro id' m hm
    rcases hmember id' m hm with ⟨rfl, rfl⟩ | ⟨-, hold⟩
    · exact ⟨Nat.lt_succ_self _, hself⟩
    · obtain ⟨hlt, hm⟩ := h.informed.member id' m hold
      exact ⟨Nat.lt_succ_of_lt hlt, (hid _ hlt).trans hm⟩
  have hleaves : Leaves s (s.join id) :=
    ⟨hid, Nat.le_succ _, fun p hp hl => by
      rcases hlive p hl with rfl | ⟨-, hold, -⟩
      · exact absurd hp (Nat.lt_irrefl _)
      · exact hold, rfl, rfl, rfl, rfl, rfl⟩
  refine ⟨⟨hmemberlt, fun p hp => ?_⟩, hleaves.sockets h.sockets, fun p hp hlocal id' hlt => ?_,
    fun p hp hlocal id' hlt => ?_⟩
  · rcases hlive p hp with rfl | ⟨hlt, hold, hne⟩
    · exact
        { view := fun id' => by rw [hpendingself, htableself]; rfl
          orderly := fun id' => by rw [hpendingself]; trivial
          own := fun m hm => by rw [hpendingself] at hm; exact absurd hm not_mem_nil
          entry := fun id' m hor => by
            rw [hpendingself, htableself] at hor
            exact hmemberlt id' m (hor.resolve_right not_mem_nil) }
    · have hne' := Nat.ne_of_lt hlt
      have hat := ((h.informed.live p hold).assign hlt id).setMember (m := ⟨s.nextProcess, .joined⟩)
        ⟨Nat.lt_succ_self _, hself⟩ (fun heq =>
          absurd ((id_assign_of_lt s id hlt).symm.trans heq) hne)
        fun hstate => by cases hstate
      exact
        { view := fun id' => by rw [hpending p hne', htable p hne']; exact hat.view id'
          orderly := fun id' => by rw [hpending p hne', htable p hne']; exact hat.orderly id'
          own := by rw [hpending p hne']; exact hat.own
          entry := fun id' m => by rw [hpending p hne', htable p hne']; exact hat.entry id' m }
  · rcases hlive p hp with rfl | ⟨hltp, hold, -⟩
    · unfold localReady at hlocal
      rw [hself, htableself, show (s.join id).member id = some ⟨s.nextProcess, .joined⟩ from
        member_setMember_self _ _ _] at hlocal
      cases hlocal
    · have htab := htable p (Nat.ne_of_lt hltp)
      rw [hid p hltp] at hlt
      unfold localReady at hlocal
      rw [hid p hltp, htab] at hlocal
      exact hleaves.linked h.sockets (congrFun htab id')
        (fun m hm => ((h.informed.live p hold).entry id' m (.inl hm)).1)
        (h.linked p hold hlocal id' hlt)
  · rcases hlive p hp with rfl | ⟨hltp, hold, -⟩
    · cases hc : s.connections s.nextProcess id' with
      | none => exact hc
      | some c =>
        obtain ⟨hclt, howner, -⟩ := h.sockets.registered _ _ c hc
        exact absurd (howner ▸ (h.sockets.ends c hclt).1) (Nat.lt_irrefl _)
    · rw [hid p hltp] at hlt
      unfold localReady at hlocal
      rw [hid p hltp, htable p (Nat.ne_of_lt hltp)] at hlocal
      exact h.unlinked p hold hlocal id' hlt

/-! ## Sockets -/

/-- The members and events are the same. -/
theorem Informed.of_eq (h : s.Informed) (hmember : s'.member = s.member) (hid : s'.id = s.id)
    (hnext : s'.nextProcess = s.nextProcess) (htable : s'.memberTable = s.memberTable)
    (hevents : s'.events = s.events) : s'.Informed := by
  cases s
  cases s'
  cases hmember
  cases hid
  cases hnext
  cases htable
  cases hevents
  exact ⟨h.member, fun p hp =>
    ⟨(h.live p hp).view, (h.live p hp).orderly, (h.live p hp).own, (h.live p hp).entry⟩⟩

/-- A connection changes, and its handshake may have been sent. -/
def setConnection (s : InnerTcp) (c : ℕ) (x : InnerTcpConnection) (handshakes : List ℕ) :
    InnerTcp :=
  { s with connection := Function.update s.connection c x, handshakes := handshakes }

theorem connection_setConnection_self (s : InnerTcp) (c : ℕ) (x : InnerTcpConnection)
    (handshakes : List ℕ) :
    (s.setConnection c x handshakes).connection c = x := by
  unfold setConnection
  exact update_self ..

theorem connection_setConnection_of_ne (s : InnerTcp) {c c' : ℕ} (x : InnerTcpConnection)
    (handshakes : List ℕ)
    (hne : c' ≠ c) : (s.setConnection c x handshakes).connection c' = s.connection c' := by
  unfold setConnection
  exact update_of_ne hne ..

/-- What a change of a connection must keep. -/
structure Keeps (s : InnerTcp) (c : ℕ) (x : InnerTcpConnection) (handshakes : List ℕ) : Prop where
  lt : c < s.nextConnection
  owner : x.owner = (s.connection c).owner
  peerMemberId : x.peerMemberId = (s.connection c).peerMemberId
  remote : x.remote < s.nextProcess ∧ s.id x.remote = x.peerMemberId
  moved : x.remote = (s.connection c).remote ∨ x.peerMemberId < s.id x.owner
  terminated : x.state = .terminated → ¬ s.Live x.remote
  connecting : ∀ retry established, x.state = .connecting retry established →
    x.peerMemberId < s.id x.owner
  ready : x.state = .ready → x.peerMemberId < s.id x.owner → c ∈ handshakes
  sent : ∀ c' ∈ s.handshakes, c' ∈ handshakes
  handshakes : ∀ c' ∈ handshakes, c' ∈ s.handshakes ∨ (c' = c ∧ x.peerMemberId < s.id x.owner)
  leadsTo : ∀ q, s.Live q → s.LeadsTo c q → x.remote = q ∨
    (∃ retry < 3, x.state = .connecting retry false) ∧ ¬ s.Live x.remote ∧
    s.endPoint x.owner x.peerMemberId = some q

theorem Sockets.setConnection (h : s.Sockets) {c : ℕ} {x : InnerTcpConnection} {handshakes : List ℕ}
    (hkeeps : Keeps s c x handshakes) : (s.setConnection c x handshakes).Sockets := by
  have hself := connection_setConnection_self s c x handshakes
  have hother : ∀ {c'}, c' ≠ c → (s.setConnection c x handshakes).connection c' = s.connection c' :=
    fun hne =>
    connection_setConnection_of_ne s x handshakes hne
  have hsame : ∀ c', ((s.setConnection c x handshakes).connection c').owner =
      (s.connection c').owner ∧
      ((s.setConnection c x handshakes).connection c').peerMemberId =
      (s.connection c').peerMemberId := by
    intro c'
    by_cases hc : c' = c
    · rw [hc, hself]
      exact ⟨hkeeps.owner, hkeeps.peerMemberId⟩
    · rw [hother hc]
      exact ⟨rfl, rfl⟩
  refine ⟨h.endPoint, fun p id c' hc' => ?_, fun c' hc' => ?_, fun c' hc' => ?_,
    fun c' hc' hstate => ?_,
    fun c' retry established hstate => ?_, fun c' hc' =>
    ?_, fun c' hc' hstate howner hremote hpeer => ?_⟩
  · rw [(hsame c').1, (hsame c').2]
    exact h.registered p id c' hc'
  · by_cases hc : c' = c
    · rw [hc, hself]
      exact ⟨hkeeps.owner ▸ (h.ends c hkeeps.lt).1, hkeeps.remote⟩
    · rw [hother hc]
      exact h.ends c' hc'
  · rw [hother (Nat.ne_of_gt (Nat.lt_of_lt_of_le hkeeps.lt hc'))]
    exact h.fresh c' hc'
  · by_cases hc : c' = c
    · rw [hc, hself] at hstate ⊢
      exact hkeeps.terminated hstate
    · rw [hother hc] at hstate ⊢
      exact h.terminated c' hc' hstate
  · by_cases hc : c' = c
    · rw [hc, hself] at hstate ⊢
      exact hkeeps.connecting retry established hstate
    · rw [hother hc] at hstate ⊢
      exact h.connecting c' retry established hstate
  · rcases hkeeps.handshakes c' hc' with hold | ⟨rfl, hpeer⟩
    · rw [(hsame c').1, (hsame c').2]
      exact h.handshakes c' hold
    · rw [hself]
      exact ⟨hkeeps.lt, hpeer⟩
  · by_cases hc : c' = c
    · rw [hc, hself] at hstate hpeer
      rw [hc]
      exact .inl (hkeeps.ready hstate hpeer)
    · rw [hother hc] at hstate howner hremote hpeer ⊢
      rcases h.accepted c' hc' hstate howner hremote hpeer with hsent | ⟨c₁, hc₁, hback⟩
      · exact .inl (hkeeps.sent c' hsent)
      · refine .inr ⟨c₁, hc₁, ?_⟩
        by_cases hc₁' : c₁ = c
        · rw [hc₁', hself]
          rcases hkeeps.moved with hremote | hless
          · rw [hremote, ← hc₁', hback]
          · -- an accepted connection goes to a larger id
            obtain ⟨-, hregowner, hregpeer⟩ := h.registered _ _ c₁ hc₁
            rw [hkeeps.owner, hkeeps.peerMemberId, ← hc₁', hregowner, hregpeer,
              (h.ends c' hc').2.2] at hless
            exact absurd (Nat.lt_trans hless hpeer) (Nat.lt_irrefl _)
        · rw [hother hc₁']
          exact hback

theorem Inv.setConnection (h : s.Inv) {c : ℕ} {x : InnerTcpConnection} (handshakes : List ℕ)
    (hkeeps : Keeps s c x handshakes) : (s.setConnection c x handshakes).Inv := by
  refine ⟨h.informed.of_eq rfl rfl rfl rfl rfl, h.sockets.setConnection hkeeps,
    fun p hp hlocal id hid => ?_, h.unlinked⟩
  intro m hm hready hlive
  obtain ⟨c', hc', hleads⟩ := h.linked p hp hlocal id hid m hm hready hlive
  refine ⟨c', hc', ?_⟩
  unfold LeadsTo
  by_cases hc : c' = c
  · rw [hc, connection_setConnection_self]
    exact hkeeps.leadsTo _ hlive (hc ▸ hleads)
  · rw [connection_setConnection_of_ne s x handshakes hc]
    exact hleads

/-- Connections that are not over have been made. -/
theorem Sockets.lt (h : s.Sockets) {c : ℕ} (hstate : (s.connection c).state ≠ .terminated) :
    c < s.nextConnection := by
  by_contra hge
  exact hstate (h.fresh c (Nat.not_lt.mp hge))

section

variable (h : s.Inv)

include h

/-- The state of a connection changes; one that will be tried again is not given up. -/
theorem Inv.setConnectionState {c : ℕ} {state : ConnectionState} (handshakes : List ℕ)
    (hstate : (s.connection c).state ≠ .terminated)
    (hterminated : state = .terminated → ¬ s.Live (s.connection c).remote)
    (hconnecting : ∀ retry established, state = .connecting retry established →
      (s.connection c).peerMemberId < s.id (s.connection c).owner)
    (hready : state = .ready → c ∈ handshakes) (hsent : ∀ c' ∈ s.handshakes, c' ∈ handshakes)
    (hhandshakes : ∀ c' ∈ handshakes, c' ∈ s.handshakes ∨
      (c' = c ∧ (s.connection c).peerMemberId < s.id (s.connection c).owner))
    (hkept : ∀ retry < 3, (s.connection c).state = .connecting retry false →
      s.Live (s.connection c).remote ∨
      s.endPoint (s.connection c).owner (s.connection c).peerMemberId = none) :
    (s.setConnection c { s.connection c with state := state } handshakes).Inv := by
  have hc := h.sockets.lt hstate
  refine h.setConnection handshakes ⟨hc, rfl, rfl, (h.sockets.ends c hc).2, .inl rfl, hterminated,
    hconnecting,
    fun hnew _ => hready hnew, hsent, hhandshakes, fun q _ hleads => ?_⟩
  rcases hleads with hremote | ⟨⟨retry, hretry, hold⟩, hdead, hend⟩
  · exact .inl hremote
  · rcases hkept retry hretry hold with hlive | hnone
    · exact absurd hlive hdead
    · rw [hnone] at hend
      cases hend

theorem Inv.establish {c retry : ℕ}
    (hstate : (s.connection c).state = .connecting retry false)
    (hremote : s.Live (s.connection c).remote) :
    (s.setConnectionState c (.connecting retry true)).Inv := by
  refine h.setConnectionState s.handshakes ?_ (fun hnew => by cases hnew)
    (fun _ _ _ => h.sockets.connecting c retry false hstate) (fun hnew => by cases hnew)
    (fun _ hc => hc)
    (fun _ hc => .inl hc) fun _ _ _ => .inl hremote
  rw [hstate]
  exact fun hnew => by cases hnew

theorem Inv.handleConnect {c retry : ℕ}
    (hstate : (s.connection c).state = .connecting retry true) :
    Inv { s.setConnectionState c .ready with handshakes := s.handshakes ++ [c] } := by
  refine h.setConnectionState (s.handshakes ++ [c]) ?_ (fun hnew => by cases hnew)
    (fun _ _ hnew => by cases hnew) (fun _ => mem_append_right _ mem_cons_self)
    (fun _ hc => mem_append_left _ hc) (fun c' hc' => ?_) fun retry' _ hold => ?_
  · rw [hstate]
    exact fun hnew => by cases hnew
  · rcases mem_append.mp hc' with hc' | hc'
    · exact .inl hc'
    · exact .inr ⟨mem_singleton.mp hc', h.sockets.connecting c retry true hstate⟩
  · rw [hstate] at hold
    cases hold

/-- A connection is given up: its peer has left, and it will not be tried again. -/
theorem Inv.terminate {c : ℕ} (hstate : (s.connection c).state ≠ .terminated)
    (hremote : ¬ s.Live (s.connection c).remote)
    (hlast : ∀ retry < 3, (s.connection c).state = .connecting retry false →
      s.endPoint (s.connection c).owner (s.connection c).peerMemberId = none) :
    (s.setConnectionState c .terminated).Inv :=
  h.setConnectionState s.handshakes hstate (fun _ => hremote) (fun _ _ hnew => by cases hnew)
    (fun hnew => by cases hnew) (fun _ hc => hc) (fun _ hc => .inl hc)
    fun retry hretry hold => .inr (hlast retry hretry hold)

theorem Inv.connectFails {c retry : ℕ}
    (hstate : (s.connection c).state = .connecting retry false)
    (hremote : ¬ s.Live (s.connection c).remote) : (s.connectFails c retry).Inv := by
  have hne : (s.connection c).state ≠ .terminated := by
    rw [hstate]
    exact fun hnew => by cases hnew
  have hpeer := h.sockets.connecting c retry false hstate
  unfold InnerTcp.connectFails
  dsimp only
  split
  · rename_i hretry
    split
    · rename_i q hend
      obtain ⟨hq, hid⟩ := h.sockets.endPoint _ _ q hend
      refine h.setConnection s.handshakes
        ⟨h.sockets.lt hne, rfl, rfl, ⟨hq, hid⟩, .inr hpeer, (fun hnew => by cases hnew),
          fun _ _ _ => hpeer,
          (fun hnew => by cases hnew), fun _ hc => hc, fun _ hc => .inl hc, fun q' hq' hleads => ?_⟩
      rcases hleads with rfl | ⟨-, -, hend'⟩
      · exact absurd hq' hremote
      · exact .inl (Option.some.inj (hend.symm.trans hend'))
    · rename_i hend
      exact h.terminate hne hremote fun _ _ _ => hend
  · rename_i hretry
    refine h.terminate hne hremote fun retry' hretry' hold => ?_
    obtain ⟨rfl, -⟩ := ConnectionState.connecting.inj (hstate.symm.trans hold)
    exact absurd hretry' hretry

theorem Inv.accept {i c : ℕ} (hc : s.handshakes[i]? = some c)
    (hremote : s.Live (s.connection c).remote) (htimely : s.Live (s.connection c).owner ∨
      ∀ c' ∈ s.connections (s.connection c).remote (s.id (s.connection c).owner), ¬ s.Live
      (s.connection c').remote) :
    (s.accept i c).Inv := by
  obtain ⟨hlt, hpeer⟩ := h.sockets.handshakes c (mem_of_getElem? hc)
  obtain ⟨howner, hremotelt, hid⟩ := h.sockets.ends c hlt
  rw [← hid] at hpeer
  have hnew : (s.accept i c).connection s.nextConnection =
      ⟨(s.connection c).remote, s.id (s.connection c).owner, (s.connection c).owner, .ready⟩ :=
      update_self ..
  have hold : ∀ c' < s.nextConnection, (s.accept i c).connection c' = s.connection c' :=
    fun c' hc' =>
    update_of_ne (Nat.ne_of_lt hc') ..
  have hconnections : (s.accept i c).connections =
      update s.connections (s.connection c).remote
      (update (s.connections (s.connection c).remote) (s.id (s.connection c).owner)
        (some s.nextConnection)) := rfl
  -- other entries are the same, in particular those for smaller ids
  have hentry : ∀ p id, ¬ (p = (s.connection c).remote ∧ id = s.id (s.connection c).owner) →
      (s.accept i c).connections p id = s.connections p id := by
    intro p id hne
    rw [hconnections]
    by_cases hp : p = (s.connection c).remote
    · rw [hp, update_self, update_of_ne fun hid => hne ⟨hp, hid⟩]
    · rw [update_of_ne hp]
  have hentryself : (s.accept i c).connections (s.connection c).remote
      (s.id (s.connection c).owner) =
      some s.nextConnection := by
    rw [hconnections, update_self, update_self]
  have hsmaller : ∀ p id, id < s.id p → (s.accept i c).connections p id = s.connections p id := by
    intro p id hless
    refine hentry p id ?_
    rintro ⟨rfl, rfl⟩
    exact absurd (Nat.lt_trans hless hpeer) (Nat.lt_irrefl _)
  have hcases : ∀ {c'}, c' < s.nextConnection + 1 → c' < s.nextConnection ∨ c' = s.nextConnection :=
    fun hc' =>
    Nat.lt_succ_iff_lt_or_eq.mp hc'
  refine ⟨h.informed.of_eq rfl rfl rfl rfl rfl,
    ⟨h.sockets.endPoint, fun p id c' hc' => ?_, fun c' hc' => ?_,
    fun c' hc' => ?_, fun c' hc' hstate => ?_, fun c' retry established hstate =>
    ?_, fun c' hc' => ?_,
    fun c' hc' hstate howner' hremote' hpeer' => ?_⟩, fun p hp hlocal id hless => ?_,
    fun p hp hlocal id hless => (hsmaller p id hless).trans (h.unlinked p hp hlocal id hless)⟩
  · by_cases hself : p = (s.connection c).remote ∧ id = s.id (s.connection c).owner
    · obtain ⟨rfl, rfl⟩ := hself
      rw [hentryself] at hc'
      obtain rfl := Option.some.inj hc'
      rw [hnew]
      exact ⟨Nat.lt_succ_self _, rfl, rfl⟩
    · rw [hentry p id hself] at hc'
      obtain ⟨hlt', hreg⟩ := h.sockets.registered p id c' hc'
      rw [hold c' hlt']
      exact ⟨Nat.lt_succ_of_lt hlt', hreg⟩
  · rcases hcases hc' with hlt' | rfl
    · rw [hold c' hlt']
      exact h.sockets.ends c' hlt'
    · rw [hnew]
      exact ⟨hremotelt, howner, rfl⟩
  · have hlt' : s.nextConnection < c' := hc'
    rw [show (s.accept i c).connection c' =
      s.connection c' from update_of_ne (Nat.ne_of_gt hlt') ..]
    exact h.sockets.fresh c' (Nat.le_of_lt hlt')
  · rcases hcases hc' with hlt' | rfl
    · rw [hold c' hlt'] at hstate ⊢
      exact h.sockets.terminated c' hlt' hstate
    · rw [hnew] at hstate
      cases hstate
  · by_cases hself : c' = s.nextConnection
    · rw [hself, hnew] at hstate
      cases hstate
    · rw [show (s.accept i c).connection c' =
        s.connection c' from update_of_ne hself ..] at hstate ⊢
      exact h.sockets.connecting c' retry established hstate
  · obtain ⟨hlt', hless⟩ := h.sockets.handshakes c' ((eraseIdx_sublist _ i).mem hc')
    rw [hold c' hlt']
    exact ⟨Nat.lt_succ_of_lt hlt', hless⟩
  · rcases hcases hc' with hlt' | rfl
    · rw [hold c' hlt'] at hstate howner' hremote' hpeer' ⊢
      have hidsame : (s.accept i c).id = s.id := rfl
      rw [hidsame] at hpeer' ⊢
      have hback : ∃ c₁,
          (s.accept i c).connections (s.connection c).remote (s.id (s.connection c).owner) =
          some c₁ ∧
          ((s.accept i c).connection c₁).remote = (s.connection c).owner :=
          ⟨_, hentryself, by rw [hnew]⟩
      rcases h.sockets.accepted c' hlt' hstate howner' hremote' hpeer' with hsent | ⟨c₁, hc₁,
        hremote₁⟩
      · rcases Common.eq_or_mem_eraseIdx hc hsent with rfl | hsent
        · exact .inr hback
        · exact .inl hsent
      · by_cases hself : (s.connection c').remote = (s.connection c).remote ∧
            s.id (s.connection c').owner = s.id (s.connection c).owner
        · obtain ⟨hsame, hsameid⟩ := hself
          rw [hsame, hsameid] at hc₁ ⊢
          rcases htimely with hliveowner | hdead
          · rw [Live.eq howner' hliveowner hsameid]
            exact .inr hback
          · exact absurd (hremote₁ ▸ howner') (hdead c₁ hc₁)
        · refine .inr ⟨c₁, (hentry _ _ hself).trans hc₁, ?_⟩
          rw [hold c₁ (h.sockets.registered _ _ c₁ hc₁).1]
          exact hremote₁
    · rw [hnew] at hpeer'
      exact absurd (Nat.lt_trans hpeer' hpeer) (Nat.lt_irrefl _)
  · intro m hm hready hlive
    obtain ⟨c', hc', hleads⟩ := h.linked p hp hlocal id hless m hm hready hlive
    refine ⟨c', (hsmaller p id hless).trans hc', ?_⟩
    unfold LeadsTo
    rw [hold c' (h.sockets.registered p id c' hc').1]
    exact hleads

/-- The table entry of a connection that is over is cleared. -/
theorem Inv.resetConnectionIfEq {c : ℕ}
    (hstate : (s.connection c).state = .terminated) :
    (s.resetConnectionIfEq c).Inv := by
  unfold InnerTcp.resetConnectionIfEq
  dsimp only
  split
  swap
  · exact h
  rename_i hregistered
  have hc := (h.sockets.registered _ _ c hregistered).1
  have hdead := h.sockets.terminated c hc hstate
  generalize hconnections : update s.connections (s.connection c).owner
    (update (s.connections (s.connection c).owner) (s.connection c).peerMemberId none) =
      connections
  have hentry : ∀ p id c', connections p id = some c' ↔ s.connections p id = some c' ∧ c' ≠ c := by
    intro p id c'
    rw [← hconnections]
    by_cases hp : p = (s.connection c).owner
    · rw [hp, update_self]
      by_cases hid : id = (s.connection c).peerMemberId
      · rw [hid, update_self, hregistered]
        exact ⟨(fun h' => by cases h'), fun h' => absurd (Option.some.inj h'.1).symm h'.2⟩
      · rw [update_of_ne hid]
        refine ⟨fun h' => ⟨h', ?_⟩, And.left⟩
        rintro rfl
        exact hid (h.sockets.registered _ _ c' h').2.2.symm
    · rw [update_of_ne hp]
      refine ⟨fun h' => ⟨h', ?_⟩, And.left⟩
      rintro rfl
      exact hp (h.sockets.registered _ _ c' h').2.1.symm
  refine ⟨h.informed.of_eq rfl rfl rfl rfl rfl,
    ⟨h.sockets.endPoint, fun p id c' hc' => ?_, h.sockets.ends,
    h.sockets.fresh, h.sockets.terminated, h.sockets.connecting, h.sockets.handshakes,
    fun c' hc' hready howner hremote hpeer => ?_⟩, fun p hp hlocal id hless =>
    ?_, fun p hp hlocal id hless => ?_⟩
  · exact h.sockets.registered p id c' ((hentry p id c').mp hc').1
  · refine (h.sockets.accepted c' hc' hready howner hremote hpeer).imp_right ?_
    rintro ⟨c₁, hc₁, hback⟩
    refine ⟨c₁, (hentry _ _ c₁).mpr ⟨hc₁, ?_⟩, hback⟩
    rintro rfl
    exact hdead (hback ▸ howner)
  · intro m hm hready hlive
    obtain ⟨c', hc', hleads⟩ := h.linked p hp hlocal id hless m hm hready hlive
    refine ⟨c', (hentry p id c').mpr ⟨hc', ?_⟩, hleads⟩
    rintro rfl
    rcases hleads with hremote | ⟨⟨retry, -, hconnecting⟩, -⟩
    · exact hdead (hremote ▸ hlive)
    · rw [hstate] at hconnecting
      cases hconnecting
  · cases hnone : connections p id with
    | none => exact hnone
    | some c' =>
      have hold := ((hentry p id c').mp hnone).1
      rw [h.unlinked p hp hlocal id hless] at hold
      cases hold

end

/-! ## The listener -/

/-- The table and the events of a process when it takes an event. -/
def takeEvent (s : InnerTcp) (p k id : ℕ) (m : Member) : InnerTcp :=
  { s with
    memberTable := Function.update s.memberTable p (Function.update (s.memberTable p) id (some m))
    events := Function.update s.events p ((s.events p).eraseIdx k) }

section

variable (s : InnerTcp)

theorem memberTable_takeEvent_self (p k id : ℕ) (m : Member) :
    (s.takeEvent p k id m).memberTable p id = some m := by
  unfold takeEvent
  dsimp only
  rw [update_self, update_self]

theorem memberTable_takeEvent_of_ne {p k id p' id' : ℕ} (m : Member)
    (hne : p' ≠ p ∨ id' ≠ id) :
    (s.takeEvent p k id m).memberTable p' id' = s.memberTable p' id' := by
  unfold takeEvent
  dsimp only
  by_cases hp : p' = p
  · rw [hp, update_self, update_of_ne (hne.resolve_left fun h => h hp)]
  · rw [update_of_ne hp]

theorem pending_takeEvent_of_ne {p p' : ℕ} (k id : ℕ) (m : Member) (hp : p' ≠ p) :
    (s.takeEvent p k id m).pending p' = s.pending p' := by
  unfold pending takeEvent
  dsimp only
  rw [update_of_ne hp]

theorem pending_takeEvent_self (p k id : ℕ) (m : Member) (id' : ℕ) :
    (s.takeEvent p k id m).pending p id' = ((s.events p).eraseIdx k).filterMap (about id') := by
  unfold pending takeEvent
  dsimp only
  rw [update_self]

end

/-- A process that takes the first event about an id is still informed. -/
theorem Informed.takeEvent (h : s.Informed) {p k id : ℕ} {m : Member}
    (hk : (s.events p)[k]? = some (id, m))
    (hfirst : ∀ e ∈ (s.events p).take k, e.1 ≠ id) : (s.takeEvent p k id m).Informed := by
  have hself : s.pending p id = m :: (s.takeEvent p k id m).pending p id := by
    rw [pending_takeEvent_self]
    exact filterMap_about_eraseIdx hk hfirst
  have hother : ∀ id' ≠ id, (s.takeEvent p k id m).pending p id' = s.pending p id' :=
    fun id' hne => by
    rw [pending_takeEvent_self]
    exact filterMap_about_eraseIdx_of_ne hk (Ne.symm hne)
  have hmem : ∀ id' m', m' ∈ (s.takeEvent p k id m).pending p id' → m' ∈ s.pending p id' := by
    intro id' m' hm'
    by_cases hid : id' = id
    · rw [hid] at hm' ⊢
      rw [hself]
      exact mem_cons_of_mem _ hm'
    · rw [hother id' hid] at hm'
      exact hm'
  refine ⟨h.member, fun p' hp' => ?_⟩
  have hat := h.live p' hp'
  by_cases hp : p' = p
  · rw [hp] at hat ⊢
    refine ⟨fun id' => ?_, fun id' => ?_, fun m' hm' => hat.own m' (hmem _ m' hm'),
      fun id' m' hor => ?_⟩
    · by_cases hid : id' = id
      · have hview := hat.view id
        rw [hself] at hview
        rw [hid, memberTable_takeEvent_self]
        exact hview
      · rw [hother id' hid, memberTable_takeEvent_of_ne s m (.inr hid)]
        exact hat.view id'
    · by_cases hid : id' = id
      · have horderly := hat.orderly id
        rw [hself] at horderly
        rw [hid, memberTable_takeEvent_self]
        exact horderly.2
      · rw [hother id' hid, memberTable_takeEvent_of_ne s m (.inr hid)]
        exact hat.orderly id'
    · rcases hor with htable | hpending
      · by_cases hid : id' = id
        · rw [hid, memberTable_takeEvent_self] at htable
          obtain rfl := Option.some.inj htable
          rw [hid]
          exact hat.entry id m (.inr (hself ▸ mem_cons_self))
        · rw [memberTable_takeEvent_of_ne s m (.inr hid)] at htable
          exact hat.entry id' m' (.inl htable)
      · exact hat.entry id' m' (.inr (hmem id' m' hpending))
  · have htable : ∀ id', (s.takeEvent p k id m).memberTable p' id' = s.memberTable p' id' :=
      fun id' =>
      memberTable_takeEvent_of_ne s m (.inl hp)
    have hpending := pending_takeEvent_of_ne s k id m hp
    exact
      { view := fun id' => by rw [hpending, htable]; exact hat.view id'
        orderly := fun id' => by rw [hpending, htable]; exact hat.orderly id'
        own := by rw [hpending]; exact hat.own
        entry := fun id' m' => by rw [hpending, htable]; exact hat.entry id' m' }

/-- The invariant but for the connections to smaller ids of one process. -/
structure InvExcept (p : ℕ) (s : InnerTcp) : Prop where
  informed : s.Informed
  sockets : s.Sockets
  linked : ∀ p' ≠ p, s.Live p' → s.localReady p' = true → ∀ id < s.id p', s.Linked p' id
  unlinked : ∀ p' ≠ p, s.Live p' → s.localReady p' = false →
    ∀ id < s.id p', s.connections p' id = none

/-- The rest of the invariant, for the process. -/
theorem InvExcept.inv {p : ℕ} (h : InvExcept p s)
    (hlinked : s.localReady p = true → ∀ id < s.id p, s.Linked p id)
    (hunlinked : s.localReady p = false → ∀ id < s.id p, s.connections p id = none) : s.Inv where
  __ := h
  linked := fun p' hlive hlocal => by
    by_cases hp : p' = p
    · subst hp
      exact hlinked hlocal
    · exact h.linked p' hp hlive hlocal
  unlinked := fun p' hlive hlocal => by
    by_cases hp : p' = p
    · subst hp
      exact hunlinked hlocal
    · exact h.unlinked p' hp hlive hlocal

/-- A process goes on: what is linked stays linked, and where nothing is registered nothing but a
new connection is. -/
structure Advances (p : ℕ) (s s' : InnerTcp) : Prop where
  inv : InvExcept p s'
  live : s'.Live p
  id : s'.id = s.id
  memberTable : s'.memberTable = s.memberTable
  linked : ∀ id, s.Linked p id → s'.Linked p id
  unlinked : ∀ id, s.connections p id = none → s'.Linked p id ∨ s'.connections p id = none

theorem Advances.trans {p : ℕ} {s'' : InnerTcp} (h : Advances p s s') (h' : Advances p s' s'') :
    Advances p s s'' where
  inv := h'.inv
  live := h'.live
  id := h'.id.trans h.id
  memberTable := h'.memberTable.trans h.memberTable
  linked := fun id hlinked => h'.linked id (h.linked id hlinked)
  unlinked := fun id hnone => by
    rcases h.unlinked id hnone with hlinked | hnone
    · exact .inl (h'.linked id hlinked)
    · exact h'.unlinked id hnone

theorem endPoint_putEndPoint_self (s : InnerTcp) (p id q : ℕ) :
    (s.putEndPoint p id q).endPoint p id = some q := by
  unfold putEndPoint
  dsimp only
  rw [update_self, update_self]

theorem endPoint_putEndPoint_of_ne (s : InnerTcp) {p id q p' id' : ℕ}
    (hne : ¬ (p' = p ∧ id' = id)) :
    (s.putEndPoint p id q).endPoint p' id' = s.endPoint p' id' := by
  unfold putEndPoint
  dsimp only
  by_cases hp : p' = p
  · rw [hp, update_self, update_of_ne fun hid => hne ⟨hp, hid⟩]
  · rw [update_of_ne hp]

/-- The end point of another id makes no difference. -/
theorem Linked.putEndPoint (h : s.Sockets) {p id q p' id' : ℕ} (hlinked : s.Linked p' id')
    (hne : ¬ (p' = p ∧ id' = id)) : (s.putEndPoint p id q).Linked p' id' := by
  intro m hm hready hlive
  obtain ⟨c, hc, hleads⟩ := hlinked m hm hready hlive
  obtain ⟨-, howner, hpeer⟩ := h.registered p' id' c hc
  refine ⟨c, hc, hleads.imp_right fun ⟨hretry, hdead, hend⟩ => ⟨hretry, hdead, ?_⟩⟩
  refine (endPoint_putEndPoint_of_ne s ?_).trans hend
  show ¬ ((s.connection c).owner = p ∧ (s.connection c).peerMemberId = id)
  rw [howner, hpeer]
  exact hne

/-- The end point of a member with that id is noted. -/
theorem InvExcept.putEndPoint {p id q : ℕ} (h : InvExcept p s)
    (hq : q < s.nextProcess ∧ s.id q = id) :
    InvExcept p (s.putEndPoint p id q) := by
  refine ⟨h.informed.of_eq rfl rfl rfl rfl rfl,
    ⟨fun p' id' q' hq' => ?_, h.sockets.registered, h.sockets.ends,
    h.sockets.fresh, h.sockets.terminated, h.sockets.connecting, h.sockets.handshakes,
    h.sockets.accepted⟩,
    fun p' hp' hlive hlocal id' hid' => ?_, h.unlinked⟩
  · by_cases hcase : p' = p ∧ id' = id
    · obtain ⟨rfl, rfl⟩ := hcase
      rw [endPoint_putEndPoint_self] at hq'
      obtain rfl := Option.some.inj hq'
      exact hq
    · rw [endPoint_putEndPoint_of_ne s hcase] at hq'
      exact h.sockets.endPoint p' id' q' hq'
  · exact (h.linked p' hp' hlive hlocal id' hid').putEndPoint h.sockets fun hcase => hp' hcase.1

/-- A new connection for an id. -/
def register (s : InnerTcp) (p id q : ℕ) : InnerTcp :=
  { s with
    connections :=
      Function.update s.connections p (Function.update (s.connections p) id (some s.nextConnection))
    connection := Function.update s.connection s.nextConnection ⟨p, id, q, .connecting 0 false⟩
    nextConnection := s.nextConnection + 1 }

theorem connect_of_none {p id q : ℕ} (hid : id < s.id p) (hnone : s.connections p id = none)
    (hend : s.endPoint p id = some q) : s.connect p id = s.register p id q := by
  unfold connect
  rw [if_neg (Nat.not_lt.mpr (Nat.le_of_lt hid)), hnone, hend]
  rfl

theorem connect_of_some {p id c : ℕ} (hc : s.connections p id = some c) : s.connect p id = s := by
  unfold connect
  rw [hc]
  split <;> rfl

section

variable (s : InnerTcp)

theorem connection_register_self (p id q : ℕ) :
    (s.register p id q).connection s.nextConnection = ⟨p, id, q, .connecting 0 false⟩ := by
  unfold register
  dsimp only
  rw [update_self]

theorem connection_register_of_ne {p id q c : ℕ} (hne : c ≠ s.nextConnection) :
    (s.register p id q).connection c = s.connection c := by
  unfold register
  dsimp only
  rw [update_of_ne hne]

theorem connections_register_self (p id q : ℕ) :
    (s.register p id q).connections p id = some s.nextConnection := by
  unfold register
  dsimp only
  rw [update_self, update_self]

theorem connections_register_of_ne {p id q p' id' : ℕ}
    (hne : ¬ (p' = p ∧ id' = id)) :
    (s.register p id q).connections p' id' = s.connections p' id' := by
  unfold register
  dsimp only
  by_cases hp : p' = p
  · rw [hp, update_self, update_of_ne fun hid => hne ⟨hp, hid⟩]
  · rw [update_of_ne hp]

end

/-- A new connection to a member with a smaller id. -/
theorem Sockets.register (h : s.Sockets) {p id q : ℕ} (hp : p < s.nextProcess)
    (hq : q < s.nextProcess ∧ s.id q = id) (hid : id < s.id p) : (s.register p id q).Sockets := by
  have hnew := connection_register_self s p id q
  have hold : ∀ c < s.nextConnection, (s.register p id q).connection c = s.connection c :=
    fun c hc =>
    connection_register_of_ne s (Nat.ne_of_lt hc)
  have hcases : ∀ {c}, c < s.nextConnection + 1 → c < s.nextConnection ∨ c = s.nextConnection :=
    fun hc =>
    Nat.lt_succ_iff_lt_or_eq.mp hc
  refine ⟨h.endPoint, fun p' id' c hc => ?_, fun c hc => ?_, fun c hc => ?_, fun c hc hstate => ?_,
    fun c retry established hstate => ?_, fun c hc =>
    ?_, fun c hc hstate howner hremote hpeer => ?_⟩
  · by_cases hself : p' = p ∧ id' = id
    · obtain ⟨rfl, rfl⟩ := hself
      rw [connections_register_self] at hc
      obtain rfl := Option.some.inj hc
      rw [hnew]
      exact ⟨Nat.lt_succ_self _, rfl, rfl⟩
    · rw [connections_register_of_ne s hself] at hc
      obtain ⟨hlt, hreg⟩ := h.registered p' id' c hc
      rw [hold c hlt]
      exact ⟨Nat.lt_succ_of_lt hlt, hreg⟩
  · rcases hcases hc with hlt | rfl
    · rw [hold c hlt]
      exact h.ends c hlt
    · rw [hnew]
      exact ⟨hp, hq⟩
  · have hlt : s.nextConnection < c := hc
    rw [connection_register_of_ne s (Nat.ne_of_gt hlt)]
    exact h.fresh c (Nat.le_of_lt hlt)
  · rcases hcases hc with hlt | rfl
    · rw [hold c hlt] at hstate ⊢
      exact h.terminated c hlt hstate
    · rw [hnew] at hstate
      cases hstate
  · by_cases hself : c = s.nextConnection
    · rw [hself, hnew]
      exact hid
    · rw [connection_register_of_ne s hself] at hstate ⊢
      exact h.connecting c retry established hstate
  · obtain ⟨hlt, hless⟩ := h.handshakes c hc
    rw [hold c hlt]
    exact ⟨Nat.lt_succ_of_lt hlt, hless⟩
  · rcases hcases hc with hlt | rfl
    · rw [hold c hlt] at hstate howner hremote hpeer ⊢
      refine (h.accepted c hlt hstate howner hremote hpeer).imp_right ?_
      rintro ⟨c', hc', hback⟩
      refine ⟨c', (connections_register_of_ne s ?_).trans hc', ?_⟩
      · -- an accepted connection is for a larger id
        rintro ⟨hsame, hsameid⟩
        have hless : (s.connection c).peerMemberId < s.id (s.connection c).owner := hpeer
        have hsameid' : s.id (s.connection c).owner = id := hsameid
        rw [← (h.ends c hlt).2.2, hsame, hsameid'] at hless
        exact absurd (Nat.lt_trans hless hid) (Nat.lt_irrefl _)
      · rw [hold c' (h.registered _ _ c' hc').1]
        exact hback
    · rw [hnew] at hstate
      cases hstate

/-- A connection for another id makes no difference. -/
theorem Linked.register (h : s.Sockets) {p id q p' id' : ℕ} (hlinked : s.Linked p' id')
    (hne : ¬ (p' = p ∧ id' = id)) : (s.register p id q).Linked p' id' := by
  intro m hm hready hlive
  obtain ⟨c, hc, hleads⟩ := hlinked m hm hready hlive
  refine ⟨c, (connections_register_of_ne s hne).trans hc, ?_⟩
  unfold LeadsTo
  rw [connection_register_of_ne s (Nat.ne_of_lt (h.registered p' id' c hc).1)]
  exact hleads

theorem InvExcept.register {p id q : ℕ} (h : InvExcept p s) (hp : p < s.nextProcess)
    (hq : q < s.nextProcess ∧ s.id q = id) (hid : id < s.id p) :
    InvExcept p (s.register p id q) where
  informed := h.informed.of_eq rfl rfl rfl rfl rfl
  sockets := h.sockets.register hp hq hid
  linked := fun p' hp' hlive hlocal id' hid' =>
    (h.linked p' hp' hlive hlocal id' hid').register h.sockets fun hcase => hp' hcase.1
  unlinked := fun p' hp' hlive hlocal id' hid' =>
    (connections_register_of_ne s fun hcase => hp' hcase.1).trans
    (h.unlinked p' hp' hlive hlocal id' hid')

/-- A process connects to a member with a smaller id; the connection that it may have for the id is
not in the way. -/
theorem InvExcept.connect {p id : ℕ} {m : Member} (h : InvExcept p s) (hp : s.Live p)
    (hid : id < s.id p)
    (hm : s.memberTable p id = some m) (hfree : s.Live m.process → s.FreeFor p id m.process) :
    Advances p s ((s.putEndPoint p id m.process).connect p id) ∧
      ((s.putEndPoint p id m.process).connect p id).Linked p id := by
  have hq := (h.informed.live p hp).entry id m (.inl hm)
  have hput := h.putEndPoint hq
  have hend := endPoint_putEndPoint_self s p id m.process
  cases hc : s.connections p id with
  | some c =>
    rw [connect_of_some (s := s.putEndPoint p id m.process) hc]
    have hlinked : (s.putEndPoint p id m.process).Linked p id := by
      intro m' hm' hready hlive
      obtain rfl := Option.some.inj (hm.symm.trans hm')
      obtain ⟨hlt, howner, hpeer⟩ := h.sockets.registered p id c hc
      refine ⟨c, hc, ?_⟩
      rcases hfree hlive c hc with hremote | hretry
      · exact .inl hremote
      · by_cases hliveremote : s.Live (s.connection c).remote
        · exact .inl
            (Live.eq hliveremote hlive (((h.sockets.ends c hlt).2.2.trans hpeer).trans hq.2.symm))
        · refine .inr ⟨hretry, hliveremote, ?_⟩
          change (s.putEndPoint p id m.process).endPoint (s.connection c).owner
            (s.connection c).peerMemberId = _
          rw [howner, hpeer]
          exact hend
    refine ⟨⟨hput, hp, rfl, rfl, fun id' hold => ?_, fun id' hnone => .inr hnone⟩, hlinked⟩
    by_cases hsame : id' = id
    · exact hsame ▸ hlinked
    · exact hold.putEndPoint h.sockets fun hcase => hsame hcase.2
  | none =>
    rw [connect_of_none (s := s.putEndPoint p id m.process) hid hc hend]
    have hlinked : ((s.putEndPoint p id m.process).register p id m.process).Linked p id := by
      intro m' hm' hready hlive
      obtain rfl := Option.some.inj (hm.symm.trans hm')
      refine ⟨_, connections_register_self _ p id m.process, .inl ?_⟩
      rw [connection_register_self]
    refine ⟨⟨hput.register (hp.lt h.informed) hq hid, hp, rfl, rfl, fun id' hold => ?_,
      fun id' hnone => ?_⟩, hlinked⟩
    · by_cases hsame : id' = id
      · exact hsame ▸ hlinked
      · exact (hold.putEndPoint h.sockets fun hcase =>
          hsame hcase.2).register hput.sockets fun hcase => hsame hcase.2
    · by_cases hsame : id' = id
      · exact .inl (hsame ▸ hlinked)
      · exact .inr ((connections_register_of_ne _ fun hcase => hsame hcase.2).trans hnone)

/-- Nothing that is registered is in the way of a linked id, or of one without a connection. -/
theorem freeFor_of_linked {p id : ℕ} {m : Member} (hm : s.memberTable p id = some m)
    (hready : m.state.isReady = true)
    (h : s.Linked p id ∨ s.connections p id = none) (hlive : s.Live m.process) :
    s.FreeFor p id m.process := by
  intro c hc
  rcases h with hlinked | hnone
  · obtain ⟨c', hc', hleads⟩ := hlinked m hm hready hlive
    obtain rfl := Option.some.inj ((Option.mem_def.mp hc).symm.trans hc')
    exact hleads.imp_right fun h => h.1
  · rw [hnone] at hc
    cases hc

/-- The PREPARED local member connects to a smaller id. -/
theorem InvExcept.connectSmaller {p id : ℕ} (h : InvExcept p s) (hp : s.Live p) (hid : id < s.id p)
    (hopen : s.Linked p id ∨ s.connections p id = none) :
    Advances p s (s.connectSmaller p id) ∧ (s.connectSmaller p id).Linked p id := by
  have hsame : Advances p s s :=
    ⟨h, hp, rfl, rfl, fun _ hlinked => hlinked, fun _ hnone => .inr hnone⟩
  unfold InnerTcp.connectSmaller
  split
  · rename_i m hm
    split
    · rename_i hready
      exact h.connect hp hid hm (freeFor_of_linked hm hready hopen)
    · rename_i hready
      refine ⟨hsame, fun m' hm' hready' => ?_⟩
      obtain rfl := Option.some.inj (hm.symm.trans hm')
      exact absurd hready' hready
  · rename_i hnone
    refine ⟨hsame, fun m' hm' => ?_⟩
    rw [hnone] at hm'
    cases hm'

/-- The PREPARED local member connects to all smaller ids of a list. -/
theorem InvExcept.connectAll {p : ℕ} (h : InvExcept p s) (hp : s.Live p) (ids : List ℕ)
    (hids : ∀ id ∈ ids, id < s.id p)
    (hopen : ∀ id < s.id p, s.Linked p id ∨ s.connections p id = none) :
    Advances p s (ids.foldl (fun s id => s.connectSmaller p id) s) ∧
      ∀ id ∈ ids, (ids.foldl (fun s id => s.connectSmaller p id) s).Linked p id := by
  induction ids generalizing s with
  | nil =>
    exact ⟨⟨h, hp, rfl, rfl, fun _ hlinked => hlinked, fun _ hnone => .inr hnone⟩, fun id hid =>
      absurd hid not_mem_nil⟩
  | cons id ids ih =>
    obtain ⟨hadvances, hlinked⟩ := h.connectSmaller hp (hids id mem_cons_self)
      (hopen id (hids id mem_cons_self))
    obtain ⟨hmore, hall⟩ := ih hadvances.inv hadvances.live
      (fun id' hid' => hadvances.id ▸ hids id' (mem_cons_of_mem _ hid')) fun id' hid' =>
        (hopen id' (hadvances.id ▸ hid')).elim (fun hold => .inl (hadvances.linked id' hold))
        (hadvances.unlinked id')
    refine ⟨hadvances.trans hmore, fun id' hid' => ?_⟩
    rcases mem_cons.mp hid' with rfl | hid'
    · exact hmore.linked id' hlinked
    · exact hall id' hid'

/-! ## Runs -/

/-- A process handles the first event about an id; no older connection is in the way. -/
theorem Inv.handleEvent (h : s.Inv) {p k id : ℕ} {m : Member} (hp : s.Live p)
    (hk : (s.events p)[k]? = some (id, m)) (hfirst : ∀ e ∈ (s.events p).take k, e.1 ≠ id)
    (hfree : m.state = .prepared → s.localReady p = true → id < s.id p → s.FreeFor p id m.process) :
    (s.handleEvent p k id m).Inv := by
  have hother : ∀ {p' : ℕ}, p' ≠ p → (s.takeEvent p k id m).memberTable p' = s.memberTable p' :=
    fun hp' =>
    funext fun id' => memberTable_takeEvent_of_ne s m (.inl hp')
  have hlocal : ∀ {p' : ℕ}, p' ≠ p → (s.takeEvent p k id m).localReady p' = s.localReady p' :=
    fun hp' => by
    unfold localReady
    rw [hother hp']
    rfl
  have hexcept : InvExcept p (s.takeEvent p k id m) :=
    { informed := h.informed.takeEvent hk hfirst
      sockets :=
        ⟨h.sockets.endPoint, h.sockets.registered, h.sockets.ends, h.sockets.fresh,
        h.sockets.terminated,
        h.sockets.connecting, h.sockets.handshakes, h.sockets.accepted⟩
      linked := fun p' hp' hlive hready id' hid' => by
        have hlinked := h.linked p' hlive (hlocal hp' ▸ hready) id' hid'
        intro m' hm'
        rw [hother hp'] at hm'
        exact hlinked m' hm'
      unlinked := fun p' hp' hlive hready => h.unlinked p' hlive (hlocal hp' ▸ hready) }
  have hat := h.informed.live p hp
  have hmem : m ∈ s.pending p id := by
    unfold pending
    rw [filterMap_about_eraseIdx hk hfirst]
    exact mem_cons_self
  have hself := memberTable_takeEvent_self s p k id m
  -- what the process had before the event, for the other ids
  have hbefore : ∀ id' ≠ id, s.Linked p id' → (s.takeEvent p k id m).Linked p id' :=
    fun id' hid' hlinked m' hm' => by
    rw [memberTable_takeEvent_of_ne s m (.inr hid')] at hm'
    exact hlinked m' hm'
  have hlocalself : id ≠ s.id p → (s.takeEvent p k id m).localReady p = s.localReady p :=
    fun hid => by
    unfold localReady
    rw [show (s.takeEvent p k id m).id = s.id from rfl,
      memberTable_takeEvent_of_ne s m (.inr (Ne.symm hid))]
  have hlocalown : id = s.id p → (s.takeEvent p k id m).localReady p = true := by
    rintro rfl
    unfold localReady
    rw [show (s.takeEvent p k (s.id p) m).id = s.id from rfl, hself]
    exact hat.own m hmem
  have hprior : m.state.isReady = true → m.state ≠ .prepared →
      s.memberTable p id = some ⟨m.process, .prepared⟩ := by
    intro hready hne
    have horderly := hat.orderly id
    unfold pending at horderly
    rw [filterMap_about_eraseIdx hk hfirst] at horderly
    refine horderly.1 ?_
    cases hst : m.state with
    | joined | inactive =>
      rw [hst] at hready
      cases hready
    | prepared => exact absurd hst hne
    | active => rfl
  have hid : (s.takeEvent p k id m).id p = s.id p := rfl
  show (memberStatusChanged (s.takeEvent p k id m) p id m).Inv
  unfold memberStatusChanged
  cases hready : (s.takeEvent p k id m).localReady p with
  | false =>
    refine hexcept.inv (fun hlocal => ?_) fun _ id' hid' => ?_
    · change (s.takeEvent p k id m).localReady p = true at hlocal
      rw [hready] at hlocal
      cases hlocal
    · refine h.unlinked p hp ?_ id' hid'
      rw [← hready, hlocalself]
      rintro hown
      rw [hlocalown hown] at hready
      cases hready
  | true =>
    rw [Bool.not_true, if_neg Bool.false_ne_true]
    split
    · rename_i hprepared
      split
      · rename_i hown
        -- the local member is PREPARED now
        obtain ⟨hadvances, hall⟩ := hexcept.connectAll hp (List.range (s.id p))
          (fun id' hid' => mem_range.mp hid') fun id' hid' => by
            cases hlocal' : s.localReady p with
            | false => exact .inr (h.unlinked p hp hlocal' id' hid')
            | true =>
              have hlinked := h.linked p hp hlocal' id' hid'
              exact .inl (hbefore id' (hown ▸ Nat.ne_of_lt hid') hlinked)
        refine hadvances.inv.inv (fun _ id' hid' =>
          hall id' (mem_range.mpr ?_)) fun hlocal' => ?_
        · rw [hadvances.id] at hid'
          exact hid'
        · unfold localReady at hlocal' hready
          rw [hadvances.memberTable, hadvances.id, hready] at hlocal'
          cases hlocal'
      · rename_i hother'
        have hlocal' : s.localReady p = true := (hlocalself hother').symm.trans hready
        have hlinked : ∀ id' < s.id p, id' ≠ id → (s.takeEvent p k id m).Linked p id' :=
          fun id' hid' hne =>
          hbefore id' hne (h.linked p hp hlocal' id' hid')
        dsimp only
        split
        · rename_i hless
          obtain ⟨hadvances, hnew⟩ := hexcept.connect hp hless hself fun _ =>
              hfree hprepared hlocal' hless
          refine hadvances.inv.inv (fun _ id' hid' => ?_) fun hlocal'' => ?_
          · rw [hadvances.id] at hid'
            by_cases hne : id' = id
            · exact hne ▸ hnew
            · exact hadvances.linked id' (hlinked id' hid' hne)
          · unfold localReady at hlocal'' hready
            rw [hadvances.memberTable, hadvances.id, hready] at hlocal''
            cases hlocal''
        · rename_i hless
          refine (hexcept.putEndPoint (hat.entry id m (.inr hmem))).inv (fun _ id' hid' =>
            ?_) fun hlocal'' => ?_
          · have hne : id' ≠ id := by
              rintro rfl
              exact hless hid'
            exact (hlinked id' hid' hne).putEndPoint hexcept.sockets fun hcase => hne hcase.2
          · change (s.takeEvent p k id m).localReady p = false at hlocal''
            rw [hready] at hlocal''
            cases hlocal''
    · rename_i hprepared
      have hlocal' : s.localReady p = true := by
        by_cases hown : id = s.id p
        · unfold localReady
          rw [← hown, hprior (hat.own m (hown ▸ hmem)) hprepared]
          rfl
        · exact (hlocalself hown).symm.trans hready
      refine hexcept.inv (fun _ id' hid' => ?_) fun hlocal'' => ?_
      · by_cases hne : id' = id
        · intro m' hm' hready' hlive
          rw [hne, hself] at hm'
          obtain rfl := Option.some.inj hm'
          rw [hne] at hid' ⊢
          exact h.linked p hp hlocal' id hid' ⟨m.process,
            .prepared⟩ (hprior hready' hprepared) rfl hlive
        · exact hbefore id' hne (h.linked p hp hlocal' id' hid')
      · change (s.takeEvent p k id m).localReady p = false at hlocal''
        rw [hready] at hlocal''
        cases hlocal''

theorem Inv.step (h : s.Inv) {a : InnerTcpStep} (htimely : s.Timely a) (hs : s.step a = some s') :
    s'.Inv := by
  cases a with
  | join id =>
    dsimp only [InnerTcp.step] at hs
    split at hs
    · cases hs
    · obtain rfl := Option.some.inj hs
      exact h.join id
  | setState id state =>
    obtain ⟨m, hm, hs⟩ := Option.bind_eq_some_iff.mp hs
    split at hs
    · rename_i hstate
      obtain rfl := Option.some.inj hs
      exact h.setState hm hstate
    · cases hs
  | leave id =>
    obtain ⟨m, hm, rfl⟩ := Option.map_eq_some_iff.mp hs
    exact h.leave hm
  | handleEvent p k =>
    obtain ⟨⟨id, m⟩, hk, hs⟩ := Option.bind_eq_some_iff.mp hs
    obtain ⟨hfirst, hfree⟩ := htimely _ hk
    split at hs
    · rename_i hp
      obtain rfl := Option.some.inj hs
      exact h.handleEvent hp hk hfirst hfree
    · cases hs
  | establish c =>
    dsimp only [InnerTcp.step] at hs
    split at hs
    · rename_i retry hstate
      split at hs
      · rename_i hlive
        obtain rfl := Option.some.inj hs
        exact h.establish hstate hlive.2
      · cases hs
    · cases hs
  | handleConnect c =>
    dsimp only [InnerTcp.step] at hs
    split at hs
    · rename_i retry hstate
      split at hs
      · obtain rfl := Option.some.inj hs
        exact h.handleConnect hstate
      · cases hs
    · cases hs
  | connectFails c =>
    dsimp only [InnerTcp.step] at hs
    split at hs
    · rename_i retry hstate
      split at hs
      · rename_i hlive
        obtain rfl := Option.some.inj hs
        exact h.connectFails hstate hlive.2
      · cases hs
    · cases hs
  | handshakeFails c =>
    dsimp only [InnerTcp.step] at hs
    split at hs
    · rename_i retry hstate
      split at hs
      · rename_i hlive
        obtain rfl := Option.some.inj hs
        refine h.terminate ?_ hlive.2 fun retry' _ hold => ?_
        · rw [hstate]
          exact fun hnew => by cases hnew
        · rw [hstate] at hold
          cases hold
      · cases hs
    · cases hs
  | accept i =>
    obtain ⟨c, hc, hs⟩ := Option.bind_eq_some_iff.mp hs
    split at hs
    · rename_i hlive
      obtain rfl := Option.some.inj hs
      exact h.accept hc hlive (htimely c hc)
    · cases hs
  | socketError c =>
    dsimp only [InnerTcp.step] at hs
    split at hs
    · rename_i hstate
      obtain rfl := Option.some.inj hs
      refine h.terminate ?_ hstate.2.2 fun retry' _ hold => ?_
      · rw [hstate.1]
        exact fun hnew => by cases hnew
      · rw [hstate.1] at hold
        cases hold
    · cases hs
  | reset c =>
    dsimp only [InnerTcp.step] at hs
    split at hs
    · rename_i hstate
      obtain rfl := Option.some.inj hs
      exact h.resetConnectionIfEq hstate.1
    · cases hs

/-- There are no members at first. -/
theorem inv_initial : Inv {} where
  informed := ⟨fun id m hm => (by cases hm), fun p hp => by obtain ⟨m, hm, -⟩ := hp; cases hm⟩
  sockets :=
    { endPoint := fun p id q hq => by cases hq
      registered := fun p id c hc => by cases hc
      ends := fun c hc => absurd hc (Nat.not_lt_zero c)
      fresh := fun _ _ => rfl
      terminated := fun c hc => absurd hc (Nat.not_lt_zero c)
      connecting := fun c retry established hstate => by cases hstate
      handshakes := fun c hc => absurd hc not_mem_nil
      accepted := fun c hc => absurd hc (Nat.not_lt_zero c) }
  linked := fun p hp => by obtain ⟨m, hm, -⟩ := hp; cases hm
  unlinked := fun p hp => by obtain ⟨m, hm, -⟩ := hp; cases hm

/-- When nothing is going on, the members are connected. -/
theorem Inv.connected (h : s.Inv) (hquiet : s.Quiescent) : s.Connected := by
  have hlive : ∀ {id m}, s.member id = some m → m.state.isReady = true →
      s.Live m.process ∧ s.id m.process = id := by
    intro id m hm hready
    obtain ⟨-, hid⟩ := h.informed.member id m hm
    refine ⟨⟨m, hid ▸ hm, rfl, fun hstate => ?_⟩, hid⟩
    rw [hstate] at hready
    cases hready
  have htable : ∀ {p}, s.Live p → ∀ id, s.memberTable p id = s.member id := by
    intro p hp id
    have hview := (h.informed.live p hp).view id
    unfold pending at hview
    rw [hquiet.events p (hp.lt h.informed) hp] at hview
    exact hview
  have hsettled : ∀ {p id c}, s.Live p → s.connections p id = some c →
      (s.connection c).state = .ready := by
    intro p id c hp hc
    obtain ⟨hlt, howner, hpeer⟩ := h.sockets.registered p id c hc
    refine (hquiet.settled c hlt (howner ▸ hp) ?_).1
    rw [howner, hpeer]
    exact hc
  -- the member with the larger id has a connection
  have hlarger : ∀ {id id' m m'}, id' < id → s.member id = some m → s.member id' = some m' →
      m.state.isReady = true →
      m'.state.isReady = true → ∃ c, s.connections m.process id' = some c ∧
      (s.connection c).remote = m'.process ∧
        (s.connection c).state = .ready := by
    intro id id' m m' hless hm hm' hready hready'
    obtain ⟨hp, hid⟩ := hlive hm hready
    have hlocal : s.localReady m.process = true := by
      unfold localReady
      rw [htable hp, hid, hm]
      exact hready
    obtain ⟨c, hc, hleads⟩ :=
      h.linked m.process hp hlocal id' (hid ▸ hless) m' ((htable hp id').trans hm') hready'
      (hlive hm' hready').1
    have hstate := hsettled hp hc
    refine ⟨c, hc, ?_, hstate⟩
    rcases hleads with hremote | ⟨⟨retry, -, hconnecting⟩, -⟩
    · exact hremote
    · rw [hstate] at hconnecting
      cases hconnecting
  intro id id' m m' hne hm hm' hready hready'
  have hnot : ∀ {st : ConnectionState}, st = .ready → st ≠ .terminated := by
    rintro st rfl hst
    cases hst
  rcases Nat.lt_or_gt_of_ne hne with hless | hless
  · obtain ⟨c, hc, hremote, hstate⟩ := hlarger hless hm' hm hready' hready
    obtain ⟨hq, hid'⟩ := hlive hm' hready'
    obtain ⟨hp, hid⟩ := hlive hm hready
    obtain ⟨hlt, howner, hpeer⟩ := h.sockets.registered _ _ c hc
    have haccepted :=
      h.sockets.accepted c hlt hstate (howner ▸ hq) (hremote ▸ hp) (by
        rw [howner, hpeer, hid']
        exact hless)
    rw [howner, hremote, hid'] at haccepted
    rcases haccepted with hsent | ⟨c', hc', hback⟩
    · exact absurd (hremote ▸ hp) (hquiet.handshakes c hsent)
    · exact ⟨c', hc', hback, hnot (hsettled hp hc')⟩
  · obtain ⟨c, hc, hremote, hstate⟩ := hlarger hless hm hm' hready hready'
    exact ⟨c, hc, hremote, hnot hstate⟩

/-- **Members stay connected**: in runs in which connections to former members are out of the way in
time, every two members that are PREPARED or ACTIVE have connections to each other when all events
have been processed. -/
theorem connected_of_timely (hrun : Common.Reaches step Timely {} s) (hquiet : s.Quiescent) :
    s.Connected :=
  (hrun.invariant (P := Inv) inv_initial fun _ _ _ h htimely hs =>
    h.step htimely hs).connected hquiet

/-! ## Runs of two members -/

/-- The members 1 and 2 join, become PREPARED, and are connected. -/
def twoMembers : List InnerTcpStep :=
  [.join 1, .join 2, .setState 1 .prepared, .setState 2 .prepared, .handleEvent 0 0,
    .handleEvent 0 0, .handleEvent 0 0,
    .handleEvent 1 0, .handleEvent 1 0, .establish 0, .handleConnect 0, .accept 0]

/-- Member 1 leaves, and another process joins with its id before the socket error is noticed. -/
def lateError : List InnerTcpStep :=
  twoMembers ++ [.leave 1, .handleEvent 1 0, .join 1, .handleEvent 1 0, .setState 1 .prepared,
    .handleEvent 2 0,
    .handleEvent 1 0, .socketError 0, .reset 0]

/-- The members are not connected then. -/
theorem not_connected_of_run :
    ¬ ∀ s : InnerTcp, Common.Reaches step Common.anyStep {} s → s.Quiescent → s.Connected := by
  intro hall
  have hend : ((Common.replay step Common.anyStep {} lateError).any fun s =>
      decide (s.Quiescent ∧ s.member 1 = some ⟨2, .prepared⟩ ∧ s.member 2 = some ⟨1, .prepared⟩ ∧
        s.connections 1 1 = none)) = true := by
    decide +kernel
  obtain ⟨s, hs, hbad⟩ := (Option.any_eq_true _ _).mp hend
  obtain ⟨hquiet, hfirst, hsecond, hnone⟩ := of_decide_eq_true hbad
  obtain ⟨c, hc, -⟩ :=
    hall s (Common.reaches_of_replay hs) hquiet 2 1 _ _ (by decide) hsecond hfirst rfl rfl
  rw [hnone] at hc
  cases hc

/-- The socket error is noticed before member 2 hears that the new member 1 is PREPARED. -/
def timelyError : List InnerTcpStep :=
  twoMembers ++ [.leave 1, .handleEvent 1 0, .join 1, .handleEvent 1 0, .socketError 0, .reset 0,
    .setState 1 .prepared,
    .handleEvent 2 0, .handleEvent 1 0, .establish 2, .handleConnect 2, .accept 0]

/-- The members are connected then. -/
theorem connected_of_timely_timelyError :
    ∃ s : InnerTcp, Common.Reaches step Timely {} s ∧ s.Quiescent ∧
    s.member 1 = some ⟨2, .prepared⟩ ∧ s.member 2 = some ⟨1, .prepared⟩ ∧ s.Connected := by
  have hend : ((Common.replay step Timely {} timelyError).any fun s =>
      decide (s.Quiescent ∧ s.member 1 = some ⟨2, .prepared⟩ ∧ s.member 2 = some ⟨1, .prepared⟩)) =
        true := by
    decide +kernel
  obtain ⟨s, hs, hgood⟩ := (Option.any_eq_true _ _).mp hend
  obtain ⟨hquiet, hfirst, hsecond⟩ := of_decide_eq_true hgood
  exact ⟨s, Common.reaches_of_replay hs, hquiet, hfirst, hsecond,
    connected_of_timely (Common.reaches_of_replay hs) hquiet⟩

end Steps

end Idgs.Net.InnerTcp
