import Mathlib.Data.List.Nodup
import Idgs.Common.Run
import Idgs.Common.TotalOrder
import Idgs.Cluster.MemberTable

/-!
# Membership tables over one totally ordered stream

Configuration changes and the messages of the member manager reach all processes of the group in one
order, so the processes are compared at the same prefix and an event is delivered to all of them at
once. A process joins the group once; the messages of a process that has left are not delivered.

The leading member answers a joiner with a snapshot of its table and reserves a position, which the
others learn from the delta. As long as nothing else is delivered between the two, the tables agree,
but for the reserved position.
-/

namespace Idgs.Cluster

open List

namespace Membership

/-- The processes, those that have been in the group, those that are in it, and the messages in
flight with their senders. -/
structure State where
  nodes : MemberAddress → Node
  past : List MemberAddress
  group : List MemberAddress
  flight : List (MemberAddress × Multicast)

/-- A process before it joins the group. -/
def start (cluster : ClusterConfig) (cfg : MemberAddress → Member) (p : MemberAddress) : Node where
  cfg := { cfg p with nodeId := p.nodeid, pid := p.pid, flags := 0 }
  cluster := cluster
  partitions := createPartitionTable cluster

/-- Nobody has joined. -/
def init (cluster : ClusterConfig) (cfg : MemberAddress → Member) : State :=
  ⟨start cluster cfg, [], [], []⟩

/-- All processes of the group handle an event; the messages of their member managers go in
flight. -/
def react (f : Node → Node × List Multicast) (s : State) : State :=
  { s with
    nodes := fun p => if p ∈ s.group then (f (s.nodes p)).1 else s.nodes p
    flight := s.flight ++
      s.group.flatMap fun p => (Node.memberMessages (f (s.nodes p)).2).map fun m => (p, m) }

/-- Steps: a configuration change, a member multicasts its own status, the oldest message of a
sender is delivered. -/
inductive Step
  | change (left joined : List MemberAddress)
  | status (p : MemberAddress) (status : MemberState)
  | deliver (p : MemberAddress)
deriving DecidableEq

/-- The group without the processes that leave. -/
def remaining (s : State) (left : List MemberAddress) : State :=
  { s with
    group := s.group.filter fun p => p ∉ left
    flight := s.flight.filter fun x => x.1 ∉ left }

/-- A change consists of leaves and joins. A process joins once, at a public address that no other
process of the group listens on. -/
def isChange (s : State) (left joined : List MemberAddress) : Bool :=
  decide ((left ≠ [] ∨ joined ≠ []) ∧ ∀ p ∈ left, p ∈ s.group) &&
    decide (joined.Nodup ∧ ∀ p ∈ joined, p ∉ s.past) &&
    decide (((remaining s left).group ++ joined).map fun p => (s.nodes p).cfg.publicAddress).Nodup

/-- One step. A member reports a state from `MS_JOINED` on. -/
def step (oracle : ℕ → BalanceOracle) (s : State) : Step → Option State
  | .change left joined =>
    let s' := remaining s left
    if isChange s left joined then
      some (react (fun n => n.handleClusterChange oracle ⟨s'.group ++ joined, left, joined⟩)
        { s' with past := s'.past ++ joined, group := s'.group ++ joined })
    else none
  | .status p status =>
    if p ∈ s.group ∧ (s.nodes p).getLocalMember ≠ none ∧
        MemberState.joined.toNat ≤ status.toNat then
      some { s with
        flight := s.flight ++ [(p, .memberStatus (s.nodes p).localMemberIndex.toNat status)] }
    else none
  | .deliver p =>
    match Common.takeFirst p s.flight with
    | some (m, rest) =>
      some (react (fun n => (n.handle oracle m).getD (n, [])) { s with flight := rest })
    | none => none

/-- The process is in the group and has an entry of its own in its table. -/
def IsMember (s : State) (p : MemberAddress) : Prop :=
  p ∈ s.group ∧ (s.nodes p).getLocalMember ≠ none

/-- The message answers a joiner. -/
def isAnswer : Multicast → Bool
  | .wholeMemberTable _ _ => true
  | .deltaMember _ _ => true
  | _ => false

/-- The message makes the first member of a group. -/
def isFounding : Multicast → Bool
  | .member m => m.isLeading
  | _ => false

/-- Joins one after the other: while an answer is in flight only answers are delivered and nobody
leaves; nobody joins a group whose first member is not in its table yet, and a group is founded by
one process. -/
def Serial (s : State) : Step → Prop
  | .change left joined =>
    (left ≠ [] → ∀ x ∈ s.flight, isAnswer x.2 = false) ∧
    (joined ≠ [] → ∀ x ∈ (remaining s left).flight, isFounding x.2 = false) ∧
    ((remaining s left).group = [] → joined.length ≤ 1)
  | .status _ _ => True
  | .deliver p => ∀ m ∈ (Common.takeFirst p s.flight).map Prod.fst,
      isAnswer m = true ∨ ∀ x ∈ s.flight, isAnswer x.2 = false

instance (s : State) (a : Step) : Decidable (Serial s a) := by
  unfold Serial
  split <;> infer_instance

/-- Members agree on every position, but for one that the leading member has reserved for a
joiner. -/
structure Agree (s : State) : Prop where
  same : ∀ p q, IsMember s p → IsMember s q → ∀ i,
    (s.nodes p).members[i]? = (s.nodes q).members[i]? ∨
      ∃ m, (p, .deltaMember m i) ∈ s.flight ∨ (q, .deltaMember m i) ∈ s.flight
  own : ∀ p, IsMember s p → ∃ i : ℕ, (s.nodes p).localMemberIndex = i ∧
    ((s.nodes p).members.getD i {}).address = p ∧ ((s.nodes p).members.getD i {}).id = i
  positions : ∀ p q, IsMember s p → IsMember s q →
    (s.nodes p).localMemberIndex = (s.nodes q).localMemberIndex → p = q
  handed : ∀ r m i, (r, .deltaMember m i) ∈ s.flight →
    (∀ p, IsMember s p → (s.nodes p).localMemberIndex ≠ (i : ℕ)) ∧
    ∀ r' m', (r', .deltaMember m' i) ∈ s.flight → m' = m
  taken : ∀ p, IsMember s p → ∀ i, ((s.nodes p).members.getD i {}).state = .taken →
    ∃ m, (p, .deltaMember m i) ∈ s.flight

/-! ## The invariant -/

/-- What is left to be delivered before the last joiner is a member: nothing, the request of the
founder, or the answer of the leading member `l` to the joiner `m`, with or without the snapshot. -/
inductive Pending
  | none
  | founding (a : MemberAddress) (m : Member)
  | snapshot (l : MemberAddress) (m : Member)
  | delta (l : MemberAddress) (m : Member)

namespace Pending

/-- The messages in flight that belong to the join. -/
def traffic (table : List Member) : Pending → List (MemberAddress × Multicast)
  | none => []
  | founding a m => [(a, .member m)]
  | snapshot l m =>
    [(l, .wholeMemberTable m table), (l, .deltaMember m (Node.findAddPos table).1)]
  | delta l m => [(l, .deltaMember m (Node.findAddPos table).1)]

/-- The table of the member `p`: the answering member has reserved a position. -/
def memberTable (table : List Member) (p : MemberAddress) : Pending → List Member
  | snapshot l _ | delta l _ => if p = l then (Node.findAddPos table).2 else table
  | _ => table

/-- The table of a process that is no member yet: a joiner may have installed its snapshot. -/
def strangerTable (table : List Member) (p : MemberAddress) : Pending → List Member
  | delta _ m => if m.address = p then table else []
  | _ => []

end Pending

/-- A member has position `i` of the common table. -/
structure MemberOk (table : List Member) (pend : Pending) (p : MemberAddress) (n : Node) (i : ℕ) :
    Prop where
  lt : i < table.length
  index : n.localMemberIndex = i
  address : (table.getD i {}).address = p
  live : (table.getD i {}).state ≠ .inactive
  members : n.members = pend.memberTable table p

/-- A process is a member, or waits for its join. -/
def NodeOk (table : List Member) (pend : Pending) (p : MemberAddress) (n : Node) : Prop :=
  (∃ i, MemberOk table pend p n i) ∨
    (n.localMemberIndex = -1 ∧ n.members = pend.strangerTable table p)

/-- The answering member is leading, and the joiner is in the group. -/
def Answers (table : List Member) (s : State) (l : MemberAddress) (m : Member) : Prop :=
  l ∈ s.group ∧ m.address ∈ s.group ∧ m = (s.nodes m.address).cfg ∧ m.isLeading = false ∧
    ∃ i : ℕ, (s.nodes l).localMemberIndex = i ∧ (table.getD i {}).isLeading = true

/-- What the pending join says about the processes. -/
def PendingOk (table : List Member) (s : State) : Pending → Prop
  | .none => True
  | .founding a m => table = [] ∧ s.group = [a] ∧ m = (s.nodes a).cfg
  | .snapshot l m => Answers table s l m
  | .delta l m => Answers table s l m

/-- The process that a message announces. -/
def newcomer : Multicast → Option MemberAddress
  | .member m => some m.address
  | .deltaMember m _ => some m.address
  | _ => none

/-- The processes announced by the messages in flight. -/
def announced (flight : List (MemberAddress × Multicast)) : List MemberAddress :=
  flight.filterMap fun x => newcomer x.2

/-- The message belongs to the pending join. -/
def isJoin (m : Multicast) : Bool := isAnswer m || isFounding m

/-- The processes and the group. -/
structure GroupOk (s : State) : Prop where
  nodup : s.group.Nodup
  past : ∀ p ∈ s.group, p ∈ s.past
  fresh : ∀ p, p ∉ s.past →
    (s.nodes p).localMemberIndex = -1 ∧ (s.nodes p).members = [] ∧ (s.nodes p).cfg.isLeading = false
  address : ∀ p, (s.nodes p).cfg.address = p
  publicAddress : ∀ p ∈ s.group, ∀ q ∈ s.group,
    (s.nodes p).cfg.publicAddress = (s.nodes q).cfg.publicAddress → p = q

/-- The messages in flight. -/
structure FlightOk (s : State) : Prop where
  senders : ∀ x ∈ s.flight, x.1 ∈ s.group
  kinds : ∀ x ∈ s.flight, x.2.isMember = true
  requests : ∀ p m, (p, .member m) ∈ s.flight → m = (s.nodes p).cfg
  states : ∀ p i status, (p, .memberStatus i status) ∈ s.flight →
    status ≠ .taken ∧ status ≠ .inactive

/-- All members have the table `table`, up to the pending join. -/
structure Inv (table : List Member) (pend : Pending) (s : State) : Prop where
  group : GroupOk s
  flight : FlightOk s
  newcomers : (table.map Member.address ++ announced s.flight).Nodup
  newcomersPast : ∀ a ∈ table.map Member.address ++ announced s.flight, a ∈ s.past
  sound : Node.TableOk table
  traffic : s.flight.filter (fun x => isJoin x.2) = pend.traffic table
  pending : PendingOk table s pend
  nodes : ∀ p ∈ s.group, NodeOk table pend p (s.nodes p)

theorem inv_init (cluster : ClusterConfig) (cfg : MemberAddress → Member) :
    Inv [] .none (init cluster cfg) where
  group :=
    { nodup := nodup_nil
      past := fun p hp => absurd hp not_mem_nil
      fresh := fun p _ => ⟨rfl, rfl, by simp [init, start, Member.isLeading]⟩
      address := fun p => rfl
      publicAddress := fun p hp => absurd hp not_mem_nil }
  flight :=
    { senders := fun x hx => absurd hx not_mem_nil
      kinds := fun x hx => absurd hx not_mem_nil
      requests := fun p m hm => absurd hm not_mem_nil
      states := fun p i status h => absurd h not_mem_nil }
  newcomers := nodup_nil
  newcomersPast := fun a ha => absurd ha not_mem_nil
  sound := Node.tableOk_nil
  traffic := rfl
  pending := trivial
  nodes := fun p hp => absurd hp not_mem_nil

/-! ## What the invariant says about a member -/

theorem Pending.length_memberTable (table : List Member) (p : MemberAddress) (pend : Pending) :
    table.length ≤ (pend.memberTable table p).length := by
  cases pend with
  | none | founding _ _ => exact le_rfl
  | snapshot _ _ | delta _ _ =>
    simp only [memberTable]
    split
    · exact Node.length_le_findAddPos table
    · exact le_rfl

theorem getLocalMember_of_index {n : Node} {i : ℕ} (hindex : n.localMemberIndex = i)
    (hlt : i < n.members.length) : n.getLocalMember = some (n.members.getD i {}) := by
  have hnot : ¬((i : ℤ) < 0) := by omega
  rw [Node.getLocalMember, hindex, if_neg hnot, Int.toNat_natCast, getD_eq_getElem?_getD,
    getElem?_eq_getElem hlt, Option.getD_some]

theorem getLocalMember_of_stranger {n : Node} (hindex : n.localMemberIndex = -1) :
    n.getLocalMember = none := by
  rw [Node.getLocalMember, hindex, if_pos (by decide)]

theorem MemberOk.local_lt {table : List Member} {pend : Pending} {p : MemberAddress} {n : Node}
    {i : ℕ} (h : MemberOk table pend p n i) : i < n.members.length := by
  rw [h.members]
  exact lt_of_lt_of_le h.lt (Pending.length_memberTable table p pend)

theorem MemberOk.getLocalMember {table : List Member} {pend : Pending} {p : MemberAddress}
    {n : Node}
    {i : ℕ} (h : MemberOk table pend p n i) : n.getLocalMember = some (n.members.getD i {}) :=
  getLocalMember_of_index h.index h.local_lt

/-- The entries of the answering member's table are those of the common table outside of the
position that it has reserved. -/
theorem getElem?_findAddPos {table : List Member} {i : ℕ} (hi : i ≠ (Node.findAddPos table).1) :
    (Node.findAddPos table).2[i]? = table[i]? := by
  unfold Node.findAddPos at hi ⊢
  split
  · rename_i j hj
    rw [hj] at hi
    exact getElem?_modify_ne _ _ (Ne.symm hi)
  · rename_i hnone
    rw [hnone] at hi
    dsimp only at hi ⊢
    rcases Nat.lt_or_gt_of_ne hi with hlt | hgt
    · rw [getElem?_append_left hlt]
    · rw [getElem?_eq_none (by simp; omega), getElem?_eq_none (by omega)]

/-- The position of a member is not the one that is given out. -/
theorem MemberOk.ne_findAddPos {table : List Member} {pend : Pending} {p : MemberAddress} {n : Node}
    {i : ℕ} (h : MemberOk table pend p n i) : i ≠ (Node.findAddPos table).1 := by
  intro heq
  exact h.live (heq ▸ Node.findAddPos_inactive table (heq ▸ h.lt))

/-- A member's own entry is the one of the common table. -/
theorem MemberOk.entry {table : List Member} {pend : Pending} {p : MemberAddress} {n : Node}
    {i : ℕ} (h : MemberOk table pend p n i) : n.members.getD i {} = table.getD i {} := by
  have hfind : (Node.findAddPos table).2.getD i {} = table.getD i {} := by
    rw [getD_eq_getElem?_getD, getD_eq_getElem?_getD, getElem?_findAddPos h.ne_findAddPos]
  rw [h.members]
  cases pend with
  | none | founding _ _ => rfl
  | snapshot _ _ | delta _ _ =>
    simp only [Pending.memberTable]
    split
    · exact hfind
    · rfl

/-- A process that is announced is no member yet. -/
theorem Inv.stranger_of_newcomer {table : List Member} {pend : Pending} {s : State}
    (h : Inv table pend s) {p : MemberAddress} (hp : p ∈ s.group) (hnew : p ∈ announced s.flight) :
    (s.nodes p).localMemberIndex = -1 ∧ (s.nodes p).members = pend.strangerTable table p := by
  rcases h.nodes p hp with ⟨i, hi⟩ | hstranger
  · have hmem : p ∈ table.map Member.address := by
      refine mem_map.mpr ⟨table.getD i {}, ?_, hi.address⟩
      rw [getD_eq_getElem?_getD, getElem?_eq_getElem hi.lt]
      exact getElem_mem hi.lt
    exact absurd hnew fun hnew => (nodup_append.mp h.newcomers).2.2 p hmem p hnew rfl
  · exact hstranger

/-- Two members at one position are one. -/
theorem MemberOk.unique {table : List Member} {pend : Pending} {p q : MemberAddress} {n n' : Node}
    {i : ℕ} (h : MemberOk table pend p n i) (h' : MemberOk table pend q n' i) : p = q :=
  h.address.symm.trans h'.address

end Membership

end Idgs.Cluster
