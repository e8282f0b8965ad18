import Idgs.Common.Run

/-!
# The connections between members

A member that hears that another one is PREPARED connects to it when its own id is the larger one;
the other accepts. Each keeps the connection under the id of its peer. A connection that is broken
is taken out of the table when the socket error is noticed, which may be long after its peer has
left and another member has got the id.
-/

namespace Idgs.Net

/-- The states of a member that matter here. -/
inductive MemberState
  | joined | prepared | active | inactive
deriving DecidableEq

/-- PREPARED or ACTIVE. -/
def MemberState.isReady (st : MemberState) : Bool := st = .prepared || st = .active

/-- An entry of a member table: the process that has the id, and its state. -/
structure Member where
  process : ℕ
  state : MemberState
deriving DecidableEq

/-- The states of a connection; a new one is connected at once. While it connects it counts its
retries, and the socket may be established before the handler is called. -/
inductive ConnectionState
  | connecting (retry : ℕ) (established : Bool)
  | ready
  | terminated
deriving DecidableEq

/-- `InnerTcpConnection`: the process that it is in, the id that it is kept under, and the process
at its other end. -/
structure InnerTcpConnection where
  owner : ℕ
  peerMemberId : ℕ
  remote : ℕ
  state : ConnectionState
deriving DecidableEq

/-- The processes, with what each has in its tables, and their connections. -/
structure InnerTcp where
  /-- The member that has an id, or had it last. -/
  member : ℕ → Option Member := fun _ => none
  /-- The id of each process. -/
  id : ℕ → ℕ := fun _ => 0
  nextProcess : ℕ := 0
  /-- The member table of each process. -/
  memberTable : ℕ → ℕ → Option Member := fun _ _ => none
  /-- The events that each process has still to handle. -/
  events : ℕ → List (ℕ × Member) := fun _ => []
  /-- The process that each process knows behind an id. -/
  endPoint : ℕ → ℕ → Option ℕ := fun _ _ => none
  /-- The connection that each process has registered for an id. -/
  connections : ℕ → ℕ → Option ℕ := fun _ _ => none
  connection : ℕ → InnerTcpConnection := fun _ => ⟨0, 0, 0, .terminated⟩
  nextConnection : ℕ := 0
  /-- The connections whose handshake has been sent and not been read. -/
  handshakes : List ℕ := []

/-- What happens: a member joins with an id that is free, becomes PREPARED or ACTIVE, or leaves; a
process handles one of its events; a socket is established, its handler is called or fails, a
connection is accepted, a broken socket is noticed, and the connection is taken out of the table. -/
inductive InnerTcpStep
  | join (id : ℕ)
  | setState (id : ℕ) (state : MemberState)
  | leave (id : ℕ)
  | handleEvent (p k : ℕ)
  | establish (c : ℕ)
  | handleConnect (c : ℕ)
  | connectFails (c : ℕ)
  | handshakeFails (c : ℕ)
  | accept (i : ℕ)
  | socketError (c : ℕ)
  | reset (c : ℕ)

namespace InnerTcp

/-- The process is a member now. -/
def Live (s : InnerTcp) (p : ℕ) : Prop :=
  ∃ m ∈ s.member (s.id p), m.process = p ∧ m.state ≠ .inactive

instance (s : InnerTcp) (p : ℕ) : Decidable (s.Live p) :=
  decidable_of_iff ((s.member (s.id p)).any fun m =>
    decide (m.process = p ∧ m.state ≠ .inactive)) (by
    rw [Option.any_eq_true]
    exact exists_congr fun m => and_congr_right fun _ => decide_eq_true_iff)

/-- The local member is PREPARED or ACTIVE in the table of the process. -/
def localReady (s : InnerTcp) (p : ℕ) : Bool :=
  (s.memberTable p (s.id p)).any fun m => m.state.isReady

/-! ## The membership -/

/-- A member changes, and all processes hear of it. -/
def setMember (s : InnerTcp) (id : ℕ) (m : Member) : InnerTcp :=
  { s with
    member := Function.update s.member id (some m)
    events := fun p => s.events p ++ [(id, m)] }

/-- A new process with the member table of now. -/
def join (s : InnerTcp) (id : ℕ) : InnerTcp :=
  let p := s.nextProcess
  let s := { s with id := Function.update s.id p id, nextProcess := p + 1 }
  let s := s.setMember id ⟨p, .joined⟩
  { s with
    memberTable := Function.update s.memberTable p s.member
    events := Function.update s.events p [] }

/-! ## The listener -/

/-- The connection has a new state. -/
def setConnectionState (s : InnerTcp) (c : ℕ) (state : ConnectionState) : InnerTcp :=
  { s with connection := Function.update s.connection c { s.connection c with state := state } }

/-- `InnerTcpServer::connect`: nothing is done when there is a connection for the id, which is not
in its initial state. -/
def connect (s : InnerTcp) (p id : ℕ) : InnerTcp :=
  if id > s.id p then s
  else
    match s.connections p id, s.endPoint p id with
    | none, some q =>
      { s with
        connections :=
          Function.update s.connections p
          (Function.update (s.connections p) id (some s.nextConnection))
        connection :=
          Function.update s.connection s.nextConnection ⟨p, id, q, .connecting 0 false⟩
        nextConnection := s.nextConnection + 1 }
    | _, _ => s

/-- `putEndPoint`. -/
def putEndPoint (s : InnerTcp) (p id q : ℕ) : InnerTcp :=
  { s with endPoint := Function.update s.endPoint p (Function.update (s.endPoint p) id (some q)) }

/-- The local member is PREPARED: connect to a member with a smaller id. -/
def connectSmaller (s : InnerTcp) (p id : ℕ) : InnerTcp :=
  match s.memberTable p id with
  | some m => if m.state.isReady then (s.putEndPoint p id m.process).connect p id else s
  | none => s

/-- `RpcMemberListener::memberStatusChanged`. -/
def memberStatusChanged (s : InnerTcp) (p id : ℕ) (m : Member) : InnerTcp :=
  if !s.localReady p then s
  else if m.state = .prepared then
    if id = s.id p then (List.range (s.id p)).foldl (fun s i => s.connectSmaller p i) s
    else
      let s := s.putEndPoint p id m.process
      if id < s.id p then s.connect p id else s
  else s

/-- A process handles an event. -/
def handleEvent (s : InnerTcp) (p k id : ℕ) (m : Member) : InnerTcp :=
  memberStatusChanged
    { s with
      memberTable := Function.update s.memberTable p (Function.update (s.memberTable p) id (some m))
      events := Function.update s.events p ((s.events p).eraseIdx k) }
    p id m

/-! ## The sockets -/

/-- `handleConnect` with an error: up to three more attempts, to the end point that is known
then. -/
def connectFails (s : InnerTcp) (c retry : ℕ) : InnerTcp :=
  let x := s.connection c
  if retry < 3 then
    match s.endPoint x.owner x.peerMemberId with
    | some q =>
      { s with
        connection := Function.update s.connection c
          { x with remote := q, state := .connecting (retry + 1) false } }
    | none => s.setConnectionState c .terminated
  else s.setConnectionState c .terminated

/-- `InnerTcpConnection::accept`: a new connection that is registered for the id in the
handshake. -/
def accept (s : InnerTcp) (i c : ℕ) : InnerTcp :=
  let x := s.connection c
  let id := s.id x.owner
  { s with
    handshakes := s.handshakes.eraseIdx i
    connections := Function.update s.connections x.remote
      (Function.update (s.connections x.remote) id (some s.nextConnection))
    connection := Function.update s.connection s.nextConnection ⟨x.remote, id, x.owner, .ready⟩
    nextConnection := s.nextConnection + 1 }

/-- `resetConnectionIfEq`. -/
def resetConnectionIfEq (s : InnerTcp) (c : ℕ) : InnerTcp :=
  let x := s.connection c
  if s.connections x.owner x.peerMemberId = some c then
    { s with
      connections := Function.update s.connections x.owner
        (Function.update (s.connections x.owner) x.peerMemberId none) }
  else s

/-- The member with the id, when there is one. -/
def liveMember (s : InnerTcp) (id : ℕ) : Option Member :=
  (s.member id).bind fun m => if m.state = .inactive then none else some m

/-- One step. -/
def step (s : InnerTcp) : InnerTcpStep → Option InnerTcp
  | .join id => if (s.liveMember id).isSome then none else some (s.join id)
  | .setState id state => (s.liveMember id).bind fun m =>
    if m.state = .joined ∧ state = .prepared ∨ m.state = .prepared ∧ state = .active then
      some (s.setMember id { m with state := state })
    else none
  | .leave id => (s.liveMember id).map fun m => s.setMember id { m with state := .inactive }
  | .handleEvent p k => ((s.events p)[k]?).bind fun e =>
    if s.Live p then some (s.handleEvent p k e.1 e.2) else none
  | .establish c =>
    let x := s.connection c
    match x.state with
    | .connecting retry false =>
      if s.Live x.owner ∧ s.Live x.remote then
        some (s.setConnectionState c (.connecting retry true)) else none
    | _ => none
  | .handleConnect c =>
    let x := s.connection c
    match x.state with
    | .connecting _ true =>
      if s.Live x.owner then
        some { s.setConnectionState c .ready with handshakes := s.handshakes ++ [c] }
      else none
    | _ => none
  | .connectFails c =>
    let x := s.connection c
    match x.state with
    | .connecting retry false =>
      if s.Live x.owner ∧ ¬ s.Live x.remote then some (s.connectFails c retry) else none
    | _ => none
  | .handshakeFails c =>
    let x := s.connection c
    match x.state with
    | .connecting _ true =>
      if s.Live x.owner ∧ ¬ s.Live x.remote then some (s.setConnectionState c .terminated)
      else none
    | _ => none
  | .accept i => (s.handshakes[i]?).bind fun c =>
    if s.Live (s.connection c).remote then some (s.accept i c) else none
  | .socketError c =>
    let x := s.connection c
    if x.state = .ready ∧ s.Live x.owner ∧ ¬ s.Live x.remote then
      some (s.setConnectionState c .terminated) else none
  | .reset c =>
    let x := s.connection c
    if x.state = .terminated ∧ s.Live x.owner then some (s.resetConnectionIfEq c) else none

/-! ## Connected members -/

/-- All events have been processed, and nothing is going on at any connection. -/
structure Quiescent (s : InnerTcp) : Prop where
  events : ∀ p < s.nextProcess, s.Live p → s.events p = []
  settled : ∀ c < s.nextConnection, s.Live (s.connection c).owner →
    s.connections (s.connection c).owner (s.connection c).peerMemberId = some c →
    (s.connection c).state = .ready ∧ s.Live (s.connection c).remote
  handshakes : ∀ c ∈ s.handshakes, ¬ s.Live (s.connection c).remote

instance (s : InnerTcp) : Decidable s.Quiescent :=
  decidable_of_iff
    ((∀ p < s.nextProcess, s.Live p → s.events p = []) ∧
      (∀ c < s.nextConnection, s.Live (s.connection c).owner →
        s.connections (s.connection c).owner (s.connection c).peerMemberId = some c →
        (s.connection c).state = .ready ∧ s.Live (s.connection c).remote) ∧
      ∀ c ∈ s.handshakes, ¬ s.Live (s.connection c).remote)
    ⟨fun h => ⟨h.1, h.2.1, h.2.2⟩, fun h => ⟨h.1, h.2, h.3⟩⟩

/-- Every two members that are PREPARED or ACTIVE have connections to each other registered that are
not TERMINATED. -/
def Connected (s : InnerTcp) : Prop :=
  ∀ id id' m m', id ≠ id' → s.member id = some m → s.member id' = some m' → m.state.isReady = true →
    m'.state.isReady = true → ∃ c, s.connections m.process id' = some c ∧
      (s.connection c).remote = m'.process ∧ (s.connection c).state ≠ .terminated

/-! ## Timely errors -/

/-- The id is free for a connection to that process: nothing is registered, or a connection to that
process, or one whose next attempt will be to it. -/
def FreeFor (s : InnerTcp) (p id q : ℕ) : Prop :=
  ∀ c ∈ s.connections p id, (s.connection c).remote = q ∨
    ∃ retry < 3, (s.connection c).state = .connecting retry false

/-- Events about one id are handled in their order; when a member hears of a PREPARED member with a
smaller id, the connection to the id's former member is not in the way; and no connection of a
former member is accepted when one to a member is registered for its id. -/
def Timely (s : InnerTcp) : InnerTcpStep → Prop
  | .handleEvent p k => ∀ e ∈ (s.events p)[k]?,
      (∀ e' ∈ (s.events p).take k, e'.1 ≠ e.1) ∧
        (e.2.state = .prepared → s.localReady p = true → e.1 < s.id p → s.FreeFor p e.1 e.2.process)
  | .accept i => ∀ c ∈ s.handshakes[i]?, s.Live (s.connection c).owner ∨
      ∀ c' ∈ s.connections (s.connection c).remote (s.id (s.connection c).owner),
      ¬ s.Live (s.connection c').remote
  | _ => True

instance (s : InnerTcp) (p id q : ℕ) : Decidable (s.FreeFor p id q) :=
  inferInstanceAs (Decidable (∀ c ∈ s.connections p id, _ ∨ ∃ retry < 3, _))

instance (s : InnerTcp) (a : InnerTcpStep) : Decidable (s.Timely a) := by
  unfold Timely
  split <;> infer_instance

end InnerTcp

end Idgs.Net
