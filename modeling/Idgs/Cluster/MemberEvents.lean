import Idgs.Cluster.MemberManager

/-!
# Status and flags events of members

A status or flags event names a member by its position in the membership table. The actor parses
the payload by the operation name that the event came under, and looks the slot up with
`getMember`, which also hands out the one behind the table; and `mcastMemberFlags` sends its event
under the operation name of the status events.
-/

namespace Idgs.Cluster.MemberEvents

/-! ## Events -/

/-- The cluster adapter that multicasts: Corosync sends bytes, the standalone adapter hands the
message over as it is. -/
inductive ClusterAdapter
  | corosync | standalone
deriving DecidableEq

/-- The operation names of the two events. -/
inductive OperationName
  | memberStatus | memberFlags
deriving DecidableEq

/-- `pb::MemberStatusEvent` and `pb::MemberFlagsEvent`. -/
inductive Payload
  | memberStatusEvent (memberId : UInt32) (state : MemberState)
  | memberFlagsEvent (memberId : UInt32) (flags : UInt64)
deriving DecidableEq

/-- An event of a multicast stream: what the two functions of the actor multicast, or a flags event
under its own operation name. -/
inductive MemberEvent
  | mcastMemberStatus (memberId : UInt32) (status : MemberState)
  | mcastMemberFlags (memberId : UInt32) (flags : UInt64)
  | memberFlags (memberId : UInt32) (flags : UInt64)
deriving DecidableEq

namespace MemberEvent

/-- The member that the event names. -/
def memberId : MemberEvent → UInt32
  | mcastMemberStatus memberId _ | mcastMemberFlags memberId _ | memberFlags memberId _ => memberId

/-- The operation name that the event is sent under. -/
def operationName : MemberEvent → OperationName
  | mcastMemberStatus .. => .memberStatus
  | mcastMemberFlags .. => .memberStatus
  | memberFlags .. => .memberFlags

/-- The payload of the event. -/
def payload : MemberEvent → Payload
  | mcastMemberStatus memberId status => .memberStatusEvent memberId status
  | mcastMemberFlags memberId flags | memberFlags memberId flags => .memberFlagsEvent memberId flags

end MemberEvent

/-- The state that is read from the bytes of a `flags` field: enumerators are read from 32 bits, and
an unknown one leaves the field at its default. -/
def stateOfFlags (flags : UInt64) : MemberState :=
  match flags.toUInt32.toNat with
  | 1 => .initial
  | 2 => .taken
  | 3 => .joined
  | 4 => .prepared
  | 5 => .active
  | _ => .inactive

/-- The payload that `Actor::parse` gives the handler of an operation. Fields 1 and 2 of both events
are numbers, so that the bytes of one are read as the other; a payload that is handed over as it is
fails the handler's `dynamic_cast`. -/
def received (adapter : ClusterAdapter) (operation : OperationName) (payload : Payload) :
    Option Payload :=
  match operation, payload with
  | .memberStatus, .memberStatusEvent memberId state => some (.memberStatusEvent memberId state)
  | .memberFlags, .memberFlagsEvent memberId flags => some (.memberFlagsEvent memberId flags)
  | .memberStatus, .memberFlagsEvent memberId flags =>
    if adapter = .corosync then some (.memberStatusEvent memberId (stateOfFlags flags)) else none
  | .memberFlags, .memberStatusEvent memberId state =>
    if adapter = .corosync then
      some (.memberFlagsEvent memberId (UInt64.ofNat state.toNat))
    else none

/-! ## Handlers -/

/-- `MemberManagerActor::getMember`: the slot that the pointer points at. -/
def getMember (members : List Member) (memberId : ℕ) : Option ℕ :=
  if members = [] ∨ members.length < memberId then none else some memberId

/-- An access of a handler to a slot of the table. -/
inductive Access
  | setMemberStatus (slot : ℕ) (status : MemberState)
  | setFlags (slot : ℕ) (flags : UInt64)
deriving DecidableEq

/-- The slot that is accessed. -/
def Access.slot : Access → ℕ
  | setMemberStatus slot _ | setFlags slot _ => slot

/-- Whether the handlers look at events at all: `!members.empty() && getLocalMember()`. -/
def Listens (n : Node) : Prop := n.members ≠ [] ∧ n.getLocalMember ≠ none

instance (n : Node) : Decidable (Listens n) := inferInstanceAs (Decidable (_ ∧ _))

/-- `MemberManagerActor::handleMemberStatusEvent`: its accesses, `none` if it reads through a null
pointer. -/
def handleMemberStatusEvent (n : Node) (payload : Option Payload) : Option (List Access) :=
  if Listens n then
    match payload with
    | some (.memberStatusEvent memberId state) =>
      match getMember n.members memberId.toNat with
      | some slot => some [.setMemberStatus slot state]
      | none => some []
    | _ => none
  else some []

/-- `MemberManagerActor::handleMemberFlagsEvent`. -/
def handleMemberFlagsEvent (n : Node) (payload : Option Payload) : Option (List Access) :=
  if Listens n then
    match payload with
    | some (.memberFlagsEvent memberId flags) =>
      match getMember n.members memberId.toNat with
      | some slot => some [.setFlags slot flags]
      | none => some []
    | _ => none
  else some []

/-- The handler of an operation, from `getMessageHandlerMap`. -/
def handler : OperationName → Node → Option Payload → Option (List Access)
  | .memberStatus => handleMemberStatusEvent
  | .memberFlags => handleMemberFlagsEvent

/-- What a process does with an event. -/
def process (adapter : ClusterAdapter) (n : Node) (event : MemberEvent) : Option (List Access) :=
  handler event.operationName n (received adapter event.operationName event.payload)

/-- What an access does to the process. -/
def perform (oracle : ℕ → BalanceOracle) (n : Node) : Access → Node
  | .setMemberStatus slot status => (n.setMemberStatus oracle slot status).1
  | .setFlags slot flags =>
    { n with members := n.members.modify slot fun m => { m with flags := flags } }

/-! ## What handlers should do -/

/-- The flags are applied to the member, if there is one, and nothing else is done. -/
def appliedFlags (n : Node) (memberId : UInt32) (flags : UInt64) : List Access :=
  if Listens n ∧ memberId.toNat < n.members.length then [.setFlags memberId.toNat flags] else []

/-- An event is handled right: only existing slots are accessed, and an event of `mcastMemberFlags`
is applied as flags of the member. -/
structure Right (adapter : ClusterAdapter) (n : Node) (event : MemberEvent)
    (accesses : List Access) : Prop where
  processed : process adapter n event = some accesses
  exist : ∀ a ∈ accesses, a.slot < n.members.length
  flags : ∀ memberId flags, event = .mcastMemberFlags memberId flags →
    accesses = appliedFlags n memberId flags

/-- All events of a stream are handled right, one after the other. -/
def AllRight (adapter : ClusterAdapter) (oracle : ℕ → BalanceOracle) :
    Node → List MemberEvent → Prop
  | _, [] => True
  | n, event :: events => ∃ accesses, Right adapter n event accesses ∧
      AllRight adapter oracle (accesses.foldl (perform oracle) n) events

/-- The event does not name the slot behind the table, and if it comes from `mcastMemberFlags`, it
comes as bytes and names no slot of the table. -/
def Harmless (adapter : ClusterAdapter) (size : ℕ) (event : MemberEvent) : Prop :=
  event.memberId.toNat ≠ size ∧
    ∀ memberId flags, event = .mcastMemberFlags memberId flags →
      adapter = .corosync ∧ size < memberId.toNat

/-! ## Streams -/

section Streams

variable {adapter : ClusterAdapter} {n : Node}

/-- An access keeps the size of the table and the place of the local member. -/
theorem perform_listens (oracle : ℕ → BalanceOracle) (n : Node) (a : Access) :
    (perform oracle n a).members.length = n.members.length ∧
      (Listens (perform oracle n a) ↔ Listens n) := by
  have hmodify : ∀ (slot : ℕ) (f : Member → Member) (n' : Node),
      n'.members = n.members.modify slot f → n'.localMemberIndex = n.localMemberIndex →
      n'.members.length = n.members.length ∧ (Listens n' ↔ Listens n) := by
    intro slot f n' hmembers hindex
    have hlength : n'.members.length = n.members.length := by
      rw [hmembers, List.length_modify]
    refine ⟨hlength, ?_⟩
    unfold Listens Node.getLocalMember
    rw [hindex, ne_eq, ← List.length_eq_zero_iff, hlength, List.length_eq_zero_iff]
    split
    · exact Iff.rfl
    · simp only [ne_eq, List.getElem?_eq_none_iff, hlength]
  cases a with
  | setMemberStatus slot status => exact hmodify slot (·.setState status) _ rfl rfl
  | setFlags slot flags => exact hmodify slot (fun m => { m with flags := flags }) _ rfl rfl

theorem foldl_perform_listens (oracle : ℕ → BalanceOracle) (n : Node) (accesses : List Access) :
    (accesses.foldl (perform oracle) n).members.length = n.members.length ∧
      (Listens (accesses.foldl (perform oracle) n) ↔ Listens n) := by
  induction accesses generalizing n with
  | nil => exact ⟨rfl, Iff.rfl⟩
  | cons a accesses ih =>
    obtain ⟨hlength, hlistens⟩ := perform_listens oracle n a
    obtain ⟨hrest, hlistens'⟩ := ih (perform oracle n a)
    exact ⟨hrest.trans hlength, hlistens'.trans hlistens⟩

/-- A process without a local member does nothing. -/
theorem process_of_not_listens (h : ¬ Listens n) (event : MemberEvent) :
    process adapter n event = some [] := by
  unfold process
  cases event.operationName with
  | memberStatus | memberFlags => exact if_neg h

/-- `getMember` of a table that is not empty: the slot, if it is one or lies behind the table. -/
theorem getMember_of_listens (h : Listens n) (memberId : ℕ) :
    getMember n.members memberId = if n.members.length < memberId then none else some memberId := by
  unfold getMember
  simp only [h.1, false_or]

/-- What a process with a local member does with a status event. -/
theorem handleMemberStatusEvent_of_listens (h : Listens n) (memberId : UInt32)
    (state : MemberState) :
    handleMemberStatusEvent n (some (.memberStatusEvent memberId state)) = some (
      if n.members.length < memberId.toNat then []
      else [.setMemberStatus memberId.toNat state]) := by
  rw [handleMemberStatusEvent, if_pos h]
  simp only [getMember_of_listens h]
  by_cases hlt : n.members.length < memberId.toNat
  · simp only [if_pos hlt]
  · simp only [if_neg hlt]

/-- What a process with a local member does with a flags event. -/
theorem handleMemberFlagsEvent_of_listens (h : Listens n) (memberId : UInt32) (flags : UInt64) :
    handleMemberFlagsEvent n (some (.memberFlagsEvent memberId flags)) = some (
      if n.members.length < memberId.toNat then [] else [.setFlags memberId.toNat flags]) := by
  rw [handleMemberFlagsEvent, if_pos h]
  simp only [getMember_of_listens h]
  by_cases hlt : n.members.length < memberId.toNat
  · simp only [if_pos hlt]
  · simp only [if_neg hlt]

/-- The accesses for an event whose payload the handler gets as it was sent. -/
theorem exists_right_iff_of_access {event : MemberEvent} {access : ℕ → Access}
    (hslot : ∀ slot, (access slot).slot = slot) (hprocess : process adapter n event = some (
      if n.members.length < event.memberId.toNat then [] else [access event.memberId.toNat]))
    (hflags : ∀ memberId flags, event ≠ .mcastMemberFlags memberId flags) :
    (∃ accesses, Right adapter n event accesses) ↔ event.memberId.toNat ≠ n.members.length := by
  constructor
  · rintro ⟨accesses, hright⟩ heq
    obtain rfl := Option.some.inj (hprocess.symm.trans hright.processed)
    rw [if_neg (by omega)] at hright
    have hlt := hright.exist _ (List.mem_singleton_self _)
    rw [hslot] at hlt
    omega
  · intro hne
    refine ⟨_, hprocess, fun a ha => ?_, fun memberId flags heq => absurd heq (hflags _ _)⟩
    split at ha
    · cases ha
    · rw [List.mem_singleton.mp ha, hslot]
      omega

/-- **Which event is handled right.** -/
theorem exists_right_iff (adapter : ClusterAdapter) (n : Node) (event : MemberEvent) :
    (∃ accesses, Right adapter n event accesses) ↔
      ¬ Listens n ∨ Harmless adapter n.members.length event := by
  by_cases h : Listens n
  · rw [or_iff_right (not_not.mpr h)]
    cases event with
    | mcastMemberStatus memberId status =>
      have hprocess : process adapter n (.mcastMemberStatus memberId status) = some (
          if n.members.length < memberId.toNat then []
          else [.setMemberStatus memberId.toNat status]) :=
        handleMemberStatusEvent_of_listens h memberId status
      rw [exists_right_iff_of_access (fun slot => (rfl : (Access.setMemberStatus slot status).slot
        = slot)) hprocess fun _ _ => MemberEvent.noConfusion]
      exact ⟨fun hne => ⟨hne, fun _ _ => MemberEvent.noConfusion⟩, And.left⟩
    | memberFlags memberId flags =>
      have hprocess : process adapter n (.memberFlags memberId flags) = some (
          if n.members.length < memberId.toNat then []
          else [.setFlags memberId.toNat flags]) :=
        handleMemberFlagsEvent_of_listens h memberId flags
      rw [exists_right_iff_of_access (fun slot => (rfl : (Access.setFlags slot flags).slot
        = slot)) hprocess fun _ _ => MemberEvent.noConfusion]
      exact ⟨fun hne => ⟨hne, fun _ _ => MemberEvent.noConfusion⟩, And.left⟩
    | mcastMemberFlags memberId flags =>
      have hprocess : process adapter n (.mcastMemberFlags memberId flags) =
          if adapter = .corosync then
            some (if n.members.length < memberId.toNat then []
              else [.setMemberStatus memberId.toNat (stateOfFlags flags)])
          else none := by
        by_cases hadapter : adapter = .corosync
        · have hread : received adapter .memberStatus (.memberFlagsEvent memberId flags) =
              some (.memberStatusEvent memberId (stateOfFlags flags)) := if_pos hadapter
          rw [if_pos hadapter, ← handleMemberStatusEvent_of_listens h, ← hread]
          rfl
        · have hread : received adapter .memberStatus (.memberFlagsEvent memberId flags) =
              none := if_neg hadapter
          have hnull : handleMemberStatusEvent n none = none := if_pos h
          rw [if_neg hadapter, ← hnull, ← hread]
          rfl
      constructor
      · rintro ⟨accesses, hright⟩
        have hsame := hright.flags memberId flags rfl
        have hprocessed := hprocess.symm.trans hright.processed
        split at hprocessed
        next hadapter =>
          obtain rfl := Option.some.inj hprocessed
          -- an access to a slot would have to be both of the status and of the flags
          have hbehind : n.members.length < memberId.toNat := by
            by_contra hle
            rw [if_neg hle, appliedFlags] at hsame
            split at hsame
            · cases hsame
            · cases hsame
          refine ⟨Nat.ne_of_gt hbehind, fun id flags' heq => ?_⟩
          obtain ⟨rfl, -⟩ := MemberEvent.mcastMemberFlags.inj heq
          exact ⟨hadapter, hbehind⟩
        next => cases hprocessed
      · rintro ⟨-, hbehind⟩
        obtain ⟨hadapter, hlt⟩ := hbehind memberId flags rfl
        rw [if_pos hadapter, if_pos hlt] at hprocess
        refine ⟨[], hprocess, fun a ha => absurd ha List.not_mem_nil, fun id flags' heq => ?_⟩
        obtain ⟨rfl, -⟩ := MemberEvent.mcastMemberFlags.inj heq
        exact (if_neg fun hin => absurd hin.2 (by omega)).symm
  · refine iff_of_true ⟨[], process_of_not_listens h event, fun a ha => absurd ha List.not_mem_nil,
      fun memberId flags _ => ?_⟩ (.inl h)
    exact (if_neg fun hin => h hin.1).symm

/-- **Member events are handled right exactly when they are harmless.** On a process with a local
member that is every stream in which no event names the slot behind the table, and events of
`mcastMemberFlags` are sent as bytes and name no slot of the table. -/
theorem allRight_iff (adapter : ClusterAdapter) (oracle : ℕ → BalanceOracle) (n : Node)
    (events : List MemberEvent) :
    AllRight adapter oracle n events ↔
      ¬ Listens n ∨ ∀ event ∈ events, Harmless adapter n.members.length event := by
  induction events generalizing n with
  | nil => exact iff_of_true trivial (.inr fun event hevent => absurd hevent List.not_mem_nil)
  | cons event events ih =>
      have hstep := exists_right_iff adapter n event
      rw [AllRight, List.forall_mem_cons]
      constructor
      · rintro ⟨accesses, hright, hrest⟩
        obtain ⟨hlength, hlistens⟩ := foldl_perform_listens oracle n accesses
        rw [ih, hlength, hlistens] at hrest
        have hfirst := hstep.mp ⟨accesses, hright⟩
        tauto
      · intro h
        have hfirst : ¬ Listens n ∨ Harmless adapter n.members.length event := by tauto
        obtain ⟨accesses, hright⟩ := hstep.mpr hfirst
        obtain ⟨hlength, hlistens⟩ := foldl_perform_listens oracle n accesses
        refine ⟨accesses, hright, ?_⟩
        rw [ih, hlength, hlistens]
        tauto

end Streams

/-- A process that is the only member. -/
def onlyMember : Node where
  cfg := { id := 0, state := .active }
  cluster := ⟨1, 1⟩
  localMemberIndex := 0
  members := [{ id := 0, state := .active }]

/-- A status event for member 1 goes to the slot behind the table, and a flags event for member 0
sets its state. -/
theorem not_allRight_onlyMember :
    ¬ AllRight .corosync (fun _ => ⟨id, fun _ _ => 0⟩) onlyMember [.mcastMemberStatus 1 .active] ∧
      ¬ AllRight .corosync (fun _ => ⟨id, fun _ _ => 0⟩) onlyMember [.mcastMemberFlags 0 1] := by
  constructor
  · rintro ⟨accesses, hright, -⟩
    have hprocess : process .corosync onlyMember (.mcastMemberStatus 1 .active) =
        some [.setMemberStatus 1 .active] := rfl
    obtain rfl := Option.some.inj (hprocess.symm.trans hright.processed)
    have hlt := hright.exist _ (List.mem_singleton_self _)
    exact absurd hlt (by decide)
  · rintro ⟨accesses, hright, -⟩
    have hprocess : process .corosync onlyMember (.mcastMemberFlags 0 1) =
        some [.setMemberStatus 0 .initial] := rfl
    obtain rfl := Option.some.inj (hprocess.symm.trans hright.processed)
    exact absurd (hright.flags 0 1 rfl) (by decide)

end Idgs.Cluster.MemberEvents
