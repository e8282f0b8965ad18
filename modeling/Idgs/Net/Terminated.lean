import Mathlib.Data.Fintype.Basic
import Idgs.Common.Run

/-!
# Terminated connections

The handlers of an `InnerTcpConnection` run in any thread, and several store a new state without
looking at the old one. A connection stays terminated if nothing is under way on it that stores a
state later; the handler of a write that has failed stores one itself, right after it has terminated
the connection.
-/

namespace Idgs.Net.Terminated

/-! ## State and steps -/

/-- `InnerTcpConnectionState`. -/
inductive ConnectionState
  | initial | connecting | ready | writing | terminated
deriving DecidableEq

/-- What follows a call of `terminate`: nothing, `realSendMessage` behind `startRecvHeader`, or the
rest of `handleSendMessage`. -/
inductive After
  | nothing | realSendMessage | handleSendMessage
deriving DecidableEq

/-- Where a thread is: the atomic step that it takes next. -/
inductive Pc (μ : Type*)
  | idle
  | terminateLoad (after : After)
  | terminateStore (after : After)
  | terminateClose (after : After)
  | terminatePeer (after : After)
  | terminateQueue (after : After)
  /-- The compare-and-swap of `connect`. -/
  | connect (memberId : ℤ) (retry : ℕ)
  | asyncConnect (memberId : ℤ) (retry : ℕ)
  /-- `handleConnect` with an error, and without one. -/
  | storeInitial (retry : ℕ)
  | writeHandshake
  /-- `accept`. -/
  | storeConnecting (memberId : ℤ)
  | readHandshake (memberId : ℤ)
  /-- The end of a handshake. -/
  | storeReady
  | startRecvHeader
  /-- The test for `READY` in `sendMessage`. -/
  | sendMessage
  /-- A compare-and-swap of `realSendMessage`, with the number of attempts that are left. -/
  | tryWriting (left : ℕ)
  | checkOpen
  | tryPop (held : List μ)
  | storeEmpty
  | countPop
  | asyncWrite (held : List μ)
  /-- The store in `handleSendMessage`. -/
  | storeSent

/-- `RETRY_LOCK_TIMES`. -/
def RETRY_LOCK_TIMES : ℕ := 5

/-- The rest of the call when `terminate` has returned. -/
def After.pc {μ : Type*} : After → Pc μ
  | nothing => .idle
  | realSendMessage => .tryWriting RETRY_LOCK_TIMES
  | handleSendMessage => .storeSent

/-- The thread is where it will store a state, take a message or start a write, or may come there,
whatever the state is. -/
def Pc.mayStore {μ : Type*} : Pc μ → Bool
  | terminateLoad after | terminateStore after | terminateClose after | terminatePeer
    after | terminateQueue after =>
      after = .handleSendMessage
  | asyncConnect _ _ | storeInitial _ | writeHandshake | storeConnecting _ | readHandshake
      _ | storeReady | checkOpen
  | tryPop _ | storeEmpty | asyncWrite _ | storeSent => true
  | idle | connect _ _ | startRecvHeader | sendMessage | tryWriting _ | countPop => false

variable {τ μ : Type*} [DecidableEq τ]

/-- The connection, its threads, and the queues of the members. `connects` are the retries of the
connects under way, `writes` is the number of writes under way. -/
structure Connection (τ μ : Type*) where
  state : ConnectionState := .initial
  socketOpen : Bool := false
  peerMemberId : ℤ := -1
  /-- The member whose queue is kept. -/
  queue : Option ℤ := none
  queues : ℤ → List μ := fun _ => []
  tryPopCount : ℕ := 0
  pc : τ → Pc μ := fun _ => .idle
  connects : List ℕ := []
  writes : ℕ := 0
  /-- A new connection that has been accepted and whose `accept` has not been called. -/
  acceptPending : Bool := false
  wasTerminated : Bool := false
  /-- The messages taken and the writes started after it was terminated. -/
  latePops : ℕ := 0
  lateWrites : ℕ := 0

/-- The calls: of the server, and of the I/O service when something has ended or failed. -/
inductive Call
  | connect (memberId : ℤ)
  | handleConnect (i : ℕ) (error : Bool)
  | accept (memberId : ℤ)
  | sendMessage
  | handleSendMessage (error : Bool)
  | terminate

/-- Steps: a thread starts a call, a thread takes the next step of its call, in which what it asks
of the system works or not, and a message is put into the queue of a member. -/
inductive Step (τ μ : Type*)
  | call (t : τ) (c : Call)
  | run (t : τ) (ok : Bool)
  | push (memberId : ℤ) (msg : μ)

namespace Connection

/-- The thread goes on with `p`. -/
def goto (s : Connection τ μ) (t : τ) (p : Pc μ) : Connection τ μ :=
  { s with pc := Function.update s.pc t p }

/-- The start of a call. -/
def call (s : Connection τ μ) (t : τ) : Call → Option (Connection τ μ)
  | .connect memberId => some (s.goto t (.connect memberId 0))
  | .handleConnect i error =>
    match s.connects[i]? with
    | none => none
    | some retry =>
      let s := { s with connects := s.connects.eraseIdx i }
      if error then
        some (s.goto t (if retry < 3 then .storeInitial retry else .terminateLoad .nothing))
      else some (s.goto t .writeHandshake)
  | .accept memberId =>
    if s.acceptPending then
      some { s.goto t (.storeConnecting memberId) with acceptPending := false } else none
  | .sendMessage => some (s.goto t .sendMessage)
  | .handleSendMessage error =>
    match s.writes with
    | 0 => none
    | writes + 1 =>
      let s := { s with writes := writes }
      if error then some (s.goto t (.terminateLoad .handleSendMessage))
      else some (s.goto t .storeSent)
  | .terminate => some (s.goto t (.terminateLoad .nothing))

/-- `getQueue`. -/
def getQueue (s : Connection τ μ) : Option ℤ :=
  match s.queue with
  | some memberId => some memberId
  | none => if s.peerMemberId < 0 then none else some s.peerMemberId

/-- One more, if the connection has been terminated. -/
def late (s : Connection τ μ) (n : ℕ) : ℕ := if s.wasTerminated then n + 1 else n

/-- The next step of a thread; a write has at most `batch` messages. -/
def run (batch : ℕ) (s : Connection τ μ) (t : τ) (ok : Bool) : Option (Connection τ μ) :=
  match s.pc t with
  | .idle => none
  | .terminateLoad after =>
    if s.state = .terminated then some (s.goto t after.pc)
    else some (s.goto t (.terminateStore after))
  | .terminateStore after =>
    some { s.goto t (.terminateClose after) with state := .terminated, wasTerminated := true }
  | .terminateClose after => some { s.goto t (.terminatePeer after) with socketOpen := false }
  | .terminatePeer after => some { s.goto t (.terminateQueue after) with peerMemberId := -1 }
  | .terminateQueue after => some { s.goto t after.pc with queue := none }
  | .connect memberId retry =>
    if s.state = .initial then
      some { s.goto t (.asyncConnect memberId retry) with state := .connecting }
    else some (s.goto t .idle)
  | .asyncConnect memberId retry =>
    let s := { s with peerMemberId := memberId }
    if ok then some { s.goto t .idle with socketOpen := true, connects := s.connects ++ [retry] }
    else some (s.goto t (.terminateLoad .nothing))
  | .storeInitial retry =>
    some { s.goto t (.connect s.peerMemberId (retry + 1)) with state := .initial }
  | .writeHandshake =>
    some (s.goto t (if s.socketOpen && ok then .storeReady else .terminateLoad .nothing))
  | .storeConnecting memberId =>
    some { s.goto t (.readHandshake memberId) with state := .connecting }
  | .readHandshake memberId =>
    if s.socketOpen && ok then some { s.goto t .storeReady with peerMemberId := memberId }
    else some (s.goto t (.terminateLoad .nothing))
  | .storeReady => some { s.goto t .startRecvHeader with state := .ready }
  | .startRecvHeader =>
    some (s.goto t (if s.socketOpen && ok then .tryWriting RETRY_LOCK_TIMES
      else .terminateLoad .realSendMessage))
  | .sendMessage =>
    some (s.goto t (if s.state = .ready then .tryWriting RETRY_LOCK_TIMES else .idle))
  | .tryWriting 0 => some (s.goto t .idle)
  | .tryWriting (left + 1) =>
    if s.state = .ready then some { s.goto t .checkOpen with state := .writing }
    else some (s.goto t (.tryWriting left))
  | .checkOpen => some (s.goto t (if s.socketOpen then .tryPop [] else .terminateLoad .nothing))
  | .tryPop held =>
    let rest := if held.isEmpty then .storeEmpty else .asyncWrite held
    match s.getQueue with
    | none => some (s.goto t rest)
    | some memberId =>
      match s.queues memberId with
      | [] => some { s.goto t rest with queue := some memberId }
      | msg :: msgs =>
        let held := held ++ [msg]
        some
          { s.goto t (if batch ≤ held.length then .asyncWrite held else .tryPop held) with
            queue := some memberId
            queues := Function.update s.queues memberId msgs
            latePops := s.late s.latePops }
  | .storeEmpty => some { s.goto t .countPop with state := .ready }
  | .countPop =>
    some { s.goto t (if s.tryPopCount + 1 < 3 then .tryWriting RETRY_LOCK_TIMES else .idle) with
      tryPopCount := s.tryPopCount + 1 }
  | .asyncWrite _ =>
    let s := { s with tryPopCount := 0 }
    if s.socketOpen && ok then
      some { s.goto t .idle with writes := s.writes + 1, lateWrites := s.late s.lateWrites }
    else some (s.goto t (.terminateLoad .nothing))
  | .storeSent => some { s.goto t (.tryWriting RETRY_LOCK_TIMES) with state := .ready }

/-- One step. -/
def step (batch : ℕ) (s : Connection τ μ) : Step τ μ → Option (Connection τ μ)
  | .call t c =>
    match s.pc t with
    | .idle => s.call t c
    | _ => none
  | .run t ok => s.run batch t ok
  | .push memberId msg =>
    some { s with queues := Function.update s.queues memberId (s.queues memberId ++ [msg]) }

/-- A new connection: one to connect, or an accepted one. -/
def new (accepted : Bool) : Connection τ μ := { socketOpen := accepted, acceptPending := accepted }

/-! ## What is to hold -/

/-- Once terminated, the connection is terminated, and no message has been taken and no write
started since. -/
structure StaysTerminated (s : Connection τ μ) : Prop where
  state : s.wasTerminated = true → s.state = .terminated
  noPop : s.latePops = 0
  noWrite : s.lateWrites = 0

/-- Nothing is under way on the connection but in the thread `t`. -/
def QuietBut (s : Connection τ μ) (t : τ) : Prop :=
  s.writes = 0 ∧ s.connects = [] ∧ s.acceptPending = false ∧ ∀ t', t' ≠ t →
    (s.pc t').mayStore = false

/-- The state is set to terminated by a call that ends with it, and nothing else is under way
then. -/
def TerminatesQuietly (s : Connection τ μ) : Step τ μ → Prop
  | .run t _ =>
    match s.pc t with
    | .terminateStore after => after ≠ .handleSendMessage ∧ s.QuietBut t
    | _ => True
  | _ => True

/-- The same as a test. -/
def terminatesQuietly [Fintype τ] (s : Connection τ μ) : Step τ μ → Bool
  | .run t _ =>
    match s.pc t with
    | .terminateStore after =>
      decide (after ≠ .handleSendMessage ∧ s.writes = 0 ∧ s.connects = [] ∧
        s.acceptPending = false ∧
        ∀ t', t' ≠ t → (s.pc t').mayStore = false)
    | _ => true
  | _ => true

theorem terminatesQuietly_iff [Fintype τ] (s : Connection τ μ) (a : Step τ μ) :
    s.terminatesQuietly a = true ↔ s.TerminatesQuietly a := by
  cases a with
  | call _ _ | push _ _ => exact iff_of_true rfl trivial
  | run t ok =>
    unfold terminatesQuietly TerminatesQuietly
    simp only
    split
    · exact decide_eq_true_iff
    · exact iff_of_true rfl trivial

instance [Fintype τ] (s : Connection τ μ) (a : Step τ μ) : Decidable (s.TerminatesQuietly a) :=
  decidable_of_iff _ (s.terminatesQuietly_iff a)

/-! ## Steps of a terminated connection -/

/-- The connection is terminated and nothing is under way on it. -/
structure Calm (s : Connection τ μ) : Prop where
  state : s.state = .terminated
  writes : s.writes = 0
  connects : s.connects = []
  accept : s.acceptPending = false
  quiet : ∀ t, (s.pc t).mayStore = false

/-- No message has been taken and no write started too late in a step. -/
structure SameLate (s s' : Connection τ μ) : Prop where
  terminated : s'.wasTerminated = s.wasTerminated
  pops : s'.latePops = s.latePops
  writes : s'.lateWrites = s.lateWrites

section Steps

variable {s s' : Connection τ μ} {t : τ} {ok : Bool} {batch : ℕ}

theorem Calm.goto (h : s.Calm) {p : Pc μ} (hp : p.mayStore = false) (t : τ) :
    (s.goto t p).Calm where
  __ := h
  quiet := fun t' => by
    by_cases hne : t' = t
    · subst hne
      exact (congrArg Pc.mayStore (Function.update_self t' p s.pc)).trans hp
    · exact (congrArg Pc.mayStore (Function.update_of_ne hne p s.pc)).trans (h.quiet t')

theorem mayStore_after {after : After} (h : decide (after = .handleSendMessage) = false) :
    (after.pc : Pc μ).mayStore = false := by
  cases after with
  | nothing | realSendMessage => rfl
  | handleSendMessage => cases h

/-- A thread whose next step would store a state is not in a call on a calm connection. -/
theorem Calm.elim {P : Prop} (h : s.Calm) {p : Pc μ} (hpc : s.pc t = p) (hp : p.mayStore = true) :
    P := by
  have hquiet := h.quiet t
  rw [hpc, hp] at hquiet
  cases hquiet

/-- The call of a thread on a terminated connection leaves it so. -/
theorem run_of_calm (hwas : s.wasTerminated = true) (h : s.Calm)
    (hrun : s.run batch t ok = some s') :
    s'.Calm ∧ SameLate s s' := by
  have hquiet := h.quiet t
  cases hpc : s.pc t with
  | idle => simp only [run, hpc, reduceCtorEq] at hrun
  | terminateLoad after =>
    rw [hpc] at hquiet
    simp only [run, hpc, h.state, if_true, Option.some.injEq] at hrun
    subst hrun
    exact ⟨h.goto (mayStore_after hquiet) t, rfl, rfl, rfl⟩
  | terminateStore after =>
    rw [hpc] at hquiet
    simp only [run, hpc, Option.some.injEq] at hrun
    subst hrun
    obtain ⟨-, hw, hc, ha, hq⟩ := h.goto (p := .terminateClose after) hquiet t
    exact ⟨⟨rfl, hw, hc, ha, hq⟩, hwas.symm, rfl, rfl⟩
  | terminateClose after =>
    rw [hpc] at hquiet
    simp only [run, hpc, Option.some.injEq] at hrun
    subst hrun
    obtain ⟨hst, hw, hc, ha, hq⟩ := h.goto (p := .terminatePeer after) hquiet t
    exact ⟨⟨hst, hw, hc, ha, hq⟩, rfl, rfl, rfl⟩
  | terminatePeer after =>
    rw [hpc] at hquiet
    simp only [run, hpc, Option.some.injEq] at hrun
    subst hrun
    obtain ⟨hst, hw, hc, ha, hq⟩ := h.goto (p := .terminateQueue after) hquiet t
    exact ⟨⟨hst, hw, hc, ha, hq⟩, rfl, rfl, rfl⟩
  | terminateQueue after =>
    rw [hpc] at hquiet
    simp only [run, hpc, Option.some.injEq] at hrun
    subst hrun
    obtain ⟨hst, hw, hc, ha, hq⟩ := h.goto (mayStore_after hquiet) t
    exact ⟨⟨hst, hw, hc, ha, hq⟩, rfl, rfl, rfl⟩
  | connect _ _ | sendMessage =>
    simp only [run, hpc, h.state, reduceCtorEq, if_false, Option.some.injEq] at hrun
    subst hrun
    exact ⟨h.goto rfl t, rfl, rfl, rfl⟩
  | startRecvHeader =>
    simp only [run, hpc, Option.some.injEq] at hrun
    subst hrun
    refine ⟨h.goto ?_ t, rfl, rfl, rfl⟩
    split
    · rfl
    · rfl
  | tryWriting left =>
    cases left with
    | zero =>
      simp only [run, hpc, Option.some.injEq] at hrun
      subst hrun
      exact ⟨h.goto rfl t, rfl, rfl, rfl⟩
    | succ left =>
      simp only [run, hpc, h.state, reduceCtorEq, if_false, Option.some.injEq] at hrun
      subst hrun
      exact ⟨h.goto rfl t, rfl, rfl, rfl⟩
  | countPop =>
    simp only [run, hpc, Option.some.injEq] at hrun
    subst hrun
    have hp : (if s.tryPopCount + 1 < 3 then .tryWriting RETRY_LOCK_TIMES
        else .idle : Pc μ).mayStore = false := by
      split
      · rfl
      · rfl
    obtain ⟨hst, hw, hc, ha, hq⟩ := h.goto hp t
    exact ⟨⟨hst, hw, hc, ha, hq⟩, rfl, rfl, rfl⟩
  | asyncConnect _ _ | storeInitial _ | writeHandshake | storeConnecting _ | readHandshake _
  | storeReady | checkOpen | tryPop _ | storeEmpty | asyncWrite _ | storeSent =>
    exact h.elim hpc rfl

/-- No call that would store a state can start on a calm connection. -/
theorem call_of_calm (h : s.Calm) {c : Call} (hcall : s.call t c = some s') :
    s'.Calm ∧ SameLate s s' := by
  cases c with
  | connect _ | sendMessage | terminate =>
    cases hcall
    exact ⟨h.goto rfl t, rfl, rfl, rfl⟩
  | handleConnect i error => simp only [call, h.connects, List.getElem?_nil, reduceCtorEq] at hcall
  | accept memberId =>
    simp only [call, h.accept, Bool.false_eq_true, if_false, reduceCtorEq] at hcall
  | handleSendMessage error => simp only [call, h.writes, reduceCtorEq] at hcall

/-- Before the connection is terminated, nothing is too late. -/
theorem sameLate_run (h : s.wasTerminated = false) (hpc : ∀ after, s.pc t ≠ .terminateStore after)
    (hrun : s.run batch t ok = some s') : SameLate s s' := by
  have hlate : ∀ n, s.late n = n := fun n => by simp only [late, h, Bool.false_eq_true, if_false]
  cases hstep : s.pc t with
  | idle => simp only [run, hstep, reduceCtorEq] at hrun
  | terminateStore after => exact absurd hstep (hpc after)
  | terminateLoad _ | connect _ _ | asyncConnect _ _ | readHandshake _ =>
    simp only [run, hstep] at hrun
    split at hrun
    · cases hrun
      exact ⟨rfl, rfl, rfl⟩
    · cases hrun
      exact ⟨rfl, rfl, rfl⟩
  | terminateClose _ | terminatePeer _ | terminateQueue _ | storeInitial _ | writeHandshake
  | storeConnecting _ | storeReady | startRecvHeader | sendMessage | checkOpen | storeEmpty
  | countPop | storeSent =>
    simp only [run, hstep, Option.some.injEq] at hrun
    subst hrun
    exact ⟨rfl, rfl, rfl⟩
  | tryWriting left =>
    cases left with
    | zero =>
      simp only [run, hstep, Option.some.injEq] at hrun
      subst hrun
      exact ⟨rfl, rfl, rfl⟩
    | succ left =>
      simp only [run, hstep] at hrun
      split at hrun
      · cases hrun
        exact ⟨rfl, rfl, rfl⟩
      · cases hrun
        exact ⟨rfl, rfl, rfl⟩
  | tryPop held =>
    simp only [run, hstep] at hrun
    split at hrun
    · cases hrun
      exact ⟨rfl, rfl, rfl⟩
    · split at hrun
      · cases hrun
        exact ⟨rfl, rfl, rfl⟩
      · cases hrun
        exact ⟨rfl, hlate _, rfl⟩
  | asyncWrite held =>
    simp only [run, hstep] at hrun
    split at hrun
    · cases hrun
      exact ⟨rfl, rfl, hlate _⟩
    · cases hrun
      exact ⟨rfl, rfl, rfl⟩

theorem sameLate_call {c : Call} (hcall : s.call t c = some s') : SameLate s s' := by
  cases c with
  | connect _ | sendMessage | terminate =>
    cases hcall
    exact ⟨rfl, rfl, rfl⟩
  | handleConnect _ _ | handleSendMessage _ =>
    simp only [call] at hcall
    split at hcall
    · cases hcall
    · split at hcall
      · cases hcall
        exact ⟨rfl, rfl, rfl⟩
      · cases hcall
        exact ⟨rfl, rfl, rfl⟩
  | accept memberId =>
    simp only [call] at hcall
    split at hcall
    · cases hcall
      exact ⟨rfl, rfl, rfl⟩
    · cases hcall

end Steps

/-! ## Runs -/

/-- Nothing has been too late, and a connection that has been terminated is calm. -/
structure Inv (s : Connection τ μ) : Prop where
  noPop : s.latePops = 0
  noWrite : s.lateWrites = 0
  calm : s.wasTerminated = true → s.Calm

section Runs

variable {s s' : Connection τ μ} {batch : ℕ}

theorem SameLate.inv (hsame : SameLate s s') (h : s.Inv)
    (hcalm : s.wasTerminated = true → s'.Calm) : s'.Inv where
  noPop := hsame.pops.trans h.noPop
  noWrite := hsame.writes.trans h.noWrite
  calm := fun hwas => hcalm (hsame.terminated.symm.trans hwas)

/-- A call that terminates the connection quietly leaves it calm. -/
theorem inv_terminateStore (h : s.Inv) {t : τ} {after : After}
    (hpc : s.pc t = .terminateStore after)
    (hafter : after ≠ .handleSendMessage) (hquiet : s.QuietBut t) {ok : Bool}
    (hrun : s.run batch t ok = some s') :
    s'.Inv := by
  simp only [run, hpc, Option.some.injEq] at hrun
  subst hrun
  obtain ⟨hwrites, hconnects, haccept, hothers⟩ := hquiet
  refine ⟨h.noPop, h.noWrite, fun _ => ⟨rfl, hwrites, hconnects, haccept, fun t' => ?_⟩⟩
  by_cases hne : t' = t
  · subst hne
    exact (congrArg Pc.mayStore (Function.update_self t' _ s.pc)).trans (decide_eq_false hafter)
  · exact (congrArg Pc.mayStore (Function.update_of_ne hne _ s.pc)).trans (hothers t' hne)

theorem inv_step (h : s.Inv) {a : Step τ μ} (hguard : s.TerminatesQuietly a)
    (hstep : s.step batch a = some s') :
    s'.Inv := by
  cases a with
  | push memberId msg =>
    simp only [step, Option.some.injEq] at hstep
    subst hstep
    refine ⟨h.noPop, h.noWrite, fun hwas => ?_⟩
    obtain ⟨hst, hw, hc, ha, hq⟩ := h.calm hwas
    exact ⟨hst, hw, hc, ha, hq⟩
  | call t c =>
    simp only [step] at hstep
    split at hstep
    · exact (sameLate_call hstep).inv h fun hwas => (call_of_calm (h.calm hwas) hstep).1
    · cases hstep
  | run t ok =>
    by_cases hpc : ∃ after, s.pc t = .terminateStore after
    · obtain ⟨after, hpc⟩ := hpc
      simp only [TerminatesQuietly, hpc] at hguard
      exact inv_terminateStore h hpc hguard.1 hguard.2 hstep
    · cases hwas : s.wasTerminated with
      | false =>
        have hsame := sameLate_run hwas (fun after heq => hpc ⟨after, heq⟩) hstep
        exact hsame.inv h fun htrue => absurd (hwas.symm.trans htrue) Bool.false_ne_true
      | true =>
        obtain ⟨hcalm, hsame⟩ := run_of_calm hwas (h.calm hwas) hstep
        exact hsame.inv h fun _ => hcalm

/-- In every run in which connections are terminated quietly, a terminated connection stays
terminated. -/
theorem staysTerminated_of_terminatesQuietly {accepted : Bool}
    (h : Common.Reaches (step batch) TerminatesQuietly (new accepted) s) : s.StaysTerminated := by
  have hinv : s.Inv :=
    h.invariant ⟨rfl, rfl, fun hwas => by cases hwas⟩ fun _ _ _ hinv hguard hstep =>
    inv_step hinv hguard hstep
  exact ⟨fun hwas => (hinv.calm hwas).state, hinv.noPop, hinv.noWrite⟩

end Runs

/-! ## A write that fails -/

/-- A connect, and a message for the member: it is taken, and its write is under way. -/
def connectAndWrite : List (Step Unit ℕ) :=
  [.push 1 7, .call () (.connect 1), .run () true, .run () true, .call () (.handleConnect 0 false),
    .run () true,
    .run () true, .run () true, .run () true, .run () true, .run () true, .run () true,
    .run () true]

/-- The write is done, the queue is found empty, and later a read fails. -/
def readFails : List (Step Unit ℕ) :=
  connectAndWrite ++ [.call () (.handleSendMessage false)] ++ List.replicate 16 (.run () true) ++
    [.call () .terminate] ++ List.replicate 5 (.run () true)

theorem staysTerminated_of_terminatesQuietly_readFails : ∃ s : Connection Unit ℕ,
    Common.Reaches (step 2) TerminatesQuietly
    (new false) s ∧ s.wasTerminated = true ∧ s.StaysTerminated := by
  have hend :
      ((Common.replay (step 2) TerminatesQuietly (new false : Connection Unit ℕ) readFails).any
      fun s =>
      s.wasTerminated) = true := by
    decide +kernel
  obtain ⟨s, hs, hwas⟩ := (Option.any_eq_true _ _).mp hend
  exact ⟨s, Common.reaches_of_replay hs, hwas,
    staysTerminated_of_terminatesQuietly (Common.reaches_of_replay hs)⟩

/-- The write fails. -/
def writeFails : List (Step Unit ℕ) :=
  connectAndWrite ++ [.call () (.handleSendMessage true)] ++ List.replicate 6 (.run () true)

/-- The connection that has been terminated is ready. -/
theorem not_staysTerminated_writeFails : ¬ ∀ s : Connection Unit ℕ,
    Common.Reaches (step 2) Common.anyStep (new false) s → s.StaysTerminated := by
  intro hall
  have hend :
      ((Common.replay (step 2) Common.anyStep (new false : Connection Unit ℕ) writeFails).any
      fun s =>
      s.wasTerminated && decide (s.state = .ready)) = true := by
    decide +kernel
  obtain ⟨s, hs, hbad⟩ := (Option.any_eq_true _ _).mp hend
  rw [Bool.and_eq_true, decide_eq_true_iff] at hbad
  have hstate := (hall s (Common.reaches_of_replay hs)).state hbad.1
  rw [hbad.2] at hstate
  cases hstate

end Connection

end Idgs.Net.Terminated
