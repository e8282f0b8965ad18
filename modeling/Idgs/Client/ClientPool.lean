import Mathlib.Data.Bool.Basic
import Idgs.Common.Lending
import Idgs.Common.Run

/-!
# Borrowed clients

`TcpClientPool` lends its clients to wrappers, each of which gives its client back when it is
closed. A client that is neither in the pool nor with a wrapper has no owner left: it is destroyed,
which closes its connection. The search of `getTcpClient` compares the clients it has popped with
what is left in the pool, and may stop at a closed client.
-/

namespace Idgs.Client.Borrowed

open Function List

open Common (Conserved Reaches replay anyStep reaches_of_replay)

/-! ## The pool and its calls -/

/-- The result codes that the pool sets, and the others that a caller may have in its variable. -/
inductive ResultCode
  | success | error | poolIsAlreadyInit | allServersNotAvailable | other (code : ℕ)
deriving DecidableEq

/-- `MAX_TRY_TIME_GET_CLIENT_FROM_POOL`. -/
def MAX_TRY_TIME_GET_CLIENT_FROM_POOL : ℕ := 10

/-- Where a call of `getTcpClient` is, and then its wrapper. `code` is the caller's variable. -/
inductive Phase
  | fresh
  | tryPop (tryCount count : ℕ) (code : ResultCode)
  /-- A client has been popped; next is the test whether it is open. -/
  | isOpen (client tryCount count : ℕ) (code : ResultCode)
  /-- The condition of the loop; `popped` tells that this turn has popped a client, which was
  closed. -/
  | compare (tryCount count : ℕ) (code : ResultCode) (popped : Bool)
  | noWrapper
  | wrapper (client : ℕ)
  /-- `putBack` has found the pool initialized. -/
  | tryPush (client : ℕ)
  | released

namespace Phase

/-- The client of a wrapper. A popped client counts as held by the wrapper that the call is to
make. -/
def client? : Phase → Option ℕ
  | isOpen client _ _ _ | wrapper client | tryPush client => some client
  | _ => none

/-- The call has not returned. -/
def searching : Phase → Bool
  | tryPop _ _ _ | isOpen _ _ _ _ | compare _ _ _ _ => true
  | _ => false

end Phase

/-- What `getTcpClient` has returned: the code, the client in the wrapper, whether the client was
open then, and whether an open client was in the pool all through the call. -/
structure Return where
  code : ResultCode
  client : Option ℕ := none
  wasOpen : Bool := false
  openThroughout : Bool

/-- The call has handed out an open client. -/
def Return.HandsOut (r : Return) : Prop := (∃ client, r.client = some client) ∧ r.wasOpen = true

/-- The pool, the clients' connections, and the calls with their wrappers. -/
structure TcpClientPool where
  /-- `isLoaded` is `INITIALIZED`. -/
  isLoaded : Bool
  /-- The capacity of the queue, `none` until it is set. -/
  capacity : Option ℕ
  pool : List ℕ
  isOpen : ℕ → Bool
  /-- A `close` has changed `isLoaded` and will clear the queue. -/
  clearing : Bool := false
  phase : ℕ → Phase := fun _ => .fresh
  /-- For a call under way, whether an open client has been in the pool in each state since it
  began. -/
  openThroughout : ℕ → Bool := fun _ => false
  returned : ℕ → Option Return := fun _ => none

/-- Steps: a caller calls `getTcpClient` with `code` in its variable, a call or a `putBack` takes
its next step, a wrapper is closed, a connection fails, and the pool is closed, in two steps. -/
inductive Step
  | getTcpClient (c : ℕ) (code : ResultCode)
  | run (c : ℕ)
  | release (c : ℕ)
  | connectionFails (client : ℕ)
  | close
  | clear

namespace TcpClientPool

/-- The call `c` goes on with `p`. -/
def goto (s : TcpClientPool) (c : ℕ) (p : Phase) : TcpClientPool :=
  { s with phase := Function.update s.phase c p }

/-- The call `c` returns. -/
def ret (s : TcpClientPool) (c : ℕ) (r : Return) : TcpClientPool :=
  { s with returned := Function.update s.returned c (some r) }

/-- The connection of a client is closed: it has failed, or the client's last owner is gone. -/
def shut (s : TcpClientPool) (client : ℕ) : TcpClientPool :=
  { s with isOpen := Function.update s.isOpen client false }

/-- There is an open client in the pool. -/
def hasOpen (s : TcpClientPool) : Bool := s.pool.any s.isOpen

/-- The queue takes no more. -/
def full (s : TcpClientPool) : Bool :=
  match s.capacity with
  | none => false
  | some capacity => decide (capacity ≤ s.pool.length)

/-- The next step of the call `c` of `getTcpClient`, or of its wrapper's `putBack`. -/
def run (s : TcpClientPool) (c : ℕ) : Option TcpClientPool :=
  match s.phase c with
  | .tryPop tryCount count code =>
    match s.pool with
    | [] => some (s.goto c (.compare tryCount count .error false))
    | client :: rest =>
      some { s.goto c (.isOpen client tryCount (count + 1) code) with pool := rest }
  | .isOpen client tryCount count code =>
    if s.isOpen client then
      some ((s.goto c (.wrapper client)).ret c
        { code := .success, client := some client, wasOpen := s.isOpen client,
          openThroughout := s.openThroughout c })
    else some (s.goto c (.compare tryCount count code true))
  | .compare tryCount count code _ =>
    if count < s.pool.length ∧ tryCount < MAX_TRY_TIME_GET_CLIENT_FROM_POOL then
      some (s.goto c (.tryPop (tryCount + 1) count code))
    else some ((s.goto c .noWrapper).ret c { code := code, openThroughout := s.openThroughout c })
  | .tryPush client =>
    if s.full then some ((s.goto c .released).shut client)
    else some { s.goto c .released with pool := s.pool ++ [client] }
  | _ => none

/-- One step, but for what is observed of it. -/
def act (s : TcpClientPool) : Step → Option TcpClientPool
  | .getTcpClient c code =>
    match s.phase c with
    | .fresh =>
      some { s.goto c (.tryPop 1 0 code) with
        openThroughout := Function.update s.openThroughout c true }
    | _ => none
  | .run c => s.run c
  | .release c =>
    match s.phase c with
    | .wrapper client =>
      if s.isLoaded then some (s.goto c (.tryPush client))
      else some ((s.goto c .released).shut client)
    | _ => none
  | .connectionFails client => some (s.shut client)
  | .close => if s.isLoaded then some { s with isLoaded := false, clearing := true } else some s
  | .clear =>
    if s.clearing then
      some { s with
        pool := [], isOpen := fun k => s.isOpen k && decide (k ∉ s.pool), clearing := false }
    else none

/-- The calls under way see whether there is an open client in the pool. -/
def observe (s : TcpClientPool) : TcpClientPool :=
  { s with openThroughout := fun c =>
      if (s.phase c).searching then s.openThroughout c && s.hasOpen else s.openThroughout c }

/-- One step. -/
def step (s : TcpClientPool) (a : Step) : Option TcpClientPool := (s.act a).map observe

end TcpClientPool

/-! ## Loading the configuration -/

/-- `Endpoint`. -/
structure Endpoint where
  host : String
  port : String

/-- What `loadConfig` reads of a configuration. -/
structure ClientConfig where
  serverAddresses : List Endpoint
  poolSize : ℕ

/-- The servers that a first client of each can connect to; `connects server i` tells whether the
connection `i` to `server` works. -/
def ClientConfig.availableServers (config : ClientConfig) (connects : Endpoint → ℕ → Bool) :
    List Endpoint :=
  (config.serverAddresses.zipIdx.filter fun (server, i) => connects server i).map Prod.fst

/-- `loadConfig` of a pool that is not initialized; `config` is the result of `parseIdgsConfig`. The
client with the id `step` is put into the pool if it has connected to its server. -/
def loadConfig (config : Except ResultCode ClientConfig) (connects : Endpoint → ℕ → Bool) :
    ResultCode × TcpClientPool :=
  match config with
  | .error code =>
    (code, { isLoaded := true, capacity := none, pool := [], isOpen := fun _ => false })
  | .ok config =>
    let availableServers := config.availableServers connects
    if availableServers.isEmpty then
      (.allServersNotAvailable,
        { isLoaded := true, capacity := none, pool := [], isOpen := fun _ => false })
    else
      let pool := (List.range config.poolSize).filter fun step =>
        match availableServers[step % availableServers.length]? with
        | none => false
        | some server => connects server (config.serverAddresses.length + step)
      (.success,
        { isLoaded := true, capacity := some config.poolSize, pool := pool,
          isOpen := fun k => decide (k ∈ pool) })

namespace TcpClientPool

/-! ## What is to hold -/

/-- The client that each call's wrapper holds. -/
def holder (s : TcpClientPool) : ℕ → Option ℕ := Phase.client? ∘ s.phase

/-- Each open client is in the pool or with one wrapper; each call returns success just if it has
handed out an open client, and has done so if an open client was in the pool all through it. -/
structure Right (s : TcpClientPool) : Prop where
  conserved : ∀ k, s.isOpen k = true →
    (s.pool.count k = 1 ∧ ∀ c, s.holder c ≠ some k) ∨ (k ∉ s.pool ∧ ∃! c, s.holder c = some k)
  success_iff : ∀ c r, s.returned c = some r → (r.code = .success ↔ r.HandsOut)
  handsOut : ∀ c r, s.returned c = some r → r.openThroughout = true → r.HandsOut

/-- No search stops at a closed client, unless its caller's variable says no success and the pool
was without an open client at some time since the call began. -/
def KeepsSearching (s : TcpClientPool) : Step → Prop
  | .run c =>
    match s.phase c with
    | .compare tryCount count code true =>
      (count < s.pool.length ∧ tryCount < MAX_TRY_TIME_GET_CLIENT_FROM_POOL) ∨
        (code ≠ .success ∧ s.openThroughout c = false)
    | _ => True
  | _ => True

/-- The same as a test. -/
def keepsSearching (s : TcpClientPool) : Step → Bool
  | .run c =>
    match s.phase c with
    | .compare tryCount count code true =>
      decide ((count < s.pool.length ∧ tryCount < MAX_TRY_TIME_GET_CLIENT_FROM_POOL) ∨
        (code ≠ .success ∧ s.openThroughout c = false))
    | _ => true
  | _ => true

theorem keepsSearching_iff (s : TcpClientPool) (a : Step) :
    s.keepsSearching a = true ↔ s.KeepsSearching a := by
  cases a with
  | run c =>
    unfold keepsSearching KeepsSearching
    simp only
    split
    · exact decide_eq_true_iff
    · exact iff_of_true rfl trivial
  | _ => exact iff_of_true rfl trivial

instance (s : TcpClientPool) (a : Step) : Decidable (s.KeepsSearching a) :=
  decidable_of_iff _ (s.keepsSearching_iff a)

/-! ## Who has a client -/

/-- Each client is in one place; a search that has found the pool empty has set the error and was
without an open client in the pool. -/
structure Inv (s : TcpClientPool) : Prop where
  conserved : Conserved s.pool s.holder (fun k => s.isOpen k = true)
  foundEmpty : ∀ c tryCount count code, s.phase c = .compare tryCount count code false →
    code = .error ∧ s.openThroughout c = false

section Steps

variable {s s' : TcpClientPool} {a : Step} {c : ℕ} {p : Phase}

theorem holder_goto (s : TcpClientPool) (c : ℕ) (p : Phase) :
    (s.goto c p).holder = update s.holder c p.client? :=
  comp_update Phase.client? s.phase c p

theorem holder_of_phase (h : s.phase c = p) : s.holder c = p.client? := congrArg Phase.client? h

/-- A step of a call that keeps its client, or has none, moves no client. -/
theorem conserved_goto (h : Conserved s.pool s.holder (fun k => s.isOpen k = true)) {q : Phase}
    (hq : s.phase c = q) (hp : q.client? = p.client?) :
    Conserved s.pool (s.goto c p).holder (fun k => s.isOpen k = true) := by
  rw [holder_goto, ← hp, ← holder_of_phase hq, update_eq_self]
  exact h

/-- The other clients are open as before when one is closed. -/
theorem isOpen_shut {client k : ℕ} (h : (s.shut client).isOpen k = true) :
    s.isOpen k = true ∧ k ≠ client := by
  change update s.isOpen client false k = true at h
  have hne : k ≠ client := by
    rintro rfl
    rw [update_self] at h
    cases h
  rw [update_of_ne hne] at h
  exact ⟨h, hne⟩

/-- A wrapper lets its client go, and nobody has it. -/
theorem conserved_drop (h : Conserved s.pool s.holder (fun k => s.isOpen k = true)) {client : ℕ}
    (hc : s.holder c = some client) (hp : p.client? = none) :
    Conserved ((s.goto c p).shut client).pool ((s.goto c p).shut client).holder
      (fun k => ((s.goto c p).shut client).isOpen k = true) := by
  show Conserved s.pool (s.goto c p).holder _
  rw [holder_goto, hp]
  exact h.discard hc fun k hk => isOpen_shut (s := s.goto c p) hk

/-- What a step can do, with what it has found. -/
inductive Acts (s : TcpClientPool) : Step → TcpClientPool → Prop
  | call {c : ℕ} (code : ResultCode) (hphase : s.phase c = .fresh) :
      Acts s (.getTcpClient c code)
        { s.goto c (.tryPop 1 0 code) with
          openThroughout := Function.update s.openThroughout c true }
  | findsEmpty {c tryCount count : ℕ} {code : ResultCode}
      (hphase : s.phase c = .tryPop tryCount count code)
      (hpool : s.pool = []) : Acts s (.run c) (s.goto c (.compare tryCount count .error false))
  | pops {c tryCount count client : ℕ} {code : ResultCode} {rest : List ℕ}
      (hphase : s.phase c = .tryPop tryCount count code) (hpool : s.pool = client :: rest) :
      Acts s (.run c) { s.goto c (.isOpen client tryCount (count + 1) code) with pool := rest }
  | handsOut {c client tryCount count : ℕ} {code : ResultCode}
      (hphase : s.phase c = .isOpen client tryCount count code) (hopen : s.isOpen client = true) :
      Acts s (.run c) ((s.goto c (.wrapper client)).ret c
        { code := .success, client := some client, wasOpen := s.isOpen client,
          openThroughout := s.openThroughout c })
  | findsClosed {c client tryCount count : ℕ} {code : ResultCode}
      (hphase : s.phase c = .isOpen client tryCount count code)
      (hclosed : ¬ s.isOpen client = true) :
      Acts s (.run c) (s.goto c (.compare tryCount count code true))
  | goesOn {c tryCount count : ℕ} {code : ResultCode} {popped : Bool}
      (hphase : s.phase c = .compare tryCount count code popped) :
      Acts s (.run c) (s.goto c (.tryPop (tryCount + 1) count code))
  | stops {c tryCount count : ℕ} {code : ResultCode} {popped : Bool}
      (hphase : s.phase c = .compare tryCount count code popped)
      (hstops : ¬(count < s.pool.length ∧ tryCount < MAX_TRY_TIME_GET_CLIENT_FROM_POOL)) :
      Acts s (.run c)
        ((s.goto c .noWrapper).ret c { code := code, openThroughout := s.openThroughout c })
  | drops {c client : ℕ} (hphase : s.phase c = .tryPush client) :
      Acts s (.run c) ((s.goto c .released).shut client)
  | pushes {c client : ℕ} (hphase : s.phase c = .tryPush client) :
      Acts s (.run c) { s.goto c .released with pool := s.pool ++ [client] }
  | putsBack {c client : ℕ} (hphase : s.phase c = .wrapper client) :
      Acts s (.release c) (s.goto c (.tryPush client))
  | letsGo {c client : ℕ} (hphase : s.phase c = .wrapper client) :
      Acts s (.release c) ((s.goto c .released).shut client)
  | fails (client : ℕ) : Acts s (.connectionFails client) (s.shut client)
  | closes : Acts s .close { s with isLoaded := false, clearing := true }
  | staysClosed : Acts s .close s
  | clears : Acts s .clear
      { s with pool := [], isOpen := fun k => s.isOpen k && decide (k ∉ s.pool), clearing := false }

theorem acts_of_run (hrun : s.run c = some s') : s.Acts (.run c) s' := by
  unfold run at hrun
  split at hrun
  next tryCount count code hphase =>
    split at hrun
    next hpool =>
      obtain rfl := Option.some.inj hrun
      exact .findsEmpty hphase hpool
    next client rest hpool =>
      obtain rfl := Option.some.inj hrun
      exact .pops hphase hpool
  next client tryCount count code hphase =>
    split at hrun
    next hopen =>
      obtain rfl := Option.some.inj hrun
      exact .handsOut hphase hopen
    next hclosed =>
      obtain rfl := Option.some.inj hrun
      exact .findsClosed hphase hclosed
  next tryCount count code popped hphase =>
    split at hrun
    next hgoes =>
      obtain rfl := Option.some.inj hrun
      exact .goesOn hphase
    next hstops =>
      obtain rfl := Option.some.inj hrun
      exact .stops hphase hstops
  next client hphase =>
    split at hrun
    next hfull =>
      obtain rfl := Option.some.inj hrun
      exact .drops hphase
    next hroom =>
      obtain rfl := Option.some.inj hrun
      exact .pushes hphase
  next => cases hrun

theorem acts_of_act (hact : s.act a = some s') : s.Acts a s' := by
  cases a with
  | getTcpClient c code =>
    simp only [act] at hact
    split at hact
    next hphase =>
      obtain rfl := Option.some.inj hact
      exact .call code hphase
    next => cases hact
  | run c => exact acts_of_run hact
  | release c =>
    simp only [act] at hact
    split at hact
    next client hphase =>
      split at hact
      next hloaded =>
        obtain rfl := Option.some.inj hact
        exact .putsBack hphase
      next hclosed =>
        obtain rfl := Option.some.inj hact
        exact .letsGo hphase
    next => cases hact
  | connectionFails client =>
    obtain rfl := Option.some.inj hact
    exact .fails client
  | close =>
    simp only [act] at hact
    split at hact
    next hloaded =>
      obtain rfl := Option.some.inj hact
      exact .closes
    next hclosed =>
      obtain rfl := Option.some.inj hact
      exact .staysClosed
  | clear =>
    simp only [act] at hact
    split at hact
    next hclearing =>
      obtain rfl := Option.some.inj hact
      exact .clears
    next => cases hact

/-- Every step leaves each open client in one place. -/
theorem act_conserved (h : Conserved s.pool s.holder (fun k => s.isOpen k = true))
    (hact : s.act a = some s') :
    Conserved s'.pool s'.holder (fun k => s'.isOpen k = true) := by
  cases acts_of_act hact with
  | call code hphase => exact conserved_goto h hphase rfl
  | findsEmpty hphase hpool => exact conserved_goto h hphase rfl
  | @pops c tryCount count client code rest hphase hpool =>
    show Conserved rest (s.goto c _).holder _
    rw [holder_goto]
    rw [hpool] at h
    exact h.lend (holder_of_phase hphase)
  | handsOut hphase hopen => exact conserved_goto h hphase rfl
  | @findsClosed c client tryCount count code hphase hclosed =>
    show Conserved s.pool (s.goto c _).holder _
    rw [holder_goto]
    -- the popped client has no owner left, but is closed
    refine h.discard (holder_of_phase hphase) fun k hk => ⟨hk, ?_⟩
    rintro rfl
    exact hclosed hk
  | goesOn hphase | putsBack hphase => exact conserved_goto h hphase rfl
  | stops hphase hstops => exact conserved_goto h hphase rfl
  | drops hphase | letsGo hphase => exact conserved_drop h (holder_of_phase hphase) rfl
  | @pushes c client hphase =>
    show Conserved (s.pool ++ [client]) (s.goto c _).holder _
    rw [holder_goto]
    exact h.giveBack (holder_of_phase hphase)
  | fails client => exact h.mono fun k hk => (isOpen_shut hk).1
  | closes | staysClosed => exact h
  | clears =>
    refine h.clear fun k hk => ?_
    obtain ⟨hopen, hnot⟩ := (Bool.and_eq_true _ _).mp hk
    exact ⟨hopen, of_decide_eq_true hnot⟩

/-! ## What a search has seen -/

theorem phase_goto_self (s : TcpClientPool) (c : ℕ) (p : Phase) : (s.goto c p).phase c = p := by
  show update s.phase c p c = p
  exact update_self c p s.phase

theorem phase_goto_of_ne {c' : ℕ} (h : c' ≠ c) : (s.goto c p).phase c' = s.phase c' := by
  show update s.phase c p c' = s.phase c'
  exact update_of_ne h p s.phase

/-- A search that is at the condition of the loop without having popped a client was there before,
or has just found the pool empty. -/
def CameEmpty (s s' : TcpClientPool) : Prop :=
  ∀ c tryCount count code, s'.phase c = .compare tryCount count code false →
    (s.phase c = .compare tryCount count code false ∧ s'.openThroughout c = s.openThroughout c) ∨
      (code = .error ∧ s'.pool = [])

/-- A step of the call `c` to another place than the condition of the loop. -/
theorem cameEmpty_goto (hp : ∀ tryCount count code, p ≠ .compare tryCount count code false)
    (hphase : s'.phase = (s.goto c p).phase)
    (hopen : ∀ c', c' ≠ c → s'.openThroughout c' = s.openThroughout c') :
    CameEmpty s s' := by
  intro c' tryCount count code hc'
  rw [hphase] at hc'
  by_cases hne : c' = c
  · rw [hne, phase_goto_self] at hc'
    exact absurd hc' (hp tryCount count code)
  · rw [phase_goto_of_ne hne] at hc'
    exact .inl ⟨hc', hopen c' hne⟩

theorem act_cameEmpty (hact : s.act a = some s') : CameEmpty s s' := by
  -- but for the pop from an empty pool, a call goes elsewhere than to the condition of the loop, or
  -- has popped
  have hother : ∀ {c : ℕ} {p : Phase},
      (∀ tryCount count code, p ≠ .compare tryCount count code false) →
      s'.phase = (s.goto c p).phase → s'.openThroughout = s.openThroughout → CameEmpty s s' := by
    intro c p hp hphase hopen
    exact cameEmpty_goto hp hphase fun c' _ => congrFun hopen c'
  cases acts_of_act hact with
  | @call c code hphase =>
    refine cameEmpty_goto (fun _ _ _ h => by cases h) rfl fun c' hne => ?_
    show update s.openThroughout c true c' = s.openThroughout c'
    exact update_of_ne hne true s.openThroughout
  | @findsEmpty c tryCount count code hphase hpool =>
    intro c' tryCount' count' code' hc'
    by_cases hne : c' = c
    · rw [hne, phase_goto_self] at hc'
      obtain ⟨-, -, rfl, -⟩ := Phase.compare.inj hc'
      exact .inr ⟨rfl, hpool⟩
    · rw [phase_goto_of_ne hne] at hc'
      exact .inl ⟨hc', rfl⟩
  | pops _ _ | handsOut _ _ | findsClosed _ _ | goesOn _ | stops _ _ | drops _ | pushes _
  | putsBack _ | letsGo _ => exact hother (fun _ _ _ h => by cases h) rfl rfl
  | fails _ | closes | staysClosed | clears => exact fun _ _ _ _ hc => .inl ⟨hc, rfl⟩

/-- A call under way sees a pool without an open client. -/
theorem observe_of_searching (hc : (s.phase c).searching = true) :
    s.observe.openThroughout c = (s.openThroughout c && s.hasOpen) := if_pos hc

/-- Every step keeps the invariant. -/
theorem step_inv (h : s.Inv) (hstep : s.step a = some s') : s'.Inv := by
  obtain ⟨s₁, hact, rfl⟩ := Option.map_eq_some_iff.mp hstep
  have hconserved := act_conserved h.conserved hact
  refine ⟨hconserved, ?_⟩
  intro c tryCount count code hc
  have hseen := observe_of_searching (s := s₁) (congrArg Phase.searching hc)
  obtain ⟨hc', hopen⟩ | ⟨hcode, hpool⟩ := act_cameEmpty hact c tryCount count code hc
  · obtain ⟨hcode, hfalse⟩ := h.foundEmpty c tryCount count code hc'
    rw [hopen, hfalse] at hseen
    exact ⟨hcode, hseen⟩
  · rw [hasOpen, hpool, any_nil, Bool.and_false] at hseen
    exact ⟨hcode, hseen⟩

/-! ## What a search returns -/

/-- What the call `c` returns in a state where its loop ends. -/
def Stops (s : TcpClientPool) (c tryCount count : ℕ) (code : ResultCode) (popped : Bool) : Prop :=
  s.phase c = .compare tryCount count code popped ∧
    ¬(count < s.pool.length ∧ tryCount < MAX_TRY_TIME_GET_CLIENT_FROM_POOL)

/-- When the loop of a call ends, it returns the caller's variable and no wrapper. -/
theorem run_of_stops {tryCount count : ℕ} {code : ResultCode} {popped : Bool}
    (h : s.Stops c tryCount count code popped) :
    s.run c =
      some ((s.goto c .noWrapper).ret c { code := code, openThroughout := s.openThroughout c })
      := by
  simp only [run, h.1, if_neg h.2]

/-- Of what is returned, the last is new. -/
theorem returned_ret {r r' : Return} {c' : ℕ} (hr : (s.ret c r).returned c' = some r') :
    (c' = c ∧ r' = r) ∨ s.returned c' = some r' :=
  (Common.update_some_iff.mp hr).imp_right And.right

/-- What is returned was returned before, or is an open client, or its call's loop has ended. -/
theorem returned_of_act {c' : ℕ} {r : Return} (hact : s.act a = some s')
    (hr : s'.returned c' = some r) :
    s.returned c' = some r ∨ (r.code = .success ∧ r.HandsOut) ∨
      ∃ tryCount count code popped, a = .run c' ∧ s.Stops c' tryCount count code popped ∧
        r = { code := code, openThroughout := s.openThroughout c' } := by
  cases acts_of_act hact with
  | @handsOut c client tryCount count code hphase hopen =>
    obtain ⟨-, rfl⟩ | hr := returned_ret hr
    · exact .inr (.inl ⟨rfl, ⟨client, rfl⟩, hopen⟩)
    · exact .inl hr
  | @stops c tryCount count code popped hphase hstops =>
    obtain ⟨rfl, rfl⟩ | hr := returned_ret hr
    · exact .inr (.inr ⟨tryCount, count, code, popped, rfl, ⟨hphase, hstops⟩, rfl⟩)
    · exact .inl hr
  | _ => exact .inl hr

/-- What a call without a wrapper is to return. -/
theorem not_handsOut {code : ResultCode} {openThroughout : Bool} :
    ¬({ code := code, openThroughout := openThroughout } : Return).HandsOut := by
  rintro ⟨⟨client, hclient⟩, -⟩
  cases hclient

/-- A right pool stays right in a step just if the step stops no search at a closed client too
early. -/
theorem right_iff_keepsSearching (hinv : s.Inv) (hright : s.Right) (hstep : s.step a = some s') :
    s'.Right ↔ s.KeepsSearching a := by
  have hinv' := step_inv hinv hstep
  obtain ⟨s₁, hact, rfl⟩ := Option.map_eq_some_iff.mp hstep
  constructor
  · intro hright'
    cases a with
    | run c =>
      simp only [KeepsSearching]
      split
      next tryCount count code hphase =>
        by_cases hgoes : count < s.pool.length ∧ tryCount < MAX_TRY_TIME_GET_CLIENT_FROM_POOL
        · exact .inl hgoes
        -- the call has returned its caller's variable
        have hrun := run_of_stops ⟨hphase, hgoes⟩
        obtain rfl := Option.some.inj (hrun.symm.trans hact)
        have hreturned := update_self c
          (some ({ code := code, openThroughout := s.openThroughout c } : Return)) s.returned
        refine .inr ⟨?_, ?_⟩
        · intro hcode
          exact not_handsOut ((hright'.success_iff c _ hreturned).mp hcode)
        · refine Bool.eq_false_iff.mpr fun hopen => ?_
          exact not_handsOut (hright'.handsOut c _ hreturned hopen)
      next => trivial
    | _ => trivial
  · intro hkeeps
    have hreturn : ∀ c r, s₁.returned c = some r →
        (r.code = .success ↔ r.HandsOut) ∧ (r.openThroughout = true → r.HandsOut) := by
      intro c r hr
      obtain hr | ⟨hcode, hout⟩ | ⟨tryCount, count, code, popped, rfl, ⟨hphase, hstops⟩, rfl⟩ :=
        returned_of_act hact hr
      · exact ⟨hright.success_iff c r hr, hright.handsOut c r hr⟩
      · exact ⟨iff_of_true hcode hout, fun _ => hout⟩
      have hbad : code ≠ .success ∧ s.openThroughout c = false := by
        cases popped with
        | false =>
          obtain ⟨hcode, hopen⟩ := hinv.foundEmpty c tryCount count code hphase
          refine ⟨?_, hopen⟩
          rw [hcode]
          exact ResultCode.noConfusion
        | true =>
          simp only [KeepsSearching, hphase] at hkeeps
          exact hkeeps.resolve_left hstops
      refine ⟨iff_of_false hbad.1 not_handsOut, ?_⟩
      intro hopen
      rw [hbad.2] at hopen
      cases hopen
    exact ⟨fun k hk => hinv'.conserved.one_place hk, fun c r hr => (hreturn c r hr).1,
      fun c r hr => (hreturn c r hr).2⟩

end Steps

/-! ## Runs -/

/-- A pool that has just been loaded has all its open clients. -/
theorem inv_loadConfig (config : Except ResultCode ClientConfig) (connects : Endpoint → ℕ → Bool) :
    (loadConfig config connects).2.Inv := by
  have hempty : ∀ capacity,
      Inv { isLoaded := true, capacity := capacity, pool := [], isOpen := fun _ => false } := by
    intro capacity
    refine ⟨Conserved.of_nodup nodup_nil fun k hk => ?_, fun c tryCount count code hc => ?_⟩
    · cases hk
    · cases hc
  unfold loadConfig
  split
  next code => exact hempty none
  next config =>
    simp only
    split
    next => exact hempty none
    next =>
      refine ⟨Conserved.of_nodup (nodup_range.filter _) fun k hk => of_decide_eq_true hk,
        fun c tryCount count code hc => ?_⟩
      cases hc

theorem returned_loadConfig (config : Except ResultCode ClientConfig)
    (connects : Endpoint → ℕ → Bool) (c : ℕ) :
    (loadConfig config connects).2.returned c = none := by
  unfold loadConfig
  split
  · rfl
  · simp only
    split
    · rfl
    · rfl

/-- A server that accepts all connections, and pools of its clients. -/
def oneServer (poolSize : ℕ) : TcpClientPool :=
  (loadConfig
    (.ok { serverAddresses := [{ host := "localhost", port := "7700" }], poolSize := poolSize })
    fun _ _ => true).2

/-- The first client of three fails, and a call goes on to the second. -/
def failsFirst : List Step :=
  [.connectionFails 0, .getTcpClient 0 .success, .run 0, .run 0, .run 0, .run 0, .run 0, .release 0,
    .run 0]

/-- Both clients of two are open until the first fails; the call pops it, and one client is left. -/
def failsFirstOfTwo : List Step :=
  [.connectionFails 0, .getTcpClient 0 .success, .run 0, .run 0, .run 0]

/-- In every run, wherever searches stop, no client is in two places, and each open client is in the
pool or with a wrapper. -/
theorem conserved_of_run {config : Except ResultCode ClientConfig}
    {connects : Endpoint → ℕ → Bool} (h : Reaches step anyStep (loadConfig config connects).2 s) :
    Conserved s.pool s.holder fun k => s.isOpen k = true := by
  have hinv : s.Inv := h.invariant (inv_loadConfig config connects)
    fun _ _ _ hinv _ hstep => step_inv hinv hstep
  exact hinv.conserved

theorem conserved_of_run_failsFirstOfTwo : ∃ s : TcpClientPool,
    Reaches step anyStep (oneServer 2) s ∧ s.pool = [1] ∧
      Conserved s.pool s.holder fun k => s.isOpen k = true := by
  have hend : ((replay step anyStep (oneServer 2) failsFirstOfTwo).any fun s =>
      decide (s.pool = [1])) = true := by
    decide +kernel
  obtain ⟨s, hs, hpool⟩ := (Option.any_eq_true _ _).mp hend
  exact ⟨s, reaches_of_replay hs, of_decide_eq_true hpool, conserved_of_run (reaches_of_replay hs)⟩

end TcpClientPool

end Idgs.Client.Borrowed
