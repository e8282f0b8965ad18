import Mathlib.Data.Fintype.Basic
import Idgs.Common.Run

/-!
# Draining an outgoing queue

Any thread may put a message into an outgoing queue and then tries a few times to become the one
that sends. The thread that gets in pops messages and starts a write; when the write is done, the
thread that hears of it tries to get in again. A thread that finds the queue empty leaves, and a
thread that does not get in relies on the one that is inside. The connections between members, the
connections of clients and the multicast of the cluster all work this way.
-/

namespace Idgs.Net

open Function List

/-- `RETRY_LOCK_TIMES`. -/
def RETRY_LOCK_TIMES : ℕ := 5

/-- What the three senders differ in. -/
structure SendRoutine where
  /-- The state is looked at once before the attempts. -/
  checksReady : Bool
  /-- The number of messages of a write. -/
  batch : ℕ
  /-- A write is done when the call returns, and the next message is popped. -/
  blocking : Bool
  /-- A thread that found the queue empty tries again while fewer empty pops have been counted. -/
  tryPopLimit : Option ℕ

/-- `InnerTcpConnection::sendMessage` and `InnerTcpConnection::realSendMessage`. -/
def innerTcpConnection (BATCH_TCP_MESSAGES : ℕ) : SendRoutine where
  checksReady := true
  batch := BATCH_TCP_MESSAGES
  blocking := false
  tryPopLimit := some 3

/-- `StatefulTcpActor::process` and `StatefulTcpActor::realSend`. -/
def statefulTcpActor : SendRoutine where
  checksReady := false
  batch := 1
  blocking := false
  tryPopLimit := none

/-- `CorosyncClusterAdapter::multicastMessage` and
`CorosyncClusterAdapter::realMulticastMessage`. -/
def corosyncClusterAdapter : SendRoutine where
  checksReady := false
  batch := 1
  blocking := true
  tryPopLimit := none

/-- Whether the next empty pop is followed by another attempt. -/
def SendRoutine.triesAgain (r : SendRoutine) (tryPopCount : ℕ) : Bool :=
  match r.tryPopLimit with
  | some limit => tryPopCount + 1 < limit
  | none => false

variable {τ μ : Type*} [DecidableEq τ]

/-- Where a thread is: the atomic step that it takes next. -/
inductive SendPc (μ : Type*)
  | idle
  | push (msg : μ)
  /-- The test for `READY` in `InnerTcpConnection::sendMessage`. -/
  | ready
  /-- An attempt to enter the sending state, with the number of attempts that are left. -/
  | enter (left : ℕ)
  /-- `try_pop`, with the messages popped so far. -/
  | pop (held : List μ)
  | write (held : List μ)
  /-- Leaving the sending state after an empty pop. -/
  | leave
  /-- Counting the empty pop. -/
  | count
deriving DecidableEq

namespace SendPc

/-- The thread is between entering and leaving. -/
def inside : SendPc μ → Bool
  | pop _ | write _ | leave => true
  | _ => false

/-- The thread will still try to enter. -/
def trying : SendPc μ → Bool
  | push _ | ready | enter (_ + 1) => true
  | _ => false

/-- The thread is about to count an empty pop. -/
def counts : SendPc μ → Bool
  | leave | count => true
  | _ => false

/-- The messages that the thread has popped. -/
def held : SendPc μ → List μ
  | pop msgs | write msgs => msgs
  | _ => []

end SendPc

/-- The queue, its threads and the writes in flight. `pushed` and `written` are the messages so far,
in these orders. -/
structure Sender (τ μ : Type*) where
  /-- `WRITING`, or the flag `writing`. -/
  busy : Bool := false
  queue : List μ := []
  pc : τ → SendPc μ := fun _ => .idle
  tryPopCount : ℕ := 0
  inFlight : List (List μ) := []
  pushed : List μ := []
  written : List μ := []

/-- Steps: a thread has a message to send, a thread takes the next atomic step of its call, a thread
hears that a write is done. -/
inductive SendStep (τ μ : Type*)
  | call (t : τ) (msg : μ)
  | run (t : τ)
  | complete (t : τ)

namespace Sender

/-- The thread goes on with `p`. -/
def goto (s : Sender τ μ) (t : τ) (p : SendPc μ) : Sender τ μ :=
  { s with pc := Function.update s.pc t p }

/-- The next step of a thread. -/
def run (r : SendRoutine) (s : Sender τ μ) (t : τ) : Option (Sender τ μ) :=
  match s.pc t with
  | .idle => none
  | .push msg =>
    some { s.goto t (if r.checksReady then .ready else .enter RETRY_LOCK_TIMES) with
      queue := s.queue ++ [msg], pushed := s.pushed ++ [msg] }
  | .ready => if s.busy then some (s.goto t .idle) else some (s.goto t (.enter RETRY_LOCK_TIMES))
  | .enter 0 => some (s.goto t .idle)
  | .enter (left + 1) =>
    if s.busy then some (s.goto t (.enter left))
    else some { s.goto t (.pop []) with busy := true }
  | .pop held =>
    match s.queue with
    | [] => some (s.goto t (if held.isEmpty then .leave else .write held))
    | msg :: queue =>
      some { s.goto t (if r.batch ≤ held.length + 1 then .write (held ++ [msg])
        else .pop (held ++ [msg])) with
        queue := queue }
  | .write held =>
    if r.blocking then some { s.goto t (.pop []) with written := s.written ++ held }
    else some { s.goto t .idle with
      written := s.written ++ held, tryPopCount := 0, inFlight := s.inFlight ++ [held] }
  | .leave => some { s.goto t (if r.tryPopLimit.isSome then .count else .idle) with busy := false }
  | .count =>
    some { s.goto t (if r.triesAgain s.tryPopCount then .enter RETRY_LOCK_TIMES else .idle) with
      tryPopCount := s.tryPopCount + 1 }

/-- One step. The thread that hears of a write leaves the sending state and tries to enter it. -/
def step (r : SendRoutine) (s : Sender τ μ) : SendStep τ μ → Option (Sender τ μ)
  | .call t msg =>
    match s.pc t with
    | .idle => some (s.goto t (.push msg))
    | _ => none
  | .run t => s.run r t
  | .complete t =>
    match s.pc t, s.inFlight with
    | .idle, _ :: inFlight =>
      some { s.goto t (.enter RETRY_LOCK_TIMES) with busy := false, inFlight := inFlight }
    | _, _ => none

/-- One write at a time, every message written once and in the order of the queue, and nothing stays
behind. -/
structure Drains (s : Sender τ μ) : Prop where
  oneSender : ∀ t t', (s.pc t).inside = true → (s.pc t').inside = true → t = t'
  oneWrite : s.inFlight.length ≤ 1 ∧ ∀ t, (s.pc t).inside = true → s.inFlight = []
  order : ∃ held, s.pushed = s.written ++ held ++ s.queue ∧ ∀ t, (s.pc t).inside = true →
    held = (s.pc t).held
  drained : (∀ t, s.pc t = .idle) → s.inFlight = [] → s.queue = [] ∧ s.written = s.pushed

/-- No wake-up is lost: a thread does not give up while the one inside has found the queue empty and
is about to leave, unless the queue is empty, another thread will still try, or the empty pop will
be followed by another attempt. -/
def NoLostWakeUp (r : SendRoutine) (s : Sender τ μ) : SendStep τ μ → Prop
  | .run t => (s.pc t = .ready ∨ s.pc t = .enter 1) → (∃ t', s.pc t' = .leave) →
      s.queue = [] ∨ (∃ t', t' ≠ t ∧ (s.pc t').trying = true) ∨ r.triesAgain s.tryPopCount = true
  | _ => True

instance [Fintype τ] [DecidableEq μ] (r : SendRoutine) (s : Sender τ μ) (a : SendStep τ μ) :
    Decidable (NoLostWakeUp r s a) := by
  unfold NoLostWakeUp
  split <;> infer_instance

/-! ## The invariant -/

/-- The sending state is taken exactly while a thread is inside or a write is in flight, and while
nobody inside will look into the queue again, the queue is empty or somebody will still try to
enter. -/
structure Inv (r : SendRoutine) (s : Sender τ μ) : Prop where
  unique : ∀ t t', (s.pc t).inside = true → (s.pc t').inside = true → t = t'
  busy : s.busy = true ↔ (∃ t, (s.pc t).inside = true) ∨ s.inFlight ≠ []
  oneWrite : s.inFlight.length ≤ 1
  apart : ∀ t, (s.pc t).inside = true → s.inFlight = []
  order : ∃ held, s.pushed = s.written ++ held ++ s.queue ∧
    (∀ t, (s.pc t).inside = true → held = (s.pc t).held) ∧
    ((∀ t, (s.pc t).inside = false) → held = [])
  wake : s.busy = false ∨ (∃ t, s.pc t = .leave) →
    s.queue = [] ∨ (∃ t, (s.pc t).trying = true) ∨
      r.triesAgain s.tryPopCount = true ∧ ∃ t, (s.pc t).counts = true

omit [DecidableEq τ] in
theorem inv_init (r : SendRoutine) : Inv r ({} : Sender τ μ) where
  unique := by rintro _ _ ⟨⟩
  busy := by simp [SendPc.inside]
  oneWrite := Nat.zero_le 1
  apart := by rintro _ ⟨⟩
  order := ⟨[], rfl, by rintro _ ⟨⟩, fun _ => rfl⟩
  wake := fun _ => .inl rfl

variable {r : SendRoutine} {s : Sender τ μ}

omit [DecidableEq τ] in
theorem Inv.drains (h : Inv r s) : Drains s where
  oneSender := h.unique
  oneWrite := ⟨h.oneWrite, h.apart⟩
  order := by
    obtain ⟨held, hpushed, hheld, -⟩ := h.order
    exact ⟨held, hpushed, hheld⟩
  drained := by
    intro hidle hflight
    have hout : ∀ t, (s.pc t).inside = false := by
      intro t
      rw [hidle t]
      rfl
    have hfree : s.busy = false := by
      refine Bool.eq_false_of_not_eq_true fun hbusy => ?_
      rcases h.busy.mp hbusy with ⟨t, ht⟩ | hne
      · rw [hout t] at ht
        cases ht
      · exact hne hflight
    have hqueue : s.queue = [] := by
      rcases h.wake (.inl hfree) with hempty | ⟨t, ht⟩ | ⟨-, t, ht⟩
      · exact hempty
      · rw [hidle t] at ht
        cases ht
      · rw [hidle t] at ht
        cases ht
    obtain ⟨held, hpushed, -, hnone⟩ := h.order
    refine ⟨hqueue, ?_⟩
    rw [hpushed, hnone hout, hqueue, append_nil, append_nil]

/-! ## Moves of one thread -/

@[simp] theorem goto_pc_self (s : Sender τ μ) (t : τ) (p : SendPc μ) : (s.goto t p).pc t = p :=
  update_self ..

variable {t : τ}

theorem goto_pc_of_ne (s : Sender τ μ) {t' : τ} (p : SendPc μ) (h : t' ≠ t) :
    (s.goto t p).pc t' = s.pc t' :=
  update_of_ne h ..

variable {p : SendPc μ}

/-- What holds of no thread but possibly the moving one comes from where it goes. -/
theorem goto_pc_cases {t' : τ} {P : SendPc μ → Prop}
    (h : P ((s.goto t p).pc t')) : (t' = t ∧ P p) ∨ (t' ≠ t ∧ P (s.pc t')) := by
  by_cases ht : t' = t
  · subst ht
    rw [goto_pc_self] at h
    exact .inl ⟨rfl, h⟩
  · rw [goto_pc_of_ne s p ht] at h
    exact .inr ⟨ht, h⟩

/-- A thread outside that stays outside is not one of those inside. -/
theorem goto_inside_iff (hout : (s.pc t).inside = false) (hp : p.inside = false) (t' : τ) :
    ((s.goto t p).pc t').inside = true ↔ (s.pc t').inside = true := by
  by_cases ht : t' = t
  · subst ht
    rw [goto_pc_self, hp, hout]
  · rw [goto_pc_of_ne s p ht]

/-- A thread outside that stays outside keeps the invariant when it does not take the last wake-up
with it. -/
theorem Inv.goto_outside (h : Inv r s) {n : ℕ}
    (hout : (s.pc t).inside = false) (hp : p.inside = false)
    (hwake : s.busy = false ∨ (∃ t', s.pc t' = .leave) →
      s.queue = [] ∨ (p.trying = true ∨ ∃ t', t' ≠ t ∧ (s.pc t').trying = true) ∨
        r.triesAgain n = true ∧ ∃ t', t' ≠ t ∧ (s.pc t').counts = true) :
    Inv r { s.goto t p with tryPopCount := n } where
  unique := by
    intro t₁ t₂ h₁ h₂
    exact h.unique t₁ t₂ ((goto_inside_iff hout hp t₁).mp h₁) ((goto_inside_iff hout hp t₂).mp h₂)
  busy := h.busy.trans (or_congr_left (exists_congr fun t' => (goto_inside_iff hout hp t').symm))
  oneWrite := h.oneWrite
  apart := by
    intro t' ht'
    exact h.apart t' ((goto_inside_iff hout hp t').mp ht')
  order := by
    obtain ⟨held, hpushed, hheld, hnone⟩ := h.order
    refine ⟨held, hpushed, fun t' ht' => ?_, fun hall => hnone fun t' => ?_⟩
    · rcases goto_pc_cases (P := fun q => q.inside = true) ht' with ⟨-, hin⟩ | ⟨hne, hin⟩
      · rw [hp] at hin
        cases hin
      · rw [hheld t' hin]
        exact congrArg SendPc.held (goto_pc_of_ne s p hne).symm
    · refine Bool.eq_false_of_not_eq_true fun hin => ?_
      have hin' := (goto_inside_iff hout hp t').mpr hin
      rw [show ((s.goto t p).pc t').inside = false from hall t'] at hin'
      cases hin'
  wake := by
    intro hleave
    have hold : s.busy = false ∨ ∃ t', s.pc t' = .leave := by
      refine hleave.imp_right ?_
      rintro ⟨t', ht'⟩
      rcases goto_pc_cases (P := fun q => q = .leave) ht' with ⟨-, rfl⟩ | ⟨-, ht'⟩
      · cases hp
      · exact ⟨t', ht'⟩
    rcases hwake hold with hempty | (htry | ⟨t', hne, ht'⟩) | ⟨hagain, t', hne, ht'⟩
    · exact .inl hempty
    · exact .inr (.inl ⟨t, by rw [show _ = p from goto_pc_self s t p]; exact htry⟩)
    · exact .inr (.inl ⟨t', by rw [show _ = s.pc t' from goto_pc_of_ne s p hne]; exact ht'⟩)
    · exact .inr (.inr ⟨hagain, t', by rw [show _ = s.pc t' from goto_pc_of_ne s p hne]; exact ht'⟩)

/-- A thread outside goes on towards entering. -/
theorem Inv.goto_trying (h : Inv r s)
    (hout : (s.pc t).inside = false) (hp : p.inside = false) (htry : p.trying = true) :
    Inv r (s.goto t p) :=
  h.goto_outside hout hp fun _ => .inr (.inl (.inl htry))

omit [DecidableEq τ] in
/-- A message may be put into the queue while some thread will still try to enter. -/
theorem Inv.enqueue (h : Inv r s) (ht : (s.pc t).trying = true)
    (msg : μ) : Inv r { s with queue := s.queue ++ [msg], pushed := s.pushed ++ [msg] } where
  __ := h
  order := by
    obtain ⟨held, hpushed, hheld, hnone⟩ := h.order
    refine ⟨held, ?_, hheld, hnone⟩
    show s.pushed ++ [msg] = s.written ++ held ++ (s.queue ++ [msg])
    rw [hpushed, append_assoc]
  wake := fun _ => .inr (.inl ⟨t, ht⟩)

omit [DecidableEq τ] in
/-- The thread inside is the only one there. -/
theorem Inv.alone (h : Inv r s) (ht : (s.pc t).inside = true) :
    ∀ t', t' ≠ t → (s.pc t').inside = false := by
  intro t' hne
  refine Bool.eq_false_of_not_eq_true fun hin => ?_
  exact hne (h.unique t' t hin ht)

section

variable (hothers : ∀ t', t' ≠ t → (s.pc t').inside = false)

include hothers

/-- The thread that is inside, or gets inside, goes on inside: the queue and the messages written
may change with it as long as they fit. -/
theorem goto_inside (hp : p.inside = true) (hflight : s.inFlight = [])
    {queue written : List μ} (horder : s.pushed = written ++ p.held ++ queue)
    (hleave : p = .leave → queue = []) :
    Inv r { s.goto t p with busy := true, queue := queue, written := written } where
  unique := by
    have heq : ∀ t', ((s.goto t p).pc t').inside = true → t' = t := by
      intro t' ht'
      rcases goto_pc_cases (P := fun q => q.inside = true) ht' with ⟨heq, -⟩ | ⟨hne, hin⟩
      · exact heq
      · rw [hothers t' hne] at hin
        cases hin
    intro t₁ t₂ h₁ h₂
    rw [heq t₁ h₁, heq t₂ h₂]
  busy := by
    refine ⟨fun _ => .inl ⟨t, ?_⟩, fun _ => rfl⟩
    rw [show _ = p from goto_pc_self s t p]
    exact hp
  oneWrite := by
    show s.inFlight.length ≤ 1
    rw [hflight]
    exact Nat.zero_le 1
  apart := fun _ _ => hflight
  order := by
    refine ⟨p.held, horder, fun t' ht' => ?_, fun hall => ?_⟩
    · rcases goto_pc_cases (P := fun q => q.inside = true) ht' with ⟨rfl, -⟩ | ⟨hne, hin⟩
      · exact congrArg SendPc.held (goto_pc_self s t' p).symm
      · rw [hothers t' hne] at hin
        cases hin
    · have hin := hall t
      rw [show _ = p from goto_pc_self s t p, hp] at hin
      cases hin
  wake := by
    intro hwake
    obtain ⟨t', ht'⟩ := hwake.resolve_left (by rintro ⟨⟩)
    rcases goto_pc_cases (P := fun q => q = .leave) ht' with ⟨-, hpl⟩ | ⟨hne, ht'⟩
    · exact .inl (hleave hpl)
    · have hin := hothers t' hne
      rw [ht'] at hin
      cases hin

/-- When the only thread inside has gone, none is. -/
theorem goto_none_inside (hp : p.inside = false) (t' : τ) :
    ((s.goto t p).pc t').inside = false := by
  by_cases ht : t' = t
  · rw [ht, goto_pc_self, hp]
  · rw [goto_pc_of_ne s p ht, hothers t' ht]

/-- The thread that is inside leaves with a write in flight. -/
theorem goto_written (hflight : s.inFlight = []) (hbusy : s.busy = true)
    {held : List μ} (horder : s.pushed = s.written ++ held ++ s.queue) :
    Inv r { s.goto t .idle with
      written := s.written ++ held, tryPopCount := 0, inFlight := s.inFlight ++ [held] } where
  unique := by
    intro t₁ t₂ h₁ _
    rw [show _ = false from goto_none_inside hothers rfl t₁] at h₁
    cases h₁
  busy := ⟨fun _ => .inr (by simp), fun _ => hbusy⟩
  oneWrite := by
    show (s.inFlight ++ [held]).length ≤ 1
    rw [hflight]
    rfl
  apart := by
    intro t' ht'
    rw [show _ = false from goto_none_inside hothers rfl t'] at ht'
    cases ht'
  order := by
    refine ⟨[], ?_, fun t' ht' => ?_, fun _ => rfl⟩
    · show s.pushed = s.written ++ held ++ [] ++ s.queue
      rw [append_nil, horder]
    · rw [show _ = false from goto_none_inside hothers rfl t'] at ht'
      cases ht'
  wake := by
    rintro (hfree | ⟨t', ht'⟩)
    · cases hbusy.symm.trans hfree
    · have hin := goto_none_inside (s := s) (p := .idle) hothers rfl t'
      rw [show (s.goto t .idle).pc t' = .leave from ht'] at hin
      cases hin

end

/-- The thread that is inside leaves and the sending state is free. -/
theorem goto_free (hp : p.inside = false)
    {inFlight : List (List μ)} (hothers : ∀ t', t' ≠ t → (s.pc t').inside = false)
    (hflight : inFlight = []) (horder : s.pushed = s.written ++ s.queue)
    (hwake : s.queue = [] ∨ (p.trying = true ∨ ∃ t', t' ≠ t ∧ (s.pc t').trying = true) ∨
      r.triesAgain s.tryPopCount = true ∧
      (p.counts = true ∨ ∃ t', t' ≠ t ∧ (s.pc t').counts = true)) :
    Inv r { s.goto t p with busy := false, inFlight := inFlight } where
  unique := by
    intro t₁ t₂ h₁ _
    rw [show _ = false from goto_none_inside hothers hp t₁] at h₁
    cases h₁
  busy := by
    refine ⟨by rintro ⟨⟩, ?_⟩
    rintro (⟨t', ht'⟩ | hne)
    · rw [show _ = false from goto_none_inside hothers hp t'] at ht'
      cases ht'
    · exact absurd hflight hne
  oneWrite := by
    show inFlight.length ≤ 1
    rw [hflight]
    exact Nat.zero_le 1
  apart := fun _ _ => hflight
  order := by
    refine ⟨[], ?_, fun t' ht' => ?_, fun _ => rfl⟩
    · show s.pushed = s.written ++ [] ++ s.queue
      rw [append_nil, horder]
    · rw [show _ = false from goto_none_inside hothers hp t'] at ht'
      cases ht'
  wake := by
    intro _
    have hself : (s.goto t p).pc t = p := goto_pc_self s t p
    rcases hwake with hempty | (htry | ⟨t', hne, ht'⟩) | ⟨hagain, hcount | ⟨t', hne, ht'⟩⟩
    · exact .inl hempty
    · exact .inr (.inl ⟨t, by rw [show _ = p from hself]; exact htry⟩)
    · exact .inr (.inl ⟨t', by rw [show _ = s.pc t' from goto_pc_of_ne s p hne]; exact ht'⟩)
    · exact .inr (.inr ⟨hagain, t, by rw [show _ = p from hself]; exact hcount⟩)
    · exact .inr (.inr ⟨hagain, t', by rw [show _ = s.pc t' from goto_pc_of_ne s p hne]; exact ht'⟩)

/-! ## Every step keeps the invariant -/

section

variable (h : Inv r s)

include h

/-- A call starts. -/
theorem Inv.call {s' : Sender τ μ} {msg : μ}
    (hstep : step r s (.call t msg) = some s') : Inv r s' := by
  simp only [step] at hstep
  split at hstep
  · rename_i hpc
    cases hstep
    exact h.goto_trying (by rw [hpc]; rfl) rfl rfl
  · cases hstep

/-- The thread has pushed its message and is about to try to enter. -/
theorem Inv.push {msg : μ}
    (hpc : s.pc t = .push msg) (hp : p.inside = false) (htry : p.trying = true) :
    Inv r { s.goto t p with queue := s.queue ++ [msg], pushed := s.pushed ++ [msg] } := by
  have hmoved : Inv r (s.goto t p) := h.goto_trying (by rw [hpc]; rfl) hp htry
  exact hmoved.enqueue (t := t) (by rw [goto_pc_self]; exact htry) msg

/-- A thread gives up or has failed one of its attempts, and no wake-up depends on it. -/
theorem Inv.failed
    (hout : (s.pc t).inside = false) (hcount : (s.pc t).counts = false) (hp : p.inside = false)
    (hbusy : s.busy = true) (hlast : p.trying = false → (∃ t', s.pc t' = .leave) →
      s.queue = [] ∨ (∃ t', t' ≠ t ∧ (s.pc t').trying = true) ∨ r.triesAgain s.tryPopCount = true) :
    Inv r (s.goto t p) := by
  refine h.goto_outside hout hp fun hwake => ?_
  cases htry : p.trying with
  | true => exact .inr (.inl (.inl rfl))
  | false =>
    have hleave : ∃ t', s.pc t' = .leave := by
      refine hwake.resolve_left fun hfree => ?_
      rw [hbusy] at hfree
      cases hfree
    rcases hlast htry hleave with hempty | hother | hagain
    · exact .inl hempty
    · exact .inr (.inl (.inr hother))
    · -- the thread that is about to leave will try again
      obtain ⟨t', ht'⟩ := hleave
      refine .inr (.inr ⟨hagain, t', ?_, by rw [ht']; rfl⟩)
      rintro rfl
      rw [ht'] at hcount
      cases hcount

/-- The attempt succeeds: nobody else is inside. -/
theorem Inv.enter (hfree : s.busy = false) :
    Inv r { s.goto t (.pop []) with busy := true } := by
  have hnone : ¬ ((∃ t', (s.pc t').inside = true) ∨ s.inFlight ≠ []) := by
    intro htaken
    rw [h.busy.mpr htaken] at hfree
    cases hfree
  obtain ⟨hinside, hflight⟩ := not_or.mp hnone
  have hout : ∀ t', (s.pc t').inside = false := fun t' =>
    Bool.eq_false_of_not_eq_true fun hin => hinside ⟨t', hin⟩
  obtain ⟨held, hpushed, -, hheld⟩ := h.order
  rw [hheld hout] at hpushed
  exact goto_inside (fun t' _ => hout t') rfl (not_not.mp hflight) hpushed (by rintro ⟨⟩)

/-- A thread counts an empty pop. -/
theorem Inv.count (hpc : s.pc t = .count) :
    Inv r { s.goto t (if r.triesAgain s.tryPopCount then .enter RETRY_LOCK_TIMES else .idle) with
      tryPopCount := s.tryPopCount + 1 } := by
  by_cases hagain : r.triesAgain s.tryPopCount = true
  · rw [if_pos hagain]
    exact h.goto_outside (by rw [hpc]; rfl) rfl fun _ => .inr (.inl (.inl rfl))
  · rw [if_neg hagain]
    refine h.goto_outside (by rw [hpc]; rfl) rfl fun hwake => ?_
    rcases h.wake hwake with hempty | ⟨t', ht'⟩ | ⟨hagain', -⟩
    · exact .inl hempty
    · refine .inr (.inl (.inr ⟨t', ?_, ht'⟩))
      rintro rfl
      rw [hpc] at ht'
      cases ht'
    · exact absurd hagain' hagain

/-- A thread leaves the sending state after an empty pop. -/
theorem Inv.leave (hpc : s.pc t = .leave) :
    Inv r { s.goto t (if r.tryPopLimit.isSome then .count else .idle) with busy := false } := by
  have hin : (s.pc t).inside = true := by
    rw [hpc]
    rfl
  obtain ⟨held, hpushed, hheld, -⟩ := h.order
  rw [hheld t hin, hpc] at hpushed
  have hrest : s.queue = [] ∨ (∃ t', t' ≠ t ∧ (s.pc t').trying = true) ∨
      r.triesAgain s.tryPopCount = true := by
    rcases h.wake (.inr ⟨t, hpc⟩) with hempty | ⟨t', ht'⟩ | ⟨hagain, -⟩
    · exact .inl hempty
    · refine .inr (.inl ⟨t', ?_, ht'⟩)
      rintro rfl
      rw [hpc] at ht'
      cases ht'
    · exact .inr (.inr hagain)
  have horder : s.pushed = s.written ++ s.queue := by
    rw [hpushed]
    exact congrArg (· ++ s.queue) (append_nil s.written)
  have hp : (if r.tryPopLimit.isSome then SendPc.count else SendPc.idle : SendPc μ).inside =
      false := by
    split <;> rfl
  refine goto_free hp (h.alone hin) (h.apart t hin) horder ?_
  rcases hrest with hempty | hother | hagain
  · exact .inl hempty
  · exact .inr (.inl (.inr hother))
  · refine .inr (.inr ⟨hagain, .inl ?_⟩)
    have hsome : r.tryPopLimit.isSome = true := by
      unfold SendRoutine.triesAgain at hagain
      split at hagain
      · rename_i limit hlimit
        rw [hlimit]
        rfl
      · cases hagain
    rw [if_pos hsome]
    rfl

/-- A thread pops a message, or finds that there is none. -/
theorem Inv.pop {s' : Sender τ μ} {held : List μ}
    (hpc : s.pc t = .pop held) (hstep : step r s (.run t) = some s') : Inv r s' := by
  have hin : (s.pc t).inside = true := by
    rw [hpc]
    rfl
  have hbusy : s = { s with busy := true } := by
    rw [← h.busy.mpr (.inl ⟨t, hin⟩)]
  obtain ⟨held', hpushed, hheld, -⟩ := h.order
  rw [hheld t hin, hpc] at hpushed
  simp only [step, run, hpc] at hstep
  split at hstep
  · rename_i hqueue
    cases hstep
    rw [hbusy]
    by_cases hempty : held.isEmpty = true
    · rw [if_pos hempty]
      rw [List.isEmpty_iff.mp hempty] at hpushed
      exact goto_inside (h.alone hin) rfl (h.apart t hin) hpushed fun _ => hqueue
    · rw [if_neg hempty]
      exact goto_inside (h.alone hin) rfl (h.apart t hin) hpushed (by rintro ⟨⟩)
  · rename_i msg queue hqueue
    cases hstep
    rw [hbusy]
    have horder : s.pushed = s.written ++ (held ++ [msg]) ++ queue := by
      rw [hpushed, hqueue]
      simp [SendPc.held]
    by_cases hbatch : r.batch ≤ held.length + 1
    · rw [if_pos hbatch]
      exact goto_inside (h.alone hin) rfl (h.apart t hin) horder (by rintro ⟨⟩)
    · rw [if_neg hbatch]
      exact goto_inside (h.alone hin) rfl (h.apart t hin) horder (by rintro ⟨⟩)

/-- A thread writes what it has popped. -/
theorem Inv.write {s' : Sender τ μ} {held : List μ}
    (hpc : s.pc t = .write held) (hstep : step r s (.run t) = some s') : Inv r s' := by
  have hin : (s.pc t).inside = true := by
    rw [hpc]
    rfl
  have hbusy := h.busy.mpr (.inl ⟨t, hin⟩)
  obtain ⟨held', hpushed, hheld, -⟩ := h.order
  rw [hheld t hin, hpc] at hpushed
  simp only [step, run, hpc] at hstep
  split at hstep
  · cases hstep
    have hset : s = { s with busy := true } := by rw [← hbusy]
    rw [hset]
    refine goto_inside (h.alone hin) rfl (h.apart t hin) ?_ (by rintro ⟨⟩)
    show s.pushed = s.written ++ held ++ [] ++ s.queue
    rw [append_nil, hpushed]
    rfl
  · cases hstep
    exact goto_written (h.alone hin) (h.apart t hin) hbusy hpushed

/-- A thread hears that a write is done. -/
theorem Inv.complete {s' : Sender τ μ} (hstep : step r s (.complete t) = some s') : Inv r s' := by
  simp only [step] at hstep
  split at hstep
  · rename_i msgs inFlight hpc hflight
    cases hstep
    have hout : ∀ t', (s.pc t').inside = false := by
      intro t'
      refine Bool.eq_false_of_not_eq_true fun hin => ?_
      rw [h.apart t' hin] at hflight
      cases hflight
    have hnone : inFlight = [] := by
      have hone := h.oneWrite
      rw [hflight] at hone
      exact eq_nil_of_length_eq_zero (Nat.le_zero.mp (Nat.le_of_succ_le_succ hone))
    obtain ⟨held, hpushed, -, hheld⟩ := h.order
    rw [hheld hout, append_nil] at hpushed
    exact goto_free rfl (fun t' _ => hout t') hnone hpushed (.inr (.inl (.inl rfl)))
  · cases hstep

/-- The next step of a thread. -/
theorem Inv.run {s' : Sender τ μ}
    (hguard : NoLostWakeUp r s (.run t)) (hstep : step r s (.run t) = some s') : Inv r s' := by
  cases hpc : s.pc t with
  | idle =>
    simp only [step, Sender.run, hpc] at hstep
    cases hstep
  | push msg =>
    simp only [step, Sender.run, hpc] at hstep
    cases hstep
    by_cases hready : r.checksReady = true
    · rw [if_pos hready]
      exact h.push hpc rfl rfl
    · rw [if_neg hready]
      exact h.push hpc rfl rfl
  | ready =>
    simp only [step, Sender.run, hpc] at hstep
    split at hstep
    · rename_i hbusy
      cases hstep
      exact h.failed (by rw [hpc]; rfl) (by rw [hpc]; rfl) rfl hbusy fun _ => hguard (.inl hpc)
    · cases hstep
      exact h.goto_trying (by rw [hpc]; rfl) rfl rfl
  | enter left =>
    cases left with
    | zero =>
      simp only [step, Sender.run, hpc] at hstep
      cases hstep
      refine h.goto_outside (by rw [hpc]; rfl) rfl fun hwake => ?_
      have hself : ∀ t', t' = t → (s.pc t').trying = false ∧ (s.pc t').counts = false := by
        rintro t' rfl
        rw [hpc]
        exact ⟨rfl, rfl⟩
      rcases h.wake hwake with hempty | ⟨t', ht'⟩ | ⟨hagain, t', ht'⟩
      · exact .inl hempty
      · refine .inr (.inl (.inr ⟨t', fun heq => ?_, ht'⟩))
        rw [(hself t' heq).1] at ht'
        cases ht'
      · refine .inr (.inr ⟨hagain, t', fun heq => ?_, ht'⟩)
        rw [(hself t' heq).2] at ht'
        cases ht'
    | succ left =>
      simp only [step, Sender.run, hpc] at hstep
      split at hstep
      · rename_i hbusy
        cases hstep
        refine h.failed (by rw [hpc]; rfl) (by rw [hpc]; rfl) rfl hbusy fun htry => hguard ?_
        -- an attempt that is not the last one is followed by another
        cases left with
        | zero => exact .inr hpc
        | succ left => cases htry
      · rename_i hfree
        cases hstep
        exact h.enter (Bool.eq_false_of_not_eq_true hfree)
  | pop held => exact h.pop hpc hstep
  | write held => exact h.write hpc hstep
  | leave =>
    simp only [step, Sender.run, hpc] at hstep
    cases hstep
    exact h.leave hpc
  | count =>
    simp only [step, Sender.run, hpc] at hstep
    cases hstep
    exact h.count hpc

/-- Every step that loses no wake-up keeps the invariant. -/
theorem Inv.step {s' : Sender τ μ} {a : SendStep τ μ}
    (hguard : NoLostWakeUp r s a) (hstep : step r s a = some s') : Inv r s' := by
  cases a with
  | call t msg => exact h.call hstep
  | run t => exact h.run hguard hstep
  | complete t => exact h.complete hstep

end

/-- The next steps of a thread. -/
def runs (t : Bool) (n : ℕ) : List (SendStep Bool ℕ) := List.replicate n (.run t)

/-- Thread `true` sends a message when thread `false` has found the queue empty for the third time
since the last write. -/
def innerOverlap : List (SendStep Bool ℕ) :=
  .call false 10 :: runs false 5 ++ .complete false :: runs false 10 ++ .call true 20 ::
    runs true 2 ++ runs false 2

/-- Thread `true` sends a message when thread `false` has found the queue empty. -/
def statefulOverlap : List (SendStep Bool ℕ) :=
  .call false 10 :: runs false 4 ++ .complete false :: runs false 2 ++ .call true 20 ::
    runs true 7 ++ runs false 1

/-- The same with writes that are done at once. -/
def corosyncOverlap : List (SendStep Bool ℕ) :=
  .call false 10 :: runs false 5 ++ .call true 20 :: runs true 7 ++ runs false 1

/-- A run that ends with a message in the queue while no thread does anything. -/
theorem not_drains_of_replay (as : List (SendStep Bool ℕ))
    (hend : ((Common.replay (step r) Common.anyStep ({} : Sender Bool ℕ) as).any fun s =>
      decide ((∀ t, s.pc t = .idle) ∧ s.inFlight = [] ∧ s.queue ≠ [])) = true) :
    ¬ ∀ s : Sender Bool ℕ, Common.Reaches (step r) Common.anyStep {} s → Drains s := by
  intro hall
  obtain ⟨s, hs, hbad⟩ := (Option.any_eq_true _ _).mp hend
  obtain ⟨hidle, hflight, hqueue⟩ := of_decide_eq_true hbad
  exact hqueue ((hall s (Common.reaches_of_replay hs)).drained hidle hflight).1

/-- Thread `true` sends a message while thread `false` has found the queue empty for the first
time. -/
def innerShared : List (SendStep Bool ℕ) :=
  .call false 10 :: runs false 5 ++ .complete false :: runs false 2 ++ .call true 20 ::
    runs true 2 ++ runs false 5 ++
    .complete false :: runs false 12

/-- The same sender with one more thread, which will always still try to enter. -/
def attended (s : Sender τ μ) : Sender (Option τ) μ where
  busy := s.busy
  queue := s.queue
  pc := fun t => t.elim .ready s.pc
  tryPopCount := s.tryPopCount
  inFlight := s.inFlight
  pushed := s.pushed
  written := s.written

/-- A step of one of the other threads. -/
def attendedStep : SendStep τ μ → SendStep (Option τ) μ
  | .call t msg => .call (some t) msg
  | .run t => .run (some t)
  | .complete t => .complete (some t)

theorem elim_update (pc : τ → SendPc μ) (t : τ) (p : SendPc μ) :
    (fun t' : Option τ => t'.elim .ready (update pc t p)) =
      update (fun t' : Option τ => t'.elim .ready pc) (some t) p := by
  funext t'
  cases t' with
  | none => rw [update_of_ne (Option.some_ne_none t).symm, Option.elim_none, Option.elim_none]
  | some t' =>
    by_cases ht : t' = t
    · rw [ht, update_self, Option.elim_some, update_self]
    · rw [update_of_ne fun h => ht (Option.some.inj h), Option.elim_some, update_of_ne ht,
        Option.elim_some]

theorem step_attended (s : Sender τ μ) (a : SendStep τ μ) :
    step r s.attended (attendedStep a) = (step r s a).map attended := by
  have hpc (t : τ) : s.attended.pc (some t) = s.pc t := rfl
  cases a with
  | call t msg =>
    simp only [step, attendedStep, hpc]
    cases s.pc t <;> simp [attended, goto, elim_update]
  | complete t =>
    simp only [step, attendedStep, hpc]
    cases s.pc t <;> cases hflight : s.inFlight <;> simp [attended, goto, elim_update, hflight]
  | run t =>
    simp only [step, run, attendedStep, hpc]
    cases s.pc t with
    | idle => rfl
    | push msg => simp [attended, goto, elim_update]
    | ready => cases hbusy : s.busy <;> simp [attended, goto, elim_update, hbusy]
    | enter left =>
      cases left with
      | zero => simp [attended, goto, elim_update]
      | succ left => cases hbusy : s.busy <;> simp [attended, goto, elim_update, hbusy]
    | pop held => cases hqueue : s.queue <;> simp [attended, goto, elim_update, hqueue]
    | write held => cases r.blocking <;> simp [attended, goto, elim_update]
    | leave => simp [attended, goto, elim_update]
    | count =>
      cases hagain : r.triesAgain s.tryPopCount <;> simp [attended, goto, elim_update, hagain]

omit [DecidableEq τ] in
theorem noLostWakeUp_attended (s : Sender τ μ) (a : SendStep τ μ) :
    NoLostWakeUp r s.attended (attendedStep a) := by
  cases a with
  | run t => exact fun _ _ => .inr (.inl ⟨none, (Option.some_ne_none t).symm, rfl⟩)
  | call _ _ | complete _ => trivial

theorem inv_attended_init : Inv r ({} : Sender τ μ).attended := by
  have hinit : ({} : Sender τ μ).attended = ({} : Sender (Option τ) μ).goto none .ready := by
    unfold attended goto
    congr 1
    funext t
    cases t with
    | none => rw [update_self, Option.elim_none]
    | some t => rw [update_of_ne (Option.some_ne_none t), Option.elim_some]
  rw [hinit]
  exact (inv_init r).goto_trying rfl rfl rfl

end Sender

end Idgs.Net
