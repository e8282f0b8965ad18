import Mathlib.Data.Fintype.Basic
import Idgs.Common.Run

/-!
# The mailbox of a stateful actor

Any thread may hand an actor a message. It pushes the message on the actor's queue and then tries a
few times to enter the actor; the thread that is inside handles what is in the queue, until it finds
the queue empty, and leaves. A thread that does not get in relies on the one inside.
-/

namespace Idgs.Actor

/-- `StatefulActor::State`. -/
inductive ActorState
  | idle | active | terminate
deriving DecidableEq

/-- `RETRY_LOCK_TIMES`. -/
def RETRY_LOCK_TIMES : ℕ := 5

variable {τ μ : Type*} [DecidableEq τ]

/-- Where a thread is in `StatefulActor::process`: the atomic step that it takes next. -/
inductive Pc (μ : Type*)
  | idle
  /-- The test for `TERMINATE` in `process`. -/
  | process (msg : μ)
  /-- The same test in `putMessage`. -/
  | putMessage (msg : μ)
  | push (msg : μ)
  /-- A compare-and-swap of `tryToEntry`, with the number of attempts that are left. -/
  | tryToEntry (left : ℕ)
  /-- The test for `ACTIVE` before a message is popped. -/
  | loop
  | popMessage
  | innerProcess (msg : μ)
  | leave
deriving DecidableEq

/-- The thread is between entering and leaving. -/
def Pc.inside : Pc μ → Bool
  | loop | popMessage | innerProcess _ | leave => true
  | _ => false

/-- The thread will still try to enter. -/
def Pc.trying : Pc μ → Bool
  | process _ | putMessage _ | push _ | tryToEntry (_ + 1) => true
  | _ => false

/-- The thread is about to push its message. -/
def Pc.pushes : Pc μ → Bool
  | push _ => true
  | _ => false

/-- The thread handles a message. -/
def Pc.handles : Pc μ → Option μ
  | innerProcess msg => some msg
  | _ => none

/-- The actor and its threads. `pushed`, `popped` and `handled` are the messages so far, in these
orders. -/
structure Mailbox (τ μ : Type*) where
  state : ActorState := .idle
  queue : List μ := []
  pc : τ → Pc μ := fun _ => .idle
  pushed : List μ := []
  popped : List μ := []
  handled : List μ := []

/-- Steps: a thread calls `process`, a thread takes the next atomic step of its call. -/
inductive Step (τ μ : Type*)
  | call (t : τ) (msg : μ)
  | run (t : τ)

namespace Mailbox

/-- The thread goes on with `p`. -/
def goto (s : Mailbox τ μ) (t : τ) (p : Pc μ) : Mailbox τ μ :=
  { s with pc := Function.update s.pc t p }

/-- One step; `isDestroy` are the messages with `OP_DESTROY`, which end the actor. -/
def step (isDestroy : μ → Bool) (s : Mailbox τ μ) : Step τ μ → Option (Mailbox τ μ)
  | .call t msg =>
    match s.pc t with
    | .idle => some (s.goto t (.process msg))
    | _ => none
  | .run t =>
    match s.pc t with
    | .idle => none
    | .process msg =>
      if s.state = .terminate then some (s.goto t .idle) else some (s.goto t (.putMessage msg))
    | .putMessage msg =>
      if s.state = .terminate then some (s.goto t (.tryToEntry RETRY_LOCK_TIMES))
      else some (s.goto t (.push msg))
    | .push msg =>
      some { s.goto t (.tryToEntry RETRY_LOCK_TIMES) with
        queue := s.queue ++ [msg], pushed := s.pushed ++ [msg] }
    | .tryToEntry 0 => some (s.goto t .idle)
    | .tryToEntry (left + 1) =>
      if s.state = .idle then some { s.goto t .loop with state := .active }
      else some (s.goto t (.tryToEntry left))
    | .loop => if s.state = .active then some (s.goto t .popMessage) else some (s.goto t .leave)
    | .popMessage =>
      match s.queue with
      | [] => some (s.goto t .leave)
      | msg :: queue =>
        some { s.goto t (.innerProcess msg) with queue := queue, popped := s.popped ++ [msg] }
    | .innerProcess msg =>
      if isDestroy msg then
        some { s.goto t .idle with
          state := .terminate, queue := [], handled := s.handled ++ [msg] }
      else some { s.goto t .loop with handled := s.handled ++ [msg] }
    | .leave =>
      if s.state = .active then some { s.goto t .idle with state := .idle }
      else some (s.goto t .idle)

/-- Nothing is lost, and messages are handled one at a time. -/
structure Reliable (s : Mailbox τ μ) : Prop where
  serial : ∀ t t', (s.pc t).handles.isSome = true → (s.pc t').handles.isSome = true → t = t'
  dequeued : s.pushed = s.popped ++ s.queue
  order : ∀ t msg, (s.pc t).handles = some msg → s.popped = s.handled ++ [msg]
  once : (∀ t, (s.pc t).handles = none) → s.popped = s.handled
  drained : (∀ t, s.pc t = .idle) → s.queue = [] ∧ s.handled = s.pushed

/-- No wake-up is lost: a thread does not fail for the last time while the one inside has found the
queue empty and is about to leave, unless the queue is empty or another thread will still try; and
the actor is destroyed when the queue is empty and nobody is about to push. -/
def NoLostWakeUp (isDestroy : μ → Bool) (s : Mailbox τ μ) : Step τ μ → Prop
  | .call _ _ => True
  | .run t =>
    (s.pc t = .tryToEntry 1 → (∃ t', s.pc t' = .leave) →
      s.queue = [] ∨ ∃ t', t' ≠ t ∧ (s.pc t').trying = true) ∧
    (∀ msg ∈ (s.pc t).handles, isDestroy msg = true →
      s.queue = [] ∧ ∀ t', (s.pc t').pushes = false)

instance [Fintype τ] [DecidableEq μ] (isDestroy : μ → Bool) (s : Mailbox τ μ) (a : Step τ μ) :
    Decidable (NoLostWakeUp isDestroy s a) := by
  unfold NoLostWakeUp
  split <;> infer_instance

/-! ## The invariant -/

/-- The actor is active exactly while a thread is inside, and while nobody will look into the queue
again before leaving, the queue is empty or somebody will still try to enter. -/
structure Inv (s : Mailbox τ μ) : Prop where
  unique : ∀ t t', (s.pc t).inside = true → (s.pc t').inside = true → t = t'
  active : s.state = .active ↔ ∃ t, (s.pc t).inside = true
  dequeued : s.pushed = s.popped ++ s.queue
  order : ∀ t msg, (s.pc t).handles = some msg → s.popped = s.handled ++ [msg]
  once : (∀ t, (s.pc t).handles = none) → s.popped = s.handled
  wake : s.state = .idle ∨ (∃ t, s.pc t = .leave) → s.queue = [] ∨ ∃ t, (s.pc t).trying = true
  ended : s.state = .terminate → s.queue = [] ∧ ∀ t, (s.pc t).pushes = false

theorem inside_of_handles {p : Pc μ} {msg : μ} (h : p.handles = some msg) : p.inside = true := by
  cases p with
  | innerProcess m => rfl
  | _ => cases h

omit [DecidableEq τ] in
theorem inv_init : Inv ({} : Mailbox τ μ) where
  unique := by rintro _ _ ⟨⟩
  active := by simp [Pc.inside]
  dequeued := rfl
  order := by rintro _ _ ⟨⟩
  once := fun _ => rfl
  wake := fun _ => .inl rfl
  ended := by rintro ⟨⟩

variable {s : Mailbox τ μ}

omit [DecidableEq τ] in
theorem Inv.reliable (h : Inv s) : Reliable s where
  __ := h
  serial := by
    intro t t' ht ht'
    obtain ⟨msg, hmsg⟩ := Option.isSome_iff_exists.mp ht
    obtain ⟨msg', hmsg'⟩ := Option.isSome_iff_exists.mp ht'
    exact h.unique t t' (inside_of_handles hmsg) (inside_of_handles hmsg')
  drained := by
    intro hidle
    have hqueue : s.queue = [] := by
      cases hstate : s.state with
      | idle =>
        rcases h.wake (.inl hstate) with hempty | ⟨t, ht⟩
        · exact hempty
        · rw [hidle t] at ht
          cases ht
      | active =>
        obtain ⟨t, ht⟩ := h.active.mp hstate
        rw [hidle t] at ht
        cases ht
      | terminate => exact (h.ended hstate).1
    refine ⟨hqueue, ?_⟩
    rw [h.dequeued, hqueue, List.append_nil, h.once fun t => by rw [hidle t]; rfl]

/-! ## Moves of one thread -/

@[simp] theorem goto_pc_self (s : Mailbox τ μ) (t : τ) (p : Pc μ) : (s.goto t p).pc t = p :=
  Function.update_self ..

variable {t : τ}

theorem goto_pc_of_ne (s : Mailbox τ μ) {t' : τ} (p : Pc μ) (h : t' ≠ t) :
    (s.goto t p).pc t' = s.pc t' :=
  Function.update_of_ne h ..

/-- What holds of no thread but possibly the moving one comes from where it goes. -/
theorem goto_pc_cases {t' : τ} {p : Pc μ} {P : Pc μ → Prop}
    (h : P ((s.goto t p).pc t')) : (t' = t ∧ P p) ∨ (t' ≠ t ∧ P (s.pc t')) := by
  by_cases ht : t' = t
  · subst ht
    rw [goto_pc_self] at h
    exact .inl ⟨rfl, h⟩
  · rw [goto_pc_of_ne s p ht] at h
    exact .inr ⟨ht, h⟩

/-- A thread outside that stays outside keeps the invariant when it does not take the last wake-up
with it. -/
theorem Inv.goto_outside (h : Inv s) {p : Pc μ}
    (hout : (s.pc t).inside = false) (hp : p.inside = false)
    (hwake : s.state = .idle ∨ (∃ t', s.pc t' = .leave) →
      s.queue = [] ∨ p.trying = true ∨ ∃ t', t' ≠ t ∧ (s.pc t').trying = true)
    (hended : s.state = .terminate → p.pushes = false) : Inv (s.goto t p) where
  unique := by
    intro t₁ t₂ h₁ h₂
    rcases goto_pc_cases (P := fun q => q.inside = true) h₁ with ⟨-, h₁⟩ | ⟨-, h₁⟩
    · rw [hp] at h₁
      cases h₁
    · rcases goto_pc_cases (P := fun q => q.inside = true) h₂ with ⟨-, h₂⟩ | ⟨-, h₂⟩
      · rw [hp] at h₂
        cases h₂
      · exact h.unique t₁ t₂ h₁ h₂
  active := by
    refine h.active.trans ⟨?_, ?_⟩
    · rintro ⟨t', ht'⟩
      have hne : t' ≠ t := by
        rintro rfl
        rw [hout] at ht'
        cases ht'
      exact ⟨t', by rw [goto_pc_of_ne s p hne]; exact ht'⟩
    · rintro ⟨t', ht'⟩
      rcases goto_pc_cases (P := fun q => q.inside = true) ht' with ⟨-, ht'⟩ | ⟨-, ht'⟩
      · rw [hp] at ht'
        cases ht'
      · exact ⟨t', ht'⟩
  dequeued := h.dequeued
  order := by
    intro t' msg ht'
    rcases goto_pc_cases (P := fun q => q.handles = some msg) ht' with ⟨-, ht'⟩ | ⟨-, ht'⟩
    · rw [inside_of_handles ht'] at hp
      cases hp
    · exact h.order t' msg ht'
  once := by
    intro hnone
    refine h.once fun t' => ?_
    by_cases hne : t' = t
    · subst hne
      cases hh : (s.pc t').handles with
      | none => rfl
      | some msg =>
        rw [inside_of_handles hh] at hout
        cases hout
    · rw [← goto_pc_of_ne s p hne]
      exact hnone t'
  wake := by
    intro hleave
    have hold : s.state = .idle ∨ ∃ t', s.pc t' = .leave := by
      rcases hleave with hidle | ⟨t', ht'⟩
      · exact .inl hidle
      · rcases goto_pc_cases (P := fun q => q = .leave) ht' with ⟨-, rfl⟩ | ⟨-, ht'⟩
        · cases hp
        · exact .inr ⟨t', ht'⟩
    rcases hwake hold with hempty | htry | ⟨t', hne, ht'⟩
    · exact .inl hempty
    · exact .inr ⟨t, by rw [goto_pc_self]; exact htry⟩
    · exact .inr ⟨t', by rw [goto_pc_of_ne s p hne]; exact ht'⟩
  ended := by
    intro hterm
    obtain ⟨hqueue, hothers⟩ := h.ended hterm
    refine ⟨hqueue, fun t' => ?_⟩
    by_cases hne : t' = t
    · subst hne
      rw [goto_pc_self]
      exact hended hterm
    · rw [goto_pc_of_ne s p hne]
      exact hothers t'

omit [DecidableEq τ] in
/-- A message may be put into the queue while some thread will still try to enter. -/
theorem Inv.enqueue (h : Inv s) (ht : (s.pc t).trying = true)
    (hterm : s.state ≠ .terminate) (msg : μ) :
    Inv { s with queue := s.queue ++ [msg], pushed := s.pushed ++ [msg] } where
  __ := h
  dequeued := by rw [h.dequeued, List.append_assoc]
  wake := fun _ => .inr ⟨t, ht⟩
  ended := fun hst => absurd hst hterm

omit [DecidableEq τ] in
/-- The thread inside is the only one there, and the actor is active. -/
theorem Inv.alone (h : Inv s) (ht : (s.pc t).inside = true) :
    s.state = .active ∧ ∀ t', t' ≠ t → (s.pc t').inside = false := by
  refine ⟨h.active.mpr ⟨t, ht⟩, fun t' hne => ?_⟩
  cases hin : (s.pc t').inside with
  | false => rfl
  | true => exact absurd (h.unique t' t hin ht) hne

/-- The thread that is inside, or gets inside, goes on inside: the queue, the messages popped and
those handled may change with it as long as they fit. -/
theorem goto_inside {p : Pc μ}
    (hothers : ∀ t', t' ≠ t → (s.pc t').inside = false) (hp : p.inside = true)
    {queue popped handled : List μ} (hdequeued : s.pushed = popped ++ queue)
    (horder : ∀ msg, p.handles = some msg → popped = handled ++ [msg])
    (honce : p.handles = none → popped = handled) (hleave : p = .leave → queue = []) :
    Inv { s.goto t p with
      state := .active, queue := queue, popped := popped, handled := handled } where
  unique := by
    intro t₁ t₂ h₁ h₂
    have heq : ∀ t', ((s.goto t p).pc t').inside = true → t' = t := by
      intro t' ht'
      rcases goto_pc_cases (P := fun q => q.inside = true) ht' with ⟨heq, -⟩ | ⟨hne, ht'⟩
      · exact heq
      · rw [hothers t' hne] at ht'
        cases ht'
    rw [heq t₁ h₁, heq t₂ h₂]
  active := ⟨fun _ => ⟨t, by rw [show _ = p from goto_pc_self s t p]; exact hp⟩, fun _ => rfl⟩
  dequeued := hdequeued
  order := by
    intro t' msg ht'
    rcases goto_pc_cases (P := fun q => q.handles = some msg) ht' with ⟨-, ht'⟩ | ⟨hne, ht'⟩
    · exact horder msg ht'
    · have hin := hothers t' hne
      rw [inside_of_handles ht'] at hin
      cases hin
  once := by
    intro hnone
    have ht := hnone t
    rw [show _ = p from goto_pc_self s t p] at ht
    exact honce ht
  wake := by
    intro hwake
    obtain ⟨t', ht'⟩ := hwake.resolve_left (by rintro ⟨⟩)
    rcases goto_pc_cases (P := fun q => q = .leave) ht' with ⟨-, hpl⟩ | ⟨hne, ht'⟩
    · exact .inl (hleave hpl)
    · have hin := hothers t' hne
      rw [ht'] at hin
      cases hin
  ended := by rintro ⟨⟩

section

variable (h : Inv s)

include h

/-- The thread that is inside leaves, for an idle actor or an ended one. -/
theorem Inv.goto_idle (ht : (s.pc t).inside = true)
    {state : ActorState} (hstate : state ≠ .active) {queue handled : List μ}
    (hdequeued : s.pushed = s.popped ++ queue) (honce : s.popped = handled)
    (hidle : state = .idle → queue = [] ∨ ∃ t', t' ≠ t ∧ (s.pc t').trying = true)
    (hended : state = .terminate → queue = [] ∧ ∀ t', (s.pc t').pushes = false) :
    Inv { s.goto t .idle with state := state, queue := queue, handled := handled } where
  unique := by
    intro t₁ t₂ h₁ h₂
    rcases goto_pc_cases (P := fun q => q.inside = true) h₁ with ⟨-, ⟨⟩⟩ | ⟨hne, h₁⟩
    exact absurd (h.unique t₁ t h₁ ht) hne
  active := by
    refine ⟨fun hactive => absurd hactive hstate, ?_⟩
    rintro ⟨t', ht'⟩
    rcases goto_pc_cases (P := fun q => q.inside = true) ht' with ⟨-, ⟨⟩⟩ | ⟨hne, ht'⟩
    exact absurd (h.unique t' t ht' ht) hne
  dequeued := hdequeued
  order := by
    intro t' msg ht'
    rcases goto_pc_cases (P := fun q => q.handles = some msg) ht' with ⟨-, ⟨⟩⟩ | ⟨hne, ht'⟩
    exact absurd (h.unique t' t (inside_of_handles ht') ht) hne
  once := fun _ => honce
  wake := by
    rintro (hst | ⟨t', ht'⟩)
    · rcases hidle hst with hempty | ⟨t', hne, ht'⟩
      · exact .inl hempty
      · exact .inr ⟨t', by rw [show _ = s.pc t' from goto_pc_of_ne s .idle hne]; exact ht'⟩
    · rcases goto_pc_cases (P := fun q => q = .leave) ht' with ⟨-, ⟨⟩⟩ | ⟨hne, ht'⟩
      exact absurd (h.unique t' t (by rw [ht']; rfl) ht) hne
  ended := by
    intro hst
    obtain ⟨hqueue, hothers⟩ := hended hst
    refine ⟨hqueue, fun t' => ?_⟩
    by_cases hne : t' = t
    · subst hne
      rw [show _ = Pc.idle from goto_pc_self s t' .idle]
      rfl
    · rw [show _ = s.pc t' from goto_pc_of_ne s .idle hne]
      exact hothers t'

/-! ## Every step keeps the invariant -/

/-- A thread outside goes on towards entering. -/
theorem Inv.goto_trying {p : Pc μ}
    (hout : (s.pc t).inside = false) (hp : p.inside = false) (htry : p.trying = true)
    (hended : s.state = .terminate → p.pushes = false) : Inv (s.goto t p) :=
  h.goto_outside hout hp (fun _ => .inr (.inl htry)) hended

/-- A thread outside that would not have tried again returns. -/
theorem Inv.goto_returned (hout : (s.pc t).inside = false)
    (htry : (s.pc t).trying = false) : Inv (s.goto t .idle) := by
  refine h.goto_outside hout rfl (fun hleave => ?_) fun _ => rfl
  rcases h.wake hleave with hempty | ⟨t', ht'⟩
  · exact .inl hempty
  · refine .inr (.inr ⟨t', ?_, ht'⟩)
    rintro rfl
    rw [htry] at ht'
    cases ht'

/-- A call starts. -/
theorem Inv.call {s' : Mailbox τ μ} {isDestroy : μ → Bool} {msg : μ}
    (hstep : step isDestroy s (.call t msg) = some s') : Inv s' := by
  simp only [step] at hstep
  split at hstep
  · rename_i hpc
    cases hstep
    exact h.goto_trying (by rw [hpc]; rfl) rfl rfl fun _ => rfl
  · cases hstep

/-- A call of an ended actor returns at once. -/
theorem Inv.rejected (hout : (s.pc t).inside = false)
    (hterm : s.state = .terminate) : Inv (s.goto t .idle) :=
  h.goto_outside hout rfl (fun _ => .inl (h.ended hterm).1) fun _ => rfl

/-- A failed attempt, when another one follows or no wake-up depends on it. -/
theorem Inv.failed {left : ℕ} (hpc : s.pc t = .tryToEntry (left + 1)) (hbusy : s.state ≠ .idle)
    (hlast : left = 0 → (∃ t', s.pc t' = .leave) →
      s.queue = [] ∨ ∃ t', t' ≠ t ∧ (s.pc t').trying = true) :
      Inv (s.goto t (.tryToEntry left)) := by
  refine h.goto_outside (by rw [hpc]; rfl) rfl (fun hleave => ?_) fun _ => rfl
  cases left with
  | zero =>
    rcases hlast rfl (hleave.resolve_left hbusy) with hempty | hother
    · exact .inl hempty
    · exact .inr (.inr hother)
  | succ left => exact .inr (.inl rfl)

/-- The thread has pushed its message and is about to try to enter. -/
theorem Inv.push {msg : μ} (hpc : s.pc t = .push msg) :
    Inv { s.goto t (.tryToEntry RETRY_LOCK_TIMES) with
      queue := s.queue ++ [msg], pushed := s.pushed ++ [msg] } := by
  have hterm : s.state ≠ .terminate := by
    intro hst
    have hpush := (h.ended hst).2 t
    rw [hpc] at hpush
    cases hpush
  have hmoved : Inv (s.goto t (.tryToEntry RETRY_LOCK_TIMES)) :=
    h.goto_trying (by rw [hpc]; rfl) rfl rfl fun _ => rfl
  exact hmoved.enqueue (t := t) (by rw [goto_pc_self]; rfl) hterm msg

/-- The compare-and-swap succeeds: nobody else is inside. -/
theorem Inv.enter (hidle : s.state = .idle) :
    Inv { s.goto t .loop with state := .active } := by
  have hout : ∀ t', (s.pc t').inside = false := by
    intro t'
    cases hin : (s.pc t').inside with
    | false => rfl
    | true =>
      have hactive := h.active.mpr ⟨t', hin⟩
      rw [hidle] at hactive
      cases hactive
  refine goto_inside (fun t' _ => hout t') rfl h.dequeued (by rintro _ ⟨⟩) (fun _ =>
    ?_) (by rintro ⟨⟩)
  refine h.once fun t' => ?_
  cases hh : (s.pc t').handles with
  | none => rfl
  | some msg =>
    have hin := hout t'
    rw [inside_of_handles hh] at hin
    cases hin

end

omit [DecidableEq τ] in
/-- The messages that were popped are those handled, when the thread inside handles none. -/
theorem Inv.popped_eq (h : Inv s) (ht : (s.pc t).inside = true)
    (hnone : (s.pc t).handles = none) : s.popped = s.handled := by
  refine h.once fun t' => ?_
  cases hh : (s.pc t').handles with
  | none => rfl
  | some msg =>
    rw [h.unique t' t (inside_of_handles hh) ht, hnone] at hh
    cases hh

/-- The steps of the thread that is inside, up to the leaving one. -/
theorem Inv.run_inside {s' : Mailbox τ μ} {isDestroy : μ → Bool} (h : Inv s)
    (ht : (s.pc t).inside = true) (hdestroy : ∀ msg ∈ (s.pc t).handles, isDestroy msg = true →
      s.queue = [] ∧ ∀ t', (s.pc t').pushes = false)
    (hstep : step isDestroy s (.run t) = some s') : Inv s' := by
  obtain ⟨hactive, hothers⟩ := h.alone ht
  have hstate : s = { s with state := .active } := by rw [← hactive]
  cases hpc : s.pc t with
  | loop =>
    have hpopped := h.popped_eq ht (by rw [hpc]; rfl)
    simp only [step, hpc, hactive, if_true] at hstep
    cases hstep
    rw [hstate]
    exact goto_inside hothers rfl h.dequeued (by rintro _ ⟨⟩) (fun _ => hpopped) (by rintro ⟨⟩)
  | popMessage =>
    have hpopped := h.popped_eq ht (by rw [hpc]; rfl)
    simp only [step, hpc] at hstep
    split at hstep
    · rename_i hqueue
      cases hstep
      rw [hstate]
      exact goto_inside hothers rfl h.dequeued (by rintro _ ⟨⟩) (fun _ => hpopped) fun _ => hqueue
    · rename_i msg queue hqueue
      cases hstep
      rw [hstate]
      refine goto_inside hothers rfl ?_ ?_ (by rintro ⟨⟩) (by rintro ⟨⟩)
      · rw [List.append_assoc, List.singleton_append, ← hqueue]
        exact h.dequeued
      · rintro _ ⟨⟩
        show s.popped ++ [msg] = s.handled ++ [msg]
        rw [hpopped]
  | innerProcess msg =>
    have hpopped := h.order t msg (by rw [hpc]; rfl)
    simp only [step, hpc] at hstep
    split at hstep
    · rename_i hmsg
      cases hstep
      obtain ⟨hqueue, hall⟩ := hdestroy msg (by rw [hpc]; rfl) hmsg
      refine h.goto_idle ht (by rintro ⟨⟩) ?_ hpopped (by rintro ⟨⟩) fun _ => ⟨rfl, hall⟩
      rw [← hqueue]
      exact h.dequeued
    · cases hstep
      rw [hstate]
      exact goto_inside hothers rfl h.dequeued (by rintro _ ⟨⟩) (fun _ => hpopped) (by rintro ⟨⟩)
  | leave =>
    have hpopped := h.popped_eq ht (by rw [hpc]; rfl)
    simp only [step, hpc, hactive, if_true] at hstep
    cases hstep
    refine h.goto_idle ht (by rintro ⟨⟩) h.dequeued hpopped (fun _ => ?_) (by rintro ⟨⟩)
    rcases h.wake (.inr ⟨t, hpc⟩) with hempty | ⟨t', ht'⟩
    · exact .inl hempty
    · refine .inr ⟨t', ?_, ht'⟩
      rintro rfl
      rw [hpc] at ht'
      cases ht'
  | _ =>
    rw [hpc] at ht
    cases ht

/-- A thread that is outside takes a step of its call. -/
theorem Inv.run_outside {s' : Mailbox τ μ} {isDestroy : μ → Bool} (h : Inv s)
    (ht : (s.pc t).inside = false) (hlast : s.pc t = .tryToEntry 1 → (∃ t', s.pc t' = .leave) →
      s.queue = [] ∨ ∃ t', t' ≠ t ∧ (s.pc t').trying = true)
    (hstep : step isDestroy s (.run t) = some s') : Inv s' := by
  cases hpc : s.pc t with
  | process msg =>
    simp only [step, hpc] at hstep
    split at hstep
    · rename_i hterm
      cases hstep
      exact h.rejected ht hterm
    · cases hstep
      exact h.goto_trying ht rfl rfl fun _ => rfl
  | putMessage msg =>
    simp only [step, hpc] at hstep
    split at hstep
    · cases hstep
      exact h.goto_trying ht rfl rfl fun _ => rfl
    · rename_i hterm
      cases hstep
      exact h.goto_trying ht rfl rfl fun hst => absurd hst hterm
  | push msg =>
    simp only [step, hpc] at hstep
    cases hstep
    exact h.push hpc
  | tryToEntry left =>
    cases left with
    | zero =>
      simp only [step, hpc] at hstep
      cases hstep
      exact h.goto_returned ht (by rw [hpc]; rfl)
    | succ left =>
      simp only [step, hpc] at hstep
      split at hstep
      · rename_i hidle
        cases hstep
        exact h.enter hidle
      · rename_i hbusy
        cases hstep
        refine h.failed hpc hbusy fun hleft => hlast ?_
        rw [hpc, hleft]
  | idle =>
    simp only [step, hpc] at hstep
    cases hstep
  | _ =>
    rw [hpc] at ht
    cases ht

/-- Every step that loses no wake-up keeps the invariant. -/
theorem Inv.step {s' : Mailbox τ μ} {isDestroy : μ → Bool} {a : Step τ μ} (h : Inv s)
    (hguard : NoLostWakeUp isDestroy s a) (hstep : step isDestroy s a = some s') : Inv s' := by
  cases a with
  | call t msg => exact h.call hstep
  | run t =>
    obtain ⟨hlast, hdestroy⟩ := hguard
    cases ht : (s.pc t).inside with
    | true => exact h.run_inside ht hdestroy hstep
    | false => exact h.run_outside ht hlast hstep

/-- In every run that loses no wake-up and destroys the actor when nothing is left to do, messages
are handled one at a time, each once and in order, and none stays behind when all calls have
returned. -/
theorem reliable_of_noLostWakeUp {isDestroy : μ → Bool} {s : Mailbox τ μ}
    (hrun : Common.Reaches (step isDestroy) (NoLostWakeUp isDestroy) {} s) : Reliable s :=
  (hrun.invariant (P := Inv) inv_init fun _ _ _ h hguard hstep => h.step hguard hstep).reliable

/-! ## A lost wake-up -/

/-- Two calls, the second of which fails while the first one leaves. -/
def overlapping : List (Step (Fin 2) ℕ) :=
  [.call 0 10, .run 0, .run 0, .run 0, .run 0, .run 0, .run 0, .run 0, .run 0, .run 0,
    .call 1 20, .run 1, .run 1, .run 1, .run 1, .run 1, .run 1, .run 1, .run 1, .run 1, .run 0]

/-- In some run both calls have returned and the second message is still in the queue. -/
theorem not_reliable_of_run : ¬ ∀ s : Mailbox (Fin 2) ℕ,
    Common.Reaches (step fun _ => false) Common.anyStep {} s → Reliable s := by
  intro hall
  have hend : ((Common.replay (step fun _ => false) Common.anyStep ({} : Mailbox (Fin 2) ℕ)
      overlapping).any fun s => decide ((∀ t, s.pc t = .idle) ∧ s.queue ≠ [])) = true := by
    decide +kernel
  obtain ⟨s, hs, hbad⟩ := (Option.any_eq_true _ _).mp hend
  obtain ⟨hidle, hqueue⟩ := of_decide_eq_true hbad
  exact hqueue ((hall s (Common.reaches_of_replay hs)).drained hidle).1

/-- Two calls, the second message of which is handled by the thread of the first. -/
def shared : List (Step (Fin 2) ℕ) :=
  [.call 0 10, .run 0, .run 0, .run 0, .run 0, .call 1 20, .run 1, .run 1, .run 1, .run 1, .run 1,
    .run 1, .run 1, .run 1, .run 1, .run 0, .run 0, .run 0, .run 0, .run 0, .run 0, .run 0, .run 0,
    .run 0]

/-- The condition allows an attempt to fail while the thread inside has not looked into the queue
yet: both messages are handled. -/
theorem reliable_of_noLostWakeUp_shared : ∃ s : Mailbox (Fin 2) ℕ,
    Common.Reaches (step fun _ => false) (NoLostWakeUp fun _ => false) {} s ∧
      s.handled = [10, 20] ∧ (∀ t, s.pc t = .idle) ∧ Reliable s := by
  have hend : ((Common.replay (step fun _ => false) (NoLostWakeUp fun _ => false)
      ({} : Mailbox (Fin 2) ℕ) shared).any fun s =>
        decide (s.handled = [10, 20] ∧ ∀ t, s.pc t = .idle)) = true := by
    decide +kernel
  obtain ⟨s, hs, hgood⟩ := (Option.any_eq_true _ _).mp hend
  obtain ⟨hhandled, hidle⟩ := of_decide_eq_true hgood
  exact ⟨s, Common.reaches_of_replay hs, hhandled, hidle,
    reliable_of_noLostWakeUp (Common.reaches_of_replay hs)⟩

end Mailbox

end Idgs.Actor
