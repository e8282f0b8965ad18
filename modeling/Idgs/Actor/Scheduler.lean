import Mathlib.Algebra.Group.Nat.Defs
import Mathlib.Data.List.Nodup
import Idgs.Common.Run

/-!
# The scheduler of delayed messages

Every thread may schedule a message: it reads the clock, makes a future, and pushes it on the queue
of its delay. The scheduler's thread pops the futures of each queue until it finds one that is not
due; this one is put back beside the queue, and as long as it is not due nothing behind it is looked
at.
-/

namespace Idgs.Actor.Scheduler

open Function List

/-! ## State and steps -/

/-- `ScheduledFuture`, with the number of the call that made it and the delay of that call. -/
structure ScheduledFuture where
  id : ℕ
  delay : ℕ
  timeToDispatch : ℕ
deriving DecidableEq

/-- `PendingFutures`. -/
structure PendingFutures where
  queue : List ScheduledFuture := []
  leaveBehindFuture : Option ScheduledFuture := none

/-- Where the scheduler's thread is: at the `for` loop of `run` behind a delay, at the start of
`fire`, at `try_pop`, or with a future that has been popped. -/
inductive Pc
  | sleep
  | visit (last : Option ℕ)
  | fire (delay : ℕ)
  | pop (delay : ℕ)
  | popped (delay : ℕ) (future : ScheduledFuture)
  | ended
deriving DecidableEq

/-- The future that has been popped from the queue of a delay. -/
def Pc.inHand : Pc → ℕ → List ScheduledFuture
  | popped delay future, other => if other = delay then [future] else []
  | _, _ => []

/-- The futures of a delay: the one in hand, the put-back one and the queue. -/
def lineOf (pc : Pc) (tasks : ℕ → PendingFutures) (delay : ℕ) : List ScheduledFuture :=
  pc.inHand delay ++ ((tasks delay).leaveBehindFuture.toList ++ (tasks delay).queue)

/-- The service, the clock and the threads. A call of `schedule` is in `scheduling` between reading
the clock and pushing. `now` is the reading of the pass and `before` the futures scheduled until
then; `relayed` has each message with the reading of its pass, `seen` the futures whose cancel was
seen. -/
structure Service where
  clock : ℕ
  created : ℕ := 0
  scheduling : List ScheduledFuture := []
  scheduled : List ScheduledFuture := []
  canceled : ScheduledFuture → Bool := fun _ => false
  delays : List ℕ := []
  tasks : ℕ → PendingFutures := fun _ => {}
  pc : Pc := .sleep
  now : ℕ := 0
  before : List ScheduledFuture := []
  relayed : List (ScheduledFuture × ℕ) := []
  seen : List ScheduledFuture := []

/-- Steps: the clock goes on; a call of `schedule` makes its future, it pushes it; a future is
cancelled; the scheduler's thread takes its next step. -/
inductive Step
  | tick (clock : ℕ)
  | schedule (delay : ℕ)
  | push (future : ScheduledFuture)
  | cancel (future : ScheduledFuture)
  | run

/-- The next delay of the map behind the last one. -/
def nextDelay (delays : List ℕ) (last : Option ℕ) : Option ℕ :=
  (delays.filter fun d => last.all (· < d)).min?

namespace Service

/-- The thread goes on, with other pending futures of a delay. -/
def goto (s : Service) (pc : Pc) (delay : ℕ) (p : PendingFutures) : Service :=
  { s with pc := pc, tasks := Function.update s.tasks delay p }

/-- The next step of the scheduler's thread, in `ScheduledMessageService::run` and `fire`. -/
def next (s : Service) : Service :=
  match s.pc with
  | .sleep => { s with pc := .visit none, now := s.clock, before := s.scheduled }
  | .visit last =>
    match nextDelay s.delays last with
    | none => { s with pc := .ended }
    | some delay => { s with pc := .fire delay }
  | .fire delay =>
    let p := s.tasks delay
    match p.leaveBehindFuture with
    | none => { s with pc := .pop delay }
    | some future =>
      if s.canceled future then
        { s.goto (.pop delay) delay { p with leaveBehindFuture := none } with
          seen := s.seen ++ [future] }
      else if s.now < future.timeToDispatch then { s with pc := .visit (some delay) }
      else
        { s.goto (.pop delay) delay { p with leaveBehindFuture := none } with
          relayed := s.relayed ++ [(future, s.now)] }
  | .pop delay =>
    let p := s.tasks delay
    match p.queue with
    | [] => { s with pc := .visit (some delay) }
    | future :: queue => s.goto (.popped delay future) delay { p with queue := queue }
  | .popped delay future =>
    if s.canceled future then { s with pc := .pop delay, seen := s.seen ++ [future] }
    else if s.now < future.timeToDispatch then
      s.goto (.visit (some delay)) delay { s.tasks delay with leaveBehindFuture := some future }
    else { s with pc := .pop delay, relayed := s.relayed ++ [(future, s.now)] }
  | .ended => { s with pc := .sleep }

/-- The future is pushed on the queue of its delay. -/
def pushed (s : Service) (future : ScheduledFuture) : Service :=
  let p := s.tasks future.delay
  { s with
    scheduling := s.scheduling.erase future
    scheduled := future :: s.scheduled
    delays := future.delay :: s.delays
    tasks := Function.update s.tasks future.delay { p with queue := p.queue ++ [future] } }

/-- One step. The time to dispatch is an `unsigned long`. -/
def step (s : Service) : Step → Option Service
  | .tick clock => if s.clock ≤ clock then some { s with clock := clock } else none
  | .schedule delay =>
    let future : ScheduledFuture := ⟨s.created, delay, (s.clock + delay) % 2 ^ 64⟩
    some { s with created := s.created + 1, scheduling := future :: s.scheduling }
  | .push future => if future ∈ s.scheduling then some (s.pushed future) else none
  | .cancel future =>
    if future ∈ s.scheduled then
      some { s with canceled := Function.update s.canceled future true } else none
  | .run => some s.next

/-! ## What is to hold -/

/-- The pending futures of a delay, in the order in which they are looked at. -/
def line (s : Service) (delay : ℕ) : List ScheduledFuture := lineOf s.pc s.tasks delay

/-- The messages that have been relayed. -/
def messages (s : Service) : List ScheduledFuture := s.relayed.map Prod.fst

/-- Every message is relayed at most once, not before its time and not when its cancel has been
seen; at the end of a pass, nothing is pending that was scheduled before it and is due at its
reading of the clock. -/
structure OnTime (s : Service) : Prop where
  once : s.messages.Nodup
  notEarly : ∀ p ∈ s.relayed, p.1.timeToDispatch ≤ p.2 ∧ p.2 ≤ s.clock
  notCanceled : ∀ future ∈ s.seen, future ∉ s.messages
  noneLeft : s.pc = .ended → ∀ future ∈ s.before, future.timeToDispatch ≤ s.now →
    s.canceled future = false →
    ∀ delay, future ∉ s.line delay

/-- A future is pushed behind none that is due later, unless that one has been cancelled. -/
def PushesInOrder (s : Service) : Step → Prop
  | .push future =>
    ∀ other ∈ s.line future.delay, s.canceled other = true ∨
      other.timeToDispatch ≤ future.timeToDispatch
  | _ => True

instance (s : Service) : (a : Step) → Decidable (s.PushesInOrder a)
  | .push future => inferInstanceAs (Decidable (∀ other ∈ s.line future.delay,
      s.canceled other = true ∨ other.timeToDispatch ≤ future.timeToDispatch))
  | .tick _ => inferInstanceAs (Decidable True)
  | .schedule _ => inferInstanceAs (Decidable True)
  | .cancel _ => inferInstanceAs (Decidable True)
  | .run => inferInstanceAs (Decidable True)

/-! ## What the scheduler's thread does to the futures -/

/-- Between `fire` and the end of its loop, the put-back future of the delay is gone. -/
def Cleared (s : Service) : Prop :=
  ∀ delay, (s.pc = .pop delay ∨ ∃ future, s.pc = .popped delay future) →
    (s.tasks delay).leaveBehindFuture = none

/-- A step of the scheduler's thread leaves the futures that are not pending as they are. -/
structure SameBooks (s s' : Service) : Prop where
  clock : s'.clock = s.clock
  created : s'.created = s.created
  scheduling : s'.scheduling = s.scheduling
  scheduled : s'.scheduled = s.scheduled
  canceled : s'.canceled = s.canceled
  delays : s'.delays = s.delays
  reading : s'.now = s.now ∧ s'.before = s.before ∨ s'.now = s.clock ∧ s'.before = s.scheduled

/-- It keeps the pending futures where they are. -/
structure Keeps (s s' : Service) : Prop extends SameBooks s s' where
  line : ∀ delay, s'.line delay = s.line delay
  relayed : s'.relayed = s.relayed
  seen : s'.seen = s.seen

/-- It takes the first future of a delay away: its cancel is seen, or its message is relayed, when
it is due. -/
structure Takes (s s' : Service) (delay : ℕ) (future : ScheduledFuture) :
    Prop extends SameBooks s s' where
  head : s.line delay = future :: s'.line delay
  line : ∀ other, other ≠ delay → s'.line other = s.line other
  book : s'.relayed = s.relayed ∧ s'.seen = s.seen ++ [future] ∨
    future.timeToDispatch ≤ s.now ∧ s'.relayed = s.relayed ++ [(future, s.now)] ∧ s'.seen = s.seen

section Next

variable {s : Service} {delay other : ℕ} {future : ScheduledFuture}

theorem lineOf_update_self (pc : Pc) (tasks : ℕ → PendingFutures) (delay : ℕ) (p : PendingFutures) :
    lineOf pc (update tasks delay p) delay =
      pc.inHand delay ++ (p.leaveBehindFuture.toList ++ p.queue) := by
  rw [lineOf, update_self]

/-- A step that changes the futures of one delay leaves those of the others as they are. -/
theorem lineOf_update_of_ne {pc pc' : Pc} {tasks : ℕ → PendingFutures} (hne : other ≠ delay)
    (hpc : pc.inHand other = pc'.inHand other) (p : PendingFutures) :
    lineOf pc (update tasks delay p) other = lineOf pc' tasks other := by
  rw [lineOf, lineOf, update_of_ne hne, hpc]

/-- The thread only moves on. -/
theorem keeps_of_pc {pc : Pc} {now : ℕ} {before : List ScheduledFuture}
    (hpc : ∀ delay, pc.inHand delay = s.pc.inHand delay)
    (hreading : now = s.now ∧ before = s.before ∨ now = s.clock ∧ before = s.scheduled) :
    Keeps s { s with pc := pc, now := now, before := before } where
  clock := rfl
  created := rfl
  scheduling := rfl
  scheduled := rfl
  canceled := rfl
  delays := rfl
  reading := hreading
  line := fun delay => by rw [line, line, lineOf, lineOf, hpc]
  relayed := rfl
  seen := rfl

/-- Every step of the scheduler's thread keeps the pending futures or takes the first one of a
delay. -/
theorem next_cases (h : s.Cleared) :
    Keeps s s.next ∨ ∃ delay future, Takes s s.next delay future := by
  unfold next
  cases hpc : s.pc with
  | sleep => exact .inl (keeps_of_pc (fun _ => by rw [hpc]; rfl) (.inr ⟨rfl, rfl⟩))
  | ended => exact .inl (keeps_of_pc (fun _ => by rw [hpc]; rfl) (.inl ⟨rfl, rfl⟩))
  | visit last =>
    simp only
    split
    · exact .inl (keeps_of_pc (fun _ => by rw [hpc]; rfl) (.inl ⟨rfl, rfl⟩))
    · exact .inl (keeps_of_pc (fun _ => by rw [hpc]; rfl) (.inl ⟨rfl, rfl⟩))
  | fire delay =>
    have hhand : ∀ other, (Pc.pop delay).inHand other = s.pc.inHand other := fun _ => by
        rw [hpc]; rfl
    simp only
    split
    · exact .inl (keeps_of_pc hhand (.inl ⟨rfl, rfl⟩))
    · rename_i future hfuture
      have hhead : s.line delay = future :: (s.tasks delay).queue := by
        rw [line, lineOf, hfuture, ← hhand]
        rfl
      have htail : lineOf (.pop delay)
          (update s.tasks delay ⟨(s.tasks delay).queue, none⟩) delay =
          (s.tasks delay).queue := by
        rw [lineOf_update_self]
        rfl
      split
      · refine .inr ⟨delay, future,
          ⟨⟨rfl, rfl, rfl, rfl, rfl, rfl, .inl ⟨rfl, rfl⟩⟩, ?_, ?_, .inl ⟨rfl, rfl⟩⟩⟩
        · rw [hhead]
          exact congrArg _ htail.symm
        · exact fun other hne => lineOf_update_of_ne hne (hhand other) _
      · split
        · exact .inl (keeps_of_pc (fun _ => by rw [hpc]; rfl) (.inl ⟨rfl, rfl⟩))
        · rename_i hdue
          refine .inr ⟨delay, future,
            ⟨⟨rfl, rfl, rfl, rfl, rfl, rfl, .inl ⟨rfl, rfl⟩⟩, ?_, ?_,
            .inr ⟨Nat.not_lt.mp hdue, rfl, rfl⟩⟩⟩
          · rw [hhead]
            exact congrArg _ htail.symm
          · exact fun other hne => lineOf_update_of_ne hne (hhand other) _
  | pop delay =>
    have hcleared := h delay (.inl hpc)
    simp only
    split
    · exact .inl (keeps_of_pc (fun _ => by rw [hpc]; rfl) (.inl ⟨rfl, rfl⟩))
    · rename_i future queue hqueue
      refine .inl ⟨⟨rfl, rfl, rfl, rfl, rfl, rfl, .inl ⟨rfl, rfl⟩⟩, fun other => ?_, rfl, rfl⟩
      by_cases hne : other = delay
      · subst hne
        have hinHand : (Pc.popped other future).inHand other = [future] := if_pos rfl
        refine (lineOf_update_self (.popped other future) s.tasks other _).trans ?_
        rw [hinHand, line, lineOf, hpc, hqueue, hcleared]
        rfl
      · exact lineOf_update_of_ne hne (by rw [hpc]; exact if_neg hne) _
  | popped delay future =>
    have hcleared := h delay (.inr ⟨future, hpc⟩)
    have hhead : s.line delay = future :: (s.tasks delay).queue := by
      rw [line, lineOf, hpc, hcleared]
      simp only [Pc.inHand, if_true]
      rfl
    have hother : ∀ other, other ≠ delay → s.pc.inHand other = [] := fun other hne => by
      rw [hpc]
      exact if_neg hne
    have hpop : ∀ s' : Service, s'.pc = .pop delay → s'.tasks = s.tasks →
        s.line delay = future :: s'.line delay ∧ ∀ other, other ≠ delay →
        s'.line other = s.line other := by
      intro s' hpc' htasks
      refine ⟨?_, fun other hne => ?_⟩
      · rw [hhead, line, lineOf, hpc', htasks, hcleared]
        rfl
      · rw [line, line, lineOf, lineOf, hpc', htasks, hother other hne]
        rfl
    simp only
    split
    · obtain ⟨hline, hothers⟩ :=
        hpop { s with pc := .pop delay, seen := s.seen ++ [future] } rfl rfl
      exact .inr ⟨delay, future,
        ⟨⟨rfl, rfl, rfl, rfl, rfl, rfl, .inl ⟨rfl, rfl⟩⟩, hline, hothers, .inl ⟨rfl, rfl⟩⟩⟩
    · split
      · refine .inl ⟨⟨rfl, rfl, rfl, rfl, rfl, rfl, .inl ⟨rfl, rfl⟩⟩, fun other => ?_, rfl, rfl⟩
        by_cases hne : other = delay
        · subst hne
          refine (lineOf_update_self _ s.tasks other _).trans ?_
          rw [hhead]
          rfl
        · have hvisit : (Pc.visit (some delay)).inHand other = s.pc.inHand other :=
            (hother other hne).symm
          exact lineOf_update_of_ne hne hvisit _
      · rename_i hdue
        obtain ⟨hline, hothers⟩ :=
          hpop { s with pc := .pop delay, relayed := s.relayed ++ [(future, s.now)] } rfl rfl
        exact .inr ⟨delay, future,
          ⟨⟨rfl, rfl, rfl, rfl, rfl, rfl, .inl ⟨rfl, rfl⟩⟩, hline, hothers,
          .inr ⟨Nat.not_lt.mp hdue, rfl, rfl⟩⟩⟩

/-- The put-back future stays away while the thread is at the queue. -/
theorem cleared_next (h : s.Cleared) : s.next.Cleared := by
  unfold next
  cases hpc : s.pc with
  | sleep | ended => simp [Cleared]
  | visit last =>
    simp only
    split
    · simp [Cleared]
    · simp [Cleared]
  | fire delay =>
    simp only
    split
    · rename_i hnone
      intro other hat
      obtain rfl : delay = other := by simpa using hat
      exact hnone
    · split
      · intro other hat
        obtain rfl : delay = other := by simpa [goto] using hat
        exact congrArg PendingFutures.leaveBehindFuture (update_self delay _ s.tasks)
      · split
        · simp [Cleared]
        · intro other hat
          obtain rfl : delay = other := by simpa [goto] using hat
          exact congrArg PendingFutures.leaveBehindFuture (update_self delay _ s.tasks)
  | pop delay =>
    have hcleared := h delay (.inl hpc)
    simp only
    split
    · simp [Cleared]
    · intro other hat
      obtain rfl : delay = other := by simpa [goto] using hat
      exact (congrArg PendingFutures.leaveBehindFuture
        (update_self delay _ s.tasks)).trans hcleared
  | popped delay future =>
    have hcleared := h delay (.inr ⟨future, hpc⟩)
    simp only
    split
    · intro other hat
      obtain rfl : delay = other := by simpa using hat
      exact hcleared
    · split
      · simp [Cleared, goto]
      · intro other hat
        obtain rfl : delay = other := by simpa using hat
        exact hcleared

end Next

/-! ## Every future in one place -/

/-- How often a future is about to be pushed, pending, seen cancelled or relayed. -/
def places (s : Service) (future : ScheduledFuture) : ℕ :=
  s.scheduling.count future + (s.line future.delay).count future + s.seen.count future +
    s.messages.count future

/-- The futures so far are in one place each, those that are pending in the line of their delay. -/
structure Inv (s : Service) : Prop where
  cleared : s.Cleared
  placed : ∀ future, s.places future ≤ 1
  own : ∀ {delay future}, future ∈ s.line delay → future.delay = delay
  known : ∀ {delay future}, future ∈ s.line delay → delay ∈ s.delays
  fresh : ∀ future, s.created ≤ future.id → s.places future = 0 ∧ future ∉ s.scheduled
  arrived : ∀ future ∈ s.scheduled, future ∉ s.scheduling
  times : ∀ p ∈ s.relayed, p.1.timeToDispatch ≤ p.2 ∧ p.2 ≤ s.clock
  now_le : s.now ≤ s.clock
  before_subset : s.before ⊆ s.scheduled

section Places

variable {s s' : Service} {delay : ℕ} {future : ScheduledFuture}

theorem Inv.once (h : s.Inv) : s.messages.Nodup :=
  nodup_iff_count_le_one.mpr fun future => by
    have hplaced := h.placed future
    unfold places at hplaced
    omega

theorem Inv.notCanceled (h : s.Inv) (hseen : future ∈ s.seen) : future ∉ s.messages :=
  fun hmem => by
  have hplaced := h.placed future
  have hcount := count_pos_iff.mpr hseen
  have hcount' := count_pos_iff.mpr hmem
  unfold places at hplaced
  omega

theorem inv_init (clock : ℕ) : Inv { clock := clock } where
  cleared := fun _ h => by rcases h with h | ⟨_, h⟩ <;> cases h
  placed := fun _ => Nat.zero_le _
  own := fun h => absurd h not_mem_nil
  known := fun h => absurd h not_mem_nil
  fresh := fun _ _ => ⟨rfl, not_mem_nil⟩
  arrived := fun _ h => absurd h not_mem_nil
  times := fun _ h => absurd h not_mem_nil
  now_le := Nat.zero_le _
  before_subset := nil_subset _

/-- The reading of the clock and the futures scheduled before it. -/
theorem SameBooks.now_le (h : SameBooks s s') (hinv : s.Inv) : s'.now ≤ s'.clock := by
  rw [h.clock]
  rcases h.reading with ⟨hnow, -⟩ | ⟨hnow, -⟩
  · rw [hnow]
    exact hinv.now_le
  · exact Nat.le_of_eq hnow

theorem SameBooks.before_subset (h : SameBooks s s') (hinv : s.Inv) : s'.before ⊆ s'.scheduled := by
  rw [h.scheduled]
  rcases h.reading with ⟨-, hbefore⟩ | ⟨-, hbefore⟩
  · rw [hbefore]
    exact hinv.before_subset
  · rw [hbefore]
    exact List.Subset.refl _

theorem Keeps.places (h : Keeps s s') (future : ScheduledFuture) :
    s'.places future = s.places future := by
  rw [Service.places, Service.places, messages, messages, h.scheduling, h.line, h.seen, h.relayed]

/-- Taking a future from its line and noting it keeps the number of its places. -/
theorem Takes.places (h : Takes s s' delay future) (hown : future.delay = delay)
    (other : ScheduledFuture) :
    s'.places other = s.places other := by
  have hline : (s.line other.delay).count other =
      (s'.line other.delay).count other + [future].count other := by
    by_cases hdelay : other.delay = delay
    · rw [hdelay, h.head, count_cons, count_singleton]
    · have hne : other ≠ future := fun heq => hdelay (heq ▸ hown)
      have hzero : [future].count other = 0 := count_eq_zero.mpr (by simpa using hne)
      rw [h.line other.delay hdelay, hzero, Nat.add_zero]
  rw [Service.places, Service.places, messages, messages, h.scheduling, hline]
  rcases h.book with ⟨hrelayed, hseen⟩ | ⟨-, hrelayed, hseen⟩
  · rw [hrelayed, hseen, count_append]
    omega
  · have hmessage : [(future, s.now)].map Prod.fst = [future] := rfl
    rw [hrelayed, hseen, map_append, count_append, hmessage]
    omega

theorem inv_next (h : s.Inv) : s.next.Inv := by
  have hcleared := cleared_next h.cleared
  rcases next_cases h.cleared with hkeeps | ⟨delay, future, htakes⟩
  · refine ⟨hcleared, fun f => ?_, fun hmem => ?_, fun hmem => ?_, fun f hf => ?_, fun f hf => ?_,
      fun p hp => ?_,
      hkeeps.now_le h, hkeeps.before_subset h⟩
    · rw [hkeeps.places]
      exact h.placed f
    · rw [hkeeps.line] at hmem
      exact h.own hmem
    · rw [hkeeps.line] at hmem
      rw [hkeeps.delays]
      exact h.known hmem
    · rw [hkeeps.created] at hf
      rw [hkeeps.places, hkeeps.scheduled]
      exact h.fresh f hf
    · rw [hkeeps.scheduled] at hf
      rw [hkeeps.scheduling]
      exact h.arrived f hf
    · rw [hkeeps.relayed] at hp
      rw [hkeeps.clock]
      exact h.times p hp
  · have hown : future.delay = delay := h.own (htakes.head ▸ mem_cons_self)
    have hsub : ∀ {d f}, f ∈ s.next.line d → f ∈ s.line d := fun {d f} hmem => by
      by_cases hd : d = delay
      · subst hd
        rw [htakes.head]
        exact mem_cons_of_mem _ hmem
      · rwa [htakes.line d hd] at hmem
    refine ⟨hcleared, fun f => ?_, fun hmem => h.own (hsub hmem), fun hmem => ?_, fun f hf => ?_,
      fun f hf => ?_,
      fun p hp => ?_, htakes.now_le h, htakes.before_subset h⟩
    · rw [htakes.places hown]
      exact h.placed f
    · rw [htakes.delays]
      exact h.known (hsub hmem)
    · rw [htakes.created] at hf
      rw [htakes.places hown, htakes.scheduled]
      exact h.fresh f hf
    · rw [htakes.scheduled] at hf
      rw [htakes.scheduling]
      exact h.arrived f hf
    · rw [htakes.clock]
      rcases htakes.book with ⟨hrelayed, -⟩ | ⟨hdue, hrelayed, -⟩
      · rw [hrelayed] at hp
        exact h.times p hp
      · rw [hrelayed] at hp
        rcases mem_append.mp hp with hp | hp
        · exact h.times p hp
        · rw [mem_singleton.mp hp]
          exact ⟨hdue, h.now_le⟩

/-- A future that is pushed is the last one of its delay. -/
theorem line_pushed (s : Service) (future : ScheduledFuture) (other : ℕ) :
    (s.pushed future).line other = s.line other ++ if other = future.delay then [future] else
    [] := by
  by_cases hne : other = future.delay
  · rw [if_pos hne, hne, line, pushed, lineOf_update_self, line, lineOf, append_assoc, append_assoc]
  · rw [if_neg hne, append_nil]
    exact lineOf_update_of_ne hne rfl _

theorem mem_line_pushed_iff {other : ℕ} {f : ScheduledFuture} :
    f ∈ (s.pushed future).line other ↔ f ∈ s.line other ∨ other = future.delay ∧ f = future := by
  rw [line_pushed, mem_append]
  split
  · simp [*]
  · simp [*]

/-- The future goes from the call to the line of its delay. -/
theorem places_pushed (hmem : future ∈ s.scheduling) (f : ScheduledFuture) :
    (s.pushed future).places f = s.places f := by
  have hcount : 1 ≤ s.scheduling.count future := count_pos_iff.mpr hmem
  rw [Service.places, Service.places, line_pushed, count_append]
  simp only [pushed, messages]
  by_cases hf : f = future
  · subst hf
    rw [if_pos rfl, count_erase_self, count_singleton_self]
    omega
  · have hzero : (if f.delay = future.delay then [future] else []).count f = 0 := by
      refine count_eq_zero.mpr ?_
      split
      · simpa using hf
      · exact not_mem_nil
    rw [count_erase_of_ne hf, hzero, Nat.add_zero]

theorem inv_pushed (h : s.Inv) (hmem : future ∈ s.scheduling) : (s.pushed future).Inv := by
  have hcount : 1 ≤ s.scheduling.count future := count_pos_iff.mpr hmem
  refine ⟨fun delay hat => ?_, fun f => ?_, fun {delay f} hf => ?_, fun {delay f} hf => ?_,
    fun f hf => ?_,
    fun f hf => ?_, h.times, h.now_le, fun f hf => mem_cons_of_mem _ (h.before_subset hf)⟩
  · have hnone := h.cleared delay hat
    by_cases hne : delay = future.delay
    · subst hne
      exact (congrArg PendingFutures.leaveBehindFuture (update_self _ _ s.tasks)).trans
        hnone
    · exact (congrArg PendingFutures.leaveBehindFuture (update_of_ne hne _ s.tasks)).trans
        hnone
  · rw [places_pushed hmem]
    exact h.placed f
  · rcases mem_line_pushed_iff.mp hf with hf | ⟨rfl, rfl⟩
    · exact h.own hf
    · rfl
  · rcases mem_line_pushed_iff.mp hf with hf | ⟨rfl, rfl⟩
    · exact mem_cons_of_mem _ (h.known hf)
    · exact mem_cons_self
  · obtain ⟨hzero, hscheduled⟩ := h.fresh f hf
    rw [places_pushed hmem]
    refine ⟨hzero, fun hmem' => ?_⟩
    rcases mem_cons.mp hmem' with rfl | hmem'
    · unfold Service.places at hzero
      omega
    · exact hscheduled hmem'
  · intro hmem'
    rcases mem_cons.mp hf with rfl | hf
    · have hplaced := h.placed f
      have hpos : 0 < (s.scheduling.erase f).count f := count_pos_iff.mpr hmem'
      rw [count_erase_self] at hpos
      unfold Service.places at hplaced
      omega
    · exact h.arrived f hf (mem_of_mem_erase hmem')

theorem inv_schedule (h : s.Inv) (delay : ℕ) {s' : Service}
    (hstep : s.step (.schedule delay) = some s') :
    s'.Inv := by
  simp only [step, Option.some.injEq] at hstep
  subst hstep
  obtain ⟨hzero, hscheduled⟩ :=
    h.fresh ⟨s.created, delay, (s.clock + delay) % 2 ^ 64⟩ (Nat.le_refl _)
  refine ⟨h.cleared, fun f => ?_, h.own, h.known, fun f hf => ?_, fun f hf hmem => ?_, h.times,
    h.now_le,
    h.before_subset⟩
  · have hplaced := h.placed f
    unfold Service.places at hplaced hzero ⊢
    rw [count_cons]
    split
    · rename_i heq
      rw [beq_iff_eq] at heq
      subst heq
      change _ + 1 + _ + _ + _ ≤ 1
      have hline : ∀ d, lineOf s.pc s.tasks d = s.line d := fun _ => rfl
      simp only [line, messages] at hzero ⊢
      omega
    · exact hplaced
  · have hold := h.fresh f (Nat.le_of_succ_le hf)
    refine ⟨?_, hold.2⟩
    have hne : (⟨s.created, delay, (s.clock + delay) % 2 ^ 64⟩ : ScheduledFuture) ≠ f :=
      fun heq => by
      rw [← heq] at hf
      exact absurd hf (Nat.not_succ_le_self _)
    have hzero' := hold.1
    unfold Service.places at hzero' ⊢
    rw [count_cons_of_ne hne]
    exact hzero'
  · rcases mem_cons.mp hmem with rfl | hmem
    · exact hscheduled hf
    · exact h.arrived f hf hmem

/-- Every step keeps every future in one place. -/
theorem inv_step (h : s.Inv) {a : Step} (hstep : s.step a = some s') : s'.Inv := by
  cases a with
  | tick clock =>
    simp only [step] at hstep
    split at hstep
    · rename_i hle
      cases hstep
      exact ⟨h.cleared, h.placed, h.own, h.known, h.fresh, h.arrived,
        fun p hp =>
        ⟨(h.times p hp).1, Nat.le_trans (h.times p hp).2 hle⟩, Nat.le_trans h.now_le hle,
        h.before_subset⟩
    · cases hstep
  | schedule delay => exact inv_schedule h delay hstep
  | push future =>
    by_cases hmem : future ∈ s.scheduling
    · simp only [step, if_pos hmem, Option.some.injEq] at hstep
      subst hstep
      exact inv_pushed h hmem
    · simp only [step, if_neg hmem, reduceCtorEq] at hstep
  | cancel future =>
    simp only [step] at hstep
    split at hstep
    · cases hstep
      exact ⟨h.cleared, h.placed, h.own, h.known, h.fresh, h.arrived, h.times, h.now_le,
        h.before_subset⟩
    · cases hstep
  | run =>
    cases hstep
    exact inv_next h

end Places

/-! ## The pass -/

/-- The delays that the pass has been at. -/
def visited (s : Service) (delay : ℕ) : Prop :=
  match s.pc with
  | .sleep => False
  | .visit last => ∃ d, last = some d ∧ delay ≤ d
  | .fire d => delay < d
  | .pop d => delay < d
  | .popped d _ => delay < d
  | .ended => True

/-- The pending futures of a delay are in the order of their times, and where the pass has been,
none is left that it should have taken. -/
structure InOrder (s : Service) : Prop where
  sorted : ∀ delay, (s.line delay).Pairwise fun f g =>
    s.canceled f = true ∨ f.timeToDispatch ≤ g.timeToDispatch
  done : ∀ {delay future}, s.visited delay → future ∈ s.line delay → future ∈ s.before →
    future.timeToDispatch ≤ s.now → s.canceled future = true

section Pass

variable {s s' : Service} {delay : ℕ} {future : ScheduledFuture} {last : Option ℕ}

theorem nextDelay_eq_none (h : nextDelay s.delays last = none) (hmem : delay ∈ s.delays) :
    ∃ d, last = some d ∧ delay ≤ d := by
  rw [nextDelay, min?_eq_none_iff, filter_eq_nil_iff] at h
  have hnot := h delay hmem
  cases last with
  | none => exact absurd rfl hnot
  | some d => exact ⟨d, rfl, by simpa using hnot⟩

theorem nextDelay_eq_some {d : ℕ} (h : nextDelay s.delays last = some d) (hmem : delay ∈ s.delays)
    (hlt : delay < d) : ∃ d, last = some d ∧ delay ≤ d := by
  obtain ⟨-, hmin⟩ := min?_eq_some_iff.mp h
  have hnot : ¬ last.all (· < delay) = true := fun hall =>
    Nat.not_lt.mpr (hmin delay (mem_filter.mpr ⟨hmem, hall⟩)) hlt
  cases last with
  | none => exact absurd rfl hnot
  | some d => exact ⟨d, rfl, by simpa using hnot⟩

/-- The first pending future of a delay is not due, and not cancelled either. -/
def Blocked (s : Service) (delay : ℕ) : Prop :=
  ∃ future rest, s.line delay = future :: rest ∧ s.canceled future = false ∧
    s.now < future.timeToDispatch

/-- Where the pass has been when it leaves a delay. -/
theorem lt_or_eq_of_left {d : ℕ} (h : ∃ e, some d = some e ∧ delay ≤ e) :
    delay < d ∨ delay = d := by
  obtain ⟨e, he, hle⟩ := h
  obtain rfl := Option.some.inj he
  exact Nat.lt_or_eq_of_le hle

/-- Where the pass has been after a step, it has been before, or it leaves a delay that is
blocked. -/
theorem visited_next (h : s.Inv) (hmem : future ∈ s.line delay) (hvisited : s.next.visited delay) :
    s.visited delay ∨ s.Blocked delay := by
  unfold next at hvisited
  cases hpc : s.pc with
  | sleep =>
    rw [hpc] at hvisited
    obtain ⟨d, hd, -⟩ := hvisited
    cases hd
  | ended =>
    rw [hpc] at hvisited
    exact hvisited.elim
  | visit last =>
    refine .inl ?_
    rw [visited, hpc]
    simp only [hpc] at hvisited
    cases hnext : nextDelay s.delays last with
    | none => exact nextDelay_eq_none hnext (h.known hmem)
    | some d =>
      simp only [hnext] at hvisited
      exact nextDelay_eq_some hnext (h.known hmem) hvisited
  | fire d =>
    have hbefore : s.visited delay ↔ delay < d := by rw [visited, hpc]
    simp only [hpc] at hvisited
    cases hfuture : (s.tasks d).leaveBehindFuture with
    | none =>
      simp only [hfuture] at hvisited
      exact .inl (hbefore.mpr hvisited)
    | some first =>
      simp only [hfuture] at hvisited
      split at hvisited
      · exact .inl (hbefore.mpr hvisited)
      · rename_i hcanceled
        split at hvisited
        · rename_i hlate
          rcases lt_or_eq_of_left hvisited with hlt | rfl
          · exact .inl (hbefore.mpr hlt)
          · refine .inr ⟨first, (s.tasks delay).queue, ?_, by simpa using hcanceled, hlate⟩
            rw [line, lineOf, hpc, hfuture]
            rfl
        · exact .inl (hbefore.mpr hvisited)
  | pop d =>
    have hbefore : s.visited delay ↔ delay < d := by rw [visited, hpc]
    have hcleared := h.cleared d (.inl hpc)
    simp only [hpc] at hvisited
    cases hqueue : (s.tasks d).queue with
    | nil =>
      simp only [hqueue] at hvisited
      rcases lt_or_eq_of_left hvisited with hlt | rfl
      · exact .inl (hbefore.mpr hlt)
      · rw [line, lineOf, hpc, hqueue, hcleared] at hmem
        exact absurd hmem not_mem_nil
    | cons first queue =>
      simp only [hqueue] at hvisited
      exact .inl (hbefore.mpr hvisited)
  | popped d first =>
    have hbefore : s.visited delay ↔ delay < d := by rw [visited, hpc]
    have hcleared := h.cleared d (.inr ⟨first, hpc⟩)
    simp only [hpc] at hvisited
    split at hvisited
    · exact .inl (hbefore.mpr hvisited)
    · rename_i hcanceled
      split at hvisited
      · rename_i hlate
        rcases lt_or_eq_of_left hvisited with hlt | rfl
        · exact .inl (hbefore.mpr hlt)
        · refine .inr ⟨first, (s.tasks delay).queue, ?_, by simpa using hcanceled, hlate⟩
          have hinHand : (Pc.popped delay first).inHand delay = [first] := if_pos rfl
          rw [line, lineOf, hpc, hinHand, hcleared]
          rfl
      · exact .inl (hbefore.mpr hvisited)

/-- Behind a future that is not due nothing is. -/
theorem InOrder.not_due (h : s.InOrder) (hblocked : s.Blocked delay)
    (hmem : future ∈ s.line delay) :
    s.now < future.timeToDispatch := by
  obtain ⟨first, rest, hline, hcanceled, hlate⟩ := hblocked
  have hsorted := h.sorted delay
  rw [hline] at hsorted hmem
  rcases mem_cons.mp hmem with rfl | hrest
  · exact hlate
  · rcases rel_of_pairwise_cons hsorted hrest with hc | hle
    · rw [hcanceled] at hc
      cases hc
    · exact Nat.lt_of_lt_of_le hlate hle

/-- The reading of the pass stays until the next one. -/
theorem reading_next (h : s.pc ≠ .sleep) : s.next.now = s.now ∧ s.next.before = s.before := by
  unfold next
  cases hpc : s.pc with
  | sleep => exact absurd hpc h
  | ended => exact ⟨rfl, rfl⟩
  | visit _ | pop _ =>
    simp only
    split
    · exact ⟨rfl, rfl⟩
    · exact ⟨rfl, rfl⟩
  | fire d =>
    simp only
    split
    · exact ⟨rfl, rfl⟩
    · split
      · exact ⟨rfl, rfl⟩
      · split
        · exact ⟨rfl, rfl⟩
        · exact ⟨rfl, rfl⟩
  | popped d first =>
    simp only
    split
    · exact ⟨rfl, rfl⟩
    · split
      · exact ⟨rfl, rfl⟩
      · exact ⟨rfl, rfl⟩

theorem canceled_next (h : s.Inv) : s.next.canceled = s.canceled := by
  rcases next_cases h.cleared with hkeeps | ⟨delay, future, htakes⟩
  · exact hkeeps.canceled
  · exact htakes.canceled

/-- The thread adds nothing to the lines. -/
theorem line_next_suffix (h : s.Inv) (delay : ℕ) : s.next.line delay <:+ s.line delay := by
  rcases next_cases h.cleared with hkeeps | ⟨d, future, htakes⟩
  · exact (hkeeps.line delay).symm ▸ suffix_refl _
  · by_cases hne : delay = d
    · rw [hne, htakes.head]
      exact suffix_cons _ _
    · exact (htakes.line delay hne).symm ▸ suffix_refl _

theorem inOrder_next (h : s.Inv) (horder : s.InOrder) : s.next.InOrder where
  sorted := fun delay => by
    rw [canceled_next h]
    exact (horder.sorted delay).sublist (line_next_suffix h delay).sublist
  done := fun {delay future} hvisited hline hbefore hdue => by
    have hmem := (line_next_suffix h delay).subset hline
    by_cases hsleep : s.pc = .sleep
    · rw [visited, next, hsleep] at hvisited
      obtain ⟨d, hd, -⟩ := hvisited
      cases hd
    obtain ⟨hnow, hbefore'⟩ := reading_next hsleep
    rw [hnow] at hdue
    rw [hbefore'] at hbefore
    rw [canceled_next h]
    rcases visited_next h hmem hvisited with hvisited | hblocked
    · exact horder.done hvisited hmem hbefore hdue
    · exact absurd (horder.not_due hblocked hmem) (Nat.not_lt.mpr hdue)

/-- A future that is pushed in order leaves the lines in order. -/
theorem inOrder_pushed (h : s.Inv) (horder : s.InOrder) (hmem : future ∈ s.scheduling)
    (hguard : s.PushesInOrder (.push future)) : (s.pushed future).InOrder where
  sorted := fun delay => by
    rw [line_pushed]
    refine pairwise_append.mpr ⟨horder.sorted delay, ?_, fun f hf g hg => ?_⟩
    · split
      · exact pairwise_singleton _ _
      · exact List.Pairwise.nil
    · split at hg
      · rename_i hdelay
        rw [mem_singleton.mp hg]
        exact hguard f (hdelay ▸ hf)
      · exact absurd hg not_mem_nil
  done := fun {delay f} hvisited hline hbefore hdue => by
    rcases mem_line_pushed_iff.mp hline with hline | ⟨-, rfl⟩
    · exact horder.done hvisited hline hbefore hdue
    · exact absurd hmem (h.arrived f (h.before_subset hbefore))

theorem inOrder_step (h : s.Inv) (horder : s.InOrder) {a : Step} (hguard : s.PushesInOrder a)
    (hstep : s.step a = some s') : s'.InOrder := by
  cases a with
  | tick clock =>
    simp only [step] at hstep
    split at hstep
    · cases hstep
      exact ⟨horder.sorted, horder.done⟩
    · cases hstep
  | schedule delay =>
    cases hstep
    exact ⟨horder.sorted, horder.done⟩
  | push future =>
    by_cases hmem : future ∈ s.scheduling
    · simp only [step, if_pos hmem, Option.some.injEq] at hstep
      subst hstep
      exact inOrder_pushed h horder hmem hguard
    · simp only [step, if_neg hmem, reduceCtorEq] at hstep
  | cancel future =>
    have hmono : ∀ f, s.canceled f = true → update s.canceled future true f = true :=
      fun f hf => by
      by_cases hne : f = future
      · rw [hne, update_self]
      · rw [update_of_ne hne, hf]
    simp only [step] at hstep
    split at hstep
    · cases hstep
      exact ⟨fun delay => (horder.sorted delay).imp fun hle => hle.imp_left (hmono _),
        fun hvisited hline hbefore hdue => hmono _ (horder.done hvisited hline hbefore hdue)⟩
    · cases hstep
  | run =>
    cases hstep
    exact inOrder_next h horder

end Pass

/-! ## No future is lost -/

section Lost

variable {s s' : Service} {future : ScheduledFuture}

/-- Only a cancelled future is given up. -/
theorem seen_next (hmem : future ∈ s.next.seen) : future ∈ s.seen ∨ s.canceled future = true := by
  have hlast {first : ScheduledFuture} (hcanceled : s.canceled first = true)
      (hmem : future ∈ s.seen ++ [first]) : future ∈ s.seen ∨ s.canceled future = true := by
    refine (mem_append.mp hmem).imp_right fun hlast => ?_
    rw [mem_singleton.mp hlast, hcanceled]
  unfold next at hmem
  cases hpc : s.pc with
  | sleep | ended =>
    rw [hpc] at hmem
    exact .inl hmem
  | visit _ | pop _ =>
    simp only [hpc] at hmem
    split at hmem
    · exact .inl hmem
    · exact .inl hmem
  | fire delay =>
    simp only [hpc] at hmem
    split at hmem
    · exact .inl hmem
    · split at hmem
      · rename_i hcanceled
        exact hlast hcanceled hmem
      · split at hmem
        · exact .inl hmem
        · exact .inl hmem
  | popped delay first =>
    simp only [hpc] at hmem
    split at hmem
    · rename_i hcanceled
      exact hlast hcanceled hmem
    · split at hmem
      · exact .inl hmem
      · exact .inl hmem

/-- No future is lost: one that has been pushed is somewhere, and given up only if it was
cancelled. -/
structure NoneLost (s : Service) : Prop where
  placed : ∀ future ∈ s.scheduled, s.places future = 1
  seen : ∀ future ∈ s.seen, s.canceled future = true

theorem noneLost_next (h : s.Inv) (hlost : s.NoneLost) : s.next.NoneLost := by
  have hcanceled := canceled_next h
  have hkept : s.next.scheduled = s.scheduled ∧ ∀ f, s.next.places f = s.places f := by
    rcases next_cases h.cleared with hkeeps | ⟨delay, future, htakes⟩
    · exact ⟨hkeeps.scheduled, hkeeps.places⟩
    · exact ⟨htakes.scheduled, htakes.places (h.own (htakes.head ▸ mem_cons_self))⟩
  refine ⟨fun f hf => ?_, fun f hf => ?_⟩
  · rw [hkept.2]
    exact hlost.placed f (hkept.1 ▸ hf)
  · rw [hcanceled]
    exact (seen_next hf).elim (hlost.seen f) id

theorem noneLost_step (h : s.Inv) (hlost : s.NoneLost) {a : Step} (hstep : s.step a = some s') :
    s'.NoneLost := by
  cases a with
  | tick clock =>
    simp only [step] at hstep
    split at hstep
    · cases hstep
      exact ⟨hlost.placed, hlost.seen⟩
    · cases hstep
  | schedule delay =>
    cases hstep
    refine ⟨fun f hf => ?_, hlost.seen⟩
    have hne : (⟨s.created, delay, (s.clock + delay) % 2 ^ 64⟩ : ScheduledFuture) ≠ f := by
      rintro rfl
      exact (h.fresh _ (Nat.le_refl _)).2 hf
    have hplaced := hlost.placed f hf
    unfold places at hplaced ⊢
    rw [count_cons_of_ne hne]
    exact hplaced
  | push future =>
    by_cases hmem : future ∈ s.scheduling
    · simp only [step, if_pos hmem, Option.some.injEq] at hstep
      subst hstep
      refine ⟨fun f hf => ?_, hlost.seen⟩
      rw [places_pushed hmem]
      rcases mem_cons.mp hf with rfl | hf
      · -- it was in the call that pushed it, and nowhere else
        have hplaced := h.placed f
        have hpos : 0 < s.scheduling.count f := count_pos_iff.mpr hmem
        unfold places at hplaced ⊢
        omega
      · exact hlost.placed f hf
    · simp only [step, if_neg hmem, reduceCtorEq] at hstep
  | cancel future =>
    simp only [step] at hstep
    split at hstep
    · cases hstep
      refine ⟨hlost.placed, fun f hf => ?_⟩
      by_cases hne : f = future
      · exact hne ▸ update_self ..
      · exact (update_of_ne hne _ _).trans (hlost.seen f hf)
    · cases hstep
  | run =>
    cases hstep
    exact noneLost_next h hlost

end Lost

/-! ## Runs -/

variable {s : Service} {clock : ℕ}

theorem inv_of_reaches {guard : Service → Step → Prop}
    (h : Common.Reaches step guard { clock := clock } s) :
    s.Inv :=
  h.invariant (inv_init clock) fun _ _ _ hinv _ hstep => inv_step hinv hstep

/-- In every run whose futures are pushed in the order of their times, every message is relayed once
and on time. -/
theorem onTime_of_pushesInOrder (h : Common.Reaches step PushesInOrder { clock := clock } s) :
    s.OnTime := by
  have hinv := inv_of_reaches h
  have horder : s.InOrder :=
    (h.invariant (P := fun s => s.Inv ∧ s.InOrder)
      ⟨inv_init clock, fun _ => List.Pairwise.nil, fun _ hline => absurd hline List.not_mem_nil⟩
      fun _ _ _ hboth hguard hstep =>
        ⟨inv_step hboth.1 hstep, inOrder_step hboth.1 hboth.2 hguard hstep⟩).2
  refine ⟨hinv.once, hinv.times, fun future hseen => hinv.notCanceled hseen, ?_⟩
  intro hended future hbefore hdue hcanceled delay hline
  have hvisited : s.visited delay := by
    rw [visited, hended]
    trivial
  rw [horder.done hvisited hline hbefore hdue] at hcanceled
  cases hcanceled

/-- Two calls in turn; the pass relays the first message and puts the second future back. -/
def inTurn : List Step :=
  [.schedule 10, .push ⟨0, 10, 10⟩, .tick 5, .schedule 10, .push ⟨1, 10, 15⟩, .tick 12,
    .run, .run, .run, .run, .run, .run, .run, .run]

theorem onTime_of_pushesInOrder_inTurn :
    ∃ s : Service, Common.Reaches step PushesInOrder { clock := 0 } s ∧
    s.pc = .ended ∧ s.messages = [⟨0, 10, 10⟩] ∧ s.OnTime := by
  have hend : ((Common.replay step PushesInOrder { clock := 0 } inTurn).any fun s =>
      decide (s.pc = .ended ∧ s.messages = [⟨0, 10, 10⟩])) = true := by
    decide +kernel
  obtain ⟨s, hs, hgood⟩ := (Option.any_eq_true _ _).mp hend
  obtain ⟨hended, hmessages⟩ := of_decide_eq_true hgood
  exact ⟨s, Common.reaches_of_replay hs, hended, hmessages,
    onTime_of_pushesInOrder (Common.reaches_of_replay hs)⟩

/-- Two calls read the clock one after the other and push in the opposite order; the pass puts the
later future back. -/
def overtaking : List Step :=
  [.schedule 10, .tick 5, .schedule 10, .push ⟨1, 10, 15⟩, .push ⟨0, 10, 10⟩, .tick 12,
    .run, .run, .run, .run, .run, .run]

/-- At its end, the earlier future is pending although it is due. -/
theorem not_onTime_overtaking :
    ¬ ∀ s : Service, Common.Reaches step Common.anyStep { clock := 0 } s → s.OnTime := by
  intro hall
  have hend : ((Common.replay step Common.anyStep { clock := 0 } overtaking).any fun s =>
      decide (s.pc = .ended ∧ ⟨0, 10, 10⟩ ∈ s.before ∧ 10 ≤ s.now ∧ s.canceled ⟨0, 10, 10⟩ = false ∧
        ⟨0, 10, 10⟩ ∈ s.line 10)) = true := by
    decide +kernel
  obtain ⟨s, hs, hbad⟩ := (Option.any_eq_true _ _).mp hend
  obtain ⟨hended, hbefore, hdue, hcanceled, hline⟩ := of_decide_eq_true hbad
  exact (hall s (Common.reaches_of_replay hs)).noneLeft hended _ hbefore hdue hcanceled 10 hline

/-- In every run, a future that has been pushed and is not cancelled is either pending, under its
own delay only, or its message has been relayed once, when it was due. -/
theorem pending_or_relayed (h : Common.Reaches step Common.anyStep { clock := clock } s)
    {future : ScheduledFuture} (hscheduled : future ∈ s.scheduled)
    (hcanceled : s.canceled future = false) :
    ((s.line future.delay).count future = 1 ∧
        (∀ delay, future ∈ s.line delay → delay = future.delay) ∧ future ∉ s.messages) ∨
      ((∀ delay, future ∉ s.line delay) ∧ s.messages.count future = 1 ∧
        ∃ now ≤ s.clock, future.timeToDispatch ≤ now ∧ (future, now) ∈ s.relayed) := by
  obtain ⟨hinv, hlost⟩ : s.Inv ∧ s.NoneLost :=
    h.invariant (P := fun s => s.Inv ∧ s.NoneLost)
      ⟨inv_init clock, fun _ hf => absurd hf not_mem_nil, fun _ hf => absurd hf not_mem_nil⟩
      fun _ _ _ hboth _ hstep => ⟨inv_step hboth.1 hstep, noneLost_step hboth.1 hboth.2 hstep⟩
  have hplaced := hlost.placed future hscheduled
  have hcall : s.scheduling.count future = 0 := count_eq_zero.mpr (hinv.arrived future hscheduled)
  have hseen : s.seen.count future = 0 := count_eq_zero.mpr fun hmem => by
    rw [hlost.seen future hmem] at hcanceled
    cases hcanceled
  unfold places at hplaced
  by_cases hmem : future ∈ s.messages
  · have hpos : 0 < s.messages.count future := count_pos_iff.mpr hmem
    obtain ⟨⟨_, now⟩, hrelayed, rfl⟩ := mem_map.mp hmem
    refine .inr ⟨fun delay hline => ?_, by omega, now, (hinv.times _ hrelayed).2,
      (hinv.times _ hrelayed).1, hrelayed⟩
    have hline' := count_pos_iff.mpr (hinv.own hline ▸ hline)
    omega
  · have hzero : s.messages.count future = 0 := count_eq_zero.mpr hmem
    exact .inl ⟨by omega, fun delay hline => (hinv.own hline).symm, hmem⟩

/-- The future that was overtaken stays pending. -/
theorem pending_or_relayed_overtaking :
    ∃ s : Service, Common.Reaches step Common.anyStep { clock := 0 } s ∧
      s.pc = .ended ∧ (s.line 10).count ⟨0, 10, 10⟩ = 1 := by
  have hend : ((Common.replay step Common.anyStep { clock := 0 } overtaking).any fun s =>
      decide (s.pc = .ended ∧ ⟨0, 10, 10⟩ ∈ s.scheduled ∧ s.canceled ⟨0, 10, 10⟩ = false ∧
        s.messages = [])) = true := by
    decide +kernel
  obtain ⟨s, hs, hgood⟩ := (Option.any_eq_true _ _).mp hend
  obtain ⟨hended, hscheduled, hcanceled, hnone⟩ := of_decide_eq_true hgood
  refine ⟨s, Common.reaches_of_replay hs, hended, ?_⟩
  rcases pending_or_relayed (Common.reaches_of_replay hs) hscheduled hcanceled with
    ⟨hpending, -⟩ | ⟨-, hrelayed, -⟩
  · exact hpending
  · rw [hnone] at hrelayed
    cases hrelayed

end Service

end Idgs.Actor.Scheduler
