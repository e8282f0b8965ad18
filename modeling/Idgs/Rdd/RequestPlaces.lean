import Idgs.Rdd.BaseRddActor

/-!
# Where the requests are

What a response owes to its request, and the places in which a request can be on its way to it: in a
message to the actor, in the queue, with the partitions, or answered. Each thing that happens to the
actions moves requests from one place to the next.
-/

namespace Idgs.Rdd.BaseRddActor

open Function List

variable {ω ρ : Type*}

namespace RddActor

variable (cfg : RddConfig ω ρ)

/-! ## The property -/

/-- The action has succeeded: all partitions and the aggregation of their results. -/
def Succeeded (results : ℕ → ℕ → Option (RddResultCode × List String)) (r : ActionRequest ω)
    (result : Option ρ) :
    Prop :=
  ∃ values : ℕ → List String,
    (∀ p < cfg.partitionSize, results r.no p = some (.success, values p)) ∧
    cfg.aggregate r.action ((List.range cfg.partitionSize).map values) = (.success, result)

/-- A response is that of a request: with its id, from what its partitions have answered, and with
success if and only if all of it has succeeded. -/
structure OwnOutcome (results : ℕ → ℕ → Option (RddResultCode × List String)) (r : ActionRequest ω)
    (response : ActionResponse ρ) : Prop where
  action_id : response.action_id = some r.action_id
  success_iff : response.result_code = .success ↔ ∃ result, Succeeded cfg results r result
  result : ∀ result, Succeeded cfg results r result → response.actionResult = result
  code : response.result_code = .success ∨ response.result_code = .rddError ∨
    response.result_code = .rddStateProcessing ∨
    ∃ p < cfg.partitionSize, ∃ values, results r.no p = some (response.result_code, values)

/-- No message is in flight, and none comes any more. -/
def Quiescent (s : RddActor ω ρ) : Prop := s.inFlight = [] ∧ s.underway = false

/-- Nothing is undefined, and at the end every request has exactly one response, with its own
outcome. -/
def Answered (s : RddActor ω ρ) : Prop :=
  s.undefinedBehavior = false ∧ (s.Quiescent → ∀ r ∈ s.requests, ∃ response,
    s.responses.filter (fun x => x.request = r.no) = [response] ∧
    OwnOutcome cfg s.results r response)

/-! ## What the actions see -/

/-- A message on the way of an action. -/
def Msg.isAction : Msg ω → Bool
  | .rddActionRequest _ | .partitionActionRequest .. | .rddActionResponse .. => true
  | _ => false

/-- The part of the state that the actions are in. -/
structure ActionView (ω ρ : Type*) where
  requests : List (ActionRequest ω)
  queue : List (ActionRequest ω)
  rddActions : String → Option (ActionRequest ω)
  actions : ℕ → RddAction
  msgs : List (Msg ω)
  responses : List (ActionResponse ρ)
  results : ℕ → ℕ → Option (RddResultCode × List String)

/-- The view of a state. -/
def view (s : RddActor ω ρ) : ActionView ω ρ :=
  ⟨s.requests, s.actionQueue, s.rddActions, s.actions, s.inFlight.filter Msg.isAction, s.responses,
    s.results⟩

@[simp] theorem view_send {m : Msg ω} (hm : Msg.isAction m = false) (s : RddActor ω ρ) :
    (s.send m).view = s.view := by
  simp only [view, send, filter_append, filter_cons, hm, filter_nil,
    Bool.false_eq_true, if_false, append_nil]

@[simp] theorem view_setRddState (s : RddActor ω ρ) (state : RddState) :
    (s.setRddState state).view = s.view :=
  view_send rfl _

/-! ## Where the requests are -/

/-- A request on its way to the actor. -/
def Msg.request? : Msg ω → Option (ActionRequest ω)
  | .rddActionRequest r => some r
  | _ => none

/-- A partition that a request is still waiting for. -/
def Msg.task? : Msg ω → Option (ActionRequest ω × ℕ)
  | .partitionActionRequest r p | .rddActionResponse r p _ _ => some (r, p)
  | _ => none

/-- The messages for a partition of a request. -/
def Msg.isTask (no p : ℕ) (m : Msg ω) : Bool := (Msg.task? m).any fun t => t.1.no = no && t.2 = p

theorem Msg.isTask_iff {no p : ℕ} {m : Msg ω} :
    Msg.isTask no p m = true ↔ ∃ r, Msg.task? m = some (r, p) ∧ r.no = no := by
  unfold Msg.isTask
  cases Msg.task? m with
  | none => simp
  | some t =>
    obtain ⟨r, q⟩ := t
    simp only [Option.any_some, Bool.and_eq_true, decide_eq_true_eq, Option.some.injEq,
      Prod.mk.injEq]
    constructor
    · rintro ⟨hno, rfl⟩
      exact ⟨r, ⟨rfl, rfl⟩, hno⟩
    · rintro ⟨_, ⟨rfl, rfl⟩, hno⟩
      exact ⟨hno, rfl⟩

/-- What an action has received is what partitions have answered. -/
structure Received (results : ℕ → Option (RddResultCode × List String)) (a : RddAction) : Prop where
  answered : ∀ p < cfg.partitionSize, a.partitionState p = .ready →
    ∃ code, results p = some (code, a.actionResult p)
  empty : ∀ p, a.partitionState p ≠ .ready → a.actionResult p = []
  success_iff : a.code = .success ↔
    ∀ p < cfg.partitionSize, a.partitionState p = .ready →
    ∃ values, results p = some (.success, values)
  code : a.code = .success ∨ ∃ p < cfg.partitionSize, a.partitionState p = .ready ∧
    ∃ values, results p = some (a.code, values)

/-- The requests are on their way to the actor, in its queue, with the partitions or answered. -/
structure Placed (v : ActionView ω ρ) (working answered : List (ActionRequest ω)) : Prop where
  numbered : v.requests.map ActionRequest.no = List.range v.requests.length
  placed : (v.msgs.filterMap Msg.request? ++ (v.queue ++ (working ++ answered))).Perm v.requests
  untouched : ∀ no, (∀ r ∈ working ++ answered, r.no ≠ no) → ∀ p, v.results no p = none
  pending : ∀ r ∈ v.queue ++ working, v.rddActions r.action_id = some r
  fresh : ∀ r ∈ v.queue, v.actions r.no = .new
  task_mem : ∀ m ∈ v.msgs, ∀ t, Msg.task? m = some t → t.1 ∈ working
  tasks : ∀ r ∈ working, ∀ p, v.msgs.countP (Msg.isTask r.no p) =
    if p < cfg.partitionSize ∧ (v.actions r.no).partitionState p ≠ .ready then 1 else 0
  unfinished : ∀ r ∈ working, (v.actions r.no).state ≠ .ready ∧
    ∃ p < cfg.partitionSize, (v.actions r.no).partitionState p ≠ .ready
  received : ∀ r ∈ working, Received cfg (v.results r.no) (v.actions r.no)
  answers : ∀ r p code values, .rddActionResponse r p code values ∈ v.msgs →
    v.results r.no p = some (code, values)
  outcomes : List.Forall₂ (fun r response =>
    response.request = r.no ∧ OwnOutcome cfg v.results r response)
    answered v.responses

/-- Without an answer of a partition an error is the outcome. -/
theorem ownOutcome_of_untouched {cfg : RddConfig ω ρ}
    {results : ℕ → ℕ → Option (RddResultCode × List String)}
    {r : ActionRequest ω} (h : ∀ p, results r.no p = none) {code : RddResultCode}
    (hcode : code = .rddError ∨ code = .rddStateProcessing) :
    OwnOutcome cfg results r (⟨r.no, some r.action_id, code, none⟩ : ActionResponse ρ) := by
  have hnot : ∀ result, ¬ Succeeded cfg results r result := by
    rintro result ⟨values, hvalues, -⟩
    have hfirst := hvalues 0 cfg.partition_pos
    rw [h] at hfirst
    cases hfirst
  refine ⟨rfl, ⟨fun hsuccess => ?_, fun hsuccess => ?_⟩, fun result hresult =>
    absurd hresult (hnot result), .inr ?_⟩
  · rcases hcode with rfl | rfl <;> cases hsuccess
  · exact absurd hsuccess.choose_spec (hnot _)
  · rcases hcode with rfl | rfl
    · exact .inl rfl
    · exact .inr (.inl rfl)

/-- Answers to other requests do not matter. -/
theorem OwnOutcome.congr {cfg : RddConfig ω ρ}
    {results results' : ℕ → ℕ → Option (RddResultCode × List String)}
    {r : ActionRequest ω} {response : ActionResponse ρ} (h : OwnOutcome cfg results r response)
    (heq : ∀ p, results' r.no p = results r.no p) : OwnOutcome cfg results' r response := by
  have hsucceeded : ∀ result, Succeeded cfg results' r result ↔ Succeeded cfg results r result := by
    intro result
    unfold Succeeded
    simp only [heq]
  refine ⟨h.action_id, h.success_iff.trans (exists_congr fun result => (hsucceeded result).symm),
    fun result hresult => h.result result ((hsucceeded result).mp hresult), ?_⟩
  simp only [heq]
  exact h.code

namespace Placed

variable {cfg} {v : ActionView ω ρ} {working answered : List (ActionRequest ω)}

section

variable (h : Placed cfg v working answered)

include h

theorem no_inj {r r' : ActionRequest ω} (hr : r ∈ v.requests)
    (hr' : r' ∈ v.requests) (hno : r.no = r'.no) : r = r' := by
  have hnodup : (v.requests.map ActionRequest.no).Nodup := h.numbered ▸ nodup_range
  exact inj_on_of_nodup_map hnodup hr hr' hno

theorem nodup_no :
    ((v.msgs.filterMap Msg.request? ++ (v.queue ++ (working ++ answered))).map
      ActionRequest.no).Nodup :=
  (h.placed.map _).nodup_iff.mpr (h.numbered ▸ nodup_range)

theorem nodup :
    (v.msgs.filterMap Msg.request? ++ (v.queue ++ (working ++ answered))).Nodup :=
  List.Nodup.of_map _ h.nodup_no

theorem mem_of_waiting {r : ActionRequest ω} (hr : .rddActionRequest r ∈ v.msgs) : r ∈ v.requests :=
  h.placed.mem_iff.mp (mem_append_left _ (mem_filterMap.mpr ⟨_, hr, rfl⟩))

theorem mem_of_placed {r : ActionRequest ω}
    (hr : r ∈ v.queue ++ (working ++ answered)) : r ∈ v.requests :=
  h.placed.mem_iff.mp (mem_append_right _ hr)

/-- The order of the messages does not matter. -/
theorem perm {msgs : List (Msg ω)} (hperm : v.msgs.Perm msgs) :
    Placed cfg { v with msgs := msgs } working answered where
  __ := h
  placed := ((hperm.symm.filterMap _).append_right _).trans h.placed
  task_mem m hm := h.task_mem m (hperm.mem_iff.mpr hm)
  tasks r hr p := (hperm.countP_eq _).symm.trans (h.tasks r hr p)
  answers r p code values hm := h.answers r p code values (hperm.mem_iff.mpr hm)

/-- A client sends a request. -/
theorem request {r : ActionRequest ω} (hno : r.no = v.requests.length) :
    Placed cfg
      { v with
        requests := v.requests ++ [r]
        msgs := v.msgs ++ [.rddActionRequest r] } working answered where
  __ := h
  numbered := by
    rw [map_append, h.numbered, length_append, length_singleton, range_succ, ← hno]
    rfl
  placed := by
    rw [filterMap_append]
    refine List.Perm.trans ?_ (h.placed.append_right [r])
    rw [append_assoc, append_assoc]
    exact perm_append_comm.append_left _
  task_mem := by
    intro m hm t ht
    rcases mem_append.mp hm with hm | hm
    · exact h.task_mem m hm t ht
    · rw [mem_singleton.mp hm] at ht
      cases ht
  tasks r' hr' p := by
    rw [countP_append, h.tasks r' hr' p]
    rfl
  answers := by
    intro r' p code values hm
    rcases mem_append.mp hm with hm | hm
    · exact h.answers r' p code values hm
    · cases mem_singleton.mp hm

theorem results_eq_none {r : ActionRequest ω} (hr : r ∈ v.requests)
    (hnot : r ∉ working ++ answered) (p : ℕ) : v.results r.no p = none :=
  h.untouched r.no (fun r' hr' hno =>
    hnot (h.no_inj (h.mem_of_placed (mem_append_right _ hr')) hr hno ▸ hr')) p

theorem not_mem_of_waiting {r : ActionRequest ω}
    (hr : .rddActionRequest r ∈ v.msgs) : r ∉ v.queue ++ (working ++ answered) :=
  (nodup_append'.mp h.nodup).2.2 (mem_filterMap.mpr ⟨_, hr, rfl⟩)

theorem not_mem_of_queued {r : ActionRequest ω} (hr : r ∈ v.queue) :
    r ∉ working ++ answered :=
  (nodup_append'.mp (nodup_append'.mp h.nodup).2.1).2.2 hr

theorem not_mem_of_working {r : ActionRequest ω} (hr : r ∈ working) :
    r ∉ answered :=
  (nodup_append'.mp (nodup_append'.mp (nodup_append'.mp h.nodup).2.1).2.1).2.2 hr

theorem no_ne_of_queued {r r' : ActionRequest ω} (hr : r ∈ v.queue)
    (hr' : r' ∈ working) : r'.no ≠ r.no := fun heq =>
  h.not_mem_of_queued hr (mem_append_left _ (h.no_inj (h.mem_of_placed
    (mem_append_right _ (mem_append_left _ hr')))
      (h.mem_of_placed (mem_append_left _ hr)) heq ▸ hr'))

theorem no_ne_of_working {r r' : ActionRequest ω} (hr : r ∈ working)
    (hr' : r' ∈ answered) : r'.no ≠ r.no := fun heq =>
  h.not_mem_of_working hr
    (h.no_inj (h.mem_of_placed (mem_append_right _ (mem_append_right _ hr')))
    (h.mem_of_placed (mem_append_right _ (mem_append_left _ hr))) heq ▸ hr')

/-- A request that is refused. -/
theorem refuse {r : ActionRequest ω} {msgs : List (Msg ω)}
    (hmsgs : v.msgs = .rddActionRequest r :: msgs) {code : RddResultCode}
    (hcode : code = .rddError ∨ code = .rddStateProcessing) :
    Placed cfg
      { v with msgs := msgs, responses := v.responses ++ [⟨r.no, some r.action_id, code, none⟩] }
      working (answered ++ [r]) := by
  have hwaiting : Msg.rddActionRequest r ∈ v.msgs := hmsgs ▸ mem_cons_self
  have hnone := h.results_eq_none (h.mem_of_waiting hwaiting)
    fun hr => h.not_mem_of_waiting hwaiting (mem_append_right _ hr)
  have hsub : ∀ m ∈ msgs, m ∈ v.msgs := fun m hm => hmsgs ▸ mem_cons_of_mem _ hm
  refine ⟨h.numbered, ?_, ?_, h.pending, h.fresh, fun m hm => h.task_mem m (hsub m hm), ?_,
    h.unfinished, h.received,
    fun r' p c values hm => h.answers r' p c values (hsub _ hm), ?_⟩
  · refine List.Perm.trans ?_ h.placed
    rw [hmsgs]
    simp only [filterMap_cons, Msg.request?]
    rw [← append_assoc working, ← append_assoc v.queue, ← append_assoc (msgs.filterMap _)]
    exact perm_append_singleton _ _
  · intro no hno p
    exact h.untouched no (fun r' hr' =>
      hno r' (by rw [← append_assoc]; exact mem_append_left _ hr')) p
  · intro r' hr' p
    have htasks := h.tasks r' hr' p
    rw [hmsgs, countP_cons] at htasks
    exact htasks
  · exact rel_append h.outcomes (.cons ⟨rfl, ownOutcome_of_untouched hnone hcode⟩ .nil)

/-- A request that is queued. -/
theorem enqueue {r : ActionRequest ω} {msgs : List (Msg ω)}
    (hmsgs : v.msgs = .rddActionRequest r :: msgs) (hid : v.rddActions r.action_id = none) :
    Placed cfg
      { v with
        msgs := msgs, queue := v.queue ++ [r]
        rddActions :=
          update v.rddActions r.action_id (some ((v.rddActions r.action_id).getD r))
        actions := update v.actions r.no .new }
      working answered := by
  have hwaiting : Msg.rddActionRequest r ∈ v.msgs := hmsgs ▸ mem_cons_self
  have hsub : ∀ m ∈ msgs, m ∈ v.msgs := fun m hm => hmsgs ▸ mem_cons_of_mem _ hm
  have hno : ∀ r' ∈ v.queue ++ (working ++ answered), r'.no ≠ r.no := fun r' hr' heq =>
    h.not_mem_of_waiting hwaiting
      (h.no_inj (h.mem_of_placed hr') (h.mem_of_waiting hwaiting) heq ▸ hr')
  have hworking : ∀ r' ∈ working, update v.actions r.no .new r'.no = v.actions r'.no :=
    fun r' hr' =>
    update_of_ne (hno r' (mem_append_right _ (mem_append_left _ hr'))) _ _
  refine ⟨h.numbered, ?_, h.untouched, ?_, ?_, fun m hm => h.task_mem m (hsub m hm), ?_, ?_, ?_,
    fun r' p c values hm => h.answers r' p c values (hsub _ hm), h.outcomes⟩
  · refine List.Perm.trans ?_ h.placed
    rw [hmsgs]
    simp only [filterMap_cons, Msg.request?, append_assoc, cons_append, nil_append]
    rw [← append_assoc]
    exact perm_middle.trans (by rw [append_assoc])
  · intro r' hr'
    have hkept : v.rddActions r'.action_id = some r' →
        update v.rddActions r.action_id
        (some ((v.rddActions r.action_id).getD r)) r'.action_id = some r' :=
      fun hpending =>
        (update_of_ne (fun heq => by rw [heq, hid] at hpending; cases hpending) _ _).trans
        hpending
    rcases mem_append.mp hr' with hr' | hr'
    · rcases mem_append.mp hr' with hr' | hr'
      · exact hkept (h.pending r' (mem_append_left _ hr'))
      · rw [mem_singleton.mp hr', hid]
        exact update_self _ _ _
    · exact hkept (h.pending r' (mem_append_right _ hr'))
  · intro r' hr'
    rcases mem_append.mp hr' with hr' | hr'
    · exact (update_of_ne (hno r' (mem_append_left _ hr')) _ _).trans (h.fresh r' hr')
    · rw [mem_singleton.mp hr']
      exact update_self _ _ _
  · intro r' hr' p
    have htasks := h.tasks r' hr' p
    rw [hmsgs, countP_cons] at htasks
    simp only [hworking r' hr']
    exact htasks
  · intro r' hr'
    dsimp only
    rw [hworking r' hr']
    exact h.unfinished r' hr'
  · intro r' hr'
    dsimp only
    rw [hworking r' hr']
    exact h.received r' hr'

/-- The queued requests are answered with the error of the RDD. -/
theorem fail :
    Placed cfg
      { v with
        queue := []
        responses := v.responses ++ v.queue.map fun r => ⟨r.no, some r.action_id, .rddError, none⟩ }
      working (answered ++ v.queue) := by
  refine ⟨h.numbered, ?_, ?_, fun r hr => h.pending r (mem_append_right _ hr), fun r hr =>
    (by cases hr),
    h.task_mem, h.tasks, h.unfinished, h.received, h.answers, ?_⟩
  · refine List.Perm.trans ?_ h.placed
    rw [nil_append, ← append_assoc working]
    exact perm_append_comm.append_left _
  · intro no hno p
    exact h.untouched no (fun r' hr' =>
      hno r' (by rw [← append_assoc]; exact mem_append_left _ hr')) p
  · refine rel_append h.outcomes
      (forall₂_map_right_iff.mpr (forall₂_same.mpr fun r hr => ⟨rfl, ?_⟩))
    exact ownOutcome_of_untouched
      (h.results_eq_none (h.mem_of_placed (mem_append_left _ hr)) (h.not_mem_of_queued hr))
      (.inl rfl)

end

end Placed

/-- The requests to the partitions for one action. -/
def partitionRequests (r : ActionRequest ω) : List (Msg ω) :=
  (List.range cfg.partitionSize).map (Msg.partitionActionRequest r)

theorem countP_partitionRequests (r : ActionRequest ω) (no p : ℕ) :
    (partitionRequests cfg r).countP (Msg.isTask no p) = if r.no = no ∧ p < cfg.partitionSize then 1
    else 0 := by
  have hcount : ∀ n, ((List.range n).map (Msg.partitionActionRequest r)).countP (Msg.isTask no p) =
      if r.no = no ∧ p < n then 1 else 0 := by
    intro n
    induction n with
    | zero => exact (if_neg fun h => Nat.not_lt_zero p h.2).symm
    | succ n ih =>
      rw [range_succ, map_append, countP_append, ih, map_singleton, countP_singleton]
      simp only [Msg.isTask, Msg.task?, Option.any_some, Bool.and_eq_true, decide_eq_true_eq]
      by_cases hno : r.no = no
      · simp only [hno, true_and]
        split_ifs <;> omega
      · simp only [hno, false_and, if_false, Nat.add_zero]
  exact hcount cfg.partitionSize

theorem countP_flatMap_partitionRequests (queue : List (ActionRequest ω)) (no p : ℕ) :
    (queue.flatMap (partitionRequests cfg)).countP (Msg.isTask no p) =
      if p < cfg.partitionSize then (queue.map ActionRequest.no).count no else 0 := by
  induction queue with
  | nil => exact (ite_self 0).symm
  | cons r queue ih =>
    rw [flatMap_cons, countP_append, ih, countP_partitionRequests, map_cons, count_cons]
    by_cases hp : p < cfg.partitionSize
    · simp only [hp, and_true, if_true, beq_iff_eq]
      exact Nat.add_comm _ _
    · simp only [hp, and_false, if_false]

theorem mem_partitionRequests {queue : List (ActionRequest ω)} {m : Msg ω}
    (h : m ∈ queue.flatMap (partitionRequests cfg)) :
    ∃ r ∈ queue, ∃ p, m = .partitionActionRequest r p := by
  obtain ⟨r, hr, hm⟩ := mem_flatMap.mp h
  obtain ⟨p, -, rfl⟩ := mem_map.mp hm
  exact ⟨r, hr, p, rfl⟩

namespace Placed

variable {cfg} {v : ActionView ω ρ} {working answered : List (ActionRequest ω)}

section

variable (h : Placed cfg v working answered)

include h

/-- The queued requests are sent to the partitions. -/
theorem process :
    Placed cfg { v with queue := [], msgs := v.msgs ++ v.queue.flatMap (partitionRequests cfg) }
      (working ++ v.queue) answered := by
  have hnew : ∀ {m : Msg ω}, m ∈ v.queue.flatMap (partitionRequests cfg) → ∃ r ∈ v.queue, ∃ p,
      m = .partitionActionRequest r p := mem_partitionRequests cfg
  have hqueue : (v.queue.map ActionRequest.no).Nodup := by
    have hnodup := h.nodup_no
    rw [map_append, map_append] at hnodup
    exact (nodup_append'.mp (nodup_append'.mp hnodup).2.1).1
  have hnone : (v.queue.flatMap (partitionRequests cfg)).filterMap Msg.request? = [] := by
    refine filterMap_eq_nil_iff.mpr fun m hm => ?_
    obtain ⟨r, -, p, rfl⟩ := hnew hm
    rfl
  refine ⟨h.numbered, ?_, ?_, ?_, fun r hr => (by cases hr), ?_, ?_, ?_, ?_, ?_, h.outcomes⟩
  · rw [filterMap_append, hnone, append_nil, nil_append]
    refine List.Perm.trans ?_ h.placed
    rw [← append_assoc v.queue]
    exact (perm_append_comm.append_right _).append_left _
  · intro no hno p
    refine h.untouched no (fun r hr => hno r ?_) p
    rw [append_assoc]
    rcases mem_append.mp hr with hr | hr
    · exact mem_append_left _ hr
    · exact mem_append_right _ (mem_append_right _ hr)
  · intro r hr
    rw [nil_append] at hr
    exact h.pending r ((perm_append_comm.mem_iff).mp hr)
  · intro m hm t ht
    rcases mem_append.mp hm with hm | hm
    · exact mem_append_left _ (h.task_mem m hm t ht)
    · obtain ⟨r, hr, p, rfl⟩ := hnew hm
      cases ht
      exact mem_append_right _ hr
  · intro r hr p
    rw [countP_append, countP_flatMap_partitionRequests]
    rcases mem_append.mp hr with hr | hr
    · have hzero : (v.queue.map ActionRequest.no).count r.no = 0 := by
        refine count_eq_zero_of_not_mem fun hmem => ?_
        obtain ⟨r', hr', heq⟩ := mem_map.mp hmem
        exact h.no_ne_of_queued hr' hr heq.symm
      rw [hzero, ite_self, Nat.add_zero]
      exact h.tasks r hr p
    · have hone : (v.queue.map ActionRequest.no).count r.no = 1 :=
        count_eq_one_of_mem hqueue (mem_map_of_mem hr)
      have hold : v.msgs.countP (Msg.isTask r.no p) = 0 := by
        refine countP_eq_zero.mpr fun m hm htask => ?_
        obtain ⟨r', htask, hno⟩ := Msg.isTask_iff.mp htask
        exact h.no_ne_of_queued hr (h.task_mem m hm _ htask) hno
      rw [hone, hold, Nat.zero_add]
      dsimp only
      rw [h.fresh r hr]
      simp only [RddAction.new, ne_eq, reduceCtorEq, not_false_eq_true, and_true]
  · intro r hr
    rcases mem_append.mp hr with hr | hr
    · exact h.unfinished r hr
    · dsimp only
      rw [h.fresh r hr]
      exact ⟨fun hready => (by cases hready), 0, cfg.partition_pos, fun hready => (by cases hready)⟩
  · intro r hr
    rcases mem_append.mp hr with hr | hr
    · exact h.received r hr
    · dsimp only
      rw [h.fresh r hr]
      exact ⟨fun p _ hready => (by cases hready), fun p _ => rfl,
        ⟨fun _ p _ hready => (by cases hready), fun _ => rfl⟩, .inl rfl⟩
  · intro r p code values hm
    rcases mem_append.mp hm with hm | hm
    · exact h.answers r p code values hm
    · obtain ⟨r, -, p, hm⟩ := hnew hm
      cases hm

/-- A message for a partition is the only one. -/
theorem task_unique {m : Msg ω} {msgs : List (Msg ω)}
    (hmsgs : v.msgs = m :: msgs) {r : ActionRequest ω} {p : ℕ} (hm : Msg.task? m = some (r, p)) :
    r ∈ working ∧ p < cfg.partitionSize ∧ (v.actions r.no).partitionState p ≠ .ready ∧
      msgs.countP (Msg.isTask r.no p) = 0 := by
  have hr : r ∈ working := h.task_mem m (hmsgs ▸ mem_cons_self) _ hm
  have htasks := h.tasks r hr p
  rw [hmsgs, countP_cons, if_pos (Msg.isTask_iff.mpr ⟨r, hm, rfl⟩)] at htasks
  split_ifs at htasks with hopen
  exact ⟨hr, hopen.1, hopen.2, by omega⟩

/-- A partition answers. -/
theorem partition {r : ActionRequest ω} {p : ℕ}
    {msgs : List (Msg ω)}
    (hmsgs : v.msgs = .partitionActionRequest r p :: msgs) (code : RddResultCode)
    (values : List String) :
    Placed cfg
      { v with
        msgs := msgs ++ [.rddActionResponse r p code values]
        results := fun no q => if no = r.no ∧ q = p then some (code, values) else v.results no q }
      working answered := by
  obtain ⟨hr, hp, hopen, hcount⟩ := h.task_unique hmsgs rfl
  have hsub : ∀ m ∈ msgs, m ∈ v.msgs := fun m hm => hmsgs ▸ mem_cons_of_mem _ hm
  have hrequests : r ∈ v.requests :=
    h.mem_of_placed (mem_append_right _ (mem_append_left _ hr))
  refine ⟨h.numbered, ?_, ?_, h.pending, h.fresh, ?_, ?_, h.unfinished, ?_, ?_, ?_⟩
  · rw [filterMap_append]
    have hplaced := h.placed
    rw [hmsgs] at hplaced
    exact (append_nil (msgs.filterMap Msg.request?)).symm ▸ hplaced
  · intro no hno q
    have hne : no ≠ r.no := (hno r (mem_append_left _ hr)).symm
    exact (if_neg fun hboth => hne hboth.1).trans (h.untouched no hno q)
  · intro m hm t ht
    rcases mem_append.mp hm with hm | hm
    · exact h.task_mem m (hsub m hm) t ht
    · rw [mem_singleton.mp hm] at ht
      cases ht
      exact hr
  · intro r' hr' q
    have htasks := h.tasks r' hr' q
    rw [hmsgs, countP_cons] at htasks
    rw [countP_append, countP_singleton]
    exact htasks
  · intro r' hr'
    obtain ⟨hanswered, hempty, hsuccess, hcode⟩ := h.received r' hr'
    -- the partition that answers is one from which nothing has been received
    have hkept : ∀ q, (v.actions r'.no).partitionState q = .ready → ¬ (r'.no = r.no ∧ q = p) := by
      rintro q hready ⟨hno, rfl⟩
      rw [hno] at hready
      exact hopen hready
    refine ⟨fun q hq hready => ?_, hempty, hsuccess.trans ?_, ?_⟩
    · dsimp only
      rw [if_neg (hkept q hready)]
      exact hanswered q hq hready
    · refine forall_congr' fun q => forall_congr' fun hq => forall_congr' fun hready => ?_
      dsimp only
      rw [if_neg (hkept q hready)]
    · refine hcode.imp_right ?_
      rintro ⟨q, hq, hready, values', hresult⟩
      exact ⟨q, hq, hready, values', (if_neg (hkept q hready)).trans hresult⟩
  · intro r' q code' values' hm
    rcases mem_append.mp hm with hold | hm
    · refine (if_neg ?_).trans (h.answers r' q code' values' (hsub _ hold))
      rintro ⟨hno, rfl⟩
      have htask : Msg.isTask r.no q (.rddActionResponse r' q code' values') = true :=
        Msg.isTask_iff.mpr ⟨r', rfl, hno⟩
      exact countP_eq_zero.mp hcount _ hold htask
    · cases mem_singleton.mp hm
      exact if_pos ⟨rfl, rfl⟩
  · have hanswered : ∀ r' ∈ answered, r'.no ≠ r.no := fun r' hr' => h.no_ne_of_working hr hr'
    refine ((forall₂_and_left _ _).mpr ⟨hanswered, h.outcomes⟩).imp ?_
    rintro r' response ⟨hno, hresponse, houtcome⟩
    exact ⟨hresponse, houtcome.congr fun q => if_neg fun hboth => hno hboth.1⟩

end

end Placed

/-! ## Responses of partitions -/

theorem receive_partitionState (a : RddAction) (p : ℕ) (code : RddResultCode)
    (values : List String) :
    (receive cfg p code values a).partitionState = update a.partitionState p .ready := by
  unfold receive RddAction.setPartitionState RddAction.addActionResult
  dsimp only
  split_ifs <;> rfl

theorem receive_actionResult (a : RddAction) (p : ℕ) (code : RddResultCode) (values : List String) :
    (receive cfg p code values a).actionResult = update a.actionResult p
    (a.actionResult p ++ values) := by
  unfold receive RddAction.setPartitionState RddAction.addActionResult
  dsimp only
  split_ifs <;> rfl

theorem receive_code (a : RddAction) (p : ℕ) (code : RddResultCode) (values : List String) :
    (receive cfg p code values a).code = if code = .success then a.code else code := by
  unfold receive RddAction.setPartitionState RddAction.addActionResult
  dsimp only
  by_cases hcode : code = .success
  · rw [if_neg (not_not.mpr hcode), if_pos hcode]
    split_ifs <;> rfl
  · rw [if_pos hcode, if_neg hcode]

/-- The action is ready when all partitions have responded, if it has not been before. -/
theorem receive_state {a : RddAction} (ha : a.state ≠ .ready) (p : ℕ) (code : RddResultCode)
    (values : List String) :
    (receive cfg p code values a).state = .ready ↔
      ∀ q < cfg.partitionSize, (receive cfg p code values a).partitionState q = .ready := by
  rw [receive_partitionState]
  have hstate : (receive cfg p code values a).state =
      (a.setPartitionState cfg.partitionSize p .ready).state := by
    unfold receive RddAction.addActionResult
    dsimp only
    split_ifs <;> rfl
  rw [hstate]
  unfold RddAction.setPartitionState
  dsimp only
  split_ifs with hall
  · exact iff_of_true rfl hall
  · exact iff_of_false ha hall

/-- A response is received once. -/
theorem Received.receive {results : ℕ → Option (RddResultCode × List String)} {a : RddAction}
    (h : Received cfg results a)
    {p : ℕ} (hp : p < cfg.partitionSize) (hopen : a.partitionState p ≠ .ready)
    {code : RddResultCode} {values : List String} (hresult : results p = some (code, values)) :
    Received cfg results (receive cfg p code values a) := by
  have hother : ∀ q ≠ p, (RddActor.receive cfg p code values a).partitionState q =
      a.partitionState q := by
    intro q hq
    rw [receive_partitionState, update_of_ne hq]
  have hself : (RddActor.receive cfg p code values a).partitionState p = .ready := by
    rw [receive_partitionState, update_self]
  refine ⟨fun q hq hready => ?_, fun q hq => ?_, ?_, ?_⟩
  · rw [receive_actionResult]
    by_cases hqp : q = p
    · subst hqp
      rw [update_self, h.empty q hopen]
      exact ⟨code, hresult⟩
    · rw [update_of_ne hqp]
      exact h.answered q hq (hother q hqp ▸ hready)
  · have hqp : q ≠ p := by
      rintro rfl
      exact hq hself
    rw [receive_actionResult, update_of_ne hqp]
    exact h.empty q (hother q hqp ▸ hq)
  · rw [receive_code]
    constructor
    · intro hsuccess q hq hready
      split_ifs at hsuccess with hcode
      · by_cases hqp : q = p
        · subst hqp
          exact ⟨values, hcode ▸ hresult⟩
        · exact h.success_iff.mp hsuccess q hq (hother q hqp ▸ hready)
      · exact absurd hsuccess hcode
    · intro hall
      obtain ⟨values', hvalues⟩ := hall p hp hself
      have hcode : code = .success := by
        rw [hresult, Option.some.injEq, Prod.mk.injEq] at hvalues
        exact hvalues.1
      rw [if_pos hcode]
      refine h.success_iff.mpr fun q hq hready => hall q hq ?_
      rw [hother q fun hqp => hopen (hqp ▸ hready)]
      exact hready
  · rw [receive_code]
    split_ifs with hcode
    · refine h.code.imp_right ?_
      rintro ⟨q, hq, hready, values', hvalues⟩
      exact ⟨q, hq, (hother q fun hqp => hopen (hqp ▸ hready)).trans hready, values', hvalues⟩
    · exact .inr ⟨p, hp, hself, values, hresult⟩

/-- The outcome of an action of which all partitions have responded. -/
theorem ownOutcome_of_received {cfg : RddConfig ω ρ}
    {results : ℕ → ℕ → Option (RddResultCode × List String)}
    {r : ActionRequest ω} {a : RddAction} (h : Received cfg (results r.no) a)
    (hall : ∀ q < cfg.partitionSize, a.partitionState q = .ready) (haggregate : a.code = .success →
      (cfg.aggregate r.action (partitionResults cfg a)).1 = .success) :
    OwnOutcome cfg results r ⟨r.no, some r.action_id, a.code,
      if a.code = .success then (cfg.aggregate r.action (partitionResults cfg a)).2 else none⟩ := by
  -- the partitions determine the values that are aggregated
  have hvalues : ∀ values : ℕ → List String,
      (∀ p < cfg.partitionSize, results r.no p = some (.success, values p)) →
        (List.range cfg.partitionSize).map values = partitionResults cfg a := by
    intro values hvalues
    refine map_congr_left fun p hp => ?_
    obtain ⟨code, hcode⟩ := h.answered p (mem_range.mp hp) (hall p (mem_range.mp hp))
    rw [hvalues p (mem_range.mp hp), Option.some.injEq, Prod.mk.injEq] at hcode
    exact hcode.2
  have hcode : ∀ result, Succeeded cfg results r result → a.code = .success ∧
      cfg.aggregate r.action (partitionResults cfg a) = (.success, result) := by
    rintro result ⟨values, hresults, haggregated⟩
    rw [hvalues values hresults] at haggregated
    exact ⟨h.success_iff.mpr fun q hq _ => ⟨values q, hresults q hq⟩, haggregated⟩
  refine ⟨rfl, ⟨fun hsuccess => ?_, ?_⟩, fun result hresult => ?_, ?_⟩
  · refine ⟨(cfg.aggregate r.action (partitionResults cfg a)).2, a.actionResult, fun q hq => ?_,
      Prod.ext (haggregate hsuccess) rfl⟩
    obtain ⟨values, hvalue⟩ := h.success_iff.mp hsuccess q hq (hall q hq)
    obtain ⟨code, hcode⟩ := h.answered q hq (hall q hq)
    rw [hvalue, Option.some.injEq, Prod.mk.injEq] at hcode
    rw [hvalue, hcode.2]
  · rintro ⟨result, hresult⟩
    exact (hcode result hresult).1
  · obtain ⟨hsuccess, haggregated⟩ := hcode result hresult
    dsimp only
    rw [if_pos hsuccess, haggregated]
  · rcases h.code with hsuccess | ⟨q, hq, -, values, hvalue⟩
    · exact .inl hsuccess
    · exact .inr (.inr (.inr ⟨q, hq, values, hvalue⟩))

namespace Placed

variable {cfg} {v : ActionView ω ρ} {working answered : List (ActionRequest ω)}

theorem no_ne_of_ne (h : Placed cfg v working answered) {r r' : ActionRequest ω} (hr : r ∈ working)
    (hr' : r' ∈ working) (hne : r' ≠ r) : r'.no ≠ r.no := fun heq =>
  hne (h.no_inj (h.mem_of_placed (mem_append_right _ (mem_append_left _ hr')))
    (h.mem_of_placed (mem_append_right _ (mem_append_left _ hr))) heq)

section Receive

variable (h : Placed cfg v working answered) {r : ActionRequest ω} {p : ℕ} {code : RddResultCode}
  {values : List String} {msgs : List (Msg ω)}
    (hmsgs : v.msgs = .rddActionResponse r p code values :: msgs)

include h hmsgs

/-- With a response a partition is done. -/
theorem tasks_receive {r' : ActionRequest ω} (hr' : r' ∈ working) (q : ℕ) :
    msgs.countP (Msg.isTask r'.no q) =
      if q < cfg.partitionSize ∧ (update v.actions r.no
        (RddActor.receive cfg p code values (v.actions r.no)) r'.no).partitionState q ≠
        .ready then 1 else 0 := by
  obtain ⟨hr, hp, hopen, hcount⟩ := h.task_unique hmsgs rfl
  have htasks := h.tasks r' hr' q
  rw [hmsgs, countP_cons] at htasks
  by_cases hsame : r' = r
  · subst hsame
    rw [update_self, receive_partitionState]
    by_cases hqp : q = p
    · subst hqp
      rw [hcount, update_self]
      exact (if_neg fun hnot => hnot.2 rfl).symm
    · rw [update_of_ne hqp, ← htasks, if_neg, Nat.add_zero]
      intro htask
      obtain ⟨_, heq, -⟩ := Msg.isTask_iff.mp htask
      cases heq
      exact hqp rfl
  · have hno := h.no_ne_of_ne hr hr' hsame
    rw [update_of_ne hno, ← htasks, if_neg, Nat.add_zero]
    intro htask
    obtain ⟨_, heq, heqno⟩ := Msg.isTask_iff.mp htask
    cases heq
    exact hno heqno.symm

theorem received_receive {r' : ActionRequest ω} (hr' : r' ∈ working) :
    Received cfg (v.results r'.no)
      (update v.actions r.no (RddActor.receive cfg p code values (v.actions r.no)) r'.no)
      := by
  obtain ⟨hr, hp, hopen, -⟩ := h.task_unique hmsgs rfl
  by_cases hsame : r' = r
  · subst hsame
    rw [update_self]
    exact (h.received r' hr').receive cfg hp hopen
      (h.answers r' p code values (hmsgs ▸ mem_cons_self))
  · rw [update_of_ne (h.no_ne_of_ne hr hr' hsame)]
    exact h.received r' hr'

/-- A partition has responded, and others have not. -/
theorem receive (hstate : (RddActor.receive cfg p code values (v.actions r.no)).state ≠ .ready) :
    Placed cfg
      { v with
        msgs := msgs
        actions :=
          update v.actions r.no (RddActor.receive cfg p code values (v.actions r.no)) }
      working answered := by
  obtain ⟨hr, hp, hopen, hcount⟩ := h.task_unique hmsgs rfl
  have hsub : ∀ m ∈ msgs, m ∈ v.msgs := fun m hm => hmsgs ▸ mem_cons_of_mem _ hm
  refine ⟨h.numbered, ?_, h.untouched, h.pending, fun r' hr' => ?_, fun m hm =>
    h.task_mem m (hsub m hm),
    fun r' hr' q => h.tasks_receive hmsgs hr' q, fun r' hr' => ?_, fun r' hr' =>
    h.received_receive hmsgs hr',
    fun r' q code' values' hm => h.answers r' q code' values' (hsub _ hm), h.outcomes⟩
  · have hplaced := h.placed
    rw [hmsgs] at hplaced
    exact hplaced
  · exact (update_of_ne (h.no_ne_of_queued hr' hr).symm _ _).trans (h.fresh r' hr')
  · by_cases hsame : r' = r
    · subst hsame
      dsimp only
      rw [update_self]
      refine ⟨hstate, ?_⟩
      by_contra hnone
      push Not at hnone
      exact hstate ((receive_state cfg (h.unfinished r' hr').1 p code values).mpr hnone)
    · dsimp only
      rw [update_of_ne (h.no_ne_of_ne hr hr' hsame)]
      exact h.unfinished r' hr'

/-- The last partition has responded: the request is answered. -/
theorem answer (hstate : (RddActor.receive cfg p code values (v.actions r.no)).state = .ready)
    (haggregate : (RddActor.receive cfg p code values (v.actions r.no)).code = .success →
      (cfg.aggregate r.action
        (partitionResults cfg (RddActor.receive cfg p code values (v.actions r.no)))).1 =
        .success) :
    ∃ working', Placed cfg
      { v with
        msgs := msgs
        actions :=
          update v.actions r.no (RddActor.receive cfg p code values (v.actions r.no))
        rddActions := update v.rddActions r.action_id none
        responses := v.responses ++ [⟨r.no, some r.action_id,
          (RddActor.receive cfg p code values (v.actions r.no)).code,
          if (RddActor.receive cfg p code values (v.actions r.no)).code = .success then
            (cfg.aggregate r.action
              (partitionResults cfg (RddActor.receive cfg p code values (v.actions r.no)))).2
          else none⟩] }
      working' (answered ++ [r]) := by
  obtain ⟨hr, hp, hopen, hcount⟩ := h.task_unique hmsgs rfl
  have hsub : ∀ m ∈ msgs, m ∈ v.msgs := fun m hm => hmsgs ▸ mem_cons_of_mem _ hm
  obtain ⟨before, after, hworking⟩ := append_of_mem hr
  have hperm : working.Perm (r :: (before ++ after)) := hworking ▸ perm_middle
  have hsubset : ∀ r' ∈ before ++ after, r' ∈ working := fun r' hr' =>
    hperm.mem_iff.mpr (mem_cons_of_mem _ hr')
  have hne : ∀ r' ∈ before ++ after, r' ≠ r := by
    rintro r' hr' rfl
    have hnodup : working.Nodup :=
      (nodup_append'.mp (nodup_append'.mp (nodup_append'.mp h.nodup).2.1).2.1).1
    exact (nodup_cons.mp (hperm.nodup_iff.mp hnodup)).1 hr'
  have hself : update v.actions r.no (RddActor.receive cfg p code values (v.actions r.no))
      r.no =
      RddActor.receive cfg p code values (v.actions r.no) := update_self _ _ _
  have hpending : v.rddActions r.action_id = some r := h.pending r (mem_append_right _ hr)
  have hall := (receive_state cfg (h.unfinished r hr).1 p code values).mp hstate
  refine ⟨before ++ after, h.numbered, ?_, ?_, ?_, fun r' hr' => ?_, ?_,
    fun r' hr' q => h.tasks_receive hmsgs (hsubset r' hr') q, fun r' hr' => ?_,
    fun r' hr' => h.received_receive hmsgs (hsubset r' hr'),
    fun r' q code' values' hm => h.answers r' q code' values' (hsub _ hm), ?_⟩
  · have hplaced := h.placed
    rw [hmsgs] at hplaced
    refine List.Perm.trans ?_ hplaced
    refine (List.Perm.append_left _ ?_).append_left _
    rw [← append_assoc]
    exact (perm_append_singleton r _).trans (hperm.symm.append_right answered)
  · intro no hno q
    refine h.untouched no (fun r' hr' => hno r' ?_) q
    rcases mem_append.mp hr' with hr' | hr'
    · rcases mem_cons.mp (hperm.mem_iff.mp hr') with rfl | hr'
      · exact mem_append_right _ (mem_append_right _ (mem_singleton_self _))
      · exact mem_append_left _ hr'
    · exact mem_append_right _ (mem_append_left _ hr')
  · intro r' hr'
    have hkept : r' ≠ r → v.rddActions r'.action_id = some r' →
        update v.rddActions r.action_id none r'.action_id = some r' := by
      intro hne' hpending'
      rw [update_of_ne, hpending']
      intro hid
      rw [hid, hpending, Option.some.injEq] at hpending'
      exact hne' hpending'.symm
    rcases mem_append.mp hr' with hr' | hr'
    · refine hkept ?_ (h.pending r' (mem_append_left _ hr'))
      rintro rfl
      exact h.no_ne_of_queued hr' hr rfl
    · exact hkept (hne r' hr') (h.pending r' (mem_append_right _ (hsubset r' hr')))
  · exact (update_of_ne (h.no_ne_of_queued hr' hr).symm _ _).trans (h.fresh r' hr')
  · -- no message is left of the request that is answered
    intro m hm t ht
    rcases mem_cons.mp (hperm.mem_iff.mp (h.task_mem m (hsub m hm) t ht)) with hsame | hmem
    · have hzero : msgs.countP (Msg.isTask r.no t.2) = 0 := by
        rw [h.tasks_receive hmsgs hr t.2, hself]
        exact if_neg fun hnot => hnot.2 (hall t.2 hnot.1)
      have htask : Msg.isTask r.no t.2 m = true := Msg.isTask_iff.mpr ⟨t.1, ht, hsame ▸ rfl⟩
      exact absurd htask (countP_eq_zero.mp hzero m hm)
    · exact hmem
  · dsimp only
    rw [update_of_ne (h.no_ne_of_ne hr (hsubset r' hr') (hne r' hr'))]
    exact h.unfinished r' (hsubset r' hr')
  · refine rel_append h.outcomes (.cons ⟨rfl, ?_⟩ .nil)
    have hreceived := h.received_receive hmsgs hr
    rw [hself] at hreceived
    exact ownOutcome_of_received hreceived hall haggregate

end Receive

end Placed

end RddActor

end Idgs.Rdd.BaseRddActor
