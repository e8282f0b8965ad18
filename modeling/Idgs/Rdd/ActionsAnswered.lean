import Idgs.Rdd.RequestPlaces

/-!
# Every action is answered

When nothing is in flight any more, every request has one response, with its own outcome. This holds
in the runs in which no request comes while another one with its id is pending, queued actions are
processed only while the RDD is ready, no announcement of a state overtakes the next change, the
aggregation does not fail, and a transformation that has ended has brought the RDD to its next
state. Without these conditions requests are lost.
-/

namespace Idgs.Rdd.BaseRddActor

open Common List

variable {ω ρ : Type*}

namespace RddActor

variable (cfg : RddConfig ω ρ)

/-! ## The condition -/

/-- The RDD is being created or transformed. -/
def busy (state : RddState) : Bool := state = .init || state = .created || state = .processing

/-- The aggregation that a response may lead to succeeds. -/
def aggregates (s : RddActor ω ρ) (action_id : String) (partition : ℕ) (code : RddResultCode)
    (values : List String) :
    Bool :=
  match s.rddActions action_id with
  | none => true
  | some r =>
    let a := receive cfg partition code values (s.actions r.no)
    !(a.state = .ready && a.code = .success) ||
      decide ((cfg.aggregate r.action (partitionResults cfg a)).1 = .success)

/-- The condition on the handling of a message. -/
def undisturbedMessage (s : RddActor ω ρ) : Msg ω → Bool
  | .rddActionRequest r =>
    s.rddState = .error || s.rddState = .processing || (s.rddActions r.action_id).isNone
  | .actionMessageProcess => s.rddState = .ready || s.actionQueue.isEmpty
  | .rddActionResponse r partition code values => aggregates cfg s r.action_id partition code values
  | .rddStateSync state => s.rddState = state
  | _ => true

/-- The condition on a step. -/
def undisturbed (s : RddActor ω ρ) : ActorStep ω → Bool
  | .handle i =>
    match s.inFlight[i]? with
    | some m => undisturbedMessage cfg s m
    | none => true
  | .settled => !busy s.rddState
  | _ => true

theorem view_ite_send {m : Msg ω} (hm : Msg.isAction m = false) (c : Prop) [Decidable c]
    (s : RddActor ω ρ) :
    (if c then s.send m else s).view = s.view := by
  split
  · exact view_send hm s
  · rfl

/-! ## Handlers of the evaluation -/

/-- The responses of a failed RDD. -/
theorem foldl_respondError (queue : List (ActionRequest ω)) (s : RddActor ω ρ) :
    queue.foldl respondError s =
      { s with responses := s.responses ++ queue.map fun r =>
        ⟨r.no, some r.action_id, .rddError, none⟩ } := by
  induction queue generalizing s with
  | nil => rw [map_nil, append_nil, foldl_nil]
  | cons r queue ih =>
    rw [foldl_cons, ih, map_cons]
    simp only [respondError, respond, append_assoc, singleton_append]

theorem processRddError_eq (s : RddActor ω ρ) :
    s.processRddError =
      { s with
        rddState := .error, inFlight := s.inFlight ++ [.rddStateSync .error], actionQueue := []
        responses := s.responses ++ s.actionQueue.map fun r =>
          ⟨r.no, some r.action_id, .rddError, none⟩ } := by
  unfold processRddError
  dsimp only
  rw [foldl_respondError]
  rfl

/-- What is known of a state apart from what triggers the queued actions. -/
structure Stable (s : RddActor ω ρ) : Prop where
  underway : busy s.rddState = true → s.underway = true
  error : s.rddState = .error → s.actionQueue = []
  state_ne : s.rddState ≠ .transformComplete
  defined : s.undefinedBehavior = false

/-- Queued actions are waited for: by a message or by the RDD, which is being created or
transformed. -/
def Triggered (s : RddActor ω ρ) : Prop :=
  s.actionQueue ≠ [] →
    .rddTransform ∈ s.inFlight ∨ .actionMessageProcess ∈ s.inFlight ∨ busy s.rddState = true

/-- A handler of the evaluation: the actions do not see it, or the RDD has failed. -/
structure Evaluates (s s' : RddActor ω ρ) : Prop where
  view : s'.view = s.view ∨ s'.view = s.processRddError.view
  stable : s'.Stable
  triggered : s'.Triggered

variable {s : RddActor ω ρ}

theorem Stable.send (h : s.Stable) (m : Msg ω) : (s.send m).Stable :=
  ⟨h.underway, h.error, h.state_ne, h.defined⟩

theorem Triggered.send (h : s.Triggered) (m : Msg ω) : (s.send m).Triggered := by
  intro hqueue
  rcases h hqueue with h | h | h
  · exact .inl (mem_append_left _ h)
  · exact .inr (.inl (mem_append_left _ h))
  · exact .inr (.inr h)

theorem evaluates_processRddError (h : s.Stable) : s.Evaluates s.processRddError where
  view := .inr rfl
  stable := by
    rw [processRddError_eq]
    exact ⟨fun hbusy => (by cases hbusy), fun _ => rfl, fun hstate => (by cases hstate), h.defined⟩
  triggered := by
    rw [processRddError_eq]
    exact fun hqueue => absurd rfl hqueue

/-- A change to a state in which the queued actions go on. -/
theorem evaluates_goOn (h : s.Stable) {state : RddState}
    (hstate : state = .prepared ∨ state = .ready)
    {m : Msg ω} (hm : m = .rddTransform ∨ m = .actionMessageProcess) :
    s.Evaluates (if (s.setRddState state).actionQueue ≠ [] then (s.setRddState state).send m
      else s.setRddState state) := by
  have haction : Msg.isAction m = false := by rcases hm with rfl | rfl <;> rfl
  have hstable : (s.setRddState state).Stable := by
    rcases hstate with rfl | rfl
    · exact ⟨fun hbusy => (by cases hbusy), fun herror => (by cases herror), fun hne =>
        (by cases hne), h.defined⟩
    · exact ⟨fun hbusy => (by cases hbusy), fun herror => (by cases herror), fun hne =>
        (by cases hne), h.defined⟩
  refine ⟨.inl ((view_ite_send haction _ _).trans (view_setRddState _ _)), ?_, ?_⟩
  · split
    · exact ⟨hstable.underway, hstable.error, hstable.state_ne, hstable.defined⟩
    · exact hstable
  · split
    · intro _
      have hmem : m ∈ ((s.setRddState state).send m).inFlight :=
        mem_append_right _ (mem_singleton_self m)
      rcases hm with rfl | rfl
      · exact .inl hmem
      · exact .inr (.inl hmem)
    · rename_i hqueue
      exact fun h => absurd h hqueue

theorem evaluates_processRddReady (h : s.Stable) : s.Evaluates s.processRddReady := by
  unfold processRddReady
  refine evaluates_goOn h ?_ (.inr rfl)
  split
  · exact .inl rfl
  · exact .inr rfl

/-- The states of partitions do not matter. -/
theorem Stable.setPartitionStates (h : s.Stable) (ps : List ℕ) (state : RddState) :
    (s.setPartitionStates ps state).Stable := ⟨h.underway, h.error, h.state_ne, h.defined⟩

theorem Evaluates.of_setPartitionStates {s' : RddActor ω ρ} {ps : List ℕ} {state : RddState}
    (h : (s.setPartitionStates ps state).Evaluates s') : s.Evaluates s' := by
  refine ⟨h.view.imp_right fun hview => hview.trans ?_, h.stable, h.triggered⟩
  rw [processRddError_eq, processRddError_eq]
  rfl

section

variable (h : s.Stable)

include h

section

variable (ht : s.Triggered)

include ht

theorem evaluates_setPartitionStates (ps : List ℕ)
    (state : RddState) : s.Evaluates (s.setPartitionStates ps state) :=
  ⟨.inl rfl, h.setPartitionStates ps state, ht⟩

theorem evaluates_self : s.Evaluates s :=
  ⟨.inl rfl, h, ht⟩

theorem evaluates_handleCreateRddPartitionResponse (ps : List ℕ)
    (code : RddResultCode) : s.Evaluates (s.handleCreateRddPartitionResponse ps code) := by
  unfold handleCreateRddPartitionResponse
  split_ifs
  · exact evaluates_self h ht
  · exact evaluates_processRddError h
  · exact evaluates_setPartitionStates h ht ps _

theorem evaluates_handleRddPartitionPrepared (ps : List ℕ)
    (code : RddResultCode) : s.Evaluates (handleRddPartitionPrepared cfg ps code s) := by
  unfold handleRddPartitionPrepared
  split
  · exact evaluates_self h ht
  split
  · exact evaluates_processRddError h
  dsimp only
  split
  · refine (evaluates_goOn (h.setPartitionStates ps .prepared) ?_ (.inl rfl)).of_setPartitionStates
    split
    · exact .inr rfl
    · exact .inl rfl
  · exact evaluates_setPartitionStates h ht ps _

theorem evaluates_handlePartitionTransformComplete (p : ℕ)
    (code : RddResultCode) : s.Evaluates (handlePartitionTransformComplete cfg p code s) := by
  unfold handlePartitionTransformComplete
  generalize (if code ≠ .success then RddState.error else .ready) = state
  dsimp only
  split
  · exact (evaluates_processRddReady (h.setPartitionStates _ _)).of_setPartitionStates
  · exact evaluates_setPartitionStates h ht _ _

theorem evaluates_handlePartitionReady (p : ℕ) :
    s.Evaluates (handlePartitionReady cfg p s) := by
  unfold handlePartitionReady
  generalize (if s.persistType ≠ .none then RddState.transformComplete else .ready) = state
  dsimp only
  split
  · exact (evaluates_processRddReady (h.setPartitionStates _ _)).of_setPartitionStates
  · exact evaluates_setPartitionStates h ht _ _

end

/-- A transformation that begins keeps the RDD busy. -/
theorem evaluates_handleRddTransform : s.Evaluates s.handleRddTransform := by
  have hprocessing : ∀ s' : RddActor ω ρ, s'.view = s.view → s'.rddState = .processing →
      s'.underway = true →
      s'.undefinedBehavior = false → s.Evaluates s' := by
    intro s' hview hstate hunderway hdefined
    refine ⟨.inl hview, ⟨fun _ => hunderway, ?_, ?_, hdefined⟩, fun _ => .inr (.inr ?_)⟩
    · rw [hstate]
      exact fun herror => (by cases herror)
    · rw [hstate]
      exact fun hne => (by cases hne)
    · rw [hstate]
      rfl
  have hwaiting : busy s.rddState = true → s.Evaluates (s.send .rddTransform) := by
    intro hbusy
    exact ⟨.inl (view_send rfl s), ⟨h.underway, h.error, h.state_ne, h.defined⟩, fun _ =>
      .inr (.inr hbusy)⟩
  unfold handleRddTransform
  cases hstate : s.rddState with
  | error => exact evaluates_processRddError h
  | init | created => exact hwaiting (by rw [hstate]; rfl)
  | prepared =>
    dsimp only
    split
    · exact hprocessing _ ((view_send rfl _).trans (view_setRddState s .processing)) rfl rfl
        h.defined
    · exact hprocessing _ (view_setRddState s .processing) rfl rfl h.defined
  | ready => exact hprocessing _ (view_setRddState s .processing) rfl rfl h.defined
  | processing => exact evaluates_self h fun _ => .inr (.inr (by rw [hstate]; rfl))
  | transformComplete => exact absurd hstate h.state_ne

end

/-! ## Steps -/

/-- What holds of every state that is reached under the condition. -/
structure Inv (s : RddActor ω ρ) : Prop where
  stable : s.Stable
  triggered : s.Triggered
  placed : ∃ working answered, Placed cfg s.view working answered

variable {cfg}

theorem view_send_action {m : Msg ω} (hm : Msg.isAction m = true) (s : RddActor ω ρ) :
    (s.send m).view = { s.view with msgs := s.view.msgs ++ [m] } := by
  simp only [view, send, filter_append, filter_cons, hm, filter_nil, if_true]

theorem view_processRddError (s : RddActor ω ρ) :
    s.processRddError.view = { s.view with
      queue := []
      responses := s.view.responses ++ s.view.queue.map fun r =>
        ⟨r.no, some r.action_id, .rddError, none⟩ } := by
  rw [processRddError_eq]
  simp only [view, filter_append, filter_cons, Msg.isAction, filter_nil,
    Bool.false_eq_true, if_false, append_nil]

variable {working : List (ActionRequest ω)}

/-- What the evaluation does keeps the requests in their places. -/
theorem Evaluates.inv {s' : RddActor ω ρ} (h : s.Evaluates s') {answered : List (ActionRequest ω)}
    (hplaced : Placed cfg s.view working answered) : s'.Inv cfg := by
  refine ⟨h.stable, h.triggered, ?_⟩
  rcases h.view with hview | hview
  · exact ⟨working, answered, hview ▸ hplaced⟩
  · exact ⟨working, answered ++ s.view.queue, hview ▸ view_processRddError s ▸ hplaced.fail⟩

/-- The messages without the one that is handled. -/
theorem perm_eraseIdx {l : List (Msg ω)} {i : ℕ} {m : Msg ω} (h : l[i]? = some m) :
    l.Perm (m :: l.eraseIdx i) := by
  obtain ⟨hi, rfl⟩ := List.getElem?_eq_some_iff.mp h
  exact (getElem_cons_eraseIdx_perm hi).symm

/-- A message that is handled is taken out. -/
def pop (s : RddActor ω ρ) (i : ℕ) : RddActor ω ρ := { s with inFlight := s.inFlight.eraseIdx i }

theorem placed_pop {answered : List (ActionRequest ω)}
    (h : Placed cfg s.view working answered) {i : ℕ} {m : Msg ω} (hm : s.inFlight[i]? = some m) :
    (Msg.isAction m = true →
      Placed cfg { (s.pop i).view with msgs := m :: (s.pop i).view.msgs } working answered) ∧
      (Msg.isAction m = false → Placed cfg (s.pop i).view working answered) := by
  have hperm := (perm_eraseIdx hm).filter Msg.isAction
  constructor
  · intro haction
    rw [filter_cons_of_pos haction] at hperm
    exact h.perm hperm
  · intro haction
    rw [filter_cons_of_neg (by rw [haction]; decide)] at hperm
    exact h.perm hperm

theorem triggered_pop (h : s.Triggered) {i : ℕ} {m : Msg ω} (hm : s.inFlight[i]? = some m)
    (htransform : m ≠ .rddTransform) (hprocess : m ≠ .actionMessageProcess) :
    (s.pop i).Triggered := by
  have hmem : ∀ x ∈ s.inFlight, m ≠ x → x ∈ (s.pop i).inFlight := by
    intro x hx hne
    rcases mem_cons.mp ((perm_eraseIdx hm).mem_iff.mp hx) with rfl | hx
    · exact absurd rfl hne
    · exact hx
  intro hqueue
  rcases h hqueue with h | h | h
  · exact .inl (hmem _ h htransform)
  · exact .inr (.inl (hmem _ h hprocess))
  · exact .inr (.inr h)

/-! ### The handlers of the actions -/

theorem inv_handleRddActionRequest (hstable : s.Stable) (htriggered : s.Triggered)
    {answered : List (ActionRequest ω)} {r : ActionRequest ω} (hplaced : Placed cfg { s.view with
      msgs := .rddActionRequest r :: s.view.msgs } working answered)
    (hid : s.rddState = .error ∨ s.rddState = .processing ∨ s.rddActions r.action_id = none) :
    (s.handleRddActionRequest r).Inv cfg := by
  have hqueued : s.rddState ≠ .error → s.rddState ≠ .processing → s.rddActions r.action_id = none :=
    fun herror hprocessing => (hid.resolve_left herror).resolve_left hprocessing
  have hrefuse : ∀ {code}, code = .rddError ∨ code = .rddStateProcessing →
      (s.respond r (some r.action_id) code none).Inv cfg := by
    intro code hcode
    exact ⟨⟨hstable.underway, hstable.error, hstable.state_ne, hstable.defined⟩, htriggered, _, _,
      hplaced.refuse rfl hcode⟩
  have hqueue : s.rddActions r.action_id = none →
      ∃ working answered, Placed cfg (s.addAction r).view working answered :=
    fun hnone => ⟨working, answered, hplaced.enqueue rfl hnone⟩
  have hadd : s.rddState ≠ .error → (s.addAction r).Stable := fun herror =>
    ⟨hstable.underway, fun h => absurd h herror, hstable.state_ne, hstable.defined⟩
  unfold handleRddActionRequest
  cases hstate : s.rddState with
  | error => exact hrefuse (.inl rfl)
  | processing => exact hrefuse (.inr rfl)
  | transformComplete => exact absurd hstate hstable.state_ne
  | init | created =>
    have hne : s.rddState ≠ .error := fun h => by cases hstate.symm.trans h
    have hnone := hqueued hne fun h => by cases hstate.symm.trans h
    have hbusy : busy (s.addAction r).rddState = true := by
      rw [show (s.addAction r).rddState = _ from hstate]
      rfl
    exact ⟨hadd hne, fun _ => .inr (.inr hbusy), hqueue hnone⟩
  | prepared =>
    have hne : s.rddState ≠ .error := fun h => by cases hstate.symm.trans h
    have hnone := hqueued hne fun h => by cases hstate.symm.trans h
    have hsent : Msg.rddTransform ∈ ((s.addAction r).send .rddTransform).inFlight :=
      mem_append_right _ (mem_singleton_self _)
    have hview := view_send (show Msg.isAction .rddTransform = false from rfl) (s.addAction r)
    exact ⟨(hadd hne).send _, fun _ => .inl hsent, hview ▸ hqueue hnone⟩
  | ready =>
    have hne : s.rddState ≠ .error := fun h => by cases hstate.symm.trans h
    have hnone := hqueued hne fun h => by cases hstate.symm.trans h
    have hsent : Msg.actionMessageProcess ∈
        ((s.addAction r).send .actionMessageProcess).inFlight :=
      mem_append_right _ (mem_singleton_self _)
    have hview :=
      view_send (show Msg.isAction .actionMessageProcess = false from rfl) (s.addAction r)
    exact ⟨(hadd hne).send _, fun _ => .inr (.inl hsent), hview ▸ hqueue hnone⟩

/-- The requests to the partitions of a fresh action. -/
theorem requestPartitions_eq {r : ActionRequest ω} (h : s.actions r.no = .new) :
    requestPartitions cfg s r = { s with inFlight := s.inFlight ++ partitionRequests cfg r } := by
  unfold requestPartitions partitionRequests
  generalize List.range cfg.partitionSize = ps
  induction ps generalizing s with
  | nil => rw [foldl_nil, map_nil, append_nil]
  | cons p ps ih =>
    have hopen : (s.actions r.no).partitionState p ≠ .ready := by
      rw [h]
      exact fun hready => (by cases hready)
    have hsent : (s.send (.partitionActionRequest r p)).actions r.no = .new := h
    rw [foldl_cons, if_pos hopen, ih hsent, map_cons]
    simp only [send, append_assoc, singleton_append]

/-- When the RDD is ready, all queued actions are sent to the partitions. -/
theorem handleActionProcess_eq (hready : s.rddState = .ready)
    (hfresh : ∀ r ∈ s.actionQueue, s.actions r.no = .new) :
    handleActionProcess cfg s =
      { s with
        inFlight := s.inFlight ++ s.actionQueue.flatMap (partitionRequests cfg)
        actionQueue := [] } := by
  have hfold : ∀ (queue : List (ActionRequest ω)) (s : RddActor ω ρ),
      (∀ r ∈ queue, s.actions r.no = .new) →
      queue.foldl (processAction cfg .ready) s =
        { s with inFlight := s.inFlight ++ queue.flatMap (partitionRequests cfg) } := by
    intro queue
    induction queue with
    | nil =>
      intro s _
      rw [foldl_nil, flatMap_nil, append_nil]
    | cons r queue ih =>
      intro s hfresh
      rw [foldl_cons, processAction, requestPartitions_eq (hfresh r mem_cons_self),
        ih { s with inFlight := s.inFlight ++ partitionRequests cfg r }
          fun r' hr' =>
            hfresh r' (mem_cons_of_mem _ hr'), flatMap_cons, append_assoc]
  have hprocess := hfold s.actionQueue s hfresh
  rw [← hready] at hprocess
  unfold handleActionProcess
  rw [hprocess]

theorem inv_handleActionProcess (hstable : s.Stable)
    {answered : List (ActionRequest ω)} (hplaced : Placed cfg s.view working answered)
    (hready : s.rddState = .ready ∨ s.actionQueue = []) : (handleActionProcess cfg s).Inv cfg := by
  by_cases hqueue : s.actionQueue = []
  · have heq : handleActionProcess cfg s = s := by
      unfold handleActionProcess
      rw [hqueue, foldl_nil, ← hqueue]
    rw [heq]
    exact ⟨hstable, fun h => absurd hqueue h, working, answered, hplaced⟩
  · rw [handleActionProcess_eq (hready.resolve_right hqueue) hplaced.fresh]
    refine ⟨⟨hstable.underway, fun _ => rfl, hstable.state_ne, hstable.defined⟩,
      fun h => absurd rfl h, working ++ s.actionQueue, answered, ?_⟩
    have hview : RddActor.view { s with
        inFlight := s.inFlight ++ s.actionQueue.flatMap (partitionRequests cfg)
        actionQueue := [] } =
        { s.view with
          queue := [], msgs := s.view.msgs ++ s.view.queue.flatMap (partitionRequests cfg) } := by
      have hall : (s.actionQueue.flatMap (partitionRequests cfg)).filter Msg.isAction =
          s.actionQueue.flatMap (partitionRequests cfg) := by
        refine filter_eq_self.mpr fun m hm => ?_
        obtain ⟨r, -, p, rfl⟩ := mem_partitionRequests cfg hm
        rfl
      simp only [view, filter_append, hall]
    rw [hview]
    exact hplaced.process

theorem inv_handleRddActionResponse (hstable : s.Stable) (htriggered : s.Triggered)
    {answered : List (ActionRequest ω)} {r : ActionRequest ω} {p : ℕ} {code : RddResultCode}
    {values : List String} (hplaced : Placed cfg { s.view with
      msgs := .rddActionResponse r p code values :: s.view.msgs } working answered)
    (haggregates : aggregates cfg s r.action_id p code values = true) :
    (handleRddActionResponse cfg r.action_id p code values s).Inv cfg := by
  obtain ⟨hr, hp, hopen, -⟩ := hplaced.task_unique rfl rfl
  have hpending : s.rddActions r.action_id = some r :=
    hplaced.pending r (mem_append_right _ hr)
  unfold handleRddActionResponse
  rw [hpending]
  dsimp only
  split_ifs with hready
  · have haggregate : (receive cfg p code values (s.actions r.no)).code = .success →
        (cfg.aggregate r.action
        (partitionResults cfg (receive cfg p code values (s.actions r.no)))).1 = .success := by
      intro hsuccess
      unfold aggregates at haggregates
      rw [hpending] at haggregates
      simpa [hready, hsuccess] using haggregates
    obtain ⟨working', hanswer⟩ := hplaced.answer rfl hready haggregate
    exact ⟨⟨hstable.underway, hstable.error, hstable.state_ne, hstable.defined⟩, htriggered,
      working', answered ++ [r],
      hanswer⟩
  · exact ⟨⟨hstable.underway, hstable.error, hstable.state_ne, hstable.defined⟩, htriggered,
      working, answered,
      hplaced.receive rfl hready⟩

/-- Under the condition every message keeps the requests in their places. -/
theorem inv_handle (h : s.Inv cfg) {i : ℕ} {m : Msg ω} (hm : s.inFlight[i]? = some m)
    (hcond : undisturbedMessage cfg s m = true)
    (hpartition : ∀ r p, m ≠ .partitionActionRequest r p) :
    (handleMessage cfg (s.pop i) m).Inv cfg := by
  obtain ⟨hstable, htriggered, working, answered, hplaced⟩ := h
  obtain ⟨haction, hother⟩ := placed_pop hplaced hm
  have hstable' : (s.pop i).Stable :=
    ⟨hstable.underway, hstable.error, hstable.state_ne, hstable.defined⟩
  have htriggered' := triggered_pop htriggered hm
  cases m with
  | rddActionRequest r =>
    have hid : s.rddState = .error ∨ s.rddState = .processing ∨
        s.rddActions r.action_id = none := by
      simpa [undisturbedMessage, or_assoc] using hcond
    exact inv_handleRddActionRequest hstable'
      (htriggered' (fun h => by cases h) (fun h => by cases h)) (haction rfl)
      hid
  | actionMessageProcess =>
    have hready : s.rddState = .ready ∨ s.actionQueue = [] := by
        simpa [undisturbedMessage] using hcond
    exact inv_handleActionProcess hstable' (hother rfl) hready
  | partitionActionRequest r p => exact absurd rfl (hpartition r p)
  | rddActionResponse r p code values =>
    exact inv_handleRddActionResponse hstable'
      (htriggered' (fun h => by cases h) (fun h => by cases h)) (haction rfl)
      hcond
  | rddTransform => exact (evaluates_handleRddTransform hstable').inv (hother rfl)
  | rddStateSync state =>
    have heq : s.rddState = state := by simpa [undisturbedMessage] using hcond
    have hsame : handleMessage cfg (s.pop i) (.rddStateSync state) = s.pop i := by rw [← heq]; rfl
    rw [hsame]
    exact ⟨hstable', htriggered' (fun h => by cases h) (fun h => by cases h), working, answered,
      hother rfl⟩
  | persistTypeSync =>
    exact ⟨⟨hstable.underway, hstable.error, hstable.state_ne, hstable.defined⟩,
      htriggered' (fun h => by cases h) (fun h => by cases h), working, answered, hother rfl⟩
  | createRddPartitionResponse ps code =>
    exact (evaluates_handleCreateRddPartitionResponse hstable'
      (htriggered' (fun h => by cases h) (fun h => by cases h)) ps code).inv (hother rfl)
  | rddPartitionPrepared ps code =>
    exact (evaluates_handleRddPartitionPrepared cfg hstable'
      (htriggered' (fun h => by cases h) (fun h => by cases h)) ps code).inv (hother rfl)
  | rddTransformPrepared ps =>
    exact (evaluates_setPartitionStates hstable'
      (htriggered' (fun h => by cases h) (fun h => by cases h)) ps _).inv (hother rfl)
  | partitionTransformComplete p code =>
    exact (evaluates_handlePartitionTransformComplete cfg hstable'
      (htriggered' (fun h => by cases h) (fun h => by cases h)) p code).inv (hother rfl)
  | partitionReady p =>
    exact (evaluates_handlePartitionReady cfg hstable'
      (htriggered' (fun h => by cases h) (fun h => by cases h)) p).inv (hother rfl)
  | upstreamRddError => exact (evaluates_processRddError hstable').inv (hother rfl)

/-- Under the condition every step keeps the requests in their places. -/
theorem Inv.step {s' : RddActor ω ρ} {a : ActorStep ω} (h : s.Inv cfg)
    (hcond : undisturbed cfg s a = true) (hstep : step cfg s a = some s') : s'.Inv cfg := by
  obtain ⟨hstable, htriggered, working, answered, hplaced⟩ := id h
  cases a with
  | request action_id action =>
    cases hstep
    refine ⟨⟨hstable.underway, hstable.error, hstable.state_ne, hstable.defined⟩,
      Triggered.send htriggered _,
      working, answered, ?_⟩
    rw [view_send_action rfl]
    exact hplaced.request rfl
  | handle i =>
    unfold RddActor.step at hstep
    unfold undisturbed at hcond
    cases hm : s.inFlight[i]? with
    | none =>
      simp only [hm] at hstep
      cases hstep
    | some m =>
      simp only [hm] at hstep hcond
      cases m with
      | partitionActionRequest r p => cases hstep
      | _ =>
        cases hstep
        exact inv_handle h hm hcond fun r p heq => by cases heq
  | partition i code values =>
    unfold RddActor.step at hstep
    cases hm : s.inFlight[i]? with
    | none =>
      simp only [hm] at hstep
      cases hstep
    | some m =>
      simp only [hm] at hstep
      cases m with
      | partitionActionRequest r p =>
        cases hstep
        refine ⟨⟨hstable.underway, hstable.error, hstable.state_ne, hstable.defined⟩,
          Triggered.send
          (triggered_pop htriggered hm (fun h => by cases h) (fun h => by cases h)) _,
          working, answered, ?_⟩
        rw [view_send_action rfl]
        exact ((placed_pop hplaced hm).1 rfl).partition rfl code values
      | _ => cases hstep
  | outside m =>
    simp only [RddActor.step] at hstep
    split_ifs at hstep with houtside
    cases hstep
    have haction : Msg.isAction m = false := by cases m <;> first | rfl | cases houtside
    exact ⟨hstable.send m, htriggered.send m, working, answered, view_send haction s ▸ hplaced⟩
  | created =>
    simp only [RddActor.step] at hstep
    split_ifs at hstep with hinit
    cases hstep
    have hunderway : s.underway = true := hstable.underway (by rw [hinit]; rfl)
    exact ⟨⟨fun _ => hunderway, fun herror => (by cases herror), fun hne => (by cases hne),
      hstable.defined⟩,
      fun _ => .inr (.inr rfl), working, answered, hplaced⟩
  | delegateTransformed p =>
    cases hstep
    exact (evaluates_setPartitionStates hstable htriggered [p] _).inv hplaced
  | settled =>
    simp only [RddActor.step] at hstep
    split_ifs at hstep
    cases hstep
    have hbusy : busy s.rddState = false := by simpa [undisturbed] using hcond
    refine ⟨⟨fun h => ?_, hstable.error, hstable.state_ne, hstable.defined⟩, htriggered, working,
      answered, hplaced⟩
    exact absurd (hbusy.symm.trans h) (by decide)

theorem inv_init (persistType : PersistType) : (init persistType : RddActor ω ρ).Inv cfg where
  stable := ⟨fun _ => rfl, fun h => (by cases h), fun h => (by cases h), rfl⟩
  triggered := fun h => absurd rfl h
  placed :=
    ⟨[], [], rfl, .nil, fun _ _ _ => rfl, fun r hr => (by cases hr), fun r hr => (by cases hr),
    fun m hm => (by cases hm), fun r hr => (by cases hr), fun r hr => (by cases hr), fun r hr =>
    (by cases hr),
    fun r p code values hm => (by cases hm), .nil⟩

/-! ## The end of a run -/

theorem exists_of_mem_right {α β : Type*} {R : α → β → Prop} {as : List α} {bs : List β}
    (h : List.Forall₂ R as bs) {b : β} (hb : b ∈ bs) : ∃ a ∈ as, R a b := by
  induction h with
  | nil => cases hb
  | cons hhead _ ih =>
    rcases mem_cons.mp hb with rfl | hb
    · exact ⟨_, mem_cons_self, hhead⟩
    · obtain ⟨a, ha, hR⟩ := ih hb
      exact ⟨a, mem_cons_of_mem _ ha, hR⟩

/-- The responses to a request, among those to all. -/
theorem filter_responses {results : ℕ → ℕ → Option (RddResultCode × List String)}
    {answered : List (ActionRequest ω)} {responses : List (ActionResponse ρ)}
    (h : List.Forall₂ (fun r response =>
      response.request = r.no ∧ OwnOutcome cfg results r response) answered responses)
    (hnodup : (answered.map ActionRequest.no).Nodup) {r : ActionRequest ω} (hr : r ∈ answered) :
    ∃ response, responses.filter
    (fun x => x.request = r.no) = [response] ∧ OwnOutcome cfg results r response := by
  induction h with
  | nil => cases hr
  | @cons r₀ response₀ answered responses hhead htail ih =>
    rw [map_cons, nodup_cons] at hnodup
    rcases mem_cons.mp hr with rfl | hr
    · refine ⟨response₀, ?_, hhead.2⟩
      have hrest : responses.filter (fun x => x.request = r.no) = [] := by
        refine filter_eq_nil_iff.mpr fun x hx hno => hnodup.1 ?_
        obtain ⟨r', hr', hx⟩ := exists_of_mem_right htail hx
        rw [← of_decide_eq_true hno, hx.1]
        exact mem_map_of_mem hr'
      rw [filter_cons_of_pos, hrest]
      exact decide_eq_true hhead.1
    · obtain ⟨response, hfilter, houtcome⟩ := ih hnodup.2 hr
      refine ⟨response, ?_, houtcome⟩
      rw [filter_cons_of_neg, hfilter]
      intro hno
      refine hnodup.1 ?_
      rw [← hhead.1, of_decide_eq_true hno]
      exact mem_map_of_mem hr

theorem Inv.answered (h : s.Inv cfg) : Answered cfg s := by
  obtain ⟨hstable, htriggered, working, answered, hplaced⟩ := h
  refine ⟨hstable.defined, ?_⟩
  rintro ⟨hnone, hunderway⟩ r hr
  have hmsgs : s.view.msgs = [] := by rw [view, hnone]; rfl
  have hqueue : s.actionQueue = [] := by
    by_contra hqueue
    rcases htriggered hqueue with hmem | hmem | hbusy
    · rw [hnone] at hmem
      cases hmem
    · rw [hnone] at hmem
      cases hmem
    · rw [hstable.underway hbusy] at hunderway
      cases hunderway
  have hworking : working = [] := by
    cases working with
    | nil => rfl
    | cons r' rest =>
      obtain ⟨-, p, hp, hopen⟩ := hplaced.unfinished r' mem_cons_self
      have htasks := hplaced.tasks r' mem_cons_self p
      rw [if_pos ⟨hp, hopen⟩, hmsgs] at htasks
      cases htasks
  have hall := hplaced.placed
  rw [hmsgs, show s.view.queue = [] from hqueue, hworking] at hall
  have hnodup := hplaced.nodup_no
  rw [hmsgs, show s.view.queue = [] from hqueue, hworking] at hnodup
  exact filter_responses hplaced.outcomes hnodup (hall.mem_iff.mpr hr)

/-- In every run whose steps all meet the condition every request is answered once with its own
outcome. -/
theorem answered_of_reaches (cfg : RddConfig ω ρ) {persistType : PersistType} {s : RddActor ω ρ}
    (h : Reaches (step cfg) (fun s a => undisturbed cfg s a = true) (init persistType) s) :
    Answered cfg s :=
  (h.invariant (inv_init persistType) fun _ _ _ hinv hcond hstep => hinv.step hcond hstep).answered

/-! ## Runs -/

/-- One partition, and an aggregation that succeeds. -/
def onePartition : RddConfig Unit ℕ :=
  ⟨1, by decide, false, fun _ results => (.success, some results.length)⟩

/-- The RDD is created, transformed for a downstream RDD and ready. -/
def untilReady : List (ActorStep Unit) :=
  [.created, .outside (.rddPartitionPrepared [0] .success), .handle 0, .handle 0,
    .outside .rddTransform, .handle 0, .handle 0, .outside (.partitionReady 0), .handle 0,
    .outside (.partitionTransformComplete 0 .success), .handle 0, .handle 0]

/-- A request is queued and sent to the partition, which answers. -/
def answeredRun : List (ActorStep Unit) :=
  untilReady ++ [.request "count" (), .handle 0, .handle 0, .partition 0 .success [], .handle 0,
    .settled]

/-- A request that is answered at the end. -/
theorem answered_count :
    ∃ s : RddActor Unit ℕ, s.Quiescent ∧ s.requests.length = 1 ∧ s.responses.length = 1 ∧
    Answered onePartition s := by
  have hrun : replay (step onePartition) (fun s a => undisturbed onePartition s a = true)
      (init .ordered) answeredRun =
      some _ := rfl
  exact ⟨_, ⟨rfl, rfl⟩, rfl, rfl, answered_of_reaches onePartition (reaches_of_replay hrun)⟩

/-- A request is queued; before ACTION_MESSAGE_PROCESS a downstream RDD asks for a
transformation. -/
def lostRun : List (ActorStep Unit) :=
  untilReady ++ [.request "count" (), .outside .rddTransform, .handle 0, .handle 0, .handle 0,
    .handle 0,
    .outside (.partitionTransformComplete 0 .success), .handle 0, .handle 0, .settled]

/-- The request is never answered. -/
theorem not_answered :
    ∃ s : RddActor Unit ℕ, Reaches (step onePartition) anyStep (init .ordered) s ∧
    ¬ Answered onePartition s := by
  have hrun : replay (step onePartition) anyStep (init .ordered) lostRun = some _ := rfl
  refine ⟨_, reaches_of_replay hrun, fun h => ?_⟩
  obtain ⟨response, hresponse, -⟩ := h.2 ⟨rfl, rfl⟩ ⟨0, "count", ()⟩ List.mem_cons_self
  cases hresponse

end RddActor

end Idgs.Rdd.BaseRddActor

