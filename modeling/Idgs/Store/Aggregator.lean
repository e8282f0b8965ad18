import Mathlib.Data.UInt
import Idgs.Store.Replicas

/-!
# Aggregators

A request that concerns every store member is fanned out by an actor of its own, which collects the
answers and responds to the client once all are there. `DataAggregatorActor` serves the writes to
replicated stores, truncation and the count of a partitioned store, `StoreSchemaAggrActor` the
changes of the schema.
-/

namespace Idgs.Store

open List

open Cluster (Member)

/-- `pb::StoreResultCode`. -/
inductive StoreResultCode
  | success | parseConfigError | keyExist | keyNotExist | versionConflict | schemaNotFound
  | storeNotFound | storeExisted | dataNotFound | partitionNotFound | partitionNotReady | invalidKey
  | invalidValue | invalidFilter | invalidListenerInfo | notLocalStore | notSupport | unknownError
deriving DecidableEq

namespace Aggregator

/-- The operations that an aggregator serves. -/
inductive Operation
  | insert | update | delete | truncate | count
  | createSchema | dropSchema | createStore | dropStore
deriving DecidableEq

/-- A member's answer: `sourceMemberId`, `result_code` and, in a `SizeResponse`, `size`. -/
structure Answer where
  sourceMemberId : ℤ
  resultCode : StoreResultCode
  size : UInt64 := 0
deriving DecidableEq

/-- The response to the client; only a successful count has a size. -/
structure Response where
  operation : Operation
  resultCode : StoreResultCode
  size : Option UInt64 := none
deriving DecidableEq

/-- The fields of `AggregatorActor` and its subclasses. -/
structure AggregatorActor where
  requestCount : ℕ := 0
  responseCount : ℕ := 0
  resultCode : StoreResultCode
  dataSizeMap : AList fun _ : ℤ => UInt64 := ∅

namespace AggregatorActor

/-- `AggregatorActor::multicast`: the counters are reset and the members asked are counted. -/
def multicast (members : List Member) (a : AggregatorActor) : AggregatorActor × List ℤ :=
  ({ a with requestCount := (Replicas.multicast members).length, responseCount := 0 },
    Replicas.multicast members)

/-- The handlers of the client's request. They set `resultCode`, except for `handleGlobalCount`, and
those of `StoreSchemaAggrActor`, whose constructor has set it. -/
def handleRequest (op : Operation) (members : List Member) (a : AggregatorActor) :
    AggregatorActor × List ℤ :=
  match op with
  | .insert | .update | .delete | .truncate => { a with resultCode := .success }.multicast members
  | .count | .createSchema | .dropSchema | .createStore | .dropStore => a.multicast members

/-- `StoreSchemaAggrActor::handleMemberResponse`, and likewise the handlers of `DataAggregatorActor`
for the answers to an insert, update, delete or truncation. -/
def handleMemberResponse (op : Operation) (x : Answer) (a : AggregatorActor) :
    AggregatorActor × Option Response :=
  let a := { a with
    resultCode := if x.resultCode ≠ .success then x.resultCode else a.resultCode
    responseCount := a.responseCount + 1 }
  if a.requestCount = a.responseCount then (a, some { operation := op, resultCode := a.resultCode })
  else (a, none)

/-- `DataAggregatorActor::handleInsertResponse`. -/
def handleInsertResponse := handleMemberResponse .insert

/-- `DataAggregatorActor::handleUpdateResponse`. -/
def handleUpdateResponse := handleMemberResponse .update

/-- `DataAggregatorActor::handleDeleteResponse`. -/
def handleDeleteResponse := handleMemberResponse .delete

/-- `DataAggregatorActor::handleTruncateResponse`. -/
def handleTruncateResponse := handleMemberResponse .truncate

/-- `StoreSchemaAggrActor::handleCreateSchemaResponse`. -/
def handleCreateSchemaResponse := handleMemberResponse .createSchema

/-- `StoreSchemaAggrActor::handleDropSchemaResponse`. -/
def handleDropSchemaResponse := handleMemberResponse .dropSchema

/-- `StoreSchemaAggrActor::handleCreateStoreResponse`. -/
def handleCreateStoreResponse := handleMemberResponse .createStore

/-- `StoreSchemaAggrActor::handleDropStoreResponse`. -/
def handleDropStoreResponse := handleMemberResponse .dropStore

/-- The sizes added up, in `size_t`. -/
def totalSize (m : AList fun _ : ℤ => UInt64) : UInt64 := (m.entries.map Sigma.snd).sum

/-- `DataAggregatorActor::handleCountResponse`. -/
def handleCountResponse (x : Answer) (a : AggregatorActor) : AggregatorActor × Option Response :=
  let a := { a with
    resultCode := if x.resultCode ≠ .success then x.resultCode else a.resultCode
    dataSizeMap := a.dataSizeMap.insert x.sourceMemberId x.size }
  if a.dataSizeMap.entries.length = a.requestCount then
    if a.resultCode ≠ .success then (a, some { operation := .count, resultCode := a.resultCode })
    else
      (a, some
        { operation := .count, resultCode := .success, size := some (totalSize a.dataSizeMap) })
  else (a, none)

/-- The handler maps. -/
def handleAnswer (op : Operation) : Answer → AggregatorActor → AggregatorActor × Option Response :=
  match op with
  | .insert => handleInsertResponse
  | .update => handleUpdateResponse
  | .delete => handleDeleteResponse
  | .truncate => handleTruncateResponse
  | .count => handleCountResponse
  | .createSchema => handleCreateSchemaResponse
  | .dropSchema => handleDropSchemaResponse
  | .createStore => handleCreateStoreResponse
  | .dropStore => handleDropStoreResponse

end AggregatorActor

/-- A new actor. No constructor of `DataAggregatorActor` sets `resultCode`: `uninitialised` is what
its memory holds. -/
def newActor (op : Operation) (uninitialised : StoreResultCode) : AggregatorActor :=
  match op with
  | .insert | .update | .delete | .truncate | .count => { resultCode := uninitialised }
  | .createSchema | .dropSchema | .createStore | .dropStore => { resultCode := .success }

/-- One request of a client: the actor that serves it, the requests to members under way, the
answers under way, and what has happened so far: the members asked, the answers handled, the members
that left before their answer arrived, and the responses to the client. -/
structure State where
  actor : Option AggregatorActor := none
  requests : List ℤ := []
  answers : List Answer := []
  asked : List ℤ := []
  handled : List Answer := []
  lost : List ℤ := []
  responses : List Response := []

/-- Steps: the actor handles the client's request, the member of the `i`th request answers, the
actor handles the `i`th answer, a member leaves. -/
inductive Step
  | request
  | answer (i : ℕ) (code : StoreResultCode) (size : UInt64)
  | handle (i : ℕ)
  | leave (memberId : ℤ)

/-- One step. A response ends the actor: later answers reach nobody. -/
def step (op : Operation) (uninitialised : StoreResultCode) (members : List Member) (s : State) :
    Step → Option State
  | .request =>
    match s.actor with
    | some _ => none
    | none =>
      let r := (newActor op uninitialised).handleRequest op members
      some { s with actor := some r.1, requests := r.2, asked := r.2 }
  | .answer i code size =>
    match s.requests[i]? with
    | none => none
    | some memberId =>
      some { s with
        requests := s.requests.eraseIdx i, answers := s.answers ++ [⟨memberId, code, size⟩] }
  | .handle i =>
    match s.actor, s.answers[i]? with
    | some a, some x =>
      if s.responses ≠ [] then some { s with answers := s.answers.eraseIdx i }
      else
        let r := AggregatorActor.handleAnswer op x a
        some { s with
          actor := some r.1, answers := s.answers.eraseIdx i, handled := s.handled ++ [x]
          responses := r.2.toList }
    | _, _ => none
  | .leave memberId =>
    some { s with
      requests := s.requests.filter (· ≠ memberId)
      answers := s.answers.filter (·.sourceMemberId ≠ memberId)
      lost := s.lost ++ s.requests.filter (· = memberId) ++
        (s.answers.filter (·.sourceMemberId = memberId)).map Answer.sourceMemberId }

/-- The request has been handled and nothing is under way any more. -/
structure Settled (s : State) : Prop where
  started : s.actor.isSome = true
  requests : s.requests = []
  answers : s.answers = []

/-- Every member that was asked has answered success. -/
def AllSucceeded (s : State) : Prop :=
  ∀ m ∈ s.asked, (∃ x ∈ s.handled, x.sourceMemberId = m) ∧
    ∀ x ∈ s.handled, x.sourceMemberId = m → x.resultCode = .success

/-- The sum of the sizes answered. -/
def sumOfSizes (s : State) : ℕ := (s.handled.map fun x => x.size.toNat).sum

/-- The client gets exactly one response: success if every member asked has answered success, and
then for a count the sum of the sizes. -/
def Truthful (op : Operation) (s : State) : Prop :=
  ∃ r, s.responses = [r] ∧ r.operation = op ∧ (r.resultCode = .success ↔ AllSucceeded s) ∧
    (op = .count → (r.resultCode = .success → r.size.isSome = true) ∧
      ∀ size ∈ r.size, size.toNat = sumOfSizes s)

/-- Some member is asked and none leaves before its answer is there; and for a count, whose actor
starts with whatever `resultCode` its memory holds, the members have ids of their own and the sizes
fit, unless some member answers an error. -/
def Answerable (op : Operation) (uninitialised : StoreResultCode) (s : State) : Prop :=
  s.asked ≠ [] ∧ s.lost = [] ∧
    (op = .count → s.asked.Nodup ∧ ((∃ x ∈ s.handled, x.resultCode ≠ .success) ∨
      uninitialised = .success ∧ sumOfSizes s < 2 ^ 64))

/-! ## What the actor has collected -/

/-- The fields after an answer: the code of the last error, and either the number of answers or the
sizes by member. -/
def collect (op : Operation) (x : Answer) (a : AggregatorActor) : AggregatorActor :=
  { requestCount := a.requestCount
    responseCount := if op = .count then a.responseCount else a.responseCount + 1
    resultCode := if x.resultCode ≠ .success then x.resultCode else a.resultCode
    dataSizeMap := if op = .count then a.dataSizeMap.insert x.sourceMemberId x.size
      else a.dataSizeMap }

/-- The test with which a handler decides that all answers are there. -/
def Finished (op : Operation) (a : AggregatorActor) : Prop :=
  if op = .count then a.dataSizeMap.entries.length = a.requestCount
  else a.requestCount = a.responseCount

instance (op : Operation) (a : AggregatorActor) : Decidable (Finished op a) := by
  unfold Finished
  infer_instance

/-- The response that the actor gives then. -/
def respond (op : Operation) (a : AggregatorActor) : Response :=
  { operation := op, resultCode := a.resultCode
    size := if op = .count ∧ a.resultCode = .success then
      some (AggregatorActor.totalSize a.dataSizeMap)
      else none }

theorem handleMemberResponse_eq {op : Operation} (hop : op ≠ .count) (x : Answer)
    (a : AggregatorActor) :
    AggregatorActor.handleMemberResponse op x a =
      (collect op x a, if Finished op (collect op x a) then some (respond op (collect op x a))
        else none) := by
  have hcollect : collect op x a = { a with
      resultCode := if x.resultCode ≠ .success then x.resultCode else a.resultCode
      responseCount := a.responseCount + 1 } := by
    simp only [collect, if_neg hop]
  rw [hcollect]
  simp only [AggregatorActor.handleMemberResponse, Finished, respond, hop, if_false, false_and]
  split <;> rfl

theorem handleCountResponse_eq (x : Answer) (a : AggregatorActor) :
    AggregatorActor.handleCountResponse x a = (collect .count x a,
      if Finished .count (collect .count x a) then some (respond .count (collect .count x a))
      else none) := by
  show (if (collect .count x a).dataSizeMap.entries.length = (collect .count x a).requestCount then
      if (collect .count x a).resultCode ≠ .success then
        (collect .count x a, some (Response.mk .count (collect .count x a).resultCode none))
      else
        (collect .count x a, some (Response.mk .count .success
          (some (AggregatorActor.totalSize (collect .count x a).dataSizeMap))))
    else (collect .count x a, none)) = _
  generalize collect .count x a = a'
  by_cases hcode : a'.resultCode = .success
  · simp only [Finished, respond, hcode, if_true, and_self, ne_eq, not_true_eq_false, if_false]
    split <;> rfl
  · simp only [Finished, respond, hcode, if_true, and_false, ne_eq, not_false_eq_true, if_false]
    split <;> rfl

/-- What handling an answer does, and when the client gets its response. -/
theorem handleAnswer_eq (op : Operation) (x : Answer) (a : AggregatorActor) :
    AggregatorActor.handleAnswer op x a =
      (collect op x a, if Finished op (collect op x a) then some (respond op (collect op x a))
        else none) := by
  cases op with
  | count => exact handleCountResponse_eq x a
  | _ => exact handleMemberResponse_eq (by rintro ⟨⟩) x a

/-- The actor when the client's request has been handled. -/
def started (op : Operation) (uninitialised : StoreResultCode) (members : List Member) :
    AggregatorActor :=
  ((newActor op uninitialised).handleRequest op members).1

/-- The actor after the client's request and the answers `xs`. -/
def collected (op : Operation) (uninitialised : StoreResultCode) (members : List Member)
    (xs : List Answer) : AggregatorActor :=
  xs.foldl (fun a x => collect op x a) (started op uninitialised members)

section Collected

variable {op : Operation} {uninitialised : StoreResultCode} {members : List Member}

theorem collected_append (xs : List Answer) (x : Answer) :
    collected op uninitialised members (xs ++ [x]) = collect op x
    (collected op uninitialised members xs) := by
  simp only [collected, foldl_append, foldl_cons, foldl_nil]

theorem started_counts :
    (started op uninitialised members).requestCount = (Replicas.multicast members).length ∧
    (started op uninitialised members).responseCount = 0 ∧
    (started op uninitialised members).dataSizeMap = ∅ := by
  cases op <;> exact ⟨rfl, rfl, rfl⟩

/-- Only the count starts with a result code that nobody has set. -/
theorem started_resultCode : (started op uninitialised members).resultCode =
    if op = .count then uninitialised else .success := by
  cases op <;> rfl

theorem collected_requestCount (xs : List Answer) :
    (collected op uninitialised members xs).requestCount = (Replicas.multicast members).length := by
  induction xs using List.reverseRecOn with
  | nil => exact started_counts.1
  | append_singleton xs x ih =>
    rw [collected_append]
    exact ih

theorem collected_responseCount (hop : op ≠ .count) (xs : List Answer) :
    (collected op uninitialised members xs).responseCount = xs.length := by
  induction xs using List.reverseRecOn with
  | nil => exact started_counts.2.1
  | append_singleton xs x ih =>
    rw [collected_append, length_append, length_singleton]
    simp only [collect, if_neg hop, ih]

/-- The code is success when it was at the start and all answers are. -/
theorem collected_resultCode (xs : List Answer) :
    (collected op uninitialised members xs).resultCode = .success ↔
      (op = .count → uninitialised = .success) ∧ ∀ x ∈ xs, x.resultCode = .success := by
  induction xs using List.reverseRecOn with
  | nil =>
    rw [show collected op uninitialised members [] = started op uninitialised members from rfl,
      started_resultCode]
    by_cases hop : op = .count
    · simp [hop]
    · simp [hop]
  | append_singleton xs x ih =>
    rw [collected_append]
    by_cases hx : x.resultCode = .success
    · simp only [collect, hx, ne_eq, not_true_eq_false, if_false, ih, mem_append, mem_singleton]
      refine and_congr_right fun _ => ⟨fun hall y hy => ?_, fun hall y hy => hall y (.inl hy)⟩
      rcases hy with hy | rfl
      · exact hall y hy
      · exact hx
    · simp only [collect, hx, ne_eq, not_false_eq_true, if_true, false_iff, not_and]
      intro _ hall
      exact hx (hall x (mem_append_right _ (mem_singleton_self x)))

/-- A count keeps one size for each member that has answered. -/
theorem collected_keys (xs : List Answer) (m : ℤ) :
    m ∈ (collected .count uninitialised members xs).dataSizeMap ↔
      m ∈ xs.map Answer.sourceMemberId := by
  induction xs using List.reverseRecOn with
  | nil =>
    rw [show collected .count uninitialised members [] =
      started .count uninitialised members from rfl,
      started_counts.2.2]
    simp
  | append_singleton xs x ih =>
    rw [collected_append]
    simp only [collect, if_true, AList.mem_insert, ih, map_append, map_cons,
      map_nil, mem_append, mem_singleton]
    exact or_comm

theorem collected_size (xs : List Answer) :
    (collected .count uninitialised members xs).dataSizeMap.entries.length =
      (xs.map Answer.sourceMemberId).dedup.length := by
  have hperm : (collected .count uninitialised members xs).dataSizeMap.keys.Perm
      (xs.map Answer.sourceMemberId).dedup := by
    refine (perm_ext_iff_of_nodup (AList.keys_nodup _) (nodup_dedup _)).mpr fun m => ?_
    rw [mem_dedup, ← AList.mem_keys]
    exact collected_keys xs m
  rw [← hperm.length_eq, AList.keys, List.keys, length_map]

/-- The sizes of members that have answered once are added up, in `size_t`. -/
theorem collected_totalSize {xs : List Answer} (hxs : (xs.map Answer.sourceMemberId).Nodup) :
    (AggregatorActor.totalSize (collected .count uninitialised members xs).dataSizeMap).toNat =
      (xs.map fun x => x.size.toNat).sum % 2 ^ 64 := by
  induction xs using List.reverseRecOn with
  | nil =>
    rw [show collected .count uninitialised members [] =
      started .count uninitialised members from rfl,
      started_counts.2.2]
    rfl
  | append_singleton xs x ih =>
    rw [map_append, nodup_append] at hxs
    obtain ⟨hnodup, -, hdisjoint⟩ := hxs
    have hfresh : x.sourceMemberId ∉ (collected .count uninitialised members xs).dataSizeMap := by
      rw [collected_keys]
      intro hmem
      exact hdisjoint _ hmem _ (mem_singleton_self _) rfl
    rw [collected_append]
    simp only [collect, if_true, AggregatorActor.totalSize, AList.entries_insert_of_notMem hfresh,
      map_cons, sum_cons, UInt64.toNat_add, map_append, sum_append,
      map_nil, sum_nil]
    have hrest := ih hnodup
    rw [AggregatorActor.totalSize] at hrest
    rw [hrest]
    omega

/-- All answers are there: for a count this also takes members with ids of their own. -/
theorem finished_collected {xs : List Answer}
    (hxs : xs.length ≤ (Replicas.multicast members).length) :
    Finished op (collected op uninitialised members xs) ↔
      xs.length = (Replicas.multicast members).length ∧
        (op = .count → (xs.map Answer.sourceMemberId).Nodup) := by
  by_cases hop : op = .count
  · subst hop
    have hsub := dedup_sublist (xs.map Answer.sourceMemberId)
    have hle := hsub.length_le
    rw [length_map] at hle
    simp only [Finished, if_true, collected_size, collected_requestCount, true_imp_iff]
    constructor
    · intro hcount
      have hlength : (xs.map Answer.sourceMemberId).dedup.length = xs.length := by omega
      refine ⟨by omega, ?_⟩
      rw [← hsub.eq_of_length (by rw [hlength, length_map])]
      exact nodup_dedup _
    · rintro ⟨hlength, hnodup⟩
      rw [hnodup.dedup, length_map, hlength]
  · simp only [Finished, collected_requestCount, collected_responseCount hop, hop, false_imp_iff,
      and_true]
    exact eq_comm

end Collected

/-! ## Runs -/

/-- The answers of all members asked have been handled, and can be told apart where that matters. -/
def Complete (op : Operation) (s : State) : Prop :=
  s.handled ≠ [] ∧ s.handled.length = s.asked.length ∧
    (op = .count → (s.handled.map Answer.sourceMemberId).Nodup)

/-- The actor is determined by the answers handled; every member asked is in one place; and the
client has its response exactly when all answers are there. -/
structure Inv (op : Operation) (uninitialised : StoreResultCode) (members : List Member)
    (s : State) :
    Prop where
  idle : s.actor = none → s.requests = [] ∧ s.answers = [] ∧ s.lost = [] ∧ s.handled = [] ∧
    s.asked = []
  actor : ∀ a, s.actor = some a →
    a = collected op uninitialised members s.handled ∧ s.asked = Replicas.multicast members
  conserved : s.asked.Perm (s.requests ++ (s.answers.map Answer.sourceMemberId ++
    (s.handled.map Answer.sourceMemberId ++ s.lost)))
  responded : Complete op s →
    s.responses = [respond op (collected op uninitialised members s.handled)]
  silent : ¬ Complete op s → s.responses = []

section Steps

variable {op : Operation} {uninitialised : StoreResultCode} {members : List Member} {s s' : State}

theorem inv_init : Inv op uninitialised members {} where
  idle := fun _ => ⟨rfl, rfl, rfl, rfl, rfl⟩
  actor := by rintro _ ⟨⟩
  conserved := List.Perm.refl _
  responded := fun h => absurd rfl h.1
  silent := fun _ => rfl

section

variable (h : Inv op uninitialised members s)

include h

theorem Inv.length :
    s.asked.length = s.requests.length + s.answers.length + s.handled.length + s.lost.length := by
  have hlength := h.conserved.length_eq
  simp only [length_append, length_map] at hlength
  omega

/-- The client's request: nobody has answered yet. -/
theorem Inv.request (hstep : step op uninitialised members s .request = some s') :
    Inv op uninitialised members s' := by
  simp only [step] at hstep
  split at hstep
  · cases hstep
  · rename_i hactor
    cases hstep
    obtain ⟨-, hanswers, hlost, hhandled, hasked⟩ := h.idle hactor
    have hrequests : ((newActor op uninitialised).handleRequest op members).2 =
        Replicas.multicast members := by
      cases op <;> rfl
    have hincomplete : ¬ Complete op s := fun hc => hc.1 hhandled
    refine ⟨by rintro ⟨⟩, ?_, ?_, fun hc => absurd hhandled hc.1, fun _ => h.silent hincomplete⟩
    · rintro a ⟨⟩
      rw [hhandled]
      exact ⟨rfl, hrequests⟩
    · rw [hanswers, hhandled, hlost]
      simp

/-- Moving one of the members asked from one place to another. -/
theorem Inv.moved {requests : List ℤ} {answers : List Answer} {lost : List ℤ}
    (hperm : (s.requests ++ (s.answers.map Answer.sourceMemberId ++ s.lost)).Perm
      (requests ++ (answers.map Answer.sourceMemberId ++ lost)))
    (hidle : s.actor = none → requests = [] ∧ answers = [] ∧ lost = []) :
    Inv op uninitialised members
    { s with requests := requests, answers := answers, lost := lost } where
  idle := by
    intro hactor
    obtain ⟨-, -, -, hhandled, hasked⟩ := h.idle hactor
    obtain ⟨hrequests, hanswers, hlost⟩ := hidle hactor
    exact ⟨hrequests, hanswers, hlost, hhandled, hasked⟩
  actor := h.actor
  conserved := by
    refine h.conserved.trans (perm_iff_count.mpr fun m => ?_)
    have hcount := perm_iff_count.mp hperm m
    simp only [count_append] at hcount ⊢
    omega
  responded := h.responded
  silent := h.silent

/-- A member answers. -/
theorem Inv.answer {i : ℕ} {code : StoreResultCode} {size : UInt64}
    (hstep : step op uninitialised members s (.answer i code size) = some s') :
    Inv op uninitialised members s' := by
  simp only [step] at hstep
  split at hstep
  · cases hstep
  · rename_i m hm
    cases hstep
    refine h.moved ?_ fun hactor => ?_
    · obtain ⟨hi, rfl⟩ := List.getElem?_eq_some_iff.mp hm
      refine perm_iff_count.mpr fun m => ?_
      have hcount := perm_iff_count.mp (getElem_cons_eraseIdx_perm hi) m
      simp only [count_append, map_append, map_cons, map_nil, count_cons, count_nil] at hcount ⊢
      omega
    · rw [(h.idle hactor).1] at hm
      cases hm

/-- A member leaves. -/
theorem Inv.leave {m : ℤ} (hstep : step op uninitialised members s (.leave m) = some s') :
    Inv op uninitialised members s' := by
  simp only [step] at hstep
  cases hstep
  refine h.moved (perm_iff_count.mpr fun m' => ?_) fun hactor => ?_
  · have hrequests := (filter_append_perm (fun r => decide (r = m)) s.requests).count_eq m'
    have hanswers := ((filter_append_perm (fun x : Answer => decide (x.sourceMemberId = m))
      s.answers).map Answer.sourceMemberId).count_eq m'
    simp only [map_append, count_append, ne_eq, decide_not] at hrequests hanswers ⊢
    omega
  · obtain ⟨hrequests, hanswers, hlost, -⟩ := h.idle hactor
    rw [hrequests, hanswers, hlost]
    exact ⟨rfl, rfl, rfl⟩

/-- The actor handles an answer. It has not ended yet, since this answer was still missing. -/
theorem Inv.handle {i : ℕ} (hstep : step op uninitialised members s (.handle i) = some s') :
    Inv op uninitialised members s' := by
  simp only [step] at hstep
  split at hstep
  · rename_i a x hactor hx
    obtain ⟨hi, hget⟩ := List.getElem?_eq_some_iff.mp hx
    have hlength := h.length
    have hincomplete : ¬ Complete op s := by
      rintro ⟨-, hall, -⟩
      omega
    obtain ⟨ha, hasked⟩ := h.actor a hactor
    rw [if_neg (not_not.mpr (h.silent hincomplete)), handleAnswer_eq, ha,
      ← collected_append] at hstep
    cases hstep
    have hfinished : Finished op (collected op uninitialised members (s.handled ++ [x])) ↔
        (s.handled ++ [x]).length = s.asked.length ∧
          (op = .count → ((s.handled ++ [x]).map Answer.sourceMemberId).Nodup) := by
      rw [hasked]
      refine finished_collected ?_
      rw [← hasked, length_append, length_singleton]
      omega
    refine ⟨by rintro ⟨⟩, ?_, ?_, ?_, ?_⟩
    · rintro a' ⟨⟩
      exact ⟨rfl, hasked⟩
    · refine h.conserved.trans (perm_iff_count.mpr fun m => ?_)
      have hcount := ((getElem_cons_eraseIdx_perm hi).map Answer.sourceMemberId).count_eq m
      rw [hget] at hcount
      simp only [count_append, map_append, map_cons, map_nil, count_cons, count_nil] at hcount ⊢
      omega
    · rintro ⟨-, hall⟩
      simp only
      rw [if_pos (hfinished.mpr hall)]
      rfl
    · intro hnot
      simp only
      rw [if_neg fun hfin => hnot ⟨by simp, hfinished.mp hfin⟩]
      rfl
  · cases hstep

theorem Inv.step {a : Step}
    (hstep : step op uninitialised members s a = some s') : Inv op uninitialised members s' := by
  cases a with
  | request => exact h.request hstep
  | answer i code size => exact h.answer hstep
  | handle i => exact h.handle hstep
  | leave m => exact h.leave hstep

/-- With nothing under way, the members asked are those whose answers were handled and those
lost. -/
theorem Inv.settled (hs : Settled s) :
    s.asked.Perm (s.handled.map Answer.sourceMemberId ++ s.lost) := by
  have hperm := h.conserved
  rw [hs.requests, hs.answers] at hperm
  exact hperm

theorem Inv.complete_iff (hs : Settled s) :
    Complete op s ↔ s.asked ≠ [] ∧ s.lost = [] ∧ (op = .count → s.asked.Nodup) := by
  have hperm := h.settled hs
  have hlength := hperm.length_eq
  rw [length_append, length_map] at hlength
  constructor
  · rintro ⟨hne, hall, hnodup⟩
    have hlost : s.lost = [] := eq_nil_of_length_eq_zero (by omega)
    rw [hlost, append_nil] at hperm
    refine ⟨?_, hlost, fun hop => hperm.nodup_iff.mpr (hnodup hop)⟩
    intro hasked
    rw [hasked, length_nil] at hall
    exact hne (eq_nil_of_length_eq_zero hall)
  · rintro ⟨hne, hlost, hnodup⟩
    rw [hlost, append_nil] at hperm
    rw [hlost, length_nil] at hlength
    refine ⟨?_, by omega, fun hop => hperm.nodup_iff.mp (hnodup hop)⟩
    intro hhandled
    rw [hhandled, length_nil] at hlength
    exact hne (eq_nil_of_length_eq_zero hlength)

/-- When no answer was lost, every member asked has answered success if all answers say so. -/
theorem Inv.allSucceeded_iff (hs : Settled s) (hlost : s.lost = []) :
    AllSucceeded s ↔ ∀ x ∈ s.handled, x.resultCode = .success := by
  have hperm := h.settled hs
  rw [hlost, append_nil] at hperm
  constructor
  · intro hall x hx
    have hmem : x.sourceMemberId ∈ s.asked := hperm.mem_iff.mpr (mem_map_of_mem hx)
    exact (hall _ hmem).2 x hx rfl
  · intro hall m hm
    obtain ⟨x, hx, rfl⟩ := mem_map.mp (hperm.mem_iff.mp hm)
    exact ⟨⟨x, hx, rfl⟩, fun y hy _ => hall y hy⟩

/-- What the client is told when all answers are there. -/
theorem truthful_of_complete (hs : Settled s) (hc : Complete op s) :
    Truthful op s ↔ (op = .count → (∃ x ∈ s.handled, x.resultCode ≠ .success) ∨
      uninitialised = .success ∧ sumOfSizes s < 2 ^ 64) := by
  have hresponse := h.responded hc
  have hlost := ((h.complete_iff hs).mp hc).2.1
  have hcode : (collected op uninitialised members s.handled).resultCode = .success ↔
      (op = .count → uninitialised = .success) ∧ ∀ x ∈ s.handled, x.resultCode = .success :=
    collected_resultCode s.handled
  have hall := h.allSucceeded_iff hs hlost
  constructor
  · rintro ⟨r, hr, -, hsuccess, hsize⟩ hop
    rw [hresponse] at hr
    obtain rfl := singleton_inj.mp hr
    by_cases hfail : ∃ x ∈ s.handled, x.resultCode ≠ .success
    · exact .inl hfail
    · push Not at hfail
      have hok := hsuccess.mpr (hall.mpr hfail)
      refine .inr ⟨(hcode.mp hok).1 hop, ?_⟩
      have hsum := (hsize hop).2 _ (by rw [respond, if_pos ⟨hop, hok⟩]; rfl)
      rw [← hsum]
      exact UInt64.toNat_lt _
  · intro hcount
    refine ⟨_, hresponse, rfl, ?_, fun hop => ⟨fun hok => ?_, fun size hsize => ?_⟩⟩
    · rw [hall]
      refine hcode.trans ⟨fun hok => hok.2, fun hok => ⟨fun hop => ?_, hok⟩⟩
      rcases hcount hop with ⟨x, hx, hfail⟩ | ⟨hinit, -⟩
      · exact absurd (hok x hx) hfail
      · exact hinit
    · rw [respond, if_pos ⟨hop, hok⟩]
      rfl
    · by_cases hok : (collected op uninitialised members s.handled).resultCode = .success
      · rw [respond, if_pos ⟨hop, hok⟩] at hsize
        obtain rfl := Option.some.inj hsize
        subst hop
        rw [collected_totalSize (hc.2.2 rfl)]
        rcases hcount rfl with ⟨x, hx, hfail⟩ | ⟨-, hsum⟩
        · exact absurd ((hcode.mp hok).2 x hx) hfail
        · exact Nat.mod_eq_of_lt hsum
      · rw [respond, if_neg fun hand => hok hand.2] at hsize
        cases hsize

end

end Steps

/-- In every run that has come to its end, the client has exactly one response and it is right, if
and only if some member was asked, none was lost, and a count could be told. -/
theorem truthful_iff_answerable {op : Operation} {uninitialised : StoreResultCode}
    {members : List Member}
    {s : State} (hrun : Common.Reaches (step op uninitialised members) Common.anyStep {} s)
    (hs : Settled s) : Truthful op s ↔ Answerable op uninitialised s := by
  have h : Inv op uninitialised members s :=
    hrun.invariant (P := Inv op uninitialised members) inv_init fun _ _ _ h _ hstep => h.step hstep
  by_cases hc : Complete op s
  · obtain ⟨hasked, hlost, hnodup⟩ := (h.complete_iff hs).mp hc
    refine (truthful_of_complete h hs hc).trans ⟨fun hcount => ?_, fun hans hop => (hans.2.2 hop).2⟩
    exact ⟨hasked, hlost, fun hop => ⟨hnodup hop, hcount hop⟩⟩
  · constructor
    · rintro ⟨r, hr, -⟩
      rw [h.silent hc] at hr
      cases hr
    · rintro ⟨hasked, hlost, hcount⟩
      exact absurd ((h.complete_iff hs).mpr ⟨hasked, hlost, fun hop => (hcount hop).1⟩) hc

/-- A count over two members, the second of which answers first. -/
def countOfTwo : List Step :=
  [.request, .answer 1 .success 4, .answer 0 .success 3, .handle 0, .handle 0]

theorem truthful_iff_answerable_countOfTwo : ∃ s,
    Common.Reaches (step .count .success Replicas.twoMembers) Common.anyStep {} s ∧ Settled s ∧
      s.responses = [⟨.count, .success, some 7⟩] ∧
      (Truthful .count s ↔ Answerable .count .success s) := by
  have hbool :
      (Common.replay (step .count .success Replicas.twoMembers) Common.anyStep {} countOfTwo).any
      (fun s => s.actor.isSome && s.requests.isEmpty && s.answers.isEmpty &&
        s.responses == [⟨.count, .success, some 7⟩]) = true := by
    decide +kernel
  obtain ⟨s, hs, hend⟩ := (Option.any_eq_true _ _).mp hbool
  simp only [Bool.and_eq_true, List.isEmpty_iff, beq_iff_eq] at hend
  obtain ⟨⟨⟨hactor, hrequests⟩, hanswers⟩, hresponses⟩ := hend
  have hrun := Common.reaches_of_replay hs
  exact ⟨s, hrun, ⟨hactor, hrequests, hanswers⟩, hresponses,
    truthful_iff_answerable hrun ⟨hactor, hrequests, hanswers⟩⟩

/-- A schema that is created on a cluster without a store member: the client never gets a
response. -/
theorem not_truthful_of_run : ¬ ∀ s,
    Common.Reaches
    (step .createSchema .success [{ localStore := false, id := 0, state := .active }])
      Common.anyStep {} s → Settled s → Truthful .createSchema s := by
  intro hall
  have hstep : step .createSchema .success [{ localStore := false, id := 0, state := .active }] {}
      .request =
      some { actor := some { resultCode := .success } } := rfl
  obtain ⟨r, hr, -⟩ := hall _ (.tail _ .refl trivial hstep) ⟨rfl, rfl, rfl⟩
  cases hr

end Aggregator

end Idgs.Store
