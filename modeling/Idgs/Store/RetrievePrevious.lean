import Idgs.Store.Aggregator
import Idgs.Store.DataMap

/-!
# Retrieving the previous value

A write request may ask for the value that the key had before. The primary member applies the write
to its map, which hands that value back, and sends the request on to its listener manager, which
runs the listeners of the store and responds. For a replicated store the response goes to an
aggregator, which responds to the client.
-/

namespace Idgs.Store.Previous

open DataMap (Operation Result)

variable {κ ν : Type*}

/-! ## Requests -/

/-- `StoreRequestOption::RETRIEVE_PREVIOUS`. -/
def RETRIEVE_PREVIOUS : UInt32 := 1

/-- An `InsertRequest`, `UpdateRequest` or `DeleteRequest` with its key and value. For a replicated
store the other members answer the aggregator too, some `before` the primary member and some `after`
it. -/
structure StoreRequest (κ ν : Type*) where
  request : Request κ ν
  options : UInt32 := 0
  before : List StoreResultCode := []
  after : List StoreResultCode := []
deriving DecidableEq

/-- The option is set. -/
def StoreRequest.Asks (r : StoreRequest κ ν) : Prop := r.options &&& RETRIEVE_PREVIOUS ≠ 0

instance (r : StoreRequest κ ν) : Decidable r.Asks :=
  inferInstanceAs (Decidable (r.options &&& RETRIEVE_PREVIOUS ≠ 0))

/-- The operation on the map: `Store::put` or `Store::remove`. -/
def StoreRequest.operation (r : StoreRequest κ ν) : Operation κ ν :=
  match r.request with
  | .insert key value => .set key value
  | .update key value => .set key value
  | .delete key => .remove key

/-! ## The store service -/

/-- `StoreServiceActor::getResultCode`. -/
def getResultCode : ResultCode → StoreResultCode
  | .success => .success
  | .dataNotFound => .dataNotFound
  | .notSupport => .unknownError

/-- What the store service sends: a response of its own, or the request to the listener manager,
with the attachment `STORE_ATTACH_LAST_VALUE` if it is set. -/
inductive Sent (ν : Type*)
  | response (code : StoreResultCode)
  | listener (code : StoreResultCode) (lastValue : Option (Option ν))

/-- `BasicDataMap::set` swaps the value with the one that was there. -/
def swapped (value : ν) (result : Result ν) : Option ν := some (result.2.getD value)

/-- The attachment of `handleLocalUpdate` and `handleLocalDelete`, set when there is no value. -/
def lastValueAttachment (r : StoreRequest κ ν) (storeValue : Option ν) : Option (Option ν) :=
  if r.Asks then if storeValue.isNone then some storeValue else none else none

/-- `StoreServiceActor::realInsert` after `put`. -/
def realInsert (result : Result ν) : Sent ν :=
  if result.1 ≠ .success then .response (getResultCode result.1) else .listener .success none

/-- `StoreServiceActor::handleLocalUpdate` after `put`. -/
def handleLocalUpdate (r : StoreRequest κ ν) (value : ν) (result : Result ν) : Sent ν :=
  if result.1 ≠ .success then .response (getResultCode result.1)
  else .listener .success (lastValueAttachment r (swapped value result))

/-- `StoreServiceActor::handleLocalDelete` after `remove`. -/
def handleLocalDelete (r : StoreRequest κ ν) (result : Result ν) : Sent ν :=
  if result.1 ≠ .success then .response (getResultCode result.1)
  else .listener .success (lastValueAttachment r result.2)

/-- The handler of the request on the primary member, with the result of its operation. -/
def handleLocal (r : StoreRequest κ ν) (result : Result ν) : Sent ν :=
  match r.request with
  | .insert _ _ => realInsert result
  | .update _ value => handleLocalUpdate r value result
  | .delete _ => handleLocalDelete r result

/-! ## The listener manager -/

/-- `ListenerResultCode`. -/
inductive ListenerResultCode
  | lrcContinue | lrcBreak | lrcEnd | lrcError
deriving DecidableEq

/-- `ListenerContext`, with what the response is made of; a new one has no last value. -/
structure ListenerContext (ν : Type*) where
  options : UInt32
  resultCode : StoreResultCode
  lastValue : Option ν := none

/-- The listeners: `BackupStoreListener`, with the replica count of the store, `RddStoreListener`,
and one that ends the chain. -/
inductive StoreListener
  | backup (replicaCount : ℤ)
  | rdd
  | test

/-- A listener of a write on the primary member. -/
def StoreListener.execute (isReplicated : Bool) (l : StoreListener) (ctx : ListenerContext ν) :
    ListenerResultCode × ListenerContext ν :=
  match l with
  | .backup replicaCount =>
    if isReplicated || replicaCount ≤ 1 then (.lrcContinue, ctx)
    else (.lrcContinue, { ctx with resultCode := .success })
  | .rdd => (.lrcContinue, ctx)
  | .test => (.lrcEnd, ctx)

/-- The loop over the listeners. Only `LRC_BREAK` leaves it, and then without a response: the
`break` of the other codes is one of the `switch`. -/
def runListeners (isReplicated : Bool) :
    List StoreListener → ListenerContext ν → Option (ListenerContext ν)
  | [], ctx => some ctx
  | l :: ls, ctx =>
    let r := l.execute isReplicated ctx
    if r.1 = .lrcBreak then none else runListeners isReplicated ls r.2

/-- The response and its attachment `STORE_ATTACH_LAST_VALUE`. -/
structure Response (ν : Type*) where
  resultCode : StoreResultCode
  lastValue : Option ν
deriving DecidableEq

/-- `ListenerManager::sendResponse`. -/
def sendResponse (ctx : ListenerContext ν) : Response ν where
  resultCode := ctx.resultCode
  lastValue := if ctx.resultCode = .success then ctx.lastValue else none

/-- `StoreConfig`: the partition type and the listeners. -/
structure StoreConfig where
  isReplicated : Bool := false
  listeners : List StoreListener := []

/-- `ListenerManager::handleListener`; it does not read the attachment of the last value. -/
def handleListener (c : StoreConfig) (options : UInt32) : Sent ν → Option (Response ν)
  | .response code => some { resultCode := code, lastValue := none }
  | .listener code _ =>
    (runListeners c.isReplicated c.listeners { options := options, resultCode := code }).map
      sendResponse

/-! ## The response to the client -/

/-- `DataAggregatorActor`: the last answer that is no success counts, and the response is a new
one. -/
def aggregate (r : StoreRequest κ ν) (primary : Response ν) : Response ν where
  resultCode := (r.before ++ primary.resultCode :: r.after).foldl
    (fun code answer => if answer ≠ .success then answer else code) .success
  lastValue := none

/-- The response to the client, from the result of the operation on the map. -/
def respond (c : StoreConfig) (r : StoreRequest κ ν) (result : Result ν) : Option (Response ν) :=
  let primary := handleListener c r.options (handleLocal r result)
  if c.isReplicated then primary.map (aggregate r) else primary

/-- A request on the map of its partition: the response and the map. -/
def handle [DecidableEq κ] (c : StoreConfig) (r : StoreRequest κ ν) (m : StoreMap κ ν) :
    Option (Response ν) × StoreMap κ ν :=
  let out := DataMap.applyMap r.operation m
  (respond c r out.1, out.2)

/-- A sequence of requests. -/
def run [DecidableEq κ] (c : StoreConfig) (rs : List (StoreRequest κ ν)) (m : StoreMap κ ν) :
    StoreMap κ ν :=
  rs.foldl (fun m r => (handle c r m).2) m

/-! ## What is promised -/

section Requests

variable [DecidableEq κ]

/-- The requests as writes of the library. -/
def writes (rs : List (StoreRequest κ ν)) : List (κ × Option ν) := rs.map fun r => r.request.write

/-- What the keys hold after some requests. -/
def heldAfter (m : StoreMap κ ν) (rs : List (StoreRequest κ ν)) : κ → Option ν :=
  Common.writeAll m.contents (writes rs)

/-- The response to `r`, after the requests `rs`, carries what the key held before, and the map then
holds exactly what was written. -/
def Retrieved (c : StoreConfig) (m : StoreMap κ ν) (rs : List (StoreRequest κ ν))
    (r : StoreRequest κ ν) : Prop :=
  ∃ response m', handle c r (run c rs m) = (some response, m') ∧
    response.lastValue = heldAfter m rs r.request.key ∧
    m'.contents = Function.update (heldAfter m rs) r.request.key r.request.written

/-- Every request of a sequence that asks for the previous value gets it. -/
def RetrievesPrevious (c : StoreConfig) (m : StoreMap κ ν) (rs : List (StoreRequest κ ν)) : Prop :=
  ∀ done r rest, rs = done ++ r :: rest → r.Asks → Retrieved c m done r

/-! ## The map -/

theorem contents_applyMap (r : StoreRequest κ ν) (m : StoreMap κ ν) :
    (DataMap.applyMap r.operation m).2.contents =
      Function.update m.contents r.request.key r.request.written := by
  obtain ⟨request, options, before, after⟩ := r
  cases request with
  | insert key value | update key value => exact StoreMap.contents_set m key value
  | delete key => exact StoreMap.contents_remove m key

theorem contents_handle (c : StoreConfig) (r : StoreRequest κ ν) (m : StoreMap κ ν) :
    (handle c r m).2.contents = Function.update m.contents r.request.key r.request.written :=
    contents_applyMap r m

/-- The map holds what the requests so far have written. -/
theorem contents_run (c : StoreConfig) (rs : List (StoreRequest κ ν)) (m : StoreMap κ ν) :
    (run c rs m).contents = heldAfter m rs := by
  induction rs generalizing m with
  | nil => rfl
  | cons r rs ih =>
    have hrest := ih (handle c r m).2
    rw [heldAfter, contents_handle] at hrest
    exact hrest

end Requests

/-! ## The response -/

/-- No listener breaks the chain, and none sets the last value. -/
theorem StoreListener.execute_ok (isReplicated : Bool) (l : StoreListener)
    (ctx : ListenerContext ν) :
    (l.execute isReplicated ctx).1 ≠ .lrcBreak ∧ (l.execute isReplicated ctx).2.lastValue =
      ctx.lastValue := by
  cases l with
  | backup replicaCount =>
    unfold StoreListener.execute
    by_cases hskip : isReplicated || replicaCount ≤ 1
    · simp [hskip]
    · simp [hskip]
  | rdd | test => simp [StoreListener.execute]

/-- The chain comes to its end without a last value. -/
theorem runListeners_lastValue (isReplicated : Bool) (ls : List StoreListener)
    (ctx : ListenerContext ν) :
    ∃ ctx', runListeners isReplicated ls ctx = some ctx' ∧ ctx'.lastValue = ctx.lastValue := by
  induction ls generalizing ctx with
  | nil => exact ⟨ctx, rfl, rfl⟩
  | cons l ls ih =>
    obtain ⟨hbreak, hlast⟩ := l.execute_ok isReplicated ctx
    obtain ⟨ctx', hrun, hctx'⟩ := ih (l.execute isReplicated ctx).2
    refine ⟨ctx', ?_, hctx'.trans hlast⟩
    simp only [runListeners]
    rw [if_neg hbreak]
    exact hrun

/-- The listener manager responds without a value. -/
theorem handleListener_lastValue (c : StoreConfig) (options : UInt32) (sent : Sent ν) :
    ∃ response, handleListener c options sent = some response ∧ response.lastValue = none := by
  cases sent with
  | response code => exact ⟨_, rfl, rfl⟩
  | listener code lastValue =>
    obtain ⟨ctx, hrun, hctx⟩ := runListeners_lastValue c.isReplicated c.listeners
      ({ options := options, resultCode := code } : ListenerContext ν)
    refine ⟨sendResponse ctx, ?_, ?_⟩
    · simp only [handleListener]
      rw [hrun]
      rfl
    · simp only [sendResponse]
      rw [hctx]
      split <;> rfl

/-- Every request is answered, and never with a value. -/
theorem respond_lastValue (c : StoreConfig) (r : StoreRequest κ ν) (result : Result ν) :
    ∃ response, respond c r result = some response ∧ response.lastValue = none := by
  obtain ⟨primary, hprimary, hlast⟩ := handleListener_lastValue c r.options (handleLocal r result)
  simp only [respond]
  rw [hprimary]
  by_cases hreplicated : c.isReplicated
  · exact ⟨aggregate r primary, by simp [hreplicated], rfl⟩
  · exact ⟨primary, by simp [hreplicated], hlast⟩

/-! ## When the previous value is retrieved -/

section Retrieved

variable [DecidableEq κ]

/-- A response carries the previous value exactly when there was none. -/
theorem retrieved_iff (c : StoreConfig) (m : StoreMap κ ν) (rs : List (StoreRequest κ ν))
    (r : StoreRequest κ ν) :
    Retrieved c m rs r ↔ heldAfter m rs r.request.key = none := by
  obtain ⟨response, hresponse, hlast⟩ :=
    respond_lastValue c r (DataMap.applyMap r.operation (run c rs m)).1
  have hhandle : handle c r (run c rs m) = (some response, (handle c r (run c rs m)).2) := by
    rw [← hresponse]
    rfl
  constructor
  · rintro ⟨response', m', hout, hvalue, -⟩
    rw [hhandle] at hout
    have hsame : response' = response := (Option.some.inj (Prod.mk.inj hout).1).symm
    rw [← hvalue, hsame, hlast]
  · intro hnone
    refine ⟨response, (handle c r (run c rs m)).2, hhandle, hlast.trans hnone.symm, ?_⟩
    rw [contents_handle, contents_run]

/-- A sequence of requests retrieves the previous values exactly when those that ask find no value:
what a store holds before the operation is swapped out and attached only if it is nothing, and the
listener manager attaches nothing. -/
theorem retrievesPrevious_iff (c : StoreConfig) (m : StoreMap κ ν) (rs : List (StoreRequest κ ν)) :
    RetrievesPrevious c m rs ↔
      ∀ done r rest, rs = done ++ r :: rest → r.Asks → heldAfter m done r.request.key = none := by
  constructor
  · intro hall done r rest hrs hasks
    exact (retrieved_iff c m done r).mp (hall done r rest hrs hasks)
  · intro hall done r rest hrs hasks
    exact (retrieved_iff c m done r).mpr (hall done r rest hrs hasks)

/-- An update that is asked for the previous value, after an insert of the key. -/
def insertThenUpdate : List (StoreRequest ℕ ℕ) :=
  [{ request := .insert 7 1 }, { request := .update 7 2, options := RETRIEVE_PREVIOUS }]

/-- The previous value is not retrieved. -/
theorem not_retrievesPrevious : ¬ RetrievesPrevious {} (∅ : StoreMap ℕ ℕ) insertThenUpdate := by
  intro hall
  have hretrieved :=
    hall [{ request := .insert 7 1 }] { request := .update 7 2, options := RETRIEVE_PREVIOUS } []
    rfl (by decide)
  have hnone := (retrieved_iff {} ∅ _ _).mp hretrieved
  exact absurd hnone (by decide)

end Retrieved

/-! ## Ordered and unordered stores -/

section Containers

open Protobuf (Descriptor Message Faithful StlHash)

/-- The responses to a sequence of requests. -/
def responses [DecidableEq κ] (c : StoreConfig) :
    List (StoreRequest κ ν) → StoreMap κ ν → List (Option (Response ν))
  | [], _ => []
  | r :: rs, m => (handle c r m).1 :: responses c rs (handle c r m).2

/-- A sequence of requests on a container: the responses and the entries. -/
def respondAll (M : DataMap.Container κ ν) (c : StoreConfig) (rs : List (StoreRequest κ ν))
    (m : List (κ × ν)) :
    Option (List (Option (Response ν)) × List (κ × ν)) :=
  (DataMap.run M (rs.map StoreRequest.operation) m).map fun out =>
  (rs.zipWith (respond c) out.1, out.2)

/-- The results of the operations on a finite map make the responses. -/
theorem zipWith_respond [DecidableEq κ] (c : StoreConfig) (rs : List (StoreRequest κ ν))
    (m : StoreMap κ ν) :
    rs.zipWith (respond c)
    (DataMap.runMap (rs.map StoreRequest.operation) m).1 = responses c rs m := by
  induction rs generalizing m with
  | nil => rfl
  | cons r rs ih => exact congrArg (List.cons (handle c r m).1) (ih (handle c r m).2)

theorem runMap_operations [DecidableEq κ] (c : StoreConfig) (rs : List (StoreRequest κ ν))
    (m : StoreMap κ ν) :
    (DataMap.runMap (rs.map StoreRequest.operation) m).2 = run c rs m := by
  induction rs generalizing m with
  | nil => rfl
  | cons r rs ih => exact ih (handle c r m).2

/-- On keys that compare right, ordered and unordered stores respond as the finite map does and hold
its entries. -/
theorem respondAll_of_faithful (stl : StlHash) {d : Descriptor} (c : StoreConfig)
    {rs : List (StoreRequest (Message d) ν)}
    (hkeys : ∀ r ∈ rs, ∀ r' ∈ rs, Faithful d r.operation.key r'.operation.key) :
    ∃ tree table,
      respondAll (DataMap.BTREEMAP d ν) c rs [] = some (responses c rs ∅, tree) ∧
      respondAll (DataMap.HASHMAP stl d ν) c rs [] = some (responses c rs ∅, table) ∧
      DataMap.Represents tree (run c rs ∅) ∧ DataMap.Represents table (run c rs ∅) := by
  have hS : ∀ k ∈ { k | ∃ r ∈ rs, r.operation.key = k },
      ∀ k' ∈ { k | ∃ r ∈ rs, r.operation.key = k }, Faithful d k k' := by
    rintro k ⟨r, hr, rfl⟩ k' ⟨r', hr', rfl⟩
    exact hkeys r hr r' hr'
  have hops : ∀ op ∈ rs.map StoreRequest.operation, ∃ r ∈ rs, r.operation.key = op.key := by
    intro op hop
    obtain ⟨r, hr, rfl⟩ := List.mem_map.mp hop
    exact ⟨r, hr, rfl⟩
  have hempty : DataMap.Represents ([] : List (Message d × ν)) ∅ := by
    intro k v
    simp [StoreMap.contents_empty]
  obtain ⟨tree, htree, htreeMap⟩ := (DataMap.BTREEMAP_lawfulOn hS).run
    (DataMap.BTREEMAP_lawfulOn (ν := ν) hS).nil hempty hops
  obtain ⟨table, htable, htableMap⟩ := (DataMap.HASHMAP_lawfulOn stl hS).run
    (DataMap.HASHMAP_lawfulOn (ν := ν) stl hS).nil hempty hops
  rw [runMap_operations c] at htreeMap htableMap
  refine ⟨tree, table, ?_, ?_, htreeMap, htableMap⟩
  · rw [respondAll, htree, ← zipWith_respond]
    rfl
  · rw [respondAll, htable, ← zipWith_respond]
    rfl

/-- An insert and an update of another key that is asked for the previous value. -/
def nearKeys : List (StoreRequest (Message DataMap.oneUint64) ℕ) :=
  [{ request := .insert (DataMap.keyOf ⟨7, by decide⟩) 1 },
    { request := .update (DataMap.keyOf ⟨9, by decide⟩) 2, options := RETRIEVE_PREVIOUS }]

theorem respondAll_of_faithful_nearKeys :
    (respondAll (DataMap.BTREEMAP DataMap.oneUint64 ℕ) {} nearKeys []).map Prod.fst =
      (respondAll (DataMap.HASHMAP DataMap.identityHash DataMap.oneUint64 ℕ) {} nearKeys []).map
        Prod.fst := by
  have hkeys : ∀ r ∈ nearKeys, ∀ r' ∈ nearKeys,
      Faithful DataMap.oneUint64 r.operation.key r'.operation.key := by
    rintro _ (_ | ⟨_, _ | ⟨_, ⟨⟩⟩⟩) _ (_ | ⟨_, _ | ⟨_, ⟨⟩⟩⟩) <;> exact ⟨rfl, fun _ => trivial⟩
  obtain ⟨tree, table, htree, htable, -⟩ :=
    respondAll_of_faithful DataMap.identityHash {} hkeys
  rw [htree, htable, Option.map_some, Option.map_some]

end Containers

end Idgs.Store.Previous
