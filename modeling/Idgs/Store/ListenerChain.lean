import Idgs.Store.RetrievePrevious

/-!
# The listener chain

`ListenerManager::handleListener` runs the listeners of a store from an index on. `LRC_BREAK`
returns at once; the `break` for `LRC_END` and `LRC_ERROR` leaves the `switch` only, so that the
chain goes on with the next listener.
-/

namespace Idgs.Store.ListenerChain

open List

open Previous (ListenerResultCode)

variable {M W : Type*}

/-! ## Requests and listeners -/

/-- The operations of the message handler map. -/
inductive Operation
  | insert | update | get | remove | truncate
deriving DecidableEq

/-- `ListenerContext`, as it is constructed. -/
structure ListenerContext (M : Type*) where
  listenerIndex : UInt32 := 0
  resultCode : StoreResultCode := .success
  key : Option M := none
  value : Option M := none
  rawValue : Option M := none
  lastValue : Option M := none
  versionValue : Option M := none
  primaryMemberId : ℤ := -1
  partitionId : ℤ := -1
  options : UInt32 := 0
  version : UInt32 := 0

/-- A listener: its function for each operation, on the context and on what else it works on. -/
structure StoreListener (M W : Type*) where
  execute : Operation → ListenerContext M × W → ListenerResultCode × (ListenerContext M × W)

/-- The listeners of a store, and `calculatePartitionInfo`. -/
structure StoreConfig (M W : Type*) where
  listeners : List (StoreListener M W)
  partitionOf : Option M → ℤ

/-- `StoreListenerInfo`. -/
structure StoreListenerInfo where
  resultCode : StoreResultCode
  listenerIndex : Option UInt32
  primaryMemberId : ℤ

/-- What parsing an attachment gives. -/
inductive Attachment (M : Type*)
  | missing
  | invalid
  | parsed (message : M)

/-- The message of an attachment that is there. -/
def Attachment.message? : Attachment M → Option M
  | .parsed message => some message
  | _ => none

/-- A request of one of the operations, with its attachments. -/
structure Request (M : Type*) where
  operation : Operation
  storeName : String
  listenerInfo : Option StoreListenerInfo
  key : Attachment M
  value : Attachment M
  partitionId : Option ℤ
  options : Option UInt32
  version : Option UInt32

/-- The response, with its attachments. -/
structure Response (M : Type*) where
  operation : Operation
  resultCode : StoreResultCode
  value : Option M
  lastValue : Option M
  versionValue : Option M

/-! ## Handling a request -/

/-- `ListenerManager::parseKeyValue`. -/
def parseKeyValue (request : Request M) : StoreResultCode :=
  match request.key, request.value with
  | .invalid, _ => .invalidKey
  | _, .invalid => .invalidValue
  | _, _ => .success

/-- `ListenerManager::sendResponse` for a payload with the result code of the context. -/
def sendResponse (operation : Operation) (ctx : ListenerContext M) : Response M where
  operation := operation
  resultCode := ctx.resultCode
  value := if ctx.resultCode = .success ∧ operation = .get then ctx.value else none
  lastValue := if ctx.resultCode = .success then ctx.lastValue else none
  versionValue := if ctx.resultCode = .success then ctx.versionValue else none

/-- The checks of `handleListener`, and the context, the listeners and the index that the loop
starts with. -/
def prepare (getStore : String → Option (StoreConfig M W)) (request : Request M) :
    Except StoreResultCode (ListenerContext M × List (StoreListener M W) × ℕ) :=
  match getStore request.storeName with
  | none => .error .storeNotFound
  | some config =>
    match request.listenerInfo with
    | none => .error .invalidListenerInfo
    | some info =>
      if parseKeyValue request ≠ .success then .error (parseKeyValue request)
      else .ok
        ({ listenerIndex := info.listenerIndex.getD 0
           resultCode := info.resultCode
           key := request.key.message?
           value := request.value.message?
           rawValue := request.value.message?
           primaryMemberId := info.primaryMemberId
           partitionId := match request.partitionId with
             | some p => if p ≠ -1 then p else config.partitionOf request.key.message?
             | none => config.partitionOf request.key.message?
           options := request.options.getD 0
           version := request.version.getD 0 },
          config.listeners, (info.listenerIndex.getD 0).toNat)

/-- A run of the chain: the indices of the listeners that were run, the state after them, and
whether a response is sent. -/
structure Run (M W : Type*) where
  ran : List ℕ
  state : ListenerContext M × W
  responds : Bool

/-- A listener that was run before. -/
def Run.after (i : ℕ) (run : Run M W) : Run M W := { run with ran := i :: run.ran }

/-- The loop of `handleListener` from a listener on. The index is an `int32_t`: behind the last one
it is negative, and then not below the number of listeners. -/
def runListeners (operation : Operation) :
    ℕ → List (StoreListener M W) → ListenerContext M × W → Run M W
  | _, [], s => ⟨[], s, true⟩
  | i, l :: ls, s =>
    if i < 2 ^ 31 then
      match l.execute operation s with
      | (.lrcContinue, s) => (runListeners operation (i + 1) ls s).after i
      | (.lrcBreak, s) => ⟨[i], s, false⟩
      | (.lrcEnd, s) => (runListeners operation (i + 1) ls s).after i
      | (.lrcError, s) => (runListeners operation (i + 1) ls s).after i
    else ⟨[], s, true⟩

/-- What handling a request does: the listeners that were run, the responses, and what else has
changed. -/
structure Outcome (M W : Type*) where
  ran : List ℕ
  sent : List (Response M)
  world : W

/-- `handleListener` with a loop over the listeners. -/
def handleWith (loop : Operation → ℕ → List (StoreListener M W) → ListenerContext M × W → Run M W)
    (getStore : String → Option (StoreConfig M W)) (request : Request M) (world : W) :
    Outcome M W :=
  match prepare getStore request with
  | .error code => ⟨[], [sendResponse request.operation { resultCode := code }], world⟩
  | .ok (ctx, listeners, index) =>
    let run := loop request.operation index (listeners.drop index) (ctx, world)
    ⟨run.ran, if run.responds then [sendResponse request.operation run.state.1] else [],
      run.state.2⟩

/-- `ListenerManager::handleListener`. -/
def handleListener (getStore : String → Option (StoreConfig M W)) (request : Request M)
    (world : W) : Outcome M W :=
  handleWith runListeners getStore request world

/-! ## The chain as it is declared -/

/-- The listeners up to the first one that does not return `LRC_CONTINUE`; there is a response
unless it returns `LRC_BREAK`. -/
def declaredRun (operation : Operation) :
    ℕ → List (StoreListener M W) → ListenerContext M × W → Run M W
  | _, [], s => ⟨[], s, true⟩
  | i, l :: ls, s =>
    match l.execute operation s with
    | (.lrcContinue, s) => (declaredRun operation (i + 1) ls s).after i
    | (.lrcBreak, s) => ⟨[i], s, false⟩
    | (.lrcEnd, s) => ⟨[i], s, true⟩
    | (.lrcError, s) => ⟨[i], s, true⟩

/-- The listeners that are run are those from the index on, and the responses one or none. -/
def Right (getStore : String → Option (StoreConfig M W)) (request : Request M) (world : W) : Prop :=
  handleListener getStore request world = handleWith declaredRun getStore request world

/-- The first listener that does not return `LRC_CONTINUE`, if there is one, returns `LRC_BREAK` or
is the last one that an `int32_t` counts; no listener is behind that one. -/
def StopsAsDeclared (operation : Operation) :
    ℕ → List (StoreListener M W) → ListenerContext M × W → Prop
  | _, [], _ => True
  | i, l :: ls, s =>
    i < 2 ^ 31 ∧
      match l.execute operation s with
      | (.lrcContinue, s) => StopsAsDeclared operation (i + 1) ls s
      | (.lrcBreak, _) => True
      | (.lrcEnd, _) => ls = [] ∨ 2 ^ 31 ≤ i + 1
      | (.lrcError, _) => ls = [] ∨ 2 ^ 31 ≤ i + 1

/-- The chain that a request starts, if it does, stops as declared. -/
def ChainStops (getStore : String → Option (StoreConfig M W)) (request : Request M) (world : W) :
    Prop :=
  ∀ ctx listeners index, prepare getStore request = .ok (ctx, listeners, index) →
    StopsAsDeclared request.operation index (listeners.drop index) (ctx, world)

section Chain

variable {operation : Operation} {i : ℕ} {l : StoreListener M W} {ls : List (StoreListener M W)}
  {s : ListenerContext M × W}

/-- With nothing left to run, the loop ends with a response. -/
theorem runListeners_of_end (h : ls = [] ∨ 2 ^ 31 ≤ i) :
    runListeners operation i ls s = ⟨[], s, true⟩ := by
  cases ls with
  | nil => rfl
  | cons l ls => rw [runListeners, if_neg (Nat.not_lt.mpr (h.resolve_left (cons_ne_nil l ls)))]

/-- With a listener left, the loop runs it. -/
theorem ran_runListeners_ne_nil (h : ¬ (ls = [] ∨ 2 ^ 31 ≤ i)) :
    (runListeners operation i ls s).ran ≠ [] := by
  obtain ⟨hls, hi⟩ := not_or.mp h
  obtain ⟨l, ls, rfl⟩ := exists_cons_of_ne_nil hls
  rw [runListeners, if_pos (Nat.not_le.mp hi)]
  split
  · exact cons_ne_nil _ _
  · exact cons_ne_nil _ _
  · exact cons_ne_nil _ _
  · exact cons_ne_nil _ _

/-- A declared run runs its first listener. -/
theorem ran_declaredRun_ne_nil : (declaredRun operation i (l :: ls) s).ran ≠ [] := by
  rw [declaredRun]
  split
  · exact cons_ne_nil _ _
  · exact cons_ne_nil _ _
  · exact cons_ne_nil _ _
  · exact cons_ne_nil _ _

/-- A chain that stops as declared runs as declared. -/
theorem runListeners_eq (h : StopsAsDeclared operation i ls s) :
    runListeners operation i ls s = declaredRun operation i ls s := by
  induction ls generalizing i s with
  | nil => rfl
  | cons l ls ih =>
    obtain ⟨hi, hstop⟩ := h
    rw [runListeners, declaredRun, if_pos hi]
    cases hexecute : l.execute operation s with
    | mk code s' =>
      simp only [hexecute] at hstop
      cases code with
      | lrcContinue => exact congrArg (Run.after i) (ih hstop)
      | lrcBreak => rfl
      | lrcEnd | lrcError => exact congrArg (Run.after i) (runListeners_of_end hstop)

/-- A chain that runs the declared listeners stops as declared. -/
theorem stopsAsDeclared_of_ran
    (h : (runListeners operation i ls s).ran = (declaredRun operation i ls s).ran) :
    StopsAsDeclared operation i ls s := by
  induction ls generalizing i s with
  | nil => trivial
  | cons l ls ih =>
    have hi : i < 2 ^ 31 := by
      by_contra hi
      rw [runListeners_of_end (.inr (Nat.not_lt.mp hi))] at h
      exact ran_declaredRun_ne_nil h.symm
    refine ⟨hi, ?_⟩
    rw [runListeners, declaredRun, if_pos hi] at h
    cases hexecute : l.execute operation s with
    | mk code s' =>
      simp only [hexecute] at h ⊢
      cases code with
      | lrcContinue => exact ih (List.cons.inj h).2
      | lrcBreak => trivial
      | lrcEnd | lrcError => exact not_not.mp fun hmore =>
        ran_runListeners_ne_nil hmore (List.cons.inj h).2

end Chain

/-- A request is handled as declared exactly if its chain stops as declared. -/
theorem handleListener_iff (getStore : String → Option (StoreConfig M W)) (request : Request M)
    (world : W) :
    Right getStore request world ↔ ChainStops getStore request world := by
  unfold Right ChainStops handleListener handleWith
  cases hprepare : prepare getStore request with
  | error code => exact iff_of_true rfl fun _ _ _ h => by cases h
  | ok started =>
      obtain ⟨ctx, listeners, index⟩ := started
      constructor
      · rintro h ctx' listeners' index' heq
        cases heq
        exact stopsAsDeclared_of_ran (congrArg Outcome.ran h)
      · intro h
        simp only [runListeners_eq (h ctx listeners index rfl)]

/-! ## A listener behind the end -/

/-- A listener that returns a code and does nothing else. -/
def returning (code : ListenerResultCode) : StoreListener ℕ Unit := ⟨fun _ s => (code, s)⟩

/-- A store whose first listener ends the chain. -/
def endingStore : StoreConfig ℕ Unit := ⟨[returning .lrcEnd, returning .lrcContinue], fun _ => 0⟩

/-- An insert request for it. -/
def insertRequest : Request ℕ :=
  ⟨.insert, "s", some ⟨.success, some 0, 1⟩, .parsed 1, .parsed 2, none, none, none⟩

/-- The second listener is run. -/
theorem not_right_endingStore : ¬ Right (fun _ => some endingStore) insertRequest () := fun h => by
  have hran := congrArg Outcome.ran h
  have hhandled : (handleListener (fun _ => some endingStore) insertRequest ()).ran = [0, 1] := rfl
  have hdeclared : (handleWith declaredRun (fun _ => some endingStore) insertRequest ()).ran =
      [0] := rfl
  rw [hhandled, hdeclared] at hran
  cases hran

end Idgs.Store.ListenerChain
