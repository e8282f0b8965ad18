import Idgs.Common.Run
import Idgs.Protobuf.Serdes
import Idgs.Store.Transfer

/-!
# Replaying a redo log through its encoding

The writes of a partition that is migrated, and of a replicated store that is synchronised, are put
in a redo log. The source sends the log in batches, whose keys and values are serialised; the target
parses them and applies the operations. A delete has no value, so the value field of its item is
empty.
-/

namespace Idgs.Store

open Function List

namespace RedoReplay

open Protobuf (SerdesMode Bytes)

variable {κ ν : Type*}

/-! ## Items -/

/-- A message type under a serdes mode: its messages, which have all required fields, are of type
`μ`. -/
structure MessageType (μ : Type*) where
  hasRequired : Bool
  /-- `ProtoSerdesHelper::serialize`. -/
  serialize : μ → Bytes
  /-- `ProtoSerdesHelper::deserialize` into a new message. -/
  deserialize : Bytes → Option μ

/-- What the protobuf and JSON libraries promise: binary and text read what they have written; the
empty message is read from no bytes unless it lacks a required field; and no bytes are no JSON. -/
structure MessageType.Documented {μ : Type*} (T : MessageType μ) (mode : SerdesMode) : Prop where
  roundTrip : mode ≠ .pbJson → ∀ message, T.deserialize (T.serialize message) = some message
  empty : mode ≠ .pbJson → ((T.deserialize []).isSome ↔ T.hasRequired = false)
  emptyJson : mode = .pbJson → T.deserialize [] = none

/-- `pb::KeyValuePair`, an item of `MigrationData` or `SyncData`. -/
structure KeyValuePair where
  operationName : OpName
  key : Bytes
  value : Option Bytes
deriving DecidableEq

variable (K : MessageType κ) (V : MessageType ν)

/-- An item of a batch at the source. -/
def encodeItem (info : RedoLog κ ν) : KeyValuePair where
  operationName := info.opName
  key := K.serialize info.key
  value := info.value.map V.serialize

/-- `cnt < batchSize` with a `size_t` and an `int32_t`: a negative batch size is a huge one. -/
def batchCount (batchSize : ℤ) (redoLog : List (RedoLog κ ν)) : ℕ :=
  if batchSize < 0 then redoLog.length else batchSize.toNat

/-- A batch of the redo log and what is left of it. -/
def nextBatch (batchSize : ℤ) (redoLog : List (RedoLog κ ν)) :
    List KeyValuePair × List (RedoLog κ ν) :=
  ((redoLog.take (batchCount batchSize redoLog)).map (encodeItem K V),
    redoLog.drop (batchCount batchSize redoLog))

/-- An item at the target: key and value are parsed before the operation is looked at. -/
def applyItem [DecidableEq κ] (m : StoreMap κ ν) (data : KeyValuePair) : StoreMap κ ν :=
  match K.deserialize data.key with
  | none => m
  | some key =>
    match V.deserialize (data.value.getD []) with
    | none => m
    | some value =>
      match data.operationName with
      | .internalInsert => (m.set key value).2
      | .internalUpdate => (m.set key value).2
      | .internalDelete => (m.remove key).2.2

/-! ## The two paths -/

/-- `StoreMigrationSourceActor::handleMigrationRequest`, with a redo log that is not empty. -/
def handleMigrationRequest := @nextBatch κ ν

/-- `StoreSyncSourceActor::handleSyncRequest`, with a redo log that is not empty. -/
def handleSyncRequest := @nextBatch κ ν

/-- `StoreMigrationTargetActor::handleMigrationData`. -/
def handleMigrationData [DecidableEq κ] (batch : List KeyValuePair) (m : StoreMap κ ν) :
    StoreMap κ ν :=
  batch.foldl (applyItem K V) m

/-- `StoreSyncTargetActor::handleSyncData`. -/
def handleSyncData [DecidableEq κ] (batch : List KeyValuePair) (m : StoreMap κ ν) : StoreMap κ ν :=
  batch.foldl (applyItem K V) m

/-- Migration of a partition, or synchronisation of a replicated store. -/
inductive Path
  | migration | sync
deriving DecidableEq

/-- The source's handler of a request. -/
def Path.handleRequest : Path → ℤ → List (RedoLog κ ν) → List KeyValuePair × List (RedoLog κ ν)
  | migration => handleMigrationRequest K V
  | sync => handleSyncRequest K V

/-- The target's handler of a batch. -/
def Path.handleData [DecidableEq κ] : Path → List KeyValuePair → StoreMap κ ν → StoreMap κ ν
  | migration => handleMigrationData K V
  | sync => handleSyncData K V

/-! ## Runs -/

/-- The redo log, the batch under way, the target's content, and the content on which the operations
are applied directly. -/
structure State (κ ν : Type*) where
  redoLog : List (RedoLog κ ν) := []
  batch : Option (List KeyValuePair) := none
  target : StoreMap κ ν
  direct : StoreMap κ ν

/-- Both contents are the same at the beginning. -/
def init (m : StoreMap κ ν) : State κ ν where
  target := m
  direct := m

/-- Steps: an operation is put in the redo log, the source handles the target's request, the target
handles a batch. -/
inductive Step (κ ν : Type*)
  | operation (r : Request κ ν)
  | request
  | data

/-- One step. -/
def step [DecidableEq κ] (path : Path) (batchSize : ℤ) (s : State κ ν) :
    Step κ ν → Option (State κ ν)
  | .operation r => some { s with redoLog := s.redoLog ++ [r.redoLog], direct := r.apply s.direct }
  | .request =>
    match s.batch with
    | some _ => none
    | none =>
      if s.redoLog = [] then none
      else
        let out := path.handleRequest K V batchSize s.redoLog
        some { s with batch := some out.1, redoLog := out.2 }
  | .data =>
    match s.batch with
    | none => none
    | some batch => some { s with batch := none, target := path.handleData K V batch s.target }

/-- Everything logged has arrived. -/
def State.Drained (s : State κ ν) : Prop := s.redoLog = [] ∧ s.batch = none

/-- No operation is logged. -/
def Draining (_ : State κ ν) : Step κ ν → Prop
  | .operation _ => False
  | _ => True

/-- The batches replay the log: when everything logged has arrived, the target holds what the
operations made directly; and requests and batches bring this about. -/
def Replays [DecidableEq κ] (path : Path) (batchSize : ℤ) : Prop :=
  ∀ (m : StoreMap κ ν) s, Common.Reaches (step K V path batchSize) Common.anyStep (init m) s →
    (s.Drained → s.target.contents = s.direct.contents) ∧
    ∃ s', Common.Reaches (step K V path batchSize) Draining s s' ∧ s'.Drained ∧ s'.direct = s.direct

variable {K V}

/-! ## The source's batches -/

theorem handleRequest_eq (path : Path) (batchSize : ℤ) (redoLog : List (RedoLog κ ν)) :
    path.handleRequest K V batchSize redoLog = nextBatch K V batchSize redoLog := by
  cases path <;> rfl

theorem handleData_eq [DecidableEq κ] (path : Path) (batch : List KeyValuePair) (m : StoreMap κ ν) :
    path.handleData K V batch m = batch.foldl (applyItem K V) m := by
  cases path <;> rfl

/-- A batch takes something, unless the batch size is 0. -/
theorem batchCount_pos {batchSize : ℤ} (hsize : batchSize ≠ 0) {redoLog : List (RedoLog κ ν)}
    (hlog : redoLog ≠ []) : 0 < batchCount batchSize redoLog := by
  unfold batchCount
  by_cases hneg : batchSize < 0
  · rw [if_pos hneg]
    exact length_pos_iff.mpr hlog
  · rw [if_neg hneg]
    omega

theorem step_request [DecidableEq κ] {path : Path} {batchSize : ℤ} {s : State κ ν}
    (hbatch : s.batch = none) (hlog : s.redoLog ≠ []) :
    step K V path batchSize s .request = some { s with
      batch := some ((s.redoLog.take (batchCount batchSize s.redoLog)).map (encodeItem K V))
      redoLog := s.redoLog.drop (batchCount batchSize s.redoLog) } := by
  simp only [step]
  rw [hbatch]
  simp only
  rw [if_neg hlog, handleRequest_eq]
  rfl

theorem step_data [DecidableEq κ] {path : Path} {batchSize : ℤ} {s : State κ ν}
    {batch : List KeyValuePair} (hbatch : s.batch = some batch) :
    step K V path batchSize s .data = some { s with
      batch := none, target := batch.foldl (applyItem K V) s.target } := by
  simp only [step]
  rw [hbatch]
  simp only
  rw [handleData_eq]

/-! ## Draining -/

/-- Requests and batches drain the log. -/
theorem exists_drained [DecidableEq κ] {path : Path} {batchSize : ℤ} (hsize : batchSize ≠ 0)
    (s : State κ ν) :
    ∃ s', Common.Reaches (step K V path batchSize) Draining s s' ∧ s'.Drained ∧
    s'.direct = s.direct := by
  -- by induction on the length of the log: a request shortens it
  induction hlen : s.redoLog.length using Nat.strong_induction_on generalizing s with
  | _ n ih =>
    -- first the batch under way
    have hfirst : ∃ s₁, Common.Reaches (step K V path batchSize) Draining s s₁ ∧ s₁.batch = none ∧
        s₁.redoLog = s.redoLog ∧ s₁.direct = s.direct := by
      cases hbatch : s.batch with
      | none => exact ⟨s, .refl, hbatch, rfl, rfl⟩
      | some batch => exact ⟨_, .tail .data .refl trivial (step_data hbatch), rfl, rfl, rfl⟩
    obtain ⟨s₁, hrun₁, hnone, hlog₁, hdirect₁⟩ := hfirst
    by_cases hlog : s₁.redoLog = []
    · exact ⟨s₁, hrun₁, ⟨hlog, hnone⟩, hdirect₁⟩
    · have hrequest : step K V path batchSize s₁ .request = some _ := step_request hnone hlog
      have hshorter : (s₁.redoLog.drop (batchCount batchSize s₁.redoLog)).length < n := by
        have hpos := batchCount_pos hsize hlog
        have hlength := length_pos_iff.mpr hlog
        rw [length_drop]
        rw [hlog₁] at hpos hlength ⊢
        omega
      obtain ⟨s', hrun', hdrained, hdirect⟩ := ih _ hshorter { s₁ with
        batch := some ((s₁.redoLog.take (batchCount batchSize s₁.redoLog)).map (encodeItem K V))
        redoLog := s₁.redoLog.drop (batchCount batchSize s₁.redoLog) } rfl
      have hdrain : Draining s₁ .request := trivial
      exact ⟨s', (hrun₁.tail .request hdrain hrequest).trans hrun', hdrained,
        hdirect.trans hdirect₁⟩

/-- With the batch size 0 a log that is not empty stays so. -/
theorem redoLog_ne_nil_of_zero [DecidableEq κ] {path : Path} {s s' : State κ ν}
    (hrun : Common.Reaches (step K V path 0) Draining s s') (hlog : s.redoLog ≠ []) :
    s'.redoLog ≠ [] := by
  refine hrun.invariant (P := fun s => s.redoLog ≠ []) hlog fun t a t' ht hdrain hstep => ?_
  cases a with
  | operation r => exact hdrain.elim
  | request =>
    cases hbatch : t.batch with
    | some batch =>
      simp only [step, hbatch] at hstep
      cases hstep
    | none =>
      rw [step_request hbatch ht] at hstep
      cases hstep
      exact ht
  | data =>
    cases hbatch : t.batch with
    | none =>
      simp only [step, hbatch] at hstep
      cases hstep
    | some batch =>
      rw [step_data hbatch] at hstep
      cases hstep
      exact ht

/-! ## The target's content -/

section Content

variable [DecidableEq κ]

/-- Where messages are read back, an item is applied as it was logged. -/
theorem applyItem_encodeItem (hK : ∀ key, K.deserialize (K.serialize key) = some key)
    (hV : ∀ value, V.deserialize (V.serialize value) = some value) (m : StoreMap κ ν)
    (info : RedoLog κ ν) :
    applyItem K V m (encodeItem K V info) = handleItem (V.deserialize []) m info := by
  obtain ⟨opName, key, value⟩ := info
  unfold applyItem encodeItem handleItem
  simp only
  rw [hK key]
  simp only
  cases value with
  | none => rfl
  | some value =>
    cases opName <;> simp only [Option.map_some, Option.getD_some, Option.some_or, hV value]

/-- A batch of logged operations writes what they write. -/
theorem contents_foldl_applyItem (hK : ∀ key, K.deserialize (K.serialize key) = some key)
    (hV : ∀ value, V.deserialize (V.serialize value) = some value)
    (hempty : (V.deserialize []).isSome = true)
    {sent : List (RedoLog κ ν)} (hsent : ∀ info ∈ sent, ∃ r : Request κ ν, info = r.redoLog)
    (m : StoreMap κ ν) :
    ((sent.map (encodeItem K V)).foldl (applyItem K V) m).contents =
      Common.writeAll m.contents (sent.map itemWrite) := by
  have hparses : ∀ info ∈ sent, Parses (V.deserialize []) info := by
    intro info hinfo
    obtain ⟨r, rfl⟩ := hsent info hinfo
    exact parses_redoLog fun _ => hempty
  rw [foldl_map, ← contents_batch hparses]
  congr 1
  refine foldl_ext _ _ m fun m' info _ => ?_
  exact applyItem_encodeItem hK hV m' info

/-- What is under way and what is logged would make the target's content the direct one. -/
def Pending (K : MessageType κ) (V : MessageType ν) (s : State κ ν) : Prop :=
  ∃ sent : List (RedoLog κ ν), s.batch.getD [] = sent.map (encodeItem K V) ∧
    (∀ info ∈ sent ++ s.redoLog, ∃ r : Request κ ν, info = r.redoLog) ∧
    Common.writeAll s.target.contents ((sent ++ s.redoLog).map itemWrite) = s.direct.contents

theorem pending_init (m : StoreMap κ ν) : Pending K V (init m) := by
  refine ⟨[], rfl, fun info hinfo => ?_, rfl⟩
  cases hinfo

theorem Pending.contents (s : State κ ν) (hpending : Pending K V s) (hdrained : s.Drained) :
    s.target.contents = s.direct.contents := by
  obtain ⟨sent, hbatch, -, hwrites⟩ := hpending
  obtain ⟨hlog, hnone⟩ := hdrained
  rw [hnone] at hbatch
  have hsent : sent = [] := map_eq_nil_iff.mp hbatch.symm
  rw [hsent, hlog] at hwrites
  exact hwrites

/-- Every step keeps it. -/
theorem Pending.step (hK : ∀ key, K.deserialize (K.serialize key) = some key)
    (hV : ∀ value, V.deserialize (V.serialize value) = some value)
    (hempty : (V.deserialize []).isSome = true)
    {path : Path} {batchSize : ℤ} {s s' : State κ ν} {a : Step κ ν} (hpending : Pending K V s)
    (hstep : RedoReplay.step K V path batchSize s a = some s') : Pending K V s' := by
  obtain ⟨sent, hbatch, hlogged, hwrites⟩ := hpending
  cases a with
  | operation r =>
    cases hstep
    refine ⟨sent, hbatch, ?_, ?_⟩
    · intro info hinfo
      rw [← append_assoc] at hinfo
      rcases mem_append.mp hinfo with hold | hnew
      · exact hlogged info hold
      · exact ⟨r, mem_singleton.mp hnew⟩
    · show Common.writeAll s.target.contents
        ((sent ++ (s.redoLog ++ [r.redoLog])).map itemWrite) =
        (r.apply s.direct).contents
      rw [← append_assoc, map_append, Common.writeAll_append, hwrites, Request.contents_apply]
      show update s.direct.contents (itemWrite r.redoLog).1 (itemWrite r.redoLog).2 = _
      rw [itemWrite_redoLog]
      rfl
  | request =>
    cases hnone : s.batch with
    | some batch =>
      simp only [RedoReplay.step, hnone] at hstep
      cases hstep
    | none =>
      by_cases hlog : s.redoLog = []
      · simp only [RedoReplay.step, hnone, if_pos hlog] at hstep
        cases hstep
      · rw [step_request hnone hlog] at hstep
        cases hstep
        -- nothing was under way, so the batch and the rest of the log are the log
        rw [hnone] at hbatch
        have hsent : sent = [] := map_eq_nil_iff.mp hbatch.symm
        rw [hsent, nil_append] at hlogged hwrites
        refine ⟨s.redoLog.take (batchCount batchSize s.redoLog), rfl, ?_, ?_⟩
        · simp only [take_append_drop]
          exact hlogged
        · simp only [take_append_drop]
          exact hwrites
  | data =>
    cases hsome : s.batch with
    | none =>
      simp only [RedoReplay.step, hsome] at hstep
      cases hstep
    | some batch =>
      rw [step_data hsome] at hstep
      cases hstep
      rw [hsome, Option.getD_some] at hbatch
      refine ⟨[], rfl, fun info hinfo => hlogged info (mem_append_right sent hinfo), ?_⟩
      have hitems := contents_foldl_applyItem hK hV hempty
        (fun info hinfo => hlogged info (mem_append_left s.redoLog hinfo)) s.target
      show Common.writeAll (batch.foldl (applyItem K V) s.target).contents
          (s.redoLog.map itemWrite) = _
      rw [hbatch, hitems, ← Common.writeAll_append, ← map_append, hwrites]

end Content

/-! ## When the log is replayed -/

/-- Where no bytes are no value, a delete changes nothing. -/
theorem applyItem_of_none [DecidableEq κ] (hnone : V.deserialize [] = none) (m : StoreMap κ ν)
    (key : κ) :
    applyItem K V m (encodeItem K V (Request.delete (ν := ν) key).redoLog) = m := by
  unfold applyItem encodeItem
  simp only [Request.redoLog, Option.map_none, Option.getD_none]
  rw [hnone]
  cases K.deserialize (K.serialize key) <;> rfl

/-- Where no bytes are no value, or batches take nothing, the log is not replayed. -/
theorem not_replays [DecidableEq κ] [Inhabited κ] [Inhabited ν] {path : Path} {batchSize : ℤ}
    (hbad : batchSize = 0 ∨ V.deserialize [] = none) : ¬ Replays K V path batchSize := by
  intro hreplays
  -- one entry, which is deleted
  have hset : (((∅ : StoreMap κ ν).set default default).2).contents default = some default := by
    rw [StoreMap.contents_set, update_self]
  generalize ((∅ : StoreMap κ ν).set default default).2 = m at hset
  have hlogged : Common.Reaches (step K V path batchSize) Common.anyStep (init m)
      { redoLog := [(Request.delete (ν := ν) (default : κ)).redoLog], target := m,
        direct := (Request.delete (ν := ν) default).apply m } :=
    .tail (.operation (Request.delete (ν := ν) default)) .refl trivial rfl
  by_cases hsize : batchSize = 0
  · subst hsize
    obtain ⟨-, s', hrun, ⟨hempty, -⟩, -⟩ := hreplays m _ hlogged
    exact redoLog_ne_nil_of_zero hrun (cons_ne_nil _ _) hempty
  · have hnone := hbad.resolve_left hsize
    have hone := (Nat.ne_of_lt (batchCount_pos hsize
      (cons_ne_nil (Request.delete (ν := ν) (default : κ)).redoLog []))).symm
    obtain ⟨count, hcount⟩ := Nat.exists_eq_succ_of_ne_zero hone
    have hsent := hlogged.tail .request trivial (step_request rfl (cons_ne_nil _ _))
    have harrived := hsent.tail .data trivial (step_data rfl)
    have hsame := (hreplays m _ harrived).1
    simp only [hcount] at hsame
    -- the delete has been handled, and the key is still there
    have hcontents := hsame ⟨by simp, rfl⟩
    simp only [Nat.succ_eq_add_one, take_succ_cons, take_nil, map_cons, map_nil,
      foldl_cons, foldl_nil, applyItem_of_none hnone, Request.contents_apply] at hcontents
    have hkey := congrFun hcontents default
    rw [hset] at hkey
    simp only [Request.key, Request.written, update_self, reduceCtorEq] at hkey

/-- **When the log is replayed**: on both paths, the batches replay every log exactly when the batch
size is not 0 and an empty value field can be parsed, which it can in binary and text for a value
type without required fields. -/
theorem replays_iff [DecidableEq κ] [Inhabited κ] [Inhabited ν] (K : MessageType κ)
    (V : MessageType ν)
    (mode : SerdesMode) (hK : K.Documented mode) (hV : V.Documented mode) (path : Path)
    (batchSize : ℤ) :
    Replays K V path batchSize ↔ batchSize ≠ 0 ∧ mode ≠ .pbJson ∧ V.hasRequired = false := by
  constructor
  · intro hreplays
    refine ⟨fun hzero => not_replays (Or.inl hzero) hreplays, ?_⟩
    have hempty : V.deserialize [] ≠ none := fun hnone => not_replays (Or.inr hnone) hreplays
    have hmode : mode ≠ .pbJson := fun hjson => hempty (hV.emptyJson hjson)
    exact ⟨hmode, (hV.empty hmode).mp (Option.isSome_iff_ne_none.mpr hempty)⟩
  · rintro ⟨hsize, hmode, hrequired⟩ m s hrun
    have hempty := (hV.empty hmode).mpr hrequired
    have hpending : Pending K V s := hrun.invariant (pending_init m) fun t a t' ht _ hstep =>
      ht.step (hK.roundTrip hmode) (hV.roundTrip hmode) hempty hstep
    exact ⟨hpending.contents s, exists_drained hsize s⟩

/-- In binary, messages with one optional `bool` field. -/
def optionalFlag : MessageType (Option Bool) where
  hasRequired := false
  serialize
    | none => []
    | some flag => [8, if flag then 1 else 0]
  deserialize
    | [] => some none
    | [8, 0] => some (some false)
    | [8, 1] => some (some true)
    | _ => none

/-- In binary, messages with one required `bool` field. -/
def requiredFlag : MessageType Bool where
  hasRequired := true
  serialize flag := [8, if flag then 1 else 0]
  deserialize
    | [8, 0] => some false
    | [8, 1] => some true
    | _ => none

theorem optionalFlag_documented : optionalFlag.Documented .pbBinary where
  roundTrip := fun _ message => by rcases message with _ | _ | _ <;> rfl
  empty := fun _ => by simp [optionalFlag]
  emptyJson := fun hjson => by cases hjson

/-- A log of such messages is replayed, deletes and all. -/
theorem replays_optionalFlag : Replays optionalFlag optionalFlag .sync 100 :=
  (replays_iff optionalFlag optionalFlag .pbBinary optionalFlag_documented optionalFlag_documented
    .sync 100).mpr
    ⟨by decide, by decide, rfl⟩

/-- With a required field deletes are lost. -/
theorem not_replays_requiredFlag : ¬ Replays requiredFlag requiredFlag .migration 100 :=
  not_replays (Or.inr rfl)

end RedoReplay

end Idgs.Store
