import Idgs.Store.StoreMap

/-!
# Transfer of a store's data

A source actor copies the data of a store to a target actor, in answer to its requests: batches of a
snapshot, then batches of a redo log, then the message that says that the transfer is complete.
`StoreMigrationSourceActor` and `StoreSyncSourceActor` share this scheme, for a partition and for a
replicated store.
-/

namespace Idgs.Store

open Function List

variable {κ ν : Type*} [DecidableEq κ]

/-- The exchange between target and source: one message is under way, or the source works on one. -/
inductive Exchange (κ ν : Type*)
  /-- The first request, for the actor that is the same for all stores. -/
  | firstRequest
  /-- The source actor of the store is set up. -/
  | creating
  /-- A request for that actor. -/
  | request
  /-- A batch for the target. -/
  | data (batch : List (RedoLog κ ν))
  /-- The actor has found neither entries nor redo logs. -/
  | completing
  /-- The message that the transfer is complete. -/
  | complete
  /-- The target has processed it. -/
  | done

/-- The items of the message under way. -/
def Exchange.batch : Exchange κ ν → List (RedoLog κ ν)
  | data batch => batch
  | _ => []

/-- The source actor of a store, with what is under way between it and its target. -/
structure Transfer (κ ν : Type*) where
  iterator : Option (List (Sigma fun _ : κ => ν)) := none
  registered : Bool := false
  redoLog : List (RedoLog κ ν) := []
  exchange : Exchange κ ν := .firstRequest

/-- An entry of the snapshot as an item of a batch. -/
def snapshotItem (e : Sigma fun _ : κ => ν) : RedoLog κ ν :=
  ⟨.internalInsert, e.1, some e.2⟩

/-- An item of a batch at the target; `emptyValue` is what an empty value field is parsed to. -/
def handleItem (emptyValue : Option ν) (m : StoreMap κ ν) (data : RedoLog κ ν) : StoreMap κ ν :=
  match data.value.or emptyValue with
  | none => m
  | some value =>
    match data.opName with
    | .internalInsert => (m.set data.key value).2
    | .internalUpdate => (m.set data.key value).2
    | .internalDelete => (m.remove data.key).2.2

namespace Transfer

/-- A request at the source actor, up to the point where it finds nothing. -/
def handleRequest (batchSize : ℕ) (t : Transfer κ ν) : Transfer κ ν :=
  match t.iterator.getD [] with
  | e :: es =>
    { t with
      iterator := some ((e :: es).drop batchSize)
      exchange := .data (((e :: es).take batchSize).map snapshotItem) }
  | [] =>
    if t.redoLog = [] then { t with exchange := .completing }
    else
      { t with
        redoLog := t.redoLog.drop batchSize
        exchange := .data (t.redoLog.take batchSize) }

/-- The items that the target has yet to handle, in the order in which it will. -/
def outstanding (t : Transfer κ ν) : List (RedoLog κ ν) :=
  t.exchange.batch ++ ((t.iterator.getD []).map snapshotItem ++ t.redoLog)

omit [DecidableEq κ] in
/-- What a request at the source actor does. -/
theorem handleRequest_cases {t : Transfer κ ν} {it : List (Sigma fun _ : κ => ν)} (batchSize : ℕ)
    (hit : t.iterator = some it) (hrequest : t.exchange = .request) :
    (∃ it' redoLog batch, t.handleRequest batchSize =
        ⟨some it', t.registered, redoLog, .data batch⟩ ∧
      batch ++ (it'.map snapshotItem ++ redoLog) = t.outstanding ∧ redoLog <:+ t.redoLog) ∨
    (it = [] ∧ t.redoLog = [] ∧
      t.handleRequest batchSize = { t with exchange := .completing }) := by
  have hout : t.outstanding = it.map snapshotItem ++ t.redoLog := by
    simp only [outstanding, Exchange.batch, hrequest, hit, Option.getD_some, nil_append]
  rw [hout]
  unfold handleRequest
  rw [hit, Option.getD_some]
  cases it with
  | cons e es =>
    -- a batch of the snapshot
    refine .inl ⟨_, _, _, rfl, ?_, suffix_rfl⟩
    rw [← append_assoc, ← map_append, take_append_drop]
  | nil =>
    by_cases hredo : t.redoLog = []
    · refine .inr ⟨rfl, hredo, ?_⟩
      simp only [hredo, if_true]
    · -- a batch of the redo log
      refine .inl ⟨[], t.redoLog.drop batchSize, t.redoLog.take batchSize, ?_, ?_,
        drop_suffix _ _⟩
      · simp only [if_neg hredo]
      · rw [map_nil, nil_append, nil_append, take_append_drop]

omit [DecidableEq κ] in
/-- While it works on a batch, the items outstanding are those of the batch and those that
follow. -/
theorem outstanding_of_data {t : Transfer κ ν} {batch : List (RedoLog κ ν)}
    (h : t.exchange = .data batch) :
    t.outstanding = batch ++ outstanding { t with exchange := .request } := by
  simp only [outstanding, Exchange.batch, h, nil_append]

end Transfer

/-! ## Items as writes -/

/-- An item as a write. -/
def itemWrite (data : RedoLog κ ν) : κ × Option ν :=
  (data.key, if data.opName = .internalDelete then none else data.value)

/-- The target can parse the value of the item. -/
def Parses (emptyValue : Option ν) (data : RedoLog κ ν) : Prop :=
  if data.opName = .internalDelete then (data.value.or emptyValue).isSome = true
  else data.value.isSome = true

theorem contents_handleItem {emptyValue : Option ν} {data : RedoLog κ ν}
    (h : Parses emptyValue data) (m : StoreMap κ ν) :
    (handleItem emptyValue m data).contents =
      update m.contents (itemWrite data).1 (itemWrite data).2 := by
  obtain ⟨opName, key, value⟩ := data
  unfold handleItem
  cases opName with
  | internalInsert | internalUpdate =>
    obtain ⟨v, rfl⟩ := Option.isSome_iff_exists.mp h
    exact StoreMap.contents_set m key v
  | internalDelete =>
    obtain ⟨v, hv⟩ := Option.isSome_iff_exists.mp h
    dsimp only at hv ⊢
    rw [hv]
    exact StoreMap.contents_remove m key

/-- A batch at the target writes its items. -/
theorem contents_batch {emptyValue : Option ν} {batch : List (RedoLog κ ν)}
    (h : ∀ data ∈ batch, Parses emptyValue data) (m : StoreMap κ ν) :
    (batch.foldl (handleItem emptyValue) m).contents =
      Common.writeAll m.contents (batch.map itemWrite) := by
  induction batch generalizing m with
  | nil => rfl
  | cons data batch ih =>
    rw [foldl_cons, ih (fun d hd => h d (mem_cons_of_mem _ hd)), map_cons,
      Common.writeAll_cons, contents_handleItem (h data mem_cons_self)]

omit [DecidableEq κ] in
theorem itemWrite_redoLog (r : Request κ ν) : itemWrite r.redoLog = r.write := by cases r <;> rfl

omit [DecidableEq κ] in
/-- The snapshot can be parsed, and a client's write unless it is a delete. -/
theorem parses_snapshotItem (emptyValue : Option ν) (e : Sigma fun _ : κ => ν) :
    Parses emptyValue (snapshotItem e) := rfl

omit [DecidableEq κ] in
theorem parses_redoLog {emptyValue : Option ν} {r : Request κ ν}
    (h : r.redoLog.opName = .internalDelete → emptyValue.isSome = true) :
    Parses emptyValue r.redoLog := by
  cases r with
  | insert key value | update key value => rfl
  | delete key => simpa [Parses, Request.redoLog] using h rfl

omit [DecidableEq κ] in
/-- The snapshot writes its entries. -/
theorem map_itemWrite_snapshot (l : List (Sigma fun _ : κ => ν)) :
    (l.map snapshotItem).map itemWrite = l.map fun e => (e.1, some e.2) := by
  rw [map_map]
  rfl

end Idgs.Store
