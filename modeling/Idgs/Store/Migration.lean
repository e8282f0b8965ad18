import Idgs.Common.Run
import Idgs.Store.Transfer

/-!
# Migration of a partition

The source member copies one partition of a store to the target member while clients write to it. A
`StoreMigrationSourceActor` takes a snapshot, registers itself with the store, and answers requests
with batches of the snapshot and then of its redo log; when both are exhausted it tells the target
that the migration is complete. A write is applied first; only then, as a step of its own, the
writer looks at the partition's state and hands the write to the registered actors.
-/

namespace Idgs.Store

open Function List

namespace Migration

variable {κ ν : Type*} [DecidableEq κ]

/-- A write that is applied, but whose redo log step is still to come. `late` says that the snapshot
had been taken before. -/
structure Pending (κ ν : Type*) where
  redo : RedoLog κ ν
  late : Bool

/-- The partition on both members, the writers and the actor. `logged` are the keys whose writes
have gone to the redo log, `sent` is the source's content when it sent
`STORE_MIGRATION_COMPLETE`. -/
structure State (κ ν : Type*) extends Transfer κ ν where
  source : StoreMap κ ν
  target : StoreMap κ ν := ∅
  pending : List (Pending κ ν) := []
  isSource : Bool
  logged : List κ := []
  sent : Option (StoreMap κ ν) := none

/-- The target has sent its first request. The partition's state may be `PS_SOURCE` already, for
another store. -/
def init (source : StoreMap κ ν) (isSource : Bool) : State κ ν where
  source := source
  isSource := isSource

/-- Steps: a client's write is applied, the `i`th write takes its redo log step, the `PS_SOURCE`
event is delivered at the source, the source handles what comes next in the exchange, the target
does. -/
inductive Step (κ ν : Type*)
  | put (r : Request κ ν)
  | log (i : ℕ)
  | sourceEvent
  | source
  | target

/-- `StoreServiceActor::addToRedoLog` for the write that has been applied, if the state is
`PS_SOURCE`. -/
def addToRedoLog (s : State κ ν) (t : Pending κ ν) : State κ ν :=
  if s.isSource = true ∧ s.registered = true then
    { s with redoLog := s.redoLog ++ [t.redo], logged := s.logged ++ [t.redo.key] }
  else s

/-- `StoreMigrationSourceActor::handleMigrationRequest`, up to the point where nothing is found. -/
def handleMigrationRequest (batchSize : ℕ) (s : State κ ν) : State κ ν :=
  { s with toTransfer := s.toTransfer.handleRequest batchSize }

/-- `StoreMigrationTargetActor::handleMigrationData`. -/
def handleMigrationData (emptyValue : Option ν) (batch : List (RedoLog κ ν)) (s : State κ ν) :
    State κ ν :=
  { s with target := batch.foldl (handleItem emptyValue) s.target, exchange := .request }

/-- One step. -/
def step (batchSize : ℕ) (emptyValue : Option ν) (s : State κ ν) : Step κ ν → Option (State κ ν)
  | .put r =>
    some { s with
      source := r.apply s.source
      pending := s.pending ++ [⟨r.redoLog, s.iterator.isSome⟩] }
  | .log i =>
    match s.pending[i]? with
    | some t => some (addToRedoLog { s with pending := s.pending.eraseIdx i } t)
    | none => none
  | .sourceEvent => some { s with isSource := true }
  | .source =>
    match s.exchange with
    | .firstRequest =>
      -- a partition without data needs no actor
      if s.source.size = 0 then some { s with exchange := .complete, sent := some s.source }
      else some { s with exchange := .creating }
    | .creating =>
      -- `setStore` takes the snapshot and then registers the actor
      match s.iterator with
      | none => some { s with iterator := some s.source.entries }
      | some _ => some { s with registered := true, exchange := .request }
    | .request => some (handleMigrationRequest batchSize s)
    | .completing =>
      some { s with exchange := .complete, sent := some s.source, registered := false }
    | _ => none
  | .target =>
    match s.exchange with
    | .data batch =>
      some (handleMigrationData emptyValue batch s)
    | .complete => some { s with exchange := .done }
    | _ => none

/-- When the target has processed `STORE_MIGRATION_COMPLETE`, it has what the source had when it
sent it. -/
def Delivered (s : State κ ν) : Prop :=
  ∀ source, s.exchange = .done → s.sent = some source → s.target.contents = source.contents

/-- The redo log misses no write and keeps their order: writes to a key take their redo log step in
the order in which they were applied; one that was applied after the snapshot takes it when the
state is `PS_SOURCE` and the actor is registered; a delete is logged only if an empty value can be
parsed; and when `STORE_MIGRATION_COMPLETE` is sent, the redo log is still empty and no redo log
step is outstanding, but for writes before the snapshot to keys that have not been logged. -/
def Complete (emptyValue : Option ν) (s : State κ ν) : Step κ ν → Prop
  | .log i => s.sent.isNone = true → ∀ t ∈ s.pending[i]?,
      (∀ t' ∈ s.pending.take i, t'.redo.key ≠ t.redo.key) ∧
      (t.late = true → s.isSource = true ∧ s.registered = true) ∧
      (t.redo.opName = .internalDelete → s.isSource = true → s.registered = true →
        emptyValue.isSome = true)
  | .source => s.exchange matches .completing → s.redoLog = [] ∧
      ∀ t ∈ s.pending, t.late = false ∧ t.redo.key ∉ s.logged
  | _ => True

instance (emptyValue : Option ν) (s : State κ ν) (a : Step κ ν) :
    Decidable (Complete emptyValue s a) := by
  unfold Complete
  split <;> infer_instance

/-! ## The invariant -/

/-- The target's content once everything outstanding is handled. -/
def view (s : State κ ν) : κ → Option ν :=
  Common.writeAll s.target.contents (s.outstanding.map itemWrite)

/-- Before `STORE_MIGRATION_COMPLETE` is sent. A key holds what the last outstanding write to it
says; a key without one, or with writes before the snapshot only, none of them logged, will be on
the target what it is on the source. -/
structure Inv (emptyValue : Option ν) (s : State κ ν) : Prop where
  requests : ∀ t ∈ s.pending, ∃ r : Request κ ν, t.redo = r.redoLog
  order : ∀ k t, (s.pending.filter fun t => t.redo.key = k).getLast? = some t →
    s.source.contents k = (itemWrite t.redo).2
  parses : ∀ data ∈ s.outstanding, Parses emptyValue data
  late : ∀ t ∈ s.pending, t.late = true → s.iterator.isSome = true
  registered : s.registered = true → s.iterator.isSome = true
  start : s.iterator = none → s.outstanding = [] ∧ s.target = ∅ ∧
    (s.exchange = .firstRequest ∨ s.exchange = .creating)
  unlogged : ¬(s.isSource = true ∧ s.registered = true) → s.logged = []
  agree : s.iterator.isSome = true → ∀ k,
    (∀ t ∈ s.pending, t.redo.key = k → t.late = false ∧ k ∉ s.logged) →
      view s k = s.source.contents k
  exchange : s.exchange ≠ .complete ∧ s.exchange ≠ .done
  completing : s.exchange = .completing → s.iterator = some []
  creating : s.exchange = .firstRequest → s.iterator = none

/-- The whole run. -/
def Ok (emptyValue : Option ν) (s : State κ ν) : Prop :=
  match s.sent with
  | none => Inv emptyValue s
  | some source =>
    (s.exchange = .complete ∨ s.exchange = .done) ∧ s.target.contents = source.contents

theorem inv_init (emptyValue : Option ν) (source : StoreMap κ ν) (isSource : Bool) :
    Inv emptyValue (init source isSource) where
  requests := fun _ ht => absurd ht not_mem_nil
  order := by rintro _ _ ⟨⟩
  parses := fun _ hdata => absurd hdata not_mem_nil
  late := fun _ ht => absurd ht not_mem_nil
  registered := by rintro ⟨⟩
  start := fun _ => ⟨rfl, rfl, .inl rfl⟩
  unlogged := fun _ => rfl
  agree := by rintro ⟨⟩
  exchange := ⟨(by rintro ⟨⟩), (by rintro ⟨⟩)⟩
  completing := by rintro ⟨⟩
  creating := fun _ => rfl

theorem Ok.delivered {emptyValue : Option ν} {s : State κ ν} (h : Ok emptyValue s) :
    Delivered s := by
  intro source _ hsent
  rw [Ok, hsent] at h
  exact h.2

section Steps

variable {emptyValue : Option ν} {s : State κ ν}

/-- A client's write is applied. -/
theorem Inv.put (h : Inv emptyValue s) (r : Request κ ν) :
    Inv emptyValue { s with
      source := r.apply s.source
      pending := s.pending ++ [⟨r.redoLog, s.iterator.isSome⟩] } where
  __ := h
  requests := by
    intro t ht
    rcases mem_append.mp ht with ht | ht
    · exact h.requests t ht
    · obtain rfl := mem_singleton.mp ht
      exact ⟨r, rfl⟩
  order := by
    intro k t ht
    dsimp only at ht ⊢
    rw [Request.contents_apply, filter_append] at *
    by_cases hk : r.key = k
    · have hlast : [(⟨r.redoLog, s.iterator.isSome⟩ : Pending κ ν)].filter
          (fun t => t.redo.key = k) = [⟨r.redoLog, s.iterator.isSome⟩] := by
        simp [hk]
      rw [hlast, getLast?_append, getLast?_singleton, Option.some_or] at ht
      obtain rfl := Option.some.inj ht
      rw [itemWrite_redoLog, hk, update_self]
      rfl
    · have hlast : [(⟨r.redoLog, s.iterator.isSome⟩ : Pending κ ν)].filter
          (fun t => t.redo.key = k) = [] := by
        simp [hk]
      rw [hlast, append_nil] at ht
      rw [update_of_ne (Ne.symm hk)]
      exact h.order k t ht
  late := by
    intro t ht hlate
    rcases mem_append.mp ht with ht | ht
    · exact h.late t ht hlate
    · obtain rfl := mem_singleton.mp ht
      exact hlate
  agree := by
    intro hiter k hk
    dsimp only at hiter hk ⊢
    -- the key of a write after the snapshot is outstanding
    have hne : r.key ≠ k := by
      rintro rfl
      have hlate := (hk _ (mem_append_right _ mem_cons_self) (Request.redoLog_key r)).1
      rw [hiter] at hlate
      cases hlate
    rw [Request.contents_apply, update_of_ne (Ne.symm hne)]
    exact h.agree hiter k fun t ht => hk t (mem_append_left _ ht)

omit [DecidableEq κ] in
/-- The pending writes around the one that takes its redo log step. -/
theorem pending_split {i : ℕ} {t : Pending κ ν} (ht : s.pending[i]? = some t) :
    s.pending = s.pending.take i ++ t :: s.pending.drop (i + 1) ∧
      s.pending.eraseIdx i = s.pending.take i ++ s.pending.drop (i + 1) := by
  obtain ⟨hi, rfl⟩ := List.getElem?_eq_some_iff.mp ht
  refine ⟨?_, eraseIdx_eq_take_drop_succ _ _⟩
  rw [getElem_cons_drop hi, take_append_drop]

section

variable (h : Inv emptyValue s)

include h

/-- A write takes its redo log step. -/
theorem Inv.log {i : ℕ} {t : Pending κ ν} (ht : s.pending[i]? = some t)
    (hfirst : ∀ t' ∈ s.pending.take i, t'.redo.key ≠ t.redo.key)
    (hlate : t.late = true → s.isSource = true ∧ s.registered = true)
    (hdelete : t.redo.opName = .internalDelete → s.isSource = true → s.registered = true →
      emptyValue.isSome = true) :
    Inv emptyValue (addToRedoLog { s with pending := s.pending.eraseIdx i } t) := by
  obtain ⟨hsplit, herase⟩ := pending_split ht
  have hmem : t ∈ s.pending := mem_of_getElem? ht
  have hsub : ∀ t' ∈ s.pending.eraseIdx i, t' ∈ s.pending :=
    fun t' ht' => (eraseIdx_sublist _ _).subset ht'
  -- the writes to the key that stay outstanding come after `t`
  have hkey : (s.pending.filter fun t' => t'.redo.key = t.redo.key) =
      t :: (s.pending.eraseIdx i).filter fun t' => t'.redo.key = t.redo.key := by
    have hnone : ((s.pending.take i).filter fun t' => t'.redo.key = t.redo.key) = [] :=
      filter_eq_nil_iff.mpr fun t' ht' => by simpa using hfirst t' ht'
    rw [herase, filter_append, hnone, nil_append]
    conv_lhs => rw [hsplit]
    rw [filter_append, hnone, nil_append, filter_cons, if_pos (by simp)]
  have hother : ∀ k, k ≠ t.redo.key → (s.pending.filter fun t' => t'.redo.key = k) =
      (s.pending.eraseIdx i).filter fun t' => t'.redo.key = k := by
    intro k hk
    rw [herase, filter_append]
    conv_lhs => rw [hsplit]
    rw [filter_append, filter_cons, if_neg (by simpa using Ne.symm hk)]
  have horder : ∀ k t', ((s.pending.eraseIdx i).filter fun t => t.redo.key = k).getLast? = some t' →
      s.source.contents k = (itemWrite t'.redo).2 := by
    intro k t' ht'
    refine h.order k t' ?_
    by_cases hk : k = t.redo.key
    · subst hk
      rw [hkey, getLast?_cons, ht']
      rfl
    · rw [hother k hk]
      exact ht'
  unfold addToRedoLog
  split
  · -- logged
    rename_i hgate
    have hview : ∀ k, view { s with
        pending := s.pending.eraseIdx i
        redoLog := s.redoLog ++ [t.redo]
        logged := s.logged ++ [t.redo.key] } k =
          if t.redo.key = k then (itemWrite t.redo).2 else view s k := by
      intro k
      have hout :
          ({ s.toTransfer with redoLog := s.redoLog ++ [t.redo] } : Transfer κ ν).outstanding =
          s.outstanding ++ [t.redo] := by
        simp [Transfer.outstanding]
      rw [view, hout, map_append, map_singleton, Common.writeAll_concat]
      rfl
    have hiter := h.registered hgate.2
    refine ⟨fun t' ht' => h.requests t' (hsub t' ht'), horder, fun data hdata => ?_,
      fun t' ht' => h.late t' (hsub t' ht'), h.registered, fun hnone => ?_,
      fun hnot => absurd hgate hnot, fun _ k hk => ?_, h.exchange, h.completing, h.creating⟩
    · have hdata' : data ∈ s.outstanding ∨ data = t.redo := by
        simp only [Transfer.outstanding, mem_append, mem_singleton] at hdata ⊢
        tauto
      rcases hdata' with hold | rfl
      · exact h.parses data hold
      · obtain ⟨r, hr⟩ := h.requests t hmem
        rw [hr] at hdelete ⊢
        exact parses_redoLog fun hop => hdelete hop hgate.1 hgate.2
    · dsimp only at hnone
      rw [hnone] at hiter
      cases hiter
    · rw [hview]
      dsimp only at hk ⊢
      split
      · rename_i hkt
        -- nothing to the key is outstanding any more, so `t` was the last write to it
        have hnil : ((s.pending.eraseIdx i).filter fun t' => t'.redo.key = t.redo.key) = [] := by
          refine filter_eq_nil_iff.mpr fun t' ht' hkey' => ?_
          refine (hk t' ht' ((of_decide_eq_true hkey').trans hkt)).2 ?_
          rw [← hkt]
          exact mem_append_right _ mem_cons_self
        rw [hnil] at hkey
        rw [← hkt]
        exact (h.order t.redo.key t (by rw [hkey]; rfl)).symm
      · rename_i hkt
        refine h.agree hiter k fun t' ht' hkey' => ?_
        have ht'' : t' ∈ s.pending.eraseIdx i := by
          have hin : t' ∈ s.pending.filter fun t => t.redo.key = k :=
            mem_filter.mpr ⟨ht', decide_eq_true hkey'⟩
          rw [hother k (Ne.symm hkt)] at hin
          exact (mem_filter.mp hin).1
        obtain ⟨hnotLate, hnotLogged⟩ := hk t' ht'' hkey'
        exact ⟨hnotLate, fun hin => hnotLogged (mem_append_left _ hin)⟩
  · -- not logged, so the write is in the snapshot
    rename_i hgate
    have hnotLate : t.late = false := by
      cases hl : t.late with
      | false => rfl
      | true => exact absurd (hlate hl) hgate
    refine ⟨fun t' ht' => h.requests t' (hsub t' ht'), horder, h.parses,
      fun t' ht' => h.late t' (hsub t' ht'), h.registered, h.start, h.unlogged,
      fun hiter k hk => ?_, h.exchange, h.completing, h.creating⟩
    dsimp only at hiter hk
    have hunlogged : k ∉ s.logged := by
      rw [h.unlogged hgate]
      exact not_mem_nil
    refine h.agree hiter k fun t' ht' hkey' => ?_
    rw [hsplit] at ht'
    rcases mem_append.mp ht' with ht' | ht'
    · exact hk t' (herase ▸ mem_append_left _ ht') hkey'
    · rcases mem_cons.mp ht' with rfl | ht'
      · exact ⟨hnotLate, hunlogged⟩
      · exact hk t' (herase ▸ mem_append_right _ ht') hkey'

/-- A step that only moves what is outstanding along. -/
theorem Inv.move {s' : State κ ν} (hiter : s.iterator.isSome = true)
    (hiter' : s'.iterator.isSome = true) (hsource : s'.source = s.source)
    (hpending : s'.pending = s.pending) (hgate : s'.isSource = s.isSource)
    (hregistered : s'.registered = s.registered) (hlogged : s'.logged = s.logged)
    (hview : view s' = view s) (hout : ∀ data ∈ s'.outstanding, data ∈ s.outstanding)
    (hexchange : s'.exchange ≠ .complete ∧ s'.exchange ≠ .done ∧ s'.exchange ≠ .firstRequest)
    (hcompleting : s'.exchange = .completing → s'.iterator = some []) : Inv emptyValue s' where
  requests := hpending ▸ h.requests
  order := by
    rw [hsource, hpending]
    exact h.order
  parses := fun data hdata => h.parses data (hout data hdata)
  late := fun _ _ _ => hiter'
  registered := fun _ => hiter'
  start := fun hnone => by
    rw [hnone] at hiter'
    cases hiter'
  unlogged := by
    rw [hgate, hregistered, hlogged]
    exact h.unlogged
  agree := by
    intro _ k hk
    rw [hpending, hlogged] at hk
    rw [hview, hsource]
    exact h.agree hiter k hk
  exchange := ⟨hexchange.1, hexchange.2.1⟩
  completing := hcompleting
  creating := fun hfirst => absurd hfirst hexchange.2.2

/-- Outside of the first two phases the snapshot has been taken. -/
theorem Inv.iterator_isSome (hfirst : s.exchange ≠ .firstRequest)
    (hcreating : s.exchange ≠ .creating) : s.iterator.isSome = true := by
  cases hiter : s.iterator with
  | some it => rfl
  | none =>
    rcases (h.start hiter).2.2 with heq | heq
    · exact absurd heq hfirst
    · exact absurd heq hcreating

/-- The actor answers a request with a batch, or finds that there is nothing left. -/
theorem Inv.request (batchSize : ℕ) (hrequest : s.exchange = .request) :
    Inv emptyValue (handleMigrationRequest batchSize s) := by
  have hiter := h.iterator_isSome (by rw [hrequest]; rintro ⟨⟩)
    (by rw [hrequest]; rintro ⟨⟩)
  obtain ⟨it, hit⟩ := Option.isSome_iff_exists.mp hiter
  rw [handleMigrationRequest]
  rcases Transfer.handleRequest_cases batchSize hit hrequest with
    ⟨it', redoLog, batch, heq, hout, -⟩ | ⟨rfl, hredo, heq⟩
  · rw [heq]
    have hout' : ({ s with toTransfer := ⟨some it', s.registered, redoLog, .data batch⟩ } :
        State κ ν).outstanding = s.outstanding := hout
    exact h.move hiter rfl rfl rfl rfl rfl rfl (by rw [view, hout']; rfl) (fun data hd =>
      hout' ▸ hd)
      ⟨(by rintro ⟨⟩), (by rintro ⟨⟩), (by rintro ⟨⟩)⟩ (by rintro ⟨⟩)
  · rw [heq]
    have hout : ({ s.toTransfer with exchange := .completing } : Transfer κ ν).outstanding =
        s.outstanding := by
      simp only [Transfer.outstanding, Exchange.batch, hrequest]
    exact h.move hiter hiter rfl rfl rfl rfl rfl (by rw [view, hout]; rfl) (fun data hd =>
      hout ▸ hd)
      ⟨(by rintro ⟨⟩), (by rintro ⟨⟩), (by rintro ⟨⟩)⟩ (fun _ => hit)

/-- The target handles a batch. -/
theorem Inv.batch {batch : List (RedoLog κ ν)} (hdata : s.exchange = .data batch) :
    Inv emptyValue (handleMigrationData emptyValue batch s) := by
  have hiter := h.iterator_isSome (by rw [hdata]; rintro ⟨⟩)
    (by rw [hdata]; rintro ⟨⟩)
  have hout : s.outstanding = batch ++ (handleMigrationData emptyValue batch s).outstanding :=
    Transfer.outstanding_of_data hdata
  have hview : view (handleMigrationData emptyValue batch s) = view s := by
    have hparses : ∀ data ∈ batch, Parses emptyValue data := fun data hd =>
      h.parses data (hout ▸ mem_append_left _ hd)
    rw [view, view, hout, map_append, Common.writeAll_append, ← contents_batch hparses]
    rfl
  exact h.move hiter hiter rfl rfl rfl rfl rfl hview
    (fun data hd => hout ▸ mem_append_right _ hd)
    ⟨(by rintro ⟨⟩), (by rintro ⟨⟩), (by rintro ⟨⟩)⟩ (by rintro ⟨⟩)

/-- An actor is created for a partition with data. -/
theorem Inv.create (hfirst : s.exchange = .firstRequest) :
    Inv emptyValue { s with exchange := .creating } := by
  have hiter := h.creating hfirst
  have hout : ({ s.toTransfer with exchange := .creating } : Transfer κ ν).outstanding =
      s.outstanding := by
    simp only [Transfer.outstanding, Exchange.batch, hfirst]
  obtain ⟨hnothing, htarget, -⟩ := h.start hiter
  refine ⟨h.requests, h.order, fun data hdata => h.parses data (hout ▸ hdata), h.late, h.registered,
    fun _ => ⟨hout.trans hnothing, htarget, .inr rfl⟩, h.unlogged, fun hsome => ?_,
    ⟨(by rintro ⟨⟩), (by rintro ⟨⟩)⟩, (by rintro ⟨⟩), (by rintro ⟨⟩)⟩
  dsimp only at hsome
  rw [hiter] at hsome
  cases hsome

/-- The snapshot is taken. -/
theorem Inv.snapshot (hiter : s.iterator = none) (hcreating : s.exchange = .creating) :
    Inv emptyValue { s with iterator := some s.source.entries } := by
  obtain ⟨hout, htarget, -⟩ := h.start hiter
  have hredo : s.redoLog = [] := by
    rw [Transfer.outstanding] at hout
    exact (append_eq_nil_iff.mp (append_eq_nil_iff.mp hout).2).2
  have hnew : ({ s.toTransfer with iterator := some s.source.entries } : Transfer κ ν).outstanding =
      s.source.entries.map snapshotItem := by
    simp [Transfer.outstanding, hcreating, Exchange.batch, hredo]
  refine ⟨h.requests, h.order, fun data hdata => ?_, fun _ _ _ => rfl, fun _ => rfl,
    (by rintro ⟨⟩), h.unlogged, fun _ k _ => ?_, h.exchange, fun hcompleting => ?_,
    fun hfirst => ?_⟩
  · rw [hnew] at hdata
    obtain ⟨e, -, rfl⟩ := mem_map.mp hdata
    exact parses_snapshotItem emptyValue e
  · rw [view, hnew, map_itemWrite_snapshot]
    dsimp only
    rw [htarget, StoreMap.contents_empty, StoreMap.writeAll_entries]
  · rw [hcreating] at hcompleting
    cases hcompleting
  · rw [hcreating] at hfirst
    cases hfirst

/-- The actor registers itself and is sent the request. -/
theorem Inv.register (hiter : s.iterator.isSome = true) (hcreating : s.exchange = .creating) :
    Inv emptyValue { s with registered := true, exchange := .request } := by
  have hout : ({ s.toTransfer with registered := true, exchange := .request } :
      Transfer κ ν).outstanding = s.outstanding := by
    simp only [Transfer.outstanding, Exchange.batch, hcreating]
  refine ⟨h.requests, h.order, fun data hdata => h.parses data (hout ▸ hdata), h.late,
    fun _ => hiter, fun hnone => ?_, fun hnot => ?_, fun _ k hk => ?_,
    ⟨(by rintro ⟨⟩), (by rintro ⟨⟩)⟩, (by rintro ⟨⟩), (by rintro ⟨⟩)⟩
  · dsimp only at hnone
    rw [hnone] at hiter
    cases hiter
  · exact h.unlogged fun hgate => hnot ⟨hgate.1, rfl⟩
  · rw [view, hout]
    exact h.agree hiter k hk

/-- The `PS_SOURCE` event is delivered. -/
theorem Inv.sourceEvent : Inv emptyValue { s with isSource := true } :=
  ⟨h.requests, h.order, h.parses, h.late, h.registered, h.start,
    fun hnot => h.unlogged fun hgate => hnot ⟨rfl, hgate.2⟩, h.agree, h.exchange, h.completing,
    h.creating⟩

/-- `STORE_MIGRATION_COMPLETE` is sent: nothing is outstanding. -/
theorem Inv.complete (hcompleting : s.exchange = .completing) (hredo : s.redoLog = [])
    (hpending : ∀ t ∈ s.pending, t.late = false ∧ t.redo.key ∉ s.logged) :
    s.target.contents = s.source.contents := by
  have hiter := h.completing hcompleting
  have hout : s.outstanding = [] := by
    simp [Transfer.outstanding, Exchange.batch, hcompleting, hiter, hredo]
  have hview : view s = s.target.contents := by rw [view, hout]; rfl
  rw [← hview]
  funext k
  refine h.agree (by rw [hiter]; rfl) k fun t ht hkey => ?_
  rw [← hkey]
  exact hpending t ht

end

end Steps

/-! ## Runs -/

/-- Every step that loses nothing keeps the invariant. -/
theorem Ok.step {batchSize : ℕ} {emptyValue : Option ν} {s s' : State κ ν} {a : Step κ ν}
    (h : Ok emptyValue s) (hcomplete : Complete emptyValue s a)
    (hstep : step batchSize emptyValue s a = some s') : Ok emptyValue s' := by
  unfold Ok at h
  cases hsent : s.sent with
  | none =>
    rw [hsent] at h
    dsimp only at h
    cases a with
    | put r =>
      cases hstep
      simpa only [Ok, hsent] using h.put r
    | log i =>
      simp only [Migration.step] at hstep
      split at hstep
      · rename_i t ht
        cases hstep
        obtain ⟨hfirst, hlate, hdelete⟩ := hcomplete (by rw [hsent]; rfl) t ht
        have hsent' : (addToRedoLog { s with pending := s.pending.eraseIdx i } t).sent =
            none := by
          unfold addToRedoLog
          split <;> exact hsent
        simpa only [Ok, hsent'] using h.log ht hfirst hlate hdelete
      · cases hstep
    | sourceEvent =>
      cases hstep
      simpa only [Ok, hsent] using h.sourceEvent
    | source =>
      simp only [Migration.step] at hstep
      split at hstep
      · rename_i hexchange
        split at hstep
        · rename_i hsize
          cases hstep
          refine ⟨.inl rfl, ?_⟩
          dsimp only
          rw [(h.start (h.creating hexchange)).2.1, StoreMap.contents_empty,
            StoreMap.contents_of_size_eq_zero hsize]
        · cases hstep
          simpa only [Ok, hsent] using h.create hexchange
      · rename_i hexchange
        split at hstep
        · rename_i hiter
          cases hstep
          simpa only [Ok, hsent] using h.snapshot hiter hexchange
        · rename_i it hiter
          cases hstep
          simpa only [Ok, hsent] using h.register (by rw [hiter]; rfl) hexchange
      · rename_i hexchange
        cases hstep
        have hsent' : (handleMigrationRequest batchSize s).sent = none := hsent
        simpa only [Ok, hsent'] using h.request batchSize hexchange
      · rename_i hexchange
        cases hstep
        obtain ⟨hredo, hpending⟩ := hcomplete (by rw [hexchange])
        exact ⟨.inl rfl, h.complete hexchange hredo hpending⟩
      · cases hstep
    | target =>
      simp only [Migration.step] at hstep
      split at hstep
      · rename_i batch hdata
        cases hstep
        have hsent' : (handleMigrationData emptyValue batch s).sent = none := hsent
        simpa only [Ok, hsent'] using h.batch hdata
      · rename_i hexchange
        exact absurd hexchange h.exchange.1
      · cases hstep
  | some source =>
    rw [hsent] at h
    obtain ⟨hexchange, hcontents⟩ := h
    cases a with
    | put _ | sourceEvent =>
      cases hstep
      simpa only [Ok, hsent] using And.intro hexchange hcontents
    | log i =>
      simp only [Migration.step] at hstep
      split at hstep
      · rename_i t ht
        cases hstep
        unfold addToRedoLog
        split
        · simpa only [Ok, hsent] using And.intro hexchange hcontents
        · simpa only [Ok, hsent] using And.intro hexchange hcontents
      · cases hstep
    | source =>
      simp only [Migration.step] at hstep
      rcases hexchange with heq | heq <;> rw [heq] at hstep <;> cases hstep
    | target =>
      simp only [Migration.step] at hstep
      rcases hexchange with heq | heq
      · rw [heq] at hstep
        cases hstep
        rw [Ok, hsent]
        exact ⟨.inr rfl, hcontents⟩
      · rw [heq] at hstep
        cases hstep

/-- **Migration delivers the source's data**: in every run in which the redo log misses no write and
keeps their order, the target has exactly what the source had when it sent
`STORE_MIGRATION_COMPLETE`. -/
theorem delivered_of_complete {batchSize : ℕ} {emptyValue : Option ν} {source : StoreMap κ ν}
    {isSource : Bool} {s : State κ ν}
    (hrun : Common.Reaches (step batchSize emptyValue) (Complete emptyValue)
      (init source isSource) s) :
    Delivered s :=
  (hrun.invariant (P := Ok emptyValue) (inv_init emptyValue source isSource)
    fun _ _ _ h hcomplete hstep => h.step hcomplete hstep).delivered

/-! ## A write before the event -/

/-- A partition with one entry. -/
def oneEntry : StoreMap ℕ ℕ := AList.singleton 1 10

/-- The actor is created, the event is delivered, and only then a client's update is handled. -/
def eventFirst : List (Step ℕ ℕ) :=
  [.source, .source, .source, .sourceEvent, .put (.update 1 20), .log 0, .source, .target, .source,
    .target, .source, .source, .target]

/-- The update is handled before the event is delivered, so it is not logged. -/
def updateFirst : List (Step ℕ ℕ) :=
  [.source, .source, .source, .put (.update 1 20), .log 0, .sourceEvent, .source, .target, .source,
    .source, .target]

theorem eventFirst_delivered : ∃ s source,
    Common.replay (step 1 (some 0)) (Complete (some 0)) (init oneEntry false) eventFirst = some s ∧
      s.exchange = .done ∧ s.sent = some source ∧ source.contents 1 = some 20 ∧
      s.target.contents = source.contents := by
  have hbool : (Common.replay (step 1 (some 0)) (Complete (some 0)) (init oneEntry false)
      eventFirst).any (fun s => (s.exchange matches .done) && s.sent.any fun source =>
        source.contents 1 == some 20) = true := by
    decide +kernel
  obtain ⟨s, hs, hdone⟩ := (Option.any_eq_true _ _).mp hbool
  obtain ⟨hexchange, hsent⟩ := Bool.and_eq_true_iff.mp hdone
  obtain ⟨source, hsource, hvalue⟩ := (Option.any_eq_true _ _).mp hsent
  have hexchange' : s.exchange = .done := by
    cases hx : s.exchange <;> simp_all
  exact ⟨s, source, hs, hexchange', hsource, by simpa using hvalue,
    delivered_of_complete (Common.reaches_of_replay hs) source hexchange' hsource⟩

/-- The target has the old value when the migration is complete. -/
theorem not_delivered_of_run : ¬ ∀ s, Common.Reaches (step 1 (some 0)) Common.anyStep
    (init oneEntry false) s → Delivered s := by
  intro hall
  have hbool : (Common.replay (step 1 (some 0)) Common.anyStep (init oneEntry false)
      updateFirst).any (fun s => (s.exchange matches .done) && s.target.contents 1 == some 10 &&
        s.sent.any fun source => source.contents 1 == some 20) = true := by
    decide +kernel
  obtain ⟨s, hs, hdone⟩ := (Option.any_eq_true _ _).mp hbool
  simp only [Bool.and_eq_true, beq_iff_eq] at hdone
  obtain ⟨⟨hexchange, htarget⟩, hsent⟩ := hdone
  obtain ⟨source, hsource, hvalue⟩ := (Option.any_eq_true _ _).mp hsent
  have hexchange' : s.exchange = .done := by
    cases hx : s.exchange <;> simp_all
  have heq := hall s (Common.reaches_of_replay hs) source hexchange' hsource
  rw [heq, beq_iff_eq.mp hvalue] at htarget
  cases htarget

end Migration

end Idgs.Store
