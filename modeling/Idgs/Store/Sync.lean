import Idgs.Store.Replicas
import Idgs.Store.Transfer

/-!
# Synchronisation of a replicated store

A member that has come in copies a replicated store from a source member, while the clients' writes
are multicast to both. `StoreServiceActor::addToRedoLog` would hand a write to the source actors of
a replicated store, but `handleInsertStore`, `handleUpdateStore` and `handleDeleteStore` call it in
their branch for partitioned stores only: the redo log of a synchronisation stays empty, and nothing
relates the batches of the snapshot to the writes that reach the target on their own.
-/

namespace Idgs.Store

open Function List

open Cluster (Member)

namespace Sync

variable {κ ν : Type*} [DecidableEq κ]

/-- The replicas and the transfer between two of them. `early` are the writes that had been applied
when the source's content was read. -/
structure State (κ ν : Type*) extends Transfer κ ν where
  replicas : Replicas.State κ ν
  early : Option (List (Replicas.Message κ ν)) := none

/-- Steps: a step of the replicas, the source handles what comes next in the exchange, the target
does. -/
inductive Step (κ ν : Type*)
  | replicas (a : Replicas.Step κ ν)
  | source
  | target

/-- The target has nothing yet, and has sent its first request. -/
def init (target : ℤ) (stores : ℤ → StoreMap κ ν) : State κ ν where
  replicas := { stores := Function.update stores target ∅ }

/-- `StoreSyncSourceActor::handleSyncRequest`, up to the point where nothing is found. -/
def handleSyncRequest (batchSize : ℕ) (s : State κ ν) : State κ ν :=
  { s with toTransfer := s.toTransfer.handleRequest batchSize }

/-- `StoreSyncTargetActor::handleSyncData`. -/
def handleSyncData (target : ℤ) (emptyValue : Option ν) (batch : List (RedoLog κ ν))
    (s : State κ ν) :
    State κ ν :=
  { s with
    replicas := { s.replicas with
      stores := Function.update s.replicas.stores target
        (batch.foldl (handleItem emptyValue) (s.replicas.stores target)) }
    exchange := .request }

/-- One step. -/
def step (primary : κ → ℤ) (members : List Member) (source target : ℤ) (batchSize : ℕ)
    (emptyValue : Option ν) (s : State κ ν) : Step κ ν → Option (State κ ν)
  | .replicas a => (Replicas.step primary members s.replicas a).map fun r =>
    { s with replicas := r }
  | .source =>
    match s.exchange with
    | .firstRequest =>
      -- a store without data needs no actor
      if (s.replicas.stores source).size = 0 then
        some { s with exchange := .complete, early := some s.replicas.applied }
      else some { s with exchange := .creating }
    | .creating =>
      -- `setStore` takes the snapshot and then registers the actor
      match s.iterator with
      | none =>
        some { s with
          iterator := some (s.replicas.stores source).entries
          early := some s.replicas.applied }
      | some _ => some { s with registered := true, exchange := .request }
    | .request => some (handleSyncRequest batchSize s)
    | .completing => some { s with exchange := .complete, registered := false }
    | _ => none
  | .target =>
    match s.exchange with
    | .data batch => some (handleSyncData target emptyValue batch s)
    | .complete => some { s with exchange := .done }
    | _ => none

/-- When the target has processed `SYNC_COMPLETE` and all writes have been delivered, it has what
the source has. -/
def Converged (source target : ℤ) (s : State κ ν) : Prop :=
  s.exchange = .done → Replicas.Delivered s.replicas →
    (s.replicas.stores target).contents = (s.replicas.stores source).contents

/-- No batch overwrites a later write: source and target apply the writes to a key in one order, and
when the target handles a batch, the source had already applied, before its content was read, what
the target has applied to the keys of the batch. -/
def Timely (source target : ℤ) (s : State κ ν) : Step κ ν → Prop
  | .replicas a => Replicas.InOrder [source, target] s.replicas a
  | .source => True
  | .target => ∀ data ∈ s.exchange.batch,
      Replicas.works s.replicas.applied target data.key <+:
        Replicas.works (s.early.getD []) source data.key

instance [DecidableEq ν] (source target : ℤ) (s : State κ ν) (a : Step κ ν) :
    Decidable (Timely source target s a) := by
  unfold Timely
  split <;> infer_instance

/-! ## The invariant -/

/-- The target holds what the last write to the key says that it has applied. -/
def LastWritten (target : ℤ) (s : State κ ν) (k : κ) : Prop :=
  ∃ w, (Replicas.works s.replicas.applied target k).getLast? = some w ∧
    (s.replicas.stores target).contents k = w.2.written

/-- The source's content when it was read. -/
def snapshot (initial : StoreMap κ ν) (source : ℤ) (early : List (Replicas.Message κ ν)) :
    κ → Option ν :=
  Common.writeAll initial.contents (Replicas.writes early source)

/-- What holds at any time. -/
structure Base (members : List Member) (initial : StoreMap κ ν) (source target : ℤ)
    (s : State κ ν) :
    Prop where
  placed : Replicas.Placed (Replicas.multicast members) s.replicas
  ordered : Replicas.Ordered [source, target] s.replicas
  written : Replicas.Written initial source s.replicas
  redoLog : s.redoLog = []

/-- Before the source's content is read, the target has what clients have written. -/
structure Unread (target : ℤ) (s : State κ ν) : Prop where
  unread : s.early = none
  iterator : s.iterator = none
  exchange : s.exchange = .firstRequest ∨ s.exchange = .creating
  target : ∀ k, LastWritten target s k ∨
    (Replicas.works s.replicas.applied target k = [] ∧ (s.replicas.stores target).contents k = none)

/-- Afterwards a key's entry is still to come, or the target has its last write, or it has what the
source had and no write that the source did not have. -/
structure Read (initial : StoreMap κ ν) (source target : ℤ) (early : List (Replicas.Message κ ν))
    (s : State κ ν) : Prop where
  read : s.early = some early
  prior : early <+: s.replicas.applied
  items : ∀ data ∈ s.outstanding, data.opName = .internalInsert ∧ data.value.isSome = true ∧
    snapshot initial source early data.key = data.value
  target : ∀ k, (∃ data ∈ s.outstanding, data.key = k) ∨ LastWritten target s k ∨
    (Replicas.works s.replicas.applied target k <+: Replicas.works early source k ∧
      (s.replicas.stores target).contents k = snapshot initial source early k)
  first : s.exchange ≠ .firstRequest
  creating : s.exchange = .creating → s.iterator.isSome = true
  request : s.exchange = .request → s.iterator.isSome = true
  data : ∀ batch, s.exchange = .data batch → s.iterator.isSome = true
  finished : s.exchange = .completing ∨ s.exchange = .complete ∨ s.exchange = .done →
    s.iterator.getD [] = []

/-- The whole run. -/
def Inv (members : List Member) (initial : StoreMap κ ν) (source target : ℤ) (s : State κ ν) :
    Prop :=
  Base members initial source target s ∧
    (Unread target s ∨ ∃ early, Read initial source target early s)

theorem inv_init (members : List Member) {source target : ℤ} (hne : source ≠ target)
    (stores : ℤ → StoreMap κ ν) :
    Inv members (stores source) source target (init target stores) := by
  refine ⟨⟨Replicas.placed_init _ _, fun _ _ _ _ _ => .refl _, ?_, rfl⟩,
    .inl ⟨rfl, rfl, .inl rfl, fun k => ?_⟩⟩
  · simp only [Replicas.Written, init, update_of_ne hne]
    rfl
  · refine .inr ⟨rfl, ?_⟩
    simp only [init, update_self, StoreMap.contents_empty]

section Replicas

variable {primary : κ → ℤ} {members : List Member} {initial : StoreMap κ ν} {source target : ℤ}
  {s : State κ ν} {r : Replicas.State κ ν} {a : Replicas.Step κ ν}

/-- A step of the replicas leaves the target's key alone, or makes its value the last one
written. -/
theorem target_of_replicas (target : ℤ)
    (hstep : Replicas.step primary members s.replicas a = some r) (k : κ) :
    LastWritten target { s with replicas := r } k ∨
      (Replicas.works r.applied target k = Replicas.works s.replicas.applied target k ∧
        (r.stores target).contents k = (s.replicas.stores target).contents k) := by
  rcases Replicas.step_cases hstep with ⟨hstores, happlied⟩ | ⟨i, x, rfl, hx, happlied, hstores⟩
  · rw [happlied, hstores]
    exact .inr ⟨rfl, rfl⟩
  · by_cases hk : x.memberId = target ∧ x.request.key = k
    · obtain ⟨rfl, rfl⟩ := hk
      refine .inl ⟨(x.actorId, x.request), ?_, ?_⟩
      · simp only [happlied, Replicas.works_concat, and_self, if_true, getLast?_concat]
      · simp only [hstores, update_self, Request.contents_apply]
    · refine .inr ⟨by rw [happlied, Replicas.works_concat, if_neg hk], ?_⟩
      rw [hstores]
      by_cases hm : x.memberId = target
      · subst hm
        rw [update_self, Request.contents_apply, update_of_ne fun heq => hk ⟨rfl, heq.symm⟩]
      · rw [update_of_ne (Ne.symm hm)]

/-- A step that leaves the key alone keeps the target's last write. -/
theorem LastWritten.of_eq {s' : State κ ν} {k : κ} (h : LastWritten target s k)
    (hworks : Replicas.works s'.replicas.applied target k =
      Replicas.works s.replicas.applied target k)
    (hcontents : (s'.replicas.stores target).contents k = (s.replicas.stores target).contents k) :
    LastWritten target s' k := by
  obtain ⟨w, hw, hvalue⟩ := h
  exact ⟨w, hworks ▸ hw, hcontents.trans hvalue⟩

theorem Base.replicas (h : Base members initial source target s)
    (hguard : Replicas.InOrder [source, target] s.replicas a)
    (hstep : Replicas.step primary members s.replicas a = some r) :
    Base members initial source target { s with replicas := r } :=
  ⟨h.placed.step hstep, h.ordered.step hguard hstep, h.written.step hstep, h.redoLog⟩

theorem Unread.replicas (h : Unread target s)
    (hstep : Replicas.step primary members s.replicas a = some r) :
    Unread target { s with replicas := r } := by
  refine ⟨h.unread, h.iterator, h.exchange, fun k => ?_⟩
  rcases target_of_replicas target hstep k with hlast | ⟨hworks, hcontents⟩
  · exact .inl hlast
  · rcases h.target k with hlast | ⟨hnone, hvalue⟩
    · exact .inl (hlast.of_eq hworks hcontents)
    · exact .inr ⟨hworks.trans hnone, hcontents.trans hvalue⟩

theorem Read.replicas {early : List (Replicas.Message κ ν)} (h : Read initial source target early s)
    (hstep : Replicas.step primary members s.replicas a = some r) :
    Read initial source target early { s with replicas := r } := by
  have hprior : early <+: r.applied := by
    rcases Replicas.step_cases hstep with ⟨-, happlied⟩ | ⟨i, x, rfl, hx, happlied, -⟩
    · rw [happlied]
      exact h.prior
    · rw [happlied]
      exact h.prior.trans (prefix_append _ _)
  refine ⟨h.read, hprior, h.items, fun k => ?_, h.first, h.creating, h.request, h.data, h.finished⟩
  rcases h.target k with hitem | hrest
  · exact .inl hitem
  · refine .inr ?_
    rcases target_of_replicas target hstep k with hlast | ⟨hworks, hcontents⟩
    · exact .inl hlast
    · rcases hrest with hlast | ⟨hpre, hvalue⟩
      · exact .inl (hlast.of_eq hworks hcontents)
      · exact .inr ⟨hworks ▸ hpre, hcontents.trans hvalue⟩

end Replicas

section Exchange

variable {members : List Member} {initial : StoreMap κ ν} {source target : ℤ} {s : State κ ν}
  {early : List (Replicas.Message κ ν)}

/-- What the source holds is its snapshot at this time. -/
theorem Base.snapshot_applied (h : Base members initial source target s) :
    snapshot initial source s.replicas.applied = (s.replicas.stores source).contents :=
  Eq.symm h.written

/-- The source's content is read, for a target to which these items are to come. -/
theorem Unread.read (h : Unread target s) (hbase : Base members initial source target s)
    {s' : State κ ν} (hearly : s'.early = some s.replicas.applied)
    (hreplicas : s'.replicas = s.replicas)
    (hitems : s'.outstanding = (s.replicas.stores source).entries.map snapshotItem)
    (hfirst : s'.exchange ≠ .firstRequest)
    (hiter : s'.exchange ≠ .complete → s'.iterator.isSome = true)
    (hfinished : s'.exchange = .completing ∨ s'.exchange = .complete ∨ s'.exchange = .done →
      s'.iterator.getD [] = []) :
    Read initial source target s.replicas.applied s' := by
  refine ⟨hearly, hreplicas ▸ prefix_rfl, fun data hdata => ?_, fun k => ?_, hfirst, fun hx =>
    hiter ?_,
    fun hx => hiter ?_, fun batch hx => hiter ?_, hfinished⟩
  · rw [hitems] at hdata
    obtain ⟨e, he, rfl⟩ := mem_map.mp hdata
    refine ⟨rfl, rfl, ?_⟩
    rw [hbase.snapshot_applied]
    exact AList.mem_lookup_iff.mpr he
  · rw [hitems, hreplicas, hbase.snapshot_applied]
    cases hlookup : (s.replicas.stores source).lookup k with
    | some v =>
      refine .inl ⟨snapshotItem ⟨k, v⟩, mem_map.mpr ⟨⟨k, v⟩, ?_, rfl⟩, rfl⟩
      exact AList.mem_lookup_iff.mp hlookup
    | none =>
      refine .inr ?_
      rcases h.target k with hlast | ⟨hnone, hvalue⟩
      · exact .inl (hlast.of_eq (by rw [hreplicas]) (by rw [hreplicas]))
      · refine .inr ⟨?_, hvalue.trans hlookup.symm⟩
        rw [hnone]
        exact nil_prefix
  · rw [hx]
    rintro ⟨⟩
  · rw [hx]
    rintro ⟨⟩
  · rw [hx]
    rintro ⟨⟩

/-- A step of the exchange that only moves what is outstanding along. -/
theorem Read.move (h : Read initial source target early s) {s' : State κ ν}
    (hearly : s'.early = s.early) (hreplicas : s'.replicas = s.replicas)
    (hitems : s'.outstanding = s.outstanding) (hfirst : s'.exchange ≠ .firstRequest)
    (hiter : s'.exchange ≠ .complete → s'.exchange ≠ .done → s'.iterator.isSome = true)
    (hfinished : s'.exchange = .completing ∨ s'.exchange = .complete ∨ s'.exchange = .done →
      s'.iterator.getD [] = []) :
    Read initial source target early s' := by
  refine ⟨hearly.trans h.read, by rw [hreplicas]; exact h.prior, hitems ▸ h.items, fun k => ?_,
    hfirst,
    fun hx => hiter ?_ ?_, fun hx => hiter ?_ ?_, fun batch hx => hiter ?_ ?_, hfinished⟩
  · rw [hitems, hreplicas]
    rcases h.target k with hitem | hlast | hread
    · exact .inl hitem
    · exact .inr (.inl (hlast.of_eq (by rw [hreplicas]) (by rw [hreplicas])))
    · exact .inr (.inr hread)
  all_goals
    rw [hx]
    rintro ⟨⟩

/-- The target handles a batch in time. -/
theorem Read.batch (h : Read initial source target early s) {emptyValue : Option ν}
    {batch : List (RedoLog κ ν)} (hdata : s.exchange = .data batch)
    (hguard : ∀ data ∈ batch, Replicas.works s.replicas.applied target data.key <+:
      Replicas.works early source data.key) :
    Read initial source target early (handleSyncData target emptyValue batch s) := by
  have hout : s.outstanding = batch ++ (handleSyncData target emptyValue batch s).outstanding :=
    Transfer.outstanding_of_data hdata
  have hitem : ∀ data ∈ batch, data.opName = .internalInsert ∧ data.value.isSome = true ∧
      snapshot initial source early data.key = data.value :=
    fun data hd => h.items data (hout ▸ mem_append_left _ hd)
  have hparses : ∀ data ∈ batch, Parses emptyValue data := by
    intro data hd
    obtain ⟨hop, hvalue, -⟩ := hitem data hd
    rw [Parses, hop]
    exact hvalue
  have hcontents : ((handleSyncData target emptyValue batch s).replicas.stores target).contents =
      Common.writeAll (s.replicas.stores target).contents (batch.map itemWrite) := by
    rw [← contents_batch hparses]
    simp only [handleSyncData, update_self]
  have hiter := h.data batch hdata
  refine ⟨h.read, h.prior, fun data hd => h.items data (hout ▸ mem_append_right _ hd),
    fun k => ?_,
    (by rintro ⟨⟩), fun _ => hiter, fun _ => hiter, fun _ _ => hiter, fun hx => ?_⟩
  · by_cases hk : ∃ data ∈ batch, data.key = k
    · -- the batch writes what the source had
      refine .inr (.inr ⟨?_, ?_⟩)
      · obtain ⟨data, hd, rfl⟩ := hk
        exact hguard data hd
      · rw [hcontents]
        obtain ⟨data, hd, rfl⟩ := hk
        refine Common.writeAll_of_forall ⟨itemWrite data, mem_map_of_mem hd,
          rfl⟩ fun w hw hkey => ?_
        obtain ⟨data', hd', rfl⟩ := mem_map.mp hw
        obtain ⟨hop, -, hvalue⟩ := hitem data' hd'
        have hkey' : data'.key = data.key := hkey
        rw [itemWrite, hop, ← hkey', hvalue]
        rfl
    · have hvalue : ((handleSyncData target emptyValue batch s).replicas.stores target).contents k =
          (s.replicas.stores target).contents k := by
        rw [hcontents]
        refine Common.writeAll_of_not_mem fun w hw hkey => ?_
        obtain ⟨data, hd, rfl⟩ := mem_map.mp hw
        exact hk ⟨data, hd, hkey⟩
      rcases h.target k with ⟨data, hd, hkey⟩ | hlast | ⟨hpre, hread⟩
      · rw [hout] at hd
        rcases mem_append.mp hd with hd | hd
        · exact absurd ⟨data, hd, hkey⟩ hk
        · exact .inl ⟨data, hd, hkey⟩
      · exact .inr (.inl (hlast.of_eq rfl hvalue))
      · exact .inr (.inr ⟨hpre, hvalue.trans hread⟩)
  · rcases hx with hx | hx | hx <;> cases hx

/-- A store without data: `SYNC_COMPLETE` is sent at once. -/
theorem Unread.complete (h : Unread target s) (hbase : Base members initial source target s)
    (hsize : (s.replicas.stores source).size = 0) :
    Read initial source target s.replicas.applied
      { s with exchange := .complete, early := some s.replicas.applied } := by
  have hnil : (s.replicas.stores source).entries = [] := eq_nil_of_length_eq_zero hsize
  refine h.read hbase rfl rfl ?_ (by rintro ⟨⟩) (fun hne => absurd rfl hne) fun _ => ?_
  · simp only [Transfer.outstanding, Exchange.batch, h.iterator, hbase.redoLog, hnil]
    rfl
  · simp only [h.iterator, Option.getD_none]

/-- The snapshot is taken. -/
theorem Unread.snapshot (h : Unread target s) (hbase : Base members initial source target s)
    (hcreating : s.exchange = .creating) :
    Read initial source target s.replicas.applied
      { s with
        iterator := some (s.replicas.stores source).entries
        early := some s.replicas.applied } := by
  refine h.read hbase rfl rfl ?_ ?_ (fun _ => rfl) ?_
  · simp only [Transfer.outstanding, Exchange.batch, hcreating, hbase.redoLog, Option.getD_some,
      nil_append, append_nil]
  · rw [hcreating]
    rintro ⟨⟩
  · rw [hcreating]
    rintro (h | h | h) <;> cases h

section

variable (h : Read initial source target early s)

include h

/-- The actor registers itself and is sent the request. -/
theorem Read.register (hcreating : s.exchange = .creating) :
    Read initial source target early { s with registered := true, exchange := .request } := by
  refine h.move rfl rfl ?_ (by rintro ⟨⟩) (fun _ _ => h.creating hcreating) ?_
  · simp only [Transfer.outstanding, Exchange.batch, hcreating]
  · rintro (h | h | h) <;> cases h

/-- The actor answers a request with a batch, or finds that there is nothing left. -/
theorem Read.answer (batchSize : ℕ) (hrequest : s.exchange = .request) (hredo : s.redoLog = []) :
    Read initial source target early (handleSyncRequest batchSize s) ∧
      (handleSyncRequest batchSize s).redoLog = [] := by
  obtain ⟨it, hit⟩ := Option.isSome_iff_exists.mp (h.request hrequest)
  rw [handleSyncRequest]
  rcases Transfer.handleRequest_cases batchSize hit hrequest with
    ⟨it', redoLog, batch, heq, hout, hsuffix⟩ | ⟨rfl, -, heq⟩
  · rw [heq]
    refine ⟨h.move rfl rfl hout (by rintro ⟨⟩) (fun _ _ => rfl) ?_, ?_⟩
    · rintro (h | h | h) <;> cases h
    · rw [hredo] at hsuffix
      exact suffix_nil.mp hsuffix
  · rw [heq]
    refine ⟨h.move rfl rfl ?_ (by rintro ⟨⟩) (fun _ _ => h.request hrequest) fun _ => ?_, hredo⟩
    · simp only [Transfer.outstanding, Exchange.batch, hrequest]
    · rw [hit, Option.getD_some]

/-- `SYNC_COMPLETE` is sent, and then processed. -/
theorem Read.finish {exchange : Exchange κ ν} {registered : Bool}
    (hbefore : s.exchange = .completing ∨ s.exchange = .complete)
    (hafter : exchange = .complete ∨ exchange = .done) :
    Read initial source target early { s with exchange := exchange, registered := registered } := by
  have hiter : s.iterator.getD [] = [] := h.finished (by tauto)
  refine h.move rfl rfl ?_ ?_ ?_ fun _ => hiter
  · have hnone : exchange.batch = [] ∧ s.exchange.batch = [] := by
      rcases hafter with rfl | rfl <;> rcases hbefore with heq | heq <;> rw [heq] <;> exact ⟨rfl,
        rfl⟩
    simp only [Transfer.outstanding, hnone.1, hnone.2]
  · rcases hafter with rfl | rfl <;> rintro ⟨⟩
  · intro hne hne'
    rcases hafter with rfl | rfl
    · exact absurd rfl hne
    · exact absurd rfl hne'

end

/-- The exchange does not concern the replicas. -/
theorem Base.of_eq (h : Base members initial source target s) {s' : State κ ν}
    (hreplicas : s'.replicas = s.replicas) (hredo : s'.redoLog = []) :
    Base members initial source target s' := by
  obtain ⟨hplaced, hordered, hwritten, -⟩ := h
  rw [← hreplicas] at hplaced hordered hwritten
  exact ⟨hplaced, hordered, hwritten, hredo⟩

/-- What the target writes does not concern the source. -/
theorem Base.batch (h : Base members initial source target s) (hne : source ≠ target)
    (emptyValue : Option ν) (batch : List (RedoLog κ ν)) :
    Base members initial source target (handleSyncData target emptyValue batch s) := by
  refine ⟨h.placed, h.ordered, ?_, h.redoLog⟩
  have hwritten := h.written
  unfold Replicas.Written at hwritten ⊢
  simp only [handleSyncData, update_of_ne hne]
  exact hwritten

end Exchange

/-! ## Convergence -/

/-- A member whose writes end with `w` holds what `w` says. -/
theorem written_last {initial : StoreMap κ ν} {m : ℤ} {r : Replicas.State κ ν} {k : κ}
    {w : ℕ × Request κ ν} (h : Replicas.Written initial m r)
    (hlast : (Replicas.works r.applied m k).getLast? = some w) :
    (r.stores m).contents k = w.2.written := by
  obtain ⟨ws, hws⟩ := getLast?_eq_some_iff.mp hlast
  have hkey : w.2.key = k := by
    have hmem : w ∈ Replicas.works r.applied m k := mem_of_getLast? hlast
    obtain ⟨x, hx, rfl⟩ := mem_map.mp hmem
    exact (of_decide_eq_true (mem_filter.mp hx).2).2
  rw [h, Common.writeAll_filter, Replicas.filter_writes, hws, map_append, map_singleton,
    Common.writeAll_concat]
  exact if_pos hkey

/-- At the end the target has for each key its last write, which is the source's, or what the source
had when it had already applied all writes to the key. -/
theorem Inv.converged {members : List Member} (hids : (members.map Member.id).Nodup)
    {initial : StoreMap κ ν} {source target : ℤ} (hsource : source ∈ Replicas.multicast members)
    (htarget : target ∈ Replicas.multicast members) {s : State κ ν}
    (h : Inv members initial source target s) : Converged source target s := by
  intro hdone hdelivered
  obtain ⟨hbase, hread⟩ := h
  obtain ⟨early, hread⟩ : ∃ early, Read initial source target early s := by
    rcases hread with hunread | hread
    · rcases hunread.exchange with hx | hx <;> rw [hdone] at hx <;> cases hx
    · exact hread
  have hout : s.outstanding = [] := by
    simp only [Transfer.outstanding, Exchange.batch, hdone, hread.finished (.inr (.inr hdone)),
      hbase.redoLog, map_nil, append_nil]
  funext k
  have hsame : Replicas.works s.replicas.applied target k =
      Replicas.works s.replicas.applied source k :=
    Replicas.works_eq hids hbase.placed hdelivered htarget hsource
      (hbase.ordered target (by simp) source (by simp) k)
  rcases hread.target k with ⟨data, hdata, -⟩ | ⟨w, hw, hvalue⟩ | ⟨hpre, hvalue⟩
  · rw [hout] at hdata
    exact absurd hdata not_mem_nil
  · rw [hvalue, written_last hbase.written (hsame ▸ hw)]
  · have hprior : Replicas.works early source k <+: Replicas.works s.replicas.applied source k :=
      (hread.prior.filter _).map _
    have heq : Replicas.works early source k = Replicas.works s.replicas.applied source k := by
      refine hprior.eq_of_length_le ?_
      rw [← hsame]
      exact hpre.length_le
    rw [hvalue, snapshot, hbase.written, Common.writeAll_filter, Replicas.filter_writes, heq,
      ← Replicas.filter_writes, ← Common.writeAll_filter]

section Runs

variable {primary : κ → ℤ} {members : List Member} {initial : StoreMap κ ν} {source target : ℤ}
  {batchSize : ℕ} {emptyValue : Option ν}

/-- Every step in time keeps the invariant. -/
theorem Inv.step {s s' : State κ ν} {a : Step κ ν} (hne : source ≠ target)
    (h : Inv members initial source target s) (hguard : Timely source target s a)
    (hstep : step primary members source target batchSize emptyValue s a = some s') :
    Inv members initial source target s' := by
  obtain ⟨hbase, hphase⟩ := h
  cases a with
  | replicas a =>
    obtain ⟨r, hr, rfl⟩ := Option.map_eq_some_iff.mp hstep
    refine ⟨hbase.replicas hguard hr, ?_⟩
    rcases hphase with hunread | ⟨early, hread⟩
    · exact .inl (hunread.replicas hr)
    · exact .inr ⟨early, hread.replicas hr⟩
  | source =>
    simp only [Sync.step] at hstep
    rcases hphase with hunread | ⟨early, hread⟩
    · rcases hunread.exchange with hx | hx
      · rw [hx] at hstep
        dsimp only at hstep
        split at hstep
        · rename_i hsize
          cases hstep
          exact ⟨hbase.of_eq rfl hbase.redoLog, .inr ⟨_, hunread.complete hbase hsize⟩⟩
        · cases hstep
          exact ⟨hbase.of_eq rfl hbase.redoLog,
            .inl ⟨hunread.unread, hunread.iterator, .inr rfl, hunread.target⟩⟩
      · have hread := hunread.snapshot hbase hx
        rw [hx] at hread
        rw [hx, hunread.iterator] at hstep
        cases hstep
        exact ⟨hbase.of_eq rfl hbase.redoLog, .inr ⟨_, hread⟩⟩
    · split at hstep
      · rename_i hx
        exact absurd hx hread.first
      · rename_i hx
        split at hstep
        · rename_i hiter
          have hsome := hread.creating hx
          rw [hiter] at hsome
          cases hsome
        · cases hstep
          exact ⟨hbase.of_eq rfl hbase.redoLog, .inr ⟨early, hread.register hx⟩⟩
      · rename_i hx
        cases hstep
        obtain ⟨hanswer, hredo⟩ := hread.answer batchSize hx hbase.redoLog
        exact ⟨hbase.of_eq rfl hredo, .inr ⟨early, hanswer⟩⟩
      · rename_i hx
        cases hstep
        exact ⟨hbase.of_eq rfl hbase.redoLog, .inr ⟨early, hread.finish (.inl hx) (.inl rfl)⟩⟩
      · cases hstep
  | target =>
    simp only [Sync.step] at hstep
    rcases hphase with hunread | ⟨early, hread⟩
    · rcases hunread.exchange with hx | hx <;> rw [hx] at hstep <;> cases hstep
    · split at hstep
      · rename_i batch hx
        cases hstep
        refine ⟨hbase.batch hne emptyValue batch, .inr ⟨early, hread.batch hx fun data hd => ?_⟩⟩
        have hworks := hguard data (by rw [hx]; exact hd)
        rw [hread.read, Option.getD_some] at hworks
        exact hworks
      · rename_i hx
        cases hstep
        exact ⟨hbase.of_eq rfl hbase.redoLog,
          .inr ⟨early, hread.finish (.inr hx) (.inr rfl)⟩⟩
      · cases hstep

/-- **Synchronisation converges**: in every run in which no batch overwrites a later write, the
target has the source's content once it has processed `SYNC_COMPLETE` and all writes have been
delivered. -/
theorem converged_of_timely (hids : (members.map Member.id).Nodup)
    (hsource : source ∈ Replicas.multicast members) (htarget : target ∈ Replicas.multicast members)
    (hne : source ≠ target) {stores : ℤ → StoreMap κ ν} {s : State κ ν}
    (hrun : Common.Reaches (step primary members source target batchSize emptyValue)
      (Timely source target) (init target stores) s) : Converged source target s :=
  (hrun.invariant (P := Inv members (stores source) source target) (inv_init members hne stores)
    fun _ _ _ h hguard hstep => h.step hne hguard hstep).converged hids hsource htarget

end Runs

/-! ## An update during the synchronisation -/

/-- The source has one entry. -/
def oneEntry : ℤ → StoreMap ℕ ℕ := fun _ => AList.singleton 1 10

/-- A client's update, up to the point where both members have received it. -/
def sendUpdate : List (Step ℕ ℕ) :=
  [.replicas (.request (.update 1 20)), .replicas (.post 0), .replicas (.post 0),
    .replicas (.receive (0, 0)), .replicas (.receive (0, 1))]

/-- The batch is handled, then the update. -/
def batchFirst : List (Step ℕ ℕ) :=
  [.source, .source] ++ sendUpdate ++ [.source, .source, .target, .replicas (.apply 0),
    .replicas (.apply 0), .source, .source, .target]

/-- The update reaches the target before the batch does. -/
def updateFirst : List (Step ℕ ℕ) :=
  [.source, .source] ++ sendUpdate ++ [.source, .source, .replicas (.apply 0), .replicas (.apply 0),
    .target, .source, .source, .target]

theorem batchFirst_converged : ∃ s,
    Common.replay (step (fun _ => 0) Replicas.twoMembers 0 1 1 (some 0)) (Timely 0 1)
    (init 1 oneEntry)
      batchFirst = some s ∧ s.exchange = .done ∧ Replicas.Delivered s.replicas ∧
      (s.replicas.stores 1).contents 1 = some 20 ∧
      (s.replicas.stores 1).contents = (s.replicas.stores 0).contents := by
  have hbool : (Common.replay (step (fun _ => 0) Replicas.twoMembers 0 1 1 (some 0)) (Timely 0 1)
      (init 1 oneEntry) batchFirst).any (fun s => (s.exchange matches .done) &&
        decide (Replicas.Delivered s.replicas) && (s.replicas.stores 1).contents 1 == some 20) =
        true := by
    decide +kernel
  obtain ⟨s, hs, hend⟩ := (Option.any_eq_true _ _).mp hbool
  simp only [Bool.and_eq_true, decide_eq_true_eq, beq_iff_eq] at hend
  obtain ⟨⟨hexchange, hdelivered⟩, hvalue⟩ := hend
  have hdone : s.exchange = .done := by
    cases hx : s.exchange <;> simp_all
  have hids : (Replicas.twoMembers.map Member.id).Nodup := by decide
  exact ⟨s, hs, hdone, hdelivered, hvalue,
    converged_of_timely hids (by decide) (by decide) (by decide)
    (Common.reaches_of_replay hs) hdone hdelivered⟩

/-- The old value overwrites the update, which no redo log repeats. -/
theorem not_converged_of_run : ¬ ∀ s, Common.Reaches
    (step (fun _ => 0) Replicas.twoMembers 0 1 1 (some 0)) Common.anyStep (init 1 oneEntry) s →
      Converged 0 1 s := by
  intro hall
  have hbool : (Common.replay (step (fun _ => 0) Replicas.twoMembers 0 1 1 (some 0)) Common.anyStep
      (init 1 oneEntry) updateFirst).any (fun s => (s.exchange matches .done) &&
        decide (Replicas.Delivered s.replicas) && (s.replicas.stores 1).contents 1 == some 10 &&
        (s.replicas.stores 0).contents 1 == some 20) = true := by
    decide +kernel
  obtain ⟨s, hs, hend⟩ := (Option.any_eq_true _ _).mp hbool
  simp only [Bool.and_eq_true, decide_eq_true_eq, beq_iff_eq] at hend
  obtain ⟨⟨⟨hexchange, hdelivered⟩, htarget⟩, hsource⟩ := hend
  have hdone : s.exchange = .done := by
    cases hx : s.exchange <;> simp_all
  have heq := hall s (Common.reaches_of_replay hs) hdone hdelivered
  rw [heq, hsource] at htarget
  cases htarget

end Sync

end Idgs.Store
