import Mathlib.Data.Bool.Basic
import Mathlib.Data.List.Infix
import Mathlib.Data.List.Count
import Idgs.Common.Run
import Idgs.Common.Tables

/-!
# Downstream RDDs and transformer contexts

On a member the local part of an RDD lists its downstream RDDs, and each of its local partitions
lists transformer contexts with the operators of the downstream RDDs. A partition pushes its rows to
the `i`-th downstream RDD through the `i`-th context. The list of the downstream RDDs is extended
before the operator is parsed and the contexts after it, and the end of a downstream RDD shortens
the first list only.
-/

namespace Idgs.Rdd

open Function List

/-- The local partitions of each RDD on this member and the upstream RDDs that its request names. -/
structure LocalRdds where
  partitionSize : ℕ
  isLocal : ℕ → ℕ → Bool
  inRdd : ℕ → List ℕ

/-- `RddLocal::getLocalPartitions`. -/
def LocalRdds.localPartitions (g : LocalRdds) (u : ℕ) : List ℕ :=
  (List.range g.partitionSize).filter (g.isLocal u)

/-- What the member knows of an RDD: nothing, that it is created, that it is prepared, that its
creation failed, or that its name stands for another RDD or none. -/
inductive LocalState
  | absent | created | prepared | error | removed
deriving DecidableEq

/-- Where the internal service is. Its handlers hold a lock. In `handlePartitionCreated` it connects
the RDD `d` with its `k`-th upstream RDD, parses the operator and adds it to the local partitions of
the upstream RDD; in `handleRemoveRddLocal` it removes the RDD from its upstream RDDs. -/
inductive Handler
  | idle
  | connect (d k : ℕ)
  | parse (d k : ℕ)
  | addContext (d k : ℕ) (partitions : List ℕ)
  | remove (d : ℕ) (upstream : List ℕ)
deriving DecidableEq

/-- A context that a partition has read for a downstream RDD: partition `p` of `rdd` was at entry
`i` of the list `downstream`, and the context belongs to the RDD and the input `context`. -/
structure ContextRead where
  rdd : ℕ
  downstream : List ℕ
  i : ℕ
  context : Option (ℕ × ℕ)

/-- The local RDDs of a member. -/
structure Contexts where
  state : ℕ → LocalState := fun _ => .absent
  handler : Handler := .idle
  upstreamRddLocal : ℕ → List ℕ := fun _ => []
  downstreamRddLocal : ℕ → List ℕ := fun _ => []
  /-- The RDDs and inputs that the contexts of a partition belong to. -/
  transformerContexts : ℕ × ℕ → List (ℕ × ℕ) := fun _ => []
  /-- The downstream list that a transform of a partition has taken and the entry it comes to
  next. -/
  transforming : ℕ × ℕ → Option (List ℕ × ℕ) := fun _ => none
  reads : List ContextRead := []

/-- Steps: an RDD is created (a delegate RDD is prepared then), its name is given to another RDD,
the RDD is connected with its upstream RDDs step by step, it is removed from them one by one, and a
partition transforms. -/
inductive ContextStep
  | createRdd (d : ℕ)
  | createDelegateRdd (d : ℕ)
  | replace (d : ℕ)
  | partitionCreated (d : ℕ)
  | connect
  | parse (ok : Bool)
  | addContext
  | removeRddLocal (d : ℕ)
  | removeDownstream
  | transform (u p : ℕ)
  | transformNext (u p : ℕ)

namespace Contexts

variable {g : LocalRdds}

/-- `RddLocal::addUpstreamRddLocal` and `RddLocal::addDownstreamRddLocal`. -/
def connected (s : Contexts) (d k u : ℕ) : Contexts :=
  { s with
    upstreamRddLocal := Function.update s.upstreamRddLocal d (s.upstreamRddLocal d ++ [u])
    downstreamRddLocal := Function.update s.downstreamRddLocal u (s.downstreamRddLocal u ++ [d])
    handler := .parse d k }

/-- `BaseRddPartition::addTransformerContext`. -/
def addTransformerContext (s : Contexts) (u p d k : ℕ) (rest : List ℕ) : Contexts :=
  { s with
    transformerContexts :=
      Function.update s.transformerContexts (u, p) (s.transformerContexts (u, p) ++ [(d, k)])
    handler := .addContext d k rest }

/-- `RddLocal::removeDownstreamRddLocal`: the first entry of the RDD is erased. -/
def removeDownstreamRddLocal (s : Contexts) (u d : ℕ) (rest : List ℕ) : Contexts :=
  { s with
    downstreamRddLocal := Function.update s.downstreamRddLocal u ((s.downstreamRddLocal u).erase d)
    handler := .remove d rest }

/-- The `i`-th entry of the list that the transform has taken is served: `transformerContexts.at(i)`
throws when there is no such context, which ends the transform. -/
def readContext (s : Contexts) (u p : ℕ) (downstream : List ℕ) (i : ℕ) : Contexts :=
  let context := (s.transformerContexts (u, p))[i]?
  { s with
    reads := s.reads ++ [{ rdd := u, downstream := downstream, i := i, context := context }]
    transforming :=
      Function.update s.transforming (u, p) (context.map fun _ => (downstream, i + 1)) }

/-- One step. -/
def step (g : LocalRdds) (s : Contexts) : ContextStep → Option Contexts
  | .createRdd d =>
    if s.state d = .absent then some { s with state := Function.update s.state d .created }
    else none
  | .createDelegateRdd d =>
    if s.state d = .absent then some { s with state := Function.update s.state d .prepared }
    else none
  | .replace d =>
    if s.handler = .idle ∧ s.state d ≠ .absent then
      some { s with state := Function.update s.state d .removed }
    else none
  | .partitionCreated d =>
    if s.handler = .idle ∧ s.state d = .created ∧ ∀ u ∈ g.inRdd d, s.state u = .prepared then
      some { s with handler := .connect d 0 }
    else none
  | .connect =>
    match s.handler with
    | .connect d k =>
      match (g.inRdd d)[k]? with
      | some u => some (s.connected d k u)
      | none => some { s with handler := .idle, state := Function.update s.state d .prepared }
    | _ => none
  | .parse ok =>
    match s.handler with
    | .parse d k =>
      if ok then
        ((g.inRdd d)[k]?).map fun u =>
        { s with handler := .addContext d k (g.localPartitions u) }
      else some { s with handler := .idle, state := Function.update s.state d .error }
    | _ => none
  | .addContext =>
    match s.handler with
    | .addContext d k (p :: rest) => ((g.inRdd d)[k]?).map fun u =>
      s.addTransformerContext u p d k rest
    | .addContext d k [] => some { s with handler := .connect d (k + 1) }
    | _ => none
  | .removeRddLocal d =>
    if s.handler = .idle ∧ s.state d ≠ .absent ∧ s.state d ≠ .removed then
      some { s with
        state := Function.update s.state d .removed, handler := .remove d (s.upstreamRddLocal d) }
    else none
  | .removeDownstream =>
    match s.handler with
    | .remove d (u :: rest) => some (s.removeDownstreamRddLocal u d rest)
    | .remove d [] => some
        { s with
          upstreamRddLocal := Function.update s.upstreamRddLocal d []
          downstreamRddLocal := Function.update s.downstreamRddLocal d []
          handler := .idle }
    | _ => none
  | .transform u p =>
    if p ∈ g.localPartitions u ∧ s.transforming (u, p) = none then
      some { s with
        transforming := Function.update s.transforming (u, p) (some (s.downstreamRddLocal u, 0)) }
    else none
  | .transformNext u p =>
    (s.transforming (u, p)).map fun t =>
      if t.2 < t.1.length then s.readContext u p t.1 t.2
      else { s with transforming := Function.update s.transforming (u, p) none }

/-! ## The property -/

/-- The context belongs to the RDD `d` and to that input of it that is `u` for the `n`-th time. -/
def OwnOperator (g : LocalRdds) (u d n : ℕ) (context : Option (ℕ × ℕ)) : Prop :=
  ∃ k, context = some (d, k) ∧ (g.inRdd d)[k]? = some u ∧ ((g.inRdd d).take k).count u = n

/-- The context of the partition for the last downstream RDD is still to be added. -/
def awaitsContext (g : LocalRdds) (s : Contexts) (u p : ℕ) : Bool :=
  match s.handler with
  | .parse d k => decide ((g.inRdd d)[k]? = some u ∧ p ∈ g.localPartitions u)
  | .addContext d k rest => decide ((g.inRdd d)[k]? = some u ∧ p ∈ rest)
  | _ => false

/-- The `i`-th entry of a downstream list belongs to the same RDD and input as the `i`-th context of
each local partition, but for the one that is being connected, and so did all entries and contexts
used for pushing rows. -/
structure FedThroughOwnOperator (g : LocalRdds) (s : Contexts) : Prop where
  aligned : ∀ u, ∀ p ∈ g.localPartitions u, ∀ i d, (s.downstreamRddLocal u)[i]? = some d →
    (s.awaitsContext g u p = true ∧ i + 1 = (s.downstreamRddLocal u).length) ∨
      OwnOperator g u d (((s.downstreamRddLocal u).take i).count d)
      (s.transformerContexts (u, p))[i]?
  reads : ∀ r ∈ s.reads, ∀ d, r.downstream[r.i]? = some d →
    OwnOperator g r.rdd d ((r.downstream.take r.i).count d) r.context

/-! ## The condition -/

/-- The RDD has the last places of the list. -/
def atEnd (d : ℕ) (l : List ℕ) : Bool := (l.dropWhile (· ≠ d)).all (· = d)

/-- Operators are parsed, an RDD is connected only to upstream RDDs that no downstream RDD has been
removed from, an RDD is removed from the end of the downstream lists only, and no partition serves a
downstream RDD whose context is still to be added. -/
def Steady (g : LocalRdds) (s : Contexts) : ContextStep → Prop
  | .parse ok => ok = true
  | .connect => match s.handler with
      | .connect d k => ∀ u ∈ (g.inRdd d)[k]?, ∀ p ∈ g.localPartitions u,
          (s.transformerContexts (u, p)).length = (s.downstreamRddLocal u).length
      | _ => True
  | .removeDownstream => match s.handler with
      | .remove d (u :: _) => g.localPartitions u = [] ∨ atEnd d (s.downstreamRddLocal u) = true
      | _ => True
  | .transformNext u p => ∀ t ∈ s.transforming (u, p),
      s.awaitsContext g u p = true → t.2 < t.1.length → t.2 + 1 ≠ (s.downstreamRddLocal u).length
  | _ => True

/-! ## The invariant -/

/-- A downstream list, the current one or one taken before, is served by the contexts of a
partition. -/
def Served (g : LocalRdds) (u : ℕ) (awaits : Bool) (downstream : List ℕ) (contexts : List (ℕ × ℕ))
    (l : List ℕ) :
    Prop :=
  ∀ i d, l[i]? = some d → (awaits = true ∧ i + 1 = downstream.length ∧ l = downstream) ∨
    OwnOperator g u d ((l.take i).count d) contexts[i]?

/-- The RDD `d` has been connected with its upstream RDDs up to the `k`-th, which has it as the last
one. -/
structure ConnectedUpTo (g : LocalRdds) (downstreamRddLocal : ℕ → List ℕ) (d k : ℕ) : Prop where
  count : ∀ v, (downstreamRddLocal v).count d = ((g.inRdd d).take (k + 1)).count v
  last : ∀ u, (g.inRdd d)[k]? = some u → ∃ l, downstreamRddLocal u = l ++ [d]

/-- What the internal service has done so far. -/
def HandlerOk (g : LocalRdds) (s : Contexts) : Handler → Prop
  | .connect d k =>
    s.state d = .created ∧ ∀ v, (s.downstreamRddLocal v).count d = ((g.inRdd d).take k).count v
  | .parse d k => s.state d = .created ∧ ConnectedUpTo g s.downstreamRddLocal d k ∧
      ∀ u, (g.inRdd d)[k]? = some u → ∀ p ∈ g.localPartitions u,
        (s.transformerContexts (u, p)).length + 1 = (s.downstreamRddLocal u).length
  | .addContext d k rest => s.state d = .created ∧ ConnectedUpTo g s.downstreamRddLocal d k ∧
      rest.Nodup ∧ ∀ u, (g.inRdd d)[k]? = some u → ∀ p ∈ rest,
        (s.transformerContexts (u, p)).length + 1 = (s.downstreamRddLocal u).length
  | _ => True

/-- The RDD that is being connected. -/
def connecting : Handler → Option ℕ
  | .connect d _ | .parse d _ | .addContext d _ _ => some d
  | _ => none

/-- All downstream lists are served, and so are those that transforms have taken. -/
structure Inv (g : LocalRdds) (s : Contexts) : Prop where
  current : ∀ u, ∀ p ∈ g.localPartitions u,
    Served g u (s.awaitsContext g u p) (s.downstreamRddLocal u) (s.transformerContexts (u, p))
    (s.downstreamRddLocal u)
  taken : ∀ u p t, s.transforming (u, p) = some t →
    Served g u (s.awaitsContext g u p) (s.downstreamRddLocal u) (s.transformerContexts (u, p)) t.1
  reads : ∀ r ∈ s.reads, ∀ d, r.downstream[r.i]? = some d →
    OwnOperator g r.rdd d ((r.downstream.take r.i).count d) r.context
  fresh : ∀ d, s.state d = .absent ∨ (s.state d = .created ∧ connecting s.handler ≠ some d) →
    ∀ v, d ∉ s.downstreamRddLocal v
  handler : HandlerOk g s s.handler

theorem inv_init (g : LocalRdds) : Inv g {} where
  current := by
    intro u p _ i d h
    cases h
  taken := by
    rintro u p t ⟨⟩
  reads := by
    rintro r ⟨⟩
  fresh := by
    rintro d _ v ⟨⟩
  handler := trivial

theorem Inv.fedThroughOwnOperator {s : Contexts} (h : Inv g s) : FedThroughOwnOperator g s where
  aligned := fun u p hp i d hd => (h.current u p hp i d hd).imp_left fun ⟨hawaits, hlast, _⟩ =>
    ⟨hawaits, hlast⟩
  reads := h.reads

/-- Once no context is awaited, later entries of the downstream list do not matter. -/
theorem Served.of_not_awaits {u : ℕ} {downstream downstream' l : List ℕ} {contexts : List (ℕ × ℕ)}
    {b : Bool}
    (h : Served g u false downstream contexts l) : Served g u b downstream' contexts l := by
  intro i d hd
  rcases h i d hd with ⟨hfalse, -⟩ | hown
  · cases hfalse
  · exact .inr hown

theorem OwnOperator.lt_length {u d n i : ℕ} {contexts : List (ℕ × ℕ)}
    (h : OwnOperator g u d n contexts[i]?) :
    i < contexts.length := by
  obtain ⟨k, hk, -⟩ := h
  exact (List.getElem?_eq_some_iff.mp hk).1

/-- The states of the RDDs change, and the handler, without anything being connected. -/
theorem Inv.of_state {s s' : Contexts} (h : Inv g s)
    (hawaits : ∀ u p, s.awaitsContext g u p = true → s'.awaitsContext g u p = true)
    (hdown : s'.downstreamRddLocal = s.downstreamRddLocal)
    (hctx : s'.transformerContexts = s.transformerContexts)
    (htrans : s'.transforming = s.transforming) (hreads : s'.reads = s.reads)
    (hfresh : ∀ d, s'.state d = .absent ∨ (s'.state d = .created ∧ connecting s'.handler ≠ some d) →
      ∀ v, d ∉ s.downstreamRddLocal v)
    (hhandler : HandlerOk g s' s'.handler) : Inv g s' := by
  have hserved : ∀ u p l,
      Served g u (s.awaitsContext g u p) (s.downstreamRddLocal u) (s.transformerContexts (u, p)) l →
      Served g u (s'.awaitsContext g u p) (s'.downstreamRddLocal u)
      (s'.transformerContexts (u, p)) l := by
    intro u p l hl i d hd
    rw [hdown, hctx]
    exact (hl i d hd).imp_left fun ⟨hawait, hrest⟩ => ⟨hawaits u p hawait, hrest⟩
  exact
    { current := fun u p hp => by
        have hcurrent := hserved u p _ (h.current u p hp)
        rwa [← hdown] at hcurrent
      taken := fun u p t ht => by
        rw [htrans] at ht
        exact hserved u p _ (h.taken u p t ht)
      reads := by rw [hreads]; exact h.reads
      fresh := by rw [hdown]; exact hfresh
      handler := hhandler }

/-! ## Connecting an RDD -/

/-- The RDD is connected with its next upstream RDD. -/
theorem Inv.connected {s : Contexts} {d k u : ℕ} (h : Inv g s) (hhandler : s.handler = .connect d k)
    (hu : (g.inRdd d)[k]? = some u)
    (hlength : ∀ p ∈ g.localPartitions u, (s.transformerContexts (u, p)).length =
      (s.downstreamRddLocal u).length) :
    Inv g (s.connected d k u) := by
  have hok := h.handler
  rw [hhandler] at hok
  obtain ⟨hcreated, hcount⟩ := hok
  have hawaits : ∀ v p, s.awaitsContext g v p = false := by
    intro v p
    unfold awaitsContext
    rw [hhandler]
  have hself : (s.connected d k u).downstreamRddLocal u = s.downstreamRddLocal u ++ [d] :=
    update_self ..
  have hother : ∀ v, v ≠ u → (s.connected d k u).downstreamRddLocal v = s.downstreamRddLocal v := by
    intro v hv
    exact update_of_ne hv _ _
  have hserved : ∀ v p l,
      Served g v (s.awaitsContext g v p) (s.downstreamRddLocal v) (s.transformerContexts (v, p)) l →
      Served g v ((s.connected d k u).awaitsContext g v p)
      ((s.connected d k u).downstreamRddLocal v)
        (s.transformerContexts (v, p)) l := by
    intro v p l hl
    rw [hawaits v p] at hl
    exact hl.of_not_awaits
  exact
    { current := fun v p hp => by
        by_cases hv : v = u
        · subst hv
          rw [hself]
          intro i e he
          rcases Nat.lt_or_ge i (s.downstreamRddLocal v).length with hi | hi
          · rw [getElem?_append_left hi] at he
            rw [take_append_of_le_length hi.le]
            have hold := h.current v p hp
            rw [hawaits v p] at hold
            exact .inr ((hold i e he).resolve_left fun ⟨hfalse, _⟩ => Bool.false_ne_true hfalse)
          · have hi' : i = (s.downstreamRddLocal v).length := by
              have hlt := (List.getElem?_eq_some_iff.mp he).1
              rw [length_append] at hlt
              simp only [length_cons, length_nil] at hlt
              omega
            refine .inl ⟨decide_eq_true ⟨hu, hp⟩, ?_, rfl⟩
            rw [length_append, hi']
            rfl
        · have hold := hserved v p _ (h.current v p hp)
          rw [hother v hv] at hold ⊢
          exact hold
      taken := fun v p t ht => hserved v p _ (h.taken v p t ht)
      reads := h.reads
      fresh := fun e he v hmem => by
        have hne : e ≠ d := by
          rintro rfl
          rcases he with habsent | ⟨-, hconnecting⟩
          · cases hcreated.symm.trans habsent
          · exact hconnecting rfl
        have hold : e ∉ s.downstreamRddLocal v := by
          refine h.fresh e (he.imp_right fun ⟨hcreated', _⟩ => ⟨hcreated', ?_⟩) v
          rw [hhandler]
          exact fun heq => hne (Option.some.inj heq).symm
        by_cases hv : v = u
        · subst hv
          rw [hself] at hmem
          rcases mem_append.mp hmem with hmem | hmem
          · exact hold hmem
          · exact hne (mem_singleton.mp hmem)
        · rw [hother v hv] at hmem
          exact hold hmem
      handler := by
        obtain ⟨hk, hget⟩ := List.getElem?_eq_some_iff.mp hu
        refine ⟨hcreated, ⟨fun v => ?_, fun v hv => ?_⟩, fun v hv p hp => ?_⟩
        · rw [take_succ_eq_append_getElem hk, hget, count_append, ← hcount v]
          by_cases hv : v = u
          · subst hv
            rw [hself, count_append, count_singleton_self, count_singleton_self]
          · rw [hother v hv, count_eq_zero_of_not_mem fun hmem => hv (mem_singleton.mp hmem),
              Nat.add_zero]
        · obtain rfl := Option.some.inj (hu.symm.trans hv)
          exact ⟨_, hself⟩
        · obtain rfl := Option.some.inj (hu.symm.trans hv)
          rw [hself, length_append]
          exact congrArg (· + 1) (hlength p hp) }

/-- A local partition of the upstream RDD gets its context. -/
theorem Inv.addTransformerContext {s : Contexts} {d k u p : ℕ} {rest : List ℕ} (h : Inv g s)
    (hhandler : s.handler = .addContext d k (p :: rest)) (hu : (g.inRdd d)[k]? = some u) :
    Inv g (s.addTransformerContext u p d k rest) := by
  have hok := h.handler
  rw [hhandler] at hok
  obtain ⟨hcreated, hconnected, hnodup, hlength⟩ := hok
  obtain ⟨l₀, hl₀⟩ := hconnected.last u hu
  have hawaits : ∀ v q, s.awaitsContext g v q =
      decide ((g.inRdd d)[k]? = some v ∧ q ∈ p :: rest) := by
    intro v q
    unfold awaitsContext
    rw [hhandler]
  have hself : (s.addTransformerContext u p d k rest).transformerContexts (u, p) =
      s.transformerContexts (u, p) ++ [(d, k)] := update_self ..
  have hother : ∀ w, w ≠ (u, p) →
      (s.addTransformerContext u p d k rest).transformerContexts w = s.transformerContexts w := by
    intro w hw
    exact update_of_ne hw _ _
  have hplace : (s.transformerContexts (u, p)).length = l₀.length := by
    have hp := hlength u hu p mem_cons_self
    rw [hl₀, length_append] at hp
    exact Nat.add_right_cancel hp
  have hoccurrence : l₀.count d = ((g.inRdd d).take k).count u := by
    have hcount := hconnected.count u
    obtain ⟨hk, hget⟩ := List.getElem?_eq_some_iff.mp hu
    rw [hl₀, take_succ_eq_append_getElem hk, hget, count_append, count_append,
      count_singleton_self, count_singleton_self] at hcount
    exact Nat.add_right_cancel hcount
  have hserved : ∀ v q l,
      Served g v (s.awaitsContext g v q) (s.downstreamRddLocal v) (s.transformerContexts (v, q)) l →
      Served g v ((s.addTransformerContext u p d k rest).awaitsContext g v q)
      (s.downstreamRddLocal v)
        ((s.addTransformerContext u p d k rest).transformerContexts (v, q)) l := by
    intro v q l hl i e he
    by_cases hw : (v, q) = (u, p)
    · obtain ⟨rfl, rfl⟩ := Prod.mk.inj hw
      rw [hself]
      rcases hl i e he with ⟨-, hlast, rfl⟩ | hown
      · -- the entry that was waiting for this context
        rw [hl₀, length_append] at hlast
        have hi : i = l₀.length := Nat.add_right_cancel hlast
        rw [hl₀, hi, getElem?_concat_length] at he
        obtain rfl := Option.some.inj he
        refine .inr ⟨k, ?_, hu, ?_⟩
        · rw [hi, ← hplace]
          exact getElem?_concat_length
        · rw [hl₀, hi, take_left]
          exact hoccurrence.symm
      · refine .inr ?_
        rw [getElem?_append_left hown.lt_length]
        exact hown
    · rw [hother _ hw]
      refine (hl i e he).imp_left fun ⟨hawait, hrest⟩ => ⟨?_, hrest⟩
      rw [hawaits v q] at hawait
      obtain ⟨hv, hq⟩ := of_decide_eq_true hawait
      obtain rfl := Option.some.inj (hu.symm.trans hv)
      refine decide_eq_true ⟨hv, ?_⟩
      rcases mem_cons.mp hq with rfl | hq
      · exact absurd rfl hw
      · exact hq
  exact
    { current := fun v q hq => hserved v q _ (h.current v q hq)
      taken := fun v q t ht => hserved v q _ (h.taken v q t ht)
      reads := h.reads
      fresh := fun e he => by
        refine h.fresh e ?_
        rw [hhandler]
        exact he
      handler := by
        refine ⟨hcreated, hconnected, hnodup.of_cons, fun v hv q hq => ?_⟩
        have hne : (v, q) ≠ (u, p) := by
          intro heq
          obtain ⟨rfl, rfl⟩ := Prod.mk.inj heq
          exact (nodup_cons.mp hnodup).1 hq
        rw [hother _ hne]
        exact hlength v hv q (mem_cons_of_mem _ hq) }

/-! ## Removing an RDD -/

theorem erase_prefix_of_atEnd {d : ℕ} {l : List ℕ} (h : atEnd d l = true) : l.erase d <+: l := by
  induction l with
  | nil => exact prefix_rfl
  | cons a l ih =>
    by_cases ha : a = d
    · subst ha
      have hall : ∀ b ∈ l, b = a := by
        unfold atEnd at h
        rw [dropWhile_cons_of_neg (by simp)] at h
        simpa using h
      rw [erase_cons_head, eq_replicate_of_mem hall, ← replicate_succ]
      exact ⟨[a], replicate_succ'.symm⟩
    · have hrest : atEnd d l = true := by
        unfold atEnd at h ⊢
        rwa [dropWhile_cons_of_pos (by simpa using ha)] at h
      rw [erase_cons_tail (by simpa using ha)]
      exact cons_prefix_cons.mpr ⟨rfl, ih hrest⟩

/-- A beginning of a list that is served is served. -/
theorem Served.of_prefix {u : ℕ} {downstream downstream' l l' : List ℕ} {contexts : List (ℕ × ℕ)}
    {b : Bool} (h : Served g u false downstream contexts l) (hpre : l' <+: l) :
    Served g u b downstream' contexts l' := by
  obtain ⟨r, rfl⟩ := hpre
  intro i d hd
  have hi := (List.getElem?_eq_some_iff.mp hd).1
  have hold := h i d (by rw [getElem?_append_left hi]; exact hd)
  rw [take_append_of_le_length hi.le] at hold
  exact .inr (hold.resolve_left fun ⟨hfalse, _⟩ => Bool.false_ne_true hfalse)

section

variable {s : Contexts} (h : Inv g s)

include h

/-- An entry of the RDD is erased from the downstream list of one of its upstream RDDs. -/
theorem Inv.removeDownstreamRddLocal {d u : ℕ} {rest : List ℕ}
    (hhandler : s.handler = .remove d (u :: rest))
    (hend : g.localPartitions u = [] ∨ atEnd d (s.downstreamRddLocal u) = true) :
    Inv g (s.removeDownstreamRddLocal u d rest) := by
  have hawaits : ∀ v p, s.awaitsContext g v p = false := by
    intro v p
    unfold awaitsContext
    rw [hhandler]
  have hself : (s.removeDownstreamRddLocal u d rest).downstreamRddLocal u =
      (s.downstreamRddLocal u).erase d :=
    update_self ..
  have hother : ∀ v, v ≠ u → (s.removeDownstreamRddLocal u d rest).downstreamRddLocal v =
      s.downstreamRddLocal v := by
    intro v hv
    exact update_of_ne hv _ _
  exact
    { current := fun v p hp => by
        have hold := h.current v p hp
        rw [hawaits v p] at hold
        by_cases hv : v = u
        · subst hv
          rw [hself]
          rcases hend with hnone | hend
          · rw [hnone] at hp
            cases hp
          · exact hold.of_prefix (erase_prefix_of_atEnd hend)
        · rw [hother v hv]
          exact hold.of_not_awaits
      taken := fun v p t ht => by
        have hold := h.taken v p t ht
        rw [hawaits v p] at hold
        exact hold.of_not_awaits
      reads := h.reads
      fresh := fun e he v hmem => by
        have hold : e ∉ s.downstreamRddLocal v := by
          refine h.fresh e (he.imp_right fun ⟨hcreated, _⟩ => ⟨hcreated, ?_⟩) v
          rw [hhandler]
          rintro ⟨⟩
        by_cases hv : v = u
        · subst hv
          rw [hself] at hmem
          exact hold (mem_of_mem_erase hmem)
        · rw [hother v hv] at hmem
          exact hold hmem
      handler := trivial }

/-- The local part of an RDD is cleared. -/
theorem Inv.clear {d : ℕ} (hhandler : s.handler = .remove d []) :
    Inv g { s with
      upstreamRddLocal := update s.upstreamRddLocal d []
      downstreamRddLocal := update s.downstreamRddLocal d []
      handler := .idle } := by
  have hawaits : ∀ v p, s.awaitsContext g v p = false := by
    intro v p
    unfold awaitsContext
    rw [hhandler]
  have hdown : ∀ v, update s.downstreamRddLocal d [] v <+: s.downstreamRddLocal v := by
    intro v
    by_cases hv : v = d
    · rw [hv, update_self]
      exact nil_prefix
    · rw [update_of_ne hv]
  exact
    { current := fun v p hp => by
        have hold := h.current v p hp
        rw [hawaits v p] at hold
        exact hold.of_prefix (hdown v)
      taken := fun v p t ht => by
        have hold := h.taken v p t ht
        rw [hawaits v p] at hold
        exact hold.of_not_awaits
      reads := h.reads
      fresh := fun e he v hmem => by
        refine h.fresh e (he.imp_right fun ⟨hcreated, _⟩ => ⟨hcreated, ?_⟩) v ((hdown v).mem hmem)
        rw [hhandler]
        rintro ⟨⟩
      handler := trivial }

/-! ## Transforming -/

/-- A partition takes the downstream list. -/
theorem Inv.transform {u p : ℕ} (hp : p ∈ g.localPartitions u) :
    Inv g { s with
      transforming :=
        update s.transforming (u, p) (some (s.downstreamRddLocal u, 0)) } where
  __ := h
  taken := fun v q t ht => by
    rcases Common.update_some_iff.mp ht with ⟨hw, rfl⟩ | ⟨-, ht⟩
    · obtain ⟨rfl, rfl⟩ := Prod.mk.inj hw
      exact h.current v q hp
    · exact h.taken v q t ht

/-- What a partition goes on with after an entry is the list that it has taken, or nothing. -/
theorem Inv.of_transforming {u p : ℕ} {t : List ℕ × ℕ}
    (ht : s.transforming (u, p) = some t) (next : Option ℕ) :
    Inv g { s with
      transforming := update s.transforming (u, p) (next.map fun i => (t.1, i)) } where
  __ := h
  taken := fun v q t' ht' => by
    by_cases hw : (v, q) = (u, p)
    · obtain ⟨rfl, rfl⟩ := Prod.mk.inj hw
      have hnext : update s.transforming (v, q) (next.map fun i => (t.1, i)) (v, q) =
          some t' := ht'
      rw [update_self] at hnext
      obtain ⟨i, -, rfl⟩ := Option.map_eq_some_iff.mp hnext
      exact h.taken v q t ht
    · have hold : update s.transforming (u, p) (next.map fun i => (t.1, i)) (v, q) =
        some t' := ht'
      rw [update_of_ne hw] at hold
      exact h.taken v q t' hold

/-- A partition serves an entry of the list that it has taken. -/
theorem Inv.readContext {u p : ℕ} {t : List ℕ × ℕ} (ht : s.transforming (u, p) = some t)
    (hready : s.awaitsContext g u p = true → t.2 + 1 ≠ (s.downstreamRddLocal u).length) :
    Inv g (s.readContext u p t.1 t.2) := by
  have hmap : ((s.transformerContexts (u, p))[t.2]?).map (fun _ => (t.1, t.2 + 1)) =
      (((s.transformerContexts (u, p))[t.2]?).map fun _ => t.2 + 1).map fun i => (t.1, i) :=
    (Option.map_map ..).symm
  have hnext := h.of_transforming ht (((s.transformerContexts (u, p))[t.2]?).map fun _ => t.2 + 1)
  rw [← hmap] at hnext
  exact
    { current := hnext.current
      taken := hnext.taken
      reads := fun r hr d hd => by
        rcases mem_append.mp hr with hr | hr
        · exact h.reads r hr d hd
        · obtain rfl := mem_singleton.mp hr
          rcases h.taken u p t ht t.2 d hd with ⟨hawaits, hlast, -⟩ | hown
          · exact absurd hlast (hready hawaits)
          · exact hown
      fresh := h.fresh
      handler := h.handler }

end

/-! ## Runs -/

section

variable {s s' : Contexts} (h : Inv g s)

include h

theorem Inv.connect (hsteady : Steady g s .connect)
    (hstep : step g s .connect = some s') : Inv g s' := by
  simp only [Contexts.step] at hstep
  split at hstep
  · rename_i d k hhandler
    split at hstep
    · rename_i u hu
      cases hstep
      simp only [Steady, hhandler] at hsteady
      exact h.connected hhandler hu (hsteady u hu)
    · cases hstep
      have hok := h.handler
      rw [hhandler] at hok
      refine h.of_state ?_ rfl rfl rfl rfl (fun e he => ?_) trivial
      · intro v q hawait
        unfold awaitsContext at hawait
        rw [hhandler] at hawait
        cases hawait
      · have hne : e ≠ d := by
          rintro rfl
          have hstate : update s.state e .prepared e = .prepared := update_self ..
          rcases he with habsent | ⟨hcreated, -⟩
          · cases hstate.symm.trans habsent
          · cases hstate.symm.trans hcreated
        have hstate : update s.state d .prepared e = s.state e :=
          update_of_ne hne _ _
        refine h.fresh e ?_
        rw [← hstate]
        refine he.imp_right fun ⟨hcreated, _⟩ => ⟨hcreated, ?_⟩
        rw [hhandler]
        exact fun heq => hne (Option.some.inj heq).symm
  · cases hstep

theorem Inv.parse (hstep : step g s (.parse true) = some s') :
    Inv g s' := by
  simp only [Contexts.step] at hstep
  split at hstep
  · rename_i d k hhandler
    rw [if_pos trivial] at hstep
    obtain ⟨u, hu, rfl⟩ := Option.map_eq_some_iff.mp hstep
    have hok := h.handler
    rw [hhandler] at hok
    obtain ⟨hcreated, hconnected, hlength⟩ := hok
    refine h.of_state ?_ rfl rfl rfl rfl (fun e he => h.fresh e ?_) ⟨hcreated, hconnected, ?_, ?_⟩
    · intro v q hawait
      unfold awaitsContext at hawait
      rw [hhandler] at hawait
      obtain ⟨hv, hq⟩ := of_decide_eq_true hawait
      obtain rfl := Option.some.inj (hu.symm.trans hv)
      exact decide_eq_true ⟨hu, hq⟩
    · rw [hhandler]
      exact he
    · exact nodup_range.filter _
    · intro v hv p hp
      obtain rfl := Option.some.inj (hu.symm.trans hv)
      exact hlength u hv p hp
  · cases hstep

theorem Inv.addContext (hstep : step g s .addContext = some s') :
    Inv g s' := by
  simp only [Contexts.step] at hstep
  split at hstep
  · rename_i d k p rest hhandler
    obtain ⟨u, hu, rfl⟩ := Option.map_eq_some_iff.mp hstep
    exact h.addTransformerContext hhandler hu
  · rename_i d k hhandler
    cases hstep
    have hok := h.handler
    rw [hhandler] at hok
    obtain ⟨hcreated, hconnected, -⟩ := hok
    refine h.of_state ?_ rfl rfl rfl rfl (fun e he => h.fresh e ?_) ⟨hcreated, hconnected.count⟩
    · intro v q hawait
      unfold awaitsContext at hawait
      rw [hhandler] at hawait
      cases (of_decide_eq_true hawait).2
    · rw [hhandler]
      exact he
  · cases hstep

end

/-- An RDD gets its first state on the member. -/
theorem Inv.create {s : Contexts} {d : ℕ} {state : LocalState} (h : Inv g s)
    (habsent : s.state d = .absent) :
    Inv g { s with state := update s.state d state } := by
  refine h.of_state (fun _ _ hawait => hawait) rfl rfl rfl rfl (fun e he => ?_) ?_
  · by_cases hne : e = d
    · rw [hne]
      exact h.fresh d (.inl habsent)
    · refine h.fresh e ?_
      have hstate : update s.state d state e = s.state e := update_of_ne hne _ _
      rw [← hstate]
      exact he
  · have hkept : ∀ e, s.state e = .created → update s.state d state e = .created := by
      intro e he
      have hne : e ≠ d := by
        rintro rfl
        cases habsent.symm.trans he
      rw [update_of_ne hne]
      exact he
    have hok := h.handler
    show HandlerOk g _ s.handler
    cases hhandler : s.handler with
    | idle | remove _ _ => trivial
    | connect e k | parse e k => rw [hhandler] at hok; exact ⟨hkept e hok.1, hok.2⟩
    | addContext e k rest => rw [hhandler] at hok; exact ⟨hkept e hok.1, hok.2⟩

/-- An RDD is no longer known by its name. -/
theorem Inv.remove {s : Contexts} {d : ℕ} {handler : Handler} (h : Inv g s)
    (hidle : s.handler = .idle) (hok : HandlerOk g { s with
      state := update s.state d .removed, handler := handler } handler) :
    Inv g { s with state := update s.state d .removed, handler := handler } := by
  refine h.of_state ?_ rfl rfl rfl rfl (fun e he => ?_) hok
  · intro u p hawait
    unfold awaitsContext at hawait
    rw [hidle] at hawait
    cases hawait
  · have hne : e ≠ d := by
      rintro rfl
      have hstate : update s.state e .removed e = .removed := update_self ..
      rcases he with habsent | ⟨hcreated, -⟩
      · cases hstate.symm.trans habsent
      · cases hstate.symm.trans hcreated
    refine h.fresh e ?_
    have hstate : update s.state d .removed e = s.state e := update_of_ne hne _ _
    rw [← hstate]
    refine he.imp_right fun ⟨hcreated, _⟩ => ⟨hcreated, ?_⟩
    rw [hidle]
    rintro ⟨⟩

theorem Inv.step {s s' : Contexts} {a : ContextStep} (h : Inv g s) (hsteady : Steady g s a)
    (hstep : step g s a = some s') : Inv g s' := by
  cases a with
  | createRdd _ | createDelegateRdd _ =>
    obtain ⟨habsent, hs'⟩ := Option.ite_none_right_eq_some.mp hstep
    cases hs'
    exact h.create habsent
  | replace d =>
    obtain ⟨⟨hidle, -⟩, hs'⟩ := Option.ite_none_right_eq_some.mp hstep
    cases hs'
    have hremoved : Inv g { s with
      state := update s.state d .removed, handler := s.handler } :=
      h.remove hidle (by rw [hidle]; trivial)
    exact hremoved
  | partitionCreated d =>
    obtain ⟨⟨hidle, hcreated, -⟩, hs'⟩ := Option.ite_none_right_eq_some.mp hstep
    cases hs'
    have hfresh : ∀ v, d ∉ s.downstreamRddLocal v :=
      h.fresh d (.inr ⟨hcreated, by rw [hidle]; rintro ⟨⟩⟩)
    refine h.of_state ?_ rfl rfl rfl rfl (fun e he => h.fresh e ?_) ⟨hcreated, fun v => ?_⟩
    · intro u p hawait
      unfold awaitsContext at hawait
      rw [hidle] at hawait
      cases hawait
    · refine he.imp_right fun ⟨hcreated', _⟩ => ⟨hcreated', ?_⟩
      rw [hidle]
      rintro ⟨⟩
    · exact count_eq_zero_of_not_mem (hfresh v)
  | connect => exact h.connect hsteady hstep
  | parse ok =>
    obtain rfl : ok = true := hsteady
    exact h.parse hstep
  | addContext => exact h.addContext hstep
  | removeRddLocal d =>
    obtain ⟨⟨hidle, -⟩, hs'⟩ := Option.ite_none_right_eq_some.mp hstep
    cases hs'
    exact h.remove hidle trivial
  | removeDownstream =>
    simp only [Contexts.step] at hstep
    split at hstep
    · rename_i d u rest hhandler
      cases hstep
      simp only [Steady, hhandler] at hsteady
      exact h.removeDownstreamRddLocal hhandler hsteady
    · rename_i d hhandler
      cases hstep
      exact h.clear hhandler
    · cases hstep
  | transform u p =>
    obtain ⟨⟨hp, -⟩, hs'⟩ := Option.ite_none_right_eq_some.mp hstep
    cases hs'
    exact h.transform hp
  | transformNext u p =>
    obtain ⟨t, ht, rfl⟩ := Option.map_eq_some_iff.mp hstep
    by_cases hlt : t.2 < t.1.length
    · rw [if_pos hlt]
      exact h.readContext ht fun hawaits => hsteady t ht hawaits hlt
    · rw [if_neg hlt]
      exact h.of_transforming ht none

/-- In every run whose steps meet the condition each downstream RDD is fed through its own
operator. -/
theorem fedThroughOwnOperator_of_steady {s : Contexts}
    (hrun : Common.Reaches (step g) (Steady g) {} s) :
    FedThroughOwnOperator g s :=
  (hrun.invariant (P := Inv g) (inv_init g) fun _ _ _ h hsteady hstep =>
    h.step hsteady hstep).fedThroughOwnOperator

/-! ## A context that stays -/

instance (s : Contexts) (a : ContextStep) : Decidable (Steady g s a) := by
  unfold Steady
  split <;> try split
  all_goals infer_instance

/-- One partition; the RDDs 1 and 2 are computed from the delegate RDD 0, RDD 3 uses it twice. -/
def sharedUpstream : LocalRdds where
  partitionSize := 1
  isLocal := fun _ _ => true
  inRdd := fun d => if d = 0 then [] else if d = 3 then [0, 0] else [0]

/-- The RDD is created and connected with its upstream RDDs. -/
def createSteps (d n : ℕ) : List ContextStep :=
  [.createRdd d, .partitionCreated d] ++
    (List.replicate n [.connect, .parse true, .addContext, .addContext]).flatten ++ [.connect]

/-- RDD 1 is destroyed, then RDD 0 is transformed. -/
def destroyFirst : List ContextStep :=
  .createDelegateRdd 0 :: createSteps 1 1 ++ createSteps 2 1 ++
    [.removeRddLocal 1, .removeDownstream, .removeDownstream, .transform 0 0, .transformNext 0 0]

/-- RDD 2 is fed through the operator of RDD 1. -/
theorem not_fedThroughOwnOperator_of_run :
    ¬ ∀ s : Contexts, Common.Reaches (step sharedUpstream) Common.anyStep {} s →
      FedThroughOwnOperator sharedUpstream s := by
  intro hall
  have hend : ((Common.replay (step sharedUpstream) Common.anyStep {} destroyFirst).any fun s =>
      s.reads.any fun r => decide (r.downstream[r.i]? = some 2 ∧ r.context = some (1, 0))) =
        true := by
    decide +kernel
  obtain ⟨s, hs, hbad⟩ := (Option.any_eq_true _ _).mp hend
  obtain ⟨r, hr, hbad⟩ := List.any_eq_true.mp hbad
  obtain ⟨hdown, hcontext⟩ := of_decide_eq_true hbad
  obtain ⟨k, hk, -⟩ := (hall s (Common.reaches_of_replay hs)).reads r hr 2 hdown
  cases hcontext.symm.trans hk

/-- RDD 2 is destroyed after RDD 3, which uses RDD 0 twice; RDD 0 is transformed before and after
it. -/
def destroyLast : List ContextStep :=
  .createDelegateRdd 0 :: createSteps 1 1 ++ createSteps 2 1 ++ createSteps 3 2 ++
    [.transform 0 0, .removeRddLocal 3, .removeDownstream] ++
    List.replicate 5 (.transformNext 0 0) ++
    [.removeDownstream, .removeDownstream, .removeRddLocal 2, .removeDownstream, .removeDownstream,
    .transform 0 0,
      .transformNext 0 0, .transformNext 0 0]

/-- Every RDD is fed through its own operator. -/
theorem fedThroughOwnOperator_of_steady_destroyLast : ∃ s : Contexts,
    Common.Reaches (step sharedUpstream) (Steady sharedUpstream) {} s ∧
      s.reads.map ContextRead.context =
        [some (1, 0), some (2, 0), some (3, 0), some (3, 1), some (1, 0)] ∧
      FedThroughOwnOperator sharedUpstream s := by
  have hend :
      ((Common.replay (step sharedUpstream) (Steady sharedUpstream) {} destroyLast).any fun s =>
      decide (s.reads.map ContextRead.context =
        [some (1, 0), some (2, 0), some (3, 0), some (3, 1), some (1, 0)])) = true := by
    decide +kernel
  obtain ⟨s, hs, hgood⟩ := (Option.any_eq_true _ _).mp hend
  exact ⟨s, Common.reaches_of_replay hs, of_decide_eq_true hgood,
    fedThroughOwnOperator_of_steady (Common.reaches_of_replay hs)⟩

end Contexts

end Idgs.Rdd
