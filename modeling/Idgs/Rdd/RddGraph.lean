import Mathlib.Algebra.BigOperators.Group.Finset.Basic
import Idgs.Rdd.PairRddPartition

/-!
# The graph of RDDs

An RDD knows the RDDs that it is computed from and, for each RDD that is computed from it, what the
transformer of that one makes of its rows. The rows of an RDD that is persisted are stored in its
partitions, those of one that is not are handed on as they come. What an RDD should hold is what the
transformers make of the rows of its upstream RDDs, each row taken once.
-/

namespace Idgs.Rdd

/-- A downstream RDD, with its `Transformer` and the `TransformerContext` for one of its upstream
RDDs: what it makes of a whole partition and of one row, given the partitions of its param RDDs. -/
structure Downstream (ρ : Type*) where
  rdd : ℕ
  transform : List (List ρ) → List ρ → List ρ
  transformRow : List (List ρ) → ρ → List ρ

/-- The RDDs of a cluster, numbered in the order in which they were created. -/
structure RddGraph (ρ : Type*) where
  rddSize : ℕ
  partitionSize : ℕ
  upstreamRdd : ℕ → List ℕ
  downstreamRdd : ℕ → List (Downstream ρ)
  /-- `RddLocal::isUpstreamSync`, false for joins. -/
  upstreamSync : ℕ → Bool
  /-- `RddLocal::isRepartition`. -/
  repartition : ℕ → Bool
  /-- Whether the transformer is the `GroupTransformer`. -/
  group : ℕ → Bool
  /-- `ClusterConfig::batch_message`. -/
  batchMessage : ℕ
  /-- `PairRddPartition::calcPartitionId` of the key of a row. -/
  calcPartitionId : ρ → ℕ
  /-- The members with a local store. -/
  members : List ℕ
  /-- The member of the actor of an RDD. -/
  rddMember : ℕ → ℕ
  /-- The primary member of a partition. -/
  primaryMember : ℕ → ℕ
  /-- The persist type that an RDD is created with. -/
  persistType : ℕ → PersistType
  /-- What the partitions of a store delegate RDD show of the store. -/
  source : ℕ → ℕ → List ρ
  upstream_iff : ∀ u d, u ∈ upstreamRdd d ↔ ∃ e ∈ downstreamRdd u, e.rdd = d
  /-- An RDD is created from RDDs that exist. -/
  upstream_lt : ∀ u d, u ∈ upstreamRdd d → u < d
  downstream_lt : ∀ u, ∀ e ∈ downstreamRdd u, e.rdd < rddSize
  partition_lt : ∀ x, calcPartitionId x < partitionSize
  rddMember_mem : ∀ d, rddMember d ∈ members
  primary_mem : ∀ p, primaryMember p ∈ members
  delegate_persisted : ∀ d, upstreamRdd d = [] → persistType d ≠ .none
  /-- A join makes its param RDDs persisted. -/
  param_persisted : ∀ d, upstreamSync d = false → ∀ w ∈ (upstreamRdd d).tail, persistType w ≠ .none
  source_nil : ∀ d p, upstreamRdd d ≠ [] → source d p = []

namespace RddGraph

variable {ρ : Type*} (g : RddGraph ρ)

/-- `RddLocal::isDelegateRdd`. -/
def isDelegateRdd (d : ℕ) : Bool := (g.upstreamRdd d).isEmpty

/-- The upstream RDDs of a join that its transformer looks rows up in. -/
def paramRdd (d : ℕ) : List ℕ := (g.upstreamRdd d).tail

/-- Whether the rows of RDD `u` go to this downstream RDD: a join takes them from its first upstream
RDD only. -/
def pushes (u : ℕ) (e : Downstream ρ) : Bool :=
  g.upstreamSync e.rdd || (g.upstreamRdd e.rdd).head? == some u

section

variable {u : ℕ} {e : Downstream ρ} (he : e ∈ g.downstreamRdd u)

include he

theorem lt_of_downstream : u < e.rdd :=
  g.upstream_lt u e.rdd ((g.upstream_iff u e.rdd).mpr ⟨e, he, rfl⟩)

theorem mem_upstream :
    u ∈ g.upstreamRdd e.rdd :=
  (g.upstream_iff u e.rdd).mpr ⟨e, he, rfl⟩

theorem not_delegate :
    g.upstreamRdd e.rdd ≠ [] :=
  List.ne_nil_of_mem (g.mem_upstream he)

end

/-! ## What arrives at a partition -/

/-- The part of the rows put into partition `i` of RDD `d` that goes to partition `p`. -/
def toPartition (d i p : ℕ) (rows : Multiset ρ) : Multiset ρ :=
  if g.repartition d then rows.filter fun x => g.calcPartitionId x = p else if i = p then rows
  else 0

@[simp] theorem toPartition_zero (d i p : ℕ) : g.toPartition d i p 0 = 0 := by
  unfold toPartition
  split
  · rfl
  · split <;> rfl

theorem toPartition_add (d i p : ℕ) (xs ys : Multiset ρ) :
    g.toPartition d i p (xs + ys) = g.toPartition d i p xs + g.toPartition d i p ys := by
  unfold toPartition
  split
  · exact Multiset.filter_add _ xs ys
  · split
    · rfl
    · rfl

/-- What arrives at partition `p` of RDD `d` if `out u i e` comes out of partition `i` of the RDDs
`u`. -/
def arriving (out : ℕ → ℕ → Downstream ρ → Multiset ρ) (d p : ℕ) : Multiset ρ :=
  ∑ u ∈ Finset.range d, ((g.downstreamRdd u).map fun e =>
    if e.rdd = d ∧ g.pushes u e = true then
      ∑ i ∈ Finset.range g.partitionSize, g.toPartition d i p (out u i e)
    else 0).sum

variable {g}

theorem arriving_congr {out out' : ℕ → ℕ → Downstream ρ → Multiset ρ} {d p : ℕ}
    (h : ∀ u, ∀ e ∈ g.downstreamRdd u, e.rdd = d → g.pushes u e = true → ∀ i < g.partitionSize,
      out u i e = out' u i e) :
    g.arriving out d p = g.arriving out' d p := by
  unfold arriving
  refine Finset.sum_congr rfl fun u _ => congrArg List.sum (List.map_congr_left fun e he => ?_)
  by_cases hpush : e.rdd = d ∧ g.pushes u e = true
  · rw [if_pos hpush, if_pos hpush]
    refine Finset.sum_congr rfl fun i hi => ?_
    rw [h u e he hpush.1 hpush.2 i (Finset.mem_range.mp hi)]
  · rw [if_neg hpush, if_neg hpush]

theorem arriving_add (out out' : ℕ → ℕ → Downstream ρ → Multiset ρ) (d p : ℕ) :
    g.arriving
    (fun u i e => out u i e + out' u i e) d p = g.arriving out d p + g.arriving out' d p := by
  unfold arriving
  rw [← Finset.sum_add_distrib]
  refine Finset.sum_congr rfl fun u _ => ?_
  rw [← List.sum_map_add]
  refine congrArg List.sum (List.map_congr_left fun e _ => ?_)
  by_cases hpush : e.rdd = d ∧ g.pushes u e = true
  · simp only [if_pos hpush, toPartition_add, Finset.sum_add_distrib]
  · simp only [if_neg hpush, add_zero]

/-- What comes out of one partition of one RDD arrives at the RDDs that take rows from it. -/
theorem arriving_single {u i : ℕ} (hi : i < g.partitionSize) (rows : Downstream ρ → Multiset ρ)
    (d p : ℕ) :
    g.arriving (fun u' i' e => if u' = u ∧ i' = i then rows e else 0) d p =
      ((g.downstreamRdd u).map fun e =>
        if e.rdd = d ∧ g.pushes u e = true then g.toPartition d i p (rows e) else 0).sum := by
  have hpartitions : ∀ (v : ℕ) (e : Downstream ρ), ∑ i' ∈ Finset.range g.partitionSize,
      g.toPartition d i' p (if v = u ∧ i' = i then rows e else 0) =
        if v = u then g.toPartition d i p (rows e) else 0 := by
    intro v e
    rw [Finset.sum_eq_single i]
    · by_cases hv : v = u
      · simp [hv]
      · simp [hv]
    · intro i' _ hne
      rw [if_neg fun h => hne h.2, toPartition_zero]
    · intro hmem
      exact absurd (Finset.mem_range.mpr hi) hmem
  unfold arriving
  simp only [hpartitions]
  rw [Finset.sum_eq_single u]
  · simp only [if_true]
  · intro v _ hne
    refine List.sum_eq_zero fun y hy => ?_
    obtain ⟨e, -, rfl⟩ := List.mem_map.mp hy
    rw [if_neg hne, ite_self]
  · -- an RDD is not created before its upstream RDDs
    intro hmem
    refine List.sum_eq_zero fun y hy => ?_
    obtain ⟨e, he, rfl⟩ := List.mem_map.mp hy
    have hlt := g.lt_of_downstream he
    rw [if_neg]
    rintro ⟨rfl, -⟩
    exact hmem (Finset.mem_range.mpr hlt)

/-! ## What an RDD should hold -/

section Content

variable (g) (persisted : ℕ → ℕ → Bool) (stored : ℕ → ℕ → List ρ)

/-- The partitions that the transformer of RDD `d` is given as params. -/
def params (d i : ℕ) : List (List ρ) :=
  if g.upstreamSync d then [] else (g.paramRdd d).map fun w => stored w i

/-- What comes out of partition `i` of RDD `u`, if it is computed once: the transformer's result for
the rows that are stored, or for each of the rows `rows` that are handed on. -/
def output (rows : ℕ → ℕ → Multiset ρ) (u i : ℕ) (e : Downstream ρ) : Multiset ρ :=
  if persisted u i then ↑(e.transform (g.params stored e.rdd i) (stored u i))
  else (rows u i).bind fun x => ↑(e.transformRow (g.params stored e.rdd i) x)

/-- The rows that the partitions of the RDDs before `n` should get. -/
def contentBelow : ℕ → ℕ → ℕ → Multiset ρ
  | 0 => fun _ _ => 0
  | n + 1 => fun d p =>
    if d = n then ↑(g.source d p) + g.arriving (g.output persisted stored (contentBelow n)) d p
    else contentBelow n d p

/-- The rows that partition `p` of RDD `d` should get: its transformer applied once to what its
upstream RDDs hold. -/
def content (d p : ℕ) : Multiset ρ := g.contentBelow persisted stored (d + 1) d p

theorem contentBelow_succ (n d p : ℕ) :
    g.contentBelow persisted stored (n + 1) d p =
      if d = n then ↑(g.source d p) + g.arriving
      (g.output persisted stored (g.contentBelow persisted stored n)) d p
      else g.contentBelow persisted stored n d p := rfl

variable {persisted stored}

theorem contentBelow_eq {n d : ℕ} (h : d < n) (p : ℕ) :
    g.contentBelow persisted stored n d p = g.content persisted stored d p := by
  induction n with
  | zero => omega
  | succ n ih =>
    by_cases hd : d = n
    · rw [hd, content]
    · rw [contentBelow_succ, if_neg hd]
      apply ih
      omega

variable (persisted stored) in
theorem content_eq (d p : ℕ) :
    g.content persisted stored d p =
      ↑(g.source d p) + g.arriving
      (g.output persisted stored (g.content persisted stored)) d p := by
  rw [content, contentBelow_succ, if_pos rfl]
  congr 1
  refine arriving_congr fun u e he hd _ i _ => ?_
  have hlt : u < d := by
    rw [← hd]
    exact g.lt_of_downstream he
  unfold output
  rw [g.contentBelow_eq hlt]

end Content

end RddGraph

end Idgs.Rdd
