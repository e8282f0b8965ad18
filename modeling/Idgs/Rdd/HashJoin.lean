import Idgs.Common.Joins

/-!
# The hash join

`HashJoinTransformer` goes through a partition of the first RDD and looks the keys up in the
partition with the same index of the second one. The operators make the outputs; one that filters a
pair out makes none.
-/

namespace Idgs.Rdd

/-- `pb::JoinType`. -/
inductive JoinType
  | innerJoin | leftJoin | outerJoin
deriving DecidableEq

/-- What a transformer sees of a partition (`BaseRddPartition`): its rows, its groups and the values
of a key; `none` when a comparison of keys ends the process. -/
structure RddPartition (κ ν : Type*) where
  rows : List (κ × ν)
  groups : List (κ × List ν)
  getValue : κ → Option (List ν)

/-- `JoinOperator` with its one parameter operator. The latter adds to the output, which may be
missing. -/
structure JoinOperator (κ ν ω o : Type*) where
  joinType : JoinType
  evaluate : κ → ν → Option o
  paramOperator : κ → ω → Option o → Option o

namespace HashJoinTransformer

variable {κ ν ω o : Type*} (op : JoinOperator κ ν ω o)

/-- `HashJoinTransformer::handleTwoRddInnerOrLeftJoin` for one row: the rows that the output
processes. -/
def handleTwoRddInnerOrLeftJoin (param : RddPartition κ ω) (row : κ × ν) : Option (List o) :=
  match op.evaluate row.1 row.2 with
  | none => some []
  | some out =>
    (param.getValue row.1).map fun values =>
      match values with
      | [] => if op.joinType = .innerJoin then [] else [out]
      | [value] => (op.paramOperator row.1 value (some out)).toList
      | values => values.filterMap fun value => op.paramOperator row.1 value (some out)

/-- The loop over the rows of the input. -/
def foreachRow (input : RddPartition κ ν) (param : RddPartition κ ω) : Option (List o) :=
  (input.rows.mapM (handleTwoRddInnerOrLeftJoin op param)).map List.flatten

/-- `HashJoinTransformer::handleTwoRddOuterJoin`; `containKey` is what the output says meanwhile. -/
def handleTwoRddOuterJoin (containKey : κ → Bool) (input : RddPartition κ ν)
    (param : RddPartition κ ω) :
    Option (List o) :=
  (foreachRow op input param).map fun out =>
    out ++ param.groups.flatMap fun group =>
      if containKey group.1 then []
      else group.2.filterMap fun value => op.paramOperator group.1 value none

/-- `HashJoinTransformer::transform` of two partitions. -/
def transform (containKey : κ → Bool) (input : RddPartition κ ν) (param : RddPartition κ ω) :
    Option (List o) :=
  if op.joinType = .outerJoin then handleTwoRddOuterJoin op containKey input param
  else foreachRow op input param

/-- The rows of an RDD with so many partitions. -/
def rowsOf (partitionCount : ℕ) (rdd : ℕ → RddPartition κ ν) : List (κ × ν) :=
  (List.range partitionCount).flatMap fun i => (rdd i).rows

/-- The join of two RDDs: partitions with the same index are joined. -/
def join (partitionCount : ℕ) (containKey : ℕ → κ → Bool) (input : ℕ → RddPartition κ ν)
    (param : ℕ → RddPartition κ ω) : Option (List o) :=
  ((List.range partitionCount).mapM fun i =>
    transform op (containKey i) (input i) (param i)).map List.flatten

/-- The output for a pair of rows with one key. -/
def pairOutput (key : κ) (value : ν) (value' : ω) : Option o :=
  (op.evaluate key value).bind fun out => op.paramOperator key value' (some out)

variable [DecidableEq κ]

/-- All pairs of rows of the two whole RDDs with equal keys are among the results. -/
def ReturnsEveryPair (partitionCount : ℕ) (containKey : ℕ → κ → Bool) (input : ℕ → RddPartition κ ν)
    (param : ℕ → RddPartition κ ω) : Prop :=
  ∃ out, join op partitionCount containKey input param = some out ∧
    (Common.matching (pairOutput op) (rowsOf partitionCount input)
    (rowsOf partitionCount param)).Subperm out

/-- A lookup of these keys gives the values that the rows have for them. -/
def Lookups (S : Set κ) (p : RddPartition κ ω) : Prop :=
  ∀ k ∈ S, p.getValue k = some (Common.valuesOf k p.rows)

variable {op} {S : Set κ} {input : RddPartition κ ν} {param : RddPartition κ ω}

variable (op) in
/-- A row is joined with all values of its key. -/
theorem handleTwoRddInnerOrLeftJoin_eq (h : Lookups S param) {row : κ × ν} (hrow : row.1 ∈ S) :
    ∃ out, handleTwoRddInnerOrLeftJoin op param row = some out ∧
      ((Common.valuesOf row.1 param.rows).filterMap (pairOutput op row.1 row.2)).Subperm out := by
  unfold handleTwoRddInnerOrLeftJoin pairOutput
  cases hout : op.evaluate row.1 row.2 with
  | none =>
    refine ⟨[], rfl, ?_⟩
    simp
  | some out =>
    simp only [h row.1 hrow, Option.map_some, Option.bind_some]
    refine ⟨_, rfl, ?_⟩
    rcases Common.valuesOf row.1 param.rows with _ | ⟨value, _ | ⟨value', values⟩⟩
    · exact List.nil_subperm
    · cases hpair : op.paramOperator row.1 value (some out) with
      | none => simp [hpair]
      | some out' => simp [hpair]
    · exact List.Subperm.refl _

variable (op) in
/-- The rows of a partition are joined with all rows of the other partition that have their keys. -/
theorem foreachRow_eq (h : Lookups S param) (hinput : ∀ x ∈ input.rows, x.1 ∈ S) :
    ∃ out, foreachRow op input param = some out ∧
      (Common.matching (pairOutput op) input.rows param.rows).Subperm out := by
  obtain ⟨g, hg, hall⟩ := Common.mapM_eq_some fun row hrow => by
    obtain ⟨out, hout, -⟩ := handleTwoRddInnerOrLeftJoin_eq op h (hinput row hrow)
    exact ⟨out, hout⟩
  refine ⟨_, hall, Common.subperm_flatMap fun row hrow => ?_⟩
  obtain ⟨out, hout, hsub⟩ := handleTwoRddInnerOrLeftJoin_eq op h (hinput row hrow)
  rw [hg row hrow, Option.some.injEq] at hout
  rwa [← hout] at hsub

variable (op) in
theorem transform_eq (containKey : κ → Bool) (h : Lookups S param)
    (hinput : ∀ x ∈ input.rows, x.1 ∈ S) :
    ∃ out, transform op containKey input param = some out ∧
      (Common.matching (pairOutput op) input.rows param.rows).Subperm out := by
  obtain ⟨out, hout, hsub⟩ := foreachRow_eq op h hinput
  unfold transform handleTwoRddOuterJoin
  rw [hout]
  split
  · exact ⟨_, rfl, hsub.trans (List.sublist_append_left _ _).subperm⟩
  · exact ⟨out, rfl, hsub⟩

/-- Where equal keys lie in partitions with equal indices, every matching pair is returned. -/
theorem returnsEveryPair {partitionCount : ℕ} (containKey : ℕ → κ → Bool)
    {input : ℕ → RddPartition κ ν} {param : ℕ → RddPartition κ ω} (h : ∀ i, Lookups S (param i))
    (hinput : ∀ i, ∀ x ∈ (input i).rows, x.1 ∈ S)
    (halike : ∀ i < partitionCount, ∀ j < partitionCount, ∀ x ∈ (input i).rows,
      ∀ y ∈ (param j).rows,
      y.1 = x.1 → j = i) :
    ReturnsEveryPair op partitionCount containKey input param := by
  obtain ⟨g, hg, hall⟩ := Common.mapM_eq_some (l := List.range partitionCount) fun i _ => by
    obtain ⟨out, hout, -⟩ := transform_eq op (containKey i) (h i) (hinput i)
    exact ⟨out, hout⟩
  refine ⟨_, hall, ?_⟩
  rw [rowsOf, rowsOf, Common.matching_flatMap _ List.nodup_range]
  · refine Common.subperm_flatMap fun i hi => ?_
    obtain ⟨out, hout, hsub⟩ := transform_eq op (containKey i) (h i) (hinput i)
    rw [hg i hi, Option.some.injEq] at hout
    rwa [← hout] at hsub
  · intro i hi j hj hne x hx y hy hkey
    exact hne (halike i (List.mem_range.mp hi) j (List.mem_range.mp hj) x hx y hy hkey)

end HashJoinTransformer

end Idgs.Rdd
