import Idgs.Common.NumberText
import Idgs.Rdd.PairRddPartition
import Idgs.Rdd.PartitionResults

/-!
# Count, sum, lookup and collect

Every partition evaluates an action on the rows that it keeps and answers with texts or rows; the
RDD puts together what the partitions have answered.
-/

namespace Idgs.Rdd

open Common (decimal fixed readDecimal readFixed roundDouble ungroup)
open Protobuf (Descriptor Message StlHash)

/-! ## The code -/

/-- `ActionRequest`: the filter and the limit. -/
structure ActionRequest (κ ν : Type*) where
  filter : Option (κ → ν → Bool)
  limit : Option UInt64

namespace ActionContext

variable {κ ν : Type*} (request : ActionRequest κ ν)

def hasFilterExpr : Bool := request.filter.isSome

def evaluateFilterExpr (key : κ) (value : ν) : Bool :=
  match request.filter with
  | none => true
  | some filterExpr => filterExpr key value

/-- `getLimit`: the limit is kept in a signed number. -/
def getLimit : ℤ :=
  match request.limit with
  | none => -1
  | some limit => if limit.toNat < 2 ^ 63 then limit.toNat else limit.toNat - 2 ^ 64

end ActionContext

section Actions

variable {κ ν : Type*} (request : ActionRequest κ ν)

/-- `std::stoul`. -/
def stoul (text : List Char) : Option ℕ := (readDecimal text).filter (· < 2 ^ 64)

/-- `PairRddPartition::valueSize`. -/
def valueSize (groups : List (κ × List ν)) : ℕ :=
  groups.foldl (fun sum group => sum + group.2.length) 0

/-- `CountAction::action`. -/
def CountAction.action (groups : List (κ × List ν)) : List (List Char) :=
  if !ActionContext.hasFilterExpr request then [decimal (valueSize groups)]
  else
    [decimal ((ungroup groups).foldl
      (fun count row => if ActionContext.evaluateFilterExpr request row.1 row.2 then count + 1
        else count) 0)]

/-- One round of `CountAction::aggregate`: partitions without a value are left out. -/
def CountAction.addResult (size : ℕ) : List (List Char) → Option ℕ
  | [] => some size
  | text :: _ => (stoul text).map fun pSize => size + pSize

/-- `CountAction::aggregate`. -/
def CountAction.aggregate (results : List (List (List Char))) : Option ℕ :=
  results.foldlM CountAction.addResult 0

/-- `SumAction::action`, for an expression with integer values. -/
def SumAction.action (evaluateExpr : κ → ν → ℤ) (groups : List (κ × List ν)) : List (List Char) :=
  [fixed ((ungroup groups).foldl (fun sum row =>
    if ActionContext.evaluateFilterExpr request row.1 row.2 then
      roundDouble (sum + roundDouble (evaluateExpr row.1 row.2))
    else sum) 0)]

/-- One round of `SumAction::aggregate`. -/
def SumAction.addResult (sum : ℤ) : List (List Char) → Option ℤ
  | [] => some sum
  | text :: _ => (readFixed text).map fun value => roundDouble (sum + value)

/-- `SumAction::aggregate`. -/
def SumAction.aggregate (results : List (List (List Char))) : Option ℤ :=
  results.foldlM SumAction.addResult 0

/-- `LookupAction::action`, with the values that `getValue` has found. -/
def LookupAction.action (key : κ) (values : List ν) : List ν :=
  values.filter (ActionContext.evaluateFilterExpr request key)

/-- `LookupAction::aggregate`. -/
def LookupAction.aggregate (input : List (List ν)) : List ν :=
  input.foldl (fun result values => values.foldl (fun result value => result ++ [value]) result) []

/-- `CollectAction::action`: the groups, each with the values that pass, until the limit is
reached. -/
def CollectAction.action (groups : List (κ × List ν)) : List (κ × List ν) :=
  groups.foldl (fun result group =>
    if 0 ≤ ActionContext.getLimit request ∧ ActionContext.getLimit request ≤ result.length then
      result
    else
      let values := group.2.filter (ActionContext.evaluateFilterExpr request group.1)
      if 0 < values.length then result ++ [(group.1, values)] else result) []

/-- `CollectAction::aggregate`. -/
def CollectAction.aggregate (input : List (List (κ × List ν))) : List (κ × List ν) :=
  input.foldl (fun result pairs =>
    pairs.foldl (fun result pair =>
      if ActionContext.getLimit request < 0 ∨ (result.length : ℤ) < ActionContext.getLimit request
        then result ++ [pair]
      else result) result) []

end Actions

/-! ## The RDD -/

namespace RddActions

variable {ν : Type} {d : Descriptor} (stl : StlHash) (persistType : PersistType)
    (isReplicatedRdd : Bool)
  (partitions : List (List (Message d × ν))) (request : ActionRequest (Message d) ν)

/-- A partition after its rows have been persisted one after the other. -/
def stored (rows : List (Message d × ν)) : Option (PairRddPartition d ν) :=
  rows.foldlM (fun p row => p.persist stl persistType row.1 row.2 false) {}

/-- The count of an RDD. -/
def count : Option ℕ := do
  let parts ← partitions.mapM (stored stl persistType)
  CountAction.aggregate
    (partitionResults isReplicatedRdd (fun p =>
      CountAction.action request (p.groups persistType)) parts)

/-- The sum of an RDD. -/
def sum (evaluateExpr : Message d → ν → ℤ) : Option ℤ := do
  let parts ← partitions.mapM (stored stl persistType)
  SumAction.aggregate
    (partitionResults isReplicatedRdd (fun p =>
      SumAction.action request evaluateExpr (p.groups persistType)) parts)

/-- What is found under a key: all partitions are asked. -/
def lookup (key : Message d) : Option (List ν) := do
  let parts ← partitions.mapM (stored stl persistType)
  let found ← parts.mapM fun p => p.getValue stl persistType key
  some (LookupAction.aggregate
    (partitionResults isReplicatedRdd (LookupAction.action request key) found))

/-- What is collected of an RDD. -/
def collect : Option (List (Message d × List ν)) := do
  let parts ← partitions.mapM (stored stl persistType)
  some (CollectAction.aggregate request
    (partitionResults isReplicatedRdd (fun p =>
      CollectAction.action request (p.groups persistType)) parts))

end RddActions

end Idgs.Rdd
