import Mathlib.Data.Rat.Floor
import Idgs.Common.Distinct
import Idgs.Common.Extremum

/-!
# Reducing an RDD

`ReduceTransformer` folds the rows of a partition into one row, and the partition that receives
these rows folds them again. Every field of the value has an operation of its own with its own
`ReduceOption`, so that fields do not depend on each other.
-/

namespace Idgs.Rdd

open List

/-! ## Variants and fields -/

/-- What a variant holds: a value as it stood in a field, or a number. -/
inductive Content (V : Type*)
  | field (v : V)
  | number (x : ℚ)

/-- `PbVariant` with its `is_null`. -/
structure Variant (V : Type*) where
  content : Content V := .number 0
  isNull : Bool := true

/-- A variant that a number was assigned to. -/
def Variant.ofNumber {V : Type*} (x : ℚ) : Variant V := { content := .number x, isNull := false }

/-- The type of a field: its values as numbers, the conversion of numbers, the default, and whether
it is a string. Assigning a string leaves a variant null. -/
structure FieldType (V : Type*) where
  num : V → ℚ
  cast : ℚ → V
  default : V
  isString : Bool

namespace FieldType

variable {V : Type*} (f : FieldType V)

/-- `MessageHelper::getMessageValue`, and the assignment of the variant that it fills. -/
def getMessageValue (v : V) : Variant V := { content := .field v, isNull := f.isString }

/-- The value that `MessageHelper::setMessageValue` writes. -/
def setMessageValue (x : Variant V) : V :=
  match x.content with
  | .field v => v
  | .number x => f.cast x

/-- `(double)`; `round` is the conversion of a number. -/
def toDouble (round : ℚ → ℚ) (x : Variant V) : ℚ :=
  match x.content with
  | .field v => round (f.num v)
  | .number x => x

/-- `(size_t)`. -/
def toSize (x : Variant V) : ℕ :=
  match x.content with
  | .field v => ⌊f.num v⌋₊
  | .number x => ⌊x⌋₊

end FieldType

/-! ## The operations -/

/-- The classes of reduce operations. -/
inductive Reduction
  | expr | count | sum | max | min
deriving DecidableEq

/-- `ReduceOperation`. -/
structure ReduceOperation (V : Type*) where
  name : Reduction
  distinct : Bool
  field : FieldType V

/-- `ReduceOption`. -/
structure ReduceOption (V : Type*) where
  value : Variant V := {}
  aggrValue : Variant V := {}
  distinctSet : List V := []

section Operations

variable {V : Type*} [LinearOrder V]

/-- `ReduceOption::isDistinctValue`: whether the value is in the set, to which it is added. -/
def ReduceOption.isDistinctValue (option : ReduceOption V) (value : V) : Bool × ReduceOption V :=
  if value ∈ option.distinctSet then (true, option)
  else (false, { option with distinctSet := option.distinctSet ++ [value] })

namespace ReduceOperation

variable (round : ℚ → ℚ) (op : ReduceOperation V)

/-- The test `distinct && option.isDistinctValue(value)` of the operations. -/
def skips (option : ReduceOption V) (value : V) : Bool × ReduceOption V :=
  if op.distinct then option.isDistinctValue value else (false, option)

/-- `CountReduceOperation::reduce`: the option and the value of the field. -/
def countReduce (option : ReduceOption V) (value : V) : ReduceOption V × V :=
  let r := op.skips option value
  let count := if r.2.value.isNull then 1 else op.field.toSize r.2.value + 1
  let option := if r.1 then r.2 else { r.2 with value := .ofNumber count }
  (option, op.field.setMessageValue option.value)

/-- `CountReduceOperation::aggregate`. -/
def countAggregate (option : ReduceOption V) (value : V) : ReduceOption V × V :=
  let count := op.field.toSize (op.field.getMessageValue value)
  let total := if option.aggrValue.isNull then count else op.field.toSize option.aggrValue + count
  let option := { option with aggrValue := .ofNumber total }
  (option, op.field.setMessageValue option.aggrValue)

/-- `SumReduceOperation::reduce`. -/
def sumReduce (option : ReduceOption V) (value : V) : ReduceOption V × V :=
  let r := op.skips option value
  let variant := op.field.getMessageValue value
  let sum :=
    if r.2.value.isNull then variant
    else .ofNumber (round (op.field.toDouble round r.2.value + op.field.toDouble round variant))
  let option := if r.1 then r.2 else { r.2 with value := sum }
  (option, op.field.setMessageValue option.value)

/-- `SumReduceOperation::aggregate`. -/
def sumAggregate (option : ReduceOption V) (value : V) : ReduceOption V × V :=
  let sum := op.field.toDouble round (op.field.getMessageValue value)
  let total :=
    if option.aggrValue.isNull then sum else round (op.field.toDouble round option.aggrValue + sum)
  let option := { option with aggrValue := .ofNumber total }
  (option, op.field.setMessageValue option.aggrValue)

/-- `MaxReduceOperation::reduce` and `MinReduceOperation::reduce`. A value that is kept is not
written to the field, and a better one does not replace it. -/
def extremumReduce (keeps : V → V → Bool) (option : ReduceOption V) (value : V) :
    ReduceOption V × V :=
  let r := op.skips option value
  if r.1 then (r.2, op.field.setMessageValue r.2.value)
  else if r.2.value.isNull then
    let option := { r.2 with value := op.field.getMessageValue value }
    (option, op.field.setMessageValue option.value)
  else if keeps (op.field.setMessageValue r.2.value) value then (r.2, value)
  else (r.2, op.field.setMessageValue r.2.value)

/-- `MaxReduceOperation::aggregate` and `MinReduceOperation::aggregate`. -/
def extremumAggregate (keeps : V → V → Bool) (option : ReduceOption V) (value : V) :
    ReduceOption V × V :=
  if option.aggrValue.isNull then
    let option := { option with aggrValue := op.field.getMessageValue value }
    (option, op.field.setMessageValue option.aggrValue)
  else if keeps (op.field.setMessageValue option.aggrValue) value then (option, value)
  else (option, op.field.setMessageValue option.aggrValue)

/-- `ExprReduceOperation::reduce` and `ExprReduceOperation::aggregate`: the field stays as it is. -/
def exprReduce (option : ReduceOption V) (value : V) : ReduceOption V × V :=
  if option.value.isNull then ({ option with value := op.field.getMessageValue value }, value)
  else (option, value)

/-- `option.value >= value`. -/
def keepsMax (a b : V) : Bool := decide (b ≤ a)

/-- `option.value <= value`. -/
def keepsMin (a b : V) : Bool := decide (a ≤ b)

/-- `ReduceOperation::reduce`. -/
def reduce (option : ReduceOption V) (value : V) : ReduceOption V × V :=
  match op.name with
  | .expr => op.exprReduce option value
  | .count => op.countReduce option value
  | .sum => op.sumReduce round option value
  | .max => op.extremumReduce keepsMax option value
  | .min => op.extremumReduce keepsMin option value

/-- `ReduceOperation::aggregate`. -/
def aggregate (option : ReduceOption V) (value : V) : ReduceOption V × V :=
  match op.name with
  | .expr => op.exprReduce option value
  | .count => op.countAggregate option value
  | .sum => op.sumAggregate round option value
  | .max => op.extremumAggregate keepsMax option value
  | .min => op.extremumAggregate keepsMin option value

end ReduceOperation

end Operations

/-! ## The transformer -/

namespace ReduceTransformer

variable {ι : Type*} {V : ι → Type*} [∀ i, LinearOrder (V i)] {ρ : Type*} (round : ℚ → ℚ)
  (options : ∀ i, ReduceOperation (V i)) (evaluate : ρ → Option (∀ i, V i))

/-- The options of the operations and the value of the output, if there is one. -/
structure Reduced (V : ι → Type*) where
  reduceOptions : ∀ i, ReduceOption (V i) := fun _ => {}
  outvalue : Option (∀ i, V i) := none

/-- One row in `ReduceTransformer::transform`. A row that is filtered out changes nothing. -/
def reduceRow (s : Reduced V) (row : ρ) : Reduced V :=
  match evaluate row with
  | none => s
  | some value =>
    { reduceOptions := fun i => ((options i).reduce round (s.reduceOptions i) (value i)).1
      outvalue := some fun i => ((options i).reduce round (s.reduceOptions i) (value i)).2 }

/-- `ReduceTransformer::transform` of a partition: the value of the row that it sends. A partition
without a row sends the defaults. -/
def transform (rows : List ρ) : ∀ i, V i :=
  (rows.foldl (reduceRow round options evaluate) {}).outvalue.getD fun i =>
  (options i).field.default

/-- `ReduceTransformer::transform` of the rows of an RDD that is not persisted, one by one: every
row that is not filtered out sends the value so far. -/
def transformRows (rows : List ρ) : Reduced V × List (∀ i, V i) :=
  rows.foldl (fun s row =>
    match evaluate row with
    | none => s
    | some _ =>
      (reduceRow round options evaluate s.1 row,
        s.2 ++ (reduceRow round options evaluate s.1 row).outvalue.toList)) ({}, [])

/-- `ReduceTransformer::aggregate`: the row that is persisted is the one that came last. -/
def aggregate (s : Reduced V) (value : ∀ i, V i) : Reduced V :=
  { reduceOptions := fun i => ((options i).aggregate round (s.reduceOptions i) (value i)).1
    outvalue := some fun i => ((options i).aggregate round (s.reduceOptions i) (value i)).2 }

/-- What the reduced RDD holds when the rows of all partitions have arrived, in the order of the
list. -/
def distributed (partitions : List (List ρ)) : Option (∀ i, V i) :=
  ((partitions.map (transform round options evaluate)).foldl (aggregate round options) {}).outvalue

/-! ## One field -/

section Field

variable {W : Type*} [LinearOrder W] (op : ReduceOperation W)

/-- The reduction of one field. -/
def reduceField (xs : List W) : ReduceOption W × Option W :=
  xs.foldl (fun s x => ((op.reduce round s.1 x).1, some (op.reduce round s.1 x).2)) ({}, none)

/-- The aggregation of one field. -/
def aggregateField (xs : List W) : ReduceOption W × Option W :=
  xs.foldl (fun s x => ((op.aggregate round s.1 x).1, some (op.aggregate round s.1 x).2)) ({}, none)

@[simp] theorem reduceField_nil : reduceField round op [] = ({}, none) := rfl

@[simp] theorem aggregateField_nil : aggregateField round op [] = ({}, none) := rfl

theorem reduceField_concat (xs : List W) (x : W) :
    reduceField round op (xs ++ [x]) =
      ((op.reduce round (reduceField round op xs).1 x).1,
        some (op.reduce round (reduceField round op xs).1 x).2) := by
  rw [reduceField, foldl_append]
  rfl

theorem aggregateField_concat (xs : List W) (x : W) :
    aggregateField round op (xs ++ [x]) =
      ((op.aggregate round (aggregateField round op xs).1 x).1,
        some (op.aggregate round (aggregateField round op xs).1 x).2) := by
  rw [aggregateField, foldl_append]
  rfl

end Field

/-- The values of a field in the rows that are not filtered out. -/
def column (i : ι) (rows : List ρ) : List (V i) :=
  (rows.filterMap evaluate).map fun value => value i

omit [∀ i, LinearOrder (V i)] in
theorem column_flatten (i : ι) (partitions : List (List ρ)) :
    column evaluate i partitions.flatten = (partitions.map (column evaluate i)).flatten := by
  induction partitions with
  | nil => rfl
  | cons rows partitions ih =>
    rw [flatten_cons, map_cons, flatten_cons, ← ih]
    simp [column, filterMap_append]

/-- A field of the loop over the rows is the reduction of its column. -/
theorem foldl_reduceRow (rows : List ρ) :
    (∀ i, (rows.foldl (reduceRow round options evaluate) {}).reduceOptions i =
        (reduceField round (options i) (column evaluate i rows)).1) ∧
      ∀ i, (rows.foldl (reduceRow round options evaluate) {}).outvalue.map (fun value => value i) =
        (reduceField round (options i) (column evaluate i rows)).2 := by
  induction rows using List.reverseRecOn with
  | nil => exact ⟨fun _ => rfl, fun _ => rfl⟩
  | append_singleton rows row ih =>
    rw [foldl_append, foldl_cons, foldl_nil, reduceRow]
    cases hrow : evaluate row with
    | none =>
      have hcolumn : ∀ i, column evaluate i (rows ++ [row]) = column evaluate i rows := by
        intro i
        simp [column, filterMap_append, hrow]
      simp only [hcolumn]
      exact ih
    | some value =>
      have hcolumn : ∀ i, column evaluate i (rows ++ [row]) =
          column evaluate i rows ++ [value i] := by
        intro i
        simp [column, filterMap_append, hrow]
      simp only [hcolumn, reduceField_concat, ih.1, Option.map_some]
      exact ⟨fun _ => trivial, fun _ => trivial⟩

/-- A field of the row that a partition sends. -/
theorem transform_apply (rows : List ρ) (i : ι) :
    transform round options evaluate rows i =
      (reduceField round (options i) (column evaluate i rows)).2.getD
      (options i).field.default := by
  rw [← (foldl_reduceRow round options evaluate rows).2 i, transform]
  cases (rows.foldl (reduceRow round options evaluate) {}).outvalue <;> rfl

theorem foldl_aggregate (values : List (∀ i, V i)) :
    (∀ i, (values.foldl (aggregate round options) {}).reduceOptions i =
        (aggregateField round (options i) (values.map fun value => value i)).1) ∧
      ∀ i, (values.foldl (aggregate round options) {}).outvalue.map (fun value => value i) =
        (aggregateField round (options i) (values.map fun value => value i)).2 := by
  induction values using List.reverseRecOn with
  | nil => exact ⟨fun _ => rfl, fun _ => rfl⟩
  | append_singleton values value ih =>
    rw [foldl_append, foldl_cons, foldl_nil, aggregate]
    simp only [map_append, map_cons, map_nil, aggregateField_concat, ih.1, Option.map_some]
    exact ⟨fun _ => trivial, fun _ => trivial⟩

/-- What a partition sends for a field with these values. -/
def sent {W : Type*} [LinearOrder W] (op : ReduceOperation W) (xs : List W) : W :=
  (reduceField round op xs).2.getD op.field.default

/-- A field of the reduced RDD. -/
theorem distributed_apply (partitions : List (List ρ)) (i : ι) :
    (distributed round options evaluate partitions).map (fun value => value i) =
      (aggregateField round (options i)
        (partitions.map fun rows => sent round (options i) (column evaluate i rows))).2 := by
  rw [distributed, (foldl_aggregate round options _).2 i, map_map]
  congr 3
  funext rows
  exact transform_apply round options evaluate rows i

end ReduceTransformer

end Idgs.Rdd
