import Idgs.Common.Term
import Idgs.Rdd.HashJoin

/-!
# Plans of RDDs

The operators that a query becomes, and the rows of the RDDs that they create. An operator's filter
and its output fields are sent with the request of the operator above it, which evaluates them on
the rows of the RDD below. A row stays in its partition, except that a group transformer sends it to
the partition of its new key.
-/

namespace Idgs.Sql

open Common (Term)
open Rdd (JoinType)

/-! ## Expressions -/

/-- `idgs.pb.DataType`. -/
inductive DataType
  | bool | bytes | double | enum | float | int32 | int64 | string | uint32 | uint64
deriving DecidableEq

/-- `TransformerOperator.defaultValueMap`. -/
def DataType.defaultValue : DataType → String
  | .bool => "false"
  | .bytes | .string => ""
  | .double | .enum | .float | .int32 | .int64 | .uint32 | .uint64 => "0"

/-- The value and the type of a `CONST` expression. -/
structure Const where
  value : String
  constType : Option DataType := none
deriving DecidableEq

/-- `idgs.pb.Expr`: a variable is a `FIELD`, a function symbol the name of any other expression. -/
abbrev Expr := Term Const String String

/-- `ExprNodeDesc` of Hive, as far as the parser looks at it. -/
inductive ExprNodeDesc
  | column (column : String) (typeInfo : DataType)
  | constant (value : String) (typeInfo : DataType)
  | genericFunc (udfName : String) (typeInfo : DataType) (children : List ExprNodeDesc)

mutual
/-- `ExprFactory.buildExpression`. -/
def buildExpression (fieldSchemas : String → Option String) : ExprNodeDesc → Expr
  | .column column _ => .var ((fieldSchemas column).getD column)
  | .constant value type => .const { value := value, constType := some type }
  | .genericFunc udfName _ children => .func udfName (buildExpressions fieldSchemas children)
/-- The expressions of the children. -/
def buildExpressions (fieldSchemas : String → Option String) : List ExprNodeDesc → List Expr
  | [] => []
  | node :: nodes => buildExpression fieldSchemas node :: buildExpressions fieldSchemas nodes
end

/-- `FieldNamePair`. -/
structure FieldNamePair where
  fieldAlias : String
  fieldType : DataType
  expr : Expr

/-! ## Operators -/

/-- The type of a message, with the names of its fields. -/
structure MessageType where
  name : String
  fields : List String
deriving DecidableEq

/-- `ReduceByKeyField`. -/
structure ReduceByKeyField where
  fieldAlias : String
  type : String
  distinct : Bool

/-- The transformers, with their parameters. -/
inductive Transformer
  | filter
  | group
  | reduceByKey (fields : List ReduceByKeyField)
  | hashJoin (joinType : JoinType)

/-- What an operator sends with the request of the operator above it. -/
structure Outputs where
  filterExpr : Option Expr := none
  outputKeyFields : Option (List FieldNamePair) := none
  outputValueFields : Option (List FieldNamePair) := none

/-- `IdgsOperator`: a `DelegateOperator` or a `TransformerOperator`. -/
inductive IdgsOperator
  | delegate (storeName : String) (keyType valueType : MessageType) (out : Outputs)
  | transformer (rddName : String) (op : Transformer) (children : List IdgsOperator) (out : Outputs)

namespace IdgsOperator

/-- The filter and the output fields. -/
def out : IdgsOperator → Outputs
  | .delegate _ _ _ out => out
  | .transformer _ _ _ out => out

/-- The fields of the output key; none when the key is kept. -/
def keyFields (op : IdgsOperator) : List FieldNamePair := op.out.outputKeyFields.getD []

/-- The fields of the output value; none when the value is kept. -/
def valueFields (op : IdgsOperator) : List FieldNamePair := op.out.outputValueFields.getD []

/-- `useKey` and `useValue` after the loop over the children. -/
def useType (types : List MessageType) : Option MessageType :=
  types.foldl (fun use type => match use with
    | none => some type
    | some used => if used = type then some used else none) none

/-- The first field of each alias. -/
def firstOfAlias : List FieldNamePair → List FieldNamePair
  | [] => []
  | field :: fields => field :: (firstOfAlias fields).filter fun f =>
    f.fieldAlias ≠ field.fieldAlias

/-- `keyFieldList`. -/
def keyFieldList (children : List IdgsOperator) : List FieldNamePair :=
  firstOfAlias (children.flatMap keyFields)

/-- `valueFieldList`. -/
def valueFieldList (children : List IdgsOperator) : List FieldNamePair :=
  firstOfAlias (children.flatMap valueFields)

/-- The type that all children share, when they have no fields to put in its place. -/
def sharedType (fields : List FieldNamePair) (types : List MessageType) : Option MessageType :=
  if fields = [] then useType types else none

mutual
/-- The type of the keys of the RDD. The name of the RDD makes a type of its own unique. -/
def keyType : IdgsOperator → MessageType
  | .delegate _ keyType _ _ => keyType
  | .transformer rddName _ children _ =>
    (sharedType (keyFieldList children) (keyTypes children)).getD
      { name := "DM_KEY_" ++ rddName,
        fields := (keyFieldList children).map FieldNamePair.fieldAlias }
/-- The key types of some operators. -/
def keyTypes : List IdgsOperator → List MessageType
  | [] => []
  | child :: children => keyType child :: keyTypes children
end

mutual
/-- The type of the values of the RDD. -/
def valueType : IdgsOperator → MessageType
  | .delegate _ _ valueType _ => valueType
  | .transformer rddName _ children _ =>
    (sharedType (valueFieldList children) (valueTypes children)).getD
      { name := "DM_VALUE_" ++ rddName,
        fields := (valueFieldList children).map FieldNamePair.fieldAlias }
/-- The value types of some operators. -/
def valueTypes : List IdgsOperator → List MessageType
  | [] => []
  | child :: children => valueType child :: valueTypes children
end

/-- The fields that the request of a transformer with these children has for one of them: key fields
of the other children get the default of their type. -/
def outFields (children : List IdgsOperator) (child : IdgsOperator) : List FieldNamePair :=
  child.keyFields ++ child.valueFields ++
    if children.length > 1 then
      ((keyFieldList children).filter fun field =>
          child.keyFields.all fun own => own.fieldAlias ≠ field.fieldAlias).map
        fun field => { field with expr := .const { value := field.fieldType.defaultValue } }
    else []

end IdgsOperator

/-! ## Rows -/

/-- What the expressions and the reduce operations mean, and the value of a field that is not
set. -/
structure Functions (V : Type*) extends Term.Meaning Const String V where
  unset : V
  isTrue : V → Bool
  reduce : (type : String) → (distinct : Bool) → List V → V

/-- A row of a store: the columns of its key and of its value. -/
structure Cells (V : Type*) where
  key : String → V
  value : String → V

/-- The stores, and the partition of a key by the values of its fields. -/
structure Env (V : Type*) extends Functions V where
  store : String → List (Cells V)
  partition : List V → ℕ

/-- A row of an RDD: the fields of the key, and those that are set in the value. -/
structure Row (V : Type*) where
  key : List (String × V)
  value : String → Option V

namespace Row

variable {V : Type*}

/-- The values of the key's fields. -/
def keyValues (row : Row V) : List V := row.key.map Prod.snd

/-- `FieldExtractor`: a field of the key, or else of the value. -/
def extract (F : Functions V) (row : Row V) (field : String) : V :=
  ((row.key.lookup field).orElse fun _ => row.value field).getD F.unset

end Row

/-- A row and the partition that it lies in. -/
structure Placed (V : Type*) where
  partition : ℕ
  row : Row V

/-- A row that a transformer reads: the key that it has in the RDD below, and the output of that
operator. -/
structure Input (V : Type*) extends Placed V where
  rddKey : List V

namespace IdgsOperator

variable {V : Type*}

/-- `OutMessageInfo::fillMessage`: each field of the message gets the expression with its alias. -/
def fillMessage (F : Functions V) (row : Row V) (outFields : List FieldNamePair)
    (names : List String) :
    List (String × V) :=
  names.filterMap fun name =>
    (outFields.find? fun field => field.fieldAlias = name).map fun field =>
      (name, field.expr.eval F.toMeaning (row.extract F))

/-- The key that a transformer with these children gets for a row of one of them. -/
def outKey (F : Functions V) (children : List IdgsOperator) (child : IdgsOperator) (row : Row V) :
    List (String × V) :=
  if sharedType (keyFieldList children) (keyTypes children) = some child.keyType then row.key
  else fillMessage F row (outFields children child)
    ((keyFieldList children).map FieldNamePair.fieldAlias)

/-- The value that a transformer with these children gets for a row of one of them. -/
def outValue (F : Functions V) (children : List IdgsOperator) (child : IdgsOperator) (row : Row V) :
    String → Option V :=
  if sharedType (valueFieldList children) (valueTypes children) = some child.valueType then
    row.value
  else fun name => (fillMessage F row (outFields children child)
    ((valueFieldList children).map FieldNamePair.fieldAlias)).lookup name

/-- `ExprMapOperator`: the output for a row. -/
def outRow (F : Functions V) (children : List IdgsOperator) (child : IdgsOperator) (row : Row V) :
    Row V where
  key := outKey F children child row
  value := outValue F children child row

/-- Whether the operator's filter lets a row through. -/
def passes (F : Functions V) (op : IdgsOperator) (row : Row V) : Bool :=
  match op.out.filterExpr with
  | none => true
  | some filterExpr => F.isTrue (filterExpr.eval F.toMeaning (row.extract F))

/-- What a transformer with these children reads for a row of one of them. -/
def input (F : Functions V) (children : List IdgsOperator) (child : IdgsOperator) (x : Placed V) :
    Option (Input V) :=
  if child.passes F x.row then
    some
      { partition := x.partition
        row := outRow F children child x.row
        rddKey := x.row.keyValues }
  else none

end IdgsOperator

namespace Transformer

variable {V : Type*} [DecidableEq V]

/-- The rows of one group. -/
def groupOf (inputs : List (Input V)) (group : ℕ × List V) : List (Input V) :=
  inputs.filter fun x => (x.partition, x.row.keyValues) = group

/-- The row of a group: its key and the last row's value, with the reduced fields. -/
def reduceRow (F : Functions V) (fields : List ReduceByKeyField) (inputs : List (Input V))
    (last : Input V) :
    Placed V where
  partition := last.partition
  row :=
    { key := last.row.key
      value := fun name => (last.row.value name).map fun value =>
        match fields.find? fun field => field.fieldAlias = name with
        | none => value
        | some field => F.reduce field.type field.distinct
            (inputs.map fun x => (x.row.value name).getD F.unset) }

/-- `ReduceByKeyTransformer`: the groups of each partition. -/
def reduceRows (F : Functions V) (fields : List ReduceByKeyField) (inputs : List (Input V)) :
    List (Placed V) :=
  ((inputs.map fun x => (x.partition, x.row.keyValues)).dedup).filterMap fun group =>
    (groupOf inputs group).getLast?.map (reduceRow F fields (groupOf inputs group))

/-- Whether the hash join looks a row up for another one: the keys of the RDDs are equal. -/
def meets (x y : Input V) : Bool := decide (x.partition = y.partition ∧ x.rddKey = y.rddKey)

/-- Two rows joined: the later RDD's fields are set in the output of the earlier ones. -/
def joinRow (x y : Input V) : Input V :=
  { x with
    row :=
      { key := y.row.key
        value := fun name => (y.row.value name).orElse fun _ => x.row.value name } }

/-- `HashJoinTransformer` goes on to the next RDD. -/
def joinNext (joinType : JoinType) (xs ys : List (Input V)) : List (Input V) :=
  (xs.flatMap fun x => (ys.filter (meets x)).map (joinRow x)) ++
    (if joinType = .innerJoin then [] else xs.filter fun x => !ys.any (meets x)) ++
    if joinType = .outerJoin then ys.filter fun y => !xs.any fun x => meets x y else []

/-- The rows that a transformer makes of those of its children. -/
def transform (E : Env V) : Transformer → List (List (Input V)) → List (Placed V)
  | .filter, inputs => inputs.flatten.map Input.toPlaced
  | .group, inputs => inputs.flatten.map fun x =>
    { x.toPlaced with partition := E.partition x.row.keyValues }
  | .reduceByKey fields, inputs => reduceRows E.toFunctions fields inputs.flatten
  | .hashJoin _, [] => []
  | .hashJoin joinType, xs :: inputs => (inputs.foldl (joinNext joinType) xs).map Input.toPlaced

end Transformer

namespace IdgsOperator

variable {V : Type*} [DecidableEq V]

mutual
/-- The rows of the RDD that an operator creates. -/
def rows (E : Env V) : IdgsOperator → List (Placed V)
  | .delegate storeName keyType _ _ => (E.store storeName).map fun cells =>
    { partition := E.partition (keyType.fields.map cells.key)
      row :=
        { key := keyType.fields.map fun name => (name, cells.key name)
          value := fun name => some (cells.value name) } }
  | .transformer _ op children _ => op.transform E (inputs E children children)
/-- What a transformer with the children `all` reads. -/
def inputs (E : Env V) (all : List IdgsOperator) : List IdgsOperator → List (List (Input V))
  | [] => []
  | child :: children =>
    (rows E child).filterMap (input E.toFunctions all child) :: inputs E all children
end

/-- The expression that a column of the operator's output stands for, over the rows of its RDD. -/
def column (op : IdgsOperator) (name : String) : Expr :=
  match (op.keyFields ++ op.valueFields).find? fun field => field.fieldAlias = name with
  | none => .var name
  | some field => field.expr

/-- The rows that the operator puts out. -/
def outputRows (E : Env V) (op : IdgsOperator) : List (Placed V) :=
  (op.rows E).filter fun x => op.passes E.toFunctions x.row

omit [DecidableEq V] in
/-- The values of some key expressions, whose columns are those of the operator's output. -/
def valuesOf (F : Functions V) (op : IdgsOperator) (keys : List ExprNodeDesc) (row : Row V) :
    List V :=
  keys.map fun node => (buildExpression (fun _ => none) node).eval F.toMeaning fun name =>
    (op.column name).eval F.toMeaning (row.extract F)

end IdgsOperator

end Idgs.Sql
