import Idgs.Sql.HiveTree

/-!
# The operator parser

`OperatorParser.parseOperator` walks from the file sink down to the tables. A table scan and a union
become operators, which take a filter and a select from the two Hive operators directly above; every
other filter, select, limit and sort has no operator of its own. `genActionOperator` puts the action
on top: the limit is that of a limit operator directly below the file sink, the order that of a
reduce sink below the operator after it.
-/

namespace Idgs.Sql

/-! ## Operators -/

/-- What the parser looks at of the operators on the way up from another one, the nearest first. -/
inductive ChildOperator
  | filter (predicate : ExprNodeDesc)
  | select (columns : List SelectColumn)
  | fileSink
  | other

/-- `getDataType`. -/
def ExprNodeDesc.getDataType : ExprNodeDesc → DataType
  | .column _ typeInfo => typeInfo
  | .constant _ typeInfo => typeInfo
  | .genericFunc _ typeInfo _ => typeInfo

/-- `node instanceof ExprNodeColumnDesc`. -/
def ExprNodeDesc.isColumn : ExprNodeDesc → Bool
  | .column _ _ => true
  | .constant _ _ => false
  | .genericFunc _ _ _ => false

/-- The name of a column that the query names, or else of Hive's plan. -/
def ColumnInfo.name (colInfo : ColumnInfo) : String := colInfo.columnAlias.getD colInfo.internalName

/-- `genFieldExpr`. -/
def genFieldExpr (colNode : ExprNodeDesc) (fieldAlias : String) : FieldNamePair where
  fieldAlias := fieldAlias
  fieldType := colNode.getDataType
  expr := colNode.toExpr

/-- `genSelectExpr`. -/
def genSelectExpr (columns : List SelectColumn) : Option (List FieldNamePair) :=
  if columns.isEmpty then none
  else some (columns.map fun column => genFieldExpr column.node column.info.name)

/-- `genFilterAndSelectExpr`: a filter, a select or a filter and a select directly above. -/
def genFilterAndSelectExpr : List ChildOperator → Outputs
  | .filter predicate :: .select columns :: _ =>
    { filterExpr := some predicate.toExpr, outputValueFields := genSelectExpr columns }
  | .filter predicate :: _ => { filterExpr := some predicate.toExpr }
  | .select columns :: _ => { outputValueFields := genSelectExpr columns }
  | _ => {}

/-- `setOutputKeyFields` and `setOutputValueFields`. -/
def IdgsOperator.setOut : IdgsOperator → Outputs → IdgsOperator
  | .delegate storeName keyType valueType _, out => .delegate storeName keyType valueType out
  | .transformer rddName op children _, out => .transformer rddName op children out

/-- The last value that a map gets for a name. -/
def lastValue {α : Type*} (entries : List (String × α)) (name : String) : Option α :=
  entries.reverse.lookup name

/-- A field whose alias the map has under another name. -/
def FieldNamePair.renamed (fieldNames : String → Option String) (field : FieldNamePair) :
    FieldNamePair :=
  { field with fieldAlias := (fieldNames field.fieldAlias).getD field.fieldAlias }

/-- `genTablePlan`. -/
def genTablePlan (metadata : StoreMetadata) (above : List ChildOperator)
    (dbName tableName : String) :
    Except String IdgsOperator :=
  (metadata.findTable dbName tableName).map fun table =>
    .delegate (storeOf table.1 table.2) table.2.keyType table.2.valueType
      (genFilterAndSelectExpr above)

/-- `genUnionOperator`. A union transformer passes on the rows of its children, as a filter
transformer does. -/
def genUnionOperator (rddName : String) (above : List ChildOperator)
    (children : List IdgsOperator) : IdgsOperator :=
  .transformer rddName .filter children (genFilterAndSelectExpr above)

/-- `fieldNames` of `genExtractPlan`. -/
def extractNames (signature : List ColumnInfo) : String → Option String :=
  lastValue (signature.filterMap fun colInfo =>
    colInfo.columnAlias.map fun columnAlias => (colInfo.internalName, columnAlias))

/-- The operator below an extract operator, with the fields that `genExtractPlan` sets. -/
def IdgsOperator.extracted (signature : List ColumnInfo) (op : IdgsOperator) : IdgsOperator :=
  op.setOut { op.out with
    outputKeyFields :=
      op.out.outputKeyFields.map (List.map (FieldNamePair.renamed (extractNames signature)))
    outputValueFields :=
      op.out.outputValueFields.map (List.map (FieldNamePair.renamed (extractNames signature))) }

/-- `genExtractPlan`. -/
def genExtractPlan (rddName : String) (signature : List ColumnInfo) :
    List IdgsOperator → IdgsOperator
  | [] => .transformer rddName .filter [] {}
  | op :: ops => .transformer rddName .filter (op.extracted signature :: ops) {}

/-- Whether the operator above is the file sink. -/
def underFileSink : List ChildOperator → Bool
  | .fileSink :: _ => true
  | _ => false

mutual
/-- `parseOperator` of an operator at some place of the tree. The name of a transformer's RDD is a
UUID of its own. -/
def parseOperator (metadata : StoreMetadata) (uuid : List ℕ → String) (place : List ℕ)
    (above : List ChildOperator) :
    HiveOperator → Except String (List IdgsOperator)
  | .tableScan dbName tableName => do
      let oper ← genTablePlan metadata above dbName tableName
      return [oper]
  | .filter predicate parent =>
    parseOperator metadata uuid place (.filter predicate :: above) parent
  | .select columns parent => parseOperator metadata uuid place (.select columns :: above) parent
  | .union parents => do
      let children ← parseParents metadata uuid place 0 parents
      return [genUnionOperator (uuid place) above children]
  | .limit _ parent => parseOperator metadata uuid place (.other :: above) parent
  | .reduceSink _ parent => parseOperator metadata uuid place (.other :: above) parent
  | .extract signature parent => do
      let children ← parseOperator metadata uuid (0 :: place) (.other :: above) parent
      return if underFileSink above then [genExtractPlan (uuid place) signature children]
        else children
/-- The operators of the parents of a union, the first of which is the i-th. -/
def parseParents (metadata : StoreMetadata) (uuid : List ℕ → String) (place : List ℕ) (i : ℕ) :
    List HiveOperator → Except String (List IdgsOperator)
  | [] => return []
  | parent :: parents => do
      let children ← parseOperator metadata uuid (i :: place) [.other] parent
      let others ← parseParents metadata uuid place (i + 1) parents
      return children ++ others
end

/-! ## The action -/

/-- An order field of a top-N action, and whether it orders down. -/
abbrev OrderField := FieldNamePair × Bool

/-- The actions of a query: `CollectActionOperator` and `TopNActionOperator`. -/
inductive Action
  | collect (limit : Option ℕ)
  | topN (limit : Option ℕ) (orderFields : List OrderField)

/-- `ActionOperator`. -/
structure ActionOperator where
  action : Action
  child : IdgsOperator

/-- `TopNActionOperator.setLimit`: it calls itself before it sets the limit, and so runs out of any
stack. -/
def TopNActionOperator.setLimit : (stack : ℕ) → List OrderField → ℕ → Option Action
  | 0, _, _ => none
  | stack + 1, orderFields, limit =>
    (setLimit stack orderFields limit).map fun _ => .topN (some limit) orderFields

/-- `setLimit` of either action. -/
def Action.setLimit (stack : ℕ) : Action → ℕ → Option Action
  | .collect _, limit => some (.collect (some limit))
  | .topN _ orderFields, limit => TopNActionOperator.setLimit stack orderFields limit

namespace HiveOperator

/-- `getParentOperators`. -/
def getParentOperators : HiveOperator → List HiveOperator
  | .tableScan _ _ => []
  | .filter _ parent => [parent]
  | .select _ parent => [parent]
  | .union parents => parents
  | .limit _ parent => [parent]
  | .reduceSink _ parent => [parent]
  | .extract _ parent => [parent]

/-- The operator below a limit operator, or the operator itself. -/
def belowLimit : HiveOperator → HiveOperator
  | .limit _ parent => parent
  | op => op

/-- The reduce sink that orders the rows of an operator: its only parent, if it has an order. -/
def orderbyOp (op : HiveOperator) : Option ReduceSinkDesc :=
  match op.getParentOperators with
  | [.reduceSink conf _] => if conf.order.isEmpty then none else some conf
  | _ => none

/-- The limit of the operator directly below the file sink, if it is positive. -/
def positiveLimit : HiveOperator → Option ℕ
  | .limit count _ => if count > 0 then some count else none
  | _ => none

end HiveOperator

/-- `fieldSchemas` of `genActionOperator`. -/
def FileSinkOperator.fieldSchemas (sink : FileSinkOperator) : String → Option String :=
  lastValue sink.rowResolver

/-- `mapping` of `genActionOperator`: the names that a select operator gives to columns. -/
def columnMapping (columns : List SelectColumn) : String → Option String :=
  lastValue (columns.filterMap fun column =>
    match column.node with
    | .column name _ => some (name, column.info.internalName)
    | _ => none)

/-- The field of an order by column. -/
def orderFieldOf (fieldSchemas : String → Option String) (key : String × ExprNodeDesc) :
    FieldNamePair where
  fieldAlias := key.1
  fieldType := key.2.getDataType
  expr := buildExpression fieldSchemas key.2

/-- The field that an order by column adds: it is no column, and the select operator puts it out. -/
def addedField (fieldSchemas mapping : String → Option String) (key : String × ExprNodeDesc) :
    Option FieldNamePair :=
  if key.2.isColumn then none
  else ((mapping ("KEY." ++ key.1)).bind fieldSchemas).map fun fieldAlias =>
    { orderFieldOf fieldSchemas key with fieldAlias := fieldAlias }

/-- The order fields of a reduce sink: the i-th orders down if its character is `-`. -/
def orderFieldsOf (fieldSchemas : String → Option String) (conf : ReduceSinkDesc) :
    List OrderField :=
  conf.keyCols.zipIdx.map fun key =>
    (orderFieldOf fieldSchemas key.1, conf.descending.getD key.2 false)

/-- The branch of `genActionOperator` with an order: the order fields, and the operator with its
fields renamed. -/
def genOrder (fieldSchemas : String → Option String) (op : HiveOperator) (reduceOp : ReduceSinkDesc)
    (operator : IdgsOperator) : Except String (List OrderField × IdgsOperator) :=
  match operator.out.outputValueFields, op with
  | none, _ => .error "java.lang.NullPointerException"
  | some fields, .select columns _ =>
    .ok (orderFieldsOf fieldSchemas reduceOp, operator.setOut { operator.out with
      outputValueFields := some (fields.map (FieldNamePair.renamed fieldSchemas) ++
        reduceOp.keyCols.filterMap (addedField fieldSchemas (columnMapping columns))) })
  | some _, _ => .error "java.lang.ClassCastException"

/-- The operator below the action: a filter transformer evaluates the fields, if there are any. -/
def belowAction (rddName : String) (operator : IdgsOperator) : IdgsOperator :=
  if operator.out.outputKeyFields.isSome || operator.out.outputValueFields.isSome then
    .transformer rddName .filter [operator] {}
  else operator

/-- The action with the limit, if there is one. -/
def withLimit (stack : ℕ) (limit : Option ℕ) (action : Action) : Option Action :=
  match limit with
  | none => some action
  | some limit => action.setLimit stack limit

/-- `genActionOperator`, with a stack of some depth: nothing when the stack overflows. -/
def genActionOperator (sink : FileSinkOperator) (rddName : String) (stack : ℕ)
    (operator : IdgsOperator) :
    Option (Except String ActionOperator) :=
  let op := sink.parent.belowLimit
  match op.orderbyOp with
  | none => (withLimit stack sink.parent.positiveLimit (.collect none)).map fun action =>
    .ok { action := action, child := belowAction rddName operator }
  | some reduceOp =>
    match genOrder sink.fieldSchemas op reduceOp operator with
    | .error err => some (.error err)
    | .ok (orderFields, operator) =>
      (withLimit stack sink.parent.positiveLimit (.topN none orderFields)).map fun action =>
        .ok { action := action, child := belowAction rddName operator }

/-- `parseOperator`: the plan of a query. -/
def FileSinkOperator.parse (metadata : StoreMetadata) (uuid : List ℕ → String) (stack : ℕ)
    (sink : FileSinkOperator) :
    Option (Except String ActionOperator) :=
  match parseOperator metadata uuid [0] [.fileSink] sink.parent with
  | .error err => some (.error err)
  | .ok [operator] => genActionOperator sink (uuid []) stack operator
  | .ok _ => some (.error "parse operator error")

/-! ## What the action returns -/

section Results

variable {V : Type*} [DecidableEq V]

/-- The groups that `foreachGroup` goes through: the rows of a partition with one key. -/
def groupsOf (rows : List (Placed V)) : List (List (Placed V)) :=
  ((rows.map fun x => (x.partition, x.row.keyValues)).dedup).map fun group =>
    rows.filter fun x => (x.partition, x.row.keyValues) = group

/-- The first elements, or all of them without a limit. -/
def takeLimit {α : Type*} (limit : Option ℕ) (xs : List α) : List α :=
  match limit with
  | none => xs
  | some limit => xs.take limit

/-- The order fields of a row. -/
def orderKeys (F : Functions V) (orderFields : List OrderField) (row : Row V) : List V :=
  orderFields.map fun field => field.1.expr.eval F.toMeaning (row.extract F)

/-- The results of an action on some rows, in the order of the partitions' answers and of their
maps. The collect action counts groups, and puts out all rows of those that it takes; the top-N
action orders the rows first. -/
def Action.Results (D : Database V) (values : Row V → List V) (rows : List (Placed V))
    (results : List (List V)) :
    Action → Prop
  | .collect limit => ∃ groups, List.Perm groups (groupsOf rows) ∧
      results.Perm ((takeLimit limit groups).flatten.map fun x => values x.row)
  | .topN limit orderFields => ∃ sorted, List.Perm sorted rows ∧
      InOrder D (orderFields.map Prod.snd) (fun x =>
      orderKeys D.toFunctions orderFields x.row) sorted ∧
      results = (takeLimit limit sorted).map fun x => values x.row

/-- The results of a plan. `ResultSet` finds each column of the result by its name. -/
def ActionOperator.Results (D : Database V) (names : List String) (op : ActionOperator)
    (results : List (List V)) :
    Prop :=
  op.action.Results D (fun row => names.map (row.extract D.toFunctions))
    (op.child.outputRows D.toEnv) results

/-- The query is planned with some depth of the stack, and refused or answered with results that
Hive's tree yields. -/
def FileSinkOperator.Preserved (D : Database V) (uuid : List ℕ → String) (sink : FileSinkOperator) :
    Prop :=
  ∃ stack, match sink.parse D.metadata uuid stack with
    | none => False
    | some (.error _) => True
    | some (.ok op) => ∀ results, op.Results D (sink.resultSchema.map Prod.snd) results →
        sink.Yields D results

end Results

end Idgs.Sql
