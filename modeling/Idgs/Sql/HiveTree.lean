import Idgs.Sql.Plan

/-!
# Trees of Hive operators

The operators that Hive plans for a query without joins and groups, and the rows that a tree of them
yields. An expression refers to the columns of the operator below by their internal names. What a
tree yields is a relation: a table, a union and a reduce sink have their rows in any order that they
do not fix.
-/

namespace Idgs.Sql

/-! ## The operators -/

/-- `ColumnInfo`: the name of a column in Hive's plan, and the name that the query gives it. -/
structure ColumnInfo where
  internalName : String
  columnAlias : Option String := none

/-- A column of a select operator: its place in the schema, and its expression in `colList`. -/
structure SelectColumn where
  info : ColumnInfo
  node : ExprNodeDesc

/-- `ReduceSinkDesc`: the characters of the order, and the key and value columns with their output
names. -/
structure ReduceSinkDesc where
  order : List Char
  keyCols : List (String × ExprNodeDesc)
  valueCols : List (String × ExprNodeDesc)

/-- A Hive operator with its parents. A select operator without columns selects all of them. -/
inductive HiveOperator
  | tableScan (dbName tableName : String)
  | filter (predicate : ExprNodeDesc) (parent : HiveOperator)
  | select (columns : List SelectColumn) (parent : HiveOperator)
  | union (parents : List HiveOperator)
  | limit (count : ℕ) (parent : HiveOperator)
  | reduceSink (conf : ReduceSinkDesc) (parent : HiveOperator)
  | extract (signature : List ColumnInfo) (parent : HiveOperator)

/-- `FileSinkOperator`: the columns of the result, each with its internal name, the columns of the
row resolver of the operator under the limit, each with its alias, and the parent. -/
structure FileSinkOperator where
  resultSchema : List (String × String)
  rowResolver : List (String × String)
  parent : HiveOperator

/-! ## The tables -/

/-- `StoreConfig`. -/
structure StoreConfig where
  name : String
  keyType : MessageType
  valueType : MessageType

/-- `StoreMetadata`: the schema of a database, the store of a table, and the configuration of a
store. -/
structure StoreMetadata where
  getSchemaName : String → Option String
  getStoreName : String → String → Option String
  getStoreConfig : String → String → Option StoreConfig

/-- The lookups of `genTablePlan`, with its errors. -/
def StoreMetadata.findTable (metadata : StoreMetadata) (dbName tableName : String) :
    Except String (String × StoreConfig) :=
  match metadata.getSchemaName dbName with
  | none => .error ("schema " ++ dbName ++ " is not found.")
  | some schemaName =>
    match metadata.getStoreName dbName tableName with
    | none => .error ("store " ++ dbName ++ "." ++ tableName ++ " is not found.")
    | some storeName =>
      match metadata.getStoreConfig schemaName storeName with
      | none => .error ("store " ++ schemaName ++ "." ++ storeName ++ " is not found.")
      | some cfg => .ok (schemaName, cfg)

/-- A store of a schema, as the requests of a delegate operator name it. -/
def storeOf (schemaName : String) (cfg : StoreConfig) : String := schemaName ++ "." ++ cfg.name

/-- The stores of a cluster with their metadata, and how the values of a field compare. No two rows
of a store have the same key. -/
structure Database (V : Type*) extends Env V where
  metadata : StoreMetadata
  compareFieldValue : V → V → Ordering
  nodup : ∀ {dbName tableName schemaName cfg}, metadata.findTable dbName tableName =
    .ok (schemaName, cfg) →
    ((store (storeOf schemaName cfg)).map fun cells => cfg.keyType.fields.map cells.key).Nodup

variable {V : Type*}

/-- The columns of a row of a table: those of the key, and those of the value. -/
def StoreConfig.tableRow (cfg : StoreConfig) (cells : Cells V) : String → V := fun name =>
  if name ∈ cfg.keyType.fields then cells.key name else cells.value name

/-- The rows of a store as those of a table. -/
def Database.storeRows (D : Database V) (schemaName : String) (cfg : StoreConfig) :
    List (String → V) :=
  (D.store (storeOf schemaName cfg)).map cfg.tableRow

/-- The rows of a table. -/
def Database.tableRows (D : Database V) (dbName tableName : String) : List (String → V) :=
  match D.metadata.findTable dbName tableName with
  | .error _ => []
  | .ok (schemaName, cfg) => D.storeRows schemaName cfg

/-! ## The rows of a tree -/

/-- `ExprFactory.buildExpression` without a mapping. -/
def ExprNodeDesc.toExpr (node : ExprNodeDesc) : Expr := buildExpression (fun _ => none) node

/-- A row whose columns are some expressions over another one. -/
def selectRow (F : Functions V) (columns : List (String × Expr)) (row : String → V) : String → V :=
  fun name =>
  match columns.find? fun column => column.1 = name with
  | none => F.unset
  | some column => column.2.eval F.toMeaning row

/-- The columns that a select operator puts out. -/
def selectColumns (columns : List SelectColumn) : List (String × Expr) :=
  columns.map fun column => (column.info.internalName, column.node.toExpr)

/-- The columns that a reduce sink puts out. -/
def ReduceSinkDesc.columns (conf : ReduceSinkDesc) : List (String × Expr) :=
  conf.keyCols.map (fun column => ("KEY." ++ column.1, column.2.toExpr)) ++
    conf.valueCols.map fun column => ("VALUE." ++ column.1, column.2.toExpr)

/-- Whether the i-th key orders down: its character is `-`. -/
def ReduceSinkDesc.descending (conf : ReduceSinkDesc) : List Bool := conf.order.map (· == '-')

/-- `orderless`: the first keys that differ decide, the other way round for a descending one. -/
def orderless (compareFieldValue : V → V → Ordering) : List Bool → List V → List V → Bool
  | fieldOrder, x :: xs, y :: ys =>
    match compareFieldValue x y with
    | .eq => orderless compareFieldValue fieldOrder.tail xs ys
    | .lt => !fieldOrder.headD false
    | .gt => fieldOrder.headD false
  | _, _, _ => false

/-- The rows are in the order of their keys. -/
def InOrder {α : Type*} (D : Database V) (fieldOrder : List Bool) (keys : α → List V)
    (rows : List α) : Prop :=
  rows.Pairwise fun x y => orderless D.compareFieldValue fieldOrder (keys y) (keys x) = false

/-- The keys that a reduce sink orders a row by. -/
def ReduceSinkDesc.keys (F : Functions V) (conf : ReduceSinkDesc) (row : String → V) : List V :=
  conf.keyCols.map fun column => column.2.toExpr.eval F.toMeaning row

namespace HiveOperator

mutual
/-- The rows that an operator can yield, in their order. -/
def Yields (D : Database V) : HiveOperator → List (String → V) → Prop
  | .tableScan dbName tableName, rows => rows.Perm (D.tableRows dbName tableName)
  | .filter predicate parent, rows => ∃ below, Yields D parent below ∧
      rows = below.filter fun row => D.isTrue (predicate.toExpr.eval D.toMeaning row)
  | .select columns parent, rows => ∃ below, Yields D parent below ∧
      rows = if columns.isEmpty then below
      else below.map (selectRow D.toFunctions (selectColumns columns))
  | .union parents, rows => ∃ below, YieldsAll D parents below ∧ rows.Perm below
  | .limit count parent, rows => ∃ below, Yields D parent below ∧ rows = below.take count
  | .reduceSink conf parent, rows => ∃ below sorted, Yields D parent below ∧
      List.Perm sorted below ∧
      (conf.order ≠ [] → InOrder D conf.descending (conf.keys D.toFunctions) sorted) ∧
      rows = sorted.map (selectRow D.toFunctions conf.columns)
  | .extract _ parent, rows => ∃ below, Yields D parent below ∧
      rows = below.map fun row name => row ("VALUE." ++ name)
/-- The rows that some operators can yield, those of each one together. -/
def YieldsAll (D : Database V) : List HiveOperator → List (String → V) → Prop
  | [], rows => rows = []
  | parent :: parents, rows => ∃ first rest, Yields D parent first ∧ YieldsAll D parents rest ∧
      rows = first ++ rest
end

end HiveOperator

/-- The results that a query can have: the values of the result's columns, row by row. -/
def FileSinkOperator.Yields (D : Database V) (sink : FileSinkOperator) (results : List (List V)) :
    Prop :=
  ∃ rows, sink.parent.Yields D rows ∧
    results = rows.map fun row => sink.resultSchema.map fun column => row column.1

end Idgs.Sql
