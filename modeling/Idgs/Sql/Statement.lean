import Idgs.Sql.OperatorParser

/-!
# The statement that the parser reads

A query of tables, filters, selects and unions, in the algebra of bags: a statement is such a query
with an order and a limit. The parser reads a statement off a tree of Hive operators and leaves the
other operators out. A statement is tidy when its columns are where its expressions and its result
look for them.
-/

namespace Idgs.Sql

variable {V : Type*}

/-! ## Queries -/

/-- A query: its expressions refer to the columns of the query below. -/
inductive Query
  | table (schemaName : String) (cfg : StoreConfig)
  | filter (predicate : Expr) (query : Query)
  | select (columns : List (String × Expr)) (query : Query)
  | union (queries : List Query)

namespace Query

mutual
/-- The rows of a query. -/
def rows (D : Database V) : Query → List (String → V)
  | .table schemaName cfg => D.storeRows schemaName cfg
  | .filter predicate query => (rows D query).filter fun row =>
    D.isTrue (predicate.eval D.toMeaning row)
  | .select columns query => (rows D query).map (selectRow D.toFunctions columns)
  | .union queries => rowsAll D queries
/-- The rows of some queries together. -/
def rowsAll (D : Database V) : List Query → List (String → V)
  | [] => []
  | query :: queries => rows D query ++ rowsAll D queries
end

attribute [simp] rows rowsAll

mutual
/-- The columns of a query; those of a union are those of its first query. -/
def columns : Query → List String
  | .table _ cfg => cfg.keyType.fields ++ cfg.valueType.fields
  | .filter _ query => columns query
  | .select cols _ => cols.map Prod.fst
  | .union queries => firstColumns queries
/-- The columns of the first query. -/
def firstColumns : List Query → List String
  | [] => []
  | query :: _ => columns query
end

attribute [simp] columns firstColumns

mutual
/-- The columns of the keys of the tables below. -/
def keyColumns : Query → List String
  | .table _ cfg => cfg.keyType.fields
  | .filter _ query => keyColumns query
  | .select _ query => keyColumns query
  | .union queries => allKeyColumns queries
/-- The columns of the keys of the tables below some queries. -/
def allKeyColumns : List Query → List String
  | [] => []
  | query :: queries => keyColumns query ++ allKeyColumns queries
end

attribute [simp] keyColumns allKeyColumns

mutual
/-- Whether the rows are whole rows of stores with these types. -/
def HasType (keyType valueType : MessageType) : Query → Prop
  | .table _ cfg => cfg.keyType = keyType ∧ cfg.valueType = valueType
  | .filter _ query => HasType keyType valueType query
  | .select _ _ => False
  | .union queries => queries ≠ [] ∧ HaveType keyType valueType queries
/-- Whether the rows of some queries are whole rows of stores with these types. -/
def HaveType (keyType valueType : MessageType) : List Query → Prop
  | [] => True
  | query :: queries => HasType keyType valueType query ∧ HaveType keyType valueType queries
end

attribute [simp] HasType HaveType

/-- Whether the query is a select. -/
def isSelect : Query → Bool
  | .select _ _ => true
  | .table _ _ => false
  | .filter _ _ => false
  | .union _ => false

/-- Whether the query reads one table. -/
def overTable : Query → Bool
  | .table _ _ => true
  | .filter _ query => overTable query
  | .select _ query => overTable query
  | .union _ => false

mutual
/-- Every expression finds its columns. A select gives no column the name of a column of a key,
unless it is that column. The queries of a union are all selects, with the same columns, or rows of
stores of one type. -/
def Tidy : Query → Prop
  | .table _ _ => True
  | .filter predicate query => Tidy query ∧ predicate.vars ⊆ columns query
  | .select cols query => Tidy query ∧ ∀ col ∈ cols,
      col.2.vars ⊆ columns query ∧ (col.1 ∈ keyColumns query → col.2 = .var col.1)
  | .union queries => TidyAll queries ∧ (∀ query ∈ queries, firstColumns queries ⊆ columns query) ∧
      ((∀ query ∈ queries, query.isSelect = true) ∨
      ∃ keyType valueType, HaveType keyType valueType queries)
/-- Some queries are tidy. -/
def TidyAll : List Query → Prop
  | [] => True
  | query :: queries => Tidy query ∧ TidyAll queries
end

attribute [simp] Tidy TidyAll

end Query

/-! ## Statements -/

/-- A query with the expressions that order its rows, each with its direction, and a limit. -/
structure Statement where
  query : Query
  order : Option (List (Expr × Bool))
  limit : Option ℕ

namespace Statement

/-- The results of a statement. -/
def Results (D : Database V) (names : List String) (stmt : Statement) (results : List (List V)) :
    Prop :=
  ∃ rows, List.Perm rows (stmt.query.rows D) ∧
    (∀ order ∈ stmt.order, InOrder D (order.map Prod.snd) (fun row => order.map fun key =>
      key.1.eval D.toMeaning row) rows) ∧
    results = (takeLimit stmt.limit rows).map fun row => names.map row

/-- The query is tidy, the order and the result find their columns, and a limit is over one
table. -/
structure Tidy (names : List String) (stmt : Statement) : Prop where
  query : stmt.query.Tidy
  order : ∀ order ∈ stmt.order, ∀ key ∈ order, key.1.vars ⊆ stmt.query.columns
  names : names ⊆ stmt.query.columns
  limit : ∀ limit ∈ stmt.limit, stmt.query.overTable = true

end Statement

/-! ## What the parser reads -/

/-- A select of some columns; one without columns selects all. -/
def Query.selected (columns : List SelectColumn) (query : Query) : Query :=
  if columns.isEmpty then query
  else .select (columns.map fun column => (column.info.name, column.node.toExpr)) query

/-- A table or a union with the filter and the select directly above it. -/
def Query.folded : List ChildOperator → Query → Query
  | .filter predicate :: .select columns :: _, query =>
    (filter predicate.toExpr query).selected columns
  | .filter predicate :: _, query => filter predicate.toExpr query
  | .select columns :: _, query => query.selected columns
  | _, query => query

mutual
/-- The query that a tree comes to, when only the filters and selects directly above the tables and
the unions count. -/
def HiveOperator.query (metadata : StoreMetadata) (above : List ChildOperator) :
    HiveOperator → Option Query
  | .tableScan dbName tableName =>
    match metadata.findTable dbName tableName with
    | .error _ => none
    | .ok (schemaName, cfg) => some (Query.folded above (.table schemaName cfg))
  | .filter predicate parent => query metadata (.filter predicate :: above) parent
  | .select columns parent => query metadata (.select columns :: above) parent
  | .union parents => (queries metadata parents).map fun qs => Query.folded above (.union qs)
  | .limit _ parent => query metadata (.other :: above) parent
  | .reduceSink _ parent => query metadata (.other :: above) parent
  | .extract _ parent => query metadata (.other :: above) parent
/-- The queries that the parents of a union come to. -/
def HiveOperator.queries (metadata : StoreMetadata) : List HiveOperator → Option (List Query)
  | [] => some []
  | parent :: parents =>
    (query metadata [.other] parent).bind fun q => (queries metadata parents).map fun qs =>
      q :: qs
end

attribute [simp] HiveOperator.query HiveOperator.queries

/-- The query with the columns of its select under other names. -/
def Query.renamed (fieldNames : String → Option String) : Query → Query
  | .select columns query => .select
    (columns.map fun column => ((fieldNames column.1).getD column.1, column.2)) query
  | query => query

namespace FileSinkOperator

/-- The query below the file sink; an extract operator renames its columns. -/
def query (metadata : StoreMetadata) (sink : FileSinkOperator) : Option Query :=
  match sink.parent with
  | .extract signature parent =>
    (parent.query metadata [.other, .fileSink]).map (Query.renamed (extractNames signature))
  | op => op.query metadata [.fileSink]

/-- The statement with an order: the columns are renamed, and expressions that the order is by are
added. -/
def orderedStatement (sink : FileSinkOperator) (reduceOp : ReduceSinkDesc) (op : HiveOperator)
    (query : Query) :
    Option Statement :=
  match op, query with
  | .select columns _, .select cols below =>
    some {
      query := .select (cols.map (fun col => ((sink.fieldSchemas col.1).getD col.1, col.2)) ++
        (reduceOp.keyCols.filterMap (addedField sink.fieldSchemas (columnMapping columns))).map
          fun field => (field.fieldAlias, field.expr)) below
      order := some ((orderFieldsOf sink.fieldSchemas reduceOp).map fun field =>
        (field.1.expr, field.2))
      limit := sink.parent.positiveLimit }
  | _, _ => none

/-- The statement that the parser reads; none when it refuses the tree. -/
def statement (metadata : StoreMetadata) (sink : FileSinkOperator) : Option Statement :=
  (sink.query metadata).bind fun query =>
    match sink.parent.belowLimit.orderbyOp with
    | none => some { query := query, order := none, limit := sink.parent.positiveLimit }
    | some reduceOp => sink.orderedStatement reduceOp sink.parent.belowLimit query

end FileSinkOperator

end Idgs.Sql
