import Idgs.Common.Fold
import Idgs.Sql.Statement

/-!
# The rows of a plan

The RDDs that the parser plans, against the rows of the query that it reads. A row of an RDD has
more columns than one of the query: a select sets the value and leaves the key, which is looked up
first. In a tidy query the columns of the key that are found are those that the query means.
-/

namespace Idgs.Sql

open List

open Common (Term)
open IdgsOperator

variable {V : Type*}

/-! ## The columns of a row -/

/-- A row of an RDD that shows a row of a query: its columns are found, and the key has columns of
tables only. -/
structure Row.Shows (F : Functions V) (query : Query) (row : Row V) (values : String → V) :
    Prop where
  column : ∀ name ∈ query.columns, row.extract F name = values name
  key : ∀ name, (row.key.lookup name).isSome → name ∈ query.keyColumns

section Shows

variable {F : Functions V} {query : Query} {row row' : Row V} {values : String → V}

section

variable (h : row.Shows F query values)

include h

theorem Row.Shows.eval {e : Expr} (he : e.vars ⊆ query.columns) :
    e.eval F.toMeaning (row.extract F) = e.eval F.toMeaning values :=
  Term.eval_congr F.toMeaning e fun name hname => h.column name (he hname)

/-- A row shows what has no columns but its own. -/
theorem Row.Shows.mono {query' : Query}
    (hcolumns : query'.columns ⊆ query.columns)
    (hkey : query.keyColumns ⊆ query'.keyColumns) : row.Shows F query' values where
  column name hname := h.column name (hcolumns hname)
  key name hname := hkey (h.key name hname)

/-- A column of the key is found before one of the value; in a tidy select both are the same. -/
theorem Row.Shows.select {columns : List (String × Expr)}
    (htidy : (Query.select columns query).Tidy) (hkey : row'.key = row.key ∨ row'.key = [])
    (hvalue : ∀ name ∈ columns.map Prod.fst, row'.value name =
      (columns.find? fun column => column.1 = name).map fun column => column.2.eval F.toMeaning
      (row.extract F)) :
    row'.Shows F (.select columns query) (selectRow F columns values) := by
  have hlookup : ∀ name, (row'.key.lookup name).isSome → row'.key = row.key := by
    intro name hname
    rcases hkey with hkey | hkey
    · exact hkey
    · rw [hkey] at hname
      cases hname
  constructor
  · intro name hname
    obtain ⟨column, hfind⟩ : ∃ column, (columns.find? fun column => column.1 = name) =
        some column := by
      obtain ⟨column, hcolumn, rfl⟩ := mem_map.mp hname
      exact Option.isSome_iff_exists.mp (find?_isSome.mpr ⟨column, hcolumn, by simp⟩)
    have hcolumn : column.1 = name := by simpa using find?_some hfind
    obtain ⟨hvars, hvar⟩ := htidy.2 column (mem_of_find?_eq_some hfind)
    have hselect : selectRow F columns values name = column.2.eval F.toMeaning values := by
        rw [selectRow, hfind]
    rw [hselect]
    cases hkeyed : row'.key.lookup name with
    | none =>
      rw [← h.eval hvars, Row.extract, hkeyed, hvalue name hname, hfind]
      rfl
    | some v =>
      have hsame : row'.key = row.key := hlookup name (by rw [hkeyed]; rfl)
      have hin : name ∈ query.keyColumns := h.key name (by rw [← hsame, hkeyed]; rfl)
      have hexpr : column.2 = .var name := by rw [hvar (hcolumn ▸ hin), hcolumn]
      have hbelow : row.extract F name = values name :=
        h.column name (hvars (by rw [hexpr]; simp))
      rw [hexpr, Term.eval, ← hbelow, Row.extract, Row.extract, ← hsame, hkeyed]
      rfl
  · intro name hname
    exact h.key name (hlookup name hname ▸ hname)

end

end Shows

/-! ## The output of an operator -/

section Output

theorem firstOfAlias_eq_nil {fields : List FieldNamePair} :
    firstOfAlias fields = [] ↔ fields = [] := by
  cases fields with
  | nil => simp [firstOfAlias]
  | cons field fields => simp [firstOfAlias]

theorem alias_mem_firstOfAlias {fields : List FieldNamePair} {name : String}
    (h : name ∈ fields.map FieldNamePair.fieldAlias) :
    name ∈ (firstOfAlias fields).map FieldNamePair.fieldAlias := by
  induction fields with
  | nil => exact h
  | cons field fields ih =>
    rw [firstOfAlias, map_cons, mem_cons]
    by_cases hname : name = field.fieldAlias
    · exact .inl hname
    · right
      have hrest : name ∈ fields.map FieldNamePair.fieldAlias := by simpa [hname] using h
      obtain ⟨f, hf, rfl⟩ := mem_map.mp (ih hrest)
      exact mem_map.mpr ⟨f, mem_filter.mpr ⟨hf, by simpa using hname⟩, rfl⟩

theorem lookup_fillMessage (F : Functions V) (row : Row V) (fields : List FieldNamePair)
    {names : List String} {name : String} (h : name ∈ names) :
    (fillMessage F row fields names).lookup name =
      (fields.find? fun field => field.fieldAlias = name).map fun field =>
        field.expr.eval F.toMeaning (row.extract F) := by
  induction names with
  | nil => cases h
  | cons first names ih =>
    rw [fillMessage, filterMap_cons]
    by_cases hname : name = first
    · subst hname
      cases hfind : fields.find? fun field => field.fieldAlias = name with
      | some field => simp
      | none =>
        simp only [Option.map_none]
        rw [lookup_eq_none_iff]
        intro entry hentry
        obtain ⟨other, -, hother⟩ := mem_filterMap.mp hentry
        obtain ⟨field, hfield, rfl⟩ := Option.map_eq_some_iff.mp hother
        rw [bne_iff_ne]
        intro heq
        rw [show other = name from heq.symm, hfind] at hfield
        cases hfield
    · have hrest : name ∈ names := by simpa [hname] using h
      cases hfind : fields.find? fun field => field.fieldAlias = first with
      | none => simpa [fillMessage] using ih hrest
      | some field =>
        have hbeq : (name == first) = false := by simpa using hname
        simpa [fillMessage, lookup_cons, hbeq] using ih hrest

theorem useType_of_forall {types : List MessageType} {t : MessageType} (hne : types ≠ [])
    (h : ∀ other ∈ types, other = t) : useType types = some t := by
  cases types with
  | nil => exact absurd rfl hne
  | cons first types =>
    have hfirst : first = t := h first (by simp)
    rw [useType, foldl_cons, hfirst]
    refine Common.foldl_invariant (fun use => use = some t) (fun use other hother huse => ?_) rfl
    have heq : other = t := h other (by simp [hother])
    simp only [huse, heq, if_true]

theorem keyTypes_eq_map (ops : List IdgsOperator) : keyTypes ops = ops.map keyType := by
  induction ops with
  | nil => rfl
  | cons op ops ih => rw [keyTypes, ih, map_cons]

theorem valueTypes_eq_map (ops : List IdgsOperator) : valueTypes ops = ops.map valueType := by
  induction ops with
  | nil => rfl
  | cons op ops ih => rw [valueTypes, ih, map_cons]

variable {F : Functions V} {all : List IdgsOperator} {op : IdgsOperator} {row : Row V}

section

variable (h : ∀ o ∈ all, o.out.outputKeyFields = none)

include h

theorem keyFieldList_of_noKeys :
    keyFieldList all = [] := by
  rw [keyFieldList, firstOfAlias_eq_nil, flatMap_eq_nil_iff]
  intro o ho
  rw [keyFields, h o ho]
  rfl

/-- Without key fields a row keeps its key or has none. -/
theorem outKey_of_noKeys :
    outKey F all op row = row.key ∨ outKey F all op row = [] := by
  rw [outKey]
  split
  · exact .inl rfl
  · rw [keyFieldList_of_noKeys h]
    exact .inr rfl

theorem outKey_of_sameType (hmem : op ∈ all)
    (htype : ∀ o ∈ all, o.keyType = op.keyType) : outKey F all op row = row.key := by
  have huse : useType (keyTypes all) = some op.keyType := by
    rw [keyTypes_eq_map]
    refine useType_of_forall (by simpa using ne_nil_of_mem hmem) ?_
    simpa using htype
  rw [outKey, keyFieldList_of_noKeys h, sharedType, if_pos rfl, if_pos huse]

theorem outValue_of_fields (hmem : op ∈ all) {name : String}
    (hname : name ∈ op.valueFields.map FieldNamePair.fieldAlias) :
    outValue F all op row name =
      (op.valueFields.find? fun field => field.fieldAlias = name).map fun field =>
      field.expr.eval F.toMeaning (row.extract F) := by
  have hin : name ∈ (valueFieldList all).map FieldNamePair.fieldAlias := by
    refine alias_mem_firstOfAlias ?_
    obtain ⟨field, hfield, rfl⟩ := mem_map.mp hname
    exact mem_map.mpr ⟨field, mem_flatMap.mpr ⟨op, hmem, hfield⟩, rfl⟩
  have hne : valueFieldList all ≠ [] := by
    intro hnil
    rw [hnil] at hin
    cases hin
  have hfields : outFields all op = op.valueFields := by
    rw [outFields, keyFieldList_of_noKeys h, keyFields, h op hmem]
    simp
  rw [outValue, sharedType, if_neg hne, if_neg (by simp), hfields]
  exact lookup_fillMessage F row op.valueFields hin

end

theorem outValue_of_sameType (hfields : ∀ o ∈ all, o.valueFields = []) (hmem : op ∈ all)
    (htype : ∀ o ∈ all, o.valueType = op.valueType) : outValue F all op row = row.value := by
  have hlist : valueFieldList all = [] := by
    rw [valueFieldList, firstOfAlias_eq_nil, flatMap_eq_nil_iff]
    exact hfields
  have huse : useType (valueTypes all) = some op.valueType := by
    rw [valueTypes_eq_map]
    refine useType_of_forall (by simpa using ne_nil_of_mem hmem) ?_
    simpa using htype
  rw [outValue, hlist, sharedType, if_pos rfl, if_pos huse]

end Output

/-! ## An operator and the query that it stands for -/

section Describes

variable [DecidableEq V]

/-- What a transformer reads of an operator: the output for each row that passes. -/
theorem filterMap_input (E : Env V) (all : List IdgsOperator) (op : IdgsOperator) :
    (rows E op).filterMap (input E.toFunctions all op) = (op.outputRows E).map fun x =>
      { partition := x.partition, row := outRow E.toFunctions all op x.row,
        rddKey := x.row.keyValues } := by
  rw [IdgsOperator.outputRows]
  generalize rows E op = xs
  induction xs with
  | nil => rfl
  | cons x xs ih =>
    cases hpasses : op.passes E.toFunctions x.row with
    | true =>
      rw [filterMap_cons_some (by rw [input, if_pos hpasses]), filter_cons,
        if_pos hpasses, map_cons, ih]
    | false =>
      rw [filterMap_cons_none (by rw [input, hpasses]; rfl), filter_cons,
        if_neg (by simp [hpasses]), ih]

/-- The filter and the select of some outputs, over a query. -/
def Outputs.filtered (out : Outputs) (query : Query) : Query :=
  match out.filterExpr with
  | none => query
  | some filterExpr => .filter filterExpr query

/-- The columns of some fields. -/
def fieldColumns (fields : List FieldNamePair) : List (String × Expr) :=
  fields.map fun field => (field.fieldAlias, field.expr)

/-- The query of an operator with these outputs, whose rows are those of a query. -/
def Outputs.query (out : Outputs) (query : Query) : Query :=
  match out.outputValueFields with
  | none => out.filtered query
  | some fields => .select (fieldColumns fields) (out.filtered query)

/-- The rows of an operator's RDD show those of a query. -/
structure Describes (D : Database V) (op : IdgsOperator) (query : Query) : Prop where
  rows : List.Forall₂ (fun (x : Placed V) values => x.row.Shows D.toFunctions query values)
    (op.rows D.toEnv) (query.rows D)
  type : ∀ keyType valueType, query.HasType keyType valueType →
    op.keyType = keyType ∧ op.valueType = valueType
  keys : query.overTable = true → ((op.rows D.toEnv).map fun x => x.row.keyValues).Nodup
  outputKeyFields : op.out.outputKeyFields = none

variable {D : Database V} {op : IdgsOperator} {query : Query}

/-- The filter of an operator selects the rows that show those of the filtered query. -/
theorem Describes.outputRows (h : Describes D op query) (htidy : (op.out.filtered query).Tidy) :
    List.Forall₂
    (fun (x : Placed V) values => x.row.Shows D.toFunctions (op.out.filtered query) values)
      (op.outputRows D.toEnv) ((op.out.filtered query).rows D) := by
  rw [Outputs.filtered] at htidy ⊢
  cases hfilter : op.out.filterExpr with
  | none =>
    have hall : op.outputRows D.toEnv = op.rows D.toEnv := by
      rw [IdgsOperator.outputRows]
      exact filter_eq_self.mpr fun x _ => by rw [passes, hfilter]
    rw [hall]
    exact h.rows
  | some filterExpr =>
    rw [hfilter] at htidy
    have hpass : ∀ (x : Placed V) values, x.row.Shows D.toFunctions query values →
        (op.passes D.toFunctions x.row = true ↔
          D.isTrue (filterExpr.eval D.toMeaning values) = true) := by
      intro x values hx
      rw [passes, hfilter]
      rw [← hx.eval htidy.2]
    refine (rel_filter (fun x values hx => hpass x values hx) h.rows).imp
      fun x values hx => ?_
    exact hx.mono (List.Subset.refl _) (List.Subset.refl _)

/-- What a transformer reads of an operator shows the rows of its query, when the query selects
columns or the siblings pass on rows of the same type. -/
theorem Describes.output (h : Describes D op query) (htidy : (op.out.query query).Tidy)
    {all : List IdgsOperator} (hkeys : ∀ o ∈ all, o.out.outputKeyFields = none) (hmem : op ∈ all)
    (hall : op.out.outputValueFields.isSome = true ∨ (∀ o ∈ all, o.valueFields = []) ∧
      ∀ o ∈ all, o.keyType = op.keyType ∧ o.valueType = op.valueType) :
    List.Forall₂ (fun (x : Input V) values => x.row.Shows D.toFunctions (op.out.query query) values)
      ((op.rows D.toEnv).filterMap (input D.toFunctions all op)) ((op.out.query query).rows D) := by
  rw [filterMap_input, forall₂_map_left_iff]
  rw [Outputs.query] at htidy ⊢
  cases hfields : op.out.outputValueFields with
  | none =>
    rw [hfields] at htidy hall
    obtain ⟨hnone, htype⟩ := hall.resolve_left (by simp)
    refine (h.outputRows htidy).imp fun x values hx => ?_
    have hrow : outRow D.toFunctions all op x.row = x.row := by
      rw [outRow, outKey_of_sameType hkeys hmem fun o ho => (htype o ho).1,
        outValue_of_sameType hnone hmem fun o ho => (htype o ho).2]
    exact hrow.symm ▸ hx
  | some fields =>
    rw [hfields] at htidy
    have hown : op.valueFields = fields := by rw [valueFields, hfields]; rfl
    simp only [Query.rows, forall₂_map_right_iff]
    refine (h.outputRows htidy.1).imp fun x values hx =>
      hx.select htidy (outKey_of_noKeys hkeys) fun name hname => ?_
    have hin : name ∈ op.valueFields.map FieldNamePair.fieldAlias := by
      rw [hown]
      simpa [fieldColumns] using hname
    rw [show (outRow D.toFunctions all op x.row).value name =
      outValue D.toFunctions all op x.row name from rfl,
      outValue_of_fields hkeys hmem hin, hown, fieldColumns, find?_map, Option.map_map]
    rfl

theorem lookup_map_pair {β : Type*} (f : String → β) (names : List String) (name : String) :
    (names.map fun n => (n, f n)).lookup name = if name ∈ names then some (f name) else none := by
  induction names with
  | nil => rfl
  | cons n names ih =>
    rw [map_cons, lookup_cons]
    by_cases hname : name = n
    · subst hname
      simp
    · have hbeq : (name == n) = false := by simpa using hname
      simp [hname, hbeq, ih]

/-- A delegate operator stands for its table. -/
theorem describes_table {dbName tableName schemaName : String} {cfg : StoreConfig} {out : Outputs}
    (hfind : D.metadata.findTable dbName tableName = .ok (schemaName, cfg))
    (hout : out.outputKeyFields = none) :
    Describes D (.delegate (storeOf schemaName cfg) cfg.keyType cfg.valueType out)
    (.table schemaName cfg) where
  rows := by
    rw [IdgsOperator.rows, Query.rows, Database.storeRows, forall₂_map_left_iff,
      forall₂_map_right_iff, forall₂_same]
    intro cells _
    constructor
    · intro name _
      rw [Row.extract, lookup_map_pair, StoreConfig.tableRow]
      split
      · rfl
      · rfl
    · intro name hname
      rw [lookup_map_pair] at hname
      by_contra hnot
      rw [Query.keyColumns] at hnot
      rw [if_neg hnot] at hname
      cases hname
  type keyType valueType htype := htype
  keys _ := by
    have hkeys :
        ((rows D.toEnv (.delegate (storeOf schemaName cfg) cfg.keyType cfg.valueType out)).map
        fun x =>
        x.row.keyValues) = (D.store (storeOf schemaName cfg)).map fun cells =>
          cfg.keyType.fields.map cells.key := by
      rw [IdgsOperator.rows, map_map]
      refine map_congr_left fun cells _ => ?_
      simp [Row.keyValues]
    rw [hkeys]
    exact D.nodup hfind
  outputKeyFields := hout

/-- An operator that the parser makes for a query: its outputs are the filter and the select of the
query, over a table or a union, whose rows it shows if that is tidy. -/
def Reads (D : Database V) (op : IdgsOperator) (query : Query) : Prop :=
  ∃ base, query = op.out.query base ∧ base.isSelect = false ∧ (base.Tidy → Describes D op base)

theorem tidy_of_filtered {out : Outputs} (h : (out.filtered query).Tidy) : query.Tidy := by
  rw [Outputs.filtered] at h
  split at h
  · exact h
  · exact h.1

theorem tidy_of_query {out : Outputs} (h : (out.query query).Tidy) : query.Tidy := by
  rw [Outputs.query] at h
  split at h
  · exact tidy_of_filtered h
  · exact tidy_of_filtered h.1

theorem hasType_of_query {out : Outputs} {keyType valueType : MessageType}
    (h : (out.query query).HasType keyType valueType) :
    out.outputValueFields = none ∧ query.HasType keyType valueType := by
  rw [Outputs.query] at h
  split at h
  · rename_i hnone
    refine ⟨hnone, ?_⟩
    rw [Outputs.filtered] at h
    split at h
    · exact h
    · exact h
  · cases h

theorem isSelect_query {out : Outputs} (h : query.isSelect = false) :
    (out.query query).isSelect = out.outputValueFields.isSome := by
  rw [Outputs.query]
  split
  · rename_i hnone
    rw [hnone, Outputs.filtered]
    split
    · exact h
    · rfl
  · rename_i fields hfields
    rw [hfields]
    rfl

theorem mem_right_of_forall₂ {α β : Type*} {R : α → β → Prop} {xs : List α} {ys : List β}
    (h : List.Forall₂ R xs ys) {x : α} (hx : x ∈ xs) : ∃ y ∈ ys, R x y := by
  induction h with
  | nil => cases hx
  | cons hxy _ ih =>
    rcases mem_cons.mp hx with rfl | hx
    · exact ⟨_, mem_cons_self, hxy⟩
    · obtain ⟨y, hy, hxy⟩ := ih hx
      exact ⟨y, mem_cons_of_mem _ hy, hxy⟩

theorem tidyAll_iff {queries : List Query} : Query.TidyAll queries ↔ ∀ q ∈ queries, q.Tidy := by
  induction queries with
  | nil => simp
  | cons q queries ih => simp [ih]

theorem haveType_iff {keyType valueType : MessageType} {queries : List Query} :
    Query.HaveType keyType valueType queries ↔ ∀ q ∈ queries, q.HasType keyType valueType := by
  induction queries with
  | nil => simp
  | cons q queries ih => simp [ih]

theorem keyColumns_subset {queries : List Query} (hq : query ∈ queries) :
    query.keyColumns ⊆ Query.allKeyColumns queries := by
  induction queries with
  | nil => cases hq
  | cons q queries ih =>
    rw [Query.allKeyColumns]
    rcases mem_cons.mp hq with rfl | hq
    · exact subset_append_left _ _
    · exact List.Subset.trans (ih hq) (subset_append_right _ _)

section Union

variable {ops : List IdgsOperator} {queries : List Query}

section

variable (hreads : List.Forall₂ (Reads D) ops queries)

include hreads

theorem describes_of_reads (htidy : Query.TidyAll queries) :
    ∀ o ∈ ops, ∃ q ∈ queries, ∃ base, q = o.out.query base ∧ base.isSelect = false ∧
    Describes D o base := by
  intro o ho
  obtain ⟨q, hq, base, hquery, hbase, hdescribes⟩ := mem_right_of_forall₂ hreads ho
  have hqtidy : q.Tidy := tidyAll_iff.mp htidy q hq
  exact ⟨q, hq, base, hquery, hbase, hdescribes (tidy_of_query (hquery ▸ hqtidy))⟩

/-- The operators of queries that are rows of one type have no fields and that type. -/
theorem type_of_reads (htidy : Query.TidyAll queries)
    {keyType valueType : MessageType} (htype : Query.HaveType keyType valueType queries) :
    ∀ o ∈ ops, o.out.outputValueFields = none ∧ o.keyType = keyType ∧ o.valueType = valueType := by
  intro o ho
  obtain ⟨q, hq, base, rfl, -, hdescribes⟩ := describes_of_reads hreads htidy o ho
  obtain ⟨hnone, hbase⟩ := hasType_of_query (haveType_iff.mp htype _ hq)
  exact ⟨hnone, hdescribes.type keyType valueType hbase⟩

/-- The operators of the queries of a tidy union all have fields, or none has and all have the same
types. -/
theorem siblings_of_reads (htidy : (Query.union queries).Tidy) :
    ∀ op ∈ ops, op.out.outputValueFields.isSome = true ∨ (∀ o ∈ ops, o.valueFields = []) ∧
      ∀ o ∈ ops, o.keyType = op.keyType ∧ o.valueType = op.valueType := by
  intro op hop
  obtain ⟨htidyAll, -, hselect | ⟨keyType, valueType, htype⟩⟩ := htidy
  · left
    obtain ⟨q, hq, base, rfl, hbase, -⟩ := describes_of_reads hreads htidyAll op hop
    rw [← isSelect_query hbase]
    exact hselect _ hq
  · right
    have hall := type_of_reads hreads htidyAll htype
    refine ⟨fun o ho => ?_, fun o ho => ?_⟩
    · rw [valueFields, (hall o ho).1]
      rfl
    · obtain ⟨-, hkey, hvalue⟩ := hall o ho
      obtain ⟨-, hkey', hvalue'⟩ := hall op hop
      exact ⟨hkey.trans hkey'.symm, hvalue.trans hvalue'.symm⟩

end

/-- The rows that a union transformer reads of some of its children. -/
theorem union_rows {all : List IdgsOperator} {allQueries : List Query}
    (hall : List.Forall₂ (Reads D) all allQueries) (htidy : (Query.union allQueries).Tidy)
    (hreads : List.Forall₂ (Reads D) ops queries) (hops : ops ⊆ all)
    (hqueries : queries ⊆ allQueries) :
    List.Forall₂ (fun (x : Input V) values => x.row.Shows D.toFunctions (.union allQueries) values)
      (inputs D.toEnv all ops).flatten (Query.rowsAll D queries) := by
  have hkeys : ∀ o ∈ all, o.out.outputKeyFields = none := by
    intro o ho
    obtain ⟨_, _, _, _, _, hdescribes⟩ := describes_of_reads hall htidy.1 o ho
    exact hdescribes.outputKeyFields
  induction hreads with
  | nil => exact .nil
  | @cons op query ops queries hread _ ih =>
    rw [inputs, Query.rowsAll, flatten_cons]
    refine rel_append ?_
      (ih (subset_of_cons_subset hops) (subset_of_cons_subset hqueries))
    obtain ⟨base, rfl, hbase, hdescribes⟩ := hread
    have hmem : op ∈ all := hops mem_cons_self
    have hq : op.out.query base ∈ allQueries := hqueries mem_cons_self
    have hqtidy : (op.out.query base).Tidy := tidyAll_iff.mp htidy.1 _ hq
    refine ((hdescribes (tidy_of_query hqtidy)).output hqtidy hkeys hmem
      (siblings_of_reads hall htidy op hmem)).imp fun x values hx => ?_
    exact hx.mono (htidy.2.1 _ hq) (keyColumns_subset hq)

/-- A union transformer stands for the union of its children's queries. -/
theorem describes_union {rddName : String} {out : Outputs}
    (hreads : List.Forall₂ (Reads D) ops queries)
    (htidy : (Query.union queries).Tidy) (hout : out.outputKeyFields = none) :
    Describes D (.transformer rddName .filter ops out) (.union queries) where
  rows := by
    rw [IdgsOperator.rows, Transformer.transform, forall₂_map_left_iff, Query.rows]
    exact union_rows hreads htidy hreads (List.Subset.refl _) (List.Subset.refl _)
  type keyType valueType htype := by
    obtain ⟨hne, htypes⟩ := htype
    have hall := type_of_reads hreads htidy.1 htypes
    have hnil : ops ≠ [] := by
      rintro rfl
      cases hreads
      exact hne rfl
    have hkeys : keyFieldList ops = [] := keyFieldList_of_noKeys fun o ho => by
      obtain ⟨_, _, _, _, _, hdescribes⟩ := describes_of_reads hreads htidy.1 o ho
      exact hdescribes.outputKeyFields
    have hvalues : valueFieldList ops = [] := by
      rw [valueFieldList, firstOfAlias_eq_nil, flatMap_eq_nil_iff]
      intro o ho
      rw [valueFields, (hall o ho).1]
      rfl
    constructor
    · rw [IdgsOperator.keyType, hkeys, sharedType, if_pos rfl, keyTypes_eq_map,
        useType_of_forall (t := keyType) (by simpa using hnil) (by simpa using fun o ho =>
        (hall o ho).2.1)]
      rfl
    · rw [IdgsOperator.valueType, hvalues, sharedType, if_pos rfl, valueTypes_eq_map,
        useType_of_forall (t := valueType) (by simpa using hnil) (by simpa using fun o ho =>
        (hall o ho).2.2)]
      rfl
  keys hover := by cases hover
  outputKeyFields := hout

end Union

/-! ## The parser -/

theorem folded_eq (above : List ChildOperator) (base : Query) :
    Query.folded above base = (genFilterAndSelectExpr above).query base := by
  have hselected : ∀ (filterExpr : Option Expr) (columns : List SelectColumn) (base : Query),
      (({ filterExpr := filterExpr } : Outputs).filtered base).selected columns =
        ({ filterExpr := filterExpr, outputValueFields := genSelectExpr columns } : Outputs).query
        base := by
    intro filterExpr columns base
    cases columns with
    | nil => rfl
    | cons column columns =>
      rw [Query.selected, genSelectExpr, Outputs.query]
      simp only [isEmpty_cons, Bool.false_eq_true, if_false, fieldColumns, map_map]
      rfl
  match above with
  | .filter predicate :: .select columns :: _ =>
    exact hselected (some predicate.toExpr) columns base
  | .select columns :: _ => exact hselected none columns base
  | [] => rfl
  | .fileSink :: _ => rfl
  | .other :: _ => rfl
  | [.filter _] => rfl
  | .filter _ :: .filter _ :: _ => rfl
  | .filter _ :: .fileSink :: _ => rfl
  | .filter _ :: .other :: _ => rfl

theorem outputKeyFields_genFilterAndSelectExpr (above : List ChildOperator) :
    (genFilterAndSelectExpr above).outputKeyFields = none := by
  match above with
  | .filter _ :: .select _ :: _ => rfl
  | .select _ :: _ => rfl
  | [] => rfl
  | .fileSink :: _ => rfl
  | .other :: _ => rfl
  | [.filter _] => rfl
  | .filter _ :: .filter _ :: _ => rfl
  | .filter _ :: .fileSink :: _ => rfl
  | .filter _ :: .other :: _ => rfl

/-- What the parser makes of a tree, against the query that the tree comes to. -/
def Parsed (D : Database V) (result : Except String (List IdgsOperator)) : Option Query → Prop
  | none => ∃ err, result = .error err
  | some query => ∃ op, result = .ok [op] ∧ Reads D op query

/-- What the parser makes of some trees, against their queries. -/
def AllParsed (D : Database V) (result : Except String (List IdgsOperator)) :
    Option (List Query) → Prop
  | none => ∃ err, result = .error err
  | some queries => ∃ ops, result = .ok ops ∧ List.Forall₂ (Reads D) ops queries

mutual
/-- The parser makes one operator of a tree, which reads the query that the tree comes to, or
refuses it. -/
theorem parseOperator_parsed (D : Database V) (uuid : List ℕ → String) :
    ∀ (t : HiveOperator) (place : List ℕ) (above : List ChildOperator),
      (underFileSink above = true → ∀ signature parent, t ≠ .extract signature parent) →
      Parsed D (parseOperator D.metadata uuid place above t) (t.query D.metadata above)
  | .tableScan dbName tableName, place, above, _ => by
      rw [parseOperator, genTablePlan, HiveOperator.query]
      cases hfind : D.metadata.findTable dbName tableName with
      | error err => exact ⟨err, rfl⟩
      | ok table =>
        refine ⟨_, rfl, .table table.1 table.2, folded_eq above _, rfl, fun _ => ?_⟩
        exact describes_table hfind (outputKeyFields_genFilterAndSelectExpr above)
  | .filter predicate parent, place, above, _ => by
      rw [parseOperator, HiveOperator.query]
      exact parseOperator_parsed D uuid parent place (.filter predicate :: above) fun hsink => by
        cases hsink
  | .select columns parent, place, above, _ => by
      rw [parseOperator, HiveOperator.query]
      exact parseOperator_parsed D uuid parent place (.select columns :: above) fun hsink => by
        cases hsink
  | .limit _ parent, place, above, _ => by
      rw [parseOperator, HiveOperator.query]
      exact parseOperator_parsed D uuid parent place (.other :: above) fun hsink => by cases hsink
  | .reduceSink _ parent, place, above, _ => by
      rw [parseOperator, HiveOperator.query]
      exact parseOperator_parsed D uuid parent place (.other :: above) fun hsink => by cases hsink
  | .extract signature parent, place, above, hnot => by
      have hparent :=
        parseOperator_parsed D uuid parent (0 :: place) (.other :: above) fun hsink => by
        cases hsink
      have hsink : underFileSink above = false := by
        by_contra h
        exact hnot (by simpa using h) signature parent rfl
      rw [parseOperator, HiveOperator.query, hsink]
      cases hquery : parent.query D.metadata (.other :: above) with
      | none =>
        rw [hquery] at hparent
        obtain ⟨err, herr⟩ := hparent
        exact ⟨err, by rw [herr]; rfl⟩
      | some query =>
        rw [hquery] at hparent
        obtain ⟨op, hop, hreads⟩ := hparent
        exact ⟨op, by rw [hop]; rfl, hreads⟩
  | .union parents, place, above, _ => by
      have hparents := parseParents_parsed D uuid parents place 0
      rw [parseOperator, HiveOperator.query]
      cases hqueries : HiveOperator.queries D.metadata parents with
      | none =>
        rw [hqueries] at hparents
        obtain ⟨err, herr⟩ := hparents
        exact ⟨err, by rw [herr]; rfl⟩
      | some queries =>
        rw [hqueries] at hparents
        obtain ⟨ops, hops, hreads⟩ := hparents
        refine ⟨_, by rw [hops]; rfl, .union queries, folded_eq above _, rfl, fun htidy => ?_⟩
        exact describes_union hreads htidy (outputKeyFields_genFilterAndSelectExpr above)
/-- The parser makes one operator of each parent of a union. -/
theorem parseParents_parsed (D : Database V) (uuid : List ℕ → String) :
    ∀ (ts : List HiveOperator) (place : List ℕ) (i : ℕ),
      AllParsed D (parseParents D.metadata uuid place i ts) (HiveOperator.queries D.metadata ts)
  | [], _, _ => ⟨[], rfl, .nil⟩
  | t :: ts, place, i => by
      have hfirst := parseOperator_parsed D uuid t (i :: place) [.other] fun hsink => by cases hsink
      have hrest := parseParents_parsed D uuid ts place (i + 1)
      rw [parseParents, HiveOperator.queries]
      cases hquery : t.query D.metadata [.other] with
      | none =>
        rw [hquery] at hfirst
        obtain ⟨err, herr⟩ := hfirst
        exact ⟨err, by rw [herr]; rfl⟩
      | some query =>
        rw [hquery] at hfirst
        obtain ⟨op, hop, hreads⟩ := hfirst
        cases hqueries : HiveOperator.queries D.metadata ts with
        | none =>
          rw [hqueries] at hrest
          obtain ⟨err, herr⟩ := hrest
          exact ⟨err, by rw [hop, herr]; rfl⟩
        | some queries =>
          rw [hqueries] at hrest
          obtain ⟨ops, hops, hall⟩ := hrest
          exact ⟨op :: ops, by rw [hop, hops]; rfl, .cons hreads hall⟩
end

end Describes

end Idgs.Sql
