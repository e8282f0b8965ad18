import Idgs.Common.Groups
import Idgs.Sql.PlanRows

/-!
# The plan of a query

The parser reads a statement off Hive's tree, and its plan has the results of that statement when it
is tidy: a collect action counts groups of one key, which are single rows in a table. With an order
and a limit there is no plan, for `setLimit` never returns. So a query is planned right exactly when
the statement that the parser reads has no results but those of Hive's tree, and does not both order
and limit.
-/

namespace Idgs.Sql

open Common
  (groupsBy flatten_groupsBy_perm groupsBy_of_nodup flatten_take exists_perm_map exists_perm_take)
open IdgsOperator

variable {V : Type*} [DecidableEq V] {D : Database V}

/-! ## Below the action -/

/-- A filter transformer over one operator has the rows that it makes of that one's. -/
theorem outputRows_filter (op : IdgsOperator) (rddName : String) :
    (IdgsOperator.transformer rddName .filter [op] {}).outputRows D.toEnv =
      ((op.rows D.toEnv).filterMap (input D.toFunctions [op] op)).map Input.toPlaced := by
  rw [IdgsOperator.outputRows, IdgsOperator.rows, Transformer.transform, inputs, inputs,
    List.flatten_cons, List.flatten_nil, List.append_nil]
  exact List.filter_eq_self.mpr fun x _ => rfl

variable {op : IdgsOperator}

/-- The rows of a filter transformer over one operator, and their keys. -/
theorem transformer_shows {base : Query} (h : Describes D op base)
    (htidy : (op.out.query base).Tidy) (rddName : String) :
    List.Forall₂ (fun (x : Placed V) values => x.row.Shows D.toFunctions (op.out.query base) values)
      ((IdgsOperator.transformer rddName .filter [op] {}).outputRows D.toEnv)
      ((op.out.query base).rows D) := by
  rw [outputRows_filter, List.forall₂_map_left_iff]
  refine h.output htidy (by simpa using h.outputKeyFields) (List.mem_singleton_self op) ?_
  cases hfields : op.out.outputValueFields with
  | none => exact .inr ⟨by simp [valueFields, hfields], by simp⟩
  | some fields => exact .inl rfl

/-- The rows of a filter transformer over one operator have the keys of those that it reads. -/
theorem transformer_keys (hkeys : op.out.outputKeyFields = none) (rddName : String) :
    ((IdgsOperator.transformer rddName .filter [op] {}).outputRows D.toEnv).map
    (fun x => x.row.keyValues) =
      (op.outputRows D.toEnv).map fun x => x.row.keyValues := by
  rw [outputRows_filter, filterMap_input, List.map_map, List.map_map]
  refine List.map_congr_left fun x _ => ?_
  simp only [Function.comp_apply, Row.keyValues, outRow]
  rw [outKey_of_sameType (by simpa using hkeys) (List.mem_singleton_self op) (by simp)]

/-- The rows that an action works on show those of a query, with distinct keys if the query reads
one table. -/
structure ActsOn (D : Database V) (child : IdgsOperator) (query : Query) : Prop where
  rows : List.Forall₂ (fun (x : Placed V) values => x.row.Shows D.toFunctions query values)
    (child.outputRows D.toEnv) (query.rows D)
  keys : query.overTable = true → ((child.outputRows D.toEnv).map fun x => x.row.keyValues).Nodup

theorem overTable_query {out : Outputs} {base : Query} :
    (out.query base).overTable = base.overTable := by
  rw [Outputs.query]
  split <;> (rw [Outputs.filtered]; split <;> rfl)

section

variable {base : Query} (h : Describes D op base)

include h

theorem Describes.outputKeys
    (hover : base.overTable = true) :
    ((op.outputRows D.toEnv).map fun x => x.row.keyValues).Nodup :=
  (List.Sublist.map _ List.filter_sublist).nodup (h.keys hover)

theorem actsOn_transformer
    (htidy : (op.out.query base).Tidy) (rddName : String) :
    ActsOn D (.transformer rddName .filter [op] {}) (op.out.query base) where
  rows := transformer_shows h htidy rddName
  keys hover := by
    rw [transformer_keys h.outputKeyFields]
    exact h.outputKeys (overTable_query ▸ hover)

/-- `genActionOperator` puts a filter transformer below the action to evaluate the fields. -/
theorem actsOn_belowAction
    (htidy : (op.out.query base).Tidy) (rddName : String) :
    ActsOn D (belowAction rddName op) (op.out.query base) := by
  rw [belowAction]
  split
  · exact actsOn_transformer h htidy rddName
  · rename_i hnone
    have hfields : op.out.outputValueFields = none := by
      rw [h.outputKeyFields] at hnone
      simpa using hnone
    have hquery : op.out.query base = op.out.filtered base := by rw [Outputs.query, hfields]
    rw [hquery] at htidy ⊢
    exact ⟨h.outputRows htidy, fun hover =>
      h.outputKeys (by rw [← overTable_query, hquery]; exact hover)⟩

end

/-! ## The results of an action -/

/-- The results of the rows that an order and a limit leave. -/
def Taken {α : Type*} (limit : Option ℕ) (inOrder : List α → Prop) (values : α → List V)
    (rows : List α)
    (results : List (List V)) : Prop :=
  ∃ sorted, List.Perm sorted rows ∧ inOrder sorted ∧ results = (takeLimit limit sorted).map values

omit [DecidableEq V] in
theorem map_takeLimit {α β : Type*} (f : α → β) (limit : Option ℕ) (xs : List α) :
    (takeLimit limit xs).map f = takeLimit limit (xs.map f) := by
  cases limit with
  | none => rfl
  | some limit => exact List.map_take

omit [DecidableEq V] in
/-- Rows with equal values and equal order have the same results. -/
theorem Taken.of_forall₂ {α β : Type*} {limit : Option ℕ} {P : List α → Prop} {Q : List β → Prop}
    {f : α → List V}
    {g : β → List V} {R : α → β → Prop} {xs : List α} {ys : List β} (hrows : List.Forall₂ R xs ys)
    (hvalues : ∀ x y, R x y → f x = g y) (horder : ∀ xs ys, List.Forall₂ R xs ys → P xs → Q ys)
    {results : List (List V)} (h : Taken limit P f xs results) : Taken limit Q g ys results := by
  obtain ⟨sorted, hperm, hP, rfl⟩ := h
  obtain ⟨sorted', hsorted, hperm'⟩ := List.perm_comp_forall₂ hperm hrows
  refine ⟨sorted', hperm', horder sorted sorted' hsorted hP, ?_⟩
  have hmap : sorted.map f = sorted'.map g := by
    rw [← List.forall₂_eq_eq_eq, List.forall₂_map_left_iff, List.forall₂_map_right_iff]
    exact hsorted.imp hvalues
  rw [map_takeLimit, map_takeLimit, hmap]

omit [DecidableEq V] in
theorem taken_iff_of_forall₂ {α β : Type*} {limit : Option ℕ} {P : List α → Prop}
    {Q : List β → Prop} {f : α → List V}
    {g : β → List V} {R : α → β → Prop} {xs : List α} {ys : List β} (hrows : List.Forall₂ R xs ys)
    (hvalues : ∀ x y, R x y → f x = g y) (horder : ∀ xs ys, List.Forall₂ R xs ys → (P xs ↔ Q ys))
    {results : List (List V)} : Taken limit P f xs results ↔ Taken limit Q g ys results :=
  ⟨Taken.of_forall₂ hrows hvalues fun xs ys h => (horder xs ys h).mp,
    Taken.of_forall₂ (R := fun y x => R x y) hrows.flip (fun y x h => (hvalues x y h).symm)
      fun ys xs h => (horder xs ys h.flip).mpr⟩

/-- The collect action takes rows, when it has no limit or no two rows have the same key. -/
theorem collect_results {limit : Option ℕ} {values : Row V → List V} {rows : List (Placed V)}
    (hkeys : ∀ n ∈ limit, (rows.map fun x => x.row.keyValues).Nodup) {results : List (List V)} :
    (Action.collect limit).Results D values rows results ↔
      Taken limit (fun _ => True) (fun x : Placed V => values x.row) rows results := by
  have hgroups : groupsOf rows = groupsBy (fun x => (x.partition, x.row.keyValues)) rows := rfl
  rw [Action.Results, hgroups]
  cases limit with
  | none =>
    constructor
    · rintro ⟨groups, hperm, hresults⟩
      have hrows : groups.flatten.Perm rows := hperm.flatten.trans (flatten_groupsBy_perm _ rows)
      obtain ⟨sorted, hsorted, rfl⟩ := exists_perm_map hresults
      exact ⟨sorted, hsorted.trans hrows, trivial, rfl⟩
    · rintro ⟨sorted, hperm, -, rfl⟩
      exact ⟨_, List.Perm.refl _, (hperm.trans (flatten_groupsBy_perm _ rows).symm).map _⟩
  | some n =>
    have hnodup : (rows.map fun x => (x.partition, x.row.keyValues)).Nodup := by
      refine List.Nodup.of_map Prod.snd ?_
      rw [List.map_map]
      exact hkeys n rfl
    rw [groupsBy_of_nodup hnodup]
    constructor
    · rintro ⟨groups, hperm, hresults⟩
      have hsingle : ∀ group ∈ groups, ∃ x, group = [x] := fun group hgroup => by
        obtain ⟨x, -, rfl⟩ := List.mem_map.mp (hperm.mem_iff.mp hgroup)
        exact ⟨x, rfl⟩
      have hrows : groups.flatten.Perm rows := by
        refine hperm.flatten.trans ?_
        rw [← List.flatMap_def, List.flatMap_singleton']
      rw [takeLimit, flatten_take hsingle] at hresults
      obtain ⟨taken, htaken, rfl⟩ := exists_perm_map hresults
      obtain ⟨sorted, hsorted, rfl⟩ := exists_perm_take htaken hrows
      exact ⟨sorted, hsorted, trivial, rfl⟩
    · rintro ⟨sorted, hperm, -, rfl⟩
      refine ⟨sorted.map fun x => [x], hperm.map _, ?_⟩
      have hsingle : ∀ group ∈ sorted.map fun x => [x], ∃ x, group = [x] := fun group hgroup => by
        obtain ⟨x, -, rfl⟩ := List.mem_map.mp hgroup
        exact ⟨x, rfl⟩
      rw [show takeLimit (some n) (sorted.map fun x => [x]) =
        (sorted.map fun x => [x]).take n from rfl,
        flatten_take hsingle, ← List.flatMap_def, List.flatMap_singleton']
      rfl

omit [DecidableEq V] in
theorem inOrder_iff_pairwise {α : Type*} (fieldOrder : List Bool) (keys : α → List V)
    (rows : List α) :
    InOrder D fieldOrder keys rows ↔
      (rows.map keys).Pairwise fun x y => orderless D.compareFieldValue fieldOrder y x = false := by
  rw [InOrder, List.pairwise_map]

omit [DecidableEq V] in
theorem inOrder_iff_of_forall₂ {α β : Type*} {R : α → β → Prop} {xs : List α} {ys : List β}
    (h : List.Forall₂ R xs ys) {fieldOrder : List Bool} {f : α → List V} {g : β → List V}
    (hkeys : ∀ x y, R x y → f x = g y) : InOrder D fieldOrder f xs ↔ InOrder D fieldOrder g ys := by
  have hmap : xs.map f = ys.map g := by
    rw [← List.forall₂_eq_eq_eq, List.forall₂_map_left_iff, List.forall₂_map_right_iff]
    exact h.imp hkeys
  rw [inOrder_iff_pairwise, inOrder_iff_pairwise, hmap]

omit [DecidableEq V] in
/-- The columns of the result are the same in a row and in what it shows. -/
theorem Row.Shows.names {query : Query} {row : Row V} {values : String → V}
    (h : row.Shows D.toFunctions query values)
    {names : List String} (hnames : names ⊆ query.columns) :
    names.map (row.extract D.toFunctions) = names.map values :=
  List.map_congr_left fun name hname => h.column name (hnames hname)

/-- A collect action over rows that show a query has the results of the statement without an
order. -/
theorem results_collect {child : IdgsOperator} {query : Query} {limit : Option ℕ}
    (h : ActsOn D child query)
    {names : List String}
    (htidy : ({ query := query, order := none, limit := limit } : Statement).Tidy names)
    (results : List (List V)) :
    ({ action := .collect limit, child := child } : ActionOperator).Results D names results ↔
      ({ query := query, order := none, limit := limit } : Statement).Results D names results := by
  have hkeys : ∀ n ∈ limit, ((child.outputRows D.toEnv).map fun x => x.row.keyValues).Nodup :=
    fun n hn =>
    h.keys (htidy.limit n hn)
  rw [ActionOperator.Results, collect_results hkeys]
  refine taken_iff_of_forall₂ h.rows (fun x values hx => hx.names htidy.names) fun _ _ _ => ?_
  exact ⟨fun _ order horder => (Option.not_mem_none order horder).elim, fun _ => trivial⟩

/-- A top-N action over rows that show a query has the results of the statement with its order. -/
theorem results_topN {child : IdgsOperator} {query : Query} {orderFields : List OrderField}
    (h : ActsOn D child query)
    {names : List String}
    (htidy : ({ query := query
                order := some (orderFields.map fun field => (field.1.expr, field.2))
                limit := none } : Statement).Tidy names)
    (results : List (List V)) :
    ({ action := .topN none orderFields, child := child } : ActionOperator).Results D names
      results ↔
      ({ query := query, order := some (orderFields.map fun field => (field.1.expr, field.2)),
         limit := none } : Statement).Results D names results := by
  refine taken_iff_of_forall₂ h.rows (fun x values hx => hx.names htidy.names) fun xs ys hxs => ?_
  have horder : ∀ x values, Row.Shows D.toFunctions query (Placed.row x) values →
      orderKeys D.toFunctions orderFields x.row =
        (orderFields.map fun field => (field.1.expr, field.2)).map fun key =>
        key.1.eval D.toMeaning values := by
    intro x values hx
    rw [orderKeys, List.map_map]
    refine List.map_congr_left fun field hfield => ?_
    exact hx.eval
      (htidy.order _ rfl (field.1.expr, field.2) (List.mem_map.mpr ⟨field, hfield, rfl⟩))
  have hflags : (orderFields.map fun field => (field.1.expr, field.2)).map Prod.snd =
      orderFields.map Prod.snd := by
    rw [List.map_map]
    rfl
  simp only [Option.mem_some_iff, forall_eq', hflags]
  exact inOrder_iff_of_forall₂ hxs horder

/-! ## The whole plan -/

theorem Describes.setOut {base : Query} (h : Describes D op base) {out : Outputs}
    (hout : out.outputKeyFields = none) : Describes D (op.setOut out) base := by
  cases op with
  | delegate _ _ _ _ | transformer _ _ _ _ => exact ⟨h.rows, h.type, h.keys, hout⟩

omit [DecidableEq V] in
theorem out_setOut (op : IdgsOperator) (out : Outputs) : (op.setOut out).out = out := by
  cases op <;> rfl

/-- Renamed fields are the fields of the renamed query. -/
theorem query_renamed {out out' : Outputs} {base : Query} {fieldNames : String → Option String}
    (hbase : base.isSelect = false) (hfilter : out'.filterExpr = out.filterExpr)
    (hfields : out'.outputValueFields =
      out.outputValueFields.map (List.map (FieldNamePair.renamed fieldNames))) :
    (out.query base).renamed fieldNames = out'.query base := by
  have hfiltered : out'.filtered base = out.filtered base := by
      rw [Outputs.filtered, Outputs.filtered, hfilter]
  rw [Outputs.query, Outputs.query, hfields, hfiltered]
  cases out.outputValueFields with
  | none =>
    have hselect : (out.filtered base).isSelect = false := by
      rw [Outputs.filtered]
      split
      · exact hbase
      · rfl
    simp only [Option.map_none]
    cases hquery : out.filtered base with
    | select columns query => rw [hquery] at hselect; cases hselect
    | table _ _ | filter _ _ | union _ => rfl
  | some fields =>
    simp only [Option.map_some, Query.renamed, fieldColumns, List.map_map]
    rfl

/-- What the parser makes of a query without an order: a collect action. -/
theorem genActionOperator_collect {sink : FileSinkOperator} {rddName : String} {stack : ℕ}
    (horder : sink.parent.belowLimit.orderbyOp = none) :
    genActionOperator sink rddName stack op =
      some (.ok { action := .collect sink.parent.positiveLimit, child := belowAction rddName op })
      := by
  rw [genActionOperator]
  simp only [horder]
  cases sink.parent.positiveLimit with
  | none => rfl
  | some n => rfl

/-- `setLimit` of the top-N action never returns. -/
theorem topN_setLimit (stack : ℕ) (orderFields : List OrderField) (limit : ℕ) :
    TopNActionOperator.setLimit stack orderFields limit = none := by
  induction stack with
  | zero => rfl
  | succ stack ih => rw [TopNActionOperator.setLimit, ih, Option.map_none]

/-- The outcome of the parser on a query, against the statement that it reads. -/
def Planned (D : Database V) (uuid : List ℕ → String) (sink : FileSinkOperator) :
    Option Statement → Prop
  | none => ∃ err, ∀ stack, sink.parse D.metadata uuid stack = some (.error err)
  | some stmt => stmt.Tidy (sink.resultSchema.map Prod.snd) →
      if stmt.order.isSome ∧ stmt.limit.isSome then ∀ stack, sink.parse D.metadata uuid stack = none
      else ∃ plan, (∀ stack, sink.parse D.metadata uuid stack = some (.ok plan)) ∧ ∀ results,
        plan.Results D (sink.resultSchema.map Prod.snd) results ↔
          stmt.Results D (sink.resultSchema.map Prod.snd) results

/-- The parser refuses an order that it cannot find the fields of. -/
theorem planned_of_genOrder_error {uuid : List ℕ → String} {sink : FileSinkOperator}
    {reduceOp : ReduceSinkDesc} {err : String}
    (hparse : parseOperator D.metadata uuid [0] [.fileSink] sink.parent = .ok [op])
    (horder : sink.parent.belowLimit.orderbyOp = some reduceOp)
    (herr : genOrder sink.fieldSchemas sink.parent.belowLimit reduceOp op = .error err) :
    Planned D uuid sink none := by
  refine ⟨err, fun stack => ?_⟩
  rw [FileSinkOperator.parse, hparse]
  simp only [genActionOperator, horder, herr]

omit [DecidableEq V] in
theorem genOrder_of_noSelect {fieldSchemas : String → Option String} {op : HiveOperator}
    {reduceOp : ReduceSinkDesc}
    {operator : IdgsOperator} {fields : List FieldNamePair}
    (hfields : operator.out.outputValueFields = some fields)
    (h : ∀ columns parent, op ≠ .select columns parent) :
    genOrder fieldSchemas op reduceOp operator = .error "java.lang.ClassCastException" := by
  unfold genOrder
  rw [hfields]
  cases op with
  | select columns parent => exact absurd rfl (h columns parent)
  | tableScan _ _ => rfl
  | filter _ _ => rfl
  | union _ => rfl
  | limit _ _ | reduceSink _ _ | extract _ _ => rfl

/-- The fields of an operator with an order. -/
def orderedOut (sink : FileSinkOperator) (reduceOp : ReduceSinkDesc) (columns : List SelectColumn)
    (out : Outputs)
    (fields : List FieldNamePair) : Outputs :=
  { out with
    outputValueFields := some (fields.map (FieldNamePair.renamed sink.fieldSchemas) ++
      reduceOp.keyCols.filterMap (addedField sink.fieldSchemas (columnMapping columns))) }

/-- The plan of a query with an order, unless it has a limit. -/
theorem planned_ordered {uuid : List ℕ → String} {sink : FileSinkOperator} {base : Query}
    {reduceOp : ReduceSinkDesc} {columns : List SelectColumn} {parent : HiveOperator}
    {fields : List FieldNamePair}
    (hparse : parseOperator D.metadata uuid [0] [.fileSink] sink.parent = .ok [op])
    (horder : sink.parent.belowLimit.orderbyOp = some reduceOp)
    (hop : sink.parent.belowLimit = .select columns parent)
    (hfields : op.out.outputValueFields = some fields)
    (hdescribes : base.Tidy → Describes D op base) :
    Planned D uuid sink (some {
      query := (orderedOut sink reduceOp columns op.out fields).query base
      order := some ((orderFieldsOf sink.fieldSchemas reduceOp).map fun field =>
        (field.1.expr, field.2))
      limit := sink.parent.positiveLimit }) := by
  intro htidy
  have hquery : ((orderedOut sink reduceOp columns op.out fields).query base).Tidy := htidy.query
  have hbase := hdescribes (tidy_of_query hquery)
  have hgen : genOrder sink.fieldSchemas sink.parent.belowLimit reduceOp op =
      .ok (orderFieldsOf sink.fieldSchemas reduceOp,
      op.setOut (orderedOut sink reduceOp columns op.out fields)) := by
    unfold genOrder
    rw [hop, hfields]
    rfl
  cases hlimit : sink.parent.positiveLimit with
  | none =>
    rw [if_neg (by simp)]
    have hset : Describes D (op.setOut (orderedOut sink reduceOp columns op.out fields)) base :=
      hbase.setOut hbase.outputKeyFields
    have hout := out_setOut op (orderedOut sink reduceOp columns op.out fields)
    have hacts := actsOn_belowAction hset (by rw [hout]; exact hquery) (uuid [])
    rw [hout] at hacts
    rw [hlimit] at htidy
    refine ⟨{ action := .topN none (orderFieldsOf sink.fieldSchemas reduceOp)
              child := belowAction (uuid [])
                (op.setOut (orderedOut sink reduceOp columns op.out fields)) },
      fun stack => ?_, results_topN hacts htidy⟩
    rw [FileSinkOperator.parse, hparse]
    simp only [genActionOperator, horder, hgen, hlimit]
    rfl
  | some n =>
    rw [if_pos (by simp)]
    intro stack
    rw [FileSinkOperator.parse, hparse]
    simp only [genActionOperator, horder, hgen, hlimit, withLimit, Action.setLimit, topN_setLimit,
      Option.map_none]

/-- A tree without an extract operator at the top. -/
theorem planned_of_reads {uuid : List ℕ → String} {sink : FileSinkOperator} {query : Query}
    (hparse : parseOperator D.metadata uuid [0] [.fileSink] sink.parent = .ok [op])
    (hreads : Reads D op query)
    (hquery : sink.query D.metadata = some query) :
    Planned D uuid sink (sink.statement D.metadata) := by
  obtain ⟨base, rfl, hbase, hdescribes⟩ := hreads
  rw [FileSinkOperator.statement, hquery, Option.bind_some]
  cases horder : sink.parent.belowLimit.orderbyOp with
  | none =>
    intro htidy
    rw [if_neg (by simp)]
    have hacts :=
      actsOn_belowAction (hdescribes (tidy_of_query htidy.query)) htidy.query (uuid [])
    let planned : ActionOperator :=
      { action := .collect sink.parent.positiveLimit, child := belowAction (uuid []) op }
    refine ⟨planned, fun stack => ?_, results_collect hacts htidy⟩
    rw [FileSinkOperator.parse, hparse]
    exact genActionOperator_collect horder
  | some reduceOp =>
    simp only
    have hselect : (op.out.query base).isSelect = op.out.outputValueFields.isSome :=
      isSelect_query hbase
    cases hfields : op.out.outputValueFields with
    | none =>
      rw [hfields] at hselect
      have hnone :
          sink.orderedStatement reduceOp sink.parent.belowLimit (op.out.query base) = none := by
        cases hq : op.out.query base with
        | select _ _ => rw [hq] at hselect; cases hselect
        | table _ _ | filter _ _ | union _ => cases sink.parent.belowLimit <;> rfl
      have herr : genOrder sink.fieldSchemas sink.parent.belowLimit reduceOp op =
          .error "java.lang.NullPointerException" := by
        unfold genOrder
        rw [hfields]
      rw [hnone]
      exact planned_of_genOrder_error hparse horder herr
    | some fields =>
      cases hop : sink.parent.belowLimit with
      | select columns parent =>
        have hsome := planned_ordered hparse horder hop hfields hdescribes
        have hquery : (orderedOut sink reduceOp columns op.out fields).query base =
            .select ((fieldColumns fields).map (fun col =>
            ((sink.fieldSchemas col.1).getD col.1, col.2)) ++
              (reduceOp.keyCols.filterMap
              (addedField sink.fieldSchemas (columnMapping columns))).map
                fun field => (field.fieldAlias, field.expr)) (op.out.filtered base) := by
          rw [Outputs.query, orderedOut]
          simp only [fieldColumns, List.map_append, List.map_map]
          rfl
        rw [hquery] at hsome
        rw [Outputs.query, hfields]
        exact hsome
      | _ =>
        exact planned_of_genOrder_error hparse horder
          (genOrder_of_noSelect hfields (by simp [hop]))

/-- An extract operator directly below the file sink. -/
theorem planned_of_extract {uuid : List ℕ → String} {sink : FileSinkOperator}
    {signature : List ColumnInfo}
    {parent : HiveOperator} (hparent : sink.parent = .extract signature parent) :
    Planned D uuid sink (sink.statement D.metadata) := by
  have hparsed := parseOperator_parsed D uuid parent [0, 0] [.other, .fileSink] fun hsink => by
      cases hsink
  have hparse : parseOperator D.metadata uuid [0] [.fileSink] sink.parent =
      (parseOperator D.metadata uuid [0, 0] [.other, .fileSink] parent).map fun children =>
        [genExtractPlan (uuid [0]) signature children] := by
    rw [hparent, parseOperator]
    cases parseOperator D.metadata uuid [0, 0] [.other, .fileSink] parent with
    | error err => rfl
    | ok ops => rfl
  have hquery : sink.query D.metadata =
      (parent.query D.metadata [.other, .fileSink]).map
      (Query.renamed (extractNames signature)) := by
    rw [FileSinkOperator.query, hparent]
  rw [FileSinkOperator.statement, hquery]
  cases hbelow : parent.query D.metadata [.other, .fileSink] with
  | none =>
    rw [hbelow] at hparsed
    obtain ⟨err, herr⟩ := hparsed
    exact ⟨err, fun stack => by rw [FileSinkOperator.parse, hparse, herr]; rfl⟩
  | some query =>
    rw [hbelow] at hparsed
    obtain ⟨op, hop, base, rfl, hbase, hdescribes⟩ := hparsed
    rw [hop] at hparse
    have hbelowLimit : sink.parent.belowLimit = .extract signature parent := by rw [hparent]; rfl
    rw [Option.map_some, Option.bind_some]
    cases horder : sink.parent.belowLimit.orderbyOp with
    | some reduceOp =>
      have hnone : sink.orderedStatement reduceOp sink.parent.belowLimit
          ((op.out.query base).renamed (extractNames signature)) = none := by
            rw [hbelowLimit]; rfl
      simp only [hnone]
      exact planned_of_genOrder_error hparse horder rfl
    | none =>
      have hout : (op.extracted signature).out.outputValueFields =
          op.out.outputValueFields.map
          (List.map (FieldNamePair.renamed (extractNames signature))) := by
        rw [IdgsOperator.extracted, out_setOut]
      have hfilter : (op.extracted signature).out.filterExpr = op.out.filterExpr := by
        rw [IdgsOperator.extracted, out_setOut]
      rw [query_renamed hbase hfilter hout]
      intro htidy
      rw [if_neg (by simp)]
      have hset : Describes D (op.extracted signature) base := by
        have hdescribes := hdescribes (tidy_of_query htidy.query)
        exact hdescribes.setOut (by rw [hdescribes.outputKeyFields]; rfl)
      refine ⟨{ action := .collect sink.parent.positiveLimit
                child := .transformer (uuid [0]) .filter [op.extracted signature] {} },
                  fun stack => ?_,
        results_collect (actsOn_transformer hset htidy.query (uuid [0])) htidy⟩
      rw [FileSinkOperator.parse, hparse]
      exact genActionOperator_collect horder

/-- Every query is planned, or not, as the statement that the parser reads says. -/
theorem planned (D : Database V) (uuid : List ℕ → String) (sink : FileSinkOperator) :
    Planned D uuid sink (sink.statement D.metadata) := by
  by_cases hextract : ∃ signature parent, sink.parent = .extract signature parent
  · obtain ⟨signature, parent, hparent⟩ := hextract
    exact planned_of_extract hparent
  · have hparsed :=
      parseOperator_parsed D uuid sink.parent [0] [.fileSink] fun _ signature parent hparent =>
      hextract ⟨signature, parent, hparent⟩
    have hquery : sink.query D.metadata = sink.parent.query D.metadata [.fileSink] := by
      rw [FileSinkOperator.query]
      split
      · rename_i signature parent hparent
        exact absurd ⟨signature, parent, hparent⟩ hextract
      · rfl
    cases hbelow : sink.parent.query D.metadata [.fileSink] with
    | none =>
      rw [hbelow] at hparsed hquery
      obtain ⟨err, herr⟩ := hparsed
      rw [FileSinkOperator.statement, hquery]
      exact ⟨err, fun stack => by rw [FileSinkOperator.parse, herr]⟩
    | some query =>
      rw [hbelow] at hparsed hquery
      obtain ⟨op, hop, hreads⟩ := hparsed
      exact planned_of_reads hop hreads hquery

/-- The statement that the parser reads has a plan, and has no results but those of Hive's tree. -/
def Statement.Sound (D : Database V) (sink : FileSinkOperator) (stmt : Statement) : Prop :=
  ¬ (stmt.order.isSome ∧ stmt.limit.isSome) ∧
    ∀ results, stmt.Results D (sink.resultSchema.map Prod.snd) results → sink.Yields D results

namespace Orders

/-- The store of a table `t` with a key `k` and a value `v`. -/
def cfg : StoreConfig :=
  { name := "t", keyType := { name := "t_key", fields := ["k"] },
    valueType := { name := "t_value", fields := ["v"] } }

/-- A table with one row. -/
def oneRow : Database ℕ where
  const := fun c => c.value.length
  func := fun _ args => args.headD 0
  unset := 0
  isTrue := fun n => n != 0
  reduce := fun _ _ values => values.length
  store := fun _ => [⟨fun _ => 1, fun _ => 2⟩]
  partition := fun _ => 0
  metadata :=
    { getSchemaName := some, getStoreName := fun _ => some, getStoreConfig := fun _ _ => some cfg }
  compareFieldValue := compare
  nodup _ := List.nodup_singleton _

/-- `select v from t`. -/
def selected : HiveOperator :=
  .select
    [{ info := { internalName := "_col0", columnAlias := some "v" }, node := .column "v" .int32 }]
    (.tableScan "default" "t")

/-- `select v from t limit 1`. -/
def limited : FileSinkOperator :=
  { resultSchema := [("_col0", "v")], rowResolver := [("_col0", "v")], parent := .limit 1 selected }

/-- `select v from t order by v limit 1`, as Hive plans it. -/
def ordered : FileSinkOperator where
  resultSchema := [("_col0", "v")]
  rowResolver := [("_col0", "v")]
  parent := .limit 1 (.select
    [{ info := { internalName := "_col0", columnAlias := some "v" }
       node := .column "KEY.reducesinkkey0" .int32 }]
    (.reduceSink
      { order := ['+'], keyCols := [("reducesinkkey0", .column "_col0" .int32)], valueCols := [] }
      selected))

end Orders

end Idgs.Sql
