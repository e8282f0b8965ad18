import Mathlib.Data.List.Dedup
import Mathlib.Data.List.ProdSigma
import Idgs.Sql.Plan

/-!
# Where no repartition is planned

A group-by and a join leave out the group transformer for an input of which `isReuseKey` says that
its rows lie by the key already. It compares names; what the names stand for is traced here through
the plan, with terms over the cells of a row in place of values.
-/

namespace Idgs.Sql

open List

open Common (Term)

namespace IdgsOperator

/-- The loop that compares key fields with the key expressions. -/
def columnsAre (names : List String) (keys : List ExprNodeDesc) : Bool :=
  decide (names.length = keys.length) && (names.zip keys).all fun
    | (name, .column column _) => decide (name = column)
    | _ => false

/-- `OperatorParser.isReuseKey`. -/
def isReuseKey : IdgsOperator → List ExprNodeDesc → Bool
  | .delegate _ keyType _ _, keys => columnsAre keyType.fields keys
  | .transformer _ _ children out, keys =>
    match out.outputKeyFields with
    | some keyFields => columnsAre (keyFields.map FieldNamePair.fieldAlias) keys
    | none =>
      match children with
      | [child] => child.isReuseKey keys
      | _ => false

section Skippable

variable {V : Type*} [DecidableEq V] (E : Env V) (op : IdgsOperator) (keys : List ExprNodeDesc)

/-- The groups that the partitions of the output have. -/
def groups : List (ℕ × List V) :=
  ((op.outputRows E).map fun x => (x.partition, op.valuesOf E.toFunctions keys x.row)).dedup

/-- The pairs of an output row and a row of another input with the same key. -/
def matchingPairs {W : Type*} (others : List (List V × W)) : List (Placed V × List V × W) :=
  (op.outputRows E ×ˢ others).filter fun p => op.valuesOf E.toFunctions keys p.1.row = p.2.1

/-- Those that lie in one partition, when the other input is repartitioned by its key. -/
def metPairs {W : Type*} (others : List (List V × W)) : List (Placed V × List V × W) :=
  (op.matchingPairs E keys others).filter fun p => p.1.partition = E.partition p.2.1

/-- The output can be grouped and joined by the keys where it lies. -/
structure Skippable : Prop where
  samePartition : ∀ x ∈ op.outputRows E, ∀ y ∈ op.outputRows E,
    op.valuesOf E.toFunctions keys x.row = op.valuesOf E.toFunctions keys y.row →
    x.partition = y.partition
  groupsOnce : ((op.groups E keys).map Prod.snd).Nodup
  pairsMet : ∀ others : List (List V × Unit), op.metPairs E keys others =
    op.matchingPairs E keys others

end Skippable

/-- A repartition that `isReuseKey` saves is not missed, whatever the rows and the expressions
are. -/
def ReuseSound (op : IdgsOperator) (keys : List ExprNodeDesc) : Prop :=
  op.isReuseKey keys = true → ∀ (V : Type) [DecidableEq V] (E : Env V), op.Skippable E keys

end IdgsOperator

/-! ## Terms in place of values -/

/-- A cell that a term can have as a variable. -/
inductive Cell
  | unset
  | key (name : String)
  | value (name : String)
deriving DecidableEq

/-- A value as an expression over the cells of a row. -/
abbrev CellTerm := Term Const String Cell

/-- What a cell is in a row. -/
def Cells.get {V : Type*} (F : Functions V) (cells : Cells V) : Cell → V
  | .unset => F.unset
  | .key name => cells.key name
  | .value name => cells.value name

/-- The value of a term. -/
def CellTerm.eval {V : Type*} (F : Functions V) (cells : Cells V) (t : CellTerm) : V :=
  Term.eval F.toMeaning (cells.get F) t

/-- Expressions that build terms; every filter lets everything through. -/
def symbolic : Functions CellTerm where
  toMeaning := Term.free Const String Cell
  unset := .var .unset
  isTrue := fun _ => true
  reduce := fun _ _ _ => .var .unset

/-- A row of terms, and the terms of the key that the row was last placed by. -/
structure Trace where
  home : List CellTerm
  row : Row CellTerm

namespace Trace

/-- A row whose cells are placed by a key with these fields. -/
def placedBy (names : List String) : Trace where
  home := names.map fun name => .var (.key name)
  row :=
    { key := names.map fun name => (name, .var (.key name))
      value := fun name => some (.var (.value name)) }

/-- Rows of several inputs that all lie by the values of their keys have new cells, placed by the
key. -/
def rekeyed : List Trace → Option Trace
  | [] => none
  | t :: ts =>
    if (t.row.key.map Prod.fst).Nodup ∧
        ∀ s ∈ t :: ts, s.row.keyValues = s.home ∧
        s.row.key.map Prod.fst = t.row.key.map Prod.fst then
      some (placedBy (t.row.key.map Prod.fst))
    else none

end Trace

/-- What a transformer does to the traces of its inputs. -/
def Transformer.trace : Transformer → List Trace → Option Trace
  | .filter, [t] => some t
  | .group, [t] => some { t with home := t.row.keyValues }
  | .reduceByKey _, [t] => Trace.rekeyed [t]
  | .hashJoin _, ts => Trace.rekeyed ts
  | _, _ => none

namespace IdgsOperator

mutual
/-- The trace of the rows of an operator's RDD. -/
def trace : IdgsOperator → Option Trace
  | .delegate _ keyType _ _ => some (Trace.placedBy keyType.fields)
  | .transformer _ op children _ => (outputTraces children children).bind op.trace
/-- The traces of what a transformer with the children `all` reads. -/
def outputTraces (all : List IdgsOperator) : List IdgsOperator → Option (List Trace)
  | [] => some []
  | child :: children =>
    (trace child).bind fun t =>
      (outputTraces all children).map fun ts =>
      { t with row := outRow symbolic all child t.row } :: ts
end

/-- The key expressions stand for the very fields of the key that the rows were last placed by. -/
def carriesKey (op : IdgsOperator) (keys : List ExprNodeDesc) : Bool :=
  match op.trace with
  | none => false
  | some t => decide (op.valuesOf symbolic keys t.row = t.home)

end IdgsOperator

/-! ## Rows described by terms -/

section Describes

variable {V : Type*} {F : Functions V} {cells : Cells V}

/-- A row of values is what a row of terms says of some cells. -/
structure Row.Instance (F : Functions V) (cells : Cells V) (s : Row CellTerm) (r : Row V) :
    Prop where
  key : r.key = s.key.map (Prod.map id (CellTerm.eval F cells))
  value : ∀ name, (r.value name).getD F.unset =
    CellTerm.eval F cells ((s.value name).getD (.var .unset))

theorem lookup_map_snd {α β : Type*} (f : α → β) (l : List (String × α)) (name : String) :
    (l.map (Prod.map id f)).lookup name = (l.lookup name).map f := by
  induction l with
  | nil => rfl
  | cons p l ih =>
    obtain ⟨key, a⟩ := p
    simp only [map_cons, Prod.map_apply, id, lookup_cons, ih]
    cases name == key <;> rfl

section

variable {s : Row CellTerm} {r : Row V} (h : Row.Instance F cells s r)

include h

theorem Row.Instance.keyValues :
    r.keyValues = s.keyValues.map (CellTerm.eval F cells) := by
  rw [Row.keyValues, Row.keyValues, h.key, map_map, map_map]
  rfl

theorem Row.Instance.extract (name : String) :
    r.extract F name = CellTerm.eval F cells (s.extract symbolic name) := by
  rw [Row.extract, Row.extract, h.key, lookup_map_snd]
  cases s.key.lookup name with
  | none => exact h.value name
  | some t => rfl

/-- An expression over the row has the value of the term that it makes of the terms of the row. -/
theorem Row.Instance.eval (e : Expr) :
    e.eval F.toMeaning (r.extract F) =
      CellTerm.eval F cells (e.eval symbolic.toMeaning (s.extract symbolic)) := by
  rw [show r.extract F = fun name =>
    CellTerm.eval F cells (s.extract symbolic name) from funext h.extract]
  exact (Term.eval_free F.toMeaning (cells.get F) (s.extract symbolic) e).symm

end

namespace IdgsOperator

section

variable {s : Row CellTerm} {r : Row V} (h : Row.Instance F cells s r)

include h

theorem fillMessage_of_instance (outFields : List FieldNamePair) (names : List String) :
    fillMessage F r outFields names =
      (fillMessage symbolic s outFields names).map (Prod.map id (CellTerm.eval F cells)) := by
  rw [fillMessage, fillMessage, map_filterMap]
  congr 1
  funext name
  cases outFields.find? fun field => field.fieldAlias = name with
  | none => rfl
  | some field => exact congrArg (fun v => some (name, v)) (h.eval field.expr)

/-- The output of an instance is an instance of the output. -/
theorem outRow_instance (children : List IdgsOperator) (child : IdgsOperator) :
    Row.Instance F cells (outRow symbolic children child s) (outRow F children child r) := by
  constructor
  · simp only [outRow, outKey]
    split
    · exact h.key
    · exact fillMessage_of_instance h _ _
  · intro name
    simp only [outRow, outValue]
    split
    · exact h.value name
    · rw [fillMessage_of_instance h]
      dsimp only
      rw [lookup_map_snd]
      cases List.lookup name _ with
      | none => rfl
      | some t => rfl

/-- Key expressions over the output have the values of their terms. -/
theorem valuesOf_of_instance (op : IdgsOperator) (keys : List ExprNodeDesc) :
    op.valuesOf F keys r = (op.valuesOf symbolic keys s).map (CellTerm.eval F cells) := by
  rw [valuesOf, valuesOf, map_map]
  refine map_congr_left fun node _ => ?_
  have hcolumn : (fun name => (op.column name).eval F.toMeaning (r.extract F)) =
      fun name =>
      CellTerm.eval F cells ((op.column name).eval symbolic.toMeaning (s.extract symbolic)) :=
    funext fun name => h.eval (op.column name)
  rw [hcolumn]
  exact (Term.eval_free F.toMeaning (cells.get F) _ _).symm

end

end IdgsOperator

end Describes

namespace Trace

variable {V : Type*} {E : Env V}

/-- What a trace says of a row: some cells make the row of its terms, and its partition of its
home. -/
def Describes (E : Env V) (t : Trace) (x : Placed V) : Prop :=
  ∃ cells : Cells V, Row.Instance E.toFunctions cells t.row x.row ∧
    x.partition = E.partition (t.home.map (CellTerm.eval E.toFunctions cells))

/-- A row lies by its key, which has fields of these names. -/
structure Keyed (E : Env V) (names : List String) (x : Placed V) : Prop where
  names : x.row.key.map Prod.fst = names
  partition : x.partition = E.partition x.row.keyValues

theorem Describes.keyed {t : Trace} {x : Placed V} (h : t.Describes E x)
    (hhome : t.row.keyValues = t.home) :
    Keyed E (t.row.key.map Prod.fst) x := by
  obtain ⟨cells, hrow, hpartition⟩ := h
  refine ⟨?_, ?_⟩
  · rw [hrow.key, map_map]
    rfl
  · rw [hpartition, hrow.keyValues, hhome]

/-- Fields with different names are read by their names. -/
theorem eq_map_lookup (u : V) {l : List (String × V)} (h : (l.map Prod.fst).Nodup) :
    l = (l.map Prod.fst).map fun name => (name, (l.lookup name).getD u) := by
  induction l with
  | nil => rfl
  | cons p l ih =>
    rw [map_cons, nodup_cons] at h
    rw [map_cons, map_cons, lookup_cons, beq_self_eq_true, Option.getD_some]
    congr 1
    refine (ih h.2).trans (map_congr_left fun name hname => ?_)
    have hne : name ≠ p.1 := fun heq => h.1 (heq ▸ hname)
    rw [lookup_cons, beq_false_of_ne hne]

/-- Rows whose key consists of cells that they are placed by. -/
theorem placedBy_describes {names : List String} {cells : Cells V} {x : Placed V}
    (hkey : x.row.key = names.map fun name => (name, cells.key name))
    (hvalue : ∀ name, (x.row.value name).getD E.unset = cells.value name)
    (hpartition : x.partition = E.partition (names.map cells.key)) :
    (placedBy names).Describes E x := by
  refine ⟨cells, ⟨?_, hvalue⟩, ?_⟩
  · rw [hkey]
    simp only [placedBy, map_map]
    exact map_congr_left fun name _ => rfl
  · rw [hpartition]
    simp only [placedBy, map_map]
    exact congrArg E.partition (map_congr_left fun name _ => rfl)

/-- A row that lies by its key is one with new cells. -/
theorem Keyed.describes {names : List String} {x : Placed V} (h : Keyed E names x)
    (hnodup : names.Nodup) :
    (placedBy names).Describes E x := by
  obtain ⟨rfl, hpartition⟩ := h
  have hkey := eq_map_lookup E.unset hnodup
  let cells : Cells V := ⟨fun name => (x.row.key.lookup name).getD E.unset,
    fun name => (x.row.value name).getD E.unset⟩
  have hkey' : x.row.key = (x.row.key.map Prod.fst).map fun name => (name, cells.key name) := hkey
  refine placedBy_describes hkey' (fun name => rfl) ?_
  rw [hpartition]
  refine congrArg E.partition ?_
  conv_lhs => rw [Row.keyValues, hkey]
  rw [map_map]
  rfl

theorem rekeyed_eq_some {ts : List Trace} {t : Trace} (h : rekeyed ts = some t) :
    ∃ names, names.Nodup ∧ t = placedBy names ∧
      ∀ s ∈ ts, s.row.keyValues = s.home ∧ s.row.key.map Prod.fst = names := by
  cases ts with
  | nil => cases h
  | cons s ts =>
    rw [rekeyed] at h
    split at h
    · rename_i hall
      exact ⟨_, hall.1, (Option.some.inj h).symm, hall.2⟩
    · cases h

end Trace

/-! ## The rows of a transformer -/

section Transformers

open Trace (Keyed)

variable {V : Type*} [DecidableEq V] {E : Env V} {names : List String}

theorem mem_groupOf {inputs : List (Input V)} {group : ℕ × List V} {x : Input V}
    (h : x ∈ Transformer.groupOf inputs group) : x ∈ inputs := (mem_filter.mp h).1

/-- A group lies where its last row lies, under the same key. -/
theorem keyed_reduceRows (fields : List ReduceByKeyField) {inputs : List (Input V)}
    (h : ∀ x ∈ inputs, Keyed E names x.toPlaced) :
    ∀ x ∈ Transformer.reduceRows E.toFunctions fields inputs, Keyed E names x := by
  intro x hx
  obtain ⟨group, -, hgroup⟩ := mem_filterMap.mp hx
  obtain ⟨last, hlast, rfl⟩ := Option.map_eq_some_iff.mp hgroup
  have hkeyed := h last (mem_groupOf (mem_of_getLast? hlast))
  exact ⟨hkeyed.names, hkeyed.partition⟩

omit [DecidableEq V] in
/-- A joined row lies where the row of the later input lies, under its key. -/
theorem keyed_joinRow {x y : Input V} (hpartition : x.partition = y.partition)
    (h : Keyed E names y.toPlaced) :
    Keyed E names (Transformer.joinRow x y).toPlaced :=
  ⟨h.names, hpartition.trans h.partition⟩

theorem keyed_joinNext (joinType : Rdd.JoinType) {xs ys : List (Input V)}
    (hxs : ∀ x ∈ xs, Keyed E names x.toPlaced) (hys : ∀ y ∈ ys, Keyed E names y.toPlaced) :
    ∀ z ∈ Transformer.joinNext joinType xs ys, Keyed E names z.toPlaced := by
  intro z hz
  rw [Transformer.joinNext, mem_append, mem_append] at hz
  obtain (hz | hz) | hz := hz
  · obtain ⟨x, -, hz⟩ := mem_flatMap.mp hz
    obtain ⟨y, hy, rfl⟩ := mem_map.mp hz
    obtain ⟨hy, hmeets⟩ := mem_filter.mp hy
    exact keyed_joinRow (of_decide_eq_true hmeets).1 (hys y hy)
  · split at hz
    · cases hz
    · exact hxs z (mem_filter.mp hz).1
  · split at hz
    · exact hys z (mem_filter.mp hz).1
    · cases hz

theorem keyed_foldl_joinNext (joinType : Rdd.JoinType) {inputs : List (List (Input V))}
    {xs : List (Input V)} (hxs : ∀ x ∈ xs, Keyed E names x.toPlaced)
    (h : ∀ ys ∈ inputs, ∀ y ∈ ys, Keyed E names y.toPlaced) :
    ∀ z ∈ inputs.foldl (Transformer.joinNext joinType) xs, Keyed E names z.toPlaced := by
  induction inputs generalizing xs with
  | nil => exact hxs
  | cons ys inputs ih =>
    exact ih (keyed_joinNext joinType hxs (h ys mem_cons_self)) fun zs hzs =>
      h zs (mem_cons_of_mem _ hzs)

/-- The traces describe what the inputs of a transformer have. -/
def Described (E : Env V) (ts : List Trace) (inputs : List (List (Input V))) : Prop :=
  List.Forall₂ (fun t xs => ∀ x ∈ xs, t.Describes E (Input.toPlaced x)) ts inputs

omit [DecidableEq V] in
theorem Described.keyed {ts : List Trace} {inputs : List (List (Input V))}
    (h : Described E ts inputs)
    (hts : ∀ t ∈ ts, t.row.keyValues = t.home ∧ t.row.key.map Prod.fst = names) :
    ∀ xs ∈ inputs, ∀ x ∈ xs, Keyed E names (Input.toPlaced x) := by
  induction h with
  | nil => exact fun xs hxs => absurd hxs not_mem_nil
  | cons hdescribes _ ih =>
    intro xs hxs x hx
    obtain rfl | hxs := mem_cons.mp hxs
    · obtain ⟨hhome, rfl⟩ := hts _ mem_cons_self
      exact (hdescribes x hx).keyed hhome
    · exact ih (fun t ht => hts t (mem_cons_of_mem _ ht)) xs hxs x hx

/-- The rows of a transformer are described when those of its inputs are. -/
theorem Described.transform {op : Transformer} {ts : List Trace} {t : Trace}
    {inputs : List (List (Input V))} (h : Described E ts inputs) (ht : op.trace ts = some t) :
    ∀ x ∈ op.transform E inputs, t.Describes E x := by
  cases op with
  | filter =>
    cases h with
    | nil => cases ht
    | cons hdescribes h => cases h with
      | cons => cases ht
      | nil =>
        cases ht
        intro x hx
        obtain ⟨y, hy, rfl⟩ := mem_map.mp hx
        rw [flatten_cons, flatten_nil, append_nil] at hy
        exact hdescribes y hy
  | group =>
    cases h with
    | nil => cases ht
    | cons hdescribes h => cases h with
      | cons => cases ht
      | nil =>
        cases ht
        intro x hx
        obtain ⟨y, hy, rfl⟩ := mem_map.mp hx
        rw [flatten_cons, flatten_nil, append_nil] at hy
        obtain ⟨cells, hrow, -⟩ := hdescribes y hy
        exact ⟨cells, hrow, congrArg E.partition hrow.keyValues⟩
  | reduceByKey fields =>
    cases h with
    | nil => cases ht
    | cons hdescribes h => cases h with
      | cons => cases ht
      | nil =>
        obtain ⟨names, hnodup, rfl, hts⟩ :=
          Trace.rekeyed_eq_some (show Trace.rekeyed [_] = some t from ht)
        have hkeyed := Described.keyed (.cons hdescribes .nil) hts
        refine fun x hx => (keyed_reduceRows fields ?_ x hx).describes hnodup
        intro y hy
        obtain ⟨xs, hxs, hy⟩ := mem_flatten.mp hy
        exact hkeyed xs hxs y hy
  | hashJoin joinType =>
    obtain ⟨names, hnodup, rfl, hts⟩ := Trace.rekeyed_eq_some ht
    have hkeyed := h.keyed hts
    cases inputs with
    | nil => exact fun x hx => absurd hx not_mem_nil
    | cons xs inputs =>
      intro x hx
      obtain ⟨y, hy, rfl⟩ := mem_map.mp hx
      exact (keyed_foldl_joinNext joinType (hkeyed xs mem_cons_self)
        (fun ys hys => hkeyed ys (mem_cons_of_mem _ hys)) y hy).describes hnodup

end Transformers

namespace IdgsOperator

variable {V : Type*} [DecidableEq V]

omit [DecidableEq V] in
theorem input_eq_some {F : Functions V} {all : List IdgsOperator} {child : IdgsOperator}
    {x : Placed V} {y : Input V} (h : input F all child x = some y) :
    y.partition = x.partition ∧ y.row = outRow F all child x.row := by
  rw [input] at h
  split at h
  · obtain rfl := Option.some.inj h
    exact ⟨rfl, rfl⟩
  · cases h

mutual
/-- The trace of an operator describes every row of its RDD. -/
theorem trace_describes (E : Env V) :
    ∀ (op : IdgsOperator) {t : Trace}, op.trace = some t → ∀ x ∈ op.rows E, t.Describes E x
  | .delegate storeName keyType _ _, t, ht => by
      rw [trace, Option.some.injEq] at ht
      subst ht
      intro x hx
      rw [rows] at hx
      obtain ⟨cells, -, rfl⟩ := mem_map.mp hx
      exact Trace.placedBy_describes rfl (fun name => rfl) rfl
  | .transformer _ op children _, t, ht => by
      rw [trace] at ht
      obtain ⟨ts, hts, ht⟩ := Option.bind_eq_some_iff.mp ht
      rw [rows]
      exact (outputTraces_described E children children hts).transform ht
theorem outputTraces_described (E : Env V) (all : List IdgsOperator) :
    ∀ (children : List IdgsOperator) {ts : List Trace},
      outputTraces all children = some ts → Described E ts (inputs E all children)
  | [], ts, hts => by
      rw [outputTraces, Option.some.injEq] at hts
      subst hts
      exact .nil
  | child :: children, ts, hts => by
      rw [outputTraces] at hts
      obtain ⟨t, ht, hts⟩ := Option.bind_eq_some_iff.mp hts
      obtain ⟨ts, hchildren, rfl⟩ := Option.map_eq_some_iff.mp hts
      rw [inputs]
      refine .cons (fun x hx => ?_) (outputTraces_described E all children hchildren)
      obtain ⟨y, hy, hx⟩ := mem_filterMap.mp hx
      obtain ⟨hpartition, hrow⟩ := input_eq_some hx
      obtain ⟨cells, hinstance, hhome⟩ := trace_describes E child ht y hy
      exact ⟨cells, hrow ▸ outRow_instance hinstance all child, hpartition.trans hhome⟩
end

/-- A row of which the key expressions stand for the key that it was placed by lies where they send
it. -/
theorem partition_of_carriesKey {op : IdgsOperator} {keys : List ExprNodeDesc}
    (h : op.carriesKey keys = true) (E : Env V) {x : Placed V} (hx : x ∈ op.rows E) :
    x.partition = E.partition (op.valuesOf E.toFunctions keys x.row) := by
  rw [carriesKey] at h
  split at h
  · cases h
  · rename_i t ht
    obtain ⟨cells, hrow, hpartition⟩ := trace_describes E op ht x hx
    rw [hpartition, valuesOf_of_instance hrow, of_decide_eq_true h]

section Sound

variable {E : Env V} {op : IdgsOperator} {keys : List ExprNodeDesc}

/-- Rows that lie where the key expressions send them can be grouped and joined there. -/
theorem skippable_of_partition
    (h : ∀ x ∈ op.outputRows E, x.partition = E.partition (op.valuesOf E.toFunctions keys x.row)) :
    op.Skippable E keys := by
  constructor
  · intro x hx y hy heq
    rw [h x hx, h y hy, heq]
  · refine (nodup_dedup _).map_on fun g hg g' hg' heq => Prod.ext ?_ heq
    obtain ⟨x, hx, rfl⟩ := mem_map.mp (mem_dedup.mp hg)
    obtain ⟨y, hy, rfl⟩ := mem_map.mp (mem_dedup.mp hg')
    exact (h x hx).trans ((congrArg E.partition heq).trans (h y hy).symm)
  · intro others
    refine filter_eq_self.mpr fun p hp => decide_eq_true ?_
    obtain ⟨hmem, hkey⟩ := mem_filter.mp hp
    rw [h p.1 (mem_product.mp hmem).1, of_decide_eq_true hkey]

/-- Conversely, a row meets a repartitioned row with its key only there. -/
theorem Skippable.partition (h : op.Skippable E keys) {x : Placed V} (hx : x ∈ op.outputRows E) :
    x.partition = E.partition (op.valuesOf E.toFunctions keys x.row) := by
  have hmatch : (x, op.valuesOf E.toFunctions keys x.row, ()) ∈
      op.matchingPairs E keys [(op.valuesOf E.toFunctions keys x.row, ())] :=
    mem_filter.mpr ⟨mem_product.mpr ⟨hx, mem_singleton_self _⟩, decide_eq_true rfl⟩
  rw [← h.pairsMet] at hmatch
  exact of_decide_eq_true (mem_filter.mp hmatch).2

end Sound

/-! ## Chains -/

/-- A store with filters, selections and repartitions above it. -/
def isChain : IdgsOperator → Bool
  | .delegate _ _ _ _ => true
  | .transformer _ .filter [child] _ => child.isChain
  | .transformer _ .group [child] _ => child.isChain
  | .transformer _ _ _ _ => false

/-- Stores with one row, of its own cells. -/
def symbolicEnv (partition : List CellTerm → ℕ) : Env CellTerm where
  toFunctions := symbolic
  store := fun _ =>
    [{ key := fun name => .var (.key name), value := fun name => .var (.value name) }]
  partition := partition

theorem passes_symbolic (op : IdgsOperator) (row : Row CellTerm) :
    op.passes symbolic row = true := by
  rw [passes]
  split <;> rfl

theorem filterMap_input_symbolicEnv (partition : List CellTerm → ℕ) (child : IdgsOperator)
    (x : Placed CellTerm) :
    [x].filterMap (input (symbolicEnv partition).toFunctions [child] child) =
      [{ partition := x.partition
         row := outRow symbolic [child] child x.row
         rddKey := x.row.keyValues }] := by
  have hpasses : child.passes (symbolicEnv partition).toFunctions x.row = true :=
    passes_symbolic child x.row
  rw [filterMap_cons, filterMap_nil, input, if_pos hpasses]
  rfl

/-- The one row of a chain is the row of its trace, which lies by the home of the trace. -/
theorem rows_symbolicEnv (partition : List CellTerm → ℕ) (op : IdgsOperator)
    (hchain : op.isChain = true) :
    ∃ t, op.trace = some t ∧
      op.rows (symbolicEnv partition) = [{ partition := partition t.home, row := t.row }] := by
  fun_induction isChain op with
  | case1 storeName keyType valueType out =>
    refine ⟨_, rfl, ?_⟩
    simp only [rows, symbolicEnv, map_cons, map_nil, Trace.placedBy]
  | case2 rddName child out ih =>
    obtain ⟨t, ht, hrows⟩ := ih hchain
    refine ⟨{ t with row := outRow symbolic [child] child t.row }, ?_, ?_⟩
    · simp only [trace, outputTraces, ht, Option.bind_some, Option.map_some, Transformer.trace]
    · rw [rows, inputs, inputs, hrows, filterMap_input_symbolicEnv]
      rfl
  | case3 rddName child out ih =>
    obtain ⟨t, ht, hrows⟩ := ih hchain
    refine ⟨⟨(outRow symbolic [child] child t.row).keyValues,
      outRow symbolic [child] child t.row⟩, ?_, ?_⟩
    · simp only [trace, outputTraces, ht, Option.bind_some, Option.map_some, Transformer.trace]
    · rw [rows, inputs, inputs, hrows, filterMap_input_symbolicEnv]
      rfl
  | case4 => cases hchain

/-- A repartition can be saved for a chain whatever its values are only if the key expressions stand
for the key that the rows were placed by. -/
theorem carriesKey_of_skippable {op : IdgsOperator} {keys : List ExprNodeDesc}
    (hchain : op.isChain = true)
    (h : ∀ partition, op.Skippable (symbolicEnv partition) keys) : op.carriesKey keys = true := by
  obtain ⟨t, ht, -⟩ := rows_symbolicEnv (fun _ => 0) op hchain
  have hrows : ∀ partition, op.rows (symbolicEnv partition) =
      [{ partition := partition t.home, row := t.row }] := by
    intro partition
    obtain ⟨t', ht', hrows⟩ := rows_symbolicEnv partition op hchain
    obtain rfl := Option.some.inj (ht.symm.trans ht')
    exact hrows
  -- the partition of the home differs from that of every other key
  have hpartition := (h fun key => if key = t.home then 0 else 1).partition
    (x := { partition := _, row := t.row })
    (mem_filter.mpr ⟨hrows _ ▸ mem_singleton_self _, passes_symbolic op t.row⟩)
  rw [carriesKey, ht]
  refine decide_eq_true ?_
  by_contra hne
  simp only [symbolicEnv, if_pos, if_neg hne] at hpartition
  exact absurd hpartition Nat.zero_ne_one

namespace Regroup

/-- A field that is a column. -/
def field (name column : String) : FieldNamePair :=
  { fieldAlias := name, fieldType := .int32, expr := .var column }

/-- A store as an input of the join on its column `a`. -/
def joinInput (storeName column : String) : IdgsOperator :=
  .transformer ("group_" ++ storeName) .group
    [.delegate storeName { name := storeName ++ "_key", fields := ["id"] }
      { name := storeName, fields := ["a"] }
      { outputKeyFields := some [field "reducesinkkey0" "a"],
        outputValueFields := some [field column "a"] }]
    { outputKeyFields := some [field "reducesinkkey0" "reducesinkkey0"],
      outputValueFields := some [field column column] }

/-- `select count(*) as c, j.a from (x join y on x.a = y.a) j group by j.a`, the count put first. -/
def countPlan : IdgsOperator :=
  .transformer "reduceByKey"
    (.reduceByKey [{ fieldAlias := "_col1", type := "COUNT", distinct := false }])
    [.transformer "group" .group
      [.transformer "join" (.hashJoin .innerJoin) [joinInput "x" "_col0", joinInput "y" "_col4"]
        { outputKeyFields := some [field "_col0" "_col0"],
          outputValueFields := some [field "_col1" "_col4"] }]
      { outputValueFields := some [field "_col1" "_col1"] }]
    { outputValueFields := some [field "_col0" "_col1", field "_col1" "_col0"] }

/-- Numbers as values; one partition for the odd keys and one for the even ones. -/
def numbers : Env ℕ where
  const := fun c => c.value.length
  func := fun _ args => args.headD 0
  unset := 0
  isTrue := fun n => n != 0
  reduce := fun _ _ values => values.length
  store := fun _ => [⟨fun _ => 1, fun _ => 1⟩, ⟨fun _ => 2, fun _ => 2⟩]
  partition := fun key => key.headD 0 % 2

end Regroup

end IdgsOperator

end Idgs.Sql
