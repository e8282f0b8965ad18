import Idgs.Common.Kleene
import Idgs.Expr.Evaluation
import Idgs.Sql.ExprFactory

/-!
# Predicates of the front end

Predicates over the columns of a row, their three-valued meaning in SQL, and what the engine makes
of them. The engine knows two truth values: it reads a field that is not set as the default of its
type, it has no comparison of truth values, and it sees that a value is null only where the value is
that of a field. It keeps the rows of which SQL says so for the predicate with these differences
written out.
-/

namespace Idgs.Sql

open List

open Common (Kleene.not Kleene.and Kleene.or Kleene.all Kleene.any)
open Expr
  (CompareOp Expression ExpressionClass ExpressionContext ParsedField PbVariant RowType Value
  VariantType build
  buildAll constValue evaluate parseField)

/-! ## Predicates -/

/-- A constant of a predicate. -/
inductive Literal
  | int (v : Int32)
  | bigint (v : Int64)
  | string (v : String)
  | boolean (v : Bool)

namespace Literal

/-- The value of a constant. -/
def value : Literal → Value
  | .int v => .int32 v
  | .bigint v => .int64 v
  | .string v => .string v
  | .boolean v => .bool v

/-- The constant's text and type, as Hive gives them. -/
def hive : Literal → String × DataType
  | .int v => (toString v.toInt, .int32)
  | .bigint v => (toString v.toInt, .int64)
  | .string v => (v, .string)
  | .boolean v => (if v then "true" else "false", .bool)

/-- The engine reads the value that the constant has. -/
theorem constValue_hive (l : Literal) :
    constValue { value := l.hive.1, constType := some l.hive.2 } = some l.value := by
  cases l with
  | int v => exact congrArg (Option.map Value.int32) (Expr.stoi_toString v)
  | bigint v => exact congrArg (Option.map Value.int64) (Expr.stol_toString v)
  | string v => rfl
  | boolean v => cases v <;> decide

end Literal

/-- A predicate, or an operand of one. -/
inductive Predicate
  | column (name : String) (typeInfo : DataType)
  | literal (l : Literal)
  | compare (op : CompareOp) (l r : Predicate)
  | between (isNot : Bool) (x lo hi : Predicate)
  | inList (x : Predicate) (xs : List Predicate)
  | isNull (x : Predicate)
  | isNotNull (x : Predicate)
  | and (ps : List Predicate)
  | or (ps : List Predicate)
  | not (p : Predicate)

/-- The function of Hive that compares. -/
def comparison : CompareOp → GenericUDF
  | .lt => .opLessThan
  | .le => .opEqualOrLessThan
  | .eq => .opEqual
  | .gt => .opGreaterThan
  | .ge => .opEqualOrGreaterThan
  | .ne => .opNotEqual

namespace Predicate

mutual
/-- The predicate as an expression of Hive. The first argument of `BETWEEN` says whether it is
negated. -/
def hive : Predicate → HiveExpr
  | .column name typeInfo => .var (name, typeInfo)
  | .literal l => .const l.hive
  | .compare op l r => .func (comparison op, .bool) [hive l, hive r]
  | .between isNot x lo hi =>
    .func (.between, .bool) [.const (Literal.boolean isNot).hive, hive x, hive lo, hive hi]
  | .inList x xs => .func (.in, .bool) (hive x :: hiveAll xs)
  | .isNull x => .func (.opNull, .bool) [hive x]
  | .isNotNull x => .func (.opNotNull, .bool) [hive x]
  | .and ps => .func (.opAnd, .bool) (hiveAll ps)
  | .or ps => .func (.opOr, .bool) (hiveAll ps)
  | .not p => .func (.opNot, .bool) [hive p]
/-- Some predicates as expressions. -/
def hiveAll : List Predicate → List HiveExpr
  | [] => []
  | p :: ps => hive p :: hiveAll ps
end

mutual
/-- The type of a predicate over columns of the given types, if its operands have the types that
they must have. -/
def typeOf (types : String → Option VariantType) : Predicate → Option VariantType
  | .column name _ => types name
  | .literal l => some l.value.type
  | .compare _ l r =>
    if (typeOf types l).isSome ∧ typeOf types l = typeOf types r then some .bool else none
  | .between _ x lo hi =>
    if (typeOf types x).isSome ∧ typeOf types x = typeOf types lo ∧ typeOf types x = typeOf types
      hi then
      some .bool
    else none
  | .inList x xs => if (typeOf types x).isSome ∧ allOfType types (typeOf types x) xs then some .bool
      else none
  | .isNull x => (typeOf types x).map fun _ => .bool
  | .isNotNull x => (typeOf types x).map fun _ => .bool
  | .and ps => if allOfType types (some .bool) ps then some .bool else none
  | .or ps => if allOfType types (some .bool) ps then some .bool else none
  | .not p => if typeOf types p = some .bool then some .bool else none
/-- Whether some predicates are all of a type. -/
def allOfType (types : String → Option VariantType) (t : Option VariantType) : List Predicate → Bool
  | [] => true
  | p :: ps => typeOf types p = t && allOfType types t ps
end

attribute [simp] typeOf allOfType

end Predicate

/-! ## The meaning in SQL -/

/-- A comparison of two values of one type. -/
def test (op : CompareOp) : Value → Value → Bool
  | .int32 a, .int32 b => op.test a b
  | .int64 a, .int64 b => op.test a b
  | .uint32 a, .uint32 b => op.test a b
  | .uint64 a, .uint64 b => op.test a b
  | .bool a, .bool b => op.test a b
  | .string a, .string b => op.test a b
  | _, _ => false

/-- A comparison with null is unknown. -/
def sqlCompare (op : CompareOp) (a b : Option Value) : Option Bool :=
  a.bind fun a => b.map fun b => test op a b

/-- The truth of a value. -/
def truth : Option Value → Option Bool
  | some (.bool b) => some b
  | _ => none

/-- A truth as a value: what is unknown is null. -/
def ofTruth (a : Option Bool) : Option Value := a.map .bool

namespace Predicate

mutual
/-- The value of a predicate on a row, where `none` is null. -/
def sqlEval (row : String → Option Value) : Predicate → Option Value
  | .column name _ => row name
  | .literal l => some l.value
  | .compare op l r => ofTruth (sqlCompare op (sqlEval row l) (sqlEval row r))
  | .between isNot x lo hi =>
    let within := Kleene.and (sqlCompare .ge (sqlEval row x) (sqlEval row lo))
      (sqlCompare .le (sqlEval row x) (sqlEval row hi))
    ofTruth (if isNot then Kleene.not within else within)
  | .inList x xs => ofTruth (Kleene.any ((sqlEvalAll row xs).map (sqlCompare .eq (sqlEval row x))))
  | .isNull x => some (.bool (sqlEval row x).isNone)
  | .isNotNull x => some (.bool (sqlEval row x).isSome)
  | .and ps => ofTruth (Kleene.all ((sqlEvalAll row ps).map truth))
  | .or ps => ofTruth (Kleene.any ((sqlEvalAll row ps).map truth))
  | .not p => ofTruth (Kleene.not (truth (sqlEval row p)))
/-- The values of some predicates. -/
def sqlEvalAll (row : String → Option Value) : List Predicate → List (Option Value)
  | [] => []
  | p :: ps => sqlEval row p :: sqlEvalAll row ps
end

attribute [simp] sqlEval sqlEvalAll

/-- Whether SQL keeps the row. -/
def IsTrue (row : String → Option Value) (p : Predicate) : Prop := p.sqlEval row = some (.bool true)

/-! ## The differences -/

/-- Whether a predicate is a column that is null on the row. -/
def nullColumn (row : String → Option Value) : Predicate → Bool
  | .column name _ => (row name).isNone
  | _ => false

mutual
/-- The predicate with what the engine decides otherwise written out: a comparison of truth values
is false, and only a column is null. -/
def decided (types : String → Option VariantType) (row : String → Option Value) :
    Predicate → Predicate
  | .column name typeInfo => .column name typeInfo
  | .literal l => .literal l
  | .compare op l r =>
    if typeOf types l = some .bool then .literal (.boolean false)
    else .compare op (decided types row l) (decided types row r)
  | .between isNot x lo hi =>
    if typeOf types x = some .bool then .literal (.boolean isNot)
    else .between isNot (decided types row x) (decided types row lo) (decided types row hi)
  | .inList x xs =>
    if typeOf types x = some .bool then .literal (.boolean false)
    else .inList (decided types row x) (decidedAll types row xs)
  | .isNull x => .literal (.boolean (x.nullColumn row))
  | .isNotNull x => .literal (.boolean !x.nullColumn row)
  | .and ps => .and (decidedAll types row ps)
  | .or ps => .or (decidedAll types row ps)
  | .not p => .not (decided types row p)
/-- Some predicates with the differences written out. -/
def decidedAll (types : String → Option VariantType) (row : String → Option Value) :
    List Predicate → List Predicate
  | [] => []
  | p :: ps => decided types row p :: decidedAll types row ps
end

attribute [simp] decided decidedAll

mutual
/-- The predicate compares no truth values, its columns are not null, and it asks of columns only
whether they are null. -/
def Plain (types : String → Option VariantType) (row : String → Option Value) : Predicate → Prop
  | .column name _ => (row name).isSome = true
  | .literal _ => True
  | .compare _ l r => typeOf types l ≠ some .bool ∧ Plain types row l ∧ Plain types row r
  | .between _ x lo hi =>
    typeOf types x ≠ some .bool ∧ Plain types row x ∧ Plain types row lo ∧ Plain types row hi
  | .inList x xs => typeOf types x ≠ some .bool ∧ Plain types row x ∧ PlainAll types row xs
  | .isNull x => ∃ name typeInfo, x = .column name typeInfo
  | .isNotNull x => ∃ name typeInfo, x = .column name typeInfo
  | .and ps => PlainAll types row ps
  | .or ps => PlainAll types row ps
  | .not p => Plain types row p
/-- The same of some predicates. -/
def PlainAll (types : String → Option VariantType) (row : String → Option Value) :
    List Predicate → Prop
  | [] => True
  | p :: ps => Plain types row p ∧ PlainAll types row ps
end

section

variable {types : String → Option VariantType} {row defaults : String → Option Value}

mutual
/-- A plain predicate is the same with the differences written out. -/
theorem sqlEval_decided (hset : ∀ name, (row name).isSome = true → defaults name = row name) :
    ∀ p : Predicate, p.Plain types row → (p.decided types row).sqlEval defaults = p.sqlEval row
  | .column name _, hplain => hset name hplain
  | .literal _, _ => rfl
  | .compare op l r, ⟨hbool, hl, hr⟩ => by
      rw [decided, if_neg hbool, sqlEval, sqlEval, sqlEval_decided hset l hl,
        sqlEval_decided hset r hr]
  | .between isNot x lo hi, ⟨hbool, hx, hlo, hhi⟩ => by
      rw [decided, if_neg hbool, sqlEval, sqlEval, sqlEval_decided hset x hx,
        sqlEval_decided hset lo hlo, sqlEval_decided hset hi hhi]
  | .inList x xs, ⟨hbool, hx, hxs⟩ => by
      rw [decided, if_neg hbool, sqlEval, sqlEval, sqlEval_decided hset x hx,
        sqlEvalAll_decided hset xs hxs]
  | .isNull x, ⟨_, _, hx⟩ => by
      rw [hx]
      rfl
  | .isNotNull x, ⟨name, _, hx⟩ => by
      rw [hx, decided, sqlEval, sqlEval, sqlEval, nullColumn]
      cases row name <;> rfl
  | .and ps, hps => by rw [decided, sqlEval, sqlEval, sqlEvalAll_decided hset ps hps]
  | .or ps, hps => by rw [decided, sqlEval, sqlEval, sqlEvalAll_decided hset ps hps]
  | .not p, hp => by rw [decided, sqlEval, sqlEval, sqlEval_decided hset p hp]
theorem sqlEvalAll_decided (hset : ∀ name, (row name).isSome = true → defaults name = row name) :
    ∀ ps : List Predicate, PlainAll types row ps →
      sqlEvalAll defaults (decidedAll types row ps) = sqlEvalAll row ps
  | [], _ => rfl
  | p :: ps, ⟨hp, hps⟩ => by
      rw [decidedAll, sqlEvalAll, sqlEvalAll, sqlEval_decided hset p hp,
        sqlEvalAll_decided hset ps hps]
end

end

end Predicate

/-! ## The columns of a row -/

section

variable (T : RowType) (fieldSchemas : String → Option String)

/-- The field that a column is. -/
def columnField (name : String) : Option ParsedField := parseField T ((fieldSchemas name).getD name)

/-- The type of a column. -/
def columnType (name : String) : Option VariantType :=
  (columnField T fieldSchemas name).map fun f => f.field.type

variable {T}

/-- The row of SQL: a column is null where the field is not set. -/
def columns (ctx : ExpressionContext T) (name : String) : Option Value :=
  (columnField T fieldSchemas name).bind ctx.read

/-- The row with the defaults of the fields that are not set. -/
def defaulted (ctx : ExpressionContext T) (name : String) : Option Value :=
  (columnField T fieldSchemas name).map fun f => (ctx.extract f).value

end

/-! ## What the engine evaluates -/

/-- Values of one type are compared as in SQL, unless they are truth values. -/
theorem compare_eq_test (op : CompareOp) {a b : Value} (htype : a.type = b.type)
    (hbool : a.type ≠ .bool) :
    a.compare op b = some (test op a b) := by
  cases a with
  | bool v => exact absurd rfl hbool
  | int32 _ | int64 _ | uint32 _ | uint64 _ =>
    cases b <;> simp only [Value.type, reduceCtorEq] at htype
    simp [Value.compare, test]
  | string v =>
    cases b <;> simp only [Value.type, reduceCtorEq] at htype
    rfl

theorem truth_of_bool {v : Value} (hbool : v.type = .bool) : truth (some v) = some v.castBool := by
  cases v <;> simp only [Value.type, reduceCtorEq] at hbool
  rfl

section

variable {sizeofString : ℕ} {reads : DataType → String → Bool} {T : RowType}
  {fieldSchemas : String → Option String}
  {others : ExpressionClass → List (Option PbVariant) → Option PbVariant}
    {ctx : ExpressionContext T}

/-- The expression evaluates to what the predicate, with the differences written out, is in SQL on
the row with the defaults. -/
def Evaluates (fieldSchemas : String → Option String)
    (others : ExpressionClass → List (Option PbVariant) → Option PbVariant)
    (ctx : ExpressionContext T)
    (p : Predicate) (e : Expression) : Prop :=
  ∃ v, p.typeOf (columnType T fieldSchemas) = some v.type ∧
    evaluate others ctx e = some { value := v, isNull := p.nullColumn (columns fieldSchemas ctx) } ∧
    (p.decided (columnType T fieldSchemas) (columns fieldSchemas ctx)).sqlEval
    (defaulted fieldSchemas ctx) = some v

/-- The same of some expressions, which are all of a type. -/
def EvaluatesAll (fieldSchemas : String → Option String)
    (others : ExpressionClass → List (Option PbVariant) → Option PbVariant)
    (ctx : ExpressionContext T)
    (type : VariantType) (ps : List Predicate) (es : List Expression) : Prop :=
  ∃ vs : List PbVariant, (∀ v ∈ vs, v.value.type = type) ∧ es.map (evaluate others ctx) =
    vs.map some ∧
    Predicate.sqlEvalAll (defaulted fieldSchemas ctx)
      (Predicate.decidedAll (columnType T fieldSchemas) (columns fieldSchemas ctx) ps) =
        vs.map fun v => some v.value

theorem evaluates_column {name : String} {typeInfo : DataType} {f : ParsedField}
    (hfield : columnField T fieldSchemas name = some f) :
    Evaluates fieldSchemas others ctx (.column name typeInfo) (.var f) := by
  refine ⟨(ctx.extract f).value, ?_, ?_, ?_⟩
  · change (columnField T fieldSchemas name).map (fun f => f.field.type) = _
    rw [hfield, ctx.type_extract hfield]
    rfl
  · have hnull : (columns fieldSchemas ctx name).isNone = (ctx.extract f).isNull := by
      unfold columns
      rw [hfield]
      rfl
    change some (ctx.extract f) =
      some { value := _, isNull := (columns fieldSchemas ctx name).isNone }
    rw [hnull]
  · change (columnField T fieldSchemas name).map (fun f => (ctx.extract f).value) = _
    rw [hfield]
    rfl

theorem evaluate_literal (l : Literal) :
    evaluate others ctx
    (.const { value := l.hive.1, constType := some l.hive.2 }) = some { value := l.value } := by
  change (constValue { value := l.hive.1, constType := some l.hive.2 }).map (fun v =>
    ({ value := v } : PbVariant)) = _
  rw [l.constValue_hive]
  rfl

theorem evaluates_literal (l : Literal) :
    Evaluates fieldSchemas others ctx (.literal l)
    (.const { value := l.hive.1, constType := some l.hive.2 }) :=
  ⟨l.value, rfl, evaluate_literal l, rfl⟩

theorem evaluate_comparison (op : CompareOp) (children : List (Option PbVariant)) :
    (comparison op).expressionClass.evaluate others children =
      (Expr.evaluateCompare op children).map .ofBool := by
  cases op <;> rfl

theorem evaluates_compare {op : CompareOp} {l r : Predicate} {el er : Expression}
    (hl : Evaluates fieldSchemas others ctx l el) (hr : Evaluates fieldSchemas others ctx r er)
    (heq : l.typeOf (columnType T fieldSchemas) = r.typeOf (columnType T fieldSchemas)) :
    Evaluates fieldSchemas others ctx (.compare op l r)
    (.func (comparison op).expressionClass [el, er]) := by
  obtain ⟨a, hatype, haeval, hasql⟩ := hl
  obtain ⟨b, hbtype, hbeval, hbsql⟩ := hr
  have htypes : a.type = b.type := Option.some.inj (hatype ▸ hbtype ▸ heq)
  have heval : evaluate others ctx (.func (comparison op).expressionClass [el, er]) =
      (a.compare op b).map .ofBool := by
    rw [Expr.evaluate_func, evaluate_comparison, map_cons, map_cons, haeval, hbeval]
    rfl
  have hwell : Predicate.typeOf (columnType T fieldSchemas) (.compare op l r) = some .bool := by
    rw [Predicate.typeOf, hatype, hbtype, htypes]
    exact if_pos ⟨rfl, rfl⟩
  by_cases hbool : a.type = .bool
  · refine ⟨.bool false, hwell, ?_, ?_⟩
    · rw [heval, Value.compare_of_bool op b hbool]
      rfl
    · rw [Predicate.decided, if_pos (hbool ▸ hatype)]
      rfl
  · refine ⟨.bool (test op a b), hwell, ?_, ?_⟩
    · rw [heval, compare_eq_test op htypes hbool]
      rfl
    · rw [Predicate.decided, if_neg (by rw [hatype]; simpa using hbool), Predicate.sqlEval, hasql,
        hbsql]
      rfl

theorem evaluates_between {isNot : Bool} {x lo hi : Predicate} {ex elo ehi : Expression}
    (hx : Evaluates fieldSchemas others ctx x ex) (hlo : Evaluates fieldSchemas others ctx lo elo)
    (hhi : Evaluates fieldSchemas others ctx hi ehi)
    (heqlo : x.typeOf (columnType T fieldSchemas) = lo.typeOf (columnType T fieldSchemas))
    (heqhi : x.typeOf (columnType T fieldSchemas) = hi.typeOf (columnType T fieldSchemas)) :
    Evaluates fieldSchemas others ctx (.between isNot x lo hi)
      (.func .between [.const { value := (Literal.boolean isNot).hive.1, constType := some .bool },
        ex, elo, ehi]) := by
  obtain ⟨a, hatype, haeval, hasql⟩ := hx
  obtain ⟨b, hbtype, hbeval, hbsql⟩ := hlo
  obtain ⟨c, hctype, hceval, hcsql⟩ := hhi
  have hab : a.type = b.type := Option.some.inj (hatype ▸ hbtype ▸ heqlo)
  have hac : a.type = c.type := Option.some.inj (hatype ▸ hctype ▸ heqhi)
  have hwell : Predicate.typeOf (columnType T fieldSchemas) (.between isNot x lo hi) =
      some .bool := by
    rw [Predicate.typeOf, ← heqlo, ← heqhi, hatype]
    exact if_pos ⟨rfl, rfl, rfl⟩
  have hfunc : evaluate others ctx
      (.func .between [.const { value := (Literal.boolean isNot).hive.1, constType := some .bool },
        ex, elo, ehi]) =
        (((a.compare .ge b).bind fun above => if above then a.compare .le c
        else some false).map fun result =>
          if isNot then !result else result).map .ofBool := by
    rw [Expr.evaluate_func, map_cons, map_cons, map_cons, map_cons, haeval, hbeval, hceval]
    exact congrArg (fun first => (Expr.evaluateBetween [first, _, _, _]).map PbVariant.ofBool)
      (evaluate_literal (.boolean isNot))
  by_cases hbool : a.type = .bool
  · refine ⟨.bool isNot, hwell, ?_, ?_⟩
    · rw [hfunc, Value.compare_of_bool .ge b hbool]
      cases isNot <;> rfl
    · rw [Predicate.decided, if_pos (hbool ▸ hatype)]
      rfl
  · refine ⟨.bool (if isNot then !(test .ge a b && test .le a c) else test .ge a b && test .le a c),
      hwell, ?_, ?_⟩
    · rw [hfunc, compare_eq_test .ge hab hbool, compare_eq_test .le hac hbool]
      cases test .ge a b <;> rfl
    · rw [Predicate.decided, if_neg (by rw [hatype]; simpa using hbool), Predicate.sqlEval, hasql,
        hbsql, hcsql]
      have hwithin : Kleene.and (sqlCompare .ge (some a) (some b))
          (sqlCompare .le (some a) (some c)) =
          some (test .ge a b && test .le a c) := Common.Kleene.and_some _ _
      rw [hwithin]
      cases isNot <;> rfl

theorem evaluates_isNull {x : Predicate} {e : Expression}
    (hx : Evaluates fieldSchemas others ctx x e) :
    Evaluates fieldSchemas others ctx (.isNull x) (.func .isNull [e]) := by
  obtain ⟨a, hatype, haeval, -⟩ := hx
  refine ⟨.bool (x.nullColumn (columns fieldSchemas ctx)), ?_, ?_, rfl⟩
  · rw [Predicate.typeOf, hatype]
    rfl
  · rw [Expr.evaluate_func, map_cons, haeval]
    rfl

theorem evaluates_isNotNull {x : Predicate} {e : Expression}
    (hx : Evaluates fieldSchemas others ctx x e) :
    Evaluates fieldSchemas others ctx (.isNotNull x) (.func .isNotNull [e]) := by
  obtain ⟨a, hatype, haeval, -⟩ := hx
  refine ⟨.bool !x.nullColumn (columns fieldSchemas ctx), ?_, ?_, rfl⟩
  · rw [Predicate.typeOf, hatype]
    rfl
  · rw [Expr.evaluate_func, map_cons, haeval]
    rfl

theorem evaluates_not {p : Predicate} {e : Expression} (hp : Evaluates fieldSchemas others ctx p e)
    (hbool : p.typeOf (columnType T fieldSchemas) = some .bool) :
    Evaluates fieldSchemas others ctx (.not p) (.func .not [e]) := by
  obtain ⟨a, hatype, haeval, hasql⟩ := hp
  have hatruth := truth_of_bool (Option.some.inj (hatype.symm.trans hbool))
  refine ⟨.bool !a.castBool, ?_, ?_, ?_⟩
  · rw [Predicate.typeOf, if_pos hbool]
    rfl
  · rw [Expr.evaluate_func, map_cons, haeval]
    rfl
  · rw [Predicate.decided, Predicate.sqlEval, hasql, hatruth]
    rfl

/-- The truths of values that are not null. -/
theorem truths_of_bool {vs : List PbVariant} (hbool : ∀ v ∈ vs, v.value.type = .bool) :
    (vs.map fun v => some v.value).map truth = (vs.map fun v => v.value.castBool).map some := by
  rw [map_map, map_map]
  exact map_congr_left fun v hv => truth_of_bool (hbool v hv)

theorem evaluates_and {ps : List Predicate} {es : List Expression}
    (hps : EvaluatesAll fieldSchemas others ctx .bool ps es)
    (hbool : Predicate.allOfType (columnType T fieldSchemas) (some .bool) ps = true) :
    Evaluates fieldSchemas others ctx (.and ps) (.func .and es) := by
  obtain ⟨vs, htypes, heval, hsql⟩ := hps
  refine ⟨.bool (vs.all fun v => v.value.castBool), ?_, ?_, ?_⟩
  · rw [Predicate.typeOf, if_pos hbool]
    rfl
  · rw [Expr.evaluate_func, heval]
    exact congrArg (Option.map PbVariant.ofBool) (Expr.evaluateAnd_map_some vs)
  · rw [Predicate.decided, Predicate.sqlEval, hsql, truths_of_bool htypes,
      Common.Kleene.all_map_some, all_map]
    rfl

theorem evaluates_or {ps : List Predicate} {es : List Expression}
    (hps : EvaluatesAll fieldSchemas others ctx .bool ps es)
    (hbool : Predicate.allOfType (columnType T fieldSchemas) (some .bool) ps = true) :
    Evaluates fieldSchemas others ctx (.or ps) (.func .or es) := by
  obtain ⟨vs, htypes, heval, hsql⟩ := hps
  refine ⟨.bool (vs.any fun v => v.value.castBool), ?_, ?_, ?_⟩
  · rw [Predicate.typeOf, if_pos hbool]
    rfl
  · rw [Expr.evaluate_func, heval]
    exact congrArg (Option.map PbVariant.ofBool) (Expr.evaluateOr_map_some vs)
  · rw [Predicate.decided, Predicate.sqlEval, hsql, truths_of_bool htypes,
      Common.Kleene.any_map_some, any_map]
    rfl

theorem evaluates_inList {x : Predicate} {xs : List Predicate} {e : Expression}
    {es : List Expression} {type : VariantType} (hx : Evaluates fieldSchemas others ctx x e)
    (htype : x.typeOf (columnType T fieldSchemas) = some type)
    (hxs : EvaluatesAll fieldSchemas others ctx type xs es)
    (hall : Predicate.allOfType (columnType T fieldSchemas) (some type) xs = true) :
    Evaluates fieldSchemas others ctx (.inList x xs) (.func .inList (e :: es)) := by
  obtain ⟨a, hatype, haeval, hasql⟩ := hx
  obtain ⟨vs, htypes, heval, hsql⟩ := hxs
  have ha : a.type = type := Option.some.inj (hatype.symm.trans htype)
  have hwell : Predicate.typeOf (columnType T fieldSchemas) (.inList x xs) = some .bool := by
    rw [Predicate.typeOf, htype]
    exact if_pos ⟨rfl, hall⟩
  have hfunc : evaluate others ctx (.func .inList (e :: es)) =
      (Expr.anyEqual { value := a, isNull := x.nullColumn (columns fieldSchemas ctx) }
      (vs.map some)).map .ofBool := by
    rw [Expr.evaluate_func, map_cons, haeval, heval]
    rfl
  by_cases hbool : a.type = .bool
  · refine ⟨.bool false, hwell, ?_, ?_⟩
    · rw [hfunc, Expr.anyEqual_map_some (fun _ => false) vs fun v _ =>
        Value.compare_of_bool .eq v.value hbool]
      simp [PbVariant.ofBool, Predicate.nullColumn]
    · rw [Predicate.decided, if_pos (hbool ▸ hatype)]
      rfl
  · refine ⟨.bool (vs.any fun v => test .eq a v.value), hwell, ?_, ?_⟩
    · rw [hfunc, Expr.anyEqual_map_some (test .eq a) vs fun v hv =>
        compare_eq_test .eq (ha.trans (htypes v hv).symm) hbool]
      rfl
    · rw [Predicate.decided, if_neg (by rw [hatype]; simpa using hbool), Predicate.sqlEval, hasql,
        hsql]
      have htests : ((vs.map fun v => some v.value).map (sqlCompare .eq (some a))) =
          (vs.map fun v => test .eq a v.value).map some := by
        rw [map_map, map_map]
        rfl
      rw [htests, Common.Kleene.any_map_some, any_map]
      rfl

mutual
/-- What is built of a predicate whose operands have the types that they must have evaluates to
it. -/
theorem evaluates_of_build :
    ∀ (p : Predicate) {e : Expression}, (p.typeOf (columnType T fieldSchemas)).isSome = true →
      build sizeofString reads T (emitted fieldSchemas p.hive) = some e →
      Evaluates fieldSchemas others ctx p e
  | .column name typeInfo, e, _, hbuild => by
      obtain ⟨f, hfield, rfl⟩ := Option.map_eq_some_iff.1 hbuild
      exact evaluates_column hfield
  | .literal l, e, _, hbuild => by
      obtain ⟨-, he⟩ := Option.ite_none_right_eq_some.1 hbuild
      obtain rfl := Option.some.inj he
      exact evaluates_literal l
  | .compare op l r, e, hwell, hbuild => by
      obtain ⟨hsome, heq⟩ := (Option.isSome_ite.1 hwell)
      obtain ⟨es, rfl, hes, -⟩ := eq_func_of_build hbuild
      obtain ⟨el, es, rfl, hl, hes⟩ := buildAll_emitted_cons hes
      obtain ⟨er, es, rfl, hr, hes⟩ := buildAll_emitted_cons hes
      obtain rfl := buildAll_emitted_nil hes
      exact evaluates_compare (evaluates_of_build l hsome hl)
        (evaluates_of_build r (heq ▸ hsome) hr) heq
  | .between isNot x lo hi, e, hwell, hbuild => by
      obtain ⟨hsome, heqlo, heqhi⟩ := (Option.isSome_ite.1 hwell)
      obtain ⟨es, rfl, hes, -⟩ := eq_func_of_build hbuild
      obtain ⟨en, es, rfl, hn, hes⟩ := buildAll_emitted_cons hes
      obtain ⟨ex, es, rfl, hx, hes⟩ := buildAll_emitted_cons hes
      obtain ⟨elo, es, rfl, hlo, hes⟩ := buildAll_emitted_cons hes
      obtain ⟨ehi, es, rfl, hhi, hes⟩ := buildAll_emitted_cons hes
      obtain rfl := buildAll_emitted_nil hes
      obtain ⟨-, hn⟩ := Option.ite_none_right_eq_some.1 hn
      obtain rfl := Option.some.inj hn
      exact evaluates_between (evaluates_of_build x hsome hx)
        (evaluates_of_build lo (heqlo ▸ hsome) hlo)
        (evaluates_of_build hi (heqhi ▸ hsome) hhi) heqlo heqhi
  | .inList x xs, e, hwell, hbuild => by
      obtain ⟨hsome, hall⟩ := (Option.isSome_ite.1 hwell)
      obtain ⟨type, htype⟩ := Option.isSome_iff_exists.1 hsome
      obtain ⟨es, rfl, hes, -⟩ := eq_func_of_build hbuild
      obtain ⟨ex, es, rfl, hx, hes⟩ := buildAll_emitted_cons hes
      rw [htype] at hall
      exact evaluates_inList (evaluates_of_build x hsome hx) htype
        (evaluatesAll_of_build xs hall hes) hall
  | .isNull x, e, hwell, hbuild => by
      obtain ⟨es, rfl, hes, -⟩ := eq_func_of_build hbuild
      obtain ⟨ex, es, rfl, hx, hes⟩ := buildAll_emitted_cons hes
      obtain rfl := buildAll_emitted_nil hes
      exact evaluates_isNull (evaluates_of_build x (Option.isSome_map.symm.trans hwell) hx)
  | .isNotNull x, e, hwell, hbuild => by
      obtain ⟨es, rfl, hes, -⟩ := eq_func_of_build hbuild
      obtain ⟨ex, es, rfl, hx, hes⟩ := buildAll_emitted_cons hes
      obtain rfl := buildAll_emitted_nil hes
      exact evaluates_isNotNull (evaluates_of_build x (Option.isSome_map.symm.trans hwell) hx)
  | .and ps, e, hwell, hbuild => by
      have hall := Option.isSome_ite.1 hwell
      obtain ⟨es, rfl, hes, -⟩ := eq_func_of_build hbuild
      exact evaluates_and (evaluatesAll_of_build ps hall hes) hall
  | .or ps, e, hwell, hbuild => by
      have hall := Option.isSome_ite.1 hwell
      obtain ⟨es, rfl, hes, -⟩ := eq_func_of_build hbuild
      exact evaluates_or (evaluatesAll_of_build ps hall hes) hall
  | .not p, e, hwell, hbuild => by
      have hbool := Option.isSome_ite.1 hwell
      obtain ⟨es, rfl, hes, -⟩ := eq_func_of_build hbuild
      obtain ⟨ep, es, rfl, hp, hes⟩ := buildAll_emitted_cons hes
      obtain rfl := buildAll_emitted_nil hes
      exact evaluates_not (evaluates_of_build p (hbool ▸ rfl) hp) hbool
theorem evaluatesAll_of_build :
    ∀ (ps : List Predicate) {type : VariantType} {es : List Expression},
      Predicate.allOfType (columnType T fieldSchemas) (some type) ps = true →
      buildAll sizeofString reads T (emittedAll fieldSchemas (Predicate.hiveAll ps)) = some es →
      EvaluatesAll fieldSchemas others ctx type ps es
  | [], type, es, _, hbuild => by
      obtain rfl := buildAll_emitted_nil hbuild
      exact ⟨[], by simp, rfl, rfl⟩
  | p :: ps, type, es, hall, hbuild => by
      obtain ⟨htype, hall⟩ := Bool.and_eq_true_iff.1 hall
      have htype := of_decide_eq_true htype
      obtain ⟨ep, es, rfl, hp, hes⟩ := buildAll_emitted_cons hbuild
      obtain ⟨v, hvtype, heval, hsql⟩ := evaluates_of_build p (htype ▸ rfl) hp
      obtain ⟨vs, hvs, hevals, hsqls⟩ := evaluatesAll_of_build ps hall hes
      refine ⟨{ value := v, isNull := p.nullColumn (columns fieldSchemas ctx) } :: vs, ?_, ?_, ?_⟩
      · exact forall_mem_cons.2 ⟨Option.some.inj (hvtype.symm.trans htype), hvs⟩
      · rw [map_cons, map_cons, heval, hevals]
      · rw [Predicate.decidedAll, Predicate.sqlEvalAll, hsql, hsqls, map_cons]
end

end

/-! ## The rows that the engine keeps -/

section

variable (sizeofString : ℕ) (reads : DataType → String → Bool) {T : RowType}
  (fieldSchemas : String → Option String)
  (others : ExpressionClass → List (Option PbVariant) → Option PbVariant)
  (ctx : ExpressionContext T) {p : Predicate} {e : Expression}

/-- The engine keeps a row if SQL does so for the predicate with the differences written out. -/
theorem kept_iff_decided (hwell : p.typeOf (columnType T fieldSchemas) = some .bool)
    (hbuild : build sizeofString reads T (emitted fieldSchemas p.hive) = some e) :
    (evaluate others ctx e).map (fun v => v.value.castBool) = some true ↔
      (p.decided (columnType T fieldSchemas) (columns fieldSchemas ctx)).IsTrue
      (defaulted fieldSchemas ctx) := by
  have hevaluates : Evaluates fieldSchemas others ctx p e :=
    evaluates_of_build p (hwell ▸ rfl) hbuild
  obtain ⟨v, hvtype, heval, hsql⟩ := hevaluates
  have hbool : v.type = .bool := Option.some.inj (hvtype.symm.trans hwell)
  unfold Predicate.IsTrue
  rw [heval, hsql, Option.map_some]
  cases v <;> simp only [Value.type, reduceCtorEq] at hbool
  simp [Value.castBool]

theorem defaulted_eq_columns (name : String)
    (hset : (columns fieldSchemas ctx name).isSome = true) :
    defaulted fieldSchemas ctx name = columns fieldSchemas ctx name := by
  unfold columns at hset ⊢
  unfold defaulted
  cases hfield : columnField T fieldSchemas name with
  | none => rfl
  | some f =>
    rw [hfield, Option.bind_some] at hset
    obtain ⟨v, hread⟩ := Option.isSome_iff_exists.1 hset
    rw [Option.map_some, Option.bind_some, hread]
    exact congrArg some (congrArg (Option.getD · f.field.defaultValue) hread)

/-- Of plain predicates the engine keeps the rows that SQL keeps. -/
theorem kept_iff_of_plain (hwell : p.typeOf (columnType T fieldSchemas) = some .bool)
    (hplain : p.Plain (columnType T fieldSchemas) (columns fieldSchemas ctx))
    (hbuild : build sizeofString reads T (emitted fieldSchemas p.hive) = some e) :
    (evaluate others ctx e).map (fun v => v.value.castBool) = some true ↔ p.IsTrue
    (columns fieldSchemas ctx) := by
  rw [kept_iff_decided sizeofString reads fieldSchemas others ctx hwell hbuild]
  unfold Predicate.IsTrue
  rw [Predicate.sqlEval_decided (defaulted_eq_columns fieldSchemas ctx) p hplain]

end

/-- A row of which nothing is set. -/
def emptyRow : ExpressionContext flagRow where
  key := { get := fun _ => none, typed := fun _ h => absurd h (Option.some_ne_none _).symm }
  value := { get := fun _ => none, typed := fun _ h => absurd h (Option.some_ne_none _).symm }

/-- `id = 0`. -/
def idIsZero : Predicate := .compare .eq (.column "id" .int32) (.literal (.int 0))

/-- What is built of `id = 0`. -/
def idIsZeroBuilt : Expression :=
  .func .eq [.var { target := .key, field := { name := "id", defaultValue := .int32 0 } },
    .const { value := "0", constType := some .int32 }]

theorem build_idIsZero :
    build 8 (fun _ _ => true) flagRow
    (emitted (fun _ => none) idIsZero.hive) = some idIsZeroBuilt := by decide

theorem typeOf_idIsZero : idIsZero.typeOf (columnType flagRow fun _ => none) = some .bool := by
    decide

end Idgs.Sql
