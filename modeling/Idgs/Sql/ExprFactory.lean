import Idgs.Expr.Factory
import Mathlib.Data.Nat.Bitwise

/-!
# The functions of the front end

`ExprFactory.internalUdfType` names the functions of Hive that the front end sends on, and the
engine looks the names up among its expression classes. Names, aliases and the numbers of arguments
that a class accepts are kept in two places, and where they differ an expression that the front end
builds is refused.
-/

namespace Idgs.Sql

open Common (Term)
open Expr
  (Arity Expression ExpressionClass ParsedField RowType aliasCount build buildAll findClass
  parseConst parseField
  registered)

/-! ## Functions -/

/-- The classes that are keys of `internalUdfType`. -/
inductive GenericUDF
  | opAnd | opOr | opEqual | opNotEqual | opGreaterThan | opEqualOrGreaterThan | opLessThan
    | opEqualOrLessThan
  | opNot | opNull | opNotNull | between | in
  | opPlus | opMinus | opMultiply | opDivide | opMod | hash | power | posMod | abs | opPositive
      | opNegative
  | if | case | when | nvl | coalesce
  | toBinary | toDecimal
  | dateAdd | dateSub | dateDiff | toUnixTimeStamp | toUtcTimestamp | timestamp | unixTimeStamp
  | round | floor | ceil
  | concat | concatWS | upper | lower | trim | lTrim | rTrim | lpad | rpad | locate | instr
deriving DecidableEq

/-- `internalUdfType`. -/
def internalUdfType : GenericUDF → String
  | .opAnd => "AND"
  | .opOr => "OR"
  | .opEqual => "EQ"
  | .opNotEqual => "NE"
  | .opGreaterThan => "GT"
  | .opEqualOrGreaterThan => "GE"
  | .opLessThan => "LT"
  | .opEqualOrLessThan => "LE"
  | .opNot => "NOT"
  | .opNull => "ISNULL"
  | .opNotNull => "ISNOTNULL"
  | .between => "BETWEEN"
  | .in => "IN"
  | .opPlus => "ADD"
  | .opMinus => "SUBTRACT"
  | .opMultiply => "MULTIPLY"
  | .opDivide => "DIVIDE"
  | .opMod => "MODULUS"
  | .hash => "HASH"
  | .power => "POWER"
  | .posMod => "PMOD"
  | .abs => "ABS"
  | .opPositive => "POSITIVE"
  | .opNegative => "NEGATIVE"
  | .if => "IF"
  | .case => "CASE"
  | .when => "WHEN"
  | .nvl => "NVL"
  | .coalesce => "COALESCE"
  | .toBinary => "UDFTOBINARY"
  | .toDecimal => "UDFTODECIMAL"
  | .dateAdd => "DATE_ADD"
  | .dateSub => "DATE_SUB"
  | .dateDiff => "DATE_DIFF"
  | .toUnixTimeStamp | .toUtcTimestamp | .unixTimeStamp => "UNIX_TIMESTAMP"
  | .timestamp => "TIMESTAMP"
  | .round => "ROUND"
  | .floor => "FLOOR"
  | .ceil => "CEIL"
  | .concat => "CONCAT"
  | .concatWS => "CONCAT_WS"
  | .upper => "UPPER"
  | .lower => "LOWER"
  | .trim => "TRIM"
  | .lTrim => "LTRIM"
  | .rTrim => "RTRIM"
  | .lpad => "LPAD"
  | .rpad => "RPAD"
  | .locate => "LOCATE"
  | .instr => "INSTR"

/-- The class that computes a function. -/
def GenericUDF.expressionClass : GenericUDF → ExpressionClass
  | .opAnd => .and
  | .opOr => .or
  | .opEqual => .eq
  | .opNotEqual => .ne
  | .opGreaterThan => .gt
  | .opEqualOrGreaterThan => .ge
  | .opLessThan => .lt
  | .opEqualOrLessThan => .le
  | .opNot => .not
  | .opNull => .isNull
  | .opNotNull => .isNotNull
  | .between => .between
  | .in => .inList
  | .opPlus => .add
  | .opMinus => .subtract
  | .opMultiply => .multiply
  | .opDivide => .divide
  | .opMod => .modulus
  | .hash => .hash
  | .power => .pow
  | .posMod => .pMod
  | .abs => .abs
  | .opPositive => .positive
  | .opNegative => .negative
  | .if | .when => .whenThen
  | .case => .caseOf
  | .nvl => .nvl
  | .coalesce => .coalesce
  | .toBinary => .udfToBinary
  | .toDecimal => .udfToDecimal
  | .dateAdd => .dateAdd
  | .dateSub => .dateSub
  | .dateDiff => .dateDiff
  | .toUnixTimeStamp | .toUtcTimestamp | .timestamp | .unixTimeStamp => .unixTimestamp
  | .round => .round
  | .floor => .floor
  | .ceil => .ceil
  | .concat => .concat
  | .concatWS => .concatWS
  | .upper => .upper
  | .lower => .lower
  | .trim => .trim
  | .lTrim => .lTrim
  | .rTrim => .rTrim
  | .lpad => .lPad
  | .rpad => .rPad
  | .locate => .locate
  | .instr => .inStr

/-! ## Names -/

/-- The classes by name, with or without their aliases. -/
def findClassIf (aliases : Bool) (name : String) : Option ExpressionClass :=
  registered.find? fun cls =>
    cls.info.name == name || aliases && cls.info.alternative == some name

theorem findClass_eq (sizeofString : ℕ) (name : String) :
    findClass sizeofString name = findClassIf (1 ≤ aliasCount sizeofString) name := by
  unfold findClass findClassIf ExpressionClass.names
  congr 1
  funext cls
  rw [Bool.eq_iff_iff]
  cases cls.info.alternative with
  | none => simp [@eq_comm String name]
  | some other =>
    cases aliasCount sizeofString with
    | zero | succ _ => simp [@eq_comm String name]

/-- Whether the engine knows a function under its name here. -/
def GenericUDF.known (aliases : Bool) : GenericUDF → Bool
  | .dateDiff => false
  | .power | .if | .timestamp => aliases
  | _ => true

/-- The table of the front end against the one of the engine. -/
theorem findClassIf_internalUdfType (aliases : Bool) (udf : GenericUDF) :
    findClassIf aliases (internalUdfType udf) = if udf.known aliases then some udf.expressionClass
    else none := by
  cases udf <;> cases aliases <;> decide

/-! ## Expressions of the front end -/

/-- The expression nodes whose functions are those of `internalUdfType`, with their types. -/
abbrev HiveExpr := Term (String × DataType) (GenericUDF × DataType) (String × DataType)

mutual
/-- The nodes of Hive. -/
def exprNodeDesc : HiveExpr → ExprNodeDesc
  | .var column => .column column.1 column.2
  | .const c => .constant c.1 c.2
  | .func udf args => .genericFunc (internalUdfType udf.1) udf.2 (exprNodeDescs args)
/-- The nodes of some expressions. -/
def exprNodeDescs : List HiveExpr → List ExprNodeDesc
  | [] => []
  | arg :: args => exprNodeDesc arg :: exprNodeDescs args
end

/-- The expression that the front end builds. -/
def emitted (fieldSchemas : String → Option String) (t : HiveExpr) : Expr :=
  buildExpression fieldSchemas (exprNodeDesc t)

/-- The expressions that the front end builds for some arguments. -/
def emittedAll (fieldSchemas : String → Option String) (ts : List HiveExpr) : List Expr :=
  buildExpressions fieldSchemas (exprNodeDescs ts)

/-- The arguments that the engine accepts for a function. -/
def GenericUDF.takes (args : List HiveExpr) : GenericUDF → Bool
  | .opAnd | .opOr | .in | .opPlus | .opMinus | .opMultiply | .opDivide | .hash | .coalesce
    | .concat | .concatWS =>
      1 ≤ args.length
  | .opNot | .opNull | .opNotNull | .abs | .opPositive | .opNegative | .toDecimal | .floor | .ceil
      | .upper
  | .lower | .trim | .lTrim | .rTrim => args.length = 1
  | .opEqual | .opNotEqual | .opGreaterThan | .opEqualOrGreaterThan | .opLessThan
      | .opEqualOrLessThan | .opMod
  | .power | .posMod | .nvl | .dateAdd | .dateSub | .dateDiff | .instr => args.length = 2
  | .lpad | .rpad => args.length = 3
  | .between => match args with
      | [.const c, _, _, _] => c.2 = .bool
      | _ => false
  | .if | .when => 3 ≤ args.length ∧ args.length % 2 = 1
  | .case => 5 ≤ args.length ∧ args.length / 2 % 2 = 1
  | .toBinary => args.length ≤ 2
  | .toUnixTimeStamp | .toUtcTimestamp | .timestamp | .unixTimeStamp => args.length ≤ 1
  | .round => 1 ≤ args.length ∧ args.length ≤ 2
  | .locate => 2 ≤ args.length ∧ args.length ≤ 3

/-- What the engine needs of a node: the function is known, with arguments that it takes, and the
text of a constant is one of its type. -/
def Acceptable (sizeofString : ℕ) (reads : DataType → String → Bool) : HiveExpr → Prop
  | .var _ => True
  | .const c => parseConst reads { value := c.1, constType := some c.2 } = true
  | .func udf args => udf.1.known (1 ≤ aliasCount sizeofString) = true ∧ udf.1.takes args = true

/-- Every column is a field of the row. -/
def FieldExists (T : RowType) (fieldSchemas : String → Option String) : HiveExpr → Prop
  | .var column => (parseField T ((fieldSchemas column.1).getD column.1)).isSome = true
  | .const _ => True
  | .func _ _ => True

/-- The expression tree is of the shape of the expression: each function became the class that
computes it, which is registered under the function's name. -/
def SameShape (sizeofString : ℕ) (T : RowType) (fieldSchemas : String → Option String) :
    HiveExpr → Expression → Prop :=
  Term.Related (fun c d => d = { value := c.1, constType := some c.2 })
    (fun udf cls => cls = udf.1.expressionClass ∧ internalUdfType udf.1 ∈ cls.names sizeofString)
    fun column field => parseField T ((fieldSchemas column.1).getD column.1) = some field

/-! ## Building what the front end emits -/

section

variable {sizeofString : ℕ} {reads : DataType → String → Bool} {T : RowType}
  {fieldSchemas : String → Option String}

theorem length_emittedAll (ts : List HiveExpr) :
    (emittedAll fieldSchemas ts).length = ts.length := by
  induction ts with
  | nil => rfl
  | cons t ts ih => exact congrArg (· + 1) ih

theorem and_two_pow_ne_zero (n i : ℕ) : n &&& 2 ^ i ≠ 0 ↔ n / 2 ^ i % 2 = 1 := by
  rw [Nat.and_two_pow, Nat.testBit_eq_decide_div_mod_eq]
  by_cases hbit : n / 2 ^ i % 2 = 1
  · simp [hbit]
  · simp [hbit]

theorem accepts_between (args : List HiveExpr) :
    Arity.between.accepts (emittedAll fieldSchemas args) = GenericUDF.between.takes args := by
  have hlen : (emittedAll fieldSchemas args).length = args.length := length_emittedAll args
  rw [Bool.eq_iff_iff]
  match args with
  | [] => simp [Arity.accepts, GenericUDF.takes, hlen]
  | [_] | [_, _] | [_, _, _] | _ :: _ :: _ :: _ :: _ :: _ =>
    simp [Arity.accepts, GenericUDF.takes, hlen]
  | [.var _, _, _, _] | [.func _ _, _, _, _] => simp [Arity.accepts, GenericUDF.takes, hlen]; rfl
  | [.const c, x, lo, hi] =>
    have hfirst : emittedAll fieldSchemas [.const c, x, lo, hi] =
        .const { value := c.1, constType := some c.2 } ::
        emittedAll fieldSchemas [x, lo, hi] := rfl
    simp [Arity.accepts, GenericUDF.takes, hfirst, length_emittedAll]

/-- The check of the class is the one of the table. -/
theorem accepts_emittedAll (udf : GenericUDF) (args : List HiveExpr) :
    udf.expressionClass.info.arity.accepts (emittedAll fieldSchemas args) = udf.takes args := by
  have hlen : (emittedAll fieldSchemas args).length = args.length := length_emittedAll args
  cases udf
  case between => exact accepts_between args
  case case =>
    have hbit := and_two_pow_ne_zero args.length 1
    rw [Bool.eq_iff_iff]
    simp_all [GenericUDF.expressionClass, ExpressionClass.info, Arity.accepts, GenericUDF.takes]
  case «if» | when =>
    have hbit := and_two_pow_ne_zero args.length 0
    rw [Bool.eq_iff_iff]
    simp_all [GenericUDF.expressionClass, ExpressionClass.info, Arity.accepts, GenericUDF.takes]
  all_goals
    rw [Bool.eq_iff_iff]
    simp [GenericUDF.expressionClass, ExpressionClass.info, Arity.accepts, GenericUDF.takes, hlen,
      Nat.one_le_iff_ne_zero]

/-- Building a function of the front end. -/
theorem build_emitted_func (udf : GenericUDF × DataType) (args : List HiveExpr) :
    build sizeofString reads T (emitted fieldSchemas (.func udf args)) =
      if udf.1.known (1 ≤ aliasCount sizeofString) ∧ udf.1.takes args then
        (buildAll sizeofString reads T (emittedAll fieldSchemas args)).map
        (.func udf.1.expressionClass)
      else none := by
  change (findClass sizeofString (internalUdfType udf.1)).bind (fun cls =>
    if cls.info.arity.accepts (emittedAll fieldSchemas args) then
      (buildAll sizeofString reads T (emittedAll fieldSchemas args)).map (Term.func cls)
        else none) = _
  rw [findClass_eq, findClassIf_internalUdfType]
  by_cases hknown : udf.1.known (1 ≤ aliasCount sizeofString) = true
  · rw [if_pos hknown, Option.bind_some, accepts_emittedAll]
    by_cases htakes : udf.1.takes args = true
    · rw [if_pos htakes, if_pos ⟨hknown, htakes⟩]
    · rw [if_neg htakes, if_neg fun h => htakes h.2]
  · rw [if_neg hknown, Option.bind_none, if_neg fun h => hknown h.1]

/-- What a function of the front end was built into. -/
theorem eq_func_of_build {udf : GenericUDF × DataType} {args : List HiveExpr} {e : Expression}
    (hbuild : build sizeofString reads T (emitted fieldSchemas (.func udf args)) = some e) :
    ∃ es, e = .func udf.1.expressionClass es ∧ buildAll sizeofString reads T
    (emittedAll fieldSchemas args) = some es ∧
      Acceptable sizeofString reads (.func udf args) := by
  rw [build_emitted_func] at hbuild
  split at hbuild
  · rename_i hfunc
    obtain ⟨es, hes, rfl⟩ := Option.map_eq_some_iff.1 hbuild
    exact ⟨es, rfl, hes, hfunc⟩
  · exact absurd hbuild (Option.some_ne_none e).symm

/-- What some expressions of the front end were built into. -/
theorem buildAll_emitted_cons {t : HiveExpr} {ts : List HiveExpr} {es : List Expression}
    (hbuild : buildAll sizeofString reads T (emittedAll fieldSchemas (t :: ts)) = some es) :
    ∃ e es', es = e :: es' ∧ build sizeofString reads T (emitted fieldSchemas t) = some e ∧
      buildAll sizeofString reads T (emittedAll fieldSchemas ts) = some es' := by
  obtain ⟨e, he, hrest⟩ := Option.bind_eq_some_iff.1 hbuild
  obtain ⟨es', hes, rfl⟩ := Option.map_eq_some_iff.1 hrest
  exact ⟨e, es', rfl, he, hes⟩

/-- What no expressions were built into. -/
theorem buildAll_emitted_nil {es : List Expression}
    (hbuild : buildAll sizeofString reads T (emittedAll fieldSchemas []) = some es) : es = [] :=
  (Option.some.inj hbuild).symm

/-- A function that the engine knows is known by a name of its class. -/
theorem internalUdfType_mem_names {udf : GenericUDF}
    (hknown : udf.known (1 ≤ aliasCount sizeofString) = true) :
    internalUdfType udf ∈ udf.expressionClass.names sizeofString := by
  have hfound : findClass sizeofString (internalUdfType udf) = some udf.expressionClass := by
    rw [findClass_eq, findClassIf_internalUdfType, if_pos hknown]
  have hmem := List.find?_some hfound
  rwa [List.contains_iff_mem] at hmem

mutual
/-- An acceptable expression over fields of the row is built, in its shape. -/
theorem exists_build :
    ∀ t : HiveExpr, t.Every (Acceptable sizeofString reads) → t.Every (FieldExists T fieldSchemas) →
      ∃ e, build sizeofString reads T
      (emitted fieldSchemas t) = some e ∧ SameShape sizeofString T fieldSchemas t e
  | .var column, _, hfield => by
      obtain ⟨field, hparse⟩ := Option.isSome_iff_exists.1 hfield
      exact ⟨.var field, congrArg (Option.map Term.var) hparse, hparse⟩
  | .const c, hconst, _ => ⟨.const { value := c.1, constType := some c.2 }, if_pos hconst, rfl⟩
  | .func udf args, ⟨hfunc, hargs⟩, ⟨_, hfields⟩ => by
      obtain ⟨es, hes, hshapes⟩ := exists_buildAll args hargs hfields
      refine ⟨.func udf.1.expressionClass es, ?_, ⟨rfl, internalUdfType_mem_names hfunc.1⟩, hshapes⟩
      have hcheck : udf.1.known (1 ≤ aliasCount sizeofString) = true ∧ udf.1.takes args = true :=
        hfunc
      rw [build_emitted_func, if_pos hcheck, hes, Option.map_some]
theorem exists_buildAll :
    ∀ ts : List HiveExpr, Term.EveryAll (Acceptable sizeofString reads) ts →
      Term.EveryAll (FieldExists T fieldSchemas) ts →
      ∃ es, buildAll sizeofString reads T (emittedAll fieldSchemas ts) = some es ∧
        Term.RelatedAll (fun c d => d = { value := c.1, constType := some c.2 })
          (fun udf cls =>
            cls = udf.1.expressionClass ∧ internalUdfType udf.1 ∈ cls.names sizeofString)
          (fun column field => parseField T ((fieldSchemas column.1).getD column.1) = some field)
            ts es
  | [], _, _ => ⟨[], rfl, trivial⟩
  | t :: ts, ⟨ht, hts⟩, ⟨hfield, hfields⟩ => by
      obtain ⟨e, he, hshape⟩ := exists_build t ht hfield
      obtain ⟨es, hes, hshapes⟩ := exists_buildAll ts hts hfields
      refine ⟨e :: es, ?_, hshape, hshapes⟩
      change (build sizeofString reads T (emitted fieldSchemas t)).bind (fun e =>
        (buildAll sizeofString reads T (emittedAll fieldSchemas ts)).map (e :: ·)) = _
      rw [he, hes]
      rfl
end

mutual
/-- What is built was acceptable. -/
theorem acceptable_of_build :
    ∀ (t : HiveExpr) {e : Expression}, build sizeofString reads T
    (emitted fieldSchemas t) = some e →
      t.Every (Acceptable sizeofString reads)
  | .var _, _, _ => trivial
  | .const c, e, hbuild => by
      change (if parseConst reads { value := c.1, constType := some c.2 } then
        some (Term.const { value := c.1, constType := some c.2 }) else none) = some e at hbuild
      split at hbuild
      · assumption
      · exact absurd hbuild (Option.some_ne_none e).symm
  | .func udf args, e, hbuild => by
      obtain ⟨es, -, hes, hfunc⟩ := eq_func_of_build hbuild
      exact ⟨hfunc, acceptable_of_buildAll args hes⟩
theorem acceptable_of_buildAll :
    ∀ (ts : List HiveExpr) {es : List Expression},
      buildAll sizeofString reads T (emittedAll fieldSchemas ts) = some es →
      Term.EveryAll (Acceptable sizeofString reads) ts
  | [], _, _ => trivial
  | t :: ts, es, hbuild => by
      obtain ⟨e, es', -, he, hes⟩ := buildAll_emitted_cons hbuild
      exact ⟨acceptable_of_build t he, acceptable_of_buildAll ts hes⟩
end

end

/-! ## What the engine accepts -/

/-- An expression that the front end emits over fields of the row is built in its shape if and only
if every node is acceptable. -/
theorem emitted_built_iff (sizeofString : ℕ) (reads : DataType → String → Bool) (T : RowType)
    (fieldSchemas : String → Option String) (t : HiveExpr)
    (hfields : t.Every (FieldExists T fieldSchemas)) :
    (∃ e, build sizeofString reads T (emitted fieldSchemas t) = some e ∧
      SameShape sizeofString T fieldSchemas t e) ↔
      t.Every (Acceptable sizeofString reads) := by
  constructor
  · rintro ⟨e, hbuild, -⟩
    exact acceptable_of_build t hbuild
  · intro haccept
    exact exists_build t haccept hfields

/-- A row with a truth value. -/
def flagRow : RowType where
  key := [{ name := "id", defaultValue := .int32 0 }]
  value := [{ name := "flag", defaultValue := .bool false }]

/-- `CASE WHEN flag THEN 'yes' ELSE 'no' END`. -/
def whenElse : HiveExpr :=
  .func (.when, .string) [.var ("flag", .bool), .const ("yes", .string), .const ("no", .string)]

/-- `CASE WHEN flag THEN 'yes' END`. -/
def whenWithoutElse : HiveExpr :=
  .func (.when, .string) [.var ("flag", .bool), .const ("yes", .string)]

theorem parseField_flag : (parseField flagRow "flag").isSome = true := by decide

theorem emitted_built_whenElse :
    (∃ e, build 8 (fun _ _ => true) flagRow (emitted (fun _ => none) whenElse) = some e ∧
        SameShape 8 flagRow (fun _ => none) whenElse e) ↔
      whenElse.Every (Acceptable 8 fun _ _ => true) :=
  emitted_built_iff 8 (fun _ _ => true) flagRow (fun _ => none) whenElse
    ⟨trivial, parseField_flag, trivial, trivial, trivial⟩

/-- A `CASE` without `ELSE` is refused. -/
theorem not_emitted_built :
    ¬ ∀ t : HiveExpr, t.Every (FieldExists flagRow fun _ => none) →
      ∃ e, build 8 (fun _ _ => true) flagRow (emitted (fun _ => none) t) = some e ∧
        SameShape 8 flagRow (fun _ => none) t e := by
  intro hall
  have hfields : whenWithoutElse.Every (FieldExists flagRow fun _ => none) :=
    ⟨trivial, parseField_flag, trivial, trivial⟩
  obtain ⟨e, hbuild, -⟩ := hall whenWithoutElse hfields
  have haccept := (acceptable_of_build whenWithoutElse hbuild).1
  exact absurd haccept.2 (by decide)

end Idgs.Sql
