import Idgs.Common.Lists
import Idgs.Expr.Factory

/-!
# Evaluation of predicates

What a built expression evaluates to on a row. The null flag of a variant is set by the extraction
of a field only: the constructors clear it, and the compiler elides the copies of a returned
variant, so that a field's flag reaches the class above it. The classes that are no predicates are a
parameter.
-/

namespace Idgs.Expr

open Common (Term)
open Sql (Const)

/-! ## Rows -/

/-- A message: the fields that are set, each with a value of its type. -/
structure PbMessage (descriptor : Descriptor) where
  get : String → Option Value
  typed : ∀ {name field v}, descriptor.findFieldByName name = some field → get name = some v →
    v.type = field.type

/-- `ExpressionContext`: the key and the value of the row. -/
structure ExpressionContext (T : RowType) where
  key : PbMessage T.key
  value : PbMessage T.value

namespace ExpressionContext

variable {T : RowType}

/-- One of the two messages. -/
def message (ctx : ExpressionContext T) : (target : Target) → PbMessage (T.descriptor target)
  | .key => ctx.key
  | .value => ctx.value

/-- The value of a field; `none` when it is not set. -/
def read (ctx : ExpressionContext T) (f : ParsedField) : Option Value :=
  (ctx.message f.target).get f.field.name

/-- `FieldExtractor::evaluate`. -/
def extract (ctx : ExpressionContext T) (f : ParsedField) : PbVariant where
  value := (ctx.read f).getD f.field.defaultValue
  isNull := (ctx.read f).isNone

end ExpressionContext

/-- A field that a path was parsed to is one of the message. -/
theorem findFieldByName_of_parseField {T : RowType} {path : String} {f : ParsedField}
    (h : parseField T path = some f) :
    (T.descriptor f.target).findFieldByName f.field.name = some f.field := by
  unfold parseField at h
  split at h
  · exact absurd h (Option.some_ne_none f).symm
  · obtain ⟨fields, hfields, hlast⟩ := Option.bind_eq_some_iff.1 h
    obtain ⟨field, hfield, rfl⟩ := Option.map_eq_some_iff.1 hlast
    obtain ⟨part, -, hpart⟩ := Common.exists_of_mem_mapM hfields (List.mem_of_getLast? hfield)
    have hname : field.name = part := by simpa using List.find?_some hpart
    rw [hname]
    exact hpart

/-- A field's value on a row is of its type. -/
theorem ExpressionContext.type_extract {T : RowType} (ctx : ExpressionContext T) {path : String}
    {f : ParsedField}
    (h : parseField T path = some f) : (ctx.extract f).value.type = f.field.type := by
  unfold ExpressionContext.extract
  cases hread : ctx.read f with
  | none => rfl
  | some v => exact (ctx.message f.target).typed (findFieldByName_of_parseField h) hread

/-! ## Evaluation -/

/-- A truth value. -/
def PbVariant.ofBool (b : Bool) : PbVariant := { value := .bool b }

/-- The value of a child. -/
def operand (children : List (Option PbVariant)) (i : ℕ) : Option PbVariant := children[i]?.join

/-- `AndExpression::evaluate`. -/
def evaluateAnd : List (Option PbVariant) → Option Bool
  | [] => some true
  | child :: children => child.bind fun v => if v.value.castBool then evaluateAnd children
      else some false

/-- `OrExpression::evaluate`. -/
def evaluateOr : List (Option PbVariant) → Option Bool
  | [] => some false
  | child :: children => child.bind fun v => if v.value.castBool then some true
      else evaluateOr children

/-- The comparison classes. -/
def evaluateCompare (op : CompareOp) (children : List (Option PbVariant)) : Option Bool :=
  (operand children 0).bind fun lvar => (operand children 1).bind fun rvar =>
    lvar.value.compare op rvar.value

/-- `BetweenExpression::evaluate`. -/
def evaluateBetween (children : List (Option PbVariant)) : Option Bool :=
  (operand children 0).bind fun isNot => (operand children 1).bind fun field =>
    (operand children 2).bind fun lvar => (operand children 3).bind fun rvar =>
      ((field.value.compare .ge lvar.value).bind fun above =>
        if above then field.value.compare .le rvar.value else some false).map fun result =>
          if isNot.value.castBool then !result else result

/-- The loop of `InExpression::evaluate`. -/
def anyEqual (field : PbVariant) : List (Option PbVariant) → Option Bool
  | [] => some false
  | child :: children => child.bind fun value =>
    (field.value.compare .eq value.value).bind fun equal => if equal then some true
      else anyEqual field children

/-- What a class evaluates to; `none` when the evaluation throws. -/
def ExpressionClass.evaluate (others : ExpressionClass → List (Option PbVariant) → Option PbVariant)
    (children : List (Option PbVariant)) : ExpressionClass → Option PbVariant
  | .and => (evaluateAnd children).map .ofBool
  | .or => (evaluateOr children).map .ofBool
  | .not => (operand children 0).map fun v => .ofBool !v.value.castBool
  | .eq => (evaluateCompare .eq children).map .ofBool
  | .ne => (evaluateCompare .ne children).map .ofBool
  | .lt => (evaluateCompare .lt children).map .ofBool
  | .le => (evaluateCompare .le children).map .ofBool
  | .gt => (evaluateCompare .gt children).map .ofBool
  | .ge => (evaluateCompare .ge children).map .ofBool
  | .between => (evaluateBetween children).map .ofBool
  | .inList => ((operand children 0).bind fun field => anyEqual field children.tail).map .ofBool
  | .isNull => (operand children 0).map fun v => .ofBool v.isNull
  | .isNotNull => (operand children 0).map fun v => .ofBool !v.isNull
  | cls => others cls children

/-- `Expression::evaluate`. -/
def evaluate {T : RowType} (others : ExpressionClass → List (Option PbVariant) → Option PbVariant)
    (ctx : ExpressionContext T) : Expression → Option PbVariant :=
  Term.eval
    { const := fun c => (constValue c).map fun v => { value := v }
      func := fun cls children => cls.evaluate others children }
    fun f => some (ctx.extract f)

section

variable {T : RowType} {others : ExpressionClass → List (Option PbVariant) → Option PbVariant}
  {ctx : ExpressionContext T}

theorem evaluate_func (cls : ExpressionClass) (es : List Expression) :
    evaluate others ctx (.func cls es) = cls.evaluate others (es.map (evaluate others ctx)) :=
  congrArg (fun children => cls.evaluate others children) (Term.evalAll_eq_map _ _ es)

/-- Where no child throws, the loops see the values of all children. -/
theorem evaluateAnd_map_some (vs : List PbVariant) :
    evaluateAnd (vs.map some) = some (vs.all fun v => v.value.castBool) := by
  induction vs with
  | nil => rfl
  | cons v vs ih =>
    rw [List.map_cons, evaluateAnd, Option.bind_some, ih, List.all_cons]
    cases v.value.castBool <;> rfl

theorem evaluateOr_map_some (vs : List PbVariant) :
    evaluateOr (vs.map some) = some (vs.any fun v => v.value.castBool) := by
  induction vs with
  | nil => rfl
  | cons v vs ih =>
    rw [List.map_cons, evaluateOr, Option.bind_some, ih, List.any_cons]
    cases v.value.castBool <;> rfl

theorem anyEqual_map_some {field : PbVariant} (equal : Value → Bool) (vs : List PbVariant)
    (hequal : ∀ v ∈ vs, field.value.compare .eq v.value = some (equal v.value)) :
    anyEqual field (vs.map some) = some (vs.any fun v => equal v.value) := by
  induction vs with
  | nil => rfl
  | cons v vs ih =>
    rw [List.forall_mem_cons] at hequal
    rw [List.map_cons, anyEqual, Option.bind_some, hequal.1, Option.bind_some, ih hequal.2,
      List.any_cons]
    cases equal v.value <;> rfl

end

end Idgs.Expr
