import Idgs.Expr.Variant
import Idgs.Sql.Plan

/-!
# The expression factory

`ExpressionFactory`: the expression classes with the names that they are registered under, and how
an `Expr` is built into a tree of expressions. A class checks how many children it gets; a field is
looked up in the key and then in the value of the row.
-/

namespace Idgs.Expr

open Common (Term)
open Sql (Const DataType)

/-! ## Classes -/

/-- The numbers of subexpressions that a class accepts. -/
inductive Arity
  | nullary | unary | binary | ternary | nAry
  | range (lo hi : ℕ)
  | between | whenPairs | casePairs
  | variable

/-- The expression classes, other than `ConstExpression` and `FieldExtractor`. -/
inductive ExpressionClass
  | and | or | not | eq | ne | lt | le | gt | ge | between | inList | isNull | isNotNull | whenThen
    | caseOf | nvl
  | coalesce | variableSet | variableGet | like | subStr | length | reverse | concat | concatWS
      | upper | lower
  | trim | lTrim | rTrim | space | repeat | ascii | lPad | rPad | locate | inStr | findInSet
      | parseURL | regExp
  | regExpReplace | regExpExtract | getJsonObject | add | subtract | multiply | divide | modulus
      | hash | bitAnd
  | bitOr | bitNot | bitXor | round | floor | ceil | rand | exp | ln | log10 | log2 | log | pow
      | sqrt | bin | hex
  | unHex | conv | abs | pMod | sin | aSin | cos | aCos | positive | negative | degrees | radians
      | sign | e | pi
  | fromUnixTime | unixTimestamp | toDate | year | month | day | hour | minute | second | weekOfYear
      | dateDiff
  | dateAdd | dateSub | udfToString | udfToLong | udfToInteger | udfToShort | udfToByte | udfToFloat
      | udfToDouble
  | udfToBoolean | udfToBinary | udfToDecimal
deriving DecidableEq

/-- `name()`, `alias()` and what `parse` checks. -/
structure ClassInfo where
  name : String
  alternative : Option String
  arity : Arity

/-- The registered classes. -/
def ExpressionClass.info : ExpressionClass → ClassInfo
  | .and => ⟨"AND", none, .nAry⟩
  | .or => ⟨"OR", none, .nAry⟩
  | .not => ⟨"NOT", none, .unary⟩
  | .eq => ⟨"EQ", none, .binary⟩
  | .ne => ⟨"NE", none, .binary⟩
  | .lt => ⟨"LT", none, .binary⟩
  | .le => ⟨"LE", none, .binary⟩
  | .gt => ⟨"GT", none, .binary⟩
  | .ge => ⟨"GE", none, .binary⟩
  | .between => ⟨"BETWEEN", none, .between⟩
  | .inList => ⟨"IN", none, .nAry⟩
  | .isNull => ⟨"ISNULL", none, .unary⟩
  | .isNotNull => ⟨"ISNOTNULL", none, .unary⟩
  | .whenThen => ⟨"WHEN", some "IF", .whenPairs⟩
  | .caseOf => ⟨"CASE", none, .casePairs⟩
  | .nvl => ⟨"NVL", none, .binary⟩
  | .coalesce => ⟨"COALESCE", none, .nAry⟩
  | .variableSet => ⟨"VSET", none, .variable⟩
  | .variableGet => ⟨"VGET", none, .variable⟩
  | .like => ⟨"LIKE", none, .binary⟩
  | .subStr => ⟨"SUBSTR", some "SUBSTRING", .range 2 3⟩
  | .length => ⟨"LENGTH", none, .unary⟩
  | .reverse => ⟨"REVERSE", none, .unary⟩
  | .concat => ⟨"CONCAT", none, .nAry⟩
  | .concatWS => ⟨"CONCAT_WS", none, .nAry⟩
  | .upper => ⟨"UPPER", some "UCASE", .unary⟩
  | .lower => ⟨"LOWER", some "LCASE", .unary⟩
  | .trim => ⟨"TRIM", none, .unary⟩
  | .lTrim => ⟨"LTRIM", none, .unary⟩
  | .rTrim => ⟨"RTRIM", none, .unary⟩
  | .space => ⟨"SPACE", none, .unary⟩
  | .repeat => ⟨"REPEAT", none, .binary⟩
  | .ascii => ⟨"ASCII", none, .unary⟩
  | .lPad => ⟨"LPAD", none, .ternary⟩
  | .rPad => ⟨"RPAD", none, .ternary⟩
  | .locate => ⟨"LOCATE", none, .range 2 3⟩
  | .inStr => ⟨"INSTR", none, .binary⟩
  | .findInSet => ⟨"FIND_IN_SET", none, .binary⟩
  | .parseURL => ⟨"PARSE_URL", none, .range 2 3⟩
  | .regExp => ⟨"REGEXP", some "RLIKE", .binary⟩
  | .regExpReplace => ⟨"REGEXP_REPLACE", none, .ternary⟩
  | .regExpExtract => ⟨"REGEXP_EXTRACT", none, .range 2 3⟩
  | .getJsonObject => ⟨"GET_JSON_OBJECT", none, .binary⟩
  | .add => ⟨"ADD", some "+", .nAry⟩
  | .subtract => ⟨"SUBTRACT", some "-", .nAry⟩
  | .multiply => ⟨"MULTIPLY", some "*", .nAry⟩
  | .divide => ⟨"DIVIDE", some "/", .nAry⟩
  | .modulus => ⟨"MODULUS", some "%", .binary⟩
  | .hash => ⟨"HASH", none, .nAry⟩
  | .bitAnd => ⟨"BIT_AND", some "&", .nAry⟩
  | .bitOr => ⟨"BIT_OR", some "|", .nAry⟩
  | .bitNot => ⟨"BIT_NOT", some "~", .unary⟩
  | .bitXor => ⟨"BIT_XOR", some "^", .nAry⟩
  | .round => ⟨"ROUND", none, .range 1 2⟩
  | .floor => ⟨"FLOOR", none, .unary⟩
  | .ceil => ⟨"CEIL", some "CEILING", .unary⟩
  | .rand => ⟨"RAND", none, .range 0 1⟩
  | .exp => ⟨"EXP", none, .unary⟩
  | .ln => ⟨"LN", none, .unary⟩
  | .log10 => ⟨"LOG10", none, .unary⟩
  | .log2 => ⟨"LOG2", none, .unary⟩
  | .log => ⟨"LOG", none, .binary⟩
  | .pow => ⟨"POW", some "POWER", .binary⟩
  | .sqrt => ⟨"SQRT", none, .unary⟩
  | .bin => ⟨"BIN", none, .unary⟩
  | .hex => ⟨"HEX", none, .unary⟩
  | .unHex => ⟨"UNHEX", none, .unary⟩
  | .conv => ⟨"CONV", none, .ternary⟩
  | .abs => ⟨"ABS", none, .unary⟩
  | .pMod => ⟨"PMOD", none, .binary⟩
  | .sin => ⟨"SIN", none, .unary⟩
  | .aSin => ⟨"ASIN", none, .unary⟩
  | .cos => ⟨"COS", none, .unary⟩
  | .aCos => ⟨"ACOS", none, .unary⟩
  | .positive => ⟨"POSITIVE", none, .unary⟩
  | .negative => ⟨"NEGATIVE", none, .unary⟩
  | .degrees => ⟨"DEGREES", none, .unary⟩
  | .radians => ⟨"RADIANS", none, .unary⟩
  | .sign => ⟨"SIGN", none, .unary⟩
  | .e => ⟨"E", none, .nullary⟩
  | .pi => ⟨"PI", none, .nullary⟩
  | .fromUnixTime => ⟨"FROM_UNIXTIME", none, .range 1 2⟩
  | .unixTimestamp => ⟨"UNIX_TIMESTAMP", some "TIMESTAMP", .range 0 1⟩
  | .toDate => ⟨"TO_DATE", none, .unary⟩
  | .year => ⟨"YEAR", none, .unary⟩
  | .month => ⟨"MONTH", none, .unary⟩
  | .day => ⟨"DAY", some "DAYOFMONTH", .unary⟩
  | .hour => ⟨"HOUR", none, .unary⟩
  | .minute => ⟨"MINUTE", none, .unary⟩
  | .second => ⟨"SECOND", none, .unary⟩
  | .weekOfYear => ⟨"WEEKOFYEAR", none, .unary⟩
  | .dateDiff => ⟨"DATEDIFF", none, .binary⟩
  | .dateAdd => ⟨"DATE_ADD", none, .binary⟩
  | .dateSub => ⟨"DATE_SUB", none, .binary⟩
  | .udfToString => ⟨"UDFTOSTRING", none, .unary⟩
  | .udfToLong => ⟨"UDFTOLONG", none, .unary⟩
  | .udfToInteger => ⟨"UDFTOINTEGER", none, .unary⟩
  | .udfToShort => ⟨"UDFTOSHORT", none, .unary⟩
  | .udfToByte => ⟨"UDFTOBYTE", none, .unary⟩
  | .udfToFloat => ⟨"UDFTOFLOAT", none, .unary⟩
  | .udfToDouble => ⟨"UDFTODOUBLE", none, .unary⟩
  | .udfToBoolean => ⟨"UDFTOBOOLEAN", none, .unary⟩
  | .udfToBinary => ⟨"UDFTOBINARY", none, .range 0 2⟩
  | .udfToDecimal => ⟨"UDFTODECIMAL", none, .unary⟩

/-- `ExpressionFactory::init`. -/
def registered : List ExpressionClass :=
  [.and, .or, .not, .eq, .ne, .lt, .le, .gt, .ge, .between, .inList, .isNull, .isNotNull, .whenThen,
    .caseOf,
   .nvl, .coalesce, .variableSet, .variableGet, .like, .subStr, .length, .reverse, .concat,
   .concatWS, .upper,
   .lower, .trim, .lTrim, .rTrim, .space, .repeat, .ascii, .lPad, .rPad, .locate, .inStr,
   .findInSet, .parseURL,
   .regExp, .regExpReplace, .regExpExtract, .getJsonObject, .add, .subtract, .multiply, .divide,
   .modulus, .hash,
   .bitAnd, .bitOr, .bitNot, .bitXor, .round, .floor, .ceil, .rand, .exp, .ln, .log10, .log2, .log,
   .pow, .sqrt,
   .bin, .hex, .unHex, .conv, .abs, .pMod, .sin, .aSin, .cos, .aCos, .positive, .negative, .degrees,
   .radians,
   .sign, .e, .pi, .fromUnixTime, .unixTimestamp, .toDate, .year, .month, .day, .hour, .minute,
   .second,
   .weekOfYear, .dateDiff, .dateAdd, .dateSub, .udfToString, .udfToLong, .udfToInteger, .udfToShort,
   .udfToByte,
   .udfToFloat, .udfToDouble, .udfToBoolean, .udfToBinary, .udfToDecimal]

/-- `registerExpression`: the number of aliases that are registered is `sizeof(alias) /
sizeof(std::string)`, where `alias` is a pointer. -/
def aliasCount (sizeofString : ℕ) : ℕ := 8 / sizeofString

/-- The names that a class is registered under. -/
def ExpressionClass.names (sizeofString : ℕ) (cls : ExpressionClass) : List String :=
  cls.info.name :: cls.info.alternative.toList.take (aliasCount sizeofString)

/-- `exprs.find`. A name belongs to the first class that it was registered for. -/
def findClass (sizeofString : ℕ) (name : String) : Option ExpressionClass :=
  registered.find? fun cls => (cls.names sizeofString).contains name

/-! ## Constants -/

/-- `str::toUpper`. -/
def toUpper (text : String) : String := String.ofList (text.toList.map Char.toUpper)

/-- The value of a `ConstExpression`; `none` when the text is not of the type. Floating point
numbers and `UINT32` have none. -/
def constValue (c : Const) : Option Value :=
  match c.constType with
  | none | some .string | some .bytes => some (.string c.value)
  | some .int32 | some .enum => (stoi c.value).map .int32
  | some .int64 => (stol c.value).map .int64
  | some .uint64 => (stoul c.value).map .uint64
  | some .bool =>
    if toUpper c.value = "TRUE" then some (.bool true)
    else if toUpper c.value = "FALSE" then some (.bool false)
    else (stoi c.value).map fun v => .bool (v ≠ 0)
  | some .double | some .float | some .uint32 => none

/-- `ConstExpression::parse`; `reads` is whether `sys::convert` reads a text of the types without a
value here. -/
def parseConst (reads : DataType → String → Bool) (c : Const) : Bool :=
  match c.constType with
  | some .double => reads .double c.value
  | some .float => reads .float c.value
  | some .uint32 => reads .uint32 c.value
  | _ => (constValue c).isSome

/-! ## Fields -/

/-- A field of a message, with the value that reflection reads where it is not set. -/
structure FieldDescriptor where
  name : String
  defaultValue : Value
deriving DecidableEq

namespace FieldDescriptor

/-- `cpp_type`. -/
def type (field : FieldDescriptor) : VariantType := field.defaultValue.type

end FieldDescriptor

/-- The fields of a message. -/
abbrev Descriptor := List FieldDescriptor

/-- `FindFieldByName`. -/
def Descriptor.findFieldByName (descriptor : Descriptor) (name : String) : Option FieldDescriptor :=
  descriptor.find? fun field => field.name = name

/-- The message that a field is read from. -/
inductive Target
  | key | value
deriving DecidableEq

/-- The types of a row's key and value. -/
structure RowType where
  key : Descriptor
  value : Descriptor

/-- The type of one of the two messages. -/
def RowType.descriptor (T : RowType) : Target → Descriptor
  | .key => T.key
  | .value => T.value

/-- A `FieldExtractor` that has been parsed. -/
structure ParsedField where
  target : Target
  field : FieldDescriptor
deriving DecidableEq

/-- The parts of a text between separators. -/
def splitChars (separator : Char) : List Char → List (List Char)
  | [] => [[]]
  | c :: cs =>
    if c = separator then [] :: splitChars separator cs
    else match splitChars separator cs with
      | [] => [[c]]
      | part :: parts => (c :: part) :: parts

/-- The first part of a text is what comes before the first separator. -/
theorem exists_splitChars (sep : Char) (s : List Char) :
    ∃ parts, splitChars sep s = s.takeWhile (· ≠ sep) :: parts := by
  induction s with
  | nil => exact ⟨[], rfl⟩
  | cons c s ih =>
    obtain ⟨parts, hparts⟩ := ih
    rw [splitChars]
    by_cases hc : c = sep
    · rw [if_pos hc, List.takeWhile_cons_of_neg (by simpa using hc)]
      exact ⟨_, rfl⟩
    · rw [if_neg hc, hparts, List.takeWhile_cons_of_pos (by simpa using hc)]
      exact ⟨_, rfl⟩

theorem splitChars_append (sep : Char) (a b : List Char) :
    splitChars sep (a ++ sep :: b) = splitChars sep a ++ splitChars sep b := by
  induction a with
  | nil =>
    have hcons : splitChars sep (sep :: b) = [] :: splitChars sep b := if_pos rfl
    exact hcons
  | cons c a ih =>
    obtain ⟨parts, hparts⟩ := exists_splitChars sep a
    rw [List.cons_append, splitChars, splitChars, ih, hparts]
    split
    · rfl
    · rfl

/-- `str::split`: an empty last part is dropped. -/
def split (text : String) (separator : Char) : List String :=
  let parts := splitChars separator text.toList
  (if parts.getLast? = some [] then parts.dropLast else parts).map String.ofList

/-- `FieldExtractor::parse`: the first part of the path says whether it is a field of the key, or
else of the value; the last part is what is read. Fields that are messages are left out, so that
every part is looked up in one message. -/
def parseField (T : RowType) (path : String) : Option ParsedField :=
  match split path '.' with
  | [] => none
  | first :: rest =>
    let target := if (T.key.findFieldByName first).isSome then Target.key else .value
    ((first :: rest).mapM (T.descriptor target).findFieldByName).bind fun fields =>
      fields.getLast?.map fun field => { target, field }

/-! ## Building -/

/-- `Expression`: a `ConstExpression`, a `FieldExtractor` or another class with its children. -/
abbrev Expression := Term Const ExpressionClass ParsedField

/-- What `parse` checks of the subexpressions before they are built. `std::stoul` throws on the
empty value of an expression that is no constant. -/
def Arity.accepts : Arity → List Sql.Expr → Bool
  | .nullary, subs => subs.length == 0
  | .unary, subs => subs.length == 1
  | .binary, subs => subs.length == 2
  | .ternary, subs => subs.length == 3
  | .nAry, subs => subs.length != 0
  | .range lo hi, subs => lo ≤ subs.length && subs.length ≤ hi
  | .between, subs => subs.length == 4 && match subs with
      | .const c :: _ => c.constType == some .bool
      | _ => false
  | .whenPairs, subs => 3 ≤ subs.length && subs.length &&& 1 != 0
  | .casePairs, subs => 5 ≤ subs.length && subs.length &&& 2 != 0
  | .variable, _ => false

mutual
/-- `ExpressionFactory::build`. -/
def build (sizeofString : ℕ) (reads : DataType → String → Bool) (T : RowType) :
    Sql.Expr → Option Expression
  | .const c => if parseConst reads c then some (.const c) else none
  | .var path => (parseField T path).map .var
  | .func name subs =>
    (findClass sizeofString name).bind fun cls =>
      if cls.info.arity.accepts subs then (buildAll sizeofString reads T subs).map (.func cls)
      else none
/-- The expressions of the children. -/
def buildAll (sizeofString : ℕ) (reads : DataType → String → Bool) (T : RowType) :
    List Sql.Expr → Option (List Expression)
  | [] => some []
  | sub :: subs =>
    (build sizeofString reads T sub).bind fun e =>
    (buildAll sizeofString reads T subs).map (e :: ·)
end

end Idgs.Expr
