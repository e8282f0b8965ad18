import Idgs.Common.Json
import Mathlib.Data.List.Nodup

/-!
# Messages as JSON

`ProtobufJson` prints the set fields of a message, one member for each, and reads a document member
by member into a message. What comes back of a printed message is the message itself exactly if its
strings are UTF-8 without a zero byte and its large numbers are doubles.
-/

namespace Idgs.Protobuf.Json

open Common Common.Json List

/-! ## Messages -/

inductive IntegerType
  | int32 | int64 | uint32 | uint64
  deriving DecidableEq

/-- The type of a field; a message type is known by its name in a schema. -/
inductive FieldType (ι : Type)
  | integer (type : IntegerType) | bool | enum (values : List (Text × ℤ)) | string
  | message (type : ι)

structure FieldDescriptor (ι : Type) where
  name : Text
  isRepeated : Bool
  type : FieldType ι

/-- The fields of each message type. -/
abbrev Schema (ι : Type) := ι → List (FieldDescriptor ι)

/-- A value of a field. A message has a list of values for each of its fields, empty for one that is
not set, with one value for a singular one that is. -/
inductive Value
  | integer (n : ℤ) | bool (b : Bool) | enum (number : ℤ) | string (s : Text)
  | message (fields : List (List Value))

abbrev Fields := List (List Value)

variable {ι : Type} (schema : Schema ι)

mutual
/-- Whether something holds of the values with no fields in a value of the shape of its type. -/
def Value.holds (p : FieldType ι → Value → Bool) : FieldType ι → Value → Bool
  | .message i, .message fields => fieldsHold p (schema i) fields
  | .message _, _ => false
  | type, v => p type v
/-- Whether it holds in each field. -/
def fieldsHold (p : FieldType ι → Value → Bool) : List (FieldDescriptor ι) → Fields → Bool
  | [], [] => true
  | f :: descriptor, values :: fields =>
    (f.isRepeated || decide (values.length ≤ 1)) && itemsHold p f.type values &&
      fieldsHold p descriptor fields
  | _, _ => false
/-- Whether it holds in each of the values of one type. -/
def itemsHold (p : FieldType ι → Value → Bool) (type : FieldType ι) : List Value → Bool
  | [] => true
  | v :: values => v.holds p type && itemsHold p type values
end

def IntegerType.low : IntegerType → ℤ
  | .int32 => -2 ^ 31
  | .int64 => -2 ^ 63
  | .uint32 | .uint64 => 0

def IntegerType.high : IntegerType → ℤ
  | .int32 => 2 ^ 31 - 1
  | .int64 => 2 ^ 63 - 1
  | .uint32 => 2 ^ 32 - 1
  | .uint64 => 2 ^ 64 - 1

/-- The values of a type. -/
def isOf : FieldType ι → Value → Bool
  | .integer type, .integer n => decide (type.low ≤ n ∧ n ≤ type.high)
  | .bool, .bool _ => true
  | .enum values, .enum n => n ∈ values.map Prod.snd
  | .string, .string _ => true
  | _, _ => false

/-! ## The writer -/

/-- `EnumValueDescriptor::name` of the first value with a number. -/
def nameOf (values : List (Text × ℤ)) (n : ℤ) : Text :=
  ((values.find? fun value => value.2 = n).map Prod.fst).getD []

mutual
/-- `printValue`, `ProtobufJson::toJsonStream` of a message. -/
def printValue : FieldType ι → Value → Text
  | .message i, .message fields =>
    '\x7b' :: ([','].intercalate (printFields (schema i) fields) ++ ['\x7d'])
  | .integer _, .integer n => integerText n
  | .bool, .bool b => [if b then '1' else '0']
  | .enum values, .enum n => '"' :: (nameOf values n ++ ['"'])
  | .string, .string s => '"' :: (escape s ++ ['"'])
  | _, _ => []
/-- The members of the fields that are set, each behind its name (`printFieldName`,
`fieldToJsonStream`). -/
def printFields : List (FieldDescriptor ι) → Fields → List Text
  | _ :: descriptor, [] :: fields => printFields descriptor fields
  | f :: descriptor, (v :: values) :: fields =>
    ('"' :: (escape f.name ++ '"' :: ':' ::
      if f.isRepeated then
        '[' :: ([','].intercalate (printItems f.type (v :: values)) ++ [']'])
      else printValue f.type v)) :: printFields descriptor fields
  | _, _ => []
/-- The values of a repeated field. -/
def printItems (type : FieldType ι) : List Value → List Text
  | [] => []
  | v :: values => printValue type v :: printItems type values
end

/-- `ProtobufJson::toJsonString`. -/
def toJson (i : ι) (fields : Fields) : Text := printValue schema (.message i) (.message fields)

/-! ## The reader -/

/-- What the standard library makes of texts and doubles that the rest does not depend on. -/
structure Conversions where
  /-- A number with a point or an exponent, or too large for a double, in an integer field. -/
  ofReal : IntegerType → Text → Option ℤ
  /-- `simple_lexical_cast`. -/
  ofText : IntegerType → Text → Option ℤ
  /-- Whether such a number is not zero, if it is a double. -/
  nonzero : Text → Option Bool

/-- A conversion of integers. -/
def IntegerType.wrap : IntegerType → ℤ → ℤ
  | .int32, n => n.bmod (2 ^ 32)
  | .int64, n => n.bmod (2 ^ 64)
  | .uint32, n => n % 2 ^ 32
  | .uint64, n => n % 2 ^ 64

/-- Whether `yajl_parse_integer` has a number. -/
def isInt64 (n : ℤ) : Bool := decide (|n| < 2 ^ 63)

/-- Whether `strtod` has a number. -/
def isDouble (n : ℤ) : Bool := decide (|n| < 2 ^ 1024 - 2 ^ 970)

/-- `JSON_TO_NUMBER_FIELD`. The conversion of a double outside the type has no defined value. -/
def numberOf (conv : Conversions) (type : IntegerType) : Document → Option ℤ
  | .integer n =>
    if isInt64 n then some (type.wrap n)
    else if isDouble n then
      if type.low ≤ roundDouble n ∧ roundDouble n ≤ type.high then some (roundDouble n) else none
    else conv.ofReal type (integerText n)
  | .real text => conv.ofReal type text
  | .string text => conv.ofText type (cString text)
  | _ => none

/-- `JSON_TO_BOOL_FIELD`. -/
def boolOf (conv : Conversions) : Document → Option Bool
  | .string text =>
    some ([['T', 'R', 'U', 'E'], ['Y', 'E', 'S'], ['1']].contains ((cString text).map Char.toUpper))
  | .integer n => if isInt64 n || isDouble n then some (n ≠ 0) else none
  | .real text => conv.nonzero text
  | .bool b => some b
  | _ => none

/-- `FindValueByNumber`. No enumerator is no value that a field can be set to. -/
def enumerator (values : List (Text × ℤ)) (n : ℤ) : Option ℤ :=
  if n ∈ values.map Prod.snd then some n else none

/-- `JSON_TO_ENUM_FIELD`. A number that `yajl_parse_integer` does not have is one of its bounds. -/
def enumOf (values : List (Text × ℤ)) : Document → Option ℤ
  | .string text => values.lookup (cString text)
  | .integer n =>
    enumerator values (if isInt64 n then IntegerType.int32.wrap n else if n < 0 then 0 else -1)
  | .real text => enumerator values (if text.head? = some '-' then 0 else -1)
  | _ => none

/-- A value that is no message, by the type of its field. -/
def scalarOf (conv : Conversions) : FieldType ι → Document → Option Value
  | .integer type, d => (numberOf conv type d).map .integer
  | .bool, d => (boolOf conv d).map .bool
  | .enum values, d => (enumOf values d).map .enum
  | .string, .string text => some (.string (cString text))
  | _, _ => none

/-- `FindFieldByName`: the position of the field and the field. -/
def findField : List (FieldDescriptor ι) → Text → Option (ℕ × FieldDescriptor ι)
  | [], _ => none
  | f :: descriptor, name =>
    if f.name = name then some (0, f)
    else (findField descriptor name).map fun (k, f) => (k + 1, f)

def emptyFields (i : ι) : Fields := replicate (schema i).length []

/-- The fields of the message that a singular field has, those of a new one if it has none. -/
def fieldsOf (i : ι) : Option Value → Fields
  | some (.message fields) => fields
  | _ => emptyFields schema i

mutual
/-- One value of a field; that of a message is read into the message that the field has. -/
def valueOf (conv : Conversions) : FieldType ι → Option Value → Document → Option Value
  | .message i, old, .object members =>
    (membersOf conv i (fieldsOf schema i old) members).map .message
  | type, _, d => scalarOf conv type d
/-- `ProtobufJson::jsonToField`; `none` is an error. -/
def membersOf (conv : Conversions) (i : ι) : Fields → List (Text × Document) → Option Fields
  | fields, [] => some fields
  | fields, (key, node) :: members =>
    match findField (schema i) (cString key) with
    | none => none
    | some (k, f) =>
      match node, f.isRepeated with
      | .array items, true =>
        (itemsOf conv f.type items).bind fun values =>
          membersOf conv i (fields.set k (fields.getD k [] ++ values)) members
      | .array _, false => none
      | _, true => none
      | node, false =>
        (valueOf conv f.type (fields.getD k []).head? node).bind fun v =>
          membersOf conv i (fields.set k [v]) members
/-- The elements of an array, each added to the field. -/
def itemsOf (conv : Conversions) (type : FieldType ι) : List Document → Option (List Value)
  | [] => some []
  | node :: items =>
    (valueOf conv type none node).bind fun v => (itemsOf conv type items).map (v :: ·)
end

/-- `ProtobufJson::parseJsonFromString`; `none` is an error. -/
def parseJsonFromString (conv : Conversions) (i : ι) (fields : Fields) (json : Text) :
    Option Fields :=
  (treeParse json).bind fun
    | .object members => membersOf schema conv i fields members
    | _ => none

end Idgs.Protobuf.Json
