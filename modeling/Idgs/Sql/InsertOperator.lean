import Mathlib.Algebra.Group.Int.Defs
import Idgs.Common.Splitting

/-!
# Rows to insert

`InsertOperator.parseRow` makes the key and the value of a row. A line is cut with `String.split`,
which takes the separator for a regular expression and drops empty texts at the end. One test stands
before all conversions of numbers. A result message is copied field by field, into the key only.
-/

namespace Idgs.Sql.Insert

open Common.Splitting (occurrences split)

/-! ## Fields and messages -/

/-- A Java string. -/
abbrev Text := List Char

/-- A sign, if there is one, and what follows it. -/
def splitSign : Text → Option Char × Text
  | '-' :: body => (some '-', body)
  | '+' :: body => (some '+', body)
  | text => (none, text)

/-- `isNumeric`, that is `^[-+]?(([0-9]+)([.]([0-9]+))?|([.]([0-9]+))?)$`. -/
def isNumeric (text : Text) : Bool :=
  match (splitSign text).2.dropWhile Char.isDigit with
  | [] => true
  | '.' :: fraction => !fraction.isEmpty && fraction.all Char.isDigit
  | _ => false

/-- `EnumDescriptor`: the names of the values with their numbers. -/
structure EnumDescriptor where
  values : List (Text × Int32)
  nodup : (values.map Prod.fst).Nodup
  identifiers : ∀ v ∈ values, isNumeric v.1 = false

namespace EnumDescriptor

def findValueByName (e : EnumDescriptor) (name : Text) : Option (Text × Int32) :=
  e.values.find? fun v => v.1 = name

/-- The first value of the number. -/
def findValueByNumber (e : EnumDescriptor) (number : Int32) : Option (Text × Int32) :=
  e.values.find? fun v => v.2 = number

end EnumDescriptor

/-- `FieldDescriptor.Type` of a singular field that is not a message. -/
inductive FieldType
  | double | float | int64 | uint64 | int32 | fixed64 | fixed32 | bool | string | bytes | uint32
  | enum (type : EnumDescriptor)
  | sfixed32 | sfixed64 | sint32 | sint64

/-- `FieldDescriptor.JavaType`. -/
inductive JavaType
  | int | long | float | double | boolean | string | byteString | enum
deriving DecidableEq

/-- `getJavaType`. -/
def FieldType.javaType : FieldType → JavaType
  | .int32 | .uint32 | .sint32 | .fixed32 | .sfixed32 => .int
  | .int64 | .uint64 | .sint64 | .fixed64 | .sfixed64 => .long
  | .float => .float
  | .double => .double
  | .bool => .boolean
  | .string => .string
  | .bytes => .byteString
  | .enum _ => .enum

/-- `JavaType.toString`. -/
def JavaType.toString : JavaType → String
  | .int => "INT"
  | .long => "LONG"
  | .float => "FLOAT"
  | .double => "DOUBLE"
  | .boolean => "BOOLEAN"
  | .string => "STRING"
  | .byteString => "BYTE_STRING"
  | .enum => "ENUM"

/-- The value of a field; `δ` and `φ` are the floating point numbers. -/
inductive Value (δ φ : Type)
  | int (v : Int32)
  | long (v : Int64)
  | float (v : φ)
  | double (v : δ)
  | boolean (v : Bool)
  | string (v : Text)
  | byteString (v : List UInt8)
  | enum (v : Text × Int32)

variable {δ φ : Type}

/-- `FieldDescriptor`. -/
structure FieldDescriptor (δ φ : Type) where
  name : String
  type : FieldType
  required : Bool
  defaultValue : Value δ φ

/-- `DynamicMessage`, with what is set of the fields of its type, in their order. -/
structure DynamicMessage (δ φ : Type) where
  type : String
  fields : List (Option (Value δ φ))

/-- What the operator uses of the platform: the matches of a regular expression that `split` cuts
at, if it is one; the bytes of a text, the floating point numbers next to decimal ones; whether a
plus sign is read in front of an integer, as it is from version 7 on; the registered messages. -/
structure Platform (δ φ : Type) where
  compile : Text → Option (Text → List (ℕ × ℕ))
  getBytes : Text → List UInt8
  nearestFloat : Text → φ
  nearestDouble : Text → δ
  readsPlus : Bool
  cache : String → Option (List (FieldDescriptor δ φ))
  compile_ordinary : ∀ regex : Text, regex ≠ [] →
    (∀ c ∈ regex, c ∉ "\\^$.|?*+()[\x7b".toList) → compile regex = some (occurrences regex)

/-- `StoreConfig`. -/
structure StoreConfig where
  name : String
  keyType : String
  valueType : String
  fieldSeperator : Text

/-- `InsertOperator`. -/
structure InsertOperator (δ φ : Type) where
  storeConfig : StoreConfig
  key : Option (DynamicMessage δ φ)
  value : Option (DynamicMessage δ φ)
  params : String → Option (DynamicMessage δ φ)

/-- What is thrown. -/
inductive Thrown
  | idgsException (message : String)
  | numberFormatException
  | patternSyntaxException
  | illegalArgumentException
  | uninitializedMessageException
  | nullPointerException

/-! ## Reading a field -/

/-- The number of a text of decimal digits, perhaps with a sign. -/
def integer (text : Text) : Option ℤ :=
  let body := (splitSign text).2
  if body ≠ [] ∧ body.all Char.isDigit then
    some ((if (splitSign text).1 = some '-' then -1 else 1) * Nat.ofDigitChars 10 body 0)
  else none

section Platform

variable (platform : Platform δ φ)

/-- Whether `Integer.valueOf` and `Long.valueOf` read the sign. -/
def signRead (text : Text) : Bool :=
  platform.readsPlus || decide ((splitSign text).1 ≠ some '+')

/-- `Integer.valueOf` and `Long.valueOf`. -/
def valueOf (bits : ℕ) (text : Text) : Except Thrown ℤ :=
  match integer text with
  | some n =>
    if signRead platform text ∧ -2 ^ (bits - 1) ≤ n ∧ n < 2 ^ (bits - 1) then .ok n
    else .error .numberFormatException
  | none => .error .numberFormatException

/-- `Float.valueOf` and `Double.valueOf` of a numeric text. -/
def floatValueOf {α : Type} (nearest : Text → α) (text : Text) : Except Thrown α :=
  if text.any Char.isDigit then .ok (nearest text) else .error .numberFormatException

/-- Two texts are equal but for the case of their letters. -/
def equalsIgnoreCase (s t : Text) : Bool := s.map Char.toLower = t.map Char.toLower

/-- `errMsg`. -/
def errMsg (field : FieldDescriptor δ φ) : Thrown :=
  .idgsException ("Wrong object type used with protocol message reflection, field " ++ field.name ++
    " + need type " ++ field.type.javaType.toString)

/-- `if (!isNumeric(stringValue)) throw`, in front of a conversion. -/
def ifNumeric {α : Type} (field : FieldDescriptor δ φ) (text : Text) (value : Except Thrown α) :
    Except Thrown α :=
  if isNumeric text then value else .error (errMsg field)

/-- `findValueByName`, or `findValueByNumber` of a numeric text. -/
def findValue (type : EnumDescriptor) (text : Text) : Except Thrown (Option (Text × Int32)) :=
  if isNumeric text then
    (valueOf platform 32 text).map fun n => type.findValueByNumber (Int32.ofInt n)
  else .ok (type.findValueByName text)

/-- `getFieldValue`. -/
def getFieldValue (field : FieldDescriptor δ φ) (text : Text) : Except Thrown (Value δ φ) :=
  match field.type with
  | .int32 | .uint32 | .sint32 | .fixed32 | .sfixed32 =>
    ifNumeric field text ((valueOf platform 32 text).map fun n => .int (Int32.ofInt n))
  | .int64 | .uint64 | .sint64 | .fixed64 | .sfixed64 =>
    ifNumeric field text ((valueOf platform 64 text).map fun n => .long (Int64.ofInt n))
  | .float => ifNumeric field text ((floatValueOf platform.nearestFloat text).map .float)
  | .double => ifNumeric field text ((floatValueOf platform.nearestDouble text).map .double)
  | .bool => .ok (.boolean (equalsIgnoreCase text "true".toList))
  | .string => .ok (.string text)
  | .bytes => .ok (.byteString (platform.getBytes text))
  | .enum type =>
    match findValue platform type text with
    | .error e => .error e
    | .ok none => .error (errMsg field)
    | .ok (some v) => .ok (.enum v)

/-- The loop body: what is set of a field. -/
def parseField (field : FieldDescriptor δ φ) (text : Text) :
    Except Thrown (Option (Value δ φ)) :=
  if text.isEmpty ∧ field.required = false then .ok none
  else (getFieldValue platform field text).map some

/-! ## The two methods -/

/-- `Builder.build`. -/
def build (fields : List (FieldDescriptor δ φ)) (message : DynamicMessage δ φ) :
    Except Thrown (DynamicMessage δ φ) :=
  if (fields.zip message.fields).any fun f => f.1.required && f.2.isNone then
    .error .uninitializedMessageException
  else .ok message

namespace InsertOperator

/-- The key, the value and the attachments. -/
def put (op : InsertOperator δ φ) (key value : DynamicMessage δ φ) : InsertOperator δ φ :=
  { op with
    key := some key
    value := some value
    params := Function.update (Function.update op.params "key" (some key)) "value" (some value) }

/-- The last lines of both methods. -/
def assign (op : InsertOperator δ φ) (keyFields valueFields : List (FieldDescriptor δ φ))
    (key value : DynamicMessage δ φ) : Except Thrown Unit × InsertOperator δ φ :=
  match build keyFields key with
  | .error e => (.error e, op)
  | .ok key =>
    match build valueFields value with
    | .error e => (.error e, { op with key := some key })
    | .ok value => (.ok (), op.put key value)

end InsertOperator

/-- `Data and schema of store … cannot matched`. -/
def cannotMatched (cfg : StoreConfig) : Thrown :=
  .idgsException ("Data and schema of store " ++ cfg.name ++ " cannot matched")

/-- `row.split(sepertor)`. -/
def splitRow (cfg : StoreConfig) (row : Text) : Except Thrown (List Text) :=
  match platform.compile cfg.fieldSeperator with
  | none => .error .patternSyntaxException
  | some spans => .ok (split row (spans row))

/-- The fields of a registered message. -/
def registered (what type : String) : Except Thrown (List (FieldDescriptor δ φ)) :=
  match platform.cache type with
  | none => .error (.idgsException (what ++ " " ++ type ++ " is not registered yet."))
  | some fields => .ok fields

/-- `parseRow` of a line, up to the messages that are built. -/
def readRow (cfg : StoreConfig) (row : Text) :
    Except Thrown ((List (FieldDescriptor δ φ) × DynamicMessage δ φ) ×
      (List (FieldDescriptor δ φ) × DynamicMessage δ φ)) := do
  if row.isEmpty then throw (.idgsException "No data found.")
  let fields ← splitRow platform cfg row
  let keyFields ← registered platform "Key" cfg.keyType
  let valueFields ← registered platform "Value" cfg.valueType
  if keyFields.length + valueFields.length ≠ fields.length then throw (cannotMatched cfg)
  let key ← (keyFields.zip fields).mapM fun f => parseField platform f.1 f.2
  let value ← (valueFields.zip (fields.drop keyFields.length)).mapM fun f =>
    parseField platform f.1 f.2
  return ((keyFields, ⟨cfg.keyType, key⟩), (valueFields, ⟨cfg.valueType, value⟩))

/-- `parseRow` of a line. -/
def parseRow (op : InsertOperator δ φ) (row : Text) : Except Thrown Unit × InsertOperator δ φ :=
  match readRow platform op.storeConfig row with
  | .error e => (.error e, op)
  | .ok ((keyFields, key), (valueFields, value)) => op.assign keyFields valueFields key value

/-- A field of a result message: its type, its default and what is set. -/
structure ResultField (δ φ : Type) where
  javaType : JavaType
  defaultValue : Value δ φ
  value : Option (Value δ φ)

/-- `getField`. -/
def ResultField.getField (field : ResultField δ φ) : Value δ φ :=
  field.value.getD field.defaultValue

/-- The body of both loops over a result: the value of the result field is set in the builder of the
key. -/
def copyField (keyType type : String) (field : FieldDescriptor δ φ) (result : ResultField δ φ) :
    Except Thrown (Option (Value δ φ)) :=
  if field.type.javaType ≠ result.javaType then .error (errMsg field)
  else if type ≠ keyType then .error .illegalArgumentException
  else .ok (some result.getField)

/-- The fields of a registered type, if a message is of this type. -/
def ofType (type : String) (message : DynamicMessage δ φ) : Option (List (FieldDescriptor δ φ)) :=
  if type = message.type then platform.cache type else none

/-- `parseRow` of a result message, up to the messages that are built. -/
def readResult (op : InsertOperator δ φ) (result : List (ResultField δ φ)) :
    Except Thrown ((List (FieldDescriptor δ φ) × DynamicMessage δ φ) ×
      (List (FieldDescriptor δ φ) × DynamicMessage δ φ)) := do
  let cfg := op.storeConfig
  let some value := op.value | throw (.idgsException "Data would be insert is null")
  let some key := op.key | throw .nullPointerException
  let some keyFields := ofType platform cfg.keyType key
    | throw (.idgsException
        ("Wrong object type used with protocol message reflection with key type " ++ cfg.keyType))
  let some valueFields := ofType platform cfg.valueType value
    | throw (.idgsException
        ("Wrong object type used with protocol message reflection with value type " ++
          cfg.valueType))
  if keyFields.length + valueFields.length ≠ result.length then throw (cannotMatched cfg)
  let fields ← (keyFields.zip result).mapM fun f => copyField cfg.keyType cfg.keyType f.1 f.2
  let copied ← (valueFields.zip (result.drop keyFields.length)).mapM fun f =>
    copyField cfg.keyType cfg.valueType f.1 f.2
  return ((keyFields, ⟨cfg.keyType, copied ++ fields.drop copied.length⟩),
    (valueFields, ⟨cfg.valueType, valueFields.map fun _ => none⟩))

/-- `parseRow` of a result message. -/
def parseResult (op : InsertOperator δ φ) (result : List (ResultField δ φ)) :
    Except Thrown Unit × InsertOperator δ φ :=
  match readResult platform op result with
  | .error e => (.error e, op)
  | .ok ((keyFields, key), (valueFields, value)) => op.assign keyFields valueFields key value

end Platform

end Idgs.Sql.Insert
