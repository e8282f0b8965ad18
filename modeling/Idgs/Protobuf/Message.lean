import Mathlib.Data.List.Lex
import Mathlib.Data.List.Nodup
import Mathlib.Data.Prod.Lex
import Mathlib.Data.Rat.Floor
import Mathlib.Order.Fin.Basic

/-!
# Messages as reflection reads them

A descriptor lists the fields of a message type; a message has a value for each of them, the default
where none is set. Messages of one descriptor are ordered by their fields, the first one first.
-/

namespace Idgs.Protobuf

/-- The numbers of an enumeration, in the order in which they are declared. -/
structure EnumDescriptor where
  numbers : List ℤ
  nodup : numbers.Nodup

/-- `FieldDescriptor::CppType`, messages apart. -/
inductive ScalarType
  | uint64 | int64 | uint32 | int32 | string | double | float | bool
  | enum (e : EnumDescriptor)

/-- The integers of a machine type. -/
abbrev Ranged (lo hi : ℤ) := { x : ℤ // lo ≤ x ∧ x ≤ hi }

/-- A floating point value up to `==`: its place among the values, or not a number. -/
def Floating := WithBot ℤ

instance Floating.instLinearOrder : LinearOrder Floating :=
  inferInstanceAs (LinearOrder (WithBot ℤ))

instance Floating.instOrderBot : OrderBot Floating := inferInstanceAs (OrderBot (WithBot ℤ))

/-- What a singular field holds. An enumerator is known by its position in the declaration. -/
def ScalarType.Value : ScalarType → Type
  | uint64 => Ranged 0 (2 ^ 64 - 1)
  | int64 => Ranged (-2 ^ 63) (2 ^ 63 - 1)
  | uint32 => Ranged 0 (2 ^ 32 - 1)
  | int32 => Ranged (-2 ^ 31) (2 ^ 31 - 1)
  | string => List (Fin 256)
  | double | float => Floating
  | bool => Bool
  | enum e => Fin e.numbers.length

/-- The number of an enumerator. -/
def EnumDescriptor.number (e : EnumDescriptor) (i : Fin e.numbers.length) : ℤ := e.numbers.get i

theorem EnumDescriptor.number_injective (e : EnumDescriptor) : Function.Injective e.number :=
  List.nodup_iff_injective_get.mp e.nodup

/-- Values are ordered as their type is, enumerators by their numbers. -/
instance ScalarType.Value.instLinearOrder : ∀ s : ScalarType, LinearOrder s.Value
  | .uint64 => inferInstanceAs (LinearOrder (Ranged _ _))
  | .int64 => inferInstanceAs (LinearOrder (Ranged _ _))
  | .uint32 => inferInstanceAs (LinearOrder (Ranged _ _))
  | .int32 => inferInstanceAs (LinearOrder (Ranged _ _))
  | .string => inferInstanceAs (LinearOrder (List (Fin 256)))
  | .double => Floating.instLinearOrder
  | .float => Floating.instLinearOrder
  | .bool => inferInstanceAs (LinearOrder Bool)
  | .enum e => LinearOrder.lift' e.number e.number_injective

/-- What a repeated field holds at one place. -/
def ScalarType.Element (s : ScalarType) : Type := s.Value

/-- Elements are ordered as values are, but enumerators by their positions. -/
instance ScalarType.Element.instLinearOrder : ∀ s : ScalarType, LinearOrder s.Element
  | .enum e => inferInstanceAs (LinearOrder (Fin e.numbers.length))
  | .uint64 => ScalarType.Value.instLinearOrder .uint64
  | .int64 => ScalarType.Value.instLinearOrder .int64
  | .uint32 => ScalarType.Value.instLinearOrder .uint32
  | .int32 => ScalarType.Value.instLinearOrder .int32
  | .string => ScalarType.Value.instLinearOrder .string
  | .double => ScalarType.Value.instLinearOrder .double
  | .float => ScalarType.Value.instLinearOrder .float
  | .bool => ScalarType.Value.instLinearOrder .bool

/-- The fields of a message type, one after the other. -/
inductive Descriptor
  | nil
  | scalar (s : ScalarType) (rest : Descriptor)
  | repeated (s : ScalarType) (rest : Descriptor)
  | message (d : Descriptor) (rest : Descriptor)
  | repeatedMessage (d : Descriptor) (rest : Descriptor)

/-- The messages of a type. -/
def Message : Descriptor → Type
  | .nil => Unit
  | .scalar s rest => s.Value × Message rest
  | .repeated s rest => List s.Element × Message rest
  | .message d rest => Message d × Message rest
  | .repeatedMessage d rest => List (Message d) × Message rest

/-- Messages are ordered by their fields, lists of values by their elements. -/
instance Message.instLinearOrder : ∀ d : Descriptor, LinearOrder (Message d)
  | .nil => inferInstanceAs (LinearOrder PUnit)
  | .scalar s rest =>
    have := Message.instLinearOrder rest
    inferInstanceAs (LinearOrder (s.Value ×ₗ Message rest))
  | .repeated s rest =>
    have := Message.instLinearOrder rest
    inferInstanceAs (LinearOrder (List s.Element ×ₗ Message rest))
  | .message d rest =>
    have := Message.instLinearOrder d
    have := Message.instLinearOrder rest
    inferInstanceAs (LinearOrder (Message d ×ₗ Message rest))
  | .repeatedMessage d rest =>
    have := Message.instLinearOrder d
    have := Message.instLinearOrder rest
    inferInstanceAs (LinearOrder (List (Message d) ×ₗ Message rest))

section Fields

variable {s : ScalarType} {d rest : Descriptor}

theorem lt_scalar_iff {x y : Message (.scalar s rest)} :
    x < y ↔ x.1 < y.1 ∨ x.1 = y.1 ∧ x.2 < y.2 :=
  Prod.Lex.lt_iff (x := toLex x) (y := toLex y)

theorem lt_repeated_iff {x y : Message (.repeated s rest)} :
    x < y ↔ x.1 < y.1 ∨ x.1 = y.1 ∧ x.2 < y.2 :=
  Prod.Lex.lt_iff (x := toLex x) (y := toLex y)

theorem lt_message_iff {x y : Message (.message d rest)} :
    x < y ↔ x.1 < y.1 ∨ x.1 = y.1 ∧ x.2 < y.2 :=
  Prod.Lex.lt_iff (x := toLex x) (y := toLex y)

theorem lt_repeatedMessage_iff {x y : Message (.repeatedMessage d rest)} :
    x < y ↔ x.1 < y.1 ∨ x.1 = y.1 ∧ x.2 < y.2 :=
  Prod.Lex.lt_iff (x := toLex x) (y := toLex y)

end Fields

end Idgs.Protobuf
