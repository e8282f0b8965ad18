import Idgs.Protobuf.Message

/-!
# The hash code of a message

`HashCode::hashcode` combines the hash codes of all fields. The hash codes of single values are
those of the standard library; an element of a repeated enumeration is hashed as a pointer to its
descriptor, which differs from process to process.
-/

namespace Idgs.Protobuf

/-- `std::hash` in a process; `pointer` is that of the address of an enumerator's descriptor. -/
structure StlHash where
  uint64 : ℤ → UInt64
  int64 : ℤ → UInt64
  uint32 : ℤ → UInt64
  int32 : ℤ → UInt64
  string : List (Fin 256) → UInt64
  double : Floating → UInt64
  float : Floating → UInt64
  bool : Bool → UInt64
  pointer : EnumDescriptor → ℕ → UInt64

/-- `PRIME`. -/
def PRIME : UInt64 := 99989

namespace HashCode

variable (stl : StlHash)

/-- `HashCode::hashcodeByUnRepeatedField` on values. -/
def hashcodeByUnRepeatedField : (s : ScalarType) → s.Value → UInt64
  | .uint64, v => stl.uint64 v.val
  | .int64, v => stl.int64 v.val
  | .uint32, v => stl.uint32 v.val
  | .int32, v => stl.int32 v.val
  | .string, v => stl.string v
  | .double, v => stl.double v
  | .float, v => stl.float v
  | .bool, v => stl.bool v
  | .enum e, v => stl.int32 (e.number v)

/-- The hash code of an element. -/
def hashElement : (s : ScalarType) → s.Element → UInt64
  | .uint64, v => stl.uint64 v.val
  | .int64, v => stl.int64 v.val
  | .uint32, v => stl.uint32 v.val
  | .int32, v => stl.int32 v.val
  | .string, v => stl.string v
  | .double, v => stl.double v
  | .float, v => stl.float v
  | .bool, v => stl.bool v
  | .enum e, v => stl.pointer e (Fin.val v)

/-- `HashCode::hashcodeByRepeatedField`. -/
def hashcodeByRepeatedField {α : Type} (hash : α → UInt64) (vs : List α) : UInt64 :=
  vs.foldl (fun result v => result * PRIME + hash v) 0

/-- The loop of `HashCode::hashcode` over the fields. -/
def hashFields : (d : Descriptor) → UInt64 → Message d → UInt64
  | .nil, hashcode, _ => hashcode
  | .scalar s rest, hashcode, x =>
    hashFields rest (hashcode * PRIME + hashcodeByUnRepeatedField stl s x.1) x.2
  | .repeated s rest, hashcode, x =>
    hashFields rest (hashcode * PRIME + hashcodeByRepeatedField (hashElement stl s) x.1) x.2
  | .message d rest, hashcode, x => hashFields rest (hashcode * PRIME + hashFields d 41 x.1) x.2
  | .repeatedMessage d rest, hashcode, x =>
    hashFields rest (hashcode * PRIME + hashcodeByRepeatedField (hashFields d 41) x.1) x.2

/-- `HashCode::hashcode`. -/
def hashcode (d : Descriptor) (x : Message d) : UInt64 := hashFields stl d 41 x

end HashCode

end Idgs.Protobuf
