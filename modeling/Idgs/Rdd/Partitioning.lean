import Mathlib.Data.Nat.ModEq
import Idgs.Protobuf.HashCode

/-!
# Where a key is stored and where it is sent

A store computes the partition of a key from the value of its partitioner or, if it has none, from
the hash code of the key. The RDD engine computes the partition of a key from its hash code.
-/

namespace Idgs.Rdd

open Protobuf (Descriptor Message ScalarType StlHash)

/-- `PbVariant`: the value of an expression. A string may be missing. -/
inductive PbVariant
  | int32 (v : ScalarType.int32.Value)
  | int64 (v : ScalarType.int64.Value)
  | uint32 (v : ScalarType.uint32.Value)
  | uint64 (v : ScalarType.uint64.Value)
  | double (v : ScalarType.double.Value)
  | float (v : ScalarType.float.Value)
  | bool (v : Bool)
  | string (v : Option (List (Fin 256)))
  | enum
  | message

/-- `PbVariant::hashcode`. -/
def PbVariant.hashcode (stl : StlHash) : PbVariant → UInt64
  | .int32 v => stl.int32 v.val
  | .int64 v => stl.int64 v.val
  | .uint32 v => stl.uint32 v.val
  | .uint64 v => stl.uint64 v.val
  | .double v => stl.double v
  | .float v => stl.float v
  | .bool v => stl.bool v
  | .string (some v) => stl.string v
  | .string none => 0
  | .enum => 0
  | .message => 0

/-- `StoreConfig`, as far as it says where keys are stored. -/
structure StoreConfig (d : Descriptor) where
  partitioner : Option (Message d → PbVariant)

/-- `StoreOption`. -/
structure StoreOption where
  partitionId : ℕ
  memberId : ℤ
deriving DecidableEq

/-- `PartitionWrapper::getPrimaryMemberId`; the table lists the replicas of the partitions. -/
def getPrimaryMemberId (table : List (List ℤ)) (partition : ℕ) : ℤ :=
  match table[partition]? with
  | some (primary :: _) => primary
  | _ => 0

variable {d : Descriptor}

/-- The hash code of a key in `StoreConfig::calculatePartitionInfo`. -/
def StoreConfig.hash (stl : StlHash) (config : StoreConfig d) (key : Message d) : UInt64 :=
  match config.partitioner with
  | some partitioner => (partitioner key).hashcode stl
  | none => Protobuf.HashCode.hashcode stl d key

/-- `StoreConfig::calculatePartitionInfo`. -/
def StoreConfig.calculatePartitionInfo (stl : StlHash) (partitionCount : ℕ) (table : List (List ℤ))
    (config : StoreConfig d) (key : Message d) : StoreOption :=
  { partitionId := (config.hash stl key).toNat % partitionCount
    memberId := getPrimaryMemberId table ((config.hash stl key).toNat % partitionCount) }

/-- `PairRddPartition::calcPartitionId`. -/
def calcPartitionId (stl : StlHash) (partitionCount : ℕ) (key : Message d) : ℕ :=
  (Protobuf.HashCode.hashcode stl d key).toNat % partitionCount

/-- The hash codes that the members have for the partitioner's value of a key, or for the key
itself, are congruent to those that they have for the key. -/
def Congruent (stl : ℤ → StlHash) (partitionCount : ℕ) (S : Set (Message d)) : StoreConfig d → Prop
  | { partitioner := none } => ∀ key ∈ S, ∀ m m',
      (Protobuf.HashCode.hashcode (stl m) d key).toNat ≡
        (Protobuf.HashCode.hashcode (stl m') d key).toNat [MOD partitionCount]
  | { partitioner := some partitioner } => ∀ key ∈ S, ∀ m m',
      ((partitioner key).hashcode (stl m)).toNat ≡
        (Protobuf.HashCode.hashcode (stl m') d key).toNat [MOD partitionCount]

/-- Hash codes are congruent if and only if a key is stored where it is sent. -/
theorem congruent_iff (stl : ℤ → StlHash) (partitionCount : ℕ) (S : Set (Message d))
    (table : List (List ℤ)) (config : StoreConfig d) :
    Congruent stl partitionCount S config ↔ ∀ key ∈ S, ∀ m m',
      (config.calculatePartitionInfo (stl m) partitionCount table key).partitionId =
        calcPartitionId (stl m') partitionCount key := by
  obtain ⟨_ | partitioner⟩ := config
  · exact Iff.rfl
  · exact Iff.rfl

/-! ## Hash codes in different processes -/

/-- Processes with one library: they hash values alike, but not addresses. -/
structure SameLibrary (stl stl' : StlHash) : Prop where
  uint64 : stl.uint64 = stl'.uint64
  int64 : stl.int64 = stl'.int64
  uint32 : stl.uint32 = stl'.uint32
  int32 : stl.int32 = stl'.int32
  string : stl.string = stl'.string
  double : stl.double = stl'.double
  float : stl.float = stl'.float
  bool : stl.bool = stl'.bool

/-- No enumeration is repeated in the messages of a type. -/
def NoRepeatedEnum : Descriptor → Prop
  | .nil => True
  | .scalar _ rest => NoRepeatedEnum rest
  | .repeated (.enum _) _ => False
  | .repeated _ rest => NoRepeatedEnum rest
  | .message d rest => NoRepeatedEnum d ∧ NoRepeatedEnum rest
  | .repeatedMessage d rest => NoRepeatedEnum d ∧ NoRepeatedEnum rest

variable {stl stl' : StlHash}

theorem SameLibrary.hashcodeByUnRepeatedField (h : SameLibrary stl stl') (s : ScalarType)
    (v : s.Value) :
    Protobuf.HashCode.hashcodeByUnRepeatedField stl s v =
      Protobuf.HashCode.hashcodeByUnRepeatedField stl' s v := by
  cases s <;>
    simp only [Protobuf.HashCode.hashcodeByUnRepeatedField, h.uint64, h.int64, h.uint32, h.int32,
      h.string, h.double, h.float, h.bool]

theorem SameLibrary.hashElement (h : SameLibrary stl stl') {s : ScalarType}
    (hs : ∀ e, s ≠ .enum e) :
    Protobuf.HashCode.hashElement stl s = Protobuf.HashCode.hashElement stl' s := by
  funext v
  cases s with
  | enum e => exact absurd rfl (hs e)
  | _ =>
    simp only [Protobuf.HashCode.hashElement, h.uint64, h.int64, h.uint32, h.int32, h.string,
      h.double, h.float, h.bool]

/-- Where no enumeration is repeated, the loop over the fields gives the same in both processes. -/
theorem SameLibrary.hashFields (h : SameLibrary stl stl') {d : Descriptor} (hd : NoRepeatedEnum d)
    (hashcode : UInt64) :
    Protobuf.HashCode.hashFields stl d hashcode = Protobuf.HashCode.hashFields stl' d hashcode := by
  induction d generalizing hashcode with
  | nil => rfl
  | scalar s rest ih =>
    funext x
    simp only [Protobuf.HashCode.hashFields, h.hashcodeByUnRepeatedField]
    rw [ih hd]
  | repeated s rest ih =>
    funext x
    have hs : (∀ e, s ≠ .enum e) ∧ NoRepeatedEnum rest := by
      cases s with
      | enum e => exact hd.elim
      | _ => exact ⟨by rintro e ⟨⟩, hd⟩
    simp only [Protobuf.HashCode.hashFields, h.hashElement hs.1]
    rw [ih hs.2]
  | message d rest ihd ih | repeatedMessage d rest ihd ih =>
    funext x
    simp only [Protobuf.HashCode.hashFields]
    rw [ihd hd.1, ih hd.2]

end Idgs.Rdd
