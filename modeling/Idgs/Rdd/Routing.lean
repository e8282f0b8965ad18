import Idgs.Protobuf.CompareOrder
import Idgs.Rdd.Partitioning

/-!
# Routing in different processes

Every member works out by itself which partition a key belongs to, so two members have to come to
the same result for the same key. They share the library, but not the addresses of their
descriptors, nor what is in memory that nobody has written: a variant that gets no value is of type
`int32` and keeps what was there.
-/

namespace Idgs.Rdd

open Protobuf (Descriptor Message ScalarType EnumDescriptor StlHash PRIME)
open Protobuf.HashCode

variable {d : Descriptor}

/-! ## The code -/

/-- What two processes do not share: the hash codes of the addresses of enumerators' descriptors,
and what is in memory where a variant is not initialised. -/
structure Layout where
  pointer : EnumDescriptor → ℕ → UInt64
  uninitialised : ScalarType.int32.Value

/-- The library in a process. -/
def Layout.stl (layout : Layout) (library : StlHash) : StlHash :=
  { library with pointer := layout.pointer }

/-- The hash code of a key in `StoreConfig::calculatePartitionInfo`, where the partitioner may leave
its variant without a value: a `FIELD` does when its path ends at a message. -/
def routingHash (library : StlHash) (layout : Layout)
    (partitioner : Option (Message d → Option PbVariant))
    (key : Message d) : UInt64 :=
  match partitioner with
  | none => hashcode (layout.stl library) d key
  | some partitioner =>
    ((partitioner key).getD (.int32 layout.uninitialised)).hashcode (layout.stl library)

/-- The partition of a key. -/
def routingPartition (library : StlHash) (layout : Layout) (partitionCount : ℕ)
    (partitioner : Option (Message d → Option PbVariant)) (key : Message d) : ℕ :=
  (routingHash library layout partitioner key).toNat % partitionCount

/-! ## What is promised -/

/-- Keys with equal values have one hash code in all processes, and so one partition, which is
there. -/
def Routed (partitionCount : ℕ) (partitioner : Option (Message d → Option PbVariant)) : Prop :=
  ∀ (library : StlHash) (layout layout' : Layout) (key key' : Message d), key = key' →
    routingHash library layout partitioner key = routingHash library layout' partitioner key' ∧
      routingPartition library layout partitionCount partitioner key =
        routingPartition library layout' partitionCount partitioner key' ∧
      routingPartition library layout partitionCount partitioner key < partitionCount

/-- The partitioner has a value for every key; without one, no enumeration is repeated in the
key. -/
def Determined : Option (Message d → Option PbVariant) → Prop
  | some partitioner => ∀ key, partitioner key ≠ none
  | none => NoRepeatedEnum d

/-! ## Equal keys -/

theorem Layout.sameLibrary (library : StlHash) (layout layout' : Layout) :
    SameLibrary (layout.stl library) (layout'.stl library) :=
  ⟨rfl, rfl, rfl, rfl, rfl, rfl, rfl, rfl⟩

theorem SameLibrary.variant {stl stl' : StlHash} (h : SameLibrary stl stl') (v : PbVariant) :
    v.hashcode stl = v.hashcode stl' := by
  cases v with
  | string v =>
    cases v with
    | none => rfl
    | some v => exact congrFun h.string v
  | int32 v => exact congrFun h.int32 v.val
  | int64 v => exact congrFun h.int64 v.val
  | uint32 v => exact congrFun h.uint32 v.val
  | uint64 v => exact congrFun h.uint64 v.val
  | double v => exact congrFun h.double v
  | float v => exact congrFun h.float v
  | bool v => exact congrFun h.bool v
  | enum | message => rfl

theorem routingHash_eq {partitioner : Option (Message d → Option PbVariant)}
    (h : Determined partitioner) (library : StlHash) (layout layout' : Layout) (key : Message d) :
    routingHash library layout partitioner key = routingHash library layout' partitioner key := by
  have hsame := Layout.sameLibrary library layout layout'
  cases partitioner with
  | none => exact congrFun (hsame.hashFields h 41) key
  | some partitioner =>
    rw [routingHash, routingHash]
    cases hvalue : partitioner key with
    | none => exact absurd hvalue (h key)
    | some v => exact hsame.variant v

/-! ## Different hash codes -/

/-- A factor that can be undone. -/
def Invertible64 (w : UInt64) : Prop := ∃ u, w * u = 1

theorem Invertible64.mul {w w' : UInt64} (h : Invertible64 w) (h' : Invertible64 w') :
    Invertible64 (w * w') := by
  obtain ⟨u, hu⟩ := h
  obtain ⟨u', hu'⟩ := h'
  refine ⟨u * u', ?_⟩
  grind

theorem Invertible64.mul_prime {w : UInt64} (h : Invertible64 w) : Invertible64 (w * PRIME) :=
  have hprime : PRIME * 14155559371847505085 = 1 := by rfl
  h.mul ⟨14155559371847505085, hprime⟩

theorem Invertible64.ne_zero {w : UInt64} (h : Invertible64 w) : w ≠ 0 := by
  rintro rfl
  obtain ⟨u, hu⟩ := h
  rw [UInt64.zero_mul] at hu
  exact absurd hu (by decide)

section Loop

variable (stl : StlHash) (hashcode : UInt64) {s : ScalarType} {rest : Descriptor} (x : Message rest)

theorem hashFields_scalar (v : s.Value) : hashFields stl (.scalar s rest) hashcode (v, x) =
    hashFields stl rest (hashcode * PRIME + hashcodeByUnRepeatedField stl s v) x := rfl

theorem hashFields_repeated (vs : List s.Element) :
    hashFields stl (.repeated s rest) hashcode (vs, x) =
    hashFields stl rest (hashcode * PRIME + hashcodeByRepeatedField (hashElement stl s) vs) x := rfl

theorem hashFields_message (v : Message d) : hashFields stl (.message d rest) hashcode (v, x) =
    hashFields stl rest (hashcode * PRIME + hashFields stl d 41 v) x := rfl

theorem hashFields_repeatedMessage (vs : List (Message d)) :
    hashFields stl (.repeatedMessage d rest) hashcode (vs, x) =
    hashFields stl rest
    (hashcode * PRIME + hashcodeByRepeatedField (hashFields stl d 41) vs) x := rfl

theorem hashcodeByRepeatedField_nil {α : Type} (hash : α → UInt64) :
    hashcodeByRepeatedField hash [] = 0 := rfl

theorem hashcodeByRepeatedField_singleton {α : Type} (hash : α → UInt64) (v : α) :
    hashcodeByRepeatedField hash [v] = hash v := by
  rw [hashcodeByRepeatedField, List.foldl_cons, List.foldl_nil, UInt64.zero_mul, UInt64.zero_add]

end Loop

/-- A difference in the hash code before the fields is in the hash code after them. -/
theorem exists_hashFields_add (d : Descriptor) :
    ∃ w, Invertible64 w ∧ ∀ (stl : StlHash) (hashcode δ : UInt64)
    (x : Message d), hashFields stl d (hashcode + δ) x = hashFields stl d hashcode x + w * δ := by
  have hstep : ∀ hashcode δ field : UInt64, (hashcode + δ) * PRIME + field =
      (hashcode * PRIME + field) + PRIME * δ := by
    intro hashcode δ field
    generalize PRIME = p
    grind
  induction d with
  | nil =>
    refine ⟨1, ⟨1, UInt64.one_mul 1⟩, fun stl hashcode δ x => ?_⟩
    have h : hashcode + δ = hashcode + 1 * δ := by rw [UInt64.one_mul]
    exact h
  | scalar s rest ih =>
    obtain ⟨w, hw, hrest⟩ := ih
    refine ⟨w * PRIME, hw.mul_prime, fun stl hashcode δ x => ?_⟩
    have h := hrest stl (hashcode * PRIME + hashcodeByUnRepeatedField stl s x.1) (PRIME * δ) x.2
    rw [← hstep, ← UInt64.mul_assoc] at h
    exact h
  | repeated s rest ih =>
    obtain ⟨w, hw, hrest⟩ := ih
    refine ⟨w * PRIME, hw.mul_prime, fun stl hashcode δ x => ?_⟩
    have h :=
      hrest stl (hashcode * PRIME + hashcodeByRepeatedField (hashElement stl s) x.1)
      (PRIME * δ) x.2
    rw [← hstep, ← UInt64.mul_assoc] at h
    exact h
  | message d rest _ ih =>
    obtain ⟨w, hw, hrest⟩ := ih
    refine ⟨w * PRIME, hw.mul_prime, fun stl hashcode δ x => ?_⟩
    have h := hrest stl (hashcode * PRIME + hashFields stl d 41 x.1) (PRIME * δ) x.2
    rw [← hstep, ← UInt64.mul_assoc] at h
    exact h
  | repeatedMessage d rest _ ih =>
    obtain ⟨w, hw, hrest⟩ := ih
    refine ⟨w * PRIME, hw.mul_prime, fun stl hashcode δ x => ?_⟩
    have h :=
      hrest stl (hashcode * PRIME + hashcodeByRepeatedField (hashFields stl d 41) x.1)
      (PRIME * δ) x.2
    rw [← hstep, ← UInt64.mul_assoc] at h
    exact h

/-- Processes with one library, in the second of which the addresses are higher. -/
structure Shifted (stl stl' : StlHash) : Prop extends SameLibrary stl stl' where
  pointer : ∀ e i, stl'.pointer e i = stl.pointer e i + 1

theorem exists_value {s : ScalarType} (h : s.Declared) : Nonempty s.Value :=
  have ⟨v, _⟩ := Protobuf.exists_compareScalar_self h
  ⟨v⟩

/-- The message of defaults has the same hash code everywhere. -/
theorem exists_hashFields_eq (hdeclared : d.Declared) : ∃ x : Message d, ∀ {stl stl' : StlHash},
    SameLibrary stl stl' →
    ∀ hashcode, hashFields stl d hashcode x = hashFields stl' d hashcode x := by
  induction d with
  | nil => exact ⟨(), fun _ _ => rfl⟩
  | scalar s rest ih =>
    obtain ⟨v⟩ := exists_value hdeclared.1
    obtain ⟨x, hx⟩ := ih hdeclared.2
    refine ⟨(v, x), fun h hashcode => ?_⟩
    rw [hashFields_scalar, hashFields_scalar, h.hashcodeByUnRepeatedField, hx h]
  | repeated s rest ih =>
    obtain ⟨x, hx⟩ := ih hdeclared.2
    refine ⟨([], x), fun h hashcode => ?_⟩
    rw [hashFields_repeated, hashFields_repeated, hashcodeByRepeatedField_nil,
      hashcodeByRepeatedField_nil]
    exact hx h _
  | message d rest ihd ih =>
    obtain ⟨v, hv⟩ := ihd hdeclared.1
    obtain ⟨x, hx⟩ := ih hdeclared.2
    refine ⟨(v, x), fun h hashcode => ?_⟩
    rw [hashFields_message, hashFields_message, hv h, hx h]
  | repeatedMessage d rest _ ih =>
    obtain ⟨x, hx⟩ := ih hdeclared.2
    refine ⟨([], x), fun h hashcode => ?_⟩
    rw [hashFields_repeatedMessage, hashFields_repeatedMessage, hashcodeByRepeatedField_nil,
      hashcodeByRepeatedField_nil]
    exact hx h _

/-- With a repeated enumeration, a message has hash codes that differ. -/
theorem exists_hashFields_ne (hdeclared : d.Declared) (henum : ¬NoRepeatedEnum d) :
    ∃ (x : Message d) (w : UInt64), Invertible64 w ∧ ∀ {stl stl' : StlHash}, Shifted stl stl' →
      ∀ hashcode, hashFields stl' d hashcode x = hashFields stl d hashcode x + w := by
  induction d with
  | nil => exact absurd trivial henum
  | scalar s rest ih =>
    obtain ⟨v⟩ := exists_value hdeclared.1
    obtain ⟨x, w, hw, hx⟩ := ih hdeclared.2 henum
    refine ⟨(v, x), w, hw, fun h hashcode => ?_⟩
    rw [hashFields_scalar, hashFields_scalar, hx h, h.hashcodeByUnRepeatedField]
  | repeated s rest ih =>
    cases s with
    | enum e =>
      -- one element, which is hashed by its address
      obtain ⟨x, hx⟩ := exists_hashFields_eq hdeclared.2
      obtain ⟨w, hw, hrest⟩ := exists_hashFields_add rest
      let first : (ScalarType.enum e).Element :=
        (⟨0, List.length_pos_iff.mpr hdeclared.1.1⟩ : Fin e.numbers.length)
      refine ⟨([first], x), w, hw, fun {stl stl'} h hashcode => ?_⟩
      have hfield : hashcodeByRepeatedField (hashElement stl' (.enum e)) [first] =
          hashcodeByRepeatedField (hashElement stl (.enum e)) [first] + 1 := by
        rw [hashcodeByRepeatedField_singleton, hashcodeByRepeatedField_singleton]
        exact h.pointer e 0
      rw [hashFields_repeated, hashFields_repeated, hfield, ← UInt64.add_assoc, hrest,
        UInt64.mul_one, hx h.toSameLibrary]
    | _ =>
      obtain ⟨x, w, hw, hx⟩ := ih hdeclared.2 henum
      refine ⟨([], x), w, hw, fun h hashcode => ?_⟩
      rw [hashFields_repeated, hashFields_repeated, hashcodeByRepeatedField_nil,
        hashcodeByRepeatedField_nil]
      exact hx h _
  | message d rest ihd ih =>
    by_cases hfield : NoRepeatedEnum d
    · obtain ⟨v, hv⟩ := exists_hashFields_eq hdeclared.1
      obtain ⟨x, w, hw, hx⟩ := ih hdeclared.2 fun hrest => henum ⟨hfield, hrest⟩
      refine ⟨(v, x), w, hw, fun h hashcode => ?_⟩
      rw [hashFields_message, hashFields_message, hx h, hv h.toSameLibrary]
    · obtain ⟨v, w, hw, hv⟩ := ihd hdeclared.1 hfield
      obtain ⟨x, hx⟩ := exists_hashFields_eq hdeclared.2
      obtain ⟨w', hw', hrest⟩ := exists_hashFields_add rest
      refine ⟨(v, x), w' * w, hw'.mul hw, fun h hashcode => ?_⟩
      rw [hashFields_message, hashFields_message, hv h, ← UInt64.add_assoc, hrest,
        hx h.toSameLibrary]
  | repeatedMessage d rest ihd ih =>
    by_cases hfield : NoRepeatedEnum d
    · obtain ⟨x, w, hw, hx⟩ := ih hdeclared.2 fun hrest => henum ⟨hfield, hrest⟩
      refine ⟨([], x), w, hw, fun h hashcode => ?_⟩
      rw [hashFields_repeatedMessage, hashFields_repeatedMessage, hashcodeByRepeatedField_nil,
        hashcodeByRepeatedField_nil]
      exact hx h _
    · obtain ⟨v, w, hw, hv⟩ := ihd hdeclared.1 hfield
      obtain ⟨x, hx⟩ := exists_hashFields_eq hdeclared.2
      obtain ⟨w', hw', hrest⟩ := exists_hashFields_add rest
      refine ⟨([v], x), w' * w, hw'.mul hw, fun {stl stl'} h hashcode => ?_⟩
      have hlist : hashcodeByRepeatedField (hashFields stl' d 41) [v] =
          hashcodeByRepeatedField (hashFields stl d 41) [v] + w := by
        rw [hashcodeByRepeatedField_singleton, hashcodeByRepeatedField_singleton]
        exact hv h 41
      rw [hashFields_repeatedMessage, hashFields_repeatedMessage, hlist, ← UInt64.add_assoc,
        hrest, hx h.toSameLibrary]

/-! ## Routing -/

/-- A library that hashes integers by their value. -/
def identityLibrary : StlHash where
  uint64 := UInt64.ofInt
  int64 := UInt64.ofInt
  uint32 := UInt64.ofInt
  int32 := UInt64.ofInt
  string := fun _ => 0
  double := fun _ => 0
  float := fun _ => 0
  bool := fun _ => 0
  pointer := fun _ _ => 0

/-- A layout whose addresses, and whatever else is in memory, are `n`. -/
def constantLayout (n : ScalarType.int32.Value) : Layout where
  pointer := fun _ _ => UInt64.ofInt n.val
  uninitialised := n

end Idgs.Rdd
