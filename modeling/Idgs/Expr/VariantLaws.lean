import Idgs.Expr.Variant
import Mathlib.Data.Set.Subsingleton

/-!
# Laws of variants

An operator of `protobuf::PbVariant` compares in the type of its left operand, to which the right
one is converted, and the hash code is taken in the type that a variant has. Operators therefore fit
each other, and hash codes fit equality, where both operands have one type, or are numbers that both
types have. A copy is made by a constructor or an assignment, which differ in what they do to the
null flag.
-/

namespace Idgs.Expr

/-! ## Hash codes and copies -/

/-- `PbVariant::hashcode`: `std::hash` of a number is the number as a `size_t`; that of texts is a
parameter. -/
def Value.hashcode (textHash : String → UInt64) : Value → UInt64
  | .int32 v => UInt64.ofInt v.toInt
  | .int64 v => UInt64.ofInt v.toInt
  | .uint32 v => UInt64.ofInt v.toNat
  | .uint64 v => UInt64.ofInt v.toNat
  | .bool v => UInt64.ofInt v.toInt
  | .string v => textHash v

namespace PbVariant

/-- The operators, which do not look at the null flag. -/
def compare (op : CompareOp) (a b : PbVariant) : Option Bool := a.value.compare op b.value

/-- `PbVariant::hashcode`. -/
def hashcode (textHash : String → UInt64) (a : PbVariant) : UInt64 := a.value.hashcode textHash

/-- The constructors from a number, a truth value or a text. -/
def ofValue (v : Value) : PbVariant := { value := v, isNull := false }

/-- `PbVariant::PbVariant(const PbVariant&)`: the initialiser of the null flag is a constant. -/
def copyConstruct (v : PbVariant) : PbVariant := { value := v.value, isNull := false }

/-- `operator = (const PbVariant&)`. An assignment to the variant itself returns at once. -/
def assign (_self v : PbVariant) : PbVariant := { value := v.value, isNull := v.isNull }

/-- The assignments from a value. Those of `PB_VARIANT_ASSIGN` clear the null flag, and those from a
text leave it. -/
def assignValue (self : PbVariant) : Value → PbVariant
  | .string v => { self with value := .string v }
  | v => { value := v, isNull := false }

end PbVariant

/-! ## What is promised -/

/-- The numbers that a type of numbers has. -/
def VariantType.Holds : VariantType → ℤ → Prop
  | .int32, n => -2147483648 ≤ n ∧ n ≤ 2147483647
  | .int64, n => -9223372036854775808 ≤ n ∧ n ≤ 9223372036854775807
  | .uint32, n => 0 ≤ n ∧ n ≤ 4294967295
  | .uint64, n => 0 ≤ n ∧ n ≤ 18446744073709551615
  | .bool, _ => False
  | .string, _ => False

/-- The number that the cast to a type of numbers gives. -/
def Value.castNumber (b : Value) : VariantType → Option ℤ
  | .int32 => b.castInt32.map Int32.toInt
  | .int64 => b.castInt64.map Int64.toInt
  | .uint32 => b.castUInt32.map fun v => v.toNat
  | .uint64 => b.castUInt64.map fun v => v.toNat
  | .bool => none
  | .string => none

/-- The cast to the type of the left operand succeeds: to a type of numbers, a text must be such a
number. -/
def Value.Converts (b : Value) : VariantType → Prop
  | .bool => True
  | .string => True
  | t => b.castNumber t ≠ none

namespace PbVariant

/-- The comparisons of which one is to hold. -/
def orders : List CompareOp := [.lt, .eq, .gt]

/-- Exactly one of `a < b`, `a == b` and `a > b` holds. -/
def Trichotomous (a b : PbVariant) : Prop :=
  ∃ op ∈ orders, ∀ op' ∈ orders, a.compare op' b = some (decide (op' = op))

/-- The comparisons and the hash codes of two variants fit. -/
structure Lawful (textHash : String → UInt64) (a b : PbVariant) : Prop where
  trichotomous : Trichotomous a b
  mirror : a.compare .lt b = b.compare .gt a
  symm : a.compare .eq b = b.compare .eq a
  hash : a.compare .eq b = some true → a.hashcode textHash = b.hashcode textHash

/-- All variants of the types are lawful with each other. -/
def LawfulOn (textHash : String → UInt64) (T : Set VariantType) : Prop :=
  ∀ a b : PbVariant, a.value.type ∈ T → b.value.type ∈ T → Lawful textHash a b

end PbVariant

/-! ## Comparisons as numbers and as texts -/

/-- An operator reads its operands through any map that keeps the order. -/
theorem CompareOp.test_map {α β : Type} [LT α] [LE α] [DecidableLT α] [DecidableLE α]
    [DecidableEq α] [LT β] [LE β]
    [DecidableLT β] [DecidableLE β] [DecidableEq β] {f : α → β} (hlt : ∀ a b, a < b ↔ f a < f b)
    (hle : ∀ a b, a ≤ b ↔ f a ≤ f b) (heq : ∀ a b, a = b ↔ f a = f b) (op : CompareOp) (a b : α) :
    op.test a b = op.test (f a) (f b) := by
  cases op with
  | lt => exact decide_eq_decide.mpr (hlt a b)
  | le => exact decide_eq_decide.mpr (hle a b)
  | eq => exact decide_eq_decide.mpr (heq a b)
  | gt => exact decide_eq_decide.mpr (hlt b a)
  | ge => exact decide_eq_decide.mpr (hle b a)
  | ne => exact decide_eq_decide.mpr (not_congr (heq a b))

section

variable (op : CompareOp)

theorem test_int32 (a b : Int32) : op.test a b = op.test a.toInt b.toInt :=
  CompareOp.test_map (fun _ _ => Int32.lt_iff_toInt_lt) (fun _ _ => Int32.le_iff_toInt_le)
    (fun _ _ => Int32.toInt_inj.symm) op a b

theorem test_int64 (a b : Int64) : op.test a b = op.test a.toInt b.toInt :=
  CompareOp.test_map (fun _ _ => Int64.lt_iff_toInt_lt) (fun _ _ => Int64.le_iff_toInt_le)
    (fun _ _ => Int64.toInt_inj.symm) op a b

theorem test_uint32 (a b : UInt32) :
    op.test a b = op.test (a.toNat : ℤ) (b.toNat : ℤ) :=
  CompareOp.test_map (f := fun v : UInt32 => (v.toNat : ℤ))
    (fun _ _ => UInt32.lt_iff_toNat_lt.trans Int.ofNat_lt.symm)
    (fun _ _ => UInt32.le_iff_toNat_le.trans Int.ofNat_le.symm)
    (fun _ _ => UInt32.toNat_inj.symm.trans Int.ofNat_inj.symm) op a b

theorem test_uint64 (a b : UInt64) :
    op.test a b = op.test (a.toNat : ℤ) (b.toNat : ℤ) :=
  CompareOp.test_map (f := fun v : UInt64 => (v.toNat : ℤ))
    (fun _ _ => UInt64.lt_iff_toNat_lt.trans Int.ofNat_lt.symm)
    (fun _ _ => UInt64.le_iff_toNat_le.trans Int.ofNat_le.symm)
    (fun _ _ => UInt64.toNat_inj.symm.trans Int.ofNat_inj.symm) op a b

end

/-- A number is compared, as a number, with what the right operand is cast to. -/
theorem Value.compare_number {a : Value} {x : ℤ} (ha : a.toInt? = some x) (hbool : a.type ≠ .bool)
    (op : CompareOp)
    (b : Value) : a.compare op b = (b.castNumber a.type).map fun y => op.test x y := by
  cases a with
  | int32 v =>
    obtain rfl := Option.some.inj ha
    simp only [Value.compare, Value.type, castNumber, Option.map_map, test_int32,
      Function.comp_def]
  | int64 v =>
    obtain rfl := Option.some.inj ha
    simp only [Value.compare, Value.type, castNumber, Option.map_map, test_int64,
      Function.comp_def]
  | uint32 v =>
    obtain rfl := Option.some.inj ha
    simp only [Value.compare, Value.type, castNumber, Option.map_map, test_uint32,
      Function.comp_def]
  | uint64 v =>
    obtain rfl := Option.some.inj ha
    simp only [Value.compare, Value.type, castNumber, Option.map_map, test_uint64,
      Function.comp_def]
  | bool v => exact absurd rfl hbool
  | string v => cases ha

theorem Value.casts_number {b : Value} {y : ℤ} (hb : b.toInt? = some y) :
    b.castInt32 = some (Int32.ofInt y) ∧ b.castInt64 = some (Int64.ofInt y) ∧
      b.castUInt32 = some (UInt32.ofInt y) ∧ b.castUInt64 = some (UInt64.ofInt y) := by
  cases b with
  | string v => cases hb
  | _ =>
    obtain rfl := Option.some.inj hb
    exact ⟨rfl, rfl, rfl, rfl⟩

/-- A number that the type has is cast to itself. -/
theorem Value.castNumber_of_holds {b : Value} {y : ℤ} (hb : b.toInt? = some y) {t : VariantType}
    (hy : t.Holds y) :
    b.castNumber t = some y := by
  obtain ⟨hint32, hint64, huint32, huint64⟩ := Value.casts_number hb
  cases t with
  | int32 =>
    rw [castNumber, hint32, Option.map_some,
      Int32.toInt_ofInt_of_le hy.1 (Int.lt_add_one_of_le hy.2)]
  | int64 =>
    rw [castNumber, hint64, Option.map_some,
      Int64.toInt_ofInt_of_le hy.1 (Int.lt_add_one_of_le hy.2)]
  | uint32 =>
    obtain ⟨hlo, hhi⟩ := hy
    have hround : ((UInt32.ofInt y).toNat : ℤ) = y := by
      unfold UInt32.ofInt
      rw [UInt32.toNat_ofNat']
      omega
    rw [castNumber, huint32, Option.map_some, hround]
  | uint64 =>
    obtain ⟨hlo, hhi⟩ := hy
    have hround : ((UInt64.ofInt y).toNat : ℤ) = y := by
      unfold UInt64.ofInt
      rw [UInt64.toNat_ofNat']
      omega
    rw [castNumber, huint64, Option.map_some, hround]
  | bool | string => exact hy.elim

theorem Value.holds_of_number {a : Value} {x : ℤ} (ha : a.toInt? = some x)
    (hbool : a.type ≠ .bool) :
    a.type.Holds x := by
  cases a with
  | int32 v | int64 v =>
    obtain rfl := Option.some.inj ha
    exact ⟨v.le_toInt, by have := v.toInt_lt; omega⟩
  | uint32 v | uint64 v =>
    obtain rfl := Option.some.inj ha
    exact ⟨Int.natCast_nonneg _, by have := v.toNat_lt; omega⟩
  | bool v => exact absurd rfl hbool
  | string v => cases ha

theorem Value.eq_string_of_toInt? {a : Value} (ha : a.toInt? = none) : ∃ v, a = .string v := by
  cases a with
  | string v => exact ⟨v, rfl⟩
  | _ => cases ha

/-- The hash code of a number is that of no type. -/
theorem Value.hashcode_number (textHash : String → UInt64) {a : Value} {x : ℤ}
    (ha : a.toInt? = some x) :
    a.hashcode textHash = UInt64.ofInt x := by
  cases a with
  | string v => cases ha
  | _ => exact congrArg UInt64.ofInt (Option.some.inj ha)

/-! ## One of three -/

namespace PbVariant

section Test

variable {α : Type} [LT α] [LE α] [DecidableLT α] [DecidableLE α] [DecidableEq α]

/-- What a comparison of values of one type gives, in an order that is total. -/
theorem trichotomous_of_test (hirrefl : ∀ a : α, ¬a < a) (hasymm : ∀ a b : α, a < b → ¬b < a)
    (htri : ∀ a b : α, a < b ∨ a = b ∨ b < a) {a b : PbVariant} {x y : α}
    (hab : ∀ op, a.compare op b = some (op.test x y)) : Trichotomous a b := by
  have horders : ∃ op ∈ orders, ∀ op' ∈ orders, op'.test x y = decide (op' = op) := by
    rcases htri x y with hlt | rfl | hgt
    · have hne : x ≠ y := by
        rintro rfl
        exact hirrefl x hlt
      exact ⟨.lt, by simp [orders], by simp [orders, CompareOp.test, hlt, hne, hasymm x y hlt]⟩
    · exact ⟨.eq, by simp [orders], by simp [orders, CompareOp.test, hirrefl x]⟩
    · have hne : x ≠ y := by
        rintro rfl
        exact hirrefl x hgt
      exact ⟨.gt, by simp [orders], by simp [orders, CompareOp.test, hgt, hne, hasymm y x hgt]⟩
  obtain ⟨op, hop, htest⟩ := horders
  refine ⟨op, hop, fun op' hop' => ?_⟩
  rw [hab, htest op' hop']

/-- Both sides compare the same two values. -/
theorem lawful_of_test {textHash : String → UInt64} {a b : PbVariant} {x y : α}
    (htri : Trichotomous a b) (hab : ∀ op, a.compare op b = some (op.test x y))
    (hba : ∀ op, b.compare op a = some (op.test y x))
    (hhash : x = y → a.hashcode textHash = b.hashcode textHash) : Lawful textHash a b := by
  refine ⟨htri, ?_, ?_, ?_⟩
  · rw [hab, hba]
    rfl
  · rw [hab, hba]
    exact congrArg some (decide_eq_decide.mpr eq_comm)
  · intro heq
    rw [hab] at heq
    exact hhash (of_decide_eq_true (Option.some.inj heq))

end Test

theorem string_trichotomy (a b : String) : a < b ∨ a = b ∨ b < a := by
  by_cases hlt : a < b
  · exact .inl hlt
  · by_cases hgt : b < a
    · exact .inr (.inr hgt)
    · exact .inr (.inl (String.le_antisymm (String.not_lt.mp hgt) (String.not_lt.mp hlt)))

/-- Whatever the types, one of the comparisons holds when the left operand is not a truth value and
the right one converts. -/
theorem trichotomous_of_converts {a b : PbVariant} (hbool : a.value.type ≠ .bool)
    (hconverts : b.value.Converts a.value.type) : Trichotomous a b := by
  cases hx : a.value.toInt? with
  | some x =>
    have hcast : b.value.castNumber a.value.type ≠ none := by
      revert hbool hconverts hx
      cases a.value with
      | bool v => exact fun hbool _ _ => absurd rfl hbool
      | string v => exact fun _ _ hx => by cases hx
      | _ => exact fun _ hconverts _ => hconverts
    obtain ⟨y, hy⟩ := Option.ne_none_iff_exists'.mp hcast
    have hab : ∀ op, a.compare op b = some (op.test x y) := by
      intro op
      rw [compare, Value.compare_number hx hbool, hy, Option.map_some]
    exact trichotomous_of_test lt_irrefl (fun _ _ => lt_asymm) lt_trichotomy hab
  | none =>
    obtain ⟨v, hv⟩ := Value.eq_string_of_toInt? hx
    have hab : ∀ op, a.compare op b = some (op.test v b.value.toText) := by
      intro op
      rw [compare, hv, Value.compare]
    exact trichotomous_of_test String.lt_irrefl (fun _ _ => String.lt_asymm) string_trichotomy hab

/-! ## Where the laws hold -/

/-- Numbers that both types have. -/
theorem lawful_of_holds (textHash : String → UInt64) {a b : PbVariant} {x y : ℤ}
    (ha : a.value.toInt? = some x)
    (hb : b.value.toInt? = some y) (hx : b.value.type.Holds x) (hy : a.value.type.Holds y) :
    Lawful textHash a b := by
  have hbool : ∀ {t : VariantType} {n : ℤ}, t.Holds n → t ≠ .bool := by
    rintro t n h rfl
    exact h
  have hcast := Value.castNumber_of_holds hb hy
  have hab : ∀ op, a.compare op b = some (op.test x y) := by
    intro op
    rw [compare, Value.compare_number ha (hbool hy), hcast, Option.map_some]
  have hba : ∀ op, b.compare op a = some (op.test y x) := by
    intro op
    rw [compare, Value.compare_number hb (hbool hx), Value.castNumber_of_holds ha hx,
      Option.map_some]
  have htri := trichotomous_of_test lt_irrefl (fun _ _ => lt_asymm) lt_trichotomy hab
  refine lawful_of_test htri hab hba fun hxy => ?_
  rw [hashcode, hashcode, Value.hashcode_number textHash ha, Value.hashcode_number textHash hb, hxy]

/-- Variants of one type, unless it is that of truth values. -/
theorem lawful_of_type (textHash : String → UInt64) {a b : PbVariant} (hbool : a.value.type ≠ .bool)
    (htype : a.value.type = b.value.type) : Lawful textHash a b := by
  cases hx : a.value.toInt? with
  | some x =>
    obtain ⟨y, hy⟩ : ∃ y, b.value.toInt? = some y := by
      revert hx htype
      cases a.value <;> cases b.value <;> simp [Value.type, Value.toInt?]
    have hholds := Value.holds_of_number hx hbool
    have hholds' := Value.holds_of_number hy (htype ▸ hbool)
    exact lawful_of_holds textHash hx hy (htype ▸ hholds) (htype ▸ hholds')
  | none =>
    obtain ⟨v, hv⟩ := Value.eq_string_of_toInt? hx
    obtain ⟨w, hw⟩ : ∃ w, b.value = .string w := by
      rw [hv] at htype
      revert htype
      cases b.value <;> simp [Value.type]
    have hab : ∀ op, a.compare op b = some (op.test v w) := by
      intro op
      rw [compare, hv, hw]
      rfl
    have hba : ∀ op, b.compare op a = some (op.test w v) := by
      intro op
      rw [compare, hv, hw]
      rfl
    have htri :=
      trichotomous_of_test String.lt_irrefl (fun _ _ => String.lt_asymm) string_trichotomy hab
    refine lawful_of_test htri hab hba fun hvw => ?_
    rw [hashcode, hashcode, hv, hw, hvw]

/-! ## Where they do not -/

/-- Values of two types that compare one way from the left and another way from the right: a number
that the narrower type does not have, one that is negative, or a text that is not the shortest one
of its number. -/
def clash : VariantType → VariantType → Option (Value × Value)
  | .int32, .int64 => some (.int32 0, .int64 4294967296)
  | .int32, .uint32 => some (.int32 (-1), .uint32 0)
  | .int32, .uint64 => some (.int32 (-1), .uint64 0)
  | .int32, .string => some (.int32 1, .string "01")
  | .int64, .uint32 => some (.int64 (-1), .uint32 0)
  | .int64, .uint64 => some (.int64 (-1), .uint64 0)
  | .int64, .string => some (.int64 1, .string "01")
  | .uint32, .uint64 => some (.uint32 0, .uint64 4294967296)
  | .uint32, .string => some (.uint32 1, .string "01")
  | .uint64, .string => some (.uint64 1, .string "01")
  | _, _ => none

theorem clash_spec {s t : VariantType} {a b : Value} (h : clash s t = some (a, b)) :
    a.type = s ∧ b.type = t ∧
    (a.compare .lt b ≠ b.compare .gt a ∨ a.compare .eq b ≠ b.compare .eq a) := by
  unfold clash at h
  split at h <;> cases h <;> exact ⟨rfl, rfl, by decide⟩

theorem clash_isSome {s t : VariantType} (hs : s ≠ .bool) (ht : t ≠ .bool) (hne : s ≠ t) :
    (clash s t).isSome = true ∨ (clash t s).isSome = true := by
  revert hs ht hne
  cases s <;> cases t <;> decide

theorem not_lawful_of_clash (textHash : String → UInt64) {s t : VariantType} {a b : Value}
    (h : clash s t = some (a, b)) : ¬Lawful textHash (ofValue a) (ofValue b) := by
  intro hlawful
  obtain ⟨-, -, hmirror | hsymm⟩ := clash_spec h
  · exact hmirror hlawful.mirror
  · exact hsymm hlawful.symm

/-- Types are lawful with each other only where they are one type. -/
theorem lawfulOn_iff (textHash : String → UInt64) {T : Set VariantType} (hbool : .bool ∉ T) :
    LawfulOn textHash T ↔ T.Subsingleton := by
  constructor
  · intro hlawful s hs t ht
    by_contra hne
    have hne_bool : ∀ {s}, s ∈ T → s ≠ .bool := by
      rintro s hs rfl
      exact hbool hs
    have hclash : ∀ {s t}, s ∈ T → t ∈ T → ¬(clash s t).isSome = true := by
      intro s t hs ht h
      obtain ⟨⟨a, b⟩, hab⟩ := Option.isSome_iff_exists.mp h
      obtain ⟨rfl, rfl, -⟩ := clash_spec hab
      exact not_lawful_of_clash textHash hab (hlawful (ofValue a) (ofValue b) hs ht)
    rcases clash_isSome (hne_bool hs) (hne_bool ht) hne with h | h
    · exact hclash hs ht h
    · exact hclash ht hs h
  · intro hsubsingleton a b ha hb
    refine lawful_of_type textHash ?_ (hsubsingleton ha hb)
    intro heq
    exact hbool (heq ▸ ha)

/-! ## Copies -/

/-- A variant is equal to itself, unless it is a truth value. -/
theorem compare_self {a : PbVariant} (hbool : a.value.type ≠ .bool) :
    a.compare .eq a = some true := by
  have hlawful := lawful_of_type (fun _ => 0) hbool rfl
  obtain ⟨op, hop, horders⟩ := hlawful.trichotomous
  have hlt := horders .lt (by simp [orders])
  have hgt := horders .gt (by simp [orders])
  have hlt_gt : decide (CompareOp.lt = op) = decide (CompareOp.gt = op) := by
    rw [← Option.some.injEq, ← hlt, ← hgt]
    exact hlawful.mirror
  have hop_eq : op = .eq := by
    simp only [orders, List.mem_cons, List.not_mem_nil, or_false] at hop
    rcases hop with rfl | rfl | rfl
    · cases hlt_gt
    · rfl
    · cases hlt_gt
  rw [horders .eq (by simp [orders]), hop_eq]
  rfl

theorem assign_eq (self v : PbVariant) : self.assign v = v := rfl

theorem copyConstruct_eq {v : PbVariant} (hnull : v.isNull = false) : copyConstruct v = v := by
  obtain ⟨value, isNull⟩ := v
  cases hnull
  rfl

theorem assignValue_eq {self : PbVariant} {v : Value}
    (hnull : v.type = .string → self.isNull = false) :
    self.assignValue v = ofValue v := by
  cases v with
  | string v =>
    have hself := hnull rfl
    rw [assignValue, hself]
    rfl
  | _ => rfl

/-- Comparisons, hash codes and copies of variants. Whatever the types, one of the three comparisons
holds when the right operand converts; the laws between operators, and between equality and hash
codes, are those of one type, and of numbers that both types have. An assignment makes an equal
variant, whose null flag is that of its source. -/
theorem lawful_and_copied (textHash : String → UInt64) :
    (∀ a b : PbVariant, a.value.type ≠ .bool → b.value.Converts a.value.type → Trichotomous a b) ∧
      (∀ T : Set VariantType, .bool ∉ T → (LawfulOn textHash T ↔ T.Subsingleton)) ∧
      (∀ (a b : PbVariant) (x y : ℤ), a.value.toInt? = some x → b.value.toInt? = some y →
        b.value.type.Holds x →
        a.value.type.Holds y → Lawful textHash a b) ∧
      (∀ self v : PbVariant, self.assign v = v ∧
        (v.value.type ≠ .bool → (self.assign v).compare .eq v = some true)) ∧
      (∀ v : PbVariant, v.isNull = false → copyConstruct v = v) ∧
      ∀ (self : PbVariant) (v : Value), (v.type = .string → self.isNull = false) →
      self.assignValue v = ofValue v :=
  ⟨fun _ _ hbool hconverts => trichotomous_of_converts hbool hconverts, fun _ hbool =>
    lawfulOn_iff textHash hbool,
    fun _ _ _ _ ha hb hx hy => lawful_of_holds textHash ha hb hx hy,
    fun self v => ⟨assign_eq self v, fun hbool => by rw [assign_eq]; exact compare_self hbool⟩,
    fun _ hnull => copyConstruct_eq hnull, fun _ _ hnull => assignValue_eq hnull⟩

/-- Two variants of which each converts to the type of the other. -/
def Accepted (a b : PbVariant) : Prop :=
  b.value.Converts a.value.type ∧ a.value.Converts b.value.type

/-- The int32 -1 is less than the uint32 0, which is not greater than it. -/
theorem not_lawful_mixed :
    ¬∀ (textHash : String → UInt64) (a b : PbVariant), Accepted a b → Lawful textHash a b := by
  intro h
  have haccepted : Accepted (ofValue (.int32 (-1))) (ofValue (.uint32 0)) := by
    constructor
    · exact Option.some_ne_none _
    · exact Option.some_ne_none _
  exact not_lawful_of_clash (s := .int32) (t := .uint32) (fun _ =>
    0) rfl (h (fun _ => 0) _ _ haccepted)

end PbVariant

end Idgs.Expr
