import Mathlib.Data.Nat.Notation
import Mathlib.Data.Int.Notation

/-!
# Variants

`protobuf::PbVariant`: a value with its type, and whether it is null. A null variant has a value all
the same, and the casts and the comparisons read the value only. Floating point numbers, enumerators
and messages are left out. The library is built with `NDEBUG`, so a comparison that reaches
`assert(false)` returns false.
-/

namespace Idgs.Expr

/-! ## Texts of numbers -/

/-- `isspace` in the C locale. -/
def isSpace (c : Char) : Bool := c == ' ' || ('\t' ≤ c && c ≤ '\r')

/-- The digits that a text starts with. -/
def leadingDigits (text : List Char) : Option ℕ :=
  match text.takeWhile Char.isDigit with
  | [] => none
  | digits => some (Nat.ofDigitChars 10 digits 0)

/-- The number that the `std::sto` functions read: spaces, a sign and digits; what follows is
ignored. -/
def readNumber (text : String) : Option ℤ :=
  match text.toList.dropWhile isSpace with
  | '-' :: rest => (leadingDigits rest).map fun n : ℕ => -(n : ℤ)
  | '+' :: rest => (leadingDigits rest).map fun n : ℕ => (n : ℤ)
  | rest => (leadingDigits rest).map fun n : ℕ => (n : ℤ)

/-- A number in a range, as the `std::sto` functions check it. -/
def readWithin (lo hi : ℤ) (text : String) : Option ℤ :=
  (readNumber text).filter fun n => lo ≤ n && n ≤ hi

/-- `std::stoi`. -/
def stoi (text : String) : Option Int32 :=
  (readWithin (-2147483648) 2147483647 text).map Int32.ofInt

/-- `std::stol`. -/
def stol (text : String) : Option Int64 :=
  (readWithin (-9223372036854775808) 9223372036854775807 text).map Int64.ofInt

/-- `std::stoul`, which negates in the unsigned type. -/
def stoul (text : String) : Option UInt64 :=
  (readWithin (-18446744073709551615) 18446744073709551615 text).map UInt64.ofInt

theorem leadingDigits_toDigits (n : ℕ) : leadingDigits (Nat.toDigits 10 n) = some n := by
  have hdigit : ∀ c ∈ Nat.toDigits 10 n, c.isDigit = true :=
    fun c hc => Nat.isDigit_of_mem_toDigits (by decide) (by decide) hc
  have hall : (Nat.toDigits 10 n).takeWhile Char.isDigit = Nat.toDigits 10 n := by
    simpa using @List.takeWhile_append_of_pos Char Char.isDigit (Nat.toDigits 10 n) [] hdigit
  have hread : Nat.ofDigitChars 10 (Nat.toDigits 10 n) 0 = n :=
    Nat.ofDigitChars_toDigits (by decide) (by decide)
  unfold leadingDigits
  rw [hall]
  split
  · rename_i hnil
    exact absurd hnil Nat.toDigits_ne_nil
  · exact congrArg some hread

theorem isDigit_spec {c : Char} (h : c.isDigit = true) : isSpace c = false ∧ c ≠ '-' ∧ c ≠ '+' := by
  simp only [Char.isDigit, Bool.and_eq_true, decide_eq_true_eq, ge_iff_le,
    UInt32.le_iff_toNat_le] at h
  refine ⟨?_, ?_, ?_⟩
  · simp only [isSpace, Bool.or_eq_false_iff, Bool.and_eq_false_iff, beq_eq_false_iff_ne,
      decide_eq_false_iff_not, Char.le_def, UInt32.le_iff_toNat_le]
    refine ⟨?_, .inr ?_⟩
    · rintro rfl
      exact absurd h.1 (by decide)
    · have hlt : ('\r' : Char).val.toNat < ('0' : Char).val.toNat := by decide
      omega
  · rintro rfl
    exact absurd h.1 (by decide)
  · rintro rfl
    exact absurd h.1 (by decide)

/-- A text that starts with a digit is read from there. -/
theorem readNumber_of_isDigit {text : String} {c : Char} {cs : List Char}
    (h : text.toList = c :: cs) (hc : c.isDigit = true) :
    readNumber text = (leadingDigits (c :: cs)).map fun n : ℕ => (n : ℤ) := by
  obtain ⟨hspace, hminus, hplus⟩ := isDigit_spec hc
  unfold readNumber
  rw [h, List.dropWhile_cons_of_neg (by simp [hspace])]
  split
  · rename_i heq
    exact absurd (List.cons.inj heq).1 hminus
  · rename_i heq
    exact absurd (List.cons.inj heq).1 hplus
  · rfl

/-- Digits are read as the number that they are. -/
theorem readNumber_digits {text : String} {n : ℕ} (h : text.toList = Nat.toDigits 10 n) :
    readNumber text = some (n : ℤ) := by
  cases hdigits : Nat.toDigits 10 n with
  | nil => exact absurd hdigits Nat.toDigits_ne_nil
  | cons c cs =>
    have hc : c.isDigit = true :=
      Nat.isDigit_of_mem_toDigits (by decide : 0 < 10) (by decide) (hdigits ▸ List.mem_cons_self)
    have hread := leadingDigits_toDigits n
    rw [hdigits] at hread
    rw [readNumber_of_isDigit (h.trans hdigits) hc, hread]
    rfl

/-- A number is read back from its decimal text. -/
theorem readNumber_toString (n : ℤ) : readNumber (toString n) = some n := by
  have hrepr : toString n = n.repr := rfl
  rw [hrepr, Int.repr_eq_if]
  split
  · rename_i hnonneg
    rw [readNumber_digits Nat.toList_repr]
    exact congrArg some (Int.toNat_of_nonneg hnonneg)
  · rename_i hneg
    have htext : ("-" ++ (-n).toNat.repr).toList = '-' :: Nat.toDigits 10 (-n).toNat := by
      rw [String.toList_append, Nat.toList_repr]
      rfl
    unfold readNumber
    rw [htext, List.dropWhile_cons_of_neg (by decide)]
    change (leadingDigits (Nat.toDigits 10 (-n).toNat)).map (fun k : ℕ => -(k : ℤ)) = some n
    rw [leadingDigits_toDigits, Option.map_some]
    refine congrArg some ?_
    omega

theorem stoi_toString (v : Int32) : stoi (toString v.toInt) = some v := by
  have hlo := v.le_toInt
  have hhi := v.toInt_lt
  unfold stoi readWithin
  rw [readNumber_toString, Option.filter_some, if_pos (by simp; omega), Option.map_some,
    Int32.ofInt_toInt]

theorem stol_toString (v : Int64) : stol (toString v.toInt) = some v := by
  have hlo := v.le_toInt
  have hhi := v.toInt_lt
  unfold stol readWithin
  rw [readNumber_toString, Option.filter_some, if_pos (by simp; omega), Option.map_some,
    Int64.ofInt_toInt]

/-! ## Values -/

/-- `PbVariant::Type`. -/
inductive VariantType
  | int32 | int64 | uint32 | uint64 | bool | string
deriving DecidableEq

/-- The value of a variant. -/
inductive Value
  | int32 (v : Int32)
  | int64 (v : Int64)
  | uint32 (v : UInt32)
  | uint64 (v : UInt64)
  | bool (v : Bool)
  | string (v : String)
deriving DecidableEq

namespace Value

/-- The type of a variant. -/
def type : Value → VariantType
  | .int32 _ => .int32
  | .int64 _ => .int64
  | .uint32 _ => .uint32
  | .uint64 _ => .uint64
  | .bool _ => .bool
  | .string _ => .string

/-- The number that a value is, if it is not a string; `true` is 1. -/
def toInt? : Value → Option ℤ
  | .int32 v => some v.toInt
  | .int64 v => some v.toInt
  | .uint32 v => some v.toNat
  | .uint64 v => some v.toNat
  | .bool v => some v.toInt
  | .string _ => none

/-- The number of a value of an integer type, whose type is at most 4. -/
def integer? : Value → Option ℤ
  | .bool _ => none
  | v => v.toInt?

/-- `PbVariant::operator bool`. -/
def castBool : Value → Bool
  | .string v => v ≠ ""
  | .int32 v => v ≠ 0
  | .int64 v => v ≠ 0
  | .uint32 v => v ≠ 0
  | .uint64 v => v ≠ 0
  | .bool v => v

/-- `PbVariant::operator int32_t`; `none` when a text is not such a number. -/
def castInt32 : Value → Option Int32
  | .string v => stoi v
  | v => v.toInt?.map Int32.ofInt

/-- `PbVariant::operator int64_t`. -/
def castInt64 : Value → Option Int64
  | .string v => stol v
  | v => v.toInt?.map Int64.ofInt

/-- `PbVariant::operator uint32_t`. -/
def castUInt32 : Value → Option UInt32
  | .string v => (stoul v).map UInt64.toUInt32
  | v => v.toInt?.map UInt32.ofInt

/-- `PbVariant::operator uint64_t`. -/
def castUInt64 : Value → Option UInt64
  | .string v => stoul v
  | v => v.toInt?.map UInt64.ofInt

@[simp] theorem castInt32_int32 (v : Int32) : castInt32 (.int32 v) = some v := by
    simp [castInt32, toInt?]

@[simp] theorem castInt64_int64 (v : Int64) : castInt64 (.int64 v) = some v := by
    simp [castInt64, toInt?]

@[simp] theorem castUInt32_uint32 (v : UInt32) : castUInt32 (.uint32 v) = some v := by
  have hlt := v.toNat_lt
  have hcast : UInt32.ofInt v.toNat = v := by
    unfold UInt32.ofInt
    rw [Int.emod_eq_of_lt (by omega) (by omega), Int.toNat_natCast, UInt32.ofNat_toNat]
  exact congrArg some hcast

@[simp] theorem castUInt64_uint64 (v : UInt64) : castUInt64 (.uint64 v) = some v := by
  have hlt := v.toNat_lt
  have hcast : UInt64.ofInt v.toNat = v := by
    unfold UInt64.ofInt
    rw [Int.emod_eq_of_lt (by omega) (by omega), Int.toNat_natCast, UInt64.ofNat_toNat]
  exact congrArg some hcast

/-- `PbVariant::toString`. -/
def toText : Value → String
  | .int32 v => toString v.toInt
  | .int64 v => toString v.toInt
  | .uint32 v => toString v.toNat
  | .uint64 v => toString v.toNat
  | .bool v => if v then "1" else "0"
  | .string v => v

end Value

/-! ## Comparisons -/

/-- The operators of `PB_VARIANT_CMP_OP`. -/
inductive CompareOp
  | lt | le | eq | gt | ge | ne
deriving DecidableEq

/-- An operator on values of one type. -/
def CompareOp.test {α : Type} [LT α] [LE α] [DecidableLT α] [DecidableLE α] [DecidableEq α]
    (a b : α) :
    CompareOp → Bool
  | .lt => decide (a < b)
  | .le => decide (a ≤ b)
  | .eq => decide (a = b)
  | .gt => decide (b < a)
  | .ge => decide (b ≤ a)
  | .ne => decide (a ≠ b)

/-- The comparison operators of `PbVariant`: the right operand is cast to the type of the left one.
There is no case for `bool`. -/
def Value.compare (op : CompareOp) : Value → Value → Option Bool
  | .int32 a, r => r.castInt32.map fun b => op.test a b
  | .int64 a, r => r.castInt64.map fun b => op.test a b
  | .uint32 a, r => r.castUInt32.map fun b => op.test a b
  | .uint64 a, r => r.castUInt64.map fun b => op.test a b
  | .bool _, _ => some false
  | .string a, r => some (op.test a r.toText)

/-- A truth value is never less than, equal to or greater than anything, nor different. -/
theorem Value.compare_of_bool (op : CompareOp) {a : Value} (b : Value) (hbool : a.type = .bool) :
    a.compare op b = some false := by
  cases a <;> simp only [Value.type, reduceCtorEq] at hbool
  rfl

/-- `PbVariant`. -/
structure PbVariant where
  value : Value
  isNull : Bool := false
deriving DecidableEq

end Idgs.Expr
