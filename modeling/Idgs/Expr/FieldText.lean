import Mathlib.Data.List.TakeWhile
import Idgs.Expr.Variant

/-!
# Fields from texts

`MessageHelper::setMessageValue` sets a singular field from a text. Each type has a conversion of
its own: the `std::sto` functions throw or ignore what follows a number, a string stream fails
without anybody asking, and a name that an enumeration does not have gives a null pointer. No
conversion returns an error.
-/

namespace Idgs.Expr.FieldText

open Function List

/-! ## Fields and messages -/

/-- `EnumDescriptor`: the names of the enumerators with their numbers. -/
structure EnumDescriptor where
  values : List (String × Int32)
  nodup : (values.map Prod.fst).Nodup

/-- `FindValueByName`. -/
def EnumDescriptor.findValueByName (e : EnumDescriptor) (name : String) : Option Int32 :=
  (e.values.find? fun v => v.1 = name).map Prod.snd

/-- `FieldDescriptor::cpp_type` of a singular field that is not a message, with the type of an
enumeration. -/
inductive CppType
  | int32 | int64 | uint32 | uint64 | double | float | bool
  | enum (type : EnumDescriptor)
  | string

/-- The floating point numbers, with what `std::to_string` writes and what `std::stod` and
`std::stof` read; `none` where they throw. -/
structure Floating (δ φ : Type) where
  doubleZero : δ
  doubleText : δ → String
  stod : String → Option δ
  floatZero : φ
  floatText : φ → String
  stof : String → Option φ
  doubleText_ne : ∀ v, doubleText v ≠ ""
  floatText_ne : ∀ v, floatText v ≠ ""

variable {δ φ : Type}

/-- The values of a type; an enumerator is its number. -/
def CppType.Value (δ φ : Type) : CppType → Type
  | .int32 => Int32
  | .int64 => Int64
  | .uint32 => UInt32
  | .uint64 => UInt64
  | .double => δ
  | .float => φ
  | .bool => Bool
  | .enum _ => Int32
  | .string => String

/-- The fields of a message, each with its type and its default value. -/
structure Descriptor (δ φ ι : Type) where
  cppType : ι → CppType
  defaultValue : ∀ f, (cppType f).Value δ φ

/-- A message: the values of the fields that are set. -/
abbrev Message {ι : Type} (d : Descriptor δ φ ι) := ∀ f, Option ((d.cppType f).Value δ φ)

/-- The result codes that occur here. -/
inductive ResultCode
  | success | dataConvertError | notSupport
deriving DecidableEq

/-! ## Conversions -/

/-- The result of a conversion: a code with a value, an exception, or a variable that nothing has
been stored to. -/
inductive Converted (α : Type)
  | returns (code : ResultCode) (result : α)
  | throws
  | indeterminate

/-- `convert` for a type with a function of the standard library that throws. -/
def ofSto {α : Type} : Option α → Converted α
  | none => .throws
  | some v => .returns .success v

/-- `convert` for the other types, by `simple_lexical_cast`, where `none` is a stream that stores
nothing. -/
def ofStream {α : Type} : Option α → Converted α
  | none => .indeterminate
  | some v => .returns .success v

/-- Only blanks are left in a stream, so that it stores nothing. -/
def isBlank (s : String) : Bool := s.toList.all isSpace

/-- `>>` of an unsigned number: 0 without digits, the largest one for a number out of range. -/
def extractUInt32 (s : String) : Option UInt32 :=
  if isBlank s then none
  else
    match readNumber s with
    | none => some 0
    | some n => if 4294967295 < n.natAbs then some 4294967295 else some (UInt32.ofInt n)

/-- `>>` of a truth value: every number but 0 is true. -/
def extractBool (s : String) : Option Bool :=
  if isBlank s then none
  else
    match readNumber s with
    | none => some false
    | some n => some (decide (n ≠ 0))

/-- `formatBoolValue`; `strcmp` looks at nothing behind a null character. -/
def formatBoolValue (value : String) : String :=
  let text := (value.toList.map Char.toUpper).takeWhile (· ≠ '\x00')
  if text = "TRUE".toList then "1"
  else if text = "FALSE".toList then "0"
  else value

/-- What a branch of the switch does: sets the field, returns success or another code without
setting it, throws, or is undefined. -/
inductive Branch (α : Type)
  | set (v : α)
  | keep
  | fails (code : ResultCode)
  | throws
  | undefined

/-- The code of a conversion is looked at. -/
def Converted.branch {α : Type} : Converted α → Branch α
  | .returns code result => if code ≠ .success then .fails code else .set result
  | .throws => .throws
  | .indeterminate => .undefined

/-- The branch of `setMessageValue` for a type. -/
def fromText (lib : Floating δ φ) (t : CppType) (value : String) : Branch (t.Value δ φ) :=
  match t with
  | .uint64 => if value = "" then .set (0 : UInt64) else (ofSto (stoul value)).branch
  | .int64 => if value = "" then .set (0 : Int64) else (ofSto (stol value)).branch
  | .uint32 => if value = "" then .set (0 : UInt32) else (ofStream (extractUInt32 value)).branch
  | .int32 => if value = "" then .set (0 : Int32) else (ofSto (stoi value)).branch
  | .string => if value = "" then .set "" else .set value
  | .double => if value = "" then .set lib.doubleZero else (ofSto (lib.stod value)).branch
  | .float => if value = "" then .set lib.floatZero else (ofSto (lib.stof value)).branch
  | .bool => if value = "" then .set false
      else (ofStream (extractBool (formatBoolValue value))).branch
  | .enum type =>
    if value = "" then .keep
    else
      match type.findValueByName value with
      | none => .undefined
      | some number => .set number

/-- What comes of `setMessageValue`: a code and the message, an exception, or undefined
behaviour. -/
inductive Outcome (μ : Type)
  | returns (code : ResultCode) (message : μ)
  | throws
  | undefined

section Messages

variable {ι : Type} [DecidableEq ι] {d : Descriptor δ φ ι}

/-- `setMessageValue`. -/
def setMessageValue (lib : Floating δ φ) (message : Message d) (field : ι) (value : String) :
    Outcome (Message d) :=
  match fromText lib (d.cppType field) value with
  | .set v => .returns .success (Function.update message field (some v))
  | .keep => .returns .success message
  | .fails code => .returns code message
  | .throws => .throws
  | .undefined => .undefined

/-- `PbVariant::toString` of the variant that `getMessageValue` makes of a value. -/
def toText (lib : Floating δ φ) (t : CppType) (v : t.Value δ φ) : Option String :=
  match t, v with
  | .uint64, v => some (Expr.Value.uint64 v).toText
  | .int64, v => some (Expr.Value.int64 v).toText
  | .uint32, v => some (Expr.Value.uint32 v).toText
  | .int32, v => some (Expr.Value.int32 v).toText
  | .string, v => some (Expr.Value.string v).toText
  | .double, v => some (lib.doubleText v)
  | .float, v => some (lib.floatText v)
  | .bool, v => some (Expr.Value.bool v).toText
  | .enum _, _ => none

/-- `getMessageValue`, with the text of the variant. -/
def getMessageValue (lib : Floating δ φ) (message : Message d) (field : ι) :
    ResultCode × Option String :=
  match toText lib (d.cppType field) ((message field).getD (d.defaultValue field)) with
  | none => (.notSupport, none)
  | some text => (.success, some text)

end Messages

/-! ## What is to hold -/

/-- The text of a value: what is printed for it, and its name for an enumerator. -/
def IsText (lib : Floating δ φ) (t : CppType) (v : t.Value δ φ) (s : String) : Prop :=
  match t, v with
  | .enum type, v => type.findValueByName s = some v
  | t, v => toText lib t v = some s

/-- The text of a value is printed for it and restores it, and another text is an error that changes
nothing. -/
structure Right {ι : Type} [DecidableEq ι] (lib : Floating δ φ) (d : Descriptor δ φ ι) (field : ι)
    (s : String) :
    Prop where
  restores : ∀ v, IsText lib (d.cppType field) v s →
    (∀ message : Message d, message field = some v →
    getMessageValue lib message field = (.success, some s)) ∧
      ∀ message : Message d,
        setMessageValue lib message field s =
        .returns .success (Function.update message field (some v))
  rejects : (¬ ∃ v, IsText lib (d.cppType field) v s) → ∀ message : Message d,
    ∃ code, code ≠ .success ∧ setMessageValue lib message field s = .returns code message

/-- The text is that of a number of the type, in decimal; a truth value as a digit; any text for a
string. A text of a floating point number is that of one number only, and is read as this one. -/
def Reads (lib : Floating δ φ) : CppType → String → Prop
  | .uint64, s => ∃ v : UInt64, s = toString v.toNat
  | .int64, s => ∃ v : Int64, s = toString v.toInt
  | .uint32, s => ∃ v : UInt32, s = toString v.toNat
  | .int32, s => ∃ v : Int32, s = toString v.toInt
  | .string, _ => True
  | .double, s => ∃ v, lib.stod s = some v ∧ ∀ v', lib.doubleText v' = s ↔ v' = v
  | .float, s => ∃ v, lib.stof s = some v ∧ ∀ v', lib.floatText v' = s ↔ v' = v
  | .bool, s => s = "0" ∨ s = "1"
  | .enum _, _ => False

/-! ## Texts that are read back -/

section Reading

variable {lib : Floating δ φ} {t : CppType} {s : String} {n : ℤ}

theorem readNumber_toString_nat (n : ℕ) : readNumber (toString n) = some (n : ℤ) :=
  readNumber_digits Nat.toList_repr

theorem stoul_toString (v : UInt64) : stoul (toString v.toNat) = some v := by
  have hlt := v.toNat_lt
  unfold stoul readWithin
  rw [readNumber_toString_nat, Option.filter_some, if_pos (by simp; omega), Option.map_some]
  exact Value.castUInt64_uint64 v

/-- A text with a number is not empty. -/
theorem ne_empty (h : readNumber s = some n) : s ≠ "" := by
  rintro rfl
  cases h

/-- A text with a number is not blank. -/
theorem not_isBlank (h : readNumber s = some n) : ¬ isBlank s = true := by
  intro hblank
  have hnil : s.toList.dropWhile isSpace = [] :=
    dropWhile_eq_nil_iff.mpr fun c hc => all_eq_true.mp hblank c hc
  unfold readNumber at h
  rw [hnil] at h
  cases h

theorem extractUInt32_toString (v : UInt32) : extractUInt32 (toString v.toNat) = some v := by
  have hlt := v.toNat_lt
  have hread := readNumber_toString_nat v.toNat
  unfold extractUInt32
  rw [if_neg (not_isBlank hread), hread]
  simp only [Int.natAbs_natCast]
  rw [if_neg (by omega)]
  exact Value.castUInt32_uint32 v

/-- A conversion that returns sets the field. -/
theorem branch_ofSto {α : Type} {r : Option α} {v : α} (h : r = some v) :
    (ofSto r).branch = .set v := by
  rw [h]
  rfl

theorem branch_ofStream {α : Type} {r : Option α} {v : α} (h : r = some v) :
    (ofStream r).branch = .set v := by
  rw [h]
  rfl

/-- The texts of a type whose values are all read back. -/
theorem printed_iff {α : Type} (text : α → String) (branch : String → Branch α)
    (h : ∀ v, branch (text v) = .set v) (s : String) :
    (∃ v, s = text v) ↔
      (∃ v, some (text v) = some s) ∧ ∀ v, some (text v) = some s →
      some (text v) = some s ∧ branch s = .set v := by
  constructor
  · rintro ⟨v, rfl⟩
    refine ⟨⟨v, rfl⟩, fun v' hv' => ⟨hv', ?_⟩⟩
    rw [← Option.some.inj hv']
    exact h v'
  · rintro ⟨⟨v, hv⟩, -⟩
    exact ⟨v, (Option.some.inj hv).symm⟩

/-- The texts of a floating point type. -/
theorem floating_iff {α : Type} (text : α → String) (sto : String → Option α) (zero : α)
    (hne : ∀ v, text v ≠ "") (s : String) :
    (∃ v, sto s = some v ∧ ∀ v', text v' = s ↔ v' = v) ↔
      (∃ v, some (text v) = some s) ∧
        ∀ v, some (text v) = some s → some (text v) = some s ∧
          (if s = "" then Branch.set zero else (ofSto (sto s)).branch) = .set v := by
  constructor
  · rintro ⟨v, hsto, hv⟩
    refine ⟨⟨v, congrArg some ((hv v).mpr rfl)⟩, fun v' hv' => ⟨hv', ?_⟩⟩
    have htext := Option.some.inj hv'
    obtain rfl := (hv v').mp htext
    rw [if_neg (htext ▸ hne v'), branch_ofSto hsto]
  · rintro ⟨⟨v, hv⟩, hall⟩
    have hs : s ≠ "" := Option.some.inj hv ▸ hne v
    have hread : ∀ v', text v' = s → sto s = some v' := by
      intro v' hv'
      have hset := (hall v' (congrArg some hv')).2
      rw [if_neg hs] at hset
      cases hsto : sto s with
      | none =>
        rw [hsto] at hset
        cases hset
      | some w =>
        rw [hsto, branch_ofSto rfl] at hset
        exact congrArg some (Branch.set.inj hset)
    have hv := Option.some.inj hv
    refine ⟨v, hread v hv, fun v' => ⟨fun hv' => ?_, fun heq => heq ▸ hv⟩⟩
    exact Option.some.inj ((hread v' hv').symm.trans (hread v hv))

/-- The texts that are those of values, each of which is printed so and restored. -/
theorem reads_iff :
    Reads lib t s ↔
      (∃ v, IsText lib t v s) ∧ ∀ v, IsText lib t v s →
      toText lib t v = some s ∧ fromText lib t s = .set v := by
  cases t with
  | uint64 =>
    refine printed_iff (fun v : UInt64 => toString v.toNat) (fromText lib .uint64) (fun v => ?_) s
    exact (if_neg (ne_empty (readNumber_toString_nat _))).trans (branch_ofSto (stoul_toString v))
  | int64 =>
    refine printed_iff (fun v : Int64 => toString v.toInt) (fromText lib .int64) (fun v => ?_) s
    exact (if_neg (ne_empty (readNumber_toString _))).trans (branch_ofSto (stol_toString v))
  | uint32 =>
    refine printed_iff (fun v : UInt32 => toString v.toNat) (fromText lib .uint32) (fun v => ?_) s
    exact (if_neg (ne_empty (readNumber_toString_nat _))).trans
      (branch_ofStream (extractUInt32_toString v))
  | int32 =>
    refine printed_iff (fun v : Int32 => toString v.toInt) (fromText lib .int32) (fun v => ?_) s
    exact (if_neg (ne_empty (readNumber_toString _))).trans (branch_ofSto (stoi_toString v))
  | string =>
    refine (iff_of_true trivial ⟨s, rfl⟩).trans
      (printed_iff (fun v : String => v) (fromText lib .string) ?_ s)
    intro v
    show (if v = "" then Branch.set "" else .set v) = .set v
    split
    · rename_i hempty
      rw [hempty]
    · rfl
  | double => exact floating_iff lib.doubleText lib.stod lib.doubleZero lib.doubleText_ne s
  | float => exact floating_iff lib.floatText lib.stof lib.floatZero lib.floatText_ne s
  | bool =>
    have htext : (s = "0" ∨ s = "1") ↔ ∃ v : Bool, s = (Value.bool v).toText :=
      ⟨fun h => h.elim (fun h => ⟨false, h⟩) fun h => ⟨true, h⟩, fun ⟨v, h⟩ => by
        cases v with
        | false => exact .inl h
        | true => exact .inr h⟩
    refine htext.trans
      (printed_iff (fun v : Bool => (Value.bool v).toText) (fromText lib .bool) ?_ s)
    intro v
    cases v with
    | false | true => rfl
  | enum type =>
    refine iff_of_false id ?_
    rintro ⟨⟨v, hv⟩, hall⟩
    cases (hall v hv).1

/-- No branch returns an error. -/
theorem fromText_ne_fails (code : ResultCode) : fromText lib t s ≠ .fails code := by
  have hsto : ∀ {α : Type} {r : Option α}, (ofSto r).branch ≠ .fails code := by
    rintro α (_ | v) h
    all_goals cases h
  have hstream : ∀ {α : Type} {r : Option α}, (ofStream r).branch ≠ .fails code := by
    rintro α (_ | v) h
    all_goals cases h
  have hguard : ∀ {α : Type} {empty other : Branch α}, empty ≠ .fails code → other ≠ .fails code →
      (if s = "" then empty else other) ≠ .fails code := by
    intro α empty other hempty hother
    split
    · exact hempty
    · exact hother
  have hset : ∀ {α : Type} {v : α}, Branch.set v ≠ .fails code := by
    intro α v h
    cases h
  cases t with
  | uint64 | int64 | int32 | double | float => exact hguard hset hsto
  | uint32 | bool => exact hguard hset hstream
  | string => exact hguard hset hset
  | enum type =>
    refine hguard (fun h => by cases h) ?_
    cases type.findValueByName s with
    | none => exact fun h => by cases h
    | some number => exact hset

end Reading

/-! ## Where the setter is right -/

section Setting

variable {ι : Type} [DecidableEq ι] {lib : Floating δ φ} {d : Descriptor δ φ ι} {field : ι}
    {s : String}

/-- When the setter returns, it returns success, and has set the field or left the message as it
is. -/
theorem of_returns {message message' : Message d} {code : ResultCode}
    (h : setMessageValue lib message field s = .returns code message') :
    code = .success ∧
      ((∃ v, fromText lib (d.cppType field) s = .set v ∧
        message' = update message field (some v)) ∨
        message' = message) := by
  unfold setMessageValue at h
  split at h
  case h_1 v hset =>
    injection h with hcode hmessage
    exact ⟨hcode.symm, .inl ⟨v, hset, hmessage.symm⟩⟩
  case h_2 hkeep =>
    injection h with hcode hmessage
    exact ⟨hcode.symm, .inr hmessage.symm⟩
  case h_3 code' hfails => exact absurd hfails (fromText_ne_fails code')
  case h_4 => cases h
  case h_5 => cases h

/-- A setter that restores a value in an empty message has read it from the text. -/
theorem fromText_of_restores {v : (d.cppType field).Value δ φ}
    (h : setMessageValue lib (fun _ => none : Message d) field s =
      .returns .success (update (fun _ => none) field (some v))) :
    fromText lib (d.cppType field) s = .set v := by
  obtain ⟨-, ⟨v', hset, hmessage⟩ | hmessage⟩ := of_returns h
  · have hfield := congrFun hmessage field
    rw [update_self, update_self] at hfield
    rw [Option.some.inj hfield]
    exact hset
  · have hfield := congrFun hmessage field
    rw [update_self] at hfield
    cases hfield

end Setting

/-- **The texts that a field is set from exactly.** For every type, field and text: the text of a
value restores it, and another text is an error, just for the decimal texts of the integers of the
type, the digits of a truth value, every text of a string, and the texts of floating point numbers
that are read back and belong to one number only. -/
theorem right_iff_reads {ι : Type} [DecidableEq ι] (lib : Floating δ φ) (d : Descriptor δ φ ι)
    (field : ι) (s : String) :
    Right lib d field s ↔ Reads lib (d.cppType field) s := by
  rw [reads_iff]
  constructor
  · rintro ⟨hrestores, hrejects⟩
    refine ⟨?_, fun v hv => ⟨?_, fromText_of_restores ((hrestores v hv).2 fun _ => none)⟩⟩
    · by_contra hnone
      obtain ⟨code, hcode, hset⟩ := hrejects hnone fun _ => none
      exact hcode (of_returns hset).1
    · have hfield : (Function.update (fun _ => none) field (some v) : Message d) field =
        some v := by
        rw [Function.update_self]
      have hprinted := (hrestores v hv).1 (Function.update (fun _ => none) field (some v)) hfield
      unfold getMessageValue at hprinted
      rw [hfield, Option.getD_some] at hprinted
      split at hprinted
      · cases hprinted
      · rename_i text htext
        rw [htext]
        exact (Prod.mk.inj hprinted).2
  · rintro ⟨hsome, hall⟩
    refine ⟨fun v hv => ⟨fun message hmessage => ?_, fun message => ?_⟩, fun hnone =>
      absurd hsome hnone⟩
    · unfold getMessageValue
      rw [hmessage, Option.getD_some, (hall v hv).1]
    · unfold setMessageValue
      rw [(hall v hv).2]

/-- A message type with one number. -/
def oneNumber : Descriptor Unit Unit Unit where
  cppType := fun _ => .int32
  defaultValue := fun _ => (0 : Int32)

/-- A library with one floating point number, zero. -/
def onlyZero : Floating Unit Unit where
  doubleZero := ()
  doubleText := fun _ => "0.000000"
  stod := fun s => if s = "0.000000" then some () else none
  floatZero := ()
  floatText := fun _ => "0.000000"
  stof := fun s => if s = "0.000000" then some () else none
  doubleText_ne := fun _ => by decide
  floatText_ne := fun _ => by decide

/-- What follows the number is ignored. -/
theorem not_right_trailing : ¬ Right onlyZero oneNumber () "12abc" := by
  intro h
  have hother : ¬ ∃ v, IsText onlyZero (oneNumber.cppType ()) v "12abc" := by
    rintro ⟨v, hv⟩
    have htext : toString v.toInt = "12abc" := Option.some.inj hv
    have hnumber : readNumber "12abc" = some 12 := by decide
    have hv : v.toInt = 12 := by
      rw [← htext, readNumber_toString] at hnumber
      exact Option.some.inj hnumber
    rw [hv] at htext
    exact absurd htext (by decide)
  obtain ⟨code, hcode, hset⟩ := h.rejects hother fun _ => none
  have hread : stoi "12abc" = some 12 := by decide
  have hbranch : fromText onlyZero (oneNumber.cppType ()) "12abc" = .set (12 : Int32) := by
    show (if "12abc" = "" then Branch.set (0 : Int32) else (ofSto (stoi "12abc")).branch) = .set 12
    rw [if_neg (by decide), branch_ofSto hread]
  unfold setMessageValue at hset
  rw [hbranch] at hset
  injection hset with hsuccess
  exact hcode hsuccess.symm

end Idgs.Expr.FieldText
