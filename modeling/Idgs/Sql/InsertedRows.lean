import Idgs.Common.Lists
import Idgs.Sql.InsertOperator

/-!
# Rows that are read

What the texts of a row denote, and what is read in them: a number of an unsigned type is read if it
is one of the signed type, and of the texts that denote nothing only some are refused with an
`IdgsException`. A line is cut into its texts again if its separator has ordinary characters only
and its last text is not empty.
-/

namespace Idgs.Sql.Insert

open List

open Common (mapM_eq_error_iff mapM_eq_ok_iff)
open Common.Splitting (Apart split_intercalate_of_last)

variable {δ φ : Type}

variable {key value : DynamicMessage δ φ}

section Platform

variable (platform : Platform δ φ)

/-! ## What texts denote -/

/-- The integer that a text denotes, if it is in a range. -/
def integerIn (low high : ℤ) (text : Text) : Option ℤ :=
  (integer text).filter fun n => low ≤ n ∧ n < high

/-- The floating point number next to the one that a text denotes. -/
def decimalNumber {α : Type} (nearest : Text → α) (text : Text) : Option α :=
  if isNumeric text ∧ text.any Char.isDigit then some (nearest text) else none

/-- The value that a text denotes. -/
def denoted (type : FieldType) (text : Text) : Option (Value δ φ) :=
  match type with
  | .int32 | .sint32 | .sfixed32 =>
    (integerIn (-2 ^ 31) (2 ^ 31) text).map fun n => .int (Int32.ofInt n)
  | .uint32 | .fixed32 => (integerIn 0 (2 ^ 32) text).map fun n => .int (Int32.ofInt n)
  | .int64 | .sint64 | .sfixed64 =>
    (integerIn (-2 ^ 63) (2 ^ 63) text).map fun n => .long (Int64.ofInt n)
  | .uint64 | .fixed64 => (integerIn 0 (2 ^ 64) text).map fun n => .long (Int64.ofInt n)
  | .float => (decimalNumber platform.nearestFloat text).map .float
  | .double => (decimalNumber platform.nearestDouble text).map .double
  | .bool =>
    if equalsIgnoreCase text "true".toList then some (.boolean true)
    else if equalsIgnoreCase text "false".toList then some (.boolean false)
    else none
  | .string => some (.string text)
  | .bytes => some (.byteString (platform.getBytes text))
  | .enum type =>
    match type.findValueByName text with
    | some v => some (.enum v)
    | none =>
      ((integerIn (-2 ^ 31) (2 ^ 31) text).bind fun n =>
        type.findValueByNumber (Int32.ofInt n)).map .enum

/-- What a text denotes of a field: an empty text leaves an optional field unset. -/
def Means (field : FieldDescriptor δ φ) (text : Text) (v : Option (Value δ φ)) : Prop :=
  if text.isEmpty ∧ field.required = false then v = none
  else ∃ w, denoted platform field.type text = some w ∧ v = some w

/-- The fields of the messages are related to the texts, one by one. -/
def FieldsFrom (cfg : StoreConfig)
    (means : FieldDescriptor δ φ → Text → Option (Value δ φ) → Prop) (texts : List Text)
    (key value : DynamicMessage δ φ) : Prop :=
  ∃ keyFields valueFields,
    platform.cache cfg.keyType = some keyFields ∧
      platform.cache cfg.valueType = some valueFields ∧
      key.type = cfg.keyType ∧ value.type = cfg.valueType ∧
      key.fields.length = keyFields.length ∧
      texts.length = keyFields.length + valueFields.length ∧
      List.Forall₂ (fun f v => means f.1 f.2 v) ((keyFields ++ valueFields).zip texts)
        (key.fields ++ value.fields)

/-- The texts are valid, and denote these messages. -/
def Denotes (cfg : StoreConfig) (texts : List Text) (key value : DynamicMessage δ φ) : Prop :=
  FieldsFrom platform cfg (Means platform) texts key value

/-! ## What is read -/

/-- An integer that is read: it has to be in the range of the signed type. -/
def ReadsInteger (bits : ℕ) (text : Text) (n : ℤ) : Prop :=
  integer text = some n ∧ signRead platform text ∧ -2 ^ (bits - 1) ≤ n ∧ n < 2 ^ (bits - 1)

/-- The value that is read in a text. -/
def Reads (type : FieldType) (text : Text) (v : Value δ φ) : Prop :=
  match type with
  | .int32 | .uint32 | .sint32 | .fixed32 | .sfixed32 =>
    ∃ n, ReadsInteger platform 32 text n ∧ v = .int (Int32.ofInt n)
  | .int64 | .uint64 | .sint64 | .fixed64 | .sfixed64 =>
    ∃ n, ReadsInteger platform 64 text n ∧ v = .long (Int64.ofInt n)
  | .float => ∃ x, decimalNumber platform.nearestFloat text = some x ∧ v = .float x
  | .double => ∃ x, decimalNumber platform.nearestDouble text = some x ∧ v = .double x
  | .bool => v = .boolean (equalsIgnoreCase text "true".toList)
  | .string => v = .string text
  | .bytes => v = .byteString (platform.getBytes text)
  | .enum type =>
    ∃ w, (type.findValueByName text = some w ∨
      ∃ n, ReadsInteger platform 32 text n ∧ type.findValueByNumber (Int32.ofInt n) = some w) ∧
      v = .enum w

/-- What is read of a field. -/
def Takes (field : FieldDescriptor δ φ) (text : Text) (v : Option (Value δ φ)) : Prop :=
  if text.isEmpty ∧ field.required = false then v = none
  else ∃ w, Reads platform field.type text w ∧ v = some w

/-- A text is refused that is not numeric, or is no enumerator. -/
def Refuses (type : FieldType) (text : Text) : Prop :=
  match type with
  | .bool | .string | .bytes => False
  | .enum type =>
    (isNumeric text = false ∧ type.findValueByName text = none) ∨
      ∃ n, ReadsInteger platform 32 text n ∧ type.findValueByNumber (Int32.ofInt n) = none
  | _ => isNumeric text = false

/-- The first text that is not taken is refused. -/
def FirstRefused (fields : List (FieldDescriptor δ φ × Text)) : Prop :=
  ∃ before field text after, fields = before ++ (field, text) :: after ∧
    (∀ f ∈ before, ∃ v, Takes platform f.1 f.2 v) ∧
    ¬ (text.isEmpty ∧ field.required = false) ∧ Refuses platform field.type text

/-- The line is cut into texts that are read as these messages. -/
def ReadsRow (cfg : StoreConfig) (row : Text) (key value : DynamicMessage δ φ) : Prop :=
  row ≠ [] ∧ ∃ parts, splitRow platform cfg row = .ok parts ∧
    FieldsFrom platform cfg (Takes platform) parts key value

/-- The line is empty; or it is cut, and a type is not registered, or there are more or less texts
than fields, or the first text that is not taken is refused. -/
def RefusesRow (cfg : StoreConfig) (row : Text) : Prop :=
  row = [] ∨ ∃ parts, splitRow platform cfg row = .ok parts ∧
    ∀ keyFields valueFields, platform.cache cfg.keyType = some keyFields →
      platform.cache cfg.valueType = some valueFields →
      keyFields.length + valueFields.length = parts.length →
      FirstRefused platform ((keyFields ++ valueFields).zip parts)

/-! ## Reading one field -/

variable {platform}

section Field

variable {field : FieldDescriptor δ φ} {text : Text}

theorem isNumeric_of_integer {n : ℤ} (h : integer text = some n) : isNumeric text = true := by
  unfold integer at h
  by_cases hdigits : (splitSign text).2 ≠ [] ∧ (splitSign text).2.all Char.isDigit
  · have hnil : (splitSign text).2.dropWhile Char.isDigit = [] :=
      dropWhile_eq_nil_iff.mpr (all_eq_true.mp hdigits.2)
    rw [isNumeric, hnil]
  · simp only [if_neg hdigits] at h
    cases h

theorem valueOf_eq_ok_iff {bits : ℕ} {n : ℤ} :
    valueOf platform bits text = .ok n ↔ ReadsInteger platform bits text n := by
  unfold valueOf ReadsInteger
  cases integer text with
  | none =>
    refine iff_of_false (fun h => ?_) (fun h => ?_)
    · cases h
    · cases h.1
  | some m =>
    simp only
    split
    · rename_i hread
      constructor
      · intro h
        cases h
        exact ⟨rfl, hread⟩
      · rintro ⟨h, -⟩
        cases h
        rfl
    · rename_i hread
      refine iff_of_false (fun h => ?_) (fun h => ?_)
      · cases h
      · obtain ⟨hm, hrest⟩ := h
        cases hm
        exact hread hrest

/-- A conversion of an integer does not throw an `IdgsException`. -/
theorem valueOf_ne_idgsException {bits : ℕ} {message : String} :
    valueOf platform bits text ≠ .error (.idgsException message) := by
  unfold valueOf
  intro h
  split at h
  · split at h
    · cases h
    · cases h
  · cases h

theorem floatValueOf_ne_idgsException {α : Type} {nearest : Text → α} {message : String} :
    floatValueOf nearest text ≠ .error (.idgsException message) := by
  unfold floatValueOf
  intro h
  split at h
  · cases h
  · cases h

theorem map_eq_ok_iff {α β : Type} {e : Except Thrown α} {g : α → β} {b : β} :
    e.map g = .ok b ↔ ∃ a, e = .ok a ∧ b = g a := by
  cases e with
  | error e =>
    refine iff_of_false (fun h => ?_) ?_
    · cases h
    · rintro ⟨a, h, -⟩
      cases h
  | ok a =>
    constructor
    · intro h
      exact ⟨a, rfl, (Except.ok.inj h).symm⟩
    · rintro ⟨a', h, rfl⟩
      cases h
      rfl

theorem map_eq_error_iff {α β : Type} {e : Except Thrown α} {g : α → β} {thrown : Thrown} :
    e.map g = .error thrown ↔ e = .error thrown := by
  cases e with
  | error e =>
    constructor
    · intro h
      cases h
      rfl
    · intro h
      cases h
      rfl
  | ok a =>
    refine iff_of_false (fun h => ?_) (fun h => ?_)
    · cases h
    · cases h

theorem ifNumeric_valueOf_ok_iff {bits : ℕ} {g : ℤ → Value δ φ} {v : Value δ φ} :
    ifNumeric field text ((valueOf platform bits text).map g) = .ok v ↔
      ∃ n, ReadsInteger platform bits text n ∧ v = g n := by
  rw [ifNumeric]
  split
  · rw [map_eq_ok_iff]
    simp only [valueOf_eq_ok_iff]
  · rename_i hnumeric
    refine iff_of_false (fun h => ?_) ?_
    · cases h
    · rintro ⟨n, ⟨hn, -⟩, -⟩
      exact hnumeric (isNumeric_of_integer hn)

theorem ifNumeric_floatValueOf_ok_iff {α : Type} {nearest : Text → α} {g : α → Value δ φ}
    {v : Value δ φ} :
    ifNumeric field text ((floatValueOf nearest text).map g) = .ok v ↔
      ∃ x, decimalNumber nearest text = some x ∧ v = g x := by
  rw [ifNumeric, floatValueOf, decimalNumber]
  by_cases hnumeric : isNumeric text = true
  · by_cases hdigit : text.any Char.isDigit = true
    · rw [if_pos hnumeric, if_pos hdigit, if_pos ⟨hnumeric, hdigit⟩, map_eq_ok_iff]
      simp only [Except.ok.injEq, Option.some.injEq]
    · rw [if_pos hnumeric, if_neg hdigit, if_neg fun h => hdigit h.2]
      refine iff_of_false (fun h => ?_) ?_
      · cases h
      · rintro ⟨x, h, -⟩
        cases h
  · rw [if_neg hnumeric, if_neg fun h => hnumeric h.1]
    refine iff_of_false (fun h => ?_) ?_
    · cases h
    · rintro ⟨x, h, -⟩
      cases h

theorem ifNumeric_refuses_iff {α β : Type} {e : Except Thrown α} {g : α → β}
    (he : ∀ message, e ≠ .error (.idgsException message)) :
    (∃ message, ifNumeric field text (e.map g) = .error (.idgsException message)) ↔
      isNumeric text = false := by
  rw [ifNumeric]
  split
  · rename_i hnumeric
    refine iff_of_false ?_ (by rw [hnumeric]; exact Bool.noConfusion)
    rintro ⟨message, h⟩
    exact he message (map_eq_error_iff.mp h)
  · rename_i hnumeric
    exact iff_of_true ⟨_, rfl⟩ (Bool.not_eq_true _ ▸ hnumeric)

theorem findValue_eq_ok_iff {type : EnumDescriptor} {w : Option (Text × Int32)} :
    findValue platform type text = .ok w ↔
      (isNumeric text = false ∧ type.findValueByName text = w) ∨
        ∃ n, ReadsInteger platform 32 text n ∧ type.findValueByNumber (Int32.ofInt n) = w := by
  rw [findValue]
  split
  · rename_i hnumeric
    rw [map_eq_ok_iff]
    simp only [valueOf_eq_ok_iff]
    constructor
    · rintro ⟨n, hn, rfl⟩
      exact Or.inr ⟨n, hn, rfl⟩
    · rintro (⟨hnot, -⟩ | ⟨n, hn, rfl⟩)
      · rw [hnumeric] at hnot
        cases hnot
      · exact ⟨n, hn, rfl⟩
  · rename_i hnumeric
    constructor
    · intro h
      exact Or.inl ⟨Bool.eq_false_iff.mpr hnumeric, Except.ok.inj h⟩
    · rintro (⟨-, rfl⟩ | ⟨n, ⟨hn, -⟩, -⟩)
      · rfl
      · exact absurd (isNumeric_of_integer hn) hnumeric

theorem findValue_ne_idgsException {type : EnumDescriptor} {message : String} :
    findValue platform type text ≠ .error (.idgsException message) := by
  rw [findValue]
  split
  · rw [ne_eq, map_eq_error_iff]
    exact valueOf_ne_idgsException
  · intro h
    cases h

/-- No name is numeric. -/
theorem isNumeric_of_findValueByName {type : EnumDescriptor} {w : Text × Int32}
    (h : type.findValueByName text = some w) : isNumeric text = false := by
  rw [EnumDescriptor.findValueByName] at h
  have hname := find?_some h
  rw [← of_decide_eq_true hname]
  exact type.identifiers w (mem_of_find?_eq_some h)

/-- What is read is what `Reads` says. -/
theorem getFieldValue_eq_ok_iff {v : Value δ φ} :
    getFieldValue platform field text = .ok v ↔ Reads platform field.type text v := by
  unfold getFieldValue Reads
  cases field.type with
  | int32 | uint32 | sint32 | fixed32 | sfixed32 | int64 | uint64 | sint64 | fixed64 | sfixed64 =>
    exact ifNumeric_valueOf_ok_iff
  | float | double => exact ifNumeric_floatValueOf_ok_iff
  | bool | string | bytes =>
    exact ⟨fun h => (Except.ok.inj h).symm, fun h => congrArg Except.ok h.symm⟩
  | enum type =>
    simp only
    constructor
    · intro h
      cases hfound : findValue platform type text with
      | error e =>
        rw [hfound] at h
        cases h
      | ok found =>
        rw [hfound] at h
        cases found with
        | none => cases h
        | some w =>
          refine ⟨w, ?_, (Except.ok.inj h).symm⟩
          exact (findValue_eq_ok_iff.mp hfound).imp_left And.right
    · rintro ⟨w, hw, rfl⟩
      have hfound : findValue platform type text = .ok (some w) :=
        findValue_eq_ok_iff.mpr (hw.imp_left fun h => ⟨isNumeric_of_findValueByName h, h⟩)
      simp only [hfound]

/-- An `IdgsException` is thrown exactly if the text is refused. -/
theorem getFieldValue_refuses_iff :
    (∃ message, getFieldValue platform field text = .error (.idgsException message)) ↔
      Refuses platform field.type text := by
  have hinteger : ∀ (bits : ℕ) (g : ℤ → Value δ φ),
      (∃ message, ifNumeric field text ((valueOf platform bits text).map g) =
        .error (.idgsException message)) ↔ isNumeric text = false :=
    fun _ _ => ifNumeric_refuses_iff fun _ => valueOf_ne_idgsException
  have hnever : ∀ v : Value δ φ, (∃ message, Except.ok v =
      (.error (.idgsException message) : Except Thrown (Value δ φ))) ↔ False :=
    fun v => iff_of_false (fun ⟨_, h⟩ => by cases h) id
  unfold getFieldValue Refuses
  cases field.type with
  | int32 | uint32 | sint32 | fixed32 | sfixed32 => exact hinteger 32 _
  | int64 | uint64 | sint64 | fixed64 | sfixed64 => exact hinteger 64 _
  | float | double => exact ifNumeric_refuses_iff fun _ => floatValueOf_ne_idgsException
  | bool | string | bytes => exact hnever _
  | enum type =>
    simp only
    rw [← findValue_eq_ok_iff]
    cases hfound : findValue platform type text with
    | error e =>
      refine iff_of_false ?_ (fun h => by cases h)
      rintro ⟨message, h⟩
      cases h
      exact findValue_ne_idgsException hfound
    | ok found =>
      cases found with
      | none => exact iff_of_true ⟨_, rfl⟩ rfl
      | some w =>
        refine iff_of_false ?_ (fun h => by cases h)
        rintro ⟨message, h⟩
        cases h

/-! ## The loop body -/

theorem parseField_eq_ok_iff {v : Option (Value δ φ)} :
    parseField platform field text = .ok v ↔ Takes platform field text v := by
  rw [parseField, Takes]
  split
  · exact ⟨fun h => (Except.ok.inj h).symm, fun h => congrArg Except.ok h.symm⟩
  · rw [map_eq_ok_iff]
    simp only [getFieldValue_eq_ok_iff]

theorem parseField_refuses_iff :
    (∃ message, parseField platform field text = .error (.idgsException message)) ↔
      ¬ (text.isEmpty ∧ field.required = false) ∧ Refuses platform field.type text := by
  rw [parseField]
  split
  · rename_i hskip
    refine iff_of_false ?_ (fun h => h.1 hskip)
    rintro ⟨message, h⟩
    cases h
  · rename_i hskip
    simp only [map_eq_error_iff]
    rw [getFieldValue_refuses_iff]
    exact (and_iff_right hskip).symm

/-- A required field is set. -/
theorem isSome_of_takes {v : Option (Value δ φ)} (h : Takes platform field text v)
    (hrequired : field.required = true) : v.isSome := by
  rw [Takes, if_neg fun hskip => by rw [hrequired] at hskip; exact Bool.noConfusion hskip.2] at h
  obtain ⟨w, -, rfl⟩ := h
  rfl

end Field

/-! ## Lines -/

section Line

variable {cfg : StoreConfig} {row : Text} {parts : List Text}
  {keyFields valueFields : List (FieldDescriptor δ φ)}

/-- The messages of both loops. -/
def messages (cfg : StoreConfig) (keyFields valueFields : List (FieldDescriptor δ φ))
    (values : List (Option (Value δ φ))) :
    (List (FieldDescriptor δ φ) × DynamicMessage δ φ) ×
      (List (FieldDescriptor δ φ) × DynamicMessage δ φ) :=
  ((keyFields, ⟨cfg.keyType, values.take keyFields.length⟩),
    (valueFields, ⟨cfg.valueType, values.drop keyFields.length⟩))

theorem zip_append_left {α β : Type*} (as bs : List α) (cs : List β) :
    (as ++ bs).zip cs = as.zip cs ++ bs.zip (cs.drop as.length) := by
  induction as generalizing cs with
  | nil => rfl
  | cons a as ih =>
    cases cs with
    | nil => rw [zip_nil_right, zip_nil_right, drop_nil, zip_nil_right, nil_append]
    | cons c cs => exact congrArg ((a, c) :: ·) (ih cs)

theorem isEmpty_eq_false (hrow : row ≠ []) : row.isEmpty = false := by
  cases row with
  | nil => exact absurd rfl hrow
  | cons c row => rfl

/-- The loops are one loop over all fields. -/
theorem readRow_of_parts (hrow : row ≠ []) (hsplit : splitRow platform cfg row = .ok parts)
    (hkey : platform.cache cfg.keyType = some keyFields)
    (hvalue : platform.cache cfg.valueType = some valueFields)
    (hlength : keyFields.length + valueFields.length = parts.length) :
    readRow platform cfg row =
      (((keyFields ++ valueFields).zip parts).mapM fun f => parseField platform f.1 f.2).map
        (messages cfg keyFields valueFields) := by
  have hempty := isEmpty_eq_false hrow
  unfold readRow
  simp only [hempty, hsplit, registered, hkey, hvalue]
  rw [if_neg Bool.false_ne_true, zip_append_left, mapM_append]
  change (if keyFields.length + valueFields.length ≠ parts.length then _ else _) = _
  rw [if_neg (not_not.mpr hlength)]
  cases hkeys : (keyFields.zip parts).mapM fun f => parseField platform f.1 f.2 with
  | error e => rfl
  | ok key =>
    cases hvalues : (valueFields.zip (parts.drop keyFields.length)).mapM fun f =>
        parseField platform f.1 f.2 with
    | error e => rfl
    | ok value =>
      have hlengthKey : key.length = keyFields.length := by
        rw [← (mapM_eq_ok_iff.mp hkeys).length_eq, length_zip]
        omega
      change Except.ok _ = Except.ok (messages cfg keyFields valueFields (key ++ value))
      rw [messages, ← hlengthKey, take_left, drop_left]

theorem splitRow_ne_idgsException {message : String} :
    splitRow platform cfg row ≠ .error (.idgsException message) := by
  rw [splitRow]
  intro h
  split at h
  · cases h
  · cases h

theorem readRow_of_not_split {e : Thrown} (hrow : row ≠ [])
    (hsplit : splitRow platform cfg row = .error e) :
    readRow platform cfg row = .error e := by
  unfold readRow
  simp only [isEmpty_eq_false hrow, hsplit]
  rfl

/-- Without the types, or with more or less texts than fields, the row is refused. -/
theorem readRow_of_no_fields (hrow : row ≠ []) (hsplit : splitRow platform cfg row = .ok parts)
    (hnone : ∀ keyFields valueFields, platform.cache cfg.keyType = some keyFields →
      platform.cache cfg.valueType = some valueFields →
      keyFields.length + valueFields.length ≠ parts.length) :
    ∃ message, readRow platform cfg row = .error (.idgsException message) := by
  have hempty := isEmpty_eq_false hrow
  unfold readRow
  cases hkey : platform.cache cfg.keyType with
  | none =>
    simp only [hempty, hsplit, registered, hkey]
    exact ⟨_, rfl⟩
  | some keyFields =>
    cases hvalue : platform.cache cfg.valueType with
    | none =>
      simp only [hempty, hsplit, registered, hkey, hvalue]
      exact ⟨_, rfl⟩
    | some valueFields =>
      simp only [hempty, hsplit, registered, hkey, hvalue]
      rw [if_neg Bool.false_ne_true]
      change ∃ message,
        (if keyFields.length + valueFields.length ≠ parts.length then _ else _) =
          Except.error (Thrown.idgsException message)
      rw [if_pos (hnone keyFields valueFields hkey hvalue)]
      exact ⟨_, rfl⟩

theorem mapM_refuses_iff {fields : List (FieldDescriptor δ φ × Text)} :
    (∃ message, (fields.mapM fun f => parseField platform f.1 f.2) =
      .error (.idgsException message)) ↔ FirstRefused platform fields := by
  constructor
  · rintro ⟨message, h⟩
    obtain ⟨before, ⟨field, text⟩, after, hfields, hbefore, hthrown⟩ := mapM_eq_error_iff.mp h
    refine ⟨before, field, text, after, hfields, fun f hf => ?_,
      parseField_refuses_iff.mp ⟨message, hthrown⟩⟩
    obtain ⟨v, hv⟩ := hbefore f hf
    exact ⟨v, parseField_eq_ok_iff.mp hv⟩
  · rintro ⟨before, field, text, after, hfields, hbefore, hrefused⟩
    obtain ⟨message, hthrown⟩ := parseField_refuses_iff.mpr hrefused
    refine ⟨message, mapM_eq_error_iff.mpr ⟨before, (field, text), after, hfields, fun f hf => ?_,
      hthrown⟩⟩
    obtain ⟨v, hv⟩ := hbefore f hf
    exact ⟨v, parseField_eq_ok_iff.mpr hv⟩

/-- An `IdgsException` is thrown exactly if the line is refused. -/
theorem readRow_refuses_iff :
    (∃ message, readRow platform cfg row = .error (.idgsException message)) ↔
      RefusesRow platform cfg row := by
  rw [RefusesRow]
  by_cases hrow : row = []
  · subst hrow
    exact iff_of_true ⟨_, rfl⟩ (Or.inl rfl)
  cases hsplit : splitRow platform cfg row with
  | error e =>
    refine iff_of_false ?_ ?_
    · rintro ⟨message, h⟩
      rw [readRow_of_not_split hrow hsplit] at h
      cases h
      exact splitRow_ne_idgsException hsplit
    · rintro (h | ⟨parts, hparts, -⟩)
      · exact hrow h
      · cases hparts
  | ok parts =>
    by_cases hfields : ∀ keyFields valueFields, platform.cache cfg.keyType = some keyFields →
        platform.cache cfg.valueType = some valueFields →
        keyFields.length + valueFields.length ≠ parts.length
    · refine iff_of_true (readRow_of_no_fields hrow hsplit hfields) (Or.inr ⟨parts, rfl, ?_⟩)
      intro keyFields valueFields hkey hvalue hlength
      exact absurd hlength (hfields keyFields valueFields hkey hvalue)
    · push Not at hfields
      obtain ⟨keyFields, valueFields, hkey, hvalue, hlength⟩ := hfields
      rw [readRow_of_parts hrow hsplit hkey hvalue hlength]
      simp only [map_eq_error_iff]
      rw [mapM_refuses_iff]
      constructor
      · intro h
        refine Or.inr ⟨parts, rfl, fun keyFields' valueFields' hkey' hvalue' _ => ?_⟩
        obtain rfl := Option.some.inj (hkey.symm.trans hkey')
        obtain rfl := Option.some.inj (hvalue.symm.trans hvalue')
        exact h
      · rintro (h | ⟨_, hparts, h⟩)
        · exact absurd h hrow
        · cases hparts
          exact h keyFields valueFields hkey hvalue hlength

theorem fieldsFrom_iff {means : FieldDescriptor δ φ → Text → Option (Value δ φ) → Prop}
    (hkey : platform.cache cfg.keyType = some keyFields)
    (hvalue : platform.cache cfg.valueType = some valueFields) :
    FieldsFrom platform cfg means parts key value ↔
      key.type = cfg.keyType ∧ value.type = cfg.valueType ∧
        key.fields.length = keyFields.length ∧
        parts.length = keyFields.length + valueFields.length ∧
        List.Forall₂ (fun f v => means f.1 f.2 v) ((keyFields ++ valueFields).zip parts)
          (key.fields ++ value.fields) := by
  constructor
  · rintro ⟨keyFields', valueFields', hkey', hvalue', hrest⟩
    obtain rfl := Option.some.inj (hkey.symm.trans hkey')
    obtain rfl := Option.some.inj (hvalue.symm.trans hvalue')
    exact hrest
  · intro hrest
    exact ⟨keyFields, valueFields, hkey, hvalue, hrest⟩

variable {op : InsertOperator δ φ}

/-- Every required field is set, where a relation of texts and values says so. -/
theorem build_of_related {R : FieldDescriptor δ φ → Text → Option (Value δ φ) → Prop}
    (hR : ∀ field text v, R field text v → field.required = true → v.isSome)
    {fields : List (FieldDescriptor δ φ)} {texts : List Text} {message : DynamicMessage δ φ}
    (hlength : fields.length ≤ texts.length)
    (h : List.Forall₂ (fun f v => R f.1 f.2 v) (fields.zip texts) message.fields) :
    build fields message = .ok message := by
  have hset : ∀ values, List.Forall₂ (fun f v => R f.1 f.2 v) (fields.zip texts) values →
      ((fields.zip values).any fun f => f.1.required && f.2.isNone) = false := by
    clear h
    induction fields generalizing texts with
    | nil => exact fun values _ => rfl
    | cons field fields ih =>
      cases texts with
      | nil => cases hlength
      | cons text texts =>
        intro values hvalues
        rw [zip_cons_cons, forall₂_cons_left_iff] at hvalues
        obtain ⟨v, rest, hv, hrest, rfl⟩ := hvalues
        rw [zip_cons_cons, any_cons, ih (Nat.le_of_succ_le_succ hlength) rest hrest,
          Bool.or_false]
        cases hrequired : field.required with
        | false => rfl
        | true => rw [Bool.true_and, ← Option.not_isSome, hR field text v hv hrequired,
            Bool.not_true]
  rw [build, hset message.fields h]
  rfl

theorem assign_eq (hkey : build keyFields key = .ok key)
    (hvalue : build valueFields value = .ok value) :
    op.assign keyFields valueFields key value = (.ok (), op.put key value) := by
  simp only [InsertOperator.assign, hkey, hvalue]

/-- A row that is read is put into the operator. -/
theorem parseRow_of_values {values : List (Option (Value δ φ))}
    (hread : readRow platform op.storeConfig row =
      .ok (messages op.storeConfig keyFields valueFields values))
    (hlength : parts.length = keyFields.length + valueFields.length)
    (h : List.Forall₂ (fun f v => Takes platform f.1 f.2 v) ((keyFields ++ valueFields).zip parts)
      values) :
    parseRow platform op row = (.ok (), op.put ⟨op.storeConfig.keyType,
      values.take keyFields.length⟩ ⟨op.storeConfig.valueType, values.drop keyFields.length⟩) := by
  have hzip : (keyFields.zip parts).length = keyFields.length := by
    rw [length_zip]
    omega
  rw [zip_append_left] at h
  have hkey := forall₂_take keyFields.length h
  have hvalue := forall₂_drop keyFields.length h
  nth_rewrite 1 [← hzip] at hkey
  nth_rewrite 1 [← hzip] at hvalue
  rw [take_left] at hkey
  rw [drop_left] at hvalue
  have hset : ∀ (field : FieldDescriptor δ φ) (text : Text) (v : Option (Value δ φ)),
      Takes platform field text v → field.required = true → v.isSome := fun _ _ _ => isSome_of_takes
  rw [parseRow, hread]
  exact assign_eq (build_of_related hset (by omega) hkey)
    (build_of_related hset (by rw [length_drop]; omega) hvalue)

theorem build_ne_idgsException {fields : List (FieldDescriptor δ φ)} {m : DynamicMessage δ φ}
    {message : String} : build fields m ≠ .error (.idgsException message) := by
  rw [build]
  intro h
  split at h
  · cases h
  · cases h

theorem assign_ne_idgsException {message : String} :
    (op.assign keyFields valueFields key value).1 ≠ .error (.idgsException message) := by
  rw [InsertOperator.assign]
  intro h
  split at h
  · rename_i e he
    cases h
    exact build_ne_idgsException he
  · split at h
    · rename_i e he
      cases h
      exact build_ne_idgsException he
    · cases h

theorem put_injective {key' value' : DynamicMessage δ φ}
    (h : op.put key value = op.put key' value') : key = key' ∧ value = value' :=
  ⟨Option.some.inj (congrArg InsertOperator.key h),
    Option.some.inj (congrArg InsertOperator.value h)⟩

/-- A line is loaded exactly if it is read as the messages. -/
theorem parseRow_loads_iff : parseRow platform op row = (.ok (), op.put key value) ↔
      ReadsRow platform op.storeConfig row key value := by
  rw [ReadsRow]
  by_cases hrow : row = []
  · subst hrow
    refine iff_of_false (fun h => ?_) (fun h => h.1 rfl)
    cases congrArg Prod.fst h
  cases hsplit : splitRow platform op.storeConfig row with
  | error e =>
    refine iff_of_false (fun h => ?_) ?_
    · rw [parseRow, readRow_of_not_split hrow hsplit] at h
      cases congrArg Prod.fst h
    · rintro ⟨-, parts, hparts, -⟩
      cases hparts
  | ok parts =>
    by_cases hfields : ∀ keyFields valueFields,
        platform.cache op.storeConfig.keyType = some keyFields →
        platform.cache op.storeConfig.valueType = some valueFields →
        keyFields.length + valueFields.length ≠ parts.length
    · obtain ⟨message, hrefused⟩ := readRow_of_no_fields hrow hsplit hfields
      refine iff_of_false (fun h => ?_) ?_
      · rw [parseRow, hrefused] at h
        cases congrArg Prod.fst h
      · rintro ⟨-, parts', hparts, keyFields, valueFields, hkey, hvalue, -, -, -, hlength, -⟩
        cases hparts
        exact hfields keyFields valueFields hkey hvalue hlength.symm
    · push Not at hfields
      obtain ⟨keyFields, valueFields, hkey, hvalue, hlength⟩ := hfields
      have hread := readRow_of_parts hrow hsplit hkey hvalue hlength
      constructor
      · intro h
        refine ⟨hrow, parts, rfl, (fieldsFrom_iff hkey hvalue).mpr ?_⟩
        cases hvalues : ((keyFields ++ valueFields).zip parts).mapM fun f =>
            parseField platform f.1 f.2 with
        | error e =>
          rw [hvalues] at hread
          rw [parseRow, hread] at h
          cases congrArg Prod.fst h
        | ok values =>
          have htakes := mapM_eq_ok_iff.mp hvalues
          simp only [parseField_eq_ok_iff] at htakes
          rw [hvalues] at hread
          rw [parseRow_of_values hread hlength.symm htakes] at h
          obtain ⟨rfl, rfl⟩ := put_injective (congrArg Prod.snd h)
          have htotal := htakes.length_eq
          rw [length_zip, length_append] at htotal
          refine ⟨rfl, rfl, ?_, hlength.symm, ?_⟩
          · rw [length_take]
            omega
          · rw [take_append_drop]
            exact htakes
      · rintro ⟨-, parts', hparts, hfrom⟩
        cases hparts
        obtain ⟨htype, htype', hkeyLength, -, htakes⟩ := (fieldsFrom_iff hkey hvalue).mp hfrom
        have hvalues : ((keyFields ++ valueFields).zip parts).mapM
            (fun f => parseField platform f.1 f.2) = .ok (key.fields ++ value.fields) := by
          refine mapM_eq_ok_iff.mpr ?_
          simp only [parseField_eq_ok_iff]
          exact htakes
        rw [hvalues] at hread
        rw [parseRow_of_values hread hlength.symm htakes, ← hkeyLength, take_left,
          drop_left, ← htype, ← htype']

/-- A line is refused exactly if `RefusesRow` holds, and nothing changes then. -/
theorem parseRow_refuses_iff :
    (∃ message, parseRow platform op row = (.error (.idgsException message), op)) ↔
      RefusesRow platform op.storeConfig row := by
  rw [← readRow_refuses_iff, parseRow]
  cases readRow platform op.storeConfig row with
  | error e =>
    constructor
    · rintro ⟨message, h⟩
      cases congrArg Prod.fst h
      exact ⟨message, rfl⟩
    · rintro ⟨message, h⟩
      cases h
      exact ⟨message, rfl⟩
  | ok read =>
    obtain ⟨⟨keyFields, key⟩, ⟨valueFields, value⟩⟩ := read
    refine iff_of_false ?_ ?_
    · rintro ⟨message, h⟩
      exact assign_ne_idgsException (congrArg Prod.fst h)
    · rintro ⟨message, h⟩
      cases h

end Line

/-! ## Ordinary separators -/

section Ordinary

variable {cfg : StoreConfig} {texts : List Text}

/-- A separator of ordinary characters cuts joined texts where they are joined, if the last one is
not empty. -/
theorem splitRow_intercalate (hne : cfg.fieldSeperator ≠ [])
    (hordinary : ∀ c ∈ cfg.fieldSeperator, c ∉ "\\^$.|?*+()[\x7b".toList)
    (hapart : ∀ text ∈ texts, Apart cfg.fieldSeperator text) (htexts : texts ≠ [])
    (hlast : texts.getLast htexts ≠ []) :
    splitRow platform cfg (cfg.fieldSeperator.intercalate texts) = .ok texts := by
  simp only [splitRow, platform.compile_ordinary cfg.fieldSeperator hne hordinary]
  rw [split_intercalate_of_last hne hapart htexts hlast]

/-- Then a row is read as its texts are. -/
theorem readsRow_iff_of_ordinary (hne : cfg.fieldSeperator ≠ [])
    (hordinary : ∀ c ∈ cfg.fieldSeperator, c ∉ "\\^$.|?*+()[\x7b".toList)
    (hapart : ∀ text ∈ texts, Apart cfg.fieldSeperator text) (htexts : texts ≠ [])
    (hlast : texts.getLast htexts ≠ []) :
    ReadsRow platform cfg (cfg.fieldSeperator.intercalate texts) key value ↔
      FieldsFrom platform cfg (Takes platform) texts key value := by
  have hsplit : splitRow platform cfg (cfg.fieldSeperator.intercalate texts) = .ok texts :=
    splitRow_intercalate hne hordinary hapart htexts hlast
  constructor
  · rintro ⟨-, parts, hparts, hfrom⟩
    rw [hsplit] at hparts
    cases hparts
    exact hfrom
  · intro hfrom
    refine ⟨fun hnil => hlast ?_, texts, hsplit, hfrom⟩
    rw [hnil] at hsplit
    simp only [splitRow, platform.compile_ordinary cfg.fieldSeperator hne hordinary] at hsplit
    cases hsplit
    rfl

/-- A valid text is read if its sign is, and if its number is one of the signed type. -/
def InSignedRange (platform : Platform δ φ) (type : FieldType) (text : Text) : Prop :=
  match type with
  | .int32 | .sint32 | .sfixed32 | .int64 | .sint64 | .sfixed64 => signRead platform text
  | .uint32 | .fixed32 => signRead platform text ∧ ∀ n, integer text = some n → n < 2 ^ 31
  | .uint64 | .fixed64 => signRead platform text ∧ ∀ n, integer text = some n → n < 2 ^ 63
  | .enum type => type.findValueByName text = none → signRead platform text
  | .double | .float | .bool | .string | .bytes => True

section Denoted

variable {text : Text} {n low high : ℤ} {bits : ℕ}

theorem integerIn_eq_some : integerIn low high text = some n ↔
    integer text = some n ∧ low ≤ n ∧ n < high := by
  rw [integerIn, Option.filter_eq_some_iff, decide_eq_true_eq]

/-- A number of the signed type is read with its sign. -/
theorem reads_signed_iff {g : ℤ → Value δ φ} {v : Value δ φ}
    (h : (integerIn (-2 ^ (bits - 1)) (2 ^ (bits - 1)) text).map g = some v) :
    (∃ n, ReadsInteger platform bits text n ∧ v = g n) ↔ signRead platform text := by
  obtain ⟨n, hn, rfl⟩ := Option.map_eq_some_iff.mp h
  obtain ⟨hinteger, hlow, hhigh⟩ := integerIn_eq_some.mp hn
  constructor
  · rintro ⟨m, ⟨-, hsign, -⟩, -⟩
    exact hsign
  · intro hsign
    exact ⟨n, ⟨hinteger, hsign, hlow, hhigh⟩, rfl⟩

/-- A number of the unsigned type is read if it is one of the signed type. -/
theorem reads_unsigned_iff {g : ℤ → Value δ φ} {v : Value δ φ}
    (h : (integerIn 0 high text).map g = some v) :
    (∃ n, ReadsInteger platform bits text n ∧ v = g n) ↔
      signRead platform text ∧ ∀ n, integer text = some n → n < 2 ^ (bits - 1) := by
  obtain ⟨n, hn, rfl⟩ := Option.map_eq_some_iff.mp h
  obtain ⟨hinteger, hlow, -⟩ := integerIn_eq_some.mp hn
  constructor
  · rintro ⟨m, ⟨hm, hsign, -, hhigh⟩, -⟩
    refine ⟨hsign, fun k hk => ?_⟩
    rw [hm] at hk
    cases hk
    exact hhigh
  · rintro ⟨hsign, hhigh⟩
    have hneg : -2 ^ (bits - 1) ≤ (0 : ℤ) := by
      have hpos : (0 : ℤ) < 2 ^ (bits - 1) := Int.pow_pos (by decide)
      omega
    exact ⟨n, ⟨hinteger, hsign, Int.le_trans hneg hlow, hhigh n hinteger⟩, rfl⟩

/-- Of the values that texts denote, those of the signed types are read. -/
theorem reads_iff_of_denoted {type : FieldType} {v : Value δ φ}
    (h : denoted platform type text = some v) :
    Reads platform type text v ↔ InSignedRange platform type text := by
  unfold denoted at h
  unfold Reads InSignedRange
  cases type with
  | int32 | sint32 | sfixed32 | int64 | sint64 | sfixed64 => exact reads_signed_iff h
  | uint32 | fixed32 | uint64 | fixed64 => exact reads_unsigned_iff h
  | float | double =>
    obtain ⟨x, hx, rfl⟩ := Option.map_eq_some_iff.mp h
    exact iff_of_true ⟨x, hx, rfl⟩ trivial
  | bool =>
    refine iff_of_true ?_ trivial
    simp only at h ⊢
    split at h
    · rename_i htrue
      rw [htrue]
      exact (Option.some.inj h).symm
    · rename_i htrue
      rw [Bool.eq_false_iff.mpr htrue]
      split at h
      · exact (Option.some.inj h).symm
      · cases h
  | string | bytes => exact iff_of_true (Option.some.inj h).symm trivial
  | enum type =>
    simp only at h ⊢
    cases hname : type.findValueByName text with
    | some w =>
      rw [hname] at h
      refine iff_of_true ⟨w, Or.inl rfl, (Option.some.inj h).symm⟩ fun hnone => ?_
      cases hnone
    | none =>
      rw [hname] at h
      obtain ⟨w, hw, rfl⟩ := Option.map_eq_some_iff.mp h
      obtain ⟨n, hn, hnumber⟩ := Option.bind_eq_some_iff.mp hw
      obtain ⟨hinteger, hlow, hhigh⟩ := integerIn_eq_some.mp hn
      constructor
      · rintro ⟨_, hfound | ⟨m, ⟨-, hsign, -⟩, -⟩, -⟩ _
        · cases hfound
        · exact hsign
      · intro hsign
        exact ⟨w, Or.inr ⟨n, ⟨hinteger, hsign rfl, hlow, hhigh⟩, hnumber⟩, rfl⟩

/-- Of the fields of a valid row, those are read that are empty and optional, or of which the text
is in the signed range. -/
theorem forall₂_takes_iff {fields : List (FieldDescriptor δ φ × Text)}
    {values : List (Option (Value δ φ))}
    (hmeans : List.Forall₂ (fun f v => Means platform f.1 f.2 v) fields values) :
    List.Forall₂ (fun f v => Takes platform f.1 f.2 v) fields values ↔
      ∀ f ∈ fields, (f.2.isEmpty ∧ f.1.required = false) ∨ InSignedRange platform f.1.type f.2 := by
  induction hmeans with
  | nil => exact iff_of_true .nil fun f hf => absurd hf not_mem_nil
  | cons hmean _ ih =>
    rename_i f v fields values _
    rw [forall₂_cons, ih, forall_mem_cons]
    refine and_congr ?_ Iff.rfl
    rw [Means] at hmean
    rw [Takes]
    split at hmean
    · rename_i hskip
      rw [if_pos hskip]
      exact iff_of_true hmean (Or.inl hskip)
    · rename_i hskip
      rw [if_neg hskip, or_iff_right hskip]
      obtain ⟨w, hw, rfl⟩ := hmean
      rw [← reads_iff_of_denoted hw]
      constructor
      · rintro ⟨w', hw', heq⟩
        cases heq
        exact hw'
      · intro hread
        exact ⟨w, hread, rfl⟩

end Denoted

end Ordinary

end Platform

end Idgs.Sql.Insert
