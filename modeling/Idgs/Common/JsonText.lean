import Mathlib.Data.List.Basic

/-!
# Texts of JSON

The grammar of JSON on characters: blanks are allowed around every value, name and sign, and a
string is free to hold braces, brackets and, behind a backslash, quotes.
-/

namespace Idgs.Common.JsonText

/-- A text of blanks. -/
def IsBlank (t : List Char) : Prop := ∀ c ∈ t, c = ' ' ∨ c = '\t' ∨ c = '\n' ∨ c = '\r'

/-- A digit of a hexadecimal number. -/
def IsHexDigit (c : Char) : Prop :=
  c.isDigit ∨ c ∈ ['a', 'b', 'c', 'd', 'e', 'f', 'A', 'B', 'C', 'D', 'E', 'F']

/-- What stands between the quotes of a string. -/
inductive IsChars : List Char → Prop
  | nil : IsChars []
  | plain {c : Char} {t : List Char} (hquote : c ≠ '"') (hescape : c ≠ '\\')
      (hcontrol : 32 ≤ c.toNat)
      (ht : IsChars t) : IsChars (c :: t)
  | escaped {c : Char} {t : List Char} (hc : c ∈ ['"', '\\', '/', 'b', 'f', 'n', 'r', 't'])
      (ht : IsChars t) :
      IsChars ('\\' :: c :: t)
  | unicode {a b c d : Char} {t : List Char} (ha : IsHexDigit a) (hb : IsHexDigit b)
      (hc : IsHexDigit c)
      (hd : IsHexDigit d) (ht : IsChars t) : IsChars ('\\' :: 'u' :: a :: b :: c :: d :: t)

/-- A string with its quotes. -/
def IsString (t : List Char) : Prop := ∃ s, IsChars s ∧ t = '"' :: (s ++ ['"'])

/-- One digit or more. -/
def IsDigits (t : List Char) : Prop := t ≠ [] ∧ ∀ c ∈ t, c.isDigit

/-- The digits before the point: no zero in front of others. -/
def IsInteger (t : List Char) : Prop := IsDigits t ∧ (t.head? = some '0' → t = ['0'])

/-- The point and the digits behind it, if there are any. -/
def IsFraction (t : List Char) : Prop := t = [] ∨ ∃ digits, IsDigits digits ∧ t = '.' :: digits

/-- The exponent, if there is one. -/
def IsExponent (t : List Char) : Prop :=
  t = [] ∨ ∃ e sign digits, (e = 'e' ∨ e = 'E') ∧ (sign = [] ∨ sign = ['+'] ∨ sign = ['-']) ∧
    IsDigits digits ∧
    t = e :: (sign ++ digits)

/-- A number. -/
def IsNumber (t : List Char) : Prop :=
  ∃ sign integer fraction exponent, (sign = [] ∨ sign = ['-']) ∧ IsInteger integer ∧
    IsFraction fraction ∧
    IsExponent exponent ∧ t = sign ++ integer ++ fraction ++ exponent

mutual
/-- A value. -/
inductive IsValue : List Char → Prop
  | null : IsValue ['n', 'u', 'l', 'l']
  | true : IsValue ['t', 'r', 'u', 'e']
  | false : IsValue ['f', 'a', 'l', 's', 'e']
  | number {t : List Char} (ht : IsNumber t) : IsValue t
  | string {t : List Char} (ht : IsString t) : IsValue t
  | emptyArray {b : List Char} (hb : IsBlank b) : IsValue ('[' :: (b ++ [']']))
  | array {t : List Char} (ht : IsElements t) : IsValue ('[' :: (t ++ [']']))
  | emptyObject {b : List Char} (hb : IsBlank b) : IsValue ('{' :: (b ++ ['}']))
  | object {t : List Char} (ht : IsMembers t) : IsValue ('{' :: (t ++ ['}']))

/-- The elements of an array. -/
inductive IsElements : List Char → Prop
  | one {b v b' : List Char} (hb : IsBlank b) (hv : IsValue v) (hb' : IsBlank b') :
    IsElements (b ++ (v ++ b'))
  | more {b v b' t : List Char} (hb : IsBlank b) (hv : IsValue v) (hb' : IsBlank b')
      (ht : IsElements t) :
      IsElements (b ++ (v ++ (b' ++ ',' :: t)))

/-- The members of an object. -/
inductive IsMembers : List Char → Prop
  | one {b n b' b₁ v b₂ : List Char} (hb : IsBlank b) (hn : IsString n) (hb' : IsBlank b')
    (hb₁ : IsBlank b₁)
      (hv : IsValue v) (hb₂ : IsBlank b₂) : IsMembers (b ++ (n ++ (b' ++ ':' :: (b₁ ++ (v ++ b₂)))))
  | more {b n b' b₁ v b₂ t : List Char} (hb : IsBlank b) (hn : IsString n) (hb' : IsBlank b')
      (hb₁ : IsBlank b₁)
      (hv : IsValue v) (hb₂ : IsBlank b₂) (ht : IsMembers t) :
      IsMembers (b ++ (n ++ (b' ++ ':' :: (b₁ ++ (v ++ (b₂ ++ ',' :: t))))))
end

/-- An object. -/
def IsObject (t : List Char) : Prop := ∃ m, (IsBlank m ∨ IsMembers m) ∧ t = '{' :: (m ++ ['}'])

/-- Blanks, and then a quote if anything: what can follow the brace that opens an object. -/
theorem head_of_blank_append {b s : List Char} {c : Char} {t : List Char} (hb : IsBlank b)
    (hs : s.head? = some '"') (h : b ++ s = c :: t) : c ≠ '{' ∧ c ≠ '}' := by
  cases b with
  | nil =>
    rw [List.nil_append] at h
    rw [h, List.head?_cons, Option.some.injEq] at hs
    subst hs
    decide
  | cons d b =>
    obtain ⟨rfl, -⟩ := List.cons.inj h
    obtain rfl | rfl | rfl | rfl := hb d List.mem_cons_self
    all_goals decide

theorem head?_string_append {n s : List Char} (hn : IsString n) : (n ++ s).head? = some '"' := by
  obtain ⟨t, -, rfl⟩ := hn
  rfl

/-- Members begin with neither brace. -/
theorem head_of_members {m t : List Char} {c : Char} (hm : IsMembers m) (h : m = c :: t) :
    c ≠ '{' ∧ c ≠ '}' := by
  cases hm with
  | one hb hn | more hb hn => exact head_of_blank_append hb (head?_string_append hn) h

/-- The brace that opens an object is followed by a brace only in `{}`. -/
theorem IsObject.exists_cons {t : List Char} (h : IsObject t) :
    ∃ c m, t = '{' :: c :: m ∧ c ≠ '{' ∧ (c = '}' ↔ m = []) := by
  obtain ⟨m, hm, rfl⟩ := h
  cases m with
  | nil => exact ⟨'}', [], rfl, by decide, iff_of_true rfl rfl⟩
  | cons c m =>
    have hc : c ≠ '{' ∧ c ≠ '}' := by
      obtain hblank | hmembers := hm
      · obtain rfl | rfl | rfl | rfl := hblank c List.mem_cons_self
        all_goals decide
      · exact head_of_members hmembers rfl
    refine ⟨c, m ++ ['}'], rfl, hc.1, iff_of_false hc.2 ?_⟩
    exact List.append_ne_nil_of_right_ne_nil m (List.cons_ne_nil '}' [])

end Idgs.Common.JsonText
