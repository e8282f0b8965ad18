import Idgs.Common.Text
import Idgs.Expr.Variant

/-!
# Exported lines

`LocalFileConnection::insert` writes the texts of a row's fields into one line. The splitter is
appended where nothing has been written so far, not where something has, so that it stands once at
the start and never between two fields.
-/

namespace Idgs.Rdd.LocalFile

open Common List
open Expr (Value)

/-! ## Rows -/

/-- What reflection has for a singular field. Of an enumeration or a message, `getMessageValue`
gives nothing: the variant keeps the type `int32` with the number that happens to be there. -/
inductive FieldValue (D : Type*)
  | value (v : Value)
  | floating (v : D)
  | notSupported (uninitialized : Int32)

/-- A field of a message: its default and what is set. -/
structure Field (D : Type*) where
  defaultValue : FieldValue D
  value : Option (FieldValue D)

variable {D : Type*}

/-- `getMessageValue` and then `PbVariant::toString`; `std::to_string` of a floating point number is
a parameter. -/
def Field.text (toString : D → List Char) (field : Field D) : List Char :=
  match field.value.getD field.defaultValue with
  | .value v => v.toText.toList
  | .floating v => toString v
  | .notSupported v => (Value.int32 v).toText.toList

/-! ## Writing -/

/-- One field of the loops of `insert`. -/
def appendField (splitter line text : List Char) : List Char :=
  (if line.length = 0 then line ++ splitter else line) ++ text

/-- The loop over the fields of one message. -/
def appendFields (toString : D → List Char) (splitter line : List Char) (fields : List (Field D)) :
    List Char :=
  fields.foldl (fun line field => appendField splitter line (field.text toString)) line

/-- The line that `insert` writes. -/
def exportLine (toString : D → List Char) (splitter : List Char) (key value : List (Field D)) :
    List Char :=
  appendFields toString splitter (appendFields toString splitter [] key) value

/-- The result codes of `insert`. -/
inductive ResultCode
  | success | invalidKey | invalidValue
deriving DecidableEq

/-- `LocalFileConnection::insert`, with the content of the file after it. -/
def insert (toString : D → List Char) (splitter content : List Char)
    (key value : Option (List (Field D))) :
    ResultCode × List Char :=
  match key, value with
  | none, _ => (.invalidKey, content)
  | some _, none => (.invalidValue, content)
  | some key, some value =>
    let line := exportLine toString splitter key value
    (.success, (if 0 < content.length then content ++ ['\n'] else content) ++ line)

/-! ## Reading -/

/-- The loop of `str::split`; `none` is a loop that has not ended. -/
def splitLoop (str delimiter : List Char) :
    ℕ → (start : ℕ) → (tokens : List (List Char)) → Option (List (List Char))
  | 0, _, _ => none
  | fuel + 1, start, tokens =>
    match Text.find str delimiter start with
    | some stop =>
      splitLoop str delimiter fuel (stop + delimiter.length)
        (tokens ++ [(str.drop start).take (stop - start)])
    | none =>
      let last := str.drop start
      some (if last = [] then tokens else tokens ++ [last])

/-- `str::split`. -/
def split (fuel : ℕ) (str delimiter : List Char) : Option (List (List Char)) :=
  splitLoop str delimiter fuel 0 []

section Split

variable {str delimiter : List Char} {fuel start k : ℕ} {tokens result : List (List Char)}

/-- The characters of all texts. -/
def size (texts : List (List Char)) : ℕ := texts.flatten.length

theorem size_append (a b : List (List Char)) : size (a ++ b) = size a + size b := by
  rw [size, flatten_append, length_append, size, size]

theorem size_singleton (text : List Char) : size [text] = text.length := by
  rw [size, flatten_singleton]

/-- Where a delimiter is found, it stands behind what is taken. -/
theorem find_le (h : Text.find str delimiter start = some k) :
    start ≤ k ∧ k + delimiter.length ≤ str.length := by
  unfold Text.find at h
  split at h
  · obtain ⟨m, hm, rfl⟩ := Option.map_eq_some_iff.mp h
    have hlength := (Text.indexOf_eq_some hm).1.length_le
    have hle := (Text.indexOf_eq_some hm).2.1
    rw [length_drop, length_drop] at hlength
    rw [length_drop] at hle
    exact ⟨Nat.le_add_left start m, by omega⟩
  · cases h

/-- The tokens have no more characters than the text. -/
theorem size_splitLoop (h : splitLoop str delimiter fuel start tokens = some result)
    (hstart : start ≤ str.length) :
    size result ≤ size tokens + (str.length - start) := by
  induction fuel generalizing start tokens with
  | zero => cases h
  | succ fuel ih =>
    rw [splitLoop] at h
    cases hfind : Text.find str delimiter start with
    | none =>
      simp only [hfind, Option.some.injEq] at h
      subst h
      split
      · exact Nat.le_add_right _ _
      · rw [size_append, size_singleton, length_drop]
    | some stop =>
      obtain ⟨hle, hend⟩ := find_le hfind
      simp only [hfind] at h
      have hrest := ih h hend
      rw [size_append, size_singleton, length_take, length_drop] at hrest
      omega

/-- With a delimiter they have fewer. -/
theorem size_splitLoop_lt (h : splitLoop str delimiter fuel start tokens = some result)
    (hstart : start ≤ str.length)
    (hfind : Text.find str delimiter start = some k) (hdelimiter : delimiter ≠ []) :
    size result < size tokens + (str.length - start) := by
  cases fuel with
  | zero => cases h
  | succ fuel =>
    obtain ⟨hle, hend⟩ := find_le hfind
    have hpos := length_pos_iff.mpr hdelimiter
    rw [splitLoop, hfind] at h
    have hrest := size_splitLoop h hend
    rw [size_append, size_singleton, length_take, length_drop] at hrest
    omega

/-- An empty delimiter is found again and again. -/
theorem splitLoop_stuck (hstart : start ≤ str.length) (fuel : ℕ) :
    splitLoop str [] fuel start tokens = none := by
  induction fuel generalizing tokens with
  | zero => rfl
  | succ fuel ih =>
    have hfind : Text.find str [] start = some start := by
      rw [Text.find, if_pos hstart]
      cases str.drop start with
      | nil => exact congrArg some (Nat.zero_add start)
      | cons c l =>
        rw [Text.indexOf, if_pos nil_prefix]
        exact congrArg some (Nat.zero_add start)
    simp only [splitLoop, hfind]
    exact ih

end Split

/-! ## The line and its parts -/

/-- The texts of the fields of a row, the key's first. -/
def texts (toString : D → List Char) (key value : List (Field D)) : List (List Char) :=
  (key ++ value).map (·.text toString)

/-- Splitting the line at the splitter ends with the texts. -/
def ParsesBack (toString : D → List Char) (splitter : List Char) (key value : List (Field D)) :
    Prop :=
  ∃ fuel, split fuel (exportLine toString splitter key value) splitter =
    some (texts toString key value)

/-- At most one text is not empty, and it is behind an empty one; the splitter is not empty. -/
def FewFields (splitter : List Char) (texts : List (List Char)) : Prop :=
  splitter ≠ [] ∧ (texts = [] ∨ texts = [[]] ∨ ∃ text, text ≠ [] ∧ texts = [[], text])

variable {toString : D → List Char} {splitter line : List Char} {key value : List (Field D)}
  {parts : List (List Char)}

theorem foldl_appendField_of_ne_nil (hline : line ≠ []) :
    parts.foldl (appendField splitter) line = line ++ parts.flatten := by
  induction parts generalizing line with
  | nil => exact (append_nil line).symm
  | cons part parts ih =>
    have hlength : ¬ line.length = 0 := mt length_eq_zero_iff.mp hline
    rw [foldl_cons, appendField, if_neg hlength,
      ih (append_ne_nil_of_left_ne_nil hline part), flatten_cons, append_assoc]

/-- The loops of `insert` over the texts. -/
theorem exportLine_eq_foldl (toString : D → List Char) (splitter : List Char)
    (key value : List (Field D)) :
    exportLine toString splitter key value = (texts toString key value).foldl (appendField splitter)
    [] := by
  rw [exportLine, appendFields, appendFields, texts, map_append, foldl_append, foldl_map, foldl_map]

/-- The line is the splitter and all texts without anything between them. -/
theorem exportLine_eq (hsplitter : splitter ≠ []) (h : texts toString key value ≠ []) :
    exportLine toString splitter key value = splitter ++ (texts toString key value).flatten := by
  obtain ⟨part, parts, heq⟩ := exists_cons_of_ne_nil h
  have hfirst : appendField splitter [] part = splitter ++ part := rfl
  rw [exportLine_eq_foldl, heq, foldl_cons, hfirst,
    foldl_appendField_of_ne_nil (append_ne_nil_of_left_ne_nil hsplitter part),
    flatten_cons,
    append_assoc]

/-- The splitting starts with an empty token, for what stands before the splitter. -/
theorem split_succ (hsplitter : splitter ≠ []) (fuel : ℕ) (rest : List Char) :
    split (fuel + 1) (splitter ++ rest) splitter =
      splitLoop (splitter ++ rest) splitter fuel splitter.length [[]] := by
  have hfind : Text.find (splitter ++ rest) splitter 0 = some 0 := by
    obtain ⟨c, s, rfl⟩ := exists_cons_of_ne_nil hsplitter
    have hpre : c :: s <+: c :: (s ++ rest) := prefix_append (c :: s) rest
    rw [Text.find_zero, cons_append, Text.indexOf, if_pos hpre]
  simp only [split, splitLoop, hfind, Nat.zero_add, Nat.sub_zero, take_zero, nil_append]

/-- What is left behind the splitter is one token, if the splitter is not in it and it is not
empty. -/
theorem splitLoop_rest {rest : List Char} (hrest : ¬ splitter <:+: rest) (fuel : ℕ) :
    splitLoop (splitter ++ rest) splitter (fuel + 1) splitter.length [[]] =
      some (if rest = [] then [[]] else [[], rest]) := by
  have hfind : Text.find (splitter ++ rest) splitter splitter.length = none := by
    rw [Text.find_append, Option.not_isSome_iff_eq_none.mp (mt Text.isSome_indexOf.mp hrest),
      Option.map_none]
  simp only [splitLoop, hfind, drop_left]
  rfl

/-- The texts come back from the line exactly if there are as few as that. -/
theorem parsesBack_iff (hclean : ∀ text ∈ texts toString key value, ¬ splitter <:+: text) :
    ParsesBack toString splitter key value ↔ FewFields splitter (texts toString key value) := by
  by_cases hsplitter : splitter = []
  · have hstuck : ∀ fuel, split fuel (exportLine toString splitter key value) splitter = none :=
      fun fuel => by
      rw [hsplitter]
      exact splitLoop_stuck (Nat.zero_le _) fuel
    constructor
    · rintro ⟨fuel, hfuel⟩
      rw [hstuck] at hfuel
      cases hfuel
    · rintro ⟨hne, -⟩
      exact absurd hsplitter hne
  unfold ParsesBack
  rcases eq_or_ne (texts toString key value) [] with hnil | hne
  · have hline : exportLine toString splitter key value = [] := by
      rw [exportLine_eq_foldl, hnil, List.foldl_nil]
    have hfind : Text.find [] splitter 0 = none := by
      rw [Text.find_zero, Text.indexOf, if_neg hsplitter]
    refine iff_of_true ⟨1, ?_⟩ ⟨hsplitter, .inl hnil⟩
    rw [hline, hnil]
    simp only [split, splitLoop, hfind, List.drop_nil, if_true]
  rw [exportLine_eq hsplitter hne]
  generalize texts toString key value = parts at hclean hne
  constructor
  · rintro ⟨fuel, hfuel⟩
    obtain ⟨fuel, rfl⟩ : ∃ k, fuel = k + 1 :=
      Nat.exists_eq_succ_of_ne_zero (by rintro rfl; cases hfuel)
    rw [split_succ hsplitter] at hfuel
    have hlength : splitter.length ≤ (splitter ++ parts.flatten).length := by
      rw [List.length_append]
      exact Nat.le_add_right _ _
    have hnotMem : ¬ splitter <:+: parts.flatten := fun hmem => by
      obtain ⟨k, hk⟩ := Option.isSome_iff_exists.mp (Text.isSome_indexOf.mpr hmem)
      have hfind := Text.find_append splitter parts.flatten splitter
      rw [hk, Option.map_some] at hfind
      have hlt := size_splitLoop_lt hfuel hlength hfind hsplitter
      rw [size_singleton, List.length_append, size, List.length_nil] at hlt
      omega
    obtain ⟨fuel, rfl⟩ : ∃ k, fuel = k + 1 :=
      Nat.exists_eq_succ_of_ne_zero (by rintro rfl; cases hfuel)
    rw [splitLoop_rest hnotMem] at hfuel
    refine ⟨hsplitter, .inr ?_⟩
    by_cases hrest : parts.flatten = []
    · rw [if_pos hrest] at hfuel
      exact .inl (Option.some.inj hfuel).symm
    · rw [if_neg hrest] at hfuel
      exact .inr ⟨parts.flatten, hrest, (Option.some.inj hfuel).symm⟩
  · rintro ⟨-, hnil | rfl | ⟨text, htext, rfl⟩⟩
    · exact absurd hnil hne
    · refine ⟨2, ?_⟩
      rw [split_succ hsplitter]
      exact splitLoop_rest (hclean [] List.mem_cons_self) 0
    · refine ⟨2, ?_⟩
      have hflatten : [[], text].flatten = text := by
        rw [List.flatten_cons, List.flatten_singleton, List.nil_append]
      rw [split_succ hsplitter, hflatten,
        splitLoop_rest (hclean text (List.mem_cons_of_mem _ (List.mem_singleton_self text))) 0,
        if_neg htext]

/-- A field of type `string` that is set. -/
def stringField (text : String) : Field ℕ := ⟨.value (.string ""), some (.value (.string text))⟩

theorem parsesBack_iff_twoFields :
    ParsesBack (fun _ => []) ['|'] [stringField "1"] [stringField "2"] ↔ FewFields ['|']
    [['1'], ['2']] :=
  parsesBack_iff (D := ℕ) (by decide)

/-- Two numbers make the line `|12`. -/
theorem not_parsesBack_twoFields :
    ¬ ParsesBack (fun _ => []) ['|'] [stringField "1"] [stringField "2"] := by
  rintro ⟨fuel, hfuel⟩
  have hline : exportLine (fun _ => []) ['|'] [stringField "1"] [stringField "2"] =
      ['|', '1', '2'] := by decide
  rw [hline] at hfuel
  match fuel, hfuel with
  | fuel + 2, hfuel =>
      have htokens : split (fuel + 2) ['|', '1', '2'] ['|'] = some [[], ['1', '2']] := rfl
      rw [htokens] at hfuel
      cases hfuel

end Idgs.Rdd.LocalFile
