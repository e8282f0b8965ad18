import Idgs.Net.HttpRequestParser

/-!
# Decoding a URI

`HttpConnection::url_decode` reads the two characters behind a percent sign with a stream whose base
is set to 16. The stream skips blanks, takes a sign, and stops at the first character that is no
digit; a percent sign can therefore be followed by less than two digits.
-/

namespace Idgs.Net.UrlDecode

open HttpRequestParser List

/-! ## Reading a number in base 16 -/

def percent : Int8 := 37
def plus : Int8 := 43
def minus : Int8 := 45
def zero : Int8 := 48

/-- The value of a hexadecimal digit. -/
def hexValue (c : Int8) : Option ℕ :=
  if 48 ≤ c.toInt ∧ c.toInt ≤ 57 then some (c.toInt - 48).toNat
  else if 97 ≤ c.toInt ∧ c.toInt ≤ 102 then some (c.toInt - 87).toNat
  else if 65 ≤ c.toInt ∧ c.toInt ≤ 70 then some (c.toInt - 55).toNat
  else none

/-- A hexadecimal digit. -/
def isHex (c : Int8) : Bool := (hexValue c).isSome

/-- `isspace`: space, tab, line feed, vertical tab, form feed and carriage return. -/
def isSpace (c : Int8) : Bool := [space, tab, lf, 11, 12, cr].contains c

/-- The letter of the prefix `0x`, small or capital. -/
def isX (c : Int8) : Bool := [(120 : Int8), 88].contains c

/-- The digits in front; `none` sets the fail bit. -/
def readDigits (text : List Int8) : Option ℕ :=
  match text.takeWhile isHex with
  | [] => none
  | digits => some (digits.foldl (fun n c => 16 * n + (hexValue c).getD 0) 0)

/-- The digits behind the prefix `0x`, if it is there. -/
def readMagnitude (text : List Int8) : Option ℕ :=
  match text with
  | a :: b :: rest =>
    if a = zero ∧ isX b = true then readDigits rest else readDigits (a :: b :: rest)
  | text => readDigits text

/-- A sign, if there is one, and the digits. -/
def readSigned : List Int8 → Option ℤ
  | [] => none
  | sign :: rest =>
    if sign = minus then (readMagnitude rest).map fun n : ℕ => -(n : ℤ)
    else if sign = plus then (readMagnitude rest).map fun n : ℕ => (n : ℤ)
    else (readMagnitude (sign :: rest)).map fun n : ℕ => (n : ℤ)

/-- `is >> std::hex >> value` for a text that is too short for an overflow. -/
def readHex (text : List Int8) : Option ℤ := readSigned (text.dropWhile isSpace)

/-! ## Decoding -/

/-- `HttpConnection::url_decode`; `none` is the result `false`. -/
def urlDecode : List Int8 → Option (List Int8)
  | [] => some []
  | c :: rest =>
    if c = percent then
      match rest with
      | a :: b :: rest =>
        match readHex [a, b] with
        | some value => (urlDecode rest).map (Int8.ofInt value :: ·)
        | none => none
      | _ => none
    else (urlDecode rest).map ((if c = plus then space else c) :: ·)

/-- Each percent sign is followed by two hexadecimal digits. -/
def WellEscaped (uri : List Int8) : Prop :=
  ∀ i, uri[i]? = some percent →
    ∃ a b, uri[i + 1]? = some a ∧ uri[i + 2]? = some b ∧ isHex a = true ∧ isHex b = true

/-- The byte that two hexadecimal digits stand for. -/
def byteOf (a b : Int8) : Int8 := Int8.ofNat (16 * (hexValue a).getD 0 + (hexValue b).getD 0)

/-- Each percent sign with its two digits is replaced by the byte, each plus sign by a space. -/
def replaced : List Int8 → List Int8
  | [] => []
  | c :: rest =>
    if c = percent then
      match rest with
      | a :: b :: rest => byteOf a b :: replaced rest
      | _ => []
    else (if c = plus then space else c) :: replaced rest

/-- The text is decoded exactly if it is well escaped, and then to the text with its bytes
replaced. -/
structure Decodes (uri : List Int8) : Prop where
  succeeds : (urlDecode uri).isSome ↔ WellEscaped uri
  value : WellEscaped uri → urlDecode uri = some (replaced uri)

/-! ## Escapes -/

/-- What follows the percent signs, of which those that belong to an escape are not counted: two
characters, or the rest of the text. -/
def escapes : List Int8 → List (List Int8)
  | [] => []
  | c :: rest =>
    if c = percent then
      match rest with
      | a :: b :: rest => [a, b] :: escapes rest
      | short => [short]
    else escapes rest

/-- Two hexadecimal digits. -/
def Exact (escape : List Int8) : Prop :=
  ∃ a b, escape = [a, b] ∧ isHex a = true ∧ isHex b = true

/-- A blank or a sign and a digit, or a digit and another character that does not make the prefix
`0x` of it. -/
def Lax (escape : List Int8) : Prop :=
  ∃ a b, escape = [a, b] ∧
    ((isSpace a = true ∨ a = plus ∨ a = minus) ∧ isHex b = true ∨
      isHex a = true ∧ isHex b = false ∧ ¬ (a = zero ∧ isX b = true))

/-- There is an escape that is neither exact nor lax, or all of them are exact. -/
def ExactOrBroken (uri : List Int8) : Prop :=
  (∃ escape ∈ escapes uri, ¬ Exact escape ∧ ¬ Lax escape) ∨ ∀ escape ∈ escapes uri, Exact escape

/-! ## What the stream reads -/

section Reading

variable {a b : Int8}

theorem isHex_eq_false_of_isSpace (h : isSpace a = true) : isHex a = false := by
  rw [isSpace, contains_iff_mem] at h
  simp only [mem_cons, not_mem_nil, or_false] at h
  rcases h with rfl | rfl | rfl | rfl | rfl | rfl <;> decide

theorem readDigits_singleton (b : Int8) : (readDigits [b]).isSome = isHex b := by
  rw [readDigits, takeWhile_cons]
  cases isHex b <;> rfl

theorem readDigits_pair (a b : Int8) : (readDigits [a, b]).isSome = isHex a := by
  rw [readDigits, takeWhile_cons]
  cases isHex a with
  | false | true => rfl

theorem readHex_of_not_space (h : isSpace a = false) : readHex [a, b] = readSigned [a, b] := by
  rw [readHex, dropWhile_cons, h, if_neg Bool.false_ne_true]

/-- Behind a sign there is one digit. -/
theorem readHex_sign (h : a = plus ∨ a = minus) : (readHex [a, b]).isSome = isHex b := by
  have hspace : isSpace a = false := by rcases h with rfl | rfl <;> decide
  rw [readHex_of_not_space hspace, readSigned]
  rcases h with rfl | rfl
  · rw [if_neg (by decide), if_pos rfl, Option.isSome_map]
    exact readDigits_singleton b
  · rw [if_pos rfl, Option.isSome_map]
    exact readDigits_singleton b

/-- Behind a blank there is one digit. -/
theorem readHex_space (h : isSpace a = true) : (readHex [a, b]).isSome = isHex b := by
  rw [readHex, dropWhile_cons, if_pos h, dropWhile_cons, dropWhile_nil]
  cases hb : isSpace b with
  | true =>
    rw [isHex_eq_false_of_isSpace hb]
    rfl
  | false =>
    rw [if_neg Bool.false_ne_true, readSigned]
    split
    · rename_i hminus
      subst hminus
      rfl
    · split
      · rename_i hplus
        subst hplus
        rfl
      · rw [Option.isSome_map]
        exact readDigits_singleton b

/-- Two characters without a blank or a sign in front. -/
theorem readHex_plain (hspace : isSpace a = false) (hsign : ¬ (a = plus ∨ a = minus)) :
    readHex [a, b] =
      if a = zero ∧ isX b = true then none
      else (readDigits [a, b]).map fun n : ℕ => (n : ℤ) := by
  obtain ⟨hplus, hminus⟩ := not_or.mp hsign
  rw [readHex_of_not_space hspace, readSigned, if_neg hminus, if_neg hplus, readMagnitude]
  split
  · rfl
  · rfl

theorem not_sign_of_isHex (h : isHex a = true) : ¬ (a = plus ∨ a = minus) := by
  rintro (rfl | rfl)
  · revert h
    decide
  · revert h
    decide

theorem not_isSpace_of_isHex (h : isHex a = true) : isSpace a = false :=
  Bool.eq_false_iff.mpr fun hspace => by
    rw [isHex_eq_false_of_isSpace hspace] at h
    cases h

theorem not_isX_of_isHex (h : isHex a = true) : isX a = false :=
  Bool.eq_false_iff.mpr fun hx => by
    rw [isX, contains_iff_mem] at hx
    simp only [mem_cons, not_mem_nil, or_false] at hx
    revert h
    rcases hx with rfl | rfl <;> decide

theorem exact_pair : Exact [a, b] ↔ isHex a = true ∧ isHex b = true := by
  constructor
  · rintro ⟨a', b', heq, h⟩
    cases heq
    exact h
  · exact fun h => ⟨a, b, rfl, h⟩

theorem lax_pair : Lax [a, b] ↔
    (isSpace a = true ∨ a = plus ∨ a = minus) ∧ isHex b = true ∨
      isHex a = true ∧ isHex b = false ∧ ¬ (a = zero ∧ isX b = true) := by
  constructor
  · rintro ⟨a', b', heq, h⟩
    cases heq
    exact h
  · exact fun h => ⟨a, b, rfl, h⟩

/-- The stream reads the escapes that are exact or lax. -/
theorem isSome_readHex : (readHex [a, b]).isSome ↔ Exact [a, b] ∨ Lax [a, b] := by
  rw [exact_pair, lax_pair]
  cases hspace : isSpace a with
  | true =>
    rw [readHex_space hspace, isHex_eq_false_of_isSpace hspace]
    simp only [Bool.false_eq_true, false_and, true_or, true_and, false_or, or_false]
  | false =>
    by_cases hsign : a = plus ∨ a = minus
    · have hhex : isHex a = false := by rcases hsign with rfl | rfl <;> decide
      rw [readHex_sign hsign, hhex]
      simp only [Bool.false_eq_true, false_and, hsign, or_true, true_and, false_or, or_false]
    · rw [readHex_plain hspace hsign]
      by_cases hx : a = zero ∧ isX b = true
      · have hb : isHex b = false := Bool.eq_false_iff.mpr fun hb => by
          have hnot := not_isX_of_isHex hb
          rw [hx.2] at hnot
          cases hnot
        rw [if_pos hx, hb]
        refine iff_of_false Bool.false_ne_true ?_
        rintro (hexact | hsigned | hlax)
        · exact Bool.false_ne_true hexact.2
        · exact Bool.false_ne_true hsigned.2
        · exact hlax.2.2 hx
      · rw [if_neg hx, Option.isSome_map, readDigits_pair]
        cases hb : isHex b <;>
          simp only [hsign, hx, Bool.false_eq_true, and_false, and_true, false_or, or_false,
            not_false_eq_true, reduceCtorEq]

/-- Two digits are read as their value. -/
theorem readHex_of_exact (h : Exact [a, b]) :
    readHex [a, b] = some ((16 * (hexValue a).getD 0 + (hexValue b).getD 0 : ℕ) : ℤ) := by
  obtain ⟨ha, hb⟩ := exact_pair.mp h
  have hx : ¬ (a = zero ∧ isX b = true) := fun hx => by
    rw [not_isX_of_isHex hb] at hx
    cases hx.2
  have hdigits : [a, b].takeWhile isHex = [a, b] := by
    rw [takeWhile_cons, if_pos ha, takeWhile_cons, if_pos hb, takeWhile_nil]
  rw [readHex_plain (not_isSpace_of_isHex ha) (not_sign_of_isHex ha), if_neg hx, readDigits,
    hdigits]
  change some ((16 * (16 * 0 + _) + _ : ℕ) : ℤ) = _
  rw [Nat.mul_zero, Nat.zero_add]

end Reading

/-! ## What is decoded -/

section Decoding

variable {uri : List Int8}

/-- A text begins with an escape, with one that is cut short, or with another character. -/
theorem escapes_cases {P : List Int8 → Prop} (nil : P [])
    (escape : ∀ a b rest, P rest → P (percent :: a :: b :: rest))
    (short : ∀ cut : List Int8, cut.length < 2 → P (percent :: cut))
    (other : ∀ c rest, c ≠ percent → P rest → P (c :: rest)) (uri : List Int8) : P uri := by
  induction uri using escapes.induct with
  | case1 => exact nil
  | case2 a b rest ih => exact escape a b rest ih
  | case3 cut h =>
    refine short cut ?_
    match cut, h with
    | [], _ => exact Nat.zero_lt_two
    | [_], _ => exact Nat.one_lt_two
    | a :: b :: rest, h => exact absurd rfl (h a b rest)
  | case4 c rest hc ih => exact other c rest hc ih

theorem urlDecode_escape (a b : Int8) (rest : List Int8) :
    urlDecode (percent :: a :: b :: rest) =
      (readHex [a, b]).bind fun value => (urlDecode rest).map (Int8.ofInt value :: ·) := by
  rw [urlDecode, if_pos rfl]
  cases readHex [a, b] <;> rfl

theorem urlDecode_other {c : Int8} (hc : c ≠ percent) (rest : List Int8) :
    urlDecode (c :: rest) = (urlDecode rest).map ((if c = plus then space else c) :: ·) := by
  rw [urlDecode.eq_def]
  exact if_neg hc

theorem escapes_escape (a b : Int8) (rest : List Int8) :
    escapes (percent :: a :: b :: rest) = [a, b] :: escapes rest :=
  if_pos rfl

theorem escapes_other {c : Int8} (hc : c ≠ percent) (rest : List Int8) :
    escapes (c :: rest) = escapes rest := by
  rw [escapes.eq_def]
  exact if_neg hc

theorem replaced_escape (a b : Int8) (rest : List Int8) :
    replaced (percent :: a :: b :: rest) = byteOf a b :: replaced rest :=
  if_pos rfl

theorem replaced_other {c : Int8} (hc : c ≠ percent) (rest : List Int8) :
    replaced (c :: rest) = (if c = plus then space else c) :: replaced rest := by
  rw [replaced.eq_def]
  exact if_neg hc

/-- An escape that is cut short is not decoded, and is neither exact nor lax. -/
theorem escapes_short {short : List Int8} (h : short.length < 2) :
    urlDecode (percent :: short) = none ∧ escapes (percent :: short) = [short] ∧
      ¬ Exact short ∧ ¬ Lax short := by
  match short, h with
  | [], _ =>
    refine ⟨if_pos rfl, if_pos rfl, ?_, ?_⟩
    · rintro ⟨a, b, heq, -⟩
      cases heq
    · rintro ⟨a, b, heq, -⟩
      cases heq
  | [c], _ =>
    refine ⟨if_pos rfl, if_pos rfl, ?_, ?_⟩
    · rintro ⟨a, b, heq, -⟩
      cases heq
    · rintro ⟨a, b, heq, -⟩
      cases heq
  | _ :: _ :: _, h =>
    simp only [length_cons] at h
    omega

/-- A text is decoded if the stream reads all its escapes. -/
theorem isSome_urlDecode (uri : List Int8) :
    (urlDecode uri).isSome ↔ ∀ escape ∈ escapes uri, Exact escape ∨ Lax escape := by
  induction uri using escapes_cases with
  | nil => exact iff_of_true rfl fun escape h => absurd h not_mem_nil
  | escape a b rest ih =>
    rw [urlDecode_escape, escapes_escape, forall_mem_cons, ← isSome_readHex, ← ih]
    cases readHex [a, b] with
    | none => exact iff_of_false Bool.false_ne_true fun h => Bool.false_ne_true h.1
    | some value =>
      rw [Option.bind_some, Option.isSome_map]
      exact ⟨fun h => ⟨rfl, h⟩, fun h => h.2⟩
  | short cut hshort =>
    obtain ⟨hdecode, hescapes, hexact, hlax⟩ := escapes_short hshort
    rw [hdecode, hescapes, forall_mem_singleton]
    exact iff_of_false Bool.false_ne_true (not_or.mpr ⟨hexact, hlax⟩)
  | other c rest hc ih =>
    rw [urlDecode_other hc, escapes_other hc, Option.isSome_map]
    exact ih

/-- A text whose escapes are exact is decoded to its bytes. -/
theorem urlDecode_of_exact (uri : List Int8) :
    (∀ escape ∈ escapes uri, Exact escape) → urlDecode uri = some (replaced uri) := by
  intro h
  induction uri using escapes_cases with
  | nil => rfl
  | escape a b rest ih =>
    rw [escapes_escape, forall_mem_cons] at h
    rw [urlDecode_escape, readHex_of_exact h.1, Option.bind_some, ih h.2, replaced_escape]
    rfl
  | short cut hshort =>
    obtain ⟨-, hescapes, hexact, -⟩ := escapes_short hshort
    rw [hescapes, forall_mem_singleton] at h
    exact absurd h hexact
  | other c rest hc ih =>
    rw [escapes_other hc] at h
    rw [urlDecode_other hc, ih h, replaced_other hc]
    rfl

theorem wellEscaped_cons {c : Int8} {rest : List Int8} :
    WellEscaped (c :: rest) ↔
      (c = percent → ∃ a b, rest[0]? = some a ∧ rest[1]? = some b ∧ isHex a = true ∧
        isHex b = true) ∧ WellEscaped rest := by
  constructor
  · exact fun h => ⟨fun hc => h 0 (congrArg some hc), fun i hi => h (i + 1) hi⟩
  · rintro ⟨hfirst, hrest⟩ i hi
    cases i with
    | zero => exact hfirst (Option.some.inj hi)
    | succ i => exact hrest i hi

theorem wellEscaped_cons_of_ne {c : Int8} (hc : c ≠ percent) {rest : List Int8} :
    WellEscaped (c :: rest) ↔ WellEscaped rest :=
  wellEscaped_cons.trans ⟨fun h => h.2, fun h => ⟨fun heq => absurd heq hc, h⟩⟩

theorem ne_percent_of_isHex {c : Int8} (h : isHex c = true) : c ≠ percent := by
  rintro rfl
  revert h
  decide

/-- A text is well escaped exactly if its escapes are exact. -/
theorem wellEscaped_iff (uri : List Int8) :
    WellEscaped uri ↔ ∀ escape ∈ escapes uri, Exact escape := by
  induction uri using escapes_cases with
  | nil => exact iff_of_true (fun i hi => by cases hi) fun escape h => absurd h not_mem_nil
  | escape a b rest ih =>
    rw [escapes_escape, forall_mem_cons, ← ih, exact_pair, wellEscaped_cons]
    constructor
    · rintro ⟨hfirst, hrest⟩
      obtain ⟨a', b', ha', hb', ha, hb⟩ := hfirst rfl
      cases ha'
      cases hb'
      rw [wellEscaped_cons_of_ne (ne_percent_of_isHex ha),
        wellEscaped_cons_of_ne (ne_percent_of_isHex hb)] at hrest
      exact ⟨⟨ha, hb⟩, hrest⟩
    · rintro ⟨⟨ha, hb⟩, hrest⟩
      rw [wellEscaped_cons_of_ne (ne_percent_of_isHex ha),
        wellEscaped_cons_of_ne (ne_percent_of_isHex hb)]
      exact ⟨fun _ => ⟨a, b, rfl, rfl, ha, hb⟩, hrest⟩
  | short cut hshort =>
    obtain ⟨-, hescapes, hexact, -⟩ := escapes_short hshort
    rw [hescapes, forall_mem_singleton]
    refine iff_of_false (fun h => ?_) hexact
    obtain ⟨a, b, -, hb, -⟩ := (wellEscaped_cons.mp h).1 rfl
    rw [getElem?_eq_none (by omega)] at hb
    cases hb
  | other c rest hc ih =>
    rw [escapes_other hc, wellEscaped_cons_of_ne hc]
    exact ih

/-- Decoding is exact unless an escape that is lax is decoded. -/
theorem decodes_iff (uri : List Int8) : Decodes uri ↔ ExactOrBroken uri := by
  have hvalue : WellEscaped uri → urlDecode uri = some (replaced uri) := fun h =>
    urlDecode_of_exact uri ((wellEscaped_iff uri).mp h)
  have hsucceeds : Decodes uri ↔
      ((∀ escape ∈ escapes uri, Exact escape ∨ Lax escape) ↔
        ∀ escape ∈ escapes uri, Exact escape) := by
    rw [← isSome_urlDecode, ← wellEscaped_iff]
    exact ⟨fun h => h.succeeds, fun h => ⟨h, hvalue⟩⟩
  rw [hsucceeds, ExactOrBroken]
  constructor
  · intro h
    by_cases hexact : ∀ escape ∈ escapes uri, Exact escape
    · exact Or.inr hexact
    · have hread := mt h.mp hexact
      simp only [not_forall] at hread
      obtain ⟨escape, hmem, hbroken⟩ := hread
      exact Or.inl ⟨escape, hmem, not_or.mp hbroken⟩
  · rintro (⟨escape, hmem, hexact, hlax⟩ | hexact)
    · exact iff_of_false (fun h => (h escape hmem).elim hexact hlax) fun h => hexact (h escape hmem)
    · exact iff_of_true (fun escape hmem => Or.inl (hexact escape hmem)) hexact

end Decoding

/-! ## Encoding -/

/-- A hexadecimal digit, with small or capital letters. -/
def hexDigit (capital : Bool) (n : ℕ) : Int8 :=
  Int8.ofNat (if n < 10 then 48 + n else if capital then 55 + n else 87 + n)

/-- A byte in a URI: as it is, or with a percent sign and two digits; the percent sign and the plus
sign do not stand for themselves. -/
def percentEncodeByte (keep : Int8 → Bool) (capital : Bool) (c : Int8) : List Int8 :=
  if keep c = true ∧ c ≠ percent ∧ c ≠ plus then [c]
  else
    let n := c.toUInt8.toNat
    [percent, hexDigit capital (n / 16), hexDigit capital (n % 16)]

/-- A byte string in a URI. -/
def percentEncode (keep : Int8 → Bool) (capital : Bool) (bytes : List Int8) : List Int8 :=
  bytes.flatMap (percentEncodeByte keep capital)

theorem hexValue_hexDigit (capital : Bool) : ∀ n < 16, hexValue (hexDigit capital n) = some n := by
  cases capital <;> decide

theorem ofInt_toUInt8 (c : Int8) : Int8.ofInt c.toUInt8.toNat = c := by
  rw [← Int8.toBitVec_inj]
  simp

/-- Decoding undoes encoding. -/
theorem urlDecode_percentEncode (keep : Int8 → Bool) (capital : Bool) (bytes : List Int8) :
    urlDecode (percentEncode keep capital bytes) = some bytes := by
  induction bytes with
  | nil => rfl
  | cons c bytes ih =>
    have hcons : percentEncode keep capital (c :: bytes) =
        percentEncodeByte keep capital c ++ percentEncode keep capital bytes := flatMap_cons
    rw [hcons, percentEncodeByte]
    split
    · rename_i hkeep
      rw [singleton_append, urlDecode_other hkeep.2.1, ih, if_neg hkeep.2.2]
      rfl
    · have hlt : c.toUInt8.toNat < 256 := c.toUInt8.toNat_lt
      have hhigh := hexValue_hexDigit capital (c.toUInt8.toNat / 16) (by omega)
      have hlow := hexValue_hexDigit capital (c.toUInt8.toNat % 16) (by omega)
      have hexact : Exact [hexDigit capital (c.toUInt8.toNat / 16),
          hexDigit capital (c.toUInt8.toNat % 16)] :=
        exact_pair.mpr ⟨by rw [isHex, hhigh]; rfl, by rw [isHex, hlow]; rfl⟩
      change urlDecode (percent :: _ :: _ :: percentEncode keep capital bytes) = _
      rw [urlDecode_escape, readHex_of_exact hexact, Option.bind_some, ih, hhigh, hlow]
      have hbyte : ((16 * (c.toUInt8.toNat / 16) + c.toUInt8.toNat % 16 : ℕ) : ℤ) =
          c.toUInt8.toNat := by omega
      simp only [Option.getD_some, Option.map_some]
      rw [hbyte, ofInt_toUInt8]

end Idgs.Net.UrlDecode
