import Idgs.Common.NumberText
import Idgs.Common.Text

/-!
# Reading JSON

A document is read by recursive descent, as yajl reads it with comments allowed: a string is checked
for UTF-8 by the first bytes of its characters and then unescaped, a whole number is told from other
ones. A byte of a text is the character of its number. What a writer prints of values is read back
part by part: `Reads` says what the reader makes of a text, whatever follows it.
-/

namespace Idgs.Common.Json

open List

abbrev Text := List Char

/-- A document. A number that is not a whole one is kept as its text. -/
inductive Document
  | null
  | bool (value : Bool)
  | integer (value : ℤ)
  | real (text : Text)
  | string (text : Text)
  | array (items : List Document)
  | object (members : List (Text × Document))

/-! ## Blanks and comments -/

def isBlank (c : Char) : Bool := c ∈ ['\t', '\n', '\x0b', '\x0c', '\r', ' ']

/-- Where the lexer is between two tokens. -/
inductive Gap
  | blank | slash | line | block | star

/-- `yajl_lex_lex` up to the next token, over blanks and comments (`yajl_lex_comment`). -/
def skip : Gap → Text → Option Text
  | .slash, [] => none
  | _, [] => some []
  | .blank, c :: s =>
    if isBlank c then skip .blank s else if c = '/' then skip .slash s else some (c :: s)
  | .slash, c :: s => if c = '/' then skip .line s else if c = '*' then skip .block s else none
  | .line, c :: s => if c = '\n' then skip .blank s else skip .line s
  | .block, c :: s => if c = '*' then skip .star s else skip .block s
  | .star, c :: s =>
    if c = '/' then skip .blank s else if c = '*' then skip .star s else skip .block s

/-- The first character of a value, a name or a closing bracket. -/
def isToken (c : Char) : Bool := !isBlank c && c ≠ '/'

theorem skip_token {c : Char} (h : isToken c = true) (s : Text) :
    skip .blank (c :: s) = some (c :: s) := by
  simp only [isToken, Bool.and_eq_true, Bool.not_eq_true', decide_eq_true_eq] at h
  rw [skip, if_neg (by simp [h.1]), if_neg h.2]

/-! ## Strings -/

/-- How many bytes follow the first one of a character in UTF-8 (`yajl_lex_utf8_char`). -/
def following (c : Char) : Option ℕ :=
  if c.toNat < 128 then some 0
  else if 192 ≤ c.toNat ∧ c.toNat < 224 then some 1
  else if 224 ≤ c.toNat ∧ c.toNat < 240 then some 2
  else if 240 ≤ c.toNat ∧ c.toNat < 248 then some 3
  else none

def isFollowing (c : Char) : Bool := decide (128 ≤ c.toNat ∧ c.toNat < 192)

/-- Whether a text is UTF-8 by these classes, when so many bytes of a character are to come. -/
def isUtf8 : ℕ → Text → Bool
  | pending, [] => pending = 0
  | 0, c :: s => (following c).any fun k => isUtf8 k s
  | k + 1, c :: s => isFollowing c && isUtf8 k s

/-- The escapes of one character. -/
def escapes : List (Char × Char) :=
  [('\r', 'r'), ('\n', 'n'), ('\\', '\\'), ('"', '"'), ('\x0c', 'f'), ('\x08', 'b'), ('\t', 't')]

/-- What an escape of one character stands for. -/
def unescapes : List (Char × Char) := ('/', '/') :: escapes.map Prod.swap

def hexDigit (n : ℕ) : Char := if n < 10 then Char.ofNat (48 + n) else Char.ofNat (55 + n)

def isHexDigit (c : Char) : Bool :=
  c.isDigit || decide ('A' ≤ c ∧ c ≤ 'F') || decide ('a' ≤ c ∧ c ≤ 'f')

/-- `hexToDigit` of one digit. -/
def hexValue (c : Char) : ℕ :=
  if c.toNat < 65 then c.toNat - 48 else if c.toNat < 97 then c.toNat - 55 else c.toNat - 87

/-- A byte as the writer of strings escapes it. -/
def escapeChar (c : Char) : Text :=
  match escapes.lookup c with
  | some e => ['\\', e]
  | none =>
    if c.toNat < 32 then ['\\', 'u', '0', '0', hexDigit (c.toNat / 16), hexDigit (c.toNat % 16)]
    else [c]

def escape (s : Text) : Text := s.flatMap escapeChar

/-- Where the lexer is in a string: so many bytes of a character are to come, behind a backslash, or
before the last digits of a code but so many. -/
inductive StringMode
  | plain (pending : ℕ) | escape | hex (more : ℕ)
  deriving DecidableEq

def StringMode.next : StringMode → Char → Option StringMode
  | .plain 0, c =>
    if c = '\\' then some .escape else if c.toNat < 32 then none else (following c).map .plain
  | .plain (k + 1), c => if isFollowing c then some (.plain k) else none
  | .escape, c =>
    if c = 'u' then some (.hex 3) else if (unescapes.lookup c).isSome then some (.plain 0) else none
  | .hex 0, c => if isHexDigit c then some (.plain 0) else none
  | .hex (k + 1), c => if isHexDigit c then some (.hex k) else none

/-- `yajl_lex_string`: the text up to the closing quote, as it stands, and what follows it. -/
def lexString : StringMode → Text → Option (Text × Text)
  | _, [] => none
  | mode, c :: s =>
    if mode = .plain 0 ∧ c = '"' then some ([], s)
    else (mode.next c).bind fun mode => (lexString mode s).map fun (raw, rest) => (c :: raw, rest)

/-- `Utf32toUtf8`. -/
def utf8 (code : ℕ) : Text :=
  if code < 128 then [Char.ofNat code]
  else if code < 2048 then [Char.ofNat (192 + code / 64), Char.ofNat (128 + code % 64)]
  else if code < 65536 then
    [Char.ofNat (224 + code / 4096), Char.ofNat (128 + code / 64 % 64),
      Char.ofNat (128 + code % 64)]
  else
    [Char.ofNat (240 + code / 262144), Char.ofNat (128 + code / 4096 % 64),
      Char.ofNat (128 + code / 64 % 64), Char.ofNat (128 + code % 64)]

def codeOf (a b c d : Char) : ℕ :=
  4096 * hexValue a + 256 * hexValue b + 16 * hexValue c + hexValue d

/-- `yajl_string_decode`. Behind the first half of a pair of surrogates a character is lost if the
other half does not follow. -/
def decode : Text → Text
  | [] => []
  | c :: s =>
    if c ≠ '\\' then c :: decode s
    else
      match s with
      | [] => []
      | e :: s =>
        if e ≠ 'u' then (unescapes.lookup e).getD '?' :: decode s
        else
          match s with
          | a :: b :: c :: d :: s =>
            if codeOf a b c d / 1024 = 54 then
              match s with
              | '\\' :: 'u' :: a' :: b' :: c' :: d' :: s =>
                utf8 (65536 + codeOf a b c d % 1024 * 1024 + codeOf a' b' c' d' % 1024) ++
                  decode s
              | _ :: s => '?' :: decode s
              | [] => ['?']
            else utf8 (codeOf a b c d) ++ decode s
          | _ => []

/-- The control characters without an escape of their own are escaped by their codes. -/
theorem control_lt : ∀ n < 32, escapes.lookup (Char.ofNat n) = none →
    isHexDigit (hexDigit (n / 16)) = true ∧ isHexDigit (hexDigit (n % 16)) = true ∧
      utf8 (codeOf '0' '0' (hexDigit (n / 16)) (hexDigit (n % 16))) = [Char.ofNat n] ∧
      codeOf '0' '0' (hexDigit (n / 16)) (hexDigit (n % 16)) / 1024 ≠ 54 := by
  decide

/-- An escape of one character is one that the lexer takes, and stands for the character. -/
theorem escapes_lookup {c e : Char} (h : escapes.lookup c = some e) :
    e ≠ 'u' ∧ unescapes.lookup e = some c ∧ c.toNat < 128 := by
  have hall : ∀ p ∈ escapes, p.2 ≠ 'u' ∧ unescapes.lookup p.2 = some p.1 ∧ p.1.toNat < 128 := by
    decide
  obtain ⟨before, behind, hsplit, -⟩ := lookup_eq_some_iff.mp h
  exact hall (c, e) (hsplit ▸ mem_append_right _ mem_cons_self)

theorem escapes_lookup_none {c : Char} (h : escapes.lookup c = none) : c ≠ '\\' ∧ c ≠ '"' := by
  constructor <;>
  · rintro rfl
    revert h
    decide

/-- A byte is written as it is or read back from an escape, which is one of ASCII. -/
theorem escapeChar_cases (c : Char) :
    (escapeChar c = [c] ∧ 32 ≤ c.toNat ∧ c ≠ '\\' ∧ c ≠ '"') ∨
      (c.toNat < 128 ∧ (∃ e, escapeChar c = '\\' :: e) ∧
        (∀ s, decode (escapeChar c ++ s) = c :: decode s) ∧
        ∀ s, lexString (.plain 0) (escapeChar c ++ s) =
          (lexString (.plain 0) s).map fun (raw, rest) => (escapeChar c ++ raw, rest)) := by
  unfold escapeChar
  cases hlookup : escapes.lookup c with
  | some e =>
    obtain ⟨hne, hback, hlt⟩ := escapes_lookup hlookup
    refine .inr ⟨hlt, ⟨_, rfl⟩, fun s => ?_, fun s => ?_⟩
    · rw [cons_append, singleton_append, decode.eq_def]
      simp [hne, hback]
    · simp [lexString, StringMode.next, hne, hback, Option.map_map, Function.comp_def,
        -lookup_isSome_iff]
  | none =>
    obtain ⟨hbackslash, hquote⟩ := escapes_lookup_none hlookup
    by_cases hlt : c.toNat < 32
    · have hcontrol := control_lt c.toNat hlt
      rw [Char.ofNat_toNat] at hcontrol
      obtain ⟨hhigh, hlow, hutf8, hcode⟩ := hcontrol hlookup
      have hzero : isHexDigit '0' = true := by decide
      refine .inr ⟨by omega, ⟨_, if_pos hlt⟩, fun s => ?_, fun s => ?_⟩
      · simp only [if_pos hlt, cons_append, nil_append]
        rw [decode.eq_def]
        simp [hcode, hutf8]
      · simp [hlt, lexString, StringMode.next, hzero, hhigh, hlow, Option.map_map,
          Function.comp_def]
    · exact .inl ⟨if_neg hlt, by omega, hbackslash, hquote⟩

theorem decode_plain {c : Char} (h : c ≠ '\\') (s : Text) : decode (c :: s) = c :: decode s := by
  rw [decode.eq_def]
  simp [h]

theorem decode_escape (s : Text) : decode (escape s) = s := by
  induction s with
  | nil => rfl
  | cons c s ih =>
    rw [escape, flatMap_cons, ← escape]
    rcases escapeChar_cases c with ⟨hself, -, hbackslash, -⟩ | ⟨-, -, hdecode, -⟩
    · rw [hself, singleton_append, decode_plain hbackslash, ih]
    · rw [hdecode, ih]

theorem not_isFollowing {c : Char} (h : c.toNat < 128) : isFollowing c = false := by
  simp only [isFollowing, decide_eq_false_iff_not]
  omega

/-- What is written of a text is read up to the quote behind it if the text is UTF-8, else not. -/
theorem lexString_escape (s rest : Text) (pending : ℕ) :
    lexString (.plain pending) (escape s ++ '"' :: rest) =
      if isUtf8 pending s then some (escape s, rest) else none := by
  induction s generalizing pending with
  | nil =>
    cases pending with
    | zero => rfl
    | succ k => rfl
  | cons c s ih =>
    rw [escape, flatMap_cons, ← escape, append_assoc]
    cases pending with
    | zero =>
      rcases escapeChar_cases c with ⟨hself, hle, hbackslash, hquote⟩ | ⟨hlt, -, -, hlex⟩
      · rw [hself, singleton_append, lexString, if_neg (by simp [hquote]), StringMode.next,
          if_neg hbackslash, if_neg (by omega), isUtf8]
        cases hfollowing : following c with
        | none => rfl
        | some k =>
          rw [Option.map_some, Option.bind_some, ih]
          cases hutf8 : isUtf8 k s <;> simp [hutf8]
      · rw [hlex, ih, isUtf8, following, if_pos hlt, Option.any_some]
        cases isUtf8 0 s <;> rfl
    | succ k =>
      cases hfollowing : isFollowing c with
      | true =>
        have hself : escapeChar c = [c] := by
          rcases escapeChar_cases c with ⟨hself, -⟩ | ⟨hlt, -⟩
          · exact hself
          · rw [not_isFollowing hlt] at hfollowing
            cases hfollowing
        rw [hself, singleton_append, lexString, if_neg (by simp), StringMode.next,
          if_pos hfollowing, Option.bind_some, ih, isUtf8, hfollowing, Bool.true_and]
        cases isUtf8 k s <;> rfl
      | false =>
        obtain ⟨e, hhead, htail⟩ : ∃ h t, escapeChar c = h :: t ∧ isFollowing h = false := by
          rcases escapeChar_cases c with ⟨hself, -⟩ | ⟨-, ⟨e, he⟩, -⟩
          · exact ⟨c, [], hself, hfollowing⟩
          · exact ⟨_, _, he, by decide⟩
        rw [htail.1, cons_append, lexString, if_neg (by simp), StringMode.next, htail.2, isUtf8,
          hfollowing]
        rfl

/-! ## Numbers -/

/-- The digits that a text begins with, one at least, and the rest. -/
def lexDigits (s : Text) : Option (Text × Text) :=
  let digits := s.takeWhile Char.isDigit
  if digits = [] then none else some (digits, s.drop digits.length)

/-- The fraction of a number, if there is one. -/
def lexFraction : Text → Option (Text × Text)
  | '.' :: s => (lexDigits s).map fun (digits, s) => ('.' :: digits, s)
  | s => some ([], s)

/-- The exponent of a number, if there is one. -/
def lexExponent : Text → Option (Text × Text)
  | [] => some ([], [])
  | c :: s =>
    if c = 'e' ∨ c = 'E' then
      let sign := if s.head? = some '+' ∨ s.head? = some '-' then s.take 1 else []
      (lexDigits (s.drop sign.length)).map fun (digits, s) => (c :: (sign ++ digits), s)
    else some ([], c :: s)

/-- `yajl_lex_number`. No digit of the same number follows a zero in front. -/
def lexNumber (s : Text) : Option (Document × Text) :=
  let sign := if s.head? = some '-' then ['-'] else []
  (lexDigits (s.drop sign.length)).bind fun (digits, rest) =>
    let digits' := if digits.head? = some '0' then ['0'] else digits
    let rest := digits.drop digits'.length ++ rest
    (lexFraction rest).bind fun (fraction, rest) =>
      (lexExponent rest).map fun (exponent, rest) =>
        (if fraction = [] ∧ exponent = [] then
            let n := Nat.ofDigitChars 10 digits' 0
            .integer (if sign = [] then n else -n)
          else .real (sign ++ digits' ++ fraction ++ exponent), rest)

/-- A whole number as it is printed. -/
def integerText (n : ℤ) : Text := if n < 0 then '-' :: decimal n.natAbs else decimal n.natAbs

/-- Whether a number ends before a text. -/
def Ends (rest : Text) : Prop := ∀ c ∈ rest.head?, c.isDigit = false ∧ c ≠ '.' ∧ c ≠ 'e' ∧ c ≠ 'E'

/-- Only the number zero begins with the digit. -/
theorem decimal_of_head_zero {n : ℕ} (h : (decimal n).head? = some '0') : decimal n = ['0'] := by
  induction n using Nat.strong_induction_on with
  | _ n ih =>
    unfold decimal at h ih ⊢
    by_cases hlt : n < 10
    · rw [Nat.toDigits_of_lt_base hlt] at h ⊢
      rw [head?_cons] at h
      rw [Option.some.inj h]
    · rw [Nat.toDigits_of_base_le (by decide) (by omega), head?_append_of_ne_nil _
        Nat.toDigits_ne_nil] at h
      have hzero : decimal (n / 10) = decimal 0 := ih (n / 10) (by omega) h
      have hvalue := congrArg (Nat.ofDigitChars 10 · 0) hzero
      simp only [decimal, Nat.ofDigitChars_ten_toDigits] at hvalue
      omega

theorem lexDigits_decimal (n : ℕ) {rest : Text} (h : Ends rest) :
    lexDigits (decimal n ++ rest) = some (decimal n, rest) := by
  have hrest : rest.head?.all fun c => !c.isDigit := by
    cases rest with
    | nil => rfl
    | cons c rest => simp [(h c rfl).1]
  unfold lexDigits
  rw [takeWhile_decimal n hrest]
  simp only [if_neg (decimal_ne_nil n), drop_left]

theorem lexNumber_integerText (n : ℤ) {rest : Text} (h : Ends rest) :
    lexNumber (integerText n ++ rest) = some (.integer n, rest) := by
  have hfraction : lexFraction rest = some ([], rest) := by
    cases rest with
    | nil => rfl
    | cons c rest =>
      unfold lexFraction
      split
      · rename_i heq
        cases heq
        exact absurd rfl (h '.' rfl).2.1
      · rfl
  have hexponent : lexExponent rest = some ([], rest) := by
    cases rest with
    | nil => rfl
    | cons c rest =>
      rw [lexExponent, if_neg]
      rintro (rfl | rfl)
      · exact (h _ rfl).2.2.1 rfl
      · exact (h _ rfl).2.2.2 rfl
  have hdigits (m : ℕ) :
      (if (decimal m).head? = some '0' then ['0'] else decimal m) = decimal m := by
    split
    · rename_i hzero
      exact (decimal_of_head_zero hzero).symm
    · rfl
  have hvalue (m : ℕ) : Nat.ofDigitChars 10 (decimal m) 0 = m := Nat.ofDigitChars_ten_toDigits
  unfold lexNumber integerText
  by_cases hn : n < 0
  · simp only [if_pos hn, cons_append, head?_cons, if_true, length_singleton, drop_succ_cons,
      drop_zero, lexDigits_decimal _ h, Option.bind_some, hdigits, drop_length, nil_append,
      hfraction, hexponent, Option.map_some, and_self, hvalue, cons_ne_nil, if_false]
    rw [Int.ofNat_natAbs_of_nonpos hn.le, neg_neg]
  · simp only [if_neg hn, head_decimal_ne, if_false, length_nil, drop_zero, lexDigits_decimal _ h,
      Option.bind_some, hdigits, drop_length, nil_append, hfraction, hexponent, Option.map_some,
      and_self, hvalue, if_true]
    rw [Int.natAbs_of_nonneg (by omega)]

/-! ## Values -/

/-- A text that begins with a word without it. -/
def expect (word : Text) (value : Document) (s : Text) : Option (Document × Text) :=
  if word <+: s then some (value, s.drop word.length) else none

/-- Elements with commas between them, up to the closing bracket. -/
def readElements {α : Type*} (close : Char) (element : Text → Option (α × Text)) :
    ℕ → Text → Option (List α × Text)
  | 0, _ => none
  | n + 1, s =>
    (element s).bind fun (v, s) => (skip .blank s).bind fun s =>
      match s with
      | [] => none
      | c :: s =>
        if c = ',' then (readElements close element n s).map fun (vs, s) => (v :: vs, s)
        else if c = close then some ([v], s) else none

/-- What stands between two brackets. -/
def readBrackets {α : Type*} (close : Char) (element : Text → Option (α × Text)) (n : ℕ)
    (s : Text) : Option (List α × Text) :=
  (skip .blank s).bind fun s =>
    if s.head? = some close then some ([], s.tail) else readElements close element n s

/-- A member of an object: a string, a colon and a value. -/
def readMember (value : Text → Option (Document × Text)) (s : Text) :
    Option ((Text × Document) × Text) :=
  (skip .blank s).bind fun s =>
    if s.head? = some '"' then
      (lexString (.plain 0) s.tail).bind fun (raw, s) => (skip .blank s).bind fun s =>
        if s.head? = some ':' then (value s.tail).map fun (v, s) => ((decode raw, v), s) else none
    else none

/-- `yajl_do_parse` of one value. The first number bounds the depth and the numbers of elements. -/
def readValue : ℕ → Text → Option (Document × Text)
  | 0, _ => none
  | n + 1, s =>
    (skip .blank s).bind fun s =>
      match s with
      | [] => none
      | c :: s =>
        if c = '"' then
          (lexString (.plain 0) s).map fun (raw, s) => (.string (decode raw), s)
        else if c = '[' then
          (readBrackets ']' (readValue n) n s).map fun (items, s) => (.array items, s)
        else if c = '\x7b' then
          (readBrackets '\x7d' (readMember (readValue n)) n s).map fun (members, s) =>
            (.object members, s)
        else if c = 't' then expect ['r', 'u', 'e'] (.bool true) s
        else if c = 'f' then expect ['a', 'l', 's', 'e'] (.bool false) s
        else if c = 'n' then expect ['u', 'l', 'l'] .null s
        else lexNumber (c :: s)

/-- A text up to its first zero byte, as a C string. -/
def cString (s : Text) : Text := s.takeWhile (· ≠ '\x00')

theorem cString_of_notMem {s : Text} (h : '\x00' ∉ s) : cString s = s :=
  Text.takeWhile_of_notMem h

/-- `yajl_tree_parse`; `none` is a parse error. -/
def treeParse (s : Text) : Option Document :=
  (readValue ((cString s).length + 1) (cString s)).bind fun (v, s) => (skip .blank s).bind fun s =>
    if s = [] then some v else none

/-! ## What is read of a text -/

theorem isToken_ends {c : Char} {s : Text} (h : c ∈ [',', ']', '\x7d']) : Ends (c :: s) := by
  rintro _ ⟨⟩
  revert c
  simp

/-- A reader makes this of a text, whatever ends it. No text begins with a closing bracket or a
comment, and none has a zero byte. -/
structure Reads {α : Type*} (reader : ℕ → Text → Option (α × Text)) (text : Text)
    (result : Option α) : Prop where
  begins : ∃ c s, text = c :: s ∧ isToken c = true ∧ c ≠ ']' ∧ c ≠ '\x7d'
  noZero : '\x00' ∉ text
  reads : ∀ n rest, text.length < n → Ends rest →
    reader n (text ++ rest) = result.map fun v => (v, rest)

section Elements

variable {α : Type*} {reader : ℕ → Text → Option (α × Text)} {texts : List Text}
  {results : List (Option α)} {close : Char}

theorem length_add_le_intercalate {t : Text} (h : t ∈ texts) :
    t.length + texts.length ≤ ([','].intercalate texts).length + 1 := by
  induction texts generalizing t with
  | nil => cases h
  | cons t' texts ih =>
    cases texts with
    | nil =>
      rw [mem_singleton.mp h]
      simp [intercalate]
    | cons t'' texts =>
      have hhead := ih mem_cons_self
      rw [intercalate_cons_cons, length_append, length_append, length_singleton, length_cons]
      rcases mem_cons.mp h with rfl | h
      · omega
      · have htail := ih h
        omega

section

variable (h : Forall₂ (Reads reader) texts results)

include h

/-- The elements are read one by one; the first one that is not read is the end of it. -/
theorem readElements_intercalate (hne : texts ≠ [])
    (hclose : close ∈ [']', '\x7d']) {m n : ℕ}
    (hm : ∀ t ∈ texts, t.length < m) (hn : texts.length ≤ n) (rest : Text) :
    readElements close (reader m) n ([','].intercalate texts ++ close :: rest) =
      (results.mapM id).map fun vs => (vs, rest) := by
  have htoken : isToken close = true ∧ close ≠ ',' := by
    revert close
    simp [isToken, isBlank]
  induction h generalizing n with
  | nil => exact absurd rfl hne
  | @cons t r texts results ht hrest ih =>
    obtain ⟨n, rfl⟩ : ∃ k, n = k + 1 := ⟨n - 1, by rw [length_cons] at hn; omega⟩
    rw [readElements, mapM_cons, id]
    cases hrest with
    | nil =>
      rw [intercalate_singleton, ht.reads m _ (hm t mem_cons_self)
        (isToken_ends (mem_cons_of_mem _ hclose))]
      cases r with
      | none => rfl
      | some v => simp [skip_token htoken.1, htoken.2]
    | @cons t' r' texts results ht' hrest =>
      rw [intercalate_cons_cons, append_assoc, append_assoc, singleton_append,
        ht.reads m _ (hm t mem_cons_self) (isToken_ends mem_cons_self)]
      cases r with
      | none => rfl
      | some v =>
        have hih := ih (cons_ne_nil _ _) (fun t h => hm t (mem_cons_of_mem _ h))
          (Nat.le_of_succ_le_succ hn)
        have hcomma : isToken ',' = true := by decide
        simp only [Option.map_some, Option.bind_some, skip_token hcomma, if_true, hih]
        cases ((r' :: results).mapM id) <;> rfl

theorem readBrackets_intercalate
    (hclose : close ∈ [']', '\x7d']) {n : ℕ}
    (rest : Text) (hn : ([','].intercalate texts).length + 1 < n) :
    readBrackets close (reader n) n ([','].intercalate texts ++ close :: rest) =
      (results.mapM id).map fun vs => (vs, rest) := by
  have htoken : isToken close = true := by
    revert close
    simp [isToken, isBlank]
  unfold readBrackets
  cases h with
  | nil =>
    rw [intercalate_nil, nil_append, skip_token htoken]
    simp
  | @cons t r texts results ht hrest =>
    obtain ⟨c, s, rfl, hc, hbracket, hbrace⟩ := ht.begins
    have hlength := length_add_le_intercalate (mem_cons_self (a := c :: s) (l := texts))
    have hread := readElements_intercalate (.cons ht hrest) (cons_ne_nil _ _) hclose
      (m := n) (n := n) (fun t h => (Nat.le_add_right _ _).trans_lt
        ((length_add_le_intercalate h).trans_lt hn)) (by omega) rest
    obtain ⟨s', hs'⟩ : ∃ s', [','].intercalate ((c :: s) :: texts) ++ close :: rest = c :: s' := by
      cases texts with
      | nil => exact ⟨s ++ close :: rest, by simp [intercalate_singleton]⟩
      | cons t' texts =>
        exact ⟨s ++ ',' :: ([','].intercalate (t' :: texts) ++ close :: rest),
          by simp [intercalate_cons_cons]⟩
    have hne : c ≠ close := by
      rintro rfl
      simp [hbracket, hbrace] at hclose
    rw [hs'] at hread ⊢
    rw [skip_token hc, Option.bind_some, if_neg (by simpa using hne), hread]

theorem zero_notMem_intercalate :
    '\x00' ∉ [','].intercalate texts := by
  induction h with
  | nil => exact not_mem_nil
  | @cons t r texts results ht hrest ih =>
    cases texts with
    | nil => exact intercalate_singleton ▸ ht.noZero
    | cons t' texts =>
      rw [intercalate_cons_cons, mem_append, mem_append]
      rintro ((hmem | hmem) | hmem)
      · exact ht.noZero hmem
      · revert hmem
        decide
      · exact ih hmem

/-- Elements between brackets that `readValue` leaves to `readBrackets`. -/
theorem reads_brackets {start : Char} {wrap : List α → Document}
    (hclose : close ∈ [']', '\x7d']) (hstart : start ∈ ['[', '\x7b'])
    (hvalue : ∀ n s, readValue (n + 1) (start :: s) =
      (readBrackets close (reader n) n s).map fun (vs, s) => (wrap vs, s)) :
    Reads readValue (start :: ([','].intercalate texts ++ [close]))
      ((results.mapM id).map wrap) where
  begins := by
    have hall : ∀ c ∈ ['[', '\x7b'], isToken c = true ∧ c ≠ ']' ∧ c ≠ '\x7d' := by
      simp [isToken, isBlank]
    exact ⟨_, _, rfl, hall start hstart⟩
  noZero := by
    have hall : ∀ c ∈ ['[', '\x7b', ']', '\x7d'], '\x00' ≠ c := by simp
    simp only [mem_cons, mem_append, not_mem_nil, or_false, not_or]
    exact ⟨hall _ (mem_append_left [']', '\x7d'] hstart), zero_notMem_intercalate h,
      hall _ (mem_append_right ['[', '\x7b'] hclose)⟩
  reads := by
    intro n rest hn _
    obtain ⟨n, rfl⟩ : ∃ k, n = k + 1 := ⟨n - 1, by omega⟩
    have hread := readBrackets_intercalate h hclose (n := n) rest
      (by simp only [length_cons, length_append, length_nil] at hn; omega)
    simp only [cons_append, append_assoc, nil_append, hvalue, hread, Option.map_map]
    rfl

end

end Elements

variable {texts : List Text}

theorem reads_array {results : List (Option Document)}
    (h : Forall₂ (Reads readValue) texts results) :
    Reads readValue ('[' :: ([','].intercalate texts ++ [']']))
      ((results.mapM id).map .array) := by
  refine reads_brackets h (by decide) (by decide) fun n s => ?_
  rw [readValue, skip_token (by decide)]
  simp

theorem reads_object {results : List (Option (Text × Document))}
    (h : Forall₂ (Reads fun n => readMember (readValue n)) texts results) :
    Reads readValue ('\x7b' :: ([','].intercalate texts ++ ['\x7d']))
      ((results.mapM id).map .object) := by
  refine reads_brackets h (by decide) (by decide) fun n s => ?_
  rw [readValue, skip_token (by decide)]
  simp

theorem zero_notMem_escape (s : Text) : '\x00' ∉ escape s := by
  rw [escape, mem_flatMap]
  rintro ⟨c, -, hmem⟩
  unfold escapeChar at hmem
  split at hmem
  · rename_i e hlookup
    have hall : ∀ p ∈ escapes, '\x00' ∉ ['\\', p.2] := by decide
    obtain ⟨before, behind, hsplit, -⟩ := lookup_eq_some_iff.mp hlookup
    exact hall (c, e) (hsplit ▸ mem_append_right _ mem_cons_self) hmem
  · split at hmem
    · rename_i hlt
      have hall : ∀ n < 32,
          '\x00' ∉ ['\\', 'u', '0', '0', hexDigit (n / 16), hexDigit (n % 16)] := by
        decide
      exact hall _ hlt hmem
    · rename_i hle
      rw [← mem_singleton.mp hmem] at hle
      exact hle (by decide)

/-- A text between quotes is read back if it is UTF-8. -/
theorem reads_string (s : Text) :
    Reads readValue ('"' :: (escape s ++ ['"']))
      (if isUtf8 0 s then some (.string s) else none) where
  begins := ⟨_, _, rfl, by decide, by decide, by decide⟩
  noZero := by simp [zero_notMem_escape]
  reads := by
    intro n rest hn _
    obtain ⟨n, rfl⟩ : ∃ k, n = k + 1 := ⟨n - 1, by omega⟩
    rw [cons_append, readValue, skip_token (by decide)]
    simp only [append_assoc, singleton_append, Option.bind_some, if_true, lexString_escape]
    cases isUtf8 0 s with
    | false => rfl
    | true => simp [decode_escape]

theorem reads_member {t : Text} {result : Option Document} (key : Text)
    (h : Reads readValue t result) :
    Reads (fun n => readMember (readValue n)) ('"' :: (escape key ++ '"' :: ':' :: t))
      (if isUtf8 0 key then result.map fun v => (key, v) else none) where
  begins := ⟨_, _, rfl, by decide, by decide, by decide⟩
  noZero := by simp [zero_notMem_escape, h.noZero]
  reads := by
    intro n rest hn hrest
    have hcolon : isToken ':' = true := by decide
    have hread := h.reads n rest (by simp only [length_cons, length_append] at hn; omega) hrest
    simp only [readMember, cons_append, append_assoc, skip_token (c := '"') (by decide),
      Option.bind_some, head?_cons, tail_cons, if_true, lexString_escape]
    cases isUtf8 0 key with
    | false => rfl
    | true =>
      simp only [if_true, Option.bind_some, skip_token hcolon, head?_cons, tail_cons, hread,
        decode_escape, Option.map_map]
      rfl

/-- A whole number is written with digits behind its sign. -/
theorem integerText_chars {n : ℤ} {c : Char} (h : c ∈ integerText n) :
    c.isDigit = true ∨ c = '-' := by
  have hdigit (h : c ∈ decimal n.natAbs) : c.isDigit = true :=
    Nat.isDigit_of_mem_toDigits (by decide) (by decide) h
  unfold integerText at h
  split at h
  · exact (mem_cons.mp h).elim .inr fun h => .inl (hdigit h)
  · exact .inl (hdigit h)

theorem reads_integer (n : ℤ) : Reads readValue (integerText n) (some (.integer n)) := by
  obtain ⟨c, s, htext⟩ : ∃ c s, integerText n = c :: s := by
    refine exists_cons_of_ne_nil ?_
    unfold integerText
    split
    · exact cons_ne_nil _ _
    · exact decimal_ne_nil _
  have hne : ∀ d, d.isDigit = false → d ≠ '-' → c ≠ d := by
    rintro d hdigit hminus rfl
    have hc : c.isDigit = true ∨ c = '-' := integerText_chars (htext ▸ mem_cons_self)
    rw [hdigit] at hc
    exact hc.elim Bool.false_ne_true hminus
  have htoken : isToken c = true := by
    have hblank : isBlank c = false := by
      simp only [isBlank, decide_eq_false_iff_not, mem_cons, not_mem_nil, or_false, not_or]
      refine ⟨?_, ?_, ?_, ?_, ?_, ?_⟩ <;> exact hne _ (by decide) (by decide)
    rw [isToken, hblank, decide_eq_true (hne '/' (by decide) (by decide))]
    rfl
  refine ⟨⟨c, s, htext, htoken, hne _ (by decide) (by decide),
    hne _ (by decide) (by decide)⟩, fun hmem => ?_, fun m rest hm hrest => ?_⟩
  · exact (integerText_chars hmem).elim (by decide) (by decide)
  · obtain ⟨m, rfl⟩ : ∃ k, m = k + 1 := ⟨m - 1, by omega⟩
    have hnumber := lexNumber_integerText n hrest
    rw [htext, cons_append] at hnumber ⊢
    rw [readValue, skip_token htoken, Option.bind_some]
    simp only [hne '"' (by decide) (by decide), hne '[' (by decide) (by decide),
      hne '\x7b' (by decide) (by decide), hne 't' (by decide) (by decide),
      hne 'f' (by decide) (by decide), hne 'n' (by decide) (by decide), if_false, hnumber,
      Option.map_some]

/-- A text of one value is read as a whole. -/
theorem Reads.treeParse {t : Text} {result : Option Document} (h : Reads readValue t result) :
    treeParse t = result := by
  have hread := h.reads (t.length + 1) [] (Nat.lt_succ_self _) (by rintro _ ⟨⟩)
  rw [append_nil] at hread
  rw [Json.treeParse, cString_of_notMem h.noZero, hread]
  cases result with
  | none => rfl
  | some v => rfl

end Idgs.Common.Json
