import Idgs.Net.HttpRequestParser

/-!
# The grammar of requests

A request is METHOD SP URI SP `HTTP/` digits `.` digits CRLF, header lines and CRLF. A header line
is name `:` SP value CRLF, and it may be followed by continuation lines, which begin with SP or TAB
and whose text goes on with the value. The parser takes these texts and, for the URI, also the empty
one.
-/

namespace Idgs.Net.HttpRequestParser

open Idgs.Common Idgs.Protobuf List

/-! ## Texts -/

/-- A line of the header section; a continuation goes on after its blanks with `content`. -/
inductive HeaderLine
  | header (name value : List Int8)
  | continuation (blank : Int8) (blanks content : List Int8)

def HeaderLine.bytes : HeaderLine → List Int8
  | .header name value => name ++ colon :: space :: (value ++ [cr, lf])
  | .continuation blank blanks content => blank :: (blanks ++ (content ++ [cr, lf]))

/-- Names are tokens, values have no control characters. -/
def HeaderLine.WellFormed : HeaderLine → Prop
  | .header name value => name ≠ [] ∧ (∀ c ∈ name, isToken c = true) ∧ ∀ c ∈ value, isValue c = true
  | .continuation blank blanks content =>
    isBlank blank = true ∧ (∀ c ∈ blanks, isBlank c = true) ∧ (∀ c ∈ content, isValue c = true) ∧
      ∀ c, content.head? = some c → isBlank c = false

/-- What a line adds to the headers before it. -/
def HeaderLine.addTo (headers : List HttpHeader) : HeaderLine → List HttpHeader
  | .header name value => headers ++ [⟨name, value⟩]
  | .continuation _ _ content =>
    modifyBack (fun h => { h with header_value := h.header_value ++ content }) headers

def startsWithContinuation : List HeaderLine → Prop
  | .continuation .. :: _ => True
  | _ => False

/-- The parts of a request. -/
structure RequestText where
  method : List Int8
  uri : List Int8
  major : List Int8
  minor : List Int8
  lines : List HeaderLine

namespace RequestText

/-- From the version on. -/
def versionBytes (text : RequestText) : List Int8 :=
  letterH :: letterT :: letterT :: letterP :: slash ::
    (text.major ++ dot ::
    (text.minor ++ cr :: lf :: (text.lines.flatMap HeaderLine.bytes ++ [cr, lf])))

def bytes (text : RequestText) : List Int8 :=
  text.method ++ space :: (text.uri ++ space :: text.versionBytes)

/-- What the grammar asks for, but that there is a URI. -/
structure Lenient (text : RequestText) : Prop where
  method_ne : text.method ≠ []
  method : ∀ c ∈ text.method, isToken c = true
  uri : ∀ c ∈ text.uri, isUri c = true
  major_ne : text.major ≠ []
  major : ∀ c ∈ text.major, isNumeral c = true
  minor_ne : text.minor ≠ []
  minor : ∀ c ∈ text.minor, isNumeral c = true
  lines : ∀ line ∈ text.lines, line.WellFormed
  first : ¬ startsWithContinuation text.lines

/-- The grammar. -/
structure WellFormed (text : RequestText) : Prop extends text.Lenient where
  uri_ne : text.uri ≠ []

/-- The request that the grammar reads. -/
def request (text : RequestText) : HttpRequest where
  method := text.method
  uri := text.uri
  http_version_major := number text.major
  http_version_minor := number text.minor
  headers := text.lines.foldl HeaderLine.addTo []

/-- The request that the parser writes, whose version numbers are of type `int`. -/
def parsed (text : RequestText) : HttpRequest :=
  { text.request with
    http_version_major := toInt32 (number text.major), http_version_minor :=
      toInt32 (number text.minor) }

end RequestText

/-- The requests of the grammar. -/
def InGrammar (w : List Int8) : Prop := ∃ text : RequestText, text.WellFormed ∧ text.bytes = w

/-- The parser reports what the grammar says, and a complete request is as the grammar reads it. -/
def AsGrammar (chunks : List (List Int8)) : Prop :=
  Judged InGrammar chunks.flatten (parseChunks chunks).1 (parseChunks chunks).2.2 ∧
    ((parseChunks chunks).1 = .complete → ∀ text : RequestText, text.WellFormed →
      chunks.flatten = text.bytes ++ (parseChunks chunks).2.2 →
      (parseChunks chunks).2.1.2 = text.request)

/-- After the method there are two spaces. -/
def EmptyUri (w : List Int8) : Prop :=
  ∃ method : List Int8, method ≠ [] ∧ (∀ c ∈ method, isToken c = true) ∧
    method ++ [space, space] <+: w

/-! ## The request line -/

section RequestLine

variable (req : HttpRequest)

theorem loop_method :
    LoopUntil consume isToken (fun m => (.method, { req with method := m })) space
      (fun m => (.uri, { req with method := m })) where
  step taken a := by
    simp only [consume, not_isToken]
    cases isToken a <;> rfl
  token_end := rfl

theorem loop_uri :
    LoopUntil consume isUri (fun u => (.uri, { req with uri := u })) space
      (fun u => (.http_version_h, { req with uri := u })) where
  step taken a := by
    by_cases ha : a = space
    · simp [consume, ha]
    · cases h : isCtl a.toInt <;> simp [consume, isUri, ha, h]
  token_end := rfl

theorem loop_major :
    LoopUntil consume isNumeral
    (fun ds => (.http_version_major, { req with http_version_major := toInt32 (number ds) }))
      dot (fun ds =>
        (.http_version_minor_start, { req with http_version_major := toInt32 (number ds) })) where
  step taken a := by
    simp only [consume, isNumeral, number, foldl_append, foldl_cons, foldl_nil, addDigit_toInt32]
  token_end := rfl

theorem loop_minor :
    LoopUntil consume isNumeral
    (fun ds => (.http_version_minor, { req with http_version_minor := toInt32 (number ds) }))
      cr (fun ds =>
        (.expecting_newline_1, { req with http_version_minor := toInt32 (number ds) })) where
  step taken a := by
    simp only [consume, isNumeral, number, foldl_append, foldl_cons, foldl_nil, addDigit_toInt32]
  token_end := rfl

/-- A number is not negative and is an `int` if it is below 2^31. -/
theorem number_nonneg {digits : List Int8} (h : ∀ c ∈ digits, isNumeral c = true) :
    0 ≤ number digits := by
  induction digits using List.reverseRecOn with
  | nil => exact le_refl 0
  | append_singleton digits d ih =>
    have hd : isNumeral d = true := h d (by simp)
    have hdigits := ih fun c hc => h c (mem_append_left _ hc)
    simp only [isNumeral, isDigit, Bool.and_eq_true, decide_eq_true_eq] at hd
    simp only [number, foldl_append, foldl_cons, foldl_nil] at hdigits ⊢
    omega

theorem toInt32_number_eq_iff {digits : List Int8} (h : ∀ c ∈ digits, isNumeral c = true) :
    toInt32 (number digits) = number digits ↔ number digits < 2 ^ 31 := by
  have := number_nonneg h
  unfold toInt32 Int.bmod
  dsimp only
  split <;> omega

theorem begins_method :
    Begins consume isToken (.method_start, { req with method := [] })
      (fun m => (.method, { req with method := m })) := by
  intro a
  simp only [consume, not_isToken]
  cases isToken a <;> rfl

theorem begins_major :
    Begins consume isNumeral (.http_version_major_start, { req with http_version_major := 0 })
      (fun ds =>
        (.http_version_major, { req with http_version_major := toInt32 (number ds) })) := by
  intro a
  simp only [consume, isNumeral, number, foldl_cons, foldl_nil]
  rw [← addDigit_toInt32 0 a]
  rfl

theorem begins_minor :
    Begins consume isNumeral (.http_version_minor_start, { req with http_version_minor := 0 })
      (fun ds =>
        (.http_version_minor, { req with http_version_minor := toInt32 (number ds) })) := by
  intro a
  simp only [consume, isNumeral, number, foldl_cons, foldl_nil]
  rw [← addDigit_toInt32 0 a]
  rfl

theorem expects_h : Expects consume (.http_version_h, req) letterH (.http_version_t_1, req) :=
  fun _ => rfl

theorem expects_t_1 : Expects consume (.http_version_t_1, req) letterT (.http_version_t_2, req) :=
  fun _ => rfl

theorem expects_t_2 : Expects consume (.http_version_t_2, req) letterT (.http_version_p, req) :=
  fun _ => rfl

theorem expects_p : Expects consume (.http_version_p, req) letterP (.http_version_slash, req) :=
  fun _ => rfl

theorem expects_slash :
    Expects consume (.http_version_slash, req) slash
      (.http_version_major_start, { req with http_version_major := 0, http_version_minor := 0 }) :=
      fun _ => rfl

theorem expects_newline_1 :
    Expects consume (.expecting_newline_1, req) lf (.header_line_start, req) := fun _ => rfl

theorem expects_newline_2 :
    Expects consume (.expecting_newline_2, req) lf (.header_line_start, req) := fun _ => rfl

/-- The version, up to the first header line. -/
theorem scan_version {major minor : List Int8} (hmajor : major ≠ [])
    (hmajors : ∀ c ∈ major, isNumeral c = true)
    (hminor : minor ≠ []) (hminors : ∀ c ∈ minor, isNumeral c = true) (w : List Int8) :
    scan consume (.http_version_h, req) (letterH :: letterT :: letterT :: letterP :: slash ::
        (major ++ dot :: (minor ++ cr :: lf :: w))) =
      scan consume (.header_line_start,
        { req with
          http_version_major := toInt32 (number major), http_version_minor :=
          toInt32 (number minor) }) w := by
  rw [(expects_h _).scan_cons, (expects_t_1 _).scan_cons, (expects_t_2 _).scan_cons,
    (expects_p _).scan_cons,
    (expects_slash _).scan_cons,
    (begins_major { req with http_version_minor := 0 }).scan_append (loop_major _) hmajor hmajors,
    (begins_minor { req with http_version_major := toInt32 (number major) }).scan_append
    (loop_minor _) hminor hminors,
    (expects_newline_1 _).scan_cons]

/-- What is accepted from the version on. -/
theorem accepts_version {w : List Int8} {s' : State × HttpRequest}
    (h : Accepts consume (.http_version_h, req) w s') :
    ∃ major minor w', w = letterH :: letterT :: letterT :: letterP :: slash ::
        (major ++ dot :: (minor ++ cr :: lf :: w')) ∧
      (major ≠ [] ∧ ∀ c ∈ major, isNumeral c = true) ∧
      (minor ≠ [] ∧ ∀ c ∈ minor, isNumeral c = true) ∧
      Accepts consume (.header_line_start,
        { req with
          http_version_major := toInt32 (number major), http_version_minor :=
          toInt32 (number minor) })
        w' s' := by
  obtain ⟨w, rfl, h⟩ := (expects_h _).accepts h
  obtain ⟨w, rfl, h⟩ := (expects_t_1 _).accepts h
  obtain ⟨w, rfl, h⟩ := (expects_t_2 _).accepts h
  obtain ⟨w, rfl, h⟩ := (expects_p _).accepts h
  obtain ⟨w, rfl, h⟩ := (expects_slash _).accepts h
  obtain ⟨major, w, rfl, hmajor, hmajors, h⟩ :=
    (begins_major { req with http_version_minor := 0 }).accepts (loop_major _) h
  obtain ⟨minor, w, rfl, hminor, hminors, h⟩ :=
    (begins_minor { req with http_version_major := toInt32 (number major) }).accepts
    (loop_minor _) h
  obtain ⟨w, rfl, h⟩ := (expects_newline_1 _).accepts h
  exact ⟨major, minor, w, rfl, ⟨hmajor, hmajors⟩, ⟨hminor, hminors⟩, h⟩

end RequestLine

/-! ## The header lines -/

section HeaderLines

variable (req : HttpRequest) (headers : List HttpHeader)

theorem loop_name :
    LoopUntil consume isToken
    (fun n => (.header_name, { req with headers := headers ++ [⟨n, []⟩] })) colon
      (fun n => (.space_before_header_value, { req with headers := headers ++ [⟨n, []⟩] })) where
  step taken a := by
    simp only [consume, not_isToken, modifyBack_concat, pushName]
    cases isToken a <;> rfl
  token_end := rfl

theorem loop_value (name : List Int8) :
    LoopUntil consume isValue
    (fun v => (.header_value, { req with headers := headers ++ [⟨name, v⟩] })) cr
      (fun v => (.expecting_newline_2, { req with headers := headers ++ [⟨name, v⟩] })) where
  step taken a := by
    rcases Bool.eq_false_or_eq_true (isCtl a.toInt) with h | h
    · simp [consume, isValue, h]
    · simp [consume, modifyBack_concat, pushValue, isValue, h]
  token_end := rfl

theorem expects_space_before (name : List Int8) :
    Expects consume
    (.space_before_header_value, { req with headers := headers ++ [⟨name, []⟩] }) space
      (.header_value, { req with headers := headers ++ [⟨name, []⟩] }) := fun _ => rfl

theorem collects_lws : Collects consume isBlank (fun _ => (.header_lws, req)) := by
  intro _ a ha
  have hblank : a = space ∨ a = tab := of_decide_eq_true ha
  have hcr : a ≠ cr := ne_of_token ha rfl
  simp only [consume]
  rw [if_neg hcr, if_pos hblank]

theorem consume_lws_value (h : HttpHeader) {a : Int8} (ha : isBlank a = false)
    (hvalue : isValue a = true) :
    consume (.header_lws, { req with headers := headers ++ [h] }) a =
      (.indeterminate, .header_value,
        { req with headers := headers ++ [{ h with header_value := h.header_value ++ [a] }] }) := by
  have hblank : ¬ (a = space ∨ a = tab) := of_decide_eq_false ha
  have hcr : a ≠ cr := ne_of_token hvalue rfl
  have hctl : isCtl a.toInt = false := by simpa [isValue] using hvalue
  simp only [consume, modifyBack_concat, pushValue]
  rw [if_neg hcr, if_neg hblank, if_neg (by rw [hctl]; decide)]

/-- After the blanks of a continuation the value goes on. -/
theorem scan_lws {h : HttpHeader} {content : List Int8} (hcontent : ∀ c ∈ content, isValue c = true)
    (hhead : ∀ c, content.head? = some c → isBlank c = false) (w : List Int8) :
    scan consume (.header_lws, { req with headers := headers ++ [h] }) (content ++ cr :: w) =
      scan consume (.expecting_newline_2,
        { req with headers := headers ++ [{ h with header_value := h.header_value ++ content }] })
        w := by
  cases content with
  | nil =>
    have hstep : consume (.header_lws, { req with headers := headers ++ [h] }) cr =
        (.indeterminate, .expecting_newline_2, { req with headers := headers ++ [h] }) := rfl
    rw [append_nil]
    exact scan_cons_indeterminate hstep w
  | cons a content =>
    have ha := consume_lws_value req headers h (hhead a rfl) (hcontent a mem_cons_self)
    rw [cons_append, scan_cons_indeterminate ha,
      (loop_value req headers h.header_name).scan_append fun c hc =>
      hcontent c (mem_cons_of_mem _ hc),
      append_assoc]
    rfl

theorem accepts_lws {h : HttpHeader} {w : List Int8} {s' : State × HttpRequest}
    (hw : Accepts consume (.header_lws, { req with headers := headers ++ [h] }) w s') :
    ∃ blanks content w', w = blanks ++ (content ++ cr :: w') ∧ (∀ c ∈ blanks, isBlank c = true) ∧
      (∀ c ∈ content, isValue c = true) ∧ (∀ c, content.head? = some c → isBlank c = false) ∧
      Accepts consume (.expecting_newline_2,
        { req with headers := headers ++ [{ h with header_value := h.header_value ++ content }] })
        w' s' := by
  obtain ⟨blanks, a, w, rfl, hblanks, ha, hw⟩ :=
    (collects_lws { req with headers := headers ++ [h] }).accepts [] hw
  by_cases hcr : a = cr
  · subst hcr
    refine ⟨blanks, [], w, rfl, hblanks, fun c hc => (by cases hc), fun c hc => (by cases hc), ?_⟩
    rw [append_nil]
    exact hw
  · cases hvalue : isValue a with
    | true =>
      have hstep := consume_lws_value req headers h ha hvalue
      obtain ⟨content, w', rfl, hcontent, hrest⟩ :=
        (loop_value req headers h.header_name).accepts (accepts_of_indeterminate hstep hw)
      refine ⟨blanks, a :: content, w', rfl, hblanks, ?_, ?_, ?_⟩
      · rintro c (_ | ⟨_, hc⟩)
        · exact hvalue
        · exact hcontent c hc
      · rintro c ⟨⟩
        exact ha
      · rwa [append_assoc] at hrest
    | false =>
      have hblank : ¬ (a = space ∨ a = tab) := of_decide_eq_false ha
      have hctl : isCtl a.toInt = true := by simpa [isValue] using hvalue
      have hstep : consume (.header_lws, { req with headers := headers ++ [h] }) a =
          (.invalid, .header_lws, { req with headers := headers ++ [h] }) := by
        simp only [consume]
        rw [if_neg hcr, if_neg hblank, if_pos hctl]
      exact absurd hw (not_accepts_of_invalid hstep)

theorem consume_line_start_token {a : Int8} (ha : isToken a = true) :
    consume (.header_line_start, { req with headers := headers }) a =
      (.indeterminate, .header_name, { req with headers := headers ++ [⟨[a], []⟩] }) := by
  have hcr : a ≠ cr := ne_of_token ha rfl
  have hspace : a ≠ space := ne_of_token ha rfl
  have htab : a ≠ tab := ne_of_token ha rfl
  simp only [consume, not_isToken, modifyBack_concat, pushName]
  rw [if_neg hcr, if_neg fun h => h.2.elim hspace htab, if_neg (by rw [ha]; decide)]
  rfl

theorem consume_line_start_blank (hne : headers ≠ []) {a : Int8} (ha : isBlank a = true) :
    consume (.header_line_start, { req with headers := headers }) a =
      (.indeterminate, .header_lws, { req with headers := headers }) := by
  have hcr : a ≠ cr := ne_of_token ha rfl
  have hblank : a = space ∨ a = tab := of_decide_eq_true ha
  simp only [consume]
  rw [if_neg hcr, if_pos ⟨hne, hblank⟩]

/-- A line takes the parser from line start to line start. -/
theorem scan_line {line : HeaderLine} (h : line.WellFormed)
    (hfirst : headers = [] → ¬ startsWithContinuation [line]) (w : List Int8) :
    scan consume (.header_line_start, { req with headers := headers }) (line.bytes ++ w) =
      scan consume (.header_line_start, { req with headers := line.addTo headers }) w := by
  cases line with
  | header name value =>
    obtain ⟨hname, hnames, hvalues⟩ := h
    cases name with
    | nil => exact absurd rfl hname
    | cons a name =>
      have hstep := consume_line_start_token req headers (hnames a mem_cons_self)
      simp only [HeaderLine.bytes, cons_append, append_assoc, nil_append]
      rw [scan_cons_indeterminate hstep,
        (loop_name req headers).scan_append fun c hc => hnames c (mem_cons_of_mem _ hc),
        (expects_space_before req headers _).scan_cons,
        (loop_value req headers _).scan_append hvalues,
        (expects_newline_2 _).scan_cons]
      rfl
  | continuation blank blanks content =>
    obtain ⟨hblank, hblanks, hcontent, hhead⟩ := h
    rcases eq_nil_or_concat' headers with rfl | ⟨before, last, rfl⟩
    · exact absurd trivial (hfirst rfl)
    · have hstep := consume_line_start_blank req (before ++ [last]) (by simp) hblank
      simp only [HeaderLine.bytes, cons_append, append_assoc, nil_append]
      rw [scan_cons_indeterminate hstep, (collects_lws _).scan_append hblanks [],
        scan_lws req before hcontent hhead, (expects_newline_2 _).scan_cons, HeaderLine.addTo,
        modifyBack_concat]

theorem consume_line_start_invalid {a : Int8} (hcr : a ≠ cr) (htoken : isToken a = false)
    (hblank : headers = [] ∨ isBlank a = false) :
    consume (.header_line_start, { req with headers := headers }) a =
      (.invalid, .header_line_start, { req with headers := headers }) := by
  have hnone : ¬ (headers ≠ [] ∧ (a = space ∨ a = tab)) := by
    rintro ⟨hne, ha⟩
    rcases hblank with hnil | hblank
    · exact hne hnil
    · exact of_decide_eq_false hblank ha
  simp only [consume, not_isToken]
  rw [if_neg hcr, if_neg hnone, if_pos (by rw [htoken]; rfl)]

/-- After the last line only the end is accepted. -/
theorem accepts_newline_3 {w : List Int8} {s' : State × HttpRequest}
    (hw : Accepts consume (.expecting_newline_3, req) w s') :
    w = [lf] ∧ s' = (.expecting_newline_3, req) := by
  cases w with
  | nil => exact absurd hw not_accepts_nil
  | cons b w =>
    by_cases hlf : b = lf
    · subst hlf
      have hstep : consume (.expecting_newline_3, req) lf =
          (.complete, .expecting_newline_3, req) := rfl
      rcases accepts_cons hw with ⟨s'', hgoes, -⟩ | ⟨hstop, rfl⟩
      · rw [hstep] at hgoes
        cases hgoes
      · rw [hstep, Prod.mk.injEq] at hstop
        exact ⟨rfl, hstop.2.symm⟩
    · exact absurd hw (not_accepts_of_invalid (if_neg hlf))

/-- At a line start there is the end or another line. -/
theorem accepts_line {w : List Int8} {s' : State × HttpRequest}
    (hw : Accepts consume (.header_line_start, { req with headers := headers }) w s') :
    (w = [cr, lf] ∧ s' = (.expecting_newline_3, { req with headers := headers })) ∨
      ∃ line w', line.WellFormed ∧ (headers = [] → ¬ startsWithContinuation [line]) ∧
      w = line.bytes ++ w' ∧
        Accepts consume (.header_line_start, { req with headers := line.addTo headers }) w' s' := by
  cases w with
  | nil => exact absurd hw not_accepts_nil
  | cons a w =>
    by_cases hcr : a = cr
    · subst hcr
      obtain ⟨rfl, rfl⟩ := accepts_newline_3 _ (accepts_of_indeterminate rfl hw)
      exact .inl ⟨rfl, rfl⟩
    right
    cases htoken : isToken a with
    | true =>
      have hw := accepts_of_indeterminate (consume_line_start_token req headers htoken) hw
      obtain ⟨name, w, rfl, hname, hw⟩ := (loop_name req headers).accepts hw
      obtain ⟨w, rfl, hw⟩ := (expects_space_before req headers _).accepts hw
      obtain ⟨value, w, rfl, hvalue, hw⟩ := (loop_value req headers _).accepts hw
      obtain ⟨w, rfl, hw⟩ := (expects_newline_2 _).accepts hw
      refine ⟨.header (a :: name) value, w, ⟨cons_ne_nil _ _, ?_, hvalue⟩, fun _ h => h,
        ?_, hw⟩
      · rintro c (_ | ⟨_, hc⟩)
        · exact htoken
        · exact hname c hc
      · simp only [HeaderLine.bytes, cons_append, append_assoc, nil_append]
    | false =>
      by_cases hreject : headers = [] ∨ isBlank a = false
      · exact absurd hw
          (not_accepts_of_invalid (consume_line_start_invalid req headers hcr htoken hreject))
      · obtain ⟨hne, hblank⟩ := not_or.mp hreject
        rw [Bool.not_eq_false] at hblank
        have hw := accepts_of_indeterminate (consume_line_start_blank req headers hne hblank) hw
        rcases eq_nil_or_concat' headers with rfl | ⟨before, last, rfl⟩
        · exact absurd rfl hne
        obtain ⟨blanks, content, w, rfl, hblanks, hcontent, hhead, hw⟩ :=
          accepts_lws req before hw
        obtain ⟨w, rfl, hw⟩ := (expects_newline_2 _).accepts hw
        refine ⟨.continuation a blanks content, w, ⟨hblank, hblanks, hcontent, hhead⟩,
          fun hnil => absurd hnil hne, ?_, ?_⟩
        · simp only [HeaderLine.bytes, cons_append, append_assoc, nil_append]
        · rwa [HeaderLine.addTo, modifyBack_concat]

/-- Every line adds to the headers. -/
theorem HeaderLine.addTo_ne_nil {headers : List HttpHeader} {line : HeaderLine}
    (hfirst : headers = [] → ¬ startsWithContinuation [line]) : line.addTo headers ≠ [] := by
  cases line with
  | header name value => exact append_ne_nil_of_right_ne_nil _ (cons_ne_nil _ _)
  | continuation blank blanks content =>
    rcases eq_nil_or_concat' headers with rfl | ⟨before, last, rfl⟩
    · exact absurd trivial (hfirst rfl)
    · rw [HeaderLine.addTo, modifyBack_concat]
      exact append_ne_nil_of_right_ne_nil _ (cons_ne_nil _ _)

theorem scan_lines {lines : List HeaderLine} (h : ∀ line ∈ lines, line.WellFormed)
    (hfirst : headers = [] → ¬ startsWithContinuation lines) (w : List Int8) :
    scan consume (.header_line_start, { req with headers := headers })
    (lines.flatMap HeaderLine.bytes ++ w) =
      scan consume
      (.header_line_start, { req with headers := lines.foldl HeaderLine.addTo headers }) w := by
  induction lines generalizing headers with
  | nil => rfl
  | cons line lines ih =>
    have hline : headers = [] → ¬ startsWithContinuation [line] := by
      intro hnil hstarts
      apply hfirst hnil
      cases line with
      | header => exact hstarts
      | continuation => trivial
    rw [flatMap_cons, append_assoc, scan_line req headers (h line mem_cons_self) hline,
      ih _ (fun l hl => h l (mem_cons_of_mem _ hl)) fun hnil =>
      absurd hnil (HeaderLine.addTo_ne_nil hline)]
    rfl

/-- What is accepted from the header lines on. -/
theorem accepts_lines {w : List Int8} {s' : State × HttpRequest}
    (hw : Accepts consume (.header_line_start, { req with headers := headers }) w s') :
    ∃ lines, (∀ line ∈ lines, line.WellFormed) ∧ (headers = [] → ¬ startsWithContinuation lines) ∧
      w = lines.flatMap HeaderLine.bytes ++ [cr, lf] ∧
      s' = (.expecting_newline_3,
      { req with headers := lines.foldl HeaderLine.addTo headers }) := by
  induction hlen : w.length using Nat.strong_induction_on generalizing w headers with
  | _ n ih =>
    rcases accepts_line req headers hw with ⟨rfl, rfl⟩ | ⟨line, w', hline, hfirst, rfl, hw'⟩
    · exact ⟨[], fun l hl => (by cases hl), fun _ h => h, rfl, rfl⟩
    · have hshorter : w'.length < n := by
        cases line <;> simp only [HeaderLine.bytes, length_append, length_cons] at hlen <;> omega
      obtain ⟨lines, hlines, -, rfl, rfl⟩ := ih _ hshorter _ hw' rfl
      refine ⟨line :: lines, ?_, ?_, ?_, rfl⟩
      · rintro l (_ | ⟨_, hl⟩)
        · exact hline
        · exact hlines l hl
      · intro hnil hstarts
        apply hfirst hnil
        cases line with
        | header => exact hstarts
        | continuation => trivial
      · rw [flatMap_cons, append_assoc]

end HeaderLines

/-! ## The parser and the texts it takes -/

/-- The parser takes every text, also without a URI, and nothing after it. -/
theorem scan_bytes {text : RequestText} (h : text.Lenient) (w : List Int8) :
    scan consume (.method_start, .new)
    (text.bytes ++ w) = (.complete, (.expecting_newline_3, text.parsed), w) := by
  have hmethod : ∀ v, scan consume (.method_start, .new) (text.method ++ space :: v) =
      scan consume (.uri, ⟨text.method, [], 1, 1, []⟩) v :=
    (begins_method .new).scan_append (loop_method _) h.method_ne h.method
  have huri : ∀ v, scan consume (.uri, ⟨text.method, [], 1, 1, []⟩) (text.uri ++ space :: v) =
      scan consume (.http_version_h, ⟨text.method, text.uri, 1, 1, []⟩) v :=
    (loop_uri ⟨text.method, [], 1, 1, []⟩).scan_append h.uri []
  have hlines :=
    scan_lines ⟨text.method, text.uri, toInt32 (number text.major), toInt32 (number text.minor),
    []⟩ []
    h.lines (fun _ => h.first) (cr :: lf :: w)
  simp only [RequestText.bytes, RequestText.versionBytes, append_assoc, cons_append, nil_append]
  rw [hmethod, huri, scan_version _ h.major_ne h.major h.minor_ne h.minor, hlines]
  rfl

/-- What the parser takes is a text, and the request is what the text says, up to the range of
`int`. -/
theorem exists_text_of_accepts {w : List Int8} {s' : State × HttpRequest}
    (hw : Accepts consume (.method_start, .new) w s') :
    ∃ text : RequestText,
    text.Lenient ∧ text.bytes = w ∧ s' = (.expecting_newline_3, text.parsed) := by
  obtain ⟨method, w, rfl, hmethod, hmethods, hw⟩ := (begins_method .new).accepts (loop_method _) hw
  obtain ⟨uri, w, rfl, huri, hw⟩ := (loop_uri ⟨method, [], 1, 1, []⟩).accepts hw
  obtain ⟨major, minor, w, rfl, ⟨hmajor, hmajors⟩, ⟨hminor, hminors⟩, hw⟩ :=
    accepts_version ⟨method, uri, 1, 1, []⟩ hw
  obtain ⟨lines, hlines, hfirst, rfl, rfl⟩ :=
    accepts_lines ⟨method, uri, toInt32 (number major), toInt32 (number minor), []⟩ [] hw
  exact ⟨⟨method, uri, major, minor, lines⟩,
    ⟨hmethod, hmethods, huri, hmajor, hmajors, hminor, hminors, hlines, hfirst rfl⟩, rfl, rfl⟩

/-! ## The way to the end -/

/-- From each state there is a way to the end; a URI gets a character. -/
def ending : State → List Int8
  | .method_start =>
    [letterP, space, slash, space, letterH, letterT, letterT, letterP, slash, 49, dot, 48, cr, lf,
      cr, lf]
  | .method =>
    [space, slash, space, letterH, letterT, letterT, letterP, slash, 49, dot, 48, cr, lf, cr, lf]
  | .uri_start | .uri =>
    [slash, space, letterH, letterT, letterT, letterP, slash, 49, dot, 48, cr, lf, cr, lf]
  | .http_version_h => [letterH, letterT, letterT, letterP, slash, 49, dot, 48, cr, lf, cr, lf]
  | .http_version_t_1 => [letterT, letterT, letterP, slash, 49, dot, 48, cr, lf, cr, lf]
  | .http_version_t_2 => [letterT, letterP, slash, 49, dot, 48, cr, lf, cr, lf]
  | .http_version_p => [letterP, slash, 49, dot, 48, cr, lf, cr, lf]
  | .http_version_slash => [slash, 49, dot, 48, cr, lf, cr, lf]
  | .http_version_major_start => [49, dot, 48, cr, lf, cr, lf]
  | .http_version_major => [dot, 48, cr, lf, cr, lf]
  | .http_version_minor_start => [48, cr, lf, cr, lf]
  | .http_version_minor | .header_lws | .header_value => [cr, lf, cr, lf]
  | .expecting_newline_1 | .expecting_newline_2 => [lf, cr, lf]
  | .header_line_start => [cr, lf]
  | .header_name => [colon, space, cr, lf, cr, lf]
  | .space_before_header_value => [space, cr, lf, cr, lf]
  | .expecting_newline_3 => [lf]

/-- The states in which the URI is still open. -/
def beforeUri : State → Bool
  | .method_start | .method | .uri_start | .uri => true
  | _ => false

theorem accepts_ending (s : State) (req : HttpRequest) (h : beforeUri s = true ∨ req.uri ≠ []) :
    ∃ s', Accepts consume (s, req) (ending s) s' ∧ s'.2.uri ≠ [] := by
  have hgrown : req.uri ++ [slash] ≠ [] :=
    append_ne_nil_of_right_ne_nil _ (cons_ne_nil _ _)
  cases s with
  | method_start | method | uri_start | uri => exact ⟨_, rfl, hgrown⟩
  | _ => exact ⟨_, rfl, h.resolve_left (by decide)⟩

/-- A method. -/
def IsMethod (method : List Int8) : Prop := method ≠ [] ∧ ∀ c ∈ method, isToken c = true

/-- What has been consumed in a state. -/
def Consumed (u : List Int8) (s : State × HttpRequest) : Prop :=
  match s.1 with
  | .method_start => u = [] ∧ s.2.method = [] ∧ s.2.uri = []
  | .method => IsMethod s.2.method ∧ s.2.uri = [] ∧ u = s.2.method
  | .uri_start => False
  | .uri => IsMethod s.2.method ∧ u = s.2.method ++ space :: s.2.uri
  | _ => IsMethod s.2.method ∧ s.2.method ++ space :: (s.2.uri ++ [space]) <+: u

/-- After the URI the method and the URI stay. -/
theorem consume_afterUri {s s' : State × HttpRequest} {a : Int8} (hs : beforeUri s.1 = false)
    (h : consume s a = (.indeterminate, s')) :
    beforeUri s'.1 = false ∧ s'.2.method = s.2.method ∧ s'.2.uri = s.2.uri := by
  rcases s with ⟨s, req⟩
  cases s with
  | method_start | method | uri_start | uri => cases hs
  | _ =>
    simp only [consume] at h
    split_ifs at h <;> cases h <;> exact ⟨rfl, rfl, rfl⟩

theorem consumed_afterUri {u : List Int8} {s : State × HttpRequest} (hs : beforeUri s.1 = false) :
    Consumed u s ↔ IsMethod s.2.method ∧ s.2.method ++ space :: (s.2.uri ++ [space]) <+: u := by
  rcases s with ⟨s, req⟩
  cases s with
  | method_start | method | uri_start | uri => cases hs
  | _ => exact Iff.rfl

theorem IsMethod.concat {method : List Int8} {a : Int8} (h : ∀ c ∈ method, isToken c = true)
    (ha : isToken a = true) :
    IsMethod (method ++ [a]) := by
  refine ⟨append_ne_nil_of_right_ne_nil _ (cons_ne_nil _ _), fun c hc => ?_⟩
  rcases mem_append.mp hc with hc | hc
  · exact h c hc
  · rw [mem_singleton.mp hc]
    exact ha

theorem consumed_step {u : List Int8} {s s' : State × HttpRequest} {a : Int8} (hu : Consumed u s)
    (h : consume s a = (.indeterminate, s')) : Consumed (u ++ [a]) s' := by
  cases hs : beforeUri s.1 with
  | false =>
    obtain ⟨hs', hmethod, huri⟩ := consume_afterUri hs h
    rw [consumed_afterUri hs] at hu
    rw [consumed_afterUri hs', hmethod, huri]
    exact ⟨hu.1, hu.2.trans (prefix_append _ _)⟩
  | true =>
    rcases s with ⟨s, req⟩
    cases s with
    | method_start =>
      obtain ⟨rfl, hmethod, huri⟩ := hu
      simp only [consume, not_isToken] at h
      split_ifs at h with ha <;> cases h
      rw [Bool.not_eq_true, Bool.not_eq_false'] at ha
      change IsMethod (req.method ++ [a]) ∧ req.uri = [] ∧ [a] = req.method ++ [a]
      rw [show req.method = [] from hmethod]
      exact ⟨.concat (fun c hc => by cases hc) ha, huri, rfl⟩
    | method =>
      obtain ⟨hmethod, huri, rfl⟩ := hu
      simp only [consume, not_isToken] at h
      split_ifs at h with hspace ha <;> cases h
      · subst hspace
        change IsMethod req.method ∧ req.method ++ [space] = req.method ++ space :: req.uri
        rw [show req.uri = [] from huri]
        exact ⟨hmethod, rfl⟩
      · rw [Bool.not_eq_true, Bool.not_eq_false'] at ha
        exact ⟨.concat hmethod.2 ha, huri, rfl⟩
    | uri_start => exact absurd hu id
    | uri =>
      obtain ⟨hmethod, rfl⟩ := hu
      simp only [consume] at h
      split_ifs at h with hspace <;> cases h
      · subst hspace
        refine ⟨hmethod, ?_⟩
        change req.method ++ space :: (req.uri ++ [space]) <+: req.method ++ space :: req.uri ++
          [space]
        rw [append_assoc]
        exact prefix_refl _
      · refine ⟨hmethod, ?_⟩
        change req.method ++ space :: req.uri ++ [a] = req.method ++ space :: (req.uri ++ [a])
        rw [append_assoc]
        rfl
    | _ => cases hs

/-- What has been consumed without stopping can be continued to a request of the grammar, unless the
URI is empty. -/
theorem exists_continuation {w u : List Int8} {s : State × HttpRequest} (hw : ¬ EmptyUri w)
    (hpre : u <+: w) (h : scan consume (.method_start, .new) u = (.indeterminate, s, [])) :
    ∃ more, InGrammar (u ++ more) := by
  have hinit : Consumed [] (.method_start, .new) := ⟨rfl, rfl, rfl⟩
  have hu : Consumed u s := scan_invariant hinit (fun u s₁ a s₂ => consumed_step) h
  have hopen : beforeUri s.1 = true ∨ s.2.uri ≠ [] := by
    cases hs : beforeUri s.1 with
    | true => exact .inl rfl
    | false =>
      obtain ⟨hmethod, htaken⟩ := (consumed_afterUri hs).mp hu
      right
      intro hnil
      rw [hnil] at htaken
      exact hw ⟨s.2.method, hmethod.1, hmethod.2, htaken.trans hpre⟩
  obtain ⟨s', hs', huri⟩ := accepts_ending s.1 s.2 hopen
  have haccepts : Accepts consume (.method_start, .new) (u ++ ending s.1) s' := by
    unfold Accepts
    rw [scan_append, h]
    exact hs'
  obtain ⟨text, htext, hbytes, rfl⟩ := exists_text_of_accepts haccepts
  exact ⟨ending s.1, text, ⟨htext, huri⟩, hbytes⟩

/-! ## The parser and the grammar -/

/-- After a method and two spaces there is no way to a request of the grammar. -/
theorem not_inGrammar_of_empty {method : List Int8} (h : ∀ c ∈ method, isToken c = true)
    (more : List Int8) :
    ¬ InGrammar (method ++ [space, space] ++ more) := by
  rintro ⟨text, htext, hbytes⟩
  rw [append_assoc] at hbytes
  obtain ⟨-, huri⟩ := tokens_unique (c := space) rfl htext.method h hbytes
  cases hcases : text.uri with
  | nil => exact htext.uri_ne hcases
  | cons a uri =>
    rw [hcases] at huri
    have ha : isUri a = true := htext.uri a (by rw [hcases]; exact mem_cons_self)
    rw [(List.cons.inj huri).1] at ha
    cases ha

theorem not_judged_of_emptyUri {chunks : List (List Int8)} (h : EmptyUri chunks.flatten) :
    ¬ Judged InGrammar chunks.flatten (parseChunks chunks).1 (parseChunks chunks).2.2 := by
  obtain ⟨method, hne, hmethod, hpre⟩ := h
  have hscan : scan consume (.method_start, .new) (method ++ [space, space]) =
      (.indeterminate, (.http_version_h, ⟨method, [], 1, 1, []⟩), []) :=
    (begins_method .new).scan_append (loop_method _) hne hmethod [space]
  unfold parseChunks
  rw [scanChunks_eq]
  exact not_judged_scan hscan hpre (not_inGrammar_of_empty hmethod)

theorem judged_of_not_emptyUri {chunks : List (List Int8)} (h : ¬ EmptyUri chunks.flatten) :
    Judged InGrammar chunks.flatten (parseChunks chunks).1 (parseChunks chunks).2.2 := by
  unfold parseChunks
  rw [scanChunks_eq]
  refine judged_scan ?_ ?_ fun u s' hpre hu => exists_continuation h hpre hu
  · rintro u ⟨text, htext, rfl⟩
    have hscan := scan_bytes htext.toLenient []
    rw [append_nil] at hscan
    exact ⟨_, hscan⟩
  · intro u s' hpre hu
    obtain ⟨text, htext, rfl, -⟩ := exists_text_of_accepts hu
    refine ⟨text, ⟨htext, fun hnil => h ⟨text.method, htext.method_ne, htext.method, ?_⟩⟩, rfl⟩
    refine List.IsPrefix.trans ?_ hpre
    rw [RequestText.bytes, hnil]
    exact ⟨text.versionBytes, by rw [append_assoc]; rfl⟩

/-- A text at the beginning of the input is what is parsed. -/
theorem parseChunks_bytes {chunks : List (List Int8)} {text : RequestText} (h : text.Lenient)
    {rest : List Int8} (hinput : chunks.flatten = text.bytes ++ rest) :
    parseChunks chunks = (.complete, (.expecting_newline_3, text.parsed), rest) := by
  unfold parseChunks
  rw [scanChunks_eq, hinput, scan_bytes h]

theorem parsed_eq_request_iff {text : RequestText} (h : text.Lenient) :
    text.parsed = text.request ↔ number text.major < 2 ^ 31 ∧ number text.minor < 2 ^ 31 := by
  rw [← toInt32_number_eq_iff h.major, ← toInt32_number_eq_iff h.minor]
  constructor
  · intro heq
    exact ⟨congrArg HttpRequest.http_version_major heq, congrArg HttpRequest.http_version_minor heq⟩
  · rintro ⟨hmajor, hminor⟩
    rw [RequestText.parsed, hmajor, hminor]
    rfl

/-- For every input in any chunks: the parser accepts the grammar, stops as soon as it cannot be met
and reads what the grammar says if and only if the URI is not empty and the version numbers are in
the range of `int`. -/
theorem asGrammar_iff (chunks : List (List Int8)) :
    AsGrammar chunks ↔ ¬ EmptyUri chunks.flatten ∧
      ∀ text : RequestText, text.WellFormed → text.bytes <+: chunks.flatten →
        number text.major < 2 ^ 31 ∧ number text.minor < 2 ^ 31 := by
  constructor
  · rintro ⟨hjudged, hrequest⟩
    refine ⟨fun hempty => not_judged_of_emptyUri hempty hjudged, ?_⟩
    rintro text htext ⟨rest, hinput⟩
    have hparse := parseChunks_bytes htext.toLenient hinput.symm
    rw [hparse] at hrequest
    exact (parsed_eq_request_iff htext.toLenient).mp (hrequest rfl text htext hinput.symm)
  · rintro ⟨hempty, hsmall⟩
    refine ⟨judged_of_not_emptyUri hempty, fun _ text htext hinput => ?_⟩
    rw [parseChunks_bytes htext.toLenient hinput]
    exact (parsed_eq_request_iff htext.toLenient).mpr (hsmall text htext ⟨_, hinput.symm⟩)

/-- `GET  HTTP/1.0` without a URI, in two chunks, is complete. -/
theorem not_asGrammar :
    ¬ AsGrammar
    [[71, 69, 84, space, space, letterH, letterT],
      [letterT, letterP, slash, 49, dot, 48, cr, lf, cr, lf]] ∧
      (parseChunks [[71, 69, 84, space, space, letterH, letterT],
        [letterT, letterP, slash, 49, dot, 48, cr, lf, cr, lf]]).1 = .complete := by
  have hempty : EmptyUri [[71, 69, 84, space, space, letterH, letterT],
      [letterT, letterP, slash, 49, dot, 48, cr, lf, cr, lf]].flatten :=
    ⟨[71, 69, 84], List.cons_ne_nil _ _, by simp; exact ⟨rfl, rfl, rfl⟩, ⟨_, rfl⟩⟩
  exact ⟨fun h => not_judged_of_emptyUri hempty h.1, rfl⟩

end Idgs.Net.HttpRequestParser
