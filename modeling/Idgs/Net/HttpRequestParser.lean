import Mathlib.Data.List.ModifyLast
import Idgs.Common.Scanner
import Idgs.Protobuf.Compare

/-!
# The HTTP request parser

`HttpRequestParser::consume` takes one character after the other and writes what it has recognised
into the request. The connection calls `parse` for each chunk it reads, with the same parser and the
same request.
-/

namespace Idgs.Net.HttpRequestParser

open Idgs.Common Idgs.Protobuf

/-! ## Requests and characters -/

/-- A header, as bytes. -/
structure HttpHeader where
  header_name : List Int8
  header_value : List Int8
deriving DecidableEq

/-- What the parser writes of a request; the version numbers are of type `int`. -/
structure HttpRequest where
  method : List Int8
  uri : List Int8
  http_version_major : ℤ
  http_version_minor : ℤ
  headers : List HttpHeader
deriving DecidableEq

/-- A request as it is constructed. -/
def HttpRequest.new : HttpRequest := ⟨[], [], 1, 1, []⟩

/-- `getHeaders().back()` is changed. -/
def modifyBack (f : HttpHeader → HttpHeader) (headers : List HttpHeader) : List HttpHeader :=
  headers.modifyLast f

/-- `header_name.push_back`. -/
def pushName (input : Int8) (h : HttpHeader) : HttpHeader :=
  { h with header_name := h.header_name ++ [input] }

/-- `header_value.push_back`. -/
def pushValue (input : Int8) (h : HttpHeader) : HttpHeader :=
  { h with header_value := h.header_value ++ [input] }

def space : Int8 := 32
def tab : Int8 := 9
def cr : Int8 := 13
def lf : Int8 := 10
def dot : Int8 := 46
def slash : Int8 := 47
def colon : Int8 := 58
def letterH : Int8 := 72
def letterT : Int8 := 84
def letterP : Int8 := 80

def isChar (c : ℤ) : Bool := decide (0 ≤ c) && decide (c ≤ 127)

def isCtl (c : ℤ) : Bool := decide (0 ≤ c) && decide (c ≤ 31) || decide (c = 127)

/-- Parentheses, `<`, `>`, `@`, comma, semicolon, colon, backslash, double quote, slash, brackets,
`?`, `=`, braces, space and tab. -/
def isTspecial (c : ℤ) : Bool :=
  [40, 41, 60, 62, 64, 44, 59, 58, 92, 34, 47, 91, 93, 63, 61, 123, 125, 32, 9].contains c

def isDigit (c : ℤ) : Bool := decide (48 ≤ c) && decide (c ≤ 57)

/-- `version * 10 + input - '0'`, as an `int`. -/
def addDigit (version : ℤ) (input : Int8) : ℤ := toInt32 (version * 10 + input.toInt - 48)

/-! ## The parser -/

/-- `HttpRequestParser::state`. -/
inductive State
  | method_start | method | uri_start | uri
  | http_version_h | http_version_t_1 | http_version_t_2 | http_version_p | http_version_slash
  | http_version_major_start | http_version_major | http_version_minor_start | http_version_minor
  | expecting_newline_1 | header_line_start | header_lws | header_name | space_before_header_value
      | header_value
  | expecting_newline_2 | expecting_newline_3
deriving DecidableEq

/-- `HttpRequestParser::consume`. -/
def consume : State × HttpRequest → Int8 → ScanStatus × State × HttpRequest
  | (.method_start, req), input =>
    if !isChar input.toInt || isCtl input.toInt || isTspecial input.toInt then
      (.invalid, .method_start, req)
    else (.indeterminate, .method, { req with method := req.method ++ [input] })
  | (.method, req), input =>
    if input = space then (.indeterminate, .uri, req)
    else if !isChar input.toInt || isCtl input.toInt || isTspecial input.toInt then
      (.invalid, .method, req)
    else (.indeterminate, .method, { req with method := req.method ++ [input] })
  | (.uri_start, req), input =>
    if isCtl input.toInt then (.invalid, .uri_start, req)
    else (.indeterminate, .uri, { req with uri := req.uri ++ [input] })
  | (.uri, req), input =>
    if input = space then (.indeterminate, .http_version_h, req)
    else if isCtl input.toInt then (.invalid, .uri, req)
    else (.indeterminate, .uri, { req with uri := req.uri ++ [input] })
  | (.http_version_h, req), input =>
    if input = letterH then (.indeterminate, .http_version_t_1, req)
    else (.invalid, .http_version_h, req)
  | (.http_version_t_1, req), input =>
    if input = letterT then (.indeterminate, .http_version_t_2, req)
    else (.invalid, .http_version_t_1, req)
  | (.http_version_t_2, req), input =>
    if input = letterT then (.indeterminate, .http_version_p, req)
    else (.invalid, .http_version_t_2, req)
  | (.http_version_p, req), input =>
    if input = letterP then (.indeterminate, .http_version_slash, req)
    else (.invalid, .http_version_p, req)
  | (.http_version_slash, req), input =>
    if input = slash then
      (.indeterminate, .http_version_major_start,
        { req with http_version_major := 0, http_version_minor := 0 })
    else (.invalid, .http_version_slash, req)
  | (.http_version_major_start, req), input =>
    if isDigit input.toInt then
      (.indeterminate, .http_version_major,
        { req with http_version_major := addDigit req.http_version_major input })
    else (.invalid, .http_version_major_start, req)
  | (.http_version_major, req), input =>
    if input = dot then (.indeterminate, .http_version_minor_start, req)
    else if isDigit input.toInt then
      (.indeterminate, .http_version_major,
        { req with http_version_major := addDigit req.http_version_major input })
    else (.invalid, .http_version_major, req)
  | (.http_version_minor_start, req), input =>
    if isDigit input.toInt then
      (.indeterminate, .http_version_minor,
        { req with http_version_minor := addDigit req.http_version_minor input })
    else (.invalid, .http_version_minor_start, req)
  | (.http_version_minor, req), input =>
    if input = cr then (.indeterminate, .expecting_newline_1, req)
    else if isDigit input.toInt then
      (.indeterminate, .http_version_minor,
        { req with http_version_minor := addDigit req.http_version_minor input })
    else (.invalid, .http_version_minor, req)
  | (.expecting_newline_1, req), input =>
    if input = lf then (.indeterminate, .header_line_start, req)
    else (.invalid, .expecting_newline_1, req)
  | (.header_line_start, req), input =>
    if input = cr then (.indeterminate, .expecting_newline_3, req)
    else if req.headers ≠ [] ∧ (input = space ∨ input = tab) then
      (.indeterminate, .header_lws, req)
    else if !isChar input.toInt || isCtl input.toInt || isTspecial input.toInt then
      (.invalid, .header_line_start, req)
    else
      (.indeterminate, .header_name,
        { req with headers := modifyBack (pushName input) (req.headers ++ [⟨[], []⟩]) })
  | (.header_lws, req), input =>
    if input = cr then (.indeterminate, .expecting_newline_2, req)
    else if input = space ∨ input = tab then (.indeterminate, .header_lws, req)
    else if isCtl input.toInt then (.invalid, .header_lws, req)
    else (.indeterminate, .header_value,
      { req with headers := modifyBack (pushValue input) req.headers })
  | (.header_name, req), input =>
    if input = colon then (.indeterminate, .space_before_header_value, req)
    else if !isChar input.toInt || isCtl input.toInt || isTspecial input.toInt then
      (.invalid, .header_name, req)
    else (.indeterminate, .header_name,
      { req with headers := modifyBack (pushName input) req.headers })
  | (.space_before_header_value, req), input =>
    if input = space then (.indeterminate, .header_value, req)
    else (.invalid, .space_before_header_value, req)
  | (.header_value, req), input =>
    if input = cr then (.indeterminate, .expecting_newline_2, req)
    else if isCtl input.toInt then (.invalid, .header_value, req)
    else (.indeterminate, .header_value,
      { req with headers := modifyBack (pushValue input) req.headers })
  | (.expecting_newline_2, req), input =>
    if input = lf then (.indeterminate, .header_line_start, req)
    else (.invalid, .expecting_newline_2, req)
  | (.expecting_newline_3, req), input =>
    if input = lf then (.complete, .expecting_newline_3, req)
    else (.invalid, .expecting_newline_3, req)

/-- `parse` of a chunk: the status, the parser and the request after it, and what has not been
consumed. -/
def parse (parser : State × HttpRequest) (chunk : List Int8) :
    ScanStatus × (State × HttpRequest) × List Int8 :=
  scan consume parser chunk

/-- `parse` of one chunk after the other, as long as more data is required, from a fresh parser and
request. -/
def parseChunks (chunks : List (List Int8)) : ScanStatus × (State × HttpRequest) × List Int8 :=
  scanChunks consume (.method_start, .new) chunks

/-! ## What a state takes -/

/-- A character of a method or a header name. -/
def isToken (c : Int8) : Bool := !(!isChar c.toInt || isCtl c.toInt || isTspecial c.toInt)

/-- A character of a URI. -/
def isUri (c : Int8) : Bool := !isCtl c.toInt && decide (c ≠ space)

/-- A character of a header value. -/
def isValue (c : Int8) : Bool := !isCtl c.toInt

def isBlank (c : Int8) : Bool := decide (c = space ∨ c = tab)

def isNumeral (c : Int8) : Bool := isDigit c.toInt

/-- The number that digits stand for. -/
def number (digits : List Int8) : ℤ := digits.foldl (fun n d => n * 10 + (d.toInt - 48)) 0

theorem not_isToken (c : Int8) :
    (!isChar c.toInt || isCtl c.toInt || isTspecial c.toInt) = !isToken c :=
  (Bool.not_not _).symm

theorem ne_of_token {token : Int8 → Bool} {a b : Int8} (ha : token a = true)
    (hb : token b = false) : a ≠ b := by
  rintro rfl
  rw [ha] at hb
  cases hb

theorem modifyBack_concat (f : HttpHeader → HttpHeader) (headers : List HttpHeader)
    (h : HttpHeader) :
    modifyBack f (headers ++ [h]) = headers ++ [f h] :=
  List.modifyLast_concat f h headers

/-- Wrapping around at each digit or once at the end makes no difference. -/
theorem addDigit_toInt32 (n : ℤ) (d : Int8) :
    addDigit (toInt32 n) d = toInt32 (n * 10 + (d.toInt - 48)) := by
  unfold addDigit toInt32
  rw [add_sub_assoc, ← Int.bmod_add_bmod, Int.bmod_mul_bmod, Int.bmod_add_bmod]

end Idgs.Net.HttpRequestParser
