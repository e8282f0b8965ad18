import Idgs.Common.Text
import Idgs.Expr.Factory
import Mathlib.Data.Option.Basic

/-!
# PARSE_URL

Four searches behind `://` look for the first `@`, `/`, `?` and `#`, whichever part of the URL they
are in. Where a part is missing, the character that would end or start it may stand in a later part.
-/

namespace Idgs.Expr.ParseUrl

open Common List

/-! ## Evaluation -/

/-- The options of `PARSE_URL`; any other one gives the empty text. -/
inductive UrlOption
  | host | path | query | ref | protocol | file | authority | userinfo
deriving DecidableEq

/-- `std::string::substr` from a position up to another one; if this comes before, the length wraps
around and the rest is taken. `none` is an exception. -/
def slice (s : List Char) (start stop : ℕ) : Option (List Char) :=
  if start ≤ s.length then
    some (if start ≤ stop then (s.drop start).take (stop - start) else s.drop start) else none

/-- The branches of `ParseURLExpression::evaluate` for the position of `://`. -/
def evaluateOption (url : List Char) (pos : ℕ) (option : UrlOption) : Option (List Char) :=
  let start := pos + 3
  let posUser := Text.find url ['@'] start
  let posPath := Text.find url ['/'] start
  let posQuery := Text.find url ['?'] start
  let posRef := Text.find url ['#'] start
  match option with
  | .host =>
    slice url (match posUser with | none => start | some pos => pos + 1)
      (posPath.getD (posQuery.getD (posRef.getD url.length)))
  | .path =>
    match posPath with
    | none => some ['/']
    | some pos => slice url pos (posQuery.getD (posRef.getD url.length))
  | .query =>
    match posQuery with
    | none => some []
    | some pos => slice url (pos + 1) (posRef.getD url.length)
  | .ref =>
    match posRef with
    | none => some []
    | some pos => slice url (pos + 1) url.length
  | .protocol => slice url 0 pos
  | .file => slice url (posPath.getD (posQuery.getD url.length)) (posRef.getD url.length)
  | .authority => slice url start (posPath.getD (posQuery.getD (posRef.getD url.length)))
  | .userinfo =>
    match posUser with
    | none => some []
    | some pos => slice url start pos

/-- `ParseURLExpression::evaluate` without a key. -/
def evaluate (url : List Char) (option : UrlOption) : Option (List Char) :=
  match Text.find url "://".toList 0 with
  | none => some "invalid URL".toList
  | some pos => evaluateOption url pos option

/-- The search for a key in the text of the query. A search that fails gives `npos`, and `npos + 1`
is 0. -/
def queryValue (query key : List Char) : Option (List Char) :=
  match Text.find query key 0 with
  | none => some []
  | some start =>
    let valueStart :=
      match Text.find query ['='] (start + 1) with
      | none => 0
      | some pos => pos + 1
    slice query valueStart ((Text.find query ['&'] valueStart).getD query.length)

/-- `ParseURLExpression::evaluate` for `QUERY` with a key. -/
def evaluateKey (url key : List Char) : Option (List Char) :=
  match Text.find url "://".toList 0 with
  | none => some "invalid URL".toList
  | some _ => (evaluate url .query).bind fun query => queryValue query key

/-! ## URLs -/

/-- The characters that stand for themselves anywhere, those that may delimit inside a part, and the
escape. -/
def isPlain (c : Char) : Bool := c.isAlphanum || "-._~!$&'()*+,;=%".toList.contains c

/-- The characters of a protocol. -/
def isSchemeChar (c : Char) : Bool := c.isAlphanum || "+-.".toList.contains c

/-- The characters of the user information, of a host with its port, of a path, and of a query or a
reference. -/
def isUserinfoChar (c : Char) : Bool := isPlain c || c == ':'

def isHostChar (c : Char) : Bool := isPlain c || ":[]".toList.contains c

def isPathChar (c : Char) : Bool := isPlain c || ":@/".toList.contains c

def isQueryChar (c : Char) : Bool := isPlain c || ":@/?".toList.contains c

/-- The components of a URL; those that are options are without their delimiters. -/
structure Url where
  protocol : List Char
  userinfo : Option (List Char)
  host : List Char
  path : Option (List Char)
  query : Option (List Char)
  ref : Option (List Char)
  protocol_ok : ∀ c ∈ protocol, isSchemeChar c = true
  userinfo_ok : ∀ text, userinfo = some text → ∀ c ∈ text, isUserinfoChar c = true
  host_ok : ∀ c ∈ host, isHostChar c = true
  path_ok : ∀ text, path = some text → ∀ c ∈ text, isPathChar c = true
  query_ok : ∀ text, query = some text → ∀ c ∈ text, isQueryChar c = true
  ref_ok : ∀ text, ref = some text → ∀ c ∈ text, isQueryChar c = true

namespace Url

variable (url : Url)

/-- The parts of the URL with their delimiters. -/
def userinfoPart : List Char := (url.userinfo.map (· ++ ['@'])).getD []

def pathPart : List Char := (url.path.map ('/' :: ·)).getD []

def queryPart : List Char := (url.query.map ('?' :: ·)).getD []

def refPart : List Char := (url.ref.map ('#' :: ·)).getD []

/-- What follows the protocol. -/
def rest : List Char :=
  url.userinfoPart ++ (url.host ++ (url.pathPart ++ (url.queryPart ++ url.refPart)))

/-- The text of the URL. -/
def text : List Char := url.protocol ++ "://".toList ++ url.rest

/-- The component of an option. -/
def component : UrlOption → List Char
  | .host => url.host
  | .path => url.pathPart
  | .query => url.query.getD []
  | .ref => url.ref.getD []
  | .protocol => url.protocol
  | .file => url.pathPart ++ url.queryPart
  | .authority => url.userinfoPart ++ url.host
  | .userinfo => url.userinfo.getD []

/-- A missing part leaves no other part with the character that would end or start it. -/
structure Clean : Prop where
  userinfo : url.userinfo = none → '@' ∉ url.pathPart ++ (url.queryPart ++ url.refPart)
  path : url.path = none → '/' ∉ url.queryPart ++ url.refPart
  query : url.query = none → '?' ∉ url.refPart

end Url

/-! ## Searches behind the protocol -/

section Rest

variable {url : Url} {front rest a b c : List Char} {i j : ℕ}

/-- What the options other than the protocol are in what follows the protocol. -/
def restOption (rest : List Char) (posUser posPath posQuery posRef : Option ℕ) :
    UrlOption → Option (List Char)
  | .host =>
    slice rest (match posUser with | none => 0 | some pos => pos + 1)
      (posPath.getD (posQuery.getD (posRef.getD rest.length)))
  | .path =>
    match posPath with
    | none => some ['/']
    | some pos => slice rest pos (posQuery.getD (posRef.getD rest.length))
  | .query =>
    match posQuery with
    | none => some []
    | some pos => slice rest (pos + 1) (posRef.getD rest.length)
  | .ref =>
    match posRef with
    | none => some []
    | some pos => slice rest (pos + 1) rest.length
  | .protocol => some []
  | .file => slice rest (posPath.getD (posQuery.getD rest.length)) (posRef.getD rest.length)
  | .authority => slice rest 0 (posPath.getD (posQuery.getD (posRef.getD rest.length)))
  | .userinfo =>
    match posUser with
    | none => some []
    | some pos => slice rest 0 pos

theorem slice_append (front rest : List Char) (i j : ℕ) :
    slice (front ++ rest) (front.length + i) (front.length + j) = slice rest i j := by
  have hdrop : (front ++ rest).drop (front.length + i) = rest.drop i := by
    rw [← drop_drop, drop_left]
  unfold slice
  rw [length_append, hdrop, Nat.add_sub_add_left]
  simp only [Nat.add_le_add_iff_left]

theorem slice_middle (a b c : List Char) :
    slice (a ++ (b ++ c)) a.length (a.length + b.length) = some b := by
  unfold slice
  rw [if_pos (by rw [length_append]; exact Nat.le_add_right _ _),
    if_pos (Nat.le_add_right _ _), drop_left, Nat.add_sub_cancel_left, take_left]

/-- A slice that starts within the text and does not end where it starts is not empty. -/
theorem slice_ne_nil {s : List Char} (hi : i < s.length) (hij : i ≠ j) (h : slice s i j = some a) :
    a ≠ [] := by
  unfold slice at h
  rw [if_pos hi.le] at h
  cases h
  split
  · rw [ne_eq, take_eq_nil_iff, drop_eq_nil_iff]
    omega
  · rw [ne_eq, drop_eq_nil_iff]
    omega

theorem map_getD_add (o : Option ℕ) (n d : ℕ) : (o.map (n + ·)).getD (n + d) = n + o.getD d := by
  cases o <;> rfl

theorem evaluateOption_append {pos : ℕ} (hfront : front.length = pos + 3) {option : UrlOption}
    (hoption : option ≠ .protocol) : evaluateOption (front ++ rest) pos option =
      restOption rest (Text.indexOf ['@'] rest) (Text.indexOf ['/'] rest) (Text.indexOf ['?'] rest)
        (Text.indexOf ['#'] rest) option := by
  have hzero := slice_append front rest 0
  rw [Nat.add_zero] at hzero
  unfold evaluateOption restOption
  simp only [← hfront, Text.find_append, length_append, map_getD_add]
  cases option with
  | host =>
    cases Text.indexOf ['@'] rest with
    | none => exact hzero _
    | some pos => exact slice_append front rest (pos + 1) _
  | path =>
    cases Text.indexOf ['/'] rest with
    | none => rfl
    | some pos => exact slice_append front rest pos _
  | query =>
    cases Text.indexOf ['?'] rest with
    | none => rfl
    | some pos => exact slice_append front rest (pos + 1) _
  | ref =>
    cases Text.indexOf ['#'] rest with
    | none => rfl
    | some pos => exact slice_append front rest (pos + 1) _
  | protocol => exact absurd rfl hoption
  | file => exact slice_append front rest _ _
  | authority => exact hzero _
  | userinfo =>
    cases Text.indexOf ['@'] rest with
    | none => rfl
    | some pos => exact hzero pos

theorem notMem_of_ok {p : Char → Bool} {d : Char} (h : ∀ c ∈ a, p c = true) (hd : p d = false) :
    d ∉ a := by
  intro hmem
  rw [h d hmem] at hd
  cases hd

theorem find_separator (url : Url) :
    Text.find url.text "://".toList 0 = some url.protocol.length := by
  rw [Text.find_zero]
  obtain ⟨k, hk, hindex⟩ :=
    Text.exists_indexOf (t := "://".toList) (a := url.protocol) (b := url.rest)
  obtain ⟨hpre, -, -⟩ := Text.indexOf_eq_some hindex
  rcases Nat.lt_or_ge k url.protocol.length with hlt | hge
  · have hcolon : ':' ∈ url.protocol := by
      rw [append_assoc, drop_append_of_le_length hlt.le, drop_eq_getElem_cons hlt] at hpre
      have hget : ':' = url.protocol[k] := (cons_prefix_cons.mp hpre).1
      rw [hget]
      exact getElem_mem hlt
    exact absurd hcolon (notMem_of_ok url.protocol_ok (by decide))
  · obtain rfl : k = url.protocol.length := by omega
    exact hindex

theorem evaluate_protocol (url : Url) : evaluate url.text .protocol = some url.protocol := by
  unfold evaluate
  rw [find_separator]
  have hmiddle := slice_middle [] url.protocol ("://".toList ++ url.rest)
  rw [length_nil, Nat.zero_add, nil_append, ← append_assoc] at hmiddle
  exact hmiddle

theorem evaluate_option (url : Url) {option : UrlOption} (hoption : option ≠ .protocol) :
    evaluate url.text option =
    restOption url.rest (Text.indexOf ['@'] url.rest) (Text.indexOf ['/'] url.rest)
    (Text.indexOf ['?'] url.rest) (Text.indexOf ['#'] url.rest) option := by
  unfold evaluate
  rw [find_separator]
  exact evaluateOption_append length_append hoption

end Rest

/-! ## The delimiters -/

namespace Url

variable (url : Url)

/-- What comes before the path, before the query and before the reference. -/
def authorityPart : List Char := url.userinfoPart ++ url.host

def beforeQuery : List Char := url.authorityPart ++ url.pathPart

def beforeRef : List Char := url.beforeQuery ++ url.queryPart

theorem rest_eq_authority :
    url.rest = url.authorityPart ++ (url.pathPart ++ (url.queryPart ++ url.refPart)) := by
  rw [rest, authorityPart, append_assoc]

theorem rest_eq_beforeQuery : url.rest = url.beforeQuery ++ (url.queryPart ++ url.refPart) := by
  rw [rest_eq_authority, beforeQuery, append_assoc]

theorem rest_eq_beforeRef : url.rest = url.beforeRef ++ url.refPart := by
  rw [rest_eq_beforeQuery, beforeRef, append_assoc]

variable {url} {d : Char}

theorem notMem_authorityPart (huser : isUserinfoChar d = false) (hhost : isHostChar d = false)
    (hd : d ≠ '@') :
    d ∉ url.authorityPart := by
  rw [authorityPart, mem_append, not_or]
  refine ⟨?_, notMem_of_ok url.host_ok hhost⟩
  unfold userinfoPart
  cases h : url.userinfo with
  | none => exact not_mem_nil
  | some text =>
    intro hmem
    rcases mem_append.mp hmem with hmem | hmem
    · exact notMem_of_ok (url.userinfo_ok text h) huser hmem
    · exact hd (mem_singleton.mp hmem)

theorem notMem_pathPart (hpath : isPathChar d = false) : d ∉ url.pathPart := by
  unfold pathPart
  cases h : url.path with
  | none => exact not_mem_nil
  | some text =>
    intro hmem
    rcases mem_cons.mp hmem with rfl | hmem
    · exact absurd hpath (by decide)
    · exact notMem_of_ok (url.path_ok text h) hpath hmem

theorem notMem_queryPart (hquery : isQueryChar d = false) : d ∉ url.queryPart := by
  unfold queryPart
  cases h : url.query with
  | none => exact not_mem_nil
  | some text =>
    intro hmem
    rcases mem_cons.mp hmem with rfl | hmem
    · exact absurd hquery (by decide)
    · exact notMem_of_ok (url.query_ok text h) hquery hmem

theorem hash_notMem_beforeRef : '#' ∉ url.beforeRef := by
  rw [beforeRef, beforeQuery, mem_append, mem_append, not_or, not_or]
  exact ⟨⟨notMem_authorityPart (by decide) (by decide) (by decide), notMem_pathPart (by decide)⟩,
    notMem_queryPart (by decide)⟩

theorem question_notMem_beforeQuery : '?' ∉ url.beforeQuery := by
  rw [beforeQuery, mem_append, not_or]
  exact ⟨notMem_authorityPart (by decide) (by decide) (by decide), notMem_pathPart (by decide)⟩

theorem slash_notMem_authorityPart : '/' ∉ url.authorityPart :=
  notMem_authorityPart (by decide) (by decide) (by decide)

/-- The reference starts at the first `#`. -/
theorem posRef : Text.indexOf ['#'] url.rest = url.ref.map fun _ => url.beforeRef.length := by
  rw [rest_eq_beforeRef]
  have hno : '#' ∉ url.beforeRef := hash_notMem_beforeRef
  unfold refPart
  cases url.ref with
  | none =>
    rw [Text.indexOf_append_of_notMem hno]
    rfl
  | some text => exact Text.indexOf_append_cons hno

theorem posQuery (h : url.query = none → '?' ∉ url.refPart) :
    Text.indexOf ['?'] url.rest = url.query.map fun _ => url.beforeQuery.length := by
  rw [rest_eq_beforeQuery]
  have hno : '?' ∉ url.beforeQuery := question_notMem_beforeQuery
  unfold queryPart
  cases hquery : url.query with
  | none =>
    rw [Text.indexOf_append_of_notMem hno, Text.indexOf_of_notMem]
    · rfl
    · exact h hquery
  | some text => exact Text.indexOf_append_cons hno

theorem posPath (h : url.path = none → '/' ∉ url.queryPart ++ url.refPart) :
    Text.indexOf ['/'] url.rest = url.path.map fun _ => url.authorityPart.length := by
  rw [rest_eq_authority]
  have hno : '/' ∉ url.authorityPart := slash_notMem_authorityPart
  unfold pathPart
  cases hpath : url.path with
  | none =>
    rw [Text.indexOf_append_of_notMem hno, Text.indexOf_of_notMem]
    · rfl
    · exact h hpath
  | some text => exact Text.indexOf_append_cons hno

theorem at_notMem_host : '@' ∉ url.host := notMem_of_ok url.host_ok (by decide)

theorem posUser (h : url.userinfo = none → '@' ∉ url.pathPart ++ (url.queryPart ++ url.refPart)) :
    Text.indexOf ['@'] url.rest = url.userinfo.map List.length := by
  unfold rest userinfoPart
  cases huser : url.userinfo with
  | none =>
    have hno : '@' ∉ url.host ++ (url.pathPart ++ (url.queryPart ++ url.refPart)) := by
      rw [mem_append, not_or]
      exact ⟨at_notMem_host, h huser⟩
    rw [Text.indexOf_of_notMem]
    · rfl
    · exact hno
  | some text =>
    have hno : '@' ∉ text := notMem_of_ok (url.userinfo_ok text huser) (by decide)
    change Text.indexOf ['@'] (text ++ ['@'] ++ _) = some text.length
    rw [append_assoc]
    exact Text.indexOf_append_cons hno

/-! ## The options of a clean URL -/

theorem queryEnd :
    (url.ref.map fun _ => url.beforeRef.length).getD url.rest.length = url.beforeRef.length := by
  rw [rest_eq_beforeRef, refPart]
  cases url.ref with
  | none => exact congrArg List.length (append_nil _)
  | some text => rfl

theorem pathEnd : (url.query.map fun _ => url.beforeQuery.length).getD url.beforeRef.length =
    url.beforeQuery.length := by
  rw [beforeRef, queryPart]
  cases url.query with
  | none => exact congrArg List.length (append_nil _)
  | some text => rfl

theorem authorityEnd :
    (url.path.map fun _ => url.authorityPart.length).getD url.beforeQuery.length =
    url.authorityPart.length := by
  rw [beforeQuery, pathPart]
  cases url.path with
  | none => exact congrArg List.length (append_nil _)
  | some text => rfl

/-- A part of a text is the slice between its ends. -/
theorem slice_of_eq {s a b c : List Char} {k : ℕ} (hs : s = a ++ (b ++ c))
    (hk : k = a.length + b.length) :
    slice s a.length k = some b := by
  rw [hs, hk]
  exact slice_middle a b c

theorem slice_host (url : Url) :
    slice url.rest (match url.userinfo.map List.length with | none => 0 | some pos => pos + 1)
      url.authorityPart.length = some url.host := by
  have hstart : (match url.userinfo.map List.length with | none => 0 | some pos => pos + 1) =
      url.userinfoPart.length := by
    unfold userinfoPart
    cases url.userinfo with
    | none => rfl
    | some text => 
        have hlength : (text ++ ['@']).length = text.length + 1 := length_append
        exact hlength.symm
  rw [hstart]
  exact slice_of_eq rfl length_append

theorem slice_query {text : List Char} (h : url.query = some text) :
    slice url.rest (url.beforeQuery.length + 1) url.beforeRef.length = some text := by
  have hrest : url.rest = (url.beforeQuery ++ ['?']) ++ (text ++ url.refPart) := by
    rw [rest_eq_beforeQuery, queryPart, h, append_assoc]
    rfl
  have hstop : url.beforeRef.length = (url.beforeQuery ++ ['?']).length + text.length := by
    rw [beforeRef, queryPart, h, length_append, length_append, Nat.add_assoc]
    exact congrArg (url.beforeQuery.length + ·) (Nat.add_comm text.length 1)
  have hslice := slice_of_eq hrest hstop
  rwa [length_append] at hslice

theorem slice_ref {text : List Char} (h : url.ref = some text) :
    slice url.rest (url.beforeRef.length + 1) url.rest.length = some text := by
  have hrest : url.rest = (url.beforeRef ++ ['#']) ++ (text ++ []) := by
    rw [rest_eq_beforeRef, refPart, h, append_assoc, append_nil]
    rfl
  have hstop : url.rest.length = (url.beforeRef ++ ['#']).length + text.length := by
    rw [hrest, length_append, append_nil]
  have hslice := slice_of_eq hrest hstop
  rwa [length_append] at hslice

theorem slice_userinfo {text : List Char} (h : url.userinfo = some text) :
    slice url.rest 0 text.length = some text := by
  have hrest : url.rest =
      [] ++ (text ++
      (['@'] ++ (url.host ++ (url.pathPart ++ (url.queryPart ++ url.refPart))))) := by
    rw [rest, userinfoPart, h, nil_append, ← append_assoc text]
    rfl
  exact slice_of_eq hrest (Nat.zero_add _).symm

theorem slice_file (url : Url) : slice url.rest
    ((url.path.map fun _ => url.authorityPart.length).getD
      ((url.query.map fun _ => url.beforeQuery.length).getD url.rest.length)) url.beforeRef.length =
        some (url.pathPart ++ url.queryPart) := by
  have hrest : url.rest =
      url.authorityPart ++ ((url.pathPart ++ url.queryPart) ++ url.refPart) := by
    rw [rest_eq_authority, append_assoc]
  have hstop : url.beforeRef.length =
      url.authorityPart.length + (url.pathPart ++ url.queryPart).length := by
    rw [beforeRef, beforeQuery, append_assoc, length_append]
  cases hpath : url.path with
  | some text => exact slice_of_eq hrest hstop
  | none =>
    have hnone : url.pathPart = [] := by rw [pathPart, hpath]; rfl
    cases hquery : url.query with
    | some text =>
      have hstart : url.beforeQuery.length = url.authorityPart.length := by
        rw [beforeQuery, hnone, append_nil]
      have hslice := slice_of_eq hrest hstop
      rw [← hstart] at hslice
      exact hslice
    | none =>
      have hnil : url.queryPart = [] := by rw [queryPart, hquery]; rfl
      have hempty : slice url.rest url.rest.length url.beforeRef.length = some [] := by
        unfold slice
        rw [if_pos le_rfl, drop_length, take_nil, ite_self]
      rw [hnone, hnil]
      exact hempty

/-- `QUERY` is right if the first `?` starts the query. -/
theorem evaluate_query (h : url.query = none → '?' ∉ url.refPart) :
    evaluate url.text .query = some (url.query.getD []) := by
  rw [evaluate_option url (by decide), posQuery h, posRef]
  unfold restOption
  simp only [queryEnd]
  cases htext : url.query with
  | none => rfl
  | some text => exact slice_query htext

/-- In a clean URL with a path every option returns its component; without one, all but `PATH`
do. -/
theorem Clean.evaluate_eq (h : url.Clean) {option : UrlOption}
    (hpath : option = .path → url.path ≠ none) :
    evaluate url.text option = some (url.component option) := by
  by_cases hoption : option = .protocol
  · rw [hoption]
    exact evaluate_protocol url
  · rw [evaluate_option url hoption, posUser h.userinfo, posPath h.path, posQuery h.query, posRef]
    unfold restOption
    simp only [queryEnd, pathEnd, authorityEnd]
    cases option with
    | protocol => exact absurd rfl hoption
    | host => exact slice_host url
    | path =>
      cases htext : url.path with
      | none => exact absurd htext (hpath rfl)
      | some text =>
        exact slice_of_eq url.rest_eq_authority length_append
    | query =>
      have hquery := evaluate_query h.query
      rw [evaluate_option url (by decide), posQuery h.query, posRef] at hquery
      simp only [restOption, queryEnd] at hquery
      exact hquery
    | ref =>
      unfold component
      cases htext : url.ref with
      | none => rfl
      | some text => exact slice_ref htext
    | file => exact slice_file url
    | authority => exact slice_of_eq (a := []) url.rest_eq_authority (Nat.zero_add _).symm
    | userinfo =>
      unfold component
      cases htext : url.userinfo with
      | none => rfl
      | some text => exact slice_userinfo htext

/-! ## URLs that are not clean -/

/-- The place of a character in the rest has the character. -/
theorem getElem_of_indexOf {s : List Char} {d : Char} {i : ℕ} (h : Text.indexOf [d] s = some i) :
    s[i]? = some d := by
  obtain ⟨⟨b, hb⟩, -, -⟩ := Text.indexOf_eq_some h
  rw [singleton_append] at hb
  have hget : (s.drop i)[0]? = s[i + 0]? := getElem?_drop
  rw [← hb, Nat.add_zero] at hget
  exact hget.symm

/-- Without a path, `PATH` is not empty. -/
theorem evaluate_path_ne (hpath : url.path = none) : evaluate url.text .path ≠ some [] := by
  rw [evaluate_option url (by decide)]
  unfold restOption
  cases hslash : Text.indexOf ['/'] url.rest with
  | none => exact fun h => by cases h
  | some pos =>
    intro h
    have hget := getElem_of_indexOf hslash
    obtain ⟨hlt, -⟩ := List.getElem?_eq_some_iff.mp hget
    refine slice_ne_nil hlt ?_ h rfl
    intro hstop
    cases hquestion : Text.indexOf ['?'] url.rest with
    | some q =>
      rw [hquestion, Option.getD_some] at hstop
      rw [hstop, getElem_of_indexOf hquestion] at hget
      exact absurd (Option.some.inj hget) (by decide)
    | none =>
      cases hhash : Text.indexOf ['#'] url.rest with
      | some r =>
        rw [hquestion, hhash] at hstop
        rw [hstop, Option.getD_none, Option.getD_some, getElem_of_indexOf hhash] at hget
        exact absurd (Option.some.inj hget) (by decide)
      | none =>
        rw [hquestion, hhash] at hstop
        exact hlt.ne hstop

/-- What follows the host starts with a delimiter of its own. -/
theorem head_ne_at : (url.pathPart ++ (url.queryPart ++ url.refPart)).head? ≠ some '@' := by
  unfold pathPart queryPart refPart
  cases url.path with
  | some text => exact fun h => absurd (Option.some.inj h) (by decide)
  | none =>
    cases url.query with
    | some text => exact fun h => absurd (Option.some.inj h) (by decide)
    | none =>
      cases url.ref with
      | some text => exact fun h => absurd (Option.some.inj h) (by decide)
      | none => exact fun h => by cases h

/-- Without user information, an `@` in a later part makes `USERINFO` not empty. -/
theorem evaluate_userinfo_ne (huser : url.userinfo = none)
    (hat : '@' ∈ url.pathPart ++ (url.queryPart ++ url.refPart)) :
    evaluate url.text .userinfo ≠ some [] := by
  have hrest : url.rest = url.host ++ (url.pathPart ++ (url.queryPart ++ url.refPart)) := by
    rw [rest, userinfoPart, huser]
    rfl
  obtain ⟨a, b, htail, -, hindex⟩ := Text.exists_indexOf_of_mem hat
  have hpos : 0 < a.length := by
    refine length_pos_iff.mpr ?_
    rintro rfl
    have hhead : (url.pathPart ++ (url.queryPart ++ url.refPart)).head? ≠ some '@' := head_ne_at
    exact hhead (by rw [htail]; rfl)
  have huserPos : Text.indexOf ['@'] url.rest = some (url.host.length + a.length) := by
    rw [hrest, Text.indexOf_append_of_notMem at_notMem_host, hindex]
    rfl
  have hlength : url.host.length + a.length < url.rest.length := by
    rw [hrest, htail, length_append, length_append, length_cons]
    omega
  rw [evaluate_option url (by decide), huserPos]
  exact fun h => slice_ne_nil (by omega) (by omega) h rfl

/-- Without a query, a `?` in the reference makes `PATH` too long. -/
theorem evaluate_path_ne_of_question {text : List Char} (hpath : url.path = some text)
    (hquery : url.query = none)
    (hquestion : '?' ∈ url.refPart) : evaluate url.text .path ≠ some url.pathPart := by
  have hqueryPart : url.queryPart = [] := by rw [queryPart, hquery]; rfl
  obtain ⟨a, b, href, -, hindex⟩ := Text.exists_indexOf_of_mem hquestion
  have ha : a ≠ [] := by
    rintro rfl
    unfold refPart at href
    cases hsome : url.ref with
    | none =>
      rw [hsome] at href
      cases href
    | some text =>
      rw [hsome] at href
      exact absurd (List.cons.inj href).1 (by decide)
  have hquestionPos : Text.indexOf ['?'] url.rest = some (url.beforeQuery.length + a.length) := by
    rw [rest_eq_beforeQuery, Text.indexOf_append_of_notMem question_notMem_beforeQuery, hqueryPart,
      nil_append, hindex]
    rfl
  have hrest : url.rest = url.authorityPart ++ ((url.pathPart ++ a) ++ '?' :: b) := by
    rw [rest_eq_authority, hqueryPart, nil_append, href, append_assoc]
  have hstop : url.beforeQuery.length + a.length =
      url.authorityPart.length + (url.pathPart ++ a).length := by
    rw [beforeQuery, length_append, length_append, Nat.add_assoc]
  have hslash : url.path = none → '/' ∉ url.queryPart ++ url.refPart := by
    intro hnone
    rw [hpath] at hnone
    cases hnone
  rw [evaluate_option url (by decide), posPath hslash, hquestionPos, hpath]
  intro h
  have hslice : some (url.pathPart ++ a) = some url.pathPart :=
    (slice_of_eq hrest hstop).symm.trans h
  exact ha (append_right_eq_self.mp (Option.some.inj hslice))

/-- Every option returns its component exactly if there is a path and the URL is clean. -/
theorem evaluate_eq_iff (url : Url) :
    (∀ option, evaluate url.text option = some (url.component option)) ↔
      url.path ≠ none ∧ url.Clean := by
  constructor
  · intro h
    have hpath : url.path ≠ none := by
      intro hnone
      refine evaluate_path_ne hnone ((h .path).trans ?_)
      rw [component, pathPart, hnone]
      rfl
    refine ⟨hpath,
      ⟨fun huser hat => ?_, fun hnone => absurd hnone hpath, fun hquery hquestion => ?_⟩⟩
    · refine evaluate_userinfo_ne huser hat ((h .userinfo).trans ?_)
      rw [component, huser]
      rfl
    · obtain ⟨text, htext⟩ := Option.ne_none_iff_exists'.mp hpath
      exact evaluate_path_ne_of_question htext hquery hquestion (h .path)
  · rintro ⟨hpath, hclean⟩ option
    exact hclean.evaluate_eq fun _ => hpath

end Url

/-! ## Exceptions -/

section Exceptions

variable {s url key : List Char} {c : Char} {i j : ℕ}

theorem lt_of_find (h : Text.find s [c] i = some j) : j < s.length := by
  unfold Text.find at h
  split at h
  · obtain ⟨k, hk, rfl⟩ := Option.map_eq_some_iff.mp h
    obtain ⟨hlt, -⟩ := List.getElem?_eq_some_iff.mp (Url.getElem_of_indexOf hk)
    rw [length_drop] at hlt
    omega
  · cases h

theorem isSome_slice (h : i ≤ s.length) (j : ℕ) : (slice s i j).isSome := by
  unfold slice
  rw [if_pos h]
  rfl

/-- No option throws, whatever the text is. -/
theorem isSome_evaluate (url : List Char) (option : UrlOption) : (evaluate url option).isSome := by
  unfold evaluate
  cases hfind : Text.find url "://".toList 0 with
  | none => rfl
  | some pos =>
    have hpos : pos + 3 ≤ url.length := by
      rw [Text.find_zero] at hfind
      have hlength := (Text.indexOf_eq_some hfind).1.length_le
      rw [length_drop] at hlength
      have hthree : "://".toList.length = 3 := by decide
      omega
    have hend : (Text.find url ['/'] (pos + 3)).getD
        ((Text.find url ['?'] (pos + 3)).getD url.length) ≤
        url.length := by
      cases hpath : Text.find url ['/'] (pos + 3) with
      | some k => exact (lt_of_find hpath).le
      | none =>
        cases hquery : Text.find url ['?'] (pos + 3) with
        | some k => exact (lt_of_find hquery).le
        | none => exact le_rfl
    unfold evaluateOption
    simp only
    cases option with
    | host =>
      cases huser : Text.find url ['@'] (pos + 3) with
      | none => exact isSome_slice hpos _
      | some k => exact isSome_slice (lt_of_find huser) _
    | path =>
      cases hpath : Text.find url ['/'] (pos + 3) with
      | none => rfl
      | some k => exact isSome_slice (lt_of_find hpath).le _
    | query =>
      cases hquery : Text.find url ['?'] (pos + 3) with
      | none => rfl
      | some k => exact isSome_slice (lt_of_find hquery) _
    | ref =>
      cases href : Text.find url ['#'] (pos + 3) with
      | none => rfl
      | some k => exact isSome_slice (lt_of_find href) _
    | protocol => exact isSome_slice (Nat.zero_le _) _
    | file => exact isSome_slice hend _
    | authority => exact isSome_slice hpos _
    | userinfo =>
      cases Text.find url ['@'] (pos + 3) with
      | none => rfl
      | some k => exact isSome_slice hpos _

end Exceptions

/-! ## Parameters -/

/-- The name and the value of a parameter. -/
def parameterName (parameter : List Char) : List Char := parameter.takeWhile (· ≠ '=')

def parameterValue (parameter : List Char) : List Char := (parameter.dropWhile (· ≠ '=')).drop 1

/-- The value of the first parameter with a name, empty if there is none. -/
def valueOf (query key : List Char) : List Char :=
  (((splitChars '&' query).find? fun parameter =>
    parameterName parameter = key).map parameterValue).getD []

/-- What comes before a parameter. -/
def earlierPart (earlier : Option (List Char)) : List Char := (earlier.map (· ++ ['&'])).getD []

/-- Behind the place where a key is found first, the next `=` is the one behind the name of its
parameter. -/
structure Placed (query key : List Char) (earlier : Option (List Char)) (after : List Char)
    (start : ℕ) : Prop where
  query_eq : query = earlierPart earlier ++ (key ++ '=' :: after)
  equals_notMem : '=' ∉ key
  and_notMem : '&' ∉ key
  first : ∀ text, earlier = some text →
    ∀ parameter ∈ splitChars '&' text, parameterName parameter ≠ key
  found : Text.indexOf key query = some start
  start_lt : start < (earlierPart earlier ++ key).length
  next : '=' ∉ (earlierPart earlier ++ key).drop (start + 1)

section Parameters

variable {query key after s a b : List Char} {earlier : Option (List Char)} {start : ℕ} {sep : Char}

theorem infix_of_mem_splitChars {part : List Char} (h : part ∈ splitChars sep s) : part <:+: s := by
  induction s generalizing part with
  | nil =>
    obtain rfl := mem_singleton.mp h
    exact infix_rfl
  | cons c s ih =>
    have hsuffix : s <:+: c :: s := (suffix_cons c s).isInfix
    obtain ⟨parts, hparts⟩ := exists_splitChars sep s
    rw [splitChars] at h
    split at h
    · rcases mem_cons.mp h with rfl | hmem
      · exact nil_infix
      · exact (ih hmem).trans hsuffix
    · rw [hparts] at h
      rcases mem_cons.mp h with rfl | hmem
      · exact (cons_prefix_cons.mpr ⟨rfl, takeWhile_prefix _⟩).isInfix
      · exact (ih (hparts ▸ mem_cons_of_mem _ hmem)).trans hsuffix

/-- What is read up to the next `&` is the text before it. -/
theorem slice_takeWhile (s : List Char) :
    slice s 0 ((Text.indexOf ['&'] s).getD s.length) = some (s.takeWhile (· ≠ '&')) := by
  by_cases hmem : '&' ∈ s
  · obtain ⟨a, b, rfl, ha, hindex⟩ := Text.exists_indexOf_of_mem hmem
    rw [hindex, Text.takeWhile_append_cons ha, Option.getD_some]
    exact Url.slice_of_eq (a := []) rfl (Nat.zero_add _).symm
  · rw [Text.indexOf_of_notMem hmem, Text.takeWhile_of_notMem hmem, Option.getD_none]
    exact Url.slice_of_eq (a := []) (append_nil s).symm (Nat.zero_add _).symm

/-- The search finds the value of a parameter that is placed. -/
theorem Placed.queryValue_eq (h : Placed query key earlier after start) :
    queryValue query key = some (after.takeWhile (· ≠ '&')) := by
  have hlength : start + 1 ≤ (earlierPart earlier ++ key).length := h.start_lt
  have hquery : query = (earlierPart earlier ++ key) ++ '=' :: after := by
    rw [h.query_eq, append_assoc]
  have hequals : Text.find query ['='] (start + 1) = some (earlierPart earlier ++ key).length := by
    unfold Text.find
    rw [hquery, if_pos (by rw [length_append]; omega), drop_append_of_le_length hlength,
      Text.indexOf_append_cons h.next, Option.map_some, length_drop]
    exact congrArg some (Nat.sub_add_cancel hlength)
  have hfront : query = ((earlierPart earlier ++ key) ++ ['=']) ++ after := by
    rw [hquery, append_assoc _ ['=']]
    rfl
  unfold queryValue
  rw [Text.find_zero, h.found]
  simp only [hequals]
  generalize earlierPart earlier ++ key = front at hfront
  have hsucc : front.length + 1 = (front ++ ['=']).length := by
    rw [length_append, length_singleton]
  have hslice :=
    slice_append (front ++ ['=']) after 0 ((Text.indexOf ['&'] after).getD after.length)
  have hlength : ((front ++ ['=']) ++ after).length = (front ++ ['=']).length + after.length :=
    length_append
  rw [hsucc, hfront, Text.find_append, hlength, map_getD_add]
  exact hslice.trans (slice_takeWhile after)

theorem Placed.valueOf_eq (h : Placed query key earlier after start) :
    valueOf query key = after.takeWhile (· ≠ '&') := by
  have hparts : ∃ parts, splitChars '&' (key ++ '=' :: after) =
      (key ++ '=' :: after.takeWhile (· ≠ '&')) :: parts := by
    obtain ⟨parts, hparts⟩ := exists_splitChars '&' (key ++ '=' :: after)
    rw [Text.takeWhile_append_of_notMem h.and_notMem, takeWhile_cons_of_pos (by decide)] at hparts
    exact ⟨parts, hparts⟩
  have hname : parameterName (key ++ '=' :: after.takeWhile (· ≠ '&')) = key :=
    Text.takeWhile_append_cons h.equals_notMem _
  have hvalue : parameterValue (key ++ '=' :: after.takeWhile (· ≠ '&')) =
      after.takeWhile (· ≠ '&') := by
    rw [parameterValue, Text.dropWhile_append_cons h.equals_notMem]
    rfl
  obtain ⟨parts, hparts⟩ := hparts
  have hfind : (splitChars '&' query).find? (fun parameter => parameterName parameter = key) =
      some (key ++ '=' :: after.takeWhile (· ≠ '&')) := by
    rw [h.query_eq]
    unfold earlierPart
    cases hearlier : earlier with
    | none =>
      change (splitChars '&' (key ++ '=' :: after)).find? _ = _
      rw [hparts]
      exact find?_cons_of_pos (decide_eq_true hname)
    | some text =>
      change (splitChars '&' (text ++ ['&'] ++ (key ++ '=' :: after))).find? _ = _
      have hnone : (splitChars '&' text).find? (fun parameter => parameterName parameter = key) =
          none :=
        find?_eq_none.mpr fun parameter hmem hkey =>
          h.first text hearlier parameter hmem (of_decide_eq_true hkey)
      rw [append_assoc, singleton_append, splitChars_append, find?_append, hnone,
        hparts, Option.none_or]
      exact find?_cons_of_pos (decide_eq_true hname)
  rw [valueOf, hfind]
  exact hvalue

theorem valueOf_of_none (h : Text.indexOf key query = none) : valueOf query key = [] := by
  unfold valueOf
  rw [find?_eq_none.mpr]
  · rfl
  · intro parameter hmem hname
    have hkey : parameterName parameter = key := of_decide_eq_true hname
    have hinfix : key <:+: query := by
      rw [← hkey]
      exact (List.takeWhile_prefix _).isInfix.trans (infix_of_mem_splitChars hmem)
    have hsome := Text.isSome_indexOf.mpr hinfix
    rw [h] at hsome
    cases hsome

end Parameters

/-! ## When PARSE_URL is right -/

/-- A key is not in the query, or is found first where only its own parameter lies between it and
the next `=`. -/
def KeyFound (query key : List Char) : Prop :=
  Text.indexOf key query = none ∨ ∃ earlier after start, Placed query key earlier after start

theorem queryValue_of_found {query key : List Char} (h : KeyFound query key) :
    queryValue query key = some (valueOf query key) := by
  rcases h with hnone | ⟨earlier, after, start, hplaced⟩
  · rw [valueOf_of_none hnone, queryValue, Text.find_zero, hnone]
  · rw [hplaced.queryValue_eq, hplaced.valueOf_eq]

/-- Every option returns its component and a key the value of its parameter. -/
def Right (url : Url) : Prop :=
  (∀ option, evaluate url.text option = some (url.component option)) ∧
    ∀ key, evaluateKey url.text key = some (valueOf (url.query.getD []) key)

/-- Every option returns its component exactly if the URL has a path and is clean; a clean URL
without a path has all components but the empty path. If the first `?` starts the query, a key that
is found where it should be has its value. Nothing throws. -/
theorem parseUrl_iff (url : Url) (key : List Char) :
    ((∀ option, evaluate url.text option = some (url.component option)) ↔
      url.path ≠ none ∧ url.Clean) ∧
      (url.Clean → ∀ option ≠ .path, evaluate url.text option = some (url.component option)) ∧
      ((url.query = none → '?' ∉ url.refPart) → KeyFound (url.query.getD []) key →
        evaluateKey url.text key = some (valueOf (url.query.getD []) key)) ∧
      ∀ option, (evaluate url.text option).isSome := by
  refine ⟨url.evaluate_eq_iff, fun hclean option hoption => ?_, fun hquery hfound => ?_,
    isSome_evaluate url.text⟩
  · exact hclean.evaluate_eq fun hpath => absurd hpath hoption
  · unfold evaluateKey
    rw [find_separator, Url.evaluate_query hquery]
    exact queryValue_of_found hfound

/-- The characters of the path of `http://intel.com/root@home`. -/
theorem isPathChar_rootAtHome :
    ∀ c ∈ ['r', 'o', 'o', 't', '@', 'h', 'o', 'm', 'e'], isPathChar c = true := by
  simp only [forall_mem_cons, not_mem_nil, IsEmpty.forall_iff, implies_true, and_true]
  exact ⟨rfl, rfl, rfl, rfl, rfl, rfl, rfl, rfl, rfl⟩

/-- `http://intel.com/root@home`. -/
def rootAtHome : Url where
  protocol := "http".toList
  userinfo := none
  host := "intel.com".toList
  path := some ['r', 'o', 'o', 't', '@', 'h', 'o', 'm', 'e']
  query := none
  ref := none
  protocol_ok := List.all_eq_true.mp rfl
  userinfo_ok text h := by cases h
  host_ok := List.all_eq_true.mp rfl
  path_ok text h := by
    obtain rfl := Option.some.inj h
    exact isPathChar_rootAtHome
  query_ok text h := by cases h
  ref_ok text h := by cases h

/-- The user of `http://intel.com/root@home` is `intel.com/root`. -/
theorem not_right_rootAtHome : ¬ Right rootAtHome := by
  rintro ⟨hoptions, -⟩
  have hclean := (rootAtHome.evaluate_eq_iff.mp hoptions).2
  exact hclean.userinfo rfl (by decide)

end Idgs.Expr.ParseUrl
