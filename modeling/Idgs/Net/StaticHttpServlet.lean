import Idgs.Common.Text
import Idgs.Net.UrlDecode

/-!
# Static files

A request that no servlet is registered for is answered with a file. The path is decoded and must
not have two dots one after the other; the query is cut off at the last question mark. A virtual
directory whose path is a prefix of what is left, as a text, gives the name of a file by
concatenation, and after all of them the web root does.
-/

namespace Idgs.Net.StaticHttpServlet

open Common HttpRequestParser UrlDecode List

/-! ## The servlet -/

def questionMark : Int8 := 63
def hash : Int8 := 35

/-- `index.html`. -/
def indexHtml : List Int8 := [105, 110, 100, 101, 120, 46, 104, 116, 109, 108]

/-- The default servlet: the web root, and the virtual directories with their paths in front. -/
structure StaticHttpServlet where
  webroot : List Int8
  virtual_dir : List (List Int8 × List Int8)
deriving DecidableEq

/-- The server: the paths of the registered servlets, and the default servlet. -/
structure HttpServer where
  servletMap : List (List Int8)
  defaultServlet : StaticHttpServlet
deriving DecidableEq

/-- The path that `HttpConnection::handle_request` goes on with; `none` is a bad request. -/
def requestPath (uri : List Int8) : Option (List Int8) :=
  (urlDecode uri).bind fun path =>
    if path.head? ≠ some slash ∨ (Text.find path [dot, dot] 0).isSome then none else some path

/-- `HttpServer::lookupServlet` finds a registered servlet. -/
def isRegistered (server : HttpServer) (requestUri : List Int8) : Bool :=
  server.servletMap.any fun path => Text.find requestUri path 0 = some 0

/-- `std::string::rfind` of a character. -/
def rfind (c : Int8) : List Int8 → Option ℕ
  | [] => none
  | d :: text =>
    match rfind c text with
    | some pos => some (pos + 1)
    | none => if d = c then some 0 else none

/-- The path without its query. -/
def cutQuery (requestUri : List Int8) : List Int8 :=
  match (rfind questionMark requestUri).or (rfind hash requestUri) with
  | some pos => requestUri.take pos
  | none => requestUri

/-- The name of a directory is completed. -/
def withIndex (realfile : List Int8) : List Int8 :=
  if realfile.getLast? = some slash then realfile ++ indexHtml else realfile

/-- The text up to its first null byte, as the system takes it. -/
def c_str (text : List Int8) : List Int8 := text.takeWhile (· ≠ 0)

/-- The name that `trySendFile` opens for a directory and the rest of the path. -/
def fileName (dir rest : List Int8) : List Int8 := c_str (withIndex (dir ++ rest))

/-- The loop over the virtual directories; `opens` says which files can be opened. -/
def sendVirtual (opens : List Int8 → Bool) (requestUri : List Int8) :
    List (List Int8 × List Int8) → Option (List Int8)
  | [] => none
  | p :: dirs =>
    if Text.find requestUri p.1 0 = some 0 then
      let realfile := fileName p.2 (requestUri.drop p.1.length)
      if opens realfile then some realfile else sendVirtual opens requestUri dirs
    else sendVirtual opens requestUri dirs

/-- The file that `StaticHttpServlet::doGet` opens; `none` is the response that nothing is found. -/
def doGet (opens : List Int8 → Bool) (servlet : StaticHttpServlet) (uri : List Int8) :
    Option (List Int8) :=
  let requestUri := cutQuery uri
  match sendVirtual opens requestUri servlet.virtual_dir with
  | some realfile => some realfile
  | none =>
    let realfile := fileName servlet.webroot requestUri
    if opens realfile then some realfile else none

/-- The file that is opened for a URI. -/
def opened (opens : List Int8 → Bool) (server : HttpServer) (uri : List Int8) :
    Option (List Int8) :=
  (requestPath uri).bind fun path =>
    if isRegistered server path then none else doGet opens server.defaultServlet path

/-! ## Roots -/

/-- One of the components is `..`. -/
def HasParent (path : List Int8) : Prop :=
  ∃ a b, path = a ++ [dot, dot] ++ b ∧ (a = [] ∨ a.getLast? = some slash) ∧
    (b = [] ∨ b.head? = some slash)

/-- A file lies in a directory. -/
def Within (dir file : List Int8) : Prop :=
  ∃ rest, file = dir ++ rest ∧
    (rest = [] ∨ rest.head? = some slash ∨ dir.getLast? = some slash) ∧ ¬ HasParent rest

/-- A path is a prefix by components; a component ends with the path, at a slash, or where a query
or a fragment begins. -/
def ComponentPrefix (pre path : List Int8) : Prop :=
  ∃ rest, path = pre ++ rest ∧
    (rest = [] ∨ (∃ c ∈ [slash, questionMark, hash], rest.head? = some c) ∨
      pre.getLast? = some slash)

/-- A virtual directory whose path is a prefix of the decoded path contains a file. -/
def Contains (path : List Int8) (p : List Int8 × List Int8) (file : List Int8) : Prop :=
  ComponentPrefix p.1 path ∧ Within (c_str p.2) file

/-- Each file that is opened lies in the web root or in a virtual directory. -/
def StaysInside (server : HttpServer) (uri : List Int8) : Prop :=
  ∀ path ∈ requestPath uri, ∀ opens, ∀ file ∈ opened opens server uri,
    Within (c_str server.defaultServlet.webroot) file ∨
      ∃ p ∈ server.defaultServlet.virtual_dir, Contains path p file

/-- A directory and the rest of the path are put together where a component ends. -/
def Joins (dir rest : List Int8) : Prop :=
  rest = [] ∨ rest.head? = some slash ∨ dir.getLast? = some slash ∨ rest.head? = some 0 ∨ 0 ∈ dir

/-- For each virtual directory whose path is a prefix as a text, the path is one by components and
the directory is put together with a rest that begins a component, or the file lies in another
root. -/
def TableFits (server : HttpServer) (uri : List Int8) : Prop :=
  ∀ path ∈ requestPath uri, isRegistered server path = false →
    ∀ p ∈ server.defaultServlet.virtual_dir, p.1 <+: cutQuery path →
      let rest := (cutQuery path).drop p.1.length
      ComponentPrefix p.1 path ∧ Joins p.2 rest ∨
        Within (c_str server.defaultServlet.webroot) (fileName p.2 rest) ∨
        ∃ q ∈ server.defaultServlet.virtual_dir, q ≠ p ∧ Contains path q (fileName p.2 rest)

/-! ## Names of files -/

section Names

variable {dir rest path text : List Int8}

theorem c_str_append_of_mem (h : 0 ∈ dir) (rest : List Int8) : c_str (dir ++ rest) = c_str dir := by
  rw [c_str, c_str]
  induction dir with
  | nil => cases h
  | cons c dir ih =>
    rw [cons_append, takeWhile_cons, takeWhile_cons]
    split
    · rename_i hc
      have hmem := (mem_cons.mp h).resolve_left fun heq => by
        subst heq
        exact absurd hc (by decide)
      rw [ih hmem]
    · rfl

theorem c_str_append_of_notMem (h : 0 ∉ dir) (rest : List Int8) :
    c_str (dir ++ rest) = dir ++ c_str rest := by
  refine takeWhile_append_of_pos fun c hc => decide_eq_true ?_
  rintro rfl
  exact h hc

theorem c_str_of_notMem (h : 0 ∉ dir) : c_str dir = dir := by
  have happend := c_str_append_of_notMem h []
  rw [append_nil] at happend
  exact happend.trans (append_nil dir)

theorem c_str_cons {c : Int8} (h : c ≠ 0) (text : List Int8) :
    c_str (c :: text) = c :: c_str text := by
  rw [c_str, takeWhile_cons, if_pos (decide_eq_true h)]
  rfl

theorem c_str_zero (text : List Int8) : c_str (0 :: text) = [] := rfl

/-- What is put behind the name of a directory. -/
def indexPart (realfile : List Int8) : List Int8 :=
  if realfile.getLast? = some slash then indexHtml else []

theorem withIndex_eq (realfile : List Int8) :
    withIndex realfile = realfile ++ indexPart realfile := by
  rw [withIndex, indexPart]
  split
  · rfl
  · exact (append_nil realfile).symm

/-- Two dots stand in a text that is put together in one of its parts, or where they meet. -/
theorem infix_append_cases {a b : Int8} {s t : List Int8} (h : [a, b] <:+: s ++ t) :
    [a, b] <:+: s ∨ [a, b] <:+: t ∨ s.getLast? = some a ∧ t.head? = some b := by
  induction s with
  | nil => exact Or.inr (Or.inl h)
  | cons c s ih =>
    rw [cons_append, infix_cons_iff] at h
    rcases h with hfront | hinside
    · obtain ⟨rfl, hnext⟩ := cons_prefix_cons.mp hfront
      cases s with
      | nil =>
        obtain ⟨u, hu⟩ := hnext
        have hhead : t.head? = some b := by
          rw [nil_append] at hu
          rw [← hu]
          rfl
        exact Or.inr (Or.inr ⟨rfl, hhead⟩)
      | cons d s =>
        obtain ⟨rfl, -⟩ := cons_prefix_cons.mp hnext
        exact Or.inl ⟨[], s, rfl⟩
    · rcases ih hinside with hs | ht | ⟨hlast, hhead⟩
      · exact Or.inl (hs.trans (suffix_cons c s).isInfix)
      · exact Or.inr (Or.inl ht)
      · refine Or.inr (Or.inr ⟨?_, hhead⟩)
        cases s with
        | nil => cases hlast
        | cons d s => rwa [getLast?_cons_cons]

/-- The rest of a name has no two dots if the path has none. -/
theorem not_hasParent (h : ¬ [dot, dot] <:+: rest) (dir : List Int8) :
    ¬ HasParent (c_str (rest ++ indexPart (dir ++ rest))) := by
  rintro ⟨a, b, heq, -, -⟩
  have hinside : [dot, dot] <:+: rest ++ indexPart (dir ++ rest) := by
    have hparent : [dot, dot] <:+: c_str (rest ++ indexPart (dir ++ rest)) := ⟨a, b, heq.symm⟩
    exact hparent.trans (List.takeWhile_prefix _).isInfix
  rcases infix_append_cases hinside with hrest | hindex | ⟨-, hhead⟩
  · exact h hrest
  · rw [indexPart] at hindex
    split at hindex
    · revert hindex
      decide
    · revert hindex
      decide
  · rw [indexPart] at hhead
    split at hhead
    · revert hhead
      decide
    · cases hhead

/-- A file lies in its own directory exactly if the two are put together where a component ends. -/
theorem within_fileName_iff (h : ¬ [dot, dot] <:+: rest) :
    Within (c_str dir) (fileName dir rest) ↔ Joins dir rest := by
  rw [fileName, withIndex_eq, append_assoc]
  by_cases hmem : 0 ∈ dir
  · rw [c_str_append_of_mem hmem]
    refine iff_of_true ⟨[], (append_nil _).symm, Or.inl rfl, ?_⟩
      (Or.inr (Or.inr (Or.inr (Or.inr hmem))))
    rintro ⟨a, b, heq, -, -⟩
    have hlength := congrArg List.length heq
    simp only [length_append, length_cons, length_nil] at hlength
    omega
  · rw [c_str_append_of_notMem hmem, c_str_of_notMem hmem]
    constructor
    · rintro ⟨r, heq, hjoin, -⟩
      have hr : c_str (rest ++ indexPart (dir ++ rest)) = r := append_cancel_left heq
      subst hr
      cases rest with
      | nil => exact Or.inl rfl
      | cons c rest =>
        by_cases hc : c = 0
        · exact Or.inr (Or.inr (Or.inr (Or.inl (congrArg some hc))))
        · rw [cons_append, c_str_cons hc] at hjoin
          rcases hjoin with hnil | hslash | hdir
          · cases hnil
          · exact Or.inr (Or.inl hslash)
          · exact Or.inr (Or.inr (Or.inl hdir))
    · intro hjoin
      refine ⟨_, rfl, ?_, not_hasParent h dir⟩
      rcases hjoin with rfl | hslash | hdir | hzero | hnul
      · by_cases hdir : dir.getLast? = some slash
        · exact Or.inr (Or.inr hdir)
        · rw [append_nil, indexPart, if_neg hdir]
          exact Or.inl rfl
      · obtain ⟨t, rfl⟩ := head?_eq_some_iff.mp hslash
        rw [cons_append, c_str_cons (by decide)]
        exact Or.inr (Or.inl rfl)
      · exact Or.inr (Or.inr hdir)
      · obtain ⟨t, rfl⟩ := head?_eq_some_iff.mp hzero
        rw [cons_append, c_str_zero]
        exact Or.inl rfl
      · exact absurd hnul hmem

end Names

/-! ## The path -/

section Path

variable {c : Int8} {path uri : List Int8} {k : ℕ}

theorem getElem?_of_rfind (h : rfind c path = some k) : path[k]? = some c := by
  induction path generalizing k with
  | nil => cases h
  | cons d path ih =>
    rw [rfind] at h
    cases hfind : rfind c path with
    | some pos =>
      rw [hfind] at h
      cases h
      exact ih hfind
    | none =>
      rw [hfind] at h
      dsimp only at h
      split at h
      · rename_i hd
        cases h
        exact congrArg some hd
      · cases h

theorem cutQuery_isPrefix (path : List Int8) : cutQuery path <+: path := by
  rw [cutQuery]
  split
  · exact take_prefix _ _
  · exact prefix_refl path

/-- What is cut off is not the slash in front. -/
theorem head?_cutQuery (h : path.head? = some slash) : (cutQuery path).head? = some slash := by
  obtain ⟨t, rfl⟩ := head?_eq_some_iff.mp h
  rw [cutQuery]
  split
  · rename_i pos hpos
    cases pos with
    | succ pos => rfl
    | zero =>
      have hmark : ∃ mark, mark ≠ slash ∧ rfind mark (slash :: t) = some 0 := by
        rcases Option.or_eq_some_iff.mp hpos with hquestion | ⟨-, hhash⟩
        · exact ⟨questionMark, by decide, hquestion⟩
        · exact ⟨hash, by decide, hhash⟩
      obtain ⟨mark, hne, hfind⟩ := hmark
      exact absurd (Option.some.inj (getElem?_of_rfind hfind)).symm hne
  · rfl

/-- A path that is gone on with begins with a slash and has no two dots. -/
theorem of_mem_requestPath (h : path ∈ requestPath uri) :
    path.head? = some slash ∧ ¬ [dot, dot] <:+: path := by
  obtain ⟨decoded, -, hcheck⟩ := Option.bind_eq_some_iff.mp h
  split at hcheck
  · cases hcheck
  · rename_i hok
    cases hcheck
    rw [Text.find_zero, Text.isSome_indexOf] at hok
    exact ⟨not_not.mp (not_or.mp hok).1, (not_or.mp hok).2⟩

theorem find_eq_zero {s t : List Int8} : Text.find s t 0 = some 0 ↔ t <+: s := by
  rw [Text.find_zero]
  constructor
  · intro h
    have hfront := (Text.indexOf_eq_some h).1
    rwa [drop_zero] at hfront
  · rintro ⟨u, rfl⟩
    obtain ⟨k, hk, hfind⟩ := Text.exists_indexOf (t := t) (a := []) (b := u)
    rw [Nat.le_zero.mp hk] at hfind
    exact hfind

end Path

/-! ## The files that can be opened -/

section Opened

variable {opens : List Int8 → Bool} {requestUri file : List Int8}
  {dirs : List (List Int8 × List Int8)}

/-- A file opened for a virtual directory can be opened, and its path is a prefix. -/
theorem of_mem_sendVirtual (h : file ∈ sendVirtual opens requestUri dirs) :
    opens file = true ∧
      ∃ p ∈ dirs, p.1 <+: requestUri ∧ file = fileName p.2 (requestUri.drop p.1.length) := by
  induction dirs with
  | nil => cases h
  | cons p dirs ih =>
    have hrest : file ∈ sendVirtual opens requestUri dirs → opens file = true ∧
        ∃ q ∈ p :: dirs, q.1 <+: requestUri ∧
          file = fileName q.2 (requestUri.drop q.1.length) := fun hmem => by
      obtain ⟨hopens, q, hq, hfile⟩ := ih hmem
      exact ⟨hopens, q, mem_cons_of_mem p hq, hfile⟩
    rw [sendVirtual] at h
    split at h
    · rename_i hfind
      dsimp only at h
      split at h
      · rename_i hopens
        cases h
        exact ⟨hopens, p, mem_cons_self, find_eq_zero.mp hfind, rfl⟩
      · exact hrest h
    · exact hrest h

/-- If no other file can be opened, the file of a virtual directory with a prefix is opened. -/
theorem sendVirtual_of_mem {p : List Int8 × List Int8} (hp : p ∈ dirs) (hfront : p.1 <+: requestUri)
    (hfile : file = fileName p.2 (requestUri.drop p.1.length)) :
    sendVirtual (fun name => decide (name = file)) requestUri dirs = some file := by
  induction dirs with
  | nil => cases hp
  | cons q dirs ih =>
    rw [sendVirtual]
    rcases mem_cons.mp hp with rfl | hp
    · rw [if_pos (find_eq_zero.mpr hfront)]
      dsimp only
      rw [← hfile, if_pos (decide_eq_true rfl)]
    · split
      · dsimp only
        split
        · rename_i hname
          exact congrArg some (of_decide_eq_true hname)
        · exact ih hp
      · exact ih hp

/-- The files that can be opened: those of the virtual directories with a prefix, and the one of the
web root. -/
theorem exists_doGet_iff (servlet : StaticHttpServlet) (uri : List Int8) :
    (∃ opens, doGet opens servlet uri = some file) ↔
      (∃ p ∈ servlet.virtual_dir, p.1 <+: cutQuery uri ∧
        file = fileName p.2 ((cutQuery uri).drop p.1.length)) ∨
      file = fileName servlet.webroot (cutQuery uri) := by
  constructor
  · rintro ⟨opens, h⟩
    rw [doGet] at h
    dsimp only at h
    split at h
    · rename_i realfile hsend
      cases h
      exact Or.inl (of_mem_sendVirtual hsend).2
    · split at h
      · cases h
        exact Or.inr rfl
      · cases h
  · rintro (⟨p, hp, hfront, hfile⟩ | hfile)
    · refine ⟨fun name => decide (name = file), ?_⟩
      rw [doGet]
      dsimp only
      rw [sendVirtual_of_mem hp hfront hfile]
    · refine ⟨fun name => decide (name = file), ?_⟩
      rw [doGet]
      dsimp only
      split
      · rename_i realfile hsend
        exact congrArg some (of_decide_eq_true (of_mem_sendVirtual hsend).1)
      · rw [← hfile, if_pos (decide_eq_true rfl)]

end Opened

/-! ## Inside the roots -/

section Inside

variable {server : HttpServer} {uri path : List Int8}

/-- The file of the web root lies in it. -/
theorem within_webroot (h : path ∈ requestPath uri) (webroot : List Int8) :
    Within (c_str webroot) (fileName webroot (cutQuery path)) := by
  obtain ⟨hslash, hdots⟩ := of_mem_requestPath h
  have hdots' : ¬ [dot, dot] <:+: cutQuery path := fun hinside =>
    hdots (hinside.trans (cutQuery_isPrefix path).isInfix)
  exact (within_fileName_iff hdots').mpr (Or.inr (Or.inl (head?_cutQuery hslash)))

/-- The file of a virtual directory lies in it if the two are put together where a component
ends. -/
theorem contains_iff (h : path ∈ requestPath uri) (p : List Int8 × List Int8) :
    Contains path p (fileName p.2 ((cutQuery path).drop p.1.length)) ↔
      ComponentPrefix p.1 path ∧ Joins p.2 ((cutQuery path).drop p.1.length) := by
  obtain ⟨-, hdots⟩ := of_mem_requestPath h
  have hdots' : ¬ [dot, dot] <:+: (cutQuery path).drop p.1.length := fun hinside =>
    hdots ((hinside.trans (drop_suffix _ _).isInfix).trans (cutQuery_isPrefix path).isInfix)
  exact and_congr_right fun _ => within_fileName_iff hdots'

/-- The files that are opened stay inside their roots exactly if the table fits the path. -/
theorem staysInside_iff (server : HttpServer) (uri : List Int8) :
    StaysInside server uri ↔ TableFits server uri := by
  refine forall_congr' fun path => forall_congr' fun hpath => ?_
  constructor
  · intro h hregistered p hp hfront
    obtain ⟨opens, hdoGet⟩ := (exists_doGet_iff server.defaultServlet path).mpr
      (Or.inl ⟨p, hp, hfront, rfl⟩)
    have hopened : fileName p.2 ((cutQuery path).drop p.1.length) ∈ opened opens server uri :=
      Option.bind_eq_some_iff.mpr ⟨path, hpath, by rw [hregistered]; exact hdoGet⟩
    rcases h opens _ hopened with hweb | ⟨q, hq, hcontains⟩
    · exact Or.inr (Or.inl hweb)
    · by_cases hqp : q = p
      · subst hqp
        exact Or.inl ((contains_iff hpath q).mp hcontains)
      · exact Or.inr (Or.inr ⟨q, hq, hqp, hcontains⟩)
  · intro h opens file hopened
    obtain ⟨path', hpath', hdoGet⟩ := Option.bind_eq_some_iff.mp hopened
    cases Option.some.inj (hpath.symm.trans hpath')
    split at hdoGet
    · cases hdoGet
    · rename_i hregistered
      rcases (exists_doGet_iff server.defaultServlet path).mp ⟨opens, hdoGet⟩ with
        ⟨p, hp, hfront, rfl⟩ | rfl
      · rcases h (Bool.eq_false_iff.mpr hregistered) p hp hfront with hown | hweb | ⟨q, hq, -, hq'⟩
        · exact Or.inr ⟨p, hp, (contains_iff hpath p).mpr hown⟩
        · exact Or.inl hweb
        · exact Or.inr ⟨q, hq, hq'⟩
      · exact Or.inl (within_webroot hpath _)

/-- URIs are decoded as they should, and what is encoded is decoded to what it was, and no file
outside the roots is opened, exactly if no escape is read that has not two digits, and the table of
virtual directories fits the path. -/
theorem decodes_and_staysInside_iff (server : HttpServer) (uri : List Int8) :
    (Decodes uri ↔ ExactOrBroken uri) ∧
      (∀ keep capital bytes, urlDecode (percentEncode keep capital bytes) = some bytes) ∧
      (StaysInside server uri ↔ TableFits server uri) :=
  ⟨decodes_iff uri, urlDecode_percentEncode, staysInside_iff server uri⟩

end Inside

/-! ## A directory outside the table -/

/-- The virtual directory `/a` stands for `/b`. -/
def oneDirectory : HttpServer := ⟨[], ⟨[119], [([slash, 97], [slash, 98])]⟩⟩

/-- The URI `/ac`. -/
def beside : List Int8 := [slash, 97, 99]

/-- The escape `%5g` is decoded, and for `/ac` the file `/bc` is opened. -/
theorem not_decodes_and_not_staysInside :
    ¬ Decodes [slash, percent, 53, 103] ∧ ¬ StaysInside oneDirectory beside := by
  constructor
  · intro h
    have hescaped := h.succeeds.mp (by decide)
    obtain ⟨a, b, -, hb, -, hhex⟩ := hescaped 1 rfl
    cases hb
    revert hhex
    decide
  · intro h
    have hpath : beside ∈ requestPath beside := by decide
    rcases (staysInside_iff oneDirectory beside).mp h beside hpath rfl ([slash, 97], [slash, 98])
      List.mem_cons_self (by decide) with hown | hweb | ⟨q, hq, hne, -⟩
    · obtain ⟨⟨rest, heq, hends⟩, -⟩ := hown
      have hrest : [99] = rest := (List.cons.inj (List.cons.inj heq).2).2
      subst hrest
      revert hends
      decide
    · obtain ⟨rest, heq, -⟩ := hweb
      cases heq
    · exact hne (List.mem_singleton.mp hq)

end Idgs.Net.StaticHttpServlet
