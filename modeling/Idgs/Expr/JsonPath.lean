import Idgs.Common.Text
import Idgs.Expr.Factory
import Mathlib.Algebra.Group.Nat.Defs
import Mathlib.Data.Option.Basic

/-!
# GET_JSON_OBJECT

A path is split at its dots and every part is looked up in the node that the parts before it came
to. What the steps of a path reach is defined on the document; the two are compared part by part,
and a part is followed unless it is one of the kinds that `extract` misreads.
-/

namespace Idgs.Expr.GetJsonObject

open Common List

abbrev Text := List Char

/-! ## Documents -/

/-- A `yajl_val`. Keys, numbers and strings are the C strings of the tree. -/
inductive Json
  | object (members : List (Text × Json))
  | array (items : List Json)
  | bool (value : Bool)
  | null
  | number (text : Text)
  | string (text : Text)

/-- The text of a node that is not there. -/
def nullText : Text := ['n', 'u', 'l', 'l']

mutual
/-- `GetJsonObjectExpression::toJson` of a node. -/
def Json.toJson : Json → Text
  | .object members => '{' :: (membersToJson members ++ ['}'])
  | .array items => '[' :: (itemsToJson items ++ [']'])
  | .bool true => ['t', 'r', 'u', 'e']
  | .bool false => ['f', 'a', 'l', 's', 'e']
  | .null => []
  | .number text => text
  | .string text => text
/-- The members of an object, with nothing between them. -/
def membersToJson : List (Text × Json) → Text
  | [] => []
  | (key, value) :: rest => key ++ '=' :: value.toJson ++ membersToJson rest
/-- The items of an array. -/
def itemsToJson : List Json → Text
  | [] => []
  | item :: rest => item.toJson ++ laterItemsToJson rest
/-- The items after the first one, each behind a comma. -/
def laterItemsToJson : List Json → Text
  | [] => []
  | item :: rest => ',' :: item.toJson ++ laterItemsToJson rest
end

/-- `GetJsonObjectExpression::toJson`; no node is `NULL`. -/
def render : Option Json → Text
  | none => nullText
  | some node => node.toJson

/-! ## The paths of the source -/

/-- `std::stringstream >> int32_t`: blanks, a sign and digits, whatever follows them. It fails
without digits and for a number that does not fit. -/
def readInt (s : Text) : Option ℤ := readWithin (-2147483648) 2147483647 (String.ofList s)

/-- `GetJsonObjectExpression::parsePath`: the key and the index of a part of the path. A closing
bracket that is the last character stands behind an opening one, so that the length between them
does not wrap around. -/
def parsePath (path : Text) : Option (Text × ℤ) :=
  match Text.indexOf ['['] path, Text.indexOf [']'] path with
  | some start, some stop =>
    if stop + 1 ≠ path.length then none
    else
      let index := (path.drop (start + 1)).take (stop - start - 1)
      if index = ['*'] then some (path.take start, -1)
      else (readInt index).map fun index => (path.take start, index)
  | none, none => some (path, -1)
  | _, _ => none

/-- The branches of `GetJsonObjectExpression::extract` for a key and an index. -/
def pick (key : Text) (index : ℤ) : Json → Option Json
  | .object members =>
    match members.lookup key with
    | none => none
    | some (.array items) =>
      if 0 ≤ index then items[index.toNat]? else if index = -1 then none
      else some (.array items)
    | some (.object members) => if -1 < index then none else some (.object members)
    | some node => some node
  | .array items => if 0 < index then items[index.toNat]? else none
  | _ => none

/-- `GetJsonObjectExpression::extract`. -/
def extract (node : Json) (path : Text) : Option Json :=
  if path = ['$'] ∨ path = ['R'] then some node
  else (parsePath path).bind fun (key, index) => pick key index node

/-- The fields of a path: `str::split` at the dots, which drops an empty last part. -/
def fieldsOf (path : Text) : List Text :=
  let parts := splitChars '.' path
  if parts.getLast? = some [] then parts.dropLast else parts

/-- `yajl_tree_parse`; `none` is a parse error. The empty text is no document. -/
structure Yajl where
  treeParse : Text → Option Json
  treeParse_nil : treeParse [] = none

/-- `GetJsonObjectExpression::evaluate` of the two texts. -/
def evaluate (yajl : Yajl) (json path : Text) : Text :=
  if json = [] then json
  else if path = ['$'] ∨ path = ['R'] ∨ path = [] then json
  else if path.head? ≠ some '$' ∧ path.head? ≠ some 'R' then nullText
  else match yajl.treeParse json with
    | none => nullText
    | some root => render ((fieldsOf path).foldlM extract root)

/-! ## The nodes that paths reach -/

/-- The number that the text of an index is, if it is one. -/
def index? (t : Text) : Option ℕ := if t.all Char.isDigit then leadingDigits t else none

/-- The step `[t]`: an item of an array. -/
def Json.item (node : Json) (t : Text) : Option Json :=
  match node with
  | .array items => (index? t).bind (items[·]?)
  | _ => none

/-- The step `.name`: a member of an object. -/
def Json.member (node : Json) (name : Text) : Option Json :=
  match node with
  | .object members => members.lookup name
  | _ => none

/-- Characters that neither separate steps nor enclose an index. -/
def IsPlain (t : Text) : Prop := '.' ∉ t ∧ '[' ∉ t ∧ ']' ∉ t

/-- The text between two brackets, which may or may not be a number. -/
structure Index where
  text : Text
  noBrackets : '[' ∉ text ∧ ']' ∉ text

/-- A `.name` step with the `[i]` steps behind it. -/
structure Field where
  name : Text
  indices : List Index
  name_ne : name ≠ []
  plain : IsPlain name

/-- A path: `[i]` steps directly after `$`, and then fields. -/
structure Path where
  root : List Index
  fields : List Field

/-- Indices in their brackets. -/
def brackets (indices : List Index) : Text := indices.flatMap fun t => '[' :: (t.text ++ [']'])

/-- The text of a field without its dot. -/
def Field.text (f : Field) : Text := f.name ++ brackets f.indices

/-- The text of a path. -/
def Path.text (p : Path) : Text :=
  '$' :: (brackets p.root ++ p.fields.flatMap fun f => '.' :: f.text)

/-- The node that `[i]` steps reach. -/
def selectItems (node : Json) (indices : List Index) : Option Json :=
  indices.foldlM (fun node t => node.item t.text) node

/-- The node that the steps of a field reach. -/
def Field.select (node : Json) (f : Field) : Option Json :=
  (node.member f.name).bind (selectItems · f.indices)

/-- The node that the steps of a path reach. -/
def Path.select (p : Path) (doc : Json) : Option Json :=
  (selectItems doc p.root).bind fun node => p.fields.foldlM Field.select node

/-! ## The fields of a path -/

section Fields

variable {s t name : Text} {p : Path} {f : Field} {indices : List Index} {node : Json}

theorem mem_brackets {c : Char} (h : indices ≠ []) (hc : c = '[' ∨ c = ']') :
    c ∈ brackets indices := by
  cases indices with
  | nil => exact absurd rfl h
  | cons t rest => rcases hc with rfl | rfl <;> simp [brackets]

theorem getLast?_brackets (h : indices ≠ []) : (brackets indices).getLast? = some ']' := by
  obtain ⟨rest, t, rfl⟩ := eq_nil_or_concat indices |>.resolve_left h
  simp [brackets, getLast?_append, getLast?_cons]

/-- The last part of a text is empty if the text is or ends with the separator. -/
theorem getLast?_splitChars {sep : Char} (h : (splitChars sep s).getLast? = some []) :
    s = [] ∨ s.getLast? = some sep := by
  induction s with
  | nil => exact .inl rfl
  | cons c s ih =>
    right
    obtain ⟨parts, hparts⟩ := exists_splitChars sep s
    rw [splitChars] at h
    split at h
    case isTrue hc =>
      rw [hparts, getLast?_cons_cons, ← hparts] at h
      rcases ih h with rfl | hlast
      · rw [hc, getLast?_singleton]
      · rw [getLast?_cons, hlast]
        rfl
    case isFalse hc =>
      rw [hparts] at h
      cases parts with
      | nil => simp at h
      | cons part parts =>
        rw [getLast?_cons_cons] at h
        rw [hparts, getLast?_cons_cons] at ih
        rcases ih h with rfl | hlast
        · simp [splitChars] at hparts
        · rw [getLast?_cons, hlast]
          rfl

theorem getLast?_fieldText (f : Field) : f.text ≠ [] ∧ f.text.getLast? ≠ some '.' := by
  have hne : f.text ≠ [] := by
    intro h
    exact f.name_ne (append_eq_nil_iff.mp h).1
  refine ⟨hne, fun hlast => ?_⟩
  rw [Field.text, getLast?_append] at hlast
  by_cases hindices : f.indices = []
  · rw [hindices] at hlast
    exact f.plain.1 (mem_of_getLast? hlast)
  · rw [getLast?_brackets hindices] at hlast
    cases hlast

theorem getLast?_pathText (p : Path) : p.text.getLast? ≠ some '.' := by
  intro hlast
  rw [Path.text, ← cons_append, getLast?_append] at hlast
  rcases eq_nil_or_concat p.fields with hfields | ⟨rest, f, hfields⟩
  · rw [hfields] at hlast
    by_cases hroot : p.root = []
    · rw [hroot] at hlast
      cases hlast
    · rw [flatMap_nil, getLast?_nil, Option.none_or, getLast?_cons,
        getLast?_brackets hroot] at hlast
      cases hlast
  · have hf := getLast?_fieldText f
    rw [hfields, concat_eq_append, flatMap_append, flatMap_singleton, getLast?_append] at hlast
    rw [getLast?_cons] at hlast
    cases hopt : f.text.getLast? with
    | none => exact hf.1 (getLast?_eq_none_iff.mp hopt)
    | some c =>
      rw [hopt] at hlast
      exact hf.2 (hopt.trans hlast)

theorem splitChars_flatMap (a : Text) (fields : List Field) :
    splitChars '.' (a ++ fields.flatMap fun f => '.' :: f.text) =
      splitChars '.' a ++ fields.flatMap fun f => splitChars '.' f.text := by
  induction fields generalizing a with
  | nil => simp
  | cons f fields ih =>
    rw [flatMap_cons, cons_append, splitChars_append, ih, flatMap_cons]

/-- The parts of a path are those of its first indices and of its fields. -/
theorem fieldsOf_text (p : Path) : fieldsOf p.text =
    splitChars '.' (['$'] ++ brackets p.root) ++ p.fields.flatMap fun f =>
    splitChars '.' f.text := by
  have hlast : (splitChars '.' p.text).getLast? ≠ some [] := by
    intro h
    rcases getLast?_splitChars h with hnil | hdot
    · cases hnil
    · exact getLast?_pathText p hdot
  rw [fieldsOf, if_neg hlast, Path.text, ← cons_append, splitChars_flatMap]
  rfl

/-- What the source reads as the number of an index; a dot ends the part of the path before the
closing bracket. -/
def reading (t : Text) : Option ℤ := if '.' ∈ t then none else if t = ['*'] then some (-1)
    else readInt t

/-- The node that the parts of a name and its indices come to. -/
def taken (name : Text) (indices : List Index) (node : Json) : Option Json :=
  match indices with
  | [] => if name = ['$'] ∨ name = ['R'] then some node else pick name (-1) node
  | [t] => (reading t.text).bind fun index => pick name index node
  | _ => none

/-- A part with an opening bracket is refused if its first closing bracket is not its last
character. -/
theorem parsePath_eq_none (hopen : '[' ∈ s) (h : ∀ a, s = a ++ [']'] → ']' ∈ a) :
    parsePath s = none := by
  obtain ⟨_, _, _, _, hstart⟩ := Text.exists_indexOf_of_mem hopen
  rw [parsePath, hstart]
  by_cases hclose : ']' ∈ s
  · obtain ⟨a, b, rfl, hnotMem, hstop⟩ := Text.exists_indexOf_of_mem hclose
    have hlength : a.length + 1 ≠ (a ++ ']' :: b).length := by
      intro hlength
      have hb : b = [] := by
        rw [length_append, length_cons] at hlength
        exact length_eq_zero_iff.mp (by omega)
      subst hb
      exact hnotMem (h a rfl)
    rw [hstop]
    exact if_pos hlength
  · rw [Text.indexOf_of_notMem hclose]

theorem parsePath_name (hname : IsPlain name) : parsePath name = some (name, -1) := by
  rw [parsePath, Text.indexOf_of_notMem hname.2.1, Text.indexOf_of_notMem hname.2.2]

theorem parsePath_index (hname : IsPlain name) (t : Index) (hdot : '.' ∉ t.text) :
    parsePath (name ++ '[' :: (t.text ++ [']'])) = (reading t.text).map fun index =>
    (name, index) := by
  have hstart : Text.indexOf ['['] (name ++ '[' :: (t.text ++ [']'])) = some name.length :=
    Text.indexOf_append_cons hname.2.1
  have hstop : Text.indexOf [']'] (name ++ '[' :: (t.text ++ [']'])) =
      some (name.length + 1 + t.text.length) := by
    have hnotMem : ']' ∉ name ++ '[' :: t.text := by
      simp [hname.2.2, t.noBrackets.2]
    have happ : name ++ '[' :: (t.text ++ [']']) = (name ++ '[' :: t.text) ++ ']' :: [] := by simp
    rw [happ, Text.indexOf_append_cons hnotMem, length_append, length_cons]
    congr 1
    omega
  have hindex : ((name ++ '[' :: (t.text ++ [']'])).drop (name.length + 1)).take
      (name.length + 1 + t.text.length - name.length - 1) = t.text := by
    rw [drop_length_add_append, Nat.sub_sub, Nat.add_sub_cancel_left]
    simp
  have hlength : name.length + 1 + t.text.length + 1 =
      (name ++ '[' :: (t.text ++ [']'])).length := by
    simp only [length_append, length_cons, length_nil]
    omega
  rw [parsePath, hstart, hstop]
  simp only [hindex, take_left]
  rw [if_neg (not_not.mpr hlength), reading, if_neg hdot]
  split
  · rfl
  · rfl

theorem splitChars_of_notMem {sep : Char} (h : sep ∉ s) : splitChars sep s = [s] := by
  induction s with
  | nil => rfl
  | cons c s ih =>
    obtain ⟨hc, hs⟩ := not_or.mp (mt mem_cons.mpr h)
    rw [splitChars, if_neg (Ne.symm hc), ih hs]

/-- The part before the first dot of an index ends inside this index. -/
theorem exists_firstPart {a : Text} (ha : '.' ∉ a) (hdot : ∃ t ∈ indices, '.' ∈ t.text) :
    ∃ b u rest, a ++ brackets indices = (a ++ b ++ '[' :: u) ++ '.' :: rest ∧
    '.' ∉ a ++ b ++ '[' :: u ∧ ']' ∉ u := by
  induction indices generalizing a with
  | nil =>
    obtain ⟨_, ht, _⟩ := hdot
    cases ht
  | cons t indices ih =>
    by_cases ht : '.' ∈ t.text
    · obtain ⟨u, v, huv, hu, _⟩ := Text.exists_indexOf_of_mem ht
      have hnot : ']' ∉ u := fun h => t.noBrackets.2 (by rw [huv]; exact mem_append_left _ h)
      refine ⟨[], u, v ++ [']'] ++ brackets indices, ?_, ?_, hnot⟩
      · simp [brackets, huv]
      · simp [ha, hu]
    · have ha' : '.' ∉ a ++ '[' :: (t.text ++ [']']) := by simp [ha, ht]
      have hdot' : ∃ t ∈ indices, '.' ∈ t.text := by
        obtain ⟨w, hw, hdot⟩ := hdot
        rcases mem_cons.mp hw with rfl | hw
        · exact absurd hdot ht
        · exact ⟨w, hw, hdot⟩
      obtain ⟨b, u, rest, htext, hnotMem, hu⟩ := ih ha' hdot'
      refine ⟨'[' :: (t.text ++ [']']) ++ b, u, rest, ?_, ?_, hu⟩
      · rw [← append_assoc a, ← htext]
        simp [brackets]
      · rwa [← append_assoc a]

/-- With a dot in an index, the part before the dot has an opening bracket and does not end with a
closing one. -/
theorem foldlM_extract_dot (hname : IsPlain name) (hdot : ∃ t ∈ indices, '.' ∈ t.text)
    (node : Json) :
    (splitChars '.' (name ++ brackets indices)).foldlM extract node = none := by
  obtain ⟨b, u, rest, htext, hnotMem, hu⟩ := exists_firstPart hname.1 hdot
  rw [htext, splitChars_append, splitChars_of_notMem hnotMem, singleton_append, foldlM_cons]
  have hopen : '[' ∈ name ++ b ++ '[' :: u := mem_append_right _ mem_cons_self
  have hnone : parsePath (name ++ b ++ '[' :: u) = none := by
    refine parsePath_eq_none hopen fun a ha => ?_
    have hlast : (name ++ b ++ '[' :: u).getLast? = some ']' := by
      rw [ha, getLast?_append]
      rfl
    rw [getLast?_append, getLast?_cons] at hlast
    cases hopt : u.getLast? with
    | none =>
      rw [hopt] at hlast
      cases hlast
    | some c =>
      rw [hopt] at hlast
      obtain rfl : c = ']' := Option.some.inj hlast
      exact absurd (mem_of_getLast? hopt) hu
  have hno : ¬ (name ++ b ++ '[' :: u = ['$'] ∨ name ++ b ++ '[' :: u = ['R']) := by
    rintro (h | h) <;> rw [h] at hopen <;> simp at hopen
  rw [extract, if_neg hno, hnone]
  rfl

/-- What `extract` comes to over the parts of a name and its indices. -/
theorem foldlM_extract (hname : IsPlain name) (indices : List Index) (node : Json) :
    (splitChars '.' (name ++ brackets indices)).foldlM extract node = taken name indices node := by
  by_cases hdot : ∃ t ∈ indices, '.' ∈ t.text
  · rw [foldlM_extract_dot hname hdot]
    obtain ⟨t, ht, hdot⟩ := hdot
    match indices, ht with
    | [u], ht =>
      obtain rfl := mem_singleton.mp ht
      rw [taken, reading, if_pos hdot]
      rfl
    | _ :: _ :: _, _ => rfl
  · have hnotMem : '.' ∉ name ++ brackets indices := by
      intro hmem
      rcases mem_append.mp hmem with hmem | hmem
      · exact hname.1 hmem
      · obtain ⟨t, ht, hmem⟩ := mem_flatMap.mp hmem
        simp at hmem
        exact hdot ⟨t, ht, hmem⟩
    rw [splitChars_of_notMem hnotMem, foldlM_cons]
    change (extract node (name ++ brackets indices)).bind some = _
    rw [Option.bind_fun_some, extract]
    match indices with
    | [] =>
      rw [brackets, flatMap_nil, append_nil, parsePath_name hname]
      rfl
    | [t] =>
      have hbrackets : name ++ brackets [t] = name ++ '[' :: (t.text ++ [']']) := by
          simp [brackets]
      have hopen : '[' ∈ name ++ brackets [t] :=
        mem_append_right _ (mem_brackets (by simp) (.inl rfl))
      have hno : ¬ (name ++ brackets [t] = ['$'] ∨ name ++ brackets [t] = ['R']) := by
        rintro (h | h) <;> simp [h] at hopen
      rw [if_neg hno, hbrackets,
        parsePath_index hname t fun h => hdot ⟨t, mem_singleton_self t, h⟩, taken]
      cases reading t.text <;> rfl
    | t :: u :: rest =>
      have hopen : '[' ∈ name ++ brackets (t :: u :: rest) :=
        mem_append_right _ (mem_brackets (by simp) (.inl rfl))
      have hno : ¬ (name ++ brackets (t :: u :: rest) = ['$'] ∨
          name ++ brackets (t :: u :: rest) = ['R']) := by
        rintro (h | h) <;> simp [h] at hopen
      rw [if_neg hno, parsePath_eq_none hopen]
      · rfl
      · intro a ha
        have hlast : (brackets (u :: rest)).getLast? = some ']' := getLast?_brackets (by simp)
        obtain ⟨w, hw⟩ := getLast?_eq_some_iff.mp hlast
        have hbrackets : name ++ brackets (t :: u :: rest) =
            (name ++ '[' :: (t.text ++ [']']) ++ w) ++ [']'] := by
          rw [append_assoc, ← hw]
          simp [brackets]
        rw [hbrackets] at ha
        rw [← (append_inj' ha rfl).1]
        simp

end Fields

/-! ## Right results -/

/-- A text is the rendering of the node that is reached, and the text of no node exactly if none
is. -/
def Agrees (result : Text) (reached : Option Json) : Prop :=
  result = render reached ∧ (result = nullText ↔ reached = none)

/-- A text with the tree that it is parsed to. -/
structure Document (yajl : Yajl) where
  text : Text
  tree : Json
  treeParse_text : yajl.treeParse text = some tree

/-- `GET_JSON_OBJECT` of the document and the path is the rendering of the node that the path
reaches. -/
def Right (yajl : Yajl) (doc : Document yajl) (p : Path) : Prop :=
  Agrees (evaluate yajl doc.text p.text) (p.select doc.tree)

/-- A path that is not only `$`. -/
def Path.TakesStep (p : Path) : Prop := p.root ≠ [] ∨ p.fields ≠ []

/-- The path with its first fields only. -/
def Path.upTo (p : Path) (fields : List Field) : Path := { p with fields }

/-- The path and every beginning of it that takes a step have the right result. -/
def RightAllAlong (yajl : Yajl) (doc : Document yajl) (p : Path) : Prop :=
  Right yajl doc p ∧ ∀ fields, fields <+: p.fields → (p.upTo fields).TakesStep →
    Right yajl doc (p.upTo fields)

/-! ## Followed paths -/

/-- An index that the source reads but does not use on a node. -/
def Ignored (index : ℤ) : Json → Prop
  | .array _ => index < -1
  | .object _ => index < 0
  | _ => True

/-- The nodes that a name with indices is taken for although its steps may reach nothing. -/
inductive Mistaken (node : Json) : Text → List Index → Json → Prop
  /-- A name that stands for the node itself. -/
  | reserved {name : Text} (h : name = ['$'] ∨ name = ['R']) : Mistaken node name [] node
  /-- A member that is no array, or an array with an index below that of all items. -/
  | ignored {name : Text} {t : Index} {index : ℤ} {found : Json}
      (hmember : node.member name = some found)
      (hread : reading t.text = some index) (h : Ignored index found) : Mistaken node name [t] found
  /-- An item of a member, with an index that may be no number. -/
  | item {name : Text} {t : Index} {index : ℤ} {items : List Json} {found : Json}
      (hmember : node.member name = some (.array items)) (hread : reading t.text = some index)
      (hindex : 0 ≤ index)
      (h : items[index.toNat]? = some found) : Mistaken node name [t] found
  /-- An item of the node itself, whatever the name is. -/
  | unnamed {name : Text} {t : Index} {index : ℤ} {items : List Json} {found : Json}
      (hnode : node = .array items)
      (hread : reading t.text = some index) (hindex : 0 < index)
      (h : items[index.toNat]? = some found) :
      Mistaken node name [t] found

def Json.IsArray : Json → Prop
  | .array _ => True
  | _ => False

/-- A field whose steps reach a node is read as it is written: without an index it must not have the
name of the root or reach an array, and it has at most one index, which fits `int32_t`. -/
def Field.Readable (f : Field) (found : Json) : Prop :=
  match f.indices with
  | [] => ¬ (f.name = ['$'] ∨ f.name = ['R']) ∧ ¬ found.IsArray
  | [t] => ∃ i, index? t.text = some i ∧ i < 2 ^ 31
  | _ => False

/-- The steps of the field reach a node with a text of its own and are read as they are written, or
they reach nothing and are not taken for any node that has a text of its own. -/
def FieldFollowed (node : Json) (f : Field) : Prop :=
  match f.select node with
  | some found => found.toJson ≠ nullText ∧ f.Readable found
  | none => ∀ found, Mistaken node f.name f.indices found → found.toJson = nullText

/-- The same for the indices after `$`: there is only one, and it is not zero. -/
def RootFollowed (doc : Json) (indices : List Index) : Prop :=
  match selectItems doc indices with
  | some found => found.toJson ≠ nullText ∧ ∃ t i, indices = [t] ∧ index? t.text = some i ∧ 0 < i ∧
      i < 2 ^ 31
  | none => ∀ found, Mistaken doc ['$'] indices found → found.toJson = nullText

/-- Every field is followed from the node that the fields before it reach. -/
def FieldsFollowed : Json → List Field → Prop
  | _, [] => True
  | node, f :: fields => FieldFollowed node f ∧ ∀ found, f.select node = some found →
      FieldsFollowed found fields

/-- The paths that the source follows. The path `$` gives the text of the document, which may not be
its rendering. -/
structure Followed (yajl : Yajl) (doc : Document yajl) (p : Path) : Prop where
  whole : p.root = [] → p.fields = [] → doc.text = doc.tree.toJson ∧ doc.text ≠ nullText
  root : p.root ≠ [] → RootFollowed doc.tree p.root
  fields : ∀ node, selectItems doc.tree p.root = some node → FieldsFollowed node p.fields

section Steps

variable {node found : Json} {f : Field} {name : Text} {t : Index} {index : ℤ} {c s : Option Json}
  {members : List (Text × Json)}

theorem agrees_render_none :
    Agrees (render c) none ↔ ∀ found, c = some found → found.toJson = nullText := by
  cases c with
  | none => simp [Agrees, render]
  | some node => simp [Agrees, render]

theorem agrees_render_some :
    Agrees (render c) (some found) ↔ found.toJson ≠ nullText ∧ render c = found.toJson := by
  constructor
  · rintro ⟨hresult, hnull⟩
    refine ⟨fun h => ?_, hresult⟩
    have hnone := hnull.mp (hresult.trans h)
    cases hnone
  · rintro ⟨hne, hresult⟩
    refine ⟨hresult, fun h => absurd (hresult ▸ h) hne, fun h => ?_⟩
    cases h

/-- A member is shorter than its object. -/
theorem length_toJson_lt (h : members.lookup name = some found) :
    found.toJson.length < (Json.object members).toJson.length := by
  have hmembers : found.toJson.length ≤ (membersToJson members).length := by
    induction members with
    | nil => cases h
    | cons member members ih =>
      obtain ⟨key, value⟩ := member
      rw [lookup_cons] at h
      rw [membersToJson, length_append, length_append, length_cons]
      split at h
      · obtain rfl := Option.some.inj h
        omega
      · have := ih h
        omega
  rw [Json.toJson, length_cons, length_append]
  omega

/-- A number is read as it is if it fits, and else not at all. -/
theorem reading_of_index {t : Text} {i : ℕ} (h : index? t = some i) :
    reading t = if i < 2 ^ 31 then some (i : ℤ) else none := by
  rw [index?] at h
  split at h
  case isFalse => cases h
  case isTrue hall =>
    have hdigit : ∀ c ∈ t, c.isDigit := all_eq_true.mp hall
    have hdot : '.' ∉ t := fun hmem => absurd (hdigit _ hmem) (by decide)
    have hstar : t ≠ ['*'] := by
      rintro rfl
      exact absurd (hdigit _ (mem_singleton_self _)) (by decide)
    cases t with
    | nil => cases h
    | cons c rest =>
      have hread : readNumber (String.ofList (c :: rest)) = some (i : ℤ) := by
        rw [readNumber_of_isDigit String.toList_ofList (hdigit c mem_cons_self), h]
        rfl
      rw [reading, if_neg hdot, if_neg hstar, readInt, readWithin, hread, Option.filter_some]
      have hlo : (-2147483648 : ℤ) ≤ (i : ℤ) := by omega
      by_cases hlt : i < 2 ^ 31
      · rw [if_pos hlt, if_pos]
        rw [Bool.and_eq_true, decide_eq_true_eq, decide_eq_true_eq]
        omega
      · rw [if_neg hlt, if_neg]
        rw [Bool.and_eq_true, decide_eq_true_eq, decide_eq_true_eq]
        omega

theorem exists_object_of_member (h : node.member name = some found) :
    ∃ members, node = .object members ∧ members.lookup name = some found := by
  cases node with
  | object members => exact ⟨members, rfl, h⟩
  | array _ | bool _ | null | number _ | string _ => cases h

theorem exists_array_of_item {t : Text} (h : node.item t = some found) :
    ∃ items i, node = .array items ∧ index? t = some i ∧ items[i]? = some found := by
  cases node with
  | array items =>
    obtain ⟨i, hi, hitem⟩ := Option.bind_eq_some_iff.mp h
    exact ⟨items, i, rfl, hi, hitem⟩
  | object _ | bool _ | null | number _ | string _ => cases h

/-- The node that one index picks is one that it is mistaken for, or else it is reached. -/
theorem taken_index_iff : taken name [t] node = some found ↔ Mistaken node name [t] found := by
  rw [taken, Option.bind_eq_some_iff]
  constructor
  · rintro ⟨index, hread, hpick⟩
    cases node with
    | object members =>
      rw [pick] at hpick
      cases hlookup : members.lookup name with
      | none =>
        rw [hlookup] at hpick
        cases hpick
      | some value =>
        rw [hlookup] at hpick
        have hmember : (Json.object members).member name = some value := hlookup
        cases value with
        | array items =>
          simp only at hpick
          split at hpick
          case isTrue hindex => exact .item hmember hread hindex hpick
          case isFalse hindex =>
            split at hpick
            · cases hpick
            · obtain rfl := Option.some.inj hpick
              exact .ignored hmember hread (show index < -1 by omega)
        | object members' =>
          simp only at hpick
          split at hpick
          · cases hpick
          · obtain rfl := Option.some.inj hpick
            exact .ignored hmember hread (show index < 0 by omega)
        | bool _ | null | number _ | string _ =>
          obtain rfl := Option.some.inj hpick
          exact .ignored hmember hread trivial
    | array items =>
      rw [pick] at hpick
      split at hpick
      case isTrue hindex => exact .unnamed rfl hread hindex hpick
      case isFalse => cases hpick
    | bool _ | null | number _ | string _ => cases hpick
  · intro h
    cases h with
    | ignored hmember hread h =>
      obtain ⟨members, rfl, hlookup⟩ := exists_object_of_member hmember
      refine ⟨_, hread, ?_⟩
      rw [pick, hlookup]
      cases found with
      | array items =>
        change _ < -1 at h
        exact (if_neg (by omega)).trans (if_neg (by omega))
      | object members' =>
        change _ < 0 at h
        exact if_neg (by omega)
      | bool _ | null | number _ | string _ => rfl
    | item hmember hread hindex h =>
      obtain ⟨members, rfl, hlookup⟩ := exists_object_of_member hmember
      refine ⟨_, hread, ?_⟩
      rw [pick, hlookup]
      exact (if_pos hindex).trans h
    | unnamed hnode hread hindex h =>
      refine ⟨_, hread, ?_⟩
      rw [hnode, pick, if_pos hindex]
      exact h

/-- A condition under which the node that is taken is the one that is reached; without it their
renderings differ. -/
structure Settles (P : Prop) (c : Option Json) (found : Json) : Prop where
  same : P → c = some found
  other : ¬ P → render c ≠ found.toJson

theorem Settles.render_iff {P : Prop} (h : Settles P c found) : render c = found.toJson ↔ P := by
  constructor
  · intro hrender
    by_contra hP
    exact h.other hP hrender
  · intro hP
    rw [h.same hP]
    rfl

theorem settles_of_none {P : Prop} (hP : ¬ P) (hne : found.toJson ≠ nullText) :
    Settles P none found :=
  ⟨fun h => absurd h hP, fun _ h => hne h.symm⟩

/-- A member that is reached without an index. -/
theorem settles_name (hmember : node.member name = some found) (hne : found.toJson ≠ nullText) :
    Settles (¬ (name = ['$'] ∨ name = ['R']) ∧ ¬ found.IsArray) (taken name [] node) found := by
  obtain ⟨members, rfl, hlookup⟩ := exists_object_of_member hmember
  rw [taken]
  by_cases hname : name = ['$'] ∨ name = ['R']
  · rw [if_pos hname]
    refine ⟨fun h => absurd hname h.1, fun _ h => ?_⟩
    have hlt := length_toJson_lt hlookup
    rw [← h] at hlt
    exact lt_irrefl _ hlt
  · rw [if_neg hname, pick, hlookup]
    cases found with
    | array items => exact settles_of_none (fun h => h.2 trivial) hne
    | object _ | bool _ | null | number _ | string _ =>
      exact ⟨fun _ => rfl, fun h => absurd ⟨hname, id⟩ h⟩

/-- An item that is reached below a member. -/
theorem settles_item {i : ℕ} {items : List Json} (hmember : node.member name = some (.array items))
    (hindex : index? t.text = some i) (hitem : items[i]? = some found)
    (hne : found.toJson ≠ nullText) :
    Settles (i < 2 ^ 31) (taken name [t] node) found := by
  obtain ⟨members, rfl, hlookup⟩ := exists_object_of_member hmember
  rw [taken, reading_of_index hindex]
  by_cases hlt : i < 2 ^ 31
  · have hpick : pick name i (.object members) = items[i]? := by
      rw [pick, hlookup]
      exact if_pos (Int.natCast_nonneg i)
    rw [if_pos hlt, Option.bind_some, hpick, hitem]
    exact ⟨fun _ => rfl, fun h => absurd hlt h⟩
  · rw [if_neg hlt]
    exact settles_of_none hlt hne

/-- An item that is reached in the document. -/
theorem settles_rootItem {i : ℕ} {items : List Json} (hnode : node = .array items)
    (hindex : index? t.text = some i) (hitem : items[i]? = some found)
    (hne : found.toJson ≠ nullText) :
    Settles (0 < i ∧ i < 2 ^ 31) (taken name [t] node) found := by
  subst hnode
  rw [taken, reading_of_index hindex]
  by_cases hlt : i < 2 ^ 31
  · rw [if_pos hlt, Option.bind_some, pick]
    by_cases hpos : 0 < i
    · rw [if_pos (Int.natCast_pos.mpr hpos), Int.toNat_natCast, hitem]
      exact ⟨fun _ => rfl, fun h => absurd ⟨hpos, hlt⟩ h⟩
    · rw [if_neg (mt Int.natCast_pos.mp hpos)]
      exact settles_of_none (fun h => hpos h.1) hne
  · rw [if_neg hlt]
    exact settles_of_none (fun h => hlt h.2) hne

/-- What is taken for a field whose steps reach nothing. -/
theorem taken_iff_mistaken {indices : List Index} (hnone : indices = [] → node.member name = none) :
    taken name indices node = some found ↔ Mistaken node name indices found := by
  match indices with
  | [] =>
    rw [taken]
    by_cases hname : name = ['$'] ∨ name = ['R']
    · rw [if_pos hname]
      constructor
      · intro h
        obtain rfl := Option.some.inj h
        exact .reserved hname
      · intro h
        cases h
        rfl
    · rw [if_neg hname]
      have hpick : pick name (-1) node = none := by
        cases node with
        | object members =>
          have hlookup : members.lookup name = none := hnone rfl
          rw [pick, hlookup]
        | array _ | bool _ | null | number _ | string _ => rfl
      rw [hpick]
      refine iff_of_false (fun h => by cases h) fun h => ?_
      cases h with
      | reserved h => exact hname h
  | [t] => exact taken_index_iff
  | _ :: _ :: _ => exact iff_of_false (fun h => by cases h) fun h => by cases h

theorem selectItems_cons (indices : List Index) :
    selectItems node (t :: indices) = (node.item t.text).bind (selectItems · indices) :=
    foldlM_cons ..

/-- A field whose steps reach a node is settled by how it is written. -/
theorem settles_field (hselect : f.select node = some found) (hne : found.toJson ≠ nullText) :
    Settles (f.Readable found) (taken f.name f.indices node) found := by
  obtain ⟨value, hmember, hitems⟩ := Option.bind_eq_some_iff.mp hselect
  rw [Field.Readable]
  match hindices : f.indices with
  | [] =>
    rw [hindices] at hitems
    obtain rfl : value = found := Option.some.inj hitems
    exact settles_name hmember hne
  | [t] =>
    rw [hindices, selectItems_cons] at hitems
    obtain ⟨item, hitem, hfound⟩ := Option.bind_eq_some_iff.mp hitems
    obtain rfl : item = found := Option.some.inj hfound
    obtain ⟨items, i, rfl, hindex, hitem⟩ := exists_array_of_item hitem
    obtain ⟨same, other⟩ := settles_item hmember hindex hitem hne
    refine ⟨fun ⟨j, hj, hlt⟩ => same ?_, fun h => other fun hlt => h ⟨i, hindex, hlt⟩⟩
    rwa [← Option.some.inj (hj.symm.trans hindex)]
  | t :: u :: rest => exact settles_of_none id hne

/-- Indices after `$` that reach a node are settled by their number and value. -/
theorem settles_root {indices : List Index} (hindices : indices ≠ [])
    (hselect : selectItems node indices = some found) (hne : found.toJson ≠ nullText) :
    Settles (∃ t i, indices = [t] ∧ index? t.text = some i ∧ 0 < i ∧ i < 2 ^ 31)
      (taken ['$'] indices node) found := by
  match indices with
  | [t] =>
    rw [selectItems_cons] at hselect
    obtain ⟨item, hitem, hfound⟩ := Option.bind_eq_some_iff.mp hselect
    obtain rfl : item = found := Option.some.inj hfound
    obtain ⟨items, i, hnode, hindex, hitem⟩ := exists_array_of_item hitem
    have hsettles : Settles _ (taken ['$'] [t] node) item :=
      settles_rootItem hnode hindex hitem hne
    refine ⟨?_, fun h => hsettles.other fun hi => h ⟨t, i, rfl, hindex, hi⟩⟩
    rintro ⟨u, j, hu, hj, hbounds⟩
    obtain rfl := (List.cons.inj hu).1
    obtain rfl := Option.some.inj (hj.symm.trans hindex)
    exact hsettles.same hbounds
  | t :: u :: rest =>
    refine settles_of_none ?_ hne
    rintro ⟨_, _, h, _⟩
    cases h

theorem agrees_field_iff :
    Agrees (render (taken f.name f.indices node)) (f.select node) ↔ FieldFollowed node f := by
  rw [FieldFollowed]
  cases hselect : f.select node with
  | none =>
    rw [agrees_render_none]
    refine forall_congr' fun found => imp_congr_left (taken_iff_mistaken fun hnil => ?_)
    rw [Field.select, hnil] at hselect
    cases hmember : node.member f.name with
    | none => rfl
    | some value =>
      rw [hmember] at hselect
      cases hselect
  | some found =>
    rw [agrees_render_some]
    exact and_congr_right fun hne => (settles_field hselect hne).render_iff

theorem agrees_root_iff {indices : List Index} (hindices : indices ≠ []) :
    Agrees (render (taken ['$'] indices node)) (selectItems node indices) ↔
      RootFollowed node indices := by
  rw [RootFollowed]
  cases hselect : selectItems node indices with
  | none =>
    rw [agrees_render_none]
    exact forall_congr' fun found =>
      imp_congr_left (taken_iff_mistaken fun hnil => absurd hnil hindices)
  | some found =>
    rw [agrees_render_some]
    exact and_congr_right fun hne => (settles_root hindices hselect hne).render_iff

/-! ## Whole paths -/

/-- The node that the source comes to over fields. -/
def takenFields (fields : List Field) (node : Json) : Option Json :=
  fields.foldlM (fun node f => taken f.name f.indices node) node

theorem takenFields_cons (f : Field) (fields : List Field) (node : Json) :
    takenFields (f :: fields) node = (taken f.name f.indices node).bind (takenFields fields) :=
    foldlM_cons ..

theorem foldlM_extract_fields (fields : List Field) (node : Json) :
    (fields.flatMap fun f => splitChars '.' f.text).foldlM extract node =
      takenFields fields node := by
  induction fields generalizing node with
  | nil => rfl
  | cons f fields ih =>
    rw [flatMap_cons, foldlM_append, Field.text, foldlM_extract f.plain, takenFields_cons]
    exact congrArg _ (funext ih)

/-- A node with the text of no node is a leaf, which is left only for no node. -/
theorem render_taken_of_null (h : found.toJson = nullText) (name : Text) (indices : List Index) :
    taken name indices found = some found ∨ taken name indices found = none := by
  have hpick : ∀ index, pick name index found = none := by
    intro index
    cases found with
    | object _ | array _ => rw [Json.toJson] at h; cases h
    | bool _ | null | number _ | string _ => rfl
  match indices with
  | [] =>
    rw [taken, hpick]
    split
    · exact .inl rfl
    · exact .inr rfl
  | [t] =>
    right
    rw [taken]
    cases reading t.text with
    | none => rfl
    | some index => exact hpick index
  | _ :: _ :: _ => exact .inr rfl

theorem render_takenFields_of_null (fields : List Field) (h : render c = nullText) :
    render (c.bind (takenFields fields)) = nullText := by
  induction fields generalizing c with
  | nil => rwa [show takenFields [] = some from rfl, Option.bind_fun_some]
  | cons f fields ih =>
    cases c with
    | none => rfl
    | some found =>
      rw [Option.bind_some, takenFields_cons]
      rcases render_taken_of_null h f.name f.indices with hsame | hnone
      · rw [hsame]
        exact ih h
      · rw [hnone]
        rfl

/-- Once nothing is reached and nothing legible taken, the results agree to the end of the path. -/
theorem agrees_bind_none (hagrees : Agrees (render c) none) (fields : List Field) :
    Agrees (render (c.bind (takenFields fields))) none := by
  have hnull := render_takenFields_of_null fields hagrees.1
  exact ⟨hnull, fun _ => rfl, fun _ => hnull⟩

/-- A field that is followed to a node takes this node. -/
theorem taken_of_followed (h : FieldFollowed node f) (hselect : f.select node = some found) :
    taken f.name f.indices node = some found := by
  rw [FieldFollowed, hselect] at h
  exact (settles_field hselect h.1).same h.2

theorem taken_of_rootFollowed {indices : List Index} (hindices : indices ≠ [])
    (h : RootFollowed node indices)
    (hselect : selectItems node indices = some found) : taken ['$'] indices node = some found := by
  rw [RootFollowed, hselect] at h
  exact (settles_root hindices hselect h.1).same h.2

/-- The node that fields reach. -/
def selectFields (fields : List Field) (node : Json) : Option Json :=
  fields.foldlM Field.select node

theorem selectFields_cons (f : Field) (fields : List Field) (node : Json) :
    selectFields (f :: fields) node = (f.select node).bind (selectFields fields) :=
    foldlM_cons ..

/-- From a node that both have come to, the results agree for all beginnings exactly if every field
is followed. -/
theorem agrees_fields_iff (fields : List Field) (node : Json) :
    (∀ first, first <+: fields → first ≠ [] →
      Agrees (render (takenFields first node)) (selectFields first node)) ↔
      FieldsFollowed node fields := by
  induction fields generalizing node with
  | nil =>
    refine iff_of_true (fun first hfirst hne => ?_) trivial
    exact absurd (prefix_nil.mp hfirst) hne
  | cons f fields ih =>
    constructor
    · intro h
      have hone := h [f] (prefix_append [f] fields) (cons_ne_nil f [])
      rw [takenFields_cons, selectFields_cons] at hone
      have hfollowed : FieldFollowed node f := by
        apply agrees_field_iff.mp
        have htaken : (taken f.name f.indices node).bind (takenFields []) =
            taken f.name f.indices node :=
          Option.bind_fun_some _
        have hselected : (f.select node).bind (selectFields []) = f.select node :=
          Option.bind_fun_some _
        rwa [htaken, hselected] at hone
      refine ⟨hfollowed, fun found hselect => (ih found).mp fun first hfirst hne => ?_⟩
      have hagrees :=
        h (f :: first) (cons_prefix_cons.mpr ⟨rfl, hfirst⟩) (cons_ne_nil f first)
      rwa [takenFields_cons, selectFields_cons, taken_of_followed hfollowed hselect,
        hselect] at hagrees
    · rintro ⟨hfollowed, hrest⟩ first hfirst hne
      cases first with
      | nil => exact absurd rfl hne
      | cons g first =>
        obtain ⟨rfl, hrestFirst⟩ := cons_prefix_cons.mp hfirst
        have hagrees := agrees_field_iff.mpr hfollowed
        rw [takenFields_cons, selectFields_cons]
        cases hselect : g.select node with
        | none =>
          rw [hselect] at hagrees
          exact agrees_bind_none hagrees first
        | some found =>
          rw [taken_of_followed hfollowed hselect]
          by_cases hnil : first = []
          · subst hnil
            rw [hselect, taken_of_followed hfollowed hselect] at hagrees
            exact hagrees
          · exact (ih found).mpr (hrest found hselect) first hrestFirst hnil

end Steps

section Paths

variable {yajl : Yajl} {doc : Document yajl} {p : Path}

/-- What `extract` comes to over all parts of a path. -/
theorem foldlM_extract_path (p : Path) (node : Json) :
    (fieldsOf p.text).foldlM extract node = (taken ['$'] p.root node).bind
    (takenFields p.fields) := by
  have hplain : IsPlain ['$'] := by simp [IsPlain]
  rw [fieldsOf_text, foldlM_append, foldlM_extract hplain]
  exact congrArg _ (funext (foldlM_extract_fields p.fields))

/-- The result for a path that takes a step. -/
theorem evaluate_text (doc : Document yajl) (hstep : p.TakesStep) :
    evaluate yajl doc.text p.text = render
    ((taken ['$'] p.root doc.tree).bind (takenFields p.fields)) := by
  have hjson : doc.text ≠ [] := by
    intro h
    have hparse := doc.treeParse_text
    rw [h, yajl.treeParse_nil] at hparse
    cases hparse
  have hpath : ¬ (p.text = ['$'] ∨ p.text = ['R'] ∨ p.text = []) := by
    rintro (h | h | h)
    · obtain ⟨hroot, hfields⟩ := append_eq_nil_iff.mp (List.cons.inj h).2
      rcases hstep with hstep | hstep
      · exact absurd (mem_brackets hstep (.inl rfl)) (by simp [hroot])
      · obtain ⟨f, fields, hcons⟩ := exists_cons_of_ne_nil hstep
        rw [hcons] at hfields
        cases hfields
    · cases (List.cons.inj h).1
    · cases h
  have hhead : ¬ (p.text.head? ≠ some '$' ∧ p.text.head? ≠ some 'R') := fun h => h.1 rfl
  rw [evaluate, if_neg hjson, if_neg hpath, if_neg hhead, doc.treeParse_text]
  exact congrArg render (foldlM_extract_path p doc.tree)

theorem right_iff (hstep : p.TakesStep) : Right yajl doc p ↔
    Agrees (render ((taken ['$'] p.root doc.tree).bind (takenFields p.fields)))
      ((selectItems doc.tree p.root).bind (selectFields p.fields)) := by
  rw [Right, evaluate_text doc hstep]
  rfl

/-- The path `$` gives the text of the document. -/
theorem right_whole_iff (hroot : p.root = []) (hfields : p.fields = []) :
    Right yajl doc p ↔ doc.text = doc.tree.toJson ∧ doc.text ≠ nullText := by
  have hpath : p.text = ['$'] := by rw [Path.text, hroot, hfields]; rfl
  have hresult : evaluate yajl doc.text p.text = doc.text := by
    rw [evaluate, if_pos (Or.inl hpath), ite_self]
  have hselect : p.select doc.tree = some doc.tree := by rw [Path.select, hroot, hfields]; rfl
  rw [Right, hresult, hselect]
  refine and_congr_right fun _ => ?_
  constructor
  · intro h hnull
    cases h.mp hnull
  · intro h
    exact iff_of_false h fun hnone => by cases hnone

/-- The indices after `$`, followed or absent, come to the node that they reach. -/
theorem taken_root (hroot : p.root ≠ [] → RootFollowed doc.tree p.root) {node : Json}
    (hselect : selectItems doc.tree p.root = some node) :
    taken ['$'] p.root doc.tree = some node := by
  by_cases hnil : p.root = []
  · rw [hnil] at hselect ⊢
    exact hselect
  · exact taken_of_rootFollowed hnil (hroot hnil) hselect

/-- A followed path has the right result for each of its beginnings. -/
theorem right_upTo (h : Followed yajl doc p) {fields : List Field} (hfirst : fields <+: p.fields)
    (hstep : (p.upTo fields).TakesStep) : Right yajl doc (p.upTo fields) := by
  rw [right_iff hstep]
  change Agrees (render ((taken ['$'] p.root doc.tree).bind (takenFields fields)))
    ((selectItems doc.tree p.root).bind (selectFields fields))
  have hroot : p.root ≠ [] →
      Agrees (render (taken ['$'] p.root doc.tree)) (selectItems doc.tree p.root) :=
    fun hne => (agrees_root_iff hne).mpr (h.root hne)
  cases hselect : selectItems doc.tree p.root with
  | none =>
    have hne : p.root ≠ [] := by
      intro hnil
      rw [hnil] at hselect
      cases hselect
    have hagrees := hroot hne
    rw [hselect] at hagrees
    exact agrees_bind_none hagrees fields
  | some node =>
    rw [taken_root h.root hselect]
    by_cases hnil : fields = []
    · subst hnil
      have hagrees := hroot (hstep.resolve_right fun h => h rfl)
      rwa [hselect, taken_root h.root hselect] at hagrees
    · exact (agrees_fields_iff p.fields node).mpr (h.fields node hselect) fields hfirst hnil

/-- **A path and its beginnings select the nodes that their steps reach exactly if every step is
followed.** -/
theorem getJsonObject_iff (yajl : Yajl) (doc : Document yajl) (p : Path) :
    RightAllAlong yajl doc p ↔ Followed yajl doc p := by
  constructor
  · rintro ⟨hright, hall⟩
    have hroot : p.root ≠ [] → RootFollowed doc.tree p.root := by
      intro hne
      have hagrees :=
        (right_iff (p := p.upTo []) (.inl hne)).mp (hall [] List.nil_prefix (.inl hne))
      have htaken : (taken ['$'] p.root doc.tree).bind (takenFields []) =
          taken ['$'] p.root doc.tree :=
        Option.bind_fun_some _
      have hselected : (selectItems doc.tree p.root).bind (selectFields []) =
          selectItems doc.tree p.root :=
        Option.bind_fun_some _
      apply (agrees_root_iff hne).mp
      rw [← htaken, ← hselected]
      exact hagrees
    refine ⟨fun hnil hfields => (right_whole_iff hnil hfields).mp hright, hroot,
      fun node hselect => ?_⟩
    refine (agrees_fields_iff p.fields node).mp fun first hfirst hne => ?_
    have hagrees := (right_iff (p := p.upTo first) (.inr hne)).mp (hall first hfirst (.inr hne))
    change Agrees (render ((taken ['$'] p.root doc.tree).bind (takenFields first)))
      ((selectItems doc.tree p.root).bind (selectFields first)) at hagrees
    rwa [taken_root hroot hselect, hselect] at hagrees
  · intro h
    refine ⟨?_, fun fields => right_upTo h⟩
    by_cases hstep : p.TakesStep
    · exact right_upTo h (List.prefix_refl p.fields) hstep
    · obtain ⟨hroot, hfields⟩ := not_or.mp hstep
      rw [right_whole_iff (not_not.mp hroot) (not_not.mp hfields)]
      exact h.whole (not_not.mp hroot) (not_not.mp hfields)

end Paths

/-! ## The first item of a document -/

/-- `yajl` on the array of one number. -/
def oneItemYajl : Yajl where
  treeParse text := if text = ['[', '7', ']'] then some (.array [.number ['7']]) else none
  treeParse_nil := rfl

/-- The document `[7]`. -/
def oneItem : Document oneItemYajl := ⟨['[', '7', ']'], .array [.number ['7']], rfl⟩

/-- The path `$[0]`. -/
def firstItem : Path := ⟨[⟨['0'], by decide⟩], []⟩

/-- `$[0]` of `[7]` is no node. -/
theorem not_right_firstItem : ¬ Right oneItemYajl oneItem firstItem := by
  intro h
  have hresult : nullText = ['7'] := h.1
  exact absurd hresult (by decide)

end Idgs.Expr.GetJsonObject
