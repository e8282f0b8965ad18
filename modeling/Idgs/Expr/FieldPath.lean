import Idgs.Expr.Factory

/-!
# Field paths

`FieldExtractor` with nested messages. Parsing walks down the templates of the row's messages and
evaluation the messages themselves, both through `MutableMessage`, which sets a field of a message
that is not set. A field that is no message leaves the walk where it is, so that the next part of
the path is looked up beside it.
-/

namespace Idgs.Expr.FieldExtractor

open Function List

/-! ## Types and messages -/

/-- What a field is: a scalar, with the value that is read where it is not set, or a message of a
type. -/
inductive FieldType (T C : Type*)
  | scalar (defaultValue : C)
  | message (type : T)

/-- `google::protobuf::FieldDescriptor`. -/
structure FieldDescriptor (T C : Type*) where
  type : FieldType T C
  isRepeated : Bool := false

/-- The message types with their fields. -/
structure Schema (T C : Type*) where
  findFieldByName : T → String → Option (FieldDescriptor T C)
  name_ne : ∀ t, findFieldByName t "" = none

/-- A message: its singular fields that are set. -/
inductive Message (C : Type*)
  | mk (scalars : String → Option C) (messages : String → Option (Message C))

namespace Message

variable {C : Type*}

def scalars : Message C → String → Option C
  | mk scalars _ => scalars

def messages : Message C → String → Option (Message C)
  | mk _ messages => messages

/-- A message without fields that are set. -/
def empty : Message C := mk (fun _ => none) fun _ => none

/-- A nested message is put in its place. -/
def setMessage (m : Message C) (name : String) (sub : Message C) : Message C :=
  mk m.scalars (Function.update m.messages name (some sub))

/-- The nested message that `MutableMessage` returns; one that is not set is made. -/
def mutableMessage (m : Message C) (name : String) : Message C := (m.messages name).getD empty

theorem setMessage_eq_iff {m sub : Message C} {name : String} :
    m.setMessage name sub = m ↔ m.messages name = some sub := by
  cases m with
  | mk scalars messages =>
    constructor
    · intro h
      have hmessages : update messages name (some sub) = messages := (Message.mk.inj h).2
      exact (congrFun hmessages name).symm.trans (update_self ..)
    · intro h
      have hsub : messages name = some sub := h
      have hmessages : update messages name (some sub) = messages := by
        rw [← hsub, update_eq_self]
      exact congrArg (mk scalars) hmessages

/-- The value at the end of a path, if all fields on it are set. -/
def lookup : Message C → List String → Option C
  | _, [] => none
  | m, [name] => m.scalars name
  | m, name :: next :: rest => (m.messages name).bind fun sub => sub.lookup (next :: rest)

end Message

/-! ## Parsing -/

/-- A `ParsedField`, whose reflection is the one for its field. -/
structure ParsedField (T C : Type*) where
  path : String
  fieldDescriptor : FieldDescriptor T C

/-- Why there is no result: `parse` returned false, or the program ended in a check of the library
or in a vector. -/
inductive Fault
  | failed | aborted
deriving DecidableEq

variable {T C : Type*}

/-- The loop of `FieldExtractor::parse`. -/
def parsePath (S : Schema T C) :
    T → Message C → List String → Except Fault (List (ParsedField T C)) × Message C
  | _, msg, [] => (.ok [], msg)
  | t, msg, path :: rest =>
    match S.findFieldByName t path with
    | none => (.error .failed, msg)
    | some fieldDescriptor =>
      match fieldDescriptor.type with
      | .scalar _ =>
        let parsed := parsePath S t msg rest
        (parsed.1.map ({ path, fieldDescriptor } :: ·), parsed.2)
      | .message t' =>
        if fieldDescriptor.isRepeated then (.error .aborted, msg)
        else
          let parsed := parsePath S t' (msg.mutableMessage path) rest
          (parsed.1.map ({ path, fieldDescriptor } :: ·), msg.setMessage path parsed.2)

/-- The message that the first part of a path is looked up in: the key, if its type has the
field. -/
def targetOf (S : Schema T C) (keyType : T) (first : String) : Target :=
  if (S.findFieldByName keyType first).isSome then .key else .value

/-- `FieldExtractor::parse` for an expression with a value and no subexpressions, and what it makes
of the templates. -/
def parse (S : Schema T C) (types : Target → T) (path : String) (templates : Target → Message C) :
    Except Fault (Target × List (ParsedField T C)) × (Target → Message C) :=
  match split path '.' with
  | [] => (.error .aborted, templates)
  | first :: rest =>
    let target := targetOf S (types .key) first
    let parsed := parsePath S (types target) (templates target) (first :: rest)
    (parsed.1.map fun fields => (target, fields), Function.update templates target parsed.2)

/-! ## Evaluation -/

/-- `PbVariant` with a value of a field. -/
structure Variant (C : Type*) where
  value : Option C := none
  isNull : Bool := true

/-- The loop of `FieldExtractor::evaluate`. Behind a message, the reflection of the outer message is
asked for a field of the inner one; what it then reads is left open. -/
def evaluatePath (foreign : ParsedField T C → Message C → Bool) :
    List (ParsedField T C) → Message C → Variant C → Except Fault (Variant C) × Message C
  | [], msg, var => (.ok var, msg)
  | field :: rest, msg, var =>
    match field.fieldDescriptor.type with
    | .scalar defaultValue =>
      if field.fieldDescriptor.isRepeated then (.error .aborted, msg)
      else
        evaluatePath foreign rest msg
          { value := some ((msg.scalars field.path).getD defaultValue)
            isNull := (msg.scalars field.path).isNone }
    | .message _ =>
      let sub := msg.mutableMessage field.path
      let evaluated := evaluatePath foreign rest sub { var with isNull := foreign field sub }
      (evaluated.1, msg.setMessage field.path evaluated.2)

/-- `FieldExtractor::evaluate`, and what it makes of the row. -/
def evaluate (foreign : ParsedField T C → Message C → Bool)
    (extractor : Target × List (ParsedField T C))
    (row : Target → Message C) : Except Fault (Variant C) × (Target → Message C) :=
  let evaluated := evaluatePath foreign extractor.2 (row extractor.1) {}
  (evaluated.1, Function.update row extractor.1 evaluated.2)

/-! ## What a path should be -/

/-- A path is a chain of message fields that ends in a singular scalar field. -/
def Chain (S : Schema T C) : T → List String → Prop
  | _, [] => False
  | t, [name] => ∃ defaultValue, S.findFieldByName t name = some { type := .scalar defaultValue }
  | t, name :: next :: rest =>
    ∃ t', S.findFieldByName t name = some { type := .message t' } ∧ Chain S t' (next :: rest)

/-- The parts of a path between its dots. -/
def components (path : String) : List String := (splitChars '.' path.toList).map String.ofList

/-- The message type that a path starts in: that of the key, or else that of the value. -/
def start (S : Schema T C) (types : Target → T) (names : List String) : Target :=
  match names with
  | [] => .value
  | first :: _ => targetOf S (types .key) first

/-- A path names a field of the key, or else of the value. -/
def Names (S : Schema T C) (types : Target → T) (path : String) : Prop :=
  Chain S (types (start S types (components path))) (components path)

/-- Exactly the paths that name a field are parsed, it is the field's value that is extracted, null
exactly if some field of the path is not set, and neither the templates nor the row are changed. -/
structure Right (S : Schema T C) (types : Target → T) (foreign : ParsedField T C → Message C → Bool)
    (path : String)
    (templates row : Target → Message C) : Prop where
  parses : Names S types path → ∃ extractor, (parse S types path templates).1 = .ok extractor
  fails : ¬ Names S types path → (parse S types path templates).1 = .error .failed
  leaves : (parse S types path templates).2 = templates
  extracts : Names S types path → ∀ extractor, (parse S types path templates).1 = .ok extractor →
    ∃ var, evaluate foreign extractor row = (.ok var, row) ∧
      (var.isNull = true ↔ (row (start S types (components path))).lookup (components path) =
      none) ∧
      ∀ x, (row (start S types (components path))).lookup (components path) = some x →
      var.value = some x

/-! ## The walk -/

/-- The walk gets to a part of the path that is no field where it stands. -/
def Stops (S : Schema T C) : T → List String → Prop
  | _, [] => False
  | t, name :: rest =>
    match S.findFieldByName t name with
    | none => True
    | some field =>
      match field.type with
      | .scalar _ => Stops S t rest
      | .message t' => field.isRepeated = false ∧ Stops S t' rest

/-- The message fields that the walk goes through are set. -/
def MessagesSet (S : Schema T C) : T → Message C → List String → Prop
  | _, _, [] => True
  | t, m, name :: rest =>
    match S.findFieldByName t name with
    | none => True
    | some field =>
      match field.type with
      | .scalar _ => MessagesSet S t m rest
      | .message t' => field.isRepeated = true ∨ ∃ sub, m.messages name = some sub ∧
          MessagesSet S t' sub rest

section Walk

variable {S : Schema T C} {t : T} {m : Message C} {names : List String}

theorem map_eq_error_iff {α β : Type*} {f : α → β} {x : Except Fault α} {fault : Fault} :
    x.map f = .error fault ↔ x = .error fault := by
  cases x with
  | error fault' => exact ⟨fun h => by cases h; rfl, fun h => by cases h; rfl⟩
  | ok a => exact ⟨fun h => (by cases h), fun h => (by cases h)⟩

theorem parsePath_failed_iff : (parsePath S t m names).1 = .error .failed ↔ Stops S t names := by
  induction names generalizing t m with
  | nil =>
    constructor
    · intro h
      rw [parsePath] at h
      cases h
    · exact False.elim
  | cons name rest ih =>
    rw [parsePath, Stops]
    cases hfield : S.findFieldByName t name with
    | none => exact ⟨fun _ => trivial, fun _ => rfl⟩
    | some field =>
      obtain ⟨type, isRepeated⟩ := field
      cases type with
      | scalar defaultValue => exact map_eq_error_iff.trans ih
      | message t' =>
        cases isRepeated with
        | true =>
          constructor
          · intro h
            cases h
          · rintro ⟨hsingular, -⟩
            cases hsingular
        | false => exact map_eq_error_iff.trans (ih.trans (and_iff_right rfl).symm)

/-- A nested message that is put back as it was made is one that was set. -/
theorem set_back_iff (m : Message C) (name : String) {f : Message C → Message C}
    {P : Message C → Prop} (hf : ∀ sub, f sub = sub ↔ P sub) :
    m.setMessage name (f (m.mutableMessage name)) = m ↔ ∃ sub, m.messages name = some sub ∧
    P sub := by
  rw [Message.setMessage_eq_iff]
  constructor
  · intro h
    have hsub : m.mutableMessage name = f (m.mutableMessage name) := by
      nth_rewrite 1 [Message.mutableMessage]
      rw [h]
      rfl
    refine ⟨m.mutableMessage name, ?_, (hf _).mp hsub.symm⟩
    rw [hsub, ← h]
  · rintro ⟨sub, hsub, hset⟩
    have hmutable : m.mutableMessage name = sub := by
      rw [Message.mutableMessage, hsub]
      rfl
    rw [hmutable, (hf sub).mpr hset]
    exact hsub

theorem parsePath_leaves_iff : (parsePath S t m names).2 = m ↔ MessagesSet S t m names := by
  induction names generalizing t m with
  | nil => exact ⟨fun _ => trivial, fun _ => rfl⟩
  | cons name rest ih =>
    rw [parsePath, MessagesSet]
    cases hfield : S.findFieldByName t name with
    | none => exact ⟨fun _ => trivial, fun _ => rfl⟩
    | some field =>
      obtain ⟨type, isRepeated⟩ := field
      cases type with
      | scalar defaultValue => exact ih
      | message t' =>
        cases isRepeated with
        | true => exact ⟨fun _ => .inl rfl, fun _ => rfl⟩
        | false =>
          have hsub : ∀ sub, (parsePath S t' sub rest).2 = sub ↔
              MessagesSet S t' sub rest := fun _ => ih
          have hback := set_back_iff m name hsub
          exact hback.trans (or_iff_right Bool.false_ne_true).symm

theorem lookup_empty (names : List String) : (Message.empty : Message C).lookup names = none := by
  match names with
  | [] => rfl
  | [_] => rfl
  | _ :: _ :: _ => rfl

/-- The extractor of a chain of fields. -/
structure Extracts (S : Schema T C) (foreign : ParsedField T C → Message C → Bool) (t : T)
    (names : List String)
    (fields : List (ParsedField T C)) : Prop where
  parsed : ∀ m, (parsePath S t m names).1 = .ok fields
  leaves : ∀ m var, (evaluatePath foreign fields m var).2 = m ↔ MessagesSet S t m names
  value : ∀ m var, ∃ var', (evaluatePath foreign fields m var).1 = .ok var' ∧
    (var'.isNull = true ↔ m.lookup names = none) ∧ ∀ x, m.lookup names = some x →
    var'.value = some x

theorem extracts_scalar {foreign : ParsedField T C → Message C → Bool} {name : String}
    {defaultValue : C} (h : S.findFieldByName t name = some { type := .scalar defaultValue }) :
    Extracts S foreign t [name]
      [{ path := name, fieldDescriptor := { type := .scalar defaultValue } }] where
  parsed m := by
    rw [parsePath, h, parsePath]
    rfl
  leaves m var := by
    rw [MessagesSet, h]
    exact ⟨fun _ => trivial, fun _ => rfl⟩
  value m var := by
    refine ⟨_, rfl, Option.isNone_iff_eq_none, fun x hx => ?_⟩
    have hscalar : m.scalars name = some x := hx
    rw [hscalar]
    rfl

theorem Extracts.message {foreign : ParsedField T C → Message C → Bool} {name next : String}
    {rest : List String} {t' : T} {fields : List (ParsedField T C)}
    (h : S.findFieldByName t name = some { type := .message t' })
    (hfields : Extracts S foreign t' (next :: rest) fields) :
    Extracts S foreign t (name :: next :: rest)
      ({ path := name, fieldDescriptor := { type := .message t' } } :: fields) where
  parsed m := by
    rw [parsePath, h]
    simp only [hfields.parsed]
    rfl
  leaves m var := by
    rw [MessagesSet, h]
    have hback := set_back_iff m name fun sub => hfields.leaves sub
      { var with
        isNull := foreign { path := name, fieldDescriptor := { type := .message t' } } sub }
    exact hback.trans (or_iff_right Bool.false_ne_true).symm
  value m var := by
    obtain ⟨var', heval, hnull, hvalue⟩ := hfields.value (m.mutableMessage name)
      { var with
        isNull :=
          foreign { path := name, fieldDescriptor := { type := .message t' } }
            (m.mutableMessage name) }
    refine ⟨var', heval, ?_⟩
    rw [Message.lookup]
    cases hsub : m.messages name with
    | none =>
      rw [Message.mutableMessage, hsub] at hnull
      refine ⟨⟨fun _ => rfl, fun _ => hnull.mpr (lookup_empty _)⟩, fun x hx => ?_⟩
      cases hx
    | some sub =>
      rw [Message.mutableMessage, hsub] at hnull hvalue
      exact ⟨hnull, hvalue⟩

theorem exists_extracts (foreign : ParsedField T C → Message C → Bool) (h : Chain S t names) :
    ∃ fields, Extracts S foreign t names fields := by
  induction names generalizing t with
  | nil => exact h.elim
  | cons name rest ih =>
    cases rest with
    | nil =>
      obtain ⟨defaultValue, hfield⟩ := h
      exact ⟨_, extracts_scalar hfield⟩
    | cons next rest =>
      obtain ⟨t', hfield, hchain⟩ := h
      obtain ⟨fields, hfields⟩ := ih hchain
      exact ⟨_, hfields.message hfield⟩

end Walk

/-! ## When paths are read rightly -/

section Main

variable {S : Schema T C} {types : Target → T} {path : String} {templates row : Target → Message C}
    {t : T}
  {names : List String}

theorem getLast_ne_of_chain (h : Chain S t names) : names.getLast? ≠ some "" := by
  induction names generalizing t with
  | nil => exact h.elim
  | cons name rest ih =>
    cases rest with
    | nil =>
      obtain ⟨defaultValue, hfield⟩ := h
      intro hlast
      cases hlast
      rw [S.name_ne] at hfield
      cases hfield
    | cons next rest =>
      obtain ⟨t', -, hchain⟩ := h
      rw [getLast?_cons_cons]
      exact ih hchain

/-- `split` drops nothing of a path that names a field. -/
theorem split_of_names (h : Names S types path) : split path '.' = components path := by
  have hlast := getLast_ne_of_chain h
  unfold split
  simp only
  rw [if_neg]
  · rfl
  · intro hnil
    refine hlast ?_
    rw [components, getLast?_map, hnil]
    rfl

theorem update_eq_iff {α β : Type*} [DecidableEq α] {f : α → β} {a : α} {b : β} :
    update f a b = f ↔ b = f a := by
  constructor
  · intro h
    rw [← h, update_self]
  · rintro rfl
    exact update_eq_self a f

/-- The message fields that the walk along a path goes through are set in the messages. -/
def PathSet (S : Schema T C) (types : Target → T) (path : String) (messages : Target → Message C) :
    Prop :=
  let target := start S types (split path '.')
  MessagesSet S (types target) (messages target) (split path '.')

/-- The walk along a path gets to a part that is no field where it stands. -/
def PathStops (S : Schema T C) (types : Target → T) (path : String) : Prop :=
  Stops S (types (start S types (split path '.'))) (split path '.')

theorem parse_leaves_iff :
    (parse S types path templates).2 = templates ↔ PathSet S types path templates := by
  unfold parse PathSet
  cases split path '.' with
  | nil => exact ⟨fun _ => trivial, fun _ => rfl⟩
  | cons first rest => exact update_eq_iff.trans parsePath_leaves_iff

theorem parse_failed_iff :
    (parse S types path templates).1 = .error .failed ↔ PathStops S types path := by
  unfold parse PathStops
  cases split path '.' with
  | nil => exact ⟨fun h => (by cases h), False.elim⟩
  | cons first rest => exact map_eq_error_iff.trans parsePath_failed_iff

/-- A path that names a field is parsed to an extractor of its value. -/
theorem exists_extractor (foreign : ParsedField T C → Message C → Bool) (h : Names S types path) :
    ∃ fields, Extracts S foreign (types (start S types (split path '.'))) (split path '.') fields ∧
      ∀ templates, (parse S types path templates).1 = .ok
      (start S types (split path '.'), fields) := by
  have hsplit := split_of_names h
  obtain ⟨fields, hfields⟩ := exists_extracts foreign h
  rw [← hsplit] at hfields
  refine ⟨fields, hfields, fun templates => ?_⟩
  have hparsed := hfields.parsed
  unfold parse
  cases hparts : split path '.' with
  | nil =>
    rw [Names, ← hsplit, hparts] at h
    exact h.elim
  | cons first rest =>
    rw [hparts] at hparsed
    have hok := hparsed (templates (start S types (first :: rest)))
    exact congrArg (Except.map fun fields => (start S types (first :: rest), fields)) hok

/-- Field paths are read rightly exactly if all message fields that parsing goes through are set in
the template and either the path names a field and they are set in the row, too, or it names none
and parsing gets to a part that is no field where it stands. -/
theorem fieldPath_iff (S : Schema T C) (types : Target → T)
    (foreign : ParsedField T C → Message C → Bool) (path : String)
    (templates row : Target → Message C) : Right S types foreign path templates row ↔
      PathSet S types path templates ∧
        (Names S types path ∧ PathSet S types path row ∨ ¬ Names S types path ∧
          PathStops S types path) := by
  constructor
  · intro h
    refine ⟨parse_leaves_iff.mp h.leaves, ?_⟩
    by_cases hnames : Names S types path
    · obtain ⟨fields, hfields, hparse⟩ := exists_extractor foreign hnames
      obtain ⟨var, heval, -⟩ := h.extracts hnames _ (hparse templates)
      exact .inl ⟨hnames, (hfields.leaves _ _).mp (update_eq_iff.mp (congrArg Prod.snd heval))⟩
    · exact .inr ⟨hnames, parse_failed_iff.mp (h.fails hnames)⟩
  · rintro ⟨htemplates, hrow⟩
    refine ⟨fun hnames => ?_, fun hnames => ?_, parse_leaves_iff.mpr htemplates,
      fun hnames extractor hparsed => ?_⟩
    · obtain ⟨fields, -, hparse⟩ := exists_extractor foreign hnames
      exact ⟨_, hparse templates⟩
    · exact parse_failed_iff.mpr (hrow.resolve_left fun h => hnames h.1).2
    · obtain ⟨fields, hfields, hparse⟩ := exists_extractor foreign hnames
      rw [hparse templates] at hparsed
      cases hparsed
      have hset := (hrow.resolve_right fun h => h.1 hnames).2
      rw [← split_of_names hnames]
      obtain ⟨var, heval, hnull, hvalue⟩ := hfields.value (row (start S types (split path '.'))) {}
      exact ⟨var, Prod.ext heval (update_eq_iff.mpr ((hfields.leaves _ _).mpr hset)), hnull, hvalue⟩

/-! ## A nested field -/

/-- A key or value with a message `address`, which has a text `city`. -/
def addressSchema : Schema Bool String where
  findFieldByName inner name :=
    if inner then if name = "city" then some { type := .scalar "" } else none
    else if name = "address" then some { type := .message true } else none
  name_ne inner := by cases inner <;> rfl

/-- A path to a nested field sets the message around it in the template. -/
theorem not_right_address :
    ¬ Right addressSchema (fun _ => false) (fun _ _ => false) "address.city"
    (fun _ => .empty) fun _ => .empty := by
  intro h
  have hset :
      ((parse addressSchema (fun _ => false) "address.city" fun _ => .empty).2 .key).messages
      "address" ≠
      none := Option.some_ne_none _
  rw [h.leaves] at hset
  exact hset rfl

end Main

end Idgs.Expr.FieldExtractor
