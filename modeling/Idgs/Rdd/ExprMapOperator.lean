import Mathlib.Order.WithBot

/-!
# ExprMapOperator

The operator makes the key and the value of an output row from the listed expressions, unless the
type of the output has the name of the input's: then the output is the input message itself, and the
expressions are not looked at. What reduce operators later write into the output, they write into
the stored row then. Fields of messages and enumerators are listed, evaluated and skipped.
-/

namespace Idgs.Rdd.Op

open List

/-! ## Messages and expressions -/

/-- `FieldDescriptor::CppType`. -/
inductive CppType
  | int32 | int64 | uint32 | uint64 | double | float | bool | enum | string | message
deriving DecidableEq

/-- `google::protobuf::FieldDescriptor`. -/
structure FieldDescriptor where
  name : String
  cppType : CppType
  isRepeated : Bool := false
deriving DecidableEq

/-- `google::protobuf::Descriptor`: the name of a type and its fields. -/
structure Descriptor where
  fullName : String
  fields : List FieldDescriptor

/-- `Descriptor::FindFieldByName`. -/
def Descriptor.findFieldByName (d : Descriptor) (name : String) : Option FieldDescriptor :=
  d.fields.find? fun field => field.name = name

/-- What a message holds: `⊥` for a field that is not set. -/
abbrev Content (C : Type*) := String → WithBot C

/-- The contents of the key and the value of a row. -/
abbrev Row (C : Type*) := Content C × Content C

/-- An expression with its value on a row, `none` when it throws, and the row afterwards. Extracting
a field may set unset messages on its path; it never unsets anything. -/
structure Expression (V C : Type*) [PartialOrder C] where
  evaluate : Row C → Option V × Row C
  grows : ∀ row, row ≤ (evaluate row).2

/-- The casts of `PbVariant`, to `bool` and to the types of fields; `none` when they throw. -/
structure Casts (V C : Type*) where
  castBool : V → Bool
  cast : CppType → V → Option C

variable {V C E : Type*} [PartialOrder C]

/-! ## Parsing -/

/-- A field of `InRddInfo::out_fields`. -/
structure OutField (E : Type*) where
  fieldAlias : Option String
  name : String
  value : Option String
  expr : E

/-- The alias of a field; without one, it is the path of a `FIELD` expression. -/
def OutField.alias? (fld : OutField E) : Option String :=
  match fld.fieldAlias with
  | some fieldAlias => some fieldAlias
  | none => if fld.name ≠ "FIELD" then none else fld.value

/-- `pb::InRddInfo`. -/
structure InRddInfo (E : Type*) where
  filterExpr : Option E
  outFields : List (OutField E)

/-- `pb::OutRddInfo`: the names of the fields. -/
structure OutRddInfo where
  keyFields : List String
  valueFields : List String

/-- The types of an RDD's keys and values. -/
structure RddLocal where
  keyTemplate : Descriptor
  valueTemplate : Descriptor

/-- `ReUseType`. -/
inductive ReUseType
  | reuseNone | reuseKey | reuseValue
deriving DecidableEq

/-- `OutMessageInfo`. -/
structure OutMessageInfo (V C : Type*) [PartialOrder C] where
  templateMessage : Descriptor
  reuse : ReUseType
  outFields : List (FieldDescriptor × Expression V C)

/-- `ExprMapOperator`. -/
structure ExprMapOperator (V C : Type*) [PartialOrder C] where
  filterExpr : Option (Expression V C)
  key : OutMessageInfo V C
  value : OutMessageInfo V C

/-- The loop of `ExprMapOperator::parse` that fills `exprMap`: an alias that is already there is
passed over. -/
def parseOutFields (build : E → Option (Expression V C)) :
    List (OutField E) → List (String × Expression V C) → Option (List (String × Expression V C))
  | [], exprMap => some exprMap
  | fld :: rest, exprMap =>
    match fld.alias? with
    | none => none
    | some fieldAlias =>
      match exprMap.lookup fieldAlias with
      | some _ => parseOutFields build rest exprMap
      | none =>
        match build fld.expr with
        | none => none
        | some expr => parseOutFields build rest ((fieldAlias, expr) :: exprMap)

/-- The loops of `ExprMapOperator::parse` around `OutMessageInfo::addField`: a field without an
expression is passed over, one that the type does not have fails. -/
def addFields (templateMessage : Descriptor) (exprMap : List (String × Expression V C)) :
    List String → Option (List (FieldDescriptor × Expression V C))
  | [] => some []
  | fieldName :: rest =>
    match exprMap.lookup fieldName with
    | none => addFields templateMessage exprMap rest
    | some srcExpr =>
      match templateMessage.findFieldByName fieldName with
      | none => none
      | some outField => (addFields templateMessage exprMap rest).map ((outField, srcExpr) :: ·)

/-- `ExprMapOperator::parse`; a filter that cannot be built is left out. -/
def parse (build : E → Option (Expression V C)) (inRddInfo : InRddInfo E) (outRddInfo : OutRddInfo)
    (inRddLocal outRddLocal : RddLocal) : Option (ExprMapOperator V C) := do
  let exprMap ← parseOutFields build inRddInfo.outFields []
  let keyFields ← addFields outRddLocal.keyTemplate exprMap outRddInfo.keyFields
  let valueFields ← addFields outRddLocal.valueTemplate exprMap outRddInfo.valueFields
  some
    { filterExpr := inRddInfo.filterExpr.bind build
      key :=
        { templateMessage := outRddLocal.keyTemplate
          reuse := if inRddLocal.keyTemplate.fullName = outRddLocal.keyTemplate.fullName then
            .reuseKey else .reuseNone
          outFields := keyFields }
      value :=
        { templateMessage := outRddLocal.valueTemplate
          reuse :=
            if inRddLocal.valueTemplate.fullName = outRddLocal.valueTemplate.fullName then
              .reuseValue
            else .reuseNone
          outFields := valueFields } }

/-! ## Evaluation -/

/-- Why evaluation stops: an exception, or reflection on a repeated field, which aborts the
program. -/
inductive Stop
  | threw | aborted
deriving DecidableEq

/-- An output message: one of the input's, or a new one. -/
inductive OutMessage (C : Type*)
  | inputKey | inputValue
  | made (content : Content C)

/-- What `ExprMapOperator::evaluate` ends with. -/
inductive Outcome (C : Type*)
  | filtered
  | stopped (stop : Stop)
  | returned (outkey outvalue : OutMessage C)

/-- The switch of `OutMessageInfo::fillMessage`. -/
def setField (casts : Casts V C) (field : FieldDescriptor) (var : V) (output : Content C) :
    Except Stop (Content C) :=
  match field.cppType with
  | .enum | .message => .ok output
  | type =>
    match casts.cast type var with
    | none => .error .threw
    | some x => if field.isRepeated then .error .aborted
        else .ok (Function.update output field.name x)

/-- The loop of `OutMessageInfo::fillMessage`. -/
def fillFields (casts : Casts V C) :
    List (FieldDescriptor × Expression V C) → Row C → Content C → Except Stop (Content C) × Row C
  | [], row, output => (.ok output, row)
  | (field, srcExpr) :: rest, row, output =>
    match srcExpr.evaluate row with
    | (none, row) => (.error .threw, row)
    | (some var, row) =>
      match setField casts field var output with
      | .error stop => (.error stop, row)
      | .ok output => fillFields casts rest row output

/-- `OutMessageInfo::fillMessage` for an output pointer that is null. -/
def OutMessageInfo.fillMessage (info : OutMessageInfo V C) (casts : Casts V C) (row : Row C) :
    Except Stop (OutMessage C) × Row C :=
  match info.reuse with
  | .reuseKey => (.ok .inputKey, row)
  | .reuseValue => (.ok .inputValue, row)
  | .reuseNone =>
    let filled := fillFields casts info.outFields row fun _ => ⊥
    (filled.1.map .made, filled.2)

/-- The end of `ExprMapOperator::evaluate`, behind the filter. -/
def ExprMapOperator.fill (op : ExprMapOperator V C) (casts : Casts V C) (row : Row C) :
    Outcome C × Row C :=
  match op.key.fillMessage casts row with
  | (.error stop, row) => (.stopped stop, row)
  | (.ok outkey, row) =>
    match op.value.fillMessage casts row with
    | (.error stop, row) => (.stopped stop, row)
    | (.ok outvalue, row) => (.returned outkey outvalue, row)

/-- `ExprMapOperator::evaluate`. -/
def ExprMapOperator.evaluate (op : ExprMapOperator V C) (casts : Casts V C) (row : Row C) :
    Outcome C × Row C :=
  match op.filterExpr with
  | none => op.fill casts row
  | some filterExpr =>
    match filterExpr.evaluate row with
    | (none, row) => (.stopped .threw, row)
    | (some var, row) => if casts.castBool var then op.fill casts row else (.filtered, row)

/-! ## Later updates -/

/-- A row and the output made from it. -/
structure Mapped (C : Type*) where
  row : Row C
  outkey : OutMessage C
  outvalue : OutMessage C

/-- The content of an output message. -/
def OutMessage.content (row : Row C) : OutMessage C → Content C
  | .inputKey => row.1
  | .inputValue => row.2
  | .made content => content

/-- A field of an output message is written in place. -/
def OutMessage.write (row : Row C) (name : String) (x : WithBot C) :
    OutMessage C → OutMessage C × Row C
  | .inputKey => (.inputKey, (Function.update row.1 name x, row.2))
  | .inputValue => (.inputValue, (row.1, Function.update row.2 name x))
  | .made content => (.made (Function.update content name x), row)

/-- An update of one field of the output's key or value. -/
inductive Update (C : Type*)
  | key (name : String) (x : WithBot C)
  | value (name : String) (x : WithBot C)

/-- `MessageHelper::setMessageValue` on the output, as reduce operators call it; a field that the
type does not have is not written. -/
def ExprMapOperator.update (op : ExprMapOperator V C) (m : Mapped C) : Update C → Mapped C
  | .key name x =>
    if (op.key.templateMessage.findFieldByName name).isSome then
      let written := m.outkey.write m.row name x
      { m with outkey := written.1, row := written.2 }
    else m
  | .value name x =>
    if (op.value.templateMessage.findFieldByName name).isSome then
      let written := m.outvalue.write m.row name x
      { m with outvalue := written.1, row := written.2 }
    else m

/-! ## What parsing finds -/

section Parsing

variable {build : E → Option (Expression V C)} {inRddInfo : InRddInfo E} {outRddInfo : OutRddInfo}
  {inRddLocal outRddLocal : RddLocal} {op : ExprMapOperator V C}

/-- The expression of an output field: that of the first listed field with this alias. -/
def exprOf (build : E → Option (Expression V C)) (outFields : List (OutField E)) (name : String) :
    Option (Expression V C) :=
  (outFields.find? fun fld => fld.alias? = some name).bind fun fld => build fld.expr

/-- An output field is listed and has an expression. -/
def Listed (build : E → Option (Expression V C)) (outFields : List (OutField E))
    (names : List String) (name : String)
    (expr : Expression V C) : Prop :=
  name ∈ names ∧ exprOf build outFields name = some expr

theorem lookup_parseOutFields {fields : List (OutField E)}
    {exprMap exprMap' : List (String × Expression V C)}
    (h : parseOutFields build fields exprMap = some exprMap') (name : String) :
    exprMap'.lookup name = (exprMap.lookup name).or (exprOf build fields name) := by
  induction fields generalizing exprMap with
  | nil =>
    cases h
    exact Option.or_none.symm
  | cons fld fields ih =>
    rw [parseOutFields] at h
    cases halias : fld.alias? with
    | none =>
      rw [halias] at h
      cases h
    | some fieldAlias =>
      rw [halias] at h
      by_cases hname : fieldAlias = name
      · subst hname
        have hfirst : exprOf build (fld :: fields) fieldAlias = build fld.expr := by
          rw [exprOf, find?_cons_of_pos (by simpa using halias)]
          rfl
        cases hlookup : exprMap.lookup fieldAlias with
        | some expr =>
          simp only [hlookup] at h
          rw [ih h, hlookup]
          rfl
        | none =>
          cases hbuild : build fld.expr with
          | none =>
            simp only [hlookup, hbuild] at h
            cases h
          | some expr =>
            simp only [hlookup, hbuild] at h
            rw [ih h, hfirst, hbuild, lookup_cons_self]
            rfl
      · have hrest : exprOf build (fld :: fields) name = exprOf build fields name := by
          rw [exprOf, find?_cons_of_neg (by simpa [halias] using hname)]
          rfl
        cases hlookup : exprMap.lookup fieldAlias with
        | some expr =>
          simp only [hlookup] at h
          rw [ih h, hrest]
        | none =>
          cases hbuild : build fld.expr with
          | none =>
            simp only [hlookup, hbuild] at h
            cases h
          | some expr =>
            simp only [hlookup, hbuild] at h
            rw [ih h, hrest, lookup_cons, beq_false_of_ne (Ne.symm hname)]

/-- The fields of an output message are those that are listed, each as the type has it. -/
structure OutMessageInfo.Lists (info : OutMessageInfo V C)
    (listed : String → Expression V C → Prop) : Prop where
  found : ∀ p ∈ info.outFields, info.templateMessage.findFieldByName p.1.name = some p.1
  sound : ∀ p ∈ info.outFields, listed p.1.name p.2
  mem : ∀ name expr, listed name expr →
    ∃ field, info.templateMessage.findFieldByName name = some field ∧
    (field, expr) ∈ info.outFields
  unique : ∀ name expr expr', listed name expr → listed name expr' → expr = expr'

theorem findFieldByName_name {d : Descriptor} {name : String} {field : FieldDescriptor}
    (h : d.findFieldByName name = some field) : field.name = name := by
  have hname := find?_some h
  exact of_decide_eq_true hname

theorem lists_of_addFields {exprMap : List (String × Expression V C)} {templateMessage : Descriptor}
    {names : List String} {outFields : List (FieldDescriptor × Expression V C)} (reuse : ReUseType)
    (h : addFields templateMessage exprMap names = some outFields) :
    ({ templateMessage, reuse, outFields } : OutMessageInfo V C).Lists
      fun name expr => name ∈ names ∧ exprMap.lookup name = some expr := by
  suffices hlists : (∀ p ∈ outFields, templateMessage.findFieldByName p.1.name = some p.1 ∧
      p.1.name ∈ names ∧
      exprMap.lookup p.1.name = some p.2) ∧ ∀ name ∈ names, ∀ expr, exprMap.lookup name =
      some expr →
        ∃ field, templateMessage.findFieldByName name = some field ∧ (field, expr) ∈ outFields from
    { found := fun p hp => (hlists.1 p hp).1
      sound := fun p hp => (hlists.1 p hp).2
      mem := fun name expr hlisted => hlists.2 name hlisted.1 expr hlisted.2
      unique := fun name expr expr' hlisted hlisted' =>
        Option.some.inj (hlisted.2.symm.trans hlisted'.2) }
  induction names generalizing outFields with
  | nil =>
    cases h
    exact ⟨fun p hp => absurd hp not_mem_nil, fun name hname =>
      absurd hname not_mem_nil⟩
  | cons fieldName names ih =>
    rw [addFields] at h
    cases hlookup : exprMap.lookup fieldName with
    | none =>
      simp only [hlookup] at h
      obtain ⟨hsound, hmem⟩ := ih h
      refine ⟨fun p hp => ?_, fun name hname expr hexpr => ?_⟩
      · obtain ⟨hfound, hname, hexpr⟩ := hsound p hp
        exact ⟨hfound, mem_cons_of_mem _ hname, hexpr⟩
      · rcases mem_cons.mp hname with rfl | hname
        · rw [hlookup] at hexpr
          cases hexpr
        · exact hmem name hname expr hexpr
    | some srcExpr =>
      cases hfield : templateMessage.findFieldByName fieldName with
      | none =>
        simp only [hlookup, hfield] at h
        cases h
      | some outField =>
        simp only [hlookup, hfield] at h
        obtain ⟨rest, hrest, rfl⟩ := Option.map_eq_some_iff.mp h
        obtain ⟨hsound, hmem⟩ := ih hrest
        obtain rfl := findFieldByName_name hfield
        refine ⟨fun p hp => ?_, fun name hname expr hexpr => ?_⟩
        · rcases mem_cons.mp hp with rfl | hp
          · exact ⟨hfield, mem_cons_self, hlookup⟩
          · obtain ⟨hfound, hname, hexpr⟩ := hsound p hp
            exact ⟨hfound, mem_cons_of_mem _ hname, hexpr⟩
        · rcases mem_cons.mp hname with rfl | hname
          · obtain rfl : srcExpr = expr := Option.some.inj (hlookup.symm.trans hexpr)
            exact ⟨outField, hfield, mem_cons_self⟩
          · obtain ⟨field, hfound, hin⟩ := hmem name hname expr hexpr
            exact ⟨field, hfound, mem_cons_of_mem _ hin⟩

/-- What `parse` makes of a request. -/
structure Parsed (build : E → Option (Expression V C)) (inRddInfo : InRddInfo E)
    (outRddInfo : OutRddInfo)
    (inRddLocal outRddLocal : RddLocal) (op : ExprMapOperator V C) : Prop where
  keyTemplate : op.key.templateMessage = outRddLocal.keyTemplate
  valueTemplate : op.value.templateMessage = outRddLocal.valueTemplate
  keyReuse : op.key.reuse =
    if inRddLocal.keyTemplate.fullName = outRddLocal.keyTemplate.fullName then .reuseKey
    else .reuseNone
  valueReuse : op.value.reuse =
    if inRddLocal.valueTemplate.fullName = outRddLocal.valueTemplate.fullName then .reuseValue
    else .reuseNone
  keyLists : op.key.Lists (Listed build inRddInfo.outFields outRddInfo.keyFields)
  valueLists : op.value.Lists (Listed build inRddInfo.outFields outRddInfo.valueFields)

theorem parsed_of_parse (h : parse build inRddInfo outRddInfo inRddLocal outRddLocal = some op) :
    Parsed build inRddInfo outRddInfo inRddLocal outRddLocal op := by
  obtain ⟨exprMap, hmap, h⟩ := Option.bind_eq_some_iff.mp h
  obtain ⟨keyFields, hkey, h⟩ := Option.bind_eq_some_iff.mp h
  obtain ⟨valueFields, hvalue, h⟩ := Option.bind_eq_some_iff.mp h
  have hlookup : ∀ name, exprMap.lookup name = exprOf build inRddInfo.outFields name := by
    intro name
    rw [lookup_parseOutFields hmap]
    rfl
  have hkeyLists := lists_of_addFields
    (if inRddLocal.keyTemplate.fullName = outRddLocal.keyTemplate.fullName then .reuseKey
      else .reuseNone) hkey
  have hvalueLists := lists_of_addFields
    (if inRddLocal.valueTemplate.fullName = outRddLocal.valueTemplate.fullName then .reuseValue
      else .reuseNone) hvalue
  simp only [hlookup] at hkeyLists hvalueLists
  cases h
  exact ⟨rfl, rfl, rfl, rfl, hkeyLists, hvalueLists⟩

end Parsing

end Idgs.Rdd.Op
