import Mathlib.Data.Finset.Card
import Idgs.Expr.Factory

/-!
# The request of a transformer

`TransformerOperator.buildRequest` declares the type of the keys and of the values of an RDD. One
variable holds the type that the children have in common; it is `null` before the first child, and
again after a child whose type differs, so that the next child sets it anew. A child without one of
the key fields gets a constant for it.
-/

namespace Idgs.Sql.TransformerRequest

open List

/-! ## Operators and requests -/

/-- What the request says of a child operator. -/
structure ChildOperator where
  rddName : String
  keyType : String
  valueType : String
  filterExpr : Option Expr
  outputKeyFields : Option (List FieldNamePair)
  outputValueFields : Option (List FieldNamePair)

namespace ChildOperator

def keyFields (child : ChildOperator) : List FieldNamePair := child.outputKeyFields.getD []

def valueFields (child : ChildOperator) : List FieldNamePair := child.outputValueFields.getD []

end ChildOperator

/-- The name of the key type that is declared for an RDD. -/
def keyTypeName (rddName : String) : String := "idgs.rdd.pb.DM_KEY_" ++ rddName

/-- The name of the value type that is declared for an RDD. -/
def valueTypeName (rddName : String) : String := "idgs.rdd.pb.DM_VALUE_" ++ rddName

/-- A transformer. Its types are `null` until a request has been built. The name of its RDD is
unique, so that no child has the types that are declared for it. -/
structure TransformerOperator where
  opName : String
  rddName : String
  children : List ChildOperator
  keyType : Option String
  valueType : Option String
  key_fresh : ∀ child ∈ children, child.keyType ≠ keyTypeName rddName
  value_fresh : ∀ child ∈ children, child.valueType ≠ valueTypeName rddName

/-- `InRddInfo`. -/
structure InRddInfo where
  rddName : String
  filterExpr : Option Expr
  outFields : List FieldNamePair

/-- `RddField`. -/
structure RddField where
  fieldName : String
  fieldType : DataType
deriving DecidableEq

/-- `OutRddInfo`. -/
structure OutRddInfo where
  rddName : String
  keyTypeName : String
  keyFields : List RddField
  valueTypeName : String
  valueFields : List RddField
deriving DecidableEq

/-- `CreateRddRequest`. -/
structure CreateRddRequest where
  transformerOpName : String
  inRdd : List InRddInfo
  outRdd : OutRddInfo

/-! ## Building the request -/

/-- `useKey` and `useValue` after another child. -/
def useNext (use : Option String) (type : String) : Option String :=
  match use with
  | none => some type
  | some used => if used = type then some used else none

/-- A field is added to `keyFieldList` or `valueFieldList` unless its alias is in the map. -/
def addField (list : List FieldNamePair) (field : FieldNamePair) : List FieldNamePair :=
  if list.any fun f => f.fieldAlias = field.fieldAlias then list else list ++ [field]

/-- The variables of the loop over the children; of the maps, the keys. -/
structure Loop where
  useKey : Option String := none
  useValue : Option String := none
  inRdd : List InRddInfo := []
  inKeyFields : List (Finset String) := []
  keyFieldList : List FieldNamePair := []
  valueFieldList : List FieldNamePair := []

/-- The loop body. -/
def Loop.next (s : Loop) (child : ChildOperator) : Loop where
  useKey := useNext s.useKey child.keyType
  useValue := useNext s.useValue child.valueType
  inRdd := s.inRdd ++ [⟨child.rddName, child.filterExpr, child.keyFields ++ child.valueFields⟩]
  inKeyFields := s.inKeyFields ++ [(child.keyFields.map FieldNamePair.fieldAlias).toFinset]
  keyFieldList := child.keyFields.foldl addField s.keyFieldList
  valueFieldList := child.valueFields.foldl addField s.valueFieldList

/-- The field that a child without it gets: the default of its type, as a constant. -/
def defaultField (field : FieldNamePair) : FieldNamePair where
  fieldAlias := field.fieldAlias
  fieldType := field.fieldType
  expr := .const { value := field.fieldType.defaultValue }

/-- The key fields that a child does not have. -/
def addDefaults (keyFieldList : List FieldNamePair) (inKeyField : Finset String)
    (rdd : InRddInfo) : InRddInfo :=
  if inKeyField.card ≠ keyFieldList.length then
    keyFieldList.foldl (fun rdd field =>
      if field.fieldAlias ∈ inKeyField then rdd
      else { rdd with outFields := rdd.outFields ++ [defaultField field] }) rdd
  else rdd

/-- A declared field. -/
def toRddField (field : FieldNamePair) : RddField := ⟨field.fieldAlias, field.fieldType⟩

/-- The type of the keys or the values: the one that is used, unless the operator has one, or the
one that is declared. -/
def typeOf (own use : Option String) (fieldList : List FieldNamePair) (declared : String) :
    String :=
  match fieldList, use with
  | [], some used => own.getD used
  | _, _ => declared

/-- `TransformerOperator.buildRequest`: the request, and the operator with its types. -/
def buildRequest (op : TransformerOperator) :
    Except String (CreateRddRequest × TransformerOperator) :=
  if op.children = [] then
    .error (op.opName ++ "transfomer " ++ op.rddName ++ " has no dependency RDD.")
  else
    let s := op.children.foldl Loop.next {}
    let inRdd :=
      if 1 < op.children.length then
        List.zipWith (addDefaults s.keyFieldList) s.inKeyFields s.inRdd
      else s.inRdd
    let keyType := typeOf op.keyType s.useKey s.keyFieldList (keyTypeName op.rddName)
    let valueType := typeOf op.valueType s.useValue s.valueFieldList (valueTypeName op.rddName)
    .ok (⟨op.opName, inRdd, ⟨op.rddName, keyType, s.keyFieldList.map toRddField, valueType,
        s.valueFieldList.map toRddField⟩⟩,
      { op with keyType := some keyType, valueType := some valueType })

/-! ## What a request should declare -/

/-- All types are the same. -/
def Agree (types : List String) : Prop := ∀ s ∈ types, ∀ t ∈ types, s = t

/-- The type that the children have in common is reused if they give no fields; otherwise a type is
declared whose fields are those of the children, each name once. -/
structure Declares (types : List String) (fields : List FieldNamePair) (declared : String)
    (typeName : String) (rddFields : List RddField) : Prop where
  reuses : fields = [] → Agree types → rddFields = [] ∧ ∀ t ∈ types, typeName = t
  declares : ¬ (fields = [] ∧ Agree types) →
    typeName = declared ∧ (rddFields.map RddField.fieldName).Nodup ∧
      (∀ f ∈ rddFields, ∃ field ∈ fields, f = toRddField field) ∧
      ∀ field ∈ fields, field.fieldAlias ∈ rddFields.map RddField.fieldName

/-- The expression is a constant of a type that the engine accepts. -/
def IsTypedConst (reads : DataType → String → Bool) (type : DataType) (expr : Expr) : Prop :=
  ∃ c : Const, expr = .const c ∧ c.constType = some type ∧ Expr.parseConst reads c = true

/-- A child supplies a key field once, and if it does not have it, by a typed constant. -/
def Supplies (reads : DataType → String → Bool) (keyFields : List RddField)
    (child : ChildOperator) (rdd : InRddInfo) : Prop :=
  ∀ field ∈ keyFields,
    (rdd.outFields.filter fun f => f.fieldAlias = field.fieldName).length = 1 ∧
      ((∀ f ∈ child.keyFields, f.fieldAlias ≠ field.fieldName) →
        ∀ f ∈ rdd.outFields, f.fieldAlias = field.fieldName →
          f.fieldType = field.fieldType ∧ IsTypedConst reads field.fieldType f.expr)

/-- The request declares the types that the inputs produce. -/
structure Right (reads : DataType → String → Bool) (op : TransformerOperator)
    (request : CreateRddRequest) : Prop where
  key : Declares (op.children.map ChildOperator.keyType)
    (op.children.flatMap ChildOperator.keyFields) (keyTypeName op.rddName)
    request.outRdd.keyTypeName request.outRdd.keyFields
  value : Declares (op.children.map ChildOperator.valueType)
    (op.children.flatMap ChildOperator.valueFields) (valueTypeName op.rddName)
    request.outRdd.valueTypeName request.outRdd.valueFields
  supplies : List.Forall₂ (Supplies reads request.outRdd.keyFields) op.children request.inRdd

/-- From the left, each run of equal types is dropped with the other type that ends it, and nothing
is left. -/
inductive Cancels : List String → Prop
  | nil : Cancels []
  | run {type other : String} (n : ℕ) {rest : List String} (hne : type ≠ other) :
      Cancels rest → Cancels (type :: (List.replicate n type ++ other :: rest))

/-- The children give fields; or they have one type, which the operator has if it has one; or their
types cancel, or the operator has the declared type. -/
def TypesFit (own : Option String) (types : List String) (fields : List FieldNamePair)
    (declared : String) : Prop :=
  fields ≠ [] ∨ Agree types ∧ (∀ k ∈ own, ∀ t ∈ types, t = k) ∨
    ¬ Agree types ∧ (Cancels types ∨ own = some declared)

/-- Each child gives each key field of the children once, and no value field with its name. -/
def GiveKeysOnce (children : List ChildOperator) : Prop :=
  ∀ child ∈ children, ∀ field ∈ children.flatMap ChildOperator.keyFields,
    (child.keyFields.filter fun f => f.fieldAlias = field.fieldAlias).length = 1 ∧
      ∀ f ∈ child.valueFields, f.fieldAlias ≠ field.fieldAlias

/-! ## The type in common -/

section UseType

variable {types : List String} {type : String}

/-- The variable after a number of children. -/
def useType (types : List String) : Option String := types.foldl useNext none

theorem foldl_useNext_replicate (n : ℕ) (type : String) :
    (List.replicate n type).foldl useNext (some type) = some type := by
  induction n with
  | zero => rfl
  | succ n ih =>
    rw [replicate_succ, foldl_cons, useNext, if_pos rfl]
    exact ih

/-- A run of one type and what follows it. -/
theorem useType_run (type : String) (n : ℕ) (rest : List String) :
    useType (type :: (List.replicate n type ++ rest)) = rest.foldl useNext (some type) := by
  rw [useType, foldl_cons, foldl_append]
  change rest.foldl useNext ((List.replicate n type).foldl useNext (some type)) = _
  rw [foldl_useNext_replicate]

/-- A type that ends a run is forgotten with it. -/
theorem useType_run_cons {other : String} (hne : type ≠ other) (n : ℕ) (rest : List String) :
    useType (type :: (List.replicate n type ++ other :: rest)) = useType rest := by
  rw [useType_run type, foldl_cons, useNext, if_neg hne]
  rfl

/-- The types begin with a run: it is all of them, or another type ends it. -/
theorem exists_run (type : String) (types : List String) :
    (∃ n, types = List.replicate n type) ∨
      ∃ n other rest, type ≠ other ∧ types = List.replicate n type ++ other :: rest := by
  induction types with
  | nil => exact Or.inl ⟨0, rfl⟩
  | cons next types ih =>
    by_cases hnext : type = next
    · subst hnext
      rcases ih with ⟨n, rfl⟩ | ⟨n, other, rest, hne, rfl⟩
      · exact Or.inl ⟨n + 1, rfl⟩
      · exact Or.inr ⟨n + 1, other, rest, hne, rfl⟩
    · exact Or.inr ⟨0, next, types, hnext, rfl⟩

/-- No type is left exactly if the types cancel. -/
theorem useType_eq_none_iff (types : List String) : useType types = none ↔ Cancels types := by
  constructor
  · induction hlength : types.length using Nat.strong_induction_on generalizing types with
    | _ k ih =>
      intro hnone
      cases types with
      | nil => exact .nil
      | cons type types =>
        rcases exists_run type types with ⟨n, rfl⟩ | ⟨n, other, rest, hne, rfl⟩
        · have hrun := useType_run type n []
          rw [append_nil] at hrun
          rw [hrun] at hnone
          cases hnone
        · rw [useType_run_cons hne] at hnone
          refine .run n hne (ih rest.length ?_ rest rfl hnone)
          simp only [length_cons, length_append] at hlength
          omega
  · intro h
    induction h with
    | nil => rfl
    | run n hne _ ih => rw [useType_run_cons hne, ih]

/-- Types that are all the same are in common. -/
theorem useType_of_agree (h : Agree types) (hmem : type ∈ types) : useType types = some type := by
  cases types with
  | nil => cases hmem
  | cons first types =>
    have hall : types = List.replicate types.length first :=
      eq_replicate_of_mem fun t ht => h t (mem_cons_of_mem first ht) first
        mem_cons_self
    have hfirst : first = type := h first mem_cons_self type hmem
    have hrun := useType_run first types.length []
    rw [append_nil, ← hall] at hrun
    rw [hrun, hfirst]
    rfl

/-- The type in common is one of the types. -/
theorem useType_mem (h : useType types = some type) : type ∈ types := by
  induction types using List.reverseRecOn generalizing type with
  | nil => cases h
  | append_singleton types last ih =>
    rw [useType, foldl_concat] at h
    change useNext (useType types) last = some type at h
    cases hused : useType types with
    | none =>
      rw [hused] at h
      cases h
      exact mem_append_right _ (mem_singleton.mpr rfl)
    | some used =>
      rw [hused, useNext] at h
      split at h
      · cases h
        exact mem_append_left _ (ih hused)
      · cases h

end UseType

/-! ## The fields -/

section Fields

variable {fields : List FieldNamePair} {field : FieldNamePair} {name : String}

/-- `keyFieldList` and `valueFieldList` for the fields of the children. -/
def fieldList (fields : List FieldNamePair) : List FieldNamePair := fields.foldl addField []

theorem fieldList_concat (fields : List FieldNamePair) (field : FieldNamePair) :
    fieldList (fields ++ [field]) = addField (fieldList fields) field :=
  foldl_concat _ _ _ _

theorem any_alias_iff (list : List FieldNamePair) (name : String) :
    (list.any fun f => f.fieldAlias = name) = true ↔ name ∈ list.map FieldNamePair.fieldAlias := by
  simp only [any_eq_true, decide_eq_true_eq, mem_map]

theorem mem_of_mem_fieldList (h : field ∈ fieldList fields) : field ∈ fields := by
  induction fields using List.reverseRecOn with
  | nil => exact h
  | append_singleton fields last ih =>
    rw [fieldList_concat, addField] at h
    split at h
    · exact mem_append_left _ (ih h)
    · rcases mem_append.mp h with h | h
      · exact mem_append_left _ (ih h)
      · exact mem_append_right _ h

theorem mem_alias_fieldList :
    name ∈ (fieldList fields).map FieldNamePair.fieldAlias ↔
      name ∈ fields.map FieldNamePair.fieldAlias := by
  induction fields using List.reverseRecOn with
  | nil => exact Iff.rfl
  | append_singleton fields last ih =>
    rw [fieldList_concat, addField, map_append, mem_append, ← ih]
    split
    · rename_i hany
      rw [any_alias_iff] at hany
      constructor
      · exact Or.inl
      · rintro (hmem | hlast)
        · exact hmem
        · rw [map_singleton, mem_singleton] at hlast
          rw [hlast]
          exact hany
    · rw [map_append, mem_append]

theorem nodup_alias_fieldList (fields : List FieldNamePair) :
    ((fieldList fields).map FieldNamePair.fieldAlias).Nodup := by
  induction fields using List.reverseRecOn with
  | nil => exact nodup_nil
  | append_singleton fields last ih =>
    rw [fieldList_concat, addField]
    split
    · exact ih
    · rename_i hany
      rw [any_alias_iff] at hany
      rw [map_append, map_singleton]
      exact nodup_append.mpr ⟨ih, nodup_singleton _, fun a ha b hb => by
        rw [mem_singleton] at hb
        rintro rfl
        exact hany (hb ▸ ha)⟩

theorem fieldList_eq_nil_iff : fieldList fields = [] ↔ fields = [] := by
  constructor
  · intro hnil
    refine eq_nil_iff_forall_not_mem.mpr fun field hfield => ?_
    have hmem :=
      mem_alias_fieldList.mpr (mem_map_of_mem (f := FieldNamePair.fieldAlias) hfield)
    rw [hnil] at hmem
    cases hmem
  · rintro rfl
    rfl

/-- The declared fields are those of the children, each name once. -/
theorem declared_fields (fields : List FieldNamePair) :
    (((fieldList fields).map toRddField).map RddField.fieldName).Nodup ∧
      (∀ f ∈ (fieldList fields).map toRddField, ∃ field ∈ fields, f = toRddField field) ∧
      ∀ field ∈ fields,
        field.fieldAlias ∈ ((fieldList fields).map toRddField).map RddField.fieldName := by
  have hnames : ((fieldList fields).map toRddField).map RddField.fieldName =
      (fieldList fields).map FieldNamePair.fieldAlias := map_map
  rw [hnames]
  refine ⟨nodup_alias_fieldList fields, fun f hf => ?_, fun field hfield =>
    mem_alias_fieldList.mpr (mem_map_of_mem hfield)⟩
  obtain ⟨field, hfield, rfl⟩ := mem_map.mp hf
  exact ⟨field, mem_of_mem_fieldList hfield, rfl⟩

/-- Without fields nothing is declared. -/
theorem declares_nil_iff {types : List String} {declared typeName : String} :
    Declares types [] declared typeName [] ↔
      (Agree types → ∀ t ∈ types, typeName = t) ∧ (¬ Agree types → typeName = declared) := by
  constructor
  · intro h
    exact ⟨fun hagree => (h.reuses rfl hagree).2, fun hagree => (h.declares fun hboth =>
      hagree hboth.2).1⟩
  · rintro ⟨hreuses, hdeclares⟩
    refine ⟨fun _ hagree => ⟨rfl, hreuses hagree⟩, fun hnot => ⟨?_, nodup_nil, ?_, ?_⟩⟩
    · exact hdeclares fun hagree => hnot ⟨rfl, hagree⟩
    · intro f hf
      cases hf
    · intro field hfield
      cases hfield

/-- A declared type is as it should be exactly if the types fit. -/
theorem declares_iff (own : Option String) (fields : List FieldNamePair) {types : List String}
    {declared : String} (hne : types ≠ []) (hfresh : ∀ t ∈ types, t ≠ declared) :
    Declares types fields declared (typeOf own (useType types) (fieldList fields) declared)
        ((fieldList fields).map toRddField) ↔
      TypesFit own types fields declared := by
  by_cases hfields : fields = []
  · subst hfields
    rw [show fieldList [] = [] from rfl, map_nil, declares_nil_iff, TypesFit]
    by_cases hagree : Agree types
    · obtain ⟨first, hfirst⟩ := exists_mem_of_ne_nil types hne
      have hall : ∀ t ∈ types, t = first := fun t ht => hagree t ht first hfirst
      rw [useType_of_agree hagree hfirst]
      simp only [hagree, true_implies, not_true_eq_false, false_implies, and_true, ne_eq,
        false_and, or_false, true_and, false_or]
      cases own with
      | none =>
        refine iff_of_true (fun t ht => (hall t ht).symm) fun k hk => ?_
        cases hk
      | some k =>
        constructor
        · rintro h _ ⟨⟩ t ht
          exact (h t ht).symm
        · intro h t ht
          exact (h k rfl t ht).symm
    · simp only [hagree, false_implies, not_false_eq_true, true_implies, true_and, ne_eq,
        not_true_eq_false, false_and, false_or]
      rw [← useType_eq_none_iff]
      cases hused : useType types with
      | none => exact iff_of_true rfl (Or.inl rfl)
      | some used =>
        have hother : used ≠ declared := hfresh used (useType_mem hused)
        change own.getD used = declared ↔ _
        cases own with
        | none =>
          refine iff_of_false hother ?_
          rintro (h | h)
          · cases h
          · cases h
        | some k =>
          constructor
          · intro h
            exact Or.inr (congrArg some h)
          · rintro (h | h)
            · cases h
            · exact Option.some.inj h
  · refine iff_of_true ⟨fun hnil => absurd hnil hfields, fun _ => ⟨?_, declared_fields fields⟩⟩
      (Or.inl hfields)
    cases hlist : fieldList fields with
    | nil => exact absurd (fieldList_eq_nil_iff.mp hlist) hfields
    | cons field rest => rfl

end Fields

/-! ## The loop -/

/-- The variables after a number of children. -/
theorem foldl_next (children : List ChildOperator) :
    children.foldl Loop.next {} =
      { useKey := useType (children.map ChildOperator.keyType)
        useValue := useType (children.map ChildOperator.valueType)
        inRdd := children.map fun child =>
          ⟨child.rddName, child.filterExpr, child.keyFields ++ child.valueFields⟩
        inKeyFields := children.map fun child =>
          (child.keyFields.map FieldNamePair.fieldAlias).toFinset
        keyFieldList := fieldList (children.flatMap ChildOperator.keyFields)
        valueFieldList := fieldList (children.flatMap ChildOperator.valueFields) } := by
  induction children using List.reverseRecOn with
  | nil => rfl
  | append_singleton children child ih =>
    rw [foldl_concat, ih, Loop.next]
    simp only [map_append, map_cons, map_nil, flatMap_append,
      flatMap_cons, flatMap_nil, append_nil, useType, fieldList,
      foldl_append, foldl_cons, foldl_nil]

/-- The key fields that are added for a child. -/
def missing (list : List FieldNamePair) (child : ChildOperator) : List FieldNamePair :=
  list.filter fun field => field.fieldAlias ∉ child.keyFields.map FieldNamePair.fieldAlias

theorem mem_missing {list : List FieldNamePair} {child : ChildOperator} {field : FieldNamePair} :
    field ∈ missing list child ↔
      field ∈ list ∧ field.fieldAlias ∉ child.keyFields.map FieldNamePair.fieldAlias := by
  rw [missing, mem_filter, decide_eq_true_eq]

/-- What an input is sent with. -/
def inRddInfo (list : List FieldNamePair) (child : ChildOperator) : InRddInfo where
  rddName := child.rddName
  filterExpr := child.filterExpr
  outFields := child.keyFields ++ child.valueFields ++ (missing list child).map defaultField

theorem foldl_defaults (list : List FieldNamePair) (inKeyField : Finset String) (rdd : InRddInfo) :
    list.foldl (fun rdd field =>
        if field.fieldAlias ∈ inKeyField then rdd
        else { rdd with outFields := rdd.outFields ++ [defaultField field] }) rdd =
      { rdd with
        outFields := rdd.outFields ++
          (list.filter fun field => field.fieldAlias ∉ inKeyField).map defaultField } := by
  induction list generalizing rdd with
  | nil => rw [foldl_nil, filter_nil, map_nil, append_nil]
  | cons field list ih =>
    rw [foldl_cons, ih]
    by_cases hmem : field.fieldAlias ∈ inKeyField
    · rw [if_pos hmem, filter_cons_of_neg (by simpa using hmem)]
    · rw [if_neg hmem, filter_cons_of_pos (by simpa using hmem), map_cons,
        append_assoc, singleton_append]

/-- As many names as key fields: none is missing. -/
theorem missing_eq_nil_of_card {list : List FieldNamePair} {child : ChildOperator}
    (hnodup : (list.map FieldNamePair.fieldAlias).Nodup)
    (hsub : ∀ f ∈ child.keyFields, f.fieldAlias ∈ list.map FieldNamePair.fieldAlias)
    (hcard : ((child.keyFields.map FieldNamePair.fieldAlias).toFinset).card = list.length) :
    missing list child = [] := by
  have hsubset : (child.keyFields.map FieldNamePair.fieldAlias).toFinset ⊆
      (list.map FieldNamePair.fieldAlias).toFinset := by
    intro name hname
    obtain ⟨f, hf, rfl⟩ := mem_map.mp (mem_toFinset.mp hname)
    exact mem_toFinset.mpr (hsub f hf)
  have hlength : ((list.map FieldNamePair.fieldAlias).toFinset).card = list.length := by
    rw [toFinset_card_of_nodup hnodup, length_map]
  have heq := Finset.eq_of_subset_of_card_le hsubset (by rw [hlength, hcard])
  refine eq_nil_iff_forall_not_mem.mpr fun field hfield => ?_
  obtain ⟨hmem, hnot⟩ := mem_missing.mp hfield
  refine hnot (mem_toFinset.mp ?_)
  rw [heq]
  exact mem_toFinset.mpr (mem_map_of_mem hmem)

/-- Comparing the sizes finds the children without a key field. -/
theorem addDefaults_eq {list : List FieldNamePair} {child : ChildOperator}
    (hnodup : (list.map FieldNamePair.fieldAlias).Nodup)
    (hsub : ∀ f ∈ child.keyFields, f.fieldAlias ∈ list.map FieldNamePair.fieldAlias) :
    addDefaults list (child.keyFields.map FieldNamePair.fieldAlias).toFinset
        ⟨child.rddName, child.filterExpr, child.keyFields ++ child.valueFields⟩ =
      inRddInfo list child := by
  rw [addDefaults, inRddInfo]
  split
  · rw [foldl_defaults, missing]
    simp only [mem_toFinset]
  · rename_i hcard
    rw [missing_eq_nil_of_card hnodup hsub (not_not.mp hcard), map_nil, append_nil]

section Request

variable (op : TransformerOperator)

/-- The key fields of the request. -/
def keyFieldList : List FieldNamePair := fieldList (op.children.flatMap ChildOperator.keyFields)

/-- The value fields of the request. -/
def valueFieldList : List FieldNamePair :=
  fieldList (op.children.flatMap ChildOperator.valueFields)

/-- The type of the keys. -/
def requestKeyType : String :=
  typeOf op.keyType (useType (op.children.map ChildOperator.keyType)) (keyFieldList op)
    (keyTypeName op.rddName)

/-- The type of the values. -/
def requestValueType : String :=
  typeOf op.valueType (useType (op.children.map ChildOperator.valueType)) (valueFieldList op)
    (valueTypeName op.rddName)

/-- The request of a transformer with children. -/
def request : CreateRddRequest where
  transformerOpName := op.opName
  inRdd := op.children.map (inRddInfo (keyFieldList op))
  outRdd := ⟨op.rddName, requestKeyType op, (keyFieldList op).map toRddField, requestValueType op,
    (valueFieldList op).map toRddField⟩

variable {op}

theorem alias_mem_keyFieldList {child : ChildOperator} (hchild : child ∈ op.children) :
    ∀ f ∈ child.keyFields, f.fieldAlias ∈ (keyFieldList op).map FieldNamePair.fieldAlias :=
  fun _ hf => mem_alias_fieldList.mpr
    (mem_map_of_mem (mem_flatMap.mpr ⟨_, hchild, hf⟩))

/-- The request that is built. -/
theorem buildRequest_eq (hne : op.children ≠ []) :
    buildRequest op = .ok (request op,
      { op with
        keyType := some (requestKeyType op)
        valueType := some (requestValueType op) }) := by
  have hnodup : ((keyFieldList op).map FieldNamePair.fieldAlias).Nodup := nodup_alias_fieldList _
  have hinRdd : (if 1 < op.children.length then
        List.zipWith (addDefaults (keyFieldList op))
          (op.children.map fun child => (child.keyFields.map FieldNamePair.fieldAlias).toFinset)
          (op.children.map fun child =>
            ⟨child.rddName, child.filterExpr, child.keyFields ++ child.valueFields⟩)
      else op.children.map fun child =>
        ⟨child.rddName, child.filterExpr, child.keyFields ++ child.valueFields⟩) =
      op.children.map (inRddInfo (keyFieldList op)) := by
    split
    · rw [zipWith_map, zipWith_self]
      exact map_congr_left fun child hchild =>
        addDefaults_eq hnodup (alias_mem_keyFieldList hchild)
    · rename_i hone
      obtain ⟨child, hchildren⟩ : ∃ child, op.children = [child] := by
        have hpos := length_pos_iff.mpr hne
        exact length_eq_one_iff.mp (by omega)
      have hnone : missing (keyFieldList op) child = [] := by
        refine eq_nil_iff_forall_not_mem.mpr fun field hfield => ?_
        obtain ⟨hmem, hnot⟩ := mem_missing.mp hfield
        have hfrom := mem_of_mem_fieldList hmem
        rw [hchildren, flatMap_singleton] at hfrom
        exact hnot (mem_map_of_mem hfrom)
      simp only [hchildren, map_cons, map_nil, inRddInfo, hnone, append_nil]
  rw [buildRequest, if_neg hne, foldl_next]
  change Except.ok ((⟨op.opName, _, _⟩ : CreateRddRequest), _) = _
  rw [request, ← hinRdd]
  rfl

/-! ## The key fields of an input -/

theorem length_filter_eq_zero_iff {list : List FieldNamePair} {name : String} :
    (list.filter fun f => f.fieldAlias = name).length = 0 ↔ ∀ f ∈ list, f.fieldAlias ≠ name := by
  rw [length_eq_zero_iff, filter_eq_nil_iff]
  simp only [decide_eq_true_eq, ne_eq]

/-- The fields of a name that an input supplies: those of the child and the default. -/
theorem length_filter_outFields (list : List FieldNamePair) (child : ChildOperator)
    (name : String) :
    ((inRddInfo list child).outFields.filter fun f => f.fieldAlias = name).length =
      (child.keyFields.filter fun f => f.fieldAlias = name).length +
        (child.valueFields.filter fun f => f.fieldAlias = name).length +
        ((missing list child).filter fun f => f.fieldAlias = name).length := by
  rw [inRddInfo, filter_append, filter_append, length_append, length_append, filter_map, length_map]
  rfl

section

variable (reads : DataType → String → Bool)

/-- A constant without a type is not a typed constant. -/
theorem not_isTypedConst_defaultField (type : DataType)
    (field : FieldNamePair) : ¬ IsTypedConst reads type (defaultField field).expr := by
  rintro ⟨c, hc, htype, -⟩
  cases hc
  cases htype

/-- An input supplies the key fields exactly if the child gives each of them once, and no value
field with its name. -/
theorem supplies_iff {child : ChildOperator} (hchild : child ∈ op.children) :
    Supplies reads ((keyFieldList op).map toRddField) child (inRddInfo (keyFieldList op) child) ↔
      ∀ field ∈ op.children.flatMap ChildOperator.keyFields,
        (child.keyFields.filter fun f => f.fieldAlias = field.fieldAlias).length = 1 ∧
          ∀ f ∈ child.valueFields, f.fieldAlias ≠ field.fieldAlias := by
  constructor
  · intro h field hfield
    obtain ⟨declared, hdeclared, halias⟩ :=
      mem_map.mp (mem_alias_fieldList.mpr (mem_map_of_mem hfield))
    obtain ⟨hone, hdefault⟩ := h (toRddField declared) (mem_map_of_mem hdeclared)
    rw [length_filter_outFields] at hone
    change _ + (child.valueFields.filter fun f => f.fieldAlias = declared.fieldAlias).length + _ = 1
      at hone
    rw [← halias]
    -- a default is not a typed constant: the child has the field
    have hown : ∃ f ∈ child.keyFields, f.fieldAlias = declared.fieldAlias := by
      by_contra hnone
      push Not at hnone
      have hmissing : declared ∈ missing (keyFieldList op) child :=
        mem_missing.mpr ⟨hdeclared, fun hmem => by
          obtain ⟨f, hf, hname⟩ := mem_map.mp hmem
          exact hnone f hf hname⟩
      have hout : defaultField declared ∈ (inRddInfo (keyFieldList op) child).outFields :=
        mem_append_right _ (mem_map_of_mem hmissing)
      exact not_isTypedConst_defaultField reads _ declared
        (hdefault hnone (defaultField declared) hout rfl).2
    have hpos :
        (child.keyFields.filter fun f => f.fieldAlias = declared.fieldAlias).length ≠ 0 := by
      rw [ne_eq, length_filter_eq_zero_iff]
      push Not
      exact hown
    change (child.keyFields.filter fun f => f.fieldAlias = declared.fieldAlias).length + _ + _ = 1
      at hone
    exact ⟨by omega, length_filter_eq_zero_iff.mp (by omega)⟩
  · intro h f hf
    obtain ⟨declared, hdeclared, rfl⟩ := mem_map.mp hf
    obtain ⟨hone, hvalue⟩ := h declared (mem_of_mem_fieldList hdeclared)
    have hown : ∃ f ∈ child.keyFields, f.fieldAlias = declared.fieldAlias := by
      by_contra hnone
      push Not at hnone
      rw [length_filter_eq_zero_iff.mpr hnone] at hone
      cases hone
    constructor
    · have hmissing : ∀ f ∈ missing (keyFieldList op) child,
          f.fieldAlias ≠ declared.fieldAlias := by
        intro f hf heq
        obtain ⟨own, hmem, hname⟩ := hown
        refine (mem_missing.mp hf).2 ?_
        rw [heq, ← hname]
        exact mem_map_of_mem hmem
      rw [length_filter_outFields]
      change (child.keyFields.filter fun f => f.fieldAlias = declared.fieldAlias).length +
        (child.valueFields.filter fun f => f.fieldAlias = declared.fieldAlias).length +
        ((missing (keyFieldList op) child).filter fun f =>
          f.fieldAlias = declared.fieldAlias).length = 1
      rw [hone, length_filter_eq_zero_iff.mpr hvalue, length_filter_eq_zero_iff.mpr hmissing]
    · intro hnone
      obtain ⟨own, hmem, hname⟩ := hown
      exact absurd hname (hnone own hmem)

/-- The children supply the key fields exactly if each of them gives each key field once. -/
theorem forall_supplies_iff :
    List.Forall₂ (Supplies reads (request op).outRdd.keyFields) op.children (request op).inRdd ↔
      GiveKeysOnce op.children := by
  change List.Forall₂ _ op.children (op.children.map (inRddInfo (keyFieldList op))) ↔ _
  rw [forall₂_map_right_iff, forall₂_same]
  constructor
  · intro h child hchild
    exact (supplies_iff reads hchild).mp (h child hchild)
  · intro h child hchild
    exact (supplies_iff reads hchild).mpr (h child hchild)

end

/-- A request declares what its inputs produce exactly if the types fit and each child gives each
key field once. -/
theorem right_iff (hne : op.children ≠ []) (reads : DataType → String → Bool) :
    Right reads op (request op) ↔
      TypesFit op.keyType (op.children.map ChildOperator.keyType)
          (op.children.flatMap ChildOperator.keyFields) (keyTypeName op.rddName) ∧
        TypesFit op.valueType (op.children.map ChildOperator.valueType)
          (op.children.flatMap ChildOperator.valueFields) (valueTypeName op.rddName) ∧
        GiveKeysOnce op.children := by
  have hkey := declares_iff op.keyType (op.children.flatMap ChildOperator.keyFields)
    (mt map_eq_nil_iff.mp hne)
    (fun t ht => by
      obtain ⟨child, hchild, rfl⟩ := mem_map.mp ht
      exact op.key_fresh child hchild)
  have hvalue := declares_iff op.valueType (op.children.flatMap ChildOperator.valueFields)
    (mt map_eq_nil_iff.mp hne)
    (fun t ht => by
      obtain ⟨child, hchild, rfl⟩ := mem_map.mp ht
      exact op.value_fresh child hchild)
  constructor
  · rintro ⟨hk, hv, hs⟩
    exact ⟨hkey.mp hk, hvalue.mp hv, (forall_supplies_iff reads).mp hs⟩
  · rintro ⟨hk, hv, hs⟩
    exact ⟨hkey.mpr hk, hvalue.mpr hv, (forall_supplies_iff reads).mpr hs⟩

end Request

/-- A request is built, and it declares what the inputs produce, exactly if the key types and the
value types fit and each child gives each key field once. -/
theorem buildRequest_right_iff (reads : DataType → String → Bool) (op : TransformerOperator)
    (hne : op.children ≠ []) :
    (∃ request op', buildRequest op = .ok (request, op') ∧ Right reads op request) ↔
      TypesFit op.keyType (op.children.map ChildOperator.keyType)
          (op.children.flatMap ChildOperator.keyFields) (keyTypeName op.rddName) ∧
        TypesFit op.valueType (op.children.map ChildOperator.valueType)
          (op.children.flatMap ChildOperator.valueFields) (valueTypeName op.rddName) ∧
        GiveKeysOnce op.children := by
  rw [← right_iff hne reads, buildRequest_eq hne]
  constructor
  · rintro ⟨_, _, hbuilt, hright⟩
    cases hbuilt
    exact hright
  · intro hright
    exact ⟨request op, _, rfl, hright⟩

/-! ## Unions -/

/-- A child without output fields. -/
def plainChild (rddName keyType : String) : ChildOperator where
  rddName := rddName
  keyType := keyType
  valueType := "Value"
  filterExpr := none
  outputKeyFields := none
  outputValueFields := none

/-- The union of two RDDs of one key type. -/
def sameTypes : TransformerOperator where
  opName := "UNION_TRANSFORMER"
  rddName := "union"
  children := [plainChild "a" "Order", plainChild "b" "Order"]
  keyType := none
  valueType := none
  key_fresh := by decide
  value_fresh := by decide

/-- The request of a union reuses the type of its inputs. -/
theorem buildRequest_right_sameTypes :
    ∃ request op', buildRequest sameTypes = .ok (request, op') ∧
      Right (fun _ _ => true) sameTypes request :=
  (buildRequest_right_iff (fun _ _ => true) sameTypes (List.cons_ne_nil _ _)).mpr
    ⟨Or.inr (Or.inl ⟨by unfold Agree; decide, by decide⟩),
      Or.inr (Or.inl ⟨by unfold Agree; decide, by decide⟩), by
        intro child _ field hfield
        cases hfield⟩

/-- The union of three RDDs of three key types. -/
def threeTypes : TransformerOperator where
  opName := "UNION_TRANSFORMER"
  rddName := "union"
  children := [plainChild "a" "Order", plainChild "b" "Item", plainChild "c" "Part"]
  keyType := none
  valueType := none
  key_fresh := by decide
  value_fresh := by decide

/-- The request of the union declares the key type of the last input. -/
theorem not_right_threeTypes :
    ¬ ∃ request op', buildRequest threeTypes = .ok (request, op') ∧
      Right (fun _ _ => true) threeTypes request := by
  rintro ⟨request, op', hbuilt, hright⟩
  have hdiffer : ¬ ((threeTypes.children.flatMap ChildOperator.keyFields) = [] ∧
      Agree (threeTypes.children.map ChildOperator.keyType)) := by
    rintro ⟨-, hagree⟩
    exact absurd (hagree "Order" (by decide) "Item" (by decide)) (by decide)
  have hdeclared := (hright.key.declares hdiffer).1
  cases hbuilt
  exact absurd hdeclared (by decide)

end Idgs.Sql.TransformerRequest
