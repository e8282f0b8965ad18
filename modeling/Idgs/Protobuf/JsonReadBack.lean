import Idgs.Protobuf.Json
import Mathlib

/-!
# Messages that are read back

A printed message denotes a document that yajl makes of its text, if its strings are UTF-8; reading
this document sets each field to what its values come back as. So the whole message is read back
exactly if each value with no fields in it comes back as itself.
-/

namespace Idgs.Protobuf.Json

open Common Common.Json List

variable {ι : Type} {schema : Schema ι} {conv : Conversions}

/-! ## Values -/

/-- Induction on a value: the fields of a message hold values of which it is known. -/
theorem Value.nested {motive : Value → Prop} (hinteger : ∀ n, motive (.integer n))
    (hbool : ∀ b, motive (.bool b)) (henum : ∀ n, motive (.enum n))
    (hstring : ∀ s, motive (.string s))
    (hmessage : ∀ fields : Fields, (∀ values ∈ fields, ∀ v ∈ values, motive v) →
      motive (.message fields)) (v : Value) : motive v :=
  @Value.rec motive (fun fields => ∀ values ∈ fields, ∀ v ∈ values, motive v)
    (fun values => ∀ v ∈ values, motive v) hinteger hbool henum hstring hmessage
    (fun _ h => absurd h not_mem_nil)
    (fun _ _ hhead htail => forall_mem_cons.mpr ⟨hhead, htail⟩)
    (fun _ h => absurd h not_mem_nil)
    (fun _ _ hhead htail => forall_mem_cons.mpr ⟨hhead, htail⟩) v

theorem itemsHold_iff {p : FieldType ι → Value → Bool} {type : FieldType ι} {values : List Value} :
    itemsHold schema p type values = true ↔ ∀ v ∈ values, v.holds schema p type = true := by
  induction values with
  | nil => simp [itemsHold]
  | cons v values ih => simp [itemsHold, ih]

/-! ## Schemas -/

def IsIdentifier (name : Text) : Prop := ∀ c ∈ name, c.isAlphanum = true ∨ c = '_'

/-- The values of an enumeration have names of their own. -/
def FieldType.Named (type : FieldType ι) : Prop :=
  ∀ values, type = .enum values →
    (values.map Prod.fst).Nodup ∧ ∀ value ∈ values, IsIdentifier value.1

/-- What the protocol compiler ensures of the names. -/
structure Schema.WellFormed (schema : Schema ι) : Prop where
  distinct : ∀ i, ((schema i).map FieldDescriptor.name).Nodup
  identifier : ∀ i, ∀ f ∈ schema i, IsIdentifier f.name
  named : ∀ i, ∀ f ∈ schema i, f.type.Named

section

variable {name : Text} (h : IsIdentifier name)

include h

theorem IsIdentifier.bounds {c : Char} (hc : c ∈ name) :
    32 ≤ c.toNat ∧ c.toNat < 128 := by
  have hc := h c hc
  simp only [Char.isAlphanum, Char.isAlpha, Char.isUpper, Char.isLower, Char.isDigit,
    Bool.or_eq_true, Bool.and_eq_true, decide_eq_true_eq, ge_iff_le, UInt32.le_iff_toNat_le,
    Char.ext_iff, UInt32.ext_iff] at hc
  simp at hc
  omega

theorem IsIdentifier.isUtf8 : isUtf8 0 name = true := by
  induction name with
  | nil => rfl
  | cons c name ih =>
    rw [Common.Json.isUtf8, following, if_pos (h.bounds mem_cons_self).2, Option.any_some]
    exact ih fun c hc => h c (mem_cons_of_mem _ hc)

theorem IsIdentifier.escape : escape name = name := by
  induction name with
  | nil => rfl
  | cons c name ih =>
    have hlookup : escapes.lookup c = none := by
      have hall : ∀ p ∈ escapes, ¬(p.1.isAlphanum = true ∨ p.1 = '_') := by decide
      refine lookup_eq_none_iff.mpr fun p hp => ?_
      simp only [bne_iff_ne, ne_eq]
      rintro rfl
      exact hall p hp (h _ mem_cons_self)
    have hle := (h.bounds mem_cons_self).1
    rw [Common.Json.escape, flatMap_cons, escapeChar, hlookup]
    simp only [if_neg (Nat.not_lt.mpr hle), singleton_append]
    exact congrArg _ (ih fun c hc => h c (mem_cons_of_mem _ hc))

theorem IsIdentifier.cString : cString name = name :=
  cString_of_notMem fun hmem => absurd (h.bounds hmem).1 (by decide)

end

/-! ## What yajl makes of a printed value -/

variable (schema) in
mutual
/-- The document of a printed value; `none` if a string in it is not UTF-8. -/
def documentOf : FieldType ι → Value → Option Document
  | .message i, .message fields => ((memberDocuments (schema i) fields).mapM id).map .object
  | .integer _, .integer n => some (.integer n)
  | .bool, .bool b => some (.integer (if b then 1 else 0))
  | .enum values, .enum n => some (.string (nameOf values n))
  | .string, .string s => if isUtf8 0 s then some (.string s) else none
  | _, _ => none
/-- The members for the fields that are set. -/
def memberDocuments : List (FieldDescriptor ι) → Fields → List (Option (Text × Document))
  | _ :: descriptor, [] :: fields => memberDocuments descriptor fields
  | f :: descriptor, (v :: values) :: fields =>
    ((if f.isRepeated then ((itemDocuments f.type (v :: values)).mapM id).map .array
      else documentOf f.type v).map fun d => (f.name, d)) :: memberDocuments descriptor fields
  | _, _ => []
/-- The elements for the values of a repeated field. -/
def itemDocuments (type : FieldType ι) : List Value → List (Option Document)
  | [] => []
  | v :: values => documentOf type v :: itemDocuments type values
end

/-- The name of a number is one of a value with the number. -/
theorem nameOf_mem {values : List (Text × ℤ)} {n : ℤ} (h : n ∈ values.map Prod.snd) :
    (nameOf values n, n) ∈ values := by
  obtain ⟨value, hvalue, rfl⟩ := mem_map.mp h
  unfold nameOf
  cases hfind : values.find? fun value' => value'.2 = value.2 with
  | none => exact absurd (find?_eq_none.mp hfind value hvalue) (by simp)
  | some found =>
    have heq : found.2 = value.2 := by simpa using find?_some hfind
    exact heq ▸ mem_of_find?_eq_some hfind

/-- A printed value is read as its document. -/
def ReadsBack (schema : Schema ι) (v : Value) : Prop :=
  ∀ type, type.Named → v.holds schema isOf type = true →
    Reads readValue (printValue schema type v) (documentOf schema type v)

theorem forall₂_printItems {type : FieldType ι} (htype : type.Named) {values : List Value}
    (hvalues : ∀ v ∈ values, ReadsBack schema v) (h : itemsHold schema isOf type values = true) :
    Forall₂ (Reads readValue) (printItems schema type values)
      (itemDocuments schema type values) := by
  induction values with
  | nil => exact .nil
  | cons v values ih =>
    rw [itemsHold, Bool.and_eq_true] at h
    obtain ⟨hv, hvalues⟩ := forall_mem_cons.mp hvalues
    exact .cons (hv type htype h.1) (ih hvalues h.2)

theorem forall₂_printFields {descriptor : List (FieldDescriptor ι)}
    (hdescriptor : ∀ f ∈ descriptor, IsIdentifier f.name ∧ f.type.Named) {fields : Fields}
    (hfields : ∀ values ∈ fields, ∀ v ∈ values, ReadsBack schema v)
    (h : fieldsHold schema isOf descriptor fields = true) :
    Forall₂ (Reads fun n => readMember (readValue n)) (printFields schema descriptor fields)
      (memberDocuments schema descriptor fields) := by
  induction descriptor generalizing fields with
  | nil =>
    cases fields with
    | nil => exact .nil
    | cons values fields => cases h
  | cons f descriptor ih =>
    obtain ⟨⟨hname, htype⟩, hdescriptor⟩ := forall_mem_cons.mp hdescriptor
    cases fields with
    | nil => cases h
    | cons values fields =>
      obtain ⟨hvalues, hfields⟩ := forall_mem_cons.mp hfields
      rw [fieldsHold, Bool.and_eq_true, Bool.and_eq_true] at h
      have hrest := ih hdescriptor hfields h.2
      cases values with
      | nil => exact hrest
      | cons v values =>
        refine .cons ?_ hrest
        have hmember {t : Text} {d : Option Document} (hread : Reads readValue t d) :=
          reads_member f.name hread
        simp only [hname.isUtf8, if_true] at hmember
        refine hmember ?_
        cases hrepeated : f.isRepeated with
        | true =>
          exact reads_array (forall₂_printItems htype hvalues h.1.2)
        | false =>
          have hv := itemsHold_iff.mp h.1.2 v mem_cons_self
          exact hvalues v mem_cons_self f.type htype hv

theorem readsBack (hschema : schema.WellFormed) (v : Value) : ReadsBack schema v := by
  induction v using Value.nested with
  | hinteger n =>
    intro type _ h
    cases type with
    | integer type => exact reads_integer n
    | bool | enum _ | string | message _ => cases h
  | hbool b =>
    intro type _ h
    cases type with
    | bool =>
      cases b with
      | true => exact reads_integer 1
      | false => exact reads_integer 0
    | integer _ | enum _ | string | message _ => cases h
  | henum n =>
    intro type htype h
    cases type with
    | enum values =>
      have hname := (htype values rfl).2 _ (nameOf_mem (of_decide_eq_true h))
      have hread := reads_string (nameOf values n)
      rw [hname.escape, hname.isUtf8, if_pos rfl] at hread
      exact hread
    | integer _ | bool | string | message _ => cases h
  | hstring s =>
    intro type _ h
    cases type with
    | string => exact reads_string s
    | integer _ | bool | enum _ | message _ => cases h
  | hmessage fields ih =>
    intro type _ h
    cases type with
    | message i =>
      exact reads_object (forall₂_printFields
        (fun f hf => ⟨hschema.identifier i f hf, hschema.named i f hf⟩) ih h)
    | integer _ | bool | enum _ | string => cases h

/-! ## What a document is read as -/

/-- Values that are not as they were: a large number that is no double, a text that is cut off at a
zero byte or is not UTF-8. -/
def survives : FieldType ι → Value → Bool
  | .integer .uint64, .integer n => decide (n < 2 ^ 63 ∨ roundDouble n = n)
  | .string, .string s => isUtf8 0 s && '\x00' ∉ s
  | _, _ => true

variable (schema conv) in
/-- What a value is read back as, in a field with no value. -/
def back (type : FieldType ι) (v : Value) : Option Value :=
  (documentOf schema type v).bind (valueOf schema conv type none)

variable (schema conv) in
/-- What the fields of a message are read back as. -/
def backFields : List (FieldDescriptor ι) → Fields → Option Fields
  | f :: descriptor, values :: fields =>
    (values.mapM (back schema conv f.type)).bind fun values' =>
      (backFields descriptor fields).map (values' :: ·)
  | _, _ => some []

/-- An array is read as its elements are. -/
theorem bind_itemsOf (type : FieldType ι) (values : List Value) :
    ((itemDocuments schema type values).mapM id).bind (itemsOf schema conv type) =
      values.mapM (back schema conv type) := by
  induction values with
  | nil => rfl
  | cons v values ih =>
    rw [itemDocuments, mapM_cons, mapM_cons, ← ih, back]
    cases documentOf schema type v with
    | none => rfl
    | some d =>
      cases (itemDocuments schema type values).mapM id with
      | none =>
        cases hd : valueOf schema conv type none d <;> simp [hd]
      | some items => simp [itemsOf, Option.map_eq_bind]

theorem findField_append {descriptor before : List (FieldDescriptor ι)} {f : FieldDescriptor ι}
    (h : ((before ++ f :: descriptor).map FieldDescriptor.name).Nodup) :
    findField (before ++ f :: descriptor) f.name = some (before.length, f) := by
  induction before with
  | nil => exact if_pos rfl
  | cons g before ih =>
    rw [cons_append, map_cons, nodup_cons] at h
    have hne : g.name ≠ f.name := by
      intro heq
      exact h.1 (heq ▸ mem_map_of_mem (mem_append_right _ mem_cons_self))
    rw [cons_append, findField, if_neg hne, ih h.2]
    rfl

/-- No value but the values of a repeated field are an array. -/
theorem documentOf_ne_array {type : FieldType ι} {v : Value} {items : List Document} :
    documentOf schema type v ≠ some (.array items) := by
  cases type <;> cases v <;> simp [documentOf]

theorem membersOf_array {i : ι} {fields : Fields} {key : Text} {items : List Document}
    {members : List (Text × Document)} {k : ℕ} {f : FieldDescriptor ι}
    (hfind : findField (schema i) (cString key) = some (k, f)) (hrepeated : f.isRepeated = true) :
    membersOf schema conv i fields ((key, .array items) :: members) =
      (itemsOf schema conv f.type items).bind fun values =>
        membersOf schema conv i (fields.set k (fields.getD k [] ++ values)) members := by
  rw [membersOf, hfind]
  simp only [hrepeated]

theorem membersOf_value {i : ι} {fields : Fields} {key : Text} {d : Document}
    {members : List (Text × Document)} {k : ℕ} {f : FieldDescriptor ι}
    (hfind : findField (schema i) (cString key) = some (k, f)) (hrepeated : f.isRepeated = false)
    (hd : ∀ items, d ≠ .array items) :
    membersOf schema conv i fields ((key, d) :: members) =
      (valueOf schema conv f.type (fields.getD k []).head? d).bind fun v =>
        membersOf schema conv i (fields.set k [v]) members := by
  rw [membersOf, hfind]
  cases d with
  | array items => exact absurd rfl (hd items)
  | null | bool _ | integer _ | real _ | string _ | object _ => simp only [hrepeated]

variable (conv) in
/-- A message is read field by field. -/
theorem bind_membersOf (hschema : schema.WellFormed) {i : ι} {fields : Fields}
    {descriptor before : List (FieldDescriptor ι)} (hsplit : schema i = before ++ descriptor)
    (h : fieldsHold schema isOf descriptor fields = true) {done : Fields}
    (hdone : done.length = before.length) :
    ((memberDocuments schema descriptor fields).mapM id).bind
        (membersOf schema conv i (done ++ replicate descriptor.length [])) =
      (backFields schema conv descriptor fields).map (done ++ ·) := by
  induction descriptor generalizing fields before done with
  | nil =>
    cases fields with
    | nil => simp [memberDocuments, membersOf, backFields]
    | cons values fields => cases h
  | cons f descriptor ih =>
    cases fields with
    | nil => cases h
    | cons values fields =>
      rw [fieldsHold, Bool.and_eq_true, Bool.and_eq_true] at h
      have hsplit' : schema i = before ++ [f] ++ descriptor := by simp [hsplit]
      have hstep (values' : List Value) := ih hsplit' h.2
        (show (done ++ [values']).length = (before ++ [f]).length by simp [hdone])
      have hf : f ∈ schema i := hsplit ▸ mem_append_right _ mem_cons_self
      have hfind : findField (schema i) (cString f.name) = some (done.length, f) := by
        rw [(hschema.identifier i f hf).cString, hdone, hsplit]
        exact findField_append (hsplit ▸ hschema.distinct i)
      have hget (l : Fields) : (done ++ [] :: l).getD done.length [] = [] := by simp
      have hset (l : Fields) (x : List Value) :
          (done ++ [] :: l).set done.length x = done ++ [x] ++ l := by simp
      have hpass (x : List Value) (l : Option Fields) :
          l.map (done ++ [x] ++ ·) = (l.map (x :: ·)).map (done ++ ·) := by
        rw [Option.map_map]
        exact congrArg (l.map ·) (funext fun y => by simp)
      rw [length_cons, replicate_succ, backFields]
      cases values with
      | nil =>
        have hnone := hstep []
        rw [append_assoc, singleton_append, hpass] at hnone
        exact hnone
      | cons v values =>
        have hcons (d : Document) (read : Option (List Value))
            (hread : ∀ members,
              membersOf schema conv i (done ++ [] :: replicate descriptor.length [])
                  ((f.name, d) :: members) =
                read.bind fun values' => membersOf schema conv i
                  (done ++ [values'] ++ replicate descriptor.length []) members) :
            (((memberDocuments schema descriptor fields).mapM id).bind fun members =>
                some ((f.name, d) :: members)).bind
                (membersOf schema conv i (done ++ [] :: replicate descriptor.length [])) =
              (read.bind fun values' => (backFields schema conv descriptor fields).map
                (values' :: ·)).map (done ++ ·) := by
          cases read with
          | none =>
            cases (memberDocuments schema descriptor fields).mapM id with
            | none => rfl
            | some members => exact hread members
          | some values' =>
            rw [Option.bind_some, ← hpass, ← hstep values']
            cases (memberDocuments schema descriptor fields).mapM id with
            | none => rfl
            | some members => exact hread members
        rw [memberDocuments, mapM_cons]
        cases hrepeated : f.isRepeated with
        | true =>
          rw [← bind_itemsOf]
          cases (itemDocuments schema f.type (v :: values)).mapM id with
          | none => rfl
          | some items =>
            refine hcons (.array items) _ fun members => ?_
            rw [membersOf_array hfind hrepeated, hget]
            exact congrArg _ (funext fun values' => by rw [nil_append, hset])
        | false =>
          obtain rfl : values = [] := by
            have hlength := h.1.1
            rw [hrepeated, Bool.false_or, decide_eq_true_eq, length_cons] at hlength
            exact length_eq_zero_iff.mp (by omega)
          rw [mapM_cons, back]
          cases hd : documentOf schema f.type v with
          | none => rfl
          | some d =>
            have hvalue := hcons d ((valueOf schema conv f.type none d).map ([·]))
              fun members => by
                rw [membersOf_value hfind hrepeated
                  fun items heq => documentOf_ne_array (hd.trans (congrArg some heq)), hget]
                simp only [hset, head?_nil]
                cases valueOf schema conv f.type none d <;> rfl
            refine Eq.trans hvalue ?_
            rw [Option.bind_some, mapM_nil]
            cases valueOf schema conv f.type none d <;> rfl

theorem lookup_of_mem {values : List (Text × ℤ)} (hdistinct : (values.map Prod.fst).Nodup)
    {name : Text} {n : ℤ} (h : (name, n) ∈ values) : values.lookup name = some n := by
  obtain ⟨before, behind, rfl⟩ := append_of_mem h
  refine lookup_eq_some_iff.mpr ⟨before, behind, rfl, fun value hvalue => ?_⟩
  rw [map_append, map_cons] at hdistinct
  rw [bne_iff_ne]
  rintro rfl
  exact (nodup_middle.mp hdistinct).notMem (mem_append_left _ (mem_map.mpr ⟨value, hvalue, rfl⟩))

theorem wrap_eq_self {type : IntegerType} {n : ℤ} (h : type.low ≤ n ∧ n ≤ type.high) :
    type.wrap n = n := by
  cases type with
  | int32 | int64 =>
    simp only [IntegerType.low, IntegerType.high] at h
    exact (Int.bmod_eq_iff (by decide)).mpr ⟨by omega, by omega, by simp⟩
  | uint32 | uint64 =>
    simp only [IntegerType.low, IntegerType.high] at h
    exact Int.emod_eq_of_lt h.1 (by omega)

theorem isDouble_of_lt {n : ℤ} (h : |n| < 2 ^ 65) : isDouble n = true := by
  have hle : (2 : ℤ) ^ 65 ≤ 2 ^ 970 := pow_le_pow_right₀ (by omega) (by omega)
  have hsplit : (2 : ℤ) ^ 1024 = 2 ^ 54 * 2 ^ 970 := pow_add 2 54 970
  rw [isDouble, decide_eq_true_eq, hsplit]
  generalize (2 : ℤ) ^ 970 = unit at hle
  omega

variable (conv) in
/-- Beyond `int64` a number is read as a double. -/
theorem numberOf_iff {type : IntegerType} {n : ℤ} (h : type.low ≤ n ∧ n ≤ type.high) :
    numberOf conv type (.integer n) = some n ↔
      survives (ι := ι) (.integer type) (.integer n) = true := by
  have hrange := h
  by_cases hsmall : |n| < 2 ^ 63
  · rw [numberOf, isInt64, decide_eq_true hsmall, if_pos rfl, wrap_eq_self h]
    cases type with
    | uint64 => simp only [survives, (abs_lt.mp hsmall).2, true_or, decide_true]
    | int32 | int64 | uint32 => exact iff_of_true rfl rfl
  · have hdouble : isDouble n = true := by
      refine isDouble_of_lt (abs_lt.mpr ?_)
      cases type <;> simp only [IntegerType.low, IntegerType.high] at h <;> omega
    rw [numberOf, isInt64, decide_eq_false hsmall, if_neg Bool.false_ne_true, if_pos hdouble]
    rw [abs_lt, not_and_or] at hsmall
    cases type with
    | int32 | uint32 =>
      simp only [IntegerType.low, IntegerType.high] at h
      omega
    | int64 =>
      simp only [IntegerType.low, IntegerType.high] at h
      obtain rfl : n = -2 ^ 63 := by omega
      have hround : roundDouble (-2 ^ 63) = -2 ^ 63 := by decide
      rw [hround, if_pos hrange]
      exact iff_of_true rfl rfl
    | uint64 =>
      simp only [IntegerType.low, IntegerType.high] at h
      have hlarge : ¬n < 2 ^ 63 := by omega
      simp only [survives, hlarge, false_or, decide_eq_true_eq]
      constructor
      · intro heq
        obtain ⟨-, hround⟩ := Option.ite_none_right_eq_some.mp heq
        exact Option.some.inj hround
      · intro heq
        rw [heq, if_pos hrange]

/-- A value comes back as itself if nothing in it is lost. -/
def ComesBack (schema : Schema ι) (conv : Conversions) (v : Value) : Prop :=
  ∀ type, type.Named → v.holds schema isOf type = true →
    (back schema conv type v = some v ↔ v.holds schema survives type = true)

theorem mapM_back_iff {type : FieldType ι} (htype : type.Named) {values : List Value}
    (hvalues : ∀ v ∈ values, ComesBack schema conv v)
    (h : itemsHold schema isOf type values = true) :
    values.mapM (back schema conv type) = some values ↔
      itemsHold schema survives type values = true := by
  induction values with
  | nil => simp [itemsHold]
  | cons v values ih =>
    rw [itemsHold, Bool.and_eq_true] at h
    obtain ⟨hv, hvalues⟩ := forall_mem_cons.mp hvalues
    rw [itemsHold, Bool.and_eq_true, ← hv type htype h.1, ← ih hvalues h.2, mapM_cons]
    cases back schema conv type v with
    | none => simp
    | some v' => cases values.mapM (back schema conv type) <;> simp

theorem backFields_iff {descriptor : List (FieldDescriptor ι)}
    (hnamed : ∀ f ∈ descriptor, f.type.Named) {fields : Fields}
    (hfields : ∀ values ∈ fields, ∀ v ∈ values, ComesBack schema conv v)
    (h : fieldsHold schema isOf descriptor fields = true) :
    backFields schema conv descriptor fields = some fields ↔
      fieldsHold schema survives descriptor fields = true := by
  induction descriptor generalizing fields with
  | nil =>
    cases fields with
    | nil => simp [backFields, fieldsHold]
    | cons values fields => cases h
  | cons f descriptor ih =>
    cases fields with
    | nil => cases h
    | cons values fields =>
      obtain ⟨hvalues, hfields⟩ := forall_mem_cons.mp hfields
      obtain ⟨htype, hnamed⟩ := forall_mem_cons.mp hnamed
      rw [fieldsHold, Bool.and_eq_true, Bool.and_eq_true] at h
      rw [fieldsHold, h.1.1, Bool.true_and, Bool.and_eq_true, ← mapM_back_iff htype hvalues h.1.2,
        ← ih hnamed hfields h.2, backFields]
      cases values.mapM (back schema conv f.type) with
      | none => simp
      | some values' => cases backFields schema conv descriptor fields <;> simp

variable (conv) in
theorem back_message (hschema : schema.WellFormed) {i : ι} {fields : Fields}
    (h : fieldsHold schema isOf (schema i) fields = true) :
    back schema conv (.message i) (.message fields) =
      (backFields schema conv (schema i) fields).map .message := by
  have hback := bind_membersOf conv hschema (nil_append (schema i)).symm h
    (show ([] : Fields).length = ([] : List (FieldDescriptor ι)).length from rfl)
  simp only [nil_append, Option.map_id'] at hback
  rw [← hback, back, documentOf]
  cases (memberDocuments schema (schema i) fields).mapM id with
  | none => rfl
  | some members => rfl

variable (conv) in
theorem comesBack (hschema : schema.WellFormed) (v : Value) : ComesBack schema conv v := by
  induction v using Value.nested with
  | hinteger n =>
    intro type _ h
    cases type with
    | integer type =>
      have hiff := numberOf_iff (ι := ι) conv (of_decide_eq_true h)
      refine Iff.trans ⟨fun heq => ?_, fun heq => ?_⟩ hiff
      · obtain ⟨m, hm, hvalue⟩ := Option.map_eq_some_iff.mp heq
        cases hvalue
        exact hm
      · exact congrArg (Option.map Value.integer) heq
    | bool | enum _ | string | message _ => cases h
  | hbool b =>
    intro type _ h
    cases type with
    | bool => cases b <;> exact iff_of_true rfl rfl
    | integer _ | enum _ | string | message _ => cases h
  | henum n =>
    intro type htype h
    cases type with
    | enum values =>
      obtain ⟨hdistinct, hnames⟩ := htype values rfl
      have hmem := nameOf_mem (of_decide_eq_true h)
      refine iff_of_true ?_ rfl
      change ((values.lookup (cString (nameOf values n))).map Value.enum) = _
      rw [(hnames _ hmem).cString, lookup_of_mem hdistinct hmem]
      rfl
    | integer _ | bool | string | message _ => cases h
  | hstring s =>
    intro type _ h
    cases type with
    | string =>
      have hzero : cString s = s ↔ '\x00' ∉ s := by
        refine ⟨fun heq hmem => ?_, cString_of_notMem⟩
        rw [← heq] at hmem
        exact absurd (mem_takeWhile_imp hmem) (by decide)
      rw [back, documentOf, Value.holds, survives, Bool.and_eq_true, decide_eq_true_eq, ← hzero]
      · cases isUtf8 0 s <;> simp [valueOf, scalarOf]
      · rintro i ⟨⟩
      · rintro i fields ⟨⟩
    | integer _ | bool | enum _ | message _ => cases h
  | hmessage fields ih =>
    intro type _ h
    cases type with
    | message i =>
      rw [back_message conv hschema h]
      refine Iff.trans ⟨fun heq => ?_, fun heq => ?_⟩ (backFields_iff (hschema.named i) ih h)
      · obtain ⟨fields', hfields', hvalue⟩ := Option.map_eq_some_iff.mp heq
        cases hvalue
        exact hfields'
      · exact congrArg (Option.map Value.message) heq
    | integer _ | bool | enum _ | string => cases h

/-- A printed message is read back if and only if nothing in it is lost. -/
theorem parseJson_toJson_iff (schema : Schema ι) (hschema : schema.WellFormed) (conv : Conversions)
    (i : ι) (fields : Fields) (h : fieldsHold schema isOf (schema i) fields = true) :
    parseJsonFromString schema conv i (emptyFields schema i) (toJson schema i fields) =
        some fields ↔
      fieldsHold schema survives (schema i) fields = true := by
  have hread := (readsBack hschema (.message fields) (.message i) (by rintro _ ⟨⟩) h).treeParse
  have hback := comesBack conv hschema (.message fields) (.message i) (by rintro _ ⟨⟩) h
  refine Iff.trans ?_ hback
  rw [parseJsonFromString, toJson, hread, back]
  cases hd : documentOf schema (.message i) (.message fields) with
  | none => simp
  | some d =>
    obtain ⟨members, -, rfl⟩ := Option.map_eq_some_iff.mp hd
    change membersOf schema conv i (emptyFields schema i) members = _ ↔
      (membersOf schema conv i (emptyFields schema i) members).map Value.message = _
    cases membersOf schema conv i (emptyFields schema i) members <;> simp

/-- A file with its size and the files that are its parts. -/
def fileSchema : Schema Unit := fun _ =>
  [⟨"name".toList, false, .string⟩, ⟨"size".toList, false, .integer .uint64⟩,
    ⟨"part".toList, true, .message ()⟩]

theorem wellFormed_fileSchema : fileSchema.WellFormed where
  distinct := fun _ => (by decide : ["name".toList, "size".toList, "part".toList].Nodup)
  identifier := fun _ f hf => by
    have hall : ∀ name ∈ ["name".toList, "size".toList, "part".toList], ∀ c ∈ name,
        c.isAlphanum = true ∨ c = '_' := by simp
    exact hall f.name (mem_map_of_mem hf)
  named := fun _ f hf values h => by
    rcases mem_cons.mp hf with rfl | hf
    · cases h
    · rcases mem_cons.mp hf with rfl | hf
      · cases h
      · rw [mem_singleton.mp hf] at h
        cases h

/-- Its name has a line break and a quote, its size is a double, one of its parts has no name. -/
def partedFile : Fields :=
  [[.string "a\n\"b".toList], [.integer (2 ^ 64 - 2048)],
    [.message [[], [.integer 7], []], .message [[.string []], [], []]]]

theorem parseJson_toJson_iff_partedFile :
    fieldsHold fileSchema survives (fileSchema ()) partedFile = true ∧
      parseJsonFromString fileSchema ⟨fun _ _ => none, fun _ _ => none, fun _ => none⟩ ()
        (emptyFields fileSchema ()) (toJson fileSchema () partedFile) = some partedFile :=
  have hsurvives : fieldsHold fileSchema survives (fileSchema ()) partedFile = true := by decide
  ⟨hsurvives, (parseJson_toJson_iff fileSchema wellFormed_fileSchema _ () partedFile
    (by decide)).mpr hsurvives⟩

end Idgs.Protobuf.Json
