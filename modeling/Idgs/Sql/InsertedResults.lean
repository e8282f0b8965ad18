import Idgs.Sql.InsertedRows

/-!
# Rows that are loaded

A row is loaded exactly if it is read as what its texts denote. A result message is copied into the
key, the fields of the value as well, so that it is loaded only if the value has no fields, or in
the odd case that both types are the same.
-/

namespace Idgs.Sql.Insert

open List

open Common.Splitting (occurrences)

variable {δ φ : Type}

section Platform

variable (platform : Platform δ φ)

/-! ## What should be loaded -/

/-- A result has the values of the messages in its fields, which have their types. -/
def SameValues (cfg : StoreConfig) (key value : DynamicMessage δ φ)
    (result : List (ResultField δ φ)) : Prop :=
  (∀ keyFields valueFields, platform.cache cfg.keyType = some keyFields →
    platform.cache cfg.valueType = some valueFields →
    result.map ResultField.javaType = (keyFields ++ valueFields).map fun f => f.type.javaType) ∧
    result.map ResultField.value = key.fields ++ value.fields

/-- A row is loaded, or is refused and nothing changes; and a result with the same values is loaded
as well. -/
structure Loads (op : InsertOperator δ φ) (texts : List Text) (result : List (ResultField δ φ)) :
    Prop where
  loads : ∀ key value, Denotes platform op.storeConfig texts key value →
    parseRow platform op (op.storeConfig.fieldSeperator.intercalate texts) =
      (.ok (), op.put key value)
  refuses : (¬ ∃ key value, Denotes platform op.storeConfig texts key value) →
    ∃ message, parseRow platform op (op.storeConfig.fieldSeperator.intercalate texts) =
      (.error (.idgsException message), op)
  copies : ∀ key value, Denotes platform op.storeConfig texts key value →
    SameValues platform op.storeConfig key value result →
    parseResult platform op result = (.ok (), op.put key value)

/-- A result with the values of these messages is copied as it should be: the operator has messages
of the types, and either the value has no fields and those of the key are set, or the types are the
same, no field of the value is set, and those of the key are the defaults in its place. -/
def CopiesResult (op : InsertOperator δ φ) (key value : DynamicMessage δ φ)
    (result : List (ResultField δ φ)) : Prop :=
  (∃ k v, op.key = some k ∧ op.value = some v ∧ k.type = op.storeConfig.keyType ∧
    v.type = op.storeConfig.valueType) ∧
  ((value.fields = [] ∧ ∀ v ∈ key.fields, v.isSome) ∨
    (value.fields ≠ [] ∧ op.storeConfig.keyType = op.storeConfig.valueType ∧
      (∀ v ∈ value.fields, v = none) ∧
      key.fields = (result.drop key.fields.length).map fun f => some f.defaultValue))

variable {platform}

/-! ## Results -/

section Result

variable {op : InsertOperator δ φ} {result : List (ResultField δ φ)} {keyType type : String}
  {fields keyFields valueFields : List (FieldDescriptor δ φ)} {key value : DynamicMessage δ φ}

/-- The values of result fields. -/
def getFields (result : List (ResultField δ φ)) : List (Option (Value δ φ)) :=
  result.map fun f => some f.getField

/-- The fields of the key are copied. -/
theorem copyFields_eq (hlength : fields.length ≤ result.length)
    (hjava : (result.take fields.length).map ResultField.javaType =
      fields.map fun f => f.type.javaType) :
    ((fields.zip result).mapM fun f => copyField keyType keyType f.1 f.2) =
      .ok (getFields (result.take fields.length)) := by
  induction fields generalizing result with
  | nil => rfl
  | cons field fields ih =>
    cases result with
    | nil => cases hlength
    | cons r result =>
      rw [length_cons, take_succ_cons, map_cons, map_cons] at hjava
      obtain ⟨hr, hrest⟩ := List.cons.inj hjava
      have hcopied : copyField keyType keyType field r = .ok (some r.getField) := by
        rw [copyField, if_neg (not_not.mpr hr.symm), if_neg (not_not.mpr rfl)]
      rw [zip_cons_cons, mapM_cons, ih (Nat.le_of_succ_le_succ hlength) hrest, hcopied]
      rfl

/-- A field of another message is not. -/
theorem copyFields_error {field : FieldDescriptor δ φ} {r : ResultField δ φ}
    (htype : type ≠ keyType) (hjava : r.javaType = field.type.javaType) :
    (((field :: fields).zip (r :: result)).mapM fun f => copyField keyType type f.1 f.2) =
      .error .illegalArgumentException := by
  have hthrown : copyField keyType type field r = .error .illegalArgumentException := by
    rw [copyField, if_neg (not_not.mpr hjava.symm), if_pos htype]
  rw [zip_cons_cons, mapM_cons, hthrown]
  rfl

/-- Without messages of the right types, nothing is read. -/
theorem readResult_error
    (h : ¬ ∃ k v, op.key = some k ∧ op.value = some v ∧ k.type = op.storeConfig.keyType ∧
      v.type = op.storeConfig.valueType) :
    ∃ e, readResult platform op result = .error e := by
  unfold readResult
  cases hvalue : op.value with
  | none => exact ⟨_, rfl⟩
  | some v =>
    cases hkey : op.key with
    | none => exact ⟨_, rfl⟩
    | some k =>
      by_cases hk : op.storeConfig.keyType = k.type
      · have hv : ¬ op.storeConfig.valueType = v.type := fun hv =>
          h ⟨k, v, hkey, hvalue, hk.symm, hv.symm⟩
        have hnone : ofType platform op.storeConfig.valueType v = none := if_neg hv
        cases hfields : ofType platform op.storeConfig.keyType k with
        | none =>
          simp only [hfields]
          exact ⟨_, rfl⟩
        | some keyFields =>
          simp only [hfields, hnone]
          exact ⟨_, rfl⟩
      · have hnone : ofType platform op.storeConfig.keyType k = none := if_neg hk
        simp only [hnone]
        exact ⟨_, rfl⟩

/-- With messages of the right types, the loops copy the fields. -/
theorem readResult_eq {k v : DynamicMessage δ φ} (hkey : op.key = some k)
    (hvalue : op.value = some v)
    (hk : k.type = op.storeConfig.keyType) (hv : v.type = op.storeConfig.valueType)
    (hkeyFields : platform.cache op.storeConfig.keyType = some keyFields)
    (hvalueFields : platform.cache op.storeConfig.valueType = some valueFields)
    (hlength : keyFields.length + valueFields.length = result.length)
    (hjava : (result.take keyFields.length).map ResultField.javaType =
      keyFields.map fun f => f.type.javaType) :
    readResult platform op result =
      ((valueFields.zip (result.drop keyFields.length)).mapM fun f =>
        copyField op.storeConfig.keyType op.storeConfig.valueType f.1 f.2).map fun copied =>
          ((keyFields, ⟨op.storeConfig.keyType,
            copied ++ (getFields (result.take keyFields.length)).drop copied.length⟩),
          (valueFields, ⟨op.storeConfig.valueType, valueFields.map fun _ => none⟩)) := by
  have hofKey : ofType platform op.storeConfig.keyType k = some keyFields :=
    (if_pos hk.symm).trans hkeyFields
  have hofValue : ofType platform op.storeConfig.valueType v = some valueFields :=
    (if_pos hv.symm).trans hvalueFields
  unfold readResult
  simp only [hkey, hvalue, hofKey, hofValue]
  change (if keyFields.length + valueFields.length ≠ result.length then _ else _) = _
  rw [if_neg (not_not.mpr hlength), copyFields_eq (by omega) hjava]
  cases (valueFields.zip (result.drop keyFields.length)).mapM fun f =>
      copyField op.storeConfig.keyType op.storeConfig.valueType f.1 f.2 with
  | error e => rfl
  | ok copied => rfl

/-- What is copied is what is set exactly if everything is set. -/
theorem getFields_eq_iff :
    result.map ResultField.value = getFields result ↔
      ∀ v ∈ result.map ResultField.value, v.isSome := by
  induction result with
  | nil => exact iff_of_true rfl fun v hv => absurd hv not_mem_nil
  | cons r result ih =>
    rw [map_cons, getFields, map_cons, List.cons.injEq, forall_mem_cons, ← ih]
    refine and_congr ?_ Iff.rfl
    rw [ResultField.getField]
    cases r.value with
    | none => exact iff_of_false (fun h => by cases h) Bool.false_ne_true
    | some v => exact iff_of_true rfl rfl

/-- Of what is not set, the defaults are copied. -/
theorem getFields_of_none (h : ∀ v ∈ result.map ResultField.value, v = none) :
    getFields result = result.map fun f => some f.defaultValue := by
  refine map_congr_left fun r hr => ?_
  rw [ResultField.getField, h r.value (mem_map_of_mem hr)]
  rfl

theorem isSome_of_mem_getFields {v : Option (Value δ φ)} (h : v ∈ getFields result) : v.isSome := by
  obtain ⟨r, -, rfl⟩ := mem_map.mp h
  rfl

/-- All fields that are copied are set. -/
theorem build_of_set {message : DynamicMessage δ φ} (h : ∀ v ∈ message.fields, v.isSome) :
    build fields message = .ok message := by
  rw [build, if_neg]
  rw [any_eq_true]
  rintro ⟨f, hf, hnone⟩
  have hset := h f.2 (of_mem_zip hf).2
  rw [← Option.not_isSome, hset, Bool.not_true, Bool.and_false] at hnone
  cases hnone

/-- A required field that a text denotes is set. -/
theorem isSome_of_means {field : FieldDescriptor δ φ} {text : Text} {v : Option (Value δ φ)}
    (h : Means platform field text v) (hrequired : field.required = true) : v.isSome := by
  rw [Means, if_neg fun hskip => by rw [hrequired] at hskip; exact Bool.noConfusion hskip.2] at h
  obtain ⟨w, -, rfl⟩ := h
  rfl

/-- What is read of a result is put into the operator. -/
theorem parseResult_of_read {k v : DynamicMessage δ φ}
    (hread : readResult platform op result = .ok ((keyFields, k), (valueFields, v)))
    (hk : ∀ x ∈ k.fields, x.isSome) (hv : build valueFields v = .ok v) :
    parseResult platform op result = (.ok (), op.put k v) := by
  rw [parseResult, hread]
  exact assign_eq (build_of_set hk) hv

theorem assign_eq_put {k v k' v' : DynamicMessage δ φ}
    (h : op.assign keyFields valueFields k v = (.ok (), op.put k' v')) : k' = k ∧ v' = v := by
  have hbuilt : ∀ (fields : List (FieldDescriptor δ φ)) (m m' : DynamicMessage δ φ),
      build fields m = .ok m' → m' = m := by
    intro fields m m' hm
    rw [build] at hm
    split at hm
    · cases hm
    · exact (Except.ok.inj hm).symm
  rw [InsertOperator.assign] at h
  cases hk : build keyFields k with
  | error e =>
    rw [hk] at h
    cases congrArg Prod.fst h
  | ok k₁ =>
    cases hv : build valueFields v with
    | error e =>
      rw [hk, hv] at h
      cases congrArg Prod.fst h
    | ok v₁ =>
      rw [hk, hv] at h
      obtain ⟨rfl, rfl⟩ := put_injective (congrArg Prod.snd h)
      exact ⟨hbuilt _ _ _ hk, hbuilt _ _ _ hv⟩

/-- If the types are the same, the fields of the value overwrite those of the key. -/
theorem read_of_same_type {cfg : StoreConfig} (htype : cfg.valueType = cfg.keyType)
    (hfields : keyFields = valueFields)
    (hlength : keyFields.length + valueFields.length = result.length)
    (hjava : (result.drop keyFields.length).map ResultField.javaType =
      valueFields.map fun f => f.type.javaType) :
    (((valueFields.zip (result.drop keyFields.length)).mapM fun f =>
        copyField cfg.keyType cfg.valueType f.1 f.2).map fun copied =>
          ((keyFields, (⟨cfg.keyType, copied ++ (getFields (result.take keyFields.length)).drop
            copied.length⟩ : DynamicMessage δ φ)),
          (valueFields, (⟨cfg.valueType, valueFields.map fun _ => none⟩ : DynamicMessage δ φ)))) =
      .ok ((keyFields, ⟨cfg.keyType, getFields (result.drop keyFields.length)⟩),
        (valueFields, ⟨cfg.valueType, valueFields.map fun _ => none⟩)) := by
  have hdrop : (result.drop keyFields.length).length = valueFields.length := by
    rw [length_drop]
    omega
  have hloop : ((valueFields.zip (result.drop keyFields.length)).mapM fun f =>
      copyField cfg.keyType cfg.keyType f.1 f.2) = _ :=
    copyFields_eq hdrop.ge (by rw [← hdrop, take_length]; exact hjava)
  rw [← hdrop, take_length] at hloop
  have hrest : (getFields (result.take keyFields.length)).drop
      (getFields (result.drop keyFields.length)).length = [] := by
    refine drop_eq_nil_of_le ?_
    rw [getFields, getFields, length_map, length_map, hdrop, ← hfields]
    exact length_take_le _ _
  rw [htype, hloop]
  change Except.ok ((keyFields, (⟨cfg.keyType, _ ++ _⟩ : DynamicMessage δ φ)), _) = _
  rw [hrest, append_nil]

/-- The value that texts denote has its required fields. -/
theorem value_built {texts : List Text} (hkey : key.fields.length = keyFields.length)
    (htexts : texts.length = keyFields.length + valueFields.length)
    (hmeans : List.Forall₂ (fun f v => Means platform f.1 f.2 v)
      ((keyFields ++ valueFields).zip texts) (key.fields ++ value.fields)) :
    build valueFields value = .ok value := by
  have hset : ∀ (field : FieldDescriptor δ φ) (text : Text) (v : Option (Value δ φ)),
      Means platform field text v → field.required = true → v.isSome := fun _ _ _ => isSome_of_means
  have hzip : (keyFields.zip texts).length = keyFields.length := by
    rw [length_zip]
    omega
  have hvalue := forall₂_drop keyFields.length hmeans
  rw [zip_append_left, ← hkey, drop_left, hkey] at hvalue
  nth_rewrite 1 [← hzip] at hvalue
  rw [drop_left] at hvalue
  exact build_of_related hset (by rw [length_drop]; omega) hvalue

/-- A result with the values of the messages is loaded exactly if `CopiesResult` holds. -/
theorem parseResult_loads_iff {texts : List Text}
    (hdenotes : Denotes platform op.storeConfig texts key value)
    (hsame : SameValues platform op.storeConfig key value result) :
    parseResult platform op result = (.ok (), op.put key value) ↔
      CopiesResult op key value result := by
  obtain ⟨keyFields, valueFields, hkeyFields, hvalueFields, hkeyType, hvalueType, hkeyLength,
    htexts, hmeans⟩ := hdenotes
  obtain ⟨hjava, hvalues⟩ := hsame
  specialize hjava keyFields valueFields hkeyFields hvalueFields
  have hlength : keyFields.length + valueFields.length = result.length := by
    have hcount := congrArg List.length hjava
    rw [length_map, length_map, length_append] at hcount
    exact hcount.symm
  have hjavaTake : (result.take keyFields.length).map ResultField.javaType =
      keyFields.map fun f => f.type.javaType := by
    rw [map_take, hjava, map_append, take_left' (length_map _)]
  have hjavaDrop : (result.drop keyFields.length).map ResultField.javaType =
      valueFields.map fun f => f.type.javaType := by
    rw [map_drop, hjava, map_append, drop_left' (length_map _)]
  have htake : (result.take keyFields.length).map ResultField.value = key.fields := by
    rw [map_take, hvalues, ← hkeyLength, take_left]
  have hdrop : (result.drop keyFields.length).map ResultField.value = value.fields := by
    rw [map_drop, hvalues, ← hkeyLength, drop_left]
  have hvalueLength : value.fields.length = valueFields.length := by
    rw [← hdrop, length_map, length_drop]
    omega
  by_cases hmessages : ∃ k v, op.key = some k ∧ op.value = some v ∧
      k.type = op.storeConfig.keyType ∧ v.type = op.storeConfig.valueType
  · obtain ⟨k, v, hk, hv, hkType, hvType⟩ := hmessages
    have hread := readResult_eq hk hv hkType hvType hkeyFields hvalueFields hlength hjavaTake
    cases valueFields with
    | nil =>
      have hnil : value.fields = [] := length_eq_zero_iff.mp hvalueLength
      have hparse : parseResult platform op result = (.ok (), op.put
          ⟨op.storeConfig.keyType, getFields (result.take keyFields.length)⟩
          ⟨op.storeConfig.valueType, []⟩) :=
        parseResult_of_read hread (fun v hv => isSome_of_mem_getFields hv) rfl
      rw [hparse]
      constructor
      · intro h
        obtain ⟨h', -⟩ := put_injective (congrArg Prod.snd h)
        have hcopied : key.fields = getFields (result.take keyFields.length) :=
          congrArg DynamicMessage.fields h'.symm
        refine ⟨⟨k, v, hk, hv, hkType, hvType⟩, Or.inl ⟨hnil, ?_⟩⟩
        rw [← htake] at hcopied ⊢
        exact getFields_eq_iff.mp hcopied
      · rintro ⟨-, ⟨-, hset⟩ | ⟨hsome, -⟩⟩
        · rw [← htake] at hset
          have hcopied := getFields_eq_iff.mpr hset
          rw [htake] at hcopied
          rw [← hcopied, ← hkeyType, ← hvalueType, ← hnil]
        · exact absurd hnil hsome
    | cons field valueFields =>
      have hne : value.fields ≠ [] := ne_nil_of_length_pos (by rw [hvalueLength]; simp)
      by_cases htype : op.storeConfig.valueType = op.storeConfig.keyType
      · have hsameFields : keyFields = field :: valueFields := by
          rw [htype] at hvalueFields
          exact Option.some.inj (hkeyFields.symm.trans hvalueFields)
        replace hread : readResult platform op result = .ok
            ((keyFields, ⟨op.storeConfig.keyType, getFields (result.drop keyFields.length)⟩),
            (field :: valueFields, ⟨op.storeConfig.valueType,
              (field :: valueFields).map fun _ => none⟩)) := by
          rw [hread]
          exact read_of_same_type htype hsameFields (by omega) hjavaDrop
        constructor
        · intro h
          rw [parseResult, hread] at h
          obtain ⟨hkeyBuilt, hvalueBuilt⟩ := assign_eq_put h
          have hnone : ∀ w ∈ value.fields, w = none := by
            rw [hvalueBuilt]
            intro w hw
            obtain ⟨_, -, rfl⟩ := mem_map.mp hw
            rfl
          refine ⟨⟨k, v, hk, hv, hkType, hvType⟩, Or.inr ⟨hne, htype.symm, hnone, ?_⟩⟩
          rw [hkeyLength, ← getFields_of_none (hdrop ▸ hnone)]
          exact congrArg DynamicMessage.fields hkeyBuilt
        · rintro ⟨-, ⟨hnil, -⟩ | ⟨-, -, hnone, hdefaults⟩⟩
          · exact absurd hnil hne
          · have hkeyEq : getFields (result.drop keyFields.length) = key.fields := by
              rw [hdefaults, hkeyLength]
              exact getFields_of_none (hdrop ▸ hnone)
            have hvalueEq : (field :: valueFields).map (fun _ => none) = value.fields := by
              rw [map_const', ← hvalueLength]
              exact (eq_replicate_of_mem hnone).symm
            rw [hkeyEq, hvalueEq, ← hkeyType, ← hvalueType] at hread
            refine parseResult_of_read hread (fun w hw => ?_)
              (value_built hkeyLength htexts hmeans)
            rw [← hkeyEq] at hw
            exact isSome_of_mem_getFields hw
      · have hthrown : readResult platform op result = .error .illegalArgumentException := by
          cases hrest : result.drop keyFields.length with
          | nil =>
            rw [hrest] at hdrop
            exact absurd hdrop.symm hne
          | cons r rest =>
            rw [hrest, map_cons, map_cons] at hjavaDrop
            rw [hread, hrest, copyFields_error htype (List.cons.inj hjavaDrop).1]
            rfl
        refine iff_of_false (fun h => ?_) ?_
        · rw [parseResult, hthrown] at h
          cases congrArg Prod.fst h
        · rintro ⟨-, ⟨hnil, -⟩ | ⟨-, htypes, -⟩⟩
          · exact hne hnil
          · exact htype htypes.symm
  · have he : ∃ e, readResult platform op result = .error e := readResult_error hmessages
    obtain ⟨e, he⟩ := he
    refine iff_of_false (fun h => ?_) (fun h => hmessages h.1)
    rw [parseResult, he] at h
    cases congrArg Prod.fst h

end Result

/-! ## Loading rows -/

variable (platform)

/-- The condition under which a row and a result are loaded as they should be. -/
structure Fits (op : InsertOperator δ φ) (texts : List Text) (result : List (ResultField δ φ)) :
    Prop where
  reads : ∀ key value, Denotes platform op.storeConfig texts key value →
    ReadsRow platform op.storeConfig (op.storeConfig.fieldSeperator.intercalate texts) key value
  refuses : (¬ ∃ key value, Denotes platform op.storeConfig texts key value) →
    RefusesRow platform op.storeConfig (op.storeConfig.fieldSeperator.intercalate texts)
  copies : ∀ key value, Denotes platform op.storeConfig texts key value →
    SameValues platform op.storeConfig key value result → CopiesResult op key value result

end Platform

/-! ## An empty field at the end -/

/-- Keys have a number, values a name and a comment, which may be missing. -/
def items : String → Option (List (FieldDescriptor Text Text))
  | "Key" => some [⟨"id", .int32, true, .int 0⟩]
  | "Value" => some [⟨"name", .string, true, .string []⟩, ⟨"comment", .string, false, .string []⟩]
  | _ => none

/-- A platform that takes each separator literally. -/
def literalPlatform : Platform Text Text where
  compile := fun regex => some (occurrences regex)
  getBytes := fun text => text.map Char.toUInt8
  nearestFloat := id
  nearestDouble := id
  readsPlus := true
  cache := items
  compile_ordinary := fun _ _ _ => rfl

/-- A store of items. -/
def itemStore : InsertOperator Text Text where
  storeConfig := ⟨"item", "Key", "Value", [',']⟩
  key := none
  value := none
  params := fun _ => none

/-- The row of an item with a comment. -/
def penRow : List Text := ["7".toList, "pen".toList, ['!']]

end Idgs.Sql.Insert
