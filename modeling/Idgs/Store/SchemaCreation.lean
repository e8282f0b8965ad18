import Idgs.Store.SchemaActor

/-!
# What creating schemas leaves behind

`DataStore::createDataStore` goes through the schemas of a configuration and their stores and
returns at the first that fails. Nothing is taken back then: what was added before stays.
-/

namespace Idgs.Store.Schema

open Function List

variable {γ τ : Type*} {h : Helpers γ τ}

/-! ## What was added -/

/-- The data store has the store `c` under the name `s` in the schema `n`. -/
def HasStore (d : DataStore τ) (n s : String) (c : StoreConfig) : Prop :=
  ∃ schema, d n = some schema ∧ schema.storeMap s = some c

/-- The configuration lists the store `c` under the name `s` in the schema `n`. -/
def Lists (cs : List SchemaConfig) (n s : String) (c : StoreConfig) : Prop :=
  ∃ sc ∈ cs, sc.schemaName = n ∧ c ∈ sc.storeConfig ∧ c.name = s

/-- A message helper after a registration, if there is something to register. -/
def registered (f : τ → String → SchemaCode × τ) (source : Option String) (helper : τ) : τ :=
  match source with
  | none => helper
  | some s => (f helper s).2

/-- The message helper of a schema after the registrations of a configuration. -/
def typesAfter (h : Helpers γ τ) (helper : Option τ) (c : SchemaConfig) : Option τ :=
  some (registered h.registerContent c.protoContent
    (registered h.registerFile c.protoFilename (helper.getD h.newHelper)))

/-- `d'` is `d` with exactly the listed schemas, types and stores added, of which no store was
there. -/
structure Added (h : Helpers γ τ) (d : DataStore τ) (cs : List SchemaConfig) (d' : DataStore τ) :
    Prop where
  stores : ∀ n s c, HasStore d' n s c ↔ HasStore d n s c ∨ Lists cs n s c
  new : ∀ n s c, Lists cs n s c → ∀ c', ¬ HasStore d n s c'
  schemas : ∀ n, (d' n).isSome ↔ (d n).isSome ∨ n ∈ cs.map SchemaConfig.schemaName
  types : ∀ n, (d' n).map StoreSchema.messageHelper =
    (cs.filter fun c => c.schemaName = n).foldl (typesAfter h) ((d n).map StoreSchema.messageHelper)

/-- A schema up to the element that fails with a code: the registration of its file or of its
content, where `helper` is the message helper before, or one of its stores, where `schema` is the
schema that it should be added to. -/
inductive UpTo (h : Helpers γ τ) (helper : τ) (schema : StoreSchema τ) (c : SchemaConfig) :
    SchemaCode → SchemaConfig → Prop
  | file (filename : String) : c.protoFilename = some filename →
      UpTo h helper schema c (h.registerFile helper filename).1 { c with
        protoContent := none, storeConfig := [] }
  | content (content : String) : c.protoContent = some content →
      UpTo h helper schema c
      (h.registerContent (registered h.registerFile c.protoFilename helper) content).1
        { c with storeConfig := [] }
  | store (made : List StoreConfig) (failing : StoreConfig) (rest : List StoreConfig) :
      c.storeConfig = made ++ failing :: rest →
      UpTo h helper schema c (createStoreOf h schema failing).1 { c with storeConfig := made }

/-- The message helper of a schema, a new one if there is no schema. -/
def helperOf (h : Helpers γ τ) (schema : Option (StoreSchema τ)) : τ :=
  (schema.map StoreSchema.messageHelper).getD h.newHelper

/-- The creation has stopped with a code at an element of the schema `c`, and exactly what stands
before that element has been added. -/
def Stopped (h : Helpers γ τ) (d : DataStore τ) (cs : List SchemaConfig) (code : SchemaCode)
    (d' : DataStore τ) :
    Prop :=
  ∃ done c rest part d₁ schema, cs = done ++ c :: rest ∧ Added h d done d₁ ∧
    d' c.schemaName = some schema ∧
    UpTo h (helperOf h (d₁ c.schemaName)) schema c code part ∧ Added h d (done ++ [part]) d'

/-! ## One schema -/

/-- `schema'` is `schema` with exactly the stores `cs` added. -/
structure StoresAdded (schema : StoreSchema τ) (cs : List StoreConfig) (schema' : StoreSchema τ) :
    Prop where
  helper : schema'.messageHelper = schema.messageHelper
  stores : ∀ s c, schema'.storeMap s = some c ↔ schema.storeMap s = some c ∨ (c ∈ cs ∧ c.name = s)
  new : ∀ c ∈ cs, schema.storeMap c.name = none

theorem StoresAdded.nil (schema : StoreSchema τ) : StoresAdded schema [] schema where
  helper := rfl
  stores := fun s c => by simp
  new := fun c hc => by cases hc

theorem StoresAdded.cons {schema schema₁ schema' : StoreSchema τ} {c : StoreConfig}
    {cs : List StoreConfig}
    (hfirst : StoresAdded schema [c] schema₁) (hrest : StoresAdded schema₁ cs schema') :
    StoresAdded schema (c :: cs) schema' where
  helper := hrest.helper.trans hfirst.helper
  stores := fun s c' => by
    rw [hrest.stores, hfirst.stores, mem_singleton, mem_cons, or_assoc, ← or_and_right]
  new := fun c' hc' => by
    rcases mem_cons.mp hc' with rfl | hmem
    · exact hfirst.new c' mem_cons_self
    · -- a store that was there before would be there after the first
      refine Option.eq_none_iff_forall_ne_some.mpr fun old hold => ?_
      have hkept := (hfirst.stores c'.name old).mpr (Or.inl hold)
      rw [hrest.new c' hmem] at hkept
      cases hkept

section

variable (schema : StoreSchema τ)

/-- `addStore` adds the store or changes nothing. -/
theorem addStore_cases (c : StoreConfig) :
    ((addStore schema c).1 = .success ∧ StoresAdded schema [c] (addStore schema c).2) ∨
    ((addStore schema c).1 ≠ .success ∧ (addStore schema c).2 = schema) := by
  unfold addStore
  by_cases hthere : (schema.storeMap c.name).isSome
  · rw [if_pos hthere]
    exact Or.inr ⟨by simp, rfl⟩
  · rw [if_neg hthere]
    have hnone : schema.storeMap c.name = none := by simpa using hthere
    by_cases htype : c.partitionType = .other
    · rw [if_pos htype]
      exact Or.inr ⟨by simp, rfl⟩
    · rw [if_neg htype]
      refine Or.inl ⟨rfl, rfl, fun s c' => ?_, fun c' hc' => ?_⟩
      · show update schema.storeMap c.name (some c) s = some c' ↔ _
        by_cases hs : s = c.name
        · subst hs
          rw [update_self, hnone]
          simp only [Option.some.injEq, reduceCtorEq, mem_singleton, false_or]
          constructor
          · rintro rfl
            exact ⟨rfl, rfl⟩
          · rintro ⟨rfl, -⟩
            rfl
        · rw [update_of_ne hs]
          simp only [mem_singleton]
          constructor
          · exact Or.inl
          · rintro (hold | ⟨rfl, rfl⟩)
            · exact hold
            · exact absurd rfl hs
      · rw [mem_singleton.mp hc', hnone]

/-- The creation of a store adds it or changes nothing. -/
theorem createStoreOf_cases (c : StoreConfig) :
    ((createStoreOf h schema c).1 = .success ∧
      StoresAdded schema [c] (createStoreOf h schema c).2) ∨
    ((createStoreOf h schema c).1 ≠ .success ∧ (createStoreOf h schema c).2 = schema) := by
  unfold createStoreOf
  by_cases hkey : (!h.isMessageRegistered schema.messageHelper c.keyType) = true
  · rw [if_pos hkey]
    exact Or.inr ⟨by simp, rfl⟩
  rw [if_neg hkey]
  by_cases hvalue : (!h.isMessageRegistered schema.messageHelper c.valueType) = true
  · rw [if_pos hvalue]
    exact Or.inr ⟨by simp, rfl⟩
  rw [if_neg hvalue]
  by_cases hconfig : h.setStoreConfig schema.messageHelper c ≠ .success
  · rw [if_pos hconfig]
    exact Or.inr ⟨hconfig, rfl⟩
  rw [if_neg hconfig]
  exact addStore_cases schema c

/-- The stores of a schema are added, all or those before the first that fails. -/
theorem createStores_cases (cs : List StoreConfig) :
    ((createStores h schema cs).1 = .success ∧ StoresAdded schema cs (createStores h schema cs).2) ∨
    ((createStores h schema cs).1 ≠ .success ∧ ∃ made failing rest, cs = made ++ failing :: rest ∧
      (createStores h schema cs).1 = (createStoreOf h (createStores h schema cs).2 failing).1 ∧
      StoresAdded schema made (createStores h schema cs).2) := by
  induction cs generalizing schema with
  | nil => exact Or.inl ⟨rfl, StoresAdded.nil schema⟩
  | cons c cs ih =>
    rcases createStoreOf_cases (h := h) schema c with ⟨hcode, hadded⟩ | ⟨hcode, hsame⟩
    · have hstep : createStores h schema (c :: cs) =
        createStores h (createStoreOf h schema c).2 cs := by
        simp only [createStores]
        rw [if_pos hcode]
      rw [hstep]
      rcases ih (createStoreOf h schema c).2 with ⟨hall, hrest⟩ | ⟨hfail, made, failing, rest,
        hcs, hwhy, hrest⟩
      · exact Or.inl ⟨hall, hadded.cons hrest⟩
      · exact Or.inr ⟨hfail, c :: made, failing, rest, by rw [hcs]; rfl, hwhy, hadded.cons hrest⟩
    · have hstop : createStores h schema (c :: cs) = createStoreOf h schema c := by
        simp only [createStores]
        rw [if_neg hcode]
      rw [hstop]
      refine Or.inr ⟨hcode, [], c, cs, rfl, ?_, ?_⟩
      · rw [hsame]
      · rw [hsame]
        exact StoresAdded.nil schema

end

/-- The schema that the stores of a configuration are added to: the one that is there, or an empty
one. -/
def withTypes (h : Helpers γ τ) (schema : Option (StoreSchema τ)) (c : SchemaConfig) :
    StoreSchema τ :=
  { (schema.getD { messageHelper := h.newHelper }) with
    messageHelper := registered h.registerContent c.protoContent
      (registered h.registerFile c.protoFilename (helperOf h schema)) }

theorem register_snd (f : τ → String → SchemaCode × τ) (source : Option String)
    (schema : StoreSchema τ) :
    (register f source schema).2 =
      { schema with messageHelper := registered f source schema.messageHelper } := by
  cases source <;> rfl

/-- A registration that fails has something to register. -/
theorem exists_of_register {f : τ → String → SchemaCode × τ} {source : Option String}
    {schema : StoreSchema τ} (hfail : (register f source schema).1 ≠ .success) :
    ∃ s, source = some s ∧ (register f source schema).1 = (f schema.messageHelper s).1 := by
  cases source with
  | none => exact absurd rfl hfail
  | some s => exact ⟨s, rfl, rfl⟩

/-- A schema is filled as listed, or up to the element that fails. -/
theorem createSchemaOf_cases (schema : Option (StoreSchema τ)) (c : SchemaConfig) :
    ((createSchemaOf h schema c).1 = .success ∧
      StoresAdded (withTypes h schema c) c.storeConfig (createSchemaOf h schema c).2) ∨
    ((createSchemaOf h schema c).1 ≠ .success ∧ ∃ part,
      UpTo h (helperOf h schema) (createSchemaOf h schema c).2 c
      (createSchemaOf h schema c).1 part ∧
      StoresAdded (withTypes h schema part) part.storeConfig (createSchemaOf h schema c).2) := by
  have hhelper : (schema.getD { messageHelper := h.newHelper }).messageHelper =
      helperOf h schema := by
    cases schema <;> rfl
  unfold createSchemaOf
  simp only
  have hfromFile :=
    register_snd h.registerFile c.protoFilename (schema.getD { messageHelper := h.newHelper })
  rw [hhelper] at hfromFile
  by_cases hfile :
    (register h.registerFile c.protoFilename (schema.getD { messageHelper := h.newHelper })).1 ≠
      .success
  · rw [if_pos hfile]
    obtain ⟨filename, hsource, hcode⟩ := exists_of_register hfile
    refine Or.inr ⟨hfile, { c with protoContent := none, storeConfig := [] }, ?_, ?_⟩
    · rw [hcode, hhelper]
      exact UpTo.file filename hsource
    · rw [hfromFile]
      exact StoresAdded.nil _
  rw [if_neg hfile]
  have hfromContent :=
    register_snd h.registerContent c.protoContent (register h.registerFile c.protoFilename
    (schema.getD { messageHelper := h.newHelper })).2
  have hsame : (register h.registerContent c.protoContent (register h.registerFile c.protoFilename
      (schema.getD { messageHelper := h.newHelper })).2).2 = withTypes h schema c := by
    rw [hfromContent, hfromFile]
    rfl
  by_cases hcontent :
    (register h.registerContent c.protoContent (register h.registerFile c.protoFilename
      (schema.getD { messageHelper := h.newHelper })).2).1 ≠ .success
  · rw [if_pos hcontent]
    obtain ⟨content, hsource, hcode⟩ := exists_of_register hcontent
    refine Or.inr ⟨hcontent, { c with storeConfig := [] }, ?_, ?_⟩
    · rw [hcode, hfromFile]
      exact UpTo.content content hsource
    · rw [hsame]
      exact StoresAdded.nil _
  rw [if_neg hcontent, hsame]
  rcases createStores_cases (h := h) (withTypes h schema c) c.storeConfig with
    ⟨hcode, hadded⟩ | ⟨hcode, made, failing, rest, hlist, hwhy, hadded⟩
  · exact Or.inl ⟨hcode, hadded⟩
  · refine Or.inr ⟨hcode, { c with storeConfig := made }, ?_, hadded⟩
    rw [hwhy]
    exact UpTo.store made failing rest hlist

/-! ## All schemas -/

theorem Added.nil (d : DataStore τ) : Added h d [] d where
  stores := fun n s c => by simp [Lists]
  new := fun n s c hlists => by
    obtain ⟨sc, hsc, -⟩ := hlists
    cases hsc
  schemas := fun n => by simp
  types := fun n => rfl

theorem lists_cons {sc : SchemaConfig} {cs : List SchemaConfig} {n s : String} {c : StoreConfig} :
    Lists (sc :: cs) n s c ↔ Lists [sc] n s c ∨ Lists cs n s c := by
  simp only [Lists, mem_cons, not_mem_nil, or_false, exists_eq_or_imp, exists_eq_left]

theorem Added.cons {d d₁ d' : DataStore τ} {c : SchemaConfig} {cs : List SchemaConfig}
    (hfirst : Added h d [c] d₁) (hrest : Added h d₁ cs d') : Added h d (c :: cs) d' where
  stores := fun n s c' => by
    rw [hrest.stores, hfirst.stores, or_assoc]
    exact or_congr_right lists_cons.symm
  new := fun n s c' hlists old hold => by
    rcases lists_cons.mp hlists with hone | hmem
    · exact hfirst.new n s c' hone old hold
    · exact hrest.new n s c' hmem old ((hfirst.stores n s old).mpr (Or.inl hold))
  schemas := fun n => by
    rw [hrest.schemas, hfirst.schemas, map_cons, map_cons, map_nil,
      mem_singleton, mem_cons, or_assoc]
  types := fun n => by
    rw [hrest.types, hfirst.types, ← foldl_append, ← filter_append]
    rfl

/-- One schema filled. -/
theorem added_one {d : DataStore τ} {c : SchemaConfig} {schema' : StoreSchema τ}
    (hadded : StoresAdded (withTypes h (d c.schemaName) c) c.storeConfig schema') :
    Added h d [c] (update d c.schemaName (some schema')) := by
  have hmap : ∀ s c', (withTypes h (d c.schemaName) c).storeMap s = some c' ↔
      HasStore d c.schemaName s c' := by
    intro s c'
    unfold HasStore withTypes
    cases d c.schemaName with
    | none => simp
    | some schema => simp
  have hlists : ∀ n s c', Lists [c] n s c' ↔ c.schemaName = n ∧ c' ∈ c.storeConfig ∧
      c'.name = s := by
    intro n s c'
    simp only [Lists, mem_singleton, exists_eq_left]
  refine ⟨fun n s c' => ?_, fun n s c' hc' old hold => ?_, fun n => ?_, fun n => ?_⟩
  · rw [hlists]
    by_cases hn : n = c.schemaName
    · subst hn
      have hnew : HasStore (update d c.schemaName (some schema')) c.schemaName s c' ↔
          schema'.storeMap s = some c' := by
        unfold HasStore
        rw [update_self]
        simp only [Option.some.injEq, exists_eq_left']
      rw [hnew, hadded.stores, hmap]
      simp only [true_and]
    · have hkept : HasStore (update d c.schemaName (some schema')) n s c' ↔
        HasStore d n s c' := by
        unfold HasStore
        rw [update_of_ne hn]
      rw [hkept]
      constructor
      · exact Or.inl
      · rintro (hold | ⟨hname, -⟩)
        · exact hold
        · exact absurd hname.symm hn
  · obtain ⟨rfl, hmem, rfl⟩ := (hlists n s c').mp hc'
    have hthere := (hmap c'.name old).mpr hold
    rw [hadded.new c' hmem] at hthere
    cases hthere
  · rw [map_singleton, mem_singleton]
    by_cases hn : n = c.schemaName
    · subst hn
      rw [update_self]
      simp
    · rw [update_of_ne hn]
      simp [hn]
  · by_cases hn : n = c.schemaName
    · subst hn
      rw [update_self, filter_cons, if_pos (decide_eq_true rfl)]
      show some schema'.messageHelper =
          typesAfter h ((d c.schemaName).map StoreSchema.messageHelper) c
      rw [hadded.helper]
      rfl
    · rw [update_of_ne hn, filter_cons, if_neg (by simpa using Ne.symm hn)]
      rfl

theorem UpTo.schemaName_eq {helper : τ} {schema : StoreSchema τ} {c part : SchemaConfig}
    {code : SchemaCode}
    (hpart : UpTo h helper schema c code part) : part.schemaName = c.schemaName := by
  cases hpart <;> rfl

/-- A creation stops later than its first schema. -/
theorem Stopped.cons {d d₁ d' : DataStore τ} {c : SchemaConfig} {cs : List SchemaConfig}
    {code : SchemaCode} (hfirst : Added h d [c] d₁) (hrest : Stopped h d₁ cs code d') :
    Stopped h d (c :: cs) code d' := by
  obtain ⟨done, c', rest, part, d₂, schema, rfl, hdone, hschema, hpart, hadded⟩ := hrest
  exact ⟨c :: done, c', rest, part, d₂, schema, rfl, hfirst.cons hdone, hschema, hpart,
    hfirst.cons hadded⟩

/-- The schemas are added, all or those before the first that fails and a part of it. -/
theorem createSchemas_cases (d : DataStore τ) (cs : List SchemaConfig) :
    ((createSchemas h d cs).1 = .success ∧ Added h d cs (createSchemas h d cs).2) ∨
    ((createSchemas h d cs).1 ≠ .success ∧
      Stopped h d cs (createSchemas h d cs).1 (createSchemas h d cs).2) := by
  induction cs generalizing d with
  | nil => exact Or.inl ⟨rfl, Added.nil d⟩
  | cons c cs ih =>
    rcases createSchemaOf_cases (h := h) (d c.schemaName) c with ⟨hcode, hadded⟩ | ⟨hcode, part,
      hpart, hadded⟩
    · have hstep : createSchemas h d (c :: cs) = createSchemas h
          (update d c.schemaName (some (createSchemaOf h (d c.schemaName) c).2)) cs := by
        simp only [createSchemas]
        rw [if_pos hcode]
      rw [hstep]
      have hone := added_one hadded
      rcases ih
        (update d c.schemaName (some (createSchemaOf h (d c.schemaName) c).2)) with
        ⟨hall, hrest⟩ | ⟨hfail, hrest⟩
      · exact Or.inl ⟨hall, hone.cons hrest⟩
      · exact Or.inr ⟨hfail, hrest.cons hone⟩
    · have hstop : createSchemas h d (c :: cs) = ((createSchemaOf h (d c.schemaName) c).1,
          update d c.schemaName (some (createSchemaOf h (d c.schemaName) c).2)) := by
        simp only [createSchemas]
        rw [if_neg hcode]
      rw [hstop]
      refine Or.inr ⟨hcode, [], c, cs, part, d, _, rfl, Added.nil d, update_self ..,
        hpart, ?_⟩
      rw [← hpart.schemaName_eq] at hadded ⊢
      exact added_one hadded

/-! ## The data store -/

/-- **What creation leaves behind.** A configuration that cannot be parsed changes nothing. A
creation that succeeds adds exactly what the configuration lists; one that fails adds exactly what
stands before the element that fails, and takes nothing back. -/
theorem createDataStore_adds (h : Helpers γ τ) (config : Option (List SchemaConfig))
    (d : DataStore τ) :
    match config with
    | none => createDataStore h config d = (.parseConfigError, d)
    | some cs =>
        ((createDataStore h config d).1 = .success → Added h d cs (createDataStore h config d).2) ∧
        ((createDataStore h config d).1 ≠ .success →
          Stopped h d cs (createDataStore h config d).1 (createDataStore h config d).2) := by
  cases config with
  | none => rfl
  | some cs =>
      rcases createSchemas_cases (h := h) d cs with ⟨hcode, hadded⟩ | ⟨hcode, hstopped⟩
      · exact ⟨fun _ => hadded, fun hfail => absurd hcode hfail⟩
      · exact ⟨fun hsuccess => absurd hsuccess hcode, fun _ => hstopped⟩

/-- A failed creation changes nothing, and one that succeeds adds exactly what is listed. -/
def Atomic (h : Helpers γ τ) (config : Option (List SchemaConfig)) (d : DataStore τ) : Prop :=
  ((createDataStore h config d).1 ≠ .success → (createDataStore h config d).2 = d) ∧
  ((createDataStore h config d).1 = .success →
  Added h d (config.getD []) (createDataStore h config d).2)

/-- Message types are registered by their name. -/
def namedTypes : Helpers (List SchemaConfig) (List String) where
  parseStoreConfig := some
  parseStoreConfigFromString := fun _ => none
  newHelper := []
  registerFile := fun types file => (.success, types ++ [file])
  registerContent := fun types content => (.success, types ++ [content])
  isMessageRegistered := fun types name => types.contains name
  setStoreConfig := fun _ _ => .success

/-- Two stores, the second of an unknown value type. -/
def secondUnknown : List SchemaConfig :=
  [{ schemaName := "sales", protoFilename := some "Order",
     storeConfig := [{ name := "orders", keyType := "Order", valueType := "Order" },
       { name := "items", keyType := "Order", valueType := "Item" }] }]

/-- The schema, its type and its first store stay. -/
theorem not_atomic : ¬ Atomic namedTypes (some secondUnknown) (fun _ => none) := by
  rintro ⟨hfail, -⟩
  have hsame := congrFun (hfail (by decide)) "sales"
  have hthere :
      ((createDataStore namedTypes (some secondUnknown) (fun _ => none)).2 "sales").isSome =
      true := by
    decide
  rw [hsame] at hthere
  cases hthere

end Idgs.Store.Schema
