import Mathlib.Data.List.Nodup
import Idgs.Common.Run

/-!
# Creating and dropping schemas and stores

A request to create or drop a schema or a store is sent on to all store members by an aggregator of
its own. Each member applies it to its data store, by the names in it, when the message comes.
-/

namespace Idgs.Store.Schema

open Function List

/-- The result codes of the schema operations. -/
inductive SchemaCode
  | success | schemaNotFound | storeNotFound | storeExisted | parseConfigError | loadProtoError
  | keyTypeNotRegistered | valueTypeNotRegistered | invalidPartitioner | notSupport
deriving DecidableEq

/-- `pb::PartitionType`. -/
inductive PartitionType
  | partitionTable | replicated | other
deriving DecidableEq

/-- `pb::StoreConfig`; `settings` stands for the fields that the schema operations only copy. -/
structure StoreConfig where
  name : String
  keyType : String
  valueType : String
  partitionType : PartitionType := .partitionTable
  settings : ℕ := 0
deriving DecidableEq

/-- `pb::StoreSchema`. -/
structure SchemaConfig where
  schemaName : String
  storeConfig : List StoreConfig := []
  protoFilename : Option String := none
  protoContent : Option String := none
deriving DecidableEq

/-- What the operations get from elsewhere: the types that a message helper has registered, of type
`τ`, the parser of configurations, of type `γ`, and the test of a store's partitioner. The members
have the same files. -/
structure Helpers (γ τ : Type*) where
  parseStoreConfig : γ → Option (List SchemaConfig)
  parseStoreConfigFromString : String → Option (List SchemaConfig)
  /-- `MessageHelper` of a new schema. -/
  newHelper : τ
  /-- `registerDynamicMessage` for a file name and for a content. -/
  registerFile : τ → String → SchemaCode × τ
  registerContent : τ → String → SchemaCode × τ
  isMessageRegistered : τ → String → Bool
  /-- `StoreConfig::setStoreConfig`. -/
  setStoreConfig : τ → StoreConfig → SchemaCode

/-- `StoreSchema`: the registered types and the stores by name. -/
structure StoreSchema (τ : Type*) where
  messageHelper : τ
  storeMap : String → Option StoreConfig := fun _ => none

/-- `DataStore`: the schemas by name. -/
abbrev DataStore (τ : Type*) := String → Option (StoreSchema τ)

/-- The requests. -/
inductive Request (γ : Type*)
  | createSchema (config : Option γ) (configContent : Option String)
  | dropSchema (schemaName : String)
  | createStore (config : γ)
  | dropStore (schemaName storeName : String)
deriving DecidableEq

variable {γ τ : Type*} (h : Helpers γ τ)

/-! ## The data store -/

/-- `StoreSchema::addStore`. -/
def addStore (schema : StoreSchema τ) (c : StoreConfig) : SchemaCode × StoreSchema τ :=
  if (schema.storeMap c.name).isSome then (.storeExisted, schema)
  else if c.partitionType = .other then (.notSupport, schema)
  else (.success, { schema with storeMap := Function.update schema.storeMap c.name (some c) })

/-- A store of a schema in `DataStore::createDataStore`. -/
def createStoreOf (schema : StoreSchema τ) (c : StoreConfig) : SchemaCode × StoreSchema τ :=
  if !h.isMessageRegistered schema.messageHelper c.keyType then (.keyTypeNotRegistered, schema)
  else if !h.isMessageRegistered schema.messageHelper c.valueType then
    (.valueTypeNotRegistered, schema)
  else if h.setStoreConfig schema.messageHelper c ≠ .success then
    (h.setStoreConfig schema.messageHelper c, schema)
  else addStore schema c

/-- The stores of a schema, up to the first that fails. -/
def createStores (schema : StoreSchema τ) : List StoreConfig → SchemaCode × StoreSchema τ
  | [] => (.success, schema)
  | c :: cs =>
    let r := createStoreOf h schema c
    if r.1 = .success then createStores r.2 cs else r

/-- Registration of types, if there is something to register. -/
def register (f : τ → String → SchemaCode × τ) (source : Option String) (schema : StoreSchema τ) :
    SchemaCode × StoreSchema τ :=
  match source with
  | none => (.success, schema)
  | some s =>
    let r := f schema.messageHelper s
    (r.1, { schema with messageHelper := r.2 })

/-- A schema in `DataStore::createDataStore`, made if there is none. -/
def createSchemaOf (schema : Option (StoreSchema τ)) (c : SchemaConfig) :
    SchemaCode × StoreSchema τ :=
  let fromFile :=
    register h.registerFile c.protoFilename (schema.getD { messageHelper := h.newHelper })
  if fromFile.1 ≠ .success then fromFile
  else
    let fromContent := register h.registerContent c.protoContent fromFile.2
    if fromContent.1 ≠ .success then fromContent else createStores h fromContent.2 c.storeConfig

/-- `DataStore::createDataStore` for a parsed configuration. -/
def createSchemas (d : DataStore τ) : List SchemaConfig → SchemaCode × DataStore τ
  | [] => (.success, d)
  | c :: cs =>
    let r := createSchemaOf h (d c.schemaName) c
    let d := Function.update d c.schemaName (some r.2)
    if r.1 = .success then createSchemas d cs else (r.1, d)

/-- `DataStore::createDataStore`. -/
def createDataStore (config : Option (List SchemaConfig)) (d : DataStore τ) :
    SchemaCode × DataStore τ :=
  match config with
  | none => (.parseConfigError, d)
  | some schemas => createSchemas h d schemas

/-- `DataStore::dropSchema`. -/
def dropSchema (schemaName : String) (d : DataStore τ) : SchemaCode × DataStore τ :=
  match d schemaName with
  | none => (.schemaNotFound, d)
  | some _ => (.success, Function.update d schemaName none)

/-- `DataStore::dropStore`, with `StoreSchema::removeStore`. -/
def dropStore (schemaName storeName : String) (d : DataStore τ) : SchemaCode × DataStore τ :=
  match d schemaName with
  | none => (.schemaNotFound, d)
  | some schema =>
    match schema.storeMap storeName with
    | none => (.storeNotFound, d)
    | some _ => (.success, Function.update d schemaName
        (some { schema with storeMap := Function.update schema.storeMap storeName none }))

/-- `StoreSchemaActor::handleLocalCreateSchema`. -/
def handleLocalCreateSchema (config : Option γ) (configContent : Option String) (d : DataStore τ) :
    SchemaCode × DataStore τ :=
  let r := match config with
    | none => (.success, d)
    | some c => createDataStore h (h.parseStoreConfig c) d
  match configContent with
  | none => r
  | some content =>
    if r.1 = .success then createDataStore h (h.parseStoreConfigFromString content) r.2 else r

/-- What a member does with a request. -/
def handleLocal : Request γ → DataStore τ → SchemaCode × DataStore τ
  | .createSchema config configContent => handleLocalCreateSchema h config configContent
  | .dropSchema schemaName => dropSchema schemaName
  | .createStore config => createDataStore h (h.parseStoreConfig config)
  | .dropStore schemaName storeName => dropStore schemaName storeName

/-! ## The members -/

/-- The members and the messages to them. -/
structure Members (γ τ : Type*) where
  dataStore : ℕ → DataStore τ
  /-- The requests that the aggregators have sent to the members. -/
  inFlight : List (ℕ × Request γ) := []
  /-- The result codes that the aggregators have been sent. -/
  responses : List (ℕ × Request γ × SchemaCode) := []

/-- Steps: an aggregator sends a request to the store members of its member table, a member handles
one, and a member joins with the schemas of its configuration files. -/
inductive SchemaStep (γ : Type*)
  | multicast (r : Request γ) (members : List ℕ)
  | handleLocal (i : ℕ)
  | join (m : ℕ)

namespace Members

/-- One step. The `founders` are active store members all the time, so they are in every member
table. -/
def step (founders : List ℕ) (initial : DataStore τ) (s : Members γ τ) :
    SchemaStep γ → Option (Members γ τ)
  | .multicast r members =>
    if members.Nodup ∧ founders ⊆ members then
      some { s with inFlight := s.inFlight ++ members.map fun m => (m, r) }
    else none
  | .handleLocal i =>
    (s.inFlight[i]?).map fun e =>
      let r := Schema.handleLocal h e.2 (s.dataStore e.1)
      { dataStore := Function.update s.dataStore e.1 r.2
        inFlight := s.inFlight.eraseIdx i
        responses := s.responses ++ [(e.1, e.2, r.1)] }
  | .join m =>
    if m ∈ founders then none
    else some { s with dataStore := Function.update s.dataStore m initial }

/-- When no message is in flight the members have the same schemas and stores. -/
def Converged (members : List ℕ) (s : Members γ τ) : Prop :=
  s.inFlight = [] → ∀ m ∈ members, ∀ m' ∈ members, s.dataStore m = s.dataStore m'

/-- The effects of the requests do not depend on their order. -/
def Commute (r r' : Request γ) : Prop :=
  ∀ d : DataStore τ, (Schema.handleLocal h r' (Schema.handleLocal h r d).2).2 =
    (Schema.handleLocal h r (Schema.handleLocal h r' d).2).2

/-- A request is sent on while only such requests are in flight that it commutes with. -/
def Commuting (s : Members γ τ) : SchemaStep γ → Prop
  | .multicast r _ => ∀ e ∈ s.inFlight, Commute h e.2 r
  | _ => True

variable {h}

/-! ## The invariant -/

/-- The data store after some requests. -/
def afterAll (h : Helpers γ τ) (d : DataStore τ) (rs : List (Request γ)) : DataStore τ :=
  rs.foldl (fun d r => (Schema.handleLocal h r d).2) d

/-- The requests in flight to a member. -/
def requestsTo (inFlight : List (ℕ × Request γ)) (m : ℕ) : List (Request γ) :=
  inFlight.filterMap fun e => if e.1 = m then some e.2 else none

/-- What is in flight to a member can be applied in any order. -/
def AnyOrder (h : Helpers γ τ) (inFlight : List (ℕ × Request γ)) : Prop :=
  inFlight.Pairwise fun e e' => e.1 = e'.1 → Commute h e.2 e'.2

/-- When they have handled what is in flight, the founders will have the same schemas and stores. -/
structure Inv (h : Helpers γ τ) (founders : List ℕ) (s : Members γ τ) : Prop where
  anyOrder : AnyOrder h s.inFlight
  agreed : ∃ d, ∀ m ∈ founders, afterAll h (s.dataStore m) (requestsTo s.inFlight m) = d

theorem Inv.converged {founders : List ℕ} {s : Members γ τ} (hinv : Inv h founders s) :
    Converged founders s := by
  intro hnone m hm m' hm'
  obtain ⟨d, hd⟩ := hinv.agreed
  have hdata : ∀ m ∈ founders, s.dataStore m = d := by
    intro m hm
    have hafter := hd m hm
    rwa [hnone] at hafter
  rw [hdata m hm, hdata m' hm']

theorem requestsTo_append (l l' : List (ℕ × Request γ)) (m : ℕ) :
    requestsTo (l ++ l') m = requestsTo l m ++ requestsTo l' m := filterMap_append

theorem requestsTo_of_ne {e : ℕ × Request γ} {m : ℕ} (hne : e.1 ≠ m) : requestsTo [e] m = [] := by
  simp [requestsTo, hne]

theorem mem_requestsTo {l : List (ℕ × Request γ)} {m : ℕ} {r : Request γ}
    (hr : r ∈ requestsTo l m) : (m, r) ∈ l := by
  obtain ⟨e, he, heq⟩ := mem_filterMap.mp hr
  split at heq
  · rename_i hm
    cases heq
    rw [← hm]
    exact he
  · cases heq

/-- A member in the table gets the request once. -/
theorem requestsTo_multicast {members : List ℕ} (hmembers : members.Nodup) {m : ℕ}
    (hm : m ∈ members) (r : Request γ) : requestsTo (members.map fun m => (m, r)) m = [r] := by
  induction members with
  | nil => cases hm
  | cons a members ih =>
    obtain ⟨ha, hrest⟩ := nodup_cons.mp hmembers
    have hsplit : requestsTo ((a :: members).map fun m => (m, r)) m =
        requestsTo [(a, r)] m ++ requestsTo (members.map fun m => (m, r)) m :=
        requestsTo_append [(a, r)] _ m
    rw [hsplit]
    by_cases ham : a = m
    · subst ham
      have hnone : requestsTo (members.map fun m => (m, r)) a = [] := by
        refine eq_nil_iff_forall_not_mem.mpr fun r' hr' => ?_
        obtain ⟨m, hm, heq⟩ := mem_map.mp (mem_requestsTo hr')
        exact ha ((Prod.mk.inj heq).1 ▸ hm)
      rw [hnone]
      simp [requestsTo]
    · rw [requestsTo_of_ne (e := (a, r)) ham, ih hrest (mem_of_ne_of_mem (Ne.symm ham) hm)]
      rfl

/-- A request may be applied before those that it commutes with. -/
theorem afterAll_middle {d : DataStore τ} {rs rs' : List (Request γ)} {r : Request γ}
    (hcommute : ∀ r' ∈ rs, Commute h r' r) :
    afterAll h d (rs ++ r :: rs') = afterAll h (Schema.handleLocal h r d).2 (rs ++ rs') := by
  induction rs generalizing d with
  | nil => rfl
  | cons r' rs ih =>
    have hrest := ih (d := (Schema.handleLocal h r' d).2) fun r'' hr'' =>
        hcommute r'' (mem_cons_of_mem _ hr'')
    show afterAll h (Schema.handleLocal h r' d).2 (rs ++ r :: rs') =
      afterAll h (Schema.handleLocal h r' (Schema.handleLocal h r d).2).2 (rs ++ rs')
    rw [hrest, hcommute r' mem_cons_self d]

/-! ## Every step keeps it -/

theorem Inv.multicast {founders members : List ℕ} {s : Members γ τ} {r : Request γ}
    (hinv : Inv h founders s) (hmembers : members.Nodup) (hfounders : founders ⊆ members)
    (hcommute : ∀ e ∈ s.inFlight, Commute h e.2 r) :
    Inv h founders { s with inFlight := s.inFlight ++ members.map fun m => (m, r) } where
  anyOrder := by
    refine pairwise_append.mpr ⟨hinv.anyOrder, ?_, fun e he e' he' _ => ?_⟩
    · exact pairwise_map.mpr (hmembers.imp fun hne heq => absurd heq hne)
    · obtain ⟨m, -, rfl⟩ := mem_map.mp he'
      exact hcommute e he
  agreed := by
    obtain ⟨d, hd⟩ := hinv.agreed
    refine ⟨(Schema.handleLocal h r d).2, fun m hm => ?_⟩
    show afterAll h (s.dataStore m) (requestsTo (s.inFlight ++ members.map fun m => (m, r)) m) = _
    rw [requestsTo_append, requestsTo_multicast hmembers (hfounders hm), ← hd m hm]
    exact foldl_append

theorem Inv.handleLocal {founders : List ℕ} {s : Members γ τ} {i m : ℕ} {r : Request γ}
    (hinv : Inv h founders s)
    (hmsg : s.inFlight[i]? = some (m, r)) (responses : List (ℕ × Request γ × SchemaCode)) :
    Inv h founders
      { dataStore := update s.dataStore m (Schema.handleLocal h r (s.dataStore m)).2
        inFlight := s.inFlight.eraseIdx i
        responses := responses } where
  anyOrder := List.Pairwise.sublist (eraseIdx_sublist ..) hinv.anyOrder
  agreed := by
    obtain ⟨d, hd⟩ := hinv.agreed
    refine ⟨d, fun m' hm' => ?_⟩
    obtain ⟨hi, hget⟩ := List.getElem?_eq_some_iff.mp hmsg
    have hsplit : s.inFlight = s.inFlight.take i ++ (m, r) :: s.inFlight.drop (i + 1) := by
      rw [← hget, ← drop_eq_getElem_cons hi, take_append_drop]
    have herase : s.inFlight.eraseIdx i = s.inFlight.take i ++ s.inFlight.drop (i + 1) :=
      eraseIdx_eq_take_drop_succ ..
    have hold := hd m' hm'
    rw [hsplit, requestsTo_append, ← singleton_append, requestsTo_append] at hold
    show afterAll h (update s.dataStore m _ m') (requestsTo (s.inFlight.eraseIdx i) m') = d
    rw [herase, requestsTo_append]
    by_cases hm : m' = m
    · subst hm
      have hself : requestsTo [(m', r)] m' = [r] := by simp [requestsTo]
      rw [hself, singleton_append, afterAll_middle] at hold
      · rw [update_self]
        exact hold
      · intro r' hr'
        have hpair := hinv.anyOrder
        rw [hsplit] at hpair
        exact (pairwise_append.mp hpair).2.2 _ (mem_requestsTo hr') _ mem_cons_self rfl
    · rw [requestsTo_of_ne (e := (m, r)) (Ne.symm hm), nil_append] at hold
      rw [update_of_ne hm]
      exact hold

theorem Inv.step {founders : List ℕ} {initial : DataStore τ} {s s' : Members γ τ} {a : SchemaStep γ}
    (hinv : Inv h founders s) (hcommute : Commuting h s a)
    (hstep : step h founders initial s a = some s') :
    Inv h founders s' := by
  cases a with
  | multicast r members =>
    obtain ⟨⟨hmembers, hfounders⟩, hs'⟩ := Option.ite_none_right_eq_some.mp hstep
    cases hs'
    exact hinv.multicast hmembers hfounders hcommute
  | handleLocal i =>
    obtain ⟨⟨m, r⟩, hmsg, rfl⟩ := Option.map_eq_some_iff.mp hstep
    exact hinv.handleLocal hmsg _
  | join m =>
    obtain ⟨hm, hs'⟩ := Option.ite_none_left_eq_some.mp hstep
    cases hs'
    obtain ⟨d, hd⟩ := hinv.agreed
    refine ⟨hinv.anyOrder, d, fun m' hm' => ?_⟩
    have hne : m' ≠ m := by
      rintro rfl
      exact hm hm'
    show afterAll h (update s.dataStore m initial m') (requestsTo s.inFlight m') = d
    rw [update_of_ne hne]
    exact hd m' hm'

/-- An operation reads and writes the schemas with these names only. -/
structure OnSchemas (names : List String) (f : DataStore τ → SchemaCode × DataStore τ) : Prop where
  outside : ∀ d, ∀ n ∉ names, (f d).2 n = d n
  inside : ∀ d d', (∀ n ∈ names, d n = d' n) →
    (f d).1 = (f d').1 ∧ ∀ n ∈ names, (f d).2 n = (f d').2 n

/-- The schemas that a request names. -/
def schemaNames (h : Helpers γ τ) : Request γ → List String
  | .createSchema config configContent =>
    ((config.bind h.parseStoreConfig).getD []).map SchemaConfig.schemaName ++
      ((configContent.bind h.parseStoreConfigFromString).getD []).map SchemaConfig.schemaName
  | .dropSchema schemaName => [schemaName]
  | .createStore config => ((h.parseStoreConfig config).getD []).map SchemaConfig.schemaName
  | .dropStore schemaName _ => [schemaName]

theorem OnSchemas.mono {names names' : List String} {f : DataStore τ → SchemaCode × DataStore τ}
    (hf : OnSchemas names f) (hsub : names ⊆ names') : OnSchemas names' f where
  outside := fun d n hn => hf.outside d n fun hmem => hn (hsub hmem)
  inside := fun d d' hagree => by
    obtain ⟨hcode, hnames⟩ := hf.inside d d' fun n hn => hagree n (hsub hn)
    refine ⟨hcode, fun n hn => ?_⟩
    by_cases hmem : n ∈ names
    · exact hnames n hmem
    · rw [hf.outside d n hmem, hf.outside d' n hmem]
      exact hagree n hn

/-- The second operation is made if the first succeeds. -/
theorem OnSchemas.andThen {names : List String} {f f' : DataStore τ → SchemaCode × DataStore τ}
    (hf : OnSchemas names f) (hf' : OnSchemas names f') :
    OnSchemas names fun d => if (f d).1 = .success then f' (f d).2 else f d where
  outside := by
    intro d n hn
    by_cases hcode : (f d).1 = .success
    · simp only [if_pos hcode]
      rw [hf'.outside _ n hn, hf.outside d n hn]
    · simp only [if_neg hcode]
      exact hf.outside d n hn
  inside := by
    intro d d' hagree
    obtain ⟨hsame, hnames⟩ := hf.inside d d' hagree
    by_cases hcode : (f d).1 = .success
    · simp only [if_pos hcode, if_pos (hsame ▸ hcode)]
      exact hf'.inside _ _ hnames
    · simp only [if_neg hcode, if_neg (hsame ▸ hcode)]
      exact ⟨hsame, hnames⟩

theorem onSchemas_unchanged (names : List String) (code : SchemaCode) :
    OnSchemas names fun d : DataStore τ => (code, d) where
  outside := fun _ _ _ => rfl
  inside := fun _ _ hagree => ⟨rfl, hagree⟩

theorem OnSchemas.of_one {name : String} {f : DataStore τ → SchemaCode × DataStore τ}
    (houtside : ∀ d, ∀ n ≠ name, (f d).2 n = d n)
    (hinside : ∀ d d', d name = d' name → (f d).1 = (f d').1 ∧ (f d).2 name = (f d').2 name) :
    OnSchemas [name] f where
  outside := fun d n hn => houtside d n fun heq => hn (mem_singleton.mpr heq)
  inside := fun d d' hagree => by
    obtain ⟨hcode, hname⟩ := hinside d d' (hagree name mem_cons_self)
    refine ⟨hcode, fun n hn => ?_⟩
    rw [mem_singleton.mp hn]
    exact hname

theorem onSchemas_createSchemas (cs : List SchemaConfig) :
    OnSchemas (cs.map SchemaConfig.schemaName) fun d => createSchemas h d cs := by
  induction cs with
  | nil => exact onSchemas_unchanged _ _
  | cons c cs ih =>
    have hfirst : OnSchemas [c.schemaName] fun d : DataStore τ =>
        ((createSchemaOf h (d c.schemaName) c).1,
          update d c.schemaName (some (createSchemaOf h (d c.schemaName) c).2)) := by
      refine OnSchemas.of_one (fun d n hn => update_of_ne hn _ _) fun d d' hname =>
        ⟨?_, ?_⟩
      · rw [hname]
      · show update d c.schemaName _ c.schemaName =
          update d' c.schemaName _ c.schemaName
        rw [update_self, update_self, hname]
    exact (hfirst.mono (cons_subset_cons _ (nil_subset _))).andThen
      (ih.mono (subset_cons_self ..))

theorem onSchemas_createDataStore (config : Option (List SchemaConfig)) :
    OnSchemas ((config.getD []).map SchemaConfig.schemaName) (createDataStore h config) := by
  cases config with
  | none => exact onSchemas_unchanged _ _
  | some cs => exact onSchemas_createSchemas cs

theorem update_same (d d' : DataStore τ) (name : String) (schema : Option (StoreSchema τ)) :
    update d name schema name = update d' name schema name := by
  rw [update_self, update_self]

theorem onSchemas_dropSchema (name : String) : OnSchemas [name] (dropSchema (τ := τ) name) := by
  refine OnSchemas.of_one (fun d n hn => ?_) fun d d' hname => ?_
  · unfold dropSchema
    split
    · rfl
    · exact update_of_ne hn _ _
  · unfold dropSchema
    rw [← hname]
    split
    · exact ⟨rfl, hname⟩
    · exact ⟨rfl, update_same d d' name _⟩

theorem onSchemas_dropStore (name storeName : String) :
    OnSchemas [name] (dropStore (τ := τ) name storeName) := by
  refine OnSchemas.of_one (fun d n hn => ?_) fun d d' hname => ?_
  · unfold dropStore
    split
    · rfl
    · split
      · rfl
      · exact update_of_ne hn _ _
  · unfold dropStore
    rw [← hname]
    split
    · exact ⟨rfl, hname⟩
    · split
      · exact ⟨rfl, hname⟩
      · exact ⟨rfl, update_same d d' name _⟩

/-- A request reads and writes the schemas that it names only. -/
theorem onSchemas_handleLocal (r : Request γ) :
    OnSchemas (schemaNames h r) (Schema.handleLocal h r) := by
  cases r with
  | createSchema config configContent =>
    have hconfig :
        OnSchemas (((config.bind h.parseStoreConfig).getD []).map SchemaConfig.schemaName)
        fun d => handleLocalCreateSchema h config none d := by
      cases config with
      | none => exact onSchemas_unchanged _ _
      | some c => exact onSchemas_createDataStore (h.parseStoreConfig c)
    cases configContent with
    | none => exact hconfig.mono (subset_append_left ..)
    | some content =>
      exact (hconfig.mono (subset_append_left ..)).andThen
        ((onSchemas_createDataStore (h.parseStoreConfigFromString content)).mono
          (subset_append_right ..))
  | dropSchema name => exact onSchemas_dropSchema name
  | createStore config => exact onSchemas_createDataStore (h.parseStoreConfig config)
  | dropStore name storeName => exact onSchemas_dropStore name storeName

/-- Requests on different schemas commute. -/
theorem commute_of_disjoint {r r' : Request γ}
    (hdisjoint : (schemaNames h r).Disjoint (schemaNames h r')) :
    Commute h r r' := by
  intro d
  have hr := onSchemas_handleLocal (h := h) r
  have hr' := onSchemas_handleLocal (h := h) r'
  funext n
  by_cases hn : n ∈ schemaNames h r
  · -- the other request changes none of the schemas of `r`
    have hagree : ∀ m ∈ schemaNames h r, (Schema.handleLocal h r' d).2 m = d m :=
      fun m hm => hr'.outside d m (hdisjoint hm)
    rw [hr'.outside _ n (hdisjoint hn), (hr.inside _ _ hagree).2 n hn]
  · rw [hr.outside _ n hn]
    by_cases hn' : n ∈ schemaNames h r'
    · have hagree : ∀ m ∈ schemaNames h r', (Schema.handleLocal h r d).2 m = d m :=
        fun m hm => hr.outside d m fun hmem => hdisjoint hmem hm
      exact (hr'.inside _ _ hagree).2 n hn'
    · rw [hr'.outside _ n hn', hr'.outside _ n hn', hr.outside _ n hn]

/-! ## Two requests on one schema -/

/-- Every configuration is a list of schemas, and all types are registered. -/
def plainHelpers : Helpers (List SchemaConfig) Unit where
  parseStoreConfig := some
  parseStoreConfigFromString := fun _ => none
  newHelper := ()
  registerFile := fun t _ => (.success, t)
  registerContent := fun t _ => (.success, t)
  isMessageRegistered := fun _ _ => true
  setStoreConfig := fun _ _ => .success

/-- The members have a schema from their configuration files. -/
def salesSchema : DataStore Unit :=
  Function.update (fun _ => none) "sales" (some { messageHelper := () })

/-- A request is sent on while only requests on other schemas are in flight. -/
def OnOtherSchemas (s : Members (List SchemaConfig) Unit) : SchemaStep (List SchemaConfig) → Prop
  | .multicast r _ =>
    ∀ e ∈ s.inFlight, ∀ n ∈ schemaNames plainHelpers e.2, n ∉ schemaNames plainHelpers r
  | _ => True

instance (s : Members (List SchemaConfig) Unit) (a : SchemaStep (List SchemaConfig)) :
    Decidable (OnOtherSchemas s a) := by
  unfold OnOtherSchemas
  split <;> infer_instance

theorem commuting_of_onOtherSchemas (s : Members (List SchemaConfig) Unit)
    (a : SchemaStep (List SchemaConfig))
    (hother : OnOtherSchemas s a) : Commuting plainHelpers s a := by
  cases a with
  | multicast r members =>
    exact fun e he => commute_of_disjoint fun n hn hn' => hother e he n hn hn'
  | handleLocal i => trivial
  | join m => trivial

/-- Member 0 creates the schema again and drops it then; member 1 does it the other way round. -/
def createAndDrop : List (SchemaStep (List SchemaConfig)) :=
  [.multicast (.createSchema (some [{ schemaName := "sales" }]) none) [0, 1],
    .multicast (.dropSchema "sales") [0, 1],
    .handleLocal 0, .handleLocal 2, .handleLocal 0, .handleLocal 0]

/-- Member 1 joins when member 0 has dropped the schema. -/
def joinAfterDrop : List (SchemaStep (List SchemaConfig)) :=
  [.multicast (.dropSchema "sales") [0], .handleLocal 0, .join 1]

/-- A request to create a store. -/
def createOrders : Request (List SchemaConfig) :=
  .createStore
    [{ schemaName := "sales"
       storeConfig := [{ name := "orders", keyType := "K", valueType := "V" }] }]

/-- Two overlapping requests on different schemas, and a member that joins. -/
def overlapping : List (SchemaStep (List SchemaConfig)) :=
  [.multicast createOrders [0, 1],
    .multicast (.createSchema (some [{ schemaName := "stock" }]) none) [0, 1],
    .handleLocal 0, .handleLocal 2, .join 2, .handleLocal 0, .handleLocal 0,
    .multicast (.dropSchema "stock") [0, 1, 2], .handleLocal 1, .handleLocal 0, .handleLocal 0]

end Members

end Idgs.Store.Schema
