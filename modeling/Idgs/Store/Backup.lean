import Idgs.Cluster.Table
import Idgs.Common.Lists
import Idgs.Common.Run
import Idgs.Common.TotalOrder
import Idgs.Store.StoreMap

/-!
# Backups of a partitioned store

A write is applied at the primary member of its partition and then handed to the listener manager,
where the `BackupStoreListener` of the store routes it to the other members of the partition; their
listener managers apply it again. The listener manager looks the store up by its name alone,
whatever the schema, and the listeners of the store that it finds are the ones that run.
-/

namespace Idgs.Store

open Function List

open Cluster (Partition)

namespace Backup

variable {α κ ν : Type*} [DecidableEq κ]

/-! ## Stores -/

/-- `StoreConfig`, as far as writes depend on it: how attachments are parsed and partitioned, the
kind of store, its replica count and whether it carries the `BackupStoreListener`. -/
structure StoreConfig (α κ ν : Type*) where
  schema : String
  name : String
  isPartitionTable : Bool
  replicaCount : ℤ
  hasBackupListener : Bool
  parseKey : α → Option κ
  parseValue : α → Option ν
  calculatePartition : κ → ℕ

/-- A store of the data store. -/
abbrev StoreId := String × String

/-- The store that the configuration is of. -/
def StoreConfig.id (c : StoreConfig α κ ν) : StoreId := (c.schema, c.name)

/-- The store is kept on other members too. -/
def StoreConfig.isMirrored (c : StoreConfig α κ ν) : Bool :=
  c.isPartitionTable && decide (2 ≤ c.replicaCount) && c.hasBackupListener

/-- `DataStore::getStore(storeName)`: the first one, in the order of the schemas. -/
def getStore (stores : List (StoreConfig α κ ν)) (storeName : String) :
    Option (StoreConfig α κ ν) :=
  stores.find? fun c => c.name == storeName

/-- `DataStore::getStore(schemaName, storeName)`. -/
def getSchemaStore (stores : List (StoreConfig α κ ν)) (schemaName storeName : String) :
    Option (StoreConfig α κ ν) :=
  stores.find? fun c => c.schema == schemaName && c.name == storeName

/-! ## Requests -/

/-- A client's write, with the serialised key and value as attachments. -/
structure Message (α : Type*) where
  opName : OpName
  schemaName : Option String
  storeName : String
  key : α
  value : Option α
  partitionId : Option ℕ
  retrievePrevious : Bool := false

/-- A message for the listeners: the request with its partition, the primary member from its
`StoreListenerInfo`, and its place in the order of the writes. -/
structure ListenerMessage (α : Type*) where
  message : Message α
  partitionId : ℕ
  primaryMemberId : ℤ
  stamp : ℕ

/-- A write to a store. -/
structure Write (κ ν : Type*) where
  store : StoreId
  partitionId : ℕ
  request : Request κ ν
  stamp : ℕ

/-- The key and value of the request, parsed as the store's. -/
def StoreConfig.parse (c : StoreConfig α κ ν) (m : Message α) : Option (Request κ ν) :=
  match c.parseKey m.key with
  | none => none
  | some key =>
    match m.opName with
    | .internalDelete => some (.delete key)
    | .internalInsert => (m.value.bind c.parseValue).map (.insert key)
    | .internalUpdate => (m.value.bind c.parseValue).map (.update key)

/-- The store that `StoreServiceActor` writes to. -/
def Message.store (m : Message α) (stores : List (StoreConfig α κ ν)) :
    Option (StoreConfig α κ ν) :=
  match m.schemaName with
  | some schemaName => getSchemaStore stores schemaName m.storeName
  | none => getStore stores m.storeName

/-- The members to which the primary member's listener routes a write. -/
def backups (replicaCount : ℤ) (p : Partition) (primaryMemberId : ℤ) : List ℤ :=
  ((List.range (min replicaCount p.getReplicaCount).toNat).map p.getMemberId).filter fun memberId =>
    memberId ≠ -1 ∧ memberId ≠ primaryMemberId

/-! ## Steps -/

/-- The content of each member's stores, by partition, and the messages: on a connection, and
received by a listener manager. `written` are the writes of the primary members and `processed`
those that a listener has applied, in these orders. -/
structure State (α κ ν : Type*) where
  contents : ℤ → StoreId → ℕ → StoreMap κ ν
  links : List ((ℤ × ℤ) × ListenerMessage α) := []
  received : List (ℤ × ListenerMessage α) := []
  written : List (Write κ ν) := []
  processed : List (ℤ × Write κ ν) := []

/-- Steps: the primary member handles a write, the oldest message of a connection is received, the
`i`th message received is processed by the listener manager. -/
inductive Step (α : Type*)
  | write (m : Message α)
  | receive (link : ℤ × ℤ)
  | process (i : ℕ)

/-- Apply a write at a member. -/
def State.put (s : State α κ ν) (memberId : ℤ) (w : Write κ ν) : State α κ ν :=
  { s with
    contents := Function.update s.contents memberId (Function.update (s.contents memberId) w.store
      (Function.update (s.contents memberId w.store) w.partitionId
        (w.request.apply (s.contents memberId w.store w.partitionId)))) }

/-- `handleInsertStore`, `handleUpdateStore` and `handleDeleteStore` for a partitioned store, at the
primary member. A delete without effect is answered with an error, and no listener sees it. -/
def handleStore (stores : List (StoreConfig α κ ν)) (table : List Partition) (m : Message α)
    (s : State α κ ν) : State α κ ν :=
  match m.store stores with
  | none => s
  | some c =>
    match c.parse m with
    | none => s
    | some r =>
      let partitionId := m.partitionId.getD (c.calculatePartition r.key)
      match table[partitionId]? with
      | none => s
      | some p =>
        let primary := p.getPrimaryMemberId
        let w : Write κ ν := ⟨c.id, partitionId, r, s.written.length⟩
        if 0 ≤ primary ∧ c.isPartitionTable = true ∧
            r.resultCode (s.contents primary c.id partitionId) = .success then
          { s.put primary w with
            written := s.written ++ [w]
            received := s.received ++ [(primary, ⟨m, partitionId, primary, w.stamp⟩)] }
        else s

/-- `BackupStoreListener::insert`, `update` and `remove`. With `RETRIEVE_PREVIOUS`, an update and a
delete at a backup read the last value through a null pointer, which ends the process. -/
def backupStoreListener (c : StoreConfig α κ ν) (r : Request κ ν) (table : List Partition)
    (memberId : ℤ) (m : ListenerMessage α) (s : State α κ ν) : State α κ ν :=
  if c.isPartitionTable = false ∨ c.replicaCount ≤ 1 then s
  else if memberId = m.primaryMemberId then
    { s with
      links := s.links ++ (backups c.replicaCount (table.getD m.partitionId []) memberId).map
        fun b => ((memberId, b), m) }
  else
    let w : Write κ ν := ⟨c.id, m.partitionId, r, m.stamp⟩
    let s := { s.put memberId w with processed := s.processed ++ [(memberId, w)] }
    if m.message.retrievePrevious = true ∧ m.message.opName ≠ .internalInsert then
      { s with contents := Function.update s.contents memberId fun _ _ => ∅ }
    else s

/-- `ListenerManager::handleListener` at a member. -/
def handleListener (stores : List (StoreConfig α κ ν)) (table : List Partition) (memberId : ℤ)
    (m : ListenerMessage α) (s : State α κ ν) : State α κ ν :=
  match getStore stores m.message.storeName with
  | none => s
  | some c =>
    match c.parse m.message with
    | none => s
    | some r =>
      if c.hasBackupListener then backupStoreListener c r table memberId m s else s

/-- One step. -/
def step (stores : List (StoreConfig α κ ν)) (table : List Partition) (s : State α κ ν) :
    Step α → Option (State α κ ν)
  | .write m => some (handleStore stores table m s)
  | .receive link =>
    match Common.takeFirst link s.links with
    | none => none
    | some (m, links) => some { s with links := links, received := s.received ++ [(link.2, m)] }
  | .process i =>
    match s.received[i]? with
    | none => none
    | some x =>
      some (handleListener stores table x.1 x.2 { s with received := s.received.eraseIdx i })

/-- When all listener messages have been processed, the backups of a store that is mirrored have
what the primary member has. -/
def Mirrored (stores : List (StoreConfig α κ ν)) (table : List Partition) (s : State α κ ν) :
    Prop :=
  s.links = [] → s.received = [] →
    ∀ schemaName storeName, ∀ c ∈ getSchemaStore stores schemaName storeName,
    c.isMirrored = true → ∀ partitionId, ∀ p ∈ table[partitionId]?,
      ∀ b ∈ backups c.replicaCount p p.getPrimaryMemberId,
        (s.contents b c.id partitionId).contents =
          (s.contents p.getPrimaryMemberId c.id partitionId).contents

/-- The same key of the same partition of a store. -/
def Write.sameKey (w w' : Write κ ν) : Prop :=
  w.store = w'.store ∧ w.partitionId = w'.partitionId ∧ w.request.key = w'.request.key

instance (w w' : Write κ ν) : Decidable (w.sameKey w') := inferInstanceAs (Decidable (_ ∧ _ ∧ _))

/-- The write that a listener message makes, as parsed for the store that its name is resolved
to. -/
def ListenerMessage.write (stores : List (StoreConfig α κ ν)) (m : ListenerMessage α) :
    Option (Write κ ν) :=
  match getStore stores m.message.storeName with
  | none => none
  | some c => (c.parse m.message).map fun r => ⟨c.id, m.partitionId, r, m.stamp⟩

/-- The name of a mirrored store finds that store, whatever the schema; a backup is not asked for
the previous value by an update or a delete; and it does not process a write to a key after a later
one. -/
def Faithful (stores : List (StoreConfig α κ ν)) (s : State α κ ν) : Step α → Prop
  | .write m => ∀ c ∈ m.store stores, ∀ c' ∈ getStore stores m.storeName,
      c.isMirrored = true ∨ c'.isMirrored = true → c.id = c'.id
  | .receive _ => True
  | .process i => ∀ x ∈ s.received[i]?, x.1 ≠ x.2.primaryMemberId →
      (x.2.message.opName ≠ .internalInsert → x.2.message.retrievePrevious = false) ∧
      ∀ w ∈ x.2.write stores, ∀ y ∈ s.processed, y.1 = x.1 → y.2.sameKey w → y.2.stamp ≤ w.stamp

instance (stores : List (StoreConfig α κ ν)) (s : State α κ ν) (a : Step α) :
    Decidable (Faithful stores s a) := by
  unfold Faithful
  split <;> infer_instance

/-! ## Which store a name finds -/

section Lookup

variable {stores : List (StoreConfig α κ ν)} {c c' : StoreConfig α κ ν}

/-- A store that its schema and name find. -/
def Known (stores : List (StoreConfig α κ ν)) (c : StoreConfig α κ ν) : Prop :=
  getSchemaStore stores c.schema c.name = some c

omit [DecidableEq κ] in
theorem known_of_getSchemaStore {schemaName storeName : String}
    (h : getSchemaStore stores schemaName storeName = some c) : Known stores c := by
  have hfound := find?_some h
  simp only [Bool.and_eq_true, beq_iff_eq] at hfound
  rw [Known, hfound.1, hfound.2]
  exact h

omit [DecidableEq κ] in
theorem known_of_getStore {storeName : String} (h : getStore stores storeName = some c) :
    Known stores c := by
  unfold getStore at h
  have hfound : c.name = storeName := by simpa using find?_some h
  unfold Known getSchemaStore
  obtain ⟨-, before, after, rfl, hbefore⟩ := find?_eq_some_iff_append.mp h
  refine find?_eq_some_iff_append.mpr ⟨by simp, before, after, rfl, fun x hx => ?_⟩
  have hname : (x.name == storeName) = false := by simpa using hbefore x hx
  rw [hfound, hname, Bool.and_false]
  rfl

omit [DecidableEq κ] in
theorem known_store {m : Message α} (h : m.store stores = some c) : Known stores c := by
  unfold Message.store at h
  split at h
  · exact known_of_getSchemaStore h
  · exact known_of_getStore h

omit [DecidableEq κ] in
/-- Schema and name determine the store. -/
theorem Known.eq_of_id (h : Known stores c) (h' : Known stores c') (hid : c.id = c'.id) :
    c = c' := by
  obtain ⟨hschema, hname⟩ := Prod.ext_iff.mp hid
  have hschema' : c.schema = c'.schema := hschema
  have hname' : c.name = c'.name := hname
  rw [Known, hschema', hname', h'] at h
  exact (Option.some.inj h).symm

end Lookup

/-! ## The invariant -/

/-- A listener message, with the store that the primary member wrote to and the write that it
made. -/
structure Sent (stores : List (StoreConfig α κ ν)) (table : List Partition)
    (written : List (Write κ ν))
    (m : ListenerMessage α) (c : StoreConfig α κ ν) (w : Write κ ν) : Prop where
  store : m.message.store stores = some c
  parse : c.parse m.message = some w.request
  write : w = ⟨c.id, m.partitionId, w.request, m.stamp⟩
  mem : w ∈ written
  primary : ∃ p, table[m.partitionId]? = some p ∧ m.primaryMemberId = p.getPrimaryMemberId
  faithful : ∀ c' ∈ getStore stores m.message.storeName,
    c.isMirrored = true ∨ c'.isMirrored = true → c.id = c'.id

/-- The writes to a partition of a store. -/
def writes (l : List (Write κ ν)) (store : StoreId) (partitionId : ℕ) : List (κ × Option ν) :=
  (l.filter fun w => w.store = store ∧ w.partitionId = partitionId).map fun w => w.request.write

/-- The writes that the member's listeners have processed. -/
def processedAt (s : State α κ ν) (memberId : ℤ) : List (Write κ ν) :=
  (s.processed.filter fun y => y.1 = memberId).map Prod.snd

/-- Primary members have what was written, the others what they have processed; every write to a
mirrored store is at, or on its way to, each backup. -/
structure Inv (stores : List (StoreConfig α κ ν)) (table : List Partition)
    (initial : StoreId → ℕ → StoreMap κ ν) (s : State α κ ν) : Prop where
  primary : ∀ store partitionId, ∀ p ∈ table[partitionId]?,
    (s.contents p.getPrimaryMemberId store partitionId).contents =
      Common.writeAll (initial store partitionId).contents (writes s.written store partitionId)
  backup : ∀ b store partitionId, ∀ p ∈ table[partitionId]?, b ≠ p.getPrimaryMemberId →
    (s.contents b store partitionId).contents =
      Common.writeAll (initial store partitionId).contents
      (writes (processedAt s b) store partitionId)
  links : ∀ x ∈ s.links, ∃ c w, Sent stores table s.written x.2 c w
  received : ∀ x ∈ s.received, ∃ c w, Sent stores table s.written x.2 c w
  processed : ∀ y ∈ s.processed, y.2 ∈ s.written
  stamps : s.written.Pairwise fun w w' => w.stamp < w'.stamp
  bound : ∀ w ∈ s.written, w.stamp < s.written.length
  order : s.processed.Pairwise fun y y' => y.1 = y'.1 → y.2.sameKey y'.2 → y.2.stamp ≤ y'.2.stamp
  delivery : ∀ c w, Known stores c → c.isMirrored = true → w ∈ s.written → w.store = c.id →
    ∀ p ∈ table[w.partitionId]?, ∀ b ∈ backups c.replicaCount p p.getPrimaryMemberId,
      (b, w) ∈ s.processed ∨ ∃ m, Sent stores table s.written m c w ∧
        ((p.getPrimaryMemberId, m) ∈ s.received ∨ ((p.getPrimaryMemberId, b), m) ∈ s.links ∨
          (b, m) ∈ s.received)

theorem inv_init (stores : List (StoreConfig α κ ν)) (table : List Partition)
    (initial : StoreId → ℕ → StoreMap κ ν) :
    Inv stores table initial { contents := fun _ => initial } where
  primary := fun _ _ _ _ => rfl
  backup := fun _ _ _ _ _ _ => rfl
  links := fun _ hx => absurd hx not_mem_nil
  received := fun _ hx => absurd hx not_mem_nil
  processed := fun _ hy => absurd hy not_mem_nil
  stamps := .nil
  bound := fun _ hw => absurd hw not_mem_nil
  order := .nil
  delivery := fun _ _ _ _ hw => absurd hw not_mem_nil

section Put

variable {stores : List (StoreConfig α κ ν)} {table : List Partition} {s : State α κ ν}

omit [DecidableEq κ] in
theorem writes_concat (l : List (Write κ ν)) (w : Write κ ν) (store : StoreId) (partitionId : ℕ) :
    writes (l ++ [w]) store partitionId =
      if w.store = store ∧ w.partitionId = partitionId then
        writes l store partitionId ++ [w.request.write]
      else writes l store partitionId := by
  unfold writes
  rw [filter_append, map_append]
  split
  · rename_i h
    rw [filter_cons, if_pos (decide_eq_true h)]
    rfl
  · rename_i h
    rw [filter_cons, if_neg (by simpa using h)]
    simp

/-- A write at another member, or to another partition of a store, changes nothing. -/
theorem put_of_ne {memberId b : ℤ} {w : Write κ ν} {store : StoreId} {partitionId : ℕ}
    (h : ¬(b = memberId ∧ w.store = store ∧ w.partitionId = partitionId)) :
    (s.put memberId w).contents b store partitionId = s.contents b store partitionId := by
  unfold State.put
  dsimp only
  by_cases hb : b = memberId
  · subst hb
    rw [update_self]
    by_cases hstore : store = w.store
    · subst hstore
      rw [update_self, update_of_ne fun hp => h ⟨rfl, rfl, hp.symm⟩]
    · rw [update_of_ne hstore]
  · rw [update_of_ne hb]

/-- A write at the member continues what has been written there. -/
theorem contents_put {initial : StoreMap κ ν} {memberId : ℤ} {w : Write κ ν} {l : List (Write κ ν)}
    {store : StoreId} {partitionId : ℕ} (h : (s.contents memberId store partitionId).contents =
      Common.writeAll initial.contents (writes l store partitionId)) :
    ((s.put memberId w).contents memberId store partitionId).contents =
      Common.writeAll initial.contents (writes (l ++ [w]) store partitionId) := by
  rw [writes_concat]
  split
  · rename_i hw
    obtain ⟨rfl, rfl⟩ := hw
    rw [Common.writeAll_append, ← h]
    simp only [State.put, update_self, Request.contents_apply]
    rfl
  · rename_i hw
    rw [put_of_ne fun hne => hw hne.2]
    exact h

omit [DecidableEq κ] in
/-- The store that was written to is one that the name finds. -/
theorem exists_getStore {m : Message α} {c : StoreConfig α κ ν} (h : m.store stores = some c) :
    ∃ c', getStore stores m.storeName = some c' := by
  unfold Message.store at h
  split at h
  · obtain ⟨hfound, before, after, rfl, -⟩ := find?_eq_some_iff_append.mp h
    refine Option.isSome_iff_exists.mp (find?_isSome.mpr ⟨c, by simp, ?_⟩)
    exact (Bool.and_eq_true_iff.mp hfound).2
  · exact ⟨c, h⟩

omit [DecidableEq κ] in
theorem Sent.mono {written written' : List (Write κ ν)} {m : ListenerMessage α}
    {c : StoreConfig α κ ν}
    {w : Write κ ν} (h : Sent stores table written m c w) (hsub : ∀ w ∈ written, w ∈ written') :
    Sent stores table written' m c w :=
  ⟨h.store, h.parse, h.write, hsub w h.mem, h.primary, h.faithful⟩

section Sent

variable {written : List (Write κ ν)} {m : ListenerMessage α} {c : StoreConfig α κ ν}
    {w : Write κ ν}

omit [DecidableEq κ] in
/-- A mirrored store is the one that the listener manager finds. -/
theorem Sent.getStore_eq (h : Sent stores table written m c w) (hmirrored : c.isMirrored = true) :
    getStore stores m.message.storeName = some c := by
  obtain ⟨c', hc'⟩ := exists_getStore h.store
  rw [hc', (known_store h.store).eq_of_id (known_of_getStore hc')
    (h.faithful c' hc' (.inl hmirrored))]

omit [DecidableEq κ] in
/-- A mirrored store that the listener manager finds is the one that was written to. -/
theorem Sent.eq_of_getStore (h : Sent stores table written m c w) {c' : StoreConfig α κ ν}
    (hc' : getStore stores m.message.storeName = some c') (hmirrored : c'.isMirrored = true) :
    c = c' :=
  (known_store h.store).eq_of_id (known_of_getStore hc') (h.faithful c' hc' (.inr hmirrored))

omit [DecidableEq κ] in
/-- A message makes one write. -/
theorem Sent.unique (h : Sent stores table written m c w) {c' : StoreConfig α κ ν} {w' : Write κ ν}
    (h' : Sent stores table written m c' w') : c = c' ∧ w = w' := by
  obtain rfl : c = c' := Option.some.inj (h.store.symm.trans h'.store)
  have hrequest : w.request = w'.request := Option.some.inj (h.parse.symm.trans h'.parse)
  refine ⟨rfl, ?_⟩
  rw [h.write, h'.write, hrequest]

end Sent

end Put

section Steps

variable {stores : List (StoreConfig α κ ν)} {table : List Partition}
  {initial : StoreId → ℕ → StoreMap κ ν} {s : State α κ ν}

section

variable (h : Inv stores table initial s)

include h

/-- The primary member applies a write and hands it to its listener manager. -/
theorem Inv.written {m : Message α} {c : StoreConfig α κ ν}
    {r : Request κ ν} {partitionId : ℕ} {p : Partition} (hstore : m.store stores = some c)
    (hparse : c.parse m = some r) (hp : table[partitionId]? = some p)
    (hguard : Faithful stores s (.write m)) :
    Inv stores table initial
      { s.put p.getPrimaryMemberId ⟨c.id, partitionId, r, s.written.length⟩ with
        written := s.written ++ [⟨c.id, partitionId, r, s.written.length⟩]
        received := s.received ++ [(p.getPrimaryMemberId,
          ⟨m, partitionId, p.getPrimaryMemberId, s.written.length⟩)] } := by
  have hsub : ∀ w ∈ s.written, w ∈ s.written ++ [⟨c.id, partitionId, r, s.written.length⟩] :=
    fun w hw => mem_append_left _ hw
  have hsent : Sent stores table (s.written ++ [⟨c.id, partitionId, r, s.written.length⟩])
      ⟨m, partitionId, p.getPrimaryMemberId, s.written.length⟩ c
      ⟨c.id, partitionId, r, s.written.length⟩ :=
    ⟨hstore, hparse, rfl, mem_append_right _ mem_cons_self, ⟨p, hp, rfl⟩,
      fun c' hc' => hguard c hstore c' hc'⟩
  refine ⟨?_, ?_, ?_, ?_, ?_, ?_, ?_, h.order, ?_⟩
  · intro store partitionId' p' hp'
    by_cases hpart : partitionId' = partitionId
    · subst hpart
      rw [hp] at hp'
      obtain rfl := Option.some.inj hp'
      exact contents_put (h.primary store partitionId' p hp)
    · dsimp only
      rw [writes_concat, if_neg fun hw => hpart hw.2.symm, put_of_ne fun hw => hpart hw.2.2.symm]
      exact h.primary store partitionId' p' hp'
  · intro b store partitionId' p' hp' hb
    dsimp only
    rw [put_of_ne ?_]
    · exact h.backup b store partitionId' p' hp' hb
    · rintro ⟨rfl, -, rfl⟩
      rw [hp] at hp'
      exact hb (congrArg Partition.getPrimaryMemberId (Option.some.inj hp'))
  · intro x hx
    obtain ⟨c', w, hw⟩ := h.links x hx
    exact ⟨c', w, hw.mono hsub⟩
  · intro x hx
    rcases mem_append.mp hx with hx | hx
    · obtain ⟨c', w, hw⟩ := h.received x hx
      exact ⟨c', w, hw.mono hsub⟩
    · obtain rfl := mem_singleton.mp hx
      exact ⟨c, _, hsent⟩
  · exact fun y hy => hsub _ (h.processed y hy)
  · refine pairwise_append.mpr ⟨h.stamps, pairwise_singleton _ _, fun w hw w' hw' => ?_⟩
    obtain rfl := mem_singleton.mp hw'
    exact h.bound w hw
  · intro w hw
    rw [length_append, length_singleton]
    rcases mem_append.mp hw with hw | hw
    · exact Nat.lt_succ_of_lt (h.bound w hw)
    · obtain rfl := mem_singleton.mp hw
      exact Nat.lt_succ_self _
  · intro c' w hknown hmirrored hw hid p' hp' b hb
    rcases mem_append.mp hw with hw | hw
    · rcases h.delivery c' w hknown hmirrored hw hid p' hp' b hb with hdone | ⟨m', hm', hplace⟩
      · exact .inl hdone
      · refine .inr ⟨m', hm'.mono hsub, ?_⟩
        rcases hplace with hin | hin | hin
        · exact .inl (mem_append_left _ hin)
        · exact .inr (.inl hin)
        · exact .inr (.inr (mem_append_left _ hin))
    · obtain rfl := mem_singleton.mp hw
      obtain rfl : c' = c := hknown.eq_of_id (known_store hstore) hid.symm
      dsimp only at hp'
      rw [hp] at hp'
      obtain rfl := Option.some.inj hp'
      exact .inr ⟨_, hsent, .inl (mem_append_right _ mem_cons_self)⟩

/-- A client's write, whatever its result. -/
theorem Inv.write {m : Message α} (hguard : Faithful stores s (.write m)) :
    Inv stores table initial (handleStore stores table m s) := by
  unfold handleStore
  split
  · exact h
  · rename_i c hstore
    split
    · exact h
    · rename_i r hparse
      dsimp only
      split
      · exact h
      · rename_i p hp
        split
        · exact h.written hstore hparse hp hguard
        · exact h

/-- A message is received. -/
theorem Inv.receive {link : ℤ × ℤ} {m : ListenerMessage α}
    {links : List ((ℤ × ℤ) × ListenerMessage α)}
    (htake : Common.takeFirst link s.links = some (m, links)) :
    Inv stores table initial
    { s with links := links, received := s.received ++ [(link.2, m)] } := by
  have hmem := Common.takeFirst_mem htake
  refine ⟨h.primary, h.backup, fun x hx => h.links x (Common.mem_of_mem_takeFirst htake hx),
    fun x hx => ?_,
    h.processed, h.stamps, h.bound, h.order, fun c w hknown hmirrored hw hid p hp b hb => ?_⟩
  · rcases mem_append.mp hx with hx | hx
    · exact h.received x hx
    · obtain rfl := mem_singleton.mp hx
      exact h.links _ hmem
  · rcases h.delivery c w hknown hmirrored hw hid p hp b hb with hdone | ⟨m', hm', hin | hin | hin⟩
    · exact .inl hdone
    · exact .inr ⟨m', hm', .inl (mem_append_left _ hin)⟩
    · rcases mem_cons.mp ((Common.takeFirst_perm htake).mem_iff.mp hin) with heq | hrest
      · cases heq
        exact .inr ⟨_, hm', .inr (.inr (mem_append_right _ mem_cons_self))⟩
      · exact .inr ⟨m', hm', .inr (.inl hrest)⟩
    · exact .inr ⟨m', hm', .inr (.inr (mem_append_left _ hin))⟩

/-- The listener manager of the primary member routes a write to the backups. -/
theorem Inv.route {i : ℕ} {m : ListenerMessage α}
    (hi : s.received[i]? = some (m.primaryMemberId, m)) {c : StoreConfig α κ ν}
    (hc : getStore stores m.message.storeName = some c) (hmirrored : c.isMirrored = true) :
    Inv stores table initial { s with
      received := s.received.eraseIdx i
      links := s.links ++
        (backups c.replicaCount (table.getD m.partitionId []) m.primaryMemberId).map
        fun b => ((m.primaryMemberId, b), m) } := by
  obtain ⟨c', w', hsent⟩ := h.received _ (mem_of_getElem? hi)
  obtain rfl := hsent.eq_of_getStore hc hmirrored
  refine ⟨h.primary, h.backup, fun x hx => ?_,
    fun x hx => h.received x ((eraseIdx_sublist _ _).subset hx), h.processed, h.stamps,
    h.bound,
    h.order, fun c w hknown hmirrored' hw hid p hp b hb => ?_⟩
  · rcases mem_append.mp hx with hx | hx
    · exact h.links x hx
    · obtain ⟨b, -, rfl⟩ := mem_map.mp hx
      exact ⟨c', w', hsent⟩
  · rcases h.delivery c w hknown hmirrored' hw hid p hp b hb with hdone | ⟨m', hm', hin | hin | hin⟩
    · exact .inl hdone
    · rcases Common.eq_or_mem_eraseIdx hi hin with heq | hrest
      · -- the message is the one that is routed
        obtain ⟨hp', rfl⟩ := Prod.mk.inj heq
        obtain ⟨rfl, rfl⟩ := hm'.unique hsent
        rw [hm'.write] at hp
        dsimp only at hp
        refine .inr ⟨m', hm', .inr (.inl (mem_append_right _ (mem_map.mpr ⟨b, ?_, ?_⟩)))⟩
        · rw [getD_eq_getElem?_getD, hp, Option.getD_some, ← hp']
          exact hb
        · rw [← hp']
      · exact .inr ⟨m', hm', .inl hrest⟩
    · exact .inr ⟨m', hm', .inr (.inl (mem_append_left _ hin))⟩
    · rcases Common.eq_or_mem_eraseIdx hi hin with heq | hrest
      · -- a backup is not the primary member
        obtain ⟨rfl, rfl⟩ := Prod.mk.inj heq
        obtain ⟨p', hp', hprimary⟩ := hm'.primary
        rw [hm'.write] at hp
        dsimp only at hp
        rw [hp] at hp'
        obtain rfl := Option.some.inj hp'
        exact absurd hprimary (of_decide_eq_true (mem_filter.mp hb).2).2
      · exact .inr ⟨m', hm', .inr (.inr hrest)⟩

/-- The listener manager of a backup applies a write. -/
theorem Inv.apply {i : ℕ} {memberId : ℤ} {m : ListenerMessage α}
    (hi : s.received[i]? = some (memberId, m)) (hne : memberId ≠ m.primaryMemberId)
    {c : StoreConfig α κ ν} {w : Write κ ν} (hsent : Sent stores table s.written m c w)
    (horder : ∀ y ∈ s.processed, y.1 = memberId → y.2.sameKey w → y.2.stamp ≤ w.stamp) :
    Inv stores table initial
      { ({ s with received := s.received.eraseIdx i } : State α κ ν).put memberId w with
        processed := s.processed ++ [(memberId, w)] } := by
  have hpart : w.partitionId = m.partitionId := by rw [hsent.write]
  have hnotPrimary : ∀ p ∈ table[w.partitionId]?, memberId ≠ p.getPrimaryMemberId := by
    intro p hp
    obtain ⟨p', hp', hprimary⟩ := hsent.primary
    rw [hpart, hp'] at hp
    rw [← Option.some.inj hp, ← hprimary]
    exact hne
  refine ⟨fun store partitionId p hp => ?_, fun b store partitionId p hp hb => ?_, h.links,
    fun x hx => h.received x ((eraseIdx_sublist _ _).subset hx), fun y hy =>
    ?_, h.stamps, h.bound, ?_,
    fun c' w' hknown hmirrored hw hid p hp b hb => ?_⟩
  · have hcontents := h.primary store partitionId p hp
    refine Eq.trans ?_ hcontents
    dsimp only
    rw [put_of_ne]
    rintro ⟨hmember, -, rfl⟩
    exact hnotPrimary p hp hmember.symm
  · have hcontents := h.backup b store partitionId p hp hb
    by_cases hmember : b = memberId
    · subst hmember
      have hprocessed : processedAt { s with processed := s.processed ++ [(b, w)] } b =
          processedAt s b ++ [w] := by
        simp [processedAt]
      have hput :=
        contents_put (w := w) (s := { s with received := s.received.eraseIdx i }) hcontents
      rw [← hprocessed] at hput
      exact hput
    · have hprocessed : processedAt { s with processed := s.processed ++ [(memberId, w)] } b =
          processedAt s b := by
        simp [processedAt, Ne.symm hmember]
      dsimp only
      rw [put_of_ne fun hw => hmember hw.1]
      exact hcontents.trans (congrArg (fun l => Common.writeAll _ (writes l store partitionId))
        hprocessed.symm)
  · rcases mem_append.mp hy with hy | hy
    · exact h.processed y hy
    · obtain rfl := mem_singleton.mp hy
      exact hsent.mem
  · refine pairwise_append.mpr ⟨h.order, pairwise_singleton _ _, fun y hy y' hy' => ?_⟩
    obtain rfl := mem_singleton.mp hy'
    exact horder y hy
  · rcases h.delivery c' w' hknown hmirrored hw hid p hp b hb with hdone | ⟨m', hm',
      hin | hin | hin⟩
    · exact .inl (mem_append_left _ hdone)
    · rcases Common.eq_or_mem_eraseIdx hi hin with heq | hrest
      · obtain ⟨hprimary, rfl⟩ := Prod.mk.inj heq
        obtain ⟨-, rfl⟩ := hm'.unique hsent
        exact absurd hprimary.symm (hnotPrimary p hp)
      · exact .inr ⟨m', hm', .inl hrest⟩
    · exact .inr ⟨m', hm', .inr (.inl hin)⟩
    · rcases Common.eq_or_mem_eraseIdx hi hin with heq | hrest
      · -- the write has now been processed
        obtain ⟨rfl, rfl⟩ := Prod.mk.inj heq
        obtain ⟨-, rfl⟩ := hm'.unique hsent
        exact .inl (mem_append_right _ mem_cons_self)
      · exact .inr ⟨m', hm', .inr (.inr hrest)⟩

/-- A message that no listener acts on is not one for a mirrored store. -/
theorem Inv.ignore {i : ℕ} {x : ℤ × ListenerMessage α} (hi : s.received[i]? = some x)
    (hnone : ∀ c w, Sent stores table s.written x.2 c w → c.isMirrored = false) :
    Inv stores table initial { s with received := s.received.eraseIdx i } := by
  refine ⟨h.primary, h.backup, h.links,
    fun x hx => h.received x ((eraseIdx_sublist _ _).subset hx), h.processed, h.stamps,
    h.bound,
    h.order, fun c w hknown hmirrored hw hid p hp b hb => ?_⟩
  have hother : ∀ l m, Sent stores table s.written m c w → (l, m) ∈ s.received →
      (l, m) ∈ s.received.eraseIdx i := by
    intro l m hm hin
    rcases Common.eq_or_mem_eraseIdx hi hin with rfl | hrest
    · rw [hnone c w hm] at hmirrored
      cases hmirrored
    · exact hrest
  rcases h.delivery c w hknown hmirrored hw hid p hp b hb with hdone | ⟨m, hm, hin | hin | hin⟩
  · exact .inl hdone
  · exact .inr ⟨m, hm, .inl (hother _ m hm hin)⟩
  · exact .inr ⟨m, hm, .inr (.inl hin)⟩
  · exact .inr ⟨m, hm, .inr (.inr (hother _ m hm hin))⟩

end

omit [DecidableEq κ] in
theorem isMirrored_iff {c : StoreConfig α κ ν} : c.isMirrored = true ↔
    c.hasBackupListener = true ∧ ¬(c.isPartitionTable = false ∨ c.replicaCount ≤ 1) := by
  unfold StoreConfig.isMirrored
  cases c.isPartitionTable <;> cases c.hasBackupListener <;> simp
  omega

/-- Without a mirrored store nothing happens. -/
theorem handleListener_of_not_isMirrored {memberId : ℤ} {m : ListenerMessage α}
    (h : ∀ c, getStore stores m.message.storeName = some c → c.isMirrored = false) :
    handleListener stores table memberId m s = s := by
  unfold handleListener
  split
  · rfl
  · rename_i c hc
    split
    · rfl
    · split
      · rename_i hlistener
        unfold backupStoreListener
        rw [if_pos]
        by_contra hnot
        have hmirrored := isMirrored_iff.mpr ⟨hlistener, hnot⟩
        rw [h c hc] at hmirrored
        cases hmirrored
      · rfl

/-- A listener manager processes a message. -/
theorem Inv.process (h : Inv stores table initial s) {i : ℕ} {x : ℤ × ListenerMessage α}
    (hi : s.received[i]? = some x) (hguard : Faithful stores s (.process i)) :
    Inv stores table initial
      (handleListener stores table x.1 x.2 { s with received := s.received.eraseIdx i }) := by
  by_cases hnone : ∀ c, getStore stores x.2.message.storeName = some c → c.isMirrored = false
  · rw [handleListener_of_not_isMirrored hnone]
    refine h.ignore hi fun c w hsent => ?_
    cases hmirrored : c.isMirrored with
    | false => rfl
    | true =>
      rw [hnone c (hsent.getStore_eq hmirrored)] at hmirrored
      cases hmirrored
  · push Not at hnone
    obtain ⟨c, hc, hmirrored⟩ := hnone
    replace hmirrored : c.isMirrored = true := by simpa using hmirrored
    obtain ⟨c', w, hsent⟩ := h.received x (mem_of_getElem? hi)
    obtain rfl := hsent.eq_of_getStore hc hmirrored
    obtain ⟨hlistener, hcount⟩ := isMirrored_iff.mp hmirrored
    obtain ⟨memberId, m⟩ := x
    have hwrite : m.write stores = some w := by
      rw [ListenerMessage.write, hc]
      dsimp only
      rw [hsent.parse]
      exact congrArg some hsent.write.symm
    unfold handleListener
    rw [hc]
    dsimp only
    rw [hsent.parse]
    dsimp only
    rw [if_pos hlistener, backupStoreListener, if_neg hcount]
    split
    · rename_i hprimary
      subst hprimary
      exact h.route hi hc hmirrored
    · rename_i hprimary
      obtain ⟨hprevious, horder⟩ := hguard _ hi hprimary
      dsimp only
      rw [if_neg fun hcrash => by
        rw [hprevious hcrash.2] at hcrash
        exact absurd hcrash.1 (by decide), ← hsent.write]
      exact h.apply hi hprimary hsent (horder w hwrite)

end Steps

/-! ## Mirrors -/

section Runs

variable {stores : List (StoreConfig α κ ν)} {table : List Partition}
  {initial : StoreId → ℕ → StoreMap κ ν} {s : State α κ ν}

/-- Every faithful step keeps the invariant. -/
theorem Inv.step {s' : State α κ ν} {a : Step α} (h : Inv stores table initial s)
    (hguard : Faithful stores s a) (hstep : step stores table s a = some s') :
    Inv stores table initial s' := by
  cases a with
  | write m =>
    cases hstep
    exact h.write hguard
  | receive link =>
    simp only [Backup.step] at hstep
    split at hstep
    · cases hstep
    · rename_i m links htake
      cases hstep
      exact h.receive htake
  | process i =>
    simp only [Backup.step] at hstep
    split at hstep
    · cases hstep
    · rename_i x hi
      cases hstep
      exact h.process hi hguard

/-- The writes to a key of a partition. -/
def keyWrites (l : List (Write κ ν)) (store : StoreId) (partitionId : ℕ) (k : κ) :
    List (Write κ ν) :=
  l.filter fun w => (w.store = store ∧ w.partitionId = partitionId) ∧ w.request.key = k

theorem filter_writes (l : List (Write κ ν)) (store : StoreId) (partitionId : ℕ) (k : κ) :
    ((writes l store partitionId).filter fun w => w.1 = k) =
      (keyWrites l store partitionId k).map fun w => w.request.write := by
  unfold writes keyWrites
  rw [filter_map, filter_filter]
  congr 1
  refine filter_congr fun w _ => ?_
  simp [Request.write, Bool.and_comm]

theorem mem_keyWrites {l : List (Write κ ν)} {store : StoreId} {partitionId : ℕ} {k : κ}
    {w : Write κ ν} : w ∈ keyWrites l store partitionId k ↔
      w ∈ l ∧ (w.store = store ∧ w.partitionId = partitionId) ∧ w.request.key = k := by
  simp [keyWrites]

omit [DecidableEq κ] in
theorem mem_processedAt {b : ℤ} {w : Write κ ν} : w ∈ processedAt s b ↔ (b, w) ∈ s.processed := by
  simp [processedAt]

section

variable (h : Inv stores table initial s)

include h

/-- A member processes the writes to a key in the order of their stamps. -/
theorem Inv.processedAt_order (b : ℤ) :
    (processedAt s b).Pairwise fun w w' => w.sameKey w' → w.stamp ≤ w'.stamp := by
  unfold processedAt
  rw [pairwise_map]
  refine (h.order.filter fun y => y.1 = b).imp_of_mem fun {y y'} hy hy' horder => ?_
  have hb : y.1 = b := of_decide_eq_true (mem_filter.mp hy).2
  have hb' : y'.1 = b := of_decide_eq_true (mem_filter.mp hy').2
  exact horder (hb.trans hb'.symm)

/-- If a member has processed all writes to a key, it has processed the last one last. -/
theorem Inv.getLast?_processedAt {b : ℤ} {store : StoreId}
    {partitionId : ℕ} {k : κ}
    (hdone : ∀ w ∈ keyWrites s.written store partitionId k, (b, w) ∈ s.processed) :
    (keyWrites (processedAt s b) store partitionId k).getLast? =
      (keyWrites s.written store partitionId k).getLast? := by
  have hsub : ∀ w ∈ keyWrites (processedAt s b) store partitionId k,
      w ∈ keyWrites s.written store partitionId k := by
    intro w hw
    obtain ⟨hw, hkey⟩ := mem_keyWrites.mp hw
    exact mem_keyWrites.mpr ⟨h.processed _ (mem_processedAt.mp hw), hkey⟩
  cases hlast : (keyWrites s.written store partitionId k).getLast? with
  | none =>
    refine getLast?_eq_none_iff.mpr (eq_nil_iff_forall_not_mem.mpr fun w hw => ?_)
    have hin := hsub w hw
    rw [getLast?_eq_none_iff.mp hlast] at hin
    exact not_mem_nil hin
  | some w =>
    have hw := mem_of_getLast? hlast
    obtain ⟨-, hkey⟩ := mem_keyWrites.mp hw
    have hprocessed : w ∈ keyWrites (processedAt s b) store partitionId k :=
      mem_keyWrites.mpr ⟨mem_processedAt.mpr (hdone w hw), hkey⟩
    cases hlast' : (keyWrites (processedAt s b) store partitionId k).getLast? with
    | none =>
      rw [getLast?_eq_none_iff.mp hlast'] at hprocessed
      exact absurd hprocessed not_mem_nil
    | some w' =>
      have hw' := mem_of_getLast? hlast'
      obtain ⟨-, hkey'⟩ := mem_keyWrites.mp hw'
      have hsame : w.sameKey w' :=
        ⟨hkey.1.1.trans hkey'.1.1.symm, hkey.1.2.trans hkey'.1.2.symm,
        hkey.2.trans hkey'.2.symm⟩
      rcases Common.pairwise_getLast (h.stamps.filter _) hlast (hsub w' hw') with heq | hlt
      · rw [heq]
      · rcases Common.pairwise_getLast ((h.processedAt_order b).filter _) hlast' hprocessed with
          heq | hle
        · rw [heq]
        · exact absurd (hle hsame) (Nat.not_le_of_lt hlt)

/-- When everything has been processed, the last write to a key is the same at the primary member
and at a backup. -/
theorem Inv.mirrored : Mirrored stores table s := by
  intro hlinks hreceived schemaName storeName c hc hmirrored partitionId p hp b hb
  have hknown := known_of_getSchemaStore hc
  have hne : b ≠ p.getPrimaryMemberId := (of_decide_eq_true (mem_filter.mp hb).2).2
  have hdone : ∀ w ∈ s.written, w.store = c.id → w.partitionId = partitionId →
      (b, w) ∈ s.processed := by
    rintro w hw hid rfl
    rcases h.delivery c w hknown hmirrored hw hid p hp b hb with hdone | ⟨m, -, hin | hin | hin⟩
    · exact hdone
    · rw [hreceived] at hin
      exact absurd hin not_mem_nil
    · rw [hlinks] at hin
      exact absurd hin not_mem_nil
    · rw [hreceived] at hin
      exact absurd hin not_mem_nil
  rw [h.primary c.id partitionId p hp, h.backup b c.id partitionId p hp hne]
  funext k
  refine Common.writeAll_eq_of_getLast? _ ?_
  rw [filter_writes, filter_writes, getLast?_map, getLast?_map,
    h.getLast?_processedAt fun w hw => ?_]
  obtain ⟨hw, hkey, -⟩ := mem_keyWrites.mp hw
  exact hdone w hw hkey.1 hkey.2

end

/-- **Backups mirror the primary**: in every run of faithful steps the backups of a mirrored store
have the primary member's content once all listener messages have been processed. -/
theorem mirrored_of_faithful
    (hrun : Common.Reaches (Backup.step stores table) (Faithful stores)
      { contents := fun _ => initial } s) : Mirrored stores table s :=
  (hrun.invariant (P := Inv stores table initial) (inv_init stores table initial)
    fun _ _ _ h hguard hstep => h.step hguard hstep).mirrored

end Runs

/-! ## Stores of one name -/

/-- A store with integer keys and values, of the given schema. -/
def ordersOf (schema : String) : StoreConfig ℕ ℕ ℕ where
  schema := schema
  name := "orders"
  isPartitionTable := true
  replicaCount := 2
  hasBackupListener := true
  parseKey := some
  parseValue := some
  calculatePartition := fun _ => 0

/-- One partition, with its primary member and a backup. -/
def twoReplicas : List Partition := [[⟨0, .ready⟩, ⟨1, .ready⟩]]

/-- An insert into a store of the given schema, until its backup has been written. -/
def insertAndBackup (schema : String) : List (Step ℕ) :=
  [.write ⟨.internalInsert, some schema, "orders", 1, some 10, none, false⟩, .process 0,
    .receive (0, 1),
    .process 0]

theorem oneSchema_mirrored : ∃ s,
    Common.replay (step [ordersOf "a"] twoReplicas) (Faithful [ordersOf "a"])
      { contents := fun _ _ _ => ∅ } (insertAndBackup "a") = some s ∧
      (s.contents 0 ("a", "orders") 0).contents 1 = some 10 ∧
      Mirrored [ordersOf "a"] twoReplicas s := by
  have hbool : (Common.replay (step [ordersOf "a"] twoReplicas) (Faithful [ordersOf "a"])
      { contents := fun _ _ _ => ∅ } (insertAndBackup "a")).any (fun s =>
        (s.contents 0 ("a", "orders") 0).contents 1 == some 10) = true := by
    decide +kernel
  obtain ⟨s, hs, hvalue⟩ := (Option.any_eq_true _ _).mp hbool
  exact ⟨s, hs, beq_iff_eq.mp hvalue, mirrored_of_faithful (Common.reaches_of_replay hs)⟩

/-- Of two schemas with a store of that name, the backup of the first is written. -/
theorem not_mirrored_of_run : ¬ ∀ s,
    Common.Reaches (step [ordersOf "a", ordersOf "b"] twoReplicas) Common.anyStep
      { contents := fun _ _ _ => ∅ } s → Mirrored [ordersOf "a", ordersOf "b"] twoReplicas s := by
  intro hall
  have hbool : (Common.replay (step [ordersOf "a", ordersOf "b"] twoReplicas) Common.anyStep
      { contents := fun _ _ _ => ∅ } (insertAndBackup "b")).any (fun s =>
        s.links.isEmpty && s.received.isEmpty &&
          (s.contents 0 ("b", "orders") 0).contents 1 == some 10 &&
          (s.contents 1 ("b", "orders") 0).contents 1 == none) = true := by
    decide +kernel
  obtain ⟨s, hs, hdone⟩ := (Option.any_eq_true _ _).mp hbool
  simp only [Bool.and_eq_true, List.isEmpty_iff, beq_iff_eq] at hdone
  obtain ⟨⟨⟨hlinks, hreceived⟩, hprimary⟩, hbackup⟩ := hdone
  have heq :=
    hall s (Common.reaches_of_replay hs) hlinks hreceived "b" "orders" (ordersOf "b") rfl rfl 0
    [⟨0, .ready⟩, ⟨1, .ready⟩] rfl 1 (by decide)
  have hvalue : (s.contents 1 ("b", "orders") 0).contents 1 =
      (s.contents 0 ("b", "orders") 0).contents 1 := congrFun heq 1
  rw [hbackup, hprimary] at hvalue
  cases hvalue

end Backup

end Idgs.Store
