import Idgs.Common.Fold
import Idgs.Rdd.PairRddPartition
import Idgs.Rdd.Partitioning

/-!
# Joining a store with a repartitioned RDD

The rows of a store lie where its configuration puts them, those of a repartitioned RDD where the
engine sends them. A hash join of the two returns every matching pair exactly when both agree on
where a key belongs.
-/

namespace Idgs.Rdd

open Function List

open Protobuf (Descriptor Message Faithful StlHash)

namespace CoPartition

/-- A store and the cluster that holds it: the members' processes and the partition table. -/
structure Deployment (d : Descriptor) where
  config : StoreConfig d
  isOrdered : Bool
  partitionCount : ℕ
  pos : 0 < partitionCount
  stl : ℤ → StlHash
  table : List (List ℤ)

/-- A row, and the member that finds its partition. -/
structure Row (d : Descriptor) (ν : Type*) where
  memberId : ℤ
  key : Message d
  value : ν

variable {d : Descriptor} {ν ω : Type*} (c : Deployment d)

/-- The partition of the store that a row goes to. -/
def storedIn (row : Row d ν) : ℕ :=
  (c.config.calculatePartitionInfo (c.stl row.memberId) c.partitionCount c.table
    row.key).partitionId

/-- The partition of an RDD that a row is sent to. -/
def sentTo (row : Row d ν) : ℕ := calcPartitionId (c.stl row.memberId) c.partitionCount row.key

/-- The process of the member that has a partition. -/
def host (i : ℕ) : StlHash := c.stl (getPrimaryMemberId c.table i)

/-- An insert into the store. -/
def insert (s : ℕ → List (Message d × ν)) (row : Row d ν) : Option (ℕ → List (Message d × ν)) :=
  (Store.DataMap.set
    (PairStoreDelegateRddPartition.storeMap c.isOrdered (host c (storedIn c row)) d ν)
    row.key row.value (s (storedIn c row))).map fun r => Function.update s (storedIn c row) r.2

/-- A row of a repartitioned RDD arrives. -/
def repartition (persistType : PersistType) (t : ℕ → PairRddPartition d ω) (row : Row d ω) :
    Option (ℕ → PairRddPartition d ω) :=
  ((t (sentTo c row)).handleRePartition (host c (sentTo c row)) persistType row.key row.value).map
    (Function.update t (sentTo c row))

/-- The store after some inserts. -/
def loadStore (rows : List (Row d ν)) : Option (ℕ → List (Message d × ν)) :=
  rows.foldlM (insert c) fun _ => []

/-- The RDD after some rows have arrived. -/
def loadRdd (persistType : PersistType) (rows : List (Row d ω)) :
    Option (ℕ → PairRddPartition d ω) :=
  rows.foldlM (repartition c persistType) fun _ => {}

/-- The store as an RDD. -/
def storeRdd (s : ℕ → List (Message d × ν)) : ℕ → RddPartition (Message d) ν :=
  fun i => PairStoreDelegateRddPartition.view c.isOrdered (host c i) (s i)

/-- The pair RDD. -/
def pairRdd (persistType : PersistType) (t : ℕ → PairRddPartition d ω) :
    ℕ → RddPartition (Message d) ω :=
  fun i => (t i).view (host c i) persistType

/-- The persist type of the first RDD of a join: `JoinOperator::parse` changes it for an outer
join. -/
def inputPersistType (joinType : JoinType) (persistType : PersistType) : PersistType :=
  if joinType = .outerJoin then .ordered else persistType

/-- The comparison of any two keys is right. -/
def FaithfulKeys (stored : List (Row d ν)) (sent : List (Row d ω)) : Prop :=
  ∀ k ∈ stored.map Row.key ++ sent.map Row.key, ∀ k' ∈ stored.map Row.key ++ sent.map Row.key,
    Faithful d k k'

/-- A key is stored in the partition with the index of the one that it is sent to. -/
def SameIndex (stored : List (Row d ν)) (sent : List (Row d ω)) : Prop :=
  ∀ x ∈ stored, ∀ y ∈ sent, x.key = y.key → storedIn c x = sentTo c y

/-- A join with the pair RDD as the first and the store as the second RDD returns every matching
pair. -/
def JoinsStore (persistType : PersistType) (stored : List (Row d ν)) (sent : List (Row d ω)) :
    Prop :=
  ∀ (o : Type) (op : JoinOperator (Message d) ω ν o) (containKey : ℕ → Message d → Bool), ∃ s t,
    loadStore c stored = some s ∧ loadRdd c (inputPersistType op.joinType persistType) sent =
    some t ∧
    HashJoinTransformer.ReturnsEveryPair op c.partitionCount containKey
      (pairRdd c (inputPersistType op.joinType persistType) t) (storeRdd c s)

/-- A join with the store as the first and the pair RDD as the second RDD, which is then ordered,
returns every matching pair. -/
def StoreJoins (stored : List (Row d ν)) (sent : List (Row d ω)) : Prop :=
  ∀ (o : Type) (op : JoinOperator (Message d) ν ω o) (containKey : ℕ → Message d → Bool), ∃ s t,
    loadStore c stored = some s ∧ loadRdd c .ordered sent = some t ∧
    HashJoinTransformer.ReturnsEveryPair op c.partitionCount containKey (storeRdd c s)
    (pairRdd c .ordered t)

/-! ## What the partitions hold -/

section Loads

variable {c} {S : Set (Message d)}

/-- The keys of `S` that the store puts into a partition. -/
def StoredKeys (c : Deployment d) (S : Set (Message d)) (i : ℕ) : Set (Message d) :=
  { k | k ∈ S ∧ ∃ m,
    (c.config.calculatePartitionInfo (c.stl m) c.partitionCount c.table k).partitionId = i }

/-- The keys of `S` that the engine sends to a partition. -/
def SentKeys (c : Deployment d) (S : Set (Message d)) (i : ℕ) : Set (Message d) :=
  { k | k ∈ S ∧ ∃ m, calcPartitionId (c.stl m) c.partitionCount k = i }

section

variable (hS : ∀ k ∈ S, ∀ k' ∈ S, Faithful d k k')

include hS

theorem faithful_storedKeys (i : ℕ) :
    ∀ k ∈ StoredKeys c S i, ∀ k' ∈ StoredKeys c S i, Faithful d k k' :=
  fun k hk k' hk' => hS k hk.1 k' hk'.1

theorem faithful_sentKeys (i : ℕ) :
    ∀ k ∈ SentKeys c S i, ∀ k' ∈ SentKeys c S i, Faithful d k k' :=
  fun k hk k' hk' => hS k hk.1 k' hk'.1

theorem lawfulOn_storedKeys (stl : StlHash) (i : ℕ) :
    Store.DataMap.LawfulOn (PairStoreDelegateRddPartition.storeMap c.isOrdered stl d ν)
    (StoredKeys c S i) (PairStoreDelegateRddPartition.Held c.isOrdered (StoredKeys c S i)) :=
  PairStoreDelegateRddPartition.held_lawfulOn stl (faithful_storedKeys hS i)

/-- The store holds every key where its configuration puts it. -/
theorem loadStore_held {rows : List (Row d ν)} (hrows : ∀ row ∈ rows, row.key ∈ S) :
    ∃ s, loadStore c rows = some s ∧
      ∀ i, PairStoreDelegateRddPartition.Held c.isOrdered (StoredKeys c S i) (s i) := by
  refine Common.foldlM_invariant
    (fun s : ℕ → List (Message d × ν) =>
      ∀ i, PairStoreDelegateRddPartition.Held c.isOrdered (StoredKeys c S i) (s i)) ?_ ?_
  · intro s row hrow hs
    have hkey : row.key ∈ StoredKeys c S (storedIn c row) := ⟨hrows row hrow, row.memberId, rfl⟩
    have hlawful :=
      lawfulOn_storedKeys (c := c) (ν := ν) hS (host c (storedIn c row)) (storedIn c row)
    obtain ⟨old, hold, -⟩ := hlawful.find (hs (storedIn c row)) hkey
    obtain ⟨m, hm, hheld, -⟩ := hlawful.set (hs (storedIn c row)) hkey row.value
    refine ⟨update s (storedIn c row) m, ?_, fun i => ?_⟩
    · simp only [insert, Store.DataMap.set, hold, Option.bind_some, hm, Option.map_some]
    · by_cases hi : i = storedIn c row
      · subst hi
        rwa [update_self]
      · rw [update_of_ne hi]
        exact hs i
  · exact fun i => (lawfulOn_storedKeys hS (host c i) i).nil

/-- The RDD has every key where the engine sends it. -/
theorem loadRdd_keys (persistType : PersistType)
    {rows : List (Row d ω)} (hrows : ∀ row ∈ rows, row.key ∈ S) :
    ∃ t, loadRdd c persistType rows = some t ∧ ∀ i, (t i).Keys (SentKeys c S i) := by
  refine Common.foldlM_invariant
    (fun t : ℕ → PairRddPartition d ω => ∀ i, (t i).Keys (SentKeys c S i)) ?_ ?_
  · intro t row hrow ht
    have hkey : row.key ∈ SentKeys c S (sentTo c row) := ⟨hrows row hrow, row.memberId, rfl⟩
    obtain ⟨p, hp, hkeys⟩ := (ht (sentTo c row)).handleRePartition (faithful_sentKeys hS _)
      (host c (sentTo c row)) persistType hkey row.value
    refine ⟨update t (sentTo c row) p, ?_, fun i => ?_⟩
    · rw [repartition, hp, Option.map_some]
    · by_cases hi : i = sentTo c row
      · subst hi
        rwa [update_self]
      · rw [update_of_ne hi]
        exact ht i
  · exact fun i => PairRddPartition.Keys.init

end

end Loads

/-! ## When every matching pair is returned -/

section Joins

variable {c} {stored : List (Row d ν)} {sent : List (Row d ω)}

/-- The keys at hand. -/
def KeysOf (stored : List (Row d ν)) (sent : List (Row d ω)) : Set (Message d) :=
  { k | k ∈ stored.map Row.key ++ sent.map Row.key }

/-- The keys that are right to compare with themselves. -/
def SelfFaithful (d : Descriptor) : Set (Message d) := { k | Faithful d k k }

theorem key_mem_of_stored (sent : List (Row d ω)) : ∀ row ∈ stored, row.key ∈ KeysOf stored sent :=
  fun _ hrow => mem_append_left _ (mem_map_of_mem hrow)

theorem key_mem_of_sent (stored : List (Row d ν)) : ∀ row ∈ sent, row.key ∈ KeysOf stored sent :=
  fun _ hrow => mem_append_right _ (mem_map_of_mem hrow)

/-- If hash codes are congruent, a key that lies in a partition of either lies in one with the same
index. -/
theorem same_of_congruent (hcong : Congruent c.stl c.partitionCount (SelfFaithful d) c.config)
    {S : Set (Message d)} (hS : ∀ k ∈ S, ∀ k' ∈ S, Faithful d k k') {k : Message d} {i j : ℕ}
    (hi : k ∈ StoredKeys c S i) (hj : k ∈ SentKeys c S j) : i = j := by
  obtain ⟨hk, m, rfl⟩ := hi
  obtain ⟨-, m', rfl⟩ := hj
  exact (congruent_iff c.stl c.partitionCount _ c.table c.config).mp hcong k (hS k hk k hk) m m'

theorem storeJoins_of_congruent (hcong : Congruent c.stl c.partitionCount (SelfFaithful d) c.config)
    (hfaithful : FaithfulKeys stored sent) : StoreJoins c stored sent := by
  intro o op containKey
  obtain ⟨s, hs, hheld⟩ := loadStore_held (c := c) hfaithful (key_mem_of_stored sent)
  obtain ⟨t, ht, hkeys⟩ := loadRdd_keys (c := c) hfaithful .ordered (key_mem_of_sent stored)
  refine ⟨s, t, hs, ht, ?_⟩
  refine HashJoinTransformer.returnsEveryPair (S := KeysOf stored sent) containKey
    (fun i => (hkeys i).lookups (host c i) (fun k hk => hk.1) hfaithful)
    (fun i x hx => ((hheld i).keys x hx).1) ?_
  intro i _ j _ x hx y hy hkey
  have hy := (hkeys j).rows (host c j) .ordered y hy
  rw [hkey] at hy
  exact (same_of_congruent hcong hfaithful ((hheld i).keys x hx) hy).symm

theorem joinsStore_of_congruent (persistType : PersistType)
    (hcong : Congruent c.stl c.partitionCount (SelfFaithful d) c.config)
    (hfaithful : FaithfulKeys stored sent) : JoinsStore c persistType stored sent := by
  intro o op containKey
  obtain ⟨s, hs, hheld⟩ := loadStore_held (c := c) hfaithful (key_mem_of_stored sent)
  obtain ⟨t, ht, hkeys⟩ :=
    loadRdd_keys (c := c) hfaithful (inputPersistType op.joinType persistType)
    (key_mem_of_sent stored)
  refine ⟨s, t, hs, ht, ?_⟩
  refine HashJoinTransformer.returnsEveryPair (S := KeysOf stored sent) containKey
    (fun i => (hheld i).lookups (host c i) (fun k hk => hk.1) hfaithful)
    (fun i x hx => ((hkeys i).rows (host c i) _ x hx).1) ?_
  intro i _ j _ x hx y hy hkey
  have hx := (hkeys i).rows (host c i) _ x hx
  rw [← hkey] at hx
  exact same_of_congruent hcong hfaithful ((hheld j).keys y hy) hx

/-- One row in the store. -/
theorem loadStore_singleton (row : Row d ν) :
    loadStore c
    [row] = some (update (fun _ => []) (storedIn c row) [(row.key, row.value)]) := by
  show (insert c (fun _ => []) row).bind some = _
  unfold insert PairStoreDelegateRddPartition.storeMap
  cases c.isOrdered <;> rfl

/-- One row in the RDD. -/
theorem loadRdd_singleton (row : Row d ω) :
    loadRdd c .ordered [row] = some (update (fun _ => {}) (sentTo c row)
      { orderedDataMap := [(row.key, [row.value])] }) := rfl

/-- The operator that makes an output of every pair. -/
def everyPair (κ ν ω : Type*) : JoinOperator κ ν ω Unit where
  joinType := .innerJoin
  evaluate := fun _ _ => some ()
  paramOperator := fun _ _ _ => some ()

/-- One row in the store and one in the RDD, with one key but in different partitions: nothing is
joined. -/
theorem join_singletons {x : Row d ν} {y : Row d ω} (hne : storedIn c x ≠ sentTo c y)
    (containKey : ℕ → Message d → Bool) :
    HashJoinTransformer.join (everyPair (Message d) ν ω) c.partitionCount containKey
      (storeRdd c (update (fun _ => []) (storedIn c x) [(x.key, x.value)]))
      (pairRdd c .ordered (update (fun _ => {}) (sentTo c y)
        { orderedDataMap := [(y.key, [y.value])] })) = some [] := by
  have htransform : ∀ i, HashJoinTransformer.transform (everyPair (Message d) ν ω) (containKey i)
      (storeRdd c (update (fun _ => []) (storedIn c x) [(x.key, x.value)]) i)
      (pairRdd c .ordered (update (fun _ => {}) (sentTo c y)
        { orderedDataMap := [(y.key, [y.value])] }) i) = some [] := by
    intro i
    by_cases hi : i = storedIn c x
    · subst hi
      simp only [storeRdd, pairRdd, update_self, update_of_ne hne]
      rfl
    · simp only [storeRdd, update_of_ne hi]
      rfl
  obtain ⟨g, hg, hall⟩ := Common.mapM_eq_some (l := List.range c.partitionCount)
    fun i _ => ⟨[], htransform i⟩
  rw [HashJoinTransformer.join, hall, Option.some.injEq, flatMap_eq_nil_iff]
  intro i hi
  have hgi := hg i hi
  rw [htransform i, Option.some.injEq] at hgi
  exact hgi.symm

theorem storedIn_lt (row : Row d ν) : storedIn c row < c.partitionCount := Nat.mod_lt _ c.pos

theorem sentTo_lt (row : Row d ω) : sentTo c row < c.partitionCount := Nat.mod_lt _ c.pos

/-- If every matching pair is returned whatever the store and the RDD hold, hash codes are
congruent. -/
theorem congruent_of_storeJoins [Inhabited ν] [Inhabited ω]
    (h : ∀ (stored : List (Row d ν)) (sent : List (Row d ω)), FaithfulKeys stored sent →
      StoreJoins c stored sent) :
    Congruent c.stl c.partitionCount (SelfFaithful d) c.config := by
  refine (congruent_iff c.stl c.partitionCount _ c.table c.config).mpr fun key hkey m m' => ?_
  by_contra hne
  let x : Row d ν := { memberId := m, key := key, value := default }
  let y : Row d ω := { memberId := m', key := key, value := default }
  have hfaithful : FaithfulKeys [x] [y] := by
    have hkeys : ∀ k ∈ [x].map Row.key ++ [y].map Row.key, k = key := by
      intro k hk
      simpa [x, y] using hk
    intro k hk k' hk'
    rw [hkeys k hk, hkeys k' hk']
    exact hkey
  obtain ⟨s, t, hs, ht, out, hout, hsub⟩ := h [x] [y] hfaithful Unit (everyPair _ _ _) fun _ _ =>
      false
  rw [loadStore_singleton, Option.some.injEq] at hs
  rw [loadRdd_singleton, Option.some.injEq] at ht
  subst hs ht
  have hapart : storedIn c x ≠ sentTo c y := hne
  rw [join_singletons hapart, Option.some.injEq] at hout
  subst hout
  have hx : (key, x.value) ∈ HashJoinTransformer.rowsOf c.partitionCount
      (storeRdd c (update (fun _ => []) (storedIn c x) [(x.key, x.value)])) := by
    refine mem_flatMap.mpr ⟨storedIn c x, mem_range.mpr (storedIn_lt x), ?_⟩
    simp [storeRdd, PairStoreDelegateRddPartition.view, x]
  have hy : (key, y.value) ∈ HashJoinTransformer.rowsOf c.partitionCount
      (pairRdd c .ordered (update (fun _ => {}) (sentTo c y)
        { orderedDataMap := [(y.key, [y.value])] })) := by
    refine mem_flatMap.mpr ⟨sentTo c y, mem_range.mpr (sentTo_lt y), ?_⟩
    simp [pairRdd, PairRddPartition.view, PairRddPartition.groups, Common.ungroup, y]
  have hpair : () ∈ Common.matching (HashJoinTransformer.pairOutput (everyPair (Message d) ν ω))
      (HashJoinTransformer.rowsOf c.partitionCount
        (storeRdd c (update (fun _ => []) (storedIn c x) [(x.key, x.value)])))
      (HashJoinTransformer.rowsOf c.partitionCount
        (pairRdd c .ordered (update (fun _ => {}) (sentTo c y)
          { orderedDataMap := [(y.key, [y.value])] }))) := by
    refine mem_flatMap.mpr ⟨_, hx, mem_filterMap.mpr ⟨y.value, ?_, rfl⟩⟩
    exact mem_map.mpr ⟨_, mem_filter.mpr ⟨hy, by simp⟩, rfl⟩
  exact not_mem_nil (hsub.subset hpair)

end Joins

/-- Whatever a store and a pair RDD hold, as long as keys are compared right: a key is stored in the
partition with the index of the one that it is sent to, and joins of the two return every matching
pair. -/
def CoPartitioned (c : Deployment d) (persistType : PersistType) (ν ω : Type*) : Prop :=
  ∀ (stored : List (Row d ν)) (sent : List (Row d ω)), FaithfulKeys stored sent →
    SameIndex c stored sent ∧ JoinsStore c persistType stored sent ∧ StoreJoins c stored sent

theorem coPartitioned_of_congruent {c : Deployment d} (persistType : PersistType)
    (hcong : Congruent c.stl c.partitionCount (SelfFaithful d) c.config) :
    CoPartitioned c persistType ν ω := by
  intro stored sent hfaithful
  refine ⟨fun x hx y hy hkey => ?_, joinsStore_of_congruent persistType hcong hfaithful,
    storeJoins_of_congruent hcong hfaithful⟩
  have hxk : x.key ∈ KeysOf stored sent := key_mem_of_stored sent x hx
  refine same_of_congruent hcong (S := KeysOf stored sent) hfaithful ⟨hxk, x.memberId,
    rfl⟩ (k := x.key) ?_
  exact ⟨hxk, y.memberId, by rw [sentTo, hkey]⟩

/-- A store and the repartitioned RDDs are joined completely, for all their contents, if and only if
the store's hash codes are congruent to those of the engine. -/
theorem coPartitioned_iff_congruent [Inhabited ν] [Inhabited ω] (c : Deployment d)
    (persistType : PersistType) :
    CoPartitioned c persistType ν ω ↔ Congruent c.stl c.partitionCount (SelfFaithful d) c.config :=
  ⟨fun h => congruent_of_storeJoins fun stored sent hfaithful => (h stored sent hfaithful).2.2,
    coPartitioned_of_congruent persistType⟩

/-- One process with four partitions, and a store whose keys are partitioned by their only field. -/
def byField : Deployment Store.DataMap.oneUint64 where
  config := { partitioner := some fun key => .uint64 key.1 }
  isOrdered := true
  partitionCount := 4
  pos := by decide
  stl := fun _ => Store.DataMap.identityHash
  table := [[0], [0], [0], [0]]

/-- The key `0` is stored in partition `0`, but it is sent to partition `1`. -/
theorem not_coPartitioned_byField :
    ¬ ∀ (c : Deployment Store.DataMap.oneUint64) (persistType : PersistType),
      CoPartitioned c persistType ℕ ℕ := by
  intro hall
  have hcong : Congruent byField.stl byField.partitionCount (SelfFaithful _) byField.config :=
    congruent_of_storeJoins (ν := ℕ) (ω := ℕ) fun stored sent hfaithful =>
      (hall byField .ordered stored sent hfaithful).2.2
  have hkey : Store.DataMap.keyOf 0 ∈ SelfFaithful Store.DataMap.oneUint64 :=
    ⟨rfl, fun _ => trivial⟩
  have hmod :=
    (congruent_iff byField.stl byField.partitionCount _ byField.table byField.config).mp hcong
    (Store.DataMap.keyOf 0) hkey 0 0
  revert hmod
  decide +kernel

end CoPartition

end Idgs.Rdd
