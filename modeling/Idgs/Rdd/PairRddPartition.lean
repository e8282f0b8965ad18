import Idgs.Rdd.HashJoin
import Idgs.Store.DataMap

/-!
# The rows of a partition

A partition of a pair RDD keeps its rows in an ordered or an unordered map from keys to values, or
hands them on as they come; a partition of a store delegate RDD reads the map of the store. Both
maps of a pair RDD use `protobuf::sharedless`, the unordered one in the place of an equality.
-/

namespace Idgs.Rdd

open Protobuf (Descriptor Message Faithful StlHash)

/-- `pb::PersistType`. -/
inductive PersistType
  | ordered | unordered | multiOrdered | multiUnordered | none | list
deriving DecidableEq

/-- `protobuf::sharedless`. -/
def sharedless (d : Descriptor) (x y : Message d) : Option Bool :=
  (Protobuf.compare d x y).map fun c => decide (c < 0)

/-- `PairRddPartition`: its two maps, and the rows that it has handed on. -/
structure PairRddPartition (d : Descriptor) (ν : Type*) where
  orderedDataMap : List (Message d × List ν) := []
  unorderedDataMap : List (Message d × List ν) := []
  transformed : List (Message d × ν) := []

namespace PairRddPartition

variable {d : Descriptor} {ν : Type*}

/-- `PairRddPartition::persist`. With `unique`, the values that are there are dropped. -/
def persist (stl : StlHash) (persistType : PersistType) (key : Message d) (value : ν)
    (unique : Bool)
    (p : PairRddPartition d ν) : Option (PairRddPartition d ν) :=
  match persistType with
  | .ordered =>
    (Common.OrderedMap.find (sharedless d) key p.orderedDataMap).bind fun old =>
      (Common.OrderedMap.set (sharedless d) key ((if unique then [] else old.getD []) ++ [value])
        p.orderedDataMap).map fun m => { p with orderedDataMap := m }
  | .unordered =>
    (Common.HashedMap.find (Protobuf.HashCode.hashcode stl d) (sharedless d) key
      p.unorderedDataMap).bind fun old =>
        (Common.HashedMap.set (Protobuf.HashCode.hashcode stl d) (sharedless d) key
          ((if unique then [] else old.getD []) ++ [value]) p.unorderedDataMap).map fun m =>
            { p with unorderedDataMap := m }
  | _ => some p

/-- `PairRddPartition::handleRePartition` for one row of an RDD that does not aggregate. -/
def handleRePartition (stl : StlHash) (persistType : PersistType) (key : Message d) (value : ν)
    (p : PairRddPartition d ν) : Option (PairRddPartition d ν) :=
  if persistType = .none then some { p with transformed := p.transformed ++ [(key, value)] }
  else p.persist stl persistType key value false

/-- The groups of `PairRddPartition::foreachGroup`. -/
def groups (persistType : PersistType) (p : PairRddPartition d ν) : List (Message d × List ν) :=
  match persistType with
  | .ordered => p.orderedDataMap
  | .unordered => p.unorderedDataMap
  | _ => []

/-- `PairRddPartition::getValue`. -/
def getValue (stl : StlHash) (persistType : PersistType) (p : PairRddPartition d ν)
    (key : Message d) :
    Option (List ν) :=
  match persistType with
  | .ordered => (Common.OrderedMap.find (sharedless d) key p.orderedDataMap).map fun found =>
    found.getD []
  | _ =>
    (Common.HashedMap.find (Protobuf.HashCode.hashcode stl d) (sharedless d) key
      p.unorderedDataMap).map fun found => found.getD []

/-- The partition as its transformers see it: the rows of `PairRddPartition::foreach`, or those that
are handed on where none is kept. -/
def view (stl : StlHash) (persistType : PersistType) (p : PairRddPartition d ν) :
    RddPartition (Message d) ν where
  rows := if persistType = .none then p.transformed else Common.ungroup (p.groups persistType)
  groups := p.groups persistType
  getValue := p.getValue stl persistType

/-! ## What a partition keeps -/

/-- All keys are in `S`, those of the ordered map in order. -/
structure Keys (S : Set (Message d)) (p : PairRddPartition d ν) : Prop where
  ordered : Common.OrderedMap.Sorted S p.orderedDataMap
  unordered : ∀ e ∈ p.unorderedDataMap, e.1 ∈ S
  transformed : ∀ e ∈ p.transformed, e.1 ∈ S

variable {S T : Set (Message d)} {p : PairRddPartition d ν}

theorem Keys.init : Keys S ({} : PairRddPartition d ν) where
  ordered := Common.OrderedMap.Sorted.nil
  unordered := by
    intro e he
    cases he
  transformed := by
    intro e he
    cases he

/-- On faithful keys `protobuf::sharedless` is the order of the messages. -/
theorem sharedless_agrees (hS : ∀ k ∈ S, ∀ k' ∈ S, Faithful d k k') :
    Common.OrderedMap.Agrees (sharedless d) S :=
  Store.DataMap.less_agrees hS

/-- A row whose key is in `S` is taken. -/
theorem Keys.handleRePartition (h : Keys S p) (hS : ∀ k ∈ S, ∀ k' ∈ S, Faithful d k k')
    (stl : StlHash) (persistType : PersistType) {key : Message d} (hkey : key ∈ S) (value : ν) :
    ∃ p', p.handleRePartition stl persistType key value = some p' ∧ Keys S p' := by
  have hagrees := sharedless_agrees hS
  have htotal : ∀ k ∈ S, ∀ k' ∈ S, ∃ b, sharedless d k k' = some b :=
    fun k hk k' hk' => ⟨_, hagrees k hk k' hk'⟩
  unfold PairRddPartition.handleRePartition
  split
  · refine ⟨_, rfl, h.ordered, h.unordered, fun e he => ?_⟩
    rcases List.mem_append.mp he with hold | hnew
    · exact h.transformed e hold
    · obtain rfl := List.mem_singleton.mp hnew
      exact hkey
  · unfold persist
    cases persistType with
    | ordered =>
      obtain ⟨old, hold, -⟩ := Common.OrderedMap.find_eq hagrees h.ordered hkey
      obtain ⟨m, hm, hsorted, -⟩ :=
        Common.OrderedMap.set_eq hagrees h.ordered hkey
          ((if false then [] else old.getD []) ++ [value])
      exact ⟨{ p with orderedDataMap := m }, by simp only [hold, Option.bind_some, hm,
        Option.map_some],
        hsorted, h.unordered, h.transformed⟩
    | unordered =>
      have hfind : ∃ old,
          Common.HashedMap.find (Protobuf.HashCode.hashcode stl d) (sharedless d) key
          p.unorderedDataMap = some old :=
        Common.HashedMap.find_total htotal h.unordered hkey
      obtain ⟨old, hold⟩ := hfind
      have hset : ∃ m, Common.HashedMap.set (Protobuf.HashCode.hashcode stl d) (sharedless d) key
          ((if false then [] else old.getD []) ++ [value]) p.unorderedDataMap = some m ∧
            ∀ e ∈ m, e.1 ∈ S :=
        Common.HashedMap.set_total htotal h.unordered hkey _
      obtain ⟨m, hm, hkeys⟩ := hset
      exact ⟨{ p with unorderedDataMap := m }, by simp only [hold, Option.bind_some, hm,
        Option.map_some],
        h.ordered, hkeys, h.transformed⟩
    | _ => exact ⟨p, rfl, h⟩

theorem Keys.rows (h : Keys S p) (stl : StlHash) (persistType : PersistType) :
    ∀ x ∈ (p.view stl persistType).rows, x.1 ∈ S := by
  have hungroup : ∀ groups : List (Message d × List ν), (∀ e ∈ groups, e.1 ∈ S) →
      ∀ x ∈ Common.ungroup groups, x.1 ∈ S := by
    intro groups hgroups x hx
    obtain ⟨e, he, hx⟩ := List.mem_flatMap.mp hx
    obtain ⟨v, -, rfl⟩ := List.mem_map.mp hx
    exact hgroups e he
  intro x hx
  unfold view at hx
  cases persistType with
  | ordered => exact hungroup _ h.ordered.keys x hx
  | unordered => exact hungroup _ h.unordered x hx
  | none => exact h.transformed x hx
  | _ => cases hx

/-- A lookup in an ordered map finds the rows of the key. -/
theorem Keys.lookups (h : Keys S p) (stl : StlHash) (hST : S ⊆ T)
    (hT : ∀ k ∈ T, ∀ k' ∈ T, Faithful d k k') :
    HashJoinTransformer.Lookups T (p.view stl .ordered) := by
  intro k hk
  obtain ⟨r, hr, hmem⟩ := Common.OrderedMap.find_eq (sharedless_agrees hT) (h.ordered.mono hST) hk
  have hvalues := Common.valuesOf_eq_toList h.ordered.distinct hmem
  show (Common.OrderedMap.find (sharedless d) k p.orderedDataMap).map _ =
    some (Common.valuesOf k (Common.ungroup p.orderedDataMap))
  rw [hr, Common.valuesOf_ungroup, hvalues]
  cases r with
  | none => rfl
  | some vs => simp

end PairRddPartition

/-! ## Partitions of stores -/

namespace PairStoreDelegateRddPartition

variable {d : Descriptor} {ν : Type*}

/-- The map of a store's partition: ordered or hashed. -/
def storeMap (isOrdered : Bool) (stl : StlHash) (d : Descriptor) (ν : Type*) :
    Store.DataMap.Container (Message d) ν :=
  if isOrdered then Store.DataMap.BTREEMAP d ν else Store.DataMap.HASHMAP stl d ν

/-- `PairStoreDelegateRddPartition`: what it reads of the map. -/
def view (isOrdered : Bool) (stl : StlHash) (dataMap : List (Message d × ν)) :
    RddPartition (Message d) ν where
  rows := dataMap
  groups := dataMap.map fun e => (e.1, [e.2])
  getValue := fun key => ((storeMap isOrdered stl d ν).find key dataMap).map Option.toList

/-- The map is ordered, or has every key once; all keys are in `S`. -/
def Held (isOrdered : Bool) (S : Set (Message d)) (dataMap : List (Message d × ν)) : Prop :=
  if isOrdered then Common.OrderedMap.Sorted S dataMap else Common.HashedMap.Keyed S dataMap

variable {S T : Set (Message d)} {dataMap : List (Message d × ν)} {isOrdered : Bool}

theorem held_lawfulOn (stl : StlHash) (hS : ∀ k ∈ S, ∀ k' ∈ S, Faithful d k k') :
    Store.DataMap.LawfulOn (storeMap isOrdered stl d ν) S (Held isOrdered S) := by
  cases isOrdered with
  | true => exact Store.DataMap.BTREEMAP_lawfulOn hS
  | false => exact Store.DataMap.HASHMAP_lawfulOn stl hS

section

variable (h : Held isOrdered S dataMap)

include h

theorem Held.keys : ∀ e ∈ dataMap, e.1 ∈ S := by
  cases isOrdered with
  | true => exact Common.OrderedMap.Sorted.keys h
  | false => exact Common.HashedMap.Keyed.keys h

theorem Held.distinct : dataMap.Pairwise fun e e' => e.1 ≠ e'.1 := by
  cases isOrdered with
  | true => exact Common.OrderedMap.Sorted.distinct h
  | false => exact Common.HashedMap.Keyed.distinct h

theorem Held.mono (hST : S ⊆ T) : Held isOrdered T dataMap := by
  cases isOrdered with
  | true => exact Common.OrderedMap.Sorted.mono h hST
  | false => exact Common.HashedMap.Keyed.mono h hST

/-- A lookup in the store finds the row of the key. -/
theorem Held.lookups (stl : StlHash) (hST : S ⊆ T) (hT : ∀ k ∈ T, ∀ k' ∈ T, Faithful d k k') :
    HashJoinTransformer.Lookups T (view isOrdered stl dataMap) := by
  intro k hk
  obtain ⟨r, hr, hmem⟩ := (held_lawfulOn stl hT).find (h.mono hST) hk
  show ((storeMap isOrdered stl d ν).find k dataMap).map Option.toList =
      some (Common.valuesOf k dataMap)
  rw [hr, Common.valuesOf_eq_toList h.distinct hmem, Option.map_some]

end

end PairStoreDelegateRddPartition

end Idgs.Rdd
