import Idgs.Common.Containers
import Idgs.Protobuf.Compare
import Idgs.Protobuf.HashCode
import Idgs.Store.StoreMap

/-!
# Ordered and unordered stores

The entries of a partition are kept in a `TreeMap`, ordered by `protobuf::compare`, or in a
`HashMap`, which uses hash codes and the same comparison. Both are `BasicDataMap`s over containers
of the library.
-/

namespace Idgs.Store

open Protobuf (Descriptor Message Faithful StlHash)

namespace DataMap

variable {κ ν : Type*}

/-- What `BasicDataMap` uses of a container: `find`, `operator[]` and `erase`; `none` when a
comparison ends the process. -/
structure Container (κ ν : Type*) where
  find : κ → List (κ × ν) → Option (Option ν)
  set : κ → ν → List (κ × ν) → Option (List (κ × ν))
  erase : κ → List (κ × ν) → Option (List (κ × ν))

/-- `BTREEMAP`, with `idgs::store::less`. -/
def BTREEMAP (d : Descriptor) (ν : Type*) : Container (Message d) ν where
  find := Common.OrderedMap.find fun x y => (Protobuf.compare d x y).map fun c => decide (c < 0)
  set := Common.OrderedMap.set fun x y => (Protobuf.compare d x y).map fun c => decide (c < 0)
  erase := Common.OrderedMap.erase fun x y => (Protobuf.compare d x y).map fun c => decide (c < 0)

/-- `HASHMAP`, with `idgs::store::hash_code` and `idgs::store::equals_to`. -/
def HASHMAP (stl : StlHash) (d : Descriptor) (ν : Type*) : Container (Message d) ν where
  find := Common.HashedMap.find (Protobuf.HashCode.hashcode stl d)
    fun x y => (Protobuf.compare d x y).map fun c => decide (c = 0)
  set := Common.HashedMap.set (Protobuf.HashCode.hashcode stl d)
    fun x y => (Protobuf.compare d x y).map fun c => decide (c = 0)
  erase := Common.HashedMap.erase (Protobuf.HashCode.hashcode stl d)
    fun x y => (Protobuf.compare d x y).map fun c => decide (c = 0)

/-- The result code of an operation and the value that it hands back. -/
abbrev Result (ν : Type*) := ResultCode × Option ν

/-- `BasicDataMap::set`; a value that was there is handed back. -/
def set (M : Container κ ν) (key : κ) (value : ν) (m : List (κ × ν)) :
    Option (Result ν × List (κ × ν)) :=
  (M.find key m).bind fun old => (M.set key value m).map fun m => ((.success, old), m)

/-- `BasicDataMap::get`. -/
def get (M : Container κ ν) (key : κ) (m : List (κ × ν)) : Option (Result ν × List (κ × ν)) :=
  (M.find key m).map fun found =>
    match found with
    | none => ((.dataNotFound, none), m)
    | some value => ((.success, some value), m)

/-- `BasicDataMap::remove`. -/
def remove (M : Container κ ν) (key : κ) (m : List (κ × ν)) : Option (Result ν × List (κ × ν)) :=
  (M.find key m).bind fun found =>
    match found with
    | none => some ((.dataNotFound, none), m)
    | some value => (M.erase key m).map fun m => ((.success, some value), m)

/-- The operations on a map. -/
inductive Operation (κ ν : Type*)
  | set (key : κ) (value : ν)
  | get (key : κ)
  | remove (key : κ)

/-- The key of an operation. -/
def Operation.key : Operation κ ν → κ
  | set key _ => key
  | get key | remove key => key

/-- One operation. -/
def apply (M : Container κ ν) : Operation κ ν → List (κ × ν) → Option (Result ν × List (κ × ν))
  | .set key value, m => set M key value m
  | .get key, m => get M key m
  | .remove key, m => remove M key m

/-- A sequence of operations: their results, and the map. -/
def run (M : Container κ ν) : List (Operation κ ν) → List (κ × ν) →
    Option (List (Result ν) × List (κ × ν))
  | [], m => some ([], m)
  | op :: ops, m =>
    (apply M op m).bind fun r => (run M ops r.2).map fun rest => (r.1 :: rest.1, rest.2)

/-! ## The finite map -/

section FiniteMap

variable [DecidableEq κ]

/-- One operation on a finite map. -/
def applyMap : Operation κ ν → StoreMap κ ν → Result ν × StoreMap κ ν
  | .set key value, m => (((m.set key value).1, m.contents key), (m.set key value).2)
  | .get key, m => (m.get key, m)
  | .remove key, m => (((m.remove key).1, (m.remove key).2.1), (m.remove key).2.2)

/-- A sequence of operations on a finite map. -/
def runMap : List (Operation κ ν) → StoreMap κ ν → List (Result ν) × StoreMap κ ν
  | [], m => ([], m)
  | op :: ops, m =>
    ((applyMap op m).1 :: (runMap ops (applyMap op m).2).1, (runMap ops (applyMap op m).2).2)

/-- The entries are those of the finite map. -/
def Represents (entries : List (κ × ν)) (m : StoreMap κ ν) : Prop :=
  ∀ k v, (k, v) ∈ entries ↔ m.contents k = some v

/-- On the keys of `S` a container finds, sets and erases as a finite map does. -/
structure LawfulOn (M : Container κ ν) (S : Set κ) (Ok : List (κ × ν) → Prop) : Prop where
  nil : Ok []
  find : ∀ {m k}, Ok m → k ∈ S → ∃ r, M.find k m = some r ∧ ∀ v, (k, v) ∈ m ↔ r = some v
  set : ∀ {m k}, Ok m → k ∈ S → ∀ v, ∃ m', M.set k v m = some m' ∧ Ok m' ∧
    ∀ e, e ∈ m' ↔ e = (k, v) ∨ (e ∈ m ∧ e.1 ≠ k)
  erase : ∀ {m k}, Ok m → k ∈ S → ∃ m', M.erase k m = some m' ∧ Ok m' ∧
    ∀ e, e ∈ m' ↔ e ∈ m ∧ e.1 ≠ k

variable {M : Container κ ν} {S : Set κ} {Ok : List (κ × ν) → Prop} {m : List (κ × ν)}
    {f : StoreMap κ ν}
  {k : κ}

/-- What is found is what the finite map has. -/
theorem LawfulOn.find_contents (h : LawfulOn M S Ok) (hm : Ok m) (hf : Represents m f)
    (hk : k ∈ S) :
    M.find k m = some (f.contents k) := by
  obtain ⟨r, hr, hmem⟩ := h.find hm hk
  have heq : r = f.contents k := by
    refine Option.ext fun v => ?_
    rw [← hmem v, hf k v]
  rw [hr, heq]

theorem represents_set (hf : Represents m f) {m' : List (κ × ν)} {v : ν}
    (hmem : ∀ e, e ∈ m' ↔ e = (k, v) ∨ (e ∈ m ∧ e.1 ≠ k)) : Represents m' (f.set k v).2 := by
  intro k' v'
  rw [hmem, StoreMap.contents_set, hf]
  by_cases hk : k' = k
  · subst hk
    simp [eq_comm]
  · simp [hk]

theorem represents_erase (hf : Represents m f) {m' : List (κ × ν)}
    (hmem : ∀ e, e ∈ m' ↔ e ∈ m ∧ e.1 ≠ k) : Represents m' (f.remove k).2.2 := by
  intro k' v'
  rw [hmem, StoreMap.contents_remove, hf]
  by_cases hk : k' = k
  · subst hk
    simp
  · simp [hk]

/-- One operation gives the result that the finite map gives. -/
theorem LawfulOn.apply (h : LawfulOn M S Ok) (hm : Ok m) (hf : Represents m f) {op : Operation κ ν}
    (hk : op.key ∈ S) :
    ∃ m', DataMap.apply M op m = some ((applyMap op f).1, m') ∧ Ok m' ∧
      Represents m' (applyMap op f).2 := by
  have hfind := h.find_contents hm hf hk
  cases op with
  | set key value =>
    obtain ⟨m', hm', hok, hmem⟩ := h.set hm hk value
    refine ⟨m', ?_, hok, represents_set hf hmem⟩
    simp only [DataMap.apply, DataMap.set, Operation.key] at hfind hm' ⊢
    rw [hfind, Option.bind_some, hm']
    rfl
  | get key =>
    refine ⟨m, ?_, hm, hf⟩
    simp only [DataMap.apply, DataMap.get, Operation.key] at hfind ⊢
    rw [hfind]
    simp only [applyMap, StoreMap.get, StoreMap.contents, Option.map_some]
    cases f.lookup key <;> rfl
  | remove key =>
    obtain ⟨m', hm', hok, hmem⟩ := h.erase hm hk
    simp only [DataMap.apply, DataMap.remove, Operation.key] at hfind hm' ⊢
    rw [hfind, Option.bind_some]
    have hlookup : f.contents key = f.lookup key := rfl
    cases hcase : f.lookup key with
    | none =>
      rw [hlookup, hcase]
      have hsame : applyMap (.remove key) f = ((.dataNotFound, none), f) := by
        simp only [applyMap, StoreMap.remove, hcase]
      rw [hsame]
      exact ⟨m, rfl, hm, hf⟩
    | some value =>
      rw [hlookup, hcase]
      have hcode : (applyMap (.remove key) f).1 = (.success, some value) := by
        simp only [applyMap, StoreMap.remove, hcase]
      rw [hcode]
      refine ⟨m', ?_, hok, represents_erase hf hmem⟩
      simp only
      rw [hm']
      rfl

/-- A sequence of operations gives the results that the finite map gives, and its entries. -/
theorem LawfulOn.run (h : LawfulOn M S Ok) (hm : Ok m) (hf : Represents m f)
    {ops : List (Operation κ ν)} (hkeys : ∀ op ∈ ops, op.key ∈ S) :
    ∃ m', DataMap.run M ops m = some ((runMap ops f).1, m') ∧ Represents m' (runMap ops f).2 := by
  induction ops generalizing m f with
  | nil => exact ⟨m, rfl, hf⟩
  | cons op ops ih =>
    obtain ⟨m₁, hop, hok, hf₁⟩ := h.apply hm hf (hkeys op List.mem_cons_self)
    obtain ⟨m₂, hops, hf₂⟩ := ih hok hf₁ fun op' hop' => hkeys op' (List.mem_cons_of_mem op hop')
    refine ⟨m₂, ?_, hf₂⟩
    rw [DataMap.run, hop, Option.bind_some, hops]
    rfl

end FiniteMap

/-! ## Both containers -/

section Messages

variable {d : Descriptor} {S : Set (Message d)}

section

variable (hS : ∀ k ∈ S, ∀ k' ∈ S, Faithful d k k')

include hS

/-- On faithful keys `idgs::store::less` is the order of the messages. -/
theorem less_agrees :
    Common.OrderedMap.Agrees
    (fun x y => (Protobuf.compare d x y).map fun c => decide (c < 0)) S := by
  intro k hk k' hk'
  obtain ⟨c, hc, hlt, -⟩ := Protobuf.compare_right (hS k hk k' hk')
  simp only [hc, Option.map_some, hlt]

/-- On faithful keys `idgs::store::equals_to` is equality. -/
theorem equals_to_agrees :
    Common.HashedMap.Agrees
    (fun x y => (Protobuf.compare d x y).map fun c => decide (c = 0)) S := by
  intro k hk k' hk'
  obtain ⟨c, hc, -, heq⟩ := Protobuf.compare_right (hS k hk k' hk')
  simp only [hc, Option.map_some, heq]

theorem BTREEMAP_lawfulOn :
    LawfulOn (BTREEMAP d ν) S (Common.OrderedMap.Sorted S) where
  nil := Common.OrderedMap.Sorted.nil
  find := fun hm hk => Common.OrderedMap.find_eq (less_agrees hS) hm hk
  set := fun hm hk v => Common.OrderedMap.set_eq (less_agrees hS) hm hk v
  erase := fun hm hk => Common.OrderedMap.erase_eq (less_agrees hS) hm hk

end

theorem HASHMAP_lawfulOn (stl : StlHash) (hS : ∀ k ∈ S, ∀ k' ∈ S, Faithful d k k') :
    LawfulOn (HASHMAP stl d ν) S (Common.HashedMap.Keyed S) where
  nil := Common.HashedMap.Keyed.nil
  find := fun hm hk => Common.HashedMap.find_eq (equals_to_agrees hS) hm hk
  set := fun hm hk v => Common.HashedMap.set_eq (equals_to_agrees hS) hm hk v
  erase := fun hm hk => Common.HashedMap.erase_eq (equals_to_agrees hS) hm hk

/-- Both stores give the results of the finite map and hold its entries. -/
def Agree (stl : StlHash) (d : Descriptor) (ops : List (Operation (Message d) ν)) : Prop :=
  ∃ tree table,
    run (BTREEMAP d ν) ops [] = some ((runMap ops ∅).1, tree) ∧
    run (HASHMAP stl d ν) ops [] = some ((runMap ops ∅).1, table) ∧
    Represents tree (runMap ops ∅).2 ∧ Represents table (runMap ops ∅).2

/-- Every sequence of operations whose keys are pairwise faithful has the same results and leaves
the same entries in an ordered store, an unordered one and a finite map. -/
theorem agree_of_faithful (stl : StlHash) {ops : List (Operation (Message d) ν)}
    (hkeys : ∀ op ∈ ops, ∀ op' ∈ ops, Faithful d op.key op'.key) : Agree stl d ops := by
  have hS : ∀ k ∈ { k | ∃ op ∈ ops, op.key = k }, ∀ k' ∈ { k | ∃ op ∈ ops, op.key = k },
      Faithful d k k' := by
    rintro k ⟨op, hop, rfl⟩ k' ⟨op', hop', rfl⟩
    exact hkeys op hop op' hop'
  have hempty : Represents ([] : List (Message d × ν)) (∅ : StoreMap (Message d) ν) := by
    intro k v
    simp [StoreMap.contents_empty]
  obtain ⟨tree, htree, htreeOk⟩ :=
    (BTREEMAP_lawfulOn hS).run (BTREEMAP_lawfulOn (ν := ν) hS).nil hempty
    fun op hop => ⟨op, hop, rfl⟩
  obtain ⟨table, htable, htableOk⟩ := (HASHMAP_lawfulOn stl hS).run
    (HASHMAP_lawfulOn (ν := ν) stl hS).nil hempty fun op hop => ⟨op, hop, rfl⟩
  exact ⟨tree, table, htree, htable, htreeOk, htableOk⟩

end Messages

/-- A key with one `uint64` field. -/
def oneUint64 : Descriptor := .scalar .uint64 .nil

/-- The key of a number. -/
def keyOf (n : Fin (2 ^ 64)) : Message oneUint64 :=
  (⟨n.val, Int.natCast_nonneg _, by have hn := n.isLt; omega⟩, ())

/-- Hash codes as the usual library has them for integers; the others play no part here. -/
def identityHash : StlHash where
  uint64 := fun v => .ofInt v
  int64 := fun v => .ofInt v
  uint32 := fun v => .ofInt v
  int32 := fun v => .ofInt v
  string := fun _ => 0
  double := fun _ => 0
  float := fun _ => 0
  bool := fun v => if v then 1 else 0
  pointer := fun _ _ => 0

/-- Keys that lie close together. -/
def closeKeys : List (Operation (Message oneUint64) ℕ) :=
  [.set (keyOf 7) 10, .set (keyOf 9) 20, .get (keyOf 7), .remove (keyOf 9)]

theorem agree_of_faithful_closeKeys : Agree identityHash oneUint64 closeKeys := by
  refine agree_of_faithful identityHash fun op hop op' hop' => ?_
  have hclose : ∀ op ∈ closeKeys, op.key = keyOf 7 ∨ op.key = keyOf 9 := by
    intro op hop
    simp only [closeKeys, List.mem_cons, List.not_mem_nil, or_false] at hop
    rcases hop with rfl | rfl | rfl | rfl
    · exact .inl rfl
    · exact .inr rfl
    · exact .inl rfl
    · exact .inr rfl
  rcases hclose op hop with h | h <;> rcases hclose op' hop' with h' | h' <;> rw [h, h'] <;>
    exact ⟨rfl, fun _ => trivial⟩

/-- Keys whose difference is a multiple of `2 ^ 32`. -/
def farKeys : List (Operation (Message oneUint64) ℕ) :=
  [.set (keyOf 0) 10, .set (keyOf ⟨2 ^ 32, by decide⟩) 20, .get (keyOf 0)]

/-- The ordered store takes the two keys for one. -/
theorem not_agree_of_farKeys :
    ¬ ∀ ops : List (Operation (Message oneUint64) ℕ), Agree identityHash oneUint64 ops := by
  intro hall
  obtain ⟨tree, table, htree, -⟩ := hall farKeys
  have hbool : ((run (BTREEMAP oneUint64 ℕ) farKeys []).map fun r => r.1[2]?) =
      some (some (.success, some 20)) := by
    decide +kernel
  rw [htree] at hbool
  have hmap : ((runMap farKeys (∅ : StoreMap (Message oneUint64) ℕ)).1[2]?) =
      some (.success, some 10) := by
    decide +kernel
  rw [Option.map_some, hmap] at hbool
  cases hbool

end DataMap

end Idgs.Store
