import Mathlib.Data.List.AList
import Idgs.Common.Replay

/-!
# The map of a partition

`StoreMap` holds the entries of a partition, in some order, with a set, a get and a remove. A
client's insert and update both set a key. What a write does is recorded as a `RedoLog`, with the
name of the internal operation, so that it can be repeated on another member.
-/

namespace Idgs.Store

/-- The result codes of the map operations. -/
inductive ResultCode
  | success | dataNotFound | notSupport
deriving DecidableEq

/-- `StoreMap`: entries with distinct keys. -/
abbrev StoreMap (κ ν : Type*) := AList fun _ : κ => ν

namespace StoreMap

variable {κ ν : Type*} [DecidableEq κ]

/-- `BasicDataMap::set`. -/
def set (m : StoreMap κ ν) (key : κ) (value : ν) : ResultCode × StoreMap κ ν :=
  (.success, m.insert key value)

/-- `BasicDataMap::get`. -/
def get (m : StoreMap κ ν) (key : κ) : ResultCode × Option ν :=
  match m.lookup key with
  | some value => (.success, some value)
  | none => (.dataNotFound, none)

/-- `BasicDataMap::remove`, with the value that was there. -/
def remove (m : StoreMap κ ν) (key : κ) : ResultCode × Option ν × StoreMap κ ν :=
  match m.lookup key with
  | some value => (.success, some value, m.erase key)
  | none => (.dataNotFound, none, m)

/-- `BasicDataMap::size`. -/
def size (m : StoreMap κ ν) : ℕ := m.entries.length

/-- What the map holds for each key. -/
def contents (m : StoreMap κ ν) : κ → Option ν := fun key => m.lookup key

@[simp] theorem contents_set (m : StoreMap κ ν) (key : κ) (value : ν) :
    contents (m.set key value).2 = Function.update (contents m) key (some value) := by
  funext k
  by_cases hk : k = key
  · subst hk
    simp [contents, set]
  · simp [contents, set, hk]

@[simp] theorem contents_remove (m : StoreMap κ ν) (key : κ) :
    contents (m.remove key).2.2 = Function.update (contents m) key none := by
  funext k
  unfold remove
  cases hlookup : m.lookup key with
  | none =>
    by_cases hk : k = key
    · subst hk
      simpa [contents] using hlookup
    · simp [contents, hk]
  | some value =>
    by_cases hk : k = key
    · subst hk
      simp [contents]
    · simp [contents, hk, AList.lookup_erase_ne hk]

theorem contents_empty : contents (∅ : StoreMap κ ν) = fun _ => none := rfl

theorem contents_of_size_eq_zero {m : StoreMap κ ν} (h : size m = 0) :
    contents m = fun _ => none := by
  have hempty : m = ∅ := AList.ext (List.eq_nil_of_length_eq_zero h)
  rw [hempty, contents_empty]

/-- Writing entries with distinct keys one after the other. -/
theorem writeAll_entries_apply {m : κ → Option ν} {l : List (Sigma fun _ : κ => ν)}
    (hl : l.NodupKeys) (k : κ) :
    Common.writeAll m (l.map fun e => (e.1, some e.2)) k = (l.dlookup k).or (m k) := by
  induction l generalizing m with
  | nil => rfl
  | cons e l ih =>
    obtain ⟨hnot, htail⟩ := List.nodupKeys_cons.mp hl
    rw [List.map_cons, Common.writeAll_cons, ih htail]
    by_cases hk : k = e.1
    · subst hk
      rw [List.dlookup_eq_none.mpr hnot, Option.none_or, Function.update_self]
      rw [show e = ⟨e.1, e.2⟩ from rfl, List.dlookup_cons_eq, Option.some_or]
    · rw [Function.update_of_ne hk, List.dlookup_cons_ne _ _ hk]

/-- A map is what writing its entries makes of nothing. -/
theorem writeAll_entries (m : StoreMap κ ν) :
    Common.writeAll (fun _ => none) (m.entries.map fun e => (e.1, some e.2)) = contents m := by
  funext k
  rw [writeAll_entries_apply m.nodupKeys, Option.or_none]
  rfl

end StoreMap

/-! ## Writes -/

/-- The internal operations that a redo log entry names. -/
inductive OpName
  | internalInsert | internalUpdate | internalDelete
deriving DecidableEq

/-- `MigrationRedoLog` and `SyncRedoLog`. -/
structure RedoLog (κ ν : Type*) where
  opName : OpName
  key : κ
  value : Option ν
deriving DecidableEq

/-- A client's write request. -/
inductive Request (κ ν : Type*)
  | insert (key : κ) (value : ν)
  | update (key : κ) (value : ν)
  | delete (key : κ)
deriving DecidableEq

namespace Request

variable {κ ν : Type*} [DecidableEq κ]

/-- The key that the request writes. -/
def key : Request κ ν → κ
  | insert key _ => key
  | update key _ => key
  | delete key => key

/-- What the key holds afterwards. -/
def written : Request κ ν → Option ν
  | insert _ value | update _ value => some value
  | delete _ => none

/-- The request on a partition: `put` for an insert or an update, `remove` for a delete. -/
def apply (m : StoreMap κ ν) : Request κ ν → StoreMap κ ν
  | insert key value | update key value => (m.set key value).2
  | delete key => (m.remove key).2.2

/-- What `put` or `remove` returns for the request. -/
def resultCode (m : StoreMap κ ν) : Request κ ν → ResultCode
  | insert key value | update key value => (m.set key value).1
  | delete key => (m.remove key).1

/-- What the request puts in the redo log. -/
def redoLog : Request κ ν → RedoLog κ ν
  | insert key value => ⟨.internalInsert, key, some value⟩
  | update key value => ⟨.internalUpdate, key, some value⟩
  | delete key => ⟨.internalDelete, key, none⟩

@[simp] theorem contents_apply (m : StoreMap κ ν) (r : Request κ ν) :
    (r.apply m).contents = Function.update m.contents r.key r.written := by
  cases r with
  | insert key value | update key value => exact StoreMap.contents_set m key value
  | delete key => exact StoreMap.contents_remove m key

omit [DecidableEq κ] in
@[simp] theorem redoLog_key (r : Request κ ν) : r.redoLog.key = r.key := by cases r <;> rfl

/-- A request as a write of the library. -/
def write (r : Request κ ν) : κ × Option ν := (r.key, r.written)

end Request

end Idgs.Store
