import Idgs.Common.SortedWindow
import Idgs.Rdd.Partitioning
import Idgs.Store.DataMap
import Mathlib.Data.List.Flatten

/-!
# The local cache of a group RDD

A partition of a group RDD sends the rows that it is given to the partitions of their keys. While a
partition of its upstream is transformed the rows are kept in a cache, from which all rows of a key
go out in one message; what is left in the cache is sent in the end. The partition goes on using the
cache when single rows are handed on to it later.
-/

namespace Idgs.Rdd

open Function List

open Common (insertBehind insertBehind_perm)
open Protobuf (Descriptor Message StlHash stringKey)

/-- RE_PARTITION: a key and its values, for a partition. -/
structure RePartition (d : Descriptor) (ν : Type*) where
  partition : ℕ
  key : Message d
  values : List ν

/-- `PairRddPartition`: what it needs to send rows to others, and what it has sent. -/
structure Repartitioning (d : Descriptor) (ν : Type*) where
  localCache : List (Message d × ν) := []
  useRepartitionLocalCache : Bool := false
  sent : List (RePartition d ν) := []

/-- A transform: of the rows of a partition of the upstream, or of a row that it hands on. The rows
are those that the operator has made, null pointers included. -/
inductive GroupTransform (d : Descriptor) (ν : Type*)
  | batch (rows : List (Option (Message d) × Option ν))
  | row (key : Option (Message d)) (value : Option ν)

namespace Repartitioning

variable {d : Descriptor} {ν : Type*}

/-! ## The code -/

/-- `idgs::store::less`. -/
def less (row row' : Message d × ν) : Bool :=
  ((Protobuf.compare d row.1 row'.1).map fun c => decide (c < 0)).getD false

/-- `idgs::store::equals_to` for a key and a pointer to a key. -/
def equalsTo (key : Message d) : Option (Message d) → Bool
  | none => false
  | some key' => ((Protobuf.compare d key key').map fun c => decide (c = 0)).getD false

section Code

variable (stl : StlHash) (partitionCount batchMessage : ℕ)

/-- `PairRddPartition::repartition` of some values of a key. -/
def repartitionValues (key : Option (Message d)) (values : List ν) : List (RePartition d ν) :=
  match key with
  | none => []
  | some key => if values.isEmpty then []
      else [⟨calcPartitionId stl partitionCount key, key, values⟩]

/-- The loop of `PairRddPartition::flushLocalCache`. -/
def flushRows (key : Option (Message d)) (values : List ν) :
    List (Message d × ν) → List (RePartition d ν)
  | [] => repartitionValues stl partitionCount key values
  | row :: rows =>
    if equalsTo row.1 key then flushRows key (values ++ [row.2]) rows
    else repartitionValues stl partitionCount key values ++ flushRows (some row.1) [row.2] rows

/-- `PairRddPartition::flushLocalCache`. -/
def flushLocalCache (s : Repartitioning d ν) : Repartitioning d ν :=
  if s.localCache.isEmpty then s
  else { s with
    localCache := [], sent := s.sent ++ flushRows stl partitionCount none [] s.localCache }

/-- `PairRddPartition::repartition` of a row. -/
def repartition (s : Repartitioning d ν) (key : Option (Message d)) (value : Option ν) :
    Repartitioning d ν :=
  match key, value with
  | some key, some value =>
    if s.useRepartitionLocalCache then
      let s := { s with localCache := insertBehind less s.localCache (key, value) }
      if batchMessage < s.localCache.length then flushLocalCache stl partitionCount s else s
    else { s with sent := s.sent ++ [⟨calcPartitionId stl partitionCount key, key, [value]⟩] }
  | _, _ => s

/-- `GroupTransformer::transform` of a partition, and `Transformer::transform` of a row. -/
def transform (s : Repartitioning d ν) : GroupTransform d ν → Repartitioning d ν
  | .batch rows =>
    flushLocalCache stl partitionCount
      (rows.foldl (fun s row => repartition stl partitionCount batchMessage s row.1 row.2)
        { s with useRepartitionLocalCache := true })
  | .row key value => repartition stl partitionCount batchMessage s key value

/-- One transform after the other. -/
def transforms (ts : List (GroupTransform d ν)) : Repartitioning d ν :=
  ts.foldl (transform stl partitionCount batchMessage) {}

end Code

/-! ## What is promised -/

/-- The row, unless a pointer is null. -/
def rowOf (key : Option (Message d)) (value : Option ν) : List (Message d × ν) :=
  match key, value with
  | some key, some value => [(key, value)]
  | _, _ => []

/-- The rows of a transform. -/
def rowsOf : GroupTransform d ν → List (Message d × ν)
  | .batch rows => rows.flatMap fun row => rowOf row.1 row.2
  | .row key value => rowOf key value

/-- The rows that have been sent to a partition. -/
def delivered (sent : List (RePartition d ν)) (p : ℕ) : List (Message d × ν) :=
  (sent.filter fun message => message.partition = p).flatMap fun message =>
    message.values.map (message.key, ·)

variable (stl : StlHash) (partitionCount batchMessage : ℕ)

/-- The rows whose keys belong to a partition. -/
def rowsFor (p : ℕ) (rows : List (Message d × ν)) : List (Message d × ν) :=
  rows.filter fun row => calcPartitionId stl partitionCount row.1 = p

/-- Every row has been sent once, to the partition of its key, and none is left in the cache. -/
def Repartitioned (ts : List (GroupTransform d ν)) : Prop :=
  (transforms stl partitionCount batchMessage ts).localCache = [] ∧
    ∀ p, (delivered (transforms stl partitionCount batchMessage ts).sent p).Perm
      (rowsFor stl partitionCount p (ts.flatMap rowsOf))

/-- A row is handed on after the rows of a partition. -/
def HandsOnLate (ts : List (GroupTransform d ν)) : Prop :=
  ∃ before key value after, ts = before ++ .row key value :: after ∧ rowOf key value ≠ [] ∧
    ∃ rows, .batch rows ∈ before

/-! ## What is sent -/

/-- The comparison tells the keys apart. -/
def ToldApart (S : Set (Message d)) : Prop :=
  ∀ k ∈ S, ∀ k' ∈ S, ∃ c, Protobuf.compare d k k' = some c ∧ (c = 0 → k = k')

variable {stl partitionCount batchMessage} {S : Set (Message d)}

theorem eq_of_equalsTo (hS : ToldApart S) {key key' : Message d} (hkey : key ∈ S) (hkey' : key' ∈ S)
    (h : equalsTo key (some key') = true) : key = key' := by
  obtain ⟨c, hc, heq⟩ := hS key hkey key' hkey'
  rw [equalsTo, hc] at h
  exact heq (of_decide_eq_true h)

theorem delivered_append (sent sent' : List (RePartition d ν)) (p : ℕ) :
    delivered (sent ++ sent') p = delivered sent p ++ delivered sent' p := by
  rw [delivered, filter_append, flatMap_append]
  rfl

theorem rowsFor_append (p : ℕ) (rows rows' : List (Message d × ν)) :
    rowsFor stl partitionCount p
    (rows ++ rows') = rowsFor stl partitionCount p rows ++ rowsFor stl partitionCount p rows' :=
  filter_append _ _

variable (stl partitionCount) in
theorem delivered_repartitionValues (key : Message d) (values : List ν) (p : ℕ) :
    delivered (repartitionValues stl partitionCount (some key) values) p =
      rowsFor stl partitionCount p (values.map (key, ·)) := by
  have hrows : rowsFor stl partitionCount p (values.map (key, ·)) =
      if calcPartitionId stl partitionCount key = p then values.map (key, ·) else [] := by
    unfold rowsFor
    rw [filter_map]
    by_cases hp : calcPartitionId stl partitionCount key = p <;> simp [comp_def, hp]
  rw [hrows]
  unfold repartitionValues delivered
  simp only
  cases values with
  | nil => rw [map_nil, ite_self]; rfl
  | cons value values =>
    by_cases hp : calcPartitionId stl partitionCount key = p <;> simp [hp]

variable {rows : List (Message d × ν)}

/-- The loop sends the values that it has for a key and all rows that follow. -/
theorem delivered_flushRows (hS : ToldApart S) {key : Message d} (hkey : key ∈ S) (values : List ν)
    (hrows : ∀ row ∈ rows, row.1 ∈ S) (p : ℕ) :
    delivered (flushRows stl partitionCount (some key) values rows) p =
      rowsFor stl partitionCount p (values.map (key, ·) ++ rows) := by
  induction rows generalizing key values with
  | nil => rw [append_nil, flushRows, delivered_repartitionValues]
  | cons row rows ih =>
    have hrow := hrows row mem_cons_self
    replace ih := fun {key : Message d} (hkey : key ∈ S) values =>
      ih hkey values fun row hrow => hrows row (mem_cons_of_mem _ hrow)
    rw [flushRows]
    by_cases heq : equalsTo row.1 (some key) = true
    · obtain rfl := eq_of_equalsTo hS hrow hkey heq
      rw [if_pos heq, ih hkey, map_append, append_assoc]
      rfl
    · rw [if_neg heq, delivered_append, delivered_repartitionValues, ih hrow, ← rowsFor_append]
      rfl

/-- All rows of the cache are sent. -/
theorem delivered_flush (hS : ToldApart S) (hrows : ∀ row ∈ rows, row.1 ∈ S) (p : ℕ) : delivered
    (flushRows stl partitionCount none [] rows) p = rowsFor stl partitionCount p rows := by
  cases rows with
  | nil => rfl
  | cons row rows =>
    rw [flushRows, if_neg (by rw [equalsTo]; exact Bool.false_ne_true)]
    exact delivered_flushRows hS (hrows row mem_cons_self) [row.2]
      (fun row hrow => hrows row (mem_cons_of_mem _ hrow)) p

/-! ## Runs -/

/-- All rows have been sent to the partitions of their keys or are in the cache. -/
structure Accounted (stl : StlHash) (partitionCount : ℕ) (S : Set (Message d))
    (rows : List (Message d × ν))
    (s : Repartitioning d ν) : Prop where
  keys : ∀ row ∈ s.localCache, row.1 ∈ S
  perm : ∀ p,
    (delivered s.sent p ++ rowsFor stl partitionCount p s.localCache).Perm
    (rowsFor stl partitionCount p rows)

theorem Accounted.flush (hS : ToldApart S) {s : Repartitioning d ν}
    (h : Accounted stl partitionCount S rows s) :
    Accounted stl partitionCount S rows (flushLocalCache stl partitionCount s) ∧
      (flushLocalCache stl partitionCount s).localCache = [] ∧
      (flushLocalCache stl partitionCount s).useRepartitionLocalCache =
        s.useRepartitionLocalCache := by
  unfold flushLocalCache
  split
  · rename_i hempty
    exact ⟨h, List.isEmpty_iff.mp hempty, rfl⟩
  · refine ⟨⟨fun row hrow => (by cases hrow), fun p => ?_⟩, rfl, rfl⟩
    show (delivered (s.sent ++ _) p ++ []).Perm _
    rw [append_nil, delivered_append, delivered_flush hS h.keys]
    exact h.perm p

variable (batchMessage) in
/-- A row is sent or cached. -/
theorem Accounted.repartition (hS : ToldApart S) {s : Repartitioning d ν}
    (h : Accounted stl partitionCount S rows s) {key : Option (Message d)} {value : Option ν}
    (hkey : ∀ row ∈ rowOf key value, row.1 ∈ S) :
    Accounted stl partitionCount S (rows ++ rowOf key value)
    (repartition stl partitionCount batchMessage s key value) ∧
      (Repartitioning.repartition stl partitionCount batchMessage s key
        value).useRepartitionLocalCache =
        s.useRepartitionLocalCache := by
  cases key with
  | none => exact ⟨(append_nil rows).symm ▸ h, rfl⟩
  | some key =>
    cases value with
    | none => exact ⟨(append_nil rows).symm ▸ h, rfl⟩
    | some value =>
      have hkey' : key ∈ S := hkey (key, value) mem_cons_self
      rw [Repartitioning.repartition, rowOf]
      simp only
      by_cases huse : s.useRepartitionLocalCache = true
      · have hinsert := insertBehind_perm less s.localCache (key, value)
        have hcached : Accounted stl partitionCount S (rows ++ [(key, value)])
            { s with localCache := insertBehind less s.localCache (key, value) } := by
          refine ⟨fun row hrow => ?_, fun p => ?_⟩
          · rcases mem_cons.mp (hinsert.mem_iff.mp hrow) with rfl | hrow
            · exact hkey'
            · exact h.keys row hrow
          · rw [rowsFor_append]
            refine List.Perm.trans ?_ ((h.perm p).append_right _)
            rw [append_assoc, ← rowsFor_append]
            refine List.Perm.append_left _ ((hinsert.trans ?_).filter _)
            exact (perm_append_singleton _ _).symm
        rw [if_pos huse]
        split
        · obtain ⟨hflush, -, hflag⟩ := hcached.flush hS
          exact ⟨hflush, hflag⟩
        · exact ⟨hcached, rfl⟩
      · rw [if_neg huse]
        refine ⟨⟨h.keys, fun p => ?_⟩, rfl⟩
        have hone := delivered_repartitionValues stl partitionCount key [value] p
        show (delivered (s.sent ++ repartitionValues stl partitionCount (some key) [value]) p ++
            _).Perm _
        rw [delivered_append, hone, rowsFor_append, append_assoc]
        refine List.Perm.trans (List.Perm.append_left _ perm_append_comm) ?_
        rw [← append_assoc]
        exact (h.perm p).append_right _

variable (batchMessage) in
/-- The rows of a batch, before what is left in the cache is sent. -/
theorem Accounted.foldl (hS : ToldApart S)
    {batch : List (Option (Message d) × Option ν)} {s : Repartitioning d ν}
    (h : Accounted stl partitionCount S rows s)
    (hbatch : ∀ row ∈ rowsOf (.batch batch), row.1 ∈ S) :
    Accounted stl partitionCount S (rows ++ rowsOf (.batch batch))
        (batch.foldl (fun s row =>
          Repartitioning.repartition stl partitionCount batchMessage s row.1 row.2) s) ∧
      (batch.foldl (fun s row =>
        Repartitioning.repartition stl partitionCount batchMessage s row.1 row.2)
        s).useRepartitionLocalCache = s.useRepartitionLocalCache := by
  induction batch generalizing rows s with
  | nil => exact ⟨(append_nil rows).symm ▸ h, rfl⟩
  | cons row batch ih =>
    have hcons : rowsOf (.batch (row :: batch)) = rowOf row.1 row.2 ++ rowsOf (.batch batch) :=
      flatMap_cons
    rw [hcons] at hbatch
    obtain ⟨hrow, hflag⟩ := h.repartition batchMessage hS
      fun row hrow => hbatch row (mem_append_left _ hrow)
    obtain ⟨hrest, hflag'⟩ := ih hrow fun row hrow => hbatch row (mem_append_right _ hrow)
    rw [hcons, ← append_assoc]
    exact ⟨hrest, hflag'.trans hflag⟩

variable (batchMessage) in
/-- After a transform; the cache is used from the first batch on. -/
theorem Accounted.transform (hS : ToldApart S) {s : Repartitioning d ν}
    (h : Accounted stl partitionCount S rows s) {t : GroupTransform d ν}
    (ht : ∀ row ∈ rowsOf t, row.1 ∈ S) :
    Accounted stl partitionCount S (rows ++ rowsOf t)
    (transform stl partitionCount batchMessage s t) ∧
      ((transform stl partitionCount batchMessage s t).useRepartitionLocalCache = true ↔
        s.useRepartitionLocalCache = true ∨ ∃ batch, t = .batch batch) := by
  cases t with
  | batch batch =>
    have hstart : Accounted stl partitionCount S rows { s with
      useRepartitionLocalCache := true } := ⟨h.keys, h.perm⟩
    obtain ⟨hloop, hflag⟩ := hstart.foldl batchMessage hS ht
    obtain ⟨hflush, -, hflag'⟩ := hloop.flush hS
    exact ⟨hflush, iff_of_true (hflag'.trans hflag) (.inr ⟨batch, rfl⟩)⟩
  | row key value =>
    obtain ⟨hrow, hflag⟩ := h.repartition batchMessage hS ht
    refine ⟨hrow, ?_⟩
    rw [show (Repartitioning.transform stl partitionCount batchMessage s
      (.row key value)).useRepartitionLocalCache = s.useRepartitionLocalCache from hflag]
    refine ⟨.inl, ?_⟩
    rintro (huse | ⟨batch, hbatch⟩)
    · exact huse
    · cases hbatch

theorem transforms_concat (ts : List (GroupTransform d ν)) (t : GroupTransform d ν) :
    transforms stl partitionCount batchMessage (ts ++ [t]) =
      transform stl partitionCount batchMessage
      (transforms stl partitionCount batchMessage ts) t := by
  rw [transforms, foldl_append]
  rfl

variable (stl partitionCount batchMessage) in
/-- After any transforms all rows are accounted for. -/
theorem accounted_transforms (hS : ToldApart S) {ts : List (GroupTransform d ν)}
    (hkeys : ∀ t ∈ ts, ∀ row ∈ rowsOf t, row.1 ∈ S) :
    Accounted stl partitionCount S (ts.flatMap rowsOf)
    (transforms stl partitionCount batchMessage ts) ∧
      ((transforms stl partitionCount batchMessage ts).useRepartitionLocalCache = true ↔
        ∃ batch, GroupTransform.batch batch ∈ ts) := by
  induction ts using List.reverseRecOn with
  | nil =>
    refine ⟨⟨fun row hrow => (by cases hrow), fun p => List.Perm.refl _⟩, ?_⟩
    exact iff_of_false Bool.false_ne_true fun ⟨batch, hbatch⟩ => by cases hbatch
  | append_singleton ts t ih =>
    obtain ⟨hall, hflag⟩ := ih fun t' ht' => hkeys t' (mem_append_left _ ht')
    obtain ⟨hnext, hflag'⟩ := hall.transform batchMessage hS
      (hkeys t (mem_append_right _ mem_cons_self))
    rw [transforms_concat, flatMap_append, flatMap_singleton]
    refine ⟨hnext, hflag'.trans ?_⟩
    rw [hflag]
    constructor
    · rintro (⟨batch, hbatch⟩ | ⟨batch, rfl⟩)
      · exact ⟨batch, mem_append_left _ hbatch⟩
      · exact ⟨batch, mem_append_right _ mem_cons_self⟩
    · rintro ⟨batch, hbatch⟩
      rcases mem_append.mp hbatch with hbatch | hbatch
      · exact .inl ⟨batch, hbatch⟩
      · exact .inr ⟨batch, (mem_singleton.mp hbatch).symm⟩

/-- Only what is in the cache has not been sent. -/
theorem repartitioned_iff_cache (hS : ToldApart S) {ts : List (GroupTransform d ν)}
    (hkeys : ∀ t ∈ ts, ∀ row ∈ rowsOf t, row.1 ∈ S) :
    Repartitioned stl partitionCount batchMessage ts ↔
      (transforms stl partitionCount batchMessage ts).localCache = [] := by
  refine ⟨fun h => h.1, fun hnil => ⟨hnil, fun p => ?_⟩⟩
  have hperm := (accounted_transforms stl partitionCount batchMessage hS hkeys).1.perm p
  rw [hnil] at hperm
  rwa [show rowsFor stl partitionCount p ([] : List (Message d × ν)) = [] from rfl,
    append_nil] at hperm

/-- A batch leaves the cache empty. -/
theorem cache_batch (s : Repartitioning d ν) (batch : List (Option (Message d) × Option ν)) :
    (transform stl partitionCount batchMessage s (.batch batch)).localCache = [] := by
  show (flushLocalCache stl partitionCount _).localCache = []
  unfold flushLocalCache
  split
  · rename_i hempty
    exact List.isEmpty_iff.mp hempty
  · rfl

/-- What a single row does to an empty cache. -/
theorem cache_row {s : Repartitioning d ν} (hnil : s.localCache = []) (key : Option (Message d))
    (value : Option ν) :
    (transform stl partitionCount batchMessage s (.row key value)).localCache = [] ↔
      ¬ (s.useRepartitionLocalCache = true ∧ rowOf key value ≠ [] ∧ 0 < batchMessage) := by
  cases key with
  | none => exact iff_of_true hnil fun h => h.2.1 rfl
  | some key =>
    cases value with
    | none => exact iff_of_true hnil fun h => h.2.1 rfl
    | some value =>
      show (Repartitioning.repartition stl partitionCount batchMessage s (some key)
          (some value)).localCache = [] ↔ _
      rw [Repartitioning.repartition]
      by_cases huse : s.useRepartitionLocalCache = true
      · have hinsert : insertBehind less s.localCache (key, value) = [(key, value)] := by
          rw [hnil]
          rfl
        rw [if_pos huse, hinsert]
        simp only [length_singleton]
        by_cases hbatch : batchMessage < 1
        · rw [if_pos hbatch]
          refine iff_of_true rfl fun h => ?_
          omega
        · rw [if_neg hbatch]
          exact iff_of_false (cons_ne_nil _ _) fun h =>
            h ⟨huse, cons_ne_nil _ _, by omega⟩
      · rw [if_neg huse]
        exact iff_of_true hnil fun h => huse h.1

theorem HandsOnLate.concat {ts : List (GroupTransform d ν)} (h : HandsOnLate ts)
    (t : GroupTransform d ν) :
    HandsOnLate (ts ++ [t]) := by
  obtain ⟨before, key, value, after, rfl, hrow, hbatch⟩ := h
  exact ⟨before, key, value, after ++ [t], by rw [append_assoc, cons_append], hrow,
    hbatch⟩

/-- Without late rows, or with a cache that is sent at once, nothing is left in the cache. -/
theorem cache_eq_nil (hS : ToldApart S) {ts : List (GroupTransform d ν)}
    (hkeys : ∀ t ∈ ts, ∀ row ∈ rowsOf t, row.1 ∈ S) (h : batchMessage = 0 ∨ ¬ HandsOnLate ts) :
    (transforms stl partitionCount batchMessage ts).localCache = [] := by
  induction ts using List.reverseRecOn with
  | nil => rfl
  | append_singleton ts t ih =>
    have hkeys' : ∀ t ∈ ts, ∀ row ∈ rowsOf t, row.1 ∈ S :=
      fun t' ht' => hkeys t' (mem_append_left _ ht')
    have hnil := ih hkeys' (h.imp_right fun hnot hlate => hnot (hlate.concat t))
    rw [transforms_concat]
    cases t with
    | batch batch => exact cache_batch _ batch
    | row key value =>
      rw [cache_row hnil]
      rintro ⟨huse, hrow, hpos⟩
      rcases h with hzero | hnot
      · omega
      · exact hnot ⟨ts, key, value, [], rfl, hrow,
          (accounted_transforms stl partitionCount batchMessage hS hkeys').2.mp huse⟩

/-- A comparison that is right tells keys apart. -/
theorem toldApart_of_faithful (hS : ∀ k ∈ S, ∀ k' ∈ S, Protobuf.Faithful d k k') : ToldApart S := by
  intro k hk k' hk'
  obtain ⟨c, hc, -, heq⟩ := Protobuf.compare_right (hS k hk k' hk')
  exact ⟨c, hc, heq.mp⟩

theorem toldApart_strings : ToldApart (Set.univ : Set (Message (.scalar .string .nil))) :=
  toldApart_of_faithful Protobuf.faithful_strings

end Repartitioning

end Idgs.Rdd
