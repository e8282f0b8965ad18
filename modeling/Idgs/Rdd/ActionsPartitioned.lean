import Idgs.Rdd.ActionResults
import Mathlib.Algebra.BigOperators.Ring.Finset
import Mathlib.Algebra.Order.BigOperators.Group.List

/-!
# Actions do not depend on the partitions

Whatever the distribution of the rows, an RDD in ordered maps returns what the sequential meaning of
the actions says. In unordered maps rows are put to others, keys are not found and groups fall
apart; other kinds of maps keep nothing.
-/

namespace Idgs.Rdd.RddActions

open List

open Common (SumsBelow decimal fixed sumDoubles ungroup valuesOf)
open Protobuf (Descriptor Message StlHash Faithful faithful_strings stringKey)

variable {ν : Type} {d : Descriptor} {S : Set (Message d)}

section Rdd

variable (stl : StlHash) (persistType : PersistType) (isReplicatedRdd : Bool)
  (partitions : List (List (Message d × ν)))

/-! ## What is promised -/

/-- The rows of the RDD: a replicated one has them all in every partition. -/
def dataset : List (Message d × ν) := (acting isReplicatedRdd partitions).flatten

/-- A count is the number of rows that pass. -/
def CountRight : Prop :=
  ∀ request, count stl persistType isReplicatedRdd partitions request =
    some (passing request (dataset isReplicatedRdd partitions)).length

/-- A sum is exact, if all sums of some of the values stay below `2 ^ 53`. -/
def SumRight : Prop :=
  ∀ request evaluateExpr,
    SumsBelow ((passing request (dataset isReplicatedRdd partitions)).map fun row =>
    evaluateExpr row.1 row.2) →
    sum stl persistType isReplicatedRdd partitions request evaluateExpr =
      some ((passing request (dataset isReplicatedRdd partitions)).map fun row =>
      evaluateExpr row.1 row.2).sum

/-- A lookup finds the values of the key that pass. -/
def LookupRight (S : Set (Message d)) : Prop :=
  ∀ request, ∀ key ∈ S, lookup stl persistType isReplicatedRdd partitions request key =
    some (valuesOf key (passing request (dataset isReplicatedRdd partitions)))

/-- The number of keys that are asked for. -/
def limited (request : ActionRequest (Message d) ν) (keys : ℕ) : ℕ :=
  match request.limit with
  | none => keys
  | some limit => min limit.toNat keys

/-- What is collected has as many keys as are asked for, each once and with all its values that
pass. -/
def CollectRight : Prop :=
  ∀ request, ∃ result, collect stl persistType isReplicatedRdd partitions request = some result ∧
    (result.map Prod.fst).Nodup ∧
    (∀ e ∈ result, e.2 ≠ [] ∧
    e.2 = valuesOf e.1 (passing request (dataset isReplicatedRdd partitions))) ∧
    result.length =
      limited request
      ((passing request (dataset isReplicatedRdd partitions)).map Prod.fst).dedup.length

/-- All rows are kept under their keys. -/
def KeepsRows : Prop :=
  persistType = .ordered ∨
    (persistType = .unordered ∧ ∀ rows ∈ acting isReplicatedRdd partitions, NoMerge stl rows) ∨
    dataset isReplicatedRdd partitions = []

/-! ## The partitions -/

/-- A partition with its rows. -/
def storedOf (rows : List (Message d × ν)) : PairRddPartition d ν :=
  (stored stl persistType rows).getD {}

/-- The groups of a partition with its rows. -/
def groupsOf (rows : List (Message d × ν)) : List (Message d × List ν) :=
  (storedOf stl persistType rows).groups persistType

end Rdd

variable {stl : StlHash} {persistType : PersistType} {isReplicatedRdd : Bool}
  {partitions : List (List (Message d × ν))}

theorem storedOf_eq {rows : List (Message d × ν)} {p : PairRddPartition d ν}
    (h : stored stl persistType rows = some p) : storedOf stl persistType rows = p := by
  rw [storedOf, h, Option.getD_some]

/-- Other kinds of maps keep nothing. -/
theorem stored_others (h : persistType ≠ .ordered) (h' : persistType ≠ .unordered)
    (rows : List (Message d × ν)) :
    stored stl persistType rows = some {} := by
  induction rows using List.reverseRecOn with
  | nil => rfl
  | append_singleton rows row ih =>
    rw [stored_concat, ih]
    cases persistType with
    | ordered => exact absurd rfl h
    | unordered => exact absurd rfl h'
    | _ => rfl

/-- Rows with comparable keys are stored. -/
theorem stored_total (hS : ∀ k ∈ S, ∀ k' ∈ S, Faithful d k k') (stl : StlHash)
    (persistType : PersistType) (rows : List (Message d × ν)) (hrows : ∀ row ∈ rows, row.1 ∈ S) :
    stored stl persistType rows = some (storedOf stl persistType rows) := by
  have hsome : ∃ p, stored stl persistType rows = some p := by
    by_cases hordered : persistType = .ordered
    · obtain ⟨p, hp, -⟩ := stored_ordered hS stl rows hrows
      exact ⟨p, hordered ▸ hp⟩
    · by_cases hunordered : persistType = .unordered
      · obtain ⟨p, hp, -⟩ := stored_unordered hS stl rows hrows
        exact ⟨p, hunordered ▸ hp⟩
      · exact ⟨{}, stored_others hordered hunordered rows⟩
  obtain ⟨p, hp⟩ := hsome
  rw [storedOf_eq hp, hp]

theorem mapM_total {α β : Type} {f : α → Option β} {g : α → β} {l : List α}
    (h : ∀ x ∈ l, f x = some (g x)) :
    l.mapM f = some (l.map g) := by
  induction l with
  | nil => rfl
  | cons x l ih =>
    rw [mapM_cons, h x mem_cons_self, ih fun y hy => h y (mem_cons_of_mem _ hy)]
    rfl

theorem acting_map {α β : Type*} (f : α → β) (l : List α) :
    acting isReplicatedRdd (l.map f) = (acting isReplicatedRdd l).map f := by
  unfold acting
  split
  · rw [map_take]
  · rfl

theorem acting_subset {α : Type*} {l : List α} {x : α} (h : x ∈ acting isReplicatedRdd l) :
    x ∈ l := by
  unfold acting at h
  split at h
  · exact mem_of_mem_take h
  · exact h

/-- The groups of rows that are put nowhere else. -/
theorem grouped_ordered (hS : ∀ k ∈ S, ∀ k' ∈ S, Faithful d k k') (stl : StlHash)
    {rows : List (Message d × ν)}
    (hrows : ∀ row ∈ rows, row.1 ∈ S) : Grouped rows (groupsOf stl .ordered rows) := by
  obtain ⟨p, hp, -, hgrouped⟩ := stored_ordered hS stl rows hrows
  rw [groupsOf, storedOf_eq hp]
  exact hgrouped

theorem scattered_unordered (hS : ∀ k ∈ S, ∀ k' ∈ S, Faithful d k k') (stl : StlHash)
    {rows : List (Message d × ν)}
    (hrows : ∀ row ∈ rows, row.1 ∈ S) : Scattered stl rows (groupsOf stl .unordered rows) := by
  obtain ⟨p, hp, hscattered⟩ := stored_unordered hS stl rows hrows
  rw [groupsOf, storedOf_eq hp]
  exact hscattered

theorem groupsOf_others (h : persistType ≠ .ordered) (h' : persistType ≠ .unordered)
    (rows : List (Message d × ν)) :
    groupsOf stl persistType rows = [] := by
  rw [groupsOf, storedOf_eq (stored_others h h' rows)]
  cases persistType with
  | ordered => exact absurd rfl h
  | unordered => exact absurd rfl h'
  | _ => rfl

theorem groupsOf_nil : groupsOf stl persistType ([] : List (Message d × ν)) = [] := by
  rw [groupsOf, storedOf_eq (p := {}) rfl]
  cases persistType <;> rfl

theorem ungroup_singles (rows : List (Message d × ν)) :
    ungroup (rows.map fun row => (row.1, [row.2])) = rows := by
  induction rows with
  | nil => rfl
  | cons row rows ih =>
    rw [map_cons, ← singleton_append, ungroup_append, ih]
    rfl

/-- The acting partitions have no more rows than the RDD. -/
theorem length_le_dataset {rows : List (Message d × ν)}
    (h : rows ∈ acting isReplicatedRdd partitions) :
    rows.length ≤ (dataset isReplicatedRdd partitions).length :=
  (sublist_flatten_of_mem h).length_le

theorem eq_nil_of_dataset {rows : List (Message d × ν)}
    (hnil : dataset isReplicatedRdd partitions = [])
    (h : rows ∈ acting isReplicatedRdd partitions) : rows = [] :=
  flatten_eq_nil_iff.mp hnil rows h

variable (stl persistType isReplicatedRdd partitions) in
/-- What the partitions answer, by those that act. -/
theorem partitionResults_stored {α : Type*} (action : PairRddPartition d ν → List α) :
    ∃ k, partitionResults isReplicatedRdd action (partitions.map (storedOf stl persistType)) =
      (acting isReplicatedRdd partitions).map
      (fun rows => action (storedOf stl persistType rows)) ++
        List.replicate k [] := by
  obtain ⟨k, hk⟩ :=
    partitionResults_eq isReplicatedRdd action (partitions.map (storedOf stl persistType))
  refine ⟨k, ?_⟩
  rw [hk, acting_map, map_map]
  rfl

section Keys

variable (hS : ∀ k ∈ S, ∀ k' ∈ S, Faithful d k k')
    (hkeys : ∀ rows ∈ partitions, ∀ row ∈ rows, row.1 ∈ S)

include hS hkeys

theorem mapM_stored :
    partitions.mapM (stored stl persistType) = some (partitions.map (storedOf stl persistType)) :=
  mapM_total fun rows hrows => stored_total hS stl persistType rows (hkeys rows hrows)

/-- All rows are kept, in another order. -/
theorem perm_of_keepsRows (hkeep : KeepsRows stl persistType isReplicatedRdd partitions) :
    ∀ rows ∈ acting isReplicatedRdd partitions,
    (ungroup (groupsOf stl persistType rows)).Perm rows := by
  intro rows hrows
  have hin := hkeys rows (acting_subset hrows)
  rcases hkeep with rfl | ⟨rfl, hnone⟩ | hnil
  · exact (grouped_ordered hS stl hin).perm
  · rw [(scattered_unordered hS stl hin).unmerged (hnone rows hrows), ungroup_singles]
  · rw [eq_nil_of_dataset hnil hrows, groupsOf_nil]
    rfl

/-- If the numbers of rows below each key are right, all rows are kept. -/
theorem keepsRows_of_upTo (hcount : ∀ k, ((acting isReplicatedRdd partitions).map fun rows =>
      upTo k (ungroup (groupsOf stl persistType rows))).sum =
        upTo k (dataset isReplicatedRdd partitions)) :
    KeepsRows stl persistType isReplicatedRdd partitions := by
  have hdataset : ∀ k, upTo k (dataset isReplicatedRdd partitions) =
      ((acting isReplicatedRdd partitions).map (upTo k)).sum := fun k => countP_flatten
  by_cases hordered : persistType = .ordered
  · exact .inl hordered
  by_cases hunordered : persistType = .unordered
  · refine .inr (.inl ⟨hunordered, fun rows hrows => ?_⟩)
    by_contra hmerge
    subst hunordered
    have hscattered : ∀ rows ∈ acting isReplicatedRdd partitions,
        Scattered stl rows (groupsOf stl .unordered rows) :=
      fun rows hrows => scattered_unordered hS stl (hkeys rows (acting_subset hrows))
    obtain ⟨k, hk⟩ := (hscattered rows hrows).merged hmerge
    have hlt :=
      sum_lt_sum (fun rows => upTo k (ungroup (groupsOf stl .unordered rows))) (upTo k)
      (fun rows hrows => (hscattered rows hrows).upTo_le k) ⟨rows, hrows, hk⟩
    rw [hcount, hdataset] at hlt
    exact lt_irrefl _ hlt
  · refine .inr (.inr (eq_nil_iff_forall_not_mem.mpr fun row hrow => ?_))
    have hzero : upTo row.1 (dataset isReplicatedRdd partitions) = 0 := by
      rw [← hcount row.1]
      refine sum_eq_zero fun n hn => ?_
      obtain ⟨rows, -, rfl⟩ := mem_map.mp hn
      rw [groupsOf_others hordered hunordered]
      rfl
    have hnot := countP_eq_zero.mp hzero row hrow
    exact hnot (decide_eq_true (le_refl row.1))

/-! ## Count and sum -/

/-- A count adds up what the acting partitions count. -/
theorem count_eq (request : ActionRequest (Message d) ν)
    (hsizes : ∀ rows ∈ acting isReplicatedRdd partitions,
      (ungroup (groupsOf stl persistType rows)).length < 2 ^ 64) :
    count stl persistType isReplicatedRdd partitions request =
      some ((acting isReplicatedRdd partitions).map fun rows =>
        (passing request (ungroup (groupsOf stl persistType rows))).length).sum := by
  obtain ⟨k, hk⟩ := partitionResults_stored stl persistType isReplicatedRdd partitions
    fun p => CountAction.action request (p.groups persistType)
  have hresults : ((acting isReplicatedRdd partitions).map fun rows =>
      CountAction.action request ((storedOf stl persistType rows).groups persistType)) =
      ((acting isReplicatedRdd partitions).map fun rows =>
        (passing request (ungroup (groupsOf stl persistType rows))).length).map fun n =>
          [decimal n] := by
    rw [map_map]
    exact map_congr_left fun rows _ => CountAction.action_eq request _
  rw [count, mapM_stored hS hkeys]
  refine Eq.trans (congrArg CountAction.aggregate hk) ?_
  rw [hresults]
  refine CountAction.aggregate_eq (fun n hn => ?_) k
  obtain ⟨rows, hrows, rfl⟩ := mem_map.mp hn
  exact (length_filter_le _ _).trans_lt (hsizes rows hrows)

/-- A sum adds up what the acting partitions sum up. -/
theorem sum_eq (request : ActionRequest (Message d) ν) (evaluateExpr : Message d → ν → ℤ)
    (hsums : SumsBelow ((acting isReplicatedRdd partitions).map fun rows =>
      (passing request (ungroup (groupsOf stl persistType rows))).map fun row =>
        evaluateExpr row.1 row.2).flatten) :
    sum stl persistType isReplicatedRdd partitions request evaluateExpr =
      some ((acting isReplicatedRdd partitions).map fun rows =>
        (passing request (ungroup (groupsOf stl persistType rows))).map fun row =>
          evaluateExpr row.1 row.2).flatten.sum := by
  obtain ⟨k, hk⟩ := partitionResults_stored stl persistType isReplicatedRdd partitions
    fun p => SumAction.action request evaluateExpr (p.groups persistType)
  have hresults : ((acting isReplicatedRdd partitions).map fun rows =>
      SumAction.action request evaluateExpr ((storedOf stl persistType rows).groups persistType)) =
      (((acting isReplicatedRdd partitions).map fun rows =>
        (passing request (ungroup (groupsOf stl persistType rows))).map fun row =>
          evaluateExpr row.1 row.2).map List.sum).map fun x => [fixed x] := by
    rw [map_map, map_map]
    refine map_congr_left fun rows hrows => ?_
    have hmem : ((passing request (ungroup (groupsOf stl persistType rows))).map fun row =>
        evaluateExpr row.1 row.2) ∈
        (acting isReplicatedRdd partitions).map fun rows =>
          (passing request (ungroup (groupsOf stl persistType rows))).map fun row =>
            evaluateExpr row.1 row.2 :=
      mem_map_of_mem hrows
    have hpart := hsums.subperm (sublist_flatten_of_mem hmem).subperm
    have hsum := SumsBelow.sumDoubles_eq (show SumsBelow ([] ++ _) from hpart)
    rw [sum_nil, nil_append] at hsum
    exact (SumAction.action_eq request evaluateExpr _).trans (congrArg (fun x => [fixed x]) hsum)
  rw [sum, mapM_stored hS hkeys]
  refine Eq.trans (congrArg SumAction.aggregate hk) ?_
  rw [hresults, sum_flatten]
  exact SumAction.aggregate_eq hsums.parts k

variable (stl persistType) in
/-- No partition has more rows in its groups than it has taken. -/
theorem length_ungroup_le {rows : List (Message d × ν)}
    (hrows : rows ∈ acting isReplicatedRdd partitions) :
    (ungroup (groupsOf stl persistType rows)).length ≤ rows.length := by
  have hin := hkeys rows (acting_subset hrows)
  by_cases hordered : persistType = .ordered
  · subst hordered
    exact (grouped_ordered hS stl hin).perm.length_eq.le
  by_cases hunordered : persistType = .unordered
  · subst hunordered
    exact (scattered_unordered hS stl hin).length.le
  · rw [groupsOf_others hordered hunordered]
    exact Nat.zero_le _

/-- A count is right, whatever the filter, exactly if all rows are kept. -/
theorem countRight_iff (hsize : (dataset isReplicatedRdd partitions).length < 2 ^ 53) :
    CountRight stl persistType isReplicatedRdd partitions ↔
      KeepsRows stl persistType isReplicatedRdd partitions := by
  have hsizes : ∀ rows ∈ acting isReplicatedRdd partitions,
      (ungroup (groupsOf stl persistType rows)).length < 2 ^ 64 := by
    intro rows hrows
    have hle := length_ungroup_le stl persistType hS hkeys hrows
    have hle' := length_le_dataset hrows
    omega
  constructor
  · intro hright
    refine keepsRows_of_upTo hS hkeys fun k => ?_
    let request : ActionRequest (Message d) ν := ⟨some fun key _ => decide (key ≤ k), none⟩
    have hupTo : ∀ rows, (passing request rows).length = upTo k rows := fun rows =>
      (countP_eq_length_filter).symm
    have hcount := hright request
    rw [count_eq hS hkeys request hsizes, hupTo] at hcount
    rw [← Option.some.inj hcount]
    exact congrArg List.sum (map_congr_left fun rows _ => (hupTo _).symm)
  · intro hkeep request
    have hperm := perm_of_keepsRows hS hkeys hkeep
    rw [count_eq hS hkeys request hsizes, dataset, passing, filter_flatten, length_flatten, map_map]
    refine congrArg (fun sizes => some (List.sum sizes)) (map_congr_left fun rows hrows => ?_)
    exact ((hperm rows hrows).filter _).length_eq

omit hS hkeys in
theorem sum_bits (k : Message d) (rows : List (Message d × ν)) :
    (rows.map fun row => if row.1 ≤ k then (1 : ℤ) else 0).sum = upTo k rows := by
  induction rows with
  | nil => rfl
  | cons row rows ih =>
    rw [map_cons, sum_cons, ih, ← singleton_append (l := rows), upTo_append, upTo_singleton]
    push_cast
    rfl

omit hS hkeys in
/-- Ones and zeros, not too many. -/
theorem sumsBelow_bits {α : Type*} {f : α → ℤ} (hf : ∀ x, f x = 0 ∨ f x = 1) {l : List α}
    (hl : l.length < 2 ^ 53) :
    SumsBelow (l.map f) := by
  intro part hpart
  have hbounds : ∀ part : List ℤ, (∀ x ∈ part, x = 0 ∨ x = 1) →
      0 ≤ part.sum ∧ part.sum ≤ part.length := by
    intro part hbits
    induction part with
    | nil => exact ⟨le_refl _, le_refl _⟩
    | cons x part ih =>
      have hx := hbits x mem_cons_self
      have hrest := ih fun y hy => hbits y (mem_cons_of_mem _ hy)
      rw [sum_cons, length_cons]
      push_cast
      omega
  obtain ⟨hzero, hle⟩ := hbounds part fun x hx => by
    obtain ⟨y, -, rfl⟩ := mem_map.mp (hpart.subset hx)
    exact hf y
  have hlength := hpart.length_le
  rw [length_map] at hlength
  rw [abs_of_nonneg hzero]
  omega

/-- A sum is right, whatever the filter and the expression, exactly if all rows are kept. -/
theorem sumRight_iff (hsize : (dataset isReplicatedRdd partitions).length < 2 ^ 53) :
    SumRight stl persistType isReplicatedRdd partitions ↔
      KeepsRows stl persistType isReplicatedRdd partitions := by
  constructor
  · intro hright
    refine keepsRows_of_upTo hS hkeys fun k => ?_
    let request : ActionRequest (Message d) ν := ⟨none, none⟩
    let bit : Message d → ν → ℤ := fun key _ => if key ≤ k then 1 else 0
    have hbit : ∀ row : Message d × ν, bit row.1 row.2 = 0 ∨ bit row.1 row.2 = 1 := by
      intro row
      by_cases hk : row.1 ≤ k
      · exact .inr (if_pos hk)
      · exact .inl (if_neg hk)
    have hpassing : ∀ rows, passing request rows = rows := fun rows => filter_true rows
    have hstored : SumsBelow ((acting isReplicatedRdd partitions).map fun rows =>
        (passing request (ungroup (groupsOf stl persistType rows))).map fun row =>
          bit row.1 row.2).flatten := by
      have hmap : ((acting isReplicatedRdd partitions).map fun rows =>
          (passing request (ungroup (groupsOf stl persistType rows))).map fun row =>
            bit row.1 row.2).flatten =
          ((acting isReplicatedRdd partitions).flatMap fun rows =>
            ungroup (groupsOf stl persistType rows)).map fun row => bit row.1 row.2 := by
        rw [map_flatMap, flatMap_def]
        simp only [hpassing]
      rw [hmap]
      refine sumsBelow_bits hbit (lt_of_le_of_lt ?_ hsize)
      rw [length_flatMap, dataset, length_flatten]
      exact sum_le_sum fun rows hrows => length_ungroup_le stl persistType hS hkeys hrows
    have hsum := hright request bit (by rw [hpassing]; exact sumsBelow_bits hbit hsize)
    rw [sum_eq hS hkeys request bit hstored, sum_flatten, map_map, hpassing] at hsum
    have hbits := Option.some.inj hsum
    rw [sum_bits] at hbits
    have hcast : (((acting isReplicatedRdd partitions).map fun rows =>
        upTo k (ungroup (groupsOf stl persistType rows))).sum : ℤ) =
          upTo k (dataset isReplicatedRdd partitions) := by
      rw [← hbits, Nat.cast_list_sum, map_map]
      refine congrArg List.sum (map_congr_left fun rows _ => ?_)
      show _ = ((passing request (ungroup (groupsOf stl persistType rows))).map fun row =>
          bit row.1 row.2).sum
      rw [hpassing]
      exact (sum_bits k _).symm
    exact_mod_cast hcast
  · intro hkeep request evaluateExpr hbelow
    have hperm := perm_of_keepsRows hS hkeys hkeep
    have hvalues : (((acting isReplicatedRdd partitions).map fun rows =>
        (passing request (ungroup (groupsOf stl persistType rows))).map fun row =>
          evaluateExpr row.1 row.2).flatten).Perm
        ((passing request (dataset isReplicatedRdd partitions)).map fun row =>
          evaluateExpr row.1 row.2) := by
      rw [dataset, passing, filter_flatten, map_flatten, map_map, ← flatMap_def, ← flatMap_def]
      exact List.Perm.flatMap_left _ fun rows hrows => ((hperm rows hrows).filter _).map _
    rw [sum_eq hS hkeys request evaluateExpr (hbelow.subperm hvalues.subperm), hvalues.sum_eq]

/-! ## Lookup -/

omit hkeys in
theorem getValue_ordered (stl : StlHash) {rows : List (Message d × ν)}
    (hrows : ∀ row ∈ rows, row.1 ∈ S) {key : Message d} (hkey : key ∈ S) :
    (storedOf stl .ordered rows).getValue stl .ordered key = some (valuesOf key rows) := by
  obtain ⟨p, hp, hin, hgrouped⟩ := stored_ordered hS stl rows hrows
  rw [storedOf_eq hp, ← hgrouped.values key]
  exact hin.lookups stl (fun _ h => h) hS key hkey

omit hkeys in
/-- In an unordered map a key is found only where a greater one is. -/
theorem getValue_others (stl : StlHash) (hordered : persistType ≠ .ordered)
    {rows : List (Message d × ν)}
    (hrows : ∀ row ∈ rows, row.1 ∈ S) {key : Message d} (hkey : key ∈ S) :
    ∃ values, (storedOf stl persistType rows).getValue stl persistType key = some values ∧
      ((∀ row ∈ rows, ¬ key < row.1) → values = []) := by
  have hmap : ∀ e ∈ (storedOf stl persistType rows).unorderedDataMap, ∃ row ∈ rows, row.1 =
      e.1 := by
    by_cases hunordered : persistType = .unordered
    · subst hunordered
      exact (scattered_unordered hS stl hrows).keys
    · rw [storedOf_eq (stored_others hordered hunordered rows)]
      intro e he
      cases he
  have hin : ∀ e ∈ (storedOf stl persistType rows).unorderedDataMap, e.1 ∈ S := by
    intro e he
    obtain ⟨row, hrow, heq⟩ := hmap e he
    exact heq ▸ hrows row hrow
  have hget : (storedOf stl persistType rows).getValue stl persistType key =
      (Common.HashedMap.find (Protobuf.HashCode.hashcode stl d) (sharedless d) key
        (storedOf stl persistType rows).unorderedDataMap).map fun found => found.getD [] := by
    cases persistType with
    | ordered => exact absurd rfl hordered
    | _ => rfl
  rw [hget]
  rcases Common.HashedMap.find_set_cases (Protobuf.HashCode.hashcode stl d)
    (PairRddPartition.sharedless_agrees hS) hin hkey with ⟨-, hfind, -⟩ | ⟨before, e, after, heq, -,
      hlt, hfind, -⟩
  · exact ⟨[], by rw [hfind]; rfl, fun _ => rfl⟩
  · refine ⟨e.2, by rw [hfind]; rfl, fun hnone => ?_⟩
    obtain ⟨row, hrow, hkey'⟩ := hmap e (heq ▸ mem_append_right _ mem_cons_self)
    exact absurd (hkey' ▸ of_decide_eq_true hlt) (hnone row hrow)

/-- A lookup gives the values that the acting partitions have found, filtered. -/
theorem lookup_eq (request : ActionRequest (Message d) ν) {key : Message d} (hkey : key ∈ S) :
    lookup stl persistType isReplicatedRdd partitions request key =
      some ((acting isReplicatedRdd partitions).flatMap fun rows =>
        (((storedOf stl persistType rows).getValue stl persistType key).getD []).filter
          (ActionContext.evaluateFilterExpr request key)) := by
  have htotal : ∀ p ∈ partitions.map (storedOf stl persistType), p.getValue stl persistType key =
      some ((p.getValue stl persistType key).getD []) := by
    intro p hp
    obtain ⟨rows, hrows, rfl⟩ := mem_map.mp hp
    by_cases hordered : persistType = .ordered
    · subst hordered
      rw [getValue_ordered hS stl (hkeys rows hrows) hkey]
      rfl
    · obtain ⟨values, hvalues, -⟩ := getValue_others hS stl hordered (hkeys rows hrows) hkey
      rw [hvalues]
      rfl
  have hfound := mapM_total htotal
  rw [lookup, mapM_stored hS hkeys]
  refine Eq.trans (congrArg (Option.bind · fun found => some (LookupAction.aggregate
    (partitionResults isReplicatedRdd (LookupAction.action request key) found))) hfound) ?_
  rw [Option.bind_some, LookupAction.aggregate_eq, flatten_partitionResults, acting_map, acting_map,
    map_map, flatMap_map]
  rfl

omit hS hkeys in
theorem valuesOf_flatten (key : Message d) (parts : List (List (Message d × ν))) :
    valuesOf key parts.flatten = parts.flatMap (valuesOf key) := by
  induction parts with
  | nil => rfl
  | cons part parts ih => rw [flatten_cons, Common.valuesOf_append, ih, flatMap_cons]

/-- A lookup is right, whatever the key and the filter, exactly in ordered maps or without rows. -/
theorem lookupRight_iff :
    LookupRight stl persistType isReplicatedRdd partitions S ↔
      persistType = .ordered ∨ dataset isReplicatedRdd partitions = [] := by
  constructor
  · intro hright
    by_contra hnot
    obtain ⟨hordered, hrows⟩ := not_or.mp hnot
    -- no key is above the greatest one
    obtain ⟨row, hrow, hgreatest⟩ : ∃ row ∈ dataset isReplicatedRdd partitions,
        ∀ row' ∈ dataset isReplicatedRdd partitions, row'.1 ≤ row.1 := by
      classical
      obtain ⟨row, hrow, hmax⟩ :=
        Finset.exists_max_image (dataset isReplicatedRdd partitions).toFinset Prod.fst
        (by rwa [toFinset_nonempty_iff])
      exact ⟨row, mem_toFinset.mp hrow, fun row' hrow' =>
        hmax row' (mem_toFinset.mpr hrow')⟩
    have hkey : row.1 ∈ S := by
      obtain ⟨rows, hacting, hin⟩ := mem_flatten.mp hrow
      exact hkeys rows (acting_subset hacting) row hin
    let request : ActionRequest (Message d) ν := ⟨none, none⟩
    have hlookup := hright request row.1 hkey
    rw [lookup_eq hS hkeys request hkey, valuesOf_passing] at hlookup
    have hnone : ((acting isReplicatedRdd partitions).flatMap fun rows =>
        (((storedOf stl persistType rows).getValue stl persistType row.1).getD []).filter
          (ActionContext.evaluateFilterExpr request row.1)) = [] := by
      refine flatMap_eq_nil_iff.mpr fun rows hrows' => ?_
      obtain ⟨values, hvalues, hnil⟩ :=
        getValue_others hS stl hordered (hkeys rows (acting_subset hrows')) hkey
      rw [hvalues, Option.getD_some, hnil fun row' hrow' =>
        not_lt_of_ge (hgreatest row' (mem_flatten.mpr ⟨rows, hrows', hrow'⟩))]
      rfl
    rw [hnone] at hlookup
    have hfound : row.2 ∈ (valuesOf row.1 (dataset isReplicatedRdd partitions)).filter
        (ActionContext.evaluateFilterExpr request row.1) := by
      refine mem_filter.mpr ⟨mem_map.mpr ⟨row, mem_filter.mpr ⟨hrow, ?_⟩, rfl⟩, rfl⟩
      exact decide_eq_true rfl
    rw [← Option.some.inj hlookup] at hfound
    cases hfound
  · rintro (rfl | hnil) request key hkey
    · rw [lookup_eq hS hkeys request hkey, valuesOf_passing, dataset, valuesOf_flatten,
        filter_flatMap]
      refine congrArg some (flatMap_congr fun rows hrows => ?_)
      rw [getValue_ordered hS stl (hkeys rows (acting_subset hrows)) hkey]
      rfl
    · rw [lookup_eq hS hkeys request hkey, hnil]
      refine congrArg some (flatMap_eq_nil_iff.mpr fun rows hrows => ?_)
      rw [eq_nil_of_dataset hnil hrows]
      by_cases hordered : persistType = .ordered
      · subst hordered
        rw [getValue_ordered hS stl (fun row hrow => by cases hrow) hkey]
        rfl
      · have hempty : ∀ row ∈ ([] : List (Message d × ν)), row.1 ∈ S := fun row hrow => by
          cases hrow
        obtain ⟨values, hvalues, hnone⟩ := getValue_others hS stl hordered hempty hkey
        rw [hvalues, Option.getD_some, hnone fun row hrow => by cases hrow]
        rfl

/-! ## Collect -/

/-- What is collected are the first of the groups of the acting partitions. -/
theorem collect_eq (request : ActionRequest (Message d) ν) :
    collect stl persistType isReplicatedRdd partitions request =
      some (firstOf request ((acting isReplicatedRdd partitions).flatMap fun rows =>
        passingGroups request (groupsOf stl persistType rows))) := by
  obtain ⟨k, hk⟩ := partitionResults_stored stl persistType isReplicatedRdd partitions
    fun p => CollectAction.action request (p.groups persistType)
  have hresults : ((acting isReplicatedRdd partitions).map fun rows =>
      CollectAction.action request ((storedOf stl persistType rows).groups persistType)) =
      ((acting isReplicatedRdd partitions).map fun rows =>
        passingGroups request (groupsOf stl persistType rows)).map (firstOf request) := by
    rw [map_map]
    exact map_congr_left fun rows _ => CollectAction.action_eq request _
  rw [collect, mapM_stored hS hkeys]
  refine Eq.trans (congrArg (fun results => some (CollectAction.aggregate request results)) hk) ?_
  rw [hresults, CollectAction.aggregate_eq, flatten_append, flatten_replicate_nil,
    append_nil, firstOf_flatten, ← flatMap_def]

omit hS hkeys in
/-- As many as are asked for, or all that there are. -/
theorem length_firstOf {α : Type} (request : ActionRequest (Message d) ν) {l : List α}
    (hl : l.length < 2 ^ 53) :
    (firstOf request l).length = limited request l.length := by
  unfold firstOf limited ActionContext.getLimit
  cases request.limit with
  | none => rfl
  | some limit =>
    have hlt := limit.toNat_lt
    by_cases hlimit : limit.toNat < 2 ^ 63
    · simp only [if_pos hlimit]
      rw [if_pos (by omega), length_take, Int.toNat_natCast]
    · simp only [if_neg hlimit]
      rw [if_neg (by omega), Nat.min_eq_right (by omega)]

omit hS hkeys in
theorem firstOf_sublist {α : Type} (request : ActionRequest (Message d) ν) (l : List α) :
    (firstOf request l).Sublist l := by
  unfold firstOf
  split
  · exact take_sublist _ _
  · exact List.Sublist.refl l

omit hS hkeys in
theorem ne_nil_iff_of_valuesOf {key : Message d} {rows : List (Message d × ν)} :
    valuesOf key rows ≠ [] ↔ key ∈ rows.map Prod.fst := by
  constructor
  · intro hne
    obtain ⟨value, hvalue⟩ := exists_mem_of_ne_nil _ hne
    obtain ⟨row, hrow, -⟩ := mem_map.mp hvalue
    obtain ⟨hin, hkey⟩ := mem_filter.mp hrow
    exact mem_map.mpr ⟨row, hin, of_decide_eq_true hkey⟩
  · intro hkey
    obtain ⟨row, hrow, rfl⟩ := mem_map.mp hkey
    exact ne_nil_of_mem
      (mem_map.mpr ⟨row, mem_filter.mpr ⟨hrow, decide_eq_true rfl⟩, rfl⟩)

omit hS hkeys in
/-- The values in a group are those that are kept under its key. -/
theorem Grouped.eq_valuesOf {rows : List (Message d × ν)} {groups : List (Message d × List ν)}
    (h : Grouped rows groups) {key : Message d} {values : List ν} (hmem : (key, values) ∈ groups) :
    values = valuesOf key rows := by
  rw [← h.values, Common.valuesOf_ungroup,
    Common.valuesOf_eq_toList h.distinct (found_of_mem h.distinct hmem)]
  exact flatten_singleton.symm

/-- Each key with its values that pass, and no other. -/
structure Collected (rows : List (Message d × ν)) (groups : List (Message d × List ν)) : Prop where
  nodup : (groups.map Prod.fst).Nodup
  values : ∀ e ∈ groups, e.2 ≠ [] ∧ e.2 = valuesOf e.1 rows
  keys : ∀ key ∈ rows.map Prod.fst, key ∈ groups.map Prod.fst

omit hS hkeys in
theorem Collected.length {rows : List (Message d × ν)} {groups : List (Message d × List ν)}
    (h : Collected rows groups) :
    groups.length = (rows.map Prod.fst).dedup.length := by
  have hperm : (groups.map Prod.fst).Perm (rows.map Prod.fst).dedup := by
    refine (perm_ext_iff_of_nodup h.nodup (nodup_dedup _)).mpr fun key => ?_
    rw [mem_dedup]
    refine ⟨fun hkey => ?_, h.keys key⟩
    obtain ⟨e, he, rfl⟩ := mem_map.mp hkey
    obtain ⟨hne, heq⟩ := h.values e he
    exact ne_nil_iff_of_valuesOf.mp (heq ▸ hne)
  rw [← hperm.length_eq, length_map]

omit hS hkeys in
/-- What passes of the groups of a partition. -/
theorem Grouped.collected {rows : List (Message d × ν)} {groups : List (Message d × List ν)}
    (h : Grouped rows groups) (request : ActionRequest (Message d) ν) :
    Collected (passing request rows) (passingGroups request groups) := by
  refine ⟨?_, fun e he => ?_, fun key hkey => ?_⟩
  · exact (keys_passingGroups_sublist request groups).nodup (pairwise_map.mpr h.distinct)
  · obtain ⟨hne, values, hgroup, heq⟩ := mem_passingGroups.mp he
    rw [valuesOf_passing, ← h.eq_valuesOf hgroup]
    exact ⟨hne, heq⟩
  · have hne := ne_nil_iff_of_valuesOf.mpr hkey
    have hkey' : key ∈ rows.map Prod.fst :=
      ((filter_sublist (p := _)).map Prod.fst).subset hkey
    have hvalues := ne_nil_iff_of_valuesOf.mpr hkey'
    rw [← h.values] at hvalues
    obtain ⟨row, hrow, hrowkey⟩ := mem_map.mp (ne_nil_iff_of_valuesOf.mp hvalues)
    obtain ⟨group, hgroup, hrow⟩ := mem_flatMap.mp hrow
    obtain ⟨value, -, rfl⟩ := mem_map.mp hrow
    obtain rfl : group.1 = key := hrowkey
    refine mem_map.mpr ⟨(group.1, valuesOf group.1 (passing request rows)),
      mem_passingGroups.mpr ⟨hne, group.2,
      hgroup, ?_⟩, rfl⟩
    rw [valuesOf_passing, ← h.eq_valuesOf (show (group.1, group.2) ∈ groups from hgroup)]

omit hS hkeys in
/-- Where no key is in two partitions, a key of one has its values there. -/
theorem valuesOf_of_mem {parts : List (List (Message d × ν))}
    (htogether : parts.Pairwise fun rows rows' => ∀ row ∈ rows, ∀ row' ∈ rows', row.1 ≠ row'.1)
    {rows : List (Message d × ν)} (hrows : rows ∈ parts) {key : Message d}
    (hkey : key ∈ rows.map Prod.fst) :
    valuesOf key parts.flatten = valuesOf key rows := by
  obtain ⟨row, hrow, rfl⟩ := mem_map.mp hkey
  obtain ⟨before, after, rfl⟩ := append_of_mem hrows
  obtain ⟨-, hafter, hbefore⟩ := pairwise_append.mp htogether
  have hnone : valuesOf row.1 before.flatten = [] := by
    refine Common.valuesOf_eq_nil fun row' hrow' => ?_
    obtain ⟨rows', hrows', hin⟩ := mem_flatten.mp hrow'
    exact hbefore rows' hrows' rows mem_cons_self row' hin row hrow
  have hnone' : valuesOf row.1 after.flatten = [] := by
    refine Common.valuesOf_eq_nil fun row' hrow' => ?_
    obtain ⟨rows', hrows', hin⟩ := mem_flatten.mp hrow'
    exact ((pairwise_cons.mp hafter).1 rows' hrows' row hrow row' hin).symm
  rw [flatten_append, flatten_cons, Common.valuesOf_append, Common.valuesOf_append, hnone,
    hnone', nil_append, append_nil]

omit hS hkeys in
theorem keys_passing_sublist (request : ActionRequest (Message d) ν) (rows : List (Message d × ν)) :
    ((passing request rows).map Prod.fst).Sublist (rows.map Prod.fst) :=
  filter_sublist.map Prod.fst

omit hS hkeys in
/-- What passes of all groups, where no key is in two partitions. -/
theorem collected_flatMap {parts : List (List (Message d × ν))}
    {groups : List (Message d × ν) → List (Message d × List ν)}
    (hgroups : ∀ rows ∈ parts, Grouped rows (groups rows))
    (htogether : parts.Pairwise fun rows rows' => ∀ row ∈ rows, ∀ row' ∈ rows', row.1 ≠ row'.1)
    (request : ActionRequest (Message d) ν) :
    Collected (passing request parts.flatten)
    (parts.flatMap fun rows => passingGroups request (groups rows)) := by
  have hkeys : ∀ rows ∈ parts, ∀ key ∈ (passingGroups request (groups rows)).map Prod.fst, key ∈
      rows.map Prod.fst := by
    intro rows hrows key hkey
    obtain ⟨e, he, rfl⟩ := mem_map.mp hkey
    obtain ⟨hne, heq⟩ := ((hgroups rows hrows).collected request).values e he
    exact (keys_passing_sublist request rows).subset (ne_nil_iff_of_valuesOf.mp (heq ▸ hne))
  refine ⟨?_, fun e he => ?_, fun key hkey => ?_⟩
  · rw [map_flatMap, nodup_flatMap]
    refine ⟨fun rows hrows => ((hgroups rows hrows).collected request).nodup, ?_⟩
    refine htogether.imp_of_mem fun hrows hrows' hne => ?_
    intro key hkey hkey'
    obtain ⟨row, hrow, rfl⟩ := mem_map.mp (hkeys _ hrows key hkey)
    obtain ⟨row', hrow', heq⟩ := mem_map.mp (hkeys _ hrows' row.1 hkey')
    exact hne row hrow row' hrow' heq.symm
  · obtain ⟨rows, hrows, he⟩ := mem_flatMap.mp he
    obtain ⟨hne, heq⟩ := ((hgroups rows hrows).collected request).values e he
    rw [valuesOf_passing,
      valuesOf_of_mem htogether hrows (hkeys rows hrows e.1 (mem_map_of_mem he)),
      ← valuesOf_passing]
    exact ⟨hne, heq⟩
  · rw [passing, filter_flatten, map_flatten, map_map] at hkey
    obtain ⟨keys, hkeys', hkey⟩ := mem_flatten.mp hkey
    obtain ⟨rows, hrows, rfl⟩ := mem_map.mp hkeys'
    rw [map_flatMap]
    exact mem_flatMap.mpr ⟨rows, hrows, ((hgroups rows hrows).collected request).keys key hkey⟩

omit hS hkeys in
/-- The groups hold the rows. -/
theorem ungroup_perm_of_collected {rows : List (Message d × ν)} {groups : List (Message d × List ν)}
    (hnodup : (groups.map Prod.fst).Nodup)
    (hvalues : ∀ e ∈ groups, e.2 ≠ [] ∧ e.2 = valuesOf e.1 rows)
    (hlength : groups.length = (rows.map Prod.fst).dedup.length) : (ungroup groups).Perm rows := by
  have hsubset : groups.map Prod.fst ⊆ (rows.map Prod.fst).dedup := by
    intro key hkey
    obtain ⟨e, he, rfl⟩ := mem_map.mp hkey
    obtain ⟨hne, heq⟩ := hvalues e he
    exact mem_dedup.mpr (ne_nil_iff_of_valuesOf.mp (heq ▸ hne))
  have hperm : (groups.map Prod.fst).Perm (rows.map Prod.fst).dedup :=
    (subperm_of_subset hnodup hsubset).perm_of_length_le (by rw [length_map, hlength])
  have hdistinct : groups.Pairwise fun e e' => e.1 ≠ e'.1 := pairwise_map.mp hnodup
  refine Common.perm_of_valuesOf fun key => ?_
  rw [Common.valuesOf_ungroup]
  by_cases hkey : key ∈ groups.map Prod.fst
  · obtain ⟨e, he, rfl⟩ := mem_map.mp hkey
    rw [Common.valuesOf_eq_toList hdistinct (found_of_mem hdistinct he), ← (hvalues e he).2]
    exact flatten_singleton
  · have hnot : key ∉ rows.map Prod.fst :=
      fun hin => hkey (hperm.mem_iff.mpr (mem_dedup.mpr hin))
    have hnone : ∀ e ∈ groups, e.1 ≠ key := by
      rintro e he rfl
      exact hkey (mem_map_of_mem he)
    rw [Common.valuesOf_eq_nil hnone]
    exact (not_not.mp fun hne => hnot (ne_nil_iff_of_valuesOf.mp hne)).symm

omit hS hkeys in
/-- Groups that hold the rows of a partition without a key twice. -/
theorem grouped_of_nodup {rows : List (Message d × ν)} (hnodup : (rows.map Prod.fst).Nodup) :
    Grouped rows (rows.map fun row => (row.1, [row.2])) := by
  refine ⟨fun key => by rw [ungroup_singles], ?_, fun e he => ?_⟩
  · exact pairwise_map.mpr (pairwise_map.mp hnodup)
  · obtain ⟨row, -, rfl⟩ := mem_map.mp he
    exact cons_ne_nil _ _

/-- What is collected is right, whatever the filter and the limit, exactly if all rows are kept and,
in unordered maps, no two have the same key. -/
theorem collectRight_iff (hsize : (dataset isReplicatedRdd partitions).length < 2 ^ 53)
    (htogether : (acting isReplicatedRdd partitions).Pairwise fun rows rows' =>
      ∀ row ∈ rows, ∀ row' ∈ rows', row.1 ≠ row'.1) :
    CollectRight stl persistType isReplicatedRdd partitions ↔
      persistType = .ordered ∨
        (persistType = .unordered ∧ (∀ rows ∈ acting isReplicatedRdd partitions, NoMerge stl rows) ∧
          ((dataset isReplicatedRdd partitions).map Prod.fst).Nodup) ∨
        dataset isReplicatedRdd partitions = [] := by
  constructor
  · intro hright
    let request : ActionRequest (Message d) ν := ⟨none, none⟩
    have hpassing : passing request (dataset isReplicatedRdd partitions) =
        dataset isReplicatedRdd partitions :=
      filter_true _
    obtain ⟨result, hresult, hnodup, hvalues, hlength⟩ := hright request
    rw [collect_eq hS hkeys request] at hresult
    have hall : ((acting isReplicatedRdd partitions).flatMap fun rows =>
        passingGroups request (groupsOf stl persistType rows)) = result := Option.some.inj hresult
    rw [hpassing] at hvalues hlength
    have hperm := ungroup_perm_of_collected hnodup hvalues hlength
    have hungroup : ∀ groups : List (Message d × List ν), ungroup (passingGroups request groups) =
        ungroup groups := by
      intro groups
      induction groups with
      | nil => rfl
      | cons group groups ih =>
        have hvalues : group.2.filter (ActionContext.evaluateFilterExpr request group.1) =
            group.2 :=
          filter_true _
        have hcons : ungroup (group :: groups) = ungroup [group] ++ ungroup groups :=
          ungroup_append [group] groups
        by_cases hpos : 0 < group.2.length
        · have hsome : passingGroup request group = some group := by
            rw [passingGroup, hvalues]
            exact if_pos hpos
          rw [passingGroups, filterMap_cons_some hsome, hcons, ← ih]
          exact ungroup_append [group] _
        · have hnone : passingGroup request group = none := by
            rw [passingGroup, hvalues]
            exact if_neg hpos
          have hnil : group.2 = [] := eq_nil_of_length_eq_zero (Nat.eq_zero_of_not_pos hpos)
          have hempty : ungroup [group] = [] := by
              rw [show group = (group.1, group.2) from rfl, hnil]; rfl
          rw [passingGroups, filterMap_cons_none hnone, hcons, hempty, ← ih]
          rfl
    have hkeep : KeepsRows stl persistType isReplicatedRdd partitions := by
      refine keepsRows_of_upTo hS hkeys fun k => ?_
      rw [← upTo_perm k hperm, ← hall, ungroup, flatMap_assoc, upTo, countP_flatMap]
      refine congrArg List.sum (map_congr_left fun rows _ => ?_)
      exact congrArg (upTo k) (hungroup _).symm
    rcases hkeep with hordered | ⟨rfl, hnone⟩ | hnil
    · exact .inl hordered
    · refine .inr (.inl ⟨rfl, hnone, ?_⟩)
      have hkeys' : result.map Prod.fst = (dataset isReplicatedRdd partitions).map Prod.fst := by
        rw [← hall, map_flatMap, dataset, map_flatten, ← flatMap_def]
        refine flatMap_congr fun rows hrows => ?_
        rw [(scattered_unordered hS stl (hkeys rows (acting_subset hrows))).unmerged
          (hnone rows hrows),
          passingGroups, filterMap_map]
        have hsingle : (passingGroup request ∘ fun row : Message d × ν => (row.1, [row.2])) =
            some ∘ fun row => (row.1, [row.2]) := rfl
        rw [hsingle, filterMap_eq_map, map_map]
        rfl
      exact hkeys' ▸ hnodup
    · exact .inr (.inr hnil)
  · intro hkeep request
    have hgroups : ∀ rows ∈ acting isReplicatedRdd partitions,
        Grouped rows (groupsOf stl persistType rows) := by
      intro rows hrows
      have hin := hkeys rows (acting_subset hrows)
      rcases hkeep with rfl | ⟨rfl, hnone, hnodup⟩ | hnil
      · exact grouped_ordered hS stl hin
      · rw [(scattered_unordered hS stl hin).unmerged (hnone rows hrows)]
        refine grouped_of_nodup (hnodup.sublist ?_)
        exact (sublist_flatten_of_mem hrows).map Prod.fst
      · rw [eq_nil_of_dataset hnil hrows, groupsOf_nil]
        exact grouped_of_nodup nodup_nil
    have hcollected := collected_flatMap hgroups htogether request
    have hsub := firstOf_sublist request ((acting isReplicatedRdd partitions).flatMap fun rows =>
      passingGroups request (groupsOf stl persistType rows))
    refine ⟨_, collect_eq hS hkeys request, hcollected.nodup.sublist (hsub.map Prod.fst),
      fun e he => hcollected.values e (hsub.subset he), ?_⟩
    rw [length_firstOf, hcollected.length]
    · rfl
    · rw [hcollected.length]
      refine ((dedup_sublist _).length_le.trans ?_).trans_lt hsize
      rw [length_map]
      exact length_filter_le _ _

/-- Counts and sums are right exactly if all rows are kept under their keys, lookups exactly in
ordered maps, and what is collected in ordered maps or where all rows are kept and have different
keys; without rows all is right. -/
theorem actions_right_iff (hsize : (dataset isReplicatedRdd partitions).length < 2 ^ 53)
    (htogether : (acting isReplicatedRdd partitions).Pairwise fun rows rows' =>
      ∀ row ∈ rows, ∀ row' ∈ rows', row.1 ≠ row'.1) :
    (CountRight stl persistType isReplicatedRdd partitions ↔
      KeepsRows stl persistType isReplicatedRdd partitions) ∧
    (SumRight stl persistType isReplicatedRdd partitions ↔
      KeepsRows stl persistType isReplicatedRdd partitions) ∧
    (LookupRight stl persistType isReplicatedRdd partitions S ↔
      persistType = .ordered ∨ dataset isReplicatedRdd partitions = []) ∧
    (CollectRight stl persistType isReplicatedRdd partitions ↔
      persistType = .ordered ∨
        (persistType = .unordered ∧ (∀ rows ∈ acting isReplicatedRdd partitions, NoMerge stl rows) ∧
          ((dataset isReplicatedRdd partitions).map Prod.fst).Nodup) ∨
        dataset isReplicatedRdd partitions = []) :=
  ⟨countRight_iff hS hkeys hsize, sumRight_iff hS hkeys hsize, lookupRight_iff hS hkeys,
    collectRight_iff hS hkeys hsize htogether⟩

end Keys

/-- Two keys, one of them with two values, in three partitions with ordered maps. -/
theorem actions_right_strings :
    CollectRight Store.DataMap.identityHash .ordered false
      [[(stringKey [1], 'a'), (stringKey [1], 'b')], [], [(stringKey [2], 'c')]] :=
  (actions_right_iff faithful_strings (fun _ _ _ _ => trivial) (by decide)
    (by decide)).2.2.2.mpr (.inl rfl)

/-- One row in an unordered map: its key is not found. -/
theorem not_actions_right : ¬ ∀ (d : Descriptor) (ν : Type) (S : Set (Message d)) (stl : StlHash)
    (persistType : PersistType) (isReplicatedRdd : Bool) (partitions : List (List (Message d × ν))),
    persistType ≠ .none → (∀ k ∈ S, ∀ k' ∈ S, Faithful d k k') →
    (∀ rows ∈ partitions, ∀ row ∈ rows, row.1 ∈ S) →
    ((acting isReplicatedRdd partitions).Pairwise fun rows rows' =>
      ∀ row ∈ rows, ∀ row' ∈ rows', row.1 ≠ row'.1) →
    (dataset isReplicatedRdd partitions).length < 2 ^ 53 →
    CountRight stl persistType isReplicatedRdd partitions ∧
    SumRight stl persistType isReplicatedRdd partitions ∧
      LookupRight stl persistType isReplicatedRdd partitions S ∧
      CollectRight stl persistType isReplicatedRdd partitions := by
  intro hall
  have hright :=
    (hall _ Char Set.univ Store.DataMap.identityHash .unordered false [[(stringKey [1], 'a')]]
    PersistType.noConfusion faithful_strings (fun _ _ _ _ => trivial) (List.pairwise_singleton _ _)
      (by decide)).2.2.1
  rcases (lookupRight_iff faithful_strings fun _ _ _ _ => trivial).mp hright with hordered | hnil
  · cases hordered
  · cases hnil

end Idgs.Rdd.RddActions
