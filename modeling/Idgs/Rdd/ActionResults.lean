import Idgs.Rdd.StoredRows

/-!
# The results of actions

What the actions return, by the groups that the acting partitions have.
-/

namespace Idgs.Rdd

open List
open Common
  (SumsBelow decimal fixed readDecimal readDecimal_decimal readFixed_fixed roundDouble
  roundDouble_of_lt sumDoubles
  ungroup valuesOf)
open Protobuf (Descriptor Message StlHash Faithful)

section Actions

variable {κ ν : Type*} (request : ActionRequest κ ν)

/-- The rows that pass the filter. -/
def passing (rows : List (κ × ν)) : List (κ × ν) :=
  rows.filter fun row => ActionContext.evaluateFilterExpr request row.1 row.2

/-- The group with the values that pass, if there are any. -/
def passingGroup (group : κ × List ν) : Option (κ × List ν) :=
  let values := group.2.filter (ActionContext.evaluateFilterExpr request group.1)
  if 0 < values.length then some (group.1, values) else none

def passingGroups (groups : List (κ × List ν)) : List (κ × List ν) :=
  groups.filterMap (passingGroup request)

/-- The first elements, as many as the limit allows. -/
def firstOf {α : Type*} (l : List α) : List α :=
  if 0 ≤ ActionContext.getLimit request then l.take (ActionContext.getLimit request).toNat else l

/-! ## Count -/

theorem stoul_decimal {n : ℕ} (hn : n < 2 ^ 64) : stoul (decimal n) = some n := by
  have hread : readDecimal (decimal n ++ []) = some n := readDecimal_decimal n rfl
  rw [append_nil] at hread
  rw [stoul, hread, Option.filter_some, if_pos (by simpa using hn)]

theorem valueSize_eq (groups : List (κ × List ν)) : valueSize groups = (ungroup groups).length := by
  have hall : ∀ sum, groups.foldl (fun sum group => sum + group.2.length) sum =
      sum + (ungroup groups).length := by
    intro sum
    induction groups generalizing sum with
    | nil => rfl
    | cons group groups ih =>
      have hgroup : ungroup (group :: groups) = group.2.map (group.1, ·) ++ ungroup groups :=
        flatMap_cons
      rw [foldl_cons, ih, hgroup, length_append, length_map, Nat.add_assoc]
  rw [valueSize, hall, Nat.zero_add]

/-- Without a filter all values are counted at once. -/
theorem CountAction.action_eq (groups : List (κ × List ν)) :
    CountAction.action request groups = [decimal (passing request (ungroup groups)).length] := by
  unfold CountAction.action passing
  cases hfilter : request.filter with
  | none =>
    have hall : (ungroup groups).filter
        (fun row => ActionContext.evaluateFilterExpr request row.1 row.2) = ungroup groups := by
      refine filter_eq_self.mpr fun row _ => ?_
      rw [ActionContext.evaluateFilterExpr, hfilter]
    rw [if_pos (by rw [ActionContext.hasFilterExpr, hfilter]; rfl), valueSize_eq, hall]
  | some filterExpr =>
    have hcount : ∀ (rows : List (κ × ν)) (count : ℕ), rows.foldl (fun count row =>
        if ActionContext.evaluateFilterExpr request row.1 row.2 then count + 1 else count) count =
        count + (rows.filter fun row =>
        ActionContext.evaluateFilterExpr request row.1 row.2).length := by
      intro rows
      induction rows with
      | nil => intro count; rfl
      | cons row rows ih =>
        intro count
        rw [foldl_cons, ih, filter_cons]
        split
        · rw [length_cons]
          omega
        · rfl
    rw [if_neg (by rw [ActionContext.hasFilterExpr, hfilter]; exact Bool.false_ne_true), hcount,
      Nat.zero_add]

theorem CountAction.aggregate_eq {sizes : List ℕ} (hsizes : ∀ n ∈ sizes, n < 2 ^ 64) (k : ℕ) :
    CountAction.aggregate
    (sizes.map (fun n => [decimal n]) ++ List.replicate k []) = some sizes.sum := by
  have hnone : ∀ size, (List.replicate k []).foldlM CountAction.addResult size = some size := by
    induction k with
    | zero => intro size; rfl
    | succ k ih => intro size; exact ih size
  have hall : ∀ size,
      (sizes.map (fun n => [decimal n]) ++ List.replicate k []).foldlM CountAction.addResult size =
      some (size + sizes.sum) := by
    induction sizes with
    | nil => exact hnone
    | cons n sizes ih =>
      intro size
      have hstep : CountAction.addResult size [decimal n] = some (size + n) := by
        rw [CountAction.addResult, stoul_decimal (hsizes n mem_cons_self), Option.map_some]
      rw [map_cons, cons_append, foldlM_cons, hstep, sum_cons, ← Nat.add_assoc]
      exact ih (fun n hn => hsizes n (mem_cons_of_mem _ hn)) (size + n)
  rw [CountAction.aggregate, hall, Nat.zero_add]

/-! ## Sum -/

theorem SumAction.action_eq (evaluateExpr : κ → ν → ℤ) (groups : List (κ × List ν)) :
    SumAction.action request evaluateExpr groups =
      [fixed (sumDoubles 0 ((passing request (ungroup groups)).map fun row =>
        evaluateExpr row.1 row.2))] := by
  rw [SumAction.action, passing, sumDoubles, foldl_map, foldl_filter]

theorem SumAction.aggregate_eq {sums : List ℤ} (hsums : SumsBelow sums) (k : ℕ) :
    SumAction.aggregate (sums.map (fun x => [fixed x]) ++ List.replicate k []) = some sums.sum := by
  have hnone : ∀ sum, (List.replicate k []).foldlM SumAction.addResult sum = some sum := by
    induction k with
    | zero => intro sum; rfl
    | succ k ih => intro sum; exact ih sum
  have hvalues : ∀ x ∈ sums, |x| < 2 ^ 53 := by
    intro x hx
    have hone := hsums [x] (singleton_sublist.mpr hx).subperm
    rwa [sum_singleton] at hone
  have hall : ∀ sum,
      (sums.map (fun x => [fixed x]) ++ List.replicate k []).foldlM SumAction.addResult sum =
      some (sumDoubles sum sums) := by
    clear hsums
    induction sums with
    | nil => exact hnone
    | cons x sums ih =>
      intro sum
      have hx := hvalues x mem_cons_self
      have hstep : SumAction.addResult sum [fixed x] = some (roundDouble (sum + x)) := by
        rw [SumAction.addResult, readFixed_fixed hx, Option.map_some]
      rw [map_cons, cons_append, foldlM_cons, hstep, sumDoubles, foldl_cons, roundDouble_of_lt hx]
      exact ih (fun x hx => hvalues x (mem_cons_of_mem _ hx)) _
  have hsum := SumsBelow.sumDoubles_eq (show SumsBelow ([] ++ sums) from hsums)
  rw [sum_nil, nil_append] at hsum
  rw [SumAction.aggregate, hall, hsum]

/-! ## Lookup -/

theorem LookupAction.aggregate_eq {ω : Type*} (input : List (List ω)) :
    LookupAction.aggregate input = input.flatten := by
  have hvalues : ∀ (values result : List ω),
      values.foldl (fun result value => result ++ [value]) result =
      result ++ values := by
    intro values
    induction values with
    | nil => intro result; exact (append_nil _).symm
    | cons value values ih =>
      intro result
      rw [foldl_cons, ih, append_assoc, singleton_append]
  have hall : ∀ result, input.foldl (fun result values =>
      values.foldl (fun result value => result ++ [value]) result) result =
        result ++ input.flatten := by
    induction input with
    | nil => intro result; exact (append_nil _).symm
    | cons values input ih =>
      intro result
      rw [foldl_cons, ih, hvalues, flatten_cons, append_assoc]
  exact hall []

/-- The values of a key that pass are those that are kept under it, filtered. -/
theorem valuesOf_passing [DecidableEq κ] (key : κ) (rows : List (κ × ν)) :
    valuesOf key (passing request rows) = (valuesOf key rows).filter
    (ActionContext.evaluateFilterExpr request key) := by
  unfold valuesOf passing
  rw [filter_map, filter_filter, filter_filter]
  refine congrArg (List.map Prod.snd) (filter_congr fun row _ => ?_)
  by_cases hkey : row.1 = key
  · simp [hkey]
  · simp [hkey]

/-! ## Collect -/

/-- The loop that stops at the limit. -/
theorem foldl_limited {α : Type*} (limit : ℤ) (l result : List α)
    (hresult : 0 ≤ limit → (result.length : ℤ) ≤ limit) :
    l.foldl (fun result x => if 0 ≤ limit ∧ limit ≤ result.length then result
      else result ++ [x]) result =
      if 0 ≤ limit then result ++ l.take (limit.toNat - result.length) else result ++ l := by
  induction l generalizing result with
  | nil =>
    rw [take_nil, append_nil, ite_self]
    rfl
  | cons x l ih =>
    rw [foldl_cons]
    by_cases hlimit : 0 ≤ limit
    · have hle := hresult hlimit
      by_cases hfull : limit ≤ result.length
      · have hzero : limit.toNat - result.length = 0 := by omega
        rw [if_pos ⟨hlimit, hfull⟩, ih result hresult, if_pos hlimit, if_pos hlimit, hzero,
          take_zero, take_zero]
      · have hsucc : limit.toNat - result.length = limit.toNat - (result ++ [x]).length + 1 := by
          rw [length_append, length_singleton]
          omega
        rw [if_neg fun hand => hfull hand.2, ih _ fun _ => ?_, if_pos hlimit, if_pos hlimit,
          hsucc, take_succ_cons, append_assoc, singleton_append]
        rw [length_append, length_singleton]
        omega
    · rw [if_neg fun hand => hlimit hand.1, ih _ fun h => absurd h hlimit, if_neg hlimit,
        if_neg hlimit, append_assoc, singleton_append]

theorem firstOf_eq_foldl {α : Type*} (l : List α) :
    l.foldl (fun result x =>
      if 0 ≤ ActionContext.getLimit request ∧ ActionContext.getLimit request ≤ result.length
      then result else result ++ [x]) [] = firstOf request l := by
  rw [foldl_limited _ _ _ fun h => h, firstOf]
  rfl

theorem CollectAction.action_eq (groups : List (κ × List ν)) :
    CollectAction.action request groups = firstOf request (passingGroups request groups) := by
  rw [← firstOf_eq_foldl, passingGroups, foldl_filterMap, CollectAction.action]
  refine congrArg (fun step => groups.foldl step []) (funext fun result => funext fun group => ?_)
  by_cases hpos : 0 < (group.2.filter (ActionContext.evaluateFilterExpr request group.1)).length
  · simp only [passingGroup, if_pos hpos]
  · simp only [passingGroup, if_neg hpos, ite_self]

theorem CollectAction.aggregate_eq (input : List (List (κ × List ν))) :
    CollectAction.aggregate request input = firstOf request input.flatten := by
  rw [← firstOf_eq_foldl, foldl_flatten, CollectAction.aggregate]
  refine congrArg (fun step => input.foldl step []) (funext fun result => funext fun pairs => ?_)
  refine congrArg (fun step => pairs.foldl step result) (funext fun result => funext fun pair => ?_)
  by_cases hfull : 0 ≤ ActionContext.getLimit request ∧ ActionContext.getLimit request ≤
    result.length
  · rw [if_pos hfull, if_neg (by omega)]
  · rw [if_neg hfull, if_pos (by omega)]

theorem mem_passingGroups {request : ActionRequest κ ν} {groups : List (κ × List ν)}
    {e : κ × List ν} :
    e ∈ passingGroups request groups ↔
      e.2 ≠ [] ∧ ∃ values, (e.1, values) ∈ groups ∧
        e.2 = values.filter (ActionContext.evaluateFilterExpr request e.1) := by
  unfold passingGroups passingGroup
  rw [mem_filterMap]
  constructor
  · rintro ⟨group, hgroup, heq⟩
    dsimp only at heq
    split at heq
    · rename_i hpos
      obtain rfl := Option.some.inj heq
      exact ⟨ne_nil_of_length_pos hpos, group.2, hgroup, rfl⟩
    · cases heq
  · rintro ⟨hne, values, hgroup, heq⟩
    refine ⟨_, hgroup, ?_⟩
    dsimp only
    rw [← heq, if_pos (length_pos_of_ne_nil hne)]

theorem keys_passingGroups_sublist (groups : List (κ × List ν)) :
    ((passingGroups request groups).map Prod.fst).Sublist (groups.map Prod.fst) := by
  induction groups with
  | nil => exact List.Sublist.refl _
  | cons group groups ih =>
    unfold passingGroups at ih ⊢
    by_cases hpos : 0 < (group.2.filter (ActionContext.evaluateFilterExpr request group.1)).length
    · have hsome : passingGroup request group = some _ := if_pos hpos
      rw [filterMap_cons_some hsome]
      exact ih.cons_cons _
    · have hnone : passingGroup request group = none := if_neg hpos
      rw [filterMap_cons_none hnone]
      exact ih.cons _

/-- A limit for each part does not change what is taken of all. -/
theorem firstOf_flatten {α : Type*} (parts : List (List α)) :
    firstOf request (parts.map (firstOf request)).flatten = firstOf request parts.flatten := by
  unfold firstOf
  split
  · have hall : ∀ n m, m ≤ n →
      ((parts.map (List.take n)).flatten).take m = parts.flatten.take m := by
      intro n
      induction parts with
      | nil => intro m _; rfl
      | cons part parts ih =>
        intro m hm
        rw [map_cons, flatten_cons, flatten_cons, take_append,
          take_append, take_take, Nat.min_eq_left hm]
        refine congrArg (part.take m ++ ·) ?_
        rw [length_take]
        by_cases hlong : n ≤ part.length
        · rw [Nat.min_eq_left hlong, Nat.sub_eq_zero_of_le hm,
            Nat.sub_eq_zero_of_le (hm.trans hlong), take_zero, take_zero]
        · rw [Nat.min_eq_right (by omega)]
          exact ih _ (by omega)
    exact hall _ _ (Nat.le_refl _)
  · rw [map_id']

end Actions

end Idgs.Rdd
