import Mathlib.Algebra.Order.BigOperators.Group.List
import Idgs.Rdd.Reduce

/-!
# When a reduced RDD is what its rows say

Partial results are merged right for counts and sums of all values. Distinct values are counted once
in every partition that has them; a maximum or a minimum is looked for among the first and the last
rows only; an expression is that of the last row of the partition whose row arrives last. The rows
of an RDD that is not persisted are counted again with each row after them.
-/

namespace Idgs.Rdd

open List

namespace ReduceTransformer

section Field

variable {V : Type*} [LinearOrder V] (round : ℚ → ℚ) (op : ReduceOperation V)

/-- The values that an operation takes into account. -/
def taken (xs : List V) : List V := if op.distinct then Common.fresh xs else xs

/-- The value of an operation over all rows. -/
def fold (xs : List V) : V :=
  match op.name with
  | .expr => xs.getLast?.getD op.field.default
  | .count => op.field.cast (taken op xs).length
  | .sum => op.field.cast ((taken op xs).map op.field.num).sum
  | .max => (Common.extremum ReduceOperation.keepsMax xs).getD op.field.default
  | .min => (Common.extremum ReduceOperation.keepsMin xs).getD op.field.default

theorem taken_sublist (xs : List V) : (taken op xs).Sublist xs := by
  unfold taken
  split
  · exact Common.fresh_sublist xs
  · exact List.Sublist.refl xs

/-- A value is skipped if values are distinct and it was there before. -/
theorem taken_concat (xs : List V) (x : V) :
    taken op (xs ++ [x]) = if op.distinct = true ∧ x ∈ xs then taken op xs
    else taken op xs ++ [x] := by
  unfold taken
  by_cases hd : op.distinct = true
  · simp only [hd, if_true, true_and, Common.fresh_concat, Common.mem_fresh]
  · simp only [hd, if_false, false_and, Bool.false_eq_true]

/-- The set holds the distinct values so far. -/
def SetOf (option : ReduceOption V) (xs : List V) : Prop :=
  option.distinctSet = if op.distinct then Common.fresh xs else []

variable {op}

/-- The test of the operations, and the set after it. -/
theorem skips_eq {option : ReduceOption V} {xs : List V} (h : SetOf op option xs) (x : V) :
    ((op.skips option x).1 = true ↔ op.distinct = true ∧ x ∈ xs) ∧
      SetOf op (op.skips option x).2 (xs ++ [x]) ∧ (op.skips option x).2.value = option.value ∧
      (op.skips option x).2.aggrValue = option.aggrValue := by
  unfold SetOf at h ⊢
  unfold ReduceOperation.skips
  by_cases hd : op.distinct = true
  · simp only [hd, if_true] at h ⊢
    unfold ReduceOption.isDistinctValue
    rw [h]
    by_cases hx : x ∈ xs
    · simp [Common.fresh_concat, hx, h]
    · simp [Common.fresh_concat, hx]
  · simp [hd, h]

/-! ## Counting -/

theorem countReduce_field (hname : op.name = .count) (xs : List V) :
    SetOf op (reduceField round op xs).1 xs ∧
      (reduceField round op xs).1.value = (if xs = [] then {} else .ofNumber (taken op xs).length) ∧
      (reduceField round op xs).2 = if xs = [] then none
      else some (op.field.cast (taken op xs).length) := by
  induction xs using List.reverseRecOn with
  | nil => simp [SetOf]
  | append_singleton xs x ih =>
    obtain ⟨hset, hvalue, -⟩ := ih
    obtain ⟨hskip, hset', hkeep, -⟩ := skips_eq hset x
    rw [reduceField_concat, if_neg (concat_ne_nil x xs), if_neg (concat_ne_nil x xs),
      taken_concat]
    simp only [ReduceOperation.reduce, hname, ReduceOperation.countReduce]
    by_cases hs : (op.skips (reduceField round op xs).1 x).1 = true
    · have hne : xs ≠ [] := ne_nil_of_mem (hskip.mp hs).2
      rw [if_neg hne] at hvalue
      simp only [hs, if_true, if_pos (hskip.mp hs), hkeep, hvalue]
      exact ⟨hset', trivial, rfl⟩
    · have hcount : (if (op.skips (reduceField round op xs).1 x).2.value.isNull then 1
          else op.field.toSize (op.skips (reduceField round op xs).1 x).2.value + 1) =
          (taken op xs ++ [x]).length := by
        rw [hkeep, hvalue, length_append, length_singleton]
        by_cases hne : xs = []
        · subst hne
          simp [taken]
        · rw [if_neg hne]
          simp [Variant.ofNumber, FieldType.toSize]
      simp only [hs, if_false, if_neg (mt hskip.mpr hs), hcount, Bool.false_eq_true]
      exact ⟨hset', trivial, rfl⟩

omit [LinearOrder V] in
/-- Numbers that survive in the field are told apart in it. -/
theorem cast_eq_cast_iff {f : FieldType V} {x y : ℚ} (hx : f.num (f.cast x) = x)
    (hy : f.num (f.cast y) = y) : f.cast x = f.cast y ↔ x = y :=
  ⟨fun heq => by rw [← hx, heq, hy], congrArg f.cast⟩

/-- Counts up to that of the rows survive in the field; without a row the count is the default. -/
structure CountExact (f : FieldType V) (n : ℕ) : Prop where
  exact : ∀ m ≤ n, f.num (f.cast m) = m
  default : f.cast 0 = f.default

/-- Partial counts are added up. -/
theorem countAggregate_field (hname : op.name = .count) (xs : List V) :
    (aggregateField round op xs).1.aggrValue =
        (if xs = [] then {} else .ofNumber ((xs.map fun x => ⌊op.field.num x⌋₊).sum : ℕ)) ∧
      (aggregateField round op xs).2 =
        if xs = [] then none
        else some (op.field.cast ((xs.map fun x => ⌊op.field.num x⌋₊).sum : ℕ)) := by
  induction xs using List.reverseRecOn with
  | nil => simp
  | append_singleton xs x ih =>
    have htotal : (if (aggregateField round op xs).1.aggrValue.isNull then
          op.field.toSize (op.field.getMessageValue x)
        else op.field.toSize (aggregateField round op xs).1.aggrValue +
          op.field.toSize (op.field.getMessageValue x)) =
        ((xs ++ [x]).map fun x => ⌊op.field.num x⌋₊).sum := by
      rw [ih.1]
      by_cases hne : xs = []
      · simp [hne, FieldType.toSize, FieldType.getMessageValue]
      · rw [map_append, sum_append, map_singleton, sum_singleton]
        simp only [hne, if_false, Variant.ofNumber, Bool.false_eq_true, FieldType.toSize,
          FieldType.getMessageValue, Nat.floor_natCast]
    rw [aggregateField_concat, if_neg (concat_ne_nil x xs), if_neg (concat_ne_nil x xs)]
    simp only [ReduceOperation.aggregate, hname, ReduceOperation.countAggregate, htotal]
    exact ⟨trivial, rfl⟩

/-! ## Adding up -/

/-- The numbers of the field are exact where they are added up: no sum of rows is rounded, sums
survive in the field, and without a row the sum is the default. -/
structure SumExact (round : ℚ → ℚ) (f : FieldType V) (rows : List V) : Prop where
  notString : f.isString = false
  kept : ∀ v ∈ rows, f.cast (f.num v) = v
  unrounded : ∀ l : List V, l.Sublist rows → round (l.map f.num).sum = (l.map f.num).sum
  survives : ∀ l : List V, l.Sublist rows → f.num (f.cast (l.map f.num).sum) = (l.map f.num).sum
  default : f.cast 0 = f.default

variable {round}

omit [LinearOrder V] in
theorem SumExact.round_num {f : FieldType V} {rows : List V} (h : SumExact round f rows) {v : V}
    (hv : v ∈ rows) : round (f.num v) = f.num v := by
  simpa using h.unrounded [v] (singleton_sublist.mpr hv)

/-- The variant holds the sum of the values that are taken into account. -/
def Sums (round : ℚ → ℚ) (op : ReduceOperation V) (value : Variant V) (xs : List V) : Prop :=
  if xs = [] then value.isNull = true
  else value.isNull = false ∧ op.field.toDouble round value = ((taken op xs).map op.field.num).sum ∧
    op.field.setMessageValue value = op.field.cast ((taken op xs).map op.field.num).sum

theorem sumReduce_field (hname : op.name = .sum) {rows : List V} (h : SumExact round op.field rows)
    {xs : List V} (hxs : xs.Sublist rows) :
    SetOf op (reduceField round op xs).1 xs ∧ Sums round op (reduceField round op xs).1.value xs ∧
      (reduceField round op xs).2 =
        if xs = [] then none else some (op.field.cast ((taken op xs).map op.field.num).sum) := by
  induction xs using List.reverseRecOn with
  | nil => simp [SetOf, Sums]
  | append_singleton xs x ih =>
    obtain ⟨hset, hvalue, -⟩ := ih ((sublist_append_left xs [x]).trans hxs)
    obtain ⟨hskip, hset', hkeep, -⟩ := skips_eq hset x
    have hx : x ∈ rows := hxs.subset (mem_append_right _ mem_cons_self)
    have htaken := (taken_sublist op (xs ++ [x])).trans hxs
    unfold Sums at hvalue ⊢
    rw [reduceField_concat, if_neg (concat_ne_nil x xs), if_neg (concat_ne_nil x xs)]
    rw [taken_concat] at htaken ⊢
    simp only [ReduceOperation.reduce, hname, ReduceOperation.sumReduce]
    by_cases hs : (op.skips (reduceField round op xs).1 x).1 = true
    · have hne : xs ≠ [] := ne_nil_of_mem (hskip.mp hs).2
      rw [if_neg hne] at hvalue
      simp only [hs, if_true, if_pos (hskip.mp hs), hkeep]
      exact ⟨hset', hvalue, congrArg some hvalue.2.2⟩
    · rw [if_neg (mt hskip.mpr hs)] at htaken ⊢
      simp only [hs, if_false, hkeep, Bool.false_eq_true]
      by_cases hne : xs = []
      · subst hne
        rw [if_pos rfl] at hvalue
        have hone : taken op ([] : List V) = [] := by simp [taken]
        simp only [hvalue, if_true, hone, nil_append, map_cons, map_nil,
          sum_cons, sum_nil, add_zero, h.kept x hx]
        exact ⟨hset', ⟨h.notString, h.round_num hx, rfl⟩, rfl⟩
      · rw [if_neg hne] at hvalue
        have hsum : round (((taken op xs).map op.field.num).sum + round (op.field.num x)) =
            ((taken op xs ++ [x]).map op.field.num).sum := by
          rw [h.round_num hx]
          have hround := h.unrounded _ htaken
          rw [map_append, sum_append, map_singleton, sum_singleton] at hround ⊢
          exact hround
        simp only [hvalue.1, if_false, hvalue.2.1, Bool.false_eq_true, Variant.ofNumber]
        refine ⟨hset', ⟨trivial, hsum, ?_⟩, ?_⟩
        · exact congrArg op.field.cast hsum
        · exact congrArg (fun x => some (op.field.cast x)) hsum

variable (round) in
/-- Partial sums are added up, if none of the totals on the way is rounded. -/
theorem sumAggregate_field (hname : op.name = .sum) (xs : List V)
    (hround : ∀ x ∈ xs, round (op.field.num x) = op.field.num x)
    (hfront : ∀ l, l <+: xs → round (l.map op.field.num).sum = (l.map op.field.num).sum) :
    (aggregateField round op xs).1.aggrValue =
        (if xs = [] then {} else .ofNumber (xs.map op.field.num).sum) ∧
      (aggregateField round op xs).2 =
        if xs = [] then none else some (op.field.cast (xs.map op.field.num).sum) := by
  induction xs using List.reverseRecOn with
  | nil => simp
  | append_singleton xs x ih =>
    have hrest := ih (fun y hy => hround y (mem_append_left _ hy))
      fun l hl => hfront l (hl.trans (prefix_append _ _))
    have hx := hround x (mem_append_right _ mem_cons_self)
    have htotal : (if (aggregateField round op xs).1.aggrValue.isNull then
          op.field.toDouble round (op.field.getMessageValue x)
        else round (op.field.toDouble round (aggregateField round op xs).1.aggrValue +
          op.field.toDouble round (op.field.getMessageValue x))) =
        ((xs ++ [x]).map op.field.num).sum := by
      have hall := hfront _ prefix_rfl
      rw [hrest.1]
      by_cases hne : xs = []
      · simp [hne, FieldType.toDouble, FieldType.getMessageValue, hx]
      · rw [map_append, sum_append, map_singleton, sum_singleton] at hall ⊢
        simp only [hne, if_false, Variant.ofNumber, Bool.false_eq_true, FieldType.toDouble,
          FieldType.getMessageValue, hx]
        exact hall
    rw [aggregateField_concat, if_neg (concat_ne_nil x xs), if_neg (concat_ne_nil x xs)]
    simp only [ReduceOperation.aggregate, hname, ReduceOperation.sumAggregate, htotal]
    exact ⟨trivial, rfl⟩

/-! ## Looking for a maximum or a minimum -/

variable {keeps : V → V → Bool}

/-- What is left of the values of a partition: the worse one of the first and the last, or the first
if the last is skipped. -/
def ends (keeps : V → V → Bool) (op : ReduceOperation V) (xs : List V) : Option V :=
  xs.head?.bind fun first => xs.getLast?.map fun last =>
    if op.distinct && xs.dropLast.contains last then first else Common.worse keeps first last

theorem extremumReduce_field
    (hreduce : ∀ option x, op.reduce round option x = op.extremumReduce keeps option x)
    (hstring : op.field.isString = false) (xs : List V) :
    SetOf op (reduceField round op xs).1 xs ∧
      (reduceField round op xs).1.value =
        (match xs.head? with
          | none => {}
          | some first => op.field.getMessageValue first) ∧
      (reduceField round op xs).2 = ends keeps op xs := by
  induction xs using List.reverseRecOn with
  | nil => simp [SetOf, ends]
  | append_singleton xs x ih =>
    obtain ⟨hset, hvalue, -⟩ := ih
    obtain ⟨hskip, hset', hkeep, -⟩ := skips_eq hset x
    rw [reduceField_concat, hreduce, ReduceOperation.extremumReduce]
    rcases xs with _ | ⟨first, xs⟩
    · have hs : ¬ (op.skips (reduceField round op []).1 x).1 = true := by
        rw [hskip]
        simp
      have hnull : (op.skips (reduceField round op []).1 x).2.value.isNull = true := by
        rw [hkeep, hvalue]
        rfl
      simp only [hs, if_false, hnull, if_true, Bool.false_eq_true]
      refine ⟨hset', rfl, ?_⟩
      simp [ends, FieldType.setMessageValue, FieldType.getMessageValue]
    · have hfirst : (op.skips (reduceField round op (first :: xs)).1 x).2.value =
          op.field.getMessageValue first := by
        rw [hkeep, hvalue]
        rfl
      have hends : ends keeps op (first :: xs ++ [x]) =
          some (if op.distinct = true ∧ x ∈ first :: xs then first
          else Common.worse keeps first x) := by
        rw [ends, getLast?_concat, dropLast_concat]
        simp only [cons_append, head?_cons, Option.bind_some, Option.map_some,
          Bool.and_eq_true, contains_iff_mem]
      have hnull : (op.field.getMessageValue first).isNull = false := hstring
      rw [hends]
      by_cases hs : (op.skips (reduceField round op (first :: xs)).1 x).1 = true
      · rw [if_pos (hskip.mp hs)]
        simp only [hs, if_true, hfirst]
        exact ⟨hset', rfl, rfl⟩
      · rw [if_neg (mt hskip.mpr hs)]
        simp only [hs, if_false, hfirst, hnull, Bool.false_eq_true]
        by_cases hk : keeps first x = true
        · rw [Common.worse, if_pos hk, if_pos (show keeps (op.field.setMessageValue
            (op.field.getMessageValue first)) x = true from hk)]
          exact ⟨hset', hfirst, rfl⟩
        · rw [Common.worse, if_neg hk, if_neg (show ¬ keeps (op.field.setMessageValue
            (op.field.getMessageValue first)) x = true from hk)]
          exact ⟨hset', hfirst, rfl⟩

/-- A string that was assigned is still null, so that the next one replaces it. -/
theorem extremumReduce_string
    (hreduce : ∀ option x, op.reduce round option x = op.extremumReduce keeps option x)
    (hstring : op.field.isString = true) (xs : List V) :
    SetOf op (reduceField round op xs).1 xs ∧ (reduceField round op xs).1.value.isNull = true ∧
      (∀ v, (taken op xs).getLast? = some v →
        op.field.setMessageValue (reduceField round op xs).1.value = v) ∧
      (reduceField round op xs).2 = (taken op xs).getLast? := by
  induction xs using List.reverseRecOn with
  | nil => simp [SetOf, taken]
  | append_singleton xs x ih =>
    obtain ⟨hset, hnull, hvalue, -⟩ := ih
    obtain ⟨hskip, hset', hkeep, -⟩ := skips_eq hset x
    rw [reduceField_concat, hreduce, ReduceOperation.extremumReduce, taken_concat]
    by_cases hs : (op.skips (reduceField round op xs).1 x).1 = true
    · rw [if_pos (hskip.mp hs)]
      simp only [hs, if_true, hkeep]
      refine ⟨hset', hnull, hvalue, ?_⟩
      have hne : taken op xs ≠ [] := by
        have hmem : x ∈ taken op xs := by
          rw [taken, if_pos (hskip.mp hs).1, Common.mem_fresh]
          exact (hskip.mp hs).2
        exact ne_nil_of_mem hmem
      rw [getLast?_eq_some_getLast hne]
      exact congrArg some (hvalue _ (getLast?_eq_some_getLast hne))
    · rw [if_neg (mt hskip.mpr hs), getLast?_concat]
      simp only [hs, if_false, hkeep, hnull, if_true, Bool.false_eq_true]
      refine ⟨hset', hstring, fun v hv => ?_, rfl⟩
      exact Option.some.inj hv

theorem extremumAggregate_field
    (haggregate : ∀ option x, op.aggregate round option x = op.extremumAggregate keeps option x)
    (hstring : op.field.isString = false) (xs : List V) :
    (aggregateField round op xs).1.aggrValue =
        (match xs.head? with
          | none => {}
          | some first => op.field.getMessageValue first) ∧
      (aggregateField round op xs).2 =
        xs.head?.bind fun first => xs.getLast?.map fun last => Common.worse keeps first last := by
  induction xs using List.reverseRecOn with
  | nil => simp
  | append_singleton xs x ih =>
    rw [aggregateField_concat, haggregate, ReduceOperation.extremumAggregate, getLast?_concat]
    rcases xs with _ | ⟨first, xs⟩
    · simp [FieldType.setMessageValue, FieldType.getMessageValue]
    · have hnull : (aggregateField round op (first :: xs)).1.aggrValue.isNull = false := by
        rw [ih.1]
        exact hstring
      have hvalue : op.field.setMessageValue (aggregateField round op (first :: xs)).1.aggrValue =
          first := by
        rw [ih.1]
        rfl
      rw [if_neg (by simp [hnull]), hvalue]
      by_cases hk : keeps first x = true
      · rw [if_pos hk]
        exact ⟨ih.1, by simp [Common.worse, hk]⟩
      · rw [if_neg hk]
        exact ⟨ih.1, by simp [Common.worse, hk]⟩

theorem extremumAggregate_string
    (haggregate : ∀ option x, op.aggregate round option x = op.extremumAggregate keeps option x)
    (hstring : op.field.isString = true) (xs : List V) :
    (aggregateField round op xs).1.aggrValue.isNull = true ∧
      (aggregateField round op xs).2 = xs.getLast? := by
  induction xs using List.reverseRecOn with
  | nil => simp
  | append_singleton xs x ih =>
    rw [aggregateField_concat, haggregate, ReduceOperation.extremumAggregate,
      getLast?_concat, if_pos ih.1]
    exact ⟨hstring, rfl⟩

/-! ## Expressions -/

theorem exprReduce_field (hname : op.name = .expr) (xs : List V) :
    (reduceField round op xs).2 = xs.getLast? := by
  induction xs using List.reverseRecOn with
  | nil => rfl
  | append_singleton xs x ih =>
    rw [reduceField_concat, getLast?_concat, ReduceOperation.reduce, hname]
    show some (op.exprReduce _ x).2 = some x
    unfold ReduceOperation.exprReduce
    split <;> rfl

theorem exprAggregate_field (hname : op.name = .expr) (xs : List V) :
    (aggregateField round op xs).2 = xs.getLast? := by
  induction xs using List.reverseRecOn with
  | nil => rfl
  | append_singleton xs x ih =>
    rw [aggregateField_concat, getLast?_concat, ReduceOperation.aggregate, hname]
    show some (op.exprReduce _ x).2 = some x
    unfold ReduceOperation.exprReduce
    split <;> rfl

/-! ## One field of the whole -/

/-- The values of a partition say that `m` is the best one: the first is, and the last is or is
skipped. Of an empty partition the default is taken. -/
def Shows (keeps : V → V → Bool) (op : ReduceOperation V) (m : V) (xs : List V) : Prop :=
  if xs = [] then keeps op.field.default m = true
  else xs.head? = some m ∧
    (xs.getLast? = some m ∨ op.distinct = true ∧ ∃ last ∈ xs.getLast?, last ∈ xs.dropLast)

/-- The first and the last partition say what the best value is. For strings the last value that is
taken into account in the last partition is it. -/
def EndsShow (keeps : V → V → Bool) (op : ReduceOperation V) (parts : List (List V)) : Prop :=
  ∀ m, Common.extremum keeps parts.flatten = some m →
    if op.field.isString then
      ∀ xs ∈ parts.getLast?, (taken op xs).getLast?.getD op.field.default = m
    else
      (∀ xs ∈ parts.head?, Shows keeps op m xs) ∧ (∀ xs ∈ parts.getLast?, Shows keeps op m xs) ∧
        ((∃ xs ∈ parts.head?, xs ≠ []) ∨ (∃ xs ∈ parts.getLast?, xs ≠ []) ∨ op.field.default = m)

/-- The values of a field in the partitions, in the order in which their rows arrive, for which the
merged value is right. -/
def Mergeable (op : ReduceOperation V) (parts : List (List V)) : Prop :=
  match op.name with
  | .expr => parts.getLast? = some [] →
      parts.flatten.getLast?.getD op.field.default = op.field.default
  | .count => op.distinct = true → Common.repeatedFrom [] parts = []
  | .sum => op.distinct = true → ((Common.repeatedFrom [] parts).map op.field.num).sum = 0
  | .max => EndsShow ReduceOperation.keepsMax op parts
  | .min => EndsShow ReduceOperation.keepsMin op parts

/-- Numbers are exact where an operation computes with them. -/
def Exact (round : ℚ → ℚ) (op : ReduceOperation V) (rows : List V) : Prop :=
  match op.name with
  | .count => CountExact op.field rows.length
  | .sum => SumExact round op.field rows
  | _ => True

variable (op) in
/-- What the partitions take into account, and what is repeated. -/
theorem taken_perm (parts : List (List V)) :
    (parts.flatMap (taken op)).Perm
      (taken op parts.flatten ++ if op.distinct then Common.repeatedFrom [] parts else []) := by
  unfold taken
  by_cases hd : op.distinct = true
  · simp only [hd, if_true]
    exact Common.flatMap_fresh_perm [] parts
  · simp only [hd, if_false, Bool.false_eq_true, append_nil]
    exact List.Perm.of_eq (by simp [flatMap_id'])

variable (op) in
theorem flatMap_taken_sublist {ps parts : List (List V)} (h : ps.Sublist parts) :
    (ps.flatMap (taken op)).Sublist parts.flatten := by
  induction h with
  | slnil => exact List.Sublist.refl _
  | cons xs _ ih =>
    rw [flatten_cons]
    exact ih.trans (sublist_append_right _ _)
  | cons_cons xs _ ih =>
    rw [flatMap_cons, flatten_cons]
    exact (taken_sublist op xs).append ih

/-- The merged count. -/
theorem count_merged (hname : op.name = .count) {parts : List (List V)} (hparts : parts ≠ [])
    (h : CountExact op.field parts.flatten.length) :
    (aggregateField round op (parts.map (sent round op))).2 =
      some (op.field.cast (parts.flatMap (taken op)).length) := by
  have hsent : ∀ xs ∈ parts, sent round op xs = op.field.cast (taken op xs).length := by
    intro xs _
    rw [sent, (countReduce_field round hname xs).2.2]
    by_cases hne : xs = []
    · subst hne
      simp [taken, h.default]
    · rw [if_neg hne, Option.getD_some]
  have hfloor : ∀ xs ∈ parts, ⌊op.field.num (sent round op xs)⌋₊ = (taken op xs).length := by
    intro xs hxs
    have hle : (taken op xs).length ≤ parts.flatten.length :=
      (taken_sublist op xs).length_le.trans (sublist_flatten_of_mem hxs).length_le
    rw [hsent xs hxs, h.exact _ hle, Nat.floor_natCast]
  have hsum : ((parts.map (sent round op)).map fun x => ⌊op.field.num x⌋₊).sum =
      (parts.flatMap (taken op)).length := by
    rw [map_map, length_flatMap]
    exact congrArg List.sum (map_congr_left hfloor)
  rw [(countAggregate_field round hname _).2, if_neg (by simpa using hparts), hsum]

/-- The merged sum. -/
theorem sum_merged (hname : op.name = .sum) {parts : List (List V)} (hparts : parts ≠ [])
    (h : SumExact round op.field parts.flatten) :
    (aggregateField round op (parts.map (sent round op))).2 =
      some (op.field.cast ((parts.flatMap (taken op)).map op.field.num).sum) := by
  have htaken : ∀ xs ∈ parts, (taken op xs).Sublist parts.flatten := by
    intro xs hxs
    exact (taken_sublist op xs).trans (sublist_flatten_of_mem hxs)
  have hsent : ∀ xs ∈ parts, sent round op xs =
      op.field.cast ((taken op xs).map op.field.num).sum := by
    intro xs hxs
    rw [sent, (sumReduce_field hname h (sublist_flatten_of_mem hxs)).2.2]
    by_cases hne : xs = []
    · subst hne
      simp [taken, h.default]
    · rw [if_neg hne, Option.getD_some]
  have hnum : ∀ xs ∈ parts, op.field.num (sent round op xs) =
      ((taken op xs).map op.field.num).sum := by
    intro xs hxs
    rw [hsent xs hxs, h.survives _ (htaken xs hxs)]
  have hsum : ∀ ps : List (List V), (∀ xs ∈ ps, xs ∈ parts) →
      ((ps.map (sent round op)).map op.field.num).sum =
      ((ps.flatMap (taken op)).map op.field.num).sum := by
    intro ps hps
    induction ps with
    | nil => rfl
    | cons xs ps ih =>
      rw [map_cons, map_cons, sum_cons, flatMap_cons, map_append,
        sum_append, hnum xs (hps xs mem_cons_self),
        ih fun ys hys => hps ys (mem_cons_of_mem _ hys)]
  have haggregate := (sumAggregate_field round hname (parts.map (sent round op)) ?_ ?_).2
  · rw [haggregate, if_neg (by simpa using hparts), hsum parts fun _ hxs => hxs]
  · intro x hx
    obtain ⟨xs, hxs, rfl⟩ := mem_map.mp hx
    rw [hnum xs hxs, h.unrounded _ (htaken xs hxs)]
  · intro l hl
    obtain ⟨ps, hps, rfl⟩ := prefix_map_iff.mp hl
    rw [hsum ps fun xs hxs => hps.subset hxs, h.unrounded _ (flatMap_taken_sublist op hps.sublist)]

/-- Counts are merged right if and only if no distinct value is counted in two partitions. -/
theorem count_mergeable (hname : op.name = .count) {parts : List (List V)} (hparts : parts ≠ [])
    (h : CountExact op.field parts.flatten.length) :
    (aggregateField round op (parts.map (sent round op))).2 = some (fold op parts.flatten) ↔
      (op.distinct = true → Common.repeatedFrom [] parts = []) := by
  have hperm := (taken_perm op parts).length_eq
  rw [length_append] at hperm
  have hpartial := h.exact _ (flatMap_taken_sublist op (List.Sublist.refl parts)).length_le
  have hwhole := h.exact _ (taken_sublist op parts.flatten).length_le
  have hfold : fold op parts.flatten = op.field.cast (taken op parts.flatten).length := by
    rw [fold, hname]
  rw [count_merged hname hparts h, hfold, Option.some.injEq, cast_eq_cast_iff hpartial hwhole,
    Nat.cast_inj, hperm]
  by_cases hd : op.distinct = true
  · simp [hd]
  · simp [hd]

/-- Sums are merged right if and only if the repeated distinct values add up to nothing. -/
theorem sum_mergeable (hname : op.name = .sum) {parts : List (List V)} (hparts : parts ≠ [])
    (h : SumExact round op.field parts.flatten) :
    (aggregateField round op (parts.map (sent round op))).2 = some (fold op parts.flatten) ↔
      (op.distinct = true → ((Common.repeatedFrom [] parts).map op.field.num).sum = 0) := by
  have hperm := ((taken_perm op parts).map op.field.num).sum_eq
  rw [map_append, sum_append] at hperm
  have hpartial := h.survives _ (flatMap_taken_sublist op (List.Sublist.refl parts))
  have hwhole := h.survives _ (taken_sublist op parts.flatten)
  have hfold : fold op parts.flatten =
      op.field.cast ((taken op parts.flatten).map op.field.num).sum := by
    rw [fold, hname]
  rw [sum_merged hname hparts h, hfold, Option.some.injEq, cast_eq_cast_iff hpartial hwhole, hperm]
  by_cases hd : op.distinct = true
  · simp [hd]
  · simp [hd]

/-- An expression is right if the partition whose row arrives last has a row, or the default is
right. -/
theorem expr_mergeable (hname : op.name = .expr) {parts : List (List V)} (hparts : parts ≠ []) :
    (aggregateField round op (parts.map (sent round op))).2 = some (fold op parts.flatten) ↔
      (parts.getLast? = some [] →
        parts.flatten.getLast?.getD op.field.default = op.field.default) := by
  obtain ⟨init, last, rfl⟩ := (eq_nil_or_concat' parts).resolve_left hparts
  have hsent : sent round op last = last.getLast?.getD op.field.default := by
    rw [sent, exprReduce_field hname]
  have hfold : ∀ xs, fold op xs = xs.getLast?.getD op.field.default := by
    intro xs
    rw [fold, hname]
  rw [exprAggregate_field hname, map_append, map_singleton, getLast?_concat, hsent,
    hfold, getLast?_concat, Option.some.injEq, Option.some.injEq, flatten_append,
    flatten_singleton]
  by_cases hne : last = []
  · subst hne
    simp only [append_nil, getLast?_nil, Option.getD_none, true_imp_iff]
    exact eq_comm
  · have hlast : (init.flatten ++ last).getLast? = last.getLast? :=
      getLast?_append_of_ne_nil _ hne
    rw [hlast]
    exact ⟨fun _ heq => absurd heq hne, fun _ => rfl⟩

/-- A partition sends a value at least as good as the best one exactly when its values show it. -/
theorem sent_keeps_iff (hkeeps : Common.Keeps keeps)
    (hreduce : ∀ option x, op.reduce round option x = op.extremumReduce keeps option x)
    (hstring : op.field.isString = false) {m : V} {xs : List V} (hm : ∀ x ∈ xs, keeps m x = true) :
    keeps (sent round op xs) m = true ↔ Shows keeps op m xs := by
  have hout := (extremumReduce_field hreduce hstring xs).2.2
  rw [sent, hout, Shows]
  by_cases hne : xs = []
  · subst hne
    rw [if_pos rfl]
    rfl
  · obtain ⟨first, hfirst⟩ : ∃ first, xs.head? = some first :=
      Option.ne_none_iff_exists'.mp (by simpa using hne)
    obtain ⟨last, hlast⟩ : ∃ last, xs.getLast? = some last :=
      Option.ne_none_iff_exists'.mp (by simpa using hne)
    have hbest : ∀ x ∈ xs, (keeps x m = true ↔ x = m) := by
      intro x hx
      refine ⟨fun hk => hkeeps.antisymm x m hk (hm x hx), ?_⟩
      rintro rfl
      exact hkeeps.refl x
    have hfirst' := hbest first (mem_of_mem_head? hfirst)
    have hlast' := hbest last (mem_of_mem_getLast? hlast)
    rw [if_neg hne, ends, hfirst, hlast]
    simp only [Option.bind_some, Option.map_some, Option.getD_some, Option.some.injEq,
      Option.mem_def, exists_eq_left', Bool.and_eq_true, contains_iff_mem]
    by_cases hdup : op.distinct = true ∧ last ∈ xs.dropLast
    · rw [if_pos hdup, hfirst']
      exact ⟨fun heq => ⟨heq, .inr hdup⟩, fun heq => heq.1⟩
    · rw [if_neg hdup]
      have hworse : keeps (Common.worse keeps first last) m = true ↔ first = m ∧ last = m := by
        unfold Common.worse
        split
        · rename_i hk
          rw [hlast']
          refine ⟨fun heq => ⟨?_, heq⟩, fun heq => heq.2⟩
          rw [← heq] at hfirst' ⊢
          exact hfirst'.mp hk
        · rename_i hk
          rw [hfirst']
          refine ⟨fun heq => ⟨heq, ?_⟩, fun heq => heq.1⟩
          rw [← heq] at hlast' ⊢
          exact hlast'.mp ((hkeeps.total first last).resolve_left hk)
      rw [hworse]
      exact and_congr_right fun _ => (or_iff_left hdup).symm

/-- A partition with values sends one of them. -/
theorem keeps_sent
    (hreduce : ∀ option x, op.reduce round option x = op.extremumReduce keeps option x)
    (hstring : op.field.isString = false) {m : V} {xs : List V} (hne : xs ≠ [])
    (hm : ∀ x ∈ xs, keeps m x = true) : keeps m (sent round op xs) = true := by
  have hout := (extremumReduce_field hreduce hstring xs).2.2
  obtain ⟨first, hfirst⟩ : ∃ first, xs.head? = some first :=
    Option.ne_none_iff_exists'.mp (by simpa using hne)
  obtain ⟨last, hlast⟩ : ∃ last, xs.getLast? = some last :=
    Option.ne_none_iff_exists'.mp (by simpa using hne)
  have hfirst' := hm first (mem_of_mem_head? hfirst)
  have hlast' := hm last (mem_of_mem_getLast? hlast)
  rw [sent, hout, ends, hfirst, hlast]
  simp only [Option.bind_some, Option.map_some, Option.getD_some, Common.worse]
  split
  · exact hfirst'
  · split
    · exact hlast'
    · exact hfirst'

/-- A maximum or minimum is right if and only if the first and the last partition show it. -/
theorem extremum_mergeable (hkeeps : Common.Keeps keeps)
    (hreduce : ∀ option x, op.reduce round option x = op.extremumReduce keeps option x)
    (haggregate : ∀ option x, op.aggregate round option x = op.extremumAggregate keeps option x)
    {parts : List (List V)} (hparts : parts ≠ []) :
    (aggregateField round op (parts.map (sent round op))).2 =
        some ((Common.extremum keeps parts.flatten).getD op.field.default) ↔
          EndsShow keeps op parts := by
  obtain ⟨first, hfirst⟩ : ∃ first, parts.head? = some first :=
    Option.ne_none_iff_exists'.mp (by simpa using hparts)
  obtain ⟨last, hlast⟩ : ∃ last, parts.getLast? = some last :=
    Option.ne_none_iff_exists'.mp (by simpa using hparts)
  have hfirstMem := mem_of_mem_head? hfirst
  have hlastMem := mem_of_mem_getLast? hlast
  unfold EndsShow
  by_cases hstring : op.field.isString = true
  · -- the value of the partition whose row arrives last
    have hsent : ∀ xs, sent round op xs = (taken op xs).getLast?.getD op.field.default := by
      intro xs
      rw [sent, (extremumReduce_string hreduce hstring xs).2.2.2]
    rw [(extremumAggregate_string haggregate hstring _).2, getLast?_map, hlast,
      Option.map_some, hsent, Option.some.injEq]
    simp only [hstring, if_true, Option.mem_def, Option.some.injEq, forall_eq']
    cases hm : Common.extremum keeps parts.flatten with
    | none =>
      have hempty : last = [] := by
        by_contra hne
        obtain ⟨x, hx⟩ := exists_mem_of_ne_nil last hne
        obtain ⟨m, hm'⟩ := Common.extremum_isSome keeps
          (ne_nil_of_mem (mem_flatten.mpr ⟨last, hlastMem, hx⟩))
        rw [hm] at hm'
        cases hm'
      subst hempty
      simp [taken]
    | some m => simp
  · rw [Bool.not_eq_true] at hstring
    have haggr := (extremumAggregate_field haggregate hstring (parts.map (sent round op))).2
    rw [head?_map, getLast?_map, hfirst, hlast] at haggr
    simp only [Option.map_some, Option.bind_some] at haggr
    rw [haggr, Option.some.injEq]
    simp only [hstring, if_false, Option.mem_def, hfirst, hlast, Option.some.injEq, forall_eq',
      exists_eq_left', Bool.false_eq_true]
    cases hm : Common.extremum keeps parts.flatten with
    | none =>
      have hempty : ∀ xs ∈ parts, xs = [] := by
        intro xs hxs
        by_contra hne
        obtain ⟨x, hx⟩ := exists_mem_of_ne_nil xs hne
        obtain ⟨m, hm'⟩ := Common.extremum_isSome keeps
          (ne_nil_of_mem (mem_flatten.mpr ⟨xs, hxs, hx⟩))
        rw [hm] at hm'
        cases hm'
      rw [hempty first hfirstMem, hempty last hlastMem, Common.worse_self]
      refine ⟨fun _ m hm => ?_, fun _ => rfl⟩
      cases hm
    | some m =>
      have hbest := ((Common.extremum_eq_some hkeeps).mp hm).2
      have hmem : ∀ xs ∈ parts, ∀ x ∈ xs, keeps m x = true :=
        fun xs hxs x hx => hbest x (mem_flatten.mpr ⟨xs, hxs, hx⟩)
      have hexact : ∀ xs ∈ parts, xs ≠ [] → Shows keeps op m xs → sent round op xs = m := by
        intro xs hxs hne hshows
        exact hkeeps.antisymm _ _
          ((sent_keeps_iff hkeeps hreduce hstring (hmem xs hxs)).mpr hshows)
          (keeps_sent hreduce hstring hne (hmem xs hxs))
      rw [Option.getD_some, Common.worse_eq_iff hkeeps,
        sent_keeps_iff hkeeps hreduce hstring (hmem first hfirstMem),
        sent_keeps_iff hkeeps hreduce hstring (hmem last hlastMem)]
      simp only [Option.some.injEq, forall_eq']
      refine and_congr_right fun hshowsFirst => and_congr_right fun hshowsLast => ?_
      by_cases hf : first = []
      · by_cases hl : last = []
        · have hdefault : sent round op ([] : List V) = op.field.default := rfl
          simp [hf, hl, hdefault]
        · exact iff_of_true (.inr (hexact last hlastMem hl hshowsLast)) (.inr (.inl hl))
      · exact iff_of_true (.inl (hexact first hfirstMem hf hshowsFirst)) (.inl hf)

/-- A field is merged right if and only if its values are mergeable. -/
theorem field_mergeable {parts : List (List V)} (hparts : parts ≠ [])
    (h : Exact round op parts.flatten) :
    (aggregateField round op (parts.map (sent round op))).2 = some (fold op parts.flatten) ↔
      Mergeable op parts := by
  unfold Mergeable
  cases hname : op.name with
  | expr => exact expr_mergeable hname hparts
  | count =>
    rw [Exact, hname] at h
    exact count_mergeable hname hparts h
  | sum =>
    rw [Exact, hname] at h
    exact sum_mergeable hname hparts h
  | max =>
    rw [fold, hname]
    refine extremum_mergeable Common.keeps_ge (fun option x => ?_) (fun option x => ?_) hparts
    · rw [ReduceOperation.reduce, hname]
      rfl
    · rw [ReduceOperation.aggregate, hname]
      rfl
  | min =>
    rw [fold, hname]
    refine extremum_mergeable Common.keeps_le (fun option x => ?_) (fun option x => ?_) hparts
    · rw [ReduceOperation.reduce, hname]
      rfl
    · rw [ReduceOperation.aggregate, hname]
      rfl

end Field

/-! ## All fields -/

section Rows

variable {ι : Type*} {V : ι → Type*} [∀ i, LinearOrder (V i)] {ρ : Type*} {round : ℚ → ℚ}
  {options : ∀ i, ReduceOperation (V i)} {evaluate : ρ → Option (∀ i, V i)}

/-- The options folded over all rows at once. -/
def foldAll (options : ∀ i, ReduceOperation (V i)) (evaluate : ρ → Option (∀ i, V i))
    (rows : List ρ) :
    ∀ i, V i :=
  fun i => fold (options i) (column evaluate i rows)

/-- The rows of an RDD that is not persisted send their running counts. -/
theorem transformRows_count {i : ι} (hname : (options i).name = .count)
    (hdistinct : (options i).distinct = false) (rows : List ρ) :
    (transformRows round options evaluate rows).1 =
      rows.foldl (reduceRow round options evaluate) {} ∧
      (transformRows round options evaluate rows).2.map (fun value => value i) =
        (List.range (column evaluate i rows).length).map fun n =>
          (options i).field.cast (n + 1 : ℕ) := by
  induction rows using List.reverseRecOn with
  | nil => exact ⟨rfl, rfl⟩
  | append_singleton rows row ih =>
    rw [transformRows, foldl_append, foldl_cons, foldl_nil, ← transformRows]
    cases hrow : evaluate row with
    | none =>
      simpa [column, filterMap_append, hrow, reduceRow] using ih
    | some value =>
      have hcolumn : column evaluate i (rows ++ [row]) = column evaluate i rows ++ [value i] := by
        simp [column, filterMap_append, hrow]
      have hfield := (foldl_reduceRow round options evaluate (rows ++ [row])).2 i
      rw [hcolumn, (countReduce_field round hname _).2.2, if_neg (concat_ne_nil _ _),
        foldl_append, foldl_cons, foldl_nil, taken, hdistinct] at hfield
      obtain ⟨out, hout, hvalue⟩ := Option.map_eq_some_iff.mp hfield
      simp only [ih.1, foldl_append, foldl_cons, foldl_nil, hout, Option.toList_some, map_append,
        ih.2, map_singleton, hvalue, hcolumn, Bool.false_eq_true, if_false, length_append,
        length_singleton, range_succ]
      exact ⟨trivial, trivial⟩

/-- The sum of the counts from one to `n`. -/
def runningSum (n : ℕ) : ℕ := ((List.range n).map (· + 1)).sum

theorem le_runningSum (n : ℕ) : n ≤ runningSum n ∧ (runningSum n = n ↔ n ≤ 1) := by
  induction n with
  | zero => simp [runningSum]
  | succ n ih =>
    have hsucc : runningSum (n + 1) = runningSum n + (n + 1) := by simp [runningSum, range_succ]
    omega

theorem sum_runningSum (ns : List ℕ) :
    ns.sum ≤ (ns.map runningSum).sum ∧
      ((ns.map runningSum).sum = ns.sum ↔ ∀ n ∈ ns, n ≤ 1) := by
  induction ns with
  | nil => simp
  | cons n ns ih =>
    have hn := le_runningSum n
    rw [map_cons, sum_cons, sum_cons, forall_mem_cons, ← ih.2, ← hn.2]
    omega

/-- In whatever order the rows that an RDD that is not persisted sends arrive, they are counted as
all rows at once just if there is a row and no partition has two. -/
theorem streamed_count_iff {i : ι} (hname : (options i).name = .count)
    (hdistinct : (options i).distinct = false) {parts : List (List ρ)} {values : List (∀ i, V i)}
    (hvalues :
      values.Perm (parts.flatMap fun rows => (transformRows round options evaluate rows).2))
    (h : CountExact (options i).field
      (parts.map fun rows => runningSum (column evaluate i rows).length).sum) :
    (values.foldl (aggregate round options) {}).outvalue.map (fun value => value i) =
        some (foldAll options evaluate parts.flatten i) ↔
      column evaluate i parts.flatten ≠ [] ∧
        ∀ rows ∈ parts, (column evaluate i rows).length ≤ 1 := by
  have hpart : ∀ rows ∈ parts, (((transformRows round options evaluate rows).2.map
      fun value => value i).map fun x => ⌊(options i).field.num x⌋₊).sum =
        runningSum (column evaluate i rows).length := by
    intro rows hrows
    rw [(transformRows_count hname hdistinct rows).2, map_map, runningSum]
    refine congrArg List.sum (map_congr_left fun n hn => ?_)
    have hsum := List.le_sum_of_mem
      (mem_map_of_mem (f := fun rows => runningSum (column evaluate i rows).length) hrows)
    have hle := (List.mem_range.mp hn).trans_le ((le_runningSum _).1.trans hsum)
    rw [Function.comp_apply, h.exact _ hle, Nat.floor_natCast]
  have htotal : ((values.map fun value => value i).map fun x => ⌊(options i).field.num x⌋₊).sum =
      (parts.map fun rows => runningSum (column evaluate i rows).length).sum := by
    rw [((hvalues.map _).map _).sum_eq, flatMap, map_flatten, map_flatten, sum_flatten, map_map,
      map_map, map_map]
    exact congrArg List.sum (map_congr_left hpart)
  obtain ⟨hle, hiff⟩ := sum_runningSum (parts.map fun rows => (column evaluate i rows).length)
  have hlength : (parts.map fun rows => (column evaluate i rows).length).sum =
      (column evaluate i parts.flatten).length := by
    rw [column_flatten, length_flatten, map_map]
    rfl
  have hfold : foldAll options evaluate parts.flatten i =
      (options i).field.cast (column evaluate i parts.flatten).length := by
    rw [foldAll, fold, hname, taken, hdistinct]
    rfl
  rw [map_map, hlength] at hle hiff
  rw [forall_mem_map] at hiff
  rw [(foldl_aggregate round options values).2 i, (countAggregate_field round hname _).2, htotal,
    hfold]
  have hlen : values.length = (column evaluate i parts.flatten).length := by
    rw [hvalues.length_eq, length_flatMap, ← hlength]
    refine congrArg List.sum (map_congr_left fun rows _ => ?_)
    rw [← length_map, (transformRows_count hname hdistinct rows).2, length_map, length_range]
  by_cases hempty : values = []
  · rw [hempty, length_nil] at hlen
    simp [hempty, eq_nil_of_length_eq_zero hlen.symm]
  · have hne : column evaluate i parts.flatten ≠ [] :=
      ne_nil_of_length_pos (hlen ▸ length_pos_iff.mpr hempty)
    rw [if_neg (by simpa using hempty), Option.some.injEq, and_iff_right hne, ← hiff,
      cast_eq_cast_iff (h.exact _ le_rfl) (h.exact _ hle), Nat.cast_inj]
    rfl

end Rows

/-! ## Runs -/

/-- A field of type `int64`, for numbers in its range. -/
def int64 : FieldType ℤ where
  num := fun v => v
  cast := fun x => ⌊x⌋
  default := 0
  isString := false

/-- A count and a sum of all values. -/
def countAndSum (i : Bool) : ReduceOperation ℤ :=
  if i then { name := .count, distinct := false, field := int64 }
  else { name := .sum, distinct := false, field := int64 }

/-- The first of two rows of one partition is counted again with the second. -/
theorem streamed_count_iff_twoRows :
    ((transformRows id countAndSum (fun x : ℤ => some fun _ => x) [7, 7]).2.foldl
      (aggregate id countAndSum) {}).outvalue.map (fun value => value true) ≠ some 2 := by
  have hvalues : (transformRows id countAndSum (fun x : ℤ => some fun _ => x) [7, 7]).2.Perm
      ([[7, 7]].flatMap fun rows =>
        (transformRows id countAndSum (fun x : ℤ => some fun _ => x) rows).2) :=
    .of_eq (append_nil _).symm
  exact fun h => absurd (((streamed_count_iff rfl rfl hvalues
    ⟨fun m _ => by simp [countAndSum, int64], rfl⟩).mp h).2 [7, 7] (by decide)) (by decide)

end ReduceTransformer

end Idgs.Rdd
