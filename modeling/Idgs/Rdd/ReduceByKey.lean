import Idgs.Rdd.ReduceSplit

/-!
# Reducing a group of rows

`ReduceByKeyTransformer` folds the rows of each key into one row. The options of a key are kept in
the context of the transformer, which outlives the transform: when a partition is transformed again,
a key goes on with the options that it had at the end. A count is the number of its rows and a sum
their sum as doubles; but a maximum or a minimum is looked for among the first and the last row
only, and an expression is that of the last row.
-/

namespace Idgs.Rdd

open List

namespace ReduceByKeyTransformer

open ReduceTransformer (SetOf Shows ends reduceField taken)

/-! ## The code -/

section Code

variable {ι : Type*} {V : ι → Type*} [∀ i, LinearOrder (V i)] {κ ν ο : Type*} [DecidableEq κ]
  (round : ℚ → ℚ) (options : ∀ i, ReduceOperation (V i)) (evaluate : κ → ν → Option (ο × ∀ i, V i))

/-- `TransformerContext::reduceOptions`: what `getReduceOption` gives for a key. -/
abbrev ReduceOptions (κ : Type*) {ι : Type*} (V : ι → Type*) := κ → ∀ i, ReduceOption (V i)

/-- The options of a key, and its output row if there is one. -/
structure Group (ο : Type*) {ι : Type*} (V : ι → Type*) where
  reduceOptions : ∀ i, ReduceOption (V i)
  out : Option (ο × ∀ i, V i) := none

/-- One row of a group. The operator has messages of its own for the output, which the reduce
operations change; a row that is filtered out changes nothing. -/
def reduceRow (key : κ) (s : Group ο V) (value : ν) : Group ο V :=
  match evaluate key value with
  | none => s
  | some row =>
    { reduceOptions := fun i => ((options i).reduce round (s.reduceOptions i) (row.2 i)).1
      out := some (row.1, fun i => ((options i).reduce round (s.reduceOptions i) (row.2 i)).2) }

/-- The rows of a group. -/
def reduceGroup (reduceOptions : ∀ i, ReduceOption (V i)) (key : κ) (values : List ν) : Group ο V :=
  values.foldl (reduceRow round options evaluate key) { reduceOptions := reduceOptions }

/-- `ReduceByKeyTransformer::transform` of a partition: the options afterwards, and the rows that
are put. -/
def transform (reduceOptions : ReduceOptions κ V) (groups : List (κ × List ν)) :
    ReduceOptions κ V × List (ο × ∀ i, V i) :=
  groups.foldl (fun s group =>
    let reduced := reduceGroup round options evaluate (s.1 group.1) group.1 group.2
    (Function.update s.1 group.1 reduced.reduceOptions, s.2 ++ reduced.out.toList))
      (reduceOptions, [])

end Code

/-! ## The value of a field -/

section Field

variable {V : Type*} [LinearOrder V] (round : ℚ → ℚ) (op : ReduceOperation V)

/-- Numbers are added as doubles. -/
def addDoubles : List ℚ → ℚ
  | [] => 0
  | x :: xs => xs.foldl (fun s y => round (s + round y)) (round x)

/-- The field of a sum: one value is copied, several are added as doubles. -/
def total : List V → Option V
  | [] => none
  | [x] => some x
  | x :: y :: xs => some (op.field.cast (addDoubles round ((x :: y :: xs).map op.field.num)))

/-- What the field is after these values. -/
def result (xs : List V) : Option V :=
  match op.name with
  | .expr => xs.getLast?
  | .count => if xs = [] then none else some (op.field.cast (taken op xs).length)
  | .sum => if op.field.isString then (taken op xs).getLast? else total round op (taken op xs)
  | .max => if op.field.isString then (taken op xs).getLast?
      else ends ReduceOperation.keepsMax op xs
  | .min => if op.field.isString then (taken op xs).getLast?
      else ends ReduceOperation.keepsMin op xs

theorem addDoubles_concat {xs : List ℚ} (hxs : xs ≠ []) (y : ℚ) :
    addDoubles round (xs ++ [y]) = round (addDoubles round xs + round y) := by
  cases xs with
  | nil => exact absurd rfl hxs
  | cons x xs =>
    rw [cons_append, addDoubles, foldl_append]
    rfl

omit [LinearOrder V] in
theorem total_concat {xs : List V} (hxs : xs ≠ []) (y : V) :
    total round op
    (xs ++ [y]) = some (op.field.cast (addDoubles round ((xs ++ [y]).map op.field.num))) := by
  cases xs with
  | nil => exact absurd rfl hxs
  | cons x xs =>
    cases xs with
    | nil => rfl
    | cons x' xs => rfl

theorem taken_eq_nil {xs : List V} : taken op xs = [] ↔ xs = [] := by
  unfold taken
  split
  · constructor
    · intro hnil
      refine eq_nil_iff_forall_not_mem.mpr fun x hx => ?_
      have hmem := Common.mem_fresh.mpr hx
      rw [hnil] at hmem
      exact not_mem_nil hmem
    · rintro rfl
      rfl
  · exact Iff.rfl

variable {round op}

/-- The variant holds the sum of the values so far. -/
def Totals (round : ℚ → ℚ) (op : ReduceOperation V) (value : Variant V) (xs : List V) : Prop :=
  if xs = [] then value.isNull = true
  else value.isNull = false ∧ op.field.toDouble round value =
    addDoubles round ((taken op xs).map op.field.num) ∧
    some (op.field.setMessageValue value) = total round op (taken op xs)

theorem sumReduce_total (hname : op.name = .sum) (hstring : op.field.isString = false)
    (xs : List V) :
    SetOf op (reduceField round op xs).1 xs ∧ Totals round op (reduceField round op xs).1.value xs ∧
      (reduceField round op xs).2 = total round op (taken op xs) := by
  -- on the values, the last one at last; the set and the variant are in step with them
  induction xs using List.reverseRecOn with
  | nil => simp [SetOf, Totals, taken, total]
  | append_singleton xs x ih =>
    obtain ⟨hset, hvalue, -⟩ := ih
    obtain ⟨hskip, hset', hkeep, -⟩ := ReduceTransformer.skips_eq hset x
    unfold Totals at hvalue ⊢
    rw [ReduceTransformer.reduceField_concat, if_neg (concat_ne_nil x xs),
      ReduceTransformer.taken_concat]
    simp only [ReduceOperation.reduce, hname, ReduceOperation.sumReduce]
    by_cases hs : (op.skips (reduceField round op xs).1 x).1 = true
    · have hne : xs ≠ [] := ne_nil_of_mem (hskip.mp hs).2
      rw [if_neg hne] at hvalue
      simp only [hs, if_true, if_pos (hskip.mp hs), hkeep]
      exact ⟨hset', hvalue, hvalue.2.2⟩
    · rw [if_neg (mt hskip.mpr hs)]
      simp only [hs, if_false, hkeep, Bool.false_eq_true]
      by_cases hne : xs = []
      · subst hne
        rw [if_pos rfl] at hvalue
        have hone : taken op ([] : List V) = [] := (taken_eq_nil op).mpr rfl
        simp only [hvalue, if_true, hone, nil_append]
        exact ⟨hset', ⟨hstring, rfl, rfl⟩, rfl⟩
      · rw [if_neg hne] at hvalue
        have htaken : taken op xs ≠ [] := mt (taken_eq_nil op).mp hne
        have hsum :
            round (addDoubles round ((taken op xs).map op.field.num) + round (op.field.num x)) =
            addDoubles round ((taken op xs ++ [x]).map op.field.num) := by
          rw [map_append, map_singleton, addDoubles_concat round (by simpa using htaken)]
        have hdouble : op.field.toDouble round (op.field.getMessageValue x) =
            round (op.field.num x) := rfl
        simp only [hvalue.1, if_false, hvalue.2.1, Bool.false_eq_true,
          total_concat round op htaken, hdouble, hsum]
        exact ⟨hset', ⟨rfl, rfl, rfl⟩, rfl⟩

/-- A sum of strings: a variant stays null, so that every value that is taken replaces it. -/
theorem sumReduce_string (hname : op.name = .sum) (hstring : op.field.isString = true)
    (xs : List V) :
    SetOf op (reduceField round op xs).1 xs ∧ (reduceField round op xs).1.value.isNull = true ∧
      (∀ v, (taken op xs).getLast? = some v →
        op.field.setMessageValue (reduceField round op xs).1.value = v) ∧
      (reduceField round op xs).2 = (taken op xs).getLast? := by
  induction xs using List.reverseRecOn with
  | nil => simp [SetOf, taken]
  | append_singleton xs x ih =>
    obtain ⟨hset, hnull, hvalue, -⟩ := ih
    obtain ⟨hskip, hset', hkeep, -⟩ := ReduceTransformer.skips_eq hset x
    rw [ReduceTransformer.reduceField_concat, ReduceTransformer.taken_concat]
    simp only [ReduceOperation.reduce, hname, ReduceOperation.sumReduce]
    by_cases hs : (op.skips (reduceField round op xs).1 x).1 = true
    · rw [if_pos (hskip.mp hs)]
      simp only [hs, if_true, hkeep]
      refine ⟨hset', hnull, hvalue, ?_⟩
      have hne : taken op xs ≠ [] := mt (taken_eq_nil op).mp (ne_nil_of_mem (hskip.mp hs).2)
      rw [getLast?_eq_some_getLast hne]
      exact congrArg some (hvalue _ (getLast?_eq_some_getLast hne))
    · rw [if_neg (mt hskip.mpr hs), getLast?_concat]
      simp only [hs, if_false, hkeep, hnull, if_true, Bool.false_eq_true]
      refine ⟨hset', hstring, fun v hv => ?_, rfl⟩
      exact Option.some.inj hv

variable (round op) in
/-- What the reduction of a field leaves in it. -/
theorem reduceField_eq_result (xs : List V) : (reduceField round op xs).2 = result round op xs := by
  have hextremum : ∀ keeps : V → V → Bool,
      (∀ option x, op.reduce round option x = op.extremumReduce keeps option x) →
        (reduceField round op xs).2 =
          if op.field.isString then (taken op xs).getLast? else ends keeps op xs := by
    intro keeps hreduce
    split
    · rename_i hstring
      exact (ReduceTransformer.extremumReduce_string hreduce hstring xs).2.2.2
    · rename_i hstring
      exact (ReduceTransformer.extremumReduce_field hreduce (Bool.not_eq_true _ ▸ hstring) xs).2.2
  unfold result
  cases hname : op.name with
  | expr => exact ReduceTransformer.exprReduce_field hname xs
  | count => exact (ReduceTransformer.countReduce_field round hname xs).2.2
  | sum =>
    simp only
    split
    · rename_i hstring
      exact (sumReduce_string hname hstring xs).2.2.2
    · rename_i hstring
      exact (sumReduce_total hname (Bool.not_eq_true _ ▸ hstring) xs).2.2
  | max | min =>
    refine hextremum _ fun option x => ?_
    rw [ReduceOperation.reduce, hname]

/-! ## What is promised of a field -/

/-- The field is the aggregate of the values. -/
def Aggregates (op : ReduceOperation V) (xs : List V) (out : V) : Prop :=
  match op.name with
  | .expr => xs.head? = some out
  | .count => op.field.num out = (taken op xs).length
  | .sum => op.field.num out = ((taken op xs).map op.field.num).sum
  | .max => out ∈ xs ∧ ∀ x ∈ xs, x ≤ out
  | .min => out ∈ xs ∧ ∀ x ∈ xs, out ≤ x

/-- The best value is the last one that is taken, if values are strings; otherwise the first and the
last row show it. -/
def BestShown (keeps : V → V → Bool) (op : ReduceOperation V) (xs : List V) : Prop :=
  ∀ m ∈ xs, (∀ x ∈ xs, keeps m x = true) →
    if op.field.isString then (taken op xs).getLast? = some m else Shows keeps op m xs

/-- The values for which the field is their aggregate: the field can hold the number of them, or
what they add up to as doubles; the first and the last row show the best value; the last row has the
expression of the first. -/
def Aggregable (round : ℚ → ℚ) (op : ReduceOperation V) (xs : List V) : Prop :=
  match op.name with
  | .expr => xs.getLast? = xs.head?
  | .count => op.field.num (op.field.cast (taken op xs).length) = (taken op xs).length
  | .sum =>
    if op.field.isString then
      ∀ last ∈ (taken op xs).getLast?, op.field.num last = ((taken op xs).map op.field.num).sum
    else (taken op xs).length = 1 ∨
      op.field.num (op.field.cast (addDoubles round ((taken op xs).map op.field.num))) =
        ((taken op xs).map op.field.num).sum
  | .max => BestShown ReduceOperation.keepsMax op xs
  | .min => BestShown ReduceOperation.keepsMin op xs

variable {round : ℚ → ℚ} {op : ReduceOperation V} {keeps : V → V → Bool} {xs : List V}

/-- A field with a best value holds it if and only if the values show it. -/
theorem best_iff (hkeeps : Common.Keeps keeps)
    (hreduce : ∀ option x, op.reduce round option x = op.extremumReduce keeps option x)
    (hxs : xs ≠ []) {out : V} (hout : (reduceField round op xs).2 = some out) :
    (out ∈ xs ∧ ∀ x ∈ xs, keeps out x = true) ↔ BestShown keeps op xs := by
  obtain ⟨m, hm⟩ := Common.extremum_isSome keeps hxs
  obtain ⟨hmem, hbest⟩ := (Common.extremum_eq_some hkeeps).mp hm
  have hunique : ∀ m' ∈ xs, (∀ x ∈ xs, keeps m' x = true) → m' = m := fun m' hm' hbest' =>
    hkeeps.antisymm _ _ (hbest' m hmem) (hbest m' hm')
  have hshown : BestShown keeps op xs ↔
      if op.field.isString then (taken op xs).getLast? = some m else Shows keeps op m xs := by
    constructor
    · exact fun hall => hall m hmem hbest
    · intro hm m' hm' hbest'
      rwa [hunique m' hm' hbest']
  have hisBest : (out ∈ xs ∧ ∀ x ∈ xs, keeps out x = true) ↔ out = m := by
    constructor
    · exact fun ⟨hmem', hbest'⟩ => hunique out hmem' hbest'
    · rintro rfl
      exact ⟨hmem, hbest⟩
  rw [hshown, hisBest]
  by_cases hstring : op.field.isString = true
  · rw [if_pos hstring, ← (ReduceTransformer.extremumReduce_string hreduce hstring xs).2.2.2, hout,
      Option.some.injEq]
  · rw [if_neg hstring]
    rw [Bool.not_eq_true] at hstring
    have hshows := ReduceTransformer.sent_keeps_iff hkeeps hreduce hstring hbest
    have hkept := ReduceTransformer.keeps_sent hreduce hstring hxs hbest
    rw [ReduceTransformer.sent, hout, Option.getD_some] at hshows hkept
    rw [← hshows]
    constructor
    · rintro rfl
      exact hkeeps.refl out
    · exact fun hk => hkeeps.antisymm _ _ hk hkept

variable (round op) in
theorem reduceField_isSome (hxs : xs ≠ []) : ∃ out, (reduceField round op xs).2 = some out := by
  obtain ⟨init, last, rfl⟩ := (eq_nil_or_concat' xs).resolve_left hxs
  rw [ReduceTransformer.reduceField_concat]
  exact ⟨_, rfl⟩

/-- The values of a group that is not empty leave their aggregate in the field if and only if they
are aggregable. -/
theorem aggregates_iff (hxs : xs ≠ []) {out : V} (hout : (reduceField round op xs).2 = some out) :
    Aggregates op xs out ↔ Aggregable round op xs := by
  have hvalue := hout
  rw [reduceField_eq_result] at hvalue
  unfold Aggregates Aggregable
  unfold result at hvalue
  cases hname : op.name with
  | expr =>
    simp only [hname] at hvalue ⊢
    rw [hvalue]
    exact eq_comm
  | count =>
    simp only [hname, hxs, if_false, Option.some.injEq] at hvalue ⊢
    rw [hvalue]
  | sum =>
    simp only [hname] at hvalue ⊢
    split at hvalue
    · rename_i hstring
      simp only [hstring, if_true, hvalue, Option.mem_def, Option.some.injEq, forall_eq']
    · rename_i hstring
      simp only [hstring, if_false, Bool.false_eq_true]
      have htaken : taken op xs ≠ [] := mt (taken_eq_nil op).mp hxs
      cases hcases : taken op xs with
      | nil => exact absurd hcases htaken
      | cons x rest =>
        rw [hcases] at hvalue
        cases rest with
        | nil =>
          obtain rfl : x = out := Option.some.inj hvalue
          simp
        | cons y rest =>
          rw [total, Option.some.injEq] at hvalue
          rw [hvalue]
          simp
  | max =>
    have hbest : (out ∈ xs ∧ ∀ x ∈ xs, ReduceOperation.keepsMax out x = true) ↔
        BestShown ReduceOperation.keepsMax op xs :=
      best_iff Common.keeps_ge (fun option x => by
        rw [ReduceOperation.reduce, hname]
        rfl) hxs hout
    simp only [← hbest, ReduceOperation.keepsMax, decide_eq_true_eq]
  | min =>
    have hbest : (out ∈ xs ∧ ∀ x ∈ xs, ReduceOperation.keepsMin out x = true) ↔
        BestShown ReduceOperation.keepsMin op xs :=
      best_iff Common.keeps_le (fun option x => by
        rw [ReduceOperation.reduce, hname]
        rfl) hxs hout
    simp only [← hbest, ReduceOperation.keepsMin, decide_eq_true_eq]

end Field


/-! ## The rows of a group -/

section Rows

variable {ι : Type*} {V : ι → Type*} [∀ i, LinearOrder (V i)] {κ ν ο : Type*}
  {round : ℚ → ℚ} {options : ∀ i, ReduceOperation (V i)} {evaluate : κ → ν → Option (ο × ∀ i, V i)}

/-- The values of a field in the rows of a group that are not filtered out. -/
def column (evaluate : κ → ν → Option (ο × ∀ i, V i)) (key : κ) (i : ι) (values : List ν) :
    List (V i) :=
  (values.filterMap (evaluate key)).map fun row => row.2 i

/-- The output row of a group whose fields had these values before. -/
def outputRow (round : ℚ → ℚ) (options : ∀ i, ReduceOperation (V i))
    (evaluate : κ → ν → Option (ο × ∀ i, V i))
    (earlier : ∀ i, List (V i)) (key : κ) (values : List ν) : Option (ο × ∀ i, V i) :=
  (values.filterMap (evaluate key)).getLast?.map fun row =>
    (row.1, fun i =>
      (result round (options i) (earlier i ++ column evaluate key i values)).getD
      (options i).field.default)

/-- Options are where the reduction of these values has left them. -/
def After (round : ℚ → ℚ) (options : ∀ i, ReduceOperation (V i))
    (reduceOptions : ∀ i, ReduceOption (V i))
    (earlier : ∀ i, List (V i)) : Prop :=
  ∀ i, reduceOptions i = (reduceField round (options i) (earlier i)).1

theorem After.init : After round options (fun _ => {}) fun _ => [] := fun _ => rfl

omit [∀ i, LinearOrder (V i)] in
theorem column_concat (key : κ) (i : ι) (values : List ν) (value : ν) :
    column evaluate key i (values ++ [value]) =
      column evaluate key i values ++ ((evaluate key value).map fun row => row.2 i).toList := by
  unfold column
  rw [filterMap_append, map_append]
  cases hrow : evaluate key value with
  | none => simp [hrow]
  | some row => simp [hrow]

variable (evaluate) in
/-- The rows of a group take its options on. -/
theorem reduceGroup_spec {reduceOptions : ∀ i, ReduceOption (V i)} {earlier : ∀ i, List (V i)}
    (h : After round options reduceOptions earlier) (key : κ) (values : List ν) :
    After round options (reduceGroup round options evaluate reduceOptions key values).reduceOptions
        (fun i => earlier i ++ column evaluate key i values) ∧
      (reduceGroup round options evaluate reduceOptions key values).out =
        outputRow round options evaluate earlier key values := by
  -- on the rows, the last one at last
  induction values using List.reverseRecOn with
  | nil =>
    refine ⟨fun i => (h i).trans ?_, rfl⟩
    exact congrArg (fun xs => (reduceField round (options i) xs).1) (append_nil _).symm
  | append_singleton values value ih =>
    obtain ⟨hafter, hout⟩ := ih
    have hstep : reduceGroup round options evaluate reduceOptions key (values ++ [value]) =
        reduceRow round options evaluate key
        (reduceGroup round options evaluate reduceOptions key values) value := by
      unfold reduceGroup
      rw [foldl_append]
      rfl
    rw [hstep]
    unfold reduceRow outputRow
    simp only [column_concat, filterMap_append]
    cases hrow : evaluate key value with
    | none =>
      simp only [Option.map_none, Option.toList_none, append_nil, filterMap_cons,
        hrow, filterMap_nil]
      exact ⟨hafter, hout⟩
    | some row =>
      simp only [Option.map_some, Option.toList_some, filterMap_cons, hrow,
        filterMap_nil, getLast?_concat, ← append_assoc, Option.some.injEq,
        Prod.mk.injEq, true_and]
      have hconcat := fun i => ReduceTransformer.reduceField_concat round (options i)
        (earlier i ++ column evaluate key i values) (row.2 i)
      constructor
      · intro i
        simp only [hconcat i, hafter i]
      · funext i
        rw [← reduceField_eq_result, hconcat i, Option.getD_some, hafter i]

omit [∀ i, LinearOrder (V i)] in
theorem column_eq_nil {key : κ} {i : ι} {values : List ν} :
    column evaluate key i values = [] ↔ values.filterMap (evaluate key) = [] := map_eq_nil_iff

/-- A row of a group that is not filtered out altogether holds the aggregates of the values of the
group in the fields whose values are aggregable, and no others; what is sent for all rows of a
partition likewise. -/
theorem group_aggregates_iff :
    (∀ (key : κ) (values : List ν), values.filterMap (evaluate key) ≠ [] →
        ∃ row, (reduceGroup round options evaluate (fun _ => {}) key values).out = some row ∧
          ∀ i, Aggregates (options i) (column evaluate key i values) (row.2 i) ↔
            Aggregable round (options i) (column evaluate key i values)) ∧
      ∀ (evaluate : ν → Option (∀ i, V i)) (values : List ν), values.filterMap evaluate ≠ [] →
        ∀ i, Aggregates (options i) (ReduceTransformer.column evaluate i values)
            (ReduceTransformer.transform round options evaluate values i) ↔
          Aggregable round (options i) (ReduceTransformer.column evaluate i values) := by
  constructor
  · intro key values hvalues
    have hout : (reduceGroup round options evaluate (fun _ => {}) key values).out =
        outputRow round options evaluate (fun _ => []) key values :=
        (reduceGroup_spec evaluate After.init key values).2
    unfold outputRow at hout
    rw [List.getLast?_eq_some_getLast hvalues, Option.map_some] at hout
    refine ⟨_, hout, fun i => ?_⟩
    have hxs : column evaluate key i values ≠ [] := mt column_eq_nil.mp hvalues
    obtain ⟨out, hvalue⟩ := reduceField_isSome round (options i) hxs
    have hresult := hvalue
    rw [reduceField_eq_result] at hresult
    simp only [List.nil_append, hresult, Option.getD_some]
    exact aggregates_iff hxs hvalue
  · intro evaluate values hvalues i
    have hxs : ReduceTransformer.column evaluate i values ≠ [] := mt List.map_eq_nil_iff.mp hvalues
    obtain ⟨out, hvalue⟩ := reduceField_isSome round (options i) hxs
    rw [ReduceTransformer.transform_apply, hvalue, Option.getD_some]
    exact aggregates_iff hxs hvalue

end Rows

/-! ## Runs -/

/-- A sum in a field of type `int64`. -/
def integerSum (_ : Unit) : ReduceOperation ℤ :=
  { name := .sum, distinct := false, field := ReduceTransformer.int64 }

/-- An operator that makes a row of every value. -/
def everyRow (_ : Unit) (x : ℤ) : Option (Unit × (Unit → ℤ)) := some ((), fun _ => x)

/-- The values 3 and 5 are added up. -/
theorem group_aggregates_iff_sum :
    ∃ row, (reduceGroup id integerSum everyRow (fun _ => {}) () [3, 5]).out = some row ∧
      Aggregates (integerSum ()) (column everyRow () () [3, 5]) (row.2 ()) := by
  have hrows : [3, 5].filterMap (everyRow ()) ≠ [] := List.cons_ne_nil _ _
  obtain ⟨row, hrow, haggregates⟩ := group_aggregates_iff.1 () [3, 5] hrows
  have haggregable : Aggregable id (integerSum ()) (column everyRow () () [3, 5]) := by
    refine Or.inr ?_
    show ((⌊(3 : ℚ) + 5⌋ : ℤ) : ℚ) = 3 + (5 + 0)
    norm_num
  exact ⟨row, hrow, (haggregates ()).mpr haggregable⟩

/-- A maximum between the first and the last row is not found. -/
theorem not_aggregates_between :
    ¬ ∀ (options : Unit → ReduceOperation ℤ) (values : List ℤ) (row : Unit × (Unit → ℤ)), values ≠
    [] →
      (reduceGroup id options everyRow (fun _ => {}) () values).out = some row →
        Aggregates (options ()) values (row.2 ()) := by
  intro hall
  obtain ⟨-, hmax⟩ :=
    hall (fun _ => { name := .max, distinct := false, field := ReduceTransformer.int64 }) [1, 3, 2]
    ((), fun _ => 1) (List.cons_ne_nil _ _) rfl
  exact absurd (hmax 3 (by simp)) (by decide)

end ReduceByKeyTransformer

end Idgs.Rdd
