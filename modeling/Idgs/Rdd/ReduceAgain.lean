import Idgs.Rdd.ReduceByKey

/-!
# Reducing again

An RDD hands its rows on whenever one of its downstream RDDs is evaluated, so a partition may be
reduced more than once. `ReduceOption::reset` is not called, and a key goes on with the options that
it had at the end: counts and sums grow, unless they are of distinct values, and a maximum or a
minimum of distinct values is that of the first row.
-/

namespace Idgs.Rdd

open Function List

namespace ReduceByKeyTransformer

open ReduceTransformer (ends reduceField taken)

/-! ## Runs -/

section Code

variable {ι : Type*} {V : ι → Type*} [∀ i, LinearOrder (V i)] {κ ν ο : Type*} [DecidableEq κ]
    [DecidableEq ο]
  (round : ℚ → ℚ) (options : ∀ i, ReduceOperation (V i)) (evaluate : κ → ν → Option (ο × ∀ i, V i))

/-- A partition is transformed so many times: the options, and the rows that each transform puts. -/
def transforms (groups : List (κ × List ν)) : ℕ → ReduceOptions κ V × List (List (ο × ∀ i, V i))
  | 0 => (fun _ _ => {}, [])
  | k + 1 =>
    let s := transforms groups k
    let r := transform round options evaluate s.1 groups
    (r.1, s.2 ++ [r.2])

/-- What the output partition keeps: `put` adds its row to those that are there. -/
def kept (groups : List (κ × List ν)) (k : ℕ) : List (ο × ∀ i, V i) :=
  (transforms round options evaluate groups k).2.flatten

/-- `ReduceByKeyTransformer::transform` of one row of an RDD that is not persisted: the options of
the key of the output, and what the output partition keeps for it. The value replaces the one that
is there. -/
def transformRow (s : ο → Group ο V) (row : κ × ν) : ο → Group ο V :=
  match evaluate row.1 row.2 with
  | none => s
  | some out => Function.update s out.1 (reduceRow round options evaluate row.1 (s out.1) row.2)

/-- The rows of an RDD that is not persisted arrive so many times. -/
def transformRows (rows : List (κ × ν)) (k : ℕ) : ο → Group ο V :=
  (List.replicate k rows).flatten.foldl (transformRow round options evaluate) fun _ =>
  { reduceOptions := fun _ => {} }

/-- `ReduceTransformer::transform` of a partition so many times: the options of its one key, and the
values that are sent. -/
def sends {ρ : Type*} (evaluate : ρ → Option (∀ i, V i)) (rows : List ρ) :
    ℕ → (∀ i, ReduceOption (V i)) × List (∀ i, V i)
  | 0 => (fun _ => {}, [])
  | k + 1 =>
    let s := sends evaluate rows k
    let reduced :=
      reduceGroup round options (fun _ row => (evaluate row).map fun value => ((), value)) s.1
      () rows
    (reduced.reduceOptions,
      s.2 ++ [(reduced.out.map Prod.snd).getD fun i => (options i).field.default])

end Code

/-- A partition as `foreachGroup` goes through it: its groups have different keys. -/
structure Groups (κ ν : Type*) where
  groups : List (κ × List ν)
  nodup : (groups.map Prod.fst).Nodup

/-! ## The same values again -/

section Field

variable {V : Type*} [LinearOrder V]

/-- The last value was there before, or is at least as good as the first. -/
def LastKept (keeps : V → V → Bool) (xs : List V) : Prop :=
  ∀ first ∈ xs.head?, ∀ last ∈ xs.getLast?, last ∈ xs.dropLast ∨ keeps last first = true

/-- The values for which the field is the same after they came `j` more times. -/
def Repeatable (round : ℚ → ℚ) (op : ReduceOperation V) (xs : List V) (j : ℕ) : Prop :=
  match op.name with
  | .expr => True
  | .count => op.distinct = true ∨ op.field.cast ((j + 1) * xs.length : ℕ) = op.field.cast xs.length
  | .sum =>
    op.field.isString = true ∨ op.distinct = true ∨
      total round op (List.replicate (j + 1) xs).flatten = total round op xs
  | .max => op.field.isString = true ∨ op.distinct = false ∨ j = 0 ∨
      LastKept ReduceOperation.keepsMax xs
  | .min => op.field.isString = true ∨ op.distinct = false ∨ j = 0 ∨
      LastKept ReduceOperation.keepsMin xs

variable {round : ℚ → ℚ} {op : ReduceOperation V} {keeps : V → V → Bool} {xs : List V}

omit [LinearOrder V] in
theorem flatten_replicate_succ (j : ℕ) (xs : List V) :
    (List.replicate (j + 1) xs).flatten = (List.replicate j xs).flatten ++ xs := by
  rw [replicate_succ', flatten_append, flatten_singleton]

variable (op) in
/-- Distinct values are taken once, however often they come. -/
theorem taken_replicate (hdistinct : op.distinct = true) (j : ℕ) (xs : List V) :
    taken op (List.replicate (j + 1) xs).flatten = taken op xs := by
  unfold taken
  rw [if_pos hdistinct, if_pos hdistinct, replicate_succ, flatten_cons,
    Common.fresh_append, append_right_eq_self, filter_eq_nil_iff]
  intro y hy
  rw [Common.mem_fresh] at hy
  obtain ⟨ys, hys, hy⟩ := mem_flatten.mp hy
  rw [eq_of_mem_replicate hys] at hy
  simpa using hy

omit [LinearOrder V] in
theorem head?_replicate (j : ℕ) (hxs : xs ≠ []) :
    (List.replicate (j + 1) xs).flatten.head? = xs.head? := by
  rw [replicate_succ, flatten_cons, head?_append_of_ne_nil _ hxs]

omit [LinearOrder V] in
theorem getLast?_replicate (j : ℕ) (hxs : xs ≠ []) :
    (List.replicate (j + 1) xs).flatten.getLast? = xs.getLast? := by
  rw [flatten_replicate_succ, getLast?_append_of_ne_nil _ hxs]

theorem getLast?_taken_replicate (j : ℕ) (hxs : xs ≠ []) :
    (taken op (List.replicate (j + 1) xs).flatten).getLast? = (taken op xs).getLast? := by
  by_cases hdistinct : op.distinct = true
  · rw [taken_replicate op hdistinct]
  · unfold taken
    rw [if_neg hdistinct, if_neg hdistinct, getLast?_replicate j hxs]

/-- What is left of the first and the last value is the same after they came again if and only if
the last one does not count the first time or is not worse. -/
theorem ends_replicate (hkeeps : Common.Keeps keeps) (j : ℕ) (hxs : xs ≠ []) :
    ends keeps op (List.replicate (j + 1) xs).flatten = ends keeps op xs ↔
      op.distinct = false ∨ j = 0 ∨ LastKept keeps xs := by
  obtain ⟨first, hfirst⟩ : ∃ first, xs.head? = some first :=
    Option.ne_none_iff_exists'.mp (by simpa using hxs)
  obtain ⟨last, hlast⟩ : ∃ last, xs.getLast? = some last :=
    Option.ne_none_iff_exists'.mp (by simpa using hxs)
  unfold ends LastKept
  rw [head?_replicate j hxs, getLast?_replicate j hxs]
  simp only [hfirst, hlast, Option.bind_some, Option.map_some, Option.some.injEq, Option.mem_def,
    forall_eq']
  cases hdistinct : op.distinct with
  | false => simp
  | true =>
    cases j with
    | zero => simp
    | succ j =>
      -- the last value was there before, in the values that came before
      have hbefore : last ∈ (List.replicate (j + 1 + 1) xs).flatten.dropLast := by
        rw [flatten_replicate_succ, dropLast_append_of_ne_nil hxs]
        refine mem_append_left _
          (mem_flatten.mpr ⟨xs, ?_, mem_of_mem_getLast? hlast⟩)
        exact mem_replicate.mpr ⟨by omega, rfl⟩
      have hworse : Common.worse keeps first last = first ↔ keeps last first = true := by
        rw [Common.worse_eq_iff hkeeps]
        exact ⟨fun h => h.2.1, fun h => ⟨hkeeps.refl first, h, .inl rfl⟩⟩
      simp only [contains_iff_mem, hbefore, if_true, Bool.true_and, Bool.true_eq_false,
        false_or, Nat.add_eq_zero_iff, one_ne_zero, and_false]
      by_cases hdrop : last ∈ xs.dropLast
      · simp [hdrop]
      · simp only [hdrop, if_false, false_or, ← hworse]
        exact eq_comm

omit [LinearOrder V] in
theorem flatten_replicate_nil (j : ℕ) : (List.replicate j ([] : List V)).flatten = [] :=
  flatten_eq_nil_iff.mpr fun _ hxs => eq_of_mem_replicate hxs

variable (round op) in
theorem repeatable_nil (j : ℕ) : Repeatable round op [] j := by
  unfold Repeatable LastKept
  cases op.name <;> simp

variable (round op xs) in
/-- A field is the same after its values came again if and only if they are repeatable. -/
theorem result_replicate (j : ℕ) :
    result round op (List.replicate (j + 1) xs).flatten = result round op xs ↔
      Repeatable round op xs j := by
  by_cases hxs : xs = []
  · subst hxs
    rw [flatten_replicate_nil]
    exact iff_of_true rfl (repeatable_nil round op j)
  have hne : (List.replicate (j + 1) xs).flatten ≠ [] := by
    rw [flatten_replicate_succ]
    exact append_ne_nil_of_right_ne_nil _ hxs
  have hextremum : ∀ keeps : V → V → Bool, Common.Keeps keeps →
      ((if op.field.isString then (taken op (List.replicate (j + 1) xs).flatten).getLast?
          else ends keeps op (List.replicate (j + 1) xs).flatten) =
          (if op.field.isString then (taken op xs).getLast? else ends keeps op xs) ↔
        (op.field.isString = true ∨ op.distinct = false ∨ j = 0 ∨ LastKept keeps xs)) := by
    intro keeps hkeeps
    by_cases hstring : op.field.isString = true
    · simp only [hstring, if_true, getLast?_taken_replicate j hxs, true_or]
    · simp only [hstring, if_false, Bool.false_eq_true, false_or, ends_replicate hkeeps j hxs]
  unfold result Repeatable
  cases hname : op.name with
  | expr => simp only [getLast?_replicate j hxs]
  | count =>
    simp only [hne, hxs, if_false, Option.some.injEq]
    by_cases hdistinct : op.distinct = true
    · simp only [taken_replicate op hdistinct, hdistinct, true_or]
    · unfold taken
      rw [if_neg hdistinct, if_neg hdistinct, length_flatten, map_replicate, sum_replicate_nat]
      simp only [hdistinct, false_or, Bool.false_eq_true]
  | sum =>
    simp only
    by_cases hstring : op.field.isString = true
    · simp only [hstring, if_true, getLast?_taken_replicate j hxs, true_or]
    · by_cases hdistinct : op.distinct = true
      · simp only [taken_replicate op hdistinct, hdistinct, true_or, or_true]
      · unfold taken
        simp only [hstring, hdistinct, if_false, false_or, Bool.false_eq_true]
  | max => exact hextremum _ Common.keeps_ge
  | min => exact hextremum _ Common.keeps_le

end Field

/-! ## The rows again -/

section Rows

variable {ι : Type*} {V : ι → Type*} [∀ i, LinearOrder (V i)] {κ ν ο : Type*} [DecidableEq κ]
    [DecidableEq ο]
  {round : ℚ → ℚ} {options : ∀ i, ReduceOperation (V i)} {evaluate : κ → ν → Option (ο × ∀ i, V i)}

/-- What is left of a field after its values came again. -/
theorem getD_result_replicate (i : ι) {xs : List (V i)} (j : ℕ) (hxs : xs ≠ []) :
    (result round (options i) (List.replicate (j + 1) xs).flatten).getD (options i).field.default =
        (result round (options i) xs).getD (options i).field.default ↔ Repeatable round
        (options i) xs j := by
  have hne : (List.replicate (j + 1) xs).flatten ≠ [] := by
    rw [flatten_replicate_succ]
    exact append_ne_nil_of_right_ne_nil _ hxs
  obtain ⟨out, hout⟩ := reduceField_isSome round (options i) hxs
  obtain ⟨again, hagain⟩ := reduceField_isSome round (options i) hne
  rw [reduceField_eq_result] at hout hagain
  rw [← result_replicate, hout, hagain]
  simp only [Option.getD_some, Option.some.injEq]

omit [DecidableEq κ] [DecidableEq ο] in
/-- A group gives the same row after its rows came `j` times if and only if the values of all fields
are repeatable. -/
theorem outputRow_replicate (key : κ) (values : List ν) (j : ℕ) :
    outputRow round options evaluate
    (fun i => (List.replicate j (column evaluate key i values)).flatten) key values =
        outputRow round options evaluate (fun _ => []) key values ↔
      ∀ i, Repeatable round (options i) (column evaluate key i values) j := by
  unfold outputRow
  by_cases hvalues : values.filterMap (evaluate key) = []
  · have hnil : ∀ i, column evaluate key i values = [] := fun i => column_eq_nil.mpr hvalues
    simp only [hvalues, getLast?_nil, Option.map_none, hnil, repeatable_nil, implies_true]
  · rw [getLast?_eq_some_getLast hvalues]
    simp only [Option.map_some, Option.some.injEq, Prod.mk.injEq, true_and, nil_append,
      ← flatten_replicate_succ, funext_iff]
    exact forall_congr' fun i => getD_result_replicate i j (mt column_eq_nil.mp hvalues)

/-- The values of a field in the groups with this key. -/
def keyColumn (evaluate : κ → ν → Option (ο × ∀ i, V i)) (groups : List (κ × List ν)) (key : κ)
    (i : ι) :
    List (V i) :=
  groups.flatMap fun group => if group.1 = key then column evaluate key i group.2 else []

omit [∀ i, LinearOrder (V i)] [DecidableEq ο] in
theorem keyColumn_of_notMem {groups : List (κ × List ν)} {key : κ}
    (hkey : key ∉ groups.map Prod.fst) (i : ι) :
    keyColumn evaluate groups key i = [] := by
  refine flatMap_eq_nil_iff.mpr fun group hgroup => if_neg ?_
  rintro rfl
  exact hkey (mem_map_of_mem hgroup)

omit [∀ i, LinearOrder (V i)] [DecidableEq ο] in
/-- A key has the rows of its group. -/
theorem keyColumn_of_mem {groups : List (κ × List ν)} (hnodup : (groups.map Prod.fst).Nodup)
    {group : κ × List ν} (hgroup : group ∈ groups) (i : ι) :
    keyColumn evaluate groups group.1 i = column evaluate group.1 i group.2 := by
  induction groups with
  | nil => cases hgroup
  | cons first rest ih =>
    rw [map_cons, nodup_cons] at hnodup
    have hcons : keyColumn evaluate (first :: rest) group.1 i =
        (if first.1 = group.1 then column evaluate group.1 i first.2 else []) ++
          keyColumn evaluate rest group.1 i := flatMap_cons
    rw [hcons]
    rcases mem_cons.mp hgroup with rfl | hrest
    · rw [if_pos rfl, keyColumn_of_notMem hnodup.1, append_nil]
    · have hne : first.1 ≠ group.1 := by
        intro heq
        exact hnodup.1 (heq ▸ mem_map_of_mem hrest)
      rw [if_neg hne, nil_append, ih hnodup.2 hrest]

/-- The options of all keys are where these values have left them. -/
def KeysAfter (round : ℚ → ℚ) (options : ∀ i, ReduceOperation (V i))
    (reduceOptions : ReduceOptions κ V)
    (earlier : κ → ∀ i, List (V i)) : Prop :=
  ∀ key, After round options (reduceOptions key) (earlier key)

variable (evaluate) in
omit [DecidableEq ο] in
/-- A transform takes the options of its keys on. -/
theorem transform_spec {reduceOptions : ReduceOptions κ V} {earlier : κ → ∀ i, List (V i)}
    (h : KeysAfter round options reduceOptions earlier) {groups : List (κ × List ν)}
    (hnodup : (groups.map Prod.fst).Nodup) :
    KeysAfter round options (transform round options evaluate reduceOptions groups).1
        (fun key i => earlier key i ++ keyColumn evaluate groups key i) ∧
      (transform round options evaluate reduceOptions groups).2 =
        groups.filterMap fun group => outputRow round options evaluate
        (earlier group.1) group.1 group.2 := by
  -- on the groups, the last one at last; its key had none before
  induction groups using List.reverseRecOn with
  | nil =>
    refine ⟨fun key i => (h key i).trans ?_, rfl⟩
    exact congrArg (fun xs => (reduceField round (options i) xs).1) (append_nil _).symm
  | append_singleton groups group ih =>
    rw [map_append, map_singleton, nodup_append] at hnodup
    obtain ⟨hafter, hrows⟩ := ih hnodup.1
    have hnew : group.1 ∉ groups.map Prod.fst :=
      fun hmem => hnodup.2.2 _ hmem _ (mem_singleton_self _) rfl
    have hstep : transform round options evaluate reduceOptions (groups ++ [group]) =
        (update (transform round options evaluate reduceOptions groups).1 group.1
          (reduceGroup round options evaluate
            ((transform round options evaluate reduceOptions groups).1 group.1)
            group.1 group.2).reduceOptions,
          (transform round options evaluate reduceOptions groups).2 ++
            (reduceGroup round options evaluate
            ((transform round options evaluate reduceOptions groups).1 group.1)
              group.1 group.2).out.toList) := by
      unfold transform
      rw [foldl_append]
      rfl
    have hearlier : After round options
        ((transform round options evaluate reduceOptions groups).1 group.1)
        (earlier group.1) := by
      intro i
      have hi := hafter group.1 i
      simp only [keyColumn_of_notMem hnew, append_nil] at hi
      exact hi
    obtain ⟨hoptions, hout⟩ := reduceGroup_spec evaluate hearlier group.1 group.2
    rw [hstep]
    constructor
    · intro key i
      simp only [keyColumn, flatMap_append, flatMap_singleton]
      by_cases hkey : key = group.1
      · subst hkey
        rw [update_self, if_pos rfl]
        have hnil : (groups.flatMap fun other =>
            if other.1 = group.1 then column evaluate group.1 i other.2 else []) =
            [] := keyColumn_of_notMem hnew i
        rw [hnil, nil_append]
        exact hoptions i
      · rw [update_of_ne hkey, if_neg (Ne.symm hkey), append_nil]
        exact hafter key i
    · rw [hrows, hout, filterMap_append]
      congr 1

omit [DecidableEq κ] in
theorem KeysAfter.init : KeysAfter round options (fun (_ : κ) _ => {}) fun _ _ => [] :=
  fun _ => After.init

omit [DecidableEq ο] in
/-- The rows of each transform. -/
theorem transforms_spec (input : Groups κ ν) (k : ℕ) :
    KeysAfter round options (transforms round options evaluate input.groups k).1
        (fun key i => (List.replicate k (keyColumn evaluate input.groups key i)).flatten) ∧
      (transforms round options evaluate input.groups k).2 =
        (List.range k).map fun j => input.groups.filterMap fun group =>
          outputRow round options evaluate
            (fun i => (List.replicate j (column evaluate group.1 i group.2)).flatten) group.1
              group.2 := by
  induction k with
  | zero => exact ⟨KeysAfter.init, rfl⟩
  | succ k ih =>
    obtain ⟨hafter, hrows⟩ := ih
    obtain ⟨hafter', hrows'⟩ := transform_spec evaluate hafter input.nodup
    constructor
    · intro key i
      refine (hafter' key i).trans ?_
      exact congrArg (fun xs => (reduceField round (options i) xs).1)
        (flatten_replicate_succ k _).symm
    · rw [range_succ, map_append, map_singleton, ← hrows]
      show _ ++
          [(transform round options evaluate (transforms round options evaluate input.groups k).1
        input.groups).2] = _
      rw [hrows']
      refine congrArg (fun rows => _ ++ [rows]) (filterMap_congr fun group hgroup => ?_)
      simp only [keyColumn_of_mem input.nodup hgroup]

omit [∀ i, LinearOrder (V i)] [DecidableEq κ] [DecidableEq ο] in
/-- Where the same elements have images, the lists of images are equal if and only if all images
are. -/
theorem filterMap_eq_iff {α β : Type*} {f g : α → Option β} {l : List α}
    (h : ∀ a ∈ l, (f a).isSome = (g a).isSome) :
    l.filterMap f = l.filterMap g ↔ ∀ a ∈ l, f a = g a := by
  induction l with
  | nil => simp
  | cons a l ih =>
    have hrest := ih fun b hb => h b (mem_cons_of_mem _ hb)
    have hfirst := h a mem_cons_self
    rw [forall_mem_cons, ← hrest, filterMap_cons, filterMap_cons]
    cases hf : f a with
    | none =>
      rw [hf] at hfirst
      rw [Option.isSome_eq_false_iff.mp hfirst.symm |> Option.isNone_iff_eq_none.mp]
      simp
    | some b =>
      rw [hf] at hfirst
      obtain ⟨b', hg⟩ := Option.isSome_iff_exists.mp hfirst.symm
      rw [hg]
      simp

omit [DecidableEq ο] in
/-- Every transform puts the rows of the first one if and only if the values of all groups are
repeatable. -/
theorem transforms_same_iff (input : Groups κ ν) (k : ℕ) :
    (∀ rows ∈ (transforms round options evaluate input.groups k).2,
        rows = (transform round options evaluate (fun _ _ => {}) input.groups).2) ↔
      ∀ group ∈ input.groups, ∀ i, ∀ j < k, Repeatable round (options i)
      (column evaluate group.1 i group.2) j := by
  have hinit : KeysAfter round options (fun (_ : κ) _ => {}) fun _ _ => [] := KeysAfter.init
  obtain ⟨-, hfirst⟩ := transform_spec evaluate hinit input.nodup
  rw [(transforms_spec input k).2, hfirst]
  simp only [forall_mem_map, mem_range]
  have hrun : ∀ j, (input.groups.filterMap fun group => outputRow round options evaluate
        (fun i => (List.replicate j (column evaluate group.1 i group.2)).flatten) group.1 group.2) =
      (input.groups.filterMap fun group =>
      outputRow round options evaluate (fun _ => []) group.1 group.2) ↔
        ∀ group ∈ input.groups, ∀ i,
        Repeatable round (options i) (column evaluate group.1 i group.2) j := by
    intro j
    rw [filterMap_eq_iff fun group _ => by simp only [outputRow, Option.isSome_map]]
    exact forall₂_congr fun group _ => outputRow_replicate group.1 group.2 j
  simp only [hrun]
  constructor
  · exact fun hall group hgroup i j hj => hall j hj group hgroup i
  · exact fun hall j hj group hgroup i => hall group hgroup i j hj

omit [DecidableEq ο] in
/-- The output partition keeps the same rows if and only if it keeps none: every transform adds as
many. -/
theorem kept_same_iff (input : Groups κ ν) (k : ℕ) :
    kept round options evaluate input.groups (k + 1) = kept round options evaluate input.groups 1 ↔
      k = 0 ∨ ∀ group ∈ input.groups, group.2.filterMap (evaluate group.1) = [] := by
  -- the number of groups that give a row
  let m := input.groups.countP fun group => (group.2.filterMap (evaluate group.1)).getLast?.isSome
  have hlength : ∀ k, (kept round options evaluate input.groups k).length = k * m := by
    intro k
    unfold kept
    rw [(transforms_spec input k).2, length_flatten, map_map]
    have hrun : ∀ j,
        (List.length ∘ fun j => input.groups.filterMap fun group => outputRow round options evaluate
        (fun i => (List.replicate j (column evaluate group.1 i group.2)).flatten) group.1 group.2)
          j = m := by
      intro j
      show (List.filterMap _ _).length = m
      rw [length_filterMap_eq_countP]
      exact countP_congr fun group _ => by simp only [outputRow, Option.isSome_map]
    rw [map_congr_left fun j _ => hrun j, map_const', length_range, sum_replicate_nat]
  have hm : m = 0 ↔ ∀ group ∈ input.groups, group.2.filterMap (evaluate group.1) = [] := by
    refine countP_eq_zero.trans (forall₂_congr fun group _ => ?_)
    rw [Bool.not_eq_true, Option.isSome_eq_false_iff, Option.isNone_iff_eq_none,
      getLast?_eq_none_iff]
  rw [← hm]
  constructor
  · intro hsame
    have hsum := congrArg List.length hsame
    rw [hlength, hlength, Nat.add_mul, Nat.one_mul, Nat.add_eq_right, Nat.mul_eq_zero] at hsum
    exact hsum
  · rintro (rfl | hzero)
    · rfl
    · have hnil : ∀ k, kept round options evaluate input.groups k = [] := by
        intro k
        exact length_eq_zero_iff.mp (by rw [hlength k, hzero, Nat.mul_zero])
      rw [hnil, hnil]

omit [DecidableEq ο] in
/-- The row of a group is the one that it gives alone, whatever groups come before it. -/
theorem transform_alone (input : Groups κ ν) :
    (transform round options evaluate (fun _ _ => {}) input.groups).2 =
      input.groups.flatMap fun group =>
      (transform round options evaluate (fun _ _ => {}) [group]).2 := by
  have hall : ∀ groups : List (κ × List ν), (groups.map Prod.fst).Nodup →
      (transform round options evaluate (fun _ _ => {}) groups).2 =
        groups.filterMap fun group =>
        outputRow round options evaluate (fun _ => []) group.1 group.2 :=
    fun groups hnodup => (transform_spec evaluate KeysAfter.init hnodup).2
  rw [hall _ input.nodup, filterMap_eq_flatMap_toList]
  refine flatMap_congr fun group _ => ?_
  have hone : ([group].map Prod.fst).Nodup := nodup_singleton group.1
  rw [hall _ hone, filterMap_eq_flatMap_toList, flatMap_singleton]

/-! ## Rows one by one -/

/-- The values of the rows whose output has this key. -/
def keyRows (evaluate : κ → ν → Option (ο × ∀ i, V i)) (key : ο) (rows : List (κ × ν)) :
    List (∀ i, V i) :=
  rows.filterMap fun row => (evaluate row.1 row.2).bind fun out => if out.1 = key then some out.2
    else none

omit [DecidableEq κ] in
theorem transformRow_none {s : ο → Group ο V} {row : κ × ν} (hrow : evaluate row.1 row.2 = none) :
    transformRow round options evaluate s row = s := by
  unfold transformRow
  rw [hrow]

omit [DecidableEq κ] in
theorem transformRow_some {s : ο → Group ο V} {row : κ × ν} {out : ο × ∀ i, V i}
    (hrow : evaluate row.1 row.2 = some out) :
    transformRow round options evaluate s row = update s out.1
      { reduceOptions := fun i => ((options i).reduce round ((s out.1).reduceOptions i) (out.2 i)).1
        out := some (out.1, fun i =>
          ((options i).reduce round ((s out.1).reduceOptions i) (out.2 i)).2) } := by
  unfold transformRow reduceRow
  rw [hrow]

omit [DecidableEq κ] in
/-- Rows that arrive one by one. -/
theorem foldl_transformRow (rows : List (κ × ν)) (key : ο) :
    After round options
        (rows.foldl (transformRow round options evaluate) (fun _ =>
          { reduceOptions := fun _ => {} }) key).reduceOptions
        (fun i => (keyRows evaluate key rows).map fun value => value i) ∧
      (rows.foldl (transformRow round options evaluate) (fun _ =>
      { reduceOptions := fun _ => {} }) key).out =
        (keyRows evaluate key rows).getLast?.map fun _ =>
          (key, fun i =>
            (result round (options i) ((keyRows evaluate key rows).map fun value => value i)).getD
            (options i).field.default) := by
  -- on the rows, the last one at last
  induction rows using List.reverseRecOn with
  | nil => exact ⟨fun _ => rfl, rfl⟩
  | append_singleton rows row ih =>
    obtain ⟨hafter, hout⟩ := ih
    rw [foldl_append, foldl_cons, foldl_nil]
    have hkeyRows : keyRows evaluate key (rows ++ [row]) = keyRows evaluate key rows ++
        ((evaluate row.1 row.2).bind fun out => if out.1 = key then some out.2
        else none).toList := by
      unfold keyRows
      rw [filterMap_append, filterMap_eq_flatMap_toList _ [row], flatMap_singleton]
    rw [hkeyRows]
    cases hrow : evaluate row.1 row.2 with
    | none =>
      rw [transformRow_none hrow]
      simp only [Option.bind_none, Option.toList_none, append_nil]
      exact ⟨hafter, hout⟩
    | some out =>
      rw [transformRow_some hrow]
      simp only [Option.bind_some]
      by_cases hkey : out.1 = key
      · subst hkey
        rw [update_self, if_pos rfl]
        simp only [Option.toList_some, getLast?_concat, Option.map_some, map_append,
          map_singleton]
        have hconcat := fun i => ReduceTransformer.reduceField_concat round (options i)
          ((keyRows evaluate out.1 rows).map fun value => value i) (out.2 i)
        constructor
        · intro i
          simp only [hconcat i, hafter i]
        · simp only [Option.some.injEq, Prod.mk.injEq, true_and]
          funext i
          rw [← reduceField_eq_result, hconcat i, Option.getD_some, hafter i]
      · rw [update_of_ne (Ne.symm hkey), if_neg hkey, Option.toList_none, append_nil]
        exact ⟨hafter, hout⟩

omit [∀ i, LinearOrder (V i)] [DecidableEq κ] in
theorem keyRows_replicate (key : ο) (rows : List (κ × ν)) (j : ℕ) :
    keyRows evaluate key (List.replicate j rows).flatten =
      (List.replicate j (keyRows evaluate key rows)).flatten := by
  unfold keyRows
  rw [filterMap_flatten, map_replicate]

omit [DecidableEq κ] in
/-- The output partition keeps the same row for every key after all rows came `k` more times if and
only if the values of all keys are repeatable. -/
theorem transformRows_same_iff (rows : List (κ × ν)) (k : ℕ) :
    (∀ key, (transformRows round options evaluate rows (k + 1) key).out =
        (transformRows round options evaluate rows 1 key).out) ↔
      ∀ key i, Repeatable round (options i)
      ((keyRows evaluate key rows).map fun value => value i) k := by
  refine forall_congr' fun key => ?_
  unfold transformRows
  rw [(foldl_transformRow _ key).2, (foldl_transformRow _ key).2, keyRows_replicate,
    keyRows_replicate]
  have hone : (List.replicate 1 (keyRows evaluate key rows)).flatten = keyRows evaluate key rows :=
    flatten_singleton
  rw [hone]
  by_cases hrows : keyRows evaluate key rows = []
  · simp only [hrows, flatten_replicate_nil, getLast?_nil, Option.map_none, map_nil,
      repeatable_nil, implies_true]
  · have hmap : ∀ i,
      (List.replicate (k + 1) (keyRows evaluate key rows)).flatten.map (fun value => value i) =
        (List.replicate (k + 1) ((keyRows evaluate key rows).map fun value =>
        value i)).flatten := by
      intro i
      rw [map_flatten, map_replicate]
    rw [getLast?_replicate k hrows, getLast?_eq_some_getLast hrows]
    simp only [Option.map_some, Option.some.injEq, Prod.mk.injEq, true_and, funext_iff, hmap]
    exact forall_congr' fun i => getD_result_replicate i k (by simpa using hrows)

/-! ## Reducing all rows of a partition -/

omit [∀ i, LinearOrder (V i)] in
theorem column_unit (evaluate : ν → Option (∀ i, V i)) (i : ι) (rows : List ν) :
    column (fun (_ : Unit) row => (evaluate row).map fun value => ((), value)) () i rows =
      ReduceTransformer.column evaluate i rows := by
  unfold column ReduceTransformer.column
  rw [← map_filterMap, map_map]
  rfl

/-- The values that are sent. -/
theorem sends_spec (evaluate : ν → Option (∀ i, V i)) (rows : List ν) (k : ℕ) :
    After round options (sends round options evaluate rows k).1
        (fun i => (List.replicate k (ReduceTransformer.column evaluate i rows)).flatten) ∧
      (sends round options evaluate rows k).2 = (List.range k).map fun j i =>
        (result round (options i)
          (List.replicate (j + 1) (ReduceTransformer.column evaluate i rows)).flatten).getD
          (options i).field.default := by
  induction k with
  | zero => exact ⟨After.init, rfl⟩
  | succ k ih =>
    obtain ⟨hafter, hvalues⟩ := ih
    obtain ⟨hafter', hout⟩ :=
      reduceGroup_spec (fun (_ : Unit) row => (evaluate row).map fun value => ((), value)) hafter
        () rows
    constructor
    · intro i
      refine (hafter' i).trans (congrArg (fun xs => (reduceField round (options i) xs).1) ?_)
      simp only [flatten_replicate_succ, column_unit]
    · rw [range_succ, map_append, map_singleton, ← hvalues]
      refine congrArg (fun value => _ ++ [value]) ?_
      rw [hout]
      funext i
      unfold outputRow
      by_cases hrows : rows.filterMap evaluate = []
      · have hcolumn : ReduceTransformer.column evaluate i rows = [] :=
          map_eq_nil_iff.mpr hrows
        have hnone : (rows.filterMap fun row => (evaluate row).map fun value => ((), value)) =
            [] := by
          rw [← map_filterMap, hrows, map_nil]
        rw [hnone, hcolumn, flatten_replicate_nil, ← reduceField_eq_result]
        rfl
      · obtain ⟨last, hlast⟩ : ∃ last, (rows.filterMap evaluate).getLast? = some last :=
          Option.ne_none_iff_exists'.mp (by simpa using hrows)
        rw [← map_filterMap, getLast?_map, hlast]
        simp only [Option.map_some, Option.getD_some, column_unit, flatten_replicate_succ]

/-- A partition sends the same value every time if and only if the values of all fields are
repeatable. -/
theorem sends_same_iff (evaluate : ν → Option (∀ i, V i)) (rows : List ν) (k : ℕ) :
    (∀ value ∈ (sends round options evaluate rows k).2,
        value = ReduceTransformer.transform round options evaluate rows) ↔
      ∀ i, ∀ j < k, Repeatable round (options i) (ReduceTransformer.column evaluate i rows) j := by
  rw [(sends_spec evaluate rows k).2]
  simp only [forall_mem_map, mem_range, funext_iff, ReduceTransformer.transform_apply,
    reduceField_eq_result]
  have hfield : ∀ i j, (result round (options i)
        (List.replicate (j + 1) (ReduceTransformer.column evaluate i rows)).flatten).getD
          (options i).field.default =
      (result round (options i) (ReduceTransformer.column evaluate i rows)).getD
      (options i).field.default ↔
        Repeatable round (options i) (ReduceTransformer.column evaluate i rows) j := by
    intro i j
    by_cases hxs : ReduceTransformer.column evaluate i rows = []
    · rw [hxs, flatten_replicate_nil]
      exact iff_of_true rfl (repeatable_nil round (options i) j)
    · exact getD_result_replicate i j hxs
  simp only [hfield]
  constructor
  · exact fun hall i j hj => hall j hj i
  · exact fun hall j hj i => hall i j hj

end Rows

end ReduceByKeyTransformer

end Idgs.Rdd
