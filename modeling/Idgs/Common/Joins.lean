import Mathlib.Data.List.Nodup
import Mathlib.Data.List.Perm.Subperm

/-!
# Joins of keyed rows

Two lists of rows are joined by their keys. Where both are spread over partitions such that rows
with equal keys lie in partitions with equal indices, joining partition by partition gives the join
of the whole.
-/

namespace Idgs.Common

open Function List

variable {ι κ ν ω o : Type*}

/-- If every part is contained in its counterpart, the whole is. -/
theorem subperm_flatMap {l : List ι} {f g : ι → List o} (h : ∀ i ∈ l, (f i).Subperm (g i)) :
    (l.flatMap f).Subperm (l.flatMap g) := by
  induction l with
  | nil => exact List.Subperm.refl _
  | cons i l ih =>
    rw [flatMap_cons, flatMap_cons]
    exact (h i mem_cons_self).append (ih fun j hj => h j (mem_cons_of_mem i hj))

/-- A loop that cannot fail collects what its rounds give. -/
theorem mapM_eq_some {l : List ι} {f : ι → Option (List o)} (h : ∀ i ∈ l, ∃ out, f i = some out) :
    ∃ g : ι → List o,
    (∀ i ∈ l, f i = some (g i)) ∧ (l.mapM f).map List.flatten = some (l.flatMap g) := by
  refine ⟨fun i => (f i).getD [], fun i hi => ?_, ?_⟩
  · obtain ⟨out, hout⟩ := h i hi
    simp [hout]
  · induction l with
    | nil => rfl
    | cons i l ih =>
      obtain ⟨out, hout⟩ := h i mem_cons_self
      have hrest := ih fun j hj => h j (mem_cons_of_mem i hj)
      obtain ⟨outs, houts, hflat⟩ := Option.map_eq_some_iff.mp hrest
      simp [mapM_cons, hout, houts, hflat]

variable [DecidableEq κ]

/-- The values that are kept under a key. -/
def valuesOf (k : κ) (rows : List (κ × ω)) : List ω :=
  (rows.filter fun y => decide (y.1 = k)).map Prod.snd

theorem valuesOf_append (k : κ) (xs ys : List (κ × ω)) :
    valuesOf k (xs ++ ys) = valuesOf k xs ++ valuesOf k ys := by
  simp [valuesOf]

theorem valuesOf_eq_nil {k : κ} {rows : List (κ × ω)} (h : ∀ y ∈ rows, y.1 ≠ k) :
    valuesOf k rows = [] := by
  have hnone : rows.filter (fun y => decide (y.1 = k)) = [] := by
    rw [filter_eq_nil_iff]
    intro y hy
    simpa using h y hy
  rw [valuesOf, hnone, map_nil]

/-- Among rows with distinct keys, what is found under a key is all there is. -/
theorem valuesOf_eq_toList {k : κ} {rows : List (κ × ω)}
    (hdistinct : rows.Pairwise fun e e' => e.1 ≠ e'.1)
    {r : Option ω} (hr : ∀ v, (k, v) ∈ rows ↔ r = some v) : valuesOf k rows = r.toList := by
  cases r with
  | none =>
    refine valuesOf_eq_nil fun y hy hkey => ?_
    have hmem : (k, y.2) ∈ rows := by
      rw [← hkey]
      exact hy
    cases (hr y.2).mp hmem
  | some v =>
    obtain ⟨before, after, rfl⟩ := append_of_mem ((hr v).mpr rfl)
    obtain ⟨-, hafter, hbefore⟩ := pairwise_append.mp hdistinct
    have hnil : valuesOf k before = [] :=
      valuesOf_eq_nil fun y hy => hbefore y hy (k, v) mem_cons_self
    have hnil' : valuesOf k after = [] :=
      valuesOf_eq_nil fun y hy => ((pairwise_cons.mp hafter).1 y hy).symm
    rw [valuesOf_append, hnil, nil_append, ← singleton_append, valuesOf_append, hnil', append_nil]
    simp [valuesOf]

/-- The rows of grouped values. -/
def ungroup (groups : List (κ × List ω)) : List (κ × ω) := groups.flatMap fun e => e.2.map (e.1, ·)

theorem valuesOf_ungroup (k : κ) (groups : List (κ × List ω)) :
    valuesOf k (ungroup groups) = (valuesOf k groups).flatten := by
  induction groups with
  | nil => rfl
  | cons e groups ih =>
    rw [ungroup, flatMap_cons, valuesOf_append, ← singleton_append, valuesOf_append,
      flatten_append, ← ih]
    congr 1
    by_cases hk : e.1 = k
    · simp [valuesOf, hk, filter_map, comp_def]
    · simp [valuesOf, hk, filter_map, comp_def]

/-- Rows are known up to their order by what is kept under each key. -/
theorem perm_of_valuesOf {xs ys : List (κ × ω)} (h : ∀ k, valuesOf k xs = valuesOf k ys) :
    xs.Perm ys := by
  classical
  have hcount : ∀ (e : κ × ω) (l : List (κ × ω)), l.count e = (valuesOf e.1 l).count e.2 := by
    intro e l
    induction l with
    | nil => rfl
    | cons y l ih =>
      rw [count_cons, ih, ← singleton_append, valuesOf_append, count_append, Nat.add_comm]
      refine congrArg (· + _) ?_
      by_cases hkey : y.1 = e.1
      · have hiff : y = e ↔ y.2 = e.2 :=
          ⟨fun heq => heq ▸ rfl, fun hvalue => Prod.ext hkey hvalue⟩
        simp [valuesOf, hkey, count_singleton, hiff]
      · have hne : y ≠ e := fun heq => hkey (heq ▸ rfl)
        simp [valuesOf, hkey, hne]
  refine perm_iff_count.mpr fun e => ?_
  rw [hcount, hcount, h]

/-- The results for all pairs of rows with equal keys. -/
def matching (f : κ → ν → ω → Option o) (xs : List (κ × ν)) (ys : List (κ × ω)) : List o :=
  xs.flatMap fun x => (valuesOf x.1 ys).filterMap (f x.1 x.2)

/-- Of all partitions, only the one with the same index has values for a key. -/
theorem valuesOf_flatMap {l : List ι} (hl : l.Nodup) {Q : ι → List (κ × ω)} {i : ι} (hi : i ∈ l)
    {k : κ}
    (h : ∀ j ∈ l, j ≠ i → ∀ y ∈ Q j, y.1 ≠ k) : valuesOf k (l.flatMap Q) = valuesOf k (Q i) := by
  induction l with
  | nil => cases hi
  | cons j l ih =>
    obtain ⟨hj, hl⟩ := nodup_cons.mp hl
    rw [flatMap_cons, valuesOf_append]
    rcases mem_cons.mp hi with rfl | hi
    · have hrest : valuesOf k (l.flatMap Q) = [] := by
        refine valuesOf_eq_nil fun y hy => ?_
        obtain ⟨j, hjl, hy⟩ := mem_flatMap.mp hy
        refine h j (mem_cons_of_mem _ hjl) ?_ y hy
        rintro rfl
        exact hj hjl
      rw [hrest, append_nil]
    · have hne : j ≠ i := by
        rintro rfl
        exact hj hi
      rw [valuesOf_eq_nil (h j mem_cons_self hne), nil_append]
      exact ih hl hi fun j' hj' => h j' (mem_cons_of_mem _ hj')

/-- Where partitions with different indices have no key in common, the pairs are found partition by
partition. -/
theorem matching_flatMap (f : κ → ν → ω → Option o) {l : List ι} (hl : l.Nodup)
    {P : ι → List (κ × ν)}
    {Q : ι → List (κ × ω)} (h : ∀ i ∈ l, ∀ j ∈ l, j ≠ i → ∀ x ∈ P i, ∀ y ∈ Q j, y.1 ≠ x.1) :
    matching f (l.flatMap P) (l.flatMap Q) = l.flatMap fun i => matching f (P i) (Q i) := by
  unfold matching
  rw [flatMap_assoc]
  refine flatMap_congr fun i hi => flatMap_congr fun x hx => ?_
  rw [valuesOf_flatMap hl hi fun j hj hne y hy => h i hi j hj hne x hx y hy]

/-! ## Joins of more sides -/

/-- What is made of a result with the values of one side; where nothing is made, a padded side
leaves the result as it is. -/
def joinSide (padded : Bool) (f : ω → o → Option o) (values : List ω) (out : o) : List o :=
  match values.filterMap (f · out) with
  | [] => if padded then [out] else []
  | made => made

/-- What is made of results with the rows of all sides that have the key. -/
def nestedLoop (padded : Bool) (k : κ) :
    List (List (κ × ω) × (ω → o → Option o)) → List o → List o
  | [], outs => outs
  | side :: sides, outs =>
    nestedLoop padded k sides (outs.flatMap (joinSide padded side.2 (valuesOf k side.1)))

@[simp] theorem nestedLoop_nil (padded : Bool) (k : κ)
    (sides : List (List (κ × ω) × (ω → o → Option o))) : nestedLoop padded k sides [] = [] := by
  induction sides with
  | nil => rfl
  | cons side sides ih => rw [nestedLoop, flatMap_nil, ih]

omit [DecidableEq κ] in
theorem joinSide_of_ne_nil {padded : Bool} {f : ω → o → Option o} {values : List ω} {out : o}
    (h : values.filterMap (f · out) ≠ []) :
    joinSide padded f values out = values.filterMap (f · out) := by
  unfold joinSide
  split
  · rename_i hnil
    exact absurd hnil h
  · rfl

omit [DecidableEq κ] in
theorem joinSide_of_eq_nil {padded : Bool} {f : ω → o → Option o} {values : List ω} {out : o}
    (h : values.filterMap (f · out) = []) :
    joinSide padded f values out = if padded then [out] else [] := by
  rw [joinSide, h]

end Idgs.Common
