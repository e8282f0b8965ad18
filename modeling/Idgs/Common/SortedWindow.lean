import Idgs.Common.ThreeWay
import Mathlib.Data.List.Sort
import Mathlib.Data.List.TakeWhile
import Mathlib.Algebra.Order.BigOperators.Group.List

/-!
# The first elements of a sorted list

A loop that inserts elements in order and drops the last one whenever there are too many keeps the
first ones of the sorted list. When the elements are split into parts, the first ones of all parts
have those of the whole among them, up to the order of elements that are alike.
-/

namespace Idgs.Common

open List

variable {α : Type*}

/-- No element is below one that stands before it. -/
def SortedBy (less : α → α → Bool) (l : List α) : Prop := l.Pairwise fun a b => less b a = false

/-- The element is inserted behind those that are alike. -/
def insertBehind (less : α → α → Bool) (l : List α) (x : α) : List α :=
  l.orderedInsert (fun a b => less a b = true) x

/-- The element is inserted, and the last one is dropped if there are more than `n`. -/
def insertWithin (less : α → α → Bool) (n : ℕ) (l : List α) (x : α) : List α :=
  if n < (insertBehind less l x).length then (insertBehind less l x).dropLast
  else insertBehind less l x

/-- All elements, inserted one after the other. -/
def sorted (less : α → α → Bool) (xs : List α) : List α := xs.foldl (insertBehind less) []

variable {less : α → α → Bool}

theorem eq_false_of_less (h : IsStrictWeak (less · · = true)) {a b : α} (hab : less a b = true) :
    less b a = false :=
  Bool.eq_false_iff.mpr (h.asymm a b hab)

theorem eq_false_trans (h : IsStrictWeak (less · · = true)) {a b c : α} (hab : less a b = false)
    (hbc : less b c = false) : less a c = false :=
  Bool.eq_false_iff.mpr (h.trans_not (Bool.eq_false_iff.mp hab) (Bool.eq_false_iff.mp hbc))

variable (less) in
theorem length_insertBehind (l : List α) (x : α) : (insertBehind less l x).length = l.length + 1 :=
  orderedInsert_length _ _ _

variable (less) in
theorem insertBehind_perm (l : List α) (x : α) : (insertBehind less l x).Perm (x :: l) :=
  perm_orderedInsert _ _ _

theorem SortedBy.insertBehind (h : IsStrictWeak (less · · = true)) {l : List α}
    (hl : SortedBy less l) (x : α) :
    SortedBy less (insertBehind less l x) := by
  induction l with
  | nil => exact pairwise_singleton _ _
  | cons y l ih =>
    obtain ⟨hy, hl⟩ := pairwise_cons.mp hl
    unfold Common.insertBehind
    rw [orderedInsert_cons]
    by_cases hxy : less x y = true
    · rw [if_pos hxy]
      have hyx := eq_false_of_less h hxy
      refine pairwise_cons.mpr ⟨fun z hz => ?_, pairwise_cons.mpr ⟨hy, hl⟩⟩
      rcases mem_cons.mp hz with rfl | hz
      · exact hyx
      · exact eq_false_trans h (hy z hz) hyx
    · rw [if_neg hxy]
      refine pairwise_cons.mpr ⟨fun z hz => ?_, ih hl⟩
      rcases mem_cons.mp ((insertBehind_perm less l x).mem_iff.mp hz) with rfl | hz
      · exact Bool.not_eq_true _ ▸ hxy
      · exact hy z hz

/-- The first elements after an insertion are decided by the first ones before it. -/
theorem take_insertBehind (n : ℕ) (l : List α) (x : α) :
    (insertBehind less (l.take n) x).take n = (insertBehind less l x).take n := by
  unfold insertBehind
  induction l generalizing n with
  | nil => rw [take_nil]
  | cons y l ih =>
    cases n with
    | zero => rw [take_zero, take_zero]
    | succ n =>
      rw [take_succ_cons, orderedInsert_cons, orderedInsert_cons]
      by_cases hxy : less x y = true
      · rw [if_pos hxy, if_pos hxy, take_succ_cons, take_succ_cons]
        refine congrArg (x :: ·) ?_
        cases n with
        | zero => rw [take_zero, take_zero]
        | succ n =>
          rw [take_succ_cons, take_succ_cons, take_take,
          Nat.min_eq_left (by omega)]
      · rw [if_neg hxy, if_neg hxy, take_succ_cons, take_succ_cons, ih]

theorem insertWithin_take (n : ℕ) (l : List α) (x : α) :
    insertWithin less n (l.take n) x = (insertBehind less l x).take n := by
  have hlength := length_insertBehind less (l.take n) x
  have hle : (l.take n).length ≤ n := length_take_le n l
  rw [← take_insertBehind]
  unfold insertWithin
  split
  · have hn : (insertBehind less (l.take n) x).length - 1 = n := by omega
    rw [dropLast_eq_take, hn]
  · exact (take_of_length_le (by omega)).symm

/-- The loop keeps the first elements of the sorted list. -/
theorem foldl_insertWithin (n : ℕ) (xs : List α) (l : List α) :
    xs.foldl (insertWithin less n) (l.take n) = (xs.foldl (insertBehind less) l).take n := by
  induction xs generalizing l with
  | nil => rfl
  | cons x xs ih =>
    rw [foldl_cons, foldl_cons, insertWithin_take, ih]

theorem foldl_insertBehind_perm (xs l : List α) :
    (xs.foldl (insertBehind less) l).Perm (l ++ xs) := by
  induction xs generalizing l with
  | nil => rw [append_nil]; rfl
  | cons x xs ih =>
    rw [foldl_cons]
    refine (ih _).trans (((insertBehind_perm less l x).append_right xs).trans ?_)
    exact perm_middle.symm

variable (less) in
theorem sorted_perm (xs : List α) : (sorted less xs).Perm xs := foldl_insertBehind_perm xs []

section

variable (h : IsStrictWeak (less · · = true))

include h

theorem sortedBy_sorted (xs : List α) :
    SortedBy less (sorted less xs) := by
  have hall : ∀ l, SortedBy less l → SortedBy less (xs.foldl (insertBehind less) l) := by
    intro l hl
    induction xs generalizing l with
    | nil => exact hl
    | cons x xs ih => exact ih _ (hl.insertBehind h x)
  exact hall [] List.Pairwise.nil

/-- In a sorted list the first elements are not above `x` if there are so many that are not. -/
theorem SortedBy.take_of_countP {l : List α} (hl : SortedBy less l) {x : α} {n : ℕ}
    (hn : n ≤ l.countP fun a => !less x a) : ∀ a ∈ l.take n, less x a = false := by
  induction l generalizing n with
  | nil => intro a ha; rw [take_nil] at ha; cases ha
  | cons y l ih =>
    obtain ⟨hy, hl⟩ := pairwise_cons.mp hl
    cases n with
    | zero => intro a ha; rw [take_zero] at ha; cases ha
    | succ n =>
      by_cases hxy : less x y = true
      · -- all others are above `x` too
        have hnone : (y :: l).countP (fun a => !less x a) = 0 := by
          refine countP_eq_zero.mpr fun a ha => ?_
          rw [Bool.not_eq_true, Bool.not_eq_false']
          rcases mem_cons.mp ha with rfl | ha
          · exact hxy
          · by_contra hxa
            have := eq_false_trans h (Bool.not_eq_true _ ▸ hxa) (hy a ha)
            rw [hxy] at this
            cases this
        omega
      · rw [Bool.not_eq_true] at hxy
        rw [countP_cons, hxy, Bool.not_false, if_pos rfl] at hn
        rw [take_succ_cons]
        intro a ha
        rcases mem_cons.mp ha with rfl | ha
        · exact hxy
        · exact ih hl (by omega) a ha

/-- The first elements of a sorted list are those of a sorted list of more elements, if the others
are not below them. -/
theorem exists_sorted_take {l rest : List α} (hl : SortedBy less l) {n : ℕ}
    (hrest : ∀ x ∈ rest, n ≤ l.countP fun a => !less x a) :
    ∃ all, all.Perm (l ++ rest) ∧ SortedBy less all ∧ all.take n = l.take n := by
  have hsplit : SortedBy less (l.take n ++ l.drop n) := by rwa [take_append_drop]
  obtain ⟨htake, -, hcross⟩ := pairwise_append.mp hsplit
  refine ⟨l.take n ++ sorted less (l.drop n ++ rest), ?_, ?_, ?_⟩
  · refine ((sorted_perm less _).append_left _).trans ?_
    rw [← append_assoc, take_append_drop]
  · refine pairwise_append.mpr ⟨htake, sortedBy_sorted h _, fun a ha b hb => ?_⟩
    rcases mem_append.mp ((sorted_perm less _).mem_iff.mp hb) with hb | hb
    · exact hcross a ha b hb
    · exact hl.take_of_countP h (hrest b hb) a ha
  · by_cases hlength : n ≤ l.length
    · rw [take_append_of_le_length (by rw [length_take]; omega), take_take,
        Nat.min_self]
    · have hnone : rest = [] := by
        refine eq_nil_iff_forall_not_mem.mpr fun x hx => ?_
        have hcount := hrest x hx
        have hle : l.countP (fun a => !less x a) ≤ l.length := countP_le_length
        omega
      rw [hnone, append_nil, drop_of_length_le (by omega)]
      show (l.take n ++ []).take n = l.take n
      rw [append_nil, take_take, Nat.min_self]

/-- The first elements of all parts have the first ones of the whole among them. -/
theorem exists_sorted_parts (n : ℕ) (parts : List (List α)) :
    ∃ all, all.Perm parts.flatten ∧ SortedBy less all ∧
      all.take n = (sorted less (parts.flatMap fun part => (sorted less part).take n)).take n := by
  let firsts := parts.flatMap fun part => (sorted less part).take n
  let rest := parts.flatMap fun part => (sorted less part).drop n
  have hwhole : (firsts ++ rest).Perm parts.flatten := by
    refine (flatMap_append_perm parts _ _).trans ?_
    rw [← flatMap_id]
    refine List.Perm.flatMap_left parts fun part _ => ?_
    rw [take_append_drop]
    exact sorted_perm less part
  have hrest : ∀ x ∈ rest, n ≤ (sorted less firsts).countP fun a => !less x a := by
    intro x hx
    obtain ⟨part, hpart, hx⟩ := mem_flatMap.mp hx
    have hlength : ((sorted less part).take n).length = n := by
      have hpos := length_pos_of_mem hx
      rw [length_drop] at hpos
      rw [length_take]
      omega
    have hsplit : SortedBy less ((sorted less part).take n ++ (sorted less part).drop n) := by
      rw [take_append_drop]
      exact sortedBy_sorted h part
    have hcross := (pairwise_append.mp hsplit).2.2
    have hall : ((sorted less part).take n).countP (fun a => !less x a) = n := by
      rw [countP_eq_length.mpr fun a ha => by rw [hcross a ha x hx]; rfl, hlength]
    have hsub : ((sorted less part).take n).Sublist firsts :=
      sublist_flatten_of_mem (mem_map_of_mem hpart)
    rw [(sorted_perm less firsts).countP_eq, ← hall]
    exact hsub.countP_le
  obtain ⟨all, hperm, hsorted, htake⟩ := exists_sorted_take h (sortedBy_sorted h firsts) hrest
  exact ⟨all, hperm.trans (((sorted_perm less firsts).append_right rest).trans hwhole), hsorted,
    htake⟩

end

end Idgs.Common
