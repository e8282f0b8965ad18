import Mathlib.Algebra.BigOperators.Group.List.Basic
import Mathlib.Data.List.Induction
import Mathlib.Data.List.Nodup

/-!
# The distinct values of a list and of its parts

A loop that keeps the values it has seen finds the distinct ones. Where the list is split, the parts
find some values again that an earlier part has already found.
-/

namespace Idgs.Common

open List

variable {α β : Type*} [DecidableEq α]

/-- The values in the order in which they are first seen. -/
def fresh (xs : List α) : List α :=
  xs.foldl (fun seen x => if x ∈ seen then seen else seen ++ [x]) []

@[simp] theorem fresh_nil : fresh ([] : List α) = [] := rfl

theorem fresh_concat (xs : List α) (x : α) :
    fresh (xs ++ [x]) = if x ∈ fresh xs then fresh xs else fresh xs ++ [x] := by
  rw [fresh, foldl_append]
  rfl

@[simp] theorem mem_fresh {xs : List α} {x : α} : x ∈ fresh xs ↔ x ∈ xs := by
  induction xs using List.reverseRecOn with
  | nil => simp
  | append_singleton xs y ih =>
    rw [fresh_concat]
    by_cases hy : y ∈ fresh xs
    · rw [if_pos hy, ih, mem_append, mem_singleton]
      refine ⟨.inl, ?_⟩
      rintro (hx | rfl)
      · exact hx
      · exact ih.mp hy
    · rw [if_neg hy, mem_append, mem_append, ih]

theorem fresh_sublist (xs : List α) : (fresh xs).Sublist xs := by
  induction xs using List.reverseRecOn with
  | nil => exact List.Sublist.refl _
  | append_singleton xs y ih =>
    rw [fresh_concat]
    by_cases hy : y ∈ fresh xs
    · rw [if_pos hy]
      exact ih.trans (sublist_append_left _ _)
    · rw [if_neg hy]
      exact ih.append (List.Sublist.refl _)

/-- What a second list adds to the distinct values of a first one. -/
theorem fresh_append (xs ys : List α) :
    fresh (xs ++ ys) = fresh xs ++ (fresh ys).filter fun y => decide (y ∉ xs) := by
  induction ys using List.reverseRecOn with
  | nil => simp
  | append_singleton ys y ih =>
    rw [← append_assoc, fresh_concat, fresh_concat, ih]
    by_cases hys : y ∈ ys
    · have hmem : y ∈ fresh xs ++ (fresh ys).filter (fun y => decide (y ∉ xs)) := by
        rw [← ih, mem_fresh]
        exact mem_append_right _ hys
      rw [if_pos hmem, if_pos (mem_fresh.mpr hys)]
    · rw [if_neg (show y ∉ fresh ys by rwa [mem_fresh]), filter_append]
      by_cases hxs : y ∈ xs
      · have hmem : y ∈ fresh xs ++ (fresh ys).filter (fun y => decide (y ∉ xs)) :=
          mem_append_left _ (mem_fresh.mpr hxs)
        rw [if_pos hmem]
        simp [hxs]
      · have hmem : y ∉ fresh xs ++ (fresh ys).filter (fun y => decide (y ∉ xs)) := by
          rw [← ih, mem_fresh, mem_append]
          exact not_or_intro hxs hys
        rw [if_neg hmem]
        simp [hxs]

/-- The values that parts find although an earlier part, or `seen`, has them. -/
def repeatedFrom (seen : List α) : List (List α) → List α
  | [] => []
  | xs :: parts => (fresh xs).filter (fun x => decide (x ∈ seen)) ++ repeatedFrom (seen ++ xs) parts

/-- The values that the parts find one by one are those of the whole and the repeated ones. -/
theorem flatMap_fresh_perm (seen : List α) (parts : List (List α)) :
    (fresh seen ++ parts.flatMap fresh).Perm
    (fresh (seen ++ parts.flatten) ++ repeatedFrom seen parts) := by
  induction parts generalizing seen with
  | nil => simp [repeatedFrom]
  | cons xs parts ih =>
    have hsplit : (fresh xs).Perm
        ((fresh xs).filter (fun x => decide (x ∉ seen)) ++ (fresh xs).filter fun x =>
          decide (x ∈ seen)) := by
      have hfilter := filter_append_perm (fun x => decide (x ∉ seen)) (fresh xs)
      simp only [decide_not, Bool.not_not] at hfilter ⊢
      exact hfilter.symm
    have hrest := ih (seen ++ xs)
    rw [fresh_append] at hrest
    rw [flatMap_cons, flatten_cons, repeatedFrom, ← append_assoc seen]
    -- the repeated values of `xs` move to the end, the rest is the hypothesis
    have hmove : (fresh seen ++ (fresh xs ++ parts.flatMap fresh)).Perm
        ((fresh seen ++ (fresh xs).filter (fun x => decide (x ∉ seen)) ++ parts.flatMap fresh) ++
          (fresh xs).filter fun x => decide (x ∈ seen)) := by
      refine ((hsplit.append_right _).append_left _).trans ?_
      rw [append_assoc, append_assoc, append_assoc]
      exact (perm_append_comm.append_left _).append_left _
    refine (hmove.trans (hrest.append_right _)).trans ?_
    rw [append_assoc]
    exact perm_append_comm.append_left _

end Idgs.Common
