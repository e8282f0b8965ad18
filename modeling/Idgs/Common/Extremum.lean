import Mathlib.Data.List.Basic
import Mathlib.Order.Lattice

/-!
# The best value of a list

`keeps a b` says that `a` is at least as good as `b`, so that a loop that holds `a` keeps it when it
meets `b`.
-/

namespace Idgs.Common

open List

variable {α : Type*} {keeps : α → α → Bool}

/-- Values are in a total order, the better ones first. -/
structure Keeps (keeps : α → α → Bool) : Prop where
  total : ∀ a b, keeps a b = true ∨ keeps b a = true
  trans : ∀ a b c, keeps a b = true → keeps b c = true → keeps a c = true
  antisymm : ∀ a b, keeps a b = true → keeps b a = true → a = b

theorem Keeps.refl (h : Keeps keeps) (a : α) : keeps a a = true := (h.total a a).elim id id

theorem keeps_ge [LinearOrder α] : Keeps fun a b : α => decide (b ≤ a) where
  total := fun a b => by simpa using le_total b a
  trans := fun a b c hab hbc => by
    simp only [decide_eq_true_eq] at hab hbc ⊢
    exact hbc.trans hab
  antisymm := fun a b hab hba => by
    simp only [decide_eq_true_eq] at hab hba
    exact le_antisymm hba hab

theorem keeps_le [LinearOrder α] : Keeps fun a b : α => decide (a ≤ b) where
  total := fun a b => by simpa using le_total a b
  trans := fun a b c hab hbc => by
    simp only [decide_eq_true_eq] at hab hbc ⊢
    exact hab.trans hbc
  antisymm := fun a b hab hba => by
    simp only [decide_eq_true_eq] at hab hba
    exact le_antisymm hab hba

/-- The best value: the loop keeps the value that it holds, or takes the next one. -/
def extremum (keeps : α → α → Bool) : List α → Option α
  | [] => none
  | x :: xs => some (xs.foldl (fun m x => if keeps m x then m else x) x)

/-- The loop ends with a value that it has met and that is at least as good as all of them. -/
theorem foldl_extremum (h : Keeps keeps) (x : α) (xs : List α) :
    xs.foldl (fun m x => if keeps m x then m else x) x ∈ x :: xs ∧
      ∀ y ∈ x :: xs, keeps (xs.foldl (fun m x => if keeps m x then m else x) x) y = true := by
  induction xs generalizing x with
  | nil =>
    refine ⟨mem_cons_self, fun y hy => ?_⟩
    obtain rfl := mem_singleton.mp hy
    exact h.refl y
  | cons z xs ih =>
    rw [foldl_cons]
    by_cases hz : keeps x z = true
    · rw [if_pos hz]
      obtain ⟨hmem, hbest⟩ := ih x
      refine ⟨?_, fun y hy => ?_⟩
      · rcases mem_cons.mp hmem with heq | hmem
        · rw [heq]
          exact mem_cons_self
        · exact mem_cons_of_mem _ (mem_cons_of_mem _ hmem)
      · rcases mem_cons.mp hy with rfl | hy
        · exact hbest y mem_cons_self
        · rcases mem_cons.mp hy with rfl | hy
          · exact h.trans _ x y (hbest x mem_cons_self) hz
          · exact hbest y (mem_cons_of_mem _ hy)
    · rw [if_neg hz]
      obtain ⟨hmem, hbest⟩ := ih z
      refine ⟨mem_cons_of_mem _ hmem, fun y hy => ?_⟩
      rcases mem_cons.mp hy with rfl | hy
      · exact h.trans _ z y (hbest z mem_cons_self) ((h.total y z).resolve_left hz)
      · exact hbest y hy

/-- The best value is the one that is at least as good as all others. -/
theorem extremum_eq_some (h : Keeps keeps) {xs : List α} {m : α} :
    extremum keeps xs = some m ↔ m ∈ xs ∧ ∀ x ∈ xs, keeps m x = true := by
  cases xs with
  | nil => simp [extremum]
  | cons x xs =>
    obtain ⟨hmem, hbest⟩ := foldl_extremum h x xs
    rw [extremum, Option.some.injEq]
    constructor
    · rintro rfl
      exact ⟨hmem, hbest⟩
    · rintro ⟨hm, hall⟩
      exact h.antisymm _ _ (hbest m hm) (hall _ hmem)

variable (keeps) in
theorem extremum_isSome {xs : List α} (hxs : xs ≠ []) : ∃ m, extremum keeps xs = some m := by
  cases xs with
  | nil => exact absurd rfl hxs
  | cons x xs => exact ⟨_, rfl⟩

/-- The worse one of two values. -/
def worse (keeps : α → α → Bool) (a b : α) : α := if keeps a b then b else a

@[simp] theorem worse_self (a : α) : worse keeps a a = a := ite_self a

/-- Two values are at least as good as the worse one, which is one of them. -/
theorem worse_eq_iff (h : Keeps keeps) {a b m : α} :
    worse keeps a b = m ↔ keeps a m = true ∧ keeps b m = true ∧ (a = m ∨ b = m) := by
  unfold worse
  constructor
  · split
    · rename_i hab
      rintro rfl
      exact ⟨hab, h.refl b, .inr rfl⟩
    · rename_i hab
      rintro rfl
      exact ⟨h.refl a, (h.total a b).resolve_left hab, .inl rfl⟩
  · rintro ⟨ha, hb, hm⟩
    split
    · rename_i hab
      rcases hm with rfl | rfl
      · exact h.antisymm b a hb hab
      · rfl
    · rename_i hab
      rcases hm with rfl | rfl
      · rfl
      · exact absurd ha hab

end Idgs.Common
