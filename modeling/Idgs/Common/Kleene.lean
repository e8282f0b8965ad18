import Mathlib.Data.List.Basic

/-!
# Three-valued logic

The connectives of three-valued logic on `Option Bool`, where `none` is unknown: a connective is
known as soon as its known operands decide it.
-/

namespace Idgs.Common.Kleene

/-- Negation. -/
def not (a : Option Bool) : Option Bool := a.map (!·)

/-- Conjunction. -/
def and : Option Bool → Option Bool → Option Bool
  | some true, b => b
  | some false, _ => some false
  | none, some false => some false
  | none, _ => none

/-- Disjunction. -/
def or : Option Bool → Option Bool → Option Bool
  | some false, b => b
  | some true, _ => some true
  | none, some true => some true
  | none, _ => none

/-- The conjunction of some values. -/
def all (as : List (Option Bool)) : Option Bool := as.foldr and (some true)

/-- The disjunction of some values. -/
def any (as : List (Option Bool)) : Option Bool := as.foldr or (some false)

@[simp] theorem and_some (a b : Bool) : and (some a) (some b) = some (a && b) := by cases a <;> rfl

@[simp] theorem or_some (a b : Bool) : or (some a) (some b) = some (a || b) := by cases a <;> rfl

@[simp] theorem all_cons (a : Option Bool) (as : List (Option Bool)) :
    all (a :: as) = and a (all as) := rfl

@[simp] theorem any_cons (a : Option Bool) (as : List (Option Bool)) :
    any (a :: as) = or a (any as) := rfl

/-- On known values the connectives are those of the two truth values. -/
theorem all_map_some (as : List Bool) : all (as.map some) = some (as.all id) := by
  induction as with
  | nil => rfl
  | cons a as ih => rw [List.map_cons, all_cons, ih, and_some, List.all_cons, id]

theorem any_map_some (as : List Bool) : any (as.map some) = some (as.any id) := by
  induction as with
  | nil => rfl
  | cons a as ih => rw [List.map_cons, any_cons, ih, or_some, List.any_cons, id]

end Idgs.Common.Kleene
