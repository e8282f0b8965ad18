import Mathlib.Logic.Function.Basic

/-!
# Tables that are written at one key

A table gives the entry that a key has, if it has one. What it gives after a write is the entry that
has been written, or one that it gave before for another key.
-/

namespace Idgs.Common

open Function

variable {κ ν : Type*} [DecidableEq κ] {table : κ → Option ν} {k k' : κ} {v v' : ν}

/-- The entries of a table after one has been put. -/
theorem update_some_iff :
    update table k (some v) k' = some v' ↔
      k' = k ∧ v' = v ∨ k' ≠ k ∧ table k' = some v' := by
  by_cases hk : k' = k
  · rw [hk, update_self, Option.some.injEq, eq_comm (a := v)]
    exact ⟨fun hv => .inl ⟨rfl, hv⟩, fun h => h.elim And.right fun h => absurd rfl h.1⟩
  · rw [update_of_ne hk]
    exact ⟨fun h => .inr ⟨hk, h⟩, fun h => h.elim (fun h => absurd h.1 hk) And.right⟩

/-- The entries of a table after one has been removed. -/
theorem update_none_iff :
    update table k none k' = some v' ↔ k' ≠ k ∧ table k' = some v' := by
  by_cases hk : k' = k
  · rw [hk, update_self]
    exact ⟨fun h => absurd h (Option.some_ne_none _).symm, fun h => absurd rfl h.1⟩
  · rw [update_of_ne hk]
    exact ⟨fun h => ⟨hk, h⟩, And.right⟩

end Idgs.Common
