import Mathlib.Data.List.Nodup
import Idgs.Common.Tables

/-!
# Items that are lent out

The items of a pool are lent to holders and given back. `Conserved` says that an item is never in
two places, and that no item that is in use is lost; each way to move items keeps it.
-/

namespace Idgs.Common

open Function List

variable {ι κ : Type*}

/-- No item is in two places, and each item in use is in the pool or with a holder. -/
structure Conserved (pool : List κ) (holder : ι → Option κ) (inUse : κ → Prop) : Prop where
  nodup : pool.Nodup
  notInPool : ∀ i k, holder i = some k → k ∉ pool
  unique : ∀ i j k, holder i = some k → holder j = some k → i = j
  kept : ∀ k, inUse k → k ∈ pool ∨ ∃ i, holder i = some k

namespace Conserved

variable {pool : List κ} {holder : ι → Option κ} {inUse inUse' : κ → Prop}

/-- Each item in use is once in the pool and with no holder, or with exactly one holder and not in
the pool. -/
theorem one_place [DecidableEq κ] (h : Conserved pool holder inUse) {k : κ} (hk : inUse k) :
    (pool.count k = 1 ∧ ∀ i, holder i ≠ some k) ∨ (k ∉ pool ∧ ∃! i, holder i = some k) := by
  obtain hmem | ⟨i, hi⟩ := h.kept k hk
  · refine .inl ⟨count_eq_one_of_mem h.nodup hmem, ?_⟩
    intro i hi
    exact h.notInPool i k hi hmem
  · refine .inr ⟨h.notInPool i k hi, i, hi, ?_⟩
    intro j hj
    exact h.unique j i k hj hi

/-- Nothing has been lent out. -/
theorem of_nodup (hnodup : pool.Nodup) (hkept : ∀ k, inUse k → k ∈ pool) :
    Conserved pool (fun _ : ι => none) inUse where
  nodup := hnodup
  notInPool := by
    intro i k hi
    cases hi
  unique := by
    intro i j k hi
    cases hi
  kept := fun k hk => .inl (hkept k hk)

/-- Items may go out of use. -/
theorem mono (h : Conserved pool holder inUse) (himp : ∀ k, inUse' k → inUse k) :
    Conserved pool holder inUse' where
  __ := h
  kept := fun k hk => h.kept k (himp k hk)

/-- The pool is emptied and its items go out of use. -/
theorem clear (h : Conserved pool holder inUse) (himp : ∀ k, inUse' k → inUse k ∧ k ∉ pool) :
    Conserved [] holder inUse' where
  nodup := nodup_nil
  notInPool := fun _ _ _ => not_mem_nil
  unique := h.unique
  kept := fun k hk => .inr ((h.kept k (himp k hk).1).resolve_left (himp k hk).2)

section Holders

variable [DecidableEq ι] {i : ι} {k : κ}

/-- The first item of the pool is lent to a holder that has none. -/
theorem lend (h : Conserved (k :: pool) holder inUse) (hi : holder i = none) :
    Conserved pool (update holder i (some k)) inUse where
  nodup := (nodup_cons.mp h.nodup).2
  notInPool := by
    intro j k' hj
    rcases update_some_iff.mp hj with ⟨-, rfl⟩ | ⟨-, hj⟩
    · exact (nodup_cons.mp h.nodup).1
    · exact fun hmem => h.notInPool j k' hj (mem_cons_of_mem k hmem)
  unique := by
    -- the item was in the pool, so no other holder has it
    have hother : ∀ j, holder j ≠ some k := fun j hj => h.notInPool j k hj mem_cons_self
    intro j₁ j₂ k' h₁ h₂
    rcases update_some_iff.mp h₁ with ⟨hj₁, hk₁⟩ | ⟨-, h₁⟩ <;>
      rcases update_some_iff.mp h₂ with ⟨hj₂, hk₂⟩ | ⟨-, h₂⟩
    · exact hj₁.trans hj₂.symm
    · exact absurd (hk₁ ▸ h₂) (hother j₂)
    · exact absurd (hk₂ ▸ h₁) (hother j₁)
    · exact h.unique j₁ j₂ k' h₁ h₂
  kept := by
    intro k' hk'
    obtain hmem | ⟨j, hj⟩ := h.kept k' hk'
    · obtain rfl | hmem := mem_cons.mp hmem
      · exact .inr ⟨i, update_self i _ holder⟩
      · exact .inl hmem
    · refine .inr ⟨j, update_some_iff.mpr (.inr ⟨?_, hj⟩)⟩
      rintro rfl
      rw [hi] at hj
      cases hj

/-- A holder's item goes out of use. -/
theorem discard (h : Conserved pool holder inUse) (hi : holder i = some k)
    (himp : ∀ k', inUse' k' → inUse k' ∧ k' ≠ k) :
    Conserved pool (update holder i none) inUse' where
  nodup := h.nodup
  notInPool := fun j k' hj => h.notInPool j k' (update_none_iff.mp hj).2
  unique := fun j₁ j₂ k' h₁ h₂ =>
    h.unique j₁ j₂ k' (update_none_iff.mp h₁).2 (update_none_iff.mp h₂).2
  kept := by
    intro k' hk'
    obtain hmem | ⟨j, hj⟩ := h.kept k' (himp k' hk').1
    · exact .inl hmem
    · refine .inr ⟨j, update_none_iff.mpr ⟨?_, hj⟩⟩
      rintro rfl
      rw [hi] at hj
      exact (himp k' hk').2 (Option.some.inj hj).symm

/-- A holder gives its item back. -/
theorem giveBack (h : Conserved pool holder inUse) (hi : holder i = some k) :
    Conserved (pool ++ [k]) (update holder i none) inUse where
  nodup := List.Nodup.append h.nodup (nodup_singleton k)
    (disjoint_singleton.mpr (h.notInPool i k hi))
  notInPool := by
    intro j k' hj hmem
    obtain ⟨hji, hj⟩ := update_none_iff.mp hj
    obtain hmem | hmem := mem_append.mp hmem
    · exact h.notInPool j k' hj hmem
    · obtain rfl := mem_singleton.mp hmem
      exact hji (h.unique j i k' hj hi)
  unique := fun j₁ j₂ k' h₁ h₂ =>
    h.unique j₁ j₂ k' (update_none_iff.mp h₁).2 (update_none_iff.mp h₂).2
  kept := by
    intro k' hk'
    by_cases hkk : k' = k
    · exact .inl (mem_append_right pool (mem_singleton.mpr hkk))
    obtain hmem | ⟨j, hj⟩ := h.kept k' hk'
    · exact .inl (mem_append_left [k] hmem)
    · refine .inr ⟨j, update_none_iff.mpr ⟨?_, hj⟩⟩
      rintro rfl
      rw [hi] at hj
      exact hkk (Option.some.inj hj).symm

end Holders

end Conserved

end Idgs.Common
