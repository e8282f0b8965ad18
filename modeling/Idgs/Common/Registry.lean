import Mathlib.Data.List.Nodup
import Idgs.Common.Tables

/-!
# Registrations and the lists that have them

Owners hold registrations, each on one of several lists. The lists are exact when each of them has
the registrations that are held on it, once, and no two owners share one; giving up a registration
and taking a new one keep this.
-/

namespace Idgs.Common

open Function List

variable {κ ρ σ : Type*} {held : κ → Option (ρ × σ)} {lists : σ → List ρ} {k : κ} {r : ρ} {s : σ}

/-- The lists have what is held on them. -/
structure Exact (held : κ → Option (ρ × σ)) (lists : σ → List ρ) : Prop where
  nodup : ∀ s, (lists s).Nodup
  mem_iff : ∀ s r, r ∈ lists s ↔ ∃ k, held k = some (r, s)
  owner : ∀ k k' r s s', held k = some (r, s) → held k' = some (r, s') → k = k'

theorem Exact.empty : Exact (fun _ : κ => (none : Option (ρ × σ))) fun _ => [] where
  nodup := fun _ => nodup_nil
  mem_iff :=
    fun _ _ =>
    ⟨fun h => absurd h not_mem_nil, fun ⟨_, h⟩ => absurd h (Option.some_ne_none _).symm⟩
  owner := fun _ _ _ _ _ h => absurd h (Option.some_ne_none _).symm

/-- An owner that holds nothing is on no list. -/
theorem Exact.update_none [DecidableEq κ] (h : Exact held lists) (hk : held k = none) :
    Exact (update held k none) lists := by
  rwa [update_eq_self_iff.2 hk.symm]

/-- An owner gives its registration up, and the list loses it. -/
theorem Exact.drop [DecidableEq κ] [DecidableEq ρ] [DecidableEq σ] (h : Exact held lists)
    (hk : held k = some (r, s)) :
    Exact (update held k none) (update lists s ((lists s).erase r)) where
  nodup := by
    intro s'
    by_cases hs : s' = s
    · subst hs
      rw [update_self]
      exact (h.nodup s').erase r
    · rw [update_of_ne hs]
      exact h.nodup s'
  mem_iff := by
    intro s' r'
    simp only [update_none_iff]
    by_cases hs : s' = s
    · subst hs
      rw [update_self, (h.nodup s').mem_erase_iff, h.mem_iff]
      constructor
      · rintro ⟨hne, k', hk'⟩
        refine ⟨k', ?_, hk'⟩
        rintro rfl
        exact hne (congrArg Prod.fst (Option.some.inj (hk'.symm.trans hk)))
      · rintro ⟨k', hne, hk'⟩
        refine ⟨?_, k', hk'⟩
        rintro rfl
        exact hne (h.owner k' k r' s' s' hk' hk)
    · rw [update_of_ne hs, h.mem_iff]
      constructor
      · rintro ⟨k', hk'⟩
        refine ⟨k', ?_, hk'⟩
        rintro rfl
        exact hs (congrArg Prod.snd (Option.some.inj (hk'.symm.trans hk)))
      · rintro ⟨k', -, hk'⟩
        exact ⟨k', hk'⟩
  owner := by
    intro k₁ k₂ r' s₁ s₂ h₁ h₂
    exact h.owner k₁ k₂ r' s₁ s₂ (update_none_iff.mp h₁).2 (update_none_iff.mp h₂).2

/-- An owner that holds nothing gets a new registration. -/
theorem Exact.add [DecidableEq κ] [DecidableEq σ] (h : Exact held lists) (hk : held k = none)
    (hnew : ∀ k' s', held k' ≠ some (r, s')) :
    Exact (update held k (some (r, s))) (update lists s (lists s ++ [r])) where
  nodup := by
    intro s'
    by_cases hs : s' = s
    · subst hs
      rw [update_self]
      refine (nodup_append.2 ⟨h.nodup s', nodup_singleton r, ?_⟩)
      rintro r' hr' r'' hr'' rfl
      obtain ⟨k', hk'⟩ := (h.mem_iff s' r').1 hr'
      exact hnew k' s' (mem_singleton.1 hr'' ▸ hk')
    · rw [update_of_ne hs]
      exact h.nodup s'
  mem_iff := by
    intro s' r'
    have hheld : (∃ k', update held k (some (r, s)) k' = some (r', s')) ↔
        (r', s') = (r, s) ∨ ∃ k', held k' = some (r', s') := by
      constructor
      · rintro ⟨k', hk'⟩
        exact (update_some_iff.mp hk').imp And.right fun hk' => ⟨k', hk'.2⟩
      · rintro (heq | ⟨k', hk'⟩)
        · exact ⟨k, by rw [update_self, heq]⟩
        · refine ⟨k', ?_⟩
          rwa [update_of_ne]
          rintro rfl
          rw [hk] at hk'
          exact Option.some_ne_none _ hk'.symm
    rw [hheld]
    by_cases hs : s' = s
    · subst hs
      rw [update_self, mem_append, mem_singleton, h.mem_iff]
      exact ⟨fun hor => hor.symm.imp_left fun hr => by rw [hr],
        fun hor => hor.symm.imp_right fun hr => congrArg Prod.fst hr⟩
    · rw [update_of_ne hs, h.mem_iff]
      exact ⟨.inr, fun hor => hor.resolve_left fun heq => hs (congrArg Prod.snd heq)⟩
  owner := by
    intro k₁ k₂ r' s₁ s₂ h₁ h₂
    rcases update_some_iff.mp h₁ with ⟨hk₁, heq₁⟩ | ⟨-, hold₁⟩ <;>
      rcases update_some_iff.mp h₂ with ⟨hk₂, heq₂⟩ | ⟨-, hold₂⟩
    · exact hk₁.trans hk₂.symm
    · obtain ⟨rfl, -⟩ := Prod.mk.inj heq₁
      exact absurd hold₂ (hnew k₂ s₂)
    · obtain ⟨rfl, -⟩ := Prod.mk.inj heq₂
      exact absurd hold₁ (hnew k₁ s₁)
    · exact h.owner k₁ k₂ r' s₁ s₂ hold₁ hold₂

end Idgs.Common
