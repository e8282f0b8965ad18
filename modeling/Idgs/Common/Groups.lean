import Mathlib.Data.List.Dedup
import Mathlib.Data.List.Perm.Basic

/-!
# Groups by a key

The elements of a list in groups of equal keys. The groups together are the list in another order,
and each is a single element when no two elements have the same key.
-/

namespace Idgs.Common

open List

variable {α κ : Type*} [DecidableEq κ]

/-- The groups of a list's elements by their keys. -/
def groupsBy (f : α → κ) (xs : List α) : List (List α) :=
  ((xs.map f).dedup).map fun k => xs.filter fun x => f x = k

/-- The groups of some keys that no two are equal, when these are all keys. -/
theorem flatten_filter_perm (f : α → κ) {ks : List κ} (hks : ks.Nodup) {xs : List α}
    (h : ∀ x ∈ xs, f x ∈ ks) :
    (ks.map fun k => xs.filter fun x => f x = k).flatten.Perm xs := by
  induction ks generalizing xs with
  | nil =>
    have hnil : xs = [] := eq_nil_iff_forall_not_mem.mpr fun x hx => by simpa using h x hx
    rw [hnil]
    rfl
  | cons k ks ih =>
    obtain ⟨hk, hks⟩ := nodup_cons.mp hks
    have hrest : (ks.map fun k' => xs.filter fun x => f x = k') =
        ks.map fun k' => (xs.filter fun x => !decide (f x = k)).filter fun x => f x = k' := by
      refine map_congr_left fun k' hk' => ?_
      rw [filter_filter]
      refine filter_congr fun x _ => ?_
      by_cases hx : f x = k'
      · have hne : f x ≠ k := fun heq => hk (heq ▸ hx ▸ hk')
        simp [hx, hx ▸ hne]
      · simp [hx]
    rw [map_cons, flatten_cons, hrest]
    have hothers : (ks.map fun k' => (xs.filter fun x => !decide (f x = k)).filter fun x =>
        f x = k').flatten.Perm
        (xs.filter fun x => !decide (f x = k)) := by
      refine ih hks fun x hx => ?_
      obtain ⟨hx, hne⟩ := mem_filter.mp hx
      exact (mem_cons.mp (h x hx)).resolve_left (by simpa using hne)
    exact (hothers.append_left _).trans (filter_append_perm (fun x => decide (f x = k)) xs)

theorem flatten_groupsBy_perm (f : α → κ) (xs : List α) : (groupsBy f xs).flatten.Perm xs :=
  flatten_filter_perm f (nodup_dedup _) fun _ hx => mem_dedup.mpr (mem_map_of_mem hx)

theorem filter_eq_singleton {f : α → κ} {xs : List α} (h : (xs.map f).Nodup) {x : α} (hx : x ∈ xs) :
    (xs.filter fun y => f y = f x) = [x] := by
  induction xs with
  | nil => cases hx
  | cons y ys ih =>
    obtain ⟨hy, hys⟩ := nodup_cons.mp h
    rcases mem_cons.mp hx with rfl | hx
    · have hnone : (ys.filter fun z => f z = f x) = [] := by
        rw [filter_eq_nil_iff]
        intro z hz
        have hne : f z ≠ f x := fun heq => hy (mem_map.mpr ⟨z, hz, heq⟩)
        simpa using hne
      rw [filter_cons, if_pos (by simp), hnone]
    · have hne : f y ≠ f x := fun heq => hy (mem_map.mpr ⟨x, hx, heq.symm⟩)
      rw [filter_cons, if_neg (by simpa using hne), ih hys hx]

theorem groupsBy_of_nodup {f : α → κ} {xs : List α} (h : (xs.map f).Nodup) :
    groupsBy f xs = xs.map fun x => [x] := by
  rw [groupsBy, h.dedup, map_map]
  exact map_congr_left fun x hx => filter_eq_singleton h hx

/-- To take groups of one element each is to take elements. -/
theorem flatten_take {groups : List (List α)} (h : ∀ group ∈ groups, ∃ x, group = [x]) (n : ℕ) :
    (groups.take n).flatten = groups.flatten.take n := by
  induction groups generalizing n with
  | nil => simp
  | cons group groups ih =>
    obtain ⟨x, rfl⟩ := h group mem_cons_self
    cases n with
    | zero => simp
    | succ n =>
      rw [take_succ_cons, flatten_cons, flatten_cons, singleton_append,
        singleton_append, take_succ_cons,
        ih (fun group hgroup => h group (mem_cons_of_mem _ hgroup)) n]

/-- The images of a list in another order are those of the list in another order. -/
theorem exists_perm_map {β : Type*} {f : α → β} {xs : List α} {ys : List β}
    (h : ys.Perm (xs.map f)) :
    ∃ xs' : List α, xs'.Perm xs ∧ ys = xs'.map f := by
  have hmap : List.Forall₂ (fun y x => y = f x) (xs.map f) xs := by
    rw [forall₂_map_left_iff, forall₂_same]
    exact fun _ _ => rfl
  obtain ⟨xs', hys, hperm⟩ := perm_comp_forall₂ h hmap
  refine ⟨xs', hperm, ?_⟩
  rw [← forall₂_eq_eq_eq, forall₂_map_right_iff]
  exact hys

/-- The first elements of a list in another order are the first of the list in another order. -/
theorem exists_perm_take {xs ys zs : List α} {n : ℕ} (h : zs.Perm (ys.take n)) (hys : ys.Perm xs) :
    ∃ zs' : List α, zs'.Perm xs ∧ zs'.take n = zs := by
  refine ⟨zs ++ ys.drop n, ?_, ?_⟩
  · calc (zs ++ ys.drop n).Perm (ys.take n ++ ys.drop n) := h.append_right _
      _ = ys := take_append_drop n ys
      List.Perm _ xs := hys
  · have hlength : zs.length = min n ys.length := by rw [h.length_eq, length_take]
    by_cases hn : n ≤ ys.length
    · rw [take_append_of_le_length (by omega), take_of_length_le (by omega)]
    · rw [drop_of_length_le (by omega), append_nil, take_of_length_le (by omega)]

end Idgs.Common
