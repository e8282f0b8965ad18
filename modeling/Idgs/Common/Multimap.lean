import Mathlib.Order.Lattice
import Mathlib.Data.List.Basic

/-!
# Multimaps

A multimap as the list of its entries in the order of their insertion. It is iterated in the order
of the keys, with the entries of one key in the order of their insertion. Two lists are the same
multimap when they have, for every key, the same entries in the same order.
-/

namespace Idgs.Common.Multimap

open List

variable {κ ν : Type*} [LinearOrder κ]

/-- The entries of a key. -/
def ofKey (l : List (κ × ν)) (k : κ) : List (κ × ν) := l.filter fun e => e.1 = k

/-- The same entries, in the same order, for every key. -/
def Same (l l' : List (κ × ν)) : Prop := ∀ k, ofKey l k = ofKey l' k

/-- The order of iteration. -/
def iterate (l : List (κ × ν)) : List (κ × ν) := l.mergeSort fun e e' => e.1 ≤ e'.1

theorem ofKey_append (l l' : List (κ × ν)) (k : κ) : ofKey (l ++ l') k = ofKey l k ++ ofKey l' k :=
  filter_append ..

theorem ofKey_map {ω : Type*} (f : ν → ω) (l : List (κ × ν)) (k : κ) :
    ofKey (l.map fun e => (e.1, f e.2)) k = (ofKey l k).map fun e => (e.1, f e.2) := by
  unfold ofKey
  rw [filter_map]
  rfl

theorem Same.refl (l : List (κ × ν)) : Same l l := fun _ => rfl

theorem Same.symm {l l' : List (κ × ν)} (h : Same l l') : Same l' l := fun k => (h k).symm

theorem Same.trans {l l' l'' : List (κ × ν)} (h : Same l l') (h' : Same l' l'') : Same l l'' :=
  fun k => (h k).trans (h' k)

theorem Same.append {l₁ l₁' l₂ l₂' : List (κ × ν)} (h₁ : Same l₁ l₁') (h₂ : Same l₂ l₂') :
    Same (l₁ ++ l₂) (l₁' ++ l₂') := by
  intro k
  rw [ofKey_append, ofKey_append, h₁ k, h₂ k]

theorem Same.map {ω : Type*} (f : ν → ω) {l l' : List (κ × ν)} (h : Same l l') :
    Same (l.map fun e => (e.1, f e.2)) (l'.map fun e => (e.1, f e.2)) := by
  intro k
  rw [ofKey_map, ofKey_map, h k]

theorem ofKey_cons_self (k : κ) (v : ν) (l : List (κ × ν)) :
    ofKey ((k, v) :: l) k = (k, v) :: ofKey l k :=
  filter_cons_of_pos (decide_eq_true rfl)

theorem ofKey_cons_of_ne {k k' : κ} (h : k' ≠ k) (v : ν) (l : List (κ × ν)) :
    ofKey ((k', v) :: l) k = ofKey l k :=
  filter_cons_of_neg (by rw [decide_eq_true_iff]; exact h)

/-- The entries of a key are its values with the key. -/
theorem ofKey_eq_map (l : List (κ × ν)) (k : κ) :
    ((ofKey l k).map Prod.snd).map (fun v => (k, v)) = ofKey l k := by
  rw [map_map]
  refine (map_congr_left fun e he => ?_).trans (map_id _)
  have hkey : e.1 = k := of_decide_eq_true (mem_filter.mp he).2
  exact Prod.ext hkey.symm rfl

theorem ofKey_ofKey_self (l : List (κ × ν)) (k : κ) : ofKey (ofKey l k) k = ofKey l k :=
  filter_eq_self.mpr fun _ he => (mem_filter.mp he).2

theorem ofKey_ofKey_of_ne {k k' : κ} (h : k' ≠ k) (l : List (κ × ν)) :
    ofKey (ofKey l k') k = [] := by
  refine filter_eq_nil_iff.mpr fun e he heq => h ?_
  exact (of_decide_eq_true (mem_filter.mp he).2).symm.trans (of_decide_eq_true heq)

/-- Multimaps that begin with an entry of the same key are the same just if these entries and the
rests are. -/
theorem same_cons_iff {k : κ} {v v' : ν} {l l' : List (κ × ν)} :
    Same ((k, v) :: l) ((k, v') :: l') ↔ v = v' ∧ Same l l' := by
  constructor
  · intro h
    have hk := h k
    rw [ofKey_cons_self, ofKey_cons_self, List.cons.injEq, Prod.mk.injEq] at hk
    refine ⟨hk.1.2, fun k' => ?_⟩
    by_cases hne : k = k'
    · exact hne ▸ hk.2
    · have hk' := h k'
      rwa [ofKey_cons_of_ne hne, ofKey_cons_of_ne hne] at hk'
  · rintro ⟨rfl, h⟩
    exact Same.append (Same.refl [(k, v)]) h

/-- Iteration keeps the order of the entries of a key. -/
theorem same_iterate (l : List (κ × ν)) : Same (iterate l) l := by
  intro k
  -- sorting is stable: the entries of a key are a sublist of the result, and there are no others
  have hequal : (ofKey l k).Pairwise fun e e' => e.1 ≤ e'.1 := by
    refine pairwise_of_forall_mem_list fun e he e' he' => ?_
    have hkey : e.1 = k := of_decide_eq_true (mem_filter.mp he).2
    have hkey' : e'.1 = k := of_decide_eq_true (mem_filter.mp he').2
    rw [hkey, hkey']
  have htrans : ∀ a b c : κ × ν, decide (a.1 ≤ b.1) → decide (b.1 ≤ c.1) → decide (a.1 ≤ c.1) := by
    intro a b c hab hbc
    exact decide_eq_true (le_trans (of_decide_eq_true hab) (of_decide_eq_true hbc))
  have htotal : ∀ a b : κ × ν, decide (a.1 ≤ b.1) || decide (b.1 ≤ a.1) := by
    intro a b
    simpa using le_total a.1 b.1
  have hsub : (ofKey l k).Sublist (iterate l) :=
    sublist_mergeSort htrans htotal (hequal.imp decide_eq_true) filter_sublist
  have hfilter : (ofKey l k).Sublist (ofKey (iterate l) k) := by
    have hboth := hsub.filter fun e => e.1 = k
    simp only [ofKey, filter_filter, Bool.and_self] at hboth
    exact hboth
  have hperm : (ofKey (iterate l) k).Perm (ofKey l k) := (mergeSort_perm l _).filter _
  exact (hfilter.eq_of_length hperm.length_eq.symm).symm

/-- An entry more is another multimap. -/
theorem not_same_append {l l' more : List (κ × ν)} (h : Same l l') (hmore : more ≠ []) :
    ¬ Same (l ++ more) l' := by
  intro hsame
  obtain ⟨e, rest, rfl⟩ := exists_cons_of_ne_nil hmore
  have hlength := congrArg List.length (hsame e.1)
  rw [ofKey_append, length_append, h e.1] at hlength
  have hnone : ofKey (e :: rest) e.1 = [] := length_eq_zero_iff.mp (by omega)
  have hmem : e ∈ ofKey (e :: rest) e.1 :=
    mem_filter.mpr ⟨mem_cons_self, decide_eq_true rfl⟩
  rw [hnone] at hmem
  cases hmem

end Idgs.Common.Multimap
