import Mathlib.Data.List.Basic

/-!
# Items held by takers

Takers, threads for instance, take items one after the other and put them down later, in any order.
The items they hold are listed with their takers in the order in which they were taken.
-/

namespace Idgs.Common

open List

variable {τ α : Type*} [DecidableEq τ]

/-- The items in the order in which they were taken. -/
def items (l : List (τ × α)) : List α := l.map Prod.snd

/-- The first item of a taker. -/
def itemOf (l : List (τ × α)) (t : τ) : Option α := (l.find? fun e => e.1 = t).map Prod.snd

/-- The taker has put down its first item. -/
def putDown (l : List (τ × α)) (t : τ) : List (τ × α) := l.eraseP fun e => e.1 = t

/-- What was taken before the first item of a taker. -/
def takenBefore (l : List (τ × α)) (t : τ) : List (τ × α) := l.takeWhile fun e => e.1 ≠ t

omit [DecidableEq τ] in
theorem items_append (l l' : List (τ × α)) : items (l ++ l') = items l ++ items l' :=
  map_append

section

variable {l : List (τ × α)} {t : τ} {x : α} (h : itemOf l t = some x)

include h

/-- The first item of a taker stands between those taken before and after it. -/
theorem exists_split_of_itemOf :
    ∃ later, l = takenBefore l t ++ (t, x) :: later ∧ putDown l t = takenBefore l t ++ later := by
  induction l with
  | nil => cases h
  | cons e l ih =>
    by_cases he : e.1 = t
    · have hfind : itemOf (e :: l) t = some e.2 := by
        unfold itemOf
        rw [find?_cons_of_pos (by simpa using he)]
        rfl
      have hbefore : takenBefore (e :: l) t = [] := takeWhile_cons_of_neg (by simpa using he)
      refine ⟨l, ?_, ?_⟩
      · rw [hbefore, ← he, Option.some.inj (h.symm.trans hfind)]
        rfl
      · rw [hbefore]
        exact eraseP_cons_of_pos (by simpa using he)
    · have hfind : itemOf (e :: l) t = itemOf l t := by
        unfold itemOf
        rw [find?_cons_of_neg (by simpa using he)]
      have hbefore : takenBefore (e :: l) t = e :: takenBefore l t :=
        takeWhile_cons_of_pos (by simpa using he)
      obtain ⟨later, hl, hput⟩ := ih (hfind.symm.trans h)
      refine ⟨later, ?_, ?_⟩
      · rw [hbefore, cons_append, ← hl]
      · rw [hbefore, cons_append, ← hput]
        exact eraseP_cons_of_neg (by simpa using he)

/-- Putting down an item keeps the order of the items of one kind, if none of its kind was taken
before it. -/
theorem filter_items_of_itemOf {p : α → Bool}
    (hfirst : p x = true → ∀ e ∈ takenBefore l t, p e.2 = false) :
    (items l).filter p = [x].filter p ++ (items (putDown l t)).filter p := by
  obtain ⟨later, hl, hput⟩ := exists_split_of_itemOf h
  rw [hput]
  conv_lhs => rw [hl]
  rw [items_append, items_append, filter_append, filter_append]
  show (items (takenBefore l t)).filter p ++ (x :: items later).filter p = _
  by_cases hx : p x = true
  · have hnone : (items (takenBefore l t)).filter p = [] := by
      refine filter_eq_nil_iff.mpr fun y hy => ?_
      obtain ⟨e, he, rfl⟩ := mem_map.mp hy
      rw [hfirst hx e he]
      exact Bool.false_ne_true
    rw [hnone, filter_cons_of_pos hx, filter_cons_of_pos hx]
    rfl
  · rw [filter_cons_of_neg hx, filter_cons_of_neg hx]
    rfl

theorem mem_items_of_itemOf :
    x ∈ items l := by
  obtain ⟨e, he, rfl⟩ := Option.map_eq_some_iff.mp h
  exact mem_map_of_mem (mem_of_find?_eq_some he)

end

end Idgs.Common
