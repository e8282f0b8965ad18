import Mathlib.Data.List.Infix

/-!
# Texts

The functions of `std::string` on lists: searching for a text, comparing a part. A position behind
the end is an error where the standard library throws.
-/

namespace Idgs.Common.Text

open Function List

variable {α : Type*} [DecidableEq α] {s t : List α} {k : ℕ}

/-- The first position of a text in another one. -/
def indexOf (t : List α) : List α → Option ℕ
  | [] => if t = [] then some 0 else none
  | c :: s => if t <+: c :: s then some 0 else (indexOf t s).map (· + 1)

/-- `std::string::find` from a position on. -/
def find (s t : List α) (pos : ℕ) : Option ℕ :=
  if pos ≤ s.length then (indexOf t (s.drop pos)).map (· + pos) else none

/-- `std::string::compare` of a part: whether it is the text. -/
def compareEq (s : List α) (pos len : ℕ) (t : List α) : Option Bool :=
  if pos ≤ s.length then some (decide ((s.drop pos).take len = t)) else none

/-- Where a text is found it stands, and it stands nowhere before. -/
theorem indexOf_eq_some (h : indexOf t s = some k) :
    t <+: s.drop k ∧ k ≤ s.length ∧ ∀ j < k, ¬ t <+: s.drop j := by
  induction s generalizing k with
  | nil =>
    unfold indexOf at h
    split at h
    · rename_i hnil
      cases h
      exact ⟨hnil ▸ nil_prefix, le_rfl, fun j hj => absurd hj (Nat.not_lt_zero j)⟩
    · cases h
  | cons c s ih =>
    unfold indexOf at h
    split at h
    · rename_i hpre
      cases h
      exact ⟨hpre, Nat.zero_le _, fun j hj => absurd hj (Nat.not_lt_zero j)⟩
    · rename_i hpre
      obtain ⟨k, hk, rfl⟩ := Option.map_eq_some_iff.mp h
      obtain ⟨hfound, hle, hbefore⟩ := ih hk
      refine ⟨hfound, Nat.succ_le_succ hle, fun j hj => ?_⟩
      cases j with
      | zero => exact hpre
      | succ j => exact hbefore j (Nat.lt_of_succ_lt_succ hj)

/-- What stands in a text is found, there or before. -/
theorem exists_indexOf {a b : List α} : ∃ k ≤ a.length, indexOf t (a ++ t ++ b) = some k := by
  induction a with
  | nil =>
    refine ⟨0, le_rfl, ?_⟩
    rw [nil_append]
    cases hs : t ++ b with
    | nil =>
      unfold indexOf
      rw [if_pos (append_eq_nil_iff.mp hs).1]
    | cons c s =>
      unfold indexOf
      rw [← hs, if_pos (prefix_append t b)]
  | cons c a ih =>
    obtain ⟨k, hk, hfound⟩ := ih
    rw [cons_append, cons_append]
    unfold indexOf
    split
    · exact ⟨0, Nat.zero_le _, rfl⟩
    · rw [hfound]
      exact ⟨k + 1, Nat.succ_le_succ hk, rfl⟩

/-- A text is found exactly if it is a part. -/
theorem isSome_indexOf : (indexOf t s).isSome ↔ t <:+: s := by
  constructor
  · intro h
    obtain ⟨k, hk⟩ := Option.isSome_iff_exists.mp h
    obtain ⟨b, hb⟩ := (indexOf_eq_some hk).1
    exact ⟨s.take k, b, by rw [append_assoc, hb, take_append_drop]⟩
  · rintro ⟨a, b, rfl⟩
    obtain ⟨k, -, hk⟩ := exists_indexOf (t := t) (a := a) (b := b)
    rw [hk]
    rfl

theorem find_zero (s t : List α) : find s t 0 = indexOf t s := by
  rw [find, if_pos (Nat.zero_le _), drop_zero]
  exact Option.map_id_apply

/-! ## Searching for a character -/

section Character

variable {c : α} {a b : List α}

/-- A text is not found in a part without its first character. -/
theorem indexOf_append_of_notMem (h : c ∉ a) :
    indexOf (c :: t) (a ++ b) = (indexOf (c :: t) b).map (a.length + ·) := by
  induction a with
  | nil =>
    rw [nil_append]
    cases indexOf (c :: t) b with
    | none => rfl
    | some k => exact congrArg some (Nat.zero_add k).symm
  | cons d a ih =>
    obtain ⟨hd, ha⟩ := not_or.mp (mt mem_cons.mpr h)
    have hpre : ¬ c :: t <+: d :: (a ++ b) := fun hpre => hd (cons_prefix_cons.mp hpre).1
    rw [cons_append, indexOf, if_neg hpre, ih ha, Option.map_map]
    refine congrArg (Option.map · (indexOf (c :: t) b)) ?_
    funext k
    rw [comp_apply, length_cons]
    omega

theorem indexOf_cons_self (c : α) (b : List α) : indexOf [c] (c :: b) = some 0 := by
  rw [indexOf, if_pos (cons_prefix_cons.mpr ⟨rfl, nil_prefix⟩)]

/-- The first place of a character is behind a part without it. -/
theorem indexOf_append_cons (h : c ∉ a) : indexOf [c] (a ++ c :: b) = some a.length := by
  rw [indexOf_append_of_notMem h, indexOf_cons_self]
  rfl

theorem indexOf_of_notMem (h : c ∉ s) : indexOf [c] s = none := by
  have hnil : indexOf [c] (s ++ []) = _ := indexOf_append_of_notMem h
  rw [append_nil] at hnil
  rw [hnil]
  rfl

/-- A character that is there is found at the end of what has none. -/
theorem exists_indexOf_of_mem (h : c ∈ s) :
    ∃ a b, s = a ++ c :: b ∧ c ∉ a ∧ indexOf [c] s = some a.length := by
  obtain ⟨a, b, rfl, ha⟩ := eq_append_cons_of_mem h
  exact ⟨a, b, rfl, ha, indexOf_append_cons ha⟩

/-- What comes before the first place of a character. -/
theorem takeWhile_append_of_notMem (h : c ∉ a) (b : List α) :
    (a ++ b).takeWhile (· ≠ c) = a ++ b.takeWhile (· ≠ c) := by
  refine takeWhile_append_of_pos fun d hd => decide_eq_true ?_
  rintro rfl
  exact h hd

theorem takeWhile_append_cons (h : c ∉ a) (b : List α) : (a ++ c :: b).takeWhile (· ≠ c) = a := by
  rw [takeWhile_append_of_notMem h, takeWhile_cons_of_neg (by simp), append_nil]

theorem takeWhile_of_notMem (h : c ∉ a) : a.takeWhile (· ≠ c) = a := by
  have happend := takeWhile_append_of_notMem h []
  rwa [append_nil, takeWhile_nil, append_nil] at happend

theorem dropWhile_append_cons (h : c ∉ a) (b : List α) :
    (a ++ c :: b).dropWhile (· ≠ c) = c :: b := by
  have hdrop : (a ++ c :: b).dropWhile (· ≠ c) = (c :: b).dropWhile (· ≠ c) := by
    refine dropWhile_append_of_pos fun d hd => decide_eq_true ?_
    rintro rfl
    exact h hd
  rw [hdrop, dropWhile_cons_of_neg (by simp)]

omit [DecidableEq α] in
/-- A character begins what is left exactly if it is the next one. -/
theorem singleton_prefix_drop {j : ℕ} : [c] <+: s.drop j ↔ s[j]? = some c := by
  rw [← head?_drop]
  cases s.drop j with
  | nil => simp
  | cons d l => simp [cons_prefix_cons, eq_comm]

/-- The search for a character from a position on gives its next place. -/
theorem find_char_eq_some_iff {pos : ℕ} :
    find s [c] pos = some k ↔ pos ≤ k ∧ s[k]? = some c ∧ ∀ j, pos ≤ j → j < k → s[j]? ≠ some c := by
  have hplace : ∀ {k}, find s [c] pos = some k → pos ≤ k ∧ s[k]? = some c ∧ ∀ j, pos ≤ j → j < k →
      s[j]? ≠ some c := by
    intro k h
    unfold find at h
    split at h
    · obtain ⟨m, hm, rfl⟩ := Option.map_eq_some_iff.mp h
      obtain ⟨hfound, -, hbefore⟩ := indexOf_eq_some hm
      rw [drop_drop, singleton_prefix_drop, Nat.add_comm] at hfound
      refine ⟨Nat.le_add_left pos m, hfound, fun j hpos hj hc => hbefore (j - pos) (by omega) ?_⟩
      rw [drop_drop, singleton_prefix_drop, Nat.add_sub_cancel' hpos]
      exact hc
    · cases h
  refine ⟨hplace, fun ⟨hpos, hk, hbefore⟩ => ?_⟩
  have hlt : k < s.length := (List.getElem?_eq_some_iff.mp hk).1
  have hpart : [c] <:+: s.drop pos := by
    have hpre : [c] <+: (s.drop pos).drop (k - pos) := by
      rw [drop_drop, singleton_prefix_drop, Nat.add_sub_cancel' hpos]
      exact hk
    exact hpre.isInfix.trans (drop_suffix _ _).isInfix
  obtain ⟨m, hm⟩ := Option.isSome_iff_exists.mp (isSome_indexOf.mpr hpart)
  have hfind : find s [c] pos = some (m + pos) := by
      rw [find, if_pos (by omega), hm, Option.map_some]
  obtain ⟨hle, hmk, hmbefore⟩ := hplace hfind
  rw [hfind]
  refine congrArg some (Nat.le_antisymm (Nat.not_lt.mp fun hlt => ?_) (Nat.not_lt.mp fun hlt => ?_))
  · exact hmbefore k hpos hlt hk
  · exact hbefore _ hle hlt hmk

end Character

theorem find_append (a b t : List α) :
    find (a ++ b) t a.length = (indexOf t b).map (a.length + ·) := by
  rw [find, if_pos (by rw [length_append]; exact Nat.le_add_right _ _), drop_left]
  refine congrArg (Option.map · (indexOf t b)) ?_
  funext k
  exact Nat.add_comm k a.length

end Idgs.Common.Text
