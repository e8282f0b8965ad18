import Mathlib.Algebra.BigOperators.Group.List.Basic
import Mathlib.Algebra.Order.Ring.Int
import Mathlib.Data.List.Perm.Subperm

/-!
# Numbers in double precision and as text

Whole numbers are added in double precision and printed in decimals. Below `2 ^ 53` nothing is
rounded, and what is printed is read back.
-/

namespace Idgs.Common

open List

/-! ## Double precision -/

/-- The double next to a whole number, the one with the even last digit of two that are as near. -/
def roundDouble (x : ℤ) : ℤ :=
  let n := x.natAbs
  if n < 2 ^ 53 then x
  else
    let unit := 2 ^ (n.log2 - 52)
    let digits := n / unit
    let up :=
      decide (unit < 2 * (n % unit)) || decide (2 * (n % unit) = unit) && decide (digits % 2 = 1)
    x.sign * ((if up then digits + 1 else digits) * unit : ℕ)

theorem roundDouble_of_lt {x : ℤ} (h : |x| < 2 ^ 53) : roundDouble x = x := by
  unfold roundDouble
  have hlt : x.natAbs < 2 ^ 53 := by
    rw [Int.abs_eq_natAbs] at h
    omega
  exact if_pos hlt

/-- The loop that adds up whole numbers. -/
def sumDoubles (sum : ℤ) (values : List ℤ) : ℤ :=
  values.foldl (fun sum value => roundDouble (sum + roundDouble value)) sum

/-- All sums of some of the numbers stay below `2 ^ 53`. -/
def SumsBelow (values : List ℤ) : Prop := ∀ part : List ℤ, part.Subperm values → |part.sum| < 2 ^ 53

theorem SumsBelow.subperm {values part : List ℤ} (h : SumsBelow values)
    (hpart : part.Subperm values) :
    SumsBelow part :=
  fun part' hpart' => h part' (hpart'.trans hpart)

/-- The sum is exact, whatever is summed up first. -/
theorem SumsBelow.sumDoubles_eq {before values : List ℤ} (h : SumsBelow (before ++ values)) :
    sumDoubles before.sum values = (before ++ values).sum := by
  induction values generalizing before with
  | nil =>
    rw [append_nil]
    rfl
  | cons value values ih =>
    have hnext : before.sum + value = (before ++ [value]).sum := by
        rw [sum_append, sum_singleton]
    have hassoc : before ++ value :: values = (before ++ [value]) ++ values := by
      rw [append_assoc, singleton_append]
    have hvalue : |value| < 2 ^ 53 := by
      have hone :=
        h [value]
        (singleton_sublist.mpr (mem_append_right _ mem_cons_self)).subperm
      rwa [sum_singleton] at hone
    have hsum : |before.sum + value| < 2 ^ 53 := by
      rw [hnext]
      refine h _ (List.Sublist.subperm ?_)
      rw [hassoc]
      exact sublist_append_left _ _
    rw [sumDoubles, foldl_cons, roundDouble_of_lt hvalue, roundDouble_of_lt hsum, hnext]
    rw [hassoc] at h ⊢
    exact ih h

theorem flatten_sublist {α : Type*} {chosen parts : List (List α)} (h : chosen.Sublist parts) :
    chosen.flatten.Sublist parts.flatten := by
  induction h with
  | slnil => exact List.Sublist.refl _
  | cons part _ ih => exact ih.trans (sublist_append_right _ _)
  | cons_cons part _ ih => exact ih.append_left part

/-- Sums of parts are added up as exactly. -/
theorem SumsBelow.parts {parts : List (List ℤ)} (h : SumsBelow parts.flatten) :
    SumsBelow (parts.map List.sum) := by
  intro sums hsums
  obtain ⟨sums', hperm, hsub⟩ := hsums
  obtain ⟨chosen, hchosen, rfl⟩ := sublist_map_iff.mp hsub
  rw [← hperm.sum_eq, ← sum_flatten]
  exact h _ (flatten_sublist hchosen).subperm

/-! ## Text -/

/-- The decimals of a natural number. -/
def decimal (n : ℕ) : List Char := Nat.toDigits 10 n

/-- The number that the text begins with, if there is one. -/
def readDecimal (text : List Char) : Option ℕ :=
  let digits := text.takeWhile Char.isDigit
  if digits.isEmpty then none else some (Nat.ofDigitChars 10 digits 0)

theorem takeWhile_decimal (n : ℕ) {rest : List Char} (hrest : rest.head?.all fun c => !c.isDigit) :
    (decimal n ++ rest).takeWhile Char.isDigit = decimal n := by
  have hdigits : ∀ c ∈ decimal n, c.isDigit :=
    fun c hc => Nat.isDigit_of_mem_toDigits (by decide) (by decide) hc
  rw [takeWhile_append_of_pos hdigits]
  cases rest with
  | nil => rw [takeWhile_nil, append_nil]
  | cons c rest =>
    have hc : ¬ c.isDigit = true := by simpa using hrest
    rw [takeWhile_cons_of_neg hc, append_nil]

theorem decimal_ne_nil (n : ℕ) : decimal n ≠ [] := ne_nil_of_length_pos Nat.length_toDigits_pos

/-- What is printed is read back, if no digit follows. -/
theorem readDecimal_decimal (n : ℕ) {rest : List Char}
    (hrest : rest.head?.all fun c => !c.isDigit) :
    readDecimal (decimal n ++ rest) = some n := by
  unfold readDecimal
  rw [takeWhile_decimal n hrest]
  simp only
  rw [if_neg (by simpa using decimal_ne_nil n)]
  exact congrArg some Nat.ofDigitChars_ten_toDigits

/-- A double that is a whole number, with six digits after the point. -/
def fixed (x : ℤ) : List Char :=
  (if x < 0 then ['-'] else []) ++ (decimal x.natAbs ++ ['.', '0', '0', '0', '0', '0', '0'])

/-- The double that is read, if nothing follows the point but zeros. -/
def readFixed (text : List Char) : Option ℤ :=
  let negative := text.head? == some '-'
  let digits := if negative then text.tail else text
  let point := digits.dropWhile Char.isDigit
  if point.head? == some '.' && point.tail.all (· == '0') then
    (readDecimal digits).map fun n => roundDouble (if negative then -n else n)
  else none

theorem dropWhile_decimal (n : ℕ) {rest : List Char} (hrest : rest.head?.all fun c => !c.isDigit) :
    (decimal n ++ rest).dropWhile Char.isDigit = rest := by
  have hsplit := takeWhile_append_dropWhile (p := Char.isDigit) (l := decimal n ++ rest)
  rw [takeWhile_decimal n hrest] at hsplit
  exact append_cancel_left hsplit

theorem head_decimal_ne (n : ℕ) (rest : List Char) : (decimal n ++ rest).head? ≠ some '-' := by
  intro hhead
  rcases hdigits : decimal n with _ | ⟨c, cs⟩
  · exact decimal_ne_nil n hdigits
  · rw [hdigits] at hhead
    obtain rfl : c = '-' := by simpa using hhead
    have hdigit : Char.isDigit '-' = true :=
      Nat.isDigit_of_mem_toDigits (b := 10) (n := n) (by decide) (by decide)
        (by rw [← decimal, hdigits]; simp)
    exact absurd hdigit (by decide)

/-- What is printed of a double is read back. -/
theorem readFixed_fixed {x : ℤ} (h : |x| < 2 ^ 53) : readFixed (fixed x) = some x := by
  have hpoint : (['.', '0', '0', '0', '0', '0', '0'] : List Char).head?.all fun c =>
      !c.isDigit := by decide
  unfold readFixed fixed
  by_cases hx : x < 0
  · rw [if_pos hx]
    simp only [singleton_append, head?_cons, BEq.rfl, if_true, tail_cons]
    rw [dropWhile_decimal _ hpoint, readDecimal_decimal _ hpoint]
    have habs : |x| = -x := abs_of_neg hx
    simp [habs, roundDouble_of_lt h]
  · rw [if_neg hx, nil_append]
    have hhead : ((decimal x.natAbs ++ ['.', '0', '0', '0', '0', '0', '0']).head? == some '-') =
        false := by
      rw [beq_eq_false_iff_ne]
      exact head_decimal_ne _ _
    simp only [hhead, Bool.false_eq_true, if_false]
    rw [dropWhile_decimal _ hpoint, readDecimal_decimal _ hpoint]
    have habs : |x| = x := abs_of_nonneg (by omega)
    simp [habs, roundDouble_of_lt h]

end Idgs.Common
