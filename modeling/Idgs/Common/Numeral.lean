import Mathlib.Data.Nat.Digits.Lemmas

/-!
# Numerals

Numbers written in a base, without leading zeros. Zero is written with one digit.
-/

namespace Idgs.Common

open List

variable {α : Type*} {b n d j : ℕ}

/-- The digits of a number, the last one first. -/
def placeDigits (b n : ℕ) : List ℕ := if n = 0 then [0] else Nat.digits b n

/-- The numeral of a number in a base, with these digits. -/
def numeral (digit : ℕ → α) (b n : ℕ) : List α := (placeDigits b n).reverse.map digit

theorem placeDigits_of_lt (h : n < b) : placeDigits b n = [n] := by
  unfold placeDigits
  split
  · rename_i hzero
    rw [hzero]
  · rename_i hzero
    exact Nat.digits_of_lt b n hzero h

theorem placeDigits_step (hb : 2 ≤ b) (h : b ≤ n) :
    placeDigits b n = n % b :: placeDigits b (n / b) := by
  have hquotient : 0 < n / b := Nat.div_pos h (by omega)
  unfold placeDigits
  rw [if_neg (by omega), if_neg (by omega)]
  exact Nat.digits_def' hb (by omega)

theorem lt_of_mem_placeDigits (hb : 2 ≤ b) (h : d ∈ placeDigits b n) : d < b := by
  unfold placeDigits at h
  split at h
  · obtain rfl := mem_singleton.mp h
    omega
  · exact Nat.digits_lt_base hb h

theorem ofDigits_placeDigits (b n : ℕ) : Nat.ofDigits b (placeDigits b n) = n := by
  unfold placeDigits
  split
  · rename_i hzero
    rw [hzero, Nat.ofDigits_singleton]
  · exact Nat.ofDigits_digits b n

/-- A number is at least the power of its first digit, unless this is the only one. -/
theorem pow_le_of_lt_length (hb : 2 ≤ b) (h : j < (placeDigits b n).length) :
    b ^ j ≤ n ∨ j = 0 := by
  unfold placeDigits at h
  split at h
  · rw [length_singleton] at h
    exact .inr (by omega)
  · rename_i hzero
    have hle : b * b ^ j ≤ b * n := calc
      b * b ^ j = b ^ (j + 1) := (Nat.pow_succ').symm
      _ ≤ b ^ (Nat.digits b n).length := Nat.pow_le_pow_right (by omega) h
      _ ≤ b * n := Nat.base_pow_length_digits_le b n hb hzero
    exact .inl (Nat.le_of_mul_le_mul_left hle (by omega))

theorem numeral_of_lt (digit : ℕ → α) (h : n < b) : numeral digit b n = [digit n] := by
  rw [numeral, placeDigits_of_lt h]
  rfl

/-- The last digit comes off the end. -/
theorem numeral_step (digit : ℕ → α) (hb : 2 ≤ b) (h : b ≤ n) :
    numeral digit b n = numeral digit b (n / b) ++ [digit (n % b)] := by
  rw [numeral, placeDigits_step hb h, reverse_cons, map_append]
  rfl

/-- Only the digits below the base count. -/
theorem numeral_congr {digit digit' : ℕ → α} (hb : 2 ≤ b) (h : ∀ d < b, digit d = digit' d)
    (n : ℕ) :
    numeral digit b n = numeral digit' b n :=
  map_congr_left fun d hd => h d (lt_of_mem_placeDigits hb (mem_reverse.mp hd))

theorem reverse_numeral (digit : ℕ → α) (b n : ℕ) :
    (numeral digit b n).reverse = (placeDigits b n).map digit := by
  rw [numeral, ← map_reverse, reverse_reverse]

/-- A numeral is read by the values of its digits. -/
theorem ofDigits_numeral {digit : ℕ → α} {value : α → ℕ} (hb : 2 ≤ b)
    (hvalue : ∀ d < b, value (digit d) = d) (n : ℕ) :
    Nat.ofDigits b ((numeral digit b n).reverse.map value) = n := by
  have hmap : ((placeDigits b n).map digit).map value = placeDigits b n := by
    have hid : ∀ d ∈ placeDigits b n, (value ∘ digit) d = id d :=
      fun d hd => hvalue d (lt_of_mem_placeDigits hb hd)
    rw [map_map, map_congr_left hid, map_id]
  rw [reverse_numeral, hmap, ofDigits_placeDigits]

end Idgs.Common
