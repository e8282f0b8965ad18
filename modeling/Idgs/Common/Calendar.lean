import Mathlib.Data.Nat.Find
import Mathlib.Algebra.Order.Ring.Int

/-!
# The Gregorian calendar

Dates with the day after each, and their numbers: a date has the number of the day before it plus
one, so that day arithmetic on dates is arithmetic on their numbers. The calendar is extended to all
years before and after.
-/

namespace Idgs.Common.Calendar

/-! ## Years and months -/

/-- Leap years. -/
def isLeap (year : ℤ) : Bool := year % 4 = 0 && (year % 100 ≠ 0 || year % 400 = 0)

theorem isLeap_iff (year : ℤ) :
    isLeap year = true ↔ year % 4 = 0 ∧ (year % 100 ≠ 0 ∨ year % 400 = 0) := by
  simp [isLeap]

/-- The days in the months of a year. -/
def monthLengths (leap : Bool) : List ℕ :=
  [31, if leap then 29 else 28, 31, 30, 31, 30, 31, 31, 30, 31, 30, 31]

/-- The days in a month, counted from 1. -/
def daysInMonth (leap : Bool) (month : ℕ) : ℕ := (monthLengths leap).getD (month - 1) 0

/-- The days of a year before a month. -/
def daysBeforeMonth (leap : Bool) (month : ℕ) : ℕ := ((monthLengths leap).take (month - 1)).sum

/-- The days from the first day of the year 0 to that of a year. -/
def daysBeforeYear (year : ℤ) : ℤ :=
  365 * year + (year + 3) / 4 - (year + 99) / 100 + (year + 399) / 400

/-- The days in a year. -/
def daysInYear (leap : Bool) : ℕ := if leap then 366 else 365

theorem daysBeforeMonth_succ : ∀ leap, ∀ month ≤ 12, 1 ≤ month →
    daysBeforeMonth leap (month + 1) = daysBeforeMonth leap month + daysInMonth leap month := by
    decide

theorem daysBeforeMonth_thirteen : ∀ leap, daysBeforeMonth leap 13 = daysInYear leap := by decide

theorem one_le_daysInMonth (leap : Bool) (month : ℕ) (hpos : 1 ≤ month) (hle : month ≤ 12) :
    1 ≤ daysInMonth leap month := by
  have hall : ∀ leap, ∀ month ≤ 12, 1 ≤ month → 1 ≤ daysInMonth leap month := by decide
  exact hall leap month hle hpos

/-- A month ends before a later one starts. -/
theorem daysBeforeMonth_le : ∀ leap, ∀ later ≤ 13, ∀ month < later,
    daysBeforeMonth leap (month + 1) ≤ daysBeforeMonth leap later := by decide

theorem daysBeforeYear_succ (year : ℤ) :
    daysBeforeYear (year + 1) = daysBeforeYear year + daysInYear (isLeap year) := by
  unfold daysBeforeYear daysInYear
  by_cases h : isLeap year = true
  · rw [if_pos h]
    rw [isLeap_iff] at h
    push_cast
    omega
  · rw [if_neg h]
    rw [isLeap_iff] at h
    push_cast
    omega

theorem daysBeforeYear_mono {a b : ℤ} (h : a ≤ b) : daysBeforeYear a ≤ daysBeforeYear b := by
  induction b, h using Int.le_induction with
  | base => exact le_refl _
  | succ b hab ih =>
    rw [daysBeforeYear_succ]
    unfold daysInYear
    split <;> omega

/-- The leap years repeat after 400 years. -/
theorem daysBeforeYear_add_cycles (q year : ℤ) :
    daysBeforeYear (400 * q + year) = 146097 * q + daysBeforeYear year := by
  unfold daysBeforeYear
  omega

/-! ## Dates -/

/-- A date: months and days are counted from 1. -/
@[ext]
structure Date where
  year : ℤ
  month : ℕ
  day : ℕ
  month_pos : 1 ≤ month
  month_le : month ≤ 12
  day_pos : 1 ≤ day
  day_le : day ≤ daysInMonth (isLeap year) month

theorem one_le_twelve : 1 ≤ 12 := by decide

/-- The day after. -/
def Date.tomorrow (d : Date) : Date :=
  if hday : d.day < daysInMonth (isLeap d.year) d.month then
    { d with day := d.day + 1, day_pos := Nat.le_add_left 1 d.day, day_le := hday }
  else if hmonth : d.month < 12 then
    ⟨d.year, d.month + 1, 1, Nat.le_add_left 1 d.month, hmonth, le_refl 1,
      one_le_daysInMonth _ _ (by omega) hmonth⟩
  else ⟨d.year + 1, 1, 1, le_refl 1, one_le_twelve, le_refl 1,
    one_le_daysInMonth _ _ (le_refl 1) one_le_twelve⟩

/-- The number of a day; the first day of the year 0 has the number 0. -/
def Date.number (d : Date) : ℤ :=
  daysBeforeYear d.year + daysBeforeMonth (isLeap d.year) d.month + (d.day - 1 : ℕ)

theorem Date.number_tomorrow (d : Date) : d.tomorrow.number = d.number + 1 := by
  have hpos := d.day_pos
  have hle := d.day_le
  unfold tomorrow
  split
  case isTrue hday =>
    change daysBeforeYear d.year + daysBeforeMonth (isLeap d.year) d.month + (d.day + 1 - 1 : ℕ) =
      d.number + 1
    unfold number
    omega
  case isFalse hday =>
    have hend := daysBeforeMonth_succ (isLeap d.year) d.month d.month_le d.month_pos
    split
    case isTrue hmonth =>
      unfold number
      rw [hend]
      push_cast
      omega
    case isFalse hmonth =>
      have htwelve : d.month = 12 := le_antisymm d.month_le (Nat.le_of_not_lt hmonth)
      have hstart : daysBeforeMonth (isLeap (d.year + 1)) 1 = 0 := rfl
      rw [htwelve, daysBeforeMonth_thirteen, ← htwelve] at hend
      unfold number
      rw [daysBeforeYear_succ, hend, hstart]
      push_cast
      omega

/-- A date lies in its year. -/
theorem Date.number_mem_year (d : Date) :
    daysBeforeYear d.year ≤ d.number ∧ d.number < daysBeforeYear (d.year + 1) := by
  have hle := d.day_le
  have hpos := d.day_pos
  have hend := daysBeforeMonth_succ (isLeap d.year) d.month d.month_le d.month_pos
  have hyear := daysBeforeMonth_thirteen (isLeap d.year)
  have hlast : daysBeforeMonth (isLeap d.year) (d.month + 1) ≤
      daysBeforeMonth (isLeap d.year) 13 := by
    rcases Nat.lt_or_ge d.month 12 with hlt | hge
    · exact (daysBeforeMonth_le (isLeap d.year) 13 (le_refl 13) d.month (by omega))
    · exact le_of_eq (by rw [le_antisymm d.month_le hge])
  rw [daysBeforeYear_succ]
  unfold number
  omega

/-- A number lies between one pair of steps of an increasing sequence only. -/
theorem eq_of_mem_steps {f : ℤ → ℤ} (hf : ∀ {a b}, a ≤ b → f a ≤ f b) {a b r : ℤ}
    (ha : f a ≤ r ∧ r < f (a + 1)) (hb : f b ≤ r ∧ r < f (b + 1)) : a = b := by
  rcases lt_trichotomy a b with hlt | heq | hlt
  · have := hf (Int.add_one_le_of_lt hlt)
    omega
  · exact heq
  · have := hf (Int.add_one_le_of_lt hlt)
    omega

/-- Dates are told apart by their numbers. -/
theorem Date.number_injective : Function.Injective Date.number := by
  intro d e h
  have hyear : d.year = e.year := by
    have hd := d.number_mem_year
    rw [h] at hd
    exact eq_of_mem_steps daysBeforeYear_mono hd e.number_mem_year
  unfold number at h
  rw [hyear] at h
  have hdpos := d.day_pos
  have hepos := e.day_pos
  have hd := d.day_le
  have he := e.day_le
  rw [hyear] at hd
  have hdend := daysBeforeMonth_succ (isLeap e.year) d.month d.month_le d.month_pos
  have heend := daysBeforeMonth_succ (isLeap e.year) e.month e.month_le e.month_pos
  have hmonth : d.month = e.month := by
    rcases lt_trichotomy d.month e.month with hlt | heq | hlt
    · have := daysBeforeMonth_le (isLeap e.year) e.month (e.month_le.trans (by decide)) d.month hlt
      omega
    · exact heq
    · have := daysBeforeMonth_le (isLeap e.year) d.month (d.month_le.trans (by decide)) e.month hlt
      omega
  rw [hmonth] at h
  exact Date.ext hyear hmonth (by omega)

/-! ## The date of a number -/

/-- The last step of a sequence at or below a number is followed by one above it. -/
theorem findGreatest_mem_steps {α : Type} [LinearOrder α] {f : ℕ → α} {r : α} {N : ℕ} (h0 : f 0 ≤ r)
    (hN : r < f (N + 1)) :
    f (Nat.findGreatest (fun c => f c ≤ r) N) ≤ r ∧ r < f
    (Nat.findGreatest (fun c => f c ≤ r) N + 1) := by
  refine ⟨Nat.findGreatest_spec (P := fun c => f c ≤ r) (Nat.zero_le N) h0, ?_⟩
  have hle := Nat.findGreatest_le (P := fun c => f c ≤ r) N
  rcases hle.lt_or_eq with hlt | heq
  · exact not_le.mp (Nat.findGreatest_is_greatest (Nat.lt_succ_self _) hlt)
  · rwa [heq]

/-- The year that a day is in: 400 years have 146097 days. -/
def yearOf (n : ℤ) : ℤ :=
  400 * (n / 146097) + Nat.findGreatest (fun c : ℕ => daysBeforeYear c ≤ n % 146097) 399

theorem yearOf_spec (n : ℤ) :
    daysBeforeYear (yearOf n) ≤ n ∧ n < daysBeforeYear (yearOf n + 1) := by
  have hstart : daysBeforeYear (0 : ℕ) ≤ n % 146097 := by
    have hzero : daysBeforeYear (0 : ℕ) = 0 := rfl
    omega
  have hstop : n % 146097 < daysBeforeYear (399 + 1 : ℕ) := by
    have hcycle : daysBeforeYear (399 + 1 : ℕ) = 146097 := rfl
    omega
  obtain ⟨hle, hlt⟩ := findGreatest_mem_steps (f := fun c : ℕ => daysBeforeYear c) hstart hstop
  unfold yearOf
  rw [add_assoc, daysBeforeYear_add_cycles, daysBeforeYear_add_cycles]
  push_cast at hle hlt
  omega

/-- The month that a day of a year is in. -/
def monthOf (leap : Bool) (day : ℕ) : ℕ :=
  Nat.findGreatest (fun m => daysBeforeMonth leap (m + 1) ≤ day) 11 + 1

theorem monthOf_spec {leap : Bool} {day : ℕ} (h : day < daysInYear leap) :
    daysBeforeMonth leap (monthOf leap day) ≤ day ∧ day < daysBeforeMonth leap
    (monthOf leap day + 1) := by
  refine findGreatest_mem_steps (f := fun m => daysBeforeMonth leap (m + 1)) ?_ ?_
  · exact Nat.zero_le day
  · exact h.trans_eq (daysBeforeMonth_thirteen leap).symm

theorem one_le_monthOf (leap : Bool) (day : ℕ) : 1 ≤ monthOf leap day := Nat.le_add_left 1 _

theorem monthOf_le (leap : Bool) (day : ℕ) : monthOf leap day ≤ 12 :=
  Nat.succ_le_succ (Nat.findGreatest_le 11)

/-- The day of the year, counted from 0. -/
def dayOfYear (n : ℤ) : ℕ := (n - daysBeforeYear (yearOf n)).toNat

theorem dayOfYear_lt (n : ℤ) : dayOfYear n < daysInYear (isLeap (yearOf n)) := by
  have hspec := yearOf_spec n
  rw [daysBeforeYear_succ] at hspec
  unfold dayOfYear
  omega

theorem dayOfMonth_le (n : ℤ) :
    dayOfYear n - daysBeforeMonth (isLeap (yearOf n))
    (monthOf (isLeap (yearOf n)) (dayOfYear n)) + 1 ≤
      daysInMonth (isLeap (yearOf n)) (monthOf (isLeap (yearOf n)) (dayOfYear n)) := by
  have hspec := monthOf_spec (dayOfYear_lt n)
  generalize isLeap (yearOf n) = leap at hspec ⊢
  have hend :=
    daysBeforeMonth_succ leap _ (monthOf_le leap (dayOfYear n)) (one_le_monthOf leap (dayOfYear n))
  omega

/-- The date with a number. -/
def Date.ofNumber (n : ℤ) : Date where
  year := yearOf n
  month := monthOf (isLeap (yearOf n)) (dayOfYear n)
  day := dayOfYear n - daysBeforeMonth (isLeap (yearOf n))
    (monthOf (isLeap (yearOf n)) (dayOfYear n)) + 1
  month_pos := one_le_monthOf _ _
  month_le := monthOf_le _ _
  day_pos := Nat.le_add_left 1 _
  day_le := dayOfMonth_le n

theorem Date.number_ofNumber (n : ℤ) : (Date.ofNumber n).number = n := by
  have hmonth := monthOf_spec (dayOfYear_lt n)
  have hyear := yearOf_spec n
  change daysBeforeYear (yearOf n) +
    daysBeforeMonth (isLeap (yearOf n)) (monthOf (isLeap (yearOf n)) (dayOfYear n)) +
    (dayOfYear n - daysBeforeMonth (isLeap (yearOf n)) (monthOf (isLeap (yearOf n)) (dayOfYear n)) +
    1 - 1 : ℕ) = n
  generalize monthOf (isLeap (yearOf n)) (dayOfYear n) = month at hmonth
  have hday : (dayOfYear n : ℤ) = n - daysBeforeYear (yearOf n) := by
    unfold dayOfYear
    omega
  omega

theorem Date.ofNumber_number (d : Date) : Date.ofNumber d.number = d :=
  Date.number_injective (Date.number_ofNumber d.number)

/-! ## Days after -/

/-- A date is `n` days after another one, and for a negative number before it. -/
def Date.IsDaysAfter (d e : Date) : ℤ → Prop
  | .ofNat n => Date.tomorrow^[n] d = e
  | .negSucc n => Date.tomorrow^[n + 1] e = d

theorem Date.number_iterate_tomorrow (n : ℕ) (d : Date) :
    (Date.tomorrow^[n] d).number = d.number + n := by
  induction n generalizing d with
  | zero => exact (add_zero d.number).symm
  | succ n ih =>
    rw [Function.iterate_succ_apply, ih, d.number_tomorrow]
    push_cast
    omega

/-- **Counting days is counting numbers.** -/
theorem Date.isDaysAfter_iff {d e : Date} {n : ℤ} :
    d.IsDaysAfter e n ↔ e.number = d.number + n := by
  cases n with
  | ofNat n =>
    change Date.tomorrow^[n] d = e ↔ e.number = d.number + n
    rw [← number_iterate_tomorrow]
    exact ⟨fun h => by rw [h], fun h => number_injective h.symm⟩
  | negSucc n =>
    change Date.tomorrow^[n + 1] e = d ↔ e.number = d.number + Int.negSucc n
    have hnumber : e.number = d.number + Int.negSucc n ↔
        d.number = (Date.tomorrow^[n + 1] e).number := by
      rw [number_iterate_tomorrow]
      omega
    rw [hnumber]
    exact ⟨fun h => by rw [h], fun h => number_injective h.symm⟩

end Idgs.Common.Calendar
