import Idgs.Common.Calendar
import Idgs.Common.Text
import Idgs.Expr.Variant
import Mathlib.Algebra.Order.Group.Abs
import Mathlib.Tactic.Ring

/-!
# Day arithmetic

`DATE_ADD`, `DATE_SUB` and `DATEDIFF` count days as 86400 seconds between local midnights. The time
zone is a parameter: how far its clock is ahead at every instant, and the instant that `mktime`
gives for a reading of this clock. A day in which the clock is set is not 86400 seconds long; this
and years without four digits are the only ways for day arithmetic to go wrong.
-/

namespace Idgs.Expr.Dates

open Common.Calendar List

/-! ## The C library -/

/-- `struct tm`; `tm_isdst` is left out, which is negative for `mktime`. -/
structure Tm where
  tm_sec : ℤ
  tm_min : ℤ
  tm_hour : ℤ
  tm_mday : ℤ
  tm_mon : ℤ
  tm_year : ℤ

/-- A number at the start of a text in at most `width` digits, and what follows it. -/
def getNumber (lo hi width : ℕ) (s : List Char) : Option (ℕ × List Char) :=
  let s := s.dropWhile (· = ' ')
  let digits := (s.takeWhile Char.isDigit).take width
  let n := Nat.ofDigitChars 10 digits 0
  if digits ≠ [] ∧ lo ≤ n ∧ n ≤ hi then some (n, s.drop digits.length) else none

/-- A directive of `strptime`: a number that is stored, or a character. -/
inductive Directive
  | number (lo hi width : ℕ) (store : ℕ → Tm → Tm)
  | literal (c : Char)

/-- `strptime`: it stops at the first directive that fails, and what it has stored by then stays. -/
def strptime : List Directive → List Char → Tm → Tm
  | [], _, tm => tm
  | .number lo hi width store :: pattern, s, tm =>
    match getNumber lo hi width s with
    | none => tm
    | some (n, s) => strptime pattern s (store n tm)
  | .literal _ :: _, [], tm => tm
  | .literal c :: pattern, c' :: s, tm => if c = c' then strptime pattern s tm else tm

/-- The pattern `%Y-%m-%d`. -/
def datePattern : List Directive :=
  [.number 0 9999 4 fun n tm => { tm with tm_year := n - 1900 }, .literal '-',
    .number 1 12 2 fun n tm => { tm with tm_mon := n - 1 }, .literal '-',
    .number 1 31 2 fun n tm => { tm with tm_mday := n }]

/-- The number of the day that `time_t` counts from, the first of January 1970. -/
def epochDay : ℤ := 719528

/-- The seconds of a broken-down time since the epoch, on a clock without a zone; the fields need
not be in range. -/
def Tm.seconds (tm : Tm) : ℤ :=
  let year := tm.tm_year + 1900 + tm.tm_mon / 12
  let month := (tm.tm_mon % 12).toNat + 1
  let day := daysBeforeYear year + daysBeforeMonth (isLeap year) month + (tm.tm_mday - 1)
  86400 * (day - epochDay) + 3600 * tm.tm_hour + 60 * tm.tm_min + tm.tm_sec

/-- A local time zone: the seconds that its clock is ahead of UTC at an instant, and the instant at
which `mktime` puts a reading of the clock. A reading that occurs is put where it occurs; one that
is skipped, near to it. -/
structure Zone where
  offset : ℤ → ℤ
  instant : ℤ → ℤ
  instant_clock : ∀ t, instant (t + offset t) + offset (instant (t + offset t)) = t + offset t
  offset_le : ∀ t, |offset t| ≤ 604800
  instant_near : ∀ c, |instant c - c| ≤ 604800

/-- `mktime` for a negative `tm_isdst`. -/
def mktime (zone : Zone) (tm : Tm) : ℤ := zone.instant tm.seconds

/-- What the local clock shows at an instant. -/
def Zone.clock (zone : Zone) (t : ℤ) : ℤ := t + zone.offset t

/-- `localtime_r`; it fails if the year does not fit `tm_year`. -/
def localtime_r (zone : Zone) (t : ℤ) : Option Tm :=
  let date := Date.ofNumber (zone.clock t / 86400 + epochDay)
  let second := zone.clock t % 86400
  if -2 ^ 31 ≤ date.year - 1900 ∧ date.year - 1900 < 2 ^ 31 then
    some {
      tm_sec := second % 60
      tm_min := second / 60 % 60
      tm_hour := second / 3600
      tm_mday := date.day
      tm_mon := date.month - 1
      tm_year := date.year - 1900 }
  else none

/-! ## Evaluation -/

/-- `stringToDateTime`. -/
def stringToDateTime (zone : Zone) (sDateTime : List Char) (pattern : List Directive) : ℤ :=
  mktime zone (strptime pattern sDateTime ⟨0, 0, 0, 0, 0, 0⟩)

/-- `std::to_string`, with a zero in front of one digit. -/
def twoDigits (n : ℤ) : List Char :=
  if n < 10 then '0' :: (toString n).toList else (toString n).toList

/-- `formatToDate`. -/
def formatToDate (datetime : Tm) : List Char :=
  (toString (datetime.tm_year + 1900)).toList ++
    '-' :: (twoDigits (datetime.tm_mon + 1) ++ '-' :: twoDigits datetime.tm_mday)

/-- `DateDiffExpression::evaluate`: the quotient becomes an `int32_t`. -/
def dateDiff (zone : Zone) (sEndtime sStarttime : List Char) : ℤ :=
  let end_ := stringToDateTime zone sEndtime datePattern
  let start := stringToDateTime zone sStarttime datePattern
  ((end_ - start).tdiv 86400).bmod (2 ^ 32)

/-- `DateAddExpression::evaluate` and `DateSubExpression::evaluate` with their operator. The seconds
are unsigned numbers of 64 bits, and the sum becomes a `time_t`. `none` is an exception, or a
`struct tm` that `localtime_r` has not set. -/
def moveDate (zone : Zone) (operator : ℤ → ℤ → ℤ) (sStarttime : List Char) (days : Value) :
    Option (List Char) :=
  if days.integer?.isNone then none
  else days.castUInt64.bind fun days =>
    let timestamp := stringToDateTime zone sStarttime datePattern
    (localtime_r zone ((operator timestamp (days.toNat * 86400)).bmod (2 ^ 64))).map formatToDate

/-- `DateAddExpression::evaluate`. -/
def dateAdd (zone : Zone) : List Char → Value → Option (List Char) := moveDate zone (· + ·)

/-- `DateSubExpression::evaluate`. -/
def dateSub (zone : Zone) : List Char → Value → Option (List Char) := moveDate zone (· - ·)

/-! ## Numbers of a fixed width -/

section Digits

variable {w m n lo hi y : ℕ} {rest : List Char}

/-- The last `w` decimal digits of a number. -/
def padded : ℕ → ℕ → List Char
  | 0, _ => []
  | w + 1, n => padded w (n / 10) ++ [Nat.digitChar (n % 10)]

theorem length_padded (w n : ℕ) : (padded w n).length = w := by
  induction w generalizing n with
  | zero => rfl
  | succ w ih => rw [padded, length_append, ih, length_singleton]

theorem isDigit_of_mem_padded {c : Char} (h : c ∈ padded w n) : c.isDigit = true := by
  induction w generalizing n with
  | zero => cases h
  | succ w ih =>
    rcases mem_append.mp h with h | h
    · exact ih h
    · have hdigit : ∀ d < 10, (Nat.digitChar d).isDigit = true := by decide
      rw [mem_singleton.mp h]
      exact hdigit _ (Nat.mod_lt n (by decide))

theorem ofDigitChars_padded (h : n < 10 ^ w) : Nat.ofDigitChars 10 (padded w n) 0 = n := by
  induction w generalizing n with
  | zero =>
    rw [pow_zero, Nat.lt_one_iff] at h
    rw [h]
    rfl
  | succ w ih =>
    have hdiv : n / 10 < 10 ^ w := Nat.div_lt_of_lt_mul (by rwa [pow_succ'] at h)
    have hlast : n % 10 < 10 := Nat.mod_lt n (by decide)
    rw [padded, Nat.ofDigitChars_append, ih hdiv, Nat.ofDigitChars_cons_digitChar_of_lt_ten hlast,
      Nat.ofDigitChars_nil]
    omega

theorem toDigits_eq_padded (hlo : 10 ^ w ≤ n) (hhi : n < 10 ^ (w + 1)) :
    Nat.toDigits 10 n = padded (w + 1) n := by
  induction w generalizing n with
  | zero =>
    have hlt : n < 10 := by simpa using hhi
    rw [Nat.toDigits_of_lt_base hlt, padded, padded, Nat.mod_eq_of_lt hlt]
    rfl
  | succ w ih =>
    have hten : 10 ≤ n := le_trans (Nat.le_self_pow (Nat.succ_ne_zero w) 10) hlo
    have hlo' : 10 ^ w ≤ n / 10 := by
      rw [Nat.le_div_iff_mul_le (by decide), ← pow_succ]
      exact hlo
    have hhi' : n / 10 < 10 ^ (w + 1) := Nat.div_lt_of_lt_mul (by rwa [pow_succ'] at hhi)
    rw [Nat.toDigits_of_base_le (by decide) hten, ih hlo' hhi']
    rfl

/-- The decimal text of a number is its text in four digits exactly if it has four digits. -/
theorem toDigits_eq_padded_iff (hm : m ≤ 9999) :
    Nat.toDigits 10 y = padded 4 m ↔ y = m ∧ 1000 ≤ y := by
  constructor
  · intro h
    have hvalue : y = m := by
      have hread := congrArg (fun s => Nat.ofDigitChars 10 s 0) h
      have hleft : Nat.ofDigitChars 10 (Nat.toDigits 10 y) 0 = y := Nat.ofDigitChars_ten_toDigits
      have hright : Nat.ofDigitChars 10 (padded 4 m) 0 = m := ofDigitChars_padded (by omega)
      exact hleft.symm.trans (hread.trans hright)
    refine ⟨hvalue, ?_⟩
    by_contra hlt
    have hthree : (Nat.toDigits 10 y).length ≤ 3 :=
      (Nat.length_toDigits_le_iff (by decide) (by decide)).mpr (by omega)
    rw [h, length_padded] at hthree
    exact absurd hthree (by decide)
  · rintro ⟨rfl, hlo⟩
    exact toDigits_eq_padded (w := 3) hlo (by omega)

theorem padded_inj (hm : m < 10 ^ w) (hn : n < 10 ^ w) (h : padded w m = padded w n) : m = n := by
  have hread := congrArg (fun s => Nat.ofDigitChars 10 s 0) h
  simpa only [ofDigitChars_padded hm, ofDigitChars_padded hn] using hread

/-- A number in its width is read back. -/
theorem getNumber_padded (hw : 0 < w) (h : n < 10 ^ w) (hlo : lo ≤ n) (hhi : n ≤ hi)
    (rest : List Char) :
    getNumber lo hi w (padded w n ++ rest) = some (n, rest) := by
  have hne : padded w n ≠ [] := by
    rw [← length_pos_iff, length_padded]
    exact hw
  obtain ⟨c, cs, hcons⟩ := exists_cons_of_ne_nil hne
  have hblank : (padded w n ++ rest).dropWhile (· = ' ') = padded w n ++ rest := by
    have hc : c.isDigit = true :=
      isDigit_of_mem_padded (w := w) (n := n) (by rw [hcons]; exact mem_cons_self)
    rw [hcons, cons_append, dropWhile_cons_of_neg]
    intro hspace
    rw [of_decide_eq_true hspace] at hc
    exact absurd hc (by decide)
  have hdigits : ((padded w n ++ rest).takeWhile Char.isDigit).take w = padded w n := by
    rw [takeWhile_append_of_pos fun c hc => isDigit_of_mem_padded hc]
    exact take_left' (length_padded w n)
  rw [getNumber]
  simp only [hblank, hdigits]
  rw [ofDigitChars_padded h, if_pos ⟨hne, hlo, hhi⟩, drop_left]

end Digits

/-! ## Dates as texts -/

/-- A date whose year has four digits at most. -/
structure WrittenDate extends Date where
  year_nonneg : 0 ≤ year
  year_le : year ≤ 9999

/-- The date as `YYYY-MM-DD`. -/
def WrittenDate.text (d : WrittenDate) : List Char :=
  padded 4 d.year.toNat ++ '-' :: (padded 2 d.month ++ '-' :: padded 2 d.day)

section Texts

variable {zone : Zone} {d : WrittenDate} {x : Date} {timePart : List Char} {tm : Tm} {t : ℤ}

theorem daysInMonth_le : ∀ leap, ∀ month ≤ 12, daysInMonth leap month ≤ 31 := by decide

/-- The instant of the midnight at which a date starts. -/
def Zone.midnight (zone : Zone) (d : Date) : ℤ := zone.instant (86400 * (d.number - epochDay))

/-- The fields of a date are read, whatever follows. -/
theorem strptime_text (d : WrittenDate) (timePart : List Char) :
    strptime datePattern
    (d.text ++ timePart) ⟨0, 0, 0, 0, 0, 0⟩ = ⟨0, 0, 0, d.day, d.month - 1, d.year - 1900⟩ := by
  have hmonth := d.month_le
  have hday := d.day_le.trans (daysInMonth_le _ _ hmonth)
  have hnonneg := d.year_nonneg
  have hle := d.year_le
  have hyear : getNumber 0 9999 4 (d.text ++ timePart) =
      some (d.year.toNat, '-' :: (padded 2 d.month ++ '-' :: (padded 2 d.day ++ timePart))) := by
    rw [WrittenDate.text, append_assoc]
    rw [getNumber_padded (by decide) (by omega) (Nat.zero_le _) (by omega)]
    simp
  rw [datePattern, strptime, hyear]
  simp only [strptime, if_true]
  rw [getNumber_padded (by decide) (by omega) d.month_pos hmonth]
  simp only [strptime, if_true]
  rw [getNumber_padded (by decide) (by omega) d.day_pos hday]
  simp [hnonneg]

theorem stringToDateTime_text (zone : Zone) (d : WrittenDate) (timePart : List Char) :
    stringToDateTime zone (d.text ++ timePart) datePattern = zone.midnight d.toDate := by
  have hpos := d.month_pos
  have hle := d.month_le
  have hdaypos := d.day_pos
  have hseconds : (⟨0, 0, 0, d.day, d.month - 1, d.year - 1900⟩ : Tm).seconds =
      86400 * (d.number - epochDay) := by
    have hdiv : ((d.month : ℤ) - 1) / 12 = 0 := by omega
    have hmod : (((d.month : ℤ) - 1) % 12).toNat + 1 = d.month := by omega
    have hyear : d.year - 1900 + 1900 + 0 = d.year := by ring
    unfold Tm.seconds
    simp only [hdiv, hmod, hyear]
    unfold Date.number
    omega
  rw [stringToDateTime, strptime_text, mktime, hseconds]
  rfl

theorem toList_toString_natCast (n : ℕ) : (toString (n : ℤ)).toList = Nat.toDigits 10 n := by
  exact Nat.toList_repr

/-- Two digits are written with a zero in front if need be. -/
theorem twoDigits_eq {n : ℕ} (h : n < 100) : twoDigits n = padded 2 n := by
  have hall : ∀ n < 100, twoDigits (n : ℕ) = padded 2 n := by decide
  exact hall n h

/-- A date as `formatToDate` writes it: the year has as many digits as it needs. -/
def dateText (x : Date) : List Char :=
  (toString x.year).toList ++ '-' :: (padded 2 x.month ++ '-' :: padded 2 x.day)

theorem formatToDate_eq (sec min hour : ℤ) (x : Date) :
    formatToDate ⟨sec, min, hour, x.day, x.month - 1, x.year - 1900⟩ = dateText x := by
  have hmonth := x.month_le
  have hday := x.day_le.trans (daysInMonth_le _ _ hmonth)
  rw [formatToDate, dateText]
  simp only [sub_add_cancel]
  rw [twoDigits_eq (by omega), twoDigits_eq (by omega)]

/-- The date that the local clock shows. -/
def Zone.dateAt (zone : Zone) (t : ℤ) : Date := Date.ofNumber (zone.clock t / 86400 + epochDay)

theorem localtime_r_eq (zone : Zone) (t : ℤ) : (localtime_r zone t).map formatToDate =
    if -2 ^ 31 ≤ (zone.dateAt t).year - 1900 ∧ (zone.dateAt t).year - 1900 < 2 ^ 31 then
      some (dateText (zone.dateAt t))
    else none := by
  unfold localtime_r Zone.dateAt
  simp only
  split
  · exact congrArg some (formatToDate_eq _ _ _ _)
  · rfl

/-- A date is written in the pattern exactly if its year has four digits. -/
theorem dateText_eq_iff (x : Date) (e : WrittenDate) :
    dateText x = e.text ↔ x = e.toDate ∧ 1000 ≤ e.year := by
  have hnonneg := e.year_nonneg
  have hle := e.year_le
  have hdash : '-' ∉ padded 4 e.year.toNat := fun h => absurd (isDigit_of_mem_padded h) (by decide)
  constructor
  · intro h
    rcases lt_or_ge x.year 0 with hneg | hpos
    · have htext : (toString x.year).toList = '-' :: Nat.toDigits 10 (-x.year).toNat := by
        have hrepr : toString x.year = x.year.repr := rfl
        rw [hrepr, Int.repr_eq_if, if_neg (by omega), String.toList_append, Nat.toList_repr]
        rfl
      rw [dateText, WrittenDate.text, htext] at h
      have hhead := congrArg List.head? h
      obtain ⟨c, cs, hcons⟩ := exists_cons_of_ne_nil (l := padded 4 e.year.toNat)
        fun hnil => by simpa [hnil] using length_padded 4 e.year.toNat
      rw [hcons] at hhead hdash
      obtain rfl : '-' = c := Option.some.inj hhead
      exact absurd mem_cons_self hdash
    · obtain ⟨k, hk⟩ := Int.eq_ofNat_of_zero_le hpos
      rw [dateText, WrittenDate.text, hk, toList_toString_natCast] at h
      have hdash' : '-' ∉ Nat.toDigits 10 k := fun hmem =>
        absurd (Nat.isDigit_of_mem_toDigits (by decide) (by decide) hmem) (by decide)
      have hyears := congrArg (List.takeWhile (· ≠ '-')) h
      rw [Common.Text.takeWhile_append_cons hdash',
        Common.Text.takeWhile_append_cons hdash] at hyears
      rw [hyears] at h
      obtain ⟨hyear, hlo⟩ := (toDigits_eq_padded_iff (by omega)).mp hyears
      have hrest := (List.cons.inj (append_cancel_left h)).2
      obtain ⟨hmonths, hdays⟩ := append_inj hrest (by rw [length_padded, length_padded])
      have hxmonth := x.month_le
      have hemonth := e.month_le
      have hxday := x.day_le.trans (daysInMonth_le _ _ hxmonth)
      have heday := e.day_le.trans (daysInMonth_le _ _ hemonth)
      refine ⟨Date.ext ?_ ?_ ?_, by omega⟩
      · omega
      · exact padded_inj (by omega) (by omega) hmonths
      · exact padded_inj (by omega) (by omega) (List.cons.inj hdays).2
  · rintro ⟨rfl, hlo⟩
    have hyear : (toString e.year).toList = padded 4 e.year.toNat := by
      have hcast : e.year = (e.year.toNat : ℤ) := by omega
      rw [hcast, toList_toString_natCast, Int.toNat_natCast]
      exact (toDigits_eq_padded_iff (by omega)).mpr ⟨rfl, by omega⟩
    rw [dateText, WrittenDate.text, hyear]

end Texts

/-! ## Calendar arithmetic -/

/-- A number of days moves a date in the calendar, back for the negated number, and is the
difference of the dates. -/
def Right (zone : Zone) (d : WrittenDate) (timePart : List Char) (days : Value) (n : ℤ) : Prop :=
  ∃ e : WrittenDate, d.IsDaysAfter e.toDate n ∧ dateAdd zone (d.text ++ timePart) days =
    some e.text ∧
    (∀ negated : Value, negated.integer? = some (-n) →
      dateSub zone (d.text ++ timePart) days = dateAdd zone (d.text ++ timePart) negated) ∧
    ∀ text, dateAdd zone (d.text ++ timePart) days = some text →
    dateDiff zone text (d.text ++ timePart) = n

/-- How much the clock is past midnight when a date starts; nothing, unless the zone skips this
midnight. -/
def Zone.late (zone : Zone) (d : Date) : ℤ :=
  zone.clock (zone.midnight d) - 86400 * (d.number - epochDay)

/-- How much the clock has been set forward `n` times 24 hours after the start of a date. -/
def Zone.gain (zone : Zone) (d : Date) (n : ℤ) : ℤ :=
  zone.offset (zone.midnight d + n * 86400) - zone.offset (zone.midnight d)

/-- How much the time from the start of a date to that of another one is longer than 24 hours for
every day; if both midnights occur, it is how much the clock is set back between them. -/
def Zone.excess (zone : Zone) (d e : Date) : ℤ :=
  zone.late e - zone.late d - (zone.offset (zone.midnight e) - zone.offset (zone.midnight d))

/-- The later date has a year of four digits; `n` times 24 hours after the start of the first date
the clock is on the later one; and the time between their starts is that many days and less than a
day more. -/
structure Kept (zone : Zone) (d e : Date) (n : ℤ) : Prop where
  year : 1000 ≤ e.year ∧ e.year ≤ 9999
  shown : 0 ≤ zone.late d + zone.gain d n ∧ zone.late d + zone.gain d n < 86400
  later : 0 < n → 0 ≤ zone.excess d e ∧ zone.excess d e < 86400
  earlier : n < 0 → -86400 < zone.excess d e ∧ zone.excess d e ≤ 0

/-- A zone whose clock is never set. -/
def Zone.fixed (ahead : ℤ) (h : |ahead| ≤ 604800) : Zone where
  offset _ := ahead
  instant c := c - ahead
  instant_clock t := by omega
  offset_le _ := h
  instant_near c := by rw [sub_sub_cancel_left, abs_neg]; exact h

/-- A zone that is never ahead. -/
def Zone.utc : Zone := .fixed 0 (by decide)

/-- The 11th of December 2013. -/
def december11 : WrittenDate :=
  ⟨⟨2013, 12, 11, by decide, by decide, by decide, by decide⟩, by decide, by decide⟩

section Arithmetic

variable {zone : Zone} {d e : WrittenDate} {timePart : List Char} {days : Value} {n s t x : ℤ}

theorem bmod_of_small (hlo : -2 ^ 62 ≤ x) (hhi : x < 2 ^ 62) : x.bmod (2 ^ 64) = x := by
  refine Int.bmod_eq_of_le ?_ ?_ <;> norm_num <;> omega

/-- Seconds from one start to another are divided into days without rest if they are enough, and not
for one more. -/
theorem tdiv_eq_iff : (86400 * n + s).tdiv 86400 = n ↔
    (0 < n → 0 ≤ s ∧ s < 86400) ∧ (n < 0 → -86400 < s ∧ s ≤ 0) ∧
    (n = 0 → -86400 < s ∧ s < 86400) := by
  rcases lt_or_ge (86400 * n + s) 0 with hneg | hpos
  · have hdiv : (86400 * n + s).tdiv 86400 = -((-(86400 * n + s)) / 86400) := by
      rw [← neg_neg (86400 * n + s), Int.neg_tdiv, Int.tdiv_eq_ediv_of_nonneg (by omega), neg_neg]
    rw [hdiv]
    omega
  · rw [Int.tdiv_eq_ediv_of_nonneg hpos]
    omega

/-- A written date is a day of the years from 0 to 9999. -/
theorem number_bounds (d : WrittenDate) : 0 ≤ d.number ∧ d.number < 3652425 := by
  have hspec := d.number_mem_year
  have hlo := daysBeforeYear_mono d.year_nonneg
  have hhi : daysBeforeYear (d.year + 1) ≤ daysBeforeYear 10000 :=
    daysBeforeYear_mono (by have := d.year_le; omega)
  have hzero : daysBeforeYear 0 = 0 := rfl
  have hlast : daysBeforeYear 10000 = 3652425 := rfl
  omega

theorem castUInt64_toNat (h : days.integer? = some n) :
    ∃ k, days.castUInt64 = some k ∧ ((k.toNat : ℕ) : ℤ) % 2 ^ 64 = n % 2 ^ 64 := by
  refine ⟨UInt64.ofInt n, ?_, ?_⟩
  · cases days <;> cases h <;> rfl
  · unfold UInt64.ofInt
    rw [UInt64.toNat_ofNat']
    omega

theorem bmod_congr {a b : ℤ} (h : a % 2 ^ 64 = b % 2 ^ 64) : a.bmod (2 ^ 64) = b.bmod (2 ^ 64) := by
  rw [← Int.emod_bmod a, ← Int.emod_bmod b]
  norm_num at h ⊢
  rw [h]

section

variable (h : days.integer? = some n)

include h

/-- The unsigned seconds differ from those of the number of days by a multiple of 2 to the 64. -/
theorem moveDate_eq {operator : ℤ → ℤ → ℤ}
    (hoperator : ∀ m k : ℤ, k % 2 ^ 64 = n % 2 ^ 64 →
      operator m (k * 86400) % 2 ^ 64 = operator m (n * 86400) % 2 ^ 64) :
    moveDate zone operator (d.text ++ timePart) days =
      (localtime_r zone ((operator (zone.midnight d.toDate) (n * 86400)).bmod (2 ^ 64))).map
      formatToDate := by
  obtain ⟨k, hcast, hk⟩ := castUInt64_toNat h
  have hbmod := bmod_congr (hoperator (zone.midnight d.toDate) k.toNat hk)
  rw [moveDate, if_neg (by rw [h]; simp), hcast, Option.bind_some, stringToDateTime_text]
  simp only [hbmod]

theorem dateAdd_eq : dateAdd zone (d.text ++ timePart) days =
    (localtime_r zone ((zone.midnight d.toDate + n * 86400).bmod (2 ^ 64))).map formatToDate :=
  moveDate_eq h fun m k hk => by omega

/-- `DATE_SUB` of any number of days is `DATE_ADD` of the negated number. -/
theorem dateSub_eq_dateAdd {negated : Value}
    (hnegated : negated.integer? = some (-n)) :
    dateSub zone (d.text ++ timePart) days = dateAdd zone (d.text ++ timePart) negated := by
  have hsub : dateSub zone (d.text ++ timePart) days =
      (localtime_r zone ((zone.midnight d.toDate - n * 86400).bmod (2 ^ 64))).map formatToDate :=
    moveDate_eq h fun m k hk => by omega
  rw [hsub, dateAdd_eq hnegated, neg_mul, sub_eq_add_neg]

end

theorem midnight_near (zone : Zone) (d : Date) :
    -604800 ≤ zone.midnight d - 86400 * (d.number - epochDay) ∧
      zone.midnight d - 86400 * (d.number - epochDay) ≤ 604800 :=
  abs_le.mp (zone.instant_near _)

theorem midnight_sub (zone : Zone) (d e : Date) :
    zone.midnight e - zone.midnight d = 86400 * (e.number - d.number) + zone.excess d e := by
  unfold Zone.excess Zone.late Zone.clock
  omega

/-- `DATEDIFF` of two written dates divides the time between their starts. -/
theorem dateDiff_eq (zone : Zone) (d e : WrittenDate) (timePart : List Char) :
    dateDiff zone e.text (d.text ++ timePart) =
      (86400 * (e.number - d.number) + zone.excess d.toDate e.toDate).tdiv 86400 := by
  have hend := stringToDateTime_text zone e []
  rw [append_nil] at hend
  rw [dateDiff, hend, stringToDateTime_text, midnight_sub]
  have hd := number_bounds d
  have he := number_bounds e
  have hdnear := midnight_near zone d.toDate
  have henear := midnight_near zone e.toDate
  have hsub := midnight_sub zone d.toDate e.toDate
  generalize hx : 86400 * (e.number - d.number) + zone.excess d.toDate e.toDate = x
  have hlo : -86400 * 4000000 ≤ x := by omega
  have hhi : x ≤ 86400 * 4000000 := by omega
  have hquotient : -4000000 ≤ x.tdiv 86400 ∧ x.tdiv 86400 ≤ 4000000 := by
    rcases lt_or_ge x 0 with hneg | hpos
    · have hdiv : x.tdiv 86400 = -((-x) / 86400) := by
        rw [← neg_neg x, Int.neg_tdiv, Int.tdiv_eq_ediv_of_nonneg (by omega), neg_neg]
      omega
    · rw [Int.tdiv_eq_ediv_of_nonneg hpos]
      omega
  refine Int.bmod_eq_of_le ?_ ?_ <;> norm_num <;> omega

/-- The date that the clock shows after a number of 24 hours. -/
theorem dateAt_eq_iff {d e : Date} (h : d.IsDaysAfter e n) :
    zone.dateAt (zone.midnight d + n * 86400) = e ↔
    0 ≤ zone.late d + zone.gain d n ∧ zone.late d + zone.gain d n < 86400 := by
  have hnumber := Date.isDaysAfter_iff.mp h
  have hdate : zone.dateAt (zone.midnight d + n * 86400) = e ↔
      zone.clock (zone.midnight d + n * 86400) / 86400 + epochDay = e.number := by
    unfold Zone.dateAt
    constructor
    · intro heq
      rw [← heq, Date.number_ofNumber]
    · intro heq
      rw [heq, Date.ofNumber_number]
  rw [hdate, hnumber]
  unfold Zone.late Zone.gain Zone.clock
  omega

/-- For a written date some days after another one nothing overflows. -/
theorem dateAdd_text_iff (h : days.integer? = some n) (hafter : d.IsDaysAfter e.toDate n) :
    dateAdd zone (d.text ++ timePart) days = some e.text ↔
      (0 ≤ zone.late d.toDate + zone.gain d.toDate n ∧ zone.late d.toDate + zone.gain d.toDate n <
        86400) ∧
        1000 ≤ e.year := by
  have hnumber := Date.isDaysAfter_iff.mp hafter
  have hd := number_bounds d
  have he := number_bounds e
  have hnear := midnight_near zone d.toDate
  have hepoch : epochDay = 719528 := rfl
  have hsmall : (zone.midnight d.toDate + n * 86400).bmod (2 ^ 64) =
      zone.midnight d.toDate + n * 86400 :=
    bmod_of_small (by omega) (by omega)
  rw [dateAdd_eq h, hsmall, localtime_r_eq, ← dateAt_eq_iff hafter, ← dateText_eq_iff]
  generalize zone.dateAt (zone.midnight d.toDate + n * 86400) = x
  split
  case isTrue => exact Option.some_inj
  case isFalse hrange =>
    refine iff_of_false (fun hnone => by cases hnone) fun htext => ?_
    obtain ⟨rfl, hlo⟩ := (dateText_eq_iff x e).mp htext
    have hhi := e.year_le
    omega

/-- **Day arithmetic is calendar arithmetic exactly if the clock is not set within the days.** -/
theorem dateArithmetic_iff (zone : Zone) (d : WrittenDate) (timePart : List Char)
    (h : days.integer? = some n) :
    Right zone d timePart days n ↔ ∃ e : Date, d.IsDaysAfter e n ∧ Kept zone d.toDate e n := by
  constructor
  · rintro ⟨e, hafter, hadd, -, hdiff⟩
    have hdiff' := hdiff e.text hadd
    obtain ⟨hshown, hyear⟩ := (dateAdd_text_iff h hafter).mp hadd
    have hnumber := Date.isDaysAfter_iff.mp hafter
    have hsub : e.number - d.number = n := by omega
    rw [dateDiff_eq, hsub, tdiv_eq_iff] at hdiff'
    exact ⟨e.toDate, hafter, ⟨hyear, e.year_le⟩, hshown, hdiff'.1, hdiff'.2.1⟩
  · rintro ⟨e, hafter, hkept⟩
    have hyear := hkept.year
    have hadd : dateAdd zone (d.text ++ timePart) days =
        some (WrittenDate.mk e (by omega) hyear.2).text :=
      (dateAdd_text_iff h hafter).mpr ⟨hkept.shown, hyear.1⟩
    refine ⟨⟨e, by omega, hyear.2⟩, hafter, hadd, fun negated => dateSub_eq_dateAdd h,
      fun text htext => ?_⟩
    obtain rfl := Option.some.inj (hadd.symm.trans htext)
    have hnumber := Date.isDaysAfter_iff.mp hafter
    have hsub : e.number - d.number = n := by omega
    rw [dateDiff_eq]
    simp only
    rw [hsub, tdiv_eq_iff]
    refine ⟨hkept.later, hkept.earlier, fun hzero => ?_⟩
    have hsame : d.toDate = e := Date.number_injective (by omega)
    have hexcess : zone.excess d.toDate e = 0 := by
      unfold Zone.excess
      rw [hsame]
      omega
    rw [hexcess]
    decide

theorem dateArithmetic_iff_december : Right .utc december11 [' ', '1', '5'] (.int32 31) 31 ↔
    ∃ e : Date, december11.IsDaysAfter e 31 ∧ Kept .utc december11.toDate e 31 :=
  dateArithmetic_iff .utc december11 [' ', '1', '5'] rfl

end Arithmetic

/-! ## Zones -/

/-- A clock that is set back by an hour at one in the morning of 27 October 2013, UTC. -/
def Zone.setBack : Zone where
  offset t := if t < 1382835600 then 7200 else 3600
  instant c := if c < 1382842800 then c - 7200 else c - 3600
  instant_clock t := by split <;> split <;> split <;> omega
  offset_le t := by split <;> decide
  instant_near c := by
    rw [abs_le]
    split <;> omega

/-- The 27th of October 2013. -/
def october27 : WrittenDate :=
  ⟨⟨2013, 10, 27, by decide, by decide, by decide, by decide⟩, by decide, by decide⟩

/-- 24 hours after the start of the day on which the clock is set back it is still this day. -/
theorem not_right_october27 : ¬ Right .setBack october27 [] (.int32 1) 1 := by
  rintro ⟨e, hafter, hadd, -⟩
  have hshown := ((dateAdd_text_iff rfl hafter).mp hadd).1.1
  have hback : Zone.setBack.late october27.toDate + Zone.setBack.gain october27.toDate 1 =
      -3600 := by decide
  omega

end Idgs.Expr.Dates
