import Idgs.Common.Numeral
import Idgs.Expr.Variant

/-!
# BIN, HEX, UNHEX and CONV

The loops of `BIN` and `HEX` shift a signed number to the right, which brings in copies of its sign;
`HEX` takes 32 bits of its number. `CONV` adds up the places of its text in an `int`, and once it
has found a digit it takes any character for one.
-/

namespace Idgs.Expr

open Common
  (placeDigits numeral numeral_of_lt numeral_step numeral_congr ofDigits_numeral
  lt_of_mem_placeDigits
  ofDigits_placeDigits reverse_numeral pow_le_of_lt_length)

/-! ## Digits -/

/-- The bytes of a `std::string`. -/
abbrev Bytes := List UInt8

/-- `NUMS` of `ConvExpression::conv`. -/
def nums : Bytes := "0123456789ABCDEFGHIJKLMNOPQRSTUVWXYZ".toList.map Char.toUInt8

/-- The digit of a number below 36. -/
def digitChar (d : ℕ) : UInt8 := nums.getD d 0

/-- `HexExpression::toHexString`. -/
def toHexString (digit : ℕ) : UInt8 :=
  if 16 ≤ digit then 0
  else if digit < 10 then '0'.toUInt8 + UInt8.ofNat digit
  else 'A'.toUInt8 - 10 + UInt8.ofNat digit

theorem toHexString_eq : ∀ d < 16, toHexString d = digitChar d := by decide

/-! ## BIN and HEX of numbers -/

/-- The loop of `BinExpression::evaluate` and `HexExpression::evaluate`: there is at least one
round, and there are no more than the given ones. Both parts of the division are those of a mask and
a signed shift. -/
def digitLoop (digit : ℕ → UInt8) (base : ℕ) : ℕ → ℤ → Bytes → Bytes
  | 0, _, result => result
  | rounds + 1, n, result =>
    let result := digit (n % base).toNat :: result
    let n := n / base
    if n ≠ 0 then digitLoop digit base rounds n result else result

/-- `BinExpression::evaluate`; other types throw. -/
def bin (value : Value) : Option Bytes :=
  if value.integer?.isSome then
    value.castInt64.map fun n =>
      digitLoop (fun digit => UInt8.ofNat digit + '0'.toUInt8) 2 64 n.toInt []
  else none

/-- The branch of `HexExpression::evaluate` for the bytes of a text. -/
def hexString (str : Bytes) : Bytes :=
  str.flatMap fun c => [toHexString (c.toNat / 16), toHexString (c.toNat % 16)]

/-- `HexExpression::evaluate`; other types throw. -/
def hex (value : Value) : Option Bytes :=
  match value with
  | .string s => some (hexString s.toUTF8.toList)
  | value =>
    if value.integer?.isSome then value.castInt32.map fun n =>
      digitLoop toHexString 16 16 n.toInt [] else none

/-! ## UNHEX -/

/-- The value of a digit for `strtol` in base 16. -/
def hexValue (c : UInt8) : Option ℕ :=
  if '0'.toUInt8 ≤ c ∧ c ≤ '9'.toUInt8 then some (c - '0'.toUInt8).toNat
  else if 'A'.toUInt8 ≤ c ∧ c ≤ 'F'.toUInt8 then some ((c - 'A'.toUInt8).toNat + 10)
  else if 'a'.toUInt8 ≤ c ∧ c ≤ 'f'.toUInt8 then some ((c - 'a'.toUInt8).toNat + 10)
  else none

/-- The number that the leading digits are; `0x` goes before when a digit comes behind it. -/
def hexDigits (s : Bytes) : ℕ :=
  let digits := match s with
    | zero :: x :: c :: rest =>
      if zero = '0'.toUInt8 ∧ (x = 'x'.toUInt8 ∨ x = 'X'.toUInt8) ∧ (hexValue c).isSome then c ::
        rest else s
    | _ => s
  ((digits.map hexValue).takeWhile Option.isSome).foldl (fun n digit => 16 * n + digit.getD 0) 0

/-- `strtol` in base 16 of a few characters. -/
def strtol (s : Bytes) : ℤ :=
  match s.dropWhile fun c => c = ' '.toUInt8 || (9 ≤ c && c ≤ 13) with
  | [] => 0
  | c :: rest =>
    if c = '-'.toUInt8 then -(hexDigits rest : ℤ)
    else if c = '+'.toUInt8 then hexDigits rest
    else hexDigits (c :: rest)

/-- The loop of `UnHexExpression::evaluate`. -/
def unHexPairs : Bytes → Bytes
  | c1 :: c2 :: rest => UInt8.ofInt (strtol [c1, c2]) :: unHexPairs rest
  | [c] => [UInt8.ofInt (strtol [c])]
  | [] => []

/-- `UnHexExpression::evaluate` on the bytes of a text; other types throw. -/
def unHex (s : Bytes) : Bytes := unHexPairs (if s.length % 2 = 1 then '0'.toUInt8 :: s else s)

/-! ## CONV -/

/-- What `conv` returns for a text that is no numeral. -/
def convError : Bytes := "ERROR".toList.map Char.toUInt8

/-- The first loop of `conv`, over the characters from the last one on. The inner `none` is its
error; the outer one is a conversion to `int` that is not defined: the power has become infinite, or
the sum does not fit. -/
def accumulate (fromBase : ℕ) : (i : ℕ) → (found : Bool) → (temp : ℕ) → Bytes → Option (Option ℕ)
  | _, _, temp, [] => some (some temp)
  | i, found, temp, c :: rest =>
    let x := (nums.take fromBase).idxOf c
    let found := found || decide (x < fromBase)
    if found = false then some none
    else if 2 ^ 1024 - 2 ^ 970 ≤ fromBase ^ i ∨ 2 ^ 31 ≤ temp + x * fromBase ^ i then none
    else accumulate fromBase (i + 1) found (temp + x * fromBase ^ i) rest

/-- The second loop of `conv`, for a base of at least 2. -/
def outputLoop (toBase temp : ℕ) (result : Bytes) : Bytes :=
  let result := digitChar (temp % toBase) :: result
  if 2 ≤ toBase ∧ temp / toBase ≠ 0 then outputLoop toBase (temp / toBase) result else result
termination_by temp
decreasing_by
  rename_i h
  exact Nat.div_lt_self (Nat.pos_of_ne_zero fun hzero => h.2 (by rw [hzero, Nat.zero_div])) h.1

/-- `ConvExpression::conv`. -/
def conv (number : Bytes) (fromBase toBase : ℕ) : Option Bytes :=
  if fromBase < 2 ∨ 36 < fromBase ∨ toBase < 2 ∨ 36 < toBase then some convError
  else match accumulate fromBase 0 false 0 number.reverse with
    | none => none
    | some none => some convError
    | some (some temp) => some (outputLoop toBase temp [])

/-- `ConvExpression::evaluate`; the outer `none` is an exception. -/
def convEvaluate (number : Value) (fromBase toBase : Value) : Option (Option Bytes) :=
  if number.type = .bool ∨ fromBase.integer?.isNone ∨ toBase.integer?.isNone then none
  else do
    let fromBaseValue ← fromBase.castInt32
    let toBaseValue ← toBase.castInt32
    if fromBaseValue < 2 ∨ 36 < fromBaseValue then none
    else if toBaseValue < 2 ∨ 36 < toBaseValue then none
    else some (conv number.toText.toUTF8.toList fromBaseValue.toInt.toNat toBaseValue.toInt.toNat)

/-! ## The numeral of a machine number -/

variable {v : Value} {n : ℤ} {s text : Bytes} {c : UInt8} {a b temp : ℕ}

/-- The numeral of a number in two's complement of 64 bits. -/
def numeral64 (base : ℕ) (n : ℤ) : Bytes := numeral digitChar base (n % 2 ^ 64).toNat

theorem ediv_emod_eq {n B P : ℤ} (hB : 0 < B) : n % (B * P) / B = n / B % P := by
  have hq : n / (B * P) = n / B / P := (Int.ediv_ediv_of_nonneg (Int.le_of_lt hB)).symm
  have hsplit : n % (B * P) = n + B * (-(P * (n / B / P))) := by
    rw [Int.emod_def, hq]
    ring
  rw [hsplit, Int.add_mul_ediv_left _ _ (Int.ne_of_gt hB), Int.emod_def]
  ring

/-- The number of rounds is enough for the number, and for a negative one all of them are taken. -/
def Fits (base rounds : ℕ) (n : ℤ) : Prop :=
  0 ≤ n ∧ n < (base : ℤ) ^ (rounds + 1) ∨ n < 0 ∧
    (base : ℤ) ^ rounds ≤ n % (base : ℤ) ^ (rounds + 1)

theorem Fits.div {base rounds : ℕ} (hbase : 2 ≤ base) (h : Fits base (rounds + 1) n) :
    Fits base rounds (n / base) := by
  have hpos : (0 : ℤ) < base := by omega
  rcases h with ⟨hnonneg, hlt⟩ | ⟨hneg, hle⟩
  · refine .inl ⟨Int.ediv_nonneg hnonneg (Int.le_of_lt hpos), Int.ediv_lt_of_lt_mul hpos ?_⟩
    rwa [← pow_succ]
  · refine .inr ⟨Int.ediv_neg_of_neg_of_pos hneg hpos, ?_⟩
    rw [pow_succ' (base : ℤ) (rounds + 1)] at hle
    rw [← ediv_emod_eq hpos]
    refine Int.le_ediv_of_mul_le hpos ?_
    rwa [← pow_succ]

theorem digitLoop_of_eq {digit : ℕ → UInt8} {base rounds : ℕ} {result : Bytes} (h : n / base = 0) :
    digitLoop digit base (rounds + 1) n result = digit (n % base).toNat :: result :=
  if_neg (not_not.mpr h)

theorem digitLoop_of_ne {digit : ℕ → UInt8} {base rounds : ℕ} {result : Bytes} (h : n / base ≠ 0) :
    digitLoop digit base (rounds + 1) n result =
      digitLoop digit base rounds (n / base) (digit (n % base).toNat :: result) :=
  if_pos h

/-- The loop writes the number modulo the power of its rounds. -/
theorem digitLoop_eq {digit : ℕ → UInt8} {base rounds : ℕ} (hbase : 2 ≤ base)
    (h : Fits base rounds n) (result : Bytes) : digitLoop digit base (rounds + 1) n result =
      numeral digit base (n % (base : ℤ) ^ (rounds + 1)).toNat ++ result := by
  have hpos : (0 : ℤ) < base := by omega
  induction rounds generalizing n result with
  | zero =>
    have hmod : (n % base).toNat < base := by
      have hlt := Int.emod_lt_of_pos n hpos
      have hnonneg := Int.emod_nonneg n (Int.ne_of_gt hpos)
      omega
    rw [zero_add, pow_one, numeral_of_lt digit hmod]
    unfold digitLoop digitLoop
    exact ite_self _
  | succ rounds ih =>
    have hpow : (0 : ℤ) < base * (base : ℤ) ^ (rounds + 1) := Int.mul_pos hpos (pow_pos hpos _)
    obtain ⟨m, hm⟩ := Int.eq_ofNat_of_zero_le (Int.emod_nonneg n (Int.ne_of_gt hpow))
    have hlast : (n % base).toNat = m % base := by
      have hmod : n % base = ((m % base : ℕ) : ℤ) := by
        rw [Int.natCast_mod, ← hm, Int.emod_emod_of_dvd n (Int.dvd_mul_right _ _)]
      rw [hmod, Int.toNat_natCast]
    have hrest : (n / base % (base : ℤ) ^ (rounds + 1)).toNat = m / base := by
      rw [← ediv_emod_eq hpos, hm, ← Int.natCast_ediv, Int.toNat_natCast]
    rw [pow_succ' (base : ℤ) (rounds + 1), hm, Int.toNat_natCast]
    by_cases hzero : n / base = 0
    · have hlt : m < base := by
        rw [hzero, Int.zero_emod, Int.toNat_zero] at hrest
        exact (Nat.div_eq_zero_iff.mp hrest.symm).resolve_left (by omega)
      rw [digitLoop_of_eq hzero, hlast, numeral_of_lt digit hlt, Nat.mod_eq_of_lt hlt]
      rfl
    · have hle : base ≤ m := by
        rcases h.div hbase with ⟨hnonneg, hlt⟩ | ⟨-, hle⟩
        · rw [Int.emod_eq_of_lt hnonneg hlt] at hrest
          exact (Nat.div_ne_zero_iff.mp (by omega)).2
        · have hone : (0 : ℤ) < (base : ℤ) ^ rounds := pow_pos hpos rounds
          exact (Nat.div_ne_zero_iff.mp (by omega)).2
      rw [digitLoop_of_ne hzero, ih (h.div hbase), hrest, hlast, numeral_step digit hbase hle,
        List.append_assoc]
      rfl

/-- `BIN` writes all 64 bits. -/
theorem bin_eq (h : v.integer? = some n) : bin v = some (numeral64 2 n) := by
  have hcast : v.castInt64 = some (Int64.ofInt n) := by
    cases v <;> cases h <;> rfl
  have hfits : Fits 2 63 (Int64.ofInt n).toInt := by
    rw [Int64.toInt_ofInt]
    unfold Fits Int.bmod
    norm_num [Int64.size]
    split <;> omega
  have hmod : (Int64.ofInt n).toInt % 2 ^ 64 = n % 2 ^ 64 := by
    rw [Int64.toInt_ofInt]
    exact Int.bmod_emod
  have hdigit : ∀ d < 2, UInt8.ofNat d + '0'.toUInt8 = digitChar d := by decide
  unfold bin numeral64
  rw [if_pos (by rw [h]; rfl), hcast, Option.map_some, digitLoop_eq le_rfl hfits, List.append_nil,
    numeral_congr le_rfl hdigit]
  exact congrArg (fun n => some (numeral digitChar 2 (Int.toNat n))) hmod

/-- The number that a digit stands for. -/
def digitValue (c : UInt8) : ℕ := nums.idxOf c

theorem digitValue_digitChar : ∀ d < 36, digitValue (digitChar d) = d := by decide

theorem numeral_inj {b m n : ℕ} (hb : 2 ≤ b) (hb36 : b ≤ 36)
    (h : numeral digitChar b m = numeral digitChar b n) :
    m = n := by
  have hvalue : ∀ d < b, digitValue (digitChar d) = d :=
    fun d hd => digitValue_digitChar d (hd.trans_le hb36)
  rw [← ofDigits_numeral hb hvalue m, h, ofDigits_numeral hb hvalue n]

/-- `HEX` writes 64 bits of the number that 32 bits are. -/
theorem hex_eq (h : v.integer? = some n) : hex v = some (numeral64 16 (Int32.ofInt n).toInt) := by
  have hcast : v.castInt32 = some (Int32.ofInt n) := by
    cases v <;> cases h <;> rfl
  have hfits : Fits 16 15 (Int32.ofInt n).toInt := by
    rw [Int32.toInt_ofInt]
    unfold Fits Int.bmod
    norm_num [Int32.size]
    split <;> omega
  have hloop : hex v = v.castInt32.map fun n => digitLoop toHexString 16 16 n.toInt [] := by
    cases v <;> cases h <;> rfl
  rw [hloop, hcast, Option.map_some, digitLoop_eq (by decide) hfits, List.append_nil,
    numeral_congr (by decide) toHexString_eq]
  rfl

/-- The numbers that 32 bits say all about. -/
def FitsInt32 (n : ℤ) : Prop := n % 2 ^ 64 < 2 ^ 31 ∨ 2 ^ 64 - 2 ^ 31 ≤ n % 2 ^ 64

theorem toInt_emod_iff (n : ℤ) : (Int32.ofInt n).toInt % 2 ^ 64 = n % 2 ^ 64 ↔ FitsInt32 n := by
  rw [Int32.toInt_ofInt]
  unfold FitsInt32 Int.bmod
  norm_num [Int32.size]
  split <;> omega

/-! ## UNHEX after HEX -/

theorem strtol_toHexString :
    ∀ hi < 16, ∀ lo < 16, strtol [toHexString hi, toHexString lo] = (16 * hi + lo : ℕ) := by
  decide +kernel

theorem unHexPairs_hexString (s : Bytes) : unHexPairs (hexString s) = s := by
  induction s with
  | nil => rfl
  | cons c s ih =>
    have hc := c.toNat_lt
    have hsplit : 16 * (c.toNat / 16) + c.toNat % 16 = c.toNat := Nat.div_add_mod _ _
    have hpair : hexString (c :: s) = toHexString (c.toNat / 16) :: toHexString (c.toNat % 16) ::
        hexString s := rfl
    have hbyte : UInt8.ofInt (c.toNat : ℕ) = c := by
      unfold UInt8.ofInt
      rw [Int.emod_eq_of_lt (by omega) (by omega), Int.toNat_natCast, UInt8.ofNat_toNat]
    rw [hpair, unHexPairs, ih, strtol_toHexString _ (by omega) _ (Nat.mod_lt _ (by decide)),
      hsplit, hbyte]

theorem length_hexString (s : Bytes) : (hexString s).length = 2 * s.length := by
  induction s with
  | nil => rfl
  | cons c s ih =>
    have hpair : hexString (c :: s) = toHexString (c.toNat / 16) :: toHexString (c.toNat % 16) ::
        hexString s := rfl
    rw [hpair, List.length_cons, List.length_cons, ih, List.length_cons]
    omega

theorem unHex_hexString (s : Bytes) : unHex (hexString s) = s := by
  unfold unHex
  rw [length_hexString, if_neg (by omega), unHexPairs_hexString]

/-! ## CONV of numerals -/

/-- The digits of a base. -/
def IsDigit (base : ℕ) (c : UInt8) : Prop := c ∈ nums.take base

theorem idxOf_lt_iff {base : ℕ} (hbase : base ≤ 36) :
    (nums.take base).idxOf c < base ↔ IsDigit base c := by
  have hlength : (nums.take base).length = base := by
    rw [List.length_take]
    exact Nat.min_eq_left hbase
  have hiff := List.idxOf_lt_length_iff (l := nums.take base) (a := c)
  rwa [hlength] at hiff

theorem idxOf_digitChar {base d : ℕ} (hbase : base ≤ 36) (hd : d < base) :
    (nums.take base).idxOf (digitChar d) = d := by
  have hnodup : nums.Nodup := by decide
  have hlength : d < (nums.take base).length := by
    rw [List.length_take]
    exact Nat.lt_min.mpr ⟨hd, hd.trans_le hbase⟩
  have hget : (nums.take base)[d] = digitChar d := by
    rw [List.getElem_take, digitChar, List.getD_eq_getElem?_getD, List.getElem?_eq_getElem,
      Option.getD_some]
  rw [← hget]
  exact List.Nodup.idxOf_getElem hnodup.take d hlength

theorem add_ofDigits_cons (base i d : ℕ) (digits : List ℕ) :
    temp + base ^ i * Nat.ofDigits base (d :: digits) =
      temp + d * base ^ i + base ^ (i + 1) * Nat.ofDigits base digits := by
  rw [Nat.ofDigits_cons]
  ring

/-- Digits are added up with the weights of their places, if the sum fits. -/
theorem accumulate_eq_some {base i : ℕ} {found : Bool} {digits : List ℕ} {t : Option ℕ}
    (hbase : base ≤ 36) (hdigits : ∀ d ∈ digits, d < base) (htemp : temp < 2 ^ 31)
    (h : accumulate base i found temp (digits.map digitChar) = some t) :
    t = some (temp + base ^ i * Nat.ofDigits base digits) ∧
    temp + base ^ i * Nat.ofDigits base digits < 2 ^ 31 := by
  induction digits generalizing i found temp with
  | nil =>
    cases h
    exact ⟨rfl, htemp⟩
  | cons d digits ih =>
    have hd : d < base := hdigits d List.mem_cons_self
    rw [add_ofDigits_cons]
    rw [List.map_cons, accumulate, idxOf_digitChar hbase hd, decide_eq_true hd, Bool.or_true,
      if_neg (by decide)] at h
    split at h
    · cases h
    · rename_i hfits
      have hnext := Nat.lt_of_not_le (not_or.mp hfits).2
      exact ih (fun d hd => hdigits d (List.mem_cons_of_mem _ hd)) hnext h

theorem two_pow_le_sub {k l m : ℕ} (hkl : k ≤ l) (hlm : l < m) : 2 ^ k ≤ 2 ^ m - 2 ^ l := by
  have hle : 2 ^ k ≤ 2 ^ l := Nat.pow_le_pow_right (by decide) hkl
  have hdouble : 2 ^ (l + 1) ≤ 2 ^ m := Nat.pow_le_pow_right (by decide) hlm
  rw [Nat.pow_succ] at hdouble
  omega

theorem accumulate_of_lt {base i : ℕ} {found : Bool} {digits : List ℕ} (hbase : base ≤ 36)
    (hdigits : ∀ d ∈ digits, d < base) (hpow : ∀ j < digits.length, base ^ (i + j) < 2 ^ 31)
    (hlt : temp + base ^ i * Nat.ofDigits base digits < 2 ^ 31) :
    accumulate base i found temp
    (digits.map digitChar) = some (some (temp + base ^ i * Nat.ofDigits base digits)) := by
  induction digits generalizing i found temp with
  | nil => rfl
  | cons d digits ih =>
    have hd : d < base := hdigits d List.mem_cons_self
    have hpower : base ^ i < 2 ^ 31 := hpow 0 (Nat.zero_lt_succ _)
    have hfinite : ¬ 2 ^ 1024 - 2 ^ 970 ≤ base ^ i :=
      Nat.not_le.mpr (hpower.trans_le (two_pow_le_sub (by decide) (by decide)))
    rw [add_ofDigits_cons] at hlt ⊢
    rw [List.map_cons, accumulate, idxOf_digitChar hbase hd, decide_eq_true hd, Bool.or_true,
      if_neg (by decide), if_neg (not_or.mpr ⟨hfinite, by omega⟩)]
    refine ih (fun d hd => hdigits d (List.mem_cons_of_mem _ hd)) (fun j hj => ?_) hlt
    rw [Nat.add_assoc, Nat.add_comm 1 j]
    exact hpow (j + 1) (Nat.succ_lt_succ hj)

theorem outputLoop_eq {base : ℕ} (hbase : 2 ≤ base) (temp : ℕ) (result : Bytes) :
    outputLoop base temp result = numeral digitChar base temp ++ result := by
  induction temp using Nat.strong_induction_on generalizing result with
  | _ temp ih =>
    rw [outputLoop]
    split
    · rename_i h
      have hle : base ≤ temp := (Nat.div_ne_zero_iff.mp h.2).2
      have hlt : temp / base < temp := Nat.div_lt_self (by omega) hbase
      rw [ih _ hlt, numeral_step digitChar hbase hle, List.append_assoc]
      rfl
    · rename_i h
      have hlt : temp < base :=
        (Nat.div_eq_zero_iff.mp (not_not.mp fun hne => h ⟨hbase, hne⟩)).resolve_left (by omega)
      rw [numeral_of_lt digitChar hlt, Nat.mod_eq_of_lt hlt]
      rfl

/-- A base that `CONV` takes. -/
def IsBase (base : ℕ) : Prop := 2 ≤ base ∧ base ≤ 36

theorem conv_of_bases (ha : IsBase a) (hb : IsBase b) (number : Bytes) :
    conv number a b = match accumulate a 0 false 0 number.reverse with
      | none => none
      | some none => some convError
      | some (some temp) => some (numeral digitChar b temp) := by
  obtain ⟨ha2, ha36⟩ := ha
  obtain ⟨hb2, hb36⟩ := hb
  have houtput : ∀ temp, outputLoop b temp [] = numeral digitChar b temp := by
    intro temp
    rw [outputLoop_eq hb2, List.append_nil]
  unfold conv
  rw [if_neg (by omega)]
  simp only [houtput]

/-- `CONV` of a numeral is the numeral of the number exactly if this is an `int`. -/
theorem conv_numeral_iff {n : ℕ} (ha : IsBase a) (hb : IsBase b) :
    conv (numeral digitChar a n) a b = some (numeral digitChar b n) ↔ n < 2 ^ 31 := by
  have hdigits : ∀ d ∈ placeDigits a n, d < a := fun d hd => lt_of_mem_placeDigits ha.1 hd
  have hsum : 0 + a ^ 0 * Nat.ofDigits a (placeDigits a n) = n := by
    rw [ofDigits_placeDigits, Nat.pow_zero, Nat.one_mul, Nat.zero_add]
  rw [conv_of_bases ha hb, reverse_numeral]
  constructor
  · intro h
    cases hacc : accumulate a 0 false 0 ((placeDigits a n).map digitChar) with
    | none =>
      rw [hacc] at h
      cases h
    | some t =>
      have hlt := (accumulate_eq_some ha.2 hdigits (by decide) hacc).2
      rwa [hsum] at hlt
  · intro h
    have hpow : ∀ j < (placeDigits a n).length, a ^ (0 + j) < 2 ^ 31 := by
      intro j hj
      rw [Nat.zero_add]
      rcases pow_le_of_lt_length ha.1 hj with hle | rfl
      · exact hle.trans_lt h
      · rw [Nat.pow_zero]
        decide
    have hacc : accumulate a 0 false 0 ((placeDigits a n).map digitChar) =
        some (some (0 + a ^ 0 * Nat.ofDigits a (placeDigits a n))) :=
      accumulate_of_lt ha.2 hdigits hpow (by rwa [hsum])
    rw [hacc, hsum]

/-! ## CONV of texts that are no numerals -/

/-- Once a digit is found, there is no error. -/
theorem accumulate_of_found {base i : ℕ} (text : Bytes) :
    accumulate base i true temp text ≠ some none := by
  induction text generalizing i temp with
  | nil => exact fun h => by cases h
  | cons c text ih =>
    rw [accumulate, Bool.true_or, if_neg (by decide)]
    split
    · exact fun h => by cases h
    · exact ih

theorem numeral_ne_convError (n : ℕ) : numeral digitChar 2 n ≠ convError := by
  intro h
  have hmem : 'E'.toUInt8 ∈ numeral digitChar 2 n := by
    rw [h]
    decide
  obtain ⟨d, hd, hdigit⟩ := List.mem_map.mp hmem
  have hno : ∀ d < 2, digitChar d ≠ 'E'.toUInt8 := by decide
  exact hno d (lt_of_mem_placeDigits le_rfl (List.mem_reverse.mp hd)) hdigit

/-- The character that is looked at first decides about the error. -/
theorem accumulate_eq_error_iff (ha : IsBase a) {rest : Bytes} :
    accumulate a 0 false 0 (c :: rest) = some none ↔ ¬ IsDigit a c := by
  rw [accumulate, Bool.false_or]
  constructor
  · intro h hdigit
    rw [decide_eq_true ((idxOf_lt_iff ha.2).mpr hdigit), if_neg (by decide)] at h
    split at h
    · cases h
    · exact accumulate_of_found rest h
  · intro hdigit
    rw [decide_eq_false (mt (idxOf_lt_iff ha.2).mp hdigit)]
    exact if_pos rfl

theorem accumulate_eq_error_iff_getLast (ha : IsBase a) (text : Bytes) :
    accumulate a 0 false 0 text.reverse = some none ↔
      ∃ c, text.getLast? = some c ∧ ¬ IsDigit a c := by
  rw [List.getLast?_eq_head?_reverse]
  cases text.reverse with
  | nil =>
    constructor
    · exact fun h => by cases h
    · rintro ⟨c, h, -⟩
      cases h
  | cons c rest =>
    rw [accumulate_eq_error_iff ha]
    constructor
    · exact fun h => ⟨c, rfl, h⟩
    · rintro ⟨d, h, hdigit⟩
      cases h
      exact hdigit

/-- All bases give the error exactly if the last character is no digit. -/
theorem conv_eq_error_iff (ha : IsBase a) (text : Bytes) :
    (∀ b, IsBase b → conv text a b = some convError) ↔
      ∃ c, text.getLast? = some c ∧ ¬ IsDigit a c := by
  rw [← accumulate_eq_error_iff_getLast ha]
  constructor
  · intro h
    have htwo := h 2 ⟨le_rfl, by decide⟩
    rw [conv_of_bases ha ⟨le_rfl, by decide⟩] at htwo
    cases hacc : accumulate a 0 false 0 text.reverse with
    | none =>
      rw [hacc] at htwo
      cases htwo
    | some t =>
      cases t with
      | none => rfl
      | some temp =>
        rw [hacc] at htwo
        exact absurd (Option.some.inj htwo) (numeral_ne_convError temp)
  · intro h b hb
    rw [conv_of_bases ha hb, h]

/-! ## The four functions together -/

/-- `BIN` and `HEX` write the number in two's complement of 64 bits. -/
def BinRight (v : Value) : Prop := ∀ n, v.integer? = some n → bin v = some (numeral64 2 n)

def HexRight (v : Value) : Prop := ∀ n, v.integer? = some n → hex v = some (numeral64 16 n)

/-- `UNHEX` undoes `HEX`. -/
def UnHexRight (s : Bytes) : Prop := unHex (hexString s) = s

/-- `CONV` turns numerals of two bases into each other. -/
def ConvRight (a b n : ℕ) : Prop :=
  conv (numeral digitChar a n) a b = some (numeral digitChar b n) ∧
    conv (numeral digitChar b n) b a = some (numeral digitChar a n)

/-- `CONV` returns the error for a text with a character that is no digit. -/
def ErrorRight (a : ℕ) (text : Bytes) : Prop :=
  (∃ c ∈ text, ¬ IsDigit a c) → ∀ b, IsBase b → conv text a b = some convError

/-- The functions agree, for all numbers, texts and bases. -/
def NumeralsAgree : Prop :=
  (∀ v, BinRight v ∧ HexRight v) ∧ (∀ s, UnHexRight s) ∧
    ∀ a, IsBase a → (∀ b, IsBase b → ∀ n < 2 ^ 63, ConvRight a b n) ∧ ∀ text, ErrorRight a text

theorem hexRight_iff (v : Value) : HexRight v ↔ ∀ n, v.integer? = some n → FitsInt32 n := by
  refine forall_congr' fun n => forall_congr' fun hv => ?_
  rw [hex_eq hv, ← toInt_emod_iff]
  constructor
  · intro h
    have hnat := numeral_inj (by decide) (by decide) (Option.some.inj h)
    have hleft := Int.emod_nonneg (Int32.ofInt n).toInt (by decide : (2 : ℤ) ^ 64 ≠ 0)
    have hright := Int.emod_nonneg n (by decide : (2 : ℤ) ^ 64 ≠ 0)
    omega
  · intro h
    unfold numeral64
    rw [h]

theorem errorRight_iff (ha : IsBase a) (text : Bytes) :
    ErrorRight a text ↔ (∀ c ∈ text, IsDigit a c) ∨ ∃ c, text.getLast? = some c ∧
    ¬ IsDigit a c := by
  rw [← conv_eq_error_iff ha text]
  constructor
  · intro h
    by_cases hdigits : ∀ c ∈ text, IsDigit a c
    · exact .inl hdigits
    · obtain ⟨c, hc⟩ := not_forall.mp hdigits
      obtain ⟨hmem, hdigit⟩ := Classical.not_imp.mp hc
      exact .inr (h ⟨c, hmem, hdigit⟩)
  · rintro (hdigits | h) ⟨c, hmem, hdigit⟩
    · exact absurd (hdigits c hmem) hdigit
    · exact h

/-- `BIN`, and `UNHEX` after `HEX`, are right for all arguments. `HEX` is right for the numbers that
32 bits say all about, `CONV` for the numbers that are an `int`, and its error for the texts whose
last character is no digit. -/
theorem numeralsAgree_iff (v : Value) (s text : Bytes) (ha : IsBase a) (hb : IsBase b) (n : ℕ) :
    BinRight v ∧ (HexRight v ↔ ∀ m, v.integer? = some m → FitsInt32 m) ∧ UnHexRight s ∧
      (ConvRight a b n ↔ n < 2 ^ 31) ∧
      (ErrorRight a text ↔ (∀ c ∈ text, IsDigit a c) ∨ ∃ c, text.getLast? = some c ∧
        ¬ IsDigit a c) := by
  refine ⟨fun n hv => bin_eq hv, hexRight_iff v, unHex_hexString s, ?_, errorRight_iff ha text⟩
  unfold ConvRight
  rw [conv_numeral_iff ha hb, conv_numeral_iff hb ha]
  exact and_self_iff

theorem numeralsAgree_iff_decimal :
    BinRight (.int64 255) ∧
    (HexRight (.int64 255) ↔ ∀ m, Value.integer? (.int64 255) = some m → FitsInt32 m) ∧
      UnHexRight [65] ∧ (ConvRight 10 16 255 ↔ 255 < 2 ^ 31) ∧
      (ErrorRight 10 [90, 49] ↔ (∀ c ∈ ([90, 49] : Bytes), IsDigit 10 c) ∨
        ∃ c, ([90, 49] : Bytes).getLast? = some c ∧ ¬ IsDigit 10 c) :=
  numeralsAgree_iff (.int64 255) [65] [90, 49] ⟨by decide, by decide⟩ ⟨by decide, by decide⟩ 255

/-- `HEX` of `2 ^ 31` is that of a negative number. -/
theorem not_numeralsAgree : ¬ NumeralsAgree := by
  rintro ⟨hnumbers, -, -⟩
  have hfits :=
    (hexRight_iff (.int64 2147483648)).mp (hnumbers (.int64 2147483648)).2 2147483648 rfl
  exact absurd hfits (by unfold FitsInt32; decide)

end Idgs.Expr
