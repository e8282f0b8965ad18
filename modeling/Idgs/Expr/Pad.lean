import Idgs.Expr.Variant
import Mathlib.Data.List.Basic
import Mathlib.Logic.Function.Iterate

/-!
# LPAD and RPAD

Both loops append the pad until the text is long enough. The requested length is converted to
`size_t`, so that a negative one is longer than any text; a pad that is not empty reaches it, and an
empty one reaches nothing.
-/

namespace Idgs.Expr

open Function List

/-! ## Evaluation -/

/-- The `while` loop that appends until the text has a size; `none` is a loop that has not ended. -/
def growLoop (grow : List Char → List Char) (size : ℕ) : ℕ → List Char → Option (List Char)
  | 0, _ => none
  | fuel + 1, text => if text.length < size then growLoop grow size fuel (grow text) else some text

/-- The loop of `LPadExpression::evaluate`. -/
def lpadLoop (pad : List Char) (padLen fuel : ℕ) (pads : List Char) : Option (List Char) :=
  growLoop (pad ++ ·) padLen fuel pads

/-- The loop of `RPadExpression::evaluate`. -/
def rpadLoop (pad : List Char) (n fuel : ℕ) (result : List Char) : Option (List Char) :=
  growLoop (· ++ pad) n fuel result

/-- The requested length as a `size_t`; `none` is the exception for a value whose type is above
4. -/
def padSize (middle : Value) : Option ℕ :=
  middle.integer?.map fun n => (UInt64.ofInt n).toNat

/-- `LPadExpression::evaluate` for the values of the children. The outer `none` is a loop that has
not ended, the inner one an exception. -/
def lpad (fuel : ℕ) (left middle right : Value) : Option (Option (List Char)) :=
  match padSize middle with
  | none => some none
  | some n =>
    let result := left.toText.toList
    if n < result.length then some (some (result.take n))
    else if result.length < n then
      let padLen := n - result.length
      (lpadLoop right.toText.toList padLen fuel []).map fun pads =>
        some (pads.take padLen ++ result)
    else some (some result)

/-- `RPadExpression::evaluate` for the values of the children. -/
def rpad (fuel : ℕ) (left middle right : Value) : Option (Option (List Char)) :=
  match padSize middle with
  | none => some none
  | some n =>
    let result := left.toText.toList
    if n < result.length then some (some (result.take n))
    else if result.length < n then
      (rpadLoop right.toText.toList n fuel result).map fun result => some (result.take n)
    else some (some result)

/-! ## The loops -/

section Loop

variable {grow : List Char → List Char} {size : ℕ}

/-- A loop that makes progress ends with a text that is long enough. -/
theorem exists_growLoop (hgrow : ∀ text, text.length < (grow text).length) (fuel : ℕ)
    (text : List Char) (hfuel : size ≤ fuel + text.length) :
    ∃ m, growLoop grow size
    (fuel + 1) text = some (grow^[m] text) ∧ size ≤ (grow^[m] text).length := by
  induction fuel generalizing text with
  | zero =>
    rw [Nat.zero_add] at hfuel
    exact ⟨0, if_neg (Nat.not_lt.mpr hfuel), hfuel⟩
  | succ fuel ih =>
    rcases Nat.lt_or_ge text.length size with hshort | hlong
    · have hnext := hgrow text
      obtain ⟨m, hm, hsize⟩ := ih (grow text) (by omega)
      refine ⟨m + 1, ?_, hsize⟩
      rw [growLoop, if_pos hshort, hm]
      rfl
    · exact ⟨0, if_neg (Nat.not_lt.mpr hlong), hlong⟩

/-- A loop that changes nothing does not end. -/
theorem growLoop_stuck {text : List Char} (hgrow : grow text = text) (hshort : text.length < size)
    (fuel : ℕ) :
    growLoop grow size fuel text = none := by
  induction fuel with
  | zero => rfl
  | succ fuel ih => rw [growLoop, if_pos hshort, hgrow, ih]

end Loop

/-- A text a number of times. -/
def repeated (k : ℕ) (pad : List Char) : List Char := (List.replicate k pad).flatten

theorem append_left_iterate (pad : List Char) (k : ℕ) : (pad ++ ·)^[k] [] = repeated k pad := by
  induction k with
  | zero => rfl
  | succ k ih =>
    rw [iterate_succ_apply', ih, repeated, repeated, replicate_succ, flatten_cons]

theorem append_right_iterate (pad s : List Char) (k : ℕ) :
    (· ++ pad)^[k] s = s ++ repeated k pad := by
  induction k with
  | zero => exact (append_nil s).symm
  | succ k ih =>
    rw [iterate_succ_apply', ih, append_assoc, repeated, repeated,
      replicate_succ', flatten_append, flatten_singleton]

/-! ## Texts of the requested length -/

/-- The text cut, or preceded by repetitions of the pad that are cut on the right. -/
def PaddedLeft (s pad : List Char) (n : ℕ) (result : List Char) : Prop :=
  result.length = n ∧ (n ≤ s.length ∧ result = s.take n ∨
    s.length < n ∧ ∃ k, result = (repeated k pad).take (n - s.length) ++ s)

/-- The text cut, or followed by repetitions of the pad that are cut on the right. -/
def PaddedRight (s pad : List Char) (n : ℕ) (result : List Char) : Prop :=
  result.length = n ∧ (n ≤ s.length ∧ result = s.take n ∨
    s.length < n ∧ ∃ k, result = s ++ (repeated k pad).take (n - s.length))

/-- The evaluation ends, for a length that is not negative and a pad that is not empty with the
padded text. -/
def Pads (evaluate : ℕ → Option (Option (List Char))) (n : ℤ) (pad : List Char)
    (Padded : ℕ → List Char → Prop) :
    Prop :=
  (∃ fuel, (evaluate fuel).isSome) ∧
    (0 ≤ n → pad ≠ [] → ∃ fuel result, evaluate fuel = some (some result) ∧ Padded n.toNat result)

/-- The pad is not empty, or the text is as long as the requested length taken as a `size_t`. -/
def ReachesLength (left middle right : Value) : Prop :=
  right.toText.toList ≠ [] ∨ ∀ n ∈ padSize middle, n ≤ left.toText.toList.length

section Pad

variable {left middle right : Value} {n : ℤ} {size : ℕ}

/-- A length that is not negative is itself as a `size_t`. -/
theorem padSize_of_nonneg (h : middle.integer? = some n) (hn : 0 ≤ n) :
    padSize middle = some n.toNat := by
  have hlt : n < 2 ^ 64 := by
    cases middle <;> simp only [Value.integer?, Value.toInt?, Option.some.injEq,
      reduceCtorEq] at h <;> subst h
    · rename_i v
      have hv := v.toInt_lt
      omega
    · rename_i v
      have hv := v.toInt_lt
      omega
    · rename_i v
      have hv := v.toNat_lt
      omega
    · rename_i v
      have hv := v.toNat_lt
      omega
  rw [padSize, h, Option.map_some]
  refine congrArg some ?_
  unfold UInt64.ofInt
  rw [Int.emod_eq_of_lt hn (by omega)]
  exact UInt64.toNat_ofNat_of_lt' (by change n.toNat < 2 ^ 64; omega)

/-- A text that is long enough is cut, whatever is done with a shorter one. -/
theorem cut_of_le {text : List Char} (hle : size ≤ text.length)
    (padded : Option (Option (List Char))) :
    (if size < text.length then some (some (text.take size))
      else if text.length < size then padded else some (some text)) =
      some (some (text.take size)) := by
  rcases Nat.lt_or_eq_of_le hle with hlt | heq
  · rw [if_pos hlt]
  · rw [if_neg (by omega), if_neg (by omega), heq, take_length]

section

variable (h : padSize middle = some size)

include h

theorem lpad_of_le (hle : size ≤ left.toText.toList.length) (fuel : ℕ) :
    lpad fuel left middle right = some (some (left.toText.toList.take size)) := by
  simp only [lpad, h]
  exact cut_of_le hle _

theorem rpad_of_le (hle : size ≤ left.toText.toList.length) (fuel : ℕ) :
    rpad fuel left middle right = some (some (left.toText.toList.take size)) := by
  simp only [rpad, h]
  exact cut_of_le hle _

theorem lpad_of_lt (hlt : left.toText.toList.length < size) (fuel : ℕ) :
    lpad fuel left middle right =
      (lpadLoop right.toText.toList (size - left.toText.toList.length) fuel []).map
        fun pads => some (pads.take (size - left.toText.toList.length) ++ left.toText.toList) := by
  simp only [lpad, h]
  rw [if_neg (by omega), if_pos hlt]

theorem rpad_of_lt (hlt : left.toText.toList.length < size) (fuel : ℕ) :
    rpad fuel left middle right =
      (rpadLoop right.toText.toList size fuel left.toText.toList).map fun result =>
      some (result.take size) := by
  simp only [rpad, h]
  rw [if_neg (by omega), if_pos hlt]

/-- With a pad that is not empty, both give the padded text for the length as a `size_t`. -/
theorem exists_lpad (hreach : right.toText.toList ≠ [] ∨ size ≤ left.toText.toList.length) :
    ∃ fuel result, lpad fuel left middle right = some (some result) ∧
      PaddedLeft left.toText.toList right.toText.toList size result := by
  rcases Nat.lt_or_ge left.toText.toList.length size with hlt | hle
  · have hpad := hreach.resolve_right (Nat.not_le.mpr hlt)
    have hgrow : ∀ text : List Char, text.length < (right.toText.toList ++ text).length :=
      fun text => by simpa using length_pos_iff.mpr hpad
    obtain ⟨m, hm, hsize⟩ :=
      exists_growLoop hgrow (size - left.toText.toList.length) [] (Nat.le_add_right _ _)
    rw [append_left_iterate] at hm hsize
    refine ⟨size - left.toText.toList.length + 1, _, ?_, ?_, .inr ⟨hlt, m, rfl⟩⟩
    · rw [lpad_of_lt h hlt, lpadLoop, hm, Option.map_some]
    · rw [length_append, length_take]
      omega
  · refine ⟨0, _, lpad_of_le h hle 0, ?_, .inl ⟨hle, rfl⟩⟩
    rw [length_take]
    omega

theorem exists_rpad (hreach : right.toText.toList ≠ [] ∨ size ≤ left.toText.toList.length) :
    ∃ fuel result, rpad fuel left middle right = some (some result) ∧
      PaddedRight left.toText.toList right.toText.toList size result := by
  rcases Nat.lt_or_ge left.toText.toList.length size with hlt | hle
  · have hpad := hreach.resolve_right (Nat.not_le.mpr hlt)
    have hgrow : ∀ text : List Char, text.length < (text ++ right.toText.toList).length :=
      fun text => by simpa using length_pos_iff.mpr hpad
    obtain ⟨m, hm, hsize⟩ := exists_growLoop hgrow size left.toText.toList (Nat.le_add_right _ _)
    rw [append_right_iterate] at hm hsize
    refine ⟨size + 1, _, ?_, ?_, .inr ⟨hlt, m, rfl⟩⟩
    · rw [rpad_of_lt h hlt, rpadLoop, hm, Option.map_some, take_append,
        take_of_length_le (Nat.le_of_lt hlt)]
    · rw [length_append] at hsize
      rw [length_append, length_take]
      omega
  · refine ⟨0, _, rpad_of_le h hle 0, ?_, .inl ⟨hle, rfl⟩⟩
    rw [length_take]
    omega

/-- With an empty pad, a text that is too short is padded for ever. -/
theorem lpad_stuck (hlt : left.toText.toList.length < size)
    (hpad : right.toText.toList = []) (fuel : ℕ) : lpad fuel left middle right = none := by
  rw [lpad_of_lt h hlt, lpadLoop, growLoop_stuck (by rw [hpad, nil_append])
    (by rw [length_nil]; omega), Option.map_none]

theorem rpad_stuck (hlt : left.toText.toList.length < size)
    (hpad : right.toText.toList = []) (fuel : ℕ) : rpad fuel left middle right = none := by
  rw [rpad_of_lt h hlt, rpadLoop, growLoop_stuck (by rw [hpad, append_nil]) hlt,
    Option.map_none]

end

/-- What the two evaluations have in common is enough to settle both. -/
theorem pads_iff {evaluate : ℕ → Option (Option (List Char))} {Padded : ℕ → List Char → Prop}
    (h : middle.integer? = some n)
    (hstuck : ∀ size, padSize middle = some size → left.toText.toList.length < size →
      right.toText.toList = [] →
      ∀ fuel, evaluate fuel = none)
    (hexists : ∀ size, padSize middle = some size →
      right.toText.toList ≠ [] ∨ size ≤ left.toText.toList.length →
      ∃ fuel result, evaluate fuel = some (some result) ∧ Padded size result) :
    Pads evaluate n right.toText.toList Padded ↔ ReachesLength left middle right := by
  obtain ⟨size, hsize⟩ : ∃ size, padSize middle = some size :=
    ⟨_, by rw [padSize, h, Option.map_some]⟩
  constructor
  · rintro ⟨⟨fuel, hend⟩, -⟩
    refine or_iff_not_imp_left.mpr fun hpad size' hsize' => ?_
    by_contra hlong
    rw [hstuck size' hsize' (Nat.not_le.mp hlong) (not_not.mp hpad) fuel] at hend
    cases hend
  · intro hreach
    obtain ⟨fuel, result, hresult, hpadded⟩ :=
      hexists size hsize (hreach.imp_right fun hle => hle size hsize)
    refine ⟨⟨fuel, by rw [hresult]; rfl⟩, fun hn _ => ⟨fuel, result, hresult, ?_⟩⟩
    obtain rfl := Option.some.inj (hsize.symm.trans (padSize_of_nonneg h hn))
    exact hpadded

end Pad

end Idgs.Expr
