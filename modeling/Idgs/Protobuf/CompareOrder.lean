import Mathlib.Data.Fintype.EquivFin
import Idgs.Common.ThreeWay
import Idgs.Protobuf.Compare

/-!
# Message types whose comparison is an order

The differences of the integer types do not fit into the result, values that are not numbers are
unequal to themselves, and repeated messages cannot be compared. What is left are strings, booleans
and enumerations: the numbers of an enumeration are compared around the circle of the 32-bit
numbers, so they have to lie in one half of it.
-/

namespace Idgs.Protobuf

open Common (IsThreeWay IsStrictWeak)

/-! ## The condition -/

/-- Enumerations have an enumerator, and their numbers are `int32`. -/
def EnumDescriptor.Declared (e : EnumDescriptor) : Prop :=
  e.numbers ≠ [] ∧ ∀ n ∈ e.numbers, -2 ^ 31 ≤ n ∧ n < 2 ^ 31

/-- From one of the numbers, the others are less than half a circle ahead. -/
def EnumDescriptor.HalfCircle (e : EnumDescriptor) : Prop :=
  ∃ m ∈ e.numbers, ∀ n ∈ e.numbers, (n - m) % 2 ^ 32 < 2 ^ 31

/-- The enumerations of the fields are declared. -/
def ScalarType.Declared : ScalarType → Prop
  | .enum e => e.Declared
  | _ => True

/-- The types whose values are ordered by `compareUnRepeatedFieldValue`. -/
def ScalarType.OrderedValue : ScalarType → Prop
  | .string | .bool => True
  | .enum e => e.HalfCircle
  | _ => False

/-- The types whose lists are ordered by `compareRepeatedFieldValue`. -/
def ScalarType.OrderedElement : ScalarType → Prop
  | .string | .bool => True
  | .enum e => e.numbers.length ≤ 2 ^ 31
  | _ => False

namespace Descriptor

/-- All enumerations are declared. -/
def Declared : Descriptor → Prop
  | .nil => True
  | .scalar s rest | .repeated s rest => s.Declared ∧ Declared rest
  | .message d rest | .repeatedMessage d rest => Declared d ∧ Declared rest

/-- All fields have types that are ordered. -/
def Ordered : Descriptor → Prop
  | .nil => True
  | .scalar s rest => s.OrderedValue ∧ Ordered rest
  | .repeated s rest => s.OrderedElement ∧ Ordered rest
  | .message d rest => Ordered d ∧ Ordered rest
  | .repeatedMessage _ _ => False

end Descriptor

/-! ## The comparison of the fields, ascending or descending -/

/-- `(isdesc ? -1 : 1) * cmp`. -/
def direct (isdesc : Bool) (cmp : ℤ) : ℤ := if isdesc then toInt32 (-cmp) else cmp

@[simp] theorem direct_false (cmp : ℤ) : direct false cmp = cmp := rfl

@[simp] theorem direct_zero (isdesc : Bool) : direct isdesc 0 = 0 := by cases isdesc <;> rfl

/-- The first difference of two messages, in the direction of its field. -/
def compareFields : (d : Descriptor) → (fieldOrder : ℕ → Bool) → Message d → Message d → Option ℤ
  | .nil, _, _, _ => some 0
  | .scalar s rest, fieldOrder, x, y =>
    if compareScalar s x.1 y.1 = 0 then compareFields rest (fun i => fieldOrder (i + 1)) x.2 y.2
    else some (direct (fieldOrder 0) (compareScalar s x.1 y.1))
  | .repeated s rest, fieldOrder, x, y =>
    if compareElements s x.1 y.1 = 0 then compareFields rest (fun i => fieldOrder (i + 1)) x.2 y.2
    else some (direct (fieldOrder 0) (compareElements s x.1 y.1))
  | .message d rest, fieldOrder, x, y =>
    (compare d x.1 y.1).bind fun c =>
      if c = 0 then compareFields rest (fun i => fieldOrder (i + 1)) x.2 y.2
      else some (direct (fieldOrder 0) c)
  | .repeatedMessage _ rest, fieldOrder, x, y =>
    (compareMessages x.1 y.1).bind fun c =>
      if c = 0 then compareFields rest (fun i => fieldOrder (i + 1)) x.2 y.2
      else some (direct (fieldOrder 0) c)

/-- One direction for all fields is the direction of the whole. -/
theorem map_direct_compare (d : Descriptor) (isdesc : Bool) (x y : Message d) :
    (compare d x y).map (direct isdesc) = compareFields d (fun _ => isdesc) x y := by
  induction d with
  | nil => exact congrArg some (direct_zero isdesc)
  | scalar s rest ih | repeated s rest ih =>
    rw [compare, compareFields]
    split
    · exact ih x.2 y.2
    · rfl
  | message d rest _ ih =>
    rw [compare, compareFields]
    cases compare d x.1 y.1 with
    | none => rfl
    | some c =>
      rw [Option.bind_some, Option.bind_some]
      split
      · exact ih x.2 y.2
      · rfl
  | repeatedMessage d rest _ ih =>
    rw [compare, compareFields]
    cases compareMessages x.1 y.1 with
    | none => rfl
    | some c =>
      rw [Option.bind_some, Option.bind_some]
      split
      · exact ih x.2 y.2
      · rfl

theorem compare_eq_compareFields (d : Descriptor) (x y : Message d) :
    compare d x y = compareFields d (fun _ => false) x y := by
  rw [← map_direct_compare]
  exact Option.map_id'.symm

/-! ## What an order is -/

/-- The comparison gives a result for all values, and the results are those of a total order. -/
def TotalOrder {α : Type} (f : α → α → Option ℤ) : Prop :=
  ∃ c : α → α → ℤ, (∀ x y, f x y = some (c x y)) ∧ IsThreeWay c

/-- The same, with results whose opposites are `int32`. -/
def SmallOrder {α : Type} (f : α → α → Option ℤ) : Prop :=
  ∃ c : α → α → ℤ, (∀ x y, f x y = some (c x y)) ∧ IsThreeWay c ∧ ∀ x y, -2 ^ 31 < c x y ∧
    c x y < 2 ^ 31

/-- The comparison gives a result for all values, and "negative" is a strict weak order. -/
def Sorts {α : Type} (f : α → α → Option ℤ) : Prop :=
  ∃ c : α → α → ℤ, (∀ x y, f x y = some (c x y)) ∧ IsStrictWeak fun x y => c x y < 0

theorem SmallOrder.totalOrder {α : Type} {f : α → α → Option ℤ} (h : SmallOrder f) : TotalOrder f :=
  have ⟨c, hc, hway, _⟩ := h
  ⟨c, hc, hway⟩

theorem TotalOrder.sorts {α : Type} {f : α → α → Option ℤ} (h : TotalOrder f) : Sorts f :=
  have ⟨c, hc, hway⟩ := h
  ⟨c, hc, hway.isStrictWeak⟩

section Fields

variable {α β : Type} {f : α → α → Option ℤ} {g : β → β → Option ℤ} {isdesc : Bool}

/-- A field and the fields that follow it. -/
def thenFields (isdesc : Bool) (f : α → α → Option ℤ) (g : β → β → Option ℤ) (x y : α × β) :
    Option ℤ :=
  (f x.1 y.1).bind fun c => if c = 0 then g x.2 y.2 else some (direct isdesc c)

theorem toInt32_of_small {c : ℤ} (h : -2 ^ 31 < c ∧ c < 2 ^ 31) : toInt32 c = c := by
  unfold toInt32 Int.bmod
  norm_num at h ⊢
  omega

theorem small_direct {c : ℤ} (h : -2 ^ 31 < c ∧ c < 2 ^ 31) :
    direct isdesc c = (if isdesc then -c else c) := by
  unfold direct
  rw [toInt32_of_small ⟨by omega, by omega⟩]

theorem SmallOrder.thenFields (hf : SmallOrder f) (isdesc : Bool) (hg : SmallOrder g) :
    SmallOrder (thenFields isdesc f g) := by
  obtain ⟨c, hc, hway, hsmall⟩ := hf
  obtain ⟨c', hc', hway', hsmall'⟩ := hg
  have hdirect : IsThreeWay fun x y => direct isdesc (c x y) := by
    cases isdesc with
    | false => exact hway
    | true =>
      have hneg : (fun x y => direct true (c x y)) = fun x y => -c x y := by
        funext x y
        exact small_direct (hsmall x y)
      rw [hneg]
      exact hway.neg
  refine ⟨_, fun x y => ?_, hdirect.prod hway', fun x y => ?_⟩
  · have hzero : direct isdesc (c x.1 y.1) = 0 ↔ c x.1 y.1 = 0 :=
      (hdirect.zero _ _).trans (hway.zero _ _).symm
    rw [Protobuf.thenFields, hc, Option.bind_some, hc']
    by_cases h : c x.1 y.1 = 0
    · rw [if_pos h, if_pos (hzero.mpr h)]
    · rw [if_neg h, if_neg (mt hzero.mp h)]
  · split
    · exact hsmall' _ _
    · have hxy := hsmall x.1 y.1
      rw [small_direct hxy]
      split <;> omega

/-- When the fields sort, so does each of them, in its direction. -/
theorem Sorts.first {b : β} (h : Sorts (thenFields isdesc f g)) (hb : g b b = some 0) :
    Sorts fun x y => (f x y).map (direct isdesc) := by
  obtain ⟨c, hc, hsorts⟩ := h
  refine ⟨fun x y => c (x, b) (y, b), fun x y => ?_, hsorts.comap fun x => (x, b)⟩
  rw [← hc, thenFields]
  dsimp only
  cases f x y with
  | none => rfl
  | some z =>
    rw [Option.bind_some, Option.map_some, hb]
    split
    · rename_i hzero
      rw [hzero, direct_zero]
    · rfl

theorem Sorts.others {a : α} (h : Sorts (thenFields isdesc f g)) (ha : f a a = some 0) :
    Sorts g := by
  obtain ⟨c, hc, hsorts⟩ := h
  refine ⟨fun x y => c (a, x) (a, y), fun x y => ?_, hsorts.comap fun x => (a, x)⟩
  rw [← hc, thenFields, ha, Option.bind_some, if_pos rfl]

end Fields

/-! ## Single values -/

theorem small_of_ranged {c : ℤ} (h : -2 ≤ c ∧ c ≤ 2) : -2 ^ 31 < c ∧ c < 2 ^ 31 := by
  norm_num
  omega

theorem smallOrder_stringCompare :
    IsThreeWay stringCompare ∧ ∀ a b, -2 ^ 31 < stringCompare a b ∧ stringCompare a b < 2 ^ 31 := by
  refine ⟨IsThreeWay.of_linearOrder stringCompare_right, fun a b => small_of_ranged ?_⟩
  unfold stringCompare
  split
  · decide
  · split <;> decide

theorem smallOrder_bool : IsThreeWay (fun a b : Bool => (Bool.toInt a : ℤ) - Bool.toInt b) ∧
    ∀ a b : Bool, -2 ^ 31 < (Bool.toInt a : ℤ) - Bool.toInt b ∧ (Bool.toInt a : ℤ) - Bool.toInt b <
      2 ^ 31 :=
  ⟨IsThreeWay.of_linearOrder bool_right, fun a b =>
    small_of_ranged (by cases a <;> cases b <;> decide)⟩

/-- Differences of keys in half a circle fit. -/
theorem smallOrder_key {α : Type} {f k : α → ℤ} (hk : Function.Injective k)
    (hbound : ∀ x, 0 ≤ k x ∧ k x < 2 ^ 31)
    (hf : ∀ x y, (f x - f y) % 2 ^ 32 = (k x - k y) % 2 ^ 32) :
    IsThreeWay (fun x y => toInt32 (f x - f y)) ∧
      ∀ x y, -2 ^ 31 < toInt32 (f x - f y) ∧ toInt32 (f x - f y) < 2 ^ 31 := by
  have hdiff : ∀ x y, toInt32 (f x - f y) = k x - k y := by
    intro x y
    have hx := hbound x
    have hy := hbound y
    rw [← toInt32_of_small (c := k x - k y) ⟨by omega, by omega⟩]
    unfold toInt32 Int.bmod
    have h := hf x y
    norm_num at h ⊢
    rw [h]
  refine ⟨IsThreeWay.of_key hk fun x y => by rw [hdiff], fun x y => ?_⟩
  have hx := hbound x
  have hy := hbound y
  rw [hdiff]
  omega

/-- The numbers of an enumeration, counted from the first one of its half circle. -/
theorem smallOrder_enum {e : EnumDescriptor} (hdeclared : e.Declared) (h : e.HalfCircle) :
    IsThreeWay (fun a b => toInt32 (e.number a - e.number b)) ∧
      ∀ a b, -2 ^ 31 < toInt32 (e.number a - e.number b) ∧ toInt32
      (e.number a - e.number b) < 2 ^ 31 := by
  obtain ⟨m, -, hm⟩ := h
  have hmem : ∀ i, e.number i ∈ e.numbers := fun i => List.get_mem _ _
  refine smallOrder_key (k := fun i => (e.number i - m) % 2 ^ 32) ?_ ?_ ?_
  · intro i j hij
    have hi := hdeclared.2 _ (hmem i)
    have hj := hdeclared.2 _ (hmem j)
    refine e.number_injective ?_
    norm_num at hij hi hj
    omega
  · intro i
    exact ⟨Int.emod_nonneg _ (by norm_num), hm _ (hmem i)⟩
  · intro i j
    norm_num

/-- The positions of an enumeration. -/
theorem smallOrder_position {n : ℕ} (h : n ≤ 2 ^ 31) :
    IsThreeWay (fun a b : Fin n => toInt32 ((Fin.val a : ℤ) - Fin.val b)) ∧
      ∀ a b : Fin n, -2 ^ 31 < toInt32 ((Fin.val a : ℤ) - Fin.val b) ∧
        toInt32 ((Fin.val a : ℤ) - Fin.val b) < 2 ^ 31 := by
  refine smallOrder_key (f := fun a : Fin n => (a.val : ℤ)) (k := fun a : Fin n =>
    (a.val : ℤ)) ?_ ?_ fun _ _ => rfl
  · intro a b hab
    exact Fin.ext (Int.ofNat_inj.mp hab)
  · intro a
    have ha := a.isLt
    norm_num at h ⊢
    omega

theorem smallOrder_scalar {s : ScalarType} (hdeclared : s.Declared) (h : s.OrderedValue) :
    SmallOrder fun x y => some (compareScalar s x y) := by
  refine ⟨compareScalar s, fun _ _ => rfl, ?_⟩
  cases s with
  | string => exact smallOrder_stringCompare
  | bool => exact smallOrder_bool
  | enum e => exact smallOrder_enum hdeclared h
  | _ => exact h.elim

theorem compareElements_eq (s : ScalarType) (xs ys : List s.Element) :
    compareElements s xs ys = Common.compareLists (compareElement s) xs ys := by
  induction xs generalizing ys with
  | nil => cases ys <;> rfl
  | cons x xs ih =>
    cases ys with
    | nil => rfl
    | cons y ys => rw [compareElements, Common.compareLists, ih]

theorem smallOrder_elements {s : ScalarType} (h : s.OrderedElement) :
    SmallOrder fun x y => some (compareElements s x y) := by
  have helement : IsThreeWay (compareElement s) ∧
      ∀ a b, -2 ^ 31 < compareElement s a b ∧ compareElement s a b < 2 ^ 31 := by
    cases s with
    | string => exact smallOrder_stringCompare
    | bool => exact smallOrder_bool
    | enum e => exact smallOrder_position h
    | _ => exact h.elim
  refine ⟨compareElements s, fun _ _ => rfl, ?_, fun xs ys => ?_⟩
  · have hlists : compareElements s = Common.compareLists (compareElement s) := by
      funext xs ys
      exact compareElements_eq s xs ys
    rw [hlists]
    exact helement.1.list
  · induction xs generalizing ys with
    | nil => cases ys <;> exact small_of_ranged (by simp [compareElements])
    | cons x xs ih =>
      cases ys with
      | nil => exact small_of_ranged (by simp [compareElements])
      | cons y ys =>
        rw [compareElements]
        split
        · exact ih ys
        · exact helement.2 x y

/-! ## Fields that are not ordered -/

/-- Two values half a circle apart are both smaller than the other, in either direction. -/
theorem not_isStrictWeak_of_opposite {α : Type} {c : α → α → ℤ} {isdesc : Bool} {x y : α}
    (hxy : c x y = -2 ^ 31)
    (hyx : c y x = -2 ^ 31) : ¬IsStrictWeak fun x y => direct isdesc (c x y) < 0 := by
  intro h
  have hneg : direct isdesc (-2 ^ 31) < 0 := by cases isdesc <;> decide
  exact h.asymm x y (by rw [hxy]; exact hneg) (by rw [hyx]; exact hneg)

/-- The integers of a machine type reach half around the circle. -/
theorem not_isStrictWeak_ranged {lo hi : ℤ} {isdesc : Bool} (x : ℤ) (hlo : lo ≤ x)
    (hhi : x + 2 ^ 31 ≤ hi) :
    ¬IsStrictWeak fun a b : Ranged lo hi => direct isdesc (toInt32 (a.val - b.val)) < 0 := by
  norm_num at hhi
  refine not_isStrictWeak_of_opposite (c := fun a b : Ranged lo hi => toInt32 (a.val - b.val))
    (x := ⟨x, hlo, by omega⟩) (y := ⟨x + 2 ^ 31, by norm_num; omega, by norm_num; omega⟩) ?_ ?_
  · have hdiff : x - (x + 2 ^ 31) = -2 ^ 31 := by omega
    dsimp only
    rw [hdiff]
    decide
  · have hdiff : x + 2 ^ 31 - x = 2 ^ 31 := by omega
    dsimp only
    rw [hdiff]
    decide

theorem exists_floating_lt : ∃ x y : Floating, x ≠ ⊥ ∧ y ≠ ⊥ ∧ x < y :=
  ⟨WithBot.some 0, WithBot.some 1, WithBot.coe_ne_bot, WithBot.coe_ne_bot,
    WithBot.coe_lt_coe.mpr (by decide)⟩

/-- A value that is not a number is smaller than itself, or not comparable to different values. -/
theorem not_isStrictWeak_floating {isdesc : Bool} :
    ¬IsStrictWeak fun a b : Floating =>
      direct isdesc (if Floating.eq a b then 0 else if Floating.gt a b then 2 else -2) < 0 := by
  intro h
  obtain ⟨x, y, hx, hy, hlt⟩ := exists_floating_lt
  have hleft : ∀ a : Floating,
      (if Floating.eq ⊥ a then (0 : ℤ) else if Floating.gt ⊥ a then 2 else -2) = -2 := by
    simp [Floating.eq, Floating.gt]
  have hright : ∀ a : Floating,
      (if Floating.eq a ⊥ then (0 : ℤ) else if Floating.gt a ⊥ then 2 else -2) = -2 := by
    simp [Floating.eq, Floating.gt]
  cases isdesc with
  | false => exact h.irrefl ⊥ (by rw [hleft]; decide)
  | true =>
    have hdesc : ¬direct true (-2) < 0 := by decide
    have hapart := h.incomparable x ⊥ y (by rw [hright]; exact hdesc) (by rw [hleft]; exact hdesc)
      (by rw [hleft]; exact hdesc) (by rw [hright]; exact hdesc)
    have hyx := (floating_right hy hx).1
    refine hapart.2 ?_
    have hgt : (if Floating.eq y x then (0 : ℤ) else if Floating.gt y x then 2 else -2) = 2 := by
      simp [Floating.eq, Floating.gt, hx, hy, hlt, hlt.ne']
    rw [hgt]
    decide

/-- In a list, such a value is equal to all others. -/
theorem not_isStrictWeak_floating_element {isdesc : Bool} :
    ¬IsStrictWeak fun a b : Floating =>
      direct isdesc (if Floating.gt b a then (-1 : ℤ) else if Floating.gt a b then 1 else 0) <
        0 := by
  intro h
  obtain ⟨x, y, hx, hy, hlt⟩ := exists_floating_lt
  have hleft : ∀ a : Floating,
      (if Floating.gt a ⊥ then (-1 : ℤ) else if Floating.gt ⊥ a then 1 else 0) = 0 := by
    simp [Floating.gt]
  have hright : ∀ a : Floating,
      (if Floating.gt ⊥ a then (-1 : ℤ) else if Floating.gt a ⊥ then 1 else 0) = 0 := by
    simp [Floating.gt]
  have hzero : ¬direct isdesc 0 < 0 := by simp
  obtain ⟨hxy, hyx⟩ :=
    h.incomparable x ⊥ y (by rw [hright]; exact hzero) (by rw [hleft]; exact hzero)
    (by rw [hleft]; exact hzero) (by rw [hright]; exact hzero)
  cases isdesc with
  | false => exact hxy (by simp [Floating.gt, hx, hy, hlt])
  | true =>
    refine hyx ?_
    have hgt : (if Floating.gt x y then (-1 : ℤ) else if Floating.gt y x then 1 else 0) = 1 := by
      simp [Floating.gt, hx, hy, hlt, hlt.not_gt]
    rw [hgt]
    decide

/-- The numbers of an enumeration that sorts start at one that no other one is smaller than. -/
theorem halfCircle_of_sorts {e : EnumDescriptor} (hdeclared : e.Declared) {isdesc : Bool}
    (h : IsStrictWeak fun a b => direct isdesc (toInt32 (e.number a - e.number b)) < 0) :
    e.HalfCircle := by
  have hascending : IsStrictWeak fun a b => toInt32 (e.number a - e.number b) < 0 := by
    cases isdesc with
    | false => exact h
    | true =>
      have hflip : (fun a b => toInt32 (e.number a - e.number b) < 0) =
          fun a b => direct true (toInt32 (e.number b - e.number a)) < 0 := by
        funext a b
        refine propext (iff_of_eq ?_)
        congr 1
        unfold direct toInt32 Int.bmod
        norm_num
        split <;> split <;> omega
      rw [hflip]
      exact h.flip
  have : Nonempty (Fin e.numbers.length) := ⟨⟨0, List.length_pos_iff.mpr hdeclared.1⟩⟩
  obtain ⟨m, hm⟩ := hascending.exists_least
  refine ⟨e.number m, List.get_mem _ _, fun n hn => ?_⟩
  obtain ⟨i, rfl⟩ := List.get_of_mem hn
  have hle := hm i
  unfold toInt32 Int.bmod EnumDescriptor.number at hle
  norm_num at hle ⊢
  unfold EnumDescriptor.number
  split at hle <;> omega

theorem length_le_of_sorts {n : ℕ} {isdesc : Bool} (h : IsStrictWeak fun a b : Fin n =>
      direct isdesc (toInt32 ((Fin.val a : ℤ) - Fin.val b)) < 0) : n ≤ 2 ^ 31 := by
  by_contra hlt
  rw [not_le] at hlt
  exact not_isStrictWeak_of_opposite (c := fun a b : Fin n => toInt32 ((Fin.val a : ℤ) - Fin.val b))
    (x := ⟨0, Nat.zero_lt_of_lt hlt⟩) (y := ⟨2 ^ 31, hlt⟩) (by norm_num; decide)
    (by norm_num; decide) h

/-- A singular field that sorts is of an ordered type. -/
theorem orderedValue_of_sorts {s : ScalarType} (hdeclared : s.Declared) (isdesc : Bool)
    (h : IsStrictWeak fun x y => direct isdesc (compareScalar s x y) < 0) : s.OrderedValue := by
  cases s with
  | uint64 | int64 | uint32 => exact not_isStrictWeak_ranged 0 (by norm_num) (by norm_num) h
  | int32 => exact not_isStrictWeak_ranged (-2 ^ 31) (by norm_num) (by norm_num) h
  | double | float => exact not_isStrictWeak_floating h
  | string | bool => trivial
  | enum e => exact halfCircle_of_sorts hdeclared h

/-- A repeated field that sorts has elements of an ordered type. -/
theorem orderedElement_of_sorts {s : ScalarType} (isdesc : Bool)
    (h : IsStrictWeak fun x y => direct isdesc (compareElements s x y) < 0) : s.OrderedElement := by
  -- lists of one element are compared as the elements are
  have hone : ∀ a b, compareElements s [a] [b] = compareElement s a b := by
    intro a b
    rw [compareElements]
    split
    · rename_i hzero
      exact hzero.symm
    · rfl
  have helement : IsStrictWeak fun a b => direct isdesc (compareElement s a b) < 0 := by
    have hcomap := h.comap fun a : s.Element => [a]
    simp only [hone] at hcomap
    exact hcomap
  cases s with
  | uint64 | int64 | uint32 => exact not_isStrictWeak_ranged 0 (by norm_num) (by norm_num) helement
  | int32 => exact not_isStrictWeak_ranged (-2 ^ 31) (by norm_num) (by norm_num) helement
  | double | float => exact not_isStrictWeak_floating_element helement
  | string | bool => trivial
  | enum e => exact length_le_of_sorts helement

/-! ## Messages -/

/-- A type with declared enumerations has a value that is equal to itself. -/
theorem exists_compareScalar_self {s : ScalarType} (h : s.Declared) :
    ∃ v, compareScalar s v v = 0 := by
  have hself : ∀ {lo hi : ℤ} (v : Ranged lo hi), toInt32 (v.val - v.val) = 0 := by
    intro lo hi v
    rw [Int.sub_self]
    rfl
  cases s with
  | uint64 | int64 | uint32 | int32 => exact ⟨⟨0, by norm_num⟩, hself _⟩
  | string => exact ⟨[], ((stringCompare_right [] []).2).mpr rfl⟩
  | double | float =>
    obtain ⟨x, -, hx, -, -⟩ := exists_floating_lt
    exact ⟨x, ((floating_right hx hx).2).mpr rfl⟩
  | bool => exact ⟨false, rfl⟩
  | enum e =>
    let first : Fin e.numbers.length := ⟨0, List.length_pos_iff.mpr h.1⟩
    have hzero : toInt32 (e.number first - e.number first) = 0 := by
      rw [Int.sub_self]
      rfl
    exact ⟨first, hzero⟩

theorem thenFields_self {α β : Type} {f : α → α → Option ℤ} {g : β → β → Option ℤ} (isdesc : Bool)
    {a : α} {b : β}
    (ha : f a a = some 0) (hb : g b b = some 0) : thenFields isdesc f g (a, b) (a, b) = some 0 := by
  rw [thenFields, ha, Option.bind_some, if_pos rfl, hb]

/-- The message of defaults is equal to itself. -/
theorem exists_compareFields_self {d : Descriptor} (h : d.Declared) :
    ∃ x, ∀ fieldOrder, compareFields d fieldOrder x x = some 0 := by
  induction d with
  | nil => exact ⟨(), fun _ => rfl⟩
  | scalar s rest ih =>
    obtain ⟨v, hv⟩ := exists_compareScalar_self h.1
    obtain ⟨x, hx⟩ := ih h.2
    exact ⟨(v, x), fun fieldOrder =>
      thenFields_self (fieldOrder 0) (f := fun x y => some (compareScalar s x y))
      (congrArg some hv) (hx _)⟩
  | repeated s rest ih =>
    obtain ⟨x, hx⟩ := ih h.2
    exact ⟨([], x), fun fieldOrder =>
      thenFields_self (fieldOrder 0) (f := fun x y => some (compareElements s x y))
      (a := ([] : List s.Element)) rfl (hx _)⟩
  | message d rest ihd ih =>
    obtain ⟨v, hv⟩ := ihd h.1
    obtain ⟨x, hx⟩ := ih h.2
    exact ⟨(v, x), fun fieldOrder => thenFields_self (fieldOrder 0) (f := compare d)
      ((compare_eq_compareFields d v v).trans (hv _)) (hx _)⟩
  | repeatedMessage d rest _ ih =>
    obtain ⟨x, hx⟩ := ih h.2
    exact ⟨([], x), fun fieldOrder =>
      thenFields_self (fieldOrder 0) (f := compareMessages) (a := ([] : List (Message d))) rfl
        (hx _)⟩

theorem compare_eq (d : Descriptor) : compare d = compareFields d fun _ => false := by
  funext x y
  exact compare_eq_compareFields d x y

/-- Ordered fields give an order of the messages, whatever their directions. -/
theorem smallOrder_compareFields {d : Descriptor} (hdeclared : d.Declared) (h : d.Ordered)
    (fieldOrder : ℕ → Bool) :
    SmallOrder (compareFields d fieldOrder) := by
  induction d generalizing fieldOrder with
  | nil =>
    have hunit : IsThreeWay fun _ _ : Message .nil => (0 : ℤ) :=
      ⟨fun _ _ => rfl, fun _ _ _ _ _ => le_refl 0, fun _ _ => iff_of_true rfl rfl⟩
    exact ⟨fun _ _ => 0, fun _ _ => rfl, hunit, fun _ _ => by norm_num⟩
  | scalar s rest ih =>
    exact (smallOrder_scalar hdeclared.1 h.1).thenFields (fieldOrder 0) (ih hdeclared.2 h.2 _)
  | repeated s rest ih =>
    exact (smallOrder_elements h.1).thenFields (fieldOrder 0) (ih hdeclared.2 h.2 _)
  | message d rest ihd ih =>
    have hfield : SmallOrder (compare d) := compare_eq d ▸ ihd hdeclared.1 h.1 fun _ => false
    exact hfield.thenFields (fieldOrder 0) (ih hdeclared.2 h.2 _)
  | repeatedMessage d rest _ _ => exact h.elim

/-- Messages that sort, in whatever directions, have ordered fields. -/
theorem ordered_of_sorts {d : Descriptor} (hdeclared : d.Declared) {fieldOrder : ℕ → Bool}
    (h : Sorts (compareFields d fieldOrder)) : d.Ordered := by
  induction d generalizing fieldOrder with
  | nil => trivial
  | scalar s rest ih =>
    obtain ⟨v, hv⟩ := exists_compareScalar_self hdeclared.1
    obtain ⟨x, hx⟩ := exists_compareFields_self hdeclared.2
    obtain ⟨c, hc, hsorts⟩ := Sorts.first (f := fun x y => some (compareScalar s x y)) h (hx _)
    have hothers : Sorts (compareFields rest _) :=
      Sorts.others (f := fun x y => some (compareScalar s x y)) h (congrArg some hv)
    refine ⟨orderedValue_of_sorts hdeclared.1 (fieldOrder 0) ?_, ih hdeclared.2 hothers⟩
    have hvalue : ∀ x y, c x y = direct (fieldOrder 0) (compareScalar s x y) :=
      fun x y => (Option.some.inj (hc x y)).symm
    simp only [← hvalue]
    exact hsorts
  | repeated s rest ih =>
    obtain ⟨x, hx⟩ := exists_compareFields_self hdeclared.2
    obtain ⟨c, hc, hsorts⟩ := Sorts.first (f := fun x y => some (compareElements s x y)) h (hx _)
    have hothers : Sorts (compareFields rest _) :=
      Sorts.others (f := fun x y => some (compareElements s x y)) (a := []) h rfl
    refine ⟨orderedElement_of_sorts (fieldOrder 0) ?_, ih hdeclared.2 hothers⟩
    have hvalue : ∀ x y, c x y = direct (fieldOrder 0) (compareElements s x y) :=
      fun x y => (Option.some.inj (hc x y)).symm
    simp only [← hvalue]
    exact hsorts
  | message d rest ihd ih =>
    obtain ⟨v, hv⟩ := exists_compareFields_self hdeclared.1
    obtain ⟨x, hx⟩ := exists_compareFields_self hdeclared.2
    have hfield := Sorts.first (f := compare d) h (hx _)
    simp only [map_direct_compare] at hfield
    have hothers : Sorts (compareFields rest _) :=
      Sorts.others (f := compare d) h ((compare_eq_compareFields d v v).trans (hv _))
    exact ⟨ihd hdeclared.1 hfield, ih hdeclared.2 hothers⟩
  | repeatedMessage d rest _ _ =>
    -- a list with an element is not compared with itself
    obtain ⟨v, -⟩ := exists_compareFields_self hdeclared.1
    obtain ⟨x, -⟩ := exists_compareFields_self hdeclared.2
    obtain ⟨c, hc, -⟩ := h
    exact absurd (hc ([v], x) ([v], x)) (Option.some_ne_none _).symm

/-- The comparison of messages is a total order if and only if all their fields are of ordered
types. -/
theorem compare_totalOrder_iff {d : Descriptor} (hdeclared : d.Declared) :
    TotalOrder (compare d) ↔ d.Ordered := by
  rw [compare_eq d]
  exact ⟨fun h => ordered_of_sorts hdeclared h.sorts,
    fun h => (smallOrder_compareFields hdeclared h _).totalOrder⟩

/-- An enumeration of three numbers. -/
def threeNumbers : EnumDescriptor where
  numbers := [0, 1, 5]
  nodup := by decide

theorem threeNumbers_declared : threeNumbers.Declared :=
  ⟨List.cons_ne_nil _ _, by decide⟩

/-- A string and an enumeration. -/
theorem compare_totalOrder_iff_enum :
    TotalOrder (compare (.scalar .string (.scalar (.enum threeNumbers) .nil))) ↔
      Descriptor.Ordered (.scalar .string (.scalar (.enum threeNumbers) .nil)) :=
  compare_totalOrder_iff ⟨trivial, threeNumbers_declared, trivial⟩

/-- The smallest `int32` is smaller than zero, and zero is smaller than it. -/
theorem not_compare_totalOrder : ¬∀ d : Descriptor, d.Declared → TotalOrder (compare d) := by
  intro hall
  obtain ⟨c, hc, hway⟩ := hall (.scalar .int32 .nil) ⟨trivial, trivial⟩
  let lowest : Message (.scalar .int32 .nil) :=
    ((⟨-2 ^ 31, by norm_num⟩ : Ranged (-2 ^ 31) (2 ^ 31 - 1)), ())
  let zero : Message (.scalar .int32 .nil) :=
    ((⟨0, by norm_num⟩ : Ranged (-2 ^ 31) (2 ^ 31 - 1)), ())
  have hleft : c lowest zero = -2 ^ 31 := Option.some.inj ((hc lowest zero).symm.trans (by decide))
  have hright : c zero lowest = -2 ^ 31 := Option.some.inj ((hc zero lowest).symm.trans (by decide))
  have hswap := hway.swap lowest zero
  rw [hleft, hright] at hswap
  exact absurd hswap (by decide)

end Idgs.Protobuf
