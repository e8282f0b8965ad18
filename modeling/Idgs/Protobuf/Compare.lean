import Idgs.Protobuf.Message

/-!
# Comparing messages

`protobuf::compare` goes through the fields of two messages until it finds a difference. Numbers are
subtracted, and the difference is returned as an `int32_t`. The sign of the result is what the order
of the fields says, unless a difference does not survive this, a value is not a number, or repeated
messages are compared, which ends the process.
-/

namespace Idgs.Protobuf

/-- The conversion to `int32_t`. -/
def toInt32 (x : ℤ) : ℤ := x.bmod (2 ^ 32)

/-- `std::string::compare`, up to its sign. -/
def stringCompare (a b : List (Fin 256)) : ℤ := if a < b then -1 else if a = b then 0 else 1

/-- The comparisons of floating point values; none holds of what is not a number. -/
def Floating.eq (a b : Floating) : Bool := a ≠ ⊥ && b ≠ ⊥ && a = b

/-- `>`. -/
def Floating.gt (a b : Floating) : Bool := a ≠ ⊥ && b ≠ ⊥ && b < a

/-- `protobuf::compareUnRepeatedFieldValue` on values. -/
def compareScalar : (s : ScalarType) → s.Value → s.Value → ℤ
  | .uint64, a, b => toInt32 (a.val - b.val)
  | .int64, a, b => toInt32 (a.val - b.val)
  | .uint32, a, b => toInt32 (a.val - b.val)
  | .int32, a, b => toInt32 (a.val - b.val)
  | .string, a, b => stringCompare a b
  | .double, a, b => if Floating.eq a b then 0 else if Floating.gt a b then 2 else -2
  | .float, a, b => if Floating.eq a b then 0 else if Floating.gt a b then 2 else -2
  | .bool, a, b => (Bool.toInt a : ℤ) - Bool.toInt b
  | .enum e, a, b => toInt32 (e.number a - e.number b)

/-- One round of `protobuf::compareRepeatedFieldValue` on values. Enumerators are compared by the
addresses of their descriptors, which lie one after the other. -/
def compareElement : (s : ScalarType) → s.Element → s.Element → ℤ
  | .uint64, a, b => toInt32 (a.val - b.val)
  | .int64, a, b => toInt32 (a.val - b.val)
  | .uint32, a, b => toInt32 (a.val - b.val)
  | .int32, a, b => toInt32 (a.val - b.val)
  | .string, a, b => stringCompare a b
  | .double, a, b => if Floating.gt b a then -1 else if Floating.gt a b then 1 else 0
  | .float, a, b => if Floating.gt b a then -1 else if Floating.gt a b then 1 else 0
  | .bool, a, b => (Bool.toInt a : ℤ) - Bool.toInt b
  | .enum _, a, b => toInt32 ((Fin.val a : ℤ) - Fin.val b)

/-- `protobuf::compareRepeatedFieldValue`: the elements in turn, then the sizes. -/
def compareElements (s : ScalarType) : List s.Element → List s.Element → ℤ
  | [], [] => 0
  | [], _ :: _ => -1
  | _ :: _, [] => 1
  | a :: as, b :: bs =>
    if compareElement s a b = 0 then compareElements s as bs else compareElement s a b

/-- The same for a repeated message field: `GetMessage` of a repeated field ends the process. -/
def compareMessages {α : Type} : List α → List α → Option ℤ
  | [], [] => some 0
  | [], _ :: _ => some (-1)
  | _ :: _, [] => some 1
  | _ :: _, _ :: _ => none

/-- `protobuf::compare` on messages of one descriptor; `none` when the process ends. -/
def compare : (d : Descriptor) → Message d → Message d → Option ℤ
  | .nil, _, _ => some 0
  | .scalar s rest, x, y =>
    if compareScalar s x.1 y.1 = 0 then compare rest x.2 y.2 else some (compareScalar s x.1 y.1)
  | .repeated s rest, x, y =>
    if compareElements s x.1 y.1 = 0 then compare rest x.2 y.2
    else some (compareElements s x.1 y.1)
  | .message d rest, x, y =>
    (compare d x.1 y.1).bind fun c => if c = 0 then compare rest x.2 y.2 else some c
  | .repeatedMessage _ rest, x, y =>
    (compareMessages x.1 y.1).bind fun c => if c = 0 then compare rest x.2 y.2 else some c

/-! ## When the result is right -/

/-- The difference has the sign that its low 32 bits have. -/
def Representable (x : ℤ) : Prop := (toInt32 x).sign = x.sign

/-- Two values whose comparison is right: a difference of numbers must be representable. -/
def FaithfulScalar : (s : ScalarType) → s.Value → s.Value → Prop
  | .uint64, a, b => Representable (a.val - b.val)
  | .int64, a, b => Representable (a.val - b.val)
  | .uint32, a, b => Representable (a.val - b.val)
  | .int32, a, b => Representable (a.val - b.val)
  | .string, _, _ => True
  | .double, a, b => a ≠ (⊥ : Floating) ∧ b ≠ (⊥ : Floating)
  | .float, a, b => a ≠ (⊥ : Floating) ∧ b ≠ (⊥ : Floating)
  | .bool, _, _ => True
  | .enum e, a, b => Representable (e.number a - e.number b)

/-- The same for elements. -/
def FaithfulElement : (s : ScalarType) → s.Element → s.Element → Prop
  | .uint64, a, b => Representable (a.val - b.val)
  | .int64, a, b => Representable (a.val - b.val)
  | .uint32, a, b => Representable (a.val - b.val)
  | .int32, a, b => Representable (a.val - b.val)
  | .string, _, _ => True
  | .double, a, b => a ≠ (⊥ : Floating) ∧ b ≠ (⊥ : Floating)
  | .float, a, b => a ≠ (⊥ : Floating) ∧ b ≠ (⊥ : Floating)
  | .bool, _, _ => True
  | .enum _, a, b => Representable ((Fin.val a : ℤ) - Fin.val b)

/-- Elements are looked at up to the first difference. -/
def FaithfulElements (s : ScalarType) : List s.Element → List s.Element → Prop
  | a :: as, b :: bs => FaithfulElement s a b ∧ (a = b → FaithfulElements s as bs)
  | _, _ => True

/-- Two messages whose comparison is right: up to the first field in which they differ, values are
faithful and no repeated message field has elements in both. -/
def Faithful : (d : Descriptor) → Message d → Message d → Prop
  | .nil, _, _ => True
  | .scalar s rest, x, y => FaithfulScalar s x.1 y.1 ∧ (x.1 = y.1 → Faithful rest x.2 y.2)
  | .repeated s rest, x, y => FaithfulElements s x.1 y.1 ∧ (x.1 = y.1 → Faithful rest x.2 y.2)
  | .message d rest, x, y => Faithful d x.1 y.1 ∧ (x.1 = y.1 → Faithful rest x.2 y.2)
  | .repeatedMessage _ rest, x, y => (x.1 = [] ∨ y.1 = []) ∧ (x.1 = y.1 → Faithful rest x.2 y.2)

/-- The sign of a comparison is right. -/
def Right {α : Type} [LinearOrder α] (c : ℤ) (x y : α) : Prop := (c < 0 ↔ x < y) ∧ (c = 0 ↔ x = y)

theorem right_of_sign {α : Type} [LinearOrder α] {f : α → ℤ} (hf : ∀ x y, x < y → f x < f y) {c : ℤ}
    {x y : α} (h : c.sign = (f x - f y).sign) : Right c x y := by
  have hmono : StrictMono f := fun x y hlt => hf x y hlt
  have hneg : c < 0 ↔ f x - f y < 0 := by
    rw [← Int.sign_eq_neg_one_iff_neg, h, Int.sign_eq_neg_one_iff_neg]
  have hzero : c = 0 ↔ f x - f y = 0 := by
    rw [← Int.sign_eq_zero_iff_zero, h, Int.sign_eq_zero_iff_zero]
  refine ⟨hneg.trans ?_, hzero.trans ?_⟩
  · rw [← hmono.lt_iff_lt]
    omega
  · rw [← hmono.injective.eq_iff]
    omega

theorem stringCompare_right (a b : List (Fin 256)) : Right (stringCompare a b) a b := by
  unfold stringCompare Right
  split
  · rename_i hlt
    simp [hlt, hlt.ne]
  · rename_i hnot
    split
    · rename_i heq
      simp [heq]
    · rename_i hne
      simp [hnot, hne]

theorem bool_right (a b : Bool) : Right ((Bool.toInt a : ℤ) - Bool.toInt b) a b := by
  cases a <;> cases b <;> simp [Right]

theorem floating_right {a b : Floating} (ha : a ≠ ⊥) (hb : b ≠ ⊥) :
    Right (if Floating.eq a b then 0 else if Floating.gt a b then 2 else -2) a b := by
  unfold Right Floating.eq Floating.gt
  rcases lt_trichotomy a b with hlt | heq | hgt
  · simp [ha, hb, hlt, hlt.ne, hlt.not_gt]
  · simp [heq, hb]
  · simp [ha, hb, hgt, hgt.ne', hgt.not_gt]

theorem floating_element_right {a b : Floating} (ha : a ≠ ⊥) (hb : b ≠ ⊥) :
    Right (if Floating.gt b a then (-1 : ℤ) else if Floating.gt a b then 1 else 0) a b := by
  unfold Right Floating.gt
  rcases lt_trichotomy a b with hlt | heq | hgt
  · simp [ha, hb, hlt, hlt.ne]
  · simp [heq]
  · simp [ha, hb, hgt, hgt.ne', hgt.not_gt]

theorem ranged_right {lo hi : ℤ} {a b : Ranged lo hi} (h : Representable (a.val - b.val)) :
    Right (toInt32 (a.val - b.val)) a b :=
  right_of_sign (f := Subtype.val) (fun _ _ hlt => hlt) h

theorem compareScalar_right {s : ScalarType} {a b : s.Value} (h : FaithfulScalar s a b) :
    Right (compareScalar s a b) a b := by
  cases s with
  | string => exact stringCompare_right a b
  | double | float => exact floating_right h.1 h.2
  | bool => exact bool_right a b
  | enum e =>
    exact right_of_sign (α := (ScalarType.enum e).Value) (f := e.number) (fun _ _ hlt => hlt) h
  | _ => exact ranged_right h

theorem compareElement_right {s : ScalarType} {a b : s.Element} (h : FaithfulElement s a b) :
    Right (compareElement s a b) a b := by
  cases s with
  | string => exact stringCompare_right a b
  | double | float => exact floating_element_right h.1 h.2
  | bool => exact bool_right a b
  | enum e =>
    exact right_of_sign (α := Fin e.numbers.length) (f := fun i => (i.val : ℤ))
      (fun _ _ hlt => Int.ofNat_lt.mpr hlt) h
  | _ => exact ranged_right h

theorem compareElements_right {s : ScalarType} {as bs : List s.Element}
    (h : FaithfulElements s as bs) :
    Right (compareElements s as bs) as bs := by
  induction as generalizing bs with
  | nil =>
    cases bs with
    | nil | cons _ _ => simp [Right, compareElements]
  | cons a as ih =>
    cases bs with
    | nil => simp [Right, compareElements]
    | cons b bs =>
      obtain ⟨hhead, htail⟩ := h
      obtain ⟨hlt, heq⟩ := compareElement_right hhead
      rw [Right, compareElements, List.cons_lt_cons_iff, List.cons.injEq]
      split
      · rename_i hzero
        have hab : a = b := heq.mp hzero
        have hrest := ih (htail hab)
        rw [Right] at hrest
        rw [hrest.1, hrest.2]
        simp [hab]
      · rename_i hne
        have hab : a ≠ b := fun hab => hne (heq.mpr hab)
        rw [hlt]
        simp [hab, hne]

theorem compareMessages_right {α : Type} [LinearOrder α] {as bs : List α} (h : as = [] ∨ bs = []) :
    ∃ c, compareMessages as bs = some c ∧ Right c as bs := by
  cases as with
  | nil =>
    cases bs with
    | nil => exact ⟨0, rfl, by simp [Right]⟩
    | cons b bs => exact ⟨-1, rfl, by simp [Right]⟩
  | cons a as =>
    cases bs with
    | nil => exact ⟨1, rfl, by simp [Right]⟩
    | cons b bs => exact absurd h (by simp)

/-- The first field decides, or the others do. -/
theorem Right.then {α β : Type} [LinearOrder α] [LinearOrder β] {a b : α} {x y : β} {c : ℤ}
    {rest : Option ℤ} (h : Right c a b) (hrest : a = b → ∃ c', rest = some c' ∧ Right c' x y) :
    ∃ c', (if c = 0 then rest else some c) = some c' ∧ (c' < 0 ↔ a < b ∨ a = b ∧ x < y) ∧
      (c' = 0 ↔ (a, x) = (b, y)) := by
  by_cases hab : a = b
  · obtain ⟨c', hc', hlt, heq⟩ := hrest hab
    refine ⟨c', by rw [if_pos (h.2.mpr hab), hc'], ?_, ?_⟩
    · rw [hlt]
      simp [hab]
    · rw [heq]
      simp [hab]
  · have hne : c ≠ 0 := fun hc => hab (h.2.mp hc)
    refine ⟨c, if_neg hne, ?_, ?_⟩
    · rw [h.1]
      simp [hab]
    · simp [hne, hab]

/-- On faithful messages the comparison gives a result, whose sign is what the order says. -/
theorem compare_right {d : Descriptor} {x y : Message d} (h : Faithful d x y) :
    ∃ c, compare d x y = some c ∧ Right c x y := by
  induction d with
  | nil => exact ⟨0, rfl, iff_of_false (lt_irrefl 0) (lt_irrefl x), iff_of_true rfl rfl⟩
  | scalar s rest ih =>
    obtain ⟨hfield, hothers⟩ := h
    obtain ⟨c, hc, hlt, heq⟩ := (compareScalar_right hfield).then fun hxy => ih (hothers hxy)
    exact ⟨c, hc, hlt.trans lt_scalar_iff.symm, heq⟩
  | repeated s rest ih =>
    obtain ⟨hfield, hothers⟩ := h
    obtain ⟨c, hc, hlt, heq⟩ := (compareElements_right hfield).then fun hxy => ih (hothers hxy)
    exact ⟨c, hc, hlt.trans lt_repeated_iff.symm, heq⟩
  | message d rest ihd ih =>
    obtain ⟨hfield, hothers⟩ := h
    obtain ⟨c₁, hc₁, hright⟩ := ihd hfield
    obtain ⟨c, hc, hlt, heq⟩ := hright.then fun hxy => ih (hothers hxy)
    refine ⟨c, ?_, hlt.trans lt_message_iff.symm, heq⟩
    rw [compare, hc₁, Option.bind_some]
    exact hc
  | repeatedMessage d rest _ ih =>
    obtain ⟨hfield, hothers⟩ := h
    obtain ⟨c₁, hc₁, hright⟩ := compareMessages_right hfield
    obtain ⟨c, hc, hlt, heq⟩ := hright.then fun hxy => ih (hothers hxy)
    refine ⟨c, ?_, hlt.trans lt_repeatedMessage_iff.symm, heq⟩
    rw [compare, hc₁, Option.bind_some]
    exact hc

/-! ## Strings -/

/-- The key with one string. -/
def stringKey (s : List (Fin 256)) : Message (.scalar .string .nil) := (s, ())

/-- Strings are compared rightly. -/
theorem faithful_strings : ∀ k ∈ (Set.univ : Set (Message (.scalar .string .nil))),
    ∀ k' ∈ (Set.univ : Set (Message (.scalar .string .nil))), Faithful
    (.scalar .string .nil) k k' :=
  fun _ _ _ _ => ⟨trivial, fun _ => trivial⟩

end Idgs.Protobuf
