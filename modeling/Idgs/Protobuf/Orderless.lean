import Idgs.Protobuf.CompareOrder

/-!
# The comparator of sorts

`orderless` compares two messages by their fields, each in its direction. What it returns for a null
pointer is a three-way result, but its type is `bool`: every result but zero says "smaller".
-/

namespace Idgs.Protobuf

open Common (IsThreeWay IsStrictWeak)

/-! ## The code -/

/-- The conversion of an `int` to `bool`. -/
def intToBool (x : ℤ) : Bool := decide (x ≠ 0)

/-- The loop of `orderless::operator()` over the fields, the first of which is the `i`th; `none`
when the process ends. A field without a flag is ascending. -/
def orderFields (fieldOrder : List Bool) :
    (d : Descriptor) → (i : ℕ) → Message d → Message d → Option Bool
  | .nil, _, _, _ => some false
  | .scalar s rest, i, x, y =>
    if compareScalar s x.1 y.1 = 0 then orderFields fieldOrder rest (i + 1) x.2 y.2
    else some (decide (direct (fieldOrder.getD i false) (compareScalar s x.1 y.1) < 0))
  | .repeated s rest, i, x, y =>
    if compareElements s x.1 y.1 = 0 then orderFields fieldOrder rest (i + 1) x.2 y.2
    else some (decide (direct (fieldOrder.getD i false) (compareElements s x.1 y.1) < 0))
  | .message d rest, i, x, y =>
    (compare d x.1 y.1).bind fun cmp =>
      if cmp = 0 then orderFields fieldOrder rest (i + 1) x.2 y.2
      else some (decide (direct (fieldOrder.getD i false) cmp < 0))
  | .repeatedMessage _ rest, i, x, y =>
    (compareMessages x.1 y.1).bind fun cmp =>
      if cmp = 0 then orderFields fieldOrder rest (i + 1) x.2 y.2
      else some (decide (direct (fieldOrder.getD i false) cmp < 0))

/-- `orderless::operator()` on pointers to messages of one descriptor. -/
def orderless (fieldOrder : List Bool) {d : Descriptor} :
    Option (Message d) → Option (Message d) → Option Bool
  | none, none => some (intToBool 0)
  | none, some _ => some (intToBool (-1))
  | some _, none => some (intToBool 1)
  | some x, some y => orderFields fieldOrder d 0 x y

/-! ## What is promised -/

/-- The arguments of a sort, with null pointers among them or not. -/
def Argument (nulls : Bool) (d : Descriptor) : Type :=
  { a : Option (Message d) // a = none → nulls = true }

/-- The comparator has a result for all arguments and is a strict weak ordering of them. -/
def OrderlessSorts (fieldOrder : List Bool) (nulls : Bool) (d : Descriptor) : Prop :=
  ∃ less : Argument nulls d → Argument nulls d → Bool,
    (∀ a b, orderless fieldOrder a.val b.val = some (less a b)) ∧ IsStrictWeak fun a b =>
    less a b = true

/-! ## The fields -/

/-- The comparator asks for a negative comparison of the fields. -/
theorem orderFields_eq (fieldOrder : List Bool) (d : Descriptor) (i : ℕ) (x y : Message d) :
    orderFields fieldOrder d i x y =
      (compareFields d (fun k => fieldOrder.getD (i + k) false) x y).map fun c => decide
      (c < 0) := by
  have hnext : ∀ i, (fun k => fieldOrder.getD (i + 1 + k) false) = fun k =>
      fieldOrder.getD (i + (k + 1)) false := by
    intro i
    funext k
    rw [Nat.add_assoc, Nat.add_comm 1 k]
  induction d generalizing i with
  | nil => rfl
  | scalar s rest ih | repeated s rest ih =>
    rw [orderFields, compareFields, ih, hnext]
    split <;> rfl
  | message d rest _ ih =>
    rw [orderFields, compareFields]
    cases compare d x.1 y.1 with
    | none => rfl
    | some c =>
      rw [Option.bind_some, Option.bind_some, ih, hnext]
      split <;> rfl
  | repeatedMessage d rest _ ih =>
    rw [orderFields, compareFields]
    cases compareMessages x.1 y.1 with
    | none => rfl
    | some c =>
      rw [Option.bind_some, Option.bind_some, ih, hnext]
      split <;> rfl

/-- On messages the comparator sorts when the comparison of the fields does. -/
theorem sorts_of_orderFields {fieldOrder : List Bool} {d : Descriptor}
    {less : Message d → Message d → Bool}
    (h : ∀ x y, orderFields fieldOrder d 0 x y = some (less x y))
    (hsorts : IsStrictWeak fun x y => less x y = true) :
    Sorts (compareFields d fun k => fieldOrder.getD (0 + k) false) := by
  have hresult : ∀ x y, ∃ c, compareFields d (fun k => fieldOrder.getD (0 + k) false) x y = some c ∧
      (less x y = true ↔ c < 0) := by
    intro x y
    have heq := h x y
    rw [orderFields_eq] at heq
    obtain ⟨c, hc, hless⟩ := Option.map_eq_some_iff.mp heq
    exact ⟨c, hc, by rw [← hless, decide_eq_true_iff]⟩
  choose c hc hless using hresult
  refine ⟨c, hc, ?_⟩
  simpa only [hless] using hsorts

/-- On an ordered type the comparator sorts the messages that there are. -/
theorem orderlessSorts_of_ordered {d : Descriptor} (hdeclared : d.Declared) (h : d.Ordered)
    (fieldOrder : List Bool) :
    OrderlessSorts fieldOrder false d := by
  obtain ⟨c, hc, hsorts⟩ :=
    (smallOrder_compareFields hdeclared h fun k => fieldOrder.getD (0 + k) false).totalOrder.sorts
  have hsome : ∀ a : Argument false d, ∃ x, a.val = some x := by
    intro a
    cases hval : a.val with
    | none => exact absurd (a.property hval) Bool.false_ne_true
    | some x => exact ⟨x, rfl⟩
  choose message hmessage using hsome
  refine ⟨fun a b => decide (c (message a) (message b) < 0), fun a b => ?_, ?_⟩
  · rw [hmessage a, hmessage b, orderless, orderFields_eq, hc]
    rfl
  · simpa only [decide_eq_true_iff] using hsorts.comap message

/-- `orderless` is a strict weak ordering if and only if no argument is null and all fields are of
ordered types. -/
theorem orderlessSorts_iff {d : Descriptor} (hdeclared : d.Declared) (fieldOrder : List Bool)
    (nulls : Bool) :
    OrderlessSorts fieldOrder nulls d ↔ nulls = false ∧ d.Ordered := by
  constructor
  · rintro ⟨less, hless, hsorts⟩
    have hordered : d.Ordered := by
      refine ordered_of_sorts hdeclared (sorts_of_orderFields
        (fun x y => hless ⟨some x, fun h => absurd h (Option.some_ne_none x)⟩
          ⟨some y, fun h => absurd h (Option.some_ne_none y)⟩) (hsorts.comap _))
    refine ⟨?_, hordered⟩
    cases nulls with
    | false => rfl
    | true =>
        obtain ⟨x, -⟩ := exists_compareFields_self hdeclared
        have hleft := hless ⟨none, fun _ => rfl⟩ ⟨some x, fun _ => rfl⟩
        have hright := hless ⟨some x, fun _ => rfl⟩ ⟨none, fun _ => rfl⟩
        exact absurd (Option.some.inj hright).symm
          (hsorts.asymm _ _ (Option.some.inj hleft).symm)
  · rintro ⟨rfl, h⟩
    exact orderlessSorts_of_ordered hdeclared h fieldOrder

/-- Strings, the first field descending. -/
theorem orderlessSorts_iff_strings :
    OrderlessSorts [true] false (.scalar .string (.scalar .string .nil)) ↔
      false = false ∧ Descriptor.Ordered (.scalar .string (.scalar .string .nil)) :=
  orderlessSorts_iff (d := .scalar .string (.scalar .string .nil)) ⟨trivial, trivial,
    trivial⟩ [true] false

/-- A null pointer and a message are each smaller than the other. -/
theorem not_orderlessSorts : ¬∀ (fieldOrder : List Bool) (d : Descriptor), d.Declared →
    OrderlessSorts fieldOrder true d := by
  intro hall
  obtain ⟨less, hless, hsorts⟩ := hall [false] (.scalar .string .nil) ⟨trivial, trivial⟩
  let null : Argument true (.scalar .string .nil) := ⟨none, fun _ => rfl⟩
  let empty : Argument true (.scalar .string .nil) :=
    ⟨some (([] : List (Fin 256)), ()), fun _ => rfl⟩
  have hleft : less null empty = true := (Option.some.inj (hless null empty)).symm
  have hright : less empty null = true := (Option.some.inj (hless empty null)).symm
  exact hsorts.asymm null empty hleft hright

end Idgs.Protobuf
