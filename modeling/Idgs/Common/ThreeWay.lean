import Mathlib.Algebra.Order.Ring.Int
import Mathlib.Data.Fintype.Card
import Mathlib.Order.WellFounded

/-!
# Three-way comparisons

A three-way comparison gives a negative number, zero or a positive number. It is one of a total
order when exchanged arguments give the opposite sign, "not greater" is transitive and zero means
equality; then "smaller" is a strict weak order. Comparisons of pairs and of lists take the first
difference.
-/

namespace Idgs.Common

variable {α β : Type*}

/-- The comparison is that of a total order. -/
structure IsThreeWay (c : α → α → ℤ) : Prop where
  swap : ∀ x y, (c y x).sign = -(c x y).sign
  trans : ∀ x y z, c x y ≤ 0 → c y z ≤ 0 → c x z ≤ 0
  zero : ∀ x y, c x y = 0 ↔ x = y

/-- A strict weak ordering, as a sort needs it. -/
structure IsStrictWeak (r : α → α → Prop) : Prop where
  irrefl : ∀ x, ¬r x x
  asymm : ∀ x y, r x y → ¬r y x
  trans : ∀ x y z, r x y → r y z → r x z
  incomparable : ∀ x y z, ¬r x y → ¬r y x → ¬r y z → ¬r z y → ¬r x z ∧ ¬r z x

/-! ## Signs -/

namespace IsThreeWay

variable {c : α → α → ℤ}

theorem pos_iff (h : IsThreeWay c) (x y : α) : 0 < c y x ↔ c x y < 0 := by
  rw [← Int.sign_eq_one_iff_pos, h.swap x y, ← Int.sign_eq_neg_one_iff_neg]
  omega

theorem self (h : IsThreeWay c) (x : α) : c x x = 0 := (h.zero x x).mpr rfl

/-- The comparison with a difference of keys. -/
theorem of_key {f : α → ℤ} (hf : Function.Injective f)
    (h : ∀ x y, (c x y).sign = (f x - f y).sign) :
    IsThreeWay c where
  swap x y := by
    rw [h y x, h x y, ← Int.sign_neg, Int.neg_sub]
  trans x y z hxy hyz := by
    have hle : ∀ x y, c x y ≤ 0 ↔ f x - f y ≤ 0 := by
      intro x y
      rw [← not_lt, ← not_lt, ← Int.sign_eq_one_iff_pos, ← Int.sign_eq_one_iff_pos, h x y]
    rw [hle] at hxy hyz ⊢
    omega
  zero x y := by
    rw [← Int.sign_eq_zero_iff_zero, h x y, Int.sign_eq_zero_iff_zero, ← hf.eq_iff]
    omega

/-- The comparison with the sign that a linear order gives. -/
theorem of_linearOrder [LinearOrder α] (h : ∀ x y, (c x y < 0 ↔ x < y) ∧ (c x y = 0 ↔ x = y)) :
    IsThreeWay c where
  swap x y := by
    rcases lt_trichotomy x y with hlt | rfl | hgt
    · have hxy := (h x y).1.mpr hlt
      have hyx : 0 < c y x := by
        have hne := mt (h y x).2.mp hlt.ne'
        have hnot := mt (h y x).1.mp hlt.not_gt
        omega
      rw [Int.sign_eq_one_of_pos hyx, Int.sign_eq_neg_one_of_neg hxy, Int.neg_neg]
    · rw [(h x x).2.mpr rfl, Int.sign_zero, Int.neg_zero]
    · have hyx := (h y x).1.mpr hgt
      have hxy : 0 < c x y := by
        have hne := mt (h x y).2.mp hgt.ne'
        have hnot := mt (h x y).1.mp hgt.not_gt
        omega
      rw [Int.sign_eq_one_of_pos hxy, Int.sign_eq_neg_one_of_neg hyx]
  trans x y z hxy hyz := by
    have hle : ∀ x y, c x y ≤ 0 ↔ x ≤ y := by
      intro x y
      rw [le_iff_lt_or_eq, le_iff_lt_or_eq, (h x y).1, (h x y).2]
    rw [hle] at hxy hyz ⊢
    exact le_trans hxy hyz
  zero x y := (h x y).2

/-- Descending instead of ascending. -/
theorem neg (h : IsThreeWay c) : IsThreeWay fun x y => -c x y where
  swap x y := by
    rw [Int.sign_neg, Int.sign_neg, h.swap x y]
  trans x y z hxy hyz := by
    have hflip : ∀ x y, -c x y ≤ 0 ↔ c y x ≤ 0 := by
      intro x y
      have hpos := h.pos_iff x y
      omega
    rw [hflip] at hxy hyz ⊢
    exact h.trans z y x hyz hxy
  zero x y := by
    rw [← h.zero x y]
    omega

/-- Smaller is a strict weak order. -/
theorem isStrictWeak (h : IsThreeWay c) : IsStrictWeak fun x y => c x y < 0 := by
  have hflip := h.pos_iff
  have heq : ∀ x y, ¬c x y < 0 → ¬c y x < 0 → x = y := by
    intro x y hxy hyx
    refine (h.zero x y).mp ?_
    have hpos := hflip y x
    omega
  refine ⟨fun x => ?_, fun x y hxy => ?_, fun x y z hxy hyz => ?_, fun x y z hxy hyx hyz hzy => ?_⟩
  · rw [h.self]
    exact lt_irrefl 0
  · have hpos := (hflip x y).mpr hxy
    omega
  · have hle := h.trans x y z hxy.le hyz.le
    refine lt_of_le_of_ne hle fun hzero => ?_
    obtain rfl := (h.zero x z).mp hzero
    have hpos := (hflip x y).mpr hxy
    omega
  · obtain rfl := heq x y hxy hyx
    exact ⟨hyz, hzy⟩

end IsThreeWay

/-! ## The first difference -/

/-- Pairs are compared by their first parts, then by their second ones. -/
theorem IsThreeWay.prod {c : α → α → ℤ} {d : β → β → ℤ} (hc : IsThreeWay c) (hd : IsThreeWay d) :
    IsThreeWay fun p q : α × β => if c p.1 q.1 = 0 then d p.2 q.2 else c p.1 q.1 where
  swap p q := by
    have hswap := hc.swap p.1 q.1
    by_cases heq : p.1 = q.1
    · rw [heq, hc.self, if_pos rfl, if_pos rfl]
      exact hd.swap p.2 q.2
    · rw [if_neg (mt (hc.zero _ _).mp heq), if_neg (mt (hc.zero _ _).mp (Ne.symm heq))]
      exact hswap
  trans p q s hpq hqs := by
    have hle : ∀ p q : α × β, (if c p.1 q.1 = 0 then d p.2 q.2 else c p.1 q.1) ≤ 0 ↔
        c p.1 q.1 < 0 ∨ p.1 = q.1 ∧ d p.2 q.2 ≤ 0 := by
      intro p q
      rw [← hc.zero]
      split <;> omega
    rw [hle] at hpq hqs ⊢
    rcases hpq with hlt | ⟨heq, hpq⟩
    · rcases hqs with hlt' | ⟨heq', -⟩
      · exact .inl (hc.isStrictWeak.trans _ _ _ hlt hlt')
      · exact .inl (heq' ▸ hlt)
    · rcases hqs with hlt' | ⟨heq', hqs⟩
      · exact .inl (heq ▸ hlt')
      · exact .inr ⟨heq.trans heq', hd.trans _ _ _ hpq hqs⟩
  zero p q := by
    rw [Prod.ext_iff, ← hc.zero, ← hd.zero]
    split
    · rename_i hzero
      exact ⟨fun h => ⟨hzero, h⟩, fun h => h.2⟩
    · rename_i hne
      exact ⟨fun h => absurd h hne, fun h => absurd h.1 hne⟩

/-- Lists are compared element by element; a proper prefix is smaller. -/
def compareLists (c : α → α → ℤ) : List α → List α → ℤ
  | [], [] => 0
  | [], _ :: _ => -1
  | _ :: _, [] => 1
  | a :: as, b :: bs => if c a b = 0 then compareLists c as bs else c a b

theorem IsThreeWay.list {c : α → α → ℤ} (hc : IsThreeWay c) : IsThreeWay (compareLists c) where
  swap xs ys := by
    induction xs generalizing ys with
    | nil => cases ys <;> rfl
    | cons x xs ih =>
      cases ys with
      | nil => rfl
      | cons y ys =>
        rw [compareLists, compareLists]
        by_cases heq : x = y
        · rw [heq, hc.self, if_pos rfl, if_pos rfl]
          exact ih ys
        · rw [if_neg (mt (hc.zero _ _).mp heq), if_neg (mt (hc.zero _ _).mp (Ne.symm heq))]
          exact hc.swap x y
  trans xs ys zs hxy hyz := by
    have hle : ∀ (x y : α) (xs ys : List α), compareLists c (x :: xs) (y :: ys) ≤ 0 ↔
        c x y < 0 ∨ x = y ∧ compareLists c xs ys ≤ 0 := by
      intro x y xs ys
      rw [compareLists, ← hc.zero]
      split <;> omega
    induction xs generalizing ys zs with
    | nil => cases zs <;> simp [compareLists]
    | cons x xs ih =>
      cases ys with
      | nil => simp [compareLists] at hxy
      | cons y ys =>
        cases zs with
        | nil => simp [compareLists] at hyz
        | cons z zs =>
          rw [hle] at hxy hyz ⊢
          rcases hxy with hlt | ⟨heq, hxy⟩
          · rcases hyz with hlt' | ⟨heq', -⟩
            · exact .inl (hc.isStrictWeak.trans _ _ _ hlt hlt')
            · exact .inl (heq' ▸ hlt)
          · rcases hyz with hlt' | ⟨heq', hyz⟩
            · exact .inl (heq ▸ hlt')
            · exact .inr ⟨heq.trans heq', ih ys zs hxy hyz⟩
  zero xs ys := by
    induction xs generalizing ys with
    | nil => cases ys <;> simp [compareLists]
    | cons x xs ih =>
      cases ys with
      | nil => simp [compareLists]
      | cons y ys =>
        rw [compareLists, List.cons.injEq, ← hc.zero, ← ih ys]
        split
        · rename_i hzero
          exact ⟨fun h => ⟨hzero, h⟩, fun h => h.2⟩
        · rename_i hne
          exact ⟨fun h => absurd h hne, fun h => absurd h.1 hne⟩

/-! ## Strict weak orders -/

namespace IsStrictWeak

variable {r : α → α → Prop}

section

variable (h : IsStrictWeak r)

include h

theorem comap (f : β → α) : IsStrictWeak fun x y => r (f x) (f y) :=
  ⟨fun x => h.irrefl (f x), fun x y => h.asymm (f x) (f y), fun x y z => h.trans (f x) (f y) (f z),
    fun x y z => h.incomparable (f x) (f y) (f z)⟩

/-- What is not below something that is not below a third one is not below it either. -/
theorem trans_not {x y z : α} (hxy : ¬r x y) (hyz : ¬r y z) : ¬r x z := by
  intro hxz
  have hyx : ¬r y x := fun hyx => hyz (h.trans y x z hyx hxz)
  have hzy : ¬r z y := fun hzy => hxy (h.trans x z y hxz hzy)
  exact (h.incomparable x y z hxy hyx hyz hzy).1 hxz

theorem flip : IsStrictWeak fun x y => r y x :=
  ⟨h.irrefl, fun x y => h.asymm y x, fun x y z hyx hzy => h.trans z y x hzy hyx,
    fun x y z hyx hxy hzy hyz => (h.incomparable x y z hxy hyx hyz hzy).symm⟩

/-- Among finitely many values one has no smaller one. -/
theorem exists_least [Finite α] [Nonempty α] : ∃ m, ∀ x, ¬r x m := by
  have : IsTrans α r := ⟨h.trans⟩
  have : Std.Irrefl r := ⟨h.irrefl⟩
  obtain ⟨m, -, hm⟩ := (Finite.wellFounded_of_trans_of_irrefl r).has_min Set.univ Set.univ_nonempty
  exact ⟨m, fun x => hm x trivial⟩

end

end IsStrictWeak

end Idgs.Common
