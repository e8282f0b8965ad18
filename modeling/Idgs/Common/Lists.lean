import Mathlib.Data.List.Perm.Basic

/-!
# Picking an element out of a list

Also: what a partial function, or one that can fail, makes of a list.
-/

namespace Idgs.Common

open List

variable {α : Type*} {l : List α} {i : ℕ} {x y : α}

/-- What is in a list is the element picked out, or is among the others. -/
theorem eq_or_mem_eraseIdx (h : l[i]? = some x) (hy : y ∈ l) : y = x ∨ y ∈ l.eraseIdx i := by
  obtain ⟨hi, rfl⟩ := List.getElem?_eq_some_iff.mp h
  exact mem_cons.mp ((getElem_cons_eraseIdx_perm hi).mem_iff.mpr hy)

/-- In a list in order, the others are related to the last element. -/
theorem pairwise_getLast {R : α → α → Prop} (hl : l.Pairwise R) (h : l.getLast? = some x)
    (hy : y ∈ l) : y = x ∨ R y x := by
  obtain ⟨before, rfl⟩ := getLast?_eq_some_iff.mp h
  rcases mem_append.mp hy with hbefore | hlast
  · exact .inr ((pairwise_append.mp hl).2.2 y hbefore x mem_cons_self)
  · exact .inl (mem_singleton.mp hlast)

/-- What a partial function makes of a list comes from an element of the list. -/
theorem exists_of_mem_mapM {α β : Type} {f : α → Option β} {as : List α} {bs : List β}
    (h : as.mapM f = some bs) {b : β} (hb : b ∈ bs) : ∃ a ∈ as, f a = some b := by
  induction as generalizing bs with
  | nil =>
    obtain rfl : bs = [] := (Option.some.inj h).symm
    exact absurd hb not_mem_nil
  | cons a as ih =>
    rw [mapM_cons] at h
    obtain ⟨b', ha, hrest⟩ := Option.bind_eq_some_iff.1 h
    obtain ⟨bs', has, hbs⟩ := Option.bind_eq_some_iff.1 hrest
    obtain rfl : b' :: bs' = bs := Option.some.inj hbs
    rcases mem_cons.1 hb with rfl | hb
    · exact ⟨a, mem_cons_self, ha⟩
    · obtain ⟨a', ha', hf⟩ := ih has hb
      exact ⟨a', mem_cons_of_mem a ha', hf⟩

section Except

variable {ε β : Type} {α : Type*} {f : α → Except ε β}

theorem mapM_cons_ok_iff {a : α} {as : List α} {bs : List β} :
    (a :: as).mapM f = .ok bs ↔ ∃ b rest, f a = .ok b ∧ as.mapM f = .ok rest ∧ bs = b :: rest := by
  rw [mapM_cons]
  constructor
  · intro h
    cases ha : f a with
    | error e =>
      rw [ha] at h
      cases h
    | ok b =>
      cases has : as.mapM f with
      | error e =>
        rw [ha, has] at h
        cases h
      | ok rest =>
        rw [ha, has] at h
        cases h
        exact ⟨b, rest, rfl, rfl, rfl⟩
  · rintro ⟨b, rest, ha, has, rfl⟩
    rw [ha, has]
    rfl

/-- The function succeeds on every element. -/
theorem mapM_eq_ok_iff {as : List α} {bs : List β} :
    as.mapM f = .ok bs ↔ List.Forall₂ (fun a b => f a = .ok b) as bs := by
  induction as generalizing bs with
  | nil =>
    rw [forall₂_nil_left_iff]
    exact ⟨fun h => (Except.ok.inj h).symm, fun h => congrArg Except.ok h.symm⟩
  | cons a as ih =>
    rw [mapM_cons_ok_iff, forall₂_cons_left_iff]
    constructor
    · rintro ⟨b, rest, ha, has, rfl⟩
      exact ⟨b, rest, ha, ih.mp has, rfl⟩
    · rintro ⟨b, rest, ha, has, rfl⟩
      exact ⟨b, rest, ha, ih.mpr has, rfl⟩

/-- The error is that of the first element on which the function fails. -/
theorem mapM_eq_error_iff {as : List α} {e : ε} :
    as.mapM f = .error e ↔ ∃ before a after, as = before ++ a :: after ∧
      (∀ x ∈ before, ∃ b, f x = .ok b) ∧ f a = .error e := by
  induction as with
  | nil =>
    refine iff_of_false (fun h => ?_) ?_
    · cases h
    · rintro ⟨before, a, after, h, -⟩
      exact absurd h.symm (append_ne_nil_of_right_ne_nil _ (cons_ne_nil _ _))
  | cons a as ih =>
    rw [mapM_cons]
    constructor
    · intro h
      cases ha : f a with
      | error e' =>
        rw [ha] at h
        cases h
        exact ⟨[], a, as, rfl, fun x hx => absurd hx not_mem_nil, ha⟩
      | ok b =>
        have hrest : as.mapM f = .error e := by
          rw [ha] at h
          cases has : as.mapM f with
          | error e' =>
            rw [has] at h
            cases h
            rfl
          | ok rest =>
            rw [has] at h
            cases h
        obtain ⟨before, x, after, rfl, hbefore, hx⟩ := ih.mp hrest
        refine ⟨a :: before, x, after, rfl, fun y hy => ?_, hx⟩
        rcases mem_cons.mp hy with rfl | hy
        · exact ⟨b, ha⟩
        · exact hbefore y hy
    · rintro ⟨before, x, after, hsplit, hbefore, hx⟩
      cases before with
      | nil =>
        cases hsplit
        rw [hx]
        rfl
      | cons y before =>
        cases hsplit
        obtain ⟨b, hb⟩ := hbefore a mem_cons_self
        have hrest := ih.mpr ⟨before, x, after, rfl, fun z hz =>
          hbefore z (mem_cons_of_mem a hz), hx⟩
        rw [hb, hrest]
        rfl

end Except

/-- Changing one element changes how many have a property by what it changes of this one. -/
theorem countP_modify (P : α → Bool) (f : α → α) (h : i < l.length) :
    (l.modify i f).countP P + (if P l[i] then 1 else 0) =
      l.countP P + if P (f l[i]) then 1 else 0 := by
  induction l generalizing i with
  | nil => cases h
  | cons x l ih =>
    cases i with
    | zero =>
      simp only [modify_zero_cons, countP_cons, getElem_cons_zero]
      omega
    | succ i =>
      have hrest := ih (Nat.lt_of_succ_lt_succ h)
      simp only [modify_succ_cons, countP_cons, getElem_cons_succ]
      omega

end Idgs.Common
