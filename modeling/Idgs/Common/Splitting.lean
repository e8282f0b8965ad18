import Mathlib.Data.List.DropRight
import Idgs.Common.Text

/-!
# Splitting

A text is cut at the matches of a pattern, and the empty parts at its end are dropped. If the
pattern is a text that stands in the joined parts only where they are joined, the parts come back,
but for the empty ones at the end.
-/

namespace Idgs.Common.Splitting

open Text List

variable {α : Type*}

/-! ## Parts -/

/-- The parts from a position on, between matches that are given by their start and their end. -/
def segments (s : List α) : ℕ → List (ℕ × ℕ) → List (List α)
  | index, [] => [s.drop index]
  | index, (start, stop) :: spans => (s.drop index).take (start - index) :: segments s stop spans

/-- The text is cut at the matches. Without a match behind its start it is left whole. -/
def split (s : List α) (spans : List (ℕ × ℕ)) : List (List α) :=
  if spans.all fun span => span.2 = 0 then [s] else (segments s 0 spans).rdropWhile List.isEmpty

variable [DecidableEq α] {t x : List α}

/-- The places where a text is found, one behind the other, in what begins at a position. -/
def occurrencesFrom (t : List α) : ℕ → ℕ → List α → List (ℕ × ℕ)
  | 0, _, _ => []
  | fuel + 1, pos, s =>
    match indexOf t s with
    | none => []
    | some k =>
      (pos + k, pos + k + t.length) ::
        occurrencesFrom t fuel (pos + k + t.length) (s.drop (k + t.length))

/-- The places where a text is found. -/
def occurrences (t s : List α) : List (ℕ × ℕ) := occurrencesFrom t s.length 0 s

/-! ## Joined parts -/

/-- Behind this part the separator is not found too early, whatever follows. -/
def Apart (t x : List α) : Prop := ∀ rest, indexOf t (x ++ (t ++ rest)) = some x.length

theorem Apart.notFound (h : Apart t x) (hne : t ≠ []) : indexOf t x = none := by
  refine Option.not_isSome_iff_eq_none.mp fun hsome => ?_
  obtain ⟨a, b, rfl⟩ := isSome_indexOf.mp hsome
  obtain ⟨k, hk, hfound⟩ := exists_indexOf (t := t) (a := a) (b := b ++ (t ++ []))
  have happart := h []
  rw [append_assoc (a ++ t) b, hfound] at happart
  have hlength := Option.some.inj happart
  have hpos := length_pos_iff.mpr hne
  rw [length_append, length_append] at hlength
  omega

/-- The parts come back. -/
theorem segments_intercalate (hne : t ≠ []) (before x : List α) (xs : List (List α))
    (hapart : ∀ y ∈ x :: xs, Apart t y) {fuel : ℕ}
    (hfuel : (t.intercalate (x :: xs)).length ≤ fuel) :
    segments (before ++ t.intercalate (x :: xs)) before.length
        (occurrencesFrom t fuel before.length (t.intercalate (x :: xs))) =
      x :: xs := by
  induction xs generalizing before x fuel with
  | nil =>
    have hlast : t.intercalate [x] = x := intercalate_singleton
    have hnone : occurrencesFrom t fuel before.length x = [] := by
      cases fuel with
      | zero => rfl
      | succ fuel => rw [occurrencesFrom, (hapart x mem_cons_self).notFound hne]
    rw [hlast, hnone, segments, drop_left]
  | cons y ys ih =>
    have hpos := length_pos_iff.mpr hne
    rw [intercalate_cons_cons, append_assoc] at hfuel ⊢
    rw [length_append, length_append] at hfuel
    cases fuel with
    | zero => omega
    | succ fuel =>
      have hrest : (x ++ (t ++ t.intercalate (y :: ys))).drop (x.length + t.length) =
          t.intercalate (y :: ys) := by
        rw [← append_assoc, ← length_append, drop_left]
      have hbefore : before ++ (x ++ (t ++ t.intercalate (y :: ys))) =
          (before ++ x ++ t) ++ t.intercalate (y :: ys) := by
        simp only [append_assoc]
      have hlength : before.length + x.length + t.length = (before ++ x ++ t).length := by
        rw [length_append, length_append]
      rw [occurrencesFrom, hapart x mem_cons_self]
      simp only [segments, hrest, drop_left, Nat.add_sub_cancel_left, take_left]
      rw [hbefore, hlength, ih (before ++ x ++ t) y (fun z hz =>
        hapart z (mem_cons_of_mem x hz)) (by omega)]

/-- Joined parts are split again, but for the empty ones at the end. -/
theorem split_intercalate (hne : t ≠ []) {x y : List α} {xs : List (List α)}
    (hapart : ∀ z ∈ x :: y :: xs, Apart t z) :
    split (t.intercalate (x :: y :: xs)) (occurrences t (t.intercalate (x :: y :: xs))) =
      (x :: y :: xs).rdropWhile List.isEmpty := by
  have hsegments := segments_intercalate hne [] x (y :: xs) hapart le_rfl
  rw [nil_append, length_nil] at hsegments
  rw [split, if_neg ?_, occurrences, hsegments]
  have hpos := length_pos_iff.mpr hne
  rw [occurrences, intercalate_cons_cons, append_assoc]
  obtain ⟨fuel, hfuel⟩ :
      ∃ fuel, (x ++ (t ++ t.intercalate (y :: xs))).length = fuel + 1 := by
    refine ⟨(x ++ (t ++ t.intercalate (y :: xs))).length - 1, ?_⟩
    rw [length_append, length_append]
    omega
  rw [hfuel, occurrencesFrom, hapart x mem_cons_self, all_cons, Bool.and_eq_true, decide_eq_true_eq]
  omega

/-- A part without the separator is left whole. -/
theorem split_of_notFound (h : indexOf t x = none) : split x (occurrences t x) = [x] := by
  have hnone : occurrences t x = [] := by
    rw [occurrences]
    cases x.length with
    | zero => rfl
    | succ fuel => rw [occurrencesFrom, h]
  rw [hnone]
  rfl

/-- Joined parts are split again if the last one is not empty. -/
theorem split_intercalate_of_last (hne : t ≠ []) {xs : List (List α)} (hapart : ∀ x ∈ xs, Apart t x)
    (hxs : xs ≠ []) (hlast : xs.getLast hxs ≠ []) :
    split (t.intercalate xs) (occurrences t (t.intercalate xs)) = xs := by
  match xs with
  | [] => exact absurd rfl hxs
  | [x] =>
    rw [intercalate_singleton]
    exact split_of_notFound ((hapart x mem_cons_self).notFound hne)
  | x :: y :: xs =>
    rw [split_intercalate hne hapart]
    refine rdropWhile_eq_self_iff.mpr fun _ hempty => hlast ?_
    exact List.isEmpty_iff.mp hempty

end Idgs.Common.Splitting
