import Mathlib.Data.List.Perm.Basic

/-!
# Messages in flight of a totally ordered multicast

Every member receives the messages in one order. Before their place in that order is fixed they are
in flight: the next message may be the oldest one of any sender, so that messages of one sender stay
in the order in which they were sent.
-/

namespace Idgs.Common

open List

variable {π μ : Type*} [DecidableEq π]

/-- Take the oldest message of sender `p` out of the messages in flight. -/
def takeFirst (p : π) : List (π × μ) → Option (μ × List (π × μ))
  | [] => none
  | x :: rest =>
    if x.1 = p then some (x.2, rest)
    else (takeFirst p rest).map fun r => (r.1, x :: r.2)

section

variable {p : π} {flight rest : List (π × μ)} {m : μ} (h : takeFirst p flight = some (m, rest))

include h

/-- The message taken is the first of its sender. -/
theorem takeFirst_split
    :
    ∃ before after, flight = before ++ (p, m) :: after ∧ rest = before ++ after ∧
      ∀ x ∈ before, x.1 ≠ p := by
  induction flight generalizing rest with
  | nil => cases h
  | cons x flight ih =>
    rw [takeFirst] at h
    split at h
    · rename_i hx
      cases h
      exact ⟨[], flight, by rw [← hx]; rfl, rfl, fun y hy => absurd hy not_mem_nil⟩
    · rename_i hx
      obtain ⟨r, hr, heq⟩ := Option.map_eq_some_iff.mp h
      cases heq
      obtain ⟨before, after, hflight, hrest, hbefore⟩ := ih hr
      refine ⟨x :: before, after, by rw [hflight]; rfl, by rw [hrest]; rfl, fun y hy => ?_⟩
      rcases mem_cons.mp hy with rfl | hy
      · exact hx
      · exact hbefore y hy

/-- The message was in flight, and the others still are. -/
theorem takeFirst_perm
    : flight.Perm ((p, m) :: rest) := by
  obtain ⟨before, after, rfl, rfl, -⟩ := takeFirst_split h
  exact perm_middle

theorem takeFirst_mem
    : (p, m) ∈ flight :=
  (takeFirst_perm h).mem_iff.mpr mem_cons_self

theorem mem_of_mem_takeFirst {x : π × μ} (hx : x ∈ rest) : x ∈ flight :=
  (takeFirst_perm h).mem_iff.mpr (mem_cons_of_mem _ hx)

end

/-! ## The messages that a test picks out -/

section Filter

variable {p : π} {flight rest : List (π × μ)} {m : μ} {P : π × μ → Bool}

theorem takeFirst_filter_of_not (h : takeFirst p flight = some (m, rest)) (hP : P (p, m) = false) :
    rest.filter P = flight.filter P := by
  obtain ⟨before, after, rfl, rfl, -⟩ := takeFirst_split h
  rw [filter_append, filter_append, filter_cons, hP]
  rfl

/-- If all of them are of one sender, the one that is taken is the first. -/
theorem takeFirst_filter_of_sender {l : π} (h : takeFirst p flight = some (m, rest))
    (hP : P (p, m) = true) (hone : ∀ x ∈ flight.filter P, x.1 = l) :
    flight.filter P = (p, m) :: rest.filter P := by
  obtain ⟨before, after, rfl, rfl, hbefore⟩ := takeFirst_split h
  have hp : p = l := hone (p, m) (mem_filter.mpr
    ⟨mem_append_right _ mem_cons_self, hP⟩)
  have hnone : before.filter P = [] := by
    refine filter_eq_nil_iff.mpr fun x hx hPx => hbefore x hx ?_
    rw [hp]
    exact hone x (mem_filter.mpr ⟨mem_append_left _ hx, hPx⟩)
  rw [filter_append, filter_append, filter_cons, if_pos hP, hnone]
  rfl

end Filter

end Idgs.Common
