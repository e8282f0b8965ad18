import Mathlib.Data.Nat.Notation
import Mathlib.Logic.Relation

/-!
# Loops that accumulate a state

`List.foldl` is the loop of the models. A relation that every iteration keeps relates the state
before the loop to the state after it; an iteration that removes one element from a set empties the
set when the loop runs through all of them.
-/

namespace Idgs.Common

open List

variable {σ τ α : Type*}

/-- If every iteration takes some steps of `r`, seen through `g`, so does the loop. -/
theorem foldl_reflTransGen {r : τ → τ → Prop} (g : σ → τ) {f : σ → α → σ} {l : List α}
    (h : ∀ s, ∀ a ∈ l, Relation.ReflTransGen r (g s) (g (f s a))) (s : σ) :
    Relation.ReflTransGen r (g s) (g (l.foldl f s)) := by
  induction l generalizing s with
  | nil => exact .refl
  | cons a l ih =>
    have hhead := h s a mem_cons_self
    have htail := ih (fun s a ha => h s a (mem_cons_of_mem _ ha)) (f s a)
    exact hhead.trans htail

/-- If every iteration keeps an invariant, so does the loop. -/
theorem foldl_invariant (inv : σ → Prop) {f : σ → α → σ} {l : List α}
    (h : ∀ s, ∀ a ∈ l, inv s → inv (f s a)) {s : σ} (hs : inv s) : inv (l.foldl f s) := by
  induction l generalizing s with
  | nil => exact hs
  | cons a l ih =>
    exact ih (fun s a ha => h s a (mem_cons_of_mem _ ha)) (h s a mem_cons_self hs)

/-- If every iteration succeeds and keeps an invariant, so does a loop that may fail. -/
theorem foldlM_invariant (inv : σ → Prop) {f : σ → α → Option σ} {l : List α}
    (h : ∀ s, ∀ a ∈ l, inv s → ∃ s', f s a = some s' ∧ inv s') {s : σ} (hs : inv s) :
    ∃ s', l.foldlM f s = some s' ∧ inv s' := by
  induction l generalizing s with
  | nil => exact ⟨s, rfl, hs⟩
  | cons a l ih =>
    obtain ⟨s₁, hfirst, hs₁⟩ := h s a mem_cons_self hs
    obtain ⟨s', hrest, hs'⟩ := ih (fun s a ha => h s a (mem_cons_of_mem _ ha)) hs₁
    refine ⟨s', ?_, hs'⟩
    rw [foldlM_cons, hfirst]
    exact hrest

/-- If the iteration for `a` removes the elements of `R a` from a set and no iteration adds to it,
the loop removes everything that its iterations do. -/
theorem foldl_removes {β : Type*} (S : σ → Set β) (R : α → Set β) (inv : σ → Prop) {f : σ → α → σ}
    {l : List α} (hinv : ∀ s, ∀ a ∈ l, inv s → inv (f s a))
    (h : ∀ s, ∀ a ∈ l, inv s → ∀ x ∈ S (f s a), x ∈ S s ∧ x ∉ R a) {s : σ} (hs : inv s) :
    ∀ x ∈ S (l.foldl f s), x ∈ S s ∧ ∀ a ∈ l, x ∉ R a := by
  induction l generalizing s with
  | nil =>
    intro x hx
    exact ⟨hx, fun a ha => absurd ha not_mem_nil⟩
  | cons a l ih =>
    intro x hx
    obtain ⟨hmid, htail⟩ := ih (fun s a ha => hinv s a (mem_cons_of_mem _ ha))
      (fun s a ha => h s a (mem_cons_of_mem _ ha)) (hinv s a mem_cons_self hs) x hx
    obtain ⟨hfirst, hhead⟩ := h s a mem_cons_self hs x hmid
    refine ⟨hfirst, fun c hc => ?_⟩
    rcases mem_cons.mp hc with rfl | hl
    · exact hhead
    · exact htail c hl

/-! ## Nested loops over ranges -/

/-- What the iteration `k` of a loop over `range n` establishes, and the later ones keep, holds
after the loop. -/
theorem foldl_range_establish (P : σ → Prop) {f : σ → ℕ → σ} {n k : ℕ} (hk : k < n) {s : σ}
    (hstep : P (f ((List.range k).foldl f s) k)) (hkeep : ∀ s a, k < a → a < n → P s → P (f s a)) :
    P ((List.range n).foldl f s) := by
  obtain ⟨d, rfl⟩ := Nat.exists_eq_add_of_lt hk
  induction d with
  | zero =>
    rw [Nat.add_zero, range_succ, foldl_append]
    exact hstep
  | succ d ih =>
    rw [show k + (d + 1) + 1 = (k + d + 1) + 1 by omega, range_succ, foldl_append]
    refine hkeep _ _ (by omega) (by omega) (ih (by omega) fun s a hka ha => ?_)
    exact hkeep s a hka (by omega)

/-- The loop for `p` over `range n` within the loop for `r` over `range m`. -/
def loops (step : σ → ℕ → ℕ → σ) (m n : ℕ) (s : σ) : σ :=
  (List.range m).foldl (fun s r => (List.range n).foldl (fun s p => step s r p) s) s

/-- The state in which the loops reach iteration `p` of the inner loop for `r`. -/
def loopsAt (step : σ → ℕ → ℕ → σ) (n : ℕ) (s : σ) (r p : ℕ) : σ :=
  (List.range p).foldl (fun s p => step s r p) (loops step r n s)

/-- An invariant of the iterations holds wherever the loops are. -/
theorem loopsAt_invariant (inv : σ → Prop) {step : σ → ℕ → ℕ → σ} {m n : ℕ}
    (h : ∀ s r p, r < m → p < n → inv s → inv (step s r p)) {s : σ} (hs : inv s) {r p : ℕ}
    (hr : r < m) (hp : p < n) : inv (loopsAt step n s r p) := by
  refine foldl_invariant inv (fun s p' hp' hs =>
    ?_) (foldl_invariant inv (fun s r' hr' hs => ?_) hs)
  · rw [mem_range] at hp'
    exact h s r p' hr (by omega) hs
  · rw [mem_range] at hr'
    refine foldl_invariant inv (fun s p' hp' hs => ?_) hs
    exact h s r' p' (by omega) (mem_range.mp hp') hs

/-- What one iteration establishes, and the later ones keep, holds after the loops. -/
theorem loops_establish (inv P : σ → Prop) {step : σ → ℕ → ℕ → σ} {m n r p : ℕ} (hr : r < m)
    (hp : p < n) (hinv : ∀ s r p, r < m → p < n → inv s → inv (step s r p)) {s : σ} (hs : inv s)
    (hstep : inv (loopsAt step n s r p) → P (step (loopsAt step n s r p) r p))
    (hkeep : ∀ s r' p', r < r' ∨ r' = r ∧ p < p' → r' < m → p' < n → inv s → P s →
      P (step s r' p')) :
    P (loops step m n s) := by
  have hreached := loopsAt_invariant inv hinv hs hr hp
  have hboth : inv (loops step m n s) ∧ P (loops step m n s) := by
    refine foldl_range_establish (fun s => inv s ∧ P s) hr ?_ fun s r' hlt hr' hs => ?_
    · refine foldl_range_establish (fun s => inv s ∧ P s) hp ?_ fun s p' hlt hp' hs => ?_
      · exact ⟨hinv _ r p hr hp hreached, hstep hreached⟩
      · exact ⟨hinv s r p' hr hp' hs.1, hkeep s r p' (.inr ⟨rfl, hlt⟩) hr hp' hs.1 hs.2⟩
    · refine foldl_invariant (fun s => inv s ∧ P s) (fun s p' hp' hs => ?_) hs
      rw [mem_range] at hp'
      exact ⟨hinv s r' p' hr' hp' hs.1, hkeep s r' p' (.inl hlt) hr' hp' hs.1 hs.2⟩
  exact hboth.2

end Idgs.Common
