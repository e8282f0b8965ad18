import Mathlib.Data.List.Infix

/-!
# Scanners

A scanner takes one element after the other and stops when it has seen enough or what cannot be
continued. It does not matter how the input is cut into chunks. A scanner is judged by a language:
it accepts as soon as an element of the language is there, and rejects as soon as none can follow.
-/

namespace Idgs.Common

open List

/-- The result of one step, and of a scan. -/
inductive ScanStatus
  | invalid | complete | indeterminate
deriving DecidableEq

variable {σ α : Type*} (consume : σ → α → ScanStatus × σ)

/-- A scan ends where the status is not indeterminate any more; the rest of the input is not looked
at. -/
def scan (s : σ) : List α → ScanStatus × σ × List α
  | [] => (.indeterminate, s, [])
  | a :: as =>
    match consume s a with
    | (.indeterminate, s') => scan s' as
    | (status, s') => (status, s', as)

/-- One chunk after the other. -/
def scanChunks (s : σ) : List (List α) → ScanStatus × σ × List α
  | [] => (.indeterminate, s, [])
  | chunk :: chunks =>
    match scan consume s chunk with
    | (.indeterminate, s', _) => scanChunks s' chunks
    | (status, s', rest) => (status, s', rest ++ chunks.flatten)

/-- The scanner stops with success at the end of the input. -/
def Accepts (s : σ) (w : List α) (s' : σ) : Prop := scan consume s w = (.complete, s', [])

variable {consume}

/-! ## Steps and chunks -/

theorem scan_cons_indeterminate {s s' : σ} {a : α} (h : consume s a = (.indeterminate, s'))
    (as : List α) :
    scan consume s (a :: as) = scan consume s' as := by
  rw [scan, h]

theorem scan_cons_stop {s s' : σ} {a : α} {status : ScanStatus} (h : consume s a = (status, s'))
    (hstop : status ≠ .indeterminate) (as : List α) :
    scan consume s (a :: as) = (status, s', as) := by
  rw [scan, h]
  cases status with
  | indeterminate => exact absurd rfl hstop
  | _ => rfl

/-- A scan goes on where the first part has left it, unless it has stopped. -/
theorem scan_append (s : σ) (as bs : List α) :
    scan consume s (as ++ bs) =
      match scan consume s as with
      | (.indeterminate, s', _) => scan consume s' bs
      | (status, s', rest) => (status, s', rest ++ bs) := by
  induction as generalizing s with
  | nil => rfl
  | cons a as ih =>
    rw [cons_append]
    rcases h : consume s a with ⟨status, s'⟩
    cases status with
    | indeterminate => rw [scan_cons_indeterminate h, scan_cons_indeterminate h, ih]
    | _ => rw [scan_cons_stop h (by decide), scan_cons_stop h (by decide)]

/-- How the input is cut does not matter. -/
theorem scanChunks_eq (s : σ) (chunks : List (List α)) :
    scanChunks consume s chunks = scan consume s chunks.flatten := by
  induction chunks generalizing s with
  | nil => rfl
  | cons chunk chunks ih =>
    rw [scanChunks, flatten_cons, scan_append]
    rcases scan consume s chunk with ⟨status, s', rest⟩
    cases status with
    | indeterminate => exact ih s'
    | _ => rfl

/-- A scan that has not stopped has taken everything. -/
theorem rest_eq_nil {s s' : σ} {w rest : List α}
    (h : scan consume s w = (.indeterminate, s', rest)) : rest = [] := by
  induction w generalizing s with
  | nil =>
    rw [scan, Prod.mk.injEq, Prod.mk.injEq] at h
    exact h.2.2.symm
  | cons a as ih =>
    rcases hstep : consume s a with ⟨status, s''⟩
    cases status with
    | indeterminate =>
      rw [scan_cons_indeterminate hstep] at h
      exact ih h
    | _ =>
      rw [scan_cons_stop hstep (by decide)] at h
      cases h

/-- A scan that has stopped did so at an element before which it had not. -/
theorem exists_stop {s s' : σ} {w rest : List α} {status : ScanStatus}
    (hstop : status ≠ .indeterminate) (h : scan consume s w = (status, s', rest)) :
    ∃ u a s'', w = u ++ a :: rest ∧ scan consume s u = (.indeterminate, s'', []) ∧
    consume s'' a = (status, s') := by
  induction w generalizing s with
  | nil =>
    rw [scan] at h
    exact absurd (Prod.ext_iff.mp h).1.symm hstop
  | cons a as ih =>
    rcases hstep : consume s a with ⟨status', s₁⟩
    by_cases hgoes : status' = .indeterminate
    · subst hgoes
      rw [scan_cons_indeterminate hstep] at h
      obtain ⟨u, b, s'', rfl, hu, hb⟩ := ih h
      exact ⟨a :: u, b, s'', rfl, (scan_cons_indeterminate hstep u).trans hu, hb⟩
    · rw [scan_cons_stop hstep hgoes, Prod.mk.injEq, Prod.mk.injEq] at h
      obtain ⟨rfl, rfl, rfl⟩ := h
      exact ⟨[], a, s, rfl, rfl, hstep⟩

theorem scan_concat {s s' s'' : σ} {u : List α} {a : α} {status : ScanStatus}
    (hu : scan consume s u = (.indeterminate, s', [])) (ha : consume s' a = (status, s''))
    (rest : List α)
    (hstop : status ≠ .indeterminate) : scan consume s (u ++ a :: rest) = (status, s'', rest) := by
  rw [scan_append, hu]
  exact scan_cons_stop ha hstop rest

/-- What holds of nothing and the first state, and goes on with each element, holds of all that has
been taken. -/
theorem scan_invariant {I : List α → σ → Prop} {s : σ} (hinit : I [] s)
    (hstep : ∀ u s₁ a s₂, I u s₁ → consume s₁ a = (.indeterminate, s₂) → I (u ++ [a]) s₂)
    {w : List α} {s' : σ} (h : scan consume s w = (.indeterminate, s', [])) : I w s' := by
  induction w using List.reverseRecOn generalizing s' with
  | nil =>
    rw [scan, Prod.mk.injEq, Prod.mk.injEq] at h
    exact h.2.1 ▸ hinit
  | append_singleton w a ih =>
    rw [scan_append] at h
    rcases hw : scan consume s w with ⟨status, s₁, rest⟩
    rw [hw] at h
    cases status with
    | invalid | complete => cases h
    | indeterminate =>
      obtain rfl := rest_eq_nil hw
      rcases ha : consume s₁ a with ⟨status, s₂⟩
      cases status with
      | indeterminate =>
        have hnext : scan consume s₁ [a] = _ := h
        rw [scan_cons_indeterminate ha, scan, Prod.mk.injEq, Prod.mk.injEq] at hnext
        exact hnext.2.1 ▸ hstep w s₁ a s₂ (ih hw) ha
      | _ =>
        have hnext : scan consume s₁ [a] = _ := h
        rw [scan_cons_stop ha (by decide)] at hnext
        cases hnext

/-- The prefix at which a scan succeeds is accepted. -/
theorem accepts_of_complete {s s' : σ} {w rest : List α}
    (h : scan consume s w = (.complete, s', rest)) :
    ∃ u, w = u ++ rest ∧ Accepts consume s u s' := by
  obtain ⟨u, a, s'', rfl, hu, ha⟩ := exists_stop (by decide) h
  exact ⟨u ++ [a], by rw [append_assoc]; rfl, scan_concat hu ha [] (by decide)⟩

/-- After an accepted prefix the scan has succeeded. -/
theorem Accepts.append {s s' : σ} {u : List α} (h : Accepts consume s u s') (rest : List α) :
    scan consume s (u ++ rest) = (.complete, s', rest) := by
  rw [scan_append, show scan consume s u = _ from h]
  rfl

/-- What is accepted in one step and from there. -/
theorem accepts_cons {s s' : σ} {a : α} {w : List α} (h : Accepts consume s (a :: w) s') :
    (∃ s'', consume s a = (.indeterminate, s'') ∧ Accepts consume s'' w s') ∨
      consume s a = (.complete, s') ∧ w = [] := by
  unfold Accepts at h
  rcases hstep : consume s a with ⟨status, s''⟩
  cases status with
  | indeterminate =>
    rw [scan_cons_indeterminate hstep] at h
    exact .inl ⟨s'', rfl, h⟩
  | _ =>
    rw [scan_cons_stop hstep (by decide), Prod.mk.injEq, Prod.mk.injEq] at h
    obtain ⟨hstatus, rfl, rfl⟩ := h
    cases hstatus <;> exact .inr ⟨rfl, rfl⟩

theorem not_accepts_nil {s s' : σ} : ¬ Accepts consume s [] s' := fun h => by cases h

theorem not_accepts_of_invalid {s s'' s' : σ} {a : α} {w : List α}
    (h : consume s a = (.invalid, s'')) :
    ¬ Accepts consume s (a :: w) s' := by
  intro hw
  rcases accepts_cons hw with ⟨s₁, hgoes, -⟩ | ⟨hstop, -⟩
  · rw [h] at hgoes
    cases hgoes
  · rw [h] at hstop
    cases hstop

theorem accepts_of_indeterminate {s s'' s' : σ} {a : α} {w : List α}
    (h : consume s a = (.indeterminate, s''))
    (hw : Accepts consume s (a :: w) s') : Accepts consume s'' w s' := by
  unfold Accepts at hw ⊢
  rwa [scan_cons_indeterminate h] at hw

/-- Where tokens end is determined. -/
theorem tokens_unique {token : α → Bool} {c : α} (hc : token c = false) {as bs v w : List α}
    (has : ∀ a ∈ as, token a = true) (hbs : ∀ b ∈ bs, token b = true)
    (h : as ++ c :: v = bs ++ c :: w) :
    as = bs ∧ v = w := by
  induction as generalizing bs with
  | nil =>
    cases bs with
    | nil => exact ⟨rfl, (List.cons.inj h).2⟩
    | cons b bs =>
      have hb := hbs b mem_cons_self
      rw [← (List.cons.inj h).1, hc] at hb
      cases hb
  | cons a as ih =>
    cases bs with
    | nil =>
      have ha := has a mem_cons_self
      rw [(List.cons.inj h).1, hc] at ha
      cases ha
    | cons b bs =>
      obtain ⟨rfl, htail⟩ := List.cons.inj h
      obtain ⟨rfl, rfl⟩ := ih (fun x hx => has x (mem_cons_of_mem _ hx))
        (fun x hx => hbs x (mem_cons_of_mem _ hx)) htail
      exact ⟨rfl, rfl⟩

/-! ## Loops -/

/-- States that differ in what they have collected: they collect what `token` says and go on from
there. -/
def Collects (consume : σ → α → ScanStatus × σ) (token : α → Bool) (state : List α → σ) : Prop :=
  ∀ taken a, token a = true → consume (state taken) a = (.indeterminate, state (taken ++ [a]))

/-- A loop takes all tokens. -/
theorem Collects.scan_append {token : α → Bool} {state : List α → σ}
    (h : Collects consume token state)
    {tokens : List α} (htokens : ∀ a ∈ tokens, token a = true) (taken w : List α) :
    scan consume (state taken) (tokens ++ w) = scan consume (state (taken ++ tokens)) w := by
  induction tokens generalizing taken with
  | nil => rw [append_nil]; rfl
  | cons a tokens ih =>
    rw [cons_append, scan_cons_indeterminate (h taken a (htokens a mem_cons_self)), ih fun b hb =>
      htokens b (mem_cons_of_mem _ hb), append_assoc, singleton_append]

/-- What is accepted in a loop begins with tokens and goes on with something else. -/
theorem Collects.accepts {token : α → Bool} {state : List α → σ} (h : Collects consume token state)
    (taken : List α) {w : List α} {s' : σ} (hw : Accepts consume (state taken) w s') :
    ∃ tokens a w', w = tokens ++ a :: w' ∧ (∀ b ∈ tokens, token b = true) ∧ token a = false ∧
      Accepts consume (state (taken ++ tokens)) (a :: w') s' := by
  induction w generalizing taken with
  | nil => exact absurd hw not_accepts_nil
  | cons a w ih =>
    cases htoken : token a with
    | false =>
      exact ⟨[], a, w, rfl, fun b hb => (by cases hb), htoken,
      (append_nil taken).symm ▸ hw⟩
    | true =>
      have hnext : Accepts consume (state (taken ++ [a])) w s' :=
        accepts_of_indeterminate (h taken a htoken) hw
      obtain ⟨tokens, b, w', rfl, htokens, hb, hrest⟩ := ih _ hnext
      refine ⟨a :: tokens, b, w', rfl, fun c hc => ?_, hb, ?_⟩
      · rcases mem_cons.mp hc with rfl | hc
        · exact htoken
        · exact htokens c hc
      · rwa [append_assoc, singleton_append] at hrest

/-- A loop that one element ends. -/
structure LoopUntil [DecidableEq α] (consume : σ → α → ScanStatus × σ) (token : α → Bool)
    (state : List α → σ) (c : α)
    (next : List α → σ) : Prop where
  step : ∀ taken a, consume (state taken) a =
    if a = c then (.indeterminate, next taken)
    else if token a = true then (.indeterminate, state (taken ++ [a])) else (.invalid, state taken)
  token_end : token c = false

namespace LoopUntil

variable [DecidableEq α] {token : α → Bool} {state next : List α → σ} {c : α}

section

variable (h : LoopUntil consume token state c next)

include h

theorem collects : Collects consume token state := by
  intro taken a ha
  have hne : a ≠ c := by
    rintro rfl
    rw [h.token_end] at ha
    cases ha
  rw [h.step, if_neg hne, if_pos ha]

theorem scan_append {tokens : List α} (htokens : ∀ a ∈ tokens, token a = true) (taken w : List α) :
    scan consume (state taken) (tokens ++ c :: w) = scan consume (next (taken ++ tokens)) w := by
  rw [h.collects.scan_append htokens]
  exact scan_cons_indeterminate (by rw [h.step, if_pos rfl]) w

theorem accepts {taken w : List α} {s' : σ} (hw : Accepts consume (state taken) w s') :
    ∃ tokens w', w = tokens ++ c :: w' ∧ (∀ b ∈ tokens, token b = true) ∧
      Accepts consume (next (taken ++ tokens)) w' s' := by
  obtain ⟨tokens, a, w', rfl, htokens, ha, hrest⟩ := h.collects.accepts taken hw
  have hstep := h.step (taken ++ tokens) a
  by_cases hc : a = c
  · subst hc
    rw [if_pos rfl] at hstep
    exact ⟨tokens, w', rfl, htokens, accepts_of_indeterminate hstep hrest⟩
  · rw [if_neg hc, if_neg (by rw [ha]; decide)] at hstep
    exact absurd hrest (not_accepts_of_invalid hstep)

end

end LoopUntil

/-- A state in which a loop begins with its first token. -/
def Begins (consume : σ → α → ScanStatus × σ) (token : α → Bool) (s : σ) (state : List α → σ) :
    Prop :=
  ∀ a, consume s a = if token a = true then (.indeterminate, state [a]) else (.invalid, s)

namespace Begins

variable [DecidableEq α] {token : α → Bool} {s s' : σ} {state next : List α → σ} {c : α}

theorem scan_append (h : Begins consume token s state)
    (hloop : LoopUntil consume token state c next)
    {tokens : List α} (hne : tokens ≠ []) (htokens : ∀ a ∈ tokens, token a = true) (w : List α) :
    scan consume s (tokens ++ c :: w) = scan consume (next tokens) w := by
  cases tokens with
  | nil => exact absurd rfl hne
  | cons a tokens =>
    have hfirst := (h a).trans (if_pos (htokens a mem_cons_self))
    rw [cons_append, scan_cons_indeterminate hfirst,
      hloop.scan_append fun b hb => htokens b (mem_cons_of_mem _ hb)]
    rfl

theorem accepts (h : Begins consume token s state) (hloop : LoopUntil consume token state c next)
    {w : List α} (hw : Accepts consume s w s') :
    ∃ tokens w', w = tokens ++ c :: w' ∧ tokens ≠ [] ∧ (∀ b ∈ tokens, token b = true) ∧
      Accepts consume (next tokens) w' s' := by
  cases w with
  | nil => exact absurd hw not_accepts_nil
  | cons a w =>
    have hfirst := h a
    cases ha : token a with
    | false =>
      rw [if_neg (by rw [ha]; decide)] at hfirst
      exact absurd hw (not_accepts_of_invalid hfirst)
    | true =>
      rw [if_pos ha] at hfirst
      obtain ⟨tokens, w', rfl, htokens, hrest⟩ :=
        hloop.accepts (accepts_of_indeterminate hfirst hw)
      refine ⟨a :: tokens, w', rfl, cons_ne_nil _ _, fun b hb => ?_, hrest⟩
      rcases mem_cons.mp hb with rfl | hb
      · exact ha
      · exact htokens b hb

end Begins


/-- A state in which one element is expected. -/
def Expects [DecidableEq α] (consume : σ → α → ScanStatus × σ) (s : σ) (c : α) (next : σ) : Prop :=
  ∀ a, consume s a = if a = c then (.indeterminate, next) else (.invalid, s)

namespace Expects

variable [DecidableEq α] {s next s' : σ} {c : α} {w : List α}

theorem scan_cons (h : Expects consume s c next) (w : List α) :
    scan consume s (c :: w) = scan consume next w :=
  scan_cons_indeterminate ((h c).trans (if_pos rfl)) w

theorem accepts (h : Expects consume s c next) (hw : Accepts consume s w s') :
    ∃ w', w = c :: w' ∧ Accepts consume next w' s' := by
  cases w with
  | nil => exact absurd hw not_accepts_nil
  | cons a w =>
    by_cases hc : a = c
    · subst hc
      exact ⟨w, rfl, accepts_of_indeterminate ((h a).trans (if_pos rfl)) hw⟩
    · exact absurd hw (not_accepts_of_invalid ((h a).trans (if_neg hc)))

end Expects

/-! ## Scanners and languages -/

/-- The status that a language asks for: success at an element of the language, failure at the first
element after which none can follow. -/
def Judged (L : List α → Prop) (w : List α) : ScanStatus → List α → Prop
  | .complete, rest => ∃ u, w = u ++ rest ∧ L u
  | .invalid, rest =>
    (∀ v, v <+: w → ¬ L v) ∧ ∃ u a, w = u ++ a :: rest ∧ (∃ more, L (u ++ more)) ∧
      ∀ more, ¬ L (u ++ a :: more)
  | .indeterminate, rest => (∀ v, v <+: w → ¬ L v) ∧ rest = [] ∧ ∃ more, L (w ++ more)

/-- A scanner is as the language asks, if it accepts what is in the language, and of the input only
that, and if what it has taken of the input without stopping can be continued. -/
theorem judged_scan {L : List α → Prop} {s : σ} {w : List α}
    (hcomplete : ∀ u, L u → ∃ s', Accepts consume s u s')
    (hsound : ∀ u s', u <+: w → Accepts consume s u s' → L u)
    (hmore : ∀ u s', u <+: w → scan consume s u = (.indeterminate, s', []) →
      ∃ more, L (u ++ more)) :
    Judged L w (scan consume s w).1 (scan consume s w).2.2 := by
  rcases h : scan consume s w with ⟨status, s', rest⟩
  -- an element of the language before the end of the scan would have ended it
  have hnone : ∀ v, status ≠ .complete → v <+: w → ¬ L v := by
    rintro v hstatus ⟨after, rfl⟩ hv
    obtain ⟨s'', hv⟩ := hcomplete v hv
    rw [hv.append] at h
    exact hstatus (Prod.ext_iff.mp h).1.symm
  cases status with
  | complete =>
    obtain ⟨u, rfl, hu⟩ := accepts_of_complete h
    exact ⟨u, rfl, hsound u s' (prefix_append _ _) hu⟩
  | invalid =>
    obtain ⟨u, a, s'', rfl, hu, ha⟩ := exists_stop (by decide) h
    refine ⟨fun v => hnone v (by decide), u, a, rfl, hmore u s'' (prefix_append _ _) hu,
      fun more hin => ?_⟩
    obtain ⟨s₁, hin⟩ := hcomplete _ hin
    have hstop := scan_concat hu ha more (by decide)
    rw [show scan consume s (u ++ a :: more) = _ from hin] at hstop
    cases hstop
  | indeterminate =>
    obtain rfl := rest_eq_nil h
    exact ⟨fun v => hnone v (by decide), rfl, hmore w s' (prefix_refl _) h⟩

/-- A scanner that has not stopped where it should have is not as the language asks. -/
theorem not_judged_scan {L : List α → Prop} {s s' : σ} {u w : List α}
    (hu : scan consume s u = (.indeterminate, s', []))
    (hpre : u <+: w) (hnone : ∀ more, ¬ L (u ++ more)) :
    ¬ Judged L w (scan consume s w).1 (scan consume s w).2.2 := by
  obtain ⟨v, rfl⟩ := hpre
  have hscan : scan consume s (u ++ v) = scan consume s' v := by
    rw [Common.scan_append, hu]
  rw [hscan]
  rcases h : scan consume s' v with ⟨status, s'', rest⟩
  cases status with
  | indeterminate =>
    rintro ⟨-, -, more, hmore⟩
    rw [append_assoc] at hmore
    exact hnone _ hmore
  | complete =>
    obtain ⟨v₁, a, -, rfl, -, -⟩ := exists_stop (by decide) h
    rintro ⟨u', heq, hin⟩
    have heq' : u' = u ++ (v₁ ++ [a]) := by
      have hboth : u ++ (v₁ ++ [a]) ++ rest = u' ++ rest := by
        rw [← heq, append_assoc, append_assoc]
        rfl
      exact (append_cancel_right hboth).symm
    exact hnone _ (heq' ▸ hin)
  | invalid =>
    obtain ⟨v₁, a, -, rfl, -, -⟩ := exists_stop (by decide) h
    rintro ⟨-, u', b, heq, ⟨more, hin⟩, -⟩
    have hboth : u ++ v₁ ++ a :: rest = u' ++ b :: rest := by rw [append_assoc, heq]
    have heq' : u ++ v₁ = u' := (append_inj' hboth rfl).1
    rw [← heq', append_assoc] at hin
    exact hnone _ hin

end Idgs.Common
