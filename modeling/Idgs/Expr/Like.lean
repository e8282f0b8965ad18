import Idgs.Common.Text
import Idgs.Expr.Evaluation

/-!
# LIKE

A pattern is compared by its first and its last character: what lies between wildcards at the ends
is searched for as it is. Where only the first character is a wildcard, the position to compare at
is a difference of unsigned lengths.
-/

namespace Idgs.Expr

open List

open Common (Text.find Text.compareEq)

/-! ## Evaluation -/

/-- The comparison in `LikeExpression::evaluate`; `none` when it throws. -/
def like (lstr rstr : List Char) : Option Bool :=
  if rstr = [] then some (decide (lstr = rstr))
  else if rstr = ['%'] ∨ rstr = ['%', '%'] then some true
  else
    let fst := rstr.head?
    let lst := rstr.getLast?
    if fst = some '%' ∧ lst = some '%' then
      let rstr := (rstr.drop 1).take (rstr.length - 2)
      some (Text.find lstr rstr 0).isSome
    else if fst = some '%' then
      let rstr := rstr.drop 1
      -- A shorter text makes `lstr.size() - rstr.size()` wrap around, to a position behind the end.
      if rstr.length ≤ lstr.length then
        Text.compareEq lstr (lstr.length - rstr.length) rstr.length rstr else none
    else if lst = some '%' then
      let rstr := rstr.take (rstr.length - 1)
      Text.compareEq lstr 0 rstr.length rstr
    else some (decide (lstr = rstr))

/-- `LikeExpression::evaluate`. -/
def evaluateLike (children : List (Option PbVariant)) : Option PbVariant :=
  (operand children 0).bind fun lvar => (operand children 1).bind fun rvar =>
    (like lvar.value.toText.toList rvar.value.toText.toList).map .ofBool

/-! ## Matching -/

/-- A text matches a pattern: a wildcard stands for any text, any other character for itself. -/
def Matches : List Char → List Char → Prop
  | [], s => s = []
  | c :: pattern, s =>
    if c = '%' then ∃ t u, s = t ++ u ∧ Matches pattern u else ∃ u, s = c :: u ∧ Matches pattern u

/-- Every character stands for itself, the wildcard too. -/
theorem matches_self (pattern : List Char) : Matches pattern pattern := by
  induction pattern with
  | nil => rfl
  | cons c pattern ih =>
    unfold Matches
    split
    · exact ⟨[c], pattern, rfl, ih⟩
    · exact ⟨pattern, rfl, ih⟩

theorem matches_append {p q s : List Char} :
    Matches (p ++ q) s ↔ ∃ t u, s = t ++ u ∧ Matches p t ∧ Matches q u := by
  induction p generalizing s with
  | nil =>
    constructor
    · intro h
      exact ⟨[], s, rfl, rfl, h⟩
    · rintro ⟨t, u, rfl, rfl, h⟩
      exact h
  | cons c p ih =>
    rw [cons_append]
    simp only [Matches]
    by_cases hwild : c = '%'
    · simp only [hwild, if_pos, ih]
      constructor
      · rintro ⟨t, u, rfl, u₁, u₂, rfl, hp, hq⟩
        exact ⟨t ++ u₁, u₂, (append_assoc _ _ _).symm, ⟨t, u₁, rfl, hp⟩, hq⟩
      · rintro ⟨t, u, rfl, ⟨t₁, t₂, rfl, hp⟩, hq⟩
        exact ⟨t₁, t₂ ++ u, append_assoc _ _ _, t₂, u, rfl, hp, hq⟩
    · simp only [hwild, if_false, ih]
      constructor
      · rintro ⟨u, rfl, u₁, u₂, rfl, hp, hq⟩
        exact ⟨c :: u₁, u₂, rfl, ⟨u₁, rfl, hp⟩, hq⟩
      · rintro ⟨t, u, rfl, ⟨t', rfl, hp⟩, hq⟩
        exact ⟨t' ++ u, rfl, t', u, rfl, hp, hq⟩

theorem matches_wildcard (s : List Char) : Matches ['%'] s := by
  unfold Matches
  rw [if_pos rfl]
  exact ⟨s, [], (append_nil s).symm, rfl⟩

/-- Without wildcards, a pattern is matched by itself only. -/
theorem matches_literal {pattern s : List Char} (h : '%' ∉ pattern) :
    Matches pattern s ↔ s = pattern := by
  induction pattern generalizing s with
  | nil => exact Iff.rfl
  | cons c pattern ih =>
    rw [mem_cons, not_or] at h
    obtain ⟨hc, hrest⟩ := h
    unfold Matches
    rw [if_neg fun heq => hc heq.symm]
    constructor
    · rintro ⟨u, rfl, hu⟩
      rw [(ih hrest).mp hu]
    · rintro rfl
      exact ⟨pattern, rfl, (ih hrest).mpr rfl⟩

/-! ## What the comparison finds -/

/-- The pattern without a wildcard at its start and one at its end. -/
def inner (pattern : List Char) : List Char :=
  let rest := if pattern.head? = some '%' then pattern.tail else pattern
  if rest.getLast? = some '%' then rest.dropLast else rest

/-- Matching where only a wildcard at the start and one at the end stand for any text. -/
def MatchesEnds (pattern s : List Char) : Prop :=
  ∃ a b, s = a ++ inner pattern ++ b ∧ (pattern.head? ≠ some '%' → a = []) ∧
    (pattern.getLast? ≠ some '%' → b = [])

/-- The text is shorter than what must be at its end. -/
def TooShort (pattern s : List Char) : Prop :=
  pattern.head? = some '%' ∧ pattern.getLast? ≠ some '%' ∧ s.length < (inner pattern).length

theorem exists_shape (pattern : List Char) :
    pattern = [] ∨ (∃ c, pattern = [c]) ∨ ∃ c mid d, pattern = c :: (mid ++ [d]) := by
  rcases pattern with _ | ⟨c, rest⟩
  · exact .inl rfl
  · rcases eq_nil_or_concat rest with rfl | ⟨mid, d, rfl⟩
    · exact .inr (.inl ⟨c, rfl⟩)
    · exact .inr (.inr ⟨c, mid, d, by rw [concat_eq_append]⟩)

theorem getLast?_shape (c d : Char) (mid : List Char) : (c :: (mid ++ [d])).getLast? = some d := by
  rw [← cons_append, getLast?_append]
  rfl

theorem shape_ne_wildcards {c d : Char} {mid : List Char} (h : c ≠ '%' ∨ d ≠ '%') :
    ¬ (c :: (mid ++ [d]) = ['%'] ∨ c :: (mid ++ [d]) = ['%', '%']) := by
  intro heq
  have hhead : c = '%' := by
    rcases heq with heq | heq <;> exact (List.cons.inj heq).1
  have hlast : some d = some '%' := by
    rw [← getLast?_shape c d mid]
    rcases heq with heq | heq <;> rw [heq] <;> rfl
  exact h.elim (fun hc => hc hhead) fun hd => hd (Option.some.inj hlast)

theorem inner_shape (c d : Char) (mid : List Char) : inner (c :: (mid ++ [d])) =
    (if c = '%' then [] else [c]) ++ mid ++ if d = '%' then [] else [d] := by
  unfold inner
  by_cases hc : c = '%'
  · simp only [hc, head?_cons, if_true, tail_cons, getLast?_concat, Option.some.injEq, nil_append]
    by_cases hd : d = '%'
    · rw [if_pos hd, if_pos hd, dropLast_concat, append_nil]
    · rw [if_neg hd, if_neg hd]
  · simp only [head?_cons, Option.some.injEq, if_neg hc, getLast?_shape]
    by_cases hd : d = '%'
    · rw [if_pos hd, if_pos hd, ← cons_append, dropLast_concat, append_nil]
      rfl
    · rw [if_neg hd, if_neg hd]
      rfl

/-- What the comparison looks for always matches the pattern. -/
theorem MatchesEnds.matches {pattern s : List Char} (h : MatchesEnds pattern s) :
    Matches pattern s := by
  obtain ⟨a, b, rfl, ha, hb⟩ := h
  rcases exists_shape pattern with rfl | ⟨c, rfl⟩ | ⟨c, mid, d, rfl⟩
  · rw [ha (by simp), hb (by simp)]
    rfl
  · by_cases hc : c = '%'
    · rw [hc]
      exact matches_wildcard _
    · rw [ha (by simp [hc]), hb (by simp [hc])]
      simpa [inner, hc] using matches_self [c]
  · rw [getLast?_shape] at hb
    rw [inner_shape]
    refine matches_append (p := [c]) |>.mpr
      ⟨a ++ if c = '%' then [] else [c], mid ++ (if d = '%' then [] else [d]) ++ b,
      by simp, ?_,
      matches_append.mpr ⟨mid, (if d = '%' then [] else [d]) ++ b, by simp, matches_self mid, ?_⟩⟩
    · by_cases hc : c = '%'
      · rw [hc]
        exact matches_wildcard _
      · rw [ha (by simpa using hc), if_neg hc]
        exact matches_self [c]
    · by_cases hd : d = '%'
      · rw [hd]
        exact matches_wildcard _
      · rw [hb (by simpa using hd), if_neg hd]
        exact matches_self [d]

/-- A pattern with wildcards at its ends only is matched by nothing else. -/
theorem Matches.matchesEnds {pattern s : List Char} (hinner : '%' ∉ inner pattern)
    (h : Matches pattern s) :
    MatchesEnds pattern s := by
  rcases exists_shape pattern with rfl | ⟨c, rfl⟩ | ⟨c, mid, d, rfl⟩
  · exact ⟨[], [], h, fun _ => rfl, fun _ => rfl⟩
  · by_cases hc : c = '%'
    · exact ⟨s, [], by simp [inner, hc], fun hne => absurd (by simp [hc]) hne, fun _ => rfl⟩
    · have hs : s = [c] := (matches_literal (by simpa [eq_comm] using hc)).mp h
      exact ⟨[], [], by simp [inner, hc, hs], fun _ => rfl, fun _ => rfl⟩
  · rw [inner_shape] at hinner
    have hmid : '%' ∉ mid := fun hmem => hinner (by simp [hmem])
    obtain ⟨t, u, rfl, ht, hu⟩ := matches_append (p := [c]).mp h
    obtain ⟨u, v, rfl, hu, hv⟩ := matches_append.mp hu
    rw [(matches_literal hmid).mp hu]
    refine ⟨if c = '%' then t else [], if d = '%' then v else [], ?_, fun hne =>
      if_neg (by simpa using hne),
      fun hne => if_neg (by simpa [getLast?_shape] using hne)⟩
    rw [inner_shape]
    have ht' : t = (if c = '%' then t else []) ++ if c = '%' then [] else [c] := by
      by_cases hc : c = '%'
      · simp [hc]
      · simpa [hc] using (matches_literal (by simpa [eq_comm] using hc)).mp ht
    have hv' : v = (if d = '%' then [] else [d]) ++ if d = '%' then v else [] := by
      by_cases hd : d = '%'
      · simp [hd]
      · simpa [hd] using (matches_literal (by simpa [eq_comm] using hd)).mp hv
    calc t ++ (mid ++ v) = ((if c = '%' then t else []) ++ if c = '%' then [] else [c]) ++
          (mid ++ ((if d = '%' then [] else [d]) ++ if d = '%' then v else [])) := by
          rw [← ht', ← hv']
      _ = _ := by simp only [append_assoc]

/-- The comparison throws exactly where the text is too short. -/
theorem like_of_tooShort {pattern s : List Char} (h : TooShort pattern s) :
    like s pattern = none := by
  obtain ⟨hhead, hlast, hshort⟩ := h
  rcases exists_shape pattern with rfl | ⟨c, rfl⟩ | ⟨c, mid, d, rfl⟩
  · simp at hhead
  · exact absurd hhead (by simpa using hlast)
  · rw [getLast?_shape] at hlast
    have hc : c = '%' := by simpa using hhead
    have hd : d ≠ '%' := by simpa using hlast
    rw [inner_shape, if_pos hc, if_neg hd] at hshort
    unfold like
    rw [if_neg (cons_ne_nil _ _), if_neg (shape_ne_wildcards (.inr hd))]
    simp only [getLast?_shape, head?_cons, hc, hd, Option.some.injEq, and_false, if_false,
      if_true, drop_succ_cons, drop_zero]
    exact if_neg (by simpa using hshort)

/-- Otherwise it finds what it looks for. -/
theorem like_of_not_tooShort {pattern s : List Char} (h : ¬ TooShort pattern s) :
    ∃ b, like s pattern = some b ∧ (b = true ↔ MatchesEnds pattern s) := by
  rcases exists_shape pattern with rfl | ⟨c, rfl⟩ | ⟨c, mid, d, rfl⟩
  · refine ⟨decide (s = []), rfl, decide_eq_true_iff.trans ⟨?_, ?_⟩⟩
    · rintro rfl
      exact ⟨[], [], rfl, fun _ => rfl, fun _ => rfl⟩
    · rintro ⟨a, b, rfl, ha, hb⟩
      rw [ha (by simp), hb (by simp)]
      rfl
  · by_cases hc : c = '%'
    · subst hc
      exact ⟨true, rfl, iff_of_true rfl
        ⟨s, [], by simp [inner], fun hne => absurd rfl hne, fun _ => rfl⟩⟩
    · refine ⟨decide (s = [c]), ?_, decide_eq_true_iff.trans ⟨?_, ?_⟩⟩
      · simp [like, hc]
      · rintro rfl
        exact ⟨[], [], by simp [inner, hc], fun _ => rfl, fun _ => rfl⟩
      · rintro ⟨a, b, rfl, ha, hb⟩
        rw [ha (by simp [hc]), hb (by simp [hc])]
        simp [inner, hc]
  · have hends : MatchesEnds (c :: (mid ++ [d])) s ↔
      ∃ a b, s = a ++ ((if c = '%' then [] else [c]) ++ mid ++
        if d = '%' then [] else [d]) ++ b ∧ (c ≠ '%' → a = []) ∧ (d ≠ '%' → b = []) := by
      simp only [MatchesEnds, inner_shape, getLast?_shape, head?_cons, ne_eq, Option.some.injEq]
    rw [hends]
    by_cases hc : c = '%'
    · by_cases hd : d = '%'
      · subst hc hd
        simp only [if_true, nil_append, append_nil, ne_eq, not_true_eq_false,
          false_implies, and_true]
        by_cases hmid : mid = []
        · subst hmid
          exact ⟨true, rfl, iff_of_true rfl ⟨s, [], by simp⟩⟩
        · refine ⟨(Text.find s mid 0).isSome, ?_, ?_⟩
          · unfold like
            rw [if_neg (cons_ne_nil _ _), if_neg (by
              rintro (heq | heq)
              · simp at heq
              · exact hmid (append_left_injective ['%'] (List.cons.inj heq).2))]
            simp [getLast?_shape]
          · rw [Common.Text.find_zero, Common.Text.isSome_indexOf]
            exact exists_congr fun a => exists_congr fun b => eq_comm
      · rw [TooShort, getLast?_shape, inner_shape, if_pos hc, if_neg hd] at h
        have hlength : (mid ++ [d]).length ≤ s.length := by
          refine not_lt.mp fun hshort => h ⟨by simp [hc], by simpa using hd, by simpa using hshort⟩
        refine ⟨decide (mid ++ [d] <:+ s), ?_, decide_eq_true_iff.trans ?_⟩
        · unfold like
          rw [if_neg (cons_ne_nil _ _), if_neg (shape_ne_wildcards (.inr hd))]
          simp only [getLast?_shape, head?_cons, hc, hd, Option.some.injEq, and_false,
            if_false, if_true, drop_succ_cons, drop_zero]
          rw [if_pos hlength, Text.compareEq, if_pos (Nat.sub_le _ _)]
          have hall : (s.drop (s.length - (mid ++ [d]).length)).take (mid ++ [d]).length =
              s.drop (s.length - (mid ++ [d]).length) := by
            refine take_of_length_le ?_
            rw [length_drop]
            omega
          refine congrArg some (decide_eq_decide.mpr ?_)
          rw [hall, suffix_iff_eq_drop]
          exact eq_comm
        · simp only [hc, hd, if_true, if_false, nil_append, ne_eq, not_true_eq_false,
            false_implies, not_false_eq_true, true_implies, true_and]
          constructor
          · rintro ⟨a, rfl⟩
            exact ⟨a, [], by simp, rfl⟩
          · rintro ⟨a, b, rfl, rfl⟩
            exact ⟨a, by simp⟩
    · by_cases hd : d = '%'
      · refine ⟨decide (c :: mid <+: s), ?_, decide_eq_true_iff.trans ?_⟩
        · have htake : (c :: (mid ++ [d])).take ((c :: (mid ++ [d])).length - 1) = c :: mid := by
            rw [← dropLast_eq_take, ← cons_append, dropLast_concat]
          unfold like
          rw [if_neg (cons_ne_nil _ _), if_neg (shape_ne_wildcards (.inl hc))]
          simp only [htake]
          simp only [getLast?_shape, head?_cons, hc, hd, Option.some.injEq, false_and,
            if_false, if_true]
          rw [Text.compareEq, if_pos (Nat.zero_le _), drop_zero]
          refine congrArg some (decide_eq_decide.mpr ?_)
          rw [prefix_iff_eq_take]
          exact eq_comm
        · simp only [hc, hd, if_true, if_false, ne_eq, not_true_eq_false, false_implies,
            not_false_eq_true, true_implies, and_true, append_nil]
          constructor
          · rintro ⟨b, rfl⟩
            exact ⟨[], b, by simp, rfl⟩
          · rintro ⟨a, b, rfl, rfl⟩
            exact ⟨b, by simp⟩
      · refine ⟨decide (s = c :: (mid ++ [d])), ?_, decide_eq_true_iff.trans ?_⟩
        · unfold like
          rw [if_neg (cons_ne_nil _ _), if_neg (shape_ne_wildcards (.inl hc))]
          simp only [getLast?_shape, head?_cons, hc, hd, Option.some.injEq, false_and, if_false]
        · simp only [hc, hd, if_false, ne_eq, not_false_eq_true, true_implies]
          constructor
          · rintro rfl
            exact ⟨[], [], by simp, rfl, rfl⟩
          · rintro ⟨a, b, rfl, rfl, rfl⟩
            simp

/-! ## The claim on single inputs -/

/-- `LIKE` of two texts has a value, which says whether the text matches the pattern. -/
def LikeRight (s pattern : String) : Prop :=
  ∃ b, evaluateLike [some { value := .string s }, some { value := .string pattern }] =
    some (.ofBool b) ∧
    (b = true ↔ Matches pattern.toList s.toList)

end Idgs.Expr
