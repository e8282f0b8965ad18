import Idgs.Common.Text

/-!
# REGEXP_REPLACE

The loop looks for a match in what is left of the subject, and replaces the first occurrence of the
matched text in the result so far. That is the match itself where nothing earlier has the same text.
A match of the empty text at the start of what is left is found again and again.
-/

namespace Idgs.Expr

open List

open Common (Text.indexOf Text.indexOf_eq_some Text.exists_indexOf)

/-! ## Evaluation -/

/-- A compiled pattern: `regexec` on a text gives `rm_so` and `rm_eo` of the match that it finds. -/
structure Regex where
  exec : List Char → Option (ℕ × ℕ)
  within : ∀ {value rm_so rm_eo}, exec value = some (rm_so, rm_eo) →
    rm_so ≤ rm_eo ∧ rm_eo ≤ value.length

/-- The loop of `RegExpReplaceExpression::evaluate`. The outer `none` is a loop that has not ended,
the inner one that `std::string::replace` has thrown. -/
def replaceLoop (reg : Regex) (replace : List Char) :
    ℕ → (value result : List Char) → Option (Option (List Char))
  | 0, _, _ => none
  | fuel + 1, value, result =>
    match reg.exec value with
    | none => some (some result)
    | some (rm_so, rm_eo) =>
      let replaced := (value.drop rm_so).take (rm_eo - rm_so)
      match Text.indexOf replaced result with
      | none => some none
      | some pos =>
        let result := result.take pos ++ replace ++ result.drop (pos + replaced.length)
        if value.length ≤ rm_eo then some (some result)
        else replaceLoop reg replace fuel (value.drop rm_eo) result

/-- `RegExpReplaceExpression::evaluate`; a pattern that `regcomp` does not take replaces nothing. -/
def regExpReplace (regcomp : List Char → Option Regex) (fuel : ℕ)
    (value pattern replace : List Char) :
    Option (Option (List Char)) :=
  match regcomp pattern with
  | none => some (some value)
  | some reg => replaceLoop reg replace fuel value value

/-! ## Replacing in place -/

/-- Every match in turn is replaced where it is; behind an empty one, the search goes on after the
next character. A match that reaches the end is the last one. -/
def replaceAll (reg : Regex) (replace value : List Char) : List Char :=
  match reg.exec value with
  | none => value
  | some (rm_so, rm_eo) =>
    if rm_eo < value.length then
      if rm_so < rm_eo then value.take rm_so ++ replace ++
        replaceAll reg replace (value.drop rm_eo)
      else value.take rm_so ++ replace ++ (value.drop rm_eo).take 1 ++
        replaceAll reg replace (value.drop (rm_eo + 1))
    else value.take rm_so ++ replace
termination_by value.length
decreasing_by
  · rw [List.length_drop]
    omega
  · rw [List.length_drop]
    omega

variable {reg : Regex} {replace value subject : List Char} {rm_so rm_eo : ℕ}

theorem replaceAll_of_none (h : reg.exec value = none) : replaceAll reg replace value = value := by
  rw [replaceAll, h]

theorem replaceAll_of_end (h : reg.exec value = some (rm_so, rm_eo)) (hend : value.length ≤ rm_eo) :
    replaceAll reg replace value = value.take rm_so ++ replace := by
  rw [replaceAll, h]
  exact if_neg (Nat.not_lt.mpr hend)

theorem replaceAll_of_next (h : reg.exec value = some (rm_so, rm_eo)) (hend : rm_eo < value.length)
    (hmatch : rm_so < rm_eo) : replaceAll reg replace value =
      value.take rm_so ++ replace ++ replaceAll reg replace (value.drop rm_eo) := by
  rw [replaceAll, h]
  simp only [hend, hmatch, if_true]

theorem replaceAll_of_empty (h : reg.exec value = some (rm_so, rm_so))
    (hend : rm_so < value.length) :
    replaceAll reg replace value =
      value.take rm_so ++ replace ++ (value.drop rm_so).take 1 ++ replaceAll reg replace
      (value.drop (rm_so + 1)) := by
  rw [replaceAll, h]
  simp only [hend, lt_irrefl, if_true, if_false]

/-- Behind the last replacement is less than what was left behind the first match. -/
theorem exists_tail (replace : List Char) (h : reg.exec value = some (rm_so, rm_eo)) :
    ∃ before after, replaceAll reg replace value = before ++ replace ++ after ∧
      after.length + rm_eo ≤ value.length := by
  induction hlength : value.length using Nat.strong_induction_on generalizing value rm_so rm_eo with
  | _ n ih =>
    subst hlength
    obtain ⟨hle, hwithin⟩ := reg.within h
    rcases Nat.lt_or_ge rm_eo value.length with hend | hend
    · rcases Nat.lt_or_ge rm_so rm_eo with hmatch | hempty
      · rw [replaceAll_of_next h hend hmatch]
        cases hrest : reg.exec (value.drop rm_eo) with
        | none =>
          refine ⟨value.take rm_so, value.drop rm_eo, by rw [replaceAll_of_none hrest], ?_⟩
          rw [length_drop]
          omega
        | some next =>
          obtain ⟨before, after, heq, hafter⟩ :=
            ih (value.drop rm_eo).length (by rw [length_drop]; omega) hrest rfl
          rw [length_drop] at hafter
          exact ⟨value.take rm_so ++ replace ++ before,
            after, by rw [heq]; simp only [append_assoc], by omega⟩
      · obtain rfl : rm_so = rm_eo := Nat.le_antisymm hle hempty
        rw [replaceAll_of_empty h hend]
        cases hrest : reg.exec (value.drop (rm_so + 1)) with
        | none =>
          refine ⟨value.take rm_so, value.drop rm_so, ?_, ?_⟩
          · rw [replaceAll_of_none hrest, append_assoc, append_assoc,
              append_assoc, ← drop_drop, take_append_drop]
          · rw [length_drop]
            omega
        | some next =>
          obtain ⟨before, after, heq, hafter⟩ :=
            ih (value.drop (rm_so + 1)).length (by rw [length_drop]; omega) hrest rfl
          rw [length_drop] at hafter
          exact ⟨value.take rm_so ++ replace ++ (value.drop rm_so).take 1 ++ before, after,
            by rw [heq]; simp only [append_assoc], by omega⟩
    · refine ⟨value.take rm_so, [], by rw [replaceAll_of_end h hend, append_nil], ?_⟩
      rw [length_nil]
      omega

/-! ## The loop -/

/-- The loop finds the text of every match first at the match itself, behind what is done. -/
inductive FoundInPlace (reg : Regex) (replace : List Char) : (done value : List Char) → Prop
  | none {done value} (h : reg.exec value = none) : FoundInPlace reg replace done value
  | last {done value rm_so rm_eo} (h : reg.exec value = some (rm_so, rm_eo))
      (hend : value.length ≤ rm_eo)
      (hfound : Text.indexOf ((value.drop rm_so).take (rm_eo - rm_so)) (done ++ value) =
        some (done.length + rm_so)) :
      FoundInPlace reg replace done value
  | next {done value rm_so rm_eo} (h : reg.exec value = some (rm_so, rm_eo))
      (hend : rm_eo < value.length)
      (hmatch : rm_so < rm_eo)
      (hfound : Text.indexOf ((value.drop rm_so).take (rm_eo - rm_so)) (done ++ value) =
        some (done.length + rm_so))
      (hrest : FoundInPlace reg replace (done ++ value.take rm_so ++ replace) (value.drop rm_eo)) :
      FoundInPlace reg replace done value

/-- One round: the text that is found is replaced. -/
theorem replaceLoop_succ (h : reg.exec value = some (rm_so, rm_eo)) {result : List Char} {pos : ℕ}
    (hfound : Text.indexOf ((value.drop rm_so).take (rm_eo - rm_so)) result = some pos) (fuel : ℕ) :
    replaceLoop reg replace (fuel + 1) value result =
      if value.length ≤ rm_eo then
      some (some (result.take pos ++ replace ++ result.drop (pos + (rm_eo - rm_so))))
      else replaceLoop reg replace fuel (value.drop rm_eo)
        (result.take pos ++ replace ++ result.drop (pos + (rm_eo - rm_so))) := by
  obtain ⟨hle, hwithin⟩ := reg.within h
  have hlength : ((value.drop rm_so).take (rm_eo - rm_so)).length = rm_eo - rm_so := by
    rw [length_take, length_drop]
    omega
  rw [replaceLoop, h]
  simp only [hfound, hlength]

/-- A match in place is replaced in place. -/
theorem replaced_in_place (h : reg.exec value = some (rm_so, rm_eo)) (done : List Char) :
    (done ++ value).take (done.length + rm_so) ++ replace ++
      (done ++ value).drop (done.length + rm_so + (rm_eo - rm_so)) =
        done ++ value.take rm_so ++ replace ++ value.drop rm_eo := by
  obtain ⟨hle, -⟩ := reg.within h
  have hend : done.length + rm_so + (rm_eo - rm_so) = done.length + rm_eo := by omega
  rw [hend, take_length_add_append, drop_length_add_append]

/-- Where the loop finds every match in place, it ends with all of them replaced. -/
theorem exists_replaceLoop {done : List Char} (h : FoundInPlace reg replace done value) :
    ∃ fuel, replaceLoop reg replace fuel value (done ++ value) =
      some (some (done ++ replaceAll reg replace value)) := by
  induction h with
  | none h =>
    refine ⟨1, ?_⟩
    rw [replaceLoop, h, replaceAll_of_none h]
  | @last done value rm_so rm_eo h hend hfound =>
    refine ⟨1, ?_⟩
    rw [replaceLoop_succ h hfound, if_pos hend, replaced_in_place h, replaceAll_of_end h hend,
      drop_eq_nil_of_le hend, append_nil, append_assoc]
  | @next done value rm_so rm_eo h hend hmatch hfound hrest ih =>
    obtain ⟨fuel, hfuel⟩ := ih
    refine ⟨fuel + 1, ?_⟩
    rw [replaceLoop_succ h hfound, if_neg (Nat.not_le.mpr hend), replaced_in_place h, hfuel,
      replaceAll_of_next h hend hmatch]
    simp only [append_assoc]

/-- An empty match at the start of what is left keeps the loop where it is. -/
theorem replaceLoop_stuck (h : reg.exec value = some (0, 0)) (hvalue : value ≠ []) (fuel : ℕ)
    (result : List Char) :
    replaceLoop reg replace fuel value result = none := by
  induction fuel generalizing result with
  | zero => rfl
  | succ fuel ih =>
    have hfound : Text.indexOf ((value.drop 0).take (0 - 0)) result = some 0 := by
      obtain ⟨k, hk, hfound⟩ := Text.exists_indexOf (t := []) (a := []) (b := result)
      obtain rfl : k = 0 := Nat.le_zero.mp hk
      exact hfound
    have hlength : ¬ value.length ≤ 0 :=
      fun hle => hvalue (eq_nil_of_length_eq_zero (Nat.le_zero.mp hle))
    rw [replaceLoop_succ h hfound, if_neg hlength]
    exact ih _

/-! ## A replacement that contains the subject -/

/-- What is matched is part of what is left. -/
theorem isInfix_of_matched (rm_so rm_eo : ℕ) : (value.drop rm_so).take (rm_eo - rm_so) <:+: value :=
  (List.take_prefix _ _).isInfix.trans (drop_suffix _ _).isInfix

/-- With the subject at its start, the replacement draws all later replacements to the front: what
lies behind its padding is not touched any more. -/
theorem exists_of_replaceLoop {padding rest front result' : List Char} {fuel : ℕ}
    (hvalue : value <:+: subject) (hfront : subject <:+: front)
    (h : replaceLoop reg (subject ++ padding) fuel value (front ++ (padding ++ rest)) =
      some (some result')) :
    ∃ front', result' = front' ++ (padding ++ rest) := by
  induction fuel generalizing value front with
  | zero => cases h
  | succ fuel ih =>
    cases hexec : reg.exec value with
    | none =>
      rw [replaceLoop, hexec] at h
      cases h
      exact ⟨front, rfl⟩
    | some bounds =>
      obtain ⟨rm_so, rm_eo⟩ := bounds
      obtain ⟨before, after, hwhere⟩ :=
        ((isInfix_of_matched rm_so rm_eo).trans hvalue).trans hfront
      obtain ⟨pos, hpos, hfound⟩ := Text.exists_indexOf
        (t := (value.drop rm_so).take (rm_eo - rm_so)) (a := before)
        (b := after ++ (padding ++ rest))
      obtain ⟨hle, hwithin⟩ := reg.within hexec
      have hlength : ((value.drop rm_so).take (rm_eo - rm_so)).length = rm_eo - rm_so := by
        rw [length_take, length_drop]
        omega
      have hinside : pos + (rm_eo - rm_so) ≤ front.length := by
        rw [← hwhere, length_append, length_append, hlength]
        omega
      rw [← append_assoc (before ++ _), hwhere] at hfound
      rw [replaceLoop_succ hexec hfound, take_append_of_le_length (by omega),
        drop_append_of_le_length hinside] at h
      have hshape : front.take pos ++ (subject ++ padding) ++
          (front.drop (pos + (rm_eo - rm_so)) ++ (padding ++ rest)) =
          (front.take pos ++ (subject ++ padding) ++ front.drop (pos + (rm_eo - rm_so))) ++
          (padding ++ rest) :=
        (append_assoc _ _ _).symm
      rw [hshape] at h
      split at h
      · cases h
        exact ⟨_, rfl⟩
      · refine ih ((drop_suffix _ _).isInfix.trans hvalue) ?_ h
        exact ⟨front.take pos,
          padding ++ front.drop (pos + (rm_eo - rm_so)), by simp only [append_assoc]⟩

/-- A text cannot end both with a padding and a text, and with the padding and a shorter text, when
the padding is of another character than the text starts with. -/
theorem not_both_tails {c : Char} {front front' rest after : List Char} {n : ℕ}
    (hrest : rest.head? ≠ some c) (hshort : after.length < rest.length) (hn : rest.length ≤ n)
    (h : front ++ (List.replicate n c ++ rest) = front' ++ (List.replicate n c ++ after)) :
    False := by
  have hsplit : List.replicate n c ++ after =
      List.replicate (n - (rest.length - after.length)) c ++
        (List.replicate (rest.length - after.length) c ++ after) := by
    rw [← append_assoc, replicate_append_replicate]
    congr 2
    omega
  rw [hsplit, ← append_assoc, ← append_assoc] at h
  have hlength : rest.length = (List.replicate (rest.length - after.length) c ++ after).length := by
    rw [length_append, length_replicate]
    omega
  obtain ⟨-, htail⟩ := append_inj' h hlength
  refine hrest ?_
  rw [htail]
  obtain ⟨k, hk⟩ := Nat.exists_eq_succ_of_ne_zero (Nat.sub_ne_zero_of_lt hshort)
  rw [hk, replicate_succ]
  rfl

theorem exists_other_head (rest : List Char) : ∃ c, rest.head? ≠ some c := by
  by_cases ha : rest.head? = some 'a'
  · exact ⟨'b', by rw [ha]; decide⟩
  · exact ⟨'a', ha⟩

/-! ## When all matches are replaced -/

/-- Whatever the replacement, the loop ends, and every match is replaced in its place. -/
def ReplacesAll (reg : Regex) (subject : List Char) : Prop :=
  ∀ replace, ∃ fuel, replaceLoop reg replace fuel subject subject =
    some (some (replaceAll reg replace subject))

/-- The subject has one match at most. It is not empty unless the subject is, and its text does not
stand before it. -/
def MatchesOnce (reg : Regex) (subject : List Char) : Prop :=
  ∀ rm_so rm_eo, reg.exec subject = some (rm_so, rm_eo) → subject = [] ∨
    rm_so < rm_eo ∧ Text.indexOf ((subject.drop rm_so).take (rm_eo - rm_so)) subject = some rm_so ∧
      (subject.length ≤ rm_eo ∨ reg.exec (subject.drop rm_eo) = none)

theorem MatchesOnce.foundInPlace (h : MatchesOnce reg subject) (replace : List Char) :
    FoundInPlace reg replace [] subject := by
  cases hexec : reg.exec subject with
  | none => exact .none hexec
  | some bounds =>
    obtain ⟨rm_so, rm_eo⟩ := bounds
    obtain ⟨hle, hwithin⟩ := reg.within hexec
    rcases h rm_so rm_eo hexec with rfl | ⟨hmatch, hfound, hlast⟩
    · obtain rfl : rm_so = 0 := Nat.le_zero.mp (hle.trans hwithin)
      refine .last hexec (Nat.zero_le _) ?_
      simp [Text.indexOf]
    · have hdone : ([] : List Char).length + rm_so = rm_so := Nat.zero_add _
      rcases Nat.lt_or_ge rm_eo subject.length with hend | hend
      · exact .next hexec hend hmatch (by rw [hdone]; exact hfound)
          (.none (hlast.resolve_left (Nat.not_le.mpr hend)))
      · exact .last hexec hend (by rw [hdone]; exact hfound)

/-- The first match of a subject of which all matches are replaced. -/
theorem ReplacesAll.matchesOnce (h : ReplacesAll reg subject) : MatchesOnce reg subject := by
  intro rm_so rm_eo hexec
  by_cases hsubject : subject = []
  · exact .inl hsubject
  refine .inr ?_
  obtain ⟨hle, hwithin⟩ := reg.within hexec
  have hlength : ((subject.drop rm_so).take (rm_eo - rm_so)).length = rm_eo - rm_so := by
    rw [length_take, length_drop]
    omega
  -- The text of the match is found at the match or before.
  obtain ⟨pos, hpos, hfound⟩ := Text.exists_indexOf (t := (subject.drop rm_so).take (rm_eo - rm_so))
    (a := subject.take rm_so) (b := subject.drop rm_eo)
  have hwhole : subject.take rm_so ++ (subject.drop rm_so).take (rm_eo - rm_so) ++
      subject.drop rm_eo = subject := by
    have hrest : (subject.drop rm_so).drop (rm_eo - rm_so) = subject.drop rm_eo := by
      rw [drop_drop, Nat.add_sub_cancel' hle]
    rw [append_assoc, ← hrest, take_append_drop, take_append_drop]
  rw [hwhole] at hfound
  rw [length_take, Nat.min_eq_left (hle.trans hwithin)] at hpos
  -- A padding of another character than what follows starts with.
  let rest := subject.drop (pos + (rm_eo - rm_so))
  have hrest : rest.length = subject.length - (pos + (rm_eo - rm_so)) := length_drop
  obtain ⟨c, hc⟩ := exists_other_head rest
  let padding := List.replicate subject.length c
  obtain ⟨fuel, hfuel⟩ := h (subject ++ padding)
  obtain ⟨fuel, rfl⟩ : ∃ k, fuel = k + 1 := Nat.exists_eq_succ_of_ne_zero (by
    rintro rfl
    cases hfuel)
  have hround := hfuel
  rw [replaceLoop_succ hexec hfound] at hround
  have hfront : subject.take pos ++ (subject ++ padding) ++ subject.drop (pos + (rm_eo - rm_so)) =
      (subject.take pos ++ subject) ++ (padding ++ rest) := by
    simp only [append_assoc, rest]
  rw [hfront] at hround
  have hresult : ∃ front, replaceAll reg (subject ++ padding) subject =
      front ++ (padding ++ rest) := by
    split at hround
    · simp only [Option.some.injEq] at hround
      exact ⟨_, hround.symm⟩
    · exact exists_of_replaceLoop (drop_suffix _ _).isInfix
        (suffix_append _ _).isInfix hround
  obtain ⟨front, hresult⟩ := hresult
  have htails : ∀ before after : List Char,
      replaceAll reg (subject ++ padding) subject = before ++ (subject ++ padding) ++ after →
        rest.length ≤ after.length := by
    intro before after heq
    have hboth : front ++ (padding ++ rest) = (before ++ subject) ++ (padding ++ after) := by
      rw [← hresult, heq]
      simp only [append_assoc]
    exact Nat.not_lt.mp fun hshort => not_both_tails hc hshort (by omega) hboth
  -- The match is the first occurrence of its text.
  obtain ⟨before, after, heq, hafter⟩ := exists_tail (subject ++ padding) hexec
  have hfirst := htails before after heq
  obtain rfl : pos = rm_so := by omega
  have hmatch : pos < rm_eo := by
    refine Nat.lt_of_le_of_ne hle fun hempty => ?_
    subst hempty
    obtain rfl : pos = 0 := by
      refine Nat.eq_zero_of_not_pos fun hpositive => ?_
      rw [Nat.sub_self, take_zero] at hfound
      exact (Text.indexOf_eq_some hfound).2.2 0 hpositive nil_prefix
    rw [replaceLoop_stuck hexec hsubject] at hfuel
    cases hfuel
  refine ⟨hmatch, hfound, ?_⟩
  rcases Nat.lt_or_ge rm_eo subject.length with hend | hend
  · refine .inr (Option.eq_none_iff_forall_ne_some.mpr fun next hnext => ?_)
    obtain ⟨next_so, next_eo⟩ := next
    obtain ⟨before', after', heq', hafter'⟩ := exists_tail (subject ++ padding) hnext
    have hsecond : rest.length ≤ after'.length := by
      refine htails (subject.take pos ++ (subject ++ padding) ++ before') after' ?_
      rw [replaceAll_of_next hexec hend hmatch, heq']
      simp only [append_assoc]
    rw [length_drop] at hafter'
    obtain rfl : next_eo = 0 := by omega
    obtain rfl : next_so = 0 := Nat.le_zero.mp (reg.within hnext).1
    have hleft : subject.drop rm_eo ≠ [] :=
      ne_nil_of_length_pos (by rw [length_drop]; omega)
    rw [if_neg (Nat.not_le.mpr hend), replaceLoop_stuck hnext hleft] at hround
    cases hround
  · exact .inl hend

/-- What `REGEXP_REPLACE` should return. -/
def replacedAll (regcomp : List Char → Option Regex) (value pattern replace : List Char) :
    List Char :=
  match regcomp pattern with
  | none => value
  | some reg => replaceAll reg replace value

/-- `REGEXP_REPLACE` ends and replaces every match in its place. -/
def RegExpReplaceRight (regcomp : List Char → Option Regex) (value pattern replace : List Char) :
    Prop :=
  ∃ fuel, regExpReplace regcomp fuel value pattern replace =
    some (some (replacedAll regcomp value pattern replace))

/-- `REGEXP_REPLACE` is right for a subject and a pattern, whatever the replacement, exactly if the
subject has one match at most, which is not empty unless the subject is and whose text does not
stand before it. For one replacement it is right where each match is found in place. -/
theorem regExpReplace_iff (regcomp : List Char → Option Regex) (value pattern : List Char) :
    ((∀ replace, RegExpReplaceRight regcomp value pattern replace) ↔
      ∀ reg, regcomp pattern = some reg → MatchesOnce reg value) ∧
    ∀ replace, (∀ reg, regcomp pattern = some reg → FoundInPlace reg replace [] value) →
      RegExpReplaceRight regcomp value pattern replace := by
  unfold RegExpReplaceRight regExpReplace replacedAll
  cases hreg : regcomp pattern with
  | none =>
      refine ⟨iff_of_true (fun _ => ⟨0, rfl⟩) fun reg h => ?_, fun _ _ => ⟨0, rfl⟩⟩
      cases h
  | some reg =>
      refine ⟨⟨fun h reg' hreg' => ?_, fun h replace => ?_⟩, fun replace h => ?_⟩
      · obtain rfl : reg = reg' := Option.some.inj hreg'
        exact ReplacesAll.matchesOnce h
      · exact exists_replaceLoop ((h reg rfl).foundInPlace replace)
      · exact exists_replaceLoop (h reg rfl)

/-- The pattern `x*`. -/
def anyX : Regex where
  exec value := some (0, (value.takeWhile (· = 'x')).length)
  within h := by
    cases h
    exact ⟨Nat.zero_le _, (List.takeWhile_prefix _).length_le⟩

/-- In `a`, the loop finds the empty match in front of the character for ever. -/
theorem not_regExpReplaceRight :
    ¬ ∀ (regcomp : List Char → Option Regex) (value pattern replace : List Char),
    RegExpReplaceRight regcomp value pattern replace := by
  intro h
  obtain ⟨fuel, hfuel⟩ := h (fun _ => some anyX) ['a'] ['x', '*'] ['-']
  have hstuck : regExpReplace (fun _ => some anyX) fuel ['a'] ['x', '*'] ['-'] = none :=
    replaceLoop_stuck rfl (List.cons_ne_nil _ _) fuel ['a']
  rw [hstuck] at hfuel
  cases hfuel

end Idgs.Expr
