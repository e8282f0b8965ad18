import Mathlib.Data.Char
import Mathlib.Data.List.Lex
import Idgs.Common.JsonText
import Idgs.Common.Multimap
import Idgs.Common.Text

/-!
# Commands of the client shell

`CommandParser` cuts a command into the actor, the operation, the payload and the attachments. The
end of an object is found by counting braces from the third character of the object on, in strings
too, and a count that does not come to its end runs over the end of the text.
-/

namespace Idgs.Client.CommandParser

open List

open Common (Multimap.Same)
open Common.Text (indexOf)
open Common.JsonText (IsObject)

/-- A text, as the list of its characters. -/
abbrev Text := List Char

/-! ## The parser -/

/-- `RC_SYNTAX_ERROR`, and the exception of `at` and `substr`. -/
inductive Failure
  | syntaxError | outOfRange
deriving DecidableEq

/-- `Command`; the attachments in the order of their insertion. -/
structure Command where
  actorId : Text
  opName : Text
  payload : Text
  attachments : List (Text × Text)

/-- `std::string::at`. -/
def charAt (s : Text) (pos : ℕ) : Except Failure Char :=
  match s[pos]? with
  | none => .error .outOfRange
  | some c => .ok c

/-- `substr` from a position to the end. -/
def substr (s : Text) (pos : ℕ) : Except Failure Text :=
  if pos ≤ s.length then .ok (s.drop pos) else .error .outOfRange

/-- `substr(0, pos)`, where `none` is `npos`. -/
def before (s : Text) : Option ℕ → Text
  | none => s
  | some pos => s.take pos

/-- `pos + 1`, which is 0 for `npos`. -/
def next : Option ℕ → ℕ
  | none => 0
  | some pos => pos + 1

/-- The loop of `nextJsonStr` on the text `tmpString` behind the first character; `left` is
`str_cmd.size() - pos`. The result is `end`. -/
def countBraces (tmpString : Text) : (left pos counter : ℕ) → Except Failure ℕ
  | 0, _, _ => .error .syntaxError
  | left + 1, pos, counter =>
    match tmpString[pos]? with
    | none => .error .outOfRange
    | some c =>
      let counter := if c = '{' then counter + 1 else counter
      if c = '}' then
        if counter - 1 = 0 then .ok (pos + 2)
        else countBraces tmpString left (pos + 1) (counter - 1)
      else countBraces tmpString left (pos + 1) counter

/-- `nextJsonStr`: the object and what is left behind it. -/
def nextJsonStr (strCmd : Text) : Except Failure (Text × Text) :=
  if indexOf ['{'] strCmd ≠ some 0 then .error .syntaxError
  else
    match countBraces (strCmd.drop 1) (strCmd.length - 1) 1 1 with
    | .error e => .error e
    | .ok last => .ok (strCmd.take last, strCmd.drop last)

/-- A blank at the beginning is erased. -/
def dropBlank : Text → Text
  | ' ' :: s => s
  | s => s

/-- One turn of the loop over the attachments: the attachment and what is left. -/
def nextAttachment (leftString : Text) : Except Failure ((Text × Text) × Text) :=
  let subString := dropBlank leftString
  let keyEndPos := indexOf ['='] subString
  if keyEndPos = some 0 then .error .syntaxError
  else
    let key := before subString keyEndPos
    match charAt subString (next keyEndPos) with
    | .error e => .error e
    | .ok c =>
      let subString := if c = ' ' then subString.eraseIdx (next keyEndPos) else subString
      match substr subString (next keyEndPos) with
      | .error e => .error e
      | .ok subString =>
        match nextJsonStr subString with
        | .error e => .error e
        | .ok (value, left) => .ok ((key, value), left)

/-! ## Counting braces -/

/-- The braces that a text opens and does not close. -/
def depth (t : Text) : ℤ := (t.count '{' : ℤ) - t.count '}'

/-- Counting from `n`, the text comes to zero, and not before its end. -/
def Closes (n : ℤ) (t : Text) : Prop := n + depth t = 0 ∧ ∀ p, p <+: t → p ≠ t → 0 < n + depth p

/-- An object as `nextJsonStr` counts it, not looking at its second character. -/
def Counted (t : Text) : Prop := ∃ c m, t = '{' :: c :: m ∧ Closes 1 m

/-- What `nextJsonStr` reports as an error. -/
def NoObject (t : Text) : Prop := t.head? ≠ some '{' ∨ t = ['{']

section Braces

variable {n : ℤ} {c : Char} {t u w : Text}

theorem depth_cons (c : Char) (t : Text) : depth (c :: t) = depth [c] + depth t := by
  unfold depth
  rw [← singleton_append, count_append, count_append]
  push_cast
  omega

theorem depth_open : depth ['{'] = 1 := rfl

theorem depth_close : depth ['}'] = -1 := rfl

theorem depth_other (hopen : c ≠ '{') (hclose : c ≠ '}') : depth [c] = 0 := by
  unfold depth
  rw [count_singleton, count_singleton]
  simp [hopen, hclose]

theorem not_closes_nil (hn : 0 < n) : ¬ Closes n [] := by
  rintro ⟨hzero, -⟩
  have hnil : depth [] = 0 := rfl
  omega

/-- The count goes on behind the first character, unless it has come to its end there. -/
theorem closes_cons_iff (hn : 0 < n) :
    Closes n (c :: t) ↔ (n + depth [c] = 0 ∧ t = []) ∨
    (0 < n + depth [c] ∧ Closes (n + depth [c]) t) := by
  constructor
  · rintro ⟨hzero, hpos⟩
    by_cases ht : t = []
    · subst ht
      exact .inl ⟨hzero, rfl⟩
    · have hfirst : 0 < n + depth [c] := by
        refine hpos [c] (prefix_append [c] t) fun heq => ht ?_
        exact (List.cons.inj heq).2.symm
      refine .inr ⟨hfirst, ?_, fun p hp hne => ?_⟩
      · rw [depth_cons] at hzero
        omega
      · have hcons := hpos (c :: p) (cons_prefix_cons.mpr ⟨rfl, hp⟩) fun heq =>
          hne (List.cons.inj heq).2
        rw [depth_cons] at hcons
        omega
  · rintro (⟨hzero, rfl⟩ | ⟨hfirst, hzero, hpos⟩)
    · refine ⟨hzero, fun p hp hne => ?_⟩
      obtain rfl | ⟨q, rfl⟩ : p = [] ∨ ∃ q, p = c :: q := by
        cases p with
        | nil => exact .inl rfl
        | cons d q => exact .inr ⟨q, by rw [(cons_prefix_cons.mp hp).1]⟩
      · exact (Int.add_zero n).symm ▸ hn
      · obtain rfl := prefix_nil.mp (cons_prefix_cons.mp hp).2
        exact absurd rfl hne
    · refine ⟨?_, fun p hp hne => ?_⟩
      · rw [depth_cons]
        omega
      · cases p with
        | nil => exact (Int.add_zero n).symm ▸ hn
        | cons d q =>
          obtain ⟨rfl, hq⟩ := cons_prefix_cons.mp hp
          have hrest := hpos q hq fun heq => hne (by rw [heq])
          rw [depth_cons]
          omega

/-- A count that begins at one place of a text comes to its end at one place at most. -/
theorem closes_unique {u' w' : Text} (h : u ++ w = u' ++ w') (hu : Closes n u) (hu' : Closes n u') :
    u = u' ∧ w = w' := by
  suffices hsame : u = u' by
    subst hsame
    exact ⟨rfl, append_cancel_left h⟩
  by_contra hne
  obtain hp | hp :=
    prefix_or_prefix_of_prefix (prefix_append u w) (h ▸ prefix_append u' w')
  · have hpos := hu'.2 u hp hne
    have hzero := hu.1
    omega
  · have hpos := hu.2 u' hp fun heq => hne heq.symm
    have hzero := hu'.1
    omega

theorem counted_unique {u' w' : Text} (h : u ++ w = u' ++ w') (hu : Counted u) (hu' : Counted u') :
    u = u' ∧ w = w' := by
  obtain ⟨c, m, rfl, hm⟩ := hu
  obtain ⟨c', m', rfl, hm'⟩ := hu'
  obtain ⟨-, htail⟩ := List.cons.inj h
  obtain ⟨hc, htail⟩ := List.cons.inj htail
  obtain ⟨rfl, rfl⟩ := closes_unique htail hm hm'
  exact ⟨by rw [hc], rfl⟩

theorem Counted.length_pos (h : Counted t) : 0 < t.length := by
  obtain ⟨c, m, rfl, -⟩ := h
  exact Nat.zero_lt_succ _

theorem Counted.not_noObject (h : Counted u) : ¬ NoObject (u ++ w) := by
  obtain ⟨c, m, rfl, -⟩ := h
  rintro (hhead | hshort)
  · exact hhead rfl
  · cases hshort

/-- The counter after a character. -/
theorem countBraces_succ {counter left pos : ℕ} {c : Char} (hc : t[pos]? = some c) :
    countBraces t (left + 1) pos (counter + 1) =
      if (counter + 1 : ℤ) + depth [c] = 0 then .ok (pos + 2)
      else countBraces t left (pos + 1) ((counter + 1 : ℤ) + depth [c]).toNat := by
  rw [countBraces, hc]
  simp only
  by_cases hopen : c = '{'
  · subst hopen
    rw [if_pos rfl, if_neg (by decide), depth_open, if_neg (by omega)]
    refine congrArg (countBraces t left (pos + 1)) ?_
    omega
  by_cases hclose : c = '}'
  · subst hclose
    rw [if_pos rfl, if_neg hopen, depth_close]
    by_cases hzero : counter = 0
    · rw [if_pos (by omega), if_pos (by omega)]
    · rw [if_neg (by omega), if_neg (by omega)]
      refine congrArg (countBraces t left (pos + 1)) ?_
      omega
  · rw [if_neg hopen, if_neg hclose, depth_other hopen hclose, if_neg (by omega)]
    refine congrArg (countBraces t left (pos + 1)) ?_
    omega

/-- The loop finds the place where the count comes to its end, or runs over the end of the text. -/
theorem countBraces_cases {pos : ℕ} (counter : ℕ) (hdrop : t.drop pos = w) :
    (∃ u w', w = u ++ w' ∧ Closes (counter + 1 : ℤ) u ∧
        countBraces t (w.length + 1) pos (counter + 1) = .ok (pos + u.length + 1)) ∨
      ((∀ u w', w = u ++ w' → ¬ Closes (counter + 1 : ℤ) u) ∧
        countBraces t (w.length + 1) pos (counter + 1) = .error .outOfRange) := by
  induction w generalizing pos counter with
  | nil =>
    have hnone : t[pos]? = none := by
      rw [← head?_drop, hdrop]
      rfl
    refine .inr ⟨fun u w' hw => ?_, ?_⟩
    · rw [(append_eq_nil_iff.mp hw.symm).1]
      exact not_closes_nil (by omega)
    · rw [countBraces, hnone]
  | cons c w ih =>
    have hc : t[pos]? = some c := by
      rw [← head?_drop, hdrop]
      rfl
    have hrest : t.drop (pos + 1) = w := by
      rw [← drop_drop, hdrop]
      rfl
    rw [length_cons, countBraces_succ hc]
    by_cases hzero : (counter + 1 : ℤ) + depth [c] = 0
    · rw [if_pos hzero]
      refine .inl ⟨[c], w, rfl, (closes_cons_iff (by omega)).mpr (.inl ⟨hzero, rfl⟩), ?_⟩
      rfl
    rw [if_neg hzero]
    -- one character closes at most one brace
    have hle : -1 ≤ depth [c] := by
      by_cases hopen : c = '{'
      · rw [hopen, depth_open]
        decide
      by_cases hclose : c = '}'
      · rw [hclose, depth_close]
      · rw [depth_other hopen hclose]
        decide
    obtain ⟨counter', hcounter'⟩ : ∃ counter' : ℕ, (counter + 1 : ℤ) + depth [c] = counter' + 1 :=
      ⟨((counter : ℤ) + depth [c]).toNat, by omega⟩
    have hnat : ((counter + 1 : ℤ) + depth [c]).toNat = counter' + 1 := by omega
    rw [hnat]
    obtain ⟨u, w', hw, hu, hcount⟩ | ⟨hnot, hcount⟩ := ih counter' hrest
    · refine .inl ⟨c :: u, w', by rw [hw, cons_append],
        (closes_cons_iff (by omega)).mpr (.inr ⟨?_, ?_⟩), ?_⟩
      · omega
      · rw [hcounter']
        exact hu
      · rw [hcount, length_cons]
        refine congrArg Except.ok ?_
        omega
    · refine .inr ⟨fun u w' hw hu => ?_, hcount⟩
      cases u with
      | nil => exact not_closes_nil (by omega) hu
      | cons d u =>
        obtain ⟨hd, htail⟩ := List.cons.inj hw
        rw [← hd] at hu
        obtain ⟨hfirst, -⟩ | ⟨-, hu⟩ := (closes_cons_iff (by omega)).mp hu
        · exact hzero hfirst
        · rw [hcounter'] at hu
          exact hnot u w' htail hu

/-- `nextJsonStr` refuses what does not begin an object, cuts off an object whose braces come to an
end, and runs over the end of the text otherwise. -/
theorem nextJsonStr_cases (t : Text) :
    (NoObject t ∧ nextJsonStr t = .error .syntaxError) ∨
      (∃ u w, t = u ++ w ∧ Counted u ∧ nextJsonStr t = .ok (u, w)) ∨
        ((∀ u w, t = u ++ w → ¬ Counted u) ∧ ¬ NoObject t ∧
          nextJsonStr t = .error .outOfRange) := by
  by_cases hhead : t.head? = some '{'
  · obtain ⟨t, rfl⟩ : ∃ s, t = '{' :: s := by
      cases t with
      | nil => cases hhead
      | cons c s => exact ⟨s, by rw [Option.some.inj hhead]⟩
    have hfound : ¬ indexOf ['{'] ('{' :: t) ≠ some 0 :=
      not_not.mpr (Common.Text.indexOf_cons_self '{' t)
    unfold nextJsonStr
    rw [if_neg hfound, drop_succ_cons, drop_zero, length_cons, Nat.add_sub_cancel]
    cases t with
    | nil => exact .inl ⟨.inr rfl, rfl⟩
    | cons c t =>
      rw [length_cons]
      have hdrop : (c :: t).drop 1 = t := rfl
      obtain ⟨u, w, rfl, hu, hcount⟩ | ⟨hnot, hcount⟩ := countBraces_cases 0 hdrop
      · refine .inr (.inl ⟨'{' :: c :: u, w, rfl, ⟨c, u, rfl, hu⟩, ?_⟩)
        rw [hcount]
        have hlast : 1 + u.length + 1 = ('{' :: c :: u).length := by
          rw [length_cons, length_cons]
          omega
        have happend : '{' :: c :: (u ++ w) = ('{' :: c :: u) ++ w := rfl
        simp only [hlast, happend, take_left, drop_left]
      · refine .inr (.inr ⟨?_, ?_, ?_⟩)
        · rintro v w heq ⟨d, m, rfl, hm⟩
          obtain ⟨-, heq⟩ := List.cons.inj heq
          obtain ⟨-, heq⟩ := List.cons.inj heq
          exact hnot m w heq hm
        · rintro (hno | hno)
          · exact hno rfl
          · cases hno
        · rw [hcount]
  · refine .inl ⟨.inl hhead, ?_⟩
    have hfound : indexOf ['{'] t ≠ some 0 := by
      intro hzero
      obtain ⟨hpre, -⟩ := Common.Text.indexOf_eq_some hzero
      rw [drop_zero] at hpre
      obtain ⟨s, rfl⟩ := hpre
      exact hhead rfl
    unfold nextJsonStr
    rw [if_pos hfound]

theorem nextJsonStr_eq_ok : nextJsonStr t = .ok (u, w) ↔ t = u ++ w ∧ Counted u := by
  obtain ⟨hno, hres⟩ | ⟨u', w', ht, hu', hres⟩ | ⟨hnot, -, hres⟩ := nextJsonStr_cases t
  · rw [hres]
    refine iff_of_false (fun h => by cases h) ?_
    rintro ⟨rfl, hu⟩
    exact hu.not_noObject hno
  · rw [hres, Except.ok.injEq, Prod.mk.injEq]
    constructor
    · rintro ⟨rfl, rfl⟩
      exact ⟨ht, hu'⟩
    · rintro ⟨ht', hu⟩
      exact counted_unique (ht.symm.trans ht') hu' hu
  · rw [hres]
    refine iff_of_false (fun h => by cases h) ?_
    rintro ⟨ht, hu⟩
    exact hnot u w ht hu

theorem nextJsonStr_eq_syntaxError : nextJsonStr t = .error .syntaxError ↔ NoObject t := by
  obtain ⟨hno, hres⟩ | ⟨u, w, rfl, hu, hres⟩ | ⟨-, hobject, hres⟩ := nextJsonStr_cases t
  · exact iff_of_true hres hno
  · rw [hres]
    exact iff_of_false (fun h => by cases h) hu.not_noObject
  · rw [hres]
    exact iff_of_false (fun h => by cases h) hobject

end Braces

/-! ## Attachments -/

/-- The name that is taken at the beginning of what is left, and the text that is to begin with its
object. Without an equals sign the whole text is both. -/
inductive ValueAt (left : Text) : Text → Text → Prop
  | named {key t : Text} (h : dropBlank left = key ++ '=' :: t) (hne : key ≠ []) (hkey : '=' ∉ key)
    (ht : t ≠ []) :
      ValueAt left key (dropBlank t)
  | unnamed (hne : dropBlank left ≠ []) (h : '=' ∉ dropBlank left) :
      ValueAt left (dropBlank left) (dropBlank (dropBlank left))

section Attachments

variable {left key t u w : Text}

theorem substr_append (u w : Text) : substr (u ++ w) u.length = .ok w := by
  rw [substr, if_pos (by rw [length_append]; omega), drop_left]

theorem substr_append_cons (u w : Text) (c : Char) :
    substr (u ++ c :: w) (u.length + 1) = .ok w := by
  have h := substr_append (u ++ [c]) w
  rwa [← append_cons, length_append, length_singleton] at h

/-- The blank that may stand before the object is erased. -/
theorem substr_eraseIdx {s : Text} {k : ℕ} (hs : s = u ++ t) (hk : k = u.length) (hne : t ≠ []) :
    ∃ c, charAt s k = .ok c ∧ substr (if c = ' ' then s.eraseIdx k else s) k = .ok
    (dropBlank t) := by
  subst hs hk
  obtain ⟨c, t, rfl⟩ := exists_cons_of_ne_nil hne
  refine ⟨c, ?_, ?_⟩
  · rw [charAt, getElem?_append_right (Nat.le_refl _), Nat.sub_self]
    rfl
  · have herase : (u ++ c :: t).eraseIdx u.length = u ++ t := by
      rw [eraseIdx_append_of_length_le (Nat.le_refl _), Nat.sub_self]
      rfl
    by_cases hc : c = ' '
    · subst hc
      rw [if_pos rfl, herase, substr_append]
      rfl
    · rw [if_neg hc, substr_append]
      refine congrArg Except.ok ?_
      unfold dropBlank
      split
      · rename_i heq
        exact absurd (List.cons.inj heq).1 hc
      · rfl

theorem indexOf_equals_ne_zero (hne : key ≠ []) (hkey : '=' ∉ key) :
    indexOf ['='] (key ++ t) ≠ some 0 := by
  obtain ⟨c, key, rfl⟩ := exists_cons_of_ne_nil hne
  intro hzero
  obtain ⟨hpre, -⟩ := Common.Text.indexOf_eq_some hzero
  obtain ⟨s, hs⟩ := hpre
  exact hkey ((List.cons.inj hs).1 ▸ mem_cons_self)

/-- A turn of the loop reads the object of its name. -/
theorem nextAttachment_of_valueAt (h : ValueAt left key t) :
    nextAttachment left = (nextJsonStr t).map fun r => ((key, r.1), r.2) := by
  cases h with
  | named heq hne hkey ht =>
    rename_i t
    obtain ⟨c, hc, hsub⟩ :=
      substr_eraseIdx (append_cons key '=' t) (length_append ..).symm ht
    have hfound : indexOf ['='] (key ++ '=' :: t) = some key.length :=
      Common.Text.indexOf_append_cons hkey
    have hzero : ¬ some key.length = some 0 := by
      rw [← hfound]
      exact indexOf_equals_ne_zero hne hkey
    unfold nextAttachment
    simp only [heq, hfound, if_neg hzero, before, next, take_left]
    simp only [length_singleton] at hc hsub
    simp only [hc, hsub]
    cases nextJsonStr (dropBlank t) with
    | error e => rfl
    | ok r => rfl
  | unnamed hne hkey =>
    obtain ⟨c, hc, hsub⟩ :=
      substr_eraseIdx (nil_append (dropBlank left)).symm length_nil.symm hne
    have hfound : indexOf ['='] (dropBlank left) = none := Common.Text.indexOf_of_notMem hkey
    unfold nextAttachment
    simp only [hfound, reduceCtorEq, if_false, before, next, hc, hsub]
    cases nextJsonStr (dropBlank (dropBlank left)) with
    | error e => rfl
    | ok r => rfl

/-- A turn of the loop finds an empty name, or a name, or runs over the end of the text. -/
theorem nextAttachment_cases (left : Text) :
    ((∃ t, dropBlank left = '=' :: t) ∧ nextAttachment left = .error .syntaxError) ∨
      (∃ key t, ValueAt left key t) ∨ nextAttachment left = .error .outOfRange := by
  by_cases hmem : '=' ∈ dropBlank left
  · obtain ⟨key, t, heq, hkey, hfound⟩ := Common.Text.exists_indexOf_of_mem hmem
    by_cases hne : key = []
    · subst hne
      refine .inl ⟨⟨t, heq⟩, ?_⟩
      unfold nextAttachment
      simp only [hfound, length_nil, if_true]
    by_cases ht : t = []
    · subst ht
      refine .inr (.inr ?_)
      have hzero : ¬ some key.length = some 0 := by
        rw [← hfound, heq]
        exact indexOf_equals_ne_zero hne hkey
      have hat : charAt (dropBlank left) (key.length + 1) = .error .outOfRange := by
        rw [heq, charAt, getElem?_eq_none (by rw [length_append]; exact Nat.le_refl _)]
      unfold nextAttachment
      simp only [hfound, if_neg hzero, next, hat]
    · exact .inr (.inl ⟨key, dropBlank t, .named heq hne hkey ht⟩)
  · by_cases hne : dropBlank left = []
    · refine .inr (.inr ?_)
      unfold nextAttachment
      rw [hne]
      rfl
    · exact .inr (.inl ⟨_, _, .unnamed hne hmem⟩)

theorem length_dropBlank_le (t : Text) : (dropBlank t).length ≤ t.length := by
  unfold dropBlank
  split
  · exact Nat.le_succ _
  · exact Nat.le_refl _

/-- The text of the object is a part of what was left. -/
theorem ValueAt.length_le (h : ValueAt left key t) : t.length ≤ left.length := by
  have hleft := length_dropBlank_le left
  cases h with
  | named heq hne hkey ht =>
    rename_i t
    have hlength := congrArg List.length heq
    rw [length_append, length_cons] at hlength
    have ht := length_dropBlank_le t
    omega
  | unnamed hne hkey =>
    have ht := length_dropBlank_le (dropBlank left)
    omega

/-- Each turn of the loop takes some of the text. -/
theorem nextAttachment_length_lt {e : Text × Text} (h : nextAttachment left = .ok (e, w)) :
    w.length < left.length := by
  obtain ⟨-, hres⟩ | ⟨key, t, hvalue⟩ | hres := nextAttachment_cases left
  · rw [hres] at h
    cases h
  · rw [nextAttachment_of_valueAt hvalue] at h
    have hle := hvalue.length_le
    cases hnext : nextJsonStr t with
    | error f =>
      rw [hnext] at h
      cases h
    | ok r =>
      obtain ⟨v, rest⟩ := r
      rw [hnext] at h
      obtain rfl : rest = w := (Prod.mk.inj (Except.ok.inj h)).2
      obtain ⟨rfl, hv⟩ := nextJsonStr_eq_ok.mp hnext
      have hpos := hv.length_pos
      rw [length_append] at hle
      omega
  · rw [hres] at h
    cases h

end Attachments

/-- The loop over the attachments. -/
def parseAttachments (leftString : Text) : Except Failure (List (Text × Text)) :=
  if leftString = [] then .ok []
  else
    match h : nextAttachment leftString with
    | .error e => .error e
    | .ok (entry, left) => (parseAttachments left).map (entry :: ·)
termination_by leftString.length
decreasing_by exact nextAttachment_length_lt h

/-- `CommandParser::parse`. -/
def parse (strCmd : Text) : Except Failure Command := do
  let pos := indexOf [' '] strCmd
  let actorId := before strCmd pos
  let subString ← substr strCmd (next pos)
  let opName := before subString (indexOf [' '] subString)
  let subString ← substr subString (opName.length + 1)
  let (payload, left) ← nextJsonStr subString
  let attachments ← parseAttachments left
  return { actorId, opName, payload, attachments }

/-! ## The grammar and what is to hold -/

/-- The attachments of a command, each behind a blank. -/
def attachmentsText (l : List (Text × Text)) : Text := l.flatMap fun e => ' ' :: (e.1 ++ '=' :: e.2)

namespace Command

/-- The command as it is written. -/
def text (c : Command) : Text :=
  c.actorId ++ ' ' :: (c.opName ++ ' ' :: (c.payload ++ attachmentsText c.attachments))

/-- A command of the grammar. -/
structure WellFormed (c : Command) : Prop where
  actorId : c.actorId ≠ [] ∧ ' ' ∉ c.actorId
  opName : c.opName ≠ [] ∧ ' ' ∉ c.opName
  payload : IsObject c.payload
  attachments : ∀ e ∈ c.attachments, e.1 ≠ [] ∧ ' ' ∉ e.1 ∧ '=' ∉ e.1 ∧ IsObject e.2

/-- The same command; the attachments are a multimap. -/
structure Same (c c' : Command) : Prop where
  actorId : c.actorId = c'.actorId
  opName : c.opName = c'.opName
  payload : c.payload = c'.payload
  attachments : Multimap.Same c.attachments c'.attachments

end Command

/-- A command is read as it was written, and any other text is a syntax error. -/
structure Right (s : Text) : Prop where
  command : ∀ c : Command, c.WellFormed → c.text = s → ∃ c', parse s = .ok c' ∧ c'.Same c
  other : (¬ ∃ c : Command, c.WellFormed ∧ c.text = s) → parse s = .error .syntaxError

/-- An object that is not `{}`, in which the braces, those in strings too, are balanced. -/
def Balanced (t : Text) : Prop :=
  t ≠ ['{', '}'] ∧ depth t = 0 ∧ ∀ p, p <+: t → p ≠ [] → p ≠ t → 0 < depth p

/-- Attachments with an empty name, or with something else than an object behind a name. -/
inductive RefusedAttachments : Text → Prop
  | emptyName {left t : Text} (h : dropBlank left = '=' :: t) : RefusedAttachments left
  | noObject {left key t : Text} (h : ValueAt left key t) (ht : NoObject t) :
      RefusedAttachments left
  | next {left key value rest : Text} (h : ValueAt left key (value ++ rest))
      (hvalue : Counted value)
      (hrest : RefusedAttachments rest) : RefusedAttachments left

/-- An actor, an operation and something else than an object, or an object with such attachments. -/
def Refused (s : Text) : Prop :=
  ∃ actorId opName t, s = actorId ++ ' ' :: (opName ++ ' ' :: t) ∧ ' ' ∉ actorId ∧ ' ' ∉ opName ∧
    (NoObject t ∨ ∃ payload left, t = payload ++ left ∧ Counted payload ∧ RefusedAttachments left)

/-! ## What is refused -/

section Refusing

variable {s t left : Text} {c : Command}

theorem parseAttachments_nil : parseAttachments [] = .ok [] := by
  rw [parseAttachments, if_pos rfl]

theorem parseAttachments_of_error {e : Failure} (h : nextAttachment left = .error e)
    (hne : left ≠ []) :
    parseAttachments left = .error e := by
  rw [parseAttachments, if_neg hne]
  split
  · rename_i e' he
    rw [h] at he
    exact congrArg Except.error (Except.error.inj he).symm
  · rename_i entry rest hok
    rw [h] at hok
    cases hok

theorem parseAttachments_of_ok {e : Text × Text} {rest : Text}
    (h : nextAttachment left = .ok (e, rest)) :
    parseAttachments left = (parseAttachments rest).map (e :: ·) := by
  have hne : left ≠ [] := by
    rintro rfl
    exact absurd (nextAttachment_length_lt h) (Nat.not_lt_zero _)
  conv_lhs => rw [parseAttachments]
  rw [if_neg hne]
  split
  · rename_i e' he
    rw [h] at he
    cases he
  · rename_i entry rest' hok
    rw [h, Except.ok.injEq, Prod.mk.injEq] at hok
    rw [hok.1, hok.2]

theorem ValueAt.ne_nil {key : Text} (h : ValueAt left key t) : left ≠ [] := by
  rintro rfl
  cases h with
  | named heq hne hkey ht =>
    have hnil : dropBlank [] = [] := rfl
    exact absurd (heq.symm.trans hnil)
      (append_ne_nil_of_right_ne_nil key (cons_ne_nil '=' _))
  | unnamed hne hkey => exact hne rfl

/-- The loop over the attachments reports an error just in these. -/
theorem parseAttachments_eq_syntaxError :
    parseAttachments left = .error .syntaxError ↔ RefusedAttachments left := by
  constructor
  · intro h
    induction hn : left.length using Nat.strong_induction_on generalizing left with
    | _ n ih =>
    by_cases hne : left = []
    · rw [hne, parseAttachments_nil] at h
      cases h
    obtain ⟨⟨t, heq⟩, -⟩ | ⟨key, t, hvalue⟩ | hres := nextAttachment_cases left
    · exact .emptyName heq
    · have hnext := nextAttachment_of_valueAt hvalue
      cases hjson : nextJsonStr t with
      | error e =>
        rw [hjson] at hnext
        rw [parseAttachments_of_error hnext hne] at h
        obtain rfl := Except.error.inj h
        exact .noObject hvalue (nextJsonStr_eq_syntaxError.mp hjson)
      | ok r =>
        obtain ⟨value, rest⟩ := r
        rw [hjson] at hnext
        have hlt := nextAttachment_length_lt hnext
        rw [parseAttachments_of_ok hnext] at h
        have hrest : parseAttachments rest = .error .syntaxError := by
          cases hparse : parseAttachments rest with
          | error e =>
            rw [hparse] at h
            exact h
          | ok l =>
            rw [hparse] at h
            cases h
        obtain ⟨rfl, hcounted⟩ := nextJsonStr_eq_ok.mp hjson
        exact .next hvalue hcounted (ih rest.length (hn ▸ hlt) hrest rfl)
    · rw [parseAttachments_of_error hres hne] at h
      cases h
  · intro h
    induction h with
    | emptyName h =>
      rename_i left t
      have hne : left ≠ [] := by
        rintro rfl
        cases h
      obtain ⟨-, hres⟩ | ⟨key, t', hvalue⟩ | hres := nextAttachment_cases left
      · exact parseAttachments_of_error hres hne
      -- a name that is read is not empty
      · cases hvalue with
        | named heq hkey hmem =>
          obtain ⟨d, key, rfl⟩ := exists_cons_of_ne_nil hkey
          rw [h] at heq
          exact absurd ((List.cons.inj heq).1 ▸ mem_cons_self) hmem
        | unnamed hne' hmem => exact absurd (h ▸ mem_cons_self) hmem
      · unfold nextAttachment at hres
        rw [h] at hres
        simp only [Common.Text.indexOf_cons_self, if_true] at hres
        cases hres
    | noObject h ht =>
      refine parseAttachments_of_error ?_ h.ne_nil
      rw [nextAttachment_of_valueAt h, nextJsonStr_eq_syntaxError.mpr ht]
      rfl
    | next h hvalue hrest ih =>
      rename_i left key value rest
      have hnext : nextAttachment left = .ok ((key, value), rest) := by
        rw [nextAttachment_of_valueAt h, nextJsonStr_eq_ok.mpr ⟨rfl, hvalue⟩]
        rfl
      rw [parseAttachments_of_ok hnext, ih]
      rfl

/-- A text with an actor and an operation. -/
theorem parse_of_words {actorId opName : Text} (ha : ' ' ∉ actorId) (ho : ' ' ∉ opName) (t : Text) :
    parse (actorId ++ ' ' :: (opName ++ ' ' :: t)) = do
      let (payload, left) ← nextJsonStr t
      let attachments ← parseAttachments left
      return { actorId, opName, payload, attachments } := by
  unfold parse
  simp only [Common.Text.indexOf_append_cons ha, before, next, take_left, substr_append_cons,
    bind, Except.bind, Common.Text.indexOf_append_cons ho]

/-- A text without two blanks. -/
theorem parse_of_few
    (h : ¬ ∃ actorId opName t, s = actorId ++ ' ' :: (opName ++ ' ' :: t) ∧ ' ' ∉ actorId ∧
      ' ' ∉ opName) :
    parse s = .error .outOfRange := by
  have hlast : ∀ w : Text, ' ' ∉ w →
      substr w ((before w (indexOf [' '] w)).length + 1) = .error .outOfRange := by
    intro w hw
    rw [Common.Text.indexOf_of_notMem hw, before, substr, if_neg (by omega)]
  unfold parse
  by_cases hs : ' ' ∈ s
  · obtain ⟨u, w, rfl, hu, hfound⟩ := Common.Text.exists_indexOf_of_mem hs
    have hw : ' ' ∉ w := by
      intro hmem
      obtain ⟨u', w', rfl, hu', -⟩ := Common.Text.exists_indexOf_of_mem hmem
      exact h ⟨u, u', w', rfl, hu, hu'⟩
    simp only [hfound, next, substr_append_cons, bind, Except.bind, hlast w hw]
  · have hsubstr : substr s 0 = .ok s := if_pos (Nat.zero_le _)
    simp only [Common.Text.indexOf_of_notMem hs, next, hsubstr, bind, Except.bind]
    rw [← Common.Text.indexOf_of_notMem hs, hlast s hs]

/-- There is only one way to cut off a word. -/
theorem word_unique {u u' w w' : Text} (h : u ++ ' ' :: w = u' ++ ' ' :: w') (hu : ' ' ∉ u)
    (hu' : ' ' ∉ u') :
    u = u' ∧ w = w' := by
  have hlength : u.length = u'.length := by
    have hfound := Common.Text.indexOf_append_cons (b := w) hu
    rw [h, Common.Text.indexOf_append_cons hu'] at hfound
    exact (Option.some.inj hfound).symm
  obtain ⟨rfl, hrest⟩ := append_inj h hlength
  exact ⟨rfl, (List.cons.inj hrest).2⟩

theorem words_unique {a o t a' o' t' : Text}
    (h : a ++ ' ' :: (o ++ ' ' :: t) = a' ++ ' ' :: (o' ++ ' ' :: t'))
    (ha : ' ' ∉ a) (ho : ' ' ∉ o) (ha' : ' ' ∉ a') (ho' : ' ' ∉ o') : a = a' ∧ o = o' ∧ t = t' := by
  obtain ⟨rfl, hrest⟩ := word_unique h ha ha'
  exact ⟨rfl, word_unique hrest ho ho'⟩

/-- The texts for which the parser reports a syntax error. -/
theorem parse_eq_syntaxError : parse s = .error .syntaxError ↔ Refused s := by
  by_cases hs : ∃ actorId opName t, s = actorId ++ ' ' :: (opName ++ ' ' :: t) ∧ ' ' ∉ actorId ∧
    ' ' ∉ opName
  · obtain ⟨actorId, opName, t, rfl, ha, ho⟩ := hs
    rw [parse_of_words ha ho]
    constructor
    · intro h
      refine ⟨actorId, opName, t, rfl, ha, ho, ?_⟩
      cases hjson : nextJsonStr t with
      | error e =>
        rw [hjson] at h
        obtain rfl := Except.error.inj h
        exact .inl (nextJsonStr_eq_syntaxError.mp hjson)
      | ok r =>
        obtain ⟨payload, left⟩ := r
        obtain ⟨heq, hcounted⟩ := nextJsonStr_eq_ok.mp hjson
        refine .inr ⟨payload, left, heq, hcounted, parseAttachments_eq_syntaxError.mp ?_⟩
        cases hparse : parseAttachments left with
        | error e =>
          simp only [hjson, hparse, bind, Except.bind] at h
          exact congrArg Except.error (Except.error.inj h)
        | ok l =>
          simp only [hjson, hparse, bind, Except.bind] at h
          cases h
    · rintro ⟨actorId', opName', t', heq, ha', ho', hrefused⟩
      obtain ⟨rfl, rfl, rfl⟩ := words_unique heq ha ho ha' ho'
      obtain hno | ⟨payload, left, rfl, hcounted, hleft⟩ := hrefused
      · rw [nextJsonStr_eq_syntaxError.mpr hno]
        rfl
      · simp only [nextJsonStr_eq_ok.mpr ⟨rfl, hcounted⟩, bind, Except.bind,
          parseAttachments_eq_syntaxError.mpr hleft]
  · rw [parse_of_few hs]
    refine iff_of_false (fun h => by cases h) ?_
    rintro ⟨actorId, opName, t, heq, ha, ho, -⟩
    exact hs ⟨actorId, opName, t, heq, ha, ho⟩

/-! ## Commands -/

/-- The objects that are counted right. -/
theorem counted_iff_balanced (h : IsObject t) : Counted t ↔ Balanced t := by
  obtain ⟨c, m, rfl, hopen, hclose⟩ := h.exists_cons
  have hone : ∀ p : Text, depth ('{' :: p) = 1 + depth p := fun p => depth_cons '{' p
  by_cases hm : m = []
  · subst hm
    obtain rfl := hclose.mpr rfl
    refine iff_of_false ?_ fun hbalanced => hbalanced.1 rfl
    rintro ⟨c', m', heq, hcloses⟩
    obtain ⟨-, heq⟩ := List.cons.inj heq
    obtain ⟨-, rfl⟩ := List.cons.inj heq
    exact not_closes_nil Int.one_pos hcloses
  have hc : depth [c] = 0 := depth_other hopen fun heq => hm (hclose.mp heq)
  have htwo : ∀ p : Text, depth ('{' :: c :: p) = 1 + depth p := by
    intro p
    rw [hone, depth_cons c p, hc, Int.zero_add]
  constructor
  · rintro ⟨c', m', heq, hzero, hpos⟩
    obtain ⟨-, heq⟩ := List.cons.inj heq
    obtain ⟨rfl, rfl⟩ := List.cons.inj heq
    refine ⟨fun heq => hm (List.cons.inj (List.cons.inj heq).2).2, by rw [htwo, hzero], ?_⟩
    intro p hp hnil hne
    obtain ⟨d, p, rfl⟩ := exists_cons_of_ne_nil hnil
    obtain ⟨hd, hrest⟩ := cons_prefix_cons.mp hp
    subst hd
    cases p with
    | nil => decide
    | cons d p =>
      obtain ⟨rfl, hinner⟩ := cons_prefix_cons.mp hrest
      rw [htwo]
      exact hpos p hinner fun heq => hne (by rw [heq])
  · rintro ⟨-, hzero, hpos⟩
    rw [htwo] at hzero
    refine ⟨c, m, rfl, hzero, fun p hp hne => ?_⟩
    rw [← htwo]
    refine hpos ('{' :: c :: p) ?_ (cons_ne_nil '{' _) fun heq => hne ?_
    · exact cons_prefix_cons.mpr ⟨rfl, cons_prefix_cons.mpr ⟨rfl, hp⟩⟩
    · exact (List.cons.inj (List.cons.inj heq).2).2

/-- The object of an attachment begins behind its name. -/
theorem valueAt_text {name value rest : Text} (hne : name ≠ []) (hkey : '=' ∉ name)
    (hvalue : IsObject value) :
    ValueAt (' ' :: (name ++ '=' :: (value ++ rest))) name (value ++ rest) := by
  obtain ⟨c, m, rfl, -⟩ := hvalue.exists_cons
  exact .named rfl hne hkey (cons_ne_nil '{' _)

/-- The attachments are read as they were written just if all their objects are counted right. -/
theorem parseAttachments_text {l : List (Text × Text)}
    (h : ∀ e ∈ l, e.1 ≠ [] ∧ ' ' ∉ e.1 ∧ '=' ∉ e.1 ∧ IsObject e.2) :
    (∃ l', parseAttachments (attachmentsText l) = .ok l' ∧ Multimap.Same l' l) ↔
      ∀ e ∈ l, Counted e.2 := by
  induction l with
  | nil =>
    refine iff_of_true ⟨[], parseAttachments_nil, Multimap.Same.refl []⟩ ?_
    intro e he
    cases he
  | cons e l ih =>
    obtain ⟨name, value⟩ := e
    obtain ⟨⟨hne, -, hkey, hobject⟩, hl⟩ := forall_mem_cons.mp h
    have htext : attachmentsText ((name, value) :: l) =
        ' ' :: (name ++ '=' :: (value ++ attachmentsText l)) := by
      rw [attachmentsText, flatMap_cons, cons_append, append_assoc, cons_append]
      rfl
    have hvalue : ValueAt (' ' :: (name ++ '=' :: (value ++ attachmentsText l))) name
        (value ++ attachmentsText l) :=
      valueAt_text hne hkey hobject
    have hnext := nextAttachment_of_valueAt hvalue
    rw [htext, forall_mem_cons, ← ih hl]
    constructor
    · rintro ⟨l', hparse, hsame⟩
      cases hjson : nextJsonStr (value ++ attachmentsText l) with
      | error f =>
        rw [hjson] at hnext
        rw [parseAttachments_of_error hnext (cons_ne_nil ' ' _)] at hparse
        cases hparse
      | ok r =>
        obtain ⟨value', rest⟩ := r
        rw [hjson] at hnext
        rw [parseAttachments_of_ok hnext] at hparse
        cases hrest : parseAttachments rest with
        | error f =>
          rw [hrest] at hparse
          cases hparse
        | ok l'' =>
          rw [hrest] at hparse
          obtain rfl := Except.ok.inj hparse
          obtain ⟨rfl, hsame'⟩ := Common.Multimap.same_cons_iff.mp hsame
          obtain ⟨heq, hcounted⟩ := nextJsonStr_eq_ok.mp hjson
          obtain rfl := append_cancel_left heq
          exact ⟨hcounted, l'', hrest, hsame'⟩
    · rintro ⟨hcounted, l', hparse, hsame⟩
      rw [nextJsonStr_eq_ok.mpr ⟨rfl, hcounted⟩] at hnext
      refine ⟨(name, value) :: l', ?_, Common.Multimap.same_cons_iff.mpr ⟨rfl, hsame⟩⟩
      rw [parseAttachments_of_ok hnext, hparse]
      rfl

/-- A command is read as it was written just if all its objects are counted right. -/
theorem parse_text (h : c.WellFormed) :
    (∃ c', parse c.text = .ok c' ∧ c'.Same c) ↔
      Balanced c.payload ∧ ∀ e ∈ c.attachments, Balanced e.2 := by
  have hattachments : (∀ e ∈ c.attachments, Balanced e.2) ↔ ∀ e ∈ c.attachments, Counted e.2 :=
    forall₂_congr fun e he => (counted_iff_balanced (h.attachments e he).2.2.2).symm
  rw [← counted_iff_balanced h.payload, hattachments, ← parseAttachments_text h.attachments,
    Command.text, parse_of_words h.actorId.2 h.opName.2]
  constructor
  · rintro ⟨c', hparse, hsame⟩
    cases hjson : nextJsonStr (c.payload ++ attachmentsText c.attachments) with
    | error f =>
      rw [hjson] at hparse
      cases hparse
    | ok r =>
      obtain ⟨payload, left⟩ := r
      cases hleft : parseAttachments left with
      | error f =>
        simp only [hjson, hleft, bind, Except.bind] at hparse
        cases hparse
      | ok l =>
        simp only [hjson, hleft, bind, Except.bind] at hparse
        obtain rfl := Except.ok.inj hparse
        obtain rfl : payload = c.payload := hsame.payload
        obtain ⟨heq, hcounted⟩ := nextJsonStr_eq_ok.mp hjson
        obtain rfl := append_cancel_left heq
        exact ⟨hcounted, l, hleft, hsame.attachments⟩
  · rintro ⟨hcounted, l, hparse, hsame⟩
    refine ⟨{ actorId := c.actorId, opName := c.opName, payload := c.payload, attachments := l },
      ?_, rfl, rfl, rfl,
      hsame⟩
    simp only [nextJsonStr_eq_ok.mpr ⟨rfl, hcounted⟩, bind, Except.bind, hparse]
    rfl

end Refusing

/-- **Where the parser is right.** A command is read as it was written just if none of its objects
is `{}` and the braces of each are balanced, those in its strings too; another text is a syntax
error just if it has an actor and an operation, and something else than an object where the payload
or the object of an attachment is to be. -/
theorem right_iff_balanced (s : Text) :
    Right s ↔
      (∀ c : Command, c.WellFormed → c.text = s →
        Balanced c.payload ∧ ∀ e ∈ c.attachments, Balanced e.2) ∧
        ((¬ ∃ c : Command, c.WellFormed ∧ c.text = s) → Refused s) := by
  constructor
  · rintro ⟨hcommand, hother⟩
    refine ⟨fun c hc htext => ?_, fun hnone => parse_eq_syntaxError.mp (hother hnone)⟩
    subst htext
    exact (parse_text hc).mp (hcommand c hc rfl)
  · rintro ⟨hcommand, hother⟩
    refine ⟨fun c hc htext => ?_, fun hnone => parse_eq_syntaxError.mpr (hother hnone)⟩
    subst htext
    exact (parse_text hc).mpr (hcommand c hc rfl)

/-- A command with an empty object. -/
def emptyPayload : Command :=
  { actorId := "store.service".toList, opName := "list".toList, payload := "{}".toList,
    attachments := [] }

/-- The parser runs over the end of the text. -/
theorem not_right_emptyPayload : ¬ Right emptyPayload.text := by
  intro h
  have hwell : emptyPayload.WellFormed := by
    refine ⟨by decide, by decide, ⟨[], .inl ?_, rfl⟩, ?_⟩
    · intro c hc
      cases hc
    · intro e he
      cases he
  obtain ⟨c, hparse, -⟩ := h.command emptyPayload hwell rfl
  have hout : parse emptyPayload.text = .error .outOfRange := rfl
  rw [hout] at hparse
  cases hparse

end Idgs.Client.CommandParser
