import Idgs.Common.Text
import Idgs.Expr.Factory
import Mathlib.Algebra.Group.Nat.Defs
import Mathlib.Data.Nat.Find

/-!
# FIND_IN_SET

The list is padded with a comma on each side that has none, the element is searched between commas,
and the commas up to it are counted. A list that begins with an empty element is not shifted, and an
empty element at its end is lost.
-/

namespace Idgs.Expr.FindInSet

open Common List

/-! ## Evaluation -/

/-- The position of a search as an `int32_t`; `npos` is -1. -/
def position (found : Option ℕ) : Int32 :=
  match found with
  | none => -1
  | some pos => Int32.ofNat pos

/-- The next comma from a position on. A negative position is behind the end of any text as a
`size_t`. -/
def nextComma (strlist : List Char) (pos : Int32) : Option ℕ :=
  if pos.toInt < 0 then none else Text.find strlist [','] pos.toInt.toNat

/-- The loop of `FindInSetExpression::evaluate`; `none` is a loop that has not ended. -/
def countLoop (strlist : List Char) (pos : Int32) : ℕ → (cpos result : Int32) → Option Int32
  | 0, _, _ => none
  | fuel + 1, cpos, result =>
    if cpos = pos then some result
    else countLoop strlist pos fuel (position (nextComma strlist (cpos + 1))) (result + 1)

/-- The list with a comma on both sides. -/
def padList (strlist : List Char) : List Char :=
  let strlist := if strlist.head? = some ',' then strlist else ',' :: strlist
  if strlist.getLast? = some ',' then strlist else strlist ++ [',']

/-- `FindInSetExpression::evaluate` for the texts of the children. -/
def evaluate (fuel : ℕ) (str strlist : List Char) : Option Int32 :=
  if strlist = [] then some 0
  else if ',' ∈ str then some (-1)
  else
    let str := ',' :: str ++ [',']
    let strlist := padList strlist
    let pos := position (Text.find strlist str 0)
    if pos = -1 then some 0 else countLoop strlist pos fuel (-1) 0

/-! ## Lists between commas -/

/-- Elements between commas. -/
def enclosed : List (List Char) → List Char
  | [] => [',']
  | d :: ds => ',' :: (d ++ enclosed ds)

/-- The position of the comma before an element, or of the last one. -/
def offset : List (List Char) → ℕ → ℕ
  | d :: ds, j + 1 => d.length + 1 + offset ds j
  | _, _ => 0

variable {s d : List Char} {ds es : List (List Char)} {i j k : ℕ}

@[simp] theorem offset_zero (ds : List (List Char)) : offset ds 0 = 0 := by
  cases ds <;> rfl

theorem offset_lt (hij : i < j) (hj : j ≤ ds.length) : offset ds i < offset ds j := by
  induction ds generalizing i j with
  | nil => exact absurd hj (by rw [length_nil]; omega)
  | cons d ds ih =>
    obtain ⟨j, rfl⟩ := Nat.exists_eq_succ_of_ne_zero (by omega : j ≠ 0)
    cases i with
    | zero =>
      rw [offset_zero, offset]
      omega
    | succ i =>
      have hrest := ih (Nat.lt_of_succ_lt_succ hij) (Nat.le_of_succ_le_succ hj)
      rw [offset, offset]
      omega

theorem le_offset (hj : j ≤ ds.length) : j ≤ offset ds j := by
  induction j with
  | zero => exact Nat.zero_le _
  | succ j ih =>
    have hstep := offset_lt (Nat.lt_add_one j) hj
    have hle := ih (by omega)
    omega

section

variable (hds : ∀ d ∈ ds, ',' ∉ d)

include hds

/-- The commas are before the elements and at the end. -/
theorem getElem_enclosed_iff :
    (enclosed ds)[k]? = some ',' ↔ ∃ j ≤ ds.length, offset ds j = k := by
  induction ds generalizing k with
  | nil =>
    cases k with
    | zero => exact ⟨fun _ => ⟨0, le_rfl, rfl⟩, fun _ => rfl⟩
    | succ k =>
      refine ⟨fun h => ?_, ?_⟩
      · cases h
      · rintro ⟨j, hj, hk⟩
        rw [Nat.le_zero.mp hj, offset_zero] at hk
        omega
  | cons d ds ih =>
    obtain ⟨hd, hrest⟩ := forall_mem_cons.mp hds
    cases k with
    | zero => exact ⟨fun _ => ⟨0, Nat.zero_le _, rfl⟩, fun _ => rfl⟩
    | succ k =>
      rw [enclosed, getElem?_cons_succ]
      rcases Nat.lt_or_ge k d.length with hlt | hge
      · rw [getElem?_append_left hlt]
        refine ⟨fun h => absurd (mem_of_getElem? h) hd, ?_⟩
        rintro ⟨j, -, hj⟩
        cases j with
        | zero =>
          rw [offset_zero] at hj
          omega
        | succ j =>
          rw [offset] at hj
          omega
      · rw [getElem?_append_right hge, ih hrest]
        constructor
        · rintro ⟨j, hj, hk⟩
          refine ⟨j + 1, Nat.succ_le_succ hj, ?_⟩
          rw [offset]
          omega
        · rintro ⟨j, hj, hk⟩
          cases j with
          | zero =>
            rw [offset_zero] at hk
            omega
          | succ j =>
            rw [offset] at hk
            exact ⟨j, Nat.le_of_succ_le_succ hj, by omega⟩

/-- The first comma from a position on is the first one of those that are not before it. -/
theorem find_comma {pos : ℕ} (hj : j ≤ ds.length)
    (hpos : pos ≤ offset ds j) :
    ∃ i ≤ j, Text.find (enclosed ds) [','] pos = some (offset ds i) := by
  induction j with
  | zero =>
    refine ⟨0, le_rfl,
      Text.find_char_eq_some_iff.mpr ⟨hpos, (getElem_enclosed_iff hds).mpr ⟨0, hj, rfl⟩, ?_⟩⟩
    intro k _ hk
    rw [offset_zero] at hk
    omega
  | succ j ih =>
    by_cases hle : pos ≤ offset ds j
    · obtain ⟨i, hi, hfind⟩ := ih (by omega) hle
      exact ⟨i, by omega, hfind⟩
    · refine ⟨j + 1, le_rfl,
        Text.find_char_eq_some_iff.mpr ⟨hpos, (getElem_enclosed_iff hds).mpr ⟨_, hj, rfl⟩, ?_⟩⟩
      intro k hk hlt hcomma
      obtain ⟨m, hm, rfl⟩ := (getElem_enclosed_iff hds).mp hcomma
      rcases Nat.lt_or_ge j m with hjm | hmj
      · rcases Nat.eq_or_lt_of_le (hjm : j + 1 ≤ m) with rfl | hlt'
        · exact lt_irrefl _ hlt
        · have hmono : offset ds (j + 1) < offset ds m := offset_lt hlt' hm
          omega
      · rcases Nat.eq_or_lt_of_le hmj with rfl | hlt'
        · omega
        · have hmono := offset_lt hlt' (by omega : j ≤ ds.length)
          omega

/-- Behind a comma, the next one is found. -/
theorem find_next (hj : j < ds.length) :
    Text.find (enclosed ds) [','] (offset ds j + 1) = some (offset ds (j + 1)) := by
  have hstep := offset_lt (Nat.lt_add_one j) hj
  obtain ⟨i, hi, hfind⟩ := find_comma hds hj hstep
  rw [hfind]
  rcases Nat.eq_or_lt_of_le hi with rfl | hlt
  · rfl
  · have hpos := (Text.find_char_eq_some_iff.mp hfind).1
    rcases Nat.eq_or_lt_of_le (Nat.le_of_lt_succ hlt) with rfl | hlt'
    · omega
    · have hmono := offset_lt hlt' (Nat.le_of_lt hj)
      omega

end

/-- An element between commas is found at the first place where it is one. -/
theorem indexOf_enclosed (hs : ',' ∉ s) (hds : ∀ d ∈ ds, ',' ∉ d) :
    Text.indexOf (',' :: s ++ [',']) (enclosed ds) = if s ∈ ds then some (offset ds (ds.idxOf s))
    else none := by
  induction ds with
  | nil =>
    rw [if_neg not_mem_nil, enclosed, Text.indexOf, if_neg, Text.indexOf,
      if_neg (append_ne_nil_of_right_ne_nil _ (cons_ne_nil _ _)), Option.map_none]
    intro hpre
    have hlength := hpre.length_le
    rw [length_append, length_cons, length_singleton] at hlength
    omega
  | cons d ds ih =>
    obtain ⟨hd, hrest⟩ := forall_mem_cons.mp hds
    obtain ⟨rest, henclosed⟩ : ∃ rest, enclosed ds = ',' :: rest := by
      cases ds with
      | nil => exact ⟨_, rfl⟩
      | cons d ds => exact ⟨_, rfl⟩
    by_cases hsd : s = d
    · subst hsd
      have hpre : ',' :: s ++ [','] <+: ',' :: (s ++ enclosed ds) := by
        rw [henclosed, cons_append, cons_prefix_cons, prefix_append_right_inj]
        exact ⟨rfl, prefix_append [','] rest⟩
      rw [if_pos mem_cons_self, idxOf_cons_self, offset_zero, enclosed, Text.indexOf, if_pos hpre]
    · have hpre : ¬ ',' :: s ++ [','] <+: ',' :: (d ++ enclosed ds) := by
        rintro ⟨tail, htail⟩
        refine hsd ?_
        have hdrop := congrArg (fun l => (l.drop 1).takeWhile (· ≠ ',')) htail
        rw [henclosed] at hdrop
        simp only [cons_append, append_assoc, drop_succ_cons, drop_zero, nil_append] at hdrop
        rw [Text.takeWhile_append_cons hs, Text.takeWhile_append_cons hd] at hdrop
        exact hdrop
      rw [enclosed, Text.indexOf, if_neg hpre, cons_append, Text.indexOf_append_of_notMem hd,
        ← cons_append, ih hrest, idxOf_cons_ne _ (Ne.symm hsd)]
      by_cases hmem : s ∈ ds
      · rw [if_pos hmem, if_pos (mem_cons_of_mem _ hmem), offset, Option.map_some,
          Option.map_some]
        refine congrArg some ?_
        omega
      · rw [if_neg hmem, if_neg (by simp [hsd, hmem]), Option.map_none, Option.map_none]

/-! ## The loop -/

section Loop

variable {pos cpos result r : Int32} {fuel : ℕ}

theorem ofNat_eq_iff {a b : ℕ} : Int32.ofNat a = Int32.ofNat b ↔ a % 2 ^ 32 = b % 2 ^ 32 := by
  rw [← Int32.toBitVec_inj, Int32.toBitVec_ofNat', Int32.toBitVec_ofNat', ← BitVec.toNat_inj,
    BitVec.toNat_ofNat, BitVec.toNat_ofNat]

theorem ofNat_eq_neg_one_iff {a : ℕ} : Int32.ofNat a = -1 ↔ (a + 1) % 2 ^ 32 = 0 := by
  have hneg : (-1 : Int32) = Int32.ofNat (2 ^ 32 - 1) := rfl
  rw [hneg, ofNat_eq_iff]
  omega

/-- A loop that has ended stays as it is with more rounds. -/
theorem countLoop_add {strlist : List Char} (h : countLoop strlist pos fuel cpos result = some r)
    (more : ℕ) :
    countLoop strlist pos (fuel + more) cpos result = some r := by
  induction fuel generalizing cpos result with
  | zero => cases h
  | succ fuel ih =>
    rw [Nat.succ_add, countLoop]
    rw [countLoop] at h
    split
    · rwa [if_pos ‹_›] at h
    · rw [if_neg ‹_›] at h
      exact ih h

section

variable (hds : ∀ d ∈ ds, ',' ∉ d)

include hds

/-- From a comma that is not the one looked for, and whose position is far below the limit, the loop
goes on to the next one. -/
theorem countLoop_next (hj : j < ds.length)
    (hsmall : offset ds j < 2 ^ 31 - 1) (hpos : Int32.ofNat (offset ds j) ≠ pos) :
    countLoop (enclosed ds) pos (fuel + 1) (Int32.ofNat (offset ds j)) result =
      countLoop (enclosed ds) pos fuel (Int32.ofNat (offset ds (j + 1))) (result + 1) := by
  have hsucc : Int32.ofNat (offset ds j) + 1 = Int32.ofNat (offset ds j + 1) :=
    (Int32.ofNat_add _ _).symm
  have htoInt : (Int32.ofNat (offset ds j + 1)).toInt = (offset ds j + 1 : ℕ) :=
    Int32.toInt_ofNat_of_lt (by omega)
  rw [countLoop, if_neg hpos, hsucc, nextComma, htoInt, if_neg (by omega), Int.toNat_natCast,
    find_next hds hj]
  rfl

/-- Without meeting the position, the loop comes to every comma in turn. -/
theorem countLoop_reach (hi : i ≤ ds.length) (hneg : pos ≠ -1)
    (hbefore : ∀ m < i, offset ds m < 2 ^ 31 - 1 ∧ Int32.ofNat (offset ds m) ≠ pos) :
    countLoop (enclosed ds) pos (fuel + (i + 1)) (-1) 0 =
      countLoop (enclosed ds) pos fuel (Int32.ofNat (offset ds i)) (Int32.ofNat (i + 1)) := by
  induction i generalizing fuel with
  | zero =>
    obtain ⟨i, hi, hfind⟩ := find_comma hds (Nat.zero_le ds.length) (Nat.zero_le _)
    obtain rfl := Nat.le_zero.mp hi
    have hnext : nextComma (enclosed ds) (-1 + 1) = some (offset ds 0) := hfind
    rw [countLoop, if_neg (Ne.symm hneg), hnext]
    rfl
  | succ i ih =>
    obtain ⟨hsmall, hpos⟩ := hbefore i (Nat.lt_add_one i)
    have hfuel : fuel + (i + 1 + 1) = fuel + 1 + (i + 1) := by omega
    rw [hfuel, ih (by omega) fun m hm => hbefore m (by omega),
      countLoop_next hds (by omega) hsmall hpos]
    exact congrArg _ (Int32.ofNat_add (i + 1) 1).symm

/-- If a comma comes so late that its position is the last one of an `int32_t`, no comma behind it
is ever looked at: without the position before, the loop does not end. -/
theorem countLoop_stuck (hj : j ≤ ds.length)
    (hlate : 2 ^ 31 - 1 ≤ offset ds j)
    (hneg : pos ≠ -1) (hbefore : ∀ m ≤ j, Int32.ofNat (offset ds m) ≠ pos) (hcpos : cpos ≠ pos)
    (fuel : ℕ) (result : Int32) : countLoop (enclosed ds) pos fuel cpos result = none := by
  induction fuel generalizing cpos result with
  | zero => rfl
  | succ fuel ih =>
    rw [countLoop, if_neg hcpos]
    refine ih ?_ _
    rw [nextComma]
    split
    · exact Ne.symm hneg
    · have hlt := (cpos + 1).toInt_lt
      obtain ⟨i, hi, hfind⟩ := find_comma hds hj (by omega : (cpos + 1).toInt.toNat ≤ offset ds j)
      rw [hfind]
      exact hbefore i hi

end

/-- The position of a comma, and those before it, as the loop compares them. -/
def MetFirst (ds : List (List Char)) (i j : ℕ) : Prop :=
  offset ds j % 2 ^ 32 = offset ds i % 2 ^ 32 ∧
    ∀ m < j, offset ds m < 2 ^ 31 - 1 ∧ offset ds m % 2 ^ 32 ≠ offset ds i % 2 ^ 32

/-- The loop counts up to the first comma that it takes for the one looked for. -/
theorem countLoop_iff (hds : ∀ d ∈ ds, ',' ∉ d) (hi : i ≤ ds.length)
    (hneg : Int32.ofNat (offset ds i) ≠ -1) :
    (∃ fuel, countLoop (enclosed ds) (Int32.ofNat (offset ds i)) fuel (-1) 0 = some r) ↔
      ∃ j ≤ i, MetFirst ds i j ∧ r = Int32.ofNat (j + 1) := by
  have hends : ∀ j ≤ i, MetFirst ds i j → ∀ fuel,
      countLoop (enclosed ds) (Int32.ofNat (offset ds i)) (fuel + 1 + (j + 1)) (-1) 0 =
        some (Int32.ofNat (j + 1)) := by
    intro j hj hfirst fuel
    rw [countLoop_reach hds (hj.trans hi) hneg fun m hm =>
      ⟨(hfirst.2 m hm).1, mt ofNat_eq_iff.mp (hfirst.2 m hm).2⟩,
      countLoop, if_pos (ofNat_eq_iff.mpr hfirst.1)]
  constructor
  · rintro ⟨fuel, hfuel⟩
    have hexists : ∃ j, offset ds j % 2 ^ 32 = offset ds i % 2 ^ 32 ∨ 2 ^ 31 - 1 ≤ offset ds j :=
      ⟨i, .inl rfl⟩
    have hle : Nat.find hexists ≤ i := Nat.find_min' hexists (.inl rfl)
    have hbefore : ∀ m < Nat.find hexists,
        offset ds m < 2 ^ 31 - 1 ∧ offset ds m % 2 ^ 32 ≠ offset ds i % 2 ^ 32 := fun m hm => by
      obtain ⟨hne, hsmall⟩ := not_or.mp (Nat.find_min hexists hm)
      exact ⟨Nat.not_le.mp hsmall, hne⟩
    by_cases hmet : offset ds (Nat.find hexists) % 2 ^ 32 = offset ds i % 2 ^ 32
    · refine ⟨Nat.find hexists, hle, ⟨hmet, hbefore⟩, ?_⟩
      have hmore := countLoop_add hfuel (1 + (Nat.find hexists + 1))
      rw [← Nat.add_assoc, hends _ hle ⟨hmet, hbefore⟩ fuel] at hmore
      exact (Option.some.inj hmore).symm
    · have hlate := (Nat.find_spec hexists).resolve_left hmet
      have hne : ∀ m ≤ Nat.find hexists, Int32.ofNat (offset ds m) ≠ Int32.ofNat (offset ds i) :=
        fun m hm => by
        refine mt ofNat_eq_iff.mp ?_
        rcases Nat.eq_or_lt_of_le hm with rfl | hlt
        · exact hmet
        · exact (hbefore m hlt).2
      rw [countLoop_stuck hds (hle.trans hi) hlate hneg hne (Ne.symm hneg)] at hfuel
      cases hfuel
  · rintro ⟨j, hj, hfirst, rfl⟩
    exact ⟨0 + 1 + (j + 1), hends j hj hfirst 0⟩

end Loop

/-! ## The padded list -/

/-- The elements without an empty one at the end. -/
def closed (es : List (List Char)) : List (List Char) :=
  if es.getLast? = some [] then es.dropLast else es

theorem closed_cons (d : List Char) (hds : ds ≠ []) : closed (d :: ds) = d :: closed ds := by
  obtain ⟨e, ds, rfl⟩ := exists_cons_of_ne_nil hds
  rw [closed, closed, getLast?_cons_cons, dropLast_cons_cons]
  split
  · rfl
  · rfl

theorem closed_prefix_self (es : List (List Char)) : closed es <+: es := by
  rw [closed]
  split
  · exact dropLast_prefix es
  · exact prefix_rfl

/-- The elements that come to stand between the commas of the padded list. -/
def padded (es : List (List Char)) : List (List Char) :=
  if es.head? = some [] then (closed es).tail else closed es

theorem enclosed_eq (ds : List (List Char)) : enclosed ds = ',' :: ds.flatMap (· ++ [',']) := by
  induction ds with
  | nil => rfl
  | cons d ds ih => rw [enclosed, ih, flatMap_cons, append_assoc, singleton_append]

theorem splitChars_ne_nil (sep : Char) (l : List Char) : splitChars sep l ≠ [] := by
  obtain ⟨parts, hparts⟩ := exists_splitChars sep l
  rw [hparts]
  exact cons_ne_nil _ _

/-- Every element followed by a comma is the list followed by one. -/
theorem flatMap_splitChars (l : List Char) :
    (splitChars ',' l).flatMap (· ++ [',']) = l ++ [','] := by
  induction l with
  | nil => rfl
  | cons c l ih =>
    obtain ⟨parts, hparts⟩ := exists_splitChars ',' l
    rw [splitChars]
    split
    · rename_i hc
      rw [flatMap_cons, ih, hc]
      rfl
    · rw [hparts] at ih ⊢
      rw [flatMap_cons] at ih ⊢
      rw [cons_append, cons_append, cons_append, ih]

theorem notMem_of_mem_splitChars {sep : Char} {l part : List Char} (h : part ∈ splitChars sep l) :
    sep ∉ part := by
  induction l generalizing part with
  | nil =>
    rw [mem_singleton.mp h]
    exact not_mem_nil
  | cons c l ih =>
    obtain ⟨parts, hparts⟩ := exists_splitChars sep l
    rw [splitChars] at h
    split at h
    · rcases mem_cons.mp h with rfl | hrest
      · exact not_mem_nil
      · exact ih hrest
    · rename_i hc
      rw [hparts] at h ih
      rcases mem_cons.mp h with rfl | hrest
      · rw [mem_cons, not_or]
        exact ⟨Ne.symm hc, ih mem_cons_self⟩
      · exact ih (mem_cons_of_mem _ hrest)

/-- The first element is empty exactly if the list begins with a comma. -/
theorem head_splitChars_iff {l : List Char} (hl : l ≠ []) :
    (splitChars ',' l).head? = some [] ↔ l.head? = some ',' := by
  obtain ⟨c, l, rfl⟩ := exists_cons_of_ne_nil hl
  obtain ⟨parts, hparts⟩ := exists_splitChars ',' (c :: l)
  rw [hparts, head?_cons, head?_cons, Option.some.injEq, Option.some.injEq, takeWhile_cons]
  by_cases hc : c = ','
  · simp [hc]
  · simp [hc]

/-- The commas behind the elements, and behind the last one if the list does not end with one. -/
theorem flatMap_closed (l : List Char) (hl : l ≠ []) :
    (closed (splitChars ',' l)).flatMap (· ++ [',']) = if l.getLast? = some ',' then l
    else l ++ [','] := by
  rcases eq_nil_or_concat l with rfl | ⟨front, c, rfl⟩
  · exact absurd rfl hl
  · rw [concat_eq_append, getLast?_concat]
    by_cases hc : c = ','
    · subst hc
      have hsplit : splitChars ',' (front ++ [',']) = splitChars ',' front ++ [[]] :=
        splitChars_append ',' front []
      rw [if_pos rfl, hsplit, closed, getLast?_concat, if_pos rfl, dropLast_concat,
        flatMap_splitChars]
    · have hlast : (splitChars ',' (front ++ [c])).getLast? ≠ some [] := by
        intro hlast
        obtain ⟨es, hes⟩ := getLast?_eq_some_iff.mp hlast
        have hflat := flatMap_splitChars (front ++ [c])
        rw [hes, flatMap_append, flatMap_singleton, nil_append, append_left_inj] at hflat
        rcases eq_nil_or_concat es with rfl | ⟨es, e, rfl⟩
        · exact absurd hflat (by simp)
        · rw [concat_eq_append, flatMap_append, flatMap_singleton, ← append_assoc] at hflat
          have hend := congrArg List.getLast? hflat
          rw [getLast?_concat, getLast?_concat] at hend
          exact hc (Option.some.inj hend).symm
      rw [if_neg (by simpa using hc), closed, if_neg hlast, flatMap_splitChars]

/-- The padded list has its elements between commas. -/
theorem padList_eq (l : List Char) (hl : l ≠ []) :
    padList l = enclosed (padded (splitChars ',' l)) := by
  have hlast : ∀ d, (d :: l).getLast? = l.getLast? := fun d => by
    obtain ⟨c, l, rfl⟩ := exists_cons_of_ne_nil hl
    exact getLast?_cons_cons
  unfold padList padded
  simp only [head_splitChars_iff hl]
  by_cases hhead : l.head? = some ','
  · simp only [if_pos hhead]
    rw [← flatMap_closed l hl, enclosed_eq]
    obtain ⟨rest, rfl⟩ : ∃ rest, l = ',' :: rest := head?_eq_some_iff.mp hhead
    have hsplit : splitChars ',' (',' :: rest) = [] :: splitChars ',' rest := if_pos rfl
    rw [hsplit, closed_cons [] (splitChars_ne_nil ',' rest), flatMap_cons]
    rfl
  · simp only [if_neg hhead]
    rw [enclosed_eq, flatMap_closed l hl, hlast]
    split
    · rfl
    · rfl

/-! ## The position in the list -/

/-- The position of the first element that is equal, from 1 on; 0 if there is none. -/
def expected (s : List Char) (es : List (List Char)) : ℤ := if s ∈ es then es.idxOf s + 1 else 0

/-- The evaluation ends with the position. -/
def Right (s strlist : List Char) : Prop :=
  ∃ fuel r, evaluate fuel s strlist = some r ∧ r.toInt = expected s (splitChars ',' strlist)

/-- The commas before an element are counted one by one: their positions are below the last one of
an `int32_t` and differ from that of the element as such, which is not -1; the result is an
`int32_t`. -/
def CountFits (ds : List (List Char)) (i : ℕ) : Prop :=
  (offset ds i + 1) % 2 ^ 32 ≠ 0 ∧ i + 1 < 2 ^ 31 ∧
    ∀ m < i, offset ds m < 2 ^ 31 - 1 ∧ offset ds m % 2 ^ 32 ≠ offset ds i % 2 ^ 32

/-- There is no such element; or it is not an empty one at the end only, and either the list does
not begin with a comma and the commas can be counted, or it does, the element is empty, and the
first one that counts is at once behind the first comma. -/
def Counted (s : List Char) (es : List (List Char)) : Prop :=
  s ∉ es ∨ s ∈ padded es ∧
    if es.head? = some [] then s = [] ∧ offset (padded es) ((padded es).idxOf s) % 2 ^ 32 = 0
    else CountFits (padded es) ((padded es).idxOf s)

section Position

variable {strlist : List Char} {r : Int32}

theorem padded_notMem (strlist : List Char) : ∀ d ∈ padded (splitChars ',' strlist), ',' ∉ d := by
  intro d hd
  refine notMem_of_mem_splitChars (l := strlist) ?_
  unfold padded at hd
  split at hd
  · exact (closed_prefix_self _).subset (mem_of_mem_tail hd)
  · exact (closed_prefix_self _).subset hd

/-- What the evaluation gives: 0, or the number of commas up to the one taken for the element's. -/
theorem evaluate_iff (hs : ',' ∉ s) (hlist : strlist ≠ []) {ds : List (List Char)}
    (hds : padded (splitChars ',' strlist) = ds) :
    (∃ fuel, evaluate fuel s strlist = some r) ↔
      (s ∉ ds ∨ (offset ds (ds.idxOf s) + 1) % 2 ^ 32 = 0) ∧ r = 0 ∨
      (s ∈ ds ∧ (offset ds (ds.idxOf s) + 1) % 2 ^ 32 ≠ 0) ∧
        ∃ j ≤ ds.idxOf s, MetFirst ds (ds.idxOf s) j ∧ r = Int32.ofNat (j + 1) := by
  have hnotMem : ∀ d ∈ ds, ',' ∉ d := hds ▸ padded_notMem strlist
  have hfound : Text.find (padList strlist) (',' :: s ++ [',']) 0 =
      if s ∈ ds then some (offset ds (ds.idxOf s)) else none := by
    rw [Text.find_zero, padList_eq strlist hlist, hds, indexOf_enclosed hs hnotMem]
  have hevaluate : ∀ fuel, evaluate fuel s strlist =
      if position (if s ∈ ds then some (offset ds (ds.idxOf s)) else none) = -1 then some 0
      else countLoop (enclosed ds)
        (position (if s ∈ ds then some (offset ds (ds.idxOf s)) else none)) fuel (-1) 0 := by
    intro fuel
    simp only [evaluate, if_neg hlist, if_neg hs]
    rw [hfound, padList_eq strlist hlist, hds]
  simp only [hevaluate]
  by_cases hmem : s ∈ ds
  · rw [if_pos hmem]
    by_cases hneg : (offset ds (ds.idxOf s) + 1) % 2 ^ 32 = 0
    · have hposition : position (some (offset ds (ds.idxOf s))) = -1 :=
        ofNat_eq_neg_one_iff.mpr hneg
      simp only [hposition, if_true, Option.some.injEq, exists_const, hneg, or_true, true_and,
        ne_eq, not_true_eq_false, and_false, false_and, or_false]
      exact eq_comm
    · have hposition : ¬ position (some (offset ds (ds.idxOf s))) = -1 :=
        mt ofNat_eq_neg_one_iff.mp hneg
      simp only [if_neg hposition, hmem, not_true_eq_false, hneg, or_false, false_and, false_or,
        ne_eq, not_false_eq_true, true_and]
      exact countLoop_iff hnotMem (idxOf_lt_length_iff.mpr hmem).le hposition
  · have hposition : position none = -1 := rfl
    rw [if_neg hmem]
    simp only [hposition, if_true, Option.some.injEq, exists_const, hmem, not_false_eq_true,
      true_or, true_and, false_and, or_false]
    exact eq_comm

/-- The loop counts less than the commas whose positions it can go on from. -/
theorem MetFirst.le {ds : List (List Char)} (h : MetFirst ds i j) (hj : j ≤ ds.length) :
    j + 1 ≤ 2 ^ 31 := by
  cases j with
  | zero => decide
  | succ j =>
    have hle := le_offset (Nat.le_of_succ_le hj)
    have hlt := (h.2 j (Nat.lt_add_one j)).1
    omega

theorem eq_of_toInt_ofNat {n k : ℕ} (hn : n ≤ 2 ^ 31) (h : (Int32.ofNat n).toInt = k + 1) :
    n = k + 1 ∧ n < 2 ^ 31 := by
  have hsize : Int32.size = 2 ^ 32 := rfl
  rw [Int32.toInt_ofNat', hsize, Int.bmod_def] at h
  split at h
  · omega
  · omega

/-- In a list that does not begin with a comma, the elements are where they are between the
commas. -/
theorem idxOf_padded (hhead : es.head? ≠ some []) (hs : s ∈ padded es) :
    s ∈ es ∧ es.idxOf s = (padded es).idxOf s := by
  rw [padded, if_neg hhead] at hs ⊢
  obtain ⟨rest, hrest⟩ := closed_prefix_self es
  refine ⟨(closed_prefix_self es).subset hs, ?_⟩
  calc es.idxOf s = (closed es ++ rest).idxOf s := by rw [hrest]
    _ = (closed es).idxOf s := idxOf_append_of_mem hs

/-- In a list that begins with a comma, they are one element later. -/
theorem idxOf_padded_of_head (hhead : es.head? = some []) (hs : s ∈ padded es) :
    s ∈ es ∧ es.idxOf s = if s = [] then 0 else (padded es).idxOf s + 1 := by
  rw [padded, if_pos hhead] at hs ⊢
  obtain ⟨rest, rfl⟩ := head?_eq_some_iff.mp hhead
  cases rest with
  | nil => exact absurd hs not_mem_nil
  | cons d rest =>
    rw [closed_cons [] (cons_ne_nil d rest), tail_cons] at hs ⊢
    obtain ⟨last, hlast⟩ := closed_prefix_self (d :: rest)
    refine ⟨mem_cons_of_mem _ ((closed_prefix_self _).subset hs), ?_⟩
    split
    · rename_i hnil
      rw [hnil, idxOf_cons_self]
    · rename_i hnil
      rw [idxOf_cons_ne _ (Ne.symm hnil)]
      refine congrArg (· + 1) ?_
      calc (d :: rest).idxOf s = (closed (d :: rest) ++ last).idxOf s := by rw [hlast]
        _ = (closed (d :: rest)).idxOf s := idxOf_append_of_mem hs

theorem expected_of_mem (h : s ∈ es) : expected s es = (es.idxOf s : ℕ) + 1 := if_pos h

/-- FIND_IN_SET ends with the position of the first equal element exactly if there is none or its
comma is counted as the one that it is. -/
theorem findInSet_iff (hs : ',' ∉ s) (hlist : strlist ≠ []) :
    Right s strlist ↔ Counted s (splitChars ',' strlist) := by
  constructor
  · rintro ⟨fuel, r, hevaluate, hr⟩
    refine or_iff_not_imp_left.mpr fun hmem => ?_
    rw [expected_of_mem (not_not.mp hmem)] at hr
    rcases (evaluate_iff hs hlist rfl).mp ⟨fuel, hevaluate⟩ with ⟨-, rfl⟩ | ⟨⟨hpadded, hneg⟩, j, hj,
      hmet, rfl⟩
    · exact absurd hr (by rw [Int32.toInt_zero]; omega)
    · obtain ⟨heq, hlt⟩ :=
        eq_of_toInt_ofNat (hmet.le (hj.trans (List.idxOf_lt_length_iff.mpr hpadded).le)) hr
      refine ⟨hpadded, ?_⟩
      by_cases hhead : (splitChars ',' strlist).head? = some []
      · rw [if_pos hhead]
        rw [(idxOf_padded_of_head hhead hpadded).2] at heq
        by_cases hnil : s = []
        · rw [if_pos hnil] at heq
          obtain rfl : j = 0 := by omega
          refine ⟨hnil, ?_⟩
          rw [← hmet.1, offset_zero, Nat.zero_mod]
        · rw [if_neg hnil] at heq
          omega
      · rw [if_neg hhead]
        rw [(idxOf_padded hhead hpadded).2] at heq
        obtain rfl : j = (padded (splitChars ',' strlist)).idxOf s := by omega
        exact ⟨hneg, hlt, hmet.2⟩
  · rintro (hmem | ⟨hpadded, hcounted⟩)
    · have hpadded : s ∉ padded (splitChars ',' strlist) := fun hpadded => by
        by_cases hhead : (splitChars ',' strlist).head? = some []
        · exact hmem (idxOf_padded_of_head hhead hpadded).1
        · exact hmem (idxOf_padded hhead hpadded).1
      obtain ⟨fuel, hfuel⟩ := (evaluate_iff hs hlist rfl).mpr (.inl ⟨.inl hpadded, rfl⟩)
      exact ⟨fuel, 0, hfuel, (if_neg hmem).symm⟩
    · by_cases hhead : (splitChars ',' strlist).head? = some []
      · rw [if_pos hhead] at hcounted
        obtain ⟨hmem, hindex⟩ := idxOf_padded_of_head hhead hpadded
        have hmet : MetFirst (padded (splitChars ',' strlist))
            ((padded (splitChars ',' strlist)).idxOf s) 0 :=
          ⟨by rw [hcounted.2, offset_zero, Nat.zero_mod], fun m hm => absurd hm (Nat.not_lt_zero m)⟩
        obtain ⟨fuel, hfuel⟩ :=
          (evaluate_iff hs hlist rfl).mpr (.inr ⟨⟨hpadded, by omega⟩, 0, Nat.zero_le _, hmet, rfl⟩)
        refine ⟨fuel, _, hfuel, ?_⟩
        rw [expected_of_mem hmem, hindex, if_pos hcounted.1]
        rfl
      · rw [if_neg hhead] at hcounted
        obtain ⟨hmem, hindex⟩ := idxOf_padded hhead hpadded
        obtain ⟨hneg, hlt, hbefore⟩ := hcounted
        obtain ⟨fuel, hfuel⟩ :=
          (evaluate_iff hs hlist rfl).mpr (.inr ⟨⟨hpadded, hneg⟩, _, le_rfl, ⟨rfl, hbefore⟩, rfl⟩)
        refine ⟨fuel, _, hfuel, ?_⟩
        rw [expected_of_mem hmem, hindex, Int32.toInt_ofNat_of_lt hlt]
        rfl

theorem findInSet_iff_world : Right "world".toList "hello,world".toList ↔
    Counted "world".toList (splitChars ',' "hello,world".toList) :=
  findInSet_iff (by decide) (by decide)

/-- An empty first element: `a` is the second one, and 1 is the result. -/
theorem not_right_emptyFirst : ¬ Right ['a'] [',', 'a'] := by
  rintro ⟨fuel, r, hevaluate, hr⟩
  have hpadded : padded (splitChars ',' [',', 'a']) = [['a']] := by decide
  have hexpected : expected ['a'] (splitChars ',' [',', 'a']) = 2 := by decide
  rw [hexpected] at hr
  rcases (evaluate_iff (by decide) (by decide) hpadded).mp ⟨fuel, hevaluate⟩ with ⟨-, rfl⟩ | ⟨-, j,
    hj, -, rfl⟩
  · cases hr
  · obtain rfl : j = 0 := Nat.le_zero.mp hj
    cases hr

end Position

end Idgs.Expr.FindInSet
