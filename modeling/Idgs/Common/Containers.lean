import Mathlib.Data.List.Sort

/-!
# Ordered and hashed containers

A container finds its entries by what a comparison of keys says, and a comparison may fail. Where it
agrees with a linear order, or with equality, on the keys at hand, the container finds, sets and
erases as a finite map does.
-/

namespace Idgs.Common

open List

variable {κ ν : Type*}

/-! ## Entries -/

section Entries

variable {m m' : List (κ × ν)} {e e' : κ × ν} {k : κ} {v : ν}

/-- Setting a key behind another one. -/
theorem mem_set_cons (hne : e.1 ≠ k) (h : e' ∈ m' ↔ e' = (k, v) ∨ (e' ∈ m ∧ e'.1 ≠ k)) :
    e' ∈ e :: m' ↔ e' = (k, v) ∨ (e' ∈ e :: m ∧ e'.1 ≠ k) := by
  rw [mem_cons, h, mem_cons]
  constructor
  · rintro (rfl | rfl | ⟨hold, hne⟩)
    · exact .inr ⟨.inl rfl, hne⟩
    · exact .inl rfl
    · exact .inr ⟨.inr hold, hne⟩
  · rintro (rfl | ⟨rfl | hold, hne⟩)
    · exact .inr (.inl rfl)
    · exact .inl rfl
    · exact .inr (.inr ⟨hold, hne⟩)

/-- Erasing a key behind another one. -/
theorem mem_erase_cons (hne : e.1 ≠ k) (h : e' ∈ m' ↔ e' ∈ m ∧ e'.1 ≠ k) :
    e' ∈ e :: m' ↔ e' ∈ e :: m ∧ e'.1 ≠ k := by
  rw [mem_cons, h, mem_cons]
  constructor
  · rintro (rfl | ⟨hold, hne⟩)
    · exact ⟨.inl rfl, hne⟩
    · exact ⟨.inr hold, hne⟩
  · rintro ⟨rfl | hold, hne⟩
    · exact .inl rfl
    · exact .inr ⟨hold, hne⟩

/-- Without the first entry there is no other with its key. -/
theorem mem_erase_head (h : ∀ e₁ ∈ m, e₁.1 ≠ e.1) : e' ∈ m ↔ e' ∈ e :: m ∧ e'.1 ≠ e.1 := by
  rw [mem_cons]
  refine ⟨fun hold => ⟨.inr hold, h e' hold⟩, ?_⟩
  rintro ⟨rfl | hold, hne⟩
  · exact absurd rfl hne
  · exact hold

end Entries

/-! ## Ordered containers -/

namespace OrderedMap

variable (less : κ → κ → Option Bool)

/-- The value at the first key that is not less than `k`, unless `k` is less than it. -/
def find (k : κ) : List (κ × ν) → Option (Option ν)
  | [] => some none
  | e :: m =>
    (less e.1 k).bind fun before =>
      if before then find k m
      else (less k e.1).bind fun after => if after then some none else some (some e.2)

/-- The value is put at the first key that is not less than `k`, before it if `k` is less. A key
that is there stays. -/
def set (k : κ) (v : ν) : List (κ × ν) → Option (List (κ × ν))
  | [] => some [(k, v)]
  | e :: m =>
    (less e.1 k).bind fun before =>
      if before then (set k v m).map (e :: ·)
      else (less k e.1).bind fun after =>
        if after then some ((k, v) :: e :: m) else some ((e.1, v) :: m)

/-- The entry at the first key that is not less than `k` is taken out, unless `k` is less than
it. -/
def erase (k : κ) : List (κ × ν) → Option (List (κ × ν))
  | [] => some []
  | e :: m =>
    (less e.1 k).bind fun before =>
      if before then (erase k m).map (e :: ·)
      else (less k e.1).bind fun after => if after then some (e :: m) else some m

section Agrees

variable [LinearOrder κ] {less : κ → κ → Option Bool} {S : Set κ} {m : List (κ × ν)} {k : κ}

/-- On the keys of `S` the comparison does not fail and says what the order says. -/
def Agrees (less : κ → κ → Option Bool) (S : Set κ) : Prop :=
  ∀ k ∈ S, ∀ k' ∈ S, less k k' = some (decide (k < k'))

/-- The entries are in order and their keys in `S`. -/
structure Sorted (S : Set κ) (m : List (κ × ν)) : Prop where
  order : m.Pairwise fun e e' => e.1 < e'.1
  keys : ∀ e ∈ m, e.1 ∈ S

theorem Sorted.nil : Sorted S ([] : List (κ × ν)) where
  order := List.Pairwise.nil
  keys := by
    intro e he
    cases he

theorem Sorted.mono {T : Set κ} (h : Sorted S m) (hST : S ⊆ T) : Sorted T m where
  order := h.order
  keys := fun e he => hST (h.keys e he)

/-- Each key is there once. -/
theorem Sorted.distinct (h : Sorted S m) : m.Pairwise fun e e' => e.1 ≠ e'.1 :=
  h.order.imp fun hlt => hlt.ne

theorem Sorted.tail {e : κ × ν} (h : Sorted S (e :: m)) : Sorted S m where
  order := (pairwise_cons.mp h.order).2
  keys := fun e' he' => h.keys e' (mem_cons_of_mem e he')

theorem Sorted.cons {e : κ × ν} (h : Sorted S m) (he : e.1 ∈ S) (hlt : ∀ e' ∈ m, e.1 < e'.1) :
    Sorted S (e :: m) where
  order := pairwise_cons.mpr ⟨hlt, h.order⟩
  keys := by
    intro e' he'
    rcases mem_cons.mp he' with rfl | hmem
    · exact he
    · exact h.keys e' hmem

theorem Sorted.head_lt {e e' : κ × ν} (h : Sorted S (e :: m)) (he' : e' ∈ m) : e.1 < e'.1 :=
  (pairwise_cons.mp h.order).1 e' he'

/-- A key below the first one is not there. -/
theorem Sorted.not_mem {e : κ × ν} (h : Sorted S (e :: m)) (hlt : k < e.1) (v : ν) :
    (k, v) ∉ e :: m := by
  intro hmem
  rcases mem_cons.mp hmem with rfl | hmem
  · exact lt_irrefl _ hlt
  · exact lt_asymm hlt (h.head_lt hmem)

/-- Finding a key: its value, if there is one. -/
theorem find_eq (hless : Agrees less S) (h : Sorted S m) (hk : k ∈ S) :
    ∃ r, find less k m = some r ∧ ∀ v, (k, v) ∈ m ↔ r = some v := by
  induction m with
  | nil =>
    refine ⟨none, rfl, fun v => ?_⟩
    simp
  | cons e m ih =>
    have he : e.1 ∈ S := h.keys e mem_cons_self
    rw [find, hless _ he _ hk, hless _ hk _ he]
    rcases lt_trichotomy e.1 k with hlt | heq | hgt
    · obtain ⟨r, hr, hmem⟩ := ih h.tail
      refine ⟨r, by simp [hlt, hr], fun v => ?_⟩
      rw [← hmem v, mem_cons]
      refine or_iff_right fun heq => ?_
      rw [← heq] at hlt
      exact lt_irrefl _ hlt
    · refine ⟨some e.2, by simp [heq], fun v => ?_⟩
      subst heq
      rw [mem_cons, Option.some.injEq]
      constructor
      · rintro (heq | hmem)
        · rw [← heq]
        · exact absurd (h.head_lt hmem) (lt_irrefl _)
      · rintro rfl
        exact .inl rfl
    · refine ⟨none, by simp [hgt, not_lt_of_gt hgt], fun v => ?_⟩
      exact iff_of_false (h.not_mem hgt v) (by rintro ⟨⟩)

/-- Setting a key: its value is the new one, the others stay. -/
theorem set_eq (hless : Agrees less S) (h : Sorted S m) (hk : k ∈ S) (v : ν) :
    ∃ m', set less k v m = some m' ∧ Sorted S m' ∧
      ∀ e, e ∈ m' ↔ e = (k, v) ∨ (e ∈ m ∧ e.1 ≠ k) := by
  induction m with
  | nil =>
    refine ⟨_, rfl, Sorted.nil.cons hk (by intro e he; cases he), fun e => ?_⟩
    simp
  | cons e m ih =>
    have he : e.1 ∈ S := h.keys e mem_cons_self
    rw [set, hless _ he _ hk, hless _ hk _ he]
    rcases lt_trichotomy e.1 k with hlt | heq | hgt
    · obtain ⟨m', hm', hsorted, hmem⟩ := ih h.tail
      refine ⟨e :: m', by simp [hlt, hm'], hsorted.cons he fun e' he' => ?_, fun e' => ?_⟩
      · rcases (hmem e').mp he' with rfl | ⟨hold, -⟩
        · exact hlt
        · exact h.head_lt hold
      · exact mem_set_cons hlt.ne (hmem e')
    · subst heq
      refine ⟨(e.1, v) :: m, by simp, h.tail.cons he fun e' he' => h.head_lt he', fun e' => ?_⟩
      rw [mem_cons]
      exact or_congr_right (mem_erase_head fun e he => (h.head_lt he).ne')
    · refine ⟨(k, v) :: e :: m, by simp [hgt, not_lt_of_gt hgt], h.cons hk fun e' he' => ?_,
        fun e' => ?_⟩
      · rcases mem_cons.mp he' with rfl | hold
        · exact hgt
        · exact hgt.trans (h.head_lt hold)
      · rw [mem_cons]
        refine or_congr_right ⟨fun hold => ⟨hold, ?_⟩, fun hand => hand.1⟩
        rintro rfl
        exact h.not_mem hgt e'.2 hold

/-- Erasing a key: the others stay. -/
theorem erase_eq (hless : Agrees less S) (h : Sorted S m) (hk : k ∈ S) :
    ∃ m', erase less k m = some m' ∧ Sorted S m' ∧ ∀ e, e ∈ m' ↔ e ∈ m ∧ e.1 ≠ k := by
  induction m with
  | nil =>
    refine ⟨_, rfl, Sorted.nil, fun e => ?_⟩
    simp
  | cons e m ih =>
    have he : e.1 ∈ S := h.keys e mem_cons_self
    rw [erase, hless _ he _ hk, hless _ hk _ he]
    rcases lt_trichotomy e.1 k with hlt | heq | hgt
    · obtain ⟨m', hm', hsorted, hmem⟩ := ih h.tail
      refine ⟨e :: m', by simp [hlt, hm'], hsorted.cons he fun e' he' => ?_, fun e' => ?_⟩
      · exact h.head_lt ((hmem e').mp he').1
      · exact mem_erase_cons hlt.ne (hmem e')
    · subst heq
      exact ⟨m, by simp, h.tail, fun e' => mem_erase_head fun e he => (h.head_lt he).ne'⟩
    · refine ⟨e :: m, by simp [hgt, not_lt_of_gt hgt], h, fun e' =>
        ⟨fun hold => ⟨hold, ?_⟩, fun hand => hand.1⟩⟩
      rintro rfl
      exact h.not_mem hgt e'.2 hold

end Agrees

end OrderedMap

/-! ## Hashed containers -/

namespace HashedMap

variable {η : Type*} [DecidableEq η] (hash : κ → η) (same : κ → κ → Option Bool)

/-- The value at the first key that has `k`'s hash and is the same. -/
def find (k : κ) : List (κ × ν) → Option (Option ν)
  | [] => some none
  | e :: m =>
    if hash k = hash e.1 then
      (same k e.1).bind fun found => if found then some (some e.2) else find k m
    else find k m

/-- The value at that key is replaced, or the key is added. -/
def set (k : κ) (v : ν) : List (κ × ν) → Option (List (κ × ν))
  | [] => some [(k, v)]
  | e :: m =>
    if hash k = hash e.1 then
      (same k e.1).bind fun found =>
        if found then some ((e.1, v) :: m) else (set k v m).map (e :: ·)
    else (set k v m).map (e :: ·)

/-- The entry at that key is taken out. -/
def erase (k : κ) : List (κ × ν) → Option (List (κ × ν))
  | [] => some []
  | e :: m =>
    if hash k = hash e.1 then
      (same k e.1).bind fun found => if found then some m else (erase k m).map (e :: ·)
    else (erase k m).map (e :: ·)

section Total

variable {hash : κ → η} {same : κ → κ → Option Bool} {S : Set κ} {m : List (κ × ν)} {k : κ}

/-- If the comparison does not fail, finding a key does not. -/
theorem find_total (hsame : ∀ k ∈ S, ∀ k' ∈ S, ∃ b, same k k' = some b) (h : ∀ e ∈ m, e.1 ∈ S)
    (hk : k ∈ S) :
    ∃ r, find hash same k m = some r := by
  induction m with
  | nil => exact ⟨none, rfl⟩
  | cons e m ih =>
    obtain ⟨b, hb⟩ := hsame k hk e.1 (h e mem_cons_self)
    obtain ⟨r, hr⟩ := ih fun e' he' => h e' (mem_cons_of_mem e he')
    rw [find, hb, hr]
    split
    · cases b with
      | true => exact ⟨some e.2, rfl⟩
      | false => exact ⟨r, rfl⟩
    · exact ⟨r, rfl⟩

/-- If the comparison does not fail, setting a key does not, and no other key is added. -/
theorem set_total (hsame : ∀ k ∈ S, ∀ k' ∈ S, ∃ b, same k k' = some b) (h : ∀ e ∈ m, e.1 ∈ S)
    (hk : k ∈ S) (v : ν) : ∃ m', set hash same k v m = some m' ∧ ∀ e ∈ m', e.1 ∈ S := by
  induction m with
  | nil =>
    refine ⟨_, rfl, fun e he => ?_⟩
    obtain rfl := mem_singleton.mp he
    exact hk
  | cons e m ih =>
    have he : e.1 ∈ S := h e mem_cons_self
    obtain ⟨b, hb⟩ := hsame k hk e.1 he
    obtain ⟨m', hm', hkeys⟩ := ih fun e' he' => h e' (mem_cons_of_mem e he')
    have hcons : ∀ e' ∈ e :: m', e'.1 ∈ S := by
      intro e' he'
      rcases mem_cons.mp he' with rfl | hmem
      · exact he
      · exact hkeys e' hmem
    rw [set, hb, hm']
    split
    · cases b with
      | true =>
        refine ⟨_, rfl, fun e' he' => ?_⟩
        rcases mem_cons.mp he' with rfl | hmem
        · exact he
        · exact h e' (mem_cons_of_mem e hmem)
      | false => exact ⟨_, rfl, hcons⟩
    · exact ⟨_, rfl, hcons⟩

variable (hash) in
/-- Whatever the comparison says, the key is found at an entry and set there, or it is not found and
added. -/
theorem find_set_cases {test : κ → κ → Bool}
    (hsame : ∀ k ∈ S, ∀ k' ∈ S, same k k' = some (test k k')) (h : ∀ e ∈ m, e.1 ∈ S) (hk : k ∈ S) :
    ((∀ e ∈ m, hash k = hash e.1 → test k e.1 = false) ∧ find hash same k m = some none ∧
        ∀ v, set hash same k v m = some (m ++ [(k, v)])) ∨
      ∃ before e after, m = before ++ e :: after ∧ hash k = hash e.1 ∧ test k e.1 = true ∧
        find hash same k m = some (some e.2) ∧
        ∀ v, set hash same k v m = some (before ++ (e.1, v) :: after) := by
  induction m with
  | nil => exact .inl ⟨by simp, rfl, fun v => rfl⟩
  | cons e m ih =>
    have hrest := ih fun e' he' => h e' (mem_cons_of_mem e he')
    by_cases hfound : hash k = hash e.1 ∧ test k e.1 = true
    · obtain ⟨hhash, htest⟩ := hfound
      refine .inr ⟨[], e, m, rfl, hhash, htest, ?_, fun v => ?_⟩
      · rw [find, if_pos hhash, hsame k hk e.1 (h e mem_cons_self), htest]
        rfl
      · rw [set, if_pos hhash, hsame k hk e.1 (h e mem_cons_self), htest]
        rfl
    · have hfind : find hash same k (e :: m) = find hash same k m := by
        rw [find, hsame k hk e.1 (h e mem_cons_self)]
        by_cases hhash : hash k = hash e.1
        · have htest : test k e.1 = false := Bool.eq_false_iff.mpr fun htest =>
            hfound ⟨hhash, htest⟩
          rw [if_pos hhash, htest]
          rfl
        · rw [if_neg hhash]
      have hset : ∀ v, set hash same k v (e :: m) = (set hash same k v m).map (e :: ·) := by
        intro v
        rw [set, hsame k hk e.1 (h e mem_cons_self)]
        by_cases hhash : hash k = hash e.1
        · have htest : test k e.1 = false := Bool.eq_false_iff.mpr fun htest =>
            hfound ⟨hhash, htest⟩
          rw [if_pos hhash, htest]
          rfl
        · rw [if_neg hhash]
      rcases hrest with ⟨hnone, hfind', hset'⟩ | ⟨before, e', after, rfl, hhash, htest, hfind',
        hset'⟩
      · refine .inl ⟨fun e' he' hhash => ?_, hfind.trans hfind',
          fun v => by rw [hset, hset']; rfl⟩
        rcases mem_cons.mp he' with rfl | he'
        · exact Bool.eq_false_iff.mpr fun htest => hfound ⟨hhash, htest⟩
        · exact hnone e' he' hhash
      · exact .inr ⟨e :: before, e', after, rfl, hhash, htest, hfind.trans hfind',
          fun v => by rw [hset, hset']; rfl⟩

end Total

section Agrees

variable [DecidableEq κ] {hash : κ → η} {same : κ → κ → Option Bool} {S : Set κ} {m : List (κ × ν)}
    {k : κ}

/-- On the keys of `S` the comparison does not fail and says whether they are equal. -/
def Agrees (same : κ → κ → Option Bool) (S : Set κ) : Prop :=
  ∀ k ∈ S, ∀ k' ∈ S, same k k' = some (decide (k = k'))

/-- The keys are in `S`, each once. -/
structure Keyed (S : Set κ) (m : List (κ × ν)) : Prop where
  distinct : m.Pairwise fun e e' => e.1 ≠ e'.1
  keys : ∀ e ∈ m, e.1 ∈ S

omit [DecidableEq κ] in
theorem Keyed.nil : Keyed S ([] : List (κ × ν)) where
  distinct := List.Pairwise.nil
  keys := by
    intro e he
    cases he

omit [DecidableEq κ] in
theorem Keyed.mono {T : Set κ} (h : Keyed S m) (hST : S ⊆ T) : Keyed T m where
  distinct := h.distinct
  keys := fun e he => hST (h.keys e he)

omit [DecidableEq κ] in
theorem Keyed.tail {e : κ × ν} (h : Keyed S (e :: m)) : Keyed S m where
  distinct := (pairwise_cons.mp h.distinct).2
  keys := fun e' he' => h.keys e' (mem_cons_of_mem e he')

omit [DecidableEq κ] in
theorem Keyed.cons {e : κ × ν} (h : Keyed S m) (he : e.1 ∈ S) (hne : ∀ e' ∈ m, e.1 ≠ e'.1) :
    Keyed S (e :: m) where
  distinct := pairwise_cons.mpr ⟨hne, h.distinct⟩
  keys := by
    intro e' he'
    rcases mem_cons.mp he' with rfl | hmem
    · exact he
    · exact h.keys e' hmem

omit [DecidableEq κ] in
theorem Keyed.head_ne {e e' : κ × ν} (h : Keyed S (e :: m)) (he' : e' ∈ m) : e.1 ≠ e'.1 :=
  (pairwise_cons.mp h.distinct).1 e' he'

section

variable (hsame : Agrees same S)

include hsame

/-- Looking at one entry: the key is found there, or the search goes on. -/
theorem test_eq {α : Type*} {e : κ × ν} (he : e.1 ∈ S) (hk : k ∈ S)
    (found rest : Option α) :
    (if hash k = hash e.1 then (same k e.1).bind fun b => if b then found else rest else rest) =
      if k = e.1 then found else rest := by
  rw [hsame k hk e.1 he]
  by_cases heq : k = e.1
  · rw [if_pos (congrArg hash heq), if_pos heq]
    simp [heq]
  · rw [if_neg heq]
    split
    · simp [heq]
    · rfl

theorem find_eq (h : Keyed S m) (hk : k ∈ S) :
    ∃ r, find hash same k m = some r ∧ ∀ v, (k, v) ∈ m ↔ r = some v := by
  induction m with
  | nil =>
    refine ⟨none, rfl, fun v => ?_⟩
    simp
  | cons e m ih =>
    rw [find, test_eq hsame (h.keys e mem_cons_self) hk]
    by_cases heq : k = e.1
    · subst heq
      refine ⟨some e.2, if_pos rfl, fun v => ?_⟩
      rw [mem_cons, Option.some.injEq]
      constructor
      · rintro (heq | hmem)
        · rw [← heq]
        · have hne := h.head_ne hmem
          exact absurd rfl hne
      · rintro rfl
        exact .inl rfl
    · obtain ⟨r, hr, hmem⟩ := ih h.tail
      refine ⟨r, by rw [if_neg heq, hr], fun v => ?_⟩
      rw [← hmem v, mem_cons]
      refine or_iff_right fun hhead => heq ?_
      rw [← hhead]

theorem set_eq (h : Keyed S m) (hk : k ∈ S) (v : ν) :
    ∃ m', set hash same k v m = some m' ∧ Keyed S m' ∧
      ∀ e, e ∈ m' ↔ e = (k, v) ∨ (e ∈ m ∧ e.1 ≠ k) := by
  induction m with
  | nil =>
    refine ⟨_, rfl, Keyed.nil.cons hk (by intro e he; cases he), fun e => ?_⟩
    simp
  | cons e m ih =>
    have he : e.1 ∈ S := h.keys e mem_cons_self
    rw [set, test_eq hsame he hk]
    by_cases heq : k = e.1
    · subst heq
      refine ⟨(e.1, v) :: m, if_pos rfl, h.tail.cons he fun e' he' => h.head_ne he', fun e' => ?_⟩
      rw [mem_cons]
      exact or_congr_right (mem_erase_head fun e he => (h.head_ne he).symm)
    · obtain ⟨m', hm', hkeyed, hmem⟩ := ih h.tail
      refine ⟨e :: m', by rw [if_neg heq, hm']; rfl, hkeyed.cons he fun e' he' => ?_,
        fun e' => ?_⟩
      · rcases (hmem e').mp he' with rfl | ⟨hold, -⟩
        · exact Ne.symm heq
        · exact h.head_ne hold
      · exact mem_set_cons (Ne.symm heq) (hmem e')

theorem erase_eq (h : Keyed S m) (hk : k ∈ S) :
    ∃ m', erase hash same k m = some m' ∧ Keyed S m' ∧ ∀ e, e ∈ m' ↔ e ∈ m ∧ e.1 ≠ k := by
  induction m with
  | nil =>
    refine ⟨_, rfl, Keyed.nil, fun e => ?_⟩
    simp
  | cons e m ih =>
    have he : e.1 ∈ S := h.keys e mem_cons_self
    rw [erase, test_eq hsame he hk]
    by_cases heq : k = e.1
    · subst heq
      exact ⟨m, if_pos rfl, h.tail, fun e' => mem_erase_head fun e he => (h.head_ne he).symm⟩
    · obtain ⟨m', hm', hkeyed, hmem⟩ := ih h.tail
      refine ⟨e :: m', by rw [if_neg heq, hm']; rfl, hkeyed.cons he fun e' he' => ?_,
        fun e' => ?_⟩
      · exact h.head_ne ((hmem e').mp he').1
      · exact mem_erase_cons (Ne.symm heq) (hmem e')

end

end Agrees

end HashedMap

end Idgs.Common
