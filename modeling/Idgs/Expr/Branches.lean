import Idgs.Expr.Evaluation
import Mathlib.Data.Nat.Bitwise

/-!
# Branches

`WHEN` and `CASE` with their lists of arguments: which lists `parse` takes, and how evaluation goes
through the pairs. Children are evaluated one after another and may change the context on the way,
so an expression is a function of the context. Reading an argument that is not there is a fault of
its own.
-/

namespace Idgs.Expr

open Sql (DataType)

/-! ## Evaluations -/

/-- Why there is no value: something has been thrown, or an argument behind the last one was
read. -/
inductive Fault
  | threw | pastEnd
deriving DecidableEq

/-- What `evaluate` does with a context. -/
abbrev Evaluation (σ : Type*) := σ → Except Fault PbVariant × σ

namespace Evaluation

variable {σ : Type*}

/-- A value without any effect. -/
def done (v : PbVariant) : Evaluation σ := fun s => (.ok v, s)

/-- An evaluation that fails. -/
def fail (fault : Fault) : Evaluation σ := fun s => (.error fault, s)

/-- One evaluation after another. -/
def andThen (ev : Evaluation σ) (next : PbVariant → Evaluation σ) : Evaluation σ := fun s =>
  match ev s with
  | (.ok v, s') => next v s'
  | (.error fault, s') => (.error fault, s')

/-- A comparison, which throws when the right operand cannot be cast. -/
def test (b : Option Bool) (yes no : Evaluation σ) : Evaluation σ :=
  match b with
  | some true => yes
  | some false => no
  | none => fail .threw

theorem andThen_of_ok {ev : Evaluation σ} {s s' : σ} {v : PbVariant} (h : ev s = (.ok v, s'))
    (next : PbVariant → Evaluation σ) : ev.andThen next s = next v s' := by
  unfold andThen
  rw [h]

theorem andThen_of_error {ev : Evaluation σ} {s s' : σ} {fault : Fault}
    (h : ev s = (.error fault, s'))
    (next : PbVariant → Evaluation σ) : ev.andThen next s = (.error fault, s') := by
  unfold andThen
  rw [h]

end Evaluation

/-! ## WHEN and CASE -/

section

variable {σ : Type*}

/-- The loops of `WhenExpression::evaluate` and `CaseExpression::evaluate` from an index on: while
there are two more arguments, the first one decides about the second one; then the argument at the
index is evaluated. -/
def evaluatePairs (holds : PbVariant → Option Bool) : List (Evaluation σ) → Evaluation σ
  | [] => Evaluation.fail .pastEnd
  | [last] => last
  | condition :: value :: rest =>
    condition.andThen fun c => Evaluation.test (holds c) value (evaluatePairs holds rest)

/-- `(bool) children[i]->evaluate(ctx)`. -/
def isTrue (c : PbVariant) : Option Bool := some c.value.castBool

/-- `expr == children[i]->evaluate(ctx)`. -/
def equals (expr c : PbVariant) : Option Bool := expr.value.compare .eq c.value

/-- `WhenExpression::evaluate`. -/
def evaluateWhen (children : List (Evaluation σ)) : Evaluation σ := evaluatePairs isTrue children

/-- `CaseExpression::evaluate`. -/
def evaluateCase : List (Evaluation σ) → Evaluation σ
  | [] => Evaluation.fail .pastEnd
  | expr :: rest => expr.andThen fun v => evaluatePairs (equals v) rest

/-! ## The first match -/

/-- The arguments of some pairs and a default. -/
def arguments (pairs : List (Evaluation σ × Evaluation σ)) (default : Evaluation σ) :
    List (Evaluation σ) :=
  (pairs.flatMap fun pair => [pair.1, pair.2]) ++ [default]

/-- From a context, the first condition that holds is that of the pair with this value, or none
holds and it is the default; the conditions before have led to the second context. -/
inductive FirstMatch (holds : PbVariant → Option Bool) (default : Evaluation σ) :
    List (Evaluation σ × Evaluation σ) → σ → Evaluation σ → σ → Prop
  | default (s : σ) : FirstMatch holds default [] s default s
  | hit {condition value pairs s s' c} (hcondition : condition s = (.ok c, s'))
      (hholds : holds c = some true) :
      FirstMatch holds default ((condition, value) :: pairs) s value s'
  | skip {condition value pairs s s' c result s''} (hcondition : condition s = (.ok c, s'))
      (hholds : holds c = some false) (hrest : FirstMatch holds default pairs s' result s'') :
      FirstMatch holds default ((condition, value) :: pairs) s result s''

/-- What is evaluated is the first match, and no argument is missing. -/
structure PicksFirst (holds : PbVariant → Option Bool) (pairs : List (Evaluation σ × Evaluation σ))
    (default : Evaluation σ) (evaluation : Evaluation σ) : Prop where
  firstMatch : ∀ {s result s'}, FirstMatch holds default pairs s result s' →
    evaluation s = result s'
  noPastEnd : (∀ child ∈ arguments pairs default, ∀ s, (child s).1 ≠ .error .pastEnd) →
    ∀ s, (evaluation s).1 ≠ .error .pastEnd

/-- The loop over pairs and a default picks the first match. -/
theorem picksFirst_evaluatePairs (holds : PbVariant → Option Bool)
    (pairs : List (Evaluation σ × Evaluation σ)) (default : Evaluation σ) :
    PicksFirst holds pairs default (evaluatePairs holds (arguments pairs default)) := by
  have hcons : ∀ (pair : Evaluation σ × Evaluation σ) pairs,
      evaluatePairs holds (arguments (pair :: pairs) default) = pair.1.andThen fun c =>
        Evaluation.test (holds c) pair.2 (evaluatePairs holds (arguments pairs default)) :=
          fun _ _ => rfl
  constructor
  · intro s result s' h
    induction h with
    | default s => rfl
    | hit hcondition hholds =>
      rw [hcons, Evaluation.andThen_of_ok hcondition, hholds]
      rfl
    | skip hcondition hholds hrest ih =>
      rw [hcons, Evaluation.andThen_of_ok hcondition, hholds]
      exact ih
  · intro hchildren
    induction pairs with
    | nil => exact hchildren default (List.mem_singleton_self default)
    | cons pair pairs ih =>
      intro s
      rw [hcons]
      have hrest := ih fun child hchild => hchildren child (List.mem_append.mpr (by
        rcases List.mem_append.mp hchild with hmem | hmem
        · exact .inl (List.mem_append_right [pair.1, pair.2] hmem)
        · exact .inr hmem))
      have hcondition : (pair.1 s).1 ≠ .error .pastEnd := hchildren pair.1 List.mem_cons_self s
      have hvalue := hchildren pair.2 (List.mem_cons_of_mem _ List.mem_cons_self)
      rcases hresult : pair.1 s with ⟨fault | c, s'⟩
      · rw [Evaluation.andThen_of_error hresult]
        rwa [hresult] at hcondition
      · rw [Evaluation.andThen_of_ok hresult]
        rcases holds c with _ | _ | _
        · exact fun heq => by cases heq
        · exact hrest s'
        · exact hvalue s'

end

/-! ## The lists of arguments -/

section

variable (sizeofString : ℕ) (reads : DataType → String → Bool) (T : RowType)

/-- `parse` of a class: the list is checked, then the children are built. -/
def parse (cls : ExpressionClass) (subs : List Sql.Expr) : Option Expression :=
  if cls.info.arity.accepts subs then (buildAll sizeofString reads T subs).map (.func cls) else none

/-- `WHEN` takes pairs and a default, `CASE` takes an expression, pairs and a default, and both pick
the first match of every list that they take. -/
structure TakesPairs (subs : List Sql.Expr) : Prop where
  whenParse : (parse sizeofString reads T .whenThen subs).isSome ↔
    (buildAll sizeofString reads T subs).isSome ∧ ∃ n ≥ 1, subs.length = 2 * n + 1
  caseParse : (parse sizeofString reads T .caseOf subs).isSome ↔
    (buildAll sizeofString reads T subs).isSome ∧ ∃ n ≥ 1, subs.length = 2 * n + 2
  whenPicks : (parse sizeofString reads T .whenThen subs).isSome →
    ∀ {σ : Type} (children : List (Evaluation σ)), children.length = subs.length →
      ∃ pairs default, children = arguments pairs default ∧
        PicksFirst isTrue pairs default (evaluateWhen children)
  casePicks : (parse sizeofString reads T .caseOf subs).isSome →
    ∀ {σ : Type} (children : List (Evaluation σ)), children.length = subs.length →
      ∃ expr pairs default picked, children = expr :: arguments pairs default ∧
        evaluateCase children = expr.andThen picked ∧
        ∀ v, PicksFirst (equals v) pairs default (picked v)

variable {sizeofString reads T} {subs : List Sql.Expr}

/-- A list is taken if its length is right and its elements are built. -/
theorem isSome_parse (cls : ExpressionClass) :
    (parse sizeofString reads T cls subs).isSome ↔
      cls.info.arity.accepts subs = true ∧ (buildAll sizeofString reads T subs).isSome := by
  unfold parse
  by_cases haccepts : cls.info.arity.accepts subs = true
  · simp [haccepts]
  · simp [haccepts]

theorem accepts_whenPairs :
    Arity.whenPairs.accepts subs = true ↔ ∃ n ≥ 1, subs.length = 2 * n + 1 := by
  have hbit : (subs.length &&& 1) = subs.length % 2 := Nat.and_one_is_mod _
  simp only [Arity.accepts, Bool.and_eq_true, decide_eq_true_eq, bne_iff_ne, ne_eq, hbit]
  constructor
  · rintro ⟨hlength, hodd⟩
    exact ⟨subs.length / 2, by omega, by omega⟩
  · rintro ⟨n, hn, hlength⟩
    exact ⟨by omega, by omega⟩

/-- The second bit of the length says nothing about pairs. -/
theorem accepts_casePairs :
    Arity.casePairs.accepts subs = true ↔
      5 ≤ subs.length ∧ (subs.length % 4 = 2 ∨ subs.length % 4 = 3) := by
  have hbit : (subs.length &&& 2 ≠ 0) ↔ subs.length / 2 % 2 = 1 := by
    have hand : subs.length &&& 2 = (subs.length.testBit 1).toNat * 2 :=
      Nat.and_two_pow subs.length 1
    rw [hand, Nat.testBit_eq_decide_div_mod_eq]
    by_cases hodd : subs.length / 2 % 2 = 1 <;> simp [hodd]
  simp only [Arity.accepts, Bool.and_eq_true, decide_eq_true_eq, bne_iff_ne, hbit]
  refine and_congr_right fun _ => ?_
  omega

/-- A list of odd length is pairs and a default. -/
theorem exists_arguments {σ : Type} {children : List (Evaluation σ)} {n : ℕ}
    (hlength : children.length = 2 * n + 1) :
    ∃ pairs default, children = arguments pairs default := by
  induction n generalizing children with
  | zero =>
    obtain ⟨default, rfl⟩ := List.length_eq_one_iff.mp hlength
    exact ⟨[], default, rfl⟩
  | succ n ih =>
    match children, hlength with
    | condition :: value :: rest, hlength =>
      have hrest : rest.length = 2 * n + 1 := by
        simp only [List.length_cons] at hlength
        omega
      obtain ⟨pairs, default, rfl⟩ := ih hrest
      exact ⟨(condition, value) :: pairs, default, rfl⟩

/-- The lists are taken as they should be exactly if an element is not built, or the length is small
or leaves a remainder of one or two by four. -/
theorem takesPairs_iff : TakesPairs sizeofString reads T subs ↔
    buildAll sizeofString reads T subs = none ∨ subs.length < 4 ∨ subs.length % 4 = 1 ∨
    subs.length % 4 = 2 := by
  constructor
  · intro h
    by_contra hnot
    rw [not_or, not_or, not_or] at hnot
    obtain ⟨hbuilt, hlength, hone, htwo⟩ := hnot
    have hsome := Option.isSome_iff_ne_none.mpr hbuilt
    have hcase := (isSome_parse .caseOf).symm.trans h.caseParse
    change Arity.casePairs.accepts subs = true ∧ _ ↔ _ at hcase
    rw [accepts_casePairs] at hcase
    have hmod : subs.length % 4 = 0 ∨ subs.length % 4 = 3 := by omega
    rcases hmod with hzero | hthree
    · have hpairs : ∃ n ≥ 1, subs.length = 2 * n + 2 := ⟨subs.length / 2 - 1, by omega, by omega⟩
      obtain ⟨⟨-, hbit⟩, -⟩ := hcase.mpr ⟨hsome, hpairs⟩
      rw [hzero] at hbit
      rcases hbit with hbit | hbit <;> cases hbit
    · have hfive : 5 ≤ subs.length := by omega
      obtain ⟨-, n, hn, heven⟩ := hcase.mp ⟨⟨hfive, .inr hthree⟩, hsome⟩
      omega
  · intro h
    have hwhen : (parse sizeofString reads T .whenThen subs).isSome ↔
        (buildAll sizeofString reads T subs).isSome ∧ ∃ n ≥ 1, subs.length = 2 * n + 1 := by
      rw [isSome_parse, and_comm]
      exact and_congr_right fun _ => accepts_whenPairs
    have hcase : (parse sizeofString reads T .caseOf subs).isSome ↔
        (buildAll sizeofString reads T subs).isSome ∧ ∃ n ≥ 1, subs.length = 2 * n + 2 := by
      rw [isSome_parse, and_comm]
      refine and_congr_right fun hbuilt => accepts_casePairs.trans ?_
      have hlength := h.resolve_left (Option.isSome_iff_ne_none.mp hbuilt)
      constructor
      · rintro ⟨hfive, hbit⟩
        exact ⟨subs.length / 2 - 1, by omega, by omega⟩
      · rintro ⟨n, hn, heven⟩
        omega
    refine ⟨hwhen, hcase, ?_, ?_⟩
    · intro hparse σ children hchildren
      obtain ⟨-, n, -, hlength⟩ := hwhen.mp hparse
      obtain ⟨pairs, default, rfl⟩ := exists_arguments (hchildren.trans hlength)
      exact ⟨pairs, default, rfl, picksFirst_evaluatePairs _ _ _⟩
    · intro hparse σ children hchildren
      obtain ⟨-, n, -, hlength⟩ := hcase.mp hparse
      cases children with
      | nil =>
          rw [hlength] at hchildren
          cases hchildren
      | cons expr rest =>
          have hrest : rest.length = 2 * n + 1 := by
            rw [hlength, List.length_cons] at hchildren
            omega
          obtain ⟨pairs, default, rfl⟩ := exists_arguments hrest
          exact ⟨expr, pairs, default, fun v => evaluatePairs (equals v) (arguments pairs default),
            rfl, rfl,
            fun v => picksFirst_evaluatePairs _ _ _⟩

/-- `CASE(a, b, c, d)` is not taken. -/
theorem not_takesPairs :
    ¬ ∀ subs : List Sql.Expr, TakesPairs 8 (fun _ _ => true) { key := [], value := [] } subs := by
  intro h
  have htaken := (h [.const { value := "a" }, .const { value := "b" }, .const { value := "c" },
    .const { value := "d" }]).caseParse.mpr ⟨rfl, 1, le_rfl, rfl⟩
  cases htaken

end

end Idgs.Expr
