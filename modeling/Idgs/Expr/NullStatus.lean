import Idgs.Expr.Branches

/-!
# Null values

Whether a value is null is a flag of `PbVariant` that its constructors clear, those that copy and
move included; the assignments between variants keep it. An expression that returns a variable of
its own or the result of a child is compiled without a copy. `NVL` and the variable expressions
return copies, and `COALESCE` makes a text when all of its arguments are null. Evaluation is
compared with one whose copies keep the flag.
-/

namespace Idgs.Expr

open List

open Common (Term)
open Sql (Const)

/-! ## Evaluation -/

/-- The classes above fields and constants; a variable's index is the value of its `Expr`. -/
inductive BranchClass
  | nvl | coalesce | whenThen | caseOf | isNull
  | variableSet (index : ℕ) | variableGet (index : ℕ)
deriving DecidableEq

/-- An expression tree. -/
abbrev BranchExpression := Term Const BranchClass ParsedField

/-- The variables of the context, and the classes of what has been evaluated with the null flags of
the values; `none` is a field or a constant. -/
structure BranchContext where
  vars : List PbVariant := []
  statuses : List (Option BranchClass × Bool) := []

namespace BranchContext

/-- `PbVariant::PbVariant()`: a null `int32`, whose value is what was in memory. -/
def blank (memory : Int32) : PbVariant := { value := .int32 memory, isNull := true }

/-- `ExpressionContext::setVariable`. -/
def setVariable (memory : Int32) (index : ℕ) (v : PbVariant) (ctx : BranchContext) :
    BranchContext :=
  { ctx with
    vars :=
      (ctx.vars ++ List.replicate (index + 1 - ctx.vars.length) (blank memory)).set index v }

/-- `ExpressionContext::getVariable`. -/
def getVariable (memory : Int32) (index : ℕ) (ctx : BranchContext) : PbVariant :=
  ctx.vars.getD index (blank memory)

/-- The value of an expression of a class is noted. -/
def note (cls : Option BranchClass) (v : PbVariant) (ctx : BranchContext) : BranchContext :=
  { ctx with statuses := ctx.statuses ++ [(cls, v.isNull)] }

end BranchContext

/-- How values are returned: by which copies, and what stands for the null value. -/
structure Returns where
  copy : PbVariant → PbVariant
  nothing : PbVariant

/-- The copy constructor of `PbVariant`, and the result of `CoalesceExpression::evaluate` at its
end. -/
def pbReturns : Returns where
  copy v := { v with isNull := false }
  nothing := { value := .string "null", isNull := false }

/-- Copies that keep the flag, and a null value. -/
def sqlReturns : Returns where
  copy v := v
  nothing := { value := .string "null", isNull := true }

section

variable (R : Returns)

/-- `NvlExpression::evaluate`. -/
def evaluateNvl : List (Evaluation BranchContext) → Evaluation BranchContext
  | [leftChild, rightChild] =>
    leftChild.andThen fun expr => rightChild.andThen fun value =>
      Evaluation.done (R.copy (if expr.isNull then value else expr))
  | _ => Evaluation.fail .pastEnd

/-- `CoalesceExpression::evaluate`. -/
def evaluateCoalesce : List (Evaluation BranchContext) → Evaluation BranchContext
  | [] => Evaluation.done R.nothing
  | child :: children =>
    child.andThen fun value => if value.isNull then evaluateCoalesce children
      else Evaluation.done value

/-- `IsNullExpression::evaluate`. -/
def evaluateIsNull : List (Evaluation BranchContext) → Evaluation BranchContext
  | [child] => child.andThen fun var => Evaluation.done (.ofBool var.isNull)
  | _ => Evaluation.fail .pastEnd

/-- `VariableSetExpression::evaluate`. -/
def evaluateVariableSet (memory : Int32) (index : ℕ) :
    List (Evaluation BranchContext) → Evaluation BranchContext
  | [child] => child.andThen fun v ctx =>
    let ctx' := ctx.setVariable memory index v
    (.ok (R.copy (ctx'.getVariable memory index)), ctx')
  | _ => Evaluation.fail .pastEnd

/-- `VariableGetExpression::evaluate`. -/
def evaluateVariableGet (memory : Int32) (index : ℕ) : Evaluation BranchContext :=
  fun ctx => (.ok (R.copy (ctx.getVariable memory index)), ctx)

/-- `evaluate` of a class. -/
def BranchClass.evaluate (memory : Int32) (cls : BranchClass)
    (children : List (Evaluation BranchContext)) :
    Evaluation BranchContext :=
  match cls with
  | .nvl => evaluateNvl R children
  | .coalesce => evaluateCoalesce R children
  | .whenThen => evaluateWhen children
  | .caseOf => evaluateCase children
  | .isNull => evaluateIsNull children
  | .variableSet index => evaluateVariableSet R memory index children
  | .variableGet index => evaluateVariableGet R memory index

/-- The value of an expression is noted in the context. -/
def noted (cls : Option BranchClass) (ev : Evaluation BranchContext) : Evaluation BranchContext :=
  ev.andThen fun v ctx => (.ok v, ctx.note cls v)

/-- Constants and classes. -/
def branchMeaning (memory : Int32) : Term.Meaning Const BranchClass (Evaluation BranchContext) where
  const c := noted none
    (match constValue c with
    | some v => Evaluation.done { value := v }
    | none => Evaluation.fail .threw)
  func cls children := noted (some cls) (cls.evaluate R memory children)

/-- Fields. -/
def branchField {T : RowType} (row : ExpressionContext T) (f : ParsedField) :
    Evaluation BranchContext :=
  noted none (Evaluation.done (row.extract f))

/-- `Expression::evaluate` on a row. -/
def branchEvaluate {T : RowType} (memory : Int32) (row : ExpressionContext T) :
    BranchExpression → Evaluation BranchContext :=
  Term.eval (branchMeaning R memory) (branchField row)

end

/-! ## What is noted -/

/-- A class that returns a copy, or a value of its own for null. -/
def BranchClass.copies : BranchClass → Bool
  | .nvl | .coalesce | .variableSet _ | .variableGet _ => true
  | .whenThen | .caseOf | .isNull => false

/-- No value that was copied, or that `COALESCE` made, is null. -/
def CopiesNoNull (statuses : List (Option BranchClass × Bool)) : Prop :=
  ∀ status ∈ statuses, status.1.any BranchClass.copies = true → status.2 = false

/-- An evaluation adds to what is noted. -/
def Notes (ev : Evaluation BranchContext) : Prop := ∀ ctx, ctx.statuses <+: (ev ctx).2.statuses

/-- An evaluation is the other one where that copies no null value. -/
def Agrees (ev ev' : Evaluation BranchContext) : Prop :=
  ∀ ctx, CopiesNoNull (ev' ctx).2.statuses → ev ctx = ev' ctx

/-- An evaluation copies no null value. -/
def Clears (ev : Evaluation BranchContext) : Prop :=
  ∀ ctx, CopiesNoNull ctx.statuses → CopiesNoNull (ev ctx).2.statuses

theorem CopiesNoNull.of_prefix {statuses statuses' : List (Option BranchClass × Bool)}
    (h : CopiesNoNull statuses') (hpre : statuses <+: statuses') : CopiesNoNull statuses :=
  fun status hstatus => h status (hpre.subset hstatus)

section

variable {ev ev' : Evaluation BranchContext} {next next' : PbVariant → Evaluation BranchContext}

/-! ### One evaluation after another -/

theorem notes_done (v : PbVariant) : Notes (Evaluation.done v) := fun _ => prefix_rfl

theorem notes_fail (fault : Fault) : Notes (Evaluation.fail fault) := fun _ => prefix_rfl

theorem Notes.andThen (h : Notes ev) (hnext : ∀ v, Notes (next v)) : Notes (ev.andThen next) := by
  intro ctx
  have hev := h ctx
  rcases hresult : ev ctx with ⟨fault | v, ctx'⟩
  · rw [Evaluation.andThen_of_error hresult]
    rwa [hresult] at hev
  · rw [Evaluation.andThen_of_ok hresult]
    rw [hresult] at hev
    exact hev.trans (hnext v ctx')

theorem Agrees.refl (ev : Evaluation BranchContext) : Agrees ev ev := fun _ _ => rfl

/-- What is noted later tells that nothing was lost before. -/
theorem Agrees.andThen (h : Agrees ev ev') (hnext : ∀ v, Agrees (next v) (next' v))
    (hnotes : ∀ v, Notes (next' v)) :
    Agrees (ev.andThen next) (ev'.andThen next') := by
  intro ctx hnone
  rcases hresult : ev' ctx with ⟨fault | v, ctx'⟩
  · rw [Evaluation.andThen_of_error hresult] at hnone ⊢
    have heq := h ctx (by rwa [hresult])
    exact Evaluation.andThen_of_error (heq.trans hresult) next
  · rw [Evaluation.andThen_of_ok hresult] at hnone ⊢
    have heq := h ctx (by
      rw [hresult]
      exact hnone.of_prefix (hnotes v ctx'))
    rw [Evaluation.andThen_of_ok (heq.trans hresult)]
    exact hnext v ctx' hnone

theorem clears_done (v : PbVariant) : Clears (Evaluation.done v) := fun _ hctx => hctx

theorem clears_fail (fault : Fault) : Clears (Evaluation.fail fault) := fun _ hctx => hctx

theorem Clears.andThen (h : Clears ev) (hnext : ∀ v, Clears (next v)) :
    Clears (ev.andThen next) := by
  intro ctx hctx
  have hev := h ctx hctx
  rcases hresult : ev ctx with ⟨fault | v, ctx'⟩
  · rw [Evaluation.andThen_of_error hresult]
    rwa [hresult] at hev
  · rw [Evaluation.andThen_of_ok hresult]
    rw [hresult] at hev
    exact hnext v ctx' hev

/-! ### The loops over arguments -/

theorem Notes.test (hnext : Notes ev) (hnext' : Notes ev') (b : Option Bool) :
    Notes (Evaluation.test b ev ev') := by
  rcases b with _ | _ | _
  · exact notes_fail .threw
  · exact hnext'
  · exact hnext

theorem Clears.test (hnext : Clears ev) (hnext' : Clears ev') (b : Option Bool) :
    Clears (Evaluation.test b ev ev') := by
  rcases b with _ | _ | _
  · exact clears_fail .threw
  · exact hnext'
  · exact hnext

theorem Agrees.test {yes yes' no no' : Evaluation BranchContext} (hyes : Agrees yes yes')
    (hno : Agrees no no')
    (b : Option Bool) : Agrees (Evaluation.test b yes no) (Evaluation.test b yes' no') := by
  rcases b with _ | _ | _
  · exact Agrees.refl _
  · exact hno
  · exact hyes

variable {children children' : List (Evaluation BranchContext)}

theorem notes_pairs (holds : PbVariant → Option Bool) :
    ∀ {children : List (Evaluation BranchContext)}, (∀ child ∈ children, Notes child) →
      Notes (evaluatePairs holds children)
  | [], _ => notes_fail .pastEnd
  | [last], h => h last mem_cons_self
  | condition :: value :: rest, h => by
      obtain ⟨hcondition, h⟩ := forall_mem_cons.mp h
      obtain ⟨hvalue, hrest⟩ := forall_mem_cons.mp h
      exact hcondition.andThen fun c => hvalue.test (notes_pairs holds hrest) (holds c)

theorem clears_pairs (holds : PbVariant → Option Bool) :
    ∀ {children : List (Evaluation BranchContext)}, (∀ child ∈ children, Clears child) →
      Clears (evaluatePairs holds children)
  | [], _ => clears_fail .pastEnd
  | [last], h => h last mem_cons_self
  | condition :: value :: rest, h => by
      obtain ⟨hcondition, h⟩ := forall_mem_cons.mp h
      obtain ⟨hvalue, hrest⟩ := forall_mem_cons.mp h
      exact hcondition.andThen fun c => hvalue.test (clears_pairs holds hrest) (holds c)

theorem agrees_pairs (holds : PbVariant → Option Bool) :
    ∀ {children children' : List (Evaluation BranchContext)},
    List.Forall₂ Agrees children children' →
      (∀ child ∈ children', Notes child) → Agrees (evaluatePairs holds children)
      (evaluatePairs holds children')
  | [], _, .nil, _ => Agrees.refl _
  | [_], _, .cons hlast .nil, _ => hlast
  | _ :: _ :: _, _, .cons hcondition (.cons hvalue hrest), hnotes => by
      obtain ⟨-, hnotes⟩ := forall_mem_cons.mp hnotes
      obtain ⟨hnotesValue, hnotesRest⟩ := forall_mem_cons.mp hnotes
      exact hcondition.andThen (fun c =>
        hvalue.test (agrees_pairs holds hrest hnotesRest) (holds c))
        fun c => hnotesValue.test (notes_pairs holds hnotesRest) (holds c)

/-! ### Classes -/

/-- A value is noted after everything that led to it. -/
theorem noted_andThen (cls : Option BranchClass) (ev : Evaluation BranchContext)
    (next : PbVariant → Evaluation BranchContext) :
    noted cls (ev.andThen next) = ev.andThen fun v => noted cls (next v) := by
  funext ctx
  unfold noted Evaluation.andThen
  rcases ev ctx with ⟨fault | v, ctx'⟩ <;> rfl

theorem Notes.noted (h : Notes ev) (cls : Option BranchClass) : Notes (noted cls ev) :=
  h.andThen fun _ _ => prefix_append _ _

/-- The note of a class that makes no copies is never at fault. -/
theorem Agrees.noted (h : Agrees ev ev') (cls : Option BranchClass) :
    Agrees (noted cls ev) (noted cls ev') :=
  h.andThen (fun _ => Agrees.refl _) fun _ _ => prefix_append _ _

/-- Where the note says that the value is not null, the flag is clear anyway. -/
theorem agrees_copied {cls : BranchClass} (hcls : cls.copies = true)
    {f : BranchContext → PbVariant × BranchContext} :
    Agrees (noted (some cls) fun ctx => (.ok (pbReturns.copy (f ctx).1), (f ctx).2))
      (noted (some cls) fun ctx => (.ok (sqlReturns.copy (f ctx).1), (f ctx).2)) := by
  intro ctx hnone
  have hclear : (f ctx).1.isNull = false :=
    hnone (some cls, (f ctx).1.isNull) (mem_append_right _ (mem_singleton_self _)) hcls
  have hcopy : pbReturns.copy (f ctx).1 = sqlReturns.copy (f ctx).1 := by
    show { (f ctx).1 with isNull := false } = (f ctx).1
    rw [← hclear]
  unfold Expr.noted Evaluation.andThen
  simp only [hcopy]

/-- A note of a value that is not null. -/
theorem clears_note {cls : Option BranchClass} {ctx : BranchContext}
    (hctx : CopiesNoNull ctx.statuses)
    {v : PbVariant} (hv : cls.any BranchClass.copies = true → v.isNull = false) :
    CopiesNoNull (ctx.note cls v).statuses := by
  intro status hstatus hcopies
  rcases mem_append.mp hstatus with hbefore | hlast
  · exact hctx status hbefore hcopies
  · rw [mem_singleton.mp hlast] at hcopies ⊢
    exact hv hcopies

theorem Clears.noted (h : Clears ev) {cls : Option BranchClass}
    (hcls : cls.any BranchClass.copies = false) :
    Clears (noted cls ev) :=
  h.andThen fun _ _ hctx => clears_note hctx fun hcopies => absurd hcopies (by simp [hcls])

theorem clears_copied (cls : Option BranchClass) {f : BranchContext → PbVariant × BranchContext}
    (hf : ∀ ctx, (f ctx).2.statuses = ctx.statuses) :
    Clears (noted cls fun ctx => (.ok (pbReturns.copy (f ctx).1), (f ctx).2)) := by
  intro ctx hctx
  refine clears_note ?_ fun _ => rfl
  rw [hf]
  exact hctx

theorem notes_class (R : Returns) (memory : Int32) (cls : BranchClass)
    (h : ∀ child ∈ children, Notes child) : Notes (cls.evaluate R memory children) := by
  cases cls with
  | nvl =>
    match children, h with
    | [leftChild, rightChild], h =>
      obtain ⟨hleft, h⟩ := forall_mem_cons.mp h
      exact hleft.andThen fun _ => (forall_mem_singleton.mp h).andThen fun _ =>
        notes_done _
    | [], _ => exact notes_fail _
    | [_], _ => exact notes_fail _
    | _ :: _ :: _ :: _, _ => exact notes_fail _
  | coalesce =>
    induction children with
    | nil => exact notes_done _
    | cons child children ih =>
      obtain ⟨hchild, h⟩ := forall_mem_cons.mp h
      refine hchild.andThen fun value => ?_
      split
      · exact ih h
      · exact notes_done value
  | whenThen => exact notes_pairs isTrue h
  | caseOf =>
    cases children with
    | nil => exact notes_fail _
    | cons expr rest =>
      obtain ⟨hexpr, h⟩ := forall_mem_cons.mp h
      exact hexpr.andThen fun v => notes_pairs (equals v) h
  | isNull =>
    match children, h with
    | [child], h => exact (forall_mem_singleton.mp h).andThen fun _ => notes_done _
    | [], _ => exact notes_fail _
    | _ :: _ :: _, _ => exact notes_fail _
  | variableSet index =>
    match children, h with
    | [child], h => exact (forall_mem_singleton.mp h).andThen fun _ _ => prefix_rfl
    | [], _ => exact notes_fail _
    | _ :: _ :: _, _ => exact notes_fail _
  | variableGet index => exact fun _ => prefix_rfl

theorem clears_class (memory : Int32) (cls : BranchClass) (h : ∀ child ∈ children, Clears child) :
    Clears (noted (some cls) (cls.evaluate pbReturns memory children)) := by
  have hfail : ∀ fault, Clears (noted (some cls) (Evaluation.fail fault)) :=
    fun fault _ hctx => hctx
  cases cls with
  | nvl =>
    match children, h with
    | [leftChild, rightChild], h =>
      obtain ⟨hleft, h⟩ := forall_mem_cons.mp h
      show Clears (noted _ (leftChild.andThen _))
      rw [noted_andThen]
      refine hleft.andThen fun expr => ?_
      rw [noted_andThen]
      exact (forall_mem_singleton.mp h).andThen fun value =>
        clears_copied _ (f := fun ctx =>
          (if expr.isNull then value else expr, ctx)) fun _ => rfl
    | [], _ => exact hfail _
    | [_], _ => exact hfail _
    | _ :: _ :: _ :: _, _ => exact hfail _
  | coalesce =>
    induction children with
    | nil => exact fun ctx hctx => clears_note hctx fun _ => rfl
    | cons child children ih =>
      obtain ⟨hchild, h⟩ := forall_mem_cons.mp h
      show Clears (noted _ (child.andThen _))
      rw [noted_andThen]
      refine hchild.andThen fun value => ?_
      split
      · exact ih h
      · rename_i hnull
        exact fun ctx hctx => clears_note hctx fun _ => by simpa using hnull
  | whenThen => exact (clears_pairs isTrue h).noted rfl
  | caseOf =>
    cases children with
    | nil => exact hfail _
    | cons expr rest =>
      obtain ⟨hexpr, h⟩ := forall_mem_cons.mp h
      exact (hexpr.andThen fun v => clears_pairs (equals v) h).noted rfl
  | isNull =>
    match children, h with
    | [child], h =>
      exact ((forall_mem_singleton.mp h).andThen fun _ => clears_done _).noted rfl
    | [], _ => exact hfail _
    | _ :: _ :: _, _ => exact hfail _
  | variableSet index =>
    match children, h with
    | [child], h =>
      show Clears (noted _ (child.andThen _))
      rw [noted_andThen]
      exact (forall_mem_singleton.mp h).andThen fun v =>
        clears_copied _ (f := fun ctx =>
          ((ctx.setVariable memory index v).getVariable memory index,
            ctx.setVariable memory index v)) fun _ => rfl
    | [], _ => exact hfail _
    | _ :: _ :: _, _ => exact hfail _
  | variableGet index =>
    exact clears_copied _ (f := fun ctx => (ctx.getVariable memory index, ctx)) fun _ => rfl

theorem agrees_class (memory : Int32) (cls : BranchClass)
    (h : List.Forall₂ Agrees children children') (hnotes : ∀ child ∈ children', Notes child) :
    Agrees (noted (some cls) (cls.evaluate pbReturns memory children))
      (noted (some cls) (cls.evaluate sqlReturns memory children')) := by
  cases cls with
  | nvl =>
    match children, children', h, hnotes with
    | [_, _], [_, rightChild], .cons hleft (.cons hright .nil), hnotes =>
      have hnotesRight := hnotes rightChild (mem_cons_of_mem _ mem_cons_self)
      show Agrees (noted _ (Evaluation.andThen _ _)) (noted _ (Evaluation.andThen _ _))
      rw [noted_andThen, noted_andThen]
      refine hleft.andThen (fun expr => ?_) fun expr => ?_
      · rw [noted_andThen, noted_andThen]
        exact hright.andThen
          (fun value =>
            agrees_copied rfl (f := fun ctx => (if expr.isNull then value else expr, ctx)))
          fun _ => (notes_done _).noted _
      · exact (hnotesRight.andThen fun _ => notes_done _).noted _
    | [], [], .nil, _ => exact Agrees.refl _
    | [_], [_], .cons _ .nil, _ => exact Agrees.refl _
    | _ :: _ :: _ :: _, _ :: _ :: _ :: _, _, _ => exact Agrees.refl _
  | coalesce =>
    induction h with
    | nil =>
      intro ctx hnone
      exact absurd
        (hnone (some .coalesce, true) (mem_append_right _ (mem_singleton_self _)) rfl)
        Bool.true_eq_false.mp
    | @cons _ child' _ children' hchild hrest ih =>
      obtain ⟨-, hnotes⟩ := forall_mem_cons.mp hnotes
      show Agrees (noted _ (Evaluation.andThen _ _)) (noted _ (Evaluation.andThen _ _))
      rw [noted_andThen, noted_andThen]
      refine hchild.andThen (fun value => ?_) fun value => ?_
      · split
        · exact ih hnotes
        · exact Agrees.refl _
      · split
        · exact (notes_class sqlReturns memory .coalesce hnotes).noted _
        · exact (notes_done value).noted _
  | whenThen => exact (agrees_pairs isTrue h hnotes).noted _
  | caseOf =>
    cases h with
    | nil => exact Agrees.refl _
    | cons hexpr hrest =>
      obtain ⟨-, hnotes⟩ := forall_mem_cons.mp hnotes
      exact (hexpr.andThen (fun v => agrees_pairs (equals v) hrest hnotes)
        fun v => notes_pairs (equals v) hnotes).noted _
  | isNull =>
    match children, children', h with
    | [_], [_], .cons hchild .nil =>
      exact (hchild.andThen (fun _ => Agrees.refl _) fun _ => notes_done _).noted _
    | [], [], .nil => exact Agrees.refl _
    | _ :: _ :: _, _ :: _ :: _, _ => exact Agrees.refl _
  | variableSet index =>
    match children, children', h with
    | [_], [_], .cons hchild .nil =>
      show Agrees (noted _ (Evaluation.andThen _ _)) (noted _ (Evaluation.andThen _ _))
      rw [noted_andThen, noted_andThen]
      exact hchild.andThen
        (fun v => agrees_copied rfl (f := fun ctx =>
          ((ctx.setVariable memory index v).getVariable memory index,
            ctx.setVariable memory index v)))
        fun _ _ => prefix_append _ _
    | [], [], .nil => exact Agrees.refl _
    | _ :: _ :: _, _ :: _ :: _, _ => exact Agrees.refl _
  | variableGet index =>
    exact agrees_copied rfl (f := fun ctx => (ctx.getVariable memory index, ctx))

end

/-! ## Trees -/

section

variable {T : RowType} {memory : Int32} {row : ExpressionContext T}

theorem notes_const (R : Returns) (c : Const) : Notes ((branchMeaning R memory).const c) := by
  refine Notes.noted ?_ none
  split
  · exact notes_done _
  · exact notes_fail _

theorem clears_const (R : Returns) (c : Const) : Clears ((branchMeaning R memory).const c) := by
  refine Clears.noted ?_ rfl
  split
  · exact clears_done _
  · exact clears_fail _

mutual
theorem notes_evaluate (R : Returns) :
    ∀ e : BranchExpression, Notes (Term.eval (branchMeaning R memory) (branchField row) e)
  | .var _ => (notes_done _).noted none
  | .const c => notes_const R c
  | .func cls args => (notes_class R memory cls (notes_evaluateAll R args)).noted (some cls)
theorem notes_evaluateAll (R : Returns) : ∀ es : List BranchExpression,
    ∀ child ∈ Term.evalAll (branchMeaning R memory) (branchField row) es, Notes child
  | [] => forall_mem_nil _
  | e :: es => forall_mem_cons.mpr ⟨notes_evaluate R e, notes_evaluateAll R es⟩
end

mutual
theorem clears_evaluate :
    ∀ e : BranchExpression, Clears (Term.eval (branchMeaning pbReturns memory) (branchField row) e)
  | .var _ => (clears_done _).noted rfl
  | .const c => clears_const pbReturns c
  | .func cls args => clears_class memory cls (clears_evaluateAll args)
theorem clears_evaluateAll : ∀ es : List BranchExpression,
    ∀ child ∈ Term.evalAll (branchMeaning pbReturns memory) (branchField row) es, Clears child
  | [] => forall_mem_nil _
  | e :: es => forall_mem_cons.mpr ⟨clears_evaluate e, clears_evaluateAll es⟩
end

mutual
theorem agrees_evaluate : ∀ e : BranchExpression,
    Agrees (Term.eval (branchMeaning pbReturns memory) (branchField row) e)
      (Term.eval (branchMeaning sqlReturns memory) (branchField row) e)
  | .var _ => Agrees.refl _
  | .const _ => Agrees.refl _
  | .func cls args =>
    agrees_class memory cls (agrees_evaluateAll args) (notes_evaluateAll sqlReturns args)
theorem agrees_evaluateAll : ∀ es : List BranchExpression,
    List.Forall₂ Agrees (Term.evalAll (branchMeaning pbReturns memory) (branchField row) es)
      (Term.evalAll (branchMeaning sqlReturns memory) (branchField row) es)
  | [] => .nil
  | e :: es => .cons (agrees_evaluate e) (agrees_evaluateAll es)
end

variable (memory row) in
/-- The values of the tree and of all its subexpressions that are evaluated are null where they
should be. -/
def HasSqlNulls (e : BranchExpression) (vars : List PbVariant) : Prop :=
  (branchEvaluate pbReturns memory row e { vars }).2.statuses =
    (branchEvaluate sqlReturns memory row e { vars }).2.statuses

variable {e : BranchExpression} {vars : List PbVariant}

/-- Where no null value is copied, the tree has the value that it should have. -/
theorem branchEvaluate_eq
    (h : CopiesNoNull (branchEvaluate sqlReturns memory row e { vars }).2.statuses) :
    branchEvaluate pbReturns memory row e { vars } = branchEvaluate sqlReturns memory row e
    { vars } :=
  agrees_evaluate e { vars } h

end

end Idgs.Expr
