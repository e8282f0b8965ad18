import Mathlib.Data.List.Basic

/-!
# Terms

Terms over variables, constants and function symbols, their value under a meaning of the symbols,
and the free meaning, under which a term is its own value. A value under any meaning factors through
the free one, so what holds of the values in general is what holds of the terms. Two terms are of
one shape when their function symbols and their leaves correspond.
-/

namespace Idgs.Common

/-- A term with constants `κ`, function symbols `φ` and variables `α`. -/
inductive Term (κ φ α : Type*)
  | var (a : α)
  | const (c : κ)
  | func (f : φ) (args : List (Term κ φ α))

namespace Term

variable {κ φ α β V : Type*}

/-- A meaning of the constants and the function symbols. -/
structure Meaning (κ φ V : Type*) where
  const : κ → V
  func : φ → List V → V

mutual
/-- The value of a term. -/
def eval (M : Meaning κ φ V) (h : α → V) : Term κ φ α → V
  | .var a => h a
  | .const c => M.const c
  | .func f args => M.func f (evalAll M h args)
/-- The values of some terms. -/
def evalAll (M : Meaning κ φ V) (h : α → V) : List (Term κ φ α) → List V
  | [] => []
  | t :: ts => eval M h t :: evalAll M h ts
end

/-- The meaning under which terms are their own values. -/
def free (κ φ α : Type*) : Meaning κ φ (Term κ φ α) where
  const := .const
  func := .func

theorem evalAll_eq_map (M : Meaning κ φ V) (h : α → V) (ts : List (Term κ φ α)) :
    evalAll M h ts = ts.map (eval M h) := by
  induction ts with
  | nil => rfl
  | cons t ts ih => rw [evalAll, ih, List.map_cons]

mutual
/-- The value of a term under the free meaning, evaluated, is the value of the term. -/
theorem eval_free (M : Meaning κ φ V) (h : β → V) (σ : α → Term κ φ β) :
    ∀ t : Term κ φ α, eval M h (eval (free κ φ β) σ t) = eval M (fun a => eval M h (σ a)) t
  | .var _ => rfl
  | .const _ => rfl
  | .func f args => congrArg (M.func f) (evalAll_free M h σ args)
theorem evalAll_free (M : Meaning κ φ V) (h : β → V) (σ : α → Term κ φ β) :
    ∀ ts : List (Term κ φ α),
      evalAll M h (evalAll (free κ φ β) σ ts) = evalAll M (fun a => eval M h (σ a)) ts
  | [] => rfl
  | t :: ts => congrArg₂ List.cons (eval_free M h σ t) (evalAll_free M h σ ts)
end

/-! ## Variables -/

mutual
/-- The variables of a term. -/
def vars : Term κ φ α → List α
  | .var a => [a]
  | .const _ => []
  | .func _ args => varsAll args
/-- The variables of some terms. -/
def varsAll : List (Term κ φ α) → List α
  | [] => []
  | t :: ts => vars t ++ varsAll ts
end

attribute [simp] vars varsAll

mutual
/-- The value of a term depends on its variables only. -/
theorem eval_congr (M : Meaning κ φ V) {h h' : α → V} :
    ∀ t : Term κ φ α, (∀ a ∈ vars t, h a = h' a) → eval M h t = eval M h' t
  | .var a, hvars => hvars a (by simp)
  | .const _, _ => rfl
  | .func f args, hvars => congrArg (M.func f) (evalAll_congr M args (by simpa using hvars))
theorem evalAll_congr (M : Meaning κ φ V) {h h' : α → V} :
    ∀ ts : List (Term κ φ α), (∀ a ∈ varsAll ts, h a = h' a) → evalAll M h ts = evalAll M h' ts
  | [], _ => rfl
  | t :: ts, hvars => congrArg₂ List.cons
      (eval_congr M t fun a ha => hvars a (by simp [ha]))
      (evalAll_congr M ts fun a ha => hvars a (by simp [ha]))
end

/-! ## Subterms and shapes -/

mutual
/-- `P` holds of every subterm. -/
def Every (P : Term κ φ α → Prop) : Term κ φ α → Prop
  | .var a => P (.var a)
  | .const c => P (.const c)
  | .func f args => P (.func f args) ∧ EveryAll P args
/-- `P` holds of every subterm of some terms. -/
def EveryAll (P : Term κ φ α → Prop) : List (Term κ φ α) → Prop
  | [] => True
  | t :: ts => Every P t ∧ EveryAll P ts
end

mutual
/-- Two terms of one shape, whose leaves and function symbols are related. -/
def Related {κ' φ' α' : Type*} (K : κ → κ' → Prop) (F : φ → φ' → Prop) (A : α → α' → Prop) :
    Term κ φ α → Term κ' φ' α' → Prop
  | .var a, .var b => A a b
  | .const c, .const d => K c d
  | .func f ss, .func g ts => F f g ∧ RelatedAll K F A ss ts
  | .var _, .const _ => False
  | .var _, .func _ _ => False
  | .const _, .var _ => False
  | .const _, .func _ _ => False
  | .func _ _, .var _ => False
  | .func _ _, .const _ => False
/-- Two lists of terms of the same shapes. -/
def RelatedAll {κ' φ' α' : Type*} (K : κ → κ' → Prop) (F : φ → φ' → Prop) (A : α → α' → Prop) :
    List (Term κ φ α) → List (Term κ' φ' α') → Prop
  | [], [] => True
  | s :: ss, t :: ts => Related K F A s t ∧ RelatedAll K F A ss ts
  | [], _ :: _ => False
  | _ :: _, [] => False
end

section DecidableEq

variable [DecidableEq κ] [DecidableEq φ] [DecidableEq α]

mutual
/-- Whether two terms are equal. -/
def decEq : (s t : Term κ φ α) → Decidable (s = t)
  | .var a, .var b => decidable_of_iff (a = b) (by simp)
  | .const c, .const d => decidable_of_iff (c = d) (by simp)
  | .func f ss, .func g ts =>
    haveI := decEqAll ss ts
    decidable_of_iff (f = g ∧ ss = ts) (by simp)
  | .var _, .const _ => isFalse (by simp)
  | .var _, .func _ _ => isFalse (by simp)
  | .const _, .var _ => isFalse (by simp)
  | .const _, .func _ _ => isFalse (by simp)
  | .func _ _, .var _ => isFalse (by simp)
  | .func _ _, .const _ => isFalse (by simp)
/-- Whether two lists of terms are equal. -/
def decEqAll : (ss ts : List (Term κ φ α)) → Decidable (ss = ts)
  | [], [] => isTrue rfl
  | [], _ :: _ => isFalse (by simp)
  | _ :: _, [] => isFalse (by simp)
  | s :: ss, t :: ts =>
    haveI := decEq s t
    haveI := decEqAll ss ts
    decidable_of_iff (s = t ∧ ss = ts) (by simp)
end

instance : DecidableEq (Term κ φ α) := decEq

end DecidableEq

end Term

end Idgs.Common
