import Idgs.Rdd.ExprMapOperator

/-!
# When ExprMapOperator is right

A row is left as it is by the loop exactly if the evaluated expressions leave it, as no expression
takes back what another one has set. The output has the values of the expressions if it is a new
message and no listed field is passed over, and later updates stay in the output then.
-/

namespace Idgs.Rdd.Op

open Function List

variable {V C E : Type*} [PartialOrder C]

/-! ## What evaluation does to the row -/

section Rows

variable {casts : Casts V C} {field : FieldDescriptor} {var : V} {row : Row C} {output : Content C}
  {fields rest : List (FieldDescriptor × Expression V C)} {info : OutMessageInfo V C}
    {op : ExprMapOperator V C}

/-- A value is stored into a field, or the field is passed over. -/
def Storable (casts : Casts V C) (field : FieldDescriptor) (var : V) : Prop :=
  field.cppType = .enum ∨ field.cppType = .message ∨
    (casts.cast field.cppType var).isSome ∧ field.isRepeated = false

/-- Evaluation of a listed field goes on to the next one. -/
def Stores (casts : Casts V C) (p : FieldDescriptor × Expression V C) (row : Row C) : Prop :=
  ∃ var, (p.2.evaluate row).1 = some var ∧ Storable casts p.1 var

/-- The expressions that are evaluated leave the row as it is. -/
def Untouched (casts : Casts V C) : List (FieldDescriptor × Expression V C) → Row C → Prop
  | [], _ => True
  | p :: rest, row => (p.2.evaluate row).2 = row ∧ (Stores casts p row → Untouched casts rest row)

theorem untouched_append {fields' : List (FieldDescriptor × Expression V C)} :
    Untouched casts (fields ++ fields') row ↔
      Untouched casts fields row ∧
      ((∀ p ∈ fields, Stores casts p row) → Untouched casts fields' row) := by
  induction fields with
  | nil =>
    refine ⟨fun h => ⟨trivial, fun _ => h⟩, fun h => h.2 fun p hp => absurd hp not_mem_nil⟩
  | cons p fields ih =>
    rw [cons_append, Untouched, Untouched, ih]
    constructor
    · rintro ⟨hrow, hrest⟩
      refine ⟨⟨hrow, fun hstores => (hrest hstores).1⟩, fun hall => ?_⟩
      exact (hrest (hall p mem_cons_self)).2 fun q hq => hall q (mem_cons_of_mem _ hq)
    · rintro ⟨⟨hrow, hrest⟩, happend⟩
      exact ⟨hrow, fun hstores =>
        ⟨hrest hstores, fun hall => happend (forall_mem_cons.mpr ⟨hstores, hall⟩)⟩⟩

/-- A field of another type is set to the value in its type. -/
theorem setField_of_cast {x : C} (hcast : casts.cast field.cppType var = some x)
    (hsingular : field.isRepeated = false)
    (henum : field.cppType ≠ .enum) (hmessage : field.cppType ≠ .message) (output : Content C) :
    setField casts field var output = .ok (update output field.name x) := by
  unfold setField
  split
  · rename_i htype
    exact absurd htype henum
  · rename_i htype
    exact absurd htype hmessage
  · simp only [hcast]
    rw [hsingular, if_neg Bool.false_ne_true]

theorem setField_of_storable (h : Storable casts field var) (output : Content C) :
    ∃ output', setField casts field var output = .ok output' := by
  by_cases hskip : field.cppType = .enum ∨ field.cppType = .message
  · refine ⟨output, ?_⟩
    unfold setField
    rcases hskip with htype | htype <;> rw [htype]
  · obtain ⟨henum, hmessage⟩ := not_or.mp hskip
    obtain ⟨hcast, hsingular⟩ := (h.resolve_left henum).resolve_left hmessage
    obtain ⟨x, hx⟩ := Option.isSome_iff_exists.mp hcast
    exact ⟨_, setField_of_cast hx hsingular henum hmessage output⟩

theorem setField_frame {output' : Content C} {name : String}
    (h : setField casts field var output = .ok output')
    (hname : field.name ≠ name) : output' name = output name := by
  unfold setField at h
  split at h
  · cases h
    rfl
  · cases h
    rfl
  · cases hcast : casts.cast field.cppType var with
    | none =>
      simp only [hcast] at h
      cases h
    | some x =>
      simp only [hcast] at h
      split at h
      · cases h
      · cases h
        exact update_of_ne (Ne.symm hname) _ _

theorem storable_of_setField {output' : Content C}
    (h : setField casts field var output = .ok output') :
    Storable casts field var := by
  unfold setField at h
  split at h
  · rename_i htype
    exact .inl htype
  · rename_i htype
    exact .inr (.inl htype)
  · cases hcast : casts.cast field.cppType var with
    | none =>
      simp only [hcast] at h
      cases h
    | some x =>
      simp only [hcast] at h
      cases hrepeated : field.isRepeated with
      | true =>
        rw [hrepeated, if_pos rfl] at h
        cases h
      | false => exact .inr (.inr ⟨by rw [hcast]; rfl, hrepeated⟩)

theorem fillFields_grows (fields : List (FieldDescriptor × Expression V C)) (row : Row C)
    (output : Content C) :
    row ≤ (fillFields casts fields row output).2 := by
  induction fields generalizing row output with
  | nil => exact le_rfl
  | cons p fields ih =>
    have hgrows := p.2.grows row
    rw [fillFields]
    cases hvalue : p.2.evaluate row with
    | mk value row' =>
      rw [hvalue] at hgrows
      cases value with
      | none => exact hgrows
      | some var =>
        cases hset : setField casts p.1 var output with
        | error stop =>
          simp only [hset]
          exact hgrows
        | ok output' =>
          simp only [hset]
          exact hgrows.trans (ih row' output')

/-- The row is the same afterwards exactly if the expressions leave it. -/
theorem fillFields_row_iff :
    (fillFields casts fields row output).2 = row ↔ Untouched casts fields row := by
  induction fields generalizing output with
  | nil => exact ⟨fun _ => trivial, fun _ => rfl⟩
  | cons p fields ih =>
    have hgrows := p.2.grows row
    rw [fillFields, Untouched, Stores]
    cases hvalue : p.2.evaluate row with
    | mk value row' =>
      rw [hvalue] at hgrows
      cases value with
      | none =>
        refine ⟨fun h => ⟨h, ?_⟩, fun h => h.1⟩
        rintro ⟨var, hvar, -⟩
        cases hvar
      | some var =>
        cases hset : setField casts p.1 var output with
        | error stop =>
          simp only [hset]
          refine ⟨fun h => ⟨h, ?_⟩, fun h => h.1⟩
          rintro ⟨var', hvar, hstorable⟩
          cases hvar
          obtain ⟨output', hok⟩ := setField_of_storable hstorable output
          rw [hset] at hok
          cases hok
        | ok output' =>
          simp only [hset]
          constructor
          · intro h
            have hback : row' ≤ row := (fillFields_grows fields row' output').trans_eq h
            obtain rfl : row' = row := le_antisymm hback hgrows
            exact ⟨rfl, fun _ => ih.mp h⟩
          · rintro ⟨rfl, hrest⟩
            exact ih.mpr (hrest ⟨var, rfl, storable_of_setField hset⟩)

/-- The listed expressions that are evaluated at all. -/
def OutMessageInfo.evaluated (info : OutMessageInfo V C) :
    List (FieldDescriptor × Expression V C) :=
  if info.reuse = .reuseNone then info.outFields else []

theorem fillFields_ok_iff (output : Content C) (h : Untouched casts fields row) :
    (∃ content, (fillFields casts fields row output).1 = .ok content) ↔
      ∀ p ∈ fields, Stores casts p row := by
  induction fields generalizing output with
  | nil => exact ⟨fun _ p hp => absurd hp not_mem_nil, fun _ => ⟨output, rfl⟩⟩
  | cons p fields ih =>
    obtain ⟨hrow, hrest⟩ := h
    rw [forall_mem_cons, fillFields]
    cases hvalue : p.2.evaluate row with
    | mk value row' =>
      obtain rfl : row' = row := by rw [← hrow, hvalue]
      cases value with
      | none =>
        constructor
        · rintro ⟨content, hok⟩
          cases hok
        · rintro ⟨⟨var, hvar, -⟩, -⟩
          rw [hvalue] at hvar
          cases hvar
      | some var =>
        cases hset : setField casts p.1 var output with
        | error stop =>
          simp only [hset]
          constructor
          · rintro ⟨content, hok⟩
            cases hok
          · rintro ⟨⟨var', hvar, hstorable⟩, -⟩
            obtain rfl : var = var' := by
              rw [hvalue] at hvar
              exact Option.some.inj hvar
            obtain ⟨output', hok⟩ := setField_of_storable hstorable output
            rw [hset] at hok
            cases hok
        | ok output' =>
          simp only [hset]
          have hstores : Stores casts p row' :=
            ⟨var, by rw [hvalue], storable_of_setField hset⟩
          rw [ih output' (hrest hstores)]
          exact ⟨fun hall => ⟨hstores, hall⟩, fun hall => hall.2⟩

/-- A loop that gets through has stored the first field before it goes on. -/
theorem exists_of_fillFields_cons {p : FieldDescriptor × Expression V C} {content : Content C}
    (h : Untouched casts (p :: rest) row)
    (hok : (fillFields casts (p :: rest) row output).1 = .ok content) :
    ∃ var output', (p.2.evaluate row).1 = some var ∧ setField casts p.1 var output = .ok output' ∧
      (fillFields casts rest row output').1 = .ok content ∧ Untouched casts rest row := by
  obtain ⟨hrow, hrest⟩ := h
  rw [fillFields] at hok
  cases hvalue : p.2.evaluate row with
  | mk value row' =>
    obtain rfl : row' = row := by rw [← hrow, hvalue]
    rw [hvalue] at hok
    cases value with
    | none => cases hok
    | some var =>
      cases hset : setField casts p.1 var output with
      | error stop =>
        simp only [hset] at hok
        cases hok
      | ok output' =>
        simp only [hset] at hok
        exact ⟨var, output', rfl, hset, hok,
          hrest ⟨var, by rw [hvalue], storable_of_setField hset⟩⟩

/-- A field is left alone by the others, and by its own entry if its type is passed over. -/
theorem fillFields_other {content : Content C} {name : String} (h : Untouched casts fields row)
    (hok : (fillFields casts fields row output).1 = .ok content)
    (hother : ∀ p ∈ fields, p.1.name = name → p.1.cppType = .enum ∨ p.1.cppType = .message) :
    content name = output name := by
  induction fields generalizing output with
  | nil =>
    cases hok
    rfl
  | cons p fields ih =>
    obtain ⟨var, output', -, hset, hrest, huntouched⟩ := exists_of_fillFields_cons h hok
    rw [ih huntouched hrest fun q hq => hother q (mem_cons_of_mem _ hq)]
    by_cases hname : p.1.name = name
    · rcases hother p mem_cons_self hname with htype | htype <;>
      · unfold setField at hset
        rw [htype] at hset
        cases hset
        rfl
    · exact setField_frame hset hname

/-- A listed field gets the value of its expression. -/
theorem fillFields_set {content : Content C} {q : FieldDescriptor × Expression V C} {x : C}
    (h : Untouched casts fields row) (hok : (fillFields casts fields row output).1 = .ok content)
    (hunique : ∀ p ∈ fields, p.1.name = q.1.name → p = q) (hq : q ∈ fields ∨ output q.1.name = x)
    (hvalue : (q.2.evaluate row).1 = some var)
    (hset : ∀ output : Content C, setField casts q.1 var output =
      .ok (update output q.1.name x)) :
    content q.1.name = x := by
  induction fields generalizing output with
  | nil =>
    cases hok
    exact hq.resolve_left not_mem_nil
  | cons p fields ih =>
    obtain ⟨var', output', hvar, hfirst, hrest, huntouched⟩ := exists_of_fillFields_cons h hok
    refine ih huntouched hrest (fun p hp => hunique p (mem_cons_of_mem _ hp)) ?_
    by_cases hname : p.1.name = q.1.name
    · obtain rfl : p = q := hunique p mem_cons_self hname
      obtain rfl : var' = var := Option.some.inj (hvar.symm.trans hvalue)
      rw [hset output] at hfirst
      cases hfirst
      exact .inr (update_self ..)
    · rw [setField_frame hfirst hname]
      refine hq.imp (fun hmem => ?_) id
      exact (mem_cons.mp hmem).resolve_left fun heq => hname (heq ▸ rfl)

/-- An output message that is new, or has no fields, is apart from the row. -/
def OutMessageInfo.Apart (info : OutMessageInfo V C) : Prop :=
  info.reuse = .reuseNone ∨ info.templateMessage.fields = []

theorem evaluated_of_made (h : info.reuse = .reuseNone) : info.evaluated = info.outFields :=
  if_pos h

theorem evaluated_of_reused (h : info.reuse ≠ .reuseNone) : info.evaluated = [] := if_neg h

theorem fillMessage_of_made (h : info.reuse = .reuseNone) (row : Row C) :
    info.fillMessage casts row =
    ((fillFields casts info.outFields row fun _ => ⊥).1.map .made,
      (fillFields casts info.outFields row fun _ => ⊥).2) := by
  unfold OutMessageInfo.fillMessage
  rw [h]

/-- A message that is taken over leaves the row alone. -/
theorem fillMessage_of_reused (casts : Casts V C) (h : info.reuse ≠ .reuseNone) (row : Row C) :
    ∃ output, info.fillMessage casts row = (.ok output, row) := by
  unfold OutMessageInfo.fillMessage
  cases hreuse : info.reuse with
  | reuseNone => exact absurd hreuse h
  | reuseKey | reuseValue => exact ⟨_, rfl⟩

theorem fillMessage_row_iff :
    (info.fillMessage casts row).2 = row ↔ Untouched casts info.evaluated row := by
  by_cases h : info.reuse = .reuseNone
  · rw [evaluated_of_made h, fillMessage_of_made h]
    exact fillFields_row_iff
  · obtain ⟨output, heq⟩ := fillMessage_of_reused casts h row
    rw [evaluated_of_reused h, heq]
    exact ⟨fun _ => trivial, fun _ => rfl⟩

theorem fillMessage_grows (casts : Casts V C) (info : OutMessageInfo V C) (row : Row C) :
    row ≤ (info.fillMessage casts row).2 := by
  by_cases h : info.reuse = .reuseNone
  · rw [fillMessage_of_made h]
    exact fillFields_grows info.outFields row _
  · obtain ⟨output, heq⟩ := fillMessage_of_reused casts h row
    rw [heq]

theorem fillMessage_ok_iff (h : Untouched casts info.evaluated row) :
    (∃ output, (info.fillMessage casts row).1 = .ok output) ↔
      ∀ p ∈ info.evaluated, Stores casts p row := by
  by_cases hmade : info.reuse = .reuseNone
  · rw [evaluated_of_made hmade] at h ⊢
    rw [fillMessage_of_made hmade, ← fillFields_ok_iff (fun _ => ⊥) h]
    cases (fillFields casts info.outFields row fun _ => ⊥).1 with
    | error stop =>
      constructor <;>
      · rintro ⟨output, hok⟩
        cases hok
    | ok content => exact ⟨fun _ => ⟨content, rfl⟩, fun _ => ⟨.made content, rfl⟩⟩
  · obtain ⟨output, heq⟩ := fillMessage_of_reused casts hmade row
    rw [evaluated_of_reused hmade, heq]
    exact ⟨fun _ p hp => absurd hp not_mem_nil, fun _ => ⟨output, rfl⟩⟩

/-- The expressions that an operator evaluates behind its filter. -/
def ExprMapOperator.evaluated (op : ExprMapOperator V C) :
    List (FieldDescriptor × Expression V C) :=
  op.key.evaluated ++ op.value.evaluated

theorem fill_of_stopped {stop : Stop} {row' : Row C}
    (hkey : op.key.fillMessage casts row = (.error stop, row')) :
    op.fill casts row = (.stopped stop, row') := by
  unfold ExprMapOperator.fill
  rw [hkey]

theorem fill_of_filled {outkey : OutMessage C} {row' : Row C}
    (hkey : op.key.fillMessage casts row = (.ok outkey, row')) :
    (op.fill casts row).2 = (op.value.fillMessage casts row').2 := by
  unfold ExprMapOperator.fill
  simp only [hkey]
  cases op.value.fillMessage casts row' with
  | mk filled row'' => cases filled <;> rfl

theorem fill_row_iff : (op.fill casts row).2 = row ↔ Untouched casts op.evaluated row := by
  have hgrows := fillMessage_grows casts op.key row
  have hrow : (op.key.fillMessage casts row).2 = row ↔ _ := fillMessage_row_iff
  rw [ExprMapOperator.evaluated, untouched_append, ← hrow]
  cases hkey : op.key.fillMessage casts row with
  | mk filled row' =>
    rw [hkey] at hgrows hrow
    cases filled with
    | error stop =>
      rw [fill_of_stopped hkey]
      refine ⟨fun h => ⟨h, fun hall => ?_⟩, fun h => h.1⟩
      obtain ⟨output, hok⟩ := (fillMessage_ok_iff (hrow.mp h)).mpr hall
      rw [hkey] at hok
      cases hok
    | ok outkey =>
      rw [fill_of_filled hkey]
      constructor
      · intro h
        have hback : row' ≤ row := (fillMessage_grows casts op.value row').trans_eq h
        obtain rfl : row' = row := le_antisymm hback hgrows
        exact ⟨rfl, fun _ => fillMessage_row_iff.mp h⟩
      · rintro ⟨hback, hrest⟩
        obtain rfl : row' = row := hback
        have hall := (fillMessage_ok_iff (hrow.mp rfl)).mp ⟨outkey, by rw [hkey]⟩
        exact fillMessage_row_iff.mpr (hrest hall)

/-- The filter lets a row through. -/
def ExprMapOperator.Passes (op : ExprMapOperator V C) (casts : Casts V C) (row : Row C) : Prop :=
  ∀ filterExpr, op.filterExpr = some filterExpr →
    ∃ var, (filterExpr.evaluate row).1 = some var ∧ casts.castBool var = true

/-- The filter leaves the row as it is, and so do the expressions behind it that are evaluated. -/
def ExprMapOperator.LeavesRow (op : ExprMapOperator V C) (casts : Casts V C) (row : Row C) : Prop :=
  (∀ filterExpr, op.filterExpr = some filterExpr → (filterExpr.evaluate row).2 = row) ∧
    (op.Passes casts row → Untouched casts op.evaluated row)

theorem fill_grows (op : ExprMapOperator V C) (row : Row C) : row ≤ (op.fill casts row).2 := by
  have hgrows := fillMessage_grows casts op.key row
  cases hkey : op.key.fillMessage casts row with
  | mk filled row' =>
    rw [hkey] at hgrows
    cases filled with
    | error stop =>
      rw [fill_of_stopped hkey]
      exact hgrows
    | ok outkey =>
      rw [fill_of_filled hkey]
      exact hgrows.trans (fillMessage_grows casts op.value row')

theorem evaluate_of_passes (hpass : op.Passes casts row)
    (hrow : ∀ filterExpr, op.filterExpr = some filterExpr → (filterExpr.evaluate row).2 = row) :
    op.evaluate casts row = op.fill casts row := by
  unfold ExprMapOperator.evaluate
  cases hfilter : op.filterExpr with
  | none => rfl
  | some filterExpr =>
    obtain ⟨var, hvar, hbool⟩ := hpass filterExpr hfilter
    have heval : filterExpr.evaluate row = (some var, row) :=
      Prod.ext hvar (hrow filterExpr hfilter)
    simp only [heval]
    rw [hbool, if_pos rfl]

/-- What evaluation does to the row is what the filter does, unless this lets it through. -/
theorem evaluate_row_of_filter {filterExpr : Expression V C}
    (hfilter : op.filterExpr = some filterExpr)
    (hpass : ¬ op.Passes casts row) : (op.evaluate casts row).2 = (filterExpr.evaluate row).2 := by
  unfold ExprMapOperator.evaluate
  simp only [hfilter]
  cases heval : filterExpr.evaluate row with
  | mk value row' =>
    cases value with
    | none => rfl
    | some var =>
      have hbool : ¬ casts.castBool var = true := by
        intro hbool
        refine hpass fun e he => ?_
        obtain rfl : filterExpr = e := Option.some.inj (hfilter.symm.trans he)
        exact ⟨var, by rw [heval], hbool⟩
      simp only [hbool]
      rfl

theorem evaluate_row_of_passes {filterExpr : Expression V C}
    (hfilter : op.filterExpr = some filterExpr) (hpass : op.Passes casts row) :
    (op.evaluate casts row).2 = (op.fill casts (filterExpr.evaluate row).2).2 := by
  obtain ⟨var, hvar, hbool⟩ := hpass filterExpr hfilter
  unfold ExprMapOperator.evaluate
  simp only [hfilter]
  cases heval : filterExpr.evaluate row with
  | mk value row' =>
    rw [heval] at hvar
    obtain rfl : value = some var := hvar
    simp only [hbool]
    rfl

theorem evaluate_row_iff : (op.evaluate casts row).2 = row ↔ op.LeavesRow casts row := by
  cases hfilter : op.filterExpr with
  | none =>
    have hnone : ∀ filterExpr, op.filterExpr ≠ some filterExpr := by
      intro filterExpr h
      rw [hfilter] at h
      cases h
    have hpass : op.Passes casts row := fun filterExpr h => absurd h (hnone filterExpr)
    rw [evaluate_of_passes hpass fun filterExpr h => absurd h (hnone filterExpr), fill_row_iff]
    exact ⟨fun h => ⟨fun filterExpr hf => absurd hf (hnone filterExpr), fun _ => h⟩, fun h =>
      h.2 hpass⟩
  | some filterExpr =>
    have hgrows := filterExpr.grows row
    have hleaves : (∀ e, op.filterExpr = some e → (e.evaluate row).2 = row) ↔
        (filterExpr.evaluate row).2 = row := by
      refine ⟨fun h => h filterExpr hfilter, fun h e he => ?_⟩
      obtain rfl : filterExpr = e := Option.some.inj (hfilter.symm.trans he)
      exact h
    unfold ExprMapOperator.LeavesRow
    rw [hleaves]
    by_cases hpass : op.Passes casts row
    · rw [evaluate_row_of_passes hfilter hpass]
      constructor
      · intro h
        have hback : (filterExpr.evaluate row).2 ≤ row := (fill_grows op _).trans_eq h
        have hrow := le_antisymm hback hgrows
        rw [hrow] at h
        exact ⟨hrow, fun _ => fill_row_iff.mp h⟩
      · rintro ⟨hrow, hrest⟩
        rw [hrow]
        exact fill_row_iff.mpr (hrest hpass)
    · rw [evaluate_row_of_filter hfilter hpass]
      exact ⟨fun h => ⟨h, fun h' => absurd h' hpass⟩, fun h => h.1⟩

end Rows

/-! ## What is right -/

section Right

variable {casts : Casts V C} {row : Row C} {info : OutMessageInfo V C} {op : ExprMapOperator V C}
  {listed : String → Expression V C → Prop} {template : Descriptor}

/-- Every listed expression has a value on the row that can be cast to the type of its field. -/
def Valued (casts : Casts V C) (template : Descriptor) (listed : String → Expression V C → Prop)
    (row : Row C) : Prop :=
  ∀ name expr, listed name expr → ∃ field var x, template.findFieldByName name = some field ∧
    (expr.evaluate row).1 = some var ∧ casts.cast field.cppType var = some x

/-- Listed fields have the values of their expressions on the row; the others are not set. -/
structure Computes (casts : Casts V C) (template : Descriptor)
    (listed : String → Expression V C → Prop) (row : Row C)
    (content : Content C) : Prop where
  values : ∀ name expr field var x, listed name expr → template.findFieldByName name = some field →
    (expr.evaluate row).1 = some var → casts.cast field.cppType var = some x → content name = x
  unset : ∀ name, (template.findFieldByName name).isSome → (∀ expr, ¬ listed name expr) →
    content name = ⊥

/-- An operator computes every field and leaves its input alone. -/
structure Right (casts : Casts V C) (op : ExprMapOperator V C) (outRddLocal : RddLocal)
    (keyListed valueListed : String → Expression V C → Prop) (row : Row C) : Prop where
  leaves : (op.evaluate casts row).2 = row
  computes : op.Passes casts row → Valued casts outRddLocal.keyTemplate keyListed row →
    Valued casts outRddLocal.valueTemplate valueListed row →
      ∃ outkey outvalue, (op.evaluate casts row).1 = .returned outkey outvalue ∧
        Computes casts outRddLocal.keyTemplate keyListed row (outkey.content row) ∧
        Computes casts outRddLocal.valueTemplate valueListed row (outvalue.content row) ∧
        ∀ updates : List (Update C), (updates.foldl op.update ⟨row, outkey, outvalue⟩).row = row

/-- A singular field of a type that has a case of its own. -/
def FieldDescriptor.Settable (field : FieldDescriptor) : Prop :=
  field.cppType ≠ .enum ∧ field.cppType ≠ .message ∧ field.isRepeated = false

/-- All listed fields are set. -/
def AllSettable (template : Descriptor) (listed : String → Expression V C → Prop) : Prop :=
  ∀ name expr field, listed name expr → template.findFieldByName name = some field → field.Settable

/-- The type of the output has another name, or no fields. -/
def Distinct (inTemplate outTemplate : Descriptor) : Prop :=
  inTemplate.fullName ≠ outTemplate.fullName ∨ outTemplate.fields = []

/-! ## When it is right -/

/-- An output message that an update cannot write into the row. -/
def OutMessage.ApartFrom (template : Descriptor) (output : OutMessage C) : Prop :=
  (∃ content, output = .made content) ∨ template.fields = []

theorem findFieldByName_of_nil (h : template.fields = []) (name : String) :
    template.findFieldByName name = none := by
  unfold Descriptor.findFieldByName
  rw [h]
  rfl

theorem OutMessageInfo.Lists.eq_of_name (hlists : info.Lists listed)
    {p q : FieldDescriptor × Expression V C}
    (hp : p ∈ info.outFields) (hq : q ∈ info.outFields) (hname : p.1.name = q.1.name) : p = q := by
  have hfield : p.1 = q.1 := by
    have hfound := hlists.found p hp
    rw [hname, hlists.found q hq] at hfound
    exact (Option.some.inj hfound).symm
  have hexpr : listed q.1.name p.2 := hname ▸ hlists.sound p hp
  exact Prod.ext hfield (hlists.unique q.1.name p.2 q.2 hexpr (hlists.sound q hq))

/-- A message that is made has the values. -/
theorem exists_computes (hlists : info.Lists listed)
    (huntouched : Untouched casts info.evaluated row)
    (hvalued : Valued casts info.templateMessage listed row) (hapart : info.Apart)
    (hsettable : AllSettable info.templateMessage listed) :
    ∃ output, info.fillMessage casts row = (.ok output, row) ∧
      Computes casts info.templateMessage listed row (output.content row) ∧
      output.ApartFrom info.templateMessage := by
  by_cases hmade : info.reuse = .reuseNone
  · rw [evaluated_of_made hmade] at huntouched
    have hstores : ∀ p ∈ info.outFields, Stores casts p row := by
      intro p hp
      obtain ⟨field, var, x, hfind, hvalue, hcast⟩ := hvalued _ _ (hlists.sound p hp)
      obtain rfl : p.1 = field := Option.some.inj ((hlists.found p hp).symm.trans hfind)
      refine ⟨var, hvalue, .inr (.inr ⟨by rw [hcast]; rfl, ?_⟩)⟩
      exact (hsettable _ _ _ (hlists.sound p hp) hfind).2.2
    obtain ⟨content, hok⟩ := (fillFields_ok_iff (fun _ => ⊥) huntouched).mpr hstores
    have hfilled : fillFields casts info.outFields row (fun _ => ⊥) = (.ok content, row) :=
      Prod.ext hok (fillFields_row_iff.mpr huntouched)
    refine ⟨.made content, by rw [fillMessage_of_made hmade, hfilled]; rfl, ?_, .inl ⟨content, rfl⟩⟩
    constructor
    · intro name expr field var x hlisted hfind hvalue hcast
      obtain ⟨field', hfind', hmem⟩ := hlists.mem name expr hlisted
      obtain rfl : field' = field := Option.some.inj (hfind'.symm.trans hfind)
      obtain rfl := findFieldByName_name hfind
      obtain ⟨henum, hmessage, hsingular⟩ := hsettable _ _ _ hlisted hfind
      exact fillFields_set huntouched hok (fun p hp hname => hlists.eq_of_name hp hmem hname)
        (.inl hmem) hvalue
        (setField_of_cast hcast hsingular henum hmessage)
    · intro name _ hunlisted
      refine fillFields_other huntouched hok fun p hp hname => ?_
      exact absurd (hname ▸ hlists.sound p hp) (hunlisted p.2)
  · have hfields := hapart.resolve_left hmade
    obtain ⟨output, heq⟩ := fillMessage_of_reused casts hmade row
    refine ⟨output, heq, ⟨?_, ?_⟩, .inr hfields⟩
    · intro name expr field var x _ hfind
      rw [findFieldByName_of_nil hfields] at hfind
      cases hfind
    · intro name hfind
      rw [findFieldByName_of_nil hfields] at hfind
      cases hfind

/-- A message that is made has the values only if all its fields are set. -/
theorem settable_of_computes (hlists : info.Lists listed)
    (huntouched : Untouched casts info.evaluated row)
    (hvalued : Valued casts info.templateMessage listed row) (hmade : info.reuse = .reuseNone)
    {output : OutMessage C} (hok : (info.fillMessage casts row).1 = .ok output)
    (hcomputes : Computes casts info.templateMessage listed row (output.content row)) :
    AllSettable info.templateMessage listed := by
  have hstores := (fillMessage_ok_iff huntouched).mp ⟨output, hok⟩
  rw [evaluated_of_made hmade] at huntouched hstores
  rw [fillMessage_of_made hmade] at hok
  cases hfilled : (fillFields casts info.outFields row fun _ => ⊥).1 with
  | error stop =>
    rw [hfilled] at hok
    cases hok
  | ok content =>
    rw [hfilled] at hok
    cases hok
    intro name expr field hlisted hfind
    obtain ⟨field', hfind', hmem⟩ := hlists.mem name expr hlisted
    obtain rfl : field' = field := Option.some.inj (hfind'.symm.trans hfind)
    obtain rfl := findFieldByName_name hfind
    obtain ⟨field, var, x, hfield, hvalue, hcast⟩ := hvalued _ _ hlisted
    obtain rfl : field = field' := Option.some.inj (hfield.symm.trans hfind)
    have hset := hcomputes.values _ _ _ _ _ hlisted hfind hvalue hcast
    have htype : ¬ (field.cppType = .enum ∨ field.cppType = .message) := by
      intro hskip
      have hbot : content field.name = ⊥ := by
        refine fillFields_other huntouched hfilled fun p hp hname => ?_
        obtain rfl := hlists.eq_of_name hp hmem hname
        exact hskip
      exact WithBot.bot_ne_coe (hbot.symm.trans hset)
    obtain ⟨henum, hmessage⟩ := not_or.mp htype
    obtain ⟨var', -, hstorable⟩ := hstores _ hmem
    exact ⟨henum, hmessage, ((hstorable.resolve_left henum).resolve_left hmessage).2⟩

theorem write_apart {output : OutMessage C} {name : String} (h : output.ApartFrom template)
    (hfind : (template.findFieldByName name).isSome) (x : WithBot C) :
    (output.write row name x).1.ApartFrom template ∧ (output.write row name x).2 = row := by
  rcases h with ⟨content, rfl⟩ | hfields
  · exact ⟨.inl ⟨_, rfl⟩, rfl⟩
  · rw [findFieldByName_of_nil hfields] at hfind
    cases hfind

/-- An update of messages that are apart from the row leaves it alone, and them apart. -/
theorem update_apart {outkey outvalue : OutMessage C}
    (hkey : outkey.ApartFrom op.key.templateMessage)
    (hvalue : outvalue.ApartFrom op.value.templateMessage) (update : Update C) :
    ∃ outkey' outvalue', op.update ⟨row, outkey, outvalue⟩ update = ⟨row, outkey', outvalue'⟩ ∧
      outkey'.ApartFrom op.key.templateMessage ∧ outvalue'.ApartFrom op.value.templateMessage := by
  cases update with
  | key name x =>
    by_cases hfind : (op.key.templateMessage.findFieldByName name).isSome
    · obtain ⟨hwritten, hrow⟩ := write_apart hkey hfind x
      refine ⟨(outkey.write row name x).1, outvalue, ?_, hwritten, hvalue⟩
      rw [ExprMapOperator.update, if_pos hfind]
      simp only [hrow]
    · exact ⟨outkey, outvalue, if_neg hfind, hkey, hvalue⟩
  | value name x =>
    by_cases hfind : (op.value.templateMessage.findFieldByName name).isSome
    · obtain ⟨hwritten, hrow⟩ := write_apart hvalue hfind x
      refine ⟨outkey, (outvalue.write row name x).1, ?_, hkey, hwritten⟩
      rw [ExprMapOperator.update, if_pos hfind]
      simp only [hrow]
    · exact ⟨outkey, outvalue, if_neg hfind, hkey, hvalue⟩

theorem updates_row {outkey outvalue : OutMessage C}
    (hkey : outkey.ApartFrom op.key.templateMessage)
    (hvalue : outvalue.ApartFrom op.value.templateMessage) (updates : List (Update C)) :
    (updates.foldl op.update ⟨row, outkey, outvalue⟩).row = row := by
  induction updates generalizing outkey outvalue with
  | nil => rfl
  | cons update updates ih =>
    obtain ⟨outkey', outvalue', hupdate, hkey', hvalue'⟩ := update_apart hkey hvalue update
    rw [foldl_cons, hupdate]
    exact ih hkey' hvalue'

theorem exists_ne (content : WithBot C) [Inhabited C] : ∃ x : WithBot C, x ≠ content := by
  cases content with
  | bot => exact ⟨(default : C), WithBot.coe_ne_bot⟩
  | coe c => exact ⟨⊥, WithBot.bot_ne_coe⟩

theorem exists_field (h : template.fields ≠ []) :
    ∃ name, (template.findFieldByName name).isSome := by
  obtain ⟨field, rest, hfields⟩ := exists_cons_of_ne_nil h
  refine ⟨field.name, ?_⟩
  unfold Descriptor.findFieldByName
  rw [hfields, find?_cons_of_pos (by simp)]
  rfl

/-- Updates reach the row through a message that is the input's and has a field. -/
theorem exists_update_key [Inhabited C] (hfields : op.key.templateMessage.fields ≠ []) (row : Row C)
    (outvalue : OutMessage C) :
    ∃ update, (op.update ⟨row, .inputKey, outvalue⟩ update).row ≠ row := by
  obtain ⟨name, hfind⟩ := exists_field hfields
  obtain ⟨x, hx⟩ := exists_ne (row.1 name)
  refine ⟨.key name x, fun h => hx ?_⟩
  rw [ExprMapOperator.update, if_pos hfind] at h
  have hname : update row.1 name x name = row.1 name := congrFun (congrArg Prod.fst h) name
  exact (update_self name x row.1).symm.trans hname

theorem exists_update_value [Inhabited C] (hfields : op.value.templateMessage.fields ≠ [])
    (row : Row C) (outkey : OutMessage C) :
    ∃ update, (op.update ⟨row, outkey, .inputValue⟩ update).row ≠ row := by
  obtain ⟨name, hfind⟩ := exists_field hfields
  obtain ⟨x, hx⟩ := exists_ne (row.2 name)
  refine ⟨.value name x, fun h => hx ?_⟩
  rw [ExprMapOperator.update, if_pos hfind] at h
  have hname : update row.2 name x name = row.2 name := congrFun (congrArg Prod.snd h) name
  exact (update_self name x row.2).symm.trans hname

theorem fill_of_ok {outkey outvalue : OutMessage C}
    (hkey : op.key.fillMessage casts row = (.ok outkey, row))
    (hvalue : op.value.fillMessage casts row = (.ok outvalue, row)) :
    op.fill casts row = (.returned outkey outvalue, row) := by
  unfold ExprMapOperator.fill
  simp only [hkey, hvalue]

theorem fillMessages_of_returned {outkey outvalue : OutMessage C}
    (hrow : (op.key.fillMessage casts row).2 = row)
    (h : (op.fill casts row).1 = .returned outkey outvalue) :
    (op.key.fillMessage casts row).1 = .ok outkey ∧ (op.value.fillMessage casts row).1 =
      .ok outvalue := by
  unfold ExprMapOperator.fill at h
  cases hkey : op.key.fillMessage casts row with
  | mk filled row' =>
    rw [hkey] at hrow
    obtain rfl : row' = row := hrow
    cases filled with
    | error stop =>
      simp only [hkey] at h
      cases h
    | ok output =>
      cases hvalue : op.value.fillMessage casts row' with
      | mk filled' row'' =>
        cases filled' with
        | error stop =>
          simp only [hkey, hvalue] at h
          cases h
        | ok output' =>
          simp only [hkey, hvalue] at h
          cases h
          exact ⟨rfl, rfl⟩

end Right

section Main

variable [Inhabited C] {casts : Casts V C} {build : E → Option (Expression V C)}
    {inRddInfo : InRddInfo E}
  {outRddInfo : OutRddInfo} {inRddLocal outRddLocal : RddLocal} {op : ExprMapOperator V C}
    {row : Row C}
  {info : OutMessageInfo V C} {inTemplate : Descriptor} {reuse : ReUseType}

/-- The types of the messages of a request are told apart by their names. -/
theorem apart_of_distinct
    (hreuse : info.reuse = if inTemplate.fullName = info.templateMessage.fullName then reuse
    else .reuseNone) (h : Distinct inTemplate info.templateMessage) : info.Apart := by
  refine h.imp (fun hname => ?_) id
  rw [hreuse, if_neg hname]

theorem distinct_or_reused
    (hreuse : info.reuse = if inTemplate.fullName = info.templateMessage.fullName then reuse
    else .reuseNone) :
    Distinct inTemplate info.templateMessage ∨ info.reuse = reuse ∧
    info.templateMessage.fields ≠ [] := by
  by_cases hsame : Distinct inTemplate info.templateMessage
  · exact .inl hsame
  · obtain ⟨hname, hfields⟩ := not_or.mp hsame
    exact .inr ⟨by rw [hreuse, if_pos (not_not.mp hname)], hfields⟩

/-- Where nothing is passed over and the types differ, all fields are set. -/
theorem settable_of_distinct {listed : String → Expression V C → Prop} {output : OutMessage C}
    (hlists : info.Lists listed) (huntouched : Untouched casts info.evaluated row)
    (hvalued : Valued casts info.templateMessage listed row) (hapart : info.Apart)
    (hok : (info.fillMessage casts row).1 = .ok output)
    (hcomputes : Computes casts info.templateMessage listed row (output.content row)) :
    AllSettable info.templateMessage listed := by
  rcases hapart with hmade | hfields
  · exact settable_of_computes hlists huntouched hvalued hmade hok hcomputes
  · intro name expr field _ hfind
    rw [findFieldByName_of_nil hfields] at hfind
    cases hfind

/-- An operator computes every field and leaves its input alone exactly if the expressions that it
evaluates leave the row alone and, for a row that has all values, neither type has the name of the
input's and no listed field is one that is passed over. -/
theorem exprMapOperator_iff (h : parse build inRddInfo outRddInfo inRddLocal outRddLocal = some op)
    (row : Row C) :
    Right casts op outRddLocal (Listed build inRddInfo.outFields outRddInfo.keyFields)
        (Listed build inRddInfo.outFields outRddInfo.valueFields) row ↔
      op.LeavesRow casts row ∧
        (op.Passes casts row →
          Valued casts outRddLocal.keyTemplate
          (Listed build inRddInfo.outFields outRddInfo.keyFields) row →
          Valued casts outRddLocal.valueTemplate
          (Listed build inRddInfo.outFields outRddInfo.valueFields) row →
            (Distinct inRddLocal.keyTemplate outRddLocal.keyTemplate ∧
              Distinct inRddLocal.valueTemplate outRddLocal.valueTemplate) ∧
            AllSettable outRddLocal.keyTemplate
            (Listed build inRddInfo.outFields outRddInfo.keyFields) ∧
            AllSettable outRddLocal.valueTemplate
            (Listed build inRddInfo.outFields outRddInfo.valueFields)) := by
  obtain ⟨hkeyTemplate, hvalueTemplate, hkeyReuse, hvalueReuse, hkeyLists, hvalueLists⟩ :=
    parsed_of_parse h
  rw [← hkeyTemplate] at hkeyReuse
  rw [← hvalueTemplate] at hvalueReuse
  rw [← hkeyTemplate, ← hvalueTemplate]
  constructor
  · rintro ⟨hleaves, hcomputes⟩
    have hrow := evaluate_row_iff.mp hleaves
    refine ⟨hrow, fun hpass hkeyValued hvalueValued => ?_⟩
    rw [← hkeyTemplate, ← hvalueTemplate] at hcomputes
    obtain ⟨outkey, outvalue, hreturned, hkey, hvalue, hupdates⟩ :=
      hcomputes hpass hkeyValued hvalueValued
    rw [evaluate_of_passes hpass hrow.1] at hreturned
    obtain ⟨hkeyUntouched, hvalueUntouched⟩ := untouched_append.mp (hrow.2 hpass)
    obtain ⟨hkeyOk, hvalueOk⟩ :=
      fillMessages_of_returned (fillMessage_row_iff.mpr hkeyUntouched) hreturned
    have hvalueUntouched := hvalueUntouched ((fillMessage_ok_iff hkeyUntouched).mp ⟨outkey, hkeyOk⟩)
    -- an update of a message that is the input's would reach the row
    have hkeyDistinct : Distinct inRddLocal.keyTemplate op.key.templateMessage := by
      refine (distinct_or_reused hkeyReuse).resolve_right ?_
      rintro ⟨hreuse, hfields⟩
      unfold OutMessageInfo.fillMessage at hkeyOk
      rw [hreuse] at hkeyOk
      cases hkeyOk
      obtain ⟨update, hupdate⟩ := exists_update_key hfields row outvalue
      exact hupdate (hupdates [update])
    have hvalueDistinct : Distinct inRddLocal.valueTemplate op.value.templateMessage := by
      refine (distinct_or_reused hvalueReuse).resolve_right ?_
      rintro ⟨hreuse, hfields⟩
      unfold OutMessageInfo.fillMessage at hvalueOk
      rw [hreuse] at hvalueOk
      cases hvalueOk
      obtain ⟨update, hupdate⟩ := exists_update_value hfields row outkey
      exact hupdate (hupdates [update])
    exact ⟨⟨hkeyDistinct, hvalueDistinct⟩,
      settable_of_distinct hkeyLists hkeyUntouched hkeyValued
      (apart_of_distinct hkeyReuse hkeyDistinct) hkeyOk hkey,
      settable_of_distinct hvalueLists hvalueUntouched hvalueValued
      (apart_of_distinct hvalueReuse hvalueDistinct)
        hvalueOk hvalue⟩
  · rintro ⟨hrow, hall⟩
    refine ⟨evaluate_row_iff.mpr hrow, fun hpass hkeyValued hvalueValued => ?_⟩
    rw [← hkeyTemplate] at hkeyValued ⊢
    rw [← hvalueTemplate] at hvalueValued ⊢
    obtain ⟨⟨hkeyDistinct, hvalueDistinct⟩, hkeySettable, hvalueSettable⟩ :=
      hall hpass hkeyValued hvalueValued
    obtain ⟨hkeyUntouched, hvalueUntouched⟩ := untouched_append.mp (hrow.2 hpass)
    obtain ⟨outkey, hkeyFill, hkey, hkeyApart⟩ := exists_computes hkeyLists hkeyUntouched hkeyValued
      (apart_of_distinct hkeyReuse hkeyDistinct) hkeySettable
    have hvalueUntouched :=
      hvalueUntouched ((fillMessage_ok_iff hkeyUntouched).mp ⟨outkey, by rw [hkeyFill]⟩)
    obtain ⟨outvalue, hvalueFill, hvalue, hvalueApart⟩ :=
      exists_computes hvalueLists hvalueUntouched hvalueValued
      (apart_of_distinct hvalueReuse hvalueDistinct) hvalueSettable
    refine ⟨outkey, outvalue, ?_, hkey, hvalue, updates_row hkeyApart hvalueApart⟩
    rw [evaluate_of_passes hpass hrow.1, fill_of_ok hkeyFill hvalueFill]

end Main

/-! ## A key type that coincides -/

/-- An expression with one value for all rows. -/
def constant (v : V) : Expression V C where
  evaluate row := (some v, row)
  grows _ := le_rfl

/-- Values that all fields take as they are. -/
def plain : Casts ℕ ℕ where
  castBool v := decide (v ≠ 0)
  cast _ v := some v

/-- A type with a field `x`. -/
def typeX (fullName : String) : Descriptor :=
  { fullName, fields := [{ name := "x", cppType := .uint64 }] }

/-- The field `x` is to be 7. -/
def listX : InRddInfo ℕ :=
  { filterExpr := none,
    outFields := [{ fieldAlias := some "x", name := "CONST", value := some "7", expr := 7 }] }

/-- The operator that is made for it; the type of the output's key is or is not that of the
input. -/
def mapX (keyType : String) (reuse : ReUseType) : ExprMapOperator ℕ ℕ where
  filterExpr := none
  key :=
    { templateMessage := typeX keyType, reuse,
      outFields := [({ name := "x", cppType := .uint64 }, constant 7)] }
  value :=
    { templateMessage := typeX "Out", reuse := .reuseNone
      outFields := [({ name := "x", cppType := .uint64 }, constant 7)] }

theorem parse_other :
    parse (fun v => some (constant v)) listX ⟨["x"], ["x"]⟩ ⟨typeX "In", typeX "In"⟩
    ⟨typeX "Out", typeX "Out"⟩ = some (mapX "Out" .reuseNone) := rfl

theorem settable_typeX {fullName : String} {listed : String → Expression ℕ ℕ → Prop} :
    AllSettable (typeX fullName) listed := by
  intro name expr field _ hfind
  obtain rfl := mem_singleton.mp (mem_of_find?_eq_some hfind)
  exact ⟨by decide, by decide, rfl⟩

/-- A row without any field that is set. -/
def unsetRow : Row ℕ := (fun _ => ⊥, fun _ => ⊥)

/-- With an output of other types, `x` is 7 in both messages. -/
theorem right_other : Right plain (mapX "Out" .reuseNone) ⟨typeX "Out", typeX "Out"⟩
    (Listed (fun v => some (constant v)) listX.outFields ["x"])
    (Listed (fun v => some (constant v)) listX.outFields ["x"]) unsetRow := by
  refine (exprMapOperator_iff parse_other unsetRow).mpr ⟨⟨fun filterExpr h => ?_, fun _ => ?_⟩,
    fun _ _ _ => ⟨⟨?_, ?_⟩, ?_, ?_⟩⟩
  · cases h
  · exact ⟨rfl, fun _ => ⟨rfl, fun _ => trivial⟩⟩
  · exact .inl (by decide)
  · exact .inl (by decide)
  · exact settable_typeX
  · exact settable_typeX

/-- With the key type of the input, the output's key is that of the row, where `x` is not set. -/
theorem not_right_same : ¬ Right plain (mapX "In" .reuseKey) ⟨typeX "In", typeX "Out"⟩
    (Listed (fun v => some (constant v)) listX.outFields ["x"])
    (Listed (fun v => some (constant v)) listX.outFields ["x"]) unsetRow := by
  have hvalued : ∀ fullName, Valued plain (typeX fullName)
      (Listed (fun v => some (constant v)) listX.outFields ["x"]) unsetRow := by
    rintro fullName name expr ⟨hname, hexpr⟩
    obtain rfl := List.mem_singleton.mp hname
    cases hexpr
    exact ⟨_, 7, 7, rfl, rfl, rfl⟩
  rintro ⟨-, hcomputes⟩
  obtain ⟨outkey, outvalue, hreturned, hkey, -, -⟩ :=
    hcomputes (fun filterExpr h => by cases h) (hvalued "In") (hvalued "Out")
  cases hreturned
  have hset :=
    hkey.values "x" (constant 7) { name := "x", cppType := .uint64 } 7 7
    ⟨List.mem_singleton_self "x", rfl⟩
    rfl rfl rfl
  exact WithBot.bot_ne_coe hset

end Idgs.Rdd.Op
