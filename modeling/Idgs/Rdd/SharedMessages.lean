import Idgs.Common.Heap

/-!
# Operators on shared messages

`ExprMapOperator` makes the key and the value of an output row. Messages are passed by pointers: an
operator takes over the input's message where the types have one name, makes a new message for a
null pointer, and otherwise sets fields of the message that the pointer points at.
-/

namespace Idgs.Rdd.Shared

open Common (Heap)

/-- What a message holds: a value for every field. -/
abbrev Content (φ V : Type*) := φ → V

/-- `ReUseType`. -/
inductive ReUseType
  | reuseNone | reuseKey | reuseValue
deriving DecidableEq

/-- `OutMessageInfo`: the fields that it sets, with expressions over the contents of the input's key
and value. -/
structure OutMessageInfo (φ V : Type*) where
  templateMessage : Content φ V
  reuse : ReUseType
  outFields : List (φ × (Content φ V → Content φ V → V))

/-- `ExprMapOperator`. Only keys are taken over as keys, and values as values; a filter that cannot
be evaluated lets nothing through. -/
structure ExprMapOperator (φ V : Type*) where
  filterExpr : Option (Content φ V → Content φ V → Bool)
  key : OutMessageInfo φ V
  value : OutMessageInfo φ V
  key_reuse : key.reuse ≠ .reuseValue
  value_reuse : value.reuse ≠ .reuseKey

variable {φ V : Type*} [DecidableEq φ]

/-- The contents of a row's key and value. -/
def read (h : Heap (Content φ V)) (row : ℕ × ℕ) : Content φ V × Content φ V :=
  (h.cell row.1, h.cell row.2)

/-! ## Evaluation -/

namespace OutMessageInfo

variable (info : OutMessageInfo φ V)

/-- The loop of `OutMessageInfo::fillMessage`: fields of the message are set one after another. -/
def setFields (key value output : ℕ) (h : Heap (Content φ V)) : Heap (Content φ V) :=
  info.outFields.foldl (fun h field =>
    h.set output (Function.update (h.cell output) field.1 (field.2 (h.cell key) (h.cell value)))) h

/-- `OutMessageInfo::fillMessage`: what the output pointer, which may be null, then points at. -/
def fillMessage (key value : ℕ) (output : Option ℕ) (h : Heap (Content φ V)) :
    ℕ × Heap (Content φ V) :=
  match info.reuse with
  | .reuseKey => (key, h)
  | .reuseValue => (value, h)
  | .reuseNone =>
    match output with
    | some output => (output, info.setFields key value output h)
    | none => (h.next, info.setFields key value h.next (h.new info.templateMessage))

/-- A content with the fields set. -/
def filled (key value output : Content φ V) : Content φ V :=
  info.outFields.foldl (fun output field => Function.update output field.1 (field.2 key value))
    output

/-- The content that the output has then, without any sharing. -/
def outContent (key value output : Content φ V) : Content φ V :=
  match info.reuse with
  | .reuseKey => key
  | .reuseValue => value
  | .reuseNone => info.filled key value output

end OutMessageInfo

namespace ExprMapOperator

variable (op : ExprMapOperator φ V)

omit [DecidableEq φ] in
/-- Whether the filter lets a row through. -/
def passes (key value : Content φ V) : Bool :=
  match op.filterExpr with
  | none => true
  | some filterExpr => filterExpr key value

/-- `ExprMapOperator::evaluate`: the output pointers then, or `none` for a row that is filtered
out. -/
def evaluate (key value : ℕ) (outkey outvalue : Option ℕ) (h : Heap (Content φ V)) :
    Option ((ℕ × ℕ) × Heap (Content φ V)) :=
  if op.passes (h.cell key) (h.cell value) then
    let k := op.key.fillMessage key value outkey h
    let v := op.value.fillMessage key value outvalue k.2
    some ((k.1, v.1), v.2)
  else none

/-- The contents of the output for those of a row and of the output so far. -/
def outContents (key value : Content φ V) (output : Content φ V × Content φ V) :
    Content φ V × Content φ V :=
  (op.key.outContent key value output.1, op.value.outContent key value output.2)

/-- The contents of the output, `none` for a row that is filtered out. -/
def apply (key value : Content φ V) (output : Content φ V × Content φ V) :
    Option (Content φ V × Content φ V) :=
  if op.passes key value then some (op.outContents key value output) else none

/-- The contents of new output messages. -/
def templates : Content φ V × Content φ V := (op.key.templateMessage, op.value.templateMessage)

end ExprMapOperator

/-! ## What is written -/

variable {info : OutMessageInfo φ V} {op p : ExprMapOperator φ V} {base h : Heap (Content φ V)}
  {key value output : ℕ} {out : ℕ × ℕ}

/-- A message other than the inputs gets all its fields at once. -/
theorem OutMessageInfo.setFields_eq (hkey : key ≠ output) (hvalue : value ≠ output) :
    info.setFields key value output h =
      h.set output (info.filled (h.cell key) (h.cell value) (h.cell output)) := by
  unfold setFields filled
  generalize info.outFields = fields
  induction fields generalizing h with
  | nil => rw [List.foldl_nil, List.foldl_nil, Heap.set_cell]
  | cons field fields ih =>
    rw [List.foldl_cons, List.foldl_cons, ih, Heap.set_cell_of_ne hkey,
      Heap.set_cell_of_ne hvalue, Heap.set_cell_self, Heap.set_set]

/-- A part of the output that is begun is left shared with the input: it is taken over again, or no
field is set. -/
def OutMessageInfo.LeavesShared (info : OutMessageInfo φ V) : Prop :=
  info.reuse = .reuseKey ∨ info.reuse = .reuseNone ∧ info.outFields = []

namespace ExprMapOperator

/-- The operator goes on with an output that another one has begun: it sets fields of messages that
were made for the output, and leaves alone what is shared with the input. -/
structure Continues (p op : ExprMapOperator φ V) : Prop where
  key : op.key.reuse = .reuseNone → p.key.reuse = .reuseNone
  sharedKey : op.key.reuse = .reuseKey → p.key.LeavesShared
  value : p.value.reuse = .reuseNone
  sharedValue : op.value.reuse = .reuseValue → p.value.outFields = []

/-- Pointers of an output that the operator has begun since there was this heap: what the operator
makes was made since, and a shared key is that of the row. -/
structure Begun (op : ExprMapOperator φ V) (base h : Heap (Content φ V)) (key : ℕ) (out : ℕ × ℕ) :
    Prop where
  key_lt : out.1 < h.next
  value_lt : out.2 < h.next
  made_key : op.key.reuse = .reuseNone → base.next ≤ out.1
  made_value : op.value.reuse = .reuseNone → base.next ≤ out.2
  ne : op.key.reuse = .reuseNone ∨ op.value.reuse = .reuseNone → out.1 ≠ out.2
  shared : op.key.reuse = .reuseKey → h.cell out.1 = base.cell key

omit [DecidableEq φ] in
theorem Begun.read_eq (hout : op.Begun base h key out) {h' : Heap (Content φ V)}
    (hextends : h.Extends h') : read h' out = read h out := by
  rw [Shared.read, Shared.read, hextends.cell_eq _ hout.key_lt, hextends.cell_eq _ hout.value_lt]

omit [DecidableEq φ] in
theorem Begun.mono (hout : op.Begun base h key out) {h' : Heap (Content φ V)}
    (hextends : h.Extends h') : op.Begun base h' key out where
  key_lt := hout.key_lt.trans_le hextends.next_le
  value_lt := hout.value_lt.trans_le hextends.next_le
  made_key := hout.made_key
  made_value := hout.made_value
  ne := hout.ne
  shared hreuse := (congrArg Prod.fst (hout.read_eq hextends)).trans (hout.shared hreuse)

omit [DecidableEq φ] in
/-- A key is taken over or made. -/
theorem key_cases (op : ExprMapOperator φ V) :
    op.key.reuse = .reuseNone ∨ op.key.reuse = .reuseKey := by
  cases hreuse : op.key.reuse with
  | reuseNone => exact .inl rfl
  | reuseKey => exact .inr rfl
  | reuseValue => exact absurd hreuse op.key_reuse

omit [DecidableEq φ] in
theorem value_cases (op : ExprMapOperator φ V) :
    op.value.reuse = .reuseNone ∨ op.value.reuse = .reuseValue := by
  cases hreuse : op.value.reuse with
  | reuseNone => exact .inl rfl
  | reuseKey => exact absurd hreuse op.value_reuse
  | reuseValue => exact .inr rfl

section Continue

variable (hp : p.Continues op) (hbase : base.Extends h) (hkey : key < base.next)
  (hvalue : value < base.next) (hout : op.Begun base h key out)

include hp hout in
/-- The content that a shared key gets is the one that it has. -/
theorem outContent_shared (hshared : op.key.reuse = .reuseKey) (v : Content φ V) :
    p.key.outContent (base.cell key) v (h.cell out.1) = h.cell out.1 := by
  rw [hout.shared hshared]
  obtain hreuse | ⟨hreuse, hfields⟩ := hp.sharedKey hshared
  · rw [OutMessageInfo.outContent, hreuse]
  · rw [OutMessageInfo.outContent, hreuse]
    simp only [OutMessageInfo.filled, hfields, List.foldl_nil]

include hp hbase hkey hvalue hout in
theorem fillMessage_key :
    ∃ ptr, p.key.fillMessage key value (some out.1) h =
        (ptr, h.set out.1 (p.key.outContent (base.cell key) (base.cell value) (h.cell out.1))) ∧
      (ptr = out.1 ∨ op.key.reuse = .reuseKey ∧ p.key.reuse = .reuseKey ∧ ptr = key) := by
  obtain hreuse | hreuse := op.key_cases
  · have hmade := hout.made_key hreuse
    refine ⟨out.1, ?_, .inl rfl⟩
    simp only [OutMessageInfo.fillMessage, OutMessageInfo.outContent, hp.key hreuse]
    rw [OutMessageInfo.setFields_eq (hkey.trans_le hmade).ne (hvalue.trans_le hmade).ne,
      hbase.cell_eq key hkey, hbase.cell_eq value hvalue]
  · rw [outContent_shared hp hout hreuse, Heap.set_cell]
    obtain hagain | ⟨hnone, hfields⟩ := hp.sharedKey hreuse
    · refine ⟨key, ?_, .inr ⟨hreuse, hagain, rfl⟩⟩
      simp only [OutMessageInfo.fillMessage, hagain]
    · refine ⟨out.1, ?_, .inl rfl⟩
      simp only [OutMessageInfo.fillMessage, OutMessageInfo.setFields, hnone, hfields,
        List.foldl_nil]

include hp hbase hkey hvalue hout in
theorem fillMessage_value :
    p.value.fillMessage key value (some out.2) h =
      (out.2,
        h.set out.2 (p.value.outContent (base.cell key) (base.cell value) (h.cell out.2))) := by
  simp only [OutMessageInfo.fillMessage, OutMessageInfo.outContent, hp.value]
  obtain hreuse | hreuse := op.value_cases
  · have hmade := hout.made_value hreuse
    rw [OutMessageInfo.setFields_eq (hkey.trans_le hmade).ne (hvalue.trans_le hmade).ne,
      hbase.cell_eq key hkey, hbase.cell_eq value hvalue]
  · simp only [OutMessageInfo.setFields, OutMessageInfo.filled, hp.sharedValue hreuse,
      List.foldl_nil, Heap.set_cell]

include hp hbase hout in
/-- Writing the key changes no message that was there before. -/
theorem extends_set_key (v : Content φ V) :
    base.Extends (h.set out.1 (p.key.outContent (base.cell key) v (h.cell out.1))) := by
  obtain hreuse | hreuse := op.key_cases
  · exact hbase.set (hout.made_key hreuse) _
  · rw [outContent_shared hp hout hreuse, Heap.set_cell]
    exact hbase

include hp hout in
theorem begun_set_key (v : Content φ V) :
    op.Begun base (h.set out.1 (p.key.outContent (base.cell key) v (h.cell out.1))) key out where
  key_lt := hout.key_lt
  value_lt := hout.value_lt
  made_key := hout.made_key
  made_value := hout.made_value
  ne := hout.ne
  shared hreuse := by
    rw [Heap.set_cell_self, outContent_shared hp hout hreuse, hout.shared hreuse]

include hp hout in
/-- Writing the key does not change the value. -/
theorem set_key_cell_value (v : Content φ V) :
    (h.set out.1 (p.key.outContent (base.cell key) v (h.cell out.1))).cell out.2 =
      h.cell out.2 := by
  obtain hreuse | hreuse := op.key_cases
  · exact Heap.set_cell_of_ne (hout.ne (.inl hreuse)).symm _
  · rw [outContent_shared hp hout hreuse, Heap.set_cell]

/-- What an operator leaves behind that goes on with an output. -/
structure Continued (p op : ExprMapOperator φ V) (base h : Heap (Content φ V)) (key value : ℕ)
    (out out' : ℕ × ℕ) (h' : Heap (Content φ V)) : Prop where
  keeps : base.Extends h'
  next : h'.next = h.next
  frame : ∀ q, q ≠ out.1 → q ≠ out.2 → h'.cell q = h.cell q
  begun : op.Begun base h' key out
  begun' : op.Begun base h' key out'
  contents : read h' out = p.outContents (base.cell key) (base.cell value) (read h out)
  contents' : read h' out' = read h' out
  same : out' = out ∨ op.key.reuse = .reuseKey ∧ p.key.reuse = .reuseKey ∧ out' = (key, out.2)

include hp hbase hkey hvalue hout in
/-- An operator that goes on with an output writes only the output, which has the right contents
then. -/
theorem evaluate_continue (hpass : p.passes (base.cell key) (base.cell value) = true) :
    ∃ out' h', p.evaluate key value (some out.1) (some out.2) h = some (out', h') ∧
      Continued p op base h key value out out' h' := by
  obtain ⟨ptr, hkeyFilled, hptr⟩ := fillMessage_key hp hbase hkey hvalue hout
  have hkeyBegun := begun_set_key hp hout (base.cell value)
  have hkeyBase := extends_set_key hp hbase hout (base.cell value)
  have hvalueFilled := fillMessage_value hp hkeyBase hkey hvalue hkeyBegun
  have hcell := set_key_cell_value hp hout (base.cell value)
  rw [hcell] at hvalueFilled
  generalize hA : p.key.outContent (base.cell key) (base.cell value) (h.cell out.1) = A
    at hkeyFilled hkeyBegun hkeyBase hvalueFilled hcell
  generalize hB : p.value.outContent (base.cell key) (base.cell value) (h.cell out.2) = B
    at hvalueFilled
  -- the value is written to a message of its own, or stays as it is
  have hstays : op.value.reuse = .reuseValue → B = (h.set out.1 A).cell out.2 := by
    intro hreuse
    rw [hcell, ← hB, OutMessageInfo.outContent, hp.value]
    simp only [OutMessageInfo.filled, hp.sharedValue hreuse, List.foldl_nil]
  have hkeyCell : ((h.set out.1 A).set out.2 B).cell out.1 = A := by
    obtain hreuse | hreuse := op.value_cases
    · rw [Heap.set_cell_of_ne (hout.ne (.inr hreuse)), Heap.set_cell_self]
    · rw [hstays hreuse, Heap.set_cell, Heap.set_cell_self]
  have hkeeps : base.Extends ((h.set out.1 A).set out.2 B) := by
    obtain hreuse | hreuse := op.value_cases
    · exact hkeyBase.set (hout.made_value hreuse) B
    · rw [hstays hreuse, Heap.set_cell]
      exact hkeyBase
  have hread : read ((h.set out.1 A).set out.2 B) out =
      p.outContents (base.cell key) (base.cell value) (read h out) := by
    rw [Shared.read, hkeyCell, Heap.set_cell_self, ← hA, ← hB]
    rfl
  have hbegun : op.Begun base ((h.set out.1 A).set out.2 B) key out :=
    { hout with
      shared := fun hreuse => by rw [hkeyCell, ← hA, outContent_shared hp hout hreuse,
        hout.shared hreuse] }
  refine ⟨(ptr, out.2), (h.set out.1 A).set out.2 B, ?_, ?_⟩
  · rw [evaluate, hbase.cell_eq key hkey, hbase.cell_eq value hvalue, if_pos hpass]
    simp only [hkeyFilled, hvalueFilled]
  obtain rfl | ⟨hreuse, hagain, rfl⟩ := hptr
  · exact ⟨hkeeps, rfl, fun q hq hq' => by rw [Heap.set_cell_of_ne hq', Heap.set_cell_of_ne hq],
      hbegun, hbegun, hread, rfl, .inl rfl⟩
  · refine ⟨hkeeps, rfl, fun q hq hq' => by rw [Heap.set_cell_of_ne hq', Heap.set_cell_of_ne hq],
      hbegun, ⟨?_, hout.value_lt, ?_, hout.made_value, ?_, ?_⟩, hread, ?_,
      .inr ⟨hreuse, hagain, rfl⟩⟩
    · exact hkey.trans_le hkeeps.next_le
    · intro hnone
      rw [hnone] at hreuse
      cases hreuse
    · rintro (hnone | hnone)
      · rw [hnone] at hreuse
        cases hreuse
      · exact (hkey.trans_le (hout.made_value hnone)).ne
    · exact fun _ => hkeeps.cell_eq _ hkey
    · rw [Shared.read, Shared.read, hkeyCell, hkeeps.cell_eq _ hkey, ← hA,
        OutMessageInfo.outContent, hagain]

end Continue

theorem evaluate_filtered (hbase : base.Extends h) (hkey : key < base.next)
    (hvalue : value < base.next) (hpass : p.passes (base.cell key) (base.cell value) = false)
    (outkey outvalue : Option ℕ) : p.evaluate key value outkey outvalue h = none := by
  rw [evaluate, hbase.cell_eq key hkey, hbase.cell_eq value hvalue, hpass]
  rfl

/-! ## New messages -/

/-- The copies of an output that a loop over several values makes: `New` and `CopyFrom` for the key,
then for the value. -/
def copied (out : ℕ × ℕ) (h : Heap (Content φ V)) : Heap (Content φ V) :=
  (h.new (h.cell out.1)).new ((h.new (h.cell out.1)).cell out.2)

omit [DecidableEq φ] in
theorem extends_copied (out : ℕ × ℕ) (h : Heap (Content φ V)) : h.Extends (copied out h) :=
  ((Heap.Extends.refl h).new _).new _

omit [DecidableEq φ] in
/-- The copies have the contents of the output. -/
theorem read_copied (hvalue : out.2 < h.next) :
    read (copied out h) (h.next, h.next + 1) = read h out := by
  have hkey : (copied out h).cell h.next = h.cell out.1 := by
    rw [copied, Heap.new_cell_of_lt (Nat.lt_succ_self h.next), Heap.new_cell_self]
  have hcopy : (copied out h).cell (h.next + 1) = h.cell out.2 := by
    have hself : (copied out h).cell (h.next + 1) = (h.new (h.cell out.1)).cell out.2 :=
      Heap.new_cell_self (h.new (h.cell out.1)) _
    rw [hself, Heap.new_cell_of_lt hvalue]
  rw [Shared.read, Shared.read, hkey, hcopy]

omit [DecidableEq φ] in
theorem begun_copied (hbase : base.Extends h) (hout : op.Begun base h key out) :
    op.Begun base (copied out h) key (h.next, h.next + 1) where
  key_lt := Nat.lt_succ_of_lt (Nat.lt_succ_self h.next)
  value_lt := Nat.lt_succ_self (h.next + 1)
  made_key := fun _ => hbase.next_le
  made_value := fun _ => hbase.next_le.trans (Nat.le_succ h.next)
  ne := fun _ => Nat.ne_of_lt (Nat.lt_succ_self h.next)
  shared := fun hreuse =>
    (congrArg Prod.fst (read_copied hout.value_lt)).trans (hout.shared hreuse)

/-- An operator that goes on with copies changes no message that was there before. -/
theorem evaluate_copied (hp : p.Continues op) (hbase : base.Extends h) (hkey : key < base.next)
    (hvalue : value < base.next) (hout : op.Begun base h key out)
    (hpass : p.passes (base.cell key) (base.cell value) = true) :
    ∃ out' h', p.evaluate key value (some h.next) (some (h.next + 1)) (copied out h) =
        some (out', h') ∧
      h.Extends h' ∧ op.Begun base h' key out' ∧
      read h' out' = p.outContents (base.cell key) (base.cell value) (read h out) := by
  have hcopies := begun_copied hbase hout
  have hextends := extends_copied out h
  obtain ⟨out', h', heval, hcontinued⟩ :=
    evaluate_continue hp (hbase.trans hextends) hkey hvalue hcopies hpass
  refine ⟨out', h', heval, ⟨?_, fun q hq => ?_⟩, hcontinued.begun', ?_⟩
  · rw [hcontinued.next]
    exact hextends.next_le
  · rw [hcontinued.frame q (Nat.ne_of_lt hq) (Nat.ne_of_lt (Nat.lt_succ_of_lt hq)),
      hextends.cell_eq q hq]
  · rw [hcontinued.contents', hcontinued.contents, read_copied hout.value_lt]

/-- For a null pointer the message is that of the input, or a new one with the right content. -/
theorem fillMessage_begins (info : OutMessageInfo φ V) (hkey : key < h.next)
    (hvalue : value < h.next) :
    ∃ ptr h', info.fillMessage key value none h = (ptr, h') ∧ h.Extends h' ∧ ptr < h'.next ∧
      (info.reuse = .reuseNone → h.next ≤ ptr) ∧ (info.reuse = .reuseValue → ptr = value) ∧
      h'.cell ptr = info.outContent (h.cell key) (h.cell value) info.templateMessage := by
  unfold OutMessageInfo.fillMessage OutMessageInfo.outContent
  cases info.reuse with
  | reuseKey =>
    exact ⟨key, h, rfl, Heap.Extends.refl h, hkey, ReUseType.noConfusion,
      ReUseType.noConfusion, rfl⟩
  | reuseValue =>
    exact ⟨value, h, rfl, Heap.Extends.refl h, hvalue, ReUseType.noConfusion, fun _ => rfl, rfl⟩
  | reuseNone =>
    refine ⟨h.next, h.new (info.filled (h.cell key) (h.cell value) info.templateMessage), ?_,
      (Heap.Extends.refl h).new _, Nat.lt_succ_self h.next, fun _ => le_rfl,
      ReUseType.noConfusion, Heap.new_cell_self h _⟩
    simp only
    rw [OutMessageInfo.setFields_eq hkey.ne hvalue.ne, Heap.new_cell_of_lt hkey,
      Heap.new_cell_of_lt hvalue, Heap.new_cell_self, Heap.new_set]

/-- With null pointers, an operator begins an output, which has the right contents. -/
theorem evaluate_new (hkey : key < h.next) (hvalue : value < h.next)
    (hpass : op.passes (h.cell key) (h.cell value) = true) :
    ∃ out h', op.evaluate key value none none h = some (out, h') ∧ h.Extends h' ∧
      op.Begun h h' key out ∧
      read h' out = op.outContents (h.cell key) (h.cell value) op.templates := by
  obtain ⟨outkey, h₁, hfill₁, hextends₁, hlt₁, hmade₁, -, hcell₁⟩ :=
    fillMessage_begins op.key hkey hvalue
  obtain ⟨outvalue, h₂, hfill₂, hextends₂, hlt₂, hmade₂, hreuse₂, hcell₂⟩ :=
    fillMessage_begins op.value (hkey.trans_le hextends₁.next_le)
      (hvalue.trans_le hextends₁.next_le)
  have hcell : h₂.cell outkey = h₁.cell outkey := hextends₂.cell_eq outkey hlt₁
  refine ⟨(outkey, outvalue), h₂, ?_, hextends₁.trans hextends₂,
    ⟨hlt₁.trans_le hextends₂.next_le, hlt₂, hmade₁, fun hnone => ?_, ?_, fun hreuse => ?_⟩, ?_⟩
  · rw [evaluate, if_pos hpass]
    simp only [hfill₁, hfill₂]
  · exact hextends₁.next_le.trans (hmade₂ hnone)
  · rintro (hnone | hnone)
    · obtain hvalueNone | hvalueReuse := op.value_cases
      · exact (hlt₁.trans_le (hmade₂ hvalueNone)).ne
      · have hfrom := hmade₁ hnone
        have hthere := hreuse₂ hvalueReuse
        exact fun heq : outkey = outvalue => by omega
    · exact (hlt₁.trans_le (hmade₂ hnone)).ne
  · rw [hcell, hcell₁, OutMessageInfo.outContent, hreuse]
  · rw [Shared.read, hcell, hcell₁, hcell₂, hextends₁.cell_eq key hkey,
      hextends₁.cell_eq value hvalue]
    rfl

/-- The pointers to an output stay the same when an operator goes on with it. -/
theorem evaluate_same (hp : p.Continues op) {value' : ℕ} {h₁ h₂ : Heap (Content φ V)}
    {out' : ℕ × ℕ} (hbegun : op.evaluate key value none none h = some (out, h₁))
    (hcontinued : p.evaluate key value' (some out.1) (some out.2) h₁ = some (out', h₂)) :
    out' = out := by
  unfold evaluate at hbegun hcontinued
  split at hbegun
  next _ =>
    split at hcontinued
    next _ =>
      obtain ⟨rfl, -⟩ := Prod.mk.inj (Option.some.inj hbegun)
      obtain ⟨rfl, -⟩ := Prod.mk.inj (Option.some.inj hcontinued)
      refine Prod.ext ?_ ?_
      · cases hreuse : p.key.reuse with
        | reuseNone => simp only [OutMessageInfo.fillMessage, hreuse]
        | reuseKey =>
          have hshared : op.key.reuse = .reuseKey := op.key_cases.resolve_left fun hnone => by
            rw [hp.key hnone] at hreuse
            cases hreuse
          simp only [OutMessageInfo.fillMessage, hreuse, hshared]
        | reuseValue => exact absurd hreuse p.key_reuse
      · simp only [OutMessageInfo.fillMessage, hp.value]
    next _ => cases hcontinued
  next _ => cases hbegun

end ExprMapOperator

end Idgs.Rdd.Shared
