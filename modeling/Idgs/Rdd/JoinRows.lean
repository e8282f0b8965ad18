import Mathlib.Data.List.Find
import Idgs.Rdd.HashJoin
import Idgs.Rdd.SharedMessages

/-!
# Joins of shared messages

The hash join makes an output of a row and lets the operators of the other upstreams set their
fields in it, once for each of their rows with the same key. With several such rows each gets a copy
of the output so far; with a single one, the fields are set in place. With several upstreams the
outputs wait in a queue, and behind a single row it is the first output that goes back into it.
-/

namespace Idgs.Rdd.Shared

open Function List

open Common (Heap valuesOf nestedLoop joinSide)

/-- The groups of a partition (`OrderedRddDataMap`): pointers to the key and to the values. -/
abbrev Partition := List (ℕ × List ℕ)

/-- An upstream behind the first one, with its operator. -/
abbrev Side (φ V : Type*) := Partition × ExprMapOperator φ V

/-- `JoinOperator`. -/
structure JoinOperator (φ V : Type*) where
  joinType : JoinType
  mapOperator : ExprMapOperator φ V

variable {φ V κ : Type*} [DecidableEq φ] [DecidableEq κ]

/-! ## The transformer -/

section Transformer

variable (keyOf : Content φ V → κ)

omit [DecidableEq φ] in
/-- `PairRddPartition::getValue`; messages are equal as keys if they have the same key value. -/
def getValue (p : Partition) (h : Heap (Content φ V)) (key : ℕ) : List ℕ :=
  match p.find? fun group => decide (keyOf (h.cell group.1) = keyOf (h.cell key)) with
  | none => []
  | some group => group.2

/-- The loop over several values: each gets a copy of the output. -/
def addCopies (p : ExprMapOperator φ V) (key : ℕ) (out : ℕ × ℕ) :
    List ℕ → Heap (Content φ V) → List (ℕ × ℕ) × Heap (Content φ V)
  | [], h => ([], h)
  | value :: values, h =>
    match p.evaluate key value (some h.next) (some (h.next + 1))
        (ExprMapOperator.copied out h) with
    | none => addCopies p key out values (ExprMapOperator.copied out h)
    | some (out', h') =>
      let added := addCopies p key out values h'
      (out' :: added.1, added.2)

variable (op : JoinOperator φ V)

/-- `HashJoinTransformer::handleTwoRddInnerOrLeftJoin`: the rows that the output processes. -/
def handleTwoRddInnerOrLeftJoin (side : Side φ V) (row : ℕ × ℕ) (h : Heap (Content φ V)) :
    List (ℕ × ℕ) × Heap (Content φ V) :=
  match op.mapOperator.evaluate row.1 row.2 none none h with
  | none => ([], h)
  | some (out, h) =>
    match getValue keyOf side.1 h row.1 with
    | [] => if op.joinType = .innerJoin then ([], h) else ([out], h)
    | [value] =>
      match side.2.evaluate row.1 value (some out.1) (some out.2) h with
      | none => ([], h)
      | some (out, h) => ([out], h)
    | values => addCopies side.2 row.1 out values h

/-- The loop over the queue for a single value: the fields are set in place, and the first output is
pushed. -/
def addSame (p : ExprMapOperator φ V) (key value : ℕ) (out : ℕ × ℕ) :
    List (ℕ × ℕ) → Heap (Content φ V) → List (ℕ × ℕ) × Heap (Content φ V)
  | [], h => ([], h)
  | pair :: queue, h =>
    match p.evaluate key value (some pair.1) (some pair.2) h with
    | none => addSame p key value out queue h
    | some (_, h) =>
      let added := addSame p key value out queue h
      (out :: added.1, added.2)

/-- The loop over the queue for several values. -/
def addAll (p : ExprMapOperator φ V) (key : ℕ) (values : List ℕ) :
    List (ℕ × ℕ) → Heap (Content φ V) → List (ℕ × ℕ) × Heap (Content φ V)
  | [], h => ([], h)
  | pair :: queue, h =>
    let copies := addCopies p key pair values h
    let added := addAll p key values queue copies.2
    (copies.1 ++ added.1, added.2)

/-- What `HashJoinTransformer::handleMoreRddInnerOrLeftJoin` does with the values of one
upstream. -/
def addRows (p : ExprMapOperator φ V) (key : ℕ) (out : ℕ × ℕ) (values : List ℕ)
    (queue : List (ℕ × ℕ)) (h : Heap (Content φ V)) : List (ℕ × ℕ) × Heap (Content φ V) :=
  match values with
  | [value] => addSame p key value out queue h
  | values => addAll p key values queue h

/-- The loop over the upstreams of `HashJoinTransformer::handleMoreRddInnerOrLeftJoin`; `out` is the
first output. -/
def joinParams (key : ℕ) (out : ℕ × ℕ) :
    List (Side φ V) → List (ℕ × ℕ) → Heap (Content φ V) → List (ℕ × ℕ) × Heap (Content φ V)
  | [], outputPairs, h => (outputPairs, h)
  | side :: sides, outputPairs, h =>
    if outputPairs = [] then ([], h)
    else
      match getValue keyOf side.1 h key with
      | [] =>
        if op.joinType = .innerJoin then ([], h) else joinParams key out sides outputPairs h
      | values =>
        let added := addRows side.2 key out values outputPairs h
        joinParams key out sides added.1 added.2

/-- `HashJoinTransformer::handleMoreRddInnerOrLeftJoin`: the rows that the output processes. -/
def handleMoreRddInnerOrLeftJoin (sides : List (Side φ V)) (row : ℕ × ℕ)
    (h : Heap (Content φ V)) : List (ℕ × ℕ) × Heap (Content φ V) :=
  match op.mapOperator.evaluate row.1 row.2 none none h with
  | none => ([], h)
  | some (out, h) => joinParams keyOf op row.1 out sides [out] h

/-- The loop over the rows of the input. -/
def foreachRow (handle : ℕ × ℕ → Heap (Content φ V) → List (ℕ × ℕ) × Heap (Content φ V)) :
    List (ℕ × ℕ) → Heap (Content φ V) → List (ℕ × ℕ) × Heap (Content φ V)
  | [], h => ([], h)
  | row :: rows, h =>
    let handled := handle row h
    let rest := foreachRow handle rows handled.2
    (handled.1 ++ rest.1, rest.2)

/-- `HashJoinTransformer::transform` of an inner or a left join. -/
def transform (input : Partition) (sides : List (Side φ V)) (h : Heap (Content φ V)) :
    List (ℕ × ℕ) × Heap (Content φ V) :=
  match sides with
  | [side] => foreachRow (handleTwoRddInnerOrLeftJoin keyOf op side) (Common.ungroup input) h
  | sides => foreachRow (handleMoreRddInnerOrLeftJoin keyOf op sides) (Common.ungroup input) h

end Transformer

/-- The contents of the rows in the end. -/
def rowsOf (made : List (ℕ × ℕ) × Heap (Content φ V)) : List (Content φ V × Content φ V) :=
  made.1.map (read made.2)

/-! ## The nested-loop join -/

section NestedLoop

variable (keyOf : Content φ V → κ) (op : JoinOperator φ V)

omit [DecidableEq φ] [DecidableEq κ] in
/-- The contents of a partition: its rows with their key values. -/
def contents (h : Heap (Content φ V)) (p : Partition) : List (κ × Content φ V) :=
  (Common.ungroup p).map fun row => (keyOf (h.cell row.1), h.cell row.2)

omit [DecidableEq φ] [DecidableEq κ] in
def sideContents (h : Heap (Content φ V)) (side : Side φ V) :
    List (κ × Content φ V) × ExprMapOperator φ V :=
  (contents keyOf h side.1, side.2)

/-- The results for one row of the input, whose key and value have these contents. -/
def joinedWith (sides : List (List (κ × Content φ V) × ExprMapOperator φ V))
    (key value : Content φ V) : List (Content φ V × Content φ V) :=
  match op.mapOperator.apply key value op.mapOperator.templates with
  | none => []
  | some out =>
    nestedLoop (decide (op.joinType ≠ .innerJoin)) (keyOf key)
      (sides.map fun side => (side.1, side.2.apply key)) [out]

/-- The nested-loop join of the upstreams. -/
def nestedLoopJoin (input : Partition) (sides : List (Side φ V)) (h : Heap (Content φ V)) :
    List (Content φ V × Content φ V) :=
  (Common.ungroup input).flatMap fun row =>
    joinedWith keyOf op (sides.map (sideContents keyOf h)) (h.cell row.1) (h.cell row.2)

/-- No single row is joined behind several rows of an earlier upstream (`copied`), and a row that is
to be padded is not lost: where an upstream has rows with the key, its filter lets one through. -/
def KeepsPairs (key : Content φ V) :
    Bool → List (List (κ × Content φ V) × ExprMapOperator φ V) → Prop
  | _, [] => True
  | copied, side :: sides =>
    match valuesOf (keyOf key) side.1 with
    | [] => op.joinType = .innerJoin ∨ KeepsPairs key copied sides
    | [value] =>
      if side.2.passes key value then copied = false ∧ KeepsPairs key false sides
      else op.joinType = .innerJoin
    | values =>
      if values.any (side.2.passes key) then KeepsPairs key true sides
      else op.joinType = .innerJoin

end NestedLoop

/-! ## The loops -/

section Loops

variable {keyOf : Content φ V → κ} {op p : ExprMapOperator φ V} {base h : Heap (Content φ V)}
  {key value : ℕ} {out : ℕ × ℕ}

/-- The rows that a loop has made: no message that was there before has changed, and the rows have
these contents. -/
structure Emits (h : Heap (Content φ V)) (made : List (ℕ × ℕ) × Heap (Content φ V))
    (rows : List (Content φ V × Content φ V)) : Prop where
  keeps : h.Extends made.2
  lt : ∀ out ∈ made.1, out.1 < made.2.next ∧ out.2 < made.2.next
  rows : rowsOf made = rows

omit [DecidableEq φ] in
theorem Emits.nil {h' : Heap (Content φ V)} (hkeeps : h.Extends h') : Emits h ([], h') [] :=
  ⟨hkeeps, fun _ hmem => absurd hmem not_mem_nil, rfl⟩

omit [DecidableEq φ] in
/-- One loop after another. -/
theorem Emits.append {made made' : List (ℕ × ℕ) × Heap (Content φ V)}
    {rows rows' : List (Content φ V × Content φ V)} (hmade : Emits h made rows)
    (hmade' : Emits made.2 made' rows') :
    Emits h (made.1 ++ made'.1, made'.2) (rows ++ rows') where
  keeps := hmade.keeps.trans hmade'.keeps
  lt out hmem := by
    rcases mem_append.mp hmem with hmem | hmem
    · obtain ⟨hkey, hvalue⟩ := hmade.lt out hmem
      exact ⟨hkey.trans_le hmade'.keeps.next_le, hvalue.trans_le hmade'.keeps.next_le⟩
    · exact hmade'.lt out hmem
  rows := by
    have hbefore : made.1.map (read made'.2) = made.1.map (read made.2) := by
      refine map_congr_left fun out hmem => ?_
      obtain ⟨hkey, hvalue⟩ := hmade.lt out hmem
      rw [read, read, hmade'.keeps.cell_eq _ hkey, hmade'.keeps.cell_eq _ hvalue]
    rw [rowsOf, map_append, hbefore, ← hmade.rows, ← hmade'.rows]
    rfl

/-- The rows that a loop over the upstreams has made, to which other operators may add. -/
structure Made (op : ExprMapOperator φ V) (base h : Heap (Content φ V)) (key : ℕ)
    (made : List (ℕ × ℕ) × Heap (Content φ V)) (rows : List (Content φ V × Content φ V)) :
    Prop where
  keeps : h.Extends made.2
  begun : ∀ out ∈ made.1, op.Begun base made.2 key out
  rows : rowsOf made = rows

omit [DecidableEq φ] in
theorem Made.emits {made : List (ℕ × ℕ) × Heap (Content φ V)}
    {rows : List (Content φ V × Content φ V)} (hmade : Made op base h key made rows) :
    Emits h made rows :=
  ⟨hmade.keeps, fun out hmem => ⟨(hmade.begun out hmem).key_lt, (hmade.begun out hmem).value_lt⟩,
    hmade.rows⟩

omit [DecidableEq φ] in
theorem Made.nil {h' : Heap (Content φ V)} (hkeeps : h.Extends h') :
    Made op base h key ([], h') [] :=
  ⟨hkeeps, fun _ hmem => absurd hmem not_mem_nil, rfl⟩

omit [DecidableEq φ] in
theorem Made.append {made made' : List (ℕ × ℕ) × Heap (Content φ V)}
    {rows rows' : List (Content φ V × Content φ V)} (hmade : Made op base h key made rows)
    (hmade' : Made op base made.2 key made' rows') :
    Made op base h key (made.1 ++ made'.1, made'.2) (rows ++ rows') where
  keeps := hmade.keeps.trans hmade'.keeps
  begun out hmem := by
    rcases mem_append.mp hmem with hmem | hmem
    · exact (hmade.begun out hmem).mono hmade'.keeps
    · exact hmade'.begun out hmem
  rows := (hmade.emits.append hmade'.emits).rows

/-- Every value whose row passes the filter is joined with a copy of the output. -/
theorem made_addCopies (hp : p.Continues op) (hbase : base.Extends h) (hkey : key < base.next)
    {values : List ℕ} (hvalues : ∀ value ∈ values, value < base.next)
    (hout : op.Begun base h key out) :
    Made op base h key (addCopies p key out values h)
      ((values.map base.cell).filterMap (p.apply (base.cell key) · (read h out))) := by
  induction values generalizing h with
  | nil => exact Made.nil (Heap.Extends.refl h)
  | cons value values ih =>
    obtain ⟨hvalue, hrest⟩ := forall_mem_cons.mp hvalues
    have hextends := ExprMapOperator.extends_copied out h
    rw [map_cons, addCopies]
    cases hpass : p.passes (base.cell key) (base.cell value) with
    | false =>
      rw [ExprMapOperator.evaluate_filtered (hbase.trans hextends) hkey hvalue hpass]
      have hnone : p.apply (base.cell key) (base.cell value) (read h out) = none := by
        rw [ExprMapOperator.apply, hpass]
        rfl
      simp only [filterMap_cons, hnone]
      have hmade := ih (hbase.trans hextends) hrest (hout.mono hextends)
      rw [hout.read_eq hextends] at hmade
      exact ⟨hextends.trans hmade.keeps, hmade.begun, hmade.rows⟩
    | true =>
      obtain ⟨out', h', heval, hkeeps, hbegun, hread⟩ :=
        ExprMapOperator.evaluate_copied hp hbase hkey hvalue hout hpass
      have hsome : p.apply (base.cell key) (base.cell value) (read h out) =
          some (read h' out') := by
        rw [ExprMapOperator.apply, if_pos hpass, hread]
      simp only [heval, filterMap_cons, hsome]
      have hmade := ih (hbase.trans hkeeps) hrest (hout.mono hkeeps)
      rw [hout.read_eq hkeeps] at hmade
      have hfirst : Made op base h key ([out'], h') [read h' out'] :=
        ⟨hkeeps, fun o hmem => by rw [mem_singleton.mp hmem]; exact hbegun, rfl⟩
      exact hfirst.append hmade

/-- Every output in the queue is joined with every value whose row passes the filter. -/
theorem made_addAll (hp : p.Continues op) (hbase : base.Extends h) (hkey : key < base.next)
    {values : List ℕ} (hvalues : ∀ value ∈ values, value < base.next) {queue : List (ℕ × ℕ)}
    (hqueue : ∀ out ∈ queue, op.Begun base h key out) :
    Made op base h key (addAll p key values queue h) ((queue.map (read h)).flatMap fun out =>
      (values.map base.cell).filterMap (p.apply (base.cell key) · out)) := by
  induction queue generalizing h with
  | nil => exact Made.nil (Heap.Extends.refl h)
  | cons pair queue ih =>
    obtain ⟨hpair, hrest⟩ := forall_mem_cons.mp hqueue
    have hfirst := made_addCopies hp hbase hkey hvalues hpair
    have hmade := ih (hbase.trans hfirst.keeps) fun out hmem => (hrest out hmem).mono hfirst.keeps
    have hbefore : queue.map (read (addCopies p key pair values h).2) = queue.map (read h) :=
      map_congr_left fun out hmem => (hrest out hmem).read_eq hfirst.keeps
    rw [hbefore] at hmade
    rw [map_cons, flatMap_cons]
    exact hfirst.append hmade

theorem addSame_filtered (hbase : base.Extends h) (hkey : key < base.next)
    (hvalue : value < base.next) (hpass : p.passes (base.cell key) (base.cell value) = false)
    (queue : List (ℕ × ℕ)) : addSame p key value out queue h = ([], h) := by
  induction queue with
  | nil => rfl
  | cons pair queue ih =>
    rw [addSame, ExprMapOperator.evaluate_filtered hbase hkey hvalue hpass]
    exact ih

omit [DecidableEq φ] in
/-- A lookup is not disturbed by messages that are made since. -/
theorem getValue_extends {group : Partition} (hbase : base.Extends h)
    (hlt : ∀ g ∈ group, g.1 < base.next) (hkey : key < base.next) :
    getValue keyOf group h key = getValue keyOf group base key := by
  have hfind : group.find? (fun g => decide (keyOf (h.cell g.1) = keyOf (h.cell key))) =
      group.find? fun g => decide (keyOf (base.cell g.1) = keyOf (base.cell key)) := by
    refine find?_congr fun g hg => ?_
    rw [hbase.cell_eq _ (hlt g hg), hbase.cell_eq _ hkey]
  rw [getValue, getValue, hfind]

omit [DecidableEq φ] in
theorem mem_getValue {group : Partition} {v : ℕ} (hv : v ∈ getValue keyOf group h key) :
    ∃ g ∈ group, v ∈ g.2 := by
  unfold getValue at hv
  split at hv
  · cases hv
  · rename_i g hfind
    exact ⟨g, mem_of_find?_eq_some hfind, hv⟩

omit [DecidableEq φ] in
/-- A lookup finds the values of all rows with the key. -/
theorem map_getValue {group : Partition} (hnodup : (group.map fun g => keyOf (h.cell g.1)).Nodup) :
    (getValue keyOf group h key).map h.cell =
      valuesOf (keyOf (h.cell key)) (contents keyOf h group) := by
  induction group with
  | nil => rfl
  | cons g group ih =>
    obtain ⟨hnot, hnodup⟩ := nodup_cons.mp hnodup
    have hcons : contents keyOf h (g :: group) =
        (g.2.map fun v => (keyOf (h.cell g.1), h.cell v)) ++ contents keyOf h group := by
      rw [contents, Common.ungroup, flatMap_cons, map_append, map_map]
      rfl
    rw [hcons, Common.valuesOf_append]
    by_cases heq : keyOf (h.cell g.1) = keyOf (h.cell key)
    · have hrest : valuesOf (keyOf (h.cell key)) (contents keyOf h group) = [] := by
        refine Common.valuesOf_eq_nil fun y hy hkeyOf => hnot ?_
        obtain ⟨row, hrow, rfl⟩ := mem_map.mp hy
        obtain ⟨g', hg', hin⟩ := mem_flatMap.mp hrow
        obtain ⟨v, -, rfl⟩ := mem_map.mp hin
        exact mem_map.mpr ⟨g', hg', hkeyOf.trans heq.symm⟩
      have hfound : getValue keyOf (g :: group) h key = g.2 := by
        simp only [getValue, find?_cons, decide_eq_true heq]
      rw [hfound, hrest, append_nil]
      simp [valuesOf, heq, filter_map, comp_def]
    · have hothers : valuesOf (keyOf (h.cell key))
          (g.2.map fun v => (keyOf (h.cell g.1), h.cell v)) = [] := by
        refine Common.valuesOf_eq_nil fun y hy => ?_
        obtain ⟨v, -, rfl⟩ := mem_map.mp hy
        exact heq
      have hskip : getValue keyOf (g :: group) h key = getValue keyOf group h key := by
        simp only [getValue, find?_cons, decide_eq_false heq]
      rw [hothers, nil_append, hskip]
      exact ih hnodup

/-- A partition whose messages are in the heap, with one group for each key. -/
structure Stored (keyOf : Content φ V → κ) (base : Heap (Content φ V)) (p : Partition) : Prop where
  lt : ∀ group ∈ p, group.1 < base.next ∧ ∀ value ∈ group.2, value < base.next
  nodup : (p.map fun group => keyOf (base.cell group.1)).Nodup

omit [DecidableEq φ] in
theorem Stored.getValue_eq {group : Partition} (hstored : Stored keyOf base group)
    (hbase : base.Extends h) (hkey : key < base.next) :
    (getValue keyOf group h key).map base.cell =
        valuesOf (keyOf (base.cell key)) (contents keyOf base group) ∧
      ∀ value ∈ getValue keyOf group h key, value < base.next := by
  rw [getValue_extends hbase (fun g hg => (hstored.lt g hg).1) hkey]
  refine ⟨map_getValue hstored.nodup, fun value hvalue => ?_⟩
  obtain ⟨g, hg, hin⟩ := mem_getValue hvalue
  exact (hstored.lt g hg).2 value hin

/-! ## The upstreams one after another -/

section Params

variable {join : JoinOperator φ V} {sides : List (Side φ V)} {queue : List (ℕ × ℕ)}

theorem joinParams_nil (sides : List (Side φ V)) (h : Heap (Content φ V)) :
    joinParams keyOf join key out sides [] h = ([], h) := by
  cases sides with
  | nil => rfl
  | cons side sides => rw [joinParams, if_pos rfl]

/-- In an inner join a side of which nothing passes leaves nothing. -/
theorem flatMap_joinSide_nil {ω o : Type*} {f : ω → o → Option o} {values : List ω}
    (hnone : ∀ out, values.filterMap (f · out) = []) (outs : List o) :
    outs.flatMap (joinSide false f values) = [] := by
  refine flatMap_eq_nil_iff.mpr fun out _ => ?_
  rw [Common.joinSide_of_eq_nil (hnone out)]
  rfl

theorem filterMap_apply_eq_nil {values : List (Content φ V)} {K : Content φ V}
    (hpass : ∀ value ∈ values, p.passes K value = false) (out : Content φ V × Content φ V) :
    values.filterMap (p.apply K · out) = [] := by
  refine filterMap_eq_nil_iff.mpr fun value hvalue => ?_
  rw [ExprMapOperator.apply, hpass value hvalue]
  rfl

theorem filterMap_apply_ne_nil {values : List (Content φ V)} {K value : Content φ V}
    (hvalue : value ∈ values) (hpass : p.passes K value = true)
    (out : Content φ V × Content φ V) : values.filterMap (p.apply K · out) ≠ [] := by
  intro hnil
  have hnone := filterMap_eq_nil_iff.mp hnil value hvalue
  rw [ExprMapOperator.apply, if_pos hpass] at hnone
  cases hnone

section Keeps

variable {side : List (κ × Content φ V) × ExprMapOperator φ V} {K value value' : Content φ V}
  {rest : List (List (κ × Content φ V) × ExprMapOperator φ V)} {copied : Bool}

omit [DecidableEq φ] in
theorem keepsPairs_nil (hvalues : valuesOf (keyOf K) side.1 = []) :
    KeepsPairs keyOf join K copied (side :: rest) ↔
      join.joinType = .innerJoin ∨ KeepsPairs keyOf join K copied rest := by
  rw [KeepsPairs, hvalues]

omit [DecidableEq φ] in
theorem keepsPairs_single (hvalues : valuesOf (keyOf K) side.1 = [value])
    (hpass : side.2.passes K value = true) :
    KeepsPairs keyOf join K copied (side :: rest) ↔
      copied = false ∧ KeepsPairs keyOf join K false rest := by
  rw [KeepsPairs, hvalues]
  exact iff_of_eq (if_pos hpass)

omit [DecidableEq φ] in
theorem keepsPairs_several {values : List (Content φ V)}
    (hvalues : valuesOf (keyOf K) side.1 = value :: value' :: values)
    (hpass : (value :: value' :: values).any (side.2.passes K) = true) :
    KeepsPairs keyOf join K copied (side :: rest) ↔ KeepsPairs keyOf join K true rest := by
  rw [KeepsPairs, hvalues]
  exact iff_of_eq (if_pos hpass)

omit [DecidableEq φ] in
/-- Rows that are all filtered out are lost, which is right in an inner join. -/
theorem keepsPairs_filtered (hvalues : valuesOf (keyOf K) side.1 ≠ [])
    (hpass : ∀ value ∈ valuesOf (keyOf K) side.1, side.2.passes K value = false) :
    KeepsPairs keyOf join K copied (side :: rest) ↔ join.joinType = .innerJoin := by
  rw [KeepsPairs]
  split
  next hnil => exact absurd hnil hvalues
  next value hone =>
    rw [hone] at hpass
    exact iff_of_eq (if_neg (Bool.eq_false_iff.mp (hpass value mem_cons_self)))
  next values _ _ =>
    refine iff_of_eq (if_neg fun hany => ?_)
    obtain ⟨value, hmem, hpasses⟩ := any_eq_true.mp hany
    rw [hpass value hmem] at hpasses
    cases hpasses

end Keeps

/-- Rows that are all filtered out leave no output. -/
theorem addRows_filtered (out : ℕ × ℕ) (hp : p.Continues op) (hbase : base.Extends h)
    (hkey : key < base.next) {values : List ℕ} (hvalues : ∀ value ∈ values, value < base.next)
    (hqueue : ∀ pair ∈ queue, op.Begun base h key pair)
    (hpass : ∀ value ∈ values.map base.cell, p.passes (base.cell key) value = false) :
    ∃ h', addRows p key out values queue h = ([], h') ∧ base.Extends h' := by
  have hall : ∃ h', addAll p key values queue h = ([], h') ∧ base.Extends h' := by
    have hmade := made_addAll hp hbase hkey hvalues hqueue
    refine ⟨(addAll p key values queue h).2, Prod.ext ?_ rfl, hbase.trans hmade.keeps⟩
    have hrows := hmade.rows
    simp only [filterMap_apply_eq_nil hpass] at hrows
    rw [flatMap_eq_nil_iff.mpr fun _ _ => rfl] at hrows
    exact map_eq_nil_iff.mp hrows
  rcases values with _ | ⟨value, _ | ⟨value', values⟩⟩
  · exact hall
  · have hnot := hpass _ (mem_map_of_mem mem_cons_self)
    exact ⟨h, addSame_filtered hbase hkey (hvalues value mem_cons_self) hnot queue, hbase⟩
  · exact hall

/-- A single row is joined with the first output, if that is all there is in the queue. -/
theorem addRows_single (hp : p.Continues op) (hbase : base.Extends h) (hkey : key < base.next)
    (hvalue : value < base.next) (hout : op.Begun base h key out)
    (hpass : p.passes (base.cell key) (base.cell value) = true) :
    ∃ h', addRows p key out [value] [out] h = ([out], h') ∧ base.Extends h' ∧
      op.Begun base h' key out ∧
      read h' out = p.outContents (base.cell key) (base.cell value) (read h out) := by
  obtain ⟨out', h', heval, hcontinued⟩ :=
    ExprMapOperator.evaluate_continue hp hbase hkey hvalue hout hpass
  refine ⟨h', ?_, hcontinued.keeps, hcontinued.begun, hcontinued.contents⟩
  simp only [addRows, addSame, heval]

/-- As long as pairs are kept, the loop over the upstreams is the nested loop. -/
theorem made_joinParams (hkey : key < base.next)
    (hsides : ∀ side ∈ sides, Stored keyOf base side.1 ∧ side.2.Continues join.mapOperator)
    {copied : Bool} (hbase : base.Extends h)
    (hqueue : ∀ pair ∈ queue, join.mapOperator.Begun base h key pair)
    (hcopied : copied = false → queue = [out])
    (hkeeps : KeepsPairs keyOf join (base.cell key) copied (sides.map (sideContents keyOf base))) :
    Made join.mapOperator base base key (joinParams keyOf join key out sides queue h)
      (nestedLoop (decide (join.joinType ≠ .innerJoin)) (keyOf (base.cell key))
        ((sides.map (sideContents keyOf base)).map fun side =>
          (side.1, side.2.apply (base.cell key)))
        (queue.map (read h))) := by
  induction sides generalizing copied queue h with
  | nil => exact ⟨hbase, hqueue, rfl⟩
  | cons side sides ih =>
    obtain ⟨⟨hstored, hp⟩, hsides⟩ := forall_mem_cons.mp hsides
    by_cases hempty : queue = []
    · rw [hempty, joinParams_nil, map_nil, Common.nestedLoop_nil]
      exact Made.nil hbase
    obtain ⟨hvalues, hlt⟩ := hstored.getValue_eq hbase hkey
    rw [map_cons] at hkeeps
    rw [joinParams, if_neg hempty, map_cons, map_cons, nestedLoop]
    simp only [sideContents]
    rw [← hvalues]
    have hcontents : valuesOf (keyOf (base.cell key)) (sideContents keyOf base side).1 =
        (getValue keyOf side.1 h key).map base.cell := hvalues.symm
    generalize getValue keyOf side.1 h key = values at hlt hcontents ⊢
    cases values with
    | nil =>
      rw [keepsPairs_nil hcontents] at hkeeps
      by_cases hinner : join.joinType = .innerJoin
      · simp only [hinner, ne_eq, not_true_eq_false, decide_false, map_nil]
        rw [flatMap_joinSide_nil fun _ => rfl, Common.nestedLoop_nil]
        exact Made.nil hbase
      · have hpadded : (queue.map (read h)).flatMap (joinSide
            (decide (join.joinType ≠ .innerJoin)) (side.2.apply (base.cell key)) []) =
            queue.map (read h) := by
          rw [decide_eq_true hinner]
          exact flatMap_singleton' _
        simp only [if_neg hinner, map_nil, hpadded]
        exact ih hsides hbase hqueue hcopied (hkeeps.resolve_left hinner)
    | cons value values =>
      simp only
      by_cases hpass : ∀ v ∈ (value :: values).map base.cell,
          side.2.passes (base.cell key) v = false
      · have hne : valuesOf (keyOf (base.cell key)) (sideContents keyOf base side).1 ≠ [] := by
          rw [hcontents]
          exact cons_ne_nil _ _
        have hinner := (keepsPairs_filtered hne (hcontents ▸ hpass)).mp hkeeps
        obtain ⟨h', hadded, hbase'⟩ :=
          addRows_filtered out hp hbase hkey hlt hqueue hpass
        rw [hadded, joinParams_nil, decide_eq_false (not_not.mpr hinner),
          flatMap_joinSide_nil fun o => filterMap_apply_eq_nil hpass o, Common.nestedLoop_nil]
        exact Made.nil hbase'
      obtain ⟨v, hv, hpasses⟩ : ∃ v ∈ (value :: values).map base.cell,
          side.2.passes (base.cell key) v = true := by
        by_contra hnone
        exact hpass fun v hv => Bool.eq_false_iff.mpr fun htrue => hnone ⟨v, hv, htrue⟩
      have hmade : (queue.map (read h)).flatMap
          (joinSide (decide (join.joinType ≠ .innerJoin)) (side.2.apply (base.cell key))
            ((value :: values).map base.cell)) =
          (queue.map (read h)).flatMap fun o =>
            ((value :: values).map base.cell).filterMap (side.2.apply (base.cell key) · o) :=
        flatMap_congr fun o _ =>
          Common.joinSide_of_ne_nil (filterMap_apply_ne_nil hv hpasses o)
      rw [hmade]
      cases values with
      | nil =>
        obtain rfl := mem_singleton.mp hv
        obtain ⟨hfirst, hkeeps⟩ := (keepsPairs_single hcontents hpasses).mp hkeeps
        obtain rfl := hcopied hfirst
        obtain ⟨h', hadded, hbase', hbegun, hread⟩ := addRows_single hp hbase hkey
          (hlt value mem_cons_self) (hqueue out mem_cons_self) hpasses
        have hrows : ([out].map (read h)).flatMap (fun o =>
            [base.cell value].filterMap (side.2.apply (base.cell key) · o)) =
            [out].map (read h') := by
          rw [map_singleton, flatMap_singleton, map_singleton, hread]
          simp only [filterMap_cons, ExprMapOperator.apply, if_pos hpasses, filterMap_nil]
        rw [hadded, map_singleton, hrows]
        refine ih hsides hbase' (fun pair hpair => ?_) (fun _ => rfl) hkeeps
        rw [mem_singleton.mp hpair]
        exact hbegun
      | cons value' values =>
        have hany : ((value :: value' :: values).map base.cell).any
            (side.2.passes (base.cell key)) = true := any_eq_true.mpr ⟨v, hv, hpasses⟩
        have hkeeps := (keepsPairs_several hcontents hany).mp hkeeps
        have hadded := made_addAll hp hbase hkey hlt hqueue
        rw [← hadded.rows]
        exact ih hsides (hbase.trans hadded.keeps) hadded.begun (fun hf => by cases hf) hkeeps

end Params

end Loops

/-! ## All rows of the input -/

section Rows

variable {keyOf : Content φ V → κ} {join : JoinOperator φ V} {base h : Heap (Content φ V)}
  {sides : List (Side φ V)} {row : ℕ × ℕ}

/-- A join of the contents of the upstreams that gives the rows for every row of the input. -/
theorem emits_foreachRow {handle : ℕ × ℕ → Heap (Content φ V) → List (ℕ × ℕ) × Heap (Content φ V)}
    {joined : ℕ × ℕ → List (Content φ V × Content φ V)} {rows : List (ℕ × ℕ)}
    (hhandle : ∀ row ∈ rows, ∀ h, base.Extends h → Emits h (handle row h) (joined row))
    (hbase : base.Extends h) : Emits h (foreachRow handle rows h) (rows.flatMap joined) := by
  induction rows generalizing h with
  | nil => exact Emits.nil (Heap.Extends.refl h)
  | cons row rows ih =>
    obtain ⟨hrow, hrest⟩ := forall_mem_cons.mp hhandle
    have hfirst := hrow h hbase
    rw [foreachRow, flatMap_cons]
    exact hfirst.append (ih hrest (hbase.trans hfirst.keeps))

omit [DecidableEq φ] [DecidableEq κ] in
theorem Stored.contents_eq {p : Partition} (hstored : Stored keyOf base p)
    (hbase : base.Extends h) : contents keyOf h p = contents keyOf base p := by
  refine map_congr_left fun row hrow => ?_
  obtain ⟨g, hg, hin⟩ := mem_flatMap.mp hrow
  obtain ⟨v, hv, rfl⟩ := mem_map.mp hin
  obtain ⟨hkey, hvalues⟩ := hstored.lt g hg
  simp only [hbase.cell_eq _ hkey, hbase.cell_eq _ (hvalues v hv)]

omit [DecidableEq φ] [DecidableEq κ] in
theorem Stored.mono {p : Partition} (hstored : Stored keyOf base p) (hbase : base.Extends h) :
    Stored keyOf h p where
  lt g hg :=
    ⟨(hstored.lt g hg).1.trans_le hbase.next_le,
      fun v hv => ((hstored.lt g hg).2 v hv).trans_le hbase.next_le⟩
  nodup := by
    have hkeys : (p.map fun g => keyOf (h.cell g.1)) = p.map fun g => keyOf (base.cell g.1) :=
      map_congr_left fun g hg => by rw [hbase.cell_eq _ (hstored.lt g hg).1]
    rw [hkeys]
    exact hstored.nodup

/-- The outputs for one row are those of the nested loop. -/
theorem emits_handleMore
    (hsides : ∀ side ∈ sides, Stored keyOf h side.1 ∧ side.2.Continues join.mapOperator)
    (hkey : row.1 < h.next) (hvalue : row.2 < h.next)
    (hkeeps : join.mapOperator.passes (h.cell row.1) (h.cell row.2) = true →
      KeepsPairs keyOf join (h.cell row.1) false (sides.map (sideContents keyOf h))) :
    Emits h (handleMoreRddInnerOrLeftJoin keyOf join sides row h)
      (joinedWith keyOf join (sides.map (sideContents keyOf h)) (h.cell row.1) (h.cell row.2)) := by
  unfold handleMoreRddInnerOrLeftJoin joinedWith ExprMapOperator.apply
  cases hpass : join.mapOperator.passes (h.cell row.1) (h.cell row.2) with
  | false =>
    rw [ExprMapOperator.evaluate_filtered (Heap.Extends.refl h) hkey hvalue hpass]
    exact Emits.nil (Heap.Extends.refl h)
  | true =>
    obtain ⟨out, h', heval, hextends, hbegun, hread⟩ :=
      ExprMapOperator.evaluate_new hkey hvalue hpass
    rw [heval, if_pos rfl]
    have hqueue : ∀ pair ∈ [out], join.mapOperator.Begun h h' row.1 pair := fun pair hpair => by
      rw [mem_singleton.mp hpair]
      exact hbegun
    have hmade := made_joinParams hkey hsides hextends hqueue (fun _ => rfl) (hkeeps hpass)
    rw [map_singleton, hread] at hmade
    exact hmade.emits

/-- With a single upstream behind the first one, both loops do the same. -/
theorem handleMore_single {side : Side φ V} (hp : side.2.Continues join.mapOperator)
    (row : ℕ × ℕ) (h : Heap (Content φ V)) :
    handleMoreRddInnerOrLeftJoin keyOf join [side] row h =
      handleTwoRddInnerOrLeftJoin keyOf join side row h := by
  unfold handleMoreRddInnerOrLeftJoin handleTwoRddInnerOrLeftJoin
  cases heval : join.mapOperator.evaluate row.1 row.2 none none h with
  | none => rfl
  | some made =>
    obtain ⟨out, h'⟩ := made
    simp only
    rw [joinParams, if_neg (cons_ne_nil out [])]
    rcases getValue keyOf side.1 h' row.1 with _ | ⟨value, _ | ⟨value', values⟩⟩
    · rfl
    · simp only [addRows, addSame, joinParams]
      cases hcontinued : side.2.evaluate row.1 value (some out.1) (some out.2) h' with
      | none => rfl
      | some made' =>
        obtain ⟨out', h''⟩ := made'
        rw [ExprMapOperator.evaluate_same hp heval hcontinued]
    · simp only [addRows, addAll, joinParams, append_nil]

end Rows

/-! ## Inner and left joins -/

/-- The upstreams of a join: their messages are in the heap, and the partitions behind the first one
have one group for each key. -/
structure Upstreams (φ V : Type*) {κ : Type*} (keyOf : Content φ V → κ) where
  heap : Heap (Content φ V)
  input : Partition
  sides : List (Side φ V)
  input_lt : ∀ row ∈ Common.ungroup input, row.1 < heap.next ∧ row.2 < heap.next
  stored : ∀ side ∈ sides, Stored keyOf heap side.1

section Claim

variable {keyOf : Content φ V → κ}

/-- The rows are those of the nested-loop join, and the loop for several upstreams makes of one the
same rows as the loop for one. -/
def Right (join : JoinOperator φ V) (u : Upstreams φ V keyOf) : Prop :=
  (rowsOf (transform keyOf join u.input u.sides u.heap)).Perm
      (nestedLoopJoin keyOf join u.input u.sides u.heap) ∧
    ∀ side ∈ u.sides,
      rowsOf (foreachRow (handleMoreRddInnerOrLeftJoin keyOf join [side])
          (Common.ungroup u.input) u.heap) =
        rowsOf (foreachRow (handleTwoRddInnerOrLeftJoin keyOf join side)
          (Common.ungroup u.input) u.heap)

/-- The operators of the other upstreams set fields only of messages that were made for the output,
and no pair is lost for a row of the input that its operator lets through. -/
structure KeepsAll (join : JoinOperator φ V) (u : Upstreams φ V keyOf) : Prop where
  continues : ∀ side ∈ u.sides, side.2.Continues join.mapOperator
  keeps : ∀ row ∈ Common.ungroup u.input,
    join.mapOperator.passes (u.heap.cell row.1) (u.heap.cell row.2) = true →
      KeepsPairs keyOf join (u.heap.cell row.1) false (u.sides.map (sideContents keyOf u.heap))

/-- The loop for several upstreams is a nested loop. -/
theorem KeepsAll.emits {join : JoinOperator φ V} {u : Upstreams φ V keyOf}
    (hall : KeepsAll join u) :
    Emits u.heap
      (foreachRow (handleMoreRddInnerOrLeftJoin keyOf join u.sides) (Common.ungroup u.input) u.heap)
      (nestedLoopJoin keyOf join u.input u.sides u.heap) := by
  refine emits_foreachRow (fun row hrow h hextends => ?_) (Heap.Extends.refl u.heap)
  obtain ⟨hkey, hvalue⟩ := u.input_lt row hrow
  -- the upstreams still hold what they held at the start
  have hcontents : u.sides.map (sideContents keyOf h) = u.sides.map (sideContents keyOf u.heap) :=
    map_congr_left fun side hside => by
      rw [sideContents, sideContents, (u.stored side hside).contents_eq hextends]
  have hsides : ∀ side ∈ u.sides, Stored keyOf h side.1 ∧ side.2.Continues join.mapOperator :=
    fun side hside => ⟨(u.stored side hside).mono hextends, hall.continues side hside⟩
  have hpairs : join.mapOperator.passes (h.cell row.1) (h.cell row.2) = true →
      KeepsPairs keyOf join (h.cell row.1) false (u.sides.map (sideContents keyOf h)) := by
    rw [hcontents, hextends.cell_eq _ hkey, hextends.cell_eq _ hvalue]
    exact hall.keeps row hrow
  have hemits := emits_handleMore hsides (hkey.trans_le hextends.next_le)
    (hvalue.trans_le hextends.next_le) hpairs
  rw [hcontents, hextends.cell_eq _ hkey, hextends.cell_eq _ hvalue] at hemits
  exact hemits

/-- For one upstream behind the first one, so is its own loop. -/
theorem KeepsAll.handle_eq {join : JoinOperator φ V} {u : Upstreams φ V keyOf}
    (hall : KeepsAll join u) {side : Side φ V} (hside : side ∈ u.sides) :
    handleMoreRddInnerOrLeftJoin keyOf join [side] =
      handleTwoRddInnerOrLeftJoin keyOf join side := by
  funext row h
  exact handleMore_single (hall.continues side hside) row h

/-- An operator that sets one field of the value to the first field of the row's value. -/
def sets (field : ℕ) : ExprMapOperator ℕ ℕ where
  filterExpr := none
  key := { templateMessage := fun _ => 0, reuse := .reuseKey, outFields := [] }
  value :=
    { templateMessage := fun _ => 0
      reuse := .reuseNone
      outFields := [(field, fun _ value => value 0)] }
  key_reuse := ReUseType.noConfusion
  value_reuse := ReUseType.noConfusion

/-- Messages whose fields all have one number: a key at 0, and values with their addresses. -/
def numbered : Heap (Content ℕ ℕ) := ⟨5, fun ptr _ => ptr⟩

theorem input_lt_numbered :
    ∀ row ∈ Common.ungroup [(0, [1])], row.1 < numbered.next ∧ row.2 < numbered.next := by
  decide

/-- One row of the input, one upstream with two rows for its key, and one with one. -/
def twoThenOne : Upstreams ℕ ℕ fun key => key 0 where
  heap := numbered
  input := [(0, [1])]
  sides := [([(0, [2, 3])], sets 1), ([(0, [4])], sets 2)]
  input_lt := input_lt_numbered
  stored := fun side hside => by
    rcases List.mem_cons.mp hside with rfl | hside
    · exact ⟨by decide, by decide⟩
    · rw [List.mem_singleton.mp hside]
      exact ⟨by decide, by decide⟩

/-- The same upstreams, the one with one row first. -/
def oneThenTwo : Upstreams ℕ ℕ fun key => key 0 where
  heap := numbered
  input := [(0, [1])]
  sides := [([(0, [4])], sets 2), ([(0, [2, 3])], sets 1)]
  input_lt := input_lt_numbered
  stored := fun side hside => by
    rcases List.mem_cons.mp hside with rfl | hside
    · exact ⟨by decide, by decide⟩
    · rw [List.mem_singleton.mp hside]
      exact ⟨by decide, by decide⟩

/-- Operators that take over the key and set a field of a new value go on with each other. -/
theorem continues_sets (field field' : ℕ) : (sets field).Continues (sets field') where
  key := ReUseType.noConfusion
  sharedKey := fun _ => .inl rfl
  value := rfl
  sharedValue := ReUseType.noConfusion

end Claim

end Idgs.Rdd.Shared
