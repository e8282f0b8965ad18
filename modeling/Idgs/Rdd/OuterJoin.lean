import Idgs.Rdd.JoinRows

/-!
# Outer joins of shared messages

An outer join is a left join, to which the rows of the other upstreams are added whose keys the
output does not hold. But the output learns of the rows that it is given by messages to itself, so
that it does not hold them yet. With several other upstreams the rows wait in a map, at the end of
which the loop over the values has no body, and what it reads lies behind the last value.
-/

namespace Idgs.Rdd.Shared

open List

open Common (Heap nestedLoop)

variable {φ V κ : Type*} [DecidableEq φ] [DecidableEq κ]

/-! ## The transformer -/

/-- The loop over the values of a group whose key is not in the output. -/
def addGroup (p : ExprMapOperator φ V) (key : ℕ) :
    List ℕ → Heap (Content φ V) → List (ℕ × ℕ) × Heap (Content φ V)
  | [], h => ([], h)
  | value :: values, h =>
    match p.evaluate key value none none h with
    | none => addGroup p key values h
    | some (out, h') =>
      let added := addGroup p key values h'
      (out :: added.1, added.2)

section Transformer

variable (keyOf : Content φ V → κ) (containKey : Content φ V → Bool) (join : JoinOperator φ V)

/-- The loop over the groups of `HashJoinTransformer::handleTwoRddOuterJoin`; `containKey` is what
the output holds meanwhile. -/
def addGroups (p : ExprMapOperator φ V) :
    Partition → Heap (Content φ V) → List (ℕ × ℕ) × Heap (Content φ V)
  | [], h => ([], h)
  | group :: groups, h =>
    if containKey (h.cell group.1) then addGroups p groups h
    else
      let added := addGroup p group.1 group.2 h
      let rest := addGroups p groups added.2
      (added.1 ++ rest.1, rest.2)

/-- `HashJoinTransformer::handleTwoRddOuterJoin`. -/
def handleTwoRddOuterJoin (input : Partition) (side : Side φ V) (h : Heap (Content φ V)) :
    List (ℕ × ℕ) × Heap (Content φ V) :=
  let left :=
    foreachRow (handleTwoRddInnerOrLeftJoin keyOf join side) (Common.ungroup input) h
  let right := addGroups containKey side.2 side.1 left.2
  (left.1 ++ right.1, right.2)

omit [DecidableEq φ] in
/-- `tmpMap[outkey].push_back(outvalue)`. -/
def pushTmp (h : Heap (Content φ V)) (out : ℕ × ℕ) (tmpMap : Partition) : Partition :=
  if tmpMap.any fun entry => decide (keyOf (h.cell entry.1) = keyOf (h.cell out.1)) then
    tmpMap.map fun entry =>
      if keyOf (h.cell entry.1) = keyOf (h.cell out.1) then (entry.1, entry.2 ++ [out.2])
      else entry
  else tmpMap ++ [(out.1, [out.2])]

/-- The loop over the values of a group whose key is not in the map. -/
def addTmp (p : ExprMapOperator φ V) (key : ℕ) :
    List ℕ → Partition × Heap (Content φ V) → Partition × Heap (Content φ V)
  | [], s => s
  | value :: values, (tmpMap, h) =>
    match p.evaluate key value none none h with
    | none => addTmp p key values (tmpMap, h)
    | some (out, h) => addTmp p key values (pushTmp keyOf h out tmpMap, h)

/-- The loop over the values in the map for a group with one value, which always takes the first of
them. -/
def joinTmpSingle (p : ExprMapOperator φ V) (key value first : ℕ) :
    List ℕ → ℕ → Partition × Heap (Content φ V) → Partition × Heap (Content φ V)
  | [], _, s => s
  | _ :: tmpvalues, tmpkey, (tmpMap, h) =>
    match p.evaluate key value (some tmpkey) (some first) h with
    | none => joinTmpSingle p key value first tmpvalues tmpkey (tmpMap, h)
    | some (out, h) =>
      joinTmpSingle p key value first tmpvalues out.1 (pushTmp keyOf h out tmpMap, h)

/-- The loop over the values of a group for one value in the map. -/
def joinTmpCopies (p : ExprMapOperator φ V) (key : ℕ) (tmp : ℕ × ℕ) :
    List ℕ → Partition × Heap (Content φ V) → Partition × Heap (Content φ V)
  | [], s => s
  | value :: values, (tmpMap, h) =>
    match p.evaluate key value (some h.next) (some (h.next + 1))
        (ExprMapOperator.copied tmp h) with
    | none => joinTmpCopies p key tmp values (tmpMap, ExprMapOperator.copied tmp h)
    | some (out, h) => joinTmpCopies p key tmp values (pushTmp keyOf h out tmpMap, h)

/-- What `HashJoinTransformer::handleMoreRddOuterJoin` does with a group. The iterator over several
values is not set back, so that only the first value in the map meets them. -/
def joinTmpGroup (p : ExprMapOperator φ V) (group : ℕ × List ℕ)
    (s : Partition × Heap (Content φ V)) : Partition × Heap (Content φ V) :=
  if containKey (s.2.cell group.1) then s
  else
    match s.1.find? fun entry =>
        decide (keyOf (s.2.cell entry.1) = keyOf (s.2.cell group.1)) with
    | none => addTmp keyOf p group.1 group.2 s
    | some entry =>
      let tmpMap := s.1.filter fun other =>
        decide (keyOf (s.2.cell other.1) ≠ keyOf (s.2.cell group.1))
      match entry.2, group.2 with
      | [], _ => (tmpMap, s.2)
      | first :: tmpvalues, [value] =>
        joinTmpSingle keyOf p group.1 value first (first :: tmpvalues) entry.1 (tmpMap, s.2)
      | first :: _, values =>
        joinTmpCopies keyOf p group.1 (entry.1, first) values (tmpMap, s.2)

/-- The loops over the upstreams and their groups. -/
def joinTmpSides (sides : List (Side φ V)) (s : Partition × Heap (Content φ V)) :
    Partition × Heap (Content φ V) :=
  sides.foldl (fun s side =>
    side.1.foldl (fun s group => joinTmpGroup keyOf containKey side.2 group s) s) s

/-- `HashJoinTransformer::handleMoreRddOuterJoin`; `none` when the end of the values of an entry is
read. -/
def handleMoreRddOuterJoin (input : Partition) (sides : List (Side φ V))
    (h : Heap (Content φ V)) : Option (List (ℕ × ℕ) × Heap (Content φ V)) :=
  let left :=
    foreachRow (handleMoreRddInnerOrLeftJoin keyOf join sides) (Common.ungroup input) h
  let tmp := joinTmpSides keyOf containKey sides ([], left.2)
  if tmp.1 = [] then some (left.1, tmp.2) else none

/-- `HashJoinTransformer::transform` of an outer join. -/
def transformOuter (input : Partition) (sides : List (Side φ V)) (h : Heap (Content φ V)) :
    Option (List (ℕ × ℕ) × Heap (Content φ V)) :=
  match sides with
  | [side] => some (handleTwoRddOuterJoin keyOf containKey join input side h)
  | sides => handleMoreRddOuterJoin keyOf containKey join input sides h

end Transformer

/-! ## The full outer join -/

section FullOuter

variable (keyOf : Content φ V → κ) (op : ExprMapOperator φ V)

omit [DecidableEq φ] in
/-- The contents of the rows of a partition, keys and values. -/
def rowContents (h : Heap (Content φ V)) (p : Partition) : List (Content φ V × Content φ V) :=
  (Common.ungroup p).map (read h)

/-- The rows of a side whose keys no earlier side has. -/
def uncovered (covered : List κ) (rows : List (Content φ V × Content φ V))
    (p : ExprMapOperator φ V) : List (Content φ V × Content φ V) :=
  rows.filter fun row => p.passes row.1 row.2 && decide (keyOf row.1 ∉ covered)

/-- The rows of the sides behind the first one whose keys it does not have, each joined with those
of the sides behind its own. -/
def unmatched :
    List κ → List (List (Content φ V × Content φ V) × ExprMapOperator φ V) →
      List (Content φ V × Content φ V)
  | _, [] => []
  | covered, side :: sides =>
    let rows := uncovered keyOf covered side.1 side.2
    (rows.flatMap fun row =>
      nestedLoop true (keyOf row.1)
        (sides.map fun other =>
          (other.1.map fun row => (keyOf row.1, row.2), other.2.apply row.1))
        [side.2.outContents row.1 row.2 side.2.templates]) ++
      unmatched (covered ++ rows.map fun row => keyOf row.1) sides

/-- The keys of the first side. -/
def coveredKeys (input : Partition) (h : Heap (Content φ V)) : List κ :=
  ((rowContents h input).filter fun row => op.passes row.1 row.2).map fun row => keyOf row.1

/-- The full outer join of the upstreams. -/
def fullOuterJoin (input : Partition) (sides : List (Side φ V)) (h : Heap (Content φ V)) :
    List (Content φ V × Content φ V) :=
  nestedLoopJoin keyOf ⟨.outerJoin, op⟩ input sides h ++
    unmatched keyOf (coveredKeys keyOf op input h)
      (sides.map fun side => (rowContents h side.1, side.2))

/-- The output is defined, and its rows are those of the full outer join. -/
def OuterRight (containKey : Content φ V → Bool) {keyOf : Content φ V → κ}
    (op : ExprMapOperator φ V) (u : Upstreams φ V keyOf) : Prop :=
  ∃ made, transformOuter keyOf containKey ⟨.outerJoin, op⟩ u.input u.sides u.heap = some made ∧
    (rowsOf made).Perm (fullOuterJoin keyOf op u.input u.sides u.heap)

/-- For the rows of the other upstreams that pass their filters, the output holds exactly the keys
of the first upstream already; with several other upstreams, these have no other keys. -/
def HoldsKeys (containKey : Content φ V → Bool) {keyOf : Content φ V → κ}
    (op : ExprMapOperator φ V) (u : Upstreams φ V keyOf) : Prop :=
  ∀ side ∈ u.sides, ∀ row ∈ rowContents u.heap side.1, side.2.passes row.1 row.2 = true →
    (containKey row.1 = true ↔ keyOf row.1 ∈ coveredKeys keyOf op u.input u.heap) ∧
      (u.sides.length ≠ 1 → containKey row.1 = true)

end FullOuter

/-! ## The rows of the other upstreams -/

section Added

variable {containKey : Content φ V → Bool} {p : ExprMapOperator φ V}
  {base h : Heap (Content φ V)} {key : ℕ}

/-- The rows of a group are made from new messages. -/
theorem emits_addGroup {values : List ℕ} (hbase : base.Extends h) (hkey : key < base.next)
    (hvalues : ∀ value ∈ values, value < base.next) :
    Emits h (addGroup p key values h)
      ((values.map base.cell).filterMap (p.apply (base.cell key) · p.templates)) := by
  induction values generalizing h with
  | nil => exact Emits.nil (Heap.Extends.refl h)
  | cons value values ih =>
    obtain ⟨hvalue, hrest⟩ := forall_mem_cons.mp hvalues
    rw [map_cons, addGroup]
    cases hpass : p.passes (base.cell key) (base.cell value) with
    | false =>
      have hnone : p.apply (base.cell key) (base.cell value) p.templates = none := by
        rw [ExprMapOperator.apply, hpass]
        rfl
      simp only [ExprMapOperator.evaluate_filtered hbase hkey hvalue hpass,
        filterMap_cons, hnone]
      exact ih hbase hrest
    | true =>
      have hkeyCell := hbase.cell_eq key hkey
      have hvalueCell := hbase.cell_eq value hvalue
      obtain ⟨out, h', heval, hextends, hbegun, hread⟩ :=
        ExprMapOperator.evaluate_new (hkey.trans_le hbase.next_le)
          (hvalue.trans_le hbase.next_le) (hkeyCell ▸ hvalueCell ▸ hpass)
      rw [hkeyCell, hvalueCell] at hread
      have hsome : p.apply (base.cell key) (base.cell value) p.templates =
          some (read h' out) := by
        rw [ExprMapOperator.apply, if_pos hpass, hread]
      have hfirst : Emits h ([out], h') [read h' out] :=
        ⟨hextends, fun o hmem => by
          rw [mem_singleton.mp hmem]
          exact ⟨hbegun.key_lt, hbegun.value_lt⟩, rfl⟩
      simp only [heval, filterMap_cons, hsome]
      exact hfirst.append (ih (hbase.trans hextends) hrest)

/-- The rows that the groups add whose keys are not in the output. -/
def addedRows (containKey : Content φ V → Bool) (p : ExprMapOperator φ V)
    (rows : List (Content φ V × Content φ V)) : List (Content φ V × Content φ V) :=
  rows.filterMap fun row =>
    if containKey row.1 then none else p.apply row.1 row.2 p.templates

theorem emits_addGroups {groups : Partition} (hbase : base.Extends h)
    (hlt : ∀ group ∈ groups, group.1 < base.next ∧ ∀ value ∈ group.2, value < base.next) :
    Emits h (addGroups containKey p groups h)
      (addedRows containKey p (rowContents base groups)) := by
  induction groups generalizing h with
  | nil => exact Emits.nil (Heap.Extends.refl h)
  | cons group groups ih =>
    obtain ⟨⟨hkey, hvalues⟩, hrest⟩ := forall_mem_cons.mp hlt
    have hcons : rowContents base (group :: groups) =
        (group.2.map fun value => (base.cell group.1, base.cell value)) ++
          rowContents base groups := by
      rw [rowContents, Common.ungroup, flatMap_cons, map_append, map_map]
      rfl
    rw [addGroups, hbase.cell_eq _ hkey, hcons, addedRows, filterMap_append, filterMap_map]
    cases hcontained : containKey (base.cell group.1) with
    | true =>
      have hnone : group.2.filterMap ((fun row : Content φ V × Content φ V =>
          if containKey row.1 then none else p.apply row.1 row.2 p.templates) ∘
            fun value => (base.cell group.1, base.cell value)) = [] :=
        filterMap_eq_nil_iff.mpr fun value _ => if_pos hcontained
      rw [hnone, nil_append, if_pos rfl]
      exact ih hbase hrest
    | false =>
      have hall : group.2.filterMap ((fun row : Content φ V × Content φ V =>
          if containKey row.1 then none else p.apply row.1 row.2 p.templates) ∘
            fun value => (base.cell group.1, base.cell value)) =
          (group.2.map base.cell).filterMap (p.apply (base.cell group.1) · p.templates) := by
        rw [filterMap_map]
        refine filterMap_congr fun value _ => ?_
        exact if_neg (Bool.eq_false_iff.mp hcontained)
      have hfirst := emits_addGroup (p := p) hbase hkey hvalues
      rw [hall, if_neg Bool.false_ne_true]
      exact hfirst.append (ih (hbase.trans hfirst.keeps) hrest)

/-- As long as every row of a group is filtered out or its key is in the output, the map stays
empty. -/
theorem joinTmpGroup_empty {keyOf : Content φ V → κ} {group : ℕ × List ℕ} (hbase : base.Extends h)
    (hlt : group.1 < base.next ∧ ∀ value ∈ group.2, value < base.next)
    (hholds : ∀ value ∈ group.2, p.passes (base.cell group.1) (base.cell value) = true →
      containKey (base.cell group.1) = true) :
    joinTmpGroup keyOf containKey p group ([], h) = ([], h) := by
  obtain ⟨hkey, hvalues⟩ := hlt
  unfold joinTmpGroup
  rw [hbase.cell_eq _ hkey]
  split
  next => rfl
  next hnot =>
    have hadd : ∀ values : List ℕ, (∀ value ∈ values, value ∈ group.2) →
        addTmp keyOf p group.1 values ([], h) = ([], h) := by
      intro values hsub
      induction values with
      | nil => rfl
      | cons value values ih =>
        obtain ⟨hin, hrest⟩ := forall_mem_cons.mp hsub
        have hpass : p.passes (base.cell group.1) (base.cell value) = false :=
          Bool.eq_false_iff.mpr fun htrue => hnot (hholds value hin htrue)
        rw [addTmp, ExprMapOperator.evaluate_filtered hbase hkey (hvalues value hin) hpass]
        exact ih hrest
    exact hadd group.2 fun _ hin => hin

omit [DecidableEq φ] in
theorem mem_rowContents {groups : Partition} {group : ℕ × List ℕ} (hgroup : group ∈ groups)
    {value : ℕ} (hvalue : value ∈ group.2) :
    (h.cell group.1, h.cell value) ∈ rowContents h groups :=
  mem_map.mpr ⟨(group.1, value), mem_flatMap.mpr
    ⟨group, hgroup, mem_map_of_mem hvalue⟩, rfl⟩

theorem joinTmpSides_empty {keyOf : Content φ V → κ} {sides : List (Side φ V)}
    (hbase : base.Extends h) (hstored : ∀ side ∈ sides, Stored keyOf base side.1)
    (hholds : ∀ side ∈ sides, ∀ row ∈ rowContents base side.1,
      side.2.passes row.1 row.2 = true → containKey row.1 = true) :
    joinTmpSides keyOf containKey sides ([], h) = ([], h) := by
  unfold joinTmpSides
  induction sides with
  | nil => rfl
  | cons side sides ih =>
    obtain ⟨hside, hstored⟩ := forall_mem_cons.mp hstored
    obtain ⟨hrows, hholds⟩ := forall_mem_cons.mp hholds
    have hgroups : ∀ groups : Partition, (∀ group ∈ groups, group ∈ side.1) →
        groups.foldl (fun s group => joinTmpGroup keyOf containKey side.2 group s) ([], h) =
          ([], h) := by
      intro groups hsub
      induction groups with
      | nil => rfl
      | cons group groups ih =>
        obtain ⟨hin, hrest⟩ := forall_mem_cons.mp hsub
        rw [foldl_cons, joinTmpGroup_empty hbase (hside.lt group hin) fun value hvalue =>
          hrows _ (mem_rowContents hin hvalue)]
        exact ih hrest
    rw [foldl_cons, hgroups side.1 fun _ hin => hin]
    exact ih hstored hholds

end Added

/-! ## When an outer join is right -/

section Claim

variable {keyOf : Content φ V → κ} {containKey : Content φ V → Bool}

/-- Where the first side has all keys, no row is unmatched. -/
theorem unmatched_eq_nil {covered : List κ}
    {sides : List (List (Content φ V × Content φ V) × ExprMapOperator φ V)}
    (hcovered : ∀ side ∈ sides, ∀ row ∈ side.1, side.2.passes row.1 row.2 = true →
      keyOf row.1 ∈ covered) : unmatched keyOf covered sides = [] := by
  induction sides with
  | nil => rfl
  | cons side sides ih =>
    obtain ⟨hside, hrest⟩ := forall_mem_cons.mp hcovered
    have hnone : uncovered keyOf covered side.1 side.2 = [] := by
      refine filter_eq_nil_iff.mpr fun row hrow hkept => ?_
      obtain ⟨hpass, hnot⟩ := (Bool.and_eq_true _ _).mp hkept
      exact of_decide_eq_true hnot (hside row hrow hpass)
    rw [unmatched, hnone, flatMap_nil, map_nil, append_nil, nil_append]
    exact ih hrest

/-- Of one other upstream, the rows are added whose keys the first one does not have. -/
theorem addedRows_eq {covered : List κ} {p : ExprMapOperator φ V}
    {rows : List (Content φ V × Content φ V)} (hholds : ∀ row ∈ rows, p.passes row.1 row.2 = true →
      (containKey row.1 = true ↔ keyOf row.1 ∈ covered)) :
    addedRows containKey p rows = unmatched keyOf covered [(rows, p)] := by
  have hadded : addedRows containKey p rows =
      (uncovered keyOf covered rows p).map fun row =>
        p.outContents row.1 row.2 p.templates := by
    unfold addedRows uncovered
    induction rows with
    | nil => rfl
    | cons row rows ih =>
      obtain ⟨hrow, hrest⟩ := forall_mem_cons.mp hholds
      rw [filterMap_cons, filter_cons, ih hrest, ExprMapOperator.apply]
      cases hpass : p.passes row.1 row.2 with
      | false => simp
      | true =>
        have hiff := hrow hpass
        by_cases hin : keyOf row.1 ∈ covered
        · simp [hiff.mpr hin, hin]
        · have hnot : containKey row.1 = false := Bool.eq_false_iff.mpr (mt hiff.mp hin)
          simp [hnot, hin]
  rw [hadded, map_eq_flatMap, unmatched, unmatched, append_nil]
  rfl

/-- One row of the input, and one row of another upstream with this key. -/
def apart (key : ℕ) (hkey : key < 5) : Upstreams ℕ ℕ fun key => key 0 where
  heap := numbered
  input := [(0, [1])]
  sides := [([(key, [3])], sets 1)]
  input_lt := input_lt_numbered
  stored := fun side hside => by
    rw [List.mem_singleton.mp hside]
    refine ⟨fun group hgroup => ?_, List.nodup_singleton _⟩
    rw [List.mem_singleton.mp hgroup]
    refine ⟨hkey, fun value hvalue => ?_⟩
    rw [List.mem_singleton.mp hvalue]
    exact Nat.le_succ 4

end Claim

end Idgs.Rdd.Shared
