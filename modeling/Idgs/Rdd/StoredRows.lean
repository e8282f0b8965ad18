import Idgs.Rdd.Actions

/-!
# What a partition has stored

In an ordered map the rows are grouped by their keys. In an unordered one, which takes
`protobuf::sharedless` for an equality, a row is put to an earlier one whose key is greater and has
the same hash code; otherwise it makes a group of its own, also where its key is there.
-/

namespace Idgs.Rdd.RddActions

open List

open Common (ungroup valuesOf valuesOf_append valuesOf_ungroup)
open Protobuf (Descriptor Message StlHash Faithful)

variable {ν : Type} {d : Descriptor} {stl : StlHash} {S : Set (Message d)}

theorem stored_concat (persistType : PersistType) (rows : List (Message d × ν))
    (row : Message d × ν) :
    stored stl persistType (rows ++ [row]) =
      (stored stl persistType rows).bind fun p => p.persist stl persistType row.1 row.2 false := by
  unfold stored
  rw [foldlM_append]
  refine congrArg _ (funext fun p => ?_)
  rw [foldlM_cons]
  exact bind_pure _

/-! ## Ordered maps -/

/-- The groups are the rows by their keys. -/
structure Grouped (rows : List (Message d × ν)) (groups : List (Message d × List ν)) : Prop where
  values : ∀ k, valuesOf k (ungroup groups) = valuesOf k rows
  distinct : groups.Pairwise fun e e' => e.1 ≠ e'.1
  nonempty : ∀ e ∈ groups, e.2 ≠ []

variable {rows : List (Message d × ν)} {groups : List (Message d × List ν)}

theorem Grouped.perm (h : Grouped rows groups) : (ungroup groups).Perm rows :=
  Common.perm_of_valuesOf h.values

/-- In a list of distinct keys one entry of a key is all that there is. -/
theorem found_of_mem {m : List (Message d × List ν)} (hm : m.Pairwise fun e e' => e.1 ≠ e'.1)
    {k : Message d} {vs : List ν} (hvs : (k, vs) ∈ m) : ∀ ws, (k, ws) ∈ m ↔ some vs = some ws := by
  have hnodup : (m.map Prod.fst).Nodup := pairwise_map.mpr hm
  intro ws
  refine ⟨fun hws => ?_, fun heq => by rwa [← Option.some.inj heq]⟩
  exact congrArg (some ·.2) (inj_on_of_nodup_map hnodup hvs hws rfl)

/-- What is kept under a key in a list of distinct keys depends on the entries of the key only. -/
theorem valuesOf_congr {m m' : List (Message d × List ν)} (hm : m.Pairwise fun e e' => e.1 ≠ e'.1)
    (hm' : m'.Pairwise fun e e' => e.1 ≠ e'.1) {k : Message d}
    (h : ∀ vs, (k, vs) ∈ m ↔ (k, vs) ∈ m') :
    valuesOf k m = valuesOf k m' := by
  by_cases hsome : ∃ vs, (k, vs) ∈ m
  · obtain ⟨vs, hvs⟩ := hsome
    rw [Common.valuesOf_eq_toList hm (found_of_mem hm hvs),
      Common.valuesOf_eq_toList hm' (found_of_mem hm' ((h vs).mp hvs))]
  · have hnone : ∀ y ∈ m, y.1 ≠ k := fun y hy hkey => hsome ⟨y.2, by rw [← hkey]; exact hy⟩
    have hnone' : ∀ y ∈ m', y.1 ≠ k :=
      fun y hy hkey => hsome ⟨y.2, (h y.2).mpr (by rw [← hkey]; exact hy)⟩
    rw [Common.valuesOf_eq_nil hnone, Common.valuesOf_eq_nil hnone']

/-- All rows are stored, in groups of equal keys. -/
theorem stored_ordered (hS : ∀ k ∈ S, ∀ k' ∈ S, Faithful d k k') (stl : StlHash)
    (rows : List (Message d × ν)) (hrows : ∀ row ∈ rows, row.1 ∈ S) :
    ∃ p, stored stl .ordered rows = some p ∧ p.Keys S ∧ Grouped rows p.orderedDataMap := by
  have hagrees := PairRddPartition.sharedless_agrees hS
  induction rows using List.reverseRecOn with
  | nil =>
    refine ⟨{}, rfl, PairRddPartition.Keys.init, fun _ => rfl, List.Pairwise.nil, ?_⟩
    intro e he
    cases he
  | append_singleton rows row ih =>
    obtain ⟨p, hp, hkeys, hgrouped⟩ :=
      ih fun row' hrow' => hrows row' (mem_append_left _ hrow')
    have hkey : row.1 ∈ S := hrows row (mem_append_right _ mem_cons_self)
    obtain ⟨old, hold, hfound⟩ := Common.OrderedMap.find_eq hagrees hkeys.ordered hkey
    obtain ⟨m, hm, hsorted, hmem⟩ :=
      Common.OrderedMap.set_eq hagrees hkeys.ordered hkey (old.getD [] ++ [row.2])
    refine ⟨{ p with orderedDataMap := m }, ?_, ⟨hsorted, hkeys.unordered, hkeys.transformed⟩, ?_⟩
    · rw [stored_concat, hp, Option.bind_some, PairRddPartition.persist]
      simp only [hold, Option.bind_some, Bool.false_eq_true, if_false, hm, Option.map_some]
    · refine ⟨fun k => ?_, hsorted.distinct, fun e he => ?_⟩
      · show valuesOf k (ungroup m) = _
        rw [valuesOf_append, ← hgrouped.values, valuesOf_ungroup, valuesOf_ungroup]
        by_cases hk : row.1 = k
        · subst hk
          have hnew : ∀ vs, (row.1, vs) ∈ m ↔ some (old.getD [] ++ [row.2]) = some vs := by
            intro vs
            rw [hmem, Prod.mk.injEq, Option.some.injEq]
            constructor
            · rintro (⟨-, rfl⟩ | ⟨-, hne⟩)
              · rfl
              · exact absurd rfl hne
            · rintro rfl
              exact .inl ⟨rfl, rfl⟩
          rw [Common.valuesOf_eq_toList hsorted.distinct hnew,
            Common.valuesOf_eq_toList hkeys.ordered.distinct hfound]
          cases old <;> simp [valuesOf]
        · have hother : valuesOf k [row] = [] :=
            Common.valuesOf_eq_nil fun y hy => by rw [mem_singleton.mp hy]; exact hk
          rw [hother, append_nil, valuesOf_congr hsorted.distinct hkeys.ordered.distinct]
          intro vs
          rw [hmem]
          constructor
          · rintro (heq | ⟨hin, -⟩)
            · exact absurd (Prod.ext_iff.mp heq).1.symm hk
            · exact hin
          · exact fun hin => .inr ⟨hin, fun heq => hk heq.symm⟩
      · rcases (hmem e).mp he with rfl | ⟨hin, -⟩
        · exact append_ne_nil_of_right_ne_nil _ (cons_ne_nil _ _)
        · exact hgrouped.nonempty e hin

/-! ## Unordered maps -/

variable (stl) in
/-- The later of two rows is put to the earlier one. -/
def Merges (row row' : Message d × ν) : Prop :=
  Protobuf.HashCode.hashcode stl d row'.1 = Protobuf.HashCode.hashcode stl d row.1 ∧ row'.1 < row.1

variable (stl) in
/-- No row is put to another one. -/
def NoMerge (rows : List (Message d × ν)) : Prop :=
  rows.Pairwise fun row row' => ¬ Merges stl row row'

/-- The rows whose keys are not above `k`. -/
def upTo (k : Message d) (rows : List (Message d × ν)) : ℕ :=
  rows.countP fun row => decide (row.1 ≤ k)

variable (stl) in
/-- What is known of the groups: rows that are put to others have got greater keys, and without such
rows each row is a group. -/
structure Scattered (rows : List (Message d × ν)) (groups : List (Message d × List ν)) : Prop where
  keys : ∀ e ∈ groups, ∃ row ∈ rows, row.1 = e.1
  length : (ungroup groups).length = rows.length
  upTo_le : ∀ k, upTo k (ungroup groups) ≤ upTo k rows
  merged : ¬ NoMerge stl rows → ∃ k, upTo k (ungroup groups) < upTo k rows
  unmerged : NoMerge stl rows → groups = rows.map fun row => (row.1, [row.2])

theorem upTo_append (k : Message d) (xs ys : List (Message d × ν)) :
    upTo k (xs ++ ys) = upTo k xs + upTo k ys :=
  countP_append

theorem upTo_singleton (k k' : Message d) (v : ν) : upTo k [(k', v)] = if k' ≤ k then 1 else 0 := by
  unfold upTo
  rw [countP_cons, countP_nil, Nat.zero_add]
  by_cases hk : k' ≤ k <;> simp [hk]

theorem upTo_perm (k : Message d) {xs ys : List (Message d × ν)} (h : xs.Perm ys) :
    upTo k xs = upTo k ys :=
  h.countP_eq _

theorem ungroup_append (xs ys : List (Message d × List ν)) :
    ungroup (xs ++ ys) = ungroup xs ++ ungroup ys :=
  flatMap_append

theorem ungroup_singleton (k : Message d) (vs : List ν) : ungroup [(k, vs)] = vs.map (k, ·) := by
  rw [ungroup, flatMap_singleton]

/-- A value that is put to a group is one more row under the key of the group. -/
theorem ungroup_put_perm (before after : List (Message d × List ν)) (e : Message d × List ν)
    (v : ν) :
    (ungroup (before ++ (e.1, e.2 ++ [v]) :: after)).Perm
    (ungroup (before ++ e :: after) ++ [(e.1, v)]) := by
  have hgroup : ungroup ((e.1, e.2 ++ [v]) :: after) =
      ungroup [e] ++ ((e.1, v) :: ungroup after) := by
    rw [← singleton_append, ungroup_append, ungroup_singleton, ungroup_singleton,
      map_append, append_assoc]
    rfl
  have hold : ungroup (before ++ e :: after) = ungroup before ++ ungroup [e] ++ ungroup after := by
    rw [ungroup_append, ← singleton_append (l := after), ungroup_append, append_assoc]
  rw [ungroup_append, hgroup, hold, ← append_assoc]
  refine (perm_middle).trans ?_
  exact (perm_append_singleton _ _).symm

theorem Scattered.nil : Scattered stl ([] : List (Message d × ν)) [] where
  keys := by
    intro e he
    cases he
  length := rfl
  upTo_le k := Nat.le_refl _
  merged h := absurd List.Pairwise.nil h
  unmerged _ := rfl

/-- The next row makes a group or is put to one with a greater key. -/
theorem Scattered.concat {rows : List (Message d × ν)} {groups groups' : List (Message d × List ν)}
    (h : Scattered stl rows groups) (row : Message d × ν) (hcases :
      ((∀ e ∈ groups, Protobuf.HashCode.hashcode stl d row.1 =
        Protobuf.HashCode.hashcode stl d e.1 →
        ¬ row.1 < e.1) ∧ groups' = groups ++ [(row.1, [row.2])]) ∨
      ∃ before e after, groups = before ++ e :: after ∧
        Protobuf.HashCode.hashcode stl d row.1 = Protobuf.HashCode.hashcode stl d e.1 ∧
        row.1 < e.1 ∧
        groups' = before ++ (e.1, e.2 ++ [row.2]) :: after) :
    Scattered stl (rows ++ [row]) groups' := by
  have hrow : ∀ k, upTo k (rows ++ [row]) = upTo k rows + if row.1 ≤ k then 1 else 0 := by
    intro k
    rw [upTo_append, ← upTo_singleton k row.1 row.2]
  -- the new row of the groups, and its key
  have hnew : ∃ k', row.1 ≤ k' ∧
      (∀ k, upTo k (ungroup groups') = upTo k (ungroup groups) + if k' ≤ k then 1 else 0) ∧
      (∀ e ∈ groups', ∃ row' ∈ rows ++ [row], row'.1 = e.1) := by
    rcases hcases with ⟨-, rfl⟩ | ⟨before, e, after, rfl, -, hlt, rfl⟩
    · refine ⟨row.1, le_refl _, fun k => ?_, fun e he => ?_⟩
      · rw [ungroup_append, ungroup_singleton, upTo_append, map_singleton, upTo_singleton]
      · rcases mem_append.mp he with he | he
        · obtain ⟨row', hrow', hkey⟩ := h.keys e he
          exact ⟨row', mem_append_left _ hrow', hkey⟩
        · exact ⟨row, mem_append_right _ mem_cons_self, by rw [mem_singleton.mp he]⟩
    · refine ⟨e.1, hlt.le, fun k => ?_, fun e' he' => ?_⟩
      · rw [upTo_perm k (ungroup_put_perm before after e row.2), upTo_append, upTo_singleton]
      · have hold : ∃ e'' ∈ before ++ e :: after, e''.1 = e'.1 := by
          rcases mem_append.mp he' with he' | he'
          · exact ⟨e', mem_append_left _ he', rfl⟩
          · rcases mem_cons.mp he' with rfl | he'
            · exact ⟨e, mem_append_right _ mem_cons_self, rfl⟩
            · exact ⟨e', mem_append_right _ (mem_cons_of_mem _ he'), rfl⟩
        obtain ⟨e'', he'', hkey⟩ := hold
        obtain ⟨row', hrow', hkey'⟩ := h.keys e'' he''
        exact ⟨row', mem_append_left _ hrow', hkey'.trans hkey⟩
  obtain ⟨k', hle, hcount, hkeys⟩ := hnew
  have hstep : ∀ k, (if k' ≤ k then 1 else 0 : ℕ) ≤ if row.1 ≤ k then 1 else 0 := by
    intro k
    by_cases hk : k' ≤ k
    · rw [if_pos hk, if_pos (hle.trans hk)]
    · rw [if_neg hk]
      exact Nat.zero_le _
  refine ⟨hkeys, ?_, fun k => ?_, fun hmerge => ?_, fun hnone => ?_⟩
  · rw [length_append, ← h.length]
    rcases hcases with ⟨-, rfl⟩ | ⟨before, e, after, rfl, -, -, rfl⟩
    · rw [ungroup_append, ungroup_singleton, length_append]
      rfl
    · rw [(ungroup_put_perm before after e row.2).length_eq, length_append]
      rfl
  · rw [hrow, hcount]
    exact Nat.add_le_add (h.upTo_le k) (hstep k)
  · by_cases hbefore : NoMerge stl rows
    · -- the row is the first one that is put to another
      have hgroups := h.unmerged hbefore
      rcases hcases with ⟨hnot, -⟩ | ⟨before, e, after, heq, hhash, hlt, heq'⟩
      · refine absurd
          (pairwise_append.mpr ⟨hbefore, pairwise_singleton _ _, fun row' hrow' x hx =>
          ?_⟩) hmerge
        rw [mem_singleton.mp hx]
        rintro ⟨hhash, hlt⟩
        refine hnot (row'.1, [row'.2]) ?_ hhash hlt
        rw [hgroups]
        exact mem_map_of_mem hrow'
      · refine ⟨row.1, ?_⟩
        have hone := h.upTo_le row.1
        have hput := upTo_perm row.1 (ungroup_put_perm before after e row.2)
        rw [← heq, ← heq', upTo_append, upTo_singleton, if_neg (not_le_of_gt hlt)] at hput
        rw [hrow, if_pos (le_refl _)]
        omega
    · obtain ⟨k, hk⟩ := h.merged hbefore
      refine ⟨k, ?_⟩
      rw [hrow, hcount]
      have := hstep k
      omega
  · obtain ⟨hbefore, -, hcross⟩ := pairwise_append.mp hnone
    have hgroups := h.unmerged hbefore
    rcases hcases with ⟨-, rfl⟩ | ⟨before, e, after, heq, hhash, hlt, -⟩
    · rw [hgroups, map_append, map_singleton]
    · have he : e ∈ groups := heq ▸ mem_append_right _ mem_cons_self
      rw [hgroups] at he
      obtain ⟨row', hrow', rfl⟩ := mem_map.mp he
      exact absurd ⟨hhash, hlt⟩ (hcross row' hrow' row mem_cons_self)

/-- What an unordered map has made of the rows. -/
theorem stored_unordered (hS : ∀ k ∈ S, ∀ k' ∈ S, Faithful d k k') (stl : StlHash)
    (rows : List (Message d × ν)) (hrows : ∀ row ∈ rows, row.1 ∈ S) :
    ∃ p, stored stl .unordered rows = some p ∧ Scattered stl rows p.unorderedDataMap := by
  have hagrees := PairRddPartition.sharedless_agrees hS
  induction rows using List.reverseRecOn with
  | nil => exact ⟨{}, rfl, Scattered.nil⟩
  | append_singleton rows row ih =>
    have hrows' : ∀ row' ∈ rows, row'.1 ∈ S :=
      fun row' hrow' => hrows row' (mem_append_left _ hrow')
    obtain ⟨p, hp, hscattered⟩ := ih hrows'
    have hkey : row.1 ∈ S := hrows row (mem_append_right _ mem_cons_self)
    have hkeys : ∀ e ∈ p.unorderedDataMap, e.1 ∈ S := by
      intro e he
      obtain ⟨row', hrow', hkey'⟩ := hscattered.keys e he
      exact hkey' ▸ hrows' row' hrow'
    have hfound :=
      Common.HashedMap.find_set_cases (Protobuf.HashCode.hashcode stl d) hagrees hkeys hkey
    rcases hfound with ⟨hnone, hfind, hset⟩ | ⟨before, e, after, heq, hhash, hlt, hfind, hset⟩
    · refine ⟨{ p with unorderedDataMap := p.unorderedDataMap ++ [(row.1, [row.2])] }, ?_, ?_⟩
      · rw [stored_concat, hp, Option.bind_some, PairRddPartition.persist]
        simp only [hfind, Option.bind_some, Bool.false_eq_true, if_false, hset, Option.map_some,
          Option.getD_none, nil_append]
      · exact hscattered.concat row
          (.inl ⟨fun e he hhash => of_decide_eq_false (hnone e he hhash), rfl⟩)
    · refine ⟨{ p with unorderedDataMap := before ++ (e.1, e.2 ++ [row.2]) :: after }, ?_, ?_⟩
      · rw [stored_concat, hp, Option.bind_some, PairRddPartition.persist]
        simp only [hfind, Option.bind_some, Bool.false_eq_true, if_false, hset, Option.map_some,
          Option.getD_some]
      · exact hscattered.concat row
          (.inr ⟨before, e, after, heq, hhash, of_decide_eq_true hlt, rfl⟩)

end Idgs.Rdd.RddActions
