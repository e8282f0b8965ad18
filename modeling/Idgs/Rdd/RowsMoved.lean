import Idgs.Rdd.RddInvariant

/-!
# Pushing rows

Whatever becomes of a row that is pushed into a partition, it is sent once: to the partition of its
key, to the partition itself, or through a partition that hands it on. A batch of rows is kept in a
cache and sent later.
-/

namespace Idgs.Rdd

namespace Evaluation

variable {ρ : Type*} {g : RddGraph ρ} {s : Evaluation ρ}

/-- One row at one partition. -/
def oneRow (d p : ℕ) (row : ρ) : ℕ → ℕ → Multiset ρ :=
  fun d' p' => if d' = d ∧ p' = p then {row} else 0

variable (g) in
/-- Rows are taken, sent and cached, and nothing else changes: `x` are rows that came from
elsewhere, `y` rows that are not accounted for any more. -/
structure RowsMoved (x y : ℕ → ℕ → Multiset ρ) (s s' : Evaluation ρ) : Prop where
  progress : s'.toRddProgress = s.toRddProgress
  stored : ∀ d p, s.persistType (g.primaryMember p) d = .none → s'.dataMap d p = s.dataMap d p
  pending : ∀ a z, s'.Pending a z →
    s.Pending a z ∨ z.2.row? ≠ none ∧ s.toRddProgress.Justified g a z.1 z.2
  kept : ∀ a z, s.Pending a z → s'.Pending a z
  clean : ∀ d p, s.Final g d p ∨ g.partitionSize ≤ p → s'.pendingRows g d p ≤ s.pendingRows g d p
  balance : ∀ d p, ↑(s'.taken g d p) + s'.pendingRows g d p + ↑(s.sent d p) + y d p =
    (↑(s.taken g d p) + s.pendingRows g d p + ↑(s'.sent d p) + x d p : Multiset ρ)

theorem RowsMoved.refl (s : Evaluation ρ) : RowsMoved g 0 0 s s where
  progress := rfl
  stored := fun _ _ _ => rfl
  pending := fun _ _ h => .inl h
  kept := fun _ _ h => h
  clean := fun _ _ _ => le_rfl
  balance := fun _ _ => rfl

theorem RowsMoved.trans {x y x' y' : ℕ → ℕ → Multiset ρ} {s' s'' : Evaluation ρ}
    (h : RowsMoved g x y s s')
    (h' : RowsMoved g x' y' s' s'') : RowsMoved g (x + x') (y + y') s s'' where
  progress := h'.progress.trans h.progress
  stored := fun d p hnone => by
    rw [h'.stored d p (by rwa [h.progress]), h.stored d p hnone]
  pending := fun a z hz => (h'.pending a z hz).elim (h.pending a z) fun hrow => by
    rw [h.progress] at hrow
    exact .inr hrow
  kept := fun a z hz => h'.kept a z (h.kept a z hz)
  clean := fun d p hd => by
    refine (h'.clean d p ?_).trans (h.clean d p hd)
    rwa [h.progress]
  balance := fun d p => by
    have hfirst := h.balance d p
    have hsecond := h'.balance d p
    refine add_right_cancel (b := ↑(s'.taken g d p) + s'.pendingRows g d p + ↑(s'.sent d p)) ?_
    show ↑(s''.taken g d p) + s''.pendingRows g d p + ↑(s.sent d p) + (y d p + y' d p) +
        (↑(s'.taken g d p) + s'.pendingRows g d p + ↑(s'.sent d p)) =
      ↑(s.taken g d p) + s.pendingRows g d p + ↑(s''.sent d p) + (x d p + x' d p) +
        (↑(s'.taken g d p) + s'.pendingRows g d p + ↑(s'.sent d p))
    calc _ = (↑(s'.taken g d p) + s'.pendingRows g d p + ↑(s.sent d p) + y d p) +
          (↑(s''.taken g d p) + s''.pendingRows g d p + ↑(s'.sent d p) + y' d p) := by abel
      _ = (↑(s.taken g d p) + s.pendingRows g d p + ↑(s'.sent d p) + x d p) +
          (↑(s'.taken g d p) + s'.pendingRows g d p + ↑(s''.sent d p) + x' d p) := by
          rw [hfirst, hsecond]
      _ = _ := by abel

/-- What comes from elsewhere may be what is not accounted for. -/
theorem RowsMoved.cancel {x y z : ℕ → ℕ → Multiset ρ} {s' : Evaluation ρ}
    (h : RowsMoved g (x + z) (y + z) s s') : RowsMoved g x y s s' where
  __ := h
  balance := fun d p => by
    have hbalance := h.balance d p
    simp only [Pi.add_apply, ← add_assoc] at hbalance
    exact add_right_cancel hbalance

/-- A loop. -/
theorem RowsMoved.foldl {α : Type*} {f : Evaluation ρ → α → Evaluation ρ}
    {x : α → ℕ → ℕ → Multiset ρ}
    {l : List α} (h : ∀ s' : Evaluation ρ, s'.toRddProgress = s.toRddProgress → ∀ a ∈ l,
      RowsMoved g (x a) 0 s' (f s' a)) :
    RowsMoved g (l.map x).sum 0 s (l.foldl f s) := by
  induction l generalizing s with
  | nil => exact RowsMoved.refl s
  | cons a l ih =>
    have hhead := h s rfl a List.mem_cons_self
    have htail := ih (s := f s a) fun s' hs' b hb =>
      h s' (hs'.trans hhead.progress) b (List.mem_cons_of_mem _ hb)
    rw [List.map_cons, List.sum_cons, List.foldl_cons]
    exact hhead.trans htail

/-- A loop that loses nothing. -/
theorem RowsMoved.foldl_zero {α : Type*} {f : Evaluation ρ → α → Evaluation ρ} {l : List α}
    (h : ∀ s' : Evaluation ρ, s'.toRddProgress = s.toRddProgress →
      ∀ a ∈ l, RowsMoved g 0 0 s' (f s' a)) :
    RowsMoved g 0 0 s (l.foldl f s) := by
  have hsum := RowsMoved.foldl (x := fun _ => 0) h
  rwa [List.map_const', List.sum_replicate, nsmul_zero] at hsum

/-- The row is put down as sent. -/
theorem RowsMoved.noted (d p : ℕ) (row : ρ) :
    RowsMoved g 0 (oneRow d p row) s
    { s with sent := setEntry s.sent d p (s.sent d p ++ [row]) } where
  __ := RowsMoved.refl s
  balance := fun d' p' => by
    show ↑(s.taken g d' p') + s.pendingRows g d' p' + ↑(s.sent d' p') + oneRow d p row d' p' =
      (↑(s.taken g d' p') + s.pendingRows g d' p' +
        ↑(setEntry s.sent d p (s.sent d p ++ [row]) d' p') + 0 : Multiset ρ)
    unfold oneRow
    by_cases hd : d' = d ∧ p' = p
    · obtain ⟨rfl, rfl⟩ := hd
      rw [setEntry_self, if_pos ⟨rfl, rfl⟩, ← Multiset.coe_add, Multiset.coe_singleton]
      abel
    · rw [setEntry_of_ne hd, if_neg hd]

/-- A message with a row. -/
theorem RowsMoved.sendMessage {d p : ℕ} (hopen : ¬ s.Final g d p) (hp : p < g.partitionSize)
    (src : Actor) {m : Msg ρ} {row : ρ} (hm : m.row? = some row)
    (hj : s.toRddProgress.Justified g (.partition d p) src m) :
    RowsMoved g (oneRow d p row) 0 s (Evaluation.sendMessage g s src (.partition d p) m) where
  progress := sendMessage_toRddProgress ..
  stored := fun d' p' _ => by rw [sendMessage_dataMap]
  pending := fun a z hz => by
    refine (pending_sendMessage.mp hz).imp_right ?_
    rintro ⟨rfl, rfl⟩
    refine ⟨fun hnone => ?_, hj⟩
    rw [hm] at hnone
    cases hnone
  kept := fun a z hz => pending_sendMessage.mpr (.inl hz)
  clean := fun d' p' hd' => by
    rw [pendingRows_sendMessage, rowFor, if_neg, add_zero]
    intro heq
    obtain ⟨rfl, rfl⟩ := Actor.partition.inj heq
    rcases hd' with hfinal | hle
    · exact hopen hfinal
    · omega
  balance := fun d' p' => by
    have htaken : (Evaluation.sendMessage g s src (.partition d p) m).taken g d' p' =
        s.taken g d' p' := by
      unfold taken
      rw [sendMessage_toRddProgress, sendMessage_dataMap, sendMessage_passed]
    have hrow : rowFor (.partition d p) m d' p' = oneRow d p row d' p' := by
      unfold rowFor oneRow
      rw [hm]
      by_cases hd : d' = d ∧ p' = p
      · obtain ⟨rfl, rfl⟩ := hd
        rw [if_pos rfl, if_pos ⟨rfl, rfl⟩]
        rfl
      · rw [if_neg hd, if_neg]
        intro heq
        obtain ⟨rfl, rfl⟩ := Actor.partition.inj heq
        exact hd ⟨rfl, rfl⟩
    rw [htaken, pendingRows_sendMessage, sendMessage_sent, hrow]
    show _ + 0 = _
    abel

/-- The rows of one cache for a partition. -/
def fromCache (g : RddGraph ρ) (d : ℕ) (rows : List ρ) : ℕ → ℕ → Multiset ρ :=
  fun d' p' => if d' = d then (rows : Multiset ρ).filter fun x => g.calcPartitionId x = p' else 0

theorem cachedRows_setEntry {d i : ℕ} (hi : i < g.partitionSize) (rows : List ρ) (d' p' : ℕ) :
    ({ s with localCache := setEntry s.localCache d i rows } : Evaluation ρ).cachedRows g d' p' +
        fromCache g d (s.localCache d i) d' p' =
      s.cachedRows g d' p' + fromCache g d rows d' p' := by
  unfold cachedRows fromCache
  by_cases hd : d' = d
  · subst hd
    rw [if_pos rfl, if_pos rfl, ← Finset.add_sum_erase _ _ (Finset.mem_range.mpr hi),
      ← Finset.add_sum_erase (Finset.range g.partitionSize) (fun i' =>
      (s.localCache d' i' : Multiset ρ).filter
        fun x => g.calcPartitionId x = p') (Finset.mem_range.mpr hi)]
    have hrest : ∑ i' ∈ (Finset.range g.partitionSize).erase i,
        ((setEntry s.localCache d' i rows d' i' : List ρ) : Multiset ρ).filter (fun x =>
        g.calcPartitionId x = p') =
      ∑ i' ∈ (Finset.range g.partitionSize).erase i,
        (s.localCache d' i' : Multiset ρ).filter fun x => g.calcPartitionId x = p' := by
      refine Finset.sum_congr rfl fun i' hi' => ?_
      rw [setEntry_of_ne fun h => Finset.ne_of_mem_erase hi' h.2]
    rw [hrest]
    simp only [setEntry_self]
    abel
  · rw [if_neg hd, if_neg hd]
    refine congrArg (· + 0) (Finset.sum_congr rfl fun i' _ => ?_)
    simp only
    rw [setEntry_of_ne fun h => hd h.1]

/-- The rows of a cache are changed. -/
theorem RowsMoved.setCache {d i : ℕ} (hi : i < g.partitionSize) (hopen : ∀ p, ¬ s.Final g d p)
    (rows : List ρ) :
    RowsMoved g (fromCache g d rows) (fromCache g d (s.localCache d i)) s
      { s with localCache := setEntry s.localCache d i rows } where
  __ := RowsMoved.refl s
  clean := fun d' p' hd' => by
    have hcached := cachedRows_setEntry (s := s) (d := d) hi rows d' p'
    have hnone : fromCache g d rows d' p' = 0 := by
      unfold fromCache
      split
      · rename_i heq
        subst heq
        refine Multiset.filter_eq_nil.mpr fun x _ hx => ?_
        rcases hd' with hfinal | hle
        · exact hopen p' hfinal
        · have hlt := g.partition_lt x
          omega
      · rfl
    rw [hnone, add_zero] at hcached
    unfold pendingRows
    rw [← hcached]
    exact add_le_add le_rfl (Multiset.le_add_right _ _)
  balance := fun d' p' => by
    have hcached := cachedRows_setEntry (s := s) (d := d) hi rows d' p'
    unfold pendingRows
    generalize hc : cachedRows g { s with localCache := setEntry s.localCache d i rows } d' p' =
      c at hcached ⊢
    show ↑(s.taken g d' p') + (↑(s.queuedRows d' p') + ↑(s.rowsInFlight d' p') + c) +
        ↑(s.sent d' p') +
        fromCache g d (s.localCache d i) d' p' =
      ↑(s.taken g d' p') +
      (↑(s.queuedRows d' p') + ↑(s.rowsInFlight d' p') + s.cachedRows g d' p') +
        ↑(s.sent d' p') + fromCache g d rows d' p'
    calc _ = ↑(s.taken g d' p') + (↑(s.queuedRows d' p') + ↑(s.rowsInFlight d' p')) +
      ↑(s.sent d' p') +
          (c + fromCache g d (s.localCache d i) d' p') := by abel
      _ = ↑(s.taken g d' p') + (↑(s.queuedRows d' p') + ↑(s.rowsInFlight d' p')) + ↑(s.sent d' p') +
          (s.cachedRows g d' p' + fromCache g d rows d' p') := by rw [hcached]
      _ = _ := by abel

/-- The flag of a cache holds no rows. -/
theorem RowsMoved.setFlag (flags : ℕ → ℕ → Bool) :
    RowsMoved g 0 0 s { s with useRepartitionLocalCache := flags } where
  __ := RowsMoved.refl s

theorem fromCache_append (d : ℕ) (rows : List ρ) (row : ρ) :
    fromCache g d (rows ++ [row]) = fromCache g d rows + oneRow d (g.calcPartitionId row) row := by
  funext d' p'
  simp only [fromCache, oneRow, Pi.add_apply]
  by_cases hd : d' = d
  · rw [if_pos hd, if_pos hd, ← Multiset.coe_add, Multiset.filter_add, Multiset.coe_singleton]
    by_cases hp : p' = g.calcPartitionId row
    · rw [if_pos ⟨hd, hp⟩, Multiset.filter_singleton, if_pos hp.symm]
    · rw [if_neg fun h => hp h.2, Multiset.filter_singleton, if_neg (Ne.symm hp)]
      rfl
  · rw [if_neg hd, if_neg hd, if_neg fun h => hd h.1, add_zero]

theorem fromCache_eq_sum (d : ℕ) (rows : List ρ) :
    fromCache g d rows = (rows.map fun row => oneRow d (g.calcPartitionId row) row).sum := by
  induction rows using List.reverseRecOn with
  | nil =>
    funext d' p'
    unfold fromCache
    split <;> rfl
  | append_singleton rows row ih =>
    rw [fromCache_append, ih, List.map_append, List.sum_append]
    simp

section Push

variable {d i : ℕ} (hi : i < g.partitionSize) (hopen : ∀ p, ¬ s.Final g d p)

include hi hopen

omit hi in
theorem RowsMoved.sendRow (row : ρ) :
    RowsMoved g (oneRow d (g.calcPartitionId row) row) 0 s (sendRow g d i s row) :=
  RowsMoved.sendMessage (hopen _) (g.partition_lt row) _ rfl trivial

theorem RowsMoved.flushLocalCache : RowsMoved g 0 0 s (flushLocalCache g d i s) := by
  have hclear := RowsMoved.setCache (s := s) hi hopen []
  have hsend := RowsMoved.foldl (g := g) (f := Evaluation.sendRow g d i) (l := s.localCache d i)
    (s := { s with localCache := setEntry s.localCache d i [] })
    (x := fun row => oneRow d (g.calcPartitionId row) row) fun s' hs' row _ =>
      RowsMoved.sendRow (s := s') (fun p => by rw [hs']; exact hopen p) row
  rw [← fromCache_eq_sum] at hsend
  have hall := hclear.trans hsend
  have hnil : fromCache g d ([] : List ρ) = 0 := by
    rw [fromCache_eq_sum]
    rfl
  rw [hnil, add_zero, zero_add] at hall
  exact RowsMoved.cancel (z := fromCache g d (s.localCache d i)) (by rwa [zero_add])

theorem RowsMoved.repartitionRow (row : ρ) : RowsMoved g 0 0 s (repartitionRow g d i s row) := by
  have hnoted := RowsMoved.noted (g := g) (s := s) d (g.calcPartitionId row) row
  unfold Evaluation.repartitionRow
  extract_lets p s₁ s₂
  have hopen₁ : ∀ p, ¬ s₁.Final g d p := hopen
  split
  · have hcache := RowsMoved.setCache (s := s₁) hi hopen₁ (s₁.localCache d i ++ [row])
    rw [fromCache_append] at hcache
    have hall := hnoted.trans hcache
    have hmoved : RowsMoved g 0 0 s s₂ := by
      refine RowsMoved.cancel (z := oneRow d (g.calcPartitionId row) row +
        fromCache g d (s.localCache d i)) ?_
      rw [zero_add]
      rwa [zero_add, add_comm (fromCache g d _)] at hall
    split
    · have hflush := RowsMoved.flushLocalCache (s := s₂) hi hopen₁
      have hboth := hmoved.trans hflush
      rwa [add_zero] at hboth
    · exact hmoved
  · have hsend := RowsMoved.sendRow (s := s₁) (i := i) hopen₁ row
    have hall := hnoted.trans hsend
    refine RowsMoved.cancel (z := oneRow d (g.calcPartitionId row) row) ?_
    rw [zero_add]
    rwa [zero_add, add_zero] at hall

theorem RowsMoved.putRow (hpersist : s.persistType (g.primaryMember i) d ≠ .none) (row : ρ) :
    RowsMoved g 0 0 s (putRow g d i s row) := by
  have hnoted := RowsMoved.noted (g := g) (s := s) d i row
  have hsend := RowsMoved.sendMessage (g := g) (d := d) (p := i)
    (s := { s with sent := setEntry s.sent d i (s.sent d i ++ [row]) }) (hopen i) hi
    (.partition d i)
    (m := .partitionStore row) rfl hpersist
  have hall := hnoted.trans hsend
  refine RowsMoved.cancel (z := oneRow d i row) ?_
  rw [zero_add]
  rwa [zero_add, add_zero] at hall

end Push

/-- As long as a partition of an RDD is not done, the RDDs that take its rows are not ready. -/
theorem open_of_not_done (h : s.toRddProgress.Inv g) {u i : ℕ} (hi : i < g.partitionSize)
    (hdone : ¬ s.Done g u i) {e : Downstream ρ} (he : e ∈ g.downstreamRdd u) (p : ℕ) :
    ¬ s.Final g e.rdd p := by
  rintro (hnil | hreported)
  · exact g.not_delegate he hnil
  · exact hdone (h.reported _ p hreported u (g.mem_upstream he) i hi)

/-- A partition hands on a row that it has got. -/
theorem RowsMoved.transformRow {f : Evaluation ρ → ℕ → ρ → Evaluation ρ} {u i : ℕ}
    (hnone : s.persistType (g.primaryMember i) u = .none)
    (hf : ∀ s' : Evaluation ρ, s'.toRddProgress = s.toRddProgress → ∀ e ∈ g.downstreamRdd u, ∀ out,
      RowsMoved g 0 0 s' (f s' e.rdd out)) (row : ρ) :
    RowsMoved g (oneRow u i row) 0 s (transformRow g f i s u row) := by
  have htaken : RowsMoved g (oneRow u i row) 0 s
      { s with passed := setEntry s.passed u i (s.passed u i ++ [row]) } :=
    { __ := RowsMoved.refl s
      balance := fun d p => by
        unfold taken oneRow
        show (↑(if s.persistType (g.primaryMember p) d = .none then
            setEntry s.passed u i (s.passed u i ++ [row]) d p else s.dataMap d p) +
            s.pendingRows g d p + ↑(s.sent d p) + 0 : Multiset ρ) = _
        by_cases hd : d = u ∧ p = i
        · obtain ⟨rfl, rfl⟩ := hd
          rw [if_pos hnone, if_pos hnone, if_pos ⟨rfl, rfl⟩, setEntry_self, ← Multiset.coe_add,
            Multiset.coe_singleton]
          abel
        · rw [if_neg hd, setEntry_of_ne hd] }
  have hloop := RowsMoved.foldl_zero (g := g)
    (s := { s with passed := setEntry s.passed u i (s.passed u i ++ [row]) })
    (l := g.downstreamRdd u)
    (f := fun s e => if g.pushes u e then
      (e.transformRow (g.params s.dataMap e.rdd i) row).foldl (fun s out => f s e.rdd out) s else s)
    fun s' hs' e he => by
      split
      · exact RowsMoved.foldl_zero fun s'' hs'' out _ => hf s'' (hs''.trans hs') e he out
      · exact RowsMoved.refl s'
  have hall := htaken.trans hloop
  rwa [add_zero, add_zero] at hall

/-- Whatever becomes of a row, it is sent once. -/
theorem RowsMoved.processRow (h : s.toRddProgress.Inv g) {i : ℕ} (hi : i < g.partitionSize)
    {n d : ℕ}
    (hsize : g.rddSize ≤ d + n) (hd : d < g.rddSize) (hopen : ∀ p, ¬ s.Final g d p) (row : ρ) :
    RowsMoved g 0 0 s (processRow g i n s d row) := by
  induction n generalizing s d row with
  | zero => omega
  | succ n ih =>
    unfold Evaluation.processRow
    split
    · exact RowsMoved.repartitionRow hi hopen row
    · split
      · rename_i hnone
        have hnoted := RowsMoved.noted (g := g) (s := s) d i row
        have hdone : ¬ s.Done g d i := by
          unfold RddProgress.Done
          rw [if_pos hnone]
          exact fun hreported => hopen i (.inr hreported)
        have hpass :=
          RowsMoved.transformRow (g := g) (f := Evaluation.processRow g i n) (u := d) (i := i)
          (s := { s with sent := setEntry s.sent d i (s.sent d i ++ [row]) }) hnone
          (fun s' hs' e he out => by
            have hlt := g.lt_of_downstream he
            refine ih (s := s') (by rwa [hs']) (by omega) (g.downstream_lt d e he) ?_ out
            rw [hs']
            exact open_of_not_done h hi hdone he) row
        have hall := hnoted.trans hpass
        refine RowsMoved.cancel (z := oneRow d i row) ?_
        rw [zero_add]
        rwa [zero_add, add_zero] at hall
      · rename_i hpersist
        exact RowsMoved.putRow hi hopen hpersist row

/-- A partition pushes all its rows. -/
theorem RowsMoved.transform (h : s.toRddProgress.Inv g) {u i : ℕ} (hi : i < g.partitionSize)
    (hdone : ¬ s.Done g u i) : RowsMoved g 0 0 s (transform g u i s) := by
  refine RowsMoved.foldl_zero fun s' hs' e he => ?_
  split
  · have hopen : ∀ t : Evaluation ρ, t.toRddProgress = s'.toRddProgress →
      ∀ p, ¬ t.Final g e.rdd p := by
      intro t ht
      rw [ht, hs']
      exact open_of_not_done h hi hdone he
    have hrow : ∀ t : Evaluation ρ, t.toRddProgress = s'.toRddProgress → ∀ row,
        RowsMoved g 0 0 t (Evaluation.processRow g i g.rddSize t e.rdd row) := fun t ht row =>
      RowsMoved.processRow (by rwa [ht, hs']) hi (by omega) (g.downstream_lt u e he)
        (hopen t ht) row
    unfold transformInto
    dsimp only
    split
    · have hflag :=
        RowsMoved.setFlag (g := g) (s := s') (setEntry s'.useRepartitionLocalCache e.rdd i true)
      have hloop := RowsMoved.foldl_zero (g := g)
        (s := { s' with
          useRepartitionLocalCache := setEntry s'.useRepartitionLocalCache e.rdd i true })
        (f := fun s row => Evaluation.processRow g i g.rddSize s e.rdd row)
        (l := e.transform (g.params s'.dataMap e.rdd i) (s'.dataMap u i)) fun t ht row _ =>
          hrow t ht row
      have hflush := RowsMoved.flushLocalCache (g := g) hi
        (hopen _ (hloop.progress.trans hflag.progress))
      have hall := (hflag.trans hloop).trans hflush
      simpa only [add_zero] using hall
    · exact RowsMoved.foldl_zero fun t ht row _ => hrow t ht row
  · exact RowsMoved.refl s'

end Evaluation

end Idgs.Rdd
