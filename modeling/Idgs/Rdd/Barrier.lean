import Idgs.Rdd.RowsMoved

/-!
# The barrier after a repartition

A partition reports itself ready when its actor has been told that all upstream RDDs are, and finds
its queue empty. Rows that come from another member travel on links of their own, so they may still
be on their way then. In runs in which that does not happen, in which no partition is transformed
twice and the persist type of an RDD does not change once something has reached it, a partition that
is ready has everything that it will ever get.
-/

namespace Idgs.Rdd

open Function List

namespace Evaluation

variable {ρ : Type*} {g : RddGraph ρ} {s : Evaluation ρ}

/-! ## A message leaves its queue -/

variable (s) in
/-- The first message of an actor is taken out of its queue. -/
def popped (a : Actor) (rest : List (Actor × Msg ρ)) : Evaluation ρ :=
  { s with msgQueue := Function.update s.msgQueue a rest }

theorem popped_msgQueue_self (a : Actor) (rest : List (Actor × Msg ρ)) :
    (s.popped a rest).msgQueue a = rest :=
  update_self ..

theorem popped_msgQueue_of_ne {a b : Actor} (hb : b ≠ a) (rest : List (Actor × Msg ρ)) :
    (s.popped a rest).msgQueue b = s.msgQueue b := update_of_ne hb ..

section Pop

variable {a src : Actor} {m : Msg ρ} {rest : List (Actor × Msg ρ)}
    (hqueue : s.msgQueue a = (src, m) :: rest)

include hqueue

theorem pending_of_popped {b : Actor} {x : Actor × Msg ρ} (hx : (s.popped a rest).Pending b x) :
    s.Pending b x := by
  refine hx.imp_left fun hmem => ?_
  by_cases hb : b = a
  · subst hb
    rw [hqueue]
    rw [popped_msgQueue_self] at hmem
    exact mem_cons_of_mem _ hmem
  · rwa [popped_msgQueue_of_ne hb] at hmem

theorem pending_popped {b : Actor} {x : Actor × Msg ρ} (hx : s.Pending b x)
    (hne : ¬ (b = a ∧ x = (src, m))) :
    (s.popped a rest).Pending b x := by
  refine hx.imp_left fun hmem => ?_
  by_cases hb : b = a
  · subst hb
    rw [popped_msgQueue_self]
    rw [hqueue] at hmem
    exact (mem_cons.mp hmem).resolve_left fun heq => hne ⟨rfl, heq⟩
  · rwa [popped_msgQueue_of_ne hb]

/-- The first message is pending. -/
theorem pending_head : s.Pending a (src, m) := by
  refine .inl ?_
  rw [hqueue]
  exact mem_cons_self

theorem pendingRows_popped (d p : ℕ) :
    s.pendingRows g d p = (s.popped a rest).pendingRows g d p + rowFor a m d p := by
  have hrows : (s.queuedRows d p : Multiset ρ) = ↑((s.popped a rest).queuedRows d p) +
      rowFor a m d p := by
    unfold queuedRows rowFor
    by_cases ha : a = .partition d p
    · subst ha
      rw [hqueue, if_pos rfl, popped_msgQueue_self]
      cases hm : m.row? with
      | none => simp [hm]
      | some row =>
        have hcons : (((src, m) :: rest).filterMap fun x => x.2.row?) =
            row :: rest.filterMap fun x => x.2.row? := by
          simp [hm]
        rw [hcons, add_comm, Option.toList_some, Multiset.coe_singleton, Multiset.singleton_add,
          Multiset.cons_coe]
    · rw [if_neg ha, popped_msgQueue_of_ne (Ne.symm ha), add_zero]
  unfold pendingRows
  rw [hrows]
  show ↑((s.popped a rest).queuedRows d p) + rowFor a m d p + ↑(s.rowsInFlight d p) +
      s.cachedRows g d p =
    ↑((s.popped a rest).queuedRows d p) + ↑(s.rowsInFlight d p) + s.cachedRows g d p +
    rowFor a m d p
  abel

/-- A message without rows is taken out. -/
theorem Core.popped (h : s.Core g) (hm : ∀ d p, rowFor a m d p = 0) : (s.popped a rest).Core g :=
  h.of_messages rfl rfl rfl rfl
    (fun d p => by rw [pendingRows_popped hqueue d p, hm d p, add_zero])
    fun _ _ hx => .inl (pending_of_popped hqueue hx)

/-- So is one that its actor has no handler for. -/
theorem Inv.dropped (h : s.Inv g) (hm : ∀ d p, rowFor a m d p = 0)
    (hsync : ∀ m' d, a = .service m' → m ≠ .persistTypeSync d) : (s.popped a rest).Inv g where
  toCore := h.toCore.popped hqueue hm
  told := h.told.of_pending rfl fun d m' _ =>
    ⟨pending_of_popped hqueue, fun hx => pending_popped hqueue hx fun heq =>
      hsync m' d heq.1.symm (congrArg Prod.snd heq.2).symm⟩

theorem Inv.popped (h : s.Inv g) (hm : m.plain = true) : (s.popped a rest).Inv g :=
  h.dropped hqueue (fun d p => rowFor_control (Msg.row?_of_plain hm) d p) fun _ d _ =>
    Msg.ne_of_plain hm d

end Pop

/-! ## The actor of a partition keeps the invariant -/

/-- Rows that are pushed or taken keep the invariant; one of them may have just left its queue. -/
theorem Inv.of_rowsMoved {s₀ s' : Evaluation ρ} {x : ℕ → ℕ → Multiset ρ} (h : s₀.Inv g)
    (hprogress : s.toRddProgress = s₀.toRddProgress) (hdata : s.dataMap = s₀.dataMap)
    (hsent : s.sent = s₀.sent) (hpassed : s.passed = s₀.passed)
    (hrows : ∀ d p, s₀.pendingRows g d p = s.pendingRows g d p + x d p)
    (hpending : ∀ a y, s.Pending a y → s₀.Pending a y)
    (hsync : ∀ d a src, s₀.Pending a (src, .persistTypeSync d) →
      s.Pending a (src, .persistTypeSync d))
    (hmoved : RowsMoved g x 0 s s') : s'.Inv g where
  progress := by
    rw [hmoved.progress, hprogress]
    exact h.progress
  justified := fun a y hy => by
    rw [hmoved.progress, hprogress]
    refine (hmoved.pending a y hy).elim (fun hold =>
      h.justified a y (hpending a y hold)) fun hrow => ?_
    rw [← hprogress]
    exact hrow.2
  clean := fun d p hfinal => by
    rw [hmoved.progress] at hfinal
    have hle := hmoved.clean d p hfinal
    rw [hprogress] at hfinal
    have hzero := h.clean d p hfinal
    rw [hrows] at hzero
    rw [(add_eq_zero.mp hzero).1] at hle
    exact Multiset.le_zero.mp hle
  stored := fun d p hnone => by
    rw [hmoved.progress] at hnone
    rw [hmoved.stored d p hnone, hdata]
    rw [hprogress] at hnone
    exact h.stored d p hnone
  conserved := fun d p hp => by
    have htaken : s₀.taken g d p = s.taken g d p := by
      unfold taken
      rw [hprogress, hdata, hpassed]
    have hold := h.conserved d p hp
    have hbalance := hmoved.balance d p
    rw [htaken, hrows, ← hsent] at hold
    refine add_right_cancel (b := (↑(s.sent d p) : Multiset ρ)) ?_
    calc _ = ↑(s'.taken g d p) + s'.pendingRows g d p + ↑(s.sent d p) + 0 := (add_zero _).symm
      _ = ↑(s.taken g d p) + s.pendingRows g d p + ↑(s'.sent d p) + x d p := hbalance
      _ = (↑(s.taken g d p) + (s.pendingRows g d p + x d p)) + ↑(s'.sent d p) := by abel
      _ = _ := by
        rw [hold]
        abel
  told := h.told.of_pending (hmoved.progress.trans hprogress) fun d a src => by
    refine ⟨fun hy => ?_, fun hy => hmoved.kept _ _ (hsync d _ src hy)⟩
    exact hpending _ _ ((hmoved.pending _ _ hy).resolve_right fun hrow => hrow.1 rfl)

/-- A partition takes a row. -/
theorem Inv.of_row {d p : ℕ} {src : Actor} {m : Msg ρ} {row : ρ} {rest : List (Actor × Msg ρ)}
    {s' : Evaluation ρ}
    (h : s.Inv g) (hqueue : s.msgQueue (.partition d p) = (src, m) :: rest) (hm : m.row? = some row)
    (hmoved : RowsMoved g (oneRow d p row) 0 (s.popped (.partition d p) rest) s') : s'.Inv g := by
  refine h.of_rowsMoved (s := s.popped (.partition d p) rest) rfl rfl rfl rfl (fun d' p' => ?_)
    (fun _ _ hy => pending_of_popped hqueue hy) (fun d' a src' hy => ?_) hmoved
  · rw [pendingRows_popped hqueue]
    congr 1
    unfold rowFor oneRow
    rw [hm]
    by_cases hd : d' = d ∧ p' = p
    · obtain ⟨rfl, rfl⟩ := hd
      rw [if_pos rfl, if_pos ⟨rfl, rfl⟩]
      rfl
    · rw [if_neg hd, if_neg]
      intro heq
      obtain ⟨rfl, rfl⟩ := Actor.partition.inj heq
      exact hd ⟨rfl, rfl⟩
  · refine pending_popped hqueue hy fun heq => ?_
    obtain ⟨-, rfl⟩ := Prod.mk.inj heq.2
    cases hm

/-- A row that waits for a partition means that the partition is not final. -/
theorem Inv.not_final_of_row {d p : ℕ} {src : Actor} {m : Msg ρ} {row : ρ}
    {rest : List (Actor × Msg ρ)}
    (h : s.Inv g) (hqueue : s.msgQueue (.partition d p) = (src, m) :: rest)
    (hm : m.row? = some row) :
    ¬ (s.Final g d p ∨ g.partitionSize ≤ p) := by
  intro hfinal
  have hzero := h.clean d p hfinal
  rw [pendingRows_popped hqueue, rowFor, if_pos rfl, hm] at hzero
  exact Multiset.singleton_ne_zero row (add_eq_zero.mp hzero).2

theorem RowsMoved.persistRow {d p : ℕ} (hpersist : s.persistType (g.primaryMember p) d ≠ .none)
    (row : ρ) :
    RowsMoved g (oneRow d p row) 0 s (persistRow g d p s row) := by
  unfold Evaluation.persistRow
  rw [if_neg hpersist]
  exact
    { progress := rfl
      stored := fun d' p' hnone => setEntry_of_ne (by
        rintro ⟨rfl, rfl⟩
        exact hpersist hnone)
      pending := fun _ _ h => .inl h
      kept := fun _ _ h => h
      clean := fun _ _ _ => le_rfl
      balance := fun d' p' => by
        unfold taken oneRow
        show (↑(if s.persistType (g.primaryMember p') d' = .none then s.passed d' p' else
            setEntry s.dataMap d p (s.dataMap d p ++ [row]) d' p') +
            s.pendingRows g d' p' + ↑(s.sent d' p') + 0 : Multiset ρ) = _
        by_cases hd : d' = d ∧ p' = p
        · obtain ⟨rfl, rfl⟩ := hd
          rw [if_neg hpersist, if_neg hpersist, if_pos ⟨rfl, rfl⟩, setEntry_self,
            ← Multiset.coe_add, Multiset.coe_singleton]
          abel
        · rw [if_neg hd, setEntry_of_ne hd] }

section

variable (h : s.Inv g)

include h

theorem Inv.handlePartitionStore {d p : ℕ} {src : Actor} {row : ρ} {rest : List (Actor × Msg ρ)}
    (hqueue : s.msgQueue (.partition d p) = (src, .partitionStore row) :: rest) :
    (persistRow g d p (s.popped (.partition d p) rest) row).Inv g :=
  h.of_row hqueue rfl (RowsMoved.persistRow (s := s.popped (.partition d p) rest)
    (h.justified _ _ (pending_head hqueue)) row)

theorem Inv.handleRePartition {d p : ℕ} {src : Actor} {row : ρ} {rest : List (Actor × Msg ρ)}
    (hqueue : s.msgQueue (.partition d p) = (src, .rePartition row) :: rest) :
    (handleRePartition g d p (s.popped (.partition d p) rest) row).Inv g := by
  refine h.of_row hqueue rfl ?_
  unfold Evaluation.handleRePartition
  split
  · rename_i hnone
    have hopen := h.not_final_of_row hqueue rfl
    have hp : p < g.partitionSize := by
      by_contra hle
      exact hopen (.inr (Nat.le_of_not_lt hle))
    have hnone' : s.persistType (g.primaryMember p) d = .none := hnone
    have hdone : ¬ s.Done g d p := by
      unfold RddProgress.Done
      rw [if_pos hnone']
      exact fun hreported => hopen (.inl (.inr hreported))
    refine RowsMoved.transformRow hnone (fun s' hs' e he out => ?_) row
    refine RowsMoved.processRow (by rw [hs']; exact h.progress) hp (by omega)
      (g.downstream_lt d e he) ?_ out
    rw [hs']
    exact open_of_not_done h.progress hp hdone he
  · rename_i hpersist
    exact RowsMoved.persistRow hpersist row

/-- A partition that is asked to transform stores its rows. -/
theorem Inv.persisted_of_transform {d p : ℕ} (hfinal : s.Final g d p)
    (hp : p < g.partitionSize) (hpersist : s.persistType (g.rddMember d) d ≠ .none) :
    s.persistType (g.primaryMember p) d ≠ .none := by
  intro hnone
  rcases hfinal with hdelegate | hreported
  · exact h.progress.delegate d hdelegate _ hnone
  · exact hpersist
      (h.progress.agree d p hp hreported _ (g.primary_mem p) _ (g.rddMember_mem d) hnone)

/-- A partition that is asked to transform for the first time is not done. -/
theorem Inv.not_done_of_transform {d p : ℕ} (hfinal : s.Final g d p)
    (hp : p < g.partitionSize)
    (hpersist : s.persistType (g.rddMember d) d ≠ .none) (hfirst : s.pushed d p = false) :
    ¬ s.Done g d p := by
  unfold RddProgress.Done
  rw [if_neg (h.persisted_of_transform hfinal hp hpersist), hfirst]
  exact Bool.false_ne_true

theorem Inv.handlePartitionTransform {d p : ℕ} (hp : p < g.partitionSize)
    (hfinal : s.Final g d p) (hpersist : s.persistType (g.rddMember d) d ≠ .none)
    (hfirst : s.pushed d p = false) : (handlePartitionTransform g d p s).Inv g := by
  have hmoved :=
    RowsMoved.transform h.progress hp (h.not_done_of_transform hfinal hp hpersist hfirst)
  have htransform : (Evaluation.transform g d p s).Inv g :=
    h.of_rowsMoved rfl rfl rfl rfl (fun _ _ => (add_zero _).symm) (fun _ _ hy =>
      hy) (fun _ _ _ hy => hy) hmoved
  have hfinal' : (Evaluation.transform g d p s).Final g d p := by
    rw [hmoved.progress]
    exact hfinal
  have hpushed := htransform.growProgress (htransform.progress.setPushed hfinal')
    (RddProgress.Grows.setPushed d p) rfl rfl
  unfold Evaluation.handlePartitionTransform
  dsimp only
  split
  · rename_i hdelegate
    have hstate := hpushed.setProgress (hpushed.progress.setOnePartition d p .transformComplete
      (fun _ => .inl (List.isEmpty_iff.mp hdelegate.1)) fun hs => by cases hs) rfl rfl rfl
    exact hstate.sendMessage rfl (setEntry_self ..)
  · exact hpushed.sendMessage rfl (setEntry_self ..)

end

/-! ## Steps without late rows -/

/-- Whether a message says that an RDD is to be persisted. -/
def isSyncOf (d : ℕ) : Msg ρ → Bool
  | .persistTypeSync d' => d' == d
  | _ => false

/-- A member is still to hear that RDD `d` is to be persisted. -/
def syncing (g : RddGraph ρ) (s : Evaluation ρ) (d : ℕ) : Bool :=
  (g.members.any fun m => (s.msgQueue (.service m)).any fun x => isSyncOf d x.2) ||
    s.inFlight.any fun x => isSyncOf d x.2

/-- No row is on its way to the partition, but for those in its queue. -/
def NoRowComing (g : RddGraph ρ) (s : Evaluation ρ) (d p : ℕ) : Prop :=
  s.rowsInFlight d p = [] ∧ ∀ i < g.partitionSize, ∀ x ∈ s.localCache d i, g.calcPartitionId x ≠ p

instance (s : Evaluation ρ) (d p : ℕ) : Decidable (NoRowComing g s d p) := by
  unfold NoRowComing
  infer_instance

/-- The steps of a run without late rows: a partition that reports itself ready has no row on its
way to it and no member is to hear that its RDD is to be persisted, no partition is transformed
twice, and an RDD begins to be persisted before any of its partitions has reported itself ready and
before those of the member have handed on a row. -/
def InTime (g : RddGraph ρ) (s : Evaluation ρ) : EvaluationStep → Prop
  | .handle (.partition d p) =>
    match s.msgQueue (.partition d p) with
    | [(_, .checkPartitionReady)] => NoRowComing g s d p ∧ syncing g s d = false
    | (_, .rddTransform) :: _ => s.pushed d p = false
    | _ => True
  | .handle (.service m) =>
    match s.msgQueue (.service m) with
    | (_, .persistTypeSync d) :: _ => s.persistType m d = .none →
        ∀ p < g.partitionSize, s.reported d p = false ∧
        (g.primaryMember p = m → s.passed d p = [])
    | _ => True
  | _ => True

instance (s : Evaluation ρ) (a : EvaluationStep) : Decidable (InTime g s a) := by
  unfold InTime
  split
  · split <;> infer_instance
  · split <;> infer_instance
  · infer_instance

theorem not_pending_of_syncing {d m : ℕ} (hm : m ∈ g.members) (h : syncing g s d = false)
    (src : Actor) :
    ¬ s.Pending (.service m) (src, .persistTypeSync d) := by
  have hd : isSyncOf d (.persistTypeSync d : Msg ρ) = true := beq_self_eq_true d
  obtain ⟨hqueues, hflight⟩ := Bool.or_eq_false_iff.mp h
  rintro (hmem | hmem)
  · have hnone := any_eq_false.mp hqueues m hm
    exact hnone (any_eq_true.mpr ⟨_, hmem, hd⟩)
  · exact any_eq_false.mp hflight _ hmem hd

theorem cachedRows_eq_zero {d p : ℕ}
    (h : ∀ i < g.partitionSize, ∀ x ∈ s.localCache d i, g.calcPartitionId x ≠ p) :
    s.cachedRows g d p = 0 := by
  refine Finset.sum_eq_zero fun i hi => Multiset.filter_eq_nil.mpr fun x hx => ?_
  exact h i (Finset.mem_range.mp hi) x (Multiset.mem_coe.mp hx)

theorem Inv.handleCheckPartitionReady {d p : ℕ} {src : Actor} {rest : List (Actor × Msg ρ)}
    (h : s.Inv g) (hqueue : s.msgQueue (.partition d p) = (src, .checkPartitionReady) :: rest)
    (hin : InTime g s (.handle (.partition d p))) :
    (handleCheckPartitionReady g d p src (s.popped (.partition d p) rest)).Inv g := by
  have hpop := h.popped hqueue rfl
  obtain ⟨hp, hcomplete⟩ := h.justified _ _ (pending_head hqueue)
  unfold Evaluation.handleCheckPartitionReady
  rw [popped_msgQueue_self]
  split
  · rename_i hrest
    subst hrest
    simp only [InTime, hqueue] at hin
    obtain ⟨⟨hflight, hcaches⟩, hsync⟩ := hin
    have hagree : ∀ m ∈ g.members, ∀ m' ∈ g.members, s.persistType m d = .none →
        s.persistType m' d = .none := by
      intro m hm m' hm' hnone
      by_contra hne
      obtain ⟨src', hsrc⟩ := h.told d m hm m' hm' hnone (.inl hne)
      exact not_pending_of_syncing hm hsync src' hsrc
    have hset := h.progress.setReported (p := p) hcomplete hagree
    refine Inv.sendMessage ?_ rfl ⟨hp, setEntry_self ..⟩
    exact
      { progress := hset
        justified :=
          fun a x hx => (RddProgress.Grows.setReported d p).justified (hpop.justified a x hx)
        clean := fun d' p' hfinal => by
          by_cases hd : d' = d ∧ p' = p
          · obtain ⟨rfl, rfl⟩ := hd
            show ↑((s.popped (.partition d' p') []).queuedRows d' p') +
              (↑(s.rowsInFlight d' p') : Multiset ρ) + s.cachedRows g d' p' = 0
            rw [queuedRows, popped_msgQueue_self, hflight, cachedRows_eq_zero hcaches]
            rfl
          · refine hpop.clean d' p' (hfinal.imp_left fun hf => hf.imp_right fun hreported => ?_)
            exact (setEntry_of_ne hd).symm.trans hreported
        stored := hpop.stored
        conserved := hpop.conserved
        told := hpop.told }
  · exact hpop.postMessage rfl ⟨hp, hcomplete⟩

/-- A new persist type does not matter for what has been done, if it comes before anything has
reached the RDD. -/
theorem done_setPersistType {l : RddProgress} {m d : ℕ} (h : l.Inv g)
    (hfirst : l.persistType m d = .none → ∀ p < g.partitionSize, l.reported d p = false) (u : ℕ)
    {i : ℕ} (hi : i < g.partitionSize) :
    ({ l with persistType := setEntry l.persistType m d .ordered } : RddProgress).Done g u i ↔
      l.Done g u i := by
  unfold RddProgress.Done
  by_cases hd : g.primaryMember i = m ∧ u = d
  · obtain ⟨hm, rfl⟩ := hd
    simp only [hm, setEntry_self]
    by_cases hnone : l.persistType m u = .none
    · have hreported := hfirst hnone i hi
      have hpushed : ¬ l.pushed u i = true := by
        intro hpushed
        rcases h.pushed u i hpushed with hdelegate | hreported'
        · exact h.delegate u hdelegate m hnone
        · rw [hreported] at hreported'
          cases hreported'
      simp [hnone, hreported, hpushed]
    · simp [hnone]
  · simp only [setEntry_of_ne hd]

theorem setPersistType_ne_none {t : ℕ → ℕ → PersistType} {m d m' d' : ℕ} (h : t m' d' ≠ .none) :
    setEntry t m d .ordered m' d' ≠ .none := by
  unfold setEntry
  split
  · exact fun heq => by cases heq
  · exact h

/-- The new persist type keeps what the actors know. -/
theorem progress_setPersistType {l : RddProgress} {m d : ℕ} (h : l.Inv g)
    (hfirst : l.persistType m d = .none → ∀ p < g.partitionSize, l.reported d p = false) :
    RddProgress.Grows g l { l with persistType := setEntry l.persistType m d .ordered } ∧
      ({ l with persistType := setEntry l.persistType m d .ordered } : RddProgress).Inv g := by
  have hgrows : RddProgress.Grows g l { l with
    persistType := setEntry l.persistType m d .ordered } :=
    { pushed := fun _ _ hpushed => hpushed
      reported := fun _ _ hreported => hreported
      done := fun u i hi hdone => (done_setPersistType h hfirst u hi).mpr hdone
      persistType := fun _ _ hne => setPersistType_ne_none hne }
  refine ⟨hgrows, ?_⟩
  exact
    { transformed := fun m' u hu => hgrows.complete (h.transformed m' u hu)
      ready := fun d' hd' => ⟨(h.ready d' hd').1, setPersistType_ne_none (h.ready d' hd').2⟩
      transformComplete := h.transformComplete
      partitionReady := fun d' p hp hd' => hgrows.done d' p hp (h.partitionReady d' p hp hd')
      pushed := h.pushed
      reported := fun d' p hd' u hu => hgrows.complete (h.reported d' p hd' u hu)
      agree := fun d' p hp hreported m₁ hm₁ m₂ hm₂ hnone => by
        have hnone₁ : l.persistType m₁ d' = .none := by
          by_contra hne
          exact setPersistType_ne_none hne hnone
        have hnone₂ := h.agree d' p hp hreported m₁ hm₁ m₂ hm₂ hnone₁
        show setEntry l.persistType m d .ordered m₂ d' = .none
        rw [setEntry_of_ne]
        · exact hnone₂
        · rintro ⟨rfl, rfl⟩
          rw [hfirst hnone₂ p hp] at hreported
          cases hreported
      delegate := fun d' hd' m' => setPersistType_ne_none (h.delegate d' hd' m')
      used := h.used }

theorem Inv.handlePersistTypeSync {m d : ℕ} {src : Actor} {rest : List (Actor × Msg ρ)}
    (h : s.Inv g) (hqueue : s.msgQueue (.service m) = (src, .persistTypeSync d) :: rest)
    (hin : InTime g s (.handle (.service m))) :
    (handlePersistTypeSync g m d src (s.popped (.service m) rest)).Inv g := by
  simp only [InTime, hqueue] at hin
  have hfirst : s.persistType m d = .none → ∀ p < g.partitionSize, s.reported d p = false :=
    fun hnone p hp => (hin hnone p hp).1
  obtain ⟨hgrows, hprogress⟩ := progress_setPersistType h.progress hfirst
  have hpop := h.toCore.popped hqueue fun d p => rowFor_control rfl d p
  refine Inv.sendMessage ?_ rfl ?_
  · exact
      { progress := hprogress
        justified := fun a x hx => hgrows.justified (hpop.justified a x hx)
        clean := hpop.clean
        stored := fun d' p hnone => h.stored d' p (by
          by_contra hne
          exact setPersistType_ne_none hne hnone)
        conserved := fun d' p hp => by
          refine Eq.trans (congrArg (· + _) ?_) (hpop.conserved d' p hp)
          refine congrArg _ ?_
          unfold taken
          show (if setEntry s.persistType m d .ordered (g.primaryMember p) d' = .none then _
              else _) =
            if s.persistType (g.primaryMember p) d' = .none then s.passed d' p else s.dataMap d' p
          by_cases hd : g.primaryMember p = m ∧ d' = d
          · obtain ⟨hm, rfl⟩ := hd
            rw [hm, setEntry_self, if_neg (by decide)]
            by_cases hnone : s.persistType m d' = .none
            · rw [if_pos hnone, (hin hnone p hp).2 hm]
              exact h.stored d' p (by rwa [hm])
            · rw [if_neg hnone]
              rfl
          · rw [setEntry_of_ne hd]
            rfl
        told := fun d' m₁ hm₁ m₂ hm₂ hnone hother => by
          have hnone₁ : s.persistType m₁ d' = .none := by
            by_contra hne
            exact setPersistType_ne_none hne hnone
          have hold : s.persistType m₂ d' ≠ .none ∨
              ∃ src', s.Pending (.service m₂) (src', .persistTypeSync d') := by
            rcases hother with hne | ⟨src', hsrc⟩
            · by_cases hd : m₂ = m ∧ d' = d
              · obtain ⟨rfl, rfl⟩ := hd
                exact .inr ⟨src, pending_head hqueue⟩
              · exact .inl fun heq => hne ((setEntry_of_ne hd).trans heq)
            · exact .inr ⟨src', pending_of_popped hqueue hsrc⟩
          obtain ⟨src', hsrc⟩ := h.told d' m₁ hm₁ m₂ hm₂ hnone₁ hold
          refine ⟨src', pending_popped hqueue hsrc ?_⟩
          rintro ⟨hm, hx⟩
          obtain rfl := Actor.service.inj hm
          obtain rfl := Msg.persistTypeSync.inj (congrArg Prod.snd hx)
          exact absurd ((setEntry_self ..).symm.trans hnone) (by decide) }
  · cases src with
    | _ => trivial

/-! ## Runs -/

theorem Inv.handleMessage {a src : Actor} {m : Msg ρ} {rest : List (Actor × Msg ρ)} (h : s.Inv g)
    (hqueue : s.msgQueue a = (src, m) :: rest) (hin : InTime g s (.handle a)) :
    (handleMessage g a src m (s.popped a rest)).Inv g := by
  have hj := h.justified _ _ (pending_head hqueue)
  cases a with
  | client => exact h.dropped hqueue (fun _ _ => if_neg (by simp)) (by simp)
  | rdd d =>
    cases m with
    | rddTransform => exact (h.popped hqueue rfl).handleRddTransform d src
    | partitionTransformComplete p =>
      exact (h.popped hqueue rfl).handlePartitionTransformComplete hj
    | upstreamRddReady => exact (h.popped hqueue rfl).handleUpstreamReady d hj
    | partitionReady p => exact (h.popped hqueue rfl).handlePartitionReady hj.1 hj.2
    | rddActionRequest action => exact (h.popped hqueue rfl).handleRddActionRequest d action
    | actionMessageProcess => exact (h.popped hqueue rfl).handleActionProcess d
    | rddTransformPrepared m => exact (h.popped hqueue rfl).handleRddTransformPrepared d m
    | checkPartitionReady | rePartition _ | partitionStore _ | persistTypeSync _ =>
      exact h.dropped hqueue (fun _ _ => if_neg (by simp)) (by simp)
  | partition d p =>
    cases m with
    | rddTransform =>
      have hfirst : s.pushed d p = false := by simpa only [InTime, hqueue] using hin
      exact (h.popped hqueue rfl).handlePartitionTransform hj.1 hj.2.1 hj.2.2 hfirst
    | checkPartitionReady => exact h.handleCheckPartitionReady hqueue hin
    | rePartition row => exact h.handleRePartition hqueue
    | partitionStore row => exact h.handlePartitionStore hqueue
    | rddActionRequest action =>
      have hpop := h.popped hqueue rfl
      exact hpop.setProgress (hpop.progress.setUsed hj) rfl rfl rfl
    | partitionTransformComplete _ | upstreamRddReady | partitionReady _ | actionMessageProcess
    | persistTypeSync _ | rddTransformPrepared _ =>
      exact h.dropped hqueue (fun d p => rowFor_control rfl d p) (by simp)
  | service m' =>
    cases m with
    | persistTypeSync d => exact h.handlePersistTypeSync hqueue hin
    | _ => exact h.dropped hqueue (fun _ _ => if_neg (by simp)) (by simp)

/-- A message arrives. -/
theorem Inv.deliver {src dst : Actor} {m : Msg ρ} {rest : List ((Actor × Actor) × Msg ρ)}
    (h : s.Inv g) (htake : Common.takeFirst (src, dst) s.inFlight = some (m, rest)) :
    ({ s with inFlight := rest }.putMessage src dst m).Inv g := by
  have hperm := Common.takeFirst_perm htake
  have hpending : ∀ a x, ({ s with inFlight := rest }.putMessage src dst m).Pending a x ↔
      s.Pending a x := by
    intro a x
    rw [pending_putMessage]
    unfold Pending
    rw [hperm.mem_iff, mem_cons, Prod.ext_iff, Prod.ext_iff, Prod.ext_iff]
    tauto
  have hrows : ∀ d p, ({ s with inFlight := rest }.putMessage src dst m).pendingRows g d p =
      s.pendingRows g d p := by
    intro d p
    have hflight : (s.rowsInFlight d p : Multiset ρ) =
        rowFor dst m d p +
        ↑(rest.filterMap fun x => if x.1.2 = .partition d p then x.2.row? else none) := by
      have hfilter := hperm.filterMap fun x => if x.1.2 = .partition d p then x.2.row? else none
      rw [rowsInFlight, Multiset.coe_eq_coe.mpr hfilter]
      unfold rowFor
      by_cases hd : dst = .partition d p
      · cases hm : m.row? with
        | none => simp [hd, hm]
        | some row => simp [hd, hm]
      · simp [hd]
    rw [pendingRows_putMessage]
    unfold pendingRows
    rw [hflight]
    show ↑(s.queuedRows d p) +
        ↑(rest.filterMap fun x => if x.1.2 = .partition d p then x.2.row? else none) +
      s.cachedRows g d p + rowFor dst m d p = _
    abel
  exact
    { toCore := h.toCore.of_messages rfl rfl rfl rfl hrows fun a x hx => .inl ((hpending a x).mp hx)
      told := h.told.of_pending rfl fun d m' src' => hpending _ _ }

theorem Inv.step {s' : Evaluation ρ} {a : EvaluationStep} (h : s.Inv g) (hin : InTime g s a)
    (hstep : step g s a = some s') : s'.Inv g := by
  cases a with
  | deliver src dst =>
    obtain ⟨r, htake, rfl⟩ := Option.map_eq_some_iff.mp hstep
    exact h.deliver htake
  | handle a =>
    cases hqueue : s.msgQueue a with
    | nil =>
      simp only [Evaluation.step, hqueue] at hstep
      cases hstep
    | cons x rest =>
      simp only [Evaluation.step, hqueue, Option.some.injEq] at hstep
      subst hstep
      exact h.handleMessage hqueue hin
  | action d action =>
    obtain rfl := Option.some.inj hstep
    refine
      { toCore := h.toCore.of_messages rfl rfl rfl rfl (fun d' p => ?_) fun a x hx => ?_
        told := h.told.of_pending rfl fun d' m src => ?_ }
    · rw [pendingRows_putMessage, rowFor_control rfl, add_zero]
    · refine (pending_putMessage.mp hx).imp_right ?_
      rintro ⟨rfl, rfl⟩
      trivial
    · rw [pending_putMessage, or_iff_left]
      rintro ⟨hservice, -⟩
      cases hservice

theorem inv_init (g : RddGraph ρ) : (init g).Inv g := by
  have hpending : ∀ a x, ¬ (init g).Pending a x := by
    rintro a x (hmem | hmem)
    · exact not_mem_nil hmem
    · exact not_mem_nil hmem
  have hrows : ∀ d p, (init g).pendingRows g d p = 0 := by
    intro d p
    show (0 : Multiset ρ) + 0 + (init g).cachedRows g d p = 0
    rw [cachedRows_eq_zero fun i _ x hx => absurd hx not_mem_nil]
    rfl
  have hprogress : (init g).toRddProgress.Inv g :=
    { transformed := fun m u hu => by cases hu
      ready := fun d hd => by
        have hdelegate : g.upstreamRdd d = [] := by
          by_contra hne
          have hfalse : g.isDelegateRdd d = false := by simpa [RddGraph.isDelegateRdd] using hne
          simp [init, hfalse] at hd
        exact ⟨fun p _ => .inl hdelegate, g.delegate_persisted d hdelegate⟩
      transformComplete := fun d p hd => by cases hd
      partitionReady := fun d p _ hd => by cases hd
      pushed := fun d p hd => by cases hd
      reported := fun d p hd => by cases hd
      agree := fun d p _ hd => by cases hd
      delegate := fun d hd m => g.delegate_persisted d hd
      used := fun d p hd => by cases hd }
  exact
    { progress := hprogress
      justified := fun a x hx => absurd hx (hpending a x)
      clean := fun d p _ => hrows d p
      stored := fun d p hnone => g.source_nil d p fun hdelegate =>
        g.delegate_persisted d hdelegate hnone
      conserved := fun d p _ => by
        rw [hrows, add_zero]
        unfold taken
        split
        · rename_i hnone
          have hsource := g.source_nil d p fun hdelegate => g.delegate_persisted d hdelegate hnone
          rw [hsource]
          rfl
        · exact (add_zero _).symm
      told := fun d m _ m' _ hnone hother => by
        rcases hother with hne | ⟨src, hsrc⟩
        · exact absurd hnone hne
        · exact absurd hsrc (hpending _ _) }

/-! ## The barrier -/

/-- A partition that has reported itself ready or was used by an action is to get no more rows; when
it reports itself ready it has stored, or handed on, all that was sent to it, and no partition of
its upstream RDDs sends more. -/
structure Barrier (g : RddGraph ρ) (s : Evaluation ρ) : Prop where
  noLateRow : ∀ d p, s.reported d p = true ∨ s.used d p = true → s.pendingRows g d p = 0
  stored : ∀ d, ∀ p < g.partitionSize, s.reported d p = true →
    (s.taken g d p : Multiset ρ) = ↑(g.source d p) + ↑(s.sent d p)
  upstreamDone : ∀ d p, s.reported d p = true → ∀ u ∈ g.upstreamRdd d, s.Complete g u

theorem Inv.barrier (h : s.Inv g) : Barrier g s where
  noLateRow := fun d p hready => by
    refine h.clean d p (.inl ?_)
    rcases hready with hreported | hused
    · exact .inr hreported
    · exact h.progress.used d p hused
  stored := fun d p hp hreported => by
    have hconserved := h.conserved d p hp
    rwa [h.clean d p (.inl (.inr hreported)), add_zero] at hconserved
  upstreamDone := h.progress.reported

/-- In every run without late rows the barrier holds. -/
theorem barrier_of_inTime {s : Evaluation ρ}
    (hrun : Common.Reaches (step g) (InTime g) (init g) s) :
    Barrier g s :=
  (hrun.invariant (P := Inv g) (inv_init g) fun _ _ _ h hin hstep => h.step hin hstep).barrier

/-! ## A row that comes too late -/

/-- A store delegate RDD with two rows in its first partition and an RDD that is grouped from it;
the partitions are on two members, the actors of the RDDs on a third one. -/
def grouped : RddGraph ℕ where
  rddSize := 2
  partitionSize := 2
  upstreamRdd := fun d => if d = 1 then [0] else []
  downstreamRdd := fun u => if u = 0 then [⟨1, fun _ rows => rows, fun _ row => [row]⟩] else []
  upstreamSync := fun _ => true
  repartition := fun d => d == 1
  group := fun d => d == 1
  batchMessage := 2
  calcPartitionId := fun row => row % 2
  members := [0, 1, 2]
  rddMember := fun _ => 0
  primaryMember := fun p => if p = 0 then 1 else 2
  persistType := fun _ => .ordered
  source := fun d p => if d = 0 ∧ p = 0 then [3, 4] else []
  upstream_iff := fun u d => by
    by_cases hd : d = 1
    · by_cases hu : u = 0
      · simp [hd, hu]
      · simp [hd, hu]
    · by_cases hu : u = 0
      · simp [hd, hu, Ne.symm hd]
      · simp [hd, hu]
  upstream_lt := fun u d h => by
    by_cases hd : d = 1
    · obtain rfl : u = 0 := by simpa [hd] using h
      omega
    · simp [hd] at h
  downstream_lt := fun u e he => by
    by_cases hu : u = 0
    · obtain rfl : e = ⟨1, fun _ rows => rows, fun _ row => [row]⟩ := by simpa [hu] using he
      decide
    · simp [hu] at he
  partition_lt := fun row => Nat.mod_lt row (by decide)
  rddMember_mem := by simp
  primary_mem := fun p => by
    by_cases hp : p = 0
    · simp [hp]
    · simp [hp]
  delegate_persisted := by simp
  param_persisted := by simp
  source_nil := fun d p hd => by
    by_cases h0 : d = 0
    · simp [h0] at hd
    · simp [h0]

/-- An action on the grouped RDD, up to the moment at which its actor asks its partitions whether
they are ready. -/
def askedForReady : List EvaluationStep :=
  [.action 1 7, .handle (.rdd 1), .handle (.rdd 1), .deliver (.rdd 1) (.rdd 0), .handle (.rdd 0),
    .deliver (.rdd 0) (.partition 0 0), .handle (.partition 0 0),
    .deliver (.partition 0 0) (.rdd 0),
    .handle (.rdd 0), .deliver (.rdd 0) (.partition 0 1), .handle (.partition 0 1),
    .deliver (.partition 0 1) (.rdd 0), .handle (.rdd 0), .handle (.rdd 1)]

/-- The row for the second partition is still on the link between the two members when the partition
is asked whether it is ready, and says so. -/
def lateRow : List EvaluationStep :=
  askedForReady ++ [.deliver (.rdd 1) (.partition 1 1), .handle (.partition 1 1)]

/-- In some run a partition reports itself ready while a row is on its way to it. -/
theorem not_barrier_of_run : ¬ ∀ s : Evaluation ℕ,
    Common.Reaches (step grouped) Common.anyStep (init grouped) s → Barrier grouped s := by
  intro hall
  have hend : ((Common.replay (step grouped) Common.anyStep (init grouped) lateRow).any fun s =>
      decide (s.reported 1 1 = true ∧ s.rowsInFlight 1 1 ≠ [])) = true := by
    decide +kernel
  obtain ⟨s, hs, hbad⟩ := (Option.any_eq_true _ _).mp hend
  obtain ⟨hreported, hflight⟩ := of_decide_eq_true hbad
  have hnone := (hall s (Common.reaches_of_replay hs)).noLateRow 1 1 (.inl hreported)
  have hzero := (add_eq_zero.mp (add_eq_zero.mp hnone).1).2
  exact hflight (Multiset.coe_eq_zero_iff_isEmpty _ |>.mp hzero |> List.isEmpty_iff.mp)

/-- The row arrives first, and the grouped RDD becomes ready. -/
def rowFirst : List EvaluationStep := askedForReady ++
  [.deliver (.partition 1 0) (.partition 1 1), .handle (.partition 1 1), .handle (.partition 1 0),
    .deliver (.rdd 1) (.partition 1 1), .handle (.partition 1 1),
    .deliver (.rdd 1) (.partition 1 0),
    .handle (.partition 1 0)]

theorem barrier_of_inTime_rowFirst : ∃ s : Evaluation ℕ,
    Common.Reaches (step grouped) (InTime grouped) (init grouped) s ∧
      s.reported 1 0 = true ∧ s.dataMap 1 0 = [4] ∧ s.reported 1 1 = true ∧ s.dataMap 1 1 = [3] ∧
      Barrier grouped s := by
  have hend : ((Common.replay (step grouped) (InTime grouped) (init grouped) rowFirst).any fun s =>
      decide (s.reported 1 0 = true ∧ s.dataMap 1 0 = [4] ∧ s.reported 1 1 = true ∧
        s.dataMap 1 1 = [3])) =
        true := by
    decide +kernel
  obtain ⟨s, hs, hgood⟩ := (Option.any_eq_true _ _).mp hend
  obtain ⟨hfirst, hfour, hsecond, hthree⟩ := of_decide_eq_true hgood
  exact ⟨s, Common.reaches_of_replay hs, hfirst, hfour, hsecond, hthree,
    barrier_of_inTime (Common.reaches_of_replay hs)⟩

end Evaluation

end Idgs.Rdd
