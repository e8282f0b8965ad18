import Idgs.Rdd.Barrier

/-!
# Every row once

What comes out of a partition is sent to the downstream RDDs, and nothing else is. If no partition
is transformed twice, no row comes too late and a join gets rows only when what it looks up is
there, then every partition that is ready holds what the transformers make of the rows of its
upstream RDDs, each row taken once.
-/

namespace Idgs.Rdd

open List

namespace Evaluation

variable {ρ : Type*} {g : RddGraph ρ} {s : Evaluation ρ}

/-! ## What has come out of a partition -/

variable (g s) in
/-- What has come out of partition `i` of RDD `u` so far for one of its downstream RDDs. -/
def emitted (u i : ℕ) (e : Downstream ρ) : Multiset ρ :=
  if s.persistType (g.primaryMember i) u = .none then
    (↑(s.passed u i) : Multiset ρ).bind fun x => ↑(e.transformRow (g.params s.dataMap e.rdd i) x)
  else if s.pushed u i then ↑(e.transform (g.params s.dataMap e.rdd i) (s.dataMap u i))
  else 0

/-- The joins that take rows from partition `i` of RDD `u` find in their param RDDs all that there
will be. -/
def ParamsFinal (g : RddGraph ρ) (l : RddProgress) (u i : ℕ) : Prop :=
  ∀ e ∈ g.downstreamRdd u, g.pushes u e = true → g.upstreamSync e.rdd = false →
    ∀ w ∈ g.paramRdd e.rdd, l.Final g w i

variable (g s) in
/-- What was sent is what has come out of the partitions, and the joins found what they looked
up. -/
structure Once : Prop where
  sent : ∀ d p, (s.sent d p : Multiset ρ) = g.arriving (s.emitted g) d p
  paramsFinal : ∀ u i, s.pushed u i = true ∨ s.passed u i ≠ [] → ParamsFinal g s.toRddProgress u i

theorem ParamsFinal.mono {l l' : RddProgress}
    (hreported : ∀ d p, l.reported d p = true → l'.reported d p = true)
    {u i : ℕ} (h : ParamsFinal g l u i) : ParamsFinal g l' u i :=
  fun e he hpush hsync w hw => (h e he hpush hsync w hw).imp_right (hreported w i)

/-- Steps at which nothing is sent and nothing comes out. -/
theorem Once.of_emitted {s' : Evaluation ρ} (h : s.Once g) (hsent : s'.sent = s.sent)
    (hpassed : s'.passed = s.passed) (hpushed : s'.pushed = s.pushed)
    (hreported : ∀ d p, s.reported d p = true → s'.reported d p = true)
    (hemitted : ∀ u, ∀ e ∈ g.downstreamRdd u, g.pushes u e = true → ∀ i < g.partitionSize,
      s.emitted g u i e = s'.emitted g u i e) : s'.Once g where
  sent := fun d p => by
    rw [hsent, h.sent d p]
    exact RddGraph.arriving_congr fun u e he _ hpush i hi => hemitted u e he hpush i hi
  paramsFinal := fun u i hdone => by
    rw [hpushed, hpassed] at hdone
    exact (h.paramsFinal u i hdone).mono hreported

variable (s) in
/-- What evaluation has done with the rows. -/
def trace : ((ℕ → ℕ → Bool) × (ℕ → ℕ → Bool) × (ℕ → ℕ → PersistType)) ×
    ((ℕ → ℕ → List ρ) × (ℕ → ℕ → List ρ) × (ℕ → ℕ → List ρ)) :=
  ((s.pushed, s.reported, s.persistType), (s.dataMap, s.sent, s.passed))

theorem Once.of_trace {s' : Evaluation ρ} (h : s.Once g) (htrace : s'.trace = s.trace) :
    s'.Once g := by
  simp only [trace, Prod.mk.injEq] at htrace
  obtain ⟨⟨hpushed, hreported, hpersist⟩, hdata, hsent, hpassed⟩ := htrace
  refine h.of_emitted hsent hpassed hpushed (fun d p hd => by rwa [hreported]) fun u e _ _ i _ => ?_
  unfold emitted
  rw [hpersist, hpassed, hdata, hpushed]

/-! ## The actors of the RDDs do nothing with rows -/

@[simp] theorem trace_postMessage (src dst : Actor) (m : Msg ρ) :
    (s.postMessage src dst m).trace = s.trace := rfl

@[simp] theorem trace_sendMessage (src dst : Actor) (m : Msg ρ) :
    (sendMessage g s src dst m).trace = s.trace := by
  unfold sendMessage
  split <;> rfl

theorem trace_foldl {α : Type*} {f : Evaluation ρ → α → Evaluation ρ} {xs : List α}
    (hf : ∀ t : Evaluation ρ, ∀ x ∈ xs, (f t x).trace = t.trace) : (xs.foldl f s).trace = s.trace :=
  Common.foldl_invariant (fun t => t.trace = s.trace) (fun t x hx ht => (hf t x hx).trans ht) rfl

theorem trace_toPartitions {send : Evaluation ρ → Actor → Actor → Msg ρ → Evaluation ρ}
    (hsend : ∀ (t : Evaluation ρ) src dst m, (send t src dst m).trace = t.trace) (d : ℕ)
    (m : Msg ρ) :
    (toPartitions g send d m s).trace = s.trace :=
  trace_foldl fun t _ _ => hsend t _ _ m

section

variable (d : ℕ)

theorem trace_callUpstreamTransform : (callUpstreamTransform g d s).trace = s.trace :=
  trace_foldl fun _ _ _ => rfl

theorem trace_callDownstreamTransform (src : Actor) :
    (callDownstreamTransform g d src s).trace = s.trace :=
  trace_foldl fun _ _ _ => rfl

theorem trace_processRddReady : (processRddReady g d s).trace = s.trace := by
  unfold processRddReady
  dsimp only
  refine (trace_foldl fun t e _ => trace_sendMessage ..).trans ?_
  split
  · rfl
  · exact trace_sendMessage ..

theorem trace_startPrepared : (startPrepared g d s).trace = s.trace := by
  unfold startPrepared
  dsimp only
  split
  · exact trace_foldl fun _ _ _ => rfl
  · exact trace_callUpstreamTransform d

theorem trace_startReady : (startReady g d s).trace = s.trace := by
  unfold startReady
  exact trace_toPartitions (fun t src dst m => trace_postMessage src dst m) d .rddTransform

theorem trace_handleRddTransform (src : Actor) :
    (handleRddTransform g d src s).trace = s.trace := by
  unfold handleRddTransform
  cases s.rddState d with
  | init | created => rfl
  | prepared => exact (trace_callDownstreamTransform d src).trans (trace_startPrepared d)
  | ready => exact (trace_callDownstreamTransform d src).trans (trace_startReady d)
  | processing | transformComplete | error => rfl

end

theorem trace_handleRddTransformPrepared (d m : ℕ) :
    (handleRddTransformPrepared g d m s).trace = s.trace := by
  unfold handleRddTransformPrepared
  dsimp only
  split
  · exact trace_callUpstreamTransform d
  · rfl

theorem trace_handlePartitionTransformComplete (d p : ℕ) :
    (handlePartitionTransformComplete g d p s).trace = s.trace := by
  unfold handlePartitionTransformComplete
  dsimp only
  split
  · exact trace_processRddReady d
  · rfl

theorem trace_handlePartitionReady (d p : ℕ) : (handlePartitionReady g d p s).trace = s.trace := by
  unfold handlePartitionReady
  dsimp only
  split
  · split
    · exact trace_processRddReady d
    · rfl
  · split
    · exact trace_toPartitions (fun t src dst m => trace_sendMessage src dst m) d .rddTransform
    · rfl

theorem trace_handleUpstreamReady (d : ℕ) (src : Actor) :
    (handleUpstreamReady g d src s).trace = s.trace := by
  unfold handleUpstreamReady
  extract_lets upstreamReady paramReady s' first
  have hs' : s'.trace = s.trace := rfl
  split
  · exact hs'
  · split
    · exact (trace_toPartitions (fun t src dst m => trace_sendMessage src dst m) d _).trans hs'
    · exact hs'

theorem trace_handleRddActionRequest (d action : ℕ) :
    (handleRddActionRequest g d action s).trace = s.trace := by
  unfold handleRddActionRequest
  dsimp only
  split
  · rfl
  · split
    · exact trace_sendMessage ..
    · split
      · exact trace_sendMessage ..
      · rfl

theorem trace_handleActionProcess (d : ℕ) : (handleActionProcess g d s).trace = s.trace := by
  unfold handleActionProcess
  dsimp only
  split
  · exact trace_foldl fun t action _ =>
      trace_toPartitions (fun t src dst m => trace_postMessage src dst m) d
        (.rddActionRequest action)
  · rfl

/-- Whatever the actor of an RDD does. -/
theorem trace_handleMessage_rdd (d : ℕ) (src : Actor) (m : Msg ρ) :
    (handleMessage g (.rdd d) src m s).trace = s.trace := by
  cases m with
  | rddTransform => exact trace_handleRddTransform d src
  | partitionTransformComplete p => exact trace_handlePartitionTransformComplete d p
  | upstreamRddReady => exact trace_handleUpstreamReady d src
  | partitionReady p => exact trace_handlePartitionReady d p
  | rddActionRequest action => exact trace_handleRddActionRequest d action
  | actionMessageProcess => exact trace_handleActionProcess d
  | rddTransformPrepared m => exact trace_handleRddTransformPrepared d m
  | checkPartitionReady | rePartition _ | partitionStore _ | persistTypeSync _ => rfl

/-! ## Rows that are supplied -/

/-- The rows put into partition `i` of RDD `d`, by the partitions that they go to. -/
def supply (g : RddGraph ρ) (d i : ℕ) (rows : Multiset ρ) : ℕ → ℕ → Multiset ρ :=
  fun d' p => if d' = d then g.toPartition d i p rows else 0

theorem supply_eq_sum (d i : ℕ) (rows : List ρ) :
    supply g d i ↑rows = (rows.map fun row => supply g d i {row}).sum := by
  funext d' p
  induction rows with
  | nil =>
    show (if d' = d then g.toPartition d i p 0 else 0) = 0
    rw [RddGraph.toPartition_zero, ite_self]
  | cons row rows ih =>
    rw [map_cons, sum_cons, Pi.add_apply, Pi.add_apply, ← ih, ← Multiset.cons_coe,
      ← Multiset.singleton_add]
    unfold supply
    split
    · exact g.toPartition_add d i p {row} ↑rows
    · rfl

/-- What partition `i` of RDD `u` supplies if `rows e` comes out of it. -/
def handedOn (g : RddGraph ρ) (u i : ℕ) (rows : Downstream ρ → Multiset ρ) : ℕ → ℕ → Multiset ρ :=
  ((g.downstreamRdd u).map fun e => if g.pushes u e then supply g e.rdd i (rows e) else 0).sum

theorem handedOn_apply (u i : ℕ) (rows : Downstream ρ → Multiset ρ) (d p : ℕ) :
    handedOn g u i rows d p = ((g.downstreamRdd u).map fun e =>
      if e.rdd = d ∧ g.pushes u e = true then g.toPartition d i p (rows e) else 0).sum := by
  unfold handedOn
  induction g.downstreamRdd u with
  | nil => rfl
  | cons e es ih =>
    rw [map_cons, map_cons, sum_cons, sum_cons, Pi.add_apply, Pi.add_apply, ih]
    congr 1
    by_cases hpush : g.pushes u e = true
    · rw [if_pos hpush]
      unfold supply
      by_cases hd : d = e.rdd
      · rw [if_pos hd, if_pos ⟨hd.symm, hpush⟩, hd]
      · rw [if_neg hd, if_neg fun h => hd h.1.symm]
    · rw [if_neg hpush, if_neg fun h => hpush h.2]
      rfl

/-- If more comes out of one partition, that much more arrives. -/
theorem arriving_of_handedOn {out out' : ℕ → ℕ → Downstream ρ → Multiset ρ} {u i : ℕ}
    (hi : i < g.partitionSize) (rows : Downstream ρ → Multiset ρ)
    (hout : ∀ u' i' e, out' u' i' e = out u' i' e + if u' = u ∧ i' = i then rows e else 0)
    (d p : ℕ) :
    g.arriving out' d p = g.arriving out d p + handedOn g u i rows d p := by
  have hfun : out' = fun u' i' e => out u' i' e + if u' = u ∧ i' = i then rows e else 0 := by
    funext u' i' e
    exact hout u' i' e
  rw [hfun, RddGraph.arriving_add, RddGraph.arriving_single hi, handedOn_apply]

variable (g) in
/-- Rows are sent on, of which `x` came from elsewhere. -/
structure Supplied (x : ℕ → ℕ → Multiset ρ) (s s' : Evaluation ρ) : Prop where
  progress : s'.toRddProgress = s.toRddProgress
  dataMap : s'.dataMap = s.dataMap
  balance : ∀ d p, ↑(s'.sent d p) + g.arriving (s.emitted g) d p =
    (↑(s.sent d p) + g.arriving (s'.emitted g) d p + x d p : Multiset ρ)
  paramsFinal : ∀ u i, s'.passed u i ≠ [] → s.passed u i ≠ [] ∨ ParamsFinal g s.toRddProgress u i

/-- Caches and messages do not matter. -/
theorem Supplied.of_eq {s' : Evaluation ρ} (hprogress : s'.toRddProgress = s.toRddProgress)
    (hdata : s'.dataMap = s.dataMap) (hsent : s'.sent = s.sent) (hpassed : s'.passed = s.passed) :
    Supplied g 0 s s' where
  progress := hprogress
  dataMap := hdata
  balance := fun d p => by
    have hemitted : s'.emitted g = s.emitted g := by
      funext u i e
      unfold emitted
      rw [hprogress, hdata, hpassed]
    rw [hemitted, hsent]
    exact (add_zero _).symm
  paramsFinal := fun u i h => by
    rw [hpassed] at h
    exact .inl h

theorem Supplied.refl (s : Evaluation ρ) : Supplied g 0 s s := .of_eq rfl rfl rfl rfl

theorem Supplied.trans {x x' : ℕ → ℕ → Multiset ρ} {s' s'' : Evaluation ρ} (h : Supplied g x s s')
    (h' : Supplied g x' s' s'') : Supplied g (x + x') s s'' where
  progress := h'.progress.trans h.progress
  dataMap := h'.dataMap.trans h.dataMap
  balance := fun d p => by
    refine add_right_cancel (b := ↑(s'.sent d p) + g.arriving (s'.emitted g) d p) ?_
    show ↑(s''.sent d p) + g.arriving (s.emitted g) d p +
        (↑(s'.sent d p) + g.arriving (s'.emitted g) d p) =
      ↑(s.sent d p) + g.arriving (s''.emitted g) d p + (x d p + x' d p) +
        (↑(s'.sent d p) + g.arriving (s'.emitted g) d p)
    calc _ = (↑(s''.sent d p) + g.arriving (s'.emitted g) d p) +
          (↑(s'.sent d p) + g.arriving (s.emitted g) d p) := by abel
      _ = (↑(s'.sent d p) + g.arriving (s''.emitted g) d p + x' d p) +
          (↑(s.sent d p) + g.arriving (s'.emitted g) d p + x d p) := by rw [h'.balance, h.balance]
      _ = _ := by abel
  paramsFinal := fun u i hpassed => by
    rcases h'.paramsFinal u i hpassed with hold | hparams
    · exact h.paramsFinal u i hold
    · rw [h.progress] at hparams
      exact .inr hparams

/-- A loop. -/
theorem Supplied.foldl {α : Type*} {f : Evaluation ρ → α → Evaluation ρ}
    {x : α → ℕ → ℕ → Multiset ρ} {l : List α}
    (h : ∀ s' : Evaluation ρ, s'.toRddProgress = s.toRddProgress → s'.dataMap = s.dataMap →
      ∀ a ∈ l, Supplied g (x a) s' (f s' a)) :
    Supplied g (l.map x).sum s (l.foldl f s) := by
  induction l generalizing s with
  | nil => exact Supplied.refl s
  | cons a l ih =>
    have hhead := h s rfl rfl a mem_cons_self
    have htail := ih (s := f s a) fun s' hs' hdata b hb =>
      h s' (hs'.trans hhead.progress) (hdata.trans hhead.dataMap) b (mem_cons_of_mem _ hb)
    rw [map_cons, sum_cons, foldl_cons]
    exact hhead.trans htail

/-- The loop over the downstream RDDs of a partition. -/
theorem Supplied.downstream {f : Evaluation ρ → Downstream ρ → Evaluation ρ} {u i : ℕ}
    {x : Downstream ρ → Multiset ρ}
    (h : ∀ s' : Evaluation ρ, s'.toRddProgress = s.toRddProgress → s'.dataMap = s.dataMap →
      ∀ e ∈ g.downstreamRdd u, g.pushes u e = true → Supplied g (supply g e.rdd i (x e)) s'
      (f s' e)) :
    Supplied g (handedOn g u i x) s
      ((g.downstreamRdd u).foldl (fun s e => if g.pushes u e then f s e else s) s) := by
  refine Supplied.foldl fun s' hs' hdata e he => ?_
  by_cases hpush : g.pushes u e = true
  · rw [if_pos hpush, if_pos hpush]
    exact h s' hs' hdata e he hpush
  · rw [if_neg hpush, if_neg hpush]
    exact Supplied.refl s'

/-- The row is put down as sent. -/
theorem Supplied.noted {d i : ℕ} {row : ρ} {p : ℕ}
    (hto : ∀ p', g.toPartition d i p' {row} = if p' = p then {row} else 0) :
    Supplied g (supply g d i {row}) s
    { s with sent := setEntry s.sent d p (s.sent d p ++ [row]) } where
  progress := rfl
  dataMap := rfl
  balance := fun d' p' => by
    show ↑(setEntry s.sent d p (s.sent d p ++ [row]) d' p') + g.arriving (s.emitted g) d' p' =
      (↑(s.sent d' p') + g.arriving (s.emitted g) d' p' + supply g d i {row} d' p' : Multiset ρ)
    unfold supply
    rw [hto]
    by_cases hd : d' = d ∧ p' = p
    · obtain ⟨rfl, rfl⟩ := hd
      rw [setEntry_self, if_pos rfl, if_pos rfl, ← Multiset.coe_add, Multiset.coe_singleton]
      abel
    · rw [setEntry_of_ne hd]
      by_cases hd' : d' = d
      · rw [if_pos hd', if_neg fun hp => hd ⟨hd', hp⟩, add_zero]
      · rw [if_neg hd', add_zero]
  paramsFinal := fun _ _ h => .inl h

theorem Supplied.sendRow (d i : ℕ) (row : ρ) : Supplied g 0 s (sendRow g d i s row) :=
  .of_eq (sendMessage_toRddProgress ..) (sendMessage_dataMap ..) (sendMessage_sent ..)
    (sendMessage_passed ..)

theorem Supplied.flushLocalCache (d i : ℕ) : Supplied g 0 s (flushLocalCache g d i s) := by
  have hclear : Supplied g 0 s { s with localCache := setEntry s.localCache d i [] } :=
    .of_eq rfl rfl rfl rfl
  have hloop := Supplied.foldl (g := g) (f := Evaluation.sendRow g d i) (l := s.localCache d i)
    (s := { s with localCache := setEntry s.localCache d i [] }) (x := fun _ => 0)
    fun s' _ _ row _ => Supplied.sendRow (s := s') d i row
  rw [map_const', sum_replicate, nsmul_zero] at hloop
  have hall := hclear.trans hloop
  rwa [add_zero] at hall

theorem Supplied.repartitionRow {d : ℕ} (hrepartition : g.repartition d = true) (i : ℕ) (row : ρ) :
    Supplied g (supply g d i {row}) s (repartitionRow g d i s row) := by
  have hnoted : Supplied g (supply g d i {row}) s { s with
      sent := setEntry s.sent d (g.calcPartitionId row)
        (s.sent d (g.calcPartitionId row) ++ [row]) } :=
    Supplied.noted fun p' => by
      unfold RddGraph.toPartition
      rw [if_pos hrepartition, Multiset.filter_singleton]
      by_cases hp : p' = g.calcPartitionId row
      · rw [if_pos hp, if_pos hp.symm]
      · rw [if_neg hp, if_neg (Ne.symm hp)]
        rfl
  unfold Evaluation.repartitionRow
  extract_lets p s₁ s₂
  split
  · have hcache : Supplied g 0 s₁ s₂ := .of_eq rfl rfl rfl rfl
    have hsecond := hnoted.trans hcache
    rw [add_zero] at hsecond
    split
    · have hall := hsecond.trans (Supplied.flushLocalCache d i)
      rwa [add_zero] at hall
    · exact hsecond
  · have hall := hnoted.trans (Supplied.sendRow d i row)
    rwa [add_zero] at hall

/-- A row that is put into a partition of an RDD that does not repartition stays there. -/
theorem toPartition_of_local {d : ℕ} (hlocal : ¬ g.repartition d = true) (i : ℕ) (row : ρ) (p : ℕ) :
    g.toPartition d i p {row} = if p = i then {row} else 0 := by
  unfold RddGraph.toPartition
  rw [if_neg hlocal]
  by_cases hp : p = i
  · rw [if_pos hp, if_pos hp.symm]
  · rw [if_neg hp, if_neg (Ne.symm hp)]

theorem Supplied.putRow {d : ℕ} (hlocal : ¬ g.repartition d = true) (i : ℕ) (row : ρ) :
    Supplied g (supply g d i {row}) s (putRow g d i s row) := by
  have hnoted := Supplied.noted (s := s) (toPartition_of_local hlocal i row)
  have hsend : Supplied g 0 { s with sent := setEntry s.sent d i (s.sent d i ++ [row]) }
      (Evaluation.putRow g d i s row) :=
    .of_eq (sendMessage_toRddProgress ..) (sendMessage_dataMap ..) (sendMessage_sent ..)
      (sendMessage_passed ..)
  have hall := hnoted.trans hsend
  rwa [add_zero] at hall

/-! ## Joins that are ready -/

/-- Whether the joins that get rows if partition `i` of RDD `u` hands on rows, or partitions that
hand them on in turn, find in their param RDDs all that there will be. -/
def joinsReady (g : RddGraph ρ) (l : RddProgress) (i : ℕ) : ℕ → ℕ → Bool
  | 0, _ => true
  | n + 1, u => (g.downstreamRdd u).all fun e => !g.pushes u e ||
      (g.upstreamSync e.rdd || (g.paramRdd e.rdd).all fun w =>
      g.isDelegateRdd w || l.reported w i) &&
        (g.repartition e.rdd || decide (l.persistType (g.primaryMember i) e.rdd ≠ .none) ||
          joinsReady g l i n e.rdd)

theorem paramsFinal_of_joinsReady {l : RddProgress} {i n u : ℕ}
    (h : joinsReady g l i (n + 1) u = true) :
    ParamsFinal g l u i := by
  intro e he hpush hsync w hw
  have hall := all_eq_true.mp h e he
  rw [hpush, hsync] at hall
  obtain ⟨hparams, -⟩ := Bool.and_eq_true_iff.mp hall
  have hfinal := all_eq_true.mp hparams w hw
  rcases Bool.or_eq_true_iff.mp hfinal with hdelegate | hreported
  · exact .inl (List.isEmpty_iff.mp hdelegate)
  · exact .inr hreported

theorem joinsReady_downstream {l : RddProgress} {i n u : ℕ} (h : joinsReady g l i (n + 1) u = true)
    {e : Downstream ρ} (he : e ∈ g.downstreamRdd u) (hpush : g.pushes u e = true)
    (hlocal : ¬ g.repartition e.rdd = true)
    (hnone : l.persistType (g.primaryMember i) e.rdd = .none) :
    joinsReady g l i n e.rdd = true := by
  have hall := all_eq_true.mp h e he
  rw [hpush] at hall
  obtain ⟨-, hnext⟩ := Bool.and_eq_true_iff.mp hall
  rcases Bool.or_eq_true_iff.mp hnext with hstop | hready
  · rcases Bool.or_eq_true_iff.mp hstop with hrepartition | hpersist
    · exact absurd hrepartition hlocal
    · exact absurd hnone (of_decide_eq_true hpersist)
  · exact hready

/-- More comes out of a partition that hands on one more row. -/
theorem emitted_passed {u i : ℕ} (hnone : s.persistType (g.primaryMember i) u = .none) (row : ρ)
    (u' i' : ℕ) (e : Downstream ρ) :
    ({ s with passed := setEntry s.passed u i (s.passed u i ++ [row]) } : Evaluation ρ).emitted g u'
    i' e =
      s.emitted g u' i' e + if u' = u ∧ i' = i then
      ↑(e.transformRow (g.params s.dataMap e.rdd i) row) else 0 := by
  unfold emitted
  show (if s.persistType (g.primaryMember i') u' = .none then
    ((setEntry s.passed u i (s.passed u i ++ [row]) u' i' : List ρ) : Multiset ρ).bind _ else _) = _
  by_cases hu : u' = u ∧ i' = i
  · obtain ⟨rfl, rfl⟩ := hu
    rw [if_pos hnone, if_pos hnone, if_pos (And.intro rfl rfl), setEntry_self, ← Multiset.coe_add,
      Multiset.add_bind, Multiset.coe_singleton, Multiset.singleton_bind]
  · rw [if_neg hu, add_zero, setEntry_of_ne hu]

/-- A partition hands on a row. -/
theorem Supplied.transformRow {f : Evaluation ρ → ℕ → ρ → Evaluation ρ} {u i : ℕ}
    (hi : i < g.partitionSize) (hnone : s.persistType (g.primaryMember i) u = .none)
    (hparams : ParamsFinal g s.toRddProgress u i)
    (hf : ∀ s' : Evaluation ρ, s'.toRddProgress = s.toRddProgress → ∀ e ∈ g.downstreamRdd u,
      g.pushes u e = true → ∀ out, Supplied g (supply g e.rdd i {out}) s' (f s' e.rdd out)) (row :
      ρ) :
    Supplied g 0 s (transformRow g f i s u row) := by
  have hemitted := emitted_passed (s := s) (g := g) hnone row
  have hloop := Supplied.downstream (g := g) (u := u) (i := i)
    (s := { s with passed := setEntry s.passed u i (s.passed u i ++ [row]) })
    (f := fun s e =>
      (e.transformRow (g.params s.dataMap e.rdd i) row).foldl (fun s out => f s e.rdd out) s)
    (x := fun e =>
      ↑(e.transformRow (g.params s.dataMap e.rdd i) row)) fun s' hs' hdata e he hpush => by
      rw [hdata, supply_eq_sum]
      exact Supplied.foldl fun s'' hs'' _ out _ => hf s'' (hs''.trans hs') e he hpush out
  exact
    { progress := hloop.progress
      dataMap := hloop.dataMap
      balance := fun d p => by
        have hbalance := hloop.balance d p
        rw [arriving_of_handedOn hi _ hemitted, ← add_assoc] at hbalance
        exact (add_right_cancel hbalance).trans (add_zero _).symm
      paramsFinal := fun u' i' hpassed => by
        rcases hloop.paramsFinal u' i' hpassed with hold | hready
        · by_cases hu : u' = u ∧ i' = i
          · obtain ⟨rfl, rfl⟩ := hu
            exact .inr hparams
          · exact .inl fun hnil => hold ((setEntry_of_ne hu).trans hnil)
        · exact .inr hready }

/-- Whatever becomes of a row, it is put down as sent once, or what comes out of it is. -/
theorem Supplied.processRow {i : ℕ} (hi : i < g.partitionSize) {n d : ℕ} (hsize : g.rddSize ≤ d + n)
    (hd : d < g.rddSize)
    (hready : ¬ g.repartition d = true → s.persistType (g.primaryMember i) d = .none →
      joinsReady g s.toRddProgress i n d = true) (row : ρ) :
    Supplied g (supply g d i {row}) s (processRow g i n s d row) := by
  induction n generalizing s d row with
  | zero => omega
  | succ n ih =>
    unfold Evaluation.processRow
    split
    · rename_i hrepartition
      exact Supplied.repartitionRow hrepartition i row
    · rename_i hlocal
      split
      · rename_i hnone
        have hjoins := hready hlocal hnone
        have hnoted := Supplied.noted (s := s) (toPartition_of_local hlocal i row)
        have hpass := Supplied.transformRow (g := g) (f := Evaluation.processRow g i n) (u := d)
          (s := { s with sent := setEntry s.sent d i (s.sent d i ++ [row]) }) hi hnone
          (paramsFinal_of_joinsReady hjoins) (fun s' hs' e he hpush out => by
            have hlt := g.lt_of_downstream he
            refine ih (s := s') (by omega) (g.downstream_lt d e he) (fun hlocal' hnone' => ?_) out
            rw [hs'] at hnone' ⊢
            exact joinsReady_downstream hjoins he hpush hlocal' hnone') row
        have hall := hnoted.trans hpass
        rwa [add_zero] at hall
      · exact Supplied.putRow hlocal i row

/-- A partition pushes all its rows. -/
theorem Supplied.transform {u i : ℕ} (hi : i < g.partitionSize)
    (hready : joinsReady g s.toRddProgress i (g.rddSize + 1) u = true) :
    Supplied g
    (handedOn g u i fun e => ↑(e.transform (g.params s.dataMap e.rdd i) (s.dataMap u i))) s
      (transform g u i s) := by
  refine Supplied.downstream fun s' hs' hdata e he hpush => ?_
  have hrow : ∀ t : Evaluation ρ, t.toRddProgress = s'.toRddProgress → ∀ row,
      Supplied g (supply g e.rdd i {row}) t (Evaluation.processRow g i g.rddSize t e.rdd row) := by
    intro t ht row
    refine Supplied.processRow hi (by omega) (g.downstream_lt u e he) (fun hlocal hnone => ?_) row
    rw [ht, hs'] at hnone ⊢
    exact joinsReady_downstream hready he hpush hlocal hnone
  unfold transformInto
  rw [← hdata, supply_eq_sum]
  dsimp only
  split
  · have hflag : Supplied g 0 s'
        { s' with useRepartitionLocalCache := setEntry s'.useRepartitionLocalCache e.rdd i true } :=
      .of_eq rfl rfl rfl rfl
    have hloop := Supplied.foldl (g := g)
      (s := { s' with
        useRepartitionLocalCache := setEntry s'.useRepartitionLocalCache e.rdd i true })
      (f := fun s row => Evaluation.processRow g i g.rddSize s e.rdd row)
      (x := fun row => supply g e.rdd i {row})
      (l := e.transform (g.params s'.dataMap e.rdd i) (s'.dataMap u i)) fun t ht _ row _ =>
        hrow t ht row
    have hall := (hflag.trans hloop).trans (Supplied.flushLocalCache e.rdd i)
    rwa [add_zero, zero_add] at hall
  · exact Supplied.foldl fun t ht _ row _ => hrow t ht row

/-! ## The actors of the partitions -/

section

variable (h : s.Once g)

include h

/-- Rows that are handed on are put down with those that come out. -/
theorem Once.of_supplied {s' : Evaluation ρ} (hsupplied : Supplied g 0 s s') :
    s'.Once g where
  sent := fun d p => by
    have hbalance := hsupplied.balance d p
    rw [h.sent d p, add_comm] at hbalance
    exact add_left_cancel (hbalance.trans (add_zero _))
  paramsFinal := fun u i hdone => by
    rw [hsupplied.progress] at hdone ⊢
    rcases hdone with hpushed | hpassed
    · exact h.paramsFinal u i (.inl hpushed)
    · exact (hsupplied.paramsFinal u i hpassed).elim (fun hold => h.paramsFinal u i (.inr hold)) id

/-- A partition is transformed for the first time. -/
theorem Once.handlePartitionTransform {d p : ℕ} (hp : p < g.partitionSize)
    (hpersist : s.persistType (g.primaryMember p) d ≠ .none) (hfirst : s.pushed d p = false)
    (hready : joinsReady g s.toRddProgress p (g.rddSize + 1) d = true) :
    (handlePartitionTransform g d p s).Once g := by
  have hsupplied := Supplied.transform hp hready
  set s₁ := Evaluation.transform g d p s with hs₁
  set s₂ : Evaluation ρ := { s₁ with pushed := setEntry s₁.pushed d p true } with hs₂
  have hemitted : ∀ u i e, s₂.emitted g u i e = s₁.emitted g u i e +
      if u = d ∧ i = p then ↑(e.transform (g.params s.dataMap e.rdd p) (s.dataMap d p)) else 0 := by
    intro u i e
    unfold emitted
    show (if s₁.persistType (g.primaryMember i) u = .none then _ else
      if setEntry s₁.pushed d p true u i then
        (↑(e.transform (g.params s₁.dataMap e.rdd i) (s₁.dataMap u i)) : Multiset ρ) else 0) = _
    rw [hsupplied.progress, hsupplied.dataMap]
    by_cases hu : u = d ∧ i = p
    · obtain ⟨rfl, rfl⟩ := hu
      rw [if_neg hpersist, if_neg hpersist, if_pos (And.intro rfl rfl), setEntry_self, if_pos rfl,
        hfirst, if_neg Bool.false_ne_true, zero_add]
    · rw [if_neg hu, add_zero, setEntry_of_ne hu]
  have honce : s₂.Once g :=
    { sent := fun d' p' => by
        have hbalance := hsupplied.balance d' p'
        rw [h.sent d' p', add_comm, add_assoc] at hbalance
        rw [arriving_of_handedOn hp _ hemitted]
        exact add_left_cancel hbalance
      paramsFinal := fun u i hdone => by
        by_cases hu : u = d ∧ i = p
        · obtain ⟨rfl, rfl⟩ := hu
          have hparams := paramsFinal_of_joinsReady hready
          rw [← hsupplied.progress] at hparams
          exact hparams
        · have hold : s.pushed u i = true ∨ s₁.passed u i ≠ [] := hdone.imp_left fun hpushed => by
            have hpushed' := (setEntry_of_ne hu).symm.trans hpushed
            rwa [hsupplied.progress] at hpushed'
          have hparams : ParamsFinal g s.toRddProgress u i := by
            rcases hold with hpushed | hpassed
            · exact h.paramsFinal u i (.inl hpushed)
            · exact (hsupplied.paramsFinal u i hpassed).elim (fun hold =>
                h.paramsFinal u i (.inr hold)) id
          rw [← hsupplied.progress] at hparams
          exact hparams }
  refine honce.of_trace ?_
  unfold Evaluation.handlePartitionTransform
  exact trace_sendMessage ..

/-- A row that is stored is not one that anything has come out of yet. -/
theorem Once.persistRow {d p : ℕ} (hprogress : s.toRddProgress.Inv g) (hopen : ¬ s.Final g d p)
    (row : ρ) : (persistRow g d p s row).Once g := by
  unfold Evaluation.persistRow
  split
  · exact h
  · refine h.of_emitted rfl rfl rfl (fun _ _ hreported => hreported) fun u e he hpush i _ => ?_
    set rows := setEntry s.dataMap d p (s.dataMap d p ++ [row])
    unfold emitted
    show _ = if s.persistType (g.primaryMember i) u = .none then
        (↑(s.passed u i) : Multiset ρ).bind fun x => ↑(e.transformRow (g.params rows e.rdd i) x)
      else if s.pushed u i then (↑(e.transform (g.params rows e.rdd i) (rows u i)) : Multiset ρ)
        else 0
    by_cases hdone : s.pushed u i = true ∨ s.passed u i ≠ []
    · have hparams : g.params rows e.rdd i = g.params s.dataMap e.rdd i := by
        unfold RddGraph.params
        by_cases hsync : g.upstreamSync e.rdd = true
        · rw [if_pos hsync, if_pos hsync]
        · rw [if_neg hsync, if_neg hsync]
          refine map_congr_left fun w hw => setEntry_of_ne ?_
          rintro ⟨rfl, rfl⟩
          exact hopen (h.paramsFinal u i hdone e he hpush (Bool.eq_false_of_not_eq_true hsync) w hw)
      rw [hparams]
      by_cases hpushed : s.pushed u i = true
      · have hrows : rows u i = s.dataMap u i := setEntry_of_ne (by
          rintro ⟨rfl, rfl⟩
          exact hopen (hprogress.pushed u i hpushed))
        rw [hrows]
      · rw [if_neg hpushed, if_neg hpushed]
    · obtain ⟨hpushed, hpassed⟩ := not_or.mp hdone
      rw [not_not.mp hpassed, if_neg hpushed, if_neg hpushed]
      rfl

/-- The new persist type comes before anything has come out. -/
theorem Once.setPersistType {m d : ℕ} (hprogress : s.toRddProgress.Inv g)
    (hfirst : s.persistType m d = .none → ∀ p < g.partitionSize,
      s.reported d p = false ∧ (g.primaryMember p = m → s.passed d p = [])) :
    ({ s with persistType := setEntry s.persistType m d .ordered } : Evaluation ρ).Once g := by
  refine h.of_emitted rfl rfl rfl (fun _ _ hreported => hreported) fun u e _ _ i hi => ?_
  unfold emitted
  show _ = if setEntry s.persistType m d .ordered (g.primaryMember i) u = .none then _ else
    if s.pushed u i then (↑(e.transform (g.params s.dataMap e.rdd i) (s.dataMap u i)) : Multiset ρ)
    else 0
  by_cases hd : g.primaryMember i = m ∧ u = d
  · obtain ⟨hm, rfl⟩ := hd
    have hordered : PersistType.ordered ≠ .none := by decide
    rw [hm, setEntry_self, if_neg hordered]
    by_cases hnone : s.persistType m u = .none
    · obtain ⟨hreported, hpassed⟩ := hfirst hnone i hi
      have hpushed : ¬ s.pushed u i = true := by
        intro hpushed
        rcases hprogress.pushed u i hpushed with hdelegate | hreported'
        · exact hprogress.delegate u hdelegate m hnone
        · rw [hreported] at hreported'
          cases hreported'
      rw [if_pos hnone, hpassed hm, if_neg hpushed]
      rfl
    · rw [if_neg hnone]
  · rw [setEntry_of_ne hd]

theorem Once.handleCheckPartitionReady {d p : ℕ} (src : Actor) :
    (handleCheckPartitionReady g d p src s).Once g := by
  unfold Evaluation.handleCheckPartitionReady
  split
  · have hset : ({ s with reported := setEntry s.reported d p true } : Evaluation ρ).Once g :=
      h.of_emitted rfl rfl rfl (fun _ _ hreported => RddProgress.setEntry_true hreported)
        fun _ _ _ _ _ _ => rfl
    exact hset.of_trace (trace_sendMessage ..)
  · exact h.of_trace (trace_postMessage ..)

theorem Once.handleRePartition {d p : ℕ} (hprogress : s.toRddProgress.Inv g)
    (hopen : ¬ s.Final g d p) (hp : p < g.partitionSize)
    (hready : s.persistType (g.primaryMember p) d = .none →
      joinsReady g s.toRddProgress p (g.rddSize + 1) d = true) (row : ρ) :
    (handleRePartition g d p s row).Once g := by
  unfold Evaluation.handleRePartition
  split
  · rename_i hnone
    have hjoins := hready hnone
    refine h.of_supplied (Supplied.transformRow hp hnone (paramsFinal_of_joinsReady hjoins)
      (fun s' hs' e he hpush out => ?_) row)
    refine Supplied.processRow hp (by omega) (g.downstream_lt d e he) (fun hlocal hnone' => ?_) out
    rw [hs'] at hnone' ⊢
    exact joinsReady_downstream hjoins he hpush hlocal hnone'
  · exact h.persistRow hprogress hopen row

end

/-! ## Runs -/

/-- The joins that get the rows pushed or handed on for a message are ready. -/
def joinsReadyFor (g : RddGraph ρ) (s : Evaluation ρ) (d p : ℕ) : Msg ρ → Prop
  | .rddTransform => joinsReady g s.toRddProgress p (g.rddSize + 1) d = true
  | .rePartition _ => s.persistType (g.primaryMember p) d = .none →
      joinsReady g s.toRddProgress p (g.rddSize + 1) d = true
  | _ => True

instance (s : Evaluation ρ) (d p : ℕ) (m : Msg ρ) : Decidable (joinsReadyFor g s d p m) := by
  unfold joinsReadyFor
  split <;> infer_instance

/-- A partition pushes rows, or hands one on, only when the joins that get them are ready. -/
def JoinsReady (g : RddGraph ρ) (s : Evaluation ρ) : EvaluationStep → Prop
  | .handle (.partition d p) => ∀ q ∈ (s.msgQueue (.partition d p)).head?, joinsReadyFor g s d p q.2
  | _ => True

instance (s : Evaluation ρ) : (a : EvaluationStep) → Decidable (JoinsReady g s a)
  | .deliver _ _ | .action _ _ | .handle .client | .handle (.rdd _) | .handle (.service _) =>
    isTrue trivial
  | .handle (.partition d p) =>
    inferInstanceAs
      (Decidable (∀ q ∈ (s.msgQueue (.partition d p)).head?, joinsReadyFor g s d p q.2))

/-- The steps of a run in which no row comes too late and no join is too early. -/
def Orderly (g : RddGraph ρ) (s : Evaluation ρ) (a : EvaluationStep) : Prop :=
  InTime g s a ∧ JoinsReady g s a

instance (s : Evaluation ρ) (a : EvaluationStep) : Decidable (Orderly g s a) := by
  unfold Orderly
  infer_instance

theorem Once.handlePartition {d p : ℕ} {src : Actor} {m : Msg ρ} {rest : List (Actor × Msg ρ)}
    (h : s.Once g) (hinv : s.Inv g) (hqueue : s.msgQueue (.partition d p) = (src, m) :: rest)
    (horderly : Orderly g s (.handle (.partition d p))) :
    (handleMessage g (.partition d p) src m (s.popped (.partition d p) rest)).Once g := by
  have hj := hinv.justified _ _ (pending_head hqueue)
  have hpop : (s.popped (.partition d p) rest).Once g := h.of_trace rfl
  have hjoins : joinsReadyFor g s d p m := horderly.2 (src, m) (by rw [hqueue]; rfl)
  cases m with
  | rddTransform =>
    have hfirst : s.pushed d p = false := by simpa only [InTime, hqueue] using horderly.1
    exact hpop.handlePartitionTransform hj.1 (hinv.persisted_of_transform hj.2.1 hj.1 hj.2.2)
      hfirst hjoins
  | checkPartitionReady => exact hpop.handleCheckPartitionReady src
  | rePartition row =>
    have hopen := hinv.not_final_of_row hqueue rfl
    have hp : p < g.partitionSize := by
      by_contra hle
      exact hopen (.inr (Nat.le_of_not_lt hle))
    exact hpop.handleRePartition hinv.progress (fun hfinal => hopen (.inl hfinal)) hp hjoins row
  | partitionStore row =>
    have hopen := hinv.not_final_of_row hqueue rfl
    exact hpop.persistRow hinv.progress (fun hfinal => hopen (.inl hfinal)) row
  | rddActionRequest action => exact hpop.of_trace rfl
  | partitionTransformComplete _ | upstreamRddReady | partitionReady _ | actionMessageProcess
  | persistTypeSync _ | rddTransformPrepared _ => exact hpop

theorem Once.step {s' : Evaluation ρ} {a : EvaluationStep} (h : s.Once g) (hinv : s.Inv g)
    (horderly : Orderly g s a) (hstep : step g s a = some s') : s'.Once g := by
  cases a with
  | deliver src dst =>
    obtain ⟨r, -, rfl⟩ := Option.map_eq_some_iff.mp hstep
    exact h.of_trace rfl
  | action d action =>
    obtain rfl := Option.some.inj hstep
    exact h.of_trace rfl
  | handle a =>
    cases hqueue : s.msgQueue a with
    | nil =>
      simp only [Evaluation.step, hqueue] at hstep
      cases hstep
    | cons x rest =>
      obtain ⟨src, m⟩ := x
      simp only [Evaluation.step, hqueue, Option.some.injEq] at hstep
      subst hstep
      have hpop : (s.popped a rest).Once g := h.of_trace rfl
      cases a with
      | client => exact hpop
      | rdd d => exact hpop.of_trace (trace_handleMessage_rdd d src m)
      | partition d p => exact h.handlePartition hinv hqueue horderly
      | service m' =>
        cases m with
        | persistTypeSync d =>
          have hfirst := horderly.1
          simp only [InTime, hqueue] at hfirst
          exact (hpop.setPersistType hinv.progress hfirst).of_trace (trace_sendMessage ..)
        | _ => exact hpop

theorem once_init (g : RddGraph ρ) : (init g).Once g where
  sent := fun d p => by
    have hnone : ∀ u i e, (init g).emitted g u i e = 0 := by
      intro u i e
      unfold emitted init
      simp
    unfold RddGraph.arriving
    simp only [hnone, RddGraph.toPartition_zero]
    refine Eq.symm (Finset.sum_eq_zero fun u _ => sum_eq_zero fun y hy => ?_)
    obtain ⟨e, -, rfl⟩ := mem_map.mp hy
    rw [Finset.sum_const_zero, ite_self]
  paramsFinal := fun u i hdone => by
    rcases hdone with hpushed | hpassed
    · cases hpushed
    · exact absurd rfl hpassed

/-! ## Every row once -/

variable (g s) in
/-- Whether partition `i` of RDD `u` stores its rows. -/
def persisted (u i : ℕ) : Bool := decide (s.persistType (g.primaryMember i) u ≠ .none)

/-- A partition that gets no more rows has got what it should hold. -/
theorem taken_eq_content (h : s.Once g) (hinv : s.Inv g) {d p : ℕ} (hp : p < g.partitionSize)
    (hfinal : s.Final g d p) :
    (s.taken g d p : Multiset ρ) = g.content (s.persisted g) s.dataMap d p := by
  -- by induction on the RDD: its upstream RDDs were created before it
  induction d using Nat.strong_induction_on generalizing p with
  | _ d ih =>
    have hconserved := hinv.conserved d p hp
    rw [hinv.clean d p (.inl hfinal), add_zero, h.sent d p] at hconserved
    rw [hconserved, g.content_eq]
    congr 1
    refine RddGraph.arriving_congr fun u e he hd _ i hi => ?_
    have hreported : s.reported d p = true := by
      refine hfinal.resolve_left fun hdelegate => ?_
      rw [← hd] at hdelegate
      exact g.not_delegate he hdelegate
    have hupstream : u ∈ g.upstreamRdd d := by
      rw [← hd]
      exact g.mem_upstream he
    have hlt : u < d := g.upstream_lt u d hupstream
    have hdone : s.Done g u i := hinv.progress.reported d p hreported u hupstream i hi
    unfold emitted RddGraph.output persisted
    by_cases hnone : s.persistType (g.primaryMember i) u = .none
    · have htaken := ih u hlt hi (hinv.progress.final_of_done hdone)
      unfold taken at htaken
      rw [if_pos hnone] at htaken
      rw [if_pos hnone, if_neg (by simpa using hnone), htaken]
      rfl
    · unfold RddProgress.Done at hdone
      rw [if_neg hnone] at hdone
      rw [if_neg hnone, if_pos hdone, if_pos (by simpa using hnone)]

/-- A partition of a persisted RDD that is ready, or was used by an action, holds its transformer's
result for what its upstream RDDs hold, each row taken once. -/
def ExactlyOnce (g : RddGraph ρ) (s : Evaluation ρ) : Prop :=
  ∀ d, ∀ p < g.partitionSize, s.persistType (g.primaryMember p) d ≠ .none →
    s.rddState d = .ready ∨ s.reported d p = true ∨ s.used d p = true →
    (s.dataMap d p : Multiset ρ) = g.content (s.persisted g) s.dataMap d p

theorem Once.exactlyOnce (h : s.Once g) (hinv : s.Inv g) : ExactlyOnce g s := by
  intro d p hp hpersist hready
  have hfinal : s.Final g d p := by
    rcases hready with hstate | hreported | hused
    · exact (hinv.progress.ready d hstate).1 p hp
    · exact .inr hreported
    · exact hinv.progress.used d p hused
  have htaken := taken_eq_content h hinv hp hfinal
  unfold taken at htaken
  rwa [if_neg hpersist] at htaken

/-- A store delegate RDD with one row, and two RDDs that are computed from it, on one member. -/
def sharedSource : RddGraph ℕ where
  rddSize := 3
  partitionSize := 1
  upstreamRdd := fun d => if d = 1 ∨ d = 2 then [0] else []
  downstreamRdd := fun u =>
    if u = 0 then
      [⟨1, fun _ rows => rows, fun _ row => [row]⟩, ⟨2, fun _ rows => rows, fun _ row => [row]⟩]
      else []
  upstreamSync := fun _ => true
  repartition := fun _ => false
  group := fun _ => false
  batchMessage := 2
  calcPartitionId := fun _ => 0
  members := [0]
  rddMember := fun _ => 0
  primaryMember := fun _ => 0
  persistType := fun _ => .ordered
  source := fun d _ => if d = 0 then [3] else []
  upstream_iff := fun u d => by
    by_cases hu : u = 0
    · simp [hu, or_comm, eq_comm]
    · by_cases hd : d = 1 ∨ d = 2
      · simp [hu, hd]
      · simp [hu, hd]
  upstream_lt := fun u d h => by
    by_cases hd : d = 1 ∨ d = 2
    · obtain rfl : u = 0 := by simpa [hd] using h
      omega
    · simp [hd] at h
  downstream_lt := fun u e he => by
    by_cases hu : u = 0
    · rcases (by simpa [hu] using he) with rfl | rfl
      · decide
      · decide
    · simp [hu] at he
  partition_lt := by simp
  rddMember_mem := by simp
  primary_mem := by simp
  delegate_persisted := by simp
  param_persisted := by simp
  source_nil := fun d p hd => by
    by_cases h0 : d = 0
    · simp [h0] at hd
    · simp [h0]

/-- An action on RDD 1, up to the moment at which the partition of the store delegate RDD has pushed
its row. -/
def pushedOnce : List EvaluationStep :=
  [.action 1 7, .handle (.rdd 1), .handle (.rdd 1), .deliver (.rdd 1) (.rdd 0), .handle (.rdd 0),
    .deliver (.rdd 0) (.partition 0 0), .handle (.partition 0 0)]

/-- RDD 1 becomes ready, and the action uses its partition. -/
def madeReady : List EvaluationStep :=
  [.handle (.rdd 0), .handle (.rdd 1), .handle (.partition 1 0), .handle (.partition 1 0),
    .handle (.rdd 1),
    .handle (.partition 1 0), .handle (.rdd 1), .handle (.rdd 1),
    .deliver (.rdd 1) (.partition 1 0),
    .handle (.partition 1 0)]

/-- An action on RDD 2 is asked for before RDD 2 has heard that its upstream RDD is ready, so that
one is asked to transform again. -/
def twoActions : List EvaluationStep :=
  pushedOnce ++ [.action 2 8, .handle (.rdd 2), .handle (.rdd 2)] ++ madeReady ++
    [.deliver (.rdd 2) (.rdd 0), .handle (.rdd 0), .deliver (.rdd 0) (.partition 0 0),
    .handle (.partition 0 0),
      .handle (.partition 1 0)]

end Evaluation

end Idgs.Rdd
