import Mathlib.Data.Multiset.OrderedMonoid
import Idgs.Common.Fold
import Idgs.Rdd.RddProgress

/-!
# The invariant of evaluation

The messages on their way say what is true, a partition that is final is to get no more rows, and
the rows that a partition has got and those on their way to it are the rows that were sent to it.
The actors of the RDDs send no rows and keep the invariant.
-/

namespace Idgs.Rdd

open Function List

/-! ## Messages and rows on their way -/

namespace Evaluation

variable {ρ : Type*} (g : RddGraph ρ) (s : Evaluation ρ)

/-- A message that waits in the queue of an actor or is on its way to it. -/
def Pending (a : Actor) (x : Actor × Msg ρ) : Prop :=
  x ∈ s.msgQueue a ∨ ((x.1, a), x.2) ∈ s.inFlight

/-- The rows in the queue of a partition. -/
def queuedRows (d p : ℕ) : List ρ := (s.msgQueue (.partition d p)).filterMap fun x => x.2.row?

/-- The rows for a partition that are in flight. -/
def rowsInFlight (d p : ℕ) : List ρ :=
  s.inFlight.filterMap fun x => if x.1.2 = .partition d p then x.2.row? else none

/-- The rows for a partition that wait in the caches of the partitions of its RDD. -/
def cachedRows (d p : ℕ) : Multiset ρ :=
  ∑ i ∈ Finset.range g.partitionSize, (s.localCache d i : Multiset ρ).filter fun x =>
    g.calcPartitionId x = p

/-- The rows that a partition is still to get, of those that were sent to it. -/
def pendingRows (d p : ℕ) : Multiset ρ :=
  ↑(s.queuedRows d p) + ↑(s.rowsInFlight d p) + s.cachedRows g d p

/-- The rows that a partition has got, which it stores or has handed on. -/
def taken (d p : ℕ) : List ρ :=
  if s.persistType (g.primaryMember p) d = .none then s.passed d p else s.dataMap d p

variable {g s}

/-! Putting a message into a queue or onto a link. -/

theorem pending_putMessage {a src dst : Actor} {m : Msg ρ} {x : Actor × Msg ρ} :
    (s.putMessage src dst m).Pending a x ↔ s.Pending a x ∨ a = dst ∧ x = (src, m) := by
  unfold Pending putMessage
  by_cases ha : a = dst
  · subst ha
    simp only [update_self, mem_append, mem_singleton, true_and]
    tauto
  · simp only [update_of_ne ha, ha, false_and, or_false]

theorem pending_postMessage {a src dst : Actor} {m : Msg ρ} {x : Actor × Msg ρ} :
    (s.postMessage src dst m).Pending a x ↔ s.Pending a x ∨ a = dst ∧ x = (src, m) := by
  unfold Pending postMessage
  simp only [mem_append, mem_singleton, Prod.ext_iff]
  tauto

theorem pending_sendMessage {a src dst : Actor} {m : Msg ρ} {x : Actor × Msg ρ} :
    (sendMessage g s src dst m).Pending a x ↔ s.Pending a x ∨ a = dst ∧ x = (src, m) := by
  unfold sendMessage
  split
  · exact pending_putMessage
  · exact pending_postMessage

/-- The rows for a partition that a message carries. -/
def rowFor (dst : Actor) (m : Msg ρ) (d p : ℕ) : Multiset ρ :=
  if dst = .partition d p then ↑m.row?.toList else 0

theorem pendingRows_putMessage (src dst : Actor) (m : Msg ρ) (d p : ℕ) :
    (s.putMessage src dst m).pendingRows g d p = s.pendingRows g d p + rowFor dst m d p := by
  have hqueue : ((s.putMessage src dst m).queuedRows d p : Multiset ρ) =
      ↑(s.queuedRows d p) + rowFor dst m d p := by
    unfold queuedRows putMessage rowFor
    by_cases hd : dst = .partition d p
    · subst hd
      cases hm : m.row? with
      | none => simp [hm]
      | some row => simp [hm, ← Multiset.coe_add]
    · simp [update_of_ne (Ne.symm hd), hd]
  unfold pendingRows
  rw [hqueue]
  show ↑(s.queuedRows d p) + rowFor dst m d p + ↑(s.rowsInFlight d p) + s.cachedRows g d p = _
  abel

theorem pendingRows_postMessage (src dst : Actor) (m : Msg ρ) (d p : ℕ) :
    (s.postMessage src dst m).pendingRows g d p = s.pendingRows g d p + rowFor dst m d p := by
  have hflight : ((s.postMessage src dst m).rowsInFlight d p : Multiset ρ) =
      ↑(s.rowsInFlight d p) + rowFor dst m d p := by
    unfold rowsInFlight postMessage rowFor
    by_cases hd : dst = .partition d p
    · cases hm : m.row? with
      | none => simp [hm]
      | some row => simp [hm, hd, ← Multiset.coe_add]
    · simp [hd]
  unfold pendingRows
  rw [hflight]
  show ↑(s.queuedRows d p) + (↑(s.rowsInFlight d p) + rowFor dst m d p) + s.cachedRows g d p = _
  abel

theorem pendingRows_sendMessage (src dst : Actor) (m : Msg ρ) (d p : ℕ) :
    (sendMessage g s src dst m).pendingRows g d p = s.pendingRows g d p + rowFor dst m d p := by
  unfold sendMessage
  split
  · exact pendingRows_putMessage src dst m d p
  · exact pendingRows_postMessage src dst m d p

@[simp] theorem rowFor_control {dst : Actor} {m : Msg ρ} (hm : m.row? = none) (d p : ℕ) :
    rowFor dst m d p = 0 := by
  unfold rowFor
  rw [hm]
  split <;> rfl

@[simp] theorem sendMessage_toRddProgress (src dst : Actor) (m : Msg ρ) :
    (sendMessage g s src dst m).toRddProgress = s.toRddProgress := by
  unfold sendMessage
  split <;> rfl

@[simp] theorem sendMessage_dataMap (src dst : Actor) (m : Msg ρ) :
    (sendMessage g s src dst m).dataMap = s.dataMap := by
  unfold sendMessage
  split <;> rfl

@[simp] theorem sendMessage_sent (src dst : Actor) (m : Msg ρ) :
    (sendMessage g s src dst m).sent = s.sent := by
  unfold sendMessage
  split <;> rfl

@[simp] theorem sendMessage_passed (src dst : Actor) (m : Msg ρ) :
    (sendMessage g s src dst m).passed = s.passed := by
  unfold sendMessage
  split <;> rfl

/-! ## The invariant -/

variable (g s) in
/-- The messages are true, a partition that is final is to get no rows, and no row is lost or
doubled. -/
structure Core : Prop where
  progress : s.toRddProgress.Inv g
  justified : ∀ a x, s.Pending a x → s.toRddProgress.Justified g a x.1 x.2
  clean : ∀ d p, s.Final g d p ∨ g.partitionSize ≤ p → s.pendingRows g d p = 0
  stored : ∀ d p, s.persistType (g.primaryMember p) d = .none → s.dataMap d p = []
  conserved : ∀ d, ∀ p < g.partitionSize,
    ↑(s.taken g d p) + s.pendingRows g d p = (↑(g.source d p) + ↑(s.sent d p) : Multiset ρ)

variable (g s) in
/-- A member at which an RDD is not persisted hears of it, if others have or are to hear that it
is. -/
def Told : Prop :=
  ∀ d, ∀ m ∈ g.members, ∀ m' ∈ g.members, s.persistType m d = .none →
    (s.persistType m' d ≠ .none ∨ ∃ src, s.Pending (.service m') (src, .persistTypeSync d)) →
    ∃ src, s.Pending (.service m) (src, .persistTypeSync d)

variable (g s) in
/-- What holds in every state of a run without late rows. -/
structure Inv : Prop extends s.Core g where
  told : s.Told g

/-- Messages without rows keep the invariant if what they say is true. -/
theorem Core.of_messages {s' : Evaluation ρ} (h : s.Core g)
    (hprogress : s'.toRddProgress = s.toRddProgress)
    (hdata : s'.dataMap = s.dataMap) (hsent : s'.sent = s.sent) (hpassed : s'.passed = s.passed)
    (hrows : ∀ d p, s'.pendingRows g d p = s.pendingRows g d p)
    (hpending : ∀ a x, s'.Pending a x → s.Pending a x ∨ s.toRddProgress.Justified g a x.1 x.2) :
    s'.Core g where
  progress := by
    rw [hprogress]
    exact h.progress
  justified := fun a x hx => by
    rw [hprogress]
    exact (hpending a x hx).elim (h.justified a x) id
  clean := fun d p hfinal => by
    rw [hprogress] at hfinal
    rw [hrows]
    exact h.clean d p hfinal
  stored := fun d p hnone => by
    rw [hprogress] at hnone
    rw [hdata]
    exact h.stored d p hnone
  conserved := fun d p hp => by
    have htaken : s'.taken g d p = s.taken g d p := by
      unfold taken
      rw [hprogress, hdata, hpassed]
    rw [htaken, hrows, hsent]
    exact h.conserved d p hp

theorem Told.of_pending {s' : Evaluation ρ} (h : s.Told g)
    (hprogress : s'.toRddProgress = s.toRddProgress)
    (hsync : ∀ d m src, s'.Pending (.service m) (src, .persistTypeSync d) ↔
      s.Pending (.service m) (src, .persistTypeSync d)) : s'.Told g := by
  unfold Told
  simp only [hprogress, hsync]
  exact h

theorem Core.sendMessage (h : s.Core g) {src dst : Actor} {m : Msg ρ} (hm : m.row? = none)
    (hj : s.toRddProgress.Justified g dst src m) :
    (Evaluation.sendMessage g s src dst m).Core g := by
  refine h.of_messages (by simp) (by simp) (by simp) (by simp) ?_ ?_
  · intro d p
    rw [pendingRows_sendMessage, rowFor_control hm, add_zero]
  · intro a x hx
    refine (pending_sendMessage.mp hx).imp_right ?_
    rintro ⟨rfl, rfl⟩
    exact hj

theorem Core.postMessage (h : s.Core g) {src dst : Actor} {m : Msg ρ} (hm : m.row? = none)
    (hj : s.toRddProgress.Justified g dst src m) : (s.postMessage src dst m).Core g := by
  refine h.of_messages rfl rfl rfl rfl ?_ ?_
  · intro d p
    rw [pendingRows_postMessage, rowFor_control hm, add_zero]
  · intro a x hx
    refine (pending_postMessage.mp hx).imp_right ?_
    rintro ⟨rfl, rfl⟩
    exact hj

section

variable (h : s.Inv g)

include h

theorem Inv.sendMessage {src dst : Actor} {m : Msg ρ} (hm : m.plain = true)
    (hj : s.toRddProgress.Justified g dst src m) :
    (Evaluation.sendMessage g s src dst m).Inv g where
  toCore := h.toCore.sendMessage (Msg.row?_of_plain hm) hj
  told := h.told.of_pending (by simp) fun d a src' => by
    rw [pending_sendMessage, or_iff_left]
    exact fun heq => Msg.ne_of_plain hm d (congrArg Prod.snd heq.2).symm

theorem Inv.postMessage {src dst : Actor} {m : Msg ρ} (hm : m.plain = true)
    (hj : s.toRddProgress.Justified g dst src m) : (s.postMessage src dst m).Inv g where
  toCore := h.toCore.postMessage (Msg.row?_of_plain hm) hj
  told := h.told.of_pending rfl fun d a src' => by
    rw [pending_postMessage, or_iff_left]
    exact fun heq => Msg.ne_of_plain hm d (congrArg Prod.snd heq.2).symm

/-- A loop of sends. -/
theorem Inv.sends {α : Type*} {f : Evaluation ρ → α → Evaluation ρ} {xs : List α}
    (hf : ∀ s' : Evaluation ρ, ∀ x ∈ xs, s'.Inv g → s'.toRddProgress = s.toRddProgress →
      (f s' x).Inv g ∧ (f s' x).toRddProgress = s.toRddProgress) :
    (xs.foldl f s).Inv g ∧ (xs.foldl f s).toRddProgress = s.toRddProgress :=
  Common.foldl_invariant (fun s' => s'.Inv g ∧ s'.toRddProgress = s.toRddProgress)
    (fun s' x hx hs' => hf s' x hx hs'.1 hs'.2) ⟨h, rfl⟩

/-- What the actors know may change, as long as it is true. -/
theorem Inv.growProgress {l : RddProgress} (hl : l.Inv g)
    (hgrows : RddProgress.Grows g s.toRddProgress l) (hreported : l.reported = s.reported)
    (hpersist : l.persistType = s.persistType) :
    ({ s with toRddProgress := l } : Evaluation ρ).Inv g where
  progress := hl
  justified := fun a x hx => hgrows.justified (h.justified a x hx)
  clean := fun d p hfinal => by
    refine h.clean d p (hfinal.imp_left fun hf => ?_)
    unfold RddProgress.Final at hf ⊢
    rwa [hreported] at hf
  stored := fun d p hnone => by
    simp only [hpersist] at hnone
    exact h.stored d p hnone
  conserved := fun d p hp => by
    have htaken : ({ s with toRddProgress := l } : Evaluation ρ).taken g d p = s.taken g d p := by
      unfold taken
      simp only [hpersist]
    rw [htaken]
    exact h.conserved d p hp
  told := fun d m hm m' hm' hnone hother => by
    simp only [hpersist] at hnone hother
    exact h.told d m hm m' hm' hnone hother

theorem Inv.setProgress {l : RddProgress} (hl : l.Inv g)
    (hpushed : l.pushed = s.pushed) (hreported : l.reported = s.reported)
    (hpersist : l.persistType = s.persistType) :
    ({ s with toRddProgress := l } : Evaluation ρ).Inv g :=
  h.growProgress hl (RddProgress.Grows.of_eq hpushed hreported hpersist) hreported hpersist

/-! ## The actor of an RDD keeps it -/

theorem Inv.toPartitions {d : ℕ} {m : Msg ρ} (hm : m.plain = true)
    (hj : ∀ p < g.partitionSize, s.toRddProgress.Justified g (.partition d p) (.rdd d) m) :
    (toPartitions g (Evaluation.sendMessage g) d m s).Inv g :=
  (h.sends fun s' p hp hs' hprogress => by
    refine ⟨hs'.sendMessage hm ?_, by simp [hprogress]⟩
    rw [hprogress]
    exact hj p (mem_range.mp hp)).1

theorem Inv.postToPartitions {d : ℕ} {m : Msg ρ} (hm : m.plain = true)
    (hj : ∀ p < g.partitionSize, s.toRddProgress.Justified g (.partition d p) (.rdd d) m) :
    (Evaluation.toPartitions g Evaluation.postMessage d m s).Inv g ∧
      (Evaluation.toPartitions g Evaluation.postMessage d m s).toRddProgress = s.toRddProgress :=
  h.sends fun s' p hp hs' hprogress => by
    refine ⟨hs'.postMessage hm ?_, hprogress⟩
    rw [hprogress]
    exact hj p (mem_range.mp hp)

theorem Inv.callUpstreamTransform (d : ℕ) : (callUpstreamTransform g d s).Inv g :=
  (h.sends fun s' _ _ hs' hprogress => by
    refine ⟨hs'.postMessage rfl ?_, hprogress⟩
    trivial).1

theorem Inv.callDownstreamTransform (d : ℕ) (src : Actor) :
    (callDownstreamTransform g d src s).Inv g :=
  (h.sends fun s' _ _ hs' hprogress => by
    refine ⟨hs'.postMessage rfl ?_, hprogress⟩
    trivial).1

/-- An RDD all of whose partitions are ready is complete. -/
theorem Inv.complete_of_allPartitions {d : ℕ} (hall : allPartitions g s d .ready = true) :
    s.Complete g d := by
  intro p hp
  exact h.progress.partitionReady d p hp
    (of_decide_eq_true (all_eq_true.mp hall p (mem_range.mpr hp)))

theorem Inv.processRddReady {d : ℕ} (hcomplete : s.Complete g d) :
    (processRddReady g d s).Inv g := by
  set state : RddState := if s.persistType (g.rddMember d) d = .none then .prepared
    else .ready with hdef
  have hstate : state = .ready →
      (∀ p < g.partitionSize, s.Final g d p) ∧ s.persistType (g.rddMember d) d ≠ .none := by
    intro hready
    refine ⟨fun p hp => h.progress.final_of_done (hcomplete p hp), fun hnone => ?_⟩
    rw [hdef, if_pos hnone] at hready
    cases hready
  have hset := h.setProgress (h.progress.setRddState d state hstate) rfl rfl rfl
  have haction : ∀ s' : Evaluation ρ, s'.Inv g →
      s'.toRddProgress = { s.toRddProgress with rddState := update s.rddState d state } →
      ((g.downstreamRdd d).foldl (fun s e =>
      Evaluation.sendMessage g s (.rdd d) (.rdd e.rdd) .upstreamRddReady)
        s').Inv g := by
    intro s' hs' hprogress
    refine (hs'.sends fun s'' e _ hs'' hprogress' =>
      ⟨hs''.sendMessage rfl ?_, by simp [hprogress']⟩).1
    intro u hu
    obtain rfl : d = u := Actor.rdd.inj hu
    rw [hprogress', hprogress]
    exact hcomplete
  unfold Evaluation.processRddReady
  dsimp only
  split
  · exact haction _ hset rfl
  · exact haction _ (hset.sendMessage rfl trivial) (by simp; rfl)

/-- All members are told that an RDD is to be persisted. -/
theorem Inv.askToPersist (d : ℕ) :
    (g.members.foldl (fun s m => s.postMessage (.rdd d) (.service m) (.persistTypeSync d)) s).Inv
    g := by
  have hpending : ∀ ms : List ℕ, ∀ s' : Evaluation ρ, ∀ a x,
      (ms.foldl (fun s m => s.postMessage (.rdd d) (.service m) (.persistTypeSync d)) s').Pending
      a x ↔
        s'.Pending a x ∨ ∃ m ∈ ms, a = .service m ∧ x = (.rdd d, .persistTypeSync d) := by
    intro ms
    induction ms with
    | nil => simp
    | cons m ms ih =>
      intro s' a x
      rw [foldl_cons, ih, pending_postMessage]
      simp only [mem_cons, exists_eq_or_imp, or_assoc]
  have hcore := Common.foldl_invariant
    (fun s' : Evaluation ρ => s'.Core g ∧ s'.toRddProgress = s.toRddProgress)
    (f := fun (s : Evaluation ρ) m => s.postMessage (.rdd d) (.service m) (.persistTypeSync d))
    (l := g.members)
    (fun s' m _ hs' => ⟨hs'.1.postMessage rfl (by trivial), hs'.2⟩) ⟨h.toCore, rfl⟩
  refine { toCore := hcore.1, told := fun d' m hm m' hm' hnone hother => ?_ }
  rw [hcore.2] at hnone hother
  by_cases hd : d' = d
  · subst hd
    exact ⟨.rdd d', (hpending _ _ _ _).mpr (.inr ⟨m, hm, rfl, rfl⟩)⟩
  · obtain ⟨src, hsrc⟩ := h.told d' m hm m' hm' hnone (hother.imp_right fun ⟨src, hsrc⟩ => by
      refine ⟨src, ((hpending _ _ _ _).mp hsrc).resolve_right ?_⟩
      rintro ⟨m'', -, -, heq⟩
      exact hd (Msg.persistTypeSync.inj (congrArg Prod.snd heq)))
    exact ⟨src, (hpending _ _ _ _).mpr (.inl hsrc)⟩

theorem Inv.startPrepared (d : ℕ) : (startPrepared g d s).Inv g := by
  have hstate := h.setProgress (h.progress.setRddState d .processing
    fun hready => by cases hready) rfl rfl rfl
  have hflags := hstate.setProgress (hstate.progress.setTransformed (fun m u =>
    if m = g.rddMember d ∧ u ∈ g.upstreamRdd d then false else s.transformed m u)
    fun m u hmu => h.progress.transformed m u (by
      by_contra hne
      split at hmu
      · cases hmu
      · exact hne hmu)) rfl rfl rfl
  unfold Evaluation.startPrepared
  dsimp only
  split
  · have hinit := hflags.setProgress (hflags.progress.setAllPartitions d (fun _ => .init)
      fun _ => .inr (.inl rfl)) rfl rfl rfl
    exact hinit.askToPersist d
  · have hprepared := hflags.setProgress (hflags.progress.setAllPartitions d (fun _ => .prepared)
      fun _ => .inr (.inr rfl)) rfl rfl rfl
    exact hprepared.callUpstreamTransform d

theorem Inv.startReady {d : ℕ} (hready : s.rddState d = .ready) :
    (startReady g d s).Inv g := by
  have hstate := h.setProgress (h.progress.setRddState d .processing
    fun hready => by cases hready) rfl rfl rfl
  have hprepared := hstate.setProgress (hstate.progress.setAllPartitions d (fun _ => .prepared)
    fun _ => .inr (.inr rfl)) rfl rfl rfl
  refine (hprepared.postToPartitions rfl fun p hp => ?_).1
  obtain ⟨hfinal, hpersist⟩ := h.progress.ready d hready
  exact ⟨hp, hfinal p hp, hpersist⟩

theorem Inv.handleRddTransform (d : ℕ) (src : Actor) :
    (handleRddTransform g d src s).Inv g := by
  unfold Evaluation.handleRddTransform
  cases hstate : s.rddState d with
  | init | created =>
    refine h.postMessage rfl ?_
    trivial
  | prepared => exact (h.startPrepared d).callDownstreamTransform d src
  | ready => exact (h.startReady hstate).callDownstreamTransform d src
  | processing | transformComplete | error => exact h

theorem Inv.handleRddTransformPrepared (d m : ℕ) :
    (handleRddTransformPrepared g d m s).Inv g := by
  have hset := h.setProgress (h.progress.setAllPartitions d
    (fun p => if g.primaryMember p = m then .prepared else s.partitionState d p) fun p => by
      by_cases hp : g.primaryMember p = m
      · exact .inr (.inr (if_pos hp))
      · exact .inl (if_neg hp)) rfl rfl rfl
  unfold Evaluation.handleRddTransformPrepared
  dsimp only
  split
  · exact hset.callUpstreamTransform d
  · exact hset

theorem Inv.handlePartitionTransformComplete {d p : ℕ} (hpushed : s.pushed d p = true) :
    (handlePartitionTransformComplete g d p s).Inv g := by
  have hdone : s.Done g d p := by
    unfold RddProgress.Done
    split
    · rename_i hnone
      refine (h.progress.pushed d p hpushed).resolve_left fun hdelegate => ?_
      exact h.progress.delegate d hdelegate _ hnone
    · exact hpushed
  have hset := h.setProgress (h.progress.setOnePartition d p .ready (fun hs => by cases hs)
    fun _ => hdone) rfl rfl rfl
  unfold Evaluation.handlePartitionTransformComplete
  dsimp only
  split
  · rename_i hall
    exact hset.processRddReady (hset.complete_of_allPartitions hall)
  · exact hset

theorem Inv.handlePartitionReady {d p : ℕ} (hp : p < g.partitionSize)
    (hreported : s.reported d p = true) :
    (handlePartitionReady g d p s).Inv g := by
  unfold Evaluation.handlePartitionReady
  split
  · rename_i hnone
    have hdone : s.Done g d p := by
      unfold RddProgress.Done
      rw [if_pos
        (h.progress.agree d p hp hreported _ (g.rddMember_mem d) _ (g.primary_mem p) hnone)]
      exact hreported
    have hset := h.setProgress (h.progress.setOnePartition d p .ready (fun hs => by cases hs)
      fun _ => hdone) rfl rfl rfl
    dsimp only
    split
    · rename_i hall
      exact hset.processRddReady (hset.complete_of_allPartitions hall)
    · exact hset
  · rename_i hpersist
    have hset := h.setProgress (h.progress.setOnePartition d p .transformComplete
      (fun _ => .inr hreported) fun hs => by cases hs) rfl rfl rfl
    dsimp only
    split
    · rename_i hall
      refine hset.toPartitions rfl fun p' hp' => ⟨hp', ?_, hpersist⟩
      have hstate := of_decide_eq_true (all_eq_true.mp hall p' (mem_range.mpr hp'))
      exact hset.progress.transformComplete d p' hstate
    · exact hset

theorem Inv.handleUpstreamReady (d : ℕ) {src : Actor}
    (hsrc : ∀ u, src = .rdd u → s.Complete g u) : (handleUpstreamReady g d src s).Inv g := by
  have hset := h.setProgress (h.progress.setTransformed (fun m u =>
    if m = g.rddMember d ∧ u ∈ g.upstreamRdd d ∧ Actor.rdd u = src then true else s.transformed m u)
    fun m u hmu => by
      split at hmu
      · rename_i hu
        exact hsrc u hu.2.2.symm
      · exact h.progress.transformed m u hmu) rfl rfl rfl
  unfold Evaluation.handleUpstreamReady
  extract_lets upstreamReady paramReady s' first
  have hs' : s'.Inv g := hset
  split
  · refine hs'.postMessage rfl ?_
    trivial
  · split
    · rename_i hall
      refine hs'.toPartitions rfl fun p hp => ⟨hp, fun u hu => ?_⟩
      have hu' := all_eq_true.mp hall u hu
      rcases Bool.or_eq_true_iff.mp hu' with heq | hflag
      · exact hsrc u (of_decide_eq_true heq).symm
      · exact h.progress.transformed _ u hflag
    · exact hs'

theorem Inv.handleRddActionRequest (d action : ℕ) :
    (handleRddActionRequest g d action s).Inv g := by
  have hset := h.setProgress (h.progress.setActionQueue
    (update s.actionQueue d (s.actionQueue d ++ [action]))) rfl rfl rfl
  unfold Evaluation.handleRddActionRequest
  dsimp only
  split
  · exact h
  · split
    · exact hset.sendMessage rfl trivial
    · split
      · exact hset.sendMessage rfl trivial
      · exact hset

theorem Inv.handleActionProcess (d : ℕ) : (handleActionProcess g d s).Inv g := by
  have hset :=
    h.setProgress (h.progress.setActionQueue (update s.actionQueue d [])) rfl rfl rfl
  unfold Evaluation.handleActionProcess
  dsimp only
  split
  · rename_i hready
    refine (hset.sends fun s' action _ hs' hprogress => ?_).1
    have hpost := hs'.postToPartitions (d := d) (m := .rddActionRequest action) rfl fun p hp => by
      rw [hprogress]
      exact (h.progress.ready d hready).1 p hp
    exact ⟨hpost.1, hpost.2.trans hprogress⟩
  · exact hset

end

end Evaluation

end Idgs.Rdd
