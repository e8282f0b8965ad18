import Idgs.Common.Run
import Idgs.Common.TotalOrder
import Idgs.Cluster.PartitionManager

/-!
# Partition tables over one totally ordered stream

All processes handle the multicast messages in one order, so a process's table is a function of the
part of the stream that it has handled; comparing processes at the same prefix, a message can be
delivered to all of them at once. A process takes part from its `DeltaMemberEvent` on; when the
leading member handles that event, it multicasts a snapshot of its table, which the joiner installs
when it comes back in the stream. Any member may multicast deltas and status changes, with any
content, at any time.

What is delivered between the snapshot and its installation is lost on the joiner.
-/

namespace Idgs.Cluster

namespace PartitionStream

/-- A process: its entry in the membership table, once it has one, and its partition table. `synced`
says that it founded the group or has installed its snapshot. -/
structure Proc where
  localMember : Option Member := none
  table : List Partition
  synced : Bool := false

/-- Messages of the stream; `joined` stands for the `DeltaMemberEvent` that gives a process its
id. -/
inductive Message
  | joined (q : ℕ) (id : ℕ)
  | wholePartitionTable (evt : WholePartitionEvent)
  | deltaPartitions (evt : DeltaPartitionEvent)
  | partitionStatus (evt : PartitionStatusChangeEvent)
deriving DecidableEq

/-- The processes, the one of the leading member, and the messages in flight with their senders. -/
structure State where
  cluster : ClusterConfig
  procs : ℕ → Proc
  leading : ℕ
  flight : List (ℕ × Message)

/-- Process 0 has founded the group; every process starts with an empty table. -/
def init (cluster : ClusterConfig) : State where
  cluster := cluster
  procs := fun p =>
    if p = 0 then ⟨some { id := 0, state := .joined }, createPartitionTable cluster, true⟩
    else ⟨none, createPartitionTable cluster, false⟩
  leading := 0
  flight := []

/-- A message at process `q`. A process that ends with `LOG(FATAL)` takes no further part. -/
def handle (cluster : ClusterConfig) (q : ℕ) (p : Proc) : Message → Proc
  | .joined q' id =>
    if q = q' then { p with localMember := some { id := id, state := .joined } } else p
  | .wholePartitionTable evt =>
    match PartitionManager.handleWholePartitionTableEvent cluster p.localMember p.table evt with
    | some table =>
      { p with
        table := table
        synced := p.synced || p.localMember.any fun m => m.id == evt.joinedMemberId }
    | none => { p with localMember := none, synced := false }
  | .deltaPartitions evt =>
    { p with table := PartitionManager.handleDeltaPartitionEvent p.localMember p.table evt }
  | .partitionStatus evt =>
    { p with table := PartitionManager.handlePartitionStatusChangedEvent p.table evt }

/-- What the leading member multicasts when it handles a message: a snapshot for a joiner. -/
def reaction (s : State) : Message → List (ℕ × Message)
  | .joined _ id => [(s.leading, .wholePartitionTable ⟨id, (s.procs s.leading).table⟩)]
  | _ => []

/-- Steps: the leading member gives a process an id, a member multicasts a delta or a status change,
another member becomes leading, the oldest message of a sender is delivered to all processes. -/
inductive Step
  | acceptJoin (q id : ℕ)
  | delta (p : ℕ) (evt : DeltaPartitionEvent)
  | status (p : ℕ) (evt : PartitionStatusChangeEvent)
  | lead (p : ℕ)
  | deliver (p : ℕ)
deriving DecidableEq

/-- One step. Only a process whose table is complete becomes leading. -/
def step (s : State) : Step → Option State
  | .acceptJoin q id => some { s with flight := s.flight ++ [(s.leading, .joined q id)] }
  | .delta p evt => some { s with flight := s.flight ++ [(p, .deltaPartitions evt)] }
  | .status p evt => some { s with flight := s.flight ++ [(p, .partitionStatus evt)] }
  | .lead p => if (s.procs p).synced then some { s with leading := p } else none
  | .deliver p =>
    match Common.takeFirst p s.flight with
    | some (m, rest) =>
      some { s with
        procs := fun q => handle s.cluster q (s.procs q) m
        flight := rest ++ reaction s m }
    | none => none

/-- All processes with complete tables have the same one. -/
def Agree (s : State) : Prop :=
  ∀ p q, (s.procs p).synced = true → (s.procs q).synced = true →
    (s.procs p).table = (s.procs q).table

/-- The message changes the tables of the members. -/
def Message.changesTables : Message → Bool
  | .deltaPartitions _ => true
  | .partitionStatus _ => true
  | _ => false

/-- The message is a snapshot. -/
def Message.isSnapshot : Message → Bool
  | .wholePartitionTable _ => true
  | _ => false

/-- A delta or a status change is delivered only when no snapshot is in flight. -/
def NoChangeDuringSnapshot (s : State) : Step → Prop
  | .deliver p => ∀ m ∈ (Common.takeFirst p s.flight).map Prod.fst, m.changesTables = true →
      s.flight.all (fun x => !x.2.isSnapshot) = true
  | _ => True

instance (s : State) (a : Step) : Decidable (NoChangeDuringSnapshot s a) := by
  unfold NoChangeDuringSnapshot
  split
  · infer_instance
  · infer_instance

/-! ## Agreement -/

/-- The complete tables are the table of the leading member, and so are the snapshots in flight. -/
structure Inv (s : State) : Prop where
  leading : (s.procs s.leading).synced = true
  member : ∀ p, (s.procs p).synced = true → (s.procs p).localMember.isSome = true
  agree : ∀ p, (s.procs p).synced = true → (s.procs p).table = (s.procs s.leading).table
  snapshots : ∀ x ∈ s.flight, ∀ evt, x.2 = .wholePartitionTable evt →
    evt.table = (s.procs s.leading).table
  rows : ∀ p, (s.procs p).table.length = s.cluster.partitionCount

theorem inv_init (cluster : ClusterConfig) : Inv (init cluster) where
  leading := rfl
  member := by
    intro p hp
    by_cases h : p = 0
    · simp [init, h]
    · simp [init, h] at hp
  agree := by
    intro p _
    by_cases h : p = 0 <;> simp [init, h]
  snapshots := fun x hx => absurd hx List.not_mem_nil
  rows := by
    intro p
    by_cases h : p = 0 <;> simp [init, h, createPartitionTable]

section

variable {s : State} (h : Inv s)

include h

theorem Inv.agree_all : Agree s :=
  fun p q hp hq => (h.agree p hp).trans (h.agree q hq).symm

/-- Putting a message in flight that is no snapshot. -/
theorem Inv.send {x : ℕ × Message} (hx : x.2.isSnapshot = false) :
    Inv { s with flight := s.flight ++ [x] } where
  __ := h
  snapshots := by
    intro y hy evt hevt
    rcases List.mem_append.mp hy with hold | hnew
    · exact h.snapshots y hold evt hevt
    · obtain rfl := List.mem_singleton.mp hnew
      rw [hevt] at hx
      cases hx

/-- A change of the tables leaves them equal where they were, if every process with a complete table
applies it, and no snapshot of the tables before it is left. -/
theorem Inv.change {f : List Partition → List Partition}
    {procs : ℕ → Proc} {flight : List (ℕ × Message)}
    (hsynced : ∀ p, (procs p).synced = (s.procs p).synced)
    (hmember : ∀ p, (procs p).localMember = (s.procs p).localMember)
    (htable : ∀ p, (s.procs p).synced = true → (procs p).table = f (s.procs p).table)
    (hrows : ∀ p, (procs p).table.length = (s.procs p).table.length)
    (hflight : ∀ x ∈ flight, x.2.isSnapshot = false) :
    Inv { s with procs := procs, flight := flight } where
  leading := (hsynced s.leading).trans h.leading
  member := fun p hp => (hmember p) ▸ h.member p ((hsynced p) ▸ hp)
  agree := by
    intro p hp
    have hp' : (s.procs p).synced = true := (hsynced p) ▸ hp
    exact (htable p hp').trans
      ((congrArg f (h.agree p hp')).trans (htable s.leading h.leading).symm)
  snapshots := by
    intro x hx evt hevt
    have hno := hflight x hx
    rw [hevt] at hno
    cases hno
  rows := fun p => (hrows p).trans (h.rows p)

/-- What a process becomes by a snapshot that is the table of the leading member. -/
theorem handle_whole {evt : WholePartitionEvent}
    (htable : evt.table = (s.procs s.leading).table) (q : ℕ) :
    let p' := handle s.cluster q (s.procs q) (.wholePartitionTable evt)
    p'.localMember = (s.procs q).localMember ∧ p'.table.length = s.cluster.partitionCount ∧
      ((s.procs q).synced = true → p'.synced = true) ∧
      (p'.synced = true → p'.localMember.isSome = true ∧ p'.table = (s.procs s.leading).table) := by
  dsimp only
  unfold handle PartitionManager.handleWholePartitionTableEvent
  cases hlocal : (s.procs q).localMember with
  | none =>
    dsimp only
    have hnot : (s.procs q).synced = false := by
      by_contra hsynced
      have hsome := h.member q (by simpa using hsynced)
      rw [hlocal] at hsome
      cases hsome
    refine ⟨rfl, h.rows q, fun hsynced => ?_, fun hsynced => ?_⟩
    · rw [hnot] at hsynced
      cases hsynced
    · rw [hnot] at hsynced
      cases hsynced
  | some m =>
    dsimp only
    by_cases hid : m.id = evt.joinedMemberId
    · -- the joiner: the snapshot replaces its whole table
      have hlen : evt.table.length = s.cluster.partitionCount := htable ▸ h.rows s.leading
      have hwhole : evt.table ++ (s.procs q).table.drop evt.table.length = evt.table := by
        rw [hlen, ← h.rows q, List.drop_length, List.append_nil]
      rw [if_neg (not_not.mpr hid), if_neg (not_not.mpr hlen), hwhole]
      dsimp only
      exact ⟨rfl, hlen, fun hsynced => by rw [hsynced, Bool.true_or], fun _ => ⟨rfl, htable⟩⟩
    · rw [if_pos hid]
      dsimp only
      have hother : (some m).any (fun m => m.id == evt.joinedMemberId) = false := by
        simpa using hid
      rw [hother, Bool.or_false]
      exact ⟨rfl, h.rows q, id, fun hsynced => ⟨rfl, h.agree q hsynced⟩⟩

end

/-- Every step that respects the guard keeps the tables in agreement. -/
theorem Inv.step {s s' : State} {a : Step} (h : Inv s) (hguard : NoChangeDuringSnapshot s a)
    (hstep : step s a = some s') : Inv s' := by
  cases a with
  | acceptJoin _ _ | delta _ _ | status _ _ =>
    cases hstep
    exact h.send rfl
  | lead p =>
    rw [PartitionStream.step] at hstep
    split at hstep
    · rename_i hsynced
      cases hstep
      have htable := h.agree p hsynced
      exact ⟨hsynced, h.member, fun q hq => (h.agree q hq).trans htable.symm,
        fun x hx evt hevt => (h.snapshots x hx evt hevt).trans htable.symm, h.rows⟩
    · cases hstep
  | deliver p =>
    rw [PartitionStream.step] at hstep
    split at hstep
    · rename_i m rest htake
      cases hstep
      have hrest : ∀ x ∈ rest, x ∈ s.flight := fun x hx => Common.mem_of_mem_takeFirst htake hx
      -- with the guard, no snapshot is in flight when the tables change
      have hquiet : m.changesTables = true → ∀ x ∈ rest, x.2.isSnapshot = false := by
        intro hchanges x hx
        have hall := hguard m (by rw [htake]; rfl) hchanges
        simpa using List.all_eq_true.mp hall x (hrest x hx)
      cases m with
      | joined q id =>
        have hsame : ∀ r, (handle s.cluster r (s.procs r) (.joined q id)).table =
            (s.procs r).table ∧
            (handle s.cluster r (s.procs r) (.joined q id)).synced = (s.procs r).synced := by
          intro r
          rw [handle]
          split <;> exact ⟨rfl, rfl⟩
        refine ⟨(hsame s.leading).2.trans h.leading, fun r hr => ?_, fun r hr => ?_,
          fun x hx evt hevt => ?_, fun r => (congrArg List.length (hsame r).1).trans (h.rows r)⟩
        · dsimp only at hr ⊢
          rw [(hsame r).2] at hr
          rw [handle]
          split
          · rfl
          · exact h.member r hr
        · dsimp only at hr ⊢
          rw [(hsame r).2] at hr
          rw [(hsame r).1, (hsame s.leading).1]
          exact h.agree r hr
        · dsimp only at hx ⊢
          rw [(hsame s.leading).1]
          rcases List.mem_append.mp hx with hold | hnew
          · exact h.snapshots x (hrest x hold) evt hevt
          · obtain rfl := List.mem_singleton.mp hnew
            cases hevt
            rfl
      | wholePartitionTable evt =>
        have hevt := h.snapshots _ (Common.takeFirst_mem htake) evt rfl
        have hwhole := handle_whole h hevt
        have hlead := (hwhole s.leading).2.2.1 h.leading
        have hleadTable := ((hwhole s.leading).2.2.2 hlead).2
        refine ⟨hlead, fun r hr => ((hwhole r).2.2.2 hr).1,
          fun r hr => ((hwhole r).2.2.2 hr).2.trans hleadTable.symm, fun x hx evt' hevt' => ?_,
          fun r => (hwhole r).2.1⟩
        have hx' : x ∈ rest := by simpa [reaction] using hx
        exact (h.snapshots x (hrest x hx') evt' hevt').trans hleadTable.symm
      | deltaPartitions evt =>
        refine h.change (f := fun table => PartitionManager.balanceOk table evt) (fun _ => rfl)
          (fun _ => rfl) (fun r hr => ?_) (fun r => ?_) (fun x hx => ?_)
        · obtain ⟨member, hmember⟩ := Option.isSome_iff_exists.mp (h.member r hr)
          simp only [handle, PartitionManager.handleDeltaPartitionEvent, hmember]
        · simp only [handle, PartitionManager.handleDeltaPartitionEvent]
          split
          · rfl
          · exact PartitionManager.length_balanceOk _ _
        · exact hquiet rfl x (by simpa [reaction] using hx)
      | partitionStatus evt =>
        refine h.change
          (f := fun table => PartitionManager.handlePartitionStatusChangedEvent table evt)
          (fun _ => rfl) (fun _ => rfl) (fun _ _ => rfl) (fun r => ?_) (fun x hx => ?_)
        · exact List.length_modify _ _ _
        · exact hquiet rfl x (by simpa [reaction] using hx)
    · cases hstep

/-- **Agreement of the partition tables**: in every run in which no delta and no status change is
delivered between a snapshot and its installation, all processes with complete tables have the same
table. -/
theorem agree_of_noChangeDuringSnapshot {cluster : ClusterConfig} {s : State}
    (hrun : Common.Reaches step NoChangeDuringSnapshot (init cluster) s) : Agree s :=
  (hrun.invariant (inv_init cluster) fun _ _ _ h hguard hstep => h.step hguard hstep).agree_all

/-! ## A status change behind the snapshot -/

/-- Process 1 joins and member 0 takes the only replica of the partition. -/
def joined : List Step :=
  [.acceptJoin 1 1, .deliver 0, .deliver 0, .delta 0 [⟨0, 0, -1, 0, some .ready⟩], .deliver 0]

/-- Process 2 joins, and a status change that member 1 multicasts is delivered behind its
snapshot. -/
def joinedLate : List Step :=
  [.acceptJoin 2 2, .deliver 0, .status 1 ⟨0, 0, .source⟩, .deliver 1, .deliver 0]

theorem joined_agree :
    ∃ s, Common.replay step NoChangeDuringSnapshot (init ⟨1, 1⟩) joined = some s ∧
    Agree s := by
  have hsome : (Common.replay step NoChangeDuringSnapshot (init ⟨1, 1⟩) joined).isSome = true := by
    decide
  obtain ⟨s, hs⟩ := Option.isSome_iff_exists.mp hsome
  exact ⟨s, hs, agree_of_noChangeDuringSnapshot (Common.reaches_of_replay hs)⟩

/-- Process 2 installs the state that the partition had before the status change. -/
theorem not_agree_of_run : ¬ ∀ s, Common.Reaches step Common.anyStep (init ⟨1, 1⟩) s → Agree s := by
  intro hall
  have hbad : (Common.replay step Common.anyStep (init ⟨1, 1⟩) (joined ++ joinedLate)).any (fun s =>
      (s.procs 1).synced && (s.procs 2).synced &&
        decide ((s.procs 1).table = [[⟨0, .source⟩]] ∧ (s.procs 2).table = [[⟨0, .ready⟩]])) =
        true := by
    decide
  obtain ⟨s, hs, hs'⟩ := (Option.any_eq_true _ _).mp hbad
  simp only [Bool.and_eq_true, decide_eq_true_eq] at hs'
  obtain ⟨⟨h1, h2⟩, ht1, ht2⟩ := hs'
  have heq := hall s (Common.reaches_of_replay hs) 1 2 h1 h2
  rw [ht1, ht2] at heq
  exact absurd heq (by decide)

end PartitionStream

end Idgs.Cluster
