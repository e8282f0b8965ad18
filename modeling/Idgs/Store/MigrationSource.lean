import Mathlib.Data.Finset.Basic
import Idgs.Cluster.Table
import Idgs.Common.Replay
import Idgs.Common.Run

/-!
# The source of partition migrations

The `MigrationSourceActor` of a member keeps, for each partition, the members that are migrating it
from here, and multicasts that the partition is `PS_SOURCE` when the first one comes and `PS_READY`
when the last one goes. Writes go to the redo logs of a partition's store migrations only while it
is `PS_SOURCE`.
-/

namespace Idgs.Store

open Cluster (PartitionState)

namespace MigrationSource

variable {σ : Type*}

/-- A `StoreMigrationSourceActor`: the partition and store that it transfers, and to which
member. -/
structure StoreMigrationSourceActor (σ : Type*) where
  partId : ℤ
  targetMemberId : ℤ
  store : σ
deriving DecidableEq

/-- The actor's map, the last state multicast for each partition and the store migrations.
`migrating` are the targets by what they have told: they have requested a partition, and have
neither declared it complete nor left. -/
structure State (σ : Type*) where
  partitionStateMap : ℤ → Option (Finset ℤ) := fun _ => none
  announced : ℤ → Option PartitionState := fun _ => none
  actors : List (StoreMigrationSourceActor σ) := []
  migrating : Finset (ℤ × ℤ) := ∅

/-- Steps: the messages handled, a member leaves, the `i`th store migration comes to its end. The
size is that of the partition in the store, when there is one. -/
inductive Step (σ : Type*)
  | migrationRequest (partId targetMemberId : ℤ) (store : σ) (dataSize : Option ℕ)
  | partitionMigrationComplete (partId targetMemberId : ℤ)
  | cancelMigration (partId : ℤ) (store : σ)
  | memberLeave (memberId : ℤ)
  | storeMigrationComplete (i : ℕ)

/-- `multicastPartitionStateChangeEvent`. -/
def multicastPartitionStateChangeEvent (partId : ℤ) (state : PartitionState) (s : State σ) :
    State σ :=
  { s with announced := Function.update s.announced partId (some state) }

/-- The part of `handleMigrationRequest` under the lock. -/
def addTarget (partId targetMemberId : ℤ) (s : State σ) : State σ :=
  match s.partitionStateMap partId with
  | none =>
    multicastPartitionStateChangeEvent partId .source
      { s with
        partitionStateMap := Function.update s.partitionStateMap partId (some {targetMemberId}) }
  | some targets =>
    { s with
      partitionStateMap :=
        Function.update s.partitionStateMap partId (some (insert targetMemberId targets)) }

/-- `MigrationSourceActor::handleMigrationRequest`: a store with data in the partition gets an
actor. -/
def handleMigrationRequest (partId targetMemberId : ℤ) (store : σ) (dataSize : Option ℕ)
    (s : State σ) :
    State σ :=
  let s := addTarget partId targetMemberId s
  match dataSize with
  | none | some 0 => s
  | some (_ + 1) => { s with actors := s.actors ++ [⟨partId, targetMemberId, store⟩] }

/-- `MigrationSourceActor::handlePartitionMigrationComplete`. -/
def handlePartitionMigrationComplete (partId targetMemberId : ℤ) (s : State σ) : State σ :=
  match s.partitionStateMap partId with
  | none => s
  | some targets =>
    if targetMemberId ∈ targets then
      if targets.erase targetMemberId = ∅ then
        multicastPartitionStateChangeEvent partId .ready
          { s with partitionStateMap := Function.update s.partitionStateMap partId none }
      else
        { s with
          partitionStateMap :=
            Function.update s.partitionStateMap partId (some (targets.erase targetMemberId)) }
    else s

/-- `MigrationSourceActor::handleCancelMigration`: the store's migrations of the partition end. -/
def handleCancelMigration [DecidableEq σ] (partId : ℤ) (store : σ) (s : State σ) : State σ :=
  { s with actors := s.actors.filter fun a => ¬(a.store = store ∧ a.partId = partId) }

/-- `MigrationSourceActor::handleMemberLeave`, which goes over all partitions of the map. -/
def handleMemberLeave (memberId : ℤ) (s : State σ) : State σ :=
  { s with
    partitionStateMap := fun partId => (s.partitionStateMap partId).map fun targets =>
      targets.erase memberId
    announced := fun partId =>
      match s.partitionStateMap partId with
      | none => s.announced partId
      | some targets =>
        if memberId ∈ targets ∧ targets.erase memberId = ∅ then some .ready
        else s.announced partId }

/-- One step. -/
def step [DecidableEq σ] (s : State σ) : Step σ → Option (State σ)
  | .migrationRequest p t store dataSize =>
    some { handleMigrationRequest p t store dataSize s with
      migrating := insert (p, t) s.migrating }
  | .partitionMigrationComplete p t =>
    some { handlePartitionMigrationComplete p t s with migrating := s.migrating.erase (p, t) }
  | .cancelMigration p store => some (handleCancelMigration p store s)
  | .memberLeave m =>
    some { handleMemberLeave m s with migrating := s.migrating.filter fun x => x.2 ≠ m }
  | .storeMigrationComplete i => some { s with actors := s.actors.eraseIdx i }

/-- The test of `StoreServiceActor` before it hands a write to `addToRedoLog`, when the last state
multicast has been delivered. -/
def redoLogGate (s : State σ) (partId : ℤ) : Prop := s.announced partId = some .source

/-- The last state multicast for a partition is `PS_SOURCE` while, and only while, some target is
migrating it; so writes are logged during a store migration to such a target. -/
structure Faithful (s : State σ) : Prop where
  source : ∀ p, s.announced p = some .source ↔ ∃ t, (p, t) ∈ s.migrating
  gate : ∀ a ∈ s.actors, (a.partId, a.targetMemberId) ∈ s.migrating → redoLogGate s a.partId

/-- The actor's sets of targets are those that are migrating. -/
def TargetsExact (s : State σ) : Prop :=
  ∀ p t, (p, t) ∈ s.migrating ↔ ∃ targets, s.partitionStateMap p = some targets ∧ t ∈ targets

/-- No request finds a set that the last target has left empty behind when it left the cluster. -/
def NoEmptyEntry (s : State σ) : Step σ → Prop
  | .migrationRequest p _ _ _ => s.partitionStateMap p ≠ some ∅
  | _ => True

instance (s : State σ) (a : Step σ) : Decidable (NoEmptyEntry s a) := by
  unfold NoEmptyEntry
  split <;> infer_instance

/-! ## The map -/

section Steps

variable {s s' : State σ}

@[simp] theorem handleMigrationRequest_map (p t : ℤ) (store : σ) (dataSize : Option ℕ)
    (s : State σ) :
    (handleMigrationRequest p t store dataSize s).partitionStateMap =
      (addTarget p t s).partitionStateMap := by
  simp only [handleMigrationRequest]
  split <;> rfl

@[simp] theorem handleMigrationRequest_announced (p t : ℤ) (store : σ) (dataSize : Option ℕ)
    (s : State σ) :
    (handleMigrationRequest p t store dataSize s).announced = (addTarget p t s).announced := by
  simp only [handleMigrationRequest]
  split <;> rfl

/-- The target is added to its partition's set. -/
theorem addTarget_map (p t : ℤ) (s : State σ) : (addTarget p t s).partitionStateMap =
    Function.update s.partitionStateMap p (some (insert t ((s.partitionStateMap p).getD ∅))) := by
  unfold addTarget
  split
  · rename_i hnone
    rw [hnone]
    rfl
  · rename_i targets hsome
    rw [hsome]
    rfl

/-- The target is taken out of its partition's set, and an empty set out of the map. -/
theorem handlePartitionMigrationComplete_map (p t : ℤ) (s : State σ) :
    (handlePartitionMigrationComplete p t s).partitionStateMap =
      Function.update s.partitionStateMap p ((s.partitionStateMap p).bind fun targets =>
        if t ∈ targets ∧ targets.erase t = ∅ then none else some (targets.erase t)) := by
  unfold handlePartitionMigrationComplete
  split
  · rename_i hnone
    rw [hnone, Option.bind_none, ← hnone, Function.update_eq_self]
  · rename_i targets hsome
    rw [hsome, Option.bind_some]
    split
    · rename_i hmem
      split
      · rename_i hempty
        rw [if_pos ⟨hmem, hempty⟩]
        rfl
      · rename_i hne
        rw [if_neg fun hand => hne hand.2]
    · rename_i hnot
      rw [if_neg fun hand => hnot hand.1, Finset.erase_eq_of_notMem hnot, ← hsome,
        Function.update_eq_self]

theorem targetsExact_init : TargetsExact ({} : State σ) := by
  intro p t
  simp

/-- Every step keeps the sets of targets exact. -/
theorem TargetsExact.step [DecidableEq σ] (h : TargetsExact s) {a : Step σ}
    (hstep : step s a = some s') :
    TargetsExact s' := by
  cases a with
  | migrationRequest p t store dataSize =>
    simp only [MigrationSource.step, Option.some.injEq] at hstep
    subst hstep
    intro p' t'
    simp only [handleMigrationRequest_map, addTarget_map, Finset.mem_insert, Prod.mk.injEq,
      h p' t']
    by_cases hp : p' = p
    · subst hp
      cases hmap : s.partitionStateMap p' <;> simp
    · simp [hp]
  | partitionMigrationComplete p t =>
    simp only [MigrationSource.step, Option.some.injEq] at hstep
    subst hstep
    intro p' t'
    simp only [handlePartitionMigrationComplete_map, Finset.mem_erase, ne_eq, Prod.mk.injEq,
      h p' t']
    by_cases hp : p' = p
    · subst hp
      cases hmap : s.partitionStateMap p' with
      | none => simp
      | some targets =>
        by_cases hlast : t ∈ targets ∧ targets.erase t = ∅
        · simp only [Function.update_self, Option.bind_some, if_pos hlast, Option.some.injEq,
            exists_eq_left', true_and, reduceCtorEq, false_and, exists_false, iff_false,
            not_and]
          intro hne hmem
          have herase : t' ∈ targets.erase t := Finset.mem_erase.mpr ⟨hne, hmem⟩
          rw [hlast.2] at herase
          exact absurd herase (Finset.notMem_empty t')
        · simp [hlast]
    · simp [hp]
  | cancelMigration _ _ | storeMigrationComplete _ =>
    simp only [MigrationSource.step, Option.some.injEq] at hstep
    subst hstep
    exact h
  | memberLeave m =>
    simp only [MigrationSource.step, Option.some.injEq] at hstep
    subst hstep
    intro p' t'
    simp only [handleMemberLeave, Finset.mem_filter, h p' t']
    cases hmap : s.partitionStateMap p' with
    | none => simp
    | some targets => simp [and_comm]

/-! ## The states announced -/

/-- A partition has been announced as a source, last, when its set of targets is not empty. -/
def AnnouncedExact (s : State σ) : Prop :=
  ∀ p, s.announced p = some .source ↔ ∃ targets, s.partitionStateMap p = some targets ∧ targets ≠ ∅

theorem announcedExact_init : AnnouncedExact ({} : State σ) := by
  intro p
  simp

section

variable (h : AnnouncedExact s)

include h

/-- A target comes. Only a partition that is new to the map is announced. -/
theorem AnnouncedExact.addTarget {p t : ℤ}
    (hentry : s.partitionStateMap p ≠ some ∅) :
    AnnouncedExact (addTarget p t s) := by
  intro p'
  have hp' := h p'
  rw [addTarget_map]
  unfold MigrationSource.addTarget
  by_cases hp : p' = p
  · subst hp
    cases hmap : s.partitionStateMap p' with
    | none => simp [multicastPartitionStateChangeEvent]
    | some targets =>
      have hne : targets ≠ ∅ := by
        rintro rfl
        exact hentry hmap
      have hsource : s.announced p' = some .source := hp'.mpr ⟨targets, hmap, hne⟩
      simp [hsource]
  · cases hmap : s.partitionStateMap p with
    | none => simpa [multicastPartitionStateChangeEvent, hp] using hp'
    | some targets => simpa [hp] using hp'

/-- A target is done. The last one takes the partition out of the map. -/
theorem AnnouncedExact.complete (p t : ℤ) :
    AnnouncedExact (handlePartitionMigrationComplete p t s) := by
  intro p'
  have hp' := h p'
  unfold handlePartitionMigrationComplete
  split
  · exact hp'
  · rename_i targets hsome
    split
    · rename_i hmem
      split
      · by_cases hp : p' = p
        · subst hp
          simp [multicastPartitionStateChangeEvent]
        · simpa [multicastPartitionStateChangeEvent, hp] using hp'
      · rename_i hne
        by_cases hp : p' = p
        · subst hp
          have hsource : s.announced p' = some .source :=
            hp'.mpr ⟨targets, hsome, Finset.ne_empty_of_mem hmem⟩
          simpa [hsource] using hne
        · simpa [hp] using hp'
    · exact hp'

/-- A member leaves. The sets that become empty stay in the map, announced as `PS_READY`. -/
theorem AnnouncedExact.leave (m : ℤ) :
    AnnouncedExact (handleMemberLeave m s) := by
  intro p
  have hp := h p
  simp only [handleMemberLeave]
  cases hmap : s.partitionStateMap p with
  | none => simpa [hmap] using hp
  | some targets =>
    rw [hmap] at hp
    simp only [Option.some.injEq, exists_eq_left'] at hp
    simp only [Option.map_some, Option.some.injEq, exists_eq_left']
    by_cases hlast : m ∈ targets ∧ targets.erase m = ∅
    · rw [if_pos hlast, hlast.2]
      simp
    · rw [if_neg hlast, hp]
      by_cases hmem : m ∈ targets
      · have hne : targets.erase m ≠ ∅ := fun hempty => hlast ⟨hmem, hempty⟩
        exact ⟨fun _ => hne, fun _ => Finset.ne_empty_of_mem hmem⟩
      · rw [Finset.erase_eq_of_notMem hmem]

theorem AnnouncedExact.step [DecidableEq σ] {a : Step σ}
    (hguard : NoEmptyEntry s a) (hstep : step s a = some s') : AnnouncedExact s' := by
  cases a with
  | migrationRequest p t store dataSize =>
    simp only [MigrationSource.step, Option.some.injEq] at hstep
    subst hstep
    intro p'
    simp only [handleMigrationRequest_map, handleMigrationRequest_announced]
    exact h.addTarget hguard p'
  | partitionMigrationComplete p t =>
    simp only [MigrationSource.step, Option.some.injEq] at hstep
    subst hstep
    exact h.complete p t
  | cancelMigration _ _ | storeMigrationComplete _ =>
    simp only [MigrationSource.step, Option.some.injEq] at hstep
    subst hstep
    exact h
  | memberLeave m =>
    simp only [MigrationSource.step, Option.some.injEq] at hstep
    subst hstep
    exact h.leave m

end

theorem faithful_of_exact (ht : TargetsExact s) (ha : AnnouncedExact s) : Faithful s := by
  have hsource : ∀ p, s.announced p = some .source ↔ ∃ t, (p, t) ∈ s.migrating := by
    intro p
    rw [ha p]
    constructor
    · rintro ⟨targets, hmap, hne⟩
      obtain ⟨t, ht'⟩ := Finset.nonempty_iff_ne_empty.mpr hne
      exact ⟨t, (ht p t).mpr ⟨targets, hmap, ht'⟩⟩
    · rintro ⟨t, hmem⟩
      obtain ⟨targets, hmap, ht'⟩ := (ht p t).mp hmem
      exact ⟨targets, hmap, Finset.ne_empty_of_mem ht'⟩
  exact ⟨hsource, fun a _ hmem => (hsource a.partId).mpr ⟨a.targetMemberId, hmem⟩⟩

end Steps

/-- In every run in which no request finds an empty set, the last state multicast for each partition
is `PS_SOURCE` exactly while some target is migrating it. -/
theorem faithful_of_noEmptyEntry [DecidableEq σ] {s : State σ}
    (hrun : Common.Reaches step NoEmptyEntry {} s) : Faithful s := by
  have h : TargetsExact s ∧ AnnouncedExact s :=
    hrun.invariant (P := fun s => TargetsExact s ∧ AnnouncedExact s)
      ⟨targetsExact_init, announcedExact_init⟩
      fun _ _ _ h hguard hstep => ⟨h.1.step hstep, h.2.step hguard hstep⟩
  exact faithful_of_exact h.1 h.2

/-- Two targets migrate a partition; one leaves, the other completes it. -/
def leaveAndComplete : List (Step ℕ) :=
  [.migrationRequest 0 1 7 (some 3), .migrationRequest 0 2 7 (some 3), .memberLeave 1,
    .partitionMigrationComplete 0 2]

theorem faithful_of_noEmptyEntry_leaveAndComplete : ∃ s : State ℕ,
    Common.Reaches step NoEmptyEntry {} s ∧ s.announced 0 = some .ready ∧ Faithful s := by
  have hbool : (Common.replay step NoEmptyEntry ({} : State ℕ) leaveAndComplete).any
      (fun s => s.announced 0 == some .ready) = true := by
    decide +kernel
  obtain ⟨s, hs, hready⟩ := (Option.any_eq_true _ _).mp hbool
  have hrun := Common.reaches_of_replay hs
  exact ⟨s, hrun, beq_iff_eq.mp hready, faithful_of_noEmptyEntry hrun⟩

/-- The only target leaves, and another one comes. -/
def leaveAndReturn : List (Step ℕ) :=
  [.migrationRequest 0 1 7 (some 3), .memberLeave 1, .migrationRequest 0 2 7 (some 3)]

/-- The second migration is under way while the last state multicast is `PS_READY`. -/
theorem not_faithful_of_run :
    ¬ ∀ s : State ℕ, Common.Reaches step Common.anyStep {} s → Faithful s := by
  intro hall
  have hbool : (Common.replay step Common.anyStep ({} : State ℕ) leaveAndReturn).any
      (fun s => s.announced 0 == some .ready && decide ((0, 2) ∈ s.migrating)) = true := by
    decide +kernel
  obtain ⟨s, hs, hend⟩ := (Option.any_eq_true _ _).mp hbool
  rw [Bool.and_eq_true, beq_iff_eq] at hend
  obtain ⟨hready, hmem⟩ := hend
  have hsource := ((hall s (Common.reaches_of_replay hs)).source 0).mpr ⟨2, of_decide_eq_true hmem⟩
  rw [hready] at hsource
  cases hsource

end MigrationSource

end Idgs.Store
