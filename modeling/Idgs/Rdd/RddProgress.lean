import Idgs.Rdd.Evaluation

/-!
# What the actors of RDDs know

A partition is final when it gets no more rows, and done when it sends no more. Every message
between the actors says something about that, and so do the states that the actors keep; in runs
without late rows all of it is true.
-/

namespace Idgs.Rdd

open Function

/-- Neither a row nor news of a persist type. -/
def Msg.plain {ρ : Type*} : Msg ρ → Bool
  | .rePartition _ | .partitionStore _ | .persistTypeSync _ => false
  | _ => true

theorem Msg.row?_of_plain {ρ : Type*} {m : Msg ρ} (hm : m.plain = true) : m.row? = none := by
  cases m with
  | rePartition row | partitionStore row | persistTypeSync d => cases hm
  | _ => rfl

theorem Msg.ne_of_plain {ρ : Type*} {m : Msg ρ} (hm : m.plain = true) (d : ℕ) :
    m ≠ .persistTypeSync d := by
  rintro rfl
  cases hm

namespace RddProgress

variable {ρ : Type*} (g : RddGraph ρ) (l : RddProgress)

/-- A partition that gets no more rows. -/
def Final (d p : ℕ) : Prop := g.upstreamRdd d = [] ∨ l.reported d p = true

/-- A partition that sends no more rows. -/
def Done (u i : ℕ) : Prop :=
  if l.persistType (g.primaryMember i) u = .none then l.reported u i = true else l.pushed u i = true

/-- An RDD that sends no more rows. -/
def Complete (u : ℕ) : Prop := ∀ i < g.partitionSize, l.Done g u i

/-- What a message says is true. -/
def Justified (a src : Actor) {μ : Type*} (m : Msg μ) : Prop :=
  match a, m with
  | .rdd _, .upstreamRddReady => ∀ u, src = .rdd u → l.Complete g u
  | .rdd d, .partitionTransformComplete p => l.pushed d p = true
  | .rdd d, .partitionReady p => p < g.partitionSize ∧ l.reported d p = true
  | .partition d p, .rddTransform =>
    p < g.partitionSize ∧ l.Final g d p ∧ l.persistType (g.rddMember d) d ≠ .none
  | .partition d p, .checkPartitionReady =>
    p < g.partitionSize ∧ ∀ u ∈ g.upstreamRdd d, l.Complete g u
  | .partition d p, .rddActionRequest _ => l.Final g d p
  | .partition d p, .partitionStore _ => l.persistType (g.primaryMember p) d ≠ .none
  | _, _ => True

/-- What the actors know is true. -/
structure Inv : Prop where
  transformed : ∀ m u, l.transformed m u = true → l.Complete g u
  ready : ∀ d, l.rddState d = .ready →
    (∀ p < g.partitionSize, l.Final g d p) ∧ l.persistType (g.rddMember d) d ≠ .none
  transformComplete : ∀ d p, l.partitionState d p = .transformComplete → l.Final g d p
  partitionReady : ∀ d, ∀ p < g.partitionSize, l.partitionState d p = .ready → l.Done g d p
  pushed : ∀ d p, l.pushed d p = true → l.Final g d p
  reported : ∀ d p, l.reported d p = true → ∀ u ∈ g.upstreamRdd d, l.Complete g u
  agree : ∀ d, ∀ p < g.partitionSize, l.reported d p = true → ∀ m ∈ g.members, ∀ m' ∈ g.members,
    l.persistType m d = .none → l.persistType m' d = .none
  delegate : ∀ d, g.upstreamRdd d = [] → ∀ m, l.persistType m d ≠ .none
  used : ∀ d p, l.used d p = true → l.Final g d p

/-- Nothing that was true before is false later. -/
structure Grows (l l' : RddProgress) : Prop where
  pushed : ∀ d p, l.pushed d p = true → l'.pushed d p = true
  reported : ∀ d p, l.reported d p = true → l'.reported d p = true
  done : ∀ d, ∀ p < g.partitionSize, l.Done g d p → l'.Done g d p
  persistType : ∀ m d, l.persistType m d ≠ .none → l'.persistType m d ≠ .none

variable {g} {l l' : RddProgress}

theorem Grows.final (h : Grows g l l') {d p : ℕ} (hfinal : l.Final g d p) : l'.Final g d p :=
  hfinal.imp_right (h.reported d p)

theorem Grows.complete (h : Grows g l l') {u : ℕ} (hcomplete : l.Complete g u) : l'.Complete g u :=
  fun i hi => h.done u i hi (hcomplete i hi)

theorem Grows.justified (h : Grows g l l') {a src : Actor} {μ : Type*} {m : Msg μ}
    (hm : l.Justified g a src m) : l'.Justified g a src m := by
  unfold Justified at hm ⊢
  split
  · exact fun u hu => h.complete (hm u hu)
  · exact h.pushed _ _ hm
  · exact ⟨hm.1, h.reported _ _ hm.2⟩
  · exact ⟨hm.1, h.final hm.2.1, h.persistType _ _ hm.2.2⟩
  · exact ⟨hm.1, fun u hu => h.complete (hm.2 u hu)⟩
  · exact h.final hm
  · exact h.persistType _ _ hm
  · trivial

/-- Other fields do not matter for what has been done. -/
theorem Grows.of_eq (hpushed : l'.pushed = l.pushed) (hreported : l'.reported = l.reported)
    (hpersist : l'.persistType = l.persistType) : Grows g l l' where
  pushed := fun d p h => by rwa [hpushed]
  reported := fun d p h => by rwa [hreported]
  done := fun d p _ h => by rwa [Done, hpushed, hreported, hpersist]
  persistType := fun m d h => by rwa [hpersist]

section

variable (h : l.Inv g)

include h

/-- A partition that is done gets no more rows either. -/
theorem Inv.final_of_done {d p : ℕ} (hdone : l.Done g d p) : l.Final g d p := by
  unfold Done at hdone
  split at hdone
  · exact .inr hdone
  · exact h.pushed d p hdone

/-! Changes of one field. -/

theorem Inv.setRddState (d : ℕ) (state : RddState) (hstate : state = .ready →
    (∀ p < g.partitionSize, l.Final g d p) ∧ l.persistType (g.rddMember d) d ≠ .none) :
    ({ l with rddState := update l.rddState d state } : RddProgress).Inv g where
  __ := h
  ready := fun d' hd' => by
    by_cases hd : d' = d
    · subst hd
      exact hstate ((update_self d' state l.rddState).symm.trans hd')
    · exact h.ready d' ((update_of_ne hd state l.rddState).symm.trans hd')

theorem Inv.setPartitionState (states : ℕ → ℕ → RddState)
    (hcomplete : ∀ d p, states d p = .transformComplete → l.Final g d p)
    (hready : ∀ d, ∀ p < g.partitionSize, states d p = .ready → l.Done g d p) :
    ({ l with partitionState := states } : RddProgress).Inv g where
  __ := h
  transformComplete := hcomplete
  partitionReady := hready

/-- The state of one partition. -/
theorem Inv.setOnePartition (d p : ℕ) (state : RddState)
    (hcomplete : state = .transformComplete → l.Final g d p)
    (hready : state = .ready → l.Done g d p) :
    ({ l with partitionState := setEntry l.partitionState d p state } : RddProgress).Inv g := by
  refine h.setPartitionState _ (fun d' p' hd' => ?_) fun d' p' hp' hd' => ?_
  · by_cases hp : d' = d ∧ p' = p
    · obtain ⟨rfl, rfl⟩ := hp
      exact hcomplete ((setEntry_self ..).symm.trans hd')
    · exact h.transformComplete d' p' ((setEntry_of_ne hp).symm.trans hd')
  · by_cases hp : d' = d ∧ p' = p
    · obtain ⟨rfl, rfl⟩ := hp
      exact hready ((setEntry_self ..).symm.trans hd')
    · exact h.partitionReady d' p' hp' ((setEntry_of_ne hp).symm.trans hd')

/-- The states of all partitions of an RDD, some of them set to one that promises nothing. -/
theorem Inv.setAllPartitions (d : ℕ) (states : ℕ → RddState)
    (hstates : ∀ p, states p = l.partitionState d p ∨ states p = .init ∨ states p = .prepared) :
    ({ l with partitionState := update l.partitionState d states } : RddProgress).Inv
    g := by
  have hkept : ∀ d' p, ∀ state : RddState, state ≠ .init → state ≠ .prepared →
      update l.partitionState d states d' p = state → l.partitionState d' p = state := by
    intro d' p state hinit hprepared hd'
    by_cases hd : d' = d
    · subst hd
      rw [update_self] at hd'
      rcases hstates p with hp | hp | hp
      · exact hp.symm.trans hd'
      · exact absurd (hd'.symm.trans hp) hinit
      · exact absurd (hd'.symm.trans hp) hprepared
    · rwa [update_of_ne hd] at hd'
  refine h.setPartitionState _ (fun d' p hd' => ?_) fun d' p hp hd' => ?_
  · exact h.transformComplete d' p (hkept d' p _ (by decide) (by decide) hd')
  · exact h.partitionReady d' p hp (hkept d' p _ (by decide) (by decide) hd')

theorem Inv.setTransformed (flags : ℕ → ℕ → Bool)
    (hflags : ∀ m u, flags m u = true → l.Complete g u) :
    ({ l with transformed := flags } : RddProgress).Inv g where
  __ := h
  transformed := hflags

theorem Inv.setActionQueue (queues : ℕ → List ℕ) :
    ({ l with actionQueue := queues } : RddProgress).Inv g where
  __ := h

theorem Inv.setUsed {d p : ℕ} (hfinal : l.Final g d p) :
    ({ l with used := setEntry l.used d p true } : RddProgress).Inv g where
  __ := h
  used := fun d' p' hd' => by
    by_cases hp : d' = d ∧ p' = p
    · obtain ⟨rfl, rfl⟩ := hp
      exact hfinal
    · exact h.used d' p' ((setEntry_of_ne hp).symm.trans hd')

end

theorem setEntry_true {t : ℕ → ℕ → Bool} {d p d' p' : ℕ} (ht : t d' p' = true) :
    setEntry t d p true d' p' = true := by
  unfold setEntry
  split
  · rfl
  · exact ht

theorem Grows.setPushed (d p : ℕ) : Grows g l { l with pushed := setEntry l.pushed d p true } where
  pushed := fun _ _ h => setEntry_true h
  reported := fun _ _ h => h
  done := fun d' p' _ h => by
    unfold Done at h ⊢
    split
    · rename_i hnone
      rwa [if_pos hnone] at h
    · rename_i hpersist
      rw [if_neg hpersist] at h
      exact setEntry_true h
  persistType := fun _ _ h => h

theorem Grows.setReported (d p : ℕ) :
    Grows g l { l with reported := setEntry l.reported d p true } where
  pushed := fun _ _ h => h
  reported := fun _ _ h => setEntry_true h
  done := fun d' p' _ h => by
    unfold Done at h ⊢
    split
    · rename_i hnone
      rw [if_pos hnone] at h
      exact setEntry_true h
    · rename_i hpersist
      rwa [if_neg hpersist] at h
  persistType := fun _ _ h => h

theorem Inv.setPushed (h : l.Inv g) {d p : ℕ} (hfinal : l.Final g d p) :
    ({ l with pushed := setEntry l.pushed d p true } : RddProgress).Inv g where
  __ := h
  transformed := fun m u hu => (Grows.setPushed d p).complete (h.transformed m u hu)
  partitionReady :=
    fun d' p' hp' hd' => (Grows.setPushed d p).done d' p' hp' (h.partitionReady d' p' hp' hd')
  pushed := fun d' p' hd' => by
    by_cases hp : d' = d ∧ p' = p
    · obtain ⟨rfl, rfl⟩ := hp
      exact hfinal
    · exact h.pushed d' p' ((setEntry_of_ne hp).symm.trans hd')
  reported := fun d' p' hd' u hu => (Grows.setPushed d p).complete (h.reported d' p' hd' u hu)

/-- A partition may report itself ready when all upstream RDDs are complete and no member is to hear
of a new persist type. -/
theorem Inv.setReported (h : l.Inv g) {d p : ℕ} (hcomplete : ∀ u ∈ g.upstreamRdd d, l.Complete g u)
    (hagree : ∀ m ∈ g.members, ∀ m' ∈ g.members, l.persistType m d = .none →
      l.persistType m' d = .none) :
    ({ l with reported := setEntry l.reported d p true } : RddProgress).Inv g := by
  have hgrows : Grows g l { l with reported := setEntry l.reported d p true } :=
    Grows.setReported d p
  exact
    { transformed := fun m u hu => hgrows.complete (h.transformed m u hu)
      ready := fun d' hd' =>
        ⟨fun p' hp' => hgrows.final ((h.ready d' hd').1 p' hp'), (h.ready d' hd').2⟩
      transformComplete := fun d' p' hd' => hgrows.final (h.transformComplete d' p' hd')
      partitionReady := fun d' p' hp' hd' => hgrows.done d' p' hp' (h.partitionReady d' p' hp' hd')
      pushed := fun d' p' hd' => hgrows.final (h.pushed d' p' hd')
      reported := fun d' p' hd' u hu => by
        refine hgrows.complete ?_
        by_cases hp : d' = d ∧ p' = p
        · obtain ⟨rfl, rfl⟩ := hp
          exact hcomplete u hu
        · exact h.reported d' p' ((setEntry_of_ne hp).symm.trans hd') u hu
      agree := fun d' p' hp' hd' => by
        by_cases hp : d' = d ∧ p' = p
        · obtain ⟨rfl, rfl⟩ := hp
          exact hagree
        · exact h.agree d' p' hp' ((setEntry_of_ne hp).symm.trans hd')
      delegate := h.delegate
      used := fun d' p' hd' => hgrows.final (h.used d' p' hd') }

end RddProgress

end Idgs.Rdd
