import Idgs.Common.Lists
import Idgs.Common.Tables
import Idgs.Rdd.Placement

/-!
# Agreeing reads give every partition one home

The objects of an RDD only gain partitions and actors, so what a message says stays true. When all
reads of partition tables agree, a member hosts the partitions that it owns and no others.
-/

namespace Idgs.Rdd.Placement

open Function List

variable {partitionSize : ℕ} {owner : ℕ → ℕ → ℕ}

namespace RddLocal

/-- All its partitions are hosted. -/
def Filled (x : RddLocal) : Prop := ∀ p ∈ x.localPartitions, (x.localPartitionMap p).isSome = true

/-- It has the partition map. -/
def Full (partitionSize : ℕ) (x : RddLocal) : Prop :=
  ∀ p < partitionSize, (x.partitionActors p).isSome = true

/-- Nothing that the object has is lost. -/
structure Extends (partitionSize : ℕ) (x x' : RddLocal) : Prop where
  member : x'.member = x.member
  rddName : x'.rddName = x.rddName
  rddId : x'.rddId = x.rddId
  localPartitions : x'.localPartitions = x.localPartitions
  hosted : ∀ p actor, x.localPartitionMap p = some actor → x'.localPartitionMap p = some actor
  full : x.Full partitionSize → x'.Full partitionSize

theorem Extends.refl (x : RddLocal) : x.Extends partitionSize x :=
  ⟨rfl, rfl, rfl, rfl, fun _ _ h => h, fun h => h⟩

theorem Extends.trans {x x' x'' : RddLocal} (h : x.Extends partitionSize x')
    (h' : x'.Extends partitionSize x'') :
    x.Extends partitionSize x'' where
  member := h'.member.trans h.member
  rddName := h'.rddName.trans h.rddName
  rddId := h'.rddId.trans h.rddId
  localPartitions := h'.localPartitions.trans h.localPartitions
  hosted := fun p actor hactor => h'.hosted p actor (h.hosted p actor hactor)
  full := fun hfull => h'.full (h.full hfull)

theorem Extends.filled {x x' : RddLocal} (h : x.Extends partitionSize x') (hx : x.Filled) :
    x'.Filled := by
  intro p hp
  obtain ⟨actor, hactor⟩ := Option.isSome_iff_exists.mp (hx p (h.localPartitions ▸ hp))
  rw [h.hosted p actor hactor]
  rfl

/-- A partition of the list has its actor and the state; another one has what it had. -/
theorem addPartitions_cases (x : RddLocal) (state : RddState) (parts : List (ℕ × ActorId)) (p : ℕ) :
    ((∀ actor, (p, actor) ∉ parts) ∧
      (x.addPartitions state parts).partitionActors p = x.partitionActors p ∧
      (x.addPartitions state parts).partitionStates p = x.partitionStates p) ∨
    ∃ actor, (p, actor) ∈ parts ∧
      (x.addPartitions state parts).partitionActors p = some actor ∧
      (x.addPartitions state parts).partitionStates p = state := by
  induction parts generalizing x with
  | nil => exact .inl ⟨fun _ => not_mem_nil, rfl, rfl⟩
  | cons part parts ih =>
    unfold addPartitions
    rw [foldl_cons]
    rcases ih { x with
        partitionStates := update x.partitionStates part.1 state
        partitionActors := update x.partitionActors part.1 (some part.2) } with
      ⟨hno, hactor, hstate⟩ | ⟨actor, hmem, h⟩
    · by_cases hp : p = part.1
      · subst hp
        exact .inr ⟨part.2, mem_cons_self, hactor.trans (update_self _ _ _),
          hstate.trans (update_self _ _ _)⟩
      · refine .inl ⟨fun actor hmem => ?_, hactor.trans (update_of_ne hp _ _),
          hstate.trans (update_of_ne hp _ _)⟩
        rcases mem_cons.mp hmem with rfl | hmem
        · exact hp rfl
        · exact hno actor hmem
    · exact .inr ⟨actor, mem_cons_of_mem _ hmem, h⟩

/-- A partition of the list has an actor then. -/
theorem isSome_partitionActors_addPartitions (x : RddLocal) (state : RddState)
    {parts : List (ℕ × ActorId)} {p : ℕ}
    (h : (x.partitionActors p).isSome = true ∨ ∃ actor, (p, actor) ∈ parts) :
    ((x.addPartitions state parts).partitionActors p).isSome = true := by
  rcases x.addPartitions_cases state parts p with ⟨hno, hactor, -⟩ | ⟨actor, -, hactor, -⟩
  · rw [hactor]
    exact h.resolve_right fun ⟨actor, hmem⟩ => hno actor hmem
  · rw [hactor]
    rfl
/-- Nothing else changes. -/
theorem addPartitions_eq (x : RddLocal) (state : RddState) (parts : List (ℕ × ActorId)) :
    x.addPartitions state parts =
      { x with
        partitionStates := (x.addPartitions state parts).partitionStates
        partitionActors := (x.addPartitions state parts).partitionActors } := by
  induction parts generalizing x with
  | nil => rfl
  | cons part parts ih =>
    unfold addPartitions
    rw [foldl_cons]
    exact ih _

end RddLocal

namespace Cluster

/-! ## What stays true -/

/-- The owner of the partition hosts it with that actor. -/
def HostedAt (partitionSize : ℕ) (owner : ℕ → ℕ → ℕ) (s : Cluster) (rddName p : ℕ)
    (actor : ActorId) : Prop :=
  p < partitionSize ∧ ∃ o x, s.rddLocalMap (owner rddName p) rddName = some o ∧
    s.rddLocal o = some x ∧
    x.localPartitionMap p = some actor

/-- The member has the partition map. -/
def FullAt (partitionSize : ℕ) (s : Cluster) (rddName m : ℕ) : Prop :=
  ∃ o x, s.rddLocalMap m rddName = some o ∧ s.rddLocal o = some x ∧ x.Full partitionSize

/-- The member and the name of a creation message. -/
def creation? : Message → Option (ℕ × ℕ)
  | .createRddPartition dest _ request => some (dest, request.outRdd)
  | _ => none

/-- The creations that are on their way. -/
def creations (s : Cluster) : List (ℕ × ℕ) := s.inFlight.filterMap creation?

/-- All partitions are hosted, and all local parts there are and will be have the partition map. -/
structure Settled (partitionSize : ℕ) (owner : ℕ → ℕ → ℕ) (s : Cluster) (rddName : ℕ) : Prop where
  hosted : ∀ p < partitionSize, ∃ actor, s.HostedAt partitionSize owner rddName p actor
  full : ∀ o x, s.rddLocal o = some x → x.rddName = rddName → x.Full partitionSize
  complete : ∀ d, (d, rddName) ∉ s.creations

/-- Objects and names stay, and no new objects of settled RDDs are made. -/
structure Grows (partitionSize : ℕ) (s s' : Cluster) : Prop where
  object : ∀ o x, s.rddLocal o = some x → ∃ x', s'.rddLocal o = some x' ∧ x.Extends partitionSize x'
  entry : ∀ m rddName o, s.rddLocalMap m rddName = some o → s'.rddLocalMap m rddName = some o
  rddOf : ∀ rddName a, s.rddOf rddName = some a → s'.rddOf rddName = some a
  fresh : ∀ o x', s'.rddLocal o = some x' →
    (∃ x, s.rddLocal o = some x) ∨ s.rddOf x'.rddName = none ∨ ∃ d, (d, x'.rddName) ∈ s.creations
  creations : ∀ d rddName a, s.rddOf rddName = some a → (d, rddName) ∈ s'.creations →
    (d, rddName) ∈ s.creations

section Growth

variable {s s' : Cluster}

theorem Grows.of_eq (hobject : s'.rddLocal = s.rddLocal) (hentry : s'.rddLocalMap = s.rddLocalMap)
    (hname : s'.rddOf = s.rddOf) (hcreations : s'.creations.Sublist s.creations) :
    s.Grows partitionSize s' where
  object := fun _ x hx => ⟨x, hobject ▸ hx, .refl x⟩
  entry := fun _ _ _ h => hentry ▸ h
  rddOf := fun _ _ h => hname ▸ h
  fresh := fun _ x hx => .inl ⟨x, hobject ▸ hx⟩
  creations := fun _ _ _ _ h => hcreations.mem h

section

variable (h : s.Grows partitionSize s')

include h

theorem Grows.hostedAt {rddName p : ℕ} {actor : ActorId}
    (hhosted : s.HostedAt partitionSize owner rddName p actor) :
    s'.HostedAt partitionSize owner rddName p actor := by
  obtain ⟨hp, o, x, hentry, hx, hactor⟩ := hhosted
  obtain ⟨x', hx', hext⟩ := h.object o x hx
  exact ⟨hp, o, x', h.entry _ _ o hentry, hx', hext.hosted p actor hactor⟩

theorem Grows.fullAt {rddName m : ℕ}
    (hfull : s.FullAt partitionSize rddName m) :
    s'.FullAt partitionSize rddName m := by
  obtain ⟨o, x, hentry, hx, hxfull⟩ := hfull
  obtain ⟨x', hx', hext⟩ := h.object o x hx
  exact ⟨o, x', h.entry _ _ o hentry, hx', hext.full hxfull⟩

theorem Grows.settled {rddName : ℕ} {a : ActorId}
    (hname : s.rddOf rddName = some a) (hsettled : s.Settled partitionSize owner rddName) :
    s'.Settled partitionSize owner rddName where
  hosted := fun p hp => (hsettled.hosted p hp).imp fun _ hhosted => h.hostedAt hhosted
  full := fun o x' hx' hxname => by
    rcases h.fresh o x' hx' with ⟨x, hx⟩ | hnone | ⟨d, hd⟩
    · obtain ⟨x'', hx'', hext⟩ := h.object o x hx
      obtain rfl : x'' = x' := Option.some.inj (hx''.symm.trans hx')
      exact hext.full (hsettled.full o x hx (hext.rddName.symm.trans hxname))
    · rw [hxname, hname] at hnone
      cases hnone
    · exact absurd (hxname ▸ hd) (hsettled.complete d)
  complete := fun d hd => hsettled.complete d (h.creations d rddName a hname hd)

end

end Growth

/-! ## What the objects and messages say -/

/-- The inputs of the RDD have the same owners. -/
def SameOwners (partitionSize : ℕ) (owner : ℕ → ℕ → ℕ) (request : CreateRddRequest) (rddName : ℕ) :
    Prop :=
  ∀ u ∈ request.inRdd, ∀ p < partitionSize, owner u.1 p = owner rddName p

/-- What a message says is true. -/
def Justified (partitionSize : ℕ) (owner : ℕ → ℕ → ℕ) (s : Cluster) : Message → Prop
  | .createRddPartition _ src request =>
    s.rddOf request.outRdd = some src ∧ SameOwners partitionSize owner request request.outRdd
  | .createRddPartitionResponse a _ code parts => code = true →
      ∃ rddName, s.rddOf rddName = some a ∧
      ∀ part ∈ parts, s.HostedAt partitionSize owner rddName part.1 part.2
  | .partitionCreated _ src rddName parts => s.rddOf rddName = some src ∧
      s.FullAt partitionSize rddName src.memberId ∧
      (∀ p < partitionSize, ∃ actor, (p, actor) ∈ parts) ∧
      ∀ part ∈ parts, s.HostedAt partitionSize owner rddName part.1 part.2
  | .rddPartitionPrepared a src code => code = true → ∃ rddName, s.rddOf rddName = some a ∧
      s.FullAt partitionSize rddName a.memberId ∧ s.FullAt partitionSize rddName src
  | .rddStateSync _ rddName state => (∃ a, s.rddOf rddName = some a) ∧ state ≠ .init ∧
      state ≠ .created ∧
      (state ≠ .error → s.Settled partitionSize owner rddName)

/-- What an object says is true. -/
structure Sound (partitionSize : ℕ) (owner : ℕ → ℕ → ℕ) (s : Cluster) (o : ℕ) (x : RddLocal) :
    Prop where
  entry : s.rddLocalMap x.member x.rddName = some o
  id : s.rddOf x.rddName = some x.rddId
  localPartitions : x.localPartitions = (List.range partitionSize).filter fun p =>
    x.member = owner x.rddName p
  hosts : ∀ p actor, x.localPartitionMap p = some actor → p ∈ x.localPartitions
  filled : x.member ≠ x.rddId.memberId ∨ x.state ≠ .init ∧ x.state ≠ .error → x.Filled
  actors : ∀ p actor, x.partitionActors p = some actor →
    s.HostedAt partitionSize owner x.rddName p actor
  counted : x.member = x.rddId.memberId → ∀ p < partitionSize,
    x.partitionStates p = .created ∨ x.partitionStates p = .prepared →
    (x.partitionActors p).isSome = true
  prepared : x.member = x.rddId.memberId → ∀ p < partitionSize, x.partitionStates p = .prepared →
    s.FullAt partitionSize x.rddName (owner x.rddName p)
  settled : x.member = x.rddId.memberId → unprepared x.state = false →
    s.Settled partitionSize owner x.rddName
  inputs : ∀ request, x.transformerMsg = some request →
    SameOwners partitionSize owner request x.rddName
  linked : ∀ u, u ∈ x.upstreamRddLocal ∨ u ∈ x.downstreamRddLocal →
    x.Filled ∧ ∃ y, s.rddLocal u = some y ∧
    y.member = x.member ∧ y.Filled ∧ ∀ p < partitionSize, owner y.rddName p = owner x.rddName p

section Growth

variable {s s' : Cluster}

theorem Grows.justified (h : s.Grows partitionSize s') {m : Message}
    (hm : s.Justified partitionSize owner m) :
    s'.Justified partitionSize owner m := by
  cases m with
  | createRddPartition dest src request => exact ⟨h.rddOf _ _ hm.1, hm.2⟩
  | createRddPartitionResponse a src code parts =>
    intro hcode
    obtain ⟨rddName, hname, hparts⟩ := hm hcode
    exact ⟨rddName, h.rddOf _ _ hname, fun part hpart => h.hostedAt (hparts part hpart)⟩
  | partitionCreated dest src rddName parts =>
    obtain ⟨hname, hfull, hall, hparts⟩ := hm
    exact ⟨h.rddOf _ _ hname, h.fullAt hfull, hall, fun part hpart =>
      h.hostedAt (hparts part hpart)⟩
  | rddPartitionPrepared a src code =>
    intro hcode
    obtain ⟨rddName, hname, hfull, hsrc⟩ := hm hcode
    exact ⟨rddName, h.rddOf _ _ hname, h.fullAt hfull, h.fullAt hsrc⟩
  | rddStateSync dest rddName state =>
    obtain ⟨⟨a, hname⟩, hinit, hcreated, hsettled⟩ := hm
    exact ⟨⟨a, h.rddOf _ _ hname⟩, hinit, hcreated, fun herror =>
      h.settled hname (hsettled herror)⟩

theorem Grows.sound (h : s.Grows partitionSize s') {o : ℕ} {x : RddLocal}
    (hx : s.Sound partitionSize owner o x) :
    s'.Sound partitionSize owner o x where
  entry := h.entry _ _ _ hx.entry
  id := h.rddOf _ _ hx.id
  localPartitions := hx.localPartitions
  hosts := hx.hosts
  filled := hx.filled
  actors := fun p actor hactor => h.hostedAt (hx.actors p actor hactor)
  counted := hx.counted
  prepared := fun hmember p hp hstate => h.fullAt (hx.prepared hmember p hp hstate)
  settled := fun hmember hstate => h.settled hx.id (hx.settled hmember hstate)
  inputs := hx.inputs
  linked := fun u hu => by
    obtain ⟨hfilled, y, hy, hmember, hyfilled, howner⟩ := hx.linked u hu
    obtain ⟨y', hy', hext⟩ := h.object u y hy
    exact ⟨hfilled, y', hy', hext.member.trans hmember, hext.filled hyfilled, hext.rddName ▸ howner⟩

end Growth

/-- The invariant. -/
structure Inv (partitionSize : ℕ) (owner : ℕ → ℕ → ℕ) (s : Cluster) : Prop where
  objects : ∀ o x, s.rddLocal o = some x → s.Sound partitionSize owner o x
  fresh : ∀ o, s.nextObject ≤ o → s.rddLocal o = none
  entries : ∀ m rddName o, s.rddLocalMap m rddName = some o →
    ∃ x, s.rddLocal o = some x ∧ x.member = m ∧ x.rddName = rddName
  rddActors : ∀ a o, s.rddActor a = some o → ∃ x, s.rddLocal o = some x ∧ x.rddId = a ∧
    x.member = a.memberId
  ids : ∀ rddName a, s.rddOf rddName = some a → a.actorId < s.nextActor
  distinct : ∀ rddName rddName' a, s.rddOf rddName = some a → s.rddOf rddName' = some a →
    rddName = rddName'
  messages : ∀ m ∈ s.inFlight, s.Justified partitionSize owner m
  creations : s.creations.Nodup
  unfilled : ∀ d rddName, (d, rddName) ∈ s.creations → ∀ o x, s.rddLocalMap d rddName = some o →
    s.rddLocal o = some x → ∀ p, x.localPartitionMap p = none

section Steps

variable {s s' : Cluster} {o i m : ℕ} {x x' : RddLocal} {a : ActorId}

theorem creations_append (messages : List Message) (s : Cluster) :
    (s.send messages).creations = s.creations ++ messages.filterMap creation? :=
    filterMap_append

section

variable (h : s.Inv partitionSize owner)

include h

section

variable (hx : s.rddLocal o = some x)

include hx

/-- The name of an RDD is that of its objects. -/
theorem Inv.rddName_eq {rddName : ℕ}
    (hname : s.rddOf rddName = some x.rddId) : rddName = x.rddName :=
  h.distinct _ _ _ hname (h.objects o x hx).id

/-- The object of a member that has the partition map. -/
theorem Inv.full_of_fullAt
    (hfull : s.FullAt partitionSize x.rddName x.member) : x.Full partitionSize := by
  obtain ⟨o', x', hentry, hx', hxfull⟩ := hfull
  rw [(h.objects o x hx).entry] at hentry
  obtain rfl := Option.some.inj hentry
  obtain rfl := Option.some.inj (hx.symm.trans hx')
  exact hxfull

/-- When all partitions are hosted, an object hosts its own. -/
theorem Inv.filled_of_hosted
    (hhosted : ∀ p < partitionSize, ∃ actor, s.HostedAt partitionSize owner x.rddName p actor) :
    x.Filled := by
  intro p hp
  rw [(h.objects o x hx).localPartitions, mem_filter, mem_range] at hp
  obtain ⟨actor, -, o', x', hentry, hx', hactor⟩ := hhosted p hp.1
  rw [← of_decide_eq_true hp.2, (h.objects o x hx).entry] at hentry
  obtain rfl := Option.some.inj hentry
  obtain rfl := Option.some.inj (hx.symm.trans hx')
  rw [hactor]
  rfl

end

/-- The objects, names and ids are the same, and there are only messages that are justified. -/
theorem Inv.of_eq (hobject : s'.rddLocal = s.rddLocal)
    (hentry : s'.rddLocalMap = s.rddLocalMap) (hactor : s'.rddActor = s.rddActor)
    (hname : s'.rddOf = s.rddOf)
    (hnext : s'.nextObject = s.nextObject) (hnextActor : s'.nextActor = s.nextActor)
    (hcreations : s'.creations.Sublist s.creations)
    (hmessages : ∀ m ∈ s'.inFlight, s.Justified partitionSize owner m) :
    s'.Inv partitionSize owner := by
  have hgrows : s.Grows partitionSize s' := .of_eq hobject hentry hname hcreations
  refine ⟨?_, ?_, ?_, ?_, ?_, ?_, fun m hm => hgrows.justified (hmessages m hm),
    h.creations.sublist hcreations, ?_⟩
  · exact fun o x hx => hgrows.sound (h.objects o x (hobject ▸ hx))
  · rw [hobject, hnext]
    exact h.fresh
  · rw [hobject, hentry]
    exact h.entries
  · rw [hobject, hactor]
    exact h.rddActors
  · rw [hname, hnextActor]
    exact h.ids
  · rw [hname]
    exact h.distinct
  · rw [hobject, hentry]
    exact fun d rddName hd => h.unfilled d rddName (hcreations.mem hd)

/-- Messages that are no creations and justified are sent. -/
theorem Inv.send {messages : List Message}
    (hmessages : ∀ m ∈ messages, creation? m = none ∧ s.Justified partitionSize owner m) :
    (s.send messages).Inv partitionSize owner := by
  refine h.of_eq rfl rfl rfl rfl rfl rfl ?_ fun m hm => ?_
  · rw [creations_append, filterMap_eq_nil_iff.mpr fun m hm => (hmessages m hm).1, append_nil]
  · rcases mem_append.mp hm with hm | hm
    · exact h.messages m hm
    · exact (hmessages m hm).2

theorem Inv.send_one {m : Message} (hm : creation? m = none)
    (hjustified : s.Justified partitionSize owner m) : (s.send [m]).Inv partitionSize owner :=
  h.send fun m' hmem => by
    obtain rfl := mem_singleton.mp hmem
    exact ⟨hm, hjustified⟩

/-- A message is taken. -/
theorem Inv.remove (i : ℕ) : (s.remove i).Inv partitionSize owner :=
  h.of_eq rfl rfl rfl rfl rfl rfl ((eraseIdx_sublist _ i).filterMap _) fun m hm =>
    h.messages m ((eraseIdx_sublist _ i).mem hm)

/-- The same message goes to several members. -/
theorem Inv.multicast (m : ℕ) {message : ℕ → Message}
    (hmessage : ∀ d, creation? (message d) = none ∧ s.Justified partitionSize owner (message d)) :
    (s.multicastRddMessage m message).Inv partitionSize owner := by
  refine h.send fun message' hmem => ?_
  obtain ⟨d, -, rfl⟩ := mem_map.mp hmem
  exact hmessage d

end

theorem rddLocal_setRddLocal (s : Cluster) (o : ℕ) (x : RddLocal) :
    (s.setRddLocal o x).rddLocal = update s.rddLocal o (some x) := rfl

/-- An object changes to one that has all that it had. -/
theorem setRddLocal_grows (hx : s.rddLocal o = some x) (hext : x.Extends partitionSize x') :
    s.Grows partitionSize (s.setRddLocal o x') where
  object := fun o' y hy => by
    by_cases ho : o' = o
    · subst ho
      obtain rfl := Option.some.inj (hx.symm.trans hy)
      exact ⟨x', update_self o' _ _, hext⟩
    · exact ⟨y, (update_of_ne ho _ _).trans hy, .refl y⟩
  entry := fun _ _ _ h => h
  rddOf := fun _ _ h => h
  fresh := fun o' y hy => by
    by_cases ho : o' = o
    · exact .inl ⟨x, ho ▸ hx⟩
    · exact .inl ⟨y, (update_of_ne ho _ _).symm.trans hy⟩
  creations := fun _ _ _ _ h => h

/-- What the object says must be true. -/
theorem Inv.setRddLocal (h : s.Inv partitionSize owner) (hx : s.rddLocal o = some x)
    (hext : x.Extends partitionSize x') (hhosts : x'.localPartitionMap = x.localPartitionMap)
    (hsound : s.Sound partitionSize owner o x') : (s.setRddLocal o x').Inv partitionSize owner := by
  have hgrows := setRddLocal_grows hx hext
  have hcases : ∀ o' y, (s.setRddLocal o x').rddLocal o' = some y →
      (o' = o ∧ y = x') ∨ (o' ≠ o ∧ s.rddLocal o' = some y) := by
    intro o' y hy
    rw [rddLocal_setRddLocal] at hy
    exact Common.update_some_iff.mp hy
  refine ⟨?_, ?_, ?_, ?_, h.ids, h.distinct, fun m hm => hgrows.justified (h.messages m hm),
    h.creations, ?_⟩
  · intro o' y hy
    rcases hcases o' y hy with ⟨rfl, rfl⟩ | ⟨-, hy⟩
    · exact hgrows.sound hsound
    · exact hgrows.sound (h.objects o' y hy)
  · intro o' ho'
    refine (update_of_ne ?_ _ _).trans (h.fresh o' ho')
    rintro rfl
    rw [h.fresh o' ho'] at hx
    cases hx
  · intro m rddName o' hentry
    obtain ⟨y, hy, hmember, hname⟩ := h.entries m rddName o' hentry
    obtain ⟨y', hy', hext'⟩ := hgrows.object o' y hy
    exact ⟨y', hy', hext'.member.trans hmember, hext'.rddName.trans hname⟩
  · intro a o' hactor
    obtain ⟨y, hy, hid, hmember⟩ := h.rddActors a o' hactor
    obtain ⟨y', hy', hext'⟩ := hgrows.object o' y hy
    exact ⟨y', hy', hext'.rddId.trans hid, hext'.member.trans hmember⟩
  · intro d rddName hd o' y hentry hy p
    rcases hcases o' y hy with ⟨rfl, rfl⟩ | ⟨-, hy⟩
    · rw [hhosts]
      exact h.unfilled d rddName hd o' x hentry hx p
    · exact h.unfilled d rddName hd o' y hentry hy p

/-- The state of an RDD changes on its member. -/
theorem Inv.changeRddState (h : s.Inv partitionSize owner) (hx : s.rddLocal o = some x)
    (hext : x.Extends partitionSize x') (hhosts : x'.localPartitionMap = x.localPartitionMap)
    (hsound : s.Sound partitionSize owner o x') (hinit : x'.state ≠ .init)
    (hcreated : x'.state ≠ .created)
    (hsettled : x'.state ≠ .error → s.Settled partitionSize owner x'.rddName) :
    (s.changeRddState o x').Inv partitionSize owner := by
  have hgrows := setRddLocal_grows hx hext
  refine (h.setRddLocal hx hext hhosts hsound).multicast _ fun d => ⟨rfl, ?_⟩
  exact hgrows.justified (m := .rddStateSync d x'.rddName x'.state) ⟨⟨_, hsound.id⟩, hinit,
    hcreated, hsettled⟩

/-- A state that says that all partitions are prepared when they are not known to be is never
set. -/
theorem Sound.setState (h : s.Sound partitionSize owner o x) (state : RddState)
    (hsettled : unprepared state = false → s.Settled partitionSize owner x.rddName)
    (hfilled : state ≠ .error → x.Filled) :
    s.Sound partitionSize owner o { x with state := state } where
  __ := h
  filled := fun hor => hor.elim (fun hmember => h.filled (.inl hmember)) fun hstate =>
    hfilled hstate.2
  settled := fun _ hstate => hsettled hstate

/-- An RDD fails. -/
theorem Inv.processRddError (h : s.Inv partitionSize owner) (hx : s.rddLocal o = some x) :
    (s.processRddError o x).Inv partitionSize owner :=
  h.changeRddState hx ⟨rfl, rfl, rfl, rfl, fun _ _ h => h, fun h => h⟩ rfl
    ((h.objects o x hx).setState .error (fun h => by cases h) fun hne => absurd rfl hne)
    (show RddState.error ≠ .init by decide) (show RddState.error ≠ .created by decide) fun hne =>
      absurd rfl hne

/-! ## The answers to the creation -/

theorem extends_addPartitions (x : RddLocal) (state : RddState) (parts : List (ℕ × ActorId)) :
    x.Extends partitionSize (x.addPartitions state parts) := by
  have hfull : x.Full partitionSize → (x.addPartitions state parts).Full partitionSize :=
    fun hfull p hp =>
    RddLocal.isSome_partitionActors_addPartitions x state (.inl (hfull p hp))
  rw [RddLocal.addPartitions_eq] at hfull ⊢
  exact ⟨rfl, rfl, rfl, rfl, fun _ _ h => h, hfull⟩

/-- Actors that host partitions are added; on the member of the RDD they are only counted as
created. -/
theorem Sound.addPartitions (h : s.Sound partitionSize owner o x) (state : RddState)
    {parts : List (ℕ × ActorId)}
    (hparts : ∀ part ∈ parts, s.HostedAt partitionSize owner x.rddName part.1 part.2)
    (hstate : x.member = x.rddId.memberId → state ≠ .prepared) :
    s.Sound partitionSize owner o (x.addPartitions state parts) := by
  have hactors : ∀ p actor, (x.addPartitions state parts).partitionActors p = some actor →
      s.HostedAt partitionSize owner x.rddName p actor := by
    intro p actor hactor
    rcases x.addPartitions_cases state parts p with ⟨-, hold, -⟩ | ⟨actor', hmem, hnew, -⟩
    · exact h.actors p actor (hold.symm.trans hactor)
    · obtain rfl := Option.some.inj (hnew.symm.trans hactor)
      exact hparts _ hmem
  have hcounted : x.member = x.rddId.memberId → ∀ p < partitionSize,
      (x.addPartitions state parts).partitionStates p = .created ∨
        (x.addPartitions state parts).partitionStates p = .prepared →
      ((x.addPartitions state parts).partitionActors p).isSome = true := by
    intro hmember p hp hpstate
    refine RddLocal.isSome_partitionActors_addPartitions x state ?_
    rcases x.addPartitions_cases state parts p with ⟨-, -, hold⟩ | ⟨actor, hmem, -⟩
    · rw [hold] at hpstate
      exact .inl (h.counted hmember p hp hpstate)
    · exact .inr ⟨actor, hmem⟩
  have hprepared : x.member = x.rddId.memberId → ∀ p < partitionSize,
      (x.addPartitions state parts).partitionStates p = .prepared →
      s.FullAt partitionSize x.rddName (owner x.rddName p) := by
    intro hmember p hp hpstate
    rcases x.addPartitions_cases state parts p with ⟨-, -, hold⟩ | ⟨-, -, -, hnew⟩
    · exact h.prepared hmember p hp (hold.symm.trans hpstate)
    · exact absurd (hnew.symm.trans hpstate) (hstate hmember)
  rw [RddLocal.addPartitions_eq] at hactors hcounted hprepared ⊢
  exact
    { entry := h.entry
      id := h.id
      localPartitions := h.localPartitions
      hosts := h.hosts
      filled := h.filled
      actors := hactors
      counted := hcounted
      prepared := hprepared
      settled := h.settled
      inputs := h.inputs
      linked := h.linked }

/-- The object of the actor of an RDD. -/
theorem Inv.rddActor_spec (h : s.Inv partitionSize owner) (ho : s.rddActor a = some o)
    (hx : s.rddLocal o = some x) :
    x.rddId = a ∧ x.member = a.memberId := by
  obtain ⟨x', hx', hid, hmember⟩ := h.rddActors a o ho
  obtain rfl := Option.some.inj (hx.symm.trans hx')
  exact ⟨hid, hmember⟩

theorem Inv.handleCreateRddPartitionResponse (h : s.Inv partitionSize owner) {src : ℕ} {code : Bool}
    {parts : List (ℕ × ActorId)}
    (hm : s.Justified partitionSize owner (.createRddPartitionResponse a src code parts))
    (hs : s.handleCreateRddPartitionResponse partitionSize a code parts = some s') :
    s'.Inv partitionSize owner := by
  obtain ⟨o, ho, hs⟩ := Option.bind_eq_some_iff.mp hs
  obtain ⟨x, hx, rfl⟩ := Option.map_eq_some_iff.mp hs
  obtain ⟨hid, hmember⟩ := h.rddActor_spec ho hx
  split
  · exact h
  split
  · exact h.processRddError hx
  rename_i herror hcode
  obtain ⟨rddName, hname, hparts⟩ := hm (by simpa using hcode)
  rw [← hid] at hname
  obtain rfl := h.rddName_eq hx hname
  have hext : x.Extends partitionSize (x.addPartitions .created parts) :=
    extends_addPartitions x .created parts
  have hsound := (h.objects o x hx).addPartitions .created hparts fun _ h => by cases h
  have hset := h.setRddLocal hx hext (by rw [RddLocal.addPartitions_eq]) hsound
  have hgrows := setRddLocal_grows hx hext
  have hx' := update_self o (some (x.addPartitions .created parts)) s.rddLocal
  dsimp only
  split
  · rename_i hall
    have hfull : (x.addPartitions .created parts).Full partitionSize := fun p hp =>
      hsound.counted (by rw [hext.member, hext.rddId, hmember, hid]) p hp
        (.inl (by simpa using all_eq_true.mp hall p (mem_range.mpr hp)))
    refine hset.multicast _ fun d =>
      ⟨rfl, hgrows.rddOf _ _ hsound.id, ?_, fun p hp => ?_, fun part hpart => ?_⟩
    · refine ⟨o, _, ?_, hx', hfull⟩
      rw [hext.rddId, hid, ← hmember, ← hext.member]
      exact hgrows.entry _ _ _ hsound.entry
    · obtain ⟨actor, hactor⟩ := Option.isSome_iff_exists.mp (hfull p hp)
      exact ⟨actor, mem_filterMap.mpr ⟨p, mem_range.mpr hp, by rw [hactor]; rfl⟩⟩
    · obtain ⟨p, -, hmap⟩ := mem_filterMap.mp hpart
      obtain ⟨actor, hactor, rfl⟩ := Option.map_eq_some_iff.mp hmap
      exact hgrows.hostedAt (hsound.actors p actor hactor)
  · exact hset

/-! ## Preparing -/

theorem Grows.trans {s'' : Cluster} (h : s.Grows partitionSize s')
    (h' : s'.Grows partitionSize s'') :
    s.Grows partitionSize s'' where
  object := fun o x hx => by
    obtain ⟨x', hx', hext⟩ := h.object o x hx
    obtain ⟨x'', hx'', hext'⟩ := h'.object o x' hx'
    exact ⟨x'', hx'', hext.trans hext'⟩
  entry := fun m rddName o hentry => h'.entry m rddName o (h.entry m rddName o hentry)
  rddOf := fun rddName a hname => h'.rddOf rddName a (h.rddOf rddName a hname)
  fresh := fun o x'' hx'' => by
    have hpending : ∀ rddName, s'.rddOf rddName = none ∨ (∃ d, (d, rddName) ∈ s'.creations) →
        s.rddOf rddName = none ∨ ∃ d, (d, rddName) ∈ s.creations := by
      intro rddName hor
      cases hname : s.rddOf rddName with
      | none => exact .inl rfl
      | some a =>
        rcases hor with hnone | ⟨d, hd⟩
        · rw [h.rddOf rddName a hname] at hnone
          cases hnone
        · exact .inr ⟨d, h.creations d rddName a hname hd⟩
    rcases h'.fresh o x'' hx'' with ⟨x', hx'⟩ | hor
    · rcases h.fresh o x' hx' with hold | hor
      · exact .inl hold
      · obtain ⟨y, hy, hext⟩ := h'.object o x' hx'
        obtain rfl := Option.some.inj (hy.symm.trans hx'')
        rw [hext.rddName]
        exact .inr hor
    · exact .inr (hpending x''.rddName hor)
  creations := fun d rddName a hname hd =>
    h.creations d rddName a hname (h'.creations d rddName a (h.rddOf rddName a hname) hd)

theorem Grows.refl (s : Cluster) : s.Grows partitionSize s :=
  .of_eq rfl rfl rfl (List.Sublist.refl _)

/-- Two objects of a member whose partitions have the same owners, and are hosted. -/
structure Linkable (partitionSize : ℕ) (owner : ℕ → ℕ → ℕ) (x y : RddLocal) : Prop where
  filled : x.Filled
  filled' : y.Filled
  member : y.member = x.member
  owners : ∀ p < partitionSize, owner y.rddName p = owner x.rddName p

/-- More links to linkable objects. -/
theorem Sound.link (h : s.Sound partitionSize owner o x) {v : ℕ} {y : RddLocal}
    (hv : s.rddLocal v = some y)
    (hlink : Linkable partitionSize owner x y) {upstream downstream : List ℕ}
    (hsub : ∀ u, u ∈ upstream ∨ u ∈ downstream →
      (u ∈ x.upstreamRddLocal ∨ u ∈ x.downstreamRddLocal) ∨ u = v) :
    s.Sound partitionSize owner o
    { x with upstreamRddLocal := upstream, downstreamRddLocal := downstream } where
  __ := h
  linked := fun u hu => by
    rcases hsub u hu with hold | rfl
    · exact h.linked u hold
    · exact ⟨hlink.filled, y, hv, hlink.member, hlink.filled', hlink.owners⟩

theorem modifyRddLocal_of_some (hx : s.rddLocal o = some x) (f : RddLocal → RddLocal) :
    s.modifyRddLocal o f = s.setRddLocal o (f x) := by
  unfold modifyRddLocal
  rw [hx]

section

variable (h : s.Inv partitionSize owner)

include h

/-- An input and the RDD are linked. -/
theorem Inv.link (hx : s.rddLocal o = some x) {v : ℕ} {y : RddLocal}
    (hv : s.rddLocal v = some y) (hlink : Linkable partitionSize owner x y) :
    (s.link o v).Inv partitionSize owner ∧ s.Grows partitionSize (s.link o v) := by
  have hext : x.Extends partitionSize { x with upstreamRddLocal := x.upstreamRddLocal ++ [v] } :=
    ⟨rfl, rfl, rfl, rfl, fun _ _ h => h, fun h => h⟩
  have hset := h.setRddLocal hx hext rfl ((h.objects o x hx).link hv hlink fun u hu => by
    rcases hu with hu | hu
    · rcases mem_append.mp hu with hu | hu
      · exact .inl (.inl hu)
      · exact .inr (mem_singleton.mp hu)
    · exact .inl (.inr hu))
  have hgrows := setRddLocal_grows hx hext
  obtain ⟨y', hy', hyext⟩ := hgrows.object v y hv
  have hlink' : Linkable partitionSize owner y' { x with
    upstreamRddLocal := x.upstreamRddLocal ++ [v] } :=
    ⟨hyext.filled hlink.filled', hlink.filled, hlink.member.symm.trans hyext.member.symm,
      fun p hp => by
      rw [hyext.rddName]
      exact (hlink.owners p hp).symm⟩
  have hext' : y'.Extends partitionSize { y' with
    downstreamRddLocal := y'.downstreamRddLocal ++ [o] } :=
    ⟨rfl, rfl, rfl, rfl, fun _ _ h => h, fun h => h⟩
  unfold Cluster.link
  rw [modifyRddLocal_of_some hx, modifyRddLocal_of_some hy']
  refine ⟨hset.setRddLocal hy' hext' rfl ?_, hgrows.trans (setRddLocal_grows hy' hext')⟩
  refine (hset.objects v y' hy').link (update_self o _ s.rddLocal) hlink' fun u hu => ?_
  rcases hu with hu | hu
  · exact .inl (.inl hu)
  · rcases mem_append.mp hu with hu | hu
    · exact .inl (.inr hu)
    · exact .inr (mem_singleton.mp hu)

/-- The inputs are linked. -/
theorem Inv.linkInputs (hx : s.rddLocal o = some x) {inputs : List (ℕ × Bool)}
    (hlink : ∀ u ∈ inputs, ∃ v y, s.rddLocalMap x.member u.1 = some v ∧ s.rddLocal v = some y ∧
      Linkable partitionSize owner x y) :
    (s.linkInputs x.member o inputs).1.Inv partitionSize owner ∧
      s.Grows partitionSize (s.linkInputs x.member o inputs).1 := by
  induction inputs generalizing s x with
  | nil => exact ⟨h, .refl s⟩
  | cons u inputs ih =>
    obtain ⟨v, y, hentry, hy, hxy⟩ := hlink u mem_cons_self
    obtain ⟨hinv, hgrows⟩ := h.link hx hy hxy
    unfold linkInputs
    rw [hentry]
    dsimp only
    split
    · obtain ⟨x', hx', hext⟩ := hgrows.object o x hx
      have hmore := ih hinv hx' fun u' hu' => by
        obtain ⟨v', z, hentry', hz, hxz⟩ := hlink u' (mem_cons_of_mem _ hu')
        obtain ⟨z', hz', hzext⟩ := hgrows.object v' z hz
        refine ⟨v', z', hext.member ▸ hgrows.entry _ _ _ hentry', hz', hext.filled hxz.filled,
          hzext.filled hxz.filled', ?_, fun p hp => ?_⟩
        · rw [hzext.member, hext.member, hxz.member]
        · rw [hzext.rddName, hext.rddName, hxz.owners p hp]
      rw [hext.member] at hmore
      exact ⟨hmore.1, hgrows.trans hmore.2⟩
    · exact ⟨hinv, hgrows⟩

/-- Inputs that are ready have their partitions. -/
theorem Inv.filled_of_checkInputs {m : ℕ} {inputs : List (ℕ × Bool)}
    (hready : s.checkInputs m inputs = .ready) :
    ∀ u ∈ inputs, ∃ v y, s.rddLocalMap m u.1 = some v ∧ s.rddLocal v = some y ∧ y.Filled := by
  induction inputs with
  | nil => exact fun u hu => absurd hu not_mem_nil
  | cons u inputs ih =>
    unfold checkInputs at hready
    split at hready
    · cases hready
    rename_i y hfound
    obtain ⟨v, hentry, hy⟩ := Option.bind_eq_some_iff.mp hfound
    split at hready
    · cases hready
    split at hready
    · cases hready
    rename_i herror hinit
    intro u' hu'
    rcases mem_cons.mp hu' with rfl | hu'
    · exact ⟨v, y, hentry, hy, (h.objects v y hy).filled (.inr ⟨fun h => hinit (.inl h), herror⟩)⟩
    · exact ih hready u' hu'

/-- Whatever becomes of the inputs, the invariant holds. -/
theorem Inv.prepareInputs (hx : s.rddLocal o = some x)
    (hfilled : x.Filled) {r : Cluster × Bool} (hs : s.prepareInputs x.member o x = some (some r)) :
    r.1.Inv partitionSize owner ∧ s.Grows partitionSize r.1 := by
  unfold Cluster.prepareInputs at hs
  split at hs
  · obtain rfl := Option.some.inj (Option.some.inj hs)
    exact ⟨h, .refl s⟩
  obtain ⟨request, hrequest, hs⟩ := Option.map_eq_some_iff.mp hs
  split at hs
  · cases hs
  · obtain rfl := Option.some.inj hs
    exact ⟨h, .refl s⟩
  · rename_i hready
    split at hs
    · obtain rfl := Option.some.inj hs
      refine h.linkInputs hx fun u hu => ?_
      obtain ⟨v, y, hentry, hy, hyfilled⟩ := h.filled_of_checkInputs hready u hu
      obtain ⟨y', hy', hmember, hname⟩ := h.entries _ _ _ hentry
      obtain rfl := Option.some.inj (hy.symm.trans hy')
      exact ⟨v, y, hentry, hy, hfilled, hyfilled, hmember, fun p hp =>
        hname ▸ (h.objects o x hx).inputs request hrequest u hu p hp⟩
    · obtain rfl := Option.some.inj hs
      exact ⟨h, .refl s⟩

theorem Inv.handlePartitionCreated {dest : ℕ} {src : ActorId} {rddName : ℕ}
    {parts : List (ℕ × ActorId)}
    (hm : s.Justified partitionSize owner (.partitionCreated dest src rddName parts))
    (hs : s.handlePartitionCreated dest src rddName parts = some s') :
    s'.Inv partitionSize owner := by
  obtain ⟨hname, hfull, hall, hparts⟩ := id hm
  unfold Cluster.handlePartitionCreated at hs
  split at hs
  · obtain rfl := Option.some.inj hs
    exact h.send_one rfl fun h => by cases h
  rename_i o hentry
  obtain ⟨x, hx, hs⟩ := Option.bind_eq_some_iff.mp hs
  obtain ⟨x', hx', hmember, hxname⟩ := h.entries _ _ _ hentry
  obtain rfl := Option.some.inj (hx.symm.trans hx')
  subst hmember hxname
  have hid : x.rddId = src := Option.some.inj ((h.objects o x hx).id.symm.trans hname)
  have hhosted : ∀ p < partitionSize, ∃ actor, s.HostedAt partitionSize owner x.rddName p actor :=
    fun p hp =>
    (hall p hp).imp fun actor hpart => hparts _ hpart
  have hfilled := h.filled_of_hosted hx hhosted
  obtain ⟨r, hr, rfl⟩ := Option.map_eq_some_iff.mp hs
  rcases r with _ | ⟨s₁, code⟩
  · exact h.send_one rfl hm
  obtain ⟨hinv, hgrows⟩ := h.prepareInputs hx hfilled hr
  cases code with
  | false =>
    exact hinv.send_one rfl fun h => by cases h
  | true =>
    dsimp only at hinv hgrows ⊢
    split
    · rename_i hown
      exact hinv.send_one rfl fun _ =>
        ⟨x.rddName, hgrows.rddOf _ _ hname, hgrows.fullAt hfull, hgrows.fullAt (hown ▸ hfull)⟩
    · rename_i hother
      obtain ⟨y, hy, hext⟩ := hgrows.object o x hx
      have hmember : y.member ≠ y.rddId.memberId := by
        rw [hext.member, hext.rddId, hid]
        exact Ne.symm hother
      have hyname : y.rddName = x.rddName := hext.rddName
      have hprepared : s₁.Sound partitionSize owner o { y with state := .prepared } :=
        { hinv.objects o y hy with
          filled := fun _ => (hinv.objects o y hy).filled (.inl hmember)
          settled := fun h => absurd h hmember }
      have hsound := hprepared.addPartitions .prepared
        (fun part hpart => hyname ▸ hgrows.hostedAt (hparts part hpart)) fun h => absurd h hmember
      have hstate : y.Extends partitionSize { y with state := .prepared } :=
        ⟨rfl, rfl, rfl, rfl, fun _ _ h => h, fun h => h⟩
      have hext' : y.Extends partitionSize
          (RddLocal.addPartitions { y with state := .prepared } .prepared parts) :=
        hstate.trans (extends_addPartitions _ .prepared parts)
      have hset := hinv.setRddLocal hy hext' (by rw [RddLocal.addPartitions_eq]) hsound
      have hgrows' := hgrows.trans (setRddLocal_grows hy hext')
      rw [modifyRddLocal_of_some hy]
      refine hset.send_one rfl fun _ =>
        ⟨x.rddName, hgrows'.rddOf _ _ hname, hgrows'.fullAt hfull, ?_⟩
      refine ⟨o, _, hgrows'.entry _ _ _ hentry, update_self o _ _, fun p hp => ?_⟩
      exact RddLocal.isSome_partitionActors_addPartitions _ _ (.inr (hall p hp))

end

/-! ## Creating -/

/-- An object of a member gets more, or there is a new one for a name that is new or still being
created. -/
structure Puts (partitionSize : ℕ) (s s' : Cluster) (o : ℕ) (x' : RddLocal) : Prop where
  object : s'.rddLocal = Function.update s.rddLocal o (some x')
  entry : s'.rddLocalMap = Function.update s.rddLocalMap x'.member
    (Function.update (s.rddLocalMap x'.member) x'.rddName (some o))
  rddOf : ∀ rddName a, s.rddOf rddName = some a → s'.rddOf rddName = some a
  source : (∃ x, s.rddLocal o = some x ∧ x.Extends partitionSize x') ∨
    (s.rddLocal o = none ∧ s.rddLocalMap x'.member x'.rddName = none ∧
      (s.rddOf x'.rddName = none ∨ ∃ d, (d, x'.rddName) ∈ s.creations))
  creations : ∀ d rddName a, s.rddOf rddName = some a → (d, rddName) ∈ s'.creations →
    (d, rddName) ∈ s.creations

section

variable (hput : Puts partitionSize s s' o x')

include hput

/-- The objects afterwards. -/
theorem Puts.cases {o' : ℕ} {y : RddLocal} (hy : s'.rddLocal o' = some y) :
    (o' = o ∧ y = x') ∨ (o' ≠ o ∧ s.rddLocal o' = some y) := by
  rw [hput.object] at hy
  exact Common.update_some_iff.mp hy

/-- The entries afterwards. -/
theorem Puts.entry_cases {m rddName o' : ℕ} (hentry : s'.rddLocalMap m rddName = some o') :
    (m = x'.member ∧ rddName = x'.rddName ∧ o' = o) ∨ s.rddLocalMap m rddName = some o' := by
  rw [hput.entry] at hentry
  by_cases hm : m = x'.member
  · subst hm
    rw [update_self] at hentry
    exact (Common.update_some_iff.mp hentry).imp (fun h => ⟨rfl, h⟩) And.right
  · rw [update_of_ne hm] at hentry
    exact .inr hentry

theorem Puts.entry_self :
    s'.rddLocalMap x'.member x'.rddName = some o := by
  rw [hput.entry, update_self, update_self]

theorem Puts.object_self : s'.rddLocal o = some x' := by
  rw [hput.object, update_self]

theorem Puts.grows (h : s.Inv partitionSize owner) :
    s.Grows partitionSize s' where
  object := fun o' y hy => by
    by_cases ho : o' = o
    · subst ho
      rcases hput.source with ⟨x, hx, hext⟩ | ⟨hnone, -⟩
      · obtain rfl := Option.some.inj (hx.symm.trans hy)
        exact ⟨x', hput.object_self, hext⟩
      · rw [hnone] at hy
        cases hy
    · exact ⟨y, by rw [hput.object, update_of_ne ho, hy], .refl y⟩
  entry := fun m rddName o' hentry => by
    by_cases hself : m = x'.member ∧ rddName = x'.rddName
    · obtain ⟨rfl, rfl⟩ := hself
      rcases hput.source with ⟨x, hx, hext⟩ | ⟨-, hnone, -⟩
      · have hold := (h.objects o x hx).entry
        rw [← hext.member, ← hext.rddName, hentry] at hold
        obtain rfl := Option.some.inj hold
        exact hput.entry_self
      · rw [hnone] at hentry
        cases hentry
    · rw [hput.entry]
      by_cases hm : m = x'.member
      · subst hm
        rw [update_self, update_of_ne fun hname => hself ⟨rfl, hname⟩]
        exact hentry
      · rw [update_of_ne hm]
        exact hentry
  rddOf := hput.rddOf
  fresh := fun o' y hy => by
    rcases hput.cases hy with ⟨rfl, rfl⟩ | ⟨-, hy⟩
    · rcases hput.source with ⟨x, hx, -⟩ | ⟨-, -, hor⟩
      · exact .inl ⟨x, hx⟩
      · exact .inr hor
    · exact .inl ⟨y, hy⟩
  creations := hput.creations

end

/-- What is to be shown when an object is put. -/
theorem Inv.put (h : s.Inv partitionSize owner) (hput : Puts partitionSize s s' o x')
    (hsound : s'.Sound partitionSize owner o x')
    (hnext : o < s'.nextObject ∧ s.nextObject ≤ s'.nextObject)
    (hactors : ∀ a o', s'.rddActor a = some o' →
      s.rddActor a = some o' ∨ (o' = o ∧ x'.rddId = a ∧ x'.member = a.memberId))
    (hids : ∀ rddName a, s'.rddOf rddName = some a → a.actorId < s'.nextActor)
    (hdistinct : ∀ rddName rddName' a, s'.rddOf rddName = some a → s'.rddOf rddName' = some a →
      rddName = rddName')
    (hmessages : ∀ m ∈ s'.inFlight, m ∈ s.inFlight ∨ s'.Justified partitionSize owner m)
    (hcreations : s'.creations.Nodup) (hunfilled : ∀ d rddName, (d, rddName) ∈ s'.creations →
      ((d, rddName) ∈ s.creations ∧ ¬ (d = x'.member ∧ rddName = x'.rddName)) ∨
      (s.rddOf rddName = none ∧ ∀ p, x'.localPartitionMap p = none)) :
    s'.Inv partitionSize owner := by
  have hgrows := hput.grows h
  refine ⟨?_, ?_, ?_, ?_, hids, hdistinct, ?_, hcreations, ?_⟩
  · intro o' y hy
    rcases hput.cases hy with ⟨rfl, rfl⟩ | ⟨-, hy⟩
    · exact hsound
    · exact hgrows.sound (h.objects o' y hy)
  · intro o' ho'
    rw [hput.object, update_of_ne (by omega)]
    exact h.fresh o' (by omega)
  · intro m rddName o' hentry
    rcases hput.entry_cases hentry with ⟨rfl, rfl, rfl⟩ | hentry
    · exact ⟨x', hput.object_self, rfl, rfl⟩
    · obtain ⟨y, hy, hmember, hname⟩ := h.entries m rddName o' hentry
      obtain ⟨y', hy', hext⟩ := hgrows.object o' y hy
      exact ⟨y', hy', hext.member.trans hmember, hext.rddName.trans hname⟩
  · intro a o' hactor
    rcases hactors a o' hactor with hactor | ⟨rfl, hid, hmember⟩
    · obtain ⟨y, hy, hid, hmember⟩ := h.rddActors a o' hactor
      obtain ⟨y', hy', hext⟩ := hgrows.object o' y hy
      exact ⟨y', hy', hext.rddId.trans hid, hext.member.trans hmember⟩
    · exact ⟨x', hput.object_self, hid, hmember⟩
  · intro m hm
    rcases hmessages m hm with hm | hm
    · exact hgrows.justified (h.messages m hm)
    · exact hm
  · intro d rddName hd o' y hentry hy p
    rcases hunfilled d rddName hd with ⟨hold, hother⟩ | ⟨hnone, hempty⟩
    · rcases hput.entry_cases hentry with ⟨rfl, rfl, -⟩ | hentry
      · exact absurd ⟨rfl, rfl⟩ hother
      · rcases hput.cases hy with ⟨rfl, rfl⟩ | ⟨-, hy⟩
        · obtain ⟨x, hx, hmember, hname⟩ := h.entries d rddName o' hentry
          obtain ⟨x'', hx'', hext⟩ := hgrows.object o' x hx
          obtain rfl := Option.some.inj (hx''.symm.trans hput.object_self)
          exact absurd ⟨hmember.symm.trans hext.member.symm,
            hname.symm.trans hext.rddName.symm⟩ hother
        · exact h.unfilled d rddName hold o' y hentry hy p
    · rcases hput.entry_cases hentry with ⟨rfl, rfl, rfl⟩ | hentry
      · obtain rfl := Option.some.inj (hy.symm.trans hput.object_self)
        exact hempty p
      · obtain ⟨x, hx, -, rfl⟩ := h.entries d rddName o' hentry
        rw [(h.objects o' x hx).id] at hnone
        cases hnone

/-- A new object has the partitions that the member owns. -/
theorem Reads.localPartitions {rddName : ℕ} (hreads : s.Reads partitionSize owner m rddName)
    (a : ActorId) (delegate : Bool) :
    (RddLocal.new partitionSize (s.primaryMemberId m) m rddName a delegate).localPartitions =
      (List.range partitionSize).filter fun p => m = owner rddName p := by
  refine filter_congr fun p hp => ?_
  rw [hreads p (mem_range.mp hp)]

section

variable (h : s.Inv partitionSize owner)

include h

/-- RDDs that are being created have their names. -/
theorem Inv.rddOf_of_creation {d rddName : ℕ} (hd : (d, rddName) ∈ s.creations) :
    ∃ a, s.rddOf rddName = some a := by
  obtain ⟨message, hmem, hcreation⟩ := mem_filterMap.mp hd
  cases message with
  | createRddPartition dest src request =>
    obtain ⟨-, rfl⟩ := Prod.mk.inj (Option.some.inj hcreation)
    exact ⟨src, (h.messages _ hmem).1⟩
  | _ => cases hcreation

/-- A client creates an RDD with a new name. -/
theorem Inv.handleCreateRdd {request : CreateRddRequest}
    (hname : s.rddOf request.outRdd = none) (hreads : s.Reads partitionSize owner m request.outRdd)
    (howners : SameOwners partitionSize owner request request.outRdd) :
    (s.handleCreateRdd partitionSize m request).Inv partitionSize owner := by
  unfold Cluster.handleCreateRdd
  generalize (if request.delegate then !request.valid m else request.inRdd.isEmpty) = invalid
  cases invalid with
  | true => exact h
  | false =>
  dsimp only
  rw [if_neg Bool.false_ne_true]
  generalize hx' : RddLocal.mk _ _ _ _ _ _ _ _ _ _ _ _ = x'
  generalize hs' : Cluster.send _ _ = s'
  have hnoentry : ∀ d, s.rddLocalMap d request.outRdd = none := by
    intro d
    cases hentry : s.rddLocalMap d request.outRdd with
    | none => rfl
    | some o =>
      obtain ⟨x, hx, -, hxname⟩ := h.entries _ _ _ hentry
      rw [← hxname, (h.objects o x hx).id] at hname
      cases hname
  have hcreations : s'.creations = s.creations ++ (s.localStores m).map fun d =>
      (d, request.outRdd) := by
    have hcreation : (creation? ∘ fun d => Message.createRddPartition d ⟨m, s.nextActor⟩ request) =
        fun d => some (d, request.outRdd) := rfl
    rw [← hs', creations_append, filterMap_map, hcreation, filterMap_eq_map']
    rfl
  have hmember : x'.member = m := by rw [← hx']; rfl
  have hxname : x'.rddName = request.outRdd := by rw [← hx']; rfl
  have hid : x'.rddId = ⟨m, s.nextActor⟩ := by rw [← hx']; rfl
  have hrddOf : s'.rddOf = update s.rddOf request.outRdd (some ⟨m, s.nextActor⟩) := by
      rw [← hs']; rfl
  have hput : Puts partitionSize s s' s.nextObject x' :=
    { object := by rw [← hs']; rfl
      entry := by rw [← hs', hmember, hxname]; rfl
      rddOf := fun rddName a hrdd => by
        rw [hrddOf, update_of_ne, hrdd]
        rintro rfl
        rw [hname] at hrdd
        cases hrdd
      source := .inr ⟨h.fresh _ le_rfl, hmember ▸ hxname ▸ hnoentry m, .inl (hxname ▸ hname)⟩
      creations := fun d rddName a hrdd hd => by
        rw [hcreations] at hd
        rcases mem_append.mp hd with hd | hd
        · exact hd
        · obtain ⟨d', -, heq⟩ := mem_map.mp hd
          obtain ⟨-, rfl⟩ := Prod.mk.inj heq
          rw [hname] at hrdd
          cases hrdd }
  have hother : ∀ {rddName : ℕ} {a : ActorId}, s'.rddOf rddName = some a →
      (rddName = request.outRdd ∧ a = ⟨m, s.nextActor⟩) ∨ s.rddOf rddName = some a := by
    intro rddName a hrdd
    rw [hrddOf] at hrdd
    exact (Common.update_some_iff.mp hrdd).imp_right And.right
  have hself : s'.rddOf request.outRdd = some ⟨m, s.nextActor⟩ := by
      rw [hrddOf, update_self]
  refine h.put hput ?_ ?_ ?_ ?_ ?_ ?_ ?_ ?_
  · rw [← hx'] at hmember hxname hid hput ⊢
    exact
      { entry := hput.entry_self
        id := hself
        localPartitions := hreads.localPartitions ⟨m, s.nextActor⟩ request.delegate
        hosts := fun p actor hactor => by cases hactor
        filled := fun hor => hor.elim (fun hne => absurd rfl hne) fun hstate => absurd rfl hstate.1
        actors := fun p actor hactor => by cases hactor
        counted := fun _ p _ hor => by rcases hor with hstate | hstate <;> cases hstate
        prepared := fun _ p _ hstate => by cases hstate
        settled := fun _ hstate => by cases hstate
        inputs := fun request' hrequest => by
          dsimp only at hrequest
          split at hrequest
          · obtain rfl := Option.some.inj hrequest
            exact howners
          · cases hrequest
        linked := fun u hu => by rcases hu with hu | hu <;> exact absurd hu not_mem_nil }
  · rw [← hs']
    exact ⟨Nat.lt_succ_self _, Nat.le_succ _⟩
  · intro a o' hactor
    have hrddActor : s'.rddActor =
        update s.rddActor ⟨m, s.nextActor⟩ (some s.nextObject) := by
      rw [← hs']; rfl
    rw [hrddActor] at hactor
    rcases Common.update_some_iff.mp hactor with ⟨rfl, rfl⟩ | ⟨-, hactor⟩
    · exact .inr ⟨rfl, hid, hmember⟩
    · exact .inl hactor
  · intro rddName a hrdd
    rw [← hs']
    rcases hother hrdd with ⟨-, rfl⟩ | hold
    · exact Nat.lt_succ_self _
    · exact Nat.lt_succ_of_lt (h.ids rddName a hold)
  · intro rddName rddName' a hrdd hrdd'
    rcases hother hrdd with ⟨rfl, rfl⟩ | hold <;> rcases hother hrdd' with ⟨rfl, heq⟩ | hold'
    · rfl
    · exact absurd (h.ids _ _ hold') (lt_irrefl _)
    · subst heq
      exact absurd (h.ids _ _ hold) (lt_irrefl _)
    · exact h.distinct _ _ _ hold hold'
  · intro message hmem
    rw [← hs'] at hmem
    rcases mem_append.mp hmem with hmem | hmem
    · exact .inl hmem
    · obtain ⟨d, -, rfl⟩ := mem_map.mp hmem
      exact .inr ⟨hself, howners⟩
  · rw [hcreations]
    refine List.Nodup.append h.creations ?_ ?_
    · exact ((nodup_range).filter _).map fun d d' heq => (Prod.mk.inj heq).1
    · intro c hc hc'
      obtain ⟨d, -, rfl⟩ := mem_map.mp hc'
      obtain ⟨a, hrdd⟩ := h.rddOf_of_creation hc
      rw [hname] at hrdd
      cases hrdd
  · intro d rddName hd
    rw [hcreations] at hd
    rcases mem_append.mp hd with hd | hd
    · refine .inl ⟨hd, fun hself => ?_⟩
      obtain ⟨a, hrdd⟩ := h.rddOf_of_creation hd
      rw [hself.2, hxname, hname] at hrdd
      cases hrdd
    · obtain ⟨d', -, heq⟩ := mem_map.mp hd
      obtain ⟨-, rfl⟩ := Prod.mk.inj heq
      exact .inr ⟨hname, fun p => by rw [← hx']; rfl⟩

/-- The object that a creation message is about: that of the member, or a new one. -/
theorem Inv.partRddLocal_spec {dest : ℕ} {src : ActorId} {request : CreateRddRequest}
    (hname : s.rddOf request.outRdd = some src) :
    ∃ o x, s.partRddLocal partitionSize dest src request = (o, x) ∧
      ((s.rddLocal o = some x ∧ s.rddLocalMap dest request.outRdd = some o) ∨
        (o = s.nextObject ∧ s.rddLocalMap dest request.outRdd = none ∧
          x = RddLocal.new partitionSize
          (s.primaryMemberId dest) dest request.outRdd src request.delegate)) := by
  unfold partRddLocal
  dsimp only
  split
  · rename_i hentry
    exact ⟨_, _, rfl, .inr ⟨rfl, hentry, rfl⟩⟩
  · rename_i o hentry
    obtain ⟨x, hx, hmember, hxname⟩ := h.entries _ _ _ hentry
    have hid := (h.objects o x hx).id
    rw [hxname, hname] at hid
    rw [hx]
    dsimp only
    rw [if_pos (Option.some.inj hid).symm]
    exact ⟨o, x, rfl, .inl ⟨hx, hentry⟩⟩

/-- A creation is not there twice. -/
theorem Inv.not_mem_creations_remove {message : Message} {c : ℕ × ℕ}
    (hmessage : s.inFlight[i]? = some message) (hc : creation? message = some c) :
    c ∉ (s.remove i).creations := by
  obtain ⟨hi, rfl⟩ := List.getElem?_eq_some_iff.mp hmessage
  have hperm := (getElem_cons_eraseIdx_perm hi).filterMap creation?
  rw [filterMap_cons_some hc] at hperm
  exact (nodup_cons.mp (hperm.nodup_iff.mpr h.creations)).1

/-- A member makes its local part. -/
theorem Inv.handleCreateRddPartition {dest : ℕ} {src : ActorId} {request : CreateRddRequest}
    (hmessage : s.inFlight[i]? = some (.createRddPartition dest src request))
    (hreads : s.Reads partitionSize owner dest request.outRdd) :
    ((s.remove i).handleCreateRddPartition partitionSize dest src request).Inv partitionSize
    owner := by
  have hremove := h.remove i
  obtain ⟨hname, howners⟩ := h.messages _ (mem_of_getElem? hmessage)
  unfold Cluster.handleCreateRddPartition
  split
  · refine hremove.send fun m hm => ?_
    obtain rfl := mem_singleton.mp hm
    exact ⟨rfl, fun h => by cases h⟩
  obtain ⟨o, x, hpart, hor⟩ := hremove.partRddLocal_spec hname
  rw [hpart]
  dsimp only
  generalize hx' : RddLocal.mk _ _ _ _ _ _ _ _ _ _ _ _ = x'
  generalize hs' : Cluster.send _ _ = s'
  have hcreation : (dest, request.outRdd) ∈ s.creations :=
    mem_filterMap.mpr ⟨_, mem_of_getElem? hmessage, rfl⟩
  have hcreations : s'.creations = (s.remove i).creations := by
    rw [← hs', creations_append]
    exact append_nil _
  have hsub : s'.creations.Sublist s.creations :=
    hcreations ▸ (eraseIdx_sublist _ i).filterMap _
  -- the object before, which hosts nothing
  have hbefore : x.member = dest ∧ x.rddName = request.outRdd ∧ x.rddId = src ∧
      (x.localPartitions = (List.range partitionSize).filter fun p =>
      x.member = owner x.rddName p) ∧
      ∀ p, x.localPartitionMap p = none := by
    rcases hor with ⟨hx, hentry⟩ | ⟨-, -, rfl⟩
    · obtain ⟨y, hy, hmember, hxname⟩ := h.entries _ _ _ hentry
      obtain rfl := Option.some.inj (hx.symm.trans hy)
      have hid := (h.objects o x hx).id
      rw [hxname, hname] at hid
      exact ⟨hmember, hxname, (Option.some.inj hid).symm, (h.objects o x hx).localPartitions,
        h.unfilled dest _ hcreation o x hentry hx⟩
    · exact ⟨rfl, rfl, rfl, hreads.localPartitions src request.delegate, fun _ => rfl⟩
  obtain ⟨hmember, hxname, hid, hlocal, hempty⟩ := hbefore
  have hext : x.Extends partitionSize x' := by
    rw [← hx']
    refine ⟨rfl, rfl, rfl, rfl, fun p actor hactor => ?_, fun h => h⟩
    rw [hempty p] at hactor
    cases hactor
  have hmember' : x'.member = dest := hext.member.trans hmember
  have hxname' : x'.rddName = request.outRdd := hext.rddName.trans hxname
  have hput : Puts partitionSize s s' o x' :=
    { object := by rw [← hs']; rfl
      entry := by rw [← hs', hmember', hxname']; rfl
      rddOf := fun rddName a hrdd => by rw [← hs']; exact hrdd
      source := by
        rcases hor with ⟨hx, -⟩ | ⟨ho, hentry, -⟩
        · exact .inl ⟨x, hx, hext⟩
        · exact .inr ⟨ho ▸ h.fresh _ le_rfl, hmember' ▸ hxname' ▸ hentry,
            .inr ⟨dest, hxname' ▸ hcreation⟩⟩
      creations := fun d rddName a _ hd => hsub.mem hd }
  have hgrows := hput.grows h
  have hfilled : x'.Filled := by
    intro p hp
    rw [hext.localPartitions] at hp
    rw [← hx']
    exact congrArg Option.isSome (if_pos hp)
  -- what the object had said before is still true
  have hkept : (∀ p actor, x.partitionActors p = some actor →
        s'.HostedAt partitionSize owner x.rddName p actor) ∧
      (x.member = x.rddId.memberId → ∀ p < partitionSize,
        x.partitionStates p = .created ∨ x.partitionStates p = .prepared →
        (x.partitionActors p).isSome = true) ∧
      (x.member = x.rddId.memberId → ∀ p < partitionSize, x.partitionStates p = .prepared →
        s'.FullAt partitionSize x.rddName (owner x.rddName p)) ∧
      ∀ u, u ∈ x.upstreamRddLocal ∨ u ∈ x.downstreamRddLocal → ∃ y, s'.rddLocal u = some y ∧
        y.member = x.member ∧ y.Filled ∧ ∀ p < partitionSize, owner y.rddName p =
        owner x.rddName p := by
    rcases hor with ⟨hx, -⟩ | ⟨-, -, rfl⟩
    · have hsound := hgrows.sound (h.objects o x hx)
      exact ⟨hsound.actors, hsound.counted, hsound.prepared, fun u hu => (hsound.linked u hu).2⟩
    · refine ⟨fun p actor hactor => ?_, fun _ p _ hstate => ?_, fun _ p _ hstate => ?_,
        fun u hu => ?_⟩
      · cases hactor
      · rcases hstate with hstate | hstate <;> cases hstate
      · cases hstate
      · rcases hu with hu | hu <;> exact absurd hu not_mem_nil
  obtain ⟨hactors, hcounted, hprepared, hlinked⟩ := hkept
  refine h.put hput ?_ ?_ ?_ ?_ ?_ ?_ ?_ ?_
  · have hentry := hput.entry_self
    rw [← hx'] at hfilled hentry ⊢
    exact
      { entry := hentry
        id := hgrows.rddOf _ _ (hxname ▸ hid ▸ hname)
        localPartitions := hlocal
        hosts := fun p actor hactor => by
          dsimp only at hactor
          split at hactor
          · assumption
          · rw [hempty p] at hactor
            cases hactor
        filled := fun _ => hfilled
        actors := hactors
        counted := hcounted
        prepared := hprepared
        settled := fun _ hstate => by cases hstate
        inputs := fun request' hrequest => by
          obtain rfl := Option.some.inj hrequest
          exact hxname ▸ howners
        linked := fun u hu => ⟨hfilled, hlinked u hu⟩ }
  · rw [← hs']
    refine ⟨?_, Nat.le_succ _⟩
    rcases hor with ⟨hx, -⟩ | ⟨rfl, -⟩
    · by_contra hge
      rw [hremove.fresh o (Nat.le_of_succ_le (not_lt.mp hge))] at hx
      cases hx
    · exact Nat.lt_succ_self _
  · rw [← hs']
    exact fun a o' hactor => .inl hactor
  · rw [← hs']
    exact fun rddName a hrdd => Nat.lt_of_lt_of_le (h.ids rddName a hrdd) (Nat.le_add_right _ _)
  · rw [← hs']
    exact h.distinct
  · intro message hmem
    rw [← hs'] at hmem
    rcases mem_append.mp hmem with hmem | hmem
    · exact .inl ((eraseIdx_sublist _ i).mem hmem)
    · obtain rfl := mem_singleton.mp hmem
      refine .inr fun _ => ⟨request.outRdd, hgrows.rddOf _ _ hname, fun part hpart => ?_⟩
      obtain ⟨p, hp, rfl⟩ := mem_map.mp hpart
      have howner := hlocal ▸ hp
      rw [mem_filter, mem_range] at howner
      refine ⟨howner.1, o, x', ?_, hput.object_self, ?_⟩
      · rw [← hxname, ← of_decide_eq_true howner.2, ← hext.member, ← hext.rddName]
        exact hput.entry_self
      · rw [← hx']
        exact if_pos hp
  · exact h.creations.sublist hsub
  · intro d rddName hd
    refine .inl ⟨hsub.mem hd, ?_⟩
    rintro ⟨rfl, rfl⟩
    rw [hcreations, hmember', hxname'] at hd
    exact h.not_mem_creations_remove hmessage rfl hd

end

/-! ## Counting -/

/-- Counted partitions of a member that has the partition map. -/
theorem Sound.count (h : s.Sound partitionSize owner o x) {src : ℕ}
    (hreads : s.Reads partitionSize owner x.member x.rddName) (hfull : x.Full partitionSize)
    (hsrc : s.FullAt partitionSize x.rddName src) : s.Sound partitionSize owner o
      { x with
        partitionStates := fun p =>
          if p < partitionSize ∧ src = s.primaryMemberId x.member p then .prepared
          else x.partitionStates p } where
  __ := h
  counted := fun _ p hp _ => hfull p hp
  prepared := fun hmember p hp hstate => by
    dsimp only at hstate
    split at hstate
    · rename_i hcount
      exact hreads p hp ▸ hcount.2 ▸ hsrc
    · exact h.prepared hmember p hp hstate

section

variable (h : s.Inv partitionSize owner)

include h

/-- When all partitions are counted and the members without partitions are ready, nothing is
missing. -/
theorem Inv.settled_of_prepared (hx : s.rddLocal o = some x) (hfull : x.Full partitionSize)
    (hall : ∀ p < partitionSize, s.FullAt partitionSize x.rddName (owner x.rddName p))
    (hidle : s.IdleReady partitionSize x.rddId) : s.Settled partitionSize owner x.rddName where
  hosted := fun p hp => by
    obtain ⟨actor, hactor⟩ := Option.isSome_iff_exists.mp (hfull p hp)
    exact ⟨actor, (h.objects o x hx).actors p actor hactor⟩
  full := fun o' y hy hname => by
    have hsound := h.objects o' y hy
    have hid : y.rddId = x.rddId := by
      have := (h.objects o x hx).id
      rw [← hname, hsound.id] at this
      exact Option.some.inj this
    cases hlocal : y.localPartitions with
    | nil =>
      have ho' : o' < s.nextObject := by
        by_contra hge
        rw [h.fresh o' (by omega)] at hy
        cases hy
      exact hidle.1 o' ho' y hy hid hlocal
    | cons p ps =>
      have hp : p ∈ y.localPartitions := hlocal ▸ mem_cons_self
      rw [hsound.localPartitions, mem_filter, mem_range] at hp
      have howner : y.member = owner x.rddName p := hname ▸ of_decide_eq_true hp.2
      exact h.full_of_fullAt hy (by rw [howner, hname]; exact hall p hp.1)
  complete := fun d hd => by
    obtain ⟨m, hm, hcreation⟩ := mem_filterMap.mp hd
    cases m with
    | createRddPartition dest src request =>
      obtain ⟨rfl, hname⟩ := Prod.mk.injEq _ _ _ _ ▸ Option.some.inj hcreation
      have hsrc := (h.messages _ hm).1
      rw [hname, (h.objects o x hx).id] at hsrc
      have hcreates := hidle.2 _ hm
      rw [Option.some.inj hsrc] at hcreates
      simp [creates] at hcreates
    | _ => cases hcreation

theorem Inv.handleRddPartitionPrepared {src : ℕ} {code : Bool}
    (hm : s.Justified partitionSize owner (.rddPartitionPrepared a src code))
    (hagree : s.AgreeingMessage partitionSize owner (.rddPartitionPrepared a src code))
    (hs : s.handleRddPartitionPrepared partitionSize a src code = some s') :
    s'.Inv partitionSize owner := by
  obtain ⟨o, ho, hs⟩ := Option.bind_eq_some_iff.mp hs
  obtain ⟨x, hx, rfl⟩ := Option.map_eq_some_iff.mp hs
  obtain ⟨hid, hmember⟩ := h.rddActor_spec ho hx
  split
  · exact h
  split
  · exact h.processRddError hx
  rename_i herror hcode
  have hcode : code = true := by simpa using hcode
  obtain ⟨rddName, hname, hfull, hsrc⟩ := hm hcode
  obtain ⟨hreads, hlast⟩ := hagree hcode o ho x hx
  rw [← hid] at hname
  obtain rfl := h.rddName_eq hx hname
  rw [← hmember] at hreads hlast hfull ⊢
  have hxfull := h.full_of_fullAt hx hfull
  have hsound := (h.objects o x hx).count hreads hxfull hsrc
  dsimp only
  split
  · rename_i hall
    have hstates : ∀ p < partitionSize,
        (if p < partitionSize ∧ src = s.primaryMemberId x.member p then .prepared
        else x.partitionStates p) = RddState.prepared := fun p hp =>
      of_decide_eq_true (all_eq_true.mp hall p (mem_range.mpr hp))
    have hidle := hlast fun p hp => by
      have hp' := hstates p hp
      split at hp'
      · rename_i hcount
        exact .inr hcount.2
      · exact .inl hp'
    have hsettled : s.Settled partitionSize owner x.rddName := h.settled_of_prepared hx hxfull
      (fun p hp =>
        hsound.prepared (hmember.trans (congrArg ActorId.memberId hid.symm)) p hp (hstates p hp))
      (hid ▸ hidle)
    have hstate : ∀ b : Bool, (if b then RddState.ready else .prepared) ≠ .init ∧
        (if b then RddState.ready else .prepared) ≠ .created := by decide
    refine h.changeRddState hx ⟨rfl, rfl, rfl, rfl, fun _ _ h => h, fun h =>
      h⟩ rfl ?_ (hstate x.delegateRdd).1
      (hstate x.delegateRdd).2 fun _ => hsettled
    have hfilled : x.Filled := h.filled_of_hosted hx hsettled.hosted
    exact hsound.setState _ (fun _ => hsettled) fun _ => hfilled
  · exact h.setRddLocal hx ⟨rfl, rfl, rfl, rfl, fun _ _ h => h, fun h => h⟩ rfl hsound

/-- A state is told only when it is right. -/
theorem Inv.handleRddStateSync {dest rddName : ℕ} {state : RddState}
    (hm : s.Justified partitionSize owner (.rddStateSync dest rddName state)) :
    (s.handleRddStateSync dest rddName state).Inv partitionSize owner := by
  obtain ⟨-, hinit, hcreated, hsettled⟩ := hm
  unfold Cluster.handleRddStateSync
  split
  · exact h
  rename_i o hentry
  obtain ⟨x, hx, -, rfl⟩ := h.entries _ _ _ hentry
  rw [modifyRddLocal_of_some hx]
  refine h.setRddLocal hx ⟨rfl, rfl, rfl, rfl, fun _ _ h => h, fun h => h⟩ rfl ?_
  refine (h.objects o x hx).setState state (fun hstate => hsettled ?_) fun hne => ?_
  · rintro rfl
    cases hstate
  · exact h.filled_of_hosted hx (hsettled hne).hosted

/-- The evaluation of a prepared RDD. -/
theorem Inv.evaluate (ho : s.rddActor a = some o) (hx : s.rddLocal o = some x)
    {state : RddState} (partitionStates : ℕ → RddState) (hold : unprepared x.state = false)
    (hnew : unprepared state = false) :
    (s.changeRddState o { x with state := state, partitionStates := partitionStates }).Inv
    partitionSize owner := by
  obtain ⟨hid, hmember⟩ := h.rddActor_spec ho hx
  have hsound := h.objects o x hx
  have hsettled := hsound.settled (hmember.trans (congrArg ActorId.memberId hid.symm)) hold
  have hfull : x.Full partitionSize := hsettled.full o x hx rfl
  have hfilled : x.Filled := h.filled_of_hosted hx hsettled.hosted
  refine h.changeRddState hx ⟨rfl, rfl, rfl, rfl, fun _ _ h => h, fun h => h⟩ rfl ?_ ?_ ?_ fun _ =>
    hsettled
  · exact
      { hsound with
        filled := fun _ => hfilled
        counted := fun _ p hp _ => hfull p hp
        prepared := fun _ p hp _ => by
          obtain ⟨actor, -, o', y, hentry, hy, -⟩ := hsettled.hosted p hp
          obtain ⟨y', hy', -, hname⟩ := h.entries _ _ _ hentry
          obtain rfl := Option.some.inj (hy.symm.trans hy')
          exact ⟨o', y, hentry, hy, hsettled.full o' y hy hname⟩
        settled := fun _ _ => hsettled }
  · rintro rfl
    cases hnew
  · rintro rfl
    cases hnew

/-! ## Runs -/

theorem Inv.handle {message : Message} (hmessage : s.inFlight[i]? = some message)
    (hagree : s.AgreeingMessage partitionSize owner message)
    (hs : (s.remove i).handle partitionSize message = some s') : s'.Inv partitionSize owner := by
  have hremove := h.remove i
  have hgrows : s.Grows partitionSize (s.remove i) :=
    .of_eq rfl rfl rfl ((eraseIdx_sublist _ i).filterMap _)
  have hjustified := hgrows.justified (h.messages _ (mem_of_getElem? hmessage))
  cases message with
  | createRddPartition dest src request =>
    obtain rfl := Option.some.inj hs
    exact h.handleCreateRddPartition hmessage hagree
  | createRddPartitionResponse a src code parts =>
    exact hremove.handleCreateRddPartitionResponse hjustified hs
  | partitionCreated dest src rddName parts => exact hremove.handlePartitionCreated hjustified hs
  | rddPartitionPrepared a src code =>
    refine hremove.handleRddPartitionPrepared hjustified (fun hcode o ho x hx => ?_) hs
    obtain ⟨hreads, hlast⟩ := hagree hcode o ho x hx
    refine ⟨hreads, fun hanswer => ?_⟩
    obtain ⟨hidle, hrest⟩ := hlast hanswer
    exact ⟨hidle, fun m hm => hrest m ((eraseIdx_sublist _ i).mem hm)⟩
  | rddStateSync dest rddName state =>
    obtain rfl := Option.some.inj hs
    exact hremove.handleRddStateSync hjustified

theorem Inv.step {step : ClusterStep} (hagree : s.Agreeing partitionSize owner step)
    (hs : s.step partitionSize step = some s') : s'.Inv partitionSize owner := by
  cases step with
  | partitionTable _ _ _ | memberTable _ _ =>
    obtain rfl := Option.some.inj hs
    exact h.of_eq rfl rfl rfl rfl rfl rfl (List.Sublist.refl _) h.messages
  | createRdd m request =>
    obtain rfl := Option.some.inj hs
    exact h.handleCreateRdd hagree.1 hagree.2.1 hagree.2.2
  | deliver i =>
    obtain ⟨message, hmessage, hs⟩ := Option.bind_eq_some_iff.mp hs
    exact h.handle hmessage (hagree message hmessage) hs
  | lose i =>
    obtain rfl := Option.some.inj hs
    exact h.remove i
  | fail a =>
    obtain ⟨o, ho, hs⟩ := Option.bind_eq_some_iff.mp hs
    obtain ⟨x, hx, rfl⟩ := Option.map_eq_some_iff.mp hs
    exact h.processRddError hx
  | evaluate a state partitionStates =>
    obtain ⟨o, ho, hs⟩ := Option.bind_eq_some_iff.mp hs
    obtain ⟨x, hx, hs⟩ := Option.bind_eq_some_iff.mp hs
    split at hs
    · cases hs
    rename_i hstates
    obtain rfl := Option.some.inj hs
    rw [Bool.or_eq_true, not_or, Bool.not_eq_true, Bool.not_eq_true] at hstates
    exact h.evaluate ho hx partitionStates hstates.1 hstates.2

section

variable (hx : s.rddLocal o = some x)

include hx

/-- Partitions are hosted by their owners only. -/
theorem Inv.owner_of_hosts {p : ℕ} {actor : ActorId}
    (hhosts : s.Hosts x.rddId m p actor) : m = owner x.rddName p ∧ p < partitionSize := by
  obtain ⟨o', y, hy, hid, rfl, hactor⟩ := hhosts
  have hsound := h.objects o' y hy
  have hp := hsound.hosts p actor hactor
  rw [hsound.localPartitions, mem_filter, mem_range] at hp
  have hname := h.rddName_eq hx (hid ▸ hsound.id)
  exact ⟨hname ▸ of_decide_eq_true hp.2, hp.1⟩

/-- The owner of a partition of a settled RDD hosts it. -/
theorem Inv.hosts_of_hostedAt {p : ℕ} {actor : ActorId}
    (hhosted : s.HostedAt partitionSize owner x.rddName p actor) :
    s.Hosts x.rddId (owner x.rddName p) p actor := by
  obtain ⟨-, o', y, hentry, hy, hactor⟩ := hhosted
  obtain ⟨y', hy', hmember, hname⟩ := h.entries _ _ _ hentry
  obtain rfl := Option.some.inj (hy.symm.trans hy')
  have hid := (h.objects o' y hy).id
  rw [hname, (h.objects o x hx).id] at hid
  exact ⟨o', y, hy, (Option.some.inj hid).symm, hmember, hactor⟩

/-- Every partition of a linked object is there. -/
theorem Inv.found {p : ℕ}
    (hp : (x.localPartitionMap p).isSome = true) {objects : List ℕ}
    (hobjects : ∀ u ∈ objects, u ∈ x.upstreamRddLocal ∨ u ∈ x.downstreamRddLocal) :
    none ∉ s.partitionsOf objects p := by
  intro hnone
  obtain ⟨u, hu, hmissing⟩ := mem_map.mp hnone
  obtain ⟨-, y, hy, hmember, hfilled, howners⟩ := (h.objects o x hx).linked u (hobjects u hu)
  obtain ⟨actor, hactor⟩ := Option.isSome_iff_exists.mp hp
  have hlocal := (h.objects o x hx).hosts p actor hactor
  rw [(h.objects o x hx).localPartitions, mem_filter, mem_range] at hlocal
  have hmem : p ∈ y.localPartitions := by
    rw [(h.objects u y hy).localPartitions, mem_filter, mem_range, hmember, howners p hlocal.1]
    exact hlocal
  have hthere := hfilled p hmem
  rw [hy, Option.bind_some] at hmissing
  rw [hmissing] at hthere
  cases hthere

end

theorem Inv.oneHome : s.OneHome partitionSize := by
  have hsettled : ∀ a o x, s.rddActor a = some o → s.rddLocal o = some x →
      x.state = .prepared ∨ x.state = .ready →
      x.rddId = a ∧ s.Settled partitionSize owner x.rddName := by
    intro a o x ho hx hstate
    obtain ⟨hid, hmember⟩ := h.rddActor_spec ho hx
    refine ⟨hid, (h.objects o x hx).settled (hmember.trans (congrArg ActorId.memberId hid.symm)) ?_⟩
    rcases hstate with hstate | hstate <;> rw [hstate] <;> rfl
  refine ⟨fun a o x ho hx hstate p hp => ?_, fun a o x ho hx hstate o' y hy hid p hp => ?_,
    fun o x hx u hu => ?_,
    fun o x p hx hp => ⟨h.found hx hp fun u => .inl, h.found hx hp fun u => .inr⟩⟩
  · obtain ⟨rfl, hsettled⟩ := hsettled a o x ho hx hstate
    obtain ⟨actor, hhosted⟩ := hsettled.hosted p hp
    refine ⟨owner x.rddName p, ⟨actor, h.hosts_of_hostedAt hx hhosted⟩, ?_⟩
    rintro m ⟨actor', hhosts⟩
    exact (h.owner_of_hosts hx hhosts).1
  · obtain ⟨rfl, hsettled⟩ := hsettled a o x ho hx hstate
    have hname := h.rddName_eq hx (hid ▸ (h.objects o' y hy).id)
    obtain ⟨actor, hactor⟩ := Option.isSome_iff_exists.mp (hsettled.full o' y hy hname p hp)
    have hhosted := (h.objects o' y hy).actors p actor hactor
    exact ⟨_, actor, hid ▸ h.hosts_of_hostedAt hy hhosted, hactor⟩
  · obtain ⟨-, y, hy, -, -, howners⟩ := (h.objects o x hx).linked u (.inl hu)
    refine ⟨y, hy, fun p m m' actor actor' hhosts hhosts' => ?_⟩
    obtain ⟨hm, hp⟩ := h.owner_of_hosts hx hhosts
    rw [hm, (h.owner_of_hosts hy hhosts').1, howners p hp]

end

/-- Nothing has been created. -/
theorem inv_initial (primaryMemberId : ℕ → ℕ → ℕ) (memberTable : ℕ → List StoreMember) :
    Inv partitionSize owner { primaryMemberId := primaryMemberId, memberTable := memberTable } where
  objects := fun o x hx => by cases hx
  fresh := fun _ _ => rfl
  entries := fun m rddName o hentry => by cases hentry
  rddActors := fun a o hactor => by cases hactor
  ids := fun rddName a hname => by cases hname
  distinct := fun rddName rddName' a hname => by cases hname
  messages := fun m hm => absurd hm not_mem_nil
  creations := nodup_nil
  unfilled := fun d rddName hd => absurd hd not_mem_nil

/-- **One home**: in runs in which the reads of the partition tables for an RDD and its inputs
agree, every partition of a prepared RDD is on one member, which all members know, together with the
partitions that it is computed from. -/
theorem oneHome_of_agreeing {primaryMemberId : ℕ → ℕ → ℕ} {memberTable : ℕ → List StoreMember}
    (hrun : Common.Reaches (step partitionSize) (Agreeing partitionSize owner)
      { primaryMemberId := primaryMemberId, memberTable := memberTable } s) :
      s.OneHome partitionSize :=
  (hrun.invariant (P := Inv partitionSize owner) (inv_initial primaryMemberId memberTable)
    fun _ _ _ h hagree hs => h.step hagree hs).oneHome

/-! ## Runs on two members -/

/-- Both members are stores. -/
def bothStores : ℕ → List StoreMember := fun _ => [⟨true, true⟩, ⟨true, true⟩]

/-- The only partition moves to member 1 when member 0 has made its local part of the RDD. -/
def movedPartition : List ClusterStep :=
  [.createRdd 0 { outRdd := 0, delegate := true }, .partitionTable 0 0 1, .partitionTable 1 0 1,
    .deliver 0,
    .deliver 0, .deliver 0, .deliver 0, .deliver 0, .deliver 0, .deliver 0, .deliver 0, .deliver 0,
    .deliver 0]

/-- Both members host the partition when the RDD is READY. -/
theorem not_oneHome_of_run :
    ¬ ∀ (partitionSize : ℕ) (primaryMemberId : ℕ → ℕ → ℕ) (memberTable : ℕ → List StoreMember)
    (s : Cluster),
      Common.Reaches (step partitionSize) Common.anyStep
        { primaryMemberId := primaryMemberId, memberTable := memberTable } s →
        s.OneHome partitionSize := by
  intro hall
  have hend : ((Common.replay (step 1) Common.anyStep
      { primaryMemberId := fun _ _ => 0, memberTable := bothStores } movedPartition).any fun s =>
      decide (s.rddActor ⟨0, 0⟩ = some 0 ∧
        (s.rddLocal 0).map (fun x => (x.state, x.rddId, x.member, x.localPartitionMap 0)) =
          some (.ready, ⟨0, 0⟩, 0, some ⟨0, 1⟩) ∧
        (s.rddLocal 2).map (fun x => (x.rddId, x.member, x.localPartitionMap 0)) =
          some (⟨0, 0⟩, 1, some ⟨1, 2⟩))) = true := by
    decide +kernel
  obtain ⟨s, hs, hbad⟩ := (Option.any_eq_true _ _).mp hend
  obtain ⟨hactor, hfirst, hsecond⟩ := of_decide_eq_true hbad
  obtain ⟨x, hx, hxs⟩ := Option.map_eq_some_iff.mp hfirst
  obtain ⟨y, hy, hys⟩ := Option.map_eq_some_iff.mp hsecond
  obtain ⟨hstate, hid, hmember, hhosts⟩ : x.state = .ready ∧ x.rddId = ⟨0, 0⟩ ∧ x.member = 0 ∧
      x.localPartitionMap 0 = some ⟨0, 1⟩ := by simpa using hxs
  obtain ⟨hid', hmember', hhosts'⟩ : y.rddId = ⟨0, 0⟩ ∧ y.member = 1 ∧
      y.localPartitionMap 0 = some ⟨1, 2⟩ := by simpa using hys
  have hhome :=
    (hall 1 _ bothStores s (Common.reaches_of_replay hs)).home ⟨0, 0⟩ 0 x hactor hx (.inr hstate) 0
    one_pos
  exact absurd
    (hhome.unique ⟨_, 0, x, hx, hid, hmember, hhosts⟩ ⟨_, 2, y, hy, hid', hmember', hhosts'⟩)
    zero_ne_one

/-- Each member has one partition; a delegate is created on one member and an RDD of it on the
other. -/
def twoRdds : List ClusterStep :=
  [.partitionTable 0 1 1, .partitionTable 1 1 1, .createRdd 0 { outRdd := 0, delegate := true },
    .deliver 0,
    .createRdd 1 { outRdd := 1, inRdd := [(0, true)] }, .deliver 0, .deliver 0, .deliver 0,
    .deliver 0, .deliver 0,
    .deliver 0, .deliver 0, .deliver 0, .deliver 0, .deliver 0, .deliver 0, .deliver 0, .deliver 0,
    .deliver 0,
    .deliver 0, .deliver 0, .deliver 0, .deliver 0, .deliver 0]

/-- Both RDDs have one home for each partition. -/
theorem oneHome_of_agreeing_twoRdds : ∃ s : Cluster,
    Common.Reaches (step 2) (Agreeing 2 fun _ p => p)
      { primaryMemberId := fun _ _ => 0, memberTable := bothStores } s ∧
      (s.rddLocal 0).map RddLocal.state = some .ready ∧ (s.rddLocal 2).map RddLocal.state =
      some .prepared ∧
      s.OneHome 2 := by
  have hend : ((Common.replay (step 2) (Agreeing 2 fun _ p => p)
      { primaryMemberId := fun _ _ => 0, memberTable := bothStores } twoRdds).any fun s =>
      decide ((s.rddLocal 0).map RddLocal.state = some .ready ∧
        (s.rddLocal 2).map RddLocal.state = some .prepared)) = true := by
    decide +kernel
  obtain ⟨s, hs, hgood⟩ := (Option.any_eq_true _ _).mp hend
  obtain ⟨hready, hprepared⟩ := of_decide_eq_true hgood
  exact ⟨s, Common.reaches_of_replay hs, hready, hprepared,
    oneHome_of_agreeing (Common.reaches_of_replay hs)⟩

end Steps

end Cluster

end Idgs.Rdd.Placement
