import Idgs.Common.Tables
import Idgs.Rdd.NamedRdds

/-!
# The objects of RDDs

Objects keep their member, their name and their RDD, and an RDD that is alive has only live RDDs
upstream of it. Most steps change no more of the objects than their states and lists.
-/

namespace Idgs.Rdd.NamedRdds

open Function List

open Placement (ActorId)

/-! ## Changes that leave the objects' places and listeners alone -/

/-- An object without its state and its lists. -/
def RddLocal.core (x : RddLocal) : RddLocal :=
  { x with
    state := .init
    upstreamRddLocal := []
    downstreamRddLocal := [] }

theorem RddLocal.of_core {x x' : RddLocal} (h : x'.core = x.core) :
    x'.member = x.member ∧ x'.rddName = x.rddName ∧ x'.rddId = x.rddId ∧
    x'.transformerMsg = x.transformerMsg ∧
      x'.delegateRdd = x.delegateRdd ∧ x'.rddStoreListener = x.rddStoreListener :=
  ⟨(congrArg RddLocal.member h :), (congrArg RddLocal.rddName h :), (congrArg RddLocal.rddId h :),
    (congrArg RddLocal.transformerMsg h :), (congrArg RddLocal.delegateRdd h :),
    (congrArg RddLocal.rddStoreListener h :)⟩

/-- A message that neither makes nor removes objects. -/
def Message.Plain : Message → Prop
  | .toService _ _ (.partitionCreated _ _) => True
  | .toService _ _ (.rddStateSync _ _) => True
  | .destroy _ => True
  | _ => False

namespace Cluster

variable {cfg : Service} {s s' s'' : Cluster}

/-- Only states and lists of objects change, and plain messages are sent. -/
structure Touches (s s' : Cluster) : Prop where
  next : s'.next = s.next
  map : s'.rddLocalMap = s.rddLocalMap
  listeners : s'.listeners = s.listeners
  actors : s'.actors = s.actors
  crashed : s'.crashed = s.crashed
  core : ∀ o, (s'.rddLocal o).map RddLocal.core = (s.rddLocal o).map RddLocal.core
  sent : ∃ ms : List Message, s'.inFlight = s.inFlight ++ ms ∧ ∀ msg ∈ ms, msg.Plain

theorem Touches.refl (s : Cluster) : Touches s s :=
  ⟨rfl, rfl, rfl, rfl, rfl, fun _ => rfl, [], (append_nil _).symm, fun _ h =>
    absurd h not_mem_nil⟩

theorem Touches.trans (h : Touches s s') (h' : Touches s' s'') : Touches s s'' := by
  obtain ⟨ms, hms, hplain⟩ := h.sent
  obtain ⟨ms', hms', hplain'⟩ := h'.sent
  refine ⟨h'.next.trans h.next, h'.map.trans h.map, h'.listeners.trans h.listeners,
    h'.actors.trans h.actors,
    h'.crashed.trans h.crashed, fun o => (h'.core o).trans (h.core o), ms ++ ms', ?_, ?_⟩
  · rw [hms', hms, append_assoc]
  · intro msg hmsg
    exact (mem_append.1 hmsg).elim (hplain msg) (hplain' msg)

theorem rddLocal_modify (s : Cluster) (o p : ℕ) (f : RddLocal → RddLocal) :
    (s.modify o f).rddLocal p = if p = o then (s.rddLocal o).map f else s.rddLocal p := by
  unfold modify
  exact update_apply s.rddLocal o _ p

theorem touches_modify (s : Cluster) (o : ℕ) {f : RddLocal → RddLocal}
    (hf : ∀ x, (f x).core = x.core) :
    Touches s (s.modify o f) := by
  refine ⟨rfl, rfl, rfl, rfl, rfl, fun p => ?_, [], (append_nil _).symm, fun _ h =>
    absurd h not_mem_nil⟩
  rw [rddLocal_modify]
  by_cases hp : p = o
  · subst hp
    rw [if_pos rfl, Option.map_map]
    exact Option.map_congr fun x _ => hf x
  · rw [if_neg hp]

theorem touches_post (s : Cluster) {ms : List Message} (hms : ∀ msg ∈ ms, msg.Plain) :
    Touches s (s.post ms) :=
  ⟨rfl, rfl, rfl, rfl, rfl, fun _ => rfl, ms, rfl, hms⟩

theorem touches_multicast (cfg : Service) (s : Cluster) (a : ActorId) {payload : Payload}
    (hplain : ∀ m, (Message.toService m a payload).Plain) :
    Touches s (s.multicast cfg a payload) := by
  refine touches_post s fun msg hmsg => ?_
  obtain ⟨m, -, rfl⟩ := mem_map.1 hmsg
  exact hplain m

/-- An object that was there is there, with the same core. -/
theorem Touches.forth (h : Touches s s') {o : ℕ} {x : RddLocal} (hx : s.rddLocal o = some x) :
    ∃ x', s'.rddLocal o = some x' ∧ x'.core = x.core := by
  have hcore := h.core o
  rw [hx, Option.map_some] at hcore
  obtain ⟨x', hx', hcore⟩ := Option.map_eq_some_iff.1 hcore
  exact ⟨x', hx', hcore⟩

/-- An object that is there was there, with the same core. -/
theorem Touches.back (h : Touches s s') {o : ℕ} {x' : RddLocal} (hx' : s'.rddLocal o = some x') :
    ∃ x, s.rddLocal o = some x ∧ x'.core = x.core := by
  have hcore := h.core o
  rw [hx', Option.map_some] at hcore
  obtain ⟨x, hx, hcore⟩ := Option.map_eq_some_iff.1 hcore.symm
  exact ⟨x, hx, hcore.symm⟩

/-- The listeners are the same. -/
theorem Touches.listening_eq (h : Touches s s') : s'.listening cfg = s.listening cfg := by
  funext k
  unfold listening entry
  rw [h.map]
  cases s.rddLocalMap k with
  | none => rfl
  | some o =>
    have hcore := congrArg (fun x => x.bind (RddLocal.listening cfg)) (h.core o)
    rwa [Option.bind_map, Option.bind_map] at hcore

end Cluster

/-! ## Objects and messages fit together -/

/-- The object is one of the RDD that the actor was made for, and listens only if that is a
delegate. -/
structure RddLocal.MadeOf (x : RddLocal) (request : Request) : Prop where
  transformerMsg : ∀ r, x.transformerMsg = some r → r = request
  delegateRdd : x.delegateRdd = true ↔ ∃ r, x.transformerMsg = some (.delegate r)
  listens : ∀ l, x.rddStoreListener = some l → x.delegateRdd = true

theorem RddLocal.MadeOf.of_core {x x' : RddLocal} {request : Request} (h : x.MadeOf request)
    (hcore : x'.core = x.core) : x'.MadeOf request := by
  obtain ⟨-, -, -, hmsg, hdelegate, hlistener⟩ := RddLocal.of_core hcore
  refine ⟨?_, ?_, ?_⟩
  · rw [hmsg]
    exact h.transformerMsg
  · rw [hdelegate, hmsg]
    exact h.delegateRdd
  · rw [hlistener, hdelegate]
    exact h.listens

/-- The object that a message makes on a member: the member and the RDD. -/
def Message.opening : Message → Option (ℕ × ActorId)
  | .toService dest source (.createDelegatePartition _) => some (dest, source)
  | _ => none

namespace Cluster

variable {cfg : Service} {s s' s'' : Cluster}

/-- What a message carries is right. -/
def Sent (s : Cluster) : Message → Prop
  | .toService _ source (.createDelegatePartition request) =>
    ∃ actor, s.actors source = some actor ∧ actor.request = .delegate request
  | .toService _ source (.createRddPartition request) =>
    ∃ actor, s.actors source = some actor ∧ actor.request = .rdd request
  | .toService _ source (.removeRddLocal _) => ∃ actor, s.actors source = some actor ∧
      actor.state = .terminate
  | _ => True

/-- What is on its way to make the objects of delegates. -/
def openings (s : Cluster) : List (ℕ × ActorId) := s.inFlight.filterMap Message.opening

theorem Touches.openings_eq (h : Touches s s') : s'.openings = s.openings := by
  obtain ⟨ms, hms, hplain⟩ := h.sent
  unfold openings
  rw [hms, filterMap_append]
  have hnone : ms.filterMap Message.opening = [] := by
    refine filterMap_eq_nil_iff.2 fun msg hmsg => ?_
    have hplain := hplain msg hmsg
    unfold Message.Plain at hplain
    split at hplain <;> first | rfl | contradiction
  rw [hnone, append_nil]

/-- Objects, names, actors and messages fit together. -/
structure Wf (s : Cluster) : Prop where
  table : ∀ k o, s.rddLocalMap k = some o → ∃ x, s.rddLocal o = some x ∧ (x.member, x.rddName) = k
  fresh : ∀ o x, s.rddLocal o = some x → o < s.next
  known : ∀ o x, s.rddLocal o = some x → ∃ actor, s.actors x.rddId = some actor ∧
    x.MadeOf actor.request
  listener : ∀ o x l, s.rddLocal o = some x → x.rddStoreListener = some l → l < s.next
  used : ∀ a actor, s.actors a = some actor → a.actorId < s.next
  sent : ∀ msg ∈ s.inFlight, s.Sent msg
  once : s.openings.Nodup
  unopened : ∀ o x, s.rddLocal o = some x → (x.member, x.rddId) ∈ s.openings →
    x.rddStoreListener = none

section

variable (h : s.Wf)

include h

theorem Wf.entry_eq_some {k : ℕ × String} {o : ℕ} (ho : s.rddLocalMap k = some o) :
    ∃ x, s.entry k = some x ∧ s.rddLocal o = some x ∧ (x.member, x.rddName) = k := by
  obtain ⟨x, hx, hk⟩ := h.table k o ho
  exact ⟨x, by rw [entry, ho, Option.bind_some, hx], hx, hk⟩

/-- An object has one name on one member. -/
theorem Wf.slot_unique {k k' : ℕ × String} {o : ℕ} (ho : s.rddLocalMap k = some o)
    (ho' : s.rddLocalMap k' = some o) : k = k' := by
  obtain ⟨x, hx, hk⟩ := h.table k o ho
  obtain ⟨x', hx', hk'⟩ := h.table k' o ho'
  rw [← hk, ← hk', Option.some.inj (hx.symm.trans hx')]

theorem Wf.touches (ht : Touches s s') : s'.Wf where
  table := by
    intro k o ho
    obtain ⟨x, hx, hk⟩ := h.table k o (ht.map ▸ ho)
    obtain ⟨x', hx', hcore⟩ := ht.forth hx
    obtain ⟨hmember, hname, -⟩ := RddLocal.of_core hcore
    exact ⟨x', hx', by rw [hmember, hname, hk]⟩
  fresh := by
    intro o x' hx'
    obtain ⟨x, hx, -⟩ := ht.back hx'
    exact ht.next ▸ h.fresh o x hx
  known := by
    intro o x' hx'
    obtain ⟨x, hx, hcore⟩ := ht.back hx'
    obtain ⟨actor, hactor, hmade⟩ := h.known o x hx
    obtain ⟨-, -, hid, -⟩ := RddLocal.of_core hcore
    exact ⟨actor, by rw [ht.actors, hid, hactor], hmade.of_core hcore⟩
  listener := by
    intro o x' l hx' hl
    obtain ⟨x, hx, hcore⟩ := ht.back hx'
    obtain ⟨-, -, -, -, -, hlistener⟩ := RddLocal.of_core hcore
    exact ht.next ▸ h.listener o x l hx (hlistener.symm.trans hl)
  used := by
    rw [ht.actors, ht.next]
    exact h.used
  sent := by
    obtain ⟨ms, hms, hplain⟩ := ht.sent
    rw [hms]
    intro msg hmsg
    rcases mem_append.1 hmsg with hmsg | hmsg
    · have hsent := h.sent msg hmsg
      unfold Sent at hsent ⊢
      rwa [ht.actors]
    · have hplain := hplain msg hmsg
      unfold Message.Plain at hplain
      unfold Sent
      split at hplain <;> trivial
  once := by
    have hopenings : s'.openings = s.openings := ht.openings_eq
    rw [hopenings]
    exact h.once
  unopened := by
    intro o x' hx' hmem
    obtain ⟨x, hx, hcore⟩ := ht.back hx'
    obtain ⟨hmember, -, hid, -, -, hlistener⟩ := RddLocal.of_core hcore
    rw [hmember, hid, ht.openings_eq] at hmem
    exact hlistener.trans (h.unopened o x hx hmem)

/-- A message is taken off. -/
theorem Wf.remove (i : ℕ) : (s.remove i).Wf where
  __ := h
  sent := fun msg hmsg => h.sent msg (mem_of_mem_eraseIdx hmsg)
  once := h.once.sublist ((eraseIdx_sublist s.inFlight i).filterMap Message.opening)
  unopened := fun o x hx hmem =>
    h.unopened o x hx (((eraseIdx_sublist s.inFlight i).filterMap Message.opening).subset hmem)

/-- A message that makes an object of a delegate was the only one that makes it. -/
theorem Wf.not_mem_openings_remove {i : ℕ} {msg : Message} {k : ℕ × ActorId}
    (hi : s.inFlight[i]? = some msg) (hk : msg.opening = some k) : k ∉ (s.remove i).openings := by
  obtain ⟨hlt, rfl⟩ := List.getElem?_eq_some_iff.mp hi
  have hperm := ((getElem_cons_eraseIdx_perm hlt).filterMap Message.opening).nodup_iff.2 h.once
  rw [filterMap_cons_some hk] at hperm
  exact (nodup_cons.1 hperm).1

/-- A new object of an RDD whose actor is known, or new too, gets its name. -/
theorem Wf.place {x : RddLocal} {actor : RddActor} (hlistener : x.rddStoreListener = none)
    (hmade : x.MadeOf actor.request) (hid : x.rddId.actorId ≤ s.next)
    (hactor : ∀ actor', s.actors x.rddId = some actor' → actor' = actor) :
    (((s.allocate x).setEntry (x.member, x.rddName) (some s.next)).setActor x.rddId actor).Wf := by
  have hkeep : ∀ a actor', s.actors a = some actor' →
      update s.actors x.rddId (some actor) a = some actor' := by
    intro a actor' ha
    by_cases hax : a = x.rddId
    · rw [hax, update_self, hactor actor' (hax ▸ ha)]
    · rwa [update_of_ne hax]
  have hlt : ∀ {o y}, s.rddLocal o = some y →
      update s.rddLocal s.next (some x) o = some y := by
    intro o y hy
    rwa [update_of_ne (h.fresh o y hy).ne]
  have hobj : ∀ {o y}, update s.rddLocal s.next (some x) o = some y →
      o = s.next ∧ y = x ∨ s.rddLocal o = some y :=
    fun hy => (Common.update_some_iff.mp hy).imp_right And.right
  refine ⟨?_, ?_, ?_, ?_, ?_, ?_, h.once, ?_⟩
  · intro k o ho
    change update s.rddLocalMap (x.member, x.rddName) (some s.next) k = some o at ho
    rcases Common.update_some_iff.mp ho with ⟨rfl, rfl⟩ | ⟨-, ho⟩
    · exact ⟨x, update_self _ _ _, rfl⟩
    · obtain ⟨y, hy, hkey⟩ := h.table k o ho
      exact ⟨y, hlt hy, hkey⟩
  · intro o y hy
    rcases hobj hy with ⟨rfl, -⟩ | hy
    · exact Nat.lt_succ_self _
    · exact Nat.lt_succ_of_lt (h.fresh o y hy)
  · intro o y hy
    rcases hobj hy with ⟨-, rfl⟩ | hy
    · exact ⟨actor, update_self _ _ _, hmade⟩
    · obtain ⟨actor', hactor', hmade'⟩ := h.known o y hy
      exact ⟨actor', hkeep _ _ hactor', hmade'⟩
  · intro o y l hy hl
    rcases hobj hy with ⟨-, rfl⟩ | hy
    · rw [hlistener] at hl
      exact absurd hl (Option.some_ne_none l).symm
    · exact Nat.lt_succ_of_lt (h.listener o y l hy hl)
  · intro a actor' ha
    change update s.actors x.rddId (some actor) a = some actor' at ha
    by_cases hax : a = x.rddId
    · rw [hax]
      exact Nat.lt_succ_of_le hid
    · rw [update_of_ne hax] at ha
      exact Nat.lt_succ_of_lt (h.used a actor' ha)
  · intro msg hmsg
    have hsent := h.sent msg hmsg
    unfold Sent at hsent ⊢
    split at hsent
    · exact hsent.imp fun actor' ha => ⟨hkeep _ _ ha.1, ha.2⟩
    · exact hsent.imp fun actor' ha => ⟨hkeep _ _ ha.1, ha.2⟩
    · exact hsent.imp fun actor' ha => ⟨hkeep _ _ ha.1, ha.2⟩
    · trivial
  · intro o y hy hmem
    rcases hobj hy with ⟨-, rfl⟩ | hy
    · exact hlistener
    · exact h.unopened o y hy hmem

/-- An object changes, but not its place. -/
theorem Wf.modify {o : ℕ} {f : RddLocal → RddLocal}
    (hplace : ∀ x, (f x).member = x.member ∧ (f x).rddName = x.rddName ∧ (f x).rddId = x.rddId)
    (hlistener : ∀ x l, (f x).rddStoreListener = some l → x.rddStoreListener = some l)
    (hmade : ∀ x actor, s.rddLocal o = some x → s.actors x.rddId = some actor →
      x.MadeOf actor.request →
      (f x).MadeOf actor.request) : (s.modify o f).Wf := by
  have hobj : ∀ {p y}, (s.modify o f).rddLocal p = some y →
      ∃ x, s.rddLocal p = some x ∧ (p = o ∧ y = f x ∨ y = x) := by
    intro p y hy
    rw [rddLocal_modify] at hy
    by_cases hp : p = o
    · subst hp
      rw [if_pos rfl] at hy
      obtain ⟨x, hx, rfl⟩ := Option.map_eq_some_iff.1 hy
      exact ⟨x, hx, .inl ⟨rfl, rfl⟩⟩
    · rw [if_neg hp] at hy
      exact ⟨y, hy, .inr rfl⟩
  refine ⟨?_, ?_, ?_, ?_, h.used, h.sent, h.once, ?_⟩
  · intro k p hp
    obtain ⟨x, hx, hk⟩ := h.table k p hp
    by_cases hpo : p = o
    · subst hpo
      refine ⟨f x, by rw [rddLocal_modify, if_pos rfl, hx, Option.map_some], ?_⟩
      rw [(hplace x).1, (hplace x).2.1, hk]
    · exact ⟨x, by rw [rddLocal_modify, if_neg hpo, hx], hk⟩
  · intro p y hy
    obtain ⟨x, hx, -⟩ := hobj hy
    exact h.fresh p x hx
  · intro p y hy
    obtain ⟨x, hx, hy⟩ := hobj hy
    obtain ⟨actor, hactor, hx'⟩ := h.known p x hx
    rcases hy with ⟨rfl, rfl⟩ | rfl
    · exact ⟨actor, by rw [(hplace x).2.2]; exact hactor, hmade x actor hx hactor hx'⟩
    · exact ⟨actor, hactor, hx'⟩
  · intro p y l hy hl
    obtain ⟨x, hx, hy⟩ := hobj hy
    rcases hy with ⟨rfl, rfl⟩ | rfl
    · exact h.listener p x l hx (hlistener x l hl)
    · exact h.listener p y l hx hl
  · intro p y hy hmem
    obtain ⟨x, hx, hy⟩ := hobj hy
    rcases hy with ⟨rfl, rfl⟩ | rfl
    · rw [(hplace x).1, (hplace x).2.2] at hmem
      refine Option.eq_none_iff_forall_ne_some.2 fun l hl => ?_
      exact Option.some_ne_none l ((hlistener x l hl).symm.trans (h.unopened p x hx hmem))
    · exact h.unopened p y hx hmem

/-- An object of a delegate that is not to be made any more gets a listener. -/
theorem Wf.addListener {o : ℕ} {x : RddLocal} (k : ℕ × Store) (hx : s.rddLocal o = some x)
    (hdelegate : x.delegateRdd = true) (hopened : (x.member, x.rddId) ∉ s.openings) :
    (s.addListener k o).Wf := by
  have hobj : ∀ {p y}, (s.addListener k o).rddLocal p = some y →
      p = o ∧ y = { x with rddStoreListener := some s.next } ∨ s.rddLocal p = some y := by
    intro p y hy
    change (s.modify o _).rddLocal p = some y at hy
    rw [rddLocal_modify] at hy
    by_cases hp : p = o
    · rw [if_pos hp, hx, Option.map_some] at hy
      exact .inl ⟨hp, (Option.some.inj hy).symm⟩
    · rw [if_neg hp] at hy
      exact .inr hy
  refine ⟨?_, ?_, ?_, ?_, fun a actor ha => Nat.lt_succ_of_lt (h.used a actor ha), h.sent,
    h.once, ?_⟩
  · intro k' p hp
    obtain ⟨y, hy, hk⟩ := h.table k' p hp
    change ∃ y, (s.modify o _).rddLocal p = some y ∧ _
    rw [rddLocal_modify]
    by_cases hpo : p = o
    · subst hpo
      obtain rfl := Option.some.inj (hx.symm.trans hy)
      exact ⟨{ x with rddStoreListener := some s.next }, by rw [if_pos rfl, hx,
        Option.map_some], hk⟩
    · exact ⟨y, by rw [if_neg hpo, hy], hk⟩
  · intro p y hy
    rcases hobj hy with ⟨rfl, -⟩ | hy
    · exact Nat.lt_succ_of_lt (h.fresh p x hx)
    · exact Nat.lt_succ_of_lt (h.fresh p y hy)
  · intro p y hy
    rcases hobj hy with ⟨-, rfl⟩ | hy
    · obtain ⟨actor, hactor, hmade⟩ := h.known o x hx
      exact ⟨actor, hactor, hmade.transformerMsg, hmade.delegateRdd, fun _ _ => hdelegate⟩
    · exact h.known p y hy
  · intro p y l hy hl
    rcases hobj hy with ⟨-, rfl⟩ | hy
    · exact Option.some.inj hl ▸ Nat.lt_succ_self s.next
    · exact Nat.lt_succ_of_lt (h.listener p y l hy hl)
  · intro p y hy hmem
    rcases hobj hy with ⟨-, rfl⟩ | hy
    · exact absurd hmem hopened
    · exact h.unopened p y hy hmem

/-- A name is free again. -/
theorem Wf.setEntry_none (k : ℕ × String) : (s.setEntry k none).Wf where
  __ := h
  table := by
    intro k' o ho
    exact h.table k' o (Common.update_none_iff.mp ho).2

/-- An actor that has not terminated changes. -/
theorem Wf.setActor {a : ActorId} {actor actor' : RddActor} (hactor : s.actors a = some actor)
    (hidle : actor.state ≠ .terminate) (hrequest : actor'.request = actor.request) :
    (s.setActor a actor').Wf := by
  have hkeep : ∀ b act, s.actors b = some act →
      ∃ act', update s.actors a (some actor') b = some act' ∧ act'.request = act.request ∧
        (act.state = .terminate → act'.state = .terminate) := by
    intro b act hb
    by_cases hba : b = a
    · subst hba
      obtain rfl := Option.some.inj (hactor.symm.trans hb)
      exact ⟨actor', update_self _ _ _, hrequest, fun hterm => absurd hterm hidle⟩
    · exact ⟨act, (update_of_ne hba _ _).trans hb, rfl, id⟩
  refine ⟨h.table, h.fresh, ?_, h.listener, ?_, ?_, h.once, h.unopened⟩
  · intro o x hx
    obtain ⟨act, hact, hmade⟩ := h.known o x hx
    obtain ⟨act', hact', hreq, -⟩ := hkeep _ _ hact
    exact ⟨act', hact', hreq ▸ hmade⟩
  · intro b act hb
    change update s.actors a (some actor') b = some act at hb
    by_cases hba : b = a
    · exact hba ▸ h.used a actor hactor
    · exact h.used b act ((update_of_ne hba _ _).symm.trans hb)
  · intro msg hmsg
    have hsent := h.sent msg hmsg
    unfold Sent at hsent ⊢
    split at hsent
    · obtain ⟨act, hact, hreq⟩ := hsent
      obtain ⟨act', hact', hreq', -⟩ := hkeep _ _ hact
      exact ⟨act', hact', hreq'.trans hreq⟩
    · obtain ⟨act, hact, hreq⟩ := hsent
      obtain ⟨act', hact', hreq', -⟩ := hkeep _ _ hact
      exact ⟨act', hact', hreq'.trans hreq⟩
    · obtain ⟨act, hact, hterm⟩ := hsent
      obtain ⟨act', hact', -, hterm'⟩ := hkeep _ _ hact
      exact ⟨act', hact', hterm' hterm⟩
    · trivial

/-- What an actor that has terminated sends. -/
theorem Wf.post {ms : List Message} (hsent : ∀ msg ∈ ms, s.Sent msg)
    (hnone : ∀ msg ∈ ms, msg.opening = none) : (s.post ms).Wf := by
  have hopenings : (s.post ms).openings = s.openings := by
    unfold openings Cluster.post
    rw [filterMap_append, filterMap_eq_nil_iff.2 hnone, append_nil]
  refine ⟨h.table, h.fresh, h.known, h.listener, h.used, ?_, hopenings ▸ h.once, ?_⟩
  · intro msg hmsg
    exact (mem_append.1 hmsg).elim (h.sent msg) (hsent msg)
  · intro o x hx hmem
    exact h.unopened o x hx (hopenings ▸ hmem)

/-- A new actor has the objects of a delegate made. -/
theorem Wf.multicast_opening {a : ActorId} {actor : RddActor} {request : CreateDelegateRddRequest}
    (hactor : s.actors a = some actor) (hrequest : actor.request = .delegate request)
    (hfirst : ∀ m, (m, a) ∉ s.openings)
    (hlistener : ∀ o x, s.rddLocal o = some x → x.rddId = a → x.rddStoreListener = none) :
    (s.multicast cfg a (.createDelegatePartition request)).Wf := by
  have hopenings : (s.multicast cfg a (.createDelegatePartition request)).openings =
      s.openings ++ cfg.members.map fun m => (m, a) := by
    unfold multicast openings Cluster.post
    rw [filterMap_append, filterMap_map]
    congr 1
    exact filterMap_eq_map' (f := fun m => (m, a)) ▸ rfl
  refine ⟨h.table, h.fresh, h.known, h.listener, h.used, ?_, ?_, ?_⟩
  · intro msg hmsg
    rcases mem_append.1 hmsg with hmsg | hmsg
    · exact h.sent msg hmsg
    · obtain ⟨m, -, rfl⟩ := mem_map.1 hmsg
      exact ⟨actor, hactor, hrequest⟩
  · rw [hopenings]
    refine nodup_append.2 ⟨h.once, cfg.nodup.map fun m m' hm => congrArg Prod.fst hm, ?_⟩
    rintro k hk k' hk' rfl
    obtain ⟨m, -, rfl⟩ := mem_map.1 hk'
    exact hfirst m hk
  · intro o x hx hmem
    rw [hopenings] at hmem
    rcases mem_append.1 hmem with hmem | hmem
    · exact h.unopened o x hx hmem
    · obtain ⟨m, -, hm⟩ := mem_map.1 hmem
      exact hlistener o x hx (congrArg Prod.snd hm).symm

end

/-! ## Live RDDs and what is upstream of them -/

/-- What is upstream of an RDD that is alive is alive. -/
structure Linked (s : Cluster) : Prop where
  down : ∀ o x, s.rddLocal o = some x → ∀ p ∈ x.downstreamRddLocal, p < s.next
  upheld : ∀ o x p y, s.rddLocal o = some x → p ∈ x.downstreamRddLocal → s.rddLocal p = some y →
    s.Alive y.rddId → s.Alive x.rddId

/-- An RDD that has terminated has no live downstream RDD. -/
theorem Linked.not_hasLiveDownstream (h : s.Linked) {a : ActorId} (ha : ¬ s.Alive a) :
    ¬ s.HasLiveDownstream a := by
  rintro ⟨o, -, x, hx, rfl, p, hp, y, hy, halive⟩
  exact ha (h.upheld o x p y hx hp hy halive)

theorem hasLiveDownstream_of_mem (hw : s.Wf) {o p : ℕ} {x y : RddLocal} (hx : s.rddLocal o = some x)
    (hp : p ∈ x.downstreamRddLocal) (hy : s.rddLocal p = some y) (halive : s.Alive y.rddId) :
    s.HasLiveDownstream x.rddId :=
  ⟨o, hw.fresh o x hx, x, hx, rfl, p, hp, y, hy, halive⟩

/-- The downstream objects of an object change. -/
theorem Linked.modify (h : s.Linked) {o : ℕ} {f : RddLocal → RddLocal}
    (hid : ∀ x, (f x).rddId = x.rddId)
    (hdown : ∀ x, s.rddLocal o = some x → ∀ p ∈ (f x).downstreamRddLocal, p ∈ x.downstreamRddLocal ∨
      p < s.next ∧ ∀ y, s.rddLocal p = some y → s.Alive y.rddId → s.Alive x.rddId) :
      (s.modify o f).Linked := by
  have hobj : ∀ {p y}, (s.modify o f).rddLocal p = some y →
      ∃ x, s.rddLocal p = some x ∧ y.rddId = x.rddId ∧ (p = o ∧ y = f x ∨ y = x) := by
    intro p y hy
    rw [rddLocal_modify] at hy
    by_cases hp : p = o
    · subst hp
      rw [if_pos rfl] at hy
      obtain ⟨x, hx, rfl⟩ := Option.map_eq_some_iff.1 hy
      exact ⟨x, hx, hid x, .inl ⟨rfl, rfl⟩⟩
    · rw [if_neg hp] at hy
      exact ⟨y, hy, rfl, .inr rfl⟩
  constructor
  · intro q y hy p hp
    obtain ⟨x, hx, -, ⟨rfl, rfl⟩ | rfl⟩ := hobj hy
    · exact (hdown x hx p hp).elim (h.down q x hx p) fun hnew => hnew.1
    · exact h.down q y hx p hp
  · intro q y p z hy hp hz halive
    obtain ⟨z', hz', hzid, -⟩ := hobj hz
    have hz'alive : s.Alive z'.rddId := hzid ▸ halive
    obtain ⟨x, hx, hxid, hy⟩ := hobj hy
    change s.Alive y.rddId
    rw [hxid]
    rcases hy with ⟨rfl, rfl⟩ | rfl
    · exact (hdown x hx p hp).elim (fun hold => h.upheld q x p z' hx hold hz' hz'alive)
        fun hnew => hnew.2 z' hz' hz'alive
    · exact h.upheld q y p z' hx hp hz' hz'alive

/-- A new object without downstream objects. -/
theorem Linked.place (h : s.Linked) (hw : s.Wf) {x : RddLocal} {actor : RddActor}
    (hx : x.downstreamRddLocal = [])
    (hactor : ∀ actor', s.actors x.rddId = some actor' → actor' = actor) :
    (((s.allocate x).setEntry (x.member, x.rddName) (some s.next)).setActor x.rddId actor).Linked
    := by
  have hactors : ∀ o y, s.rddLocal o = some y →
      update s.actors x.rddId (some actor) y.rddId = s.actors y.rddId := by
    intro o y hy
    by_cases hyx : y.rddId = x.rddId
    · obtain ⟨actor', hactor', -⟩ := hw.known o y hy
      rw [hyx] at hactor' ⊢
      rw [update_self, hactor', hactor actor' hactor']
    · exact update_of_ne hyx _ _
  have hobj : ∀ {o y}, update s.rddLocal s.next (some x) o = some y →
      o = s.next ∧ y = x ∨ s.rddLocal o = some y :=
    fun hy => (Common.update_some_iff.mp hy).imp_right And.right
  constructor
  · intro o y hy p hp
    rcases hobj hy with ⟨-, rfl⟩ | hy
    · exact absurd (hx ▸ hp) not_mem_nil
    · exact Nat.lt_succ_of_lt (h.down o y hy p hp)
  · intro o y p z hy hp hz halive
    rcases hobj hy with ⟨-, rfl⟩ | hy
    · exact absurd (hx ▸ hp) not_mem_nil
    · rcases hobj hz with ⟨rfl, -⟩ | hz
      · exact absurd (h.down o y hy _ hp) (lt_irrefl _)
      · have hold := h.upheld o y p z hy hp hz
        unfold Alive at hold halive ⊢
        change ∃ act ∈ update s.actors x.rddId (some actor) z.rddId, _ at halive
        change ∃ act ∈ update s.actors x.rddId (some actor) y.rddId, _
        rw [hactors p z hz] at halive
        rw [hactors o y hy]
        exact hold halive

/-- An actor goes on, or terminates without a live downstream RDD. -/
theorem Linked.setActor (h : s.Linked) (hw : s.Wf) {a : ActorId} {actor actor' : RddActor}
    (hactor : s.actors a = some actor) (hidle : actor.state ≠ .terminate)
    (hleaves : actor'.state = .terminate → ¬ s.HasLiveDownstream a) :
    (s.setActor a actor').Linked := by
  have hback : ∀ b, (s.setActor a actor').Alive b → s.Alive b := by
    rintro b ⟨act, hact, hne⟩
    by_cases hba : b = a
    · exact ⟨actor, hba ▸ hactor, hidle⟩
    · exact ⟨act, (update_of_ne hba _ _).symm.trans hact, hne⟩
  refine ⟨h.down, fun o x p y hx hp hy halive => ?_⟩
  obtain ⟨act, hact, hne⟩ := h.upheld o x p y hx hp hy (hback _ halive)
  by_cases hxa : x.rddId = a
  · refine ⟨actor', (congrArg _ hxa).trans (update_self _ _ _), fun hterm => ?_⟩
    exact hleaves hterm (hxa ▸ hasLiveDownstream_of_mem hw hx hp hy (hback _ halive))
  · exact ⟨act, (update_of_ne hxa _ _).trans hact, hne⟩

/-! ## The loops over inputs and upstream objects -/

/-- The states of objects are the same. -/
def StatesKept (s s' : Cluster) : Prop :=
  ∀ o, (s'.rddLocal o).map RddLocal.state = (s.rddLocal o).map RddLocal.state

theorem statesKept_modify (s : Cluster) (o : ℕ) {f : RddLocal → RddLocal}
    (hf : ∀ x, (f x).state = x.state) :
    StatesKept s (s.modify o f) := by
  intro p
  rw [rddLocal_modify]
  by_cases hp : p = o
  · subst hp
    rw [if_pos rfl, Option.map_map]
    exact Option.map_congr fun x _ => hf x
  · rw [if_neg hp]

/-- Objects are linked, or not any more. -/
structure Relinks (s s' : Cluster) : Prop where
  touches : Touches s s'
  states : StatesKept s s'
  linked : s'.Linked

theorem Relinks.refl (h : s.Linked) : Relinks s s := ⟨.refl s, fun _ => rfl, h⟩

theorem Relinks.trans (h : Relinks s s') (h' : Relinks s' s'') : Relinks s s'' :=
  ⟨h.touches.trans h'.touches, fun o => (h'.states o).trans (h.states o), h'.linked⟩

theorem relinks_link (h : s.Linked) {u o : ℕ} (ho : o < s.next)
    (halive : ∀ x y, s.rddLocal o = some x → s.rddLocal u = some y → s.Alive x.rddId →
      s.Alive y.rddId) :
    Relinks s (s.link u o) := by
  have hup : Relinks s (s.modify o fun x =>
      { x with upstreamRddLocal := x.upstreamRddLocal ++ [u] }) :=
    ⟨touches_modify s o fun _ => rfl, statesKept_modify s o fun _ => rfl,
      h.modify (fun _ => rfl) fun _ _ _ hp => .inl hp⟩
  refine hup.trans ⟨touches_modify _ u fun _ => rfl, statesKept_modify _ u fun _ => rfl, ?_⟩
  refine hup.linked.modify (fun _ => rfl) fun y hy p hp => ?_
  rcases mem_append.1 hp with hp | hp
  · exact .inl hp
  · obtain rfl := mem_singleton.1 hp
    refine .inr ⟨ho, fun x hx hx' => ?_⟩
    obtain ⟨y', hy', hycore⟩ := hup.touches.back hy
    obtain ⟨x', hx'', hxcore⟩ := hup.touches.back hx
    obtain ⟨-, -, hyid, -⟩ := RddLocal.of_core hycore
    obtain ⟨-, -, hxid, -⟩ := RddLocal.of_core hxcore
    rw [hyid]
    exact halive x' y' hx'' hy' (hxid ▸ hx')

/-- Linking an RDD to inputs that are alive if it is. -/
theorem relinks_linkInputs (parse : ℕ → Bool) (m o : ℕ) {names : List String} (i : ℕ) (h : s.Linked)
    (ho : o < s.next)
    (halive : ∀ name ∈ linkedInputs parse i names, ∀ u, s.rddLocalMap (m, name) = some u → ∀ x y,
      s.rddLocal o = some x → s.rddLocal u = some y → s.Alive x.rddId → s.Alive y.rddId) :
    Relinks s (linkInputs parse m o s i names).1 := by
  induction names generalizing s i with
  | nil => exact .refl h
  | cons name names ih =>
    unfold linkInputs
    unfold linkedInputs at halive
    cases hu : s.rddLocalMap (m, name) with
    | none => exact .refl h
    | some u =>
      dsimp only
      by_cases hparse : parse i = true
      · rw [if_pos hparse] at halive ⊢
        have hlink := relinks_link h ho (halive name mem_cons_self u hu)
        refine hlink.trans (ih (i + 1) hlink.linked ho ?_)
        intro name' hname' u' hu' x y hx hy hx'
        obtain ⟨x', hx'', hxcore⟩ := hlink.touches.back hx
        obtain ⟨y', hy', hycore⟩ := hlink.touches.back hy
        obtain ⟨-, -, hxid, -⟩ := RddLocal.of_core hxcore
        obtain ⟨-, -, hyid, -⟩ := RddLocal.of_core hycore
        rw [hyid]
        exact halive name' (mem_cons_of_mem _ hname') u' hu' x' y' hx'' hy' (hxid ▸ hx')
      · rw [if_neg hparse] at halive ⊢
        exact relinks_link h ho (halive name mem_cons_self u hu)

theorem relinks_onDownstreamRemoved (h : s.Linked) (a : ActorId) :
    Relinks s (s.onDownstreamRemoved a) := by
  unfold onDownstreamRemoved
  split
  · exact .refl h
  · split
    · refine ⟨touches_post _ fun msg hmsg => ?_, fun _ => rfl, ⟨h.down, h.upheld⟩⟩
      rw [mem_singleton.1 hmsg]
      trivial
    · exact .refl h

/-- An object leaves the list of an upstream object. -/
theorem relinks_removeDownstreamRddLocal (h : s.Linked) (m o u : ℕ) :
    Relinks s (removeDownstreamRddLocal m o s u) := by
  have herase : Relinks s (s.modify u fun y =>
      { y with downstreamRddLocal := y.downstreamRddLocal.erase o }) :=
    ⟨touches_modify s u fun _ => rfl, statesKept_modify s u fun _ => rfl,
      h.modify (fun _ => rfl) fun _ _ _ hp => .inl (mem_of_mem_erase hp)⟩
  unfold removeDownstreamRddLocal
  split
  · exact .refl h
  · dsimp only
    split
    · exact herase.trans (relinks_onDownstreamRemoved herase.linked _)
    · exact herase

theorem relinks_foldl_removeDownstreamRddLocal (m o : ℕ) (us : List ℕ) (h : s.Linked) :
    Relinks s (us.foldl (removeDownstreamRddLocal m o) s) := by
  induction us generalizing s with
  | nil => exact .refl h
  | cons u us ih =>
    have hu := relinks_removeDownstreamRddLocal h m o u
    exact hu.trans (ih hu.linked)

end Cluster

end Idgs.Rdd.NamedRdds
