import Idgs.Common.Registry
import Idgs.Rdd.NamedRddsObjects

/-!
# When names designate one RDD

In runs of orderly steps the lists of listeners are those of the delegates that have a name, a
message about an RDD concerns its own objects only, and an RDD with a live downstream RDD keeps its
name.
-/

namespace Idgs.Rdd.NamedRdds

open Function

open Placement (ActorId)

namespace Cluster

variable {cfg : Service} {s s' : Cluster}

/-! ## The listeners of stores -/

/-- A listener that is on a list once is erased. -/
theorem eraseRemove_eq {listener : ℕ} {listeners : List ℕ} (hnodup : listeners.Nodup)
    (hmem : listener ∈ listeners) :
    eraseRemove listener listeners = some (listeners.erase listener) := by
  have hkept : listeners.filter (fun l => l ≠ listener) = listeners.erase listener := by
    rw [hnodup.erase_eq_filter]
    exact List.filter_congr fun l _ => by simp [bne, beq_eq_decide]
  have hlength : (listeners.erase listener).length + 1 = listeners.length := by
    rw [List.length_erase_of_mem hmem]
    exact Nat.succ_pred_eq_of_pos (List.length_pos_of_mem hmem)
  unfold eraseRemove
  dsimp only
  rw [hkept, hlength, if_pos hmem, List.drop_length, List.append_nil]

theorem listening_eq_none (k : ℕ × String)
    (h : ∀ x, s.entry k = some x → x.rddStoreListener = none) :
    s.listening cfg k = none := by
  unfold listening
  cases hx : s.entry k with
  | none => rfl
  | some x =>
    rw [Option.bind_some, RddLocal.listening, h x hx]
    rfl

/-- An object keeps its listener and its store. -/
theorem listening_modify (o : ℕ) {f : RddLocal → RddLocal}
    (hf : ∀ x, s.rddLocal o = some x → (f x).listening cfg = x.listening cfg) :
    (s.modify o f).listening cfg = s.listening cfg := by
  funext k
  unfold listening entry
  change ((s.rddLocalMap k).bind (s.modify o f).rddLocal).bind _ = _
  cases s.rddLocalMap k with
  | none => rfl
  | some p =>
    rw [Option.bind_some, Option.bind_some, rddLocal_modify]
    by_cases hp : p = o
    · subst hp
      rw [if_pos rfl]
      cases hx : s.rddLocal p with
      | none => rfl
      | some x => exact hf x hx
    · rw [if_neg hp]

variable {k : ℕ × String} {x : RddLocal}

/-- The object that has a name changes. -/
theorem listening_modify_slot (hw : s.Wf) {o : ℕ} (ho : s.rddLocalMap k = some o)
    (hx : s.rddLocal o = some x) (f : RddLocal → RddLocal) :
    (s.modify o f).listening cfg = update (s.listening cfg) k ((f x).listening cfg) := by
  funext k'
  by_cases hk : k' = k
  · subst hk
    rw [update_self]
    unfold listening entry
    change ((s.rddLocalMap k').bind (s.modify o f).rddLocal).bind _ = _
    rw [ho, Option.bind_some, rddLocal_modify, if_pos rfl, hx, Option.map_some, Option.bind_some]
  · rw [update_of_ne hk]
    unfold listening entry
    change ((s.rddLocalMap k').bind (s.modify o f).rddLocal).bind _ = _
    cases hp : s.rddLocalMap k' with
    | none => rfl
    | some p =>
      have hpo : p ≠ o := by
        rintro rfl
        exact hk (hw.slot_unique hp ho)
      rw [Option.bind_some, Option.bind_some, rddLocal_modify, if_neg hpo]

theorem listening_setEntry_none (s : Cluster) (k : ℕ × String) :
    (s.setEntry k none).listening cfg = update (s.listening cfg) k none := by
  funext k'
  unfold listening entry
  change ((update s.rddLocalMap k none k').bind s.rddLocal).bind _ = _
  by_cases hk : k' = k
  · rw [hk, update_self, update_self]
    rfl
  · rw [update_of_ne hk, update_of_ne hk]

/-- A new object without a listener takes a name. -/
theorem listening_place (hw : s.Wf) (actor : RddActor) (hx : x.rddStoreListener = none) :
    (((s.allocate x).setEntry (x.member, x.rddName) (some s.next)).setActor x.rddId actor).listening
    cfg =
      update (s.listening cfg) (x.member, x.rddName) none := by
  funext k
  unfold listening entry
  change ((update s.rddLocalMap (x.member, x.rddName) (some s.next) k).bind
    (update s.rddLocal s.next (some x))).bind _ = _
  by_cases hk : k = (x.member, x.rddName)
  · rw [hk, update_self, update_self, Option.bind_some, update_self,
      Option.bind_some, RddLocal.listening, hx]
    rfl
  · rw [update_of_ne hk, update_of_ne hk]
    cases ho : s.rddLocalMap k with
    | none => rfl
    | some o =>
      obtain ⟨y, hy, -⟩ := hw.table k o ho
      rw [Option.bind_some, Option.bind_some, update_of_ne (hw.fresh o y hy).ne]

/-! ## The invariant -/

/-- The invariant. -/
structure Inv (cfg : Service) (s : Cluster) : Prop where
  wf : s.Wf
  linked : s.Linked
  exact : Common.Exact (s.listening cfg) s.listeners
  crashed : ∀ m, s.crashed m = false

/-- The invariant, but that the listener of the object that has the name is on no list any more. -/
structure Vacated (cfg : Service) (s : Cluster) (k : ℕ × String) : Prop where
  wf : s.Wf
  linked : s.Linked
  exact : Common.Exact (Function.update (s.listening cfg) k none) s.listeners
  crashed : ∀ m, s.crashed m = false

section

variable (h : Inv cfg s)

include h

theorem Inv.vacated (hk : s.listening cfg k = none) : Vacated cfg s k :=
  ⟨h.wf, h.linked, h.exact.update_none hk, h.crashed⟩

/-- The listener of the object is taken off the list of its store. -/
theorem Inv.eraseListener {store : Store} {listener : ℕ}
    (hx : s.entry k = some x) (hlistener : x.rddStoreListener = some listener)
    (hstore : x.store cfg = some store) :
    ∃ L, s.eraseListener (k.1, store) listener = some { s with listeners := L } ∧
      Vacated cfg { s with listeners := L } k := by
  obtain ⟨o, ho, hxo⟩ := Option.bind_eq_some_iff.1 hx
  obtain ⟨x', hx', hk⟩ := h.wf.table k o ho
  obtain rfl := Option.some.inj (hxo.symm.trans hx')
  have hheld : s.listening cfg k = some (listener, (k.1, store)) := by
    unfold listening
    rw [hx, Option.bind_some, RddLocal.listening, hlistener, hstore, ← hk]
    rfl
  have hmem := (h.exact.mem_iff (k.1, store) listener).2 ⟨k, hheld⟩
  refine ⟨update s.listeners (k.1, store) ((s.listeners (k.1, store)).erase listener), ?_,
    ⟨h.wf.table, h.wf.fresh, h.wf.known, h.wf.listener, h.wf.used, h.wf.sent, h.wf.once,
    h.wf.unopened⟩,
    ⟨h.linked.down, h.linked.upheld⟩, h.exact.drop hheld, h.crashed⟩
  unfold Cluster.eraseListener
  rw [eraseRemove_eq (h.exact.nodup _) hmem]
  rfl

/-- What an object may be replaced by leaves no listener behind. -/
theorem Inv.replaceListener {store : Store}
    (hx : s.entry k = some x) (hreplace : s.Replaceable cfg (some store) x) :
    ∃ L, s.replaceListener (k.1, store) x = some { s with listeners := L } ∧
      Vacated cfg { s with listeners := L } k := by
  unfold Cluster.replaceListener
  cases hlistener : x.rddStoreListener with
  | none =>
    refine ⟨s.listeners, rfl, h.vacated (listening_eq_none k fun x' hx' => ?_)⟩
    rw [Option.some.inj (hx'.symm.trans hx), hlistener]
  | some listener =>
    have hstore :=
      (hreplace.2.resolve_left fun hnone => Option.some_ne_none _ (hlistener.symm.trans hnone)).2
    exact h.eraseListener hx hlistener hstore

/-- What may be replaced leaves no listener behind, if there is something. -/
theorem Inv.vacate {store : Store}
    (hreplace : ∀ x ∈ s.entry k, s.Replaceable cfg (some store) x) :
    ∃ L, (s.entry k).elim (some s)
    (s.replaceListener (k.1, store)) = some { s with listeners := L } ∧
      Vacated cfg { s with listeners := L } k := by
  cases hx : s.entry k with
  | none => exact ⟨s.listeners, rfl, h.vacated (by rw [listening, hx]; rfl)⟩
  | some x => exact h.replaceListener hx (hreplace x hx)

/-- Only an object without a listener may be replaced by one of an RDD that is no delegate. -/
theorem Inv.vacated_of_replaceable
    (hreplace : ∀ x ∈ s.entry k, s.Replaceable cfg none x) : Vacated cfg s k :=
  h.vacated (listening_eq_none k fun x hx => (hreplace x hx).2.resolve_right fun hstore =>
    Bool.false_ne_true hstore.1)

end

/-! ## Creating RDDs -/

/-- A new object takes the name. -/
theorem Vacated.place (h : Vacated cfg s (x.member, x.rddName)) {actor : RddActor}
    (hlistener : x.rddStoreListener = none) (hdown : x.downstreamRddLocal = [])
    (hmade : x.MadeOf actor.request) (hid : x.rddId.actorId ≤ s.next)
    (hactor : ∀ actor', s.actors x.rddId = some actor' → actor' = actor) :
    Inv cfg (((s.allocate x).setEntry (x.member, x.rddName) (some s.next)).setActor x.rddId actor)
    where
  wf := h.wf.place hlistener hmade hid hactor
  linked := h.linked.place h.wf hdown hactor
  exact := by
    rw [listening_place h.wf actor hlistener]
    exact h.exact
  crashed := h.crashed

theorem Wf.actors_next (h : s.Wf) (m : ℕ) : s.actors ⟨m, s.next⟩ = none :=
  Option.eq_none_iff_forall_ne_some.2 fun actor hactor => (h.used _ actor hactor).false

variable {m : ℕ}

/-- A new RDD takes the name. -/
theorem Vacated.newRdd {request : Request} (h : Vacated cfg s (m, request.rddName))
    (hm : x.member = m) (hname : x.rddName = request.rddName) (hid : x.rddId = ⟨m, s.next⟩)
    (hlistener : x.rddStoreListener = none) (hdown : x.downstreamRddLocal = [])
    (hmade : x.MadeOf request) :
    Inv cfg (s.newRdd m request x) := by
  unfold Cluster.newRdd
  rw [← hm, ← hname] at h ⊢
  refine h.place hlistener hdown hmade (by rw [hid]) fun actor' hactor' => ?_
  rw [hid, h.wf.actors_next] at hactor'
  exact absurd hactor' (Option.some_ne_none _).symm

theorem Wf.openings_lt (h : s.Wf) {k : ℕ × ActorId} (hk : k ∈ s.openings) :
    k.2.actorId < s.next := by
  obtain ⟨msg, hmsg, hopening⟩ := List.mem_filterMap.1 hk
  have hsent := h.sent msg hmsg
  unfold Message.opening at hopening
  split at hopening
  · obtain ⟨actor, hactor, -⟩ := hsent
    obtain rfl := Option.some.inj hopening
    exact h.used _ actor hactor
  · exact absurd hopening (Option.some_ne_none _).symm

theorem Wf.rddId_lt (h : s.Wf) {o : ℕ} (hx : s.rddLocal o = some x) : x.rddId.actorId < s.next := by
  obtain ⟨actor, hactor, -⟩ := h.known o x hx
  exact h.used _ actor hactor

variable {request : CreateDelegateRddRequest}

theorem Inv.handleCreateStoreDelegate (h : Inv cfg s)
    (horderly : s.Orderly cfg (.createStoreDelegate m request)) :
    Inv cfg (s.handleCreateStoreDelegate cfg m request) := by
  unfold Cluster.handleCreateStoreDelegate
  cases hstore : cfg.storeOf m request with
  | none => exact h
  | some store =>
    obtain ⟨L, hL, hvacated⟩ := h.vacate (horderly store hstore)
    dsimp only at hL ⊢
    rw [hL]
    dsimp only
    have hnew : Inv cfg (newRdd { s with listeners := L } m (.delegate request)
        { member := m, rddName := request.rddName, rddId := ⟨m, s.next⟩, state := .init
          transformerMsg := some (.delegate request), delegateRdd := true }) :=
      Vacated.newRdd hvacated rfl rfl rfl rfl rfl
        ⟨fun r hr => (Option.some.inj hr).symm, ⟨fun _ => ⟨request, rfl⟩, fun _ => rfl⟩,
          fun _ _ => rfl⟩
    refine ⟨hnew.wf.multicast_opening (update_self _ _ _) rfl ?_ ?_,
      ⟨hnew.linked.down, hnew.linked.upheld⟩,
      hnew.exact, hnew.crashed⟩
    · intro m' hmem
      exact (h.wf.openings_lt hmem).false
    · intro o x hx hid
      change update s.rddLocal s.next _ o = some x at hx
      rcases Common.update_some_iff.mp hx with ⟨-, rfl⟩ | ⟨-, hx⟩
      · rfl
      · exact absurd (hid ▸ h.wf.rddId_lt hx) (lt_irrefl _)

theorem Inv.handleCreateRdd (h : Inv cfg s) {request : CreateRddRequest}
    (horderly : s.Orderly cfg (.createRdd m request)) :
    Inv cfg (s.handleCreateRdd cfg m request) := by
  unfold Cluster.handleCreateRdd
  by_cases hempty : request.inRdd = []
  · rw [if_pos hempty]
    exact h
  · rw [if_neg hempty]
    have hvacated := h.vacated_of_replaceable (horderly hempty)
    have hnew : Inv cfg (s.newRdd m (.rdd request)
        { member := m, rddName := request.outRdd, rddId := ⟨m, s.next⟩, state := .init }) :=
      Vacated.newRdd hvacated rfl rfl rfl rfl rfl
        ⟨fun r hr => absurd hr (Option.some_ne_none r).symm,
          ⟨fun hfalse => absurd hfalse Bool.false_ne_true, fun ⟨r, hr⟩ =>
          absurd hr (Option.some_ne_none _).symm⟩,
          fun l hl => absurd hl (Option.some_ne_none l).symm⟩
    refine ⟨hnew.wf.post (fun msg hmsg => ?_) (fun msg hmsg => ?_),
      ⟨hnew.linked.down, hnew.linked.upheld⟩,
      hnew.exact, hnew.crashed⟩
    · obtain ⟨m', -, rfl⟩ := List.mem_map.1 hmsg
      exact ⟨_, update_self _ _ _, rfl⟩
    · obtain ⟨m', -, rfl⟩ := List.mem_map.1 hmsg
      rfl

/-! ## Making the objects of an RDD -/

/-- The object that an RDD gets on a member before it is opened. -/
def newObject (m : ℕ) (rddName : String) (source : ActorId) : RddLocal :=
  { member := m, rddName := rddName, rddId := source, state := .init }

theorem newObject_madeOf (m : ℕ) (rddName : String) (source : ActorId) (request : Request) :
    (newObject m rddName source).MadeOf request :=
  ⟨fun r hr => absurd hr (Option.some_ne_none r).symm,
    ⟨fun hfalse => absurd hfalse Bool.false_ne_true, fun ⟨_, hr⟩ =>
    absurd hr (Option.some_ne_none _).symm⟩,
    fun l hl => absurd hl (Option.some_ne_none l).symm⟩

variable {source : ActorId}

/-- A new object of an RDD that has an actor takes the name. -/
theorem Vacated.newEntry {rddName : String} {actor : RddActor}
    (h : Vacated cfg s (m, rddName)) (hactor : s.actors source = some actor) :
    Inv cfg (s.newEntry m rddName source) := by
  have hmade : (newObject m rddName source).MadeOf actor.request :=
    newObject_madeOf m rddName source actor.request
  have hplace :=
    Vacated.place (x := newObject m rddName source) h rfl rfl hmade
    (h.wf.used source actor hactor).le
    fun actor' hactor' => Option.some.inj (hactor'.symm.trans hactor)
  have hsame : update s.actors source (some actor) = s.actors :=
    update_eq_self_iff.2 hactor.symm
  unfold setActor at hplace
  change Inv cfg { s.newEntry m rddName source with
    actors := update s.actors source (some actor) } at hplace
  rwa [hsame] at hplace

theorem rddLocalMap_newEntry (s : Cluster) (m : ℕ) (rddName : String) (source : ActorId) :
    (s.newEntry m rddName source).rddLocalMap (m, rddName) = some s.next :=
    update_self _ _ _

theorem rddLocal_newEntry (s : Cluster) (m : ℕ) (rddName : String) (source : ActorId) :
    (s.newEntry m rddName source).rddLocal s.next = some (newObject m rddName source) :=
    update_self _ _ _

/-- The object of a delegate is opened and gets its listener. -/
theorem Inv.fillDelegate (h : Inv cfg s) {o : ℕ} {actor : RddActor}
    {store : Store} (ho : s.rddLocalMap k = some o) (hx : s.rddLocal o = some x)
    (hlistener : x.rddStoreListener = none) (hactor : s.actors x.rddId = some actor)
    (hrequest : actor.request = .delegate request)
    (hstore : cfg.storeOf x.member request = some store)
    (hopened : (x.member, x.rddId) ∉ s.openings) :
    Inv cfg (s.fillDelegate (x.member, store) o request) := by
  have hopen : (s.modify o (openDelegate request)).Wf := by
    refine h.wf.modify (fun _ => ⟨rfl, rfl, rfl⟩) (fun _ _ hl => hl) fun y act hy hact _ => ?_
    obtain rfl := Option.some.inj (hx.symm.trans hy)
    obtain rfl := Option.some.inj (hactor.symm.trans hact)
    exact ⟨fun r hr => (Option.some.inj hr).symm.trans hrequest.symm,
      ⟨fun _ => ⟨request, rfl⟩, fun _ => rfl⟩,
      fun _ _ => rfl⟩
  have hx' : (s.modify o (openDelegate request)).rddLocal o = some (openDelegate request x) := by
    rw [rddLocal_modify, if_pos rfl, hx, Option.map_some]
  have hnone : s.listening cfg k = none := by
    refine listening_eq_none k fun y hy => ?_
    rw [entry, ho, Option.bind_some, hx] at hy
    rw [← Option.some.inj hy, hlistener]
  have hsame : (s.modify o (openDelegate request)).listening cfg = s.listening cfg := by
    refine listening_modify o fun y hy => ?_
    obtain rfl := Option.some.inj (hx.symm.trans hy)
    unfold RddLocal.listening
    change x.rddStoreListener.bind _ = _
    rw [hlistener]
    rfl
  have hlinked : (s.modify o (openDelegate request)).Linked :=
    h.linked.modify (fun _ => rfl) fun _ _ _ hp => .inl hp
  have hlisten : (s.fillDelegate (x.member, store) o request).listening cfg =
      update (s.listening cfg) k (some (s.next, (x.member, store))) := by
    rw [← hsame]
    refine (listening_modify_slot hopen ho hx' fun y =>
      { y with rddStoreListener := some s.next }).trans ?_
    have hstore' : (cfg.storeOf x.member request).map (fun store => (s.next, (x.member, store))) =
        some (s.next, (x.member, store)) := by rw [hstore, Option.map_some]
    exact congrArg _ hstore'
  have hadd : ((s.modify o (openDelegate request)).modify o
      fun y => { y with rddStoreListener := some s.next }).Linked :=
    hlinked.modify (fun _ => rfl) fun _ _ _ hp => .inl hp
  refine ⟨hopen.addListener (x.member, store) hx' rfl hopened,
    ⟨fun p y hy q hq => Nat.lt_succ_of_lt (hadd.down p y hy q hq), hadd.upheld⟩, ?_, h.crashed⟩
  rw [hlisten]
  refine h.exact.add hnone fun k' store' hheld => ?_
  unfold listening at hheld
  obtain ⟨y, hy, hlistening⟩ := Option.bind_eq_some_iff.1 hheld
  obtain ⟨p, -, hy⟩ := Option.bind_eq_some_iff.1 hy
  obtain ⟨l, hl, hlistening⟩ := Option.bind_eq_some_iff.1 hlistening
  obtain ⟨store'', -, heq⟩ := Option.map_eq_some_iff.1 hlistening
  obtain rfl : l = s.next := congrArg Prod.fst heq
  exact (h.wf.listener p y _ hy hl).false

/-- A new object of a delegate is made. -/
theorem Vacated.newDelegate {actor : RddActor}
    {store : Store} (h : Vacated cfg s (m, request.rddName)) (hactor : s.actors source = some actor)
    (hrequest : actor.request = .delegate request) (hstore : cfg.storeOf m request = some store)
    (hopened : (m, source) ∉ s.openings) : Inv cfg (s.newDelegate m store source request) :=
  (h.newEntry hactor).fillDelegate (rddLocalMap_newEntry s m request.rddName source)
    (rddLocal_newEntry s m request.rddName source) rfl hactor hrequest hstore hopened

/-- The message that makes the object of a delegate has been taken off. -/
theorem Inv.handleCreateDelegatePartition (h : Inv cfg s) {actor : RddActor}
    (hactor : s.actors source = some actor)
    (hrequest : actor.request = .delegate request) (hopened : (m, source) ∉ s.openings)
    (hfirst : ∀ o x, s.rddLocal o = some x → x.member = m → x.rddId = source →
      x.rddStoreListener = none)
    (horderly : s.HandledOrderly cfg (.toService m source (.createDelegatePartition request))) :
    Inv cfg (s.handleCreateDelegatePartition cfg m source request) := by
  unfold Cluster.handleCreateDelegatePartition
  cases hstore : cfg.storeOf m request with
  | none => exact h
  | some store =>
    dsimp only
    cases ho : s.rddLocalMap (m, request.rddName) with
    | none =>
      have hnone : s.listening cfg (m, request.rddName) = none := by
          rw [listening, entry, ho]; rfl
      exact (h.vacated hnone).newDelegate hactor hrequest hstore hopened
    | some o =>
      obtain ⟨x, hentry, hx, hk⟩ := h.wf.entry_eq_some ho
      obtain ⟨rfl, -⟩ := Prod.mk.inj hk
      rw [hentry]
      dsimp only
      by_cases hid : x.rddId = source
      · subst hid
        rw [if_pos rfl]
        exact h.fillDelegate ho hx (hfirst o x hx rfl rfl) hactor hrequest hstore hopened
      · rw [if_neg hid]
        have hreplace := (horderly store hstore x hentry).resolve_left hid
        obtain ⟨L, hL, hvacated⟩ := h.replaceListener hentry hreplace
        dsimp only at hL
        rw [hL]
        exact hvacated.newDelegate hactor hrequest hstore hopened

theorem Inv.handleCreateRddPartition (h : Inv cfg s) {actor : RddActor}
    {request : CreateRddRequest} (hactor : s.actors source = some actor)
    (hrequest : actor.request = .rdd request)
    (horderly : s.HandledOrderly cfg (.toService m source (.createRddPartition request))) :
    Inv cfg (s.handleCreateRddPartition m source request) := by
  -- an object of this RDD is none of a delegate, so it has no listener
  have hopen : ∀ {s : Cluster} {o : ℕ} {x : RddLocal}, Inv cfg s → s.actors source = some actor →
      s.rddLocal o = some x → x.rddId = source → Inv cfg (s.modify o (openRdd request)) := by
    intro s o x h hactor hx hid
    have hplain : x.delegateRdd = false := by
      obtain ⟨act, hact, hmade⟩ := h.wf.known o x hx
      obtain rfl := Option.some.inj (hactor.symm.trans (hid ▸ hact))
      refine Bool.eq_false_iff.2 fun hdelegate => ?_
      obtain ⟨r, hr⟩ := hmade.delegateRdd.1 hdelegate
      exact Request.noConfusion ((hmade.transformerMsg _ hr).trans hrequest)
    have hsilent : x.rddStoreListener = none := by
      obtain ⟨act, -, hmade⟩ := h.wf.known o x hx
      refine Option.eq_none_iff_forall_ne_some.2 fun l hl => ?_
      exact Bool.false_ne_true (hplain.symm.trans (hmade.listens l hl))
    refine ⟨h.wf.modify (fun _ => ⟨rfl, rfl, rfl⟩) (fun _ _ hl => hl) fun y act hy hact _ => ?_,
      h.linked.modify (fun _ => rfl) fun _ _ _ hp => .inl hp, ?_, h.crashed⟩
    · obtain rfl := Option.some.inj (hx.symm.trans hy)
      obtain rfl := Option.some.inj (hactor.symm.trans (hid ▸ hact))
      refine ⟨fun r hr => (Option.some.inj hr).symm.trans hrequest.symm,
        ⟨fun hdelegate => ?_, fun ⟨r, hr⟩ => ?_⟩,
        fun l hl => ?_⟩
      · exact absurd (hplain.symm.trans hdelegate) Bool.false_ne_true
      · exact Request.noConfusion (Option.some.inj hr)
      · exact absurd (hsilent.symm.trans hl) (Option.some_ne_none l).symm
    · have hsame : (s.modify o (openRdd request)).listening cfg = s.listening cfg := by
        refine listening_modify o fun y hy => ?_
        obtain rfl := Option.some.inj (hx.symm.trans hy)
        unfold RddLocal.listening
        change x.rddStoreListener.bind _ = _
        rw [hsilent]
        rfl
      rw [hsame]
      exact h.exact
  have hnew : Vacated cfg s (m, request.outRdd) →
      Inv cfg ((s.newEntry m request.outRdd source).modify s.next (openRdd request)) :=
    fun hvacated =>
      hopen (hvacated.newEntry hactor) hactor (rddLocal_newEntry s m request.outRdd source) rfl
  unfold Cluster.handleCreateRddPartition
  cases ho : s.rddLocalMap (m, request.outRdd) with
  | none => exact hnew (h.vacated (by rw [listening, entry, ho]; rfl))
  | some o =>
    obtain ⟨x, hentry, hx, -⟩ := h.wf.entry_eq_some ho
    rw [hentry]
    dsimp only
    by_cases hid : x.rddId = source
    · rw [if_pos hid]
      exact hopen h hactor hx hid
    · rw [if_neg hid]
      refine hnew (h.vacated_of_replaceable fun y hy => ?_)
      exact (horderly y hy).resolve_left (Option.some.inj (hentry.symm.trans hy) ▸ hid)

/-! ## Messages about an RDD -/

/-- Only the object that has the name loses it or changes its state. -/
structure OnlyAt (k : ℕ × String) (s s' : Cluster) : Prop where
  map : ∀ k', k' ≠ k → s'.rddLocalMap k' = s.rddLocalMap k'
  states : ∀ o, s.rddLocalMap k ≠ some o →
    (s'.rddLocal o).map RddLocal.state = (s.rddLocal o).map RddLocal.state

theorem OnlyAt.refl (k : ℕ × String) (s : Cluster) : OnlyAt k s s :=
  ⟨fun _ _ => rfl, fun _ _ => rfl⟩

/-- All names are kept, and only the object that has the name changes its state. -/
structure Updates (k : ℕ × String) (s s' : Cluster) : Prop where
  map : s'.rddLocalMap = s.rddLocalMap
  states : ∀ o, s.rddLocalMap k ≠ some o →
    (s'.rddLocal o).map RddLocal.state = (s.rddLocal o).map RddLocal.state

theorem Updates.refl (k : ℕ × String) (s : Cluster) : Updates k s s := ⟨rfl, fun _ _ => rfl⟩

section

variable (h : Inv cfg s)

include h

theorem Inv.touches (ht : Touches s s') (hlinked : s'.Linked) : Inv cfg s' where
  wf := h.wf.touches ht
  linked := hlinked
  exact := by
    rw [ht.listening_eq, ht.listeners]
    exact h.exact
  crashed := by
    rw [ht.crashed]
    exact h.crashed

/-- The state of the object that has the name changes. -/
theorem Inv.setState {o : ℕ} (ho : s.rddLocalMap k = some o) (state : RddState) :
    Inv cfg (s.modify o fun x => { x with state := state }) ∧
      Updates k s (s.modify o fun x => { x with state := state }) := by
  refine ⟨h.touches (touches_modify s o fun _ =>
    rfl) (h.linked.modify (fun _ => rfl) fun _ _ _ hp => .inl hp),
    rfl, fun p hp => ?_⟩
  rw [rddLocal_modify, if_neg]
  rintro rfl
  exact hp ho

theorem Inv.partitionsKnown {o : ℕ} (ho : s.rddLocalMap k = some o) (m : ℕ)
    (source : ActorId) (state : RddState) :
    Inv cfg (s.partitionsKnown m o source state) ∧ Updates k s
    (s.partitionsKnown m o source state) := by
  unfold Cluster.partitionsKnown
  split
  · exact ⟨h, .refl k s⟩
  · exact h.setState ho state

theorem Inv.handleRddStateSync (m : ℕ) (rddName : String) (state : RddState) :
    Inv cfg (s.handleRddStateSync m rddName state) ∧
      Updates (m, rddName) s (s.handleRddStateSync m rddName state) := by
  unfold Cluster.handleRddStateSync
  split
  · exact ⟨h, .refl _ s⟩
  · rename_i o ho
    exact h.setState ho state

theorem Inv.handlePartitionCreated {rddName : String} {state : RddState}
    (horderly : s.HandledOrderly cfg (.toService m source (.partitionCreated rddName state))) :
    Inv cfg (s.handlePartitionCreated cfg m source rddName state) ∧
      Updates (m, rddName) s (s.handlePartitionCreated cfg m source rddName state) := by
  unfold Cluster.handlePartitionCreated
  cases ho : s.rddLocalMap (m, rddName) with
  | none => exact ⟨h, .refl _ s⟩
  | some o =>
    obtain ⟨x, hentry, hx, -⟩ := h.wf.entry_eq_some ho
    obtain ⟨hid, hlinkable⟩ := horderly x hentry
    rw [hentry]
    dsimp only
    cases hdelegate : x.delegateRdd with
    | true => exact h.partitionsKnown ho m source state
    | false =>
      rw [if_neg Bool.false_ne_true]
      cases hmsg : x.transformerMsg with
      | none =>
        rw [Linkable, hmsg] at hlinkable
        exact hlinkable.elim
      | some r =>
        cases r with
        | delegate request =>
          obtain ⟨actor, -, hmade⟩ := h.wf.known o x hx
          exact absurd (hdelegate.symm.trans (hmade.delegateRdd.2 ⟨request, hmsg⟩))
            Bool.false_ne_true
        | rdd request =>
          rw [Linkable, hmsg] at hlinkable
          dsimp only
          cases hinputs : s.inputs m request.inRdd with
          | wait =>
            refine ⟨h.touches (touches_post s fun msg hmsg => ?_) ⟨h.linked.down,
              h.linked.upheld⟩,
              rfl, fun _ _ => rfl⟩
            rw [List.mem_singleton.1 hmsg]
            trivial
          | error => exact ⟨h, .refl _ s⟩
          | ready =>
            dsimp only
            by_cases hprepares : cfg.prepares m request = true
            · rw [if_pos hprepares]
              have hlinks :
                  Relinks s (linkInputs (cfg.parse request) m o s 0 request.inRdd).1 := by
                refine relinks_linkInputs (cfg.parse request) m o 0 h.linked
                  (h.wf.fresh o x hx) ?_
                intro name hname u hu x' y hx' hy halive
                obtain rfl := Option.some.inj (hx.symm.trans hx')
                refine hlinkable hinputs hprepares (hid ▸ halive) name hname y ?_
                rw [entry, hu]
                exact hy
              have hinv :
                  Inv cfg (linkInputs (cfg.parse request) m o s 0 request.inRdd).1 :=
                h.touches hlinks.touches hlinks.linked
              have hat : Updates (m, rddName) s
                  (linkInputs (cfg.parse request) m o s 0 request.inRdd).1 :=
                ⟨hlinks.touches.map, fun p _ => hlinks.states p⟩
              split
              · rename_i s₁ hs₁
                rw [hs₁] at hinv hat
                obtain ⟨hinv', hat'⟩ := hinv.partitionsKnown (hat.map ▸ ho) m source state
                refine ⟨hinv', hat'.map.trans hat.map, fun p hp => ?_⟩
                exact (hat'.states p (hat.map ▸ hp)).trans (hat.states p hp)
              · rename_i s₁ hs₁
                rw [hs₁] at hinv hat
                exact ⟨hinv, hat⟩
            · rw [if_neg hprepares]
              exact ⟨h, .refl _ s⟩

/-- The listener of an object that may be removed is taken off. -/
theorem Inv.releaseListener {o : ℕ} {rddName : String}
    (ho : s.rddLocalMap (m, rddName) = some o) (hentry : s.entry (m, rddName) = some x)
    (hx : s.rddLocal o = some x) (hreleasable : Releasable cfg m x) :
    ∃ L, s.releaseListener cfg m x = some { s with listeners := L } ∧
      Vacated cfg { s with listeners := L } (m, rddName) := by
  obtain ⟨actor, -, hmade⟩ := h.wf.known o x hx
  unfold Cluster.releaseListener
  cases hdelegate : x.delegateRdd with
  | false =>
    refine ⟨s.listeners, rfl, h.vacated (listening_eq_none _ fun y hy => ?_)⟩
    obtain rfl := Option.some.inj (hentry.symm.trans hy)
    refine Option.eq_none_iff_forall_ne_some.2 fun l hl => ?_
    exact Bool.false_ne_true (hdelegate.symm.trans (hmade.listens l hl))
  | true =>
    obtain ⟨request, hmsg⟩ := hmade.delegateRdd.1 hdelegate
    rw [Releasable, hmsg] at hreleasable
    obtain ⟨hsome, hstore, hname⟩ := hreleasable
    obtain ⟨l, hl⟩ := Option.isSome_iff_exists.1 hsome
    obtain ⟨store, hstore⟩ := Option.isSome_iff_exists.1 hstore
    obtain ⟨x', hx', hk⟩ := h.wf.table _ o ho
    obtain rfl := Option.some.inj (hx.symm.trans hx')
    have hmember : x.member = m := congrArg Prod.fst hk
    have hown : x.store cfg = some store := by
      rw [RddLocal.store, hmsg]
      exact hmember ▸ hstore
    obtain ⟨L, hL, hvacated⟩ := h.eraseListener hentry hl hown
    refine ⟨L, ?_, hvacated⟩
    rw [if_pos rfl, hmsg]
    dsimp only
    rw [hname, hstore, Option.bind_some, hl, Option.bind_some]
    exact hL

end

/-- An object whose listener is on no list any more is removed. -/
theorem Vacated.destroyLocal {o : ℕ} (h : Vacated cfg s k) (ho : s.rddLocalMap k = some o)
    (x : RddLocal) :
    Inv cfg ((s.destroyLocal m o x).setEntry k none) ∧ OnlyAt k s
    ((s.destroyLocal m o x).setEntry k none) := by
  have hloop := relinks_foldl_removeDownstreamRddLocal m o x.upstreamRddLocal h.linked
  unfold Cluster.destroyLocal
  generalize x.upstreamRddLocal.foldl (removeDownstreamRddLocal m o) s = s₁ at hloop ⊢
  have hwf : s₁.Wf := h.wf.touches hloop.touches
  have ho₁ : s₁.rddLocalMap k = some o := hloop.touches.map ▸ ho
  obtain ⟨x₁, hx₁, -⟩ := hwf.table k o ho₁
  refine ⟨⟨?_, ?_, ?_, ?_⟩, ?_, ?_⟩
  · have hsilent : ∀ (y : RddLocal) l, (clearLocal y).rddStoreListener ≠ some l :=
      fun _ l => (Option.some_ne_none l).symm
    have hcleared : (s₁.modify o clearLocal).Wf :=
      hwf.modify (fun _ => ⟨rfl, rfl, rfl⟩) (fun y l hl =>
        absurd hl (hsilent y l)) fun y _ _ _ hmade =>
        ⟨hmade.transformerMsg, hmade.delegateRdd, fun l hl => absurd hl (hsilent y l)⟩
    exact hcleared.setEntry_none k
  · have hcleared : (s₁.modify o clearLocal).Linked :=
      hloop.linked.modify (fun _ => rfl) fun y _ p hp => absurd hp List.not_mem_nil
    exact ⟨hcleared.down, hcleared.upheld⟩
  · rw [listening_setEntry_none, listening_modify_slot hwf ho₁ hx₁, update_idem,
      hloop.touches.listening_eq]
    change Common.Exact _ s₁.listeners
    rw [hloop.touches.listeners]
    exact h.exact
  · intro m'
    change s₁.crashed m' = false
    rw [hloop.touches.crashed]
    exact h.crashed m'
  · intro k' hk
    exact (update_of_ne hk _ _).trans (congrFun hloop.touches.map k')
  · intro p _
    have hcleared : StatesKept s₁ (s₁.modify o clearLocal) := statesKept_modify s₁ o fun _ => rfl
    exact (hcleared p).trans (hloop.states p)

theorem Inv.handleRemoveRddLocal (h : Inv cfg s) {rddName : String}
    (horderly : s.HandledOrderly cfg (.toService m source (.removeRddLocal rddName))) :
    Inv cfg (s.handleRemoveRddLocal cfg m rddName) ∧
      OnlyAt (m, rddName) s (s.handleRemoveRddLocal cfg m rddName) := by
  unfold Cluster.handleRemoveRddLocal
  cases ho : s.rddLocalMap (m, rddName) with
  | none => exact ⟨h, .refl _ s⟩
  | some o =>
    obtain ⟨x, hentry, hx, -⟩ := h.wf.entry_eq_some ho
    obtain ⟨L, hL, hvacated⟩ := h.releaseListener ho hentry hx (horderly x hentry).2
    rw [hentry]
    dsimp only
    rw [hL]
    obtain ⟨hinv, hat⟩ := hvacated.destroyLocal (m := m) ho x
    exact ⟨hinv, hat.map, hat.states⟩

theorem Inv.onDestroy (h : Inv cfg s) {a : ActorId} (horderly : s.HandledOrderly cfg (.destroy a)) :
    Inv cfg (s.onDestroy cfg a) := by
  unfold Cluster.onDestroy
  cases hactor : s.actors a with
  | none => exact h
  | some actor =>
    dsimp only
    by_cases hidle : actor.state = .idle
    · rw [if_pos hidle]
      have hne : actor.state ≠ .terminate := by
        rw [hidle]
        decide
      cases hx : s.rddLocal actor.rddLocal with
      | none => exact h
      | some x =>
        dsimp only
        by_cases hempty : x.downstreamRddLocal = []
        · rw [if_pos hempty]
          have hleaves : ¬ s.HasLiveDownstream a := by
            refine horderly actor.rddLocal ?_ x hx hempty
            rw [idleActor, hactor, Option.bind_some, if_pos hidle]
            rfl
          have hlinked :
              (s.setActor a { actor with active := false, state := .terminate }).Linked :=
            h.linked.setActor h.wf hactor hne fun _ => hleaves
          have hwf : (s.setActor a { actor with active := false, state := .terminate }).Wf :=
            h.wf.setActor hactor hne rfl
          refine ⟨hwf.post (fun msg hmsg => ?_) (fun msg hmsg => ?_),
            ⟨hlinked.down, hlinked.upheld⟩, h.exact,
            h.crashed⟩
          · obtain ⟨m, -, rfl⟩ := List.mem_map.1 hmsg
            exact ⟨_, update_self _ _ _, rfl⟩
          · obtain ⟨m, -, rfl⟩ := List.mem_map.1 hmsg
            rfl
        · rw [if_neg hempty]
          have hlinked :
              (s.setActor a { actor with active := false, state := .active }).Linked :=
            h.linked.setActor h.wf hactor hne fun hterm => ActorState.noConfusion hterm
          exact ⟨h.wf.setActor hactor hne rfl, hlinked, h.exact, h.crashed⟩
    · rw [if_neg hidle]
      exact h

/-! ## Names that are lost -/

/-- The other names are kept, and the name is too or was that of an RDD without live downstream
RDDs. -/
structure Frees (k : ℕ × String) (s s' : Cluster) : Prop where
  map : ∀ k', k' ≠ k → s'.rddLocalMap k' = s.rddLocalMap k'
  freed : s'.rddLocalMap k = s.rddLocalMap k ∨ ∀ x ∈ s.entry k, ¬ s.HasLiveDownstream x.rddId

theorem Frees.upstream (h : Frees k s s') :
    ∀ k' o x, s.Loses s' k' o → s.rddLocal o = some x → ¬ s.HasLiveDownstream x.rddId := by
  rintro k' o x ⟨ho, hlost⟩ hx
  have hk : k' = k := by
    refine of_not_not fun hne => ?_
    exact hlost ((h.map k' hne).trans ho)
  subst hk
  refine h.freed.resolve_left (fun hkept => hlost (hkept.trans ho)) x ?_
  rw [entry, ho]
  exact hx

theorem rddLocalMap_of_replaceListener {k : ℕ × Store} (h : s.replaceListener k x = some s') :
    s'.rddLocalMap = s.rddLocalMap := by
  unfold Cluster.replaceListener at h
  split at h
  · rw [Option.some.inj h]
  · obtain ⟨L, -, rfl⟩ := Option.map_eq_some_iff.1 h
    rfl

theorem frees_handleCreateStoreDelegate
    (horderly : s.Orderly cfg (.createStoreDelegate m request)) :
    Frees (m, request.rddName) s (s.handleCreateStoreDelegate cfg m request) := by
  unfold Cluster.handleCreateStoreDelegate
  split
  · exact ⟨fun _ _ => rfl, .inl rfl⟩
  · rename_i store hstore
    refine ⟨fun k' hk => ?_, .inr fun x hx => (horderly store hstore x hx).1⟩
    split
    · rfl
    · rename_i s₁ hs₁
      have hmap : s₁.rddLocalMap = s.rddLocalMap := by
        cases hx : s.entry (m, request.rddName) with
        | none =>
          rw [hx] at hs₁
          rw [← Option.some.inj hs₁]
        | some x =>
          rw [hx] at hs₁
          exact rddLocalMap_of_replaceListener hs₁
      exact (update_of_ne hk _ _).trans (congrFun hmap k')

theorem frees_handleCreateRdd {request : CreateRddRequest}
    (horderly : s.Orderly cfg (.createRdd m request)) :
    Frees (m, request.outRdd) s (s.handleCreateRdd cfg m request) := by
  unfold Cluster.handleCreateRdd
  split
  · exact ⟨fun _ _ => rfl, .inl rfl⟩
  · rename_i hne
    exact ⟨fun k' hk => update_of_ne hk _ _, .inr fun x hx => (horderly hne x hx).1⟩

theorem frees_handleCreateDelegatePartition
    (horderly : s.HandledOrderly cfg (.toService m source (.createDelegatePartition request))) :
    Frees (m, request.rddName) s (s.handleCreateDelegatePartition cfg m source request) := by
  unfold Cluster.handleCreateDelegatePartition
  split
  · exact ⟨fun _ _ => rfl, .inl rfl⟩
  · rename_i store hstore
    split
    · rename_i o x ho hx
      by_cases hid : x.rddId = source
      · rw [if_pos hid]
        exact ⟨fun _ _ => rfl, .inl rfl⟩
      · rw [if_neg hid]
        refine ⟨fun k' hk => ?_, .inr fun y hy => ?_⟩
        · split
          · rfl
          · rename_i s₁ hs₁
            exact (update_of_ne hk _ _).trans
              (congrFun (rddLocalMap_of_replaceListener hs₁) k')
        · obtain rfl := Option.some.inj (hx.symm.trans hy)
          exact ((horderly store hstore x hx).resolve_left hid).1
    · rename_i hnone
      refine ⟨fun k' hk => update_of_ne hk _ _, .inr fun x hx => ?_⟩
      obtain ⟨o, ho, -⟩ := Option.bind_eq_some_iff.1 hx
      exact absurd hx (hnone o x ho)

theorem frees_handleCreateRddPartition {request : CreateRddRequest}
    (horderly : s.HandledOrderly cfg (.toService m source (.createRddPartition request))) :
    Frees (m, request.outRdd) s (s.handleCreateRddPartition m source request) := by
  unfold Cluster.handleCreateRddPartition
  split
  · rename_i o x ho hx
    by_cases hid : x.rddId = source
    · rw [if_pos hid]
      exact ⟨fun _ _ => rfl, .inl rfl⟩
    · rw [if_neg hid]
      refine ⟨fun k' hk => update_of_ne hk _ _, .inr fun y hy => ?_⟩
      obtain rfl := Option.some.inj (hx.symm.trans hy)
      exact ((horderly x hx).resolve_left hid).1
  · rename_i hnone
    refine ⟨fun k' hk => update_of_ne hk _ _, .inr fun x hx => ?_⟩
    obtain ⟨o, ho, -⟩ := Option.bind_eq_some_iff.1 hx
    exact absurd hx (hnone o x ho)

theorem rddLocalMap_onDestroy (cfg : Service) (s : Cluster) (a : ActorId) :
    (s.onDestroy cfg a).rddLocalMap = s.rddLocalMap := by
  unfold Cluster.onDestroy
  split
  · rfl
  · split
    · split
      · rfl
      · split <;> rfl
    · rfl

/-- A message about an RDD is handled where the name is that of the RDD. -/
theorem own_of_onlyAt (h : s.Wf) {a : ActorId} (hat : OnlyAt k s s')
    (hown : ∀ x ∈ s.entry k, x.rddId = a) :
    ∀ k' o x, s.rddLocalMap k' = some o → s.rddLocal o = some x →
      (s'.rddLocalMap k' ≠ some o ∨ (s'.rddLocal o).map RddLocal.state ≠ some x.state) →
      x.rddId = a := by
  intro k' o x ho hx hchange
  have hk : k' = k := by
    refine of_not_not fun hne => ?_
    have hoff : s.rddLocalMap k ≠ some o := fun ho' => hne (h.slot_unique ho ho')
    refine hchange.elim (fun hlost => hlost ((hat.map k' hne).trans ho)) fun hstate => hstate ?_
    rw [hat.states o hoff, hx, Option.map_some]
  subst hk
  refine hown x ?_
  rw [entry, ho]
  exact hx

/-! ## Runs -/

theorem inputs_remove (s : Cluster) (i m : ℕ) (names : List String) :
    (s.remove i).inputs m names = s.inputs m names := by
  induction names with
  | nil => rfl
  | cons name names ih =>
    unfold inputs
    rw [ih]
    rfl

theorem HandledOrderly.remove {msg : Message} (h : s.HandledOrderly cfg msg) (i : ℕ) :
    (s.remove i).HandledOrderly cfg msg := by
  unfold HandledOrderly at h ⊢
  split at h
  · exact h
  · exact h
  · rename_i m source rddName _
    intro x hx
    obtain ⟨hid, hlinkable⟩ := h x hx
    refine ⟨hid, ?_⟩
    unfold Linkable InputsAlive at hlinkable ⊢
    simp only [inputs_remove]
    exact hlinkable
  · exact h
  · exact h
  · exact h

/-- A message is handled by a member. -/
theorem Inv.serve (h : Inv cfg s) {i : ℕ} {payload : Payload}
    (hi : s.inFlight[i]? = some (.toService m source payload))
    (horderly : s.HandledOrderly cfg (.toService m source payload)) :
    Inv cfg ((s.remove i).serve cfg m source payload) ∧
      ((about (.toService m source payload)).isSome = true →
        ∃ k, OnlyAt k s
        ((s.remove i).serve cfg m source payload) ∧ ∀ x ∈ s.entry k, x.rddId = source) ∧
      ∃ k, Frees k s ((s.remove i).serve cfg m source payload) := by
  have hsent := h.wf.sent _ (List.mem_of_getElem? hi)
  have hrest : Inv cfg (s.remove i) :=
    ⟨h.wf.remove i, ⟨h.linked.down, h.linked.upheld⟩, h.exact, h.crashed⟩
  cases payload with
  | createDelegatePartition request =>
    obtain ⟨actor, hactor, hrequest⟩ := hsent
    have hpending : (m, source) ∈ s.openings :=
      List.mem_filterMap.2 ⟨_, List.mem_of_getElem? hi, rfl⟩
    have hfrees := frees_handleCreateDelegatePartition (horderly.remove i)
    refine ⟨hrest.handleCreateDelegatePartition hactor hrequest
      (h.wf.not_mem_openings_remove hi rfl) ?_
      (horderly.remove i), fun habout =>
        absurd habout Bool.false_ne_true, (m, request.rddName), hfrees.map,
      hfrees.freed⟩
    rintro o x hx rfl rfl
    exact h.wf.unopened o x hx hpending
  | createRddPartition request =>
    obtain ⟨actor, hactor, hrequest⟩ := hsent
    have hfrees := frees_handleCreateRddPartition (horderly.remove i)
    exact ⟨hrest.handleCreateRddPartition hactor hrequest (horderly.remove i),
      fun habout => absurd habout Bool.false_ne_true, (m, request.outRdd), hfrees.map,
      hfrees.freed⟩
  | partitionCreated rddName state =>
    obtain ⟨hinv, hat⟩ := hrest.handlePartitionCreated (horderly.remove i)
    exact ⟨hinv, fun _ =>
      ⟨(m, rddName), ⟨fun k _ => congrFun hat.map k, hat.states⟩, fun x hx => (horderly x hx).1⟩,
      (m, rddName), fun k _ => congrFun hat.map k, .inl (congrFun hat.map _)⟩
  | rddStateSync rddName state =>
    obtain ⟨hinv, hat⟩ := hrest.handleRddStateSync m rddName state
    exact ⟨hinv, fun _ => ⟨(m, rddName), ⟨fun k _ => congrFun hat.map k, hat.states⟩, horderly⟩,
      (m, rddName), fun k _ => congrFun hat.map k, .inl (congrFun hat.map _)⟩
  | removeRddLocal rddName =>
    obtain ⟨hinv, hat⟩ := hrest.handleRemoveRddLocal (horderly.remove i)
    refine ⟨hinv, fun _ => ⟨(m, rddName), ⟨hat.map, hat.states⟩, fun x hx => (horderly x hx).1⟩,
      (m, rddName), hat.map, .inr fun x hx => ?_⟩
    obtain ⟨actor, hactor, hterm⟩ := hsent
    refine h.linked.not_hasLiveDownstream ?_
    rintro ⟨actor', hactor', hne⟩
    rw [(horderly x hx).1] at hactor'
    exact hne (Option.some.inj (hactor'.symm.trans hactor) ▸ hterm)

/-- A step whose names are all kept and that handles no message about an RDD. -/
theorem designated_of_map {label : ClusterStep} (hmap : s'.rddLocalMap = s.rddLocalMap)
    (hlabel : ∀ i msg, label = .deliver i → s.inFlight[i]? = some msg → about msg = none) :
    Designated s label s' where
  own := fun i msg a hi hmsg ha =>
    absurd (ha.symm.trans (hlabel i msg hi hmsg)) (Option.some_ne_none a)
  upstream := fun k _ _ hlost => absurd ((congrFun hmap k).trans hlost.1) hlost.2

/-- What every orderly step keeps, and what it does to names. -/
theorem Inv.step (h : Inv cfg s) {label : ClusterStep} (horderly : s.Orderly cfg label)
    (hstep : s.step cfg label = some s') : Inv cfg s' ∧ Designated s label s' := by
  cases label with
  | createStoreDelegate m request =>
    obtain ⟨-, hs'⟩ := Option.ite_none_left_eq_some.1 hstep
    obtain rfl := Option.some.inj hs'
    exact ⟨h.handleCreateStoreDelegate horderly, fun i msg a hi => ClusterStep.noConfusion hi,
      (frees_handleCreateStoreDelegate horderly).upstream⟩
  | createRdd m request =>
    obtain ⟨-, hs'⟩ := Option.ite_none_left_eq_some.1 hstep
    obtain rfl := Option.some.inj hs'
    exact ⟨h.handleCreateRdd horderly, fun i msg a hi => ClusterStep.noConfusion hi,
      (frees_handleCreateRdd horderly).upstream⟩
  | rddDestroy m rddName =>
    obtain ⟨-, hs'⟩ := Option.ite_none_left_eq_some.1 hstep
    obtain rfl := Option.some.inj hs'
    unfold handleRddDestroy
    split
    · exact ⟨h, designated_of_map rfl fun i msg hi => ClusterStep.noConfusion hi⟩
    · refine ⟨h.touches (touches_post s fun msg hmsg => ?_) ⟨h.linked.down, h.linked.upheld⟩,
        designated_of_map rfl fun i msg hi => ClusterStep.noConfusion hi⟩
      rw [List.mem_singleton.1 hmsg]
      trivial
  | partitionCreated a =>
    obtain ⟨o, -, hstep⟩ := Option.bind_eq_some_iff.1 hstep
    obtain ⟨x, -, rfl⟩ := Option.map_eq_some_iff.1 hstep
    exact ⟨h.touches (touches_multicast cfg s a fun _ => trivial) ⟨h.linked.down,
      h.linked.upheld⟩,
      designated_of_map rfl fun i msg hi => ClusterStep.noConfusion hi⟩
  | stateChanged a state =>
    obtain ⟨o, -, hstep⟩ := Option.bind_eq_some_iff.1 hstep
    obtain ⟨x, -, rfl⟩ := Option.map_eq_some_iff.1 hstep
    have hstate : Inv cfg (s.modify o fun x => { x with state := state }) :=
      h.touches (touches_modify s o fun _ => rfl) (h.linked.modify (fun _ => rfl) fun _ _ _ hp =>
        .inl hp)
    exact ⟨hstate.touches (touches_multicast cfg _ a fun _ => trivial) ⟨hstate.linked.down,
      hstate.linked.upheld⟩,
      designated_of_map rfl fun i msg hi => ClusterStep.noConfusion hi⟩
  | deliver i =>
    obtain ⟨msg, hi, rfl⟩ := Option.map_eq_some_iff.1 hstep
    have hmsg : ∀ j msg', ClusterStep.deliver i = .deliver j → s.inFlight[j]? = some msg' →
        msg' = msg :=
      fun j msg' hj hmsg' => Option.some.inj (hmsg'.symm.trans (ClusterStep.deliver.inj hj ▸ hi))
    have horderly := horderly msg hi
    cases msg with
    | destroy a =>
      have hrest : Inv cfg (s.remove i) :=
        ⟨h.wf.remove i, ⟨h.linked.down, h.linked.upheld⟩, h.exact, h.crashed⟩
      refine ⟨hrest.onDestroy (horderly.remove i),
        designated_of_map (rddLocalMap_onDestroy cfg (s.remove i) a) ?_⟩
      intro j msg' hj hmsg'
      rw [hmsg j msg' hj hmsg']
      rfl
    | toService m source payload =>
      have hserve : (s.remove i).handle cfg (.toService m source payload) =
          (s.remove i).serve cfg m source payload := if_neg (Bool.eq_false_iff.1 (h.crashed m))
      rw [hserve]
      obtain ⟨hinv, hown, k, hfrees⟩ := h.serve hi horderly
      refine ⟨hinv, fun j msg' a hj hmsg' ha => ?_, hfrees.upstream⟩
      rw [hmsg j msg' hj hmsg'] at ha
      obtain ⟨k', hat, hsource⟩ := hown (Option.isSome_iff_exists.2 ⟨a, ha⟩)
      have hsa : source = a := by
        cases payload
        all_goals first
          | exact Option.some.inj ha
          | exact absurd ha (Option.some_ne_none a).symm
      exact own_of_onlyAt h.wf hat fun x hx => (hsource x hx).trans hsa

theorem Inv.initial (cfg : Service) : Inv cfg {} where
  wf :=
    { table := fun _ o ho => absurd ho (Option.some_ne_none o).symm
      fresh := fun _ x hx => absurd hx (Option.some_ne_none x).symm
      known := fun _ x hx => absurd hx (Option.some_ne_none x).symm
      listener := fun _ x _ hx => absurd hx (Option.some_ne_none x).symm
      used := fun _ actor ha => absurd ha (Option.some_ne_none actor).symm
      sent := fun _ hmsg => absurd hmsg List.not_mem_nil
      once := List.nodup_nil
      unopened := fun _ x hx => absurd hx (Option.some_ne_none x).symm }
  linked :=
    { down := fun _ x hx => absurd hx (Option.some_ne_none x).symm
      upheld := fun _ x _ _ hx => absurd hx (Option.some_ne_none x).symm }
  exact := .empty
  crashed := fun _ => rfl

theorem Inv.reaches (h : Common.Reaches (Cluster.step cfg) (Orderly cfg) {} s) : Inv cfg s :=
  h.invariant (Inv.initial cfg) fun _ _ _ hinv horderly hstep => (hinv.step horderly hstep).1

/-- In runs of orderly steps messages about an RDD concern its objects only, RDDs with live
downstream RDDs keep their names, and the lists of listeners are those of the delegates that have a
name. -/
theorem registered_of_orderly (h : Common.Reaches (step cfg) (Orderly cfg) {} s) :
    Registered cfg s ∧ ∀ label s', s.Orderly cfg label → s.step cfg label = some s' →
    Designated s label s' := by
  have hinv := Inv.reaches h
  exact ⟨⟨hinv.crashed, hinv.exact.nodup, hinv.exact.mem_iff⟩,
    fun label s' horderly hstep => (hinv.step horderly hstep).2⟩

/-- Two members with one store. -/
def twoMembers : Service where
  members := [1, 2]
  nodup := by decide
  dataStore := fun _ => [("shop", "orders")]
  prepares := fun _ _ => true
  parse := fun _ _ => true

/-- The delegate of the store. -/
def orders : CreateDelegateRddRequest := { storeName := "orders", rddName := "orders" }

/-- A delegate is made on both members, then an RDD of it; the delegate is destroyed, and then the
other RDD. -/
def destroyedInOrder : List ClusterStep :=
  [.createStoreDelegate 1 orders, .deliver 0, .deliver 0, .stateChanged ⟨1, 0⟩ .ready, .deliver 0,
    .deliver 0,
    .createRdd 1 { transformerOpName := "FILTER", inRdd := ["orders"], outRdd := "open" },
    .deliver 0, .deliver 0,
    .partitionCreated ⟨1, 4⟩, .deliver 0, .deliver 0, .rddDestroy 1 "orders", .deliver 0,
    .rddDestroy 2 "open",
    .deliver 0, .deliver 1, .deliver 0]

def afterDestroyed : Cluster :=
  (Common.replay (step twoMembers) (Orderly twoMembers) {} destroyedInOrder).getD {}

theorem replay_destroyedInOrder :
    Common.replay (step twoMembers) (Orderly twoMembers)
    {} destroyedInOrder = some afterDestroyed := by
  have hsome : (Common.replay (step twoMembers) (Orderly twoMembers) {} destroyedInOrder).isSome =
      true := by decide
  obtain ⟨s, hs⟩ := Option.isSome_iff_exists.1 hsome
  rw [afterDestroyed, hs]
  rfl

theorem registered_afterDestroyed :
    Registered twoMembers afterDestroyed ∧ ∀ label s', afterDestroyed.Orderly twoMembers label →
      afterDestroyed.step twoMembers label = some s' → Designated afterDestroyed label s' :=
  registered_of_orderly (Common.reaches_of_replay replay_destroyedInOrder)

/-- The delegate is destroyed on one member and made again on the other, where it still has its
name. -/
def madeAgain : List ClusterStep :=
  [.createStoreDelegate 1 orders, .deliver 0, .deliver 0, .rddDestroy 1 "orders", .deliver 0,
    .createStoreDelegate 2 orders, .deliver 3]

def afterMadeAgain : Cluster :=
  (Common.replay (step twoMembers) Common.anyStep {} madeAgain).getD {}

theorem replay_madeAgain :
    Common.replay (step twoMembers) Common.anyStep {} madeAgain = some afterMadeAgain := rfl

/-- The removal of the first delegate removes the second. -/
theorem not_designated :
    ¬ ∀ (cfg : Service) (s : Cluster), Common.Reaches (step cfg) Common.anyStep {} s →
    Registered cfg s ∧ ∀ label s', s.step cfg label = some s' → Designated s label s' := by
  intro hall
  have hown :=
    ((hall twoMembers afterMadeAgain (Common.reaches_of_replay replay_madeAgain)).2
    (.deliver 1) _ rfl).own
    1 (.toService 2 ⟨1, 0⟩ (.removeRddLocal "orders")) ⟨1, 0⟩ rfl rfl rfl (2, "orders") 4 _ rfl rfl
  exact absurd (hown (.inl (by decide))) (by decide)

end Cluster

end Idgs.Rdd.NamedRdds
