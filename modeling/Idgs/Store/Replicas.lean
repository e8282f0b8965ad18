import Mathlib.Algebra.Order.Group.Multiset
import Idgs.Cluster.Table
import Idgs.Common.Run
import Idgs.Common.TotalOrder
import Idgs.Store.StoreMap

/-!
# Writes to a replicated store

Every store member holds the whole store. A client's write is routed to the primary member of its
key, where a `DataAggregatorActor` of its own posts it to the members one after the other and
collects their responses. Messages of one connection arrive in the order in which they were posted;
the workers of the receiving member then take them up in any order.
-/

namespace Idgs.Store

open Function List

open Cluster (Member)

namespace Replicas

variable {κ ν : Type*} [DecidableEq κ]

/-- A write on its way from an aggregator to a member. -/
structure Message (κ ν : Type*) where
  actorId : ℕ
  memberId : ℤ
  request : Request κ ν
deriving DecidableEq

/-- `DataAggregatorActor`; `left` are the members to which it still has to post its request. -/
structure DataAggregatorActor (κ ν : Type*) where
  actorId : ℕ
  request : Request κ ν
  left : List ℤ
  requestCount : ℕ := 0
  responseCount : ℕ := 0
  resultCode : ResultCode := .success
  response : Option ResultCode := none

/-- The members to which `AggregatorActor::multicast` posts. -/
def multicast (members : List Member) : List ℤ :=
  (members.filter fun m => m.localStore && (m.state == .active || m.state == .prepared)).map
    Member.id

namespace DataAggregatorActor

/-- The message for a member. -/
def message (a : DataAggregatorActor κ ν) (memberId : ℤ) : Message κ ν :=
  ⟨a.actorId, memberId, a.request⟩

/-- `DataAggregatorActor::handleInsertResponse`, and likewise for update and delete. -/
def handleResponse (code : ResultCode) (a : DataAggregatorActor κ ν) : DataAggregatorActor κ ν :=
  let a := { a with
    resultCode := if code = .success then a.resultCode else code
    responseCount := a.responseCount + 1 }
  if a.requestCount = a.responseCount then { a with response := some a.resultCode } else a

end DataAggregatorActor

/-- The stores of the members, the aggregators and the messages in flight: posted on a connection,
received and handed to the workers, responses. `applied` are the messages whose write has been
applied, in that order. -/
structure State (κ ν : Type*) where
  stores : ℤ → StoreMap κ ν
  aggregators : List (DataAggregatorActor κ ν) := []
  links : List ((ℤ × ℤ) × Message κ ν) := []
  received : List (Message κ ν) := []
  responses : List (ℕ × ResultCode) := []
  applied : List (Message κ ν) := []

/-- Steps: the primary member handles a client's write, the `j`th aggregator posts to its next
member, the oldest message of a connection is received, a worker applies the `i`th message received,
an aggregator handles the `i`th response. -/
inductive Step (κ ν : Type*)
  | request (r : Request κ ν)
  | post (j : ℕ)
  | receive (link : ℤ × ℤ)
  | apply (i : ℕ)
  | respond (i : ℕ)

/-- `StoreServiceActor::processReplicatedStore`: an aggregator of its own for the request. -/
def processReplicatedStore (members : List Member) (r : Request κ ν) (s : State κ ν) : State κ ν :=
  { s with
    aggregators := s.aggregators ++
      [{ actorId := s.aggregators.length, request := r, left := multicast members }] }

/-- `handleLocalInsert`, `handleLocalUpdate` or `handleLocalDelete` on the member. -/
def handleLocal (x : Message κ ν) (s : State κ ν) : State κ ν :=
  { s with
    stores := Function.update s.stores x.memberId (x.request.apply (s.stores x.memberId))
    responses := s.responses ++ [(x.actorId, x.request.resultCode (s.stores x.memberId))]
    applied := s.applied ++ [x] }

/-- One step. -/
def step (primary : κ → ℤ) (members : List Member) (s : State κ ν) : Step κ ν → Option (State κ ν)
  | .request r => some (processReplicatedStore members r s)
  | .post j =>
    match s.aggregators[j]? with
    | none => none
    | some a =>
      match a.left with
      | [] => none
      | m :: left =>
        some { s with
          aggregators := s.aggregators.set j
            { a with left := left, requestCount := a.requestCount + 1 }
          links := s.links ++ [((primary a.request.key, m), a.message m)] }
  | .receive link =>
    match Common.takeFirst link s.links with
    | none => none
    | some (x, links) => some { s with links := links, received := s.received ++ [x] }
  | .apply i =>
    match s.received[i]? with
    | none => none
    | some x => some (handleLocal x { s with received := s.received.eraseIdx i })
  | .respond i =>
    match s.responses[i]? with
    | none => none
    | some (actorId, code) =>
      -- the actor handles one message at a time, so its multicast is over
      if ∀ a ∈ s.aggregators, a.actorId = actorId → a.left = [] then
        some { s with
          responses := s.responses.eraseIdx i
          aggregators := s.aggregators.map fun a =>
            if a.actorId = actorId then a.handleResponse code else a }
      else none

/-- All writes have been delivered and applied. -/
structure Delivered (s : State κ ν) : Prop where
  posted : ∀ a ∈ s.aggregators, a.left = []
  links : s.links = []
  received : s.received = []

/-- No message is in flight. -/
structure Quiet (s : State κ ν) : Prop extends Delivered s where
  responses : s.responses = []

omit [DecidableEq κ] in
theorem delivered_iff {s : State κ ν} : Delivered s ↔ (∀ a ∈ s.aggregators, a.left = []) ∧
    s.links.isEmpty = true ∧ s.received.isEmpty = true := by
  simp only [List.isEmpty_iff]
  exact ⟨fun h => ⟨h.posted, h.links, h.received⟩, fun h => ⟨h.1, h.2.1, h.2.2⟩⟩

instance (s : State κ ν) : Decidable (Delivered s) := decidable_of_iff _ delivered_iff.symm

omit [DecidableEq κ] in
theorem quiet_iff {s : State κ ν} : Quiet s ↔ Delivered s ∧ s.responses.isEmpty = true := by
  simp only [List.isEmpty_iff]
  exact ⟨fun h => ⟨h.toDelivered, h.responses⟩, fun h => ⟨h.1, h.2⟩⟩

instance (s : State κ ν) : Decidable (Quiet s) := decidable_of_iff _ quiet_iff.symm

/-- When all requests have been answered with success and no message is in flight, the store members
hold the same content. -/
def Agree (members : List Member) (s : State κ ν) : Prop :=
  Quiet s → (∀ a ∈ s.aggregators, a.response = some .success) →
    ∀ m ∈ multicast members, ∀ m' ∈ multicast members, (s.stores m).contents =
    (s.stores m').contents

/-- The writes to a key that the member has applied, with their aggregators. -/
def works (applied : List (Message κ ν)) (m : ℤ) (k : κ) : List (ℕ × Request κ ν) :=
  (applied.filter fun x => x.memberId = m ∧ x.request.key = k).map fun x => (x.actorId, x.request)

/-- The members apply the writes to a key in one order: a member applies only what continues, or is
continued by, what each of the others has applied. -/
def InOrder (ids : List ℤ) (s : State κ ν) : Step κ ν → Prop
  | .apply i => ∀ x ∈ s.received[i]?, x.memberId ∈ ids → ∀ m ∈ ids,
      Common.Comparable (works s.applied x.memberId x.request.key ++ [(x.actorId, x.request)])
        (works s.applied m x.request.key)
  | _ => True

instance [DecidableEq ν] (ids : List ℤ) (s : State κ ν) (a : Step κ ν) :
    Decidable (InOrder ids s a) := by
  unfold InOrder
  split <;> infer_instance

/-! ## Every message is delivered once -/

/-- The messages that are still to be posted. -/
def toPost (s : State κ ν) : List (Message κ ν) :=
  s.aggregators.flatMap fun a => a.left.map a.message

/-- The messages of all aggregators. -/
def all (ids : List ℤ) (s : State κ ν) : List (Message κ ν) :=
  s.aggregators.flatMap fun a => ids.map a.message

/-- Every message is at one place. -/
def Placed (ids : List ℤ) (s : State κ ν) : Prop :=
  (toPost s : Multiset (Message κ ν)) + (s.links.map Prod.snd : List (Message κ ν)) + s.received +
    s.applied = all ids s

omit [DecidableEq κ] in
/-- The messages of the aggregators when one of them changes. -/
theorem flatMap_set {aggregators : List (DataAggregatorActor κ ν)} {j : ℕ}
    {a b : DataAggregatorActor κ ν} (hj : aggregators[j]? = some a)
    (f : DataAggregatorActor κ ν → List (Message κ ν)) :
    ((aggregators.set j b).flatMap f : Multiset (Message κ ν)) + (f a : Multiset (Message κ ν)) =
      (aggregators.flatMap f : List (Message κ ν)) + (f b : Multiset (Message κ ν)) := by
  obtain ⟨hlt, rfl⟩ := List.getElem?_eq_some_iff.mp hj
  have hsplit : aggregators = aggregators.take j ++ aggregators[j] :: aggregators.drop (j + 1) := by
    rw [getElem_cons_drop hlt, take_append_drop]
  rw [set_eq_take_append_cons_drop, if_pos hlt]
  conv_rhs => rw [hsplit]
  simp only [flatMap_append, flatMap_cons, ← Multiset.coe_add]
  abel

omit [DecidableEq κ] in
theorem DataAggregatorActor.handleResponse_left (a : DataAggregatorActor κ ν) (code : ResultCode) :
    (a.handleResponse code).left = a.left := by
  unfold handleResponse
  dsimp only
  split <;> rfl

omit [DecidableEq κ] in
theorem DataAggregatorActor.handleResponse_message (a : DataAggregatorActor κ ν)
    (code : ResultCode) :
    (a.handleResponse code).message = a.message := by
  unfold handleResponse
  dsimp only
  split <;> rfl

omit [DecidableEq κ] in
/-- A response changes no messages. -/
theorem flatMap_handleResponse (aggregators : List (DataAggregatorActor κ ν)) (actorId : ℕ)
    (code : ResultCode) {f : DataAggregatorActor κ ν → List (Message κ ν)}
    (hf : ∀ a, f (a.handleResponse code) = f a) :
    (aggregators.map fun a => if a.actorId = actorId then a.handleResponse code else a).flatMap f =
      aggregators.flatMap f := by
  rw [flatMap_map]
  refine flatMap_congr fun a _ => ?_
  split
  · exact hf a
  · rfl

omit [DecidableEq κ] in
theorem placed_init (ids : List ℤ) (stores : ℤ → StoreMap κ ν) :
    Placed ids { stores := stores } := rfl

/-- Every step keeps the messages. -/
theorem Placed.step {primary : κ → ℤ} {members : List Member} {s s' : State κ ν} {a : Step κ ν}
    (h : Placed (multicast members) s) (hstep : step primary members s a = some s') :
    Placed (multicast members) s' := by
  unfold Placed at *
  cases a with
  | request r =>
    cases hstep
    simp only [toPost, all, processReplicatedStore, flatMap_append, flatMap_cons,
      flatMap_nil, append_nil, ← Multiset.coe_add] at h ⊢
    rw [← h]
    abel
  | post j =>
    simp only [Replicas.step] at hstep
    split at hstep
    · cases hstep
    · rename_i a hj
      split at hstep
      · cases hstep
      · rename_i m left hleft
        cases hstep
        let b : DataAggregatorActor κ ν :=
          { a with left := left, requestCount := a.requestCount + 1 }
        have hpost := flatMap_set (b := b) hj fun a => a.left.map a.message
        have hall := flatMap_set (b := b) hj fun a => (multicast members).map a.message
        rw [hleft, map_cons, ← Multiset.cons_coe, ← Multiset.singleton_add, ← add_assoc] at hpost
        have hpost' := add_right_cancel hpost
        have hall' := add_right_cancel hall
        simp only [toPost, all, map_append, map_singleton, ← Multiset.coe_add,
          Multiset.coe_singleton] at h ⊢
        rw [hall', ← h, ← hpost']
        abel
  | receive link =>
    simp only [Replicas.step] at hstep
    split at hstep
    · cases hstep
    · rename_i x links htake
      cases hstep
      have hlinks := Multiset.coe_eq_coe.mpr ((Common.takeFirst_perm htake).map Prod.snd)
      rw [map_cons, ← Multiset.cons_coe, ← Multiset.singleton_add] at hlinks
      simp only [toPost, all, ← Multiset.coe_add, Multiset.coe_singleton] at h ⊢
      rw [← h, hlinks]
      abel
  | apply i =>
    simp only [Replicas.step] at hstep
    split at hstep
    · cases hstep
    · rename_i x hx
      cases hstep
      obtain ⟨hi, rfl⟩ := List.getElem?_eq_some_iff.mp hx
      have hreceived := Multiset.coe_eq_coe.mpr (getElem_cons_eraseIdx_perm hi)
      rw [← Multiset.cons_coe, ← Multiset.singleton_add] at hreceived
      simp only [toPost, all, handleLocal, ← Multiset.coe_add, Multiset.coe_singleton] at h ⊢
      rw [← h, ← hreceived]
      abel
  | respond i =>
    simp only [Replicas.step] at hstep
    split at hstep
    · cases hstep
    · rename_i actorId code hcode
      split at hstep
      · cases hstep
        have hpost := flatMap_handleResponse s.aggregators actorId code
          (f := fun a => a.left.map a.message) fun a => by
            rw [a.handleResponse_left, a.handleResponse_message]
        have hall := flatMap_handleResponse s.aggregators actorId code
          (f := fun a => (multicast members).map a.message) fun a => by
            rw [a.handleResponse_message]
        simp only [toPost, all] at h ⊢
        rw [hpost, hall]
        exact h
      · cases hstep

omit [DecidableEq κ] in
/-- In the end every message has been applied. -/
theorem Placed.applied_perm {ids : List ℤ} {s : State κ ν} (h : Placed ids s)
    (hdone : Delivered s) :
    s.applied.Perm (all ids s) := by
  have hpost : toPost s = [] := by
    refine flatMap_eq_nil_iff.mpr fun a ha => ?_
    rw [hdone.posted a ha, map_nil]
  rw [Placed, hpost, hdone.links, hdone.received] at h
  refine Multiset.coe_eq_coe.mp ?_
  simpa using h

theorem nodup_multicast {members : List Member} (h : (members.map Member.id).Nodup) :
    (multicast members).Nodup := h.sublist (filter_sublist.map _)

/-- Every member has one message of each aggregator. -/
theorem countP_all {ids : List ℤ} (hids : ids.Nodup) {m m' : ℤ} (hm : m ∈ ids) (hm' : m' ∈ ids)
    (k : κ) (s : State κ ν) :
    (all ids s).countP (fun x => x.memberId = m ∧ x.request.key = k) =
      (all ids s).countP (fun x => x.memberId = m' ∧ x.request.key = k) := by
  have hone : ∀ (a : DataAggregatorActor κ ν) (l : ℤ), l ∈ ids →
      (ids.map a.message).countP (fun x => x.memberId = l ∧ x.request.key = k) =
        if a.request.key = k then 1 else 0 := by
    intro a l hl
    rw [countP_map]
    by_cases hk : a.request.key = k
    · rw [if_pos hk, ← count_eq_one_of_mem hids hl, List.count]
      refine countP_congr fun x _ => ?_
      simp only [comp_apply, DataAggregatorActor.message, hk, and_true, decide_eq_true_eq,
        beq_iff_eq]
    · rw [if_neg hk]
      refine countP_eq_zero.mpr fun x _ => ?_
      simp [DataAggregatorActor.message, hk]
  rw [all, countP_flatMap, countP_flatMap]
  refine congrArg List.sum (map_congr_left fun a _ => ?_)
  simp only [comp_apply]
  rw [hone a m hm, hone a m' hm']

/-! ## What the members apply -/

/-- A step applies at most one write. -/
theorem step_cases {primary : κ → ℤ} {members : List Member} {s s' : State κ ν} {a : Step κ ν}
    (hstep : step primary members s a = some s') :
    (s'.stores = s.stores ∧ s'.applied = s.applied) ∨
      ∃ i x, a = .apply i ∧ s.received[i]? = some x ∧ s'.applied = s.applied ++ [x] ∧
        s'.stores = update s.stores x.memberId
        (x.request.apply (s.stores x.memberId)) := by
  cases a with
  | request r =>
    cases hstep
    exact .inl ⟨rfl, rfl⟩
  | post j =>
    simp only [step] at hstep
    split at hstep
    · cases hstep
    · split at hstep
      · cases hstep
      · cases hstep
        exact .inl ⟨rfl, rfl⟩
  | receive link =>
    simp only [step] at hstep
    split at hstep
    · cases hstep
    · cases hstep
      exact .inl ⟨rfl, rfl⟩
  | apply i =>
    simp only [step] at hstep
    split at hstep
    · cases hstep
    · rename_i x hx
      cases hstep
      exact .inr ⟨i, x, rfl, hx, rfl, rfl⟩
  | respond i =>
    simp only [step] at hstep
    split at hstep
    · cases hstep
    · split at hstep
      · cases hstep
        exact .inl ⟨rfl, rfl⟩
      · cases hstep

@[simp] theorem works_concat (applied : List (Message κ ν)) (x : Message κ ν) (m : ℤ) (k : κ) :
    works (applied ++ [x]) m k =
      if x.memberId = m ∧ x.request.key = k then works applied m k ++ [(x.actorId, x.request)]
      else works applied m k := by
  unfold works
  rw [filter_append, map_append]
  split
  · rename_i h
    rw [filter_cons, if_pos (decide_eq_true h)]
    rfl
  · rename_i h
    rw [filter_cons, if_neg (by simpa using h)]
    simp

/-- The members have applied the writes to each key in one order, as far as they have come. -/
def Ordered (ids : List ℤ) (s : State κ ν) : Prop :=
  ∀ m ∈ ids, ∀ m' ∈ ids, ∀ k, Common.Comparable (works s.applied m k) (works s.applied m' k)

/-- The writes that the member has applied. -/
def writes (applied : List (Message κ ν)) (m : ℤ) : List (κ × Option ν) :=
  (applied.filter fun x => x.memberId = m).map fun x => x.request.write

/-- The member's store is what its writes have made of the content at the start. -/
def Written (initial : StoreMap κ ν) (m : ℤ) (s : State κ ν) : Prop :=
  (s.stores m).contents = Common.writeAll initial.contents (writes s.applied m)

theorem Ordered.step {primary : κ → ℤ} {members : List Member} {ids : List ℤ} {s s' : State κ ν}
    {a : Step κ ν} (h : Ordered ids s) (hguard : InOrder ids s a)
    (hstep : step primary members s a = some s') : Ordered ids s' := by
  rcases step_cases hstep with ⟨-, happlied⟩ | ⟨i, x, rfl, hx, happlied, -⟩
  · unfold Ordered
    rw [happlied]
    exact h
  · intro m hm m' hm' k
    rw [happlied, works_concat, works_concat]
    have hnew := hguard x hx
    split
    · rename_i hxm
      obtain ⟨rfl, rfl⟩ := hxm
      split
      · rename_i hxm'
        rw [← hxm'.1]
        exact .refl _
      · exact hnew hm m' hm'
    · split
      · rename_i hxm'
        obtain ⟨rfl, rfl⟩ := hxm'
        exact (hnew hm' m hm).symm
      · exact h m hm m' hm' k

theorem Written.step {primary : κ → ℤ} {members : List Member} {initial : StoreMap κ ν} {m : ℤ}
    {s s' : State κ ν} {a : Step κ ν} (h : Written initial m s)
    (hstep : step primary members s a = some s') : Written initial m s' := by
  unfold Written at *
  rcases step_cases hstep with ⟨hstores, happlied⟩ | ⟨i, x, rfl, hx, happlied, hstores⟩
  · rw [happlied, hstores]
    exact h
  · rw [happlied, hstores, writes, filter_append, map_append, Common.writeAll_append, ← writes, ← h]
    by_cases hm : x.memberId = m
    · subst hm
      rw [update_self, Request.contents_apply, filter_cons, if_pos (by simp)]
      rfl
    · rw [update_of_ne (Ne.symm hm), filter_cons, if_neg (by simpa using hm)]
      rfl

/-- The writes to a key, of those that a member has applied. -/
theorem filter_writes (applied : List (Message κ ν)) (m : ℤ) (k : κ) :
    ((writes applied m).filter fun w => w.1 = k) = (works applied m k).map fun x => x.2.write := by
  unfold writes works
  rw [filter_map, filter_filter, map_map]
  congr 1
  refine filter_congr fun x _ => ?_
  simp [Request.write, Bool.and_comm]

/-! ## Agreement -/

/-- In the end two members have applied the same writes to a key, if in one order. -/
theorem works_eq {members : List Member} (hids : (members.map Member.id).Nodup) {s : State κ ν}
    (hplaced : Placed (multicast members) s) (hdone : Delivered s) {m m' : ℤ}
    (hm : m ∈ multicast members) (hm' : m' ∈ multicast members) {k : κ}
    (horder : Common.Comparable (works s.applied m k) (works s.applied m' k)) :
    works s.applied m k = works s.applied m' k := by
  refine horder.eq_of_length ?_
  have hperm := hplaced.applied_perm hdone
  rw [works, works, length_map, length_map, ← countP_eq_length_filter,
    ← countP_eq_length_filter, hperm.countP_eq, hperm.countP_eq]
  exact countP_all (nodup_multicast hids) hm hm' k s

/-- **Replicas agree**: in every run in which the members apply the writes to each key in one order,
they have the same content whenever nothing is in flight. -/
theorem agree_of_inOrder {primary : κ → ℤ} {members : List Member}
    (hids : (members.map Member.id).Nodup) {initial : StoreMap κ ν} {s : State κ ν}
    (hrun : Common.Reaches (step primary members) (InOrder (multicast members))
      { stores := fun _ => initial } s) : Agree members s := by
  have hplaced : Placed (multicast members) s :=
    hrun.invariant (P := Placed (multicast members)) (placed_init _ _)
      fun _ _ _ h _ hstep => h.step hstep
  have hordered : Ordered (multicast members) s :=
    hrun.invariant (P := Ordered (multicast members)) (fun _ _ _ _ _ => .refl _)
      fun _ _ _ h hguard hstep => h.step hguard hstep
  have hwritten : ∀ m, Written initial m s := fun m =>
    hrun.invariant (P := Written initial m) rfl fun _ _ _ h _ hstep => h.step hstep
  intro hquiet _ m hm m' hm'
  rw [hwritten m, hwritten m']
  refine Common.writeAll_eq_of_filter_eq _ fun k => ?_
  rw [filter_writes, filter_writes,
    works_eq hids hplaced hquiet.toDelivered hm hm' (hordered m hm m' hm' k)]

/-! ## Two writes to a key -/

/-- Two store members. -/
def twoMembers : List Member :=
  [{ id := 0, state := .active }, { id := 1, state := .prepared }]

/-- Two clients insert the same key; their aggregators post one after the other. -/
def oneByOne : List (Step ℕ ℕ) :=
  [.request (.insert 1 10), .request (.insert 1 20), .post 0, .post 0, .post 1, .post 1,
    .receive (0, 0), .receive (0, 0), .receive (0, 1), .receive (0, 1), .apply 0, .apply 0,
    .apply 0,
    .apply 0, .respond 0, .respond 0, .respond 0, .respond 0]

/-- The second aggregator overtakes the first between its two posts. -/
def overtaking : List (Step ℕ ℕ) :=
  [.request (.insert 1 10), .request (.insert 1 20), .post 0, .post 1, .post 1, .post 0,
    .receive (0, 0), .receive (0, 0), .receive (0, 1), .receive (0, 1), .apply 0, .apply 0,
    .apply 0,
    .apply 0, .respond 0, .respond 0, .respond 0, .respond 0]

theorem oneByOne_agree : ∃ s,
    Common.replay (step (fun _ => 0) twoMembers) (InOrder (multicast twoMembers))
      { stores := fun _ => ∅ } oneByOne = some s ∧
      Quiet s ∧ (∀ a ∈ s.aggregators, a.response = some .success) ∧
      (s.stores 1).contents 1 = some 20 ∧ (s.stores 0).contents = (s.stores 1).contents := by
  have hbool : (Common.replay (step (fun _ => 0) twoMembers) (InOrder (multicast twoMembers))
      { stores := fun _ => ∅ } oneByOne).any (fun s => decide (Quiet s) &&
        decide (∀ a ∈ s.aggregators, a.response = some .success) &&
        (s.stores 1).contents 1 == some 20) = true := by
    decide +kernel
  obtain ⟨s, hs, hdone⟩ := (Option.any_eq_true _ _).mp hbool
  simp only [Bool.and_eq_true, decide_eq_true_eq, beq_iff_eq] at hdone
  obtain ⟨⟨hquiet, hanswered⟩, hvalue⟩ := hdone
  have hids : (twoMembers.map Member.id).Nodup := by decide
  exact ⟨s, hs, hquiet, hanswered, hvalue,
    agree_of_inOrder hids (Common.reaches_of_replay hs) hquiet
    hanswered 0 (by decide) 1 (by decide)⟩

/-- Each member keeps the value that it was sent last. -/
theorem not_sameContent_of_run : ¬ ∀ s, Common.Reaches (step (fun _ => 0) twoMembers) Common.anyStep
    { stores := fun _ => (∅ : StoreMap ℕ ℕ) } s → Agree twoMembers s := by
  intro hall
  have hbool : (Common.replay (step (fun _ => 0) twoMembers) Common.anyStep
      { stores := fun _ => (∅ : StoreMap ℕ ℕ) } overtaking).any (fun s => decide (Quiet s) &&
        decide (∀ a ∈ s.aggregators, a.response = some .success) &&
        (s.stores 0).contents 1 == some 20 && (s.stores 1).contents 1 == some 10) = true := by
    decide +kernel
  obtain ⟨s, hs, hdone⟩ := (Option.any_eq_true _ _).mp hbool
  simp only [Bool.and_eq_true, decide_eq_true_eq, beq_iff_eq] at hdone
  obtain ⟨⟨⟨hquiet, hanswered⟩, hfirst⟩, hsecond⟩ := hdone
  have heq := hall s (Common.reaches_of_replay hs) hquiet hanswered 0 (by decide) 1 (by decide)
  rw [heq, hsecond] at hfirst
  cases hfirst

/-- In every run, in whatever order messages arrive: once all have been delivered, each store member
has applied the write of each request once, and holds what its writes make of the content at the
start. -/
theorem written_once_of_run {primary : κ → ℤ} {members : List Member}
    (hids : (members.map Member.id).Nodup) {initial : StoreMap κ ν} {s : State κ ν}
    (hrun : Common.Reaches (step primary members) Common.anyStep { stores := fun _ => initial } s)
    (hdone : Delivered s) {m : ℤ} (hm : m ∈ multicast members) :
    (writes s.applied m).Perm (s.aggregators.map fun a => a.request.write) ∧
      (s.stores m).contents = Common.writeAll initial.contents (writes s.applied m) := by
  have hplaced : Placed (multicast members) s :=
    hrun.invariant (placed_init _ _) fun _ _ _ h _ hstep => h.step hstep
  have hwritten : Written initial m s :=
    hrun.invariant rfl fun _ _ _ h _ hstep => h.step hstep
  refine ⟨?_, hwritten⟩
  have hone : ∀ a : DataAggregatorActor κ ν,
      ((multicast members).map a.message).filter (fun x => x.memberId = m) = [a.message m] := by
    intro a
    rw [filter_map]
    show ((multicast members).filter (· = m)).map a.message = _
    rw [filter_eq, count_eq_one_of_mem (nodup_multicast hids) hm]
    rfl
  refine (((hplaced.applied_perm hdone).filter _).map _).trans (.of_eq ?_)
  simp only [all, filter_flatMap, hone, ← map_eq_flatMap, map_map]
  rfl

theorem written_once_of_run_overtaking : ∃ s,
    Common.Reaches (step (fun _ => 0) twoMembers) Common.anyStep
      { stores := fun _ => (∅ : StoreMap ℕ ℕ) } s ∧
      (writes s.applied 1).Perm (s.aggregators.map fun a => a.request.write) := by
  have hbool : (Common.replay (step (fun _ => 0) twoMembers) Common.anyStep
      { stores := fun _ => (∅ : StoreMap ℕ ℕ) } overtaking).any (fun s =>
        decide (Delivered s)) = true := by
    decide +kernel
  obtain ⟨s, hs, hdone⟩ := (Option.any_eq_true _ _).mp hbool
  have hrun := Common.reaches_of_replay hs
  exact ⟨s, hrun, (written_once_of_run (by decide) hrun (of_decide_eq_true hdone) (by decide)).1⟩

end Replicas

end Idgs.Store
