import Mathlib.Data.Bool.Basic
import Idgs.Common.Run
import Idgs.Common.Takers

/-!
# From a sender to the mailbox of a receiver

A message to an actor of the same member is put into the message queue of the member when it is
posted, and right into the mailbox when it is sent. A message to another member goes through the
outgoing queue, a connection that carries batches, and an IO thread of the other member that puts
the messages of a batch into the message queue. Any worker thread pops a message from the message
queue, parses it and puts it into the mailbox.
-/

namespace Idgs.Actor

open Function List

/-- The functions that actors send messages with. -/
inductive Primitive
  | sendMessage | postMessage
deriving DecidableEq

/-- A message, with the actors that it is from and to. -/
structure ActorMessage (α : Type*) where
  sourceActor : α
  destActor : α
  primitive : Primitive
  payload : ℕ
deriving DecidableEq

/-- The messages of one sender to one receiver through one primitive. -/
structure Channel (α : Type*) where
  sourceActor : α
  destActor : α
  primitive : Primitive
deriving DecidableEq

/-- The channel of a message. -/
def ActorMessage.channel {α : Type*} (msg : ActorMessage α) : Channel α :=
  ⟨msg.sourceActor, msg.destActor, msg.primitive⟩

/-- All messages, each list in its order. `sent` and `handled` are those so far. -/
structure Delivery (α : Type*) where
  sent : List (ActorMessage α) := []
  /-- The outgoing queue of a member to another one. -/
  outgoing : ℕ × ℕ → List (ActorMessage α) := fun _ => []
  /-- The batches on the connection from a member to another one. -/
  wire : ℕ × ℕ → List (List (ActorMessage α)) := fun _ => []
  /-- The messages that the IO threads of a member are still to put into its message queue. -/
  received : ℕ → List (ℕ × ActorMessage α) := fun _ => []
  /-- The message queue of a member. -/
  queue : ℕ → List (ActorMessage α) := fun _ => []
  /-- The messages that the workers of a member have popped. -/
  popped : ℕ → List (ℕ × ActorMessage α) := fun _ => []
  mailbox : α → List (ActorMessage α) := fun _ => []
  handled : α → List (ActorMessage α) := fun _ => []

/-- Steps: an actor sends a message, a connection writes up to `n` messages, an IO thread gets a
batch and puts its messages into the message queue one by one, a worker pops a message and puts it
into the mailbox, and an actor handles a message. -/
inductive DeliveryStep (α : Type*)
  | send (msg : ActorMessage α)
  | realSendMessage (a b n : ℕ)
  | handleRecvBody (a b t : ℕ)
  | relayMessage (b t : ℕ)
  | tryPop (b w : ℕ)
  | putMessage (b w : ℕ)
  | innerProcess (r : α)

namespace Delivery

variable {α : Type*} [DecidableEq α]

/-- One step; `member` tells where an actor is. -/
def step (member : α → ℕ) (s : Delivery α) : DeliveryStep α → Option (Delivery α)
  | .send msg =>
    let a := member msg.sourceActor
    let b := member msg.destActor
    let s := { s with sent := s.sent ++ [msg] }
    if a = b then
      match msg.primitive with
      | .sendMessage => some
          { s with
            mailbox :=
              Function.update s.mailbox msg.destActor (s.mailbox msg.destActor ++ [msg]) }
      | .postMessage => some { s with queue := Function.update s.queue b (s.queue b ++ [msg]) }
    else some { s with
      outgoing := Function.update s.outgoing (a, b) (s.outgoing (a, b) ++ [msg]) }
  | .realSendMessage a b n => some
      { s with
        outgoing := Function.update s.outgoing (a, b) ((s.outgoing (a, b)).drop n)
        wire := Function.update s.wire (a, b) (s.wire (a, b) ++ [(s.outgoing (a, b)).take n]) }
  | .handleRecvBody a b t =>
    match s.wire (a, b) with
    | [] => none
    | batch :: rest =>
      if (Common.itemOf (s.received b) t).isSome then none
      else some
        { s with
          wire := Function.update s.wire (a, b) rest
          received :=
            Function.update s.received b (s.received b ++ batch.map fun msg => (t, msg)) }
  | .relayMessage b t =>
    (Common.itemOf (s.received b) t).map fun msg =>
      { s with
        received := Function.update s.received b (Common.putDown (s.received b) t)
        queue := Function.update s.queue b (s.queue b ++ [msg]) }
  | .tryPop b w =>
    match s.queue b with
    | [] => none
    | msg :: rest =>
      if (Common.itemOf (s.popped b) w).isSome then none
      else some
        { s with
          queue := Function.update s.queue b rest
          popped := Function.update s.popped b (s.popped b ++ [(w, msg)]) }
  | .putMessage b w =>
    (Common.itemOf (s.popped b) w).map fun msg =>
      { s with
        popped := Function.update s.popped b (Common.putDown (s.popped b) w)
        mailbox := Function.update s.mailbox msg.destActor (s.mailbox msg.destActor ++ [msg]) }
  | .innerProcess r =>
    match s.mailbox r with
    | [] => none
    | msg :: rest => some
        { s with
          mailbox := Function.update s.mailbox r rest
          handled := Function.update s.handled r (s.handled r ++ [msg]) }

/-- The messages of a channel in a list. -/
def ofChannel (c : Channel α) (l : List (ActorMessage α)) : List (ActorMessage α) :=
  l.filter fun msg => msg.channel = c

/-- The messages of a channel are handled in the order in which they were sent. -/
def InOrder (s : Delivery α) : Prop :=
  ∀ c : Channel α, ofChannel c (s.handled c.destActor) <+: ofChannel c s.sent

/-- No message of the channel of `msg` is in the list. -/
def NoneOfChannel (msg : ActorMessage α) (l : List (ℕ × ActorMessage α)) : Prop :=
  ∀ e ∈ l, e.2.channel ≠ msg.channel

instance (msg : ActorMessage α) (l : List (ℕ × ActorMessage α)) :
    Decidable (NoneOfChannel msg l) := by
  unfold NoneOfChannel
  infer_instance

/-- An IO thread puts a message into the queue, and a worker into the mailbox, when no other thread
has an earlier message of the channel. -/
def KeepsTurn (s : Delivery α) : DeliveryStep α → Prop
  | .relayMessage b t => ∀ msg ∈ Common.itemOf (s.received b) t,
      NoneOfChannel msg (Common.takenBefore (s.received b) t)
  | .putMessage b w => ∀ msg ∈ Common.itemOf (s.popped b) w,
      NoneOfChannel msg (Common.takenBefore (s.popped b) w)
  | _ => True

instance (s : Delivery α) (a : DeliveryStep α) : Decidable (KeepsTurn s a) := by
  unfold KeepsTurn
  split <;> infer_instance

/-! ## The messages of a channel -/

variable {member : α → ℕ}

theorem ofChannel_append (c : Channel α) (l l' : List (ActorMessage α)) :
    ofChannel c (l ++ l') = ofChannel c l ++ ofChannel c l' := filter_append ..

theorem ofChannel_cons (c : Channel α) (msg : ActorMessage α) (l : List (ActorMessage α)) :
    ofChannel c (msg :: l) = ofChannel c [msg] ++ ofChannel c l := ofChannel_append c [msg] l

theorem ofChannel_of_ne {c : Channel α} {msg : ActorMessage α} (h : msg.channel ≠ c) :
    ofChannel c [msg] = [] :=
  filter_cons_of_neg (by simpa using h)

theorem ofChannel_eq_nil {c : Channel α} {l : List (ActorMessage α)}
    (h : ∀ msg ∈ l, msg.channel ≠ c) :
    ofChannel c l = [] := by
  refine filter_eq_nil_iff.mpr fun msg hmsg => ?_
  simpa using h msg hmsg

/-- A thread puts down a message before which it and the others have taken none of its channel. -/
theorem ofChannel_items_of_itemOf {c : Channel α} {l : List (ℕ × ActorMessage α)} {t : ℕ}
    {msg : ActorMessage α}
    (h : Common.itemOf l t = some msg) (hfirst : NoneOfChannel msg (Common.takenBefore l t)) :
    ofChannel c (Common.items l) = ofChannel c [msg] ++ ofChannel c
    (Common.items (Common.putDown l t)) := by
  refine Common.filter_items_of_itemOf h fun hc e he => ?_
  have hne := hfirst e he
  rw [of_decide_eq_true hc] at hne
  exact decide_eq_false hne

/-- The messages of a channel on their way, from those handled to those in the outgoing queue. -/
def onTheWay (member : α → ℕ) (s : Delivery α) (c : Channel α) : List (ActorMessage α) :=
  let a := member c.sourceActor
  let b := member c.destActor
  ofChannel c (s.handled c.destActor) ++ ofChannel c (s.mailbox c.destActor) ++
    ofChannel c (Common.items (s.popped b)) ++ ofChannel c (s.queue b) ++
    ofChannel c (Common.items (s.received b)) ++ ofChannel c (s.wire (a, b)).flatten ++
    ofChannel c (s.outgoing (a, b))

/-! ## The invariant -/

/-- The message is from an actor of the one member to an actor of the other. -/
def Remote (member : α → ℕ) (a b : ℕ) (msg : ActorMessage α) : Prop :=
  member msg.sourceActor = a ∧ member msg.destActor = b ∧ a ≠ b

/-- The message has come from another member or has been posted. -/
def Relayed (member : α → ℕ) (b : ℕ) (msg : ActorMessage α) : Prop :=
  member msg.destActor = b ∧ (member msg.sourceActor = b → msg.primitive = .postMessage)

/-- The messages of a channel are on their way in the order in which they were sent, each where it
belongs. -/
structure Inv (member : α → ℕ) (s : Delivery α) : Prop where
  order : ∀ c, onTheWay member s c = ofChannel c s.sent
  outgoing : ∀ k, ∀ msg ∈ s.outgoing k, Remote member k.1 k.2 msg
  wire : ∀ k, ∀ batch ∈ s.wire k, ∀ msg ∈ batch, Remote member k.1 k.2 msg
  received : ∀ b, ∀ e ∈ s.received b, ∃ a, Remote member a b e.2
  queue : ∀ b, ∀ msg ∈ s.queue b, Relayed member b msg
  popped : ∀ b, ∀ e ∈ s.popped b, Relayed member b e.2

theorem inv_init (member : α → ℕ) : Inv member {} where
  order := fun _ => rfl
  outgoing := by rintro k msg ⟨⟩
  wire := by rintro k batch ⟨⟩
  received := by rintro b e ⟨⟩
  queue := by rintro b msg ⟨⟩
  popped := by rintro b e ⟨⟩

theorem Inv.inOrder {s : Delivery α} (h : Inv member s) : InOrder s := by
  intro c
  rw [← h.order c]
  unfold onTheWay
  simp only [append_assoc]
  exact prefix_append _ _

omit [DecidableEq α] in
theorem Remote.relayed {a b : ℕ} {msg : ActorMessage α} (h : Remote member a b msg) :
    Relayed member b msg :=
  ⟨h.2.1, fun hsource => absurd (h.1.symm.trans hsource) h.2.2⟩

omit [DecidableEq α] in
/-- A message of the channel `c` is not on a connection if both actors are on one member. -/
theorem Remote.not_local {a b : ℕ} {msg : ActorMessage α} {c : Channel α}
    (h : Remote member a b msg)
    (hlocal : member c.sourceActor = member c.destActor) : msg.channel ≠ c := by
  rintro rfl
  exact h.2.2 (h.1.symm.trans (hlocal.trans h.2.1))

/-- What an update of a list at one place does to the messages there. -/
theorem forall_mem_update {κ β : Type*} [DecidableEq κ] {f : κ → List β} {P : κ → β → Prop} {k : κ}
    {l : List β} (h : ∀ k', ∀ x ∈ f k', P k' x) (hl : ∀ x ∈ l, P k x) :
    ∀ k', ∀ x ∈ update f k l k', P k' x := by
  intro k' x hx
  by_cases hk : k' = k
  · subst hk
    rw [update_self] at hx
    exact hl x hx
  · rw [update_of_ne hk] at hx
    exact h k' x hx

/-! ## Sending -/

/-- The channel has nothing on a connection if its actors are on one member. -/
theorem Inv.local_nil {s : Delivery α} (h : Inv member s) {c : Channel α}
    (hlocal : member c.sourceActor = member c.destActor) :
    ofChannel c (Common.items (s.received (member c.destActor))) = [] ∧
    ofChannel c (s.wire (member c.sourceActor, member c.destActor)).flatten = [] ∧
    ofChannel c (s.outgoing (member c.sourceActor, member c.destActor)) = [] := by
  refine ⟨ofChannel_eq_nil fun msg hmsg => ?_, ofChannel_eq_nil fun msg hmsg => ?_,
    ofChannel_eq_nil fun msg hmsg => ?_⟩
  · obtain ⟨e, he, rfl⟩ := mem_map.mp hmsg
    obtain ⟨a, ha⟩ := h.received _ e he
    exact ha.not_local hlocal
  · obtain ⟨batch, hbatch, hin⟩ := mem_flatten.mp hmsg
    exact (h.wire _ batch hbatch msg hin).not_local hlocal
  · exact (h.outgoing _ msg hmsg).not_local hlocal

/-- The channel has nothing in the message queue if its messages go right into the mailbox. -/
theorem Inv.sendMessage_nil {s : Delivery α} (h : Inv member s) {c : Channel α}
    (hlocal : member c.sourceActor = member c.destActor) (hprimitive : c.primitive = .sendMessage) :
    ofChannel c (Common.items (s.popped (member c.destActor))) = [] ∧
    ofChannel c (s.queue (member c.destActor)) = [] := by
  have hne : ∀ msg, Relayed member (member c.destActor) msg → msg.channel ≠ c := by
    rintro msg hmsg rfl
    cases hprimitive.symm.trans (hmsg.2 hlocal)
  refine ⟨ofChannel_eq_nil fun msg hmsg => ?_, ofChannel_eq_nil fun msg hmsg => ?_⟩
  · obtain ⟨e, he, rfl⟩ := mem_map.mp hmsg
    exact hne _ (h.popped _ e he)
  · exact hne msg (h.queue _ msg hmsg)

/-- A message is added to the list where those of its channel are. -/
theorem ofChannel_update_append {κ : Type*} [DecidableEq κ] {f : κ → List (ActorMessage α)}
    {k k' : κ} {msg : ActorMessage α} {c : Channel α} (h : msg.channel = c → k' = k) :
    ofChannel c (update f k (f k ++ [msg]) k') = ofChannel c (f k') ++ ofChannel c
    [msg] := by
  by_cases hk : k' = k
  · rw [hk, update_self, ofChannel_append]
  · rw [update_of_ne hk, ofChannel_of_ne fun hc => hk (h hc), append_nil]

section

variable {s : Delivery α} (h : Inv member s)

include h

/-- A message to an actor of the same member goes into its mailbox. -/
theorem Inv.sendMessage {msg : ActorMessage α}
    (hlocal : member msg.sourceActor = member msg.destActor)
    (hprimitive : msg.primitive = .sendMessage) :
    Inv member { s with
      sent := s.sent ++ [msg]
      mailbox := update s.mailbox msg.destActor (s.mailbox msg.destActor ++ [msg]) } where
  __ := h
  order := by
    intro c
    show _ = ofChannel c (s.sent ++ [msg])
    rw [ofChannel_append, ← h.order c]
    simp only [onTheWay]
    rw [ofChannel_update_append fun hc => by rw [← hc]; rfl]
    by_cases hc : msg.channel = c
    · subst hc
      obtain ⟨hreceived, hwire, houtgoing⟩ := h.local_nil (c := msg.channel) hlocal
      obtain ⟨hpopped, hqueue⟩ := h.sendMessage_nil (c := msg.channel) hlocal hprimitive
      simp only [hreceived, hwire, houtgoing, hpopped, hqueue, append_nil, append_assoc]
    · simp only [ofChannel_of_ne hc, append_nil]

/-- A message to an actor of the same member goes into the message queue. -/
theorem Inv.postMessage {msg : ActorMessage α}
    (hlocal : member msg.sourceActor = member msg.destActor)
    (hprimitive : msg.primitive = .postMessage) :
    Inv member { s with
      sent := s.sent ++ [msg]
      queue := update s.queue (member msg.destActor)
        (s.queue (member msg.destActor) ++ [msg]) } where
  __ := h
  order := by
    intro c
    show _ = ofChannel c (s.sent ++ [msg])
    rw [ofChannel_append, ← h.order c]
    simp only [onTheWay]
    rw [ofChannel_update_append fun hc => by rw [← hc]; rfl]
    by_cases hc : msg.channel = c
    · subst hc
      obtain ⟨hreceived, hwire, houtgoing⟩ := h.local_nil (c := msg.channel) hlocal
      simp only [hreceived, hwire, houtgoing, append_nil, append_assoc]
    · simp only [ofChannel_of_ne hc, append_nil]
  queue := by
    refine forall_mem_update h.queue fun m hm => ?_
    rcases mem_append.mp hm with hm | hm
    · exact h.queue _ m hm
    · obtain rfl := mem_singleton.mp hm
      exact ⟨rfl, fun _ => hprimitive⟩

/-- A message to an actor of another member goes into the outgoing queue. -/
theorem Inv.send {msg : ActorMessage α} (hremote : member msg.sourceActor ≠ member msg.destActor) :
    Inv member { s with
      sent := s.sent ++ [msg]
      outgoing := update s.outgoing (member msg.sourceActor, member msg.destActor)
        (s.outgoing (member msg.sourceActor, member msg.destActor) ++ [msg]) } where
  __ := h
  order := by
    intro c
    show _ = ofChannel c (s.sent ++ [msg])
    rw [ofChannel_append, ← h.order c]
    simp only [onTheWay]
    rw [ofChannel_update_append fun hc => by rw [← hc]; rfl]
    simp only [append_assoc]
  outgoing := by
    refine forall_mem_update (P := fun (k : ℕ × ℕ) =>
      Remote member k.1 k.2) h.outgoing fun m hm => ?_
    rcases mem_append.mp hm with hm | hm
    · exact h.outgoing _ m hm
    · obtain rfl := mem_singleton.mp hm
      exact ⟨rfl, rfl, hremote⟩

/-! ## Between the members -/

/-- A connection writes a batch. -/
theorem Inv.realSendMessage (k : ℕ × ℕ) (n : ℕ) :
    Inv member { s with
      outgoing := update s.outgoing k ((s.outgoing k).drop n)
      wire := update s.wire k (s.wire k ++ [(s.outgoing k).take n]) } where
  __ := h
  order := by
    intro c
    refine Eq.trans ?_ (h.order c)
    simp only [onTheWay]
    by_cases hk : (member c.sourceActor, member c.destActor) = k
    · rw [hk, update_self, update_self, flatten_append, ofChannel_append]
      have hsplit : ofChannel c (s.outgoing k) =
          ofChannel c ((s.outgoing k).take n) ++ ofChannel c ((s.outgoing k).drop n) := by
        rw [← ofChannel_append, take_append_drop]
      simp only [hsplit, flatten_cons, flatten_nil, append_nil, append_assoc]
    · rw [update_of_ne hk, update_of_ne hk]
  outgoing := forall_mem_update (P := fun (k : ℕ × ℕ) => Remote member k.1 k.2) h.outgoing
    fun m hm => h.outgoing k m (mem_of_mem_drop hm)
  wire := by
    refine forall_mem_update (P := fun (k : ℕ × ℕ) batch =>
      ∀ msg ∈ batch, Remote member k.1 k.2 msg) h.wire
      fun batch hbatch => ?_
    rcases mem_append.mp hbatch with hbatch | hbatch
    · exact h.wire k batch hbatch
    · obtain rfl := mem_singleton.mp hbatch
      exact fun m hm => h.outgoing k m (mem_of_mem_take hm)

/-- An IO thread gets a batch. -/
theorem Inv.handleRecvBody {a b : ℕ} {batch : List (ActorMessage α)}
    {rest : List (List (ActorMessage α))} (hwire : s.wire (a, b) = batch :: rest) (t : ℕ) :
    Inv member { s with
      wire := update s.wire (a, b) rest
      received :=
        update s.received b (s.received b ++ batch.map fun msg => (t, msg)) } where
  __ := h
  order := by
    intro c
    refine Eq.trans ?_ (h.order c)
    have hbatch : ∀ msg ∈ batch, Remote member a b msg :=
      h.wire (a, b) batch (by rw [hwire]; exact mem_cons_self)
    simp only [onTheWay]
    by_cases hk : (member c.sourceActor, member c.destActor) = (a, b)
    · obtain ⟨-, hb⟩ := Prod.mk.inj hk
      have hitems : Common.items (batch.map fun msg => (t, msg)) = batch := by
        unfold Common.items
        rw [map_map]
        exact map_id _
      rw [hk, hb, update_self, update_self, hwire, Common.items_append, hitems,
        flatten_cons, ofChannel_append, ofChannel_append]
      simp only [append_assoc]
    · rw [update_of_ne hk]
      have hnone : ofChannel c batch = [] := by
        refine ofChannel_eq_nil fun msg hmsg hc => ?_
        obtain ⟨hsource, hdest, -⟩ := hbatch msg hmsg
        exact hk (by rw [← hc, ← hsource, ← hdest]; rfl)
      have hreceived : ofChannel c (Common.items (update s.received b
          (s.received b ++ batch.map fun msg => (t, msg)) (member c.destActor))) =
          ofChannel c (Common.items (s.received (member c.destActor))) := by
        by_cases hb : member c.destActor = b
        · have hitems : Common.items (batch.map fun msg => (t, msg)) = batch := by
            unfold Common.items
            rw [map_map]
            exact map_id _
          rw [hb, update_self, Common.items_append, hitems, ofChannel_append, hnone, append_nil]
        · rw [update_of_ne hb]
      rw [hreceived]
  wire := forall_mem_update (P := fun (k : ℕ × ℕ) batch =>
    ∀ msg ∈ batch, Remote member k.1 k.2 msg) h.wire
    fun batch' hbatch' => h.wire (a, b) batch' (by rw [hwire]; exact mem_cons_of_mem _ hbatch')
  received := by
    refine forall_mem_update (P := fun b (e : ℕ × ActorMessage α) =>
      ∃ a, Remote member a b e.2) h.received
      fun e he => ?_
    rcases mem_append.mp he with he | he
    · exact h.received b e he
    · obtain ⟨msg, hmsg, rfl⟩ := mem_map.mp he
      exact ⟨a, h.wire (a, b) batch (by rw [hwire]; exact mem_cons_self) msg hmsg⟩

/-! ## On the member of the receiver -/

/-- An IO thread puts a message into the message queue. -/
theorem Inv.relayMessage {b t : ℕ} {msg : ActorMessage α}
    (hmsg : Common.itemOf (s.received b) t = some msg)
    (hturn : NoneOfChannel msg (Common.takenBefore (s.received b) t)) :
    Inv member { s with
      received := update s.received b (Common.putDown (s.received b) t)
      queue := update s.queue b (s.queue b ++ [msg]) } where
  __ := h
  order := by
    intro c
    refine Eq.trans ?_ (h.order c)
    simp only [onTheWay]
    by_cases hb : member c.destActor = b
    · rw [hb, update_self, update_self, ofChannel_append, ofChannel_items_of_itemOf hmsg hturn]
      simp only [append_assoc]
    · rw [update_of_ne hb, update_of_ne hb]
  received :=
    forall_mem_update (P := fun b (e : ℕ × ActorMessage α) => ∃ a, Remote member a b e.2) h.received
    fun e he => h.received b e (mem_of_mem_eraseP he)
  queue := by
    refine forall_mem_update h.queue fun m hm => ?_
    rcases mem_append.mp hm with hm | hm
    · exact h.queue b m hm
    · obtain rfl := mem_singleton.mp hm
      obtain ⟨e, he, rfl⟩ := mem_map.mp (Common.mem_items_of_itemOf hmsg)
      obtain ⟨a, ha⟩ := h.received b e he
      exact ha.relayed

/-- A worker pops a message. -/
theorem Inv.tryPop {b : ℕ} {msg : ActorMessage α} {rest : List (ActorMessage α)}
    (hqueue : s.queue b = msg :: rest) (w : ℕ) :
    Inv member { s with
      queue := update s.queue b rest
      popped := update s.popped b (s.popped b ++ [(w, msg)]) } where
  __ := h
  order := by
    intro c
    refine Eq.trans ?_ (h.order c)
    simp only [onTheWay]
    by_cases hb : member c.destActor = b
    · have hitems : Common.items [(w, msg)] = [msg] := rfl
      rw [hb, update_self, update_self, hqueue, Common.items_append, hitems,
        ofChannel_append, ofChannel_cons c msg rest]
      simp only [append_assoc]
    · rw [update_of_ne hb, update_of_ne hb]
  queue := forall_mem_update h.queue fun m hm =>
    h.queue b m (by rw [hqueue]; exact mem_cons_of_mem _ hm)
  popped := by
    refine forall_mem_update (P := fun b (e : ℕ × ActorMessage α) =>
      Relayed member b e.2) h.popped fun e he => ?_
    rcases mem_append.mp he with he | he
    · exact h.popped b e he
    · obtain rfl := mem_singleton.mp he
      exact h.queue b msg (by rw [hqueue]; exact mem_cons_self)

/-- A worker puts its message into the mailbox. -/
theorem Inv.putMessage {b w : ℕ} {msg : ActorMessage α}
    (hmsg : Common.itemOf (s.popped b) w = some msg)
    (hturn : NoneOfChannel msg (Common.takenBefore (s.popped b) w)) :
    Inv member { s with
      popped := update s.popped b (Common.putDown (s.popped b) w)
      mailbox := update s.mailbox msg.destActor (s.mailbox msg.destActor ++ [msg]) } where
  __ := h
  order := by
    intro c
    refine Eq.trans ?_ (h.order c)
    have hb : member msg.destActor = b := by
      obtain ⟨e, he, rfl⟩ := mem_map.mp (Common.mem_items_of_itemOf hmsg)
      exact (h.popped b e he).1
    have hpopped : ofChannel c (Common.items (s.popped (member c.destActor))) = ofChannel c [msg] ++
        ofChannel c
        (Common.items
        (update s.popped b (Common.putDown (s.popped b) w) (member c.destActor))) := by
      by_cases hc : member c.destActor = b
      · rw [hc, update_self]
        exact ofChannel_items_of_itemOf hmsg hturn
      · have hne : msg.channel ≠ c := by
          rintro rfl
          exact hc hb
        rw [update_of_ne hc, ofChannel_of_ne hne]
        rfl
    simp only [onTheWay]
    rw [ofChannel_update_append fun hc => by rw [← hc]; rfl, hpopped]
    simp only [append_assoc]
  popped := forall_mem_update (P := fun b (e : ℕ × ActorMessage α) => Relayed member b e.2) h.popped
    fun e he => h.popped b e (mem_of_mem_eraseP he)

/-- An actor handles a message. -/
theorem Inv.innerProcess {r : α} {msg : ActorMessage α} {rest : List (ActorMessage α)}
    (hmailbox : s.mailbox r = msg :: rest) :
    Inv member { s with
      mailbox := update s.mailbox r rest
      handled := update s.handled r (s.handled r ++ [msg]) } where
  __ := h
  order := by
    intro c
    refine Eq.trans ?_ (h.order c)
    simp only [onTheWay]
    by_cases hr : c.destActor = r
    · rw [hr, update_self, update_self, hmailbox, ofChannel_append, ofChannel_cons c msg rest]
      simp only [append_assoc]
    · rw [update_of_ne hr, update_of_ne hr]

end

/-! ## Runs -/

theorem Inv.step {s s' : Delivery α} {a : DeliveryStep α} (h : Inv member s) (hturn : KeepsTurn s a)
    (hstep : step member s a = some s') : Inv member s' := by
  cases a with
  | send msg =>
    by_cases hlocal : member msg.sourceActor = member msg.destActor
    · cases hprimitive : msg.primitive with
      | sendMessage =>
        simp only [Delivery.step, if_pos hlocal, hprimitive] at hstep
        cases hstep
        exact h.sendMessage hlocal hprimitive
      | postMessage =>
        simp only [Delivery.step, if_pos hlocal, hprimitive] at hstep
        cases hstep
        exact h.postMessage hlocal hprimitive
    · simp only [Delivery.step, if_neg hlocal] at hstep
      cases hstep
      exact h.send hlocal
  | realSendMessage a b n =>
    cases hstep
    exact h.realSendMessage (a, b) n
  | handleRecvBody a b t =>
    simp only [Delivery.step] at hstep
    split at hstep
    · cases hstep
    · rename_i batch rest hwire
      split at hstep
      · cases hstep
      · cases hstep
        exact h.handleRecvBody hwire t
  | relayMessage b t =>
    obtain ⟨msg, hmsg, rfl⟩ := Option.map_eq_some_iff.mp hstep
    exact h.relayMessage hmsg (hturn msg hmsg)
  | tryPop b w =>
    simp only [Delivery.step] at hstep
    split at hstep
    · cases hstep
    · rename_i msg rest hqueue
      split at hstep
      · cases hstep
      · cases hstep
        exact h.tryPop hqueue w
  | putMessage b w =>
    obtain ⟨msg, hmsg, rfl⟩ := Option.map_eq_some_iff.mp hstep
    exact h.putMessage hmsg (hturn msg hmsg)
  | innerProcess r =>
    simp only [Delivery.step] at hstep
    split at hstep
    · cases hstep
    · rename_i msg rest hmailbox
      cases hstep
      exact h.innerProcess hmailbox

/-- In every run in which the threads keep their turn all messages are handled in order. -/
theorem inOrder_of_keepsTurn {s : Delivery α} (hrun : Common.Reaches (step member) KeepsTurn {} s) :
    InOrder s :=
  (hrun.invariant (P := Inv member) (inv_init member) fun _ _ _ h hturn hstep =>
    h.step hturn hstep).inOrder

/-! ## Two workers -/

/-- A message from actor 1 to actor 2. -/
def message (payload : ℕ) : ActorMessage ℕ := ⟨1, 2, .postMessage, payload⟩

/-- The worker that has popped the second message is faster. -/
def fasterWorker : List (DeliveryStep ℕ) :=
  [.send (message 10), .send (message 20), .tryPop 0 0, .tryPop 0 1, .putMessage 0 1,
    .putMessage 0 0,
    .innerProcess 2]

/-- The second message is handled first. -/
theorem not_inOrder_of_run :
    ¬ ∀ s : Delivery ℕ, Common.Reaches (step fun _ => 0) Common.anyStep {} s → InOrder s := by
  intro hall
  have hend :
      ((Common.replay (step fun _ => 0) Common.anyStep ({} : Delivery ℕ) fasterWorker).any fun s =>
      decide (s.handled 2 = [message 20] ∧ s.sent = [message 10, message 20])) = true := by
    decide +kernel
  obtain ⟨s, hs, hbad⟩ := (Option.any_eq_true _ _).mp hend
  obtain ⟨hhandled, hsent⟩ := of_decide_eq_true hbad
  have hpre := hall s (Common.reaches_of_replay hs) ⟨1, 2, .postMessage⟩
  rw [hhandled, hsent] at hpre
  revert hpre
  decide

/-- Actor 1 on member 1, actor 2 on member 0: two batches, two IO threads and two workers. -/
def remoteBatches : List (DeliveryStep ℕ) :=
  [.send (message 10), .send (message 20), .send (message 30), .realSendMessage 1 0 2,
    .realSendMessage 1 0 2,
    .handleRecvBody 1 0 0, .handleRecvBody 1 0 1, .relayMessage 0 0, .relayMessage 0 0,
    .relayMessage 0 1,
    .tryPop 0 0, .tryPop 0 1, .putMessage 0 0, .putMessage 0 1, .tryPop 0 1, .putMessage 0 1,
    .innerProcess 2, .innerProcess 2, .innerProcess 2]

/-- The messages are handled in order. -/
theorem inOrder_of_keepsTurn_remoteBatches : ∃ s : Delivery ℕ,
    Common.Reaches (step fun r => if r = 1 then 1 else 0) KeepsTurn {} s ∧
      s.handled 2 = [message 10, message 20, message 30] ∧ InOrder s := by
  have hend :
      ((Common.replay (step fun r => if r = 1 then 1 else 0) KeepsTurn
      ({} : Delivery ℕ) remoteBatches).any
      fun s => decide (s.handled 2 = [message 10, message 20, message 30])) = true := by
    decide +kernel
  obtain ⟨s, hs, hgood⟩ := (Option.any_eq_true _ _).mp hend
  exact ⟨s, Common.reaches_of_replay hs, of_decide_eq_true hgood,
    inOrder_of_keepsTurn (Common.reaches_of_replay hs)⟩

end Delivery

end Idgs.Actor
