import Idgs.Actor.MessageEncoding

/-!
# Messages of the Java client

A `ClientActorMessage` keeps its payload and its attachments as messages and, when it was received,
as bytes. `toBuffer` clears the attachments of the header and puts those in that it has as messages,
so a received message has to be parsed whole before it is encoded. `parseAttachment` reads all
attachments of a name with one builder.
-/

namespace Idgs.Client.Java

open List

open Actor.Encoding (Routing RpcMessage)
open Common (Multimap.Same Multimap.ofKey Reaches anyStep replay reaches_of_replay)
open Protobuf (SerdesMode Bytes)

/-! ## Messages -/

/-- What the client uses of its libraries: the messages, of type `μ`, with the `ProtoSerde` of each
mode, which merges what it reads into a builder; the buffers of headers, of type `β`; and the order
in which an `ArrayListMultimap` gives its entries. A message is read back by a new builder of its
type, and so is a header, in binary. -/
structure Library (τ μ β : Type) where
  type : μ → τ
  newBuilder : τ → μ
  mergeFrom : μ → μ → μ
  serializeToByteArray : SerdesMode → μ → Bytes
  deserializeFromByteArray : SerdesMode → μ → Bytes → μ
  serializeHeader : SerdesMode → RpcMessage → β
  deserializeHeader : SerdesMode → β → Option RpcMessage
  entries : List (String × μ) → List (String × μ)
  message_read_back : ∀ v,
    deserializeFromByteArray .pbBinary (newBuilder (type v)) (serializeToByteArray .pbBinary v) = v
  header_read_back : ∀ rpc, deserializeHeader .pbBinary (serializeHeader .pbBinary rpc) = some rpc
  same_entries : ∀ l, Multimap.Same (entries l) l

/-- `ClientActorMessage`. The attachments are multimaps, in the order of insertion. -/
structure ClientActorMessage (μ : Type) where
  rpcMessage : RpcMessage
  payload : Option μ := none
  attachments : List (String × μ) := []
  rawAttachments : List (String × Bytes) := []

variable {τ μ β : Type} (lib : Library τ μ β)

/-- Messages as bytes. -/
def serialized (mode : SerdesMode) (attachments : List (String × μ)) : List (String × Bytes) :=
  attachments.map fun e => (e.1, lib.serializeToByteArray mode e.2)

/-- What a builder holds after each of the texts that are read into it one after the other. -/
def readAll (mode : SerdesMode) : μ → List Bytes → List μ
  | _, [] => []
  | builder, bytes :: rest =>
    lib.deserializeFromByteArray mode builder bytes ::
      readAll mode (lib.deserializeFromByteArray mode builder bytes) rest

namespace ClientActorMessage

/-- The constructor for a received header. -/
def ofRpcMessage (rpc : RpcMessage) : ClientActorMessage μ :=
  { rpcMessage := rpc, rawAttachments := rpc.attachments }

/-- `toBuffer`; `none` when there is no payload to serialise. -/
def toBuffer (m : ClientActorMessage μ) : Option (ClientActorMessage μ × β) :=
  match m.payload with
  | none => none
  | some payload =>
    let mode := m.rpcMessage.serdesType
    let added := serialized lib mode (lib.entries m.attachments)
    let rpc : RpcMessage :=
      { m.rpcMessage with
        payload := some (lib.serializeToByteArray mode payload), attachments := added }
    some ({ m with rpcMessage := rpc, rawAttachments := m.rawAttachments ++ added },
      lib.serializeHeader mode rpc)

/-- `parsePayload`. -/
def parsePayload (payloadBuilder : μ) (m : ClientActorMessage μ) : ClientActorMessage μ :=
  let payload :=
    lib.deserializeFromByteArray m.rpcMessage.serdesType payloadBuilder
    (m.rpcMessage.payload.getD [])
  { m with payload := some payload }

/-- `parseAttachment`: whether there is one, what the builder holds then, and the message. -/
def parseAttachment (name : String) (attachBuilder : μ) (m : ClientActorMessage μ) :
    Bool × μ × ClientActorMessage μ :=
  match Multimap.ofKey m.attachments name with
  | e :: _ => (true, lib.mergeFrom attachBuilder e.2, m)
  | [] =>
    match (Multimap.ofKey m.rawAttachments name).map Prod.snd with
    | [] => (false, attachBuilder, m)
    | bytes =>
      let read := readAll lib m.rpcMessage.serdesType attachBuilder bytes
      (true, read.getLastD attachBuilder,
        { m with attachments := m.attachments ++ read.map fun v => (name, v) })

end ClientActorMessage

/-! ## Histories -/

/-- What a message says. -/
structure Content (μ : Type) where
  routing : Routing
  payload : μ
  attachments : List (String × μ)

/-- The mode of the message. -/
def Content.serdesType (c : Content μ) : SerdesMode := c.routing.serdesType.getD .pbBinary

/-- A message and what it is to say, the names whose attachments have been asked for since it was
received, the buffers that it has been encoded to, and whether encoding it has thrown. -/
structure State (μ β : Type) where
  message : ClientActorMessage μ
  content : Content μ
  asked : List String := []
  buffers : List β := []
  threw : Bool := false

/-- A message that an application has made. -/
def init (c : Content μ) : State μ β where
  message :=
    { rpcMessage := { routing := c.routing }, payload := some c.payload,
      attachments := c.attachments }
  content := c

/-- Steps: the payload or the attachments of a name are parsed with a new builder of a type; the
message is encoded; it is encoded, and the history goes on with what `onRead` makes of the
buffer. -/
inductive Step (τ : Type)
  | parsePayload (type : τ)
  | parseAttachment (name : String) (type : τ)
  | toBuffer
  | send

/-- One step. -/
def step (s : State μ β) : Step τ → Option (State μ β)
  | .parsePayload type =>
    some { s with message := s.message.parsePayload lib (lib.newBuilder type) }
  | .parseAttachment name type =>
    some
      { s with
        message := (s.message.parseAttachment lib name (lib.newBuilder type)).2.2
        asked := name :: s.asked }
  | .toBuffer =>
    match s.message.toBuffer lib with
    | none => some { s with threw := true }
    | some (message, buffer) => some { s with message := message, buffers := buffer :: s.buffers }
  | .send =>
    match s.message.toBuffer lib with
    | none => some { s with threw := true }
    | some (message, buffer) =>
      match lib.deserializeHeader .pbBinary buffer with
      | none => some { s with message := message, buffers := buffer :: s.buffers }
      | some rpc =>
        some { s with
          message := .ofRpcMessage rpc, asked := [], buffers := buffer :: s.buffers }

/-! ## What is to hold -/

/-- The codec of the server, which reads headers in binary. -/
def serverWire : Actor.Encoding.Wire β where
  serialize := lib.serializeHeader .pbBinary
  deserializeFromArray := lib.deserializeHeader .pbBinary

/-- The buffer is decoded to a header that says the content, by the server to the same one. -/
def Decodes (c : Content μ) (buffer : β) : Prop :=
  ∃ rpc, lib.deserializeHeader c.serdesType buffer = some rpc ∧
    rpc.routing = c.routing ∧
    rpc.payload = some (lib.serializeToByteArray c.serdesType c.payload) ∧
    Multimap.Same rpc.attachments (serialized lib c.serdesType c.attachments) ∧
    Actor.Encoding.ActorMessage.parseRpcBuffer (μ := μ) (serverWire lib) buffer =
      some { rpcMessage := rpc, rawAttachments := rpc.attachments }

/-- Encoding never throws, every buffer is decoded to what the message is to say, and what has been
parsed is what was sent: the payload, and for each name that was asked for its attachments, in
order. -/
structure Right (s : State μ β) : Prop where
  notThrown : s.threw = false
  buffers : ∀ buffer ∈ s.buffers, Decodes lib s.content buffer
  payload : ∀ p, s.message.payload = some p → p = s.content.payload
  attachments : ∀ name ∈ s.asked,
    Multimap.ofKey s.message.attachments name = Multimap.ofKey s.content.attachments name

/-- Read into a builder that holds the one message, the other one comes out. -/
def Replaces (a b : μ) : Prop :=
  lib.deserializeFromByteArray .pbBinary a (lib.serializeToByteArray .pbBinary b) = b

/-- A payload is parsed when it is in the header, as a message of its type; attachments are parsed
as messages of their type, and each one replaces the one before it, unless they are there as
messages already; a message is encoded in binary, when its payload and all its attachments are there
as messages. -/
def Safe (s : State μ β) : Step τ → Prop
  | .parsePayload type => s.message.rpcMessage.payload.isSome = true ∧
    lib.type s.content.payload = type
  | .parseAttachment name type =>
    Multimap.ofKey s.message.attachments name ≠ [] ∨
      ((∀ v ∈ ((Multimap.ofKey s.content.attachments name).map Prod.snd).head?, lib.type v =
      type) ∧
        ((Multimap.ofKey s.content.attachments name).map Prod.snd).IsChain (Replaces lib))
  | .toBuffer | .send =>
    s.content.serdesType = .pbBinary ∧ s.message.payload.isSome = true ∧
      ∀ e ∈ s.message.rawAttachments, Multimap.ofKey s.message.attachments e.1 ≠ []

/-! ## What a message holds -/

/-- What is there as messages is what was sent, and the other attachments are there as bytes; bytes
are in binary. -/
structure Inv (s : State μ β) : Prop where
  routing : s.message.rpcMessage.routing = s.content.routing
  payload : ∀ p, s.message.payload = some p → p = s.content.payload
  bytes : ∀ bytes, s.message.rpcMessage.payload = some bytes →
    s.content.serdesType = .pbBinary ∧ bytes = lib.serializeToByteArray .pbBinary s.content.payload
  attachments : ∀ name, Multimap.ofKey s.message.attachments name ≠ [] →
    Multimap.ofKey s.message.attachments name = Multimap.ofKey s.content.attachments name
  raw : ∀ name, Multimap.ofKey s.message.attachments name = [] →
    Multimap.ofKey s.message.rawAttachments name =
    serialized lib .pbBinary (Multimap.ofKey s.content.attachments name)
  binary : s.message.rawAttachments ≠ [] → s.content.serdesType = .pbBinary

section Steps

variable {lib} {s s' : State μ β} {name : String}

theorem ofKey_serialized (mode : SerdesMode) (l : List (String × μ)) (name : String) :
    Multimap.ofKey (serialized lib mode l) name = serialized lib mode (Multimap.ofKey l name) :=
  Common.Multimap.ofKey_map (lib.serializeToByteArray mode) l name

theorem Inv.serdesType (h : Inv lib s) :
    s.message.rpcMessage.serdesType = s.content.serdesType := by
  unfold RpcMessage.serdesType Content.serdesType
  rw [h.routing]

/-- One builder reads messages each of which replaces the one before it. -/
theorem readAll_of_isChain {builder v : μ} {vs : List μ} (hv : Replaces lib builder v)
    (h : (v :: vs).IsChain (Replaces lib)) :
    readAll lib .pbBinary builder
    ((v :: vs).map (lib.serializeToByteArray .pbBinary)) = v :: vs := by
  induction vs generalizing builder v with
  | nil => exact congrArg (· :: []) hv
  | cons w vs ih =>
    obtain ⟨hw, hrest⟩ := isChain_cons_cons.mp h
    rw [map_cons, readAll, show lib.deserializeFromByteArray .pbBinary builder _ = v from hv,
      ih hw hrest]

/-- The values of a name as they were sent are read one after the other. -/
theorem readAll_serialized {l : List (String × μ)} {type : τ} (hne : l.map Prod.snd ≠ [])
    (hfirst : ∀ v ∈ (l.map Prod.snd).head?, lib.type v = type)
    (hchain : (l.map Prod.snd).IsChain (Replaces lib)) :
    readAll lib .pbBinary (lib.newBuilder type)
    ((serialized lib .pbBinary l).map Prod.snd) = l.map Prod.snd := by
  have hbytes : (serialized lib .pbBinary l).map Prod.snd =
      (l.map Prod.snd).map (lib.serializeToByteArray .pbBinary) := by
    rw [serialized, map_map, map_map]
    rfl
  rw [hbytes]
  obtain ⟨v, vs, hvs⟩ := exists_cons_of_ne_nil hne
  rw [hvs] at hfirst hchain ⊢
  refine readAll_of_isChain ?_ hchain
  rw [← hfirst v rfl]
  exact lib.message_read_back v

/-- Parsing the attachments of a name gives those that were sent, and leaves the other ones. -/
theorem parseAttachment_spec (h : Inv lib s) {type : τ}
    (hsafe : Safe lib s (.parseAttachment name type)) :
    ∃ attachments,
      (s.message.parseAttachment lib name (lib.newBuilder type)).2.2 =
        { s.message with attachments := attachments } ∧
        Multimap.ofKey attachments name = Multimap.ofKey s.content.attachments name ∧
          ∀ other, other ≠ name →
            Multimap.ofKey attachments other = Multimap.ofKey s.message.attachments other := by
  unfold ClientActorMessage.parseAttachment
  split
  · rename_i e rest hthere
    refine ⟨s.message.attachments, rfl, h.attachments name ?_, fun _ _ => rfl⟩
    rw [hthere]
    exact cons_ne_nil e rest
  · rename_i hnone
    have hraw := h.raw name hnone
    split
    · rename_i hempty
      refine ⟨s.message.attachments, rfl, ?_, fun _ _ => rfl⟩
      rw [hraw, map_eq_nil_iff, serialized, map_eq_nil_iff] at hempty
      rw [hnone, hempty]
    · rename_i hne
      have hmode : s.message.rpcMessage.serdesType = .pbBinary := by
        refine h.serdesType.trans (h.binary fun hnil => hne ?_)
        rw [hnil]
        rfl
      have hsent : (Multimap.ofKey s.content.attachments name).map Prod.snd ≠ [] := by
        intro hnil
        rw [hraw, map_eq_nil_iff.mp hnil] at hne
        exact hne rfl
      obtain ⟨hfirst, hchain⟩ := hsafe.resolve_left (not_not.mpr hnone)
      simp only [hmode, hraw, readAll_serialized hsent hfirst hchain, Common.Multimap.ofKey_eq_map]
      refine ⟨_, rfl, ?_, fun other hother => ?_⟩
      · rw [Common.Multimap.ofKey_append, hnone, nil_append, Common.Multimap.ofKey_ofKey_self]
      · rw [Common.Multimap.ofKey_append, Common.Multimap.ofKey_ofKey_of_ne hother.symm, append_nil]

/-- When everything is there as messages, the header that is encoded says the content. -/
theorem toBuffer_spec (h : Inv lib s) (hmode : s.content.serdesType = .pbBinary)
    (hpayload : s.message.payload.isSome = true)
    (hraw : ∀ e ∈ s.message.rawAttachments, Multimap.ofKey s.message.attachments e.1 ≠ []) :
    ∃ rpc : RpcMessage,
      s.message.toBuffer lib =
          some
            ({ s.message with
                rpcMessage := rpc, rawAttachments := s.message.rawAttachments ++ rpc.attachments },
              lib.serializeHeader .pbBinary rpc) ∧
        rpc.routing = s.content.routing ∧
        rpc.payload = some (lib.serializeToByteArray .pbBinary s.content.payload) ∧
        rpc.attachments = serialized lib .pbBinary (lib.entries s.message.attachments) ∧
        ∀ name, Multimap.ofKey s.message.attachments name =
        Multimap.ofKey s.content.attachments name := by
  obtain ⟨p, hp⟩ := Option.isSome_iff_exists.mp hpayload
  have hheader := h.serdesType.trans hmode
  refine ⟨{ s.message.rpcMessage with
    payload := some (lib.serializeToByteArray .pbBinary p)
    attachments := serialized lib .pbBinary (lib.entries s.message.attachments) }, ?_, h.routing,
      ?_, rfl,
    fun name => ?_⟩
  · unfold ClientActorMessage.toBuffer
    simp only [hp, hheader]
  · rw [h.payload p hp]
  · by_cases hnone : Multimap.ofKey s.message.attachments name = []
    · -- no attachment of the name has been left as bytes, so none was sent
      have hbytes : Multimap.ofKey s.message.rawAttachments name = [] := by
        refine filter_eq_nil_iff.mpr fun e he heq => hraw e he ?_
        rw [of_decide_eq_true heq]
        exact hnone
      rw [h.raw name hnone, serialized, map_eq_nil_iff] at hbytes
      rw [hnone, hbytes]
    · exact h.attachments name hnone

/-- A header with the content is decoded to it. -/
theorem decodes_header {c : Content μ} {rpc : RpcMessage} (hmode : c.serdesType = .pbBinary)
    (hrouting : rpc.routing = c.routing)
    (hpayload : rpc.payload = some (lib.serializeToByteArray .pbBinary c.payload))
    (hattachments : Multimap.Same rpc.attachments (serialized lib .pbBinary c.attachments)) :
    Decodes lib c (lib.serializeHeader .pbBinary rpc) := by
  unfold Decodes
  rw [hmode]
  refine ⟨rpc, lib.header_read_back rpc, hrouting, hpayload, hattachments, ?_⟩
  have hread : ∀ rpc, (serverWire lib).deserializeFromArray ((serverWire lib).serialize rpc) =
      some rpc :=
    lib.header_read_back
  exact Actor.Encoding.parseRpcBuffer_serialize hread rpc

/-- The entries with the bytes of all attachments. -/
theorem same_serialized {c : Content μ} {l : List (String × μ)}
    (h : ∀ name, Multimap.ofKey l name = Multimap.ofKey c.attachments name) :
    Multimap.Same (serialized lib .pbBinary (lib.entries l))
    (serialized lib .pbBinary c.attachments) :=
  ((lib.same_entries l).trans h).map (lib.serializeToByteArray .pbBinary)

/-- What a step is to keep. -/
structure Good (lib : Library τ μ β) (s : State μ β) : Prop where
  inv : Inv lib s
  right : Right lib s

/-- A safe step of a good state leads to a good state. -/
theorem step_good (h : Good lib s) {a : Step τ} (hsafe : Safe lib s a)
    (hstep : step lib s a = some s') :
    Good lib s' := by
  obtain ⟨hinv, hright⟩ := h
  cases a with
  | parsePayload type =>
    obtain ⟨hheader, rfl⟩ := hsafe
    obtain rfl := Option.some.inj hstep
    obtain ⟨bytes, hbytes⟩ := Option.isSome_iff_exists.mp hheader
    obtain ⟨hmode, rfl⟩ := hinv.bytes bytes hbytes
    have hread : ∀ p,
        (s.message.parsePayload lib (lib.newBuilder (lib.type s.content.payload))).payload =
        some p →
        p = s.content.payload := by
      intro p hp
      obtain rfl := Option.some.inj hp
      rw [hinv.serdesType, hmode, hbytes]
      exact lib.message_read_back s.content.payload
    exact ⟨⟨hinv.routing, hread, hinv.bytes, hinv.attachments, hinv.raw, hinv.binary⟩,
      ⟨hright.notThrown, hright.buffers, hread, hright.attachments⟩⟩
  | parseAttachment name type =>
    obtain rfl := Option.some.inj hstep
    obtain ⟨attachments, hparse, hname, hother⟩ := parseAttachment_spec hinv hsafe
    refine ⟨⟨?_, ?_, ?_, fun k hk => ?_, fun k hk => ?_, ?_⟩,
      ⟨hright.notThrown, hright.buffers, ?_, ?_⟩⟩
    all_goals simp only [hparse] at *
    · exact hinv.routing
    · exact hinv.payload
    · exact hinv.bytes
    · by_cases hne : k = name
      · exact hne ▸ hname
      · rw [hother k hne] at hk ⊢
        exact hinv.attachments k hk
    · by_cases hne : k = name
      · subst hne
        refine hinv.raw k (not_not.mp fun hthere => hthere ?_)
        exact (hinv.attachments k hthere).trans (hname.symm.trans hk)
      · rw [hother k hne] at hk
        exact hinv.raw k hk
    · exact hinv.binary
    · exact hinv.payload
    · intro k hk
      by_cases hne : k = name
      · exact hne ▸ hname
      · rw [hother k hne]
        exact hright.attachments k ((mem_cons.mp hk).resolve_left hne)
  | toBuffer =>
    obtain ⟨hmode, hpayload, hraw⟩ := hsafe
    obtain ⟨rpc, hbuffer, hrouting, hbytes, hadded, hall⟩ :=
      toBuffer_spec hinv hmode hpayload hraw
    have hsame : Multimap.Same rpc.attachments (serialized lib .pbBinary s.content.attachments) :=
      hadded ▸ same_serialized hall
    simp only [step, hbuffer] at hstep
    obtain rfl := Option.some.inj hstep
    refine ⟨⟨hrouting, hinv.payload, fun bytes hb => ?_, fun name _ => hall name,
      fun name hnone => ?_,
      fun _ => hmode⟩, ⟨hright.notThrown, ?_, hinv.payload, fun name _ => hall name⟩⟩
    · exact ⟨hmode, Option.some.inj (hb.symm.trans hbytes)⟩
    · have hnothing : Multimap.ofKey rpc.attachments name = [] := by
        rw [hsame name, ofKey_serialized, ← hall name]
        exact congrArg (serialized lib .pbBinary) hnone
      show Multimap.ofKey (s.message.rawAttachments ++ rpc.attachments) name = _
      rw [Common.Multimap.ofKey_append, hnothing, append_nil]
      exact hinv.raw name hnone
    · exact forall_mem_cons.mpr ⟨decodes_header hmode hrouting hbytes hsame, hright.buffers⟩
  | send =>
    obtain ⟨hmode, hpayload, hraw⟩ := hsafe
    obtain ⟨rpc, hbuffer, hrouting, hbytes, hadded, hall⟩ :=
      toBuffer_spec hinv hmode hpayload hraw
    have hsame : Multimap.Same rpc.attachments (serialized lib .pbBinary s.content.attachments) :=
      hadded ▸ same_serialized hall
    simp only [step, hbuffer, lib.header_read_back] at hstep
    obtain rfl := Option.some.inj hstep
    have hnone : ∀ p : μ, (ClientActorMessage.ofRpcMessage rpc).payload = some p →
        p = s.content.payload := by
      intro p hp
      cases hp
    refine ⟨⟨hrouting, hnone, fun bytes hb => ?_, fun name hthere => absurd rfl hthere,
      fun name _ => ?_,
      fun _ => hmode⟩, ⟨hright.notThrown, ?_, hnone, fun name hname => ?_⟩⟩
    · exact ⟨hmode, Option.some.inj (hb.symm.trans hbytes)⟩
    · rw [← ofKey_serialized]
      exact hsame name
    · exact forall_mem_cons.mpr ⟨decodes_header hmode hrouting hbytes hsame, hright.buffers⟩
    · cases hname

end Steps

theorem good_init (c : Content μ) : Good lib (init c : State μ β) where
  inv :=
    { routing := rfl
      payload := fun p hp => (Option.some.inj hp).symm
      bytes := by
        intro bytes hbytes
        cases hbytes
      attachments := fun _ _ => rfl
      raw := by
        intro name hnone
        exact (congrArg (serialized lib .pbBinary) hnone).symm
      binary := fun hne => absurd rfl hne }
  right :=
    { notThrown := rfl
      buffers := by
        intro buffer hbuffer
        cases hbuffer
      payload := fun p hp => (Option.some.inj hp).symm
      attachments := by
        intro name hname
        cases hname }

/-- **When messages of the Java client round-trip.** In every history whose steps are all safe, of
every message, every buffer that the message was encoded to is decoded to what it says, by the
client and by the server, and what has been parsed is what was sent. -/
theorem right_of_safe (lib : Library τ μ β) (c : Content μ) {s : State μ β}
    (hrun : Reaches (step lib) (Safe lib) (init c) s) : Right lib s := by
  have hgood : Good lib s := hrun.invariant (P := Good lib) (good_init lib c)
    fun t a t' ht hsafe hstep => step_good ht hsafe hstep
  exact hgood.right

/-- Messages with one optional `bool` field, in binary, and buffers that are read back in the mode
they were written in. -/
def flagLibrary : Library Unit (Option Bool) (SerdesMode × RpcMessage) where
  type := fun _ => ()
  newBuilder := fun _ => none
  mergeFrom := fun builder v => v.or builder
  serializeToByteArray := fun _ v =>
    match v with
    | none => []
    | some flag => [8, if flag then 1 else 0]
  deserializeFromByteArray := fun _ builder bytes =>
    match bytes with
    | [8, 0] => some false
    | [8, 1] => some true
    | _ => builder
  serializeHeader := Prod.mk
  deserializeHeader := fun mode buffer => if mode = buffer.1 then some buffer.2 else none
  entries := id
  message_read_back := by
    rintro (_ | _ | _)
    all_goals rfl
  header_read_back := fun _ => rfl
  same_entries := Common.Multimap.Same.refl

/-- A request with a payload and attachments of one name. -/
def request (attachments : List (Option Bool)) : Content (Option Bool) where
  routing := Actor.Encoding.insertRouting
  payload := some true
  attachments := attachments.map fun v => ("key", v)

/-- A message with two keys is received, parsed and sent back. -/
theorem right_of_safe_twoKeys : ∃ s, Reaches (step flagLibrary) (Safe flagLibrary)
    (init (request [some false, some true])) s ∧ s.buffers.length = 2 ∧ Right flagLibrary s := by
  have hsent : Reaches (step flagLibrary) (Safe flagLibrary)
      (init (request [some false, some true])) _ :=
    .tail Step.send .refl (And.intro rfl (And.intro rfl fun e he => by cases he)) rfl
  have hpayload := Reaches.tail (Step.parsePayload ()) hsent (And.intro rfl rfl) rfl
  have hchain : [some false, some true].IsChain (Replaces flagLibrary) :=
    List.isChain_cons_cons.mpr ⟨rfl, .singleton (some true)⟩
  have hkeys := Reaches.tail (Step.parseAttachment "key" ()) hpayload
    (Or.inr (And.intro (fun _ _ => rfl) hchain)) rfl
  have hback := Reaches.tail Step.send hkeys (And.intro rfl (And.intro rfl (by decide))) rfl
  exact ⟨_, hback, rfl, right_of_safe flagLibrary (request [some false, some true]) hback⟩

/-- A message with a key and an empty key is received, and the keys are parsed: the builder still
holds the first one when it reads the second. -/
theorem not_right_emptyKey :
    ¬ ∀ s, Reaches (step flagLibrary) anyStep (init (request [some true, none])) s →
    Right flagLibrary s := by
  intro hall
  have hsent : Reaches (step flagLibrary) anyStep (init (request [some true, none])) _ :=
    .tail .send .refl trivial rfl
  have hkeys := Reaches.tail (Step.parseAttachment "key" ()) hsent trivial rfl
  have hkey := (hall _ hkeys).attachments "key" List.mem_cons_self
  revert hkey
  decide

end Idgs.Client.Java
