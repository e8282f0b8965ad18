import Mathlib.Data.String.Basic
import Idgs.Common.Multimap
import Idgs.Common.Run
import Idgs.Protobuf.Serdes

/-!
# Encoding actor messages

An `ActorMessage` has its payload and its attachments in two forms: as bytes in the header, a
`RpcMessage`, and as messages. Encoding it serialises what it has as messages into the header and
then the header into a buffer; parsing a buffer gives a header, from which payload and attachments
are read when they are asked for.
-/

namespace Idgs.Actor.Encoding

open List

open Common (Multimap.iterate Multimap.Same)
open Protobuf (SerdesMode Bytes)

/-! ## Messages -/

/-- `pb::ActorId`. -/
structure ActorId where
  actorId : String
  memberId : ℤ
deriving DecidableEq

/-- `pb::TransportChannel`. -/
inductive TransportChannel
  | tcAuto | tcTcp | tcUnicast | tcMulticast
deriving DecidableEq

/-- The fields of a `RpcMessage` but for payload and attachments; the required ones are set. -/
structure Routing where
  destActor : ActorId
  operationName : String
  sourceActor : ActorId
  messageId : Option UInt64 := none
  channel : Option TransportChannel := none
  serdesType : Option SerdesMode := none
  clientActor : Option ActorId := none
  errorMessage : Option String := none
deriving DecidableEq

/-- `pb::RpcMessage`. -/
structure RpcMessage where
  routing : Routing
  payload : Option Bytes := none
  attachments : List (String × Bytes) := []
deriving DecidableEq

/-- `serdes_type`, with its default. -/
def RpcMessage.serdesType (rpc : RpcMessage) : SerdesMode := rpc.routing.serdesType.getD .pbBinary

/-- `ProtoSerdesHelper` for messages of type `μ`, whose types are of type `τ`. What `deserialize`
has read before it fails is in the message too. -/
structure Serdes (τ μ : Type*) where
  serialize : SerdesMode → μ → Bytes
  deserialize : SerdesMode → τ → Bytes → Bool × μ

/-- `ProtoSerdes<DEFAULT_PB_SERDES>` for whole messages, with buffers of type `β`. -/
structure Wire (β : Type*) where
  serialize : RpcMessage → β
  deserializeFromArray : β → Option RpcMessage

/-- `ActorMessage`. The attachments are multimaps, in the order of insertion. -/
structure ActorMessage (μ β : Type*) where
  rpcMessage : RpcMessage
  payload : Option μ := none
  attachments : List (String × μ) := []
  rawAttachments : List (String × Bytes) := []
  rpcBuffer : Option β := none

variable {τ μ β : Type*} (serdes : Serdes τ μ) (wire : Wire β)

namespace ActorMessage

/-- Messages as bytes. -/
def serialized (m : ActorMessage μ β) (attachments : List (String × μ)) : List (String × Bytes) :=
  attachments.map fun e => (e.1, serdes.serialize m.rpcMessage.serdesType e.2)

/-- The header in `ActorMessage::toRpcBuffer`: the payload is added unless there is one, the
attachments always. -/
def encodedHeader (m : ActorMessage μ β) : RpcMessage :=
  { m.rpcMessage with
    payload := match m.rpcMessage.payload with
      | some bytes => some bytes
      | none => m.payload.map (serdes.serialize m.rpcMessage.serdesType)
    attachments :=
      m.rpcMessage.attachments ++ m.serialized serdes (Multimap.iterate m.attachments) }

/-- `ActorMessage::toRpcBuffer`. -/
def toRpcBuffer (m : ActorMessage μ β) : ActorMessage μ β :=
  { m with
    rpcMessage := m.encodedHeader serdes
    rpcBuffer := some (wire.serialize (m.encodedHeader serdes)) }

/-- `ActorMessage::parseRpcBuffer` of a new message with the buffer, with
`extractRawAttachments`. -/
def parseRpcBuffer (buffer : β) : Option (ActorMessage μ β) :=
  (wire.deserializeFromArray buffer).map fun rpc =>
  { rpcMessage := rpc, rawAttachments := rpc.attachments }

/-- The copy constructor. -/
def copy (rhs : ActorMessage μ β) : ActorMessage μ β where
  rpcMessage := rhs.rpcMessage
  payload := rhs.payload
  attachments := rhs.attachments
  rawAttachments := rhs.rpcMessage.attachments

/-- The routing of `createRouteMessage`. -/
def routed (destMemberId : ℤ) (destActorId : String) (r : Routing) : Routing :=
  { r with destActor := { actorId := destActorId, memberId := destMemberId } }

/-- `ActorMessage::createRouteMessage`. -/
def createRouteMessage (destMemberId : ℤ) (destActorId : String) (reloadPayload : Bool)
    (m : ActorMessage μ β) :
    ActorMessage μ β :=
  { m.copy with
    rpcMessage := { m.rpcMessage with
      routing := routed destMemberId destActorId m.rpcMessage.routing
      payload := if reloadPayload then none else m.rpcMessage.payload } }

/-- The routing of `createMulticastMessage`. -/
def multicasted (sourceMemberId : ℤ) (r : Routing) : Routing :=
  { r with
    sourceActor := { r.sourceActor with memberId := sourceMemberId }
    destActor := { r.destActor with memberId := -1 }
    channel := some .tcMulticast }

/-- `ActorMessage::createMulticastMessage`. -/
def createMulticastMessage (sourceMemberId : ℤ) (m : ActorMessage μ β) : ActorMessage μ β :=
  { m.copy with
    rpcMessage := { m.rpcMessage with routing := multicasted sourceMemberId m.rpcMessage.routing } }

/-- `Actor::parse`: the payload is read if there are bytes and it has not been read yet. -/
def parsePayload (type : τ) (m : ActorMessage μ β) : ActorMessage μ β :=
  match m.payload with
  | some _ => m
  | none =>
    match m.rpcMessage.payload with
    | none => m
    | some bytes =>
      if bytes = [] then m
      else { m with payload := some (serdes.deserialize m.rpcMessage.serdesType type bytes).2 }

/-- The attachments that `parseAttachment1` reads: those of the name, if none of them has been read
yet. -/
def readAttachments (name : String) (type : τ) (m : ActorMessage μ β) : List (String × μ) :=
  if m.attachments.any fun e => e.1 = name then []
  else (m.rawAttachments.filter fun e => e.1 = name).filterMap fun e =>
    let read := serdes.deserialize m.rpcMessage.serdesType type e.2
    if read.1 then some (name, read.2) else none

/-- `ActorMessage::parseAttachment1`. -/
def parseAttachment1 (name : String) (type : τ) (m : ActorMessage μ β) : ActorMessage μ β :=
  { m with attachments := m.attachments ++ m.readAttachments serdes name type }

end ActorMessage

/-! ## Histories -/

/-- What a message says: its routing, the bytes of its payload, and its attachments. -/
structure Content where
  routing : Routing
  payload : Bytes
  attachments : List (String × Bytes)

/-- A message and what it is to say. -/
structure State (μ β : Type*) where
  message : ActorMessage μ β
  content : Content

/-- A message that an application has made: with a payload, with attachments that are messages and
with attachments that are bytes, which are in the header at once. -/
def made (routing : Routing) (payload : Option μ) (attachments : List (String × μ))
    (raw : List (String × Bytes)) :
    ActorMessage μ β where
  rpcMessage := { routing := routing, attachments := raw }
  payload := payload
  attachments := attachments
  rawAttachments := raw

/-- The message at the beginning, and what it says. -/
def init (routing : Routing) (payload : Option μ) (attachments : List (String × μ))
    (raw : List (String × Bytes)) :
    State μ β :=
  let message : ActorMessage μ β := made routing payload attachments raw
  { message := message
    content :=
      { routing := routing
        payload := (payload.map (serdes.serialize message.rpcMessage.serdesType)).getD []
        attachments := raw ++ message.serialized serdes attachments } }

/-- Steps: the payload or an attachment is read; the message is copied, routed or multicast, and the
history goes on with the copy; it is encoded; it is encoded and parsed, and the history goes on with
what was parsed. -/
inductive Step (τ : Type*)
  | parsePayload (type : τ)
  | parseAttachment1 (name : String) (type : τ)
  | copy
  | createRouteMessage (destMemberId : ℤ) (destActorId : String) (reloadPayload : Bool)
  | createMulticastMessage (sourceMemberId : ℤ)
  | toRpcBuffer
  | send

/-- One step. -/
def step (s : State μ β) : Step τ → Option (State μ β)
  | .parsePayload type => some { s with message := s.message.parsePayload serdes type }
  | .parseAttachment1 name type =>
    some { s with message := s.message.parseAttachment1 serdes name type }
  | .copy => some { s with message := s.message.copy }
  | .createRouteMessage destMemberId destActorId reloadPayload =>
    some
      { message := s.message.createRouteMessage destMemberId destActorId reloadPayload
        content := { s.content with
          routing := ActorMessage.routed destMemberId destActorId s.content.routing } }
  | .createMulticastMessage sourceMemberId =>
    some
      { message := s.message.createMulticastMessage sourceMemberId
        content :=
          { s.content with
            routing := ActorMessage.multicasted sourceMemberId s.content.routing } }
  | .toRpcBuffer => some { s with message := s.message.toRpcBuffer serdes wire }
  | .send =>
    (ActorMessage.parseRpcBuffer wire (wire.serialize (s.message.encodedHeader serdes))).map
      fun message =>
      { s with message := message }

/-- Encoded now, the message gives a buffer that is parsed to a message with the same content. -/
def Decodes (s : State μ β) : Prop :=
  ∃ buffer, (s.message.toRpcBuffer serdes wire).rpcBuffer = some buffer ∧
    ∃ m' : ActorMessage μ β, ActorMessage.parseRpcBuffer wire buffer = some m' ∧
      m'.rpcMessage.routing = s.content.routing ∧
      m'.rpcMessage.payload.getD [] = s.content.payload ∧
      Multimap.Same m'.rawAttachments s.content.attachments

/-- Nothing is held twice and nothing lost: a message is encoded and kept only if it holds no
attachment as a message; no attachment is read from the raw ones; and a route that reloads the
payload finds the payload as a message that is serialised to the bytes in the header. -/
def Safe (s : State μ β) : Step τ → Prop
  | .parseAttachment1 name type => s.message.readAttachments serdes name type = []
  | .createRouteMessage _ _ reloadPayload => reloadPayload = true →
      ∀ bytes, s.message.rpcMessage.payload = some bytes →
      (s.message.payload.map (serdes.serialize s.message.rpcMessage.serdesType)).getD [] = bytes
  | .toRpcBuffer => s.message.attachments = []
  | _ => True

variable {serdes wire}

/-! ## The header that is sent -/

/-- The header says what the content is. -/
structure Says (rpc : RpcMessage) (c : Content) : Prop where
  routing : rpc.routing = c.routing
  payload : rpc.payload.getD [] = c.payload
  attachments : Multimap.Same rpc.attachments c.attachments

/-- A header that was sent is the header of the message that is parsed. -/
theorem parseRpcBuffer_serialize
    (hwire : ∀ rpc, wire.deserializeFromArray (wire.serialize rpc) = some rpc) (rpc : RpcMessage) :
    ActorMessage.parseRpcBuffer (μ := μ) wire (wire.serialize rpc) =
      some { rpcMessage := rpc, rawAttachments := rpc.attachments } := by
  unfold ActorMessage.parseRpcBuffer
  rw [hwire]
  rfl

/-- With buffers that are read back, what counts is the header that is sent. -/
theorem decodes_iff (hwire : ∀ rpc, wire.deserializeFromArray (wire.serialize rpc) = some rpc)
    (s : State μ β) :
    Decodes serdes wire s ↔ Says (s.message.encodedHeader serdes) s.content := by
  have hparse := parseRpcBuffer_serialize (μ := μ) hwire (s.message.encodedHeader serdes)
  constructor
  · rintro ⟨buffer, hbuffer, m', hm', hrouting, hpayload, hattachments⟩
    obtain rfl := Option.some.inj hbuffer
    rw [hparse] at hm'
    obtain rfl := Option.some.inj hm'
    exact ⟨hrouting, hpayload, hattachments⟩
  · intro hsaid
    exact ⟨_, rfl, _, hparse, hsaid.routing, hsaid.payload, hsaid.attachments⟩

/-- Reading the payload changes nothing: the bytes stay in the header. -/
theorem encodedHeader_parsePayload (m : ActorMessage μ β) (type : τ) :
    (m.parsePayload serdes type).encodedHeader serdes = m.encodedHeader serdes := by
  unfold ActorMessage.parsePayload
  cases hread : m.payload with
  | some payload => rfl
  | none =>
    cases hbytes : m.rpcMessage.payload with
    | none => rfl
    | some bytes =>
      by_cases hempty : bytes = []
      · simp only [if_pos hempty]
      · simp only [if_neg hempty, ActorMessage.encodedHeader, hbytes]
        rfl

/-- What was parsed is sent as it was received. -/
theorem encodedHeader_parsed (rpc : RpcMessage) :
    ({ rpcMessage := rpc, rawAttachments := rpc.attachments } : ActorMessage μ β).encodedHeader
    serdes = rpc := by
  obtain ⟨routing, payload, attachments⟩ := rpc
  have hnone : Multimap.iterate ([] : List (String × μ)) = [] := mergeSort_nil
  unfold ActorMessage.encodedHeader ActorMessage.serialized
  simp only [hnone, map_nil, append_nil]
  cases payload <;> rfl

section

variable (m : ActorMessage μ β)

/-- Encoded again, the header has all attachments that are messages once more. -/
theorem encodedHeader_toRpcBuffer :
    (m.toRpcBuffer serdes wire).encodedHeader serdes =
      { m.encodedHeader serdes with
        attachments := (m.encodedHeader serdes).attachments ++
          m.serialized serdes (Multimap.iterate m.attachments) } := by
  obtain ⟨⟨routing, bytes, raw⟩, payload, attachments, rawAttachments, rpcBuffer⟩ := m
  cases bytes with
  | some bytes => rfl
  | none => cases payload <;> rfl

theorem encodedHeader_createMulticastMessage (sourceMemberId : ℤ) :
    (m.createMulticastMessage sourceMemberId).encodedHeader serdes =
      { m.encodedHeader serdes with
        routing := ActorMessage.multicasted sourceMemberId m.rpcMessage.routing } := rfl

theorem encodedHeader_createRouteMessage (destMemberId : ℤ)
    (destActorId : String) (reloadPayload : Bool) :
    (m.createRouteMessage destMemberId destActorId reloadPayload).encodedHeader serdes =
      { m.encodedHeader serdes with
        routing := ActorMessage.routed destMemberId destActorId m.rpcMessage.routing
        payload := if reloadPayload then m.payload.map (serdes.serialize m.rpcMessage.serdesType)
          else (m.encodedHeader serdes).payload } := by
  cases reloadPayload <;> rfl

end

/-- The attachments that are messages, in the order of their insertion. -/
theorem same_encodedHeader (serdes : Serdes τ μ) (m : ActorMessage μ β) :
    Multimap.Same (m.encodedHeader serdes).attachments
      (m.rpcMessage.attachments ++ m.serialized serdes m.attachments) :=
  (Common.Multimap.Same.refl _).append ((Common.Multimap.same_iterate m.attachments).map _)

theorem serialized_eq_nil {m : ActorMessage μ β} {attachments : List (String × μ)} :
    m.serialized serdes attachments = [] ↔ attachments = [] := map_eq_nil_iff

theorem iterate_eq_nil {l : List (String × μ)} : Multimap.iterate l = [] ↔ l = [] := by
  unfold Multimap.iterate
  rw [← length_eq_zero_iff, length_mergeSort, length_eq_zero_iff]

/-! ## Every step -/

/-- After a step the message still says what it is to say exactly when the step is safe. -/
theorem says_step_iff (hwire : ∀ rpc, wire.deserializeFromArray (wire.serialize rpc) = some rpc)
    {s s' : State μ β} {a : Step τ} (hsaid : Says (s.message.encodedHeader serdes) s.content)
    (hstep : step serdes wire s a = some s') :
    Says (s'.message.encodedHeader serdes) s'.content ↔ Safe serdes s a := by
  have hrouting : s.message.rpcMessage.routing = s.content.routing := hsaid.routing
  cases a with
  | parsePayload type =>
    cases hstep
    simp only [encodedHeader_parsePayload]
    exact iff_of_true hsaid trivial
  | parseAttachment1 name type =>
    cases hstep
    -- the header has the attachments that are read already
    have hsame := same_encodedHeader serdes (s.message.parseAttachment1 serdes name type)
    have hsplit : (s.message.parseAttachment1 serdes name type).rpcMessage.attachments ++
        (s.message.parseAttachment1 serdes name type).serialized serdes
          (s.message.parseAttachment1 serdes name type).attachments =
        (s.message.rpcMessage.attachments ++ s.message.serialized serdes s.message.attachments) ++
          s.message.serialized serdes (s.message.readAttachments serdes name type) := by
      rw [append_assoc]
      exact congrArg _ map_append
    rw [hsplit] at hsame
    have hheld := (same_encodedHeader serdes s.message).symm.trans hsaid.attachments
    constructor
    · intro hafter
      by_contra hread
      have hmore : s.message.serialized serdes (s.message.readAttachments serdes name type) ≠
          [] :=
        fun hnil => hread (serialized_eq_nil.mp hnil)
      exact Common.Multimap.not_same_append hheld hmore (hsame.symm.trans hafter.attachments)
    · intro hsafe
      have hnil : s.message.readAttachments serdes name type = [] := hsafe
      rw [hnil] at hsame
      refine ⟨hsaid.routing, hsaid.payload, hsame.trans ?_⟩
      rw [serialized_eq_nil.mpr rfl, append_nil]
      exact hheld
  | copy =>
    cases hstep
    exact iff_of_true hsaid trivial
  | createRouteMessage destMemberId destActorId reloadPayload =>
    cases hstep
    simp only [encodedHeader_createRouteMessage]
    have hbefore := hsaid.payload
    constructor
    · intro hafter hreload bytes hbytes
      have hpayload := hafter.payload
      simp only [hreload, if_true] at hpayload
      rw [hpayload, ← hbefore]
      simp only [ActorMessage.encodedHeader, hbytes, Option.getD_some]
    · intro hsafe
      refine ⟨congrArg (ActorMessage.routed destMemberId destActorId) hrouting, ?_,
        hsaid.attachments⟩
      cases reloadPayload with
      | false => exact hbefore
      | true =>
        simp only [if_true]
        cases hbytes : s.message.rpcMessage.payload with
        | none =>
          simp only [ActorMessage.encodedHeader, hbytes] at hbefore
          exact hbefore
        | some bytes =>
          simp only [ActorMessage.encodedHeader, hbytes, Option.getD_some] at hbefore
          rw [hsafe rfl bytes hbytes, hbefore]
  | createMulticastMessage sourceMemberId =>
    cases hstep
    simp only [encodedHeader_createMulticastMessage]
    have hmulticast := congrArg (ActorMessage.multicasted sourceMemberId) hrouting
    exact iff_of_true ⟨hmulticast, hsaid.payload, hsaid.attachments⟩ trivial
  | toRpcBuffer =>
    cases hstep
    simp only [encodedHeader_toRpcBuffer]
    constructor
    · intro hafter
      by_contra hsome
      have hmore : s.message.serialized serdes (Multimap.iterate s.message.attachments) ≠ [] :=
        fun hnil => hsome (iterate_eq_nil.mp (serialized_eq_nil.mp hnil))
      exact Common.Multimap.not_same_append hsaid.attachments hmore hafter.attachments
    · intro hsafe
      have hnil : Multimap.iterate s.message.attachments = [] := iterate_eq_nil.mpr hsafe
      rw [hnil, serialized_eq_nil.mpr rfl, append_nil]
      exact hsaid
  | send =>
    simp only [step, parseRpcBuffer_serialize hwire, Option.map_some] at hstep
    cases hstep
    simp only [encodedHeader_parsed]
    exact iff_of_true hsaid trivial

theorem says_init (routing : Routing) (payload : Option μ) (attachments : List (String × μ))
    (raw : List (String × Bytes)) :
    Says ((init (β := β) serdes routing payload attachments raw).message.encodedHeader serdes)
      (init (β := β) serdes routing payload attachments raw).content :=
  ⟨rfl, rfl, same_encodedHeader serdes _⟩

/-- **When messages are re-encoded safely.** In every history whose steps are all safe, of every
message that an application makes, the message can be encoded and is decoded to the same content in
every state; and a step from there keeps this only if it is safe. -/
theorem decodes_of_safe (serdes : Serdes τ μ) (wire : Wire β)
    (hwire : ∀ rpc, wire.deserializeFromArray (wire.serialize rpc) = some rpc) (routing : Routing)
    (payload : Option μ) (attachments : List (String × μ)) (raw : List (String × Bytes))
    {s : State μ β}
    (hrun : Common.Reaches (step serdes wire) (Safe serdes)
      (init serdes routing payload attachments raw) s) :
    Decodes serdes wire s ∧
      ∀ a s', step serdes wire s a = some s' → (Decodes serdes wire s' ↔ Safe serdes s a) := by
  have hsaid : Says (s.message.encodedHeader serdes) s.content :=
    hrun.invariant (P := fun s => Says (s.message.encodedHeader serdes) s.content)
      (says_init routing payload attachments raw)
      fun t a t' ht hsafe hstep => (says_step_iff hwire ht hstep).mpr hsafe
  refine ⟨(decodes_iff hwire s).mpr hsaid, fun a s' hstep => ?_⟩
  rw [decodes_iff hwire]
  exact says_step_iff hwire hsaid hstep

/-- Messages with one optional `bool` field, in binary. -/
def flagSerdes : Serdes Unit (Option Bool) where
  serialize _
    | none => []
    | some flag => [8, if flag then 1 else 0]
  deserialize _ _
    | [] => (true, none)
    | [8, 0] => (true, some false)
    | [8, 1] => (true, some true)
    | _ => (false, none)

/-- Buffers that are read back. -/
def plainWire : Wire RpcMessage where
  serialize := id
  deserializeFromArray := some

/-- A request to a store. -/
def insertRouting : Routing where
  destActor := { actorId := "store_service", memberId := 1 }
  operationName := "INSERT"
  sourceActor := { actorId := "client", memberId := 0 }

/-- The request with a payload and a key. -/
def insertRequest : State (Option Bool) RpcMessage :=
  init flagSerdes insertRouting (some (some true)) [("key", some false)] []

/-- The request as it is received. -/
def receivedRequest : State (Option Bool) RpcMessage where
  message :=
    { rpcMessage := insertRequest.message.encodedHeader flagSerdes
      rawAttachments := (insertRequest.message.encodedHeader flagSerdes).attachments }
  content := insertRequest.content

/-- A request that was received can be encoded again and again. -/
theorem decodes_received :
    Decodes flagSerdes plainWire
      { receivedRequest with
        message := receivedRequest.message.toRpcBuffer flagSerdes plainWire } := by
  have hsend : Common.Reaches (step flagSerdes plainWire) (Safe flagSerdes)
      (init flagSerdes insertRouting (some (some true)) [("key", some false)] []) receivedRequest :=
    .tail .send .refl trivial rfl
  exact (decodes_of_safe flagSerdes plainWire (fun _ => rfl) insertRouting (some (some true))
    [("key", some false)] [] (hsend.tail .toRpcBuffer rfl rfl)).1

/-- One that an application has made cannot be encoded twice: the second time it has its key
twice. -/
theorem not_decodes :
    ¬ ∀ s, Common.Reaches (step flagSerdes plainWire) Common.anyStep insertRequest s →
    Decodes flagSerdes plainWire s := by
  intro hall
  have hencoded : step flagSerdes plainWire insertRequest .toRpcBuffer =
      some { insertRequest with
        message := insertRequest.message.toRpcBuffer flagSerdes plainWire } := rfl
  have hdecodes := hall _ (.tail .toRpcBuffer .refl trivial hencoded)
  rw [decodes_iff fun _ => rfl] at hdecodes
  have hsafe :=
    (says_step_iff (fun _ =>
    rfl) (says_init insertRouting (some (some true)) [("key", some false)] [])
    hencoded).mp hdecodes
  cases hsafe

end Idgs.Actor.Encoding
