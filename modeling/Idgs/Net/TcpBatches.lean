import Idgs.Common.Frame
import Mathlib.Algebra.GroupWithZero.Nat
import Mathlib.Algebra.Order.BigOperators.Group.List
import Mathlib.Algebra.Order.Group.Nat
import Mathlib.Data.List.TakeWhile

/-!
# Batches on the connections between members

A connection takes up to a batch of messages from its queue and writes them under one length, each
with its own header in front. The receiver reads a length and as many bytes, and walks over the
inner headers to take the messages apart. The length field has 32 bits, but the receiver allocates
the body with an `int`; and it reads an inner header wherever bytes are left, although fewer than
those of a header may be.
-/

namespace Idgs.Net.TcpBatches

open List

open Common (HasFrame afterFrame firstBody frame headerLength leBytes ofLeBytes splitFrames)

/-! ## The code -/

/-- `RpcBuffer`: the size in the header, and the byte buffer, whose capacity it is. -/
structure RpcBuffer where
  size : ℕ
  byteBuffer : List UInt8
  size_eq : size = byteBuffer.length
deriving DecidableEq

/-- A message with this body. -/
def RpcBuffer.ofBody (bytes : List UInt8) : RpcBuffer := ⟨bytes.length, bytes, rfl⟩

/-- The loop of `InnerTcpConnection::realSendMessage` that pops messages while `available` ones can
be popped: the message list, and what stays in the queue. -/
def popBatch (batchSize : ℕ) (messageList : List RpcBuffer) :
    ℕ → List RpcBuffer → List RpcBuffer × List RpcBuffer
  | 0, queue => (messageList, queue)
  | _ + 1, [] => (messageList, [])
  | available + 1, msg :: queue =>
    if batchSize ≤ (messageList ++ [msg]).length then (messageList ++ [msg], queue)
    else popBatch batchSize (messageList ++ [msg]) available queue

/-- `SendMessagesHolder::total_length`, before it is cut off to 32 bits. -/
def totalLength (messageList : List RpcBuffer) : ℕ :=
  (messageList.map fun msg => headerLength + msg.size).sum

/-- The bytes that are written for some messages. -/
def outBuffers (messageList : List RpcBuffer) : List UInt8 :=
  leBytes 4 (totalLength messageList) ++ messageList.flatMap fun msg =>
    leBytes 4 msg.size ++ msg.byteBuffer

/-- `InnerTcpConnection::realSendMessage` again and again: the message lists that are written, and
what stays in the queue. Nothing is written when nothing was popped. -/
def realSendMessage (batchSize : ℕ) :
    List ℕ → List RpcBuffer → List (List RpcBuffer) × List RpcBuffer
  | [], queue => ([], queue)
  | n :: available, queue =>
    let popped := popBatch batchSize [] n queue
    let rest := realSendMessage batchSize available popped.2
    (if popped.1 = [] then rest.1 else popped.1 :: rest.1, rest.2)

/-- Bytes that the receiver looks at in a body of so many bytes: an inner header, or the body of a
message. -/
structure Slice where
  offset : ℕ
  length : ℕ
  received : ℕ
deriving DecidableEq

/-- Why no more bytes are read: `LOG(FATAL)`, a header that reaches past the body, or a body that
cannot be allocated. -/
inductive Stop
  | fatal | overrun | allocation
deriving DecidableEq

/-- What the receiver has done. -/
structure Reception where
  messages : List RpcBuffer := []
  slices : List Slice := []
  stopped : Option Stop := none

/-- `InnerTcpConnection::handleRecvBody` from a position on. Nothing is defined after a header that
reaches past the body. -/
def handleRecvBody (body : List UInt8) (pos : ℕ) : Reception :=
  if pos < body.length then
    let header : Slice := ⟨pos, headerLength, body.length⟩
    if pos + headerLength ≤ body.length then
      let size := ofLeBytes ((body.drop pos).take headerLength)
      if hsize : pos + headerLength + size ≤ body.length then
        let rest := handleRecvBody body (pos + headerLength + size)
        { messages := ⟨size, (body.drop (pos + headerLength)).take size, by simp; omega⟩ ::
          rest.messages
          slices := header :: ⟨pos + headerLength, size, body.length⟩ :: rest.slices
          stopped := rest.stopped }
      else { slices := [header], stopped := some .fatal }
    else { slices := [header], stopped := some .overrun }
  else {}
termination_by body.length - pos
decreasing_by unfold headerLength at *; omega

/-- `startRecvHeader`, `handleRecvHeader` and `handleRecvBody` on all bytes that arrive.
`ByteBuffer::allocate` takes an `int`. -/
def receive (stream : List UInt8) : Reception :=
  if headerLength ≤ stream.length then
    if 2 ^ 31 ≤ ofLeBytes (stream.take headerLength) then { stopped := some .allocation }
    else if h : HasFrame stream then
      let read := handleRecvBody (firstBody stream) 0
      if read.stopped = none then
        let rest := receive (afterFrame stream)
        { messages := read.messages ++ rest.messages, slices := read.slices ++ rest.slices,
          stopped := rest.stopped }
      else read
    else {}
  else {}
termination_by stream.length
decreasing_by exact Common.length_afterFrame_lt h

/-! ## What is promised -/

/-- The slice lies in what was received. -/
def Slice.Inside (slice : Slice) : Prop := slice.offset + slice.length ≤ slice.received

instance (slice : Slice) : Decidable slice.Inside := inferInstanceAs (Decidable (_ ≤ _))

/-- The receiver has the messages that have left the queue, in their order. -/
def Transparent (batchSize : ℕ) (available : List ℕ) (queue : List RpcBuffer) : Prop :=
  let sent := realSendMessage batchSize available queue
  (receive (sent.1.flatMap outBuffers)).messages ++ sent.2 = queue

/-- The bodies that are allocated. -/
def bodies (stream : List UInt8) : List (List UInt8) :=
  (splitFrames stream).1.takeWhile fun body => body.length < 2 ^ 31

/-- The first body that is not made of whole messages has a whole header after them. -/
def HeadersWhole (stream : List UInt8) : Prop :=
  ∀ body, (bodies stream).find? (fun body => (splitFrames body).2 ≠ []) = some body →
    headerLength ≤ (splitFrames body).2.length

/-! ## Walking over a body -/

/-- Why the receiver stops when these bytes are left of a body. -/
def stopAt (left : List UInt8) : Option Stop :=
  if left = [] then none else if left.length < headerLength then some .overrun else some .fatal

theorem stopAt_eq_none {left : List UInt8} : stopAt left = none ↔ left = [] := by
  unfold stopAt
  split
  · simp [*]
  · split <;> simp [*]

theorem RpcBuffer.eq_ofBody (msg : RpcBuffer) : msg = .ofBody msg.byteBuffer := by
  obtain ⟨size, bytes, rfl⟩ := msg
  rfl

/-- A body is taken apart into its whole frames, and the receiver stops at what is left of it. -/
theorem handleRecvBody_spec (body : List UInt8) (pos : ℕ) :
    (handleRecvBody body pos).messages = (splitFrames (body.drop pos)).1.map RpcBuffer.ofBody ∧
      (handleRecvBody body pos).stopped = stopAt (splitFrames (body.drop pos)).2 ∧
      ((∀ slice ∈ (handleRecvBody body pos).slices, slice.Inside) ↔
        (splitFrames (body.drop pos)).2 = [] ∨
        headerLength ≤ (splitFrames (body.drop pos)).2.length) := by
  -- on the bytes that are left; each message takes a header at least
  fun_induction handleRecvBody body pos with
  | case1 pos hpos header hheader size hsize rest ih =>
    have hframe : HasFrame (body.drop pos) := by
      unfold HasFrame
      rw [length_drop]
      omega
    have hafter : afterFrame (body.drop pos) = body.drop (pos + headerLength + size) := by
      unfold afterFrame
      rw [drop_drop, Nat.add_assoc]
    have hfirst : firstBody (body.drop pos) = (body.drop (pos + headerLength)).take size := by
      unfold firstBody
      rw [drop_drop]
    obtain ⟨hmessages, hstopped, hslices⟩ := ih
    rw [Common.splitFrames_of_hasFrame hframe, hafter, hfirst]
    refine ⟨?_, hstopped, ?_⟩
    · rw [map_cons, ← hmessages]
      exact congrArg (· :: rest.messages) (RpcBuffer.eq_ofBody _)
    · rw [← hslices]
      have hinside : header.Inside := hheader
      have hinside' : Slice.Inside ⟨pos + headerLength, size, body.length⟩ := hsize
      simp only [forall_mem_cons, hinside, hinside', true_and]
      rfl
  | case2 pos hpos header hheader size hsize =>
    have hframe : ¬HasFrame (body.drop pos) := by
      intro hframe
      have hlength := hframe.2
      rw [length_drop] at hlength
      omega
    have hlength : (body.drop pos).length = body.length - pos := length_drop
    have hinside : header.Inside := hheader
    rw [Common.splitFrames_of_not_hasFrame hframe]
    refine ⟨rfl, ?_, ?_⟩
    · change _ = stopAt (body.drop pos)
      unfold stopAt
      rw [if_neg (ne_nil_of_length_pos (by omega)), if_neg (by omega)]
    · simp only [forall_mem_singleton, hinside, true_iff]
      right
      omega
  | case3 pos hpos header hheader =>
    have hframe : ¬HasFrame (body.drop pos) := by
      intro hframe
      have hlength := hframe.1
      rw [length_drop] at hlength
      omega
    have hlength : (body.drop pos).length = body.length - pos := length_drop
    have hne : body.drop pos ≠ [] := ne_nil_of_length_pos (by omega)
    have hinside : ¬header.Inside := hheader
    rw [Common.splitFrames_of_not_hasFrame hframe]
    refine ⟨rfl, ?_, ?_⟩
    · change _ = stopAt (body.drop pos)
      unfold stopAt
      rw [if_neg hne, if_pos (by omega)]
    · simp only [forall_mem_singleton, hinside, hne, false_or, false_iff]
      omega
  | case4 pos hpos =>
    rw [drop_of_length_le (by omega), Common.splitFrames_of_not_hasFrame Common.not_hasFrame_nil]
    exact ⟨rfl, rfl, by simp⟩

/-! ## What was written is received -/

/-- What is written for some messages, after the length. -/
def payload (messageList : List RpcBuffer) : List UInt8 :=
  (messageList.map RpcBuffer.byteBuffer).flatMap frame

theorem length_payload (messageList : List RpcBuffer) :
    (payload messageList).length = totalLength messageList := by
  unfold payload totalLength
  induction messageList with
  | nil => rfl
  | cons msg messageList ih =>
    rw [map_cons, flatMap_cons, length_append, ih, map_cons, sum_cons,
      Common.length_frame, msg.size_eq]

/-- What is written is one frame of frames. -/
theorem outBuffers_eq (messageList : List RpcBuffer) :
    outBuffers messageList = frame (payload messageList) := by
  unfold outBuffers frame
  rw [length_payload]
  congr 1
  unfold payload
  rw [flatMap_map]
  refine flatMap_congr fun msg _ => ?_
  rw [msg.size_eq]
  rfl

theorem length_byteBuffer_le {messageList : List RpcBuffer} {msg : RpcBuffer}
    (hmsg : msg ∈ messageList) :
    msg.byteBuffer.length ≤ totalLength messageList := by
  have hle : headerLength + msg.size ≤ totalLength messageList :=
    single_le_sum (fun _ _ => Nat.zero_le _) _ (mem_map_of_mem hmsg)
  have hsize := msg.size_eq
  omega

/-- The frames of a payload are the messages. -/
theorem splitFrames_payload {messageList : List RpcBuffer}
    (hfits : totalLength messageList < 2 ^ 32) :
    splitFrames (payload messageList) = (messageList.map RpcBuffer.byteBuffer, []) := by
  have hbodies : ∀ body ∈ messageList.map RpcBuffer.byteBuffer, body.length < 256 ^ 4 := by
    intro body hbody
    obtain ⟨msg, hmsg, rfl⟩ := mem_map.mp hbody
    have hle := length_byteBuffer_le hmsg
    omega
  have hsplit := Common.splitFrames_flatMap hbodies []
  rw [append_nil, Common.splitFrames_of_not_hasFrame Common.not_hasFrame_nil] at hsplit
  rw [payload, hsplit, append_nil]

/-- A write that can be allocated is received, one that cannot ends the receiving. -/
theorem receive_outBuffers {messageList : List RpcBuffer} (hfits : totalLength messageList < 2 ^ 32)
    (rest : List UInt8) :
    (totalLength messageList < 2 ^ 31 →
        (receive (outBuffers messageList ++ rest)).messages =
          messageList ++ (receive rest).messages ∧
          (receive (outBuffers messageList ++ rest)).stopped = (receive rest).stopped) ∧
      (2 ^ 31 ≤ totalLength messageList →
        (receive (outBuffers messageList ++ rest)).messages = [] ∧
          (receive (outBuffers messageList ++ rest)).stopped = some .allocation) := by
  have hbody : (payload messageList).length < 256 ^ 4 := by
    rw [length_payload]
    omega
  have hsize : ofLeBytes ((frame (payload messageList) ++ rest).take headerLength) =
      totalLength messageList := by
    rw [Common.take_headerLength_frame, Common.ofLeBytes_leBytes hbody, length_payload]
  have hlength : (frame (payload messageList) ++ rest).length =
      headerLength + totalLength messageList + rest.length := by
    rw [length_append, Common.length_frame, length_payload]
  have hframe : HasFrame (frame (payload messageList) ++ rest) := by
    unfold HasFrame
    rw [hsize]
    omega
  have hsplit := Common.splitFrames_frame hbody rest
  rw [Common.splitFrames_of_hasFrame hframe, Prod.mk.injEq, List.cons.injEq] at hsplit
  have hfirst : firstBody (frame (payload messageList) ++ rest) = payload messageList := hsplit.1.1
  have hafter : afterFrame (frame (payload messageList) ++ rest) = rest := by
    unfold afterFrame
    rw [hsize, ← length_payload, ← Common.length_frame]
    exact drop_left
  obtain ⟨hmessages, hstopped, -⟩ := handleRecvBody_spec (payload messageList) 0
  rw [drop_zero, splitFrames_payload hfits] at hmessages hstopped
  have hid : (messageList.map RpcBuffer.byteBuffer).map RpcBuffer.ofBody = messageList := by
    rw [map_map]
    exact map_id'' (fun msg => (RpcBuffer.eq_ofBody msg).symm) messageList
  rw [outBuffers_eq, receive, if_pos (by omega), hsize]
  constructor
  · intro hsmall
    rw [if_neg (by omega), dif_pos hframe, hfirst, hafter]
    simp only [hmessages, hstopped, hid, stopAt, if_true, and_self]
  · intro hlarge
    rw [if_pos hlarge]
    exact ⟨rfl, rfl⟩

/-- Of some writes the receiver has the messages of those before the first one that cannot be
allocated. -/
theorem messages_receive {groups : List (List RpcBuffer)}
    (hfits : ∀ group ∈ groups, totalLength group < 2 ^ 32) :
    (receive (groups.flatMap outBuffers)).messages =
      (groups.takeWhile fun group => totalLength group < 2 ^ 31).flatten := by
  induction groups with
  | nil => rw [flatMap_nil, receive, if_neg (by decide)]; rfl
  | cons group groups ih =>
    obtain ⟨hsmall, hlarge⟩ :=
      receive_outBuffers (hfits group mem_cons_self) (groups.flatMap outBuffers)
    rw [flatMap_cons]
    by_cases hlt : totalLength group < 2 ^ 31
    · rw [(hsmall hlt).1, ih fun other hother => hfits other (mem_cons_of_mem _ hother),
        takeWhile_cons_of_pos (by simpa using hlt)]
      rfl
    · rw [(hlarge (by omega)).1, takeWhile_cons_of_neg (by simpa using hlt)]
      rfl

/-! ## The sender's groups -/

/-- Messages are popped from the front of the queue. -/
theorem popBatch_append (batchSize available : ℕ) (messageList queue : List RpcBuffer) :
    (popBatch batchSize messageList available queue).1 ++
    (popBatch batchSize messageList available queue).2 =
      messageList ++ queue := by
  induction available generalizing messageList queue with
  | zero => rw [popBatch]
  | succ available ih =>
    cases queue with
    | nil => rw [popBatch]
    | cons msg queue =>
      rw [popBatch]
      split
      · exact append_cons messageList msg queue ▸ rfl
      · rw [ih]
        exact (append_cons messageList msg queue).symm

/-- The groups are not empty, and with what stays in the queue they are the queue. -/
theorem realSendMessage_spec (batchSize : ℕ) (available : List ℕ) (queue : List RpcBuffer) :
    (∀ group ∈ (realSendMessage batchSize available queue).1, group ≠ []) ∧
      (realSendMessage batchSize available queue).1.flatten ++
      (realSendMessage batchSize available queue).2 =
        queue := by
  induction available generalizing queue with
  | nil => exact ⟨fun _ h => absurd h not_mem_nil, rfl⟩
  | cons n available ih =>
    obtain ⟨hne, hflatten⟩ := ih (popBatch batchSize [] n queue).2
    have hpopped := popBatch_append batchSize n [] queue
    rw [nil_append] at hpopped
    rw [realSendMessage]
    by_cases hempty : (popBatch batchSize [] n queue).1 = []
    · simp only [if_pos hempty]
      refine ⟨hne, hflatten.trans ?_⟩
      rwa [hempty, nil_append] at hpopped
    · simp only [if_neg hempty, forall_mem_cons, flatten_cons, append_assoc]
      refine ⟨⟨hempty, hne⟩, ?_⟩
      rw [hflatten, hpopped]

/-- Why no slice of a body reaches past it, in terms of what is left after its whole frames. -/
theorem inside_handleRecvBody (body : List UInt8) :
    (∀ slice ∈ (handleRecvBody body 0).slices, slice.Inside) ↔
      ((splitFrames body).2 ≠ [] → headerLength ≤ (splitFrames body).2.length) := by
  have hspec := (handleRecvBody_spec body 0).2.2
  rw [drop_zero] at hspec
  rw [hspec, or_iff_not_imp_left]

theorem stopped_handleRecvBody (body : List UInt8) :
    (handleRecvBody body 0).stopped = none ↔ (splitFrames body).2 = [] := by
  have hspec := (handleRecvBody_spec body 0).2.1
  rw [drop_zero] at hspec
  rw [hspec, stopAt_eq_none]

theorem length_firstBody {stream : List UInt8} (hframe : HasFrame stream) :
    (firstBody stream).length = ofLeBytes (stream.take headerLength) := by
  have hwhole := hframe.2
  unfold firstBody
  rw [length_take, length_drop]
  omega

/-- The bodies of a stream whose first frame is there and can be allocated. -/
theorem bodies_of_hasFrame {stream : List UInt8} (hframe : HasFrame stream)
    (hsmall : ofLeBytes (stream.take headerLength) < 2 ^ 31) :
    bodies stream = firstBody stream :: bodies (afterFrame stream) := by
  unfold bodies
  rw [Common.splitFrames_of_hasFrame hframe, takeWhile_cons_of_pos]
  rw [decide_eq_true_eq, length_firstBody hframe]
  exact hsmall

theorem bodies_of_large {stream : List UInt8}
    (hlarge : 2 ^ 31 ≤ ofLeBytes (stream.take headerLength)) :
    bodies stream = [] := by
  unfold bodies
  by_cases hframe : HasFrame stream
  · rw [Common.splitFrames_of_hasFrame hframe, takeWhile_cons_of_neg]
    rw [decide_eq_true_eq, length_firstBody hframe]
    omega
  · rw [Common.splitFrames_of_not_hasFrame hframe, takeWhile_nil]

theorem bodies_of_not_hasFrame {stream : List UInt8} (hframe : ¬HasFrame stream) :
    bodies stream = [] := by
  unfold bodies
  rw [Common.splitFrames_of_not_hasFrame hframe, takeWhile_nil]

theorem headersWhole_of_bodies_nil {stream : List UInt8} (hnil : bodies stream = []) :
    HeadersWhole stream := by
  intro body hbody
  rw [hnil, find?_nil] at hbody
  cases hbody

/-- No header reaches past a body if and only if the first body that is not whole messages has one
after them. -/
theorem inside_receive (stream : List UInt8) :
    (∀ slice ∈ (receive stream).slices, slice.Inside) ↔ HeadersWhole stream := by
  -- on the frames that are received
  fun_induction receive stream with
  | case1 stream hheader hlarge =>
    exact iff_of_true (fun _ hslice => absurd hslice not_mem_nil)
      (headersWhole_of_bodies_nil (bodies_of_large hlarge))
  | case2 stream hheader hsmall hframe read hgoes rest ih =>
    have hwhole : (splitFrames (firstBody stream)).2 = [] := (stopped_handleRecvBody _).mp hgoes
    have hinside : ∀ slice ∈ read.slices, slice.Inside :=
      (inside_handleRecvBody _).mpr fun hne => absurd hwhole hne
    unfold HeadersWhole at ih ⊢
    rw [bodies_of_hasFrame hframe (by omega), find?_cons_of_neg (by simpa using hwhole), ← ih]
    constructor
    · intro hall slice hslice
      exact hall slice (mem_append_right _ hslice)
    · intro hall slice hslice
      rcases mem_append.mp hslice with hslice | hslice
      · exact hinside slice hslice
      · exact hall slice hslice
  | case3 stream hheader hsmall hframe read hstops =>
    have hleft : (splitFrames (firstBody stream)).2 ≠ [] :=
      fun hwhole => hstops ((stopped_handleRecvBody _).mpr hwhole)
    unfold HeadersWhole
    rw [bodies_of_hasFrame hframe (by omega), find?_cons_of_pos (by simpa using hleft),
      inside_handleRecvBody]
    constructor
    · intro hall body hbody
      cases hbody
      exact hall hleft
    · intro hall _
      exact hall _ rfl
  | case4 stream hheader hsmall hframe =>
    exact iff_of_true (fun _ hslice => absurd hslice not_mem_nil)
      (headersWhole_of_bodies_nil (bodies_of_not_hasFrame hframe))
  | case5 stream hheader =>
    exact iff_of_true (fun _ hslice => absurd hslice not_mem_nil)
      (headersWhole_of_bodies_nil (bodies_of_not_hasFrame fun hframe => hheader hframe.1))

/-- Groups that are not empty and have no more messages than their first ones that satisfy a
predicate all satisfy it. -/
theorem forall_of_flatten_takeWhile {p : List RpcBuffer → Bool} {groups : List (List RpcBuffer)}
    (hne : ∀ group ∈ groups, group ≠ []) (hsame : (groups.takeWhile p).flatten = groups.flatten) :
    ∀ group ∈ groups, p group := by
  have happend : groups.takeWhile p ++ groups.dropWhile p = groups :=
    takeWhile_append_dropWhile
  have hparts := congrArg List.flatten happend
  rw [flatten_append, hsame, append_right_eq_self, flatten_eq_nil_iff] at hparts
  have hnone : groups.dropWhile p = [] := by
    refine eq_nil_iff_forall_not_mem.mpr fun group hgroup => ?_
    exact hne group (dropWhile_sublist p |>.subset hgroup) (hparts group hgroup)
  exact dropWhile_eq_nil_iff.mp hnone

/-- What is written is received as it was, for every batch size and every way to group the messages
whose lengths fit the length field, if and only if the lengths fit an `int` too; and no slice
reaches past the bytes that were received if and only if every body that is looked at has whole
headers. -/
theorem transparent_iff (batchSize : ℕ) (available : List ℕ) (queue : List RpcBuffer)
    (stream : List UInt8) :
    ((∀ group ∈ (realSendMessage batchSize available queue).1, totalLength group < 2 ^ 32) →
        (Transparent batchSize available queue ↔
          ∀ group ∈ (realSendMessage batchSize available queue).1, totalLength group < 2 ^ 31)) ∧
      ((∀ slice ∈ (receive stream).slices, slice.Inside) ↔ HeadersWhole stream) := by
  refine ⟨fun hfits => ?_, inside_receive stream⟩
  obtain ⟨hne, hflatten⟩ := realSendMessage_spec batchSize available queue
  unfold Transparent
  simp only
  rw [messages_receive hfits]
  constructor
  · intro hsame group hgroup
    -- the groups from the first one that cannot be allocated on have no messages
    have hflat := List.append_cancel_right (hsame.trans hflatten.symm)
    exact of_decide_eq_true (forall_of_flatten_takeWhile hne hflat group hgroup)
  · intro hsmall
    rw [List.takeWhile_eq_self_iff.mpr fun group hgroup => decide_eq_true (hsmall group hgroup)]
    exact hflatten

/-- A body of one byte under a right length: four bytes of it are looked at. -/
theorem not_inside_short :
    ¬∀ stream : List UInt8, ∀ slice ∈ (receive stream).slices, slice.Inside := by
  intro hall
  have hwhole : HeadersWhole [1, 0, 0, 0, 7] := (inside_receive _).mp (hall _)
  have hframe : HasFrame [1, 0, 0, 0, 7] := by decide
  have hbodies := bodies_of_hasFrame hframe (by decide)
  have hfirst : firstBody [1, 0, 0, 0, 7] = [7] := by decide
  have hshort : ¬HasFrame [7] := by decide
  have hsplit := Common.splitFrames_of_not_hasFrame hshort
  have hfind : (bodies [1, 0, 0, 0, 7]).find? (fun body => (splitFrames body).2 ≠ []) =
      some [7] := by
    rw [hbodies, hfirst, List.find?_cons_of_pos (by rw [hsplit]; decide)]
  have hlength := hwhole _ hfind
  rw [hsplit] at hlength
  exact absurd hlength (by decide)

end Idgs.Net.TcpBatches
