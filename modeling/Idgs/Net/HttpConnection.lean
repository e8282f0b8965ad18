import Idgs.Common.Run
import Idgs.Net.StaticHttpServlet

/-!
# HTTP connections

A connection reads into a buffer of fixed size until the parser has taken the head of a request.
What the last read has brought beyond the head becomes the body; the length that the header declares
is not looked at. The request is answered by a servlet, or by an actor that relays a message and
answers with the reply.
-/

namespace Idgs.Net.HttpConnection

open Common HttpRequestParser StaticHttpServlet List

/-! ## What a connection is connected with -/

/-- What a servlet is passed: the request, whose URI is decoded, and its body. -/
structure Passed where
  request : HttpRequest
  body : List Int8
deriving DecidableEq

/-- The responses, by their status. -/
inductive Response
  | ok (content : List Int8) | badRequest | notImplemented | internalServerError
deriving DecidableEq

inductive SerdesMode
  | pb_binary | pb_json
deriving DecidableEq

/-- A servlet that answers at once, or `ActorHttpServlet`. -/
inductive Servlet
  | sync (service : Passed → Response)
  | actor

/-- The servlets of the server, the reading and writing of messages, the message with its client and
its source set, and the replies that the actors give to a message. A message that cannot be read is
what has been read of it. -/
structure Environment (M : Type*) where
  servletMap : List (List Int8 × Servlet)
  defaultServlet : Servlet
  deserialize : SerdesMode → List Int8 → Bool × M
  readdressed : M → M
  serialize : SerdesMode → M → Option (List Int8)
  replies : M → List M

variable {M : Type*}

/-- `HttpServer::lookupServlet`. -/
def lookupServlet (env : Environment M) (requestUri : List Int8) : Servlet :=
  match env.servletMap.find? fun p => Text.find requestUri p.1 0 = some 0 with
  | some p => p.2
  | none => env.defaultServlet

/-! ## The connection -/

/-- `bufferSize`. -/
def bufferSize : ℕ := 8192

/-- The messages on their way: `DESTROY` to the actor, a message that it has relayed, and a reply to
it. -/
inductive Message (M : Type*)
  | destroy
  | request (rpcMsg : M)
  | reply (rpcMsg : M)

/-- A connection with its actor: what is in the buffer, the parser and the request, whether it reads
on, what servlets have been passed, the responses that have been sent, the messages that have been
relayed, whether there is an actor and how it reads and writes, and the messages on their way. -/
structure World (M : Type*) where
  buffer : List Int8
  parser : State × HttpRequest
  reading : Bool
  passed : List Passed
  responses : List Response
  relayed : List M
  alive : Bool
  serdes : SerdesMode
  inFlight : List (Message M)

/-- A new connection. -/
def World.new : World M where
  buffer := []
  parser := (.method_start, .new)
  reading := true
  passed := []
  responses := []
  relayed := []
  alive := false
  serdes := .pb_json
  inFlight := []

/-- `HttpConnection::sendResponse`, and `AsyncContext::done`. -/
def World.sendResponse (w : World M) (response : Response) : World M :=
  { w with responses := w.responses ++ [response] }

/-- `Actor::terminate`. -/
def World.terminate (w : World M) : World M :=
  { w with inFlight := w.inFlight ++ [.destroy] }

/-- `relayMessage`. -/
def World.relayMessage (w : World M) (rpcMsg : M) : World M :=
  { w with relayed := w.relayed ++ [rpcMsg], inFlight := w.inFlight ++ [.request rpcMsg] }

/-- `GET`. -/
def methodGet : List Int8 := [71, 69, 84]

/-- `POST`. -/
def methodPost : List Int8 := [80, 79, 83, 84]

/-- `Content-Type`. -/
def headerContentType : List Int8 := [67, 111, 110, 116, 101, 110, 116, 45, 84, 121, 112, 101]

/-- `application/`. -/
def application : List Int8 := [97, 112, 112, 108, 105, 99, 97, 116, 105, 111, 110, 47]

/-- `application/json`. -/
def contentTypeJson : List Int8 := application ++ [106, 115, 111, 110]

/-- `application/protobuf`. -/
def contentTypeProtobuf : List Int8 := application ++ [112, 114, 111, 116, 111, 98, 117, 102]

/-- `HttpRequest::getHeader`. -/
def getHeader (request : HttpRequest) (name : List Int8) : List Int8 :=
  match request.headers.find? fun p => p.header_name = name with
  | some p => p.header_value
  | none => []

/-- How the actor reads a body of a content type; `none` is an unknown one. -/
def serdesOf (contentType : List Int8) : Option SerdesMode :=
  if contentType = [] ∨ (Text.find contentType contentTypeJson 0).isSome then some .pb_json
  else if (Text.find contentType contentTypeProtobuf 0).isSome then some .pb_binary
  else none

/-- `HttpActor::service`. A body that cannot be read is answered and the actor terminated, and then
the message is relayed all the same. -/
def HttpActor.service (env : Environment M) (w : World M) (passed : Passed) : World M :=
  match serdesOf (getHeader passed.request headerContentType) with
  | none => (w.sendResponse .badRequest).terminate
  | some serdes =>
    let w := { w with serdes := serdes }
    let (ret, rpcMsg) := env.deserialize serdes passed.body
    let w := if ret then w else (w.sendResponse .badRequest).terminate
    w.relayMessage (env.readdressed rpcMsg)

/-- The `service` of a servlet. `ActorHttpServlet` starts an actor for the methods `GET` and `POST`,
and no response is sent for it. -/
def Servlet.service (env : Environment M) (w : World M) (passed : Passed) : Servlet → World M
  | .sync service => w.sendResponse (service passed)
  | .actor =>
    if passed.request.method = methodGet ∨ passed.request.method = methodPost then
      HttpActor.service env { w with alive := true } passed
    else w.sendResponse .notImplemented

/-- `HttpConnection::handle_request`, and the response that `handle_read` sends if it fails. -/
def handle_request (env : Environment M) (w : World M) (request : HttpRequest)
    (body : List Int8) : World M :=
  match requestPath request.uri with
  | none => w.sendResponse .badRequest
  | some path =>
    let passed : Passed := ⟨{ request with uri := path }, body⟩
    (lookupServlet env path).service env { w with passed := w.passed ++ [passed] } passed

/-- What `handle_read` does when the parser has given a status. -/
def World.parsed (env : Environment M) (w : World M) (rest : List Int8) :
    ScanStatus → World M
  | .complete => handle_request env { w with reading := false } w.parser.2 rest
  | .invalid => { w with reading := false }.sendResponse .badRequest
  | .indeterminate => w

/-- `HttpConnection::handle_read`: a chunk is read behind what is in the buffer. -/
def handle_read (env : Environment M) (w : World M) (chunk : List Int8) : World M :=
  let (status, parser, rest) := parse w.parser chunk
  { w with buffer := w.buffer ++ chunk, parser := parser }.parsed env rest status

/-- The connection after a number of reads, the first of which may have been made before it was
started. It does not read on once it has a whole head. -/
def receive (env : Environment M) (reads : List (List Int8)) : World M :=
  reads.foldl (fun w chunk => if w.reading then handle_read env w chunk else w) .new

/-- `HttpActor::process` of a reply. -/
def HttpActor.process (env : Environment M) (w : World M) (rpcMsg : M) : World M :=
  match env.serialize w.serdes rpcMsg with
  | some buff => (w.sendResponse (.ok buff)).terminate
  | none => (w.sendResponse .internalServerError).terminate

/-- A message arrives. -/
def deliver (env : Environment M) (w : World M) : Message M → World M
  | .destroy => { w with alive := false }
  | .request rpcMsg =>
    { w with inFlight := w.inFlight ++ (env.replies rpcMsg).map .reply }
  | .reply rpcMsg => if w.alive then HttpActor.process env w rpcMsg else w

/-- One of the messages on their way arrives. -/
def step (env : Environment M) (w : World M) (i : ℕ) : Option (World M) :=
  w.inFlight[i]?.map fun message =>
    deliver env { w with inFlight := w.inFlight.eraseIdx i } message

/-! ## Requests -/

/-- `content-length`. -/
def headerContentLength : List Int8 :=
  [99, 111, 110, 116, 101, 110, 116, 45, 108, 101, 110, 103, 116, 104]

/-- A small letter for a capital one. -/
def toLower (c : Int8) : Int8 := if 65 ≤ c.toInt ∧ c.toInt ≤ 90 then c + 32 else c

/-- The length of the body that a header declares. -/
def contentLength (headers : List HttpHeader) : ℕ :=
  match headers.find? fun p => p.header_name.map toLower = headerContentLength with
  | some p => (number ((p.header_value.dropWhile isBlank).takeWhile isNumeral)).toNat
  | none => 0

/-- What the parser says about a text from its beginning. -/
def parseHead (head : List Int8) : ScanStatus × (State × HttpRequest) × List Int8 :=
  parse (.method_start, .new) head

/-- A request: a head, at whose last byte the parser knows whether it is one, and the body, which is
as long as the header declares. -/
structure Request where
  head : List Int8
  body : List Int8
  decided : (parseHead head).1 ≠ .indeterminate
  whole : (parseHead head).2.2 = []
  declared : (parseHead head).1 = .complete →
    body.length = contentLength (parseHead head).2.1.2.headers

/-- How the bytes of a request are split into reads, up to some time: no read is empty, and they all
go into the buffer. -/
structure Reads (m : Request) where
  chunks : List (List Int8)
  nonempty : ∀ chunk ∈ chunks, chunk ≠ []
  ofRequest : chunks.flatten <+: m.head ++ m.body
  room : chunks.flatten.length ≤ bufferSize

/-- What servlets are to be passed for a request. -/
def expected (m : Request) : List Passed :=
  if (parseHead m.head).1 = .complete then
    match requestPath (parseHead m.head).2.1.2.uri with
    | some path => [⟨{ (parseHead m.head).2.1.2 with uri := path }, m.body⟩]
    | none => []
  else []

/-- The connection treats a request as it should: it reads on only if a byte of the request is to
come and has room; the servlet is passed the request with its body; there is no second response, and
one when all messages have arrived; and no message has been relayed for a request that is
rejected. -/
structure Treats (m : Request) (w : World M) : Prop where
  waits : w.reading = true → w.buffer.length < bufferSize ∧
    w.buffer.length < (m.head ++ m.body).length
  passed : w.passed = if w.reading then [] else expected m
  once : w.responses.length ≤ 1
  answered : w.reading = false → w.inFlight = [] → w.responses.length = 1
  rejected : .badRequest ∈ w.responses → w.relayed = []

/-- The request is treated as it should be, in whatever order the messages arrive. -/
def TreatedRight (env : Environment M) (m : Request) (reads : Reads m) : Prop :=
  ∀ w, Reaches (step env) anyStep (receive env reads.chunks) w → Treats m w

/-- If the request is for an actor, its content type is unknown, or the body can be read and there
is one reply to the message. -/
def OneReply (env : Environment M) (passed : Passed) : Servlet → Prop
  | .sync _ => True
  | .actor =>
    passed.request.method = methodGet ∨ passed.request.method = methodPost →
      ∀ serdes ∈ serdesOf (getHeader passed.request headerContentType),
        (env.deserialize serdes passed.body).1 = true ∧
          (env.replies (env.readdressed (env.deserialize serdes passed.body).2)).length = 1

/-- As long as the head is not there, the buffer is not full. If it is there and a servlet is passed
the request, the read that has brought the end of the head has brought the whole body as well. -/
def InOneRead (env : Environment M) (m : Request) (reads : Reads m) : Prop :=
  if reads.chunks.flatten.length < m.head.length then
    reads.chunks.flatten.length < bufferSize
  else
    ∀ passed ∈ expected m,
      reads.chunks.flatten = m.head ++ m.body ∧
        reads.chunks.dropLast.flatten.length < m.head.length ∧
        OneReply env passed (lookupServlet env passed.request.uri)

/-! ## Reading the head -/

section Head

variable {m : Request} {env : Environment M} {p q : List Int8}

/-- The parser goes on where the first part has left it, unless it has stopped. -/
theorem parseHead_append_eq (p q : List Int8) :
    parseHead (p ++ q) =
      match parseHead p with
      | (.indeterminate, s, _) => parse s q
      | (status, s, rest) => (status, s, rest ++ q) := by
  rw [parseHead, parse, scan_append, parseHead, parse]
  rcases scan consume (.method_start, .new) p with ⟨status, s, rest⟩
  cases status <;> rfl

/-- Before its last byte the head is not decided. -/
theorem parseHead_of_prefix (hp : p <+: m.head) (hlt : p.length < m.head.length) :
    ∃ s, parseHead p = (.indeterminate, s, []) := by
  obtain ⟨q, hq⟩ := hp
  have happend := parseHead_append_eq p q
  rw [hq] at happend
  rcases hscan : parseHead p with ⟨status, s, rest⟩
  cases status with
  | indeterminate => exact ⟨s, by rw [rest_eq_nil hscan]⟩
  | _ =>
    rw [hscan] at happend
    have hwhole := m.whole
    rw [happend] at hwhole
    have hnil := (append_eq_nil_iff.mp hwhole).2
    rw [← hq, hnil, append_nil] at hlt
    exact absurd hlt (lt_irrefl _)

/-- The parser goes on with a chunk where it was. -/
theorem parse_chunk {s : State × HttpRequest} (hp : parseHead p = (.indeterminate, s, []))
    (chunk : List Int8) : parse s chunk = parseHead (p ++ chunk) := by
  rw [parseHead_append_eq, hp]

/-- What follows the head is not looked at. -/
theorem parseHead_append (m : Request) (rest : List Int8) :
    parseHead (m.head ++ rest) = ((parseHead m.head).1, (parseHead m.head).2.1, rest) := by
  have hdecided := m.decided
  have hwhole := m.whole
  rw [parseHead_append_eq]
  rcases hscan : parseHead m.head with ⟨status, s, left⟩
  rw [hscan] at hdecided hwhole
  change left = [] at hwhole
  subst hwhole
  cases status with
  | indeterminate => exact absurd rfl hdecided
  | _ => rfl

theorem length_head_pos (m : Request) : 0 < m.head.length := by
  refine length_pos_of_ne_nil fun hnil => m.decided ?_
  rw [hnil]
  rfl

theorem receive_concat (env : Environment M) (before : List (List Int8)) (chunk : List Int8) :
    receive env (before ++ [chunk]) =
      if (receive env before).reading then handle_read env (receive env before) chunk
      else receive env before :=
  foldl_concat _ _ _ _

theorem handle_read_eq {w : World M} {chunk rest : List Int8} {status : ScanStatus}
    {parser : State × HttpRequest} (h : parse w.parser chunk = (status, parser, rest)) :
    handle_read env w chunk =
      { w with buffer := w.buffer ++ chunk, parser := parser }.parsed env rest status := by
  rw [handle_read, h]

section

variable (env : Environment M)

/-- A connection that has not got the whole head reads on. -/
theorem receive_of_prefix (before : List (List Int8))
    (hp : before.flatten <+: m.head) (hlt : before.flatten.length < m.head.length) :
    ∃ s, parseHead before.flatten = (.indeterminate, s, []) ∧
      receive env before = { World.new with buffer := before.flatten, parser := s } := by
  induction before using List.reverseRecOn with
  | nil => exact ⟨_, rfl, rfl⟩
  | append_singleton before chunk ih =>
    have hflatten : (before ++ [chunk]).flatten = before.flatten ++ chunk :=
      flatten_concat
    rw [hflatten] at hp hlt ⊢
    have hle : before.flatten.length ≤ (before.flatten ++ chunk).length := by
      rw [length_append]
      exact Nat.le_add_right _ _
    obtain ⟨s, hs, hreceive⟩ := ih ((prefix_append _ chunk).trans hp) (hle.trans_lt hlt)
    obtain ⟨s', hs'⟩ := parseHead_of_prefix hp hlt
    refine ⟨s', hs', ?_⟩
    rw [receive_concat, hreceive]
    have hparse : parse s chunk = (.indeterminate, s', []) := (parse_chunk hs chunk).trans hs'
    exact (if_pos rfl).trans ((handle_read_eq hparse).trans rfl)

theorem service_reading (w : World M) (passed : Passed) (servlet : Servlet) :
    (servlet.service env w passed).reading = w.reading := by
  cases servlet with
  | sync service => rfl
  | actor =>
    rw [Servlet.service]
    split
    · rw [HttpActor.service]
      split
      · rfl
      · dsimp only
        split
        · rfl
        · rfl
    · rfl

theorem service_passed (w : World M) (passed : Passed) (servlet : Servlet) :
    (servlet.service env w passed).passed = w.passed := by
  cases servlet with
  | sync service => rfl
  | actor =>
    rw [Servlet.service]
    split
    · rw [HttpActor.service]
      split
      · rfl
      · dsimp only
        split
        · rfl
        · rfl
    · rfl

/-- A connection whose head is decided does not read on. -/
theorem parsed_reading (w : World M) (rest : List Int8) {status : ScanStatus}
    (h : status ≠ .indeterminate) : (w.parsed env rest status).reading = false := by
  cases status with
  | indeterminate => exact absurd rfl h
  | invalid => rfl
  | complete =>
    rw [World.parsed, handle_request]
    split
    · rfl
    · exact service_reading env _ _ _

end

theorem foldl_of_not_reading {w : World M} (h : w.reading = false) (after : List (List Int8)) :
    after.foldl (fun w chunk => if w.reading then handle_read env w chunk else w) w = w := by
  induction after with
  | nil => rfl
  | cons chunk after ih =>
    rw [foldl_cons, if_neg (by rw [h]; exact Bool.false_ne_true)]
    exact ih

/-- The read that brings the end of the head is the last one; what it brings beyond the head is the
body. -/
theorem receive_decided (env : Environment M) (after : List (List Int8))
    {before : List (List Int8)} {chunk rest : List Int8}
    (hlt : before.flatten.length < m.head.length) (h : before.flatten ++ chunk = m.head ++ rest) :
    receive env (before ++ chunk :: after) =
      { World.new with buffer := m.head ++ rest, parser := (parseHead m.head).2.1 }.parsed env rest
        (parseHead m.head).1 := by
  have hp : before.flatten <+: m.head :=
    prefix_of_prefix_length_le ⟨chunk, h⟩ (prefix_append m.head rest) hlt.le
  obtain ⟨s, hs, hreceive⟩ := receive_of_prefix env before hp hlt
  have hparse : parse s chunk = ((parseHead m.head).1, (parseHead m.head).2.1, rest) := by
    rw [parse_chunk hs, h, parseHead_append]
  have hread : receive env (before ++ [chunk]) =
      { World.new with buffer := m.head ++ rest, parser := (parseHead m.head).2.1 }.parsed env rest
        (parseHead m.head).1 := by
    rw [receive_concat, hreceive, ← h]
    exact (if_pos rfl).trans (handle_read_eq hparse)
  have hsplit : before ++ chunk :: after = before ++ [chunk] ++ after := by
    rw [append_assoc, singleton_append]
  rw [hsplit, receive, foldl_append]
  change List.foldl _ (receive env (before ++ [chunk])) after = _
  rw [hread]
  exact foldl_of_not_reading (parsed_reading env _ rest m.decided) after

/-- The read that brings the end of the head. -/
theorem exists_crossing {n : ℕ} (hn : 0 < n) (chunks : List (List Int8))
    (h : n ≤ chunks.flatten.length) :
    ∃ before chunk after, chunks = before ++ chunk :: after ∧ before.flatten.length < n ∧
      n ≤ (before.flatten ++ chunk).length := by
  induction chunks using List.reverseRecOn with
  | nil => exact absurd h (Nat.not_le.mpr hn)
  | append_singleton chunks chunk ih =>
    rcases Nat.lt_or_ge chunks.flatten.length n with hlt | hge
    · refine ⟨chunks, chunk, [], rfl, hlt, ?_⟩
      rwa [flatten_concat] at h
    · obtain ⟨before, last, after, rfl, hbefore, hlast⟩ := ih hge
      exact ⟨before, last, after ++ [chunk], by rw [append_assoc, cons_append], hbefore,
        hlast⟩

end Head

/-! ## The messages of the actor -/

section Messages

variable {env : Environment M} {m : Request} {w w₀ w' : World M} {i : ℕ}

/-- What no message changes. -/
structure Frame (w₀ w : World M) : Prop where
  buffer : w.buffer = w₀.buffer
  reading : w.reading = w₀.reading
  passed : w.passed = w₀.passed
  relayed : w.relayed = w₀.relayed

theorem deliver_frame (env : Environment M) (w : World M) (message : Message M) :
    Frame w (deliver env w message) := by
  cases message with
  | destroy | request _ => exact ⟨rfl, rfl, rfl, rfl⟩
  | reply rpcMsg =>
    rw [deliver]
    split
    · rw [HttpActor.process]
      split
      · exact ⟨rfl, rfl, rfl, rfl⟩
      · exact ⟨rfl, rfl, rfl, rfl⟩
    · exact ⟨rfl, rfl, rfl, rfl⟩

/-- A step is the arrival of a message. -/
theorem exists_of_step (h : step env w i = some w') :
    ∃ message, w.inFlight[i]? = some message ∧
      w' = deliver env { w with inFlight := w.inFlight.eraseIdx i } message := by
  obtain ⟨message, hmessage, heq⟩ := Option.map_eq_some_iff.mp h
  exact ⟨message, hmessage, heq.symm⟩

theorem reaches_frame (h : Reaches (step env) anyStep w₀ w) : Frame w₀ w := by
  refine h.invariant ⟨rfl, rfl, rfl, rfl⟩ fun s a s' hs _ hstep => ?_
  obtain ⟨message, -, rfl⟩ := exists_of_step hstep
  have hd := deliver_frame env { s with inFlight := s.inFlight.eraseIdx a } message
  exact ⟨hd.buffer.trans hs.buffer, hd.reading.trans hs.reading, hd.passed.trans hs.passed,
    hd.relayed.trans hs.relayed⟩

/-- Without messages on their way nothing happens. -/
theorem not_step_of_nil (hnil : w.inFlight = []) : step env w i ≠ some w' := fun h => by
  obtain ⟨message, hmessage, -⟩ := exists_of_step h
  rw [hnil] at hmessage
  cases hmessage

theorem eq_of_reaches (hnil : w₀.inFlight = []) (h : Reaches (step env) anyStep w₀ w) : w = w₀ :=
  h.invariant (P := fun w => w = w₀) rfl fun _ _ _ hs _ hstep =>
    absurd hstep (not_step_of_nil (by rw [hs, hnil]))

/-- The only message on its way arrives. -/
theorem eq_of_step_singleton {message : Message M} (hone : w.inFlight = [message])
    (h : step env w i = some w') : w' = deliver env { w with inFlight := [] } message := by
  obtain ⟨arrived, harrived, rfl⟩ := exists_of_step h
  rw [hone] at harrived ⊢
  cases i with
  | succ i => cases harrived
  | zero =>
    cases harrived
    rfl

/-- One message after the other arrives, the first one first. -/
theorem reaches_deliver {message : Message M} {rest : List (Message M)}
    (h : Reaches (step env) anyStep w₀ w) (hfirst : w.inFlight = message :: rest) :
    Reaches (step env) anyStep w₀ (deliver env { w with inFlight := rest } message) := by
  refine .tail 0 h trivial ?_
  rw [step, hfirst]
  rfl

/-- The request is answered once, now or when the messages have arrived. -/
structure Answers (w : World M) : Prop where
  once : w.responses.length ≤ 1
  answered : w.inFlight = [] → w.responses.length = 1
  rejected : .badRequest ∈ w.responses → w.relayed = []

/-- A connection that has passed what is expected treats the request as it should if it answers
once. -/
theorem treats_iff (hreading : w.reading = false) (hpassed : w.passed = expected m) :
    Treats m w ↔ Answers w := by
  constructor
  · exact fun h => ⟨h.once, h.answered hreading, h.rejected⟩
  · intro h
    refine ⟨fun hwait => ?_, ?_, h.once, fun _ => h.answered, h.rejected⟩
    · rw [hreading] at hwait
      cases hwait
    · rw [hreading]
      exact hpassed

/-- A connection that has answered, and waits for no messages. -/
theorem answers_of_quiet {response : Response} (hnil : w₀.inFlight = [])
    (hresponses : w₀.responses = [response]) (hrelayed : w₀.relayed = [])
    (h : Reaches (step env) anyStep w₀ w) : Answers w := by
  rw [eq_of_reaches hnil h]
  refine ⟨?_, fun _ => ?_, fun _ => hrelayed⟩
  · rw [hresponses]
    exact le_rfl
  · rw [hresponses]
    rfl

/-- An actor that has answered is only to be terminated. -/
theorem answers_of_destroy {response : Response} (hone : w₀.inFlight = [.destroy])
    (hresponses : w₀.responses = [response]) (hrejected : response = .badRequest → w₀.relayed = [])
    (h : Reaches (step env) anyStep w₀ w) : Answers w := by
  have hinv : w.responses = [response] ∧ (w.inFlight = [.destroy] ∨ w.inFlight = []) := by
    refine h.invariant (P := fun w => w.responses = [response] ∧
      (w.inFlight = [.destroy] ∨ w.inFlight = [])) ⟨hresponses, Or.inl hone⟩ ?_
    rintro s a s' ⟨hs, hflight | hflight⟩ - hstep
    · rw [eq_of_step_singleton hflight hstep]
      exact ⟨hs, Or.inr rfl⟩
    · exact absurd hstep (not_step_of_nil hflight)
  refine ⟨?_, fun _ => ?_, fun hbad => ?_⟩
  · rw [hinv.1]
    exact le_rfl
  · rw [hinv.1]
    rfl
  · rw [hinv.1, mem_singleton] at hbad
    rw [(reaches_frame h).relayed, hrejected hbad.symm]

/-- A reply is answered, and never as a bad request. -/
theorem exists_process (env : Environment M) (w : World M) (rpcMsg : M) :
    ∃ response, response ≠ .badRequest ∧
      HttpActor.process env w rpcMsg = (w.sendResponse response).terminate := by
  rw [HttpActor.process]
  split
  · exact ⟨_, fun h => (by cases h), rfl⟩
  · exact ⟨_, fun h => (by cases h), rfl⟩

/-- An actor that has relayed a message to which there is one reply answers once. -/
theorem answers_of_request {rpcMsg : M} (hone : w₀.inFlight = [.request rpcMsg])
    (hresponses : w₀.responses = []) (halive : w₀.alive = true)
    (hreplies : (env.replies rpcMsg).length = 1)
    (h : Reaches (step env) anyStep w₀ w) : Answers w := by
  obtain ⟨reply, hreply⟩ := length_eq_one_iff.mp hreplies
  have hinv : (w.responses = [] ∧ w.alive = true ∧
      (w.inFlight = [.request rpcMsg] ∨ w.inFlight = [.reply reply])) ∨
      ∃ response, response ≠ .badRequest ∧ w.responses = [response] ∧
        (w.inFlight = [.destroy] ∨ w.inFlight = []) := by
    refine h.invariant (P := fun w => (w.responses = [] ∧ w.alive = true ∧
      (w.inFlight = [.request rpcMsg] ∨ w.inFlight = [.reply reply])) ∨
      ∃ response, response ≠ .badRequest ∧ w.responses = [response] ∧
        (w.inFlight = [.destroy] ∨ w.inFlight = [])) ?_ ?_
    · exact Or.inl ⟨hresponses, halive, Or.inl hone⟩
    · rintro s a s' (⟨hs, hal, hflight | hflight⟩ | ⟨response, hne, hs, hflight | hflight⟩) - hstep
      · rw [eq_of_step_singleton hflight hstep]
        refine Or.inl ⟨hs, hal, Or.inr ?_⟩
        rw [deliver, hreply]
        rfl
      · rw [eq_of_step_singleton hflight hstep, deliver]
        obtain ⟨response, hne, hprocess⟩ :=
          exists_process env { s with inFlight := [] } reply
        rw [if_pos hal, hprocess]
        refine Or.inr ⟨response, hne, ?_, Or.inl rfl⟩
        change s.responses ++ [response] = _
        rw [hs, nil_append]
      · rw [eq_of_step_singleton hflight hstep]
        exact Or.inr ⟨response, hne, hs, Or.inr rfl⟩
      · exact absurd hstep (not_step_of_nil hflight)
  rcases hinv with ⟨hw, -, hflight⟩ | ⟨response, hne, hw, -⟩
  · refine ⟨?_, fun hnil => ?_, fun hbad => ?_⟩
    · rw [hw]
      exact Nat.zero_le 1
    · rcases hflight with hflight | hflight
      · rw [hflight] at hnil
        cases hnil
      · rw [hflight] at hnil
        cases hnil
    · rw [hw] at hbad
      cases hbad
  · refine ⟨?_, fun _ => ?_, fun hbad => ?_⟩
    · rw [hw]
      exact le_rfl
    · rw [hw]
      rfl
    · rw [hw, mem_singleton] at hbad
      exact absurd hbad.symm hne

/-- As long as there is an actor, each reply that arrives is a response. -/
theorem exists_reaches_reply {rpcMsg : M} {rest : List (Message M)}
    (h : Reaches (step env) anyStep w₀ w) (hfirst : w.inFlight = .reply rpcMsg :: rest)
    (halive : w.alive = true) :
    ∃ w', Reaches (step env) anyStep w₀ w' ∧ w'.responses.length = w.responses.length + 1 ∧
      w'.alive = true ∧ w'.inFlight = rest ++ [.destroy] := by
  have hreached := reaches_deliver h hfirst
  obtain ⟨response, -, hprocess⟩ := exists_process env { w with inFlight := rest } rpcMsg
  rw [deliver, if_pos halive, hprocess] at hreached
  exact ⟨_, hreached, length_append, halive, rfl⟩

/-- Without a reply there is no response; and the second reply may arrive before the actor is
terminated. -/
theorem length_replies_of_answers {rpcMsg : M} (hone : w₀.inFlight = [.request rpcMsg])
    (hresponses : w₀.responses = []) (halive : w₀.alive = true)
    (h : ∀ w, Reaches (step env) anyStep w₀ w → Answers w) :
    (env.replies rpcMsg).length = 1 := by
  have hrelayed : Reaches (step env) anyStep w₀
      { w₀ with inFlight := (env.replies rpcMsg).map .reply } :=
    reaches_deliver .refl hone
  cases hreplies : env.replies rpcMsg with
  | nil =>
    rw [hreplies] at hrelayed
    have hanswered := (h _ hrelayed).answered rfl
    change w₀.responses.length = 1 at hanswered
    rw [hresponses] at hanswered
    cases hanswered
  | cons reply replies =>
    cases replies with
    | nil => rfl
    | cons second replies =>
      rw [hreplies] at hrelayed
      obtain ⟨w, hw, hlength, halive, hflight⟩ := exists_reaches_reply hrelayed rfl halive
      obtain ⟨w', hw', hlength', -⟩ := exists_reaches_reply hw hflight halive
      have honce := (h w' hw').once
      omega

/-- The responses of an actor that has been passed a request. -/
theorem answers_actor_iff (hnil : w.inFlight = []) (hresponses : w.responses = [])
    (hrelayed : w.relayed = []) (halive : w.alive = true) (passed : Passed) :
    (∀ w', Reaches (step env) anyStep (HttpActor.service env w passed) w' → Answers w') ↔
      ∀ serdes ∈ serdesOf (getHeader passed.request headerContentType),
        (env.deserialize serdes passed.body).1 = true ∧
          (env.replies (env.readdressed (env.deserialize serdes passed.body).2)).length = 1 := by
  obtain ⟨w₁, hw₁⟩ : ∃ w₁, HttpActor.service env w passed = w₁ := ⟨_, rfl⟩
  rw [hw₁]
  rw [HttpActor.service] at hw₁
  cases hserdes : serdesOf (getHeader passed.request headerContentType) with
  | none =>
    rw [hserdes] at hw₁
    subst hw₁
    refine iff_of_true (fun w' h => ?_) fun serdes hmem => by cases hmem
    have hflight : (w.sendResponse .badRequest).terminate.inFlight = [.destroy] := by
      rw [World.terminate, World.sendResponse, hnil, nil_append]
    have hresponse : (w.sendResponse .badRequest).terminate.responses = [.badRequest] := by
      rw [World.terminate, World.sendResponse, hresponses, nil_append]
    exact answers_of_destroy hflight hresponse (fun _ => hrelayed) h
  | some serdes =>
    rw [hserdes] at hw₁
    have hall : ∀ P : SerdesMode → Prop, (∀ s ∈ some serdes, P s) ↔ P serdes := fun P =>
      ⟨fun h => h serdes rfl, fun h s hs => Option.some.inj hs ▸ h⟩
    rw [hall]
    rcases hread : env.deserialize serdes passed.body with ⟨ret, rpcMsg⟩
    simp only [hread] at hw₁
    cases ret with
    | false =>
      -- The message is relayed behind the response that rejects the request.
      refine iff_of_false (fun h => ?_) fun h => Bool.false_ne_true h.1
      subst hw₁
      have hnone := (h _ .refl).rejected (mem_append_right _ (mem_singleton.mpr rfl))
      exact append_ne_nil_of_right_ne_nil _ (cons_ne_nil _ []) hnone
    | true =>
      rw [if_pos rfl] at hw₁
      have hflight : w₁.inFlight = [.request (env.readdressed rpcMsg)] := by
        rw [← hw₁, World.relayMessage, hnil, nil_append]
      have hresponse : w₁.responses = [] := by
        rw [← hw₁]
        exact hresponses
      have hactor : w₁.alive = true := by
        rw [← hw₁]
        exact halive
      constructor
      · exact fun h => ⟨rfl, length_replies_of_answers hflight hresponse hactor h⟩
      · exact fun h w' hw' => answers_of_request hflight hresponse hactor h.2 hw'

/-- The responses of a servlet that has been passed a request. -/
theorem answers_service_iff (env : Environment M) (hnil : w.inFlight = [])
    (hresponses : w.responses = []) (hrelayed : w.relayed = []) (passed : Passed)
    (servlet : Servlet) :
    (∀ w', Reaches (step env) anyStep (servlet.service env w passed) w' → Answers w') ↔
      OneReply env passed servlet := by
  have hsend : ∀ response, (w.sendResponse response).responses = [response] := fun response => by
    rw [World.sendResponse, hresponses, nil_append]
  have hquiet : ∀ response w', Reaches (step env) anyStep (w.sendResponse response) w' →
      Answers w' := by
    intro response w' h
    refine answers_of_quiet ?_ (hsend response) ?_ h
    · exact hnil
    · exact hrelayed
  cases servlet with
  | sync service => exact iff_of_true (hquiet (service passed)) trivial
  | actor =>
    rw [Servlet.service, OneReply]
    split
    · rename_i hmethod
      rw [answers_actor_iff (w := { w with alive := true }) hnil hresponses hrelayed rfl passed]
      exact ⟨fun h _ => h, fun h => h hmethod⟩
    · rename_i hmethod
      exact iff_of_true (hquiet .notImplemented) fun h => absurd h hmethod

end Messages

/-! ## Requests treated right -/

section Treated

variable {env : Environment M} {m : Request}

/-- The body is whole exactly if the read that has brought the end of the head was the last one. -/
theorem rest_eq_body_iff (reads : Reads m) {before after : List (List Int8)}
    {chunk rest : List Int8} (hchunks : reads.chunks = before ++ chunk :: after)
    (hlt : before.flatten.length < m.head.length) (h : before.flatten ++ chunk = m.head ++ rest) :
    rest = m.body ↔ reads.chunks.flatten = m.head ++ m.body ∧
      reads.chunks.dropLast.flatten.length < m.head.length := by
  have hflatten : reads.chunks.flatten = m.head ++ rest ++ after.flatten := by
    rw [hchunks, flatten_append, flatten_cons, ← append_assoc, h]
  cases after with
  | nil =>
    rw [flatten_nil, append_nil] at hflatten
    have hdrop : reads.chunks.dropLast = before := by
      rw [hchunks, dropLast_concat]
    rw [hdrop, hflatten]
    exact ⟨fun heq => ⟨by rw [heq], hlt⟩, fun heq => append_cancel_left heq.1⟩
  | cons next after =>
    constructor
    · rintro rfl
      -- The next read is not empty, and nothing is left to read.
      have hfront := reads.ofRequest.length_le
      have hnext : next ≠ [] := reads.nonempty next (by
        rw [hchunks]
        exact mem_append_right _ (mem_cons_of_mem _ mem_cons_self))
      have hpos := length_pos_of_ne_nil hnext
      simp only [hflatten, flatten_cons, length_append] at hfront
      omega
    · rintro ⟨-, hshort⟩
      rw [hchunks, dropLast_append_cons, dropLast_cons_cons, flatten_append,
        flatten_cons, ← append_assoc, h, length_append,
        length_append] at hshort
      omega

/-- A connection that waits treats the request as it should if there is room for another byte. -/
theorem treatedRight_of_waiting (reads : Reads m)
    (hlt : reads.chunks.flatten.length < m.head.length) :
    TreatedRight env m reads ↔ reads.chunks.flatten.length < bufferSize := by
  have hp : reads.chunks.flatten <+: m.head :=
    prefix_of_prefix_length_le reads.ofRequest (prefix_append m.head m.body) hlt.le
  obtain ⟨s, -, hreceive⟩ := receive_of_prefix env reads.chunks hp hlt
  constructor
  · intro h
    have hwaits := (h _ .refl).waits (by rw [hreceive]; rfl)
    rw [hreceive] at hwaits
    exact hwaits.1
  · intro hroom w hw
    rw [hreceive] at hw
    rw [eq_of_reaches rfl hw]
    refine ⟨fun _ => ⟨hroom, ?_⟩, rfl, Nat.zero_le 1, fun hdone => (by cases hdone), fun _ => rfl⟩
    rw [length_append]
    exact hlt.trans_le (Nat.le_add_right _ _)

/-- A request that is rejected without a servlet is treated as it should be. -/
theorem treats_of_rejected {w₀ w : World M} (hexpected : expected m = [])
    (hreading : w₀.reading = false) (hpassed : w₀.passed = []) (hnil : w₀.inFlight = [])
    (hresponses : w₀.responses = [.badRequest]) (hrelayed : w₀.relayed = [])
    (h : Reaches (step env) anyStep w₀ w) : Treats m w := by
  have hframe := reaches_frame h
  refine (treats_iff (hframe.reading.trans hreading) ?_).mpr
    (answers_of_quiet hnil hresponses hrelayed h)
  rw [hframe.passed, hpassed, hexpected]

/-- A request that a servlet is passed is treated as it should be exactly if its body is whole, and
an actor that it is for gets one reply. -/
theorem treats_service_iff {w₀ : World M} {request : HttpRequest} {rest : List Int8}
    {servlet : Servlet} (hexpected : expected m = [⟨request, m.body⟩])
    (hreading : w₀.reading = false) (hpassed : w₀.passed = [⟨request, rest⟩])
    (hnil : w₀.inFlight = []) (hresponses : w₀.responses = []) (hrelayed : w₀.relayed = []) :
    (∀ w, Reaches (step env) anyStep (servlet.service env w₀ ⟨request, rest⟩) w → Treats m w) ↔
      rest = m.body ∧ OneReply env ⟨request, m.body⟩ servlet := by
  have hframe : ∀ w, Reaches (step env) anyStep (servlet.service env w₀ ⟨request, rest⟩) w →
      w.reading = false ∧ w.passed = [⟨request, rest⟩] := fun w hw => by
    have hf := reaches_frame hw
    rw [hf.reading, hf.passed, service_reading, service_passed]
    exact ⟨hreading, hpassed⟩
  have hanswers := answers_service_iff env hnil hresponses hrelayed ⟨request, rest⟩ servlet
  constructor
  · intro h
    have hservlet := (h _ .refl).passed
    rw [(hframe _ .refl).1, (hframe _ .refl).2, if_neg Bool.false_ne_true, hexpected] at hservlet
    have hrest : rest = m.body := by
      injection hservlet with hpassed
      injection hpassed
    have hone := hanswers.mp fun w hw =>
      (treats_iff (hframe w hw).1 (by rw [(hframe w hw).2, hexpected, hrest])).mp (h w hw)
    rw [hrest] at hone
    exact ⟨hrest, hone⟩
  · rintro ⟨hrest, hone⟩ w hw
    rw [← hrest] at hone
    exact (treats_iff (hframe w hw).1 (by rw [(hframe w hw).2, hexpected, hrest])).mpr
      (hanswers.mpr hone w hw)

end Treated

/-! ## A body that is read on its own -/

/-- `GET / HTTP/1.1` with a body of one byte. -/
def oneByteHead : List Int8 :=
  [71, 69, 84, 32, 47, 32, 72, 84, 84, 80, 47, 49, 46, 49, 13, 10, 67, 111, 110, 116, 101,
    110, 116, 45, 76, 101, 110, 103, 116, 104, 58, 32, 49, 13, 10, 13, 10]

/-- A request whose body is one byte. -/
def oneByte : Request where
  head := oneByteHead
  body := [97]
  decided := by decide +kernel
  whole := by decide +kernel
  declared := fun _ => by decide +kernel

/-- The head and the body are read one after the other. -/
def twoReads : Reads oneByte where
  chunks := [oneByteHead, [97]]
  nonempty := by decide
  ofRequest := by decide
  room := by decide

/-- A server with a servlet that answers at once. -/
def plainServer : Environment Unit where
  servletMap := []
  defaultServlet := .sync fun _ => .ok []
  deserialize := fun _ _ => (true, ())
  readdressed := id
  serialize := fun _ _ => some []
  replies := fun _ => [()]

end Idgs.Net.HttpConnection
