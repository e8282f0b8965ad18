import Mathlib.Data.Bool.Basic
import Idgs.Common.Frame
import Idgs.Common.Run
import Idgs.Common.Tables

/-!
# The client pool

A call takes a connection from the pool, writes its request, reads the next frame as its response,
and puts the connection back. The write and the read stop when their time is over; the connection
stays open then.
-/

namespace Idgs.Client

open Function List

open Common (frame tagged takeFrame bodyLength headerLength)

/-- The result codes of the client. -/
inductive ClientCode
  | success | error
deriving DecidableEq

/-- The bodies of the request of each call and of the server's response to it; their lengths fit
into a header. -/
structure Traffic where
  request : ℕ → List UInt8
  response : ℕ → List UInt8
  request_lt : ∀ c, (request c).length < 256 ^ 4
  response_lt : ∀ c, (response c).length < 256 ^ 4

/-- A byte of the call `c` on a connection. -/
abbrev Cell := ℕ × UInt8

/-- A connection: the bytes that the server has not read, the calls that it has not answered, and
the bytes that the client has not read. -/
structure Socket where
  received : List Cell := []
  pending : List ℕ := []
  responses : List Cell := []
  /-- A read of the client has failed. -/
  readFailed : Bool := false

/-- Where a call is. -/
inductive CallPhase
  | fresh
  | nonblockingWrite (k : ℕ) (rest : List UInt8)
  | readHeader (k : ℕ) (got : List Cell)
  | readBody (k n : ℕ) (got : List Cell)
  | finished (k : ℕ)
  | released

/-- The connection of a call. -/
def CallPhase.socket? : CallPhase → Option ℕ
  | nonblockingWrite k _ | readHeader k _ | readBody k _ _ | finished k => some k
  | _ => none

/-- The pool, the connections and the calls, with what has been returned so far. -/
structure TcpClientPool where
  pool : List ℕ
  socket : ℕ → Socket := fun _ => {}
  phase : ℕ → CallPhase := fun _ => .fresh
  /-- For each write whether it was done and what it has returned. -/
  writes : List (Bool × ClientCode) := []
  /-- The code and the response of each `sendRecv`. -/
  results : List (ℕ × ClientCode × List Cell) := []
  /-- For each connection taken from the pool whether something was outstanding on it. -/
  taken : List Bool := []

/-- Steps: a call takes a connection, writes or reads up to `n` bytes, or fails to write or read,
and puts the connection back; the server reads a request, and it answers one of those that it has
read. -/
inductive ClientStep
  | getTcpClient (c : ℕ)
  | write (c n : ℕ)
  | writeFails (c : ℕ)
  | read (c n : ℕ)
  | readFails (c : ℕ)
  | close (c : ℕ)
  | serve (k : ℕ)
  | respond (k i : ℕ)

/-- A request is partly sent or unanswered, or a response is not read to its end. -/
def Socket.outstanding (x : Socket) : Bool :=
  !x.received.isEmpty || !x.pending.isEmpty || !x.responses.isEmpty

/-- What `nonblockingWrite` returns: the code that is set when the write fails is overwritten at its
end. -/
def nonblockingWriteCode (_written : Bool) : ClientCode := .success

namespace TcpClientPool

/-- The call goes on with the connection. -/
def goto (s : TcpClientPool) (c : ℕ) (p : CallPhase) (k : ℕ) (x : Socket) : TcpClientPool :=
  { s with phase := Function.update s.phase c p, socket := Function.update s.socket k x }

/-- `sendRecv` returns. -/
def finish (s : TcpClientPool) (c k : ℕ) (code : ClientCode) (response : List Cell) (x : Socket) :
    TcpClientPool :=
  { s.goto c (.finished k) k x with results := s.results ++ [(c, code, response)] }

/-- `sendRecv` when `nonblockingWrite` has returned. -/
def afterWrite (s : TcpClientPool) (c k : ℕ) (written : Bool) (x : Socket) : TcpClientPool :=
  let code := nonblockingWriteCode written
  let s := { s with writes := s.writes ++ [(written, code)] }
  if code ≠ .success then s.finish c k code [] x else s.goto c (.readHeader k []) k x

/-- The call whose request a frame is; the server does not answer other frames. -/
def callOf (t : Traffic) (f : List Cell) : List ℕ :=
  match f.head? with
  | some (c, _) => if f = tagged c (frame (t.request c)) then [c] else []
  | none => []

theorem callOf_tagged (t : Traffic) (c : ℕ) : callOf t (tagged c (frame (t.request c))) = [c] :=
  if_pos rfl

/-- One step. -/
def step (t : Traffic) (s : TcpClientPool) : ClientStep → Option TcpClientPool
  | .getTcpClient c =>
    match s.phase c, s.pool with
    | .fresh, k :: pool => some
        { s with
          pool := pool
          phase := Function.update s.phase c (.nonblockingWrite k (frame (t.request c)))
          taken := s.taken ++ [(s.socket k).outstanding] }
    | _, _ => none
  | .write c n =>
    match s.phase c with
    | .nonblockingWrite k rest =>
      let x := { s.socket k with received := (s.socket k).received ++ tagged c (rest.take n) }
      if rest.drop n = [] then some (s.afterWrite c k true x)
      else some (s.goto c (.nonblockingWrite k (rest.drop n)) k x)
    | _ => none
  | .writeFails c =>
    match s.phase c with
    | .nonblockingWrite k _ => some (s.afterWrite c k false (s.socket k))
    | _ => none
  | .read c n =>
    match s.phase c with
    | .readHeader k got =>
      let m := min n (headerLength - got.length)
      let got := got ++ (s.socket k).responses.take m
      let x := { s.socket k with responses := (s.socket k).responses.drop m }
      if got.length = headerLength then some (s.goto c (.readBody k (bodyLength got) []) k x)
      else some (s.goto c (.readHeader k got) k x)
    | .readBody k length got =>
      let m := min n (length - got.length)
      let got := got ++ (s.socket k).responses.take m
      let x := { s.socket k with responses := (s.socket k).responses.drop m }
      if got.length = length then some (s.finish c k .success got x)
      else some (s.goto c (.readBody k length got) k x)
    | _ => none
  | .readFails c =>
    match s.phase c with
    | .readHeader k _ | .readBody k _ _ =>
      some (s.finish c k .error [] { s.socket k with readFailed := true })
    | _ => none
  | .close c =>
    match s.phase c with
    | .finished k =>
      some { s with pool := s.pool ++ [k], phase := Function.update s.phase c .released }
    | _ => none
  | .serve k =>
    (takeFrame (s.socket k).received).map fun r =>
      { s with
        socket := Function.update s.socket k
          { s.socket k with received := r.2, pending := (s.socket k).pending ++ callOf t r.1 } }
  | .respond k i =>
    ((s.socket k).pending[i]?).map fun c =>
      { s with
        socket := Function.update s.socket k
          { s.socket k with
            pending := (s.socket k).pending.eraseIdx i
            responses := (s.socket k).responses ++ tagged c (frame (t.response c)) } }

/-- Calls that succeed have got their own response as a whole, failed writes are not reported as
success, and no connection is taken on which something is outstanding. -/
structure OwnResponses (t : Traffic) (s : TcpClientPool) : Prop where
  own : ∀ r ∈ s.results, r.2.1 = .success → r.2.2 = tagged r.1 (t.response r.1)
  reported : ∀ w ∈ s.writes, w.1 = false → w.2 ≠ .success
  unused : ∀ o ∈ s.taken, o = false

/-- No write fails, and no connection is taken that a read has failed on. -/
def Undisturbed (s : TcpClientPool) : ClientStep → Prop
  | .writeFails _ => False
  | .getTcpClient _ => ∀ k ∈ s.pool.head?, (s.socket k).readFailed = false
  | _ => True

instance (s : TcpClientPool) (a : ClientStep) : Decidable (Undisturbed s a) := by
  unfold Undisturbed
  split <;> infer_instance

/-! ## The invariant -/

/-- Nothing is outstanding. -/
def Clean (x : Socket) : Prop := x.received = [] ∧ x.pending = [] ∧ x.responses = []

theorem Clean.not_outstanding {x : Socket} (h : Clean x) : x.outstanding = false := by
  obtain ⟨hreceived, hpending, hresponses⟩ := h
  unfold Socket.outstanding
  rw [hreceived, hpending, hresponses]
  rfl

/-- The whole request is with the server and the response is not read to the end of its header,
where `got` has been read. -/
def Awaiting (t : Traffic) (c : ℕ) (got : List Cell) (x : Socket) : Prop :=
  (x.received = tagged c (frame (t.request c)) ∧ x.pending = [] ∧ x.responses = [] ∧ got = []) ∨
  (x.received = [] ∧ x.pending = [c] ∧ x.responses = [] ∧ got = []) ∨
  (x.received = [] ∧ x.pending = [] ∧ got ++ x.responses = tagged c (frame (t.response c)))

/-- What is on the connection of a call, where no read has failed. -/
def PhaseOk (t : Traffic) (c : ℕ) (x : Socket) : CallPhase → Prop
  | .nonblockingWrite _ rest => x.readFailed = false ∧ rest ≠ [] ∧
      x.received ++ tagged c rest = tagged c (frame (t.request c)) ∧ x.pending = [] ∧
      x.responses = []
  | .readHeader _ got => x.readFailed = false ∧ got.length < headerLength ∧ Awaiting t c got x
  | .readBody _ n got => x.readFailed = false ∧ n = (t.response c).length ∧ x.received = [] ∧
      x.pending = [] ∧
      got ++ x.responses = tagged c (t.response c)
  | .finished _ => x.readFailed = false → Clean x
  | _ => True

/-- Each connection is in the pool or with one call, with what belongs to the call on it. -/
structure Inv (t : Traffic) (s : TcpClientPool) : Prop where
  pool_nodup : s.pool.Nodup
  pooled : ∀ c k, (s.phase c).socket? = some k → k ∉ s.pool
  alone : ∀ c c' k, (s.phase c).socket? = some k → (s.phase c').socket? = some k → c = c'
  idle : ∀ k, (s.socket k).readFailed = false → (∀ c, (s.phase c).socket? ≠ some k) →
    Clean (s.socket k)
  busy : ∀ c k, (s.phase c).socket? = some k → PhaseOk t c (s.socket k) (s.phase c)
  own : ∀ r ∈ s.results, r.2.1 = .success → r.2.2 = tagged r.1 (t.response r.1)
  written : ∀ w ∈ s.writes, w.1 = true
  unused : ∀ o ∈ s.taken, o = false

theorem Inv.ownResponses {t : Traffic} {s : TcpClientPool} (h : Inv t s) : OwnResponses t s where
  __ := h
  reported := fun w hw hfailed => by cases hfailed.symm.trans (h.written w hw)

theorem inv_init {pool : List ℕ} (hpool : pool.Nodup) (t : Traffic) : Inv t { pool := pool } where
  pool_nodup := hpool
  pooled := by rintro c k ⟨⟩
  alone := by rintro c c' k ⟨⟩
  idle := fun _ _ _ => ⟨rfl, rfl, rfl⟩
  busy := by rintro c k ⟨⟩
  own := by rintro r ⟨⟩
  written := by rintro w ⟨⟩
  unused := by rintro o ⟨⟩

/-! ## The steps of a call -/

section Call

variable {t : Traffic} {s : TcpClientPool} {c k : ℕ}

section

variable (h : Inv t s)

include h

/-- A call goes on with its connection. -/
theorem Inv.goto {p : CallPhase} {x : Socket} (hk : (s.phase c).socket? = some k)
    (hp : p.socket? = some k) (hok : PhaseOk t c x p) : Inv t (s.goto c p k x) := by
  have hself : (s.goto c p k x).phase c = p := update_self ..
  have hother : ∀ c', c' ≠ c → (s.goto c p k x).phase c' = s.phase c' :=
    fun c' hc => update_of_ne hc _ _
  have hphase : ∀ c', ((s.goto c p k x).phase c').socket? = (s.phase c').socket? := by
    intro c'
    by_cases hc : c' = c
    · rw [hc, hself, hp, hk]
    · rw [hother c' hc]
  have hsocket : ∀ k', k' ≠ k → (s.goto c p k x).socket k' = s.socket k' :=
    fun k' hk' => update_of_ne hk' _ _
  exact
    { pool_nodup := h.pool_nodup
      pooled := fun c' k' hc' => h.pooled c' k' ((hphase c').symm.trans hc')
      alone := fun c' c'' k' hc' hc'' =>
        h.alone c' c'' k' ((hphase c').symm.trans hc') ((hphase c'').symm.trans hc'')
      idle := fun k' hread hfree => by
        have hne : k' ≠ k := by
          rintro rfl
          exact hfree c ((hphase c).trans hk)
        rw [hsocket k' hne] at hread ⊢
        exact h.idle k' hread fun c' hc' => hfree c' ((hphase c').trans hc')
      busy := fun c' k' hc' => by
        have hold : (s.phase c').socket? = some k' := (hphase c').symm.trans hc'
        by_cases hc : c' = c
        · subst hc
          obtain rfl := Option.some.inj (hk.symm.trans hold)
          rw [hself]
          have hx : (s.goto c' p k x).socket k = x := update_self ..
          rw [hx]
          exact hok
        · have hne : k' ≠ k := by
            rintro rfl
            exact hc (h.alone c' c k' hold hk)
          rw [hother c' hc, hsocket k' hne]
          exact h.busy c' k' hold
      own := h.own
      written := h.written
      unused := h.unused }

theorem Inv.finish {code : ClientCode} {response : List Cell} {x : Socket}
    (hk : (s.phase c).socket? = some k) (hok : x.readFailed = false → Clean x)
    (hown : code = .success → response = tagged c (t.response c)) :
    Inv t (s.finish c k code response x) :=
  { h.goto (p := .finished k) hk rfl hok with
    own := fun r hr hsuccess => by
      rcases mem_append.mp hr with hr | hr
      · exact h.own r hr hsuccess
      · obtain rfl := mem_singleton.mp hr
        exact hown hsuccess }

/-- A call takes a connection from the pool. -/
theorem Inv.getTcpClient {pool : List ℕ} (hfresh : s.phase c = .fresh)
    (hpool : s.pool = k :: pool) (hread : (s.socket k).readFailed = false) :
    Inv t { s with
      pool := pool
      phase := update s.phase c (.nonblockingWrite k (frame (t.request c)))
      taken := s.taken ++ [(s.socket k).outstanding] } := by
  have hnodup := h.pool_nodup
  rw [hpool] at hnodup
  have hfree : ∀ c', (s.phase c').socket? ≠ some k := by
    intro c' hc'
    refine h.pooled c' k hc' ?_
    rw [hpool]
    exact mem_cons_self
  have hclean := h.idle k hread hfree
  have hphase : ∀ c' k',
      (update s.phase c (.nonblockingWrite k (frame (t.request c))) c').socket? = some k' →
      (c' = c ∧ k' = k) ∨ (c' ≠ c ∧ (s.phase c').socket? = some k') := by
    intro c' k' hc'
    rw [apply_update fun _ => CallPhase.socket?] at hc'
    exact Common.update_some_iff.mp hc'
  exact
    { pool_nodup := (nodup_cons.mp hnodup).2
      pooled := fun c' k' hc' => by
        rcases hphase c' k' hc' with ⟨-, rfl⟩ | ⟨-, hold⟩
        · exact (nodup_cons.mp hnodup).1
        · have hnot := h.pooled c' k' hold
          rw [hpool] at hnot
          exact fun hmem => hnot (mem_cons_of_mem _ hmem)
      alone := fun c' c'' k' hc' hc'' => by
        rcases hphase c' k' hc' with ⟨rfl, rfl⟩ | ⟨-, hold⟩
        · rcases hphase c'' k' hc'' with ⟨rfl, -⟩ | ⟨-, hold'⟩
          · rfl
          · exact absurd hold' (hfree c'')
        · rcases hphase c'' k' hc'' with ⟨-, rfl⟩ | ⟨-, hold'⟩
          · exact absurd hold (hfree c')
          · exact h.alone c' c'' k' hold hold'
      idle := fun k' hread' hfree' => by
        refine h.idle k' hread' fun c' hc' => hfree' c' ?_
        have hne : c' ≠ c := by
          rintro rfl
          rw [hfresh] at hc'
          cases hc'
        show (update s.phase c _ c').socket? = some k'
        rw [update_of_ne hne]
        exact hc'
      busy := fun c' k' hc' => by
        rcases hphase c' k' hc' with ⟨rfl, rfl⟩ | ⟨hne, hold⟩
        · show PhaseOk t c' (s.socket k') (update s.phase c' _ c')
          rw [update_self]
          obtain ⟨hreceived, hpending, hresponses⟩ := hclean
          refine ⟨hread, ?_, ?_, hpending, hresponses⟩
          · exact ne_nil_of_length_pos (by
              rw [Common.length_frame]
              unfold headerLength
              omega)
          · rw [hreceived]
            rfl
        · show PhaseOk t c' (s.socket k') (update s.phase c _ c')
          rw [update_of_ne hne]
          exact h.busy c' k' hold
      own := h.own
      written := h.written
      unused := fun o ho => by
        rcases mem_append.mp ho with ho | ho
        · exact h.unused o ho
        · rw [mem_singleton.mp ho]
          exact hclean.not_outstanding }

/-- A call puts its connection back. -/
theorem Inv.close (hfinished : s.phase c = .finished k) :
    Inv t { s with pool := s.pool ++ [k], phase := update s.phase c .released } := by
  have hk : (s.phase c).socket? = some k := by
    rw [hfinished]
    rfl
  have hphase : ∀ c' k', (update s.phase c .released c').socket? = some k' →
      c' ≠ c ∧ (s.phase c').socket? = some k' := by
    intro c' k' hc'
    rw [apply_update fun _ => CallPhase.socket?] at hc'
    exact Common.update_none_iff.mp hc'
  exact
    { pool_nodup := by
        have hsingle : [k].Nodup := nodup_cons.mpr ⟨not_mem_nil, nodup_nil⟩
        refine nodup_append.mpr ⟨h.pool_nodup, hsingle, fun a ha b hb heq => ?_⟩
        rw [mem_singleton.mp hb] at heq
        exact h.pooled c k hk (heq ▸ ha)
      pooled := fun c' k' hc' hmem => by
        obtain ⟨hne, hold⟩ := hphase c' k' hc'
        rcases mem_append.mp hmem with hmem | hmem
        · exact h.pooled c' k' hold hmem
        · rw [mem_singleton.mp hmem] at hold
          exact hne (h.alone c' c k hold hk)
      alone := fun c' c'' k' hc' hc'' =>
        h.alone c' c'' k' (hphase c' k' hc').2 (hphase c'' k' hc'').2
      idle := fun k' hread hfree => by
        by_cases hk' : k' = k
        · subst hk'
          have hok := h.busy c k' hk
          rw [hfinished] at hok
          exact hok hread
        · refine h.idle k' hread fun c' hc' => hfree c' ?_
          have hne : c' ≠ c := by
            rintro rfl
            exact hk' (Option.some.inj (hc'.symm.trans hk))
          show (update s.phase c .released c').socket? = some k'
          rw [update_of_ne hne]
          exact hc'
      busy := fun c' k' hc' => by
        obtain ⟨hne, hold⟩ := hphase c' k' hc'
        show PhaseOk t c' (s.socket k') (update s.phase c .released c')
        rw [update_of_ne hne]
        exact h.busy c' k' hold
      own := h.own
      written := h.written
      unused := h.unused }

/-- A part of the request is written. -/
theorem Inv.write {rest : List UInt8}
    (hwriting : s.phase c = .nonblockingWrite k rest) (n : ℕ)
    {s' : TcpClientPool} (hstep : step t s (.write c n) = some s') : Inv t s' := by
  have hk : (s.phase c).socket? = some k := by
    rw [hwriting]
    rfl
  have hok := h.busy c k hk
  rw [hwriting] at hok
  obtain ⟨hread, -, hreceived, hpending, hresponses⟩ := hok
  have hsplit : tagged c rest = tagged c (rest.take n) ++ tagged c (rest.drop n) := by
    rw [← Common.tagged_append, take_append_drop]
  simp only [TcpClientPool.step, hwriting] at hstep
  split at hstep
  · rename_i hdone
    cases hstep
    rw [hdone] at hsplit
    have hgoto : Inv t (s.goto c (.readHeader k []) k
        { s.socket k with received := (s.socket k).received ++ tagged c (rest.take n) }) := by
      refine h.goto hk rfl ⟨hread, ?_, .inl ⟨?_, hpending, hresponses, rfl⟩⟩
      · unfold headerLength
        exact Nat.zero_lt_succ _
      · rw [← hreceived, hsplit]
        exact congrArg _ (append_nil _).symm
    exact { hgoto with
      written := fun w hw => by
        rcases mem_append.mp hw with hw | hw
        · exact h.written w hw
        · rw [mem_singleton.mp hw] }
  · rename_i hmore
    cases hstep
    refine h.goto hk rfl ⟨hread, hmore, ?_, hpending, hresponses⟩
    rw [← hreceived, hsplit, append_assoc]

end

/-- Reading moves bytes from the connection to what has been read. -/
theorem read_append (got responses : List Cell) (m : ℕ) :
    got ++ responses.take m ++ responses.drop m = got ++ responses := by
  rw [append_assoc, take_append_drop]

/-- A part of the header of the response is read. -/
theorem Inv.readHeader {got : List Cell} (h : Inv t s) (hreading : s.phase c = .readHeader k got)
    (n : ℕ) {s' : TcpClientPool} (hstep : step t s (.read c n) = some s') : Inv t s' := by
  have hk : (s.phase c).socket? = some k := by
    rw [hreading]
    rfl
  have hok := h.busy c k hk
  rw [hreading] at hok
  obtain ⟨hread, hlength, hawaiting⟩ := hok
  simp only [TcpClientPool.step, hreading] at hstep
  have hm : min n (headerLength - got.length) ≤ headerLength - got.length := Nat.min_le_right ..
  generalize min n (headerLength - got.length) = m at hstep hm
  rcases hawaiting with ⟨hreceived, hpending, hresponses, rfl⟩ | ⟨hreceived, hpending, hresponses,
    rfl⟩ |
      ⟨hreceived, hpending, hgot⟩
  · -- the server has not read the request
    rw [hresponses, take_nil, drop_nil, append_nil, if_neg (by decide)] at hstep
    cases hstep
    exact h.goto hk rfl ⟨hread, hlength, .inl ⟨hreceived, hpending, rfl, rfl⟩⟩
  · -- the server has not answered it
    rw [hresponses, take_nil, drop_nil, append_nil, if_neg (by decide)] at hstep
    cases hstep
    exact h.goto hk rfl ⟨hread, hlength, .inr (.inl ⟨hreceived, hpending, rfl, rfl⟩)⟩
  · rw [← read_append got (s.socket k).responses m] at hgot
    split at hstep
    · rename_i hheader
      cases hstep
      unfold frame at hgot
      rw [Common.tagged_append] at hgot
      obtain ⟨hhead, hbody⟩ := append_inj hgot (by
        rw [hheader, Common.length_tagged, Common.length_leBytes]
        rfl)
      refine h.goto hk rfl ⟨hread, ?_, hreceived, hpending, hbody⟩
      rw [hhead]
      exact Common.bodyLength_tagged (t.response_lt c)
    · rename_i hmore
      cases hstep
      refine h.goto hk rfl ⟨hread, ?_, .inr (.inr ⟨hreceived, hpending, hgot⟩)⟩
      rw [length_append, length_take] at hmore ⊢
      omega

/-- A part of the response is read. -/
theorem Inv.readBody {got : List Cell} {length : ℕ} (h : Inv t s)
    (hreading : s.phase c = .readBody k length got)
    (n : ℕ) {s' : TcpClientPool} (hstep : step t s (.read c n) = some s') : Inv t s' := by
  have hk : (s.phase c).socket? = some k := by
    rw [hreading]
    rfl
  have hok := h.busy c k hk
  rw [hreading] at hok
  obtain ⟨hread, hlength, hreceived, hpending, hgot⟩ := hok
  simp only [TcpClientPool.step, hreading] at hstep
  generalize min n (length - got.length) = m at hstep
  rw [← read_append got (s.socket k).responses m] at hgot
  split at hstep
  · rename_i hwhole
    cases hstep
    have hall : got ++ (s.socket k).responses.take m ++ (s.socket k).responses.drop m =
        tagged c (t.response c) ++ [] := by
      rw [hgot, append_nil]
    obtain ⟨hresponse, hrest⟩ :=
      append_inj hall (by rw [hwhole, hlength, Common.length_tagged])
    exact h.finish hk (fun _ => ⟨hreceived, hpending, hrest⟩) fun _ => hresponse
  · cases hstep
    exact h.goto hk rfl ⟨hread, hlength, hreceived, hpending, hgot⟩

end Call

/-! ## The steps of the server -/

section Server

variable {t : Traffic} {s : TcpClientPool} {k : ℕ}

/-- The server changes what is on a connection. -/
theorem Inv.setSocket {x : Socket} (h : Inv t s) (hread : x.readFailed = (s.socket k).readFailed)
    (hidle : Clean (s.socket k) → Clean x)
    (hbusy : ∀ c, (s.phase c).socket? = some k → PhaseOk t c (s.socket k) (s.phase c) →
      PhaseOk t c x (s.phase c)) :
    Inv t { s with socket := update s.socket k x } where
  __ := h
  idle := fun k' hread' hfree => by
    have hread'' : (update s.socket k x k').readFailed = false := hread'
    show Clean (update s.socket k x k')
    by_cases hk : k' = k
    · subst hk
      rw [update_self] at hread'' ⊢
      exact hidle (h.idle k' (hread.symm.trans hread'') hfree)
    · rw [update_of_ne hk] at hread'' ⊢
      exact h.idle k' hread'' hfree
  busy := fun c k' hc => by
    show PhaseOk t c (update s.socket k x k') (s.phase c)
    by_cases hk : k' = k
    · subst hk
      rw [update_self]
      exact hbusy c hc (h.busy c k' hc)
    · rw [update_of_ne hk]
      exact h.busy c k' hc

/-- The server reads a request. -/
theorem Inv.serve (h : Inv t s) {s' : TcpClientPool} (hstep : step t s (.serve k) = some s') :
    Inv t s' := by
  obtain ⟨r, hr, rfl⟩ := Option.map_eq_some_iff.mp hstep
  have hnothing : (s.socket k).received ≠ [] := by
    intro hreceived
    rw [hreceived] at hr
    cases hr
  refine h.setSocket rfl (fun hclean => absurd hclean.1 hnothing) fun c hc hok => ?_
  cases hphase : s.phase c with
  | fresh | released => trivial
  | finished k' =>
    rw [hphase] at hok
    exact fun hread => absurd (hok hread).1 hnothing
  | nonblockingWrite k' rest =>
    rw [hphase] at hok
    obtain ⟨-, hrest, hreceived, -⟩ := hok
    have hne : tagged c rest ≠ [] := fun hnil => hrest (map_eq_nil_iff.mp hnil)
    rw [Common.takeFrame_part (t.request_lt c) hreceived hne] at hr
    cases hr
  | readBody k' n got =>
    rw [hphase] at hok
    exact absurd hok.2.2.1 hnothing
  | readHeader k' got =>
    rw [hphase] at hok
    obtain ⟨hread, hlength, hawaiting⟩ := hok
    rcases hawaiting with ⟨hreceived, hpending, hresponses, hgot⟩ | ⟨hreceived,
      -⟩ | ⟨hreceived, -⟩
    · rw [hreceived, Common.takeFrame_frame (t.request_lt c)] at hr
      cases hr
      refine ⟨hread, hlength, .inr (.inl ⟨rfl, ?_, hresponses, hgot⟩)⟩
      rw [hpending, callOf_tagged]
      rfl
    · exact absurd hreceived hnothing
    · exact absurd hreceived hnothing

/-- The server answers a call. -/
theorem Inv.respond {i : ℕ} (h : Inv t s) {s' : TcpClientPool}
    (hstep : step t s (.respond k i) = some s') :
    Inv t s' := by
  obtain ⟨c₀, hc₀, rfl⟩ := Option.map_eq_some_iff.mp hstep
  have hnothing : (s.socket k).pending ≠ [] := by
    intro hpending
    rw [hpending] at hc₀
    cases hc₀
  refine h.setSocket rfl (fun hclean => absurd hclean.2.1 hnothing) fun c hc hok => ?_
  cases hphase : s.phase c with
  | fresh | released => trivial
  | finished k' =>
    rw [hphase] at hok
    exact fun hread => absurd (hok hread).2.1 hnothing
  | nonblockingWrite _ _ | readBody _ _ _ =>
    rw [hphase] at hok
    exact absurd hok.2.2.2.1 hnothing
  | readHeader k' got =>
    rw [hphase] at hok
    obtain ⟨hread, hlength, hawaiting⟩ := hok
    rcases hawaiting with ⟨-, hpending, -⟩ | ⟨hreceived, hpending, hresponses, hgot⟩ | ⟨-,
      hpending, -⟩
    · exact absurd hpending hnothing
    · obtain ⟨hi, hget⟩ := List.getElem?_eq_some_iff.mp hc₀
      have hzero : i = 0 := by
        rw [hpending] at hi
        exact Nat.lt_one_iff.mp hi
      subst hzero
      have hcall : c₀ = c := by
        rw [hpending] at hc₀
        exact (Option.some.inj hc₀).symm
      refine ⟨hread, hlength, .inr (.inr ⟨hreceived, ?_, ?_⟩)⟩
      · rw [hpending]
        rfl
      · rw [hgot, hresponses, hcall]
        rfl
    · exact absurd hpending hnothing

end Server

/-! ## Runs -/

theorem Inv.step {t : Traffic} {s s' : TcpClientPool} {a : ClientStep} (h : Inv t s)
    (hundisturbed : Undisturbed s a) (hstep : step t s a = some s') : Inv t s' := by
  cases a with
  | getTcpClient c =>
    simp only [TcpClientPool.step] at hstep
    split at hstep
    · rename_i k pool hfresh hpool
      cases hstep
      exact h.getTcpClient hfresh hpool (hundisturbed k (by rw [hpool]; rfl))
    · cases hstep
  | write c n =>
    cases hphase : s.phase c with
    | nonblockingWrite k rest => exact h.write hphase n hstep
    | _ =>
      simp only [TcpClientPool.step, hphase] at hstep
      cases hstep
  | writeFails c => exact hundisturbed.elim
  | read c n =>
    cases hphase : s.phase c with
    | readHeader k got => exact h.readHeader hphase n hstep
    | readBody k length got => exact h.readBody hphase n hstep
    | _ =>
      simp only [TcpClientPool.step, hphase] at hstep
      cases hstep
  | readFails c =>
    have hfails : ∀ k, (s.phase c).socket? = some k →
        Inv t (s.finish c k .error [] { s.socket k with readFailed := true }) := by
      intro k hk
      refine h.finish hk ?_ ?_
      · rintro ⟨⟩
      · rintro ⟨⟩
    cases hphase : s.phase c with
    | readHeader k got =>
      simp only [TcpClientPool.step, hphase] at hstep
      cases hstep
      exact hfails k (by rw [hphase]; rfl)
    | readBody k length got =>
      simp only [TcpClientPool.step, hphase] at hstep
      cases hstep
      exact hfails k (by rw [hphase]; rfl)
    | _ =>
      simp only [TcpClientPool.step, hphase] at hstep
      cases hstep
  | close c =>
    cases hphase : s.phase c with
    | finished k =>
      simp only [TcpClientPool.step, hphase] at hstep
      cases hstep
      exact h.close hphase
    | _ =>
      simp only [TcpClientPool.step, hphase] at hstep
      cases hstep
  | serve k => exact h.serve hstep
  | respond k i => exact h.respond hstep

/-- In every run without failed writes, and without connections reused after a failed read, every
call that succeeds gets its own response. -/
theorem ownResponses_of_undisturbed {t : Traffic} {pool : List ℕ} {s : TcpClientPool}
    (hpool : pool.Nodup)
    (hrun : Common.Reaches (step t) Undisturbed { pool := pool } s) : OwnResponses t s :=
  (hrun.invariant (P := Inv t) (inv_init hpool t) fun _ _ _ h hundisturbed hstep =>
    h.step hundisturbed hstep).ownResponses

/-! ## A late response -/

/-- Requests and responses of one byte. -/
def shortTraffic : Traffic where
  request := fun c => [UInt8.ofNat c]
  response := fun c => [UInt8.ofNat (100 + c)]
  request_lt := fun _ => show 1 < 256 ^ 4 by decide
  response_lt := fun _ => show 1 < 256 ^ 4 by decide

/-- Call 0 gives up; its response comes when its connection is in the pool again, and call 1 takes
it. -/
def lateResponse : List ClientStep :=
  [.getTcpClient 0, .write 0 5, .readFails 0, .close 0, .serve 0, .respond 0 0, .getTcpClient 1,
    .write 1 5, .read 1 4,
    .read 1 1]

/-- Call 1 succeeds with the response to call 0. -/
theorem not_ownResponses_of_run :
    ¬ ∀ s : TcpClientPool, Common.Reaches (step shortTraffic) Common.anyStep { pool := [0] } s →
      OwnResponses shortTraffic s := by
  intro hall
  have hend :
      ((Common.replay (step shortTraffic) Common.anyStep { pool := [0] } lateResponse).any fun s =>
      decide ((1, ClientCode.success, [(0, 100)]) ∈ s.results)) = true := by
    decide +kernel
  obtain ⟨s, hs, hbad⟩ := (Option.any_eq_true _ _).mp hend
  have hown := (hall s (Common.reaches_of_replay hs)).own _ (of_decide_eq_true hbad) rfl
  revert hown
  decide

/-- Two calls share a connection; a third one fails to read. -/
def sharedConnection : List ClientStep :=
  [.getTcpClient 0, .write 0 2, .getTcpClient 1, .write 0 9, .write 1 5, .serve 0, .respond 0 0,
    .read 0 3, .serve 1,
    .readFails 1, .read 0 3, .read 0 9, .close 0, .close 1, .getTcpClient 2, .write 2 5, .serve 0,
    .respond 0 0,
    .read 2 4, .read 2 1, .close 2]

/-- The calls that succeed get their own responses. -/
theorem ownResponses_of_undisturbed_sharedConnection : ∃ s : TcpClientPool,
    Common.Reaches (step shortTraffic) Undisturbed { pool := [0, 1] } s ∧
      s.results = [(1, .error, []), (0, .success, [(0, 100)]), (2, .success, [(2, 102)])] ∧
      OwnResponses shortTraffic s := by
  have hend :
      ((Common.replay (step shortTraffic) Undisturbed { pool := [0, 1] } sharedConnection).any
      fun s =>
      decide (s.results = [(1, .error, []), (0, .success, [(0, 100)]), (2, .success, [(2, 102)])]))
        = true := by
    decide +kernel
  obtain ⟨s, hs, hgood⟩ := (Option.any_eq_true _ _).mp hend
  exact ⟨s, Common.reaches_of_replay hs, of_decide_eq_true hgood,
    ownResponses_of_undisturbed (by decide) (Common.reaches_of_replay hs)⟩

end TcpClientPool

end Idgs.Client
