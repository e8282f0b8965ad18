import Mathlib.Algebra.Order.BigOperators.Group.Finset
import Mathlib.Algebra.Group.Nat.Even
import Mathlib.Data.List.GetD
import Idgs.Common.Text

/-!
# The console process

`DaemonProcess::sendrecv` writes a request into the standard input of the console and reads what the
console prints up to its prompt. The loop that writes asks for the whole length each time, and adds
what the last write took once more to the offset when it looks whether it is done. The automaton
that reads goes back to its beginning with the character that does not continue the prompt, also
when this character begins the prompt.
-/

namespace Idgs.Net.DaemonProcess

open Idgs.Common List

/-! ## Sending -/

/-- A pipe: how many of the characters that the `call`-th `write` is asked for it takes. -/
structure Pipe where
  taken : (call asked : ℕ) → ℕ
  taken_pos : ∀ call asked, 0 < asked → 0 < taken call asked
  taken_le : ∀ call asked, taken call asked ≤ asked

/-- What has been written, and the positions of the characters that have been read for it, counted
from the first one of the request. -/
structure Sent where
  written : List Char
  read : List ℤ
deriving DecidableEq

/-- The sum of two values of type `int` that are not negative; `none` is an overflow. -/
def addInt (a b : ℕ) : Option ℕ := if a + b < 2 ^ 31 then some (a + b) else none

/-- The character at a position of the memory that holds the request; `around` is what stands before
and behind it. -/
def byteAt (request : List Char) (around : ℤ → Char) (p : ℤ) : Char :=
  if 0 ≤ p then request.getD p.toNat (around p) else around p

/-- `sz` characters from a position on are written. -/
def Sent.write (sent : Sent) (request : List Char) (around : ℤ → Char) (offset sz : ℕ) : Sent where
  written := sent.written ++ (List.range' offset sz).map fun p : ℕ => byteAt request around p
  read := sent.read ++ (List.range' offset sz).map fun p : ℕ => (p : ℤ)

/-- The `while` loop of `DaemonProcess::sendrecv`; `none` is a loop that has not ended, or an
overflow. -/
def sendLoop (request : List Char) (around : ℤ → Char) (pipe : Pipe) :
    ℕ → ℕ → ℕ → ℕ → Sent → Option Sent
  | 0, _, _, _, _ => none
  | fuel + 1, call, offset, sz, sent =>
    match addInt offset sz with
    | none => none
    | some sum =>
      if sum < request.length then
        let sz := pipe.taken call request.length
        match addInt offset sz with
        | none => none
        | some next =>
          sendLoop request around pipe fuel (call + 1) next sz
            (sent.write request around offset sz)
      else some sent

/-- `DaemonProcess::sendrecv` until it receives: the loop, the test of `*request.rbegin()` and the
newline. -/
def send (fuel : ℕ) (request : List Char) (around : ℤ → Char) (pipe : Pipe) : Option Sent :=
  (sendLoop request around pipe fuel 0 0 0 ⟨[], []⟩).map fun sent =>
    let last : ℤ := request.length - 1
    { written := if byteAt request around last ≠ '\n' then sent.written ++ ['\n']
        else sent.written
      read := sent.read ++ [last] }

/-! ## Receiving -/

inductive State
  | normal | token_i | token_d | token_g | token_s | token_end
deriving DecidableEq

/-- The `switch` of `DaemonProcess::recv`. -/
def State.next : State → Char → State
  | .normal, buff => if buff = 'i' then .token_i else .normal
  | .token_i, buff => if buff = 'd' then .token_d else .normal
  | .token_d, buff => if buff = 'g' then .token_g else .normal
  | .token_g, buff => if buff = 's' then .token_s else .normal
  | .token_s, buff => if buff = '>' then .token_end else .normal
  | .token_end, _ => .token_end

/-- What follows the characters of a console: the end of the stream, an error of `read`, or nothing
while the stream stays open. -/
inductive Ending
  | closed | failing | silent
deriving DecidableEq

/-- What a console prints. -/
structure Console where
  printed : List Char
  ending : Ending
deriving DecidableEq

/-- The loop of `DaemonProcess::recv`: the text that is returned and the characters that are left;
`none` is a loop that has not ended. -/
def recvLoop (ending : Ending) :
    ℕ → State → List Char → List Char → Option (List Char × List Char)
  | 0, _, _, _ => none
  | fuel + 1, s, ss, printed =>
    if s = .token_end then some (ss, printed)
    else
      match printed with
      | buff :: rest => recvLoop ending fuel (s.next buff) (ss ++ [buff]) rest
      | [] =>
        match ending with
        | .failing => some (ss, [])
        -- `read` returns 0 and the loop goes on, or `read` does not return.
        | .closed | .silent => recvLoop ending fuel s ss []

/-- `DaemonProcess::recv`. -/
def recv (fuel : ℕ) (pid : ℤ) (console : Console) : Option (List Char × List Char) :=
  if pid < 0 then some ([], console.printed)
  else recvLoop console.ending fuel .normal [] console.printed

/-- What `DaemonProcess::sendrecv` has done when it returns: its code, what it has written and read
of the request, the response and the characters it has left unread. -/
structure Exchange where
  code : ℤ
  sent : Sent
  response : List Char
  unread : List Char
deriving DecidableEq

/-- `DaemonProcess::sendrecv`; `response` is the caller's text. -/
def sendrecv (fuel : ℕ) (pid : ℤ) (request : List Char) (around : ℤ → Char) (pipe : Pipe)
    (console : Console) (response : List Char) : Option Exchange :=
  if pid < 0 then some ⟨1, ⟨[], []⟩, response, console.printed⟩
  else
    (send fuel request around pipe).bind fun sent =>
      (recv fuel pid console).map fun received => ⟨0, sent, received.1, received.2⟩

/-! ## Framing -/

/-- The prompt of the console. -/
def prompt : List Char := ['i', 'd', 'g', 's', '>']

/-- The request, followed by a newline if it has none. -/
def line (request : List Char) : List Char :=
  if request.getLast? = some '\n' then request else request ++ ['\n']

/-- The output up to and including the first prompt and what follows it, or all of it if the stream
ends before; nothing is expected of a stream that stays open without a prompt. -/
def expected (console : Console) : Option (List Char × List Char) :=
  match Text.indexOf prompt console.printed with
  | some k =>
    some (console.printed.take (k + prompt.length), console.printed.drop (k + prompt.length))
  | none => if console.ending = .silent then none else some (console.printed, [])

/-- The exchange is framed correctly. -/
structure Framed (pid : ℤ) (request : List Char) (around : ℤ → Char) (pipe : Pipe)
    (console : Console) (response : List Char) : Prop where
  sends : ∃ fuel sent, send fuel request around pipe = some sent ∧ sent.written = line request ∧
    ∀ p ∈ sent.read, 0 ≤ p ∧ p < request.length
  receives : ∀ answer ∈ expected console, ∃ fuel exchange,
    sendrecv fuel pid request around pipe console response = some exchange ∧
      exchange.code = 0 ∧ (exchange.response, exchange.unread) = answer

/-- How many characters the first writes take of a request of a length. -/
def accepted (pipe : Pipe) (length n : ℕ) : ℕ := ∑ call ∈ Finset.range n, pipe.taken call length

/-- The last write takes the rest of the request, and each one before it leaves more than it took;
the length and what the last write took are an `int` together. -/
def TakenWhole (pipe : Pipe) (length : ℕ) : Prop :=
  ∃ n, accepted pipe length (n + 1) = length ∧
    (∀ call < n, accepted pipe length (call + 1) + pipe.taken call length < length) ∧
    length + pipe.taken n length < 2 ^ 31

/-- How many beginnings of the prompt follow each other at the end of a text; the text is given from
its end. -/
def beginnings : List Char → ℕ
  | 'i' :: text => beginnings text + 1
  | 'd' :: 'i' :: text => beginnings text + 1
  | 'g' :: 'd' :: 'i' :: text => beginnings text + 1
  | 's' :: 'g' :: 'd' :: 'i' :: text => beginnings text + 1
  | _ => 0

/-- Before the first prompt, an even number of beginnings of the prompt break off, each one where
the next one begins, or `read` fails behind the prompt; without a prompt, the stream does not come
to its end. -/
def PromptSeen (console : Console) : Prop :=
  (∀ k ∈ Text.indexOf prompt console.printed,
      Even (beginnings (console.printed.take k).reverse) ∨
        console.printed.drop (k + prompt.length) = [] ∧ console.ending = .failing) ∧
    (Text.indexOf prompt console.printed = none → console.ending ≠ .closed)

/-! ## The automaton -/

section Automaton

variable {s : State} {l : List Char} {buff : Char}

/-- The state after a number of characters. -/
def after (s : State) (l : List Char) : State := l.foldl State.next s

theorem after_append (s : State) (l l' : List Char) : after s (l ++ l') = after (after s l) l' :=
  foldl_append

/-- The part of the prompt that a state stands for. -/
def matched : State → List Char
  | .normal => []
  | .token_i => ['i']
  | .token_d => ['i', 'd']
  | .token_g => ['i', 'd', 'g']
  | .token_s => ['i', 'd', 'g', 's']
  | .token_end => prompt

/-- A character continues what has been matched, or all of it is forgotten. -/
theorem matched_next (hs : s ≠ .token_end) (buff : Char) :
    s.next buff = .normal ∨ matched (s.next buff) = matched s ++ [buff] := by
  cases s with
  | token_end => exact absurd rfl hs
  | normal | token_i | token_d | token_g | token_s =>
    rw [State.next]
    split
    · rename_i hbuff
      subst hbuff
      exact Or.inr rfl
    · exact Or.inl rfl

/-- What is matched has been read: last, or anywhere for the whole prompt. -/
theorem matched_after (l : List Char) :
    matched (after .normal l) <:+ l ∨ after .normal l = .token_end ∧ prompt <:+: l := by
  induction l using List.reverseRecOn with
  | nil => exact Or.inl (suffix_refl [])
  | append_singleton l buff ih =>
    rw [after_append]
    change matched ((after .normal l).next buff) <:+ _ ∨ (after .normal l).next buff = _ ∧ _
    rcases ih with hsuffix | ⟨hend, hinside⟩
    · by_cases hend : after .normal l = .token_end
      · refine Or.inr ⟨by rw [hend]; rfl, ?_⟩
        rw [hend] at hsuffix
        exact hsuffix.isInfix.trans (prefix_append l [buff]).isInfix
      · rcases matched_next hend buff with hnormal | hmatched
        · rw [hnormal]
          exact Or.inl (nil_suffix)
        · rw [hmatched]
          exact Or.inl ((suffix_append_inj_of_length_eq rfl).mpr ⟨hsuffix, rfl⟩)
    · refine Or.inr ⟨by rw [hend]; rfl, ?_⟩
      exact hinside.trans (prefix_append l [buff]).isInfix

/-- The automaton comes to its end with a prompt only. -/
theorem infix_of_after (h : after .normal l = .token_end) : prompt <:+: l := by
  rcases matched_after l with hsuffix | ⟨-, hinside⟩
  · rw [h] at hsuffix
    exact hsuffix.isInfix
  · exact hinside

/-- The beginnings of the prompt. -/
def starts : List (List Char) := [['i'], ['i', 'd'], ['i', 'd', 'g'], ['i', 'd', 'g', 's']]

/-- A beginning of the prompt is matched only if nothing has been matched before it. -/
theorem after_start {t : List Char} (ht : t ∈ starts) (hs : s ≠ .token_end) :
    after s t = .normal ↔ s ≠ .normal := by
  simp only [starts, mem_cons, not_mem_nil, or_false] at ht
  rcases ht with rfl | rfl | rfl | rfl <;> cases s <;> first | decide | exact absurd rfl hs

/-- The whole prompt is matched only if nothing has been matched before it. -/
theorem after_prompt (hs : s ≠ .token_end) :
    after s prompt = if s = .normal then .token_end else .normal := by
  cases s <;> first | rfl | exact absurd rfl hs

/-- One more beginning of the prompt changes whether something is matched. -/
theorem after_normal_start {r t : List Char} {n : ℕ} (ht : t ∈ starts)
    (h : ¬ prompt <:+: r ++ t) (ih : ¬ prompt <:+: r → (after .normal r = .normal ↔ Even n)) :
    after .normal (r ++ t) = .normal ↔ Even (n + 1) := by
  have hr : ¬ prompt <:+: r := fun hr => h (hr.trans (prefix_append r t).isInfix)
  rw [after_append, after_start ht (mt infix_of_after hr), Nat.even_add_one, Ne, ih hr]

/-- Nothing is matched after a text exactly if it ends with an even number of beginnings. -/
theorem after_eq_normal_iff (r : List Char) (h : ¬ prompt <:+: r.reverse) :
    after .normal r.reverse = .normal ↔ Even (beginnings r) := by
  induction r using beginnings.induct with
  | case1 text ih =>
    rw [reverse_cons] at h ⊢
    exact after_normal_start (t := ['i']) (by decide) h ih
  | case2 text ih =>
    have hr : ('d' :: 'i' :: text).reverse = text.reverse ++ ['i', 'd'] := by
      rw [reverse_cons, reverse_cons, append_assoc]
      rfl
    rw [hr] at h ⊢
    exact after_normal_start (by decide) h ih
  | case3 text ih =>
    have hr : ('g' :: 'd' :: 'i' :: text).reverse = text.reverse ++ ['i', 'd', 'g'] := by
      simp only [reverse_cons, append_assoc, cons_append, nil_append]
    rw [hr] at h ⊢
    exact after_normal_start (by decide) h ih
  | case4 text ih =>
    have hr : ('s' :: 'g' :: 'd' :: 'i' :: text).reverse =
        text.reverse ++ ['i', 'd', 'g', 's'] := by
      simp only [reverse_cons, append_assoc, cons_append, nil_append]
    rw [hr] at h ⊢
    exact after_normal_start (by decide) h ih
  | case5 r hi hd hg hs =>
    have hzero : beginnings r = 0 := by
      rw [beginnings]
      all_goals assumption
    rw [hzero]
    refine iff_of_true ?_ Even.zero
    rcases matched_after r.reverse with hsuffix | ⟨-, hinside⟩
    · obtain ⟨u, hu⟩ := hsuffix
      have hrev : r = (matched (after .normal r.reverse)).reverse ++ u.reverse := by
        rw [← reverse_append, hu, reverse_reverse]
      cases hstate : after .normal r.reverse with
      | normal => rfl
      | token_i =>
        rw [hstate] at hrev
        exact absurd hrev (hi u.reverse)
      | token_d =>
        rw [hstate] at hrev
        exact absurd hrev (hd u.reverse)
      | token_g =>
        rw [hstate] at hrev
        exact absurd hrev (hg u.reverse)
      | token_s =>
        rw [hstate] at hrev
        exact absurd hrev (hs u.reverse)
      | token_end => exact absurd (infix_of_after hstate) h
    · exact absurd hinside h

end Automaton

/-! ## What is received -/

section Receiving

variable {ending : Ending} {s : State} {ss l rest : List Char} {answer : List Char × List Char}

theorem recvLoop_end (fuel : ℕ) :
    recvLoop ending (fuel + 1) .token_end ss rest = some (ss, rest) :=
  if_pos rfl

theorem recvLoop_cons (hs : s ≠ .token_end) (fuel : ℕ) (buff : Char) :
    recvLoop ending (fuel + 1) s ss (buff :: rest) =
      recvLoop ending fuel (s.next buff) (ss ++ [buff]) rest :=
  if_neg hs

theorem recvLoop_nil (hs : s ≠ .token_end) (fuel : ℕ) :
    recvLoop ending (fuel + 1) s ss [] =
      if ending = .failing then some (ss, []) else recvLoop ending fuel s ss [] := by
  cases ending <;> exact if_neg hs

/-- A part of the output that does not bring the automaton to its end is read. -/
theorem recvLoop_append (h : ∀ p, p <+: l → p ≠ l → after s p ≠ .token_end) (fuel : ℕ) :
    recvLoop ending (l.length + fuel) s ss (l ++ rest) =
      recvLoop ending fuel (after s l) (ss ++ l) rest := by
  induction l generalizing s ss with
  | nil => rw [length_nil, Nat.zero_add, append_nil]; rfl
  | cons buff l ih =>
    have hs : s ≠ .token_end := h [] nil_prefix (cons_ne_nil buff l).symm
    have hnext : ∀ p, p <+: l → p ≠ l → after (s.next buff) p ≠ .token_end := fun p hp hne =>
      h (buff :: p) (cons_prefix_cons.mpr ⟨rfl, hp⟩) fun heq => hne (List.cons.inj heq).2
    have hfuel : (buff :: l).length + fuel = (l.length + fuel) + 1 := by
      rw [length_cons]
      omega
    rw [hfuel, cons_append, recvLoop_cons hs, ih hnext, append_assoc]
    rfl

/-- A loop that has ended has ended with more fuel. -/
theorem recvLoop_mono {fuel : ℕ} (h : recvLoop ending fuel s ss rest = some answer) (n : ℕ) :
    recvLoop ending (n + fuel) s ss rest = some answer := by
  induction fuel generalizing s ss rest with
  | zero => cases h
  | succ fuel ih =>
    rw [← Nat.add_assoc]
    by_cases hs : s = .token_end
    · subst hs
      rw [recvLoop_end] at h ⊢
      exact h
    · cases rest with
      | cons buff rest =>
        rw [recvLoop_cons hs] at h ⊢
        exact ih h
      | nil =>
        rw [recvLoop_nil hs] at h ⊢
        split
        · rename_i hfailing
          rwa [if_pos hfailing] at h
        · rename_i hfailing
          rw [if_neg hfailing] at h
          exact ih h

/-- What is returned is at least what has been read. -/
theorem le_length_of_recvLoop {fuel : ℕ} (h : recvLoop ending fuel s ss rest = some answer) :
    ss.length ≤ answer.1.length := by
  induction fuel generalizing s ss rest with
  | zero => cases h
  | succ fuel ih =>
    by_cases hs : s = .token_end
    · subst hs
      rw [recvLoop_end] at h
      cases h
      exact le_rfl
    · cases rest with
      | cons buff rest =>
        rw [recvLoop_cons hs] at h
        have hle := ih h
        rw [length_append] at hle
        exact (Nat.le_add_right _ _).trans hle
      | nil =>
        rw [recvLoop_nil hs] at h
        split at h
        · cases h
          exact le_rfl
        · exact ih h

/-- As long as the automaton is not at its end, the next character is returned. -/
theorem lt_length_of_recvLoop {fuel : ℕ} (hs : s ≠ .token_end) (hrest : rest ≠ [])
    (h : recvLoop ending fuel s ss rest = some answer) : ss.length < answer.1.length := by
  cases fuel with
  | zero => cases h
  | succ fuel =>
    cases rest with
    | nil => exact absurd rfl hrest
    | cons buff rest =>
      rw [recvLoop_cons hs] at h
      have hle := le_length_of_recvLoop h
      rw [length_append] at hle
      exact hle

/-- Behind the last character the loop ends if `read` fails, and only then. -/
theorem recvLoop_nil_iff (hs : s ≠ .token_end) :
    (∃ fuel, recvLoop ending fuel s ss [] = some answer) ↔
      ending = .failing ∧ answer = (ss, []) := by
  constructor
  · rintro ⟨fuel, h⟩
    induction fuel with
    | zero => cases h
    | succ fuel ih =>
      rw [recvLoop_nil hs] at h
      split at h
      · rename_i hfailing
        exact ⟨hfailing, (Option.some.inj h).symm⟩
      · exact ih h
  · rintro ⟨hfailing, rfl⟩
    exact ⟨1, by rw [recvLoop_nil hs, if_pos hfailing]⟩

/-- What the loop returns of the whole output is what it returns of the rest. -/
theorem exists_recvLoop_append (h : ∀ p, p <+: l → p ≠ l → after s p ≠ .token_end) :
    (∃ fuel, recvLoop ending fuel s ss (l ++ rest) = some answer) ↔
      ∃ fuel, recvLoop ending fuel (after s l) (ss ++ l) rest = some answer := by
  constructor
  · rintro ⟨fuel, hfuel⟩
    have hmore := recvLoop_mono hfuel l.length
    rw [recvLoop_append h] at hmore
    exact ⟨fuel, hmore⟩
  · rintro ⟨fuel, hfuel⟩
    exact ⟨l.length + fuel, (recvLoop_append h fuel).trans hfuel⟩

/-- Before the first prompt is complete there is none. -/
theorem not_infix_of_prefix {printed p : List Char} {k : ℕ}
    (hk : Text.indexOf prompt printed = some k) (hp : p <+: printed)
    (hlength : p.length < k + prompt.length) : ¬ prompt <:+: p := by
  rintro ⟨a, b, rfl⟩
  obtain ⟨-, -, hfirst⟩ := Text.indexOf_eq_some hk
  obtain ⟨c, rfl⟩ := hp
  rw [length_append, length_append] at hlength
  refine hfirst a.length (by omega) ?_
  rw [append_assoc, append_assoc, drop_left]
  exact prefix_append prompt _

/-- Without a prompt the whole output is returned if `read` fails. -/
theorem exists_recvLoop_of_none {printed : List Char} (hk : Text.indexOf prompt printed = none) :
    (∃ fuel, recvLoop ending fuel .normal [] printed = some answer) ↔
      ending = .failing ∧ answer = (printed, []) := by
  have hnone : ∀ p, p <+: printed → after .normal p ≠ .token_end := fun p hp hend => by
    have hfound := Text.isSome_indexOf.mpr ((infix_of_after hend).trans hp.isInfix)
    rw [hk] at hfound
    cases hfound
  have happend : (∃ fuel, recvLoop ending fuel .normal [] (printed ++ []) = some answer) ↔
      ∃ fuel, recvLoop ending fuel (after .normal printed) ([] ++ printed) [] = some answer :=
    exists_recvLoop_append fun p hp _ => hnone p hp
  rw [append_nil, nil_append] at happend
  exact happend.trans (recvLoop_nil_iff (hnone printed (prefix_refl printed)))

/-- With a prompt the loop goes on behind it, in its last state if nothing has been matched before
the prompt. -/
theorem exists_recvLoop_of_some {printed : List Char} {k : ℕ}
    (hk : Text.indexOf prompt printed = some k) :
    (∃ fuel, recvLoop ending fuel .normal [] printed = some answer) ↔
      ∃ fuel, recvLoop ending fuel
        (if Even (beginnings (printed.take k).reverse) then .token_end else .normal)
        (printed.take (k + prompt.length)) (printed.drop (k + prompt.length)) = some answer := by
  obtain ⟨⟨b, hb⟩, hle, -⟩ := Text.indexOf_eq_some hk
  have hwhole : printed.take (k + prompt.length) = printed.take k ++ prompt := by
    rw [take_add, ← hb, take_left]
  have hlength : (printed.take (k + prompt.length)).length = k + prompt.length := by
    rw [hwhole, length_append, length_take, Nat.min_eq_left hle]
  have hnone : ∀ p, p <+: printed.take (k + prompt.length) →
      p ≠ printed.take (k + prompt.length) → after .normal p ≠ .token_end := fun p hp hne hend => by
    have hlt : p.length < k + prompt.length := by
      rw [← hlength]
      exact Nat.lt_of_le_of_ne hp.length_le fun heq => hne (hp.eq_of_length heq)
    exact not_infix_of_prefix hk (hp.trans (List.take_prefix _ _)) hlt (infix_of_after hend)
  have hpre : ¬ prompt <:+: printed.take k := by
    refine not_infix_of_prefix hk (List.take_prefix _ _) ?_
    rw [length_take, Nat.min_eq_left hle]
    exact Nat.lt_add_of_pos_right (by decide)
  have hstate : after .normal (printed.take (k + prompt.length)) =
      if Even (beginnings (printed.take k).reverse) then .token_end else .normal := by
    have hnormal := after_eq_normal_iff (printed.take k).reverse
    rw [reverse_reverse] at hnormal
    rw [hwhole, after_append, after_prompt (mt infix_of_after hpre)]
    exact if_congr (hnormal hpre) rfl rfl
  have happend : (∃ fuel, recvLoop ending fuel .normal []
        (printed.take (k + prompt.length) ++ printed.drop (k + prompt.length)) = some answer) ↔
      ∃ fuel, recvLoop ending fuel (after .normal (printed.take (k + prompt.length)))
        ([] ++ printed.take (k + prompt.length)) (printed.drop (k + prompt.length)) =
          some answer :=
    exists_recvLoop_append hnone
  rwa [take_append_drop, nil_append, hstate] at happend

/-- Whether the loop returns what is expected. -/
theorem receives_iff (console : Console) :
    (∀ answer ∈ expected console, ∃ fuel,
      recvLoop console.ending fuel .normal [] console.printed = some answer) ↔
      PromptSeen console := by
  obtain ⟨printed, ending⟩ := console
  cases hk : Text.indexOf prompt printed with
  | none =>
    have hpos : PromptSeen ⟨printed, ending⟩ ↔ ending ≠ .closed := by
      rw [PromptSeen, hk]
      exact ⟨fun h => h.2 rfl, fun h => ⟨fun k hmem => (by cases hmem), fun _ => h⟩⟩
    rw [hpos, expected, hk]
    cases ending with
    | silent => exact iff_of_true (fun answer hanswer => by cases hanswer) (by decide)
    | failing =>
      refine iff_of_true (fun answer hanswer => ?_) (by decide)
      cases hanswer
      exact (exists_recvLoop_of_none hk).mpr ⟨rfl, rfl⟩
    | closed =>
      refine iff_of_false (fun h => ?_) fun h => h rfl
      cases ((exists_recvLoop_of_none hk).mp (h (printed, []) rfl)).1
  | some k =>
    have hpos : PromptSeen ⟨printed, ending⟩ ↔ Even (beginnings (printed.take k).reverse) ∨
        printed.drop (k + prompt.length) = [] ∧ ending = .failing := by
      rw [PromptSeen, hk]
      exact ⟨fun h => h.1 k rfl, fun h => ⟨fun j hj => Option.some.inj hj ▸ h, fun hnone => by
        cases hnone⟩⟩
    have hexpected : ∀ P : List Char × List Char → Prop,
        (∀ answer ∈ expected ⟨printed, ending⟩, P answer) ↔
          P (printed.take (k + prompt.length), printed.drop (k + prompt.length)) := fun P => by
      rw [expected, hk]
      exact ⟨fun h => h _ rfl, fun h answer hanswer => Option.some.inj hanswer ▸ h⟩
    rw [hpos, hexpected]
    change (∃ fuel, recvLoop ending fuel .normal [] printed = _) ↔ _
    rw [exists_recvLoop_of_some hk]
    by_cases heven : Even (beginnings (printed.take k).reverse)
    · rw [if_pos heven]
      exact iff_of_true ⟨1, recvLoop_end 0⟩ (Or.inl heven)
    · rw [if_neg heven]
      cases hrest : printed.drop (k + prompt.length) with
      | nil =>
        rw [recvLoop_nil_iff (by decide)]
        exact ⟨fun h => Or.inr ⟨rfl, h.1⟩, fun h => ⟨(h.resolve_left heven).2, rfl⟩⟩
      | cons buff rest =>
        refine iff_of_false ?_ fun h => ?_
        · rintro ⟨fuel, hfuel⟩
          have hnormal : State.normal ≠ .token_end := by decide
          have hlt := lt_length_of_recvLoop hnormal (cons_ne_nil buff rest) hfuel
          exact lt_irrefl _ hlt
        · cases (h.resolve_left heven).1

end Receiving

/-! ## What is sent -/

section Sending

variable {request : List Char} {around : ℤ → Char} {pipe : Pipe} {sent sent' : Sent}

/-- What the write before the `call`-th one has taken. -/
def previous (pipe : Pipe) (length : ℕ) : ℕ → ℕ
  | 0 => 0
  | call + 1 => pipe.taken call length

theorem accepted_succ (pipe : Pipe) (length n : ℕ) :
    accepted pipe length (n + 1) = accepted pipe length n + pipe.taken n length :=
  Finset.sum_range_succ _ n

theorem addInt_of_lt {a b : ℕ} (h : a + b < 2 ^ 31) : addInt a b = some (a + b) := if_pos h

theorem addInt_of_not_lt {a b : ℕ} (h : ¬ a + b < 2 ^ 31) : addInt a b = none := if_neg h

/-- Two writes one after the other are one. -/
theorem Sent.write_write (sent : Sent) (offset a b : ℕ) :
    (sent.write request around offset a).write request around (offset + a) b =
      sent.write request around offset (a + b) := by
  rw [Sent.write, Sent.write, Sent.write, ← range'_append_1]
  simp only [map_append, append_assoc]

theorem Sent.write_zero (sent : Sent) (offset : ℕ) :
    sent.write request around offset 0 = sent := by
  rw [Sent.write, range'_zero, map_nil, map_nil, append_nil, append_nil]

theorem accepted_mono (pipe : Pipe) (length : ℕ) : Monotone (accepted pipe length) :=
  monotone_nat_of_le_succ fun n => by
    rw [accepted_succ]
    exact Nat.le_add_right _ _

/-- One round of the loop. -/
theorem sendLoop_succ (fuel call : ℕ) :
    sendLoop request around pipe (fuel + 1) call (accepted pipe request.length call)
        (previous pipe request.length call) sent =
      if accepted pipe request.length call + previous pipe request.length call < 2 ^ 31 then
        if accepted pipe request.length call + previous pipe request.length call <
            request.length then
          if accepted pipe request.length (call + 1) < 2 ^ 31 then
            sendLoop request around pipe fuel (call + 1) (accepted pipe request.length (call + 1))
              (previous pipe request.length (call + 1))
              (sent.write request around (accepted pipe request.length call)
                (pipe.taken call request.length))
          else none
        else some sent
      else none := by
  rw [sendLoop, accepted_succ]
  by_cases hsum :
      accepted pipe request.length call + previous pipe request.length call < 2 ^ 31
  · rw [addInt_of_lt hsum, if_pos hsum]
    refine if_congr Iff.rfl ?_ rfl
    by_cases hnext : accepted pipe request.length call + pipe.taken call request.length < 2 ^ 31
    · rw [if_pos hnext]
      change (match addInt _ _ with | none => none | some next => _) = _
      rw [addInt_of_lt hnext]
      rfl
    · rw [if_neg hnext]
      change (match addInt _ _ with | none => none | some next => _) = _
      rw [addInt_of_not_lt hnext]
  · rw [addInt_of_not_lt hsum, if_neg hsum]

/-- The writes that the loop still makes are `m - call`. -/
def StopsFrom (pipe : Pipe) (length call m : ℕ) : Prop :=
  call ≤ m ∧
    (∀ i, call ≤ i → i < m → accepted pipe length i + previous pipe length i < length) ∧
    length ≤ accepted pipe length m + previous pipe length m ∧
    accepted pipe length m + previous pipe length m < 2 ^ 31

/-- A loop that ends has made its writes one behind the other. -/
theorem exists_stopsFrom {fuel call : ℕ}
    (h : sendLoop request around pipe fuel call (accepted pipe request.length call)
      (previous pipe request.length call) sent = some sent') :
    ∃ m, StopsFrom pipe request.length call m ∧
      sent' = sent.write request around (accepted pipe request.length call)
        (accepted pipe request.length m - accepted pipe request.length call) := by
  induction fuel generalizing call sent with
  | zero => cases h
  | succ fuel ih =>
    rw [sendLoop_succ] at h
    split at h
    · rename_i hint
      split at h
      · rename_i hshort
        split at h
        · obtain ⟨m, ⟨hle, hrounds, hlast, hlastInt⟩, rfl⟩ := ih h
          refine ⟨m, ⟨Nat.le_of_succ_le hle, fun i hi hm => ?_, hlast, hlastInt⟩, ?_⟩
          · rcases Nat.eq_or_lt_of_le hi with rfl | hlt
            · exact hshort
            · exact hrounds i hlt hm
          · have hmono := accepted_mono pipe request.length hle
            rw [accepted_succ] at hmono ⊢
            rw [Sent.write_write]
            congr 1
            omega
        · cases h
      · rename_i hlong
        cases h
        refine ⟨call, ⟨le_rfl, fun i hi hm => absurd (hi.trans_lt hm) (lt_irrefl call),
          Nat.le_of_not_lt hlong, hint⟩, ?_⟩
        rw [Nat.sub_self, Sent.write_zero]
    · cases h

/-- A loop that makes finitely many writes ends. -/
theorem exists_sendLoop (sent : Sent) {call m : ℕ} (h : StopsFrom pipe request.length call m) :
    ∃ fuel, sendLoop request around pipe fuel call (accepted pipe request.length call)
      (previous pipe request.length call) sent =
        some (sent.write request around (accepted pipe request.length call)
          (accepted pipe request.length m - accepted pipe request.length call)) := by
  obtain ⟨hle, hrounds, hlast, hlastInt⟩ := h
  obtain ⟨d, rfl⟩ := Nat.exists_eq_add_of_le hle
  induction d generalizing call sent with
  | zero =>
    refine ⟨1, ?_⟩
    rw [Nat.add_zero] at hlast hlastInt ⊢
    rw [sendLoop_succ, if_pos hlastInt, if_neg (Nat.not_lt.mpr hlast), Nat.sub_self,
      Sent.write_zero]
  | succ d ih =>
    have hshort := hrounds call le_rfl (by omega)
    have hindex : call + (d + 1) = call + 1 + d := by omega
    rw [hindex] at hrounds hlast hlastInt ⊢
    have hmono := accepted_mono pipe request.length (Nat.le_add_right (call + 1) d)
    have hstep := Nat.le_add_right (call + 1) d
    obtain ⟨fuel, hfuel⟩ := ih _ hstep
      (fun i hi hm => hrounds i (Nat.le_of_succ_le hi) hm) hlast hlastInt
    refine ⟨fuel + 1, ?_⟩
    rw [sendLoop_succ, if_pos (by omega), if_pos hshort, if_pos (by omega), hfuel]
    rw [accepted_succ] at hmono ⊢
    rw [Sent.write_write]
    congr 2
    omega

/-- The bytes of the request are its characters. -/
theorem map_byteAt (request : List Char) (around : ℤ → Char) :
    ((List.range' 0 request.length).map fun p : ℕ => byteAt request around p) = request := by
  refine ext_getElem (by rw [length_map, length_range']) fun i h₁ h₂ => ?_
  rw [getElem_map, getElem_range', byteAt, if_pos (Int.natCast_nonneg _)]
  simp only [Nat.zero_add, Nat.one_mul, Int.toNat_natCast]
  exact getD_eq_getElem request _ h₂

/-- The last character decides whether the newline is missing. -/
theorem byteAt_last (h : request ≠ []) (around : ℤ → Char) :
    byteAt request around (request.length - 1 : ℤ) = request.getLast h := by
  have hpos := length_pos_of_ne_nil h
  have hcast : (request.length - 1 : ℤ) = ((request.length - 1 : ℕ) : ℤ) := by omega
  rw [hcast, byteAt, if_pos (Int.natCast_nonneg _), Int.toNat_natCast,
    getD_eq_getElem request _ (by omega), getLast_eq_getElem]

/-- What is sent after the writes of the loop. -/
theorem send_eq_some {fuel : ℕ} :
    send fuel request around pipe = some sent' ↔
      ∃ sent, sendLoop request around pipe fuel 0 0 0 ⟨[], []⟩ = some sent ∧
        sent' = ⟨if byteAt request around (request.length - 1 : ℤ) ≠ '\n' then
          sent.written ++ ['\n'] else sent.written, sent.read ++ [(request.length - 1 : ℤ)]⟩ := by
  rw [send, Option.map_eq_some_iff]
  exact exists_congr fun sent => and_congr_right fun _ => eq_comm

/-- As many characters are written as the line has only if the loop has written the request. -/
theorem eq_length_of_line {written : List Char} (h : request ≠ [])
    (hline : (if byteAt request around (request.length - 1 : ℤ) ≠ '\n' then written ++ ['\n']
      else written) = line request) : written.length = request.length := by
  rw [byteAt_last h, line, getLast?_eq_some_getLast h] at hline
  by_cases hlast : request.getLast h = '\n'
  · rw [if_neg (not_not.mpr hlast), if_pos (congrArg some hlast)] at hline
    rw [hline]
  · rw [if_pos hlast, if_neg (fun heq => hlast (Option.some.inj heq))] at hline
    have hlength := congrArg List.length hline
    rw [length_append, length_append] at hlength
    exact Nat.add_right_cancel hlength

/-- The writes are right if they end with the request. -/
theorem stopsFrom_iff_takenWhole (h : request ≠ []) :
    (∃ m, StopsFrom pipe request.length 0 m ∧ accepted pipe request.length m = request.length) ↔
      TakenWhole pipe request.length := by
  have hpos := length_pos_of_ne_nil h
  constructor
  · rintro ⟨m, ⟨-, hrounds, -, hint⟩, hall⟩
    cases m with
    | zero => exact absurd hall.symm (Nat.ne_of_gt hpos)
    | succ n =>
      refine ⟨n, hall, fun call hcall => hrounds (call + 1) (Nat.zero_le _) (by omega), ?_⟩
      rwa [hall] at hint
  · rintro ⟨n, hall, hrounds, hint⟩
    refine ⟨n + 1, ⟨Nat.zero_le _, fun i _ hi => ?_, ?_, ?_⟩, hall⟩
    · cases i with
      | zero => exact hpos
      | succ call => exact hrounds call (by omega)
    · rw [hall]
      exact Nat.le_add_right _ _
    · rwa [hall]

/-- Whether the line is written, and only the request read. -/
theorem sends_iff (request : List Char) (around : ℤ → Char) (pipe : Pipe) :
    (∃ fuel sent, send fuel request around pipe = some sent ∧ sent.written = line request ∧
      ∀ p ∈ sent.read, 0 ≤ p ∧ p < request.length) ↔
      request ≠ [] ∧ TakenWhole pipe request.length := by
  constructor
  · rintro ⟨fuel, sent', hsend, hwritten, hread⟩
    obtain ⟨sent, hloop, rfl⟩ := send_eq_some.mp hsend
    have hne : request ≠ [] := fun hnil => by
      subst hnil
      have hlast := (hread (-1) (mem_append_right _ (mem_singleton.mpr rfl))).1
      omega
    have hzero : sendLoop request around pipe fuel 0 (accepted pipe request.length 0)
        (previous pipe request.length 0) ⟨[], []⟩ = some sent := hloop
    obtain ⟨m, hm, rfl⟩ := exists_stopsFrom hzero
    have hlength := eq_length_of_line hne hwritten
    refine ⟨hne, (stopsFrom_iff_takenWhole hne).mp ⟨m, hm, ?_⟩⟩
    rw [Sent.write, nil_append, length_map, length_range'] at hlength
    exact hlength
  · rintro ⟨hne, htaken⟩
    obtain ⟨m, hm, hall⟩ := (stopsFrom_iff_takenWhole hne).mpr htaken
    obtain ⟨fuel, hfuel⟩ : ∃ fuel, sendLoop request around pipe fuel 0 _ _ ⟨[], []⟩ = _ :=
      exists_sendLoop ⟨[], []⟩ hm
    have hloop : sendLoop request around pipe fuel 0 0 0 ⟨[], []⟩ =
        some ⟨request, (List.range' 0 request.length).map fun p : ℕ => (p : ℤ)⟩ := by
      rw [hall] at hfuel
      refine hfuel.trans ?_
      change some (Sent.write _ request around 0 (request.length - 0)) = _
      rw [Sent.write, Nat.sub_zero, nil_append, nil_append, map_byteAt]
    refine ⟨fuel, _, send_eq_some.mpr ⟨_, hloop, rfl⟩, ?_, ?_⟩
    · change (if _ then request ++ ['\n'] else request) = _
      rw [byteAt_last hne, line, getLast?_eq_some_getLast hne]
      by_cases hlast : request.getLast hne = '\n'
      · rw [if_neg (not_not.mpr hlast), if_pos (congrArg some hlast)]
      · rw [if_pos hlast, if_neg (fun heq => hlast (Option.some.inj heq))]
    · intro p hp
      have hpos := length_pos_of_ne_nil hne
      rcases mem_append.mp hp with hp | hp
      · obtain ⟨i, hi, rfl⟩ := mem_map.mp hp
        have hlt := (mem_range'_1.mp hi).2
        omega
      · rw [mem_singleton] at hp
        omega

/-- A loop that has ended has ended with more fuel. -/
theorem sendLoop_mono {fuel call offset sz : ℕ}
    (h : sendLoop request around pipe fuel call offset sz sent = some sent') (n : ℕ) :
    sendLoop request around pipe (n + fuel) call offset sz sent = some sent' := by
  induction fuel generalizing call offset sz sent with
  | zero => cases h
  | succ fuel ih =>
    rw [← Nat.add_assoc]
    rw [sendLoop] at h ⊢
    split at h
    · cases h
    · split at h
      · rename_i hshort
        rw [if_pos hshort]
        dsimp only at h ⊢
        split at h
        · cases h
        · exact ih h
      · rename_i hlong
        rwa [if_neg hlong]

end Sending

/-! ## The exchange -/

section Exchange

variable {pid : ℤ} {request : List Char} {around : ℤ → Char} {pipe : Pipe} {console : Console}
  {response : List Char}

/-- A running console is sent the request and its output is received. -/
theorem sendrecv_eq_some (hpid : 0 ≤ pid) {fuel : ℕ} {exchange : Exchange} :
    sendrecv fuel pid request around pipe console response = some exchange ↔
      ∃ sent answer, send fuel request around pipe = some sent ∧
        recvLoop console.ending fuel .normal [] console.printed = some answer ∧
        exchange = ⟨0, sent, answer.1, answer.2⟩ := by
  rw [sendrecv, if_neg (Int.not_lt.mpr hpid), Option.bind_eq_some_iff]
  refine exists_congr fun sent => ?_
  rw [recv, if_neg (Int.not_lt.mpr hpid), Option.map_eq_some_iff]
  constructor
  · rintro ⟨hsend, answer, hrecv, rfl⟩
    exact ⟨answer, hsend, hrecv, rfl⟩
  · rintro ⟨answer, hsend, hrecv, rfl⟩
    exact ⟨hsend, answer, hrecv, rfl⟩

/-- The exchange of a correctly framed request receives the output up to the first prompt. -/
theorem promptSeen_of_framed (hpid : 0 ≤ pid)
    (h : Framed pid request around pipe console response) : PromptSeen console := by
  refine (receives_iff console).mp fun answer hanswer => ?_
  obtain ⟨fuel, exchange, hrun, -, rfl⟩ := h.receives answer hanswer
  obtain ⟨sent, answer, -, hrecv, rfl⟩ := (sendrecv_eq_some hpid).mp hrun
  exact ⟨fuel, hrecv⟩

/-- The exchange with a running console is framed correctly exactly if there is a request, the
writes end with it, and the first prompt is not preceded by one that breaks off. -/
theorem framed_iff (hpid : 0 ≤ pid) :
    Framed pid request around pipe console response ↔
      request ≠ [] ∧ TakenWhole pipe request.length ∧ PromptSeen console := by
  constructor
  · intro h
    obtain ⟨hne, htaken⟩ := (sends_iff request around pipe).mp h.sends
    exact ⟨hne, htaken, promptSeen_of_framed hpid h⟩
  · rintro ⟨hne, htaken, hseen⟩
    have hsends := (sends_iff request around pipe).mpr ⟨hne, htaken⟩
    refine ⟨hsends, fun answer hanswer => ?_⟩
    obtain ⟨fuel, sent, hsend, -, -⟩ := hsends
    obtain ⟨fuel', hrecv⟩ := (receives_iff console).mpr hseen answer hanswer
    obtain ⟨looped, hloop, rfl⟩ := send_eq_some.mp hsend
    have hsend' := send_eq_some.mpr ⟨looped, sendLoop_mono hloop fuel', rfl⟩
    have hrecv' := recvLoop_mono hrecv fuel
    rw [Nat.add_comm] at hrecv'
    exact ⟨fuel' + fuel, _, (sendrecv_eq_some hpid).mpr ⟨_, answer, hsend', hrecv', rfl⟩, rfl, rfl⟩

end Exchange

/-! ## A console that prints one character too many -/

/-- A pipe with room for everything. -/
def wide : Pipe where
  taken := fun _ asked => asked
  taken_pos := fun _ _ h => h
  taken_le := fun _ _ => le_rfl

/-- The character before the prompt begins it as well. -/
def stuttering : Console := ⟨'i' :: prompt, .silent⟩

theorem framed_iff_wide :
    Framed 1 ['q'] (fun _ => ' ') wide ⟨prompt, .closed⟩ [] ↔
      ['q'] ≠ [] ∧ TakenWhole wide 1 ∧ PromptSeen ⟨prompt, .closed⟩ :=
  framed_iff (by decide)

/-- The prompt is missed behind the beginning of a prompt. -/
theorem not_framed_stuttering : ¬ Framed 1 ['q'] (fun _ => ' ') wide stuttering [] := fun h => by
  have hodd := (promptSeen_of_framed (by decide) h).1 1 (by decide)
  revert hodd
  decide

end Idgs.Net.DaemonProcess
