import Mathlib.Algebra.Group.Nat.Defs
import Mathlib.Data.List.Basic

/-!
# Frames on a byte stream

A frame is a body with a header in front that holds the length of the body, little endian. A reader
takes the header and then as many bytes as it says. Bytes carry a tag that says whose frame they are
from; a reader does not see it.
-/

namespace Idgs.Common

open List

/-- A number in `k` bytes, little endian, cut off at their size. -/
def leBytes : ℕ → ℕ → List UInt8
  | 0, _ => []
  | k + 1, n => UInt8.ofNat n :: leBytes k (n / 256)

/-- The number in some bytes. -/
def ofLeBytes : List UInt8 → ℕ
  | [] => 0
  | b :: bs => b.toNat + 256 * ofLeBytes bs

@[simp] theorem length_leBytes (k n : ℕ) : (leBytes k n).length = k := by
  induction k generalizing n with
  | zero => rfl
  | succ k ih => exact congrArg (· + 1) (ih (n / 256))

theorem ofLeBytes_leBytes {k n : ℕ} (hn : n < 256 ^ k) : ofLeBytes (leBytes k n) = n := by
  induction k generalizing n with
  | zero =>
    rw [Nat.pow_zero] at hn
    have hzero : n = 0 := by omega
    rw [hzero]
    rfl
  | succ k ih =>
    have hdiv : n / 256 < 256 ^ k := by
      rw [Nat.pow_succ] at hn
      exact Nat.div_lt_of_lt_mul (by omega)
    show (UInt8.ofNat n).toNat + 256 * ofLeBytes (leBytes k (n / 256)) = n
    rw [ih hdiv]
    have hmod : (UInt8.ofNat n).toNat = n % 256 := UInt8.toNat_ofNat'
    omega

/-- The bytes of a frame; the header has four bytes. -/
def frame (body : List UInt8) : List UInt8 := leBytes 4 body.length ++ body

/-- The length of a header. -/
def headerLength : ℕ := 4

theorem length_frame (body : List UInt8) : (frame body).length = headerLength + body.length := by
  unfold frame headerLength
  rw [length_append, length_leBytes]

section Tagged

variable {τ : Type*}

/-- Bytes with a tag. -/
def tagged (t : τ) (bytes : List UInt8) : List (τ × UInt8) := bytes.map fun b => (t, b)

theorem tagged_append (t : τ) (bytes bytes' : List UInt8) :
    tagged t (bytes ++ bytes') = tagged t bytes ++ tagged t bytes' := map_append

@[simp] theorem length_tagged (t : τ) (bytes : List UInt8) :
    (tagged t bytes).length = bytes.length :=
  length_map _

/-- What a reader takes from the header for the length of the body. -/
def bodyLength (header : List (τ × UInt8)) : ℕ := ofLeBytes (header.map Prod.snd)

theorem bodyLength_tagged {t : τ} {body : List UInt8} (hbody : body.length < 256 ^ 4) :
    bodyLength (tagged t (leBytes 4 body.length)) = body.length := by
  unfold bodyLength tagged
  rw [map_map]
  have hid : (leBytes 4 body.length).map (Prod.snd ∘ fun b => (t, b)) = leBytes 4 body.length :=
    map_id _
  rw [hid]
  exact ofLeBytes_leBytes hbody

/-- The first frame of a stream and what follows it, when the frame is there as a whole. -/
def takeFrame (stream : List (τ × UInt8)) : Option (List (τ × UInt8) × List (τ × UInt8)) :=
  let n := headerLength + bodyLength (stream.take headerLength)
  if headerLength ≤ stream.length ∧ n ≤ stream.length then some (stream.take n, stream.drop n)
  else none

/-- The header of a stream that begins with a frame. -/
theorem take_header {t : τ} {body : List UInt8} {stream rest : List (τ × UInt8)}
    (hstream : stream ++ rest = tagged t (frame body)) (hlength : headerLength ≤ stream.length) :
    stream.take headerLength = tagged t (leBytes 4 body.length) := by
  have htake : (stream ++ rest).take headerLength = tagged t (leBytes 4 body.length) := by
    rw [hstream]
    unfold frame
    rw [tagged_append]
    exact take_left' (by rw [length_tagged, length_leBytes]; rfl)
  rwa [take_append_of_le_length hlength] at htake

/-- A frame is taken as a whole. -/
theorem takeFrame_frame {t : τ} {body : List UInt8} (hbody : body.length < 256 ^ 4) :
    takeFrame (tagged t (frame body)) = some (tagged t (frame body), []) := by
  have hlength : (tagged t (frame body)).length = headerLength + body.length := by
    rw [length_tagged, length_frame]
  have hheader : (tagged t (frame body)).take headerLength = tagged t (leBytes 4 body.length) :=
    take_header (append_nil _) (by omega)
  unfold takeFrame
  rw [hheader, bodyLength_tagged hbody, if_pos ⟨by omega, by omega⟩,
    take_of_length_le (by omega), drop_of_length_le (by omega)]

/-- A part of a frame is not taken. -/
theorem takeFrame_part {t : τ} {body : List UInt8} {stream rest : List (τ × UInt8)}
    (hbody : body.length < 256 ^ 4)
    (hstream : stream ++ rest = tagged t (frame body)) (hrest : rest ≠ []) :
    takeFrame stream = none := by
  refine if_neg fun ⟨hlength, hwhole⟩ => ?_
  rw [take_header hstream hlength, bodyLength_tagged hbody] at hwhole
  have htotal := congrArg List.length hstream
  rw [length_append, length_tagged, length_frame] at htotal
  have hpos := length_pos_iff.mpr hrest
  omega

end Tagged

/-! ## All frames of a byte string -/

/-- The byte string starts with a whole frame. -/
def HasFrame (bytes : List UInt8) : Prop :=
  headerLength ≤ bytes.length ∧ headerLength + ofLeBytes (bytes.take headerLength) ≤ bytes.length

instance (bytes : List UInt8) : Decidable (HasFrame bytes) :=
  inferInstanceAs (Decidable (headerLength ≤ bytes.length ∧ _))

/-- The body of the first frame. -/
def firstBody (bytes : List UInt8) : List UInt8 :=
  (bytes.drop headerLength).take (ofLeBytes (bytes.take headerLength))

/-- What follows the first frame. -/
def afterFrame (bytes : List UInt8) : List UInt8 :=
  bytes.drop (headerLength + ofLeBytes (bytes.take headerLength))

theorem length_afterFrame_lt {bytes : List UInt8} (h : HasFrame bytes) :
    (afterFrame bytes).length < bytes.length := by
  have hlength := h.1
  unfold afterFrame
  rw [length_drop]
  unfold headerLength at hlength ⊢
  omega

/-- The bodies of the whole frames that a byte string starts with, and the bytes after them. -/
def splitFrames (bytes : List UInt8) : List (List UInt8) × List UInt8 :=
  if h : HasFrame bytes then
    (firstBody bytes :: (splitFrames (afterFrame bytes)).1, (splitFrames (afterFrame bytes)).2)
  else ([], bytes)
termination_by bytes.length
decreasing_by all_goals exact length_afterFrame_lt h

theorem splitFrames_of_hasFrame {bytes : List UInt8} (h : HasFrame bytes) :
    splitFrames bytes =
      (firstBody bytes :: (splitFrames (afterFrame bytes)).1,
        (splitFrames (afterFrame bytes)).2) := by
  rw [splitFrames, dif_pos h]

theorem splitFrames_of_not_hasFrame {bytes : List UInt8} (h : ¬HasFrame bytes) :
    splitFrames bytes = ([], bytes) := by
  rw [splitFrames, dif_neg h]

theorem not_hasFrame_nil : ¬HasFrame [] := fun h => absurd h.1 (by decide)

theorem take_headerLength_frame (body rest : List UInt8) :
    (frame body ++ rest).take headerLength = leBytes 4 body.length := by
  unfold frame
  rw [append_assoc]
  exact take_left' (length_leBytes 4 _)

theorem drop_headerLength_frame (body rest : List UInt8) :
    (frame body ++ rest).drop headerLength = body ++ rest := by
  unfold frame
  rw [append_assoc]
  exact drop_left' (length_leBytes 4 _)

/-- A frame is split off. -/
theorem splitFrames_frame {body : List UInt8} (hbody : body.length < 256 ^ 4) (rest : List UInt8) :
    splitFrames (frame body ++ rest) = (body :: (splitFrames rest).1, (splitFrames rest).2) := by
  have hsize : ofLeBytes ((frame body ++ rest).take headerLength) = body.length := by
    rw [take_headerLength_frame]
    exact ofLeBytes_leBytes hbody
  have hlength : (frame body ++ rest).length = headerLength + body.length + rest.length := by
    rw [length_append, length_frame]
  have hframe : HasFrame (frame body ++ rest) := by
    unfold HasFrame
    rw [hsize]
    omega
  have hfirst : firstBody (frame body ++ rest) = body := by
    unfold firstBody
    rw [hsize, drop_headerLength_frame]
    exact take_left
  have hafter : afterFrame (frame body ++ rest) = rest := by
    unfold afterFrame
    rw [hsize]
    exact drop_left' (length_frame body)
  rw [splitFrames_of_hasFrame hframe, hfirst, hafter]

/-- What was put into frames is split into the same bodies. -/
theorem splitFrames_flatMap {bodies : List (List UInt8)}
    (hbodies : ∀ body ∈ bodies, body.length < 256 ^ 4) (rest : List UInt8) :
    splitFrames
    (bodies.flatMap frame ++ rest) = (bodies ++ (splitFrames rest).1, (splitFrames rest).2) := by
  induction bodies with
  | nil => rfl
  | cons body bodies ih =>
    rw [flatMap_cons, append_assoc, splitFrames_frame (hbodies body mem_cons_self),
      ih fun other hother => hbodies other (mem_cons_of_mem _ hother)]
    rfl

end Idgs.Common
