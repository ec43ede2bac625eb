import Mathlib.Data.List.Basic
import Mathlib.Tactic.Common

/-!
# One record onto a stream socket

A stream link writes a record as a gather of spans.  The kernel takes any number of bytes of it, so
the loop resumes inside a span, and ends with the record written, the socket full, or the record abandoned.

* **`writeFrame_outcome`** — the socket gets the bytes right after the offset, as many as the step
  reports, and all of them when the frame is finished.
-/

namespace LibTracer.Net

open List

/-! ## A frame and its spans -/

/-- An outbound frame: the bytes it copied, and the links of the value it kept by reference. -/
structure EgressFrame where
  head : List UInt8
  links : List (List UInt8)
  nonempty : head ++ links.flatten ≠ []
  deriving DecidableEq

/-- The spans past the first `off` bytes; empty ones are skipped. -/
def pastSpans : Nat → List (List UInt8) → List (List UInt8)
  | _, [] => []
  | off, s :: ss =>
    if s.length ≤ off then pastSpans (off - s.length) ss else s.drop off :: pastSpans 0 ss

theorem pastSpans_flatten (off : Nat) (ss : List (List UInt8)) :
    (pastSpans off ss).flatten = ss.flatten.drop off := by
  induction ss generalizing off with
  | nil => simp [pastSpans]
  | cons s ss ih =>
    rw [pastSpans, flatten_cons]
    split
    next h => rw [ih, drop_append, drop_eq_nil_of_le h, nil_append]
    · rw [flatten_cons, ih, drop_zero, drop_append_of_le_length (by omega)]

namespace EgressFrame

def bytes (f : EgressFrame) : List UInt8 := f.head ++ f.links.flatten

def size (f : EgressFrame) : Nat := f.bytes.length

def spansFrom (f : EgressFrame) (off : Nat) : List (List UInt8) :=
  pastSpans off (f.head :: f.links)

theorem size_pos (f : EgressFrame) : 0 < f.size := length_pos_of_ne_nil f.nonempty

theorem spansFrom_flatten (f : EgressFrame) (off : Nat) :
    (f.spansFrom off).flatten = f.bytes.drop off := by
  rw [spansFrom, pastSpans_flatten, flatten_cons, bytes]

end EgressFrame

/-! ## The full-record write -/

/-- What one round of the write loop meets: the record's deadline passed, or what the call answered,
with the faults as `classify_write_fault` files them. -/
inductive SendRound where
  | expired
  | sent (n : Nat)
  | resume
  | stalled
  | peerGone
  | malformedCall
  deriving DecidableEq, Repr

inductive WriteOutcome where
  | complete
  | stalled
  | failed
  deriving DecidableEq, Repr

/-- How a full-record write ended, and how many bytes of the record reached the socket. -/
structure WriteResult where
  outcome : WriteOutcome
  moved : Nat
  deriving DecidableEq, Repr

def advance : List (List UInt8) → Nat → List (List UInt8) × Nat
  | [], skip => ([], skip)
  | s :: ss, skip => if s.length ≤ skip then advance ss (skip - s.length) else (s :: ss, skip)

/-- What one call is given: the rest of the entry a write stopped inside, or everything from the
entry on. -/
def gather (vec : List (List UInt8)) (skip : Nat) : List UInt8 :=
  if skip ≠ 0 then (vec.headD []).drop skip else vec.flatten

/-- The loop of `write_all_iov` from the first entry not fully written.  It gives back the result and
the bytes it put on the socket; `none` while the kernel has not answered yet. -/
def writeLoop (nonblock : Bool) :
    List SendRound → List (List UInt8) → Nat → Nat → Bool → Option (WriteResult × List UInt8)
  | _, [], _, moved, _ => some (⟨.complete, moved⟩, [])
  | [], _ :: _, _, _, _ => none
  | .expired :: _, _ :: _, _, moved, _ => some (⟨.stalled, moved⟩, [])
  | .sent n :: rs, v :: vs, skip, moved, _ =>
    let put := (gather (v :: vs) skip).take n
    -- a stream write of a non-empty buffer never answers 0: the peer is gone
    if put.length = 0 then some (⟨.failed, moved⟩, [])
    else
      let next := advance (v :: vs) (skip + put.length)
      (writeLoop nonblock rs next.1 next.2 (moved + put.length) false).map
        fun out => (out.1, put ++ out.2)
  | .resume :: rs, v :: vs, skip, moved, spent => writeLoop nonblock rs (v :: vs) skip moved spent
  | .stalled :: rs, v :: vs, skip, moved, spent =>
    if nonblock then some (⟨.stalled, moved⟩, [])
    else writeLoop nonblock rs (v :: vs) skip moved spent
  | .peerGone :: _, _ :: _, _, moved, _ => some (⟨.failed, moved⟩, [])
  | .malformedCall :: rs, v :: vs, skip, moved, spent =>
    -- one re-attempt for each stretch of progress
    if spent then some (⟨.failed, moved⟩, [])
    else writeLoop nonblock rs (v :: vs) skip moved true

/-- `write_all_iov` on an open or a closed descriptor. -/
def writeAllIov (isOpen nonblock : Bool) (rounds : List SendRound) (vec : List (List UInt8)) :
    Option (WriteResult × List UInt8) :=
  if isOpen then writeLoop nonblock rounds vec 0 0 false else some (⟨.failed, 0⟩, [])

theorem advance_left (vec : List (List UInt8)) (skip : Nat) :
    (advance vec skip).1.flatten.drop (advance vec skip).2 = vec.flatten.drop skip := by
  induction vec generalizing skip with
  | nil => rfl
  | cons v vs ih =>
    rw [advance]
    split
    next h => rw [ih, flatten_cons, drop_append, drop_eq_nil_of_le h, nil_append]
    · rfl

def Inside (vec : List (List UInt8)) (skip : Nat) : Prop :=
  skip = 0 ∨ skip < (vec.headD []).length ∨ vec = []

theorem inside_advance (vec : List (List UInt8)) (skip : Nat) :
    Inside (advance vec skip).1 (advance vec skip).2 := by
  induction vec generalizing skip with
  | nil => exact .inr (.inr rfl)
  | cons v vs ih =>
    rw [advance]
    split
    · exact ih _
    next h =>
      exact .inr (.inl (by simpa using h))

theorem gather_leads {vec : List (List UInt8)} {skip : Nat} (h : Inside vec skip) :
    gather vec skip <+: vec.flatten.drop skip := by
  rw [gather]
  by_cases hs : skip ≠ 0
  · rw [if_pos hs]
    rcases h with rfl | h | rfl
    · exact absurd rfl hs
    · cases vec with
      | nil => simp
      | cons v vs =>
        have hlt : skip < v.length := h
        rw [flatten_cons, drop_append_of_le_length (Nat.le_of_lt hlt)]
        exact prefix_append _ _
    · simp
  · have hzero : skip = 0 := not_not.mp hs
    subst hzero
    exact prefix_rfl

/-- What a write has done with the bytes that were left: it put the first of them, counted them, and
says complete only of all of them. -/
structure Wrote (left : List UInt8) (moved : Nat) (r : WriteResult) (put : List UInt8) : Prop where
  count : r.moved = moved + put.length
  leads : put <+: left
  whole : r.outcome = .complete → put = left

theorem Wrote.stop {left : List UInt8} {moved : Nat} {o : WriteOutcome} {r : WriteResult}
    {put : List UInt8} (ho : o ≠ .complete)
    (h : some ((⟨o, moved⟩, []) : WriteResult × List UInt8) = some (r, put)) : Wrote left moved r put := by
  cases h
  exact ⟨rfl, nil_prefix, fun hc => absurd hc ho⟩

theorem Wrote.append {left put rest : List UInt8} {moved : Nat} {r : WriteResult}
    (h : Wrote (left.drop put.length) (moved + put.length) r rest) (hp : put <+: left) :
    Wrote left moved r (put ++ rest) := by
  obtain ⟨more, rfl⟩ := hp
  rw [drop_left] at h
  refine ⟨?_, (prefix_append_right_inj put).mpr h.leads, fun hc => ?_⟩
  · rw [h.count, length_append, Nat.add_assoc]
  · rw [h.whole hc]

/-- **The loop writes what is left, in order**, from any place inside an entry. -/
theorem writeLoop_wrote {nonblock : Bool} {rounds : List SendRound} {vec : List (List UInt8)}
    {skip moved : Nat} {spent : Bool} {r : WriteResult} {put : List UInt8} (hin : Inside vec skip)
    (h : writeLoop nonblock rounds vec skip moved spent = some (r, put)) :
    Wrote (vec.flatten.drop skip) moved r put := by
  induction rounds generalizing vec skip moved spent r put with
  | nil =>
    cases vec with
    | nil => cases h; exact ⟨rfl, by simp, fun _ => by simp⟩
    | cons v vs => cases h
  | cons round rs ih =>
    cases vec with
    | nil => cases h; exact ⟨rfl, by simp, fun _ => by simp⟩
    | cons v vs =>
      cases round with
      | expired | peerGone => exact .stop (by decide) h
      | resume => exact ih hin h
      | stalled | malformedCall =>
        rw [writeLoop] at h
        split at h
        · exact .stop (by decide) h
        · exact ih hin h
      | sent n =>
        rw [writeLoop] at h
        dsimp only at h
        split at h
        · exact .stop (by decide) h
        obtain ⟨⟨r', rest⟩, hrest, heq⟩ := Option.map_eq_some_iff.mp h
        cases heq
        have hmore := ih (inside_advance _ _) hrest
        rw [advance_left, ← drop_drop] at hmore
        exact hmore.append (( take_prefix n _).trans (gather_leads hin))

theorem writeAllIov_wrote {isOpen nonblock : Bool} {rounds : List SendRound}
    {vec : List (List UInt8)} {r : WriteResult} {put : List UInt8}
    (h : writeAllIov isOpen nonblock rounds vec = some (r, put)) : Wrote vec.flatten 0 r put := by
  rw [writeAllIov] at h
  split at h
  · exact writeLoop_wrote (.inl rfl) h
  · exact .stop (by decide) h

/-! ## A write turn -/

/-- How one write turn on one frame ended, as the link's callback answers it. -/
structure EgressStep where
  moved : Nat := 0
  held : Bool := false
  failed : Bool := false
  deriving DecidableEq, Repr

def stepOf (r : WriteResult) : EgressStep :=
  ⟨r.moved, r.outcome == .stalled, r.outcome == .failed⟩

/-- `write_frame`: one gathered write from byte `off`.  `tables`: the gather tables were drawn; a
refused table fails the frame on a socket that is alive. -/
def writeFrame (tables isOpen nonblock : Bool) (rounds : List SendRound) (f : EgressFrame)
    (off : Nat) : Option (EgressStep × List UInt8) :=
  if tables then
    (writeAllIov isOpen nonblock rounds (f.spansFrom off)).map fun out => (stepOf out.1, out.2)
  else some (⟨0, false, true⟩, [])

/-- How a write turn may end: the frame finished, the socket full, or the frame abandoned, the last
two after any number of its bytes. -/
inductive Outcome where
  | finished
  | held (n : Nat)
  | failed (n : Nat)
  deriving DecidableEq, Repr

namespace Outcome

/-- The bytes the turn moves, of `rest` that are left. -/
def moved (rest : Nat) : Outcome → Nat
  | .finished => rest
  | .held n => min n rest
  | .failed n => min n rest

def step (rest : Nat) (o : Outcome) : EgressStep :=
  ⟨o.moved rest, o matches .held _, o matches .failed _⟩

theorem moved_le (rest : Nat) (o : Outcome) : o.moved rest ≤ rest := by
  cases o with
  | finished => exact Nat.le_refl rest
  | held n | failed n => exact Nat.min_le_right n rest

end Outcome

/-- **A write turn is one of the outcomes**: whatever the kernel answers, the bytes put on the socket
are those right after the offset, as many as the step says. -/
theorem writeFrame_outcome {tables isOpen nonblock : Bool} {rounds : List SendRound}
    {f : EgressFrame} {off : Nat} {s : EgressStep} {put : List UInt8}
    (h : writeFrame tables isOpen nonblock rounds f off = some (s, put)) :
    ∃ o : Outcome, s = o.step (f.bytes.drop off).length ∧ put = (f.bytes.drop off).take s.moved := by
  rw [writeFrame] at h
  split at h
  · obtain ⟨⟨r, put'⟩, hw, heq⟩ := Option.map_eq_some_iff.mp h
    cases heq
    have hw' := writeAllIov_wrote hw
    rw [EgressFrame.spansFrom_flatten] at hw'
    have hm : r.moved = put'.length := by rw [hw'.count, Nat.zero_add]
    have hput : put' = (f.bytes.drop off).take r.moved := by
      rw [hm]
      exact prefix_iff_eq_take.mp hw'.leads
    have hle : r.moved ≤ (f.bytes.drop off).length := hm ▸ hw'.leads.length_le
    obtain ⟨o, m⟩ := r
    cases o with
    | complete =>
      have hall : m = (f.bytes.drop off).length := by
        rw [← hw'.whole rfl]
        exact hm
      exact ⟨.finished, by rw [hall]; rfl, hput⟩
    | stalled => exact ⟨.held m, by rw [Outcome.step, Outcome.moved, Nat.min_eq_left hle]; rfl, hput⟩
    | failed => exact ⟨.failed m, by rw [Outcome.step, Outcome.moved, Nat.min_eq_left hle]; rfl, hput⟩
  · cases h
    exact ⟨.failed 0, by simp [Outcome.step, Outcome.moved], by simp⟩

/-- A turn that ends inside a link, after a call that was refused. -/
theorem writeFrame_outcome_cut :
    let f : EgressFrame := ⟨[1, 2], [[3], [4, 5]], by decide⟩
    ∃ o : Outcome, ⟨3, true, false⟩ = o.step (f.bytes.drop 1).length ∧ [2, 3, 4] = (f.bytes.drop 1).take 3 :=
  have h : writeFrame true true true [.sent 2, .malformedCall, .sent 1, .stalled]
      ⟨[1, 2], [[3], [4, 5]], by decide⟩ 1 = some (⟨3, true, false⟩, [2, 3, 4]) := by decide
  writeFrame_outcome h

end LibTracer.Net
