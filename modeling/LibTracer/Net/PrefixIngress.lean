import LibTracer.Net.FrameIngress
import LibTracer.Net.LengthPrefix

/-!
# Length-prefixed frames through frame ingress

A TCP link frames its stream by the same prefix as the framer that is fed chunks, but reads each body
straight into its segment.  The two differ in when a refused frame is counted: the framer at its prefix,
the link when it has read past the body.

* **`delivers_as_framer`** — the link hands up the frames the framer finds in the bytes read.
-/

namespace LibTracer.Net

open Framing

/-- The link's end: the frames its store was asked for, and its counters. -/
structure TcpEnd where
  draws : Nat := 0
  malformedRx : Nat := 0
  droppedRx : Nat := 0
  deriving DecidableEq, Repr

def prefixFraming (src : Source) (maxFrame : Nat) : Framing TcpEnd RxEvent where
  header _ h := prefixVerdict maxFrame h
  close e _ := ({ e with malformedRx := e.malformedRx + 1 }, [])
  enter e _ := e
  draw e len := ({ e with draws := e.draws + 1 }, [], src.draw e.draws len)
  body e block len :=
    match block with
    | none =>
      ({ e with droppedRx := e.droppedRx + if len = 0 then 0 else 1 }, if len = 0 then [] else [.drop],
        true)
    | some bytes => (e, [.frame bytes], true)

def RxEvent.bytes? : RxEvent → Option (List UInt8)
  | .frame bytes => some bytes
  | .drop => none

theorem Source.segment_eq_draw (src : Source) (n len : Nat) : src.segment n len = src.draw n len := by
  rw [segment]
  split
  next hlt =>
    cases hd : src.draw n len with
    | none => rfl
    | some seg => exact absurd (src.draw_le hd) (Nat.not_le.mpr hlt)
  · rfl

section

variable (src : Source) (maxFrame : Nat)

theorem prefixFraming_lawful : (prefixFraming src maxFrame).Lawful kPrefixBytes where
  more_nil {_} := (framed_lawful src maxFrame).more_nil (f := 0)
  more_lt {_ _} h := (framed_lawful src maxFrame).more_lt (f := 0) h
  size_pos {_ _ _ _} h := (framed_lawful src maxFrame).size_pos (f := 0) h
  size_le {_ _ _ _} h := (framed_lawful src maxFrame).size_le (f := 0) h
  body_stable {_ _ _ _} h := (framed_lawful src maxFrame).body_stable (f := 0) h
  enter_take _ := rfl
  close_stable {_ _} h := (framed_lawful src maxFrame).close_stable (f := 0) h
  close_eq _ _ := rfl
  len_lt {_ _ _ _} h := (framed_lawful src maxFrame).len_lt (f := 0) h
  draw_length h := src.length_draw h

/-- **The link and the framer judge alike**, and hand up the same frames. -/
theorem alike_framed :
    Alike (prefixFraming src maxFrame) (framed src maxFrame) (fun e n => e.draws = n) RxEvent.bytes?
      RxEvent.bytes? where
  header _ _ := rfl
  close h _ := ⟨h, rfl⟩
  enter h _ := h
  draw {e n} h len := by
    refine ⟨congrArg (· + 1) h, ?_, ?_⟩
    · show [] = (if (src.segment n len).isNone then [RxEvent.drop] else []).filterMap RxEvent.bytes?
      split <;> rfl
    · show (src.draw e.draws len).isSome = (src.segment n len).isSome
      rw [src.segment_eq_draw, h]
  body {e n} h block len := by
    cases block with
    | none =>
      refine ⟨h, ?_, rfl⟩
      show (if len = 0 then [] else [RxEvent.drop]).filterMap RxEvent.bytes? = []
      split <;> rfl
    | some bytes => exact ⟨h, rfl, rfl⟩

end

/-- A link has read a part of a stream, a byte at least for each answer that brought one, and handed up the
frames the framer finds in it, fed in one piece; it stops where the framer finds a violation or where the
last answer ended the stream. -/
structure DeliversAsFramer (eof : Bool) (src : Source) (maxFrame : Nat) (stream : List UInt8)
    (polls : List Ingress.Poll) (l : Ingress.Link TcpEnd RxEvent) (spent : List Ingress.Poll)
    (used : List UInt8) : Prop where
  splits : stream = used ++ l.stream
  polls : polls = spent ++ l.polls
  reads : spent.countP Ingress.Poll.asks ≤ used.length ∨ l.stream = []
  frames : l.outs.filterMap RxEvent.bytes? =
    (Framer.feedAll src maxFrame {} [used]).events.filterMap RxEvent.bytes?
  deframes : Deframes src maxFrame 0 used (Framer.feedAll src maxFrame {} [used]).events
    (Framer.feedAll src maxFrame {} [used]).violation
  closes : (Framer.feedAll src maxFrame {} [used]).violation.isSome = true → l.keep = false
  keeps : l.keep = false → (Framer.feedAll src maxFrame {} [used]).violation.isSome = true ∨
    Ingress.Stopped eof l.stream spent
  waits : l.keep = true → l.polls = []

theorem deliversAsFramer_of_served {eof : Bool} {src : Source} {maxFrame : Nat} {stream : List UInt8}
    {polls : List Ingress.Poll} {l : Ingress.Link TcpEnd RxEvent}
    (h : Ingress.Serves (prefixFraming src maxFrame) eof (.header {} []) stream polls l) :
    ∃ spent used, DeliversAsFramer eof src maxFrame stream polls l spent used := by
  obtain ⟨⟨spent, used, hserved⟩, hend⟩ := h
  have hbeside : Beside (fun (e : TcpEnd) n => e.draws = n) (.header {} []) (.header 0 []) := ⟨rfl, rfl⟩
  obtain ⟨hstate, hframes⟩ := (alike_framed src maxFrame).decode hbeside used
  have hrep : ({} : Framer).Rep (.header 0 []) := ⟨rfl, rfl, by decide, rfl⟩
  have hclosed := hstate.isClosed_eq
  have hfeed := Framer.feedAll_spec src maxFrame hrep [used]
  rw [List.flatten_singleton] at hfeed
  have hviolation : (Framer.feedAll src maxFrame {} [used]).violation.isSome =
      ((prefixFraming src maxFrame).decode (.header {} []) used).state.isClosed := by
    rw [hfeed, hclosed]
    cases ((framed src maxFrame).decode (.header 0 []) used).state.isClosed <;> rfl
  refine ⟨spent, used, hserved.splits, hserved.polls, hserved.reads, ?_, ?_, ?_, ?_, hend⟩
  · rw [hserved.outs, hframes, hfeed]
  · rw [hfeed]
    exact reads_decode src maxFrame 0 used
  · rw [hviolation]
    exact hserved.closes
  · rw [hviolation]
    exact hserved.keeps

/-- **The link hands up what the framer finds**, whatever sizes its reads return and however it reads. -/
theorem delivers_as_framer (src : Source) (maxFrame readAhead : Nat) (stream : List UInt8)
    (polls : List Ingress.Poll) :
    (∃ spent used, DeliversAsFramer true src maxFrame stream polls
      (Ingress.serve (prefixFraming src maxFrame) kPrefixBytes readAhead {} {} stream polls) spent used) ∧
    ∃ spent used, DeliversAsFramer false src maxFrame stream polls
      (Ingress.serveWith (prefixFraming src maxFrame) kPrefixBytes {} {} stream polls) spent used := by
  have L := prefixFraming_lawful src maxFrame
  have hstart : Ingress.Rep (prefixFraming src maxFrame) {} {} (.header {} []) := ⟨rfl, rfl, rfl, L.more_nil⟩
  exact ⟨deliversAsFramer_of_served (Ingress.serve_spec readAhead L hstart rfl stream polls),
    deliversAsFramer_of_served (Ingress.serveWith_spec L hstart rfl stream polls)⟩

/-- Two frames in three reads, and the end of the stream. -/
theorem delivers_as_framer_then_closed :
    let stream : List UInt8 := [2, 0, 0, 0, 7, 8, 1, 0, 0, 0, 9]
    let polls : List Ingress.Poll := [.bytes 3, .wouldBlock, .bytes 5, .bytes 64, .bytes 64]
    let l := Ingress.serve (prefixFraming refusesLong 8) kPrefixBytes 16 {} {} stream polls
    l.outs = [.frame [7, 8], .frame [9]] ∧ l.keep = false ∧ l.polls = [] ∧
      ∃ spent used, DeliversAsFramer true refusesLong 8 stream polls l spent used :=
  ⟨by decide +kernel, by decide +kernel, by decide +kernel, (delivers_as_framer refusesLong 8 16 _ _).1⟩

end LibTracer.Net
