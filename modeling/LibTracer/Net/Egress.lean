import LibTracer.Lib.Machine
import LibTracer.Net.StreamWrite
import Mathlib.Data.List.Induction

/-!
# The egress of one peer

Senders put records on a peer's stream without a lock across the write: one of them holds the writer
role, the others leave their frames in lanes for it.  A frame the socket cut short is
resumed by whoever takes the role next; one that is abandoned part-written condemns the peer.  Calls are
cut here into their atomic steps, so a history is any interleaving of them.

* **`intact_iff_dead`** — a history of frames below 4 GiB keeps the stream intact if and only if each write
  is `Peer.Dead`.
-/

namespace LibTracer.Net

open List

/-! ## Lanes -/

/-- The ring a delivery waits in, as its vertex declares it.  No key: the control lane. -/
structure DeliveryLane (κ : Type) where
  key : Option κ := none
  depth : Nat := 1
  reliable : Bool := false
  deriving DecidableEq, Repr

/-- The depth of the control lane, `kEgressControlDepth`. -/
def egressControlDepth : Nat := 8

structure EgressLane (κ : Type) where
  key : Option κ
  depth : Nat
  reliable : Bool
  oldest : EgressFrame
  later : List EgressFrame

variable {f : EgressFrame}

namespace EgressLane

variable {κ : Type}

def waiting (l : EgressLane κ) : List EgressFrame := l.oldest :: l.later

/-- `draw`: the lane of a vertex's first waiting frame. -/
def draw (lane : DeliveryLane κ) (f : EgressFrame) : EgressLane κ :=
  if lane.key.isNone then ⟨none, egressControlDepth, false, f, []⟩
  else ⟨lane.key, max lane.depth 1, lane.reliable, f, []⟩

/-- A frame offered to a lane that exists: the lane after it, and the depth of the lane if it was
full, so that the offer cost one of its frames (0 otherwise). -/
def push (l : EgressLane κ) (f : EgressFrame) : EgressLane κ × Nat :=
  if l.waiting.length = l.depth then
    if l.reliable ∧ 1 < l.depth then (l, l.depth)
    else
      match l.later with
      | [] => ({ l with oldest := f }, l.depth)
      | g :: gs => ({ l with oldest := g, later := gs ++ [f] }, l.depth)
  else ({ l with later := l.later ++ [f] }, 0)

theorem mem_waiting_push {l : EgressLane κ} {g : EgressFrame} (h : g ∈ (l.push f).1.waiting) :
    g ∈ l.waiting ∨ g = f := by
  rw [push] at h
  split at h
  · split at h
    · exact .inl h
    cases hl : l.later with
    | nil =>
      rw [hl] at h
      exact .inr (by simpa [waiting, hl] using h)
    | cons a as =>
      rw [hl] at h
      simp only [waiting, hl, mem_cons, mem_append, not_mem_nil, or_false] at h ⊢
      tauto
  · simp only [waiting, mem_cons, mem_append, not_mem_nil, or_false] at h ⊢
    tauto

end EgressLane

/-- The lanes of a peer in the order they are served next, every frame of which satisfies `p`. -/
def Lanes.All {κ : Type} (p : EgressFrame → Prop) (lanes : List (EgressLane κ)) : Prop :=
  ∀ l ∈ lanes, ∀ f ∈ l.waiting, p f

section Lanes

variable {κ : Type}

/-- `pop`: the oldest frame of the lane served next; a lane that still has frames goes to the end of
the round. -/
def popFrame : List (EgressLane κ) → Option (EgressFrame × List (EgressLane κ))
  | [] => none
  | l :: ls =>
    match l.later with
    | [] => some (l.oldest, ls)
    | g :: gs => some (l.oldest, ls ++ [{ l with oldest := g, later := gs }])

variable {p : EgressFrame → Prop} {lanes : List (EgressLane κ)}

theorem Lanes.All.popFrame {rest : List (EgressLane κ)}
    (h : Lanes.All p lanes) (hpop : popFrame lanes = some (f, rest)) : p f ∧ Lanes.All p rest := by
  cases lanes with
  | nil => cases hpop
  | cons l ls =>
    have htail : Lanes.All p ls := fun k hk => h k (mem_cons_of_mem l hk)
    have hmine := h l mem_cons_self
    rw [LibTracer.Net.popFrame] at hpop
    cases hl : l.later with
    | nil =>
      rw [hl] at hpop
      cases hpop
      exact ⟨hmine l.oldest mem_cons_self, htail⟩
    | cons g gs =>
      rw [hl] at hpop
      cases hpop
      refine ⟨hmine l.oldest mem_cons_self, forall_mem_append.mpr ⟨htail, ?_⟩⟩
      exact forall_mem_singleton.mpr fun a ha => hmine a (mem_cons_of_mem _ (by rw [hl]; exact ha))

variable [DecidableEq κ]

/-- `admit`: the frame goes to its vertex's lane, or to a lane drawn for it at the end of the round
(`drawn`: the source had the block).  With the lanes comes the depth of a lane that was full. -/
def admitFrame (lane : DeliveryLane κ) (f : EgressFrame) (drawn : Bool) :
    List (EgressLane κ) → List (EgressLane κ) × Nat
  | [] => (if drawn then [EgressLane.draw lane f] else [], 0)
  | l :: ls =>
    if l.key = lane.key then ((l.push f).1 :: ls, (l.push f).2)
    else
      let rest := admitFrame lane f drawn ls
      (l :: rest.1, rest.2)

theorem Lanes.All.admitFrame (h : Lanes.All p lanes) (lane : DeliveryLane κ) (hf : p f) (drawn : Bool) :
    Lanes.All p (admitFrame lane f drawn lanes).1 := by
  induction lanes with
  | nil =>
    intro l hl g hg
    rw [LibTracer.Net.admitFrame] at hl
    split at hl
    · obtain rfl := mem_singleton.mp hl
      have hone : (EgressLane.draw lane f).waiting = [f] := by
        rw [EgressLane.draw]
        split
        · rfl
        · rfl
      rw [hone] at hg
      rw [mem_singleton.mp hg]
      exact hf
    · cases hl
  | cons l ls ih =>
    have htail : Lanes.All p ls := fun k hk => h k (mem_cons_of_mem l hk)
    rw [LibTracer.Net.admitFrame]
    split
    next hk =>
      refine forall_mem_cons.mpr ⟨fun g hg => ?_, htail⟩
      rcases EgressLane.mem_waiting_push hg with hg | rfl
      · exact h l mem_cons_self g hg
      · exact hf
    next hk => exact forall_mem_cons.mpr ⟨h l mem_cons_self, ih htail⟩

end Lanes

/-! ## The peer -/

/-- The holder of the writer role, inside `drain_owned`. -/
structure Writer where
  /-- The socket took no more: the frame on the wire waits. -/
  held : Bool := false
  /-- The depth of the full lane the offer cost a frame of. -/
  lost : Nat := 0
  /-- The pass is over: the loop met a held frame or found nothing waiting, or was skipped. -/
  passed : Bool := false
  /-- The result's `condemn`. -/
  condemn : Bool := false
  moved : Nat := 0
  /-- `condemn_held` drains with a callback that writes nothing. -/
  probe : Bool := false
  /-- Account: the pass abandoned a frame of which some bytes, not all, are out. -/
  cut : Bool := false
  deriving DecidableEq, Repr

/-- How a write of the pass ends; a probe's callback answers that the socket is full. -/
def Writer.outcome (w : Writer) (o : Outcome) : Outcome := if w.probe then .held 0 else o

/-- The verdict of a pass: the strikes, saturating, and whether the peer is condemned.  A strike is an
offer that cost a frame of a full lane deeper than one, in a pass that moved nothing; `cap` whole
rings of them condemn. -/
def Writer.verdict (w : Writer) (cap strikes : Nat) : Nat × Bool :=
  let strike : Bool := w.moved == 0 && decide (1 < w.lost)
  let strikes := min ((strikes + strike.toNat) * (w.moved == 0).toNat) 65535
  (strikes, w.condemn || strike && decide (min (cap * w.lost) 65535 ≤ strikes))

variable {w : Writer}

theorem Writer.verdict_condemn (h : w.condemn = true) (cap strikes : Nat) :
    (w.verdict cap strikes).2 = true := by
  simp [Writer.verdict, h]

/-- A call that has let its frame or the role go and is about to claim the role. -/
structure Caller where
  lost : Nat := 0
  condemn : Bool := false
  probe : Bool := false
  /-- The claim comes after a look whether anything waits. -/
  looks : Bool := false
  deriving DecidableEq, Repr

/-- One peer's egress state.  `stream`, `offered` and `cutAt` are an account no step reads. -/
structure Peer (κ : Type) where
  lanes : List (EgressLane κ) := []
  wire : Option EgressFrame := none
  /-- `off_`, a 32-bit count. -/
  off : Nat := 0
  strikes : Nat := 0
  held : Bool := false
  closed : Bool := false
  writer : Option Writer := none
  callers : List Caller := []
  /-- `condemn` has run. -/
  shut : Bool := false
  /-- The bytes that reached the peer. -/
  stream : List UInt8 := []
  /-- Every frame a call brought. -/
  offered : List EgressFrame := []
  /-- How long the stream was when a frame was first abandoned part-written. -/
  cutAt : Option Nat := none

inductive PeerEvent (κ : Type) where
  /-- A `send`, up to its drain loop.  `direct`: how the write of the record from the caller's own
  memory ends; `built`: the shared frame could be built; `drawn`: the lane's block could be drawn. -/
  | send (f : EgressFrame) (lane : DeliveryLane κ) (direct : Outcome) (built drawn : Bool)
  | flush
  | condemnHeld
  /-- One round of the writer's drain loop, and how the callback's write ends. -/
  | turn (o : Outcome)
  /-- The writer's pass is over: it takes its verdict and lets the role go. -/
  | settle
  /-- The `i`th waiting call looks whether anything waits. -/
  | look (i : Nat)
  /-- The `i`th waiting call tries the role. -/
  | claim (i : Nat)
  | close
  /-- The teardown, once the writer has left. -/
  | reap

namespace Peer

variable {κ : Type} [DecidableEq κ]

/-- `open`: a session starts, with the frame its link puts ahead of everything. -/
def opened (first : Option EgressFrame) : Peer κ :=
  { wire := first, held := first.isSome, offered := first.toList }

def claimable (p : Peer κ) : Bool := p.writer.isNone && !p.closed

def put (p : Peer κ) (bs : List UInt8) : Peer κ :=
  if p.shut then p else { p with stream := p.stream ++ bs }

/-- `f` is given up with `n` of its bytes out. -/
def abandon (p : Peer κ) (f : EgressFrame) (n : Nat) : Peer κ :=
  if 0 < n ∧ n < f.size then { p with cutAt := p.cutAt.or (some p.stream.length) } else p

/-- `f` stays on the wire with `n` of its bytes out, and the pass is over. -/
def hold (p : Peer κ) (f : EgressFrame) (n : Nat) (w : Writer) : Peer κ :=
  { p with
    wire := some f, off := n % 4294967296
    writer := some { w with held := true, passed := true } }

/-- `f` leaves the wire with `n` of its bytes out; the peer is to be condemned if there are any, by the
count `told`. -/
def giveUp (p : Peer κ) (f : EgressFrame) (n told : Nat) (w : Writer) : Peer κ :=
  { p.abandon f n with
    wire := none, off := 0,
    writer := some { w with condemn := w.condemn || told != 0
                            cut := w.cut || decide (0 < n ∧ n < f.size) } }

def sendDirect (p : Peer κ) (f : EgressFrame) (o : Outcome) (built : Bool) : Peer κ :=
  let n := o.moved f.size
  let p := { p.put (f.bytes.take n) with strikes := if n ≠ 0 then 0 else p.strikes }
  match o with
  | .finished => { p with writer := some { passed := true } }
  | .failed _ => p.giveUp f n n { passed := true }
  | .held _ =>
    -- without a frame to keep the rest in, the record is lost like a failed one
    if built then p.hold f n { passed := true } else p.giveUp f n n { passed := true }

def sendWaiting (p : Peer κ) (f : EgressFrame) (lane : DeliveryLane κ) (built drawn : Bool) :
    Peer κ :=
  let admitted := if built then admitFrame lane f drawn p.lanes else (p.lanes, 0)
  let p' := { p with lanes := admitted.1 }
  if p.claimable then { p' with writer := some { lost := admitted.2 } }
  else { p' with callers := p.callers ++ [{ lost := admitted.2 }] }

def send (p : Peer κ) (f : EgressFrame) (lane : DeliveryLane κ) (direct : Outcome)
    (built drawn : Bool) : Peer κ :=
  let p := { p with offered := p.offered ++ [f] }
  if p.claimable = false ∧ p.closed then p
  else if p.claimable ∧ p.lanes.isEmpty ∧ p.wire.isNone then p.sendDirect f direct built
  else p.sendWaiting f lane built drawn

/-- One write of the drain loop: `f` from byte `off`. -/
def write (p : Peer κ) (w : Writer) (f : EgressFrame) (off : Nat) (o : Outcome) : Peer κ :=
  let n := o.moved (f.size - off)
  let p := p.put ((f.bytes.drop off).take n)
  let w := { w with moved := w.moved + n }
  match o with
  | .held _ => p.hold f (off + n) w
  | .finished => { p with wire := none, off := 0, writer := some w }
  | .failed _ => p.giveUp f (off + n) ((off + n) % 4294967296) w

/-- One round of the loop of `drain_owned`. -/
def turn (p : Peer κ) (o : Outcome) : Peer κ :=
  match p.writer with
  | none => p
  | some w =>
    if w.passed ∨ p.closed then p
    else
      match p.wire with
      | some f => p.write w f p.off (w.outcome o)
      | none =>
        match popFrame p.lanes with
        | none => { p with writer := some { w with passed := true } }
        | some (f, rest) => { p with lanes := rest }.write w f 0 (w.outcome o)

/-- The end of a pass: the verdict, the condemnation, and the role goes.  Unless the frame is held,
the call then looks for what was pushed meanwhile. -/
def settle (cap : Nat) (p : Peer κ) : Peer κ :=
  match p.writer with
  | none => p
  | some w =>
    if w.passed ∨ p.closed then
      let v := w.verdict cap p.strikes
      { p with
        strikes := v.1, shut := p.shut || v.2, held := w.held, writer := none
        callers := if p.closed ∨ w.held then p.callers
          else p.callers ++ [{ condemn := v.2, probe := w.probe, looks := true }] }
    else p

def look (p : Peer κ) (i : Nat) : Peer κ :=
  match p.callers[i]? with
  | some c =>
    if ¬ c.looks then p
    else if p.lanes.isEmpty then { p with callers := p.callers.eraseIdx i }
    else { p with callers := p.callers.set i { c with looks := false } }
  | none => p

def tryClaim (p : Peer κ) (i : Nat) : Peer κ :=
  match p.callers[i]? with
  | some c =>
    if c.looks then p
    else
      let p' := { p with callers := p.callers.eraseIdx i }
      if p.claimable then
        { p' with writer := some { lost := c.lost, condemn := c.condemn, probe := c.probe } }
      else p'
  | none => p

def flush (p : Peer κ) : Peer κ := if p.claimable then { p with writer := some {} } else p

/-- `condemn_held`: the liveness check condemns the peer if a frame waits on its wire. -/
def condemnHeld (p : Peer κ) : Peer κ :=
  if p.claimable then
    { p with writer := some { held := p.wire.isSome, passed := p.wire.isSome,
                              condemn := p.wire.isSome, probe := true } }
  else p

def dropWire (p : Peer κ) : Peer κ :=
  match p.wire with
  | some f => { p.abandon f p.off with wire := none, off := 0 }
  | none => p

def reap (p : Peer κ) : Peer κ :=
  if p.closed ∧ p.writer.isNone then { p.dropWire with lanes := [], strikes := 0, held := false }
  else p

def step (cap : Nat) (p : Peer κ) : PeerEvent κ → Peer κ
  | .send f lane direct built drawn => p.send f lane direct built drawn
  | .flush => p.flush
  | .condemnHeld => p.condemnHeld
  | .turn o => p.turn o
  | .settle => p.settle cap
  | .look i => p.look i
  | .claim i => p.tryClaim i
  | .close => { p with closed := true }
  | .reap => p.reap

def machine (cap : Nat) (first : Option EgressFrame) : Machine (Peer κ) (PeerEvent κ) Unit where
  start := opened first
  step p e := (p.step cap e, ())

/-! ## What the stream should be -/

def Whole (frames : List EgressFrame) (s : List UInt8) : Prop :=
  ∃ (done : List EgressFrame) (part : List UInt8), (∀ f ∈ done, f ∈ frames) ∧
    s = done.flatMap EgressFrame.bytes ++ part ∧
    (part = [] ∨ ∃ f ∈ frames, part <+: f.bytes ∧ part ≠ f.bytes)

/-- The stream is whole frames and at most one cut one, and no byte came after a frame was abandoned
part-written. -/
structure Intact (p : Peer κ) : Prop where
  whole : Whole p.offered p.stream
  quiet : ∀ n, p.cutAt = some n → p.stream.length = n

/-- Where a drain pass goes on after it cut a frame off, and another one waits, the next write moves
nothing: the socket of an open, uncondemned peer answers that it is full, or fails at once. -/
def Dead (p : Peer κ) : PeerEvent κ → Prop
  | .turn o => ∀ w, p.writer = some w → w.cut = true → w.passed = false → p.closed = false →
      p.shut = false → p.lanes ≠ [] → w.probe = true ∨ o = .held 0 ∨ o = .failed 0
  | _ => True

/-- A frame that is sent is shorter than 4 GiB. -/
def Short : PeerEvent κ → Prop
  | .send f _ _ _ _ => f.size < 4294967296
  | _ => True

/-! ## Small steps -/

variable {n : Nat} {q : Peer κ} {o : Outcome} {off : Nat}

section Small

omit [DecidableEq κ]

section

variable (p : Peer κ) (bs : List UInt8)

@[simp] theorem put_shut : (p.put bs).shut = p.shut := by
  rw [put]; split <;> rfl

@[simp] theorem put_cutAt : (p.put bs).cutAt = p.cutAt := by
  rw [put]; split <;> rfl

@[simp] theorem put_wire : (p.put bs).wire = p.wire := by
  rw [put]; split <;> rfl

end

variable {p : Peer κ}

theorem put_of_shut (h : p.shut = true) (bs : List UInt8) : p.put bs = p := by
  rw [put, if_pos h]

theorem put_stream (h : p.shut = false) (bs : List UInt8) : (p.put bs).stream = p.stream ++ bs := by
  rw [put, if_neg (by simp [h])]

def onWire (off : Nat) : Option EgressFrame → List UInt8
  | some f => f.bytes.take off
  | none => []

variable {frames : List EgressFrame} {f : EgressFrame}

theorem whole_take {done : List EgressFrame} (hd : ∀ g ∈ done, g ∈ frames) (hf : f ∈ frames) (m : Nat) :
    Whole frames (done.flatMap EgressFrame.bytes ++ f.bytes.take m) := by
  by_cases h : m < f.size
  · refine ⟨done, _, hd, rfl, .inr ⟨f, hf, take_prefix _ _, fun heq => ?_⟩⟩
    have hlen := congrArg List.length heq
    rw [length_take] at hlen
    rw [EgressFrame.size] at h
    omega
  refine ⟨done ++ [f], [], ?_, ?_, .inl rfl⟩
  · exact forall_mem_append.mpr ⟨hd, forall_mem_singleton.mpr hf⟩
  · rw [take_of_length_le (Nat.not_lt.mp h)]
    simp

theorem Whole.mono {frames' : List EgressFrame} {s : List UInt8} (h : Whole frames s)
    (hsub : ∀ f ∈ frames, f ∈ frames') : Whole frames' s := by
  obtain ⟨done, part, hd, hs, hp⟩ := h
  refine ⟨done, part, fun f hf => hsub f (hd f hf), hs, ?_⟩
  rcases hp with hp | ⟨f, hf, hp⟩
  · exact .inl hp
  · exact .inr ⟨f, hsub f hf, hp⟩

/-- What the account of the stream is about. -/
structure Core (κ : Type) where
  lanes : List (EgressLane κ)
  offered : List EgressFrame
  shut : Bool
  cutAt : Option Nat
  stream : List UInt8

def core (p : Peer κ) : Core κ := ⟨p.lanes, p.offered, p.shut, p.cutAt, p.stream⟩

variable {c : Core κ} {wire : Option EgressFrame}

/-! ## What a step keeps -/

/-- The stream of a live peer ends with `tail`; before it stand whole frames. -/
def Ends (c : Core κ) (tail : List UInt8) : Prop :=
  c.shut = false → c.cutAt = none → ∃ done : List EgressFrame, (∀ f ∈ done, f ∈ c.offered) ∧
    c.stream = done.flatMap EgressFrame.bytes ++ tail

/-- The frames that wait were offered, and the stream is intact. -/
structure Held (c : Core κ) : Prop where
  short : ∀ f ∈ c.offered, f.size < 4294967296
  lanes : Lanes.All (· ∈ c.offered) c.lanes
  whole : Whole c.offered c.stream
  quiet : ∀ n, c.cutAt = some n → c.stream.length = n

/-- The frame on the wire and the stream fit together. -/
structure Kept (c : Core κ) (cur : Option EgressFrame) (off : Nat) : Prop extends Held c where
  wire : ∀ f, cur = some f → f ∈ c.offered ∧ off ≤ f.size
  ends : Ends c (onWire off cur)

/-- A write of `f` is under way, with its first `m` bytes out. -/
structure Begun (c : Core κ) (f : EgressFrame) (m : Nat) : Prop extends Held c where
  mem : f ∈ c.offered
  le : m ≤ f.size
  ends : Ends c (f.bytes.take m)

variable {m : Nat}

theorem Begun.put (h : Begun p.core f off) (hn : off + n ≤ f.size)
    (hcut : p.cutAt ≠ none → p.shut = false → n = 0) :
    Begun (p.put ((f.bytes.drop off).take n)).core f (off + n) := by
  by_cases hs : p.shut = true
  · rw [put_of_shut hs]
    exact ⟨h.toHeld, h.mem, hn, fun hlive => absurd (hs.symm.trans hlive) nofun⟩
  have hlive : p.shut = false := by simpa using hs
  rw [Peer.put, if_neg hs]
  by_cases hc : p.cutAt = none
  · obtain ⟨done, hd, hstream⟩ := h.ends hlive hc
    have hends : p.stream ++ (f.bytes.drop off).take n =
        done.flatMap EgressFrame.bytes ++ f.bytes.take (off + n) := by
      rw [show p.stream = _ from hstream, append_assoc, take_add]
    refine ⟨⟨h.short, h.lanes, ?_, fun k hk => ?_⟩, h.mem, hn, fun _ _ => ⟨done, hd, hends⟩⟩
    · exact (congrArg (Whole p.offered) hends).mpr (whole_take hd h.mem _)
    · cases hc.symm.trans hk
  · obtain rfl := hcut hc hlive
    rw [take_zero, append_nil]
    exact ⟨h.toHeld, h.mem, hn, h.ends⟩

theorem Begun.unwrapped (h : Begun c f m) : m % 4294967296 = m :=
  Nat.mod_eq_of_lt (Nat.lt_of_le_of_lt h.le (h.short f h.mem))

theorem Begun.held (h : Begun c f m) : Kept c (some f) m := by
  refine ⟨h.toHeld, fun g hg => ?_, h.ends⟩
  cases hg
  exact ⟨h.mem, h.le⟩

theorem Begun.leaves (h : Begun c f m) (hm : m = 0 ∨ m = f.size) : Kept c none off := by
  refine ⟨h.toHeld, nofun, fun hs hc => ?_⟩
  obtain ⟨done, hd, hstream⟩ := h.ends hs hc
  rcases hm with rfl | rfl
  · exact ⟨done, hd, by simpa [onWire] using hstream⟩
  refine ⟨done ++ [f], ?_, ?_⟩
  · exact forall_mem_append.mpr ⟨hd, forall_mem_singleton.mpr h.mem⟩
  · rw [hstream, EgressFrame.size, take_length]
    simp [onWire]

theorem Begun.abandoned (h : Begun p.core f m) : Kept (p.abandon f m).core none off := by
  by_cases hcut : 0 < m ∧ m < f.size
  · rw [abandon, if_pos hcut]
    refine ⟨⟨h.short, h.lanes, h.whole, fun n hn => ?_⟩, nofun, fun _ hc => absurd hc ?_⟩
    · change p.cutAt.or (some p.stream.length) = some n at hn
      cases hc : p.cutAt with
      | some k =>
        rw [hc, Option.some_or] at hn
        exact h.quiet n (hc.trans hn)
      | none =>
        rw [hc, Option.none_or] at hn
        exact Option.some.inj hn
    · show p.cutAt.or (some p.stream.length) ≠ none
      cases p.cutAt <;> simp
  · rw [abandon, if_neg hcut]
    exact h.leaves (by have := h.le; omega)

theorem Kept.begin (h : Kept c wire off) (hw : wire = none) (hf : f ∈ c.offered) : Begun c f 0 := by
  subst hw
  exact ⟨h.toHeld, hf, Nat.zero_le _, take_zero (l := f.bytes) ▸ h.ends⟩

theorem Kept.resume (h : Kept c wire off) (hw : wire = some f) : Begun c f off := by
  subst hw
  exact ⟨h.toHeld, (h.wire f rfl).1, (h.wire f rfl).2, h.ends⟩

theorem Kept.withLanes (h : Kept p.core wire off) {lanes : List (EgressLane κ)}
    (hl : Lanes.All (· ∈ p.offered) lanes) : Kept ({ p with lanes := lanes } : Peer κ).core wire off :=
  ⟨⟨h.short, hl, h.whole, h.quiet⟩, h.wire, h.ends⟩

theorem Kept.offer (h : Kept p.core wire off) (hf : f.size < 4294967296) :
    Kept ({ p with offered := p.offered ++ [f] } : Peer κ).core wire off := by
  have hsub : ∀ g ∈ p.offered, g ∈ p.offered ++ [f] := fun g hg => mem_append_left _ hg
  refine ⟨⟨forall_mem_append.mpr ⟨h.short, forall_mem_singleton.mpr hf⟩,
    fun l hl g hg => hsub g (h.lanes l hl g hg), h.whole.mono hsub, h.quiet⟩,
    fun g hg => (h.wire g hg).imp_left (hsub g), fun hs hc => ?_⟩
  obtain ⟨done, hd, hstream⟩ := h.ends hs hc
  exact ⟨done, fun g hg => hsub g (hd g hg), hstream⟩

/-- A cut stream is shut, or its peer is closed, or the writer that cut it is still in its pass, with
the condemnation due and no frame on the wire. -/
structure Guarded (cutAt : Option Nat) (shut closed : Bool) (writer : Option Writer)
    (wire : Option EgressFrame) : Prop where
  cutOff : cutAt ≠ none → shut = true ∨ closed = true ∨ ∃ w, writer = some w ∧ w.cut = true
  cutHere : ∀ w, writer = some w → w.cut = true →
    cutAt ≠ none ∧ w.condemn = true ∧ (w.passed = true ∨ wire = none)

theorem abandon_cutAt_ne (p : Peer κ) (f : EgressFrame) (n : Nat) :
    (p.abandon f n).cutAt ≠ none ↔ p.cutAt ≠ none ∨ 0 < n ∧ n < f.size := by
  rw [abandon]
  split
  next h =>
    cases p.cutAt <;> simp [h]
  next h =>
    simp [h]

end Small

/-- **What every step keeps**, as long as no write follows a cut in its own pass. -/
structure Sound (p : Peer κ) : Prop where
  kept : Kept p.core p.wire p.off
  guarded : Guarded p.cutAt p.shut p.closed p.writer p.wire

section Writing

omit [DecidableEq κ]

/-- A cut stream is shut, or the writer at work cut it and has the condemnation due. -/
structure Answers (cutAt : Option Nat) (shut cut condemn : Bool) : Prop where
  cutOff : cutAt ≠ none → shut = true ∨ cut = true
  cutHere : cut = true → cutAt ≠ none ∧ condemn = true

variable {p : Peer κ} {w : Writer}

theorem Answers.guarded {cutAt : Option Nat} {shut closed : Bool} {wire : Option EgressFrame}
    (h : Answers cutAt shut w.cut w.condemn) (hwire : w.cut = true → w.passed = true ∨ wire = none) :
    Guarded cutAt shut closed (some w) wire := by
  refine ⟨fun hne => (h.cutOff hne).imp_right fun hcut => .inr ⟨w, rfl, hcut⟩, fun v hv hcut => ?_⟩
  cases hv
  exact ⟨(h.cutHere hcut).1, (h.cutHere hcut).2, hwire hcut⟩

/-- Whoever claims the role finds a cut stream shut. -/
theorem Sound.answers (h : Sound p) (hc : p.claimable = true) (condemn : Bool) :
    Answers p.cutAt p.shut false condemn := by
  obtain ⟨hw, hcl⟩ : p.writer = none ∧ p.closed = false := by simpa [claimable] using hc
  refine ⟨fun hne => .inl ?_, nofun⟩
  rcases h.guarded.cutOff hne with hs | hs | ⟨w, hs, _⟩
  · exact hs
  · cases hcl.symm.trans hs
  · cases hw.symm.trans hs

theorem Answers.put {cut condemn : Bool} (h : Answers p.cutAt p.shut cut condemn) (bs : List UInt8) :
    Answers (p.put bs).cutAt (p.put bs).shut cut condemn := by
  rw [put_cutAt, put_shut]
  exact h

variable {f : EgressFrame}

theorem Begun.sound_hold (h : Begun p.core f n) (hw : Answers p.cutAt p.shut w.cut w.condemn) :
    Sound (p.hold f n w) := by
  refine ⟨?_, Answers.guarded (by exact hw) fun _ => .inl rfl⟩
  show Kept p.core (some f) (n % 4294967296)
  rw [h.unwrapped]
  exact h.held

theorem abandon_shut (p : Peer κ) (f : EgressFrame) (n : Nat) : (p.abandon f n).shut = p.shut := by
  rw [abandon]; split <;> rfl

theorem Begun.sound_giveUp (h : Begun p.core f n) (hw : Answers p.cutAt p.shut w.cut w.condemn) :
    Sound (p.giveUp f n n w) := by
  refine ⟨h.abandoned, Answers.guarded ⟨fun hne => ?_, fun hcut => ?_⟩ fun _ => .inr rfl⟩
  · change (p.abandon f n).shut = true ∨ _
    rcases (abandon_cutAt_ne p f n).mp hne with hne | hne
    · rw [abandon_shut]
      exact (hw.cutOff hne).imp_right fun hs => by simp [hs]
    · exact .inr (by simp [hne])
  · show (p.abandon f n).cutAt ≠ none ∧ _
    rw [abandon_cutAt_ne]
    rcases Bool.or_eq_true_iff.mp hcut with hcut | hcut
    · obtain ⟨hne, hcon⟩ := hw.cutHere hcut
      exact ⟨.inl hne, by simp [hcon]⟩
    · have hlt := of_decide_eq_true hcut
      exact ⟨.inr hlt, by simp; omega⟩

theorem Sound.sendDirect (h : Sound p) (hf : f ∈ p.offered)
    (hc : p.claimable = true) (hw : p.wire = none) (o : Outcome) (built : Bool) :
    Sound (p.sendDirect f o built) := by
  have hput := (h.kept.begin hw hf).put (n := o.moved f.size)
    (by have := o.moved_le f.size; omega) fun hcut hlive =>
      absurd hlive (by simp [((h.answers hc true).cutOff hcut).resolve_right nofun])
  rw [drop_zero, Nat.zero_add] at hput
  have hans := (h.answers hc false).put (f.bytes.take (o.moved f.size))
  unfold Peer.sendDirect
  cases o with
  | finished =>
    refine ⟨?_, hans.guarded nofun⟩
    show Kept _ (p.put _).wire _
    rw [put_wire, hw]
    exact hput.leaves (.inr rfl)
  | failed n => exact Begun.sound_giveUp hput hans
  | held n =>
    dsimp only
    split
    · exact Begun.sound_hold hput hans
    · exact Begun.sound_giveUp hput hans

theorem write_stream (p : Peer κ) (w : Writer) (f : EgressFrame) (off : Nat) (o : Outcome) :
    (p.write w f off o).stream = (p.put ((f.bytes.drop off).take (o.moved (f.size - off)))).stream := by
  cases o with
  | finished => rfl
  | held n => rfl
  | failed n =>
    rw [write, giveUp]
    dsimp only
    rw [abandon]
    split <;> rfl

theorem Begun.sound_write (h : Begun p.core f off) (hw : Answers p.cutAt p.shut w.cut w.condemn)
    (o : Outcome) (hdead : w.cut = true → p.shut = false → o.moved (f.size - off) = 0) :
    Sound (p.write w f off o) := by
  have hle := h.le
  have hput := h.put (n := o.moved (f.size - off)) (by have := o.moved_le (f.size - off); omega)
    fun hne hlive => hdead ((hw.cutOff hne).resolve_left (by simp [hlive])) hlive
  have hans := hw.put ((f.bytes.drop off).take (o.moved (f.size - off)))
  unfold write
  cases o with
  | finished =>
    have hall : off + Outcome.moved (f.size - off) .finished = f.size := by
      rw [Outcome.moved]
      omega
    rw [hall] at hput
    exact ⟨hput.leaves (.inr rfl), Answers.guarded (by exact hans) fun _ => .inr rfl⟩
  | held n => exact hput.sound_hold hans
  | failed n =>
    dsimp only
    rw [hput.unwrapped]
    exact hput.sound_giveUp hans

end Writing

/-! ## Every step -/

variable {p : Peer κ}

theorem Sound.sendWaiting (h : Sound p) (hf : f ∈ p.offered)
    (lane : DeliveryLane κ) (built drawn : Bool) : Sound (p.sendWaiting f lane built drawn) := by
  have hl : Lanes.All (· ∈ p.offered)
      (if built then admitFrame lane f drawn p.lanes else (p.lanes, 0)).1 := by
    split
    · exact h.kept.lanes.admitFrame lane hf drawn
    · exact h.kept.lanes
  have hkept := h.kept.withLanes hl
  unfold Peer.sendWaiting
  dsimp only
  split
  next hc =>
    exact ⟨hkept, (h.answers hc false).guarded nofun⟩
  · exact ⟨hkept, h.guarded⟩

theorem Sound.send (h : Sound p) (hf : f.size < 4294967296) (lane : DeliveryLane κ)
    (direct : Outcome) (built drawn : Bool) : Sound (p.send f lane direct built drawn) := by
  have hoff : Sound { p with offered := p.offered ++ [f] } :=
    ⟨h.kept.offer hf, h.guarded⟩
  have hmem : f ∈ p.offered ++ [f] := mem_append_right _ (mem_singleton.mpr rfl)
  unfold Peer.send
  dsimp only
  split
  case isTrue => exact hoff
  case isFalse =>
    split
    case isTrue hidle =>
      exact hoff.sendDirect hmem hidle.1 (Option.isNone_iff_eq_none.mp hidle.2.2) direct built
    case isFalse => exact hoff.sendWaiting hmem lane built drawn

section Steps

omit [DecidableEq κ]

/-- What a round of the drain loop can do: nothing, find nothing waiting, resume the frame on the
wire, or start the frame served next. -/
theorem turn_cases (p : Peer κ) (o : Outcome) : p.turn o = p ∨
    ∃ w, p.writer = some w ∧ w.passed = false ∧ p.closed = false ∧
      (p.turn o = { p with writer := some { w with passed := true } } ∨
        (∃ f, p.wire = some f ∧ p.turn o = p.write w f p.off (w.outcome o)) ∨
        ∃ f rest, p.wire = none ∧ popFrame p.lanes = some (f, rest) ∧
          p.turn o = { p with lanes := rest }.write w f 0 (w.outcome o)) := by
  rcases hw : p.writer with _ | w
  · exact .inl (by simp only [turn, hw])
  by_cases hover : w.passed = true ∨ p.closed = true
  · exact .inl (by simp only [turn, hw, if_pos hover])
  refine .inr ⟨w, rfl, by simpa using (not_or.mp hover).1, by simpa using (not_or.mp hover).2, ?_⟩
  rcases hwire : p.wire with _ | f
  · rcases hpop : popFrame p.lanes with _ | ⟨f, rest⟩
    · exact .inl (by simp only [turn, hw, if_neg hover, hwire, hpop])
    · exact .inr (.inr ⟨f, rest, rfl, rfl, by simp only [turn, hw, if_neg hover, hwire, hpop]⟩)
  · exact .inr (.inl ⟨f, rfl, by simp only [turn, hw, if_neg hover, hwire]⟩)

variable {p : Peer κ}

section

variable (h : Sound p)
include h

theorem Sound.turn (hdead : p.Dead (.turn o)) : Sound (p.turn o) := by
  rcases turn_cases p o with heq | ⟨w, hw, hgoes, hcl, hcases⟩
  · rw [heq]
    exact h
  have hans : Answers p.cutAt p.shut w.cut w.condemn := by
    refine ⟨fun hne => ?_, fun hcut => ?_⟩
    · rcases h.guarded.cutOff hne with hs | hs | ⟨v, hv, hs⟩
      · exact .inl hs
      · exact absurd hs (by simp [hcl])
      · rw [hw] at hv
        cases hv
        exact .inr hs
    · obtain ⟨hne, hcon, -⟩ := h.guarded.cutHere w hw hcut
      exact ⟨hne, hcon⟩
  rcases hcases with heq | ⟨f, hwire, heq⟩ | ⟨f, rest, hwire, hpop, heq⟩
  · rw [heq]
    exact ⟨h.kept, Answers.guarded (by exact hans) fun _ => .inl rfl⟩
  · rw [heq]
    refine (h.kept.resume hwire).sound_write hans _ fun hcut => ?_
    -- a pass that cut a frame off has none on the wire
    rcases (h.guarded.cutHere w hw hcut).2.2 with hover | hnone
    · cases hgoes.symm.trans hover
    · cases hwire.symm.trans hnone
  · rw [heq]
    obtain ⟨hf, hrest⟩ := h.kept.lanes.popFrame hpop
    refine Begun.sound_write ((h.kept.withLanes hrest).begin hwire hf) hans _ fun hcut hs => ?_
    have hlanes : p.lanes ≠ [] := by
      rintro hnil
      rw [hnil] at hpop
      cases hpop
    rcases hdead w hw hcut hgoes hcl hs hlanes with hprobe | rfl | rfl
    · rw [Writer.outcome, if_pos hprobe]
      exact Nat.zero_min _
    all_goals
      rw [Writer.outcome]
      split <;> exact Nat.zero_min _

theorem Sound.settle (cap : Nat) : Sound (p.settle cap) := by
  unfold Peer.settle
  split
  case h_1 => exact h
  case h_2 w hw =>
    dsimp only
    split
    case isTrue =>
      refine ⟨⟨⟨h.kept.short, h.kept.lanes, h.kept.whole, h.kept.quiet⟩, h.kept.wire, fun hs hc => ?_⟩,
        fun hne => ?_, nofun⟩
      · exact h.kept.ends (Bool.or_eq_false_iff.mp hs).1 hc
      · rcases h.guarded.cutOff hne with hs | hs | ⟨v, hv, hs⟩
        · exact .inl (by simp [hs])
        · exact .inr (.inl hs)
        · rw [hw] at hv
          cases hv
          have hcon := (h.guarded.cutHere w hw hs).2.1
          exact .inl (by simp [Writer.verdict_condemn hcon])
    case isFalse => exact h

theorem Sound.look (i : Nat) : Sound (p.look i) := by
  unfold Peer.look
  split
  · split
    · exact h
    · split <;> exact ⟨h.kept, h.guarded⟩
  · exact h

theorem Sound.tryClaim (i : Nat) : Sound (p.tryClaim i) := by
  unfold Peer.tryClaim
  split
  · split
    · exact h
    dsimp only
    split
    case isTrue hc => exact ⟨h.kept, (h.answers hc _).guarded nofun⟩
    case isFalse => exact ⟨h.kept, h.guarded⟩
  · exact h

theorem Sound.flush : Sound p.flush := by
  unfold Peer.flush
  split
  case isTrue hc => exact ⟨h.kept, (h.answers hc _).guarded nofun⟩
  case isFalse => exact h

theorem Sound.condemnHeld : Sound p.condemnHeld := by
  unfold Peer.condemnHeld
  split
  case isTrue hc => exact ⟨h.kept, (h.answers hc _).guarded nofun⟩
  case isFalse => exact h

end

theorem Sound.reap (h : Sound p) : Sound p.reap := by
  unfold Peer.reap
  split
  case isTrue hc =>
    have hkept : Kept p.dropWire.core none 0 ∧ p.dropWire.wire = none ∧ p.dropWire.closed = p.closed ∧
        p.dropWire.writer = p.writer := by
      unfold Peer.dropWire
      split
      case h_1 f hw =>
        refine ⟨(h.kept.resume hw).abandoned, rfl, ?_, ?_⟩ <;>
          (dsimp only; rw [abandon]; split <;> rfl)
      case h_2 hw =>
        have hends := h.kept.ends
        rw [hw] at hends
        exact ⟨⟨h.kept.toHeld, nofun, hends⟩, hw, rfl, rfl⟩
    obtain ⟨hk, hw, hcl, hwr⟩ := hkept
    refine ⟨⟨⟨hk.short, nofun, hk.whole, hk.quiet⟩, ?_, ?_⟩, fun _ => .inr (.inl (hcl.trans hc.1)), ?_⟩
    · exact hw ▸ nofun
    · show Ends _ (onWire _ p.dropWire.wire)
      rw [hw]
      exact hk.ends
    · intro w hww
      cases (hwr.trans (Option.isNone_iff_eq_none.mp hc.2)).symm.trans hww
  case isFalse => exact h

end Steps

/-- **Every step keeps the stream sound**, as long as no write follows a cut in its own pass. -/
theorem Sound.step (h : Sound p) (cap : Nat) {e : PeerEvent κ} (hshort : Short e) (hdead : p.Dead e) :
    Sound (p.step cap e) := by
  cases e with
  | send f lane direct built drawn => exact h.send hshort lane direct built drawn
  | turn o => exact h.turn hdead
  | settle => exact h.settle cap
  | look i => exact h.look i
  | claim i => exact h.tryClaim i
  | reap => exact h.reap
  | close =>
    exact ⟨h.kept, fun _ => .inr (.inl rfl), h.guarded.cutHere⟩
  | flush => exact h.flush
  | condemnHeld => exact h.condemnHeld

/-! ## Whole histories -/

section Histories

omit [DecidableEq κ]

theorem sound_opened {first : Option EgressFrame} (hfirst : ∀ f ∈ first, f.size < 4294967296) :
    Sound (opened first : Peer κ) := by
  refine ⟨⟨⟨by simpa [core, opened] using hfirst, nofun, ⟨[], [], by simp, rfl, .inl rfl⟩, nofun⟩, ?_, ?_⟩,
    fun hne => absurd rfl hne, nofun⟩
  · intro f hf
    rw [show first = some f from hf]
    exact ⟨mem_singleton.mpr rfl, Nat.zero_le _⟩
  · refine fun _ _ => ⟨[], by simp, ?_⟩
    cases first with
    | none => rfl
    | some f => exact (take_zero (l := f.bytes)).symm

/-- A cut stays where it was first made. -/
theorem write_cutAt (w : Writer) (off : Nat) (o : Outcome) {p : Peer κ} (hn : p.cutAt = some n) :
    (p.write w f off o).cutAt = some n := by
  cases o with
  | finished | held k => exact (put_cutAt p _).trans hn
  | failed k =>
    unfold write giveUp abandon
    dsimp only
    split
    · simp [hn]
    · exact (put_cutAt p _).trans hn

theorem Sound.dead {p : Peer κ} (h : Sound p) (hi : (p.turn o).Intact) : p.Dead (.turn o) := by
  intro w hw hcut hgoes hcl hs hlanes
  obtain ⟨hne, -, hpass⟩ := h.guarded.cutHere w hw hcut
  obtain ⟨n, hn⟩ := Option.ne_none_iff_exists'.mp hne
  have hwire : p.wire = none := hpass.resolve_left (by simp [hgoes])
  obtain ⟨f, rest, hpop⟩ : ∃ f rest, popFrame p.lanes = some (f, rest) := by
    cases hl : p.lanes with
    | nil => exact absurd hl hlanes
    | cons l ls => cases hlater : l.later <;> simp [popFrame, hlater]
  have hturn : p.turn o = { p with lanes := rest }.write w f 0 (w.outcome o) := by
    simp only [Peer.turn, hw, hgoes, hcl, hwire, hpop, Bool.false_eq_true, or_self, if_false]
  -- the stream may not grow past the cut, so that nothing of `f` goes out
  rw [hturn] at hi
  have hlen := hi.quiet n (write_cutAt w 0 _ hn)
  rw [write_stream, put_stream (p := { p with lanes := rest }) hs, length_append,
    show p.stream.length = n from h.kept.quiet n hn, drop_zero, length_take] at hlen
  have hpos := f.size_pos
  have hsize : f.bytes.length = f.size := rfl
  rw [Nat.sub_zero] at hlen
  have hmoved : (w.outcome o).moved f.size = 0 := by
    have := (w.outcome o).moved_le f.size
    omega
  rw [Writer.outcome] at hmoved
  split at hmoved
  next hprobe => exact .inl hprobe
  cases o with
  | finished => exact absurd hmoved (Nat.pos_iff_ne_zero.mp hpos)
  | held k =>
    obtain rfl : k = 0 := by
      rw [Outcome.moved] at hmoved
      omega
    exact .inr (.inl rfl)
  | failed k =>
    obtain rfl : k = 0 := by
      rw [Outcome.moved] at hmoved
      omega
    exact .inr (.inr rfl)

end Histories

theorem machine_run_concat (cap : Nat) (first : Option EgressFrame) (es : List (PeerEvent κ))
    (e : PeerEvent κ) : (machine cap first).run (es ++ [e]) = ((machine cap first).run es).step cap e :=
  (machine cap first).runFrom_append _ es [e]

section

variable (cap : Nat) {first : Option EgressFrame} {es : List (PeerEvent κ)}

theorem sound_run (hfirst : ∀ f ∈ first, f.size < 4294967296) (hes : ∀ e ∈ es, Short e)
    (h : ∀ ds e, ds ++ [e] <+: es → ((machine cap first).run ds).Dead e) :
    Sound ((machine cap first).run es) := by
  induction es using List.reverseRecOn with
  | nil => exact sound_opened hfirst
  | append_singleton es e ih =>
    obtain ⟨hes, he⟩ := forall_mem_append.mp hes
    have hsound : Sound ((machine cap first).run es) :=
      ih hes fun ds d hd => h ds d (hd.trans (prefix_append es [e]))
    rw [machine_run_concat]
    exact hsound.step cap (he e mem_cons_self) (h es e prefix_rfl)

/-- **The stream of a peer stays intact exactly as long as the socket is dead after a cut**: in every
history of sends and flushes, every state has an intact stream if and only if every write that comes
in one drain pass after the pass abandoned a part-written frame moves nothing. -/
theorem intact_iff_dead (first : Option EgressFrame) (es : List (PeerEvent κ))
    (hfirst : ∀ f ∈ first, f.size < 4294967296) (hes : ∀ e ∈ es, Short e) :
    (∀ ds, ds <+: es → ((machine cap first).run ds).Intact) ↔
      ∀ ds e, ds ++ [e] <+: es → ((machine cap first).run ds).Dead e := by
  constructor
  · intro h
    induction es using List.reverseRecOn with
    | nil =>
      intro ds e hd
      have hlen := hd.length_le
      simp at hlen
    | append_singleton es e ih =>
      have hbefore := (forall_mem_append.mp hes).1
      have hdead := ih hbefore fun ds hd => h ds (hd.trans (prefix_append es [e]))
      intro ds d hd
      rcases prefix_concat_iff.mp hd with heq | hd
      · obtain ⟨rfl, hde⟩ := append_inj' heq rfl
        obtain rfl := singleton_inj.mp hde
        have hlast := h (ds ++ [d]) prefix_rfl
        rw [machine_run_concat] at hlast
        cases d with
        | turn o => exact (sound_run cap hfirst hbefore hdead).dead hlast
        | _ => trivial
      · exact hdead ds d hd
  · intro h ds hd
    have hsound := sound_run cap hfirst (fun e he => hes e (hd.subset he)) fun es' e he => h es' e (he.trans hd)
    exact ⟨hsound.kept.whole, hsound.kept.quiet⟩

end

/-! ## The next frame goes out before the verdict -/

def pairFrame : EgressFrame := ⟨[1, 2], [], by decide⟩

def loneFrame : EgressFrame := ⟨[3], [], by decide⟩

/-- The socket takes one byte of the first record and is full.  The next record resumes it, the gather
table is refused, and the pass goes on to the record that waits. -/
def cutThenNext : List (PeerEvent Nat) :=
  [.send pairFrame {} (.held 1) true true, .settle,
   .send loneFrame {} .finished true true, .turn (.failed 0), .turn .finished, .settle]

/-- Up to the cut the history leaves the stream intact. -/
theorem intact_iff_dead_cut :
    ((machine egressControlDepth none).run (cutThenNext.take 4)).cutAt = some 1 ∧
      ((machine egressControlDepth none).run (cutThenNext.take 4)).Intact := by
  refine ⟨by decide, (intact_iff_dead egressControlDepth none (cutThenNext.take 4) nofun
    ?_).mpr ?_ _ prefix_rfl⟩
  · simp [cutThenNext, Short, pairFrame, loneFrame, EgressFrame.size, EgressFrame.bytes]
  · rintro ds e ⟨rest, hds⟩
    rcases ds with _ | ⟨_, _ | ⟨_, _ | ⟨_, _ | ⟨_, ds⟩⟩⟩⟩ <;> simp [cutThenNext] at hds
    · obtain ⟨rfl, -⟩ := hds
      trivial
    · obtain ⟨-, rfl, -⟩ := hds
      trivial
    · obtain ⟨-, -, rfl, -⟩ := hds
      trivial
    · obtain ⟨rfl, rfl, rfl, rfl, -⟩ := hds
      intro w hw hcut
      cases hw
      cases hcut

/-- **On a live socket the drain loop goes on to the next frame before it condemns the peer**: a
refused gather table abandons a part-written frame, and the bytes of the next one follow. -/
theorem next_frame_after_cut : writeFrame false true true [] pairFrame 1 = some (⟨0, false, true⟩, []) ∧
      ((machine egressControlDepth none).run cutThenNext).stream = [1, 3] ∧
      ((machine egressControlDepth none).run cutThenNext).cutAt = some 1 ∧
      ¬ Whole [pairFrame, loneFrame] [1, 3] := by
  refine ⟨rfl, by decide, by decide, ?_⟩
  intro h
  obtain ⟨done, part, hd, hs, hp⟩ := h
  cases done with
  | nil =>
    rw [flatMap_nil, nil_append] at hs
    subst hs
    rcases hp with hp | ⟨f, hf, hp, _⟩
    · cases hp
    simp only [mem_cons, not_mem_nil, or_false] at hf
    rcases hf with rfl | rfl
    all_goals exact absurd hp (by decide)
  | cons f fs =>
    have hf := hd f mem_cons_self
    simp only [mem_cons, not_mem_nil, or_false] at hf
    rcases hf with rfl | rfl
    · simp [pairFrame, EgressFrame.bytes] at hs
    · simp [loneFrame, EgressFrame.bytes] at hs

end Peer

end LibTracer.Net
