import LibTracer.Lib.Machine
import LibTracer.Net.CanReceiver

/-!
# The CAN producer

Every sender of a node shares one allocator and one control stream.  A send reserves a run of endpoints
and announces it under the lock; its slices go out without it, between those of other senders.  The run
is reserved until the last slice is out, and the allocator comes round only when no run is.

* **`conforming`** — what every frame on the bus is, after every interleaving.
-/

namespace LibTracer.Net.Can

open List

/-! ## State -/

/-- A frame that was sent, where to, and the run it was given. -/
structure Sent where
  payload : List UInt8
  target : UInt16
  base : Nat
  deriving DecidableEq, Repr

/-- The send state of a node.  `voice` is what is left to write of the advertise whose sender holds the
lock, empty while no one does.  `speaker`, the group of that sender, `sent` and `bus`, all frames that
were sent and written, are an account. -/
structure Producer where
  next : Nat := firstDataEndpoint
  /-- The groups in flight, with the number of slices that are out. -/
  flights : List (Nat × Nat) := []
  voice : List UInt8 := []
  speaker : Nat := 0
  sent : List Sent := []
  bus : List CanFrame := []
  deriving DecidableEq, Repr

inductive Call where
  | send (payload : List UInt8) (target : UInt16)
  | hello
  | speak
  | slice (group : Nat)
  | finish (group : Nat)
  deriving DecidableEq, Repr

namespace CanConfig

variable (S : CanConfig)

def idOf (endpoint : Nat) : Nat := encodeCanId S.version S.node endpoint

def advertise (s : Sent) : Advertise :=
  { canId := S.idOf s.base
    group := decide (1 < frameCount S.mode s.payload)
    total := s.payload.length
    count := frameCount S.mode s.payload
    target := s.target.toNat }

def helloAdvertise : Advertise :=
  { canId := S.idOf controlEndpoint, group := false, total := 0, count := 0,
    target := broadcastNode }

/-- What `emit_advertise` writes: nothing where the path is too long. -/
def speech (a : Advertise) : List UInt8 :=
  if S.path.length ≤ maxPathLen then encodeAdvertise a S.path else []

def sliceFrame (s : Sent) (group i : Nat) : CanFrame :=
  { id := S.idOf (s.base + i), fd := decide (S.mode = .fd)
    data := onWire S.mode (frameAt S.mode s.payload i), group := group }

end CanConfig

/-! ## The identifiers of a node -/

namespace CanConfig

variable (S : CanConfig)

theorem nodeOf_idOf (endpoint : Nat) : nodeOf (S.idOf endpoint) = S.node := by
  rw [idOf, nodeOf_encodeCanId]
  exact Nat.mod_eq_of_lt (Nat.lt_succ_of_le S.node_le)

theorem versionOf_idOf (endpoint : Nat) : versionOf (S.idOf endpoint) = S.version := by
  rw [idOf, versionOf_encodeCanId]
  exact Nat.mod_eq_of_lt (Nat.lt_succ_of_le S.version_le)

theorem bandOf_idOf (endpoint endpoint' : Nat) :
    bandOf (S.idOf endpoint) = bandOf (S.idOf endpoint') := by
  rw [idOf, idOf, bandOf_encodeCanId, bandOf_encodeCanId]

variable {S}

variable {endpoint : Nat}

theorem endpointOf_idOf (h : endpoint ≤ endpointMax) :
    endpointOf (S.idOf endpoint) = endpoint :=
  endpointOf_encodeCanId _ _ h

theorem idOf_add {base i : Nat} (h : base + i ≤ endpointMax) :
    S.idOf (base + i) = S.idOf base + i :=
  encodeCanId_add _ _ h

theorem idOf_eq (h : endpoint ≤ endpointMax) :
    S.idOf endpoint = S.idOf 0 + endpoint := by
  rw [← idOf_add (by omega), zero_add]

end CanConfig

/-! ## Steps -/

namespace Producer

variable (S : CanConfig)

/-- `alloc_base`, for a group that fits the window.  It waits where the run does not fit what is left of
the lap while a group is in flight. -/
def allocBase (p : Producer) (count : Nat) : Option Nat :=
  if p.next + count - 1 ≤ endpointMax then some p.next
  else if p.flights.isEmpty then some firstDataEndpoint
  else none

/-- `send_impl`, up to its first slice.  An empty frame and one wider than the window are refused; a
sender that finds the lock taken, or waits for the lap, does not move. -/
def send (p : Producer) (payload : List UInt8) (target : UInt16) : Producer :=
  let count := frameCount S.mode payload
  if p.voice ≠ [] ∨ count = 0 ∨ maxGroupSlices < count then p
  else
    match p.allocBase count with
    | none => p
    | some base =>
      { p with
        next := base + count
        flights := Table.put p.sent.length 0 p.flights
        voice := S.speech (S.advertise ⟨payload, target, base⟩)
        speaker := p.sent.length
        sent := p.sent ++ [⟨payload, target, base⟩] }

/-- `emit_hello`, up to its first frame. -/
def hello (p : Producer) : Producer :=
  if p.voice ≠ [] then p
  else { p with voice := S.speech S.helloAdvertise, speaker := p.sent.length }

/-- `emit_advertise` writes the next piece of the stream. -/
def speak (p : Producer) : Producer :=
  if p.voice = [] then p
  else
    { p with
      voice := p.voice.drop 8
      bus := p.bus ++ [⟨S.idOf controlEndpoint, false, p.voice.take 8, p.speaker⟩] }

/-- `send_impl` writes the next slice of a group, once its advertise is out. -/
def slice (p : Producer) (group : Nat) : Producer :=
  match Table.lookup group p.flights, p.sent[group]? with
  | some i, some s =>
    if (p.voice ≠ [] ∧ p.speaker = group) ∨ frameCount S.mode s.payload ≤ i then p
    else
      { p with
        flights := Table.put group (i + 1) p.flights
        bus := p.bus ++ [S.sliceFrame s group i] }
  | _, _ => p

/-- `send_impl` gives its run back, under the lock, when all its slices are out. -/
def finish (p : Producer) (group : Nat) : Producer :=
  match Table.lookup group p.flights, p.sent[group]? with
  | some i, some s =>
    if p.voice = [] ∧ frameCount S.mode s.payload ≤ i then
      { p with flights := Table.erase group p.flights }
    else p
  | _, _ => p

def step (p : Producer) : Call → Producer
  | .send payload target => p.send S payload target
  | .hello => p.hello S
  | .speak => p.speak S
  | .slice group => p.slice S group
  | .finish group => p.finish S group

end Producer

def producerMachine (S : CanConfig) : Machine Producer Call Unit where
  start := {}
  step p c := (p.step S c, ())

/-! ## What a step can do -/

namespace Producer

variable {S : CanConfig} {p : Producer}

theorem send_cases (p : Producer) (payload : List UInt8) (target : UInt16) :
    p.send S payload target = p ∨
      ∃ base, p.allocBase (frameCount S.mode payload) = some base ∧ p.voice = [] ∧
        0 < frameCount S.mode payload ∧ frameCount S.mode payload ≤ maxGroupSlices ∧
        p.send S payload target =
          { p with
            next := base + frameCount S.mode payload
            flights := Table.put p.sent.length 0 p.flights
            voice := S.speech (S.advertise ⟨payload, target, base⟩)
            speaker := p.sent.length
            sent := p.sent ++ [⟨payload, target, base⟩] } := by
  rw [send]
  by_cases hc : p.voice ≠ [] ∨ frameCount S.mode payload = 0 ∨
      maxGroupSlices < frameCount S.mode payload
  · exact .inl (if_pos hc)
  rw [if_neg hc]
  cases hb : p.allocBase (frameCount S.mode payload) with
  | none => exact .inl rfl
  | some base =>
    refine .inr ⟨base, rfl, ?_, ?_, ?_, rfl⟩
    · exact Classical.not_not.mp fun h => hc (.inl h)
    · omega
    · omega

/-- **A frame within the window is recorded**, where the lock is free and the lap open. -/
theorem send_records (payload : List UInt8) (target : UInt16) (hvoice : p.voice = [])
    (hpos : 0 < frameCount S.mode payload) (hmax : frameCount S.mode payload ≤ maxGroupSlices)
    (hlap : p.next + frameCount S.mode payload - 1 ≤ endpointMax ∨ p.flights = []) :
    ∃ base, (p.send S payload target).sent = p.sent ++ [⟨payload, target, base⟩] := by
  have hbase : p.allocBase (frameCount S.mode payload) ≠ none := by
    rw [allocBase]
    split
    · simp
    · rw [hlap.resolve_left ‹_›]
      simp
  obtain ⟨base, hbase⟩ := Option.ne_none_iff_exists'.mp hbase
  exact ⟨base, by rw [send, if_neg (by simp [hvoice]; omega), hbase]⟩

theorem slice_cases (p : Producer) (group : Nat) :
    p.slice S group = p ∨
      ∃ i s, Table.lookup group p.flights = some i ∧ p.sent[group]? = some s ∧
        i < frameCount S.mode s.payload ∧ ¬(p.voice ≠ [] ∧ p.speaker = group) ∧
        p.slice S group =
          { p with
            flights := Table.put group (i + 1) p.flights
            bus := p.bus ++ [S.sliceFrame s group i] } := by
  rw [slice]
  cases hi : Table.lookup group p.flights with
  | none => exact .inl rfl
  | some i =>
    cases hs : p.sent[group]? with
    | none => exact .inl rfl
    | some s =>
      dsimp only
      by_cases hc : (p.voice ≠ [] ∧ p.speaker = group) ∨ frameCount S.mode s.payload ≤ i
      · exact .inl (if_pos hc)
      · rw [if_neg hc]
        exact .inr ⟨i, s, rfl, rfl, by omega, fun h => hc (.inl h), rfl⟩

theorem finish_cases (p : Producer) (group : Nat) :
    p.finish S group = p ∨
      ∃ i s, Table.lookup group p.flights = some i ∧ p.sent[group]? = some s ∧
        frameCount S.mode s.payload ≤ i ∧ p.voice = [] ∧
        p.finish S group = { p with flights := Table.erase group p.flights } := by
  rw [finish]
  cases hi : Table.lookup group p.flights with
  | none => exact .inl rfl
  | some i =>
    cases hs : p.sent[group]? with
    | none => exact .inl rfl
    | some s =>
      dsimp only
      by_cases hc : p.voice = [] ∧ frameCount S.mode s.payload ≤ i
      · rw [if_pos hc]
        exact .inr ⟨i, s, rfl, rfl, hc.2, hc.1, rfl⟩
      · exact .inl (if_neg hc)

/-! ## What is on the bus -/

/-- A frame on the bus is a piece of the control stream, or a slice of a frame that was sent. -/
def IsOf (S : CanConfig) (sent : List Sent) (f : CanFrame) : Prop :=
  f.id = S.idOf controlEndpoint ∨
    ∃ s i, sent[f.group]? = some s ∧ i < frameCount S.mode s.payload ∧ f = S.sliceFrame s f.group i

def InWindow (S : CanConfig) (s : Sent) : Prop :=
  firstDataEndpoint ≤ s.base ∧ 0 < frameCount S.mode s.payload ∧
    s.base + frameCount S.mode s.payload ≤ endpointMax + 1

theorem InWindow.base_le (h : InWindow S s) : s.base ≤ endpointMax := by
  obtain ⟨-, hpos, hend⟩ := h
  omega

structure Conforming (S : CanConfig) (p : Producer) : Prop where
  next_pos : firstDataEndpoint ≤ p.next
  window : ∀ s ∈ p.sent, InWindow S s
  bus : ∀ f ∈ p.bus, IsOf S p.sent f

theorem IsOf.mono {sent : List Sent} {f : CanFrame} (h : IsOf S sent f) (s : Sent) :
    IsOf S (sent ++ [s]) f := by
  rcases h with h | ⟨s', i, hs, hi, hf⟩
  · exact .inl h
  · exact .inr ⟨s', i, List.getElem?_append_left (List.getElem?_eq_some_iff.mp hs).1 ▸ hs, hi, hf⟩

theorem inWindow_of_allocBase {payload : List UInt8} {base : Nat} (target : UInt16)
    (hnext : firstDataEndpoint ≤ p.next) (hpos : 0 < frameCount S.mode payload)
    (hmax : frameCount S.mode payload ≤ maxGroupSlices)
    (h : p.allocBase (frameCount S.mode payload) = some base) :
    InWindow S ⟨payload, target, base⟩ := by
  simp only [allocBase, firstDataEndpoint, endpointMax, maxGroupSlices] at *
  refine ⟨?_, hpos, ?_⟩
  all_goals
    simp only [firstDataEndpoint, endpointMax]
    grind

theorem Conforming.step (h : Conforming S p) (c : Call) : Conforming S (p.step S c) := by
  cases c with
  | send payload target =>
    rcases send_cases (S := S) p payload target with heq | ⟨base, hb, -, hpos, hmax, heq⟩
    · rw [Producer.step, heq]
      exact h
    rw [Producer.step, heq]
    have hwin := inWindow_of_allocBase target h.next_pos hpos hmax hb
    exact ⟨Nat.le_trans hwin.1 (Nat.le_add_right _ _),
      forall_mem_append.mpr ⟨h.window, forall_mem_singleton.mpr hwin⟩, fun f hf => (h.bus f hf).mono _⟩
  | hello =>
    rw [Producer.step, hello]
    split
    · exact h
    · exact ⟨h.next_pos, h.window, h.bus⟩
  | speak =>
    rw [Producer.step, speak]
    split
    · exact h
    exact ⟨h.next_pos, h.window, forall_mem_append.mpr ⟨h.bus, forall_mem_singleton.mpr (.inl rfl)⟩⟩
  | slice group =>
    rcases slice_cases (S := S) p group with heq | ⟨i, s, -, hs, hi, -, heq⟩
    · rw [Producer.step, heq]
      exact h
    rw [Producer.step, heq]
    exact ⟨h.next_pos, h.window,
      forall_mem_append.mpr ⟨h.bus, forall_mem_singleton.mpr (.inr ⟨s, i, hs, hi, rfl⟩)⟩⟩
  | finish group =>
    rcases finish_cases (S := S) p group with heq | ⟨i, s, -, -, -, -, heq⟩
    · rw [Producer.step, heq]
      exact h
    · rw [Producer.step, heq]
      exact ⟨h.next_pos, h.window, h.bus⟩

/-- **Every interleaving of senders conforms.** -/
theorem conforming (S : CanConfig) (calls : List Call) :
    Conforming S ((producerMachine S).run calls) :=
  (producerMachine S).invariant
    ⟨le_rfl, fun _ hs => absurd hs not_mem_nil, fun _ hf => absurd hf not_mem_nil⟩
    (fun _ c h => h.step c) ((producerMachine S).reachable_run calls)

end Producer

theorem index_sliceFrame {S : CanConfig} {s : Sent} (hwin : Producer.InWindow S s) {i : Nat} (group : Nat)
    (hi : i < frameCount S.mode s.payload) :
    endpointOf (S.sliceFrame s group i).id - endpointOf (S.idOf s.base) = i := by
  obtain ⟨-, -, hend⟩ := hwin
  rw [CanConfig.sliceFrame, CanConfig.endpointOf_idOf (by omega), CanConfig.endpointOf_idOf (by omega)]
  omega

/-! ## Two nodes of a bus -/

def classicNode (node : Nat) (h : node ≤ 8191) : CanConfig where
  version := 1
  node := node
  mode := .classic
  path := []
  rxTtl := 1000
  maxPending := 0
  learnedCap := 16
  limits := ⟨0, 65536, 65536⟩
  version_le := by decide
  node_le := h

def sender : CanConfig := classicNode 1 (by decide)

def listener : CanConfig := classicNode 2 (by decide)

end LibTracer.Net.Can
