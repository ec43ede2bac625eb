import LibTracer.Lib.Bitmap
import LibTracer.Lib.Framing

/-!
# The length-prefix framer

A stream link that is handed chunks (a QUIC receive event) puts its frames together again: four bytes of
length, then the body.  A length over the link's cap has lost the framing, and the stream is torn down; a
frame the store refuses is skipped and counted.

* **`feedAll_chunks`** — frames, drops and the verdict do not depend on the cut.
-/

namespace LibTracer.Net

open List
open LittleEndian (length_store load load_lt load_store_of_lt store store_load)

/-! ## The framer -/

/-- A store of segments: what it answers to the `n`-th frame of a stream, of `len` bytes.  A segment has
the size asked for, and no more than the store's largest. -/
structure Source where
  maxSegment : Nat
  draw : Nat → Nat → Option (List UInt8)
  length_draw : ∀ {n len seg}, draw n len = some seg → seg.length = len
  draw_le : ∀ {n len seg}, draw n len = some seg → len ≤ maxSegment

inductive RxEvent where
  | frame (bytes : List UInt8)
  | drop
  deriving DecidableEq, Repr

def kPrefixBytes : Nat := 4

inductive PrefixDecision where
  | empty
  | malformed
  | drop
  | accept (seg : List UInt8)
  deriving DecidableEq, Repr

/-- `length_prefix_framer_t`.  `draws` is an account: the frames a store was asked for. -/
structure Framer where
  prefixBytes : List UInt8 := []
  rxSeg : List UInt8 := []
  rxLen : Nat := 0
  rxOff : Nat := 0
  drainLeft : Nat := 0
  draws : Nat := 0
  deriving DecidableEq, Repr

namespace Framer

/-- Whether the loop of `feed` goes on. -/
inductive Flow where
  | again
  | await
  | malformed
  deriving DecidableEq, Repr

structure Turned where
  framer : Framer
  rest : List UInt8
  events : List RxEvent
  flow : Flow

/-- What a chunk leaves; `rest` is what was not read of it. -/
structure Fed where
  framer : Framer
  rest : List UInt8
  events : List RxEvent
  malformed : Bool

def onPrefix (src : Source) (maxFrame draws len : Nat) : PrefixDecision :=
  if len = 0 then .empty
  else if maxFrame < len then .malformed
  else if src.maxSegment < len then .drop
  else
    match src.draw draws len with
    | none => .drop
    | some seg => .accept seg

/-- `feed`: a dropped frame's bytes are skipped. -/
def drain (f : Framer) (p : List UInt8) : Turned :=
  let take := min f.drainLeft p.length
  let left := f.drainLeft - take
  ⟨{ f with drainLeft := left, prefixBytes := if left = 0 then [] else f.prefixBytes }, p.drop take, [],
    .again⟩

/-- `feed`: the prefix is whole. -/
def judge (src : Source) (maxFrame : Nat) (f : Framer) (rest : List UInt8) : Turned :=
  let len := LittleEndian.load f.prefixBytes
  match onPrefix src maxFrame f.draws len with
  | .empty => ⟨{ f with prefixBytes := [] }, rest, [], .again⟩
  | .malformed => ⟨f, rest, [], .malformed⟩
  | .drop => ⟨{ f with drainLeft := len, draws := f.draws + 1 }, rest, [.drop], .again⟩
  | .accept seg =>
    ⟨{ f with rxSeg := seg, rxLen := len, rxOff := 0, draws := f.draws + 1 }, rest, [], .again⟩

/-- `feed`: the prefix, across chunks. -/
def gather (src : Source) (maxFrame : Nat) (f : Framer) (p : List UInt8) : Turned :=
  let take := min (kPrefixBytes - f.prefixBytes.length) p.length
  let f' := { f with prefixBytes := f.prefixBytes ++ p.take take }
  if f'.prefixBytes.length < kPrefixBytes then ⟨f', p.drop take, [], .await⟩
  else judge src maxFrame f' (p.drop take)

/-- `feed`: the body, copied into its segment. -/
def fill (f : Framer) (p : List UInt8) : Turned :=
  let take := min (f.rxLen - f.rxOff) p.length
  let seg := Window.splice f.rxSeg f.rxOff (p.take take)
  let off := f.rxOff + take
  if off = f.rxLen then
    ⟨{ f with rxSeg := [], prefixBytes := [], rxLen := 0, rxOff := 0 }, p.drop take, [.frame seg], .again⟩
  else ⟨{ f with rxSeg := seg, rxOff := off }, p.drop take, [], .again⟩

/-- One turn of the loop of `feed`. -/
def turn (src : Source) (maxFrame : Nat) (f : Framer) (p : List UInt8) : Turned :=
  if 0 < f.drainLeft then f.drain p
  else if f.prefixBytes.length < kPrefixBytes then f.gather src maxFrame p
  else f.fill p

/-- The loop of `feed`. -/
def feedLoop (src : Source) (maxFrame : Nat) : Nat → Framer → List UInt8 → Fed
  | 0, f, p => ⟨f, p, [], false⟩
  | fuel + 1, f, p =>
    if p = [] then ⟨f, [], [], false⟩
    else
      let t := f.turn src maxFrame p
      match t.flow with
      | .again =>
        let r := feedLoop src maxFrame fuel t.framer t.rest
        ⟨r.framer, r.rest, t.events ++ r.events, r.malformed⟩
      | .await => ⟨t.framer, t.rest, t.events, false⟩
      | .malformed => ⟨t.framer, t.rest, t.events, true⟩

/-- `feed`: every turn reads a byte, so there are no more turns than bytes. -/
def feed (src : Source) (maxFrame : Nat) (f : Framer) (p : List UInt8) : Fed :=
  feedLoop src maxFrame (p.length + 1) f p

def reset (f : Framer) : Framer :=
  { f with prefixBytes := [], rxSeg := [], rxLen := 0, rxOff := 0, drainLeft := 0 }

/-- What a link has seen of a stream: what it reported, and where the stream broke the protocol. -/
structure Seen where
  events : List RxEvent
  violation : Option Nat
  deriving DecidableEq, Repr

def feedAll (src : Source) (maxFrame : Nat) : Framer → List (List UInt8) → Seen
  | _, [] => ⟨[], none⟩
  | f, chunk :: chunks =>
    let r := f.feed src maxFrame chunk
    if r.malformed then ⟨r.events, some (chunk.length - r.rest.length)⟩
    else
      let t := feedAll src maxFrame r.framer chunks
      ⟨r.events ++ t.events, t.violation.map (chunk.length + ·)⟩

end Framer

/-! ## The framer's rules as a framing -/

def prefixVerdict (maxFrame : Nat) (h : List UInt8) : Verdict :=
  if h.length < kPrefixBytes then .more
  else if maxFrame < LittleEndian.load (h.take kPrefixBytes) then .close
  else .body kPrefixBytes (LittleEndian.load (h.take kPrefixBytes))

/-- The segment of the `n`-th frame. -/
def Source.segment (src : Source) (n len : Nat) : Option (List UInt8) :=
  if src.maxSegment < len then none else src.draw n len

/-- The rules of `feed`; the state counts the frames drawn. -/
def framed (src : Source) (maxFrame : Nat) : Framing Nat RxEvent where
  header _ h := prefixVerdict maxFrame h
  close n _ := (n, [])
  enter n _ := n
  draw n len := (n + 1, if (src.segment n len).isNone then [.drop] else [], src.segment n len)
  body n block _ := (n, (block.map RxEvent.frame).toList, true)

variable {len n : Nat} {seg : List UInt8}

section

variable {maxFrame : Nat} {h : List UInt8}

theorem prefixVerdict_more : prefixVerdict maxFrame h = .more ↔ h.length < kPrefixBytes := by
  rw [prefixVerdict]
  split
  · simp [*]
  · split <;> simp [*]

theorem prefixVerdict_close : prefixVerdict maxFrame h = .close ↔
    kPrefixBytes ≤ h.length ∧ maxFrame < load (h.take kPrefixBytes) := by
  rw [prefixVerdict]
  split
  next hlt =>
    exact ⟨nofun, fun hc => absurd hc.1 (Nat.not_le.mpr hlt)⟩
  next hlt =>
  split
  next hmax =>
    exact ⟨fun _ => ⟨Nat.le_of_not_lt hlt, hmax⟩, fun _ => rfl⟩
  next hmax =>
    exact ⟨nofun, fun hc => absurd hc.2 hmax⟩

theorem prefixVerdict_body {size : Nat} : prefixVerdict maxFrame h = .body size len ↔
    kPrefixBytes ≤ h.length ∧ len ≤ maxFrame ∧ size = kPrefixBytes ∧
      len = load (h.take kPrefixBytes) := by
  rw [prefixVerdict]
  split
  next hlt =>
    exact ⟨nofun, fun hc => absurd hc.1 (Nat.not_le.mpr hlt)⟩
  next hlt =>
  split
  next hmax =>
    refine ⟨nofun, fun hc => ?_⟩
    rw [← hc.2.2.2] at hmax
    exact absurd hc.2.1 (Nat.not_le.mpr hmax)
  next hmax =>
  constructor
  · intro hb
    cases hb
    exact ⟨Nat.le_of_not_lt hlt, Nat.le_of_not_lt hmax, rfl, rfl⟩
  · intro hb
    rw [hb.2.2.1, hb.2.2.2]

theorem prefixVerdict_append (h4 : kPrefixBytes ≤ h.length) (t : List UInt8) :
    prefixVerdict maxFrame (h ++ t) = prefixVerdict maxFrame h := by
  have htake : (h ++ t).take kPrefixBytes = h.take kPrefixBytes := take_append_of_le_length h4
  have hlen : ¬(h ++ t).length < kPrefixBytes := by
    rw [length_append]
    omega
  rw [prefixVerdict, prefixVerdict, if_neg hlen, if_neg (Nat.not_lt.mpr h4), htake]

theorem load_prefix_lt (h : List UInt8) : load (h.take kPrefixBytes) < 4294967296 := by
  have hlt := load_lt (h.take kPrefixBytes)
  have hlen : (h.take kPrefixBytes).length ≤ 4 := List.length_take_le _ _
  exact Nat.lt_of_lt_of_le hlt (Nat.pow_le_pow_right (by decide) hlen)

end

theorem Source.length_segment {src : Source} (h : src.segment n len = some seg) : seg.length = len := by
  rw [segment] at h
  split at h
  · cases h
  · exact src.length_draw h

theorem framed_lawful (src : Source) (maxFrame : Nat) : (framed src maxFrame).Lawful kPrefixBytes where
  more_nil := rfl
  more_lt h := prefixVerdict_more.mp h
  size_pos h := by rw [(prefixVerdict_body.mp h).2.2.1]; decide
  size_le h := by rw [(prefixVerdict_body.mp h).2.2.1]; exact (prefixVerdict_body.mp h).1
  body_stable {f h size len} hb t := by
    obtain ⟨hle, hmax, rfl, hlen⟩ := prefixVerdict_body.mp hb
    refine prefixVerdict_body.mpr ⟨?_, hmax, rfl, ?_⟩
    · rw [length_append, length_take]
      omega
    · rw [take_append_of_le_length (by rw [length_take]; omega), take_take, Nat.min_self]
      exact hlen
  enter_take _ := rfl
  close_stable {f h} hc t := (prefixVerdict_append (prefixVerdict_close.mp hc).1 t).trans hc
  close_eq _ _ := rfl
  len_lt {f h size len} hb := by
    rw [(prefixVerdict_body.mp hb).2.2.2]
    exact load_prefix_lt h
  draw_length h := Source.length_segment h

theorem decode_over (src : Source) {maxFrame : Nat} (n : Nat) {whole : List UInt8}
    (h4 : whole.length = kPrefixBytes) (hmax : maxFrame < load whole) :
    (framed src maxFrame).decode (.header n []) whole = ⟨.closed n, [], []⟩ := by
  have htake : whole.take kPrefixBytes = whole := take_of_length_le (le_of_eq h4)
  have hclose : (framed src maxFrame).header n whole = .close :=
    prefixVerdict_close.mpr ⟨le_of_eq h4.symm, by rw [htake]; exact hmax⟩
  obtain ⟨init, b, hinit⟩ := (eq_nil_or_concat whole).resolve_left (by
    intro hnil
    rw [hnil] at h4
    cases h4)
  rw [concat_eq_append] at hinit
  have hmore : (framed src maxFrame).header n init = .more := by
    rw [hinit, length_append, length_singleton] at h4
    exact prefixVerdict_more.mpr (by omega)
  rw [hinit] at hclose ⊢
  exact (framed_lawful src maxFrame).decode_closes hmore hclose

/-! ## A chunk, as the decoder reads it -/

namespace Framer

open Framing

def Rep (f : Framer) : Decoder Nat → Prop
  | .header n got => f.drainLeft = 0 ∧ f.prefixBytes = got ∧ got.length < kPrefixBytes ∧ f.draws = n
  | .body n len (some bs) left =>
    f.drainLeft = 0 ∧ f.prefixBytes.length = kPrefixBytes ∧ f.rxLen = len ∧ f.rxOff = bs.length ∧
      bs.length + left = len ∧ 0 < left ∧ f.rxSeg.length = len ∧ f.rxSeg.take bs.length = bs ∧
      f.draws = n
  | .body n _ none left => f.drainLeft = left ∧ 0 < left ∧ f.draws = n
  | .closed _ => False

section

variable {src : Source} {maxFrame : Nat} {f : Framer} {p : List UInt8}

theorem Rep.isOpen {d : Decoder Nat} (h : f.Rep d) : d.isClosed = false := by
  cases d with
  | closed n => exact absurd h id
  | _ => rfl

/-- What a turn does to the decoder: it reads a part of the chunk that is not empty. -/
structure Turns (src : Source) (maxFrame : Nat) (d : Decoder Nat) (p : List UInt8) (t : Turned) :
    Prop where
  reads : ∃ used, used ≠ [] ∧ p = used ++ t.rest ∧
    ∃ d', (framed src maxFrame).decode d used = ⟨d', t.events, []⟩ ∧
      d'.isClosed = (t.flow == .malformed) ∧ (t.flow ≠ .malformed → t.framer.Rep d')
  await_rest : t.flow = .await → t.rest = []

variable {left : Nat}

theorem turns_drain (h : f.Rep (.body n len none left)) (hp : p ≠ []) :
    Turns src maxFrame (.body n len none left) p (f.drain p) := by
  obtain ⟨hleft, hpos, hdraws⟩ := h
  have hlen : 0 < p.length := length_pos_iff.mpr hp
  have hused : (p.take (min f.drainLeft p.length)).length = min left p.length := by
    rw [length_take, hleft]
    omega
  refine ⟨⟨p.take (min f.drainLeft p.length), ?_, (take_append_drop _ _).symm, ?_⟩, nofun⟩
  · intro hnil
    rw [hnil, length_nil] at hused
    omega
  by_cases hwhole : left ≤ p.length
  · have hdone := (framed src maxFrame).decode_body n len none
      (show (p.take (min f.drainLeft p.length)).length = left by omega) hpos
    refine ⟨.header n [], hdone, rfl, fun _ => ?_⟩
    have hgone : f.drainLeft - min f.drainLeft p.length = 0 := by omega
    exact ⟨hgone, if_pos hgone, by decide, hdraws⟩
  have hpart := (framed src maxFrame).decode_body_of_lt n len none
    (show (p.take (min f.drainLeft p.length)).length < left by omega)
  refine ⟨_, hpart, rfl, fun _ => ?_⟩
  have hrest : f.drainLeft - min f.drainLeft p.length = left - min left p.length := by rw [hleft]
  rw [hused]
  exact ⟨hrest, by omega, hdraws⟩

theorem turns_fill {bs : List UInt8} (h : f.Rep (.body n len (some bs) left))
    (hp : p ≠ []) : Turns src maxFrame (.body n len (some bs) left) p (f.fill p) := by
  obtain ⟨hdrain, h4, hrxLen, hoff, hsum, hpos, hseg, htake, hdraws⟩ := h
  have hlen : 0 < p.length := length_pos_iff.mpr hp
  have hwant : f.rxLen - f.rxOff = left := by omega
  obtain ⟨used, hused⟩ : ∃ used, used = p.take (min left p.length) := ⟨_, rfl⟩
  have hul : used.length = min left p.length := by
    rw [hused, length_take]
    omega
  have hfits : f.rxOff + used.length ≤ f.rxSeg.length := by omega
  have hcopied : (Window.splice f.rxSeg f.rxOff used).take (f.rxOff + used.length) = bs ++ used := by
    rw [Window.take_splice (by omega), hoff, htake]
  rw [fill, hwant, ← hused]
  refine ⟨⟨used, ?_, ?_, ?_⟩, fun hawait => ?_⟩
  · intro hnil
    rw [hnil, length_nil] at hul
    omega
  · rw [hused]
    split <;> exact (take_append_drop _ _).symm
  · by_cases hwhole : left ≤ p.length
    · have hdone := (framed src maxFrame).decode_body n len (some bs)
        (show used.length = left by omega) hpos
      have hall : Window.splice f.rxSeg f.rxOff used = bs ++ used := by
        rw [← hcopied, take_of_length_le]
        rw [Window.length_splice hfits]
        omega
      rw [if_pos (by omega), hall]
      exact ⟨.header n [], hdone, rfl, fun _ => ⟨hdrain, rfl, by decide, hdraws⟩⟩
    · have hpart := (framed src maxFrame).decode_body_of_lt n len (some bs)
        (show used.length < left by omega)
      rw [if_neg (by omega)]
      refine ⟨_, hpart, rfl, fun _ => ⟨hdrain, h4, hrxLen, ?_, ?_, ?_, ?_, ?_, hdraws⟩⟩
      · show f.rxOff + min left p.length = (bs ++ used).length
        rw [length_append]
        omega
      · rw [length_append]
        omega
      · omega
      · exact (Window.length_splice hfits).trans hseg
      · rw [length_append, ← hoff]
        exact hcopied
  · split at hawait <;> cases hawait

variable {got : List UInt8} {d : Decoder Nat}

theorem turns_judge {used rest : List UInt8} (hdrain : f.drainLeft = 0) (hlt : got.length < kPrefixBytes)
    (h4 : (got ++ used).length = kPrefixBytes) (hdraws : f.draws = n) (hne : used ≠ [])
    (hsplit : p = used ++ rest) : Turns src maxFrame (.header n got) p
      (judge src maxFrame { f with prefixBytes := got ++ used } rest) := by
  have L := framed_lawful src maxFrame
  have hread := L.decode_resume (f := n) (prefixVerdict_more.mpr hlt) used
  generalize got ++ used = whole at h4 hread ⊢
  obtain ⟨len, hlen⟩ : ∃ len, len = load whole := ⟨_, rfl⟩
  have htake : whole.take kPrefixBytes = whole := take_of_length_le (le_of_eq h4)
  subst hdraws
  rw [judge, onPrefix]
  dsimp only
  rw [← hlen]
  by_cases hempty : len = 0
  · have hbody : (framed src maxFrame).header f.draws whole = .body whole.length 0 :=
      prefixVerdict_body.mpr ⟨Nat.le_of_eq h4.symm, Nat.zero_le _, h4, by rw [htake, ← hlen, hempty]⟩
    rw [if_pos hempty]
    refine ⟨⟨used, hne, hsplit, _, hread.trans (L.decode_record_empty hbody), rfl, fun _ => ?_⟩,
      nofun⟩
    exact ⟨hdrain, rfl, by decide, rfl⟩
  rw [if_neg hempty]
  by_cases hmax : maxFrame < len
  · have hover := decode_over src f.draws h4 (by rw [← hlen]; exact hmax)
    rw [if_pos hmax]
    exact ⟨⟨used, hne, hsplit, _, hread.trans hover, rfl, fun hflow => absurd rfl hflow⟩, nofun⟩
  have hbody : (framed src maxFrame).header f.draws whole = .body whole.length len :=
    prefixVerdict_body.mpr ⟨le_of_eq h4.symm, Nat.le_of_not_lt hmax, h4, by rw [htake, hlen]⟩
  have hstart := L.decode_of_body hbody
  rw [take_length, start_pos _ hempty] at hstart
  have hsegment : (if src.maxSegment < len then PrefixDecision.drop else
      match src.draw f.draws len with
      | none => .drop
      | some seg => .accept seg) =
      match src.segment f.draws len with
      | none => .drop
      | some seg => .accept seg := by
    rw [Source.segment]
    split <;> rfl
  have hread' := hread.trans hstart
  rw [if_neg hmax, hsegment]
  cases hseg : src.segment f.draws len with
  | none =>
    refine ⟨⟨used, hne, hsplit, .body (f.draws + 1) len none len, ?_, rfl, fun _ => ?_⟩, nofun⟩
    · rw [hread']
      simp [framed, hseg]
    · exact ⟨rfl, Nat.pos_of_ne_zero hempty, rfl⟩
  | some seg =>
    refine ⟨⟨used, hne, hsplit, .body (f.draws + 1) len (some []) len, ?_, rfl, fun _ => ?_⟩, nofun⟩
    · rw [hread']
      simp [framed, hseg]
    · exact ⟨hdrain, h4, rfl, rfl, zero_add len, Nat.pos_of_ne_zero hempty,
        Source.length_segment hseg, rfl, rfl⟩

theorem turns_gather (h : f.Rep (.header n got)) (hp : p ≠ []) :
    Turns src maxFrame (.header n got) p (f.gather src maxFrame p) := by
  obtain ⟨hdrain, hgot, hlt, hdraws⟩ := h
  have hlen : 0 < p.length := length_pos_iff.mpr hp
  obtain ⟨used, hused⟩ : ∃ used, used = p.take (min (kPrefixBytes - got.length) p.length) := ⟨_, rfl⟩
  have hul : used.length = min (kPrefixBytes - got.length) p.length := by
    rw [hused, length_take]
    omega
  have hne : used ≠ [] := by
    intro hnil
    rw [hnil, length_nil] at hul
    omega
  have hgl : (got ++ used).length = got.length + used.length := length_append
  -- the bytes had so far, and then those of this chunk, are read as one piece
  have hread := (framed_lawful src maxFrame).decode_resume (f := n) (prefixVerdict_more.mpr hlt) used
  have hsplit : p = used ++ p.drop (min (kPrefixBytes - got.length) p.length) := by
    rw [hused, take_append_drop]
  rw [gather, hgot, ← hused]
  by_cases hshort : (got ++ used).length < kPrefixBytes
  · have hall : p.drop (min (kPrefixBytes - got.length) p.length) = [] :=
      drop_eq_nil_of_le (by omega)
    refine ⟨⟨used, hne, ?_, .header n (got ++ used), ?_, ?_, fun _ => ?_⟩, fun _ => ?_⟩
    all_goals rw [if_pos hshort]
    · exact hsplit
    · rw [hread]
      exact (framed_lawful src maxFrame).decode_of_more (prefixVerdict_more.mpr hshort)
    · rfl
    · exact ⟨hdrain, rfl, hshort, hdraws⟩
    · exact hall
  · rw [if_neg hshort]
    have h4 : (got ++ used).length = kPrefixBytes := by omega
    exact turns_judge hdrain hlt h4 hdraws hne hsplit

variable (src maxFrame) in
/-- **One turn**, wherever the framer stands. -/
theorem turns (h : f.Rep d) (hp : p ≠ []) : Turns src maxFrame d p (f.turn src maxFrame p) := by
  rw [turn]
  match d, h with
  | .header n got, h =>
    have hrep := h
    obtain ⟨hdrain, hgot, hlt, -⟩ := h
    rw [if_neg (by omega), if_pos (by rw [hgot]; exact hlt)]
    exact turns_gather hrep hp
  | .body n len (some bs) left, h =>
    have hrep := h
    obtain ⟨hdrain, h4, -⟩ := h
    rw [if_neg (by omega), if_neg (by omega)]
    exact turns_fill hrep hp
  | .body n len none left, h =>
    have hrep := h
    obtain ⟨hdrain, hpos, -⟩ := h
    rw [if_pos (by omega)]
    exact turns_drain hrep hp

/-- **A chunk, as the decoder reads it.** -/
theorem feedLoop_spec (h : f.Rep d) {fuel : Nat} (hfuel : p.length < fuel) :
    (feedLoop src maxFrame fuel f p).events = ((framed src maxFrame).decode d p).outs ∧
      (feedLoop src maxFrame fuel f p).rest = ((framed src maxFrame).decode d p).rest ∧
      (feedLoop src maxFrame fuel f p).malformed = ((framed src maxFrame).decode d p).state.isClosed ∧
      ((feedLoop src maxFrame fuel f p).malformed = false →
        (feedLoop src maxFrame fuel f p).framer.Rep ((framed src maxFrame).decode d p).state) := by
  induction fuel generalizing f d p with
  | zero => exact absurd hfuel (Nat.not_lt_zero _)
  | succ fuel ih =>
    rw [feedLoop]
    by_cases hp : p = []
    · rw [if_pos hp, hp, decode_nil]
      exact ⟨rfl, rfl, h.isOpen.symm, fun _ => h⟩
    obtain ⟨⟨used, hne, hsplit, d', hread, hflow, hrep⟩, hawait⟩ := turns src maxFrame h hp
    rw [if_neg hp]
    dsimp only
    generalize f.turn src maxFrame p = t at hsplit hread hflow hrep hawait ⊢
    have hdec := (framed src maxFrame).decode_append_of_eq (r := (d', t.events)) hread t.rest
    rw [← hsplit] at hdec
    have hlen := congrArg List.length hsplit
    rw [length_append] at hlen
    have hpos : 0 < used.length := length_pos_iff.mpr hne
    rw [hdec]
    cases hf : t.flow with
    | again =>
      rw [hf] at hflow hrep
      obtain ⟨hevents, hrest, hclosed, hnext⟩ := ih (hrep (by decide))
        (show t.rest.length < fuel by omega)
      exact ⟨congrArg (t.events ++ ·) hevents, hrest, hclosed, hnext⟩
    | await =>
      rw [hf] at hflow hrep
      rw [hawait hf, decode_nil]
      exact ⟨(append_nil _).symm, rfl, hflow.symm, fun _ => hrep (by decide)⟩
    | malformed =>
      rw [hf] at hflow
      rw [decode_of_closed _ hflow]
      exact ⟨(append_nil _).symm, rfl, hflow.symm, nofun⟩

variable (src maxFrame) in
theorem feed_spec (h : f.Rep d) (p : List UInt8) :
    (f.feed src maxFrame p).events = ((framed src maxFrame).decode d p).outs ∧
      (f.feed src maxFrame p).rest = ((framed src maxFrame).decode d p).rest ∧
      (f.feed src maxFrame p).malformed = ((framed src maxFrame).decode d p).state.isClosed ∧
      ((f.feed src maxFrame p).malformed = false →
        (f.feed src maxFrame p).framer.Rep ((framed src maxFrame).decode d p).state) :=
  feedLoop_spec h (Nat.lt_succ_self p.length)

variable (src maxFrame) in
/-- **A stream in chunks, as the decoder reads it in one piece.** -/
theorem feedAll_spec (h : f.Rep d) (chunks : List (List UInt8)) :
    feedAll src maxFrame f chunks = ⟨((framed src maxFrame).decode d chunks.flatten).outs,
        if ((framed src maxFrame).decode d chunks.flatten).state.isClosed then
          some (chunks.flatten.length - ((framed src maxFrame).decode d chunks.flatten).rest.length)
        else none⟩ := by
  induction chunks generalizing f d with
  | nil =>
    rw [flatten_nil, decode_nil, feedAll, h.isOpen]
    rfl
  | cons chunk chunks ih =>
    obtain ⟨hevents, hrest, hclosed, hnext⟩ := feed_spec src maxFrame h chunk
    rw [flatten_cons, decode_append, Decoded.andThen, length_append, feedAll]
    dsimp only
    rw [hevents, hclosed, hrest]
    cases hc : ((framed src maxFrame).decode d chunk).state.isClosed with
    | true =>
      rw [if_pos rfl, if_pos rfl, if_pos hc, length_append]
      congr 2
      omega
    | false =>
      have hle := (framed src maxFrame).length_rest_le
        ((framed src maxFrame).decode d chunk).state chunks.flatten
      rw [if_neg Bool.false_ne_true, if_neg Bool.false_ne_true, ih (hnext (hclosed.trans hc))]
      dsimp only
      congr 1
      split
      · rw [Option.map_some]
        congr 1
        omega
      · rfl

end

end Framer

/-! ## The records of a stream -/

def record (body : List UInt8) : List UInt8 := LittleEndian.store body.length kPrefixBytes ++ body

/-- What is reported of whole records, the first of which is the `n`-th frame to be drawn: an empty one is
skipped, one the store refuses is dropped. -/
def report (src : Source) : Nat → List (List UInt8) → List RxEvent
  | _, [] => []
  | n, body :: bodies =>
    if body = [] then report src n bodies
    else
      (if (src.segment n body.length).isSome then .frame body else .drop) :: report src (n + 1) bodies

def drawn (bodies : List (List UInt8)) : Nat := bodies.countP fun body => body ≠ []

/-- What is behind the whole records: a part of a prefix, a part of a body, or a length over the cap.  A
refused body is dropped when its prefix is read. -/
inductive Unfinished (src : Source) (maxFrame n : Nat) :
    List UInt8 → List RxEvent → Option Nat → Prop where
  | short {tail : List UInt8} (h : tail.length < kPrefixBytes) : Unfinished src maxFrame n tail [] none
  | body {len : Nat} {part : List UInt8} (hmax : len ≤ maxFrame) (h32 : len < 4294967296)
      (hpart : part.length < len) :
      Unfinished src maxFrame n (LittleEndian.store len kPrefixBytes ++ part)
        (if (src.segment n len).isNone then [.drop] else []) none
  | violation {len : Nat} (rest : List UInt8) (hmax : maxFrame < len) (h32 : len < 4294967296) :
      Unfinished src maxFrame n (LittleEndian.store len kPrefixBytes ++ rest) [] (some kPrefixBytes)

open Framing

section

variable {src : Source} {maxFrame n len : Nat}

theorem load_store_front (h32 : len < 4294967296) :
    load ((store len kPrefixBytes).take kPrefixBytes) = len := by
  rw [take_of_length_le (le_of_eq (length_store _ _))]
  exact load_store_of_lt h32

variable (src n) in
theorem header_store (h32 : len < 4294967296) (hmax : len ≤ maxFrame) :
    (framed src maxFrame).header n (store len kPrefixBytes) =
      .body (store len kPrefixBytes).length len := by
  refine prefixVerdict_body.mpr ⟨?_, hmax, ?_, (load_store_front h32).symm⟩
  all_goals rw [length_store]

variable {body : List UInt8} {violation : Option Nat}

variable (src n) in
/-- **A whole record is reported, and the decoder stands behind it.** -/
theorem decode_whole (hmax : body.length ≤ maxFrame) (h32 : body.length < 4294967296) :
    (framed src maxFrame).decode (.header n []) (record body) =
      ⟨.header (n + drawn [body]) [], report src n [body], []⟩ := by
  have L := framed_lawful src maxFrame
  have hhead := header_store src n h32 hmax
  cases hbody : body with
  | nil =>
    rw [hbody] at hhead
    have hdone := L.decode_record_empty hhead
    rw [record, append_nil]
    exact hdone
  | cons b bs =>
    rw [← hbody]
    have hne : body ≠ [] := by rw [hbody]; exact cons_ne_nil b bs
    have hpos : 0 < body.length := length_pos_iff.mpr hne
    have hdone := L.decode_record hhead rfl hpos
    have hdrawn : drawn [body] = 1 := by
      rw [drawn, countP_singleton, if_pos (by simpa using hne)]
    rw [record, hdone, hdrawn, report, if_neg hne, report]
    cases hseg : src.segment n body.length <;> simp [framed, finish, hseg]

variable (src n) in
theorem decode_part {part : List UInt8} (hmax : len ≤ maxFrame) (h32 : len < 4294967296)
    (hpart : part.length < len) :
    ((framed src maxFrame).decode (.header n []) (store len kPrefixBytes ++ part)).outs =
        (if (src.segment n len).isNone then [.drop] else []) ∧ ((framed src maxFrame).decode (.header n [])
        (store len kPrefixBytes ++ part)).state.isClosed = false := by
  have hne : len ≠ 0 := by omega
  have hhead := (framed_lawful src maxFrame).decode_of_body (header_store src n h32 hmax)
  rw [take_length, start_pos _ hne] at hhead
  rw [decode_append_of_open _ (r := (_, _)) hhead rfl, decode_body_of_lt _ _ _ _ hpart]
  exact ⟨append_nil _, rfl⟩

theorem decode_violation (hmax : maxFrame < len) (h32 : len < 4294967296) (rest : List UInt8) :
    (framed src maxFrame).decode (.header n []) (store len kPrefixBytes ++ rest) =
      ⟨.closed n, [], rest⟩ := by
  have h4 : (store len kPrefixBytes).length = kPrefixBytes := length_store _ _
  have hload : load (store len kPrefixBytes) = len :=
    load_store_of_lt h32
  have hover := decode_over src n h4 (show maxFrame < _ by rw [hload]; exact hmax)
  rw [decode_append, hover]
  rfl

/-- What a run over a stream amounts to: its whole records, and what is behind them. -/
structure Deframes (src : Source) (maxFrame n : Nat) (stream : List UInt8) (outs : List RxEvent)
    (violation : Option Nat) : Prop where
  splits : ∃ bodies tail events at?, stream = (bodies.map record).flatten ++ tail ∧
    (∀ body ∈ bodies, body.length ≤ maxFrame ∧ body.length < 4294967296) ∧
    Unfinished src maxFrame (n + drawn bodies) tail events at? ∧
    outs = report src n bodies ++ events ∧
    violation = at?.map ((bodies.map record).flatten.length + ·)

theorem Unfinished.reads {tail : List UInt8} {events : List RxEvent}
    (h : Unfinished src maxFrame n tail events violation) :
    Deframes src maxFrame n tail events violation := by
  refine ⟨[], tail, events, violation, rfl, forall_mem_nil _, h, rfl, ?_⟩
  cases violation <;> simp

theorem report_append (n : Nat) (bodies bodies' : List (List UInt8)) :
    report src n (bodies ++ bodies') = report src n bodies ++ report src (n + drawn bodies) bodies' := by
  induction bodies generalizing n with
  | nil => rfl
  | cons body bodies ih =>
    by_cases hb : body = []
    · simp [report, hb, ih, drawn]
    · simp [report, hb, ih, drawn, add_assoc, add_comm]

theorem Deframes.cons {stream : List UInt8} {outs : List RxEvent}
    (hmax : body.length ≤ maxFrame) (h32 : body.length < 4294967296)
    (h : Deframes src maxFrame (n + drawn [body]) stream outs violation) :
    Deframes src maxFrame n (record body ++ stream) (report src n [body] ++ outs)
      (violation.map ((record body).length + ·)) := by
  obtain ⟨bodies, tail, events, at?, rfl, hall, hun, rfl, rfl⟩ := h
  refine ⟨body :: bodies, tail, events, at?, ?_, forall_mem_cons.mpr ⟨⟨hmax, h32⟩, hall⟩, ?_, ?_, ?_⟩
  · rw [map_cons, flatten_cons, append_assoc]
  · have hdrawn : drawn (body :: bodies) = drawn [body] + drawn bodies := by
      rw [drawn, drawn, drawn, ← countP_append]
      rfl
    rw [hdrawn, ← add_assoc]
    exact hun
  · rw [← append_assoc, ← report_append]
    rfl
  · rw [Option.map_map, map_cons, flatten_cons, length_append]
    congr 1
    funext k
    exact (add_assoc _ _ _).symm

theorem exists_store_append {stream : List UInt8} (h : ¬ stream.length < kPrefixBytes) :
    ∃ len rest, stream = store len kPrefixBytes ++ rest ∧ len < 4294967296 := by
  have hstore := store_load (stream.take kPrefixBytes)
  rw [length_take_of_le (Nat.le_of_not_lt h)] at hstore
  exact ⟨load (stream.take kPrefixBytes), stream.drop kPrefixBytes,
    by rw [hstore, take_append_drop], load_prefix_lt stream⟩

/-- **The decoder reads the records of a stream.** -/
theorem reads_decode (src : Source) (maxFrame n : Nat) (stream : List UInt8) :
    Deframes src maxFrame n stream ((framed src maxFrame).decode (.header n []) stream).outs
      (if ((framed src maxFrame).decode (.header n []) stream).state.isClosed then
        some (stream.length - ((framed src maxFrame).decode (.header n []) stream).rest.length)
      else none) := by
  induction hk : stream.length using Nat.strongRecOn generalizing n stream with
  | ind k ih =>
    subst hk
    by_cases hshort : stream.length < kPrefixBytes
    · rw [(framed_lawful src maxFrame).decode_of_more (prefixVerdict_more.mpr hshort)]
      exact (Unfinished.short hshort).reads
    obtain ⟨len, rest, rfl, h32⟩ := exists_store_append hshort
    by_cases hmax : maxFrame < len
    · have hun : Unfinished src maxFrame n _ _ _ := .violation rest hmax h32
      rw [decode_violation hmax h32, length_append, length_store]
      show Deframes src maxFrame n _ [] (some (kPrefixBytes + rest.length - rest.length))
      rw [Nat.add_sub_cancel]
      exact hun.reads
    have hle := Nat.le_of_not_lt hmax
    by_cases hpart : rest.length < len
    · obtain ⟨houts, hopen⟩ := decode_part src n hle h32 hpart
      rw [houts, hopen]
      exact (Unfinished.body hle h32 hpart).reads
    obtain ⟨body, rest, rfl, rfl⟩ : ∃ body rest', rest = body ++ rest' ∧ body.length = len :=
      ⟨rest.take len, rest.drop len, (take_append_drop _ _).symm,
        length_take_of_le (Nat.le_of_not_lt hpart)⟩
    have hrecord : store body.length kPrefixBytes ++ (body ++ rest) = record body ++ rest :=
      (append_assoc _ _ _).symm
    have hshorter : rest.length < (record body ++ rest).length := by
      rw [record, length_append, length_append, length_store, show kPrefixBytes = 4 from rfl]
      omega
    rw [hrecord] at ih ⊢
    have hwhole := decode_whole src n hle h32
    have hnext := ih _ hshorter (n + drawn [body]) rest rfl
    have hdec := decode_append_of_open _ (r := (_, _)) hwhole rfl rest
    have hle' := (framed src maxFrame).length_rest_le (.header (n + drawn [body]) []) rest
    have hcons := hnext.cons hle h32
    rw [hdec, length_append]
    dsimp only
    refine cast ?_ hcons
    congr 1
    split
    · rw [Option.map_some]
      congr 1
      omega
    · rfl

end

/-- **Frames, drops and the verdict do not depend on how a stream is cut into chunks**, and each frame is
the body its prefix announced. -/
theorem feedAll_chunks (src : Source) (maxFrame : Nat) (f : Framer) (chunks : List (List UInt8)) :
    f.reset.feedAll src maxFrame chunks = f.reset.feedAll src maxFrame [chunks.flatten] ∧
      Deframes src maxFrame f.draws chunks.flatten (f.reset.feedAll src maxFrame chunks).events
        (f.reset.feedAll src maxFrame chunks).violation := by
  have hrep : f.reset.Rep (.header f.draws []) := ⟨rfl, rfl, by decide, rfl⟩
  rw [Framer.feedAll_spec src maxFrame hrep, Framer.feedAll_spec src maxFrame hrep, flatten_singleton]
  exact ⟨rfl, reads_decode src maxFrame f.draws chunks.flatten⟩

theorem of_replicate {cap : Nat}
    (h : (if len ≤ cap then some (List.replicate len (0 : UInt8)) else none) = some seg) :
    seg.length = len ∧ len ≤ cap := by
  split at h
  · cases h
    exact ⟨length_replicate, by assumption⟩
  · cases h

def refusesLong : Source where
  maxSegment := 8
  draw _ len := if len ≤ 2 then some (List.replicate len 0) else none
  length_draw h := (of_replicate h).1
  draw_le h := (of_replicate h).2.trans (by decide)

end LibTracer.Net
