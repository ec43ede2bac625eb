import LibTracer.Lib.Bitmap
import LibTracer.Lib.Framing

/-!
# Frame ingress

A stream link reads each frame straight into a segment of its length.  Between frames a read fills the
header slot and, behind it, a scratch; what follows a body in the same read goes into the header slot; a
body the store refused is read past.

* **`serve_spec`**, **`serveWith_spec`** — the link hands up what the decoder makes of the bytes read.
-/

namespace LibTracer.Net

open Framing List

/-- `frame_ingress_t`: the header bytes read and not judged, and the body while it fills. -/
structure Ingress where
  hdr : List UInt8 := []
  inBody : Bool := false
  blk : Option (List UInt8) := none
  bodyLen : Nat := 0
  bodyHave : Nat := 0
  deriving DecidableEq, Repr

namespace Ingress

/-- What a call leaves: `done` counts the bodies handed up, and is none where the stream closes. -/
structure Advanced (φ ω : Type) where
  ingress : Ingress
  ending : φ
  outs : List ω
  done : Option Nat

variable {φ ω : Type} (F : Framing φ ω)

/-! ## The calls -/

/-- `advance`: the body a header announces, with the bytes read past the header. -/
def starts (s : Ingress) (size len : Nat) (seg : Option (List UInt8)) : Ingress :=
  let rest := s.hdr.length - size
  let moved := min rest len
  { hdr := s.hdr.drop (size + moved)
    inBody := true
    blk := seg.map fun seg => Window.splice seg 0 (Window.window s.hdr size moved)
    bodyLen := len % 4294967296
    bodyHave := moved % 4294967296 }

/-- The loop of `advance`. -/
def advanceLoop : Nat → Ingress → φ → Advanced φ ω
  | 0, s, f => ⟨s, f, [], some 0⟩
  | fuel + 1, s, f =>
    if s.inBody then
      if s.bodyHave < s.bodyLen then ⟨s, f, [], some 0⟩
      else
        let r := F.body f s.blk s.bodyLen
        let s' := { s with inBody := false, blk := none }
        if r.2.2 then
          let t := advanceLoop fuel s' r.1
          ⟨t.ingress, t.ending, r.2.1 ++ t.outs, t.done.map (1 + ·)⟩
        else ⟨s', r.1, r.2.1, none⟩
    else
      match F.header f s.hdr with
      | .more => ⟨s, f, [], some 0⟩
      | .close => ⟨s, (F.close f s.hdr).1, (F.close f s.hdr).2, none⟩
      | .body size len =>
        let r := F.begins f s.hdr len
        let t := advanceLoop fuel (s.starts size len r.2.2) r.1
        ⟨t.ingress, t.ending, r.2.1 ++ t.outs, t.done⟩

/-- `advance`: a frame takes two turns, and a byte of the slot at least. -/
def advance (s : Ingress) (f : φ) : Advanced φ ω := advanceLoop F (2 * s.hdr.length + 2) s f

def Advanced.andThen (a : Advanced φ ω) (next : Ingress → φ → Advanced φ ω) : Advanced φ ω :=
  match a.done with
  | none => a
  | some n =>
    let t := next a.ingress a.ending
    ⟨t.ingress, t.ending, a.outs ++ t.outs, t.done.map (n + ·)⟩

variable (maxHeader readAhead : Nat)

/-- `feed`: as many bytes as the header slot or the body takes. -/
def takes (s : Ingress) (input : List UInt8) : Nat :=
  if s.inBody then min (s.bodyLen - s.bodyHave) input.length
  else min (maxHeader - s.hdr.length) input.length

def fillBody (s : Ingress) (bytes : List UInt8) : Ingress :=
  { s with blk := s.blk.map fun seg => Window.splice seg s.bodyHave bytes
           bodyHave := s.bodyHave + bytes.length }

def fillHeader (s : Ingress) (bytes : List UInt8) : Ingress := { s with hdr := s.hdr ++ bytes }

/-- The loop of `feed`. -/
def feedLoop : Nat → Ingress → φ → List UInt8 → Advanced φ ω
  | 0, s, f, _ => ⟨s, f, [], some 0⟩
  | fuel + 1, s, f, input =>
    if input = [] then ⟨s, f, [], some 0⟩
    else
      let bytes := input.take (s.takes maxHeader input)
      let s' := if s.inBody then s.fillBody bytes else s.fillHeader bytes
      (advance F s' f).andThen fun s'' f'' =>
        feedLoop fuel s'' f'' (input.drop (s.takes maxHeader input))

/-- `feed`: bytes that were read elsewhere. -/
def feed (s : Ingress) (f : φ) (input : List UInt8) : Advanced φ ω :=
  feedLoop F maxHeader input.length s f input

/-- `kScratchBytes`. -/
def scratchBytes : Nat := max readAhead 256

/-- `read`: the sizes of the two buffers offered to `recvmsg`. -/
def offers (s : Ingress) : Nat × Nat :=
  if s.inBody then
    let room := s.bodyLen - s.bodyHave
    let into := if s.blk.isSome then room else min room (scratchBytes readAhead)
    (into, if into = room then maxHeader - s.hdr.length else 0)
  else (maxHeader - s.hdr.length, readAhead)

/-- `read`: one `recvmsg` that got `bytes`, and whether the loop goes on. -/
def pass (s : Ingress) (f : φ) (bytes : List UInt8) : Advanced φ ω :=
  let first := bytes.take (s.offers maxHeader readAhead).1
  let second := bytes.drop (s.offers maxHeader readAhead).1
  if s.inBody then advance F ((s.fillBody first).fillHeader second) f
  else (advance F (s.fillHeader first) f).andThen fun s' f' => feed F maxHeader s' f' second

/-- What a read of the socket gives: as many bytes as there are, up to a number; none this time; or the
peer is gone.  Zero bytes are the end of the stream to `recvmsg`, and a timeout to a single-buffer read. -/
inductive Poll where
  | bytes (n : Nat)
  | wouldBlock
  | gone
  deriving DecidableEq, Repr

/-- A read that gets a byte if there is one. -/
def Poll.asks : Poll → Bool
  | .bytes n => decide (0 < n)
  | _ => false

/-- A read that ends the link with `left` unread; `eof` says whether zero bytes do. -/
def Poll.ends (eof : Bool) (left : List UInt8) : Poll → Prop
  | .bytes n => eof = true ∧ (n = 0 ∨ left = [])
  | .wouldBlock => False
  | .gone => True

/-- The last of the answers ended the link. -/
def Stopped (eof : Bool) (left : List UInt8) (spent : List Poll) : Prop :=
  ∃ before p, spent = before ++ [p] ∧ p.ends eof left

/-- A link at its socket: what it keeps, what it handed up, what the socket still holds and will answer;
`keep` is false once the stream must close. -/
structure Link (φ ω : Type) where
  ingress : Ingress
  ending : φ
  outs : List ω
  stream : List UInt8
  polls : List Poll
  keep : Bool

/-- `read`: `recvmsg` again only while a read filled everything it was offered and completed no frame. -/
def read (s : Ingress) (f : φ) (stream : List UInt8) : List Poll → Link φ ω
  | [] => ⟨s, f, [], stream, [], true⟩
  | .wouldBlock :: polls => ⟨s, f, [], stream, polls, true⟩
  | .gone :: polls => ⟨s, f, [], stream, polls, false⟩
  | .bytes n :: polls =>
    let offer := (s.offers maxHeader readAhead).1 + (s.offers maxHeader readAhead).2
    let bytes := stream.take (min n offer)
    if bytes = [] then ⟨s, f, [], stream, polls, false⟩
    else
      let a := pass F maxHeader readAhead s f bytes
      let rest := stream.drop (min n offer)
      if a.done = none then ⟨a.ingress, a.ending, a.outs, rest, polls, false⟩
      else if bytes.length = offer ∧ a.done = some 0 then
        let t := read a.ingress a.ending rest polls
        ⟨t.ingress, t.ending, a.outs ++ t.outs, t.stream, t.polls, t.keep⟩
      else ⟨a.ingress, a.ending, a.outs, rest, polls, true⟩

def serveLoop : Nat → Ingress → φ → List UInt8 → List Poll → Link φ ω
  | 0, s, f, stream, polls => ⟨s, f, [], stream, polls, true⟩
  | fuel + 1, s, f, stream, polls =>
    let r := read F maxHeader readAhead s f stream polls
    if r.keep ∧ r.polls ≠ [] then
      let t := serveLoop fuel r.ingress r.ending r.stream r.polls
      ⟨t.ingress, t.ending, r.outs ++ t.outs, t.stream, t.polls, t.keep⟩
    else r

def serve (s : Ingress) (f : φ) (stream : List UInt8) (polls : List Poll) : Link φ ω :=
  serveLoop F maxHeader readAhead polls.length s f stream polls

/-- `read_with`: the size of the one buffer offered. -/
def offersOne (s : Ingress) : Nat :=
  if s.inBody then
    if s.blk.isSome then s.bodyLen - s.bodyHave else min (s.bodyLen - s.bodyHave) maxHeader
  else maxHeader - s.hdr.length

/-- `read_with`, on the bytes its read gave. -/
def readWith (s : Ingress) (f : φ) (bytes : List UInt8) : Advanced φ ω :=
  if s.inBody then advance F (s.fillBody bytes) f else advance F (s.fillHeader bytes) f

def serveWith (s : Ingress) (f : φ) (stream : List UInt8) : List Poll → Link φ ω
  | [] => ⟨s, f, [], stream, [], true⟩
  | .gone :: polls => ⟨s, f, [], stream, polls, false⟩
  | .wouldBlock :: polls => serveWith s f stream polls
  | .bytes n :: polls =>
    let bytes := stream.take (min n (s.offersOne maxHeader))
    if bytes = [] then serveWith s f stream polls
    else
      let a := readWith F s f bytes
      let rest := stream.drop (min n (s.offersOne maxHeader))
      if a.done = none then ⟨a.ingress, a.ending, a.outs, rest, polls, false⟩
      else
        let t := serveWith a.ingress a.ending rest polls
        ⟨t.ingress, t.ending, a.outs ++ t.outs, t.stream, t.polls, t.keep⟩

def opened (f : φ) (pipelined stream : List UInt8) (polls : List Poll)
    (serves : Ingress → φ → List UInt8 → List Poll → Link φ ω) : Link φ ω :=
  let a := feed F maxHeader {} f pipelined
  if a.done = none then ⟨a.ingress, a.ending, a.outs, stream, polls, false⟩
  else
    let t := serves a.ingress a.ending stream polls
    ⟨t.ingress, t.ending, a.outs ++ t.outs, t.stream, t.polls, t.keep⟩

/-! ## Where the link stands -/

def Rep (s : Ingress) (f : φ) : Decoder φ → Prop
  | .header g got => f = g ∧ s.inBody = false ∧ s.hdr = got ∧ F.header f got = .more
  | .body g len block left =>
    f = g ∧ s.inBody = true ∧ s.hdr = [] ∧ s.bodyLen = len ∧ s.bodyHave + left = len ∧ 0 < left ∧
      s.blk.map (·.take s.bodyHave) = block ∧ ∀ seg, s.blk = some seg → seg.length = len
  | .closed g => f = g

variable {s : Ingress} {f : φ} {d : Decoder φ}

theorem Rep.ending_eq {F : Framing φ ω} (h : Rep F s f d) : f = d.ending := by
  cases d with
  | header g got | body g len block left => exact h.1
  | closed g => exact h

structure Agrees (a : Advanced φ ω) (r : Decoded φ ω) : Prop where
  outs : a.outs = r.outs
  closed : a.done.isNone = r.state.isClosed
  stands : Rep F a.ingress a.ending r.state

variable {F} {maxHeader readAhead} {a : Advanced φ ω} {r : Decoded φ ω}

theorem Agrees.behind {r' : Decoded φ ω} (h : Agrees F a r) (outs : List ω)
    (hr : r' = ⟨r.state, outs ++ r.outs, r.rest⟩) :
    Agrees F ⟨a.ingress, a.ending, outs ++ a.outs, a.done⟩ r' := by
  subst hr
  exact ⟨congrArg (outs ++ ·) h.outs, h.closed, h.stands⟩

theorem agrees_whole {fuel : Nat}
    (hnext : ∀ (s : Ingress) (f : φ), s.inBody = false → 2 * s.hdr.length + 1 ≤ fuel →
      Agrees F (advanceLoop F fuel s f) (F.decode (.header f []) s.hdr))
    (hbody : s.inBody = true) (hwhole : s.bodyHave = s.bodyLen) (hfuel : 2 * s.hdr.length + 1 ≤ fuel) :
    Agrees F (advanceLoop F (fuel + 1) s f) ⟨(F.decode (F.finish f s.blk s.bodyLen).1 s.hdr).state,
        (F.finish f s.blk s.bodyLen).2 ++ (F.decode (F.finish f s.blk s.bodyLen).1 s.hdr).outs,
        (F.decode (F.finish f s.blk s.bodyLen).1 s.hdr).rest⟩ := by
  rw [advanceLoop, if_pos hbody, if_neg (by omega)]
  dsimp only
  cases hkeep : (F.body f s.blk s.bodyLen).2.2 with
  | true =>
    have hfin : F.finish f s.blk s.bodyLen =
        (.header (F.body f s.blk s.bodyLen).1 [], (F.body f s.blk s.bodyLen).2.1) := by
      rw [finish, hkeep, if_pos rfl]
    have h := hnext { s with inBody := false, blk := none } (F.body f s.blk s.bodyLen).1 rfl hfuel
    rw [if_pos rfl, hfin]
    refine ⟨congrArg (_ ++ ·) h.outs, ?_, h.stands⟩
    rw [Option.isNone_map]
    exact h.closed
  | false =>
    have hfin : F.finish f s.blk s.bodyLen =
        (.closed (F.body f s.blk s.bodyLen).1, (F.body f s.blk s.bodyLen).2.1) := by
      rw [finish, hkeep, if_neg Bool.false_ne_true]
    rw [if_neg Bool.false_ne_true, hfin, decode_of_closed F rfl]
    exact ⟨(append_nil _).symm, rfl, rfl⟩

section

variable {s : Ingress} {size len : Nat} {seg : Option (List UInt8)}

theorem starts_part (h32 : len < 4294967296) (h : (s.hdr.drop size).length < len) : s.starts size len seg =
      { hdr := [], inBody := true
        blk := seg.map fun seg => Window.splice seg 0 (s.hdr.drop size)
        bodyLen := len, bodyHave := (s.hdr.drop size).length } := by
  rw [length_drop] at h
  have hmoved : min (s.hdr.length - size) len = s.hdr.length - size := by omega
  have hwindow : Window.window s.hdr size (s.hdr.length - size) = s.hdr.drop size := by
    rw [Window.window, take_of_length_le (by rw [length_drop])]
  have hdrop : s.hdr.drop (size + (s.hdr.length - size)) = [] := drop_eq_nil_of_le (by omega)
  rw [starts, hmoved, hwindow, hdrop, length_drop, Nat.mod_eq_of_lt h32,
    Nat.mod_eq_of_lt (Nat.lt_trans h h32)]

theorem starts_whole (h32 : len < 4294967296) (h : len ≤ (s.hdr.drop size).length)
    (hseg : ∀ b, seg = some b → b.length = len) : s.starts size len seg =
      { hdr := (s.hdr.drop size).drop len, inBody := true
        blk := seg.map fun _ => (s.hdr.drop size).take len
        bodyLen := len, bodyHave := len } := by
  have hmoved : min (s.hdr.length - size) len = len := by
    rw [length_drop] at h
    omega
  have hblk : (seg.map fun seg => Window.splice seg 0 (Window.window s.hdr size len)) =
      seg.map fun _ => (s.hdr.drop size).take len := by
    cases seg with
    | none => rfl
    | some b =>
      have hwl : ((s.hdr.drop size).take len).length = len := by
        rw [length_take, Nat.min_eq_left h]
      rw [Option.map_some, Option.map_some, Window.window, Window.splice_all (by rw [hwl, hseg b rfl])]
  rw [starts, hmoved, hblk, drop_drop, Nat.mod_eq_of_lt h32]

end

/-- **The header slot is judged as the decoder judges its bytes.** -/
theorem advanceLoop_spec (L : F.Lawful maxHeader) (fuel : Nat) (s : Ingress) (f : φ)
    (hhead : s.inBody = false) (hfuel : 2 * s.hdr.length + 1 ≤ fuel) :
    Agrees F (advanceLoop F fuel s f) (F.decode (.header f []) s.hdr) := by
  induction fuel using Nat.strongRecOn generalizing s f with
  | ind fuel ih =>
    obtain ⟨fuel, rfl⟩ : ∃ k, fuel = k + 1 := ⟨fuel - 1, by omega⟩
    rw [advanceLoop, if_neg (by rw [hhead]; exact nofun)]
    cases hv : F.header f s.hdr with
    | more =>
      rw [L.decode_of_more hv]
      exact ⟨rfl, rfl, rfl, hhead, rfl, hv⟩
    | close =>
      obtain ⟨hstate, houts⟩ := L.decode_of_close hv
      refine ⟨houts.symm, ?_, ?_⟩
      · rw [hstate]
        rfl
      · rw [hstate]
        exact rfl
    | body size len =>
      have hpos := L.size_pos hv
      have hle := L.size_le hv
      have h32 := L.len_lt hv
      have hdec := F.decode_append_of_eq (r := F.start f s.hdr len) (L.decode_of_body hv)
        (s.hdr.drop size)
      rw [take_append_drop] at hdec
      have hrest : (s.hdr.drop size).length = s.hdr.length - size := length_drop
      dsimp only
      rw [hdec]
      by_cases hpart : (s.hdr.drop size).length < len
      · obtain ⟨fuel, rfl⟩ : ∃ k, fuel = k + 1 := ⟨fuel - 1, by omega⟩
        have hne : len ≠ 0 := by omega
        have hbegin : F.begins f s.hdr len = F.draw (F.enter f s.hdr) len := if_neg hne
        rw [starts_part h32 hpart, start_pos F hne, decode_body_of_lt F _ _ _ hpart, hbegin,
          advanceLoop, if_pos rfl, if_pos hpart]
        refine ⟨rfl, rfl, rfl, rfl, rfl, rfl, ?_, ?_, ?_, ?_⟩
        · show (s.hdr.drop size).length + (len - (s.hdr.drop size).length) = len
          omega
        · omega
        · cases hseg : (F.draw (F.enter f s.hdr) len).2.2 with
          | none => rfl
          | some seg =>
            have hcopied : (Window.splice seg 0 (s.hdr.drop size)).take
                (0 + (s.hdr.drop size).length) = seg.take 0 ++ s.hdr.drop size :=
              Window.take_splice (Nat.zero_le _)
            rw [Nat.zero_add, take_zero] at hcopied
            exact congrArg some hcopied
        · intro seg hseg
          obtain ⟨fresh, hfresh, rfl⟩ := Option.map_eq_some_iff.mp hseg
          have hlen := L.draw_length hfresh
          rw [Window.length_splice (by omega), hlen]
      · obtain ⟨fuel, rfl⟩ : ∃ k, fuel = k + 1 := ⟨fuel - 1, by omega⟩
        have hfit : len ≤ (s.hdr.drop size).length := Nat.le_of_not_lt hpart
        have hseg : ∀ b, (F.begins f s.hdr len).2.2 = some b → b.length = len := by
          intro b hb
          rw [begins] at hb
          split at hb
          · cases hb
          · exact L.draw_length hb
        rw [starts_whole h32 hfit hseg]
        have hspec := agrees_whole (fun s' f' h1 h2 => ih fuel (by omega) s' f' h1 h2)
          (s := { hdr := (s.hdr.drop size).drop len, inBody := true
                  blk := (F.begins f s.hdr len).2.2.map fun _ => (s.hdr.drop size).take len
                  bodyLen := len, bodyHave := len }) (f := (F.begins f s.hdr len).1) rfl rfl
          (show 2 * ((s.hdr.drop size).drop len).length + 1 ≤ fuel by
            rw [length_drop]
            omega)
        obtain ⟨hstate, houts, hleft⟩ := F.decode_start f s.hdr hfit rfl
        refine hspec.behind (F.begins f s.hdr len).2.1 ?_
        rw [hstate, houts, hleft]

/-! ## Bytes arrive -/

section

variable (L : F.Lawful maxHeader) {s : Ingress} {f : φ}

include L

variable {g : φ}

theorem header_spec {got : List UInt8} (h : Rep F s f (.header g got)) (bytes : List UInt8) :
    Agrees F (advance F (s.fillHeader bytes) f) (F.decode (.header g got) bytes) := by
  obtain ⟨rfl, hhead, hgot, hmore⟩ := h
  subst hgot
  rw [L.decode_resume hmore]
  exact advanceLoop_spec L _ (s.fillHeader bytes) f hhead (Nat.le_succ _)

theorem body_spec {len left : Nat} {block : Option (List UInt8)}
    (h : Rep F s f (.body g len block left)) (first second : List UInt8) (hfirst : first.length ≤ left)
    (hsecond : second = [] ∨ first.length = left) :
    Agrees F (advance F ((s.fillBody first).fillHeader second) f)
      (F.decode (.body g len block left) (first ++ second)) := by
  obtain ⟨rfl, hbody, hhdr, hlen, hsum, hpos, hblk, hseg⟩ := h
  -- what the segment holds up to the new end of the body
  have hcopied : ((s.fillBody first).blk.map (·.take (s.bodyHave + first.length))) =
      block.map (· ++ first) := by
    rw [← hblk, fillBody, Option.map_map, Option.map_map]
    cases hb : s.blk with
    | none => rfl
    | some seg =>
      have hle := hseg seg hb
      exact congrArg some (Window.take_splice (by omega))
  have hsegs : ∀ seg, (s.fillBody first).blk = some seg → seg.length = len := by
    intro seg hs
    obtain ⟨old, hold, rfl⟩ := Option.map_eq_some_iff.mp hs
    have hle := hseg old hold
    rw [Window.length_splice (by omega), hle]
  by_cases hwhole : first.length = left
  · have hblock : (s.fillBody first).blk = block.map (· ++ first) := by
      rw [← hcopied]
      cases hb : (s.fillBody first).blk with
      | none => rfl
      | some seg =>
        rw [Option.map_some, take_of_length_le]
        rw [hsegs seg hb]
        omega
    have hdec := F.decode_append_of_eq (r := F.finish f (block.map (· ++ first)) len)
      (F.decode_body f len block hwhole hpos) second
    have hspec := agrees_whole (fun s' f' h1 h2 => advanceLoop_spec L _ s' f' h1 h2)
      (s := (s.fillBody first).fillHeader second) (f := f) hbody
      (show s.bodyHave + first.length = s.bodyLen by omega) le_rfl
    have hslot : ((s.fillBody first).fillHeader second).hdr = second := by
      show s.hdr ++ second = second
      rw [hhdr, nil_append]
    have hlen' : ((s.fillBody first).fillHeader second).bodyLen = len := hlen
    have hblk' : ((s.fillBody first).fillHeader second).blk = block.map (· ++ first) := hblock
    rw [hdec]
    rw [hslot, hlen', hblk'] at hspec
    rw [advance, hslot]
    exact hspec
  · obtain rfl := hsecond.resolve_right hwhole
    have hlt : first.length < left := by omega
    have hin : ((s.fillBody first).fillHeader []).inBody = true := hbody
    have hpart : ((s.fillBody first).fillHeader []).bodyHave <
        ((s.fillBody first).fillHeader []).bodyLen :=
      show s.bodyHave + first.length < s.bodyLen by omega
    rw [append_nil, F.decode_body_of_lt f len block hlt, advance, advanceLoop, if_pos hin, if_pos hpart]
    refine ⟨rfl, rfl, rfl, hbody, ?_, hlen, ?_, by omega, hcopied, hsegs⟩
    · show s.hdr ++ [] = []
      rw [hhdr]
      rfl
    · show s.bodyHave + first.length + (left - first.length) = len
      omega

end

theorem Agrees.isOpen {n : Nat} (h : Agrees F a r) (hdone : a.done = some n) :
    r.state.isClosed = false := by
  rw [← h.closed, hdone]
  rfl

theorem Agrees.andThen {xs : List UInt8}
    (h : Agrees F a (F.decode d xs)) (ys : List UInt8) (next : Ingress → φ → Advanced φ ω)
    (hnext : ∀ s f, (F.decode d xs).state.isClosed = false → Rep F s f (F.decode d xs).state →
      Agrees F (next s f) (F.decode (F.decode d xs).state ys)) :
    Agrees F (a.andThen next) (F.decode d (xs ++ ys)) := by
  rw [decode_append, Decoded.andThen, Advanced.andThen]
  cases hdone : a.done with
  | none =>
    have hclosed := h.closed
    rw [hdone, Option.isNone_none] at hclosed
    rw [if_pos hclosed.symm]
    exact ⟨h.outs, by rw [hdone]; exact hclosed, h.stands⟩
  | some n =>
    have hopen := h.isOpen hdone
    have hthen := hnext a.ingress a.ending hopen h.stands
    rw [if_neg (Bool.eq_false_iff.mp hopen)]
    refine ⟨?_, ?_, hthen.stands⟩
    · rw [h.outs]
      exact congrArg (_ ++ ·) hthen.outs
    · rw [Option.isNone_map]
      exact hthen.closed

variable {bytes : List UInt8}

section

variable (L : F.Lawful maxHeader) {s : Ingress} {f : φ} {d : Decoder φ}

include L

section

variable (h : Rep F s f d) (hopen : d.isClosed = false)
include h hopen

theorem takes_pos {input : List UInt8} (hne : input ≠ []) :
    0 < s.takes maxHeader input ∧ s.takes maxHeader input ≤ input.length := by
  have hlen : 0 < input.length := length_pos_iff.mpr hne
  rw [takes]
  cases d with
  | closed g => cases hopen
  | header g got =>
    obtain ⟨-, hhead, rfl, hmore⟩ := h
    have hlt := L.more_lt hmore
    rw [hhead, if_neg nofun]
    omega
  | body g len block left =>
    obtain ⟨-, hbody, -, hlen', hsum, hpos, -⟩ := h
    rw [hbody, if_pos rfl]
    omega

theorem fill_spec (hfits : s.inBody = true → bytes.length ≤ s.bodyLen - s.bodyHave) :
    Agrees F (advance F (if s.inBody then s.fillBody bytes else s.fillHeader bytes) f)
      (F.decode d bytes) := by
  cases d with
  | closed g => cases hopen
  | header g got =>
    rw [h.2.1, if_neg nofun]
    exact header_spec L h bytes
  | body g len block left =>
    obtain ⟨-, hbody, hhdr, hlen', hsum, hpos, -⟩ := id h
    have hle := hfits hbody
    have hspec := body_spec L h bytes [] (by omega) (.inl rfl)
    rw [append_nil, fillHeader, append_nil] at hspec
    rw [hbody, if_pos rfl]
    exact hspec

theorem takes_spec (input : List UInt8) : Agrees F
      (advance F (if s.inBody then s.fillBody (input.take (s.takes maxHeader input))
        else s.fillHeader (input.take (s.takes maxHeader input))) f)
      (F.decode d (input.take (s.takes maxHeader input))) := by
  refine fill_spec L h hopen fun hbody => ?_
  rw [length_take, takes, if_pos hbody]
  omega

/-- **Bytes read elsewhere.** -/
theorem feed_spec (input : List UInt8) : Agrees F (feed F maxHeader s f input) (F.decode d input) := by
  have hloop : ∀ fuel (s : Ingress) (f : φ) (d : Decoder φ) (input : List UInt8), Rep F s f d →
      d.isClosed = false → input.length ≤ fuel →
        Agrees F (feedLoop F maxHeader fuel s f input) (F.decode d input) := by
    intro fuel
    induction fuel with
    | zero =>
      intro s f d input h hopen hfuel
      obtain rfl := length_eq_zero_iff.mp (Nat.le_zero.mp hfuel)
      exact ⟨rfl, hopen.symm, h⟩
    | succ fuel ih =>
      intro s f d input h hopen hfuel
      rw [feedLoop]
      by_cases hne : input = []
      · rw [if_pos hne, hne]
        exact ⟨rfl, hopen.symm, h⟩
      obtain ⟨hpos, hle⟩ := takes_pos L h hopen hne
      rw [if_neg hne]
      have hspec := takes_spec L h hopen input
      have hdrop : (input.drop (s.takes maxHeader input)).length ≤ fuel := by
        rw [length_drop]
        omega
      have hthen := hspec.andThen (input.drop (s.takes maxHeader input))
        (fun s' f' => feedLoop F maxHeader fuel s' f' (input.drop (s.takes maxHeader input)))
        fun s' f' hopen' hrep => ih s' f' _ _ hrep hopen' hdrop
      rw [take_append_drop] at hthen
      exact hthen
  exact hloop input.length s f d input h hopen le_rfl

/-- **One `recvmsg`**, with no more bytes than it was offered. -/
theorem pass_spec
    (hoffer : bytes.length ≤ (s.offers maxHeader readAhead).1 + (s.offers maxHeader readAhead).2) :
    Agrees F (pass F maxHeader readAhead s f bytes) (F.decode d bytes) := by
  have hsplit := take_append_drop (s.offers maxHeader readAhead).1 bytes
  rw [pass]
  cases d with
  | closed g => cases hopen
  | header g got =>
    have hspec := (header_spec L h (bytes.take (s.offers maxHeader readAhead).1)).andThen
      (bytes.drop (s.offers maxHeader readAhead).1)
      (fun s' f' => feed F maxHeader s' f' (bytes.drop (s.offers maxHeader readAhead).1))
      fun s' f' hopen' hrep => feed_spec L hrep hopen' _
    rw [hsplit] at hspec
    rw [if_neg (by rw [h.2.1]; exact nofun)]
    exact hspec
  | body g len block left =>
    obtain ⟨-, hbody, hhdr, hlen', hsum, hpos, -⟩ := id h
    have hroom : s.bodyLen - s.bodyHave = left := by omega
    have hinto : (s.offers maxHeader readAhead).1 ≤ left ∧
        ((s.offers maxHeader readAhead).1 = left ∨ (s.offers maxHeader readAhead).2 = 0) := by
      rw [offers, hbody, if_pos rfl, hroom]
      dsimp only
      generalize hi : (if s.blk.isSome = true then left else min left (scratchBytes readAhead)) = into
      refine ⟨?_, ?_⟩
      · split at hi <;> omega
      · by_cases hfull : into = left
        · exact .inl hfull
        · exact .inr (if_neg hfull)
    have hsecond : bytes.drop (s.offers maxHeader readAhead).1 = [] ∨
        (bytes.take (s.offers maxHeader readAhead).1).length = left := by
      by_cases hmore : (s.offers maxHeader readAhead).1 < bytes.length
      · refine .inr ?_
        rw [length_take]
        omega
      · exact .inl (drop_eq_nil_of_le (Nat.le_of_not_lt hmore))
    have hspec := body_spec L h (bytes.take (s.offers maxHeader readAhead).1)
      (bytes.drop (s.offers maxHeader readAhead).1)
      (Nat.le_trans (length_take_le _ _) hinto.1) hsecond
    rw [hsplit] at hspec
    rw [if_pos hbody]
    exact hspec

/-- **One read of a single-buffer link.** -/
theorem readWith_spec (hoffer : bytes.length ≤ s.offersOne maxHeader) :
    Agrees F (readWith F s f bytes) (F.decode d bytes) := by
  have hspec := fill_spec L h hopen fun hbody => by
    rw [offersOne, if_pos hbody] at hoffer
    split at hoffer <;> omega
  rw [apply_ite (advance F · f)] at hspec
  exact hspec

end

end

/-! ## Whole streams -/

/-- What a link has made of a stream and of the answers `spent`: it handed up what the decoder makes of the
bytes it read, each answer that asked brought one of them while there were any, and the link stops where the
decoder closes the stream or the last answer ended it. -/
structure Served (F : Framing φ ω) (eof : Bool) (d : Decoder φ) (stream : List UInt8)
    (polls : List Poll) (l : Link φ ω) (spent : List Poll) (used : List UInt8) : Prop where
  splits : stream = used ++ l.stream
  polls : polls = spent ++ l.polls
  outs : l.outs = (F.decode d used).outs
  stands : Rep F l.ingress l.ending (F.decode d used).state
  closes : (F.decode d used).state.isClosed = true → l.keep = false
  keeps : l.keep = false → (F.decode d used).state.isClosed = true ∨ Stopped eof l.stream spent
  reads : spent.countP Poll.asks ≤ used.length ∨ l.stream = []

/-- The link served the stream, and goes on only where the socket has no more to say. -/
def Serves (F : Framing φ ω) (eof : Bool) (d : Decoder φ) (stream : List UInt8) (polls : List Poll)
    (l : Link φ ω) : Prop :=
  (∃ spent used, Served F eof d stream polls l spent used) ∧ (l.keep = true → l.polls = [])

variable {eof : Bool} {stream : List UInt8} {polls spent : List Poll}

theorem Served.still {rest : List Poll}
    {keep : Bool} (h : Rep F s f d) (hopen : d.isClosed = false) (spent : List Poll)
    (hkeep : keep = false → Stopped eof stream spent)
    (hasks : spent.countP Poll.asks ≤ 0 ∨ stream = []) :
    Served F eof d stream (spent ++ rest) ⟨s, f, [], stream, rest, keep⟩ spent [] :=
  ⟨rfl, rfl, rfl, h, fun hc => absurd (hopen.symm.trans hc) nofun, fun hk => .inr (hkeep hk), hasks⟩

theorem Served.andThen {used used' : List UInt8} {spent' : List Poll}
    {l l' : Link φ ω} (h : Served F eof d stream polls l spent used) (hkeep : l.keep = true)
    (h' : Served F eof (F.decode d used).state l.stream l.polls l' spent' used') :
    Served F eof d stream polls
      ⟨l'.ingress, l'.ending, l.outs ++ l'.outs, l'.stream, l'.polls, l'.keep⟩ (spent ++ spent')
      (used ++ used') := by
  have hopen : (F.decode d used).state.isClosed = false := by
    cases hc : (F.decode d used).state.isClosed with
    | false => rfl
    | true => cases hkeep.symm.trans (h.closes hc)
  have hdec : F.decode d (used ++ used') =
      ⟨(F.decode (F.decode d used).state used').state,
        (F.decode d used).outs ++ (F.decode (F.decode d used).state used').outs,
        (F.decode (F.decode d used).state used').rest⟩ := by
    rw [decode_append, Decoded.andThen, if_neg (Bool.eq_false_iff.mp hopen)]
  refine ⟨?_, ?_, ?_, ?_, ?_, ?_, ?_⟩
  · rw [h.splits, h'.splits, append_assoc]
  · rw [h.polls, h'.polls, append_assoc]
  · rw [hdec, h.outs, h'.outs]
  · rw [hdec]
    exact h'.stands
  · rw [hdec]
    exact h'.closes
  · rw [hdec]
    intro hk
    refine (h'.keeps hk).imp_right fun hlast => ?_
    obtain ⟨before, p, rfl, hends⟩ := hlast
    exact ⟨spent ++ before, p, (append_assoc _ _ _).symm, hends⟩
  · rw [countP_append, length_append]
    rcases h'.reads with hreads' | hnil
    · refine h.reads.imp (fun hreads => Nat.add_le_add hreads hreads') fun hnil => ?_
      exact (append_eq_nil_iff.mp (h'.splits.symm.trans hnil)).2
    · exact .inr hnil

theorem served_bytes (eof : Bool) {rest : List UInt8} (polls' : List Poll) (hsplit : stream = bytes ++ rest)
    (h : Agrees F a (F.decode d bytes)) (spent : List Poll)
    (hreads : spent.countP Poll.asks ≤ bytes.length) :
    Served F eof d stream (spent ++ polls')
      ⟨a.ingress, a.ending, a.outs, rest, polls', a.done.isSome⟩ spent bytes := by
  refine ⟨hsplit, rfl, h.outs, h.stands, fun hc => ?_, fun hk => .inl ?_, .inl hreads⟩
  · rw [← h.closed] at hc
    exact Option.isSome_eq_false_iff.mpr hc
  · rw [← h.closed]
    exact Option.isSome_eq_false_iff.mp hk

section

variable (L : F.Lawful maxHeader) {s : Ingress} {f : φ} {d : Decoder φ}

include L

/-- A read is always offered room. -/
theorem offers_pos (readAhead : Nat) (h : Rep F s f d) (hopen : d.isClosed = false) :
    0 < (s.offers maxHeader readAhead).1 ∧ 0 < s.offersOne maxHeader := by
  have hslot := L.more_lt (L.more_nil (f := f))
  rw [offers, offersOne]
  cases d with
  | closed g => cases hopen
  | header g got =>
    obtain ⟨-, hhead, rfl, hmore⟩ := h
    have hlt := L.more_lt hmore
    rw [hhead, if_neg nofun, if_neg nofun]
    exact ⟨Nat.sub_pos_of_lt hlt, Nat.sub_pos_of_lt hlt⟩
  | body g len block left =>
    obtain ⟨-, hbody, -, hlen, hsum, hpos, -⟩ := h
    have hscratch : 0 < scratchBytes readAhead := Nat.lt_of_lt_of_le (by decide) (le_max_right _ _)
    rw [length_nil] at hslot
    rw [hbody, if_pos rfl, if_pos rfl]
    dsimp only
    split <;> omega

variable (readAhead) in
/-- **One call of `read`**, whatever the socket answers. -/
theorem read_spec (h : Rep F s f d) (hopen : d.isClosed = false) (stream : List UInt8)
    (polls : List Poll) : (∃ spent used, Served F true d stream polls
        (read F maxHeader readAhead s f stream polls) spent used) ∧
      (polls ≠ [] → (read F maxHeader readAhead s f stream polls).polls.length < polls.length) := by
  induction polls generalizing s f d stream with
  | nil => exact ⟨⟨[], [], .still h hopen [] nofun (.inl le_rfl)⟩, fun hne => absurd rfl hne⟩
  | cons poll polls ih =>
    cases poll with
    | wouldBlock =>
      exact ⟨⟨_, [], .still h hopen [.wouldBlock] nofun (.inl le_rfl)⟩, fun _ => Nat.lt_succ_self _⟩
    | gone =>
      exact ⟨⟨_, [], .still h hopen [.gone] (fun _ => ⟨[], .gone, rfl, trivial⟩) (.inl le_rfl)⟩,
        fun _ => Nat.lt_succ_self _⟩
    | bytes n =>
      have hoffer := (offers_pos L readAhead h hopen).1
      have hpass := pass_spec L h hopen (Nat.le_trans (length_take_le _ stream)
        (Nat.min_le_right n ((s.offers maxHeader readAhead).1 + (s.offers maxHeader readAhead).2)))
      rw [read]
      dsimp only
      split
      next hnone =>
        have hzero : n = 0 ∨ stream = [] := (take_eq_nil_iff.mp hnone).imp_left (by omega)
        refine ⟨⟨_, [], .still h hopen [.bytes n] (fun _ => ⟨[], .bytes n, rfl, rfl, hzero⟩) ?_⟩,
          fun _ => Nat.lt_succ_self _⟩
        exact hzero.imp_left fun hn => by simp [Poll.asks, hn]
      next hsome =>
      have hone := served_bytes true polls (take_append_drop _ _).symm hpass
        [.bytes n] (Nat.le_trans countP_le_length (length_pos_iff.mpr hsome))
      generalize pass F maxHeader readAhead s f _ = a at hpass hone ⊢
      cases hdone : a.done with
      | none =>
        rw [hdone] at hone
        exact ⟨⟨_, _, hone⟩, fun _ => Nat.lt_succ_self _⟩
      | some k =>
        rw [hdone] at hone
        rw [if_neg (by simp)]
        split
        · obtain ⟨⟨spent, used, hthen⟩, hlen⟩ := ih hpass.stands (hpass.isOpen hdone) (stream.drop _)
          refine ⟨⟨_, _, hone.andThen rfl hthen⟩, fun _ => ?_⟩
          by_cases hp : polls = []
          · subst hp
            exact Nat.zero_lt_succ _
          · exact Nat.lt_succ_of_lt (hlen hp)
        · exact ⟨⟨_, _, hone⟩, fun _ => Nat.lt_succ_self _⟩

variable (readAhead) in
/-- **Whatever sizes the reads return**, the link hands up what the decoder makes of the bytes it read; it
reads on until the stream closes or the socket has nothing more to say. -/
theorem serve_spec (h : Rep F s f d) (hopen : d.isClosed = false) (stream : List UInt8)
    (polls : List Poll) : Serves F true d stream polls (serve F maxHeader readAhead s f stream polls) := by
  have hloop : ∀ fuel (s : Ingress) (f : φ) (d : Decoder φ) (stream : List UInt8) (polls : List Poll),
      Rep F s f d → d.isClosed = false → polls.length ≤ fuel →
        Serves F true d stream polls (serveLoop F maxHeader readAhead fuel s f stream polls) := by
    intro fuel
    induction fuel with
    | zero =>
      intro s f d stream polls h hopen hfuel
      obtain rfl := length_eq_zero_iff.mp (Nat.le_zero.mp hfuel)
      exact ⟨⟨[], [], .still h hopen [] nofun (.inl le_rfl)⟩, fun _ => rfl⟩
    | succ fuel ih =>
      intro s f d stream polls h hopen hfuel
      obtain ⟨⟨spent, used, hread⟩, hlen⟩ := read_spec readAhead L h hopen stream polls
      rw [serveLoop]
      dsimp only
      by_cases hmore : (read F maxHeader readAhead s f stream polls).keep = true ∧
          (read F maxHeader readAhead s f stream polls).polls ≠ []
      · have hne : polls ≠ [] := by
          intro hnil
          exact hmore.2 (append_eq_nil_iff.mp (hread.polls.symm.trans hnil)).2
        have hopen' : (F.decode d used).state.isClosed = false := by
          cases hc : (F.decode d used).state.isClosed with
          | false => rfl
          | true => cases hmore.1.symm.trans (hread.closes hc)
        have hless := hlen hne
        obtain ⟨⟨spent', used', hthen⟩, hend⟩ := ih _ _ _
          (read F maxHeader readAhead s f stream polls).stream
          (read F maxHeader readAhead s f stream polls).polls hread.stands hopen' (by omega)
        rw [if_pos hmore]
        exact ⟨⟨_, _, hread.andThen hmore.1 hthen⟩, hend⟩
      · rw [if_neg hmore]
        refine ⟨⟨_, _, hread⟩, fun hkeep => ?_⟩
        by_contra hne
        exact hmore ⟨hkeep, hne⟩
  exact hloop polls.length s f d stream polls h hopen le_rfl

/-- **The same for a link of single-buffer reads.** -/
theorem serveWith_spec (h : Rep F s f d) (hopen : d.isClosed = false) (stream : List UInt8)
    (polls : List Poll) : Serves F false d stream polls (serveWith F maxHeader s f stream polls) := by
  induction polls generalizing s f d stream with
  | nil => exact ⟨⟨[], [], .still h hopen [] nofun (.inl le_rfl)⟩, fun _ => rfl⟩
  | cons poll polls ih =>
    -- a read that brings nothing changes nothing
    have hidle : ([poll].countP Poll.asks ≤ 0 ∨ stream = []) →
        Serves F false d stream (poll :: polls) (serveWith F maxHeader s f stream polls) := by
      intro hasks
      obtain ⟨⟨spent, used, hu⟩, hend⟩ := ih h hopen stream
      have hstill : Served F false d stream (poll :: polls) ⟨s, f, [], stream, polls, true⟩ [poll] [] :=
        .still h hopen [poll] nofun hasks
      exact ⟨⟨_, _, hstill.andThen rfl hu⟩, hend⟩
    cases poll with
    | wouldBlock => exact hidle (.inl le_rfl)
    | gone =>
      exact ⟨⟨_, [], .still h hopen [.gone] (fun _ => ⟨[], .gone, rfl, trivial⟩) (.inl le_rfl)⟩, nofun⟩
    | bytes n =>
      have hoffer := (offers_pos L 0 h hopen).2
      have hread := readWith_spec L h hopen
        (Nat.le_trans (length_take_le _ stream) (Nat.min_le_right n _))
      rw [serveWith]
      dsimp only
      split
      next hnone =>
        refine hidle ((take_eq_nil_iff.mp hnone).imp_left fun hmin => ?_)
        have hzero : n = 0 := by omega
        simp [Poll.asks, hzero]
      next hsome =>
      have hone := served_bytes false polls (take_append_drop _ _).symm hread
        [.bytes n] (Nat.le_trans countP_le_length (length_pos_iff.mpr hsome))
      generalize readWith F s f _ = a at hread hone ⊢
      cases hdone : a.done with
      | none =>
        rw [hdone] at hone
        exact ⟨⟨_, _, hone⟩, nofun⟩
      | some k =>
        rw [hdone] at hone
        rw [if_neg (by simp)]
        obtain ⟨⟨spent, used, hthen⟩, hend⟩ := ih hread.stands (hread.isOpen hdone) (stream.drop _)
        exact ⟨⟨_, _, hone.andThen rfl hthen⟩, hend⟩

/-- **The bytes past the handshake are the start of the stream.** -/
theorem opened_spec (f : φ) (pipelined stream : List UInt8) (polls : List Poll)
    (serves : Ingress → φ → List UInt8 → List Poll → Link φ ω)
    (hserves : ∀ {s f d}, Rep F s f d → d.isClosed = false →
      Serves F eof d stream polls (serves s f stream polls)) :
    (∃ spent used, Served F eof (.header f []) (pipelined ++ stream) polls
        (opened F maxHeader f pipelined stream polls serves) spent used ∧
        (spent.countP Poll.asks + (opened F maxHeader f pipelined stream polls serves).stream.length ≤
          stream.length ∨ (opened F maxHeader f pipelined stream polls serves).stream = [])) ∧
      ((opened F maxHeader f pipelined stream polls serves).keep = true →
        (opened F maxHeader f pipelined stream polls serves).polls = []) := by
  have hfeed := feed_spec L (s := {}) (d := .header f []) ⟨rfl, rfl, rfl, L.more_nil⟩ rfl pipelined
  have hone := served_bytes eof polls (Eq.refl (pipelined ++ stream)) hfeed []
    (Nat.zero_le _)
  rw [opened]
  generalize feed F maxHeader {} f pipelined = a at hfeed hone ⊢
  cases hdone : a.done with
  | none =>
    rw [hdone] at hone
    exact ⟨⟨_, _, hone, .inl (Nat.zero_add _).le⟩, nofun⟩
  | some k =>
    rw [hdone] at hone
    have hopen : (F.decode (.header f []) pipelined).state.isClosed = false := by
      rw [← hfeed.closed, hdone]
      rfl
    obtain ⟨⟨spent, used, hthen⟩, hend⟩ := hserves hfeed.stands hopen
    refine ⟨⟨_, _, hone.andThen rfl hthen, hthen.reads.imp_left fun hreads => ?_⟩, hend⟩
    have hlen := congrArg length hthen.splits
    rw [length_append] at hlen
    show ([] ++ spent).countP Poll.asks + (serves a.ingress a.ending stream polls).stream.length ≤ _
    rw [nil_append]
    omega

end

end Ingress

end LibTracer.Net
