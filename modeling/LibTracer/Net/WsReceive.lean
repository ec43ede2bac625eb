import LibTracer.Net.LengthPrefix
import LibTracer.Net.WsFrame

/-!
# The receiving end of a WebSocket

Each whole payload is unmasked where it lies and answered by its opcode.  An unfragmented message goes up
at once; the pieces of a fragmented one are chained until its last.  A refused store sheds the message; a chain
that costs more than the cap fails the connection.

* `keeps_sound` — the charge is the cost of the chain and never more than the cap, whatever bytes arrive.
-/

namespace LibTracer.Net.Ws

open Framing

/-! ## The assembler -/

/-- `ws_assembler_t`: the pieces of the open message, and what they cost. -/
structure Assembler where
  chain : List (List UInt8) := []
  charged : Nat := 0
  deriving DecidableEq, Repr

/-- `ws_assembler_t::result_t`. -/
inductive PieceStatus where
  | pending
  | complete (message : List (List UInt8))
  | oversize
  | refused
  deriving DecidableEq, Repr

def costOf (fragmentCost : Nat) (pieces : List (List UInt8)) : Nat :=
  (pieces.map (·.length + fragmentCost)).sum

namespace Assembler

variable (fragmentCost cap : Nat) (push reserve : Bool)

/-- `on_piece`, on a message that is open: `push` and `reserve` are what the stores answer. -/
def chainOn (a : Assembler) (fin : Bool) (piece : List UInt8) : Assembler × PieceStatus :=
  if cap - a.charged < piece.length + fragmentCost then ({}, .oversize)
  else if !push then ({}, .refused)
  else if !fin then (⟨a.chain ++ [piece], a.charged + (piece.length + fragmentCost)⟩, .pending)
  else if reserve then ({}, .complete (a.chain ++ [piece]))
  else ({}, .refused)

/-- `on_piece`: a BINARY starts a message and drops the stale one, a stray CONT is dropped. -/
def onPiece (a : Assembler) (op : Opcode) (fin : Bool) (piece : List UInt8) : Assembler × PieceStatus :=
  if op = .binary then chainOn fragmentCost cap push reserve {} fin piece
  else if a.chain = [] then (a, .pending)
  else chainOn fragmentCost cap push reserve a fin piece

def Sound (a : Assembler) : Prop := a.charged = costOf fragmentCost a.chain ∧ a.charged ≤ cap

theorem sound_empty : Sound fragmentCost cap {} := ⟨rfl, Nat.zero_le _⟩

variable {fragmentCost cap push reserve} {a : Assembler}

theorem sound_chainOn (h : a.Sound fragmentCost cap) (fin : Bool) (piece : List UInt8) :
    (chainOn fragmentCost cap push reserve a fin piece).1.Sound fragmentCost cap := by
  obtain ⟨hcost, hcap⟩ := h
  rw [chainOn]
  split
  · exact sound_empty fragmentCost cap
  split
  · exact sound_empty fragmentCost cap
  split
  · refine ⟨?_, by dsimp only; omega⟩
    simp [costOf, hcost]
  · split
    all_goals exact sound_empty fragmentCost cap

variable (push reserve) in
theorem sound_onPiece (h : a.Sound fragmentCost cap) (op : Opcode) (fin : Bool) (piece : List UInt8) :
    (onPiece fragmentCost cap push reserve a op fin piece).1.Sound fragmentCost cap := by
  rw [onPiece]
  split
  · exact sound_chainOn (sound_empty fragmentCost cap) fin piece
  split
  · exact h
  · exact sound_chainOn h fin piece

end Assembler

/-! ## The rules -/

def kDefaultMaxFrame : Nat := 16777216

/-- `configured_cap`: a setting may only narrow. -/
def configuredCap (maxFrame : Nat) : Nat :=
  if maxFrame = 0 then kDefaultMaxFrame
  else if maxFrame < kDefaultMaxFrame then maxFrame else kDefaultMaxFrame

def effectiveCap (maxSegment maxFrame : Nat) : Nat :=
  if maxFrame < maxSegment then maxFrame else maxSegment

/-- What a link is built with, and what its stores answer: to the `n`-th body, to the `n`-th piece that is
chained and to the chain of its message; and where the `n`-th body lies. -/
structure Setup where
  rx : Source
  maxFrame : Nat
  fragmentCost : Nat
  push : Nat → Bool
  reserve : Nat → Bool
  addr : Nat → Nat

def Setup.cap (l : Setup) : Nat := effectiveCap l.rx.maxSegment (configuredCap l.maxFrame)

def Setup.Generous (l : Setup) : Prop :=
  (∀ n len, len ≤ l.rx.maxSegment → (l.rx.draw n len).isSome = true) ∧
    ∀ n, l.push n = true ∧ l.reserve n = true

/-- `ws_rx_frame_t`. -/
structure RxFrame where
  op : Opcode := .cont
  fin : Bool := false
  masked : Bool := false
  maskKey : List UInt8 := []
  deriving DecidableEq, Repr

/-- The receiving end of one connection; `draws` and `pieces` are accounts of what its stores were asked. -/
structure End where
  frame : RxFrame := {}
  assembler : Assembler := {}
  malformedRx : Nat := 0
  droppedRx : Nat := 0
  draws : Nat := 0
  pieces : Nat := 0
  deriving DecidableEq, Repr

inductive Out where
  | handUp (message : List (List UInt8))
  | pong (bytes : List UInt8)
  | closing (bytes : List UInt8)
  deriving DecidableEq, Repr

section

variable (l : Setup)

def data (e : End) (piece : List UInt8) : End × List Out × Bool :=
  if e.frame.op = .binary ∧ e.frame.fin = true then
    ({ e with assembler := {} }, [.handUp [piece]], true)
  else
    let r := Assembler.onPiece l.fragmentCost l.cap (l.push e.pieces) (l.reserve e.pieces) e.assembler
      e.frame.op e.frame.fin piece
    let e' := { e with assembler := r.1, pieces := e.pieces + 1 }
    match r.2 with
    | .oversize => ({ e' with malformedRx := e.malformedRx + 1 }, [], false)
    | .refused => ({ e' with droppedRx := e.droppedRx + 1 }, [], true)
    | .complete message => (e', [.handUp message], true)
    | .pending => (e', [], true)

/-- `body`: the payload, unmasked, or none where its store was refused. -/
def settle (e : End) : Option (List UInt8) → End × List Out × Bool
  | none =>
    ({ e with droppedRx := e.droppedRx + 1
              assembler := if e.frame.op.isControl then e.assembler else {} }, [],
      e.frame.op != .close)
  | some bytes =>
    match e.frame.op with
    | .binary => data l e bytes
    | .cont => data l e bytes
    | .ping => (e, [.pong bytes], true)
    | .close => (e, [.closing bytes], false)
    | .text => (e, [], true)
    | .pong => (e, [], true)

def unmasked (e : End) (bytes : List UInt8) : List UInt8 :=
  if e.frame.masked then maskCopy (l.addr e.draws) e.frame.maskKey 0 bytes else bytes

def body (e : End) (block : Option (List UInt8)) (len : Nat) : End × List Out × Bool :=
  if len ≠ 0 ∧ block = none then settle l e none
  else settle l e (some (unmasked l e (block.getD [])))

/-- `header`, its verdict. -/
def verdict (h : List UInt8) : Verdict :=
  match decodeHeader l.cap h with
  | .needMore => .more
  | .protocolError => .close
  | .ok hd => .body hd.size hd.len

/-- `header`, what it leaves. -/
def entered (e : End) (h : List UInt8) : End :=
  match decodeHeader l.cap h with
  | .ok hd => { e with frame := ⟨hd.op, hd.fin, hd.masked, hd.maskKey⟩ }
  | _ => e

def wsFraming : Framing End Out where
  header _ h := verdict l h
  close e _ := ({ e with malformedRx := e.malformedRx + 1 }, [])
  enter e h := entered l e h
  draw e len := ({ e with draws := e.draws + 1 }, [], l.rx.draw e.draws len)
  body e block len := body l e block len

end

variable {l : Setup}

theorem configuredCap_le (maxFrame : Nat) : configuredCap maxFrame ≤ kDefaultMaxFrame := by
  rw [configuredCap]
  split
  · exact le_rfl
  · split <;> omega

theorem cap_le (l : Setup) : l.cap ≤ l.rx.maxSegment ∧ l.cap < 4294967296 := by
  have := configuredCap_le l.maxFrame
  have hmax : kDefaultMaxFrame = 16777216 := rfl
  rw [Setup.cap, effectiveCap]
  split <;> omega

variable {h : List UInt8}

theorem verdict_body {size len : Nat} (hv : verdict l h = .body size len) :
    ∃ hd, decodeHeader l.cap h = .ok hd ∧ hd.size = size ∧ hd.len = len := by
  rw [verdict] at hv
  cases hd : decodeHeader l.cap h with
  | ok hd' =>
    rw [hd] at hv
    cases hv
    exact ⟨hd', rfl, rfl, rfl⟩
  | needMore | protocolError =>
    rw [hd] at hv
    cases hv

theorem verdict_close (hv : verdict l h = .close) : decodeHeader l.cap h = .protocolError := by
  rw [verdict] at hv
  cases hd : decodeHeader l.cap h with
  | ok hd' | needMore =>
    rw [hd] at hv
    cases hv
  | protocolError => rfl

theorem verdict_more (hv : verdict l h = .more) : decodeHeader l.cap h = .needMore := by
  rw [verdict] at hv
  cases hd : decodeHeader l.cap h with
  | ok hd' | protocolError =>
    rw [hd] at hv
    cases hv
  | needMore => rfl

theorem verdict_of_ok {hd : Header} (hh : decodeHeader l.cap h = .ok hd) :
    verdict l h = .body hd.size hd.len := by rw [verdict, hh]

theorem verdict_of_protocolError (hh : decodeHeader l.cap h = .protocolError) :
    verdict l h = .close := by rw [verdict, hh]

/-- **The header rules can be applied to what has come of a header.** -/
theorem wsFraming_lawful (l : Setup) : (wsFraming l).Lawful kMaxClientFrameHeader where
  more_nil := rfl
  more_lt h := needMore_length (verdict_more h)
  size_pos h := by
    obtain ⟨hd, hh, rfl, -⟩ := verdict_body h
    have := (decodeHeader_ok hh).1
    omega
  size_le h := by
    obtain ⟨hd, hh, rfl, -⟩ := verdict_body h
    exact (decodeHeader_ok hh).2.1
  body_stable h t := by
    obtain ⟨hd, hh, rfl, rfl⟩ := verdict_body h
    exact verdict_of_ok ((decodeHeader_ok hh).2.2.2 t)
  enter_take {e h size len} hb := by
    obtain ⟨hd, hh, rfl, -⟩ := verdict_body hb
    have htake := (decodeHeader_ok hh).2.2.2 []
    rw [List.append_nil] at htake
    show entered l e h = entered l e (h.take hd.size)
    rw [entered, entered, hh, htake]
  close_stable h t := verdict_of_protocolError (decodeHeader_protocolError (verdict_close h) t)
  close_eq _ _ := rfl
  len_lt h := by
    obtain ⟨hd, hh, -, rfl⟩ := verdict_body h
    exact Nat.lt_of_le_of_lt (decodeHeader_ok hh).2.2.1 (cap_le l).2
  draw_length h := l.rx.length_draw h

/-! ## The charge -/

def End.Sound (l : Setup) (e : End) : Prop := e.assembler.Sound l.fragmentCost l.cap

variable {e : End}

theorem sound_data (h : e.Sound l) (piece : List UInt8) : (data l e piece).1.Sound l := by
  have hpiece := Assembler.sound_onPiece (l.push e.pieces) (l.reserve e.pieces) h e.frame.op
    e.frame.fin piece
  rw [data]
  split
  · exact Assembler.sound_empty _ _
  · dsimp only
    split <;> exact hpiece

theorem sound_settle (h : e.Sound l) (got : Option (List UInt8)) : (settle l e got).1.Sound l := by
  cases got with
  | none =>
    show Assembler.Sound _ _ (if e.frame.op.isControl then e.assembler else {})
    split
    · exact h
    · exact Assembler.sound_empty _ _
  | some bytes =>
    rw [settle]
    cases e.frame.op with
    | binary | cont => exact sound_data h bytes
    | ping | close | text | pong => exact h

theorem keeps_sound (l : Setup) : (wsFraming l).Keeps (End.Sound l) where
  close h _ := h
  enter {e} h hdr := by
    show (entered l e hdr).Sound l
    rw [entered]
    split
    · exact h
    · exact h
  draw h _ := h
  body {e} h block len := by
    show (body l e block len).1.Sound l
    rw [body]
    split
    · exact sound_settle h none
    · exact sound_settle h _

/-! ## Whole frames -/

def Frame.rx (f : Frame) : RxFrame := ⟨f.op, f.fin, f.key.isSome, f.keyBytes⟩

variable {f : Frame}

theorem unmasked_sent (h : e.frame = f.rx) : unmasked l e f.sent = f.payload := by
  rw [unmasked, h, Frame.rx, Frame.sent]
  cases f.key.isSome with
  | true =>
    rw [if_pos rfl, if_pos rfl, maskCopy_eq]
    exact maskBytes_maskBytes _ _ _
  | false => rfl

/-- The frame's payload as the end got it: all of it, or nothing where a store refused. -/
def Got (l : Setup) (f : Frame) (got : Option (List UInt8)) : Prop :=
  got = some f.payload ∨ got = none ∧ ¬ l.Generous

/-- **A whole frame**: its payload is drawn and answered by its opcode. -/
theorem decode_frame (h : breaks l.cap f.op f.fin f.payload.length = false) (e : End) :
    ∃ e' got, e'.frame = f.rx ∧ e'.assembler = e.assembler ∧ Got l f got ∧
      (wsFraming l).decode (.header e []) f.wire =
        ⟨if (settle l e' got).2.2 then .header (settle l e' got).1 [] else .closed (settle l e' got).1,
          (settle l e' got).2.1, []⟩ := by
  have L := wsFraming_lawful l
  have hh := f.decodeHeader_header h
  have hv : (wsFraming l).header e f.header = .body f.header.length f.payload.length := verdict_of_ok hh
  have henter : (wsFraming l).enter e f.header = { e with frame := f.rx } := by
    show entered l e f.header = _
    rw [entered, hh]
    rfl
  by_cases hlen : f.payload.length = 0
  · have hnil : f.payload = [] := List.length_eq_zero_iff.mp hlen
    have hsent : f.sent = [] := List.length_eq_zero_iff.mp (by rw [f.length_sent, hlen])
    refine ⟨{ e with frame := f.rx }, some f.payload, rfl, rfl, .inl rfl, ?_⟩
    have hbody : (wsFraming l).body { e with frame := f.rx } none 0 =
        settle l { e with frame := f.rx } (some f.payload) := by
      show body l _ none 0 = _
      rw [body, if_neg (by simp), Option.getD_none, ← hsent, unmasked_sent rfl]
    rw [hlen] at hv
    rw [Frame.wire, hsent, List.append_nil, L.decode_record_empty hv, henter, finish, hbody]
  · have hpos : 0 < f.payload.length := Nat.pos_of_ne_zero hlen
    obtain ⟨e', he'⟩ : ∃ e', e' = { e with frame := f.rx, draws := e.draws + 1 } := ⟨_, rfl⟩
    have hframe : e'.frame = f.rx := by rw [he']
    have hdraw : (wsFraming l).draw { e with frame := f.rx } f.payload.length =
        (e', [], l.rx.draw e.draws f.payload.length) := by rw [he']; rfl
    have hrecord := L.decode_record hv f.length_sent hpos
    rw [henter, hdraw] at hrecord
    refine ⟨e', (l.rx.draw e.draws f.payload.length).map fun _ => f.payload, hframe, by rw [he'], ?_, ?_⟩
    · cases hd : l.rx.draw e.draws f.payload.length with
      | some seg => exact .inl rfl
      | none =>
        refine .inr ⟨rfl, fun hg => ?_⟩
        have hle : f.payload.length ≤ l.rx.maxSegment := by
          have := (decodeHeader_ok hh).2.2.1
          exact Nat.le_trans this (cap_le l).1
        have := hg.1 e.draws _ hle
        rw [hd] at this
        cases this
    · have hbody : (wsFraming l).body e' ((l.rx.draw e.draws f.payload.length).map fun _ => f.sent)
            f.payload.length =
          settle l e' ((l.rx.draw e.draws f.payload.length).map fun _ => f.payload) := by
        show body l _ _ _ = _
        rw [body]
        cases l.rx.draw e.draws f.payload.length with
        | none => exact if_pos ⟨hlen, rfl⟩
        | some seg =>
          rw [if_neg (by simp), Option.map_some, Option.getD_some, unmasked_sent hframe]
          rfl
      rw [Frame.wire, hrecord, finish, hbody]
      rfl

/-- **What breaks a header rule closes the connection** before anything is drawn or handed up. -/
theorem decode_refused (hh : decodeHeader l.cap h = .protocolError) (e : End) (more : List UInt8) :
    ((wsFraming l).decode (.header e []) (h ++ more)).state =
        .closed { e with malformedRx := e.malformedRx + 1 } ∧
      ((wsFraming l).decode (.header e []) (h ++ more)).outs = [] := by
  have hv : (wsFraming l).header e (h ++ more) = .close :=
    verdict_of_protocolError (decodeHeader_protocolError hh more)
  exact (wsFraming_lawful l).decode_of_close hv

end LibTracer.Net.Ws
