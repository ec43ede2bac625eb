import LibTracer.Net.FrameIngress
import LibTracer.Net.WsCodec
import LibTracer.Net.WsReceive

/-!
# Messages over a WebSocket

What a link hands up of a stream of messages: each BINARY message as the payloads of its own fragments, in
the order sent, up to the first frame that closes the connection.

* **`receives_messages`** — the links, whatever sizes their reads return;
* **`client_reaches_server`** — and with a client at the other end.
-/

namespace LibTracer.Net.Ws

open Framing List

/-! ## What a peer sends -/

/-- A piece of a message, with the way it is put on the wire. -/
structure Part where
  payload : List UInt8
  rsv : Fin 8 := 0
  key : Option MaskKey := none
  form : LengthForm := .short
  holds : payload.length < form.limit

def Part.frame (p : Part) (op : Opcode) (fin : Bool) : Frame :=
  { op := op, fin := fin, rsv := p.rsv, key := p.key, form := p.form, payload := p.payload,
    holds := p.holds }

inductive ControlOp where
  | ping
  | pong
  | close
  deriving DecidableEq, Repr

def ControlOp.opcode : ControlOp → Opcode
  | .ping => .ping
  | .pong => .pong
  | .close => .close

structure Control where
  op : ControlOp
  part : Part
  small : part.payload.length ≤ kMaxControlPayload

def Control.frame (c : Control) : Frame := c.part.frame c.op.opcode true

/-- A message: its first piece, and each later one behind the control frames sent before it. -/
structure Message where
  text : Bool
  first : Part
  rest : List (List Control × Part)

def contFrames : List (List Control × Part) → List Frame
  | [] => []
  | (controls, p) :: rest => controls.map Control.frame ++ p.frame .cont rest.isEmpty :: contFrames rest

def restLinks (rest : List (List Control × Part)) : List (List UInt8) := rest.map (·.2.payload)

namespace Message

variable (m : Message)

def frames : List Frame :=
  m.first.frame (if m.text then .text else .binary) m.rest.isEmpty :: contFrames m.rest

def links : List (List UInt8) := m.first.payload :: restLinks m.rest

def payload : List UInt8 := m.links.flatten

/-- What it costs to receive is within the cap: only a fragmented BINARY message is charged. -/
def fits (l : Setup) : Bool :=
  m.text || m.rest.isEmpty || decide (costOf l.fragmentCost m.links ≤ l.cap)

end Message

inductive Item where
  | control (c : Control)
  | message (m : Message)

def stops (l : Setup) (f : Frame) : Bool :=
  breaks l.cap f.op f.fin f.payload.length || f.op == .close

namespace Item

variable (l : Setup)

def frames : Item → List Frame
  | .control c => [c.frame]
  | .message m => m.frames

def ends (i : Item) : Bool := i.frames.any (stops l)

def fits : Item → Bool
  | .control _ => true
  | .message m => m.fits l

def passes (i : Item) : Bool := !i.ends l && i.fits l

def payload? : Item → Option (List UInt8)
  | .control _ => none
  | .message m => if m.text then none else some m.payload

end Item

def wires (fs : List Frame) : List UInt8 := fs.flatMap Frame.wire

def carried (l : Setup) (items : List Item) : List (List UInt8) :=
  (items.takeWhile (Item.passes l)).filterMap Item.payload?

/-- What may be handed up of a stream when stores refuse: a message that costs too much may have been shed
before it did. -/
def carriedAtMost (l : Setup) (items : List Item) : List (List UInt8) :=
  ((items.takeWhile fun i => !i.ends l).filter (Item.fits l)).filterMap Item.payload?

/-! ## Frames -/

def Out.message? : Out → Option (List (List UInt8))
  | .handUp message => some message
  | _ => none

def ran (l : Setup) (e : End) (fs : List Frame) : Decoder End × List (List (List UInt8)) :=
  (((wsFraming l).decode (.header e []) (wires fs)).state,
    ((wsFraming l).decode (.header e []) (wires fs)).outs.filterMap Out.message?)

def Shuts (r : Decoder End × List (List (List UInt8))) : Prop := r.1.isClosed = true ∧ r.2 = []

/-- The connection goes on between frames, with `a` assembled and `up` handed up. -/
def Stays (a : Assembler) (up : List (List (List UInt8))) (r : Decoder End × List (List (List UInt8))) :
    Prop := ∃ e, r = (.header e [], up) ∧ e.assembler = a

section

variable {l : Setup} {e : End} {f : Frame} {fs gs : List Frame}

theorem wires_append (fs gs : List Frame) : wires (fs ++ gs) = wires fs ++ wires gs :=
  flatMap_append

theorem Shuts.then (h : Shuts (ran l e fs)) (gs : List Frame) : Shuts (ran l e (fs ++ gs)) := by
  have hclosed : ((wsFraming l).decode (.header e []) (wires fs)).state.isClosed = true := h.1
  rw [Shuts, ran, wires_append, decode_append, Decoded.andThen, if_pos hclosed]
  exact h

variable {a : Assembler}

theorem Stays.then {up : List (List (List UInt8))} (h : Stays a up (ran l e fs)) (gs : List Frame) :
    ∃ e', e'.assembler = a ∧ ran l e (fs ++ gs) = ((ran l e' gs).1, up ++ (ran l e' gs).2) := by
  obtain ⟨e', hran, ha⟩ := h
  obtain ⟨hstate, hup⟩ := Prod.mk.injEq _ _ _ _ ▸ hran
  have hopen : ¬ (Decoder.header e' []).isClosed = true := Bool.false_ne_true
  refine ⟨e', ha, ?_⟩
  rw [ran, wires_append, decode_append, Decoded.andThen, hstate, if_neg hopen, filterMap_append, hup]
  rfl

theorem Stays.then_nil (h : Stays a [] (ran l e fs)) (gs : List Frame) :
    ∃ e', e'.assembler = a ∧ ran l e (fs ++ gs) = ran l e' gs := h.then gs

theorem ran_frame (h : breaks l.cap f.op f.fin f.payload.length = false) (e : End) :
    ∃ e' got, e'.frame = f.rx ∧ e'.assembler = e.assembler ∧ Got l f got ∧ ran l e [f] =
        (if (settle l e' got).2.2 then .header (settle l e' got).1 [] else .closed (settle l e' got).1,
          (settle l e' got).2.1.filterMap Out.message?) := by
  obtain ⟨e', got, hframe, hassembler, hgot, hdec⟩ := decode_frame h e
  refine ⟨e', got, hframe, hassembler, hgot, ?_⟩
  rw [ran, wires, flatMap_singleton, hdec]

/-- **A frame that ends the connection hands nothing up.** -/
theorem ran_stop (h : stops l f = true) (e : End) : Shuts (ran l e [f]) := by
  by_cases hb : breaks l.cap f.op f.fin f.payload.length = true
  · obtain ⟨hstate, houts⟩ := decode_refused (f.decodeHeader_breach hb) e f.sent
    rw [Shuts, ran, wires, flatMap_singleton, Frame.wire, hstate, houts]
    exact ⟨rfl, rfl⟩
  rw [Bool.not_eq_true] at hb
  have hop : f.op = .close := by
    rw [stops, hb, Bool.false_or] at h
    exact eq_of_beq h
  obtain ⟨e', got, hframe, -, -, hran⟩ := ran_frame hb e
  rw [hran]
  have hclose : e'.frame.op = .close := by rw [hframe]; exact hop
  cases got with
  | none | some bytes =>
    rw [settle, hclose]
    exact ⟨rfl, rfl⟩

theorem breaks_of_stops (h : stops l f = false) : breaks l.cap f.op f.fin f.payload.length = false :=
  (Bool.or_eq_false_iff.mp h).1

theorem ran_control {c : Control} (h : stops l c.frame = false) (e : End) :
    Stays e.assembler [] (ran l e [c.frame]) := by
  obtain ⟨e', got, hframe, hassembler, -, hran⟩ := ran_frame (breaks_of_stops h) e
  have hop : e'.frame.op = c.op.opcode := by
    rw [hframe]
    rfl
  have hne : c.op ≠ .close := by
    intro hc
    have : (c.frame.op == Opcode.close) = false := (Bool.or_eq_false_iff.mp h).2
    have hfop : c.frame.op = .close := by
      show c.op.opcode = _
      rw [hc]
      rfl
    rw [hfop] at this
    cases this
  rw [hran]
  cases got with
  | none | some bytes =>
    rw [settle, hop]
    cases hc : c.op with
    | ping | pong => exact ⟨_, rfl, hassembler⟩
    | close => exact absurd hc hne

theorem ran_ignored (h : stops l f = false) (hop : f.op = .text ∨ f.op = .cont) (ha : e.assembler = {}) :
    Stays {} [] (ran l e [f]) := by
  obtain ⟨e', got, hframe, hassembler, -, hran⟩ := ran_frame (breaks_of_stops h) e
  rw [ha] at hassembler
  have hop' : e'.frame.op = .text ∨ e'.frame.op = .cont := by
    rw [hframe]
    exact hop
  rw [hran]
  obtain hop' | hop' := hop'
  · cases got with
    | none =>
      rw [settle, hop']
      exact ⟨_, rfl, rfl⟩
    | some bytes =>
      rw [settle, hop']
      exact ⟨_, rfl, hassembler⟩
  cases got with
  | none =>
    rw [settle, hop']
    exact ⟨_, rfl, rfl⟩
  | some bytes =>
    have hnotWhole : ¬ (e'.frame.op = .binary ∧ e'.frame.fin = true) := by simp [hop']
    have hsettle : settle l e' (some bytes) =
        ({ e' with assembler := {}, pieces := e'.pieces + 1 }, [], true) := by
      rw [settle, hop']
      show data l e' bytes = _
      rw [data, if_neg hnotWhole, hop', hassembler]
      rfl
    rw [hsettle]
    exact ⟨_, rfl, rfl⟩

theorem ran_whole (h : stops l f = false) (hop : f.op = .binary) (hfin : f.fin = true) (e : End) :
    Stays {} [[f.payload]] (ran l e [f]) ∨ Stays {} [] (ran l e [f]) ∧ ¬ l.Generous := by
  obtain ⟨e', got, hframe, -, hgot, hran⟩ := ran_frame (breaks_of_stops h) e
  have hop' : e'.frame.op = .binary := by rw [hframe]; exact hop
  have hfin' : e'.frame.fin = true := by rw [hframe]; exact hfin
  rw [hran]
  obtain hgot | ⟨hgot, hrefuses⟩ := hgot
  · have hsettle : settle l e' (some f.payload) =
        ({ e' with assembler := {} }, [.handUp [f.payload]], true) := by
      rw [settle, hop']
      exact if_pos ⟨hop', hfin'⟩
    rw [hgot, hsettle]
    exact .inl ⟨_, rfl, rfl⟩
  · subst hgot
    rw [settle, hop']
    exact .inr ⟨⟨_, rfl, rfl⟩, hrefuses⟩

theorem costOf_append (k : Nat) (xs ys : List (List UInt8)) :
    costOf k (xs ++ ys) = costOf k xs + costOf k ys := by
  rw [costOf, map_append, sum_append]
  rfl

/-- **A piece of a fragmented message**: it costs too much, it is shed, it is chained, or it is the last and
the chain goes up. -/
theorem ran_piece (h : stops l f = false) (hsound : a.Sound l.fragmentCost l.cap)
    (hop : f.op = .binary ∧ f.fin = false ∧ a = {} ∨ f.op = .cont ∧ e.assembler = a ∧ a.chain ≠ []) :
    l.cap < costOf l.fragmentCost (a.chain ++ [f.payload]) ∧ Shuts (ran l e [f]) ∨
      ¬ l.Generous ∧ Stays {} [] (ran l e [f]) ∨ costOf l.fragmentCost (a.chain ++ [f.payload]) ≤ l.cap ∧
        (f.fin = false → Stays ⟨a.chain ++ [f.payload], costOf l.fragmentCost (a.chain ++ [f.payload])⟩ []
          (ran l e [f])) ∧ (f.fin = true → Stays {} [a.chain ++ [f.payload]] (ran l e [f])) := by
  obtain ⟨e', got, hframe, hassembler, hgot, hran⟩ := ran_frame (breaks_of_stops h) e
  have hfin : e'.frame.fin = f.fin := by rw [hframe]; rfl
  have hopeq : e'.frame.op = f.op := by rw [hframe]; rfl
  obtain ⟨hcharged, hcap⟩ := hsound
  have hcost : costOf l.fragmentCost (a.chain ++ [f.payload]) =
      a.charged + (f.payload.length + l.fragmentCost) := by
    rw [costOf_append, ← hcharged]
    simp [costOf]
  have hdata : Assembler.onPiece l.fragmentCost l.cap (l.push e'.pieces) (l.reserve e'.pieces) e'.assembler
      f.op f.fin f.payload =
        Assembler.chainOn l.fragmentCost l.cap (l.push e'.pieces) (l.reserve e'.pieces) a f.fin
          f.payload := by
    rw [Assembler.onPiece, hassembler]
    obtain ⟨hop, -, ha⟩ | ⟨hop, ha, hne⟩ := hop
    · rw [if_pos hop, ha]
    · rw [ha, if_neg (by rw [hop]; decide), if_neg hne]
  have hdatum : f.op = .binary ∨ f.op = .cont := hop.imp And.left And.left
  have hnotWhole : ¬ (e'.frame.op = .binary ∧ e'.frame.fin = true) := by
    rw [hopeq, hfin]
    intro hwhole
    obtain ⟨-, hf, -⟩ | ⟨hcont, -, -⟩ := hop
    · cases hf.symm.trans hwhole.2
    · cases hcont.symm.trans hwhole.1
  rw [hran, hcost]
  obtain hgot | ⟨hgot, hrefuses⟩ := hgot
  · have hsettle : settle l e' (some f.payload) = data l e' f.payload := by
      rw [settle, hopeq]
      obtain hop | hop := hdatum <;> rw [hop]
    subst hgot
    rw [hsettle, data, if_neg hnotWhole, hopeq, hfin, hdata, Assembler.chainOn]
    split
    · exact .inl ⟨by omega, rfl, rfl⟩
    cases hpush : l.push e'.pieces with
    | false =>
      refine .inr (.inl ⟨fun hg => ?_, _, rfl, rfl⟩)
      cases (hg.2 e'.pieces).1.symm.trans hpush
    | true =>
      cases hf : f.fin with
      | false =>
        refine .inr (.inr ⟨by omega, fun _ => ⟨_, rfl, rfl⟩, fun hno => ?_⟩)
        cases hno
      | true =>
        cases hreserve : l.reserve e'.pieces with
        | false =>
          refine .inr (.inl ⟨fun hg => ?_, _, rfl, rfl⟩)
          cases (hg.2 e'.pieces).2.symm.trans hreserve
        | true =>
          refine .inr (.inr ⟨by omega, fun hno => ?_, fun _ => ⟨_, rfl, rfl⟩⟩)
          cases hno
  · have hcontrol : e'.frame.op.isControl = false ∧ (e'.frame.op != .close) = true := by
      rw [hopeq]
      obtain hop | hop := hdatum <;> rw [hop] <;> decide
    subst hgot
    rw [settle, hcontrol.1, hcontrol.2]
    exact .inr (.inl ⟨hrefuses, _, rfl, rfl⟩)

/-! ## Messages -/

/-- Frames of which nothing is handed up: one closes the connection, or it goes on with `a` assembled. -/
def Quiet (l : Setup) (e : End) (a : Assembler) (fs : List Frame) : Prop :=
  fs.any (stops l) = true ∧ Shuts (ran l e fs) ∨ fs.any (stops l) = false ∧ Stays a [] (ran l e fs)

theorem quiet_frame (h : stops l f = false → Stays a [] (ran l e [f])) : Quiet l e a [f] := by
  rw [Quiet, any_cons, any_nil, Bool.or_false]
  cases hf : stops l f with
  | true => exact .inl ⟨rfl, ran_stop hf e⟩
  | false => exact .inr ⟨rfl, h hf⟩

theorem Quiet.then {b : Assembler} (h : Quiet l e a fs) (h' : ∀ e', e'.assembler = a → Quiet l e' b gs) :
    Quiet l e b (fs ++ gs) := by
  rw [Quiet, any_append]
  obtain ⟨hany, hshut⟩ | ⟨hany, hstay⟩ := h
  · rw [hany]
    exact .inl ⟨rfl, hshut.then gs⟩
  · obtain ⟨e', ha, hran⟩ := hstay.then_nil gs
    rw [hany, hran, Bool.false_or]
    exact h' e' ha

theorem ran_controls (controls : List Control) (e : End) :
    Quiet l e e.assembler (controls.map Control.frame) := by
  induction controls generalizing e with
  | nil => exact .inr ⟨rfl, e, rfl, rfl⟩
  | cons c controls ih => exact (quiet_frame fun hc => ran_control hc e).then fun e' ha => ha ▸ ih e'

theorem ran_strays (rest : List (List Control × Part)) (ha : e.assembler = {}) :
    Quiet l e {} (contFrames rest) := by
  induction rest generalizing e with
  | nil => exact .inr ⟨rfl, e, rfl, ha⟩
  | cons piece rest ih =>
    refine (ran_controls piece.1 e).then fun e' ha' => ?_
    exact (quiet_frame fun hp => ran_ignored hp (.inr rfl) (ha'.trans ha)).then fun _ ha'' => ih ha''

/-- **The later pieces of a message that is assembled.** -/
theorem ran_rest {rest : List (List Control × Part)} (hne : rest ≠ [])
    (hsound : e.assembler.Sound l.fragmentCost l.cap) (hopen : e.assembler.chain ≠ []) :
    ((contFrames rest).any (stops l) = true ∨
        l.cap < costOf l.fragmentCost (e.assembler.chain ++ restLinks rest)) ∧
        Shuts (ran l e (contFrames rest)) ∨
      (contFrames rest).any (stops l) = false ∧ ¬ l.Generous ∧ Stays {} [] (ran l e (contFrames rest)) ∨
      (contFrames rest).any (stops l) = false ∧
        costOf l.fragmentCost (e.assembler.chain ++ restLinks rest) ≤ l.cap ∧
        Stays {} [e.assembler.chain ++ restLinks rest] (ran l e (contFrames rest)) := by
  induction rest generalizing e with
  | nil => exact absurd rfl hne
  | cons piece rest ih =>
    obtain ⟨controls, p⟩ := piece
    have hlinks : e.assembler.chain ++ restLinks ((controls, p) :: rest) =
        e.assembler.chain ++ [p.payload] ++ restLinks rest := by
      rw [append_assoc]
      rfl
    rw [contFrames, any_append, any_cons, hlinks]
    obtain ⟨hany, hshut⟩ | ⟨hany, hstay⟩ := ran_controls controls e (l := l)
    · rw [hany]
      exact .inl ⟨.inl rfl, hshut.then _⟩
    rw [hany, Bool.false_or]
    obtain ⟨e', ha', hran⟩ := hstay.then_nil (p.frame .cont rest.isEmpty :: contFrames rest)
    rw [hran]
    cases hp : stops l (p.frame .cont rest.isEmpty) with
    | true => exact .inl ⟨.inl rfl, (ran_stop hp e').then _⟩
    | false =>
      rw [Bool.false_or]
      have hpiece := ran_piece hp hsound (.inr ⟨rfl, ha', hopen⟩)
      change l.cap < costOf l.fragmentCost (e.assembler.chain ++ [p.payload]) ∧ _ ∨ _ ∨
        costOf l.fragmentCost (e.assembler.chain ++ [p.payload]) ≤ l.cap ∧
          (rest.isEmpty = false → Stays ⟨e.assembler.chain ++ [p.payload], _⟩ [] _) ∧
          (rest.isEmpty = true → Stays {} [e.assembler.chain ++ [p.payload]] _) at hpiece
      obtain ⟨hover, hshut⟩ | ⟨hrefuses, hshed⟩ | ⟨hfits, hmore, hlast⟩ := hpiece
      · refine .inl ⟨.inr ?_, hshut.then (contFrames rest)⟩
        rw [costOf_append]
        omega
      · -- the message is shed: what follows of it is stray
        obtain ⟨e'', ha'', hran'⟩ := hshed.then_nil (contFrames rest)
        rw [singleton_append] at hran'
        rw [hran']
        obtain ⟨hends, hshut⟩ | ⟨hends, hstay'⟩ := ran_strays rest ha'' (l := l)
        · exact .inl ⟨.inl hends, hshut⟩
        · exact .inr (.inl ⟨hends, hrefuses, hstay'⟩)
      · cases rest with
        | nil =>
          refine .inr (.inr ⟨rfl, ?_, ?_⟩)
          · rw [restLinks, map_nil, append_nil]
            exact hfits
          · rw [restLinks, map_nil, append_nil]
            exact hlast rfl
        | cons next rest =>
          obtain ⟨e'', ha'', hran'⟩ := (hmore rfl).then_nil (contFrames (next :: rest))
          rw [singleton_append] at hran'
          rw [hran']
          have hstep := ih (e := e'') (cons_ne_nil _ _)
            (by rw [ha'']; exact ⟨rfl, hfits⟩) (by rw [ha'']; simp)
          rwa [ha''] at hstep

/-- What an item does to a connection that holds no message: it closes it, leaves nothing behind, or is
handed up whole. -/
def Settles (l : Setup) (i : Item) (r : Decoder End × List (List (List UInt8))) : Prop :=
  i.passes l = false ∧ Shuts r ∨
    i.ends l = false ∧ (l.Generous → i.payload? = none ∧ i.fits l = true) ∧ Stays {} [] r ∨
    ∃ links, i.passes l = true ∧ i.payload? = some links.flatten ∧ Stays {} [links] r

def Message.opening (m : Message) : Frame :=
  m.first.frame (if m.text then .text else .binary) m.rest.isEmpty

variable {m : Message}

section

variable (h : stops l m.opening = false)
include h

theorem ends_message : (Item.message m).ends l = (contFrames m.rest).any (stops l) := by
  show (m.opening :: contFrames m.rest).any (stops l) = _
  rw [any_cons, h, Bool.false_or]

theorem passes_message : (Item.message m).passes l = (!(contFrames m.rest).any (stops l) && m.fits l) := by
  rw [Item.passes, ends_message h]
  rfl

theorem settles_strays
    (hgen : l.Generous → (Item.message m).payload? = none ∧ (Item.message m).fits l = true)
    (hstay : Stays {} [] (ran l e [m.opening])) : Settles l (.message m) (ran l e m.frames) := by
  obtain ⟨e', ha, hran⟩ := hstay.then_nil (contFrames m.rest)
  have hframes : ran l e m.frames = ran l e' (contFrames m.rest) := hran
  rw [hframes]
  obtain ⟨hany, hshut⟩ | ⟨hany, hstay'⟩ := ran_strays m.rest ha (l := l)
  · refine .inl ⟨?_, hshut⟩
    rw [passes_message h, hany]
    rfl
  · exact .inr (.inl ⟨(ends_message h).trans hany, hgen, hstay'⟩)

theorem settles_text (htext : m.text = true) (ha : e.assembler = {}) :
    Settles l (.message m) (ran l e m.frames) := by
  have hop : m.opening.op = .text := by
    rw [Message.opening, htext]
    rfl
  refine settles_strays h (fun _ => ?_) (ran_ignored h (.inl hop) ha)
  rw [Item.payload?, Item.fits, Message.fits, htext]
  exact ⟨rfl, rfl⟩

end

theorem payload_binary (htext : m.text = false) : (Item.message m).payload? = some m.links.flatten := by
  rw [Item.payload?, htext]
  rfl

theorem opening_binary (htext : m.text = false) : m.opening.op = .binary := by
  rw [Message.opening, htext]
  rfl

theorem settles_whole (h : stops l m.opening = false) (htext : m.text = false) (hwhole : m.rest = [])
    (e : End) : Settles l (.message m) (ran l e m.frames) := by
  have hfin : m.opening.fin = true := by
    show m.rest.isEmpty = true
    rw [hwhole]
    rfl
  obtain hup | ⟨hstay, hrefuses⟩ := ran_whole h (opening_binary htext) hfin e
  · refine .inr (.inr ⟨m.links, ?_, payload_binary htext, ?_⟩)
    · rw [passes_message h, Message.fits, hwhole]
      simp [contFrames]
    · rw [Message.links, Message.frames, hwhole]
      rw [Message.opening, hwhole] at hup
      exact hup
  · exact settles_strays h (fun hg => absurd hg hrefuses) hstay

theorem settles_fragments (h : stops l m.opening = false) (htext : m.text = false) (hrest : m.rest ≠ [])
    (e : End) : Settles l (.message m) (ran l e m.frames) := by
  have hfin : m.opening.fin = false := isEmpty_eq_false_iff.mpr hrest
  have hfits : m.fits l = decide (costOf l.fragmentCost m.links ≤ l.cap) := by
    rw [Message.fits, htext, Bool.false_or, isEmpty_eq_false_iff.mpr hrest, Bool.false_or]
  have hcosts : ¬ costOf l.fragmentCost m.links ≤ l.cap → (Item.message m).passes l = false := by
    intro hover
    rw [passes_message h, hfits, decide_eq_false hover, Bool.and_false]
  have hempty := Assembler.sound_empty l.fragmentCost l.cap
  have hlinks : m.links = [m.opening.payload] ++ restLinks m.rest := rfl
  obtain ⟨hover, hshut⟩ | ⟨hrefuses, hstay⟩ | ⟨hcost, hmore, -⟩ :=
    ran_piece (e := e) h hempty (.inl ⟨opening_binary htext, hfin, rfl⟩)
  · refine .inl ⟨hcosts ?_, hshut.then (contFrames m.rest)⟩
    rw [nil_append] at hover
    rw [hlinks, costOf_append]
    omega
  · exact settles_strays h (fun hg => absurd hg hrefuses) hstay
  · obtain ⟨e', ha, hran⟩ := (hmore hfin).then_nil (contFrames m.rest)
    have hframes : ran l e m.frames = ran l e' (contFrames m.rest) := hran
    have hrun := ran_rest (e := e') (l := l) hrest (by rw [ha]; exact ⟨rfl, hcost⟩) (by rw [ha]; simp)
    rw [ha, nil_append, ← hlinks] at hrun
    rw [hframes]
    obtain ⟨hbad, hshut⟩ | ⟨hany, hrefuses, hstay⟩ | ⟨hany, hle, hup⟩ := hrun
    · refine .inl ⟨?_, hshut⟩
      obtain hany | hover := hbad
      · rw [passes_message h, hany]
        rfl
      · exact hcosts (Nat.not_le.mpr hover)
    · exact .inr (.inl ⟨(ends_message h).trans hany, fun hg => absurd hg hrefuses, hstay⟩)
    · refine .inr (.inr ⟨m.links, ?_, payload_binary htext, hup⟩)
      rw [passes_message h, hany, hfits, decide_eq_true hle]
      rfl

/-- **One item, from an end that holds no message.** -/
theorem ran_item (i : Item) (ha : e.assembler = {}) : Settles l i (ran l e i.frames) := by
  cases i with
  | control c =>
    have hends : (Item.control c).ends l = stops l c.frame := by simp [Item.ends, Item.frames]
    cases hc : stops l c.frame with
    | true =>
      refine .inl ⟨?_, ran_stop hc e⟩
      rw [Item.passes, hends, hc]
      rfl
    | false =>
      have hstay := ran_control hc e
      rw [ha] at hstay
      exact .inr (.inl ⟨hends.trans hc, fun _ => ⟨rfl, rfl⟩, hstay⟩)
  | message m =>
    cases hf : stops l m.opening with
    | true =>
      refine .inl ⟨?_, (ran_stop hf e).then (contFrames m.rest)⟩
      show (!(m.opening :: contFrames m.rest).any (stops l) && m.fits l) = false
      rw [any_cons, hf]
      rfl
    | false =>
      cases htext : m.text with
      | true => exact settles_text hf htext ha
      | false =>
        by_cases hwhole : m.rest = []
        · exact settles_whole hf htext hwhole e
        · exact settles_fragments hf htext hwhole e

/-- **A run over items**: what is handed up are messages of the stream, each whole and in order; all that
the stream carries where no store refuses. -/
theorem ran_items (items : List Item) (ha : e.assembler = {}) :
    ((ran l e (items.flatMap Item.frames)).2.map List.flatten).Sublist (carriedAtMost l items) ∧
      (l.Generous → (ran l e (items.flatMap Item.frames)).2.map List.flatten = carried l items ∧
        (ran l e (items.flatMap Item.frames)).1.isClosed = !items.all (Item.passes l)) ∧
      ((ran l e (items.flatMap Item.frames)).1.isClosed = true ∧ items.all (Item.passes l) = false ∨
        ∃ e', (ran l e (items.flatMap Item.frames)).1 = .header e' []) := by
  induction items generalizing e with
  | nil => exact ⟨List.Sublist.refl _, fun _ => ⟨rfl, rfl⟩, .inr ⟨e, rfl⟩⟩
  | cons i items ih =>
    rw [flatMap_cons, all_cons, carried, carriedAtMost]
    obtain ⟨hpass, hshut⟩ | ⟨hends, hgen, hstay⟩ | ⟨links, hpass, hpayload, hup⟩ :=
      ran_item i ha (l := l)
    · obtain ⟨hclosed, hnone⟩ := hshut.then (items.flatMap Item.frames)
      have htake : (i :: items).takeWhile (Item.passes l) = [] :=
        takeWhile_cons_of_neg (by rw [hpass]; exact nofun)
      rw [hclosed, hnone, hpass, htake]
      exact ⟨nil_sublist _, fun _ => ⟨rfl, rfl⟩, .inl ⟨rfl, rfl⟩⟩
    · obtain ⟨e', ha', hran⟩ := hstay.then_nil (items.flatMap Item.frames)
      obtain ⟨hsub, hall, hstate⟩ := ih ha'
      rw [hran, takeWhile_cons_of_pos (by rw [hends]; rfl), filter_cons]
      refine ⟨?_, fun hg => ?_, ?_⟩
      · split
        · rw [filterMap_cons]
          split
          · exact hsub
          · exact hsub.cons _
        · exact hsub
      · obtain ⟨hnone, hfits⟩ := hgen hg
        have hpass : i.passes l = true := by rw [Item.passes, hends, hfits]; rfl
        rw [takeWhile_cons_of_pos hpass, filterMap_cons_none hnone, hpass, Bool.true_and]
        exact hall hg
      · refine hstate.imp (fun hclosed => ⟨hclosed.1, ?_⟩) id
        rw [hclosed.2, Bool.and_false]
    · obtain ⟨e', ha', hran⟩ := hup.then (items.flatMap Item.frames)
      obtain ⟨hsub, hall, hstate⟩ := ih ha'
      have hends : i.ends l = false ∧ i.fits l = true := by
        rw [Item.passes, Bool.and_eq_true, Bool.not_eq_true'] at hpass
        exact hpass
      rw [hran, takeWhile_cons_of_pos (by rw [hends.1]; rfl), filter_cons_of_pos hends.2,
        filterMap_cons_some hpayload, hpass, Bool.true_and, takeWhile_cons_of_pos hpass,
        filterMap_cons_some hpayload]
      refine ⟨hsub.cons_cons _, fun hg => ⟨?_, (hall hg).2⟩, hstate⟩
      exact congrArg (links.flatten :: ·) (hall hg).1

end

/-! ## Links -/

def Broken (l : Setup) (tail : List UInt8) : Prop :=
  tail = [] ∨ ∃ h more, tail = h ++ more ∧ decodeHeader l.cap h = .protocolError

def messages (outs : List Out) : List (List UInt8) := (outs.filterMap Out.message?).map List.flatten

theorem messages_append (xs ys : List Out) : messages (xs ++ ys) = messages xs ++ messages ys := by
  rw [messages, filterMap_append, map_append]
  rfl

/-- What a link did with a stream of items and a broken tail, as far as it read it, on the answers `spent` of
its socket. -/
structure Receives (eof : Bool) (l : Setup) (items : List Item) (tail stream : List UInt8)
    (polls : List Ingress.Poll) (k : Ingress.Link End Out) (spent : List Ingress.Poll) : Prop where
  whole : (messages k.outs).Sublist (carriedAtMost l items)
  carries : l.Generous → messages k.outs <+: carried l items ∧
    (k.stream = [] ∨ k.keep = false ∧ ¬Ingress.Stopped eof k.stream spent →
      messages k.outs = carried l items)
  polls : polls = spent ++ k.polls
  /-- Each answer that asked took a byte off the socket, as long as it had one. -/
  reads : spent.countP Ingress.Poll.asks + k.stream.length ≤ stream.length ∨ k.stream = []
  closes : k.keep = false →
    Ingress.Stopped eof k.stream spent ∨ items.all (Item.passes l) = false ∨ tail ≠ []
  waits : k.keep = true → k.polls = [] ∧
    (k.stream = [] → tail = [] ∧ (l.Generous → items.all (Item.passes l) = true))

section

variable {l : Setup} {items : List Item} {tail : List UInt8}

variable (items) in
theorem decode_stream (htail : Broken l tail) :
    let r := (wsFraming l).decode (.header {} []) (wires (items.flatMap Item.frames) ++ tail)
    messages r.outs = (ran l {} (items.flatMap Item.frames)).2.map List.flatten ∧
      r.state.isClosed = ((ran l {} (items.flatMap Item.frames)).1.isClosed || !tail.isEmpty) := by
  dsimp only
  obtain ⟨-, -, hstate⟩ := ran_items (l := l) (e := {}) items rfl
  rw [decode_append, Decoded.andThen]
  obtain ⟨hclosed, -⟩ | ⟨e, hopen⟩ := hstate
  · have hclosed' : ((wsFraming l).decode (.header {} []) (wires (items.flatMap Item.frames))).state.isClosed =
      true := hclosed
    rw [if_pos hclosed', hclosed]
    exact ⟨rfl, hclosed'⟩
  have hopen' : ((wsFraming l).decode (.header {} []) (wires (items.flatMap Item.frames))).state =
    .header e [] := hopen
  have hnot : ¬ (Decoder.header e []).isClosed = true := Bool.false_ne_true
  rw [hopen', if_neg hnot, messages_append, hopen]
  obtain htail | ⟨h, more, htail, hh⟩ := htail
  · rw [htail]
    exact ⟨append_nil _, rfl⟩
  obtain ⟨hstate, houts⟩ := decode_refused hh e more
  have hne : tail.isEmpty = false := by
    rw [htail]
    cases h with
    | nil => cases hh
    | cons b h => rfl
  rw [hne, htail, hstate, houts]
  exact ⟨append_nil _, rfl⟩

theorem receives_of_served (htail : Broken l tail) {eof : Bool} {all stream : List UInt8}
    {polls : List Ingress.Poll} {k : Ingress.Link End Out}
    (hall : all = wires (items.flatMap Item.frames) ++ tail)
    (hserved : ∃ spent used,
      Ingress.Served (wsFraming l) eof (.header {} []) all polls k spent used ∧
        (spent.countP Ingress.Poll.asks + k.stream.length ≤ stream.length ∨ k.stream = []))
    (hend : k.keep = true → k.polls = []) : ∃ spent, Receives eof l items tail stream polls k spent := by
  obtain ⟨spent, used, h, hreads⟩ := hserved
  obtain ⟨hsub, hgen, hstate⟩ := ran_items (l := l) (e := {}) items rfl
  obtain ⟨hmsgs, hclosed⟩ := decode_stream items htail
  rw [← hall] at hmsgs hclosed
  have hdec := decode_append (wsFraming l) (.header {} []) used k.stream
  rw [← h.splits, Decoded.andThen] at hdec
  -- what was read so far is a beginning of the whole, and all of it once the stream is closed
  have hbegin : messages k.outs <+: messages ((wsFraming l).decode (.header {} []) all).outs := by
    rw [hdec, h.outs]
    split
    · exact prefix_rfl
    · rw [messages_append]
      exact prefix_append _ _
  have hclosedAll : ((wsFraming l).decode (.header {} []) used).state.isClosed = true →
      messages k.outs = messages ((wsFraming l).decode (.header {} []) all).outs ∧
        ((wsFraming l).decode (.header {} []) all).state.isClosed = true := by
    intro hc
    rw [hdec, if_pos hc, h.outs]
    exact ⟨rfl, hc⟩
  have hreadAll : k.stream = [] → used = all := by
    intro hnil
    rw [h.splits, hnil, append_nil]
  refine ⟨spent, ?_, fun hg => ⟨?_, fun hdone => ?_⟩, h.polls, hreads, fun hk => ?_, fun hk => ⟨hend hk, fun hnil => ?_⟩⟩
  · rw [hmsgs] at hbegin
    exact hbegin.sublist.trans hsub
  · rwa [hmsgs, (hgen hg).1] at hbegin
  · rw [← (hgen hg).1, ← hmsgs]
    obtain hnil | ⟨hk, hgone⟩ := hdone
    · rw [h.outs, hreadAll hnil]
    · exact (hclosedAll ((h.keeps hk).resolve_right hgone)).1
  · obtain hc | hgone := h.keeps hk
    · right
      have hboth := (hclosedAll hc).2
      rw [hclosed, Bool.or_eq_true] at hboth
      obtain hran | hne := hboth
      · left
        obtain hnot | ⟨e, hopen⟩ := hstate
        · exact hnot.2
        · rw [hopen] at hran
          cases hran
      · right
        intro hnil
        rw [hnil] at hne
        cases hne
    · exact .inl hgone
  · have hopen : ((wsFraming l).decode (.header {} []) all).state.isClosed = false := by
      rw [← hreadAll hnil]
      cases hc : ((wsFraming l).decode (.header {} []) used).state.isClosed with
      | false => rfl
      | true => cases hk.symm.trans (h.closes hc)
    rw [hclosed, Bool.or_eq_false_iff, Bool.not_eq_false'] at hopen
    refine ⟨List.isEmpty_iff.mp hopen.2, fun hg => ?_⟩
    have hpass := (hgen hg).2
    rw [hopen.1] at hpass
    cases hc : items.all (Item.passes l) with
    | true => rfl
    | false =>
      rw [hc] at hpass
      cases hpass

end

/-- A link that reads with `read`, and one that reads with `read_with`. -/
def served (l : Setup) (readAhead : Nat) (pipelined stream : List UInt8) (polls : List Ingress.Poll) :
    Ingress.Link End Out :=
  Ingress.opened (wsFraming l) kMaxClientFrameHeader {} pipelined stream polls
    (Ingress.serve (wsFraming l) kMaxClientFrameHeader readAhead)

@[inherit_doc served]
def servedWith (l : Setup) (pipelined stream : List UInt8) (polls : List Ingress.Poll) :
    Ingress.Link End Out :=
  Ingress.opened (wsFraming l) kMaxClientFrameHeader {} pipelined stream polls
    (Ingress.serveWith (wsFraming l) kMaxClientFrameHeader)

/-- **WebSocket receive.**  Of a stream of items a link hands up the BINARY messages up to the first item
the connection does not survive, each with the bytes of its own pieces, however the stream is cut into
reads; a store that refuses can only make it leave out whole messages.  What is held of a message costs no
more than the cap, whatever bytes arrive, and a length over the cap, a control frame that is long or
fragmented and a reserved opcode are refused at the header. -/
theorem receives_messages (l : Setup) (readAhead : Nat) :
    (∀ items tail, Broken l tail → ∀ pipelined stream polls,
      pipelined ++ stream = wires (items.flatMap Item.frames) ++ tail →
        (∃ spent, Receives true l items tail stream polls (served l readAhead pipelined stream polls) spent) ∧
          ∃ spent, Receives false l items tail stream polls (servedWith l pipelined stream polls) spent) ∧
      (∀ pipelined stream polls, (served l readAhead pipelined stream polls).ending.Sound l ∧
        (servedWith l pipelined stream polls).ending.Sound l) ∧ (∀ f : Frame, l.cap < f.payload.length ∨
          f.op.isControl = true ∧ (kMaxControlPayload < f.payload.length ∨ f.fin = false) →
        decodeHeader l.cap f.header = .protocolError) ∧
      ∀ b0 b1 : UInt8, Opcode.ofNibble (b0 &&& 0x0F).toNat = none →
        decodeHeader l.cap [b0, b1] = .protocolError := by
  have L := wsFraming_lawful l
  have hread : ∀ pipelined stream polls, _ := fun pipelined stream polls =>
    Ingress.opened_spec L {} pipelined stream polls
      (Ingress.serve (wsFraming l) kMaxClientFrameHeader readAhead)
      fun h hopen => Ingress.serve_spec readAhead L h hopen stream polls
  have hwith : ∀ pipelined stream polls, _ := fun pipelined stream polls =>
    Ingress.opened_spec L {} pipelined stream polls
      (Ingress.serveWith (wsFraming l) kMaxClientFrameHeader)
      fun h hopen => Ingress.serveWith_spec L h hopen stream polls
  have hsound : ∀ {eof stream polls k spent used},
      Ingress.Served (wsFraming l) eof (.header {} []) stream polls k spent used →
        k.ending.Sound l := by
    intro eof stream polls k spent used h
    rw [h.stands.ending_eq]
    exact (keeps_sound l).decode (d := .header {} []) (Assembler.sound_empty _ _) used
  refine ⟨fun items tail htail pipelined stream polls hstream => ?_, fun pipelined stream polls => ?_,
    fun f hf => ?_, fun b0 b1 hop => decodeHeader_reserved hop l.cap b1 []⟩
  · exact ⟨receives_of_served htail hstream (hread pipelined stream polls).1
        (hread pipelined stream polls).2,
      receives_of_served htail hstream (hwith pipelined stream polls).1 (hwith pipelined stream polls).2⟩
  · obtain ⟨⟨_, _, h, -⟩, -⟩ := hread pipelined stream polls
    obtain ⟨⟨_, _, h', -⟩, -⟩ := hwith pipelined stream polls
    exact ⟨hsound h, hsound h'⟩
  · refine f.decodeHeader_breach ?_
    rw [breaks]
    obtain hlong | ⟨hcontrol, hbad⟩ := hf
    · rw [decide_eq_true hlong, Bool.or_true]
    rw [hcontrol, Bool.true_and]
    obtain hlong | hfin := hbad
    · rw [decide_eq_true hlong]
      rfl
    · rw [hfin]
      simp

def plainSetup : Setup where
  rx :=
    { maxSegment := 8
      draw := fun _ len => if len ≤ 8 then some (List.replicate len 0) else none
      length_draw := fun h => (of_replicate h).1
      draw_le := fun h => (of_replicate h).2 }
  maxFrame := 0
  fragmentCost := 1
  push _ := true
  reserve _ := true
  addr _ := 0

/-- The reserved bits are not looked at: a BINARY frame with the first of them set is handed up. -/
theorem reserved_bit_handed_up :
    messages (served plainSetup 0 [] [0xC2, 0x01, 0x2A] [.bytes 3]).outs = [[0x2A]] ∧
      (served plainSetup 0 [] [0xC2, 0x01, 0x2A] [.bytes 3]).keep = true := by
  decide

/-! ## From a client to a server -/

/-- A message as a client sends it: the parts of a frame, masked under a key. -/
structure Send where
  addr : Nat
  parts : List (List UInt8)
  key : BitVec 32

def Send.wire (s : Send) : List UInt8 := putClientFrame s.addr .binary s.parts s.key true

def Send.payload (s : Send) : List UInt8 := s.parts.flatten

variable {l : Setup}

theorem Send.exists_item {s : Send} (h : s.payload.length ≤ l.cap) : ∃ i : Item,
    s.wire = wires i.frames ∧ i.ends l = false ∧ i.fits l = true ∧ i.payload? = some s.payload := by
  have hcap : s.payload.length ≤ kNoPayloadCap := h.trans ((cap_le l).2.le.trans (by decide))
  let f := codecFrame .binary true (some (maskKeyOf s.key)) s.payload hcap
  have hstops : stops l f = false := by
    have hbinary : Opcode.isControl .binary = false := by decide
    rw [stops, breaks, show f.op = .binary from rfl, hbinary,
      decide_eq_false (show ¬l.cap < f.payload.length from h.not_gt)]
    rfl
  refine ⟨.message ⟨false, ⟨f.payload, 0, f.key, f.form, f.holds⟩, []⟩, ?_, ?_, rfl, congrArg some (append_nil _)⟩
  · rw [Send.wire, putClientFrame_eq _ _ _ _ _ hcap]
    exact (append_nil _).symm
  · show (stops l f || false) = false
    rw [hstops]
    rfl

theorem exists_items {sends : List Send} (hcap : ∀ s ∈ sends, s.payload.length ≤ l.cap) :
    ∃ items : List Item, sends.flatMap Send.wire = wires (items.flatMap Item.frames) ∧
      items.all (Item.passes l) = true ∧ carried l items = sends.map Send.payload ∧
      carriedAtMost l items = sends.map Send.payload := by
  induction sends with
  | nil => exact ⟨[], rfl, rfl, rfl, rfl⟩
  | cons s sends ih =>
    rw [forall_mem_cons] at hcap
    obtain ⟨i, hi, hends, hfits, hpay⟩ := Send.exists_item hcap.1
    obtain ⟨items, hw, hp, hc, hm⟩ := ih hcap.2
    have hip : i.passes l = true := by rw [Item.passes, hends, hfits]; rfl
    refine ⟨i :: items, ?_, ?_, ?_, ?_⟩
    · rw [flatMap_cons, flatMap_cons, wires_append, hi, hw]
    · rw [all_cons, hip, hp]
      rfl
    · rw [carried, takeWhile_cons_of_pos hip, filterMap_cons_some hpay, map_cons, ← hc]
      rfl
    · rw [carriedAtMost, takeWhile_cons_of_pos (by rw [hends]; rfl), filter_cons_of_pos hfits,
        filterMap_cons_some hpay, map_cons, ← hm]
      rfl

/-- **From a client to a server**: messages within the server's cap come up one by one and in order, under any
mask keys and however the stream is cut into reads.  Nothing in them ends the connection, and only a store that
refuses leaves one out: where none does, all have come up after as many answers with bytes as there are. -/
theorem client_reaches_server {sends : List Send} (hcap : ∀ s ∈ sends, s.payload.length ≤ l.cap)
    (readAhead : Nat) (polls : List Ingress.Poll) :
    let k := served l readAhead [] (sends.flatMap Send.wire) polls
    (messages k.outs).Sublist (sends.map Send.payload) ∧
      (k.keep = false → ∃ before p, polls = before ++ p :: k.polls ∧ p.ends true k.stream) ∧
      (l.Generous → messages k.outs <+: sends.map Send.payload ∧
        (k.stream = [] → messages k.outs = sends.map Send.payload) ∧
        ((∀ p ∈ polls, p ≠ .gone ∧ p ≠ .bytes 0) →
          (sends.flatMap Send.wire).length ≤ polls.countP Ingress.Poll.asks →
            messages k.outs = sends.map Send.payload)) := by
  obtain ⟨items, hwire, hpass, hcarried, hmost⟩ := exists_items hcap
  have hspec := Ingress.opened_spec (wsFraming_lawful l) {} [] (sends.flatMap Send.wire) polls
    (Ingress.serve (wsFraming l) kMaxClientFrameHeader readAhead)
    fun h hopen => Ingress.serve_spec readAhead (wsFraming_lawful l) h hopen _ polls
  obtain ⟨spent, hrec⟩ : ∃ spent, Receives true l items [] (sends.flatMap Send.wire) polls
      (served l readAhead [] (sends.flatMap Send.wire) polls) spent :=
    receives_of_served (.inl rfl) (by rw [nil_append, hwire, append_nil]) hspec.1 hspec.2
  intro k
  have hstops : k.keep = false → Ingress.Stopped true k.stream spent := by
    intro hkeep
    obtain hstops | hnot | hne := hrec.closes hkeep
    · exact hstops
    · cases hpass.symm.trans hnot
    · exact absurd rfl hne
  refine ⟨hmost ▸ hrec.whole, fun hkeep => ?_, fun hg => ?_⟩
  · obtain ⟨before, p, rfl, hends⟩ := hstops hkeep
    exact ⟨before, p, by rw [hrec.polls, append_assoc]; rfl, hends⟩
  · rw [← hcarried]
    obtain ⟨hbegin, hall⟩ := hrec.carries hg
    refine ⟨hbegin, fun hread => hall (.inl hread), fun hnone hasks => hall (.inl ?_)⟩
    cases hkeep : k.keep with
    | true =>
      have hspent : polls = spent := by rw [hrec.polls, (hrec.waits hkeep).1, append_nil]
      refine hrec.reads.elim (fun hreads => length_eq_zero_iff.mp ?_) id
      rw [← hspent] at hreads
      omega
    | false =>
      obtain ⟨before, p, hspent, hends⟩ := hstops hkeep
      have hp := hnone p (by rw [hrec.polls, hspent]; simp)
      cases p with
      | bytes n => exact hends.2.resolve_left fun hn => hp.2 (congrArg _ hn)
      | wouldBlock => exact hends.elim
      | gone => exact absurd rfl hp.1

theorem client_reaches_server_two_parts :
    let sends : List Send := [⟨1, [[0x2A], [0x2B]], 0x37FA213D#32⟩]
    let polls : List Ingress.Poll := List.replicate 4 (.bytes 1) ++ .wouldBlock :: List.replicate 4 (.bytes 5)
    plainSetup.Generous ∧
      messages (served plainSetup 0 [] (sends.flatMap Send.wire) polls).outs = [[0x2A, 0x2B]] := by
  have hg : plainSetup.Generous :=
    ⟨fun n len hlen => by simp [plainSetup, show len ≤ 8 from hlen], fun n => ⟨rfl, rfl⟩⟩
  exact ⟨hg, ((client_reaches_server (by decide) 0 _).2.2 hg).2.2 (by decide) (by decide)⟩

end LibTracer.Net.Ws
