import LibTracer.Wire.Header

/-!
# The format as a recursive decoder and as a grammar

The decoders of the repository are loops over a stack of open nodes. This file states what they
compute without a stack: `decode` reads a parse tree by recursion over the nesting, opening a node
at depth `d` only where the receiver has room for it.

* `Parses` : the grammar as a relation between bytes and parse trees.
-/

namespace LibTracer.Wire.Grammar

open Window List
open Crc (Bytes)

/-! ## Parse trees -/

/-- A parsed TLV: its header, its own bytes and its children. -/
inductive Node where
  | mk (head : Header) (bytes : Bytes) (kids : List Node)

theorem readHeader_cases (bs : Bytes) (p : CrcCheck) : (∃ e, readHeader bs p = .error e) ∨
    ∃ (c : Cell) (rest : Bytes), bs = c.wire ++ rest ∧ (p = .VERIFY → c.Sealed) := by
  cases h : readHeader bs p with
  | error e => exact .inl ⟨e, rfl⟩
  | ok hd =>
    obtain ⟨c, rest, hbs, -, hs⟩ := Cell.of_readHeader h
    exact .inr ⟨c, rest, hbs, hs⟩

variable {bs : Bytes} {p : CrcCheck}

theorem readHeader_bounds {h : Header} (hok : readHeader bs p = .ok h) :
    4 ≤ h.header ∧ h.header + h.length ≤ h.total ∧ h.total ≤ bs.length := by
  obtain ⟨c, rest, rfl, rfl, -⟩ := Cell.of_readHeader hok
  refine ⟨c.opt.four_le_header, ?_, ?_⟩
  · simp only [Cell.header]
    omega
  · rw [length_append, c.length_wire]
    omega

/-- Decode a children region. `room d` says whether the receiver can open a node while `d` nodes
    are open. -/
def decodeSeq (p : CrcCheck) (room : Nat → Bool) (depth : Nat) (bs : Bytes) :
    Except Err (List Node) :=
  if bs = [] then .ok []
  else
    match hh : readHeader bs p with
    | .error e => .error e
    | .ok h => do
      let kids ←
        if h.opt.pl then
          if room depth then decodeSeq p room (depth + 1) (window bs h.header h.length)
          else .error .TLV_NESTING_TOO_DEEP
        else .ok []
      let rest ← decodeSeq p room depth (bs.drop h.total)
      .ok (.mk h (window bs 0 h.total) kids :: rest)
termination_by bs.length
decreasing_by
  all_goals
    obtain ⟨h4, hin, hle⟩ := readHeader_bounds hh
    simp only [window, length_take, length_drop]
    omega

/-- Decode exactly one TLV that fills `bs`. -/
def decode (p : CrcCheck) (room : Nat → Bool) (bs : Bytes) : Except Err Node :=
  match readHeader bs p with
  | .error e => .error e
  | .ok h =>
    if h.total ≠ bs.length then .error .FRAME_INVALID
    else if !h.opt.pl then .ok (.mk h bs [])
    else if room 0 then do
      let kids ← decodeSeq p room 1 (window bs h.header h.length)
      .ok (.mk h bs kids)
    else .error .TLV_NESTING_TOO_DEEP

section Equations

variable {p : CrcCheck} {room : Nat → Bool} {depth : Nat}

@[simp] theorem decodeSeq_nil : decodeSeq p room depth [] = .ok [] := by
  rw [decodeSeq, if_pos rfl]

variable {bs : Bytes} {e : Err}

theorem decodeSeq_error (hne : bs ≠ []) (h : readHeader bs p = .error e) :
    decodeSeq p room depth bs = .error e := by
  rw [decodeSeq, if_neg hne]
  split
  next e' he' =>
    rw [h] at he'
    cases he'
    rfl
  next hd hok =>
    rw [h] at hok
    cases hok

/-- The children of a frame, one level down. -/
def decodeKids (p : CrcCheck) (room : Nat → Bool) (depth : Nat) (c : Cell) :
    Except Err (List Node) :=
  if c.opt.pl then
    if room depth then decodeSeq p room (depth + 1) c.body else .error .TLV_NESTING_TOO_DEEP
  else .ok []

theorem Cell.wire_ne_nil (c : Cell) (rest : Bytes) : c.wire ++ rest ≠ [] := by
  simp [Cell.wire, Cell.head]

theorem Cell.window_wire (c : Cell) (rest : Bytes) :
    window (c.wire ++ rest) 0 c.header.total = c.wire := by
  rw [window_zero, ← c.length_wire, take_left]

theorem Cell.drop_wire (c : Cell) (rest : Bytes) : (c.wire ++ rest).drop c.header.total = rest := by
  rw [← c.length_wire, drop_left]

variable {rest : Bytes}

/-- **Bytes open with at most one cell.** -/
theorem Cell.wire_append_inj {c d : Cell} {rest' : Bytes}
    (h : c.wire ++ rest = d.wire ++ rest') : c = d ∧ rest = rest' := by
  have hheader : c.header = d.header := by
    have hc := c.readHeader_wire rest .DEFER (fun hp => nomatch hp)
    rw [h, d.readHeader_wire rest' .DEFER (fun hp => nomatch hp)] at hc
    exact (Except.ok.inj hc).symm
  have hrest : rest = rest' := by
    rw [← c.drop_wire rest, h, hheader, d.drop_wire rest']
  have hopt : c.opt = d.opt := congrArg Header.opt hheader
  have hlen : c.body.length = d.body.length := congrArg Header.length hheader
  refine ⟨Cell.ext (congrArg Header.type hheader) hopt ?_ ?_ ?_, hrest⟩
  · rw [← c.window_body rest, h, hopt, hlen, d.window_body rest']
  · rw [← c.window_ts rest, h, hopt, hlen, d.window_ts rest']
  · rw [← c.window_crc rest, h, hopt, hlen, d.window_crc rest']

/-- A sequence that starts with a frame is that frame and the rest. -/
theorem decodeSeq_cell (c : Cell) (rest : Bytes) (hs : p = .VERIFY → c.Sealed) :
    decodeSeq p room depth (c.wire ++ rest) = (do
      let kids ← decodeKids p room depth c
      let ns ← decodeSeq p room depth rest
      .ok (.mk c.header c.wire kids :: ns)) := by
  have hok := c.readHeader_wire rest p hs
  rw [decodeSeq, if_neg (c.wire_ne_nil rest)]
  split
  next e he =>
    rw [hok] at he
    cases he
  next hd hhd =>
  rw [hok] at hhd
  cases hhd
  rw [c.window_wire, c.drop_wire]
  simp only [Cell.header, c.window_body, decodeKids]
  cases c.opt.pl
  · rfl
  · cases room depth <;> rfl

theorem decode_cell (c : Cell) (hs : p = .VERIFY → c.Sealed) :
    decode p room c.wire = (do
      let kids ← decodeKids p room 0 c
      .ok (.mk c.header c.wire kids)) := by
  have hok := c.readHeader_wire [] p hs
  have hbody := c.window_body []
  rw [append_nil] at hok hbody
  unfold decode decodeKids
  rw [hok]
  simp only [ne_eq, c.length_wire, not_true_eq_false, if_false]
  simp only [Cell.header, hbody]
  cases c.opt.pl
  · rfl
  · cases room 0 <;> rfl

theorem decode_trailing (c : Cell) (hne : rest ≠ []) (hs : p = .VERIFY → c.Sealed) :
    decode p room (c.wire ++ rest) = .error .FRAME_INVALID := by
  unfold decode
  rw [c.readHeader_wire rest p hs]
  have hlen : c.header.total ≠ (c.wire ++ rest).length := by
    have := length_pos_iff.mpr hne
    rw [length_append, c.length_wire]
    omega
  simp only [ne_eq, hlen, not_false_eq_true, if_true]

theorem decode_error (h : readHeader bs p = .error e) : decode p room bs = .error e := by
  unfold decode
  rw [h]

end Equations

/-! ## The grammar as a relation -/

/-- `Parses p bs ns`: the region `bs` is the concatenation of the TLVs `ns`, each with a CRC that
    holds if the policy `p` verifies, and each structured one's body parses in turn. -/
inductive Parses (p : CrcCheck) : Bytes → List Node → Prop
  | nil : Parses p [] []
  | leaf {c : Cell} {rest : Bytes} {ns : List Node} (hs : p = .VERIFY → c.Sealed)
      (hpl : c.opt.pl = false) (hrest : Parses p rest ns) :
      Parses p (c.wire ++ rest) (.mk c.header c.wire [] :: ns)
  | branch {c : Cell} {rest : Bytes} {kids ns : List Node} (hs : p = .VERIFY → c.Sealed)
      (hpl : c.opt.pl = true) (hkids : Parses p c.body kids) (hrest : Parses p rest ns) :
      Parses p (c.wire ++ rest) (.mk c.header c.wire kids :: ns)

variable {c : Cell} {rest : Bytes} {ns : List Node}

theorem Parses.root {nd : Node} (h : Parses p bs [nd]) : ∃ (c : Cell) (kids : List Node),
    bs = c.wire ∧ nd = .mk c.header c.wire kids ∧ (p = .VERIFY → c.Sealed) := by
  cases h with
  | leaf hs _ hrest | branch hs _ _ hrest =>
    cases hrest
    exact ⟨_, _, append_nil _, rfl, hs⟩

theorem parses_cell_iff : Parses p (c.wire ++ rest) ns ↔ (p = .VERIFY → c.Sealed) ∧ ∃ kids ns',
      ns = .mk c.header c.wire kids :: ns' ∧ Parses p (if c.opt.pl then c.body else []) kids ∧
        Parses p rest ns' := by
  constructor
  · intro h
    generalize hbs : c.wire ++ rest = bs at h
    cases h with
    | nil => exact absurd hbs (c.wire_ne_nil rest)
    | leaf hs hpl hrest =>
      obtain ⟨rfl, rfl⟩ := Cell.wire_append_inj hbs
      refine ⟨hs, [], _, rfl, ?_, hrest⟩
      rw [hpl]
      exact .nil
    | branch hs hpl hkids hrest =>
      obtain ⟨rfl, rfl⟩ := Cell.wire_append_inj hbs
      refine ⟨hs, _, _, rfl, ?_, hrest⟩
      rw [hpl]
      exact hkids
  · intro ⟨hs, kids, ns', hns, hkids, hrest⟩
    subst hns
    cases hpl : c.opt.pl
    · rw [hpl] at hkids
      cases hkids
      exact .leaf hs hpl hrest
    · rw [hpl] at hkids
      exact .branch hs hpl hkids hrest

/-- Bytes that are a run of frames. -/
def Formed (p : CrcCheck) (bs : Bytes) : Prop := ∃ ns, Parses p bs ns

theorem formed_nil (p : CrcCheck) : Formed p [] := ⟨[], .nil⟩

/-- A run of frames by its first one. -/
theorem formed_cell_iff : Formed p (c.wire ++ rest) ↔ (p = .VERIFY → c.Sealed) ∧
      Formed p (if c.opt.pl then c.body else []) ∧ Formed p rest := by
  constructor
  · intro ⟨ns, h⟩
    obtain ⟨hs, kids, ns', -, hkids, hrest⟩ := parses_cell_iff.mp h
    exact ⟨hs, ⟨kids, hkids⟩, ⟨ns', hrest⟩⟩
  · intro ⟨hs, ⟨kids, hkids⟩, ⟨ns', hrest⟩⟩
    exact ⟨_, parses_cell_iff.mpr ⟨hs, kids, ns', rfl, hkids, hrest⟩⟩

theorem formed_wire_iff :
    Formed p c.wire ↔ (p = .VERIFY → c.Sealed) ∧ Formed p (if c.opt.pl then c.body else []) := by
  have h : Formed p (c.wire ++ []) ↔ _ := formed_cell_iff
  rw [append_nil] at h
  rw [h]
  exact and_congr_right fun _ => and_iff_left (formed_nil p)

theorem formed_leaf_iff (hcr : c.opt.cr = false)
    (hpl : c.opt.pl = false) : Formed p (c.wire ++ rest) ↔ Formed p rest := by
  rw [formed_cell_iff, hpl]
  exact ⟨fun hall => hall.2.2, fun hrest => ⟨fun _ => Cell.sealed_of_cr hcr, formed_nil p, hrest⟩⟩

def wires (cs : List Cell) : Bytes := cs.flatMap Cell.wire

@[simp] theorem wires_nil : wires [] = [] := rfl

@[simp] theorem wires_cons (c : Cell) (cs : List Cell) : wires (c :: cs) = c.wire ++ wires cs := rfl

@[simp] theorem wires_append (cs ds : List Cell) : wires (cs ++ ds) = wires cs ++ wires ds :=
  flatMap_append

/-- Bytes are a run of cells in one way only. -/
theorem wires_inj {cs ds : List Cell} (h : wires ds = wires cs) : ds = cs := by
  induction cs generalizing ds with
  | nil =>
    cases ds with
    | nil => rfl
    | cons d ds => exact absurd h (d.wire_ne_nil _)
  | cons c cs ih =>
    cases ds with
    | nil => exact absurd h.symm (c.wire_ne_nil _)
    | cons d ds =>
      obtain ⟨rfl, hrest⟩ := Cell.wire_append_inj h
      rw [ih hrest]

theorem exists_wires (h : Formed p bs) : ∃ cs, bs = wires cs := by
  obtain ⟨ns, h⟩ := h
  induction h with
  | nil => exact ⟨[], rfl⟩
  | leaf _ _ _ ih | branch _ _ _ _ _ ih =>
    obtain ⟨cs, rfl⟩ := ih
    exact ⟨_ :: cs, rfl⟩

def leafNode (c : Cell) : Node := .mk c.header c.wire []

theorem parses_leaves {cs : List Cell} (h : ∀ c ∈ cs, c.opt = {}) :
    Parses p (wires cs) (cs.map leafNode) := by
  induction cs with
  | nil => exact .nil
  | cons c cs ih =>
    rw [forall_mem_cons] at h
    exact .leaf (fun _ => Cell.sealed_of_cr (by rw [h.1])) (by rw [h.1]) (ih h.2)

def unbounded : Nat → Bool := fun _ => true

@[simp] theorem unbounded_apply (d : Nat) : unbounded d = true := rfl

theorem decodeSeq_unbounded (p : CrcCheck) (depth : Nat) (bs : Bytes) :
    decodeSeq p unbounded depth bs = decodeSeq p unbounded 0 bs := by
  induction hn : bs.length using Nat.strongRecOn generalizing depth bs with
  | ind n ih =>
    subst hn
    by_cases hne : bs = []
    · subst hne
      rw [decodeSeq_nil, decodeSeq_nil]
    rcases readHeader_cases bs p with ⟨e, he⟩ | ⟨c, rest, rfl, hs⟩
    · rw [decodeSeq_error hne he, decodeSeq_error hne he]
    have hlen := c.length_body_lt
    have hbody := fun depth => ih c.body.length (by rw [length_append]; omega) depth c.body rfl
    rw [decodeSeq_cell c rest hs, decodeSeq_cell c rest hs, decodeKids, decodeKids, hbody,
      hbody (0 + 1), ih rest.length (by rw [length_append]; omega) depth rest rfl]
    rfl

theorem decodeKids_unbounded (p : CrcCheck) (depth : Nat) (c : Cell) : decodeKids p unbounded depth c =
      decodeSeq p unbounded 0 (if c.opt.pl then c.body else []) := by
  unfold decodeKids
  cases c.opt.pl
  · exact decodeSeq_nil.symm
  · exact decodeSeq_unbounded p (depth + 1) c.body

theorem except_bind_eq_ok {ε α β : Type} {x : Except ε α} {f : α → Except ε β} {b : β} :
    (x >>= f) = .ok b ↔ ∃ a, x = .ok a ∧ f a = .ok b := by
  cases x with
  | error e =>
    constructor
    · intro h; cases h
    · rintro ⟨a, h, -⟩; cases h
  | ok a =>
    constructor
    · intro h; exact ⟨a, rfl, h⟩
    · rintro ⟨a', h, hf⟩
      cases h
      exact hf

variable {room : Nat → Bool}

/-- What is decoded is well formed. -/
theorem parses_of_decodeSeq {depth : Nat} (h : decodeSeq p room depth bs = .ok ns) : Parses p bs ns := by
  -- induction on the length: a cell's body and what follows the cell are both shorter
  induction hn : bs.length using Nat.strongRecOn generalizing depth bs ns with
  | ind n ih =>
    subst hn
    by_cases hne : bs = []
    · subst hne
      rw [decodeSeq_nil] at h
      cases h
      exact .nil
    rcases readHeader_cases bs p with ⟨e, he⟩ | ⟨c, rest, rfl, hs⟩
    · rw [decodeSeq_error hne he] at h
      cases h
    rw [decodeSeq_cell c rest hs] at h
    obtain ⟨kids, hk, h⟩ := except_bind_eq_ok.mp h
    obtain ⟨ns', hrest, h⟩ := except_bind_eq_ok.mp h
    cases h
    have hlen := c.length_body_lt
    have hp := ih rest.length (by rw [length_append]; omega) hrest rfl
    unfold decodeKids at hk
    cases hpl : c.opt.pl
    · rw [hpl] at hk
      cases hk
      exact .leaf hs hpl hp
    · simp only [hpl, if_true] at hk
      split at hk
      · exact .branch hs hpl (ih c.body.length (by rw [length_append]; omega) hk rfl) hp
      · cases hk

/-- What is well formed is decoded, with room enough. -/
theorem decodeSeq_of_parses (h : Parses p bs ns) : ∀ depth, decodeSeq p unbounded depth bs = .ok ns := by
  induction h with
  | nil => intro depth; exact decodeSeq_nil
  | leaf hs hpl _ ih =>
    intro depth
    rw [decodeSeq_cell _ _ hs, decodeKids, hpl, ih depth]
    rfl
  | branch hs hpl _ _ ihk ih =>
    intro depth
    rw [decodeSeq_cell _ _ hs, decodeKids, hpl, ih depth]
    simp only [unbounded_apply, if_true]
    rw [ihk (depth + 1)]
    rfl

variable {n : Node}

theorem parses_of_decode (h : decode p room bs = .ok n) : Parses p bs [n] := by
  rcases readHeader_cases bs p with ⟨e, he⟩ | ⟨c, rest, rfl, hs⟩
  · rw [decode_error he] at h
    cases h
  by_cases hne : rest = []
  swap
  · rw [decode_trailing c hne hs] at h
    cases h
  subst hne
  -- a lone root is the first element of a region that ends behind it
  rw [append_nil, decode_cell c hs] at h
  obtain ⟨kids, hk, h⟩ := except_bind_eq_ok.mp h
  cases h
  have hseq : decodeSeq p room 0 (c.wire ++ []) = .ok [.mk c.header c.wire kids] := by
    rw [decodeSeq_cell c [] hs, hk, decodeSeq_nil]
    rfl
  exact parses_of_decodeSeq hseq

theorem decode_of_parses (h : Parses p bs [n]) : decode p unbounded bs = .ok n := by
  cases h with
  | leaf hs hpl hrest =>
    cases hrest
    rw [append_nil, decode_cell _ hs, decodeKids, hpl]
    rfl
  | branch hs hpl hkids hrest =>
    cases hrest
    rw [append_nil, decode_cell _ hs, decodeKids, hpl]
    simp only [unbounded_apply, if_true]
    rw [decodeSeq_of_parses hkids 1]
    rfl

end LibTracer.Wire.Grammar
