import LibTracer.Wire.Decode
import Mathlib.Data.List.Forall2
import Mathlib.Order.WellFounded

/-!
# The iterative walk

* `walk_eq_decode` : for every lawful cursor and sink, `walk` is the recursive decoder followed by
  a replay of the tree.
-/

namespace LibTracer.Wire.Grammar

open Window List
open Crc (Bytes)

/-! ## Replaying a tree into a sink -/

section Replay

variable {σ : Type} (sink : Sink Bytes σ)

mutual

def Node.replay : Node → σ → σ
  | .mk h bytes kids, s =>
    if h.opt.pl then sink.onClose (replayAll kids (sink.onOpen h bytes s))
    else sink.onLeaf h bytes s

def replayAll : List Node → σ → σ
  | [], s => s
  | n :: ns, s => replayAll ns (n.replay s)

end

variable {sink} {s : σ}

mutual

theorem Node.replay_of_fixed (hopen : ∀ h b, sink.onOpen h b s = s)
    (hleaf : ∀ h b, sink.onLeaf h b s = s) (hclose : sink.onClose s = s) : ∀ n : Node, n.replay sink s = s
  | .mk h bytes kids => by
    rw [Node.replay]
    split
    · rw [hopen, replayAll_of_fixed hopen hleaf hclose kids, hclose]
    · exact hleaf h bytes

theorem replayAll_of_fixed (hopen : ∀ h b, sink.onOpen h b s = s)
    (hleaf : ∀ h b, sink.onLeaf h b s = s) (hclose : sink.onClose s = s) :
    ∀ ns : List Node, replayAll sink ns s = s
  | [] => rfl
  | n :: ns => by
    rw [replayAll, n.replay_of_fixed hopen hleaf hclose, replayAll_of_fixed hopen hleaf hclose ns]

end

end Replay

/-! ## Room for open nodes -/

namespace WalkStack

/-- The capacity after `k` growths. -/
def capAfter (cap : Nat) (k : Nat) : Nat := nextCap^[k] cap

/-- Does the source serve the `k`th request? -/
def grants (spill : Option BlockSource) (k : Nat) : Bool :=
  match spill with
  | none => false
  | some s => s k

/-- A stack of `cap` inline slots can hold one more than `d` frames: every growth that takes is
    served. -/
def room (cap : Nat) (spill : Option BlockSource) (d : Nat) : Bool :=
  (List.range (d + 1)).all fun k => decide (d < capAfter cap k) || grants spill k

theorem capAfter_strictMono (cap : Nat) : StrictMono (capAfter cap) := by
  apply strictMono_nat_of_lt_succ
  intro k
  have hstep : capAfter cap (k + 1) = nextCap (capAfter cap k) :=
    Function.iterate_succ_apply' nextCap k cap
  rw [hstep]
  unfold nextCap
  split <;> omega

variable {cap : Nat}

theorem room_iff {spill : Option BlockSource} {d : Nat} :
    room cap spill d = true ↔ ∀ k, capAfter cap k ≤ d → grants spill k = true := by
  simp only [room, all_eq_true, mem_range, Bool.or_eq_true, decide_eq_true_eq]
  constructor
  · intro h k hk
    have hle := (capAfter_strictMono cap).le_apply (x := k)
    exact (h k (by omega)).resolve_left (by omega)
  · intro h k _
    by_cases hk : capAfter cap k ≤ d
    · exact .inr (h k hk)
    · exact .inl (by omega)

/-- How a stack that began with `cap` inline slots got where it is. -/
structure Grown {C : Type} (cap : Nat) (st : WalkStack C) : Prop where
  cap_eq : st.cap = capAfter cap st.draws
  served : ∀ k, k < st.draws → grants st.spill k = true
  len_le : st.frames.length ≤ st.cap

/-- **A push succeeds exactly when there is room**, and leaves a stack that got there alike. -/
theorem Grown.push {C : Type} {st : WalkStack C} (hg : Grown cap st) (f : WalkFrame C) :
    (room cap st.spill st.frames.length = false ∧ st.push f = none) ∨
    (room cap st.spill st.frames.length = true ∧ ∃ st', st.push f = some st' ∧
      st'.frames = f :: st.frames ∧ st'.spill = st.spill ∧ Grown cap st') := by
  obtain ⟨hcap, hserved, hlen⟩ := hg
  have hmono := capAfter_strictMono cap
  unfold WalkStack.push
  split
  · -- the stack is full: the next request decides
    have hroom : room cap st.spill st.frames.length = grants st.spill st.draws := by
      rw [Bool.eq_iff_iff, room_iff]
      constructor
      · intro h
        exact h st.draws (by omega)
      · intro h k hk
        rcases Nat.lt_trichotomy k st.draws with hlt | rfl | hgt
        · exact hserved k hlt
        · exact h
        · have := hmono hgt
          omega
    rw [hroom]
    unfold grow
    cases hsp : st.spill with
    | none => exact .inl ⟨rfl, rfl⟩
    | some src =>
      simp only [grants]
      cases hsrc : src st.draws
      · exact .inl ⟨rfl, rfl⟩
      · refine .inr ⟨rfl, _, rfl, rfl, hsp.symm ▸ rfl, ?_, ?_, ?_⟩
        · show nextCap st.cap = capAfter cap (st.draws + 1)
          rw [hcap]
          exact (Function.iterate_succ_apply' nextCap st.draws cap).symm
        · intro k hk
          rcases Nat.lt_succ_iff_lt_or_eq.mp hk with hlt | rfl
          · exact hsp ▸ hserved k hlt
          · exact hsrc
        · show st.frames.length + 1 ≤ nextCap st.cap
          unfold nextCap
          split <;> omega
  · have hroom : room cap st.spill st.frames.length = true := by
      rw [room_iff]
      intro k hk
      apply hserved
      by_contra hge
      have := hmono.monotone (show st.draws ≤ k by omega)
      omega
    refine .inr ⟨hroom, _, rfl, rfl, rfl, hcap, hserved, ?_⟩
    show st.frames.length + 1 ≤ st.cap
    omega

end WalkStack

/-! ## The loop -/

section Walk

variable {C : Type} [Cursor C] [LawfulCursor C] {σ : Type}

open LawfulCursor

/-- A sink over cursors that sees nothing but the bytes its cursors read. -/
structure Tracks (sink : Sink C σ) (bsink : Sink Bytes σ) : Prop where
  onOpen : ∀ {h : Header} {c : C} {bs : Bytes} {s : σ}, Reads c bs →
    sink.onOpen h c s = bsink.onOpen h bs s
  onLeaf : ∀ {h : Header} {c : C} {bs : Bytes} {s : σ}, Reads c bs →
    sink.onLeaf h c s = bsink.onLeaf h bs s
  onClose : ∀ {s : σ}, sink.onClose s = bsink.onClose s

def Owes (f : WalkFrame C) (r : Bytes) : Prop :=
  ∃ bs, Reads f.body bs ∧ f.pos ≤ bs.length ∧ r = bs.drop f.pos

/-- What remains to be done when the regions `rs` are open, innermost first. -/
def resume (p : CrcCheck) (room : Nat → Bool) (bsink : Sink Bytes σ) :
    List Bytes → σ → Except Err σ
  | [], s => .ok s
  | r :: rs, s => do
    let ns ← decodeSeq p room (rs.length + 1) r
    resume p room bsink rs (bsink.onClose (replayAll bsink ns s))

def owed (rs : List Bytes) : Nat := (rs.map fun r => r.length + 1).sum

@[simp] theorem owed_nil : owed [] = 0 := rfl

@[simp] theorem owed_cons (r : Bytes) (rs : List Bytes) :
    owed (r :: rs) = r.length + 1 + owed rs := by simp [owed]

variable {p : CrcCheck} {bsink : Sink Bytes σ}

theorem resume_cell {room : Nat → Bool} (c : Cell)
    (rest : Bytes) (rs : List Bytes) (s : σ) (hs : p = .VERIFY → c.Sealed) :
    resume p room bsink ((c.wire ++ rest) :: rs) s = (do
      let kids ← decodeKids p room (rs.length + 1) c
      resume p room bsink (rest :: rs) ((Node.mk c.header c.wire kids).replay bsink s)) := by
  simp only [resume, decodeSeq_cell c rest hs]
  cases decodeKids p room (rs.length + 1) c with
  | error e => rfl
  | ok kids =>
    show (decodeSeq p room (rs.length + 1) rest >>= _) >>= _ = _
    cases decodeSeq p room (rs.length + 1) rest with
    | error e => rfl
    | ok ns => rfl

variable {f : WalkFrame C} {c : Cell} {r : Bytes}

theorem Owes.region_reads {rest : Bytes} (h : Owes f (c.wire ++ rest)) :
    Reads (Cursor.region f.body f.pos c.header.total) c.wire ∧
    Owes { f with pos := f.pos + c.header.total } rest := by
  obtain ⟨bs, hr, hle, hbs⟩ := h
  have hlen : f.pos + c.header.total + rest.length = bs.length := by
    have := congrArg List.length hbs
    rw [length_append, c.length_wire, length_drop] at this
    omega
  have hwire : window bs f.pos c.header.total = c.wire := by
    rw [window, ← hbs, ← c.length_wire, take_left]
  refine ⟨hwire ▸ LawfulCursor.region_reads hr (by omega), bs, hr, ?_, ?_⟩
  · show f.pos + c.header.total ≤ bs.length
    omega
  · rw [← drop_drop, ← hbs, c.drop_wire]

theorem Owes.parse (h : Owes f r) (p : CrcCheck) :
    parseHeader (Cursor.region f.body f.pos (Cursor.size f.body - f.pos)) p = readHeader r p := by
  obtain ⟨bs, hr, hle, rfl⟩ := h
  rw [size_eq hr, parseHeader_reads (LawfulCursor.region_reads hr (by omega)), window_rest (by omega)]

theorem Owes.nil_iff (h : Owes f r) : f.pos = Cursor.size f.body ↔ r = [] := by
  obtain ⟨bs, hr, hle, rfl⟩ := h
  rw [size_eq hr, drop_eq_nil_iff]
  omega

theorem owes_body {node : C} (hr : Reads node c.wire) :
    Owes ⟨Cursor.region node c.header.header c.header.length, 0⟩ c.body := by
  have hbody := c.window_body []
  have hlen := c.length_wire
  rw [append_nil] at hbody
  refine ⟨c.body, ?_, Nat.zero_le _, rfl⟩
  have h : Reads (Cursor.region node c.opt.header c.body.length)
      (window c.wire c.opt.header c.body.length) :=
    LawfulCursor.region_reads hr (by rw [hlen]; simp only [Cell.header]; omega)
  rwa [hbody] at h

variable {sink : Sink C σ}

/-- **One round and all the rest**: from any stack the loop does what the open regions still owe,
    in at most `owed` rounds. -/
theorem walkLoop_eq
    (ht : Tracks sink bsink) (cap : Nat) (fuel : Nat) (st : WalkStack C) (rs : List Bytes) (s : σ)
    (hg : WalkStack.Grown cap st) (ho : List.Forall₂ Owes st.frames rs) (hf : owed rs < fuel) :
    walkLoop sink p fuel st s = resume p (WalkStack.room cap st.spill) bsink rs s := by
  induction fuel generalizing st rs s with
  | zero => omega
  | succ fuel ih =>
    unfold walkLoop
    obtain ⟨frames, stcap, spill, draws⟩ := st
    cases ho with
    | nil => rfl
    | @cons top r below rs htop hbelow =>
      simp only [owed_cons] at hf
      by_cases hnil : r = []
      · -- the innermost node is complete
        subst hnil
        simp only [if_pos (htop.nil_iff.mpr rfl), ht.onClose, resume, decodeSeq_nil]
        refine ih ⟨below, stcap, spill, draws⟩ rs _ ⟨hg.cap_eq, hg.served, ?_⟩ hbelow (by omega)
        exact Nat.le_of_succ_le hg.len_le
      simp only [if_neg (mt htop.nil_iff.mp hnil), htop.parse p]
      rcases readHeader_cases r p with ⟨e, he⟩ | ⟨c, rest, rfl, hs⟩
      · simp only [he, resume, decodeSeq_error hnil he]
        rfl
      obtain ⟨hnode, hrest⟩ := htop.region_reads
      have hlen := c.length_body_lt
      rw [length_append] at hf
      have hg' : WalkStack.Grown cap
          ⟨{ top with pos := top.pos + c.header.total } :: below, stcap, spill, draws⟩ :=
        ⟨hg.cap_eq, hg.served, hg.len_le⟩
      rw [resume_cell c rest rs s hs]
      simp only [c.readHeader_wire rest p hs, ht.onOpen hnode, ht.onLeaf hnode]
      have hopt : c.header.opt = c.opt := rfl
      cases hpl : c.opt.pl
      · -- an opaque child
        simp only [hopt, hpl, Bool.false_eq_true, if_false, decodeKids]
        rw [ih _ (rest :: rs) _ hg' (.cons hrest hbelow) (by simp only [owed_cons]; omega)]
        simp only [Node.replay, hopt, hpl, Bool.false_eq_true, if_false]
        rfl
      · -- a structured child: the receiver must have room to open it
        have hrlen : below.length = rs.length := hbelow.length_eq
        simp only [hopt, hpl, if_true, decodeKids]
        rcases hg'.push ⟨Cursor.region (Cursor.region top.body top.pos c.header.total)
            c.header.header c.header.length, 0⟩ with ⟨hroom, hpush⟩ | ⟨hroom, st', hpush, hfr, hsp, hgr⟩
        · simp only [length_cons, hrlen] at hroom
          simp only [hpush, hroom]
          rfl
        simp only [length_cons, hrlen] at hroom
        simp only [hpush, hroom, if_true]
        rw [ih st' (c.body :: rest :: rs) _ hgr
          (hfr ▸ .cons (owes_body hnode) (.cons hrest hbelow)) (by simp only [owed_cons]; omega),
          hsp, resume]
        simp only [Node.replay, hopt, hpl, if_true]
        rfl

/-- **The walk is the recursive decoder**, with the tree replayed into the sink; an accepted or
    refused frame is so for the same reason, and the loop always ends. -/
theorem walk_eq_decode (ht : Tracks sink bsink) {root : C} {bs : Bytes} (hr : Reads root bs) (cap : Nat)
    (spill : Option BlockSource) (s : σ) : walk root sink ⟨[], cap, spill, 0⟩ p s =
      (decode p (WalkStack.room cap spill) bs).map fun n => n.replay bsink s := by
  unfold walk
  rw [parseHeader_reads hr, size_eq hr]
  rcases readHeader_cases bs p with ⟨e, he⟩ | ⟨c, rest, rfl, hs⟩
  · rw [decode_error he, he]
    rfl
  rw [c.readHeader_wire rest p hs]
  by_cases hne : rest = []
  swap
  · rw [decode_trailing c hne hs]
    have hlen : c.header.total ≠ (c.wire ++ rest).length := by
      have := length_pos_iff.mpr hne
      rw [length_append, c.length_wire]
      omega
    simp only [ne_eq, hlen, not_false_eq_true, if_true]
    rfl
  subst hne
  rw [append_nil] at hr ⊢
  rw [decode_cell c hs, decodeKids]
  have hopt : c.header.opt = c.opt := rfl
  have hlen := c.length_body_lt
  simp only [ne_eq, c.length_wire, not_true_eq_false, if_false, hopt, ht.onOpen hr, ht.onLeaf hr]
  cases hpl : c.opt.pl
  · simp only [Bool.not_false, if_true, Bool.false_eq_true, if_false]
    show _ = Except.ok _
    simp only [Node.replay, hopt, hpl, Bool.false_eq_true, if_false]
  · simp only [Bool.not_true, Bool.false_eq_true, if_false, if_true]
    have hg : WalkStack.Grown cap (⟨[], cap, spill, 0⟩ : WalkStack C) :=
      ⟨rfl, fun k hk => absurd hk (Nat.not_lt_zero k), Nat.zero_le cap⟩
    rcases hg.push ⟨Cursor.region root c.header.header c.header.length, 0⟩ with
      ⟨hroom, hpush⟩ | ⟨hroom, st', hpush, hfr, hsp, hgr⟩
    · simp only [length_nil] at hroom
      simp only [hpush, hroom]
      rfl
    simp only [length_nil] at hroom
    simp only [hpush, hroom, if_true]
    rw [walkLoop_eq ht cap _ st' [c.body] _ hgr (hfr ▸ .cons (owes_body hr) .nil)
      (by rw [← c.length_wire]; simp only [owed_cons, owed_nil]; omega),
      hsp]
    simp only [resume, length_nil, zero_add]
    cases decodeSeq p (WalkStack.room cap spill) 1 c.body with
    | error e => rfl
    | ok ns =>
      show Except.ok _ = Except.ok _
      simp only [Node.replay, hopt, hpl, if_true]

end Walk

end LibTracer.Wire.Grammar
