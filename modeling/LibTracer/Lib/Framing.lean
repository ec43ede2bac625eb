import Mathlib.Data.List.Induction

/-!
# Framed byte streams

A stream is a sequence of frames: a header that tells how long the body is, then the body.  A framing
judges a header as far as it has come, draws the store of a body, and takes each whole body.  The decoder
reads byte by byte, so the cut cannot matter to it; a program that reads in pieces is compared with it.

* **`decode_append`** — a run over two pieces is the run over the one and then over the other.
-/

/-- What the bytes of a header say so far: more are needed, the stream is refused, or the header took
`size` bytes and a body of `len` follows. -/
inductive Verdict where
  | more
  | close
  | body (size len : Nat)
  deriving DecidableEq, Repr

/-- A framing over the states `φ` of the receiving end and its outputs `ω`. -/
structure Framing (φ ω : Type) where
  header : φ → List UInt8 → Verdict
  /-- The stream is refused at these bytes. -/
  close : φ → List UInt8 → φ × List ω
  /-- A header is whole. -/
  enter : φ → List UInt8 → φ
  /-- The store of a body is drawn: the bytes it holds, or a refusal. -/
  draw : φ → Nat → φ × List ω × Option (List UInt8)
  /-- A body is whole: its bytes, or none if the store was refused.  False closes the stream. -/
  body : φ → Option (List UInt8) → Nat → φ × List ω × Bool

namespace Framing

open List

/-- Where the decoder stands: in a header, in a body of which `left` bytes are missing, or done. -/
inductive Decoder (φ : Type) where
  | header (f : φ) (got : List UInt8)
  | body (f : φ) (len : Nat) (block : Option (List UInt8)) (left : Nat)
  | closed (f : φ)
  deriving Repr

def Decoder.isClosed {φ : Type} : Decoder φ → Bool
  | .closed _ => true
  | _ => false

def Decoder.ending {φ : Type} : Decoder φ → φ
  | .header f _ => f
  | .body f _ _ _ => f
  | .closed f => f

/-- A run of the decoder; `rest` is what it did not read. -/
structure Decoded (φ ω : Type) where
  state : Decoder φ
  outs : List ω
  rest : List UInt8

variable {φ ω : Type} (F : Framing φ ω)

/-! ## The decoder -/

/-- A header is whole and announces `len` bytes; none is drawn for an empty body. -/
def begins (f : φ) (hdr : List UInt8) (len : Nat) : φ × List ω × Option (List UInt8) :=
  if len = 0 then (F.enter f hdr, [], none) else F.draw (F.enter f hdr) len

def finish (f : φ) (block : Option (List UInt8)) (len : Nat) : Decoder φ × List ω :=
  (if (F.body f block len).2.2 then .header (F.body f block len).1 [] else .closed (F.body f block len).1,
    (F.body f block len).2.1)

def start (f : φ) (hdr : List UInt8) (len : Nat) : Decoder φ × List ω :=
  let r := F.begins f hdr len
  if len = 0 then ((F.finish r.1 none 0).1, r.2.1 ++ (F.finish r.1 none 0).2)
  else (.body r.1 len (r.2.2.map fun _ => []) len, r.2.1)

theorem start_pos {len : Nat} (h : len ≠ 0) (f : φ) (hdr : List UInt8) : F.start f hdr len =
      (.body (F.draw (F.enter f hdr) len).1 len ((F.draw (F.enter f hdr) len).2.2.map fun _ => []) len,
        (F.draw (F.enter f hdr) len).2.1) := by
  rw [start, begins, if_neg h, if_neg h]

def step : Decoder φ → UInt8 → Decoder φ × List ω
  | .header f got, b =>
    match F.header f (got ++ [b]) with
    | .more => (.header f (got ++ [b]), [])
    | .close => (.closed (F.close f (got ++ [b])).1, (F.close f (got ++ [b])).2)
    | .body _ len => F.start f (got ++ [b]) len
  | .body f len block left, b =>
    if left = 1 then F.finish f (block.map (· ++ [b])) len
    else (.body f len (block.map (· ++ [b])) (left - 1), [])
  | .closed f, _ => (.closed f, [])

def decode : Decoder φ → List UInt8 → Decoded φ ω
  | s, [] => ⟨s, [], []⟩
  | s, b :: bs =>
    if s.isClosed then ⟨s, [], b :: bs⟩
    else
      let t := decode (F.step s b).1 bs
      ⟨t.state, (F.step s b).2 ++ t.outs, t.rest⟩

@[simp] theorem decode_nil (s : Decoder φ) : F.decode s [] = ⟨s, [], []⟩ := rfl

variable {s : Decoder φ}

theorem decode_of_closed (h : s.isClosed = true) (bs : List UInt8) : F.decode s bs = ⟨s, [], bs⟩ := by
  cases bs with
  | nil => rfl
  | cons b bs => rw [decode, if_pos h]

theorem decode_cons (h : s.isClosed = false) (b : UInt8) (bs : List UInt8) : F.decode s (b :: bs) =
      ⟨(F.decode (F.step s b).1 bs).state, (F.step s b).2 ++ (F.decode (F.step s b).1 bs).outs,
        (F.decode (F.step s b).1 bs).rest⟩ := by
  rw [decode, if_neg (by rw [h]; decide)]

def Decoded.andThen (r : Decoded φ ω) (bs : List UInt8) : Decoded φ ω :=
  if r.state.isClosed then ⟨r.state, r.outs, r.rest ++ bs⟩
  else ⟨(F.decode r.state bs).state, r.outs ++ (F.decode r.state bs).outs, (F.decode r.state bs).rest⟩

/-- **The decoder does not depend on where a stream is cut.** -/
theorem decode_append (s : Decoder φ) (xs ys : List UInt8) :
    F.decode s (xs ++ ys) = (F.decode s xs).andThen F ys := by
  induction xs generalizing s with
  | nil =>
    by_cases hs : s.isClosed = true
    · rw [nil_append, decode_of_closed F hs, decode_nil, Decoded.andThen, if_pos hs]
      rfl
    · rw [decode_nil, Decoded.andThen, if_neg hs]
      rfl
  | cons b xs ih =>
    cases hs : s.isClosed with
    | true =>
      rw [decode_of_closed F hs, decode_of_closed F hs, Decoded.andThen, if_pos hs]
    | false =>
      rw [cons_append, decode_cons F hs, decode_cons F hs, ih]
      simp only [Decoded.andThen]
      split
      · rfl
      · simp only [append_assoc]

theorem length_rest_le (s : Decoder φ) (bs : List UInt8) : (F.decode s bs).rest.length ≤ bs.length := by
  induction bs generalizing s with
  | nil => exact Nat.le_refl _
  | cons b bs ih =>
    cases hs : s.isClosed with
    | true => exact Nat.le_of_eq (by rw [decode_of_closed F hs])
    | false =>
      rw [decode_cons F hs]
      exact Nat.le_trans (ih _) (Nat.le_succ _)

variable {r : Decoder φ × List ω} {xs : List UInt8} {d : Decoder φ} {f : φ}

theorem decode_append_of_open
    (h : F.decode s xs = ⟨r.1, r.2, []⟩) (hr : r.1.isClosed = false) (ys : List UInt8) :
    F.decode s (xs ++ ys) =
      ⟨(F.decode r.1 ys).state, r.2 ++ (F.decode r.1 ys).outs, (F.decode r.1 ys).rest⟩ := by
  rw [decode_append, h, Decoded.andThen, if_neg (by rw [hr]; decide)]

theorem decode_append_of_eq (h : F.decode s xs = ⟨r.1, r.2, []⟩) (ys : List UInt8) :
    F.decode s (xs ++ ys) =
      ⟨(F.decode r.1 ys).state, r.2 ++ (F.decode r.1 ys).outs, (F.decode r.1 ys).rest⟩ := by
  cases hr : r.1.isClosed with
  | false => exact F.decode_append_of_open h hr ys
  | true =>
    rw [decode_append, h, Decoded.andThen, if_pos hr, decode_of_closed F hr, append_nil]
    rfl

/-! ## Bodies -/

variable {bs : List UInt8}

theorem decode_body_of_lt (f : φ) (len : Nat) (block : Option (List UInt8)) {left : Nat}
    (h : bs.length < left) : F.decode (.body f len block left) bs =
      ⟨.body f len (block.map (· ++ bs)) (left - bs.length), [], []⟩ := by
  induction bs generalizing block left with
  | nil => cases block <;> simp
  | cons b bs ih =>
    rw [length_cons] at h
    have hstep : F.step (.body f len block left) b =
        (.body f len (block.map (· ++ [b])) (left - 1), []) := by
      rw [step, if_neg (by omega)]
    rw [decode_cons F rfl, hstep, ih _ (by omega), Option.map_map, length_cons]
    have hleft : left - 1 - bs.length = left - (bs.length + 1) := by omega
    rw [hleft]
    cases block <;> simp

/-- **The last byte of a body hands it up.** -/
theorem decode_body (f : φ) (len : Nat) (block : Option (List UInt8)) {left : Nat}
    (h : bs.length = left) (hpos : 0 < left) : F.decode (.body f len block left) bs =
      ⟨(F.finish f (block.map (· ++ bs)) len).1, (F.finish f (block.map (· ++ bs)) len).2, []⟩ := by
  obtain ⟨init, b, hbs⟩ := (eq_nil_or_concat bs).resolve_left (by
    intro hnil
    rw [hnil] at h
    exact absurd h (Nat.ne_of_lt hpos))
  rw [concat_eq_append] at hbs
  subst hbs
  rw [length_append, length_singleton] at h
  have hinit := F.decode_body_of_lt f len block (show init.length < left by omega)
  have hone : left - init.length = 1 := by omega
  rw [hone] at hinit
  have hstep : F.step (.body f len (block.map (· ++ init)) 1) b =
      F.finish f (block.map (· ++ (init ++ [b]))) len := by
    rw [step, if_pos rfl, Option.map_map]
    congr 1
    cases block <;> simp
  rw [F.decode_append_of_open (r := (_, _)) hinit rfl, decode_cons F rfl, hstep, decode_nil]
  simp

theorem decode_start (f : φ) (hdr : List UInt8) {len : Nat} (h : len ≤ bs.length)
    (hr : r = F.finish (F.begins f hdr len).1 ((F.begins f hdr len).2.2.map fun _ => bs.take len) len) :
    (F.decode (F.start f hdr len).1 bs).state = (F.decode r.1 (bs.drop len)).state ∧
      (F.start f hdr len).2 ++ (F.decode (F.start f hdr len).1 bs).outs =
        (F.begins f hdr len).2.1 ++ (r.2 ++ (F.decode r.1 (bs.drop len)).outs) ∧
      (F.decode (F.start f hdr len).1 bs).rest = (F.decode r.1 (bs.drop len)).rest := by
  by_cases hlen : len = 0
  · subst hlen
    subst hr
    exact ⟨rfl, rfl, rfl⟩
  have hbegin : F.begins f hdr len = F.draw (F.enter f hdr) len := if_neg hlen
  have htake : (bs.take len).length = len := by rw [length_take, Nat.min_eq_left h]
  have hbody := F.decode_body (F.draw (F.enter f hdr) len).1 len
    ((F.draw (F.enter f hdr) len).2.2.map fun _ => []) htake (Nat.pos_of_ne_zero hlen)
  have hblock : ((F.draw (F.enter f hdr) len).2.2.map fun _ => ([] : List UInt8)).map
      (· ++ bs.take len) = (F.draw (F.enter f hdr) len).2.2.map fun _ => bs.take len := by
    rw [Option.map_map]
    rfl
  rw [hblock, ← hbegin, ← hr] at hbody
  have hall := F.decode_append_of_eq (r := r) hbody (bs.drop len)
  rw [take_append_drop] at hall
  rw [start_pos F hlen, ← hbegin, hall]
  exact ⟨rfl, rfl, rfl⟩

structure Keeps (P : φ → Prop) : Prop where
  close : ∀ {f}, P f → ∀ h, P (F.close f h).1
  enter : ∀ {f}, P f → ∀ h, P (F.enter f h)
  draw : ∀ {f}, P f → ∀ len, P (F.draw f len).1
  body : ∀ {f}, P f → ∀ block len, P (F.body f block len).1

section

variable {F} {P : φ → Prop} (K : F.Keeps P)

include K

theorem Keeps.finish (h : P f) (block : Option (List UInt8)) (len : Nat) :
    P (F.finish f block len).1.ending := by
  rw [Framing.finish]
  dsimp only
  split
  all_goals exact K.body h block len

theorem Keeps.step (h : P d.ending) (b : UInt8) : P (F.step d b).1.ending := by
  cases d with
  | header f got =>
    rw [Framing.step]
    cases F.header f (got ++ [b]) with
    | more => exact h
    | close => exact K.close h _
    | body size len =>
      by_cases hlen : len = 0
      · subst hlen
        exact K.finish (K.enter h _) none 0
      show P (F.start f (got ++ [b]) len).1.ending
      rw [start_pos F hlen]
      exact K.draw (K.enter h _) len
  | body f len block left =>
    rw [Framing.step]
    split
    · exact K.finish h _ len
    · exact h
  | closed f => exact h

/-- **What every act of the end keeps, a run keeps.** -/
theorem Keeps.decode {d : Decoder φ} (h : P d.ending) (bs : List UInt8) :
    P (F.decode d bs).state.ending := by
  induction bs generalizing d with
  | nil => exact h
  | cons b bs ih =>
    cases hd : d.isClosed with
    | true =>
      rw [decode_of_closed F hd]
      exact h
    | false =>
      rw [decode_cons F hd]
      exact ih (K.step h b)

end

/-! ## Headers -/

/-- What a reader in pieces needs of a framing: it waits only for as much as a header may have, more bytes
change no verdict, a body's length fits 32 bits, and a store has the size asked for. -/
structure Lawful (maxHeader : Nat) : Prop where
  more_nil : ∀ {f}, F.header f [] = .more
  more_lt : ∀ {f h}, F.header f h = .more → h.length < maxHeader
  size_pos : ∀ {f h size len}, F.header f h = .body size len → 0 < size
  size_le : ∀ {f h size len}, F.header f h = .body size len → size ≤ h.length
  body_stable : ∀ {f h size len}, F.header f h = .body size len →
    ∀ t, F.header f (h.take size ++ t) = .body size len
  enter_take : ∀ {f h size len}, F.header f h = .body size len → F.enter f h = F.enter f (h.take size)
  close_stable : ∀ {f h}, F.header f h = .close → ∀ t, F.header f (h ++ t) = .close
  close_eq : ∀ {f h}, F.header f h = .close → ∀ t, F.close f (h ++ t) = F.close f h
  len_lt : ∀ {f h size len}, F.header f h = .body size len → len < 4294967296
  draw_length : ∀ {f len seg}, (F.draw f len).2.2 = some seg → seg.length = len

namespace Lawful

variable {F} {maxHeader : Nat} (L : F.Lawful maxHeader) {f : φ} {h : List UInt8}

include L

theorem more_take (hm : F.header f h = .more) (k : Nat) : F.header f (h.take k) = .more := by
  cases hk : F.header f (h.take k) with
  | more => rfl
  | close =>
    have := L.close_stable hk (h.drop k)
    rw [take_append_drop, hm] at this
    cases this
  | body size len =>
    have hle := L.size_le hk
    have := L.body_stable hk (h.drop size)
    rw [take_take, Nat.min_eq_left (Nat.le_trans hle (length_take_le k h)), take_append_drop, hm] at this
    cases this

variable {len : Nat}

theorem more_of_lt {size k : Nat} (hb : F.header f h = .body size len) (hk : k < size) :
    F.header f (h.take k) = .more := by
  cases hv : F.header f (h.take k) with
  | more => rfl
  | close =>
    have := L.close_stable hv (h.drop k)
    rw [take_append_drop, hb] at this
    cases this
  | body size' len' =>
    have hle := Nat.le_trans (L.size_le hv) (length_take_le k h)
    have hsize := L.body_stable hv (h.drop size')
    rw [take_take, Nat.min_eq_left hle, take_append_drop, hb] at hsize
    cases hsize
    exact absurd hle (Nat.not_le.mpr hk)

theorem decode_of_more (hm : F.header f h = .more) :
    F.decode (.header f []) h = ⟨.header f h, [], []⟩ := by
  induction h using List.reverseRecOn with
  | nil => rfl
  | append_singleton h b ih =>
    have hprev := L.more_take hm h.length
    rw [take_left'] at hprev
    · have hstep : F.step (.header f h) b = (.header f (h ++ [b]), []) := by rw [step, hm]
      rw [F.decode_append_of_open (r := (_, _)) (ih hprev) rfl, decode_cons F rfl, hstep, decode_nil]
      rfl
    · rfl

theorem decode_resume (hm : F.header f h = .more) (bs : List UInt8) :
    F.decode (.header f h) bs = F.decode (.header f []) (h ++ bs) := by
  rw [F.decode_append_of_open (r := (_, _)) (L.decode_of_more hm) rfl, nil_append]

/-- **A whole header starts its body.** -/
theorem decode_of_body {size : Nat} (hb : F.header f h = .body size len) :
    F.decode (.header f []) (h.take size) = ⟨(F.start f h len).1, (F.start f h len).2, []⟩ := by
  have hpos := L.size_pos hb
  have hle := L.size_le hb
  have hlast : (h.take size).length = size := by rw [length_take, Nat.min_eq_left hle]
  obtain ⟨init, b, hinit⟩ := (eq_nil_or_concat (h.take size)).resolve_left (by
    intro hnil
    rw [hnil] at hlast
    exact absurd hlast (Nat.ne_of_lt hpos))
  rw [concat_eq_append] at hinit
  have hlen : init.length = size - 1 := by
    have := congrArg List.length hinit
    rw [hlast, length_append, length_singleton] at this
    omega
  have htake : h.take (size - 1) = init := by
    have := congrArg (List.take (size - 1)) hinit
    rwa [take_take, Nat.min_eq_left (by omega), take_left' hlen] at this
  have hmore : F.header f init = .more := by
    rw [← htake]
    exact L.more_of_lt hb (by omega)
  have hwhole : F.header f (init ++ [b]) = .body size len := by
    have := L.body_stable hb []
    rwa [append_nil, hinit] at this
  have hstart : F.start f (init ++ [b]) len = F.start f h len := by
    rw [start, start, begins, begins, L.enter_take hb, hinit]
  have hstep : F.step (.header f init) b = F.start f h len := by
    rw [step, hwhole]
    exact hstart
  rw [hinit, F.decode_append_of_open (r := (_, _)) (L.decode_of_more hmore) rfl, decode_cons F rfl,
    hstep, decode_nil]
  simp

theorem decode_closes {b : UInt8} (hm : F.header f h = .more) (hc : F.header f (h ++ [b]) = .close) :
    F.decode (.header f []) (h ++ [b]) =
      ⟨.closed (F.close f (h ++ [b])).1, (F.close f (h ++ [b])).2, []⟩ := by
  have hstep : F.step (.header f h) b =
      (.closed (F.close f (h ++ [b])).1, (F.close f (h ++ [b])).2) := by rw [step, hc]
  rw [F.decode_append_of_open (r := (_, _)) (L.decode_of_more hm) rfl, decode_cons F rfl, hstep,
    decode_nil]
  simp

/-- **A header that breaks the rules closes the stream.** -/
theorem decode_of_close (hc : F.header f h = .close) :
    (F.decode (.header f []) h).state = .closed (F.close f h).1 ∧
      (F.decode (.header f []) h).outs = (F.close f h).2 := by
  induction h using List.reverseRecOn with
  | nil =>
    rw [L.more_nil] at hc
    cases hc
  | append_singleton h b ih =>
    cases hv : F.header f h with
    | more =>
      rw [L.decode_closes hv hc]
      exact ⟨rfl, rfl⟩
    | close =>
      obtain ⟨hstate, houts⟩ := ih hv
      have hclosed : (F.decode (.header f []) h).state.isClosed = true := by rw [hstate]; rfl
      rw [decode_append, Decoded.andThen, if_pos hclosed, L.close_eq hv]
      exact ⟨hstate, houts⟩
    | body size len =>
      have := L.body_stable hv (h.drop size ++ [b])
      rw [← append_assoc, take_append_drop, hc] at this
      cases this

/-- **A whole frame**: its header, then its body. -/
theorem decode_record (hb : F.header f h = .body h.length len) {bs : List UInt8}
    (hlen : bs.length = len) (hpos : 0 < len) : F.decode (.header f []) (h ++ bs) =
      ⟨(F.finish (F.draw (F.enter f h) len).1 ((F.draw (F.enter f h) len).2.2.map fun _ => bs) len).1,
        (F.draw (F.enter f h) len).2.1 ++ (F.finish (F.draw (F.enter f h) len).1
            ((F.draw (F.enter f h) len).2.2.map fun _ => bs) len).2, []⟩ := by
  have hhead := L.decode_of_body hb
  rw [take_length, start_pos F (Nat.ne_of_gt hpos)] at hhead
  rw [F.decode_append_of_open (r := (_, _)) hhead rfl, F.decode_body _ _ _ hlen hpos, Option.map_map]
  simp [Function.comp_def]

theorem decode_record_empty (hb : F.header f h = .body h.length 0) : F.decode (.header f []) h =
      ⟨(F.finish (F.enter f h) none 0).1, (F.finish (F.enter f h) none 0).2, []⟩ := by
  have hhead := L.decode_of_body hb
  rwa [take_length] at hhead

end Lawful

/-! ## Two framings of one stream -/

section

variable {ψ υ α : Type} (G : Framing ψ υ)

/-- Two framings that judge every header alike, and between whose ends `R` is kept: they draw and keep
the same bodies, and what `p` and `q` see of their outputs is the same. -/
structure Alike (R : φ → ψ → Prop) (p : ω → Option α) (q : υ → Option α) : Prop where
  header : ∀ {f g}, R f g → ∀ h, F.header f h = G.header g h
  close : ∀ {f g}, R f g → ∀ h, R (F.close f h).1 (G.close g h).1 ∧
    (F.close f h).2.filterMap p = (G.close g h).2.filterMap q
  enter : ∀ {f g}, R f g → ∀ h, R (F.enter f h) (G.enter g h)
  draw : ∀ {f g}, R f g → ∀ len, R (F.draw f len).1 (G.draw g len).1 ∧
    (F.draw f len).2.1.filterMap p = (G.draw g len).2.1.filterMap q ∧
    (F.draw f len).2.2.isSome = (G.draw g len).2.2.isSome
  body : ∀ {f g}, R f g → ∀ block len, R (F.body f block len).1 (G.body g block len).1 ∧
    (F.body f block len).2.1.filterMap p = (G.body g block len).2.1.filterMap q ∧
    (F.body f block len).2.2 = (G.body g block len).2.2

def Beside (R : φ → ψ → Prop) : Decoder φ → Decoder ψ → Prop
  | .header f got, .header g got' => R f g ∧ got = got'
  | .body f len block left, .body g len' block' left' =>
    R f g ∧ len = len' ∧ block = block' ∧ left = left'
  | .closed f, .closed g => R f g
  | _, _ => False

variable {F G} {R : φ → ψ → Prop} {p : ω → Option α} {q : υ → Option α} {e : Decoder ψ}

theorem Beside.isClosed_eq (h : Beside R d e) : d.isClosed = e.isClosed := by
  cases d <;> cases e <;> first | rfl | exact absurd h id

namespace Alike

variable (A : Alike F G R p q)

include A

theorem finish {g : ψ} (h : R f g) (block : Option (List UInt8)) (len : Nat) :
    Beside R (F.finish f block len).1 (G.finish g block len).1 ∧
      (F.finish f block len).2.filterMap p = (G.finish g block len).2.filterMap q := by
  obtain ⟨hR, houts, hkeep⟩ := A.body h block len
  rw [Framing.finish, Framing.finish, hkeep]
  refine ⟨?_, houts⟩
  split
  · exact ⟨hR, rfl⟩
  · exact hR

theorem start {g : ψ} (h : R f g) (hdr : List UInt8) (len : Nat) :
    Beside R (F.start f hdr len).1 (G.start g hdr len).1 ∧
      (F.start f hdr len).2.filterMap p = (G.start g hdr len).2.filterMap q := by
  have henter := A.enter h hdr
  by_cases hlen : len = 0
  · subst hlen
    exact A.finish henter none 0
  obtain ⟨hR, houts, hsome⟩ := A.draw henter len
  rw [start_pos F hlen, start_pos G hlen]
  refine ⟨⟨hR, rfl, ?_, rfl⟩, houts⟩
  cases hF : (F.draw (F.enter f hdr) len).2.2 <;> cases hG : (G.draw (G.enter g hdr) len).2.2 <;>
    simp [hF, hG] at hsome ⊢

theorem step (h : Beside R d e) (b : UInt8) :
    Beside R (F.step d b).1 (G.step e b).1 ∧ (F.step d b).2.filterMap p = (G.step e b).2.filterMap q := by
  match d, e, h with
  | .header f got, .header g _, ⟨hR, rfl⟩ =>
    rw [Framing.step, Framing.step, A.header hR]
    cases G.header g (got ++ [b]) with
    | more => exact ⟨⟨hR, rfl⟩, rfl⟩
    | close => exact A.close hR (got ++ [b])
    | body size len => exact A.start hR (got ++ [b]) len
  | .body f len block left, .body g _ _ _, ⟨hR, rfl, rfl, rfl⟩ =>
    rw [Framing.step, Framing.step]
    split
    · exact A.finish hR _ _
    · exact ⟨⟨hR, rfl, rfl, rfl⟩, rfl⟩
  | .closed f, .closed g, hR => exact ⟨hR, rfl⟩

/-- **Alike framings make the same of every stream.** -/
theorem decode (h : Beside R d e) (bs : List UInt8) :
    Beside R (F.decode d bs).state (G.decode e bs).state ∧
      (F.decode d bs).outs.filterMap p = (G.decode e bs).outs.filterMap q := by
  induction bs generalizing d e with
  | nil => exact ⟨h, rfl⟩
  | cons b bs ih =>
    cases hd : d.isClosed with
    | true =>
      rw [decode_of_closed F hd, decode_of_closed G (h.isClosed_eq.symm.trans hd)]
      exact ⟨h, rfl⟩
    | false =>
      obtain ⟨hnext, houts⟩ := A.step h b
      obtain ⟨hstate, hrest⟩ := ih hnext
      rw [decode_cons F hd, decode_cons G (h.isClosed_eq.symm.trans hd)]
      refine ⟨hstate, ?_⟩
      rw [filterMap_append, filterMap_append, houts, hrest]

end Alike

end

end Framing
