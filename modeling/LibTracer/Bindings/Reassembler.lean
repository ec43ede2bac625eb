import LibTracer.Net.LengthPrefix

/-!
# The client's record reassembler

The WebTransport client buffers what its stream delivers and cuts whole records off the front, one list
of frames for each chunk.  The C++ framer hands each frame up as soon as it is whole.

* **`reassembles_iff`** — the client hands up what the framer delivers if and only if the chunk that
  ends in a malformed prefix completes no frame before it.
-/

namespace LibTracer.Bindings.Reassembler

open Net Framing List

/-! ## The reassembler -/

/-- `MAX_FRAME`. -/
def kMaxFrame : Nat := 16777216

/-- How the loop of `push` ends: its frames and how far they reach, or the throw, with the length the
prefix at `off` announced. -/
inductive Scanned where
  | frames (frames : List (List UInt8)) (off : Nat)
  | malformed (announced off : Nat)
  deriving DecidableEq, Repr

/-- The loop of `push` over `pending`, from `off`. -/
def scanLoop (pending : List UInt8) : Nat → Nat → List (List UInt8) → Scanned
  | 0, off, frames => .frames frames off
  | fuel + 1, off, frames =>
    if pending.length - off ≥ kPrefixBytes then
      let len := LittleEndian.load ((pending.drop off).take kPrefixBytes)
      if len > kMaxFrame then .malformed len off
      -- await the body
      else if pending.length - off - kPrefixBytes < len then .frames frames off
      else
        scanLoop pending fuel (off + kPrefixBytes + len)
          (if len > 0 then frames ++ [(pending.drop (off + kPrefixBytes)).take len] else frames)
    else .frames frames off

def scan (pending : List UInt8) : Scanned := scanLoop pending (pending.length + 1) 0 []

/-- `readLoop`: each chunk is pushed, and its frames handed to the receiver; the throw of `push` ends the
loop, and with it go the frames of its chunk. -/
def readLoop : List UInt8 → List (List UInt8) → Framer.Seen
  | _, [] => ⟨[], none⟩
  | pending, chunk :: chunks =>
    match scan (pending ++ chunk) with
    | .malformed _ off => ⟨[], some (off + kPrefixBytes)⟩
    | .frames frames off =>
      let t := readLoop ((pending ++ chunk).drop off) chunks
      ⟨frames.map .frame ++ t.events, t.violation.map (off + ·)⟩

/-! ## A scan, as the decoder reads -/

def Ample (src : Source) : Prop :=
  ∀ n len, len ≤ kMaxFrame → (src.segment n len).isSome = true

/-- What a scan from `rest` on makes of the bytes, as the decoder sees them. -/
def Scans (src : Source) (n : Nat) (rest : List UInt8) (frames : List (List UInt8)) (off : Nat) :
    Scanned → Prop
  | .frames frames' off' => ∃ new m used d, frames' = frames ++ new ∧ off' = off + used ∧
      used ≤ rest.length ∧
      (framed src kMaxFrame).decode (.header m []) (rest.drop used) = ⟨d, [], []⟩ ∧
      (framed src kMaxFrame).decode (.header n []) rest = ⟨d, new.map .frame, []⟩ ∧ d.isClosed = false
  | .malformed _ off' => ∃ used, off' = off + used ∧ used + kPrefixBytes ≤ rest.length ∧
      ((framed src kMaxFrame).decode (.header n []) rest).state.isClosed = true ∧
      ((framed src kMaxFrame).decode (.header n []) rest).rest = rest.drop (used + kPrefixBytes)

variable {len : Nat}

section

variable {src : Source} (hsrc : Ample src)

include hsrc

variable {body pending : List UInt8} {n off : Nat} {f : Framer}

theorem report_ample (h : body.length ≤ kMaxFrame) :
    report src n [body] = (if body.length > 0 then [body] else []).map .frame := by
  cases body with
  | nil => rfl
  | cons b bs => rw [report, if_neg (cons_ne_nil b bs), hsrc n _ h]; rfl

theorem decode_awaiting (n : Nat) {part : List UInt8} (hcap : len ≤ kMaxFrame)
    (hpart : part.length < len) :
    ∃ d, (framed src kMaxFrame).decode (.header n []) (LittleEndian.store len kPrefixBytes ++ part) =
      ⟨d, [], []⟩ ∧ d.isClosed = false := by
  have h32 : len < 4294967296 := Nat.lt_of_le_of_lt hcap (by decide)
  have hhead := (framed_lawful src kMaxFrame).decode_of_body (header_store src n h32 hcap)
  rw [take_length, start_pos _ (by omega)] at hhead
  rw [decode_append_of_open _ (r := (_, _)) hhead rfl, decode_body_of_lt _ _ _ _ hpart]
  have hdraw : ((framed src kMaxFrame).draw n len).2.1 = [] := by
    simp [framed, Option.isSome_iff_ne_none.mp (hsrc n len hcap)]
  exact ⟨_, by rw [append_nil]; exact congrArg (Decoded.mk _ · []) hdraw, rfl⟩

theorem Scans.cons {rest : List UInt8} {frames : List (List UInt8)} {r : Scanned}
    (hcap : body.length ≤ kMaxFrame) (h : Scans src (n + drawn [body]) rest
      (frames ++ if body.length > 0 then [body] else []) (off + (record body).length) r) :
    Scans src n (record body ++ rest) frames off r := by
  have h32 : body.length < 4294967296 := Nat.lt_of_le_of_lt hcap (by decide)
  have hrec := decode_append_of_open _ (r := (.header (n + drawn [body]) [], report src n [body]))
    (decode_whole src n hcap h32) rfl rest
  dsimp only at hrec
  rw [report_ample hsrc hcap] at hrec
  have hskip (k : Nat) : (record body ++ rest).drop ((record body).length + k) = rest.drop k := by
    rw [← drop_drop, drop_left]
  cases r with
  | frames frames' off' =>
    obtain ⟨new, m, used, d, rfl, rfl, hle, hlast, hall, hopen⟩ := h
    rw [hall] at hrec
    refine ⟨_, m, (record body).length + used, d, append_assoc _ _ _, add_assoc _ _ _, ?_, ?_,
      hrec.trans (by rw [map_append]), hopen⟩
    · rw [length_append]
      omega
    · rw [hskip, hlast]
  | malformed announced off' =>
    obtain ⟨used, rfl, hle, hclosed, htail⟩ := h
    refine ⟨(record body).length + used, add_assoc _ _ _, ?_, by rw [hrec]; exact hclosed, ?_⟩
    · rw [length_append]
      omega
    · rw [hrec, add_assoc, hskip]
      exact htail

/-- **A scan reads what the decoder reads**, record by record. -/
theorem scans_scanLoop (pending : List UInt8) {fuel : Nat} (hfuel : pending.length - off < fuel)
    (n : Nat) (frames : List (List UInt8)) :
    Scans src n (pending.drop off) frames off (scanLoop pending fuel off frames) := by
  induction fuel generalizing off n frames with
  | zero => exact absurd hfuel (Nat.not_lt_zero _)
  | succ fuel ih =>
    have L := framed_lawful src kMaxFrame
    have hrest : (pending.drop off).length = pending.length - off := length_drop
    unfold scanLoop
    split
    case isFalse hshort =>
      have hmore : (framed src kMaxFrame).header n (pending.drop off) = .more :=
        prefixVerdict_more.mpr (by omega)
      exact ⟨[], n, 0, _, (append_nil _).symm, rfl, Nat.zero_le _, L.decode_of_more hmore,
        L.decode_of_more hmore, rfl⟩
    case isTrue hwhole =>
      -- the bytes from `off` on are a stored length and what is behind it
      have h4 : ((pending.drop off).take kPrefixBytes).length = kPrefixBytes := by
        rw [length_take]
        omega
      have hstore := LittleEndian.store_load ((pending.drop off).take kPrefixBytes)
      have h32 := load_prefix_lt (pending.drop off)
      dsimp only
      rw [h4] at hstore
      generalize LittleEndian.load ((pending.drop off).take kPrefixBytes) = len at hstore h32 ⊢
      have hsplit : pending.drop off =
          LittleEndian.store len kPrefixBytes ++ pending.drop (off + kPrefixBytes) := by
        rw [hstore, ← drop_drop, take_append_drop]
      have htail : (pending.drop (off + kPrefixBytes)).length = pending.length - off - kPrefixBytes := by
        rw [length_drop, Nat.sub_sub]
      rw [hsplit]
      split
      next hover =>
        refine ⟨0, rfl, by rw [← hsplit]; omega, by rw [decode_violation hover h32]; rfl, ?_⟩
        rw [decode_violation hover h32, zero_add,
          drop_left' (LittleEndian.length_store len kPrefixBytes)]
      rename_i hcap
      split
      next hpart =>
        obtain ⟨d, hd, hopen⟩ := decode_awaiting hsrc n (Nat.le_of_not_lt hcap) (htail ▸ hpart)
        exact ⟨[], n, 0, d, (append_nil _).symm, rfl, Nat.zero_le _, hd, hd, hopen⟩
      next hfull =>
      generalize hbody : (pending.drop (off + kPrefixBytes)).take len = body
      have hlen : body.length = len := by
        rw [← hbody, length_take]
        omega
      have hnext := ih (show pending.length - (off + kPrefixBytes + len) < fuel by
        have h4 : kPrefixBytes = 4 := rfl
        omega) (n + drawn [body]) (frames ++ if body.length > 0 then [body] else [])
      have hrecord : LittleEndian.store len kPrefixBytes ++ pending.drop (off + kPrefixBytes) =
          record body ++ pending.drop (off + kPrefixBytes + len) := by
        rw [record, hlen, append_assoc, ← hbody,
          (drop_drop : (pending.drop (off + kPrefixBytes)).drop len = _).symm, take_append_drop]
      have hframes : (if len > 0 then frames ++ [body] else frames) =
          frames ++ if body.length > 0 then [body] else [] := by
        rw [hlen]
        split
        · rfl
        · exact (append_nil _).symm
      rw [hrecord, hframes]
      refine Scans.cons hsrc (by omega) ?_
      rw [show off + (record body).length = off + kPrefixBytes + len by
        rw [record, length_append, LittleEndian.length_store, hlen, add_assoc]]
      exact hnext

/-! ## Chunk by chunk -/

omit hsrc in
def Stands (src : Source) (pending : List UInt8) (f : Framer) : Prop :=
  ∃ n d, (framed src kMaxFrame).decode (.header n []) pending = ⟨d, [], []⟩ ∧ f.Rep d ∧
    d.isClosed = false

/-- **One chunk**: both go on side by side, or both stop behind the same prefix. -/
theorem stands_push (h : Stands src pending f) (chunk : List UInt8) :
    match scan (pending ++ chunk) with
    | .frames frames off => off ≤ (pending ++ chunk).length ∧
        (f.feed src kMaxFrame chunk).malformed = false ∧
        (f.feed src kMaxFrame chunk).events = frames.map .frame ∧
        Stands src ((pending ++ chunk).drop off) (f.feed src kMaxFrame chunk).framer
    | .malformed _ off => (f.feed src kMaxFrame chunk).malformed = true ∧
        off + kPrefixBytes = pending.length + (chunk.length - (f.feed src kMaxFrame chunk).rest.length) := by
  obtain ⟨n, d, hdec, hrep, hopen⟩ := h
  obtain ⟨hevents, hrest, hclosed, hnext⟩ := Framer.feed_spec src kMaxFrame hrep chunk
  have hmore := decode_append_of_open _ (r := (d, [])) hdec hopen chunk
  have hscan : Scans src n (pending ++ chunk) [] 0 (scan (pending ++ chunk)) :=
    scans_scanLoop hsrc (pending ++ chunk) (Nat.lt_succ_self _) n []
  cases hs : scan (pending ++ chunk) with
  | frames frames off =>
    rw [hs] at hscan
    obtain ⟨new, m, used, d', rfl, rfl, hle, hlast, hall, hopen'⟩ := hscan
    rw [hall] at hmore
    obtain ⟨hstate, houts, -⟩ := Decoded.mk.inj hmore
    rw [← hstate, hopen'] at hclosed
    rw [zero_add]
    exact ⟨hle, hclosed, hevents.trans houts.symm, m, d', hlast, hstate ▸ hnext hclosed, hopen'⟩
  | malformed announced off =>
    rw [hs] at hscan
    obtain ⟨used, rfl, hle, hend, htail⟩ := hscan
    rw [hmore] at hend htail
    refine ⟨hclosed.trans hend, ?_⟩
    have hlen := (framed src kMaxFrame).length_rest_le d chunk
    have htail := congrArg List.length (hrest.trans htail)
    rw [hrest] at htail ⊢
    rw [length_drop, length_append] at htail
    rw [length_append] at hle
    omega

omit hsrc in
/-- The chunk the framer finds the malformed prefix in completes no frame before it. -/
def Alone (src : Source) : Framer → List (List UInt8) → Prop
  | _, [] => True
  | f, chunk :: chunks =>
    if (f.feed src kMaxFrame chunk).malformed then (f.feed src kMaxFrame chunk).events = []
    else Alone src (f.feed src kMaxFrame chunk).framer chunks

/-- From any place both stand at, the two stop at the same byte, and the client's frames are the framer's
if and only if the last chunk is so. -/
theorem readLoop_stands (h : Stands src pending f)
    (chunks : List (List UInt8)) : (readLoop pending chunks).violation =
        (f.feedAll src kMaxFrame chunks).violation.map (pending.length + ·) ∧
      ((readLoop pending chunks).events = (f.feedAll src kMaxFrame chunks).events ↔
        Alone src f chunks) := by
  induction chunks generalizing pending f with
  | nil => exact ⟨rfl, iff_of_true rfl trivial⟩
  | cons chunk chunks ih =>
    have hpush := stands_push hsrc h chunk
    rw [readLoop, Framer.feedAll, Alone]
    cases hs : scan (pending ++ chunk) with
    | malformed announced off =>
      rw [hs] at hpush
      obtain ⟨hbad, hpos⟩ := hpush
      rw [if_pos hbad, if_pos hbad]
      exact ⟨congrArg some hpos, eq_comm⟩
    | frames frames off =>
      rw [hs] at hpush
      obtain ⟨hle, hgood, hevents, hstands⟩ := hpush
      obtain ⟨hviolation, hframes⟩ := ih hstands
      rw [if_neg (by rw [hgood]; decide), if_neg (by rw [hgood]; decide)]
      refine ⟨?_, ?_⟩
      · rw [length_drop] at hviolation
        rw [length_append] at hle hviolation
        simp only [hviolation, Option.map_map]
        refine congrArg (Option.map · _) (funext fun v => ?_)
        simp only [Function.comp_apply]
        omega
      · rw [hevents, append_cancel_left_eq]
        exact hframes

/-- **The client hands up what the framer delivers, and stops where it stops, if and only if** the chunk
that ends in a malformed prefix completes no frame before it.  What the framer delivers does not depend on
the cut. -/
theorem reassembles_iff (chunks : List (List UInt8)) :
    (readLoop [] chunks = Framer.feedAll src kMaxFrame {} chunks ∧
        Framer.feedAll src kMaxFrame {} chunks = Framer.feedAll src kMaxFrame {} [chunks.flatten]) ↔
      Alone src {} chunks := by
  have hstart : Stands src [] {} := ⟨0, .header 0 [], rfl, ⟨rfl, rfl, by decide, rfl⟩, rfl⟩
  obtain ⟨hviolation, hframes⟩ := readLoop_stands hsrc hstart chunks
  refine ⟨fun h => hframes.mp (by rw [h.1]), fun h => ⟨?_, (feedAll_chunks src kMaxFrame {} chunks).1⟩⟩
  simp only [length_nil, zero_add, Option.map_id'] at hviolation
  cases hr : readLoop [] chunks with
  | mk events violation =>
    rw [hr] at hviolation hframes
    rw [show events = _ from hframes.mpr h, show violation = _ from hviolation]

end

def boundless : Source where
  maxSegment := kMaxFrame
  draw _ len := if len ≤ kMaxFrame then some (List.replicate len 0) else none
  length_draw h := (of_replicate h).1
  draw_le h := (of_replicate h).2

theorem boundless_ample : Ample boundless := by
  intro n len h
  simp [Net.Source.segment, boundless, h, Nat.not_lt.mpr h]

theorem reassembles_apart : readLoop [] [[1, 0, 0, 0, 7], [1, 0, 0, 1]] = ⟨[.frame [7]], some 9⟩ ∧
      (readLoop [] [[1, 0, 0, 0, 7], [1, 0, 0, 1]] =
          Framer.feedAll boundless kMaxFrame {} [[1, 0, 0, 0, 7], [1, 0, 0, 1]] ∧
        Framer.feedAll boundless kMaxFrame {} [[1, 0, 0, 0, 7], [1, 0, 0, 1]] =
          Framer.feedAll boundless kMaxFrame {} [[1, 0, 0, 0, 7, 1, 0, 0, 1]]) :=
  ⟨by decide, (reassembles_iff boundless_ample _).mpr (by simp only [Alone]; decide)⟩

/-- **A frame is lost** when the malformed prefix behind it comes in the same chunk; the framer delivers
it, and so does the client when the two come apart. -/
theorem frame_lost :
    Framer.feedAll boundless kMaxFrame {} [[1, 0, 0, 0, 7, 1, 0, 0, 1]] = ⟨[.frame [7]], some 9⟩ ∧
      readLoop [] [[1, 0, 0, 0, 7, 1, 0, 0, 1]] = ⟨[], some 9⟩ ∧
      readLoop [] [[1, 0, 0, 0, 7], [1, 0, 0, 1]] = ⟨[.frame [7]], some 9⟩ := by
  decide

end LibTracer.Bindings.Reassembler
