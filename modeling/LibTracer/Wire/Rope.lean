import LibTracer.Lib.Chain
import LibTracer.Wire.Frame

/-!
# Frames in ropes (`view.hpp`, `rope.hpp`, `rope_decode.hpp`, `rope_decode.cpp`)

A rope is a chain of windows into segments; a frame may be cut anywhere between them. `RopeCursor`
lets the grammar read it in place, from an anchor that moves forward with the descent.

* `validateRope_eq_over` : validating a rope is validating its flat copy.
-/

namespace LibTracer

open Window List
open Crc (Bytes)

/-! ## Views and ropes -/

inductive MemSpace where
  | HOST | DEVICE
  deriving DecidableEq, Repr

/-- `segment_t`, as a reader sees it. -/
structure Segment where
  bytes : Bytes
  space : MemSpace := .HOST
  deriving DecidableEq, Repr

def ownerBytes (owner : Option Segment) : Bytes := (owner.map Segment.bytes).getD []

/-- `view_t`: a window into one segment. -/
structure View where
  owner : Option Segment
  offset : Nat
  length : Nat
  fits : offset + length ≤ (ownerBytes owner).length
  deriving DecidableEq, Repr

namespace View

/-- The default `view_t{}`: unowned and empty. -/
def empty : View := ⟨none, 0, 0, Nat.zero_le _⟩

/-- `view_t::over`: the whole of a segment. -/
def overSegment (seg : Segment) : View where
  owner := some seg
  offset := 0
  length := seg.bytes.length
  fits := by simp [ownerBytes]

def bytes (v : View) : Bytes := window (ownerBytes v.owner) v.offset v.length

/-- `view_t::is_host`: an unowned view is host. -/
def isHost (v : View) : Bool := v.owner.all (·.space == .HOST)

/-- `view_t::subview`: a narrower window into the same segment. -/
def subview (v : View) (subOffset subLength : Nat) (h : subOffset + subLength ≤ v.length) :
    View where
  owner := v.owner
  offset := v.offset + subOffset
  length := subLength
  fits := by have := v.fits; omega

theorem length_bytes (v : View) : v.bytes.length = v.length := length_window v.fits

theorem bytes_subview (v : View) (off n : Nat) (h : off + n ≤ v.length) :
    (v.subview off n h).bytes = window v.bytes off n := (window_window h).symm

@[simp] theorem bytes_overSegment (seg : Segment) : (overSegment seg).bytes = seg.bytes := window_full _

end View

instance : Chain.Piece UInt8 View where
  len := View.length
  elems := View.bytes
  length_elems := View.length_bytes

/-- `rope_t`: a chain of views. -/
structure Rope where
  links : List View := []
  deriving DecidableEq, Repr

inductive FlattenErr where
  | NOT_HOST | NO_MEMORY
  deriving DecidableEq, Repr

/-- The loop of `rope_t::subrope`. -/
def subropeLinks : List View → Nat → Nat → List View
  | [], _, _ => []
  | l :: ls, skip, remaining =>
    if remaining = 0 then []
    else if l.length ≤ skip then subropeLinks ls (skip - l.length) remaining
    else
      let take := min remaining (l.length - skip)
      if h : 0 < take then l.subview skip take (by omega) :: subropeLinks ls 0 (remaining - take)
      else subropeLinks ls 0 (remaining - take)

namespace Rope

def bytes (r : Rope) : Bytes := Chain.content r.links

def totalLength (r : Rope) : Nat := r.links.foldl (fun n l => n + l.length) 0

def allHost (r : Rope) : Bool := r.links.all View.isHost

/-- `rope_t::subrope`: the sub-range `[off, off + len)`, by chaining. -/
def subrope (r : Rope) (off len : Nat) : Rope := ⟨subropeLinks r.links off len⟩

/-- `rope_t::try_flatten`: one contiguous copy. `alloc n` is the backend's answer to a request for
    `n` bytes; an empty rope asks for none. -/
def tryFlatten (alloc : Nat → Bool) (r : Rope) : Except FlattenErr View :=
  if !r.allHost then .error .NOT_HOST
  else
    let n := r.totalLength
    if n = 0 then .ok .empty
    else if !alloc n then .error .NO_MEMORY
    else .ok (View.overSegment ⟨r.links.flatMap View.bytes, .HOST⟩)

theorem totalLength_eq (r : Rope) : r.totalLength = r.bytes.length := by
  suffices h : ∀ (ls : List View) (n : Nat),
      ls.foldl (fun n l => n + l.length) n = n + (Chain.content ls).length by
    exact (h r.links 0).trans (zero_add _)
  intro ls
  induction ls with
  | nil => intro n; rfl
  | cons l ls ih =>
    intro n
    have hl : (Chain.Piece.elems l).length = l.length := l.length_bytes
    rw [foldl_cons, ih, Chain.content_cons, length_append, hl]
    omega

theorem bytes_subrope (r : Rope) (off len : Nat) : (r.subrope off len).bytes = window r.bytes off len := by
  suffices h : ∀ (ls : List View) (off len : Nat),
      Chain.content (subropeLinks ls off len) = ((Chain.content ls).drop off).take len from
    h r.links off len
  intro ls
  induction ls with
  | nil => intro off len; simp [subropeLinks]
  | cons l ls ih =>
    intro off len
    rw [subropeLinks]
    split
    · subst len
      simp
    split
    next hle =>
      rw [ih, Chain.drop_content_cons (show Chain.Piece.len l ≤ off from hle)]
      rfl
    next hlt =>
    rw [Chain.take_drop_content_cons (show off ≤ Chain.Piece.len l by
      have : Chain.Piece.len l = l.length := rfl
      omega)]
    have hpos : 0 < min len (l.length - off) := by omega
    simp only [hpos, dite_true]
    rw [Chain.content_cons, ih, drop_zero]
    exact congrArg (· ++ _) (l.bytes_subview _ _ _)

section

variable {alloc : Nat → Bool} {r : Rope} {flat : View} (h : r.tryFlatten alloc = .ok flat)
include h

theorem allHost_of_tryFlatten : r.allHost = true := by
  unfold tryFlatten at h
  cases hh : r.allHost
  · rw [hh] at h
    cases h
  · rfl

theorem bytes_of_tryFlatten : flat.bytes = r.bytes := by
  unfold tryFlatten at h
  rw [allHost_of_tryFlatten h] at h
  simp only [Bool.not_true, Bool.false_eq_true, if_false] at h
  split at h
  next hzero =>
    cases h
    rw [totalLength_eq] at hzero
    rw [length_eq_zero_iff.mp hzero]
    rfl
  · split at h
    · cases h
    · cases h
      exact View.bytes_overSegment _

end

end Rope

/-! ## The rope cursor -/

namespace Wire.Grammar

/-- `rope_cursor_t`: a window of `size` bytes behind the anchor `(li, intra)` of a chain. -/
structure RopeCursor where
  links : List View := []
  li : Nat := 0
  intra : Nat := 0
  size : Nat := 0
  poisoned : Bool := false

namespace RopeCursor

def ofRope (r : Rope) : RopeCursor := { links := r.links, size := r.totalLength }

/-- `rope_cursor_t::at`: resume from a known anchor. -/
def resumeAt (links : List View) (li intra len : Nat) : RopeCursor :=
  { links, li, intra, size := len }

/-- `region`: re-window, moving the anchor forward from this cursor's own. -/
def region (c : RopeCursor) (off len : Nat) : RopeCursor :=
  -- the sub-window opens in the same link: no walk
  if (c.links[c.li]?).any fun l => off < l.length - c.intra then
    { c with intra := c.intra + off, size := len }
  else
    let (li, intra) := Chain.seek c.links c.li (c.intra + off)
    { c with li, intra, size := len }

/-- `seek`: the link and the offset in it of the byte at `off`. -/
def seek (c : RopeCursor) (off : Nat) : Nat × Nat := Chain.seek c.links c.li (c.intra + off)

def byteAt (c : RopeCursor) (off : Nat) : UInt8 :=
  let (li, intra) := c.seek off
  ((c.links[li]?).bind fun l => l.bytes[intra]?).getD 0

/-- The per-link sub-spans of the next `n` bytes from `off`, as the read loops visit them. -/
def spans (c : RopeCursor) (off n : Nat) : List Bytes :=
  let (li, intra) := c.seek off
  Chain.gather (fun l off n _ => window l.bytes off n) (c.links.drop li) intra n

/-- `load_le`: one seek, then each link's bytes are or-ed in behind the ones before. -/
def loadLe (c : RopeCursor) (off n : Nat) : Nat :=
  if n = 0 then 0
  else
    ((c.spans off n).foldl
      (fun (v, shift) span => (LittleEndian.loadFrom v shift span, shift + 8 * span.length))
      (0, 0)).1

/-- `for_each_span`: a feed that overshoots the window is cut to it, and latched. -/
def forEachSpan (c : RopeCursor) (off n : Nat) : List Bytes × RopeCursor :=
  let avail := c.size - (if off < c.size then off else c.size)
  let c := if n > avail then { c with poisoned := true } else c
  let n := if n > avail then avail else n
  if n = 0 then ([], c) else (c.spans off n, c)

end RopeCursor

instance : Cursor RopeCursor where
  size := RopeCursor.size
  region := RopeCursor.region
  byteAt := RopeCursor.byteAt
  loadLe := RopeCursor.loadLe
  forEachSpan := RopeCursor.forEachSpan
  poisoned := RopeCursor.poisoned

namespace RopeCursor

def ahead (c : RopeCursor) : Bytes := Chain.rest c.links c.li c.intra

/-- What a cursor reads: the first `size` bytes ahead, which the chain holds. -/
structure Reads (c : RopeCursor) (bs : Bytes) : Prop where
  sound : c.poisoned = false
  length : bs.length = c.size
  bytes : bs = c.ahead.take c.size

variable {c : RopeCursor} {n off : Nat}

theorem Reads.window {bs : Bytes} (h : c.Reads bs)
    (hn : off + n ≤ bs.length) : window bs off n = (c.ahead.drop off).take n := by
  rw [h.bytes, Window.window, drop_take, take_take, Nat.min_eq_left]
  have := h.length
  omega

theorem ahead_region (c : RopeCursor) (off len : Nat) : (c.region off len).ahead = c.ahead.drop off := by
  unfold region ahead
  split
  · exact Chain.rest_add _ _ _ _
  · exact (Chain.rest_seek _ _ _).trans (Chain.rest_add _ _ _ _)

theorem region_frame (c : RopeCursor) (off len : Nat) :
    (c.region off len).size = len ∧ (c.region off len).poisoned = c.poisoned := by
  unfold region
  split <;> exact ⟨rfl, rfl⟩

theorem flatten_spans (c : RopeCursor) (off n : Nat) :
    (c.spans off n).flatten = (c.ahead.drop off).take n := by
  have h : (c.spans off n).flatMap id = (Chain.rest c.links c.li (c.intra + off)).take n :=
    Chain.flatMap_gather_seek (fun _ _ _ _ => rfl) _ _ _ _
  rw [← flatMap_id, h, ahead, Chain.rest_add]

theorem foldl_loadFrom (spans : List Bytes) (v shift : Nat) : (spans.foldl (fun (v, shift) span =>
      (LittleEndian.loadFrom v shift span, shift + 8 * span.length)) (v, shift)).1 =
      LittleEndian.loadFrom v shift spans.flatten := by
  induction spans generalizing v shift with
  | nil => rfl
  | cons s ss ih => rw [foldl_cons, ih, flatten_cons, LittleEndian.loadFrom_append]

theorem forEachSpan_of_le (h : off + n ≤ c.size) :
    c.forEachSpan off n = (if n = 0 then [] else c.spans off n, c) := by
  have havail : ¬n > c.size - (if off < c.size then off else c.size) := by
    split <;> omega
  simp only [forEachSpan, havail, if_false]
  split <;> rfl

end RopeCursor

/-- **A rope cursor reads the bytes of its chain**, wherever they are cut. -/
instance : LawfulCursor RopeCursor where
  Reads := RopeCursor.Reads
  size_eq h := h.length.symm
  region_reads {c bs off len} h hn := by
    obtain ⟨hsize, hsound⟩ := c.region_frame off len
    refine ⟨hsound.trans h.sound, (length_window hn).trans hsize.symm, ?_⟩
    show _ = (c.region off len).ahead.take (c.region off len).size
    rw [c.ahead_region, hsize, h.window hn]
  byteAt_eq {c bs off} h hn := by
    have hget := Chain.getElem?_seek c.links c.li (c.intra + off)
    rw [Chain.rest_add, getElem?_drop, Nat.add_zero] at hget
    have hbs : bs[off]? = c.ahead[off]? := by
      rw [h.bytes, getElem?_take_of_lt (by have := h.length; omega)]
    rw [getD_eq_getElem?_getD, hbs]
    exact congrArg (·.getD 0) hget
  loadLe_eq {c bs off n} h hn _ := by
    show c.loadLe off n = _
    rw [RopeCursor.loadLe, RopeCursor.foldl_loadFrom, c.flatten_spans, ← h.window hn]
    split
    · subst n
      simp
    · rfl
  spans_eq {c bs off n} h hn := by
    show (c.forEachSpan off n).1.flatten = _
    rw [RopeCursor.forEachSpan_of_le (by have := h.length; omega), h.window hn]
    split
    · subst n
      simp
    · exact c.flatten_spans off n
  spans_reads {c bs off n} h hn := by
    show (c.forEachSpan off n).2.Reads bs
    rw [RopeCursor.forEachSpan_of_le (by have := h.length; omega)]
    exact h
  not_poisoned h := h.sound

theorem reads_rope (r : Rope) : LawfulCursor.Reads (RopeCursor.ofRope r) r.bytes := by
  refine ⟨rfl, r.totalLength_eq.symm, ?_⟩
  show r.bytes = (Chain.rest r.links 0 0).take r.totalLength
  rw [Chain.rest_zero, r.totalLength_eq]
  exact take_length.symm

end Wire.Grammar

/-! ## Validation in place -/

namespace Wire

open Grammar

/-- `null_sink_t`: models nothing. -/
def nullSink (C : Type) : Sink C Unit where
  onOpen _ _ s := s
  onLeaf _ _ s := s
  onClose s := s

/-- `validate_rope`: the whole grammar walk, over the rope. -/
def validateRope (r : Rope) (spill : BlockSource) : Except Err Unit :=
  if !r.allHost then .error .FRAME_INVALID
  else walk (RopeCursor.ofRope r) (nullSink RopeCursor) ⟨[], 8, some spill, 0⟩ .VERIFY ()

theorem validateRope_eq_decode {r : Rope} (hr : r.allHost = true) (spill : BlockSource) :
    validateRope r spill = (decode .VERIFY (WalkStack.room 8 (some spill)) r.bytes).map fun _ => () := by
  have ht : Tracks (nullSink RopeCursor) (nullSink Bytes) :=
    ⟨fun _ => rfl, fun _ => rfl, rfl⟩
  rw [validateRope, hr, walk_eq_decode ht (reads_rope r)]
  rfl

/-- **Where a frame is cut makes no difference**: validating a rope gives the verdict and the error
    code of validating its flat copy, if the two walks' spill sources answer alike; two sources
    that serve every request do, and so do two that refuse every request. -/
theorem validateRope_eq_over (r : Rope) (alloc : Nat → Bool) (flat : View)
    (hflat : r.tryFlatten alloc = .ok flat) (spill : BlockSource) :
    validateRope r spill = (TlvNode.overSpan flat.bytes spill).map fun _ => () := by
  rw [validateRope_eq_decode (Rope.allHost_of_tryFlatten hflat), Rope.bytes_of_tryFlatten hflat,
    over_eq_decode]
  cases decode .VERIFY (WalkStack.room 8 (some spill)) r.bytes <;> rfl

/-- A frame cut inside its header and inside its child's, an empty link between the pieces and the
    first piece a window into a longer segment. -/
def cutRope : Rope where
  links := [⟨some ⟨[0xff, 0x07, 0x40, 0xff], .HOST⟩, 1, 2, by decide⟩, .empty,
    .overSegment ⟨[5, 0, 0x01], .HOST⟩, .overSegment ⟨[0x00, 1, 0, 0x2a], .HOST⟩]

theorem validateRope_eq_over_cutRope :
    let flat : View := .overSegment ⟨[0x07, 0x40, 5, 0, 0x01, 0x00, 1, 0, 0x2a], .HOST⟩
    cutRope.tryFlatten (fun _ => true) = .ok flat ∧
      validateRope cutRope refuseAll = .ok () ∧
      validateRope cutRope refuseAll =
        (TlvNode.overSpan flat.bytes refuseAll).map fun _ => () := by
  have hflat : cutRope.tryFlatten (fun _ => true) =
      .ok (.overSegment ⟨[0x07, 0x40, 5, 0, 0x01, 0x00, 1, 0, 0x2a], .HOST⟩) := by decide +kernel
  exact ⟨hflat, by decide +kernel, validateRope_eq_over _ _ _ hflat _⟩

end Wire

end LibTracer
