import LibTracer.Lib.Window
import LibTracer.Wire.Tlv

/-!
# The wire grammar (`grammar.hpp`)

The one parser of the format, written against any cursor: `parseHeader` reads and checks one TLV
header with its trailer, `walk` drives the iterative descent over an explicit stack of open nodes
whose growth is drawn from a block source, and reports each node to a sink.
-/

namespace LibTracer.Wire.Grammar

open Window
open Crc (Bytes Crc32cState Crc16State)

/-! ## Cursors and headers -/

structure SpanCursor where
  buf : Bytes
  deriving DecidableEq, Repr

instance : Cursor SpanCursor where
  size c := c.buf.length
  region c off len := ⟨window c.buf off len⟩
  byteAt c off := c.buf.getD off 0
  loadLe c off n := LittleEndian.load ((window c.buf off n).take 8)
  forEachSpan c off n := ([window c.buf off n], c)
  poisoned _ := false

inductive CrcCheck where
  | VERIFY | DEFER
  deriving DecidableEq, Repr

structure Header where
  type : UInt8
  opt : Opt
  header : Nat
  length : Nat
  tsSize : Nat
  crcSize : Nat
  total : Nat
  deriving DecidableEq, Repr

/-- `total_size_fits` for a size type wider than the wire length: one compare. -/
def totalSizeFits (avail header length tsSize crcSize : Nat) : Option Nat :=
  let t := header + length + tsSize + crcSize
  if avail < t then none else some t

section Parse

variable {C : Type} [Cursor C]

open Cursor

/-- The CRC arm of `parse_header`: the feed is payload then timestamp, in whatever spans the
    cursor yields; the latch is tested last. -/
def checkCrc (cur : C) (opt : Opt) (header payLen tsSize : Nat) : Option Err :=
  let crcOff := header + payLen + tsSize
  let (pay, cur) := forEachSpan cur header payLen
  let (ts, cur) := forEachSpan cur (header + payLen) tsSize
  let agrees :=
    if opt.cw then
      ((pay ++ ts).foldl Crc16State.feed {}).value == BitVec.ofNat 16 (loadLe cur crcOff 2)
    else
      ((pay ++ ts).foldl Crc32cState.feed {}).value == BitVec.ofNat 32 (loadLe cur crcOff 4)
  if !agrees then some .FRAME_CRC_FAIL
  else if poisoned cur then some .FRAME_TRUNCATED
  else none

/-- `parse_header`: parse and validate one TLV header and its trailer at offset 0. -/
def parseHeader (cur : C) (crcPolicy : CrcCheck) : Except Err Header :=
  let avail := size cur
  if avail < 4 then .error .FRAME_TRUNCATED else
  let typeB := byteAt cur 0
  let optB := byteAt cur 1
  if typeB = 0x00 then .error .FRAME_INVALID else
  if Opt.reservedSet optB then .error .FRAME_INVALID else
  let opt := Opt.decode optB
  let header := if opt.ll then 6 else 4
  if avail < header then .error .FRAME_TRUNCATED else
  let length := loadLe cur 2 (if opt.ll then 4 else 2) % 2 ^ 32
  if isPathRefType typeB && !pathRefBodyValid opt.pl opt.ll length then .error .FRAME_INVALID else
  let tsSize := if opt.ts then (if opt.tf then 4 else 8) else 0
  let crcSize := if opt.cr then (if opt.cw then 2 else 4) else 0
  match totalSizeFits avail header length tsSize crcSize with
  | none => .error .FRAME_TRUNCATED
  | some total =>
    let h : Header := ⟨typeB, opt, header, length, tsSize, crcSize, total⟩
    if opt.cr && crcPolicy == .VERIFY then
      match checkCrc cur opt header length tsSize with
      | some e => .error e
      | none => .ok h
    else .ok h

/-! ## The descent -/

/-- `walk_frame_t`: one open structured node. -/
structure WalkFrame (C : Type) where
  body : C
  pos : Nat

/-- A block source as one walk sees it: whether its `k`th request is served. -/
abbrev BlockSource := Nat → Bool

/-- `walk_stack_t`, innermost frame first; `draws` counts the blocks drawn so far. -/
structure WalkStack (C : Type) where
  frames : List (WalkFrame C)
  cap : Nat
  spill : Option BlockSource
  draws : Nat := 0

namespace WalkStack

def nextCap (cap : Nat) : Nat := if cap < 4 then 8 else cap * 2

/-- `grow`: relocate into a spill block of about twice the capacity. -/
def grow {C : Type} (st : WalkStack C) : Option (WalkStack C) :=
  match st.spill with
  | none => none
  | some s => if s st.draws then some { st with cap := nextCap st.cap, draws := st.draws + 1 }
      else none

/-- `push`: open one node; `none` when the receiver's decode resources are exhausted. -/
def push {C : Type} (st : WalkStack C) (f : WalkFrame C) : Option (WalkStack C) :=
  if st.frames.length = st.cap then
    match st.grow with
    | none => none
    | some st => some { st with frames := f :: st.frames }
  else some { st with frames := f :: st.frames }

end WalkStack

structure Sink (C σ : Type) where
  onOpen : Header → C → σ → σ
  onLeaf : Header → C → σ → σ
  onClose : σ → σ

variable {σ : Type}

/-- The loop of `walk`. Every round closes a node or consumes a header, so `fuel` bounds the
    rounds; running out of it is not an outcome of `walk` (`walk_eq_decode`). -/
def walkLoop (sink : Sink C σ) (crcPolicy : CrcCheck) :
    Nat → WalkStack C → σ → Except Err σ
  | 0, _, _ => .error .FRAME_TRUNCATED
  | fuel + 1, stack, s =>
    match stack.frames with
    | [] => .ok s
    | top :: below =>
      if top.pos = size top.body then
        walkLoop sink crcPolicy fuel { stack with frames := below } (sink.onClose s)
      else
        match parseHeader (region top.body top.pos (size top.body - top.pos)) crcPolicy with
        | .error e => .error e
        | .ok ch =>
          let node := region top.body top.pos ch.total
          let stack := { stack with frames := { top with pos := top.pos + ch.total } :: below }
          if ch.opt.pl then
            let s := sink.onOpen ch node s
            match stack.push ⟨region node ch.header ch.length, 0⟩ with
            | none => .error .TLV_NESTING_TOO_DEEP
            | some stack => walkLoop sink crcPolicy fuel stack s
          else walkLoop sink crcPolicy fuel stack (sink.onLeaf ch node s)

/-- `walk`: drive the descent from the root, modelling each node through `sink`. -/
def walk (root : C) (sink : Sink C σ) (stack : WalkStack C) (crcPolicy : CrcCheck) (s : σ) :
    Except Err σ :=
  match parseHeader root crcPolicy with
  | .error e => .error e
  | .ok rh =>
    if rh.total ≠ size root then .error .FRAME_INVALID
    else if !rh.opt.pl then .ok (sink.onLeaf rh root s)
    else
      let s := sink.onOpen rh root s
      match stack.push ⟨region root rh.header rh.length, 0⟩ with
      | none => .error .TLV_NESTING_TOO_DEEP
      | some stack => walkLoop sink crcPolicy (size root + 1) stack s

end Parse

end LibTracer.Wire.Grammar
