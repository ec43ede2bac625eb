import Mathlib.Data.List.TakeWhile
import LibTracer.Graph.Basic
import LibTracer.Lib.Segments
import LibTracer.Wire.PackedPath

/-!
# Paths as text

An address and an optional field part behind a colon.  The parser scans the text from left to right, packs
one record for every segment and keeps the names of the field steps behind the key, in one block.

* **`parse_grammar`** — exactly the spellings are accepted, with the keys and steps they spell.
-/

namespace LibTracer.PathText

open Segments List
open Crc (Bytes)
open Wire (storePathSegment packedPathValidKey)

/-! ## The parser -/

def kMaxSegmentBytes : Nat := 64
def kMaxPathBytes : Nat := 1024
def kMaxSegments : Nat := 255
def kMaxFieldDepth : Nat := 8

/-- `/` -/
def slash : UInt8 := 0x2F
/-- `:` -/
def colon : UInt8 := 0x3A
/-- `.` -/
def dot : UInt8 := 0x2E
/-- `[` -/
def bracket : UInt8 := 0x5B
/-- `]` -/
def unbracket : UInt8 := 0x5D

/-- The seven reserved characters, `/:.[]*?`. -/
def reserved : Bytes := [slash, colon, dot, bracket, unbracket, 0x2A, 0x3F]

def validSegment (seg : Bytes) : Bool :=
  !seg.isEmpty && decide (seg.length ≤ kMaxSegmentBytes) && seg.all fun b => !reserved.contains b

/-- `field_step_t`, over how its name is held. -/
structure FieldStep (ν : Type) where
  name : ν
  indexed : Bool := false
  append : Bool := false
  wildcard : Bool := false
  index : Nat := 0
  deriving DecidableEq, Repr

def isDigit (b : UInt8) : Bool := decide (0x30 ≤ b.toNat ∧ b.toNat ≤ 0x39)

def decimal (ds : Bytes) : Nat := ds.foldl (fun v b => v * 10 + (b.toNat - 0x30)) 0

/-- `std::from_chars` of an unsigned: the value of the digits in front, and what follows them; none where
there is no digit or the value has no room. -/
def fromChars (text : Bytes) : Option (Nat × Bytes) :=
  if text.takeWhile isDigit = [] then none
  else if 4294967295 < decimal (text.takeWhile isDigit) then none
  else some (decimal (text.takeWhile isDigit), text.dropWhile isDigit)

/-- `parse_step`, the selector between the brackets. -/
def parseSelector (name idx : Bytes) : Except Status (FieldStep Bytes) :=
  if idx = [] then .ok { name := name, indexed := true, append := true }
  else
    match fromChars idx with
    | none => .error .INVALID_PATH
    | some (value, rest) =>
      if rest ≠ [] ∨ 0xFFFF < value then .error .INVALID_PATH
      else .ok { name := name, indexed := true, index := value }

/-- `parse_step`, its last check. -/
def named (step : FieldStep Bytes) : Except Status (FieldStep Bytes) :=
  if validSegment step.name then .ok step else .error .INVALID_PATH

def parseStep (step : Bytes) : Except Status (FieldStep Bytes) :=
  match cutAt bracket step with
  | (name, none) => named { name := name }
  | (name, some after) =>
    if step.getLast? ≠ some unbracket then .error .INVALID_PATH
    else
      match parseSelector name after.dropLast with
      | .error e => .error e
      | .ok fs => named fs

/-- `parse`: the loop over the field steps; `rest` is what the scanner has not read. -/
def parseSteps : Nat → Bytes → List (FieldStep Bytes) → Except Status (List (FieldStep Bytes))
  | 0, _, _ => .error .INVALID_PATH
  | fuel + 1, rest, steps =>
    let cut := cutAt dot rest
    if cut.1 = [] then .error .INVALID_PATH
    else
      match parseStep cut.1 with
      | .error e => .error e
      | .ok fs =>
        if steps.length = kMaxFieldDepth then .error .INVALID_PATH
        else
          match cut.2 with
          | none => .ok (steps ++ [fs])
          | some rest' => parseSteps fuel rest' (steps ++ [fs])

/-- `parse`: the loop over the segments, with their number and what is packed so far. -/
def parseSegments : Nat → Bytes → Nat → Bytes → Except Status (Nat × Bytes)
  | 0, _, segments, key => .ok (segments, key)
  | fuel + 1, rest, segments, key =>
    if rest = [] then .ok (segments, key)
    else
      let cut := cutAt slash rest
      if !validSegment cut.1 || decide (kMaxSegments < segments + 1) then .error .INVALID_PATH
      else
        match cut.2 with
        | none => .ok (segments + 1, key ++ storePathSegment cut.1)
        | some rest' => parseSegments fuel rest' (segments + 1) (key ++ storePathSegment cut.1)

/-- `parse`: trailing slashes go, but for the root's. -/
def stripSlashes : Nat → Bytes → Bytes
  | 0, addr => addr
  | fuel + 1, addr =>
    if 1 < addr.length ∧ addr.getLast? = some slash then stripSlashes fuel addr.dropLast else addr

/-- `parse`: the root is zero segments. -/
def canonical (addr : Bytes) : Bytes :=
  let a := stripSlashes addr.length addr
  if a.length = 1 then [] else a

/-- `parse`: the names go behind the key, and each step views its own from there. -/
def placeNames : Nat → List (FieldStep Bytes) → List (FieldStep (Nat × Nat)) × Bytes
  | _, [] => ([], [])
  | off, st :: steps =>
    let r := placeNames (off + st.name.length) steps
    (⟨(off, st.name.length), st.indexed, st.append, st.wildcard, st.index⟩ :: r.1, st.name ++ r.2)

/-- `path_t`: the bytes of its block behind the field path, which are the key and the names of the steps. -/
structure Path where
  block : Bytes
  keyLen : Nat
  segments : Nat
  steps : List (FieldStep (Nat × Nat))
  deriving DecidableEq, Repr

def Path.key (p : Path) : Bytes := p.block.take p.keyLen

def viewed (block : Bytes) (st : FieldStep (Nat × Nat)) : FieldStep Bytes :=
  ⟨(block.drop st.name.1).take st.name.2, st.indexed, st.append, st.wildcard, st.index⟩

def Path.field (p : Path) : List (FieldStep Bytes) := p.steps.map (viewed p.block)

section

variable (gives : Nat → Bool) (fieldBytes : Nat)

/-- `parse`: the block is drawn, then filled; `fieldBytes` is the size of a field path. -/
def pack (addr : Bytes) (steps : List (FieldStep Bytes)) : Except Status Path :=
  let len := (if steps.isEmpty then 0 else fieldBytes) + addr.length + (steps.map (·.name.length)).sum
  if len ≠ 0 ∧ gives len = false then .error .BACKPRESSURE
  else
    match parseSegments addr.length (addr.drop 1) 0 [] with
    | .error e => .error e
    | .ok (segments, key) =>
      let names := placeNames addr.length steps
      .ok ⟨key ++ names.2, addr.length, segments, names.1⟩

/-- `path_t::parse`; `gives` is what the block source answers to a size. -/
def parse (text : Bytes) : Except Status Path :=
  let cut := cutAt colon text
  let fieldText := cut.2.getD []
  if cut.1.head? ≠ some slash then .error .INVALID_PATH
  else if kMaxPathBytes < (canonical cut.1).length then .error .INVALID_PATH
  else if fieldText = [] then pack gives fieldBytes (canonical cut.1) []
  else
    match parseSteps fieldText.length fieldText [] with
    | .error e => .error e
    | .ok steps => pack gives fieldBytes (canonical cut.1) steps

end

/-! ## What may be written -/

def slashed (segs : List Bytes) : Bytes := segs.flatMap (slash :: ·)

def dotted (steps : List Bytes) : Bytes := (steps.flatMap (dot :: ·)).drop 1

inductive Selector where
  | none
  | append
  | index (digits : Bytes)
  deriving DecidableEq, Repr

namespace Selector

def text : Selector → Bytes
  | .none => []
  | .append => [bracket, unbracket]
  | .index digits => bracket :: (digits ++ [unbracket])

def Holds : Selector → Prop
  | .index digits => digits ≠ [] ∧ (∀ d ∈ digits, isDigit d = true) ∧ decimal digits ≤ 0xFFFF
  | _ => True

def step (name : Bytes) : Selector → FieldStep Bytes
  | .none => { name := name }
  | .append => { name := name, indexed := true, append := true }
  | .index digits => { name := name, indexed := true, index := decimal digits }

end Selector

structure StepSpelling where
  name : Bytes
  selector : Selector
  valid : validSegment name = true
  holds : selector.Holds

def StepSpelling.text (w : StepSpelling) : Bytes := w.name ++ w.selector.text

def StepSpelling.step (w : StepSpelling) : FieldStep Bytes := w.selector.step w.name

/-- A path as it may be written: segments, trailing slashes, and the field part if there is a colon. -/
structure Spelling where
  segs : List Bytes
  slashes : Nat
  field : Option (List StepSpelling)
  valid : ∀ seg ∈ segs, validSegment seg = true
  rooted : segs = [] → 0 < slashes
  count : segs.length ≤ kMaxSegments
  size : (slashed segs).length ≤ kMaxPathBytes
  depth : ∀ steps, field = some steps → steps.length ≤ kMaxFieldDepth

namespace Spelling

def address (w : Spelling) : Bytes := slashed w.segs ++ List.replicate w.slashes slash

def tail : Option (List StepSpelling) → Bytes
  | none => []
  | some steps => colon :: dotted (steps.map StepSpelling.text)

def text (w : Spelling) : Bytes := w.address ++ tail w.field

def steps (w : Spelling) : List StepSpelling := w.field.getD []

end Spelling

/-! ## Segments and steps -/

theorem of_validSegment {seg : Bytes} (h : validSegment seg = true) :
    seg ≠ [] ∧ seg.length ≤ kMaxSegmentBytes ∧ ∀ b ∈ reserved, b ∉ seg := by
  rw [validSegment, Bool.and_eq_true, Bool.and_eq_true, Bool.not_eq_true', isEmpty_eq_false_iff,
    decide_eq_true_eq, all_eq_true] at h
  refine ⟨h.1.1, h.1.2, fun b hb hmem => ?_⟩
  have := h.2 b hmem
  rw [Bool.not_eq_true', contains_eq_mem, decide_eq_false_iff_not] at this
  exact this hb

variable {n : Nat}

section

variable {segs : List Bytes} (hvalid : ∀ seg ∈ segs, validSegment seg = true)

include hvalid

theorem notMem_slashed {b : UInt8} (hb : b ∈ reserved) (hne : b ≠ slash) : b ∉ slashed segs := by
  intro hmem
  obtain ⟨seg, hseg, hmem⟩ := mem_flatMap.mp hmem
  obtain heq | hmem := mem_cons.mp hmem
  · exact hne heq
  · exact (of_validSegment (hvalid seg hseg)).2.2 b hb hmem

theorem getLast_slashed (hne : segs ≠ []) : (slashed segs).getLast? ≠ some slash := by
  obtain ⟨init, last, rfl⟩ := (eq_nil_or_concat segs).resolve_left hne
  rw [concat_eq_append] at hvalid ⊢
  obtain ⟨hlast, -, hnone⟩ := of_validSegment (hvalid last (by simp))
  rw [slashed, flatMap_append, flatMap_singleton, getLast?_append_cons,
    getLast?_cons, getLast?_eq_some_getLast hlast]
  intro heq
  have hslash : last.getLast hlast = slash := Option.some.inj heq
  have hmem : last.getLast hlast ∈ last := getLast_mem hlast
  rw [hslash] at hmem
  exact hnone slash (by decide) hmem

theorem length_packed : (segs.flatMap storePathSegment).length = (slashed segs).length := by
  induction segs with
  | nil => rfl
  | cons seg segs ih =>
    obtain ⟨hne, hlen, -⟩ := of_validSegment (hvalid seg mem_cons_self)
    have hroom : ¬ (seg = [] ∨ Wire.kPackedSegMaxBytes < seg.length) := by
      rw [kMaxSegmentBytes] at hlen
      rw [Wire.kPackedSegMaxBytes, not_or]
      exact ⟨hne, by omega⟩
    have hrest := ih fun s hs => hvalid s (mem_cons_of_mem _ hs)
    rw [slashed] at hrest ⊢
    rw [flatMap_cons, flatMap_cons, length_append, length_append, hrest, storePathSegment, if_neg hroom]
    rfl

/-- **Valid segments are packed one by one.** -/
theorem parseSegments_slashed {fuel : Nat} (key : Bytes) (hcount : n + segs.length ≤ kMaxSegments)
    (hfuel : (slashed segs).length ≤ fuel) : parseSegments fuel ((slashed segs).drop 1) n key =
      .ok (n + segs.length, key ++ segs.flatMap storePathSegment) := by
  induction segs generalizing fuel n key with
  | nil =>
    cases fuel with
    | zero => simp [parseSegments]
    | succ fuel => simp [parseSegments, slashed]
  | cons seg segs ih =>
    have hseg := hvalid seg mem_cons_self
    obtain ⟨hne, -, hnone⟩ := of_validSegment hseg
    have hdrop : (slashed (seg :: segs)).drop 1 = seg ++ slashed segs := rfl
    have hlen : (slashed (seg :: segs)).length = 1 + seg.length + (slashed segs).length := by
      rw [slashed, flatMap_cons, length_append, length_cons, ← slashed]
      omega
    rw [length_cons] at hcount ⊢
    obtain ⟨fuel, rfl⟩ : ∃ k, fuel = k + 1 := ⟨fuel - 1, by omega⟩
    have hgo : (!validSegment seg || decide (kMaxSegments < n + 1)) = false := by
      rw [hseg, decide_eq_false (by omega)]
      rfl
    have hsum : n + 1 + segs.length = n + (segs.length + 1) := by omega
    rw [hdrop, parseSegments, if_neg (by simp [hne])]
    cases segs with
    | nil =>
      have hcut : cutAt slash (seg ++ slashed []) = (seg, none) := by
        rw [slashed, flatMap_nil, append_nil]
        exact cutAt_of_notMem (hnone slash (by decide))
      rw [hcut]
      dsimp only
      rw [hgo]
      simp
    | cons next segs =>
      have hcut : cutAt slash (seg ++ slashed (next :: segs)) =
          (seg, some ((slashed (next :: segs)).drop 1)) :=
        cutAt_append (hnone slash (by decide)) _
      have hrest := ih (fun s hs => hvalid s (mem_cons_of_mem _ hs)) (n := n + 1)
        (key ++ storePathSegment seg) (by omega)
        (show (slashed (next :: segs)).length ≤ fuel by omega)
      rw [hcut]
      dsimp only
      rw [hgo, if_neg nofun, hrest, hsum, append_assoc, ← flatMap_cons]

end

variable {fuel : Nat} {rest text : Bytes}

/-- **Only valid segments are packed.** -/
theorem of_parseSegments {m : Nat} {key key' : Bytes} (hfuel : rest.length ≤ fuel)
    (hn : n ≤ kMaxSegments) (hlast : rest.getLast? ≠ some slash)
    (h : parseSegments fuel rest n key = .ok (m, key')) :
    ∃ segs, (∀ seg ∈ segs, validSegment seg = true) ∧ rest = (slashed segs).drop 1 ∧
      n + segs.length ≤ kMaxSegments := by
  induction fuel generalizing rest n key with
  | zero =>
    obtain rfl := length_eq_zero_iff.mp (Nat.le_zero.mp hfuel)
    exact ⟨[], (forall_mem_nil _), rfl, hn⟩
  | succ fuel ih =>
    rw [parseSegments] at h
    by_cases hnil : rest = []
    · exact ⟨[], (forall_mem_nil _), hnil, hn⟩
    rw [if_neg hnil] at h
    obtain ⟨seg, more, hcut⟩ : ∃ seg more, cutAt slash rest = (seg, more) := ⟨_, _, rfl⟩
    rw [hcut] at h
    dsimp only at h
    cases hgo : !validSegment seg || decide (kMaxSegments < n + 1) with
    | true =>
      rw [hgo] at h
      cases h
    | false =>
      rw [hgo, if_neg nofun] at h
      rw [Bool.or_eq_false_iff, Bool.not_eq_false', decide_eq_false_iff_not] at hgo
      obtain ⟨-, ⟨hmore, hrest⟩ | ⟨rest', hmore, hrest⟩⟩ := of_cutAt hcut
      · refine ⟨[seg], fun s hs => ?_, ?_, ?_⟩
        · rw [mem_singleton.mp hs]
          exact hgo.1
        · simp [slashed, hrest]
        · rw [length_singleton]
          omega
      rw [hmore] at h
      dsimp only at h
      have hne : rest' ≠ [] := by
        intro hempty
        rw [hrest, hempty] at hlast
        exact hlast (by simp)
      rw [hrest, length_append, length_cons] at hfuel
      obtain ⟨segs, hvalid, hjoin, hcount⟩ := ih (by omega) (by omega)
        (by rw [hrest, getLast?_append_cons, getLast?_cons] at hlast
            rwa [getLast?_eq_some_getLast hne] at hlast ⊢) h
      refine ⟨seg :: segs, ?_, ?_, ?_⟩
      · intro s hs
        obtain rfl | hs := mem_cons.mp hs
        · exact hgo.1
        · exact hvalid s hs
      · cases segs with
        | nil => exact absurd hjoin hne
        | cons next segs =>
          rw [hrest, hjoin]
          rfl
      · rw [length_cons]
        omega

theorem takeWhile_digits {digits : Bytes} (h : ∀ d ∈ digits, isDigit d = true) :
    digits.takeWhile isDigit = digits ∧ digits.dropWhile isDigit = [] :=
  ⟨takeWhile_eq_self_iff.mpr h, dropWhile_eq_nil_iff.mpr h⟩

theorem dot_notMem_text (w : StepSpelling) : dot ∉ w.text := by
  intro hmem
  obtain hname | hsel := mem_append.mp hmem
  · exact (of_validSegment w.valid).2.2 dot (by decide) hname
  have hholds := w.holds
  cases hs : w.selector with
  | none =>
    rw [hs] at hsel
    exact nomatch hsel
  | append =>
    rw [hs] at hsel
    exact absurd hsel (by decide)
  | index digits =>
    rw [hs] at hsel hholds
    have hdigit : dot ∉ digits := fun hd => absurd (hholds.2.1 dot hd) (by decide)
    rw [Selector.text, mem_cons, mem_append, mem_singleton] at hsel
    obtain heq | hd | heq := hsel
    · exact absurd heq (by decide)
    · exact hdigit hd
    · exact absurd heq (by decide)

theorem text_ne_nil (w : StepSpelling) : w.text ≠ [] := by
  intro hnil
  exact (of_validSegment w.valid).1 (append_eq_nil_iff.mp hnil).1

/-- **A step is read as it is spelt.** -/
theorem parseStep_text (w : StepSpelling) : parseStep w.text = .ok w.step := by
  have hnone := (of_validSegment w.valid).2.2 bracket (by decide)
  have hholds := w.holds
  rw [parseStep, StepSpelling.text, StepSpelling.step]
  cases hs : w.selector with
  | none =>
    rw [Selector.text, append_nil, cutAt_of_notMem hnone]
    exact if_pos w.valid
  | append =>
    rw [Selector.text, cutAt_append hnone]
    dsimp only
    rw [if_neg (by simp)]
    exact if_pos w.valid
  | index digits =>
    rw [hs] at hholds
    obtain ⟨hne, hdigits, hsmall⟩ := hholds
    obtain ⟨htake, hdrop⟩ := takeWhile_digits hdigits
    have hidx : parseSelector w.name digits = .ok (Selector.step w.name (.index digits)) := by
      rw [parseSelector, if_neg hne, fromChars, htake, hdrop, if_neg hne, if_neg (by omega)]
      exact if_neg (by simp [hsmall])
    have hlast : (w.name ++ bracket :: (digits ++ [unbracket])).getLast? = some unbracket := by
      rw [← cons_append, ← append_assoc, getLast?_concat]
    rw [Selector.text, cutAt_append hnone]
    dsimp only
    rw [if_neg (fun hno => hno hlast), dropLast_concat, hidx]
    exact if_pos w.valid

variable {fs : FieldStep Bytes}

theorem of_named {st : FieldStep Bytes} (h : named st = .ok fs) :
    validSegment st.name = true ∧ st = fs := by
  rw [named] at h
  cases hv : validSegment st.name with
  | true =>
    rw [hv] at h
    cases h
    exact ⟨rfl, rfl⟩
  | false =>
    rw [hv] at h
    cases h

theorem of_parseSelector {name idx : Bytes} (h : parseSelector name idx = .ok fs) :
    ∃ sel : Selector, sel.Holds ∧ sel.text = bracket :: (idx ++ [unbracket]) ∧ sel.step name = fs := by
  rw [parseSelector] at h
  by_cases hnil : idx = []
  · rw [if_pos hnil] at h
    cases h
    exact ⟨.append, trivial, by rw [hnil]; rfl, rfl⟩
  rw [if_neg hnil, fromChars] at h
  by_cases hdigits : idx.takeWhile isDigit = []
  · rw [if_pos hdigits] at h
    cases h
  rw [if_neg hdigits] at h
  by_cases hwide : 4294967295 < decimal (idx.takeWhile isDigit)
  · rw [if_pos hwide] at h
    cases h
  rw [if_neg hwide] at h
  dsimp only at h
  by_cases hbad : idx.dropWhile isDigit ≠ [] ∨ 0xFFFF < decimal (idx.takeWhile isDigit)
  · rw [if_pos hbad] at h
    cases h
  rw [if_neg hbad] at h
  rw [not_or, not_not] at hbad
  have hall := dropWhile_eq_nil_iff.mp hbad.1
  rw [(takeWhile_digits hall).1] at hbad h
  cases h
  exact ⟨.index idx, ⟨hnil, hall, not_lt.mp hbad.2⟩, rfl, rfl⟩

/-- **Nothing but a spelt step is read.** -/
theorem of_parseStep (h : parseStep text = .ok fs) : ∃ w : StepSpelling, w.text = text ∧ w.step = fs := by
  obtain ⟨name, more, hcut⟩ : ∃ name more, cutAt bracket text = (name, more) := ⟨_, _, rfl⟩
  rw [parseStep, hcut] at h
  obtain ⟨-, ⟨hmore, htext⟩ | ⟨after, hmore, htext⟩⟩ := of_cutAt hcut
  · rw [hmore] at h
    obtain ⟨hvalid, rfl⟩ := of_named h
    exact ⟨⟨name, .none, hvalid, trivial⟩, by rw [htext]; exact append_nil _, rfl⟩
  rw [hmore] at h
  dsimp only at h
  by_cases hlast : text.getLast? = some unbracket
  · rw [if_neg (fun hno => hno hlast)] at h
    -- the last character closes what the first bracket opened
    have hafter : after = after.dropLast ++ [unbracket] := by
      obtain hnil | ⟨init, b, hconcat⟩ := eq_nil_or_concat after
      · rw [htext, hnil] at hlast
        exact absurd hlast (by simp [bracket, unbracket])
      rw [concat_eq_append] at hconcat
      rw [htext, hconcat, ← cons_append, ← append_assoc, getLast?_concat] at hlast
      rw [hconcat, dropLast_concat, Option.some.inj hlast]
    cases hsel : parseSelector name after.dropLast with
    | error e =>
      rw [hsel] at h
      cases h
    | ok st =>
      rw [hsel] at h
      obtain ⟨hvalid, rfl⟩ := of_named h
      obtain ⟨sel, hholds, htail, rfl⟩ := of_parseSelector hsel
      have hname : (sel.step name).name = name := by cases sel <;> rfl
      rw [hname] at hvalid
      rw [← hafter] at htail
      exact ⟨⟨name, sel, hvalid, hholds⟩, by rw [htext, ← htail]; rfl, rfl⟩
  · rw [if_pos hlast] at h
    cases h

/-- **The steps are read as they are spelt.** -/
theorem parseSteps_dotted {ws : List StepSpelling} (hne : ws ≠ [])
    (steps : List (FieldStep Bytes)) (hdepth : steps.length + ws.length ≤ kMaxFieldDepth)
    (hfuel : (dotted (ws.map StepSpelling.text)).length ≤ fuel) :
    parseSteps fuel (dotted (ws.map StepSpelling.text)) steps = .ok (steps ++ ws.map StepSpelling.step) := by
  induction ws generalizing fuel steps with
  | nil => exact absurd rfl hne
  | cons w ws ih =>
    have hnone := dot_notMem_text w
    have hdot : dotted ((w :: ws).map StepSpelling.text) =
        w.text ++ (ws.map StepSpelling.text).flatMap (dot :: ·) := rfl
    rw [length_cons] at hdepth
    rw [hdot, length_append] at hfuel
    have hpos := length_pos_iff.mpr (text_ne_nil w)
    obtain ⟨fuel, rfl⟩ : ∃ k, fuel = k + 1 := ⟨fuel - 1, by omega⟩
    rw [hdot, parseSteps]
    cases ws with
    | nil =>
      have hcut : cutAt dot (w.text ++ (List.map StepSpelling.text []).flatMap (dot :: ·)) =
          (w.text, none) := by
        rw [map_nil, flatMap_nil, append_nil]
        exact cutAt_of_notMem hnone
      rw [hcut]
      dsimp only
      rw [if_neg (text_ne_nil w), parseStep_text]
      dsimp only
      rw [if_neg (by omega)]
      rfl
    | cons next ws =>
      have hcut : cutAt dot (w.text ++ ((next :: ws).map StepSpelling.text).flatMap (dot :: ·)) =
          (w.text, some (dotted ((next :: ws).map StepSpelling.text))) :=
        cutAt_append hnone _
      have hlen : (((next :: ws).map StepSpelling.text).flatMap (dot :: ·)).length =
          (dotted ((next :: ws).map StepSpelling.text)).length + 1 := by
        rw [dotted, length_drop, map_cons, flatMap_cons, cons_append, length_cons]
        omega
      have hrest := ih (cons_ne_nil _ _) (steps ++ [w.step])
        (by rw [length_append, length_singleton]; omega)
        (show (dotted ((next :: ws).map StepSpelling.text)).length ≤ fuel by omega)
      rw [hcut]
      dsimp only
      rw [if_neg (text_ne_nil w), parseStep_text]
      dsimp only
      rw [if_neg (by omega), hrest, append_assoc]
      rfl

/-- **Nothing but spelt steps is read.** -/
theorem of_parseSteps {steps steps' : List (FieldStep Bytes)}
    (hdepth : steps.length ≤ kMaxFieldDepth) (h : parseSteps fuel rest steps = .ok steps') :
    ∃ ws : List StepSpelling, ws ≠ [] ∧ dotted (ws.map StepSpelling.text) = rest ∧
      steps.length + ws.length ≤ kMaxFieldDepth := by
  induction fuel generalizing rest steps with
  | zero => cases h
  | succ fuel ih =>
    obtain ⟨text, more, hcut⟩ : ∃ text more, cutAt dot rest = (text, more) := ⟨_, _, rfl⟩
    rw [parseSteps, hcut] at h
    dsimp only at h
    split at h
    · cases h
    cases hstep : parseStep text with
    | error e =>
      rw [hstep] at h
      cases h
    | ok fs =>
      rw [hstep] at h
      dsimp only at h
      split at h
      · cases h
      obtain ⟨w, hw, -⟩ := of_parseStep hstep
      obtain ⟨-, ⟨hmore, hrest⟩ | ⟨rest', hmore, hrest⟩⟩ := of_cutAt hcut
      · refine ⟨[w], cons_ne_nil _ _, ?_, ?_⟩
        · rw [hrest, ← hw]
          simp [dotted]
        · rw [length_singleton]
          omega
      rw [hmore] at h
      obtain ⟨ws, hne, hjoin, hcount⟩ :=
        ih (by rw [length_append, length_singleton]; omega) h
      rw [length_append, length_singleton] at hcount
      refine ⟨w :: ws, cons_ne_nil _ _, ?_, ?_⟩
      · obtain ⟨next, ws, rfl⟩ := exists_cons_of_ne_nil hne
        rw [hrest, ← hw, ← hjoin]
        rfl
      · rw [length_cons]
        omega

/-! ## Trailing slashes -/

def Stripped (addr : Bytes) : Prop := addr.length = 1 ∨ addr.getLast? ≠ some slash

variable {addr : Bytes}

theorem stripSlashes_of_stripped (h : Stripped addr) (fuel : Nat) : stripSlashes fuel addr = addr := by
  cases fuel with
  | zero => rfl
  | succ fuel =>
    rw [stripSlashes, if_neg]
    intro hgo
    obtain hone | hlast := h
    · omega
    · exact hlast hgo.2

theorem stripSlashes_append (h : Stripped addr) (hne : addr ≠ []) {k : Nat}
    (hfuel : k ≤ fuel) : stripSlashes fuel (addr ++ List.replicate k slash) = addr := by
  induction k generalizing fuel with
  | zero =>
    rw [replicate_zero, append_nil]
    exact stripSlashes_of_stripped h fuel
  | succ k ih =>
    obtain ⟨fuel, rfl⟩ : ∃ j, fuel = j + 1 := ⟨fuel - 1, by omega⟩
    have hpos := length_pos_iff.mpr hne
    rw [replicate_succ', ← append_assoc, stripSlashes, if_pos, dropLast_concat]
    · exact ih (by omega)
    · rw [getLast?_concat, length_append, length_append, length_singleton]
      exact ⟨by omega, rfl⟩

/-- **What is stripped are slashes**, and all of them. -/
theorem of_stripSlashes (hne : addr ≠ []) (hfuel : addr.length ≤ fuel) :
    stripSlashes fuel addr ≠ [] ∧ Stripped (stripSlashes fuel addr) ∧
      ∃ k, addr = stripSlashes fuel addr ++ List.replicate k slash := by
  induction fuel generalizing addr with
  | zero => exact absurd (length_eq_zero_iff.mp (Nat.le_zero.mp hfuel)) hne
  | succ fuel ih =>
    rw [stripSlashes]
    split
    next hgo =>
      have hlen : addr.dropLast.length = addr.length - 1 := length_dropLast
      have hlong := hgo.1
      have hdrop : addr.dropLast ≠ [] := length_pos_iff.mp (by omega)
      obtain ⟨hnil, hstripped, k, hk⟩ := ih hdrop (by omega)
      refine ⟨hnil, hstripped, k + 1, ?_⟩
      rw [replicate_succ', ← append_assoc, ← hk]
      exact (dropLast_append_getLast? slash hgo.2).symm
    next hgo =>
    refine ⟨hne, ?_, 0, (append_nil _).symm⟩
    by_cases hlast : addr.getLast? = some slash
    · left
      have := length_pos_iff.mpr hne
      have : ¬ 1 < addr.length := fun hlt => hgo ⟨hlt, hlast⟩
      omega
    · exact .inr hlast

theorem canonical_address (w : Spelling) : canonical w.address = slashed w.segs := by
  have hfuel : w.slashes ≤ w.address.length := by
    rw [Spelling.address, length_append, length_replicate]
    omega
  rw [canonical]
  by_cases hroot : w.segs = []
  · obtain ⟨k, hk⟩ : ∃ k, w.slashes = k + 1 := ⟨w.slashes - 1, by have := w.rooted hroot; omega⟩
    have haddr : w.address = [slash] ++ List.replicate k slash := by
      rw [Spelling.address, hroot, hk]
      rfl
    rw [haddr, stripSlashes_append (.inl rfl) (cons_ne_nil _ _) (by simp), hroot]
    rfl
  obtain ⟨seg, segs, hsegs⟩ := exists_cons_of_ne_nil hroot
  have hseg := (of_validSegment (w.valid seg (by rw [hsegs]; exact mem_cons_self))).1
  have hlen : 1 < (slashed w.segs).length := by
    have := length_pos_iff.mpr hseg
    rw [hsegs, slashed, flatMap_cons, length_append, length_cons]
    omega
  have hstrip : stripSlashes w.address.length w.address = slashed w.segs :=
    stripSlashes_append (.inr (getLast_slashed w.valid hroot)) (length_pos_iff.mp (by omega)) hfuel
  rw [hstrip]
  exact if_neg (by omega)

/-! ## Paths -/

section

variable {gives : Nat → Bool} {fieldBytes : Nat}

theorem viewed_placeNames (steps : List (FieldStep Bytes)) (front : Bytes) {off : Nat}
    (hoff : off = front.length) (back : Bytes) :
    (placeNames off steps).1.map (viewed (front ++ ((placeNames off steps).2 ++ back))) = steps := by
  induction steps generalizing front off back with
  | nil => rfl
  | cons st steps ih =>
    rw [placeNames]
    dsimp only
    rw [map_cons]
    congr 1
    · rw [viewed, hoff, drop_left' rfl, append_assoc, take_left' rfl]
    · have hoff' : off + st.name.length = (front ++ st.name).length := by
        rw [length_append, hoff]
      have hrest := ih (front ++ st.name) hoff' back
      rwa [append_assoc] at hrest ⊢

variable (fieldBytes) in
theorem pack_spelling (hgives : ∀ n, gives n = true) (w : Spelling) :
    ∃ p, pack gives fieldBytes (slashed w.segs) (w.steps.map StepSpelling.step) = .ok p ∧
      p.key = w.segs.flatMap storePathSegment ∧ p.segments = w.segs.length ∧
      p.field = w.steps.map StepSpelling.step := by
  have hsegs := parseSegments_slashed w.valid [] (n := 0) (by rw [zero_add]; exact w.count)
    le_rfl
  have hlen := length_packed w.valid
  rw [pack]
  dsimp only
  rw [if_neg (by rw [hgives]; simp), hsegs]
  refine ⟨_, rfl, ?_, zero_add _, ?_⟩
  · rw [Path.key, nil_append]
    exact take_left' hlen
  · have := viewed_placeNames (w.steps.map StepSpelling.step) (w.segs.flatMap storePathSegment) hlen.symm []
    rwa [append_nil] at this

theorem head_address (w : Spelling) : w.address.head? = some slash := by
  rw [Spelling.address]
  cases hs : w.segs with
  | nil =>
    obtain ⟨k, hk⟩ : ∃ k, w.slashes = k + 1 := ⟨w.slashes - 1, by have := w.rooted hs; omega⟩
    rw [hk]
    rfl
  | cons seg segs => rfl

theorem cutAt_text (w : Spelling) :
    cutAt colon w.text = (w.address, w.field.map fun steps => dotted (steps.map StepSpelling.text)) := by
  have hnone : colon ∉ w.address := by
    intro hmem
    obtain hmem | hmem := mem_append.mp hmem
    · exact notMem_slashed w.valid (by decide) (by decide) hmem
    · exact absurd (eq_of_mem_replicate hmem) (by decide)
  rw [Spelling.text]
  cases w.field with
  | none =>
    rw [Spelling.tail, append_nil]
    exact cutAt_of_notMem hnone
  | some steps => exact cutAt_append hnone _

variable (fieldBytes) in
/-- **Every spelling is accepted**, with the key and the steps it spells. -/
theorem parse_spelling (hgives : ∀ n, gives n = true) (w : Spelling) :
    ∃ p, parse gives fieldBytes w.text = .ok p ∧ p.key = w.segs.flatMap storePathSegment ∧
      p.segments = w.segs.length ∧ p.field = w.steps.map StepSpelling.step := by
  have hpack := pack_spelling fieldBytes hgives w
  rw [parse, cutAt_text]
  dsimp only
  rw [if_neg (fun hno => hno (head_address w)), canonical_address, if_neg (not_lt.mpr w.size)]
  cases hfield : w.field with
  | none =>
    rw [Spelling.steps, hfield] at hpack ⊢
    exact hpack
  | some steps =>
    rw [Spelling.steps, hfield] at hpack ⊢
    rw [Option.map_some, Option.getD_some]
    by_cases hnil : steps = []
    · subst hnil
      exact hpack
    have hdepth := w.depth steps hfield
    have htext : dotted (steps.map StepSpelling.text) ≠ [] := by
      obtain ⟨first, rest, rfl⟩ := exists_cons_of_ne_nil hnil
      intro hempty
      exact text_ne_nil first (append_eq_nil_iff.mp hempty).1
    rw [if_neg htext, parseSteps_dotted hnil [] (by rw [length_nil, zero_add]; exact hdepth)
      le_rfl]
    exact hpack

section

variable {p : Path} {steps : List (FieldStep Bytes)}

variable {addr : Bytes}

theorem segments_of_pack (h : pack gives fieldBytes addr steps = .ok p) :
    ∃ r, parseSegments addr.length (addr.drop 1) 0 [] = .ok r := by
  rw [pack] at h
  dsimp only at h
  obtain ⟨len, hlen⟩ : ∃ len, len = (if steps.isEmpty then 0 else fieldBytes) + addr.length +
    (steps.map (·.name.length)).sum := ⟨_, rfl⟩
  rw [← hlen] at h
  split at h
  · cases h
  cases hseg : parseSegments addr.length (addr.drop 1) 0 [] with
  | error e =>
    rw [hseg] at h
    cases h
  | ok r => exact ⟨r, rfl⟩

theorem address_of_pack (hroot : addr.head? = some slash)
    (h : pack gives fieldBytes (canonical addr) steps = .ok p) :
    ∃ segs k, addr = slashed segs ++ List.replicate k slash ∧ canonical addr = slashed segs ∧
      (∀ seg ∈ segs, validSegment seg = true) ∧ (segs = [] → 0 < k) ∧ segs.length ≤ kMaxSegments := by
  have hne : addr ≠ [] := by
    intro hnil
    rw [hnil] at hroot
    cases hroot
  obtain ⟨hsne, hstripped, k, hk⟩ := of_stripSlashes hne le_rfl
  obtain ⟨a, ha⟩ : ∃ a, a = stripSlashes addr.length addr := ⟨_, rfl⟩
  rw [← ha] at hsne hstripped hk
  obtain ⟨rest, hrest⟩ : ∃ rest, a = slash :: rest := by
    rw [hk] at hroot
    cases a with
    | nil => exact absurd rfl hsne
    | cons b rest =>
      cases hroot
      exact ⟨rest, rfl⟩
  by_cases hone : a.length = 1
  · have hnil : rest = [] := by
      rw [hrest, length_cons] at hone
      exact length_eq_zero_iff.mp (by omega)
    refine ⟨[], k + 1, ?_, ?_, (forall_mem_nil _), fun _ => Nat.succ_pos _, Nat.zero_le _⟩
    · rw [hk, hrest, hnil]
      rfl
    · rw [canonical, ← ha]
      exact if_pos hone
  · have hcanon : canonical addr = a := by
      rw [canonical, ← ha]
      exact if_neg hone
    have hrne : rest ≠ [] := by
      intro hnil
      rw [hrest, hnil] at hone
      exact hone rfl
    have hlast : rest.getLast? ≠ some slash := by
      have := hstripped.resolve_left hone
      rw [hrest, getLast?_cons, getLast?_eq_some_getLast hrne] at this
      rwa [getLast?_eq_some_getLast hrne]
    rw [hcanon] at h
    obtain ⟨r, hseg⟩ := segments_of_pack h
    rw [hrest] at hseg
    obtain ⟨segs, hvalid, hjoin, hcount⟩ := of_parseSegments (n := 0)
      (by rw [length_cons]; exact Nat.le_succ _) (Nat.zero_le _) hlast hseg
    rw [Nat.zero_add] at hcount
    have hsegs : segs ≠ [] := by
      intro hnil
      rw [hnil] at hjoin
      exact hrne hjoin
    have hslashed : a = slashed segs := by
      obtain ⟨first, others, rfl⟩ := exists_cons_of_ne_nil hsegs
      rw [hrest, hjoin]
      rfl
    exact ⟨segs, k, by rw [← hslashed]; exact hk, hcanon.trans hslashed, hvalid,
      fun hnil => absurd hnil hsegs, hcount⟩

/-- **Nothing but a spelling is accepted.** -/
theorem spelling_of_parse (h : parse gives fieldBytes text = .ok p) : ∃ w : Spelling, w.text = text := by
  obtain ⟨addr, more, hcut⟩ : ∃ addr more, cutAt colon text = (addr, more) := ⟨_, _, rfl⟩
  rw [parse, hcut] at h
  dsimp only at h
  by_cases hroot : addr.head? = some slash
  swap
  · rw [if_pos hroot] at h
    cases h
  rw [if_neg (fun hno => hno hroot)] at h
  split at h
  · cases h
  next hlong =>
  have hfield : ∃ field : Option (List StepSpelling), text = addr ++ Spelling.tail field ∧
      (∀ steps, field = some steps → steps.length ≤ kMaxFieldDepth) ∧
      ∃ steps, pack gives fieldBytes (canonical addr) steps = .ok p := by
    obtain ⟨-, ⟨hmore, htext⟩ | ⟨fieldText, hmore, htext⟩⟩ := of_cutAt hcut
    · rw [hmore] at h
      exact ⟨none, by rw [htext]; exact (append_nil _).symm, fun _ hs => absurd hs (by simp), [], h⟩
    rw [hmore, Option.getD_some] at h
    split at h
    next hnil =>
      refine ⟨some [], by rw [htext, hnil]; rfl, fun steps hs => ?_, [], h⟩
      rw [← Option.some.inj hs]
      exact Nat.zero_le _
    · cases hsteps : parseSteps fieldText.length fieldText [] with
      | error e =>
        rw [hsteps] at h
        cases h
      | ok steps =>
        rw [hsteps] at h
        obtain ⟨ws, -, hjoin, hdepth⟩ := of_parseSteps (Nat.zero_le _) hsteps
        rw [length_nil, Nat.zero_add] at hdepth
        refine ⟨some ws, by rw [htext, ← hjoin]; rfl, fun ws' hws => ?_, steps, h⟩
        rw [← Option.some.inj hws]
        exact hdepth
  obtain ⟨field, htext, hdepth, steps, hpack⟩ := hfield
  obtain ⟨segs, k, haddr, hcanon, hvalid, hslashes, hcount⟩ := address_of_pack hroot hpack
  have hsize : (slashed segs).length ≤ kMaxPathBytes := by
    rw [← hcanon]
    exact not_lt.mp hlong
  exact ⟨⟨segs, k, field, hvalid, hslashes, hcount, hsize, hdepth⟩, by rw [htext, haddr]; rfl⟩

end

end

section

variable {segs segs' : List Bytes} (h : ∀ seg ∈ segs, validSegment seg = true)

include h

theorem literals_of_valid : ∃ rs, Wire.AllLiteral rs ∧ Wire.wireOf rs = segs.flatMap storePathSegment ∧
    rs.filterMap Wire.PathRecord.seg? = segs := by
  refine Wire.exists_literals fun seg hs => ?_
  obtain ⟨hne, hlen, -⟩ := of_validSegment (h seg hs)
  rw [kMaxSegmentBytes] at hlen
  exact ⟨hne, le_trans hlen (by decide)⟩

theorem validKey_packed : packedPathValidKey (segs.flatMap storePathSegment) = true := by
  obtain ⟨rs, hall, hwire, -⟩ := literals_of_valid h
  exact Wire.packedPathValidKey_iff.mpr ⟨rs, hall, hwire.symm⟩

/-- **Keys tell segments apart.** -/
theorem packed_inj (h' : ∀ seg ∈ segs', validSegment seg = true)
    (heq : segs.flatMap storePathSegment = segs'.flatMap storePathSegment) : segs = segs' := by
  obtain ⟨rs, -, hwire, hsegs⟩ := literals_of_valid h
  obtain ⟨rs', -, hwire', hsegs'⟩ := literals_of_valid h'
  have hrs := Wire.wireOf_inj (hwire.trans (heq.trans hwire'.symm))
  rw [← hsegs, ← hsegs', hrs]

end

/-- **The grammar of paths.**  With a source that never refuses, the texts accepted are the spellings; what
a spelling is read as is the records of its segments, a valid key, and the steps written; and two
spellings have the same key only if they have the same segments. -/
theorem parse_grammar (gives : Nat → Bool) (fieldBytes : Nat) (hgives : ∀ n, gives n = true) :
    (∀ text, (∃ p, parse gives fieldBytes text = .ok p) ↔ ∃ w : Spelling, w.text = text) ∧
      (∀ (w : Spelling) p, parse gives fieldBytes w.text = .ok p →
        p.key = w.segs.flatMap storePathSegment ∧ p.segments = w.segs.length ∧
          packedPathValidKey p.key = true ∧ p.field = w.steps.map StepSpelling.step) ∧
      ∀ (w w' : Spelling) p p', parse gives fieldBytes w.text = .ok p →
        parse gives fieldBytes w'.text = .ok p' → (p.key = p'.key ↔ w.segs = w'.segs) := by
  have hread : ∀ (w : Spelling) p, parse gives fieldBytes w.text = .ok p →
      p.key = w.segs.flatMap storePathSegment ∧ p.segments = w.segs.length ∧
        p.field = w.steps.map StepSpelling.step := by
    intro w p hp
    obtain ⟨p', hp', hspec⟩ := parse_spelling fieldBytes hgives w
    rw [hp'] at hp
    cases hp
    exact hspec
  refine ⟨fun text => ⟨?_, ?_⟩, fun w p hp => ?_, fun w w' p p' hp hp' => ⟨fun heq => ?_, fun heq => ?_⟩⟩
  · intro hacc
    obtain ⟨p, hp⟩ := hacc
    exact spelling_of_parse hp
  · intro hspelt
    obtain ⟨w, rfl⟩ := hspelt
    obtain ⟨p, hp, -⟩ := parse_spelling fieldBytes hgives w
    exact ⟨p, hp⟩
  · obtain ⟨hkey, hcount, hfield⟩ := hread w p hp
    exact ⟨hkey, hcount, by rw [hkey]; exact validKey_packed w.valid, hfield⟩
  · rw [(hread w p hp).1, (hread w' p' hp').1] at heq
    exact packed_inj w.valid w'.valid heq
  · rw [(hread w p hp).1, (hread w' p' hp').1, heq]

/-- `/ab//:x[7].y[]`, from a source that gives every block. -/
def sample : Bytes :=
  [0x2F, 0x61, 0x62, 0x2F, 0x2F, 0x3A, 0x78, 0x5B, 0x37, 0x5D, 0x2E, 0x79, 0x5B, 0x5D]

theorem sample_accepted : ∃ p, parse (fun _ => true) 0 sample = .ok p := ⟨_, rfl⟩

theorem parse_grammar_sample : (∀ n : Nat, (fun _ => true) n = true) ∧ (∃ w : Spelling, w.text = sample) ∧
      (parse (fun _ => true) 0 sample).toOption.map (fun p => (p.key, p.field)) =
        some ([2, 0x61, 0x62], [⟨[0x78], true, false, false, 7⟩, ⟨[0x79], true, true, false, 0⟩]) :=
  ⟨fun _ => rfl, ((parse_grammar (fun _ => true) 0 fun _ => rfl).1 sample).mp sample_accepted, by decide⟩

end LibTracer.PathText
