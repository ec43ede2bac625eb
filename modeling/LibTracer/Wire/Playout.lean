import LibTracer.Lib.LittleEndian

/-!
# Sample times and playout

A batch carries the time of its first sample, and a rate or an offset for each sample.  The playout cursor
carries the time expected next from one batch to the one after it.

* **`playout_exact`** — what a run of batches visits, reports and leaves in the cursor.
-/

namespace LibTracer.Wire

open List LittleEndian

/-! ## Words -/

def i64Max : Int := 9223372036854775807

def i64Min : Int := -9223372036854775808

/-- A signed word as an unsigned one. -/
def asU64 (x : Int) : Nat := (x % 18446744073709551616).toNat

/-- An unsigned sum, which wraps, as a signed word. -/
def asI64 (n : Nat) : Int :=
  let n := n % 18446744073709551616
  if n < 9223372036854775808 then n else n - 18446744073709551616

structure Signed64 where
  val : Int
  lo : i64Min ≤ val
  hi : val ≤ i64Max

/-- How far a time may still go, in both arms of its sign. -/
def headroom (t : Int) : Nat :=
  if 0 ≤ t then asU64 (i64Max - t)
  else (asU64 i64Max + (18446744073709551616 - asU64 t) % 18446744073709551616) % 18446744073709551616

theorem headroom_eq {t : Int} (hlo : i64Min ≤ t) (hhi : t ≤ i64Max) : (headroom t : Int) = i64Max - t := by
  unfold headroom asU64 i64Max i64Min at *
  split <;> omega

theorem asI64_add {t : Int} {n : Nat} (hlo : i64Min ≤ t) (hsum : t + n ≤ i64Max) :
    asI64 (asU64 t + n) = t + n := by
  unfold asI64 asU64 i64Max i64Min at *
  dsimp only
  split <;> omega

/-! ## Sample times -/

def kBatchOffsetBytes : Nat := 4

/-- `batch_view_t`: the samples are frames of a type `ν`. -/
structure BatchView (ν : Type) where
  baseNs : Signed64
  dtNs : Nat
  offsets : List UInt8
  samples : List ν
  count : Nat
  dt_lt : dtNs < 18446744073709551616
  offsets_lt : offsets.length < 18446744073709551616

namespace BatchView

variable {ν : Type} (v : BatchView ν)

/-- Four bytes of the offset run, signed. -/
def entry (pos : Nat) : Int :=
  let raw := load ((v.offsets.drop pos).take kBatchOffsetBytes)
  if raw < 2147483648 then raw else raw - 4294967296

/-- `offset_ns`: the arithmetic of its positions wraps. -/
def offsetNs (i : Nat) : Int :=
  if v.offsets.length < (i + 1) * kBatchOffsetBytes % 18446744073709551616 then 0
  else v.entry (i * kBatchOffsetBytes % 18446744073709551616)

theorem offsetNs_eq {i : Nat} (h : (i + 1) * kBatchOffsetBytes < 18446744073709551616) : v.offsetNs i =
    if v.offsets.length < (i + 1) * kBatchOffsetBytes then 0 else v.entry (i * kBatchOffsetBytes) := by
  rw [offsetNs, Nat.mod_eq_of_lt h, Nat.mod_eq_of_lt (by unfold kBatchOffsetBytes at *; omega)]

def sampleTimeNs (i : Nat) : Option Int :=
  if v.count ≤ i then none
  else if v.dtNs = 0 then
    let off := v.offsetNs i
    if 0 < off ∧ i64Max - off < v.baseNs.val then none
    else if off < 0 ∧ v.baseNs.val < i64Min - off then none
    else some (v.baseNs.val + off)
  else if headroom v.baseNs.val / v.dtNs < i then none
  else some (asI64 (asU64 v.baseNs.val + i * v.dtNs))

/-- The time of a sample as an integer without bounds. -/
def exactTime (i : Nat) : Int :=
  v.baseNs.val + if v.dtNs = 0 then v.offsetNs i else (i * v.dtNs : Nat)

/-- **A derived time is exact or absent.** -/
theorem sampleTimeNs_eq {i : Nat} (hi : i < v.count) : v.sampleTimeNs i =
    if i64Min ≤ v.exactTime i ∧ v.exactTime i ≤ i64Max then some (v.exactTime i) else none := by
  have hlo := v.baseNs.lo
  have hhi := v.baseNs.hi
  rw [sampleTimeNs, if_neg (by omega), exactTime]
  by_cases hdt : v.dtNs = 0
  · rw [if_pos hdt, if_pos hdt]
    dsimp only
    generalize v.offsetNs i = off
    unfold i64Max i64Min at *
    split
    · rw [if_neg (by omega)]
    split
    · rw [if_neg (by omega)]
    · rw [if_pos (by omega)]
  · have hroom := headroom_eq hlo hhi
    have hdiv : headroom v.baseNs.val / v.dtNs < i ↔ headroom v.baseNs.val < i * v.dtNs :=
      Nat.div_lt_iff_lt_mul (Nat.pos_of_ne_zero hdt)
    rw [if_neg hdt, if_neg hdt]
    simp only [hdiv]
    split
    · rw [if_neg (by omega)]
    · rw [if_pos (by omega), asI64_add hlo (by omega)]

theorem sampleTimeNs_range {i : Nat} {t : Int} (h : v.sampleTimeNs i = some t) :
    i64Min ≤ t ∧ t ≤ i64Max := by
  by_cases hi : i < v.count
  · rw [v.sampleTimeNs_eq hi] at h
    obtain ⟨hrange, ht⟩ := Option.ite_none_right_eq_some.mp h
    cases ht
    exact hrange
  · rw [sampleTimeNs, if_pos (by omega)] at h
    cases h

end BatchView

/-! ## Playout -/

def saturatingSubNs (a b : Int) : Int :=
  if b < 0 ∧ i64Max + b < a then i64Max
  else if 0 < b ∧ a < i64Min + b then i64Min
  else a - b

/-- **A difference is exact or the nearer end.** -/
theorem saturatingSubNs_eq {a b : Int} (ha : i64Min ≤ a ∧ a ≤ i64Max) (hb : i64Min ≤ b ∧ b ≤ i64Max) :
    saturatingSubNs a b = max i64Min (min i64Max (a - b)) := by
  unfold saturatingSubNs i64Max i64Min at *
  split
  · omega
  split <;> omega

structure PlayoutClock where
  nowNs : Signed64
  lateAfterNs : Signed64

structure PlayoutSample (ν : Type) where
  index : Nat
  frame : Option ν
  sampleTimeNs : Int := 0
  latenessNs : Int := 0
  timeKnown : Bool := false
  late : Bool := false

inductive Continuity where
  | FIRST
  | CONTINUOUS
  | GAP
  deriving DecidableEq, Repr

structure PlayoutCursor where
  nextSampleTimeNs : Int := 0
  primed : Bool := false
  deriving DecidableEq, Repr

structure PlayoutReport where
  continuity : Continuity := .FIRST
  gaps : Nat := 0
  samples : Nat := 0
  late : Nat := 0
  undated : Nat := 0
  expectedSampleTimeNs : Int := 0
  expectedValid : Bool := false
  deriving DecidableEq, Repr

section

variable {ν : Type}

/-- Where the loop of `playout_batch` stands; `last` is the last time derived. -/
structure Playing (ν : Type) where
  ahead : List ν
  report : PlayoutReport
  last : Option Int := none
  visited : List (PlayoutSample ν) := []

variable (v : BatchView ν) (clock : PlayoutClock)

def sampleOf (i : Nat) (frame : Option ν) : PlayoutSample ν :=
  match v.sampleTimeNs i with
  | some t =>
    let lateness := saturatingSubNs clock.nowNs.val t
    ⟨i, frame, t, lateness, true, decide (clock.lateAfterNs.val < lateness)⟩
  | none => { index := i, frame }

def visit (p : Playing ν) (i : Nat) : Playing ν :=
  let s := sampleOf v clock i p.ahead.head?
  { ahead := p.ahead.tail
    report :=
      { p.report with
        undated := p.report.undated + (!s.timeKnown).toNat
        late := p.report.late + s.late.toNat
        samples := p.report.samples + 1 }
    last := if s.timeKnown then some s.sampleTimeNs else p.last
    visited := p.visited ++ [s] }

def playoutBatch (c : PlayoutCursor) (gaps : Nat) :
    PlayoutCursor × PlayoutReport × List (PlayoutSample ν) :=
  let report : PlayoutReport :=
    if gaps ≠ 0 then { gaps, continuity := .GAP }
    else if c.primed then
      { gaps, continuity := .CONTINUOUS, expectedSampleTimeNs := c.nextSampleTimeNs, expectedValid := true }
    else { gaps }
  let c := if gaps ≠ 0 then {} else c
  let p := (List.range v.count).foldl (visit v clock) { ahead := v.samples, report }
  (match p.last with
    | none => c
    | some t => if headroom t < v.dtNs then {} else ⟨asI64 (asU64 t + v.dtNs), true⟩,
    p.report, p.visited)

/-- The time of the last sample that has one. -/
def lastDated : Option Int := ((List.range v.count).filterMap v.sampleTimeNs).getLast?

/-- What one call visits, in which order and with which times, and where it leaves the cursor. -/
structure Played (out : PlayoutCursor × PlayoutReport × List (PlayoutSample ν)) : Prop where
  visited : out.2.2.map (fun s => (s.index, s.frame)) = (List.range v.count).map fun i => (i, v.samples[i]?)
  dated : ∀ s ∈ out.2.2, s.timeKnown = (v.sampleTimeNs s.index).isSome ∧
    ∀ t, v.sampleTimeNs s.index = some t →
      s.sampleTimeNs = t ∧ s.latenessNs = max i64Min (min i64Max (clock.nowNs.val - t))
  cursor : ∀ t, lastDated v = some t →
    out.1 = if t + v.dtNs ≤ i64Max then ⟨t + v.dtNs, true⟩ else {}

/-- The loop after `n` samples. -/
theorem foldl_visit (report : PlayoutReport) (n : Nat) :
    let p := (List.range n).foldl (visit v clock) { ahead := v.samples, report }
    p.ahead = v.samples.drop n ∧ p.last = ((List.range n).filterMap v.sampleTimeNs).getLast? ∧
      p.visited = (List.range n).map fun i => sampleOf v clock i v.samples[i]? := by
  induction n with
  | zero => exact ⟨rfl, rfl, rfl⟩
  | succ n ih =>
    dsimp only at ih ⊢
    obtain ⟨hahead, hlast, hvisited⟩ := ih
    rw [range_succ, foldl_append, foldl_cons, foldl_nil, visit, filterMap_append, map_append]
    dsimp only
    rw [hahead, hlast, hvisited, tail_drop, head?_drop]
    refine ⟨rfl, ?_, rfl⟩
    rw [sampleOf]
    cases ht : v.sampleTimeNs n <;> simp [ht]

theorem played_playoutBatch (c : PlayoutCursor) (gaps : Nat) :
    Played v clock (playoutBatch v clock c gaps) := by
  rw [playoutBatch]
  generalize (if gaps ≠ 0 then _ else _ : PlayoutReport) = report
  obtain ⟨-, hlast, hvisited⟩ := foldl_visit v clock report v.count
  have hsample : ∀ i frame, (sampleOf v clock i frame).index = i ∧
      (sampleOf v clock i frame).frame = frame := by
    intro i frame
    rw [sampleOf]
    cases v.sampleTimeNs i <;> exact ⟨rfl, rfl⟩
  refine ⟨?_, fun s hs => ?_, fun t ht => ?_⟩
  · dsimp only
    rw [hvisited, map_map]
    exact map_congr_left fun i _ => Prod.ext (hsample i _).1 (hsample i _).2
  · rw [hvisited] at hs
    obtain ⟨i, -, rfl⟩ := mem_map.mp hs
    rw [(hsample i _).1, sampleOf]
    cases ht : v.sampleTimeNs i with
    | none => exact ⟨rfl, nofun⟩
    | some t =>
      refine ⟨rfl, fun t' ht' => ?_⟩
      cases ht'
      exact ⟨rfl, saturatingSubNs_eq ⟨clock.nowNs.lo, clock.nowNs.hi⟩ (v.sampleTimeNs_range ht)⟩
  · obtain ⟨i, -, hi⟩ := mem_filterMap.mp (mem_of_getLast? ht)
    obtain ⟨hlo, hhi⟩ := v.sampleTimeNs_range hi
    have hroom := headroom_eq hlo hhi
    rw [hlast, show ((List.range v.count).filterMap v.sampleTimeNs).getLast? = some t from ht]
    dsimp only
    split
    · rw [if_neg (by omega)]
    · rw [if_pos (by omega), asI64_add hlo (by omega)]

/-- Batch after batch, with one cursor. -/
def playoutRun (c : PlayoutCursor) : List (BatchView ν × PlayoutClock × Nat) →
    List (PlayoutCursor × PlayoutReport × List (PlayoutSample ν))
  | [] => []
  | (v, clock, gaps) :: calls =>
    let out := playoutBatch v clock c gaps
    out :: playoutRun out.1 calls

end

/-- **Derived times are exact**, and so is what a playout makes of them over any run.  An offset the list
has is its entry. -/
theorem playout_exact {ν : Type} (c : PlayoutCursor) (calls : List (BatchView ν × PlayoutClock × Nat)) :
    (∀ (v : BatchView ν) (i : Nat), i < v.count → v.sampleTimeNs i =
      if i64Min ≤ v.exactTime i ∧ v.exactTime i ≤ i64Max then some (v.exactTime i) else none) ∧
    (∀ (v : BatchView ν) (i : Nat), (i + 1) * kBatchOffsetBytes ≤ v.offsets.length →
      v.offsetNs i = v.entry (i * kBatchOffsetBytes)) ∧
    (∀ (v : BatchView ν) (i : Nat), v.offsets.length < (i + 1) * kBatchOffsetBytes →
      (i + 1) * kBatchOffsetBytes < 18446744073709551616 → v.offsetNs i = 0) ∧
    Forall₂ (fun call out => Played call.1 call.2.1 out) calls (playoutRun c calls) := by
  refine ⟨fun v i hi => v.sampleTimeNs_eq hi, fun v i h => ?_, fun v i h hlt => ?_, ?_⟩
  · rw [v.offsetNs_eq (h.trans_lt v.offsets_lt), if_neg (Nat.not_lt.mpr h)]
  · rw [v.offsetNs_eq hlt, if_pos h]
  induction calls generalizing c with
  | nil => exact .nil
  | cons call calls ih => exact .cons (played_playoutBatch call.1 call.2.1 c call.2.2) (ih _)

end LibTracer.Wire
