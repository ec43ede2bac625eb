import LibTracer.Graph.Delivery

/-!
# The queue of a receiving stream (`vertex.hpp`)

A `STREAM` vertex queues what is stored at it.  Every entry lives in a reservation that its own
source granted, so the source bounds the queue in bytes; the declared depth bounds it in entries.
A source that refuses costs a best-effort queue its oldest entry and the writer of a reliable one a
`BACKPRESSURE`.

* **`reliable_refusal_iff`** — exactly when a refused admission leaves a reliable queue as it was.
-/

namespace LibTracer.Graph

open List

/-! ## Reservations -/

/-- `block_source_t`, as a queue uses it: a reservation of a width is granted or refused, and given
back. -/
structure BlockSource (σ : Type) where
  tryAlloc : σ → Nat → Option σ
  release : σ → Nat → σ

namespace BlockSource

def budget : BlockSource Nat :=
  ⟨fun free width => if width ≤ free then some (free - width) else none, fun free width => free + width⟩

end BlockSource

/-! ## The queue -/

structure RingEntry (α : Type) where
  value : α
  /-- The reserved width. -/
  bytes : Nat
  /-- An entry was shed right before this one. -/
  gapBefore : Bool := false
  deriving DecidableEq, Repr

/-- `kRingEntryOverhead`: the entry itself, at the front of its reservation. -/
def kRingEntryOverhead : Nat := 40

/-- `ring_state_t`, oldest entry first. -/
structure RingState (α : Type) where
  entries : List (RingEntry α) := []
  gaps : Nat := 0
  gapsDrained : Nat := 0
  reliable : Bool := false
  appendedSinceFlush : Nat := 0
  deriving DecidableEq, Repr

structure StoreDrops where
  ringAppend : Bool := false
  ringShed : Nat := 0
  deriving DecidableEq, Repr

/-- What an admission leaves; it is not `ok` on the refusal of a reliable queue alone. -/
structure Admission (α σ : Type) where
  ring : RingState α
  source : σ
  drops : StoreDrops := {}
  ok : Bool := true
  deriving DecidableEq, Repr

/-- The answer of `publish_value` to an admission. -/
def Admission.status {α σ : Type} (a : Admission α σ) : Option Status :=
  if a.ok then none else some .BACKPRESSURE

def Admission.appended {α σ : Type} (a : Admission α σ) : Bool := a.ok && !a.drops.ringAppend

namespace RingState

variable {α σ : Type} (S : BlockSource σ)

/-- `ring_reserved_bytes`. -/
def reservedBytes (r : RingState α) : Nat := (r.entries.map RingEntry.bytes).sum

def push (r : RingState α) (e : RingEntry α) : RingState α :=
  { r with entries := r.entries ++ [e], appendedSinceFlush := r.appendedSinceFlush + 1 }

/-- The depth trim: the oldest entries go until there is room for one more.  The first reservation
of the width asked for is carried over, every other one goes back. -/
def trimDepth (keep width : Nat) : List (RingEntry α) → Bool → σ → List (RingEntry α) × Bool × σ
  | [], carried, m => ([], carried, m)
  | e :: es, carried, m =>
    if keep ≤ (e :: es).length then
      if !carried && e.bytes == width then trimDepth keep width es true m
      else trimDepth keep width es carried (S.release m e.bytes)
    else (e :: es, carried, m)

/-- A best-effort queue without a reservation: its oldest entry is shed whole, and the source is
asked once more. -/
def admitShedding (r : RingState α) (x : α) (width : Nat) (m : σ) : Admission α σ :=
  match r.entries with
  | [] => { ring := r, source := m, drops := { ringAppend := true } }
  | e :: es =>
    let r := { r with entries := es, gaps := r.gaps + 1 }
    match S.tryAlloc (S.release m e.bytes) width with
    | none =>
      { ring := r, source := S.release m e.bytes, drops := { ringAppend := true, ringShed := 1 } }
    | some m => { ring := r.push ⟨x, width, true⟩, source := m, drops := { ringShed := 1 } }

def widthFor (bytes : Nat) : Nat := max bytes kRingEntryOverhead

/-- The tail of the admission, on the trimmed queue and with the reservation, if there is one. -/
def admitTrimmed (r : RingState α) (x : α) (width : Nat) (m : σ) : Option σ → Admission α σ
  | some m => { ring := r.push ⟨x, width, false⟩, source := m }
  | none =>
    if r.reliable then { ring := r, source := m, ok := false } else admitShedding S r x width m

/-- `admit_locked`: the declared depth retires entries before the byte bound is charged. -/
def admitLocked (depth : Nat) (r : RingState α) (x : α) (bytes : Nat) (m : σ) : Admission α σ :=
  let width := widthFor bytes
  let (entries, carried, m) := trimDepth S (max depth 1) width r.entries false m
  admitTrimmed S { r with entries } x width m (if carried then some m else S.tryAlloc m width)

/-- What was appended since the last flush and is still there: the window every flush takes. -/
def owed (r : RingState α) : List α :=
  (r.entries.drop (r.entries.length - min r.appendedSinceFlush r.entries.length)).map
    RingEntry.value

def markFlushed (r : RingState α) : RingState α := { r with appendedSinceFlush := 0 }

def kInline : Nat := 4

/-- `take_locked`: the window, unless it is wider than the frame and the spill is refused; then the
cursor stays where it is. -/
def takeLocked (r : RingState α) (spill : Bool) : List α × RingState α :=
  if r.owed.length ≤ kInline || spill then (r.owed, r.markFlushed) else ([], r)

/-! ## What the trim leaves -/

def surplus (depth : Nat) (r : RingState α) : Nat := r.entries.length + 1 - max depth 1

def retiring (depth : Nat) (r : RingState α) : List (RingEntry α) := r.entries.take (r.surplus depth)

def trimmed (depth : Nat) (r : RingState α) : RingState α :=
  { r with entries := r.entries.drop (r.surplus depth) }

def refunded (es : List (RingEntry α)) (m : σ) : σ := es.foldl (fun m e => S.release m e.bytes) m

variable {S}

/-- **The depth trim**: it retires the oldest entries and nothing else; a reservation is carried over
if a retired one has the width, and else every one of them is back. -/
theorem trimDepth_spec (keep width : Nat) (es : List (RingEntry α)) (carried : Bool) (m : σ) :
    (trimDepth S keep width es carried m).1 = es.drop (es.length + 1 - keep) ∧
      (trimDepth S keep width es carried m).2.1 =
        (carried || (es.take (es.length + 1 - keep)).any (·.bytes == width)) ∧
      ((trimDepth S keep width es carried m).2.1 = false → (trimDepth S keep width es carried m).2.2 =
          refunded S (es.take (es.length + 1 - keep)) m) := by
  induction es generalizing carried m with
  | nil => simp [trimDepth, refunded]
  | cons e es ih =>
    unfold trimDepth
    by_cases hfull : keep ≤ (e :: es).length
    · have hone : (e :: es).length + 1 - keep = es.length + 1 - keep + 1 := by
        rw [length_cons] at hfull ⊢
        omega
      rw [if_pos hfull, hone, drop_succ_cons, take_succ_cons, any_cons]
      by_cases hcarry : (!carried && e.bytes == width) = true
      · obtain ⟨hdrop, hany, -⟩ := ih true m
        simp only [Bool.and_eq_true, Bool.not_eq_true'] at hcarry
        rw [if_pos (by simp [hcarry]), hany]
        exact ⟨hdrop, by simp [hcarry.2], fun h => absurd h (by simp)⟩
      obtain ⟨hdrop, hany, hback⟩ := ih carried (S.release m e.bytes)
      rw [if_neg hcarry]
      refine ⟨hdrop, hany.trans ?_, hback⟩
      cases carried
      · have hother : (e.bytes == width) = false := by simpa using hcarry
        rw [hother]
        rfl
      · rfl
    · rw [if_neg hfull, show (e :: es).length + 1 - keep = 0 by omega]
      simp [refunded]

/-- A reservation is at hand once the depth has retired its entries: one of theirs, or a new one. -/
def Funded (S : BlockSource σ) (depth : Nat) (r : RingState α) (bytes : Nat) (m : σ) : Prop :=
  (∃ e ∈ r.retiring depth, e.bytes = widthFor bytes) ∨
    (S.tryAlloc (refunded S (r.retiring depth) m) (widthFor bytes)).isSome = true

/-- **The admission, from the trimmed queue on.** -/
theorem admitLocked_eq (depth : Nat) (r : RingState α) (x : α) (bytes : Nat) (m : σ) :
    ∃ (m' : σ) (token : Option σ), (token.isSome = true ↔ Funded S depth r bytes m) ∧
      r.admitLocked S depth x bytes m = admitTrimmed S (r.trimmed depth) x (widthFor bytes) m' token := by
  obtain ⟨hentries, hcarried, hback⟩ :=
    trimDepth_spec (S := S) (max depth 1) (widthFor bytes) r.entries false m
  unfold admitLocked
  dsimp only
  rw [hentries]
  refine ⟨_, _, ?_, rfl⟩
  rw [Bool.false_or] at hcarried
  cases hc : (trimDepth S (max depth 1) (widthFor bytes) r.entries false m).2.1 with
  | true =>
    rw [hc] at hcarried
    obtain ⟨e, he, hw⟩ := any_eq_true.mp hcarried.symm
    exact iff_of_true rfl (.inl ⟨e, he, by simpa using hw⟩)
  | false =>
    have hnone : ¬∃ e ∈ r.retiring depth, e.bytes = widthFor bytes := by
      intro hsome
      obtain ⟨e, he, hw⟩ := hsome
      rw [hc] at hcarried
      exact any_eq_false.mp hcarried.symm e he (beq_iff_eq.mpr hw)
    rw [hback hc, if_neg nofun, Funded, or_iff_right hnone]
    rfl

/-- What an admission moved: some of the oldest entries went, and the new one came last if it was
queued; the drain counts what was queued and nothing else. -/
def Moved (r : RingState α) (x : α) (a : Admission α σ) : Prop :=
  let news := if a.appended then [x] else []
  (∃ gone, a.ring.entries.map RingEntry.value =
      (r.entries.map RingEntry.value).drop gone ++ news) ∧
    a.ring.appendedSinceFlush = r.appendedSinceFlush + news.length

/-- **Exactly when a refusal costs a reliable queue nothing**: its depth retires nothing, or a
reservation is at hand and nothing is refused. -/
theorem reliable_refusal_iff (S : BlockSource σ) (depth : Nat) (r : RingState α)
    (hrel : r.reliable = true) (x : α) (bytes : Nat) (m : σ) :
    let a := r.admitLocked S depth x bytes m
    (a.status = some .BACKPRESSURE →
        a.ring.entries = r.entries ∧ a.ring.reservedBytes = r.reservedBytes) ↔
      r.retiring depth = [] ∨ Funded S depth r bytes m := by
  obtain ⟨m', token, hfund, hadmits⟩ := admitLocked_eq (S := S) depth r x bytes m
  intro a
  rw [show a = _ from hadmits, ← hfund]
  cases token with
  | some m => simp [admitTrimmed, Admission.status]
  | none =>
    -- refused: what is left is the trimmed queue
    have hleft : admitTrimmed S (r.trimmed depth) x (widthFor bytes) m' none =
        { ring := r.trimmed depth, source := m', ok := false } := if_pos hrel
    rw [hleft]
    constructor
    · intro hkept
      have hsame : r.entries.drop (r.surplus depth) = r.entries := (hkept rfl).1
      have hlen := congrArg List.length hsame
      rw [length_drop] at hlen
      have hzero : r.surplus depth = 0 ∨ r.entries = [] := by
        rw [← length_eq_zero_iff]
        omega
      rcases hzero with hzero | hnil
      · exact .inl (by rw [retiring, hzero, take_zero])
      · exact .inl (by rw [retiring, hnil, take_nil])
    · intro hfree hstatus
      have hnil : r.retiring depth = [] := by simpa using hfree
      have hsame : r.entries.drop (r.surplus depth) = r.entries := by
        conv_rhs => rw [← take_append_drop (r.surplus depth) r.entries]
        rw [show r.entries.take (r.surplus depth) = [] from hnil, nil_append]
      exact ⟨hsame, congrArg (fun es => (es.map RingEntry.bytes).sum) hsame⟩

def fullReliable : RingState Nat := { entries := [⟨1, 48, false⟩], reliable := true }

theorem fullReliable_refusal_iff : fullReliable.reliable = true ∧
      let a := fullReliable.admitLocked BlockSource.budget 2 2 140 0
      ((a.status = some .BACKPRESSURE →
          a.ring.entries = fullReliable.entries ∧ a.ring.reservedBytes = fullReliable.reservedBytes) ↔
        fullReliable.retiring 2 = [] ∨ Funded BlockSource.budget 2 fullReliable 140 0) :=
  ⟨rfl, reliable_refusal_iff BlockSource.budget 2 fullReliable rfl 2 140 0⟩

/-- **A refused admission that lost an entry**: the depth trim retires the queued entry, the 48 bytes
it gives back do not fund the 140 asked for, and the writer is told to try again. -/
theorem fullReliable_refused_and_lost :
    let a := fullReliable.admitLocked BlockSource.budget 1 2 140 0
    fullReliable.reliable = true ∧ a.status = some .BACKPRESSURE ∧
      fullReliable.entries.map RingEntry.value = [1] ∧ a.ring.entries = [] ∧
      fullReliable.reservedBytes = 48 ∧ a.ring.reservedBytes = 0 := by
  decide

end RingState

end LibTracer.Graph
