import Mathlib.Data.List.Perm.Basic
import LibTracer.Lib.Bitmap
import LibTracer.Lib.Machine
import LibTracer.Net.CanReassembly

/-!
# The reassembly buffer and its budget

The buffer keeps one segment for each open group: the bytes of the message, and past them a presence bit
for each slice.  It charges what it draws to a budget, counts the slices it has, and counts the groups
that are lost before they are delivered.

* **`budget_run`** — what the accounts say after every sequence of operations.
-/

namespace LibTracer.Net.Can

open List

/-! ## State -/

/-- `std::size_t` subtraction. -/
def subSize (a b : Nat) : Nat := (a + 18446744073709551616 - b) % 18446744073709551616

theorem subSize_of_le {a b : Nat} (h : b ≤ a) (ha : a < 18446744073709551616) : subSize a b = a - b := by
  rw [subSize]
  omega

/-- `group_meta_t`.  The segment holds the message and, past its total, the presence bits.  `attempt` is an
account: which admission the group came from. -/
structure Meta where
  seg : List UInt8
  total : Nat
  width : Nat
  expected : Nat
  count : Nat
  highest : Nat
  seq : Nat
  lastTouch : Nat
  attempt : Nat
  deriving DecidableEq, Repr

inductive Fate where
  | refused
  | replaced
  | evicted
  | discarded
  | swept
  | erased
  | taken
  deriving DecidableEq, Repr

def Fate.counted : Fate → Bool
  | .refused | .evicted | .discarded | .swept => true
  | .replaced | .erased | .taken => false

/-- `can_reassembly_t`.  `attempts` and `fates` are an account: how many admissions were asked for, and
how those that are over ended. -/
structure Buffer where
  groups : List (Nat × Meta) := []
  inflight : Nat := 0
  nextSeq : Nat := 0
  dropped : Nat := 0
  now : Nat := 0
  attempts : Nat := 0
  fates : List (Nat × Fate) := []
  deriving DecidableEq, Repr

/-- The link's caps; they are `size_t`. -/
structure Caps where
  limits : RxLimits
  inflight_lt : limits.maxInflight < 18446744073709551616

/-- `seg_bytes`: what admission charged. -/
def Meta.segBytes (g : Meta) : Nat := g.total + (g.expected + 7) / 8

/-! ## Operations -/

/-- `add_slice`, on its group: none where the group cannot take the slice. -/
def Meta.addSlice (g : Meta) (index : Nat) (slice : List UInt8) (now : Nat) : Option Meta :=
  let off := index * g.width
  let len := min g.width (subSize g.total off)
  if g.expected ≤ index ∨ slice.length < len then none
  else
    let seg := Window.splice g.seg off (slice.take len)
    if Bitmap.test seg g.total index then some { g with seg := seg, lastTouch := now }
    else
      some { g with
        seg := Bitmap.set seg g.total index
        count := g.count + 1
        highest := max g.highest index
        lastTouch := now }

variable {g : Meta}

theorem Meta.addSlice_charge {g' : Meta} {index now : Nat} {slice : List UInt8}
    (h : g.addSlice index slice now = some g') :
    g'.segBytes = g.segBytes ∧ g'.attempt = g.attempt ∧ g'.seq = g.seq := by
  rw [addSlice] at h
  dsimp only at h
  split at h
  · cases h
  · split at h <;> cases h <;> exact ⟨rfl, rfl, rfl⟩

namespace Buffer

def dropGroup (b : Buffer) (key : Nat) (fate : Fate) : Buffer :=
  match Table.lookup key b.groups with
  | none => b
  | some g =>
    { b with
      inflight := subSize b.inflight g.segBytes
      groups := Table.erase key b.groups
      fates := b.fates ++ [(g.attempt, fate)] }

def dropCounted (b : Buffer) (key : Nat) (fate : Fate) : Buffer :=
  { b.dropGroup key fate with dropped := b.dropped + 1 }

def older (best : Option (Nat × Meta)) (e : Nat × Meta) : Option (Nat × Meta) :=
  match best with
  | none => some e
  | some x => if e.2.seq < x.2.seq then some e else some x

def oldest (groups : List (Nat × Meta)) : Option (Nat × Meta) := groups.foldl older none

def evictOldest (b : Buffer) : Buffer :=
  match oldest b.groups with
  | none => b
  | some e => b.dropCounted e.1 .evicted

/-- What the stores answer to an admission; `fill` is what a fresh segment holds. -/
structure Admission where
  segment : Bool := true
  table : Bool := true
  fill : Nat → UInt8 := fun _ => 0

def overClaim (caps : Caps) (b : Buffer) (count total maxWidth maxCount : Nat) : Bool :=
  let width := sliceWidth count total maxWidth
  let full := count * width
  let size := total + (count + 7) / 8
  decide (maxCount ≤ (count + 4294967295) % 4294967296 ∨ full < total ∨ total + width ≤ full ∨
    caps.limits.maxMessage < total ∨ subSize caps.limits.maxInflight b.inflight < size)

def refuse (b : Buffer) (attempt : Nat) : Buffer :=
  { b with dropped := b.dropped + 1, fates := b.fates ++ [(attempt, .refused)] }

/-- `open_group`, its first part: a group whose key is opened again goes. -/
def replace (b : Buffer) (key : Nat) : Buffer :=
  { if (Table.lookup key b.groups).isSome then b.dropGroup key .replaced else b with
    attempts := b.attempts + 1 }

/-- `open_group`: a full table gives up its oldest group. -/
def makeRoom (caps : Caps) (b : Buffer) : Buffer :=
  if caps.limits.maxGroups ≠ 0 ∧ caps.limits.maxGroups ≤ b.groups.length then b.evictOldest else b

/-- `open_group`: the table takes the group, charged for its segment. -/
def admitted (b : Buffer) (key : Nat) (g : Meta) : Buffer :=
  { b with
    groups := Table.put key g b.groups
    inflight := (b.inflight + g.segBytes) % 18446744073709551616 }

def fresh (count total maxWidth : Nat) (fill : Nat → UInt8) (seq now attempt : Nat) : Meta :=
  ⟨(List.range total).map fill ++ List.replicate ((count + 7) / 8) 0, total,
    sliceWidth count total maxWidth, count, 0, 0, seq, now, attempt⟩

def openGroup (caps : Caps) (b : Buffer) (key count total maxWidth maxCount : Nat)
    (adm : Admission) : Buffer × Bool :=
  if (b.replace key).overClaim caps count total maxWidth maxCount then
    ((b.replace key).refuse b.attempts, false)
  else
    let b₂ := (b.replace key).makeRoom caps
    if adm.segment = false then (b₂.refuse b.attempts, false)
    else
      let b₃ := { b₂ with nextSeq := b₂.nextSeq + 1 }
      if adm.table = false then (b₃.refuse b.attempts, false)
      else
        (b₃.admitted key (fresh count total maxWidth adm.fill b₂.nextSeq b₂.now b.attempts), true)

def addSlice (b : Buffer) (key index : Nat) (slice : List UInt8) : Buffer × Bool :=
  match Table.lookup key b.groups with
  | none => (b, false)
  | some g =>
    match g.addSlice index slice b.now with
    | none => (b, false)
    | some g' => ({ b with groups := Table.put key g' b.groups }, true)

def contains (b : Buffer) (key : Nat) : Bool := (Table.lookup key b.groups).isSome

def isComplete (b : Buffer) (key : Nat) : Bool :=
  (Table.lookup key b.groups).any fun g => g.count = g.expected

/-- `take`: the segment is handed out, cut to the total. -/
def take (b : Buffer) (key : Nat) : Buffer × Option (List UInt8) :=
  match Table.lookup key b.groups with
  | none => (b, none)
  | some g =>
    if g.count ≠ g.expected then (b, none)
    else (b.dropGroup key .taken, some (g.seg.take g.total))

def discard (b : Buffer) (key : Nat) : Buffer :=
  if b.contains key then b.dropCounted key .discarded else b

/-- `sweep_stale`, for one group. -/
def sweepOne (maxAge : Nat) (b : Buffer) (key : Nat) : Buffer :=
  match Table.lookup key b.groups with
  | none => b
  | some g =>
    if b.now < g.lastTouch ∨ b.now - g.lastTouch ≤ maxAge then b else b.dropCounted key .swept

def sweepStale (b : Buffer) (maxAge : Nat) : Buffer :=
  (b.groups.map Prod.fst).foldl (sweepOne maxAge) b

end Buffer

inductive BufferOp where
  | setNow (now : Nat)
  | openGroup (key count total maxWidth maxCount : Nat) (adm : Buffer.Admission)
  | addSlice (key index : Nat) (slice : List UInt8)
  | take (key : Nat)
  | erase (key : Nat)
  | discard (key : Nat)
  | sweepStale (maxAge : Nat)

def Buffer.step (caps : Caps) (b : Buffer) : BufferOp → Buffer × Option (List UInt8)
  | .setNow now => ({ b with now := now }, none)
  | .openGroup key count total maxWidth maxCount adm =>
    ((b.openGroup caps key count total maxWidth maxCount adm).1, none)
  | .addSlice key index slice => ((b.addSlice key index slice).1, none)
  | .take key => b.take key
  | .erase key => (b.dropGroup key .erased, none)
  | .discard key => (b.discard key, none)
  | .sweepStale maxAge => (b.sweepStale maxAge, none)

/-- The buffer of a link; a `take` answers with the message. -/
def bufferMachine (caps : Caps) : Machine Buffer BufferOp (Option (List UInt8)) where
  start := {}
  step := Buffer.step caps

/-! ## The budget -/

/-- What the accounts say while the admissions in `asked` are being handled: the bytes in flight are those
of the open groups, within the caps; every other admission is an open group or has ended, once; and the
groups lost are those whose end is counted. -/
structure Budget (caps : Caps) (b : Buffer) (asked : List Nat) : Prop where
  keyed : Table.Keyed b.groups
  inflight : b.inflight = (b.groups.map fun e => e.2.segBytes).sum
  bounded : b.inflight ≤ caps.limits.maxInflight
  groups : caps.limits.maxGroups ≠ 0 → b.groups.length ≤ caps.limits.maxGroups
  once : (asked ++ (b.groups.map (fun e => e.2.attempt) ++ b.fates.map Prod.fst)).Perm
    (List.range b.attempts)
  counted : b.dropped = b.fates.countP fun f => f.2.counted

namespace Budget

variable {caps : Caps} {b : Buffer} {asked : List Nat}

section

variable (h : Budget caps b asked)
include h

theorem inflight_lt : b.inflight < 18446744073709551616 :=
  lt_of_le_of_lt h.bounded caps.inflight_lt

variable {fate : Fate}

section

variable {key : Nat} {g : Meta} (hg : Table.lookup key b.groups = some g)
include hg

theorem drop (fate : Fate) :
    Budget caps { b.dropGroup key fate with dropped := b.dropped + fate.counted.toNat } asked := by
  have hperm := h.keyed.perm_erase (Table.mem_of_lookup hg)
  have hsum : b.inflight = g.segBytes + ((Table.erase key b.groups).map fun e => e.2.segBytes).sum := by
    rw [h.inflight, (hperm.map fun e => e.2.segBytes).sum_nat]
    rfl
  have hlt := h.inflight_lt
  have hbound := h.bounded
  have hnew : subSize b.inflight g.segBytes =
      ((Table.erase key b.groups).map fun e => e.2.segBytes).sum := by
    rw [subSize_of_le (by omega) hlt]
    omega
  rw [Buffer.dropGroup, hg]
  refine ⟨h.keyed.erase key, hnew, ?_, fun hmax => ?_, ?_, ?_⟩
  · show subSize b.inflight g.segBytes ≤ _
    rw [hnew]
    omega
  · exact le_trans (length_filter_le _ _) (h.groups hmax)
  · refine List.Perm.trans (List.Perm.append_left asked ?_) h.once
    have hattempts := hperm.map fun e => e.2.attempt
    show ((Table.erase key b.groups).map (fun e => e.2.attempt) ++
      (b.fates ++ [(g.attempt, fate)]).map Prod.fst).Perm _
    rw [map_append, map_singleton, ← append_assoc]
    refine perm_append_comm.trans ?_
    exact List.Perm.append_right (b.fates.map Prod.fst) hattempts.symm
  · show b.dropped + fate.counted.toNat = (b.fates ++ [(g.attempt, fate)]).countP _
    rw [countP_append, ← h.counted, countP_singleton]
    cases fate.counted <;> simp

theorem dropCounted (hfate : fate.counted = true) : Budget caps (b.dropCounted key fate) asked := by
  have := h.drop hg fate
  rw [hfate] at this
  exact this

end

theorem dropUncounted (key : Nat)
    (hfate : fate.counted = false) : Budget caps (b.dropGroup key fate) asked := by
  cases hg : Table.lookup key b.groups with
  | none =>
    rw [Buffer.dropGroup, hg]
    exact h
  | some g =>
    have hdrop := h.drop hg fate
    rw [hfate] at hdrop
    rw [Buffer.dropGroup, hg] at hdrop ⊢
    exact hdrop

theorem discard (key : Nat) : Budget caps (b.discard key) asked := by
  rw [Buffer.discard]
  split
  next hc =>
    obtain ⟨g, hg⟩ := Option.isSome_iff_exists.mp hc
    exact h.dropCounted hg rfl
  · exact h

theorem sweepOne (maxAge key : Nat) : Budget caps (b.sweepOne maxAge key) asked := by
  rw [Buffer.sweepOne]
  cases hg : Table.lookup key b.groups with
  | none => exact h
  | some g =>
    dsimp only
    split
    · exact h
    · exact h.dropCounted hg rfl

theorem sweepStale (maxAge : Nat) : Budget caps (b.sweepStale maxAge) asked := by
  rw [Buffer.sweepStale]
  generalize b.groups.map Prod.fst = keys
  induction keys generalizing b with
  | nil => exact h
  | cons key keys ih => exact ih (h.sweepOne maxAge key)

theorem take (key : Nat) : Budget caps (b.take key).1 asked := by
  rw [Buffer.take]
  cases hg : Table.lookup key b.groups with
  | none => exact h
  | some g =>
    dsimp only
    split
    · exact h
    · exact h.dropUncounted key rfl

theorem addSlice (key index : Nat) (slice : List UInt8) :
    Budget caps (b.addSlice key index slice).1 asked := by
  rw [Buffer.addSlice]
  cases hg : Table.lookup key b.groups with
  | none => exact h
  | some g =>
    dsimp only
    cases hadd : g.addSlice index slice b.now with
    | none => exact h
    | some g' =>
      obtain ⟨hbytes, hattempt, -⟩ := Meta.addSlice_charge hadd
      have hsum := h.keyed.map_put (b := g') hg (f := fun e => e.2.segBytes) hbytes
      have hmap := h.keyed.map_put (b := g') hg (f := fun e => e.2.attempt) hattempt
      refine ⟨h.keyed.put _ _, ?_, h.bounded, fun hmax => ?_, ?_, h.counted⟩
      · show b.inflight = ((Table.put key g' b.groups).map fun e => e.2.segBytes).sum
        rw [hsum]
        exact h.inflight
      · have hlen := congrArg List.length hsum
        rw [length_map, length_map] at hlen
        exact le_trans (le_of_eq hlen) (h.groups hmax)
      · show (asked ++ ((Table.put key g' b.groups).map (fun e => e.2.attempt) ++ _)).Perm _
        rw [hmap]
        exact h.once

end

variable {groups : List (Nat × Meta)} {attempt : Nat}

theorem oldest_mem {e : Nat × Meta} (h : Buffer.oldest groups = some e) : e ∈ groups := by
  have hfold : ∀ (gs : List (Nat × Meta)) (best : Option (Nat × Meta)),
      gs.foldl Buffer.older best = some e → e ∈ gs ∨ best = some e := by
    intro gs
    induction gs with
    | nil => exact fun best hbest => .inr hbest
    | cons y gs ih =>
      intro best hbest
      rcases ih _ hbest with hmem | hhead
      · exact .inl (mem_cons_of_mem y hmem)
      cases best with
      | none => exact .inl (by rw [Option.some.inj hhead]; exact mem_cons_self)
      | some x =>
        rw [Buffer.older] at hhead
        split at hhead
        · exact .inl (by rw [Option.some.inj hhead]; exact mem_cons_self)
        · exact .inr hhead
  exact (hfold groups none h).resolve_right (by simp)

theorem oldest_isSome (h : groups ≠ []) : (Buffer.oldest groups).isSome = true := by
  have hfold : ∀ (gs : List (Nat × Meta)) (x : Nat × Meta),
      (gs.foldl Buffer.older (some x)).isSome = true := by
    intro gs
    induction gs with
    | nil => exact fun _ => rfl
    | cons y gs ih =>
      intro x
      rw [foldl_cons, Buffer.older]
      split <;> exact ih _
  cases groups with
  | nil => exact absurd rfl h
  | cons x gs => exact hfold gs x

theorem evictOldest (h : Budget caps b asked) :
    Budget caps b.evictOldest asked ∧ b.evictOldest.inflight ≤ b.inflight ∧
      (b.groups ≠ [] → b.evictOldest.groups.length + 1 = b.groups.length) ∧
      (∀ k, Table.lookup k b.groups = none → Table.lookup k b.evictOldest.groups = none) := by
  rw [Buffer.evictOldest]
  cases ho : Buffer.oldest b.groups with
  | none =>
    have hnil : b.groups = [] := by
      by_contra hne
      have := oldest_isSome hne
      rw [ho] at this
      cases this
    exact ⟨h, le_rfl, fun hne => absurd hnil hne, fun _ hk => hk⟩
  | some e =>
    have hg := h.keyed.lookup_eq (oldest_mem ho)
    have hnew : Budget caps (b.dropCounted e.1 .evicted) asked := h.dropCounted hg rfl
    have hgroups : (b.dropCounted e.1 .evicted).groups = Table.erase e.1 b.groups := by
      rw [Buffer.dropCounted, Buffer.dropGroup, hg]
    have hperm := h.keyed.perm_erase (oldest_mem ho)
    refine ⟨hnew, ?_, fun _ => ?_, fun k hk => ?_⟩
    · show (b.dropCounted e.1 .evicted).inflight ≤ _
      rw [hnew.inflight, hgroups, h.inflight, (hperm.map fun e => e.2.segBytes).sum_nat]
      exact Nat.le_add_left _ _
    · show (b.dropCounted e.1 .evicted).groups.length + 1 = _
      rw [hgroups, hperm.length_eq, length_cons]
    · show Table.lookup k (b.dropCounted e.1 .evicted).groups = none
      rw [hgroups]
      by_cases hke : k = e.1
      · rw [hke, Table.lookup_erase_self]
      · rw [Table.lookup_erase_ne hke, hk]

theorem refuse (h : Budget caps b [attempt]) : Budget caps (b.refuse attempt) [] := by
  refine ⟨h.keyed, h.inflight, h.bounded, h.groups, ?_, ?_⟩
  · refine List.Perm.trans ?_ h.once
    show (b.groups.map (fun e => e.2.attempt) ++ (b.fates ++ [(attempt, Fate.refused)]).map Prod.fst).Perm _
    rw [map_append, ← append_assoc]
    exact perm_append_comm
  · show b.dropped + 1 = (b.fates ++ [(attempt, Fate.refused)]).countP _
    rw [countP_append, ← h.counted]
    rfl

theorem admitted {key : Nat} (h : Budget caps b [attempt]) (hfree : Table.lookup key b.groups = none)
    (hg : g.attempt = attempt) (hbytes : b.inflight + g.segBytes ≤ caps.limits.maxInflight)
    (hroom : caps.limits.maxGroups ≠ 0 → b.groups.length + 1 ≤ caps.limits.maxGroups) :
    Budget caps (b.admitted key g) [] := by
  have hmod : (b.inflight + g.segBytes) % 18446744073709551616 = b.inflight + g.segBytes :=
    Nat.mod_eq_of_lt (lt_of_le_of_lt hbytes caps.inflight_lt)
  rw [Buffer.admitted, hmod]
  refine ⟨h.keyed.put _ _, ?_, hbytes, fun hmax => ?_, ?_, h.counted⟩
  · show b.inflight + g.segBytes = ((Table.put key g b.groups).map fun e => e.2.segBytes).sum
    rw [Table.put_of_lookup_none hfree, map_append, sum_append, ← h.inflight]
    rfl
  · show (Table.put key g b.groups).length ≤ _
    rw [Table.length_put_of_lookup_none hfree]
    exact hroom hmax
  · refine List.Perm.trans ?_ h.once
    show ((Table.put key g b.groups).map (fun e => e.2.attempt) ++ b.fates.map Prod.fst).Perm _
    rw [Table.put_of_lookup_none hfree, map_append, map_singleton, hg]
    exact List.Perm.append_right (b.fates.map Prod.fst) perm_append_comm

theorem ask (h : Budget caps b []) : Budget caps { b with attempts := b.attempts + 1 } [b.attempts] := by
  refine ⟨h.keyed, h.inflight, h.bounded, h.groups, ?_, h.counted⟩
  show ([b.attempts] ++ _).Perm (List.range (b.attempts + 1))
  rw [range_succ]
  exact perm_append_comm.trans (List.Perm.append_right [b.attempts] h.once)

theorem replace (h : Budget caps b []) (key : Nat) :
    Budget caps (b.replace key) [b.attempts] ∧ Table.lookup key (b.replace key).groups = none := by
  rw [Buffer.replace]
  cases hg : Table.lookup key b.groups with
  | none =>
    rw [Option.isSome_none, if_neg nofun]
    exact ⟨h.ask, hg⟩
  | some g =>
    have hgone : Budget caps (b.dropGroup key .replaced) [] := h.dropUncounted key rfl
    have hdrop := hgone.ask
    have hattempts : (b.dropGroup key .replaced).attempts = b.attempts := by
      rw [Buffer.dropGroup, hg]
    rw [hattempts] at hdrop
    rw [Option.isSome_some, if_pos rfl]
    refine ⟨hdrop, ?_⟩
    rw [Buffer.dropGroup, hg]
    exact Table.lookup_erase_self _ _

theorem makeRoom (h : Budget caps b asked) :
    Budget caps (b.makeRoom caps) asked ∧ (b.makeRoom caps).inflight ≤ b.inflight ∧
      (caps.limits.maxGroups ≠ 0 → (b.makeRoom caps).groups.length + 1 ≤ caps.limits.maxGroups) ∧
      (∀ k, Table.lookup k b.groups = none → Table.lookup k (b.makeRoom caps).groups = none) := by
  rw [Buffer.makeRoom]
  split
  next hfull =>
    obtain ⟨hev, hle, hlen, hkeys⟩ := h.evictOldest
    refine ⟨hev, hle, fun hmax => ?_, hkeys⟩
    have hne : b.groups ≠ [] := by
      intro hnil
      have := hfull.2
      rw [hnil] at this
      exact hfull.1 (Nat.le_zero.mp this)
    rw [hlen hne]
    exact h.groups hmax
  next hfull =>
    exact ⟨h, le_rfl, fun hmax => Nat.lt_of_not_le fun hle => hfull ⟨hmax, hle⟩, fun _ hk => hk⟩

/-- **An admission keeps the accounts**, whatever it claims and whatever the stores answer. -/
theorem openGroup (h : Budget caps b []) (key count total maxWidth maxCount : Nat)
    (adm : Buffer.Admission) :
    Budget caps (b.openGroup caps key count total maxWidth maxCount adm).1 [] := by
  obtain ⟨hask, hfree⟩ := h.replace key
  obtain ⟨hev, hle, hslots, hkeys⟩ := hask.makeRoom
  have hseq : Budget caps
      { (b.replace key).makeRoom caps with nextSeq := ((b.replace key).makeRoom caps).nextSeq + 1 }
      [b.attempts] := ⟨hev.keyed, hev.inflight, hev.bounded, hev.groups, hev.once, hev.counted⟩
  rw [Buffer.openGroup]
  dsimp only
  split
  · exact hask.refuse
  next hover =>
  split
  · exact hev.refuse
  split
  · exact hseq.refuse
  have hsize : (b.replace key).inflight + (total + (count + 7) / 8) ≤ caps.limits.maxInflight := by
    have hclaim := of_decide_eq_false (Bool.eq_false_of_not_eq_true hover)
    simp only [not_or, Nat.not_lt, Nat.not_le] at hclaim
    have hfits := hclaim.2.2.2.2
    rw [subSize_of_le hask.bounded caps.inflight_lt] at hfits
    have := hask.bounded
    omega
  refine hseq.admitted (hkeys key hfree) rfl (le_trans ?_ hsize) hslots
  exact Nat.add_le_add_right hle _

theorem step (h : Budget caps b []) (op : BufferOp) : Budget caps (b.step caps op).1 [] := by
  cases op with
  | setNow now => exact ⟨h.keyed, h.inflight, h.bounded, h.groups, h.once, h.counted⟩
  | openGroup key count total maxWidth maxCount adm =>
    exact h.openGroup key count total maxWidth maxCount adm
  | addSlice key index slice => exact h.addSlice key index slice
  | take key => exact h.take key
  | erase key => exact h.dropUncounted key rfl
  | discard key => exact h.discard key
  | sweepStale maxAge => exact h.sweepStale maxAge

theorem holds_run (caps : Caps) (ops : List BufferOp) : Budget caps ((bufferMachine caps).run ops) [] :=
  (bufferMachine caps).invariant (P := fun b => Budget caps b [])
    ⟨nodup_nil, rfl, Nat.zero_le _, fun _ => Nat.zero_le _, List.Perm.refl _, rfl⟩
    (fun _ op h => h.step op) ((bufferMachine caps).reachable_run ops)

end Budget

/-- **The accounts of the buffer hold** after every sequence of operations: the bytes in flight are those
of the open groups, within the caps, and a group goes with exactly what it was charged; every admission
asked for is an open group or has ended, once; and the groups lost are those that were refused, evicted,
discarded or swept, each counted once. -/
theorem budget_run (caps : Caps) (ops : List BufferOp) : Budget caps ((bufferMachine caps).run ops) [] ∧
      ∀ key g fate, Table.lookup key ((bufferMachine caps).run ops).groups = some g →
        (((bufferMachine caps).run ops).dropGroup key fate).inflight + (g.total + (g.expected + 7) / 8) =
          ((bufferMachine caps).run ops).inflight := by
  have hrun := Budget.holds_run caps ops
  refine ⟨hrun, fun key g fate hg => ?_⟩
  have hsum := (hrun.drop hg fate).inflight
  have hperm := hrun.keyed.perm_erase (Table.mem_of_lookup hg)
  have hgroups : (((bufferMachine caps).run ops).dropGroup key fate).groups =
      Table.erase key ((bufferMachine caps).run ops).groups := by
    rw [Buffer.dropGroup, hg]
  rw [hgroups] at hsum
  rw [hrun.inflight, (hperm.map fun e => e.2.segBytes).sum_nat, map_cons, sum_cons]
  exact (add_comm _ _).trans (congrArg (g.segBytes + ·) hsum)

theorem smallCaps_lt : 128 < 18446744073709551616 := by decide

def smallCaps : Caps := ⟨⟨0, 128, 128⟩, smallCaps_lt⟩

/-- **A group whose key is opened again is lost, and not counted.** -/
theorem replaced_uncounted :
    ((bufferMachine smallCaps).run [.openGroup 1 1 8 8 10 {}, .openGroup 1 1 8 8 10 {}]).fates =
        [(0, .replaced)] ∧ ((bufferMachine smallCaps).run
        [.openGroup 1 1 8 8 10 {}, .openGroup 1 1 8 8 10 {}]).dropped = 0 := by
  decide +kernel

end LibTracer.Net.Can
