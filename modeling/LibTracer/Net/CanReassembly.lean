import LibTracer.Lib.Table
import LibTracer.Net.CanFrame

/-!
# Reassembling a CAN message

An advertise opens a group: one segment of the length it names, with a place for each slice.  A slice is
copied to its place, and the group is handed out when every place is filled.  A group that cannot be
admitted is refused, and one that makes no progress is swept.

* **`bytes_of_filled`** — a group whose places hold the windows of a payload is that payload.
-/

namespace LibTracer.Net.Can

open List

/-! ## The buffer -/

structure RxLimits where
  /-- `max_groups`, 0 for none. -/
  maxGroups : Nat
  maxMessage : Nat
  maxInflight : Nat
  deriving DecidableEq, Repr

/-- One group: its segment by places, none where no slice has been copied yet. -/
structure Group where
  total : Nat
  width : Nat
  places : List (Option (List UInt8))
  /-- The stamp of its last progress. -/
  touched : Nat
  deriving DecidableEq, Repr

namespace Group

def complete (g : Group) : Bool := g.places.all Option.isSome

def bytes (g : Group) : List UInt8 := (g.places.map fun p => p.getD []).flatten

def segBytes (g : Group) : Nat := g.total + (g.places.length + 7) / 8

def placeLen (g : Group) (i : Nat) : Nat := min g.width (g.total - i * g.width)

def place (g : Group) (i : Nat) (slice : List UInt8) (now : Nat) : Group :=
  { g with places := g.places.set i (some (slice.take (g.placeLen i))), touched := now }

end Group

abbrev Groups := List (Nat × Group)

def inflightBytes (gs : Groups) : Nat := (gs.map fun e => e.2.segBytes).sum

def sliceWidth (count total maxWidth : Nat) : Nat := if total ≤ count * 8 then 8 else maxWidth

def carries (count total width maxCount : Nat) : Bool :=
  decide (0 < count ∧ count ≤ maxCount ∧ total ≤ count * width ∧ count * width < total + width)

/-- `open_group`.  The flag says that a budget, not the geometry, cost a group. -/
def openGroup (lim : RxLimits) (gs : Groups) (key count total maxWidth maxCount now : Nat)
    (draws : Bool) : Groups × Bool :=
  let gs := Table.erase key gs
  let width := sliceWidth count total maxWidth
  if carries count total width maxCount = false then (gs, false)
  else if lim.maxMessage < total ∨ lim.maxInflight - inflightBytes gs < total + (count + 7) / 8 then
    (gs, true)
  else
    let full : Bool := lim.maxGroups ≠ 0 ∧ lim.maxGroups ≤ gs.length
    let gs := if full then gs.drop 1 else gs
    if draws = false then (gs, true)
    else (Table.put key ⟨total, width, List.replicate count none, now⟩ gs, full)

/-- `add_slice`; `none` where the group cannot take it. -/
def addSlice (gs : Groups) (key index : Nat) (slice : List UInt8) (now : Nat) : Option Groups :=
  match Table.lookup key gs with
  | none => none
  | some g =>
    if g.places.length ≤ index then none
    else if slice.length < g.placeLen index then none
    else some (Table.put key (g.place index slice now) gs)

/-- `take`: a complete group is handed out and no longer tracked. -/
def takeGroup (gs : Groups) (key : Nat) : Option (List UInt8 × Groups) :=
  match Table.lookup key gs with
  | none => none
  | some g => if g.complete then some (g.bytes, Table.erase key gs) else none

/-- `sweep_stale`: the groups that stay. -/
def sweepStale (gs : Groups) (maxAge now : Nat) : Groups :=
  gs.filter fun e => now < e.2.touched ∨ now - e.2.touched ≤ maxAge

variable {index key now count maxCount maxWidth total : Nat} {gs gs' : Groups} {draws : Bool}
  {lim : RxLimits} {g : Group}

theorem of_addSlice {slice : List UInt8} (h : addSlice gs key index slice now = some gs') :
    ∃ g, Table.lookup key gs = some g ∧ index < g.places.length ∧
      gs' = Table.put key (g.place index slice now) gs := by
  rw [addSlice] at h
  cases hg : Table.lookup key gs with
  | none => rw [hg] at h; cases h
  | some g =>
    rw [hg] at h
    dsimp only at h
    split at h
    · cases h
    next hi =>
    split at h
    · cases h
    next hs =>
    exact ⟨g, rfl, Nat.lt_of_not_le hi, (Option.some.inj h).symm⟩

theorem of_takeGroup {whole : List UInt8} (h : takeGroup gs key = some (whole, gs')) :
    ∃ g, Table.lookup key gs = some g ∧ g.complete = true ∧ whole = g.bytes ∧
      gs' = Table.erase key gs := by
  rw [takeGroup] at h
  cases hg : Table.lookup key gs with
  | none => rw [hg] at h; cases h
  | some g =>
    rw [hg] at h
    dsimp only at h
    split at h
    next hc =>
      cases h
      exact ⟨g, rfl, hc, rfl, rfl⟩
    · cases h

theorem mem_openGroup {e : Nat × Group}
    (h : e ∈ (openGroup lim gs key count total maxWidth maxCount now draws).1) : (e ∈ gs ∧ e.1 ≠ key) ∨
      carries count total (sliceWidth count total maxWidth) maxCount = true ∧
        e = (key, ⟨total, sliceWidth count total maxWidth, List.replicate count none, now⟩) := by
  rw [openGroup] at h
  dsimp only at h
  by_cases hc : carries count total (sliceWidth count total maxWidth) maxCount = false
  · rw [if_pos hc] at h
    exact .inl (Table.mem_erase.mp h)
  rw [if_neg hc] at h
  split at h
  · exact .inl (Table.mem_erase.mp h)
  -- an eviction only takes groups away
  have hdrop : ∀ (full : Bool) (e : Nat × Group),
      e ∈ (if full = true then (Table.erase key gs).drop 1 else Table.erase key gs) →
        e ∈ gs ∧ e.1 ≠ key := by
    intro full e he
    cases full with
    | true => exact Table.mem_erase.mp (mem_of_mem_drop he)
    | false => exact Table.mem_erase.mp he
  split at h
  · exact .inl (hdrop _ e h)
  rcases Table.mem_put.mp h with he | ⟨he, -⟩
  · exact .inr ⟨Bool.eq_true_of_not_eq_false hc, he⟩
  · exact .inl (hdrop _ e he)

theorem openGroup_admits (hc : carries count total (sliceWidth count total maxWidth) maxCount = true)
    (hfree : (openGroup lim gs key count total maxWidth maxCount now draws).2 = false) :
    (openGroup lim gs key count total maxWidth maxCount now draws).1 =
      Table.put key ⟨total, sliceWidth count total maxWidth, List.replicate count none, now⟩
        (Table.erase key gs) := by
  rw [openGroup] at hfree ⊢
  dsimp only at hfree ⊢
  rw [if_neg (by rw [hc]; decide)] at hfree ⊢
  split at hfree
  · cases hfree
  next hroom =>
  rw [if_neg hroom]
  cases draws with
  | false => cases hfree
  | true =>
    rw [if_neg (by decide)] at hfree ⊢
    dsimp only at hfree ⊢
    rw [hfree]
    rfl

/-! ## What an advertise says of its slices -/

section

variable {mode rx : Mode} {payload : List UInt8} {maxCount : Nat}

theorem carries_iff {width : Nat} : carries count total width maxCount = true ↔
      0 < count ∧ count ≤ maxCount ∧ total ≤ count * width ∧ count * width < total + width := by
  rw [carries, decide_eq_true_eq]

theorem total_bounds (mode : Mode) (payload : List UInt8) (h : 0 < frameCount mode payload) :
    payload.length ≤ frameCount mode payload * mode.maxData ∧
      frameCount mode payload * mode.maxData < payload.length + mode.maxData := by
  refine ⟨Window.le_cuts_mul _ mode.maxData_pos, ?_⟩
  have hlast : frameCount mode payload - 1 < Window.cuts mode.maxData payload.length := by
    rw [← frameCount]
    omega
  have hlt := Window.mul_lt_of_lt_cuts mode.maxData_pos hlast
  have hmul : frameCount mode payload * mode.maxData =
      (frameCount mode payload - 1) * mode.maxData + mode.maxData := by
    rw [← Nat.succ_mul, Nat.succ_eq_add_one, Nat.sub_add_cancel h]
  omega

/-- The width read off an advertise is the one the sender cut at, but for one short slice, where both
say the same. -/
theorem sliceWidth_cases (h : 0 < frameCount mode payload)
    (hle : payload.length ≤ frameCount mode payload *
      sliceWidth (frameCount mode payload) payload.length rx.maxData) :
    sliceWidth (frameCount mode payload) payload.length rx.maxData = mode.maxData ∨
      sliceWidth (frameCount mode payload) payload.length rx.maxData = 8 ∧ mode = .fd ∧
        frameCount mode payload = 1 ∧ payload.length ≤ 8 := by
  obtain ⟨hup, hlow⟩ := total_bounds mode payload h
  generalize frameCount mode payload = n at *
  cases mode with
  | classic =>
    rw [Mode.maxData] at hup
    exact .inl (if_pos hup)
  | fd =>
    rw [Mode.maxData] at hup hlow
    rw [sliceWidth] at hle ⊢
    by_cases h8 : payload.length ≤ n * 8
    · rw [if_pos h8]
      exact .inr ⟨rfl, rfl, by omega, by omega⟩
    rw [if_neg h8] at hle ⊢
    cases rx with
    | classic => exact absurd hle h8
    | fd => exact .inl rfl

/-- **A place is as long as the slice that belongs there.** -/
theorem placeLen_eq (hc : carries (frameCount mode payload) payload.length
      (sliceWidth (frameCount mode payload) payload.length rx.maxData) maxCount = true)
    (hw : g.width = sliceWidth (frameCount mode payload) payload.length rx.maxData)
    (ht : g.total = payload.length) {i : Nat} (hi : i < frameCount mode payload) :
    g.placeLen i = (frameAt mode payload i).length := by
  obtain ⟨hpos, -, hle, -⟩ := carries_iff.mp hc
  rw [Group.placeLen, hw, ht, frameAt, Window.length_window_cut]
  rcases sliceWidth_cases hpos hle with hwidth | ⟨hwidth, rfl, hone, hshort⟩
  · rw [hwidth]
  have hzero : i = 0 := by omega
  rw [hwidth, hzero, Mode.maxData]
  omega

theorem carries_of_mode (hmode : mode = .fd → rx = .fd) (hpos : 0 < frameCount mode payload)
    (hmax : frameCount mode payload ≤ maxCount) : carries (frameCount mode payload) payload.length
      (sliceWidth (frameCount mode payload) payload.length rx.maxData) maxCount = true := by
  obtain ⟨hup, hlow⟩ := total_bounds mode payload hpos
  refine carries_iff.mpr ⟨hpos, hmax, ?_⟩
  generalize frameCount mode payload = n at *
  cases mode with
  | classic =>
    rw [Mode.maxData] at hup hlow
    rw [sliceWidth, if_pos hup]
    exact ⟨hup, hlow⟩
  | fd =>
    rw [hmode rfl, sliceWidth]
    simp only [Mode.maxData] at *
    split <;> omega

end

/-! ## What the places hold -/

def Group.Filled (g : Group) (slice : Nat → List UInt8) : Prop :=
  ∀ i p, g.places[i]? = some (some p) → p = slice i

theorem Group.Filled.place {slice : Nat → List UInt8} (h : g.Filled slice)
    {p : List UInt8} (hp : p.take (g.placeLen index) = slice index) (now : Nat) :
    (g.place index p now).Filled slice := by
  intro i q hq
  rw [Group.place, getElem?_set] at hq
  split at hq
  next hi =>
    split at hq
    · cases hq
      rw [hp, hi]
    · cases hq
  · exact h i q hq

/-- **A complete group is its payload**, when its places hold the payload's windows. -/
theorem Group.bytes_of_filled {mode : Mode} {payload : List UInt8}
    (h : g.Filled (frameAt mode payload)) (hc : g.complete = true)
    (hlen : g.places.length = frameCount mode payload) : g.bytes = payload := by
  rw [frameCount] at hlen
  have hplaces : (g.places.map fun p => p.getD []) = Window.cut mode.maxData payload := by
    refine ext_getElem? fun i => ?_
    rw [getElem?_map]
    cases hi : g.places[i]? with
    | none =>
      have hle : g.places.length ≤ i := getElem?_eq_none_iff.mp hi
      rw [Option.map_none, getElem?_eq_none]
      rw [Window.length_cut]
      omega
    | some q =>
      obtain ⟨hlt, hget⟩ := List.getElem?_eq_some_iff.mp hi
      have hsome : q.isSome = true := List.all_eq_true.mp hc q (List.mem_of_getElem? hi)
      obtain ⟨p, rfl⟩ := Option.isSome_iff_exists.mp hsome
      rw [Window.getElem?_cut (by omega), h i p hi]
      rfl
  rw [bytes, hplaces, Window.flatten_cut mode.maxData_pos]

end LibTracer.Net.Can
