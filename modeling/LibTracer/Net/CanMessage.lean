import LibTracer.Net.CanBuffer

/-!
# The bytes taken are the message

The width of a slice is not on the wire: the buffer reads it off the count and the total.  It copies each
slice to its place, cut to it, and counts it once.

* **`taken_is_message`** — a group is complete when every slice has arrived, and then it is the message.
-/

namespace LibTracer.Net.Can

open List

/-! ## A segment and its places -/

namespace Meta

/-- The slice at `i` is in the segment. -/
def present (g : Meta) (i : Nat) : Bool := Bitmap.test g.seg g.total i

def group (g : Meta) : Group where
  total := g.total
  width := g.width
  places := (List.range g.expected).map fun i =>
    if g.present i then
      some (Window.window g.seg (i * g.width) (min g.width (g.total - i * g.width)))
    else none
  touched := g.lastTouch

/-- The segment has room for what it announces, and the count is that of the bits. -/
structure Sound (g : Meta) : Prop where
  length : g.seg.length = g.total + (g.expected + 7) / 8
  total_le : g.total ≤ g.expected * g.width
  lt_total : g.expected * g.width < g.total + g.width
  total_lt : g.total < 18446744073709551616
  count : g.count = (List.range g.expected).countP fun i => g.present i

variable {g g' : Meta} {index now : Nat} {slice : List UInt8}

theorem Sound.off_lt (h : g.Sound) (hi : index < g.expected) : index * g.width < g.total := by
  have hmul : (index + 1) * g.width ≤ g.expected * g.width := Nat.mul_le_mul_right _ hi
  have hlt := h.lt_total
  rw [Nat.add_mul, Nat.one_mul] at hmul
  omega

theorem place_disjoint {i j w : Nat} (h : i ≠ j) : i * w + w ≤ j * w ∨ j * w + w ≤ i * w := by
  rcases Nat.lt_or_gt_of_ne h with hlt | hlt
  · have := Nat.mul_le_mul_right w (Nat.succ_le_of_lt hlt)
    rw [Nat.succ_mul] at this
    exact .inl this
  have := Nat.mul_le_mul_right w (Nat.succ_le_of_lt hlt)
  rw [Nat.succ_mul] at this
  exact .inr this

theorem of_addSlice (hg : g.Sound) (h : g.addSlice index slice now = some g') :
    index < g.expected ∧ min g.width (g.total - index * g.width) ≤ slice.length ∧
      ∃ seg, seg = Window.splice g.seg (index * g.width)
          (slice.take (min g.width (g.total - index * g.width))) ∧
        ((g.present index = true ∧ g' = { g with seg := seg, lastTouch := now }) ∨
          (g.present index = false ∧ g' = { g with
            seg := Bitmap.set seg g.total index
            count := g.count + 1
            highest := max g.highest index
            lastTouch := now })) := by
  rw [addSlice] at h
  dsimp only at h
  by_cases hi : index < g.expected
  · have hoff := hg.off_lt hi
    rw [subSize_of_le (Nat.le_of_lt hoff) hg.total_lt] at h
    split at h
    · cases h
    next hfits =>
    have hlen : min g.width (g.total - index * g.width) ≤ slice.length := by omega
    have htake : (slice.take (min g.width (g.total - index * g.width))).length =
        min g.width (g.total - index * g.width) := length_take_of_le (by omega)
    have htest : Bitmap.test (Window.splice g.seg (index * g.width)
        (slice.take (min g.width (g.total - index * g.width)))) g.total index = g.present index := by
      have hseg := hg.length
      exact Bitmap.test_splice (by omega) (by omega) index
    rw [htest] at h
    refine ⟨hi, hlen, _, rfl, ?_⟩
    cases hp : g.present index with
    | true =>
      rw [hp] at h
      exact .inl ⟨rfl, (Option.some.inj h).symm⟩
    | false =>
      rw [hp] at h
      exact .inr ⟨rfl, (Option.some.inj h).symm⟩
  · rw [if_pos (.inl (Nat.le_of_not_lt hi))] at h
    cases h

theorem countP_range_insert {n k : Nat} {p : Nat → Bool} (hk : k < n) (hp : p k = false) :
    (List.range n).countP (fun i => decide (k = i) || p i) = (List.range n).countP p + 1 := by
  induction n with
  | zero => exact absurd hk (Nat.not_lt_zero k)
  | succ n ih =>
    rw [range_succ, countP_append, countP_append]
    by_cases hkn : k = n
    · have hsame : (List.range n).countP (fun i => decide (k = i) || p i) =
          (List.range n).countP p := by
        refine countP_congr fun i hi => ?_
        have hne : k ≠ i := by
          have := mem_range.mp hi
          omega
        simp [hne]
      rw [hsame, ← hkn]
      simp [hp]
    · rw [ih (by omega)]
      have hlast : List.countP (fun i => decide (k = i) || p i) [n] = List.countP p [n] := by
        simp [hkn]
      rw [hlast]
      omega

/-- What a slice that was taken changes: its presence and its place, nothing else. -/
structure Took (g g' : Meta) (index : Nat) (slice : List UInt8) (now : Nat) : Prop where
  total : g'.total = g.total
  width : g'.width = g.width
  expected : g'.expected = g.expected
  touched : g'.lastTouch = now
  length : g'.seg.length = g.seg.length
  present : ∀ i, g'.present i = (decide (index = i) || g.present i)
  own : Window.window g'.seg (index * g.width) (min g.width (g.total - index * g.width)) =
    slice.take (min g.width (g.total - index * g.width))
  others : ∀ i, i ≠ index →
    Window.window g'.seg (i * g.width) (min g.width (g.total - i * g.width)) =
      Window.window g.seg (i * g.width) (min g.width (g.total - i * g.width))
  count : g'.count = g.count + (!g.present index).toNat

theorem took_of_addSlice (hg : g.Sound) (h : g.addSlice index slice now = some g') :
    Took g g' index slice now ∧ index < g.expected := by
  obtain ⟨hi, hlen, seg, hseg, hcase⟩ := of_addSlice hg h
  have hoff := hg.off_lt hi
  have hsize := hg.length
  have htake : (slice.take (min g.width (g.total - index * g.width))).length =
      min g.width (g.total - index * g.width) := length_take_of_le (by omega)
  have hfits : index * g.width + (slice.take (min g.width (g.total - index * g.width))).length ≤
      g.seg.length := by omega
  have hseglen : seg.length = g.seg.length := by rw [hseg, Window.length_splice hfits]
  have htest : ∀ i, Bitmap.test seg g.total i = g.present i := fun i => by
    rw [hseg]
    exact Bitmap.test_splice hfits (by omega) i
  have hself : Window.window seg (index * g.width) (min g.width (g.total - index * g.width)) =
      slice.take (min g.width (g.total - index * g.width)) := by
    have := Window.window_splice_self hfits
    rwa [htake, ← hseg] at this
  have hrest : ∀ i, i ≠ index →
      Window.window seg (i * g.width) (min g.width (g.total - i * g.width)) =
        Window.window g.seg (i * g.width) (min g.width (g.total - i * g.width)) := by
    intro i hne
    rw [hseg]
    have := place_disjoint (w := g.width) hne
    exact Window.window_splice_of_le hfits (by omega)
  refine ⟨?_, hi⟩
  rcases hcase with ⟨hp, rfl⟩ | ⟨hp, rfl⟩
  · refine ⟨rfl, rfl, rfl, rfl, hseglen, fun i => ?_, hself, hrest, by rw [hp]; rfl⟩
    show Bitmap.test seg g.total i = _
    rw [htest]
    by_cases hix : index = i
    · rw [← hix, hp, Bool.or_true]
    · simp [hix]
  have hbit : g.total + index / 8 < seg.length := by omega
  have hwindow : ∀ off n, off + n ≤ g.total →
      Window.window (Bitmap.set seg g.total index) off n = Window.window seg off n :=
    fun off n hle => Window.window_set_of_lt (by omega)
  refine ⟨rfl, rfl, rfl, rfl, ?_, fun i => ?_, ?_, fun i hne => ?_, by rw [hp]; rfl⟩
  · show (Bitmap.set seg g.total index).length = _
    rw [Bitmap.length_set, hseglen]
  · show Bitmap.test (Bitmap.set seg g.total index) g.total i = _
    rw [Bitmap.test_set hbit, htest]
  · rw [← hself]
    exact hwindow _ _ (by omega)
  · rw [← hrest i hne]
    by_cases hle : i * g.width ≤ g.total
    · exact hwindow _ _ (by omega)
    · rw [Nat.sub_eq_zero_of_le (by omega), Nat.min_zero, Window.window_zero_right,
        Window.window_zero_right]

theorem Sound.took (hg : g.Sound) (h : Took g g' index slice now) (hi : index < g.expected) :
    g'.Sound := by
  refine ⟨?_, ?_, ?_, ?_, ?_⟩
  · rw [h.length, h.total, h.expected]
    exact hg.length
  · rw [h.total, h.expected, h.width]
    exact hg.total_le
  · rw [h.total, h.expected, h.width]
    exact hg.lt_total
  · rw [h.total]
    exact hg.total_lt
  · rw [h.count, h.expected, hg.count]
    have hfun : (fun i => g'.present i) = fun i => decide (index = i) || g.present i :=
      funext h.present
    rw [hfun]
    cases hp : g.present index with
    | false => rw [countP_range_insert hi hp]; rfl
    | true =>
      have hsame : (fun i => decide (index = i) || g.present i) = fun i => g.present i := by
        funext i
        by_cases hix : index = i
        · rw [← hix, hp, Bool.or_true]
        · simp [hix]
      rw [hsame]
      rfl

/-- **A slice that is taken fills its place.** -/
theorem group_took (h : Took g g' index slice now) (hi : index < g.expected) :
    g'.group = g.group.place index slice now := by
  rw [group, group, Group.place]
  simp only [h.total, h.width, h.expected, h.touched, Group.placeLen]
  congr 1
  refine ext_getElem? fun i => ?_
  rw [getElem?_set, length_map, length_range, getElem?_map, getElem?_map]
  by_cases hn : i < g.expected
  · rw [getElem?_range hn, Option.map_some, Option.map_some, h.present]
    by_cases hix : index = i
    · subst hix
      rw [if_pos (show (decide (index = index) || g.present index) = true by simp), if_pos rfl,
        if_pos hi, h.own]
    · rw [if_neg hix, h.others i (Ne.symm hix)]
      simp [hix]
  · rw [getElem?_eq_none (by simpa using hn), if_neg (by omega)]
    rfl

/-- **The count tells when every place is filled.** -/
theorem Sound.complete_iff (hg : g.Sound) : g.count = g.expected ↔ g.group.complete = true := by
  have hlen : (List.range g.expected).length = g.expected := length_range
  rw [hg.count, Group.complete, group, all_map, all_eq_true]
  constructor
  · intro h i hi
    have := countP_eq_length.mp (h.trans hlen.symm) i hi
    simp [this]
  · intro h
    refine (countP_eq_length.mpr fun i hi => ?_).trans hlen
    have := h i hi
    by_contra hp
    simp [hp] at this

/-- **A full segment, cut to its total, is the bytes of its places.** -/
theorem Sound.take_eq_bytes (hg : g.Sound) (hc : g.group.complete = true) :
    g.seg.take g.total = g.group.bytes := by
  have hall : ∀ i ∈ List.range g.expected, g.present i = true := by
    intro i hi
    have hcount := hg.complete_iff.mpr hc
    rw [hg.count] at hcount
    exact countP_eq_length.mp (hcount.trans length_range.symm) i hi
  have hplaces : (g.group.places.map fun p => p.getD []) =
      (List.range g.expected).map fun i => Window.window (g.seg.take g.total) (i * g.width) g.width := by
    rw [group, map_map]
    refine map_congr_left fun i hi => ?_
    rw [Function.comp_apply, if_pos (hall i hi), Option.getD_some, Window.window, Window.window,
      drop_take, take_take]
  rw [Group.bytes, hplaces, Window.flatten_windows, take_take, Nat.min_eq_right hg.total_le]

end Meta

/-! ## One group among many -/

theorem subSize_lt (a b : Nat) : subSize a b < 18446744073709551616 :=
  Nat.mod_lt _ (by decide)

namespace Meta

variable {count total maxWidth maxCount seq now attempt : Nat} {fill : Nat → UInt8} {caps : Caps}
  {b : Buffer}

theorem present_fresh (i : Nat) :
    (Buffer.fresh count total maxWidth fill seq now attempt).present i = false :=
  Bitmap.test_zero (by rw [length_map, length_range]; rfl) i

theorem group_fresh : (Buffer.fresh count total maxWidth fill seq now attempt).group =
    ⟨total, sliceWidth count total maxWidth, List.replicate count none, now⟩ := by
  have hplaces : ∀ i ∈ List.range count,
      (if (Buffer.fresh count total maxWidth fill seq now attempt).present i = true then
        some (Window.window (Buffer.fresh count total maxWidth fill seq now attempt).seg
          (i * sliceWidth count total maxWidth)
          (min (sliceWidth count total maxWidth) (total - i * sliceWidth count total maxWidth)))
        else none) = none := fun i _ => by
    rw [present_fresh, if_neg nofun]
  rw [group]
  refine congrArg (fun places => Group.mk total (sliceWidth count total maxWidth) places now) ?_
  refine (map_congr_left hplaces).trans ?_
  rw [map_const', length_range]

theorem sound_fresh (h : b.overClaim caps count total maxWidth maxCount = false) :
    (Buffer.fresh count total maxWidth fill seq now attempt).Sound := by
  have hfits := of_decide_eq_false h
  simp only [not_or, Nat.not_lt, Nat.not_le] at hfits
  obtain ⟨-, htotal, hlast, -, hsize⟩ := hfits
  have hlt := subSize_lt caps.limits.maxInflight b.inflight
  refine ⟨?_, htotal, hlast, Nat.lt_of_le_of_lt (Nat.le_trans (Nat.le_add_right total _) hsize) hlt, ?_⟩
  · show ((List.range total).map fill ++ List.replicate ((count + 7) / 8) 0).length = _
    rw [length_append, length_map, length_range, length_replicate]
    rfl
  · refine (countP_eq_zero.mpr fun i _ => ?_).symm
    rw [present_fresh]
    decide

end Meta

namespace Buffer

variable {caps : Caps} {b b' b'' : Buffer} {key : Nat}

def Kept (key : Nat) (b b' : Buffer) : Prop :=
  Table.lookup key b'.groups = none ∨ Table.lookup key b'.groups = Table.lookup key b.groups

theorem Kept.refl (key : Nat) (b : Buffer) : Kept key b b := .inr rfl

theorem Kept.trans (h : Kept key b b') (h' : Kept key b' b'') : Kept key b b'' := by
  rcases h' with hnone | hsame
  · exact .inl hnone
  rcases h with hnone | hsame'
  · exact .inl (hsame.trans hnone)
  · exact .inr (hsame.trans hsame')

theorem kept_dropGroup (key key' : Nat) (b : Buffer) (fate : Fate) :
    Kept key b (b.dropGroup key' fate) := by
  rw [dropGroup]
  cases hg : Table.lookup key' b.groups with
  | none => exact Kept.refl key b
  | some g =>
    by_cases hk : key = key'
    · exact .inl (by rw [hk]; exact Table.lookup_erase_self _ _)
    · exact .inr (Table.lookup_erase_ne hk)

theorem kept_evictOldest (key : Nat) (b : Buffer) : Kept key b b.evictOldest := by
  rw [evictOldest]
  cases oldest b.groups with
  | none => exact Kept.refl key b
  | some e => exact kept_dropGroup key e.1 b .evicted

theorem kept_sweepStale (key maxAge : Nat) (b : Buffer) : Kept key b (b.sweepStale maxAge) := by
  rw [sweepStale]
  generalize b.groups.map Prod.fst = keys
  induction keys generalizing b with
  | nil => exact Kept.refl key b
  | cons k keys ih =>
    refine Kept.trans ?_ (ih (sweepOne maxAge b k))
    rw [sweepOne]
    cases Table.lookup k b.groups with
    | none => exact Kept.refl key b
    | some g =>
      dsimp only
      split
      · exact Kept.refl key b
      · exact kept_dropGroup key k b .swept

theorem kept_take (key key' : Nat) (b : Buffer) : Kept key b (b.take key').1 := by
  rw [take]
  cases Table.lookup key' b.groups with
  | none => exact Kept.refl key b
  | some g =>
    dsimp only
    split
    · exact Kept.refl key b
    · exact kept_dropGroup key key' b .taken

theorem kept_discard (key key' : Nat) (b : Buffer) : Kept key b (b.discard key') := by
  rw [discard]
  split
  · exact kept_dropGroup key key' b .discarded
  · exact Kept.refl key b

theorem kept_addSlice {key' : Nat} (h : key ≠ key') (b : Buffer) (index : Nat) (slice : List UInt8) :
    Kept key b (b.addSlice key' index slice).1 := by
  rw [addSlice]
  cases Table.lookup key' b.groups with
  | none => exact Kept.refl key b
  | some g =>
    dsimp only
    cases g.addSlice index slice b.now with
    | none => exact Kept.refl key b
    | some g' => exact .inr (Table.lookup_put_ne h g')

theorem kept_replace (key key' : Nat) (b : Buffer) : Kept key b (b.replace key') := by
  rw [replace]
  split
  · exact (kept_dropGroup key key' b .replaced).trans (.inr rfl)
  · exact .inr rfl

theorem replace_free (b : Buffer) (key : Nat) : Table.lookup key (b.replace key).groups = none := by
  rw [replace]
  cases hg : Table.lookup key b.groups with
  | none => exact hg
  | some g =>
    rw [Option.isSome_some, if_pos rfl, dropGroup, hg]
    exact Table.lookup_erase_self _ _

theorem kept_makeRoom (key : Nat) (caps : Caps) (b : Buffer) : Kept key b (b.makeRoom caps) := by
  rw [makeRoom]
  split
  · exact kept_evictOldest key b
  · exact Kept.refl key b

theorem makeRoom_free {key : Nat} {caps : Caps} {b : Buffer} (h : Table.lookup key b.groups = none) :
    Table.lookup key (b.makeRoom caps).groups = none := by
  rcases kept_makeRoom key caps b with hnone | hsame
  · exact hnone
  · exact hsame.trans h

theorem openGroup_lookup (caps : Caps) (b : Buffer) (key key' count total maxWidth maxCount : Nat)
    (adm : Admission) :
    Kept key b (b.openGroup caps key' count total maxWidth maxCount adm).1 ∧ key ≠ key' ∨ key = key' ∧
        (Table.lookup key (b.openGroup caps key' count total maxWidth maxCount adm).1.groups = none ∨
          ∃ fill seq now attempt b₀,
            Table.lookup key (b.openGroup caps key' count total maxWidth maxCount adm).1.groups =
              some (fresh count total maxWidth fill seq now attempt) ∧
            Buffer.overClaim caps b₀ count total maxWidth maxCount = false) := by
  have hkept := (kept_replace key key' b).trans (kept_makeRoom key caps _)
  have hfree : Table.lookup key' ((b.replace key').makeRoom caps).groups = none :=
    makeRoom_free (replace_free b key')
  rw [openGroup]
  dsimp only
  by_cases hk : key = key'
  · refine .inr ⟨hk, ?_⟩
    subst hk
    split
    · exact .inl (replace_free b key)
    next hover =>
    split
    · exact .inl hfree
    split
    · exact .inl hfree
    · exact .inr ⟨_, _, _, _, _, Table.lookup_put_self _ _ _, Bool.eq_false_of_not_eq_true hover⟩
  · refine .inl ⟨?_, hk⟩
    split
    · exact kept_replace key key' b
    split
    · exact hkept
    split
    · exact hkept
    · exact hkept.trans (.inr (Table.lookup_put_ne hk _))

end Buffer

/-! ## One message -/

/-- What an operation on the group of a message is: it announces the message, to a link of the receiver's
width, or carries one of its slices as it is on the wire.  Operations on other groups are any. -/
def OfMessage (mode rx : Mode) (payload : List UInt8) (key : Nat) : BufferOp → Prop
  | .openGroup k count total maxWidth _ _ => k = key →
      count = frameCount mode payload ∧ total = payload.length ∧ maxWidth = rx.maxData
  | .addSlice k index slice => k = key →
      index < frameCount mode payload ∧ slice = onWire mode (frameAt mode payload index)
  | _ => True

def heardStep (key : Nat) (heard : List Nat) : BufferOp → List Nat
  | .openGroup k _ _ _ _ _ => if k = key then [] else heard
  | .addSlice k index _ => if k = key then index :: heard else heard
  | _ => heard

def heardSince (key : Nat) (ops : List BufferOp) : List Nat := ops.foldl (heardStep key) []

/-- The group of a message holds the slices that have arrived, each in its place. -/
structure Gathers (mode rx : Mode) (payload : List UInt8) (heard : List Nat) (g : Meta) : Prop where
  sound : g.Sound
  total : g.total = payload.length
  expected : g.expected = frameCount mode payload
  width : g.width = sliceWidth (frameCount mode payload) payload.length rx.maxData
  present : ∀ i < g.expected, g.present i = decide (i ∈ heard)
  filled : g.group.Filled (frameAt mode payload)

section

variable {mode rx : Mode} {payload : List UInt8} {heard : List Nat} {caps : Caps} {b : Buffer}
  {key : Nat}

theorem gathers_fresh {fill : Nat → UInt8} {seq now attempt maxCount : Nat} {b₀ : Buffer}
    (hclaim : Buffer.overClaim caps b₀ (frameCount mode payload) payload.length rx.maxData maxCount =
      false) : Gathers mode rx payload []
      (Buffer.fresh (frameCount mode payload) payload.length rx.maxData fill seq now attempt) := by
  refine ⟨Meta.sound_fresh hclaim, rfl, rfl, rfl, fun i _ => ?_, ?_⟩
  · rw [Meta.present_fresh]
    rfl
  · intro i p hp
    rw [Meta.group_fresh, getElem?_replicate] at hp
    split at hp <;> cases hp

theorem Gathers.add {g : Meta} (h : Gathers mode rx payload heard g) {index : Nat}
    (hi : index < frameCount mode payload) (now : Nat) :
    ∃ g', g.addSlice index (onWire mode (frameAt mode payload index)) now = some g' ∧
      Gathers mode rx payload (index :: heard) g' := by
  have hcarries : carries (frameCount mode payload) payload.length
      (sliceWidth (frameCount mode payload) payload.length rx.maxData) (frameCount mode payload)
        = true := by
    have hle := h.sound.total_le
    have hlt := h.sound.lt_total
    rw [h.total, h.expected, h.width] at hle hlt
    exact carries_iff.mpr ⟨Nat.zero_lt_of_lt hi, le_rfl, hle, hlt⟩
  have hplace : g.group.placeLen index = (frameAt mode payload index).length :=
    placeLen_eq hcarries h.width h.total hi
  have hindex : index < g.expected := by
    rw [h.expected]
    exact hi
  have hfits : ¬(g.expected ≤ index ∨ (onWire mode (frameAt mode payload index)).length <
      min g.width (subSize g.total (index * g.width))) := by
    rw [subSize_of_le (Nat.le_of_lt (h.sound.off_lt hindex)) h.sound.total_lt]
    have hlen := length_le_onWire mode (frameAt mode payload index)
    rw [← hplace] at hlen
    exact fun hor => hor.elim (fun hle => absurd hindex (Nat.not_lt.mpr hle))
      fun hshort => absurd hlen (Nat.not_le.mpr hshort)
  obtain ⟨g', hg'⟩ : ∃ g', g.addSlice index (onWire mode (frameAt mode payload index)) now =
      some g' := by
    rw [Meta.addSlice]
    dsimp only
    rw [if_neg hfits]
    split
    all_goals exact ⟨_, rfl⟩
  obtain ⟨htook, -⟩ := Meta.took_of_addSlice h.sound hg'
  refine ⟨g', hg', h.sound.took htook hindex, htook.total.trans h.total,
    htook.expected.trans h.expected, htook.width.trans h.width, fun i hi' => ?_, ?_⟩
  · rw [htook.present, h.present i (by rw [← htook.expected]; exact hi')]
    by_cases hix : index = i
    · simp [hix]
    · simp [hix, Ne.symm hix]
  · rw [Meta.group_took htook hindex]
    exact h.filled.place (take_onWire hplace) now

def HoldsMessage (mode rx : Mode) (payload : List UInt8) (key : Nat) (b : Buffer) (heard : List Nat) :
    Prop :=
  ∀ g, Table.lookup key b.groups = some g → Gathers mode rx payload heard g

theorem HoldsMessage.kept {b' : Buffer} (h : HoldsMessage mode rx payload key b heard)
    (hk : Buffer.Kept key b b') : HoldsMessage mode rx payload key b' heard := by
  intro g hg
  rcases hk with hnone | hsame
  · rw [hnone] at hg
    cases hg
  · exact h g (hsame.symm.trans hg)

/-- **One operation**: the group of the message goes on holding what has arrived. -/
theorem HoldsMessage.step (h : HoldsMessage mode rx payload key b heard) {op : BufferOp}
    (hop : OfMessage mode rx payload key op) :
    HoldsMessage mode rx payload key (b.step caps op).1 (heardStep key heard op) := by
  cases op with
  | setNow now => exact h.kept (.inr rfl)
  | take k => exact h.kept (Buffer.kept_take key k b)
  | erase k => exact h.kept (Buffer.kept_dropGroup key k b .erased)
  | discard k => exact h.kept (Buffer.kept_discard key k b)
  | sweepStale maxAge => exact h.kept (Buffer.kept_sweepStale key maxAge b)
  | openGroup k count total maxWidth maxCount adm =>
    rcases Buffer.openGroup_lookup caps b key k count total maxWidth maxCount adm with
      ⟨hkept, hne⟩ | ⟨rfl, hown⟩
    · rw [heardStep, if_neg (Ne.symm hne)]
      exact h.kept hkept
    rw [heardStep, if_pos rfl]
    obtain ⟨rfl, rfl, rfl⟩ := hop rfl
    intro g hg
    rcases hown with hnone | ⟨fill, seq, now, attempt, b₀, hg', hclaim⟩
    · cases hnone.symm.trans hg
    · obtain rfl := Option.some.inj (hg'.symm.trans hg)
      exact gathers_fresh hclaim
  | addSlice k index slice =>
    by_cases hk : k = key
    · subst hk
      obtain ⟨hi, rfl⟩ := hop rfl
      rw [heardStep, if_pos rfl]
      intro g' hg'
      rw [Buffer.step, Buffer.addSlice] at hg'
      cases hg : Table.lookup k b.groups with
      | none =>
        rw [hg] at hg'
        cases hg.symm.trans hg'
      | some g =>
        obtain ⟨g'', hadd, hgathers⟩ := (h g hg).add hi b.now
        rw [hg] at hg'
        dsimp only at hg'
        rw [hadd] at hg'
        obtain rfl := Option.some.inj ((Table.lookup_put_self _ _ _).symm.trans hg')
        exact hgathers
    · rw [heardStep, if_neg hk]
      exact h.kept (Buffer.kept_addSlice (Ne.symm hk) b index slice)

theorem holdsMessage_run (caps : Caps) {ops : List BufferOp}
    (hops : ∀ op ∈ ops, OfMessage mode rx payload key op) :
    HoldsMessage mode rx payload key ((bufferMachine caps).run ops) (heardSince key ops) := by
  induction ops using List.reverseRecOn with
  | nil =>
    intro g hg
    cases hg
  | append_singleton ops op ih =>
    have hold := ih fun o ho => hops o (mem_append_left _ ho)
    have hrun : (bufferMachine caps).run (ops ++ [op]) =
        (((bufferMachine caps).run ops).step caps op).1 := by
      rw [Machine.run, Machine.runFrom_append]
      rfl
    rw [hrun, heardSince, foldl_append]
    exact hold.step (hops op (mem_append_right _ mem_cons_self))

end

/-- **The bytes taken are the message**: whatever else the buffer is asked to do, and in whatever order the
slices of a message arrive, again or not at all, its group is complete exactly when it is open and every
slice has arrived since it was announced; what is taken then is the message, and before that nothing
is. -/
theorem taken_is_message (mode rx : Mode) (payload : List UInt8) (key : Nat) (caps : Caps)
    (ops : List BufferOp) (hops : ∀ op ∈ ops, OfMessage mode rx payload key op) :
    (((bufferMachine caps).run ops).isComplete key = true ↔
        ((bufferMachine caps).run ops).contains key = true ∧
          ∀ i < frameCount mode payload, i ∈ heardSince key ops) ∧
      (((bufferMachine caps).run ops).take key).2 =
        if ((bufferMachine caps).run ops).isComplete key then some payload else none := by
  have hholds := holdsMessage_run caps hops
  generalize (bufferMachine caps).run ops = b at hholds ⊢
  rw [Buffer.isComplete, Buffer.contains, Buffer.take]
  cases hg : Table.lookup key b.groups with
  | none => exact ⟨by simp, rfl⟩
  | some g =>
    have hgathers := hholds g hg
    have hcount : g.count = g.expected ↔ ∀ i < frameCount mode payload, i ∈ heardSince key ops := by
      have hlen : (List.range g.expected).length = g.expected := length_range
      rw [hgathers.sound.count, ← hgathers.expected]
      constructor
      · intro hc i hi
        have := countP_eq_length.mp (hc.trans hlen.symm) i (mem_range.mpr hi)
        rw [hgathers.present i hi] at this
        exact of_decide_eq_true this
      · intro hall
        refine (countP_eq_length.mpr fun i hi => ?_).trans hlen
        have hi' := mem_range.mp hi
        rw [hgathers.present i hi']
        exact decide_eq_true (hall i hi')
    refine ⟨by simpa using hcount, ?_⟩
    by_cases hc : g.count = g.expected
    · have hcomplete := hgathers.sound.complete_iff.mp hc
      have hbytes : g.seg.take g.total = payload := by
        rw [hgathers.sound.take_eq_bytes hcomplete]
        refine Group.bytes_of_filled hgathers.filled hcomplete ?_
        rw [Meta.group, length_map, length_range, hgathers.expected]
      simp [hc, hbytes]
    · simp [hc]

/-- A CAN-FD message of two slices, the last of which is padded from 17 bytes to 20. -/
def twoSlices : List UInt8 := List.replicate 64 7 ++ List.replicate 17 9

def twoSlicesOps : List BufferOp :=
  [.openGroup 1 2 81 64 10 {}, .addSlice 1 1 (onWire .fd (frameAt .fd twoSlices 1)),
    .addSlice 1 1 (onWire .fd (frameAt .fd twoSlices 1)),
    .addSlice 1 0 (onWire .fd (frameAt .fd twoSlices 0))]

theorem taken_is_message_twoSlices :
    (((bufferMachine smallCaps).run twoSlicesOps).take 1).2 = some twoSlices := by
  have hops : ∀ op ∈ twoSlicesOps, OfMessage .fd .fd twoSlices 1 op := by
    intro op hop
    simp only [twoSlicesOps, mem_cons, not_mem_nil, or_false] at hop
    rcases hop with rfl | rfl | rfl | rfl
    · exact fun _ => ⟨rfl, rfl, rfl⟩
    all_goals exact fun _ => ⟨by decide, rfl⟩
  rw [(taken_is_message .fd .fd twoSlices 1 smallCaps twoSlicesOps hops).2]
  decide +kernel

end LibTracer.Net.Can
