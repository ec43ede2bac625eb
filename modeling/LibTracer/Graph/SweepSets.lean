import LibTracer.Graph.Wiring
import LibTracer.Lib.PrefixRun
import Mathlib.Data.List.TakeWhile

/-!
# The sweep sets (`graph.cpp`)

A sweep of a subtree delivers the vertices marked since the last one and those that are always
delivered.  Both sets are tables of packed keys in byte order, in which a subtree is a run.  Beside
them the graph keeps a count of the marks and, on each vertex, a hint that it may be marked.

* **`SweepSets.kept_run`** — count and hints are sound after any run.
-/

namespace LibTracer.Graph

open List
open Function (update update_self update_of_ne)

/-! ## Subtrees are runs -/

def packedPath (path : List Name) : List Nat := path.flatMap fun n => n.length :: n.map Char.toNat

theorem packedPath_prefix_iff {q r : List Name} : packedPath q <+: packedPath r ↔ q <+: r := by
  induction q generalizing r with
  | nil => simp [packedPath]
  | cons n q ih =>
    cases r with
    | nil => simp [packedPath]
    | cons m r =>
      have hcons : ∀ (n : Name) (q : List Name),
          packedPath (n :: q) = n.length :: (n.map Char.toNat ++ packedPath q) := fun _ _ => rfl
      rw [hcons, hcons, cons_prefix_cons, cons_prefix_cons]
      constructor
      · intro h
        obtain ⟨hlen, hpre⟩ := h
        -- segments of one length are told apart by their bytes
        have hlen' : (n.map Char.toNat).length = (m.map Char.toNat).length := by simpa using hlen
        obtain ⟨t, ht⟩ := hpre
        rw [append_assoc] at ht
        obtain ⟨hn, hrest⟩ := append_inj ht hlen'
        have hnm : n = m := map_injective_iff.mpr (fun _ _ h => Char.toNat_inj.mp h) hn
        exact ⟨hnm, ih.mp ⟨t, hrest⟩⟩
      · intro h
        obtain ⟨rfl, hpre⟩ := h
        exact ⟨rfl, (prefix_append_right_inj _).mpr (ih.mpr hpre)⟩

theorem packed_prefix_iff {k j : Key} : packed k <+: packed j ↔ k <:+ j := by
  rw [← reverse_prefix]
  exact packedPath_prefix_iff

theorem packed_injective : Function.Injective packed := by
  intro k j h
  have hkj : k <:+ j := packed_prefix_iff.mp (h ▸ prefix_refl _)
  have hjk : j <:+ k := packed_prefix_iff.mp (h ▸ prefix_refl _)
  exact hkj.eq_of_length_le hjk.length_le

structure Ordered (set : List Key) : Prop where
  sorted : set.Pairwise fun a b => packed a ≤ packed b
  nodup : set.Nodup

namespace Ordered

variable {set : List Key}

theorem nil : Ordered [] := ⟨List.Pairwise.nil, nodup_nil⟩

theorem sublist {sub : List Key} (h : Ordered set) (hsub : sub.Sublist set) : Ordered sub :=
  ⟨h.sorted.sublist hsub, h.nodup.sublist hsub⟩

theorem insertKey (h : Ordered set) (k : Key) : Ordered (insertKey k set) := by
  unfold LibTracer.Graph.insertKey
  by_cases hk : k ∈ set
  · rwa [if_pos hk]
  rw [if_neg hk]
  have htotal : Std.Total fun a b : Key => packed a ≤ packed b := ⟨fun a b => le_total _ _⟩
  have htrans : IsTrans Key fun a b => packed a ≤ packed b := ⟨fun _ _ _ => le_trans⟩
  refine ⟨h.sorted.orderedInsert k set, ?_⟩
  rw [(perm_orderedInsert _ k set).nodup_iff]
  exact nodup_cons.mpr ⟨hk, h.nodup⟩

end Ordered

variable {set : List Key}

theorem length_insertKey {k : Key} (hk : k ∉ set) :
    (insertKey k set).length = set.length + 1 := by
  rw [insertKey, if_neg hk, orderedInsert_length]

def subtreeRun (lo : Key) (set : List Key) : List Key := PrefixRun.prefixRun packed (packed lo) set

/-- **The run of a subtree** is its members. -/
theorem subtreeRun_eq (h : Ordered set) (lo : Key) :
    subtreeRun lo set = set.filter (lo <:+ ·) := by
  rw [subtreeRun, PrefixRun.prefixRun_eq_filter packed _ h.sorted]
  exact filter_congr fun j _ => by simp [packed_prefix_iff]

/-! ## The operations -/

/-- The sets, and what they go with: of each vertex its registration, its delivery mode and its
hint. -/
structure SweepSets where
  registered : Key → Bool := fun _ => false
  mode : Key → DeliveryMode := fun _ => .IF_NEWER
  pending : List Key := []
  /-- `pending_count_`. -/
  count : Nat := 0
  /-- `has_pending_mark`. -/
  hint : Key → Bool := fun _ => false
  unconditional : List Key := []

/-- What the table source grants a sweep: its key, each key it collects, and the list of vertices
it resolves them to. -/
structure SweepGrants where
  key : Bool := true
  push : Key → Bool := fun _ => true
  targets : Bool := true

namespace SweepSets

variable (t : SweepSets)

/-- The mark of a vertex is taken back: its hint goes down, and the count follows the table. -/
def unmark (k : Key) : SweepSets :=
  { t with
    hint := update t.hint k false
    pending := t.pending.erase k
    count := if t.pending.contains k then t.count - 1 else t.count }

/-- `mark_pending`.  A key that is in the table takes no entry. -/
def markPending (k : Key) (observed key entry : Bool) : SweepSets :=
  if t.mode k ≠ .IF_NEWER then t
  else if !observed then t
  else if !key then t
  else if t.pending.contains k then { t with hint := update t.hint k true }
  else if !entry then t
  else
    { t with
      hint := update t.hint k true
      pending := insertKey k t.pending
      count := t.count + 1 }

/-- `clear_pending`: neither a vertex without a hint nor an empty set is looked into. -/
def clearPending (k : Key) (observed key current : Bool) : SweepSets :=
  if !observed then t
  else if !t.hint k then t
  else if t.count = 0 then t
  else if !key then t
  else if !current then t
  else t.unmark k

/-- `apply_delivery_mode`: an entry is drawn before anything changes. -/
def applyDeliveryMode (k : Key) (mode : DeliveryMode) (entry : Bool) : SweepSets × Bool :=
  if mode = .UNCONDITIONAL && !(t.unconditional.contains k) && !entry then (t, false)
  else
    let t := { t with
      mode := update t.mode k mode
      unconditional :=
        if mode = .UNCONDITIONAL then insertKey k t.unconditional else t.unconditional.erase k }
    (if mode ≠ .IF_NEWER then t.unmark k else t, true)

/-- The half of a registration: the mode is declared on the placeholder first, and taken back if the
rest is refused. -/
def register (k : Key) (mode : DeliveryMode) (entry rest : Bool) : SweepSets × Bool :=
  if t.registered k then (t, false)
  else
    let moves := decide (mode ≠ t.mode k)
    let (t, ok) := if moves then t.applyDeliveryMode k mode entry else (t, true)
    if ok && rest then ({ t with registered := update t.registered k true }, true)
    else if moves then
      ({ t with
          mode := update t.mode k .IF_NEWER
          unconditional := t.unconditional.erase k }, false)
    else (t, false)

def eraseIf (set run : List Key) (gone : Key → Bool) : List Key :=
  set.filter fun j => !(run.contains j && gone j)

/-- `retire`: every vertex of the subtree reverts, and then the entries of those that reverted are
dropped from the runs. -/
def retire (lo : Key) : SweepSets :=
  if !t.registered lo then t
  else
    let t := { t with
      registered := fun j => if lo <:+ j then false else t.registered j
      mode := fun j => if lo <:+ j then .IF_NEWER else t.mode j
      hint := fun j => if lo <:+ j then false else t.hint j }
    { t with
      unconditional :=
        eraseIf t.unconditional (subtreeRun lo t.unconditional) (t.mode · != .UNCONDITIONAL)
      pending := eraseIf t.pending (subtreeRun lo t.pending) (!t.hint ·)
      count := t.count - ((subtreeRun lo t.pending).filter (!t.hint ·)).length }

/-- The selection of `propagate_impl`, which drains the marks it collects and stops at the first key
it cannot collect; then the hints of the vertices it drained.  Answers the vertices to deliver. -/
def sweep (lo : Key) (g : SweepGrants) : SweepSets × List Key :=
  if !g.key then (t, [])
  else
    let taken := (subtreeRun lo t.pending).takeWhile fun j => j = lo || g.push j
    let always := (subtreeRun lo t.unconditional).takeWhile fun j => j = lo || g.push j
    let keys := (taken ++ always).filter (· ≠ lo)
    let pending := t.pending.filter (!taken.contains ·)
    let drained (j : Key) := (j = lo && taken.contains lo) || (keys.contains j && t.registered j)
    ({ t with
        pending
        count := t.count - taken.length
        hint := fun j =>
          if g.targets && drained j && !pending.contains j then false else t.hint j },
      keys.filter t.registered)

end SweepSets

inductive SweepOp where
  | mark (k : Key) (observed key entry : Bool)
  | clear (k : Key) (observed key current : Bool)
  | mode (k : Key) (mode : DeliveryMode) (entry : Bool)
  | register (k : Key) (mode : DeliveryMode) (entry rest : Bool)
  | retire (lo : Key)
  | sweep (lo : Key) (g : SweepGrants)

namespace SweepSets

/-- **One operation**; a sweep answers what it delivers. -/
def step (t : SweepSets) : SweepOp → SweepSets × List Key
  | .mark k observed key entry => (t.markPending k observed key entry, [])
  | .clear k observed key current => (t.clearPending k observed key current, [])
  | .mode k mode entry => ((t.applyDeliveryMode k mode entry).1, [])
  | .register k mode entry rest => ((t.register k mode entry rest).1, [])
  | .retire lo => (t.retire lo, [])
  | .sweep lo g => t.sweep lo g

def machine : Machine SweepSets SweepOp (List Key) := ⟨{}, step⟩

/-! ## What they keep -/

/-- **The invariant of the sets**, whatever is marked and refused. -/
structure Kept (t : SweepSets) : Prop where
  pending : Ordered t.pending
  unconditional : Ordered t.unconditional
  counted : t.count = t.pending.length
  hinted : ∀ k ∈ t.pending, t.hint k = true
  newer : ∀ k ∈ t.pending, t.mode k = .IF_NEWER
  always : ∀ k, k ∈ t.unconditional ↔ t.mode k = .UNCONDITIONAL

variable {t : SweepSets} {k : Key}

theorem Kept.start : Kept {} where
  pending := .nil
  unconditional := .nil
  counted := rfl
  hinted _ h := absurd h not_mem_nil
  newer _ h := absurd h not_mem_nil
  always _ := ⟨fun h => absurd h not_mem_nil, fun h => by cases h⟩

theorem Kept.disjoint (h : Kept t) : t.pending.Disjoint t.unconditional := by
  intro k hp hu
  have hmode := (h.always k).mp hu
  rw [h.newer k hp] at hmode
  cases hmode

theorem Kept.unmark (h : Kept t) (k : Key) : Kept (t.unmark k) where
  pending := h.pending.sublist erase_sublist
  unconditional := h.unconditional
  counted := by
    simp only [SweepSets.unmark, contains_iff_mem]
    split
    next hk =>
      rw [length_erase_of_mem hk, h.counted]
    next hk =>
      rw [erase_of_not_mem hk, h.counted]
  hinted j hj := by
    obtain ⟨hne, hj⟩ := (h.pending.nodup.mem_erase_iff).mp hj
    exact (update_of_ne hne ..).trans (h.hinted j hj)
  newer j hj := h.newer j (mem_of_mem_erase hj)
  always := h.always

theorem markPending_cases (t : SweepSets) (k : Key) (observed key entry : Bool) :
    t.markPending k observed key entry = t ∨
      t.markPending k observed key entry = { t with hint := update t.hint k true } ∨
      t.mode k = .IF_NEWER ∧ k ∉ t.pending ∧ t.markPending k observed key entry =
        { t with
          hint := update t.hint k true
          pending := insertKey k t.pending
          count := t.count + 1 } := by
  unfold SweepSets.markPending
  split
  · exact .inl rfl
  next hmode =>
  split
  · exact .inl rfl
  split
  · exact .inl rfl
  split
  · exact .inr (.inl rfl)
  next hk =>
  split
  · exact .inl rfl
  · exact .inr (.inr ⟨not_not.mp hmode, mt contains_iff_mem.mpr hk, rfl⟩)

theorem clearPending_cases (t : SweepSets) (k : Key) (observed key current : Bool) :
    t.clearPending k observed key current = t ∨
      t.clearPending k observed key current = t.unmark k := by
  unfold SweepSets.clearPending
  split
  · exact .inl rfl
  split
  · exact .inl rfl
  split
  · exact .inl rfl
  split
  · exact .inl rfl
  split
  · exact .inl rfl
  · exact .inr rfl

section

variable (h : Kept t) (k : Key)
include h

theorem Kept.markPending (observed key entry : Bool) :
    Kept (t.markPending k observed key entry) := by
  have hraise : ∀ j, t.hint j = true → update t.hint k true j = true := by
    intro j hj
    by_cases heq : j = k
    · rw [heq, update_self]
    · rwa [update_of_ne heq]
  rcases markPending_cases t k observed key entry with heq | heq | ⟨hmode, hk, heq⟩ <;> rw [heq]
  · exact h
  · exact { h with hinted := fun j hj => hraise j (h.hinted j hj) }
  · refine { h with
      pending := h.pending.insertKey k
      counted := by rw [length_insertKey hk, h.counted]
      hinted := fun j hj => ?_
      newer := fun j hj => ?_ }
    · rcases mem_insertKey.mp hj with rfl | hj
      · exact update_self ..
      · exact hraise j (h.hinted j hj)
    · rcases mem_insertKey.mp hj with rfl | hj
      · exact hmode
      · exact h.newer j hj

theorem Kept.clearPending (observed key current : Bool) :
    Kept (t.clearPending k observed key current) := by
  rcases clearPending_cases t k observed key current with heq | heq <;> rw [heq]
  · exact h
  · exact h.unmark k

/-- A mode of a vertex that is not marked, or the mode that marks need. -/
theorem Kept.setMode {mode : DeliveryMode} (hmode : mode ≠ .IF_NEWER → k ∉ t.pending) :
    Kept { t with
      mode := update t.mode k mode
      unconditional := if mode = .UNCONDITIONAL then insertKey k t.unconditional
        else t.unconditional.erase k } := by
  refine { h with
    unconditional := ?_
    newer := fun j hj => ?_
    always := fun j => ?_ }
  · split
    · exact h.unconditional.insertKey k
    · exact h.unconditional.sublist erase_sublist
  · by_cases heq : j = k
    · subst heq
      exact (update_self ..).trans (by_contra fun hne => hmode hne hj)
    · exact (update_of_ne heq ..).trans (h.newer j hj)
  dsimp only
  by_cases hall : mode = .UNCONDITIONAL <;> by_cases heq : j = k
  · simp [hall, heq]
  · rw [if_pos hall, mem_insertKey, update_of_ne heq, ← h.always j]
    simp [heq]
  · subst heq
    rw [if_neg hall, update_self, h.unconditional.nodup.mem_erase_iff]
    simp [hall]
  · rw [if_neg hall, h.unconditional.nodup.mem_erase_iff, update_of_ne heq, ← h.always j]
    simp [heq]

theorem Kept.applyDeliveryMode (mode : DeliveryMode) (entry : Bool) :
    Kept (t.applyDeliveryMode k mode entry).1 := by
  unfold SweepSets.applyDeliveryMode
  split
  · exact h
  dsimp only
  split
  · exact (h.unmark k).setMode k fun _ hk => (h.pending.nodup.mem_erase_iff.mp hk).1 rfl
  next hmode => exact h.setMode k fun hne => absurd (not_not.mp hmode) hne

theorem Kept.demote :
    Kept { t with
      mode := update t.mode k .IF_NEWER
      unconditional := t.unconditional.erase k } :=
  h.setMode k fun hne => absurd rfl hne

theorem Kept.register (mode : DeliveryMode) (entry rest : Bool) :
    Kept (t.register k mode entry rest).1 := by
  have henroll : ∀ {t : SweepSets}, Kept t →
      Kept { t with registered := update t.registered k true } :=
    fun h => ⟨h.pending, h.unconditional, h.counted, h.hinted, h.newer, h.always⟩
  unfold SweepSets.register
  split
  · exact h
  by_cases hmove : mode ≠ t.mode k
  · have hmoved := h.applyDeliveryMode k mode entry
    simp only [hmove, decide_true, if_true, ne_eq, not_false_eq_true]
    split
    · exact henroll hmoved
    · exact hmoved.demote k
  · simp only [hmove, decide_false, Bool.false_eq_true, if_false]
    split
    · exact henroll h
    · exact h

end

section

variable {set : List Key} {lo : Key} {gone : Key → Bool} (h : Ordered set) (hgone : ∀ j, lo <:+ j → gone j = true)
include h hgone

theorem eraseIf_run :
    eraseIf set (subtreeRun lo set) gone = set.filter (¬ lo <:+ ·) := by
  unfold eraseIf
  refine filter_congr fun j hj => ?_
  rw [subtreeRun_eq h]
  by_cases hlo : lo <:+ j
  · simp [hlo, hj, hgone j hlo]
  · simp [hlo]

theorem length_filter_run :
    ((subtreeRun lo set).filter gone).length + (set.filter (¬ lo <:+ ·)).length = set.length := by
  have hall : (subtreeRun lo set).filter gone = set.filter (lo <:+ ·) := by
    rw [subtreeRun_eq h, filter_eq_self]
    intro j hj
    exact hgone j (by simpa using (mem_filter.mp hj).2)
  rw [hall, length_eq_length_filter_add (l := set) (lo <:+ ·)]
  simp

end

theorem Kept.retire (h : Kept t) (lo : Key) : Kept (t.retire lo) := by
  unfold SweepSets.retire
  split
  · exact h
  have hmode : ∀ j, lo <:+ j →
      ((if lo <:+ j then DeliveryMode.IF_NEWER else t.mode j) != .UNCONDITIONAL) = true := by
    intro j hj
    rw [if_pos hj]
    rfl
  have hhint : ∀ j, lo <:+ j → (!(if lo <:+ j then false else t.hint j)) = true := by
    intro j hj
    rw [if_pos hj]
    rfl
  have hstay : ∀ {set : List Key} {j : Key}, j ∈ set.filter (¬ lo <:+ ·) →
      j ∈ set ∧ ¬ lo <:+ j := by
    intro set j hj
    simpa using hj
  dsimp only
  rw [eraseIf_run h.unconditional hmode, eraseIf_run h.pending hhint]
  refine ⟨h.pending.sublist filter_sublist, h.unconditional.sublist filter_sublist, ?_,
    fun j hj => ?_, fun j hj => ?_, fun j => ?_⟩
  · have hlen := length_filter_run h.pending hhint
    show t.count - _ = (t.pending.filter (¬ lo <:+ ·)).length
    rw [h.counted, ← hlen, Nat.add_sub_cancel_left]
  · exact (if_neg (hstay hj).2).trans (h.hinted j (hstay hj).1)
  · exact (if_neg (hstay hj).2).trans (h.newer j (hstay hj).1)
  · show j ∈ t.unconditional.filter (¬ lo <:+ ·) ↔
      (if lo <:+ j then DeliveryMode.IF_NEWER else t.mode j) = .UNCONDITIONAL
    by_cases hlo : lo <:+ j
    · simp [hlo]
    · simp [hlo, h.always j]

theorem Kept.sweep (h : Kept t) (lo : Key) (g : SweepGrants) : Kept (t.sweep lo g).1 := by
  unfold SweepSets.sweep
  split
  · exact h
  dsimp only
  have hsub : ((subtreeRun lo t.pending).takeWhile fun j => j = lo || g.push j).Sublist
      t.pending := by
    rw [subtreeRun_eq h.pending]
    exact (takeWhile_sublist _).trans filter_sublist
  generalize ((subtreeRun lo t.pending).takeWhile fun j => j = lo || g.push j) = taken at hsub
  refine ⟨h.pending.sublist filter_sublist, h.unconditional, ?_, fun j hj => ?_,
    fun j hj => h.newer j (mem_of_mem_filter hj), h.always⟩
  · have hperm : (t.pending.filter (taken.contains ·)).Perm taken := by
      refine (perm_ext_iff_of_nodup (h.pending.nodup.filter _)
        (h.pending.nodup.sublist hsub)).mpr fun j => ?_
      simpa using fun hj => hsub.subset hj
    have hlen := length_eq_length_filter_add (l := t.pending) (taken.contains ·)
    rw [hperm.length_eq] at hlen
    show t.count - taken.length = (t.pending.filter (!taken.contains ·)).length
    rw [h.counted]
    omega
  · have hin : (t.pending.filter (!taken.contains ·)).contains j = true := by simpa using hj
    show (if _ then false else t.hint j) = true
    rw [hin, Bool.not_true, Bool.and_false, if_neg nofun]
    exact h.hinted j (mem_of_mem_filter hj)

theorem Kept.step (h : Kept t) (op : SweepOp) : Kept (t.step op).1 := by
  cases op with
  | mark k observed key entry => exact h.markPending k observed key entry
  | clear k observed key current => exact h.clearPending k observed key current
  | mode k mode entry => exact h.applyDeliveryMode k mode entry
  | register k mode entry rest => exact h.register k mode entry rest
  | retire lo => exact h.retire lo
  | sweep lo g => exact h.sweep lo g

/-- **After any run** the tables are in order, the count is exact, and modes match. -/
theorem kept_run (ops : List SweepOp) : Kept (machine.run ops) :=
  machine.runFrom_invariant (fun _ op h => h.step op) _ ops .start

/-! ## The sets each operation leaves, where nothing is refused -/

theorem retire_sets (hkept : Kept t) {lo : Key} (hlo : t.registered lo = true) :
    (t.retire lo).pending = t.pending.filter (¬ lo <:+ ·) ∧
      (t.retire lo).unconditional = t.unconditional.filter (¬ lo <:+ ·) ∧
      (t.retire lo).mode = (fun j => if lo <:+ j then .IF_NEWER else t.mode j) ∧
      (t.retire lo).registered = fun j => if lo <:+ j then false else t.registered j := by
  unfold SweepSets.retire
  rw [hlo, Bool.not_true, if_neg nofun]
  refine ⟨eraseIf_run hkept.pending fun j hj => ?_, eraseIf_run hkept.unconditional fun j hj => ?_,
    rfl, rfl⟩
  · simp [hj]
  · simp [hj]

theorem markPending_all (t : SweepSets) (k : Key) (observed : Bool) :
    (t.markPending k observed true true).pending =
        (if t.mode k = .IF_NEWER && observed then insertKey k t.pending else t.pending) ∧
      (t.markPending k observed true true).unconditional = t.unconditional ∧
      (t.markPending k observed true true).mode = t.mode ∧
      (t.markPending k observed true true).registered = t.registered := by
  have hsame : k ∈ t.pending → insertKey k t.pending = t.pending := fun hk => if_pos hk
  unfold SweepSets.markPending
  by_cases hmode : t.mode k = .IF_NEWER <;> cases observed <;> by_cases hk : k ∈ t.pending <;>
    simp [hmode, hk, hsame]

theorem clearPending_all (h : Kept t) (k : Key) (observed current : Bool) :
    (t.clearPending k observed true current).pending =
        (if observed && current then t.pending.erase k else t.pending) ∧
      (t.clearPending k observed true current).unconditional = t.unconditional ∧
      (t.clearPending k observed true current).mode = t.mode ∧
      (t.clearPending k observed true current).registered = t.registered := by
  have hgone : k ∉ t.pending → t.pending.erase k = t.pending := erase_of_not_mem
  have hhint : t.hint k = false → k ∉ t.pending := by
    intro hdown hk
    rw [h.hinted k hk] at hdown
    cases hdown
  have hzero : t.count = 0 → k ∉ t.pending := by
    intro hcount
    rw [eq_nil_of_length_eq_zero (h.counted.symm.trans hcount)]
    exact not_mem_nil
  unfold SweepSets.clearPending
  cases observed with
  | false => simp
  | true =>
    cases hup : t.hint k with
    | false => simp [hgone (hhint hup)]
    | true =>
      by_cases hcount : t.count = 0
      · simp [hcount, hgone (hzero hcount)]
      · cases current <;> simp [hcount, unmark]

theorem applyDeliveryMode_all (t : SweepSets) (k : Key) (mode : DeliveryMode) :
    (t.applyDeliveryMode k mode true).2 = true ∧
      (t.applyDeliveryMode k mode true).1.pending =
        (if mode ≠ .IF_NEWER then t.pending.erase k else t.pending) ∧
      (t.applyDeliveryMode k mode true).1.unconditional =
        (if mode = .UNCONDITIONAL then insertKey k t.unconditional else t.unconditional.erase k) ∧
      (t.applyDeliveryMode k mode true).1.mode = update t.mode k mode ∧
      (t.applyDeliveryMode k mode true).1.registered = t.registered := by
  unfold SweepSets.applyDeliveryMode
  cases mode <;> simp [unmark]

theorem register_all (hk : t.registered k = false) (mode : DeliveryMode) :
    (t.register k mode true true).1.pending =
        (if mode ≠ t.mode k ∧ mode ≠ .IF_NEWER then t.pending.erase k else t.pending) ∧
      (t.register k mode true true).1.unconditional =
        (if mode = t.mode k then t.unconditional
        else if mode = .UNCONDITIONAL then insertKey k t.unconditional
        else t.unconditional.erase k) ∧
      (t.register k mode true true).1.mode = update t.mode k mode ∧
      (t.register k mode true true).1.registered = update t.registered k true := by
  obtain ⟨hok, hp, hu, hmode, hreg⟩ := applyDeliveryMode_all t k mode
  unfold SweepSets.register
  by_cases hsame : mode = t.mode k
  · simp [hk, hsame]
  · simp [hk, hsame, hok, hp, hu, hmode, hreg]

/-- **A sweep that is granted everything** drains the whole subtree and answers its registered
members but the root: those marked, then those always swept. -/
theorem sweep_all (h : Kept t) (lo : Key) :
    (t.sweep lo {}).1.pending = t.pending.filter (¬ lo <:+ ·) ∧
      (t.sweep lo {}).1.unconditional = t.unconditional ∧ (t.sweep lo {}).1.mode = t.mode ∧
      (t.sweep lo {}).1.registered = t.registered ∧
      (t.sweep lo {}).2 =
        ((t.pending ++ t.unconditional).filter (Under lo ·)).filter t.registered := by
  have htake : ∀ set : List Key, (set.takeWhile fun j => j = lo || true) = set := by
    intro set
    exact takeWhile_eq_self_iff.mpr fun j _ => Bool.or_true _
  have hrun := subtreeRun_eq h.pending lo
  have hurun := subtreeRun_eq h.unconditional lo
  unfold SweepSets.sweep
  simp only [htake, hrun, hurun, Bool.not_true, Bool.false_eq_true, if_false, true_and]
  refine ⟨filter_congr fun j hj => ?_, congrArg _ ?_⟩
  · simp [hj]
  · rw [← filter_append, filter_filter]
    refine filter_congr fun j _ => ?_
    simp [Under, eq_comm, and_comm]

/-! ## Registered vertices

A handle outlives the retirement of its vertex, and an operation through it is not looked up.  So a
vertex that is not registered can be marked and given a mode; the sets hold registered vertices only
as long as that does not happen. -/

/-- Only registered vertices are marked, and only these have a mode of their own. -/
structure Enrolled (t : SweepSets) : Prop where
  marked : ∀ k ∈ t.pending, t.registered k = true
  plain : ∀ k, t.registered k = false → t.mode k = .IF_NEWER

theorem Enrolled.start : Enrolled {} :=
  ⟨forall_mem_nil _, fun _ _ => rfl⟩

theorem Enrolled.always (h : Enrolled t) (hkept : Kept t) (hk : k ∈ t.unconditional) :
    t.registered k = true := by
  by_contra hreg
  have hmode := (hkept.always k).mp hk
  rw [h.plain k (Bool.eq_false_of_not_eq_true hreg)] at hmode
  cases hmode

variable {t' : SweepSets}

theorem Enrolled.of_subset (h : Enrolled t) (hreg : t'.registered = t.registered)
    (hmode : t'.mode = t.mode) (hp : t'.pending ⊆ t.pending) : Enrolled t' :=
  ⟨fun k hk => hreg ▸ h.marked k (hp hk), fun k hk => hmode ▸ h.plain k (hreg ▸ hk)⟩

/-- A vertex that is registered afterwards may be marked and given any mode. -/
theorem Enrolled.change (h : Enrolled t) (hk : t'.registered k = true)
    (hreg : ∀ j, j ≠ k → t'.registered j = t.registered j) (hmode : ∀ j, j ≠ k → t'.mode j = t.mode j)
    (hp : ∀ j ∈ t'.pending, j = k ∨ j ∈ t.pending) : Enrolled t' := by
  refine ⟨fun j hj => ?_, fun j hj => ?_⟩
  · by_cases heq : j = k
    · rwa [heq]
    · exact (hreg j heq).trans (h.marked j ((hp j hj).resolve_left heq))
  · have hne : j ≠ k := fun heq => by rw [heq, hk] at hj; cases hj
    exact (hmode j hne).trans (h.plain j ((hreg j hne).symm.trans hj))

section

variable (h : Enrolled t)
include h

theorem Enrolled.markPending (hk : t.registered k = true) (observed : Bool) :
    Enrolled (t.markPending k observed true true) := by
  obtain ⟨hp, -, hm, hr⟩ := markPending_all t k observed
  refine h.change ((congrFun hr k).trans hk) (fun j _ => congrFun hr j) (fun j _ => congrFun hm j)
    fun j hj => ?_
  rw [hp] at hj
  split at hj
  · exact mem_insertKey.mp hj
  · exact .inr hj

theorem Enrolled.clearPending (hkept : Kept t) (k : Key) (observed current : Bool) :
    Enrolled (t.clearPending k observed true current) := by
  obtain ⟨hp, -, hm, hr⟩ := clearPending_all hkept k observed current
  refine h.of_subset hr hm ?_
  rw [hp]
  split
  · exact erase_subset
  · exact List.Subset.refl _

theorem Enrolled.applyDeliveryMode (hk : t.registered k = true) (mode : DeliveryMode) :
    Enrolled (t.applyDeliveryMode k mode true).1 := by
  obtain ⟨-, hp, -, hm, hr⟩ := applyDeliveryMode_all t k mode
  refine h.change ((congrFun hr k).trans hk) (fun j _ => congrFun hr j)
    (fun j hne => (congrFun hm j).trans (update_of_ne hne ..)) fun j hj => .inr ?_
  rw [hp] at hj
  split at hj
  · exact mem_of_mem_erase hj
  · exact hj

theorem Enrolled.register (hk : t.registered k = false) (mode : DeliveryMode) :
    Enrolled (t.register k mode true true).1 := by
  obtain ⟨hp, -, hm, hr⟩ := register_all hk mode
  refine h.change ((congrFun hr k).trans (update_self ..))
    (fun j hne => (congrFun hr j).trans (update_of_ne hne ..))
    (fun j hne => (congrFun hm j).trans (update_of_ne hne ..)) fun j hj => .inr ?_
  rw [hp] at hj
  split at hj
  · exact mem_of_mem_erase hj
  · exact hj

theorem Enrolled.retire (hkept : Kept t) {lo : Key} (hlo : t.registered lo = true) :
    Enrolled (t.retire lo) := by
  obtain ⟨hp, -, hmode, hreg⟩ := retire_sets hkept hlo
  refine ⟨fun j hj => ?_, fun j hj => ?_⟩
  · obtain ⟨hj, hout⟩ : j ∈ t.pending ∧ ¬ lo <:+ j := by simpa [hp] using hj
    rw [hreg]
    exact (if_neg hout).trans (h.marked j hj)
  · rw [hmode]
    by_cases hin : lo <:+ j
    · exact if_pos hin
    · rw [hreg] at hj
      exact (if_neg hin).trans (h.plain j ((if_neg hin).symm.trans hj))

theorem Enrolled.sweep (hkept : Kept t) (lo : Key) : Enrolled (t.sweep lo {}).1 := by
  obtain ⟨hp, -, hm, hr, -⟩ := sweep_all hkept lo
  exact h.of_subset hr hm (hp ▸ filter_sublist.subset)

end

end SweepSets

end LibTracer.Graph
