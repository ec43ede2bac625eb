import LibTracer.Lib.Machine
import LibTracer.Lib.Segments
import LibTracer.Net.Registry

/-!
# Mount resolution

`child_registry_t::longest_prefix`: of the live children whose name, split at `/`, is a prefix of a
destination, the one with the most segments.  The scan compares digests only; the one child it picks
is confirmed byte by byte, and only if that fails the scan is repeated with the confirmation inside.
The digest is a parameter, and may collide at will.

* **`longestPrefix_eq_some_iff`**, **`longestPrefix_eq_none_iff`** — what the lookup answers.
-/

namespace LibTracer.Net

open Segments List

/-! ## Digests -/

structure Digest (δ : Type) where
  seed : δ
  foldSegment : δ → Name → δ

namespace Digest

variable {δ : Type} (d : Digest δ)

/-- `digest_segments`. -/
def segments (segs : List Name) : δ := segs.foldl d.foldSegment d.seed

/-- `digest_name`. -/
def name (name : Name) : δ := d.segments (name.splitOn '/')

theorem segments_take_succ {segs : List Name} {k : Nat} {s : Name} (h : segs[k]? = some s) :
    d.segments (segs.take (k + 1)) = d.foldSegment (d.segments (segs.take k)) s := by
  rw [segments, take_add_one, h, Option.toList_some, foldl_append]
  rfl

end Digest

/-- `fold_segment` and `kDigestSeed`: the length and the first and the last byte. -/
def nameDigest : Digest UInt64 where
  seed := 0
  foldSegment h seg :=
    let first := seg.head?.elim 0 fun c => UInt64.ofNat c.toNat
    let last := seg.getLast?.elim 0 fun c => UInt64.ofNat c.toNat
    (h + (UInt64.ofNat seg.length ||| (first <<< 8) ||| (last <<< 16))) * 0x9E3779B97F4A7C15

section Walk

variable {δ : Type} (d : Digest δ) (segs : List Name)

/-! ## The walk along the destination -/

/-- `prefix_walk_t`: the segments passed, their digest, and where a run was found to end. -/
structure PrefixWalk (δ : Type) where
  k : Nat
  h : δ
  limit : Option Nat

namespace PrefixWalk

/-- The loop of `reach`.  An empty segment stands for one that is not routable. -/
def advance (d : Digest δ) (segs : List Name) : Nat → PrefixWalk δ → Bool × PrefixWalk δ
  | 0, p => (true, p)
  | n + 1, p =>
    match segs[p.k]? with
    | none => (false, { p with limit := some p.k })
    | some s =>
      if s.isEmpty then (false, { p with limit := some p.k })
      else advance d segs n { p with k := p.k + 1, h := d.foldSegment p.h s }

/-- `reach`: a narrower run after a wider one starts over. -/
def reach (p : PrefixWalk δ) (want : Nat) : Bool × PrefixWalk δ :=
  if p.limit.any (· < want) then (false, p)
  else
    let p := if want < p.k then { p with k := 0, h := d.seed } else p
    advance d segs (want - p.k) p

end PrefixWalk

/-! ### The walk keeps the digest -/

def usable : List Name → Nat
  | [] => 0
  | s :: segs => if s.isEmpty then 0 else usable segs + 1

theorem getElem?_of_lt_usable {segs : List Name} {i : Nat} (h : i < usable segs) :
    ∃ s, segs[i]? = some s ∧ s.isEmpty = false := by
  induction segs generalizing i with
  | nil => exact absurd h (Nat.not_lt_zero i)
  | cons s segs ih =>
    rw [usable] at h
    split at h
    · exact absurd h (Nat.not_lt_zero i)
    next hs =>
      cases i with
      | zero => exact ⟨s, rfl, by simpa using hs⟩
      | succ i => exact ih (Nat.lt_of_succ_lt_succ h)

theorem isEmpty_of_usable {segs : List Name} {s : Name} (h : segs[usable segs]? = some s) :
    s.isEmpty = true := by
  induction segs with
  | nil => cases h
  | cons t segs ih =>
    rw [usable] at h
    split at h
    next ht =>
      cases h
      exact ht
    · exact ih h

theorem length_le_usable {segs ls : List Name} (hpre : ls <+: segs)
    (hls : ∀ s ∈ ls, s.isEmpty = false) : ls.length ≤ usable segs := by
  by_contra hlt
  have hlt := Nat.lt_of_not_le hlt
  obtain ⟨s, hs⟩ : ∃ s, ls[usable segs]? = some s := ⟨_, List.getElem?_eq_getElem hlt⟩
  have hsegs : segs[usable segs]? = some s := by
    obtain ⟨rest, rfl⟩ := hpre
    rw [List.getElem?_append_left hlt, hs]
  have := hls s (mem_of_getElem? hs)
  rw [isEmpty_of_usable hsegs] at this
  cases this

namespace PrefixWalk

/-- The walk stands within the routable run, with the digest of what it has passed. -/
structure Valid (p : PrefixWalk δ) : Prop where
  within : p.k ≤ usable segs
  digest : p.h = d.segments (segs.take p.k)
  limit : ∀ l, p.limit = some l → l = usable segs

variable {d segs} {p : PrefixWalk δ}

theorem advance_spec (h : p.Valid d segs) (n : Nat) : (advance d segs n p).2.Valid d segs ∧
      ((advance d segs n p).1 = true ↔ p.k + n ≤ usable segs) ∧
      ((advance d segs n p).1 = true → (advance d segs n p).2.k = p.k + n) := by
  induction n generalizing p with
  | zero => exact ⟨h, by simp [advance, h.within], fun _ => rfl⟩
  | succ n ih =>
    rcases Nat.lt_or_eq_of_le h.within with hlt | heq
    · obtain ⟨s, hs, hne⟩ := getElem?_of_lt_usable hlt
      have hnext : Valid d segs { p with k := p.k + 1, h := d.foldSegment p.h s } :=
        ⟨hlt, by rw [d.segments_take_succ hs, h.digest], h.limit⟩
      have hstep : advance d segs (n + 1) p =
          advance d segs n { p with k := p.k + 1, h := d.foldSegment p.h s } := by
        simp [advance, hs, hne]
      obtain ⟨hvalid, hiff, hk⟩ := ih hnext
      rw [hstep]
      refine ⟨hvalid, hiff.trans ?_, fun hr => (hk hr).trans ?_⟩ <;> dsimp only <;> omega
    · -- the run ends here
      have hstep : advance d segs (n + 1) p = (false, { p with limit := some p.k }) := by
        cases hs : segs[p.k]? with
        | none => simp [advance, hs]
        | some s => simp [advance, hs, isEmpty_of_usable (heq ▸ hs)]
      rw [hstep]
      refine ⟨⟨h.within, h.digest, fun l hl => ?_⟩, ?_, fun hr => absurd hr (by simp)⟩
      · exact (Option.some.inj hl).symm.trans heq
      · simp only [Bool.false_eq_true, false_iff]
        omega

/-- **The walk reaches exactly the routable runs**, and then has their digest. -/
theorem reach_spec (h : p.Valid d segs) (want : Nat) : (p.reach d segs want).2.Valid d segs ∧
      ((p.reach d segs want).1 = true ↔ want ≤ usable segs) ∧ ((p.reach d segs want).1 = true →
        (p.reach d segs want).2.h = d.segments (segs.take want)) := by
  unfold reach
  split
  next hlim =>
    obtain ⟨l, hl, hlt⟩ := (Option.any_eq_true _ _).mp hlim
    have hlt : l < want := by simpa using hlt
    rw [h.limit l hl] at hlt
    exact ⟨h, by simpa using hlt, fun hr => absurd hr (by simp)⟩
  · -- wherever the walk stands now, it is not past the run
    have hfrom : ∀ q : PrefixWalk δ, q.Valid d segs → q.k ≤ want →
        (advance d segs (want - q.k) q).2.Valid d segs ∧
          ((advance d segs (want - q.k) q).1 = true ↔ want ≤ usable segs) ∧
          ((advance d segs (want - q.k) q).1 = true →
            (advance d segs (want - q.k) q).2.h = d.segments (segs.take want)) := by
      intro q hq hle
      obtain ⟨hvalid, hiff, hk⟩ := advance_spec hq (want - q.k)
      rw [Nat.add_sub_cancel' hle] at hiff hk
      exact ⟨hvalid, hiff, fun hr => by rw [hvalid.digest, hk hr]⟩
    dsimp only
    split
    · exact hfrom _ ⟨Nat.zero_le _, rfl, h.limit⟩ (Nat.zero_le _)
    next hle => exact hfrom p h (Nat.le_of_not_lt hle)

end PrefixWalk

end Walk

/-! ## The confirmation -/

section Confirmation

variable (segs : List Name)

/-- The loop of `matches_prefix`, over the `i`-th segment on with the name read up to `pos`. -/
def matchesFrom (key : Name) : Nat → Nat → Nat → Bool
  | 0, _, pos => pos == key.length
  | n + 1, i, pos =>
    if i ≠ 0 ∧ key[pos]? ≠ some '/' then false
    else
      let pos := if i = 0 then pos else pos + 1
      match segs[i]? with
      | none => false
      | some s =>
        if key.length < pos + s.length then false
        else if (key.drop pos).take s.length ≠ s then false
        else matchesFrom key n (i + 1) (pos + s.length)

def matchesPrefix (key : Name) (k : Nat) : Bool := matchesFrom segs key k 0 0

/-- What is left of a name when some segments are to come: the first of all comes without a
separator. -/
def joined (i : Nat) (ls : List Name) : Name :=
  if i = 0 then ['/'].intercalate ls else ls.flatMap ('/' :: ·)

theorem joined_cons (i : Nat) (s : Name) (ls : List Name) :
    joined i (s :: ls) = (if i = 0 then s else '/' :: s) ++ joined (i + 1) ls := by
  unfold joined
  split
  · rw [intercalate_cons, if_neg (Nat.succ_ne_zero i)]
  · rw [flatMap_cons, if_neg (Nat.succ_ne_zero i)]

variable {segs}

theorem drop_eq_append_iff {key s rest : Name} {pos : Nat} (hpos : pos ≤ key.length) :
    key.drop pos = s ++ rest ↔ pos + s.length ≤ key.length ∧ (key.drop pos).take s.length = s ∧
        key.drop (pos + s.length) = rest := by
  rw [← drop_drop]
  constructor
  · intro h
    have hlen := congrArg List.length h
    rw [length_drop, length_append] at hlen
    rw [h]
    exact ⟨by omega, take_left, drop_left⟩
  · rintro ⟨-, htake, hdrop⟩
    rw [← take_append_drop s.length (key.drop pos), htake, hdrop]

theorem matchesFrom_iff {key : Name} (n : Nat) {i pos : Nat} (hpos : pos ≤ key.length) :
    matchesFrom segs key n i pos = true ↔
      n ≤ (segs.drop i).length ∧ key.drop pos = joined i ((segs.drop i).take n) := by
  induction n generalizing i pos with
  | zero =>
    have hnil : joined i ((segs.drop i).take 0) = [] := by
      rw [take_zero]
      unfold joined
      split <;> rfl
    rw [hnil, drop_eq_nil_iff]
    simp only [matchesFrom, beq_iff_eq, zero_le, true_and]
    omega
  | succ n ih =>
    cases hseg : segs[i]? with
    | none =>
      have hnil : segs.drop i = [] := drop_eq_nil_of_le (List.getElem?_eq_none_iff.mp hseg)
      simp [matchesFrom, hseg, hnil]
    | some s =>
      have hdrop : segs.drop i = s :: segs.drop (i + 1) := by
        obtain ⟨hlt, rfl⟩ := List.getElem?_eq_some_iff.mp hseg
        exact drop_eq_getElem_cons hlt
      rw [hdrop, take_succ_cons, joined_cons, length_cons, Nat.succ_le_succ_iff]
      -- the segment itself, wherever its text starts
      have hstep : ∀ {q : Nat}, q ≤ key.length →
          ((if key.length < q + s.length then false
            else if (key.drop q).take s.length ≠ s then false
            else matchesFrom segs key n (i + 1) (q + s.length)) = true ↔
          n ≤ (segs.drop (i + 1)).length ∧
            key.drop q = s ++ joined (i + 1) ((segs.drop (i + 1)).take n)) := by
        intro q hq
        rw [drop_eq_append_iff hq]
        by_cases hlen : q + s.length ≤ key.length
        · by_cases htake : (key.drop q).take s.length = s
          · rw [if_neg (Nat.not_lt.mpr hlen), if_neg (not_not.mpr htake), ih hlen]
            exact ⟨fun h => ⟨h.1, hlen, htake, h.2⟩, fun h => ⟨h.1, h.2.2.2⟩⟩
          · simp [htake]
        · simp [Nat.lt_of_not_le hlen, hlen]
      by_cases hi : i = 0
      · subst hi
        rw [if_pos rfl, ← hstep hpos]
        simp only [matchesFrom, hseg]
        rfl
      rw [if_neg hi, cons_append]
      by_cases hsep : key[pos]? = some '/'
      · obtain ⟨hlt, hget⟩ := List.getElem?_eq_some_iff.mp hsep
        rw [drop_eq_getElem_cons hlt, hget, List.cons.injEq, and_iff_right rfl, ← hstep hlt]
        simp only [matchesFrom, hseg, hsep, hi, ne_eq, not_true_eq_false, and_false, if_false]
      have hno : key.drop pos ≠ '/' :: (s ++ joined (i + 1) ((segs.drop (i + 1)).take n)) := by
        intro h
        have := congrArg List.head? h
        rw [List.head?_drop] at this
        exact hsep this
      simp [matchesFrom, hi, hsep, hno]

theorem matchesPrefix_iff_joined {key : Name} {k : Nat} : matchesPrefix segs key k = true ↔
      k ≤ segs.length ∧ key = ['/'].intercalate (segs.take k) :=
  matchesFrom_iff k (Nat.zero_le _)

/-- **The confirmation decides segment prefixes**, whatever characters the destination holds. -/
theorem matchesPrefix_iff {key : Name} (hkey : key ≠ []) :
    matchesPrefix segs key (segmentCount key) = true ↔ key.splitOn '/' <+: segs := by
  have hcount : segmentCount key = (key.splitOn '/').length := by
    rw [length_splitOn, segmentCount, if_neg (by simpa using hkey), add_comm]
  rw [matchesPrefix_iff_joined]
  constructor
  · rintro ⟨hle, hjoin⟩
    have hlen : (segs.take (segmentCount key)).length = segmentCount key := by
      rw [length_take, Nat.min_eq_left hle]
    have hne : segs.take (segmentCount key) ≠ [] := by
      rintro hnil
      rw [hnil, hcount, length_splitOn] at hlen
      cases hlen
    rw [splitOn_eq_of_intercalate hne hjoin.symm (by rw [hlen, hcount, length_splitOn])]
    exact take_prefix _ _
  · intro hpre
    refine ⟨hcount ▸ hpre.length_le, ?_⟩
    rw [hcount, ← prefix_iff_eq_take.mp hpre, intercalate_splitOn]

end Confirmation

/-! ## The lookup -/

/-- `seg_count`, as it is stored. -/
def Child.segCount (c : Child) : Nat := segmentCount c.name % 2 ^ 32

section Lookup

variable {δ : Type} [DecidableEq δ] (d : Digest δ) (segs : List Name)

/-- The state of the scan: the walk, the best slot so far with its width, and the width and digest
that the slots are compared at. -/
structure Scan (δ : Type) where
  walk : PrefixWalk δ
  best : Option Child := none
  bestK : Nat := 0
  atK : Nat := 0
  atDigest : δ

def Scan.compare (s : Scan δ) (c : Child) : Scan δ :=
  if d.name c.name ≠ s.atDigest then s else { s with best := some c, bestK := c.segCount }

def Scan.visit (s : Scan δ) (c : Child) : Scan δ :=
  if c.segCount ≠ s.atK then
    if c.segCount = 0 ∨ c.segCount ≤ s.bestK then s
    else
      let (reached, walk) := s.walk.reach d segs c.segCount
      if !reached then { s with walk }
      else Scan.compare d { s with walk, atK := c.segCount, atDigest := walk.h } c
  else s.compare d c

def Scan.visitConfirmed (s : Scan δ) (c : Child) : Scan δ :=
  if c.segCount = 0 ∨ c.segCount ≤ s.bestK then s
  else
    let (reached, walk) := s.walk.reach d segs c.segCount
    if !reached then { s with walk }
    else if d.name c.name ≠ walk.h then { s with walk }
    else if !c.live || !matchesPrefix segs c.name c.segCount then { s with walk }
    else { s with walk, best := some c, bestK := c.segCount }

def Scan.start : Scan δ := { walk := ⟨0, d.seed, none⟩, atDigest := d.seed }

namespace Registry

def longestPrefixConfirmed (r : Registry) : Option Child :=
  (r.slots.foldl (Scan.visitConfirmed d segs) (Scan.start d)).best

def longestPrefix (r : Registry) : Option Child :=
  let s := r.slots.foldl (Scan.visit d segs) (Scan.start d)
  match s.best with
  | none => none
  | some best =>
    if best.live && matchesPrefix segs best.name s.bestK then some best
    else r.longestPrefixConfirmed d segs

end Registry

/-! ## What the scan finds -/

variable {d segs}

/-- A slot the digest does not tell from a prefix of the destination. -/
structure Candidate (d : Digest δ) (segs : List Name) (c : Child) : Prop where
  pos : 0 < c.segCount
  within : c.segCount ≤ usable segs
  digest : d.name c.name = d.segments (segs.take c.segCount)

namespace Scan

variable {s : Scan δ} {seen : List Child} {c : Child}

section Sane

variable {Q : Child → Prop}

/-- What both scans keep: the walk is valid, the best slot is one that was seen, and among the slots
that were to be found none is wider. -/
structure Sane (d : Digest δ) (segs : List Name) (Q : Child → Prop) (seen : List Child)
    (s : Scan δ) : Prop where
  walk : s.walk.Valid d segs
  best : ∀ c, s.best = some c → c ∈ seen ∧ s.bestK = c.segCount
  none : s.best = none → s.bestK = 0
  found : ∀ c ∈ seen, Q c → s.best.isSome = true ∧ c.segCount ≤ s.bestK

omit [DecidableEq δ]

theorem Sane.pass (h : Sane d segs Q seen s)
    (hc : Q c → s.best.isSome = true ∧ c.segCount ≤ s.bestK) : Sane d segs Q (seen ++ [c]) s where
  walk := h.walk
  best e he := ⟨mem_append_left _ (h.best e he).1, (h.best e he).2⟩
  none := h.none
  found := forall_mem_append.mpr ⟨h.found, forall_mem_singleton.mpr hc⟩

theorem Sane.skip (h : Sane d segs Q seen s) (hpos : Q c → 0 < c.segCount)
    (hskip : c.segCount = 0 ∨ c.segCount ≤ s.bestK) : Sane d segs Q (seen ++ [c]) s := by
  refine h.pass fun hc => ?_
  have hle := hskip.resolve_left (Nat.pos_iff_ne_zero.mp (hpos hc))
  refine ⟨?_, hle⟩
  cases hbest : s.best with
  | some _ => rfl
  | none => exact absurd (h.none hbest ▸ hle) (Nat.not_le_of_lt (hpos hc))

theorem Sane.take (h : Sane d segs Q seen s) (hle : s.bestK ≤ c.segCount) :
    Sane d segs Q (seen ++ [c]) { s with best := some c, bestK := c.segCount } where
  walk := h.walk
  best e he := by
    cases he
    exact ⟨mem_append_right _ (mem_singleton.mpr rfl), rfl⟩
  none hn := absurd hn (by simp)
  found e he hq := by
    refine ⟨rfl, ?_⟩
    rcases mem_append.mp he with he | he
    · exact (h.found e he hq).2.trans hle
    · rw [mem_singleton.mp he]

theorem sane_start : Sane d segs Q [] (start d) where
  walk := ⟨Nat.zero_le _, rfl, fun l hl => absurd hl (by simp [start])⟩
  best c hc := absurd hc (by simp [start])
  none _ := rfl
  found c hc := nomatch hc

end Sane

/-- The scan compares at a width that the walk has reached. -/
structure Covers (d : Digest δ) (segs : List Name) (seen : List Child) (s : Scan δ) : Prop
    extends Sane d segs (Candidate d segs) seen s where
  atK : s.atK ≤ usable segs
  atDigest : s.atDigest = d.segments (segs.take s.atK)
  le : s.bestK ≤ s.atK

theorem compare_covers (h : Covers d segs seen s) (hk : c.segCount = s.atK) :
    Covers d segs (seen ++ [c]) (s.compare d c) := by
  unfold compare
  split
  next hdigest =>
    refine { h with toSane := h.toSane.pass fun hc => absurd hc.digest ?_ }
    rwa [hk, ← h.atDigest]
  · exact ⟨h.toSane.take (hk ▸ h.le), h.atK, h.atDigest, hk.le⟩

theorem visit_covers (seen : List Child) (s : Scan δ) (c : Child) (h : Covers d segs seen s) :
    Covers d segs (seen ++ [c]) (s.visit d segs c) := by
  unfold visit
  split
  · split
    next hskip => exact { h with toSane := h.toSane.skip Candidate.pos hskip }
    next hwide =>
    obtain ⟨hvalid, hiff, hdigest⟩ := PrefixWalk.reach_spec h.walk c.segCount
    have hmoved : Covers d segs seen { s with walk := (s.walk.reach d segs c.segCount).2 } :=
      { h with walk := hvalid }
    dsimp only
    split
    next hout =>
      refine { hmoved with toSane := hmoved.toSane.pass fun hc => ?_ }
      simp [hiff.mpr hc.within] at hout
    next hin =>
    have hin : (s.walk.reach d segs c.segCount).1 = true := by simpa using hin
    refine compare_covers ⟨{ hmoved.toSane with }, hiff.mp hin, hdigest hin, ?_⟩ rfl
    dsimp only
    omega
  next hk => exact compare_covers h (not_not.mp hk)

structure Confirmed (d : Digest δ) (segs : List Name) (c : Child) : Prop
    extends Candidate d segs c where
  live : c.live = true
  matched : matchesPrefix segs c.name c.segCount = true

structure Confirms (d : Digest δ) (segs : List Name) (seen : List Child) (s : Scan δ) : Prop
    extends Sane d segs (Confirmed d segs) seen s where
  sure : ∀ c, s.best = some c → c.live = true ∧ matchesPrefix segs c.name c.segCount = true

theorem visitConfirmed_confirms (seen : List Child) (s : Scan δ) (c : Child)
    (h : Confirms d segs seen s) : Confirms d segs (seen ++ [c]) (s.visitConfirmed d segs c) := by
  unfold visitConfirmed
  split
  next hskip => exact { h with toSane := h.toSane.skip (·.pos) hskip }
  next hwide =>
  obtain ⟨hvalid, hiff, hdigest⟩ := PrefixWalk.reach_spec h.walk c.segCount
  have hmoved : Confirms d segs seen { s with walk := (s.walk.reach d segs c.segCount).2 } :=
    { h with walk := hvalid }
  dsimp only
  split
  next hout =>
    refine { hmoved with toSane := hmoved.toSane.pass fun hc => ?_ }
    simp [hiff.mpr hc.within] at hout
  next hin =>
  have hin : (s.walk.reach d segs c.segCount).1 = true := by simpa using hin
  split
  next hne =>
    refine { hmoved with toSane := hmoved.toSane.pass fun hc => absurd hc.digest ?_ }
    rwa [← hdigest hin]
  split
  next hno =>
    refine { hmoved with toSane := hmoved.toSane.pass fun hc => ?_ }
    simp [hc.live, hc.matched] at hno
  next hyes =>
  refine ⟨hmoved.toSane.take (by dsimp only; omega), ?_⟩
  rintro e he
  cases he
  simpa using hyes

end Scan

/-! ## What the lookup answers -/

/-- A slot as `add` makes it: every segment fits a record, and there are fewer of them than the
width field can count. -/
structure Child.Mounted (c : Child) : Prop where
  run : hasMountRun c.name = true
  width : segmentCount c.name < 2 ^ 32

namespace Child.Mounted

variable {c : Child}

section

variable (h : c.Mounted)
include h

theorem name_ne : c.name ≠ [] := by
  intro hnil
  have := h.run
  rw [hnil] at this
  cases this

theorem segment_ne : ∀ s ∈ c.name.splitOn '/', s.isEmpty = false := by
  intro s hs
  have := all_eq_true.mp h.run s hs
  simp only [Bool.and_eq_true, decide_eq_true_eq] at this
  cases s with
  | nil => exact absurd this.1 (by simp)
  | cons _ _ => rfl

theorem segCount_eq : c.segCount = segmentCount c.name := Nat.mod_eq_of_lt h.width

theorem segmentCount_eq : segmentCount c.name = (c.name.splitOn '/').length := by
  rw [length_splitOn, segmentCount, if_neg (by simpa using h.name_ne), add_comm]

theorem matches_iff : matchesPrefix segs c.name c.segCount = true ↔ c.name.splitOn '/' <+: segs := by
  rw [h.segCount_eq]
  exact matchesPrefix_iff h.name_ne

end

omit [DecidableEq δ] in
theorem candidate (h : c.Mounted) (d : Digest δ) (hpre : c.name.splitOn '/' <+: segs) :
    Candidate d segs c where
  pos := by
    rw [h.segCount_eq, h.segmentCount_eq, length_splitOn]
    exact Nat.succ_pos _
  within := by
    rw [h.segCount_eq, h.segmentCount_eq]
    exact length_le_usable hpre h.segment_ne
  digest := by
    rw [h.segCount_eq, h.segmentCount_eq, ← prefix_iff_eq_take.mp hpre]
    rfl

end Child.Mounted

end Lookup

namespace Registry

def Leads (r : Registry) (segs : List Name) (c : Child) : Prop :=
  c ∈ r.slots ∧ c.live = true ∧ c.name.splitOn '/' <+: segs

/-- **The child of the longest mount that leads to the destination.** -/
def IsLongest (r : Registry) (segs : List Name) (c : Child) : Prop :=
  r.Leads segs c ∧
    ∀ e, r.Leads segs e → (e.name.splitOn '/').length ≤ (c.name.splitOn '/').length

variable {δ : Type} [DecidableEq δ] {d : Digest δ} {segs : List Name} {r : Registry}

theorem IsLongest.unique {c e : Child} (hc : r.IsLongest segs c) (he : r.IsLongest segs e) : c = e := by
  have hlen : (c.name.splitOn '/').length = (e.name.splitOn '/').length :=
    Nat.le_antisymm (he.2 c hc.1) (hc.2 e he.1)
  have hsplit : c.name.splitOn '/' = e.name.splitOn '/' := by
    rw [prefix_iff_eq_take.mp hc.1.2.2, prefix_iff_eq_take.mp he.1.2.2, hlen]
  have hname : c.name = e.name := by
    have hjoin := congrArg ['/'].intercalate hsplit
    rwa [intercalate_splitOn, intercalate_splitOn] at hjoin
  obtain ⟨i, hi⟩ := List.getElem?_of_mem hc.1.1
  obtain ⟨j, hj⟩ := List.getElem?_of_mem he.1.1
  rw [r.name_unique hi hj hname, hj] at hi
  exact (Option.some.inj hi).symm

theorem covers_scan (d : Digest δ) (segs : List Name) (r : Registry) :
    Scan.Covers d segs r.slots (r.slots.foldl (Scan.visit d segs) (Scan.start d)) :=
  Lookup.foldl_seen Scan.visit_covers
    ⟨Scan.sane_start, Nat.zero_le _, rfl, le_rfl⟩ r.slots

theorem confirms_scan (d : Digest δ) (segs : List Name) (r : Registry) :
    Scan.Confirms d segs r.slots (r.slots.foldl (Scan.visitConfirmed d segs) (Scan.start d)) :=
  Lookup.foldl_seen Scan.visitConfirmed_confirms
    ⟨Scan.sane_start, fun c hc => absurd hc (by simp [Scan.start])⟩ r.slots

theorem longestPrefix_sound {c : Child} (h : r.longestPrefix d segs = some c) :
    c ∈ r.slots ∧ c.live = true ∧ matchesPrefix segs c.name c.segCount = true := by
  have hscan := covers_scan d segs r
  unfold longestPrefix at h
  dsimp only at h
  split at h
  · cases h
  next best hbest =>
  split at h
  next hyes =>
    cases h
    obtain ⟨hmem, hk⟩ := hscan.best c hbest
    rw [hk, Bool.and_eq_true] at hyes
    exact ⟨hmem, hyes⟩
  · have hconf := confirms_scan d segs r
    exact ⟨(hconf.best c h).1, hconf.sure c h⟩

theorem longestPrefix_widest (hr : ∀ c ∈ r.slots, c.Mounted) {e : Child} (he : r.Leads segs e) :
    ∃ c, r.longestPrefix d segs = some c ∧ e.segCount ≤ c.segCount := by
  obtain ⟨hmem, hlive, hpre⟩ := he
  have hcand := (hr e hmem).candidate d hpre
  have hscan := covers_scan d segs r
  obtain ⟨hsome, hle⟩ := hscan.found e hmem hcand
  obtain ⟨best, hbest⟩ := Option.isSome_iff_exists.mp hsome
  unfold longestPrefix
  simp only [hbest]
  split
  · exact ⟨best, rfl, hle.trans (hscan.best best hbest).2.le⟩
  -- the pick was a collision or dead: the confirmed scan decides
  have hconf := confirms_scan d segs r
  obtain ⟨hsome, hle⟩ :=
    hconf.found e hmem ⟨hcand, hlive, (hr e hmem).matches_iff.mpr hpre⟩
  obtain ⟨c, hc⟩ := Option.isSome_iff_exists.mp hsome
  exact ⟨c, hc, hle.trans (hconf.best c hc).2.le⟩

/-- **The lookup answers with the longest mount that leads to the destination.** -/
theorem longestPrefix_eq_some_iff (hr : ∀ c ∈ r.slots, c.Mounted) {c : Child} :
    r.longestPrefix d segs = some c ↔ r.IsLongest segs c := by
  have hlongest : ∀ {c}, r.longestPrefix d segs = some c → r.IsLongest segs c := by
    intro c h
    obtain ⟨hmem, hlive, hmatch⟩ := longestPrefix_sound h
    refine ⟨⟨hmem, hlive, (hr c hmem).matches_iff.mp hmatch⟩, fun e he => ?_⟩
    obtain ⟨c', hc', hle⟩ := longestPrefix_widest (d := d) hr he
    obtain rfl := Option.some.inj (h.symm.trans hc')
    rwa [(hr e he.1).segCount_eq, (hr e he.1).segmentCount_eq, (hr c hmem).segCount_eq,
      (hr c hmem).segmentCount_eq] at hle
  refine ⟨hlongest, fun h => ?_⟩
  obtain ⟨c', hc', -⟩ := longestPrefix_widest (d := d) hr h.1
  rw [hc', (hlongest hc').unique h]

/-- **It answers nothing exactly if no mount does.** -/
theorem longestPrefix_eq_none_iff (hr : ∀ c ∈ r.slots, c.Mounted) :
    r.longestPrefix d segs = none ↔ ∀ c, ¬ r.Leads segs c := by
  constructor
  · intro h c hc
    obtain ⟨c', hc', -⟩ := longestPrefix_widest (d := d) hr hc
    cases h.symm.trans hc'
  · intro h
    cases hc : r.longestPrefix d segs with
    | none => rfl
    | some c => exact absurd ((longestPrefix_eq_some_iff hr).mp hc).1 (h c)

/-! ## After any history of the table -/

inductive Change where
  | add (name : Name) (link : LinkId) (multiPeer vertex room : Bool)
  | erase (name : Name)

def step (r : Registry) : Change → Registry × Bool
  | .add name link multiPeer vertex room =>
    match r.add name link multiPeer vertex room with
    | some r' => (r', true)
    | none => (r, false)
  | .erase name =>
    match r.erase name with
    | some r' => (r', true)
    | none => (r, false)

def machine : Machine Registry Change Bool := ⟨.empty, step⟩

theorem forall_rewrite {P : Name → Prop} {r : Registry} (hr : ∀ c ∈ r.slots, P c.name)
    {f : Child → Child} (hf : ∀ c, (f c).name = c.name) : ∀ c ∈ (r.rewrite f hf).slots, P c.name := by
  intro c hc
  obtain ⟨e, he, rfl⟩ := mem_map.mp hc
  rw [hf]
  exact hr e he

theorem hasMountRun_step {r : Registry} (hr : ∀ c ∈ r.slots, hasMountRun c.name = true)
    (ch : Change) : ∀ c ∈ (r.step ch).1.slots, hasMountRun c.name = true := by
  cases ch with
  | add name link multiPeer vertex room =>
    unfold step
    dsimp only
    split
    next r' hadd =>
      unfold add at hadd
      split at hadd
      · split at hadd
        · cases hadd
          exact forall_rewrite (P := (hasMountRun · = true)) hr (bind_name name link multiPeer)
        · cases hadd
      split at hadd
      · cases hadd
      next hnew =>
      cases hadd
      refine forall_mem_append.mpr ⟨hr, forall_mem_singleton.mpr ?_⟩
      simp only [Bool.or_eq_true, not_or] at hnew
      simpa using hnew.1.1
    · exact hr
  | erase name =>
    unfold step
    dsimp only
    split
    next r' herase =>
      unfold erase at herase
      split at herase
      · cases herase
        exact forall_rewrite (P := (hasMountRun · = true)) hr (bury_name name)
      · cases herase
    · exact hr

theorem hasMountRun_of_reachable {r : Registry} (hr : machine.Reachable r) :
    ∀ c ∈ r.slots, hasMountRun c.name = true :=
  machine.invariant (P := fun r => ∀ c ∈ r.slots, hasMountRun c.name = true)
    (fun _ hc => nomatch hc) (fun _ ch h => hasMountRun_step h ch) hr

/-- **Mount resolution after any history of the table**, with any digest whatsoever: names of fewer
segments than the width field can count resolve by longest prefix. -/
theorem longestPrefix_spec {r : Registry} (hr : machine.Reachable r)
    (hwidth : ∀ c ∈ r.slots, segmentCount c.name < 2 ^ 32) (d : Digest δ) (segs : List Name) :
    (∀ c, r.longestPrefix d segs = some c ↔ r.IsLongest segs c) ∧
      (r.longestPrefix d segs = none ↔ ∀ c, ¬ r.Leads segs c) := by
  have hm : ∀ c ∈ r.slots, c.Mounted := fun c hc => ⟨hasMountRun_of_reachable hr c hc, hwidth c hc⟩
  exact ⟨fun _ => longestPrefix_eq_some_iff hm, longestPrefix_eq_none_iff hm⟩

/-- A mount below another, and a dead mount that the digest does not tell from it. -/
def nested : List Change :=
  [.add "net".toList 0 false true true, .add "net/axb/c".toList 1 false true true,
    .add "net/ayb/c".toList 2 false true true, .erase "net/ayb/c".toList]

theorem nested_resolves :
    (machine.run nested).IsLongest ["net".toList, "axb".toList, "c".toList, "x/y".toList]
      ⟨"net/axb/c".toList, 1, false, false⟩ :=
  ((longestPrefix_spec (machine.reachable_run nested) (by decide +kernel) nameDigest _).1 _).mp
    (by decide +kernel)

/-- A name of `n` segments. -/
def wide (n : Nat) : Name := ['/'].intercalate (List.replicate n ['a'])

theorem splitOn_wide {n : Nat} (hn : 0 < n) : (wide n).splitOn '/' = List.replicate n ['a'] := by
  refine splitOn_intercalate '/' (fun l hl => ?_) ?_
  · rw [eq_of_mem_replicate hl]
    decide
  · simp [Nat.pos_iff_ne_zero.mp hn]

theorem segmentCount_wide {n : Nat} (hn : 0 < n) : segmentCount (wide n) = n := by
  have hlen : ((wide n).splitOn '/').length = _ := length_splitOn (wide n)
  rw [splitOn_wide hn, length_replicate] at hlen
  have hne : wide n ≠ [] := by
    intro hnil
    have hsplit := splitOn_wide hn
    rw [hnil] at hsplit
    obtain ⟨m, rfl⟩ := Nat.exists_eq_succ_of_ne_zero (Nat.pos_iff_ne_zero.mp hn)
    cases hsplit
  rw [segmentCount, if_neg (by simpa using hne), add_comm]
  exact hlen.symm

theorem slots_wide {n : Nat} (hn : 0 < n) :
    (machine.run [.add (wide n) 0 false true true]).slots = [⟨wide n, 0, false, false⟩] := by
  have hrun : hasMountRun (wide n) = true := by
    rw [hasMountRun, splitOn_wide hn]
    simp
  simp [machine, Machine.run, Machine.runFrom, step, add, empty, hrun]

theorem longestPrefix_wide {n : Nat} (hn : 1 < n) (hwrap : n % 2 ^ 32 = 1) :
    (machine.run [.add (wide n) 0 false true true]).longestPrefix nameDigest
      ((wide n).splitOn '/') = none := by
  have hpos : 0 < n := Nat.lt_of_succ_lt hn
  cases hc : (machine.run [.add (wide n) 0 false true true]).longestPrefix nameDigest
      ((wide n).splitOn '/') with
  | none => rfl
  | some c =>
    obtain ⟨hmem, -, hmatch⟩ := longestPrefix_sound hc
    rw [slots_wide hpos, mem_singleton] at hmem
    subst hmem
    have hcount : Child.segCount ⟨wide n, 0, false, false⟩ = 1 := by
      rw [Child.segCount, segmentCount_wide hpos, hwrap]
    rw [hcount, splitOn_wide hpos] at hmatch
    have hjoin := (matchesPrefix_iff_joined.mp hmatch).2
    rw [take_replicate, Nat.min_eq_left hpos] at hjoin
    have hone : segmentCount (wide n) = 1 :=
      (congrArg segmentCount hjoin).trans (segmentCount_wide Nat.one_pos)
    rw [segmentCount_wide hpos] at hone
    omega

/-- A mount of `2 ^ 32 + 1` segments leads to its own address, and is not found. -/
theorem wide_mount_lost :
    let name := wide (2 ^ 32 + 1)
    let r := machine.run [.add name 0 false true true]
    r.Leads (name.splitOn '/') ⟨name, 0, false, false⟩ ∧
      r.longestPrefix nameDigest (name.splitOn '/') = none := by
  refine ⟨⟨?_, rfl, prefix_refl _⟩, longestPrefix_wide (by norm_num) (by norm_num)⟩
  rw [slots_wide (by norm_num)]
  exact mem_singleton.mpr rfl

end Registry

end LibTracer.Net
