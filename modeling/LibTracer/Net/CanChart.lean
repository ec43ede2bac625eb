import LibTracer.Net.CanProducer
import LibTracer.Net.CanTable

/-!
# What a receiver makes of conforming frames

The runs a receiver has learned lie apart, because a fresh advertise retires what it overlaps.  So the
nearest run at or below a slice is its own, and what is filed there fills one group, place after place.

* **`follows_learnAdvertise`** — what learning an advertise does.
-/

namespace LibTracer.Net.Can

open List
open Producer (InWindow)

/-! ## The runs learned -/

namespace Receiver

variable {S R : CanConfig} {r : Receiver} {s : Sent}

/-- Every run is one of the node's, and no two have an endpoint in common. -/
structure Chart (S : CanConfig) (learned : List (Nat × Binding)) : Prop where
  keyed : Table.Keyed learned
  known : ∀ k b, (k, b) ∈ learned →
    ∃ s, InWindow S s ∧ k = S.idOf s.base ∧ b.adv = S.advertise s
  apart : ∀ k b k' b', (k, b) ∈ learned → (k', b') ∈ learned → k < k' → k + b.adv.count ≤ k'

variable {b : Binding}

theorem overlaps_iff {s' : Sent} (hs : InWindow S s) (hs' : InWindow S s') :
    overlaps (S.idOf s.base) (frameCount S.mode s.payload) (S.idOf s'.base) b = true ↔
      S.idOf s.base < S.idOf s'.base + b.adv.count ∧
        S.idOf s'.base < S.idOf s.base + frameCount S.mode s.payload := by
  rw [overlaps, decide_eq_true_eq, S.nodeOf_idOf, S.nodeOf_idOf, CanConfig.endpointOf_idOf hs.base_le,
    CanConfig.endpointOf_idOf hs'.base_le, CanConfig.idOf_eq hs.base_le,
    CanConfig.idOf_eq hs'.base_le]
  omega

theorem Chart.invalidateOverlapping (h : Chart S r.learned) (base count : Nat) :
    Chart S (r.invalidateOverlapping base count).learned where
  keyed := h.keyed.sublist filter_sublist
  known k b hb := h.known k b (mem_filter.mp hb).1
  apart k b k' b' hb hb' := h.apart k b k' b' (mem_filter.mp hb).1 (mem_filter.mp hb').1

theorem Chart.keeps_below (h : Chart S r.learned) (hs : InWindow S s) {k : Nat}
    (hb : (k, b) ∈ r.learned) (hbelow : k + b.adv.count ≤ S.idOf s.base) :
    (k, b) ∈ (r.invalidateOverlapping (S.idOf s.base) (frameCount S.mode s.payload)).learned ∧
      Table.lookup k (r.invalidateOverlapping (S.idOf s.base)
        (frameCount S.mode s.payload)).groups = Table.lookup k r.groups := by
  obtain ⟨s', hs', rfl, -⟩ := h.known k b hb
  have hmiss : ∀ b', (S.idOf s'.base, b') ∈ r.learned →
      hits r.learned (S.idOf s.base) (frameCount S.mode s.payload) (S.idOf s'.base, b') = false := by
    intro b' hb'
    obtain rfl := h.keyed.unique hb' hb
    have hover : overlaps (S.idOf s.base) (frameCount S.mode s.payload) (S.idOf s'.base) b'
        = false := by
      refine Bool.eq_false_of_not_eq_true fun hc => ?_
      have := (overlaps_iff hs hs').mp hc
      omega
    rw [hits, hover, Bool.and_false]
  refine ⟨mem_filter.mpr ⟨hb, by rw [hmiss b hb]; rfl⟩, Table.lookup_filter fun e _ he => ?_⟩
  rw [Bool.not_eq_true', Bool.eq_false_iff]
  intro hc
  obtain ⟨⟨k', b'⟩, hmem, hkey⟩ := mem_map.mp (contains_iff_mem.mp hc)
  obtain ⟨hb', hhit⟩ := mem_filter.mp hmem
  obtain rfl : k' = S.idOf s'.base := hkey.trans he
  rw [hmiss b' hb'] at hhit
  cases hhit

/-! ## Learning an advertise -/

/-- What learning an advertise does to a receiver that has nothing parked. -/
structure Follows (S R : CanConfig) (s : Sent) (group : Nat) (r r' : Receiver) : Prop where
  chart : Chart S r'.learned
  binding : (S.idOf s.base, (⟨S.advertise s, R.isFor s.target.toNat, false, some group⟩ : Binding))
    ∈ r'.learned
  fresh : R.isFor s.target.toNat = true → ∃ now, Table.lookup (S.idOf s.base) r'.groups =
    some ⟨s.payload.length, sliceWidth (frameCount S.mode s.payload) s.payload.length R.mode.maxData,
      List.replicate (frameCount S.mode s.payload) none, now⟩
  kept : (r.nodes S.node).lastBase < s.base → ∀ k b, (k, b) ∈ r.learned →
    k + b.adv.count ≤ S.idOf s.base →
      (k, b) ∈ r'.learned ∧ Table.lookup k r'.groups = Table.lookup k r.groups
  pending : r'.pending = []
  delivered : r'.delivered = r.delivered
  lastBase : (r'.nodes S.node).lastBase = s.base

theorem Chart.put (h : Chart S r.learned) (hs : InWindow S s) (hadv : b.adv = S.advertise s)
    (hdis : ∀ k b', (k, b') ∈ r.learned → k ≠ S.idOf s.base →
      k + b'.adv.count ≤ S.idOf s.base ∨ S.idOf s.base + frameCount S.mode s.payload ≤ k) :
    Chart S (Table.put (S.idOf s.base) b r.learned) where
  keyed := h.keyed.put _ _
  known k b' hb := by
    rcases Table.mem_put.mp hb with he | ⟨he, -⟩
    · cases he
      exact ⟨s, hs, rfl, hadv⟩
    · exact h.known k b' he
  apart k b₁ k' b₂ hb₁ hb₂ hlt := by
    have hcount : b.adv.count = frameCount S.mode s.payload := by rw [hadv]; rfl
    rcases Table.mem_put.mp hb₁ with he₁ | ⟨he₁, hk₁⟩ <;>
      rcases Table.mem_put.mp hb₂ with he₂ | ⟨he₂, hk₂⟩
    · cases he₁
      cases he₂
      exact absurd hlt (Nat.lt_irrefl _)
    · cases he₁
      have := hdis k' b₂ he₂ hk₂
      rw [hcount]
      omega
    · cases he₂
      have := hdis k b₁ he₁ hk₁
      omega
    · exact h.apart k b₁ k' b₂ he₁ he₂ hlt

theorem Chart.markPriorLap (h : Chart S r.learned) (node : Nat) :
    Chart S (r.markPriorLap node).learned where
  keyed := keyed_markPriorLap h.keyed node
  known k b hb := by
    obtain ⟨b', hb', hadv⟩ := mem_markPriorLap hb
    obtain ⟨s, hs, hk, hadv'⟩ := h.known k b' hb'
    exact ⟨s, hs, hk, hadv.trans hadv'⟩
  apart k b k' b' hb hb' hlt := by
    obtain ⟨b₁, hb₁, hadv⟩ := mem_markPriorLap hb
    obtain ⟨b₂, hb₂, -⟩ := mem_markPriorLap hb'
    rw [hadv]
    exact h.apart k b₁ k' b₂ hb₁ hb₂ hlt

/-- What the lap test leaves as it is; where there is no lap, that is everything. -/
structure Marked (S : CanConfig) (r m : Receiver) (s : Sent) : Prop where
  groups : m.groups = r.groups
  pending : m.pending = r.pending
  delivered : m.delivered = r.delivered
  refused : m.refused = r.refused
  chart : Chart S m.learned
  known : ∀ k b, (k, b) ∈ m.learned → ∃ b', (k, b') ∈ r.learned ∧ b.adv = b'.adv
  same : (r.nodes S.node).lastBase < s.base → m = r

theorem marked_lapTest (hc : Chart S r.learned) (hs : InWindow S s) :
    Marked S r (r.lapTest (S.advertise s)) s := by
  have hnode : nodeOf (S.advertise s).canId = S.node := S.nodeOf_idOf _
  have hend : endpointOf (S.advertise s).canId = s.base := CanConfig.endpointOf_idOf hs.base_le
  rw [lapTest, hnode, hend]
  split
  · exact ⟨rfl, rfl, rfl, rfl, hc.markPriorLap _, fun k b => mem_markPriorLap, fun h => by omega⟩
  · exact ⟨rfl, rfl, rfl, rfl, hc, fun k b hb => ⟨b, hb, rfl⟩, fun _ => rfl⟩

variable {now : Nat} {draws : Draws}

theorem openRun_spec (hs : InWindow S s) (hmode : S.mode = .fd → R.mode = .fd)
    (href : (r.openRun R (S.advertise s) now draws).refused ≤ r.refused) :
    (r.openRun R (S.advertise s) now draws).groups =
      Table.put (S.idOf s.base) ⟨s.payload.length, sliceWidth (frameCount S.mode s.payload)
        s.payload.length R.mode.maxData, List.replicate (frameCount S.mode s.payload) none, now⟩
        (Table.erase (S.idOf s.base) r.groups) := by
  have hend : endpointOf (S.advertise s).canId = s.base := CanConfig.endpointOf_idOf hs.base_le
  have hslots : frameCount S.mode s.payload ≤ endpointMax + 1 - s.base :=
    Nat.le_sub_of_add_le (by rw [add_comm]; exact hs.2.2)
  rw [← hend] at hslots
  refine openGroup_admits (carries_of_mode hmode hs.2.1 hslots)
    (Bool.eq_false_of_not_eq_true fun hflag => ?_)
  have hgrown : (r.openRun R (S.advertise s) now draws).refused = r.refused + 1 :=
    congrArg (fun f : Bool => r.refused + f.toNat) hflag
  omega

theorem lastBase_setBinding (b : Binding) {node : Nat} (h : nodeOf b.adv.canId = node) :
    ((r.setBinding b).nodes node).lastBase = endpointOf b.adv.canId := by
  subst h
  rw [setBinding]
  simp only [Function.update_self]

theorem follows_setBinding {m : Receiver} (hc : Chart S r.learned) (hs : InWindow S s)
    (hdis : ∀ k b, (k, b) ∈ r.learned → k ≠ S.idOf s.base →
      k + b.adv.count ≤ S.idOf s.base ∨ S.idOf s.base + frameCount S.mode s.payload ≤ k)
    (hm : Marked S r m s) (hadv : b.adv = S.advertise s) :
    Chart S (m.setBinding b).learned ∧ (S.idOf s.base, b) ∈ (m.setBinding b).learned ∧
      ((r.nodes S.node).lastBase < s.base → ∀ k b', (k, b') ∈ r.learned →
        k + b'.adv.count ≤ S.idOf s.base → k ≠ S.idOf s.base ∧ (k, b') ∈ (m.setBinding b).learned) ∧
      ((m.setBinding b).nodes S.node).lastBase = s.base := by
  have hid : b.adv.canId = S.idOf s.base := by rw [hadv]; rfl
  have hlearned : (m.setBinding b).learned = Table.put (S.idOf s.base) b m.learned := by
    rw [setBinding, hid]
  rw [hlearned]
  refine ⟨hm.chart.put hs hadv fun k b' hb' hk => ?_, Table.mem_put.mpr (.inl rfl), ?_, ?_⟩
  · obtain ⟨b'', hb'', hadv'⟩ := hm.known k b' hb'
    rw [hadv']
    exact hdis k b'' hb'' hk
  · intro hlt k b' hb' hbelow
    obtain ⟨s', hs', -, hadv'⟩ := hc.known k b' hb'
    have hpos : 0 < b'.adv.count := by
      rw [hadv']
      exact hs'.2.1
    have hk : k ≠ S.idOf s.base := by omega
    rw [hm.same hlt]
    exact ⟨hk, Table.mem_put.mpr (.inr ⟨hb', hk⟩)⟩
  · rw [lastBase_setBinding b (by rw [hid]; exact S.nodeOf_idOf _), hid]
    exact CanConfig.endpointOf_idOf hs.base_le

variable {group : Nat}

theorem follows_bind (hc : Chart S r.learned) (hs : InWindow S s) (hmode : S.mode = .fd → R.mode = .fd)
    (hdis : ∀ k b, (k, b) ∈ r.learned → k ≠ S.idOf s.base →
      k + b.adv.count ≤ S.idOf s.base ∨ S.idOf s.base + frameCount S.mode s.payload ≤ k)
    (hpend : r.pending = [])
    (href : (r.bind R (S.advertise s) (some group) now draws).refused ≤ r.refused) :
    Follows S R s group r (r.bind R (S.advertise s) (some group) now draws) := by
  have hm := marked_lapTest hc hs
  rw [bind] at href ⊢
  have htarget : (S.advertise s).target = s.target.toNat := rfl
  rw [htarget] at href ⊢
  obtain ⟨b, hb⟩ : ∃ b : Binding, b = ⟨S.advertise s, R.isFor s.target.toNat, false, some group⟩ :=
    ⟨_, rfl⟩
  rw [← hb] at href ⊢
  have hadv : b.adv = S.advertise s := by rw [hb]
  obtain ⟨hput, hmem, hkept, hlast⟩ := follows_setBinding hc hs hdis hm hadv
  have hbinding : (S.idOf s.base, (⟨S.advertise s, R.isFor s.target.toNat, false, some group⟩ :
      Binding)) ∈ ((r.lapTest (S.advertise s)).setBinding b).learned := by
    rw [← hb]
    exact hmem
  by_cases ha : R.isFor s.target.toNat = true
  · rw [if_pos ha] at href ⊢
    have hopen := openRun_spec (r := (r.lapTest (S.advertise s)).setBinding b) hs hmode
      (by rw [setBinding_refused, hm.refused]; exact href)
    refine ⟨by rw [openRun_learned]; exact hput, by rw [openRun_learned]; exact hbinding,
      fun _ => ⟨now, by rw [hopen, Table.lookup_put_self]⟩, ?_, ?_, ?_, ?_⟩
    · intro hlt k b' hb' hbelow
      obtain ⟨hk, hmem'⟩ := hkept hlt k b' hb' hbelow
      rw [openRun_learned, hopen, Table.lookup_put_ne hk, Table.lookup_erase_ne hk,
        setBinding_groups, hm.groups]
      exact ⟨hmem', rfl⟩
    · rw [openRun_pending, setBinding_pending, hm.pending, hpend]
    · rw [openRun_delivered, setBinding_delivered, hm.delivered]
    · rw [openRun_nodes, hlast]
  · rw [if_neg ha]
    refine ⟨hput, hbinding, fun h => absurd h ha, ?_, ?_, ?_, hlast⟩
    · intro hlt k b' hb' hbelow
      rw [setBinding_groups, hm.groups]
      exact ⟨(hkept hlt k b' hb' hbelow).2, rfl⟩
    · rw [setBinding_pending, hm.pending, hpend]
    · rw [setBinding_delivered, hm.delivered]

theorem redrive_of_pending_nil (h : r.pending = []) (adv : Advertise) (now : Nat) (draws : Draws) :
    r.redrive R adv now draws = r := by
  cases r with
  | mk nodes learned groups pending delivered filed swept refused parked =>
    obtain rfl : pending = [] := h
    rfl

theorem sweep_eq (h : (r.sweep R now).swept ≤ r.swept) : r.sweep R now = r := by
  have hle : (sweepStale r.groups R.rxTtl now).length ≤ r.groups.length := length_filter_le _ _
  have hcount : r.swept + (r.groups.length - (sweepStale r.groups R.rxTtl now).length) ≤ r.swept := h
  have hsame : sweepStale r.groups R.rxTtl now = r.groups :=
    List.Sublist.eq_of_length filter_sublist (Nat.le_antisymm hle (by omega))
  rw [sweep, hsame, Nat.sub_self, Nat.add_zero]

/-- **An advertise is followed**, where nothing is swept and no budget is in the way. -/
theorem follows_learnAdvertise (hc : Chart S r.learned) (hs : InWindow S s)
    (hmode : S.mode = .fd → R.mode = .fd) (hpend : r.pending = [])
    (hlate : (r.learnAdvertise R (S.idOf controlEndpoint) (S.advertise s) (some group) now
      draws).refused ≤ r.refused)
    (hswept : (r.learnAdvertise R (S.idOf controlEndpoint) (S.advertise s) (some group) now
      draws).swept ≤ r.swept) : Follows S R s group r
      (r.learnAdvertise R (S.idOf controlEndpoint) (S.advertise s) (some group) now draws) := by
  have hpos : (S.advertise s).count ≠ 0 := Nat.ne_of_gt hs.2.1
  have hband : ¬bandOf (S.advertise s).canId ≠ bandOf (S.idOf controlEndpoint) :=
    not_not.mpr (S.bandOf_idOf _ _)
  rw [learnAdvertise] at hlate hswept ⊢
  dsimp only at hlate hswept ⊢
  rw [if_neg hpos, if_neg hband] at hlate hswept ⊢
  have hid : (S.advertise s).canId = S.idOf s.base := rfl
  have hcount : (S.advertise s).count = frameCount S.mode s.payload := rfl
  rw [hid, hcount] at hlate hswept ⊢
  have hsweep : r.sweep R now = r := by
    refine sweep_eq (Nat.le_trans ?_ hswept)
    split
    · exact le_rfl
    show ((r.sweep R now).invalidateOverlapping (S.idOf s.base)
      (frameCount S.mode s.payload)).swept ≤ _
    exact ((later_bind _ _ _ _).trans (later_redrive _ _ _)).swept
  rw [hsweep] at hlate hswept ⊢
  obtain ⟨m, hm⟩ : ∃ m, m = r.invalidateOverlapping (S.idOf s.base) (frameCount S.mode s.payload) :=
    ⟨_, rfl⟩
  have hchart : Chart S m.learned := hm ▸ hc.invalidateOverlapping _ _
  have hdis : ∀ k b, (k, b) ∈ m.learned → k ≠ S.idOf s.base →
      k + b.adv.count ≤ S.idOf s.base ∨ S.idOf s.base + frameCount S.mode s.payload ≤ k := by
    intro k b hb hk
    obtain ⟨s', -, rfl, -⟩ := hchart.known k b hb
    have hapart : Apart r.learned := fun k b k' b' hb hb' _ => hc.apart k b k' b' hb hb'
    exact hapart.disjoint_of_kept (S.bandOf_idOf _ _) (hm ▸ hb) hk
  have hkeeps : ∀ k b, (k, b) ∈ r.learned → k + b.adv.count ≤ S.idOf s.base →
      (k, b) ∈ m.learned ∧ Table.lookup k m.groups = Table.lookup k r.groups :=
    fun k b hb hbelow => hm ▸ hc.keeps_below hs hb hbelow
  have hnodes : m.nodes = r.nodes := by rw [hm]; rfl
  have hmpend : m.pending = [] := by rw [hm]; exact hpend
  have hdel : m.delivered = r.delivered := by rw [hm]; rfl
  have href : m.refused = r.refused := by rw [hm]; rfl
  rw [← hm] at hlate hswept ⊢
  split at hlate
  · exact absurd hlate (by rw [href]; exact Nat.not_succ_le_self _)
  next hok =>
  rw [if_neg hok]
  have hbound : (m.bind R (S.advertise s) (some group) now draws).refused ≤ m.refused :=
    Nat.le_trans (later_redrive _ _ _).refused (Nat.le_trans hlate (le_of_eq href.symm))
  have hfollow := follows_bind hchart hs hmode hdis hmpend hbound
  rw [redrive_of_pending_nil hfollow.pending]
  refine ⟨hfollow.chart, hfollow.binding, hfollow.fresh, ?_, hfollow.pending,
    hfollow.delivered.trans hdel, hfollow.lastBase⟩
  intro hlt k b hb hbelow
  obtain ⟨hkept, hlook⟩ := hkeeps k b hb hbelow
  obtain ⟨hkept', hlook'⟩ := hfollow.kept (by rw [hnodes]; exact hlt) k b hkept hbelow
  exact ⟨hkept', hlook'.trans hlook⟩

/-! ## The next slice -/

variable {i : Nat}

/-- **A slice resolves to its own run**, since the runs lie apart. -/
theorem resolve_own (hc : Chart S r.learned) (hs : InWindow S s)
    (hb : (S.idOf s.base, b) ∈ r.learned) (hadv : b.adv = S.advertise s)
    (hi : i < frameCount S.mode s.payload) :
    r.resolve (S.idOf (s.base + i)) = some (S.idOf s.base, b) := by
  obtain ⟨-, -, hend⟩ := hs
  have hcount : b.adv.count = frameCount S.mode s.payload := by rw [hadv]; rfl
  have hid : S.idOf (s.base + i) = S.idOf s.base + i := CanConfig.idOf_add (by omega)
  have hnear : Table.nearest (S.idOf (s.base + i)) r.learned = some (S.idOf s.base, b) := by
    refine hc.keyed.nearest_eq hb (by rw [hid]; exact Nat.le_add_right _ _) fun x hx hle => ?_
    by_contra hgt
    have := hc.apart _ b x.1 x.2 hb hx (by dsimp only at hgt; omega)
    omega
  rw [resolve, hnear, Option.filter_some, if_pos]
  rw [decide_eq_true_eq, S.nodeOf_idOf, S.nodeOf_idOf, CanConfig.endpointOf_idOf (by omega),
    CanConfig.endpointOf_idOf (by omega)]
  refine ⟨rfl, ?_⟩
  dsimp only
  omega

/-- The first `i` places of a group are filled. -/
structure Partly (S R : CanConfig) (s : Sent) (i : Nat) (g : Group) : Prop where
  total : g.total = s.payload.length
  width : g.width = sliceWidth (frameCount S.mode s.payload) s.payload.length R.mode.maxData
  places : g.places = (List.range (frameCount S.mode s.payload)).map fun j =>
    if j < i then some (frameAt S.mode s.payload j) else none

theorem partly_fresh (S R : CanConfig) (s : Sent) (now : Nat) : Partly S R s 0 ⟨s.payload.length,
      sliceWidth (frameCount S.mode s.payload) s.payload.length R.mode.maxData,
      List.replicate (frameCount S.mode s.payload) none, now⟩ :=
  ⟨rfl, rfl, by simp⟩

namespace Partly

variable {i : Nat} {g : Group}

section

variable (h : Partly S R s i g)
include h

theorem length_places : g.places.length = frameCount S.mode s.payload := by
  rw [h.places, length_map, length_range]

section

variable (hmode : S.mode = .fd → R.mode = .fd) (hi : i < frameCount S.mode s.payload)
include hmode hi

theorem placeLen : g.placeLen i = (frameAt S.mode s.payload i).length :=
  placeLen_eq (carries_of_mode hmode (Nat.zero_lt_of_lt hi) le_rfl) h.width h.total hi

theorem place (now : Nat) :
    Partly S R s (i + 1) (g.place i (onWire S.mode (frameAt S.mode s.payload i)) now) := by
  refine ⟨h.total, h.width, ?_⟩
  rw [Group.place, take_onWire (h.placeLen hmode hi), h.places]
  refine ext_getElem? fun j => ?_
  rw [List.getElem?_set, length_map, length_range, List.getElem?_map, List.getElem?_map]
  by_cases hj : j < frameCount S.mode s.payload
  · rw [List.getElem?_range hj, Option.map_some, Option.map_some]
    by_cases hij : i = j
    · rw [if_pos hij, if_pos hi, hij, if_pos (Nat.lt_succ_self j)]
    rw [if_neg hij]
    by_cases hlt : j < i
    · rw [if_pos hlt, if_pos (by omega)]
    · rw [if_neg hlt, if_neg (by omega)]
  · rw [if_neg (by omega), List.getElem?_eq_none (by simpa using hj)]
    rfl

end

theorem complete_iff : g.complete = true ↔ frameCount S.mode s.payload ≤ i := by
  rw [Group.complete, h.places, all_map, all_eq_true]
  constructor
  · intro hall
    by_contra hlt
    have := hall i (mem_range.mpr (Nat.lt_of_not_le hlt))
    simp at this
  · intro hle j hj
    simp only [Function.comp_apply, if_pos (Nat.lt_of_lt_of_le (mem_range.mp hj) hle), Option.isSome_some]

theorem bytes (hle : frameCount S.mode s.payload ≤ i) : g.bytes = s.payload := by
  refine Group.bytes_of_filled ?_ (h.complete_iff.mpr hle) h.length_places
  intro j p hp
  rw [h.places, List.getElem?_map] at hp
  cases hj : (List.range (frameCount S.mode s.payload))[j]? with
  | none => rw [hj] at hp; cases hp
  | some k =>
    obtain ⟨hlt, hk⟩ := List.getElem?_eq_some_iff.mp hj
    rw [getElem_range] at hk
    rw [hj, Option.map_some, ← hk] at hp
    split at hp
    · exact (Option.some.inj (Option.some.inj hp)).symm
    · cases hp

end

end Partly

theorem processData_other (hc : Chart S r.learned) (hs : InWindow S s)
    (hb : (S.idOf s.base, b) ∈ r.learned) (hadv : b.adv = S.advertise s)
    (hi : i < frameCount S.mode s.payload) (hd : b.deliver = false) :
    r.processData R (S.sliceFrame s group i) now draws = r := by
  have hres : r.resolve (S.sliceFrame s group i).id = some (S.idOf s.base, b) :=
    resolve_own hc hs hb hadv hi
  rw [processData, hres]
  exact if_pos hd

/-- **The next slice of a group** fills its place, and the last one hands the frame out. -/
theorem processData_slice (hc : Chart S r.learned) (hs : InWindow S s)
    (hmode : S.mode = .fd → R.mode = .fd) (hb : (S.idOf s.base, b) ∈ r.learned)
    (hadv : b.adv = S.advertise s) (hd : b.deliver = true) (hp : b.priorLap = false)
    (group now : Nat) (draws : Draws) (hi : i < frameCount S.mode s.payload) {g : Group}
    (hg : Table.lookup (S.idOf s.base) r.groups = some g) (hpart : Partly S R s i g) :
    ∃ g', Partly S R s (i + 1) g' ∧ r.processData R (S.sliceFrame s group i) now draws =
        if i + 1 < frameCount S.mode s.payload then { r with
            groups := Table.put (S.idOf s.base) g' r.groups
            filed := r.filed ++ [(S.sliceFrame s group i, b)] }
        else
          { r with
            groups := Table.erase (S.idOf s.base) (Table.put (S.idOf s.base) g' r.groups)
            filed := r.filed ++ [(S.sliceFrame s group i, b)]
            delivered := r.delivered ++ [(S.node, s.payload)] } := by
  have hres : r.resolve (S.sliceFrame s group i).id = some (S.idOf s.base, b) :=
    resolve_own hc hs hb hadv hi
  have hindex : endpointOf (S.sliceFrame s group i).id - endpointOf (S.idOf s.base) = i :=
    index_sliceFrame hs group hi
  have hnode : nodeOf (S.sliceFrame s group i).id = S.node := S.nodeOf_idOf _
  have hpart' := hpart.place hmode hi now
  refine ⟨_, hpart', ?_⟩
  have hadd : addSlice r.groups (S.idOf s.base) i (S.sliceFrame s group i).data now =
      some (Table.put (S.idOf s.base)
        (g.place i (onWire S.mode (frameAt S.mode s.payload i)) now) r.groups) := by
    rw [addSlice, hg]
    dsimp only
    rw [if_neg (by rw [hpart.length_places]; omega), if_neg]
    · rfl
    · rw [hpart.placeLen hmode hi]
      exact Nat.not_lt.mpr (length_le_onWire _ _)
  rw [processData, hres]
  dsimp only
  rw [if_neg (by rw [hd]; decide), if_neg (by rw [hp]; decide), hindex, hadd]
  dsimp only
  generalize g.place i (onWire S.mode (frameAt S.mode s.payload i)) now = g' at *
  rw [takeGroup, Table.lookup_put_self]
  dsimp only
  by_cases hlast : i + 1 < frameCount S.mode s.payload
  · rw [if_neg (fun h => absurd (hpart'.complete_iff.mp h) (by omega)), if_pos hlast]
  · rw [if_pos (hpart'.complete_iff.mpr (by omega)), if_neg hlast, hpart'.bytes (by omega), hnode]

end Receiver

end LibTracer.Net.Can
