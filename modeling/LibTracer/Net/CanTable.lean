import LibTracer.Net.CanReceiver

/-!
# The table of learned runs

Peers claim what bases and counts they like.  A claimed run retires the runs it overlaps together with
their groups, so that the nearest at or below an identifier is the only one that can own it.

* **`binding_table`** — so it is after any frames from any peers.
-/

namespace LibTracer.Net.Can.Receiver

open List

variable {cfg : CanConfig} {r : Receiver} {b : Binding} {base count k id : Nat}

/-! ## A claimed run -/

/-- No two runs of one band have an endpoint in common. -/
def Apart (learned : List (Nat × Binding)) : Prop :=
  ∀ k b k' b', (k, b) ∈ learned → (k', b') ∈ learned → bandOf k = bandOf k' → k < k' →
    k + b.adv.count ≤ k'

theorem overlaps_of_band (hband : bandOf k = bandOf base) (hlo : base < k + b.adv.count)
    (hhi : k < base + count) : overlaps base count k b = true := by
  refine decide_eq_true ?_
  unfold nodeOf endpointOf
  unfold bandOf at hband
  omega

/-- **What a claimed run leaves**: of its band only runs that lie apart from it, and one of its base. -/
theorem Apart.disjoint_of_kept (h : Apart r.learned) (hband : bandOf k = bandOf base)
    (hb : (k, b) ∈ (r.invalidateOverlapping base count).learned) (hk : k ≠ base) :
    k + b.adv.count ≤ base ∨ base + count ≤ k := by
  obtain ⟨hmem, hkept⟩ := mem_filter.mp hb
  by_contra hcon
  have hwalk : walked r.learned base count k = false := by
    have hmiss : hits r.learned base count (k, b) = false := by simpa [hk] using hkept
    have hover : overlaps base count k b = true := overlaps_of_band hband (by omega) (by omega)
    rwa [hits, hover, Bool.and_true] at hmiss
  -- the walk passed it by, so that it starts below the claimed run and is not the nearest that does
  rw [walked, decide_eq_false_iff_not] at hwalk
  have hlt : k < base := Nat.lt_of_not_le fun hge => hwalk ⟨by omega, .inl hge⟩
  rw [if_neg (by omega)] at hwalk
  cases hn : Table.nearest (base - 1) r.learned with
  | none =>
    have := (Table.nearest_spec (base - 1) r.learned).2 hn _ hmem
    dsimp only at this
    omega
  | some e =>
    obtain ⟨he, hle, hmax⟩ := (Table.nearest_spec (base - 1) r.learned).1 e hn
    have hnear := hmax _ hmem (by dsimp only; omega)
    have hne : e.1 ≠ k := fun heq => hwalk ⟨by omega, .inr (by rw [hn]; simpa using heq)⟩
    dsimp only at hnear
    have := h k b e.1 e.2 hmem he (by unfold bandOf at *; omega) (by omega)
    omega

theorem contains_retired (hb : (k, b) ∈ r.learned) (hhit : hits r.learned base count (k, b) = true) :
    ((r.learned.filter (hits r.learned base count)).map Prod.fst).contains k = true :=
  contains_iff_mem.mpr (mem_map.mpr ⟨(k, b), mem_filter.mpr ⟨hb, hhit⟩, rfl⟩)

variable {g : Group}

theorem not_mem_groups_claimed (hpos : 0 < count)
    (hlive : (base, g) ∈ r.groups → ∃ b, (base, b) ∈ r.learned ∧ 0 < b.adv.count) :
    (base, g) ∉ (r.invalidateOverlapping base count).groups := by
  intro hmem
  obtain ⟨hg, hret⟩ := mem_filter.mp hmem
  obtain ⟨b, hb, hcount⟩ := hlive hg
  have hwalk : walked r.learned base count base = true :=
    decide_eq_true ⟨by omega, .inl le_rfl⟩
  have hover : overlaps base count base b = true := overlaps_of_band rfl (by omega) (by omega)
  have hhit : hits r.learned base count (base, b) = true := by rw [hits, hwalk, hover]; rfl
  rw [contains_retired hb hhit] at hret
  cases hret

theorem mem_learned_of_group (hg : (k, g) ∈ (r.invalidateOverlapping base count).groups)
    (hb : (k, b) ∈ r.learned) : (k, b) ∈ (r.invalidateOverlapping base count).learned := by
  refine mem_filter.mpr ⟨hb, ?_⟩
  -- a binding that was hit took its group with it
  by_cases hhit : hits r.learned base count (k, b) = true
  · have hret := (mem_filter.mp hg).2
    rw [contains_retired hb hhit] at hret
    cases hret
  · rw [Bool.eq_false_of_not_eq_true hhit]
    rfl

/-! ## Every step keeps the table tidy -/

/-- What holds of the runs learned and of the groups open, whoever advertised them. -/
structure Tidy (cfg : CanConfig) (r : Receiver) : Prop where
  keyed : Table.Keyed r.learned
  bound : ∀ k b, (k, b) ∈ r.learned → 0 < b.adv.count ∧ k < 536870912 ∧ versionOf k = cfg.version
  apart : Apart r.learned
  live : ∀ e ∈ r.groups, e.1 ∈ r.learned.map Prod.fst
  cap : r.learned.length ≤ cfg.learnedCap

variable {frame : CanFrame} {now : Nat} {draws : Draws} {adv : Advertise} {source : Option Nat}

theorem keys_lapTest (r : Receiver) (adv : Advertise) :
    (r.lapTest adv).learned.map Prod.fst = r.learned.map Prod.fst := by
  rw [lapTest]
  split
  · exact keys_markPriorLap r _
  · rfl

theorem bind_learned : (r.bind cfg adv source now draws).learned =
    Table.put adv.canId ⟨adv, cfg.isFor adv.target, false, source⟩ (r.lapTest adv).learned := by
  rw [Receiver.bind]
  split <;> rfl

theorem mem_bind_learned (hb : (k, b) ∈ (r.bind cfg adv source now draws).learned) :
    k = adv.canId ∧ b.adv = adv ∨ k ≠ adv.canId ∧ ∃ b', (k, b') ∈ r.learned ∧ b.adv = b'.adv := by
  rw [bind_learned] at hb
  rcases Table.mem_put.mp hb with he | ⟨hb, hk⟩
  · cases he
    exact .inl ⟨rfl, rfl⟩
  refine .inr ⟨hk, ?_⟩
  rw [lapTest] at hb
  split at hb
  · exact mem_markPriorLap hb
  · exact ⟨b, hb, rfl⟩

theorem mem_bind_groups {e : Nat × Group} (he : e ∈ (r.bind cfg adv source now draws).groups) :
    e.1 = adv.canId ∨ e ∈ r.groups := by
  have hlap : (r.lapTest adv).groups = r.groups := by
    rw [lapTest]
    split <;> rfl
  rw [Receiver.bind] at he
  split at he
  · rcases mem_openGroup he with ⟨hg, -⟩ | ⟨-, rfl⟩
    · exact .inr (hlap ▸ hg)
    · exact .inl rfl
  · exact .inr (hlap ▸ he)

section

variable (h : Tidy cfg r)
include h

theorem Tidy.shrink {r' : Receiver} (hl : r'.learned.Sublist r.learned)
    (hlive : ∀ e ∈ r'.groups, e.1 ∈ r'.learned.map Prod.fst) : Tidy cfg r' where
  keyed := h.keyed.sublist hl
  bound k b hb := h.bound k b (hl.subset hb)
  apart k b k' b' hb hb' := h.apart k b k' b' (hl.subset hb) (hl.subset hb')
  live := hlive
  cap := Nat.le_trans hl.length_le h.cap

theorem Tidy.processData : Tidy cfg (r.processData cfg frame now draws) := by
  rcases processData_cases cfg r frame now draws with
    ⟨-, heq⟩ | ⟨key, b, -, heq | heq | ⟨gs, hadd, hcase⟩⟩
  · rw [heq]
    exact h.shrink (.refl _) h.live
  · rw [heq]
    exact h
  · rw [heq]
    exact h.shrink (.refl _) fun e he => h.live e (Table.mem_erase.mp he).1
  · obtain ⟨g, hlook, -, rfl⟩ := of_addSlice hadd
    generalize g.place _ frame.data now = filled at hcase
    have hput : ∀ e ∈ Table.put key filled r.groups, e.1 ∈ r.learned.map Prod.fst := by
      intro e he
      rcases Table.mem_put.mp he with rfl | ⟨he, -⟩
      · exact h.live (key, g) (Table.mem_of_lookup hlook)
      · exact h.live e he
    rcases hcase with heq | ⟨whole, gs', htake, heq⟩
    · rw [heq]
      exact h.shrink (.refl _) hput
    obtain ⟨-, -, -, -, rfl⟩ := of_takeGroup htake
    rw [heq]
    exact h.shrink (.refl _) fun e he => hput e (Table.mem_erase.mp he).1

theorem Tidy.invalidateOverlapping : Tidy cfg (r.invalidateOverlapping base count) := by
  refine h.shrink filter_sublist fun e he => ?_
  obtain ⟨⟨k, b⟩, hb, hk⟩ := mem_map.mp (h.live e (mem_filter.mp he).1)
  cases hk
  exact mem_map_of_mem (mem_learned_of_group he hb)

/-- Where the fresh run has been cleared and there is room for it. -/
theorem Tidy.bind (hpos : 0 < adv.count) (hid : adv.canId < 536870912 ∧ versionOf adv.canId = cfg.version)
    (hclear : ∀ k b, (k, b) ∈ r.learned → k ≠ adv.canId → bandOf k = bandOf adv.canId →
      k + b.adv.count ≤ adv.canId ∨ adv.canId + adv.count ≤ k)
    (hcap : Table.lookup adv.canId r.learned = none → r.learned.length < cfg.learnedCap) :
    Tidy cfg (r.bind cfg adv source now draws) where
  keyed := by
    rw [bind_learned]
    refine Table.Keyed.put ?_ _ _
    rw [Table.Keyed, keys_lapTest]
    exact h.keyed
  bound k b hb := by
    obtain ⟨rfl, hadv⟩ | ⟨-, b', hb', hadv⟩ := mem_bind_learned hb
    · rw [hadv]
      exact ⟨hpos, hid⟩
    · exact hadv ▸ h.bound k b' hb'
  apart k₁ b₁ k₂ b₂ h₁ h₂ hband hlt := by
    obtain ⟨rfl, hadv₁⟩ | ⟨hk₁, b₁', h₁, hadv₁⟩ := mem_bind_learned h₁ <;>
      obtain ⟨rfl, hadv₂⟩ | ⟨hk₂, b₂', h₂, hadv₂⟩ := mem_bind_learned h₂ <;> rw [hadv₁]
    · omega
    · have := hclear k₂ b₂' h₂ hk₂ hband.symm
      omega
    · have := hclear k₁ b₁' h₁ hk₁ hband
      omega
    · exact h.apart k₁ b₁' k₂ b₂' h₁ h₂ hband hlt
  live e he := by
    rw [bind_learned]
    refine Table.mem_keys_put ((mem_bind_groups he).imp_right fun hg => ?_)
    rw [keys_lapTest]
    exact h.live e hg
  cap := by
    have hlen : (r.lapTest adv).learned.length = r.learned.length := by
      simpa using congrArg length (keys_lapTest r adv)
    rw [bind_learned]
    cases hl : Table.lookup adv.canId (r.lapTest adv).learned with
    | none =>
      rw [Table.length_put_of_lookup_none hl, hlen]
      rw [Table.lookup_eq_none, keys_lapTest, ← Table.lookup_eq_none] at hl
      exact hcap hl
    | some b =>
      rw [Table.put, hl, if_pos (show (some b).isSome = true from rfl), length_map, hlen]
      exact h.cap

theorem Tidy.redrive : Tidy cfg (r.redrive cfg adv now draws) := by
  rw [Receiver.redrive]
  exact foldlRecOn _ _ (h.shrink (.refl _) h.live) fun m hm p _ => hm.processData

theorem Tidy.learnAdvertise {carrier : Nat}
    (hid : carrier < 536870912 ∧ versionOf carrier = cfg.version) :
    Tidy cfg (r.learnAdvertise cfg carrier adv source now draws) := by
  rw [Receiver.learnAdvertise]
  dsimp only
  have hswept : Tidy cfg (r.sweep cfg now) :=
    h.shrink (.refl _) fun e he => h.live e (mem_filter.mp he).1
  generalize r.sweep cfg now = m at hswept ⊢
  split
  · exact hswept
  next hzero =>
  split
  · exact hswept
  next hband =>
  have hpos : 0 < adv.count := Nat.pos_of_ne_zero hzero
  have hinv : Tidy cfg (m.invalidateOverlapping adv.canId adv.count) := hswept.invalidateOverlapping
  split
  · refine hinv.shrink filter_sublist fun e he => ?_
    obtain ⟨x, hx, hk⟩ := mem_map.mp (hinv.live e he)
    refine hk ▸ mem_map_of_mem (Table.mem_erase.mpr ⟨hx, fun hbase => ?_⟩)
    -- a binding dropped for want of room has no group left
    obtain ⟨k, g⟩ := e
    obtain rfl : k = adv.canId := hk.symm.trans hbase
    refine not_mem_groups_claimed hpos (fun _ => ⟨x.2, ?_, (hinv.bound _ _ hx).1⟩) he
    exact hbase ▸ (mem_filter.mp hx).1
  next hok =>
  refine (hinv.bind hpos ?_ (fun k b hb hk hsame => ?_) fun hnone => ?_).redrive
  · unfold bandOf at hband
    unfold versionOf at *
    omega
  · exact hswept.apart.disjoint_of_kept hsame hb hk
  · simp only [Bool.or_eq_true, not_or, atCap, hnone, decide_eq_true_eq] at hok
    exact Nat.lt_of_not_le hok.1.1.1

/-- **Every frame keeps the table tidy**, whoever sends it and whatever it says. -/
theorem Tidy.onRx {draws : Nat → Draws} : Tidy cfg (r.onRx cfg frame now draws) := by
  rw [Receiver.onRx]
  split
  · exact h
  next hmine =>
  have hexp : Tidy cfg (r.expirePending cfg now) := h.shrink (.refl _) h.live
  dsimp only
  split
  · rw [Receiver.onControl]
    dsimp only
    split
    · exact hexp.shrink (.refl _) hexp.live
    have hfold := fun advs : List ((Advertise × Option Nat) × Nat) =>
      foldlRecOn advs (fun r a => r.learnAdvertise cfg frame.id a.1.1 a.1.2 now (draws a.2)) hexp
        fun m hm a _ => hm.learnAdvertise (by omega)
    exact (hfold _).shrink (.refl _) (hfold _).live
  · exact hexp.processData

/-! ## The nearest run is the owner -/

/-- What a scan over all runs looks for. -/
def owns (id : Nat) (e : Nat × Binding) : Bool :=
  decide (nodeOf e.1 = nodeOf id ∧ endpointOf e.1 ≤ endpointOf id ∧
    endpointOf id < endpointOf e.1 + e.2.adv.count)

variable (hid : id < 536870912) (hv : versionOf id = cfg.version)
include hid hv

theorem Tidy.owns_iff {e : Nat × Binding} (he : e ∈ r.learned) :
    owns id e = true ↔ bandOf e.1 = bandOf id ∧ e.1 ≤ id ∧ id < e.1 + e.2.adv.count := by
  obtain ⟨-, hk, hkv⟩ := h.bound e.1 e.2 he
  rw [owns, decide_eq_true_eq]
  unfold versionOf at *
  unfold nodeOf endpointOf bandOf
  omega

theorem Tidy.resolve_eq : r.resolve id = r.learned.find? (owns id) := by
  have hfilter : r.resolve id = (Table.nearest id r.learned).filter (owns id) := by
    rw [resolve]
    cases hn : Table.nearest id r.learned with
    | none => rfl
    | some e =>
      obtain ⟨he, hle, -⟩ := (Table.nearest_spec id r.learned).1 e hn
      obtain ⟨-, hk, hkv⟩ := h.bound e.1 e.2 he
      refine if_congr ?_ rfl rfl
      rw [h.owns_iff hid hv he, decide_eq_true_eq]
      unfold versionOf at *
      unfold nodeOf endpointOf bandOf
      omega
  rw [hfilter]
  cases hf : r.learned.find? (owns id) with
  | none =>
    rw [Option.filter_eq_none_iff]
    intro e he
    exact find?_eq_none.mp hf e ((Table.nearest_spec id r.learned).1 e he).1
  | some e =>
    have he := mem_of_find?_eq_some hf
    have howns := find?_some hf
    obtain ⟨hband, hle, hlt⟩ := (h.owns_iff hid hv he).mp howns
    rw [h.keyed.nearest_eq he hle fun x hx hxle => ?_, Option.filter_some, if_pos howns]
    by_contra hgt
    have := h.apart e.1 e.2 x.1 x.2 he hx (by unfold bandOf at *; omega) (by omega)
    omega

end

/-- **The table of learned runs**, after any frames from any peers: no two runs of a node share an
endpoint, the nearest run is the one a scan over all of them finds, every open group has its run, and the
cap holds. -/
theorem binding_table (cfg : CanConfig) (arrivals : List Arrival) :
    let r := receive cfg {} arrivals
    r.learned.Pairwise (fun e e' => nodeOf e.1 = nodeOf e'.1 →
      endpointOf e.1 + e.2.adv.count ≤ endpointOf e'.1 ∨
        endpointOf e'.1 + e'.2.adv.count ≤ endpointOf e.1) ∧
    (∀ id < 536870912, versionOf id = cfg.version → r.resolve id = r.learned.find? (owns id)) ∧
    (∀ e ∈ r.groups, e.1 ∈ r.learned.map Prod.fst) ∧ r.learned.length ≤ cfg.learnedCap := by
  have h : Tidy cfg (receive cfg {} arrivals) :=
    foldlRecOn _ _ ⟨nodup_nil, nofun, nofun, nofun, Nat.zero_le _⟩ fun m hm a _ => hm.onRx
  refine ⟨?_, fun id hid hv => h.resolve_eq hid hv, h.live, h.cap⟩
  refine Pairwise.imp_of_mem (fun {e e'} he he' hne hnode => ?_) (pairwise_map.mp h.keyed)
  obtain ⟨-, hk, hkv⟩ := h.bound e.1 e.2 he
  obtain ⟨-, hk', hkv'⟩ := h.bound e'.1 e'.2 he'
  have hband : bandOf e.1 = bandOf e'.1 := by
    unfold versionOf nodeOf bandOf at *
    omega
  have hup := h.apart e.1 e.2 e'.1 e'.2 he he' hband
  have hdown := h.apart e'.1 e'.2 e.1 e.2 he' he hband.symm
  unfold endpointOf
  unfold bandOf at hband
  omega

end LibTracer.Net.Can.Receiver
