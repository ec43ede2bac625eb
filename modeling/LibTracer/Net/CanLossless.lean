import LibTracer.Net.CanChart

/-!
# Every frame is delivered once

On a bus that loses nothing a receiver stays in step with the senders of a node.  It has
learned every run whose advertise is out, and of every group in flight that is for it exactly the slices
that are out are filed.

* **`delivers_each_once`** — what was delivered is each addressed frame whose slices are all out, once.
-/

namespace LibTracer.Net.Can

open List
open Producer (InWindow)

/-! ## In step -/

def Producer.AllOut (S : CanConfig) (p : Producer) (group : Nat) (s : Sent) : Prop :=
  ∀ i, Table.lookup group p.flights = some i → frameCount S.mode s.payload ≤ i

def Producer.Announcing (p : Producer) (group : Nat) : Prop := p.voice ≠ [] ∧ p.speaker = group

/-- A receiver has heard of a group, and filed the slices that are out. -/
structure Heard (S R : CanConfig) (r : Receiver) (group i : Nat) (s : Sent) : Prop where
  binding : (S.idOf s.base, (⟨S.advertise s, R.isFor s.target.toNat, false, some group⟩ : Binding))
    ∈ r.learned
  partly : R.isFor s.target.toNat = true → i < frameCount S.mode s.payload →
    ∃ g, Table.lookup (S.idOf s.base) r.groups = some g ∧ Receiver.Partly S R s i g

/-- What is being announced: nothing that binds, or the run on top of all that are in flight.  A base
that does not go up is announced only when no other run is. -/
inductive Speaks (S : CanConfig) (p : Producer) (lastBase : Nat) (adv : Advertise) : Prop
  | hello (hadv : adv = S.helloAdvertise) (hnone : ∀ i, (p.speaker, i) ∉ p.flights)
      (hlap : lastBase < p.next)
  | group (s : Sent) (hs : p.sent[p.speaker]? = some s) (hadv : adv = S.advertise s)
      (hzero : Table.lookup p.speaker p.flights = some 0)
      (htop : ∀ g i s', (g, i) ∈ p.flights → g ≠ p.speaker → p.sent[g]? = some s' →
        s'.base + frameCount S.mode s'.payload ≤ s.base)
      (hnext : s.base < p.next)
      (hlap : lastBase < s.base ∨ ∀ f ∈ p.flights, f.1 = p.speaker)

def DeliveredOnce (S R : CanConfig) (p : Producer) (r : Receiver) : Prop :=
  ∃ order : List Nat, order.Nodup ∧
    r.delivered = order.filterMap (fun g => (p.sent[g]?).map fun s => (S.node, s.payload)) ∧
    ∀ g, g ∈ order ↔
      ∃ s, p.sent[g]? = some s ∧ R.isFor s.target.toNat = true ∧ p.AllOut S g s

structure InStep (S R : CanConfig) (p : Producer) (r : Receiver) : Prop where
  keyed : Table.Keyed p.flights
  conforming : Producer.Conforming S p
  flights : ∀ g i, (g, i) ∈ p.flights →
    ∃ s, p.sent[g]? = some s ∧ s.base + frameCount S.mode s.payload ≤ p.next
  chart : Receiver.Chart S r.learned
  pending : r.pending = []
  heard : ∀ g i s, Table.lookup g p.flights = some i → ¬p.Announcing g → p.sent[g]? = some s →
    Heard S R r g i s
  quiet : p.voice = [] → (r.nodes S.node).control = [] ∧ (r.nodes S.node).lastBase < p.next
  voice : p.voice ≠ [] → ∃ adv, adv.Fits ∧
    (r.nodes S.node).control.map Prod.fst ++ p.voice = encodeAdvertise adv S.path ∧
    (∀ x ∈ (r.nodes S.node).control, x.2 = p.speaker) ∧
    Speaks S p (r.nodes S.node).lastBase adv
  delivered : DeliveredOnce S R p r

section

variable {S R : CanConfig} {p : Producer} {r : Receiver}

theorem inStep_start (S R : CanConfig) : InStep S R {} {} where
  keyed := nodup_nil
  conforming := Producer.conforming S []
  flights _ _ h := absurd h not_mem_nil
  chart := ⟨nodup_nil, fun _ _ h => absurd h not_mem_nil, fun _ _ _ _ h => absurd h not_mem_nil⟩
  pending := rfl
  heard _ _ _ h := absurd h (by simp [Table.lookup])
  quiet _ := ⟨rfl, Nat.zero_lt_one⟩
  voice h := absurd rfl h
  delivered := ⟨[], nodup_nil, rfl, fun g => by simp⟩

/-! ## Steps that write nothing -/

variable {s : Sent}

theorem fits_advertise (hwin : InWindow S s) : (S.advertise s).Fits := by
  have hcount : frameCount S.mode s.payload ≤ 4095 := by
    obtain ⟨h1, -, hend⟩ := hwin
    simp only [firstDataEndpoint, endpointMax] at h1 hend
    omega
  have htotal := (total_bounds S.mode s.payload hwin.2.1).1
  have hdata : S.mode.maxData ≤ 64 := by cases S.mode <;> decide
  have hle : frameCount S.mode s.payload * S.mode.maxData ≤ 4095 * 64 := Nat.mul_le_mul hcount hdata
  refine ⟨?_, ?_, ?_, ?_⟩
  · exact Nat.lt_trans (encodeCanId_lt _ _ _) (by decide)
  · show s.payload.length < 2 ^ 32
    omega
  · show frameCount S.mode s.payload < 2 ^ 16
    omega
  · exact s.target.toNat_lt

theorem fits_hello (S : CanConfig) : S.helloAdvertise.Fits :=
  ⟨Nat.lt_trans (encodeCanId_lt _ _ _) (by decide), Nat.two_pow_pos 32, Nat.two_pow_pos 16,
    show 0xFFFF < 2 ^ 16 by decide⟩

theorem speech_eq (hpath : S.path.length ≤ maxPathLen) (adv : Advertise) :
    S.speech adv = encodeAdvertise adv S.path := if_pos hpath

theorem speech_ne_nil (hpath : S.path.length ≤ maxPathLen) (adv : Advertise) : S.speech adv ≠ [] := by
  intro h
  have hlen := congrArg List.length h
  rw [speech_eq hpath, length_encodeAdvertise, headerSize] at hlen
  simp at hlen

theorem DeliveredOnce.congr {p' : Producer} (h : DeliveredOnce S R p r)
    (hsent : ∀ (g : Nat) s, p.sent[g]? = some s → p'.sent[g]? = some s)
    (hout : ∀ (g : Nat) s, R.isFor s.target.toNat = true →
      (p'.sent[g]? = some s ∧ p'.AllOut S g s ↔ p.sent[g]? = some s ∧ p.AllOut S g s)) :
    DeliveredOnce S R p' r := by
  obtain ⟨order, hnodup, hdel, hmem⟩ := h
  refine ⟨order, hnodup, ?_, fun g => ?_⟩
  · rw [hdel]
    refine filterMap_congr fun g hg => ?_
    obtain ⟨s, hs, -, -⟩ := (hmem g).mp hg
    rw [hs, hsent g s hs]
  · rw [hmem]
    constructor
    · rintro ⟨s, hs, ha, hall⟩
      obtain ⟨hs', hall'⟩ := (hout g s ha).mpr ⟨hs, hall⟩
      exact ⟨s, hs', ha, hall'⟩
    · rintro ⟨s, hs, ha, hall⟩
      obtain ⟨hs', hall'⟩ := (hout g s ha).mp ⟨hs, hall⟩
      exact ⟨s, hs', ha, hall'⟩

theorem above_flights (h : InStep S R p r) {count base : Nat} (hb : p.allocBase count = some base) :
    (base = p.next ∨ p.flights = []) ∧ ∀ g i s, (g, i) ∈ p.flights → p.sent[g]? = some s →
      s.base + frameCount S.mode s.payload ≤ base := by
  have hcases : base = p.next ∨ p.flights = [] := by
    rw [Producer.allocBase] at hb
    split at hb
    · exact .inl (Option.some.inj hb).symm
    split at hb
    next hempty =>
      exact .inr (List.isEmpty_iff.mp hempty)
    · cases hb
  refine ⟨hcases, fun g i s hg hs => ?_⟩
  rcases hcases with rfl | hnil
  · obtain ⟨s', hs', hle⟩ := h.flights g i hg
    obtain rfl := Option.some.inj (hs.symm.trans hs')
    exact hle
  · rw [hnil] at hg
    cases hg

variable {g i : Nat}

section

variable (h : InStep S R p r)
include h

theorem InStep.lt_of_flight (hg : (g, i) ∈ p.flights) : g < p.sent.length := by
  obtain ⟨s, hs, -⟩ := h.flights g i hg
  exact (List.getElem?_eq_some_iff.mp hs).1

/-- **A send** reserves a run on top of those in flight. -/
theorem InStep.send (hpath : S.path.length ≤ maxPathLen)
    (payload : List UInt8) (target : UInt16) : InStep S R (p.send S payload target) r := by
  have hconf := h.conforming.step (.send payload target)
  rw [Producer.step] at hconf
  rcases Producer.send_cases (S := S) p payload target with heq | ⟨base, hb, hv, hpos, -, heq⟩
  · rw [heq]
    exact h
  rw [heq] at hconf ⊢
  obtain ⟨hbase, habove⟩ := above_flights h hb
  have hfresh : ∀ g i, (g, i) ∈ p.flights → g ≠ p.sent.length := fun g i hg =>
    Nat.ne_of_lt (h.lt_of_flight hg)
  have hold : ∀ {g : Nat} {s : Sent}, g ≠ p.sent.length →
      ((p.sent ++ [⟨payload, target, base⟩])[g]? = some s ↔ p.sent[g]? = some s) := by
    intro g s hg
    rw [List.getElem?_append]
    split
    · rfl
    · rw [List.getElem?_singleton, if_neg (by omega), List.getElem?_eq_none (by omega)]
  refine ⟨h.keyed.put _ _, hconf, ?_, h.chart, h.pending, ?_, ?_, ?_, ?_⟩
  · intro g i hg
    rcases Table.mem_put.mp hg with he | ⟨he, hne⟩
    · cases he
      exact ⟨_, List.getElem?_concat_length, le_rfl⟩
    · obtain ⟨s, hs, -⟩ := h.flights g i he
      exact ⟨s, (hold hne).mpr hs, Nat.le_trans (habove g i s he hs) (Nat.le_add_right _ _)⟩
  · intro g i s hlook hann hs
    have hne : g ≠ p.sent.length := fun he => hann ⟨speech_ne_nil hpath _, he.symm⟩
    rw [Table.lookup_put_ne hne] at hlook
    exact h.heard g i s hlook (fun ha => ha.1 hv) ((hold hne).mp hs)
  · intro hnil
    exact absurd hnil (speech_ne_nil hpath _)
  · intro _
    obtain ⟨hctl, hlast⟩ := h.quiet hv
    refine ⟨S.advertise ⟨payload, target, base⟩, fits_advertise (hconf.window _ (by simp)), ?_, ?_, ?_⟩
    · rw [hctl]
      exact speech_eq hpath _
    · rw [hctl]
      exact forall_mem_nil _
    · refine .group _ List.getElem?_concat_length rfl (Table.lookup_put_self _ _ _) ?_
        (Nat.lt_add_of_pos_right hpos) ?_
      · intro g i s' hg hne hs'
        rcases Table.mem_put.mp hg with he | ⟨he, -⟩
        · exact absurd (Prod.mk.inj he).1 hne
        · exact habove g i s' he ((hold hne).mp hs')
      · rcases hbase with rfl | hnil
        · exact .inl hlast
        refine .inr fun f hf => ?_
        rcases Table.mem_put.mp hf with he | ⟨he, -⟩
        · exact congrArg Prod.fst he
        · rw [hnil] at he
          cases he
  · refine h.delivered.congr (fun g s hs => ?_) (fun g s _ => ?_)
    · exact (hold (Nat.ne_of_lt (List.getElem?_eq_some_iff.mp hs).1)).mpr hs
    · by_cases hg : g = p.sent.length
      · subst hg
        constructor
        · rintro ⟨hs, hall⟩
          have hzero := hall 0 (Table.lookup_put_self _ _ _)
          rw [List.getElem?_concat_length] at hs
          rw [← Option.some.inj hs] at hzero
          exact absurd hzero (Nat.not_le.mpr hpos)
        · rintro ⟨hs, -⟩
          exact absurd (List.getElem?_eq_some_iff.mp hs).1 (Nat.lt_irrefl _)
      · rw [Producer.AllOut, Producer.AllOut, Table.lookup_put_ne hg, hold hg]

theorem InStep.hello (hpath : S.path.length ≤ maxPathLen) : InStep S R (p.hello S) r := by
  have hconf := h.conforming.step .hello
  rw [Producer.step] at hconf
  rw [Producer.hello] at hconf ⊢
  by_cases hv : p.voice ≠ []
  · rw [if_pos hv]
    exact h
  rw [if_neg hv] at hconf ⊢
  have hv' : p.voice = [] := Classical.not_not.mp hv
  obtain ⟨hctl, hlast⟩ := h.quiet hv'
  refine ⟨h.keyed, hconf, h.flights, h.chart, h.pending, ?_, ?_, ?_, h.delivered⟩
  · intro g i s hlook _ hs
    exact h.heard g i s hlook (fun ha => hv ha.1) hs
  · intro hnil
    exact absurd hnil (speech_ne_nil hpath _)
  · intro _
    refine ⟨S.helloAdvertise, fits_hello S, ?_, ?_, .hello rfl (fun i hi => ?_) hlast⟩
    · rw [hctl]
      exact speech_eq hpath _
    · rw [hctl]
      exact forall_mem_nil _
    · exact absurd (h.lt_of_flight hi) (Nat.lt_irrefl _)

theorem InStep.finish (group : Nat) : InStep S R (p.finish S group) r := by
  have hconf := h.conforming.step (.finish group)
  rw [Producer.step] at hconf
  rcases Producer.finish_cases (S := S) p group with heq | ⟨i, s, hlook, hs, hle, hv, heq⟩
  · rw [heq]
    exact h
  rw [heq] at hconf ⊢
  refine ⟨h.keyed.erase _, hconf, fun g j hg => h.flights g j (Table.mem_erase.mp hg).1, h.chart,
    h.pending, ?_, h.quiet, fun hne => absurd hv hne, ?_⟩
  · intro g j s' hlook' hann hs'
    have hne : g ≠ group := fun he => by
      rw [he, Table.lookup_erase_self] at hlook'
      cases hlook'
    rw [Table.lookup_erase_ne hne] at hlook'
    exact h.heard g j s' hlook' hann hs'
  · refine h.delivered.congr (fun _ _ hs' => hs') (fun g s' _ => and_congr_right fun hs' => ?_)
    by_cases hg : g = group
    · subst hg
      obtain rfl := Option.some.inj (hs.symm.trans hs')
      refine iff_of_true (fun j hj => ?_) (fun j hj => ?_)
      · rw [Table.lookup_erase_self] at hj
        cases hj
      · rw [Option.some.inj (hlook.symm.trans hj)] at hle
        exact hle
    · rw [Producer.AllOut, Producer.AllOut, Table.lookup_erase_ne hg]

end

/-! ## The control stream -/

variable {buf : List Tagged} {adv : Advertise}

section

variable {path : List UInt8} (ha : adv.Fits) (hp : path.length ≤ maxPathLen)
include ha hp

theorem drain_part {n : Nat} (hbuf : buf.map Prod.fst = (encodeAdvertise adv path).take n)
    (hn : n < headerSize + path.length) : drain buf.length buf = ([], buf) := by
  obtain ⟨hnone, hyet⟩ := decodeAdvertise_take ha hp hn
  cases buf with
  | nil => rfl
  | cons b buf =>
    rw [length_cons, drain, hbuf, hnone, hyet]
    rfl

theorem drain_whole (hbuf : buf.map Prod.fst = encodeAdvertise adv path) :
    drain buf.length buf = ([(adv, sourceOf buf)], []) := by
  have hdec := decodeAdvertise_encode ha hp []
  rw [append_nil, ← hbuf] at hdec
  have hlen : buf.length = headerSize + path.length := by
    rw [← length_encodeAdvertise adv path, ← hbuf, length_map]
  obtain ⟨k, hk⟩ : ∃ k, buf.length = k + 1 := ⟨17 + path.length, by rw [hlen, headerSize]; omega⟩
  have hempty : buf.isEmpty = false := by
    cases buf with
    | nil => cases hk
    | cons b buf => rfl
  rw [hk, drain, hempty, hdec, ← hlen, if_neg (by decide)]
  dsimp only
  rw [drop_length, take_length]
  cases k <;> rfl

end

theorem sourceOf_eq {tag : Nat} (hne : buf ≠ []) (h : ∀ x ∈ buf, x.2 = tag) : sourceOf buf = some tag := by
  cases buf with
  | nil => exact absurd rfl hne
  | cons b buf =>
    have hb := h b mem_cons_self
    rw [sourceOf, if_pos, hb]
    refine all_eq_true.mpr fun x hx => ?_
    rw [h x (mem_cons_of_mem b hx), hb]
    exact beq_self_eq_true tag

variable {f : CanFrame}

theorem onRx_idOf (hver : S.version = R.version) (hnode : S.node ≠ R.node) (hpend : r.pending = [])
    {endpoint : Nat} (he : endpoint ≤ endpointMax) (hf : f.id = S.idOf endpoint)
    (now : Nat) (draws : Nat → Draws) : r.onRx R f now draws =
      if endpoint = controlEndpoint then r.onControl R f now draws
      else r.processData R f now (draws 0) := by
  have hexp : r.expirePending R now = r := by
    cases r with
    | mk nodes learned groups pending delivered filed swept refused parked =>
      obtain rfl : pending = [] := hpend
      rfl
  rw [Receiver.onRx, if_neg, hexp, hf, CanConfig.endpointOf_idOf he]
  rw [hf, S.versionOf_idOf, S.nodeOf_idOf]
  have hlt := encodeCanId_lt S.version S.node endpoint
  rintro (h | h | h)
  · exact absurd hlt (Nat.not_lt.mpr h)
  · exact h hver
  · exact hnode h

variable {now : Nat} {draws : Nat → Draws}

theorem onControl_eq (href : (r.onControl R f now draws).refused ≤ r.refused) : r.onControl R f now draws =
      let buf := (r.nodes (nodeOf f.id)).control ++ f.data.map fun b => (b, f.group)
      Receiver.setControl (((drain buf.length buf).1.zipIdx 1).foldl
        (fun r a => r.learnAdvertise R f.id a.1.1 a.1.2 now (draws a.2)) r) (nodeOf f.id)
        (drain buf.length buf).2 := by
  rw [Receiver.onControl] at href ⊢
  dsimp only at href ⊢
  split at href
  · exact absurd href (Nat.not_succ_le_self _)
  next hok =>
    rw [if_neg hok]

variable {r' : Receiver}

theorem Heard.congr (h : Heard S R r g i s)
    (hl : r'.learned = r.learned) (hg : r'.groups = r.groups) : Heard S R r' g i s :=
  ⟨hl ▸ h.binding, fun ha hi => hg ▸ h.partly ha hi⟩

theorem DeliveredOnce.of_eq (h : DeliveredOnce S R p r)
    (hd : r'.delivered = r.delivered) : DeliveredOnce S R p r' := by
  rw [DeliveredOnce, hd]
  exact h

theorem below_of_le {s' : Sent} (hs : InWindow S s) (hs' : InWindow S s')
    (h : s'.base + frameCount S.mode s'.payload ≤ s.base) :
    S.idOf s'.base + (S.advertise s').count ≤ S.idOf s.base := by
  rw [CanConfig.idOf_eq hs.base_le, CanConfig.idOf_eq hs'.base_le]
  show S.idOf 0 + s'.base + frameCount S.mode s'.payload ≤ S.idOf 0 + s.base
  omega

theorem InStep.onRx_speak (h : InStep S R p r) (hpath : S.path.length ≤ maxPathLen)
    (hver : S.version = R.version) (hnode : S.node ≠ R.node) (hv : p.voice ≠ [])
    (hf : f = ⟨S.idOf controlEndpoint, false, p.voice.take 8, p.speaker⟩)
    (href : (r.onRx R f now draws).refused ≤ r.refused) :
    ∃ adv, adv.Fits ∧ Speaks S p (r.nodes S.node).lastBase adv ∧
      ((p.voice.drop 8 ≠ [] ∧ ∃ buf, r.onRx R f now draws = r.setControl S.node buf ∧
          buf.map Prod.fst ++ p.voice.drop 8 = encodeAdvertise adv S.path ∧ ∀ x ∈ buf, x.2 = p.speaker) ∨
        (p.voice.drop 8 = [] ∧ r.onRx R f now draws =
          Receiver.setControl (r.learnAdvertise R (S.idOf controlEndpoint) adv (some p.speaker) now
            (draws 1)) S.node [])) := by
  obtain ⟨adv, hfits, hstream, htags, hspeaks⟩ := h.voice hv
  refine ⟨adv, hfits, hspeaks, ?_⟩
  have hrx : r.onRx R f now draws = r.onControl R f now draws :=
    (onRx_idOf hver hnode h.pending (Nat.zero_le _) (by rw [hf]; rfl) now draws).trans (if_pos rfl)
  rw [hrx] at href ⊢
  rw [onControl_eq href]
  have hid : f.id = S.idOf controlEndpoint := by rw [hf]
  have hdata : (f.data.map fun b => (b, f.group)) = (p.voice.take 8).map fun b => (b, p.speaker) := by
    rw [hf]
  rw [hid, S.nodeOf_idOf, hdata]
  dsimp only
  generalize hbuf : (r.nodes S.node).control ++ (p.voice.take 8).map (fun b => (b, p.speaker)) = buf
  have hfst : buf.map Prod.fst ++ p.voice.drop 8 = encodeAdvertise adv S.path := by
    rw [← hstream, ← hbuf, map_append, map_map, append_assoc]
    congr 1
    rw [show (Prod.fst ∘ fun b : UInt8 => (b, p.speaker)) = id from rfl, map_id, take_append_drop]
  have htag : ∀ x ∈ buf, x.2 = p.speaker := by
    rw [← hbuf]
    exact forall_mem_append.mpr ⟨htags, forall_mem_map.mpr fun _ _ => rfl⟩
  by_cases hrest : p.voice.drop 8 = []
  · refine .inr ⟨hrest, ?_⟩
    rw [hrest, append_nil] at hfst
    have hne : buf ≠ [] := by
      intro hnil
      rw [hnil, encodeAdvertise] at hfst
      exact absurd hfst (by simp [encodeHeader])
    rw [drain_whole hfits hpath hfst, sourceOf_eq hne htag]
    rfl
  · refine .inl ⟨hrest, buf, ?_, hfst, htag⟩
    have hlen : buf.length < headerSize + S.path.length := by
      have hpos := length_pos_iff.mpr hrest
      rw [← length_encodeAdvertise adv S.path, ← hfst, length_append, length_map]
      omega
    have htake : buf.map Prod.fst = (encodeAdvertise adv S.path).take buf.length := by
      rw [← hfst, take_left' (length_map _)]
    rw [drain_part hfits hpath htake hlen]
    rfl

theorem learnAdvertise_hello {group : Nat} {draws : Draws}
    (hswept : (r.learnAdvertise R (S.idOf controlEndpoint) S.helloAdvertise (some group) now
      draws).swept ≤ r.swept) :
    r.learnAdvertise R (S.idOf controlEndpoint) S.helloAdvertise (some group) now draws = r := by
  have heq : r.learnAdvertise R (S.idOf controlEndpoint) S.helloAdvertise (some group) now draws =
      r.sweep R now := by
    rw [Receiver.learnAdvertise]
    exact if_pos rfl
  rw [heq] at hswept ⊢
  exact Receiver.sweep_eq hswept

/-- Once the run of an advertise is learned, it and the runs still under way are heard. -/
theorem InStep.heard_learned (h : InStep S R p r) (hs : p.sent[p.speaker]? = some s)
    (hzero : Table.lookup p.speaker p.flights = some 0)
    (htop : ∀ g i s', (g, i) ∈ p.flights → g ≠ p.speaker → p.sent[g]? = some s' →
      s'.base + frameCount S.mode s'.payload ≤ s.base)
    (hlap : (r.nodes S.node).lastBase < s.base ∨ ∀ f ∈ p.flights, f.1 = p.speaker)
    (hfollow : Receiver.Follows S R s p.speaker r r') {s' : Sent}
    (hlook : Table.lookup g p.flights = some i) (hs' : p.sent[g]? = some s') : Heard S R r' g i s' := by
  by_cases hg : g = p.speaker
  · -- the run just learned, of which nothing is out
    subst hg
    obtain rfl := Option.some.inj (hs.symm.trans hs')
    obtain rfl := Option.some.inj (hzero.symm.trans hlook)
    refine ⟨hfollow.binding, fun ha _ => ?_⟩
    obtain ⟨t, ht⟩ := hfollow.fresh ha
    exact ⟨_, ht, Receiver.partly_fresh S R s t⟩
  -- another run, which lies below it; there is none where the lap came round
  have hmem := Table.mem_of_lookup hlook
  have hlt := hlap.resolve_right fun hall => hg (hall _ hmem)
  have hheard := h.heard g i s' hlook (fun ha => hg ha.2.symm) hs'
  have hbelow := below_of_le (h.conforming.window s (mem_of_getElem? hs))
    (h.conforming.window s' (mem_of_getElem? hs')) (htop g i s' hmem hg hs')
  obtain ⟨hkept, hlook'⟩ := hfollow.kept hlt _ _ hheard.binding hbelow
  refine ⟨hkept, fun ha hi => ?_⟩
  obtain ⟨grp, hgrp, hpart⟩ := hheard.partly ha hi
  exact ⟨grp, hlook'.trans hgrp, hpart⟩

/-- **The next piece of an advertise** keeps the receiver in step: the last one makes it learn the
run. -/
theorem InStep.speak (h : InStep S R p r) (hpath : S.path.length ≤ maxPathLen)
    (hver : S.version = R.version) (hnode : S.node ≠ R.node) (hmode : S.mode = .fd → R.mode = .fd)
    (hv : p.voice ≠ []) (hf : f = ⟨S.idOf controlEndpoint, false, p.voice.take 8, p.speaker⟩)
    (href : (r.onRx R f now draws).refused ≤ r.refused) (hswept : (r.onRx R f now draws).swept ≤ r.swept) :
    InStep S R (p.speak S) (r.onRx R f now draws) := by
  have hconf := h.conforming.step .speak
  rw [Producer.step] at hconf
  rw [Producer.speak, if_neg hv] at hconf ⊢
  obtain ⟨adv, hfits, hspeaks, hcase⟩ := h.onRx_speak hpath hver hnode hv hf href
  rcases hcase with ⟨hrest, buf, heq, hbuf, htag⟩ | ⟨hrest, heq⟩
  · rw [heq]
    refine ⟨h.keyed, hconf, h.flights, h.chart, h.pending, ?_, fun hnil => absurd hnil hrest, ?_,
      h.delivered⟩
    · intro g i s hlook hann hs
      exact (h.heard g i s hlook (fun ha => hann ⟨hrest, ha.2⟩) hs).congr rfl rfl
    · intro _
      refine ⟨adv, hfits, ?_, ?_, ?_⟩
      · rw [Receiver.setControl_control]
        exact hbuf
      · rw [Receiver.setControl_control]
        exact htag
      · rw [Receiver.setControl_lastBase]
        cases hspeaks with
        | hello hadv hnone hlap => exact .hello hadv hnone hlap
        | group s hs hadv hzero htop hnext hlap => exact .group s hs hadv hzero htop hnext hlap
  rw [heq] at href hswept ⊢
  cases hspeaks with
  | hello hadv hnone hlap =>
    subst hadv
    have hsame : r.learnAdvertise R (S.idOf controlEndpoint) S.helloAdvertise (some p.speaker) now
        (draws 1) = r := learnAdvertise_hello hswept
    rw [hsame]
    refine ⟨h.keyed, hconf, h.flights, h.chart, h.pending, ?_, ?_, fun hne => absurd hrest hne,
      h.delivered⟩
    · intro g i s hlook _ hs
      refine (h.heard g i s hlook (fun ha => ?_) hs).congr rfl rfl
      exact hnone i (ha.2 ▸ Table.mem_of_lookup hlook)
    · intro _
      rw [Receiver.setControl_control, Receiver.setControl_lastBase]
      exact ⟨rfl, hlap⟩
  | group s hs hadv hzero htop hnext hlap =>
    subst hadv
    have hwin := h.conforming.window s (mem_of_getElem? hs)
    have hfollow := Receiver.follows_learnAdvertise h.chart hwin hmode h.pending href hswept
    generalize r.learnAdvertise R (S.idOf controlEndpoint) (S.advertise s) (some p.speaker) now
      (draws 1) = r' at hfollow ⊢
    refine ⟨h.keyed, hconf, h.flights, hfollow.chart, hfollow.pending, ?_, ?_,
      fun hne => absurd hrest hne, h.delivered.of_eq hfollow.delivered⟩
    · intro g i s' hlook _ hs'
      exact (h.heard_learned hs hzero htop hlap hfollow hlook hs').congr rfl rfl
    · intro _
      rw [Receiver.setControl_control, Receiver.setControl_lastBase, hfollow.lastBase]
      exact ⟨rfl, hnext⟩

/-! ## Slices -/

theorem InStep.base_ne (h : InStep S R p r) {g i s g' i' s'}
    (hh : Heard S R r g i s) (hh' : Heard S R r g' i' s') (hne : g' ≠ g) :
    S.idOf s'.base ≠ S.idOf s.base := by
  intro heq
  have hb := hh.binding
  have hb' := hh'.binding
  rw [heq] at hb'
  have := congrArg Binding.source (h.chart.keyed.unique hb' hb)
  exact hne (Option.some.inj this)

theorem Speaks.slice {lastBase : Nat} (h : Speaks S p lastBase adv)
    (hlook : Table.lookup g p.flights = some i) (hne : p.speaker ≠ g) (bus : List CanFrame) :
    Speaks S { p with flights := Table.put g (i + 1) p.flights, bus := bus } lastBase adv := by
  cases h with
  | hello hadv hnone hlap =>
    refine .hello hadv (fun j hj => ?_) hlap
    rcases Table.mem_put.mp hj with he | ⟨he, -⟩
    · exact hne (Prod.mk.inj he).1
    · exact hnone j he
  | group s hs hadv hzero htop hnext hlap =>
    refine .group s hs hadv ((Table.lookup_put_ne hne _).trans hzero) ?_ hnext ?_
    · intro g' j s' hg' hne' hs'
      rcases Table.mem_put.mp hg' with he | ⟨he, -⟩
      · obtain ⟨rfl, -⟩ := Prod.mk.inj he
        exact htop g' i s' (Table.mem_of_lookup hlook) hne' hs'
      · exact htop g' j s' he hne' hs'
    · refine hlap.imp_right fun hall f hf => ?_
      rcases Table.mem_put.mp hf with he | ⟨he, -⟩
      · exact absurd (hall _ (Table.mem_of_lookup hlook)).symm hne
      · exact hall f he

theorem InStep.slice_of (h : InStep S R p r)
    {bus : List CanFrame} (hlook : Table.lookup g p.flights = some i) (hs : p.sent[g]? = some s)
    (hann : ¬p.Announcing g)
    (hconf : Producer.Conforming S { p with flights := Table.put g (i + 1) p.flights, bus := bus })
    (hlearned : r'.learned = r.learned) (hnodes : r'.nodes = r.nodes) (hpend : r'.pending = [])
    (hown : R.isFor s.target.toNat = true → i + 1 < frameCount S.mode s.payload →
      ∃ grp, Table.lookup (S.idOf s.base) r'.groups = some grp ∧ Receiver.Partly S R s (i + 1) grp)
    (hothers : ∀ k, k ≠ S.idOf s.base → Table.lookup k r'.groups = Table.lookup k r.groups)
    (hdel : DeliveredOnce S R { p with flights := Table.put g (i + 1) p.flights, bus := bus } r') :
    InStep S R { p with flights := Table.put g (i + 1) p.flights, bus := bus } r' := by
  have hheard := h.heard g i s hlook hann hs
  refine ⟨h.keyed.put _ _, hconf, ?_, hlearned ▸ h.chart, hpend, ?_, ?_, ?_, hdel⟩
  · intro g' j hg'
    rcases Table.mem_put.mp hg' with he | ⟨he, -⟩
    · cases he
      exact h.flights g i (Table.mem_of_lookup hlook)
    · exact h.flights g' j he
  · intro g' j s' hlook' hann' hs'
    by_cases hg : g' = g
    · subst hg
      obtain rfl := Option.some.inj (hs.symm.trans hs')
      rw [Table.lookup_put_self] at hlook'
      obtain rfl := Option.some.inj hlook'
      exact ⟨hlearned ▸ hheard.binding, hown⟩
    rw [Table.lookup_put_ne hg] at hlook'
    have hheard' := h.heard g' j s' hlook' hann' hs'
    have hkey := h.base_ne hheard hheard' hg
    refine ⟨hlearned ▸ hheard'.binding, fun ha hj => ?_⟩
    rw [hothers _ hkey]
    exact hheard'.partly ha hj
  · rw [hnodes]
    exact h.quiet
  · intro hv
    rw [hnodes]
    obtain ⟨adv, hfits, hstream, htags, hspeaks⟩ := h.voice hv
    exact ⟨adv, hfits, hstream, htags, hspeaks.slice hlook (fun he => hann ⟨hv, he⟩) bus⟩

section

variable (h : DeliveredOnce S R p r) (hlook : Table.lookup g p.flights = some i) (hs : p.sent[g]? = some s) (hi : i < frameCount S.mode s.payload)
include h hlook hs hi

theorem DeliveredOnce.slice
    (hmore : R.isFor s.target.toNat = true → i + 1 < frameCount S.mode s.payload) (bus : List CanFrame) :
    DeliveredOnce S R { p with flights := Table.put g (i + 1) p.flights, bus := bus } r := by
  refine h.congr (fun _ _ hs' => hs') (fun g' s' ha => and_congr_right fun hs' => ?_)
  by_cases hg : g' = g
  · subst hg
    obtain rfl := Option.some.inj (hs.symm.trans hs')
    refine iff_of_false (fun hall => ?_) (fun hall => ?_)
    · have hle := hall (i + 1) (Table.lookup_put_self _ _ _)
      have hlt := hmore ha
      omega
    · have hle := hall i hlook
      omega
  · rw [Producer.AllOut, Producer.AllOut, Table.lookup_put_ne hg]

theorem DeliveredOnce.last (hlast : ¬i + 1 < frameCount S.mode s.payload)
    (ha : R.isFor s.target.toNat = true) (hd : r'.delivered = r.delivered ++ [(S.node, s.payload)])
    (bus : List CanFrame) :
    DeliveredOnce S R { p with flights := Table.put g (i + 1) p.flights, bus := bus } r' := by
  obtain ⟨order, hnodup, hdel, hmem⟩ := h
  have hnew : g ∉ order := by
    intro hg
    obtain ⟨s', hs', -, hall⟩ := (hmem g).mp hg
    obtain rfl := Option.some.inj (hs.symm.trans hs')
    have hle := hall i hlook
    omega
  refine ⟨order ++ [g], ?_, ?_, fun g' => ?_⟩
  · rw [nodup_append]
    refine ⟨hnodup, nodup_singleton g, fun a ha' b hb => ?_⟩
    rw [mem_singleton.mp hb]
    exact fun heq => hnew (heq ▸ ha')
  · rw [hd, hdel, filterMap_append]
    simp [hs]
  · rw [mem_append, mem_singleton, hmem]
    by_cases hg : g' = g
    · subst hg
      refine iff_of_true (.inr rfl) ⟨s, hs, ha, fun j hj => ?_⟩
      rw [Table.lookup_put_self] at hj
      rw [← Option.some.inj hj]
      omega
    · simp only [hg, or_false, Producer.AllOut, Table.lookup_put_ne hg]

end

/-- **A slice** keeps the receiver in step. -/
theorem InStep.slice (h : InStep S R p r) (hver : S.version = R.version) (hnode : S.node ≠ R.node)
    (hmode : S.mode = .fd → R.mode = .fd)
    (hlook : Table.lookup g p.flights = some i) (hs : p.sent[g]? = some s)
    (hi : i < frameCount S.mode s.payload) (hann : ¬p.Announcing g) (hconf : Producer.Conforming S
      { p with flights := Table.put g (i + 1) p.flights, bus := p.bus ++ [S.sliceFrame s g i] }) :
    InStep S R
      { p with flights := Table.put g (i + 1) p.flights, bus := p.bus ++ [S.sliceFrame s g i] }
      (r.onRx R (S.sliceFrame s g i) now draws) := by
  have hwin := h.conforming.window s (mem_of_getElem? hs)
  have hheard := h.heard g i s hlook hann hs
  have hend : s.base + i ≤ endpointMax := by
    have := hwin.2.2
    omega
  have hdata : s.base + i ≠ controlEndpoint := by
    have := hwin.1
    simp only [firstDataEndpoint, controlEndpoint] at this ⊢
    omega
  rw [onRx_idOf hver hnode h.pending hend rfl now draws, if_neg hdata]
  by_cases ha : R.isFor s.target.toNat = true
  · obtain ⟨grp, hgrp, hpart⟩ := hheard.partly ha hi
    obtain ⟨grp', hpart', heq⟩ := Receiver.processData_slice h.chart hwin hmode hheard.binding rfl
      ha rfl g now (draws 0) hi hgrp hpart
    rw [heq]
    split
    next hmore =>
      refine h.slice_of hlook hs hann hconf rfl rfl h.pending (fun _ _ => ?_) (fun k hk => ?_) ?_
      · exact ⟨grp', Table.lookup_put_self _ _ _, hpart'⟩
      · exact Table.lookup_put_ne hk _
      · exact (h.delivered.slice hlook hs hi (fun _ => hmore) _).of_eq rfl
    next hmore =>
    refine h.slice_of hlook hs hann hconf rfl rfl h.pending (fun _ hlt => absurd hlt hmore)
      (fun k hk => ?_) ?_
    · exact (Table.lookup_erase_ne hk).trans (Table.lookup_put_ne hk _)
    · exact h.delivered.last hlook hs hi hmore ha rfl _
  · rw [Receiver.processData_other h.chart hwin hheard.binding rfl hi (Bool.eq_false_of_not_eq_true ha)]
    refine h.slice_of hlook hs hann hconf rfl rfl h.pending (fun hyes => absurd hyes ha)
      (fun _ _ => rfl) ?_
    exact h.delivered.slice hlook hs hi (fun hyes => absurd hyes ha) _

/-! ## Whole runs -/

theorem Producer.step_bus (p : Producer) (c : Call) :
    (p.step S c).bus = p.bus ∨ ∃ f, (p.step S c).bus = p.bus ++ [f] := by
  cases c with
  | send payload target =>
    rcases Producer.send_cases (S := S) p payload target with heq | ⟨base, -, -, -, -, heq⟩
    all_goals exact .inl (by rw [Producer.step, heq])
  | hello =>
    rw [Producer.step, Producer.hello]
    split <;> exact .inl rfl
  | speak =>
    rw [Producer.step, Producer.speak]
    split
    · exact .inl rfl
    · exact .inr ⟨_, rfl⟩
  | slice group =>
    rcases Producer.slice_cases (S := S) p group with heq | ⟨i, s, -, -, -, -, heq⟩
    · exact .inl (by rw [Producer.step, heq])
    · exact .inr ⟨_, by rw [Producer.step, heq]⟩
  | finish group =>
    rcases Producer.finish_cases (S := S) p group with heq | ⟨i, s, -, -, -, -, heq⟩
    all_goals exact .inl (by rw [Producer.step, heq])

/-- A receiver that can follow the senders of a node: of their version, not their node, and of a width
that takes theirs. -/
structure Listens (S R : CanConfig) : Prop where
  version : S.version = R.version
  node : S.node ≠ R.node
  mode : S.mode = .fd → R.mode = .fd
  path : S.path.length ≤ maxPathLen

variable {c : Call}

theorem InStep.step_silent (h : InStep S R p r) (hl : Listens S R)
    (hbus : (p.step S c).bus = p.bus) : InStep S R (p.step S c) r := by
  have hlonger : ∀ f : CanFrame, p.bus ++ [f] ≠ p.bus := fun f heq => by
    have := congrArg List.length heq
    simp at this
  cases c with
  | send payload target => exact h.send hl.path payload target
  | hello => exact h.hello hl.path
  | finish group => exact h.finish group
  | speak =>
    rw [Producer.step, Producer.speak] at hbus ⊢
    by_cases hv : p.voice = []
    · rw [if_pos hv]
      exact h
    · rw [if_neg hv] at hbus
      exact absurd hbus (hlonger _)
  | slice group =>
    rw [Producer.step] at hbus ⊢
    rcases Producer.slice_cases (S := S) p group with heq | ⟨i, s, -, -, -, -, heq⟩
    · rw [heq]
      exact h
    · rw [heq] at hbus
      exact absurd hbus (hlonger _)

theorem InStep.step_frame (h : InStep S R p r) (hl : Listens S R)
    (hbus : (p.step S c).bus = p.bus ++ [f]) (href : (r.onRx R f now draws).refused ≤ r.refused)
    (hswept : (r.onRx R f now draws).swept ≤ r.swept) :
    InStep S R (p.step S c) (r.onRx R f now draws) := by
  have hsame : ∀ {f : CanFrame}, p.bus ≠ p.bus ++ [f] := fun {f} heq => by
    have := congrArg List.length heq
    simp at this
  have hconf := h.conforming.step c
  cases c with
  | send payload target =>
    rw [Producer.step] at hbus
    rcases Producer.send_cases (S := S) p payload target with heq | ⟨base, -, -, -, -, heq⟩
    all_goals
      rw [heq] at hbus
      exact absurd hbus hsame
  | hello =>
    rw [Producer.step, Producer.hello] at hbus
    split at hbus <;> exact absurd hbus hsame
  | finish group =>
    rw [Producer.step] at hbus
    rcases Producer.finish_cases (S := S) p group with heq | ⟨i, s, -, -, -, -, heq⟩
    all_goals
      rw [heq] at hbus
      exact absurd hbus hsame
  | speak =>
    rw [Producer.step] at hbus ⊢
    by_cases hv : p.voice = []
    · rw [Producer.speak, if_pos hv] at hbus
      exact absurd hbus hsame
    rw [Producer.speak, if_neg hv] at hbus
    have hf := head_eq_of_cons_eq (append_cancel_left hbus)
    exact h.speak hl.path hl.version hl.node hl.mode hv hf.symm href hswept
  | slice group =>
    rw [Producer.step] at hbus hconf ⊢
    rcases Producer.slice_cases (S := S) p group with heq | ⟨i, s, hlook, hs, hi, hann, heq⟩
    · rw [heq] at hbus
      exact absurd hbus hsame
    rw [heq] at hbus hconf ⊢
    have hf : S.sliceFrame s group i = f :=
      head_eq_of_cons_eq (append_cancel_left hbus)
    subst hf
    exact h.slice hl.version hl.node hl.mode hlook hs hi hann hconf

/-- **A receiver that loses nothing stays in step** with every interleaving of senders. -/
theorem inStep_run (hl : Listens S R) (calls : List Call) (arrivals : List Receiver.Arrival)
    (hbus : arrivals.map Receiver.Arrival.frame = ((producerMachine S).run calls).bus)
    (href : (Receiver.receive R {} arrivals).refused = 0)
    (hswept : (Receiver.receive R {} arrivals).swept = 0) :
    InStep S R ((producerMachine S).run calls) (Receiver.receive R {} arrivals) := by
  induction calls using List.reverseRecOn generalizing arrivals with
  | nil =>
    obtain rfl : arrivals = [] := map_eq_nil_iff.mp hbus
    exact inStep_start S R
  | append_singleton calls c ih =>
    have hrun : (producerMachine S).run (calls ++ [c]) =
        ((producerMachine S).run calls).step S c := by
      rw [Machine.run, Machine.runFrom_append]
      rfl
    rw [hrun] at hbus ⊢
    rcases Producer.step_bus (S := S) ((producerMachine S).run calls) c with hsilent | ⟨f, hframe⟩
    · rw [hsilent] at hbus
      exact (ih arrivals hbus href hswept).step_silent hl hsilent
    rw [hframe] at hbus
    obtain ⟨before, last, rfl, hbefore, hlast⟩ := map_eq_append_iff.mp hbus
    obtain ⟨a, rfl, rfl⟩ := map_eq_singleton_iff.mp hlast
    have hrx : Receiver.receive R {} (before ++ [a]) =
        (Receiver.receive R {} before).onRx R a.frame a.now a.draws := by
      rw [Receiver.receive, foldl_append]
      rfl
    rw [hrx] at href hswept ⊢
    have hlater : Receiver.Later (Receiver.receive R {} before)
        ((Receiver.receive R {} before).onRx R a.frame a.now a.draws) :=
      Receiver.later_onRx _ _ _
    have hold := ih before hbefore (by have := hlater.refused; omega)
      (by have := hlater.swept; omega)
    exact hold.step_frame hl hframe (by omega) (by omega)

/-- **Every frame is delivered once**: in every interleaving of the senders of a node, on a bus that
loses nothing and to a receiver whose budgets refuse nothing and that sweeps no group, what has been
delivered is each frame addressed to it whose slices are all out, with its bytes, once, and nothing
else.  A send of a frame within the window is such a frame, if the lock is free and the lap open. -/
theorem delivers_each_once (S R : CanConfig) (hl : Listens S R) (calls : List Call)
    (arrivals : List Receiver.Arrival)
    (hbus : arrivals.map Receiver.Arrival.frame = ((producerMachine S).run calls).bus)
    (href : (Receiver.receive R {} arrivals).refused = 0)
    (hswept : (Receiver.receive R {} arrivals).swept = 0) :
    let p := (producerMachine S).run calls
    DeliveredOnce S R p (Receiver.receive R {} arrivals) ∧
      ∀ payload target, p.voice = [] → 0 < frameCount S.mode payload →
        frameCount S.mode payload ≤ maxGroupSlices →
        p.next + frameCount S.mode payload - 1 ≤ endpointMax ∨ p.flights = [] →
          ∃ base, (p.send S payload target).sent = p.sent ++ [⟨payload, target, base⟩] :=
  ⟨(inStep_run hl calls arrivals hbus href hswept).delivered, fun _ => Producer.send_records _⟩

end

/-- Two senders: the first stalls after one of its two slices, and the second sends in between. -/
def stalledCalls : List Call :=
  [.send (List.replicate 16 1) 0xFFFF, .speak, .speak, .speak, .slice 0,
    .send (List.replicate 8 2) 2, .speak, .speak, .speak, .slice 1, .finish 1, .slice 0, .finish 0]

/-- All they write arrives: what the first wrote at once, the rest at the time given. -/
def stalledArrivals (later : Nat) : List Receiver.Arrival :=
  ((producerMachine sender).run stalledCalls).bus.zipIdx.map fun f =>
    { frame := f.1, now := if f.2 < 4 then 0 else later }

theorem listens_listener : Listens sender listener :=
  ⟨rfl, by decide, fun h => absurd h (by decide), by decide⟩

theorem delivers_each_once_stalled : (Receiver.receive listener {} (stalledArrivals 5)).delivered =
        [(1, List.replicate 8 2), (1, List.replicate 16 1)] ∧
      DeliveredOnce sender listener ((producerMachine sender).run stalledCalls)
        (Receiver.receive listener {} (stalledArrivals 5)) :=
  ⟨by decide +kernel, delivers_each_once sender listener listens_listener stalledCalls (stalledArrivals 5)
      (by decide +kernel) (by decide +kernel) (by decide +kernel) |>.1⟩

/-- **A group whose sender stalls is swept**: no frame is lost and no budget refuses anything, yet the
advertise of another sender, later than the window, sweeps the group, and its frame is never
delivered. -/
theorem swept_mid_flight : Listens sender listener ∧ (stalledArrivals 2000).map Receiver.Arrival.frame =
        ((producerMachine sender).run stalledCalls).bus ∧
      (Receiver.receive listener {} (stalledArrivals 2000)).refused = 0 ∧
      ((producerMachine sender).run stalledCalls).flights = [] ∧
      ∃ s ∈ ((producerMachine sender).run stalledCalls).sent, listener.isFor s.target.toNat = true ∧
        (sender.node, s.payload) ∉ (Receiver.receive listener {} (stalledArrivals 2000)).delivered :=
  ⟨listens_listener, by decide +kernel, by decide +kernel, by decide +kernel, by decide +kernel⟩

end LibTracer.Net.Can
