import Mathlib.Data.List.Pairwise
import LibTracer.Net.NoiseWorld

/-!
# The two ends agree on their session

The responder keeps an answered session pending until the initiator used it, and the initiator keeps its
own unacknowledged until the responder did.  So each current session has been used by the other end, and
the counter orders the attempts.

* **`sessions_agree`** — the agreement, over every schedule.
-/

namespace LibTracer.Net.Noise

open List Function

/-! ## Where a session comes from -/

/-- The host gives a counter above the last one: how far above is the call's to choose. -/
def Link.Call.counted {κ τ : Type} (last : Nat) : Link.Call κ τ → Link.Call κ τ
  | .send iov host => .send iov { host with counter := last + 1 + host.counter }
  | .dial host => .dial { host with counter := last + 1 + host.counter }
  | call => call

def CountsUp {κ : Type} (c : Core κ) (n : Nat) : Prop := c.counter < n

theorem Link.Call.gives_counted {κ τ : Type} (L : Link κ τ) (call : Link.Call κ τ) :
    (call.counted L.counter).Gives CountsUp L.core := by
  have hlt : ∀ n, L.counter < L.counter + 1 + n := fun n => by omega
  cases call with
  | send iov host | dial host => exact hlt _
  | _ => exact trivial

section

variable {κ τ : Type} {C : IdealCrypto κ τ} {psk : κ} {side : Side} {opens : Opener κ τ}
  {c c' : Core κ} {more : List (Sealed κ τ)} {accepted : Option (κ × Nat)} {made : Option Nat}

structure Session.Same (s t : Session κ) : Prop where
  keys : t.keys = s.keys
  ck : t.ck = s.ck
  own : t.own = s.own
  counter : t.counter = s.counter
  phase : t.phase = s.phase

theorem Session.Same.refl (s : Session κ) : s.Same s := ⟨rfl, rfl, rfl, rfl, rfl⟩

/-- A session the responder has just made, for a first message that opened. -/
structure Answered (C : IdealCrypto κ τ) (psk : κ) (side : Side) (opens : Opener κ τ) (c c' : Core κ)
    (made : Option Nat) (s : Session κ) : Prop where
  listens : side = .responder
  chain : ∃ re ee ad ct plain, s.ck = chainLast C psk re (C.publicKey .responder s.own) ee ∧
    opens (firstKey C psk re) 0 ad ct = some plain ∧ s.counter = (decodeFirstPayload plain).counter
  mark : c'.mark = s.counter
  above : c.mark < s.counter
  made : made = some s.counter
  phase : s.phase = c.answerPhase
  current : c'.current = c.current

variable (C psk side opens) in
inductive Came (c c' : Core κ) (accepted : Option (κ × Nat)) (made : Option Nat) :
    Link.Slot → Session κ → Prop
  /-- It was there. -/
  | kept (place : Link.Slot) (s t : Session κ) (hs : c.slot place = some s) (same : s.Same t) :
      Came c c' accepted made place t
  /-- It was next, and a message was accepted on it. -/
  | promoted (s t : Session κ) (n : Nat) (ct : τ) (plain : List UInt8) (hs : c.next = some s)
      (same : s.Same t) (haccepted : accepted = some (s.keys.recv, n))
      (hopens : opens s.keys.recv n none ct = some plain) (hnext : c'.next = none) :
      Came c c' accepted made .current t
  /-- The second message came. -/
  | second (h : Handshake κ) (t : Session κ) (dials : side = .initiator) (hh : c.hs = some h)
      (hown : t.own = h.e)
      (hphase : ∀ s, c'.current = some s → s.phase ≠ t.phase) :
      Came c c' accepted made .next t
  /-- It was answered. -/
  | answered (t : Session κ) (h : Answered C psk side opens c c' made t) : Came c c' accepted made .next t

variable {gives : Core κ → Nat → Prop} {t : Session κ}

variable {place : Link.Slot} {r : Sealed κ τ} {cr : Core κ} {list : List Nat}

/-- **Every session of a slot was there, was promoted, or is new.** -/
theorem Move.came (hm : Move C psk side gives opens c c' more accepted made)
    (ht : c'.slot place = some t) : Came C psk side opens c c' accepted made place t := by
  cases hm with
  | stay => exact .kept place t t ht (.refl t)
  | counted n d hmay hd | wasted n flags hmay | attempted n flags hmay | marked re ct ss p d hmay hd =>
    exact .kept place t t (by cases place <;> exact ht) (.refl t)
  | sealed q s frame hs hsend hlim =>
    rw [Core.slot_put] at ht
    split at ht
    next hq =>
      cases ht
      exact .kept place s _ (hq ▸ hs) ⟨rfl, rfl, rfl, rfl, rfl⟩
    · exact .kept place t t ht (.refl t)
  | unanswered re ct ss p ss' r flags hmay hw =>
    exact .kept place t t (by cases place <;> exact ht) (.refl t)
  | unsplit re ct ss p ss' r flags hmay hw | expired hs hhs =>
    cases place with
    | current => exact .kept .current t t ht (.refl t)
    | next => cases ht
  | answered re ct ss p ss' r flags address hmay hw =>
    cases place with
    | current => exact .kept .current t t ht (.refl t)
    | next =>
      cases ht
      obtain ⟨hck, plain, ho, hp⟩ := readFirst_ck hmay.read
      obtain ⟨ee, -, -, -, hlast⟩ := writeSecond_keys hck hw
      exact .answered _ ⟨hmay.listens, ⟨re, ee, _, ct, plain, hlast, ho,
        congrArg FirstPayload.counter hp⟩, rfl, hmay.above, rfl, rfl, rfl⟩
  | second hs re ct ss flags current next stage hdials hhs hstage hr hnext =>
    rcases hnext with ⟨rfl, rfl, rfl⟩ | ⟨phase, address, rfl, rfl, rfl⟩
    · exact .kept place t t (by cases place <;> exact ht) (.refl t)
    cases place with
    | current => exact .kept .current t t (Option.filter_eq_some_iff.mp ht).1 (.refl t)
    | next =>
      cases ht
      refine .second hs _ hdials hhs rfl fun s hs' => ?_
      simpa using (Option.filter_eq_some_iff.mp hs').2
  | accepted s nonce address ct plain hs hw ho =>
    cases place with
    | current =>
      cases ht
      exact .kept .current s _ hs ⟨rfl, rfl, rfl, rfl, rfl⟩
    | next => exact .kept .next t t ht (.refl t)
  | promoted s nonce address ct plain hs hw ho =>
    cases place with
    | current =>
      cases ht
      exact .promoted s _ nonce ct plain hs ⟨rfl, rfl, rfl, rfl, rfl⟩ rfl ho rfl
    | next => cases ht

/-! ## One end -/

/-- What the stage says of the slots, and the key phases of two live sessions. -/
structure Shape (side : Side) (c : Core κ) : Prop where
  waits : ∀ h, c.hs = some h → c.stage = .awaitSecond
  empty : c.stage = .idle ∨ c.stage = .awaitSecond → c.next = none
  dials : c.stage = .awaitSecond ∨ c.stage = .unacked → side = .initiator
  phases : ∀ s t, c.current = some s → c.next = some t → s.phase ≠ t.phase

namespace Shape

theorem start (side : Side) : Shape side ({} : Core κ) where
  waits _ h := by cases h
  empty _ := rfl
  dials h := by rcases h with h | h <;> cases h
  phases _ _ h := by cases h

theorem hs_none (h : Shape side c) (hside : side = .responder) : c.hs = none := by
  cases hhs : c.hs with
  | none => rfl
  | some x => cases hside.symm.trans (h.dials (.inl (h.waits x hhs)))

theorem hs_none_of_next (h : Shape side c) {s : Session κ} (hs : c.next = some s) : c.hs = none := by
  cases hhs : c.hs with
  | none => rfl
  | some x => cases hs.symm.trans (h.empty (.inr (h.waits x hhs)))

section

variable (h : Shape side c) (hm : Move C psk side CountsUp opens c c' more accepted made)
include h hm

theorem phases_step : ∀ s t, c'.current = some s → c'.next = some t → s.phase ≠ t.phase := by
  intro s t hs ht
  have hcur : Came C psk side opens c c' accepted made .current s := hm.came hs
  have hnext : Came C psk side opens c c' accepted made .next t := hm.came ht
  cases hcur with
  | promoted s₀ _ n ct plain hs₀ same ha ho hn => cases ht.symm.trans hn
  | kept _ s₀ _ hs₀ same =>
    cases hnext with
    | kept _ t₀ _ ht₀ same' =>
      rw [same.phase, same'.phase]
      exact h.phases s₀ t₀ hs₀ ht₀
    | second x _ hdials hx hown hphase => exact hphase s hs
    | answered _ ha =>
      have hc : c.current = some s₀ := hs₀
      rw [same.phase, ha.phase, Core.answerPhase, hc]
      exact (Bool.not_ne_self s₀.phase).symm

/-- **Every move keeps the shape.** -/
theorem step : Shape side c' := by
  have hphases := h.phases_step hm
  cases hm with
  | stay => exact h
  | counted n d hmay hd | wasted n flags hmay =>
    exact ⟨fun x hx => absurd hx (by simp), h.empty, h.dials, hphases⟩
  | attempted n flags hmay =>
    exact ⟨fun _ _ => rfl, fun _ => h.empty (.inl hmay.idle), fun _ => hmay.dials, hphases⟩
  | sealed place s frame hs hsend hlim =>
    cases place with
    | current => exact ⟨h.waits, h.empty, h.dials, hphases⟩
    | next => exact ⟨h.waits, fun hst => absurd (hs.symm.trans (h.empty hst)) (by simp), h.dials, hphases⟩
  | marked re ct ss p d hmay hd | unanswered re ct ss p ss' r flags hmay hw
  | accepted s nonce address ct plain hs hw ho => exact ⟨h.waits, h.empty, h.dials, hphases⟩
  | unsplit re ct ss p ss' r flags hmay hw =>
    refine ⟨fun x hx => absurd (hx.symm.trans (h.hs_none hmay.listens)) (by simp),
      fun _ => rfl, fun hst => ?_, hphases⟩
    rcases hst with hst | hst <;> cases hst
  | answered re ct ss p ss' r flags address hmay hw =>
    refine ⟨fun x hx => absurd (hx.symm.trans (h.hs_none hmay.listens)) (by simp),
      fun hst => ?_, fun hst => ?_, hphases⟩
    all_goals rcases hst with hst | hst <;> cases hst
  | second hs re ct ss flags current next stage hdials hhs hstage hr hnext =>
    refine ⟨fun x hx => absurd hx (by simp), fun hst => ?_, fun _ => hdials, hphases⟩
    rcases hnext with ⟨rfl, rfl, rfl⟩ | ⟨phase, address, rfl, rfl, rfl⟩
    · exact h.empty (.inr hstage)
    · rcases hst with hst | hst <;> cases hst
  | promoted s nonce address ct plain hs hw ho =>
    refine ⟨fun x hx => absurd (hx.symm.trans (h.hs_none_of_next hs)) (by simp), fun _ => rfl,
      fun hst => ?_, hphases⟩
    rcases hst with hst | hst <;> cases hst
  | expired hs hhs =>
    refine ⟨fun x hx => ?_, fun _ => rfl, fun hst => ?_, hphases⟩
    · rcases hhs with rfl | ⟨rfl, hst⟩
      · cases hx
      · cases (h.waits x hx).symm.trans hst
    · rcases hst with hst | hst <;> cases hst

end

end Shape

def OpensFrom (opens : Opener κ τ) (log : List (Sealed κ τ)) : Prop :=
  ∀ k n ad ct plain, opens k n ad ct = some plain → ∃ r ∈ log, r.key = k ∧ r.plain = plain

/-- The first message of the attempt with ephemeral key `e` was sealed with counter `n`. -/
def Attempt (C : IdealCrypto κ τ) (psk : κ) (log : List (Sealed κ τ)) (e n : Nat) : Prop :=
  ∃ r ∈ log, r.key = firstKey C psk (C.publicKey .initiator e) ∧
    (decodeFirstPayload r.plain).counter = n

variable {log : List (Sealed κ τ)} {taken : List (κ × Nat)} {b : Nat}

theorem OpensFrom.mono (h : OpensFrom opens log) (more : List (Sealed κ τ)) :
    OpensFrom opens (log ++ more) := by
  intro k n ad ct plain ho
  obtain ⟨r, hr, hrest⟩ := h k n ad ct plain ho
  exact ⟨r, mem_append_left more hr, hrest⟩

variable {e n : Nat}

theorem Attempt.mono (h : Attempt C psk log e n) (more : List (Sealed κ τ)) :
    Attempt C psk (log ++ more) e n := by
  obtain ⟨r, hr, hrest⟩ := h
  exact ⟨r, mem_append_left more hr, hrest⟩

variable {re : κ}

theorem Owned.first_side (h : Owned C psk .responder b c log taken) (hr : r ∈ log)
    (hkey : r.key = firstKey C psk re) : r.side = .initiator := by
  cases hside : r.side with
  | initiator => rfl
  | responder =>
    rcases h.seals r hr hside with ⟨-, e, -, re', ee, hk⟩ | ⟨own, ck, hin⟩
    · exact absurd (hkey.symm.trans hk) (firstKey_ne_secondKey _ _ _ _)
    · exact absurd (hkey.symm.trans hin.key) (firstKey_ne_transport _ _ _)

theorem Owned.first_own (h : Owned C psk .initiator b c log taken) (hr : r ∈ log)
    (hside : r.side = .initiator) (hkey : r.key = firstKey C psk re) :
    r.nonce = 0 ∧ ∃ e, re = C.publicKey .initiator e := by
  rcases h.seals r hr hside with ⟨hn, e, -, hk⟩ | ⟨own, ck, hin⟩
  · exact ⟨hn, e, firstKey_inj (hkey.symm.trans hk)⟩
  · exact absurd (hkey.symm.trans hin.key) (firstKey_ne_transport _ _ _)

variable {ci : Core κ} {ti tr : List (κ × Nat)} {b' : Nat}

theorem Attempt.unique {n' : Nat}
    (hi : Owned C psk .initiator b ci log ti) (hr : Owned C psk .responder b' cr log tr)
    (h : Attempt C psk log e n) (h' : Attempt C psk log e n') : n = n' := by
  obtain ⟨r, hmem, hkey, hn⟩ := h
  obtain ⟨r', hmem', hkey', hn'⟩ := h'
  have hside := hr.first_side hmem hkey
  have hside' := hr.first_side hmem' hkey'
  have hsame : r.SameUse r' := ⟨hkey.trans hkey'.symm,
    (hi.first_own hmem hside hkey).1.trans (hi.first_own hmem' hside' hkey').1.symm⟩
  have heq : r = r' := by
    by_contra hne
    have hsym : Std.Symm fun x y : Sealed κ τ =>
        x.side = .initiator → y.side = .initiator → ¬ x.SameUse y :=
      ⟨fun x y hxy hy hx hs => hxy hx hy ⟨hs.1.symm, hs.2.symm⟩⟩
    exact hi.once.forall hmem hmem' hne hside hside' hsame
  rw [← hn, ← hn', heq]

variable (C psk) in
/-- What holds of the initiator: its counter is above every one it used, and what it holds belongs to
its last attempt. -/
structure Attempts (c : Core κ) (log : List (Sealed κ τ)) : Prop where
  le : ∀ r ∈ log, ∀ re, r.key = firstKey C psk re → (decodeFirstPayload r.plain).counter ≤ c.counter
  handshake : ∀ h, c.hs = some h → Attempt C psk log h.e c.counter
  session : ∀ place s, c.slot place = some s → Attempt C psk log s.own c.counter

theorem Move.counter_le (hm : Move C psk side CountsUp opens c c' more accepted made) :
    c.counter ≤ c'.counter ∧ (c.counter < c'.counter → MayAttempt side CountsUp c c'.counter) := by
  cases hm with
  | counted n d hmay hd | wasted n flags hmay | attempted n flags hmay =>
    exact ⟨le_of_lt hmay.given, fun _ => hmay⟩
  | sealed place s frame hs hsend hlim =>
    cases place <;> exact ⟨le_rfl, fun h => absurd h (lt_irrefl _)⟩
  | _ => exact ⟨le_rfl, fun h => absurd h (lt_irrefl _)⟩

theorem Shape.vacant (h : Shape side c) (hmay : MayAttempt side CountsUp c n) :
    (∀ place, c.slot place = none) ∧ c.hs = none := by
  refine ⟨fun place => ?_, ?_⟩
  · cases place with
    | current => exact hmay.noSession
    | next => exact h.empty (.inl hmay.idle)
  · cases hhs : c.hs with
    | none => rfl
    | some x => cases (h.waits x hhs).symm.trans hmay.idle

theorem writeFirst_counter {flags : UInt8} (hn : n < 2 ^ 64) :
    (decodeFirstPayload (writeFirst C psk e ⟨flags, n⟩).2.plain).counter = n :=
  congrArg FirstPayload.counter (decode_encodeFirstPayload (p := ⟨flags, n⟩) hn)

theorem Attempts.le_step (h : Attempts C psk c log) (hown : Owned C psk .initiator b c log taken)
    (hm : Move C psk .initiator CountsUp opens c c' more accepted made) :
    ∀ r ∈ log ++ more, ∀ re, r.key = firstKey C psk re →
      (decodeFirstPayload r.plain).counter ≤ c'.counter := by
  intro r hr re hkey
  rcases mem_append.mp hr with hr | hr
  · exact le_trans (h.le r hr re hkey) hm.counter_le.1
  cases hm with
  | wasted n flags hmay | attempted n flags hmay =>
    rw [mem_singleton.mp hr]
    exact le_of_eq (writeFirst_counter hmay.lt)
  | sealed place s frame hs hsend hlim =>
    have hsk : r.key = s.keys.send := by
      rw [mem_singleton.mp hr]
      rfl
    rw [hsk, (hown.session place s hs).send] at hkey
    exact absurd hkey.symm (firstKey_ne_transport _ _ _)
  | unanswered re ct ss p ss' r flags hmay hw | unsplit re ct ss p ss' r flags hmay hw
  | answered re ct ss p ss' r flags address hmay hw => exact absurd hmay.listens (by decide)
  | _ => cases hr

theorem Attempts.handshake_step (h : Attempts C psk c log)
    (hm : Move C psk .initiator CountsUp opens c c' more accepted made) :
    ∀ x, c'.hs = some x → Attempt C psk (log ++ more) x.e c'.counter := by
  intro x hx
  cases hm with
  | attempted n flags hmay =>
    cases hx
    exact ⟨_, mem_append_right _ (mem_singleton_self _), rfl, writeFirst_counter hmay.lt⟩
  | counted n d hmay hd | wasted n flags hmay
  | second hs re ct ss flags current next stage hdials hhs hstage hr hnext => cases hx
  | sealed place s frame hs hsend hlim =>
    rw [Core.put_hs] at hx
    have hold := (h.handshake x hx).mono [s.sealed C .initiator frame]
    cases place <;> exact hold
  | expired hs hhs =>
    rcases hhs with rfl | ⟨rfl, -⟩
    · cases hx
    · exact (h.handshake x hx).mono []
  | unanswered re ct ss p ss' r flags hmay hw | unsplit re ct ss p ss' r flags hmay hw
  | answered re ct ss p ss' r flags address hmay hw => exact absurd hmay.listens (by decide)
  | _ => exact (h.handshake x hx).mono []

theorem Move.counter_eq (hm : Move C psk side CountsUp opens c c' more accepted made) (h : Shape side c)
    (hheld : (∃ place s, c.slot place = some s) ∨ ∃ x, c.hs = some x) : c'.counter = c.counter := by
  obtain ⟨hle, hmay⟩ := hm.counter_le
  by_contra hne
  obtain ⟨hslots, hhs⟩ := h.vacant (hmay (by omega))
  rcases hheld with ⟨place, s, hs⟩ | ⟨x, hx⟩
  · cases hs.symm.trans (hslots place)
  · cases hx.symm.trans hhs

/-- **The initiator keeps the order of its attempts.** -/
theorem Attempts.step (h : Attempts C psk c log) (hshape : Shape .initiator c)
    (hown : Owned C psk .initiator b c log taken)
    (hm : Move C psk .initiator CountsUp opens c c' more accepted made) :
    Attempts C psk c' (log ++ more) := by
  refine ⟨h.le_step hown hm, h.handshake_step hm, fun place t ht => ?_⟩
  cases hm.came ht with
  | kept _ s _ hs same =>
    rw [hm.counter_eq hshape (.inl ⟨_, s, hs⟩), same.own]
    exact (h.session _ s hs).mono more
  | promoted s _ n ct plain hs same ha ho hn =>
    rw [hm.counter_eq hshape (.inl ⟨.next, s, hs⟩), same.own]
    exact (h.session .next s hs).mono more
  | second x _ hdials hx howne hphase =>
    rw [hm.counter_eq hshape (.inr ⟨x, hx⟩), howne]
    exact (h.handshake x hx).mono more
  | answered _ ha => exact absurd ha.listens (by decide)

theorem Attempts.foreign (h : Attempts C psk c log)
    (hr : Owned C psk .responder b cr (log ++ more) tr) (hside : ∀ r ∈ more, r.side = .responder) :
    Attempts C psk c (log ++ more) := by
  refine ⟨fun r hmem re hkey => ?_, fun x hx => (h.handshake x hx).mono more,
    fun place s hs => (h.session place s hs).mono more⟩
  rcases mem_append.mp hmem with hold | hnew
  · exact h.le r hold re hkey
  · cases (hside r hnew).symm.trans (hr.first_side hmem hkey)

variable (C psk) in
/-- What holds of the responder: each session answers an attempt of its counter, later ones have higher
counters, and none is made twice. -/
structure Answers (c : Core κ) (log : List (Sealed κ τ)) (made : List Nat) : Prop where
  session : ∀ place s, c.slot place = some s →
    (∃ e ee, s.ck = chainLast C psk (C.publicKey .initiator e) (C.publicKey .responder s.own) ee ∧
      Attempt C psk log e s.counter) ∧ s.counter ≤ c.mark ∧ s.counter ∈ made
  order : ∀ s t, c.current = some s → c.next = some t → s.counter < t.counter
  le : ∀ n ∈ made, n ≤ c.mark
  once : made.Pairwise (· < ·)

theorem Move.mark_le (hm : Move C psk side CountsUp opens c c' more accepted made) :
    c.mark ≤ c'.mark ∧ ∀ n, made = some n → c.mark < n ∧ n ≤ c'.mark := by
  cases hm with
  | marked re ct ss p d hmay hd | unanswered re ct ss p ss' r flags hmay hw
  | unsplit re ct ss p ss' r flags hmay hw =>
    exact ⟨le_of_lt hmay.above, fun n hn => by cases hn⟩
  | answered re ct ss p ss' r flags address hmay hw =>
    refine ⟨le_of_lt hmay.above, fun n hn => ?_⟩
    cases hn
    exact ⟨hmay.above, le_rfl⟩
  | sealed place s frame hs hsend hlim =>
    cases place <;> exact ⟨le_rfl, fun n hn => by cases hn⟩
  | _ => exact ⟨le_rfl, fun n hn => by cases hn⟩

variable {s : Session κ}

theorem Answered.attempt (h : Answered C psk side opens c c' made s) (hopens : OpensFrom opens log)
    (hi : Owned C psk .initiator b ci log ti) (hr : Owned C psk .responder b' c log tr) :
    ∃ e ee, s.ck = chainLast C psk (C.publicKey .initiator e) (C.publicKey .responder s.own) ee ∧
      Attempt C psk log e s.counter := by
  obtain ⟨re, ee, ad, ct, plain, hck, ho, hcounter⟩ := h.chain
  obtain ⟨r, hmem, hkey, hplain⟩ := hopens _ _ _ _ _ ho
  obtain ⟨-, e, rfl⟩ := hi.first_own hmem (hr.first_side hmem hkey) hkey
  exact ⟨e, ee, hck, r, hmem, hkey, by rw [hplain, hcounter]⟩

/-- **The responder keeps the order of its answers.** -/
theorem Answers.step (h : Answers C psk c log list) (hopens : OpensFrom opens log)
    (hi : Owned C psk .initiator b ci log ti) (hr : Owned C psk .responder b' c log tr)
    (hm : Move C psk .responder CountsUp opens c c' more accepted made) :
    Answers C psk c' (log ++ more) (list ++ made.toList) := by
  obtain ⟨hmark, hmade⟩ := hm.mark_le
  have hold : ∀ {place s t}, c.slot place = some s → s.Same t →
      (∃ e ee, t.ck = chainLast C psk (C.publicKey .initiator e) (C.publicKey .responder t.own) ee ∧
        Attempt C psk (log ++ more) e t.counter) ∧ t.counter ≤ c'.mark ∧
        t.counter ∈ list ++ made.toList := by
    intro place s t hs same
    obtain ⟨⟨e, ee, hck, hatt⟩, hle, hin⟩ := h.session place s hs
    rw [same.ck, same.own, same.counter]
    exact ⟨⟨e, ee, hck, hatt.mono more⟩, le_trans hle hmark, mem_append_left _ hin⟩
  refine ⟨fun place t ht => ?_, fun s t hs ht => ?_, fun n hn => ?_, ?_⟩
  · cases hm.came ht with
    | kept _ s _ hs same => exact hold hs same
    | promoted s _ n ct plain hs same ha ho hn =>
      exact hold (show c.slot .next = some s from hs) same
    | second x _ hdials hx hown hphase => cases hdials
    | answered _ ha =>
      obtain ⟨e, ee, hck, hatt⟩ := ha.attempt hopens hi hr
      exact ⟨⟨e, ee, hck, hatt.mono more⟩, le_of_eq ha.mark.symm,
        mem_append_right _ (by rw [ha.made]; exact mem_singleton_self _)⟩
  · have hcur : Came C psk .responder opens c c' accepted made .current s := hm.came hs
    have hnext : Came C psk .responder opens c c' accepted made .next t := hm.came ht
    cases hcur with
    | promoted s₀ _ n ct plain hs₀ same ha ho hn => cases ht.symm.trans hn
    | kept _ s₀ _ hs₀ same =>
      cases hnext with
      | kept _ t₀ _ ht₀ same' =>
        rw [same.counter, same'.counter]
        exact h.order s₀ t₀ hs₀ ht₀
      | second x _ hdials hx hown hphase => cases hdials
      | answered _ ha =>
        rw [same.counter]
        exact lt_of_le_of_lt (h.session .current s₀ hs₀).2.1 ha.above
  · rcases mem_append.mp hn with hn | hn
    · exact le_trans (h.le n hn) hmark
    · exact (hmade n (Option.mem_toList.mp hn)).2
  · refine pairwise_append.mpr ⟨h.once, ?_, fun x hx y hy => ?_⟩
    · cases made with
      | none => exact .nil
      | some n => exact pairwise_singleton _ n
    · exact lt_of_le_of_lt (h.le x hx) (hmade y (Option.mem_toList.mp hy)).1

theorem Answers.foreign (h : Answers C psk c log list) : Answers C psk c (log ++ more) list :=
  { h with
    session := fun place s hs => by
      obtain ⟨⟨e, ee, hck, hatt⟩, hrest⟩ := h.session place s hs
      exact ⟨⟨e, ee, hck, hatt.mono more⟩, hrest⟩ }

def Confirmed (c : Core κ) (log : List (Sealed κ τ)) : Prop :=
  ∀ s, c.current = some s → ∃ r ∈ log, r.key = s.keys.recv

theorem Confirmed.mono (h : Confirmed c log) : Confirmed c (log ++ more) := by
  intro s hs
  obtain ⟨r, hr, hkey⟩ := h s hs
  exact ⟨r, mem_append_left _ hr, hkey⟩

/-- **A session becomes current when the other end used it.** -/
theorem Confirmed.step (h : Confirmed c log) (hopens : OpensFrom opens log)
    (hm : Move C psk side CountsUp opens c c' more accepted made) : Confirmed c' (log ++ more) := by
  intro t ht
  have hcame : Came C psk side opens c c' accepted made .current t := hm.came ht
  cases hcame with
  | kept _ s _ hs same =>
    rw [same.keys]
    exact h.mono s hs
  | promoted s _ n ct plain hs same ha ho hn =>
    obtain ⟨r, hr, hkey, -⟩ := hopens _ _ _ _ _ ho
    exact ⟨r, mem_append_left _ hr, by rw [hkey, same.keys]⟩

/-! ## Between the ends -/

variable (C) in
/-- What holds between the ends: the responder only sends in a session the initiator used, and once it
did in a session the initiator holds, that session is its current one. -/
structure Agreed (ci cr : Core κ) (log : List (Sealed κ τ)) : Prop where
  backed : ∀ r ∈ log, ∀ ck, r.key = sendKey C .responder ck →
    ∃ r' ∈ log, r'.key = sendKey C .initiator ck
  agree : ∀ place s, ci.slot place = some s → ∀ r ∈ log, r.key = sendKey C .responder s.ck →
    ∃ t, cr.current = some t ∧ t.ck = s.ck

variable (C psk) in
/-- **What holds of the two ends** of a link. -/
structure Joint (ci cr : Core κ) (log : List (Sealed κ τ)) (ti tr : List (κ × Nat))
    (made : List Nat) : Prop where
  ownedI : ∃ b, Owned C psk .initiator b ci log ti
  ownedR : ∃ b, Owned C psk .responder b cr log tr
  shapeI : Shape .initiator ci
  shapeR : Shape .responder cr
  attempts : Attempts C psk ci log
  answers : Answers C psk cr log made
  confirmedI : Confirmed ci log
  confirmedR : Confirmed cr log
  agreed : Agreed C ci cr log

variable {ci cr ci' cr' : Core κ} {ti tr : List (κ × Nat)} {list : List Nat}

section

variable (h : Joint C psk ci cr log ti tr list)
include h

theorem Joint.unused {x : Handshake κ} (hx : ci.hs = some x)
    {ck : κ} (hck : ChainOf C psk .initiator x.e ck) : ∀ r ∈ log, r.key ≠ sendKey C .responder ck := by
  intro r hr hkey
  obtain ⟨r', hr', hkey'⟩ := h.agreed.backed r hr ck hkey
  obtain ⟨b, hi⟩ := h.ownedI
  obtain ⟨b', hresp⟩ := h.ownedR
  have hside : r'.side = .initiator := hresp.sealer hr' hkey'
  rcases hi.seals r' hr' hside with ⟨-, e, -, hk⟩ | ⟨own, ck', hin⟩
  · exact hk.ne_sendKey hkey'
  obtain ⟨-, rfl⟩ := sendKey_inj (hin.key.symm.trans hkey')
  have heq := hin.chain.own_unique hck
  have hbelow := hin.below
  have habove := (hi.handshake x hx).2.2.1
  omega

theorem Agreed.initiator (hafter : ∃ b taken, Owned C psk .initiator b ci' (log ++ more) taken)
    (hm : Move C psk .initiator CountsUp opens ci ci' more accepted made) : Agreed C ci' cr (log ++ more) := by
  obtain ⟨b, taken, hown⟩ := hafter
  -- what the responder sealed was on record before the move
  have hold : ∀ r ∈ log ++ more, ∀ ck, r.key = sendKey C .responder ck → r ∈ log := by
    intro r hr ck hkey
    rcases mem_append.mp hr with hr' | hr'
    · exact hr'
    · have hside : r.side = .responder := hown.sealer hr hkey
      cases (hm.side_eq r hr').symm.trans hside
  refine ⟨fun r hr ck hkey => ?_, fun place t ht r hr hkey => ?_⟩
  · obtain ⟨r', hr', hkey'⟩ := h.agreed.backed r (hold r hr ck hkey) ck hkey
    exact ⟨r', mem_append_left _ hr', hkey'⟩
  · have hr := hold r hr t.ck hkey
    cases hm.came ht with
    | kept _ s _ hs same =>
      rw [same.ck] at hkey ⊢
      exact h.agreed.agree _ s hs r hr hkey
    | promoted s _ n ct plain hs same ha ho hn =>
      rw [same.ck] at hkey ⊢
      exact h.agreed.agree .next s hs r hr hkey
    | second x _ hdials hx howne hphase =>
      have hchain := (hown.session .next t ht).chain
      rw [howne] at hchain
      exact absurd hkey (h.unused hx hchain r hr)
    | answered _ ha => exact absurd ha.listens (by decide)

theorem Joint.nothing_later
    {u : Session κ} (hs : ci.slot place = some s) (ht : cr.current = some t) (hck : t.ck = s.ck) :
    cr.next ≠ some u := by
  intro hu
  obtain ⟨b, hi⟩ := h.ownedI
  obtain ⟨b', hr⟩ := h.ownedR
  obtain ⟨⟨e, ee, hchain, hatt⟩, -, -⟩ := h.answers.session .current t ht
  obtain ⟨⟨e', ee', -, r, hmem, hkey, hcounter⟩, -, -⟩ := h.answers.session .next u hu
  have hown : e = s.own := by
    have hc : ChainOf C psk .initiator e s.ck := ⟨_, ee, hck.symm.trans hchain⟩
    exact hc.own_unique (hi.session place s hs).chain
  subst hown
  -- the current session has the initiator's last counter, and the pending one a higher
  have heq : t.counter = ci.counter := hatt.unique hi hr (h.attempts.session place s hs)
  have hle : u.counter ≤ ci.counter := hcounter ▸ h.attempts.le r hmem _ hkey
  have hlt := h.answers.order t u ht hu
  omega

theorem Joint.sent_current (hm : Move C psk .responder CountsUp opens cr cr' more accepted made) :
    ∀ r ∈ more, ∀ ck, r.key = sendKey C .responder ck →
      ∃ t t', cr.current = some t ∧ cr'.current = some t' ∧ t.ck = ck ∧ t'.ck = ck := by
  intro r hmem ck hkey
  obtain ⟨b, hr⟩ := h.ownedR
  have hsecond : ∀ {re : κ} {ss ss' : SymmetricState κ} {r' : Sealed κ τ} {ct : τ} {p : FirstPayload}
      {flags : UInt8}, MayAnswer C psk .responder opens cr re ct ss p →
      writeSecond C ss re cr.drawn flags = some (ss', r') → r'.key ≠ sendKey C .responder ck := by
    intro re ss ss' r' ct p flags hmay hw
    obtain ⟨ee, hk, -, -, -⟩ := writeSecond_keys (readFirst_ck hmay.read).1 hw
    rw [hk]
    exact secondKey_ne_transport _ _ _ _ _
  cases hm with
  | sealed place s frame hs hsend hlim =>
    have hcur : place = .current := by
      cases place with
      | current => rfl
      | next => exact absurd (h.shapeR.dials (.inr (hsend rfl))) (by decide)
    subst hcur
    have hsk : r.key = s.keys.send := by
      rw [mem_singleton.mp hmem]
      rfl
    rw [hsk, (hr.session .current s hs).send] at hkey
    obtain ⟨-, rfl⟩ := sendKey_inj hkey
    exact ⟨s, _, hs, rfl, rfl, rfl⟩
  | wasted n flags hmay | attempted n flags hmay => exact absurd hmay.dials (by decide)
  | unanswered re ct ss p ss' r' flags hmay hw | unsplit re ct ss p ss' r' flags hmay hw
  | answered re ct ss p ss' r' flags address hmay hw =>
    exact absurd (mem_singleton.mp hmem ▸ hkey) (hsecond hmay hw)
  | _ => cases hmem

end

theorem Move.current_kept (hm : Move C psk .responder CountsUp opens c c' more accepted made)
    (hs : c.current = some s) : ∃ t, c'.current = some t := by
  cases hm with
  | sealed place u frame hu hsend hlim =>
    cases place with
    | current => exact ⟨_, rfl⟩
    | next => exact ⟨s, hs⟩
  | accepted u nonce address ct plain hu hw ho | promoted u nonce address ct plain hu hw ho =>
    exact ⟨_, rfl⟩
  | second x re ct ss flags current next stage hdials hx hstage hr hnext => cases hdials
  | _ => exact ⟨s, hs⟩

section

variable (h : Joint C psk ci cr log ti tr list)
include h

theorem Agreed.responder (hm : Move C psk .responder CountsUp opens cr cr' more accepted made) :
    Agreed C ci cr' (log ++ more) := by
  obtain ⟨b, hr⟩ := h.ownedR
  refine ⟨fun r hmem ck hkey => ?_, fun place s hs r hmem hkey => ?_⟩
  · rcases mem_append.mp hmem with hmem | hmem
    · obtain ⟨r', hr', hkey'⟩ := h.agreed.backed r hmem ck hkey
      exact ⟨r', mem_append_left _ hr', hkey'⟩
    obtain ⟨t, -, ht, -, hck, -⟩ := h.sent_current hm r hmem ck hkey
    obtain ⟨r', hr', hkey'⟩ := h.confirmedR t ht
    refine ⟨r', mem_append_left _ hr', ?_⟩
    rw [hkey', (hr.session .current t ht).recv, hck]
    rfl
  · rcases mem_append.mp hmem with hmem | hmem
    · obtain ⟨t, ht, hck⟩ := h.agreed.agree place s hs r hmem hkey
      obtain ⟨t', ht'⟩ := hm.current_kept ht
      have hcame : Came C psk .responder opens cr cr' accepted made .current t' := hm.came ht'
      cases hcame with
      | kept _ u _ hu same =>
        have heq : t = u := Option.some.inj (ht.symm.trans hu)
        exact ⟨t', ht', by rw [same.ck, ← heq, hck]⟩
      | promoted u _ n ct plain hu same ha ho hn =>
        exact absurd hu (h.nothing_later hs ht hck)
    · obtain ⟨-, t', -, ht', -, hck'⟩ := h.sent_current hm r hmem s.ck hkey
      exact ⟨t', ht', hck'⟩

/-- **A move of the initiator keeps what holds of both ends.** -/
theorem Joint.initiator (hopens : OpensFrom opens log)
    (hm : Move C psk .initiator CountsUp opens ci ci' more accepted made) :
    Joint C psk ci' cr (log ++ more) (ti ++ accepted.toList) tr list := by
  obtain ⟨b, hi⟩ := h.ownedI
  obtain ⟨b', hr⟩ := h.ownedR
  have hafter := hm.owned h.ownedI
  exact
    { ownedI := hafter
      ownedR := ⟨b', hr.foreign fun r hmem hside =>
        absurd ((hm.side_eq r hmem).symm.trans hside) (by decide)⟩
      shapeI := h.shapeI.step hm
      shapeR := h.shapeR
      attempts := h.attempts.step h.shapeI hi hm
      answers := h.answers.foreign
      confirmedI := h.confirmedI.step hopens hm
      confirmedR := h.confirmedR.mono
      agreed := Agreed.initiator h (hafter.imp fun _ ho => ⟨_, ho⟩) hm }

/-- **A move of the responder keeps what holds of both ends.** -/
theorem Joint.responder (hopens : OpensFrom opens log)
    (hm : Move C psk .responder CountsUp opens cr cr' more accepted made) :
    Joint C psk ci cr' (log ++ more) ti (tr ++ accepted.toList) (list ++ made.toList) := by
  obtain ⟨b, hi⟩ := h.ownedI
  obtain ⟨b', hr⟩ := h.ownedR
  obtain ⟨b'', hafter⟩ := hm.owned h.ownedR
  exact
    { ownedI := ⟨b, hi.foreign fun r hmem hside =>
        absurd ((hm.side_eq r hmem).symm.trans hside) (by decide)⟩
      ownedR := ⟨b'', hafter⟩
      shapeI := h.shapeI
      shapeR := h.shapeR.step hm
      attempts := h.attempts.foreign hafter hm.side_eq
      answers := h.answers.step hopens hi hr hm
      confirmedI := h.confirmedI.mono
      confirmedR := h.confirmedR.step hopens hm
      agreed := Agreed.responder h hm }

end

theorem Move.made_none (hm : Move C psk .initiator CountsUp opens c c' more accepted made) : made = none := by
  cases hm with
  | answered re ct ss p ss' r flags address hmay hw => exact absurd hmay.listens (by decide)
  | _ => rfl

theorem MovesTo.current {out : Link κ τ × Effect κ τ} (hm : MovesTo C psk side gives opens c out)
    (ht : out.1.current = some t) :
    (∃ s, c.current = some s ∧ s.keys = t.keys) ∨ ∃ n, out.2.accepted = some (t.keys.recv, n) := by
  obtain ⟨mid, s₁, s₂, h₁, h₂, -⟩ := hm
  have hlast : Came C psk side opens mid out.1.core none none .current t := h₂.came ht
  cases hlast with
  | kept _ u _ hu same =>
    have hfirst : Came C psk side opens c mid out.2.accepted out.2.made .current u := h₁.came hu
    cases hfirst with
    | kept _ s _ hs same' => exact .inl ⟨s, hs, by rw [same.keys, same'.keys]⟩
    | promoted s _ n ct plain hs same' ha ho hn =>
      exact .inr ⟨n, by rw [ha, same.keys, same'.keys]⟩
  | promoted u _ n ct plain hu same ha ho hn => cases ha

end

/-! ## Every schedule -/

section

variable {κ τ : Type} [DecidableEq κ] [DecidableEq τ] {C : IdealCrypto κ τ} {psk : κ}
  {cfg : Side → LinkConfig}

theorem opensFrom_recorded (log : List (Sealed κ τ)) : OpensFrom (recorded log) log := by
  intro k n ad ct plain ho
  obtain ⟨r, hr, hkey, -, -, -, hplain⟩ := of_recorded ho
  exact ⟨r, hr, hkey, hplain⟩

variable {call : Link.Call κ τ}

namespace World

variable (C psk) in
def Joined (w : World κ τ) : Prop :=
  Joint C psk (w.link .initiator).core (w.link .responder).core w.log (w.taken .initiator)
    (w.taken .responder) w.made

omit [DecidableEq κ] [DecidableEq τ] in
theorem joined_start : Joined C psk ({} : World κ τ) where
  ownedI := ⟨0, owned_start _⟩
  ownedR := ⟨0, owned_start _⟩
  shapeI := .start _
  shapeR := .start _
  attempts :=
    { le := fun r hr => by cases hr
      handshake := fun x hx => by cases hx
      session := fun place s hs => by cases place <;> cases hs }
  answers :=
    { session := fun place s hs => by cases place <;> cases hs
      order := fun s t hs => by cases hs
      le := fun n hn => by cases hn
      once := .nil }
  confirmedI s hs := by cases hs
  confirmedR s hs := by cases hs
  agreed :=
    { backed := fun r hr => by cases hr
      agree := fun place s hs => by cases place <;> cases hs }

/-- **A call on either end keeps what holds of both.** -/
theorem joined_step {w : World κ τ} (h : w.Joined C psk) (side : Side)
    (hcount : call.Gives CountsUp (w.link side).core) : (w.step C psk cfg side call).Joined C psk := by
  obtain ⟨mid, s₁, s₂, h₁, h₂, hsealed⟩ := moves C psk cfg w side hcount
  have hopens := opensFrom_recorded w.log
  unfold Joined
  cases side with
  | initiator =>
    have hmade := h₁.made_none
    have hend := (Joint.initiator h hopens h₁).initiator (hopens.mono s₁) h₂
    rw [append_assoc, ← hsealed, Option.toList_none, append_nil] at hend
    simpa [step, hmade, update_self, update_of_ne] using hend
  | responder =>
    have hend := (Joint.responder h hopens h₁).responder (hopens.mono s₁) h₂
    rw [append_assoc, ← hsealed, Option.toList_none, Option.toList_none, append_nil, append_nil] at hend
    simpa [step, update_self, update_of_ne] using hend

end World

variable (C psk cfg) in
def countingMachine : Machine (World κ τ) (Side × Link.Call κ τ) (Effect κ τ) where
  start := {}
  step w event :=
    (worldMachine C psk cfg).step w (event.1, event.2.counted (w.link event.1).counter)

variable {w : World κ τ}

theorem joined_reachable (h : (countingMachine C psk cfg).Reachable w) : w.Joined C psk :=
  (countingMachine C psk cfg).invariant World.joined_start
    (fun w event hw => World.joined_step hw event.1 (event.2.gives_counted (w.link event.1))) h

omit [DecidableEq κ] [DecidableEq τ] in
theorem World.Joined.up (h : w.Joined C psk)
    (hup : (w.link .initiator).state (playing cfg .initiator) = .up) :
    ∃ s t, (w.link .initiator).current = some s ∧ (w.link .responder).current = some t ∧
      t.keys.send = s.keys.recv ∧ t.keys.recv = s.keys.send := by
  obtain ⟨b, hi⟩ := h.ownedI
  obtain ⟨b', hr⟩ := h.ownedR
  have hsome : (w.link .initiator).current.isSome = true := by
    by_contra hnone
    simp only [Link.state, playing] at hup
    rw [if_neg hnone] at hup
    split at hup <;> cases hup
  obtain ⟨s, hs⟩ := Option.isSome_iff_exists.mp hsome
  have hses := hi.session .current s hs
  obtain ⟨r, hmem, hkey⟩ := h.confirmedI s hs
  obtain ⟨t, ht, hck⟩ := h.agreed.agree .current s hs r hmem (hkey.trans hses.recv)
  have hses' := hr.session .current t ht
  refine ⟨s, t, hs, ht, ?_, ?_⟩
  · rw [hses'.send, hses.recv, hck]
    rfl
  · rw [hses'.recv, hses.send, hck]
    rfl

theorem World.replaced {side : Side} {t : Session κ}
    (ht : ((w.step C psk cfg side call).link .responder).current = some t) :
    (∃ s, (w.link .responder).current = some s ∧ s.keys = t.keys) ∨ ∃ phase n c source opens host plain,
        side = .responder ∧ call = .datagram (.transport phase n c) source opens host ∧
          recorded w.log t.keys.recv n none c = some plain := by
  cases side with
  | initiator =>
    have hother : (w.step C psk cfg .initiator call).link .responder = w.link .responder := by
      simp [World.step]
    rw [hother] at ht
    exact .inl ⟨t, ht, rfl⟩
  | responder =>
    simp only [World.step, update_self] at ht
    rcases (World.moves C psk cfg w .responder (call.gives_any _)).current ht with hkept | ⟨n, ha⟩
    · exact .inl hkept
    rcases Link.step_took C psk (playing cfg .responder) (w.link .responder)
      (call.under (recorded w.log)) with hq | ⟨phase, m, c, source, opens, host, k, plain, htook⟩
    · cases ha.symm.trans hq.accepted
    obtain ⟨source', opens', host', hcall, hopens⟩ := Link.Call.of_under htook.call
    have hkn := Option.some.inj (ha.symm.trans htook.accepted)
    have hk : t.keys.recv = k := congrArg Prod.fst hkn
    exact .inr ⟨phase, m, c, source', opens', host', plain, rfl, hcall,
      by rw [hk, hopens]; exact htook.opened⟩

/-- **The two ends agree on their session**, whatever the network does: while the initiator reports up
the responder's current session has its two keys; the responder's current session only changes with a
message that opened under the new one; it makes sessions for strictly increasing counters, so at most one
for each; and two live sessions of an end differ in their key phase. -/
theorem sessions_agree (C : IdealCrypto κ τ) (psk : κ) (cfg : Side → LinkConfig)
    (events : List (Side × Link.Call κ τ)) :
    let w := (countingMachine C psk cfg).run events
    ((w.link .initiator).state (playing cfg .initiator) = .up →
      ∃ s t, (w.link .initiator).current = some s ∧ (w.link .responder).current = some t ∧
        t.keys.send = s.keys.recv ∧ t.keys.recv = s.keys.send) ∧
    (∀ side call t, ((w.step C psk cfg side call).link .responder).current = some t →
      (∃ s, (w.link .responder).current = some s ∧ s.keys = t.keys) ∨
        ∃ phase n c source opens host plain,
          side = .responder ∧ call = .datagram (.transport phase n c) source opens host ∧
            recorded w.log t.keys.recv n none c = some plain) ∧
    (w.made.Pairwise (· < ·) ∧
      ∀ place s, (w.link .responder).slot place = some s → s.counter ∈ w.made) ∧
    ∀ side s t, (w.link side).current = some s → (w.link side).next = some t →
      s.phase ≠ t.phase := by
  intro w
  have hw : w.Joined C psk := joined_reachable ((countingMachine C psk cfg).reachable_run events)
  refine ⟨hw.up, fun side call t ht => World.replaced ht, ⟨hw.answers.once, ?_⟩, ?_⟩
  · intro place s hs
    exact (hw.answers.session place s (by rw [Link.core_slot]; exact hs)).2.2
  · intro side s t hs ht
    cases side with
    | initiator => exact hw.shapeI.phases s t hs ht
    | responder => exact hw.shapeR.phases s t hs ht

end

/-- A schedule without losses: the handshake, an empty confirmation and its answer. -/
def smoothRun : List (Side × Link.Call Term (Term × Nat × List UInt8)) :=
  let psk : Term := .bytes 0
  let nothing : Opener Term (Term × Nat × List UInt8) := fun _ _ _ _ => none
  let first := writeFirst symbolic psk 0 ⟨1, 1⟩
  let re := symbolic.publicKey .initiator 0
  let second := (firstState symbolic psk re).encryptAndHash symbolic .initiator
    (encodeFirstPayload ⟨1, 1⟩)
  let answer := writeSecond symbolic second.1 re 0 2
  let cipher := (answer.map fun a => a.2.cipher).getD (psk, 0, [])
  let ck := (answer.map fun a => a.1.ck).getD psk
  [(.initiator, .dial { counter := 0 }),
    (.responder, .datagram (.first re first.2.cipher) 7 nothing {}),
    (.initiator, .datagram (.second (symbolic.publicKey .responder 0) cipher) 8 nothing {}),
    (.initiator, .sweep 10 {}),
    (.responder, .datagram (.transport false 0 (symbolic.hkdf ck none 0, 0, [])) 7 nothing {}),
    (.initiator, .datagram (.transport false 0 (symbolic.hkdf ck none 1, 0, [])) 8 nothing {})]

def smoothConfig (side : Side) : LinkConfig :=
  { side := side, maxFrame := 1000, retry := 5, retryCap := 20, attempt := 100, pendingExpiry := 100,
    peerAddress := 8 }

example : (((countingMachine symbolic (.bytes 0) smoothConfig).run smoothRun).link .initiator).state
    (playing smoothConfig .initiator) = .up := by
  decide +kernel

end LibTracer.Net.Noise
