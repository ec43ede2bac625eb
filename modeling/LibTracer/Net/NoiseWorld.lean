import Mathlib.Data.List.Nodup
import Mathlib.Data.List.Perm.Subperm
import LibTracer.Net.NoiseNonces

/-!
# A Noise link over a hostile network

The two ends of a link, and a network that delivers any datagram it likes: what an end sent, late, twice
or never, or what it made up.  An ideal cipher opens what an end sealed and nothing else.

* **`handed_up_once`** — what an end hands up is what the other sealed, each frame at most once.
-/

namespace LibTracer.Net.Noise

open List Function

/-! ## The two ends -/

/-- The two ends of a link and the record of the cipher.  `taken`, `handed` and `made` are an account of
what each end took in and handed up, and of the counters a session was made for. -/
structure World (κ τ : Type) where
  link : Side → Link κ τ := fun _ => {}
  log : List (Sealed κ τ) := []
  taken : Side → List (κ × Nat) := fun _ => []
  handed : Side → List (Sealed κ τ) := fun _ => []
  made : List Nat := []

def playing (cfg : Side → LinkConfig) (side : Side) : LinkConfig := { cfg side with side := side }

/-- The frame a call of a side handed up, as the use of the other side's cipher it claims to be. -/
def handedUp {κ τ : Type} (side : Side) : Link.Call κ τ → Effect κ τ → List (Sealed κ τ)
  | .datagram (.transport _ n c) _ _ _, eff =>
    match eff.frame, eff.accepted with
    | some frame, some (k, _) => [⟨side.other, k, n, none, frame, c⟩]
    | _, _ => []
  | _, _ => []

section

variable {κ τ : Type} [DecidableEq κ] [DecidableEq τ] (C : IdealCrypto κ τ) (psk : κ)
  (cfg : Side → LinkConfig)

namespace World

def answer (w : World κ τ) (side : Side) (call : Link.Call κ τ) : Link κ τ × Effect κ τ :=
  (w.link side).step C psk (playing cfg side) (call.under (recorded w.log))

def step (w : World κ τ) (side : Side) (call : Link.Call κ τ) : World κ τ :=
  let out := w.answer C psk cfg side call
  { link := Function.update w.link side out.1
    log := w.log ++ out.2.sealed
    taken := Function.update w.taken side (w.taken side ++ out.2.accepted.toList)
    handed := Function.update w.handed side (w.handed side ++ handedUp side call out.2)
    made := w.made ++ out.2.made.toList }

end World

/-- **The world of a link**: calls on either end, in any order, with any datagrams. -/
def worldMachine : Machine (World κ τ) (Side × Link.Call κ τ) (Effect κ τ) where
  start := {}
  step w event := (w.step C psk cfg event.1 event.2, (w.answer C psk cfg event.1 event.2).2)

/-! ## Both accounts over one record -/

variable {C psk cfg}

omit [DecidableEq κ] [DecidableEq τ] in
theorem Owned.sealer {side : Side} {b : Nat} {c : Core κ} {log : List (Sealed κ τ)}
    {taken : List (κ × Nat)} (h : Owned C psk side b c log taken) {r : Sealed κ τ} (hr : r ∈ log)
    {ck : κ} (hkey : r.key = sendKey C side.other ck) : r.side = side.other := by
  by_cases hside : r.side = side
  · rcases h.seals r hr hside with ⟨-, e, -, hk⟩ | ⟨own, ck', hin⟩
    · exact absurd hkey hk.ne_sendKey
    · exact absurd (sendKey_inj (hin.key.symm.trans hkey)).1.symm side.other_ne
  · cases hs : side <;> cases hr : r.side <;> simp_all [Side.other]

variable {call : Link.Call κ τ} {w : World κ τ}

omit [DecidableEq κ] [DecidableEq τ] in
theorem Link.Call.of_under {opens opens' : Opener κ τ} {phase : Bool}
    {n source : Nat} {c : τ} {host : Host}
    (h : call.under opens = .datagram (.transport phase n c) source opens' host) :
    ∃ source' opens₀ host', call = .datagram (.transport phase n c) source' opens₀ host' ∧
      opens = opens' := by
  cases call with
  | datagram d source₀ opens₀ host₀ =>
    cases h
    exact ⟨source, opens₀, host, rfl, rfl⟩
  | _ => cases h

/-- Each end's account over the record, and what it handed up. -/
structure Sound (C : IdealCrypto κ τ) (psk : κ) (w : World κ τ) : Prop where
  owned : ∀ side, ∃ b, Owned C psk side b (w.link side).core w.log (w.taken side)
  taken : ∀ side, ((w.handed side).map fun r => (r.key, r.nonce)).Sublist (w.taken side)
  sealed : ∀ side, ∀ r ∈ w.handed side, r ∈ w.log ∧ r.side = side.other

namespace World

variable (C psk cfg) in
theorem moves {gives : Core κ → Nat → Prop} (w : World κ τ) (side : Side)
    (hgives : call.Gives gives (w.link side).core) :
    MovesTo C psk side gives (recorded w.log) (w.link side).core (w.answer C psk cfg side call) :=
  show MovesTo C psk (playing cfg side).side _ _ _ _ from
    step_moves (w.link side) (recorded w.log) hgives

variable (cfg) in
theorem owned_step (h : ∀ side, ∃ b, Owned C psk side b (w.link side).core w.log
      (w.taken side)) (side : Side) (call : Link.Call κ τ) (end' : Side) :
    ∃ b, Owned C psk end' b ((w.step C psk cfg side call).link end').core
      (w.step C psk cfg side call).log ((w.step C psk cfg side call).taken end') := by
  have hm := moves C psk cfg w side (call.gives_any _)
  by_cases he : end' = side
  · subst he
    simp only [step, update_self]
    exact hm.owned (h end')
  obtain ⟨b, hb⟩ := h end'
  simp only [step, update_of_ne he]
  exact ⟨b, hb.foreign fun r hr hs => he (hs.symm.trans (hm.side_eq r hr))⟩

theorem handedUp_cases (w : World κ τ) (side : Side) (call : Link.Call κ τ) :
    (w.answer C psk cfg side call).2.frame = none ∧ handedUp side call (w.answer C psk cfg side call).2 = [] ∨
      ∃ k n c plain, (w.answer C psk cfg side call).2.accepted = some (k, n) ∧
        recorded w.log k n none c = some plain ∧ (w.answer C psk cfg side call).2.frame = some plain ∧
          handedUp side call (w.answer C psk cfg side call).2 = [⟨side.other, k, n, none, plain, c⟩] := by
  have hquiet : ∀ eff : Effect κ τ, eff.frame = none → handedUp side call eff = [] := by
    intro eff hf
    cases call with
    | datagram d source opens host =>
      cases d with
      | transport phase n c => simp only [handedUp, hf]
      | _ => rfl
    | _ => rfl
  rcases Link.step_took C psk (playing cfg side) (w.link side) (call.under (recorded w.log)) with
    hq | ⟨phase, n, c, source, opens, host, k, plain, htook⟩
  · exact .inl ⟨hq.frame, hquiet _ hq.frame⟩
  rcases htook.frame with hf | hf
  · exact .inl ⟨hf, hquiet _ hf⟩
  obtain ⟨source, opens', host, rfl, hopens⟩ := Link.Call.of_under htook.call
  refine .inr ⟨k, n, c, plain, htook.accepted, hopens ▸ htook.opened, hf, ?_⟩
  have ha := htook.accepted
  simp only [handedUp]
  rw [show (w.answer C psk cfg side _).2.frame = some plain from hf,
    show (w.answer C psk cfg side _).2.accepted = some (k, n) from ha]

/-- **A call keeps both accounts.** -/
theorem sound_step (h : Sound C psk w) (side : Side) (call : Link.Call κ τ) :
    Sound C psk (w.step C psk cfg side call) := by
  have howned := owned_step cfg h.owned side call
  refine ⟨howned, fun place => ?_, fun place r hr => ?_⟩
  · by_cases he : place = side
    · subst he
      simp only [step, update_self, map_append]
      refine (h.taken place).append ?_
      rcases handedUp_cases w place call with ⟨-, hnone⟩ | ⟨k, n, c, plain, ha, -, -, hsome⟩
      · rw [hnone]
        exact nil_sublist _
      · rw [hsome, ha]
        exact List.Sublist.refl _
    · simp only [step, update_of_ne he]
      exact h.taken place
  · by_cases he : place = side
    · subst he
      simp only [step, update_self] at hr ⊢
      rcases mem_append.mp hr with hr | hr
      · exact ⟨mem_append_left _ (h.sealed place r hr).1, (h.sealed place r hr).2⟩
      rcases handedUp_cases w place call with ⟨-, hnone⟩ | ⟨k, n, c, plain, ha, ho, -, hsome⟩
      · rw [hnone] at hr
        cases hr
      rw [hsome] at hr
      have heq := mem_singleton.mp hr
      obtain ⟨x, hx, hk, hn, had, hc, hp⟩ := of_recorded ho
      -- the key it opened under is a receiving key, so the other side sealed it
      obtain ⟨b, hb⟩ := howned place
      have hin : (k, n) ∈ (w.step C psk cfg place call).taken place := by
        simp [step, ha]
      obtain ⟨own, ck, -, -, hck⟩ := hb.takes (k, n) hin
      obtain ⟨b', hb'⟩ := h.owned place
      have hside := hb'.sealer hx (hk.trans hck)
      have hrx : r = x := by
        rw [heq]
        cases x
        simp_all
      rw [hrx]
      exact ⟨mem_append_left _ hx, hside⟩
    · simp only [step, update_of_ne he] at hr ⊢
      exact ⟨mem_append_left _ (h.sealed place r hr).1, (h.sealed place r hr).2⟩

end World

/-! ## Every schedule -/

theorem sound_reachable (h : (worldMachine C psk cfg).Reachable w) : Sound C psk w := by
  refine (worldMachine C psk cfg).invariant ⟨fun side => ⟨0, owned_start side⟩,
    fun side => List.Sublist.refl _, fun side r hr => by cases hr⟩ (fun w event hw => ?_) h
  exact World.sound_step hw event.1 event.2

/-- **Each frame is handed up at most once**: whatever the network does, the frames an end handed up
are among those the other end sealed, each counted once, and no two of those share key and nonce.  No frame
that a call hands up is left out. -/
theorem handed_up_once (C : IdealCrypto κ τ) (psk : κ) (cfg : Side → LinkConfig)
    (events : List (Side × Link.Call κ τ)) (side : Side) :
    let w := (worldMachine C psk cfg).run events
    let sealed := w.log.filter fun r => r.side = side.other
    (w.handed side).Subperm sealed ∧ (sealed.Pairwise fun r r' => ¬ r.SameUse r') ∧
      ∀ call, (handedUp side call (w.answer C psk cfg side call).2).map Sealed.plain =
        (w.answer C psk cfg side call).2.frame.toList := by
  intro w sealed
  have hs : Sound C psk w := sound_reachable ((worldMachine C psk cfg).reachable_run events)
  obtain ⟨b, hb⟩ := hs.owned side
  obtain ⟨b', hb'⟩ := hs.owned side.other
  refine ⟨?_, ?_, fun call => ?_⟩
  · have hnodup : (w.handed side).Nodup :=
      List.Nodup.of_map _ ((hs.taken side).nodup hb.fresh)
    refine subperm_of_subset hnodup fun r hr => ?_
    obtain ⟨hlog, hside⟩ := hs.sealed side r hr
    exact mem_filter.mpr ⟨hlog, by simpa using hside⟩
  · refine (hb'.once.filter _).imp_of_mem fun hr hr' h => ?_
    exact h (by simpa using (mem_filter.mp hr).2) (by simpa using (mem_filter.mp hr').2)
  · rcases World.handedUp_cases w side call with ⟨hf, hnone⟩ | ⟨k, n, c, plain, -, -, hf, hsome⟩
    · rw [hnone, hf]
      rfl
    · rw [hsome, hf]
      rfl

end

end LibTracer.Net.Noise
