import Mathlib.Data.List.Basic

/-!
# Machines that answer

A machine takes one event at a time; each event moves the state and gives an output.  The rules
below carry a fact about one step to every history (`Machine.Reachable`).
-/

/-- A machine over states `σ`, events `ε` and outputs `ω`. -/
structure Machine (σ ε ω : Type*) where
  /-- The state before the first event. -/
  start : σ
  /-- What one event does, and what it answers. -/
  step : σ → ε → σ × ω

namespace Machine

variable {σ ε ω : Type*} (M : Machine σ ε ω)

def runFrom : σ → List ε → σ
  | s, [] => s
  | s, e :: es => runFrom (M.step s e).1 es

def run (es : List ε) : σ := M.runFrom M.start es

def Reachable (s : σ) : Prop := ∃ es, M.run es = s

theorem runFrom_append (s : σ) (es ds : List ε) :
    M.runFrom s (es ++ ds) = M.runFrom (M.runFrom s es) ds := by
  induction es generalizing s with
  | nil => rfl
  | cons e es ih => exact ih _

theorem reachable_run (es : List ε) : M.Reachable (M.run es) := ⟨es, rfl⟩

variable {M : Machine σ ε ω} {P : σ → Prop}

theorem Reachable.start : M.Reachable M.start := ⟨[], rfl⟩

theorem Reachable.step {s : σ} (h : M.Reachable s) (e : ε) : M.Reachable (M.step s e).1 := by
  obtain ⟨es, rfl⟩ := h
  exact ⟨es ++ [e], M.runFrom_append M.start es [e]⟩

theorem runFrom_invariant_of {allowed : ε → Prop}
    (hstep : ∀ s e, allowed e → P s → P (M.step s e).1) {s : σ} {es : List ε}
    (hes : ∀ e ∈ es, allowed e) (h : P s) : P (M.runFrom s es) := by
  induction es generalizing s with
  | nil => exact h
  | cons e es ih =>
    exact ih (fun d hd => hes d (List.mem_cons_of_mem e hd))
      (hstep s e (hes e List.mem_cons_self) h)

theorem runFrom_invariant (hstep : ∀ s e, P s → P (M.step s e).1) (s : σ)
    (es : List ε) (h : P s) : P (M.runFrom s es) :=
  have hany : ∀ s e, True → P s → P (M.step s e).1 := fun s e _ => hstep s e
  M.runFrom_invariant_of hany (fun _ _ => trivial) h

/-- **The invariant rule**: what holds at the start and survives every step holds in every
reachable state. -/
theorem invariant (hstart : P M.start) (hstep : ∀ s e, P s → P (M.step s e).1)
    {s : σ} (h : M.Reachable s) : P s := by
  obtain ⟨es, rfl⟩ := h
  exact M.runFrom_invariant hstep _ es hstart

end Machine

/-! ## Two machines over the same events -/

/-- A relation between the states of two machines that the starts are in and one event keeps. -/
structure Simulation {σ τ ε ω ω' : Type*} (M : Machine σ ε ω) (A : Machine τ ε ω')
    (R : σ → τ → Prop) : Prop where
  start : R M.start A.start
  step : ∀ s a e, R s a → R (M.step s e).1 (A.step a e).1

namespace Simulation

variable {σ τ ε ω ω' : Type*} {M : Machine σ ε ω} {A : Machine τ ε ω'} {R : σ → τ → Prop}

theorem runFrom_rel (h : Simulation M A R) {s : σ} {a : τ} (hr : R s a) (es : List ε) :
    R (M.runFrom s es) (A.runFrom a es) := by
  induction es generalizing s a with
  | nil => exact hr
  | cons e es ih => exact ih (h.step s a e hr)

/-- **The simulation rule**: after one history the two machines stand in related states. -/
theorem run_rel (h : Simulation M A R) (es : List ε) : R (M.run es) (A.run es) :=
  h.runFrom_rel h.start es

end Simulation
