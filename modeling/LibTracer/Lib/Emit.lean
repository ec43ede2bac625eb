import Mathlib.Data.List.Basic

/-!
# Programs that send while they run

An emitter moves a state and sends a list of outputs.  Emitters run one after the other, each from
the state the last one left; what is sent is sent in that order.

* `Emitter.OnlySends` — a property of whatever is sent, which passes from the parts to the program.
-/

/-- A step on states `σ` that sends outputs `δ`. -/
abbrev Emitter (σ δ : Type*) := σ → σ × List δ

namespace Emitter

open List

variable {α σ δ : Type*}

def skip : Emitter σ δ := fun s => (s, [])

def send (d : δ) : Emitter σ δ := fun s => (s, [d])

def silent (f : σ → σ) : Emitter σ δ := fun s => (f s, [])

def andThen (e₁ e₂ : Emitter σ δ) : Emitter σ δ := fun s =>
  let (s₁, sent) := e₁ s
  let (s₂, rest) := e₂ s₁
  (s₂, sent ++ rest)

def all (f : α → Emitter σ δ) : List α → Emitter σ δ
  | [] => skip
  | a :: as => (f a).andThen (all f as)

theorem andThen_skip (e : Emitter σ δ) : e.andThen skip = e := by
  funext s
  simp [andThen, skip]

theorem andThen_assoc (e₁ e₂ e₃ : Emitter σ δ) :
    (e₁.andThen e₂).andThen e₃ = e₁.andThen (e₂.andThen e₃) := by
  funext s
  simp [andThen]

section

variable (f : α → Emitter σ δ)

theorem all_append (as bs : List α) : all f (as ++ bs) = (all f as).andThen (all f bs) := by
  induction as with
  | nil => rfl
  | cons a as ih => rw [cons_append, all, ih, all, andThen_assoc]

variable {β : Type*}

theorem all_map (g : β → α) (bs : List β) : all f (bs.map g) = all (fun b => f (g b)) bs := by
  induction bs with
  | nil => rfl
  | cons b bs ih => rw [map_cons, all, ih, all]

theorem all_flatMap (g : β → List α) (bs : List β) :
    all f (bs.flatMap g) = all (fun b => all f (g b)) bs := by
  induction bs with
  | nil => rfl
  | cons b bs ih => rw [flatMap_cons, all_append, ih, all]

end

/-! ## Soundness -/

def OnlySends (P : δ → Prop) (e : Emitter σ δ) : Prop := ∀ s, ∀ d ∈ (e s).2, P d

variable {P : δ → Prop} {e₁ e₂ : Emitter σ δ} {f : α → Emitter σ δ} {as : List α}

theorem onlySends_skip : OnlySends P (skip : Emitter σ δ) := fun _ _ hd => nomatch hd

theorem onlySends_send {d : δ} (h : P d) : OnlySends P (send d : Emitter σ δ) :=
  fun _ _ hd => mem_singleton.mp hd ▸ h

theorem onlySends_silent (g : σ → σ) : OnlySends P (silent g : Emitter σ δ) :=
  fun _ _ hd => nomatch hd

theorem OnlySends.andThen (h₁ : OnlySends P e₁) (h₂ : OnlySends P e₂) : OnlySends P (e₁.andThen e₂) := by
  intro s d hd
  rcases mem_append.mp hd with hd | hd
  · exact h₁ s d hd
  · exact h₂ _ d hd

/-- **The soundness rule**: what every element's emitter only sends, the sequence only sends. -/
theorem onlySends_all (h : ∀ a ∈ as, OnlySends P (f a)) : OnlySends P (all f as) := by
  induction as with
  | nil => exact onlySends_skip
  | cons a as ih =>
    exact (h a mem_cons_self).andThen (ih fun b hb => h b (mem_cons_of_mem a hb))

def Within (ds : List δ) (e : Emitter σ δ) : Prop := ∀ s, (e s).2.Sublist ds

theorem within_skip (ds : List δ) : Within ds (skip : Emitter σ δ) := fun _ => nil_sublist ds

theorem within_send (d : δ) : Within [d] (send d : Emitter σ δ) := fun _ => List.Sublist.refl [d]

theorem Within.andThen {ds es : List δ} (h₁ : Within ds e₁) (h₂ : Within es e₂) :
    Within (ds ++ es) (e₁.andThen e₂) :=
  fun s => (h₁ s).append (h₂ _)

theorem within_all {g : α → List δ} (h : ∀ a ∈ as, Within (g a) (f a)) :
    Within (as.flatMap g) (all f as) := by
  induction as with
  | nil => exact within_skip []
  | cons a as ih =>
    exact (h a mem_cons_self).andThen (ih fun b hb => h b (mem_cons_of_mem a hb))

/-! ## Completeness -/

def Sends (e : Emitter σ δ) (d : δ) : Prop := ∀ s, d ∈ (e s).2

variable {d : δ}

theorem sends_send : Sends (send d : Emitter σ δ) d := fun _ => mem_singleton.mpr rfl

theorem mem_andThen_left {s : σ} (h : d ∈ (e₁ s).2) (e₂ : Emitter σ δ) : d ∈ ((e₁.andThen e₂) s).2 :=
  mem_append.mpr (Or.inl h)

theorem Sends.andThen_left (h : Sends e₁ d) (e₂ : Emitter σ δ) : Sends (e₁.andThen e₂) d :=
  fun s => mem_andThen_left (h s) e₂

theorem Sends.andThen_right (h : Sends e₂ d) (e₁ : Emitter σ δ) : Sends (e₁.andThen e₂) d :=
  fun _ => mem_append.mpr (Or.inr (h _))

/-- **The completeness rule**: what one element's emitter sends, the sequence sends. -/
theorem sends_all {a : α} (ha : a ∈ as) (h : Sends (f a) d) : Sends (all f as) d := by
  induction as with
  | nil => exact nomatch ha
  | cons b as ih =>
    rcases mem_cons.mp ha with rfl | ha
    · exact h.andThen_left _
    · exact (ih ha).andThen_right _

/-! ## States and outputs together -/

/-- From every state, the relation holds between the state, what is sent and the state left. -/
def Obeys (R : σ → List δ → σ → Prop) (e : Emitter σ δ) : Prop := ∀ s, R s (e s).2 (e s).1

structure Traced (R : σ → List δ → σ → Prop) : Prop where
  nil : ∀ s, R s [] s
  append : ∀ {s t u : σ} {ds es : List δ}, R s ds t → R t es u → R s (ds ++ es) u

variable {R : σ → List δ → σ → Prop}

theorem Traced.skip (hR : Traced R) : Obeys R (skip : Emitter σ δ) := hR.nil

theorem Traced.andThen (hR : Traced R) (h₁ : Obeys R e₁) (h₂ : Obeys R e₂) : Obeys R (e₁.andThen e₂) :=
  fun s => hR.append (h₁ s) (h₂ _)

/-- **The trace rule**: what the emitter of every element obeys, the sequence obeys. -/
theorem Traced.all (hR : Traced R) (h : ∀ a ∈ as, Obeys R (f a)) : Obeys R (all f as) := by
  induction as with
  | nil => exact hR.skip
  | cons a as ih =>
    exact hR.andThen (h a mem_cons_self) (ih fun b hb => h b (mem_cons_of_mem a hb))

end Emitter
