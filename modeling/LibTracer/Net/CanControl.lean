import LibTracer.Net.CanReceiver

/-!
# The CAN control stream

Advertises ride the control identifier as one byte stream, cut into frames wherever a frame is full.
The receiver keeps the bytes of a head that may yet become an advertise, and drops those of one that
cannot.

* **`control_stream`** — the cut is not observable, and a run of advertises is read back.
-/

namespace LibTracer.Net.Can

open List

/-! ## Reading -/

/-- The loop of `on_rx` over the bytes it holds: each advertise with its path, and what is kept. -/
def popAdvertises : Nat → List UInt8 → List (Advertise × List UInt8) × List UInt8
  | 0, buf => ([], buf)
  | fuel + 1, buf =>
    if buf.isEmpty then ([], [])
    else
      match decodeAdvertise buf with
      | some (adv, n) =>
        let out := popAdvertises fuel (buf.drop n)
        ((adv, (buf.take n).drop headerSize) :: out.1, out.2)
      | none =>
        if prefixPlausible buf then ([], buf)
        else popAdvertises fuel ((buf.drop 1).dropWhile (· != magic))

/-- The stream frame by frame, each read together with what was kept before it. -/
def hear : List UInt8 → List (List UInt8) → List (Advertise × List UInt8) × List UInt8
  | kept, [] => ([], kept)
  | kept, piece :: pieces =>
    let out := popAdvertises (kept ++ piece).length (kept ++ piece)
    let later := hear out.2 pieces
    (out.1 ++ later.1, later.2)

/-- The receiver's own loop reads the same, whatever account its bytes carry. -/
theorem drain_eq (fuel : Nat) (buf : List Tagged) :
    (drain fuel buf).1.map Prod.fst = (popAdvertises fuel (buf.map Prod.fst)).1.map Prod.fst ∧
      (drain fuel buf).2.map Prod.fst = (popAdvertises fuel (buf.map Prod.fst)).2 := by
  induction fuel generalizing buf with
  | zero => exact ⟨rfl, rfl⟩
  | succ fuel ih =>
    rw [drain, popAdvertises, isEmpty_map]
    split
    · exact ⟨rfl, rfl⟩
    cases decodeAdvertise (buf.map Prod.fst) with
    | some p =>
      have hrest := ih (buf.drop p.2)
      rw [map_drop] at hrest
      exact ⟨congrArg (p.1 :: ·) hrest.1, hrest.2⟩
    | none =>
      dsimp only
      split
      · exact ⟨rfl, rfl⟩
      · rw [← map_drop, dropWhile_map]
        exact ih _

/-! ## What a stream yields -/

/-- `buf` yields `out` and leaves `kept`. -/
inductive Pops : List UInt8 → List (Advertise × List UInt8) → List UInt8 → Prop
  | wait {buf} (hnone : decodeAdvertise buf = none) (hyet : prefixPlausible buf = true) :
    Pops buf [] buf
  | read {buf adv n out kept} (hdec : decodeAdvertise buf = some (adv, n))
    (h : Pops (buf.drop n) out kept) : Pops buf ((adv, (buf.take n).drop headerSize) :: out) kept
  | skip {buf out kept} (hbad : prefixPlausible buf = false)
    (h : Pops ((buf.drop 1).dropWhile (· != magic)) out kept) : Pops buf out kept

variable {buf more kept : List UInt8}

theorem pops_popAdvertises {fuel : Nat} (h : buf.length ≤ fuel) :
    Pops buf (popAdvertises fuel buf).1 (popAdvertises fuel buf).2 := by
  induction fuel generalizing buf with
  | zero =>
    rw [length_eq_zero_iff.mp (Nat.le_zero.mp h)]
    exact .wait rfl rfl
  | succ fuel ih =>
    cases buf with
    | nil => exact .wait rfl rfl
    | cons b buf =>
      rw [length_cons] at h
      rw [popAdvertises, isEmpty_cons, if_neg nofun]
      cases hdec : decodeAdvertise (b :: buf) with
      | some p =>
        have hn := (of_decodeAdvertise (n := p.2) hdec).1
        rw [headerSize] at hn
        exact .read hdec (ih (by rw [length_drop, length_cons]; omega))
      | none =>
        dsimp only
        split
        · exact .wait hdec ‹_›
        · refine .skip (Bool.eq_false_iff.mpr ‹_›) (ih ?_)
          exact Nat.le_trans (dropWhile_suffix _).length_le (by simpa using h)

section

variable {out out' : List (Advertise × List UInt8)} {kept' : List UInt8}

section

variable (h : Pops buf out kept)
include h

theorem Pops.unique (h' : Pops buf out' kept') : out = out' ∧ kept = kept' := by
  induction h generalizing out' kept' with
  | wait hnone hyet =>
    cases h' with
    | wait => exact ⟨rfl, rfl⟩
    | read hdec => cases hnone.symm.trans hdec
    | skip hbad => cases hyet.symm.trans hbad
  | read hdec _ ih =>
    cases h' with
    | wait hnone => cases hnone.symm.trans hdec
    | read hdec' h' =>
      obtain ⟨rfl, rfl⟩ := Prod.mk.inj (Option.some.inj (hdec.symm.trans hdec'))
      obtain ⟨rfl, rfl⟩ := ih h'
      exact ⟨rfl, rfl⟩
    | skip hbad => cases (of_decodeAdvertise hdec).2.2.1.symm.trans hbad
  | skip hbad _ ih =>
    cases h' with
    | wait _ hyet => cases hyet.symm.trans hbad
    | read hdec => cases (of_decodeAdvertise hdec).2.2.1.symm.trans hbad
    | skip _ h' => exact ih h'

theorem popAdvertises_eq : popAdvertises buf.length buf = (out, kept) := by
  obtain ⟨hout, hkept⟩ := (pops_popAdvertises le_rfl).unique h
  exact Prod.ext hout hkept

theorem Pops.waits : decodeAdvertise kept = none ∧ prefixPlausible kept = true ∧ kept <:+ buf := by
  induction h with
  | wait hnone hyet => exact ⟨hnone, hyet, suffix_rfl⟩
  | read _ _ ih => exact ⟨ih.1, ih.2.1, ih.2.2.trans (drop_suffix _ _)⟩
  | skip _ _ ih => exact ⟨ih.1, ih.2.1, ih.2.2.trans ((dropWhile_suffix _).trans (drop_suffix _ _))⟩

/-- Bytes that begin no advertise are dropped whichever way. -/
theorem Pops.dropWhile : Pops (buf.dropWhile (· != magic)) out kept := by
  cases buf with
  | nil => exact h
  | cons b buf =>
    by_cases hb : b = magic
    · rwa [dropWhile_cons_of_neg (by simp [hb])]
    have hbad : prefixPlausible (b :: buf) = false := implausible_of_ne hb
    rw [dropWhile_cons_of_pos (by simp [hb])]
    cases h with
    | wait _ hyet => cases hyet.symm.trans hbad
    | read hdec => cases (of_decodeAdvertise hdec).2.2.1.symm.trans hbad
    | skip _ h => exact h

/-- Reading goes on from what was kept. -/
theorem Pops.append (h' : Pops (kept ++ more) out' kept') : Pops (buf ++ more) (out ++ out') kept' := by
  induction h with
  | wait => exact h'
  | @read buf adv n out kept hdec _ ih =>
    obtain ⟨-, hn, -, hmore⟩ := of_decodeAdvertise hdec
    have hread := Pops.read (hmore more) (drop_append_of_le_length hn ▸ ih h')
    rwa [take_append_of_le_length hn] at hread
  | @skip buf out kept hbad _ ih =>
    refine .skip (Bool.eq_false_iff.mpr fun hp => ?_) ?_
    · cases (plausible_of_append hp).symm.trans hbad
    · cases buf with
      | nil => cases hbad
      | cons b buf =>
        have hlater := ih h'
        rw [drop_one, tail_cons] at hlater
        rw [cons_append, drop_one, tail_cons, dropWhile_append]
        split
        next hnil =>
          rw [isEmpty_iff.mp hnil] at hlater
          exact hlater.dropWhile
        · exact hlater

end

theorem pops_encode {advs : List (Advertise × List UInt8)}
    (h : ∀ a ∈ advs, a.1.Fits ∧ a.2.length ≤ maxPathLen) :
    Pops (advs.flatMap fun a => encodeAdvertise a.1 a.2) advs [] := by
  induction advs with
  | nil => exact .wait rfl rfl
  | cons a advs ih =>
    obtain ⟨⟨hfits, hpath⟩, hrest⟩ := forall_mem_cons.mp h
    have hlen := length_encodeAdvertise a.1 a.2
    have hread := Pops.read (decodeAdvertise_encode hfits hpath
      (advs.flatMap fun a => encodeAdvertise a.1 a.2)) (by rw [drop_left' hlen]; exact ih hrest)
    rw [take_left' hlen, encodeAdvertise, drop_left' (length_encodeHeader _ _)] at hread
    exact hread

end

theorem pops_hear (h : Pops kept [] kept) (pieces : List (List UInt8)) :
    Pops (kept ++ pieces.flatten) (hear kept pieces).1 (hear kept pieces).2 := by
  induction pieces generalizing kept with
  | nil => rwa [flatten_nil, append_nil]
  | cons piece pieces ih =>
    have hnow := pops_popAdvertises (Nat.le_refl (kept ++ piece).length)
    obtain ⟨hnone, hyet, -⟩ := hnow.waits
    rw [flatten_cons, ← append_assoc]
    exact hnow.append (ih (.wait hnone hyet))

/-- **The control stream is read as one stream**: how it was cut is not observable, advertises that
    begin where a head is looked for are all read, and what is kept waits for a head that more bytes
    settle, so that of bytes no advertise begins with nothing is left in time. -/
theorem control_stream : (∀ pieces, hear [] pieces = popAdvertises pieces.flatten.length pieces.flatten) ∧
    (∀ front out advs, popAdvertises front.length front = (out, []) →
      (∀ a ∈ advs, a.1.Fits ∧ a.2.length ≤ maxPathLen) → ∀ pieces,
      pieces.flatten = front ++ advs.flatMap (fun a => encodeAdvertise a.1 a.2) →
      hear [] pieces = (out ++ advs, [])) ∧
    (∀ pieces, let kept := (hear [] pieces).2
      decodeAdvertise kept = none ∧ prefixPlausible kept = true ∧
      kept.length < headerSize + maxPathLen ∧ ∀ front more, pieces.flatten = front ++ more →
        headerSize + maxPathLen ≤ more.length → kept <:+ more) ∧
    ∀ buf : List Tagged,
      (drain buf.length buf).1.map Prod.fst =
        (popAdvertises buf.length (buf.map Prod.fst)).1.map Prod.fst ∧
      (drain buf.length buf).2.map Prod.fst = (popAdvertises buf.length (buf.map Prod.fst)).2 := by
  have hpops : ∀ pieces, Pops pieces.flatten (hear [] pieces).1 (hear [] pieces).2 :=
    @pops_hear [] (.wait rfl rfl)
  refine ⟨fun pieces => (popAdvertises_eq (hpops pieces)).symm, ?_, fun pieces => ?_,
    fun buf => drain_eq _ buf⟩
  · intro front out advs hfront hadvs pieces hpieces
    have hread := pops_popAdvertises (Nat.le_refl front.length)
    rw [hfront] at hread
    have hall : Pops pieces.flatten (out ++ advs) [] := hpieces ▸ hread.append (pops_encode hadvs)
    obtain ⟨hout, hkept⟩ := (hpops pieces).unique hall
    exact Prod.ext hout hkept
  · obtain ⟨hnone, hyet, hsuffix⟩ := (hpops pieces).waits
    have hlt := length_lt_of_waits hnone hyet
    refine ⟨hnone, hyet, hlt, fun front more hcut hlen => ?_⟩
    rw [hcut] at hsuffix
    exact suffix_of_suffix_length_le hsuffix (suffix_append front more) (by omega)

end LibTracer.Net.Can
