import LibTracer.Lib.Window

/-!
# Chains of pieces, read through an anchor

A sequence stored as a chain of pieces, any of which may be empty. A position is an anchor
`(li, intra)`: an offset `intra` behind the start of piece `li`, not necessarily inside it. `settle`
steps an anchor forward to the piece that holds its element, `gather` visits the next `n` elements
piece by piece.
-/

namespace Chain

open Window List

class Piece (α : outParam Type) (L : Type) where
  len : L → Nat
  elems : L → List α
  length_elems (l : L) : (elems l).length = len l

section

variable {α L β : Type} [Piece α L]

open Piece

/-! ## Anchors -/

def content (links : List L) : List α := links.flatMap elems

@[simp] theorem content_nil : content ([] : List L) = [] := rfl

@[simp] theorem content_cons (l : L) (ls : List L) : content (l :: ls) = elems l ++ content ls :=
  rfl

def rest (links : List L) (li intra : Nat) : List α := (content (links.drop li)).drop intra

@[simp] theorem rest_zero (links : List L) : rest links 0 0 = content links := by
  simp [rest]

theorem rest_add (links : List L) (li intra k : Nat) :
    rest links li (intra + k) = (rest links li intra).drop k := by
  rw [rest, rest, drop_drop]

theorem drop_content_cons {l : L} {intra : Nat} (h : len l ≤ intra) (ls : List L) :
    (content (l :: ls)).drop intra = (content ls).drop (intra - len l) := by
  have hpast : (elems l).drop intra = [] :=
    drop_eq_nil_of_le (by rw [length_elems]; exact h)
  rw [content_cons, drop_append, length_elems, hpast, nil_append]

theorem take_drop_content_cons {l : L} {intra : Nat} (h : intra ≤ len l) (ls : List L) (n : Nat) :
    ((content (l :: ls)).drop intra).take n = window (elems l) intra (min n (len l - intra)) ++
        (content ls).take (n - min n (len l - intra)) := by
  have hlen := length_elems l
  have hwin : window (elems l) intra (min n (len l - intra)) = ((elems l).drop intra).take n := by
    rw [window, take_eq_take_iff, length_drop, hlen]
    omega
  rw [hwin, content_cons, drop_append_of_le_length (by omega), take_append, length_drop, hlen]
  congr 2
  omega

/-- Step over every piece that ends at or before the anchor; `li` counts the pieces passed. -/
def settle : List L → Nat → Nat → Nat × Nat
  | [], li, intra => (li, intra)
  | l :: ls, li, intra =>
    if len l ≤ intra then settle ls (li + 1) (intra - len l) else (li, intra)

/-- The anchor inside the piece that holds the element at `(li, intra)`. -/
def seek (links : List L) (li intra : Nat) : Nat × Nat := settle (links.drop li) li intra

theorem settle_spec {links : List L} : ∀ (ls : List L) (li intra : Nat), links.drop li = ls →
    rest links (settle ls li intra).1 (settle ls li intra).2 = rest links li intra ∧
    ∀ l, links[(settle ls li intra).1]? = some l → (settle ls li intra).2 < len l
  | [], li, intra, hls => by
    refine ⟨rfl, fun l hl => ?_⟩
    have hnone : links[li]? = none := by
      rw [List.getElem?_eq_none_iff]
      exact drop_eq_nil_iff.mp hls
    rw [settle, hnone] at hl
    cases hl
  | p :: ls, li, intra, hls => by
    have hget : links[li]? = some p := by
      rw [← List.head?_drop, hls]
      rfl
    rw [settle]
    split
    · rename_i hle
      have htail : links.drop (li + 1) = ls := by
        rw [← tail_drop, hls]
        rfl
      obtain ⟨hrest, hlt⟩ := settle_spec ls (li + 1) (intra - len p) htail
      refine ⟨?_, hlt⟩
      rw [hrest, rest, rest, hls, htail, drop_content_cons hle]
    · rename_i hlt
      refine ⟨rfl, fun l hl => ?_⟩
      rw [hget] at hl
      cases hl
      omega

theorem rest_seek (links : List L) (li intra : Nat) :
    rest links (seek links li intra).1 (seek links li intra).2 = rest links li intra :=
  (settle_spec _ li intra rfl).1

theorem seek_lt {links : List L} {li intra : Nat} {l : L}
    (h : links[(seek links li intra).1]? = some l) : (seek links li intra).2 < len l :=
  (settle_spec _ li intra rfl).2 l h

theorem getElem?_seek (links : List L) (li intra : Nat) :
    (links[(seek links li intra).1]?).bind (fun l => (elems l)[(seek links li intra).2]?) =
      (rest links li intra)[0]? := by
  rw [← rest_seek]
  have hlt := fun l => @seek_lt _ _ _ links li intra l
  generalize seek links li intra = a at hlt ⊢
  cases hl : links[a.1]? with
  | none =>
    rw [rest, drop_eq_nil_of_le (List.getElem?_eq_none_iff.mp hl)]
    simp
  | some l =>
    have hin := hlt l hl
    obtain ⟨hli, rfl⟩ := List.getElem?_eq_some_iff.mp hl
    rw [rest, drop_eq_getElem_cons hli, content_cons, List.getElem?_drop, Nat.add_zero,
      List.getElem?_append_left (by rw [length_elems]; exact hin)]
    rfl

/-! ## Gathering -/

/-- Visit the next `n` elements from offset `intra` of the first piece, one cut per piece that
    contributes; empty pieces are passed over. -/
def gather (cut : (l : L) → (off n : Nat) → off + n ≤ len l → β) :
    List L → Nat → Nat → List β
  | [], _, _ => []
  | l :: ls, intra, n =>
    if n = 0 then []
    else
      let take := min n (len l - intra)
      if h : 0 < take then cut l intra take (by omega) :: gather cut ls 0 (n - take)
      else gather cut ls 0 (n - take)

section Gather

variable {cut : (l : L) → (off n : Nat) → off + n ≤ len l → β} {f : β → List α}

/-- **What is gathered is what follows**, if the anchor is not behind its piece. -/
theorem flatMap_gather (hf : ∀ l off n h, f (cut l off n h) = window (elems l) off n) :
    ∀ (ls : List L) (intra n : Nat), (∀ l ∈ ls.head?, intra ≤ len l) →
      (gather cut ls intra n).flatMap f = ((content ls).drop intra).take n
  | [], intra, n, _ => by simp [gather]
  | l :: ls, intra, n, hin => by
    have hle : intra ≤ len l := hin l rfl
    have htail := flatMap_gather hf ls 0 (n - min n (len l - intra)) (fun _ _ => Nat.zero_le _)
    rw [drop_zero] at htail
    rw [gather, take_drop_content_cons hle]
    split
    · subst n
      simp
    by_cases hpos : 0 < min n (len l - intra)
    · rw [dif_pos hpos, flatMap_cons, hf, htail]
    · have hzero : min n (len l - intra) = 0 := by omega
      rw [dif_neg hpos, htail, hzero, window_zero_right, nil_append]

theorem flatMap_gather_drop (hf : ∀ l off n h, f (cut l off n h) = window (elems l) off n)
    (links : List L) (li intra n : Nat) (hin : ∀ l, links[li]? = some l → intra ≤ len l) :
    (gather cut (links.drop li) intra n).flatMap f = (rest links li intra).take n := by
  apply flatMap_gather hf
  intro l hl
  rw [List.head?_drop] at hl
  exact hin l hl

theorem flatMap_gather_seek (hf : ∀ l off n h, f (cut l off n h) = window (elems l) off n)
    (links : List L) (li intra n : Nat) :
    (gather cut (links.drop (seek links li intra).1) (seek links li intra).2 n).flatMap f =
      (rest links li intra).take n := by
  rw [flatMap_gather_drop hf _ _ _ _ fun l hl => Nat.le_of_lt (seek_lt hl), rest_seek]

end Gather

end

end Chain
