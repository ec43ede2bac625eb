import LibTracer.Graph.FoldedFrame
import LibTracer.Graph.Sweep

/-!
# The table of a folded sweep (`propagate_folded_impl`)

A folded sweep selects what a sweep delivers, puts the selected vertices and the levels between them
and the root into a table in key order, and joins the frames of the table to one, the deepest first.

* **`Plane.foldTable_complete`** — the table of a sweep.
-/

namespace LibTracer.Graph

open Wire List

theorem Ordered.ranked {set : List Key} (h : Ordered set) : set.Pairwise fun a b => ¬ b <:+ a := by
  refine (h.sorted.and h.nodup).imp fun {a b} hab hsuf => hab.2 ?_
  have hle : packed b ≤ packed a := PrefixRun.prefix_le (packed_prefix_iff.mpr hsuf)
  exact packed_injective (le_antisymm hab.1 hle)

theorem Under.trans {a b c : Key} (h : Under a b) (h' : Under b c) : Under a c := by
  refine ⟨h.1.trans h'.1, fun heq => h.2 ?_⟩
  exact h.1.eq_of_length_le (heq ▸ h'.1.length_le)

namespace Plane

variable {p : Plane} {k : Key} {s : Store}

/-! ## The table -/

variable {n m : FoldNode}

theorem mem_putNode {table : List FoldNode} :
    m ∈ putNode n table ↔ m = n ∨ (m ∈ table ∧ m.key ≠ n.key) := by
  unfold putNode
  rw [mem_orderedInsert, mem_filter, decide_eq_true_eq]

/-- What is known of a node of the table of a sweep of `k` that selects `S`. -/
structure NodeFits (p : Plane) (k : Key) (s : Store) (S : Key → Prop) (n : FoldNode) : Prop where
  below : k <:+ n.key ∧ ∃ j, S j ∧ n.key <:+ j
  found : n.found = true ↔ n.key = k ∨ p.found n.key = true
  selected : n.selected = true → n.found = true ∧ S n.key
  lkv : n.lkv = if n.selected then s.lkv n.key else none
  value : ∀ r, n.lkv = some r → r.value.type = VALUE

structure Fits (p : Plane) (k : Key) (s : Store) (S : Key → Prop) (table : List FoldNode) :
    Prop where
  ordered : Ordered (table.map FoldNode.key)
  root : ∃ n ∈ table, n.key = k
  node : ∀ n ∈ table, p.NodeFits k s S n

def Grows (table table' : List FoldNode) : Prop :=
  ∀ n ∈ table, ∃ n' ∈ table', n'.key = n.key ∧ n'.found = n.found ∧
    (n.selected = true → n'.selected = true)

theorem Grows.refl (table : List FoldNode) : Grows table table := fun n hn => ⟨n, hn, rfl, rfl, id⟩

theorem Grows.trans {t t' t'' : List FoldNode} (h : Grows t t') (h' : Grows t' t'') : Grows t t'' := by
  intro n hn
  obtain ⟨n', hn', hkey, hfound, hsel⟩ := h n hn
  obtain ⟨m, hm, hkey', hfound', hsel'⟩ := h' n' hn'
  exact ⟨m, hm, hkey'.trans hkey, hfound'.trans hfound, hsel' ∘ hsel⟩

variable {S : Key → Prop} {table table' : List FoldNode}

theorem Fits.putNode (h : p.Fits k s S table) (hn : p.NodeFits k s S n) :
    p.Fits k s S (putNode n table) := by
  refine ⟨?_, ?_, fun m hm => ?_⟩
  · have hkeys : (Plane.putNode n table).map FoldNode.key =
        insertKey n.key ((table.filter (·.key ≠ n.key)).map FoldNode.key) := by
      rw [insertKey, if_neg (by simp)]
      exact map_orderedInsert _ _ FoldNode.key _ n (fun _ _ => Iff.rfl) fun _ _ => Iff.rfl
    rw [hkeys]
    exact (h.ordered.sublist (filter_sublist.map _)).insertKey n.key
  · obtain ⟨m, hm, hkey⟩ := h.root
    by_cases hmn : m.key = n.key
    · exact ⟨n, mem_putNode.mpr (.inl rfl), hmn ▸ hkey⟩
    · exact ⟨m, mem_putNode.mpr (.inr ⟨hm, hmn⟩), hkey⟩
  · rcases mem_putNode.mp hm with rfl | hm
    · exact hn
    · exact h.node m hm.1

theorem Fits.inj (h : p.Fits k s S table) (hn : n ∈ table) (hm : m ∈ table)
    (hkey : n.key = m.key) : n = m :=
  inj_on_of_nodup_map h.ordered.nodup hn hm hkey

variable {q : Key}

theorem Fits.node_of (h : p.Fits k s S table) (hq : k <:+ q ∧ ∃ j, S j ∧ q <:+ j) :
    ∃ n, (table.find? (·.key = q)).getD { key := q, found := p.found q } = n ∧ n.key = q ∧
      p.NodeFits k s S n ∧ ∀ m ∈ table, m.key = q → m = n := by
  cases hfind : table.find? (·.key = q) with
  | none =>
    have hfree : ∀ m ∈ table, m.key ≠ q := by simpa using hfind
    refine ⟨_, rfl, rfl, ⟨hq, ?_, ?_, ?_, ?_⟩, fun m hm hkey => absurd hkey (hfree m hm)⟩
    · obtain ⟨m, hm, hkey⟩ := h.root
      have hne : q ≠ k := fun heq => hfree m hm (hkey.trans heq.symm)
      simp [hne]
    · simp
    · rfl
    · simp
  | some n =>
    have hmem : n ∈ table := mem_of_find?_eq_some hfind
    have hkey : n.key = q := by simpa using find?_some hfind
    exact ⟨n, rfl, hkey, h.node n hmem, fun m hm hm' => h.inj hm hmem (hm'.trans hkey.symm)⟩

theorem Fits.grows (h : p.Fits k s S table) {n' : FoldNode} (hn' : p.NodeFits k s S n')
    (hkey : n'.key = n.key) (hfound : n'.found = n.found) (hold : ∀ m ∈ table, m.key = n.key → m = n)
    (hsel : n.selected = true → n'.selected = true) :
    p.Fits k s S (Plane.putNode n' table) ∧ Grows table (Plane.putNode n' table) := by
  refine ⟨h.putNode hn', fun m hm => ?_⟩
  by_cases hm' : m.key = n'.key
  · have hmn : m = n := hold m hm (hm'.trans hkey)
    subst hmn
    exact ⟨n', mem_putNode.mpr (.inl rfl), hkey, hfound, hsel⟩
  · exact ⟨m, mem_putNode.mpr (.inr ⟨hm, hm'⟩), rfl, rfl, id⟩

theorem admitNode_fits {b : Bool} (h : p.Fits k s S table) (hq : k <:+ q ∧ ∃ j, S j ∧ q <:+ j)
    (hS : b = true → S q) (hadm : p.admitNode s q b table = .ok table') :
    p.Fits k s S table' ∧ Grows table table' ∧
      ∃ n ∈ table', n.key = q ∧ (b = true → n.found = true → n.selected = true) := by
  obtain ⟨n, hn, hkey, hfits, hold⟩ := h.node_of hq
  have hold' : ∀ m ∈ table, m.key = n.key → m = n := fun m hm hm' => hold m hm (hm'.trans hkey)
  unfold admitNode at hadm
  dsimp only at hadm
  rw [hn] at hadm
  split at hadm
  next hskip =>
    cases hadm
    obtain ⟨hfit, hgrow⟩ := h.grows hfits rfl rfl hold' id
    refine ⟨hfit, hgrow, n, mem_putNode.mpr (.inl rfl), hkey, fun hb hfound => ?_⟩
    simpa [hb, hfound] using hskip
  next hskip =>
  obtain ⟨⟨hfound, hb⟩, hfresh⟩ : (n.found = true ∧ b = true) ∧ n.selected = false := by
    simpa using hskip
  have hnone : n.lkv = none := by
    rw [hfits.lkv, hfresh]
    rfl
  have hput : ∀ n' : FoldNode, p.NodeFits k s S n' → n'.key = n.key → n'.found = n.found →
      n'.selected = true → p.Fits k s S (Plane.putNode n' table) ∧
        Grows table (Plane.putNode n' table) ∧ ∃ m ∈ Plane.putNode n' table, m.key = q ∧
          (b = true → m.found = true → m.selected = true) := by
    intro n' hn' hkey' hfound' hsel
    obtain ⟨hfit, hgrow⟩ := h.grows hn' hkey' hfound' hold' fun _ => hsel
    exact ⟨hfit, hgrow, n', mem_putNode.mpr (.inl rfl), hkey'.trans hkey, fun _ _ => hsel⟩
  split at hadm
  · cases hadm
  split at hadm
  · next hlkv =>
    cases hadm
    refine hput _ ⟨hfits.below, hfits.found, fun _ => ⟨hfound, hkey ▸ hS hb⟩, ?_, ?_⟩ rfl rfl rfl
    · rw [if_pos rfl, hkey]
      exact hnone.trans hlkv.symm
    · exact hfits.value
  next r hlkv =>
  split at hadm
  · next hvalue =>
    cases hadm
    refine hput _ ⟨hfits.below, hfits.found, fun _ => ⟨hfound, hkey ▸ hS hb⟩, ?_, ?_⟩ rfl rfl rfl
    · rw [if_pos rfl, hkey]
      exact hlkv.symm
    · intro r' hr'
      cases hr'
      exact (by simpa using hvalue : r.value.type = VALUE ∧ _).1
  · cases hadm

theorem foldlM_all {α : Type} {P : List FoldNode → Prop} {Q : α → List FoldNode → Prop}
    {f : List FoldNode → α → Except Status (List FoldNode)} {as : List α}
    (hf : ∀ table, ∀ a ∈ as, ∀ table', P table → f table a = .ok table' →
      P table' ∧ Grows table table' ∧ Q a table')
    (hQ : ∀ a table table', Grows table table' → Q a table → Q a table')
    (h : P table) (hrun : as.foldlM f table = .ok table') :
    P table' ∧ Grows table table' ∧ ∀ a ∈ as, Q a table' := by
  induction as generalizing table with
  | nil =>
    cases hrun
    exact ⟨h, .refl _, forall_mem_nil _⟩
  | cons a as ih =>
    rw [foldlM_cons] at hrun
    cases hstep : f table a with
    | error e =>
      rw [hstep] at hrun
      cases hrun
    | ok next =>
      rw [hstep] at hrun
      obtain ⟨hnext, hgrow, hqa⟩ := hf table a mem_cons_self next h hstep
      obtain ⟨hlast, hgrow', hall⟩ :=
        ih (fun t b hb => hf t b (mem_cons_of_mem a hb)) hnext hrun
      exact ⟨hlast, hgrow.trans hgrow', forall_mem_cons.mpr ⟨hQ a next table' hgrow' hqa, hall⟩⟩

variable {l : Key}

theorem mem_levels (hq : k <:+ q) : l ∈ levels k q ↔ Under k l ∧ l <:+ q := by
  induction q with
  | nil =>
    rw [suffix_nil.mp hq]
    simp [levels, Under]
  | cons n q ih =>
    rw [levels]
    split
    next heq =>
      rw [heq]
      refine ⟨fun h => absurd h not_mem_nil, fun h => ?_⟩
      exact absurd (h.1.1.eq_of_length_le h.2.length_le) h.1.2
    next heq =>
    have hq' : k <:+ q := (suffix_cons_iff.mp hq).resolve_left fun h => heq h.symm
    rw [mem_cons, ih hq', suffix_cons_iff]
    constructor
    · intro h
      rcases h with rfl | h
      · exact ⟨⟨hq, fun h => heq h.symm⟩, .inl rfl⟩
      · exact ⟨h.1, .inr h.2⟩
    · intro h
      rcases h.2 with rfl | hl
      · exact .inl rfl
      · exact .inr ⟨h.1, hl⟩

/-- The vertices a sweep of `k` is for: the root and what is due. -/
def Selects (p : Plane) (k : Key) (s : Store) (j : Key) : Prop := j = k ∨ j ∈ p.due k s

/-- The node of `j` is in the table, and selected unless its vertex is not there. -/
def Chosen (j : Key) (table : List FoldNode) : Prop :=
  ∃ n ∈ table, n.key = j ∧ (n.found = true → n.selected = true)

variable {j : Key}

theorem Chosen.grows (hgrow : Grows table table') (h : Chosen j table) : Chosen j table' := by
  obtain ⟨n, hn, hkey, hsel⟩ := h
  obtain ⟨n', hn', hkey', hfound, hsel'⟩ := hgrow n hn
  exact ⟨n', hn', hkey'.trans hkey, fun h => hsel' (hsel (hfound ▸ h))⟩

theorem exists_key_grows (hgrow : Grows table table') (h : ∃ n ∈ table, n.key = l) :
    ∃ n ∈ table', n.key = l := by
  obtain ⟨n, hn, rfl⟩ := h
  obtain ⟨n', hn', hkey, -⟩ := hgrow n hn
  exact ⟨n', hn', hkey⟩

theorem admitPath_fits (h : p.Fits k s S table) (hj : Under k j) (hS : S j)
    (hadm : p.admitPath s k j table = .ok table') : p.Fits k s S table' ∧ Grows table table' ∧
      (Chosen j table' ∧ ∀ l, Under k l → l <:+ j → ∃ n ∈ table', n.key = l) := by
  have hone : ∀ t, ∀ l ∈ levels k j, ∀ t', p.Fits k s S t →
      p.admitNode s l (l = j) t = .ok t' → p.Fits k s S t' ∧ Grows t t' ∧
        ((∃ n ∈ t', n.key = l) ∧ (l = j → Chosen j t')) := by
    intro t l hl t' ht hstep
    obtain ⟨hkl, hlj⟩ := (mem_levels hj.1).mp hl
    obtain ⟨hfit, hgrow, n, hn, hkey, hsel⟩ := admitNode_fits (b := decide (l = j)) ht
      ⟨hkl.1, j, hS, hlj⟩ (fun hb => of_decide_eq_true hb ▸ hS) hstep
    exact ⟨hfit, hgrow, ⟨n, hn, hkey⟩, fun hl => ⟨n, hn, hkey.trans hl, hsel (decide_eq_true hl)⟩⟩
  obtain ⟨hfit, hgrow, hall⟩ := foldlM_all hone
    (fun l t t' hg hq => ⟨exists_key_grows hg hq.1, fun hl => (hq.2 hl).grows hg⟩) h hadm
  refine ⟨hfit, hgrow, ?_, fun l hkl hlj => ?_⟩
  · exact (hall j ((mem_levels hj.1).mpr ⟨hj, suffix_refl j⟩)).2 rfl
  · exact (hall l ((mem_levels hj.1).mpr ⟨hkl, hlj⟩)).1

/-- The table when it is complete: every swept vertex is selected, with all levels above it. -/
structure Complete (p : Plane) (k : Key) (s : Store) (table : List FoldNode) : Prop
    extends p.Fits k s (p.Selects k s) table where
  chosen : ∀ j, p.Selects k s j → Chosen j table
  levels : ∀ j ∈ p.due k s, ∀ l, Under k l → l <:+ j → ∃ n ∈ table, n.key = l

theorem foldTable_complete (h : p.foldTable k s = .ok table) : p.Complete k s table := by
  have hroot : k <:+ k ∧ ∃ j, p.Selects k s j ∧ k <:+ j := ⟨suffix_refl k, k, .inl rfl, suffix_refl k⟩
  have hstart : p.Fits k s (p.Selects k s) [{ key := k, found := true }] := by
    refine ⟨⟨pairwise_singleton _ _, nodup_singleton _⟩, ⟨_, mem_cons_self, rfl⟩, ?_⟩
    intro n hn
    rw [mem_singleton.mp hn]
    exact ⟨hroot, by simp, fun h => absurd h (by simp), rfl, by simp⟩
  unfold foldTable at h
  cases hfirst : p.admitNode s k true [{ key := k, found := true }] with
  | error e =>
    rw [hfirst] at h
    cases h
  | ok start =>
    rw [hfirst] at h
    obtain ⟨hfit, -, n, hn, hkey, hsel⟩ := admitNode_fits hstart hroot (fun _ => .inl rfl) hfirst
    have hdue : ∀ j ∈ p.due k s, Under k j := by
      intro j hj
      rw [due_eq] at hj
      exact of_decide_eq_true (mem_filter.mp hj).2
    obtain ⟨hfit', hgrow, hall⟩ := foldlM_all (P := p.Fits k s (p.Selects k s))
      (Q := fun j t => Chosen j t ∧ ∀ l, Under k l → l <:+ j → ∃ n ∈ t, n.key = l)
      (fun t j hj t' ht hstep => admitPath_fits ht (hdue j hj) (.inr hj) hstep)
      (fun j t t' hg hq =>
        ⟨hq.1.grows hg, fun l hkl hlj => exists_key_grows hg (hq.2 l hkl hlj)⟩) hfit h
    refine ⟨hfit', fun j hj => ?_, fun j hj => (hall j hj).2⟩
    rcases hj with rfl | hj
    · exact Chosen.grows hgrow ⟨n, hn, hkey, hsel rfl⟩
    · exact (hall j hj).1

/-! ## The frames -/

/-- The levels from `q` down to `j` are in the table and there. -/
def Reached (ns : List FoldNode) (q j : Key) : Prop :=
  ∀ l, Under q l → l <:+ j → ∃ m ∈ ns, m.key = l ∧ m.found = true

variable {ns : List FoldNode}

theorem reached_cons (hfirst : ∀ m ∈ ns, ¬ m.key <:+ n.key) (hroot : n.key ≠ []) :
    Reached (n :: ns) q j ↔ Reached ns q j ∨
      (n.found = true ∧ n.key.tail = q ∧ n.key <:+ j ∧ Reached ns n.key j) := by
  obtain ⟨a, t, hkey⟩ := exists_cons_of_ne_nil hroot
  constructor
  · intro h
    by_cases hns : Reached ns q j
    · exact .inl hns
    -- some level is only there through `n`
    obtain ⟨l, hql, hlj, hmiss⟩ : ∃ l, Under q l ∧ l <:+ j ∧
        ¬ ∃ m ∈ ns, m.key = l ∧ m.found = true := by
      simpa [Reached] using hns
    obtain ⟨m, hm, hml, hfound⟩ := h l hql hlj
    rcases mem_cons.mp hm with rfl | hm
    · refine .inr ⟨hfound, ?_, hml ▸ hlj, fun l' hl' hlj' => ?_⟩
      · -- its parent is `q`, for a level between would come after it
        rw [← hml, hkey, under_cons] at hql
        rw [hkey, tail_cons]
        refine (hql.resolve_right fun hqt => ?_).symm
        have htj : t <:+ j := (suffix_cons a t).trans (hkey ▸ hml ▸ hlj)
        obtain ⟨m', hm', hmt, -⟩ := h t hqt htj
        rcases mem_cons.mp hm' with rfl | hm'
        · rw [hkey] at hmt
          exact absurd (congrArg List.length hmt) (by simp)
        · exact hfirst m' hm' (hmt ▸ hkey ▸ suffix_cons a t)
      · obtain ⟨m', hm', hml', hfound'⟩ := h l' ((hml ▸ hql).trans hl') hlj'
        rcases mem_cons.mp hm' with rfl | hm'
        · exact absurd hml' hl'.2
        · exact ⟨m', hm', hml', hfound'⟩
    · exact absurd ⟨m, hm, hml, hfound⟩ hmiss
  · intro h l hql hlj
    rcases h with h | ⟨hfound, htail, hnj, h⟩
    · obtain ⟨m, hm, hml⟩ := h l hql hlj
      exact ⟨m, mem_cons_of_mem n hm, hml⟩
    by_cases hl : n.key = l
    · exact ⟨n, mem_cons_self, hl, hfound⟩
    have hnl : n.key <:+ l := by
      refine (suffix_or_suffix_of_suffix hnj hlj).resolve_right fun hln => ?_
      rw [hkey, suffix_cons_iff] at hln
      rcases hln with rfl | hln
      · exact hl hkey
      · rw [hkey, tail_cons] at htail
        exact hql.2 (htail ▸ hql.1.eq_of_length_le (htail ▸ hln.length_le))
    obtain ⟨m, hm, hml⟩ := h l ⟨hnl, hl⟩ hlj
    exact ⟨m, mem_cons_of_mem n hm, hml⟩

theorem foldFrames_gone (h : n.found = false) (ns : List FoldNode) :
    foldFrames (n :: ns) = foldFrames ns := by
  rw [foldFrames]
  dsimp only
  rw [h]
  rfl

theorem foldFrames_there (h : n.found = true) (ns : List FoldNode) : foldFrames (n :: ns) =
      (Function.update (foldFrames ns).1 n.key.tail ((foldFrames ns).1 n.key.tail ++
        [.node n.key (n.lkv.map Ref.value) ((foldFrames ns).1 n.key)]),
        (n, .node n.key (n.lkv.map Ref.value) ((foldFrames ns).1 n.key)) :: (foldFrames ns).2) := by
  rw [foldFrames]
  dsimp only
  rw [h]
  rfl

theorem foldFrames_carriedBy_cons (n : FoldNode) (ns : List FoldNode) (q j : Key) (x : Tlv) :
    (j, x) ∈ Fold.carriedBy ((foldFrames (n :: ns)).1 q) ↔
      (j, x) ∈ Fold.carriedBy ((foldFrames ns).1 q) ∨ (n.found = true ∧ n.key.tail = q ∧
        ((j = n.key ∧ n.lkv.map Ref.value = some x) ∨
          (j, x) ∈ Fold.carriedBy ((foldFrames ns).1 n.key))) := by
  cases hfound : n.found with
  | false =>
    rw [foldFrames_gone hfound]
    simp
  | true =>
    rw [foldFrames_there hfound]
    dsimp only
    by_cases hq : n.key.tail = q
    · rw [hq, Function.update_self]
      rw [Fold.carriedBy_append, mem_append, Fold.carriedBy, Fold.carriedBy, append_nil, Fold.mem_carried]
      simp
    · rw [Function.update_of_ne (Ne.symm hq)]
      simp [hq]

/-- **A frame carries the values whose levels are all there.** -/
theorem foldFrames_carried
    (hrank : ns.Pairwise fun a b => ¬ b.key <:+ a.key) (hroot : ∀ n ∈ ns, n.key ≠ [])
    (q j : Key) (x : Tlv) : (j, x) ∈ Fold.carriedBy ((foldFrames ns).1 q) ↔
      Under q j ∧ Reached ns q j ∧ ∃ m ∈ ns, m.key = j ∧ m.lkv.map Ref.value = some x := by
  induction ns generalizing q with
  | nil =>
    refine ⟨fun h => absurd h not_mem_nil, fun h => ?_⟩
    obtain ⟨-, -, m, hm, -⟩ := h
    exact nomatch hm
  | cons n ns ih =>
    obtain ⟨hfirst, hrest⟩ := pairwise_cons.mp hrank
    have hn : n.key ≠ [] := hroot n mem_cons_self
    have ih' := ih hrest fun m hm => hroot m (mem_cons_of_mem n hm)
    rw [foldFrames_carriedBy_cons, reached_cons hfirst hn, ih' q, ih' n.key]
    constructor
    · intro h
      rcases h with ⟨hqj, hreach, m, hm, hkey⟩ | ⟨hfound, htail, h⟩
      · exact ⟨hqj, .inl hreach, m, mem_cons_of_mem n hm, hkey⟩
      have hqn : Under q n.key := by
        obtain ⟨a, t, hkey⟩ := exists_cons_of_ne_nil hn
        rw [hkey, tail_cons] at htail
        rw [hkey, under_cons]
        exact .inl htail.symm
      rcases h with ⟨rfl, hx⟩ | ⟨hnj, hreach, m, hm, hkey⟩
      · refine ⟨hqn, .inr ⟨hfound, htail, suffix_refl _, fun l hl hl' => ?_⟩, n, mem_cons_self, rfl, hx⟩
        exact absurd (hl.1.eq_of_length_le hl'.length_le) hl.2
      · exact ⟨hqn.trans hnj, .inr ⟨hfound, htail, hnj.1, hreach⟩, m, mem_cons_of_mem n hm, hkey⟩
    · intro h
      obtain ⟨hqj, hreach | ⟨hfound, htail, hnj, hreach⟩, m, hm, hkey, hx⟩ := h
      · refine .inl ⟨hqj, hreach, m, (mem_cons.mp hm).resolve_left ?_, hkey, hx⟩
        -- the node of a vertex that is reached without `n` is not `n`
        rintro rfl
        obtain ⟨m', hm', hkey', -⟩ := hreach j hqj (suffix_refl j)
        exact hfirst m' hm' (hkey' ▸ hkey ▸ suffix_refl _)
      rcases mem_cons.mp hm with rfl | hm
      · exact .inr ⟨hfound, htail, .inl ⟨hkey.symm, hx⟩⟩
      · refine .inr ⟨hfound, htail, .inr ⟨⟨hnj, fun heq => ?_⟩, hreach, m, hm, hkey, hx⟩⟩
        exact hfirst m hm (heq ▸ hkey ▸ suffix_refl _)

theorem foldFrames_placed (hroot : ∀ n ∈ ns, n.key ≠ [])
    (hvalue : ∀ n ∈ ns, ∀ r, n.lkv = some r → r.value.type = VALUE) (q : Key) :
    ∀ f ∈ (foldFrames ns).1 q, (∃ n, f.key = n :: q) ∧ f.Placed := by
  induction ns generalizing q with
  | nil => exact forall_mem_nil _
  | cons n ns ih =>
    have ih' := ih (fun m hm => hroot m (mem_cons_of_mem n hm))
      fun m hm => hvalue m (mem_cons_of_mem n hm)
    cases hfound : n.found with
    | false =>
      rw [foldFrames_gone hfound]
      exact ih' q
    | true =>
      rw [foldFrames_there hfound]
      intro f hf
      dsimp only at hf
      by_cases hq : q = n.key.tail
      · rw [hq, Function.update_self] at hf
        rcases mem_append.mp hf with hf | hf
        · exact hq ▸ ih' _ f hf
        rw [mem_singleton.mp hf]
        obtain ⟨a, t, hkey⟩ := exists_cons_of_ne_nil (hroot n mem_cons_self)
        refine ⟨⟨a, ?_⟩, .node (fun x hx => ?_) (fun g hg => (ih' n.key g hg).1)
          fun g hg => (ih' n.key g hg).2⟩
        · rw [hq, hkey]
          rfl
        · obtain ⟨r, hr, rfl⟩ := Option.map_eq_some_iff.mp hx
          exact hvalue n mem_cons_self r hr
      · rw [Function.update_of_ne hq] at hf
        exact ih' q f hf

theorem mem_foldFrames : ∀ e ∈ (foldFrames ns).2, e.1 ∈ ns := by
  induction ns with
  | nil => exact forall_mem_nil _
  | cons n ns ih =>
    intro e he
    cases hfound : n.found with
    | false =>
      rw [foldFrames_gone hfound] at he
      exact mem_cons_of_mem n (ih e he)
    | true =>
      rw [foldFrames_there hfound] at he
      rcases mem_cons.mp he with rfl | he
      · exact mem_cons_self
      · exact mem_cons_of_mem n (ih e he)

theorem Complete.split (h : p.Complete k s table) : ∃ root rest, table = root :: rest ∧ root.key = k ∧
      rest.Pairwise (fun a b => ¬ b.key <:+ a.key) ∧ ∀ n ∈ rest, Under k n.key := by
  obtain ⟨m, hm, hmk⟩ := h.root
  have hrank : table.Pairwise fun a b => ¬ b.key <:+ a.key :=
    pairwise_map.mp h.ordered.ranked
  obtain ⟨root, rest, rfl⟩ := exists_cons_of_ne_nil (ne_nil_of_mem hm)
  obtain ⟨hfirst, hrest⟩ := pairwise_cons.mp hrank
  have hroot : root.key = k := by
    rcases mem_cons.mp hm with rfl | hm
    · exact hmk
    · exact absurd (hmk ▸ (h.node root mem_cons_self).below.1) (hfirst m hm)
  refine ⟨root, rest, rfl, hroot, hrest, fun n hn => ?_⟩
  refine ⟨(h.node n (mem_cons_of_mem root hn)).below.1, fun heq => hfirst n hn ?_⟩
  rw [← heq, hroot]

variable {below : List (FoldNode × Fold)}

section

variable (h : p.Complete k s table)
include h

variable {root : FoldNode} {f : Fold}

theorem Complete.frame (hframes : (foldFrames table).2 = (root, f) :: below) :
    f.Placed ∧ f.key = k ∧ (∀ e ∈ below, Under k e.1.key) ∧ ∀ j x, (j, x) ∈ f.carried ↔
        Reached table k j ∧ ∃ n ∈ table, n.key = j ∧ n.lkv.map Ref.value = some x := by
  obtain ⟨n, rest, rfl, hkey, hrank, hunder⟩ := h.split
  have hfits := h.node n mem_cons_self
  have hnil : ∀ m ∈ rest, m.key ≠ [] := fun m hm heq => not_under_nil k (heq ▸ hunder m hm)
  rw [foldFrames_there (hfits.found.mpr (.inl hkey))] at hframes
  obtain ⟨⟨rfl, rfl⟩, rfl⟩ := by simpa using hframes
  have hplaced := foldFrames_placed hnil
    fun m hm => (h.node m (mem_cons_of_mem n hm)).value
  refine ⟨.node (fun x hx => ?_) (fun g hg => (hplaced n.key g hg).1)
    fun g hg => (hplaced n.key g hg).2, hkey, fun e he => hunder _ (mem_foldFrames e he),
    fun j x => ?_⟩
  · obtain ⟨r, hr, rfl⟩ := Option.map_eq_some_iff.mp hx
    exact hfits.value r hr
  · -- levels below the root are in the rest of the table
    have hreached : Reached (n :: rest) k j ↔ Reached rest k j := by
      constructor
      · intro hr l hl hlj
        obtain ⟨m, hm, hml, hfound⟩ := hr l hl hlj
        rcases mem_cons.mp hm with rfl | hm
        · exact absurd (hkey.symm.trans hml) hl.2
        · exact ⟨m, hm, hml, hfound⟩
      · intro hr l hl hlj
        obtain ⟨m, hm, hml⟩ := hr l hl hlj
        exact ⟨m, mem_cons_of_mem n hm, hml⟩
    rw [Fold.mem_carried, hkey, foldFrames_carried hrank hnil, hreached]
    constructor
    · intro hj
      rcases hj with ⟨rfl, hx⟩ | ⟨-, hr, m, hm, hmj⟩
      · refine ⟨fun l hl hlj => ?_, n, mem_cons_self, hkey, hx⟩
        exact absurd (hl.1.eq_of_length_le hlj.length_le) hl.2
      · exact ⟨hr, m, mem_cons_of_mem n hm, hmj⟩
    · intro hj
      obtain ⟨hr, m, hm, hmj, hx⟩ := hj
      rcases mem_cons.mp hm with rfl | hm
      · exact .inl ⟨hmj.symm.trans hkey, hx⟩
      · exact .inr ⟨hmj ▸ hunder m hm, hr, m, hm, hmj, hx⟩

theorem Complete.selected_iff (hn : n ∈ table) :
    n.selected = true ↔ n.found = true ∧ p.Selects k s n.key := by
  refine ⟨(h.node n hn).selected, fun hsel => ?_⟩
  obtain ⟨m, hm, hkey, hm'⟩ := h.chosen n.key hsel.2
  rw [h.inj hm hn hkey] at hm'
  exact hm' hsel.1

theorem Complete.found_iff (hk : p.found k = true)
    (hn : n ∈ table) : n.found = true ↔ p.found n.key = true := by
  rw [(h.node n hn).found, or_iff_right_of_imp fun heq => heq ▸ hk]

/-- **What the frame carries**: the values of the selected vertices to which all levels are there. -/
theorem Complete.mem_carried (hk : p.found k = true)
    (hframes : (foldFrames table).2 = (root, f) :: below) (j : Key) (x : Tlv) :
    (j, x) ∈ f.carried ↔ p.Selects k s j ∧ p.found j = true ∧ (s.lkv j).map Ref.value = some x ∧
      ∀ l, Under k l → l <:+ j → p.found l = true := by
  rw [(h.frame hframes).2.2.2]
  constructor
  · intro hj
    obtain ⟨hreach, n, hn, rfl, hx⟩ := hj
    have hlkv := (h.node n hn).lkv
    have hsel : n.selected = true := by
      by_contra hsel
      rw [if_neg hsel] at hlkv
      rw [hlkv] at hx
      cases hx
    obtain ⟨hfound, hselects⟩ := (h.selected_iff hn).mp hsel
    rw [if_pos hsel] at hlkv
    refine ⟨hselects, (h.found_iff hk hn).mp hfound, hlkv ▸ hx, fun l hl hlj => ?_⟩
    obtain ⟨m, hm, rfl, hm'⟩ := hreach l hl hlj
    exact (h.found_iff hk hm).mp hm'
  · intro hj
    obtain ⟨hselects, hfound, hx, hlevels⟩ := hj
    obtain ⟨n, hn, rfl, -⟩ := h.chosen j hselects
    have hsel : n.selected = true :=
      (h.selected_iff hn).mpr ⟨(h.found_iff hk hn).mpr hfound, hselects⟩
    refine ⟨fun l hl hlj => ?_, n, hn, rfl, ?_⟩
    · obtain ⟨m, hm, rfl⟩ : ∃ m ∈ table, m.key = l := by
        rcases hselects with heq | hdue
        · exact absurd (hl.1.eq_of_length_le (heq ▸ hlj.length_le)) hl.2
        · exact h.levels _ hdue l hl hlj
      exact ⟨m, hm, rfl, (h.found_iff hk hm).mpr (hlevels _ hl hlj)⟩
    · rw [(h.node n hn).lkv, if_pos hsel]
      exact hx

end

end Plane

end LibTracer.Graph
