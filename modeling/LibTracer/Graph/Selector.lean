import LibTracer.Graph.Branch
import LibTracer.Graph.PathText
import LibTracer.Wire.RoundTrip

/-!
# Field selectors on the wire

A request names a field by a FIELD selector: for each level a NAME, and behind it no VALUE, an index mode,
or an index and a mode.  The terminus reads it into the steps a path's text is parsed to.

* **`reads_iff_narrow`** — the steps have the indices that were carried if and only if each has sixteen
  bits and none is followed by the mode of a wildcard.
-/

namespace LibTracer.PathText

open Wire Grammar List
open LittleEndian (load load_cons load_store_of_lt store)
open Crc (Bytes)
open LibTracer.Graph (VALUE NAME)

/-! ## Reading a selector -/

structure Item where
  type : UInt8
  body : Bytes
  deriving DecidableEq, Repr

/-- The VALUEs behind a name, at most `k`, and what follows them. -/
def takeValues : Nat → List Item → List Bytes × List Item
  | k + 1, it :: rest =>
    if it.type = VALUE then (it.body :: (takeValues k rest).1, (takeValues k rest).2)
    else ([], it :: rest)
  | _, rest => ([], rest)

/-- `load_le<std::uint32_t>`. -/
def loadLe32 (body : Bytes) : Nat := LittleEndian.load (body.take 4)

def registers (values : List Bytes) : Nat × Nat :=
  values.foldl (fun vals body => (vals.2, loadLe32 body)) (0, 0)

def subscribers : Bytes := [0x73, 0x75, 0x62, 0x73, 0x63, 0x72, 0x69, 0x62, 0x65, 0x72, 0x73]

/-- `selector_to_field`: one level, whose mode is the low byte of its slot; `head` is the name of the first
level. -/
def levelStep (head name : Bytes) (values : List Bytes) : Except Status (FieldStep Bytes) :=
  let vals := registers values
  let hasIndex := values.length == 2
  let index := vals.1 % 65536
  if vals.2 % 256 = 1 then .ok { name, indexed := true, append := !hasIndex, index }
  else if vals.2 % 256 = 2 then
    if head ≠ subscribers then .error .INVALID_PATH
    else .ok { name, indexed := true, wildcard := true }
  else if vals.2 % 256 = 0 then .ok { name, indexed := hasIndex, index }
  else .error .INVALID_PATH

/-- `selector_to_field`: the loop over the levels. -/
def selectorLoop : Nat → List Item → List (FieldStep Bytes) → Except Status (List (FieldStep Bytes))
  | _, [], steps => .ok steps
  | 0, _ :: _, _ => .error .INVALID_PATH
  | fuel + 1, it :: rest, steps =>
    if it.type ≠ NAME then .error .INVALID_PATH
    else if kMaxSegmentBytes < it.body.length ∨ steps.length = kMaxFieldDepth then .error .INVALID_PATH
    else
      match levelStep ((steps.map (·.name)).headD it.body) it.body (takeValues 2 rest).1 with
      | .error e => .error e
      | .ok st => selectorLoop fuel (takeValues 2 rest).2 (steps ++ [st])

/-- `selector_to_field`: every level takes an item or more. -/
def selectorToField (items : List Item) : Except Status (List (FieldStep Bytes)) :=
  selectorLoop items.length items []

def fieldItems (body : Bytes) : List Item :=
  (TlvNode.childrenFrom body.length body).map fun n => ⟨n.type, n.body⟩

/-! ## Writing one -/

def putLeaf (type : UInt8) (body : Bytes) : Bytes :=
  emitHeader type { ll := decide (body.length > 0xFFFF) } body.length ++ body

def stepLeaves (st : FieldStep Bytes) : List Item :=
  ⟨NAME, st.name⟩ ::
    if st.wildcard then [⟨VALUE, LittleEndian.store 2 1⟩]
    else if st.append then [⟨VALUE, LittleEndian.store 1 1⟩]
    else if st.indexed then [⟨VALUE, LittleEndian.store st.index 4⟩, ⟨VALUE, LittleEndian.store 1 1⟩]
    else []

def putFieldBody (steps : List (FieldStep Bytes)) : Bytes :=
  (steps.flatMap stepLeaves).flatMap fun it => putLeaf it.type it.body

/-! ## What a selector carries -/

def carriedIndex : List Bytes → Option Nat
  | [index, _] => some (LittleEndian.load index)
  | _ => none

/-- Level by level the name and the VALUEs behind it. -/
def levelsLoop : Nat → List Item → List (Bytes × List Bytes)
  | fuel + 1, it :: rest => (it.body, (takeValues 2 rest).1) :: levelsLoop fuel (takeValues 2 rest).2
  | _, _ => []

def levels (items : List Item) : List (Bytes × List Bytes) := levelsLoop items.length items

def carried (items : List Item) : List (Bytes × Option Nat) :=
  (levels items).map fun l => (l.1, carriedIndex l.2)

def FieldStep.at? {ν : Type} (st : FieldStep ν) : Option Nat :=
  if st.indexed && !st.append && !st.wildcard then some st.index else none

/-- A step read from a level: its name, and the low sixteen bits of its index unless the mode is that of a
wildcard. -/
structure ReadsLevel (level : Bytes × List Bytes) (st : FieldStep Bytes) : Prop where
  name : st.name = level.1
  absent : carriedIndex level.2 = none → st.at? = none
  index : ∀ index mode, level.2 = [index, mode] →
    st.at? = if load mode % 256 = 2 then none else some (load index % 65536)

theorem load_take (body : Bytes) (n : Nat) : load (body.take n) = load body % 256 ^ n := by
  induction body generalizing n with
  | nil => simp
  | cons b bs ih =>
    cases n with
    | zero => simp [Nat.mod_one]
    | succ n =>
      rw [take_succ_cons, load_cons, load_cons, ih, Nat.pow_succ',
        Nat.mod_mul, Nat.add_mul_mod_self_left, Nat.mod_eq_of_lt b.toNat_lt,
        Nat.add_mul_div_left _ _ (by decide), Nat.div_eq_of_lt b.toNat_lt, zero_add]

theorem length_takeValues (k : Nat) (items : List Item) : (takeValues k items).1.length ≤ k := by
  fun_induction takeValues k items <;> simp_all

theorem readsLevel_levelStep {head name : Bytes} {values : List Bytes} {st : FieldStep Bytes}
    (hlen : values.length ≤ 2) (h : levelStep head name values = .ok st) :
    ReadsLevel (name, values) st := by
  have hwrap : ∀ {m : Nat} (body : Bytes), m ∣ 256 ^ 4 → loadLe32 body % m = load body % m := by
    intro m body hm
    rw [loadLe32, load_take, Nat.mod_mod_of_dvd _ hm]
  match values, hlen with
  | [], _ =>
    cases h
    exact ⟨rfl, fun _ => rfl, fun _ _ => nofun⟩
  | [mode], _ =>
    revert h
    fun_cases levelStep head name [mode] <;> intro h <;> cases h <;>
      exact ⟨rfl, fun _ => rfl, fun _ _ => nofun⟩
  | [index, mode], _ =>
    have hmode : (registers [index, mode]).2 % 256 = load mode % 256 := hwrap mode (by decide)
    have hindex : (registers [index, mode]).1 % 65536 = load index % 65536 := hwrap index (by decide)
    rw [levelStep, hmode, hindex] at h
    refine ⟨?_, nofun, fun _ _ heq => ?_⟩
    · grind
    · cases heq
      grind [FieldStep.at?]

variable {steps : List (FieldStep Bytes)} {items : List Item} {it : Item}

variable {fuel : Nat}

/-- **Level by level**: each step is read from what its level carries. -/
theorem selectorLoop_reads {out : List (FieldStep Bytes)} (h : selectorLoop fuel items steps = .ok out) :
    ∃ new, out = steps ++ new ∧ List.Forall₂ ReadsLevel (levelsLoop fuel items) new := by
  induction fuel generalizing items steps with
  | zero =>
    cases items with
    | nil =>
      cases h
      exact ⟨[], (append_nil _).symm, .nil⟩
    | cons it rest => cases h
  | succ fuel ih =>
    cases items with
    | nil =>
      cases h
      exact ⟨[], (append_nil _).symm, .nil⟩
    | cons it rest =>
      rw [selectorLoop] at h
      split at h
      · cases h
      split at h
      · cases h
      split at h
      · cases h
      next st hst =>
        obtain ⟨new, rfl, hnew⟩ := ih h
        exact ⟨st :: new, append_assoc _ _ _,
          .cons (readsLevel_levelStep (length_takeValues 2 rest) hst) hnew⟩

/-- Where a level has two VALUEs, the first has sixteen bits and the second is not the mode of a wildcard. -/
def Narrow (items : List Item) : Prop :=
  ∀ l ∈ levels items, ∀ index mode, l.2 = [index, mode] → load index < 65536 ∧ load mode % 256 ≠ 2

theorem reads_iff {levels : List (Bytes × List Bytes)} (h : List.Forall₂ ReadsLevel levels steps) :
    steps.map (fun st => (st.name, st.at?)) = levels.map (fun l => (l.1, carriedIndex l.2)) ↔
      ∀ l ∈ levels, ∀ index mode, l.2 = [index, mode] → load index < 65536 ∧ load mode % 256 ≠ 2 := by
  induction h with
  | nil => simp
  | @cons level st levels steps hst _ ih =>
    have hone : (st.name, st.at?) = (level.1, carriedIndex level.2) ↔
        ∀ index mode, level.2 = [index, mode] → load index < 65536 ∧ load mode % 256 ≠ 2 := by
      obtain ⟨name, values⟩ := level
      rw [hst.name]
      fun_cases carriedIndex values with
      | case1 index mode =>
        rw [hst.index index mode rfl]
        by_cases hw : load mode % 256 = 2 <;> simp [hw]
      | case2 values hne =>
        exact iff_of_true (by rw [hst.absent (carriedIndex.eq_2 values hne)])
          fun index mode heq => absurd heq (hne index mode)
    rw [map_cons, map_cons, cons_eq_cons, ih, hone, forall_mem_cons]

/-! ## What is written is read back -/

def Item.leaf (it : Item) : Tlv := .mk it.type {} it.body [] none

structure Item.Sendable (it : Item) : Prop where
  named : it.type = NAME ∨ it.type = VALUE
  short : it.body.length < 2 ^ 32

theorem Item.Sendable.sends (h : it.Sendable) :
    bodyBytes it.leaf = some it.body.length ∧ Sends [it.leaf] (putLeaf it.type it.body) := by
  have hno : isPathRefType it.type = false := by rcases h.named with h | h <;> rw [h] <;> decide
  have hputs : putLeaf it.type it.body =
      emitHeader it.type (widen {} it.body.length) it.body.length ++ it.body := by
    rw [putLeaf, widen]
    by_cases hbig : it.body.length > 0xFFFF <;> simp [hbig]
  exact hputs ▸ Sends.leaf hno it.body

theorem item_of_treeOf {c : Cell} {kids : List Node}
    (h : treeOf (.mk c.header c.wire kids) = sent it.leaf) :
    (⟨(nodeOf (.mk c.header c.wire kids)).type, (nodeOf (.mk c.header c.wire kids)).body⟩ : Item) = it := by
  rw [treeOf_cell, Item.leaf, sent] at h
  injection h with htype hopt hpayload
  have hpl : c.opt.pl = false := by
    rw [hopt, widen]
    split <;> rfl
  rw [hpl] at hpayload
  rw [nodeOf_body, show (nodeOf (.mk c.header c.wire kids)).type = c.type from rfl, htype,
    show c.body = it.body from hpayload]

theorem items_of_parses {p : CrcCheck} {bs : Bytes} {ns : List Node} (h : Parses p bs ns) :
    ∀ items : List Item, treesOf ns = sentAll (items.map Item.leaf) →
      (ns.map nodeOf).map (fun n => (⟨n.type, n.body⟩ : Item)) = items := by
  have hcell : ∀ (c : Cell) (kids ns : List Node),
      (∀ items : List Item, treesOf ns = sentAll (items.map Item.leaf) →
        (ns.map nodeOf).map (fun n => (⟨n.type, n.body⟩ : Item)) = items) →
      ∀ items : List Item, treesOf (.mk c.header c.wire kids :: ns) = sentAll (items.map Item.leaf) →
        ((Node.mk c.header c.wire kids :: ns).map nodeOf).map (fun n => (⟨n.type, n.body⟩ : Item)) =
          items := by
    intro c kids ns ih items h
    cases items with
    | nil => cases h
    | cons it items =>
      rw [map_cons, sentAll, treesOf] at h
      injection h with hone hrest
      rw [map_cons, map_cons, item_of_treeOf hone, ih items hrest]
  induction h with
  | nil =>
    intro items h
    cases items with
    | nil => rfl
    | cons it items => cases h
  | leaf _ _ _ ih | branch _ _ _ _ _ ih => exact hcell _ _ _ ih

/-- **The children of a body of leaves are those leaves.** -/
theorem fieldItems_putLeaf (h : ∀ it ∈ items, it.Sendable) :
    fieldItems (items.flatMap fun it => putLeaf it.type it.body) = items := by
  have hput : Sends (items.map Item.leaf) (items.flatMap fun it => putLeaf it.type it.body) := by
    induction items with
    | nil => exact .nil
    | cons it items ih =>
      rw [forall_mem_cons] at h
      exact h.1.sends.2.append (ih h.2)
  obtain ⟨hn, hbytes⟩ := hput
  have hall : ∀ c ∈ items.map Item.leaf, c.All (fun t => t.type ≠ 0) ∧ c.All Short := by
    intro c hc
    obtain ⟨it, hit, rfl⟩ := mem_map.mp hc
    have hone := h it hit
    have hbody := hone.sends.1
    rw [Item.leaf] at hbody ⊢
    rw [TlvOf.all_mk, TlvOf.all_mk, Short, hbody]
    refine ⟨⟨?_, by simp⟩, hone.short, by simp⟩
    rcases hone.named with h | h <;> simp [h, NAME, VALUE]
  obtain ⟨kids, hkids, htrees⟩ := parses_putChildren _ _ hn (fun c hc => (hall c hc).1)
    (fun c hc => (hall c hc).2)
  rw [← hbytes, fieldItems, childrenFrom_of_parses hkids _ le_rfl]
  exact items_of_parses hkids items htrees

def StepSpelling.values (w : StepSpelling) : List Bytes :=
  match w.selector with
  | .none => []
  | .append => [LittleEndian.store 1 1]
  | .index digits => [LittleEndian.store (decimal digits) 4, LittleEndian.store 1 1]

theorem stepLeaves_step (w : StepSpelling) :
    stepLeaves w.step = ⟨NAME, w.name⟩ :: w.values.map (Item.mk VALUE) := by
  obtain ⟨name, selector, -, -⟩ := w
  cases selector <;> rfl

theorem levelStep_values (head : Bytes) (w : StepSpelling) :
    levelStep head w.name w.values = .ok w.step := by
  obtain ⟨name, selector, -, hholds⟩ := w
  cases selector with
  | none => rfl
  | append => rfl
  | index digits =>
    have hload : loadLe32 (store (decimal digits) 4) = decimal digits := by
      rw [loadLe32, take_of_length_le (by simp)]
      exact load_store_of_lt (Nat.lt_of_le_of_lt hholds.2.2 (by decide))
    have hindex : decimal digits % 65536 = decimal digits :=
      Nat.mod_eq_of_lt (Nat.lt_succ_of_le hholds.2.2)
    have hmode : loadLe32 (store 1 1) % 256 = 1 := by decide
    simp [levelStep, StepSpelling.values, registers, hload, hindex, hmode, StepSpelling.step,
      Selector.step]

theorem takeValues_values (w : StepSpelling) (ws : List StepSpelling) :
    takeValues 2 (w.values.map (Item.mk VALUE) ++ (ws.map StepSpelling.step).flatMap stepLeaves) =
      (w.values, (ws.map StepSpelling.step).flatMap stepLeaves) := by
  have hstop : ∀ k, takeValues k ((ws.map StepSpelling.step).flatMap stepLeaves) =
      ([], (ws.map StepSpelling.step).flatMap stepLeaves) := by
    intro k
    cases ws with
    | nil => cases k <;> rfl
    | cons w' ws =>
      rw [map_cons, flatMap_cons, stepLeaves_step]
      cases k <;> rfl
  obtain ⟨name, selector, -, -⟩ := w
  cases selector <;> simp [StepSpelling.values, takeValues, hstop]

/-- **The selector of written steps is read back.** -/
theorem selectorLoop_steps {ws : List StepSpelling} (hdepth : steps.length + ws.length ≤ kMaxFieldDepth)
    (hfuel : ((ws.map StepSpelling.step).flatMap stepLeaves).length ≤ fuel) :
    selectorLoop fuel ((ws.map StepSpelling.step).flatMap stepLeaves) steps =
      .ok (steps ++ ws.map StepSpelling.step) := by
  induction ws generalizing fuel steps with
  | nil => cases fuel <;> simp [selectorLoop]
  | cons w ws ih =>
    obtain ⟨-, hlen, -⟩ := of_validSegment w.valid
    rw [map_cons, flatMap_cons, stepLeaves_step, cons_append] at hfuel ⊢
    rw [length_cons] at hfuel hdepth
    obtain ⟨fuel, rfl⟩ : ∃ k, fuel = k + 1 := ⟨fuel - 1, by omega⟩
    rw [length_append] at hfuel
    rw [selectorLoop, if_neg (by simp), if_neg (by simp; omega), takeValues_values, levelStep_values]
    dsimp only
    rw [ih (by rw [length_append, length_singleton]; omega) (by omega), append_assoc]
    rfl

section

variable {gives : Nat → Bool} {fieldBytes : Nat} {text : Bytes} {p : Path} (h : parse gives fieldBytes text = .ok p)
include h

theorem parse_of_gives : parse (fun _ => true) fieldBytes text = .ok p := by
  have hpack : ∀ {addr : Bytes} {steps : List (FieldStep Bytes)},
      pack gives fieldBytes addr steps = .ok p → pack (fun _ => true) fieldBytes addr steps = .ok p := by
    intro addr steps
    fun_cases pack gives fieldBytes addr steps <;> intro h <;> cases h
    rename_i hsegs _
    rw [pack, hsegs, if_neg (by simp)]
  rw [parse] at h ⊢
  split at h
  · cases h
  rename_i hroot
  rw [if_neg hroot]
  split at h
  · cases h
  rename_i hlong
  rw [if_neg hlong]
  split at h
  next hfield =>
    rw [if_pos hfield]
    exact hpack h
  rename_i hfield
  rw [if_neg hfield]
  split at h
  · cases h
  · exact hpack h

theorem selectorToField_putFieldBody :
    selectorToField (fieldItems (putFieldBody p.field)) = .ok p.field := by
  obtain ⟨w, rfl⟩ := spelling_of_parse h
  obtain ⟨p', hp', -, -, hfield⟩ := parse_spelling fieldBytes (fun _ => rfl) w
  rw [parse_of_gives h] at hp'
  cases hp'
  have hsend : ∀ it ∈ (w.steps.map StepSpelling.step).flatMap stepLeaves, it.Sendable := by
    intro it hit
    obtain ⟨st, hst, hit⟩ := mem_flatMap.mp hit
    obtain ⟨s, -, rfl⟩ := mem_map.mp hst
    rw [stepLeaves_step] at hit
    rcases mem_cons.mp hit with rfl | hit
    · exact ⟨.inl rfl, Nat.lt_of_le_of_lt (of_validSegment s.valid).2.1 (by decide)⟩
    obtain ⟨v, hv, rfl⟩ := mem_map.mp hit
    refine ⟨.inr rfl, ?_⟩
    rw [StepSpelling.values] at hv
    split at hv
    · cases hv
    · rw [mem_singleton.mp hv]
      decide
    · simp only [mem_cons, not_mem_nil, or_false] at hv
      rcases hv with rfl | rfl <;> simp
  have hdepth : w.steps.length ≤ kMaxFieldDepth := by
    rw [Spelling.steps]
    cases hw : w.field with
    | none => exact Nat.zero_le _
    | some steps => exact w.depth steps hw
  rw [hfield, putFieldBody, fieldItems_putLeaf hsend, selectorToField,
    selectorLoop_steps (by simpa using hdepth) le_rfl]
  rfl

end

/-! ## Fidelity -/

/-- **The terminus resolves what a selector carries if and only if** every index has sixteen bits and none
is followed by the mode of a wildcard; what `originate` writes for a parsed path is always read back. -/
theorem reads_iff_narrow (items : List Item) (steps : List (FieldStep Bytes)) (gives : Nat → Bool)
    (fieldBytes : Nat) (text : Bytes) (p : Path) : (selectorToField items = .ok steps →
      (steps.map (fun st => (st.name, st.at?)) = carried items ↔ Narrow items)) ∧
    (parse gives fieldBytes text = .ok p →
      selectorToField (fieldItems (putFieldBody p.field)) = .ok p.field) := by
  refine ⟨fun h => ?_, selectorToField_putFieldBody⟩
  obtain ⟨new, rfl, hnew⟩ := selectorLoop_reads h
  exact reads_iff hnew

theorem reads_iff_narrow_element :
    [(subscribers, some 3)] = carried [⟨NAME, subscribers⟩, ⟨VALUE, [3, 0]⟩, ⟨VALUE, [1]⟩] ∧
      selectorToField (fieldItems (putFieldBody [{ name := subscribers }])) =
        .ok [{ name := subscribers }] := by
  have h := reads_iff_narrow [⟨NAME, subscribers⟩, ⟨VALUE, [3, 0]⟩, ⟨VALUE, [1]⟩]
    [{ name := subscribers, indexed := true, index := 3 }] (fun _ => true) 64 (0x2F :: 0x3A :: subscribers)
    ⟨subscribers, 0, 0, [{ name := (0, 11) }]⟩
  refine ⟨(h.1 (by decide)).mpr ?_, h.2 (by decide)⟩
  intro l hl index mode heq
  cases List.mem_singleton.mp hl
  cases heq
  decide

/-- **A wide index wraps**: `subscribers` at 65539 is resolved to slot 3. -/
theorem wide_index_wraps :
    fieldItems (putLeaf NAME subscribers ++ putLeaf VALUE [3, 0, 1, 0] ++ putLeaf VALUE [1]) =
        [⟨NAME, subscribers⟩, ⟨VALUE, [3, 0, 1, 0]⟩, ⟨VALUE, [1]⟩] ∧
      carried [⟨NAME, subscribers⟩, ⟨VALUE, [3, 0, 1, 0]⟩, ⟨VALUE, [1]⟩] = [(subscribers, some 65539)] ∧
      selectorToField [⟨NAME, subscribers⟩, ⟨VALUE, [3, 0, 1, 0]⟩, ⟨VALUE, [1]⟩] =
        .ok [{ name := subscribers, indexed := true, index := 3 }] := by
  decide

end LibTracer.PathText
