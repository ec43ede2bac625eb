import LibTracer.Graph.Selector

/-!
# Field selectors in text, in three languages

A selector is written as names set apart by dots, each with `[N]`, `[]`, `[*]` or nothing behind it.  Two
bindings and the core parse it and emit the FIELD that stands for it.  A text is its UTF-8 bytes.

* **`text_means_the_same_iff`** — what is emitted is read back as the levels written, and any two emit the
  same, if and only if no index the TypeScript binding accepts there exceeds 32 bits.
-/

namespace LibTracer.Bindings.FieldText

open PathText List
open Crc (Bytes)
open LibTracer.Graph (VALUE NAME)
open Segments (cutAt cutAt_of_notMem cutAt_append)

/-! ## Levels -/

inductive FieldMode where
  | scalar
  | element
  | wildcard
  deriving DecidableEq, Repr

structure FieldLevel where
  name : Bytes
  index : Option Nat := none
  mode : FieldMode := .scalar
  deriving DecidableEq, Repr

def star : UInt8 := 0x2A
def plus : UInt8 := 0x2B

/-- `parse_level`, over how a number is read. -/
def parseLevel (number : Bytes → Option Nat) (part : Bytes) : Option FieldLevel :=
  match cutAt bracket part with
  | (name, none) => if name = [] then none else some { name }
  | (name, some after) =>
    if part.getLast? ≠ some unbracket ∨ name = [] then none
    else if after.dropLast = [star] then some { name, mode := .wildcard }
    else if after.dropLast = [] then some { name, mode := .element }
    else (number after.dropLast).map fun i => { name, index := some i, mode := .element }

def numeral (text : Bytes) : Option Nat :=
  let digits := if text.head? = some plus then text.tail else text
  if digits ≠ [] ∧ digits.all isDigit then some (decimal digits) else none

/-- `str::parse::<u32>` -/
def parseU32 (text : Bytes) : Option Nat := (numeral text).filter (· < 2 ^ 32)

/-- The `\d*` of a level's pattern. -/
def digits (text : Bytes) : Option Nat := if text.all isDigit then some (decimal text) else none

/-- `parseField`: the pattern of a level, whose name has no closing bracket. -/
def matchLevel (part : Bytes) : Option FieldLevel :=
  if unbracket ∈ (cutAt bracket part).1 then none else parseLevel digits part

def body (field : Bytes) : Bytes := if field.head? = some colon then field.tail else field

/-- The levels of a selector: `split('.')`, and one level for each part. -/
def levels (level : Bytes → Option FieldLevel) (field : Bytes) : Option (List FieldLevel) :=
  if body field = [] then none else ((body field).splitOn dot).mapM level

def written (field : Bytes) : Option (List FieldLevel) := levels (parseLevel numeral) field

/-! ## What is emitted -/

/-- `field_tlv`: the children of one level, over how an index is stored. -/
def levelItems (store : Nat → Bytes) (l : FieldLevel) : List Item :=
  ⟨NAME, l.name⟩ ::
    match l.mode with
    | .scalar => []
    | .wildcard => [⟨VALUE, [2]⟩]
    | .element => (l.index.map fun i => ⟨VALUE, store i⟩).toList ++ [⟨VALUE, [1]⟩]

def fieldTlv (store : Nat → Bytes) (ls : List FieldLevel) : Option (List Item) :=
  if ls = [] ∨ kMaxFieldDepth < ls.length ∨ ¬ ls.all (fun l => validSegment l.name) then none
  else some (ls.flatMap (levelItems store))

def valueU32 (i : Nat) : Bytes := LittleEndian.store i 4

/-- `Number(digits)` of 53 bits or more: the nearest multiple of its last place, a tie to the even one. -/
def nearest (n : Nat) : Nat :=
  let ulp := 2 ^ (n.log2 - 52)
  let up := if ulp < 2 * (n % ulp) ∨ (2 * (n % ulp) = ulp ∧ n / ulp % 2 = 1) then 1 else 0
  (n / ulp + up) * ulp

/-- `Number(digits) >>> 0`: past the largest double it is an infinity, which gives zero. -/
def toUint32 (n : Nat) : Nat :=
  if n < 2 ^ 53 then n % 2 ^ 32
  else if 1024 ≤ (nearest n).log2 then 0
  else nearest n % 2 ^ 32

/-- `encodeField` -/
def encodeFieldTs (field : Bytes) : Option (List Item) :=
  (levels matchLevel field).bind (fieldTlv fun i => valueU32 (toUint32 i))

/-- `encode_field` -/
def encodeFieldRust (field : Bytes) : Option (List Item) :=
  (levels (parseLevel parseU32) field).bind (fieldTlv valueU32)

/-- `path_t::parse` and `put_field_body`, over the text of a whole path. -/
def encodeFieldCpp (gives : Nat → Bool) (fieldBytes : Nat) (text : Bytes) : Option (List Item) :=
  match parse gives fieldBytes text with
  | .error _ => none
  | .ok p => some (p.field.flatMap stepLeaves)

/-- `parse_field_tlv`: an index, if a VALUE of two bytes or more follows. -/
def takeIndex : List Item → Option Nat × List Item
  | [] => (none, [])
  | it :: rest =>
    if it.type = VALUE ∧ 2 ≤ it.body.length then (some (LittleEndian.load it.body % 2 ^ 32), rest)
    else (none, it :: rest)

/-- `parse_field_tlv`: a mode, if a VALUE of one byte follows. -/
def takeMode : List Item → FieldMode × List Item
  | [] => (.scalar, [])
  | it :: rest =>
    if it.type = VALUE ∧ it.body.length = 1 then
      (if it.body = [2] then .wildcard else if it.body = [1] then .element else .scalar, rest)
    else (.scalar, it :: rest)

/-- `parse_field_tlv`: the loop over the levels. -/
def parseFieldLoop : Nat → List Item → Option (List FieldLevel)
  | _, [] => some []
  | 0, _ :: _ => none
  | fuel + 1, it :: rest =>
    if it.type ≠ NAME then none
    else
      let l : FieldLevel :=
        { name := it.body, index := (takeIndex rest).1, mode := (takeMode (takeIndex rest).2).1 }
      (parseFieldLoop fuel (takeMode (takeIndex rest).2).2).map (l :: ·)

def parseFieldTlv (items : List Item) : Option (List FieldLevel) := parseFieldLoop items.length items

/-! ## What is emitted is read back -/

def FieldLevel.Formed (l : FieldLevel) : Prop := ∀ i, l.index = some i → l.mode = .element

def FieldLevel.stored (store : Nat → Bytes) (l : FieldLevel) : FieldLevel :=
  { l with index := l.index.map fun i => LittleEndian.load (store i) % 2 ^ 32 }

section

variable {store : Nat → Bytes} (store) in
theorem take_items (ls : List FieldLevel) :
    takeIndex (ls.flatMap (levelItems store)) = (none, ls.flatMap (levelItems store)) ∧
      takeMode (ls.flatMap (levelItems store)) = (.scalar, ls.flatMap (levelItems store)) := by
  cases ls <;> exact ⟨rfl, rfl⟩

variable {ls : List FieldLevel}

theorem parseFieldLoop_items (hlen : ∀ i, (store i).length = 4)
    (hls : ∀ l ∈ ls, l.Formed) {fuel : Nat} (hfuel : ls.length ≤ fuel) :
    parseFieldLoop fuel (ls.flatMap (levelItems store)) = some (ls.map (FieldLevel.stored store)) := by
  induction ls generalizing fuel with
  | nil => cases fuel <;> rfl
  | cons l ls ih =>
    rw [length_cons] at hfuel
    obtain ⟨fuel, rfl⟩ : ∃ k, fuel = k + 1 := ⟨fuel - 1, by omega⟩
    obtain ⟨hl, hls⟩ := forall_mem_cons.mp hls
    have hrest := ih hls (Nat.le_of_succ_le_succ hfuel)
    obtain ⟨hindex, hmode⟩ := take_items store ls
    rw [flatMap_cons, map_cons]
    obtain ⟨name, index, mode⟩ := l
    cases index with
    | none =>
      cases mode with
      | scalar => simp [levelItems, parseFieldLoop, hindex, hmode, hrest, FieldLevel.stored]
      | element | wildcard =>
        simp [levelItems, parseFieldLoop, takeIndex, takeMode, hrest, FieldLevel.stored]
    | some i =>
      cases (hl i rfl : mode = .element)
      simp [levelItems, parseFieldLoop, takeIndex, takeMode, hlen, hrest, FieldLevel.stored]

theorem parseFieldTlv_items (hlen : ∀ i, (store i).length = 4) (hls : ∀ l ∈ ls, l.Formed) :
    parseFieldTlv (ls.flatMap (levelItems store)) = some (ls.map (FieldLevel.stored store)) := by
  refine parseFieldLoop_items hlen hls ?_
  clear hls
  induction ls with
  | nil => exact Nat.zero_le _
  | cons l ls ih =>
    rw [flatMap_cons, length_append, levelItems, length_cons, length_cons]
    omega

end

theorem toUint32_lt (i : Nat) : toUint32 i < 2 ^ 32 := by
  rw [toUint32]
  split
  · exact Nat.mod_lt _ (by decide)
  split
  · decide
  · exact Nat.mod_lt _ (by decide)

theorem toUint32_eq_iff (i : Nat) : toUint32 i = i ↔ i < 2 ^ 32 := by
  refine ⟨fun h => h ▸ toUint32_lt i, fun h => ?_⟩
  rw [toUint32, if_pos (Nat.lt_trans h (by decide)), Nat.mod_eq_of_lt h]

def Fits (ls : List FieldLevel) : Prop := ∀ l ∈ ls, ∀ i, l.index = some i → i < 2 ^ 32

variable {ls : List FieldLevel}

theorem stored_eq_iff {f : Nat → Nat} : ls.map (FieldLevel.stored fun i => valueU32 (f i)) = ls ↔
      ∀ l ∈ ls, ∀ i, l.index = some i → f i % 2 ^ 32 = i := by
  have hload : ∀ i, LittleEndian.load (valueU32 (f i)) % 2 ^ 32 = f i % 2 ^ 32 := by
    intro i
    rw [valueU32, LittleEndian.load_store]
    exact Nat.mod_mod _ _
  induction ls with
  | nil => simp
  | cons l ls ih =>
    rw [map_cons, cons_eq_cons, forall_mem_cons]
    refine and_congr ?_ ih
    obtain ⟨name, index, mode⟩ := l
    cases index with
    | none => simp [FieldLevel.stored]
    | some i =>
      rw [FieldLevel.stored, Option.map_some, hload]
      simp

/-! ## What is accepted is what is written -/

variable {parts : List Bytes} {f : Bytes → Option FieldLevel} {part : Bytes} {l : FieldLevel}
  {store : Nat → Bytes}

theorem mapM_of_imp {g : Bytes → Option FieldLevel} (h : ∀ part l, f part = some l → g part = some l)
    (hls : parts.mapM f = some ls) : parts.mapM g = some ls := by
  induction parts generalizing ls with
  | nil => exact hls
  | cons part parts ih =>
    simp only [mapM_cons, Option.bind_eq_bind, Option.bind_eq_some_iff] at hls ⊢
    obtain ⟨l, hl, rest, hrest, heq⟩ := hls
    exact ⟨l, h part l hl, rest, ih hrest, heq⟩

theorem mem_of_mapM (hls : parts.mapM f = some ls) : ∀ l ∈ ls, ∃ part, f part = some l := by
  induction parts generalizing ls with
  | nil =>
    cases hls
    simp
  | cons part parts ih =>
    simp only [mapM_cons, Option.bind_eq_bind, Option.bind_eq_some_iff] at hls
    obtain ⟨l, hl, rest, hrest, heq⟩ := hls
    cases heq
    exact forall_mem_cons.mpr ⟨⟨part, hl⟩, ih hrest⟩

variable {level : Bytes → Option FieldLevel} {field : Bytes}

theorem level_of_levels (h : levels level field = some ls) : ∀ l ∈ ls, ∃ part, level part = some l := by
  rw [levels] at h
  split at h
  · cases h
  · exact mem_of_mapM h

theorem written_of_levels (himp : ∀ part l, level part = some l → parseLevel numeral part = some l)
    (h : levels level field = some ls) : written field = some ls := by
  rw [levels] at h
  rw [written, levels]
  split at h
  · cases h
  next hne =>
    rw [if_neg hne]
    exact mapM_of_imp himp h

theorem parseLevel_of_imp {f g : Bytes → Option Nat}
    (h : ∀ text i, text ≠ [] → f text = some i → g text = some i)
    (hl : parseLevel f part = some l) : parseLevel g part = some l := by
  revert hl
  fun_cases parseLevel f part <;> intro hl <;> simp_all [parseLevel]
  obtain ⟨i, hi, hl⟩ := hl
  exact ⟨i, h _ i (by assumption) hi, hl⟩

theorem formed_of_parseLevel {number : Bytes → Option Nat} (h : parseLevel number part = some l) :
    l.Formed ∧ ∀ i, l.index = some i → ∃ text, number text = some i := by
  revert h
  fun_cases parseLevel number part <;> intro h
  case case6 =>
    obtain ⟨i, hi, rfl⟩ := Option.map_eq_some_iff.mp h
    refine ⟨fun _ _ => rfl, fun j hj => ?_⟩
    cases hj
    exact ⟨_, hi⟩
  all_goals cases h
  all_goals exact ⟨fun _ => nofun, fun _ => nofun⟩

variable {text : Bytes}

theorem numeral_of_digits {i : Nat} (hne : text ≠ []) (h : digits text = some i) :
    numeral text = some i := by
  rw [digits] at h
  split at h
  next hall =>
    have hplus : text.head? ≠ some plus := by
      intro hhead
      obtain ⟨b, rest, rfl⟩ := exists_cons_of_ne_nil hne
      cases hhead
      simp at hall
      exact absurd hall.1 (by decide)
    rw [numeral, if_neg hplus, if_pos ⟨hne, hall⟩]
    exact h
  · cases h

theorem numeral_of_parseU32 {i : Nat} (h : parseU32 text = some i) :
    numeral text = some i ∧ i < 2 ^ 32 := by
  obtain ⟨hnum, hlt⟩ := Option.filter_eq_some_iff.mp h
  exact ⟨hnum, of_decide_eq_true hlt⟩

variable {items : List Item}

theorem of_fieldTlv (h : fieldTlv store ls = some items) : ls.flatMap (levelItems store) = items := by
  rw [fieldTlv] at h
  split at h
  · cases h
  · exact Option.some.inj h

theorem formed_of_written (h : written field = some ls) : ∀ l ∈ ls, l.Formed := by
  intro l hl
  obtain ⟨part, hpart⟩ := level_of_levels h l hl
  exact (formed_of_parseLevel hpart).1

/-- The emission of the levels that are written. -/
structure Emits (store : Nat → Bytes) (field : Bytes) (ls : List FieldLevel) (items : List Item) : Prop where
  spelt : written field = some ls
  formed : ∀ l ∈ ls, l.Formed
  items : ls.flatMap (levelItems store) = items

theorem emits_ts (h : encodeFieldTs field = some items) :
    ∃ ls, Emits (fun i => valueU32 (toUint32 i)) field ls items := by
  obtain ⟨ls, hls, htlv⟩ := Option.bind_eq_some_iff.mp h
  have hlevel : ∀ part l, matchLevel part = some l → parseLevel numeral part = some l := by
    intro part l hl
    rw [matchLevel] at hl
    split at hl
    · cases hl
    · exact parseLevel_of_imp (fun _ _ => numeral_of_digits) hl
  have hwritten := written_of_levels hlevel hls
  exact ⟨ls, hwritten, formed_of_written hwritten, of_fieldTlv htlv⟩

theorem emits_rust (h : encodeFieldRust field = some items) :
    ∃ ls, Emits valueU32 field ls items ∧ Fits ls := by
  obtain ⟨ls, hls, htlv⟩ := Option.bind_eq_some_iff.mp h
  have hwritten := written_of_levels
    (fun _ _ => parseLevel_of_imp fun _ _ _ hi => (numeral_of_parseU32 hi).1) hls
  refine ⟨ls, ⟨hwritten, formed_of_written hwritten, of_fieldTlv htlv⟩, fun l hl i hi => ?_⟩
  obtain ⟨part, hpart⟩ := level_of_levels hls l hl
  obtain ⟨text, htext⟩ := (formed_of_parseLevel hpart).2 i hi
  exact (numeral_of_parseU32 htext).2

/-! ## The core's texts -/

def levelOf (w : StepSpelling) : FieldLevel :=
  match w.selector with
  | .none => { name := w.name }
  | .append => { name := w.name, mode := .element }
  | .index digits => { name := w.name, index := some (decimal digits), mode := .element }

theorem stepLeaves_eq (w : StepSpelling) : stepLeaves w.step = levelItems valueU32 (levelOf w) := by
  obtain ⟨name, selector, -, -⟩ := w
  cases selector <;> rfl

theorem parseLevel_text (w : StepSpelling) : parseLevel numeral w.text = some (levelOf w) := by
  obtain ⟨name, selector, hvalid, hholds⟩ := w
  obtain ⟨hne, -, hres⟩ := of_validSegment hvalid
  have hnone := hres bracket (by decide)
  cases selector with
  | none =>
    rw [parseLevel, StepSpelling.text, Selector.text, append_nil, cutAt_of_notMem hnone]
    exact if_neg hne
  | append =>
    rw [parseLevel, StepSpelling.text, Selector.text, cutAt_append hnone]
    simp [hne, levelOf]
  | index digits =>
    obtain ⟨hdig, hall, -⟩ := hholds
    have hnum : numeral digits = some (decimal digits) :=
      numeral_of_digits hdig (if_pos (all_eq_true.mpr hall))
    have hstar : digits ≠ [star] := by
      rintro rfl
      exact absurd (hall star (mem_singleton_self _)) (by decide)
    have hlast : (name ++ bracket :: (digits ++ [unbracket])).getLast? = some unbracket := by
      rw [← cons_append, ← append_assoc, getLast?_concat]
    rw [parseLevel, StepSpelling.text, Selector.text, cutAt_append hnone]
    simp [hlast, hne, hstar, hdig, hnum, levelOf]

theorem splitOn_dotted {ws : List StepSpelling} (hne : ws ≠ []) :
    (dotted (ws.map StepSpelling.text)).splitOn dot = ws.map StepSpelling.text := by
  have hjoin : dotted (ws.map StepSpelling.text) = [dot].intercalate (ws.map StepSpelling.text) := by
    obtain ⟨w, ws, rfl⟩ := exists_cons_of_ne_nil hne
    rw [map_cons, Segments.intercalate_cons]
    rfl
  rw [hjoin]
  refine splitOn_intercalate dot (fun l hl => ?_) (by simpa using hne)
  obtain ⟨w, -, rfl⟩ := mem_map.mp hl
  exact dot_notMem_text w

theorem emits_cpp {gives : Nat → Bool} {fieldBytes : Nat}
    (hfield : (cutAt colon text).2 = some (body field)) (hne : body field ≠ [])
    (h : encodeFieldCpp gives fieldBytes text = some items) :
    ∃ ls, Emits valueU32 field ls items ∧ Fits ls := by
  rw [encodeFieldCpp] at h
  split at h
  · cases h
  rename_i p hp
  obtain ⟨w, rfl⟩ := spelling_of_parse hp
  obtain ⟨p', hp', -, -, hsteps⟩ := parse_spelling fieldBytes (fun _ => rfl) w
  rw [parse_of_gives hp] at hp'
  cases hp'
  rw [cutAt_text] at hfield
  obtain ⟨ws, hws, hbody⟩ := Option.map_eq_some_iff.mp hfield
  have hnil : ws ≠ [] := by
    rintro rfl
    exact hne hbody.symm
  have hlevels : ∀ ws : List StepSpelling,
      (ws.map StepSpelling.text).mapM (parseLevel numeral) = some (ws.map levelOf) := by
    intro ws
    induction ws with
    | nil => rfl
    | cons w ws ih => simp [mapM_cons, parseLevel_text, ih]
  have hwritten : written field = some (ws.map levelOf) := by
    rw [written, levels, if_neg hne, ← hbody, splitOn_dotted hnil, hlevels]
  refine ⟨ws.map levelOf, ⟨hwritten, formed_of_written hwritten, ?_⟩, fun l hl i hi => ?_⟩
  · rw [← Option.some.inj h, hsteps, Spelling.steps, hws, Option.getD_some, flatMap_map, flatMap_map]
    exact flatMap_congr fun w _ => (stepLeaves_eq w).symm
  · obtain ⟨⟨name, selector, _, hholds⟩, _, rfl⟩ := mem_map.mp hl
    cases selector with
    | none | append => cases hi
    | index digits =>
      cases hi
      exact Nat.lt_of_le_of_lt hholds.2.2 (by decide)

/-! ## One meaning -/

/-- The text is written as levels, and what was emitted is read back as those. -/
def ReadBack (field : Bytes) (items : List Item) : Prop :=
  ∃ ls, written field = some ls ∧ parseFieldTlv items = some ls

theorem Emits.reads {f : Nat → Nat} (h : Emits (fun i => valueU32 (f i)) field ls items) :
    ReadBack field items ↔ ∀ l ∈ ls, ∀ i, l.index = some i → f i % 2 ^ 32 = i := by
  have hlen : ∀ i, (valueU32 (f i)).length = 4 := fun _ => LittleEndian.length_store _ _
  rw [← stored_eq_iff, ← Option.some_inj, ← parseFieldTlv_items hlen h.formed, h.items, ReadBack, h.spelt]
  simp

theorem Emits.agree {store' : Nat → Bytes} {ls' : List FieldLevel}
    {items' : List Item} (h : Emits store field ls items) (h' : Emits store' field ls' items')
    (hstore : ∀ l ∈ ls', ∀ i, l.index = some i → store i = store' i) : items = items' := by
  obtain rfl : ls = ls' := Option.some.inj (h.spelt.symm.trans h'.spelt)
  rw [← h.items, ← h'.items]
  refine flatMap_congr fun l hl => ?_
  obtain ⟨name, index, mode⟩ := l
  cases index with
  | none => rfl
  | some i => rw [levelItems, levelItems, Option.map_some, Option.map_some, hstore _ hl i rfl]

/-- **A selector's text has one meaning if and only if** the TypeScript binding accepts no index in it that
needs more than 32 bits.  One meaning: whatever is emitted for it is read back as the levels it is written
as, and what two implementations emit is the same. -/
theorem text_means_the_same_iff (field : Bytes) :
    ((∀ items, encodeFieldTs field = some items → ReadBack field items) ∧
      (∀ items, encodeFieldRust field = some items → ReadBack field items ∧
        ∀ ts, encodeFieldTs field = some ts → ts = items) ∧
      ∀ gives fieldBytes text, (cutAt colon text).2 = some (body field) → body field ≠ [] →
        ∀ items, encodeFieldCpp gives fieldBytes text = some items → ReadBack field items ∧
          (∀ ts, encodeFieldTs field = some ts → ts = items) ∧
          ∀ rust, encodeFieldRust field = some rust → rust = items) ↔
    ((encodeFieldTs field).isSome → ∀ ls, written field = some ls → Fits ls) := by
  have hmod : ∀ i, toUint32 i % 2 ^ 32 = i ↔ i < 2 ^ 32 := by
    intro i
    rw [Nat.mod_eq_of_lt (toUint32_lt i), toUint32_eq_iff]
  -- what one with narrow indices emits is read back, and TypeScript emits the same
  have hnarrow : ∀ items ls, Emits valueU32 field ls items ∧ Fits ls →
      ReadBack field items ∧ ∀ ts, encodeFieldTs field = some ts → ts = items := by
    rintro items ls ⟨hemits, hfits⟩
    refine ⟨(Emits.reads (f := id) hemits).mpr fun l hl i hi => Nat.mod_eq_of_lt (hfits l hl i hi), ?_⟩
    intro ts hts
    obtain ⟨ls', hts⟩ := emits_ts hts
    exact hts.agree hemits fun l hl i hi => by rw [(toUint32_eq_iff i).mpr (hfits l hl i hi)]
  constructor
  · rintro ⟨hts, -, -⟩ hsome ls hls l hl i hi
    obtain ⟨items, hitems⟩ := Option.isSome_iff_exists.mp hsome
    obtain ⟨ls', hemits⟩ := emits_ts hitems
    obtain rfl : ls' = ls := Option.some.inj (hemits.spelt.symm.trans hls)
    exact (hmod i).mp (hemits.reads.mp (hts items hitems) l hl i hi)
  · intro hfits
    refine ⟨fun items hitems => ?_, fun items hitems => ?_, ?_⟩
    · obtain ⟨ls, hemits⟩ := emits_ts hitems
      have hls := hfits (by rw [hitems]; rfl) ls hemits.spelt
      exact hemits.reads.mpr fun l hl i hi => (hmod i).mpr (hls l hl i hi)
    · obtain ⟨ls, hrust⟩ := emits_rust hitems
      exact hnarrow items ls hrust
    · intro gives fieldBytes text hfield hne items hitems
      obtain ⟨ls, hcpp⟩ := emits_cpp hfield hne hitems
      obtain ⟨hread, hsame⟩ := hnarrow items ls hcpp
      refine ⟨hread, hsame, fun rust hrust => ?_⟩
      obtain ⟨ls', hemits, -⟩ := emits_rust hrust
      exact hemits.agree hcpp.1 fun _ _ _ _ => rfl

/-- `a[4294967299]` -/
def wide : Bytes :=
  [0x61, 0x5B, 0x34, 0x32, 0x39, 0x34, 0x39, 0x36, 0x37, 0x32, 0x39, 0x39, 0x5D]

/-- **A wide index is emitted as that of another slot**, three. -/
theorem wide_index_emitted :
    written wide = some [{ name := [0x61], index := some 4294967299, mode := .element }] ∧
    encodeFieldTs wide = some [⟨NAME, [0x61]⟩, ⟨VALUE, [3, 0, 0, 0]⟩, ⟨VALUE, [1]⟩] ∧
    encodeFieldRust wide = none := by decide

end LibTracer.Bindings.FieldText
