import LibTracer.Lib.Lookup
import LibTracer.Net.Peers

/-!
# The child registry

`child_registry_t`: the table of a router's links, one slot for each name ever registered, in the
order of first registration.  A slot is never moved or freed; removing a child marks its slot dead
and a later registration of the name takes the slot over.

* `Registry.byName` : a live child of that name, else the first live bus with a peer of that name.
-/

namespace LibTracer.Net

open List

abbrev LinkId := Nat

/-- Where a frame is sent: over a link itself, or over the directed endpoint of one peer of a bus. -/
inductive Endpoint where
  | link (l : LinkId)
  | peer (l : LinkId) (i : Nat)
deriving DecidableEq, Repr

/-- `child_t`: the name and the egress word (link, shape bit, tombstone bit). -/
structure Child where
  name : Name
  link : LinkId
  multiPeer : Bool
  retired : Bool
deriving DecidableEq, Repr

/-- `live`: the slot resolves. -/
def Child.live (c : Child) : Bool := !c.retired

/-! ## Mount names -/

def segmentCount (name : Name) : Nat := if name.isEmpty then 0 else 1 + name.count '/'

/-- `encode_mount_name(name) != 0`: each `/`-separated segment fits a packed record. -/
def hasMountRun (name : Name) : Bool :=
  (name.splitOn '/').all fun seg => 0 < seg.length && seg.length ≤ 255

/-! ## The table -/

structure Registry where
  slots : List Child
  distinct : (slots.map Child.name).Nodup

namespace Registry

def empty : Registry := ⟨[], nodup_nil⟩

def rewrite (r : Registry) (f : Child → Child) (hf : ∀ c, (f c).name = c.name) : Registry where
  slots := r.slots.map f
  distinct := by
    have hnames : (r.slots.map f).map Child.name = r.slots.map Child.name := by
      rw [map_map]
      exact map_congr_left fun c _ => hf c
    rw [hnames]
    exact r.distinct

/-- `entry_by_name`: the live slot of exactly that name. -/
def entryByName (r : Registry) (name : Name) : Option Child :=
  r.slots.find? fun c => c.live && c.name == name

def bind (name : Name) (link : LinkId) (multiPeer : Bool) (c : Child) : Child :=
  if c.name == name then ⟨c.name, link, multiPeer, false⟩ else c

def bury (name : Name) (c : Child) : Child :=
  if c.name == name then { c with retired := true } else c

@[simp] theorem bind_name (name : Name) (link : LinkId) (multiPeer : Bool) (c : Child) :
    (bind name link multiPeer c).name = c.name := by
  unfold bind
  split <;> rfl

@[simp] theorem bury_name (name : Name) (c : Child) : (bury name c).name = c.name := by
  unfold bury
  split <;> rfl

/-- `add`: a name that has a slot is bound again in place, live or dead; a new name is appended.
`vertex` says that the connection vertex exists, `room` that the slot and its text got a block. -/
def add (r : Registry) (name : Name) (link : LinkId) (multiPeer vertex room : Bool) :
    Option Registry :=
  if h : name ∈ r.slots.map Child.name then
    if vertex then some (r.rewrite (bind name link multiPeer) (bind_name name link multiPeer))
    else none
  else if !hasMountRun name || !room || !vertex then none
  else some
    { slots := r.slots ++ [⟨name, link, multiPeer, false⟩]
      distinct := by
        rw [map_append]
        exact r.distinct.append (nodup_singleton _)
          (disjoint_singleton.mpr h) }

/-- `erase`: the live slot of that name is marked dead. -/
def erase (r : Registry) (name : Name) : Option Registry :=
  if (r.entryByName name).isSome then some (r.rewrite (bury name) (bury_name name)) else none

/-- What one slot answers to a peer's name: a dead slot nothing, a bus the directed endpoint of the
peer, a point-to-point link nothing (`peerLink` has no answer for it). -/
def answer (peerLink : LinkId → Name → Option Nat) (name : Name) (c : Child) : Option Endpoint :=
  if c.retired then none else (peerLink c.link name).map (Endpoint.peer c.link)

/-- `by_name`: a live child of that name wins; else the first slot, in registration order, that
answers to it as a peer's name. -/
def byName (r : Registry) (peerLink : LinkId → Name → Option Nat) (name : Name) :
    Option Endpoint :=
  match r.entryByName name with
  | some c => some (.link c.link)
  | none => r.slots.findSome? (answer peerLink name)

/-! ## Slots keep their places -/

variable {i : Nat} {multiPeer room vertex : Bool} {name : Name} {link : LinkId} {r r' : Registry}

variable {c d : Child}

theorem name_unique (r : Registry) {j : Nat} (hi : r.slots[i]? = some c)
    (hj : r.slots[j]? = some d) (h : c.name = d.name) : i = j :=
  Lookup.place_unique r.distinct hi hj h

theorem entryByName_eq_some_iff (r : Registry) (name : Name) (c : Child) :
    r.entryByName name = some c ↔ c ∈ r.slots ∧ c.live = true ∧ c.name = name := by
  unfold entryByName
  rw [Lookup.find?_eq_some_iff fun c d hc hd hpc hpd => ?_, Bool.and_eq_true, beq_iff_eq]
  rw [Bool.and_eq_true, beq_iff_eq] at hpc hpd
  obtain ⟨i, hi⟩ := List.getElem?_of_mem hc
  obtain ⟨j, hj⟩ := List.getElem?_of_mem hd
  rw [r.name_unique hi hj (hpc.2.trans hpd.2.symm), hj] at hi
  exact (Option.some.inj hi).symm

theorem getElem?_add (h : r.add name link multiPeer vertex room = some r')
    (hi : r.slots[i]? = some c) : r'.slots[i]? = some (bind name link multiPeer c) := by
  unfold add at h
  split at h
  · split at h
    · cases h
      show (r.slots.map _)[i]? = _
      rw [List.getElem?_map, hi]
      rfl
    · exact nomatch h
  next hname =>
    split at h
    · exact nomatch h
    cases h
    have hne : c.name ≠ name := fun e =>
      hname (e ▸ mem_map_of_mem (mem_of_getElem? hi))
    show (r.slots ++ [_])[i]? = _
    obtain ⟨hlen, -⟩ := List.getElem?_eq_some_iff.mp hi
    rw [List.getElem?_append_left hlen, hi, bind, if_neg (by simpa using hne)]

theorem of_getElem?_add (h : r.add name link multiPeer vertex room = some r')
    (hi : r'.slots[i]? = some d) : (∃ c, r.slots[i]? = some c ∧ d = bind name link multiPeer c) ∨
      (r.slots[i]? = none ∧ d = ⟨name, link, multiPeer, false⟩) := by
  cases hc : r.slots[i]? with
  | some c =>
    rw [getElem?_add h hc] at hi
    exact .inl ⟨c, rfl, (Option.some.inj hi).symm⟩
  | none =>
    refine .inr ⟨rfl, ?_⟩
    have hle := List.getElem?_eq_none_iff.mp hc
    unfold add at h
    split at h
    · split at h
      · cases h
        change (r.slots.map _)[i]? = _ at hi
        rw [List.getElem?_map, hc] at hi
        exact nomatch hi
      · exact nomatch h
    split at h
    · exact nomatch h
    cases h
    change (r.slots ++ [_])[i]? = some d at hi
    rw [List.getElem?_append_right hle] at hi
    exact (mem_singleton.mp (mem_of_getElem? hi))

theorem getElem?_erase (h : r.erase name = some r') (i : Nat) :
    r'.slots[i]? = (r.slots[i]?).map (bury name) := by
  unfold erase at h
  split at h
  · cases h
    exact List.getElem?_map
  · exact nomatch h

/-! ## What a name reaches -/

/-- **What a name reaches** has a property exactly if the live child of that name has it and, when
there is none, every slot that answers to the name has it or stands behind one that does. -/
theorem byName_forall_iff (r : Registry) (peerLink : LinkId → Name → Option Nat) (name : Name)
    (P : Endpoint → Prop) : (∀ e, r.byName peerLink name = some e → P e) ↔
      (∀ c ∈ r.slots, c.live = true → c.name = name → P (.link c.link)) ∧
      ((∀ c ∈ r.slots, c.live = true → c.name ≠ name) →
        ∀ (j : Nat) (c : Child), r.slots[j]? = some c → (answer peerLink name c).isSome = true →
          ∃ i ≤ j, ∃ d e, r.slots[i]? = some d ∧ answer peerLink name d = some e ∧ P e) := by
  unfold byName
  cases hentry : r.entryByName name with
  | some c =>
    obtain ⟨hmem, hlive, hname⟩ := (r.entryByName_eq_some_iff name c).mp hentry
    constructor
    · intro h
      refine ⟨fun d hd hdlive hdname => ?_, fun hno => absurd hname (hno c hmem hlive)⟩
      have := (r.entryByName_eq_some_iff name d).mpr ⟨hd, hdlive, hdname⟩
      rw [hentry] at this
      cases this
      exact h _ rfl
    · rintro ⟨h, -⟩ e he
      cases he
      exact h c hmem hlive hname
  | none =>
    have hno : ∀ c ∈ r.slots, c.live = true → c.name ≠ name := by
      intro c hc hlive hname
      have := (r.entryByName_eq_some_iff name c).mpr ⟨hc, hlive, hname⟩
      cases hentry.symm.trans this
    show (∀ e, r.slots.findSome? (answer peerLink name) = some e → P e) ↔ _
    rw [Lookup.findSome?_forall_iff]
    exact ⟨fun h => ⟨fun c hc hlive hname => absurd hname (hno c hc hlive), fun _ => h⟩, fun h => h.2 hno⟩

end Registry

end LibTracer.Net
