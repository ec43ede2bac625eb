import LibTracer.Net.CanReassembly

/-!
# The CAN receiver

A receiver learns from each advertise which run of endpoints carries which group, and files a data frame
under the nearest run at or below its identifier.  Runs are reused: a fresh advertise retires what it
overlaps, and a base that does not go up says that every older run of that node is of a prior lap.
-/

namespace LibTracer.Net.Can

open List

/-! ## State -/

/-- A node's configuration; version and node fit their bits. -/
structure CanConfig where
  version : Nat
  node : Nat
  mode : Mode
  path : List UInt8
  rxTtl : Nat
  maxPending : Nat
  /-- `kCanLearnedBindings`. -/
  learnedCap : Nat
  limits : RxLimits
  version_le : version ≤ 15
  node_le : node ≤ 8191

def CanConfig.isFor (cfg : CanConfig) (target : Nat) : Bool :=
  decide (target = broadcastNode ∨ target = cfg.node)

/-- A byte of a control stream, with the send it is part of: an account no receiver reads. -/
abbrev Tagged := UInt8 × Nat

/-- What an advertise bound.  `source` is an account: the send its bytes came from, if one. -/
structure Binding where
  adv : Advertise
  deliver : Bool
  priorLap : Bool
  source : Option Nat
  deriving DecidableEq, Repr

/-- The receive state of one node: its control stream and its last base. -/
structure NodeRx where
  control : List Tagged := []
  lastBase : Nat := controlEndpoint
  deriving DecidableEq, Repr

/-- A receiver.  `filed`, `swept`, `refused` and `parked` are an account: the slices that were taken with
the binding they were filed under, and how many groups were swept, draws refused and slices parked. -/
structure Receiver where
  nodes : Nat → NodeRx := fun _ => {}
  learned : List (Nat × Binding) := []
  groups : Groups := []
  pending : List (CanFrame × Nat) := []
  delivered : List (Nat × List UInt8) := []
  filed : List (CanFrame × Binding) := []
  swept : Nat := 0
  refused : Nat := 0
  parked : Nat := 0

structure Draws where
  node : Bool := true
  control : Bool := true
  binding : Bool := true
  path : Bool := true
  segment : Bool := true
  park : Bool := true
  lift : Nat → Bool := fun _ => true

/-! ## The control stream -/

def sourceOf : List Tagged → Option Nat
  | [] => none
  | b :: bs => if bs.all (fun x => x.2 == b.2) then some b.2 else none

/-- The advertises of a control stream, and what is kept of it.  Bytes that begin no advertise are
dropped up to the next that could. -/
def drain : Nat → List Tagged → List (Advertise × Option Nat) × List Tagged
  | 0, buf => ([], buf)
  | fuel + 1, buf =>
    if buf.isEmpty then ([], [])
    else
      match decodeAdvertise (buf.map Prod.fst) with
      | some (adv, n) =>
        let out := drain fuel (buf.drop n)
        ((adv, sourceOf (buf.take n)) :: out.1, out.2)
      | none =>
        if prefixPlausible (buf.map Prod.fst) then ([], buf)
        else drain fuel ((buf.drop 1).dropWhile fun b => b.1 != magic)

namespace Receiver

variable (cfg : CanConfig)

/-! ## Data frames -/

def resolve (r : Receiver) (id : Nat) : Option (Nat × Binding) :=
  (Table.nearest id r.learned).filter fun e =>
    decide (nodeOf e.1 = nodeOf id ∧ endpointOf id - endpointOf e.1 < e.2.adv.count)

/-- `park_pending`: the oldest make room. -/
def parkPending (r : Receiver) (frame : CanFrame) (now : Nat) (draws : Draws) : Receiver :=
  let excess := if cfg.maxPending ≠ 0 then r.pending.length + 1 - cfg.maxPending else 0
  let kept := r.pending.drop excess
  { r with
    pending := if draws.park then kept ++ [(frame, now)] else kept
    parked := r.parked + 1 }

def processData (r : Receiver) (frame : CanFrame) (now : Nat) (draws : Draws) : Receiver :=
  match r.resolve frame.id with
  | none => r.parkPending cfg frame now draws
  | some (key, b) =>
    if b.deliver = false then r
    else if b.priorLap then { r with groups := Table.erase key r.groups }
    else
      match addSlice r.groups key (endpointOf frame.id - endpointOf key) frame.data now with
      | none => { r with groups := Table.erase key r.groups }
      | some gs =>
        let r := { r with groups := gs, filed := r.filed ++ [(frame, b)] }
        match takeGroup gs key with
        | none => r
        | some (whole, gs) =>
          { r with groups := gs, delivered := r.delivered ++ [(nodeOf frame.id, whole)] }

/-! ## Advertises -/

def overlaps (base count key : Nat) (b : Binding) : Bool :=
  decide (nodeOf key = nodeOf base ∧ endpointOf base < endpointOf key + b.adv.count ∧
    endpointOf key < endpointOf base + count)

/-- The bindings the walk of `invalidate_overlapping` comes to: the nearest below the fresh run, and
those that start inside it. -/
def walked (learned : List (Nat × Binding)) (base count key : Nat) : Bool :=
  decide (key < base + count ∧
    (base ≤ key ∨ (if base = 0 then none else Table.nearest (base - 1) learned).any
      fun e => e.1 = key))

def hits (learned : List (Nat × Binding)) (base count : Nat) (e : Nat × Binding) : Bool :=
  walked learned base count e.1 && overlaps base count e.1 e.2

/-- `invalidate_overlapping`: every run the fresh one overlaps is retired with its group; a binding of
the same base stays, to be rewritten. -/
def invalidateOverlapping (r : Receiver) (base count : Nat) : Receiver :=
  let retired := (r.learned.filter (hits r.learned base count)).map Prod.fst
  { r with
    learned := r.learned.filter fun e => !hits r.learned base count e || e.1 == base
    groups := r.groups.filter fun e => !retired.contains e.1 }

def markPriorLap (r : Receiver) (node : Nat) : Receiver :=
  { r with
    learned := r.learned.map fun e =>
      if nodeOf e.1 = node then (e.1, { e.2 with priorLap := true }) else e }

def atCap (r : Receiver) (base : Nat) : Bool :=
  decide (cfg.learnedCap ≤
    r.learned.length - ((Table.lookup base r.learned).isSome : Bool).toNat)

/-- The lap test: a base that does not go up says that the node's allocator came round. -/
def lapTest (r : Receiver) (adv : Advertise) : Receiver :=
  if endpointOf adv.canId ≤ (r.nodes (nodeOf adv.canId)).lastBase then
    r.markPriorLap (nodeOf adv.canId)
  else r

def setBinding (r : Receiver) (b : Binding) : Receiver :=
  { r with
    learned := Table.put b.adv.canId b r.learned
    nodes := Function.update r.nodes (nodeOf b.adv.canId)
      { r.nodes (nodeOf b.adv.canId) with lastBase := endpointOf b.adv.canId } }

/-- The group of an advertise is admitted; the slots left from its base bound its count. -/
def openRun (r : Receiver) (adv : Advertise) (now : Nat) (draws : Draws) : Receiver :=
  let out := openGroup cfg.limits r.groups adv.canId adv.count adv.total cfg.mode.maxData
    (endpointMax + 1 - endpointOf adv.canId) now draws.segment
  { r with groups := out.1, refused := r.refused + out.2.toNat }

def bind (r : Receiver) (adv : Advertise) (source : Option Nat) (now : Nat) (draws : Draws) :
    Receiver :=
  let r := (r.lapTest adv).setBinding ⟨adv, cfg.isFor adv.target, false, source⟩
  if cfg.isFor adv.target then r.openRun cfg adv now draws else r

def inRun (adv : Advertise) (p : CanFrame × Nat) : Bool :=
  decide (bandOf p.1.id = bandOf adv.canId ∧ adv.canId ≤ p.1.id ∧ p.1.id - adv.canId < adv.count)

def redrive (r : Receiver) (adv : Advertise) (now : Nat) (draws : Draws) : Receiver :=
  let ready := (r.pending.filter (inRun adv)).zipIdx.filter fun p => draws.lift p.2
  ready.foldl (fun r p => r.processData cfg p.1.1 now draws)
    { r with pending := r.pending.filter fun p => !inRun adv p }

def sweep (r : Receiver) (now : Nat) : Receiver :=
  let kept := sweepStale r.groups cfg.rxTtl now
  { r with groups := kept, swept := r.swept + (r.groups.length - kept.length) }

/-- `learn_advertise`, on the frame of identifier `carrier`. -/
def learnAdvertise (r : Receiver) (carrier : Nat) (adv : Advertise) (source : Option Nat)
    (now : Nat) (draws : Draws) : Receiver :=
  let r := r.sweep cfg now
  if adv.count = 0 then r
  else if bandOf adv.canId ≠ bandOf carrier then r
  else
    let r := r.invalidateOverlapping adv.canId adv.count
    if r.atCap cfg adv.canId || !draws.binding || !draws.path || !draws.node then
      { r with learned := Table.erase adv.canId r.learned, refused := r.refused + 1 }
    else (r.bind cfg adv source now draws).redrive cfg adv now draws

/-! ## Every frame -/

/-- `expire_pending`: the slices parked for longer than the window go. -/
def expirePending (r : Receiver) (now : Nat) : Receiver :=
  { r with pending := r.pending.dropWhile fun p => decide (p.2 + cfg.rxTtl < now) }

def setControl (r : Receiver) (node : Nat) (kept : List Tagged) : Receiver :=
  { r with nodes := Function.update r.nodes node { r.nodes node with control := kept } }

/-- The stores answer the frame itself first, and then each advertise it completes. -/
def onControl (r : Receiver) (frame : CanFrame) (now : Nat) (draws : Nat → Draws) : Receiver :=
  let node := nodeOf frame.id
  if !(draws 0).node || !(draws 0).control then { r with refused := r.refused + 1 }
  else
    let buf := (r.nodes node).control ++ frame.data.map fun b => (b, frame.group)
    let out := drain buf.length buf
    ((out.1.zipIdx 1).foldl (fun r a => r.learnAdvertise cfg frame.id a.1.1 a.1.2 now (draws a.2))
      r).setControl node out.2

/-- `on_rx`: frames of another version, and the node's own, are not for it. -/
def onRx (r : Receiver) (frame : CanFrame) (now : Nat) (draws : Nat → Draws) : Receiver :=
  if 536870912 ≤ frame.id ∨ versionOf frame.id ≠ cfg.version ∨ nodeOf frame.id = cfg.node then r
  else
    let r := r.expirePending cfg now
    if endpointOf frame.id = controlEndpoint then r.onControl cfg frame now draws
    else r.processData cfg frame now (draws 0)

/-- A frame with the time it arrives at and what the stores answer. -/
structure Arrival where
  frame : CanFrame
  now : Nat
  draws : Nat → Draws := fun _ => {}

def receive (r : Receiver) (arrivals : List Arrival) : Receiver :=
  arrivals.foldl (fun r a => r.onRx cfg a.frame a.now a.draws) r

/-! ## The account only grows -/

structure Later (r r' : Receiver) : Prop where
  filed : r.filed ⊆ r'.filed
  swept : r.swept ≤ r'.swept
  refused : r.refused ≤ r'.refused

section

variable {cfg : CanConfig} {r r' r'' : Receiver}

theorem Later.refl (r : Receiver) : Later r r :=
  ⟨List.Subset.refl _, le_rfl, le_rfl⟩

theorem Later.trans (h : Later r r') (h' : Later r' r'') : Later r r'' :=
  ⟨List.Subset.trans h.filed h'.filed, Nat.le_trans h.swept h'.swept, Nat.le_trans h.refused h'.refused⟩

theorem later_foldl {α : Type} {f : Receiver → α → Receiver} (h : ∀ r a, Later r (f r a))
    (r : Receiver) (as : List α) : Later r (as.foldl f r) :=
  List.foldlRecOn as f (Later.refl r) fun r' hr a _ => hr.trans (h r' a)

theorem processData_cases (cfg : CanConfig) (r : Receiver) (frame : CanFrame) (now : Nat) (draws : Draws) :
    (r.resolve frame.id = none ∧ r.processData cfg frame now draws = r.parkPending cfg frame now draws) ∨
      ∃ key b, r.resolve frame.id = some (key, b) ∧ (r.processData cfg frame now draws = r ∨
          r.processData cfg frame now draws = { r with groups := Table.erase key r.groups } ∨
          ∃ gs, addSlice r.groups key (endpointOf frame.id - endpointOf key) frame.data now = some gs ∧
            (r.processData cfg frame now draws =
                { r with groups := gs, filed := r.filed ++ [(frame, b)] } ∨
              ∃ whole gs', takeGroup gs key = some (whole, gs') ∧
                r.processData cfg frame now draws =
                  { r with
                    groups := gs'
                    filed := r.filed ++ [(frame, b)]
                    delivered := r.delivered ++ [(nodeOf frame.id, whole)] })) := by
  rw [processData]
  cases hres : r.resolve frame.id with
  | none => exact .inl ⟨rfl, rfl⟩
  | some e =>
    obtain ⟨key, b⟩ := e
    refine .inr ⟨key, b, rfl, ?_⟩
    dsimp only
    by_cases hd : b.deliver = false
    · exact .inl (if_pos hd)
    rw [if_neg hd]
    by_cases hp : b.priorLap = true
    · exact .inr (.inl (if_pos hp))
    rw [if_neg hp]
    cases hadd : addSlice r.groups key (endpointOf frame.id - endpointOf key) frame.data now with
    | none => exact .inr (.inl rfl)
    | some gs =>
      refine .inr (.inr ⟨gs, rfl, ?_⟩)
      dsimp only
      cases htake : takeGroup gs key with
      | none => exact .inl rfl
      | some out => exact .inr ⟨out.1, out.2, rfl, rfl⟩

theorem later_processData (frame : CanFrame) (now : Nat) (draws : Draws) :
    Later r (r.processData cfg frame now draws) := by
  rcases processData_cases cfg r frame now draws with
    ⟨-, heq⟩ | ⟨key, b, -, heq | heq | ⟨gs, -, heq | ⟨whole, gs', -, heq⟩⟩⟩
  all_goals rw [heq]
  · exact ⟨List.Subset.refl _, le_rfl, le_rfl⟩
  · exact Later.refl r
  · exact ⟨List.Subset.refl _, le_rfl, le_rfl⟩
  all_goals exact ⟨subset_append_left _ _, le_rfl, le_rfl⟩

theorem later_bind (adv : Advertise) (source : Option Nat) (now : Nat) (draws : Draws) :
    Later r (r.bind cfg adv source now draws) := by
  have hlap : Later r (r.lapTest adv) := by
    rw [lapTest]
    split <;> exact ⟨List.Subset.refl _, le_rfl, le_rfl⟩
  rw [bind]
  split
  · exact hlap.trans ⟨List.Subset.refl _, le_rfl, Nat.le_add_right _ _⟩
  · exact hlap.trans ⟨List.Subset.refl _, le_rfl, le_rfl⟩

theorem later_redrive (adv : Advertise) (now : Nat) (draws : Draws) :
    Later r (r.redrive cfg adv now draws) := by
  rw [redrive]
  refine Later.trans ?_ (later_foldl (fun _ _ => later_processData _ _ _) _ _)
  exact ⟨List.Subset.refl _, le_rfl, le_rfl⟩

theorem later_learnAdvertise (carrier : Nat) (adv : Advertise) (source : Option Nat) (now : Nat)
    (draws : Draws) : Later r (r.learnAdvertise cfg carrier adv source now draws) := by
  rw [learnAdvertise]
  dsimp only
  split
  · exact ⟨List.Subset.refl _, Nat.le_add_right _ _, le_rfl⟩
  split
  · exact ⟨List.Subset.refl _, Nat.le_add_right _ _, le_rfl⟩
  split
  · exact ⟨List.Subset.refl _, Nat.le_add_right _ _, Nat.le_add_right _ _⟩
  · refine Later.trans ?_ ((later_bind adv source now draws).trans (later_redrive adv now draws))
    exact ⟨List.Subset.refl _, Nat.le_add_right _ _, le_rfl⟩

theorem later_onControl (frame : CanFrame) (now : Nat) (draws : Nat → Draws) :
    Later r (r.onControl cfg frame now draws) := by
  rw [onControl]
  dsimp only
  split
  · exact ⟨List.Subset.refl _, le_rfl, Nat.le_add_right _ _⟩
  · exact (later_foldl (fun _ _ => later_learnAdvertise _ _ _ _ _) r _).trans
      ⟨List.Subset.refl _, le_rfl, le_rfl⟩

/-- **What was filed, swept or refused stays in the account.** -/
theorem later_onRx (frame : CanFrame) (now : Nat) (draws : Nat → Draws) :
    Later r (r.onRx cfg frame now draws) := by
  rw [onRx]
  split
  · exact Later.refl r
  have hexp : Later r (r.expirePending cfg now) :=
    ⟨List.Subset.refl _, le_rfl, le_rfl⟩
  dsimp only
  split
  · exact hexp.trans (later_onControl frame now draws)
  · exact hexp.trans (later_processData frame now (draws 0))

/-! ## What a binding or a control frame changes -/

section

variable (r : Receiver) (b : Binding) (adv : Advertise) (now node : Nat) (draws : Draws)
  (kept : List Tagged)

@[simp] theorem setBinding_groups : (r.setBinding b).groups = r.groups := rfl

@[simp] theorem setBinding_pending : (r.setBinding b).pending = r.pending := rfl

@[simp] theorem setBinding_delivered : (r.setBinding b).delivered = r.delivered := rfl

@[simp] theorem setBinding_refused : (r.setBinding b).refused = r.refused := rfl

@[simp] theorem openRun_learned : (r.openRun cfg adv now draws).learned = r.learned := rfl

@[simp] theorem openRun_nodes : (r.openRun cfg adv now draws).nodes = r.nodes := rfl

@[simp] theorem openRun_pending : (r.openRun cfg adv now draws).pending = r.pending := rfl

@[simp] theorem openRun_delivered : (r.openRun cfg adv now draws).delivered = r.delivered := rfl

@[simp] theorem setControl_control : ((r.setControl node kept).nodes node).control = kept := by
  simp [setControl]

@[simp] theorem setControl_lastBase :
    ((r.setControl node kept).nodes node).lastBase = (r.nodes node).lastBase := by
  simp [setControl]

end

theorem mem_markPriorLap {node k : Nat} {b : Binding} (h : (k, b) ∈ (r.markPriorLap node).learned) :
    ∃ b', (k, b') ∈ r.learned ∧ b.adv = b'.adv := by
  obtain ⟨⟨k', b'⟩, he, heq⟩ := mem_map.mp h
  split at heq
  all_goals
    obtain ⟨rfl, rfl⟩ := Prod.mk.inj heq
    exact ⟨b', he, rfl⟩

theorem keys_markPriorLap (r : Receiver) (node : Nat) :
    (r.markPriorLap node).learned.map Prod.fst = r.learned.map Prod.fst := by
  rw [markPriorLap, map_map]
  refine map_congr_left fun e _ => ?_
  by_cases he : nodeOf e.1 = node <;> simp [he]

theorem keyed_markPriorLap (h : Table.Keyed r.learned) (node : Nat) :
    Table.Keyed (r.markPriorLap node).learned := by
  rw [Table.Keyed, keys_markPriorLap]
  exact h

end

end Receiver

end LibTracer.Net.Can
