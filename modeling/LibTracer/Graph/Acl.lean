import LibTracer.Graph.Basic

/-!
# Access control entries and their evaluation

What a caller may do at a vertex is decided by the vertex's *effective* list: its own entries, then
the inheritable entries of each strict ancestor below the root, nearest first.

* **`unknown_clock_fails_closed`** — what is allowed without a clock is allowed at every time.
-/

namespace LibTracer.Graph

open List

/-! ## Entries -/

inductive AceType where
  | ALLOW | DENY
  deriving DecidableEq, Repr

inductive AclRight where
  | READ | WRITE
  deriving DecidableEq, Repr

def AclRight.bit : AclRight → BitVec 32
  | READ => 0x01
  | WRITE => 0x02

structure Ace where
  type : AceType := .ALLOW
  flags : BitVec 8 := 0
  subject : Name
  accessMask : BitVec 32
  expiresNs : BitVec 64 := 0
  deriving DecidableEq, Repr

/-- `kAceInherit`: the entry applies to the whole subtree. -/
def kAceInherit : BitVec 8 := 0x1

/-- `kAceNowUnknown`: the application supplied no clock. -/
def kAceNowUnknown : BitVec 64 := BitVec.allOnes 64

def kEveryoneSubject : Name := "EVERYONE@".toList

def isReservedSubject (subject : Name) : Bool := subject == kEveryoneSubject

def Ace.carries (required : BitVec 8) (a : Ace) : Bool := a.flags &&& required == required

/-! ## The policies -/

/-- `acl_policy_t`: the two policies a build chooses from. -/
inductive AclPolicy where
  | allowOnly | full
  deriving DecidableEq, Repr

inductive AclVerdict where
  | ALLOW | DENY | NO_MATCH
  deriving DecidableEq, Repr

/-- An entry whose lease has lapsed.  Without a clock every lease has, except that of a DENY. -/
def Ace.lapsed (now : BitVec 64) (a : Ace) : Bool :=
  a.expiresNs != 0 && a.expiresNs ≤ now && (now != kAceNowUnknown || a.type != .DENY)

def aceApplies (a : Ace) (subject : Name) (bit : BitVec 32) (now : BitVec 64)
    (required : BitVec 8) : Bool :=
  a.carries required && a.accessMask &&& bit != 0 && !a.lapsed now &&
    (isReservedSubject a.subject || a.subject == subject)

def AclPolicy.decides : AclPolicy → Ace → AclVerdict
  | .allowOnly, _ => .ALLOW
  | .full, a => if a.type = .DENY then .DENY else .ALLOW

/-- The scan of both policies' `allows`: the first entry that applies decides. -/
def scan (policy : AclPolicy) (subject : Name) (bit : BitVec 32) (now : BitVec 64)
    (required : BitVec 8) : List Ace → AclVerdict
  | [] => .NO_MATCH
  | a :: aces =>
    if aceApplies a subject bit now required then policy.decides a
    else scan policy subject bit now required aces

/-- `allow_only_policy_t::allows`, `full_acl_policy_t::allows`: a reserved subject is no principal
and matches nothing. -/
def verdict (policy : AclPolicy) (subject : Name) (bit : BitVec 32) (aces : List Ace)
    (now : BitVec 64) (required : BitVec 8) : AclVerdict :=
  if isReservedSubject subject then .NO_MATCH else scan policy subject bit now required aces

/-- `effective_acl_t::allows` over a merged list: open if no entry passes the filter, closed
otherwise unless one allows. -/
def effAllows (policy : AclPolicy) (merged : List Ace) (subject : Name) (bit : BitVec 32)
    (now : BitVec 64) (required : BitVec 8) : Bool :=
  match verdict policy subject bit merged now required with
  | .ALLOW => true
  | .DENY => false
  | .NO_MATCH => if required == 0 then merged.isEmpty else !merged.any (Ace.carries required)

theorem scan_filter (policy : AclPolicy) (subject : Name) (bit : BitVec 32) (now : BitVec 64)
    (required : BitVec 8) (aces : List Ace) : scan policy subject bit now required aces =
      scan policy subject bit now 0 (aces.filter (Ace.carries required)) := by
  induction aces with
  | nil => rfl
  | cons a aces ih =>
    have hzero : a.carries 0 = true := by simp [Ace.carries]
    by_cases hc : a.carries required = true
    · have happ : aceApplies a subject bit now required = aceApplies a subject bit now 0 := by
        unfold aceApplies
        rw [hc, hzero]
      rw [filter_cons_of_pos hc, scan, scan, happ, ih]
    have happ : aceApplies a subject bit now required = false := by
      unfold aceApplies
      rw [Bool.not_eq_true] at hc
      rw [hc]
      rfl
    rw [filter_cons_of_neg hc, scan, happ, if_neg (by decide), ih]

/-- **One merge serves every descendant**: reading only the inheritable entries of a list is reading
the list of its inheritable entries. -/
theorem effAllows_inheritable (policy : AclPolicy) (merged : List Ace) (subject : Name)
    (bit : BitVec 32) (now : BitVec 64) : effAllows policy merged subject bit now kAceInherit =
      effAllows policy (merged.filter (Ace.carries kAceInherit)) subject bit now 0 := by
  have hverdict : verdict policy subject bit merged now kAceInherit =
      verdict policy subject bit (merged.filter (Ace.carries kAceInherit)) now 0 := by
    unfold verdict
    rw [scan_filter]
  have hopen : (!merged.any (Ace.carries kAceInherit)) =
      (merged.filter (Ace.carries kAceInherit)).isEmpty := by
    rw [Bool.eq_iff_iff]
    simp [filter_eq_nil_iff]
  unfold effAllows
  rw [hverdict, if_neg (by decide), if_pos (by decide), hopen]

theorem effAllows_of_unleased {merged : List Ace} (h : ∀ a ∈ merged, a.expiresNs = 0)
    (policy : AclPolicy) (subject : Name) (bit : BitVec 32) (now now' : BitVec 64) (required : BitVec 8) :
    effAllows policy merged subject bit now required =
      effAllows policy merged subject bit now' required := by
  have hscan : ∀ aces, (∀ a ∈ aces, a.expiresNs = 0) →
      scan policy subject bit now required aces = scan policy subject bit now' required aces := by
    intro aces haces
    induction aces with
    | nil => rfl
    | cons a aces ih =>
      have hlease := haces a mem_cons_self
      have happ : aceApplies a subject bit now required = aceApplies a subject bit now' required := by
        unfold aceApplies Ace.lapsed
        rw [hlease]
        rfl
      rw [scan, scan, happ, ih fun b hb => haces b (mem_cons_of_mem a hb)]
  unfold effAllows verdict
  rw [hscan merged h]

/-! ## Without a clock -/

section Clock

variable {policy : AclPolicy} {subject : Name} {bit : BitVec 32} {required : BitVec 8} {aces : List Ace}

variable {a : Ace}

theorem applies_of_unknown (ha : a.type ≠ .DENY)
    (h : aceApplies a subject bit kAceNowUnknown required = true) (now : BitVec 64) :
    aceApplies a subject bit now required = true := by
  have hle : a.expiresNs ≤ kAceNowUnknown := BitVec.le_def.mpr (Nat.le_pred_of_lt a.expiresNs.isLt)
  simp only [aceApplies, Ace.lapsed, Bool.and_eq_true, Bool.not_eq_true'] at h ⊢
  refine ⟨⟨h.1.1, ?_⟩, h.2⟩
  have hlease : a.expiresNs = 0 := by simpa [hle, ha] using h.1.2
  simp [hlease]

theorem unknown_of_applies (ha : a.type = .DENY) {now : BitVec 64}
    (h : aceApplies a subject bit now required = true) :
    aceApplies a subject bit kAceNowUnknown required = true := by
  simp only [aceApplies, Bool.and_eq_true] at h ⊢
  exact ⟨⟨h.1.1, by simp [Ace.lapsed, ha]⟩, h.2⟩

/-- The first entry that applies at a known time allows: it is the one that allows without a clock, or
stands before it and has a live lease. -/
theorem scan_of_unknown (hdeny : policy = .allowOnly → ∀ a ∈ aces, a.type ≠ .DENY)
    (h : scan policy subject bit kAceNowUnknown required aces = .ALLOW) (now : BitVec 64) :
    scan policy subject bit now required aces = .ALLOW := by
  induction aces with
  | nil => exact h
  | cons a aces ih =>
    have hdecides : a.type ≠ .DENY ↔ policy.decides a = .ALLOW := by
      cases policy with
      | allowOnly => exact iff_of_true (hdeny rfl a mem_cons_self) rfl
      | full => cases htype : a.type <;> simp [AclPolicy.decides, htype]
    rw [scan] at h ⊢
    split at h
    next hunknown =>
      rw [← hdecides] at h
      rw [if_pos (applies_of_unknown h hunknown now), ← hdecides]
      exact h
    next hunknown =>
      split
      next happlies => exact hdecides.mp fun hd => hunknown (unknown_of_applies hd happlies)
      · exact ih (fun hp b hb => hdeny hp b (mem_cons_of_mem a hb)) h

/-- **Without a clock the gate fails closed**: what it allows then it allows at every time.  The
allow-only policy stores no DENY entry, and would read one as a grant. -/
theorem unknown_clock_fails_closed (policy : AclPolicy) (merged : List Ace) (subject : Name)
    (bit : BitVec 32) (required : BitVec 8) (hdeny : policy = .allowOnly → ∀ a ∈ merged, a.type ≠ .DENY)
    (h : effAllows policy merged subject bit kAceNowUnknown required = true) (now : BitVec 64) :
    effAllows policy merged subject bit now required = true := by
  have hopen : ∀ t, (∀ a ∈ merged, ¬a.carries required = true) →
      verdict policy subject bit merged t required = .NO_MATCH := by
    intro t hnone
    rw [verdict, scan_filter, filter_eq_nil_iff.mpr hnone, scan, ite_self]
  have hfree : (if required == 0 then merged.isEmpty else !merged.any (Ace.carries required)) = true →
      ∀ a ∈ merged, ¬a.carries required = true := by
    intro hfree a ha
    split at hfree
    · rw [List.isEmpty_iff.mp hfree] at ha
      cases ha
    · simp_all
  unfold effAllows at h ⊢
  cases hv : verdict policy subject bit merged kAceNowUnknown required with
  | ALLOW =>
    rw [verdict] at hv
    split at hv
    · cases hv
    next hsubject => rw [verdict, if_neg hsubject, scan_of_unknown hdeny hv]
  | DENY => rw [hv] at h; cases h
  | NO_MATCH =>
    rw [hv] at h
    rw [hopen now (hfree h)]
    exact h

theorem standing_grant : effAllows .full
    [⟨.DENY, 0, "alice".toList, 0x02, 5⟩, ⟨.ALLOW, 0, "alice".toList, 0x01, 0⟩] "alice".toList 0x01 9 0 =
      true :=
  unknown_clock_fails_closed _ _ _ _ _ (by decide) (by decide) 9

/-- Under the allow-only policy a leased DENY entry grants what it names without a clock, and nothing once
its lease has lapsed. -/
theorem allowOnly_deny_grants :
    let leased : List Ace := [⟨.DENY, 0, "alice".toList, 0x01, 5⟩]
    effAllows .allowOnly leased "alice".toList 0x01 kAceNowUnknown 0 = true ∧
      effAllows .allowOnly leased "alice".toList 0x01 9 0 = false := by
  decide

end Clock

/-! ## The effective list -/

/-- The inheritable entries of a vertex and its ancestors, nearest first.  A vertex is the chain of
its names, its own first; the root, the empty chain, contributes nothing. -/
def inherited (own : Key → List Ace) : Key → List Ace
  | [] => []
  | n :: p => (own (n :: p)).filter (Ace.carries kAceInherit) ++ inherited own p

/-- The effective list of a vertex, from scratch: its own entries, then the inheritable ones of each
strict ancestor. -/
def effective (own : Key → List Ace) : Key → List Ace
  | [] => []
  | n :: p => own (n :: p) ++ inherited own p

theorem inherited_congr {own own' : Key → List Ace} {k : Key} (h : ∀ a, a <:+ k → own a = own' a) :
    inherited own k = inherited own' k := by
  induction k with
  | nil => rfl
  | cons n p ih =>
    rw [inherited, inherited, h _ (suffix_refl _), ih fun a ha => h a (ha.trans (suffix_cons n p))]

theorem filter_inherited (own : Key → List Ace) (k : Key) :
    (inherited own k).filter (Ace.carries kAceInherit) = inherited own k := by
  induction k with
  | nil => rfl
  | cons n p ih => rw [inherited, filter_append, filter_filter, ih]; simp

theorem filter_effective (own : Key → List Ace) (k : Key) :
    (effective own k).filter (Ace.carries kAceInherit) = inherited own k := by
  cases k with
  | nil => rfl
  | cons n p => rw [effective, filter_append, filter_inherited, inherited]

section

variable {own : Key → List Ace} {n : Name} {p : Key} (h : own (n :: p) = [])
include h

theorem effective_of_bare : effective own (n :: p) = inherited own p := by
  rw [effective, h, nil_append]

theorem inherited_of_bare : inherited own (n :: p) = inherited own p := by
  rw [inherited, h]
  rfl

end

end LibTracer.Graph
