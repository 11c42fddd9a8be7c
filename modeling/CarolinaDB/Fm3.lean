import CarolinaDB.Explorer

/-!
# FM-3: migration between authorities

Source authorities admit requests of an old generation until they are fenced; a target
takes over once every source has certified that it is closed, drained and installed.
Workers advance the migration under the current claim of the catalog. The counters are
bytes in the source; `Safe.admitted`, `Safe.revision` and `Source.Agrees.epoch` keep
them far below the width.
-/
namespace CarolinaDB.Models.Fm3

inductive Phase
  | proposed | closing | draining | installing | active | retired | cancelled
  deriving DecidableEq

structure Source where
  admitting : Bool
  fenced : Bool
  fenceEpoch : ℕ
  offline : Bool
  pending : ℕ
  closeCert : Bool
  deriving DecidableEq

structure State where
  phase : Phase
  catalogRevision : ℕ
  workerClaims : ℕ × ℕ
  sources : List Source
  targetInstalled : Bool
  targetAdmitting : Bool
  producedResults : ℕ
  retainedResults : ℕ
  lateAdmissions : ℕ
  reopenedSameEpoch : ℕ
  deriving DecidableEq

/-- Deliberate faults, each of which breaks the invariant. -/
inductive Control
  | activateWithOfflineSource | staleWorkerAdvances | rollbackFence | latePacketAdmitted
  | retireDropsResults
  deriving DecidableEq

def maxPending : ℕ := 1
def maxAdmissions : ℕ := 2

def invariant (s : State) : Except String Unit :=
  let activated := s.phase = .active ∨ s.phase = .retired
  firstViolated <| ([
    (s.targetAdmitting ∧ s.sources.any (·.admitting),
      "overlapping admitting authorities (source and target)"),
    (s.reopenedSameEpoch > 0, "closed authority reopened under the same epoch"),
    (s.retainedResults ≠ s.producedResults, "an accepted result is no longer resolvable"),
    (activated ∧ s.sources.any (!·.closeCert),
      "activated without a close certificate from every source (offline holder)"),
    (activated ∧ !s.targetInstalled, "activated without target installation"),
    (activated ∧ s.sources.any (·.pending > 0), "activated with an undrained admitted request"),
    (s.lateAdmissions > 0,
      "late packet admitted after the fence (new authority from an old packet)")] : List (Bool × String)) ++
  s.sources.zipIdx.map fun (x, i) =>
    (x.fenced && x.admitting, "source " ++ toString i ++ " admits while fenced")

def claim (s : State) (w : ℕ) : ℕ := if w = 0 then s.workerClaims.1 else s.workerClaims.2

/-- A worker advances only with a claim equal to the catalog's revision. -/
def current (s : State) (w : ℕ) : Bool := claim s w ≠ 0 ∧ claim s w = s.catalogRevision

def claimActions (s : State) (w : ℕ) : List (String × State) :=
  let revision := s.catalogRevision + 1
  whenever (!current s w ∧ s.catalogRevision < 3)
    (label "WorkerClaim" w, { s with
      catalogRevision := revision
      workerClaims := if w = 0 then (revision, s.workerClaims.2) else (s.workerClaims.1, revision) })

/-- What worker `w` does in the phase of the migration. -/
def phaseActions (s : State) (control : Option Control) (w : ℕ) : List (String × State) :=
  let lax := control = some .activateWithOfflineSource
  match s.phase with
  | .proposed =>
    [(label "StartClosing" w, { s with phase := .closing }),
      (label "Cancel" w, { s with phase := .cancelled })]
  | .closing =>
    whenever (s.sources.all (·.closeCert) ∨
        lax ∧ s.sources.all fun x => x.closeCert || x.offline)
      (label "StartDraining" w, { s with phase := .draining }) ++
    whenever (control = some .rollbackFence)
      (label "CancelWithRollback" w, { s with
        phase := .cancelled
        sources := s.sources.map fun x =>
          if x.fenced then { x with fenced := false, admitting := true } else x
        reopenedSameEpoch := s.reopenedSameEpoch + s.sources.countP (·.fenced) })
  | .draining =>
    whenever (s.sources.all (·.pending = 0) ∨
        lax ∧ s.sources.all fun x => x.pending = 0 || x.offline)
      (label "DrainComplete" w, { s with phase := .installing })
  | .installing =>
    whenever (!s.targetInstalled) (label "InstallTarget" w, { s with targetInstalled := true }) ++
    whenever (s.targetInstalled ∧ (s.sources.all (fun x => x.closeCert && x.pending = 0) ∨
        lax ∧ s.sources.all fun x => x.closeCert && x.pending = 0 || x.offline))
      (label "Activate" w, { s with phase := .active, targetAdmitting := true })
  | .active =>
    [(label "Retire" w, { s with
      phase := .retired
      retainedResults := if control = some .retireDropsResults then 0 else s.retainedResults })]
  | .retired | .cancelled => []

/-- A source resumes under a successor epoch. -/
def Source.resume (x : Source) : Source :=
  if x.fenced then
    { x with fenceEpoch := x.fenceEpoch + 1, fenced := false, admitting := true, closeCert := false }
  else x

def supersedeActions (s : State) (w : ℕ) : List (String × State) :=
  whenever ((s.phase = .closing ∨ s.phase = .draining ∨ s.phase = .installing) ∧
      s.sources.all (·.fenceEpoch < 2))
    (label "Supersede" w, { s with
      phase := .cancelled, targetAdmitting := false, sources := s.sources.map Source.resume })

/-- A worker with a stale claim applies an activation of a superseded migration. -/
def staleActions (s : State) (control : Option Control) (w : ℕ) : List (String × State) :=
  whenever (control = some .staleWorkerAdvances ∧ claim s w ≠ 0 ∧ !current s w ∧
      s.targetInstalled ∧ s.phase = .cancelled)
    (label "StaleActivate" w, { s with phase := .active, targetAdmitting := true })

/-- Requests produced or still pending. -/
def admittedTotal (s : State) : ℕ := s.producedResults + (s.sources.map (·.pending)).sum

/-- Actions of source `i`. A late packet that reaches a fenced source is refused. -/
def sourceActions (s : State) (control : Option Control) (x : Source) (i : ℕ) :
    List (String × State) :=
  let put (y : Source) : State := { s with sources := s.sources.set i y }
  whenever (x.admitting ∧ !x.fenced ∧ x.pending < maxPending ∧ admittedTotal s < maxAdmissions)
    (label "AdmitOld" i, put { x with pending := x.pending + 1 }) ++
  whenever (x.fenced ∧ control = some .latePacketAdmitted ∧ admittedTotal s < maxAdmissions)
    (label "LatePacketAdmitted" i, { put { x with pending := x.pending + 1 } with
      lateAdmissions := s.lateAdmissions + 1 }) ++
  whenever (x.pending > 0 ∧ !x.offline)
    (label "ResolveOld" i, { put { x with pending := x.pending - 1 } with
      producedResults := s.producedResults + 1, retainedResults := s.retainedResults + 1 }) ++
  whenever (s.phase = .closing ∧ !x.fenced ∧ !x.offline)
    (label "FenceSource" i, put { x with fenced := true, admitting := false }) ++
  whenever (x.fenced ∧ !x.closeCert ∧ !x.offline)
    (label "CloseCertificate" i, put { x with closeCert := true }) ++
  [if x.offline then (label "SourceBack" i, put { x with offline := false })
    else (label "SourceOffline" i, put { x with offline := true })]

def next (s : State) (control : Option Control) : List (String × State) :=
  [0, 1].flatMap (claimActions s) ++
  ([0, 1].filter (current s)).flatMap (fun w => phaseActions s control w ++ supersedeActions s w) ++
  [0, 1].flatMap (staleActions s control) ++
  s.sources.zipIdx.flatMap fun (x, i) => sourceActions s control x i

def initial (sources : ℕ) : State where
  phase := .proposed
  catalogRevision := 0
  workerClaims := (0, 0)
  sources := List.replicate sources ⟨true, false, 1, false, 0, false⟩
  targetInstalled := false
  targetAdmitting := false
  producedResults := 0
  retainedResults := 0
  lateAdmissions := 0
  reopenedSameEpoch := 0

/-- Every source is closed from the start of draining on. -/
def Phase.closed : Phase → Bool
  | .draining | .installing | .active | .retired => true
  | _ => false

/-- Every source is drained from the start of the installation on. -/
def Phase.drained : Phase → Bool
  | .installing | .active | .retired => true
  | _ => false

def Phase.activated : Phase → Bool
  | .active | .retired => true
  | _ => false

lemma Phase.closed_of_drained {p : Phase} (h : p.drained) : p.closed := by
  cases p <;> first | rfl | cases h

lemma Phase.drained_of_activated {p : Phase} (h : p.activated) : p.drained := by
  cases p <;> first | rfl | cases h

/-- What a source can be in, in a phase of the migration. -/
structure Source.Agrees (phase : Phase) (x : Source) : Prop where
  fence : x.fenced → x.admitting = false
  cert : x.closeCert → x.fenced
  closed : phase.closed → x.closeCert
  drained : phase.drained → x.pending = 0
  epoch : x.fenceEpoch ≤ 2

/-- Inductive form of the invariant. -/
structure Safe (s : State) : Prop where
  target : s.targetAdmitting → s.phase.activated
  installed : s.phase.activated → s.targetInstalled
  retained : s.retainedResults = s.producedResults
  onTime : s.lateAdmissions = 0
  neverReopened : s.reopenedSameEpoch = 0
  revision : s.catalogRevision ≤ 3
  admitted : admittedTotal s ≤ maxAdmissions
  sources : ∀ x ∈ s.sources, x.Agrees s.phase

lemma safe_initial (n : ℕ) : Safe (initial n) := by
  refine ⟨?_, ?_, rfl, rfl, rfl, Nat.zero_le 3, ?_, fun x hx => ?_⟩
  · simp [initial]
  · simp [initial, Phase.activated]
  · simp [initial, admittedTotal]
  · rw [List.eq_of_mem_replicate hx]
    constructor <;> simp [initial, Phase.closed, Phase.drained]

lemma sum_pending_set {l : List Source} {i : ℕ} {x : Source} (h : l[i]? = some x) (y : Source) :
    ((l.set i y).map (·.pending)).sum + x.pending = (l.map (·.pending)).sum + y.pending := by
  induction l generalizing i with
  | nil => simp at h
  | cons z l ih =>
    cases i with
    | zero =>
      obtain rfl : z = x := by simpa using h
      simp only [List.set_cons_zero, List.map_cons, List.sum_cons]
      omega
    | succ i =>
      have := ih (i := i) (by simpa using h)
      simp only [List.set_cons_succ, List.map_cons, List.sum_cons]
      omega

/-- A source changes, and answers what it no longer has pending. -/
lemma Safe.put {s : State} (h : Safe s) {i : ℕ} {x y : Source} (hx : s.sources[i]? = some x)
    (hy : y.Agrees s.phase) (answered : ℕ)
    (htotal : admittedTotal s + y.pending + answered ≤ maxAdmissions + x.pending) :
    Safe { s with
      sources := s.sources.set i y, producedResults := s.producedResults + answered
      retainedResults := s.retainedResults + answered } := by
  have hsum := sum_pending_set hx y
  refine { h with
    retained := congrArg (· + answered) h.retained, admitted := ?_, sources := fun z hz => ?_ }
  · simp only [admittedTotal] at htotal ⊢
    omega
  · rcases List.mem_or_eq_of_mem_set hz with hz | rfl
    · exact h.sources z hz
    · exact hy

lemma Safe.source {s t : State} {x : Source} {i : ℕ} {action : String} (h : Safe s)
    (hx : s.sources[i]? = some x) (hstep : (action, t) ∈ sourceActions s none x i) : Safe t := by
  have hagree := h.sources x (List.mem_of_getElem? hx)
  have htotal := h.admitted
  simp only [sourceActions, List.mem_append, mem_whenever, Prod.mk.injEq, reduceCtorEq, false_and,
    and_false, or_false, List.mem_singleton] at hstep
  rcases hstep with ((((⟨⟨-, hopen, -, hfree⟩, -, rfl⟩ | ⟨⟨hpending, -⟩, -, rfl⟩) |
    ⟨⟨hphase, -, -⟩, -, rfl⟩) | ⟨⟨hfenced, -⟩, -, rfl⟩) | hmove)
  · -- an admitting source is not closed, so the sources are not drained yet
    refine h.put (y := { x with pending := x.pending + 1 }) hx
      { hagree with drained := fun hd => ?_ } 0 (by dsimp only; omega)
    have hfenced := hagree.cert (hagree.closed (Phase.closed_of_drained hd))
    rw [hfenced] at hopen
    cases hopen
  · refine h.put (y := { x with pending := x.pending - 1 }) hx
      { hagree with drained := fun hd => ?_ } 1 (by dsimp only; omega)
    rw [hagree.drained hd] at hpending
    cases hpending
  · exact h.put (y := { x with fenced := true, admitting := false }) hx
      { hagree with fence := fun _ => rfl, cert := fun _ => rfl } 0 (by dsimp only; omega)
  · exact h.put (y := { x with closeCert := true }) hx
      { hagree with cert := fun _ => hfenced, closed := fun _ => rfl } 0 (by dsimp only; omega)
  · have hput (offline : Bool) := h.put (y := { x with offline := offline }) hx { hagree with } 0
      (by dsimp only; omega)
    split_ifs at hmove
    all_goals
      obtain ⟨-, rfl⟩ := Prod.mk.inj hmove
      exact hput _

/-- The migration moves on to a phase whose evidence every source has. -/
lemma Safe.advance {s : State} (h : Safe s) (phase : Phase) (installed admitting : Bool)
    (htarget : admitting → phase.activated) (hinstalled : phase.activated → installed)
    (hclosed : phase.closed → ∀ x ∈ s.sources, x.closeCert)
    (hdrained : phase.drained → ∀ x ∈ s.sources, x.pending = 0) :
    Safe { s with phase := phase, targetInstalled := installed, targetAdmitting := admitting } :=
  { h with
    target := htarget, installed := hinstalled
    sources := fun x hx =>
      { h.sources x hx with closed := fun hc => hclosed hc x hx, drained := fun hd => hdrained hd x hx } }

lemma Safe.worker {s t : State} {w : ℕ} {action : String} (h : Safe s)
    (hstep : (action, t) ∈ phaseActions s none w) : Safe t := by
  have htarget := h.target
  have hclosed : s.phase.closed → ∀ x ∈ s.sources, x.closeCert := fun hc x hx =>
    (h.sources x hx).closed hc
  have hdrained : s.phase.drained → ∀ x ∈ s.sources, x.pending = 0 := fun hd x hx =>
    (h.sources x hx).drained hd
  rw [phaseActions.eq_def] at hstep
  cases hphase : s.phase <;>
    simp only [hphase, List.mem_append, List.mem_cons, List.not_mem_nil, mem_whenever, reduceCtorEq,
      false_and, or_false, Prod.mk.injEq, if_false] at hstep htarget hclosed hdrained
  case proposed =>
    rcases hstep with ⟨-, rfl⟩ | ⟨-, rfl⟩
    · exact h.advance .closing _ _ htarget (by simp [Phase.activated]) (by simp [Phase.closed])
        (by simp [Phase.drained])
    · exact h.advance .cancelled _ _ htarget (by simp [Phase.activated]) (by simp [Phase.closed])
        (by simp [Phase.drained])
  case closing =>
    obtain ⟨hcerts, -, rfl⟩ := hstep
    exact h.advance .draining _ _ htarget (by simp [Phase.activated])
      (fun _ => List.all_eq_true.mp hcerts) (by simp [Phase.drained])
  case draining =>
    obtain ⟨hempty, -, rfl⟩ := hstep
    refine h.advance .installing _ _ htarget (by simp [Phase.activated]) (fun _ => hclosed rfl)
      fun _ x hx => ?_
    simpa using List.all_eq_true.mp hempty x hx
  case installing =>
    rcases hstep with ⟨-, -, rfl⟩ | ⟨⟨hinstalled, -⟩, -, rfl⟩
    · exact h.advance .installing true _ htarget (fun _ => rfl) hclosed hdrained
    · exact h.advance .active _ true (fun _ => rfl) (fun _ => hinstalled) (fun _ => hclosed rfl)
        (fun _ => hdrained rfl)
  case active =>
    obtain ⟨-, rfl⟩ := hstep
    exact h.advance .retired _ _ (fun _ => rfl) (fun _ => h.installed (hphase ▸ rfl))
      (fun _ => hclosed rfl) (fun _ => hdrained rfl)

lemma Safe.supersede {s t : State} {w : ℕ} {action : String} (h : Safe s)
    (hstep : (action, t) ∈ supersedeActions s w) : Safe t := by
  simp only [supersedeActions, mem_whenever, Prod.mk.injEq] at hstep
  obtain ⟨⟨-, hepoch⟩, -, rfl⟩ := hstep
  refine { h with target := by simp, installed := ?_, admitted := ?_, sources := fun y hy => ?_ }
  · simp [Phase.activated]
  · have hpending : (·.pending) ∘ Source.resume = (·.pending) := by
      funext x
      rw [Function.comp_apply, Source.resume]
      split_ifs <;> rfl
    simpa [admittedTotal, List.map_map, hpending] using h.admitted
  · obtain ⟨x, hx, rfl⟩ := List.mem_map.mp hy
    have hagree := h.sources x hx
    rw [Source.resume]
    split_ifs
    · refine ⟨by simp, by simp, by simp [Phase.closed], by simp [Phase.drained], ?_⟩
      simpa using List.all_eq_true.mp hepoch x hx
    · exact { hagree with closed := by simp [Phase.closed], drained := by simp [Phase.drained] }

lemma Safe.next {s t : State} {action : String} (h : Safe s) (hstep : (action, t) ∈ next s none) :
    Safe t := by
  simp only [Fm3.next, List.mem_append, List.mem_flatMap] at hstep
  rcases hstep with ((⟨w, -, hstep⟩ | ⟨w, -, hstep | hstep⟩) | ⟨w, -, hstep⟩) | ⟨⟨x, i⟩, hx, hstep⟩
  · simp only [claimActions, mem_whenever, Prod.mk.injEq] at hstep
    obtain ⟨⟨-, hrevision⟩, -, rfl⟩ := hstep
    exact { h with revision := hrevision }
  · exact h.worker hstep
  · exact h.supersede hstep
  · simp [staleActions] at hstep
  · exact h.source (List.mem_zipIdx_iff_getElem?.mp hx) hstep

lemma Safe.invariant {s : State} (h : Safe s) : invariant s = .ok () := by
  have hactivated : s.phase = .active ∨ s.phase = .retired → s.phase.activated := by
    rintro (hphase | hphase) <;> rw [hphase] <;> rfl
  have hdrained : s.phase.activated → ∀ x ∈ s.sources, x.pending = 0 := fun ha x hx =>
    (h.sources x hx).drained (Phase.drained_of_activated ha)
  have hcert : s.phase.activated → ∀ x ∈ s.sources, x.closeCert := fun ha x hx =>
    (h.sources x hx).closed (Phase.closed_of_drained (Phase.drained_of_activated ha))
  apply firstViolated_eq_ok
  simp only [List.forall_mem_append, List.forall_mem_cons, List.not_mem_nil, false_imp_iff,
    implies_true, and_true, decide_eq_false_iff_not, not_and, Bool.not_eq_true, List.any_eq_false]
  refine ⟨⟨?_, ?_, ?_, ?_, ?_, ?_, ?_⟩, ?_⟩
  · intro htarget x hx
    have hagree := h.sources x hx
    rw [hagree.fence (hagree.cert (hcert (h.target htarget) x hx))]
  · rw [h.neverReopened]
    decide
  · rw [h.retained]
    simp
  · intro ha x hx
    simp [hcert (hactivated ha) x hx]
  · intro ha
    simp [h.installed (hactivated ha)]
  · intro ha x hx
    simp [hdrained (hactivated ha) x hx]
  · rw [h.onTime]
    decide
  · intro c hc
    obtain ⟨⟨x, i⟩, hx, rfl⟩ := List.mem_map.mp hc
    have hfence := (h.sources x (List.fst_mem_of_mem_zipIdx hx)).fence
    cases hf : x.fenced with
    | false => simp
    | true => simp [hfence hf]

/-- Whatever the number of sources, the model without a deliberate fault keeps its invariant. -/
theorem fm3_invariant (n : ℕ) (s : State) (h : Reachable (Fm3.next · none) (initial n) s) :
    invariant s = .ok () :=
  (h.invariant (safe_initial n) fun _ _ _ hs hstep => hs.next hstep).invariant

/-- A source with a request, which it answers after it has been fenced. -/
def fencedSource : Source := ⟨false, true, 1, false, 0, false⟩

theorem fm3_invariant_fenced : ∃ s, Reachable (Fm3.next · none) (initial 1) s ∧
    s.sources = [fencedSource] ∧ s.retainedResults = 1 ∧ invariant s = .ok () := by
  let at_ (x : Source) (results : ℕ) : State := { initial 1 with
    phase := .closing, catalogRevision := 1, workerClaims := (1, 0), sources := [x]
    producedResults := results, retainedResults := results }
  have hclaim : Path (Fm3.next · none) (initial 1) _
      { initial 1 with catalogRevision := 1, workerClaims := (1, 0) } :=
    .snoc (label "WorkerClaim" 0) .nil (by decide)
  have hclose : Path (Fm3.next · none) (initial 1) _ (at_ ⟨true, false, 1, false, 0, false⟩ 0) :=
    .snoc (label "StartClosing" 0) hclaim (by decide)
  have hadmitted : Path (Fm3.next · none) (initial 1) _ (at_ ⟨true, false, 1, false, 1, false⟩ 0) :=
    .snoc (label "AdmitOld" 0) hclose (by decide)
  have hfence : Path (Fm3.next · none) (initial 1) _ (at_ { fencedSource with pending := 1 } 0) :=
    .snoc (label "FenceSource" 0) hadmitted (by decide)
  have hresolve : Path (Fm3.next · none) (initial 1) _ (at_ fencedSource 1) :=
    .snoc (label "ResolveOld" 0) hfence (by decide)
  exact ⟨_, ⟨_, hresolve⟩, rfl, rfl, fm3_invariant 1 _ ⟨_, hresolve⟩⟩

end CarolinaDB.Models.Fm3
