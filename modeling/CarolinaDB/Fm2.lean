import CarolinaDB.Explorer

/-!
# FM-2: one decision for all participants

A replicated authority decides a transaction once. Participants prepare, vote, install
and publish over a network that repeats and reorders messages; a message that was sent
is a flag that stays set.
-/
namespace CarolinaDB.Models.Fm2

inductive Decision
  | begun | commit | abort
  deriving DecidableEq

inductive Phase
  | idle | prepared | votedNo | installed | published | aborted
  deriving DecidableEq

structure Participant where
  phase : Phase
  payloadPresent : Bool
  prepareSent : Bool
  voteSent : Bool
  installedSent : Bool
  seenSent : Bool
  deriving DecidableEq

structure State where
  decision : Decision
  everCommit : Bool
  everAbort : Bool
  decidedByEpoch : UInt8
  /-- A superseded leader decided. -/
  staleDecision : Bool
  leaderEpoch : UInt8
  staleLeaderAlive : Bool
  commitSent : Bool
  abortSent : Bool
  publicationSent : Bool
  completionSent : Bool
  successReported : Bool
  participants : List Participant
  timeoutAborts : UInt8
  deriving DecidableEq

/-- Deliberate faults, each of which breaks the invariant. -/
inductive Control
  | commitWithoutAllVotes | participantAbortsOnTimeout | staleLeaderDecides | publishOnInstall
  | gcPreparedPayload | abortAfterCommit
  deriving DecidableEq

def Participant.isInstalled (p : Participant) : Bool :=
  p.phase = .installed ∨ p.phase = .published

def invariant (s : State) : Except String Unit :=
  let anyPublished := s.participants.any (·.phase = .published)
  let notInstalled := s.participants.any (!·.isInstalled)
  firstViolated <| [
    (s.everCommit && s.everAbort, "more than one final decision"),
    (s.decision = .commit ∧
        s.participants.any fun p => !p.voteSent || p.phase = .votedNo || p.phase = .idle,
      "COMMIT without YES from every participant"),
    (s.staleDecision, "stale authority decided"),
    (anyPublished ∧ s.decision ≠ .commit, "published data without a commit decision"),
    (anyPublished ∧ !s.publicationSent, "published without a publication certificate"),
    (anyPublished ∧ notInstalled,
      "partial public transaction: a participant published while another is not installed"),
    (s.publicationSent ∧ notInstalled,
      "publication certificate without INSTALLED from every participant"),
    (s.successReported ∧ !s.completionSent, "final success before completion evidence"),
    (s.completionSent ∧ s.participants.any (·.phase ≠ .published),
      "completion certificate without PUBLISH-SEEN from every participant"),
    (s.timeoutAborts > 0, "participant inferred abort from a timeout")] ++
  s.participants.zipIdx.flatMap fun (p, i) => ([
    (p.phase = .aborted ∧ s.decision ≠ .abort,
      "participant " ++ toString i ++ " aborted without a durable abort decision"),
    (s.decision = .commit ∧ p.phase = .prepared ∧ !p.payloadPresent,
      "participant " ++ toString i ++ ": committed transaction lost its prepared payload")] : List (Bool × String))

/-- Actions of participant `i`. -/
def participantActions (s : State) (control : Option Control) (p : Participant) (i : ℕ) :
    List (String × State) :=
  let put (q : Participant) : State := { s with participants := s.participants.set i q }
  whenever (!p.prepareSent) (label "SendPrepare" i, put { p with prepareSent := true }) ++
  whenever (p.prepareSent ∧ p.phase = .idle)
    (label "VoteYes" i, put { p with phase := .prepared, payloadPresent := true }) ++
  whenever (p.prepareSent ∧ p.phase = .idle) (label "VoteNo" i, put { p with phase := .votedNo }) ++
  whenever ((p.phase = .prepared ∨ p.phase = .votedNo) ∧ !p.voteSent)
    (label "SendVote" i, put { p with voteSent := true }) ++
  whenever (s.commitSent ∧ p.phase = .prepared ∧ p.payloadPresent)
    (label "Install" i, put { p with phase := .installed }) ++
  whenever (p.phase = .installed ∧ !p.installedSent)
    (label "SendInstalled" i, put { p with installedSent := true }) ++
  whenever (p.phase = .installed ∧ (s.publicationSent ∨ control = some .publishOnInstall))
    (label "Publish" i, put { p with phase := .published }) ++
  whenever (p.phase = .published ∧ !p.seenSent)
    (label "SendPublishSeen" i, put { p with seenSent := true }) ++
  whenever (s.abortSent ∧ (p.phase = .prepared ∨ p.phase = .votedNo ∨ p.phase = .idle))
    (label "ParticipantAbort" i, put { p with phase := .aborted, payloadPresent := false }) ++
  whenever (control = some .participantAbortsOnTimeout ∧ p.phase = .prepared ∧ s.decision = .begun)
    (label "TimeoutAbort" i,
      { put { p with phase := .aborted, payloadPresent := false } with
        timeoutAborts := s.timeoutAborts + 1 }) ++
  whenever (control = some .gcPreparedPayload ∧ p.phase = .prepared ∧ p.payloadPresent ∧
      s.decision = .begun)
    (label "GcPrepared" i, put { p with payloadPresent := false })

/-- Actions of the authority and its leaders. -/
def authorityActions (s : State) (control : Option Control) : List (String × State) :=
  let allYes := s.participants.all (fun p => p.phase = .prepared && p.voteSent) ||
    s.participants.all fun p => (p.phase = .prepared || p.isInstalled) && p.voteSent
  let someNo := s.participants.any fun p => p.phase = .votedNo && p.voteSent
  whenever (s.decision = .begun ∧ (allYes ∨ control = some .commitWithoutAllVotes ∧
      s.participants.any fun p => p.phase = .prepared && p.voteSent))
    ("DecideCommit",
      { s with decision := .commit, everCommit := true, decidedByEpoch := s.leaderEpoch }) ++
  whenever (s.decision = .begun)
    (if someNo then "DecideAbort(no-vote)" else "DecideAbort(deadline)",
      { s with decision := .abort, everAbort := true, decidedByEpoch := s.leaderEpoch }) ++
  whenever (control = some .abortAfterCommit ∧ s.decision = .commit)
    ("AbortReplacesCommit", { s with decision := .abort, everAbort := true }) ++
  whenever (control = some .staleLeaderDecides ∧ s.staleLeaderAlive ∧ s.decision = .begun)
    ("StaleLeaderDecidesCommit",
      { s with decision := .commit, everCommit := true, decidedByEpoch := 1, staleDecision := true })
    ++
  whenever (s.decision = .commit ∧ !s.commitSent) ("SendCommit", { s with commitSent := true }) ++
  whenever (s.decision = .abort ∧ !s.abortSent) ("SendAbort", { s with abortSent := true }) ++
  whenever (s.decision = .commit ∧ !s.publicationSent ∧ s.participants.all (·.installedSent))
    ("IssuePublicationCertificate", { s with publicationSent := true }) ++
  whenever (s.publicationSent ∧ !s.completionSent ∧ s.participants.all (·.seenSent))
    ("IssueCompletionCertificate", { s with completionSent := true }) ++
  whenever (!s.successReported ∧
      (s.completionSent ∨ control = some .publishOnInstall ∧ s.publicationSent))
    ("ReportFinalSuccess", { s with successReported := true }) ++
  whenever (s.leaderEpoch = 1)
    ("LeaderFailover", { s with leaderEpoch := 2, staleLeaderAlive := true })

def next (s : State) (control : Option Control) : List (String × State) :=
  (s.participants.zipIdx.flatMap fun (p, i) => participantActions s control p i) ++
    authorityActions s control

def initial (participants : ℕ) : State where
  decision := .begun
  everCommit := false
  everAbort := false
  decidedByEpoch := 0
  staleDecision := false
  leaderEpoch := 1
  staleLeaderAlive := false
  commitSent := false
  abortSent := false
  publicationSent := false
  completionSent := false
  successReported := false
  participants := List.replicate participants ⟨.idle, false, false, false, false, false⟩
  timeoutAborts := 0

/-- What a participant can be in, under a decision and the certificates issued. -/
structure Participant.Agrees (d : Decision) (publication completion : Bool) (p : Participant) :
    Prop where
  committed : d = .commit → p.voteSent ∧ (p.phase = .prepared ∨ p.isInstalled)
  installed : p.isInstalled → d = .commit
  aborted : p.phase = .aborted → d = .abort
  installedSent : p.installedSent → p.isInstalled
  seenSent : p.seenSent → p.phase = .published
  published : p.phase = .published → publication
  certified : publication → p.isInstalled
  completed : completion → p.phase = .published
  payload : p.phase = .prepared → p.payloadPresent

/-- Inductive form of the invariant. -/
structure Safe (s : State) : Prop where
  everCommit : s.everCommit = decide (s.decision = .commit)
  everAbort : s.everAbort = decide (s.decision = .abort)
  commitSent : s.commitSent → s.decision = .commit
  abortSent : s.abortSent → s.decision = .abort
  publication : s.publicationSent → s.decision = .commit
  success : s.successReported → s.completionSent
  current : s.staleDecision = false
  patient : s.timeoutAborts = 0
  participants : ∀ p ∈ s.participants, p.Agrees s.decision s.publicationSent s.completionSent

lemma safe_initial (n : ℕ) : Safe (initial n) := by
  refine ⟨rfl, rfl, ?_, ?_, ?_, ?_, rfl, rfl, fun p hp => ?_⟩
  case refine_5 =>
    rw [List.eq_of_mem_replicate hp]
    constructor <;> simp [initial, Participant.isInstalled]
  all_goals simp [initial]

lemma Safe.put {s : State} (h : Safe s) (i : ℕ) {q : Participant}
    (hq : q.Agrees s.decision s.publicationSent s.completionSent) :
    Safe { s with participants := s.participants.set i q } := by
  refine { h with participants := fun p hp => ?_ }
  rcases List.mem_or_eq_of_mem_set hp with hp | rfl
  · exact h.participants p hp
  · exact hq

lemma Safe.participant {s t : State} {p : Participant} {i : ℕ} {action : String} (h : Safe s)
    (hp : p ∈ s.participants) (hstep : (action, t) ∈ participantActions s none p i) : Safe t := by
  obtain ⟨hcommitted, hinstalled, haborted, hinstalledSent, hseen, hpublished, hcertified,
    hcompleted, hpayload⟩ := h.participants p hp
  have hcommit := h.commitSent
  have habort := h.abortSent
  obtain ⟨phase, payloadPresent, prepareSent, voteSent, installedSent, seenSent⟩ := p
  simp only [participantActions, List.mem_append, mem_whenever, Prod.mk.injEq, reduceCtorEq,
    false_and, or_false] at hstep
  rcases hstep with ((((((((⟨hg, -, rfl⟩ | ⟨hg, -, rfl⟩) | ⟨hg, -, rfl⟩) | ⟨hg, -, rfl⟩) |
    ⟨hg, -, rfl⟩) | ⟨hg, -, rfl⟩) | ⟨hg, -, rfl⟩) | ⟨hg, -, rfl⟩) | ⟨hg, -, rfl⟩)
  all_goals
    apply h.put
    clear h hp
    simp only [Participant.isInstalled] at *
    cases phase <;> simp at hg <;> constructor <;> simp_all [Participant.isInstalled]

lemma Safe.authority {s t : State} {action : String} (h : Safe s)
    (hstep : (action, t) ∈ authorityActions s none) : Safe t := by
  simp only [authorityActions, List.mem_append, mem_whenever, Prod.mk.injEq, reduceCtorEq,
    false_and, or_false] at hstep
  rcases hstep with (((((((⟨⟨hd, hyes⟩, -, rfl⟩ | ⟨hd, -, rfl⟩) | ⟨⟨hd, -⟩, -, rfl⟩) |
    ⟨⟨hd, -⟩, -, rfl⟩) | ⟨⟨hd, -, hall⟩, -, rfl⟩) | ⟨⟨hpub, -, hall⟩, -, rfl⟩) |
    ⟨⟨-, hdone⟩, -, rfl⟩) | ⟨-, -, rfl⟩)
  · have hvoted : ∀ p ∈ s.participants, p.voteSent ∧ (p.phase = .prepared ∨ p.isInstalled) := by
      intro p hp
      simp only [Bool.or_eq_true, List.all_eq_true, Bool.and_eq_true, decide_eq_true_eq] at hyes
      rcases hyes with hyes | hyes
      · exact ⟨(hyes p hp).2, .inl (hyes p hp).1⟩
      · exact ⟨(hyes p hp).2, (hyes p hp).1⟩
    refine { h with
      everCommit := rfl, everAbort := by rw [h.everAbort, hd]; rfl, commitSent := fun _ => rfl
      abortSent := fun hsent => absurd (hd.symm.trans (h.abortSent hsent)) (by decide)
      publication := fun _ => rfl, participants := fun p hp => ?_ }
    exact { h.participants p hp with
      committed := fun _ => hvoted p hp, installed := fun _ => rfl
      aborted := fun ha => absurd (hd.symm.trans ((h.participants p hp).aborted ha)) (by decide) }
  · refine { h with
      everCommit := by rw [h.everCommit, hd]; rfl, everAbort := rfl, abortSent := fun _ => rfl
      commitSent := fun hsent => absurd (hd.symm.trans (h.commitSent hsent)) (by decide)
      publication := fun hsent => absurd (hd.symm.trans (h.publication hsent)) (by decide)
      participants := fun p hp => ?_ }
    exact { h.participants p hp with
      committed := by simp, aborted := fun _ => rfl
      installed := fun hi => absurd (hd.symm.trans ((h.participants p hp).installed hi)) (by decide) }
  · exact { h with commitSent := fun _ => hd }
  · exact { h with abortSent := fun _ => hd }
  · refine { h with publication := fun _ => hd, participants := fun p hp => ?_ }
    have hinstalled := (h.participants p hp).installedSent (List.all_eq_true.mp hall p hp)
    exact { h.participants p hp with published := fun _ => rfl, certified := fun _ => hinstalled }
  · refine { h with success := fun _ => rfl, participants := fun p hp => ?_ }
    have hpublished := (h.participants p hp).seenSent (List.all_eq_true.mp hall p hp)
    exact { h.participants p hp with completed := fun _ => hpublished }
  · exact { h with success := fun _ => hdone }
  · exact { h with }

lemma Safe.next {s t : State} {action : String} (h : Safe s) (hstep : (action, t) ∈ next s none) :
    Safe t := by
  rcases List.mem_append.mp hstep with hstep | hstep
  · obtain ⟨⟨p, i⟩, hp, hstep⟩ := List.mem_flatMap.mp hstep
    exact h.participant (List.fst_mem_of_mem_zipIdx hp) hstep
  · exact h.authority hstep

lemma Safe.invariant {s : State} (h : Safe s) : invariant s = .ok () := by
  have hpublished : s.participants.any (·.phase = .published) → s.publicationSent := by
    intro hany
    obtain ⟨p, hp, hphase⟩ := List.any_eq_true.mp hany
    exact (h.participants p hp).published (by simpa using hphase)
  have hinstalled : s.publicationSent → s.participants.any (!·.isInstalled) = false := by
    intro hsent
    rw [List.any_eq_false]
    intro p hp
    simp [(h.participants p hp).certified hsent]
  apply firstViolated_eq_ok
  simp only [List.forall_mem_append, List.forall_mem_cons, List.not_mem_nil, false_imp_iff,
    implies_true, and_true, decide_eq_false_iff_not, not_and]
  refine ⟨⟨?_, ?_, h.current, ?_, ?_, ?_, ?_, ?_, ?_, ?_⟩, ?_⟩
  · rw [h.everCommit, h.everAbort]
    cases s.decision <;> rfl
  · intro hd
    rw [Bool.not_eq_true, List.any_eq_false]
    intro p hp
    obtain ⟨hvote, hphase⟩ := (h.participants p hp).committed hd
    cases hp : p.phase <;> simp_all [Participant.isInstalled]
  · intro hany hd
    exact hd (h.publication (hpublished hany))
  · intro hany
    simp [hpublished hany]
  · intro hany
    simp [hinstalled (hpublished hany)]
  · intro hsent
    simp [hinstalled hsent]
  · intro hs
    simp [h.success hs]
  · intro hsent
    rw [Bool.not_eq_true, List.any_eq_false]
    intro p hp
    simp [(h.participants p hp).completed hsent]
  · rw [h.patient]
    decide
  · intro c hc
    obtain ⟨⟨p, i⟩, hp, hc⟩ := List.mem_flatMap.mp hc
    have hagree := h.participants p (List.fst_mem_of_mem_zipIdx hp)
    simp only [List.mem_cons, List.not_mem_nil, or_false] at hc
    rcases hc with rfl | rfl
    · simpa using hagree.aborted
    · simpa using fun _ => hagree.payload

/-- Whatever the number of participants, the model without a deliberate fault keeps its invariant. -/
theorem fm2_invariant (n : ℕ) (s : State) (h : Reachable (Fm2.next · none) (initial n) s) :
    invariant s = .ok () :=
  (h.invariant (safe_initial n) fun _ _ _ hs hstep => hs.next hstep).invariant

/-- A participant after it prepared and voted. -/
def voted : Participant := ⟨.prepared, true, true, true, false, false⟩

/-- It votes, and the authority commits. -/
theorem fm2_invariant_voted : ∃ s, Reachable (Fm2.next · none) (initial 1) s ∧
    s.decision = .commit ∧ invariant s = .ok () := by
  let at_ (p : Participant) : State := { initial 1 with participants := [p] }
  have hprepare : Path (Fm2.next · none) (initial 1) _ (at_ ⟨.idle, false, true, false, false, false⟩) :=
    .snoc (label "SendPrepare" 0) .nil (by decide)
  have hyes : Path (Fm2.next · none) (initial 1) _ (at_ { voted with voteSent := false }) :=
    .snoc (label "VoteYes" 0) hprepare (by decide)
  have hvote : Path (Fm2.next · none) (initial 1) _ (at_ voted) :=
    .snoc (label "SendVote" 0) hyes (by decide)
  have hcommit : Path (Fm2.next · none) (initial 1) _
      { at_ voted with decision := .commit, everCommit := true, decidedByEpoch := 1 } :=
    .snoc "DecideCommit" hvote (by decide)
  exact ⟨_, ⟨_, hcommit⟩, rfl, fm2_invariant 1 _ ⟨_, hcommit⟩⟩

end CarolinaDB.Models.Fm2
