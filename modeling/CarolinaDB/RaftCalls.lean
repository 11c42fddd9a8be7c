import CarolinaDB.RaftReplication

/-!
# Every call of a node keeps the invariant

Message handlers, ticks, proposals and barriers, assembled from the election and
replication steps. Handling a message of the history never fails.
-/
namespace CarolinaDB.Consensus

open ElectionHistory

variable {Id : Type} [LinearOrder Id] {cfg : Config Id} {h₀ h : Rows Id} {start r : Raft Id}
  {full : List Entry}

lemma upToDate_of_request (v : r.Views full) {l : List Entry} {li lt : ℕ} (hli : li = l.length)
    (hlt : lt = (l.getLast?.map Entry.term).getD 0)
    (hup : r.lastTerm < lt ∨ (lt = r.lastTerm ∧ r.lastIndex ≤ li)) : UpToDate l full := by
  rw [v.lastTerm, v.lastIndex, hli, hlt] at hup
  exact hup

lemma lastNew_eq {l es : List Entry} {pi : ℕ} (hn : Numbered l) (hes : es <+: l.drop pi) :
    (es.getLast?.map Entry.index).getD pi = pi + es.length := by
  cases hl : es.getLast? with
  | none =>
    rw [List.getLast?_eq_none_iff] at hl
    simp [hl]
  | some e =>
    rw [List.getLast?_eq_getElem?] at hl
    have hlen := length_of_getElem? hl
    have := prefix_getElem? hes hl
    rw [List.getElem?_drop] at this
    have := hn.index _ e this
    simp only [Option.map_some, Option.getD_some]
    omega

lemma Raft.advanceCommit_role (r : Raft Id) : r.advanceCommit.role = r.role := by
  unfold Raft.advanceCommit
  simp only
  split <;> rfl

namespace Running

theorem stepRequestVote (R : Running cfg h₀ start h full r) {c : Id} {t li lt : ℕ}
    (hm : MsgOk cfg h ⟨c, r.me, .requestVote t li lt⟩) :
    ∃ h' full', Running cfg h₀ start h' full' (r.stepRequestVote c t li lt) := by
  obtain ⟨l, hst, hli, hlt, hcan, hterm⟩ := hm
  unfold Raft.stepRequestVote
  extract_lets q upToDate grant q'
  have Q : Running cfg h₀ start h full q := by
    unfold q
    split
    · exact R.becomeFollower t none
    · exact R
  by_cases hg : grant
  · obtain ⟨ht, hup, hv⟩ := hg
    rw [ht] at hst hterm
    have Q₁ := (Q.grantVote hst hcan hterm (upToDate_of_request Q.views hli hlt hup) hv).frame
      (q := (Raft.persistTermVote { q with votedFor := some c }).resetElectionTimeout)
      rfl rfl rfl rfl
    have hq' : q' = (Raft.persistTermVote { q with votedFor := some c }).resetElectionTimeout :=
      if_pos ⟨ht, hup, hv⟩
    rw [hq']
    exact ⟨_, _, Q₁.send fun _ => Q₁.voter.vote_eq⟩
  · have hq' : q' = q := if_neg hg
    rw [hq']
    exact ⟨h, full, Q.send fun hf => absurd (of_decide_eq_true hf) hg⟩

/-- A granted vote counts for the term it was cast in. -/
lemma addVote (R : Running cfg h₀ start h full r) {v : Id} (hv : v ∈ cfg.members)
    (hvote : h.voted v r.term = some start.me) :
    Running cfg h₀ start h full { r with votes := insert v r.votes } := by
  refine R.move (Grows.refl _ _) R.ledger ?_ rfl (Or.inl rfl) rfl rfl
  refine ⟨R.me, R.node.member, R.cfg_eq, R.synced, R.node.live, R.node.commit, ?_, ?_⟩
  · intro hr
    have ok := R.node.leader hr
    exact ⟨ok.term_pos, ok.led, ok.log, ok.matched⟩
  · intro hr
    have ok := R.node.candidate hr
    refine ⟨ok.term_pos, ok.stood, ok.not_led, fun w hw => ?_⟩
    rcases Finset.mem_insert.mp hw with rfl | hw
    · exact ⟨hv, hvote⟩
    · exact ok.votes w hw

theorem stepRequestVoteReply (R : Running cfg h₀ start h full r) {v : Id} {t : ℕ} {granted : Bool}
    (hv : v ∈ cfg.members) (hm : MsgOk cfg h ⟨v, r.me, .requestVoteReply t granted⟩) :
    ∃ h' full', Running cfg h₀ start h' full' (r.stepRequestVoteReply v t granted) := by
  unfold Raft.stepRequestVoteReply
  split
  · exact ⟨h, full, R.becomeFollower t none⟩
  split
  · rename_i hcond
    obtain ⟨hr, rfl, hg⟩ := hcond
    have hvote : h.voted v r.term = some start.me := by
      rw [← R.me]
      exact hm hg
    have R₁ := R.addVote hv hvote
    simp only
    split
    · rename_i hq
      rw [R.cfg_eq] at hq
      exact R₁.becomeLeader hr hq
    · exact ⟨h, full, R₁⟩
  · exact ⟨h, full, R⟩

/-- The commit index follows the leader's, as far as the entries just matched reach. -/
lemma setCommit (R : Running cfg h₀ start h full r) (hr : r.role = .follower) {n : ℕ}
    (hc : Committed cfg.voters h r.term full n) :
    Running cfg h₀ start h full { r with commitIndex := n } := by
  refine R.move (Grows.refl _ _) R.ledger ?_ rfl (Or.inl rfl) rfl rfl
  refine ⟨R.me, R.node.member, R.cfg_eq, R.synced, R.node.live, hc, ?_, ?_⟩
  · simp [Raft.core, hr]
  · simp [Raft.core, hr]

theorem stepAppendEntries (R : Running cfg h₀ start h full r) {c : Id} {t pi pt lc rr : ℕ}
    {es : List Entry} (hm : MsgOk cfg h ⟨c, r.me, .appendEntries t pi pt es lc rr⟩) :
    ∃ r' h' full', r.stepAppendEntries c t pi pt es lc rr = .ok r' ∧
      Running cfg h₀ start h' full' r' := by
  obtain ⟨hl, hs, hlc⟩ := hm
  unfold Raft.stepAppendEntries
  by_cases hlt : t < r.term
  · rw [if_pos hlt]
    exact ⟨_, h, full, rfl, R.send fun hs => (by cases hs)⟩
  rw [if_neg hlt]
  simp only
  set q := if r.term < t ∨ r.role ≠ .follower then r.becomeFollower t (some c)
    else Raft.resetElectionTimeout { r with leader := some c } with hq
  obtain ⟨Q, hrole, hterm⟩ : Running cfg h₀ start h full q ∧ q.role = .follower ∧ q.term = t := by
    rw [hq]
    split
    · exact ⟨R.becomeFollower t _, rfl, by rw [Raft.becomeFollower_term]; omega⟩
    · rename_i hcond
      simp only [not_or, not_lt, ne_eq, not_not] at hcond
      refine ⟨R.frame rfl rfl rfl rfl, hcond.2, ?_⟩
      change r.term = t
      omega
  clear_value q
  subst hterm
  split
  · exact ⟨_, h, full, rfl, Q.send fun hs => (by cases hs)⟩
  rename_i hchk
  obtain ⟨heq, hpf, hpl, hes⟩ := Q.prev_match hl hs hchk
  obtain ⟨q₁, full₁, hok, Q₁, hrole₁, hterm₁, hp⟩ := Q.appendNew hrole hl es heq hpf hpl hes
  rw [hok]
  simp only [bind, Except.bind]
  rw [lastNew_eq (Q.ledger.numbered q.term) hes]
  set lastNew := pi + es.length with hlast
  have hlen : lastNew ≤ (h.leaderLog q.term).length := by
    have := hes.length_le
    rw [List.length_drop] at this
    omega
  -- the entries up to the last one sent are the leader's, hence committed as far as it says
  have Q₂ : ∃ q₂, Running cfg h₀ start h full₁ q₂ ∧ q₂.term = q.term ∧
      q₂ = if q₁.commitIndex < lc then
        { q₁ with commitIndex := max (min lc lastNew) q₁.commitIndex } else q₁ := by
    refine ⟨_, ?_, ?_, rfl⟩
    · split
      · refine Q₁.setCommit hrole₁ ?_
        rcases Nat.le_total (min lc lastNew) q₁.commitIndex with hle | hle
        · rw [max_eq_right hle]
          exact Q₁.node.commit
        · rw [max_eq_left hle, hterm₁]
          refine (hlc.le (min_le_left lc lastNew)).of_take ?_
          rw [take_prefix_iff hlen] at hp
          exact take_eq_of_take_eq hp.1 (min_le_right _ _)
      · exact Q₁
    · split <;> exact hterm₁
  obtain ⟨q₂, Q₂, hterm₂, hq₂⟩ := Q₂
  rw [← hq₂]
  have Q₃ := Q₂.ack (m := lastNew) (by rw [hterm₂]; exact hlen) (by rw [hterm₂]; exact hp)
  refine ⟨_, _, full₁, rfl, Q₃.send fun _ => ?_⟩
  exact le_acked_ack

theorem stepAppendEntriesReply (R : Running cfg h₀ start h full r) {v : Id} {t m rr ap : ℕ}
    {success : Bool} (hm : MsgOk cfg h ⟨v, r.me, .appendEntriesReply t success m rr ap⟩) :
    Running cfg h₀ start h full (r.stepAppendEntriesReply v t success m rr ap) := by
  unfold Raft.stepAppendEntriesReply
  extract_lets q cur q₁ q₂ q₃ q₄ next
  have Q : Running cfg h₀ start h full q := R.frame rfl rfl rfl rfl
  by_cases hlt : q.term < t
  · rw [if_pos hlt]
    exact Q.becomeFollower t none
  rw [if_neg hlt]
  by_cases hcond : q.role ≠ .leader ∨ t ≠ q.term
  · rw [if_pos hcond]
    exact Q
  rw [if_neg hcond]
  simp only [ne_eq, not_or, not_not] at hcond
  obtain ⟨hrole, ht⟩ := hcond
  subst ht
  split
  · rename_i hsucc
    obtain ⟨Q₁, hrole₁⟩ : Running cfg h₀ start h full q₁ ∧ q₁.role = .leader := by
      unfold q₁
      split
      · exact ⟨Q.setMatch (hm hsucc), hrole⟩
      · exact ⟨Q, hrole⟩
    have Q₂ : Running cfg h₀ start h full q₂ := Q₁.frame rfl rfl rfl rfl
    have Q₃ : Running cfg h₀ start h full q₃ := Q₂.advanceCommit hrole₁
    have hrole₃ : q₃.role = .leader := q₂.advanceCommit_role.trans hrole₁
    obtain ⟨Q₄, hrole₄⟩ : Running cfg h₀ start h full q₄ ∧ q₄.role = .leader := by
      unfold q₄
      split
      · exact ⟨Q₃.frame rfl rfl rfl rfl, hrole₃⟩
      · exact ⟨Q₃, hrole₃⟩
    split
    · exact Q₄.sendAppend hrole₄ v 0
    · exact Q₄
  · have Q₁ : Running cfg h₀ start h full
        { q with nextIndex := Function.update q.nextIndex v (some next) } := Q.frame rfl rfl rfl rfl
    exact Q₁.sendAppend hrole v 0

/-- Handling a message of the history succeeds and keeps the invariant; in particular no leader
ever conflicts with a committed entry. -/
theorem step (R : Running cfg h₀ start h full r) {env : Envelope Id} (hm : MsgOk cfg h env) :
    ∃ r' h' full', r.step env = .ok r' ∧ Running cfg h₀ start h' full' r' := by
  obtain ⟨f, to_, msg⟩ := env
  unfold Raft.step
  split
  · exact ⟨r, h, full, rfl, R⟩
  rename_i hcond
  simp only [ne_eq, not_or, not_not, R.cfg_eq] at hcond
  obtain ⟨rfl, hf⟩ := hcond
  cases msg with
  | requestVote t li lt =>
    obtain ⟨h', full', R'⟩ := R.stepRequestVote hm
    exact ⟨_, h', full', rfl, R'⟩
  | requestVoteReply t granted =>
    obtain ⟨h', full', R'⟩ := R.stepRequestVoteReply hf hm
    exact ⟨_, h', full', rfl, R'⟩
  | appendEntries t pi pt es lc rr => exact R.stepAppendEntries hm
  | appendEntriesReply t s m rr ap => exact ⟨_, h, full, rfl, R.stepAppendEntriesReply hm⟩

theorem tick (R : Running cfg h₀ start h full r) :
    ∃ h' full', Running cfg h₀ start h' full' r.tick := by
  have hcand : ∀ {q : Raft Id}, Running cfg h₀ start h full q →
      ∃ h' full', Running cfg h₀ start h' full'
        (if q.electionTimeout ≤ q.electionElapsed then q.becomeCandidate else q) := by
    intro q Q
    split
    · exact Q.becomeCandidate
    · exact ⟨h, full, Q⟩
  unfold Raft.tick
  split
  · rename_i hr
    extract_lets q
    have R₁ := R.frame (q := { r with heartbeatElapsed := r.heartbeatElapsed + 1 })
      rfl rfl rfl rfl
    split
    · exact ⟨h, full, R₁.broadcastAppend hr 0⟩
    · exact ⟨h, full, R₁⟩
  · exact hcand (q := { r with electionElapsed := r.electionElapsed + 1 })
      (R.frame rfl rfl rfl rfl)
  · exact hcand (q := { r with electionElapsed := r.electionElapsed + 1 })
      (R.frame rfl rfl rfl rfl)

theorem propose (R : Running cfg h₀ start h full r) {data : List UInt8} {n : ℕ} {r' : Raft Id}
    (hp : r.propose data = .ok (n, r')) : ∃ h' full', Running cfg h₀ start h' full' r' := by
  unfold Raft.propose at hp
  split at hp
  · simp at hp
  rename_i hr
  simp only [ne_eq, not_not] at hr
  split at hp
  · simp at hp
  obtain ⟨h', full', R'⟩ := R.appendLocal hr data
  simp only [Except.ok.injEq, Prod.mk.injEq] at hp
  rw [← hp.2]
  exact ⟨h', full', R'.broadcastAppend hr 0⟩

theorem readBarrier (R : Running cfg h₀ start h full r) {n : ℕ} {r' : Raft Id}
    (hp : r.readBarrier = .ok (n, r')) : Running cfg h₀ start h full r' := by
  unfold Raft.readBarrier at hp
  split at hp
  · simp at hp
  rename_i hr
  simp only [ne_eq, not_not] at hr
  split at hp
  · simp at hp
  simp only [Except.ok.injEq, Prod.mk.injEq] at hp
  rw [← hp.2]
  have R₁ := R.frame (q := { r with
    readRound := r.readRound + 1
    pendingReads := r.pendingReads ++ [(r.readRound + 1, r.commitIndex, {r.me})] }) rfl rfl rfl rfl
  exact R₁.broadcastAppend hr _

end Running

end CarolinaDB.Consensus
