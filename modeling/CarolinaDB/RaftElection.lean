import CarolinaDB.RaftInvariant

/-!
# Elections keep the invariant

Stepping down, granting a vote, standing as a candidate and winning. Each writes
the durable state before the node acts on it, so every durable state on the way
is recoverable.
-/
namespace CarolinaDB.Consensus

open ElectionHistory

variable {Id : Type} [LinearOrder Id] {cfg : Config Id} {h₀ h : Rows Id} {start r : Raft Id}
  {full : List Entry}

namespace Raft

@[simp] lemma becomeFollower_role (r : Raft Id) (t : ℕ) (l : Option Id) :
    (r.becomeFollower t l).role = .follower := rfl

lemma becomeFollower_term (r : Raft Id) (t : ℕ) (l : Option Id) :
    (r.becomeFollower t l).term = max r.term t := by
  unfold becomeFollower
  by_cases ht : r.term < t
  · rw [if_pos ht, max_eq_right ht.le]
    rfl
  · rw [if_neg ht, max_eq_left (by omega)]
    rfl

lemma state_saveTermVote (hs : r.storage.state = r.live) (t : ℕ) (v : Option Id) :
    (r.storage.saveTermVote t v).state = ⟨t, v, r.log, r.snapshotIndex, r.snapshotTerm⟩ := by
  simp [Storage.saveTermVote, Storage.write, hs, live]

end Raft

namespace Running

lemma synced (R : Running cfg h₀ start h full r) : r.storage.state = r.live := R.node.synced

theorem becomeFollower (R : Running cfg h₀ start h full r) (t : ℕ) (l : Option Id) :
    Running cfg h₀ start h full (r.becomeFollower t l) := by
  unfold Raft.becomeFollower
  by_cases ht : r.term < t
  · rw [if_pos ht]
    refine R.move (Grows.refl _ _) R.ledger ?_ rfl (Or.inr rfl) rfl rfl
    exact .follower R.me R.node.member R.cfg_eq (Raft.state_saveTermVote R.synced t none)
      ⟨R.views, R.voter.advance ht, R.node.live.base.mono ht.le⟩ (R.node.commit.mono ht.le) rfl
  · rw [if_neg ht]
    refine R.move (Grows.refl _ _) R.ledger ?_ rfl (Or.inl rfl) rfl rfl
    exact .follower R.me R.node.member R.cfg_eq R.synced R.node.live R.node.commit rfl

/-- Granting the vote of the current term to a candidate whose log is at least
as up to date. -/
theorem grantVote (R : Running cfg h₀ start h full r) {c : Id} {l : List Entry}
    (hst : h.stood c r.term = some l) (hcan : Attested h l) (hterm : ∀ e ∈ l, e.term ≤ r.term)
    (hup : UpToDate l full) (hv : r.votedFor = none ∨ r.votedFor = some c) :
    Running cfg h₀ start (h.vote start.me r.term c) full
      (Raft.persistTermVote { r with votedFor := some c }) := by
  have hvote : h.voted start.me r.term = none ∨ h.voted start.me r.term = some c := by
    rw [R.voter.vote_eq]
    exact hv
  have g := grows_vote hvote
  have hk : Keeps h start.me r.term r.term l := by
    have hk := Keeps.upToDate R.ledger.toSound hcan R.voter.attested hterm
      R.views.numbered.term_pos R.voter.keeps hup
    exact fun s k hs => hk s k (Nat.lt_succ_of_lt hs)
  refine R.move g ⟨R.ledger.toSound.vote hvote hst hk, R.ledger.numbered⟩ ?_ rfl (Or.inr rfl)
    rfl rfl
  refine ⟨R.me, R.node.member, R.cfg_eq, Raft.state_saveTermVote R.synced _ _,
    ⟨R.views, R.voter.vote, g.committed R.node.live.base⟩, g.committed R.node.commit, ?_, ?_⟩
  · intro hr
    have ok := R.node.leader hr
    exact ⟨ok.term_pos, ok.led, ok.log, ok.matched⟩
  · intro hr
    have ok := R.node.candidate hr
    exact ⟨ok.term_pos, ok.stood, ok.not_led, fun v hm =>
      ⟨(ok.votes v hm).1, g.voted _ _ _ (ok.votes v hm).2⟩⟩

/-- The durable half of standing: the next term, with a vote for itself. -/
theorem stand (R : Running cfg h₀ start h full r) :
    Running cfg h₀ start (h.stand start.me (r.term+1) full) full
      { Raft.persistTermVote { r with term := r.term + 1, votedFor := some r.me } with
        role := .candidate, leader := none, votes := {r.me} } := by
  have hlt := Nat.lt_succ_self r.term
  have hv := R.voter.voted_future _ hlt
  have hst := R.voter.stood_future _ hlt
  have g : Grows start.me h (h.stand start.me (r.term+1) full) := grows_stand hv hst
  have hk : Keeps h start.me (r.term+1) (r.term+1) full :=
    fun s k hs => (R.voter.advance hlt).keeps s k (Nat.lt_succ_of_lt hs)
  refine R.move g ⟨R.ledger.toSound.stand hv hst hk, R.ledger.numbered⟩ ?_ rfl (Or.inr rfl)
    rfl rfl
  refine ⟨R.me, R.node.member, R.cfg_eq, Raft.state_saveTermVote R.synced _ _,
    ⟨R.views, ?_, (g.committed R.node.live.base).mono hlt.le⟩,
    (g.committed R.node.commit).mono hlt.le, fun hr => (by cases hr),
    fun _ => ⟨Nat.succ_pos _, ?_, ?_, ?_⟩⟩
  · have hvoter : VoterOk _ _ _ (some start.me) full := R.voter.stand hlt
    rwa [← R.me] at hvoter ⊢
  · exact setCell_self _ _ _ _
  · intro hl
    have := R.voter.led_past _ hl
    simp only [Raft.core, Raft.live, Raft.persistTermVote] at this
    omega
  · intro v hv'
    simp only [Raft.core, Finset.mem_singleton] at hv'
    rw [hv', R.me]
    exact ⟨R.node.member, setCell_self _ _ _ _⟩

/-- An acknowledgement of a prefix of the current leader's log that the node stores. -/
theorem ack (R : Running cfg h₀ start h full r) {m : ℕ} (hm : m ≤ (h.leaderLog r.term).length)
    (hp : (h.leaderLog r.term).take m <+: full) :
    Running cfg h₀ start (h.ack start.me r.term m) full r := by
  have g : Grows start.me h (h.ack start.me r.term m) := grows_ack
  refine R.move g ⟨R.ledger.toSound.ack hm R.voter.voted_future, R.ledger.numbered⟩ ?_ rfl
    (Or.inl rfl) rfl rfl
  refine ⟨R.me, R.node.member, R.cfg_eq, R.synced,
    ⟨R.views, R.voter.ack hp, g.committed R.node.live.base⟩, g.committed R.node.commit, ?_, ?_⟩
  · intro hr
    have ok := R.node.leader hr
    exact ⟨ok.term_pos, ok.led, ok.log, fun v hv n hn => (ok.matched v hv n hn).trans (g.acked _ _)⟩
  · intro hr
    have ok := R.node.candidate hr
    exact ⟨ok.term_pos, ok.stood, ok.not_led, ok.votes⟩

lemma setMatch (R : Running cfg h₀ start h full r) {m : Id} {n : ℕ} (hn : n ≤ h.acked m r.term) :
    Running cfg h₀ start h full
      { r with matchIndex := Function.update r.matchIndex m (some n) } := by
  refine R.move (Grows.refl _ _) R.ledger ?_ rfl (Or.inl rfl) rfl rfl
  refine ⟨R.me, R.node.member, R.cfg_eq, R.synced, R.node.live, R.node.commit, ?_, ?_⟩
  · intro hr
    have ok := R.node.leader hr
    refine ⟨ok.term_pos, ok.led, ok.log, fun v hv k hk => ?_⟩
    by_cases hvm : v = m
    · subst hvm
      simp only [Raft.core, Function.update_self, Option.some.injEq] at hk
      subst hk
      exact hn
    · simp only [Raft.core, Function.update_of_ne hvm] at hk
      exact ok.matched v hv k hk
  · intro hr
    have ok := R.node.candidate hr
    exact ⟨ok.term_pos, ok.stood, ok.not_led, ok.votes⟩

/-- A leader's own entry enters its log, the log of its term and its acknowledgements. -/
theorem appendLocal (R : Running cfg h₀ start h full r) (hr : r.role = .leader) (data : List UInt8) :
    ∃ h' full', Running cfg h₀ start h' full' (r.appendLocal data).2 := by
  have ok := R.node.leader hr
  have hled : h.led r.term = some start.me := ok.led
  have hlog : h.leaderLog r.term = full := ok.log
  set e : Entry := ⟨r.term, r.lastIndex + 1, data⟩ with he
  have het : Stamped.term e = r.term := rfl
  have hidx : e.index = full.length + 1 := by rw [he, R.views.lastIndex]
  have g : Grows start.me h (h.append r.term e) := grows_append hled het
  have R₁ : Running cfg h₀ start (h.append r.term e) (full ++ [e])
      { r with storage := r.storage.append [e], log := r.log ++ [e] } := by
    refine R.move g ⟨R.ledger.toSound.append hled het, ?_⟩ ?_ rfl (Or.inr rfl) rfl rfl
    · intro t
      by_cases ht : t = r.term
      · subst ht
        rw [append_log_self, hlog]
        exact R.views.numbered.push hidx ok.term_pos
      · rw [append_log_of_ne ht]
        exact R.ledger.numbered t
    · have hvoter := R.voter
      rw [← hlog] at hvoter
      have hv := hvoter.append R.ledger.toSound hled het
      rw [hlog] at hv
      have hext : ∀ {t k}, Committed cfg.voters h t full k →
          Committed cfg.voters (h.append r.term e) t (full ++ [e]) k :=
        fun hc => (g.committed hc).of_take (List.take_append_of_le_length hc.le_length)
      refine ⟨R.me, R.node.member, R.cfg_eq, ?_, ⟨R.views.push hidx ok.term_pos, hv,
        hext R.node.live.base⟩, hext R.node.commit, fun _ => ?_, fun hc => ?_⟩
      · simp [Raft.core, Raft.live, Storage.append, Storage.write, R.synced]
      · refine ⟨ok.term_pos, hled, ?_, ok.matched⟩
        have := append_log_self (h := h) (t := r.term) (a := e)
        rw [hlog] at this
        exact this
      · simp [Raft.core, hr] at hc
  have hfull : (h.append r.term e).leaderLog r.term = full ++ [e] := by rw [append_log_self, hlog]
  have R₂ := R₁.ack (m := full.length + 1) (by simp [hfull]) (by
    change List.take _ ((h.append r.term e).leaderLog r.term) <+: _
    rw [hfull]
    exact List.take_prefix _ _)
  refine ⟨_, _, R₂.setMatch (m := r.me) (n := _) ?_⟩
  rw [R₁.views.lastIndex, R.me, List.length_append, List.length_singleton]
  exact le_acked_ack

/-- What a leader sends from `next` on is a slice of its log. -/
lemma slice_sent (R : Running cfg h₀ start h full r) {next : ℕ} (hn : r.snapshotIndex < next) :
    Slice full (next - 1) (r.termAt (next - 1))
      (match r.logPos next with
        | some pos => if next ≤ r.lastIndex then r.log.drop pos else []
        | none => []) := by
  have hpos : r.logPos next = some (next - r.snapshotIndex - 1) := if_neg (by omega)
  rw [hpos, R.views.termAt, if_neg (by omega), R.views.lastIndex]
  by_cases hlen : next - 1 ≤ full.length
  · refine Or.inl ⟨hlen, rfl, ?_⟩
    simp only
    split
    · rw [R.views.log_eq, List.drop_drop]
      have : r.snapshotIndex + (next - r.snapshotIndex - 1) = next - 1 := by omega
      rw [this]
    · exact List.nil_prefix
  · refine Or.inr ⟨?_, if_neg (by omega)⟩
    rw [termOf, if_neg (by omega), List.getElem?_eq_none (by omega)]
    rfl

theorem sendAppend (R : Running cfg h₀ start h full r) (hr : r.role = .leader) (to_ : Id)
    (readRound : ℕ) : Running cfg h₀ start h full (r.sendAppend to_ readRound) := by
  have ok := R.node.leader hr
  have hlog : h.leaderLog r.term = full := ok.log
  unfold Raft.sendAppend
  simp only
  split
  · exact R.frame rfl rfl rfl rfl
  · rename_i hn
    refine R.send ⟨ok.led, ?_, ?_⟩
    · rw [hlog]
      exact R.slice_sent (by omega)
    · rw [hlog]
      exact R.node.commit

lemma sendAppend_core (r : Raft Id) (to_ : Id) (rr : ℕ) : (r.sendAppend to_ rr).core = r.core := by
  unfold Raft.sendAppend
  simp only
  split <;> rfl

theorem broadcastAppend (R : Running cfg h₀ start h full r) (hr : r.role = .leader)
    (readRound : ℕ) : Running cfg h₀ start h full (r.broadcastAppend readRound) := by
  have hfold : ∀ ms : List Id, ∀ r, Running cfg h₀ start h full r → r.role = .leader →
      Running cfg h₀ start h full
        (ms.foldl (fun r m => if m ≠ r.me then r.sendAppend m readRound else r) r) := by
    intro ms
    induction ms with
    | nil => exact fun _ R _ => R
    | cons m ms ih =>
      intro r R hr
      rw [List.foldl_cons]
      split
      · exact ih _ (R.sendAppend hr m readRound)
          ((congrArg Core.role (sendAppend_core r m readRound)).trans hr)
      · exact ih r R hr
  exact (hfold r.cfg.members r R hr).frame rfl rfl rfl rfl

end Running

namespace Raft

/-- The node as it takes leadership, before the term no-op. -/
def seat (r : Raft Id) : Raft Id :=
  { r with
    role := .leader
    leader := some r.me
    becameLeaderTerms := r.becameLeaderTerms ++ [r.term]
    nextIndex := r.cfg.members.foldl
      (fun f m => Function.update f m (some (r.lastIndex + 1))) r.nextIndex
    matchIndex := Function.update (r.cfg.members.foldl
      (fun f m => Function.update f m (some 0)) r.matchIndex) r.me (some r.lastIndex) }

lemma becomeLeader_eq (r : Raft Id) : r.becomeLeader =
    broadcastAppend { (r.seat.appendLocal []).2 with heartbeatElapsed := r.cfg.heartbeatTicks } 0 :=
  rfl

lemma foldl_update_of_mem {β : Type} (x : β) {ms : List Id} (f : Id → β) {m : Id} (hm : m ∈ ms) :
    ms.foldl (fun f m => Function.update f m x) f m = x := by
  induction ms using List.reverseRecOn with
  | nil => simp at hm
  | append_singleton ms a ih =>
    rw [List.foldl_append, List.foldl_cons, List.foldl_nil]
    by_cases hma : m = a
    · rw [hma, Function.update_self]
    · rw [Function.update_of_ne hma]
      apply ih
      simpa [hma] using hm

end Raft

namespace Running

/-- A quorum of votes opens the log of the term with the candidate's. -/
theorem seat (R : Running cfg h₀ start h full r) (hr : r.role = .candidate)
    (hq : cfg.quorum ≤ r.votes.card) : ∃ h', Running cfg h₀ start h' full r.seat := by
  have ok := R.node.candidate hr
  have hQ : Quorum cfg.voters r.votes := by
    refine ⟨fun v hv => Config.mem_voters.mpr (ok.votes v hv).1, ?_⟩
    rw [Config.card_voters]
    exact hq
  have hvotes : ∀ v ∈ r.votes, h.voted v r.term = some start.me := fun v hv => (ok.votes v hv).2
  have hl : h.led r.term = none := by
    cases hl : h.led r.term with
    | none => rfl
    | some d => exact absurd (R.ledger.toSound.led_of_quorum hl hQ hvotes ▸ hl) ok.not_led
  have g : Grows start.me h (h.elect start.me r.term full) := grows_elect R.ledger.toSound hl
  have hs := R.ledger.toSound.elect hl ok.stood R.voter.attested R.voter.term_le hQ hvotes
  have hlog : (h.elect start.me r.term full).leaderLog r.term = full := by simp [History.elect]
  have R₁ : Running cfg h₀ start (h.elect start.me r.term full) full
      { r with role := .follower } := by
    refine R.move g ⟨hs, fun t => ?_⟩ ?_ rfl (Or.inl rfl) rfl rfl
    · by_cases ht : t = r.term
      · rw [ht, hlog]
        exact R.views.numbered
      · simp only [History.elect, Function.update_of_ne ht]
        exact R.ledger.numbered t
    · exact .follower R.me R.node.member R.cfg_eq R.synced ⟨R.views,
        R.voter.elect R.ledger.toSound hl, g.committed R.node.live.base⟩
        (g.committed R.node.commit) rfl
  have R₂ := R₁.ack (m := full.length) (congrArg List.length hlog).ge (by
    change List.take _ ((h.elect start.me r.term full).leaderLog r.term) <+: full
    rw [hlog]
    exact List.take_prefix _ _)
  refine ⟨_, R₂.move (Grows.refl _ _) R₂.ledger ?_ rfl (Or.inl rfl) rfl rfl⟩
  refine ⟨R.me, R.node.member, R.cfg_eq, R.synced, R₂.node.live, R₂.node.commit, fun _ => ?_,
    fun hr => (by cases hr)⟩
  refine ⟨ok.term_pos, by simp [History.ack, History.elect, Raft.core, Raft.live, Raft.seat], hlog,
    fun m hm n hn => ?_⟩
  by_cases hme : m = r.me
  · subst hme
    simp only [Raft.core, Raft.seat, Function.update_self, Option.some.injEq] at hn
    rw [← hn, R.views.lastIndex, R.me]
    exact le_acked_ack
  · simp only [Raft.core, Raft.seat, Function.update_of_ne hme] at hn
    rw [R.cfg_eq, Raft.foldl_update_of_mem _ _ hm] at hn
    rw [← Option.some.inj hn]
    exact Nat.zero_le _

theorem becomeLeader (R : Running cfg h₀ start h full r) (hr : r.role = .candidate)
    (hq : cfg.quorum ≤ r.votes.card) :
    ∃ h' full', Running cfg h₀ start h' full' r.becomeLeader := by
  obtain ⟨h₁, R₁⟩ := R.seat hr hq
  obtain ⟨h₂, full₂, R₂⟩ := R₁.appendLocal rfl []
  rw [Raft.becomeLeader_eq]
  have R₃ := R₂.frame (q := { (r.seat.appendLocal []).2 with
    heartbeatElapsed := r.cfg.heartbeatTicks }) rfl rfl rfl rfl
  exact ⟨h₂, full₂, R₃.broadcastAppend rfl 0⟩

/-- The vote requests of a candidate name the log it stands with. -/
theorem requestVotes (R : Running cfg h₀ start h full r) (hr : r.role = .candidate)
    (ms : List Id) :
    Running cfg h₀ start h full (ms.foldl (fun r' m =>
      if m ≠ r'.me then r'.send m (.requestVote r.term r.lastIndex r.lastTerm) else r') r) ∧
    (ms.foldl (fun r' m =>
      if m ≠ r'.me then r'.send m (.requestVote r.term r.lastIndex r.lastTerm) else r') r).core =
      r.core := by
  induction ms using List.reverseRecOn with
  | nil => exact ⟨R, rfl⟩
  | append_singleton ms m ih =>
    rw [List.foldl_append, List.foldl_cons, List.foldl_nil]
    split
    · refine ⟨ih.1.send ?_, ih.2⟩
      exact ⟨full, (R.node.candidate hr).stood, R.views.lastIndex, R.views.lastTerm,
        R.voter.attested, R.voter.term_le⟩
    · exact ih

theorem becomeCandidate (R : Running cfg h₀ start h full r) :
    ∃ h' full', Running cfg h₀ start h' full' r.becomeCandidate := by
  have R₁ := R.stand
  have R₂ := R₁.frame (q := Raft.resetElectionTimeout
    { Raft.persistTermVote { r with term := r.term + 1, votedFor := some r.me } with
      role := .candidate, leader := none, votes := {r.me} }) rfl rfl rfl rfl
  obtain ⟨R₃, hcore⟩ := R₂.requestVotes rfl r.cfg.members
  unfold Raft.becomeCandidate
  simp only
  split
  · rename_i hq
    refine R₃.becomeLeader ?_ ?_
    · exact congrArg Core.role hcore
    · have := R₃.cfg_eq
      rw [← this]
      exact hq
  · exact ⟨_, _, R₃⟩

end Running

end CarolinaDB.Consensus
