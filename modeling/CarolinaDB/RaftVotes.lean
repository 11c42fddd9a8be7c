import CarolinaDB.RaftReads

/-!
# Election safety across restarts

A term has at most one leader over a whole run, and a voter has at most one
candidate per term, whatever messages are lost or repeated and wherever the
processes die. The durable writes of a call that ends in leadership all carry
the vote the leader cast, so a kill inside the call cannot free that vote.
-/
namespace CarolinaDB.Consensus

open ElectionHistory

variable {Id : Type} [LinearOrder Id] {cfg : Config Id} {h h' : Rows Id} {w w' : World Id}
  {r r' : Raft Id}

/-- A quorum cast its votes of term `t` for `i`. -/
def Won (cfg : Config Id) (h : Rows Id) (i : Id) (t : ℕ) : Prop :=
  ∃ Q, Quorum cfg.voters Q ∧ ∀ v ∈ Q, h.voted v t = some i

/-- Votes are only added. -/
def VotesKept (h h' : Rows Id) : Prop := ∀ v t c, h.voted v t = some c → h'.voted v t = some c

omit [LinearOrder Id] in
lemma VotesKept.trans {h'' : Rows Id} (k : VotesKept h h') (k' : VotesKept h' h'') :
    VotesKept h h'' :=
  fun v t c hv => k' v t c (k v t c hv)

lemma Won.kept {i : Id} {t : ℕ} (hw : Won cfg h i t) (k : VotesKept h h') : Won cfg h' i t := by
  obtain ⟨Q, hQ, hv⟩ := hw
  exact ⟨Q, hQ, fun v hm => k v t i (hv v hm)⟩

lemma Won.unique {i j : Id} {t : ℕ} (hi : Won cfg h i t) (hj : Won cfg h j t) : i = j := by
  obtain ⟨P, hP, hvotes⟩ := hi
  obtain ⟨Q, hQ, hvotes'⟩ := hj
  obtain ⟨v, hvP, hvQ⟩ := hP.inter hQ
  have hv := hvotes v hvP
  rw [hvotes' v hvQ] at hv
  exact (Option.some.inj hv).symm

/-- The call of action `a` leaves voter `i` leader of term `t`, whether or not the process
outlives the call. -/
def World.Leads (w : World Id) (a : Action Id) (i : Id) (t : ℕ) : Prop :=
  ∃ c r r' evs, (a = .call i c ∨ ∃ n, a = .kill i c n) ∧ w.peer i = .up r ∧
    r.enter.run c = .ok (r', evs) ∧ r'.role = .leader ∧ r'.term = t

/-- Voter `v` gave its vote of term `t` to `c`: it has it in memory or on disk, or has said so. -/
inductive World.Votes (w : World Id) (v : Id) (t : ℕ) (c : Id) : Prop
  | memory {r : Raft Id} (hr : w.peer v = .up r) (ht : r.term = t) (hv : r.votedFor = some c)
  | disk {p : Persistent Id} (hp : w.peer v = .down p) (ht : p.term = t) (hv : p.votedFor = some c)
  | reply (henv : w.Wire ⟨v, c, .requestVoteReply t true⟩)

namespace WorldOk

lemma votes (ok : WorldOk cfg h w) {v : Id} {t : ℕ} {c : Id} (hv : w.Votes v t c) :
    h.voted v t = some c := by
  cases hv with
  | memory hr ht hv =>
    obtain ⟨full, hn⟩ := ok.nodeOk hr
    have hvote := hn.live.voter.vote_eq
    rw [← ht, ← hv]
    exact hvote
  | disk hp ht hv =>
    have hd : PeerOk cfg h v (w.life v) (.down _) := hp ▸ ok.peer v
    obtain ⟨full, hd⟩ := hd
    rw [← ht, ← hv]
    exact hd.voter.vote_eq
  | reply henv =>
    rcases henv with he | ⟨i, r, hr, he⟩
    · exact ok.sent _ he rfl
    · have u : PeerOk cfg h i (w.life i) (.up r) := hr ▸ ok.peer i
      exact u.outbox _ he rfl

lemma runAll (ok : WorldOk cfg h w) {as : List (Action Id)} (hrun : w.runAll cfg as = some w') :
    ∃ h', WorldOk cfg h' w' ∧ VotesKept h h' := by
  induction as generalizing w h with
  | nil =>
    cases hrun
    exact ⟨h, ok, fun _ _ _ hv => hv⟩
  | cons a as ih =>
    rw [World.runAll, List.foldlM_cons] at hrun
    obtain ⟨w₁, h₁, h₂⟩ := Option.bind_eq_some_iff.mp hrun
    obtain ⟨i, h', g, ok'⟩ := ok.act_grows h₁
    obtain ⟨h'', ok'', k⟩ := ih ok' h₂
    exact ⟨h'', ok'', VotesKept.trans g.voted k⟩

/-- Leadership rests on a quorum of votes that survives the action. A leader killed inside its call
has cast its own vote durably; every other vote was cast before. -/
theorem act_won (ok : WorldOk cfg h w) {a : Action Id} (ha : w.act cfg a = some w') {i : Id} {t : ℕ}
    (hl : w.Leads a i t) : ∃ h', WorldOk cfg h' w' ∧ VotesKept h h' ∧ Won cfg h' i t := by
  obtain ⟨c, r, r', evs, hact, hr, hrun, hlead, rfl⟩ := hl
  have hwon : ∀ {h'}, CallOk cfg h i (w.life i) r' evs h' → Won cfg h' i r'.term := by
    intro h' k
    obtain ⟨full, hn⟩ := k.up.node
    obtain ⟨Q, hQ, hv⟩ := k.ledger.elected _ _ (hn.leader hlead).led
    exact ⟨Q, hQ, fun v hm => (hv v hm).1⟩
  rcases hact with rfl | ⟨n, rfl⟩
  · simp only [World.act, hr, hrun] at ha
    split_ifs at ha with hc
    cases ha
    obtain ⟨h', k⟩ := ok.call hr hc hrun
    exact ⟨h', ok.record k, k.grows.voted, hwon k⟩
  · simp only [World.act, hr, hrun] at ha
    split_ifs at ha with hc
    obtain ⟨p, hp, rfl⟩ := Option.map_eq_some_iff.mp ha
    have hmem := List.mem_of_getElem? hp
    obtain ⟨h', k⟩ := ok.call hr hc hrun
    obtain ⟨h'', full, g, hl, hd⟩ := k.trail p hmem
    refine ⟨h'', ok.setPeer g hl ⟨full, hd⟩, g.voted, ?_⟩
    obtain ⟨Q, hQ, hv⟩ := hwon k
    refine ⟨Q, hQ, fun v hm => ?_⟩
    by_cases hvi : v = i
    · subst hvi
      obtain ⟨full₀, hn₀⟩ := ok.nodeOk hr
      have hsync : r.storage.state = r.live := hn₀.synced
      have hlevel : r'.Level := by
        refine (Raft.run_outcome hrun).level ⟨?_, by simp [Raft.enter]⟩ rfl hlead
        change r.storage.state.term = r.term ∧ r.storage.state.votedFor = r.votedFor
        rw [hsync]
        exact ⟨rfl, rfl⟩
      obtain ⟨hterm, hvote⟩ := hlevel.trail p hmem
      obtain ⟨full', hn⟩ := k.up.node
      calc h''.voted v r'.term = p.votedFor := hterm ▸ hd.voter.vote_eq
        _ = r'.votedFor := hvote
        _ = h'.voted v r'.term := hn.live.voter.vote_eq.symm
        _ = some v := hv v hm
    · apply g.voted
      rw [← k.grows.voted_other v _ hvi]
      exact hv v hm

end WorldOk

/-- Over a whole run, with restarts, no two voters lead one term, and no voter gives its vote of one
term to two candidates. -/
theorem election_safety (cfg : Config Id) :
    (∀ w₀ w₁ w₂ w₃ a as b i j t, Reachable cfg w₀ → w₀.act cfg a = some w₁ →
      w₁.runAll cfg as = some w₂ → w₂.act cfg b = some w₃ → w₀.Leads a i t → w₂.Leads b j t →
      i = j) ∧
    ∀ w w' as v t c d, Reachable cfg w → w.runAll cfg as = some w' → w.Votes v t c →
      w'.Votes v t d → c = d := by
  constructor
  · intro w₀ w₁ w₂ w₃ a as b i j t hw ha hrun hb hi hj
    obtain ⟨h₀, ok₀⟩ := hw.worldOk
    obtain ⟨h₁, ok₁, -, hwon⟩ := ok₀.act_won ha hi
    obtain ⟨h₂, ok₂, hkept⟩ := ok₁.runAll hrun
    obtain ⟨h₃, -, hkept', hwon'⟩ := ok₂.act_won hb hj
    exact (hwon.kept (hkept.trans hkept')).unique hwon'
  · intro w w' as v t c d hw hrun hc hd
    obtain ⟨h, ok⟩ := hw.worldOk
    obtain ⟨h', ok', hkept⟩ := ok.runAll hrun
    have hv := hkept v t c (ok.votes hc)
    rw [ok'.votes hd] at hv
    exact (Option.some.inj hv).symm

/-- The other voter replies, dies and restarts while the first takes office. -/
theorem election_safety_restart : ∃ (cfg : Config ℕ) (w₀ w₁ w₂ : World ℕ),
    w₀.act cfg (.call 0 (.step ⟨1, 0, .requestVoteReply 1 true⟩)) = some w₁ ∧
      w₁.runAll cfg [.crash 1, .restart 1 fun _ => 0] = some w₂ ∧
      w₀.Leads (.call 0 (.step ⟨1, 0, .requestVoteReply 1 true⟩)) 0 1 ∧ w₁.Votes 1 1 0 ∧
      (∀ b w₃ j, w₂.act cfg b = some w₃ → w₂.Leads b j 1 → 0 = j) ∧
      ∀ d, w₂.Votes 1 1 d → 0 = d := by
  let cfg : Config ℕ := ⟨[0, 1], 1, 2, 1, by decide⟩
  let env : Envelope ℕ := ⟨1, 0, .requestVoteReply 1 true⟩
  have hrun : (do
      let w₀ ← World.init.runAll cfg (leaderRun.take 6)
      let w₁ ← w₀.act cfg (.call 0 (.step env))
      let w₂ ← w₁.runAll cfg [.crash 1, .restart 1 fun _ => 0]
      let r ← w₀.node? 0
      let x ← (r.enter.run (.step env)).toOption
      pure (x.1.role, x.1.term, decide (env ∈ w₁.sent))) = some (.leader, 1, true) := by decide
  simp only [Option.bind_eq_bind, Option.bind_eq_some_iff, Option.pure_def, Option.some.injEq,
    Prod.mk.injEq, decide_eq_true_eq] at hrun
  obtain ⟨w₀, h₀, w₁, h₁, w₂, h₂, r, hr, ⟨r', evs⟩, hx, hrole, hterm, henv⟩ := hrun
  have hreach := Reachable.init.runAll _ h₀
  have hlead : w₀.Leads (.call 0 (.step env)) 0 1 := by
    refine ⟨.step env, r, r', evs, Or.inl rfl, World.node?_eq_some hr, ?_, hrole, hterm⟩
    cases hy : r.enter.run (.step env) with
    | error e =>
      rw [hy] at hx
      cases hx
    | ok y =>
      rw [hy] at hx
      cases hx
      rfl
  have hvote : w₁.Votes 1 1 0 := .reply (Or.inl henv)
  refine ⟨cfg, w₀, w₁, w₂, h₁, h₂, hlead, hvote, ?_, ?_⟩
  · intro b w₃ j hb hj
    exact (election_safety cfg).1 _ _ _ _ _ _ _ _ _ _ hreach h₁ h₂ hb hlead hj
  · intro d hd
    exact (election_safety cfg).2 _ _ _ _ _ _ _ (hreach.act _ h₁) h₂ hvote hd

end CarolinaDB.Consensus
