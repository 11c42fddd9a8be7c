import CarolinaDB.RaftCluster

/-!
# What one call does to a node's standing and to its outbox

`Turn` lists every way a call can change the term, role, commit index and read
barriers of a node; `Spoken` says what the messages it adds to the outbox carry,
and `Level` what its durable writes say of term and vote. Nothing here refers to
the history of the cluster.
-/
namespace CarolinaDB.Consensus

variable {Id : Type} [LinearOrder Id] {r r' : Raft Id}

/-- Term, role, commit index and read barriers of a node. -/
structure Face (Id : Type) where
  term : ℕ
  role : Role
  commitIndex : ℕ
  readRound : ℕ
  pendingReads : List (ℕ × ℕ × Finset Id)
  readyReads : List ReadIndex

namespace Raft

def face (r : Raft Id) : Face Id :=
  ⟨r.term, r.role, r.commitIndex, r.readRound, r.pendingReads, r.readyReads⟩

/-- A message that `r` adds to its outbox in a call `c`: entries and commit index are those of the
leader it is, and a success answers the entries just delivered. -/
def Spoken (c : Call Id) (r : Raft Id) (env : Envelope Id) : Prop :=
  env.from_ = r.me ∧ match env.msg with
    | .appendEntries t _ _ _ lc rr =>
      r.role = .leader ∧ t = r.term ∧ lc = r.commitIndex ∧ rr ≤ r.readRound
    | .appendEntriesReply t success _ rr _ => success = true → t = r.term ∧
      ∃ src to_ pi pt es lc, c = .step ⟨src, to_, .appendEntries t pi pt es lc rr⟩
    | _ => True

/-- The outbox of `r'` continues that of `r` with messages spoken by `r'`. -/
def Speaks (c : Call Id) (r r' : Raft Id) : Prop :=
  ∃ out, r'.outbox = r.outbox ++ out ∧ ∀ env ∈ out, Spoken c r' env

/-- How a call changes the face of a node. -/
inductive Turn (r r' : Raft Id) : Call Id → Prop
  | same {c : Call Id} (hf : r'.face = r.face) : Turn r r' c
  /-- A later term, or a leader of this one, turns the node into a follower. -/
  | retire {c : Call Id} {t : ℕ} (ht : r.term ≤ t)
      (hf : r'.face = { r.face with term := t, role := .follower, pendingReads := [] }) : Turn r r' c
  | stand {c : Call Id} (hr : r.role ≠ .leader)
      (hf : r'.face = { r.face with term := r.term + 1, role := .candidate }) : Turn r r' c
  | lead {c : Call Id} {t : ℕ} (hr : r.role ≠ .leader)
      (ht : (r.role = .candidate ∧ t = r.term) ∨ t = r.term + 1)
      (hf : r'.face = { r.face with term := t, role := .leader }) : Turn r r' c
  | barrier (hr : r.role = .leader) (ht : r.termAt r.commitIndex = r.term)
      (hf : r'.face = { r.face with
        readRound := r.readRound + 1
        pendingReads := r.pendingReads ++ [(r.readRound + 1, r.commitIndex, {r.me})] }) :
      Turn r r' .readBarrier
  /-- A follower took the entries it was sent; its commit index may follow the leader's. -/
  | follow {src to_ : Id} {t pi pt lc rr k : ℕ} {es : List Entry}
      {pending : List (ℕ × ℕ × Finset Id)} (ht : r.term ≤ t)
      (hp : pending = [] ∨ (r.role = .follower ∧ pending = r.pendingReads))
      (hk : k = r.commitIndex ∨ (r.commitIndex ≤ k ∧ k ≤ lc))
      (hf : r'.face = { r.face with
        term := t, role := .follower, commitIndex := k, pendingReads := pending }) :
      Turn r r' (.step ⟨src, to_, .appendEntries t pi pt es lc rr⟩)
  /-- A leader counted an acknowledgement. -/
  | ack {v to_ : Id} {m rr ap k : ℕ} (hr : r.role = .leader) (hv : v ∈ r.cfg.members)
      (hk : k = r.commitIndex ∨ (r.commitIndex < k ∧ r'.termAt k = r.term))
      (hf : r'.face = { r.face with
        commitIndex := k
        pendingReads := if 0 < rr then (r.ackReads v rr).pendingReads else r.pendingReads
        readyReads := if 0 < rr then (r.ackReads v rr).readyReads else r.readyReads }) :
      Turn r r' (.step ⟨v, to_, .appendEntriesReply r.term true m rr ap⟩)
  | taken (hf : r'.face = { r.face with readyReads := [] }) : Turn r r' .takeReadyReads

section Send

/-- Messages a leader sends: its term, its commit index, one read round. -/
def Beats (r : Raft Id) (readRound : ℕ) (out : List (Envelope Id)) : Prop :=
  ∀ env ∈ out, env.from_ = r.me ∧
    ∃ pi pt es, env.msg = .appendEntries r.term pi pt es r.commitIndex readRound

lemma sendAppend_eq (r : Raft Id) (to_ : Id) (rr : ℕ) : ∃ out n, r.Beats rr out ∧
    r.sendAppend to_ rr = { r with outbox := r.outbox ++ out, followersBehindSnapshot := n } := by
  unfold sendAppend
  extract_lets next prevLogIndex prevLogTerm entries
  split
  · exact ⟨[], _, by simp [Beats], by rw [List.append_nil]⟩
  · refine ⟨[_], r.followersBehindSnapshot, ?_, rfl⟩
    intro env he
    rw [List.mem_singleton] at he
    subst he
    exact ⟨rfl, _, _, _, rfl⟩

lemma broadcastAppend_eq (r : Raft Id) (rr : ℕ) : ∃ out n, r.Beats rr out ∧
    r.broadcastAppend rr = { r with
      outbox := r.outbox ++ out, followersBehindSnapshot := n, heartbeatElapsed := 0 } := by
  have hfold : ∀ ms : List Id, ∃ out n, r.Beats rr out ∧
      ms.foldl (fun r m => if m ≠ r.me then r.sendAppend m rr else r) r =
        { r with outbox := r.outbox ++ out, followersBehindSnapshot := n } := by
    intro ms
    induction ms using List.reverseRecOn with
    | nil => exact ⟨[], r.followersBehindSnapshot, by simp [Beats], by simp⟩
    | append_singleton ms m ih =>
      obtain ⟨out, n, hb, heq⟩ := ih
      rw [List.foldl_append, List.foldl_cons, List.foldl_nil, heq]
      split
      · obtain ⟨out', n', hb', heq'⟩ := sendAppend_eq
          { r with outbox := r.outbox ++ out, followersBehindSnapshot := n } m rr
        refine ⟨out ++ out', n', ?_, ?_⟩
        · intro env he
          rcases List.mem_append.mp he with he | he
          · exact hb env he
          · exact hb' env he
        · rw [heq']
          simp only [List.append_assoc]
      · exact ⟨out, n, hb, rfl⟩
  obtain ⟨out, n, hb, heq⟩ := hfold r.cfg.members
  refine ⟨out, n, hb, ?_⟩
  unfold broadcastAppend
  simp only [heq]

/-- What a leader sends after its face has settled is spoken by it. -/
lemma Beats.spoken {c : Call Id} {rr : ℕ} {out : List (Envelope Id)} (hb : r.Beats rr out)
    (hm : r'.me = r.me) (hr : r'.role = .leader) (ht : r'.term = r.term)
    (hc : r'.commitIndex = r.commitIndex) (hrr : rr ≤ r'.readRound) :
    ∀ env ∈ out, Spoken c r' env := by
  intro env he
  obtain ⟨hf, pi, pt, es, hmsg⟩ := hb env he
  refine ⟨hf.trans hm.symm, ?_⟩
  rw [hmsg]
  exact ⟨hr, ht.symm, hc.symm, hrr⟩

end Send

/-- Every durable state of the running call has the node's term and vote. -/
structure Level (r : Raft Id) : Prop where
  state : r.storage.state.term = r.term ∧ r.storage.state.votedFor = r.votedFor
  trail : ∀ p ∈ r.storage.trail, p.term = r.term ∧ p.votedFor = r.votedFor

lemma Level.write {p : Persistent Id} (k : r.Level) (hs : r'.storage = r.storage.write p)
    (hp : p.term = r.term ∧ p.votedFor = r.votedFor) (ht : r'.term = r.term)
    (hv : r'.votedFor = r.votedFor) : r'.Level := by
  constructor
  · rw [hs, ht, hv]
    exact hp
  · intro q hq
    rw [hs, Storage.write, List.mem_cons] at hq
    rw [ht, hv]
    rcases hq with rfl | hq
    · exact hp
    · exact k.trail q hq

/-- The first write of a call, when it is the term and the vote. -/
lemma Level.persistTermVote (ht : r.storage.trail = []) : r.persistTermVote.Level := by
  constructor
  · exact ⟨rfl, rfl⟩
  · intro p hp
    simp only [Raft.persistTermVote, Storage.saveTermVote, Storage.write, ht,
      List.mem_singleton] at hp
    subst hp
    exact ⟨rfl, rfl⟩

/-- What a call leaves: who the node is, how its face changed and what it said. If it ends in
leadership, it only wrote the leader's own term and vote. -/
structure Outcome (c : Call Id) (r r' : Raft Id) : Prop where
  me : r'.me = r.me
  turn : Turn r r' c
  speaks : Speaks c r r'
  level : r.Level → r.storage.trail = [] → r'.role = .leader → r'.Level

lemma Speaks.silent {c : Call Id} (h : r'.outbox = r.outbox) : Speaks c r r' :=
  ⟨[], by rw [h, List.append_nil], by simp⟩

/-- Votes, vote requests and refusals carry nothing that a barrier or a commit index rests on. -/
lemma Speaks.send {c : Call Id} {q : Raft Id} {to_ : Id} {msg : Message} (ho : q.outbox = r.outbox)
    (hs : Spoken c q ⟨q.me, to_, msg⟩) : Speaks c r (q.send to_ msg) := by
  refine ⟨[⟨q.me, to_, msg⟩], by rw [← ho]; rfl, ?_⟩
  intro env he
  rw [List.mem_singleton] at he
  subst he
  exact hs

section Parts

lemma becomeFollower_face (r : Raft Id) (t : ℕ) (l : Option Id) :
    (r.becomeFollower t l).face =
      { r.face with term := max r.term t, role := .follower, pendingReads := [] } := by
  unfold becomeFollower
  split
  · rename_i h
    have : max r.term t = t := max_eq_right h.le
    simp [face, resetElectionTimeout, persistTermVote, this]
  · rename_i h
    have : max r.term t = r.term := max_eq_left (not_lt.mp h)
    simp [face, resetElectionTimeout, this]

lemma becomeFollower_role_ne (r : Raft Id) (t : ℕ) (l : Option Id) :
    (r.becomeFollower t l).role ≠ .leader := by
  have hrole : (r.becomeFollower t l).role = .follower :=
    congrArg Face.role (becomeFollower_face r t l)
  rw [hrole]
  simp

lemma becomeFollower_outbox (r : Raft Id) (t : ℕ) (l : Option Id) :
    (r.becomeFollower t l).outbox = r.outbox := by
  unfold becomeFollower
  split <;> rfl

lemma becomeFollower_me (r : Raft Id) (t : ℕ) (l : Option Id) :
    (r.becomeFollower t l).me = r.me := by
  unfold becomeFollower
  split <;> rfl

/-- The scan of received entries changes the log and its storage only. -/
lemma appendNew_eq {es : List Entry} (h : r.appendNew es = .ok r') :
    ∃ storage log, r' = { r with storage, log } := by
  induction es with
  | nil =>
    cases h
    exact ⟨r.storage, r.log, rfl⟩
  | cons e es ih =>
    unfold appendNew at h
    split at h
    · exact ih h
    · split at h
      · split at h
        · exact ih h
        · split at h
          · cases h
          · cases h
            exact ⟨_, _, rfl⟩
      · cases h
        exact ⟨_, _, rfl⟩

lemma advanceCommit_eq (r : Raft Id) : ∃ k, r.advanceCommit = { r with commitIndex := k } ∧
    (k = r.commitIndex ∨ (r.commitIndex < k ∧ r.termAt k = r.term)) := by
  unfold advanceCommit
  extract_lets indices q
  split
  · rename_i h
    exact ⟨q, rfl, Or.inr h⟩
  · exact ⟨r.commitIndex, rfl, Or.inl rfl⟩

/-- Taking leadership announces itself with the commit index it has. -/
lemma becomeLeader_face (r : Raft Id) : r.becomeLeader.face = { r.face with role := .leader } ∧
    ∃ out, r.becomeLeader.outbox = r.outbox ++ out ∧ r.Beats 0 out := by
  unfold becomeLeader
  extract_lets r₁ next r₂ r₃ r₄
  obtain ⟨out, n, hb, heq⟩ := broadcastAppend_eq { r₄ with heartbeatElapsed := r₄.cfg.heartbeatTicks } 0
  rw [heq]
  exact ⟨rfl, out, rfl, hb⟩

/-- The vote requests of a candidate. -/
lemma requestVotes_eq (r : Raft Id) (t li lt : ℕ) (ms : List Id) : ∃ out,
    (∀ env ∈ out, env.from_ = r.me ∧ env.msg = .requestVote t li lt) ∧
    ms.foldl (fun r m => if m ≠ r.me then r.send m (.requestVote t li lt) else r) r =
      { r with outbox := r.outbox ++ out } := by
  induction ms using List.reverseRecOn with
  | nil => exact ⟨[], by simp, by simp⟩
  | append_singleton ms m ih =>
    obtain ⟨out, hout, heq⟩ := ih
    rw [List.foldl_append, List.foldl_cons, List.foldl_nil, heq]
    split
    · refine ⟨out ++ [⟨r.me, m, .requestVote t li lt⟩], ?_, ?_⟩
      · intro env he
        rcases List.mem_append.mp he with he | he
        · exact hout env he
        · rw [List.mem_singleton] at he
          subst he
          exact ⟨rfl, rfl⟩
      · simp only [send, List.append_assoc]
    · exact ⟨out, hout, rfl⟩

lemma becomeLeader_me (r : Raft Id) : r.becomeLeader.me = r.me := by
  unfold becomeLeader
  extract_lets r₁ next r₂ r₃ r₄
  obtain ⟨out, n, hb, heq⟩ := broadcastAppend_eq { r₄ with heartbeatElapsed := r₄.cfg.heartbeatTicks } 0
  rw [heq]
  rfl

lemma Level.becomeLeader (k : r.Level) : r.becomeLeader.Level := by
  unfold Raft.becomeLeader
  extract_lets r₁ next r₂ r₃ r₄
  have k₄ : r₄.Level := k.write rfl k.state rfl rfl
  obtain ⟨out, n, -, heq⟩ := broadcastAppend_eq { r₄ with heartbeatElapsed := r₄.cfg.heartbeatTicks } 0
  rw [heq]
  exact ⟨k₄.state, k₄.trail⟩

lemma face_ext {q : Raft Id} {f : Face Id} (h : q.face = f) : q.term = f.term ∧ q.role = f.role ∧
    q.commitIndex = f.commitIndex ∧ q.readRound = f.readRound := by
  subst h
  exact ⟨rfl, rfl, rfl, rfl⟩

/-- An election, with the announcements of the winner when one vote is enough. -/
theorem becomeCandidate_outcome (c : Call Id) (hr : r.role ≠ .leader) :
    Outcome c r r.becomeCandidate := by
  unfold becomeCandidate
  extract_lets r₁ r₂ msg r₃
  obtain ⟨out, hout, heq⟩ := requestVotes_eq r₂ r₂.term r₂.lastIndex r₂.lastTerm r₂.cfg.members
  have hr₃ : r₃ = { r₂ with outbox := r₂.outbox ++ out } := heq
  have hface : r₃.face = { r.face with term := r.term + 1, role := .candidate } := by
    rw [hr₃]
    rfl
  have hasked : ∀ q : Raft Id, q.me = r.me → ∀ env ∈ out, Spoken c q env := by
    intro q hq env he
    obtain ⟨hf, hmsg⟩ := hout env he
    refine ⟨hf.trans hq.symm, ?_⟩
    rw [hmsg]
    trivial
  have hbox : r₃.outbox = r.outbox ++ out := by
    rw [hr₃]
    rfl
  have hme : r₃.me = r.me := by
    rw [hr₃]
    rfl
  have hlevel : r.storage.trail = [] → r₃.Level := by
    intro ht
    have k₁ : r₁.Level := Level.persistTermVote ht
    rw [hr₃]
    exact ⟨k₁.state, k₁.trail⟩
  split
  · obtain ⟨hlead, out', hbox', hbeats⟩ := becomeLeader_face r₃
    have hme' := (becomeLeader_me r₃).trans hme
    rw [hface] at hlead
    refine ⟨hme', .lead hr (Or.inr rfl) hlead, ⟨out ++ out', ?_, ?_⟩,
      fun _ ht _ => Level.becomeLeader (hlevel ht)⟩
    · rw [hbox', hbox, List.append_assoc]
    · obtain ⟨ht, hrole, hc, hrr⟩ := face_ext hlead
      obtain ⟨ht₃, -, hc₃, -⟩ := face_ext hface
      intro env he
      rcases List.mem_append.mp he with he | he
      · exact hasked _ hme' env he
      · exact hbeats.spoken (hme'.trans hme.symm) hrole (ht.trans ht₃.symm) (hc.trans hc₃.symm)
          (Nat.zero_le _) env he
  · exact ⟨hme, .stand hr hface, ⟨out, hbox, hasked _ hme⟩, fun _ ht _ => hlevel ht⟩

theorem tick_outcome (r : Raft Id) : Outcome .tick r r.tick := by
  have hcand : r.role ≠ .leader → Outcome .tick r
      (if r.electionTimeout ≤ r.electionElapsed + 1 then
        becomeCandidate { r with electionElapsed := r.electionElapsed + 1 }
      else { r with electionElapsed := r.electionElapsed + 1 }) := by
    intro hr
    split
    · have o := becomeCandidate_outcome .tick
        (r := { r with electionElapsed := r.electionElapsed + 1 }) hr
      refine ⟨o.me, ?_, o.speaks, fun k => o.level ⟨k.state, k.trail⟩⟩
      cases o.turn with
      | same hf => exact .same hf
      | retire ht hf => exact .retire ht hf
      | stand hr hf => exact .stand hr hf
      | lead hr ht hf => exact .lead hr ht hf
    · exact ⟨rfl, .same rfl, .silent rfl, fun k _ _ => ⟨k.state, k.trail⟩⟩
  unfold tick
  split
  · rename_i hr
    extract_lets q
    split
    · obtain ⟨out, n, hb, heq⟩ := broadcastAppend_eq q 0
      rw [heq]
      exact ⟨rfl, .same rfl,
        ⟨out, rfl, hb.spoken rfl hr rfl rfl (Nat.zero_le _)⟩, fun k _ _ => ⟨k.state, k.trail⟩⟩
    · exact ⟨rfl, .same rfl, .silent rfl, fun k _ _ => ⟨k.state, k.trail⟩⟩
  · rename_i hr
    exact hcand (by simp [hr])
  · rename_i hr
    exact hcand (by simp [hr])

theorem propose_outcome {data : List UInt8} {n : ℕ} (h : r.propose data = .ok (n, r')) :
    Outcome (.propose data) r r' := by
  unfold propose at h
  split at h
  · cases h
  rename_i hr
  simp only [ne_eq, not_not] at hr
  split at h
  · cases h
  obtain ⟨out, k, hb, heq⟩ := broadcastAppend_eq (r.appendLocal data).2 0
  simp only [Except.ok.injEq, Prod.mk.injEq] at h
  rw [heq] at h
  obtain ⟨-, rfl⟩ := h
  exact ⟨rfl, .same rfl, ⟨out, rfl, hb.spoken rfl hr rfl rfl (Nat.zero_le _)⟩,
    fun k _ _ => k.write rfl k.state rfl rfl⟩

theorem readBarrier_outcome {n : ℕ} (h : r.readBarrier = .ok (n, r')) :
    Outcome .readBarrier r r' ∧ r.role = .leader ∧ r.termAt r.commitIndex = r.term ∧
      n = r.readRound + 1 ∧ r'.face = { r.face with
        readRound := r.readRound + 1
        pendingReads := r.pendingReads ++ [(r.readRound + 1, r.commitIndex, {r.me})] } := by
  unfold readBarrier at h
  split at h
  · cases h
  rename_i hr
  simp only [ne_eq, not_not] at hr
  split at h
  · cases h
  rename_i ht
  simp only [ne_eq, not_not] at ht
  extract_lets round q at h
  obtain ⟨out, k, hb, heq⟩ := broadcastAppend_eq q round
  simp only [Except.ok.injEq, Prod.mk.injEq] at h
  rw [heq] at h
  obtain ⟨rfl, rfl⟩ := h
  exact ⟨⟨rfl, .barrier hr ht rfl, ⟨out, rfl, hb.spoken rfl hr rfl rfl le_rfl⟩,
    fun k _ _ => ⟨k.state, k.trail⟩⟩, hr, ht, rfl, rfl⟩

theorem stepRequestVote_outcome (c : Call Id) (from_ : Id) (t li lt : ℕ) :
    Outcome c r (r.stepRequestVote from_ t li lt) := by
  unfold stepRequestVote
  extract_lets q upToDate grant q'
  obtain ⟨hme, hbox, hturn, hrole⟩ : q.me = r.me ∧ q.outbox = r.outbox ∧
      (∀ s : Raft Id, s.face = q.face → Turn r s c) ∧ (q.role = .leader → q = r) := by
    unfold q
    split
    · refine ⟨becomeFollower_me r t none, becomeFollower_outbox r t none, fun s hs => ?_,
        fun hr => absurd hr (becomeFollower_role_ne r t none)⟩
      exact .retire (le_max_left _ _) (hs.trans (becomeFollower_face r t none))
    · exact ⟨rfl, rfl, fun s hs => .same hs, fun _ => rfl⟩
  obtain ⟨hme', hbox', hface, hlevel⟩ : q'.me = q.me ∧ q'.outbox = q.outbox ∧ q'.face = q.face ∧
      (q.Level → q.storage.trail = [] → q'.Level) := by
    unfold q'
    split
    · refine ⟨rfl, rfl, rfl, fun _ ht => ?_⟩
      have kp : (persistTermVote { q with votedFor := some from_ }).Level := Level.persistTermVote ht
      exact ⟨kp.state, kp.trail⟩
    · exact ⟨rfl, rfl, rfl, fun k _ => k⟩
  refine ⟨hme'.trans hme, hturn _ hface, .send (hbox'.trans hbox) ⟨rfl, trivial⟩, fun k ht hr => ?_⟩
  have hq : q = r := hrole ((congrArg Face.role hface).symm.trans hr)
  rw [hq] at hlevel
  exact ⟨(hlevel k ht).state, (hlevel k ht).trail⟩

theorem stepRequestVoteReply_outcome (c : Call Id) (from_ : Id) (t : ℕ) (granted : Bool) :
    Outcome c r (r.stepRequestVoteReply from_ t granted) := by
  unfold stepRequestVoteReply
  split
  · exact ⟨becomeFollower_me r t none, .retire (le_max_left _ _) (becomeFollower_face r t none),
      .silent (becomeFollower_outbox r t none),
      fun _ _ hr => absurd hr (becomeFollower_role_ne r t none)⟩
  split
  · rename_i hcond
    extract_lets q
    split
    · obtain ⟨hlead, out, hbox, hbeats⟩ := becomeLeader_face q
      obtain ⟨ht, hrole, hc, -⟩ := face_ext hlead
      have hme : q.becomeLeader.me = r.me := becomeLeader_me q
      refine ⟨hme, .lead (by simp [hcond.1]) (Or.inl ⟨hcond.1, rfl⟩) hlead, ⟨out, hbox, ?_⟩,
        fun k _ _ => Level.becomeLeader ⟨k.state, k.trail⟩⟩
      exact hbeats.spoken hme hrole ht hc (Nat.zero_le _)
    · exact ⟨rfl, .same rfl, .silent rfl, fun k _ _ => ⟨k.state, k.trail⟩⟩
  · exact ⟨rfl, .same rfl, .silent rfl, fun k _ _ => ⟨k.state, k.trail⟩⟩

theorem stepAppendEntries_outcome {src to_ : Id} {t pi pt lc rr : ℕ} {es : List Entry}
    (h : r.stepAppendEntries src t pi pt es lc rr = .ok r') :
    Outcome (.step ⟨src, to_, .appendEntries t pi pt es lc rr⟩) r r' := by
  unfold stepAppendEntries at h
  split at h
  · cases h
    exact ⟨rfl, .same rfl, .send rfl ⟨rfl, by simp⟩, fun k _ _ => ⟨k.state, k.trail⟩⟩
  rename_i hlt
  extract_lets q hint lastNew at h
  obtain ⟨pending, hpend, hface, hme, hbox⟩ : ∃ pending,
      (pending = [] ∨ (r.role = .follower ∧ pending = r.pendingReads)) ∧
      q.face = { r.face with term := t, role := .follower, pendingReads := pending } ∧
      q.me = r.me ∧ q.outbox = r.outbox := by
    unfold q
    split
    · refine ⟨[], Or.inl rfl, ?_, becomeFollower_me _ _ _, becomeFollower_outbox _ _ _⟩
      rw [becomeFollower_face, max_eq_right (not_lt.mp hlt)]
    · rename_i hcond
      simp only [not_or, not_lt, ne_eq, not_not] at hcond
      obtain rfl : r.term = t := le_antisymm (not_lt.mp hlt) hcond.1
      refine ⟨r.pendingReads, Or.inr ⟨hcond.2, rfl⟩, ?_, rfl, rfl⟩
      simp [face, resetElectionTimeout, hcond.2]
  clear_value q
  have hfollower : ¬ q.role = .leader := by
    rw [(face_ext hface).2.1]
    simp
  split at h
  · cases h
    exact ⟨hme, .follow (not_lt.mp hlt) hpend (Or.inl rfl) hface, .send hbox ⟨rfl, by simp⟩,
      fun _ _ hr => absurd hr hfollower⟩
  · simp only [bind, Except.bind] at h
    split at h
    · cases h
    rename_i q₁ hq₁
    obtain ⟨storage, log, rfl⟩ := appendNew_eq hq₁
    obtain ⟨hterm, -, hcommit, -⟩ := face_ext hface
    obtain rfl : q.term = t := hterm
    simp only [Except.ok.injEq] at h
    subst h
    split
    · rename_i hlc
      refine ⟨hme, .follow (k := max (min lc lastNew) q.commitIndex) (not_lt.mp hlt) hpend ?_ ?_,
        .send hbox ⟨rfl, fun _ => ⟨rfl, src, to_, pi, pt, es, lc, rfl⟩⟩,
        fun _ _ hr => absurd hr hfollower⟩
      · have hq : q.commitIndex = r.commitIndex := hcommit
        omega
      · exact congrArg (fun f : Face Id =>
          { f with commitIndex := max (min lc lastNew) q.commitIndex }) hface
    · exact ⟨hme, .follow (not_lt.mp hlt) hpend (Or.inl rfl) hface,
        .send hbox ⟨rfl, fun _ => ⟨rfl, src, to_, pi, pt, es, lc, rfl⟩⟩,
        fun _ _ hr => absurd hr hfollower⟩

/-- A leader that counts a reply settles its commit index and barriers before it sends more. -/
theorem stepAppendEntriesReply_outcome {v to_ : Id} {t m rr ap : ℕ} {success : Bool}
    (hv : v ∈ r.cfg.members) :
    Outcome (.step ⟨v, to_, .appendEntriesReply t success m rr ap⟩) r
      (r.stepAppendEntriesReply v t success m rr ap) := by
  unfold stepAppendEntriesReply
  extract_lets q cur q₁ q₂ q₃ q₄ next
  split
  · exact ⟨becomeFollower_me q t none, .retire (le_max_left _ _) (becomeFollower_face q t none),
      .silent (becomeFollower_outbox q t none),
      fun _ _ hr => absurd hr (becomeFollower_role_ne q t none)⟩
  split
  · exact ⟨rfl, .same rfl, .silent rfl, fun k _ _ => ⟨k.state, k.trail⟩⟩
  rename_i hcond
  simp only [ne_eq, not_or, not_not] at hcond
  obtain ⟨hr, ht⟩ := hcond
  split
  · rename_i hs
    subst hs
    obtain ⟨mi, hq₁⟩ : ∃ mi, q₁ = { q with matchIndex := mi } := by
      unfold q₁
      split
      · exact ⟨_, rfl⟩
      · exact ⟨q.matchIndex, rfl⟩
    have hq₂ : q₂ = { q with
        matchIndex := mi, nextIndex := Function.update q.nextIndex v (some (m + 1)) } := by
      unfold q₂
      rw [hq₁]
    obtain ⟨k, hq₃, hk⟩ := advanceCommit_eq q₂
    have hq₄ : q₄ = { q₂ with
        commitIndex := k
        pendingReads := if 0 < rr then (r.ackReads v rr).pendingReads else r.pendingReads
        readyReads := if 0 < rr then (r.ackReads v rr).readyReads else r.readyReads } := by
      unfold q₄ q₃
      rw [hq₃, hq₂]
      split <;> rfl
    have hface : q₄.face = { r.face with
        commitIndex := k
        pendingReads := if 0 < rr then (r.ackReads v rr).pendingReads else r.pendingReads
        readyReads := if 0 < rr then (r.ackReads v rr).readyReads else r.readyReads } := by
      rw [hq₄, hq₂]
      rfl
    have htk : k = r.commitIndex ∨ (r.commitIndex < k ∧ q₄.termAt k = r.term) := by
      rw [hq₂] at hk
      rw [hq₄, hq₂]
      exact hk
    have hme : q₄.me = r.me := by rw [hq₄, hq₂]
    have hbox : q₄.outbox = r.outbox := by rw [hq₄, hq₂]
    have hlevel (k : r.Level) : q₄.Level := by
      rw [hq₄, hq₂]
      exact ⟨k.state, k.trail⟩
    obtain ⟨-, hrole, -, -⟩ := face_ext hface
    rw [ht]
    split
    · obtain ⟨out, n, hb, heq⟩ := sendAppend_eq q₄ v 0
      rw [heq]
      exact ⟨hme, .ack hr hv htk hface, ⟨out, congrArg (· ++ out) hbox,
        hb.spoken rfl (hrole.trans hr) rfl rfl (Nat.zero_le _)⟩,
        fun k _ _ => ⟨(hlevel k).state, (hlevel k).trail⟩⟩
    · exact ⟨hme, .ack hr hv htk hface, .silent hbox, fun k _ _ => hlevel k⟩
  · obtain ⟨out, n, hb, heq⟩ := sendAppend_eq
      { q with nextIndex := Function.update q.nextIndex v (some next) } v 0
    rw [heq]
    exact ⟨rfl, .same rfl,
        ⟨out, rfl, hb.spoken rfl hr rfl rfl (Nat.zero_le _)⟩, fun k _ _ => ⟨k.state, k.trail⟩⟩

theorem step_outcome {env : Envelope Id} (h : r.step env = .ok r') : Outcome (.step env) r r' := by
  obtain ⟨f, to_, msg⟩ := env
  unfold step at h
  split at h
  · cases h
    exact ⟨rfl, .same rfl, .silent rfl, fun k _ _ => ⟨k.state, k.trail⟩⟩
  rename_i hcond
  simp only [ne_eq, not_or, not_not] at hcond
  cases msg with
  | requestVote t li lt =>
    cases h
    exact stepRequestVote_outcome _ f t li lt
  | requestVoteReply t granted =>
    cases h
    exact stepRequestVoteReply_outcome _ f t granted
  | appendEntries t pi pt es lc rr => exact stepAppendEntries_outcome h
  | appendEntriesReply t s m rr ap =>
    cases h
    exact stepAppendEntriesReply_outcome hcond.2

lemma takeCommittedLoop_frame (n : ℕ) (r : Raft Id) :
    ∃ d, (takeCommittedLoop n r).2 = { r with lastDelivered := d } := by
  induction n generalizing r with
  | zero => exact ⟨r.lastDelivered, rfl⟩
  | succ n ih =>
    unfold takeCommittedLoop
    split
    · obtain ⟨d, hd⟩ := ih { r with lastDelivered := r.lastDelivered + 1 }
      exact ⟨d, hd⟩
    · exact ⟨r.lastDelivered, rfl⟩

lemma compact_face (r : Raft Id) (n : ℕ) : (r.compact n).2.face = r.face ∧
    (r.compact n).2.outbox = r.outbox ∧ (r.compact n).2.me = r.me ∧
      (r.Level → (r.compact n).2.Level) := by
  unfold compact
  extract_lets target term keep
  split
  · exact ⟨rfl, rfl, rfl, id⟩
  · split
    · exact ⟨rfl, rfl, rfl, id⟩
    · exact ⟨rfl, rfl, rfl, fun k => k.write rfl k.state rfl rfl⟩

/-- Everything a call can do to the face, the outbox and the durable vote of a node. -/
theorem run_outcome {c : Call Id} {evs : List LifeEvent} (h : r.run c = .ok (r', evs)) :
    Outcome c r r' := by
  cases c with
  | tick =>
    cases h
    exact tick_outcome r
  | propose data =>
    obtain ⟨⟨n, q⟩, hq, ⟨⟩⟩ := CoreResult.map_eq_ok h
    exact propose_outcome hq
  | readBarrier =>
    obtain ⟨⟨n, q⟩, hq, ⟨⟩⟩ := CoreResult.map_eq_ok h
    exact (readBarrier_outcome hq).1
  | step env =>
    obtain ⟨q, hq, ⟨⟩⟩ := CoreResult.map_eq_ok h
    exact step_outcome hq
  | setApplied n =>
    cases h
    exact ⟨rfl, .same rfl, .silent rfl, fun k _ _ => ⟨k.state, k.trail⟩⟩
  | compact n =>
    cases h
    obtain ⟨hf, hb, hm, hlevel⟩ := compact_face r n
    exact ⟨hm, .same hf, .silent hb, fun k _ _ => hlevel k⟩
  | takeCommitted =>
    cases h
    obtain ⟨d, hd⟩ := takeCommittedLoop_frame (r.commitIndex - r.lastDelivered) r
    rw [takeCommitted, hd]
    exact ⟨rfl, .same rfl, .silent rfl, fun k _ _ => ⟨k.state, k.trail⟩⟩
  | takeReadyReads =>
    cases h
    exact ⟨rfl, .taken rfl, .silent rfl, fun k _ _ => ⟨k.state, k.trail⟩⟩

end Parts

end Raft

end CarolinaDB.Consensus
