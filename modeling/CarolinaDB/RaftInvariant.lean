import CarolinaDB.RaftLogView

/-!
# What a voter and its messages owe to the history

The invariant of the cluster is stated against an election history: the durable
state of a voter, a running node and every message on the wire each match rows
of it. `Running` is the invariant of one node in the middle of a call, together
with the durable states the call has passed through.
-/
namespace CarolinaDB.Consensus

open ElectionHistory

variable {Id : Type} [LinearOrder Id]

abbrev Rows (Id : Type) := History Id Entry

def Config.voters (cfg : Config Id) : Finset Id := cfg.members.toFinset

@[simp] lemma Config.mem_voters {cfg : Config Id} {i : Id} : i ∈ cfg.voters ↔ i ∈ cfg.members :=
  List.mem_toFinset

lemma Config.card_voters (cfg : Config Id) : cfg.voters.card = cfg.members.length :=
  List.toFinset_card_of_nodup (cfg.sorted.imp ne_of_lt)

/-- A sound history whose logs are numbered. -/
structure Ledger (cfg : Config Id) (h : Rows Id) : Prop extends Sound cfg.voters h where
  numbered : ∀ t, Numbered (h.leaderLog t)

/-- The part of a node that safety depends on. -/
structure Core (Id : Type) [LinearOrder Id] where
  me : Id
  cfg : Config Id
  disk : Persistent Id
  live : Persistent Id
  commitIndex : ℕ
  role : Role
  votes : Finset Id
  matchIndex : Id → Option ℕ

/-- The durable fields as the running node holds them. -/
def Raft.live (r : Raft Id) : Persistent Id :=
  ⟨r.term, r.votedFor, r.log, r.snapshotIndex, r.snapshotTerm⟩

def Raft.core (r : Raft Id) : Core Id :=
  ⟨r.me, r.cfg, r.storage.state, r.live, r.commitIndex, r.role, r.votes, r.matchIndex⟩

structure DiskOk (cfg : Config Id) (h : Rows Id) (i : Id) (full : List Entry)
    (p : Persistent Id) : Prop where
  view : LogView full p.snapshotIndex p.snapshotTerm p.entries
  voter : VoterOk h i p.term p.votedFor full
  base : Committed cfg.voters h p.term full p.snapshotIndex

structure LeaderOk (cfg : Config Id) (h : Rows Id) (i : Id) (full : List Entry)
    (c : Core Id) : Prop where
  term_pos : 0 < c.live.term
  led : h.led c.live.term = some i
  log : h.leaderLog c.live.term = full
  matched : ∀ m ∈ cfg.members, ∀ n, c.matchIndex m = some n → n ≤ h.acked m c.live.term

structure CandidateOk (cfg : Config Id) (h : Rows Id) (i : Id) (full : List Entry)
    (c : Core Id) : Prop where
  term_pos : 0 < c.live.term
  stood : h.stood i c.live.term = some full
  not_led : h.led c.live.term ≠ some i
  votes : ∀ v ∈ c.votes, v ∈ cfg.members ∧ h.voted v c.live.term = some i

structure NodeOk (cfg : Config Id) (h : Rows Id) (i : Id) (full : List Entry)
    (c : Core Id) : Prop where
  me : c.me = i
  member : i ∈ cfg.members
  cfg_eq : c.cfg = cfg
  synced : c.disk = c.live
  live : DiskOk cfg h i full c.live
  commit : Committed cfg.voters h c.live.term full c.commitIndex
  leader : c.role = .leader → LeaderOk cfg h i full c
  candidate : c.role = .candidate → CandidateOk cfg h i full c

/-- Nothing more is asked of a follower. -/
lemma NodeOk.follower {cfg : Config Id} {h : Rows Id} {i : Id} {full : List Entry} {c : Core Id}
    (me : c.me = i) (member : i ∈ cfg.members) (cfg_eq : c.cfg = cfg) (synced : c.disk = c.live)
    (live : DiskOk cfg h i full c.live) (commit : Committed cfg.voters h c.live.term full c.commitIndex)
    (hrole : c.role = .follower) : NodeOk cfg h i full c where
  me := me
  member := member
  cfg_eq := cfg_eq
  synced := synced
  live := live
  commit := commit
  leader hr := by simp [hrole] at hr
  candidate hr := by simp [hrole] at hr

/-- A run of a leader's log after an index. A leader asked to continue past its
own end sends nothing, under term zero. -/
def Slice (l : List Entry) (prevIndex prevTerm : ℕ) (es : List Entry) : Prop :=
  (prevIndex ≤ l.length ∧ prevTerm = termOf l prevIndex ∧ es <+: l.drop prevIndex) ∨
    (prevTerm = 0 ∧ es = [])

def MsgOk (cfg : Config Id) (h : Rows Id) (env : Envelope Id) : Prop :=
  match env.msg with
  | .requestVote t li lt => ∃ l, h.stood env.from_ t = some l ∧ li = l.length ∧
      lt = (l.getLast?.map Entry.term).getD 0 ∧ Attested h l ∧ ∀ e ∈ l, e.term ≤ t
  | .requestVoteReply t granted => granted = true → h.voted env.from_ t = some env.to_
  | .appendEntries t pi pt es lc _ => h.led t = some env.from_ ∧
      Slice (h.leaderLog t) pi pt es ∧ Committed cfg.voters h t (h.leaderLog t) lc
  | .appendEntriesReply t success m _ _ => success = true → m ≤ h.acked env.from_ t

section Growth

variable {cfg : Config Id} {h h' : Rows Id} {i j : Id} {full : List Entry}

lemma Slice.of_extends {l m es : List Entry} {pi pt : ℕ} (hs : Slice l pi pt es) (hp : l <+: m) :
    Slice m pi pt es := by
  rcases hs with ⟨hlen, ht, hes⟩ | hs
  · refine Or.inl ⟨hlen.trans hp.length_le, ?_, hes.trans (hp.drop pi)⟩
    rw [ht, termOf, termOf]
    split
    · rfl
    · rw [getElem?_eq_of_take_eq (take_eq_of_extends hp hlen) (by omega)]
  · exact Or.inr hs

lemma grow_committed_leader (g : Grows i h h') {t k : ℕ}
    (hc : Committed cfg.voters h t (h.leaderLog t) k) :
    Committed cfg.voters h' t (h'.leaderLog t) k :=
  (g.committed hc).of_take (g.take_eq hc.le_length)

theorem MsgOk.grow (g : Grows i h h') {env : Envelope Id} (hm : MsgOk cfg h env) :
    MsgOk cfg h' env := by
  obtain ⟨f, t, msg⟩ := env
  cases msg with
  | requestVote u li lt =>
    obtain ⟨l, hl, h₁, h₂, hc, ht⟩ := hm
    exact ⟨l, g.stood _ _ _ hl, h₁, h₂, g.attested hc, ht⟩
  | requestVoteReply u granted => exact fun hg => g.voted _ _ _ (hm hg)
  | appendEntries u pi pt es lc rr =>
    obtain ⟨hl, hs, hc⟩ := hm
    exact ⟨g.led _ _ hl, hs.of_extends (g.log u), grow_committed_leader g hc⟩
  | appendEntriesReply u s m rr ap => exact fun hs => (hm hs).trans (g.acked _ _)

lemma DiskOk.grow (g : Grows i h h') (hs : Sound cfg.voters h) (hj : j ≠ i) {p : Persistent Id}
    (hd : DiskOk cfg h j full p) : DiskOk cfg h' j full p :=
  ⟨hd.view, g.voterOk hs hj hd.voter, g.committed hd.base⟩

/-- What voter `i` adds leaves every other running node in order. -/
theorem NodeOk.grow (g : Grows i h h') (hs : Sound cfg.voters h) (hj : j ≠ i) {c : Core Id}
    (hn : NodeOk cfg h j full c) : NodeOk cfg h' j full c where
  __ := hn
  live := hn.live.grow g hs hj
  commit := g.committed hn.commit
  leader hr := by
    have ok := hn.leader hr
    exact ⟨ok.term_pos, g.led _ _ ok.led, (g.log_other _ _ ok.led hj).trans ok.log,
      fun m hm n hmn => (ok.matched m hm n hmn).trans (g.acked _ _)⟩
  candidate hr := by
    have ok := hn.candidate hr
    refine ⟨ok.term_pos, g.stood _ _ _ ok.stood, fun hl => ?_, fun v hv =>
      ⟨(ok.votes v hv).1, g.voted _ _ _ (ok.votes v hv).2⟩⟩
    rcases g.led_new _ _ hl with hl | rfl
    · exact ok.not_led hl
    · exact hj rfl

end Growth

/-- A durable state that voter `i` may be killed with. -/
def Recoverable (cfg : Config Id) (h₀ : Rows Id) (i : Id) (p : Persistent Id) : Prop :=
  ∃ h full, Grows i h₀ h ∧ Ledger cfg h ∧ DiskOk cfg h i full p

/-- A node inside a call of voter `i` that began with the history `h₀`. -/
structure Kept (cfg : Config Id) (h₀ : Rows Id) (i : Id) (h : Rows Id) (full : List Entry)
    (r : Raft Id) : Prop where
  grows : Grows i h₀ h
  ledger : Ledger cfg h
  node : NodeOk cfg h i full r.core
  outbox : ∀ env ∈ r.outbox, MsgOk cfg h env
  trail : ∀ p ∈ r.storage.trail, Recoverable cfg h₀ i p

/-- A call entered as `start` that neither delivers nor compacts. -/
structure Running (cfg : Config Id) (h₀ : Rows Id) (start : Raft Id) (h : Rows Id)
    (full : List Entry) (r : Raft Id) : Prop extends Kept cfg h₀ start.me h full r where
  lastDelivered : r.lastDelivered = start.lastDelivered
  base : r.snapshotIndex = start.snapshotIndex

namespace Running

variable {cfg : Config Id} {h₀ h h' : Rows Id} {start r r' : Raft Id} {full full' : List Entry}

lemma views (R : Running cfg h₀ start h full r) : r.Views full := R.node.live.view

lemma voter (R : Running cfg h₀ start h full r) : VoterOk h start.me r.term r.votedFor full :=
  R.node.live.voter

lemma me (R : Running cfg h₀ start h full r) : r.me = start.me := R.node.me

lemma cfg_eq (R : Running cfg h₀ start h full r) : r.cfg = cfg := R.node.cfg_eq

/-- A change outside the safety core. -/
lemma frame {q : Raft Id} (R : Running cfg h₀ start h full r) (hc : q.core = r.core)
    (ho : q.outbox = r.outbox) (ht : q.storage.trail = r.storage.trail)
    (hd : q.lastDelivered = r.lastDelivered) : Running cfg h₀ start h full q where
  grows := R.grows
  ledger := R.ledger
  node := hc ▸ R.node
  outbox := ho ▸ R.outbox
  trail := ht ▸ R.trail
  lastDelivered := hd.trans R.lastDelivered
  base := (congrArg (fun c => c.live.snapshotIndex) hc).trans R.base

/-- A step that extends the history; it may have written its new durable state. -/
lemma move (R : Running cfg h₀ start h full r) (g : Grows start.me h h') (hl : Ledger cfg h')
    (hn : NodeOk cfg h' start.me full' r'.core) (ho : r'.outbox = r.outbox)
    (ht : r'.storage.trail = r.storage.trail ∨
      r'.storage.trail = r'.storage.state :: r.storage.trail)
    (hd : r'.lastDelivered = r.lastDelivered) (hb : r'.snapshotIndex = r.snapshotIndex) :
    Running cfg h₀ start h' full' r' where
  grows := R.grows.trans g
  ledger := hl
  node := hn
  outbox env he := (R.outbox env (ho ▸ he)).grow g
  trail p hp := by
    rcases ht with ht | ht
    · exact R.trail p (ht ▸ hp)
    · rw [ht, List.mem_cons] at hp
      rcases hp with rfl | hp
      · exact ⟨h', full', R.grows.trans g, hl, by
          have := hn.live
          rwa [← hn.synced] at this⟩
      · exact R.trail p hp
  lastDelivered := hd.trans R.lastDelivered
  base := hb.trans R.base

lemma send (R : Running cfg h₀ start h full r) {to_ : Id} {msg : Message}
    (hm : MsgOk cfg h ⟨start.me, to_, msg⟩) : Running cfg h₀ start h full (r.send to_ msg) where
  __ := R
  outbox env he := by
    simp only [Raft.send, List.mem_append, List.mem_singleton] at he
    rcases he with he | rfl
    · exact R.outbox env he
    · rw [R.me]
      exact hm

end Running

end CarolinaDB.Consensus
