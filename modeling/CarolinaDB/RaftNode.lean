import CarolinaDB.RaftStorage

/-!
# The Raft node

One voter of the consensus adapter: elections, replication, commit, delivery and
log compaction. Every method of the node is a function on its state; the ones
that can refuse return `CoreResult`. The random generator is the stream of its
draws, so a statement about every stream covers every seed.
-/
namespace CarolinaDB.Consensus

variable {Id : Type} [LinearOrder Id]

/-- A completed read barrier. -/
structure ReadIndex where
  round : ℕ
  index : ℕ
  deriving DecidableEq, Repr

structure Raft (Id : Type) [LinearOrder Id] where
  me : Id
  cfg : Config Id
  storage : Storage Id
  term : ℕ
  votedFor : Option Id
  log : List Entry
  commitIndex : ℕ
  lastDelivered : ℕ
  role : Role
  leader : Option Id
  votes : Finset Id
  nextIndex : Id → Option ℕ
  matchIndex : Id → Option ℕ
  electionElapsed : ℕ
  heartbeatElapsed : ℕ
  electionTimeout : ℕ
  rng : ℕ → ℕ
  outbox : List (Envelope Id)
  readRound : ℕ
  /-- Log base after compaction: entries up to it are covered by the applied state. -/
  snapshotIndex : ℕ
  snapshotTerm : ℕ
  /-- Highest index this voter has durably applied, and the leader's view of the others. -/
  applied : ℕ
  peerApplied : Id → Option ℕ
  followersBehindSnapshot : ℕ
  /-- Round, index and acknowledgements of the barriers in progress. -/
  pendingReads : List (ℕ × ℕ × Finset Id)
  readyReads : List ReadIndex
  becameLeaderTerms : List ℕ

namespace Raft

def lastIndex (r : Raft Id) : ℕ := (r.log.getLast?.map Entry.index).getD r.snapshotIndex

/-- Position of `index` inside the stored log. -/
def logPos (r : Raft Id) (index : ℕ) : Option ℕ :=
  if index ≤ r.snapshotIndex then none else some (index - r.snapshotIndex - 1)

def entry (r : Raft Id) (index : ℕ) : Option Entry :=
  if index = 0 ∨ r.lastIndex < index then none
  else (r.logPos index).bind fun pos => r.log[pos]?

def lastTerm (r : Raft Id) : ℕ := (r.log.getLast?.map Entry.term).getD r.snapshotTerm

def termAt (r : Raft Id) (index : ℕ) : ℕ :=
  if index = r.snapshotIndex then r.snapshotTerm else ((r.entry index).map Entry.term).getD 0

def resetElectionTimeout (r : Raft Id) : Raft Id :=
  let span := max (r.cfg.electionTicksMax - r.cfg.electionTicksMin) 1
  { r with
    electionTimeout := r.cfg.electionTicksMin + r.rng 0 % span
    rng := fun n => r.rng (n+1)
    electionElapsed := 0 }

/-- Start a process on the loaded durable state. -/
def new (me : Id) (cfg : Config Id) (p : Persistent Id) (rng : ℕ → ℕ) : CoreResult (Raft Id) :=
  if me ∈ cfg.members then
    .ok <| resetElectionTimeout
      { me, cfg, storage := ⟨p, []⟩, term := p.term, votedFor := p.votedFor, log := p.entries,
        commitIndex := 0, lastDelivered := p.snapshotIndex, role := .follower, leader := none,
        votes := ∅, nextIndex := fun _ => none, matchIndex := fun _ => none,
        electionElapsed := 0, heartbeatElapsed := 0, electionTimeout := 0, rng, outbox := [],
        readRound := 0, snapshotIndex := p.snapshotIndex, snapshotTerm := p.snapshotTerm,
        applied := p.snapshotIndex, peerApplied := fun _ => none, followersBehindSnapshot := 0,
        pendingReads := [], readyReads := [], becameLeaderTerms := [] }
  else .error (CoreError.new .invalidManifest "node is not a configured voter")

def send (r : Raft Id) (to_ : Id) (msg : Message) : Raft Id :=
  { r with outbox := r.outbox ++ [⟨r.me, to_, msg⟩] }

/-- Messages produced since the last drain, in order. -/
def takeOutbox (r : Raft Id) : List (Envelope Id) × Raft Id := (r.outbox, { r with outbox := [] })

/-- The delivery loop; each pass advances `lastDelivered`, so the distance to
the commit index bounds the number of passes. -/
def takeCommittedLoop : ℕ → Raft Id → List Entry × Raft Id
  | 0, r => ([], r)
  | n+1, r =>
    match r.entry (r.lastDelivered + 1) with
    | some e =>
      let rest := takeCommittedLoop n { r with lastDelivered := r.lastDelivered + 1 }
      (e :: rest.1, rest.2)
    | none => ([], r)

/-- Newly committed entries in log order. -/
def takeCommitted (r : Raft Id) : List Entry × Raft Id :=
  takeCommittedLoop (r.commitIndex - r.lastDelivered) r

/-- Record how far the state machine has durably applied. -/
def setApplied (r : Raft Id) (applied : ℕ) : Raft Id :=
  let reported := max (min applied r.lastIndex) r.snapshotIndex
  { r with
    lastDelivered := max r.lastDelivered reported
    applied := max r.applied reported }

/-- Highest index every voter has durably applied, as far as this node knows. -/
def compactionHorizon (r : Raft Id) : ℕ :=
  min ((r.cfg.members.filter (· ≠ r.me)).foldl
    (fun h m => min h ((r.peerApplied m).getD 0)) r.applied) r.commitIndex

/-- Drop the log prefix every voter has applied, up to `upTo`, and return the new base. -/
def compact (r : Raft Id) (upTo : ℕ) : ℕ × Raft Id :=
  let target := min (min upTo r.compactionHorizon) r.lastIndex
  if target ≤ r.snapshotIndex then (r.snapshotIndex, r)
  else
    let term := r.termAt target
    if term = 0 then (r.snapshotIndex, r)
    else
      let keep := (r.logPos (target+1)).getD r.log.length
      (target, { r with
        storage := r.storage.compactTo target term
        log := r.log.drop (min keep r.log.length)
        snapshotIndex := target
        snapshotTerm := term
        lastDelivered := max r.lastDelivered target
        applied := max r.applied target })

def takeReadyReads (r : Raft Id) : List ReadIndex × Raft Id :=
  (r.readyReads, { r with readyReads := [] })

def persistTermVote (r : Raft Id) : Raft Id :=
  { r with storage := r.storage.saveTermVote r.term r.votedFor }

def becomeFollower (r : Raft Id) (term : ℕ) (leader : Option Id) : Raft Id :=
  let r := if r.term < term then persistTermVote { r with term, votedFor := none } else r
  resetElectionTimeout { r with role := .follower, leader, votes := ∅, pendingReads := [] }

def appendLocal (r : Raft Id) (data : List UInt8) : ℕ × Raft Id :=
  let e : Entry := ⟨r.term, r.lastIndex + 1, data⟩
  let r := { r with storage := r.storage.append [e], log := r.log ++ [e] }
  let li := r.lastIndex
  (li, { r with matchIndex := Function.update r.matchIndex r.me (some li) })

def sendAppend (r : Raft Id) (to_ : Id) (readRound : ℕ) : Raft Id :=
  let next := (r.nextIndex to_).getD (r.snapshotIndex + 1)
  -- v1 has no snapshot transfer: a follower below the base is counted, never served
  if next ≤ r.snapshotIndex then
    { r with followersBehindSnapshot := r.followersBehindSnapshot + 1 }
  else
    let prevLogIndex := next - 1
    let prevLogTerm := r.termAt prevLogIndex
    let entries := match r.logPos next with
      | some pos => if next ≤ r.lastIndex then r.log.drop pos else []
      | none => []
    r.send to_ (.appendEntries r.term prevLogIndex prevLogTerm entries r.commitIndex readRound)

def broadcastAppend (r : Raft Id) (readRound : ℕ) : Raft Id :=
  let r := r.cfg.members.foldl (fun r m => if m ≠ r.me then r.sendAppend m readRound else r) r
  { r with heartbeatElapsed := 0 }

def becomeLeader (r : Raft Id) : Raft Id :=
  let r := { r with
    role := .leader
    leader := some r.me
    becameLeaderTerms := r.becameLeaderTerms ++ [r.term] }
  let next := r.lastIndex + 1
  let r := { r with
    nextIndex := r.cfg.members.foldl (fun f m => Function.update f m (some next)) r.nextIndex
    matchIndex := r.cfg.members.foldl (fun f m => Function.update f m (some 0)) r.matchIndex }
  let r := { r with matchIndex := Function.update r.matchIndex r.me (some r.lastIndex) }
  -- a leader commits entries of its own term only: append the term no-op
  let r := (r.appendLocal []).2
  broadcastAppend { r with heartbeatElapsed := r.cfg.heartbeatTicks } 0

def becomeCandidate (r : Raft Id) : Raft Id :=
  let r := persistTermVote { r with term := r.term + 1, votedFor := some r.me }
  let r := resetElectionTimeout { r with role := .candidate, leader := none, votes := {r.me} }
  let msg := Message.requestVote r.term r.lastIndex r.lastTerm
  let r := r.cfg.members.foldl (fun r m => if m ≠ r.me then r.send m msg else r) r
  if r.cfg.quorum ≤ r.votes.card then r.becomeLeader else r

/-- Leader-only: append a command and return its log index. -/
def propose (r : Raft Id) (data : List UInt8) : CoreResult (ℕ × Raft Id) :=
  if r.role ≠ .leader then .error (CoreError.new .authorityUnavailable "not the leader")
  else if data.isEmpty then .error (CoreError.new .protocolError "empty command")
  else
    let (idx, r) := r.appendLocal data
    .ok (idx, r.broadcastAppend 0)

/-- Leader-only: start a heartbeat round that a quorum must acknowledge. -/
def readBarrier (r : Raft Id) : CoreResult (ℕ × Raft Id) :=
  if r.role ≠ .leader then .error (CoreError.new .authorityUnavailable "not the leader")
  else if r.termAt r.commitIndex ≠ r.term then
    .error (CoreError.new .notReady "leader has not committed an entry of its term yet")
  else
    let round := r.readRound + 1
    let r := { r with
      readRound := round
      pendingReads := r.pendingReads ++ [(round, r.commitIndex, {r.me})] }
    .ok (round, r.broadcastAppend round)

/-- Logical clock tick: elections and heartbeats. -/
def tick (r : Raft Id) : Raft Id :=
  match r.role with
  | .leader =>
    let r := { r with heartbeatElapsed := r.heartbeatElapsed + 1 }
    if r.cfg.heartbeatTicks ≤ r.heartbeatElapsed then r.broadcastAppend 0 else r
  | .follower | .candidate =>
    let r := { r with electionElapsed := r.electionElapsed + 1 }
    if r.electionTimeout ≤ r.electionElapsed then r.becomeCandidate else r

/-- Commit the highest index a quorum holds, when it is of the current term. -/
def advanceCommit (r : Raft Id) : Raft Id :=
  let indices := (r.cfg.members.map fun m => (r.matchIndex m).getD 0).insertionSort (· ≥ ·)
  let q := indices.getD (r.cfg.quorum - 1) 0
  if r.commitIndex < q ∧ r.termAt q = r.term then { r with commitIndex := q } else r

def leaderConflicts : CoreError :=
  CoreError.new .corruption "leader conflicts with a committed entry"

/-- Append the entries the log lacks, truncating at the first conflicting one
(never at or below the commit index). Entries at or below the base are skipped. -/
def appendNew (r : Raft Id) : List Entry → CoreResult (Raft Id)
  | [] => .ok r
  | e :: es =>
    if e.index ≤ r.snapshotIndex then r.appendNew es
    else match r.entry e.index with
      | some mine =>
        if mine.term = e.term then r.appendNew es
        else if e.index ≤ r.commitIndex then .error leaderConflicts
        else
          let r := { r with
            storage := r.storage.truncateFrom e.index
            log := match r.logPos e.index with
              | some pos => r.log.take pos
              | none => r.log }
          .ok { r with storage := r.storage.append (e :: es), log := r.log ++ e :: es }
      | none => .ok { r with storage := r.storage.append (e :: es), log := r.log ++ e :: es }

def stepRequestVote (r : Raft Id) (from_ : Id) (term lastLogIndex lastLogTerm : ℕ) : Raft Id :=
  let r := if r.term < term then r.becomeFollower term none else r
  let upToDate := r.lastTerm < lastLogTerm ∨ (lastLogTerm = r.lastTerm ∧ r.lastIndex ≤ lastLogIndex)
  let grant := term = r.term ∧ upToDate ∧ (r.votedFor = none ∨ r.votedFor = some from_)
  let r := if grant then
      resetElectionTimeout (persistTermVote { r with votedFor := some from_ })
    else r
  r.send from_ (.requestVoteReply r.term grant)

def stepRequestVoteReply (r : Raft Id) (from_ : Id) (term : ℕ) (granted : Bool) : Raft Id :=
  if r.term < term then r.becomeFollower term none
  else if r.role = .candidate ∧ term = r.term ∧ granted = true then
    let r := { r with votes := insert from_ r.votes }
    if r.cfg.quorum ≤ r.votes.card then r.becomeLeader else r
  else r

def stepAppendEntries (r : Raft Id) (from_ : Id) (term prevLogIndex prevLogTerm : ℕ)
    (entries : List Entry) (leaderCommit readRound : ℕ) : CoreResult (Raft Id) :=
  if term < r.term then
    .ok (r.send from_ (.appendEntriesReply r.term false r.lastIndex readRound r.applied))
  else
    let r := if r.term < term ∨ r.role ≠ .follower then r.becomeFollower term (some from_)
      else resetElectionTimeout { r with leader := some from_ }
    if 0 < prevLogIndex ∧ (r.lastIndex < prevLogIndex ∨ r.termAt prevLogIndex ≠ prevLogTerm) then
      -- never hint below the compacted base
      let hint := max (min r.lastIndex (prevLogIndex - 1)) r.snapshotIndex
      .ok (r.send from_ (.appendEntriesReply r.term false hint readRound r.applied))
    else do
      let r ← r.appendNew entries
      let lastNew := (entries.getLast?.map Entry.index).getD prevLogIndex
      let r := if r.commitIndex < leaderCommit then
          { r with commitIndex := max (min leaderCommit lastNew) r.commitIndex }
        else r
      .ok (r.send from_ (.appendEntriesReply r.term true lastNew readRound r.applied))

/-- Credit one acknowledgement to every barrier up to `readRound`; a barrier
with a quorum becomes ready. -/
def ackReads (r : Raft Id) (from_ : Id) (readRound : ℕ) : Raft Id :=
  let pending := r.pendingReads.map fun p =>
    if p.1 ≤ readRound then (p.1, p.2.1, insert from_ p.2.2) else p
  let done := pending.filterMap fun p =>
    if p.1 ≤ readRound ∧ r.cfg.quorum ≤ p.2.2.card then some (ReadIndex.mk p.1 p.2.1) else none
  { r with
    pendingReads := pending.filter fun p => !done.any fun d => d.round == p.1
    readyReads := r.readyReads ++ done }

def stepAppendEntriesReply (r : Raft Id) (from_ : Id) (term : ℕ) (success : Bool)
    (matchIndex readRound appliedIndex : ℕ) : Raft Id :=
  let r := { r with
    peerApplied := Function.update r.peerApplied from_
      (some (max ((r.peerApplied from_).getD 0) appliedIndex)) }
  if r.term < term then r.becomeFollower term none
  else if r.role ≠ .leader ∨ term ≠ r.term then r
  else if success then
    let cur := (r.matchIndex from_).getD 0
    let r := if cur < matchIndex then
        { r with matchIndex := Function.update r.matchIndex from_ (some matchIndex) }
      else r
    let r := { r with nextIndex := Function.update r.nextIndex from_ (some (matchIndex + 1)) }
    let r := r.advanceCommit
    let r := if 0 < readRound then r.ackReads from_ readRound else r
    if (r.nextIndex from_).getD 1 ≤ r.lastIndex then r.sendAppend from_ 0 else r
  else
    let next := max (matchIndex + 1) 1
    sendAppend { r with nextIndex := Function.update r.nextIndex from_ (some next) } from_ 0

/-- Handle one message; anything not addressed to this voter by a voter is ignored. -/
def step (r : Raft Id) (env : Envelope Id) : CoreResult (Raft Id) :=
  if env.to_ ≠ r.me ∨ env.from_ ∉ r.cfg.members then .ok r
  else match env.msg with
    | .requestVote term li lt => .ok (r.stepRequestVote env.from_ term li lt)
    | .requestVoteReply term granted => .ok (r.stepRequestVoteReply env.from_ term granted)
    | .appendEntries term pi pt es lc rr => r.stepAppendEntries env.from_ term pi pt es lc rr
    | .appendEntriesReply term success m rr ap =>
      .ok (r.stepAppendEntriesReply env.from_ term success m rr ap)

end Raft

end CarolinaDB.Consensus
