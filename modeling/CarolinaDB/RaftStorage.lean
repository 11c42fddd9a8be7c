import CarolinaDB.CoreError

/-!
# Raft messages, configuration and durable state

The wire messages of the consensus adapter, the fixed voter set and the durable
state behind `RaftStorage`. Terms, indices and ticks are natural numbers.
Storage keeps, beside the current durable state, the durable states a kill
inside the running call can leave behind: every write is one, and an
interrupted append keeps a prefix of its entries.
-/
namespace CarolinaDB.Consensus

structure Entry where
  term : ℕ
  index : ℕ
  /-- Empty data marks the leader's term no-op. -/
  data : List UInt8
  deriving DecidableEq, Repr

inductive Message
  | requestVote (term lastLogIndex lastLogTerm : ℕ)
  | requestVoteReply (term : ℕ) (granted : Bool)
  | appendEntries (term prevLogIndex prevLogTerm : ℕ) (entries : List Entry)
      (leaderCommit readRound : ℕ)
  | appendEntriesReply (term : ℕ) (success : Bool) (matchIndex readRound appliedIndex : ℕ)
  deriving DecidableEq, Repr

structure Envelope (Id : Type) where
  from_ : Id
  to_ : Id
  msg : Message
  deriving DecidableEq, Repr

inductive Role
  | follower
  | candidate
  | leader
  deriving DecidableEq, Repr

/-- The fixed voter set: sorted, so without repetition. -/
structure Config (Id : Type) [LinearOrder Id] where
  members : List Id
  electionTicksMin : ℕ
  electionTicksMax : ℕ
  heartbeatTicks : ℕ
  sorted : members.Pairwise (· < ·)

variable {Id : Type} [LinearOrder Id]

def Config.quorum (cfg : Config Id) : ℕ := cfg.members.length / 2 + 1

structure Persistent (Id : Type) where
  term : ℕ
  votedFor : Option Id
  entries : List Entry
  /-- Last index covered by the applied-state snapshot; the log starts just above it. -/
  snapshotIndex : ℕ
  snapshotTerm : ℕ
  deriving DecidableEq, Repr

def Persistent.default : Persistent Id := ⟨0, none, [], 0, 0⟩

structure Storage (Id : Type) where
  state : Persistent Id
  trail : List (Persistent Id)

namespace Storage

def write (s : Storage Id) (p : Persistent Id) : Storage Id := ⟨p, p :: s.trail⟩

def saveTermVote (s : Storage Id) (term : ℕ) (votedFor : Option Id) : Storage Id :=
  s.write { s.state with term, votedFor }

/-- One entry after the other: a kill in between keeps the entries before it. -/
def append (s : Storage Id) (entries : List Entry) : Storage Id :=
  entries.foldl (fun s e => s.write { s.state with entries := s.state.entries ++ [e] }) s

/-- Remove every entry at or above `from_`. -/
def truncateFrom (s : Storage Id) (from_ : ℕ) : Storage Id :=
  s.write { s.state with entries := s.state.entries.filter (·.index < from_) }

/-- Drop every entry at or below `index` and record it as the new log base. -/
def compactTo (s : Storage Id) (index term : ℕ) : Storage Id :=
  s.write { s.state with
    snapshotIndex := index
    snapshotTerm := term
    entries := s.state.entries.filter (index < ·.index) }

end Storage

end CarolinaDB.Consensus
