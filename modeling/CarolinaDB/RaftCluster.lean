import CarolinaDB.RaftNode

/-!
# A cluster of voters

The world the nodes live in: each voter is a running process or the durable
state a dead one left, and every message ever drained from an outbox can be
delivered any number of times, in any order, or never. Processes die between
calls or inside one, at any durable write, and restart from what is on disk.
-/
namespace CarolinaDB.Consensus

variable {Id : Type} [LinearOrder Id]

/-- What the caller of a node sees of its log during one process life. -/
inductive LifeEvent
  | delivered (e : Entry)
  | applied (index : ℕ)
  | compacted (base : ℕ)
  deriving DecidableEq, Repr

/-- Events that account for a log index: its delivery, or a frontier above it. -/
def LifeEvent.covers (index : ℕ) : LifeEvent → Prop
  | .delivered e => e.index = index
  | .applied n => index ≤ n
  | .compacted base => index ≤ base

def LifeEvent.entry? : LifeEvent → Option Entry
  | .delivered e => some e
  | _ => none

inductive Call (Id : Type)
  | tick
  | propose (data : List UInt8)
  | readBarrier
  | step (env : Envelope Id)
  | setApplied (index : ℕ)
  | compact (upTo : ℕ)
  | takeCommitted
  | takeReadyReads

/-- One public method; a refused call has no outcome. -/
def Raft.run (r : Raft Id) : Call Id → CoreResult (Raft Id × List LifeEvent)
  | .tick => .ok (r.tick, [])
  | .propose data => (r.propose data).map fun x => (x.2, [])
  | .readBarrier => r.readBarrier.map fun x => (x.2, [])
  | .step env => (r.step env).map fun r => (r, [])
  | .setApplied index => .ok (r.setApplied index, [.applied index])
  | .compact upTo => .ok ((r.compact upTo).2, [.compacted (r.compact upTo).1])
  | .takeCommitted => .ok (r.takeCommitted.2, r.takeCommitted.1.map .delivered)
  | .takeReadyReads => .ok (r.takeReadyReads.2, [])

/-- Entering a call: no durable write of it has happened yet. -/
def Raft.enter (r : Raft Id) : Raft Id := { r with storage := ⟨r.storage.state, []⟩ }

inductive Peer (Id : Type) [LinearOrder Id]
  | up (r : Raft Id)
  | down (p : Persistent Id)

structure World (Id : Type) [LinearOrder Id] where
  peer : Id → Peer Id
  /-- Every message drained from an outbox so far. -/
  sent : List (Envelope Id)
  /-- Every entry `takeCommitted` handed out, over all lives of the voter. -/
  handed : Id → List Entry
  /-- The current process life of each voter, oldest event first. -/
  life : Id → List LifeEvent

inductive Action (Id : Type)
  | call (i : Id) (c : Call Id)
  /-- Die inside a call, right after one of its durable writes. -/
  | kill (i : Id) (c : Call Id) (write : ℕ)
  | crash (i : Id)
  | drain (i : Id)
  | restart (i : Id) (rng : ℕ → ℕ)

def Call.Deliverable (sent : List (Envelope Id)) : Call Id → Prop
  | .step env => env ∈ sent
  | _ => True

instance (sent : List (Envelope Id)) : DecidablePred (Call.Deliverable sent)
  | .step env => inferInstanceAs (Decidable (env ∈ sent))
  | .tick | .propose _ | .readBarrier | .setApplied _ | .compact _ | .takeCommitted
  | .takeReadyReads => isTrue trivial

namespace World

def init : World Id := ⟨fun _ => .down Persistent.default, [], fun _ => [], fun _ => []⟩

def setPeer (w : World Id) (i : Id) (p : Peer Id) : World Id :=
  { w with peer := Function.update w.peer i p }

def record (w : World Id) (i : Id) (evs : List LifeEvent) : World Id :=
  { w with
    handed := Function.update w.handed i (w.handed i ++ evs.filterMap LifeEvent.entry?)
    life := Function.update w.life i (w.life i ++ evs) }

def act (cfg : Config Id) (w : World Id) : Action Id → Option (World Id)
  | .call i c =>
    match w.peer i with
    | .up r =>
      if c.Deliverable w.sent then
        match r.enter.run c with
        | .ok (r', evs) => some ((w.setPeer i (.up r')).record i evs)
        | .error _ => none
      else none
    | .down _ => none
  | .kill i c write =>
    match w.peer i with
    | .up r =>
      if c.Deliverable w.sent then
        match r.enter.run c with
        | .ok (r', _) => r'.storage.trail[write]?.map fun p => w.setPeer i (.down p)
        | .error _ => none
      else none
    | .down _ => none
  | .crash i =>
    match w.peer i with
    | .up r => some (w.setPeer i (.down r.storage.state))
    | .down _ => none
  | .drain i =>
    match w.peer i with
    | .up r => some { w.setPeer i (.up r.takeOutbox.2) with sent := w.sent ++ r.takeOutbox.1 }
    | .down _ => none
  | .restart i rng =>
    match w.peer i with
    | .up _ => none
    | .down p =>
      match Raft.new i cfg p rng with
      | .ok r => some { w.setPeer i (.up r) with
          life := Function.update w.life i [.compacted p.snapshotIndex] }
      | .error _ => none

/-- Every way an action can change the world. -/
theorem act_cases {cfg : Config Id} {w w' : World Id} {a : Action Id} (h : w.act cfg a = some w') :
    (∃ i r c r' evs, w.peer i = .up r ∧ c.Deliverable w.sent ∧ r.enter.run c = .ok (r', evs) ∧
      w' = (w.setPeer i (.up r')).record i evs) ∨
    (∃ i r c r' evs p, w.peer i = .up r ∧ c.Deliverable w.sent ∧ r.enter.run c = .ok (r', evs) ∧
      p ∈ r'.storage.trail ∧ w' = w.setPeer i (.down p)) ∨
    (∃ i r, w.peer i = .up r ∧ w' = w.setPeer i (.down r.storage.state)) ∨
    (∃ i r, w.peer i = .up r ∧
      w' = { w.setPeer i (.up r.takeOutbox.2) with sent := w.sent ++ r.takeOutbox.1 }) ∨
    (∃ i p rng r, w.peer i = .down p ∧ Raft.new i cfg p rng = .ok r ∧
      w' = { w.setPeer i (.up r) with
        life := Function.update w.life i [.compacted p.snapshotIndex] }) := by
  cases a with
  | call i c =>
    left
    simp only [act] at h
    split at h <;> try contradiction
    split at h <;> try contradiction
    split at h <;> try contradiction
    simp only [Option.some.injEq] at h
    exact ⟨i, _, c, _, _, ‹_›, ‹_›, ‹_›, h.symm⟩
  | kill i c n =>
    right; left
    simp only [act] at h
    split at h <;> try contradiction
    split at h <;> try contradiction
    split at h <;> try contradiction
    rw [Option.map_eq_some_iff] at h
    obtain ⟨p, hp, rfl⟩ := h
    exact ⟨i, _, c, _, _, p, ‹_›, ‹_›, ‹_›, List.mem_of_getElem? hp, rfl⟩
  | crash i =>
    right; right; left
    simp only [act] at h
    split at h <;> try contradiction
    simp only [Option.some.injEq] at h
    exact ⟨i, _, ‹_›, h.symm⟩
  | drain i =>
    right; right; right; left
    simp only [act] at h
    split at h <;> try contradiction
    simp only [Option.some.injEq] at h
    exact ⟨i, _, ‹_›, h.symm⟩
  | restart i rng =>
    right; right; right; right
    simp only [act] at h
    split at h <;> try contradiction
    split at h <;> try contradiction
    simp only [Option.some.injEq] at h
    exact ⟨i, _, rng, _, ‹_›, ‹_›, h.symm⟩

end World

/-- The worlds a run from fresh disks can reach. -/
inductive Reachable (cfg : Config Id) : World Id → Prop
  | init : Reachable cfg World.init
  | act {w w' : World Id} (hw : Reachable cfg w) (a : Action Id) (h : w.act cfg a = some w') :
      Reachable cfg w'

/-- Deliveries of one life strictly increase, and every index a delivery passes over was delivered
before it or lies below a frontier set before it. -/
def LifeOk (life : List LifeEvent) : Prop :=
  ∀ before e after, life = before ++ .delivered e :: after →
    (∀ d, .delivered d ∈ before → d.index < e.index) ∧
    ∀ index, 0 < index → index < e.index → ∃ ev ∈ before, ev.covers index

end CarolinaDB.Consensus
