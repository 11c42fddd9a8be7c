import CarolinaDB.StoreSteps

/-!
# Runs of the store

A run is a sequence of calls on one handle, whatever each of them returns. `run_cases`
says what a call can do; a fenced handle stays fenced.
-/
namespace CarolinaDB.Storage

inductive StoreCall
  | commit (pressure : Pressure) (batch : CompiledBatch)
  | commitProtocol (pressure : Pressure) (batch : ProtocolOnlyBatch)
  | prepare (batch : CompiledBatch)
  | commitPrepared (pressure : Pressure) (token : PreparedToken) (decisionRef : ProtocolRecordRef)
  | abortPrepared (pressure : Option PoolState) (token : PreparedToken)
      (decisionRef : ProtocolRecordRef)
  | checkpoint (pool : PoolState)
  | snapshot
  | releaseSnapshot (snap : LocalSnapshot)
  | advanceStorageEpoch (pool : PoolState)

namespace StoreCall

open Store

/-- The store after a call. -/
def run : StoreCall → Store → Store
  | commit pressure batch, s => (Store.commit pressure batch s).2
  | commitProtocol pressure batch, s => (Store.commitProtocol pressure batch s).2
  | prepare batch, s => (Store.prepare batch s).2
  | commitPrepared pressure token ref, s => (Store.commitPrepared pressure token ref s).2
  | abortPrepared pressure token ref, s => (Store.abortPrepared pressure token ref s).2
  | checkpoint pool, s => (Store.checkpoint pool s).2
  | snapshot, s => s.snapshot.2
  | releaseSnapshot snap, s => s.releaseSnapshot snap
  | advanceStorageEpoch pool, s => (Store.advanceStorageEpoch pool s).2

/-- A new epoch has no registered snapshots. -/
def EpochAdvanced (s s' : Store) : Prop :=
  Collected { s with snapshots := ∅, storageEpoch := s.storageEpoch + 1 } s'

/-- What a call does that is not refused. -/
def Done : StoreCall → Store → Store → Prop
  | commit _ batch, s, s' => Committed batch s s'
  | commitProtocol _ batch, s, s' => ProtocolCommitted batch s s'
  | prepare batch, s, s' => Prepared batch s s'
  | commitPrepared _ token ref, s, s' => Decided token (fun p =>
      batchCalls s.tree.versions s.durableCommitSeq p.batch s.nextSeq
        (some (decisionStatus p.batch ref false))) s s'
  | abortPrepared _ token ref, s, s' => Decided token (fun p =>
      [statusCall token.txnId (decisionStatus p.batch ref true) s.nextSeq]) s s'
  | checkpoint _, s, s' => Collected s s'
  | snapshot, s, s' => s' = s.snapshot.2
  | releaseSnapshot snap, s, s' => s' = s.releaseSnapshot snap
  | advanceStorageEpoch _, s, s' => EpochAdvanced s s'

lemma advanceStorageEpoch_cases {pool : PoolState} {s s' : Store} {r : CoreResult ℕ}
    (h : Store.advanceStorageEpoch pool s = (r, s')) :
    s'.recoveryRequired = true ∨ EpochAdvanced s s' := by
  rcases durably_cases h with ⟨epoch, hr, -, h⟩ | ⟨-, hfail⟩
  swap
  · exact Or.inl hfail
  rw [Attempt.get_bind_run] at h
  obtain ⟨_, s₁, hset, h⟩ := Attempt.bind_eq_ok h
  rw [Attempt.set_run, Attempt.end_eq_iff] at hset
  obtain ⟨-, rfl⟩ := hset
  obtain ⟨next, s₂, hnext, h⟩ := Attempt.bind_eq_ok h
  rw [Attempt.liftM_run, Attempt.end_eq_iff, checkedSucc] at hnext
  obtain ⟨hnext, rfl⟩ := hnext
  split_ifs at hnext
  obtain rfl := Except.ok.inj hnext
  obtain ⟨_, s₃, hframe, h⟩ := Attempt.bind_eq_ok h
  obtain ⟨j, -, rfl⟩ := journalFrame_ok hframe
  rw [Attempt.get_bind_run] at h
  obtain ⟨_, s₄, hset, h⟩ := Attempt.bind_eq_ok h
  rw [Attempt.set_run, Attempt.end_eq_iff] at hset
  obtain ⟨-, rfl⟩ := hset
  obtain ⟨info, s₅, hcheck, h⟩ := Attempt.bind_eq_ok h
  rw [Attempt.pure_run, Attempt.end_eq_iff] at h
  rcases checkpoint_cases hcheck with ⟨-, -, hcollected⟩ | ⟨⟨e, he⟩, -⟩
  · exact Or.inr ((collected_journal _ j.sync).trans (h.2 ▸ hcollected))
  · cases he

theorem run_cases {c : StoreCall} {s : Store} (hlt : s.durableCommitSeq < s.nextSeq) :
    Refused s (c.run s) ∨ c.Done s (c.run s) := by
  cases c with
  | commit pressure batch =>
    exact (commit_cases hlt (Prod.mk.eta).symm).imp And.right And.right
  | commitProtocol pressure batch =>
    exact (commitProtocol_cases hlt (Prod.mk.eta).symm).imp And.right And.right
  | prepare batch => exact (prepare_cases (Prod.mk.eta).symm).imp And.right And.right
  | commitPrepared pressure token ref =>
    exact (commitPrepared_cases hlt (Prod.mk.eta).symm).imp And.right And.right
  | abortPrepared pressure token ref =>
    exact (abortPrepared_cases (Prod.mk.eta).symm).imp And.right And.right
  | checkpoint pool =>
    rcases checkpoint_cases (Prod.mk.eta (p := Store.checkpoint pool s)).symm with
      ⟨-, -, h⟩ | ⟨-, h⟩
    · exact Or.inr h
    · exact Or.inl (Or.inr h)
  | snapshot => exact Or.inr rfl
  | releaseSnapshot snap => exact Or.inr rfl
  | advanceStorageEpoch pool =>
    exact (advanceStorageEpoch_cases (Prod.mk.eta).symm).imp Or.inr id

/-- A fenced handle stays fenced. -/
lemma run_fenced {c : StoreCall} {s : Store} (h : s.recoveryRequired = true) :
    (c.run s).recoveryRequired = true := by
  obtain ⟨e, he⟩ : ∃ e, s.requireRecovered = .error e := by simp [requireRecovered, h]
  have hdurably {α : Type} (x : StoreM α) : durably x s = (.error e, s) := by
    simp only [durably, he]
  have hadmission (batch : CompiledBatch) : s.validateAdmission batch = .error e := by
    rw [validateAdmission, he]
    rfl
  have hprepared (token : PreparedToken) : s.preparedOf token = .error e := by
    rw [preparedOf, he]
    rfl
  cases c with
  | commit pressure batch =>
    rw [run, Store.commit, Attempt.get_bind_run, hadmission]
    exact h
  | commitProtocol pressure batch =>
    rw [run, Store.commitProtocol, Attempt.get_bind_run, he]
    exact h
  | prepare batch =>
    rw [run, Store.prepare, Attempt.get_bind_run, hadmission]
    exact h
  | commitPrepared pressure token ref =>
    rw [run, Store.commitPrepared, Attempt.get_bind_run, hprepared]
    exact h
  | abortPrepared pressure token ref =>
    rw [run, Store.abortPrepared, Attempt.get_bind_run, hprepared]
    exact h
  | checkpoint pool =>
    rw [run, Store.checkpoint, hdurably]
    exact h
  | snapshot => exact h
  | releaseSnapshot snap =>
    rw [run, Store.releaseSnapshot]
    split <;> exact h
  | advanceStorageEpoch pool =>
    rw [run, Store.advanceStorageEpoch, hdurably]
    exact h

lemma recovered_of_run {c : StoreCall} {s : Store} (h : (c.run s).recoveryRequired = false) :
    s.recoveryRequired = false := by
  by_contra hfenced
  rw [run_fenced (Bool.not_eq_false _ |>.mp hfenced)] at h
  cases h

lemma releaseSnapshot_eq (s : Store) (snap : LocalSnapshot) :
    ∃ m, s.releaseSnapshot snap = { s with snapshots := m } := by
  rw [Store.releaseSnapshot]
  split
  · exact ⟨s.snapshots, rfl⟩
  · exact ⟨_, rfl⟩

/-- How a handle that is not fenced moves on by a call. -/
inductive Moves (c : StoreCall) (s s' : Store) : Prop
  | collected (h : Collected s s')
  | extended {cs : List (InsertCall Bytes)} (h : Extends cs s s')
  | prepared {j : Journal} {p : FiniteMap TxnId PreparedTxn}
      (h : s' = { s with journal := j, prepared := p })
  | registered (h : s' = s.snapshot.2)
  | released {snap : LocalSnapshot} (hc : c = releaseSnapshot snap) (h : s' = s.releaseSnapshot snap)
  | epoch (h : EpochAdvanced s s')

theorem run_moves {c : StoreCall} {s : Store} (hlt : s.durableCommitSeq < s.nextSeq)
    (hrec : (c.run s).recoveryRequired = false) : Moves c s (c.run s) := by
  rcases run_cases (c := c) hlt with (h | h) | h
  · exact Moves.collected h
  · rw [h] at hrec
    cases hrec
  cases c with
  | commit pressure batch => exact Moves.extended h.installed
  | commitProtocol pressure batch => exact Moves.extended h.installed
  | prepare batch =>
    rcases h.result with ⟨h, -⟩ | ⟨-, j, lsn, h⟩
    · rw [h]
      exact Moves.collected (Collected.refl s)
    · exact Moves.prepared h
  | commitPrepared pressure token ref =>
    obtain ⟨p, -, -, h⟩ := h.installed
    exact Moves.extended h
  | abortPrepared pressure token ref =>
    obtain ⟨p, -, -, h⟩ := h.installed
    exact Moves.extended h
  | checkpoint pool => exact Moves.collected h
  | snapshot => exact Moves.registered rfl
  | releaseSnapshot snap => exact Moves.released rfl rfl
  | advanceStorageEpoch pool => exact Moves.epoch h

namespace Moves
variable {c : StoreCall} {s s' : Store}

/-- The next sequence is the one after what is visible. -/
lemma nextSeq_eq (h : Moves c s s') (hnext : s.nextSeq = s.durableCommitSeq + 1) :
    s'.nextSeq = s'.durableCommitSeq + 1 := by
  cases h with
  | collected h => rwa [h.durableCommitSeq, h.nextSeq]
  | extended h => rw [h.durableCommitSeq, h.nextSeq]
  | prepared h => rwa [h]
  | registered h => rwa [h]
  | released _ h =>
    obtain ⟨m, hm⟩ := releaseSnapshot_eq s _
    rwa [h, hm]
  | epoch h => rwa [Collected.durableCommitSeq h, Collected.nextSeq h]

lemma storageEpoch_le (h : Moves c s s') : s.storageEpoch ≤ s'.storageEpoch := by
  cases h with
  | collected h => exact h.storageEpoch.ge
  | extended h => exact h.storageEpoch.ge
  | prepared h => rw [h]
  | registered h => rw [h, Store.snapshot]
  | released _ h =>
    obtain ⟨m, hm⟩ := releaseSnapshot_eq s _
    rw [h, hm]
  | epoch h =>
    rw [Collected.storageEpoch h]
    exact Nat.le_succ _

end Moves

/-- One call of a run, made where it is allowed. -/
def Step (allowed : Store → StoreCall → Prop) (s s' : Store) : Prop :=
  ∃ c, allowed s c ∧ s' = c.run s

/-- A handle that is not fenced at the end of a run was not fenced before. -/
lemma recovered_of_steps {allowed : Store → StoreCall → Prop} {s s' : Store}
    (hrun : Relation.ReflTransGen (Step allowed) s s') (hrec : s'.recoveryRequired = false) :
    s.recoveryRequired = false := by
  induction hrun with
  | refl => exact hrec
  | tail _ hstep ih =>
    obtain ⟨c, -, rfl⟩ := hstep
    exact ih (recovered_of_run hrec)

/-- A handle that was created or opened, after calls on it. -/
inductive Reached : Store → Prop
  | create {opts : StoreOptions} {s : Store} (h : Store.create opts = .ok s) : Reached s
  | opened {disk : Disk} {opts : StoreOptions} {s : Store} (h : Store.open disk opts = .ok s) :
      Reached s
  | call {s : Store} (c : StoreCall) (h : Reached s) : Reached (c.run s)

lemma Reached.nextSeq_eq {s : Store} (h : Reached s) (hrec : s.recoveryRequired = false) :
    s.nextSeq = s.durableCommitSeq + 1 := by
  induction h with
  | @create opts s h =>
    obtain ⟨⟨j, frames⟩, -, h⟩ := CoreResult.bind_eq_ok h
    rw [← Except.ok.inj h]
  | @opened disk opts s h =>
    obtain ⟨m, -, h⟩ := CoreResult.bind_eq_ok h
    obtain ⟨⟨j, frames⟩, -, h⟩ := CoreResult.bind_eq_ok h
    dsimp only at h
    split at h
    · cases h
    · obtain ⟨next, hnext, h⟩ := CoreResult.bind_eq_ok h
      obtain ⟨_, -, h⟩ := CoreResult.bind_eq_ok h
      rw [checkedSucc] at hnext
      split_ifs at hnext
      rw [← Except.ok.inj h, ← Except.ok.inj hnext]
  | call c h ih =>
    have hnext := ih (recovered_of_run hrec)
    exact (run_moves (by omega) hrec).nextSeq_eq hnext

end StoreCall

/-- The store a new database starts with. -/
def freshStore (opts : StoreOptions) : Store :=
  let manifest : Manifest := ⟨1, 1, BTree.create, 0, 0, 1⟩
  { opts := opts, manifestA := some manifest, manifestB := none, tree := BTree.create,
    journal := ⟨Directory.empty.touch 1, opts.segmentBytes, 1, 1, 0, 0⟩, manifest := manifest,
    storageEpoch := 1, nextSeq := 1, durableCommitSeq := 0, prepared := ∅, snapshots := ∅,
    readiness := .ready, recoveryRequired := false, minPlanGeneration := 0, activeSchema := none }

lemma create_eq (opts : StoreOptions) : Store.create opts = .ok (freshStore opts) := rfl

/-- No checkpoint around a call. -/
def calm : Pressure := ⟨none, none⟩

/-- A checkpoint that visits every leaf and leaves no dirty page. -/
def fullPool : PoolState := ⟨fun _ => true, true⟩

def sampleOptions : StoreOptions := ⟨.sync, 1048576, true⟩

def sampleKey : ProtocolRecordKey := ⟨"outbox", [], []⟩

/-- A batch that writes one record, with the payload `null`. -/
def sampleWrite (expected : ExpectedRecordRevision) : ProtocolOnlyBatch :=
  ⟨sampleKey, [], [⟨sampleKey, expected, ⟨"semantic_commit", 1, [110, 117, 108, 108]⟩⟩]⟩

end CarolinaDB.Storage
