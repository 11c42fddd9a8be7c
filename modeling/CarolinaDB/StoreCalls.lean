import CarolinaDB.Store

/-!
# Calls of the durable store

Install, commit, prepare, decide, checkpoint and recover. A durable step that fails
leaves the handle fenced until the store is opened again.
-/
namespace CarolinaDB.Storage

open CanonValue

/-- What the buffer pool does at a checkpoint: the leaves that are visited, and whether no dirty
page is left afterwards. -/
structure PoolState where
  visited : List ℕ → Bool
  imageComplete : Bool

/-- Whether a call checkpoints before its durable step and after it: the dirty pages have reached
the threshold then. -/
structure Pressure where
  before : Option PoolState
  after : Option PoolState

namespace Store

section Install

def insertVersion (c : InsertCall Bytes) : StoreM Unit := do
  let s ← get
  let r ← c.run s.tree
  set { s with tree := r.2 }

def mutationCall (txn : TxnId) (seq : ℕ) : StorageMutation → InsertCall Bytes
  | .put key value m =>
    ⟨key, UInt64.ofNat seq, txn, m.flags &&& ~~~entryFlagTombstone, m.bytes, value⟩
  | .delete key m => ⟨key, UInt64.ofNat seq, txn, m.flags ||| entryFlagTombstone, m.bytes, []⟩

def statusCall (txn : TxnId) (rec : TxnStatusRecord) (seq : ℕ) : InsertCall Bytes :=
  ⟨txnStatusKey txn, UInt64.ofNat seq, txn, flagSystem, [], Canonical.encode rec⟩

def recordCall (txn : TxnId) (w : ProtocolRecordWrite) (rev : RecordRevision) (seq : ℕ) :
    InsertCall Bytes :=
  ⟨w.key.logicalKey, UInt64.ofNat seq, txn, flagSystem, [], encodeRecordValue rev w.next⟩

/-- An identical record that was expected to be absent keeps its revision. An accepted exact
revision fixes the next one, whatever is current on replay. -/
def installedRevision (s : Store) (w : ProtocolRecordWrite) : CoreResult RecordRevision :=
  match w.expected with
  | .absent => do
    match ← s.currentRecord w.key.logicalKey with
    | some (cur, existing) => .ok (if existing = w.next then cur else 1)
    | none => .ok 1
  | .exact r => (checkedSucc r.toNat).map UInt64.ofNat

def installProtocolMutation (txn : TxnId) (seq : ℕ) : ProtocolMutation → StoreM Unit
  | .putRecord w => do
    let s ← get
    let rev ← s.installedRevision w
    insertVersion (recordCall txn w rev seq)
  | .setTxnStatus t => insertVersion (statusCall t.txnId t.next seq)

def installMutations (txn : TxnId) (seq : ℕ) : List StorageMutation → StoreM Unit
  | [] => pure ()
  | m :: ms => do
    insertVersion (mutationCall txn seq m)
    installMutations txn seq ms

/-- Install the protocol mutations of a batch. A decision takes the place of the status of the
batch's own transaction; the result says whether it was written. -/
def installProtocolMutations (txn : TxnId) (seq : ℕ) (statusOverride : Option TxnStatusRecord) :
    List ProtocolMutation → StoreM Bool
  | [] => pure false
  | pm :: pms =>
    match pm, statusOverride with
    | .setTxnStatus t, some rec =>
      if t.txnId = txn then do
        insertVersion (statusCall txn rec seq)
        let _ ← installProtocolMutations txn seq statusOverride pms
        pure true
      else do
        installProtocolMutation txn seq pm
        installProtocolMutations txn seq statusOverride pms
    | _, _ => do
      installProtocolMutation txn seq pm
      installProtocolMutations txn seq statusOverride pms

def installBatch (batch : CompiledBatch) (seq : ℕ) (statusOverride : Option TxnStatusRecord) :
    StoreM Unit := do
  installMutations batch.txnId seq batch.mutations
  let wrote ← installProtocolMutations batch.txnId seq statusOverride batch.protocolMutations
  match statusOverride, wrote with
  | some rec, false => insertVersion (statusCall batch.txnId rec seq)
  | _, _ => pure ()

def installProtocolBatch (seq : ℕ) : List ProtocolRecordWrite → StoreM Unit
  | [] => pure ()
  | w :: ws => do
    installProtocolMutation (Octets.zero 32) seq (.putRecord w)
    installProtocolBatch seq ws

/-- The status a prepared transaction gets with its decision. -/
def decisionStatus (batch : CompiledBatch) (decisionRef : ProtocolRecordRef) (aborted : Bool) :
    TxnStatusRecord :=
  let template := batch.protocolMutations.findSome? fun
    | .setTxnStatus t => if t.txnId = batch.txnId then some t.next else none
    | .putRecord _ => none
  let rec_ : TxnStatusRecord := template.getD
    ⟨1, .prepared, batch.plan, batch.idcBindings, some batch.semanticDigest, none, none, none⟩
  if aborted then
    { rec_ with decisionRef := some decisionRef, phase := .aborted, terminalOutcome := none }
  else
    match batch.terminalOutcome with
    | some t =>
      { rec_ with decisionRef := some decisionRef, phase := .terminal, terminalOutcome := some t }
    | none =>
      { rec_ with decisionRef := some decisionRef, phase := .installed, terminalOutcome := none }

end Install

section Durable

/-- A durable step; if it fails, the handle is fenced. -/
def durably {α : Type} (x : StoreM α) : StoreM α := fun s =>
  match s.requireRecovered with
  | .error e => (.error e, s)
  | .ok () =>
    match x s with
    | (.ok a, s') => (.ok a, s')
    | (.error e, s') => (.error e, { s' with recoveryRequired := true })

/-- Append a frame and cross the durable barrier. -/
def journalFrame (kind : JournalRecordKind) (txn : TxnId) (payload : CanonValue) : StoreM ℕ := do
  let s ← get
  let r ← s.journal.append kind txn payload.encode
  set { s with journal := r.2.sync }
  pure r.1

/-- Write the slot that does not hold the highest generation. -/
def publishManifest (m : Manifest) (s : Store) : Store :=
  let curA := (s.manifestA.map Manifest.manifestGeneration).getD 0
  let curB := (s.manifestB.map Manifest.manifestGeneration).getD 0
  if curB < curA then { s with manifestB := some m, manifest := m }
  else { s with manifestA := some m, manifest := m }

/-- The oldest sequence a registered snapshot may still read. -/
def oldestSnapshot (s : Store) : ℕ :=
  min (s.snapshots.keys.min?.getD s.durableCommitSeq) s.durableCommitSeq

/-- Prepared transactions pin the journal: their frames stay after the checkpoint. -/
def pinnedLsn (s : Store) (targetLsn : ℕ) : ℕ :=
  match (s.prepared.values.map PreparedTxn.lsn).min? with
  | some l => min targetLsn (l - 1)
  | none => targetLsn

def checkpoint (pool : PoolState) : StoreM CheckpointInfo := durably do
  let s ← get
  let targetLsn := s.journal.durableLsn
  let targetSeq := s.durableCommitSeq
  let _ ← journalFrame .checkpointBegin (Octets.zero 32) (build [
    ("kind", .str "checkpoint_begin"),
    ("target_lsn", uint (UInt64.ofNat targetLsn)),
    ("target_seq", uint (UInt64.ofNat targetSeq))])
  let s ← get
  let gcHorizon := if s.opts.reclaimAtCheckpoint then some s.oldestSnapshot else none
  let tree := s.tree.persistWithGc gcHorizon pool.visited
  let checkpointLsn := s.pinnedLsn targetLsn
  -- the retention point advances only if the persisted image is complete
  let reclaim := s.opts.reclaimAtCheckpoint && pool.imageComplete
  let firstNeeded :=
    if reclaim then s.journal.firstNeededSegment checkpointLsn
    else max s.manifest.journalSegment 1
  set (publishManifest ⟨s.manifest.manifestGeneration + 1, s.storageEpoch, tree, checkpointLsn,
    targetSeq, firstNeeded⟩ { s with tree := tree })
  let s ← get
  set { s with
    journal := if reclaim then s.journal.reclaimSegmentsBelow firstNeeded else s.journal }
  let _ ← journalFrame .checkpointEnd (Octets.zero 32) (build [
    ("checkpoint_lsn", uint (UInt64.ofNat checkpointLsn)),
    ("kind", .str "checkpoint_end")])
  pure ⟨checkpointLsn, targetSeq, s.manifest.manifestGeneration⟩

def maybeAutoCheckpoint : Option PoolState → StoreM Unit
  | some pool => do
    let _ ← checkpoint pool
    pure ()
  | none => pure ()

/-- The sequence just installed becomes the visible one. -/
def publishSeq (seq : ℕ) : StoreM Unit := do
  let next ← checkedSucc seq
  let s ← get
  set { s with durableCommitSeq := seq, nextSeq := next }

def commitResult (s : Store) (txn : Option TxnId) (seq lsn : ℕ)
    (evidence : List ProtocolRecordRef) : CommitResult where
  txnId := txn
  localVersion := ⟨s.storageEpoch, seq⟩
  journalLsn := lsn
  localDurability := if s.opts.durability = .unsafeNoFsync then .unsafeState else .localDurable
  storedEvidence := evidence

def evidenceRefs (mutations : List ProtocolMutation) : List ProtocolRecordRef :=
  naturalOrder (mutations.filterMap fun
    | .putRecord w => some (w.next.reference w.key)
    | .setTxnStatus _ => none)

end Durable

section Payloads

def commitPayload (batch : CompiledBatch) (seq : ℕ) : CanonValue := build [
  ("batch", toCanon batch), ("kind", .str "commit_batch"), ("seq", uint (UInt64.ofNat seq))]

def protocolPayload (batch : ProtocolOnlyBatch) (seq : ℕ) : CanonValue := build [
  ("batch", toCanon batch), ("kind", .str "commit_protocol"), ("seq", uint (UInt64.ofNat seq))]

def preparePayload (batch : CompiledBatch) : CanonValue := build [
  ("batch", toCanon batch), ("kind", .str "prepare_batch")]

def decisionPayload (kind : String) (decisionRef : ProtocolRecordRef) (txn : TxnId) (seq : ℕ) :
    CanonValue := build [
  ("decision_ref", toCanon decisionRef), ("kind", .str kind), ("seq", uint (UInt64.ofNat seq)),
  ("txn_id", toCanon txn)]

end Payloads

section Calls

def snapshot (s : Store) : LocalSnapshot × Store :=
  (⟨s.storageEpoch, s.durableCommitSeq⟩,
    { s with
      snapshots := s.snapshots.insert s.durableCommitSeq (s.snapshots[s.durableCommitSeq]?.getD 0 + 1) })

def releaseSnapshot (s : Store) (snap : LocalSnapshot) : Store :=
  match s.snapshots[snap.visibleSeq]? with
  | none => s
  | some c =>
    { s with
      snapshots := if c - 1 = 0 then s.snapshots.erase snap.visibleSeq
        else s.snapshots.insert snap.visibleSeq (c - 1) }

def advanceStorageEpoch (pool : PoolState) : StoreM ℕ := durably do
  let s ← get
  set { s with snapshots := ∅ }
  let next ← checkedSucc s.storageEpoch
  let _ ← journalFrame .storageEpochChange (Octets.zero 32) (build [
    ("epoch", uint (UInt64.ofNat next)), ("kind", .str "storage_epoch_change")])
  let s ← get
  set { s with storageEpoch := next }
  let _ ← checkpoint pool
  pure next

def commit (pressure : Pressure) (batch : CompiledBatch) : StoreM CommitResult := do
  let s ← get
  s.validateAdmission batch
  s.refuseDecidedTxn batch.txnId
  s.validateProtocolPreconditions [] batch.protocolMutations
  maybeAutoCheckpoint pressure.before
  let s ← get
  if batch.txnId ∈ s.prepared then
    throw (.new .txnInDoubt "transaction has a prepared batch; use commit_prepared")
  else durably do
    let seq := s.nextSeq
    let lsn ← journalFrame .commitBatch batch.txnId (commitPayload batch seq)
    installBatch batch seq none
    publishSeq seq
    let s ← get
    maybeAutoCheckpoint pressure.after
    pure (s.commitResult (some batch.txnId) seq lsn (evidenceRefs batch.protocolMutations))

def validateWrites : List ProtocolRecordWrite → CoreResult Unit
  | [] => .ok ()
  | w :: ws => do
    w.next.validate
    validateWrites ws

def commitProtocol (pressure : Pressure) (batch : ProtocolOnlyBatch) : StoreM CommitResult := do
  let s ← get
  s.requireRecovered
  if s.readiness ≠ .ready ∧ s.readiness ≠ .waitingProtocolReconciliation then
    throw (.new .notReady "store not ready")
  else do
    validateWrites batch.writes
    s.validateProtocolPreconditions [] (batch.writes.map ProtocolMutation.putRecord)
    maybeAutoCheckpoint pressure.before
    durably do
      let s ← get
      let seq := s.nextSeq
      -- a repeated element of a set cannot be encoded
      if ¬ distinctSets batch then throw .panicked
      else do
        let lsn ← journalFrame .commitBatch (Octets.zero 32) (protocolPayload batch seq)
        installProtocolBatch seq batch.writes
        publishSeq seq
        let s ← get
        maybeAutoCheckpoint pressure.after
        pure (s.commitResult none seq lsn (batch.writes.map fun w => w.next.reference w.key))

def prepare (batch : CompiledBatch) : StoreM PreparedToken := do
  let s ← get
  s.validateAdmission batch
  if batch.terminalOutcome.isSome then
    throw (.new .invalidEvidence "terminal_outcome must be absent in a prepare")
  else do
    s.validateProtocolPreconditions [] batch.protocolMutations
    match s.prepared[batch.txnId]? with
    | some p =>
      if p.batch.semanticDigest = batch.semanticDigest then
        pure ⟨batch.txnId, p.lsn, batch.semanticDigest⟩
      else
        throw (.new .identityConflict "a different batch is already prepared for this transaction")
    | none => durably do
      let lsn ← journalFrame .prepareBatch batch.txnId (preparePayload batch)
      let s ← get
      set { s with prepared := s.prepared.insert batch.txnId ⟨batch, lsn⟩ }
      pure ⟨batch.txnId, lsn, batch.semanticDigest⟩

/-- The prepared transaction of a token, or why there is none. -/
def preparedOf (s : Store) (token : PreparedToken) : CoreResult PreparedTxn := do
  s.requireRecovered
  match s.prepared[token.txnId]? with
  | some p =>
    if p.batch.semanticDigest ≠ token.digest then
      .error (.new .identityMismatch "prepared token digest mismatch")
    else .ok p
  | none =>
    match (← s.txnStatus token.txnId).map TxnStatusRecord.phase with
    | some .installed | some .terminal =>
      .error (.new .txnAlreadyCommitted "prepared transaction already committed")
    | some .aborted => .error (.new .txnAlreadyAborted "prepared transaction already aborted")
    | _ => .error (.new .txnInDoubt "no prepared batch for this token")

/-- The decided transaction leaves the prepared set. -/
def decided (txn : TxnId) (s : Store) : Store := { s with prepared := s.prepared.erase txn }

/-- Without prepared transactions there is nothing left to reconcile. -/
def reconciled (s : Store) : Store :=
  if s.prepared.isEmpty ∧ s.readiness = .waitingProtocolReconciliation then
    { s with readiness := .ready }
  else s

def commitPrepared (pressure : Pressure) (token : PreparedToken) (decisionRef : ProtocolRecordRef) :
    StoreM CommitResult := do
  let s ← get
  let p ← s.preparedOf token
  maybeAutoCheckpoint pressure.before
  durably do
    let s ← get
    let seq := s.nextSeq
    let lsn ← journalFrame .commitPrepared token.txnId
      (decisionPayload "commit_prepared" decisionRef token.txnId seq)
    installBatch p.batch seq (some (decisionStatus p.batch decisionRef false))
    modify (decided token.txnId)
    publishSeq seq
    let s ← get
    let r := s.commitResult (some token.txnId) seq lsn
      (naturalOrder (evidenceRefs p.batch.protocolMutations ++ [decisionRef]))
    modify reconciled
    maybeAutoCheckpoint pressure.after
    pure r

def abortPrepared (pressure : Option PoolState) (token : PreparedToken)
    (decisionRef : ProtocolRecordRef) : StoreM Unit := do
  let s ← get
  let p ← s.preparedOf token
  maybeAutoCheckpoint pressure
  durably do
    let s ← get
    let seq := s.nextSeq
    let _ ← journalFrame .abortPrepared token.txnId
      (decisionPayload "abort_prepared" decisionRef token.txnId seq)
    insertVersion (statusCall token.txnId (decisionStatus p.batch decisionRef true) seq)
    modify (decided token.txnId)
    publishSeq seq
    modify reconciled

end Calls

section Open

/-- A new database. -/
def create (opts : StoreOptions) : CoreResult Store := do
  let (journal, _) ← Journal.open Directory.empty 1 opts.segmentBytes
  let manifest : Manifest := ⟨1, 1, BTree.create, 0, 0, 1⟩
  .ok {
    opts := opts, manifestA := some manifest, manifestB := none, tree := BTree.create,
    journal := journal, manifest := manifest, storageEpoch := 1, nextSeq := 1,
    durableCommitSeq := 0, prepared := ∅, snapshots := ∅, readiness := .ready,
    recoveryRequired := false, minPlanGeneration := 0, activeSchema := none }

/-- The sequence of a replayed frame counts as visible. -/
def raiseSeq (seq : ℕ) (s : Store) : Store :=
  { s with durableCommitSeq := max s.durableCommitSeq seq }

def hasDecision (s : Store) (txn : TxnId) : CoreResult Bool := do
  .ok ((← s.txnStatus txn).any fun status => status.phase.isDecided)

/-- Redo one frame. Frames the checkpoint covers are skipped, except those of prepared batches that
were not decided. -/
def replayFrame (checkpointLsn : ℕ) (f : JournalFrame) : StoreM Unit :=
  if f.lsn.toNat ≤ checkpointLsn ∧ f.kind ≠ .prepareBatch then pure ()
  else do
    let payload ← CanonValue.decode f.payload Limits.v1
    match f.kind with
    | .commitBatch =>
      let seq : UInt64 ← payload.fieldAs "seq"
      let kind : String ← payload.fieldAs "kind"
      if kind = "commit_batch" then
        let batch : CompiledBatch ← payload.fieldAs "batch"
        installBatch batch seq.toNat none
      else
        let batch : ProtocolOnlyBatch ← payload.fieldAs "batch"
        installProtocolBatch seq.toNat batch.writes
      modify (raiseSeq seq.toNat)
    | .prepareBatch =>
      let batch : CompiledBatch ← payload.fieldAs "batch"
      let s ← get
      if checkpointLsn < f.lsn.toNat then
        set { s with prepared := s.prepared.insert batch.txnId ⟨batch, f.lsn.toNat⟩ }
      else if ← s.hasDecision batch.txnId then pure ()
      else set { s with prepared := s.prepared.insert batch.txnId ⟨batch, f.lsn.toNat⟩ }
    | .commitPrepared =>
      let txn : TxnId ← payload.fieldAs "txn_id"
      let seq : UInt64 ← payload.fieldAs "seq"
      let decisionRef : ProtocolRecordRef ← payload.fieldAs "decision_ref"
      let s ← get
      match s.prepared[txn]? with
      | some p =>
        modify (decided txn)
        installBatch p.batch seq.toNat (some (decisionStatus p.batch decisionRef false))
      | none => pure ()
      modify (raiseSeq seq.toNat)
    | .abortPrepared =>
      let txn : TxnId ← payload.fieldAs "txn_id"
      let seq : UInt64 ← payload.fieldAs "seq"
      let decisionRef : ProtocolRecordRef ← payload.fieldAs "decision_ref"
      let s ← get
      match s.prepared[txn]? with
      | some p =>
        modify (decided txn)
        insertVersion (statusCall txn (decisionStatus p.batch decisionRef true) seq.toNat)
      | none => pure ()
      modify (raiseSeq seq.toNat)
    | .storageEpochChange =>
      let epoch : UInt64 ← payload.fieldAs "epoch"
      let s ← get
      if epoch.toNat < s.storageEpoch then
        throw (corrupt "storage epoch change frame goes backwards")
      else set { s with storageEpoch := epoch.toNat }
    | .checkpointBegin | .checkpointEnd | .catalogGeneration => pure ()

def replay (checkpointLsn : ℕ) : List JournalFrame → StoreM Unit
  | [] => pure ()
  | f :: fs => do
    replayFrame checkpointLsn f
    replay checkpointLsn fs

/-- The newest valid manifest. -/
def newestManifest (disk : Disk) : CoreResult Manifest :=
  match disk.manifestA, disk.manifestB with
  | some x, some y => .ok (if y.manifestGeneration ≤ x.manifestGeneration then x else y)
  | some x, none => .ok x
  | none, some y => .ok y
  | none, none => .error (.new .invalidManifest "no valid manifest")

/-- The store as the manifest describes it, before the journal is replayed. -/
def restored (disk : Disk) (opts : StoreOptions) (manifest : Manifest) (journal : Journal) : Store where
  opts := opts
  manifestA := disk.manifestA
  manifestB := disk.manifestB
  tree := manifest.tree
  journal := journal
  manifest := manifest
  storageEpoch := manifest.storageEpoch
  nextSeq := manifest.checkpointCommitSeq + 1
  durableCommitSeq := manifest.checkpointCommitSeq
  prepared := ∅
  snapshots := ∅
  readiness := .recoveringLocal
  recoveryRequired := false
  minPlanGeneration := 0
  activeSchema := none

end Open

end Store

/-- Open an existing database and recover. -/
def Store.open (disk : Disk) (opts : StoreOptions) : CoreResult Store := do
  let manifest ← Store.newestManifest disk
  let (journal, frames) ← Journal.open disk.directory manifest.journalSegment opts.segmentBytes
  match Store.replay manifest.checkpointLsn (frames.map ScannedFrame.frame)
      (Store.restored disk opts manifest journal) with
  | (.error e, _) => .error e
  | (.ok (), s) =>
    let next ← checkedSucc s.durableCommitSeq
    let s := { s with
      nextSeq := next
      readiness := if s.prepared.isEmpty then .ready else .waitingProtocolReconciliation }
    let _ ← s.verify
    .ok s

end CarolinaDB.Storage
