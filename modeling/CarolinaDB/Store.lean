import CarolinaDB.Attempt
import CarolinaDB.BTreeCompact
import CarolinaDB.CompiledBatch
import CarolinaDB.FiniteMap
import CarolinaDB.Journal

/-!
# The durable store

State, reads and validation. A manifest refers to the tree a checkpoint wrote, by
value. The buffer pool is not represented: which leaves a checkpoint visits and
whether dirty pages are left over is an argument of the calls that depend on it.
-/
namespace CarolinaDB.Storage

open CanonValue

structure LocalSnapshot where
  epoch : ℕ
  visibleSeq : ℕ
  deriving DecidableEq, Repr

structure VersionStamp where
  epoch : ℕ
  seq : ℕ
  deriving DecidableEq, Repr

inductive DurabilityMode
  | sync | groupSync | unsafeNoFsync
  deriving DecidableEq, Repr

inductive DurabilityState
  | localDurable | unsafeState
  deriving DecidableEq, Repr

structure CommitResult where
  txnId : Option TxnId
  localVersion : VersionStamp
  journalLsn : ℕ
  localDurability : DurabilityState
  storedEvidence : List ProtocolRecordRef
  deriving DecidableEq, Repr

structure PreparedToken where
  txnId : TxnId
  lsn : ℕ
  digest : SemanticDigest
  deriving DecidableEq, Repr

inductive Readiness
  | opening | recoveringLocal | waitingProtocolReconciliation | ready | degradedStorage
  | readOnlySafety | failed
  deriving DecidableEq, Repr

def Readiness.label : Readiness → String
  | opening => "Opening"
  | recoveringLocal => "RecoveringLocal"
  | waitingProtocolReconciliation => "WaitingProtocolReconciliation"
  | ready => "Ready"
  | degradedStorage => "DegradedStorage"
  | readOnlySafety => "ReadOnlySafety"
  | failed => "Failed"

structure CheckpointInfo where
  checkpointLsn : ℕ
  checkpointCommitSeq : ℕ
  manifestGeneration : ℕ
  deriving DecidableEq, Repr

structure StoreOptions where
  durability : DurabilityMode
  segmentBytes : ℕ
  reclaimAtCheckpoint : Bool

structure Manifest where
  manifestGeneration : ℕ
  storageEpoch : ℕ
  tree : BTree Bytes
  checkpointLsn : ℕ
  checkpointCommitSeq : ℕ
  journalSegment : ℕ

/-- The two manifest slots, empty if what is there does not decode, and the journal files. -/
structure Disk where
  manifestA : Option Manifest
  manifestB : Option Manifest
  directory : Directory

structure PreparedTxn where
  batch : CompiledBatch
  lsn : ℕ

instance transCmpTxnId : Std.TransCmp (@compare TxnId LinearOrder.toOrd) := transCmp_compare

structure Store where
  opts : StoreOptions
  manifestA : Option Manifest
  manifestB : Option Manifest
  tree : BTree Bytes
  journal : Journal
  manifest : Manifest
  storageEpoch : ℕ
  nextSeq : ℕ
  durableCommitSeq : ℕ
  prepared : FiniteMap TxnId PreparedTxn
  snapshots : FiniteMap ℕ ℕ
  readiness : Readiness
  recoveryRequired : Bool
  minPlanGeneration : PlanGeneration
  activeSchema : Option SchemaHash

abbrev StoreM := Attempt Store CoreError

def txnStatusKey (txn : TxnId) : LogicalKey :=
  Namespace.txnStatus.toByte :: (keyStr "txn_status" ++ keyBytes txn.val)

def encodeRecordValue (rev : RecordRevision) (rec : VersionedProtocolRecord) : Bytes :=
  littleEndian 8 rev.toNat ++ Canonical.encode rec

def decodeRecordValue (b : Bytes) : CoreResult (RecordRevision × VersionedProtocolRecord) :=
  if b.length < 8 then .error (.new .corruption "protocol record value too short")
  else do
    let rec ← Canonical.decode (b.drop 8) Limits.v1
    .ok (UInt64.ofNat (fromLittleEndian (b.take 8)), rec)

/-- The next number of a counter; running past its width is a panic. -/
def checkedSucc (n : ℕ) : CoreResult ℕ :=
  if n + 1 < 2 ^ 64 then .ok (n + 1) else .error .panicked

namespace Store

section Reads

def requireRecovered (s : Store) : CoreResult Unit :=
  if s.recoveryRequired then
    .error (.new .notReady
      "durable operation failed; close and reopen the store to recover before further access")
  else .ok ()

def currentReadiness (s : Store) : Readiness := if s.recoveryRequired then .failed else s.readiness

/-- The value of an entry, unless it is a tombstone. -/
def valueOf : Option (LeafEntry Bytes) → CoreResult (Option Bytes)
  | none => .ok none
  | some e => if e.isTombstone then .ok none else e.readValue.map some

def currentValue (s : Store) (key : Bytes) : CoreResult (Option Bytes) := do
  let e ← s.tree.getVersion key s.durableCommitSeq
  valueOf e

/-- The protocol record at a key, with its revision. -/
def currentRecord (s : Store) (key : LogicalKey) :
    CoreResult (Option (RecordRevision × VersionedProtocolRecord)) := do
  match ← s.currentValue key with
  | none => .ok none
  | some v => (decodeRecordValue v).map some

def txnStatus (s : Store) (txn : TxnId) : CoreResult (Option TxnStatusRecord) := do
  s.requireRecovered
  match ← s.currentValue (txnStatusKey txn) with
  | none => .ok none
  | some v => (Canonical.decode v Limits.v1).map some

/-- The sequence a snapshot reads at. -/
def readPoint (s : Store) (snap : LocalSnapshot) : CoreResult ℕ := do
  s.requireRecovered
  if snap.epoch ≠ s.storageEpoch then
    .error (.new .staleEpoch "snapshot from another storage epoch")
  else .ok (min snap.visibleSeq s.durableCommitSeq)

/-- Named after the call it models; `get` is taken. -/
def getRow (s : Store) (key : LogicalKey) (snap : LocalSnapshot) : CoreResult (Option Bytes) := do
  let visible ← s.readPoint snap
  let e ← s.tree.getVersion key visible
  valueOf e

/-- The rows among the entries, up to the limit. -/
def liveRows (limit : ℕ) :
    List (LeafEntry Bytes) → List (LogicalKey × Bytes) → CoreResult (List (LogicalKey × Bytes))
  | [], out => .ok out
  | e :: es, out =>
    if e.isTombstone then liveRows limit es out
    else do
      let v ← e.readValue
      if limit ≤ (out ++ [(e.key, v)]).length then .ok (out ++ [(e.key, v)])
      else liveRows limit es (out ++ [(e.key, v)])

/-- Twice the limit is the most a counter can hold. -/
def scan (s : Store) (start : Bytes) (end_ : Option Bytes) (snap : LocalSnapshot) (limit : ℕ) :
    CoreResult (List (LogicalKey × Bytes)) := do
  let visible ← s.readPoint snap
  let entries ← s.tree.scanVisible start end_ visible (max (min (limit * 2) u64Max) limit)
  liveRows limit entries []

def verify (s : Store) : CoreResult VerifyStats := do
  s.requireRecovered
  s.tree.verify

end Reads

section Validation

/-- The caps on a key and a value. -/
def checkSize (m : StorageMutation) : CoreResult Unit :=
  let valueLen := match m with
    | .put _ v _ => v.length
    | .delete _ _ => 0
  if maxKeyLen < m.key.length then
    .error (.new .keyTooLarge ("key of " ++ toString m.key.length ++ " bytes exceeds MAX_KEY_LEN"))
  else if maxValueLen < valueLen then
    .error (.new .valueTooLarge ("value of " ++ toString valueLen ++ " bytes exceeds MAX_VALUE_LEN"))
  else .ok ()

def checkSizes : List StorageMutation → CoreResult Unit
  | [] => .ok ()
  | m :: ms => do
    checkSize m
    checkSizes ms

def validateAdmission (s : Store) (batch : CompiledBatch) : CoreResult Unit := do
  s.requireRecovered
  batch.verify
  checkSizes batch.mutations
  if s.readiness ≠ .ready then
    .error (.new .notReady ("store readiness is " ++ s.readiness.label))
  else if batch.plan.generation < s.minPlanGeneration then
    .error (.new .stalePlan ("plan generation " ++ toString batch.plan.generation ++
      " below active minimum " ++ toString s.minPlanGeneration))
  else if s.activeSchema.any (fun schema => batch.schemaHash ≠ schema) then
    .error (.new .staleSchema "batch schema hash does not match the active schema")
  else .ok ()

/-- A transaction with a durable decision is not committed a second time. -/
def refuseDecidedTxn (s : Store) (txn : TxnId) : CoreResult Unit := do
  match (← s.txnStatus txn).map TxnStatusRecord.phase with
  | some .aborted =>
    .error (.new .txnAlreadyAborted
      "duplicate commit of an aborted transaction refused (SPEC-002 §69)")
  | some .installed | some .terminal =>
    .error (.new .txnAlreadyCommitted
      "duplicate commit of a decided transaction refused (SPEC-002 §69)")
  | _ => .ok ()

/-- An identical record that is there already satisfies a write that expects none. -/
def checkRecordWrite (w : ProtocolRecordWrite) :
    Option (RecordRevision × VersionedProtocolRecord) → CoreResult Unit
  | none =>
    match w.expected with
    | .absent => .ok ()
    | .exact _ => .error (.new .conflict "protocol record absent; expected exact revision")
  | some (rev, existing) =>
    match w.expected with
    | .absent =>
      if existing = w.next then .ok ()
      else .error (.new .conflict
        ("protocol record exists at revision " ++ toString rev ++ "; expected absent"))
    | .exact r =>
      if r = rev then .ok ()
      else .error (.new .conflict
        ("protocol record revision " ++ toString rev ++ " != expected " ++ toString r))

def checkStatusWrite (t : TxnStatusTransition) (prev : Option TxnStatusRecord) : CoreResult Unit :=
  match t.expectedRevision, prev with
  | .absent, none => TxnStatusRecord.validateTransition prev t.next
  | .absent, some p =>
    if p = t.next then .ok ()
    else .error (.new .conflict "txn status exists; expected absent")
  | .exact r, some p =>
    if r = p.revision then TxnStatusRecord.validateTransition prev t.next
    else .error (.new .conflict
      ("txn status revision " ++ toString p.revision ++ " != expected " ++ toString r))
  | .exact _, none => .error (.new .conflict "txn status absent; expected exact revision")

/-- Preconditions of the protocol mutations against the committed state; `seen` are the record keys
met before. -/
def validateProtocolPreconditions (s : Store) (seen : List LogicalKey) :
    List ProtocolMutation → CoreResult Unit
  | [] => .ok ()
  | .putRecord w :: ms =>
    if w.key.logicalKey ∈ seen then
      .error (.new .conflict "duplicate protocol record key in one batch")
    else do
      checkRecordWrite w (← s.currentRecord w.key.logicalKey)
      s.validateProtocolPreconditions (w.key.logicalKey :: seen) ms
  | .setTxnStatus t :: ms => do
    checkStatusWrite t (← s.txnStatus t.txnId)
    s.validateProtocolPreconditions seen ms

end Validation

end Store

end CarolinaDB.Storage
