import CarolinaDB.JournalScan
import CarolinaDB.StoreDecisions

/-!
# Records of the journal

What the frames of the journal record, with the kind and the payload each is written as.
-/
namespace CarolinaDB.Storage

open CanonValue

/-- What a frame records. -/
inductive LogRecord
  | commit (batch : CompiledBatch) (seq : ℕ)
  | protocol (batch : ProtocolOnlyBatch) (seq : ℕ)
  | prepare (batch : CompiledBatch)
  | decision (aborted : Bool) (txn : TxnId) (decisionRef : ProtocolRecordRef) (seq : ℕ)
  | epoch (next : ℕ)
  | checkpointBegin (targetLsn targetSeq : ℕ)
  | checkpointEnd (checkpointLsn : ℕ)

namespace LogRecord

open Store

def kind : LogRecord → JournalRecordKind
  | commit _ _ | protocol _ _ => .commitBatch
  | prepare _ => .prepareBatch
  | decision aborted _ _ _ => if aborted then .abortPrepared else .commitPrepared
  | epoch _ => .storageEpochChange
  | checkpointBegin _ _ => .checkpointBegin
  | checkpointEnd _ => .checkpointEnd

def txn : LogRecord → TxnId
  | commit batch _ | prepare batch => batch.txnId
  | decision _ txn _ _ => txn
  | _ => Octets.zero 32

def payload : LogRecord → CanonValue
  | commit batch seq => commitPayload batch seq
  | protocol batch seq => protocolPayload batch seq
  | prepare batch => preparePayload batch
  | decision aborted txn ref seq =>
    decisionPayload (if aborted then "abort_prepared" else "commit_prepared") ref txn seq
  | epoch next => build [
    ("epoch", uint (UInt64.ofNat next)), ("kind", .str "storage_epoch_change")]
  | checkpointBegin targetLsn targetSeq => build [
    ("kind", .str "checkpoint_begin"), ("target_lsn", uint (UInt64.ofNat targetLsn)),
    ("target_seq", uint (UInt64.ofNat targetSeq))]
  | checkpointEnd checkpointLsn => build [
    ("checkpoint_lsn", uint (UInt64.ofNat checkpointLsn)), ("kind", .str "checkpoint_end")]

def frame (lsn : ℕ) (r : LogRecord) : JournalFrame :=
  ⟨r.kind, 0, UInt64.ofNat lsn, r.txn, r.payload.encode⟩

end LogRecord

end CarolinaDB.Storage
