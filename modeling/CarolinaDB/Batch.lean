import CarolinaDB.BTreePage
import CarolinaDB.KeyCodec
import CarolinaDB.WireRecords

/-!
# Batches

What crosses the durable boundary: business mutations, protocol record writes
with their expected revision, and status transitions of the transaction.
-/
namespace CarolinaDB.Storage

open CanonValue

def batchVersion : UInt32 := 1

abbrev LogicalKey := Bytes

def flagSystem : UInt8 := 0x02

structure SemanticMeta where
  flags : UInt8
  bytes : Bytes
  deriving DecidableEq, Repr

namespace SemanticMeta

def toCanon (m : SemanticMeta) : CanonValue := build [
  ("bytes", Canonical.toCanon m.bytes),
  ("flags", Canonical.toCanon m.flags.toUInt32)]

def fromCanon (v : CanonValue) : CoreResult SemanticMeta := do
  v.expectFields ["bytes", "flags"]
  let flags : UInt32 ← v.fieldAs "flags"
  let bytes ← v.fieldAs "bytes"
  .ok ⟨flags.toUInt8, bytes⟩

instance : Canonical SemanticMeta := ⟨toCanon, fromCanon, fun _ => true⟩

instance : ExactCanonical SemanticMeta where
  sorted_toCanon m := sorted_build (by simp)
  fromCanon_toCanon m := by
    change fromCanon (toCanon m) = _
    simp [fromCanon, toCanon]

end SemanticMeta

inductive StorageMutation
  | put (key : LogicalKey) (value : Bytes) (semanticMeta : SemanticMeta)
  | delete (key : LogicalKey) (semanticMeta : SemanticMeta)
  deriving DecidableEq, Repr

namespace StorageMutation

def key : StorageMutation → LogicalKey
  | put k _ _ => k
  | delete k _ => k

def toCanon : StorageMutation → CanonValue
  | put k v m => build [
      ("key", Canonical.toCanon k),
      ("kind", .str "put"),
      ("semantic_meta", Canonical.toCanon m),
      ("value", Canonical.toCanon v)]
  | delete k m => build [
      ("key", Canonical.toCanon k),
      ("kind", .str "delete"),
      ("semantic_meta", Canonical.toCanon m)]

def fromCanon (v : CanonValue) : CoreResult StorageMutation := do
  let kind : String ← v.fieldAs "kind"
  if kind = "put" then do
    v.expectFields ["key", "kind", "semantic_meta", "value"]
    let k ← v.fieldAs "key"
    let value ← v.fieldAs "value"
    let m ← v.fieldAs "semantic_meta"
    .ok (put k value m)
  else if kind = "delete" then do
    v.expectFields ["key", "kind", "semantic_meta"]
    let k ← v.fieldAs "key"
    let m ← v.fieldAs "semantic_meta"
    .ok (delete k m)
  else .error (.new .nonCanonicalEncoding ("mutation kind " ++ kind))

instance : Canonical StorageMutation := ⟨toCanon, fromCanon, fun _ => true⟩

instance : ExactCanonical StorageMutation where
  sorted_toCanon m := by cases m <;> exact sorted_build (by simp [sorted])
  fromCanon_toCanon m := by
    change fromCanon (toCanon m) = _
    cases m <;> simp [fromCanon, toCanon]

end StorageMutation

/-- There is no unchecked overwrite of a protocol record. -/
inductive ExpectedRecordRevision
  | absent
  | exact (revision : RecordRevision)
  deriving DecidableEq, Repr

namespace ExpectedRecordRevision

def toCanon : ExpectedRecordRevision → CanonValue
  | absent => build [("kind", .str "absent")]
  | exact r => build [("kind", .str "exact"), ("revision", Canonical.toCanon r)]

def fromCanon (v : CanonValue) : CoreResult ExpectedRecordRevision := do
  let kind : String ← v.fieldAs "kind"
  if kind = "absent" then .ok absent
  else if kind = "exact" then do
    let r ← v.fieldAs "revision"
    .ok (exact r)
  else .error (.new .nonCanonicalEncoding ("expected revision kind " ++ kind))

instance : Canonical ExpectedRecordRevision := ⟨toCanon, fromCanon, fun _ => true⟩

instance : ExactCanonical ExpectedRecordRevision where
  sorted_toCanon e := by cases e <;> exact sorted_build (by simp [sorted])
  fromCanon_toCanon e := by
    change fromCanon (toCanon e) = _
    cases e <;> simp [fromCanon, toCanon]

end ExpectedRecordRevision

structure ProtocolRecordKey where
  recordKind : String
  scopeKey : Bytes
  recordId : Bytes
  deriving DecidableEq, Repr

namespace ProtocolRecordKey

/-- The namespace records of a kind are kept in. -/
def kindNamespace : String → Namespace
  | "txn_status" | "local_decision" => .txnStatus
  | "request_binding" | "namespace_retirement" | "final_receipt" => .requestBinding
  | "holder_state" | "transfer_terms" | "transfer_decision" => .escrow
  | "semantic_commit" | "causal_context" | "outbox" | "inbox" => .replication
  | "plan" | "artifact" => .plan
  | "authority_grant" | "catalog_command" | "catalog_commit" | "migration_record"
  | "close_certificate" => .catalog
  | _ => .system

def logicalKey (k : ProtocolRecordKey) : LogicalKey :=
  (kindNamespace k.recordKind).toByte ::
    (keyStr k.recordKind ++ (keyBytes k.scopeKey ++ keyBytes k.recordId))

def toCanon (k : ProtocolRecordKey) : CanonValue := build [
  ("record_id", Canonical.toCanon k.recordId),
  ("record_kind", Canonical.toCanon k.recordKind),
  ("scope_key", Canonical.toCanon k.scopeKey)]

def fromCanon (v : CanonValue) : CoreResult ProtocolRecordKey := do
  v.expectFields ["record_id", "record_kind", "scope_key"]
  let recordKind ← v.fieldAs "record_kind"
  let scopeKey ← v.fieldAs "scope_key"
  let recordId ← v.fieldAs "record_id"
  .ok ⟨recordKind, scopeKey, recordId⟩

instance : Canonical ProtocolRecordKey := ⟨toCanon, fromCanon, fun _ => true⟩

instance : ExactCanonical ProtocolRecordKey where
  sorted_toCanon k := sorted_build (by simp)
  fromCanon_toCanon k := by
    change fromCanon (toCanon k) = _
    simp [fromCanon, toCanon]

end ProtocolRecordKey

/-- The closed registry of record kinds. -/
def registeredKinds : List (String × UInt32) := [
  ("request_content", 1), ("invoke", 1), ("client_reply", 1), ("resolve_request", 1),
  ("resolve_reply", 1), ("request_binding", 1), ("accepted_result", 1), ("final_receipt", 1),
  ("result_tombstone", 1), ("observation_token", 1), ("read_contract", 1), ("hello", 1),
  ("hello_ack", 1), ("snapshot_manifest", 1), ("snapshot_chunk", 1), ("codec_manifest", 1),
  ("compiled_batch", 1), ("protocol_only_batch", 1), ("txn_status", 1), ("local_decision", 1),
  ("namespace_retirement", 1), ("authority_grant", 1), ("request_home_state", 1),
  ("catalog_command", 1), ("catalog_commit", 1), ("migration_record", 1),
  ("close_certificate", 1), ("semantic_commit", 1), ("causal_context", 1), ("session_token", 1),
  ("holder_state", 1), ("transfer_terms", 1), ("transfer_decision", 1), ("txn_begin", 1),
  ("prepare_vote", 1), ("decision_certificate", 1), ("installed", 1),
  ("publication_certificate", 1), ("publish_seen", 1), ("completion_certificate", 1)]

def isRegistered (kind : String) (version : UInt32) : Bool :=
  registeredKinds.any fun r => r.1 = kind ∧ r.2 = version

structure VersionedProtocolRecord where
  recordKind : String
  recordVersion : UInt32
  canonicalPayload : Bytes
  deriving DecidableEq, Repr

namespace VersionedProtocolRecord

def validate (r : VersionedProtocolRecord) : CoreResult Unit :=
  if ¬ isRegistered r.recordKind r.recordVersion then
    .error (.new .unsupportedCodec
      ("unregistered protocol record " ++ r.recordKind ++ ":" ++ toString r.recordVersion))
  else do
    let _ ← CanonValue.decode r.canonicalPayload Limits.v1
    .ok ()

def reference (r : VersionedProtocolRecord) (key : ProtocolRecordKey) : ProtocolRecordRef where
  recordKind := r.recordKind
  recordVersion := r.recordVersion
  recordKey := key.logicalKey
  payloadHash := domainHash "astra.protocol-record.v1" r.canonicalPayload

def toCanon (r : VersionedProtocolRecord) : CanonValue := build [
  ("canonical_payload", Canonical.toCanon r.canonicalPayload),
  ("record_kind", Canonical.toCanon r.recordKind),
  ("record_version", Canonical.toCanon r.recordVersion)]

def fromCanon (v : CanonValue) : CoreResult VersionedProtocolRecord := do
  v.expectFields ["canonical_payload", "record_kind", "record_version"]
  let recordKind ← v.fieldAs "record_kind"
  let recordVersion ← v.fieldAs "record_version"
  let canonicalPayload ← v.fieldAs "canonical_payload"
  .ok ⟨recordKind, recordVersion, canonicalPayload⟩

instance : Canonical VersionedProtocolRecord := ⟨toCanon, fromCanon, fun _ => true⟩

instance : ExactCanonical VersionedProtocolRecord where
  sorted_toCanon r := sorted_build (by simp)
  fromCanon_toCanon r := by
    change fromCanon (toCanon r) = _
    simp [fromCanon, toCanon]

end VersionedProtocolRecord

structure ProtocolRecordWrite where
  key : ProtocolRecordKey
  expected : ExpectedRecordRevision
  next : VersionedProtocolRecord
  deriving DecidableEq, Repr

namespace ProtocolRecordWrite

def toCanon (w : ProtocolRecordWrite) : CanonValue := build [
  ("expected", Canonical.toCanon w.expected),
  ("key", Canonical.toCanon w.key),
  ("next", Canonical.toCanon w.next)]

def fromCanon (v : CanonValue) : CoreResult ProtocolRecordWrite := do
  v.expectFields ["expected", "key", "next"]
  let key ← v.fieldAs "key"
  let expected ← v.fieldAs "expected"
  let next ← v.fieldAs "next"
  .ok ⟨key, expected, next⟩

instance : Canonical ProtocolRecordWrite := ⟨toCanon, fromCanon, fun _ => true⟩

instance : ExactCanonical ProtocolRecordWrite where
  sorted_toCanon w := sorted_build (by simp)
  fromCanon_toCanon w := by
    change fromCanon (toCanon w) = _
    simp [fromCanon, toCanon]

end ProtocolRecordWrite

end CarolinaDB.Storage
