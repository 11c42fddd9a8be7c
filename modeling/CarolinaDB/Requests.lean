import CarolinaDB.CatalogRecords
import CarolinaDB.TxnStatus

/-!
# Requests, bindings and replies

The content of a request and its hash, the durable binding of a request key to a
transaction, and what a client is answered. A binding is only read if it is
consistent with its state.
-/
namespace CarolinaDB

open CanonValue

section ReadContract

inductive Visibility
  | localSnapshot | causal | certified | serial
  deriving DecidableEq, Repr

namespace Visibility

def label : Visibility → String
  | localSnapshot => "LocalSnapshot"
  | causal => "Causal"
  | certified => "Certified"
  | serial => "Serial"

def fromLabel : String → CoreResult Visibility
  | "LocalSnapshot" => .ok localSnapshot
  | "Causal" => .ok causal
  | "Certified" => .ok certified
  | "Serial" => .ok serial
  | k => .error (.new .nonCanonicalEncoding ("visibility " ++ k))

instance : Canonical Visibility where
  toCanon v := .str v.label
  fromCanon v := do fromLabel (← v.asStr)

end Visibility

inductive SessionGuarantee
  | readYourWrites | monotonicReads | causalDependencies
  deriving DecidableEq, Repr

namespace SessionGuarantee

def label : SessionGuarantee → String
  | readYourWrites => "ReadYourWrites"
  | monotonicReads => "MonotonicReads"
  | causalDependencies => "CausalDependencies"

def fromLabel : String → CoreResult SessionGuarantee
  | "ReadYourWrites" => .ok readYourWrites
  | "MonotonicReads" => .ok monotonicReads
  | "CausalDependencies" => .ok causalDependencies
  | k => .error (.new .nonCanonicalEncoding ("session guarantee " ++ k))

end SessionGuarantee

inductive SessionScope
  | none
  | replicationGroup (group : ReplicationGroupId)
  | compositeScope (records : List RecordId)
  deriving DecidableEq, Repr

namespace SessionScope

def toCanon : SessionScope → CanonValue
  | none => build [("kind", .str "none")]
  | replicationGroup g => build [
      ("group", Canonical.toCanon g),
      ("kind", .str "replication_group")]
  | compositeScope rs => build [
      ("kind", .str "composite_scope"),
      ("records", canonSet rs)]

def fromCanon (v : CanonValue) : CoreResult SessionScope := do
  let kind ← (← v.field "kind").asStr
  if kind = "none" then .ok none
  else if kind = "replication_group" then do
    let g ← v.fieldAs "group"
    .ok (replicationGroup g)
  else if kind = "composite_scope" then do
    let rs ← v.fieldAsSet "records"
    .ok (compositeScope rs)
  else .error (.new .nonCanonicalEncoding ("session scope " ++ kind))

def distinctSets : SessionScope → Bool
  | compositeScope rs => distinctElems rs
  | _ => true

instance : Canonical SessionScope := ⟨toCanon, fromCanon, distinctSets⟩

end SessionScope

structure ReadContractV1 where
  visibility : Visibility
  scope : List RecordId
  sessionGuarantees : List SessionGuarantee
  sessionScope : SessionScope
  deriving DecidableEq, Repr

namespace ReadContractV1

def toCanon (r : ReadContractV1) : CanonValue := build [
  ("scope", canonSet r.scope),
  ("session_guarantees", canonSet (r.sessionGuarantees.map SessionGuarantee.label)),
  ("session_scope", Canonical.toCanon r.sessionScope),
  ("visibility", Canonical.toCanon r.visibility)]

def fromCanon (v : CanonValue) : CoreResult ReadContractV1 := do
  v.expectFields ["scope", "session_guarantees", "session_scope", "visibility"]
  let visibility ← v.fieldAs "visibility"
  let labels : List String ← v.fieldAsSet "session_guarantees"
  let sessionGuarantees ← labels.mapM SessionGuarantee.fromLabel
  let sessionScope ← v.fieldAs "session_scope"
  let scope ← v.fieldAsSet "scope"
  .ok { visibility, scope, sessionGuarantees, sessionScope }

def distinctSets (r : ReadContractV1) : Bool :=
  distinctElems r.scope && (distinctElems (r.sessionGuarantees.map SessionGuarantee.label) &&
    Canonical.distinctSets r.sessionScope)

instance : Canonical ReadContractV1 := ⟨toCanon, fromCanon, distinctSets⟩

end ReadContractV1

end ReadContract

section Content

/-- The complete logical content of an invocation. -/
structure RequestContentV1 where
  requestKey : RequestKey
  operation : OperationRef
  operationHash : OperationHash
  schemaHash : SchemaHash
  contractHash : ContractHash
  arguments : CanonTree
  readContract : ReadContractV1
  initialSession : Option ObservationTokenV1
  deriving DecidableEq, Repr

namespace RequestContentV1

def toCanon (c : RequestContentV1) : CanonValue := build [
  ("arguments", Canonical.toCanon c.arguments),
  ("contract_hash", Canonical.toCanon c.contractHash),
  ("initial_session", Canonical.toCanon c.initialSession),
  ("operation", Canonical.toCanon c.operation),
  ("operation_hash", Canonical.toCanon c.operationHash),
  ("read_contract", Canonical.toCanon c.readContract),
  ("request_key", Canonical.toCanon c.requestKey),
  ("schema_hash", Canonical.toCanon c.schemaHash)]

def fromCanon (v : CanonValue) : CoreResult RequestContentV1 := do
  v.expectFields ["arguments", "contract_hash", "initial_session", "operation", "operation_hash",
    "read_contract", "request_key", "schema_hash"]
  let requestKey ← v.fieldAs "request_key"
  let operation ← v.fieldAs "operation"
  let operationHash ← v.fieldAs "operation_hash"
  let schemaHash ← v.fieldAs "schema_hash"
  let contractHash ← v.fieldAs "contract_hash"
  let arguments ← v.fieldAs "arguments"
  let readContract ← v.fieldAs "read_contract"
  let initialSession ← v.fieldAs "initial_session"
  .ok { requestKey, operation, operationHash, schemaHash, contractHash, arguments, readContract,
        initialSession }

def distinctSets (c : RequestContentV1) : Bool :=
  Canonical.distinctSets c.readContract && Canonical.distinctSets c.initialSession

instance : Canonical RequestContentV1 := ⟨toCanon, fromCanon, distinctSets⟩

end RequestContentV1

end Content

end CarolinaDB
