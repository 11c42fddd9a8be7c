import CarolinaDB.Ids

/-! Results and receipts: the records that fix what a request was answered. -/
namespace CarolinaDB

open CanonValue

@[simp] lemma fromCanon_str (s : String) : (fromCanon (.str s) : CoreResult String) = .ok s := rfl

/-- A token of what a client has observed. -/
inductive ObservationTokenV1
  | group (group : ReplicationGroupId) (membershipGeneration : MembershipGeneration)
      (payload : Bytes)
  | certified (authority : AuthorityId) (idcBindings : List IdcBinding) (frontier : SerialPosition)
  | serial (authority : AuthorityId) (idcBinding : IdcBinding) (position : SerialPosition)
  | composite (payload : Bytes)
  deriving DecidableEq, Repr

namespace ObservationTokenV1

def toCanon : ObservationTokenV1 → CanonValue
  | group g m p => build [
      ("group", Canonical.toCanon g),
      ("kind", .str "group"),
      ("membership_generation", Canonical.toCanon m),
      ("payload", Canonical.toCanon p)]
  | certified a bs f => build [
      ("authority", Canonical.toCanon a),
      ("frontier", Canonical.toCanon f),
      ("idc_bindings", canonSet bs),
      ("kind", .str "certified")]
  | serial a b p => build [
      ("authority", Canonical.toCanon a),
      ("idc_binding", Canonical.toCanon b),
      ("kind", .str "serial"),
      ("position", Canonical.toCanon p)]
  | composite p => build [
      ("kind", .str "composite"),
      ("payload", Canonical.toCanon p)]

def fromCanon (v : CanonValue) : CoreResult ObservationTokenV1 := do
  let kind : String ← v.fieldAs "kind"
  if kind = "group" then do
    v.expectFields ["group", "kind", "membership_generation", "payload"]
    let g ← v.fieldAs "group"
    let m ← v.fieldAs "membership_generation"
    let p ← v.fieldAs "payload"
    .ok (group g m p)
  else if kind = "certified" then do
    v.expectFields ["authority", "frontier", "idc_bindings", "kind"]
    let a ← v.fieldAs "authority"
    let bs ← v.fieldAsSet "idc_bindings"
    let f ← v.fieldAs "frontier"
    .ok (certified a bs f)
  else if kind = "serial" then do
    v.expectFields ["authority", "idc_binding", "kind", "position"]
    let a ← v.fieldAs "authority"
    let b ← v.fieldAs "idc_binding"
    let p ← v.fieldAs "position"
    .ok (serial a b p)
  else if kind = "composite" then do
    v.expectFields ["kind", "payload"]
    let p ← v.fieldAs "payload"
    .ok (composite p)
  else .error (.new .unsupportedSessionScope ("unsupported token family `" ++ kind ++ "`"))

def distinctSets : ObservationTokenV1 → Bool
  | certified _ bs _ => distinctElems bs
  | _ => true

/-- As it is read back. -/
def normal : ObservationTokenV1 → ObservationTokenV1
  | certified a bs f => certified a (naturalOrder bs) f
  | t => t

instance : Canonical ObservationTokenV1 := ⟨toCanon, fromCanon, distinctSets⟩

instance : LawfulCanonical ObservationTokenV1 where
  sound _ := true
  normal := normal
  sorted_toCanon t := by
    cases t <;> exact sorted_build (by simp [sorted])
  fromCanon_toCanon t h b := by
    have heq : fromCanon (toCanon t) = .ok (normal t) := by
      cases t with
      | certified a bs f =>
        have hd : distinctElems bs := h
        simp [fromCanon, toCanon, normal, hd]
      | _ => simp [fromCanon, toCanon, normal]
    change fromCanon (toCanon t) = _ ↔ _
    rw [heq]
    simp [eq_comm]
  toCanon_normal t h := by
    cases t with
    | certified a bs f =>
      change toCanon (normal _) = toCanon _
      rw [normal, toCanon, toCanon, canonSet_naturalOrder h]
    | _ => rfl
  distinctSets_normal t h := by
    cases t with
    | certified a bs f => exact distinctElems_naturalOrder h
    | _ => rfl

instance : NonNull ObservationTokenV1 where
  toCanon_ne_null t := by cases t <;> simp [Canonical.toCanon, toCanon, build]

end ObservationTokenV1

/-- The decision on a request. -/
inductive Outcome
  | committed
  | rejected
  deriving DecidableEq, Repr

namespace Outcome

def label : Outcome → String
  | committed => "COMMITTED"
  | rejected => "REJECTED"

def fromLabel : String → CoreResult Outcome
  | "COMMITTED" => .ok committed
  | "REJECTED" => .ok rejected
  | k => .error (.new .nonCanonicalEncoding ("outcome " ++ k))

instance : Canonical Outcome where
  toCanon o := .str o.label
  fromCanon v := do fromLabel (← v.asStr)

instance : ExactCanonical Outcome where
  sorted_toCanon _ := rfl
  fromCanon_toCanon o := by cases o <;> rfl

end Outcome

def resultDigest (resultCodec : String) (resultTypeHash : Hash256) (exactResultBytes : Bytes) :
    ResultDigest :=
  domainHash "astra.result.v1" (build [
    ("exact_result_bytes", toCanon exactResultBytes),
    ("result_codec", toCanon resultCodec),
    ("result_type_hash", toCanon resultTypeHash)]).encode

/-- What is fixed of a result at the decision. -/
structure AcceptedResultV1 where
  outcome : Outcome
  resultCodec : String
  resultTypeHash : Hash256
  exactResultBytes : Bytes
  resultDigest : ResultDigest
  commitments : CanonTree
  acceptedObservation : Option ObservationTokenV1
  deriving DecidableEq, Repr

namespace AcceptedResultV1

def verifyDigest (r : AcceptedResultV1) : CoreResult Unit :=
  if CarolinaDB.resultDigest r.resultCodec r.resultTypeHash r.exactResultBytes ≠ r.resultDigest then
    .error (.new .corruption "result digest mismatch")
  else .ok ()

def toCanon (r : AcceptedResultV1) : CanonValue := build [
  ("accepted_observation", Canonical.toCanon r.acceptedObservation),
  ("commitments", Canonical.toCanon r.commitments),
  ("exact_result_bytes", Canonical.toCanon r.exactResultBytes),
  ("outcome", Canonical.toCanon r.outcome),
  ("result_codec", Canonical.toCanon r.resultCodec),
  ("result_digest", Canonical.toCanon r.resultDigest),
  ("result_type_hash", Canonical.toCanon r.resultTypeHash)]

def fromCanon (v : CanonValue) : CoreResult AcceptedResultV1 := do
  v.expectFields ["accepted_observation", "commitments", "exact_result_bytes", "outcome",
    "result_codec", "result_digest", "result_type_hash"]
  let outcome ← v.fieldAs "outcome"
  let resultCodec ← v.fieldAs "result_codec"
  let resultTypeHash ← v.fieldAs "result_type_hash"
  let exactResultBytes ← v.fieldAs "exact_result_bytes"
  let resultDigest ← v.fieldAs "result_digest"
  let commitments ← v.fieldAs "commitments"
  let acceptedObservation ← v.fieldAs "accepted_observation"
  let r : AcceptedResultV1 := ⟨outcome, resultCodec, resultTypeHash, exactResultBytes,
    resultDigest, commitments, acceptedObservation⟩
  r.verifyDigest
  .ok r

def distinctSets (r : AcceptedResultV1) : Bool := Canonical.distinctSets r.acceptedObservation

/-- As it is read back. -/
def normal (r : AcceptedResultV1) : AcceptedResultV1 :=
  { r with acceptedObservation := LawfulCanonical.normal r.acceptedObservation }

instance : Canonical AcceptedResultV1 := ⟨toCanon, fromCanon, distinctSets⟩

lemma sound_observation (o : Option ObservationTokenV1) : sound o := by
  cases o <;> rfl

instance : LawfulCanonical AcceptedResultV1 where
  sound r := r.verifyDigest = .ok ()
  normal := normal
  sorted_toCanon r := sorted_build (by simp [LawfulCanonical.sorted_toCanon])
  fromCanon_toCanon r h b := by
    have hd : Canonical.distinctSets r.acceptedObservation := h
    have hobs := fromCanon_eq_ok_normal hd (sound_observation r.acceptedObservation)
    have hverify : (normal r).verifyDigest = r.verifyDigest := rfl
    change fromCanon (toCanon r) = _ ↔ _
    simp only [fromCanon, toCanon]
    simp only [expectFields_build, List.map_cons, List.map_nil, implies_true, CoreResult.ok_bind,
      fieldAs_build, lookup_cons_eq, reduceIte, String.reduceEq, ExactCanonical.fromCanon_toCanon,
      hobs]
    change ((normal r).verifyDigest >>= fun _ => .ok (normal r)) = _ ↔ _
    rw [hverify]
    cases r.verifyDigest <;> simp [eq_comm]
  toCanon_normal r h := by
    have := LawfulCanonical.toCanon_normal r.acceptedObservation h
    change toCanon (normal r) = toCanon r
    simp only [toCanon, normal, this]
  distinctSets_normal r h := LawfulCanonical.distinctSets_normal r.acceptedObservation h

instance : NonNull AcceptedResultV1 := ⟨fun _ => by simp [Canonical.toCanon, toCanon, build]⟩

end AcceptedResultV1

structure PolicyRef where
  name : String
  policyHash : Hash256
  deriving DecidableEq, Repr

namespace PolicyRef

def toCanon (p : PolicyRef) : CanonValue := build [
  ("name", Canonical.toCanon p.name),
  ("policy_hash", Canonical.toCanon p.policyHash)]

def fromCanon (v : CanonValue) : CoreResult PolicyRef := do
  v.expectFields ["name", "policy_hash"]
  let name ← v.fieldAs "name"
  let policyHash ← v.fieldAs "policy_hash"
  .ok { name, policyHash }

instance : Canonical PolicyRef := ⟨toCanon, fromCanon, fun _ => true⟩

instance : ExactCanonical PolicyRef where
  sorted_toCanon p := sorted_build (by simp)
  fromCanon_toCanon p := by
    change fromCanon (toCanon p) = _
    simp [fromCanon, toCanon]

end PolicyRef

/-- The exact final receipt of a request. -/
structure FinalReceiptV1 where
  receiptVersion : UInt32
  clusterId : ClusterId
  requestKey : RequestKey
  requestHash : RequestHash
  txnId : Octets 32
  operation : OperationRef
  operationHash : OperationHash
  schemaHash : SchemaHash
  contractHash : ContractHash
  plan : PlanRef
  idcBindings : List IdcBinding
  originIds : List OriginId
  outcome : Outcome
  resultCodec : String
  resultTypeHash : Hash256
  exactResultBytes : Bytes
  resultDigest : ResultDigest
  commitments : CanonTree
  observationToken : Option ObservationTokenV1
  durabilityPolicy : PolicyRef
  durabilityEvidence : List ProtocolRecordRef
  decisionRef : ProtocolRecordRef
  completionRef : Option ProtocolRecordRef
  deriving DecidableEq, Repr

namespace FinalReceiptV1

def version : UInt32 := 1

def acceptedResult (r : FinalReceiptV1) : AcceptedResultV1 where
  outcome := r.outcome
  resultCodec := r.resultCodec
  resultTypeHash := r.resultTypeHash
  exactResultBytes := r.exactResultBytes
  resultDigest := r.resultDigest
  commitments := r.commitments
  acceptedObservation := r.observationToken

def verify (r : FinalReceiptV1) : CoreResult Unit :=
  if r.receiptVersion ≠ version then .error (.new .unsupportedCodec "unsupported receipt version")
  else r.acceptedResult.verifyDigest

def toCanon (r : FinalReceiptV1) : CanonValue := build [
  ("cluster_id", Canonical.toCanon r.clusterId),
  ("commitments", Canonical.toCanon r.commitments),
  ("completion_ref", Canonical.toCanon r.completionRef),
  ("contract_hash", Canonical.toCanon r.contractHash),
  ("decision_ref", Canonical.toCanon r.decisionRef),
  ("durability_evidence", canonSet r.durabilityEvidence),
  ("durability_policy", Canonical.toCanon r.durabilityPolicy),
  ("exact_result_bytes", Canonical.toCanon r.exactResultBytes),
  ("idc_bindings", canonSet r.idcBindings),
  ("operation", Canonical.toCanon r.operation),
  ("operation_hash", Canonical.toCanon r.operationHash),
  ("observation_token", Canonical.toCanon r.observationToken),
  ("origin_ids", canonSet r.originIds),
  ("outcome", Canonical.toCanon r.outcome),
  ("plan", Canonical.toCanon r.plan),
  ("receipt_version", Canonical.toCanon r.receiptVersion),
  ("request_hash", Canonical.toCanon r.requestHash),
  ("request_key", Canonical.toCanon r.requestKey),
  ("result_codec", Canonical.toCanon r.resultCodec),
  ("result_digest", Canonical.toCanon r.resultDigest),
  ("result_type_hash", Canonical.toCanon r.resultTypeHash),
  ("schema_hash", Canonical.toCanon r.schemaHash),
  ("txn_id", Canonical.toCanon r.txnId)]

def fromCanon (v : CanonValue) : CoreResult FinalReceiptV1 := do
  v.expectFields ["cluster_id", "commitments", "completion_ref", "contract_hash", "decision_ref",
    "durability_evidence", "durability_policy", "exact_result_bytes", "idc_bindings", "operation",
    "operation_hash", "observation_token", "origin_ids", "outcome", "plan", "receipt_version",
    "request_hash", "request_key", "result_codec", "result_digest", "result_type_hash",
    "schema_hash", "txn_id"]
  let receiptVersion ← v.fieldAs "receipt_version"
  let clusterId ← v.fieldAs "cluster_id"
  let requestKey ← v.fieldAs "request_key"
  let requestHash ← v.fieldAs "request_hash"
  let txnId ← v.fieldAs "txn_id"
  let operation ← v.fieldAs "operation"
  let operationHash ← v.fieldAs "operation_hash"
  let schemaHash ← v.fieldAs "schema_hash"
  let contractHash ← v.fieldAs "contract_hash"
  let plan ← v.fieldAs "plan"
  let idcBindings ← v.fieldAsSet "idc_bindings"
  let originIds ← v.fieldAsSet "origin_ids"
  let outcome ← v.fieldAs "outcome"
  let resultCodec ← v.fieldAs "result_codec"
  let resultTypeHash ← v.fieldAs "result_type_hash"
  let exactResultBytes ← v.fieldAs "exact_result_bytes"
  let resultDigest ← v.fieldAs "result_digest"
  let commitments ← v.fieldAs "commitments"
  let observationToken ← v.fieldAs "observation_token"
  let durabilityPolicy ← v.fieldAs "durability_policy"
  let durabilityEvidence ← v.fieldAsSet "durability_evidence"
  let decisionRef ← v.fieldAs "decision_ref"
  let completionRef ← v.fieldAs "completion_ref"
  let r : FinalReceiptV1 := ⟨receiptVersion, clusterId, requestKey, requestHash, txnId, operation,
    operationHash, schemaHash, contractHash, plan, idcBindings, originIds, outcome, resultCodec,
    resultTypeHash, exactResultBytes, resultDigest, commitments, observationToken,
    durabilityPolicy, durabilityEvidence, decisionRef, completionRef⟩
  r.verify
  .ok r

def distinctSets (r : FinalReceiptV1) : Bool :=
  distinctElems r.durabilityEvidence && (distinctElems r.idcBindings &&
    (distinctElems r.originIds && Canonical.distinctSets r.observationToken))

/-- As it is read back. -/
def normal (r : FinalReceiptV1) : FinalReceiptV1 :=
  { r with
    idcBindings := naturalOrder r.idcBindings
    originIds := naturalOrder r.originIds
    observationToken := LawfulCanonical.normal r.observationToken
    durabilityEvidence := naturalOrder r.durabilityEvidence }

instance : Canonical FinalReceiptV1 := ⟨toCanon, fromCanon, distinctSets⟩

instance : LawfulCanonical FinalReceiptV1 where
  sound r := r.verify = .ok ()
  normal := normal
  sorted_toCanon r := sorted_build (by simp [LawfulCanonical.sorted_toCanon])
  fromCanon_toCanon r h b := by
    have h' : distinctSets r := h
    simp only [distinctSets, Bool.and_eq_true] at h'
    obtain ⟨hev, hidc, horig, hobs'⟩ := h'
    have hobs := fromCanon_eq_ok_normal hobs'
      (AcceptedResultV1.sound_observation r.observationToken)
    have hverify : (normal r).verify = r.verify := rfl
    change fromCanon (toCanon r) = _ ↔ _
    simp only [fromCanon, toCanon]
    simp only [expectFields_build, List.map_cons, List.map_nil, implies_true, CoreResult.ok_bind,
      fieldAs_build, fieldAsSet_build, lookup_cons_eq, reduceIte, String.reduceEq,
      ExactCanonical.fromCanon_toCanon, hobs, decodeSet_canonSet, hev, hidc, horig]
    change ((normal r).verify >>= fun _ => .ok (normal r)) = _ ↔ _
    rw [hverify]
    cases r.verify <;> simp [eq_comm]
  toCanon_normal r h := by
    have h' : distinctSets r := h
    simp only [distinctSets, Bool.and_eq_true] at h'
    have := LawfulCanonical.toCanon_normal r.observationToken h'.2.2.2
    change toCanon (normal r) = toCanon r
    simp only [toCanon, normal, this, canonSet_naturalOrder, h'.1, h'.2.1, h'.2.2.1]
  distinctSets_normal r h := by
    have h' : distinctSets r := h
    simp only [distinctSets, Bool.and_eq_true] at h'
    have hobs := LawfulCanonical.distinctSets_normal r.observationToken h'.2.2.2
    change distinctSets (normal r)
    simp only [distinctSets, normal, Bool.and_eq_true]
    exact ⟨distinctElems_naturalOrder h'.1, distinctElems_naturalOrder h'.2.1,
      distinctElems_naturalOrder h'.2.2.1, hobs⟩

end FinalReceiptV1

end CarolinaDB
