import CarolinaDB.TxnStatus

/-! The atomic local boundary: a compiled batch with the digest of its payload,
and the batch of protocol records alone. -/
namespace CarolinaDB.Storage

open CanonValue

structure CompiledBatch where
  batchVersion : UInt32
  txnId : TxnId
  requestKey : RequestKey
  requestHash : RequestHash
  operation : OperationRef
  operationHash : OperationHash
  contractHash : ContractHash
  schemaHash : SchemaHash
  plan : PlanRef
  idcBindings : List IdcBinding
  consistencyClass : ConsistencyClass
  origin : Option OriginId
  semanticEvidence : List ProtocolRecordRef
  capturedInputs : Bytes
  mutations : List StorageMutation
  protocolMutations : List ProtocolMutation
  terminalOutcome : Option TerminalOutcome
  semanticDigest : SemanticDigest
  deriving DecidableEq, Repr

namespace CompiledBatch

/-- The fields the digest covers. -/
def semanticFields (b : CompiledBatch) : List (String × CanonValue) := [
  ("batch_version", Canonical.toCanon b.batchVersion),
  ("captured_inputs", Canonical.toCanon b.capturedInputs),
  ("consistency_class", Canonical.toCanon b.consistencyClass),
  ("contract_hash", Canonical.toCanon b.contractHash),
  ("idc_bindings", canonSet b.idcBindings),
  ("kind", .str "batch.v1"),
  ("mutations", Canonical.toCanon b.mutations),
  ("operation", Canonical.toCanon b.operation),
  ("operation_hash", Canonical.toCanon b.operationHash),
  ("origin", Canonical.toCanon b.origin),
  ("plan", Canonical.toCanon b.plan),
  ("protocol_mutations", Canonical.toCanon b.protocolMutations),
  ("request_hash", Canonical.toCanon b.requestHash),
  ("request_key", Canonical.toCanon b.requestKey),
  ("schema_hash", Canonical.toCanon b.schemaHash),
  ("semantic_evidence", canonSet b.semanticEvidence),
  ("terminal_outcome", Canonical.toCanon b.terminalOutcome),
  ("txn_id", Canonical.toCanon b.txnId)]

def semanticPayload (b : CompiledBatch) : CanonValue := build b.semanticFields

def distinctSets (b : CompiledBatch) : Bool :=
  distinctElems b.idcBindings && (Canonical.distinctSets b.protocolMutations &&
    (distinctElems b.semanticEvidence && Canonical.distinctSets b.terminalOutcome))

/-- The digest of the payload. A set with a repeated element cannot be encoded. -/
def computeDigest (b : CompiledBatch) : CoreResult SemanticDigest :=
  if b.distinctSets then .ok (domainHash "astra.batch.v1" b.semanticPayload.encode)
  else .error .panicked

/-- The batch with its digest in place. -/
def seal_ (b : CompiledBatch) : CoreResult CompiledBatch := do
  let digest ← b.computeDigest
  .ok { b with semanticDigest := digest }

/-- One mutation per key, in namespaces open to operations. -/
def verifyMutations (seen : List LogicalKey) : List StorageMutation → CoreResult Unit
  | [] => .ok ()
  | m :: ms => do
    let ns ← keyNamespace m.key
    if ¬ ns.isUserWritable then
      .error (.new .readOnly ("business mutation targets reserved namespace " ++ ns.name))
    else if m.key ∈ seen then
      .error (.new .protocolError "duplicate logical key in one batch")
    else verifyMutations (m.key :: seen) ms

def verifyProtocolMutation (b : CompiledBatch) : ProtocolMutation → CoreResult Unit
  | .putRecord w => w.next.validate
  | .setTxnStatus t =>
    if t.txnId ≠ b.txnId ∨ t.requestKey ≠ b.requestKey ∨ t.requestHash ≠ b.requestHash then
      .error (.new .identityMismatch "status transition identity differs from batch identity")
    else t.next.validate

def verifyProtocolMutations (b : CompiledBatch) : List ProtocolMutation → CoreResult Unit
  | [] => .ok ()
  | m :: ms => do
    b.verifyProtocolMutation m
    b.verifyProtocolMutations ms

def verifyTerminalOutcome (b : CompiledBatch) : CoreResult Unit :=
  match b.terminalOutcome with
  | none => .ok ()
  | some t =>
    if t.receipt.txnId ≠ b.txnId ∨ t.receipt.requestKey ≠ b.requestKey ∨
        t.receipt.requestHash ≠ b.requestHash ∨ t.receipt.plan ≠ b.plan then
      .error (.new .identityMismatch "terminal receipt identity differs from batch identity")
    else .ok ()

def verify (b : CompiledBatch) : CoreResult Unit :=
  if b.batchVersion ≠ Storage.batchVersion then
    .error (.new .unsupportedFormat "batch version")
  else do
    let digest ← b.computeDigest
    if digest ≠ b.semanticDigest then .error (.new .corruption "semantic digest mismatch")
    else do
      verifyMutations [] b.mutations
      b.verifyProtocolMutations b.protocolMutations
      b.verifyTerminalOutcome

def toCanon (b : CompiledBatch) : CanonValue :=
  build (("semantic_digest", Canonical.toCanon b.semanticDigest) :: b.semanticFields)

def fromCanon (v : CanonValue) : CoreResult CompiledBatch := do
  v.expectFields ["batch_version", "captured_inputs", "consistency_class", "contract_hash",
    "idc_bindings", "kind", "mutations", "operation", "operation_hash", "origin", "plan",
    "protocol_mutations", "request_hash", "request_key", "schema_hash", "semantic_digest",
    "semantic_evidence", "terminal_outcome", "txn_id"]
  let batchVersion ← v.fieldAs "batch_version"
  let txnId ← v.fieldAs "txn_id"
  let requestKey ← v.fieldAs "request_key"
  let requestHash ← v.fieldAs "request_hash"
  let operation ← v.fieldAs "operation"
  let operationHash ← v.fieldAs "operation_hash"
  let contractHash ← v.fieldAs "contract_hash"
  let schemaHash ← v.fieldAs "schema_hash"
  let plan ← v.fieldAs "plan"
  let idcBindings ← v.fieldAsSet "idc_bindings"
  let consistencyClass ← v.fieldAs "consistency_class"
  let origin ← v.fieldAs "origin"
  let semanticEvidence ← v.fieldAsSet "semantic_evidence"
  let capturedInputs ← v.fieldAs "captured_inputs"
  let mutations ← v.fieldAs "mutations"
  let protocolMutations ← v.fieldAs "protocol_mutations"
  let terminalOutcome ← v.fieldAs "terminal_outcome"
  let semanticDigest ← v.fieldAs "semantic_digest"
  let b : CompiledBatch := ⟨batchVersion, txnId, requestKey, requestHash, operation, operationHash,
    contractHash, schemaHash, plan, idcBindings, consistencyClass, origin, semanticEvidence,
    capturedInputs, mutations, protocolMutations, terminalOutcome, semanticDigest⟩
  b.verify
  .ok b

instance : Canonical CompiledBatch := ⟨toCanon, fromCanon, distinctSets⟩

/-- As it is read back. -/
def normal (b : CompiledBatch) : CompiledBatch :=
  { b with
    idcBindings := naturalOrder b.idcBindings
    semanticEvidence := naturalOrder b.semanticEvidence
    protocolMutations := LawfulCanonical.normal b.protocolMutations
    terminalOutcome := LawfulCanonical.normal b.terminalOutcome }

lemma distinctSets_normal {b : CompiledBatch} (h : b.distinctSets) : b.normal.distinctSets := by
  simp only [distinctSets, Bool.and_eq_true] at h
  simp only [distinctSets, normal, Bool.and_eq_true]
  exact ⟨distinctElems_naturalOrder h.1, LawfulCanonical.distinctSets_normal _ h.2.1,
    distinctElems_naturalOrder h.2.2.1, LawfulCanonical.distinctSets_normal _ h.2.2.2⟩

lemma semanticFields_normal {b : CompiledBatch} (h : b.distinctSets) :
    b.normal.semanticFields = b.semanticFields := by
  simp only [distinctSets, Bool.and_eq_true] at h
  simp only [semanticFields, normal, canonSet_naturalOrder h.1, canonSet_naturalOrder h.2.2.1,
    LawfulCanonical.toCanon_normal _ h.2.1, LawfulCanonical.toCanon_normal _ h.2.2.2]

lemma computeDigest_normal {b : CompiledBatch} (h : b.distinctSets) :
    b.normal.computeDigest = b.computeDigest := by
  rw [computeDigest, computeDigest, if_pos h, if_pos (distinctSets_normal h), semanticPayload,
    semanticFields_normal h, semanticPayload]

lemma verifyProtocolMutations_normal (b : CompiledBatch) (ms : List ProtocolMutation) :
    b.normal.verifyProtocolMutations (ms.map ProtocolMutation.normal) =
      b.verifyProtocolMutations ms := by
  induction ms with
  | nil => rfl
  | cons m ms ih =>
    have hm : b.normal.verifyProtocolMutation m.normal = b.verifyProtocolMutation m := by
      cases m with
      | putRecord w => rfl
      | setTxnStatus t =>
        simp only [ProtocolMutation.normal, verifyProtocolMutation]
        exact ite_congr rfl (fun _ => rfl) fun _ => t.next.validate_normal
    rw [List.map_cons, verifyProtocolMutations, verifyProtocolMutations, ih, hm]

lemma verifyTerminalOutcome_normal (b : CompiledBatch) :
    b.normal.verifyTerminalOutcome = b.verifyTerminalOutcome := by
  obtain ⟨v, x, k, h, o, oh, ch, sh, p, idc, cc, og, ev, ci, ms, ps, t, d⟩ := b
  rcases t with _ | t
  · rfl
  · cases t <;> rfl

lemma verify_normal {b : CompiledBatch} (h : b.distinctSets) : b.normal.verify = b.verify := by
  rw [verify, verify, computeDigest_normal h, verifyTerminalOutcome_normal]
  exact ite_congr rfl (fun _ => rfl) fun _ => by
    rw [← verifyProtocolMutations_normal b b.protocolMutations]
    rfl

/-- A batch that passes its check has no repeated element in a set. -/
lemma distinctSets_of_verify {b : CompiledBatch} (h : b.verify = .ok ()) : b.distinctSets := by
  rw [verify] at h
  split_ifs at h
  obtain ⟨d, hd, -⟩ := CoreResult.bind_eq_ok h
  by_contra hn
  rw [computeDigest, if_neg hn] at hd
  simp at hd

instance : LawfulCanonical CompiledBatch where
  sound b := b.verify = .ok () && (sound b.protocolMutations && sound b.terminalOutcome)
  normal := normal
  sorted_toCanon b := sorted_build (by simp [semanticFields, sorted, LawfulCanonical.sorted_toCanon])
  fromCanon_toCanon b h c := by
    have hb : b.distinctSets := h
    have h' := hb
    simp only [distinctSets, Bool.and_eq_true] at h'
    obtain ⟨hidc, hpm, hev, hterm⟩ := h'
    change fromCanon (toCanon b) = _ ↔ _
    have hexpect : b.toCanon.expectFields ["batch_version", "captured_inputs",
        "consistency_class", "contract_hash", "idc_bindings", "kind", "mutations", "operation",
        "operation_hash", "origin", "plan", "protocol_mutations", "request_hash", "request_key",
        "schema_hash", "semantic_digest", "semantic_evidence", "terminal_outcome", "txn_id"] =
        .ok () := by
      apply expectFields_build
      intro name
      simp only [semanticFields, List.map_cons, List.map_nil, List.mem_cons, List.not_mem_nil,
        or_false]
      tauto
    rw [fromCanon, hexpect]
    simp only [toCanon, semanticFields]
    simp only [CoreResult.ok_bind, fieldAs_build, fieldAsSet_build, lookup_cons_eq, reduceIte,
      String.reduceEq, ExactCanonical.fromCanon_toCanon, decodeSet_canonSet, hidc, hev]
    simp only [CoreResult.bind_eq_ok_iff, LawfulCanonical.fromCanon_toCanon _ hpm,
      LawfulCanonical.fromCanon_toCanon _ hterm]
    constructor
    · rintro ⟨_, ⟨hs, rfl⟩, _, ⟨ht, rfl⟩, u, hv, hc⟩
      have hv' : b.normal.verify = .ok u := hv
      rw [verify_normal hb] at hv'
      refine ⟨?_, (Except.ok.inj hc).symm⟩
      simp [hv', hs, ht]
    · rintro ⟨hs, rfl⟩
      simp only [Bool.and_eq_true, decide_eq_true_eq] at hs
      exact ⟨_, ⟨hs.2.1, rfl⟩, _, ⟨hs.2.2, rfl⟩, (), (verify_normal hb).trans hs.1, rfl⟩
  toCanon_normal b h := by
    change toCanon b.normal = toCanon b
    rw [toCanon, toCanon, semanticFields_normal h]
    rfl
  distinctSets_normal _ h := distinctSets_normal h

end CompiledBatch

/-- Protocol records alone, written under no client identity. -/
structure ProtocolOnlyBatch where
  internalRecordId : ProtocolRecordKey
  authorizingEvidence : List ProtocolRecordRef
  writes : List ProtocolRecordWrite
  deriving DecidableEq, Repr

namespace ProtocolOnlyBatch

def toCanon (b : ProtocolOnlyBatch) : CanonValue := build [
  ("authorizing_evidence", canonSet b.authorizingEvidence),
  ("internal_record_id", Canonical.toCanon b.internalRecordId),
  ("kind", .str "protocol-batch.v1"),
  ("writes", Canonical.toCanon b.writes)]

def fromCanon (v : CanonValue) : CoreResult ProtocolOnlyBatch := do
  v.expectFields ["authorizing_evidence", "internal_record_id", "kind", "writes"]
  let internalRecordId ← v.fieldAs "internal_record_id"
  let authorizingEvidence ← v.fieldAsSet "authorizing_evidence"
  let writes ← v.fieldAs "writes"
  .ok ⟨internalRecordId, authorizingEvidence, writes⟩

instance : Canonical ProtocolOnlyBatch :=
  ⟨toCanon, fromCanon, fun b => distinctElems b.authorizingEvidence⟩

/-- As it is read back. -/
def normal (b : ProtocolOnlyBatch) : ProtocolOnlyBatch :=
  { b with authorizingEvidence := naturalOrder b.authorizingEvidence }

instance : LawfulCanonical ProtocolOnlyBatch where
  sound _ := true
  normal := normal
  sorted_toCanon b := sorted_build (by simp [sorted])
  fromCanon_toCanon b h c := by
    have hev : distinctElems b.authorizingEvidence := h
    have heq : fromCanon (toCanon b) = .ok b.normal := by
      simp [fromCanon, toCanon, normal, hev]
    change fromCanon (toCanon b) = _ ↔ _
    rw [heq]
    simp [eq_comm]
  toCanon_normal b h := by
    change toCanon b.normal = toCanon b
    rw [toCanon, toCanon, normal, canonSet_naturalOrder h]
  distinctSets_normal _ h := distinctElems_naturalOrder h

end ProtocolOnlyBatch

end CarolinaDB.Storage
