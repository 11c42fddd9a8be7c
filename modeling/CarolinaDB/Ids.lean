import CarolinaDB.Sha256

/-! Identities, epochs and hashes, and the composite identities built from them. -/
namespace CarolinaDB

open CanonValue

instance {name : String} : LinearOrder (Id128 name) :=
  LinearOrder.lift' (fun i => i.bytes.val) fun a b h => by
    obtain ⟨⟨x, hx⟩⟩ := a
    obtain ⟨⟨y, hy⟩⟩ := b
    cases h
    rfl

abbrev ClusterId := Id128 "ClusterId"
abbrev TenantId := Id128 "TenantId"
abbrev RequestNamespace := Id128 "RequestNamespace"
abbrev StableRequestId := Id128 "StableRequestId"
abbrev NodeId := Id128 "NodeId"
abbrev RequestHomeId := Id128 "RequestHomeId"
abbrev PlanId := Id128 "PlanId"
abbrev IdcId := Id128 "IdcId"
abbrev ReplicationGroupId := Id128 "ReplicationGroupId"
abbrev AuthorityId := Id128 "AuthorityId"
abbrev HolderId := Id128 "HolderId"
abbrev MigrationId := Id128 "MigrationId"
abbrev GrantId := Id128 "GrantId"
abbrev SecurityPolicyId := Id128 "SecurityPolicyId"
abbrev AdminRequestId := Id128 "AdminRequestId"
abbrev PrincipalId := Id128 "PrincipalId"
abbrev SemanticScopeId := Id128 "SemanticScopeId"

abbrev CatalogGeneration := UInt64
abbrev PlanGeneration := UInt64
abbrev IdcGeneration := UInt64
abbrev IdcAuthorityEpoch := UInt64
abbrev PlacementEpoch := UInt64
abbrev MembershipGeneration := UInt64
abbrev ResourceGeneration := UInt64
abbrev EscrowEpoch := UInt64
abbrev HolderAuthorityEpoch := UInt64
abbrev OriginEpoch := UInt64
abbrev OriginSeq := UInt64
abbrev RequestHomeEpoch := UInt64
abbrev SerialPosition := UInt64
abbrev RecordRevision := UInt64
abbrev OperationId := UInt64
abbrev RecordId := UInt64
abbrev InvariantId := UInt64

abbrev OperationHash := Hash256
abbrev ContractHash := Hash256
abbrev SchemaHash := Hash256
abbrev PlanHash := Hash256
abbrev RequestHash := Hash256
abbrev SemanticDigest := Hash256
abbrev ResultDigest := Hash256

structure RequestKey where
  tenantId : TenantId
  requestNamespace : RequestNamespace
  stableRequestId : StableRequestId
  deriving DecidableEq, Repr

namespace RequestKey

def toCanon (k : RequestKey) : CanonValue := build [
  ("request_namespace", Canonical.toCanon k.requestNamespace),
  ("stable_request_id", Canonical.toCanon k.stableRequestId),
  ("tenant_id", Canonical.toCanon k.tenantId)]

def fromCanon (v : CanonValue) : CoreResult RequestKey := do
  v.expectFields ["request_namespace", "stable_request_id", "tenant_id"]
  let tenantId ← v.fieldAs "tenant_id"
  let requestNamespace ← v.fieldAs "request_namespace"
  let stableRequestId ← v.fieldAs "stable_request_id"
  .ok { tenantId, requestNamespace, stableRequestId }

instance : Canonical RequestKey := ⟨toCanon, fromCanon, fun _ => true⟩

instance : ExactCanonical RequestKey where
  sorted_toCanon k := sorted_build (by simp)
  fromCanon_toCanon k := by
    change fromCanon (toCanon k) = _
    simp [fromCanon, toCanon]

end RequestKey

structure OperationRef where
  operationId : OperationId
  version : UInt32
  deriving DecidableEq, Repr

namespace OperationRef

def toCanon (o : OperationRef) : CanonValue := build [
  ("operation_id", Canonical.toCanon o.operationId),
  ("version", Canonical.toCanon o.version)]

def fromCanon (v : CanonValue) : CoreResult OperationRef := do
  v.expectFields ["operation_id", "version"]
  let operationId ← v.fieldAs "operation_id"
  let version ← v.fieldAs "version"
  .ok { operationId, version }

instance : Canonical OperationRef := ⟨toCanon, fromCanon, fun _ => true⟩

instance : ExactCanonical OperationRef where
  sorted_toCanon o := sorted_build (by simp)
  fromCanon_toCanon o := by
    change fromCanon (toCanon o) = _
    simp [fromCanon, toCanon]

/-- The fields in the order they are compared. -/
def fieldOrder (o : OperationRef) : ℕ ×ₗ ℕ := toLex (o.operationId.toNat, o.version.toNat)

lemma fieldOrder_injective : Function.Injective fieldOrder := by
  rintro ⟨i, w⟩ ⟨i', w'⟩ h
  simp only [fieldOrder, EmbeddingLike.apply_eq_iff_eq, Prod.mk.injEq, UInt64.toNat_inj,
    UInt32.toNat_inj] at h
  obtain ⟨rfl, rfl⟩ := h
  rfl

instance : LinearOrder OperationRef := LinearOrder.lift' fieldOrder fieldOrder_injective

end OperationRef

structure IdcBinding where
  idcId : IdcId
  idcGeneration : IdcGeneration
  authorityEpoch : IdcAuthorityEpoch
  deriving DecidableEq, Repr

namespace IdcBinding

def toCanon (b : IdcBinding) : CanonValue := build [
  ("authority_epoch", Canonical.toCanon b.authorityEpoch),
  ("idc_generation", Canonical.toCanon b.idcGeneration),
  ("idc_id", Canonical.toCanon b.idcId)]

def fromCanon (v : CanonValue) : CoreResult IdcBinding := do
  v.expectFields ["authority_epoch", "idc_generation", "idc_id"]
  let idcId ← v.fieldAs "idc_id"
  let idcGeneration ← v.fieldAs "idc_generation"
  let authorityEpoch ← v.fieldAs "authority_epoch"
  .ok { idcId, idcGeneration, authorityEpoch }

instance : Canonical IdcBinding := ⟨toCanon, fromCanon, fun _ => true⟩

instance : ExactCanonical IdcBinding where
  sorted_toCanon b := sorted_build (by simp)
  fromCanon_toCanon b := by
    change fromCanon (toCanon b) = _
    simp [fromCanon, toCanon]

/-- The fields in the order they are compared. -/
def fieldOrder (b : IdcBinding) : Bytes ×ₗ ℕ ×ₗ ℕ :=
  toLex (b.idcId.bytes.val, toLex (b.idcGeneration.toNat, b.authorityEpoch.toNat))

lemma fieldOrder_injective : Function.Injective fieldOrder := by
  rintro ⟨⟨i⟩, g, e⟩ ⟨⟨i'⟩, g', e'⟩ h
  simp only [fieldOrder, EmbeddingLike.apply_eq_iff_eq, Prod.mk.injEq, UInt64.toNat_inj] at h
  obtain ⟨hi, rfl, rfl⟩ := h
  rw [Subtype.ext hi]

instance : LinearOrder IdcBinding := LinearOrder.lift' fieldOrder fieldOrder_injective

end IdcBinding

structure PlanRef where
  planId : PlanId
  generation : PlanGeneration
  hash : PlanHash
  deriving DecidableEq, Repr

namespace PlanRef

def toCanon (p : PlanRef) : CanonValue := build [
  ("generation", Canonical.toCanon p.generation),
  ("hash", Canonical.toCanon p.hash),
  ("plan_id", Canonical.toCanon p.planId)]

def fromCanon (v : CanonValue) : CoreResult PlanRef := do
  v.expectFields ["generation", "hash", "plan_id"]
  let planId ← v.fieldAs "plan_id"
  let generation ← v.fieldAs "generation"
  let hash ← v.fieldAs "hash"
  .ok { planId, generation, hash }

instance : Canonical PlanRef := ⟨toCanon, fromCanon, fun _ => true⟩

instance : ExactCanonical PlanRef where
  sorted_toCanon p := sorted_build (by simp)
  fromCanon_toCanon p := by
    change fromCanon (toCanon p) = _
    simp [fromCanon, toCanon]

/-- The fields in the order they are compared. -/
def fieldOrder (p : PlanRef) : Bytes ×ₗ ℕ ×ₗ Bytes :=
  toLex (p.planId.bytes.val, toLex (p.generation.toNat, p.hash.bytes.val))

lemma fieldOrder_injective : Function.Injective fieldOrder := by
  rintro ⟨⟨i⟩, g, ⟨d⟩⟩ ⟨⟨i'⟩, g', ⟨d'⟩⟩ h
  simp only [fieldOrder, EmbeddingLike.apply_eq_iff_eq, Prod.mk.injEq, UInt64.toNat_inj] at h
  obtain ⟨hi, rfl, hd⟩ := h
  rw [Subtype.ext hi, Subtype.ext hd]

instance : LinearOrder PlanRef := LinearOrder.lift' fieldOrder fieldOrder_injective

end PlanRef

structure OriginId where
  nodeId : NodeId
  originEpoch : OriginEpoch
  originSeq : OriginSeq
  deriving DecidableEq, Repr

namespace OriginId

def toCanon (o : OriginId) : CanonValue := build [
  ("node_id", Canonical.toCanon o.nodeId),
  ("origin_epoch", Canonical.toCanon o.originEpoch),
  ("origin_seq", Canonical.toCanon o.originSeq)]

def fromCanon (v : CanonValue) : CoreResult OriginId := do
  v.expectFields ["node_id", "origin_epoch", "origin_seq"]
  let nodeId ← v.fieldAs "node_id"
  let originEpoch ← v.fieldAs "origin_epoch"
  let originSeq ← v.fieldAs "origin_seq"
  .ok { nodeId, originEpoch, originSeq }

instance : Canonical OriginId := ⟨toCanon, fromCanon, fun _ => true⟩

instance : ExactCanonical OriginId where
  sorted_toCanon o := sorted_build (by simp)
  fromCanon_toCanon o := by
    change fromCanon (toCanon o) = _
    simp [fromCanon, toCanon]

instance : NonNull OriginId := ⟨fun _ => by simp [Canonical.toCanon, toCanon, build]⟩

/-- The fields in the order they are compared. -/
def fieldOrder (o : OriginId) : Bytes ×ₗ ℕ ×ₗ ℕ :=
  toLex (o.nodeId.bytes.val, toLex (o.originEpoch.toNat, o.originSeq.toNat))

lemma fieldOrder_injective : Function.Injective fieldOrder := by
  rintro ⟨⟨n⟩, e, s⟩ ⟨⟨n'⟩, e', s'⟩ h
  simp only [fieldOrder, EmbeddingLike.apply_eq_iff_eq, Prod.mk.injEq, UInt64.toNat_inj] at h
  obtain ⟨hn, rfl, rfl⟩ := h
  rw [Subtype.ext hn]

instance : LinearOrder OriginId := LinearOrder.lift' fieldOrder fieldOrder_injective

end OriginId

structure ResourceRef where
  invariantId : InvariantId
  /-- Ordered key bytes of the resource instance. -/
  resourceKey : Bytes
  resourceGeneration : ResourceGeneration
  deriving DecidableEq, Repr

namespace ResourceRef

def toCanon (r : ResourceRef) : CanonValue := build [
  ("invariant_id", Canonical.toCanon r.invariantId),
  ("resource_generation", Canonical.toCanon r.resourceGeneration),
  ("resource_key", Canonical.toCanon r.resourceKey)]

def fromCanon (v : CanonValue) : CoreResult ResourceRef := do
  v.expectFields ["invariant_id", "resource_generation", "resource_key"]
  let invariantId ← v.fieldAs "invariant_id"
  let resourceKey ← v.fieldAs "resource_key"
  let resourceGeneration ← v.fieldAs "resource_generation"
  .ok { invariantId, resourceKey, resourceGeneration }

instance : Canonical ResourceRef := ⟨toCanon, fromCanon, fun _ => true⟩

instance : ExactCanonical ResourceRef where
  sorted_toCanon r := sorted_build (by simp)
  fromCanon_toCanon r := by
    change fromCanon (toCanon r) = _
    simp [fromCanon, toCanon]

end ResourceRef

/-- The authority a grant binds, by kind. -/
inductive AuthorityBinding
  | idc (authorityId : AuthorityId) (idc : IdcBinding)
  | holder (resource : ResourceRef) (escrowEpoch : EscrowEpoch) (holderId : HolderId)
      (epoch : HolderAuthorityEpoch)
  | requestHome (homeId : RequestHomeId) (epoch : RequestHomeEpoch)
  deriving DecidableEq, Repr

namespace AuthorityBinding

def toCanon : AuthorityBinding → CanonValue
  | idc a b => build [
      ("authority_id", Canonical.toCanon a),
      ("idc", Canonical.toCanon b),
      ("kind", .str "idc")]
  | holder r ee h e => build [
      ("epoch", Canonical.toCanon e),
      ("escrow_epoch", Canonical.toCanon ee),
      ("holder_id", Canonical.toCanon h),
      ("kind", .str "holder"),
      ("resource", Canonical.toCanon r)]
  | requestHome h e => build [
      ("epoch", Canonical.toCanon e),
      ("home_id", Canonical.toCanon h),
      ("kind", .str "request_home")]

def fromCanon (v : CanonValue) : CoreResult AuthorityBinding := do
  let kind ← (← v.field "kind").asStr
  if kind = "idc" then do
    v.expectFields ["authority_id", "idc", "kind"]
    let a ← v.fieldAs "authority_id"
    let b ← v.fieldAs "idc"
    .ok (idc a b)
  else if kind = "holder" then do
    v.expectFields ["epoch", "escrow_epoch", "holder_id", "kind", "resource"]
    let r ← v.fieldAs "resource"
    let ee ← v.fieldAs "escrow_epoch"
    let h ← v.fieldAs "holder_id"
    let e ← v.fieldAs "epoch"
    .ok (holder r ee h e)
  else if kind = "request_home" then do
    v.expectFields ["epoch", "home_id", "kind"]
    let h ← v.fieldAs "home_id"
    let e ← v.fieldAs "epoch"
    .ok (requestHome h e)
  else .error (.new .nonCanonicalEncoding ("unknown authority kind `" ++ kind ++ "`"))

instance : Canonical AuthorityBinding := ⟨toCanon, fromCanon, fun _ => true⟩

instance : ExactCanonical AuthorityBinding where
  sorted_toCanon b := by cases b <;> exact sorted_build (by simp [sorted])
  fromCanon_toCanon b := by
    change fromCanon (toCanon b) = _
    cases b <;> simp [fromCanon, toCanon, field_build, asStr]

end AuthorityBinding

structure ProtocolRecordRef where
  recordKind : String
  recordVersion : UInt32
  recordKey : Bytes
  payloadHash : Hash256
  deriving DecidableEq, Repr

namespace ProtocolRecordRef

def toCanon (r : ProtocolRecordRef) : CanonValue := build [
  ("payload_hash", Canonical.toCanon r.payloadHash),
  ("record_key", Canonical.toCanon r.recordKey),
  ("record_kind", Canonical.toCanon r.recordKind),
  ("record_version", Canonical.toCanon r.recordVersion)]

def fromCanon (v : CanonValue) : CoreResult ProtocolRecordRef := do
  v.expectFields ["payload_hash", "record_key", "record_kind", "record_version"]
  let recordKind ← v.fieldAs "record_kind"
  let recordVersion ← v.fieldAs "record_version"
  let recordKey ← v.fieldAs "record_key"
  let payloadHash ← v.fieldAs "payload_hash"
  .ok { recordKind, recordVersion, recordKey, payloadHash }

instance : Canonical ProtocolRecordRef := ⟨toCanon, fromCanon, fun _ => true⟩

instance : ExactCanonical ProtocolRecordRef where
  sorted_toCanon r := sorted_build (by simp)
  fromCanon_toCanon r := by
    change fromCanon (toCanon r) = _
    simp [fromCanon, toCanon]

instance : NonNull ProtocolRecordRef := ⟨fun _ => by simp [Canonical.toCanon, toCanon, build]⟩

/-- The fields in the order they are compared. -/
def fieldOrder (r : ProtocolRecordRef) : Bytes ×ₗ ℕ ×ₗ Bytes ×ₗ Bytes :=
  toLex (utf8 r.recordKind, toLex (r.recordVersion.toNat,
    toLex (r.recordKey, r.payloadHash.bytes.val)))

lemma fieldOrder_injective : Function.Injective fieldOrder := by
  rintro ⟨k, v, b, ⟨h⟩⟩ ⟨k', v', b', ⟨h'⟩⟩ he
  simp only [fieldOrder, EmbeddingLike.apply_eq_iff_eq, Prod.mk.injEq, UInt32.toNat_inj,
    utf8_injective.eq_iff] at he
  obtain ⟨rfl, rfl, rfl, hh⟩ := he
  rw [Subtype.ext hh]

instance : LinearOrder ProtocolRecordRef := LinearOrder.lift' fieldOrder fieldOrder_injective

end ProtocolRecordRef

inductive ConsistencyClass
  | c0Local | c1Commutative | c2Causal | c3Escrow | c4Certified | c5Serial
  deriving DecidableEq, Repr

namespace ConsistencyClass

def label : ConsistencyClass → String
  | c0Local => "C0_LOCAL"
  | c1Commutative => "C1_COMMUTATIVE"
  | c2Causal => "C2_CAUSAL"
  | c3Escrow => "C3_ESCROW"
  | c4Certified => "C4_CERTIFIED"
  | c5Serial => "C5_SERIAL"

def fromLabel : String → CoreResult ConsistencyClass
  | "C0_LOCAL" => .ok c0Local
  | "C1_COMMUTATIVE" => .ok c1Commutative
  | "C2_CAUSAL" => .ok c2Causal
  | "C3_ESCROW" => .ok c3Escrow
  | "C4_CERTIFIED" => .ok c4Certified
  | "C5_SERIAL" => .ok c5Serial
  | s => .error (.new .nonCanonicalEncoding ("unknown consistency class `" ++ s ++ "`"))

instance : Canonical ConsistencyClass where
  toCanon c := .str c.label
  fromCanon v := do fromLabel (← v.asStr)

instance : ExactCanonical ConsistencyClass where
  sorted_toCanon _ := rfl
  fromCanon_toCanon c := by cases c <;> rfl

end ConsistencyClass

end CarolinaDB
