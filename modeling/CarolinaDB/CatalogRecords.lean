import CarolinaDB.CanonStrict
import CarolinaDB.FiniteMap

/-!
# Records of the control-plane catalog

Keys, entries, grants and commands with their canonical forms. A value stored
under a key is any canonical value; the typed records are read from it on demand.
-/
namespace CarolinaDB

open CanonValue

instance : Canonical Bool where
  toCanon b := .bool b
  fromCanon v := v.asBool

instance : ExactCanonical Bool where
  sorted_toCanon _ := rfl
  fromCanon_toCanon _ := rfl

instance : NonNull String where
  toCanon_ne_null _ := by simp [toCanon]

/-- The laws of a type that is always read back, in its normal form. -/
@[reducible] def LawfulCanonical.ofNormal {α : Type} [Canonical α] (normal : α → α)
    (hsorted : ∀ a : α, (toCanon a).sorted)
    (hread : ∀ a : α, distinctSets a → fromCanon (toCanon a) = .ok (normal a))
    (hnormal : ∀ a : α, distinctSets a → toCanon (normal a) = toCanon a)
    (hdistinct : ∀ a : α, distinctSets a → distinctSets (normal a)) : LawfulCanonical α where
  sound _ := true
  normal := normal
  sorted_toCanon := hsorted
  fromCanon_toCanon a h b := by simp [hread a h, eq_comm]
  toCanon_normal := hnormal
  distinctSets_normal := hdistinct

lemma fromCanon_toCanon_u32 (n : UInt32) :
    (fromCanon (toCanon n) : CoreResult UInt64) = .ok n.toUInt64 := by
  have h : n.toNat < 2^64 := n.toNat_lt.trans (by norm_num)
  change (CanonValue.str (decimal n.toNat)).asU64 = _
  rw [asU64_decimal h]
  congr 1
  apply UInt64.toNat_inj.mp
  simp

inductive CatalogKey
  | clusterConfig
  | node (id : NodeId)
  | authority (grant : GrantId)
  | requestRoute (tenant : TenantId) (ns : RequestNamespace) (bucket : UInt32)
  | «namespace» (tenant : TenantId) (ns : RequestNamespace)
  | plan (tenant : TenantId) (plan : PlanId) (generation : PlanGeneration)
  | activePlan (tenant : TenantId) (scope : SemanticScopeId)
  | migration (id : MigrationId)
  | scopeLock (tenant : TenantId) (scope : SemanticScopeId)
  | securityPolicy (policy : SecurityPolicyId)
  | permissionGrant (grant : GrantId)
  | artifact (kind : String) (hash : Hash256)
  | adminCommand (id : AdminRequestId)
  deriving DecidableEq, Repr

namespace CatalogKey

def toCanon : CatalogKey → CanonValue
  | clusterConfig => build [("kind", .str "ClusterConfig")]
  | node n => build [
      ("kind", .str "Node"),
      ("node", Canonical.toCanon n)]
  | authority g => build [
      ("grant", Canonical.toCanon g),
      ("kind", .str "Authority")]
  | requestRoute t ns b => build [
      ("bucket", Canonical.toCanon b),
      ("kind", .str "RequestRoute"),
      ("namespace", Canonical.toCanon ns),
      ("tenant", Canonical.toCanon t)]
  | «namespace» t ns => build [
      ("kind", .str "Namespace"),
      ("namespace", Canonical.toCanon ns),
      ("tenant", Canonical.toCanon t)]
  | plan t p g => build [
      ("generation", Canonical.toCanon g),
      ("kind", .str "Plan"),
      ("plan", Canonical.toCanon p),
      ("tenant", Canonical.toCanon t)]
  | activePlan t s => build [
      ("kind", .str "ActivePlan"),
      ("scope", Canonical.toCanon s),
      ("tenant", Canonical.toCanon t)]
  | migration m => build [
      ("kind", .str "Migration"),
      ("migration", Canonical.toCanon m)]
  | scopeLock t s => build [
      ("kind", .str "ScopeLock"),
      ("scope", Canonical.toCanon s),
      ("tenant", Canonical.toCanon t)]
  | securityPolicy p => build [
      ("kind", .str "SecurityPolicy"),
      ("policy", Canonical.toCanon p)]
  | permissionGrant g => build [
      ("grant", Canonical.toCanon g),
      ("kind", .str "PermissionGrant")]
  | artifact k h => build [
      ("artifact_kind", Canonical.toCanon k),
      ("hash", Canonical.toCanon h),
      ("kind", .str "Artifact")]
  | adminCommand a => build [
      ("admin_request_id", Canonical.toCanon a),
      ("kind", .str "AdminCommand")]

def fromCanon (v : CanonValue) : CoreResult CatalogKey := do
  let kind ← (← v.field "kind").asStr
  if kind = "ClusterConfig" then .ok clusterConfig
  else if kind = "Node" then do
    let n ← v.fieldAs "node"
    .ok (node n)
  else if kind = "Authority" then do
    let g ← v.fieldAs "grant"
    .ok (authority g)
  else if kind = "RequestRoute" then do
    let t ← v.fieldAs "tenant"
    let ns ← v.fieldAs "namespace"
    let bucket : UInt64 ← v.fieldAs "bucket"
    .ok (requestRoute t ns bucket.toUInt32)
  else if kind = "Namespace" then do
    let t ← v.fieldAs "tenant"
    let ns ← v.fieldAs "namespace"
    .ok («namespace» t ns)
  else if kind = "Plan" then do
    let t ← v.fieldAs "tenant"
    let p ← v.fieldAs "plan"
    let g ← v.fieldAs "generation"
    .ok (plan t p g)
  else if kind = "ActivePlan" then do
    let t ← v.fieldAs "tenant"
    let s ← v.fieldAs "scope"
    .ok (activePlan t s)
  else if kind = "Migration" then do
    let m ← v.fieldAs "migration"
    .ok (migration m)
  else if kind = "ScopeLock" then do
    let t ← v.fieldAs "tenant"
    let s ← v.fieldAs "scope"
    .ok (scopeLock t s)
  else if kind = "SecurityPolicy" then do
    let p ← v.fieldAs "policy"
    .ok (securityPolicy p)
  else if kind = "PermissionGrant" then do
    let g ← v.fieldAs "grant"
    .ok (permissionGrant g)
  else if kind = "Artifact" then do
    let k ← v.fieldAs "artifact_kind"
    let h ← v.fieldAs "hash"
    .ok (artifact k h)
  else if kind = "AdminCommand" then do
    let a ← v.fieldAs "admin_request_id"
    .ok (adminCommand a)
  else .error (.new .nonCanonicalEncoding ("catalog key " ++ kind))

instance : Canonical CatalogKey := ⟨toCanon, fromCanon, fun _ => true⟩

instance : ExactCanonical CatalogKey where
  sorted_toCanon k := by cases k <;> exact sorted_build (by simp [sorted])
  fromCanon_toCanon k := by
    change fromCanon (toCanon k) = _
    cases k <;> simp [fromCanon, toCanon, field_build, asStr, fromCanon_toCanon_u32]

/-- The kind, then the fields in the order they are compared. -/
def fieldOrder : CatalogKey → ℕ ×ₗ Bytes ×ₗ Bytes ×ₗ ℕ
  | clusterConfig => toLex (0, toLex ([], toLex ([], 0)))
  | node n => toLex (1, toLex (n.bytes.val, toLex ([], 0)))
  | authority g => toLex (2, toLex (g.bytes.val, toLex ([], 0)))
  | requestRoute t ns b => toLex (3, toLex (t.bytes.val, toLex (ns.bytes.val, b.toNat)))
  | «namespace» t ns => toLex (4, toLex (t.bytes.val, toLex (ns.bytes.val, 0)))
  | plan t p g => toLex (5, toLex (t.bytes.val, toLex (p.bytes.val, g.toNat)))
  | activePlan t s => toLex (6, toLex (t.bytes.val, toLex (s.bytes.val, 0)))
  | migration m => toLex (7, toLex (m.bytes.val, toLex ([], 0)))
  | scopeLock t s => toLex (8, toLex (t.bytes.val, toLex (s.bytes.val, 0)))
  | securityPolicy p => toLex (9, toLex (p.bytes.val, toLex ([], 0)))
  | permissionGrant g => toLex (10, toLex (g.bytes.val, toLex ([], 0)))
  | artifact k h => toLex (11, toLex (utf8 k, toLex (h.bytes.val, 0)))
  | adminCommand a => toLex (12, toLex (a.bytes.val, toLex ([], 0)))

lemma id128_eq {name : String} {i j : Id128 name} (h : i.bytes.val = j.bytes.val) : i = j := by
  obtain ⟨i⟩ := i
  obtain ⟨j⟩ := j
  exact congrArg Id128.mk (Subtype.ext h)

lemma fieldOrder_injective : Function.Injective fieldOrder := by
  intro a b h
  cases a <;> cases b <;>
    simp only [fieldOrder, EmbeddingLike.apply_eq_iff_eq, Prod.mk.injEq, UInt32.toNat_inj,
      UInt64.toNat_inj, utf8_injective.eq_iff, and_true, true_and, Nat.reduceEqDiff, zero_ne_one,
      one_ne_zero, OfNat.ofNat_ne_zero, OfNat.zero_ne_ofNat, false_and] at h
  case node.node => rw [id128_eq h]
  case authority.authority => rw [id128_eq h]
  case requestRoute.requestRoute => rw [id128_eq h.1, id128_eq h.2.1, h.2.2]
  case namespace.namespace => rw [id128_eq h.1, id128_eq h.2]
  case plan.plan => rw [id128_eq h.1, id128_eq h.2.1, h.2.2]
  case activePlan.activePlan => rw [id128_eq h.1, id128_eq h.2]
  case migration.migration => rw [id128_eq h]
  case scopeLock.scopeLock => rw [id128_eq h.1, id128_eq h.2]
  case securityPolicy.securityPolicy => rw [id128_eq h]
  case permissionGrant.permissionGrant => rw [id128_eq h]
  case artifact.artifact k d k' d' =>
    obtain ⟨d⟩ := d
    obtain ⟨d'⟩ := d'
    rw [h.1, congrArg Hash256.mk (Subtype.ext h.2)]
  case adminCommand.adminCommand => rw [id128_eq h]
  all_goals rfl

instance : LinearOrder CatalogKey := LinearOrder.lift' fieldOrder fieldOrder_injective

end CatalogKey

inductive EntryState
  | live
  | tombstoned
  deriving DecidableEq, Repr

namespace EntryState

def label : EntryState → String
  | live => "live"
  | tombstoned => "tombstoned"

def fromLabel : String → CoreResult EntryState
  | "live" => .ok live
  | "tombstoned" => .ok tombstoned
  | k => .error (.new .nonCanonicalEncoding ("entry state " ++ k))

instance : Canonical EntryState where
  toCanon s := .str s.label
  fromCanon v := do fromLabel (← v.asStr)

instance : ExactCanonical EntryState where
  sorted_toCanon _ := rfl
  fromCanon_toCanon s := by cases s <;> rfl

end EntryState

structure CatalogEntry where
  key : CatalogKey
  revision : CatalogGeneration
  state : EntryState
  value : CanonTree
  deriving DecidableEq, Repr

namespace CatalogEntry

def toCanon (e : CatalogEntry) : CanonValue := build [
  ("key", Canonical.toCanon e.key),
  ("kind", .str "catalog_entry.v1"),
  ("revision", Canonical.toCanon e.revision),
  ("state", Canonical.toCanon e.state),
  ("value", Canonical.toCanon e.value)]

def fromCanon (v : CanonValue) : CoreResult CatalogEntry := do
  v.expectFields ["key", "kind", "revision", "state", "value"]
  let key ← v.fieldAs "key"
  let revision ← v.fieldAs "revision"
  let state ← v.fieldAs "state"
  let value ← v.fieldAs "value"
  .ok { key, revision, state, value }

instance : Canonical CatalogEntry := ⟨toCanon, fromCanon, fun _ => true⟩

instance : ExactCanonical CatalogEntry where
  sorted_toCanon e := sorted_build (by simp [sorted])
  fromCanon_toCanon e := by
    change fromCanon (toCanon e) = _
    simp [fromCanon, toCanon]

def digest (e : CatalogEntry) : Hash256 :=
  domainHash "astra.catalog-entry.v1" e.value.val.encode

end CatalogEntry

inductive GrantState
  | staged | active | closing | closed | retired
  deriving DecidableEq, Repr

namespace GrantState

def label : GrantState → String
  | staged => "STAGED"
  | active => "ACTIVE"
  | closing => "CLOSING"
  | closed => "CLOSED"
  | retired => "RETIRED"

def fromLabel : String → CoreResult GrantState
  | "STAGED" => .ok staged
  | "ACTIVE" => .ok active
  | "CLOSING" => .ok closing
  | "CLOSED" => .ok closed
  | "RETIRED" => .ok retired
  | k => .error (.new .nonCanonicalEncoding ("grant state " ++ k))

/-- The lifecycle of a grant. -/
def canAdvanceTo : GrantState → GrantState → Bool
  | staged, active => true
  | active, closing => true
  | closing, closed => true
  | closed, retired => true
  | staged, retired => true
  | _, _ => false

instance : Canonical GrantState where
  toCanon s := .str s.label
  fromCanon v := do fromLabel (← v.asStr)

instance : ExactCanonical GrantState where
  sorted_toCanon _ := rfl
  fromCanon_toCanon s := by cases s <;> rfl

end GrantState

structure AuthorityGrant where
  grantId : GrantId
  binding : AuthorityBinding
  tenant : TenantId
  scope : SemanticScopeId
  scopeRecords : List RecordId
  plans : List PlanRef
  placementEpoch : PlacementEpoch
  membership : ReplicationGroupId × MembershipGeneration
  admittedNodes : List NodeId
  authorityDurabilityPolicy : String
  securityPolicy : SecurityPolicyId
  admissionMode : String
  state : GrantState
  deriving DecidableEq, Repr

namespace AuthorityGrant

def toCanon (g : AuthorityGrant) : CanonValue := build [
  ("admission_mode", Canonical.toCanon g.admissionMode),
  ("admitted_nodes", canonSet g.admittedNodes),
  ("authority_durability_policy", Canonical.toCanon g.authorityDurabilityPolicy),
  ("binding", Canonical.toCanon g.binding),
  ("grant_id", Canonical.toCanon g.grantId),
  ("membership_generation", Canonical.toCanon g.membership.2),
  ("membership_group", Canonical.toCanon g.membership.1),
  ("placement_epoch", Canonical.toCanon g.placementEpoch),
  ("plans", canonSet g.plans),
  ("scope", Canonical.toCanon g.scope),
  ("scope_records", canonSet g.scopeRecords),
  ("security_policy", Canonical.toCanon g.securityPolicy),
  ("state", Canonical.toCanon g.state),
  ("tenant", Canonical.toCanon g.tenant)]

def fromCanon (v : CanonValue) : CoreResult AuthorityGrant := do
  let grantId ← v.fieldAs "grant_id"
  let binding ← v.fieldAs "binding"
  let tenant ← v.fieldAs "tenant"
  let scope ← v.fieldAs "scope"
  let scopeRecords ← v.fieldAsSet "scope_records"
  let plans ← v.fieldAsSet "plans"
  let placementEpoch ← v.fieldAs "placement_epoch"
  let group ← v.fieldAs "membership_group"
  let generation ← v.fieldAs "membership_generation"
  let admittedNodes ← v.fieldAsSet "admitted_nodes"
  let authorityDurabilityPolicy ← v.fieldAs "authority_durability_policy"
  let securityPolicy ← v.fieldAs "security_policy"
  let admissionMode ← v.fieldAs "admission_mode"
  let state ← v.fieldAs "state"
  .ok { grantId, binding, tenant, scope, scopeRecords, plans, placementEpoch,
        membership := (group, generation), admittedNodes, authorityDurabilityPolicy,
        securityPolicy, admissionMode, state }

def distinctSets (g : AuthorityGrant) : Bool :=
  distinctElems g.scopeRecords && distinctElems g.plans && distinctElems g.admittedNodes

/-- As it is read back. -/
def normal (g : AuthorityGrant) : AuthorityGrant :=
  { g with
    scopeRecords := naturalOrder g.scopeRecords
    plans := naturalOrder g.plans
    admittedNodes := naturalOrder g.admittedNodes }

/-- The value stored for a grant. -/
def tree (g : AuthorityGrant) : CanonTree := ⟨g.toCanon, sorted_build (by simp)⟩

lemma fromCanon_toCanon {g : AuthorityGrant} (h : g.distinctSets) :
    fromCanon (toCanon g) = .ok g.normal := by
  simp only [distinctSets, Bool.and_eq_true] at h
  simp [fromCanon, toCanon, normal, h]

/-- What was read encodes without a panic, and the sets read are in their natural order. -/
lemma distinctSets_of_fromCanon {v : CanonValue} {g : AuthorityGrant} (hv : v.sorted)
    (h : fromCanon v = .ok g) : g.distinctSets ∧ g.normal = g := by
  simp only [fromCanon, CoreResult.bind_eq_ok_iff, Except.ok.injEq] at h
  obtain ⟨_, -, _, -, _, -, _, -, records, hrecords, plans, hplans, _, -, _, -, _, -, nodes, hnodes,
    _, -, _, -, _, -, _, -, rfl⟩ := h
  obtain ⟨w, hw, hrecords⟩ := CoreResult.bind_eq_ok hrecords
  obtain ⟨w', hw', hplans⟩ := CoreResult.bind_eq_ok hplans
  obtain ⟨w'', hw'', hnodes⟩ := CoreResult.bind_eq_ok hnodes
  have hrecords := distinctElems_of_decodeSet (sorted_of_field hv hw) hrecords
  have hplans := distinctElems_of_decodeSet (sorted_of_field hv hw') hplans
  have hnodes := distinctElems_of_decodeSet (sorted_of_field hv hw'') hnodes
  simp [distinctSets, normal, hrecords, hplans, hnodes]

end AuthorityGrant

structure PermissionGrant where
  grantId : GrantId
  principal : PrincipalId
  tenant : TenantId
  requestNamespace : RequestNamespace
  operations : List OperationRef
  allowInvoke : Bool
  allowResolve : Bool
  securityPolicy : SecurityPolicyId
  active : Bool
  deriving DecidableEq, Repr

namespace PermissionGrant

def toCanon (g : PermissionGrant) : CanonValue := build [
  ("active", Canonical.toCanon g.active),
  ("allow_invoke", Canonical.toCanon g.allowInvoke),
  ("allow_resolve", Canonical.toCanon g.allowResolve),
  ("grant_id", Canonical.toCanon g.grantId),
  ("namespace", Canonical.toCanon g.requestNamespace),
  ("operations", canonSet g.operations),
  ("principal", Canonical.toCanon g.principal),
  ("security_policy", Canonical.toCanon g.securityPolicy),
  ("tenant", Canonical.toCanon g.tenant)]

def fromCanon (v : CanonValue) : CoreResult PermissionGrant := do
  v.expectFields ["active", "allow_invoke", "allow_resolve", "grant_id", "namespace",
    "operations", "principal", "security_policy", "tenant"]
  let grantId ← v.fieldAs "grant_id"
  let principal ← v.fieldAs "principal"
  let tenant ← v.fieldAs "tenant"
  let requestNamespace ← v.fieldAs "namespace"
  let operations ← v.fieldAsSet "operations"
  let allowInvoke ← v.fieldAs "allow_invoke"
  let allowResolve ← v.fieldAs "allow_resolve"
  let securityPolicy ← v.fieldAs "security_policy"
  let active ← v.fieldAs "active"
  .ok { grantId, principal, tenant, requestNamespace, operations, allowInvoke, allowResolve,
        securityPolicy, active }

end PermissionGrant

structure BootstrapManifest where
  clusterId : ClusterId
  voters : List NodeId
  trustRootHash : Hash256
  securityPolicy : SecurityPolicyId
  bootstrapAdmin : PrincipalId
  securityProfile : String
  deriving DecidableEq, Repr

namespace BootstrapManifest

def toCanon (m : BootstrapManifest) : CanonValue := build [
  ("bootstrap_admin", Canonical.toCanon m.bootstrapAdmin),
  ("cluster_id", Canonical.toCanon m.clusterId),
  ("security_policy", Canonical.toCanon m.securityPolicy),
  ("security_profile", Canonical.toCanon m.securityProfile),
  ("trust_root_hash", Canonical.toCanon m.trustRootHash),
  ("voters", canonSet m.voters)]

def fromCanon (v : CanonValue) : CoreResult BootstrapManifest := do
  let clusterId ← v.fieldAs "cluster_id"
  let voters ← v.fieldAsSet "voters"
  let trustRootHash ← v.fieldAs "trust_root_hash"
  let securityPolicy ← v.fieldAs "security_policy"
  let bootstrapAdmin ← v.fieldAs "bootstrap_admin"
  let securityProfile ← v.fieldAs "security_profile"
  .ok { clusterId, voters, trustRootHash, securityPolicy, bootstrapAdmin, securityProfile }

def distinctSets (m : BootstrapManifest) : Bool := distinctElems m.voters

/-- As it is read back. -/
def normal (m : BootstrapManifest) : BootstrapManifest :=
  { m with voters := naturalOrder m.voters }

instance : Canonical BootstrapManifest := ⟨toCanon, fromCanon, distinctSets⟩

instance : LawfulCanonical BootstrapManifest := by
  refine .ofNormal normal ?_ ?_ ?_ ?_
  · intro m
    exact sorted_build (by simp)
  · intro m h
    have hd : distinctElems m.voters := h
    change fromCanon (toCanon m) = _
    simp [fromCanon, toCanon, normal, hd]
  · intro m h
    change toCanon (normal m) = toCanon m
    simp only [toCanon, normal, canonSet_naturalOrder h]
  · intro m h
    exact distinctElems_naturalOrder h

instance : NonNull BootstrapManifest where
  toCanon_ne_null _ := by simp [Canonical.toCanon, toCanon, build]

def manifestHash (m : BootstrapManifest) : Hash256 :=
  domainHash "astra.bootstrap-manifest.v1" (Canonical.encode m)

/-- The value stored for a manifest. -/
def tree (m : BootstrapManifest) : CanonTree := ⟨m.toCanon, sorted_build (by simp)⟩

lemma distinctSets_of_fromCanon {v : CanonValue} {m : BootstrapManifest} (hv : v.sorted)
    (h : fromCanon v = .ok m) : m.distinctSets ∧ m.normal = m := by
  simp only [fromCanon, CoreResult.bind_eq_ok_iff, Except.ok.injEq] at h
  obtain ⟨_, -, voters, hvoters, _, -, _, -, _, -, _, -, rfl⟩ := h
  obtain ⟨w, hw, hvoters⟩ := CoreResult.bind_eq_ok hvoters
  have hvoters := distinctElems_of_decodeSet (sorted_of_field hv hw) hvoters
  simp [distinctSets, normal, hvoters]

end BootstrapManifest

/-- What a command expects of a key. -/
inductive Expected
  | absent
  | revision (revision : CatalogGeneration) (digest : Hash256)
  deriving DecidableEq, Repr

namespace Expected

def toCanon : Expected → CanonValue
  | absent => build [("kind", .str "absent")]
  | revision r d => build [
      ("digest", Canonical.toCanon d),
      ("kind", .str "revision"),
      ("revision", Canonical.toCanon r)]

def fromCanon (v : CanonValue) : CoreResult Expected := do
  let kind ← (← v.field "kind").asStr
  if kind = "absent" then .ok absent
  else if kind = "revision" then do
    let r ← v.fieldAs "revision"
    let d ← v.fieldAs "digest"
    .ok (revision r d)
  else .error (.new .nonCanonicalEncoding ("expected " ++ kind))

instance : Canonical Expected := ⟨toCanon, fromCanon, fun _ => true⟩

instance : ExactCanonical Expected where
  sorted_toCanon e := by cases e <;> exact sorted_build (by simp [sorted])
  fromCanon_toCanon e := by
    change fromCanon (toCanon e) = _
    cases e <;> simp [fromCanon, toCanon, field_build, asStr]

end Expected

/-- A key and what is expected of it, as an element of a command. -/
structure Expectation where
  key : CatalogKey
  expected : Expected
  deriving DecidableEq, Repr

namespace Expectation

def toCanon (e : Expectation) : CanonValue := build [
  ("expected", Canonical.toCanon e.expected),
  ("key", Canonical.toCanon e.key)]

def fromCanon (v : CanonValue) : CoreResult Expectation := do
  let key ← v.fieldAs "key"
  let expected ← v.fieldAs "expected"
  .ok { key, expected }

instance : Canonical Expectation := ⟨toCanon, fromCanon, fun _ => true⟩

instance : ExactCanonical Expectation where
  sorted_toCanon e := sorted_build (by simp)
  fromCanon_toCanon e := by
    change fromCanon (toCanon e) = _
    simp [fromCanon, toCanon]

end Expectation

inductive Predicate
  /-- No live scope lock of the tenant intersects the records. -/
  | noScopeOverlap (tenant : TenantId) (records : List RecordId)
  | grantInState (grant : GrantId) (state : GrantState)
  /-- The namespace is not retired. -/
  | namespaceLive (tenant : TenantId) (ns : RequestNamespace)
  deriving DecidableEq, Repr

namespace Predicate

def toCanon : Predicate → CanonValue
  | noScopeOverlap t rs => build [
      ("kind", .str "NoScopeOverlap"),
      ("records", canonSet rs),
      ("tenant", Canonical.toCanon t)]
  | grantInState g s => build [
      ("grant", Canonical.toCanon g),
      ("kind", .str "GrantInState"),
      ("state", Canonical.toCanon s)]
  | namespaceLive t ns => build [
      ("kind", .str "NamespaceLive"),
      ("namespace", Canonical.toCanon ns),
      ("tenant", Canonical.toCanon t)]

def fromCanon (v : CanonValue) : CoreResult Predicate := do
  let kind ← (← v.field "kind").asStr
  if kind = "NoScopeOverlap" then do
    let t ← v.fieldAs "tenant"
    let rs ← v.fieldAsSet "records"
    .ok (noScopeOverlap t rs)
  else if kind = "GrantInState" then do
    let g ← v.fieldAs "grant"
    let s ← v.fieldAs "state"
    .ok (grantInState g s)
  else if kind = "NamespaceLive" then do
    let t ← v.fieldAs "tenant"
    let ns ← v.fieldAs "namespace"
    .ok (namespaceLive t ns)
  else .error (.new .nonCanonicalEncoding ("predicate " ++ kind))

def distinctSets : Predicate → Bool
  | noScopeOverlap _ rs => distinctElems rs
  | _ => true

/-- As it is read back. -/
def normal : Predicate → Predicate
  | noScopeOverlap t rs => noScopeOverlap t (naturalOrder rs)
  | p => p

instance : Canonical Predicate := ⟨toCanon, fromCanon, distinctSets⟩

instance : LawfulCanonical Predicate := by
  refine .ofNormal normal ?_ ?_ ?_ ?_
  · intro p
    cases p <;> exact sorted_build (by simp [sorted])
  · intro p h
    change fromCanon (toCanon p) = _
    cases p with
    | noScopeOverlap t rs =>
      have hd : distinctElems rs := h
      simp [fromCanon, toCanon, normal, field_build, asStr, hd]
    | _ => simp [fromCanon, toCanon, normal, field_build, asStr]
  · intro p h
    cases p with
    | noScopeOverlap t rs =>
      change toCanon (normal _) = toCanon _
      rw [normal, toCanon, toCanon, canonSet_naturalOrder h]
    | _ => rfl
  · intro p h
    cases p with
    | noScopeOverlap t rs => exact distinctElems_naturalOrder h
    | _ => rfl

end Predicate

inductive Mutation
  /-- Insert a record under a key that is absent and was never tombstoned. -/
  | putImmutable (key : CatalogKey) (value : CanonTree)
  /-- Replace a record. -/
  | advancePointer (key : CatalogKey) (value : CanonTree)
  /-- Advance the lifecycle of a grant from one state to the next. -/
  | advanceGrantState (grant : GrantId) (old new : GrantState)
  | tombstone (key : CatalogKey)
  deriving DecidableEq, Repr

namespace Mutation

def toCanon : Mutation → CanonValue
  | putImmutable k v => build [
      ("key", Canonical.toCanon k),
      ("kind", .str "PutImmutable"),
      ("value", Canonical.toCanon v)]
  | advancePointer k v => build [
      ("key", Canonical.toCanon k),
      ("kind", .str "AdvancePointer"),
      ("value", Canonical.toCanon v)]
  | advanceGrantState g s s' => build [
      ("from", Canonical.toCanon s),
      ("grant", Canonical.toCanon g),
      ("kind", .str "AdvanceGrantState"),
      ("to", Canonical.toCanon s')]
  | tombstone k => build [
      ("key", Canonical.toCanon k),
      ("kind", .str "Tombstone")]

def fromCanon (v : CanonValue) : CoreResult Mutation := do
  let kind ← (← v.field "kind").asStr
  if kind = "PutImmutable" then do
    let k ← v.fieldAs "key"
    let w ← v.fieldAs "value"
    .ok (putImmutable k w)
  else if kind = "AdvancePointer" then do
    let k ← v.fieldAs "key"
    let w ← v.fieldAs "value"
    .ok (advancePointer k w)
  else if kind = "AdvanceGrantState" then do
    let g ← v.fieldAs "grant"
    let s ← v.fieldAs "from"
    let s' ← v.fieldAs "to"
    .ok (advanceGrantState g s s')
  else if kind = "Tombstone" then do
    let k ← v.fieldAs "key"
    .ok (tombstone k)
  else .error (.new .nonCanonicalEncoding ("mutation " ++ kind))

instance : Canonical Mutation := ⟨toCanon, fromCanon, fun _ => true⟩

instance : ExactCanonical Mutation where
  sorted_toCanon m := by cases m <;> exact sorted_build (by simp [sorted])
  fromCanon_toCanon m := by
    change fromCanon (toCanon m) = _
    cases m <;> simp [fromCanon, toCanon, field_build, asStr]

end Mutation

structure CatalogCommand where
  adminRequestId : AdminRequestId
  principal : PrincipalId
  expected : List Expectation
  predicates : List Predicate
  mutations : List Mutation
  deriving DecidableEq, Repr

namespace CatalogCommand

def toCanon (c : CatalogCommand) : CanonValue := build [
  ("admin_request_id", Canonical.toCanon c.adminRequestId),
  ("expected", Canonical.toCanon c.expected),
  ("mutations", Canonical.toCanon c.mutations),
  ("predicates", Canonical.toCanon c.predicates),
  ("principal", Canonical.toCanon c.principal)]

def fromCanon (v : CanonValue) : CoreResult CatalogCommand := do
  v.expectFields ["admin_request_id", "expected", "mutations", "predicates", "principal"]
  let expected ← v.fieldAs "expected"
  let adminRequestId ← v.fieldAs "admin_request_id"
  let principal ← v.fieldAs "principal"
  let predicates ← v.fieldAs "predicates"
  let mutations ← v.fieldAs "mutations"
  .ok { adminRequestId, principal, expected, predicates, mutations }

def distinctSets (c : CatalogCommand) : Bool := Canonical.distinctSets c.predicates

/-- As it is read back. -/
def normal (c : CatalogCommand) : CatalogCommand :=
  { c with predicates := LawfulCanonical.normal c.predicates }

instance : Canonical CatalogCommand := ⟨toCanon, fromCanon, distinctSets⟩

lemma sound_predicates (ps : List Predicate) : sound ps := by
  simp [sound]

instance : LawfulCanonical CatalogCommand := by
  refine .ofNormal normal ?_ ?_ ?_ ?_
  · intro c
    exact sorted_build (by simp [LawfulCanonical.sorted_toCanon])
  · intro c h
    have hp := fromCanon_eq_ok_normal (show Canonical.distinctSets c.predicates from h)
      (sound_predicates c.predicates)
    change fromCanon (toCanon c) = _
    simp [fromCanon, toCanon, normal, hp]
  · intro c h
    have hp := LawfulCanonical.toCanon_normal c.predicates h
    change toCanon (normal c) = toCanon c
    simp only [toCanon, normal, hp]
  · intro c h
    exact LawfulCanonical.distinctSets_normal c.predicates h

/-- The hash of everything but the request id, which names the command. -/
def commandHash (c : CatalogCommand) : Hash256 :=
  domainHash "astra.catalog-command.v1" (build [
    ("expected", Canonical.toCanon c.expected),
    ("mutations", Canonical.toCanon c.mutations),
    ("predicates", Canonical.toCanon c.predicates),
    ("principal", Canonical.toCanon c.principal)]).encode

end CatalogCommand

/-- What the consensus log carries. -/
inductive LogCommand
  | genesis (manifest : BootstrapManifest)
  | catalog (command : CatalogCommand)
  deriving DecidableEq, Repr

namespace LogCommand

def toCanon : LogCommand → CanonValue
  | genesis m => build [
      ("kind", .str "Genesis"),
      ("manifest", Canonical.toCanon m)]
  | catalog c => build [
      ("command", Canonical.toCanon c),
      ("kind", .str "Catalog")]

def fromCanon (v : CanonValue) : CoreResult LogCommand := do
  let kind ← (← v.field "kind").asStr
  if kind = "Genesis" then do
    let m ← v.fieldAs "manifest"
    .ok (genesis m)
  else if kind = "Catalog" then do
    let c ← v.fieldAs "command"
    .ok (catalog c)
  else .error (.new .nonCanonicalEncoding ("log command " ++ kind))

def distinctSets : LogCommand → Bool
  | genesis m => Canonical.distinctSets m
  | catalog c => Canonical.distinctSets c

/-- As it is read back. -/
def normal : LogCommand → LogCommand
  | genesis m => genesis (LawfulCanonical.normal m)
  | catalog c => catalog (LawfulCanonical.normal c)

instance : Canonical LogCommand := ⟨toCanon, fromCanon, distinctSets⟩

instance : LawfulCanonical LogCommand := by
  refine .ofNormal normal ?_ ?_ ?_ ?_
  · intro c
    cases c <;> exact sorted_build (by simp [LawfulCanonical.sorted_toCanon, sorted])
  · intro c h
    change fromCanon (toCanon c) = _
    cases c with
    | genesis m =>
      have hm := fromCanon_eq_ok_normal (show Canonical.distinctSets m from h) rfl
      simp [fromCanon, toCanon, normal, field_build, asStr, hm]
    | catalog c =>
      have hc := fromCanon_eq_ok_normal (show Canonical.distinctSets c from h) rfl
      simp [fromCanon, toCanon, normal, field_build, asStr, hc]
  · intro c h
    change toCanon (normal c) = toCanon c
    cases c with
    | genesis m => simp only [toCanon, normal, LawfulCanonical.toCanon_normal m h]
    | catalog c => simp only [toCanon, normal, LawfulCanonical.toCanon_normal c h]
  · intro c h
    cases c with
    | genesis m => exact LawfulCanonical.distinctSets_normal m h
    | catalog c => exact LawfulCanonical.distinctSets_normal c h

end LogCommand

/-- The result of a command, retained under its request id. -/
structure CatalogCommit where
  adminRequestId : AdminRequestId
  commandHash : Hash256
  catalogGeneration : CatalogGeneration
  changedKeys : List CatalogKey
  committedLogRef : UInt64
  /-- None for a success, or the code of the failure that was retained. -/
  failure : Option String
  deriving DecidableEq, Repr

namespace CatalogCommit

def toCanon (c : CatalogCommit) : CanonValue := build [
  ("admin_request_id", Canonical.toCanon c.adminRequestId),
  ("catalog_generation", Canonical.toCanon c.catalogGeneration),
  ("changed_keys", Canonical.toCanon c.changedKeys),
  ("command_hash", Canonical.toCanon c.commandHash),
  ("committed_log_ref", Canonical.toCanon c.committedLogRef),
  ("failure", Canonical.toCanon c.failure)]

def fromCanon (v : CanonValue) : CoreResult CatalogCommit := do
  let adminRequestId ← v.fieldAs "admin_request_id"
  let commandHash ← v.fieldAs "command_hash"
  let catalogGeneration ← v.fieldAs "catalog_generation"
  let changedKeys ← v.fieldAs "changed_keys"
  let committedLogRef ← v.fieldAs "committed_log_ref"
  let failure ← v.fieldAs "failure"
  .ok { adminRequestId, commandHash, catalogGeneration, changedKeys, committedLogRef, failure }

instance : Canonical CatalogCommit := ⟨toCanon, fromCanon, fun _ => true⟩

instance : ExactCanonical CatalogCommit where
  sorted_toCanon c := sorted_build (by simp)
  fromCanon_toCanon c := by
    change fromCanon (toCanon c) = _
    simp [fromCanon, toCanon]

end CatalogCommit

/-- Image of the state machine at one log index. -/
structure CatalogSnapshot where
  snapshotVersion : UInt32
  appliedIndex : UInt64
  generation : UInt64
  genesis : Option BootstrapManifest
  entries : List CatalogEntry
  results : List CatalogCommit
  deriving DecidableEq, Repr

namespace CatalogSnapshot

def version : UInt32 := 1

def toCanon (s : CatalogSnapshot) : CanonValue := build [
  ("applied_index", Canonical.toCanon s.appliedIndex),
  ("entries", Canonical.toCanon s.entries),
  ("generation", Canonical.toCanon s.generation),
  ("genesis", Canonical.toCanon s.genesis),
  ("kind", .str "catalog_snapshot.v1"),
  ("results", Canonical.toCanon s.results),
  ("snapshot_version", Canonical.toCanon s.snapshotVersion)]

def fromCanon (v : CanonValue) : CoreResult CatalogSnapshot := do
  v.expectFields ["applied_index", "entries", "generation", "genesis", "kind", "results",
    "snapshot_version"]
  let snapshotVersion ← v.fieldAs "snapshot_version"
  if snapshotVersion ≠ version then
    .error (.new .unsupportedFormat
      ("catalog snapshot version " ++ toString snapshotVersion.toNat))
  else do
    let genesis ← v.fieldAs "genesis"
    let appliedIndex ← v.fieldAs "applied_index"
    let generation ← v.fieldAs "generation"
    let entries ← v.fieldAs "entries"
    let results ← v.fieldAs "results"
    .ok { snapshotVersion, appliedIndex, generation, genesis, entries, results }

def distinctSets (s : CatalogSnapshot) : Bool := Canonical.distinctSets s.genesis

/-- As it is read back. -/
def normal (s : CatalogSnapshot) : CatalogSnapshot :=
  { s with genesis := LawfulCanonical.normal s.genesis }

instance : Canonical CatalogSnapshot := ⟨toCanon, fromCanon, distinctSets⟩

lemma sound_genesis (m : Option BootstrapManifest) : sound m := by
  cases m <;> rfl

instance : LawfulCanonical CatalogSnapshot where
  sound s := s.snapshotVersion = version
  normal := normal
  sorted_toCanon s := sorted_build (by simp [LawfulCanonical.sorted_toCanon, sorted])
  fromCanon_toCanon s h b := by
    have hg := fromCanon_eq_ok_normal (show Canonical.distinctSets s.genesis from h)
      (sound_genesis s.genesis)
    change fromCanon (toCanon s) = _ ↔ _
    by_cases hversion : s.snapshotVersion = version
    · simp [fromCanon, toCanon, normal, hg, hversion, eq_comm]
    · simp [fromCanon, toCanon, hversion]
  toCanon_normal s h := by
    have hg := LawfulCanonical.toCanon_normal s.genesis h
    change toCanon (normal s) = toCanon s
    simp only [toCanon, normal, hg]
  distinctSets_normal s h := LawfulCanonical.distinctSets_normal s.genesis h

end CatalogSnapshot

end CarolinaDB
