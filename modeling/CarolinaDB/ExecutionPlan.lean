import CarolinaDB.CatalogRecords
import CarolinaDB.LangIr

/-!
# Executable operation plans

The execution profile, assumptions and routing of a plan with their canonical
forms. A plan reads back with its sets in natural order.
-/
namespace CarolinaDB.Compiler

open CanonValue
open CarolinaDB.Lang (ResultSemantics)

abbrev TemplateId := UInt64
abbrev ModuleHash := Hash256

def planFormatVersion : UInt32 := 1

/-- A list of values that are always read back. -/
lemma fromCanon_list {α : Type} [Canonical α] [LawfulCanonical α] (hs : ∀ a : α, sound a)
    {l : List α} (h : distinctSets l) : fromCanon (toCanon l) = .ok (normal l) := by
  apply fromCanon_eq_ok_normal h
  simp [sound, hs]

section Profile

inductive AdmissionCheck
  | planHash | schemaHash | contractHash | operationVersion | idcBindings | authorityGrant
  | nodeReadiness | localFence | exclusiveWriterEpoch
  deriving DecidableEq, Repr

namespace AdmissionCheck

def label : AdmissionCheck → String
  | planHash => "plan_hash"
  | schemaHash => "schema_hash"
  | contractHash => "contract_hash"
  | operationVersion => "operation_version"
  | idcBindings => "idc_bindings"
  | authorityGrant => "authority_grant"
  | nodeReadiness => "node_readiness"
  | localFence => "local_fence"
  | exclusiveWriterEpoch => "exclusive_writer_epoch"

def fromLabel : String → CoreResult AdmissionCheck
  | "plan_hash" => .ok planHash
  | "schema_hash" => .ok schemaHash
  | "contract_hash" => .ok contractHash
  | "operation_version" => .ok operationVersion
  | "idc_bindings" => .ok idcBindings
  | "authority_grant" => .ok authorityGrant
  | "node_readiness" => .ok nodeReadiness
  | "local_fence" => .ok localFence
  | "exclusive_writer_epoch" => .ok exclusiveWriterEpoch
  | k => .error (.new .nonCanonicalEncoding ("unknown admission check " ++ k))

instance : Canonical AdmissionCheck where
  toCanon c := .str c.label
  fromCanon v := do fromLabel (← v.asStr)

instance : ExactCanonical AdmissionCheck where
  sorted_toCanon _ := rfl
  fromCanon_toCanon c := by cases c <;> rfl

end AdmissionCheck

inductive VisibilityProgram
  | localSnapshot
  | causalContext (group : String)
  | serialAuthoritative (authority : AuthorityId)
  | certifiedCut (authority : AuthorityId)
  deriving DecidableEq, Repr

namespace VisibilityProgram

def toCanon : VisibilityProgram → CanonValue
  | localSnapshot => build [("kind", .str "local_snapshot")]
  | causalContext g => build [("group", Canonical.toCanon g), ("kind", .str "causal_context")]
  | serialAuthoritative a => build [
      ("authority", Canonical.toCanon a), ("kind", .str "serial_authoritative")]
  | certifiedCut a => build [("authority", Canonical.toCanon a), ("kind", .str "certified_cut")]

def fromCanon (v : CanonValue) : CoreResult VisibilityProgram := do
  let kind ← (← v.field "kind").asStr
  if kind = "local_snapshot" then .ok localSnapshot
  else if kind = "causal_context" then do
    let g ← v.fieldAs "group"
    .ok (causalContext g)
  else if kind = "serial_authoritative" then do
    let a ← v.fieldAs "authority"
    .ok (serialAuthoritative a)
  else if kind = "certified_cut" then do
    let a ← v.fieldAs "authority"
    .ok (certifiedCut a)
  else .error (.new .nonCanonicalEncoding ("visibility " ++ kind))

instance : Canonical VisibilityProgram := ⟨toCanon, fromCanon, fun _ => true⟩

instance : ExactCanonical VisibilityProgram where
  sorted_toCanon p := by cases p <;> exact sorted_build (by simp [sorted])
  fromCanon_toCanon p := by
    change fromCanon (toCanon p) = _
    cases p <;> simp [fromCanon, toCanon, field_build, asStr]

end VisibilityProgram

inductive AuthorityProgram
  | exclusiveLocal (domain : AuthorityId)
  | orderedSerial (domain : AuthorityId) (voters : UInt32)
  | escrowHolder (domain : AuthorityId)
  | certifier (domain : AuthorityId)
  | none
  deriving DecidableEq, Repr

namespace AuthorityProgram

def toCanon : AuthorityProgram → CanonValue
  | exclusiveLocal d => build [("domain", Canonical.toCanon d), ("kind", .str "exclusive_local")]
  | orderedSerial d n => build [
      ("domain", Canonical.toCanon d), ("kind", .str "ordered_serial"),
      ("voters", Canonical.toCanon n)]
  | escrowHolder d => build [("domain", Canonical.toCanon d), ("kind", .str "escrow_holder")]
  | certifier d => build [("domain", Canonical.toCanon d), ("kind", .str "certifier")]
  | none => build [("kind", .str "none")]

def fromCanon (v : CanonValue) : CoreResult AuthorityProgram := do
  let kind ← (← v.field "kind").asStr
  if kind = "exclusive_local" then do
    let d ← v.fieldAs "domain"
    .ok (exclusiveLocal d)
  else if kind = "ordered_serial" then do
    let d ← v.fieldAs "domain"
    let n ← v.fieldAs "voters"
    .ok (orderedSerial d n)
  else if kind = "escrow_holder" then do
    let d ← v.fieldAs "domain"
    .ok (escrowHolder d)
  else if kind = "certifier" then do
    let d ← v.fieldAs "domain"
    .ok (certifier d)
  else if kind = "none" then .ok none
  else .error (.new .nonCanonicalEncoding ("authority " ++ kind))

instance : Canonical AuthorityProgram := ⟨toCanon, fromCanon, fun _ => true⟩

instance : ExactCanonical AuthorityProgram where
  sorted_toCanon p := by cases p <;> exact sorted_build (by simp [sorted])
  fromCanon_toCanon p := by
    change fromCanon (toCanon p) = _
    cases p <;> simp [fromCanon, toCanon, field_build, asStr]

end AuthorityProgram

inductive OrderingProgram
  /-- Serial order over the listed templates. -/
  | serial (idcTemplates : List String)
  | causal (group : String)
  | unordered
  deriving DecidableEq, Repr

namespace OrderingProgram

def toCanon : OrderingProgram → CanonValue
  | serial ts => build [("idc_templates", canonSet ts), ("kind", .str "serial")]
  | causal g => build [("group", Canonical.toCanon g), ("kind", .str "causal")]
  | unordered => build [("kind", .str "unordered")]

def fromCanon (v : CanonValue) : CoreResult OrderingProgram := do
  let kind ← (← v.field "kind").asStr
  if kind = "serial" then do
    let ts ← v.fieldAsSet "idc_templates"
    .ok (serial ts)
  else if kind = "causal" then do
    let g ← v.fieldAs "group"
    .ok (causal g)
  else if kind = "unordered" then .ok unordered
  else .error (.new .nonCanonicalEncoding ("ordering " ++ kind))

def distinctSets : OrderingProgram → Bool
  | serial ts => distinctElems ts
  | _ => true

/-- As it is read back. -/
def normal : OrderingProgram → OrderingProgram
  | serial ts => serial (naturalOrder ts)
  | p => p

instance : Canonical OrderingProgram := ⟨toCanon, fromCanon, distinctSets⟩

lemma fromCanon_toCanon {p : OrderingProgram} (h : p.distinctSets) :
    fromCanon (toCanon p) = .ok p.normal := by
  cases p with
  | serial ts =>
    have hd : distinctElems ts := h
    simp [fromCanon, toCanon, normal, field_build, asStr, hd]
  | _ => simp [fromCanon, toCanon, normal, field_build, asStr]

lemma toCanon_normal {p : OrderingProgram} (h : p.distinctSets) : toCanon p.normal = toCanon p := by
  cases p with
  | serial ts => rw [normal, toCanon, toCanon, canonSet_naturalOrder h]
  | _ => rfl

lemma distinctSets_normal {p : OrderingProgram} (h : p.distinctSets) : p.normal.distinctSets := by
  cases p with
  | serial ts => exact distinctElems_naturalOrder h
  | _ => rfl

instance : LawfulCanonical OrderingProgram :=
  .ofNormal normal (fun p => by cases p <;> exact sorted_build (by simp [sorted]))
    (fun _ => fromCanon_toCanon) (fun _ => toCanon_normal) fun _ => distinctSets_normal

end OrderingProgram

inductive ValidationProgram
  /-- Every invariant of the closure is evaluated at execution. -/
  | fullEvaluation (invariants : List InvariantId)
  | certification (programVersion : UInt32)
  | acceptedEffectsOnly
  deriving DecidableEq, Repr

namespace ValidationProgram

def toCanon : ValidationProgram → CanonValue
  | fullEvaluation is => build [("invariants", canonSet is), ("kind", .str "full_evaluation")]
  | certification n => build [
      ("kind", .str "certification"), ("program_version", Canonical.toCanon n)]
  | acceptedEffectsOnly => build [("kind", .str "accepted_effects_only")]

def fromCanon (v : CanonValue) : CoreResult ValidationProgram := do
  let kind ← (← v.field "kind").asStr
  if kind = "full_evaluation" then do
    let is ← v.fieldAsSet "invariants"
    .ok (fullEvaluation is)
  else if kind = "certification" then do
    let n ← v.fieldAs "program_version"
    .ok (certification n)
  else if kind = "accepted_effects_only" then .ok acceptedEffectsOnly
  else .error (.new .nonCanonicalEncoding ("validation " ++ kind))

def distinctSets : ValidationProgram → Bool
  | fullEvaluation is => distinctElems is
  | _ => true

/-- As it is read back. -/
def normal : ValidationProgram → ValidationProgram
  | fullEvaluation is => fullEvaluation (naturalOrder is)
  | p => p

instance : Canonical ValidationProgram := ⟨toCanon, fromCanon, distinctSets⟩

lemma fromCanon_toCanon {p : ValidationProgram} (h : p.distinctSets) :
    fromCanon (toCanon p) = .ok p.normal := by
  cases p with
  | fullEvaluation is =>
    have hd : distinctElems is := h
    simp [fromCanon, toCanon, normal, field_build, asStr, hd]
  | _ => simp [fromCanon, toCanon, normal, field_build, asStr]

lemma toCanon_normal {p : ValidationProgram} (h : p.distinctSets) :
    toCanon p.normal = toCanon p := by
  cases p with
  | fullEvaluation is => rw [normal, toCanon, toCanon, canonSet_naturalOrder h]
  | _ => rfl

lemma distinctSets_normal {p : ValidationProgram} (h : p.distinctSets) :
    p.normal.distinctSets := by
  cases p with
  | fullEvaluation is => exact distinctElems_naturalOrder h
  | _ => rfl

instance : LawfulCanonical ValidationProgram :=
  .ofNormal normal (fun p => by cases p <;> exact sorted_build (by simp [sorted]))
    (fun _ => fromCanon_toCanon) (fun _ => toCanon_normal) fun _ => distinctSets_normal

end ValidationProgram

inductive AtomicityProgram
  /-- One batch at one authority. -/
  | localBatch
  | compositePublication (participants : List String)
  deriving DecidableEq, Repr

namespace AtomicityProgram

def toCanon : AtomicityProgram → CanonValue
  | localBatch => build [("kind", .str "local_batch")]
  | compositePublication ps => build [
      ("kind", .str "composite_publication"), ("participants", canonSet ps)]

def fromCanon (v : CanonValue) : CoreResult AtomicityProgram := do
  let kind ← (← v.field "kind").asStr
  if kind = "local_batch" then .ok localBatch
  else if kind = "composite_publication" then do
    let ps ← v.fieldAsSet "participants"
    .ok (compositePublication ps)
  else .error (.new .nonCanonicalEncoding ("atomicity " ++ kind))

def distinctSets : AtomicityProgram → Bool
  | compositePublication ps => distinctElems ps
  | localBatch => true

/-- As it is read back. -/
def normal : AtomicityProgram → AtomicityProgram
  | compositePublication ps => compositePublication (naturalOrder ps)
  | localBatch => localBatch

instance : Canonical AtomicityProgram := ⟨toCanon, fromCanon, distinctSets⟩

lemma fromCanon_toCanon {p : AtomicityProgram} (h : p.distinctSets) :
    fromCanon (toCanon p) = .ok p.normal := by
  cases p with
  | localBatch => simp [fromCanon, toCanon, normal, field_build, asStr]
  | compositePublication ps =>
    have hd : distinctElems ps := h
    simp [fromCanon, toCanon, normal, field_build, asStr, hd]

lemma toCanon_normal {p : AtomicityProgram} (h : p.distinctSets) :
    toCanon p.normal = toCanon p := by
  cases p with
  | localBatch => rfl
  | compositePublication ps => rw [normal, toCanon, toCanon, canonSet_naturalOrder h]

lemma distinctSets_normal {p : AtomicityProgram} (h : p.distinctSets) :
    p.normal.distinctSets := by
  cases p with
  | localBatch => rfl
  | compositePublication ps => exact distinctElems_naturalOrder h

instance : LawfulCanonical AtomicityProgram :=
  .ofNormal normal (fun p => by cases p <;> exact sorted_build (by simp [sorted]))
    (fun _ => fromCanon_toCanon) (fun _ => toCanon_normal) fun _ => distinctSets_normal

end AtomicityProgram

inductive DurabilityProgram
  | localStable
  | replicatedStable (policy : String) (requiredCopies : UInt32)
  deriving DecidableEq, Repr

namespace DurabilityProgram

def toCanon : DurabilityProgram → CanonValue
  | localStable => build [("kind", .str "local_stable")]
  | replicatedStable p n => build [
      ("kind", .str "replicated_stable"), ("policy", Canonical.toCanon p),
      ("required_copies", Canonical.toCanon n)]

def fromCanon (v : CanonValue) : CoreResult DurabilityProgram := do
  let kind ← (← v.field "kind").asStr
  if kind = "local_stable" then .ok localStable
  else if kind = "replicated_stable" then do
    let p ← v.fieldAs "policy"
    let n ← v.fieldAs "required_copies"
    .ok (replicatedStable p n)
  else .error (.new .nonCanonicalEncoding ("durability " ++ kind))

instance : Canonical DurabilityProgram := ⟨toCanon, fromCanon, fun _ => true⟩

instance : ExactCanonical DurabilityProgram where
  sorted_toCanon p := by cases p <;> exact sorted_build (by simp [sorted])
  fromCanon_toCanon p := by
    change fromCanon (toCanon p) = _
    cases p <;> simp [fromCanon, toCanon, field_build, asStr]

end DurabilityProgram

inductive ReplicationProgram
  | none
  | semanticEffects (handler : String)
  deriving DecidableEq, Repr

namespace ReplicationProgram

def toCanon : ReplicationProgram → CanonValue
  | none => build [("kind", .str "none")]
  | semanticEffects h => build [("handler", Canonical.toCanon h), ("kind", .str "semantic_effects")]

def fromCanon (v : CanonValue) : CoreResult ReplicationProgram := do
  let kind ← (← v.field "kind").asStr
  if kind = "none" then .ok none
  else if kind = "semantic_effects" then do
    let h ← v.fieldAs "handler"
    .ok (semanticEffects h)
  else .error (.new .nonCanonicalEncoding ("replication " ++ kind))

instance : Canonical ReplicationProgram := ⟨toCanon, fromCanon, fun _ => true⟩

instance : ExactCanonical ReplicationProgram where
  sorted_toCanon p := by cases p <;> exact sorted_build (by simp [sorted])
  fromCanon_toCanon p := by
    change fromCanon (toCanon p) = _
    cases p <;> simp [fromCanon, toCanon, field_build, asStr]

end ReplicationProgram

/-- The result scope of a contract, its parameters as the 32-bit numbers a plan carries. -/
inductive ResultScope
  | perKey (record : RecordId) (param : UInt32)
  | perGroup (record : RecordId) (param : UInt32)
  | global (records : List RecordId)
  deriving DecidableEq, Repr

namespace ResultScope

def toCanon : ResultScope → CanonValue
  | perKey r i => build [
      ("kind", .str "per_key"), ("param", Canonical.toCanon i), ("record", Canonical.toCanon r)]
  | perGroup r i => build [
      ("kind", .str "per_group"), ("param", Canonical.toCanon i), ("record", Canonical.toCanon r)]
  | global rs => build [("kind", .str "global"), ("records", Canonical.toCanon rs)]

def fromCanon (v : CanonValue) : CoreResult ResultScope := do
  let kind ← (← v.field "kind").asStr
  if kind = "per_key" then do
    let r ← v.fieldAs "record"
    let i ← v.fieldAs "param"
    .ok (perKey r i)
  else if kind = "per_group" then do
    let r ← v.fieldAs "record"
    let i ← v.fieldAs "param"
    .ok (perGroup r i)
  else if kind = "global" then do
    let rs ← v.fieldAs "records"
    .ok (global rs)
  else .error (.new .nonCanonicalEncoding ("scope " ++ kind))

instance : Canonical ResultScope := ⟨toCanon, fromCanon, fun _ => true⟩

instance : ExactCanonical ResultScope where
  sorted_toCanon s := by cases s <;> exact sorted_build (by simp [sorted])
  fromCanon_toCanon s := by
    change fromCanon (toCanon s) = _
    cases s <;> simp [fromCanon, toCanon, field_build, asStr]

end ResultScope

deriving instance DecidableEq, Repr for ResultSemantics

namespace Semantics

def label : ResultSemantics → String
  | .receipt => "Receipt"
  | .snapshotValue => "SnapshotValue"
  | .exactOrderedValue => "ExactOrderedValue"

def fromLabel : String → CoreResult ResultSemantics
  | "Receipt" => .ok .receipt
  | "SnapshotValue" => .ok .snapshotValue
  | "ExactOrderedValue" => .ok .exactOrderedValue
  | k => .error (.new .nonCanonicalEncoding ("semantics " ++ k))

instance : Canonical ResultSemantics where
  toCanon s := .str (label s)
  fromCanon v := do fromLabel (← v.asStr)

instance : ExactCanonical ResultSemantics where
  sorted_toCanon _ := rfl
  fromCanon_toCanon s := by cases s <;> rfl

end Semantics

structure ResultProgram where
  semantics : ResultSemantics
  scope : ResultScope
  /-- The final receipt is kept at the request home. -/
  receipt : Bool
  deriving DecidableEq, Repr

structure RecoveryContract where
  resolveByRequestKey : Bool
  inDoubt : String
  timeoutIsNotAbort : Bool
  deriving DecidableEq, Repr

structure ExecutionProfile where
  family : ConsistencyClass
  /-- The checks of the admission program. -/
  admission : List AdmissionCheck
  visibility : VisibilityProgram
  authority : AuthorityProgram
  ordering : OrderingProgram
  validation : ValidationProgram
  atomicity : AtomicityProgram
  durability : DurabilityProgram
  replication : ReplicationProgram
  result : ResultProgram
  recovery : RecoveryContract
  deriving DecidableEq, Repr

namespace ExecutionProfile

def toCanon (p : ExecutionProfile) : CanonValue := build [
  ("admission", build [("checks", Canonical.toCanon p.admission)]),
  ("atomicity", Canonical.toCanon p.atomicity),
  ("authority", Canonical.toCanon p.authority),
  ("durability", Canonical.toCanon p.durability),
  ("family", Canonical.toCanon p.family),
  ("kind", .str "execution-profile.v1"),
  ("ordering", Canonical.toCanon p.ordering),
  ("recovery", build [
    ("in_doubt", Canonical.toCanon p.recovery.inDoubt),
    ("resolve_by_request_key", Canonical.toCanon p.recovery.resolveByRequestKey),
    ("timeout_is_not_abort", Canonical.toCanon p.recovery.timeoutIsNotAbort)]),
  ("replication", Canonical.toCanon p.replication),
  ("result", build [
    ("receipt", Canonical.toCanon p.result.receipt),
    ("scope", Canonical.toCanon p.result.scope),
    ("semantics", Canonical.toCanon p.result.semantics)]),
  ("validation", Canonical.toCanon p.validation),
  ("visibility", Canonical.toCanon p.visibility)]

def fromCanon (v : CanonValue) : CoreResult ExecutionProfile := do
  let visibility ← v.fieldAs "visibility"
  let authority ← v.fieldAs "authority"
  let ordering ← v.fieldAs "ordering"
  let validation ← v.fieldAs "validation"
  let atomicity ← v.fieldAs "atomicity"
  let durability ← v.fieldAs "durability"
  let replication ← v.fieldAs "replication"
  let res ← v.field "result"
  let scope ← res.fieldAs "scope"
  let semantics ← res.fieldAs "semantics"
  let rec' ← v.field "recovery"
  let family ← v.fieldAs "family"
  let admission ← (← v.field "admission").fieldAs "checks"
  let receipt ← res.fieldAs "receipt"
  let resolveByRequestKey ← rec'.fieldAs "resolve_by_request_key"
  let inDoubt ← rec'.fieldAs "in_doubt"
  let timeoutIsNotAbort ← rec'.fieldAs "timeout_is_not_abort"
  .ok { family, admission, visibility, authority, ordering, validation, atomicity, durability,
        replication, result := ⟨semantics, scope, receipt⟩,
        recovery := ⟨resolveByRequestKey, inDoubt, timeoutIsNotAbort⟩ }

def distinctSets (p : ExecutionProfile) : Bool :=
  p.ordering.distinctSets && (p.validation.distinctSets && p.atomicity.distinctSets)

/-- As it is read back. -/
def normal (p : ExecutionProfile) : ExecutionProfile :=
  { p with
    ordering := p.ordering.normal
    validation := p.validation.normal
    atomicity := p.atomicity.normal }

instance : Canonical ExecutionProfile := ⟨toCanon, fromCanon, distinctSets⟩

lemma sorted_toCanon (p : ExecutionProfile) : (toCanon p).sorted := by
  refine sorted_build ?_
  simp [sorted, sorted_build, LawfulCanonical.sorted_toCanon]

lemma fromCanon_toCanon {p : ExecutionProfile} (h : p.distinctSets) :
    fromCanon (toCanon p) = .ok p.normal := by
  simp only [distinctSets, Bool.and_eq_true] at h
  have hordering : Canonical.fromCanon (Canonical.toCanon p.ordering) = .ok p.ordering.normal :=
    OrderingProgram.fromCanon_toCanon h.1
  have hvalidation : Canonical.fromCanon (Canonical.toCanon p.validation) =
      .ok p.validation.normal := ValidationProgram.fromCanon_toCanon h.2.1
  have hatomicity : Canonical.fromCanon (Canonical.toCanon p.atomicity) =
      .ok p.atomicity.normal := AtomicityProgram.fromCanon_toCanon h.2.2
  simp only [fromCanon, toCanon, CoreResult.ok_bind, fieldAs_build, field_build, lookup_cons_eq,
    reduceIte, String.reduceEq, ExactCanonical.fromCanon_toCanon, hordering, hvalidation,
    hatomicity]
  rfl

lemma toCanon_normal {p : ExecutionProfile} (h : p.distinctSets) :
    toCanon p.normal = toCanon p := by
  simp only [distinctSets, Bool.and_eq_true] at h
  have hordering : Canonical.toCanon p.ordering.normal = Canonical.toCanon p.ordering :=
    OrderingProgram.toCanon_normal h.1
  have hvalidation : Canonical.toCanon p.validation.normal = Canonical.toCanon p.validation :=
    ValidationProgram.toCanon_normal h.2.1
  have hatomicity : Canonical.toCanon p.atomicity.normal = Canonical.toCanon p.atomicity :=
    AtomicityProgram.toCanon_normal h.2.2
  simp only [toCanon, normal, hordering, hvalidation, hatomicity]

lemma distinctSets_normal {p : ExecutionProfile} (h : p.distinctSets) :
    p.normal.distinctSets := by
  simp only [distinctSets, Bool.and_eq_true] at h ⊢
  exact ⟨OrderingProgram.distinctSets_normal h.1, ValidationProgram.distinctSets_normal h.2.1,
    AtomicityProgram.distinctSets_normal h.2.2⟩

instance : LawfulCanonical ExecutionProfile :=
  .ofNormal normal sorted_toCanon (fun _ => fromCanon_toCanon) (fun _ => toCanon_normal)
    fun _ => distinctSets_normal

end ExecutionProfile

end Profile

section Assumptions

inductive AssumptionPredicate
  | exclusiveWriterEpoch (domain : AuthorityId)
  | orderedAuthorityActive (domain : AuthorityId)
  | acceptedPlanGeneration
  | storageReady
  | capabilityVersion (family : ConsistencyClass)
  | durableWitnessPolicy (policy : String)
  | closedOperationSet (moduleHash : ModuleHash)
  deriving DecidableEq, Repr

namespace AssumptionPredicate

def toCanon : AssumptionPredicate → CanonValue
  | exclusiveWriterEpoch d => build [
      ("domain", Canonical.toCanon d), ("kind", .str "exclusive_writer_epoch")]
  | orderedAuthorityActive d => build [
      ("domain", Canonical.toCanon d), ("kind", .str "ordered_authority_active")]
  | acceptedPlanGeneration => build [("kind", .str "accepted_plan_generation")]
  | storageReady => build [("kind", .str "storage_ready")]
  | capabilityVersion f => build [
      ("family", Canonical.toCanon f), ("kind", .str "capability_version")]
  | durableWitnessPolicy p => build [
      ("kind", .str "durable_witness_policy"), ("policy", Canonical.toCanon p)]
  | closedOperationSet h => build [
      ("kind", .str "closed_operation_set"), ("module_hash", Canonical.toCanon h)]

def fromCanon (v : CanonValue) : CoreResult AssumptionPredicate := do
  let kind ← (← v.field "kind").asStr
  if kind = "exclusive_writer_epoch" then do
    let d ← v.fieldAs "domain"
    .ok (exclusiveWriterEpoch d)
  else if kind = "ordered_authority_active" then do
    let d ← v.fieldAs "domain"
    .ok (orderedAuthorityActive d)
  else if kind = "accepted_plan_generation" then .ok acceptedPlanGeneration
  else if kind = "storage_ready" then .ok storageReady
  else if kind = "capability_version" then do
    let f ← v.fieldAs "family"
    .ok (capabilityVersion f)
  else if kind = "durable_witness_policy" then do
    let p ← v.fieldAs "policy"
    .ok (durableWitnessPolicy p)
  else if kind = "closed_operation_set" then do
    let h ← v.fieldAs "module_hash"
    .ok (closedOperationSet h)
  else .error (.new .nonCanonicalEncoding ("assumption " ++ kind))

instance : Canonical AssumptionPredicate := ⟨toCanon, fromCanon, fun _ => true⟩

instance : ExactCanonical AssumptionPredicate where
  sorted_toCanon p := by cases p <;> exact sorted_build (by simp [sorted])
  fromCanon_toCanon p := by
    change fromCanon (toCanon p) = _
    cases p <;> simp [fromCanon, toCanon, field_build, asStr]

end AssumptionPredicate

inductive Enforcement
  | compileTimeEvidence | admissionCheck | durableFence | protocolInvariant
  deriving DecidableEq, Repr

namespace Enforcement

def label : Enforcement → String
  | compileTimeEvidence => "compile_time_evidence"
  | admissionCheck => "admission_check"
  | durableFence => "durable_fence"
  | protocolInvariant => "protocol_invariant"

def fromLabel : String → CoreResult Enforcement
  | "compile_time_evidence" => .ok compileTimeEvidence
  | "admission_check" => .ok admissionCheck
  | "durable_fence" => .ok durableFence
  | "protocol_invariant" => .ok protocolInvariant
  | k => .error (.new .nonCanonicalEncoding ("enforcement " ++ k))

instance : Canonical Enforcement where
  toCanon e := .str e.label
  fromCanon v := do fromLabel (← v.asStr)

instance : ExactCanonical Enforcement where
  sorted_toCanon _ := rfl
  fromCanon_toCanon e := by cases e <;> rfl

end Enforcement

inductive FailureAction
  | reject
  | wait
  | quiesceAndTransition (plan : PlanRef)
  deriving DecidableEq, Repr

namespace FailureAction

def toCanon : FailureAction → CanonValue
  | reject => build [("kind", .str "reject")]
  | wait => build [("kind", .str "wait")]
  | quiesceAndTransition p => build [
      ("kind", .str "quiesce_and_transition"), ("plan", Canonical.toCanon p)]

def fromCanon (v : CanonValue) : CoreResult FailureAction := do
  let kind ← (← v.field "kind").asStr
  if kind = "reject" then .ok reject
  else if kind = "wait" then .ok wait
  else if kind = "quiesce_and_transition" then do
    let p ← v.fieldAs "plan"
    .ok (quiesceAndTransition p)
  else .error (.new .nonCanonicalEncoding ("failure action " ++ kind))

instance : Canonical FailureAction := ⟨toCanon, fromCanon, fun _ => true⟩

instance : ExactCanonical FailureAction where
  sorted_toCanon a := by cases a <;> exact sorted_build (by simp [sorted])
  fromCanon_toCanon a := by
    change fromCanon (toCanon a) = _
    cases a <;> simp [fromCanon, toCanon, field_build, asStr]

end FailureAction

structure Assumption where
  id : String
  predicate : AssumptionPredicate
  enforcement : Enforcement
  failureAction : FailureAction
  deriving DecidableEq, Repr

namespace Assumption

def toCanon (a : Assumption) : CanonValue := build [
  ("enforcement", Canonical.toCanon a.enforcement),
  ("failure_action", Canonical.toCanon a.failureAction),
  ("id", Canonical.toCanon a.id),
  ("predicate", Canonical.toCanon a.predicate)]

def fromCanon (v : CanonValue) : CoreResult Assumption := do
  let predicate ← v.fieldAs "predicate"
  let enforcement ← v.fieldAs "enforcement"
  let failureAction ← v.fieldAs "failure_action"
  let id ← v.fieldAs "id"
  .ok { id, predicate, enforcement, failureAction }

instance : Canonical Assumption := ⟨toCanon, fromCanon, fun _ => true⟩

instance : ExactCanonical Assumption where
  sorted_toCanon _ := sorted_build (by simp)
  fromCanon_toCanon a := by
    change fromCanon (toCanon a) = _
    simp [fromCanon, toCanon]

end Assumption

end Assumptions

section Plan

/-- A template of invariant domains, carried by a plan. -/
structure IdcTemplateRef where
  templateName : String
  records : List RecordId
  /-- Instances are selected by a primary key. -/
  perKey : Bool
  deriving DecidableEq, Repr

namespace IdcTemplateRef

def toCanon (t : IdcTemplateRef) : CanonValue := build [
  ("per_key", Canonical.toCanon t.perKey),
  ("records", canonSet t.records),
  ("template_name", Canonical.toCanon t.templateName)]

def fromCanon (v : CanonValue) : CoreResult IdcTemplateRef := do
  let templateName ← v.fieldAs "template_name"
  let records ← v.fieldAsSet "records"
  let perKey ← v.fieldAs "per_key"
  .ok { templateName, records, perKey }

/-- As it is read back. -/
def normal (t : IdcTemplateRef) : IdcTemplateRef := { t with records := naturalOrder t.records }

instance : Canonical IdcTemplateRef := ⟨toCanon, fromCanon, fun t => distinctElems t.records⟩

instance : LawfulCanonical IdcTemplateRef := by
  refine .ofNormal normal ?_ ?_ ?_ ?_
  · intro t
    exact sorted_build (by simp)
  · intro t h
    have hd : distinctElems t.records := h
    change fromCanon (toCanon t) = _
    simp [fromCanon, toCanon, normal, hd]
  · intro t h
    change toCanon (normal t) = toCanon t
    simp only [toCanon, normal, canonSet_naturalOrder h]
  · intro t h
    exact distinctElems_naturalOrder h

end IdcTemplateRef

/-- A template and the parameter that selects its instance, if it is not global. -/
structure InstanceKey where
  template : String
  keyParam : Option UInt32
  deriving DecidableEq, Repr

instance : NonNull UInt32 where
  toCanon_ne_null _ := by simp [toCanon, CanonValue.u32]

namespace InstanceKey

def toCanon (k : InstanceKey) : CanonValue := build [
  ("key_param", Canonical.toCanon k.keyParam),
  ("template", Canonical.toCanon k.template)]

def fromCanon (v : CanonValue) : CoreResult InstanceKey := do
  let kp ← v.field "key_param"
  let template ← v.fieldAs "template"
  let keyParam ← Canonical.fromCanon kp
  .ok { template, keyParam }

instance : Canonical InstanceKey := ⟨toCanon, fromCanon, fun _ => true⟩

instance : ExactCanonical InstanceKey where
  sorted_toCanon _ := sorted_build (by simp)
  fromCanon_toCanon k := by
    change fromCanon (toCanon k) = _
    simp [fromCanon, toCanon, field_build]

end InstanceKey

structure RoutingProgram where
  instanceKeys : List InstanceKey
  authority : AuthorityId
  placementEpoch : PlacementEpoch
  deriving DecidableEq, Repr

namespace RoutingProgram

def toCanon (r : RoutingProgram) : CanonValue := build [
  ("authority", Canonical.toCanon r.authority),
  ("instance_keys", Canonical.toCanon r.instanceKeys),
  ("placement_epoch", Canonical.toCanon r.placementEpoch)]

def fromCanon (v : CanonValue) : CoreResult RoutingProgram := do
  let instanceKeys ← v.fieldAs "instance_keys"
  let authority ← v.fieldAs "authority"
  let placementEpoch ← v.fieldAs "placement_epoch"
  .ok { instanceKeys, authority, placementEpoch }

instance : Canonical RoutingProgram := ⟨toCanon, fromCanon, fun _ => true⟩

instance : ExactCanonical RoutingProgram where
  sorted_toCanon _ := sorted_build (by simp)
  fromCanon_toCanon r := by
    change fromCanon (toCanon r) = _
    simp [fromCanon, toCanon]

end RoutingProgram

structure MigrationRequirement where
  target : String
  requirement : String
  deriving DecidableEq, Repr

namespace MigrationRequirement

def toCanon (m : MigrationRequirement) : CanonValue := build [
  ("requirement", Canonical.toCanon m.requirement),
  ("target", Canonical.toCanon m.target)]

def fromCanon (v : CanonValue) : CoreResult MigrationRequirement := do
  let target ← v.fieldAs "target"
  let requirement ← v.fieldAs "requirement"
  .ok { target, requirement }

instance : Canonical MigrationRequirement := ⟨toCanon, fromCanon, fun _ => true⟩

instance : ExactCanonical MigrationRequirement where
  sorted_toCanon _ := sorted_build (by simp)
  fromCanon_toCanon m := by
    change fromCanon (toCanon m) = _
    simp [fromCanon, toCanon]

end MigrationRequirement

/-- Estimated cost, compared field by field. -/
structure CostDescriptor where
  remoteParticipants : UInt32
  coordinationRounds : UInt32
  backgroundTransfer : UInt32
  templateId : TemplateId
  deriving DecidableEq, Repr

namespace CostDescriptor

def toCanon (c : CostDescriptor) : CanonValue := build [
  ("background_transfer", Canonical.toCanon c.backgroundTransfer),
  ("coordination_rounds", Canonical.toCanon c.coordinationRounds),
  ("remote_participants", Canonical.toCanon c.remoteParticipants),
  ("template_id", Canonical.toCanon c.templateId)]

def fromCanon (v : CanonValue) : CoreResult CostDescriptor := do
  let remoteParticipants ← v.fieldAs "remote_participants"
  let coordinationRounds ← v.fieldAs "coordination_rounds"
  let backgroundTransfer ← v.fieldAs "background_transfer"
  let templateId ← v.fieldAs "template_id"
  .ok { remoteParticipants, coordinationRounds, backgroundTransfer, templateId }

instance : Canonical CostDescriptor := ⟨toCanon, fromCanon, fun _ => true⟩

instance : ExactCanonical CostDescriptor where
  sorted_toCanon _ := sorted_build (by simp)
  fromCanon_toCanon c := by
    change fromCanon (toCanon c) = _
    simp [fromCanon, toCanon]

end CostDescriptor

structure OperationPlan where
  planFormatVersion : UInt32
  planId : PlanId
  operation : OperationRef
  operationName : String
  operationHash : OperationHash
  schemaHash : SchemaHash
  contractHash : ContractHash
  invariantSetHash : Hash256
  moduleHash : ModuleHash
  catalogGeneration : CatalogGeneration
  planGeneration : PlanGeneration
  idcTemplates : List IdcTemplateRef
  templateId : TemplateId
  templateVersion : UInt32
  profile : ExecutionProfile
  routing : RoutingProgram
  assumptions : List Assumption
  fallbackPlanRefs : List PlanRef
  migrationRequirements : List MigrationRequirement
  protocolCapabilities : List String
  cost : CostDescriptor
  deriving DecidableEq, Repr

namespace OperationPlan

def toCanon (p : OperationPlan) : CanonValue := build [
  ("assumptions", Canonical.toCanon p.assumptions),
  ("catalog_generation", Canonical.toCanon p.catalogGeneration),
  ("contract_hash", Canonical.toCanon p.contractHash),
  ("cost", Canonical.toCanon p.cost),
  ("fallback_plan_refs", canonSet p.fallbackPlanRefs),
  ("idc_templates", Canonical.toCanon p.idcTemplates),
  ("invariant_set_hash", Canonical.toCanon p.invariantSetHash),
  ("kind", .str "plan.v1"),
  ("migration_requirements", Canonical.toCanon p.migrationRequirements),
  ("module_hash", Canonical.toCanon p.moduleHash),
  ("operation", Canonical.toCanon p.operation),
  ("operation_hash", Canonical.toCanon p.operationHash),
  ("operation_name", Canonical.toCanon p.operationName),
  ("plan_format_version", Canonical.toCanon p.planFormatVersion),
  ("plan_generation", Canonical.toCanon p.planGeneration),
  ("plan_id", Canonical.toCanon p.planId),
  ("profile", Canonical.toCanon p.profile),
  ("protocol_capabilities", canonSet p.protocolCapabilities),
  ("routing", Canonical.toCanon p.routing),
  ("schema_hash", Canonical.toCanon p.schemaHash),
  ("template_id", Canonical.toCanon p.templateId),
  ("template_version", Canonical.toCanon p.templateVersion)]

def fieldNames : List String := ["assumptions", "catalog_generation", "contract_hash", "cost",
  "fallback_plan_refs", "idc_templates", "invariant_set_hash", "kind", "migration_requirements",
  "module_hash", "operation", "operation_hash", "operation_name", "plan_format_version",
  "plan_generation", "plan_id", "profile", "protocol_capabilities", "routing", "schema_hash",
  "template_id", "template_version"]

/-- The header: the kind of the artifact and its format version. -/
def readVersion (v : CanonValue) : CoreResult UInt32 := do
  v.expectFields fieldNames
  let kind ← (← v.field "kind").asStr
  if kind ≠ "plan.v1" then .error (.new .nonCanonicalEncoding "expected plan.v1")
  else do
    let fmt ← v.fieldAs "plan_format_version"
    if fmt ≠ Compiler.planFormatVersion then
      .error (.new .unsupportedIrVersion ("plan format " ++ toString fmt.toNat ++ " unsupported"))
    else .ok fmt

def fromCanon (v : CanonValue) : CoreResult OperationPlan := do
  let planFormatVersion ← readVersion v
  let planId ← v.fieldAs "plan_id"
  let operation ← v.fieldAs "operation"
  let operationName ← v.fieldAs "operation_name"
  let operationHash ← v.fieldAs "operation_hash"
  let schemaHash ← v.fieldAs "schema_hash"
  let contractHash ← v.fieldAs "contract_hash"
  let invariantSetHash ← v.fieldAs "invariant_set_hash"
  let moduleHash ← v.fieldAs "module_hash"
  let catalogGeneration ← v.fieldAs "catalog_generation"
  let planGeneration ← v.fieldAs "plan_generation"
  let idcTemplates ← v.fieldAs "idc_templates"
  let templateId ← v.fieldAs "template_id"
  let templateVersion ← v.fieldAs "template_version"
  let profile ← v.fieldAs "profile"
  let routing ← v.fieldAs "routing"
  let assumptions ← v.fieldAs "assumptions"
  let fallbackPlanRefs ← v.fieldAsSet "fallback_plan_refs"
  let migrationRequirements ← v.fieldAs "migration_requirements"
  let protocolCapabilities ← v.fieldAsSet "protocol_capabilities"
  let cost ← v.fieldAs "cost"
  .ok { planFormatVersion, planId, operation, operationName, operationHash, schemaHash,
        contractHash, invariantSetHash, moduleHash, catalogGeneration, planGeneration,
        idcTemplates, templateId, templateVersion, profile, routing, assumptions,
        fallbackPlanRefs, migrationRequirements, protocolCapabilities, cost }

def distinctSets (p : OperationPlan) : Bool :=
  (Canonical.distinctSets p.idcTemplates && p.profile.distinctSets) &&
    (distinctElems p.fallbackPlanRefs && distinctElems p.protocolCapabilities)

/-- As it is read back. -/
def normal (p : OperationPlan) : OperationPlan :=
  { p with
    idcTemplates := LawfulCanonical.normal p.idcTemplates
    profile := p.profile.normal
    fallbackPlanRefs := naturalOrder p.fallbackPlanRefs
    protocolCapabilities := naturalOrder p.protocolCapabilities }

instance : Canonical OperationPlan := ⟨toCanon, fromCanon, distinctSets⟩

lemma readVersion_toCanon (p : OperationPlan) (fmt : UInt32) :
    readVersion (toCanon p) = .ok fmt ↔ p.planFormatVersion = Compiler.planFormatVersion ∧
      fmt = p.planFormatVersion := by
  have hexpect : (toCanon p).expectFields fieldNames = .ok () := by
    apply expectFields_build
    intro name
    rfl
  rw [readVersion, hexpect]
  simp only [toCanon, CoreResult.ok_bind, field_build, fieldAs_build, lookup_cons_eq, reduceIte,
    String.reduceEq, asStr, ne_eq, ExactCanonical.fromCanon_toCanon, ite_not]
  split_ifs with h
  · simp [h, eq_comm]
  · simp [h]

lemma fromCanon_toCanon {p : OperationPlan} (h : p.distinctSets) (q : OperationPlan) :
    fromCanon (toCanon p) = .ok q ↔
      p.planFormatVersion = Compiler.planFormatVersion ∧ q = p.normal := by
  simp only [distinctSets, Bool.and_eq_true] at h
  obtain ⟨⟨hidc, hprofile⟩, hfallback, hcaps⟩ := h
  have hidc' := fromCanon_list (fun _ => rfl) hidc
  have hprofile' : Canonical.fromCanon (Canonical.toCanon p.profile) = .ok p.profile.normal :=
    ExecutionProfile.fromCanon_toCanon hprofile
  rw [fromCanon, CoreResult.bind_eq_ok_iff]
  simp only [readVersion_toCanon]
  simp only [toCanon, CoreResult.ok_bind, fieldAs_build, fieldAsSet_build, lookup_cons_eq,
    reduceIte, String.reduceEq, ExactCanonical.fromCanon_toCanon, hidc', hprofile',
    decodeSet_canonSet, hfallback, hcaps, Except.ok.injEq]
  constructor
  · rintro ⟨_, ⟨hv, rfl⟩, rfl⟩
    exact ⟨hv, rfl⟩
  · rintro ⟨hv, rfl⟩
    exact ⟨_, ⟨hv, rfl⟩, rfl⟩

lemma toCanon_normal {p : OperationPlan} (h : p.distinctSets) : toCanon p.normal = toCanon p := by
  simp only [distinctSets, Bool.and_eq_true] at h
  obtain ⟨⟨hidc, hprofile⟩, hfallback, hcaps⟩ := h
  have hprofile' : Canonical.toCanon p.profile.normal = Canonical.toCanon p.profile :=
    ExecutionProfile.toCanon_normal hprofile
  simp only [toCanon, normal, LawfulCanonical.toCanon_normal _ hidc, hprofile',
    canonSet_naturalOrder hfallback, canonSet_naturalOrder hcaps]

instance : LawfulCanonical OperationPlan where
  sound p := p.planFormatVersion = Compiler.planFormatVersion
  normal := normal
  sorted_toCanon p := sorted_build (by simp [sorted, LawfulCanonical.sorted_toCanon])
  fromCanon_toCanon p h q := by
    rw [decide_eq_true_eq]
    exact fromCanon_toCanon h q
  toCanon_normal _ h := toCanon_normal h
  distinctSets_normal p h := by
    change p.normal.distinctSets
    have h' : p.distinctSets := h
    simp only [distinctSets, Bool.and_eq_true] at h' ⊢
    exact ⟨⟨LawfulCanonical.distinctSets_normal _ h'.1.1,
      ExecutionProfile.distinctSets_normal h'.1.2⟩, distinctElems_naturalOrder h'.2.1,
      distinctElems_naturalOrder h'.2.2⟩

/-- The hash of the whole plan. -/
def planHash (p : OperationPlan) : PlanHash := domainHash "astra.plan.v1" (Canonical.encode p)

end OperationPlan

end Plan

end CarolinaDB.Compiler
