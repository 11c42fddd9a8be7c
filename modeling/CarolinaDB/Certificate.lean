import CarolinaDB.ExecutionPlan

/-!
# Judgments, manifests and the consistency certificate

What the compiler proves of its plans, with the rules and templates it refers to.
-/
namespace CarolinaDB.Compiler

open CanonValue

abbrev CertificateHash := Hash256

section Judgments

inductive ObligationKind
  | irDef | irSeq | irConc | irObs | irFoot | irAtom | irComp | durability | session | authority
  | runtimeCapability
  deriving DecidableEq, Repr

namespace ObligationKind

def label : ObligationKind → String
  | irDef => "IR-DEF"
  | irSeq => "IR-SEQ"
  | irConc => "IR-CONC"
  | irObs => "IR-OBS"
  | irFoot => "IR-FOOT"
  | irAtom => "IR-ATOM"
  | irComp => "IR-COMP"
  | durability => "DURABILITY"
  | session => "SESSION"
  | authority => "AUTHORITY"
  | runtimeCapability => "RUNTIME-CAPABILITY"

def fromLabel : String → CoreResult ObligationKind
  | "IR-DEF" => .ok irDef
  | "IR-SEQ" => .ok irSeq
  | "IR-CONC" => .ok irConc
  | "IR-OBS" => .ok irObs
  | "IR-FOOT" => .ok irFoot
  | "IR-ATOM" => .ok irAtom
  | "IR-COMP" => .ok irComp
  | "DURABILITY" => .ok durability
  | "SESSION" => .ok session
  | "AUTHORITY" => .ok authority
  | "RUNTIME-CAPABILITY" => .ok runtimeCapability
  | _ => .error (.new .nonCanonicalEncoding "unknown obligation kind")

instance : Canonical ObligationKind where
  toCanon k := .str k.label
  fromCanon v := do fromLabel (← v.asStr)

instance : ExactCanonical ObligationKind where
  sorted_toCanon _ := rfl
  fromCanon_toCanon k := by cases k <;> rfl

end ObligationKind

inductive UnknownReason
  | unsupportedFragment (detail : String)
  | unsupportedComposition (detail : String)
  | solverUnknown (detail : String)
  | budgetExceeded
  | missingAuthorityModel (detail : String)
  | missingRuntimeCapability (detail : String)
  deriving DecidableEq, Repr

namespace UnknownReason

def label : UnknownReason → String × String
  | unsupportedFragment s => ("UnsupportedFragment", s)
  | unsupportedComposition s => ("UnsupportedComposition", s)
  | solverUnknown s => ("SolverUnknown", s)
  | budgetExceeded => ("BudgetExceeded", "")
  | missingAuthorityModel s => ("MissingAuthorityModel", s)
  | missingRuntimeCapability s => ("MissingRuntimeCapability", s)

def fromLabel (detail : String) : String → CoreResult UnknownReason
  | "UnsupportedFragment" => .ok (unsupportedFragment detail)
  | "UnsupportedComposition" => .ok (unsupportedComposition detail)
  | "SolverUnknown" => .ok (solverUnknown detail)
  | "BudgetExceeded" => .ok budgetExceeded
  | "MissingAuthorityModel" => .ok (missingAuthorityModel detail)
  | "MissingRuntimeCapability" => .ok (missingRuntimeCapability detail)
  | k => .error (.new .nonCanonicalEncoding ("unknown reason " ++ k))

lemma fromLabel_label (r : UnknownReason) : fromLabel r.label.2 r.label.1 = .ok r := by
  cases r <;> rfl

end UnknownReason

inductive ProofStatus
  | proven (ruleId : String) (ruleVersion : UInt32) (premises : List String)
  /-- The counterexample can be replayed; its canonical bytes are kept. -/
  | disproven (counterexample : Bytes) (summary : String)
  | unknown (reason : UnknownReason)
  deriving DecidableEq, Repr

namespace ProofStatus

def isProven : ProofStatus → Bool
  | proven _ _ _ => true
  | _ => false

def toCanon : ProofStatus → CanonValue
  | proven r n ps => build [
      ("premises", Canonical.toCanon ps), ("rule_id", Canonical.toCanon r),
      ("rule_version", Canonical.toCanon n), ("status", .str "Proven")]
  | disproven b s => build [
      ("counterexample", Canonical.toCanon b), ("status", .str "Disproven"),
      ("summary", Canonical.toCanon s)]
  | unknown r => build [
      ("detail", Canonical.toCanon r.label.2), ("reason", Canonical.toCanon r.label.1),
      ("status", .str "Unknown")]

def fromCanon (v : CanonValue) : CoreResult ProofStatus := do
  let status ← (← v.field "status").asStr
  if status = "Proven" then do
    let r ← v.fieldAs "rule_id"
    let n ← v.fieldAs "rule_version"
    let ps ← v.fieldAs "premises"
    .ok (proven r n ps)
  else if status = "Disproven" then do
    let b ← v.fieldAs "counterexample"
    let s ← v.fieldAs "summary"
    .ok (disproven b s)
  else if status = "Unknown" then do
    let d ← v.fieldAs "detail"
    let k ← v.fieldAs "reason"
    let r ← UnknownReason.fromLabel d k
    .ok (unknown r)
  else .error (.new .nonCanonicalEncoding ("unknown proof status " ++ status))

instance : Canonical ProofStatus := ⟨toCanon, fromCanon, fun _ => true⟩

instance : ExactCanonical ProofStatus where
  sorted_toCanon s := by cases s <;> exact sorted_build (by simp [sorted])
  fromCanon_toCanon s := by
    change fromCanon (toCanon s) = _
    cases s <;> simp [fromCanon, toCanon, field_build, asStr, UnknownReason.fromLabel_label]

end ProofStatus

structure AnalysisJudgment where
  obligationId : String
  kind : ObligationKind
  subjects : List String
  status : ProofStatus
  assumptions : List String
  deriving DecidableEq, Repr

namespace AnalysisJudgment

def toCanon (j : AnalysisJudgment) : CanonValue := build [
  ("assumptions", Canonical.toCanon j.assumptions),
  ("kind", Canonical.toCanon j.kind),
  ("obligation_id", Canonical.toCanon j.obligationId),
  ("status", Canonical.toCanon j.status),
  ("subjects", Canonical.toCanon j.subjects)]

def fromCanon (v : CanonValue) : CoreResult AnalysisJudgment := do
  let status ← v.fieldAs "status"
  let obligationId ← v.fieldAs "obligation_id"
  let kind ← v.fieldAs "kind"
  let subjects ← v.fieldAs "subjects"
  let assumptions ← v.fieldAs "assumptions"
  .ok { obligationId, kind, subjects, status, assumptions }

instance : Canonical AnalysisJudgment := ⟨toCanon, fromCanon, fun _ => true⟩

instance : ExactCanonical AnalysisJudgment where
  sorted_toCanon _ := sorted_build (by simp)
  fromCanon_toCanon j := by
    change fromCanon (toCanon j) = _
    simp [fromCanon, toCanon]

end AnalysisJudgment

end Judgments

section Manifests

/-- A rule by which an obligation may be proven. -/
structure AnalysisRule where
  id : String
  version : UInt32
  statement : String
  fragment : String
  assumptions : List String
  deriving DecidableEq, Repr

namespace AnalysisRule

def toCanon (r : AnalysisRule) : CanonValue := build [
  ("assumptions", Canonical.toCanon r.assumptions),
  ("fragment", Canonical.toCanon r.fragment),
  ("id", Canonical.toCanon r.id),
  ("statement", Canonical.toCanon r.statement),
  ("version", Canonical.toCanon r.version)]

def fromCanon (v : CanonValue) : CoreResult AnalysisRule := do
  let id ← v.fieldAs "id"
  let version ← v.fieldAs "version"
  let statement ← v.fieldAs "statement"
  let fragment ← v.fieldAs "fragment"
  let assumptions ← v.fieldAs "assumptions"
  .ok { id, version, statement, fragment, assumptions }

instance : Canonical AnalysisRule := ⟨toCanon, fromCanon, fun _ => true⟩

end AnalysisRule

structure AnalysisRuleManifest where
  manifestVersion : UInt32
  rules : List AnalysisRule
  deriving DecidableEq, Repr

namespace AnalysisRuleManifest

def rule (m : AnalysisRuleManifest) (id : String) : Option AnalysisRule :=
  m.rules.find? (·.id = id)

def toCanon (m : AnalysisRuleManifest) : CanonValue := build [
  ("kind", .str "analysis-rules.v1"),
  ("manifest_version", Canonical.toCanon m.manifestVersion),
  ("rules", Canonical.toCanon m.rules)]

def hash (m : AnalysisRuleManifest) : Hash256 :=
  domainHash "astra.analysis-rules.v1" m.toCanon.encode

/-- The rules the compiler appeals to. -/
def v1 : AnalysisRuleManifest where
  manifestVersion := 1
  rules := [
    ⟨"IR-DEF-EVAL-V1", 1, "Every IR node has a deterministic, terminating, checked evaluator " ++
      "in the reference interpreter; failure is a typed rejection.", "IR v1 node set", []⟩,
    ⟨"FOOT-CONSERVATIVE-V1", 1, "Footprint selectors cover all reads/writes/predicates; dynamic " ++
      "keys are widened to the entire record.", "IR v1 footprints", []⟩,
    ⟨"C5-SERIAL-VALIDATE-V1", 1, "Under a durable ordered authority that evaluates " ++
      "preconditions, checked effects, postconditions and every affected invariant against the " ++
      "authoritative serial pre-state before acceptance, every accepted history is equivalent " ++
      "to a sequential execution of the exact contracts; therefore IR-SEQ and IR-CONC hold for " ++
      "all admitted histories of the scope.",
      "operations whose affected invariant scope is finite or conservatively widened and fully " ++
      "evaluable", ["single ordered authority over the complete scope",
        "fenced alternative writers",
        "atomic local publication of effects, result and identity"]⟩,
    ⟨"C0-EXCLUSIVE-LOCAL-V1", 1, "With one fenced exclusive local writer over the complete " ++
      "affected scope, local serialization of evaluated invocations yields the same guarantee " ++
      "as C5-SERIAL-VALIDATE without remote coordination.",
      "operations whose scope is covered by one ExclusiveLocal authority domain",
      ["exclusive writer epoch enforced at admission",
        "failover preserves state, request outcomes and authority"]⟩,
    ⟨"OBS-RESULT-SCOPE-V1", 1, "Receipt results depend only on accepted effects; SnapshotValue " ++
      "results require an identified admissible snapshot; ExactOrderedValue results require " ++
      "SerialScope visibility at an ordered position.", "ContractIR v1", []⟩,
    ⟨"ATOM-SINGLE-AUTHORITY-V1", 1, "All atomic groups of an invocation are indivisible when " ++
      "every participant IDC is executed and published by one authority through one local " ++
      "atomic batch.", "single-authority participants", ["SPEC-002 atomic CompiledBatch"]⟩,
    ⟨"COMP-SAME-AUTHORITY-V1", 1, "Two plans in one closure are compatible when they share the " ++
      "same ordered authority and validation program: their interleavings are serialized by " ++
      "construction.", "same-template closures", []⟩,
    ⟨"SESSION-SERIAL-SUBSUMES-V1", 1, "Read-your-writes, monotonic reads and causal " ++
      "dependencies scoped to one group whose records are all executed by one serial authority " ++
      "are satisfied by authoritative serial reads.", "group-scoped sessions inside one closure",
      ["session reads pass the authority read barrier"]⟩,
    ⟨"C1-GROWONLY-FACTS-V1", 1, "Operations whose only effects emit immutable facts " ++
      "(insert-only, key from arguments) with receipt results and no invariant beyond " ++
      "primary-key identity converge under duplicate-suppressed unordered application and " ++
      "preserve results.",
      "EmitFact-only operations over immutable records without Unique/Aggregate/Referential " ++
      "invariants", ["stable origin identity and deduplication",
        "representation limit: bounded key space"]⟩,
    ⟨"CONC-BOUNDED-EXPLORATION-V1", 1, "Bounded exploration of concurrent acceptance from " ++
      "generated small states either yields a replayable counterexample (Disproven) or Unknown; " ++
      "it is never a proof.", "operation pairs within the deterministic budget", []⟩,
    ⟨"DURABILITY-POLICY-V1", 1, "A contract durability requirement is satisfiable when the " ++
      "topology declares a policy with at least the required durable copies and failure " ++
      "domains.", "LocalStable / ReplicatedStable(policy)", []⟩]

end AnalysisRuleManifest

structure ProtocolTemplate where
  id : TemplateId
  name : String
  version : UInt32
  family : ConsistencyClass
  /-- The runtime has evidence that it can execute the template. -/
  qualified : Bool
  milestone : String
  cost : CostDescriptor
  deriving DecidableEq, Repr

namespace ProtocolTemplate

def toCanon (t : ProtocolTemplate) : CanonValue := build [
  ("cost", Canonical.toCanon t.cost),
  ("family", Canonical.toCanon t.family),
  ("id", Canonical.toCanon t.id),
  ("milestone", Canonical.toCanon t.milestone),
  ("name", Canonical.toCanon t.name),
  ("qualified", Canonical.toCanon t.qualified),
  ("version", Canonical.toCanon t.version)]

def fromCanon (v : CanonValue) : CoreResult ProtocolTemplate := do
  let id ← v.fieldAs "id"
  let name ← v.fieldAs "name"
  let version ← v.fieldAs "version"
  let family ← v.fieldAs "family"
  let qualified ← v.fieldAs "qualified"
  let milestone ← v.fieldAs "milestone"
  let cost ← v.fieldAs "cost"
  .ok { id, name, version, family, qualified, milestone, cost }

instance : Canonical ProtocolTemplate := ⟨toCanon, fromCanon, fun _ => true⟩

end ProtocolTemplate

structure ProtocolLibraryManifest where
  libraryVersion : UInt32
  templates : List ProtocolTemplate
  deriving DecidableEq, Repr

namespace ProtocolLibraryManifest

def template (l : ProtocolLibraryManifest) (id : TemplateId) : Option ProtocolTemplate :=
  l.templates.find? (·.id = id)

def toCanon (l : ProtocolLibraryManifest) : CanonValue := build [
  ("kind", .str "protocol-library.v1"),
  ("library_version", Canonical.toCanon l.libraryVersion),
  ("templates", Canonical.toCanon l.templates)]

def hash (l : ProtocolLibraryManifest) : Hash256 :=
  domainHash "astra.protocol-library.v1" l.toCanon.encode

/-- The templates of the first library. Only the local and the serial one can be executed. -/
def v1 : ProtocolLibraryManifest where
  libraryVersion := 1
  templates := [
    ⟨1, "C0_LOCAL_V1", 1, .c0Local, true, "MVP-2", ⟨0, 0, 0, 1⟩⟩,
    ⟨2, "C1_COMMUTATIVE_V1", 1, .c1Commutative, false, "MVP-5", ⟨0, 0, 1, 2⟩⟩,
    ⟨3, "C2_CAUSAL_V1", 1, .c2Causal, false, "MVP-5", ⟨0, 0, 1, 3⟩⟩,
    ⟨4, "C3_ESCROW_V1", 1, .c3Escrow, false, "MVP-6", ⟨0, 0, 2, 4⟩⟩,
    ⟨5, "C4_CERTIFIED_V1", 1, .c4Certified, false, "MVP-8", ⟨1, 2, 0, 5⟩⟩,
    ⟨6, "C5_SERIAL_V1", 1, .c5Serial, true, "MVP-1", ⟨1, 1, 0, 6⟩⟩]

end ProtocolLibraryManifest

end Manifests

section Certificates

/-- An obligation that was not proven, and why. -/
structure FailedObligation where
  obligation : String
  reason : String
  deriving DecidableEq, Repr

namespace FailedObligation

def toCanon (f : FailedObligation) : CanonValue := build [
  ("obligation", Canonical.toCanon f.obligation), ("reason", Canonical.toCanon f.reason)]

def fromCanon (v : CanonValue) : CoreResult FailedObligation := do
  let obligation ← v.fieldAs "obligation"
  let reason ← v.fieldAs "reason"
  .ok { obligation, reason }

instance : Canonical FailedObligation := ⟨toCanon, fromCanon, fun _ => true⟩

instance : ExactCanonical FailedObligation where
  sorted_toCanon _ := sorted_build (by simp)
  fromCanon_toCanon f := by
    change fromCanon (toCanon f) = _
    simp [fromCanon, toCanon]

end FailedObligation

structure CandidateRejection where
  operation : OperationRef
  operationName : String
  templateId : TemplateId
  templateName : String
  family : ConsistencyClass
  failed : List FailedObligation
  deriving DecidableEq, Repr

namespace CandidateRejection

def toCanon (r : CandidateRejection) : CanonValue := build [
  ("failed", Canonical.toCanon r.failed),
  ("family", Canonical.toCanon r.family),
  ("operation", Canonical.toCanon r.operation),
  ("operation_name", Canonical.toCanon r.operationName),
  ("template_id", Canonical.toCanon r.templateId),
  ("template_name", Canonical.toCanon r.templateName)]

def fromCanon (v : CanonValue) : CoreResult CandidateRejection := do
  let failed ← v.fieldAs "failed"
  let operation ← v.fieldAs "operation"
  let operationName ← v.fieldAs "operation_name"
  let templateId ← v.fieldAs "template_id"
  let templateName ← v.fieldAs "template_name"
  let family ← v.fieldAs "family"
  .ok { operation, operationName, templateId, templateName, family, failed }

instance : Canonical CandidateRejection := ⟨toCanon, fromCanon, fun _ => true⟩

instance : ExactCanonical CandidateRejection where
  sorted_toCanon _ := sorted_build (by simp)
  fromCanon_toCanon r := by
    change fromCanon (toCanon r) = _
    simp [fromCanon, toCanon]

end CandidateRejection

inductive InteractionKind
  | requiresVisible | requiresAuthority | invalidatesGuard | requiresDrain | excludesConcurrent
  | atomicWith
  deriving DecidableEq, Repr

namespace InteractionKind

def label : InteractionKind → String
  | requiresVisible => "RequiresVisible"
  | requiresAuthority => "RequiresAuthority"
  | invalidatesGuard => "InvalidatesGuard"
  | requiresDrain => "RequiresDrain"
  | excludesConcurrent => "ExcludesConcurrent"
  | atomicWith => "AtomicWith"

def fromLabel : String → CoreResult InteractionKind
  | "RequiresVisible" => .ok requiresVisible
  | "RequiresAuthority" => .ok requiresAuthority
  | "InvalidatesGuard" => .ok invalidatesGuard
  | "RequiresDrain" => .ok requiresDrain
  | "ExcludesConcurrent" => .ok excludesConcurrent
  | "AtomicWith" => .ok atomicWith
  | k => .error (.new .nonCanonicalEncoding ("interaction " ++ k))

instance : Canonical InteractionKind where
  toCanon k := .str k.label
  fromCanon v := do fromLabel (← v.asStr)

instance : ExactCanonical InteractionKind where
  sorted_toCanon _ := rfl
  fromCanon_toCanon k := by cases k <;> rfl

end InteractionKind

/-- A directed dependency between two operations. -/
structure InteractionEdge where
  predecessor : OperationRef
  successor : OperationRef
  kind : InteractionKind
  keyRelation : String
  invariantRefs : List InvariantId
  deriving DecidableEq, Repr

namespace InteractionEdge

def toCanon (e : InteractionEdge) : CanonValue := build [
  ("invariant_refs", canonSet e.invariantRefs),
  ("key_relation", Canonical.toCanon e.keyRelation),
  ("kind", Canonical.toCanon e.kind),
  ("predecessor", Canonical.toCanon e.predecessor),
  ("successor", Canonical.toCanon e.successor)]

def fromCanon (v : CanonValue) : CoreResult InteractionEdge := do
  let kind ← v.fieldAs "kind"
  let predecessor ← v.fieldAs "predecessor"
  let successor ← v.fieldAs "successor"
  let keyRelation ← v.fieldAs "key_relation"
  let invariantRefs ← v.fieldAsSet "invariant_refs"
  .ok { predecessor, successor, kind, keyRelation, invariantRefs }

/-- As it is read back. -/
def normal (e : InteractionEdge) : InteractionEdge :=
  { e with invariantRefs := naturalOrder e.invariantRefs }

instance : Canonical InteractionEdge :=
  ⟨toCanon, fromCanon, fun e => distinctElems e.invariantRefs⟩

instance : LawfulCanonical InteractionEdge := by
  refine .ofNormal normal ?_ ?_ ?_ ?_
  · intro e
    exact sorted_build (by simp)
  · intro e h
    have hd : distinctElems e.invariantRefs := h
    change fromCanon (toCanon e) = _
    simp [fromCanon, toCanon, normal, hd]
  · intro e h
    change toCanon (normal e) = toCanon e
    simp only [toCanon, normal, canonSet_naturalOrder h]
  · intro e h
    exact distinctElems_naturalOrder h

end InteractionEdge

structure CompatibilityRequirement where
  left : OperationRef
  right : OperationRef
  interactionScope : List RecordId
  rule : String
  sharedAuthority : List AuthorityId
  dependencies : List InteractionEdge
  assumptions : List String
  deriving DecidableEq, Repr

namespace CompatibilityRequirement

def toCanon (c : CompatibilityRequirement) : CanonValue := build [
  ("assumptions", Canonical.toCanon c.assumptions),
  ("dependencies", Canonical.toCanon c.dependencies),
  ("interaction_scope", canonSet c.interactionScope),
  ("left", Canonical.toCanon c.left),
  ("right", Canonical.toCanon c.right),
  ("rule", Canonical.toCanon c.rule),
  ("shared_authority", canonSet c.sharedAuthority)]

def fromCanon (v : CanonValue) : CoreResult CompatibilityRequirement := do
  let left ← v.fieldAs "left"
  let right ← v.fieldAs "right"
  let interactionScope ← v.fieldAsSet "interaction_scope"
  let rule ← v.fieldAs "rule"
  let sharedAuthority ← v.fieldAsSet "shared_authority"
  let dependencies ← v.fieldAs "dependencies"
  let assumptions ← v.fieldAs "assumptions"
  .ok { left, right, interactionScope, rule, sharedAuthority, dependencies, assumptions }

def distinctSets (c : CompatibilityRequirement) : Bool :=
  Canonical.distinctSets c.dependencies &&
    (distinctElems c.interactionScope && distinctElems c.sharedAuthority)

/-- As it is read back. -/
def normal (c : CompatibilityRequirement) : CompatibilityRequirement :=
  { c with
    interactionScope := naturalOrder c.interactionScope
    sharedAuthority := naturalOrder c.sharedAuthority
    dependencies := LawfulCanonical.normal c.dependencies }

instance : Canonical CompatibilityRequirement := ⟨toCanon, fromCanon, distinctSets⟩

instance : LawfulCanonical CompatibilityRequirement := by
  refine .ofNormal normal ?_ ?_ ?_ ?_
  · intro c
    exact sorted_build (by simp [LawfulCanonical.sorted_toCanon])
  · intro c h
    have h' : c.distinctSets := h
    simp only [distinctSets, Bool.and_eq_true] at h'
    obtain ⟨hdeps, hscope, hauth⟩ := h'
    have hdeps' := fromCanon_list (fun _ => rfl) hdeps
    change fromCanon (toCanon c) = _
    simp [fromCanon, toCanon, normal, hdeps', hscope, hauth]
  · intro c h
    have h' : c.distinctSets := h
    simp only [distinctSets, Bool.and_eq_true] at h'
    change toCanon (normal c) = toCanon c
    simp only [toCanon, normal, LawfulCanonical.toCanon_normal _ h'.1,
      canonSet_naturalOrder h'.2.1, canonSet_naturalOrder h'.2.2]
  · intro c h
    have h' : c.distinctSets := h
    change (normal c).distinctSets
    simp only [distinctSets, Bool.and_eq_true] at h' ⊢
    exact ⟨LawfulCanonical.distinctSets_normal _ h'.1, distinctElems_naturalOrder h'.2.1,
      distinctElems_naturalOrder h'.2.2⟩

end CompatibilityRequirement

structure CompileInputHashes where
  moduleHash : ModuleHash
  schemaHash : SchemaHash
  topologyHash : Hash256
  policyHash : Hash256
  budgetHash : Hash256
  deriving DecidableEq, Repr

namespace CompileInputHashes

def toCanon (h : CompileInputHashes) : CanonValue := build [
  ("budget_hash", Canonical.toCanon h.budgetHash),
  ("module_hash", Canonical.toCanon h.moduleHash),
  ("policy_hash", Canonical.toCanon h.policyHash),
  ("schema_hash", Canonical.toCanon h.schemaHash),
  ("topology_hash", Canonical.toCanon h.topologyHash)]

def fromCanon (v : CanonValue) : CoreResult CompileInputHashes := do
  let moduleHash ← v.fieldAs "module_hash"
  let schemaHash ← v.fieldAs "schema_hash"
  let topologyHash ← v.fieldAs "topology_hash"
  let policyHash ← v.fieldAs "policy_hash"
  let budgetHash ← v.fieldAs "budget_hash"
  .ok { moduleHash, schemaHash, topologyHash, policyHash, budgetHash }

instance : Canonical CompileInputHashes := ⟨toCanon, fromCanon, fun _ => true⟩

instance : ExactCanonical CompileInputHashes where
  sorted_toCanon _ := sorted_build (by simp)
  fromCanon_toCanon h := by
    change fromCanon (toCanon h) = _
    simp [fromCanon, toCanon]

end CompileInputHashes

/-- Evidence by its label and the hash of its bytes. -/
structure EvidenceRef where
  label : String
  hash : Hash256
  deriving DecidableEq, Repr

namespace EvidenceRef

def toCanon (e : EvidenceRef) : CanonValue := build [
  ("hash", Canonical.toCanon e.hash), ("label", Canonical.toCanon e.label)]

def fromCanon (v : CanonValue) : CoreResult EvidenceRef := do
  let label ← v.fieldAs "label"
  let hash ← v.fieldAs "hash"
  .ok { label, hash }

instance : Canonical EvidenceRef := ⟨toCanon, fromCanon, fun _ => true⟩

instance : ExactCanonical EvidenceRef where
  sorted_toCanon _ := sorted_build (by simp)
  fromCanon_toCanon e := by
    change fromCanon (toCanon e) = _
    simp [fromCanon, toCanon]

end EvidenceRef

instance : LinearOrder Hash256 :=
  LinearOrder.lift' (fun h => h.bytes.val) fun a b h => by
    obtain ⟨⟨x, hx⟩⟩ := a
    obtain ⟨⟨y, hy⟩⟩ := b
    cases h
    rfl

structure ConsistencyCertificate where
  certificateVersion : UInt32
  compilerBuildHash : Hash256
  inputHashes : CompileInputHashes
  ruleManifestHash : Hash256
  protocolLibraryHash : Hash256
  planRefs : List PlanHash
  judgments : List AnalysisJudgment
  rejectedCandidates : List CandidateRejection
  compatibilityRules : List CompatibilityRequirement
  assumptions : List Assumption
  evidenceManifest : List EvidenceRef
  deriving DecidableEq, Repr

namespace ConsistencyCertificate

def toCanon (c : ConsistencyCertificate) : CanonValue := build [
  ("assumptions", Canonical.toCanon c.assumptions),
  ("certificate_version", Canonical.toCanon c.certificateVersion),
  ("compatibility_rules", Canonical.toCanon c.compatibilityRules),
  ("compiler_build_hash", Canonical.toCanon c.compilerBuildHash),
  ("evidence_manifest", Canonical.toCanon c.evidenceManifest),
  ("input_hashes", Canonical.toCanon c.inputHashes),
  ("judgments", Canonical.toCanon c.judgments),
  ("kind", .str "certificate.v1"),
  ("plan_refs", canonSet c.planRefs),
  ("protocol_library_hash", Canonical.toCanon c.protocolLibraryHash),
  ("rejected_candidates", Canonical.toCanon c.rejectedCandidates),
  ("rule_manifest_hash", Canonical.toCanon c.ruleManifestHash)]

def fieldNames : List String := ["assumptions", "certificate_version", "compatibility_rules",
  "compiler_build_hash", "evidence_manifest", "input_hashes", "judgments", "kind", "plan_refs",
  "protocol_library_hash", "rejected_candidates", "rule_manifest_hash"]

def fromCanon (v : CanonValue) : CoreResult ConsistencyCertificate := do
  v.expectFields fieldNames
  let evidenceManifest ← v.fieldAs "evidence_manifest"
  let certificateVersion ← v.fieldAs "certificate_version"
  let compilerBuildHash ← v.fieldAs "compiler_build_hash"
  let inputHashes ← v.fieldAs "input_hashes"
  let ruleManifestHash ← v.fieldAs "rule_manifest_hash"
  let protocolLibraryHash ← v.fieldAs "protocol_library_hash"
  let planRefs ← v.fieldAsSet "plan_refs"
  let judgments ← v.fieldAs "judgments"
  let rejectedCandidates ← v.fieldAs "rejected_candidates"
  let compatibilityRules ← v.fieldAs "compatibility_rules"
  let assumptions ← v.fieldAs "assumptions"
  .ok { certificateVersion, compilerBuildHash, inputHashes, ruleManifestHash,
        protocolLibraryHash, planRefs, judgments, rejectedCandidates, compatibilityRules,
        assumptions, evidenceManifest }

def distinctSets (c : ConsistencyCertificate) : Bool :=
  Canonical.distinctSets c.compatibilityRules && distinctElems c.planRefs

/-- As it is read back. -/
def normal (c : ConsistencyCertificate) : ConsistencyCertificate :=
  { c with
    planRefs := naturalOrder c.planRefs
    compatibilityRules := LawfulCanonical.normal c.compatibilityRules }

instance : Canonical ConsistencyCertificate := ⟨toCanon, fromCanon, distinctSets⟩

instance : LawfulCanonical ConsistencyCertificate := by
  refine .ofNormal normal ?_ ?_ ?_ ?_
  · intro c
    exact sorted_build (by simp [sorted, LawfulCanonical.sorted_toCanon])
  · intro c h
    have h' : c.distinctSets := h
    simp only [distinctSets, Bool.and_eq_true] at h'
    have hrules := fromCanon_list (fun _ => rfl) h'.1
    have hexpect : (toCanon c).expectFields fieldNames = .ok () := by
      apply expectFields_build
      intro name
      rfl
    change fromCanon (toCanon c) = _
    rw [fromCanon, hexpect]
    simp [toCanon, normal, hrules, h'.2]
  · intro c h
    have h' : c.distinctSets := h
    simp only [distinctSets, Bool.and_eq_true] at h'
    change toCanon (normal c) = toCanon c
    simp only [toCanon, normal, LawfulCanonical.toCanon_normal _ h'.1, canonSet_naturalOrder h'.2]
  · intro c h
    have h' : c.distinctSets := h
    change (normal c).distinctSets
    simp only [distinctSets, Bool.and_eq_true] at h' ⊢
    exact ⟨LawfulCanonical.distinctSets_normal _ h'.1, distinctElems_naturalOrder h'.2⟩

def certificateHash (c : ConsistencyCertificate) : CertificateHash :=
  domainHash "astra.certificate.v1" (Canonical.encode c)

end ConsistencyCertificate

end Certificates

end CarolinaDB.Compiler
