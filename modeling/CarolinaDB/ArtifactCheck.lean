import CarolinaDB.Certificate
import CarolinaDB.CanonSize

/-!
# The artifact checker

Plans and their certificate are checked before they are used: canonical bytes,
hashes, obligation coverage and evidence. A judgment is looked up by the name of
its obligation, and the first one of that name decides.
-/
namespace CarolinaDB.Compiler

open CanonValue

section Checker

structure CheckReport where
  structurallyValid : ℕ := 0
  obligationsChecked : ℕ := 0
  evidenceChecked : ℕ := 0
  certificateHash : CertificateHash := Hash256.zero
  deriving DecidableEq, Repr

/-- The obligations every plan has to have proven. -/
def mandatory : List ObligationKind :=
  [.irDef, .irSeq, .irConc, .irObs, .irFoot, .irAtom, .irComp, .durability, .session, .authority,
    .runtimeCapability]

/-- The name of an obligation. -/
def obligationId (operation template : String) (kind : ObligationKind) : String :=
  operation ++ ":" ++ template ++ ":" ++ kind.label

/-- A value has to be read back from its own encoding. Two equal elements of a set are a panic. -/
def checkRoundTrip {α : Type} [Canonical α] [DecidableEq α] (what : String) (a : α) :
    CoreResult Unit :=
  if distinctSets a then do
    let back ← Canonical.decode (Canonical.encode a) Limits.v1
    if back ≠ a then
      .error (.new .invalidEvidence (what ++ " canonical roundtrip mismatch"))
    else .ok ()
  else .error .panicked

def checkProven (rules : AnalysisRuleManifest) (id : String) : ProofStatus → CoreResult Unit
  | .proven ruleId ruleVersion _ =>
    match rules.rule ruleId with
    | none => .error (.new .invalidEvidence ("unknown rule " ++ ruleId))
    | some r =>
      if r.version ≠ ruleVersion then
        .error (.new .invalidEvidence ("rule version mismatch for " ++ ruleId))
      else .ok ()
  | _ => .error (.new .invalidEvidence
      ("obligation " ++ id ++ " is not proven for the selected plan"))

def checkObligation (c : ConsistencyCertificate) (rules : AnalysisRuleManifest) (id : String) :
    CoreResult Unit :=
  match c.judgments.find? (·.obligationId = id) with
  | none => .error (.new .invalidEvidence ("missing obligation " ++ id))
  | some j => checkProven rules id j.status

def checkObligations (c : ConsistencyCertificate) (rules : AnalysisRuleManifest)
    (operation template : String) : List ObligationKind → CoreResult Unit
  | [] => .ok ()
  | k :: ks => do
    checkObligation c rules (obligationId operation template k)
    checkObligations c rules operation template ks

def unknownTemplate : CoreError := .new .invalidEvidence "unknown template version in plan"

def checkPlan (c : ConsistencyCertificate) (rules : AnalysisRuleManifest)
    (library : ProtocolLibraryManifest) (p : OperationPlan) : CoreResult Unit := do
  checkRoundTrip "plan" p
  if p.planHash ∉ c.planRefs then
    .error (.new .invalidEvidence ("plan " ++ p.operationName ++ " not referenced by certificate"))
  else
    match library.template p.templateId with
    | none => .error unknownTemplate
    | some t =>
      if t.version ≠ p.templateVersion then .error unknownTemplate
      else checkObligations c rules p.operationName t.name mandatory

def checkPlans (c : ConsistencyCertificate) (rules : AnalysisRuleManifest)
    (library : ProtocolLibraryManifest) : List OperationPlan → CheckReport → CoreResult CheckReport
  | [], report => .ok report
  | p :: ps, report => do
    checkPlan c rules library p
    checkPlans c rules library ps
      { report with
        structurallyValid := report.structurallyValid + 1
        obligationsChecked := report.obligationsChecked + mandatory.length }

def checkManifests (c : ConsistencyCertificate) (rules : AnalysisRuleManifest)
    (library : ProtocolLibraryManifest) : CoreResult Unit :=
  if c.ruleManifestHash ≠ rules.hash ∨ c.protocolLibraryHash ≠ library.hash then
    .error (.new .invalidEvidence
      "certificate manifests do not match the checker's rule/library manifests")
  else .ok ()

/-- The evidence the judgments call for: every disproof carries a counterexample. -/
def counterexamples : List AnalysisJudgment → CoreResult (List EvidenceRef)
  | [] => .ok []
  | j :: js =>
    match j.status with
    | .disproven b _ =>
      if b = [] then
        .error (.new .invalidEvidence
          ("Disproven judgment " ++ j.obligationId ++ " carries no counterexample"))
      else do
        let es ← counterexamples js
        .ok (⟨"counterexample:" ++ j.obligationId, sha256 b⟩ :: es)
    | _ => counterexamples js

def checkEvidence (c : ConsistencyCertificate) : CoreResult ℕ := do
  let expected ← counterexamples c.judgments
  match expected.find? (· ∉ c.evidenceManifest) with
  | some e => .error (.new .invalidEvidence
      ("evidence manifest does not match the counterexample bytes of " ++ e.label))
  | none =>
    match c.evidenceManifest.find? (· ∉ expected) with
    | some e => .error (.new .invalidEvidence ("dangling evidence manifest entry " ++ e.label))
    | none => .ok expected.length

def checkArtifacts (plans : List OperationPlan) (c : ConsistencyCertificate)
    (rules : AnalysisRuleManifest) (library : ProtocolLibraryManifest) :
    CoreResult CheckReport := do
  let report ← checkPlans c rules library plans {}
  checkRoundTrip "certificate" c
  checkManifests c rules library
  let n ← checkEvidence c
  .ok { report with evidenceChecked := n, certificateHash := c.certificateHash }

end Checker

section Acceptance
variable {c : ConsistencyCertificate} {rules : AnalysisRuleManifest}
  {library : ProtocolLibraryManifest}

/-- A check comes before what follows it. -/
lemma check_bind_eq_ok_iff {β : Type} {x : CoreResult Unit} {f : Unit → CoreResult β} {b : β} :
    x >>= f = .ok b ↔ x = .ok () ∧ f () = .ok b := by
  rw [CoreResult.bind_eq_ok_iff]
  constructor
  · rintro ⟨⟨⟩, hx, hf⟩
    exact ⟨hx, hf⟩
  · rintro ⟨hx, hf⟩
    exact ⟨(), hx, hf⟩

lemma checkRoundTrip_ok_iff {α : Type} [Canonical α] [LawfulCanonical α] [DecidableEq α]
    {what : String} {a : α} :
    checkRoundTrip what a = .ok () ↔ distinctSets a ∧
      (Canonical.encode a).length ≤ Limits.v1.maxPayloadBytes ∧ (toCanon a).fits Limits.v1 0 ∧
      sound a ∧ normal a = a := by
  by_cases hd : distinctSets a
  · rw [checkRoundTrip, if_pos hd, CoreResult.bind_eq_ok_iff]
    simp only [decode_encode_iff a hd, hd, true_and]
    constructor
    · rintro ⟨b, ⟨hlen, hfits, hs, rfl⟩, hb⟩
      split_ifs at hb with hne
      exact ⟨hlen, hfits, hs, not_not.mp hne⟩
    · rintro ⟨hlen, hfits, hs, hn⟩
      exact ⟨_, ⟨hlen, hfits, hs, rfl⟩, if_neg (not_not.mpr hn)⟩
  · simp [checkRoundTrip, hd]

/-- A rule of the manifest, at its version there, proves the obligation. -/
def Discharged (rules : AnalysisRuleManifest) (s : ProofStatus) : Prop :=
  ∃ ruleId premises r, s = .proven ruleId r.version premises ∧ rules.rule ruleId = some r

lemma Discharged.isProven {s : ProofStatus} (h : Discharged rules s) : s.isProven := by
  obtain ⟨ruleId, premises, r, rfl, -⟩ := h
  rfl

lemma checkProven_ok_iff {id : String} {s : ProofStatus} :
    checkProven rules id s = .ok () ↔ Discharged rules s := by
  cases s with
  | proven ruleId ruleVersion premises =>
    rw [checkProven]
    cases hr : rules.rule ruleId with
    | none => simp [Discharged, hr]
    | some r =>
      constructor
      · intro h
        dsimp only at h
        split_ifs at h with hv
        exact ⟨ruleId, premises, r, by rw [not_not.mp hv], hr⟩
      · rintro ⟨_, _, r', hs, hr'⟩
        cases hs
        rw [hr] at hr'
        cases hr'
        simp
  | disproven b s => simp [checkProven, Discharged]
  | unknown r => simp [checkProven, Discharged]

lemma checkObligation_ok_iff {id : String} :
    checkObligation c rules id = .ok () ↔
      ∃ j, c.judgments.find? (·.obligationId = id) = some j ∧ Discharged rules j.status := by
  rw [checkObligation]
  cases c.judgments.find? (·.obligationId = id) with
  | none => simp
  | some j => simp [checkProven_ok_iff]

lemma checkObligations_ok_iff {operation template : String} {ks : List ObligationKind} :
    checkObligations c rules operation template ks = .ok () ↔
      ∀ k ∈ ks, checkObligation c rules (obligationId operation template k) = .ok () := by
  induction ks with
  | nil => simp [checkObligations]
  | cons k ks ih => simp [checkObligations, check_bind_eq_ok_iff, ih]

lemma mem_mandatory (k : ObligationKind) : k ∈ mandatory := by
  cases k <;> simp [mandatory]

lemma checkPlan_ok_iff {p : OperationPlan} :
    checkPlan c rules library p = .ok () ↔
      checkRoundTrip "plan" p = .ok () ∧ p.planHash ∈ c.planRefs ∧
      ∃ t, library.template p.templateId = some t ∧ t.version = p.templateVersion ∧
        ∀ k, checkObligation c rules (obligationId p.operationName t.name k) = .ok () := by
  rw [checkPlan, check_bind_eq_ok_iff]
  refine and_congr_right fun _ => ?_
  by_cases href : p.planHash ∈ c.planRefs
  · rw [if_neg (not_not.mpr href)]
    cases library.template p.templateId with
    | none => simp
    | some t =>
      by_cases hv : t.version = p.templateVersion
      · simp [href, hv, checkObligations_ok_iff, mem_mandatory]
      · simp [hv]
  · simp [href]

lemma checkPlans_ok_iff {plans : List OperationPlan} {report : CheckReport} :
    (∃ r, checkPlans c rules library plans report = .ok r) ↔
      ∀ p ∈ plans, checkPlan c rules library p = .ok () := by
  induction plans generalizing report with
  | nil => simp [checkPlans]
  | cons p ps ih =>
    simp only [checkPlans, check_bind_eq_ok_iff, List.forall_mem_cons, exists_and_left]
    rw [ih]

/-- When the checker accepts. -/
lemma checkArtifacts_ok_iff {plans : List OperationPlan} :
    (∃ report, checkArtifacts plans c rules library = .ok report) ↔
      (∀ p ∈ plans, checkPlan c rules library p = .ok ()) ∧
      checkRoundTrip "certificate" c = .ok () ∧ checkManifests c rules library = .ok () ∧
      ∃ n, checkEvidence c = .ok n := by
  rw [← checkPlans_ok_iff]
  constructor
  · rintro ⟨report, h⟩
    obtain ⟨r, hr, h⟩ := CoreResult.bind_eq_ok h
    rw [check_bind_eq_ok_iff, check_bind_eq_ok_iff] at h
    obtain ⟨hc, hm, h⟩ := h
    obtain ⟨n, hn, -⟩ := CoreResult.bind_eq_ok h
    exact ⟨⟨r, hr⟩, hc, hm, n, hn⟩
  · rintro ⟨⟨r, hr⟩, hc, hm, n, hn⟩
    exact ⟨_, by rw [checkArtifacts, hr, CoreResult.ok_bind, hc, CoreResult.ok_bind, hm,
      CoreResult.ok_bind, hn, CoreResult.ok_bind]⟩

end Acceptance

section Coverage

/-- Each obligation of a plan under its template is judged, and only as proven. -/
def FullyProven (plans : List OperationPlan) (c : ConsistencyCertificate)
    (library : ProtocolLibraryManifest) : Prop :=
  ∀ p ∈ plans, ∃ t, library.template p.templateId = some t ∧ ∀ k,
    (∃ j ∈ c.judgments, j.obligationId = obligationId p.operationName t.name k) ∧
    ∀ j ∈ c.judgments, j.obligationId = obligationId p.operationName t.name k → j.status.isProven

/-- No obligation of a plan is judged both as proven and as not. -/
def Unequivocal (plans : List OperationPlan) (c : ConsistencyCertificate)
    (library : ProtocolLibraryManifest) : Prop :=
  ∀ p ∈ plans, ∀ t, library.template p.templateId = some t → ∀ k,
    ∀ j ∈ c.judgments, j.obligationId = obligationId p.operationName t.name k →
    ∀ j' ∈ c.judgments, j'.obligationId = obligationId p.operationName t.name k →
      j.status.isProven = j'.status.isProven

variable {c : ConsistencyCertificate} {rules : AnalysisRuleManifest}
  {library : ProtocolLibraryManifest}

/-- The first judgment on a checked obligation is a proof. -/
lemma exists_proven_of_checkObligation {id : String} (h : checkObligation c rules id = .ok ()) :
    ∃ j ∈ c.judgments, j.obligationId = id ∧ j.status.isProven := by
  obtain ⟨j, hj, hd⟩ := checkObligation_ok_iff.mp h
  have hid := List.find?_some hj
  exact ⟨j, List.mem_of_find?_eq_some hj, of_decide_eq_true hid, hd.isProven⟩

section Sample

def samplePlan : OperationPlan where
  planFormatVersion := 1
  planId := .nil _
  operation := ⟨1, 1⟩
  operationName := "sell"
  operationHash := .zero
  schemaHash := .zero
  contractHash := .zero
  invariantSetHash := .zero
  moduleHash := .zero
  catalogGeneration := 1
  planGeneration := 1
  idcTemplates := []
  templateId := 6
  templateVersion := 1
  profile := {
    family := .c5Serial, admission := [], visibility := .localSnapshot, authority := .none
    ordering := .unordered, validation := .acceptedEffectsOnly, atomicity := .localBatch
    durability := .localStable, replication := .none, result := ⟨.receipt, .global [], true⟩
    recovery := ⟨true, "", true⟩ }
  routing := ⟨[], .nil _, 0⟩
  assumptions := []
  fallbackPlanRefs := []
  migrationRequirements := []
  protocolCapabilities := []
  cost := ⟨1, 1, 0, 6⟩

def sampleJudgment (k : ObligationKind) : AnalysisJudgment where
  obligationId := obligationId "sell" "C5_SERIAL_V1" k
  kind := k
  subjects := ["sell@1"]
  status := .proven "IR-DEF-EVAL-V1" 1 []
  assumptions := []

/-- A certificate for one plan, with the given hashes, that holds the given judgments after those
it needs. -/
def certificateWith (ruleHash libraryHash planHash : Hash256) (extra : List AnalysisJudgment) :
    ConsistencyCertificate where
  certificateVersion := 1
  compilerBuildHash := .zero
  inputHashes := ⟨.zero, .zero, .zero, .zero, .zero⟩
  ruleManifestHash := ruleHash
  protocolLibraryHash := libraryHash
  planRefs := [planHash]
  judgments := mandatory.map sampleJudgment ++ extra
  rejectedCandidates := []
  compatibilityRules := []
  assumptions := []
  evidenceManifest := []

def sampleCertificate (extra : List AnalysisJudgment) : ConsistencyCertificate :=
  certificateWith AnalysisRuleManifest.v1.hash ProtocolLibraryManifest.v1.hash samplePlan.planHash
    extra

set_option maxRecDepth 100000 in
lemma checkRoundTrip_samplePlan : checkRoundTrip "plan" samplePlan = .ok () :=
  checkRoundTrip_ok_iff.mpr ⟨by decide, by decide, by decide, rfl, rfl⟩

lemma checkObligation_sampleCertificate (extra : List AnalysisJudgment) (k : ObligationKind) :
    checkObligation (sampleCertificate extra) .v1 (obligationId "sell" "C5_SERIAL_V1" k) =
      .ok () := by
  refine checkObligation_ok_iff.mpr ⟨sampleJudgment k, ?_, "IR-DEF-EVAL-V1", [], _, rfl, rfl⟩
  rw [sampleCertificate, certificateWith, List.find?_append]
  have hfind : (mandatory.map sampleJudgment).find?
      (·.obligationId = obligationId "sell" "C5_SERIAL_V1" k) = some (sampleJudgment k) := by
    cases k <;> decide
  rw [hfind]
  rfl

/-- A judgment of a few hundred bytes that is within the limits inside a certificate. -/
def SmallJudgment (j : AnalysisJudgment) : Prop :=
  (toCanon j).encode.length ≤ 400 ∧ (toCanon j).fits Limits.v1 2

lemma smallJudgment_sampleJudgment (k : ObligationKind) : SmallJudgment (sampleJudgment k) := by
  cases k <;> exact ⟨by decide +kernel, by decide +kernel⟩

lemma fits_hash (h : Hash256) (depth : ℕ) : (toCanon h).fits Limits.v1 depth := by
  have hlen : (escape (hexEncode h.bytes.val)).length = 64 := by
    rw [length_escape_hexEncode, h.bytes.property]
  simp [toCanon, fits, fitsScalar, hlen, Limits.v1]

/-- A certificate with a few judgments is read back, whatever the hashes. -/
lemma checkRoundTrip_certificateWith (r l p : Hash256) {extra : List AnalysisJudgment}
    (hcount : extra.length ≤ 9) (hsmall : ∀ j ∈ extra, SmallJudgment j) :
    checkRoundTrip "certificate" (certificateWith r l p extra) = .ok () := by
  set js := mandatory.map sampleJudgment ++ extra with hjs
  have hall : ∀ j ∈ js, SmallJudgment j := by
    intro j hj
    rcases List.mem_append.mp hj with hj | hj
    · obtain ⟨k, -, rfl⟩ := List.mem_map.mp hj
      exact smallJudgment_sampleJudgment k
    · exact hsmall j hj
  have hn : (js.map toCanon).length ≤ 20 := by
    rw [List.length_map, hjs, List.length_append]
    exact Nat.add_le_add_left hcount 11
  have hlength : (certificateWith r l p extra).toCanon.encode.length ≤
      Limits.v1.maxPayloadBytes := by
    have hversion : (toCanon (1 : UInt32)).encode.length = 3 := by decide
    have hinputs : (toCanon (⟨.zero, .zero, .zero, .zero, .zero⟩ :
        CompileInputHashes)).encode.length = 408 := by decide +kernel
    have hkind : (str "certificate.v1").encode.length = 16 := by decide
    have hnil {α : Type} [Canonical α] : (toCanon ([] : List α)).encode.length = 2 := rfl
    have hrefs : (canonSet [p]).encode.length = 68 :=
      (length_encode_array [toCanon p]).trans (by simp [length_encode_hash])
    have hjudgments : (toCanon js).encode.length ≤ 8022 := by
      refine (length_encode_array (js.map toCanon)).trans_le ?_
      have hsum := List.sum_le_card_nsmul ((js.map toCanon).map fun v => v.encode.length) 400
        (by simpa using fun j hj => (hall j hj).1)
      rw [List.length_map, smul_eq_mul] at hsum
      omega
    refine (length_build_le ConsistencyCertificate.fieldNames rfl
      (by decide : _ ≤ 225)).trans (le_trans ?_ (show 10000 ≤ 16777216 by decide))
    simp only [List.map_cons, List.map_nil, List.sum_cons, List.sum_nil, certificateWith,
      length_encode_hash, hversion, hinputs, hkind, hrefs, hnil, ← hjs]
    omega
  have hfits : (certificateWith r l p extra).toCanon.fits Limits.v1 0 := by
    rw [ConsistencyCertificate.toCanon]
    refine (fits_build ConsistencyCertificate.fieldNames rfl (by decide)
      (by decide)).mpr ⟨by decide, ?_⟩
    have hjudgments : (toCanon js).fits Limits.v1 1 := by
      change (array (js.map toCanon)).fits _ _
      simp only [fits, Bool.and_eq_true, decide_eq_true_eq, fitsItems_iff]
      refine ⟨by decide, hn.trans (by decide), fun v hv => ?_⟩
      obtain ⟨j, hj, rfl⟩ := List.mem_map.mp hv
      exact (hall j hj).2
    have hrefs : (array [toCanon p]).fits Limits.v1 1 := by
      simp [fits, fitsItems, fits_hash, show 2 ≤ Limits.v1.maxDepth by decide,
        show 1 ≤ Limits.v1.maxCollectionLen by decide]
    have hinputs : (toCanon (⟨.zero, .zero, .zero, .zero, .zero⟩ : CompileInputHashes)).fits
        Limits.v1 1 := by decide
    simp only [List.forall_mem_cons, certificateWith]
    exact ⟨rfl, by decide, rfl, fits_hash _ 1, rfl, hinputs, hjudgments, by decide, hrefs,
      fits_hash l 1, rfl, fits_hash r 1, by simp⟩
  exact checkRoundTrip_ok_iff.mpr ⟨rfl, hlength, hfits, rfl, rfl⟩

/-- What follows the judgments the checker looks at does not matter to it. -/
lemma checkArtifacts_sampleCertificate {extra : List AnalysisJudgment}
    (hcount : extra.length ≤ 9) (hsmall : ∀ j ∈ extra, SmallJudgment j)
    (hproof : ∃ n, checkEvidence (sampleCertificate extra) = .ok n) :
    ∃ report, checkArtifacts [samplePlan] (sampleCertificate extra) .v1 .v1 = .ok report := by
  refine checkArtifacts_ok_iff.mpr ⟨?_, ?_, ?_, hproof⟩
  · intro p hp
    rw [List.mem_singleton] at hp
    rw [hp]
    refine checkPlan_ok_iff.mpr ⟨checkRoundTrip_samplePlan, List.mem_singleton_self _,
      ⟨6, "C5_SERIAL_V1", 1, .c5Serial, true, "MVP-1", ⟨1, 1, 0, 6⟩⟩, rfl, rfl, ?_⟩
    exact checkObligation_sampleCertificate extra
  · exact checkRoundTrip_certificateWith _ _ _ hcount hsmall
  · rw [checkManifests, if_neg]
    rintro (h | h)
    · exact h rfl
    · exact h rfl

/-- The obligation of concurrent safety once more, this time not proven. -/
def contradiction : AnalysisJudgment :=
  { sampleJudgment .irConc with status := .unknown .budgetExceeded }

end Sample

end Coverage

end CarolinaDB.Compiler
