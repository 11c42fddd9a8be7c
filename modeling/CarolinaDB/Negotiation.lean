import CarolinaDB.Batch
import CarolinaDB.Lexicographic

/-!
# Negotiation of a connection

A hello offers versions, codecs, capabilities and limits. The peer answers with a choice out of
what both sides offer, and the side that sent the hello verifies the answer on its own.
-/
namespace CarolinaDB

inductive EndpointRole
  | client | node | admin
  deriving DecidableEq, Repr

structure AdvertisedLimits where
  maxFramePayload : UInt64
  maxArgumentsBytes : UInt64
  maxResultBytes : UInt64
  maxTokenBytes : UInt64
  deriving DecidableEq, Repr

def AdvertisedLimits.min (l o : AdvertisedLimits) : AdvertisedLimits where
  maxFramePayload := Min.min l.maxFramePayload o.maxFramePayload
  maxArgumentsBytes := Min.min l.maxArgumentsBytes o.maxArgumentsBytes
  maxResultBytes := Min.min l.maxResultBytes o.maxResultBytes
  maxTokenBytes := Min.min l.maxTokenBytes o.maxTokenBytes

/-- The limits of the first version. -/
def AdvertisedLimits.v1 : AdvertisedLimits where
  maxFramePayload := 16 * 1024 * 1024
  maxArgumentsBytes := 1024 * 1024
  maxResultBytes := 1024 * 1024
  maxTokenBytes := 64 * 1024

structure HelloV1 where
  clusterId : ClusterId
  role : EndpointRole
  nonce : Bytes
  wireVersions : List String
  recordCodecs : List String
  irVersions : List String
  planVersions : List String
  protocolCapabilities : List String
  limits : AdvertisedLimits
  capabilityManifestRef : Hash256
  minimumSecurityProfile : String

structure HelloAckV1 where
  clusterId : ClusterId
  role : EndpointRole
  nonce : Bytes
  peerNonce : Bytes
  selectedWireVersion : String
  selectedRecordCodecs : List String
  selectedIrVersion : String
  selectedPlanVersion : String
  selectedCapabilities : List String
  limits : AdvertisedLimits
  capabilityManifestRef : Hash256
  securityProfile : String

/-- The rank of a security profile. A profile that is not known has none. -/
def securityRank (profile : String) : ℤ :=
  if profile = "DEV_LOCAL" then 0
  else if profile = "ENCRYPTED_HOST_V1" then 1
  else -1

/-- Ordered security profiles. `DEV_LOCAL` can never satisfy a production minimum. -/
def securityProfileAtLeast (actual minimum : String) : Bool :=
  0 ≤ securityRank actual ∧ 0 ≤ securityRank minimum ∧ securityRank minimum ≤ securityRank actual

/-- Local capabilities used to answer a hello. -/
structure LocalCapabilities where
  clusterId : ClusterId
  role : EndpointRole
  wireVersions : List String
  recordCodecs : List String
  irVersions : List String
  planVersions : List String
  protocolCapabilities : List String
  limits : AdvertisedLimits
  capabilityManifestRef : Hash256
  securityProfile : String
  minimumSecurityProfile : String

/-- What one side offers and the other has as well. -/
def pickCommon (mine theirs : List String) (what : String) : CoreResult (List String) :=
  let common := mine.filter (theirs.contains ·)
  if common = [] then .error (.new .unsupportedCodec ("no common " ++ what)) else .ok common

/-- The last of the greatest texts. There is none in an empty list, and unwrapping it panics. -/
def greatest : List String → CoreResult String
  | [] => .error .panicked
  | t :: ts => .ok (ts.foldl
      (fun a b => if Lexicographic.lexCmp compare (utf8 a) (utf8 b) = .gt then a else b) t)

namespace LocalCapabilities

def v1 (clusterId : ClusterId) (role : EndpointRole) (limits : AdvertisedLimits)
    (securityProfile : String) : LocalCapabilities where
  clusterId
  role
  wireVersions := ["1.0"]
  recordCodecs := (Storage.registeredKinds.map fun k => k.1 ++ ":" ++ toString k.2).mergeSort
    fun a b => Lexicographic.lexCmp compare (utf8 a) (utf8 b) ≠ .gt
  irVersions := ["1"]
  planVersions := ["1"]
  protocolCapabilities := ["C0_LOCAL_V1:1", "C5_SERIAL_V1:1", "resolve:1"]
  limits
  capabilityManifestRef := Hash256.zero
  securityProfile
  minimumSecurityProfile := securityProfile

def hello (c : LocalCapabilities) (nonce : Bytes) : HelloV1 where
  clusterId := c.clusterId
  role := c.role
  nonce
  wireVersions := c.wireVersions
  recordCodecs := c.recordCodecs
  irVersions := c.irVersions
  planVersions := c.planVersions
  protocolCapabilities := c.protocolCapabilities
  limits := c.limits
  capabilityManifestRef := c.capabilityManifestRef
  minimumSecurityProfile := c.minimumSecurityProfile

/-- Answer a hello: intersect offers, take minima of limits, refuse on incompatibility. -/
def answer (c : LocalCapabilities) (hello : HelloV1) (nonce : Bytes) : CoreResult HelloAckV1 := do
  if hello.clusterId ≠ c.clusterId then
    .error (.new .incompatiblePeer "peer belongs to another cluster")
  let wire ← pickCommon c.wireVersions hello.wireVersions "wire version"
  let ir ← pickCommon c.irVersions hello.irVersions "IR version"
  let plan ← pickCommon c.planVersions hello.planVersions "plan version"
  let codecs ← pickCommon c.recordCodecs hello.recordCodecs "record codec"
  let caps := c.protocolCapabilities.filter (hello.protocolCapabilities.contains ·)
  if hello.minimumSecurityProfile ≠ c.securityProfile ∧
      ¬ securityProfileAtLeast c.securityProfile hello.minimumSecurityProfile then
    .error (.new .incompatiblePeer "peer requires a stronger security profile")
  let selectedWireVersion ← greatest wire
  let selectedIrVersion ← greatest ir
  let selectedPlanVersion ← greatest plan
  .ok {
    clusterId := c.clusterId
    role := c.role
    nonce
    peerNonce := hello.nonce
    selectedWireVersion
    selectedRecordCodecs := codecs
    selectedIrVersion
    selectedPlanVersion
    selectedCapabilities := caps
    limits := c.limits.min hello.limits
    capabilityManifestRef := c.capabilityManifestRef
    securityProfile := c.securityProfile }

/-- Verify an answer against the hello we sent: nothing selected that we did not offer, no limit
above ours. -/
def verifyAck (c : LocalCapabilities) (sent : HelloV1) (ack : HelloAckV1) : CoreResult Unit := do
  if ack.clusterId ≠ c.clusterId ∨ ack.peerNonce ≠ sent.nonce then
    .error (.new .incompatiblePeer "HelloAck does not answer our Hello")
  if ¬ sent.wireVersions.contains ack.selectedWireVersion then
    .error (.new .unsupportedCodec "peer selected an unoffered wire version")
  if ¬ sent.irVersions.contains ack.selectedIrVersion ∨
      ¬ sent.planVersions.contains ack.selectedPlanVersion then
    .error (.new .unsupportedCodec "peer selected an unoffered IR/plan version")
  if ack.selectedRecordCodecs.any (fun x => ¬ sent.recordCodecs.contains x) then
    .error (.new .unsupportedCodec "peer selected an unoffered codec")
  if ack.selectedCapabilities.any (fun x => ¬ sent.protocolCapabilities.contains x) then
    .error (.new .unsupportedCodec "peer selected an unoffered capability")
  let l := ack.limits
  let s := sent.limits
  if s.maxFramePayload < l.maxFramePayload ∨ s.maxArgumentsBytes < l.maxArgumentsBytes ∨
      s.maxResultBytes < l.maxResultBytes ∨ s.maxTokenBytes < l.maxTokenBytes then
    .error (.new .protocolError "peer exceeded our advertised limits")
  if ¬ securityProfileAtLeast ack.securityProfile sent.minimumSecurityProfile then
    .error (.new .incompatiblePeer "peer downgraded the security profile")

end LocalCapabilities

lemma mem_of_pickCommon {mine theirs common : List String} {what : String}
    (h : pickCommon mine theirs what = .ok common) : ∀ x ∈ common, x ∈ theirs ∧ x ∈ mine := by
  rw [pickCommon] at h
  split_ifs at h
  obtain rfl := Except.ok.inj h
  intro x hx
  rw [List.mem_filter, List.contains_iff_mem] at hx
  exact hx.symm

lemma mem_of_greatest {l : List String} {x : String} (h : greatest l = .ok x) : x ∈ l := by
  cases l with
  | nil => cases h
  | cons t ts =>
    obtain rfl := Except.ok.inj h
    clear h
    induction ts generalizing t with
    | nil => simp
    | cons b ts ih =>
      rw [List.foldl_cons]
      -- the text kept so far is one of the two that were compared
      rcases List.mem_cons.mp (ih _) with hkept | hrest
      · rw [hkept]
        split_ifs <;> simp
      · simp [hrest]

lemma pickCommon_self {l : List String} {what : String} (h : l ≠ []) :
    pickCommon l l what = .ok l := by
  have hall : l.filter (l.contains ·) = l := List.filter_eq_self.mpr fun x hx => by simpa using hx
  rw [pickCommon, hall, if_neg h]

/-- A profile that has a rank. -/
def KnownProfile (profile : String) : Prop := profile = "DEV_LOCAL" ∨ profile = "ENCRYPTED_HOST_V1"

lemma knownProfile_iff {profile : String} : KnownProfile profile ↔ 0 ≤ securityRank profile := by
  unfold KnownProfile securityRank
  split_ifs <;> simp [*]

lemma securityProfileAtLeast_iff {actual minimum : String} :
    securityProfileAtLeast actual minimum ↔
      0 ≤ securityRank actual ∧ 0 ≤ securityRank minimum ∧
        securityRank minimum ≤ securityRank actual := by
  simp [securityProfileAtLeast]

namespace LocalCapabilities

/-- What an answer that was given says about the two sides. -/
structure Answered (s : LocalCapabilities) (hello : HelloV1) (ack : HelloAckV1) : Prop where
  cluster : hello.clusterId = s.clusterId
  ack_cluster : ack.clusterId = s.clusterId
  nonce : ack.peerNonce = hello.nonce
  wire : ack.selectedWireVersion ∈ hello.wireVersions ∧ ack.selectedWireVersion ∈ s.wireVersions
  ir : ack.selectedIrVersion ∈ hello.irVersions ∧ ack.selectedIrVersion ∈ s.irVersions
  plan : ack.selectedPlanVersion ∈ hello.planVersions ∧ ack.selectedPlanVersion ∈ s.planVersions
  codecs : ∀ x ∈ ack.selectedRecordCodecs, x ∈ hello.recordCodecs ∧ x ∈ s.recordCodecs
  capabilities : ∀ x ∈ ack.selectedCapabilities,
    x ∈ hello.protocolCapabilities ∧ x ∈ s.protocolCapabilities
  limits : ack.limits = s.limits.min hello.limits
  profile : ack.securityProfile = s.securityProfile
  security : hello.minimumSecurityProfile = s.securityProfile ∨
    securityProfileAtLeast s.securityProfile hello.minimumSecurityProfile

lemma answered {s : LocalCapabilities} {hello : HelloV1} {nonce : Bytes} {ack : HelloAckV1}
    (h : s.answer hello nonce = .ok ack) : Answered s hello ack := by
  unfold answer at h
  simp only [CoreResult.guard_eq_ok_iff, CoreResult.bind_eq_ok_iff] at h
  obtain ⟨hcluster, wire, hwire, ir, hir, plan, hplan, codecs, hcodecs, hsec, w, hw, i, hi, p, hp,
    hack⟩ := h
  obtain rfl := Except.ok.inj hack
  exact {
    cluster := not_not.mp hcluster
    ack_cluster := rfl
    nonce := rfl
    wire := mem_of_pickCommon hwire w (mem_of_greatest hw)
    ir := mem_of_pickCommon hir i (mem_of_greatest hi)
    plan := mem_of_pickCommon hplan p (mem_of_greatest hp)
    codecs := mem_of_pickCommon hcodecs
    capabilities := fun x hx => by
      rw [List.mem_filter, List.contains_iff_mem] at hx
      exact hx.symm
    limits := rfl
    profile := rfl
    security := by
      by_contra hno
      rw [not_or] at hno
      exact hsec hno }

lemma verifyAck_iff {c : LocalCapabilities} {sent : HelloV1} {ack : HelloAckV1} :
    c.verifyAck sent ack = .ok () ↔
      (ack.clusterId = c.clusterId ∧ ack.peerNonce = sent.nonce) ∧
      ack.selectedWireVersion ∈ sent.wireVersions ∧
      (ack.selectedIrVersion ∈ sent.irVersions ∧ ack.selectedPlanVersion ∈ sent.planVersions) ∧
      (∀ x ∈ ack.selectedRecordCodecs, x ∈ sent.recordCodecs) ∧
      (∀ x ∈ ack.selectedCapabilities, x ∈ sent.protocolCapabilities) ∧
      (ack.limits.maxFramePayload ≤ sent.limits.maxFramePayload ∧
        ack.limits.maxArgumentsBytes ≤ sent.limits.maxArgumentsBytes ∧
        ack.limits.maxResultBytes ≤ sent.limits.maxResultBytes ∧
        ack.limits.maxTokenBytes ≤ sent.limits.maxTokenBytes) ∧
      securityProfileAtLeast ack.securityProfile sent.minimumSecurityProfile := by
  have hlast {profile minimum : String} {err : CoreError} :
      (if ¬ securityProfileAtLeast profile minimum then Except.error err else pure ()) =
        Except.ok () ↔ securityProfileAtLeast profile minimum := by
    split_ifs with h
    · simp [h, pure, Except.pure]
    · simp [h]
  unfold verifyAck
  simp only [CoreResult.guard_eq_ok_iff, hlast]
  simp [and_assoc]

/-- Both sides come out of a negotiation with the same terms. -/
structure Agreed (c s : LocalCapabilities) (n : Bytes) (ack : HelloAckV1) : Prop where
  verified : c.verifyAck (c.hello n) ack = .ok ()
  wire : ack.selectedWireVersion ∈ c.wireVersions ∧ ack.selectedWireVersion ∈ s.wireVersions
  ir : ack.selectedIrVersion ∈ c.irVersions ∧ ack.selectedIrVersion ∈ s.irVersions
  plan : ack.selectedPlanVersion ∈ c.planVersions ∧ ack.selectedPlanVersion ∈ s.planVersions
  codecs : ∀ x ∈ ack.selectedRecordCodecs, x ∈ c.recordCodecs ∧ x ∈ s.recordCodecs
  capabilities : ∀ x ∈ ack.selectedCapabilities,
    x ∈ c.protocolCapabilities ∧ x ∈ s.protocolCapabilities
  limits : ack.limits = s.limits.min c.limits
  security : securityProfileAtLeast s.securityProfile c.minimumSecurityProfile

variable {c s : LocalCapabilities} {n m : Bytes} {ack : HelloAckV1}

/-- Everything but the profile is agreed on, whatever the two sides offer. -/
lemma Answered.agreed (h : Answered s (c.hello n) ack)
    (hsec : securityProfileAtLeast s.securityProfile c.minimumSecurityProfile) :
    Agreed c s n ack where
  verified := by
    rw [verifyAck_iff, h.limits, h.profile]
    refine ⟨⟨h.ack_cluster.trans h.cluster.symm, h.nonce⟩, h.wire.1, ⟨h.ir.1, h.plan.1⟩,
      fun x hx => (h.codecs x hx).1, fun x hx => (h.capabilities x hx).1, ?_, hsec⟩
    exact ⟨Std.min_le_right, Std.min_le_right, Std.min_le_right, Std.min_le_right⟩
  wire := h.wire
  ir := h.ir
  plan := h.plan
  codecs := h.codecs
  capabilities := h.capabilities
  limits := h.limits
  security := hsec

/-- An answer is agreed on by both sides exactly when the profile of the side that gave it is a
known one: the answering side takes equal names for enough, the other side ranks them. -/
theorem negotiation_agrees_iff (h : s.answer (c.hello n) m = .ok ack) :
    Agreed c s n ack ↔ KnownProfile s.securityProfile := by
  have ha := answered h
  rw [knownProfile_iff]
  constructor
  · intro hagreed
    exact (securityProfileAtLeast_iff.mp hagreed.security).1
  · intro hknown
    apply ha.agreed
    rcases ha.security with heq | hsec
    · change c.minimumSecurityProfile = s.securityProfile at heq
      rw [securityProfileAtLeast_iff, heq]
      exact ⟨hknown, hknown, le_rfl⟩
    · exact hsec

/-- Two nodes with the first version's capabilities. -/
def sample (profile : String) : LocalCapabilities := v1 (Id128.nil _) .node .v1 profile

lemma sample_answer (profile : String) : ∃ ack,
    (sample profile).answer ((sample profile).hello [1]) [2] = .ok ack := by
  have hcodecs : (sample profile).recordCodecs ≠ [] := by
    intro h
    have hlen := congrArg List.length h
    simp [sample, v1, Storage.registeredKinds] at hlen
  rw [answer, if_neg (by simp [hello])]
  simp only [hello, pickCommon_self hcodecs]
  simp only [sample, v1, pickCommon_self (List.cons_ne_nil _ _), CoreResult.ok_bind,
    ne_eq, not_true_eq_false, false_and, if_false]
  exact ⟨_, rfl⟩

theorem negotiation_agrees_devLocal : ∃ ack,
    (sample "DEV_LOCAL").answer ((sample "DEV_LOCAL").hello [1]) [2] = .ok ack ∧
      Agreed (sample "DEV_LOCAL") (sample "DEV_LOCAL") [1] ack := by
  obtain ⟨ack, h⟩ := sample_answer "DEV_LOCAL"
  exact ⟨ack, h, (negotiation_agrees_iff h).mpr (Or.inl rfl)⟩

/-- An answer that the side which asked for it refuses. -/
theorem unknown_profile_refused : ∃ ack,
    (sample "TLS_V2").answer ((sample "TLS_V2").hello [1]) [2] = .ok ack ∧
      (sample "TLS_V2").verifyAck ((sample "TLS_V2").hello [1]) ack ≠ .ok () := by
  obtain ⟨ack, h⟩ := sample_answer "TLS_V2"
  refine ⟨ack, h, ?_⟩
  rw [Ne, verifyAck_iff, (answered h).profile]
  simp [sample, v1, hello, securityProfileAtLeast, securityRank]

end LocalCapabilities

end CarolinaDB
