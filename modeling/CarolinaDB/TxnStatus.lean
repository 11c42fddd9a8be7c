import CarolinaDB.Batch

/-! The durable status of a transaction, its legal transitions, and the protocol
mutations of a batch. -/
namespace CarolinaDB.Storage

open CanonValue

inductive TxnPhase
  | bound | admitted | prepared | installed | aborted | terminal
  deriving DecidableEq, Repr

namespace TxnPhase

def label : TxnPhase → String
  | bound => "BOUND"
  | admitted => "ADMITTED"
  | prepared => "PREPARED"
  | installed => "INSTALLED"
  | aborted => "ABORTED"
  | terminal => "TERMINAL"

def fromLabel : String → CoreResult TxnPhase
  | "BOUND" => .ok bound
  | "ADMITTED" => .ok admitted
  | "PREPARED" => .ok prepared
  | "INSTALLED" => .ok installed
  | "ABORTED" => .ok aborted
  | "TERMINAL" => .ok terminal
  | k => .error (.new .nonCanonicalEncoding ("txn phase " ++ k))

def canAdvanceTo : TxnPhase → TxnPhase → Bool
  | bound, admitted => true
  | admitted, prepared => true
  | admitted, terminal => true
  | prepared, installed => true
  | prepared, aborted => true
  | installed, terminal => true
  | aborted, terminal => true
  | _, _ => false

/-- The transaction has its decision. -/
def isDecided : TxnPhase → Bool
  | installed | terminal | aborted => true
  | _ => false

instance : Canonical TxnPhase where
  toCanon p := .str p.label
  fromCanon v := do fromLabel (← v.asStr)

instance : ExactCanonical TxnPhase where
  sorted_toCanon _ := rfl
  fromCanon_toCanon p := by cases p <;> rfl

end TxnPhase

inductive TerminalOutcome
  | committed (receipt : FinalReceiptV1)
  | rejected (receipt : FinalReceiptV1)
  deriving DecidableEq, Repr

namespace TerminalOutcome

def receipt : TerminalOutcome → FinalReceiptV1
  | committed r => r
  | rejected r => r

def toCanon : TerminalOutcome → CanonValue
  | committed r => build [("kind", .str "committed"), ("receipt", Canonical.toCanon r)]
  | rejected r => build [("kind", .str "rejected"), ("receipt", Canonical.toCanon r)]

def fromCanon (v : CanonValue) : CoreResult TerminalOutcome := do
  v.expectFields ["kind", "receipt"]
  let kind : String ← v.fieldAs "kind"
  if kind = "committed" then do
    let r ← v.fieldAs "receipt"
    .ok (committed r)
  else if kind = "rejected" then do
    let r ← v.fieldAs "receipt"
    .ok (rejected r)
  else .error (.new .nonCanonicalEncoding ("terminal outcome " ++ kind))

instance : Canonical TerminalOutcome := ⟨toCanon, fromCanon, fun t => distinctSets t.receipt⟩

/-- As it is read back. -/
def normal : TerminalOutcome → TerminalOutcome
  | committed r => committed r.normal
  | rejected r => rejected r.normal

instance : LawfulCanonical TerminalOutcome where
  sound t := sound t.receipt
  normal := normal
  sorted_toCanon t := by
    cases t <;> exact sorted_build (by simp [sorted, LawfulCanonical.sorted_toCanon])
  fromCanon_toCanon t h b := by
    change fromCanon (toCanon t) = _ ↔ _
    cases t with
    | committed r =>
      have hr := LawfulCanonical.fromCanon_toCanon r h
      simp only [fromCanon, toCanon]
      simp [CoreResult.bind_eq_ok_iff, hr]
      exact and_congr_right fun _ => eq_comm
    | rejected r =>
      have hr := LawfulCanonical.fromCanon_toCanon r h
      simp only [fromCanon, toCanon]
      simp [CoreResult.bind_eq_ok_iff, hr]
      exact and_congr_right fun _ => eq_comm
  toCanon_normal t h := by
    have hr := LawfulCanonical.toCanon_normal t.receipt h
    cases t <;> exact congrArg (fun v => build [("kind", _), ("receipt", v)]) hr
  distinctSets_normal t h := by
    cases t with
    | committed r => exact LawfulCanonical.distinctSets_normal r h
    | rejected r => exact LawfulCanonical.distinctSets_normal r h

instance : NonNull TerminalOutcome where
  toCanon_ne_null t := by cases t <;> simp [Canonical.toCanon, toCanon, build]

end TerminalOutcome

structure TxnStatusRecord where
  revision : RecordRevision
  phase : TxnPhase
  plan : PlanRef
  idcBindings : List IdcBinding
  preparedDigest : Option SemanticDigest
  decisionRef : Option ProtocolRecordRef
  acceptedResult : Option AcceptedResultV1
  terminalOutcome : Option TerminalOutcome
  deriving DecidableEq, Repr

namespace TxnStatusRecord

def validate (r : TxnStatusRecord) : CoreResult Unit :=
  if r.phase = .terminal then
    if r.terminalOutcome.isSome then .ok ()
    else .error (.new .invalidEvidence "TERMINAL status without terminal outcome")
  else if r.terminalOutcome.isSome then
    .error (.new .invalidEvidence "non-terminal status carries a terminal outcome")
  else .ok ()

/-- A legal successor: the revision advances by one and the identity fields stay. -/
def validateTransition (prev : Option TxnStatusRecord) (next : TxnStatusRecord) :
    CoreResult Unit := do
  next.validate
  match prev with
  | none =>
    if next.revision ≠ 1 then .error (.new .conflict "first status record must have revision 1")
    else .ok ()
  | some p =>
    if p.revision.toNat + 1 ≠ next.revision.toNat then
      .error (.new .conflict "status revision must advance by one")
    else if p.phase = next.phase ∧ p = next then .ok ()
    else if ¬ p.phase.canAdvanceTo next.phase then
      .error (.new .conflict
        ("illegal txn phase transition " ++ p.phase.label ++ " -> " ++ next.phase.label))
    else if p.plan ≠ next.plan ∨ p.idcBindings ≠ next.idcBindings then
      .error (.new .identityMismatch "status transition changes plan or IDC bindings")
    else
      match p.terminalOutcome, next.terminalOutcome with
      | some a, some b =>
        if a ≠ b then .error (.new .identityMismatch "terminal outcome cannot change") else .ok ()
      | _, _ => .ok ()

def toCanon (r : TxnStatusRecord) : CanonValue := build [
  ("accepted_result", Canonical.toCanon r.acceptedResult),
  ("decision_ref", Canonical.toCanon r.decisionRef),
  ("idc_bindings", canonSet r.idcBindings),
  ("phase", Canonical.toCanon r.phase),
  ("plan", Canonical.toCanon r.plan),
  ("prepared_digest", Canonical.toCanon r.preparedDigest),
  ("revision", Canonical.toCanon r.revision),
  ("terminal_outcome", Canonical.toCanon r.terminalOutcome)]

def fromCanon (v : CanonValue) : CoreResult TxnStatusRecord := do
  v.expectFields ["accepted_result", "decision_ref", "idc_bindings", "phase", "plan",
    "prepared_digest", "revision", "terminal_outcome"]
  let revision ← v.fieldAs "revision"
  let phase ← v.fieldAs "phase"
  let plan ← v.fieldAs "plan"
  let idcBindings ← v.fieldAsSet "idc_bindings"
  let preparedDigest ← v.fieldAs "prepared_digest"
  let decisionRef ← v.fieldAs "decision_ref"
  let acceptedResult ← v.fieldAs "accepted_result"
  let terminalOutcome ← v.fieldAs "terminal_outcome"
  let r : TxnStatusRecord := ⟨revision, phase, plan, idcBindings, preparedDigest, decisionRef,
    acceptedResult, terminalOutcome⟩
  r.validate
  .ok r

def distinctSets (r : TxnStatusRecord) : Bool :=
  Canonical.distinctSets r.acceptedResult && (distinctElems r.idcBindings &&
    Canonical.distinctSets r.terminalOutcome)

/-- As it is read back. -/
def normal (r : TxnStatusRecord) : TxnStatusRecord :=
  { r with
    idcBindings := naturalOrder r.idcBindings
    acceptedResult := LawfulCanonical.normal r.acceptedResult
    terminalOutcome := LawfulCanonical.normal r.terminalOutcome }

instance : Canonical TxnStatusRecord := ⟨toCanon, fromCanon, distinctSets⟩

lemma validate_normal (r : TxnStatusRecord) : r.normal.validate = r.validate := by
  have h : r.normal.terminalOutcome.isSome = r.terminalOutcome.isSome := Option.isSome_map
  simp only [validate, h]
  rfl

instance : LawfulCanonical TxnStatusRecord where
  sound r := r.validate = .ok () && (sound r.acceptedResult && sound r.terminalOutcome)
  normal := normal
  sorted_toCanon r := sorted_build (by simp [LawfulCanonical.sorted_toCanon])
  fromCanon_toCanon r h b := by
    have h' : distinctSets r := h
    simp only [distinctSets, Bool.and_eq_true] at h'
    obtain ⟨hacc, hidc, hterm⟩ := h'
    change fromCanon (toCanon r) = _ ↔ _
    simp only [fromCanon, toCanon]
    simp only [expectFields_build, List.map_cons, List.map_nil, implies_true, CoreResult.ok_bind,
      fieldAs_build, fieldAsSet_build, lookup_cons_eq, reduceIte, String.reduceEq,
      ExactCanonical.fromCanon_toCanon, decodeSet_canonSet, hidc]
    simp only [CoreResult.bind_eq_ok_iff, LawfulCanonical.fromCanon_toCanon _ hacc,
      LawfulCanonical.fromCanon_toCanon _ hterm]
    constructor
    · rintro ⟨_, ⟨ha, rfl⟩, _, ⟨ht, rfl⟩, u, hv, hb⟩
      have hv' : r.normal.validate = .ok u := hv
      rw [validate_normal] at hv'
      refine ⟨?_, (Except.ok.inj hb).symm⟩
      simp [hv', ha, ht]
    · rintro ⟨hs, rfl⟩
      simp only [Bool.and_eq_true, decide_eq_true_eq] at hs
      exact ⟨_, ⟨hs.2.1, rfl⟩, _, ⟨hs.2.2, rfl⟩, (), (validate_normal r).trans hs.1, rfl⟩
  toCanon_normal r h := by
    have h' : distinctSets r := h
    simp only [distinctSets, Bool.and_eq_true] at h'
    change toCanon (normal r) = toCanon r
    simp only [toCanon, normal, LawfulCanonical.toCanon_normal _ h'.1,
      LawfulCanonical.toCanon_normal _ h'.2.2, canonSet_naturalOrder h'.2.1]
  distinctSets_normal r h := by
    have h' : distinctSets r := h
    simp only [distinctSets, Bool.and_eq_true] at h'
    change distinctSets (normal r)
    simp only [distinctSets, normal, Bool.and_eq_true]
    exact ⟨LawfulCanonical.distinctSets_normal _ h'.1, distinctElems_naturalOrder h'.2.1,
      LawfulCanonical.distinctSets_normal _ h'.2.2⟩

end TxnStatusRecord

structure TxnStatusTransition where
  txnId : TxnId
  requestKey : RequestKey
  requestHash : RequestHash
  expectedRevision : ExpectedRecordRevision
  next : TxnStatusRecord
  deriving DecidableEq, Repr

namespace TxnStatusTransition

def toCanon (t : TxnStatusTransition) : CanonValue := build [
  ("expected_revision", Canonical.toCanon t.expectedRevision),
  ("next", Canonical.toCanon t.next),
  ("request_hash", Canonical.toCanon t.requestHash),
  ("request_key", Canonical.toCanon t.requestKey),
  ("txn_id", Canonical.toCanon t.txnId)]

def fromCanon (v : CanonValue) : CoreResult TxnStatusTransition := do
  v.expectFields ["expected_revision", "next", "request_hash", "request_key", "txn_id"]
  let txnId ← v.fieldAs "txn_id"
  let requestKey ← v.fieldAs "request_key"
  let requestHash ← v.fieldAs "request_hash"
  let expectedRevision ← v.fieldAs "expected_revision"
  let next ← v.fieldAs "next"
  .ok ⟨txnId, requestKey, requestHash, expectedRevision, next⟩

instance : Canonical TxnStatusTransition := ⟨toCanon, fromCanon, fun t => t.next.distinctSets⟩

/-- As it is read back. -/
def normal (t : TxnStatusTransition) : TxnStatusTransition := { t with next := t.next.normal }

instance : LawfulCanonical TxnStatusTransition where
  sound t := sound t.next
  normal := normal
  sorted_toCanon t := sorted_build (by simp [LawfulCanonical.sorted_toCanon])
  fromCanon_toCanon t h b := by
    have hn := LawfulCanonical.fromCanon_toCanon t.next h
    change fromCanon (toCanon t) = _ ↔ _
    simp only [fromCanon, toCanon]
    simp only [expectFields_build, List.map_cons, List.map_nil, implies_true, CoreResult.ok_bind,
      fieldAs_build, lookup_cons_eq, reduceIte, String.reduceEq, ExactCanonical.fromCanon_toCanon]
    simp only [CoreResult.bind_eq_ok_iff, hn]
    constructor
    · rintro ⟨_, ⟨hs, rfl⟩, hb⟩
      exact ⟨hs, (Except.ok.inj hb).symm⟩
    · rintro ⟨hs, rfl⟩
      exact ⟨_, ⟨hs, rfl⟩, rfl⟩
  toCanon_normal t h := by
    have hn : Canonical.toCanon t.next.normal = Canonical.toCanon t.next :=
      LawfulCanonical.toCanon_normal t.next h
    change toCanon (normal t) = toCanon t
    simp only [toCanon, normal, hn]
  distinctSets_normal t h := LawfulCanonical.distinctSets_normal t.next h

end TxnStatusTransition

inductive ProtocolMutation
  | putRecord (write : ProtocolRecordWrite)
  | setTxnStatus (transition : TxnStatusTransition)
  deriving DecidableEq, Repr

namespace ProtocolMutation

def toCanon : ProtocolMutation → CanonValue
  | putRecord w => build [("kind", .str "put_record"), ("write", Canonical.toCanon w)]
  | setTxnStatus t => build [("kind", .str "set_txn_status"), ("transition", Canonical.toCanon t)]

def fromCanon (v : CanonValue) : CoreResult ProtocolMutation := do
  let kind : String ← v.fieldAs "kind"
  if kind = "put_record" then do
    let w ← v.fieldAs "write"
    .ok (putRecord w)
  else if kind = "set_txn_status" then do
    let t ← v.fieldAs "transition"
    .ok (setTxnStatus t)
  else .error (.new .nonCanonicalEncoding ("protocol mutation " ++ kind))

def distinctSets : ProtocolMutation → Bool
  | putRecord _ => true
  | setTxnStatus t => t.next.distinctSets

instance : Canonical ProtocolMutation := ⟨toCanon, fromCanon, distinctSets⟩

/-- As it is read back. -/
def normal : ProtocolMutation → ProtocolMutation
  | putRecord w => putRecord w
  | setTxnStatus t => setTxnStatus t.normal

instance : LawfulCanonical ProtocolMutation where
  sound
    | putRecord _ => true
    | setTxnStatus t => sound t
  normal := normal
  sorted_toCanon m := by
    cases m <;> exact sorted_build (by simp [sorted, LawfulCanonical.sorted_toCanon])
  fromCanon_toCanon m h b := by
    change fromCanon (toCanon m) = _ ↔ _
    cases m with
    | putRecord w => simp [fromCanon, toCanon, normal, eq_comm]
    | setTxnStatus t =>
      have ht := LawfulCanonical.fromCanon_toCanon t h
      simp only [fromCanon, toCanon]
      simp [CoreResult.bind_eq_ok_iff, ht]
      exact fun _ => eq_comm
  toCanon_normal m h := by
    cases m with
    | putRecord w => rfl
    | setTxnStatus t =>
      exact congrArg (fun v => build [("kind", _), ("transition", v)])
        (LawfulCanonical.toCanon_normal t h)
  distinctSets_normal m h := by
    cases m with
    | putRecord w => rfl
    | setTxnStatus t => exact LawfulCanonical.distinctSets_normal t h

end ProtocolMutation

end CarolinaDB.Storage
