import Mathlib

/-! Stable error codes shared by every crate, and the error value that carries
one. Codes are compared by callers; messages are for the operator. -/
namespace CarolinaDB

inductive ErrorCode
  | parseError | duplicateIdentity | typeMismatch | missingRecord | numericOverflow
  | invalidDecimal | unknownNormalizer | unsupportedEffect | unboundedFootprint
  | unevaluableInvariant | invalidContract | unsupportedIrVersion | nonCanonicalEncoding
  | resourceLimit | identityMismatch | unsupportedSessionScope
  | invalidIr | incompleteContract | invalidSequentialContract | unenforceableInvariant
  | incompleteFootprint | unsupportedComposition | unsatisfiableDurability
  | unmetObservationContract | missingRuntimeCapability | invalidEvidence | analysisLimit
  | noSafePlan
  | io | diskFull | corruption | checksumMismatch | unsupportedFormat | invalidManifest
  | keyTooLarge | valueTooLarge | batchTooLarge | conflict | staleEpoch | stalePlan
  | staleSchema | txnAlreadyCommitted | txnAlreadyAborted | txnInDoubt | readOnly | notReady
  | requestIdentityMismatch | identityConflict | identityExpired | resultExpired
  | outcomeUnknown | authorityUnavailable | missingDependency | invariantRejected
  | preconditionRejected | postconditionRejected | arithmeticError | unavailable
  | protocolError | unsupportedCodec | incompatiblePeer | namespaceRetired | internal
  deriving DecidableEq, Repr

structure CoreError where
  code : ErrorCode
  message : String
  path : Option String := none
  deriving DecidableEq, Repr

def CoreError.new (code : ErrorCode) (message : String) : CoreError := ⟨code, message, none⟩

/-- A panic. No caller recovers from one, so it is represented as an error like the others. -/
def CoreError.panicked : CoreError := .new .internal "panicked"

abbrev CoreResult (α : Type) := Except CoreError α

namespace CoreResult
variable {α β : Type}

@[simp] lemma ok_bind (a : α) (f : α → CoreResult β) : (Except.ok a >>= f) = f a := rfl

@[simp] lemma error_bind (e : CoreError) (f : α → CoreResult β) :
    (Except.error e >>= f) = .error e := rfl

lemma map_eq_ok_iff {x : CoreResult α} {f : α → β} {b : β} :
    x.map f = .ok b ↔ ∃ a, x = .ok a ∧ f a = b := by
  cases x <;> simp [Except.map]

lemma bind_eq_ok_iff {x : CoreResult α} {f : α → CoreResult β} {b : β} :
    x >>= f = .ok b ↔ ∃ a, x = .ok a ∧ f a = .ok b := by
  cases x <;> simp [bind, Except.bind]

lemma map_eq_ok {x : CoreResult α} {f : α → β} {b : β} (h : x.map f = .ok b) :
    ∃ a, x = .ok a ∧ f a = b :=
  map_eq_ok_iff.mp h

lemma bind_eq_ok {x : CoreResult α} {f : α → CoreResult β} {b : β} (h : x >>= f = .ok b) :
    ∃ a, x = .ok a ∧ f a = .ok b :=
  bind_eq_ok_iff.mp h

/-- A guard in front of a computation refuses, or the computation goes on. -/
lemma guard_eq_ok_iff {P : Prop} [Decidable P] {err : CoreError} {x : CoreResult α} {a : α} :
    (if P then (Except.error err >>= fun _ : Unit => x) else x) = .ok a ↔ ¬ P ∧ x = .ok a := by
  split_ifs with h <;> simp [h]

end CoreResult

end CarolinaDB
