import CarolinaDB.StoreCalls

/-!
# What the reads of the store see

A read that returns is a read of the versioned map of the tree. The same reads are
stated over a map and a sequence, where they do not depend on the shape of the tree.
-/
namespace CarolinaDB.Storage

/-- A read that returns has found the newest visible version. -/
theorem BTree.getVersion_sound {V : Type} [ByteLen V] {t : BTree V} {key : Bytes} {visible : ℕ}
    {r : Option (LeafEntry V)} (h : t.getVersion key visible = .ok r) :
    r = t.versions.newest key visible := by
  have hheight : t.height < 64 := by
    by_contra hdeep
    simp [getVersion, descend, hdeep] at h
  have hends : t.getEnds key visible := by
    intro path hpath
    by_contra hsome
    rw [Option.not_isSome_iff_eq_none] at hsome
    simp [getVersion, hpath, hsome] at h
  obtain ⟨r', hr', hnewest⟩ := (getVersion_iff hheight key visible).mpr hends
  rw [h, Except.ok.injEq] at hr'
  exact isNewest_iff.mp (hr' ▸ hnewest)

/-- The rows of the store, in all their versions. -/
abbrev Rows := Versions Bytes (LeafEntry Bytes)

namespace Store

section View

def valueAt (m : Rows) (visible : ℕ) (key : Bytes) : CoreResult (Option Bytes) :=
  valueOf (m.newest key visible)

def recordAt (m : Rows) (visible : ℕ) (key : LogicalKey) :
    CoreResult (Option (RecordRevision × VersionedProtocolRecord)) := do
  match ← valueAt m visible key with
  | none => .ok none
  | some v => (decodeRecordValue v).map some

def statusAt (m : Rows) (visible : ℕ) (txn : TxnId) : CoreResult (Option TxnStatusRecord) := do
  match ← valueAt m visible (txnStatusKey txn) with
  | none => .ok none
  | some v => (Canonical.decode v Limits.v1).map some

/-- The protocol record a store holds, and the status of a transaction. -/
def recordOf (s : Store) (key : LogicalKey) :
    CoreResult (Option (RecordRevision × VersionedProtocolRecord)) :=
  recordAt s.tree.versions s.durableCommitSeq key

def statusOf (s : Store) (txn : TxnId) : CoreResult (Option TxnStatusRecord) :=
  statusAt s.tree.versions s.durableCommitSeq txn

end View

section Congruence
variable {m m' : Rows} {v v' : ℕ}

lemma recordAt_congr {key : LogicalKey} (h : m'.newest key v' = m.newest key v) :
    recordAt m' v' key = recordAt m v key := by
  rw [recordAt, recordAt, valueAt, valueAt, h]

lemma statusAt_congr {txn : TxnId}
    (h : m'.newest (txnStatusKey txn) v' = m.newest (txnStatusKey txn) v) :
    statusAt m' v' txn = statusAt m v txn := by
  rw [statusAt, statusAt, valueAt, valueAt, h]

end Congruence

section Soundness
variable {s : Store}

lemma requireRecovered_eq_ok : s.requireRecovered = .ok () ↔ s.recoveryRequired = false := by
  rw [requireRecovered]
  split_ifs with h <;> simp [h]

lemma currentValue_sound {key : Bytes} {r : Option Bytes} (h : s.currentValue key = .ok r) :
    valueAt s.tree.versions s.durableCommitSeq key = .ok r := by
  obtain ⟨e, he, hr⟩ := CoreResult.bind_eq_ok h
  rw [valueAt, ← BTree.getVersion_sound he]
  exact hr

lemma currentRecord_sound {key : LogicalKey}
    {r : Option (RecordRevision × VersionedProtocolRecord)} (h : s.currentRecord key = .ok r) :
    s.recordOf key = .ok r := by
  obtain ⟨v, hv, hr⟩ := CoreResult.bind_eq_ok h
  rw [recordOf, recordAt, currentValue_sound hv]
  exact hr

lemma txnStatus_sound {txn : TxnId} {r : Option TxnStatusRecord} (h : s.txnStatus txn = .ok r) :
    s.statusOf txn = .ok r := by
  obtain ⟨-, -, h⟩ := CoreResult.bind_eq_ok h
  obtain ⟨v, hv, hr⟩ := CoreResult.bind_eq_ok h
  rw [statusOf, statusAt, currentValue_sound hv]
  exact hr

end Soundness

end Store

end CarolinaDB.Storage
