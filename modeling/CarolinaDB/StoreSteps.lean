import CarolinaDB.StoreInstall

/-!
# What the calls of the store do

A call is refused and changes nothing but for a checkpoint, or fails in a durable
step and fences the handle, or it extends the store by the inserts of its batch at
the next sequence. A checkpoint keeps everything that can still be read.
-/
namespace CarolinaDB.Storage

namespace Store

variable {s s' s'' : Store}

section Durable
variable {α : Type} {x : StoreM α} {r : CoreResult α}

/-- A durable step succeeds on a recovered handle, or leaves it fenced. -/
lemma durably_cases (h : durably x s = (r, s')) :
    (∃ a, r = .ok a ∧ s.recoveryRequired = false ∧ x s = (.ok a, s')) ∨
      ((∃ e, r = .error e) ∧ s'.recoveryRequired = true) := by
  unfold durably at h
  cases hrec : s.recoveryRequired with
  | true =>
    simp only [requireRecovered, hrec, if_true, Attempt.end_eq_iff] at h
    exact Or.inr ⟨⟨_, h.1.symm⟩, h.2 ▸ hrec⟩
  | false =>
    rw [requireRecovered_eq_ok.mpr hrec] at h
    rcases hx : x s with ⟨e | a, s₁⟩
    · simp only [hx, Attempt.end_eq_iff] at h
      exact Or.inr ⟨⟨e, h.1.symm⟩, h.2 ▸ rfl⟩
    · simp only [hx, Attempt.end_eq_iff] at h
      exact Or.inl ⟨a, h.1.symm, rfl, by rw [h.2]⟩

lemma journalFrame_ok {kind : JournalRecordKind} {txn : TxnId} {payload : CanonValue} {lsn : ℕ}
    (h : journalFrame kind txn payload s = (.ok lsn, s')) :
    ∃ j, s.journal.append kind txn payload.encode = .ok (lsn, j) ∧
      s' = { s with journal := j.sync } := by
  rw [journalFrame, Attempt.get_bind_run] at h
  obtain ⟨⟨n, j⟩, s₁, happ, h⟩ := Attempt.bind_eq_ok h
  rw [Attempt.liftM_run, Attempt.end_eq_iff] at happ
  obtain ⟨happ, rfl⟩ := happ
  obtain ⟨_, s₂, hset, h⟩ := Attempt.bind_eq_ok h
  rw [Attempt.set_run, Attempt.end_eq_iff] at hset
  rw [Attempt.pure_run, Attempt.end_eq_iff, Except.ok.injEq] at h
  exact ⟨j, h.1 ▸ happ, h.2 ▸ hset.2.symm⟩

end Durable

section Collected

/-- The store after checkpoints: versions that no one can read any more may be gone. -/
structure Collected (s s' : Store) : Prop where
  frame : s' = { s with
    manifestA := s'.manifestA, manifestB := s'.manifestB, manifest := s'.manifest
    tree := s'.tree, journal := s'.journal }
  agree : Versions.AgreeFrom s.oldestSnapshot s.tree.versions s'.tree.versions
  subset : ∀ k v e, s'.tree.versions k v = some e → s.tree.versions k v = some e

namespace Collected

lemma refl (s : Store) : Collected s s := ⟨rfl, Versions.AgreeFrom.refl _ _, fun _ _ _ h => h⟩

variable (h : Collected s s')
include h

lemma nextSeq : s'.nextSeq = s.nextSeq := by rw [h.frame]
lemma durableCommitSeq : s'.durableCommitSeq = s.durableCommitSeq := by rw [h.frame]
lemma prepared : s'.prepared = s.prepared := by rw [h.frame]
lemma snapshots : s'.snapshots = s.snapshots := by rw [h.frame]
lemma storageEpoch : s'.storageEpoch = s.storageEpoch := by rw [h.frame]
lemma recoveryRequired : s'.recoveryRequired = s.recoveryRequired := by rw [h.frame]

lemma oldestSnapshot : s'.oldestSnapshot = s.oldestSnapshot := by
  rw [Store.oldestSnapshot, Store.oldestSnapshot, h.snapshots, h.durableCommitSeq]

/-- The current state is as it was. -/
lemma newest (k : Bytes) : s'.tree.versions.newest k s'.durableCommitSeq =
    s.tree.versions.newest k s.durableCommitSeq := by
  rw [h.durableCommitSeq]
  exact h.agree k _ (min_le_right _ _)

end Collected

lemma Collected.trans (h : Collected s s') (h' : Collected s' s'') : Collected s s'' where
  frame := by
    rw [h'.frame, h.frame]
  agree := h.agree.trans (h.oldestSnapshot ▸ h'.agree)
  subset k v e he := h.subset k v e (h'.subset k v e he)

lemma collected_journal (s : Store) (j : Journal) : Collected s { s with journal := j } :=
  ⟨rfl, Versions.AgreeFrom.refl _ _, fun _ _ _ h => h⟩

lemma collected_publishManifest (s : Store) (m : Manifest) : Collected s (publishManifest m s) := by
  rw [publishManifest]
  split_ifs
  · exact ⟨rfl, Versions.AgreeFrom.refl _ _, fun _ _ _ h => h⟩
  · exact ⟨rfl, Versions.AgreeFrom.refl _ _, fun _ _ _ h => h⟩

lemma collected_persistWithGc (s : Store) (visited : List ℕ → Bool) : Collected s { s with
    tree := s.tree.persistWithGc (if s.opts.reclaimAtCheckpoint then some s.oldestSnapshot else none)
      visited } where
  frame := rfl
  agree := by
    refine BTree.versions_persistWithGc _ fun g hg => ?_
    split_ifs at hg
    · exact (Option.some.inj hg).ge
    · cases hg
  subset _ _ _ he := BTree.versions_persistWithGc_subset he

/-- A checkpoint. The frames it writes are not part of the state that is read. -/
lemma checkpoint_cases {pool : PoolState} {r : CoreResult CheckpointInfo}
    (h : checkpoint pool s = (r, s')) :
    (∃ info, r = .ok info ∧ Collected s s') ∨
      ((∃ e, r = .error e) ∧ s'.recoveryRequired = true) := by
  rcases durably_cases h with ⟨info, hr, -, h⟩ | hfail
  · refine Or.inl ⟨info, hr, ?_⟩
    rw [Attempt.get_bind_run] at h
    obtain ⟨_, s₁, hbegin, h⟩ := Attempt.bind_eq_ok h
    obtain ⟨j, -, rfl⟩ := journalFrame_ok hbegin
    rw [Attempt.get_bind_run] at h
    obtain ⟨_, s₂, hset, h⟩ := Attempt.bind_eq_ok h
    rw [Attempt.set_run, Attempt.end_eq_iff] at hset
    rw [Attempt.get_bind_run] at h
    obtain ⟨_, s₃, hreclaim, h⟩ := Attempt.bind_eq_ok h
    rw [Attempt.set_run, Attempt.end_eq_iff] at hreclaim
    obtain ⟨_, s₄, hend, h⟩ := Attempt.bind_eq_ok h
    obtain ⟨j', -, rfl⟩ := journalFrame_ok hend
    rw [Attempt.pure_run, Attempt.end_eq_iff] at h
    have hcollected : Collected s s₂ := hset.2 ▸
      ((collected_journal s j.sync).trans (collected_persistWithGc _ pool.visited)).trans
        (collected_publishManifest _ _)
    rw [← h.2, ← hreclaim.2]
    exact hcollected.trans ((collected_journal s₂ _).trans (collected_journal _ _))
  · exact Or.inr hfail

lemma maybeAutoCheckpoint_cases {pool : Option PoolState} {r : CoreResult Unit}
    (h : maybeAutoCheckpoint pool s = (r, s')) :
    (r = .ok () ∧ Collected s s') ∨ ((∃ e, r = .error e) ∧ s'.recoveryRequired = true) := by
  cases pool with
  | none =>
    rw [maybeAutoCheckpoint, Attempt.pure_run, Attempt.end_eq_iff] at h
    exact Or.inl ⟨h.1.symm, h.2 ▸ Collected.refl s⟩
  | some pool =>
    rcases Attempt.bind_cases h with ⟨e, he, hr⟩ | ⟨info, s₁, hinfo, h⟩
    · rcases checkpoint_cases he with ⟨info, hinfo, -⟩ | ⟨-, hfail⟩
      · cases hinfo
      · exact Or.inr ⟨⟨e, hr⟩, hfail⟩
    · rw [Attempt.pure_run, Attempt.end_eq_iff] at h
      rcases checkpoint_cases hinfo with ⟨-, -, hcollected⟩ | ⟨⟨e, he⟩, -⟩
      · exact Or.inl ⟨h.1.symm, h.2 ▸ hcollected⟩
      · cases he

lemma fenced_of_maybeAutoCheckpoint {pool : Option PoolState} {e : CoreError}
    (h : maybeAutoCheckpoint pool s = (.error e, s')) : s'.recoveryRequired = true := by
  rcases maybeAutoCheckpoint_cases h with ⟨hok, -⟩ | ⟨-, hfail⟩
  · cases hok
  · exact hfail

lemma maybeAutoCheckpoint_ok {pool : Option PoolState}
    (h : maybeAutoCheckpoint pool s = (.ok (), s')) : Collected s s' := by
  rcases maybeAutoCheckpoint_cases h with ⟨-, hcollected⟩ | ⟨⟨e, he⟩, -⟩
  · exact hcollected
  · cases he

end Collected

section Extends

/-- The inserts were made at the next sequence, which is the visible one now. -/
structure Extends (cs : List (InsertCall Bytes)) (s s' : Store) : Prop where
  fits : s.nextSeq + 1 < 2 ^ 64
  seqs : ∀ c ∈ cs, c.seq.toNat = s.nextSeq
  recovered : s.recoveryRequired = false
  recoveryRequired : s'.recoveryRequired = false
  nextSeq : s'.nextSeq = s.nextSeq + 1
  durableCommitSeq : s'.durableCommitSeq = s.nextSeq
  snapshots : s'.snapshots = s.snapshots
  storageEpoch : s'.storageEpoch = s.storageEpoch
  versions : ∃ m : Rows,
    Versions.AgreeFrom s.oldestSnapshot s.tree.versions m ∧
    (∀ k v e, m k v = some e → s.tree.versions k v = some e) ∧
    Versions.AgreeFrom s'.oldestSnapshot (InsertCall.versionsAfter cs m) s'.tree.versions ∧
    ∀ k v e, s'.tree.versions k v = some e → InsertCall.versionsAfter cs m k v = some e

lemma publishSeq_ok {seq : ℕ} (h : publishSeq seq s = (.ok (), s')) :
    seq + 1 < 2 ^ 64 ∧ s' = { s with durableCommitSeq := seq, nextSeq := seq + 1 } := by
  obtain ⟨next, s₁, hnext, h⟩ := Attempt.bind_eq_ok h
  rw [Attempt.liftM_run, Attempt.end_eq_iff, checkedSucc] at hnext
  obtain ⟨hnext, rfl⟩ := hnext
  split_ifs at hnext with hfits
  rw [Attempt.get_bind_run, Attempt.set_run, Attempt.end_eq_iff] at h
  exact ⟨hfits, by rw [← h.2, ← Except.ok.inj hnext]⟩

/-- A checkpoint, the frame, the inserts, the new visible sequence, and a checkpoint again. -/
lemma Extends.of_installs {cs : List (InsertCall Bytes)} {s₁ s₂ : Store} {j : Journal}
    {p : FiniteMap TxnId PreparedTxn} {r : Readiness} (h₁ : Collected s s₁)
    (hrec : s₁.recoveryRequired = false) (hins : Installs cs { s₁ with journal := j } s₂)
    (hfits : s₁.nextSeq + 1 < 2 ^ 64) (hseqs : ∀ c ∈ cs, c.seq.toNat = s₁.nextSeq)
    (h₂ : Collected { s₂ with
      durableCommitSeq := s₁.nextSeq, nextSeq := s₁.nextSeq + 1, prepared := p, readiness := r } s') :
    Extends cs s s' where
  fits := h₁.nextSeq ▸ hfits
  seqs := h₁.nextSeq ▸ hseqs
  recovered := h₁.recoveryRequired ▸ hrec
  recoveryRequired := by
    obtain ⟨t, -, rfl⟩ := hins
    exact h₂.recoveryRequired.trans hrec
  nextSeq := h₂.nextSeq.trans (by rw [h₁.nextSeq])
  durableCommitSeq := h₂.durableCommitSeq.trans h₁.nextSeq
  snapshots := by
    obtain ⟨t, -, rfl⟩ := hins
    exact h₂.snapshots.trans h₁.snapshots
  storageEpoch := by
    obtain ⟨t, -, rfl⟩ := hins
    exact h₂.storageEpoch.trans h₁.storageEpoch
  versions := by
    refine ⟨s₁.tree.versions, h₁.agree, h₁.subset, ?_, ?_⟩
    · rw [← hins.versions_eq, h₂.oldestSnapshot]
      exact h₂.agree
    · rw [← hins.versions_eq]
      exact h₂.subset

end Extends

section Congruence
variable {m m' : Rows} {v v' : ℕ} (h : ∀ k, m'.newest k v' = m.newest k v)
include h

lemma revisionAt_congr (w : ProtocolRecordWrite) : revisionAt m' v' w = revisionAt m v w := by
  rw [revisionAt, revisionAt, recordAt_congr (h _)]

lemma batchCalls_congr (batch : CompiledBatch) (seq : ℕ) (o : Option TxnStatusRecord) :
    batchCalls m' v' batch seq o = batchCalls m v batch seq o := by
  have hcall (pm : ProtocolMutation) :
      protocolCall m' v' batch.txnId seq o pm = protocolCall m v batch.txnId seq o pm := by
    cases pm with
    | putRecord w => rw [protocolCall, protocolCall, revisionAt_congr h]
    | setTxnStatus t => rfl
  rw [batchCalls, batchCalls, List.map_congr_left fun pm _ => hcall pm]

end Congruence

section Calls

/-- The call was refused, or a durable step of it failed. -/
def Refused (s s' : Store) : Prop := Collected s s' ∨ s'.recoveryRequired = true

/-- A check that fails refuses the call. -/
lemma check_cases {α β : Type} {y : CoreResult α} {f : α → StoreM β} {r : CoreResult β}
    (h : (liftM y >>= f) s = (r, s')) :
    ((∃ e, r = .error e) ∧ Refused s s') ∨ ∃ a, y = .ok a ∧ f a s = (r, s') := by
  rcases Attempt.liftM_bind_cases h with ⟨e, -, hr, rfl⟩ | hok
  · exact Or.inl ⟨⟨e, hr⟩, Or.inl (Collected.refl _)⟩
  · exact Or.inr hok

lemma refused_of_throw {α : Type} {e : CoreError} {r : CoreResult α} {s₁ : Store}
    (h : (throw e : StoreM α) s₁ = (r, s')) (h₁ : Collected s s₁) :
    (∃ e, r = .error e) ∧ Refused s s' := by
  rw [Attempt.throw_run, Attempt.end_eq_iff] at h
  exact ⟨⟨e, h.1.symm⟩, Or.inl (h.2 ▸ h₁)⟩

lemma autoCheckpoint_bind_cases {α : Type} {pool : Option PoolState} {x : Unit → StoreM α}
    {r : CoreResult α} (h : (maybeAutoCheckpoint pool >>= x) s = (r, s')) :
    ((∃ e, r = .error e) ∧ Refused s s') ∨ ∃ s₁, Collected s s₁ ∧ x () s₁ = (r, s') := by
  rcases Attempt.bind_cases h with ⟨e, he, hr⟩ | ⟨_, s₁, hauto, h⟩
  · exact Or.inl ⟨⟨e, hr⟩, Or.inr (fenced_of_maybeAutoCheckpoint he)⟩
  · exact Or.inr ⟨s₁, maybeAutoCheckpoint_ok hauto, h⟩

/-- A durable step after a checkpoint was refused, or both were made. -/
lemma durably_after_checkpoint_cases {α : Type} {pool : Option PoolState} {x : StoreM α}
    {r : CoreResult α} (h : (maybeAutoCheckpoint pool >>= fun _ => durably x) s = (r, s')) :
    ((∃ e, r = .error e) ∧ Refused s s') ∨ ∃ a s₁, r = .ok a ∧ Collected s s₁ ∧
      s₁.recoveryRequired = false ∧ x s₁ = (.ok a, s') := by
  rcases autoCheckpoint_bind_cases h with hr | ⟨s₁, h₁, h⟩
  · exact Or.inl hr
  rcases durably_cases h with ⟨a, hr, hrec, h⟩ | ⟨herr, hfail⟩
  · exact Or.inr ⟨a, s₁, hr, h₁, hrec, h⟩
  · exact Or.inl ⟨herr, Or.inr hfail⟩

/-- A batch was committed. -/
structure Committed (batch : CompiledBatch) (s s' : Store) : Prop where
  admitted : s.validateAdmission batch = .ok ()
  undecided : s.refuseDecidedTxn batch.txnId = .ok ()
  preconditions : s.validateProtocolPreconditions [] batch.protocolMutations = .ok ()
  unprepared : batch.txnId ∉ s.prepared
  prepared : s'.prepared = s.prepared
  installed : Extends (batchCalls s.tree.versions s.durableCommitSeq batch s.nextSeq none) s s'

theorem commit_cases {pressure : Pressure} {batch : CompiledBatch} {r : CoreResult CommitResult}
    (hlt : s.durableCommitSeq < s.nextSeq) (h : commit pressure batch s = (r, s')) :
    ((∃ e, r = .error e) ∧ Refused s s') ∨ ((∃ res, r = .ok res) ∧ Committed batch s s') := by
  rw [commit, Attempt.get_bind_run] at h
  rcases check_cases h with hr | ⟨_, hadmitted, h⟩
  · exact Or.inl hr
  rcases check_cases h with hr | ⟨_, hundecided, h⟩
  · exact Or.inl hr
  rcases check_cases h with hr | ⟨_, hpre, h⟩
  · exact Or.inl hr
  rcases autoCheckpoint_bind_cases h with hr | ⟨s₁, h₁, h⟩
  · exact Or.inl hr
  rw [Attempt.get_bind_run] at h
  split_ifs at h with hprepared
  · exact Or.inl (refused_of_throw h h₁)
  rcases durably_cases h with ⟨res, hr, hrec, h⟩ | ⟨herr, hfail⟩
  swap
  · exact Or.inl ⟨herr, Or.inr hfail⟩
  obtain ⟨lsn, s₂, hframe, h⟩ := Attempt.bind_eq_ok h
  obtain ⟨j, -, rfl⟩ := journalFrame_ok hframe
  obtain ⟨_, s₃, hinstall, h⟩ := Attempt.bind_eq_ok h
  obtain ⟨_, s₄, hpublish, h⟩ := Attempt.bind_eq_ok h
  obtain ⟨hfits, rfl⟩ := publishSeq_ok hpublish
  rw [Attempt.get_bind_run] at h
  obtain ⟨_, s₅, hafter, h⟩ := Attempt.bind_eq_ok h
  rw [Attempt.pure_run, Attempt.end_eq_iff] at h
  have h₂ := maybeAutoCheckpoint_ok hafter
  rw [h.2] at h₂
  have hins := installBatch_ok (by omega)
    (by rw [h₁.nextSeq]; exact h₁.durableCommitSeq.trans_lt hlt) hinstall
  have hcalls := batchCalls_congr h₁.newest batch s₁.nextSeq none
  have hprep : s'.prepared = s₁.prepared := by
    obtain ⟨t, -, rfl⟩ := hins
    exact h₂.prepared
  refine Or.inr ⟨⟨res, hr⟩, hadmitted, hundecided, hpre, h₁.prepared ▸ hprepared,
    hprep.trans h₁.prepared, ?_⟩
  rw [← h₁.nextSeq, ← hcalls]
  exact Extends.of_installs h₁ hrec hins hfits (seq_batchCalls (by omega)) h₂

def protocolBatchCalls (m : Rows) (visible : ℕ) (writes : List ProtocolRecordWrite) (seq : ℕ) :
    List (InsertCall Bytes) :=
  writes.map fun w => recordCall (Octets.zero 32) w (revisionAt m visible w) seq

lemma seq_protocolBatchCalls {m : Rows} {visible seq : ℕ} {writes : List ProtocolRecordWrite}
    (h : seq < 2 ^ 64) : ∀ c ∈ protocolBatchCalls m visible writes seq, c.seq.toNat = seq := by
  intro c hc
  obtain ⟨w, -, rfl⟩ := List.mem_map.mp hc
  exact UInt64.toNat_ofNat_of_lt' h

/-- A batch of protocol records was committed. -/
structure ProtocolCommitted (batch : ProtocolOnlyBatch) (s s' : Store) : Prop where
  readiness : s.readiness = .ready ∨ s.readiness = .waitingProtocolReconciliation
  validated : validateWrites batch.writes = .ok ()
  preconditions :
    s.validateProtocolPreconditions [] (batch.writes.map ProtocolMutation.putRecord) = .ok ()
  prepared : s'.prepared = s.prepared
  installed : Extends
    (protocolBatchCalls s.tree.versions s.durableCommitSeq batch.writes s.nextSeq) s s'

theorem commitProtocol_cases {pressure : Pressure} {batch : ProtocolOnlyBatch}
    {r : CoreResult CommitResult} (hlt : s.durableCommitSeq < s.nextSeq)
    (h : commitProtocol pressure batch s = (r, s')) :
    ((∃ e, r = .error e) ∧ Refused s s') ∨
      ((∃ res, r = .ok res) ∧ ProtocolCommitted batch s s') := by
  rw [commitProtocol, Attempt.get_bind_run] at h
  rcases check_cases h with hr | ⟨_, -, h⟩
  · exact Or.inl hr
  by_cases hready : s.readiness ≠ .ready ∧ s.readiness ≠ .waitingProtocolReconciliation
  · rw [if_pos hready] at h
    exact Or.inl (refused_of_throw h (Collected.refl _))
  rw [if_neg hready] at h
  rcases check_cases h with hr | ⟨_, hvalid, h⟩
  · exact Or.inl hr
  rcases check_cases h with hr | ⟨_, hpre, h⟩
  · exact Or.inl hr
  rcases durably_after_checkpoint_cases h with hr | ⟨res, s₁, hr, h₁, hrec, h⟩
  · exact Or.inl hr
  rw [Attempt.get_bind_run] at h
  split_ifs at h with hdistinct
  swap
  · rw [Attempt.throw_run, Attempt.end_eq_iff] at h
    cases h.1
  obtain ⟨lsn, s₂, hframe, h⟩ := Attempt.bind_eq_ok h
  obtain ⟨j, -, rfl⟩ := journalFrame_ok hframe
  obtain ⟨_, s₃, hinstall, h⟩ := Attempt.bind_eq_ok h
  obtain ⟨_, s₄, hpublish, h⟩ := Attempt.bind_eq_ok h
  obtain ⟨hfits, rfl⟩ := publishSeq_ok hpublish
  rw [Attempt.get_bind_run] at h
  obtain ⟨_, s₅, hafter, h⟩ := Attempt.bind_eq_ok h
  rw [Attempt.pure_run, Attempt.end_eq_iff] at h
  have h₂ := maybeAutoCheckpoint_ok hafter
  rw [h.2] at h₂
  have hshows : Shows s.tree.versions s.durableCommitSeq { s₁ with journal := j.sync } := h₁.newest
  have hlt₁ : s₁.durableCommitSeq < s₁.nextSeq := by
    rw [h₁.nextSeq]
    exact h₁.durableCommitSeq.trans_lt hlt
  have hins := installProtocolBatch_ok hshows (by omega) hlt₁ hinstall
  have hprep : s'.prepared = s₁.prepared := by
    obtain ⟨t, -, rfl⟩ := hins
    exact h₂.prepared
  refine Or.inr ⟨⟨res, hr⟩, by tauto, hvalid, hpre, hprep.trans h₁.prepared, ?_⟩
  rw [← h₁.nextSeq]
  exact Extends.of_installs h₁ hrec hins hfits (seq_protocolBatchCalls (by omega)) h₂

/-- A batch is prepared: it was already, or its frame has been written. -/
structure Prepared (batch : CompiledBatch) (s s' : Store) : Prop where
  admitted : s.validateAdmission batch = .ok ()
  undecidedOutcome : batch.terminalOutcome = none
  preconditions : s.validateProtocolPreconditions [] batch.protocolMutations = .ok ()
  result : (s' = s ∧ ∃ p, s.prepared[batch.txnId]? = some p ∧
      p.batch.semanticDigest = batch.semanticDigest) ∨
    s.prepared[batch.txnId]? = none ∧ ∃ j lsn, s' = { s with
      journal := j, prepared := s.prepared.insert batch.txnId ⟨batch, lsn⟩ }

theorem prepare_cases {batch : CompiledBatch} {r : CoreResult PreparedToken}
    (h : prepare batch s = (r, s')) :
    ((∃ e, r = .error e) ∧ Refused s s') ∨ ((∃ token, r = .ok token) ∧ Prepared batch s s') := by
  rw [prepare, Attempt.get_bind_run] at h
  rcases check_cases h with hr | ⟨_, hadmitted, h⟩
  · exact Or.inl hr
  split_ifs at h with houtcome
  · exact Or.inl (refused_of_throw h (Collected.refl _))
  rw [Bool.not_eq_true, Option.isSome_eq_false_iff, Option.isNone_iff_eq_none] at houtcome
  rcases check_cases h with hr | ⟨_, hpre, h⟩
  · exact Or.inl hr
  cases hp : s.prepared[batch.txnId]? with
  | some p =>
    simp only [hp] at h
    split_ifs at h with hdigest
    · rw [Attempt.pure_run, Attempt.end_eq_iff] at h
      exact Or.inr ⟨⟨_, h.1.symm⟩, hadmitted, houtcome, hpre, Or.inl ⟨h.2.symm, p, hp, hdigest⟩⟩
    · exact Or.inl (refused_of_throw h (Collected.refl _))
  | none =>
    simp only [hp] at h
    rcases durably_cases h with ⟨token, hr, -, h⟩ | ⟨herr, hfail⟩
    swap
    · exact Or.inl ⟨herr, Or.inr hfail⟩
    obtain ⟨lsn, s₁, hframe, h⟩ := Attempt.bind_eq_ok h
    obtain ⟨j, -, rfl⟩ := journalFrame_ok hframe
    rw [Attempt.get_bind_run] at h
    obtain ⟨_, s₂, hset, h⟩ := Attempt.bind_eq_ok h
    rw [Attempt.set_run, Attempt.end_eq_iff] at hset
    rw [Attempt.pure_run, Attempt.end_eq_iff] at h
    exact Or.inr ⟨⟨token, hr⟩, hadmitted, houtcome, hpre,
      Or.inr ⟨hp, j.sync, lsn, h.2 ▸ hset.2.symm⟩⟩

lemma preparedOf_ok {token : PreparedToken} {p : PreparedTxn} (h : s.preparedOf token = .ok p) :
    s.prepared[token.txnId]? = some p ∧ p.batch.semanticDigest = token.digest := by
  obtain ⟨_, -, h⟩ := CoreResult.bind_eq_ok h
  cases hp : s.prepared[token.txnId]? with
  | some q =>
    simp only [hp] at h
    split_ifs at h with hdigest
    rw [← Except.ok.inj h]
    exact ⟨rfl, not_not.mp hdigest⟩
  | none =>
    simp only [hp] at h
    obtain ⟨status, -, h⟩ := CoreResult.bind_eq_ok h
    split at h <;> cases h

/-- A prepared batch was installed with its decision. -/
structure Decided (token : PreparedToken) (calls : PreparedTxn → List (InsertCall Bytes))
    (s s' : Store) : Prop where
  installed : ∃ p, s.prepared[token.txnId]? = some p ∧ p.batch.semanticDigest = token.digest ∧
    Extends (calls p) s s'
  prepared : s'.prepared = s.prepared.erase token.txnId

lemma reconciled_eq (s : Store) : ∃ r, reconciled s = { s with readiness := r } := by
  rw [reconciled]
  split_ifs
  · exact ⟨.ready, rfl⟩
  · exact ⟨s.readiness, rfl⟩

/-- The decision of a prepared batch: its frame, its inserts, and the visible sequence. -/
lemma Decided.of_installs {token : PreparedToken} {p : PreparedTxn} {s₁ s₂ : Store} {j : Journal}
    {calls : PreparedTxn → List (InsertCall Bytes)} {cs : List (InsertCall Bytes)}
    (hp : s.preparedOf token = .ok p) (hcalls : calls p = cs) (h₁ : Collected s s₁)
    (hrec : s₁.recoveryRequired = false) (hins : Installs cs { s₁ with journal := j } s₂)
    (hfits : s₁.nextSeq + 1 < 2 ^ 64) (hseqs : ∀ c ∈ cs, c.seq.toNat = s₁.nextSeq)
    (h₂ : Collected (reconciled { decided token.txnId s₂ with
      durableCommitSeq := s₁.nextSeq, nextSeq := s₁.nextSeq + 1 }) s') :
    Decided token calls s s' := by
  obtain ⟨readiness, hready⟩ := reconciled_eq
    { decided token.txnId s₂ with durableCommitSeq := s₁.nextSeq, nextSeq := s₁.nextSeq + 1 }
  rw [hready] at h₂
  have hprep : s'.prepared = s₁.prepared.erase token.txnId := by
    obtain ⟨t, -, rfl⟩ := hins
    exact h₂.prepared
  exact ⟨⟨p, (preparedOf_ok hp).1, (preparedOf_ok hp).2,
    hcalls ▸ Extends.of_installs h₁ hrec hins hfits hseqs h₂⟩, by rw [hprep, h₁.prepared]⟩

theorem commitPrepared_cases {pressure : Pressure} {token : PreparedToken}
    {decisionRef : ProtocolRecordRef} {r : CoreResult CommitResult}
    (hlt : s.durableCommitSeq < s.nextSeq)
    (h : commitPrepared pressure token decisionRef s = (r, s')) :
    ((∃ e, r = .error e) ∧ Refused s s') ∨ ((∃ res, r = .ok res) ∧
      Decided token (fun p => batchCalls s.tree.versions s.durableCommitSeq p.batch s.nextSeq
        (some (decisionStatus p.batch decisionRef false))) s s') := by
  rw [commitPrepared, Attempt.get_bind_run] at h
  rcases check_cases h with hr | ⟨p, hp, h⟩
  · exact Or.inl hr
  rcases durably_after_checkpoint_cases h with hr | ⟨res, s₁, hr, h₁, hrec, h⟩
  · exact Or.inl hr
  rw [Attempt.get_bind_run] at h
  obtain ⟨lsn, s₂, hframe, h⟩ := Attempt.bind_eq_ok h
  obtain ⟨j, -, rfl⟩ := journalFrame_ok hframe
  obtain ⟨_, s₃, hinstall, h⟩ := Attempt.bind_eq_ok h
  obtain ⟨_, s₄, hdecided, h⟩ := Attempt.bind_eq_ok h
  rw [Attempt.modify_run, Attempt.end_eq_iff] at hdecided
  obtain ⟨-, rfl⟩ := hdecided
  obtain ⟨_, s₅, hpublish, h⟩ := Attempt.bind_eq_ok h
  obtain ⟨hfits, rfl⟩ := publishSeq_ok hpublish
  rw [Attempt.get_bind_run] at h
  obtain ⟨_, s₆, hreconciled, h⟩ := Attempt.bind_eq_ok h
  rw [Attempt.modify_run, Attempt.end_eq_iff] at hreconciled
  obtain ⟨-, rfl⟩ := hreconciled
  obtain ⟨_, s₇, hafter, h⟩ := Attempt.bind_eq_ok h
  rw [Attempt.pure_run, Attempt.end_eq_iff] at h
  have h₂ := maybeAutoCheckpoint_ok hafter
  rw [h.2] at h₂
  have hins := installBatch_ok (by omega)
    (by rw [h₁.nextSeq]; exact h₁.durableCommitSeq.trans_lt hlt) hinstall
  have hcalls := batchCalls_congr h₁.newest p.batch s₁.nextSeq
    (some (decisionStatus p.batch decisionRef false))
  exact Or.inr ⟨⟨res, hr⟩, Decided.of_installs hp (by rw [← h₁.nextSeq, hcalls]) h₁ hrec hins hfits
    (seq_batchCalls (by omega)) h₂⟩

theorem abortPrepared_cases {pressure : Option PoolState} {token : PreparedToken}
    {decisionRef : ProtocolRecordRef} {r : CoreResult Unit}
    (h : abortPrepared pressure token decisionRef s = (r, s')) :
    ((∃ e, r = .error e) ∧ Refused s s') ∨ ((∃ res, r = .ok res) ∧
      Decided token (fun p => [statusCall token.txnId (decisionStatus p.batch decisionRef true)
        s.nextSeq]) s s') := by
  rw [abortPrepared, Attempt.get_bind_run] at h
  rcases check_cases h with hr | ⟨p, hp, h⟩
  · exact Or.inl hr
  rcases durably_after_checkpoint_cases h with hr | ⟨res, s₁, hr, h₁, hrec, h⟩
  · exact Or.inl hr
  rw [Attempt.get_bind_run] at h
  obtain ⟨lsn, s₂, hframe, h⟩ := Attempt.bind_eq_ok h
  obtain ⟨j, -, rfl⟩ := journalFrame_ok hframe
  obtain ⟨_, s₃, hinstall, h⟩ := Attempt.bind_eq_ok h
  obtain ⟨_, s₄, hdecided, h⟩ := Attempt.bind_eq_ok h
  rw [Attempt.modify_run, Attempt.end_eq_iff] at hdecided
  obtain ⟨-, rfl⟩ := hdecided
  obtain ⟨_, s₅, hpublish, h⟩ := Attempt.bind_eq_ok h
  obtain ⟨hfits, rfl⟩ := publishSeq_ok hpublish
  rw [Attempt.modify_run, Attempt.end_eq_iff] at h
  have hins := insertVersion_ok hinstall
  have h₂ : Collected (reconciled { decided token.txnId s₃ with
      durableCommitSeq := s₁.nextSeq, nextSeq := s₁.nextSeq + 1 }) s' := h.2 ▸ Collected.refl _
  exact Or.inr ⟨⟨res, hr⟩, Decided.of_installs hp (by rw [← h₁.nextSeq]) h₁ hrec hins hfits
    (by simpa using seq_statusCall (by omega)) h₂⟩

end Calls

/-- No version is newer than what is visible. -/
def Current (s : Store) : Prop := ∀ k v e, s.tree.versions k v = some e → v ≤ s.durableCommitSeq

lemma Collected.current (h : Collected s s') (hs : Current s) : Current s' :=
  fun k v e he => h.durableCommitSeq ▸ hs k v e (h.subset k v e he)

section Current
variable {cs : List (InsertCall Bytes)} (h : Extends cs s s')
include h

/-- What is there after a call was there before, or is what one of its inserts wrote. -/
lemma Extends.versions_cases {k : Bytes} {v : ℕ} {e : LeafEntry Bytes}
    (he : s'.tree.versions k v = some e) :
    s.tree.versions k v = some e ∨ (v = s.nextSeq ∧ ∃ c ∈ cs, c.key = k ∧ e = c.entry) := by
  obtain ⟨m, -, hsub, -, hsub'⟩ := h.versions
  have hafter := hsub' k v e he
  by_cases hv : v = s.nextSeq
  · subst hv
    rw [InsertCall.versionsAfter_self h.seqs, Option.or_eq_some_iff] at hafter
    rcases hafter with hold | ⟨-, hnew⟩
    · exact Or.inl (hsub k _ e hold)
    · obtain ⟨c, hc, rfl⟩ := Option.map_eq_some_iff.mp hnew
      exact Or.inr ⟨rfl, c, List.mem_of_find?_eq_some hc, by simpa using List.find?_some hc, rfl⟩
  · refine Or.inl (hsub k v e ?_)
    rwa [InsertCall.versionsAfter_of_ne h.seqs hv] at hafter

variable (hs : Current s) (hlt : s.durableCommitSeq < s.nextSeq)
include hs hlt

lemma Extends.current : Current s' := by
  intro k v e he
  rw [h.durableCommitSeq]
  rcases h.versions_cases he with hold | ⟨rfl, -⟩
  · exact (hs k v e hold).trans hlt.le
  · exact le_rfl

/-- What is read of a key now: the first insert at it, or what was read before. -/
lemma Extends.newest_eq (hnext : s.nextSeq = s.durableCommitSeq + 1) (k : Bytes) :
    s'.tree.versions.newest k s'.durableCommitSeq =
      ((cs.find? fun c => c.key = k).map InsertCall.entry).or
        (s.tree.versions.newest k s.durableCommitSeq) := by
  obtain ⟨m, hm, hsub, hm', -⟩ := h.versions
  have hnone : m k s.nextSeq = none := by
    by_contra hsome
    obtain ⟨e, he⟩ := Option.ne_none_iff_exists'.mp hsome
    exact absurd (hs k _ e (hsub k _ e he)) (not_le.mpr hlt)
  rw [hm' k _ (min_le_right _ _), h.durableCommitSeq,
    InsertCall.newest_versionsAfter h.seqs hnext.symm hnone, hm k _ (min_le_right _ _)]

end Current

end Store

end CarolinaDB.Storage
