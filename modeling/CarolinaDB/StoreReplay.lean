import CarolinaDB.StoreLog

/-!
# Replaying the journal

A frame is redone as the record it holds, if its payload decodes under the limits of the
recovery, and a frame that was redone had such a payload.
-/
namespace CarolinaDB.Storage

open CanonValue

section Normal

open Store

lemma encode_normal {α : Type} [Canonical α] [LawfulCanonical α] {a : α} (h : distinctSets a) :
    Canonical.encode (normal a) = Canonical.encode a :=
  congrArg CanonValue.encode (LawfulCanonical.toCanon_normal a h)

lemma statusCall_congr {st st' : TxnStatusRecord}
    (h : Canonical.encode st' = Canonical.encode st) (txn : TxnId) (seq : ℕ) :
    statusCall txn st' seq = statusCall txn st seq := by
  rw [statusCall, statusCall, h]

/-- A batch that was read back makes the inserts of the batch that was written. -/
lemma batchCalls_normal {batch : CompiledBatch} (h : batch.distinctSets) (m : Rows) (visible seq : ℕ)
    {o o' : Option TxnStatusRecord}
    (ho : o'.map Canonical.encode = o.map Canonical.encode) :
    batchCalls m visible batch.normal seq o' = batchCalls m visible batch seq o := by
  simp only [CompiledBatch.distinctSets, Bool.and_eq_true] at h
  have hall : ∀ pm ∈ batch.protocolMutations, distinctSets pm :=
    List.all_eq_true.mp (show batch.protocolMutations.all distinctSets from h.2.1)
  have hnormal : batch.normal.protocolMutations =
      batch.protocolMutations.map ProtocolMutation.normal := rfl
  have hstatus (t : TxnStatusTransition) (ht : t.next.distinctSets) :
      Canonical.encode (statusWritten batch.txnId o' t.normal) =
        Canonical.encode (statusWritten batch.txnId o t) := by
    have hnext : Canonical.encode t.next.normal = Canonical.encode t.next := encode_normal ht
    rw [statusWritten, statusWritten]
    change Canonical.encode (if t.txnId = batch.txnId then o'.getD t.next.normal
      else t.next.normal) = _
    split_ifs
    · cases o with
      | none =>
        rw [Option.map_none, Option.map_eq_none_iff] at ho
        rw [ho]
        exact hnext
      | some st =>
        obtain ⟨st', rfl, hst⟩ := Option.map_eq_some_iff.mp ho
        exact hst
    · exact hnext
  have hcall : ∀ pm ∈ batch.protocolMutations,
      protocolCall m visible batch.txnId seq o' pm.normal =
        protocolCall m visible batch.txnId seq o pm := by
    intro pm hpm
    cases pm with
    | putRecord w => rfl
    | setTxnStatus t => exact statusCall_congr (hstatus t (hall _ hpm)) _ _
  have hany : batch.normal.protocolMutations.any (isStatusOf batch.txnId) =
      batch.protocolMutations.any (isStatusOf batch.txnId) := by
    rw [hnormal, List.any_map]
    refine List.any_congr rfl fun pm => ?_
    cases pm <;> rfl
  have hextra : extraStatus batch.normal seq o' = extraStatus batch seq o := by
    cases o with
    | none =>
      rw [Option.map_none, Option.map_eq_none_iff] at ho
      rw [ho]
      rfl
    | some st =>
      obtain ⟨st', rfl, hst⟩ := Option.map_eq_some_iff.mp ho
      change (if batch.normal.protocolMutations.any (isStatusOf batch.txnId) then []
        else [statusCall batch.txnId st' seq]) = _
      rw [hany, statusCall_congr hst]
      rfl
  rw [batchCalls, batchCalls, hextra, hnormal, List.map_map]
  exact congrArg₂ _ rfl (congrArg₂ _ (List.map_congr_left hcall) rfl)

end Normal

namespace LogRecord

open Store

/-- What the decoder of the payload checks. -/
def soundPayload : LogRecord → Bool
  | commit batch _ | prepare batch => sound batch
  | _ => true

/-- The payload is read back: it is within the limits of the decoder and passes its checks. -/
structure Decodes (r : LogRecord) : Prop where
  length : r.payload.encode.length ≤ Limits.v1.maxPayloadBytes
  fits : r.payload.fits Limits.v1 0
  sound : r.soundPayload

lemma sorted_uint (x : UInt64) : (uint x).sorted := ExactCanonical.sorted_toCanon x

lemma sorted_payload (r : LogRecord) : r.payload.sorted := by
  cases r <;> exact sorted_build (by simp [sorted, sorted_uint, LawfulCanonical.sorted_toCanon])

/-- No set in the payload holds an element twice. -/
def distinct : LogRecord → Bool
  | commit batch _ | prepare batch => distinctSets batch
  | protocol batch _ => distinctSets batch
  | _ => true

/-- The sequence, or the epoch, of a record has a number. -/
def numbered : LogRecord → Prop
  | commit _ seq | protocol _ seq | decision _ _ _ seq => seq < 2 ^ 64
  | epoch next => next < 2 ^ 64
  | _ => True

/-- Redo a record. -/
def redo (checkpointLsn lsn : ℕ) : LogRecord → StoreM Unit
  | commit batch seq => do
    installBatch batch.normal seq none
    modify (raiseSeq seq)
  | protocol batch seq => do
    installProtocolBatch seq batch.writes
    modify (raiseSeq seq)
  | prepare batch => do
    let s ← get
    if checkpointLsn < lsn then
      set { s with prepared := s.prepared.insert batch.txnId ⟨batch.normal, lsn⟩ }
    else if ← s.hasDecision batch.txnId then pure ()
    else set { s with prepared := s.prepared.insert batch.txnId ⟨batch.normal, lsn⟩ }
  | decision aborted txn ref seq => do
    let s ← get
    match s.prepared[txn]? with
    | some p =>
      modify (decided txn)
      if aborted then insertVersion (statusCall txn (decisionStatus p.batch ref true) seq)
      else installBatch p.batch seq (some (decisionStatus p.batch ref false))
    | none => pure ()
    modify (raiseSeq seq)
  | epoch next => do
    let s ← get
    if next < s.storageEpoch then throw (corrupt "storage epoch change frame goes backwards")
    else set { s with storageEpoch := next }
  | checkpointBegin _ _ | checkpointEnd _ => pure ()

/-- Frames the checkpoint covers are skipped, except those of prepared batches. -/
def Skipped (checkpointLsn lsn : ℕ) (r : LogRecord) : Prop :=
  lsn ≤ checkpointLsn ∧ r.kind ≠ .prepareBatch

variable {r : LogRecord} {checkpointLsn lsn : ℕ} {s s' : Store}

/-- A frame that is not skipped is redone as its record, if its payload is read back. -/
lemma replayFrame_of_decodes (h : ¬ r.Skipped checkpointLsn lsn) (hlsn : lsn < 2 ^ 64)
    (hd : r.Decodes) (hdistinct : r.distinct) (hnum : r.numbered) :
    replayFrame checkpointLsn (r.frame lsn) s = r.redo checkpointLsn lsn s := by
  have hframe : (r.frame lsn).lsn.toNat = lsn := UInt64.toNat_ofNat_of_lt' hlsn
  have hdecode : CanonValue.decode (r.frame lsn).payload Limits.v1 = .ok r.payload :=
    (decode_encode r.sorted_payload _ _).mpr ⟨hd.length, hd.fits, rfl⟩
  have hskip : ¬ ((r.frame lsn).lsn.toNat ≤ checkpointLsn ∧ (r.frame lsn).kind ≠ .prepareBatch) := by
    rw [hframe]
    exact h
  rw [replayFrame, if_neg hskip, hdecode, Attempt.liftM_ok_bind_run]
  cases r with
  | commit batch seq =>
    have hseq : ((commitPayload batch seq).fieldAs "seq" : CoreResult UInt64) =
        .ok (UInt64.ofNat seq) := by
      rw [commitPayload, fieldAs_build]
      exact ExactCanonical.fromCanon_toCanon (UInt64.ofNat seq)
    have hkind : ((commitPayload batch seq).fieldAs "kind" : CoreResult String) =
        .ok "commit_batch" := by
      rw [commitPayload, fieldAs_build]
      exact ExactCanonical.fromCanon_toCanon "commit_batch"
    have hbatch : ((commitPayload batch seq).fieldAs "batch" : CoreResult CompiledBatch) =
        .ok batch.normal := by
      rw [commitPayload, fieldAs_build]
      exact fromCanon_eq_ok_normal hdistinct hd.sound
    simp only [frame, kind, payload, hseq, hkind, hbatch, Attempt.liftM_ok_bind_run, if_true]
    rw [UInt64.toNat_ofNat_of_lt' hnum]
    rfl
  | protocol batch seq =>
    have hseq : ((protocolPayload batch seq).fieldAs "seq" : CoreResult UInt64) =
        .ok (UInt64.ofNat seq) := by
      rw [protocolPayload, fieldAs_build]
      exact ExactCanonical.fromCanon_toCanon (UInt64.ofNat seq)
    have hkind : ((protocolPayload batch seq).fieldAs "kind" : CoreResult String) =
        .ok "commit_protocol" := by
      rw [protocolPayload, fieldAs_build]
      exact ExactCanonical.fromCanon_toCanon "commit_protocol"
    have hbatch : ((protocolPayload batch seq).fieldAs "batch" : CoreResult ProtocolOnlyBatch) =
        .ok batch.normal := by
      rw [protocolPayload, fieldAs_build]
      exact fromCanon_eq_ok_normal hdistinct rfl
    have hother : ¬ "commit_protocol" = "commit_batch" := by decide
    simp only [frame, kind, payload, hseq, hkind, hbatch, Attempt.liftM_ok_bind_run, hother, if_false]
    rw [UInt64.toNat_ofNat_of_lt' hnum]
    rfl
  | prepare batch =>
    have hbatch : ((preparePayload batch).fieldAs "batch" : CoreResult CompiledBatch) =
        .ok batch.normal := by
      rw [preparePayload, fieldAs_build]
      exact fromCanon_eq_ok_normal hdistinct hd.sound
    have hkind : (frame lsn (prepare batch)).kind = .prepareBatch := rfl
    simp only [hkind, hframe, payload, hbatch, Attempt.liftM_ok_bind_run]
    rfl
  | decision aborted txn ref seq =>
    have hseq (kind : String) : ((decisionPayload kind ref txn seq).fieldAs "seq" :
        CoreResult UInt64) = .ok (UInt64.ofNat seq) := by
      rw [decisionPayload, fieldAs_build]
      exact ExactCanonical.fromCanon_toCanon (UInt64.ofNat seq)
    have htxn (kind : String) : ((decisionPayload kind ref txn seq).fieldAs "txn_id" :
        CoreResult TxnId) = .ok txn := by
      rw [decisionPayload, fieldAs_build]
      exact ExactCanonical.fromCanon_toCanon txn
    have href (kind : String) : ((decisionPayload kind ref txn seq).fieldAs "decision_ref" :
        CoreResult ProtocolRecordRef) = .ok ref := by
      rw [decisionPayload, fieldAs_build]
      exact ExactCanonical.fromCanon_toCanon ref
    cases aborted with
    | true =>
      simp only [frame, kind, payload, if_true, htxn, hseq, href, Attempt.liftM_ok_bind_run]
      rw [UInt64.toNat_ofNat_of_lt' hnum]
      rfl
    | false =>
      simp only [frame, kind, payload, Bool.false_eq_true, if_false, htxn, hseq, href,
        Attempt.liftM_ok_bind_run]
      rw [UInt64.toNat_ofNat_of_lt' hnum]
      rfl
  | epoch next =>
    have hepoch : ((payload (.epoch next)).fieldAs "epoch" : CoreResult UInt64) =
        .ok (UInt64.ofNat next) := by
      rw [payload, fieldAs_build]
      exact ExactCanonical.fromCanon_toCanon (UInt64.ofNat next)
    simp only [frame, kind, hepoch, Attempt.liftM_ok_bind_run]
    rw [UInt64.toNat_ofNat_of_lt' hnum]
    rfl
  | checkpointBegin a b => rfl
  | checkpointEnd a => rfl

/-- A frame that is redone had a payload that is read back. -/
lemma decodes_of_replayFrame (h : ¬ r.Skipped checkpointLsn lsn) (hlsn : lsn < 2 ^ 64)
    (hdistinct : r.distinct) (hrun : replayFrame checkpointLsn (r.frame lsn) s = (.ok (), s')) :
    r.Decodes := by
  have hframe : (r.frame lsn).lsn.toNat = lsn := UInt64.toNat_ofNat_of_lt' hlsn
  have hskip : ¬ ((r.frame lsn).lsn.toNat ≤ checkpointLsn ∧ (r.frame lsn).kind ≠ .prepareBatch) := by
    rw [hframe]
    exact h
  rw [replayFrame, if_neg hskip] at hrun
  rcases Attempt.liftM_bind_cases hrun with ⟨e, -, he, -⟩ | ⟨v, hv, hrun⟩
  · cases he
  obtain ⟨hlen, hfits, rfl⟩ := (decode_encode r.sorted_payload _ _).mp hv
  refine ⟨hlen, hfits, ?_⟩
  cases r with
  | commit batch seq =>
    have hkind : ((commitPayload batch seq).fieldAs "kind" : CoreResult String) =
        .ok "commit_batch" := by
      rw [commitPayload, fieldAs_build]
      exact ExactCanonical.fromCanon_toCanon "commit_batch"
    simp only [frame, kind, payload] at hrun
    rcases Attempt.liftM_bind_cases hrun with ⟨e, -, he, -⟩ | ⟨q, -, hrun⟩
    · cases he
    rw [hkind, Attempt.liftM_ok_bind_run, if_pos rfl] at hrun
    rcases Attempt.liftM_bind_cases hrun with ⟨e, -, he, -⟩ | ⟨b, hb, -⟩
    · cases he
    rw [commitPayload, fieldAs_build] at hb
    exact ((LawfulCanonical.fromCanon_toCanon batch hdistinct b).mp hb).1
  | prepare batch =>
    simp only [frame, kind, payload] at hrun
    rcases Attempt.liftM_bind_cases hrun with ⟨e, -, he, -⟩ | ⟨b, hb, -⟩
    · cases he
    rw [preparePayload, fieldAs_build] at hb
    exact ((LawfulCanonical.fromCanon_toCanon batch hdistinct b).mp hb).1
  | protocol | decision | epoch | checkpointBegin | checkpointEnd => rfl

end LogRecord

end CarolinaDB.Storage
