import CarolinaDB.BTreeFailure
import CarolinaDB.StoreReplay

/-!
# What the checks of a call cover

A call is checked, journaled and installed. Behind the checks, the installation and the
replay of the frame fail only at a page split if every insert is within the caps. The
checks ask this of the rows of a batch; its records and statuses, and the limits of the
decoder that replay uses, are not checked.
-/
namespace CarolinaDB.Storage

open CanonValue

namespace Store

variable {s s' : Store}

section Inserts

/-- Inserts that a tree has room for: all are within the caps, and the first one of an empty tree
fits a page. -/
structure Storable (t : BTree Bytes) (cs : List (InsertCall Bytes)) : Prop where
  capped : ∀ c ∈ cs, c.key.length ≤ maxKeyLen ∧ c.value.length ≤ maxValueLen
  first : t.entries = [] → ∀ c ∈ cs.head?, fitPage [c.entry.encodedLen]

lemma storable_cons_iff {t t' : BTree Bytes} {c : InsertCall Bytes} {cs : List (InsertCall Bytes)}
    (hne : t'.entries ≠ []) : Storable t (c :: cs) ↔ c.Storable t ∧ Storable t' cs := by
  constructor
  · intro h
    have hc := h.capped c (List.mem_cons_self ..)
    exact ⟨⟨hc.1, hc.2, fun hnil => h.first hnil c rfl⟩,
      fun d hd => h.capped d (List.mem_cons_of_mem c hd), fun hnil => absurd hnil hne⟩
  · rintro ⟨hc, hcs⟩
    refine ⟨fun d hd => ?_, fun hnil d hd => ?_⟩
    · rcases List.mem_cons.mp hd with rfl | hd
      · exact ⟨hc.key, hc.value⟩
      · exact hcs.capped d hd
    · obtain rfl := Option.some.inj hd
      exact hc.first hnil

lemma insertVersion_within (c : InsertCall Bytes) (hheight : s.tree.height < 64) :
    (insertVersion c).Within s
      (fun _ s' => c.Storable s.tree ∧ Installs [c] s s' ∧ s'.tree.entries ≠ [])
      fun err => c.Storable s.tree → err ∈ splitLimits := by
  rcases hrun : c.run s.tree with err | ⟨b, t⟩
  · have hins : insertVersion c s = (.error err, s) := by simp [insertVersion, hrun]
    refine ⟨fun a s' h => ?_, fun e s' h hc => ?_⟩
    · rw [hins, Attempt.end_eq_iff] at h
      cases h.1
    · rw [hins, Attempt.end_eq_iff, Except.error.injEq] at h
      exact h.1 ▸ hc.run_error hheight hrun
  · have hins : insertVersion c s = (.ok (), { s with tree := t }) := by simp [insertVersion, hrun]
    obtain ⟨hc, hne⟩ := InsertCall.storable_of_run hrun
    exact Attempt.Within.of_ends ⟨(), _, hins, hc, insertVersion_ok hins, hne⟩

/-- Inserts within the caps fail only at a page split, and no others succeed. -/
theorem insertAll_within (cs : List (InsertCall Bytes))
    (hroom : s.tree.entries.length + cs.length < 2 ^ 64) :
    (insertAll cs).Within s (fun _ s' => Storable s.tree cs ∧ Installs cs s s')
      fun err => Storable s.tree cs → err ∈ splitLimits := by
  induction cs generalizing s with
  | nil =>
    refine Attempt.Within.of_ends (Attempt.Ends.pure ⟨⟨?_, ?_⟩, Installs.nil s⟩)
    · simp
    · simp
  | cons c cs ih =>
    rw [List.length_cons] at hroom
    have hfirst := insertVersion_within c (BTree.height_lt (show s.tree.entries.length < 2 ^ 64 by omega))
    have hhead (h : Storable s.tree (c :: cs)) : c.Storable s.tree :=
      ⟨(h.capped c (List.mem_cons_self ..)).1, (h.capped c (List.mem_cons_self ..)).2,
        fun hnil => h.first hnil c rfl⟩
    refine Attempt.Within.bind (hfirst.mono (fun _ _ h => h) fun err h hst => h (hhead hst)) ?_
    rintro _ s₁ ⟨hc, hins, hne⟩
    have hcount := entries_of_installs hins
    rw [List.length_singleton] at hcount
    refine (ih (by omega)).mono (fun _ s₂ h => ?_) fun err h hst => ?_
    · exact ⟨(storable_cons_iff hne).mpr ⟨hc, h.1⟩, hins.append h.2⟩
    · exact h ((storable_cons_iff hne).mp hst).2

end Inserts

section Journaled
variable {s₁ : Store}

lemma Checked.storable_iff {cs : List (InsertCall Bytes)} (h : Checked s s₁) :
    Storable s₁.tree cs ↔ Storable s.tree cs :=
  ⟨fun hs => ⟨hs.capped, fun hnil => hs.first (h.empty.mpr hnil)⟩,
    fun hs => ⟨hs.capped, fun hnil => hs.first (h.empty.mp hnil)⟩⟩

lemma durably_congr {α : Type} {x y : StoreM α} (h : x s = y s) : durably x s = durably y s := by
  simp only [durably, h]

lemma durably_within {α : Type} {x : StoreM α} {Q : α → Store → Prop} {E : CoreError → Prop}
    (hrec : s.recoveryRequired = false) (h : x.Within s Q E) : (durably x).Within s Q E := by
  have hready := requireRecovered_eq_ok.mpr hrec
  rcases hx : x s with ⟨e | a, s₁⟩
  · have hrun : durably x s = (.error e, { s₁ with recoveryRequired := true }) := by
      simp only [durably, hready, hx]
    refine ⟨fun b s' hb => ?_, fun e' s' he => ?_⟩
    · rw [hrun, Attempt.end_eq_iff] at hb
      cases hb.1
    · rw [hrun, Attempt.end_eq_iff, Except.error.injEq] at he
      exact he.1 ▸ h.2 e s₁ hx
  · exact Attempt.Within.of_ends (durably_ends hrec ⟨a, s₁, hx, h.1 a s₁ hx⟩)

/-- What follows the checks: the frame, the inserts, the new visible sequence and a checkpoint. -/
lemma journaled_within {α : Type} {kind : JournalRecordKind} {txn : TxnId} {payload : CanonValue}
    {install : StoreM Unit} {cs : List (InsertCall Bytes)} {seq : ℕ} {after : Option PoolState}
    {result : ℕ → Store → α} (hrec : s.recoveryRequired = false)
    (hlen : payload.encode.length ≤ maxJournalPayload) (hlsn : s.journal.nextLsn + 3 < 2 ^ 64)
    (hseq : seq + 1 < 2 ^ 64) (hroom : s.tree.entries.length + cs.length < 2 ^ 64)
    (hinstall : ∀ j, install { s with journal := j } = insertAll cs { s with journal := j }) :
    (durably do
      let lsn ← journalFrame kind txn payload
      install
      publishSeq seq
      let s ← get
      maybeAutoCheckpoint after
      pure (result lsn s)).Within s (fun _ _ => Storable s.tree cs)
        fun err => Storable s.tree cs → err ∈ splitLimits := by
  refine durably_within hrec ?_
  refine (Attempt.Within.of_ends (journalFrame_ends hlen (by omega))).bind ?_
  rintro lsn _ ⟨j, rfl, hj⟩
  have hins : install.Within { s with journal := j }
      (fun _ s' => Storable s.tree cs ∧ Installs cs { s with journal := j } s')
      fun err => Storable s.tree cs → err ∈ splitLimits := by
    have hall := @insertAll_within { s with journal := j } cs hroom
    rw [Attempt.Within, hinstall]
    exact hall
  refine hins.bind ?_
  rintro _ s₂ ⟨hst, t, -, rfl⟩
  refine Attempt.Within.of_ends ((publishSeq_ends hseq).bind ?_)
  rintro _ _ rfl
  refine Attempt.Ends.get_bind ((maybeAutoCheckpoint_ends ?_ ?_).bind fun _ _ _ =>
    Attempt.Ends.pure hst)
  · exact hrec
  · change j.nextLsn + 2 < 2 ^ 64
    omega

end Journaled

end Store

/-- The calls that check a batch, journal it and install it. -/
inductive Admission
  | commit (pressure : Pressure) (batch : CompiledBatch)
  | commitProtocol (pressure : Pressure) (batch : ProtocolOnlyBatch)
  | prepare (batch : CompiledBatch)

namespace Admission

open Store

def run : Admission → StoreM Unit
  | commit pressure batch => do
    let _ ← Store.commit pressure batch
    pure ()
  | commitProtocol pressure batch => do
    let _ ← Store.commitProtocol pressure batch
    pure ()
  | prepare batch => do
    let _ ← Store.prepare batch
    pure ()

/-- The checks a call starts with. -/
def Validated (s : Store) : Admission → Prop
  | commit _ batch => s.validateAdmission batch = .ok () ∧
      s.refuseDecidedTxn batch.txnId = .ok () ∧
      s.validateProtocolPreconditions [] batch.protocolMutations = .ok ()
  | commitProtocol _ batch => s.requireRecovered = .ok () ∧
      (s.readiness = .ready ∨ s.readiness = .waitingProtocolReconciliation) ∧
      validateWrites batch.writes = .ok () ∧
      s.validateProtocolPreconditions [] (batch.writes.map ProtocolMutation.putRecord) = .ok ()
  | prepare batch => s.validateAdmission batch = .ok () ∧ batch.terminalOutcome = none ∧
      s.validateProtocolPreconditions [] batch.protocolMutations = .ok ()

/-- The checkpoint a call makes behind these checks. -/
def due : Admission → Option PoolState
  | commit pressure _ | commitProtocol pressure _ => pressure.before
  | prepare _ => none

/-- The transaction that must not be prepared already. -/
def txn : Admission → Option TxnId
  | commit _ batch | prepare batch => some batch.txnId
  | commitProtocol _ _ => none

/-- What the frame of the call holds. -/
def record (seq : ℕ) : Admission → LogRecord
  | commit _ batch => .commit batch seq
  | commitProtocol _ batch => .protocol batch seq
  | prepare batch => .prepare batch

/-- The call passes its checks, and its frame is appended. -/
structure Journals (s : Store) (c : Admission) : Prop where
  validated : c.Validated s
  unprepared : ∀ txn ∈ c.txn, txn ∉ s.prepared
  distinct : (c.record s.nextSeq).distinct
  length : (c.record s.nextSeq).payload.encode.length ≤ maxJournalPayload

/-- The records the call writes when it is installed. -/
def writes : Admission → List ProtocolRecordWrite
  | commit _ batch => batch.protocolMutations.filterMap fun
    | .putRecord w => some w
    | .setTxnStatus _ => none
  | commitProtocol _ batch => batch.writes
  | prepare _ => []

/-- The inserts of the call, over the rows a store shows. -/
def calls (s : Store) (seq : ℕ) : Admission → List (InsertCall Bytes)
  | commit _ batch => batchCalls s.tree.versions s.durableCommitSeq batch seq none
  | commitProtocol _ batch =>
    protocolBatchCalls s.tree.versions s.durableCommitSeq batch.writes seq
  | prepare _ => []

/-- A store on which the call is made: nothing is newer than what is visible, and no counter is
exhausted. -/
structure Steady (s : Store) (c : Admission) : Prop where
  current : Current s
  lt : s.durableCommitSeq < s.nextSeq
  room : Room (c.calls s s.nextSeq).length s
  revisions : ∀ w ∈ c.writes, ∀ r, w.expected = .exact r → r.toNat + 1 < 2 ^ 64

variable {c : Admission} {s s₁ s' : Store}

/-- A record whose precondition was checked has been read. -/
lemma revisable_of_preconditions {seen : List LogicalKey} {pms : List ProtocolMutation}
    (h : s.validateProtocolPreconditions seen pms = .ok ()) {w : ProtocolRecordWrite}
    (hw : .putRecord w ∈ pms) (hrev : ∀ r, w.expected = .exact r → r.toNat + 1 < 2 ^ 64) :
    Revisable s.tree.versions s.durableCommitSeq w := by
  induction pms generalizing seen with
  | nil => cases hw
  | cons pm pms ih =>
    cases pm with
    | putRecord v =>
      rw [validateProtocolPreconditions] at h
      split_ifs at h
      obtain ⟨r, hr, h⟩ := CoreResult.bind_eq_ok h
      obtain ⟨_, -, h⟩ := CoreResult.bind_eq_ok h
      rcases List.mem_cons.mp hw with hv | hw
      · obtain rfl := ProtocolMutation.putRecord.inj hv
        rw [Revisable]
        cases hexp : w.expected with
        | absent => exact ⟨r, currentRecord_sound hr⟩
        | exact r => exact hrev r hexp
      · exact ih h hw
    | setTxnStatus t =>
      obtain ⟨st, -, h⟩ := CoreResult.bind_eq_ok h
      obtain ⟨_, -, h⟩ := CoreResult.bind_eq_ok h
      rcases List.mem_cons.mp hw with hv | hw
      · cases hv
      · exact ih h hw

lemma Validated.recovered (h : c.Validated s) : s.recoveryRequired = false := by
  cases c with
  | commit pressure batch =>
    obtain ⟨_, hrec, -⟩ := CoreResult.bind_eq_ok h.1
    exact requireRecovered_eq_ok.mp hrec
  | commitProtocol pressure batch => exact requireRecovered_eq_ok.mp h.1
  | prepare batch =>
    obtain ⟨_, hrec, -⟩ := CoreResult.bind_eq_ok h.1
    exact requireRecovered_eq_ok.mp hrec

/-- A call behind its checks fails only at a page split if its inserts are within the caps, and
succeeds only then. -/
lemma run_within (h : Steady s c) (hj : Journals s c) :
    c.run.Within s (fun _ _ => Storable s.tree (c.calls s s.nextSeq))
      fun err => Storable s.tree (c.calls s s.nextSeq) → err ∈ splitLimits := by
  have hlsns := h.room.lsns
  have hseqs := h.room.seqs
  have hroom := h.room.entries
  have hrec := hj.validated.recovered
  cases c with
  | commit pressure batch =>
    obtain ⟨hadmitted, hundecided, hpre⟩ := hj.validated
    refine Attempt.Within.bind (R := fun _ _ => Storable s.tree _) ?_ fun _ _ hst =>
      Attempt.Within.of_ends (Attempt.Ends.pure hst)
    refine Attempt.Within.get_bind (Attempt.Within.liftM_bind hadmitted (Attempt.Within.liftM_bind
      hundecided (Attempt.Within.liftM_bind hpre ?_)))
    refine (Attempt.Within.of_ends (maybeAutoCheckpoint_ends hrec (by omega))).bind ?_
    rintro _ s₁ ⟨h₁, -⟩
    have hnext := h₁.lsns
    have hentries := h₁.entries
    have hseq := h₁.collected.nextSeq
    refine Attempt.Within.get_bind ?_
    rw [if_neg (by rw [h₁.collected.prepared]; exact hj.unprepared _ rfl), ← h₁.storable_iff]
    refine journaled_within (h₁.collected.recoveryRequired.trans hrec) (hseq ▸ hj.length) (by omega)
      (by omega) (by omega) (h₁.installBatch_eq h.current h.lt h.room fun w hw => ?_)
    exact revisable_of_preconditions hpre hw (h.revisions w (List.mem_filterMap.mpr ⟨_, hw, rfl⟩))
  | commitProtocol pressure batch =>
    obtain ⟨hready, hvalid, hpre⟩ := hj.validated.2
    refine Attempt.Within.bind (R := fun _ _ => Storable s.tree _) ?_ fun _ _ hst =>
      Attempt.Within.of_ends (Attempt.Ends.pure hst)
    refine Attempt.Within.get_bind (Attempt.Within.liftM_bind hj.validated.1 ?_)
    rw [if_neg (by rcases hready with h | h <;> simp [h])]
    refine Attempt.Within.liftM_bind hvalid (Attempt.Within.liftM_bind hpre ?_)
    refine (Attempt.Within.of_ends (maybeAutoCheckpoint_ends hrec (by omega))).bind ?_
    rintro _ s₁ ⟨h₁, -⟩
    have hnext := h₁.lsns
    have hentries := h₁.entries
    have hseq := h₁.collected.nextSeq
    have hdistinct : distinctSets batch := hj.distinct
    refine Attempt.Within.congr (durably_congr (by
      rw [Attempt.get_bind_run, if_neg (not_not.mpr hdistinct)])) ?_
    rw [← h₁.storable_iff]
    refine journaled_within (h₁.collected.recoveryRequired.trans hrec) (hseq ▸ hj.length) (by omega)
      (by omega) (by omega) fun j => ?_
    have hread := h₁.reading h.current (n := 0 + _) (by simpa using h.room.entries) j
    rw [hseq] at hread ⊢
    rw [calls, protocolBatchCalls, List.length_map] at hread
    refine hread.installProtocolBatch_eq (by omega) (fun w hw => ?_) fun x hx => Or.inl ?_
    · exact revisable_of_preconditions hpre (List.mem_map_of_mem hw) (h.revisions w hw)
    · change s₁.durableCommitSeq < _
      rw [seq_protocolBatchCalls (by omega) x hx, h₁.collected.durableCommitSeq]
      exact h.lt
  | prepare batch =>
    obtain ⟨hadmitted, houtcome, hpre⟩ := hj.validated
    have hnone : s.prepared[batch.txnId]? = none :=
      Std.ExtTreeMap.getElem?_eq_none (hj.unprepared _ rfl)
    refine Attempt.Within.of_ends (Attempt.Ends.bind (R := fun _ _ => True) ?_ fun _ _ _ =>
      Attempt.Ends.pure ⟨by simp [calls], by simp [calls]⟩)
    refine Attempt.Ends.get_bind (Attempt.Ends.liftM_bind hadmitted ?_)
    rw [houtcome, if_neg (by simp)]
    refine Attempt.Ends.liftM_bind hpre ?_
    rw [hnone]
    refine durably_ends hrec ((journalFrame_ends hj.length (by omega)).bind fun _ _ _ => ?_)
    exact Attempt.Ends.get_bind (Attempt.Ends.set_bind (Attempt.Ends.pure trivial))

section Refused

/-- A call whose checks fail changes nothing. -/
lemma leaves_of_not_validated (h : ¬ c.Validated s) : c.run.Leaves s (· = s) := by
  cases c with
  | commit pressure batch =>
    refine Attempt.Leaves.seq ?_ fun _ _ hs => Attempt.Leaves.pure hs
    refine Attempt.Leaves.get_bind (Attempt.Leaves.liftM_bind rfl fun _ hadmitted => ?_)
    refine Attempt.Leaves.liftM_bind rfl fun _ hundecided => ?_
    exact Attempt.Leaves.liftM_bind rfl fun _ hpre => absurd ⟨hadmitted, hundecided, hpre⟩ h
  | commitProtocol pressure batch =>
    refine Attempt.Leaves.seq ?_ fun _ _ hs => Attempt.Leaves.pure hs
    refine Attempt.Leaves.get_bind (Attempt.Leaves.liftM_bind rfl fun _ hrec => ?_)
    by_cases hready : s.readiness ≠ .ready ∧ s.readiness ≠ .waitingProtocolReconciliation
    · rw [if_pos hready]
      exact Attempt.Leaves.throw rfl
    rw [if_neg hready]
    refine Attempt.Leaves.liftM_bind rfl fun _ hvalid => ?_
    refine Attempt.Leaves.liftM_bind rfl fun _ hpre => absurd ⟨hrec, ?_, hvalid, hpre⟩ h
    by_contra hother
    exact hready (not_or.mp hother)
  | prepare batch =>
    refine Attempt.Leaves.seq ?_ fun _ _ hs => Attempt.Leaves.pure hs
    refine Attempt.Leaves.get_bind (Attempt.Leaves.liftM_bind rfl fun _ hadmitted => ?_)
    split_ifs with houtcome
    · exact Attempt.Leaves.throw rfl
    rw [Bool.not_eq_true, Option.isSome_eq_false_iff, Option.isNone_iff_eq_none] at houtcome
    exact Attempt.Leaves.liftM_bind rfl fun _ hpre => absurd ⟨hadmitted, houtcome, hpre⟩ h

/-- Nothing but the fence is changed. -/
def Fenced (s s' : Store) : Prop := ∃ b, s' = { s with recoveryRequired := b }

lemma fenced_refl (s : Store) : Fenced s s := ⟨s.recoveryRequired, rfl⟩

/-- A durable step whose frame is too long ends before it. -/
lemma durably_leaves_of_error {α : Type} {x : StoreM α} {e : CoreError} (h : x s = (.error e, s)) :
    (durably x).Leaves s (Fenced s) := by
  rw [Attempt.Leaves, durably, h]
  rcases s.requireRecovered with e' | _
  · exact fenced_refl s
  · exact ⟨true, rfl⟩

lemma journalFrame_of_lt {kind : JournalRecordKind} {txn : TxnId} {payload : CanonValue} {α : Type}
    {f : ℕ → StoreM α} (h : maxJournalPayload < payload.encode.length) :
    (journalFrame kind txn payload >>= f) s =
      (.error (.new .batchTooLarge "journal payload exceeds limit"), s) := by
  have happend : s.journal.append kind txn payload.encode =
      .error (.new .batchTooLarge "journal payload exceeds limit") := if_pos h
  rw [Attempt.bind_run, journalFrame, Attempt.get_bind_run, happend]
  rfl

lemma distinctSets_of_admitted {batch : CompiledBatch} (h : s.validateAdmission batch = .ok ()) :
    batch.distinctSets := by
  obtain ⟨_, -, h⟩ := CoreResult.bind_eq_ok h
  obtain ⟨_, hverify, -⟩ := CoreResult.bind_eq_ok h
  exact CompiledBatch.distinctSets_of_verify hverify

/-- A call that is refused behind its checks has made the checkpoint that was due. -/
lemma leaves_of_not_journals (hv : c.Validated s) (hj : ¬ Journals s c)
    (hauto : maybeAutoCheckpoint c.due s = (.ok (), s₁)) (hc : Collected s s₁) :
    c.run.Leaves s (Fenced s₁) := by
  have hlong (hun : ∀ txn ∈ c.txn, txn ∉ s.prepared) (hd : (c.record s.nextSeq).distinct) :
      maxJournalPayload < (c.record s₁.nextSeq).payload.encode.length := by
    rw [hc.nextSeq]
    by_contra hshort
    exact hj ⟨hv, hun, hd, not_lt.mp hshort⟩
  cases c with
  | commit pressure batch =>
    obtain ⟨hadmitted, hundecided, hpre⟩ := hv
    refine Attempt.Leaves.seq ?_ fun _ _ hs => Attempt.Leaves.pure hs
    refine Attempt.Leaves.get_bind (Attempt.Leaves.liftM_ok_bind hadmitted
      (Attempt.Leaves.liftM_ok_bind hundecided (Attempt.Leaves.liftM_ok_bind hpre ?_)))
    refine Attempt.Leaves.bind_of_ok hauto (Attempt.Leaves.get_bind ?_)
    split_ifs with hprepared
    · exact Attempt.Leaves.throw (fenced_refl s₁)
    rw [hc.prepared] at hprepared
    refine durably_leaves_of_error (journalFrame_of_lt (hlong ?_ (distinctSets_of_admitted hadmitted)))
    intro txn htxn
    exact Option.some.inj htxn ▸ hprepared
  | commitProtocol pressure batch =>
    obtain ⟨hrec, hready, hvalid, hpre⟩ := hv
    refine Attempt.Leaves.seq ?_ fun _ _ hs => Attempt.Leaves.pure hs
    refine Attempt.Leaves.get_bind (Attempt.Leaves.liftM_ok_bind hrec ?_)
    rw [if_neg (by rcases hready with h | h <;> simp [h])]
    refine Attempt.Leaves.liftM_ok_bind hvalid (Attempt.Leaves.liftM_ok_bind hpre ?_)
    refine Attempt.Leaves.bind_of_ok hauto ?_
    by_cases hdistinct : distinctSets batch
    · refine durably_leaves_of_error (e := .new .batchTooLarge "journal payload exceeds limit") ?_
      rw [Attempt.get_bind_run, if_neg (not_not.mpr hdistinct)]
      exact journalFrame_of_lt (hlong (fun txn htxn => by cases htxn) hdistinct)
    · refine durably_leaves_of_error (e := .panicked) ?_
      rw [Attempt.get_bind_run, if_pos hdistinct]
      rfl
  | prepare batch =>
    obtain ⟨hadmitted, houtcome, hpre⟩ := hv
    obtain rfl : s = s₁ := by
      rw [due, maybeAutoCheckpoint, Attempt.pure_run, Attempt.end_eq_iff] at hauto
      exact hauto.2
    refine Attempt.Leaves.seq ?_ fun _ _ hs => Attempt.Leaves.pure hs
    refine Attempt.Leaves.get_bind (Attempt.Leaves.liftM_ok_bind hadmitted ?_)
    rw [houtcome, if_neg (by simp)]
    refine Attempt.Leaves.liftM_ok_bind hpre ?_
    cases hp : s.prepared[batch.txnId]? with
    | some p =>
      dsimp only
      split_ifs
      · exact Attempt.Leaves.pure (fenced_refl s)
      · exact Attempt.Leaves.throw (fenced_refl s)
    | none =>
      refine durably_leaves_of_error (journalFrame_of_lt (hlong ?_ (distinctSets_of_admitted hadmitted)))
      intro txn htxn
      rw [← Option.some.inj htxn]
      intro hmem
      rw [Std.ExtTreeMap.mem_iff_isSome_getElem?, hp] at hmem
      cases hmem

/-- A call that is not journaled changes nothing but the fence, unless a checkpoint was due behind
its checks. -/
lemma refused_iff (h : Steady s c) (hj : ¬ Journals s c) :
    c.run.Leaves s (Fenced s) ↔ ¬ (c.Validated s ∧ c.due.isSome) := by
  have hlsns := h.room.lsns
  by_cases hv : c.Validated s
  swap
  · refine ⟨fun _ hboth => hv hboth.1, fun _ => ?_⟩
    exact (leaves_of_not_validated hv).mono fun s' hs => hs ▸ fenced_refl s
  obtain ⟨_, s₁, hauto, h₁, hdone⟩ := @maybeAutoCheckpoint_ends s c.due hv.recovered (by omega)
  have hleaves := leaves_of_not_journals hv hj hauto h₁.collected
  cases hdue : c.due with
  | none =>
    rw [hdue] at hdone
    obtain rfl : s₁ = s := hdone
    exact ⟨fun _ hboth => by simp at hboth, fun _ => hleaves⟩
  | some pool =>
    refine ⟨fun hfenced => ?_, fun hno => absurd ⟨hv, rfl⟩ hno⟩
    -- the journal holds the frames of the checkpoint
    obtain ⟨b, hb⟩ := hleaves
    obtain ⟨b', hb'⟩ := hfenced
    rw [hb] at hb'
    have hjournal := congrArg Store.journal hb'
    dsimp only at hjournal
    rw [hjournal, hdue] at hdone
    simp at hdone

end Refused

section Replay
variable {seq lsn checkpointLsn : ℕ}

/-- A store that has been rebuilt up to the frame of the call: nothing is newer than what is visible,
the rows of the frame are newer than that or are there already, and the records can be read. -/
structure Recovering (seq : ℕ) (s : Store) (c : Admission) : Prop where
  recovered : s.recoveryRequired = false
  current : Current s
  room : s.tree.entries.length + (c.calls s seq).length < 2 ^ 64
  unseen : ∀ x ∈ c.calls s seq, Unseen s.tree.versions s.durableCommitSeq s.durableCommitSeq x
  revisable : ∀ w ∈ c.writes, Revisable s.tree.versions s.durableCommitSeq w
  status : ∀ txn ∈ c.txn, ∃ st, s.txnStatus txn = .ok st

lemma Recovering.reading (h : Recovering seq s c) :
    Reading s.tree.versions s.durableCommitSeq seq (0 + (c.calls s seq).length) s :=
  ⟨Shows.refl s, by simpa using h.room, fun k v e he => Or.inl (h.current k v e he)⟩

/-- A frame that is read back is redone as it was installed. -/
lemma redo_within (h : Recovering seq s c) (hd : (c.record seq).distinct) (hseq : seq < 2 ^ 64) :
    ((c.record seq).redo checkpointLsn lsn).Within s (fun _ _ => Storable s.tree (c.calls s seq))
      fun err => Storable s.tree (c.calls s seq) → err ∈ splitLimits := by
  have hread := h.reading
  have hall := @insertAll_within s (c.calls s seq) h.room
  cases c with
  | commit pressure batch =>
    have hcalls : batchCalls s.tree.versions s.durableCommitSeq batch.normal seq none =
        batchCalls s.tree.versions s.durableCommitSeq batch seq none := batchCalls_normal hd _ _ _ rfl
    have hunseen := h.unseen
    rw [calls, ← hcalls] at hread hunseen
    have hinstall := hread.installBatch_eq hseq (fun w hw => ?_) hunseen
    · rw [hcalls] at hinstall
      refine Attempt.Within.bind (R := fun _ _ => Storable s.tree _) ?_ fun _ _ hst =>
        Attempt.Within.of_ends ⟨_, _, rfl, hst⟩
      exact Attempt.Within.congr hinstall (hall.mono (fun _ _ h => h.1) fun _ h => h)
    · obtain ⟨pm, hpm, hnormal⟩ := List.mem_map.mp hw
      cases pm with
      | putRecord v =>
        obtain rfl : v = w := ProtocolMutation.putRecord.inj hnormal
        exact h.revisable v (List.mem_filterMap.mpr ⟨_, hpm, rfl⟩)
      | setTxnStatus t => cases hnormal
  | commitProtocol pressure batch =>
    rw [calls, protocolBatchCalls, List.length_map] at hread
    refine Attempt.Within.bind (R := fun _ _ => Storable s.tree _) ?_ fun _ _ hst =>
      Attempt.Within.of_ends ⟨_, _, rfl, hst⟩
    exact Attempt.Within.congr (hread.installProtocolBatch_eq hseq h.revisable h.unseen)
      (hall.mono (fun _ _ h => h.1) fun _ h => h)
  | prepare batch =>
    obtain ⟨st, hst⟩ := h.status _ rfl
    have hdecision : s.hasDecision batch.txnId =
        .ok (st.any fun status => status.phase.isDecided) := by
      rw [hasDecision, hst]
      rfl
    have hnone : Storable s.tree (calls s seq (prepare batch)) := ⟨by simp [calls], by simp [calls]⟩
    refine Attempt.Within.of_ends (Attempt.Ends.get_bind ?_)
    split_ifs
    · exact ⟨_, _, rfl, hnone⟩
    refine Attempt.Ends.liftM_bind hdecision ?_
    split_ifs
    · exact ⟨_, _, rfl, hnone⟩
    · exact ⟨_, _, rfl, hnone⟩

/-- The frame is redone without an error other than that of a page split if its payload is read back
and its inserts are within the caps, and succeeds only then. -/
lemma replay_within (h : Recovering seq s c) (hd : (c.record seq).distinct) (hseq : seq < 2 ^ 64)
    (hlsn : lsn < 2 ^ 64) (hredone : ¬ (c.record seq).Skipped checkpointLsn lsn) :
    (replayFrame checkpointLsn ((c.record seq).frame lsn)).Within s
      (fun _ _ => (c.record seq).Decodes ∧ Storable s.tree (c.calls s seq))
      fun err => (c.record seq).Decodes ∧ Storable s.tree (c.calls s seq) → err ∈ splitLimits := by
  by_cases hdecodes : (c.record seq).Decodes
  · have hnum : (c.record seq).numbered := by
      cases c with
      | commit | commitProtocol => exact hseq
      | prepare => trivial
    refine Attempt.Within.congr (LogRecord.replayFrame_of_decodes hredone hlsn hdecodes hd hnum) ?_
    exact (redo_within h hd hseq).mono (fun _ _ hst => ⟨hdecodes, hst⟩) fun _ h hboth => h hboth.2
  · refine ⟨fun _ s' hok => ?_, fun _ _ _ hboth => absurd hboth.1 hdecodes⟩
    exact absurd (LogRecord.decodes_of_replayFrame hredone hlsn hd hok) hdecodes

end Replay

section Sample

/-- A record with the payload `null`. -/
def sampleRecord : VersionedProtocolRecord := ⟨"semantic_commit", 1, [110, 117, 108, 108]⟩

/-- A batch of one record that is expected to be absent, at a key. -/
def recordBatch (key : ProtocolRecordKey) : ProtocolOnlyBatch :=
  ⟨sampleKey, [], [⟨key, .absent, sampleRecord⟩]⟩

lemma steady_recordBatch (key : ProtocolRecordKey) :
    Steady (freshStore sampleOptions) (commitProtocol calm (recordBatch key)) where
  current := (StoreCall.serving_freshStore _).current
  lt := Nat.one_pos
  room := ⟨show 0 + 1 < 2 ^ 64 by decide, show 1 + 5 < 2 ^ 64 by decide,
    show 1 + 1 < 2 ^ 64 by decide⟩
  revisions w hw r hr := by
    obtain rfl := List.mem_singleton.mp hw
    cases hr

lemma length_recordBatch (key : ProtocolRecordKey) (seq : ℕ) :
    (protocolPayload (recordBatch key) seq).encode.length ≤ (toCanon key).encode.length + 1000 := by
  have hfixed : (toCanon ExpectedRecordRevision.absent).encode.length ≤ 100 ∧
      (toCanon sampleRecord).encode.length ≤ 200 ∧
      (canonSet ([] : List ProtocolRecordRef)).encode.length ≤ 2 ∧
      (toCanon sampleKey).encode.length ≤ 100 ∧ (str "protocol-batch.v1").encode.length ≤ 20 ∧
      (str "commit_protocol").encode.length ≤ 20 := by
    decide
  have hseq := length_encode_uint (UInt64.ofNat seq)
  have hwrite : (toCanon (⟨key, .absent, sampleRecord⟩ : ProtocolRecordWrite)).encode.length ≤ _ :=
    length_build_le ["expected", "key", "next"] rfl (by decide : _ ≤ 40)
  have hwrites : (toCanon (recordBatch key).writes).encode.length = _ :=
    length_encode_array [toCanon (⟨key, .absent, sampleRecord⟩ : ProtocolRecordWrite)]
  have hbatch : (toCanon (recordBatch key)).encode.length ≤ _ :=
    length_build_le ["authorizing_evidence", "internal_record_id", "kind", "writes"] rfl
      (by decide : _ ≤ 70)
  have hpayload : (protocolPayload (recordBatch key) seq).encode.length ≤ _ :=
    length_build_le ["batch", "kind", "seq"] rfl (by decide : _ ≤ 40)
  simp only [List.map_cons, List.map_nil, List.sum_cons, List.sum_nil, List.length_singleton]
    at hwrite hwrites hbatch hpayload
  change _ ≤ 2 + 70 + ((canonSet ([] : List ProtocolRecordRef)).encode.length +
    ((toCanon sampleKey).encode.length + (_ + (_ + 0)))) at hbatch
  omega

lemma journals_recordBatch (key : ProtocolRecordKey)
    (hlen : (toCanon key).encode.length + 1000 ≤ maxJournalPayload) :
    Journals (freshStore sampleOptions) (commitProtocol calm (recordBatch key)) where
  validated := by
    have hread : (freshStore sampleOptions).currentRecord key.logicalKey = .ok none :=
      (StoreCall.serving_freshStore sampleOptions).currentRecord_eq (by decide) key.logicalKey
    have hvalid : sampleRecord.validate = .ok () := by decide +kernel
    refine ⟨rfl, Or.inl rfl, ?_, ?_⟩
    · change (do sampleRecord.validate; validateWrites []) = _
      rw [hvalid]
      rfl
    change (do checkRecordWrite _ (← (freshStore sampleOptions).currentRecord key.logicalKey); _) = _
    rw [hread]
    rfl
  unprepared txn htxn := by cases htxn
  distinct := rfl
  length := (length_recordBatch key _).trans hlen

lemma length_outboxKey (scope : Bytes) :
    (toCanon (⟨"outbox", scope, []⟩ : ProtocolRecordKey)).encode.length ≤ 2 * scope.length + 100 := by
  have hfixed : (toCanon ([] : Bytes)).encode.length ≤ 2 ∧ (toCanon "outbox").encode.length ≤ 10 := by
    decide
  have hscope : (toCanon scope).encode.length = 2 * scope.length + 2 := length_encode_bytes scope
  have hkey : (toCanon (⟨"outbox", scope, []⟩ : ProtocolRecordKey)).encode.length ≤ _ :=
    length_build_le ["record_id", "record_kind", "scope_key"] rfl (by decide : _ ≤ 50)
  simp only [List.map_cons, List.map_nil, List.sum_cons, List.sum_nil] at hkey
  omega

lemma calls_recordBatch (key : ProtocolRecordKey) :
    calls (freshStore sampleOptions) 1 (commitProtocol calm (recordBatch key)) =
      [recordCall (Octets.zero 32) ⟨key, .absent, sampleRecord⟩ 1 1] := rfl

/-- The error of an installation is the error of the call, which leaves the handle fenced. -/
lemma run_of_install_error {pressure : Pressure} {batch : ProtocolOnlyBatch} {lsn : ℕ} {s₂ : Store}
    {err : CoreError} (hdue : pressure.before = none)
    (hv : Validated s (commitProtocol pressure batch)) (hdistinct : distinctSets batch)
    (hframe : journalFrame .commitBatch (Octets.zero 32) (protocolPayload batch s.nextSeq) s =
      (.ok lsn, s₁))
    (hinstall : installProtocolBatch s.nextSeq batch.writes s₁ = (.error err, s₂)) :
    run (commitProtocol pressure batch) s = (.error err, { s₂ with recoveryRequired := true }) := by
  obtain ⟨hrec, hready, hvalid, hpre⟩ := hv
  have hcommit : Store.commitProtocol pressure batch s =
      (.error err, { s₂ with recoveryRequired := true }) := by
    rw [Store.commitProtocol, Attempt.get_bind_run, hrec, Attempt.liftM_ok_bind_run,
      if_neg (by rcases hready with h | h <;> simp [h]), hvalid, Attempt.liftM_ok_bind_run, hpre,
      Attempt.liftM_ok_bind_run, hdue, maybeAutoCheckpoint, pure_bind]
    simp only [durably, hrec]
    rw [Attempt.get_bind_run, if_neg (not_not.mpr hdistinct), Attempt.bind_of_ok hframe,
      Attempt.bind_run, hinstall]
  rw [run, Attempt.bind_run, hcommit]

/-- A key that is too long is noticed when the record is installed. -/
lemma run_recordBatch {key : ProtocolRecordKey} (hlong : maxKeyLen < key.logicalKey.length)
    (hlen : (toCanon key).encode.length + 1000 ≤ maxJournalPayload) :
    ∃ s', run (commitProtocol calm (recordBatch key)) (freshStore sampleOptions) =
      (.error (.new .keyTooLarge "key exceeds MAX_KEY_LEN"), s') ∧
      s'.recoveryRequired = true ∧ s'.journal.nextLsn = 2 := by
  have hj := journals_recordBatch key hlen
  obtain ⟨hrec, -, hvalid, hpre⟩ := hj.validated
  obtain ⟨lsn, _, hframe, j, rfl, hnext⟩ := @journalFrame_ends (freshStore sampleOptions) .commitBatch
    (Octets.zero 32) (protocolPayload (recordBatch key) 1) hj.length (by decide)
  have hinstall : installProtocolBatch 1 (recordBatch key).writes
      { freshStore sampleOptions with journal := j } =
      (.error (.new .keyTooLarge "key exceeds MAX_KEY_LEN"),
        { freshStore sampleOptions with journal := j }) := by
    have hsteady := steady_recordBatch key
    have hread := (Checked.refl (freshStore sampleOptions)).reading hsteady.current hsteady.room.entries j
    have hrun (t : BTree Bytes) :
        (recordCall (Octets.zero 32) ⟨key, .absent, sampleRecord⟩ 1 1).run t =
          .error (.new .keyTooLarge "key exceeds MAX_KEY_LEN") :=
      InsertCall.run_of_key_lt hlong
    have hins : installProtocolMutation (Octets.zero 32) 1 (.putRecord ⟨key, .absent, sampleRecord⟩)
        { freshStore sampleOptions with journal := j } =
        (.error (.new .keyTooLarge "key exceeds MAX_KEY_LEN"),
          { freshStore sampleOptions with journal := j }) := by
      refine (hread.installProtocolMutation_eq fun w hw => ?_).trans ?_
      · obtain rfl := ProtocolMutation.putRecord.inj hw
        exact ⟨none, rfl⟩
      · change insertVersion (recordCall (Octets.zero 32) ⟨key, .absent, sampleRecord⟩ 1 1) _ = _
        rw [insertVersion, Attempt.get_bind_run, hrun]
        rfl
    change (installProtocolMutation _ 1 _ >>= fun _ => installProtocolBatch 1 []) _ = _
    rw [Attempt.bind_run, hins]
  refine ⟨{ freshStore sampleOptions with journal := j, recoveryRequired := true }, ?_, rfl, hnext⟩
  exact run_of_install_error rfl hj.validated hj.distinct hframe hinstall

lemma replay_recordBatch {key : ProtocolRecordKey} (hlong : maxKeyLen < key.logicalKey.length) :
    ¬ ∃ s', replayFrame 0 ((LogRecord.protocol (recordBatch key) 1).frame 1)
      (freshStore sampleOptions) = (.ok (), s') := by
  rintro ⟨s', hok⟩
  have hrecovering : Recovering 1 (freshStore sampleOptions)
      (commitProtocol calm (recordBatch key)) := by
    refine ⟨rfl, (StoreCall.serving_freshStore _).current, show 0 + 1 < 2 ^ 64 by decide, ?_, ?_, ?_⟩
    · intro x hx
      rw [calls_recordBatch, List.mem_singleton] at hx
      exact Or.inl (hx ▸ Nat.one_pos)
    · intro w hw
      obtain rfl := List.mem_singleton.mp hw
      exact ⟨none, rfl⟩
    · intro txn htxn
      cases htxn
  have hstorable := ((@replay_within _ _ 1 1 0 hrecovering rfl (by decide) (by decide)
    (by simp [LogRecord.Skipped])).1 _ _ hok).2
  rw [calls_recordBatch] at hstorable
  exact absurd (hstorable.capped _ (List.mem_singleton_self _)).1 (not_le.mpr hlong)

end Sample

/-- A record whose scope alone is as long as a key may be. -/
def longKey : ProtocolRecordKey := ⟨"outbox", List.replicate maxKeyLen 1, []⟩

set_option maxRecDepth 100000 in
lemma length_longKey : maxKeyLen < longKey.logicalKey.length := by
  decide

end Admission

end CarolinaDB.Storage
