import CarolinaDB.StoreReads

/-!
# Installing a batch

A batch is installed by inserting one version for each of its mutations, all at one
sequence. The revisions of its records are read from the state before the batch,
since what is being installed is not visible yet.
-/
namespace CarolinaDB.Storage

namespace InsertCall

section
variable {V : Type} [ByteLen V] {t t' : BTree V}

lemma runAll_append {cs ds : List (InsertCall V)} :
    runAll (cs ++ ds) t = runAll cs t >>= runAll ds := by
  induction cs generalizing t with
  | nil => rfl
  | cons c cs ih =>
    simp only [List.cons_append, runAll]
    split
    · rfl
    · exact ih

section
variable {cs : List (InsertCall V)} {m : Versions Bytes (LeafEntry V)} {seq v : ℕ} {k : Bytes}

lemma versionsAfter_self (hseq : ∀ c ∈ cs, c.seq.toNat = seq) :
    versionsAfter cs m k seq = (m k seq).or ((cs.find? fun c => c.key = k).map entry) := by
  induction cs generalizing m with
  | nil => simp [versionsAfter]
  | cons c cs ih =>
    have hc := hseq c (List.mem_cons_self ..)
    refine (ih fun c hc => hseq c (List.mem_cons_of_mem _ hc)).trans ?_
    by_cases hk : c.key = k
    · subst hk
      cases hm : m c.key seq <;> simp [Versions.insert, hc, hm]
    · simp [Versions.insert, hk, Ne.symm hk]

lemma versionsAfter_of_ne (hseq : ∀ c ∈ cs, c.seq.toNat = seq) (hv : v ≠ seq) :
    versionsAfter cs m k v = m k v := by
  induction cs generalizing m with
  | nil => rfl
  | cons c cs ih =>
    refine (ih fun c hc => hseq c (List.mem_cons_of_mem _ hc)).trans ?_
    exact if_neg fun h => hv (h.2.trans (hseq c (List.mem_cons_self ..)))

lemma newest_versionsAfter_of_lt (hseq : ∀ c ∈ cs, c.seq.toNat = seq) (hv : v < seq) :
    (versionsAfter cs m).newest k v = m.newest k v := by
  exact Versions.newest_congr fun s hs => versionsAfter_of_ne hseq (by omega)

/-- What a read at the sequence of the calls sees: the first call at its key, or what was there. -/
lemma newest_versionsAfter (hseq : ∀ c ∈ cs, c.seq.toNat = seq) (hpos : v + 1 = seq)
    (hm : m k seq = none) :
    (versionsAfter cs m).newest k seq =
      ((cs.find? fun c => c.key = k).map entry).or (m.newest k v) := by
  have hself := versionsAfter_self (m := m) (k := k) hseq
  subst hpos
  rw [Versions.newest, hself, hm, Option.none_or, newest_versionsAfter_of_lt hseq (Nat.lt_succ_self v)]

/-- Inserts that are newer than a read, or older than what it sees of their key, do not change it. -/
lemma newest_versionsAfter_of_unseen {cs : List (InsertCall V)} {m : Versions Bytes (LeafEntry V)}
    {v : ℕ} {k : Bytes} (hm : ∀ k s e, m k s = some e → e.seq = s)
    (hc : ∀ c ∈ cs, v < c.seq.toNat ∨ ∃ e, m.newest c.key v = some e ∧ c.seq.toNat ≤ e.seq) :
    (versionsAfter cs m).newest k v = m.newest k v := by
  induction cs generalizing m with
  | nil => rfl
  | cons c cs ih =>
    have hone (k : Bytes) : (m.insert c.key c.seq.toNat c.entry).newest k v = m.newest k v := by
      rcases hc c List.mem_cons_self with hlt | ⟨e, he, hle⟩
      · exact Versions.newest_insert_of_lt hlt
      · obtain ⟨s, hs, hms, -⟩ := Versions.newest_eq_some_iff.mp he
        rw [hm c.key s e hms] at hle
        exact Versions.newest_insert_of_le hle hs hms
    have hdated : ∀ k s e, m.insert c.key c.seq.toNat c.entry k s = some e → e.seq = s := by
      intro k s e he
      rw [Versions.insert] at he
      split_ifs at he with hk
      · rcases Option.or_eq_some_iff.mp he with he | ⟨-, he⟩
        · exact (hm _ _ e he).trans hk.2.symm
        · rw [← Option.some.inj he, hk.2]
          exact newEntry_seq ..
      · exact hm k s e he
    refine (ih hdated fun d hd => ?_).trans (hone k)
    rw [hone]
    exact hc d (List.mem_cons_of_mem _ hd)

end

end

end InsertCall

namespace Store

/-- The revision a record write is installed with. -/
def revisionAt (m : Rows) (visible : ℕ) (w : ProtocolRecordWrite) : RecordRevision :=
  match w.expected with
  | .exact r => UInt64.ofNat (r.toNat + 1)
  | .absent =>
    match recordAt m visible w.key.logicalKey with
    | .ok (some (cur, existing)) => if existing = w.next then cur else 1
    | _ => 1

/-- The status a transition writes: the decision on the transaction, if there is one. -/
def statusWritten (txn : TxnId) (statusOverride : Option TxnStatusRecord) (t : TxnStatusTransition) :
    TxnStatusRecord :=
  if t.txnId = txn then statusOverride.getD t.next else t.next

def protocolCall (m : Rows) (visible : ℕ) (txn : TxnId) (seq : ℕ)
    (statusOverride : Option TxnStatusRecord) : ProtocolMutation → InsertCall Bytes
  | .putRecord w => recordCall txn w (revisionAt m visible w) seq
  | .setTxnStatus t => statusCall t.txnId (statusWritten txn statusOverride t) seq

def isStatusOf (txn : TxnId) : ProtocolMutation → Bool
  | .putRecord _ => false
  | .setTxnStatus t => t.txnId = txn

/-- A decision the batch has no status for is written at the end. -/
def extraStatus (batch : CompiledBatch) (seq : ℕ) : Option TxnStatusRecord → List (InsertCall Bytes)
  | none => []
  | some rec =>
    if batch.protocolMutations.any (isStatusOf batch.txnId) then []
    else [statusCall batch.txnId rec seq]

def batchCalls (m : Rows) (visible : ℕ) (batch : CompiledBatch) (seq : ℕ)
    (statusOverride : Option TxnStatusRecord) : List (InsertCall Bytes) :=
  batch.mutations.map (mutationCall batch.txnId seq) ++
    (batch.protocolMutations.map (protocolCall m visible batch.txnId seq statusOverride) ++
      extraStatus batch seq statusOverride)

/-- The inserts have been made, and nothing else has changed. -/
def Installs (cs : List (InsertCall Bytes)) (s s' : Store) : Prop :=
  ∃ t, InsertCall.runAll cs s.tree = .ok t ∧ s' = { s with tree := t }

namespace Installs
variable {cs ds : List (InsertCall Bytes)} {s s' s'' : Store}

lemma nil (s : Store) : Installs [] s s := ⟨s.tree, rfl, rfl⟩

lemma append (h : Installs cs s s') (h' : Installs ds s' s'') : Installs (cs ++ ds) s s'' := by
  obtain ⟨t, ht, rfl⟩ := h
  obtain ⟨t', ht', rfl⟩ := h'
  refine ⟨t', ?_, rfl⟩
  rw [InsertCall.runAll_append, ht]
  exact ht'

lemma versions_eq (h : Installs cs s s') :
    s'.tree.versions = InsertCall.versionsAfter cs s.tree.versions := by
  obtain ⟨t, ht, rfl⟩ := h
  exact (InsertCall.runAll_spec ht).1

end Installs

variable {s s' : Store}

lemma insertVersion_ok {c : InsertCall Bytes} (h : insertVersion c s = (.ok (), s')) :
    Installs [c] s s' := by
  rcases hrun : c.run s.tree with e | ⟨b, t⟩
  · simp [insertVersion, hrun] at h
  · simp only [insertVersion, Attempt.get_bind_run, hrun, Attempt.liftM_ok_bind_run,
      Attempt.set_run, Attempt.end_eq_iff] at h
    exact ⟨t, by simp [InsertCall.runAll, hrun], h.2.symm⟩

lemma installMutations_ok {txn : TxnId} {seq : ℕ} {ms : List StorageMutation}
    (h : installMutations txn seq ms s = (.ok (), s')) :
    Installs (ms.map (mutationCall txn seq)) s s' := by
  induction ms generalizing s with
  | nil =>
    simp only [installMutations, Attempt.pure_run, Attempt.end_eq_iff] at h
    exact h.2 ▸ Installs.nil s
  | cons m ms ih =>
    obtain ⟨_, s₁, hm, hms⟩ := Attempt.bind_eq_ok h
    exact (insertVersion_ok hm).append (ih hms)

/-- The store still shows the state a batch is being installed on. -/
def Shows (m : Rows) (visible : ℕ) (s : Store) : Prop :=
  ∀ k, s.tree.versions.newest k s.durableCommitSeq = m.newest k visible

lemma Shows.refl (s : Store) : Shows s.tree.versions s.durableCommitSeq s := fun _ => rfl

/-- A read at `durable`, which sees what `m` shows at `visible`, does not see the insert: it is newer,
or its key has a version that is at least as new. -/
def Unseen (m : Rows) (visible durable : ℕ) (c : InsertCall Bytes) : Prop :=
  durable < c.seq.toNat ∨ ∃ e, m.newest c.key visible = some e ∧ c.seq.toNat ≤ e.seq

lemma Shows.installs_unseen {m : Rows} {visible : ℕ} {cs : List (InsertCall Bytes)}
    (hs : Shows m visible s) (hc : ∀ c ∈ cs, Unseen m visible s.durableCommitSeq c)
    (h : Installs cs s s') : Shows m visible s' ∧ s'.durableCommitSeq = s.durableCommitSeq := by
  have hdurable : s'.durableCommitSeq = s.durableCommitSeq := by
    obtain ⟨t, -, rfl⟩ := h
    rfl
  refine ⟨fun k => ?_, hdurable⟩
  rw [hdurable, h.versions_eq, InsertCall.newest_versionsAfter_of_unseen
    (fun k v e he => (BTree.versions_eq_some_iff.mp he).2.2) fun c hmem => ?_]
  · exact hs k
  · rcases hc c hmem with hlt | ⟨e, he, hle⟩
    · exact Or.inl hlt
    · exact Or.inr ⟨e, (hs c.key).trans he, hle⟩

lemma installedRevision_ok {m : Rows} {visible : ℕ} {w : ProtocolRecordWrite} {rev : RecordRevision}
    (hs : Shows m visible s) (h : s.installedRevision w = .ok rev) : rev = revisionAt m visible w := by
  unfold installedRevision at h
  unfold revisionAt
  cases hw : w.expected with
  | exact r =>
    rw [hw] at h
    obtain ⟨n, hn, rfl⟩ := CoreResult.map_eq_ok h
    rw [checkedSucc] at hn
    split_ifs at hn
    rw [← Except.ok.inj hn]
  | absent =>
    rw [hw] at h
    obtain ⟨r, hr, h⟩ := CoreResult.bind_eq_ok h
    have hrec : recordAt m visible w.key.logicalKey = .ok r := by
      rw [← recordAt_congr (hs _)]
      exact currentRecord_sound hr
    rw [hrec]
    rcases r with _ | ⟨cur, existing⟩
    · exact (Except.ok.inj h).symm
    · exact (Except.ok.inj h).symm

lemma seq_mutationCall {txn : TxnId} {seq : ℕ} (h : seq < 2 ^ 64) (m : StorageMutation) :
    (mutationCall txn seq m).seq.toNat = seq := by
  cases m <;> exact UInt64.toNat_ofNat_of_lt' h

lemma seq_statusCall {txn : TxnId} {rec : TxnStatusRecord} {seq : ℕ} (h : seq < 2 ^ 64) :
    (statusCall txn rec seq).seq.toNat = seq :=
  UInt64.toNat_ofNat_of_lt' h

lemma seq_protocolCall {m : Rows} {visible seq : ℕ} {txn : TxnId} {o : Option TxnStatusRecord}
    (h : seq < 2 ^ 64) (pm : ProtocolMutation) :
    (protocolCall m visible txn seq o pm).seq.toNat = seq := by
  cases pm <;> exact UInt64.toNat_ofNat_of_lt' h

lemma seq_batchCalls {m : Rows} {visible seq : ℕ} {batch : CompiledBatch}
    {o : Option TxnStatusRecord} (h : seq < 2 ^ 64) :
    ∀ c ∈ batchCalls m visible batch seq o, c.seq.toNat = seq := by
  intro c hc
  simp only [batchCalls, List.mem_append, List.mem_map] at hc
  rcases hc with ⟨x, -, rfl⟩ | ⟨x, -, rfl⟩ | hc
  · exact seq_mutationCall h x
  · exact seq_protocolCall h x
  · cases o with
    | none => cases hc
    | some rec =>
      rw [extraStatus] at hc
      split_ifs at hc
      · cases hc
      · rw [List.mem_singleton.mp hc]
        exact seq_statusCall h

section Protocol
variable {m : Rows} {visible seq : ℕ} {txn : TxnId} {o : Option TxnStatusRecord}

lemma installProtocolMutation_ok {pm : ProtocolMutation} (hs : Shows m visible s)
    (h : installProtocolMutation txn seq pm s = (.ok (), s')) :
    Installs [protocolCall m visible txn seq none pm] s s' := by
  cases pm with
  | putRecord w =>
    rw [installProtocolMutation, Attempt.get_bind_run] at h
    obtain ⟨rev, s₁, hrev, hins⟩ := Attempt.bind_eq_ok h
    rw [Attempt.liftM_run, Attempt.end_eq_iff] at hrev
    obtain ⟨hrev, rfl⟩ := hrev
    rw [protocolCall, ← installedRevision_ok hs hrev]
    exact insertVersion_ok hins
  | setTxnStatus t =>
    have hcall : protocolCall m visible txn seq none (.setTxnStatus t) =
        statusCall t.txnId t.next seq := by
      simp [protocolCall, statusWritten]
    rw [hcall]
    exact insertVersion_ok h

/-- One protocol mutation of a batch, with the decision in place of the batch's own status. -/
lemma installProtocolMutations_cons {pm : ProtocolMutation} {pms : List ProtocolMutation} {b : Bool}
    (hs : Shows m visible s)
    (h : installProtocolMutations txn seq o (pm :: pms) s = (.ok b, s')) :
    ∃ s₁ b₁, Installs [protocolCall m visible txn seq o pm] s s₁ ∧
      installProtocolMutations txn seq o pms s₁ = (.ok b₁, s') ∧
      b = ((o.isSome && isStatusOf txn pm) || b₁) := by
  have hplain (heq : protocolCall m visible txn seq o pm = protocolCall m visible txn seq none pm)
      (hown : (o.isSome && isStatusOf txn pm) = false)
      (h : (installProtocolMutation txn seq pm >>= fun _ => installProtocolMutations txn seq o pms) s =
        (.ok b, s')) :
      ∃ s₁ b₁, Installs [protocolCall m visible txn seq o pm] s s₁ ∧
        installProtocolMutations txn seq o pms s₁ = (.ok b₁, s') ∧
        b = ((o.isSome && isStatusOf txn pm) || b₁) := by
    obtain ⟨_, s₁, hins, h⟩ := Attempt.bind_eq_ok h
    rw [heq, hown]
    exact ⟨s₁, b, installProtocolMutation_ok hs hins, h, rfl⟩
  cases pm with
  | putRecord w => exact hplain rfl (by simp [isStatusOf]) h
  | setTxnStatus t =>
    cases o with
    | none => exact hplain rfl rfl h
    | some rec =>
      by_cases ht : t.txnId = txn
      · simp only [installProtocolMutations, if_pos ht] at h
        obtain ⟨_, s₁, hins, h⟩ := Attempt.bind_eq_ok h
        obtain ⟨b₁, s₂, hrest, h⟩ := Attempt.bind_eq_ok h
        rw [Attempt.pure_run, Attempt.end_eq_iff] at h
        obtain ⟨hb, rfl⟩ := h
        have hcall : protocolCall m visible txn seq (some rec) (.setTxnStatus t) =
            statusCall txn rec seq := by
          simp [protocolCall, statusWritten, ht]
        refine ⟨s₁, b₁, ?_, hrest, by simpa [isStatusOf, ht] using hb.symm⟩
        rw [hcall]
        exact insertVersion_ok hins
      · simp only [installProtocolMutations, if_neg ht] at h
        exact hplain (by simp [protocolCall, statusWritten, ht]) (by simp [isStatusOf, ht]) h

lemma installProtocolMutations_unseen {pms : List ProtocolMutation} {b : Bool}
    (hs : Shows m visible s)
    (hc : ∀ pm ∈ pms, Unseen m visible s.durableCommitSeq (protocolCall m visible txn seq o pm))
    (h : installProtocolMutations txn seq o pms s = (.ok b, s')) :
    Installs (pms.map (protocolCall m visible txn seq o)) s s' ∧
      b = (o.isSome && pms.any (isStatusOf txn)) := by
  induction pms generalizing s b with
  | nil =>
    rw [installProtocolMutations, Attempt.pure_run, Attempt.end_eq_iff] at h
    obtain ⟨hb, rfl⟩ := h
    exact ⟨Installs.nil s, by simpa using hb.symm⟩
  | cons pm pms ih =>
    obtain ⟨s₁, b₁, hins, hrest, rfl⟩ := installProtocolMutations_cons hs h
    obtain ⟨hs₁, hdur⟩ := hs.installs_unseen (by simpa using hc pm List.mem_cons_self) hins
    obtain ⟨hall, rfl⟩ := ih hs₁
      (fun x hx => hdur.symm ▸ hc x (List.mem_cons_of_mem _ hx)) hrest
    refine ⟨hins.append hall, ?_⟩
    cases o <;> simp

/-- A batch that is installed is the list of its inserts, if the state it is installed on does not
show them meanwhile. -/
theorem installBatch_unseen {batch : CompiledBatch} (hs : Shows m visible s)
    (hc : ∀ c ∈ batchCalls m visible batch seq o, Unseen m visible s.durableCommitSeq c)
    (h : installBatch batch seq o s = (.ok (), s')) :
    Installs (batchCalls m visible batch seq o) s s' := by
  obtain ⟨_, s₁, hmut, h⟩ := Attempt.bind_eq_ok h
  obtain ⟨b, s₂, hpro, h⟩ := Attempt.bind_eq_ok h
  have hins₁ := installMutations_ok hmut
  obtain ⟨hs₁, hdur⟩ := hs.installs_unseen
    (fun c hmem => hc c (List.mem_append_left _ hmem)) hins₁
  obtain ⟨hins₂, rfl⟩ := installProtocolMutations_unseen hs₁ (fun pm hpm => hdur.symm ▸
    hc _ (List.mem_append_right _ (List.mem_append_left _ (List.mem_map_of_mem hpm)))) hpro
  refine hins₁.append (hins₂.append ?_)
  cases o with
  | none =>
    change (pure () : StoreM Unit) s₂ = _ at h
    rw [Attempt.pure_run, Attempt.end_eq_iff] at h
    exact h.2 ▸ Installs.nil s₂
  | some rec =>
    rw [extraStatus]
    cases hany : batch.protocolMutations.any (isStatusOf batch.txnId) with
    | true =>
      simp only [hany, Option.isSome_some, Bool.and_self, Attempt.pure_run, Attempt.end_eq_iff] at h
      exact h.2 ▸ Installs.nil s₂
    | false =>
      simp only [hany, Option.isSome_some, Bool.and_false] at h
      exact insertVersion_ok h

theorem installBatch_ok {batch : CompiledBatch} (hseq : seq < 2 ^ 64)
    (hlt : s.durableCommitSeq < seq) (h : installBatch batch seq o s = (.ok (), s')) :
    Installs (batchCalls s.tree.versions s.durableCommitSeq batch seq o) s s' :=
  installBatch_unseen (Shows.refl s)
    (fun c hc => Or.inl ((seq_batchCalls hseq c hc).symm ▸ hlt)) h

lemma installProtocolBatch_unseen {ws : List ProtocolRecordWrite} (hs : Shows m visible s)
    (hc : ∀ w ∈ ws, Unseen m visible s.durableCommitSeq
      (recordCall (Octets.zero 32) w (revisionAt m visible w) seq))
    (h : installProtocolBatch seq ws s = (.ok (), s')) :
    Installs (ws.map fun w => recordCall (Octets.zero 32) w (revisionAt m visible w) seq) s s' := by
  induction ws generalizing s with
  | nil =>
    rw [installProtocolBatch, Attempt.pure_run, Attempt.end_eq_iff] at h
    exact h.2 ▸ Installs.nil s
  | cons w ws ih =>
    obtain ⟨_, s₁, hw, h⟩ := Attempt.bind_eq_ok h
    have hins := installProtocolMutation_ok hs hw
    obtain ⟨hs₁, hdur⟩ := hs.installs_unseen
      (fun c hmem => List.mem_singleton.mp hmem ▸ hc w List.mem_cons_self) hins
    exact hins.append (ih hs₁ (fun x hx => hdur.symm ▸ hc x (List.mem_cons_of_mem _ hx)) h)

lemma installProtocolBatch_ok {ws : List ProtocolRecordWrite} (hs : Shows m visible s)
    (hseq : seq < 2 ^ 64) (hlt : s.durableCommitSeq < seq)
    (h : installProtocolBatch seq ws s = (.ok (), s')) :
    Installs (ws.map fun w => recordCall (Octets.zero 32) w (revisionAt m visible w) seq) s s' :=
  installProtocolBatch_unseen hs
    (fun _ _ => Or.inl ((UInt64.toNat_ofNat_of_lt' hseq).symm ▸ hlt)) h

end Protocol

end Store

end CarolinaDB.Storage
