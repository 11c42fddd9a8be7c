import CarolinaDB.StoreProgress
import CarolinaDB.StoreRuns

/-!
# One decision for a transaction

The status of a transaction is written only by batches of that transaction and by
the decision on its prepared batch. Commits consult the status first; a prepared
batch is decided without another look at it, so its transaction has to be undecided.
-/
namespace CarolinaDB.Storage

open Relation

lemma txnStatusKey_inj {a b : TxnId} (h : txnStatusKey a = txnStatusKey b) : a = b := by
  simp only [txnStatusKey, List.cons.injEq, true_and] at h
  have h' := (keyBytes_append_inj (v := utf8 "txn_status") (w := utf8 "txn_status") h).2
  have hval : keyBytes a.val ++ [] = keyBytes b.val ++ [] := by simpa using h'
  exact Subtype.ext (keyBytes_append_inj hval).1

lemma logicalKey_ne_txnStatusKey (k : ProtocolRecordKey) (txn : TxnId) :
    k.logicalKey ≠ txnStatusKey txn := by
  intro h
  simp only [ProtocolRecordKey.logicalKey, txnStatusKey, keyStr, List.cons.injEq] at h
  have h' := (keyBytes_append_inj h.2).2
  have hval : keyBytes k.scopeKey ++ keyBytes k.recordId = keyBytes txn.val ++ [] := by
    simpa using h'
  have hnil := (keyBytes_append_inj hval).2
  simp [keyBytes] at hnil

lemma ne_txnStatusKey_of_userWritable {key : LogicalKey} {ns : Namespace}
    (hns : keyNamespace key = .ok ns) (hw : ns.isUserWritable) (txn : TxnId) :
    key ≠ txnStatusKey txn := by
  rintro rfl
  rw [txnStatusKey, keyNamespace, Namespace.fromByte_toByte, Except.ok.injEq] at hns
  subst hns
  cases hw

namespace CompiledBatch

lemma userWritable_of_verifyMutations {seen : List LogicalKey} {ms : List StorageMutation}
    (h : verifyMutations seen ms = .ok ()) {m : StorageMutation} (hm : m ∈ ms) :
    ∃ ns, keyNamespace m.key = .ok ns ∧ ns.isUserWritable := by
  induction ms generalizing seen with
  | nil => cases hm
  | cons x ms ih =>
    obtain ⟨ns, hns, h⟩ := CoreResult.bind_eq_ok h
    split_ifs at h with hw
    rcases List.mem_cons.mp hm with rfl | hm
    · exact ⟨ns, hns, by simpa using hw⟩
    · exact ih h hm

lemma txnId_of_verifyProtocolMutations {b : CompiledBatch} {ms : List ProtocolMutation}
    (h : b.verifyProtocolMutations ms = .ok ()) {t : TxnStatusTransition}
    (ht : .setTxnStatus t ∈ ms) : t.txnId = b.txnId := by
  induction ms with
  | nil => cases ht
  | cons m ms ih =>
    obtain ⟨_, hm, h⟩ := CoreResult.bind_eq_ok h
    rcases List.mem_cons.mp ht with rfl | ht
    · rw [verifyProtocolMutation] at hm
      split_ifs at hm with hid
      by_contra hne
      exact hid (Or.inl hne)
    · exact ih h ht

/-- What a batch that passes its check has: business keys outside the reserved namespaces and
status transitions of its own transaction only. -/
lemma verify_spec {b : CompiledBatch} (h : b.verify = .ok ()) :
    (∀ m ∈ b.mutations, ∃ ns, keyNamespace m.key = .ok ns ∧ ns.isUserWritable) ∧
      ∀ t, .setTxnStatus t ∈ b.protocolMutations → t.txnId = b.txnId := by
  rw [verify] at h
  split_ifs at h
  obtain ⟨d, -, h⟩ := CoreResult.bind_eq_ok h
  split_ifs at h
  obtain ⟨_, hmut, h⟩ := CoreResult.bind_eq_ok h
  obtain ⟨_, hpro, -⟩ := CoreResult.bind_eq_ok h
  exact ⟨fun m hm => userWritable_of_verifyMutations hmut hm,
    fun t ht => txnId_of_verifyProtocolMutations hpro ht⟩

/-- A batch that is sealed passes its check if its contents do. -/
lemma verify_of_seal {b b' : CompiledBatch} (h : b.seal_ = .ok b')
    (hversion : b.batchVersion = Storage.batchVersion) (hmut : verifyMutations [] b.mutations = .ok ())
    (hpro : b.verifyProtocolMutations b.protocolMutations = .ok ())
    (houtcome : b.verifyTerminalOutcome = .ok ()) : b'.verify = .ok () := by
  obtain ⟨digest, hdigest, h⟩ := CoreResult.bind_eq_ok h
  obtain rfl := Except.ok.inj h
  have hsame : ({ b with semanticDigest := digest } : CompiledBatch).computeDigest = .ok digest :=
    hdigest
  have hmutations (d : SemanticDigest) (ms : List ProtocolMutation) :
      ({ b with semanticDigest := d } : CompiledBatch).verifyProtocolMutations ms =
        b.verifyProtocolMutations ms := by
    induction ms with
    | nil => rfl
    | cons m ms ih =>
      rw [verifyProtocolMutations, verifyProtocolMutations, ih]
      cases m <;> rfl
  rw [verify, if_neg (not_not.mpr hversion), hsame, CoreResult.ok_bind, if_neg (by simp)]
  simp only [hmut, hmutations, hpro, CoreResult.ok_bind]
  exact houtcome

/-- The encoding of a batch is as long as its payload, the digest and its name. -/
lemma length_encode_le (b : CompiledBatch) {n : ℕ}
    (h : (b.semanticFields.map CanonValue.fieldLen).sum ≤ n) :
    (Canonical.toCanon b).encode.length ≤ n + 87 := by
  have hdigest := CanonValue.length_encode_hash b.semanticDigest
  have hname : (writeString "semantic_digest").length = 17 := by decide +kernel
  refine (CanonValue.length_encode_build_le _).trans ?_
  rw [List.map_cons, List.sum_cons, CanonValue.fieldLen, hdigest, hname]
  omega

end CompiledBatch

namespace Store

variable {s s' : Store}

lemma verify_of_validateAdmission {batch : CompiledBatch}
    (h : s.validateAdmission batch = .ok ()) : batch.verify = .ok () := by
  obtain ⟨_, -, h⟩ := CoreResult.bind_eq_ok h
  obtain ⟨_, hverify, -⟩ := CoreResult.bind_eq_ok h
  exact hverify

/-- Every insert of a batch is made under its transaction, and none of them at the status of
another one. -/
lemma batchCalls_spec {m : Rows} {visible seq : ℕ} {batch : CompiledBatch}
    {o : Option TxnStatusRecord} (h : batch.verify = .ok ()) {c : InsertCall Bytes}
    (hc : c ∈ batchCalls m visible batch seq o) :
    c.txnId = batch.txnId ∧ ∀ txn, txn ≠ batch.txnId → c.key ≠ txnStatusKey txn := by
  obtain ⟨hmut, hpro⟩ := CompiledBatch.verify_spec h
  simp only [batchCalls, List.mem_append, List.mem_map] at hc
  rcases hc with ⟨x, hx, rfl⟩ | ⟨x, hx, rfl⟩ | hc
  · obtain ⟨ns, hns, hw⟩ := hmut x hx
    cases x <;> exact ⟨rfl, fun txn _ => ne_txnStatusKey_of_userWritable hns hw txn⟩
  · cases x with
    | putRecord w => exact ⟨rfl, fun txn _ => logicalKey_ne_txnStatusKey w.key txn⟩
    | setTxnStatus t =>
      refine ⟨hpro t hx, fun txn hne hkey => hne ?_⟩
      exact (txnStatusKey_inj hkey).symm.trans (hpro t hx)
  · cases o with
    | none => cases hc
    | some rec =>
      rw [extraStatus] at hc
      split_ifs at hc
      · cases hc
      · rw [List.mem_singleton.mp hc]
        exact ⟨rfl, fun txn hne hkey => hne (txnStatusKey_inj hkey).symm⟩

section Status
variable {txn : TxnId}

/-- The durable status of the transaction is a decision. -/
def HasDecision (s : Store) (txn : TxnId) : Prop :=
  ∃ st, s.statusOf txn = .ok (some st) ∧ st.phase.isDecided

lemma undecided_of_refuseDecidedTxn (h : s.refuseDecidedTxn txn = .ok ()) : ¬ s.HasDecision txn := by
  rintro ⟨st, hst, hphase⟩
  obtain ⟨r, hr, h⟩ := CoreResult.bind_eq_ok h
  rw [txnStatus_sound hr, Except.ok.injEq] at hst
  subst hst
  cases hp : st.phase <;> simp [hp, TxnPhase.isDecided] at h hphase

lemma Collected.statusOf_eq (h : Collected s s') : s'.statusOf txn = s.statusOf txn :=
  statusAt_congr (h.newest _)

lemma Extends.statusOf_eq {cs : List (InsertCall Bytes)} (h : Extends cs s s') (hs : Current s)
    (hnext : s.nextSeq = s.durableCommitSeq + 1) (hspare : ∀ c ∈ cs, c.key ≠ txnStatusKey txn) :
    s'.statusOf txn = s.statusOf txn := by
  refine statusAt_congr ?_
  rw [h.newest_eq hs (by omega) hnext, List.find?_eq_none.mpr fun c hc => by simpa using hspare c hc,
    Option.map_none, Option.none_or]

lemma HasDecision.congr (h : s'.statusOf txn = s.statusOf txn) :
    s'.HasDecision txn ↔ s.HasDecision txn := by
  rw [HasDecision, HasDecision, h]

end Status

/-- No prepared transaction is decided, and its batch is its own. -/
structure Settled (s : Store) : Prop where
  next : s.nextSeq = s.durableCommitSeq + 1
  current : Current s
  prepared : ∀ txn p, s.prepared[txn]? = some p →
    p.batch.verify = .ok () ∧ p.batch.txnId = txn ∧ ¬ s.HasDecision txn

/-- The decision on the transaction stands, and nothing was installed under it. The zero id marks
records that are written under no transaction. -/
structure Final (txn : TxnId) (s s' : Store) : Prop where
  status : s'.statusOf txn = s.statusOf txn
  untouched : txn ≠ Octets.zero 32 → ∀ k v e, s'.tree.versions k v = some e → e.txnId = txn →
    s.tree.versions k v = some e

lemma Final.refl (txn : TxnId) (s : Store) : Final txn s s := ⟨rfl, fun _ _ _ _ he _ => he⟩

lemma Final.trans {txn : TxnId} {s'' : Store} (h : Final txn s s') (h' : Final txn s' s'') :
    Final txn s s'' :=
  ⟨h'.status.trans h.status, fun hne k v e he htxn =>
    h.untouched hne k v e (h'.untouched hne k v e he htxn) htxn⟩

lemma Collected.final (h : Collected s s') (txn : TxnId) : Final txn s s' :=
  ⟨h.statusOf_eq, fun _ k v e he _ => h.subset k v e he⟩

lemma Collected.settled (h : Collected s s') (hs : Settled s) : Settled s' where
  next := by
    rw [h.nextSeq, h.durableCommitSeq]
    exact hs.next
  current := h.current hs.current
  prepared txn p hp := by
    rw [HasDecision.congr h.statusOf_eq]
    exact hs.prepared txn p (h.prepared ▸ hp)

/-- The inserts of a call belong to one transaction, which is not decided. -/
structure Writes (owner : TxnId) (s s' : Store) : Prop where
  installed : ∃ cs, Extends cs s s' ∧ ∀ c ∈ cs, c.txnId = owner ∧
    ∀ txn, txn ≠ owner → c.key ≠ txnStatusKey txn
  undecided : ¬ s.HasDecision owner
  prepared : ∀ txn p, s'.prepared[txn]? = some p → s.prepared[txn]? = some p ∧ txn ≠ owner

lemma txnId_entry (c : InsertCall Bytes) : c.entry.txnId = c.txnId := by
  rw [InsertCall.entry, newEntry]
  split <;> rfl

lemma Writes.settled {owner : TxnId} (h : Writes owner s s') (hs : Settled s) : Settled s' := by
  obtain ⟨cs, he, hcs⟩ := h.installed
  have hnext := hs.next
  refine ⟨by rw [he.nextSeq, he.durableCommitSeq], he.current hs.current (by omega),
    fun txn p hp => ?_⟩
  obtain ⟨hp, hne⟩ := h.prepared txn p hp
  rw [HasDecision.congr (he.statusOf_eq hs.current hs.next fun c hc => (hcs c hc).2 txn hne)]
  exact hs.prepared txn p hp

lemma Writes.final {owner txn : TxnId} (h : Writes owner s s') (hs : Settled s)
    (hdec : s.HasDecision txn) : Final txn s s' := by
  obtain ⟨cs, he, hcs⟩ := h.installed
  have hne : txn ≠ owner := by
    rintro rfl
    exact h.undecided hdec
  refine ⟨he.statusOf_eq hs.current hs.next fun c hc => (hcs c hc).2 txn hne,
    fun _ k v e hv htxn => ?_⟩
  rcases he.versions_cases hv with hold | ⟨-, c, hc, -, rfl⟩
  · exact hold
  · rw [txnId_entry, (hcs c hc).1] at htxn
    exact absurd htxn.symm hne

end Store

namespace StoreCall

open Store

variable {s : Store}

lemma writes_of_committed {batch : CompiledBatch} {s' : Store} (h : Committed batch s s') :
    Writes batch.txnId s s' where
  installed := ⟨_, h.installed, fun _ hc =>
    batchCalls_spec (verify_of_validateAdmission h.admitted) hc⟩
  undecided := undecided_of_refuseDecidedTxn h.undecided
  prepared txn p hp := by
    rw [h.prepared] at hp
    refine ⟨hp, fun heq => h.unprepared ?_⟩
    rw [← heq, Std.ExtTreeMap.mem_iff_isSome_getElem?, hp]
    rfl

lemma prepared_erase {token : PreparedToken} {s' : Store}
    (h : s'.prepared = s.prepared.erase token.txnId) {txn : TxnId} {p : PreparedTxn}
    (hp : s'.prepared[txn]? = some p) : s.prepared[txn]? = some p ∧ txn ≠ token.txnId := by
  rw [h, FiniteMap.get_erase] at hp
  split_ifs at hp with heq
  exact ⟨hp, Ne.symm heq⟩

lemma writes_of_decided {token : PreparedToken} {s' : Store}
    {calls : PreparedTxn → List (InsertCall Bytes)} (hs : Settled s)
    (h : Decided token calls s s')
    (hcalls : ∀ p, p.batch.verify = .ok () → p.batch.txnId = token.txnId → ∀ c ∈ calls p,
      c.txnId = token.txnId ∧ ∀ txn, txn ≠ token.txnId → c.key ≠ txnStatusKey txn) :
    Writes token.txnId s s' := by
  obtain ⟨p, hp, -, he⟩ := h.installed
  obtain ⟨hverify, htxn, hundecided⟩ := hs.prepared _ p hp
  exact ⟨⟨calls p, he, hcalls p hverify htxn⟩, hundecided, fun _ _ => prepared_erase h.prepared⟩

/-- Only transactions without a decision are prepared. -/
def PreparesUndecided (s : Store) : StoreCall → Prop
  | prepare batch => ¬ s.HasDecision batch.txnId
  | _ => True

/-- What a call keeps that prepares no decided transaction. -/
lemma settled_run {c : StoreCall} (hs : Settled s) (hc : PreparesUndecided s c)
    (hrec : (c.run s).recoveryRequired = false) :
    Settled (c.run s) ∧ ∀ txn, s.HasDecision txn → Final txn s (c.run s) := by
  have hnext := hs.next
  have hcollected (h : Collected s (c.run s)) :
      Settled (c.run s) ∧ ∀ txn, s.HasDecision txn → Final txn s (c.run s) :=
    ⟨h.settled hs, fun txn _ => h.final txn⟩
  have hwrites {owner : TxnId} (h : Writes owner s (c.run s)) :
      Settled (c.run s) ∧ ∀ txn, s.HasDecision txn → Final txn s (c.run s) :=
    ⟨h.settled hs, fun _ => h.final hs⟩
  have hlt : s.durableCommitSeq < s.nextSeq := by omega
  rcases run_cases (c := c) hlt with (h | h) | h
  · exact hcollected h
  · rw [h] at hrec
    cases hrec
  cases c with
  | commit pressure batch => exact hwrites (writes_of_committed h)
  | commitProtocol pressure batch =>
    have hspare (txn : TxnId) : ∀ c ∈ protocolBatchCalls s.tree.versions s.durableCommitSeq
        batch.writes s.nextSeq, c.key ≠ txnStatusKey txn := by
      intro c hc
      obtain ⟨w, -, rfl⟩ := List.mem_map.mp hc
      exact logicalKey_ne_txnStatusKey w.key txn
    have hstatus (txn : TxnId) := h.installed.statusOf_eq hs.current hs.next (hspare txn)
    refine ⟨⟨by rw [h.installed.nextSeq, h.installed.durableCommitSeq],
      h.installed.current hs.current (by omega), fun txn p hp => ?_⟩,
      fun txn _ => ⟨hstatus txn, fun hzero k v e hv htxn => ?_⟩⟩
    · rw [HasDecision.congr (hstatus txn)]
      exact hs.prepared txn p (h.prepared ▸ hp)
    · rcases h.installed.versions_cases hv with hold | ⟨-, c, hc, -, rfl⟩
      · exact hold
      · obtain ⟨w, -, rfl⟩ := List.mem_map.mp hc
        rw [txnId_entry] at htxn
        exact absurd htxn.symm hzero
  | prepare batch =>
    rcases h.result with ⟨heq, -⟩ | ⟨hfree, j, lsn, heq⟩
    · rw [heq]
      exact ⟨hs, fun txn _ => Final.refl txn s⟩
    · rw [heq]
      refine ⟨⟨hs.next, hs.current, fun txn p hp => ?_⟩, fun txn _ => ⟨rfl, fun _ _ _ _ he _ => he⟩⟩
      rw [FiniteMap.get_insert] at hp
      split_ifs at hp with htxn
      · obtain rfl := Option.some.inj hp
        exact ⟨verify_of_validateAdmission h.admitted, htxn, htxn ▸ hc⟩
      · exact hs.prepared txn p hp
  | commitPrepared pressure token ref =>
    refine hwrites (writes_of_decided hs h fun p hverify htxn c hc => ?_)
    rw [← htxn]
    exact batchCalls_spec hverify hc
  | abortPrepared pressure token ref =>
    refine hwrites (writes_of_decided hs h fun p _ _ c hc => ?_)
    rw [List.mem_singleton.mp hc]
    exact ⟨rfl, fun txn hne hkey => hne (txnStatusKey_inj hkey).symm⟩
  | checkpoint pool => exact hcollected h
  | snapshot =>
    exact ⟨⟨hs.next, hs.current, hs.prepared⟩, fun txn _ => ⟨rfl, fun _ _ _ _ he _ => he⟩⟩
  | releaseSnapshot snap =>
    obtain ⟨m, hm⟩ := releaseSnapshot_eq s snap
    rw [run, hm]
    exact ⟨⟨hs.next, hs.current, hs.prepared⟩, fun txn _ => ⟨rfl, fun _ _ _ _ he _ => he⟩⟩
  | advanceStorageEpoch pool =>
    have hbase : Settled { s with snapshots := ∅, storageEpoch := s.storageEpoch + 1 } :=
      ⟨hs.next, hs.current, hs.prepared⟩
    have h' : Collected { s with snapshots := ∅, storageEpoch := s.storageEpoch + 1 } _ := h
    exact ⟨h'.settled hbase, fun txn _ => ⟨(h'.final txn).status, (h'.final txn).untouched⟩⟩

lemma settled_create {opts : StoreOptions} (h : Store.create opts = .ok s) : Settled s := by
  rw [create_eq, Except.ok.injEq] at h
  subst h
  refine ⟨rfl, fun k v e he => ?_, fun txn p hp => ?_⟩
  · exact absurd he (by simp [freshStore, BTree.versions, BTree.create, BTree.entries,
      PageTree.entries])
  · simp [freshStore] at hp

/-- A run that prepares no decided transaction keeps every decision. -/
lemma settled_of_run {s s' : Store} (hs : Settled s)
    (hrun : ReflTransGen (Step PreparesUndecided) s s') (hrec : s'.recoveryRequired = false) :
    Settled s' ∧ ∀ txn, s.HasDecision txn → Final txn s s' := by
  induction hrun with
  | refl => exact ⟨hs, fun txn _ => Final.refl txn s⟩
  | tail _ hstep ih =>
    obtain ⟨c, hc, rfl⟩ := hstep
    obtain ⟨hs', hfinal⟩ := ih (recovered_of_run hrec)
    obtain ⟨hs'', hfinal'⟩ := settled_run hs' hc hrec
    refine ⟨hs'', fun txn hdec => (hfinal txn hdec).trans (hfinal' txn ?_)⟩
    exact (HasDecision.congr (hfinal txn hdec).status).mpr hdec

section Sample

/-- An installed transaction, from its first status on. -/
def sampleStatus : TxnStatusRecord :=
  ⟨1, .installed, ⟨Id128.nil _, 0, Hash256.zero⟩, [], none, none, none, none⟩

def sampleTxn : TxnId := ⟨1 :: List.replicate 31 0, rfl⟩

def sampleRequest : RequestKey := ⟨Id128.nil _, Id128.nil _, Id128.nil _⟩

/-- A batch that writes the status of its transaction, without its digest. -/
def unsealedBatch : CompiledBatch where
  batchVersion := 1
  txnId := sampleTxn
  requestKey := sampleRequest
  requestHash := Hash256.zero
  operation := ⟨0, 1⟩
  operationHash := Hash256.zero
  contractHash := Hash256.zero
  schemaHash := Hash256.zero
  plan := sampleStatus.plan
  idcBindings := []
  consistencyClass := .c5Serial
  origin := none
  semanticEvidence := []
  capturedInputs := []
  mutations := []
  protocolMutations := [.setTxnStatus ⟨sampleTxn, sampleRequest, Hash256.zero, .absent, sampleStatus⟩]
  terminalOutcome := none
  semanticDigest := Hash256.zero

def sampleBatch : CompiledBatch :=
  { unsealedBatch with
    semanticDigest := domainHash "astra.batch.v1" unsealedBatch.semanticPayload.encode }

lemma seal_unsealedBatch : unsealedBatch.seal_ = .ok sampleBatch := by
  have hdistinct : unsealedBatch.distinctSets = true := by decide
  rw [CompiledBatch.seal_, CompiledBatch.computeDigest, if_pos hdistinct, CoreResult.ok_bind]
  rfl

lemma serving_freshStore (opts : StoreOptions) : Serving (freshStore opts) where
  recovered := rfl
  ready := rfl
  anyPlan := rfl
  anySchema := rfl
  next := rfl
  current := (settled_create (create_eq opts)).current
  small := BTree.small_create

lemma admitted_sampleBatch {s : Store} (hs : Serving s) :
    s.validateAdmission sampleBatch = .ok () := by
  have hverify := CompiledBatch.verify_of_seal seal_unsealedBatch rfl rfl (by decide) rfl
  rw [hs.validateAdmission_eq, hverify]
  rfl

lemma length_sampleBatch : (toCanon sampleBatch).encode.length ≤ 3000 + 87 := by
  have hfields : (sampleBatch.semanticFields.map CanonValue.fieldLen).sum ≤ 3000 := by
    decide +kernel
  exact sampleBatch.length_encode_le hfields

/-- The sample batch installs one status. -/
lemma batchCalls_sampleBatch (m : Rows) (visible seq : ℕ) :
    batchCalls m visible sampleBatch seq none = [statusCall sampleTxn sampleStatus seq] := rfl

/-- A status that was inserted first at its key is what is read. -/
lemma statusOf_of_extends {s s' : Store} {cs : List (InsertCall Bytes)} {txn : TxnId}
    {rec : TxnStatusRecord} {seq : ℕ} (h : Extends cs s s') (hs : Serving s)
    (hfind : cs.find? (fun c => c.key = txnStatusKey txn) = some (statusCall txn rec seq)) :
    s'.statusOf txn = (Canonical.decode (Canonical.encode rec) Limits.v1).map some := by
  have hvalue := InsertCall.valueOf_entry (c := statusCall txn rec seq)
    (by change flagSystem &&& _ = 0; decide) (by change flagSystem &&& _ = 0; decide)
  rw [statusOf, statusAt, valueAt, h.newest_eq hs.current hs.lt hs.next, hfind, Option.map_some,
    Option.some_or, hvalue]
  rfl

lemma find_statusCall (txn : TxnId) (rec : TxnStatusRecord) (seq : ℕ) :
    [statusCall txn rec seq].find? (fun c => c.key = txnStatusKey txn) =
      some (statusCall txn rec seq) := by
  simp [statusCall]

lemma decode_sampleStatus :
    Canonical.decode (Canonical.encode sampleStatus) Limits.v1 = .ok sampleStatus := by
  decide +kernel

/-- A new store commits the sample batch. -/
lemma commit_sampleBatch : ∃ res s, Store.commit calm sampleBatch (freshStore sampleOptions) =
    (.ok res, s) ∧ Committed sampleBatch (freshStore sampleOptions) s ∧
      Advanced 1 (freshStore sampleOptions) s := by
  have hs := serving_freshStore sampleOptions
  have hundecided : (freshStore sampleOptions).refuseDecidedTxn sampleTxn = .ok () := by
    decide +kernel
  have hpre : (freshStore sampleOptions).validateProtocolPreconditions []
      sampleBatch.protocolMutations = .ok () := by
    decide +kernel
  have hlen : (commitPayload sampleBatch 1).encode.length ≤ maxJournalPayload := by
    have hbatch := length_sampleBatch
    have hpayload := length_commitPayload_le sampleBatch 1
    rw [maxJournalPayload]
    omega
  refine commit_ends hs (admitted_sampleBatch hs) hundecided hpre
    (by simp [freshStore]) ⟨by decide, by decide, by decide⟩ (fun c hc => ?_) (fun w hw => ?_) hlen
  · rw [batchCalls_sampleBatch, List.mem_singleton] at hc
    rw [hc]
    exact fits_statusCall _ (by decide +kernel)
  · simp [sampleBatch, unsealedBatch] at hw

lemma statusOf_committed_sampleBatch {s : Store}
    (h : Committed sampleBatch (freshStore sampleOptions) s) :
    s.statusOf sampleTxn = .ok (some sampleStatus) := by
  have hinstalled := h.installed
  rw [batchCalls_sampleBatch] at hinstalled
  rw [statusOf_of_extends hinstalled (serving_freshStore _) (find_statusCall _ _ _),
    decode_sampleStatus]
  rfl

end Sample

/-- The reference an abort is recorded with. -/
def sampleRef : ProtocolRecordRef := ⟨"local_decision", 1, [], Hash256.zero⟩

def abortedStatus : TxnStatusRecord :=
  { sampleStatus with phase := .aborted, decisionRef := some sampleRef }

end StoreCall

end CarolinaDB.Storage
