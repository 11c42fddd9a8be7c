import CarolinaDB.BTreeProgress
import CarolinaDB.CanonSize
import CarolinaDB.StoreSteps

/-!
# Calls that pass their checks succeed

Behind its checks a call can fail only in the journal or in the tree. With small
entries and counters that are not exhausted neither does, so what a call returns is
decided by the checks.
-/
namespace CarolinaDB.Storage

open CanonValue

namespace BTree
variable {V : Type} [ByteLen V] {t : BTree V}

/-- Versions newer than what is visible that all have one sequence are at most one. -/
lemma newer_le_one {key : Bytes} {visible : ℕ} (seq : ℕ)
    (h : ∀ e ∈ t.entries, e.key = key → visible < e.seq → e.seq = seq) :
    newer key visible t.entries ≤ 1 := by
  have hsorted := t.sorted_entries
  generalize t.entries = es at h hsorted
  induction es with
  | nil => simp [newer]
  | cons e es ih =>
    obtain ⟨hlt, hsorted⟩ := List.pairwise_cons.mp hsorted
    have ih := ih (fun x hx => h x (List.mem_cons_of_mem _ hx)) hsorted
    by_cases he : e.key = key ∧ visible < e.seq
    · have hnone : newer key visible es = 0 := by
        rw [newer, List.countP_eq_zero]
        intro x hx hnew
        rw [decide_eq_true_iff] at hnew
        have hseq := h e (List.mem_cons_self ..) he.1 he.2
        have hxseq := h x (List.mem_cons_of_mem _ hx) hnew.1 hnew.2
        rcases position_lt.mp (hlt x hx) with hk | ⟨-, hs⟩
        · rw [he.1, hnew.1] at hk
          exact lt_irrefl _ hk
        · omega
      rw [newer, List.countP_cons_of_pos (by simpa using he)]
      exact Nat.succ_le_succ hnone.le
    · rw [newer, List.countP_cons_of_neg (by simpa using he)]
      exact ih

/-- A read below which a key has at most one version returns. -/
lemma getVersion_eq_newest {key : Bytes} {visible seq : ℕ} (hheight : t.height < 64)
    (h : ∀ v e, t.versions key v = some e → v ≤ visible ∨ v = seq) :
    t.getVersion key visible = .ok (t.versions.newest key visible) := by
  have hcount : newer key visible t.entries ≤ 1 := by
    refine newer_le_one seq fun e he hk hlt => ?_
    rcases h e.seq e (versions_eq_some_iff.mpr ⟨he, hk, rfl⟩) with hle | hseq
    · omega
    · exact hseq
  obtain ⟨r, hr, hnewest⟩ := (getVersion_iff hheight key visible).mpr
    (getEnds_of_newer hheight (by omega))
  rw [hr, isNewest_iff.mp hnewest]

lemma Small.persistWithGc {gcHorizon : Option ℕ} {visited : List ℕ → Bool} (h : t.Small) :
    (t.persistWithGc gcHorizon visited).Small :=
  Packed.mapLeaves h (fun path _ => persistLeaf_sublist (visited path))
    fun path _ => persistLeaf_ne_nil (visited path)

end BTree

lemma length_keyBytes_le (v : Bytes) : (keyBytes v).length ≤ 2 * v.length + 3 := by
  have hescaped (v : Bytes) :
      (v.flatMap fun b : UInt8 => if b = 0 then [0x00, 0xff] else [b]).length ≤ 2 * v.length := by
    induction v with
    | nil => simp
    | cons b v ih =>
      rw [List.flatMap_cons, List.length_append, List.length_cons]
      split_ifs <;> simp only [List.length_cons, List.length_nil] <;> omega
  have := hescaped v
  simp only [keyBytes, List.length_cons, List.length_append, List.length_nil]
  omega

lemma length_txnStatusKey_le (txn : TxnId) : (txnStatusKey txn).length ≤ maxSmallKey := by
  have hname : (keyStr "txn_status").length = 13 := by decide +kernel
  have hid := length_keyBytes_le txn.val
  rw [txn.property] at hid
  simp only [txnStatusKey, List.length_cons, List.length_append, hname, maxSmallKey]
  omega

namespace InsertCall

/-- What an insert takes from a page. -/
def Fits (c : InsertCall Bytes) : Prop :=
  SmallEntry c.entry ∧ c.value.length ≤ maxValueLen

/-- Longest metadata that always leaves an entry small. -/
def maxSmallMeta : ℕ := 1229

lemma fits_of_length {c : InsertCall Bytes} (hk : c.key.length ≤ maxSmallKey)
    (hm : c.metadata.length ≤ maxSmallMeta) (hv : c.value.length ≤ maxValueLen) : c.Fits := by
  refine ⟨⟨?_, ?_⟩, hv⟩
  · rw [entry, newEntry]
    split_ifs with hlong
    · simp only [LeafEntry.encodedLen, maxSmallRecord, maxSmallKey, maxSmallMeta] at *
      omega
    · have hshort : c.value.length ≤ maxInlineValue := not_lt.mp hlong
      have hlen : byteLen c.value = c.value.length := rfl
      simp only [LeafEntry.encodedLen, maxSmallRecord, maxSmallKey, maxSmallMeta,
        maxInlineValue] at *
      omega
  · rw [entry, newEntry_key]
    exact hk

/-- A value that was written without the reserved bits is read back. -/
lemma valueOf_entry {c : InsertCall Bytes} (hlive : c.flags &&& entryFlagTombstone = 0)
    (hflags : c.flags &&& entryFlagOverflow = 0) : Store.valueOf (some c.entry) = .ok (some c.value) := by
  have hbits : ∀ f : UInt8, f &&& entryFlagTombstone = 0 → f &&& entryFlagOverflow = 0 →
      (f ||| entryFlagOverflow) &&& entryFlagTombstone = 0 ∧
        (f ||| entryFlagOverflow) &&& entryFlagOverflow ≠ 0 := by
    decide +kernel
  obtain ⟨hover, hset⟩ := hbits c.flags hlive hflags
  rw [entry, newEntry]
  split_ifs
  · simp [Store.valueOf, LeafEntry.isTombstone, LeafEntry.readValue, hover, hset]
    rfl
  · simp [Store.valueOf, LeafEntry.isTombstone, LeafEntry.readValue, hlive, hflags]
    rfl

end InsertCall

namespace Store

variable {s s' : Store}

lemma fits_statusCall {txn : TxnId} {rec : TxnStatusRecord} (seq : ℕ)
    (h : (Canonical.encode rec).length ≤ maxValueLen) : (statusCall txn rec seq).Fits :=
  InsertCall.fits_of_length (length_txnStatusKey_le txn) (Nat.zero_le _) h

section Reading

/-- The store shows the rows a batch is installed on: nothing but the batch's own versions is newer
than what is visible, and there is room for `n` more entries. -/
structure Reading (m : Rows) (visible seq n : ℕ) (s : Store) : Prop where
  shows : Shows m visible s
  room : s.tree.entries.length + n < 2 ^ 64
  newer : ∀ k v e, s.tree.versions k v = some e → v ≤ s.durableCommitSeq ∨ v = seq

/-- The revision of a record write can be computed: what is there is a record, and the next
revision has a number. -/
def Revisable (m : Rows) (visible : ℕ) (w : ProtocolRecordWrite) : Prop :=
  match w.expected with
  | .absent => ∃ r, recordAt m visible w.key.logicalKey = .ok r
  | .exact r => r.toNat + 1 < 2 ^ 64

namespace Reading
variable {m : Rows} {visible seq n : ℕ} (h : Reading m visible seq n s)
include h

lemma height_lt : s.tree.height < 64 := BTree.height_lt (by have := h.room; omega)

lemma currentValue_eq (key : Bytes) : s.currentValue key = valueAt m visible key := by
  rw [currentValue, BTree.getVersion_eq_newest h.height_lt (h.newer key), h.shows]
  rfl

lemma currentRecord_eq (key : LogicalKey) : s.currentRecord key = recordAt m visible key := by
  rw [currentRecord, h.currentValue_eq]
  rfl

lemma installedRevision_eq {w : ProtocolRecordWrite} (hw : Revisable m visible w) :
    s.installedRevision w = .ok (revisionAt m visible w) := by
  unfold Revisable at hw
  unfold installedRevision revisionAt
  cases hexp : w.expected with
  | exact r =>
    rw [hexp] at hw
    simp only [checkedSucc, if_pos hw]
    rfl
  | absent =>
    rw [hexp] at hw
    obtain ⟨r, hr⟩ := hw
    rw [h.currentRecord_eq, hr]
    rcases r with _ | ⟨cur, existing⟩ <;> rfl

end Reading

end Reading

section Inserts

/-- Insert versions in turn. -/
def insertAll : List (InsertCall Bytes) → StoreM Unit
  | [] => pure ()
  | c :: cs => do
    insertVersion c
    insertAll cs

lemma insertAll_append (cs ds : List (InsertCall Bytes)) :
    insertAll (cs ++ ds) = insertAll cs >>= fun _ => insertAll ds := by
  induction cs with
  | nil => rfl
  | cons c cs ih => rw [List.cons_append, insertAll, insertAll, ih, bind_assoc]

lemma insertAll_singleton (c : InsertCall Bytes) : insertAll [c] = insertVersion c := by
  rw [insertAll, insertAll]
  exact bind_pure _

lemma insertAll_ok {cs : List (InsertCall Bytes)} (h : insertAll cs s = (.ok (), s')) :
    Installs cs s s' := by
  induction cs generalizing s with
  | nil =>
    rw [insertAll, Attempt.pure_run, Attempt.end_eq_iff] at h
    exact h.2 ▸ Installs.nil s
  | cons c cs ih =>
    obtain ⟨_, s₁, hins, h⟩ := Attempt.bind_eq_ok h
    exact (insertVersion_ok hins).append (ih h)

lemma entries_of_installs {cs : List (InsertCall Bytes)} (hins : Installs cs s s') :
    s'.tree.entries.length ≤ s.tree.entries.length + cs.length := by
  obtain ⟨t, ht, rfl⟩ := hins
  exact (InsertCall.runAll_spec ht).2.1

lemma insertVersion_ends {c : InsertCall Bytes} (hsmall : s.tree.Small)
    (hroom : s.tree.entries.length < 2 ^ 64) (hc : c.Fits) :
    (insertVersion c).Ends s fun _ s' => Installs [c] s s' ∧ s'.tree.Small := by
  obtain ⟨b, t, hrun, hsmall'⟩ := BTree.insertVersion_ok (BTree.height_lt hroom) hsmall hc.2 hc.1
  have hins : insertVersion c s = (.ok (), { s with tree := t }) := by
    have hrun' : c.run s.tree = .ok (b, t) := hrun
    simp [insertVersion, hrun']
  exact ⟨(), _, hins, insertVersion_ok hins, hsmall'⟩

/-- Small entries are inserted. -/
lemma insertAll_ends {cs : List (InsertCall Bytes)} (hsmall : s.tree.Small)
    (hroom : s.tree.entries.length + cs.length < 2 ^ 64) (hcs : ∀ c ∈ cs, c.Fits) :
    (insertAll cs).Ends s fun _ s' => Installs cs s s' ∧ s'.tree.Small := by
  induction cs generalizing s with
  | nil => exact Attempt.Ends.pure ⟨Installs.nil s, hsmall⟩
  | cons c cs ih =>
    obtain ⟨hc, hcs⟩ := List.forall_mem_cons.mp hcs
    rw [List.length_cons] at hroom
    refine (insertVersion_ends hsmall (by omega) hc).bind ?_
    rintro _ s₁ ⟨hins, hsmall₁⟩
    have hcount := entries_of_installs hins
    rw [List.length_singleton] at hcount
    obtain ⟨_, s₂, hrun, hins₂, hsmall₂⟩ := ih hsmall₁ (by omega) hcs
    exact ⟨_, s₂, hrun, hins.append hins₂, hsmall₂⟩

end Inserts

section Install
variable {m : Rows} {visible seq n : ℕ} {txn : TxnId}

lemma Reading.installs (cs : List (InsertCall Bytes)) (h : Reading m visible seq (n + cs.length) s)
    (hseq : ∀ c ∈ cs, c.seq.toNat = seq) (hc : ∀ c ∈ cs, Unseen m visible s.durableCommitSeq c)
    (hins : Installs cs s s') :
    Reading m visible seq n s' ∧ s'.durableCommitSeq = s.durableCommitSeq := by
  obtain ⟨hshows, hdur⟩ := h.shows.installs_unseen hc hins
  have hcount := entries_of_installs hins
  have hroom := h.room
  refine ⟨⟨hshows, by omega, fun k v e he => ?_⟩, hdur⟩
  rw [hdur]
  obtain ⟨t, ht, rfl⟩ := hins
  obtain ⟨hmem, hk, hv⟩ := BTree.versions_eq_some_iff.mp he
  rcases (InsertCall.runAll_spec ht).2.2 e hmem with hold | ⟨d, hd, rfl⟩
  · exact h.newer k v e (BTree.versions_eq_some_iff.mpr ⟨hold, hk, hv⟩)
  · have hentry : d.entry.seq = d.seq.toNat := newEntry_seq ..
    exact Or.inr (hv.symm.trans (hentry.trans (hseq d hd)))

lemma installMutations_eq (ms : List StorageMutation) :
    installMutations txn seq ms = insertAll (ms.map (mutationCall txn seq)) := by
  induction ms with
  | nil => rfl
  | cons x ms ih => rw [installMutations, List.map_cons, insertAll, ih]

lemma Reading.installProtocolMutation_eq {pm : ProtocolMutation} (h : Reading m visible seq n s)
    (hpm : ∀ w, pm = .putRecord w → Revisable m visible w) :
    installProtocolMutation txn seq pm s = insertVersion (protocolCall m visible txn seq none pm) s := by
  cases pm with
  | putRecord w =>
    rw [installProtocolMutation, Attempt.get_bind_run, h.installedRevision_eq (hpm w rfl)]
    rfl
  | setTxnStatus t =>
    simp [installProtocolMutation, protocolCall, statusWritten]

/-- One protocol mutation of a list that is installed. -/
lemma Reading.cons_eq {x : StoreM Unit} {pm : ProtocolMutation} {cs : List (InsertCall Bytes)}
    (h : Reading m visible seq (n + 1) s) (hseq : seq < 2 ^ 64)
    (hpm : ∀ w, pm = .putRecord w → Revisable m visible w)
    (hunseen : Unseen m visible s.durableCommitSeq (protocolCall m visible txn seq none pm))
    (hrest : ∀ s₁, Reading m visible seq n s₁ → s₁.durableCommitSeq = s.durableCommitSeq →
      x s₁ = insertAll cs s₁) :
    (installProtocolMutation txn seq pm >>= fun _ => x) s =
      insertAll (protocolCall m visible txn seq none pm :: cs) s := by
  rw [insertAll, Attempt.bind_run, h.installProtocolMutation_eq hpm, ← Attempt.bind_run]
  refine Attempt.bind_congr_run fun _ s₁ hins => ?_
  obtain ⟨h₁, hdur⟩ := h.installs [protocolCall m visible txn seq none pm]
    (by simpa using seq_protocolCall hseq pm) (by simpa using hunseen) (insertVersion_ok hins)
  exact hrest s₁ h₁ hdur

lemma Reading.installProtocolMutations_eq {pms : List ProtocolMutation}
    (h : Reading m visible seq (n + pms.length) s) (hseq : seq < 2 ^ 64)
    (hpms : ∀ w, .putRecord w ∈ pms → Revisable m visible w)
    (hunseen : ∀ pm ∈ pms, Unseen m visible s.durableCommitSeq
      (protocolCall m visible txn seq none pm)) :
    (installProtocolMutations txn seq none pms >>= fun _ => pure ()) s =
      insertAll (pms.map (protocolCall m visible txn seq none)) s := by
  induction pms generalizing s with
  | nil => rfl
  | cons pm pms ih =>
    have hloop : (installProtocolMutations txn seq none (pm :: pms) >>= fun _ => pure ()) s =
        (installProtocolMutation txn seq pm >>= fun _ =>
          installProtocolMutations txn seq none pms >>= fun _ => pure ()) s := by
      have hstep : installProtocolMutations txn seq none (pm :: pms) =
          installProtocolMutation txn seq pm >>= fun _ =>
            installProtocolMutations txn seq none pms := by
        cases pm <;> rfl
      rw [hstep, bind_assoc]
    rw [hloop, List.map_cons]
    refine h.cons_eq hseq (fun w hw => hpms w (hw ▸ List.mem_cons_self ..))
      (hunseen pm (List.mem_cons_self ..)) fun s₁ h₁ hdur => ?_
    exact ih h₁ (fun w hw => hpms w (List.mem_cons_of_mem _ hw)) fun x hx =>
      hdur ▸ hunseen x (List.mem_cons_of_mem _ hx)

/-- A batch is installed by its inserts. -/
lemma Reading.installBatch_eq {batch : CompiledBatch}
    (h : Reading m visible seq (n + (batchCalls m visible batch seq none).length) s)
    (hseq : seq < 2 ^ 64) (hpms : ∀ w, .putRecord w ∈ batch.protocolMutations → Revisable m visible w)
    (hunseen : ∀ c ∈ batchCalls m visible batch seq none, Unseen m visible s.durableCommitSeq c) :
    installBatch batch seq none s = insertAll (batchCalls m visible batch seq none) s := by
  have hcalls : batchCalls m visible batch seq none = batch.mutations.map (mutationCall batch.txnId seq) ++
      batch.protocolMutations.map (protocolCall m visible batch.txnId seq none) := by
    rw [batchCalls, extraStatus, List.append_nil]
  have hrun : installBatch batch seq none s =
      (insertAll (batch.mutations.map (mutationCall batch.txnId seq)) >>= fun _ =>
        installProtocolMutations batch.txnId seq none batch.protocolMutations >>= fun _ => pure ()) s := by
    rw [installBatch, installMutations_eq]
  rw [hcalls, List.length_append, List.length_map, List.length_map] at h
  rw [hcalls] at hunseen
  rw [hrun, hcalls, insertAll_append]
  refine Attempt.bind_congr_run fun _ s₁ hins => ?_
  have hroom := h.room
  have hinstalls := insertAll_ok hins
  obtain ⟨h₁, hdur⟩ := Reading.installs (n := n + batch.protocolMutations.length) _
    (by rw [List.length_map, Nat.add_assoc, Nat.add_comm batch.protocolMutations.length]; exact h)
    (fun c hc => by obtain ⟨x, -, rfl⟩ := List.mem_map.mp hc; exact seq_mutationCall hseq x)
    (fun c hc => hunseen c (List.mem_append_left _ hc)) hinstalls
  exact h₁.installProtocolMutations_eq hseq hpms fun pm hpm =>
    hdur ▸ hunseen _ (List.mem_append_right _ (List.mem_map_of_mem hpm))

lemma Reading.installProtocolBatch_eq {ws : List ProtocolRecordWrite}
    (h : Reading m visible seq (n + ws.length) s) (hseq : seq < 2 ^ 64)
    (hws : ∀ w ∈ ws, Revisable m visible w)
    (hunseen : ∀ c ∈ protocolBatchCalls m visible ws seq, Unseen m visible s.durableCommitSeq c) :
    installProtocolBatch seq ws s = insertAll (protocolBatchCalls m visible ws seq) s := by
  induction ws generalizing s with
  | nil => rfl
  | cons w ws ih =>
    refine h.cons_eq hseq (fun w' hw => ?_) (hunseen _ (List.mem_cons_self ..)) fun s₁ h₁ hdur => ?_
    · obtain rfl := ProtocolMutation.putRecord.inj hw
      exact hws w (List.mem_cons_self ..)
    · exact ih h₁ (fun x hx => hws x (List.mem_cons_of_mem _ hx)) fun c hc =>
        hdur ▸ hunseen c (List.mem_cons_of_mem _ hc)

end Install

section Durable
variable {α : Type}

lemma durably_ends {x : StoreM α} {Q : α → Store → Prop} (hrec : s.recoveryRequired = false)
    (h : x.Ends s Q) : (durably x).Ends s Q := by
  obtain ⟨a, s', hx, hq⟩ := h
  exact ⟨a, s', by simp only [durably, requireRecovered_eq_ok.mpr hrec, hx], hq⟩

lemma journalFrame_ends {kind : JournalRecordKind} {txn : TxnId} {payload : CanonValue}
    (hlen : payload.encode.length ≤ maxJournalPayload) (hlsn : s.journal.nextLsn + 1 < 2 ^ 64) :
    (journalFrame kind txn payload).Ends s fun _ s' =>
      ∃ j, s' = { s with journal := j } ∧ j.nextLsn = s.journal.nextLsn + 1 := by
  obtain ⟨lsn, j, happend, hnext⟩ : ∃ lsn j,
      s.journal.append kind txn payload.encode = .ok (lsn, j) ∧
        j.nextLsn = s.journal.nextLsn + 1 := by
    rw [Journal.append, if_neg (not_lt.mpr hlen), if_neg (not_le.mpr hlsn)]
    refine ⟨_, _, rfl, ?_⟩
    split_ifs <;> rfl
  exact Attempt.Ends.get_bind (Attempt.Ends.liftM_bind happend
    (Attempt.Ends.set_bind (Attempt.Ends.pure ⟨j.sync, rfl, hnext⟩)))

lemma publishSeq_ends {seq : ℕ} (h : seq + 1 < 2 ^ 64) : (publishSeq seq).Ends s fun _ s' =>
    s' = { s with durableCommitSeq := seq, nextSeq := seq + 1 } :=
  Attempt.Ends.liftM_bind (if_pos h) ⟨_, _, rfl, rfl⟩

end Durable

/-- A handle in service, with small entries only. -/
structure Serving (s : Store) : Prop where
  recovered : s.recoveryRequired = false
  ready : s.readiness = .ready
  anyPlan : s.minPlanGeneration = 0
  anySchema : s.activeSchema = none
  next : s.nextSeq = s.durableCommitSeq + 1
  current : Current s
  small : s.tree.Small

namespace Serving

lemma lt (h : Serving s) : s.durableCommitSeq < s.nextSeq := by
  have := h.next
  omega

lemma validateAdmission_eq (h : Serving s) (batch : CompiledBatch) :
    s.validateAdmission batch = (do
      batch.verify
      checkSizes batch.mutations) := by
  have hplan : ¬ batch.plan.generation < s.minPlanGeneration := by
    rw [h.anyPlan]
    exact UInt64.not_lt_zero
  rw [validateAdmission, requireRecovered_eq_ok.mpr h.recovered, h.ready, h.anySchema]
  simp only [CoreResult.ok_bind, ne_eq, not_true_eq_false, if_false, if_neg hplan, Option.any_none,
    Bool.false_eq_true]
  rcases batch.verify with e | u
  · rfl
  · cases hsizes : checkSizes batch.mutations <;> rfl

/-- A read of the current state returns. -/
lemma reading (h : Serving s) (hroom : s.tree.entries.length < 2 ^ 64) :
    Reading s.tree.versions s.durableCommitSeq s.nextSeq 0 s :=
  ⟨Shows.refl s, hroom, fun k v e he => Or.inl (h.current k v e he)⟩

lemma txnStatus_eq (h : Serving s) (hroom : s.tree.entries.length < 2 ^ 64) (txn : TxnId) :
    s.txnStatus txn = s.statusOf txn := by
  rw [txnStatus, requireRecovered_eq_ok.mpr h.recovered, CoreResult.ok_bind,
    (h.reading hroom).currentValue_eq]
  rfl

lemma currentRecord_eq (h : Serving s) (hroom : s.tree.entries.length < 2 ^ 64)
    (key : LogicalKey) : s.currentRecord key = s.recordOf key :=
  (h.reading hroom).currentRecord_eq key

end Serving

section Checkpoint

/-- A checkpoint may have been made. The inserts behind it do not notice. -/
structure Checked (s s₁ : Store) : Prop where
  collected : Collected s s₁
  entries : s₁.tree.entries.length ≤ s.tree.entries.length
  empty : s₁.tree.entries = [] ↔ s.tree.entries = []
  small : s.tree.Small → s₁.tree.Small
  lsns : s₁.journal.nextLsn ≤ s.journal.nextLsn + 2

lemma Checked.refl (s : Store) : Checked s s :=
  ⟨Collected.refl s, le_rfl, Iff.rfl, id, Nat.le_add_right _ _⟩

lemma Checked.serving (h : Checked s s') (hs : Serving s) : Serving s' where
  recovered := h.collected.recoveryRequired.trans hs.recovered
  ready := by
    rw [h.collected.frame]
    exact hs.ready
  anyPlan := by
    rw [h.collected.frame]
    exact hs.anyPlan
  anySchema := by
    rw [h.collected.frame]
    exact hs.anySchema
  next := by
    rw [h.collected.nextSeq, h.collected.durableCommitSeq]
    exact hs.next
  current := h.collected.current hs.current
  small := h.small hs.small

/-- The rows that are installed on, behind a checkpoint and a frame. -/
lemma Checked.reading {n : ℕ} (h : Checked s s') (hcurrent : Current s)
    (hroom : s.tree.entries.length + n < 2 ^ 64) (j : Journal) :
    Reading s.tree.versions s.durableCommitSeq s'.nextSeq n { s' with journal := j } where
  shows := h.collected.newest
  room := (Nat.add_le_add_right h.entries n).trans_lt hroom
  newer k v e he := Or.inl (h.collected.current hcurrent k v e he)

lemma length_checkpointBegin (lsn seq : UInt64) : (build [
    ("kind", .str "checkpoint_begin"), ("target_lsn", uint lsn),
    ("target_seq", uint seq)]).encode.length ≤ maxJournalPayload := by
  have hlsn := length_encode_uint lsn
  have hseq := length_encode_uint seq
  have hkind : (str "checkpoint_begin").encode.length = 18 := by decide +kernel
  refine (length_build_le ["kind", "target_lsn", "target_seq"] rfl (by decide +kernel : _ ≤ 40)).trans ?_
  simp only [List.map_cons, List.map_nil, List.sum_cons, List.sum_nil, hkind, maxJournalPayload]
  omega

lemma length_checkpointEnd (lsn : UInt64) : (build [
    ("checkpoint_lsn", uint lsn), ("kind", .str "checkpoint_end")]).encode.length ≤
      maxJournalPayload := by
  have hlsn := length_encode_uint lsn
  have hkind : (str "checkpoint_end").encode.length = 16 := by decide +kernel
  refine (length_build_le ["checkpoint_lsn", "kind"] rfl (by decide +kernel : _ ≤ 30)).trans ?_
  simp only [List.map_cons, List.map_nil, List.sum_cons, List.sum_nil, hkind, maxJournalPayload]
  omega

lemma publishManifest_tree (m : Manifest) (s : Store) : (publishManifest m s).tree = s.tree := by
  rw [publishManifest]
  split_ifs <;> rfl

lemma publishManifest_journal (m : Manifest) (s : Store) :
    (publishManifest m s).journal = s.journal := by
  rw [publishManifest]
  split_ifs <;> rfl

lemma checkpoint_runs {pool : PoolState} (hrec : s.recoveryRequired = false)
    (hlsn : s.journal.nextLsn + 2 < 2 ^ 64) :
    (checkpoint pool).Ends s fun _ s' => s'.tree = s.tree.persistWithGc
      (if s.opts.reclaimAtCheckpoint then some s.oldestSnapshot else none) pool.visited ∧
      s'.journal.nextLsn = s.journal.nextLsn + 2 := by
  refine durably_ends hrec (Attempt.Ends.get_bind ?_)
  refine (journalFrame_ends (length_checkpointBegin _ _) (by omega)).bind ?_
  rintro _ _ ⟨j, rfl, hj⟩
  refine Attempt.Ends.get_bind (Attempt.Ends.set_bind (Attempt.Ends.get_bind
    (Attempt.Ends.set_bind ?_)))
  have hjournal (b : Bool) (n : ℕ) (s : Store) :
      (if b then s.journal.reclaimSegmentsBelow n else s.journal).nextLsn = s.journal.nextLsn := by
    cases b <;> rfl
  refine (journalFrame_ends (length_checkpointEnd _) ?_).bind ?_
  · rw [hjournal, publishManifest_journal]
    change j.nextLsn + 1 < 2 ^ 64
    omega
  · rintro _ _ ⟨j', rfl, hj'⟩
    refine Attempt.Ends.pure ⟨publishManifest_tree _ _, ?_⟩
    rw [hjournal, publishManifest_journal] at hj'
    exact hj'.trans (by rw [hj])

theorem checkpoint_ends {pool : PoolState} (hrec : s.recoveryRequired = false)
    (hlsn : s.journal.nextLsn + 2 < 2 ^ 64) :
    (checkpoint pool).Ends s fun _ s₁ =>
      Checked s s₁ ∧ s₁.journal.nextLsn = s.journal.nextLsn + 2 := by
  obtain ⟨info, s₁, hrun, htree, hnext⟩ := @checkpoint_runs _ pool hrec hlsn
  have hsub := @BTree.entries_persistWithGc_sublist _ _ s.tree
    (if s.opts.reclaimAtCheckpoint then some s.oldestSnapshot else none) pool.visited
  refine ⟨info, s₁, hrun, ⟨?_, ?_, ⟨?_, ?_⟩, ?_, hnext.le⟩, hnext⟩
  · rcases checkpoint_cases hrun with ⟨-, -, h⟩ | ⟨⟨e, he⟩, -⟩
    · exact h
    · cases he
  · rw [htree]
    exact hsub.length_le
  · rw [htree]
    intro hnil
    by_contra hne
    exact PageTree.entries_mapLeaves_ne_nil
      (fun path es => persistLeaf_ne_nil (pool.visited path)) hne hnil
  · rw [htree]
    intro hnil
    rw [hnil] at hsub
    exact List.sublist_nil.mp hsub
  · rw [htree]
    exact BTree.Small.persistWithGc

lemma maybeAutoCheckpoint_ends {pool : Option PoolState} (hrec : s.recoveryRequired = false)
    (hlsn : s.journal.nextLsn + 2 < 2 ^ 64) :
    (maybeAutoCheckpoint pool).Ends s fun _ s₁ => Checked s s₁ ∧
      if pool.isSome then s₁.journal.nextLsn = s.journal.nextLsn + 2 else s₁ = s := by
  cases pool with
  | none => exact Attempt.Ends.pure ⟨Checked.refl s, rfl⟩
  | some pool => exact (checkpoint_ends hrec hlsn).bind fun _ _ h => Attempt.Ends.pure h

end Checkpoint

section Payloads

lemma length_commitPayload_le (batch : CompiledBatch) (seq : ℕ) :
    (commitPayload batch seq).encode.length ≤ (toCanon batch).encode.length + 64 := by
  have hseq := length_encode_uint (UInt64.ofNat seq)
  have hkind : (str "commit_batch").encode.length = 14 := by decide +kernel
  refine (length_build_le ["batch", "kind", "seq"] rfl (by decide +kernel : _ ≤ 26)).trans ?_
  simp only [List.map_cons, List.map_nil, List.sum_cons, List.sum_nil, hkind]
  omega

lemma length_preparePayload_le (batch : CompiledBatch) :
    (preparePayload batch).encode.length ≤ (toCanon batch).encode.length + 64 := by
  have hkind : (str "prepare_batch").encode.length = 15 := by decide +kernel
  refine (length_build_le ["batch", "kind"] rfl (by decide +kernel : _ ≤ 20)).trans ?_
  simp only [List.map_cons, List.map_nil, List.sum_cons, List.sum_nil, hkind]
  omega

end Payloads

section Calls

/-- The counters have room for a call that makes `n` inserts. -/
structure Room (n : ℕ) (s : Store) : Prop where
  entries : s.tree.entries.length + n < 2 ^ 64
  lsns : s.journal.nextLsn + 5 < 2 ^ 64
  seqs : s.nextSeq + 1 < 2 ^ 64

/-- The handle is in service after a call that made at most `n` inserts. -/
structure Advanced (n : ℕ) (s s' : Store) : Prop where
  serving : Serving s'
  entries : s'.tree.entries.length ≤ s.tree.entries.length + n
  lsns : s'.journal.nextLsn ≤ s.journal.nextLsn + 5

variable {n : ℕ} {cs : List (InsertCall Bytes)} {s₁ s₂ : Store}

/-- The inserts become visible. -/
lemma Serving.published {m : Rows} {visible : ℕ} {p : FiniteMap TxnId PreparedTxn} (hs : Serving s)
    (hins : Installs cs s s₁) (h : Reading m visible s.nextSeq 0 s₁) (hsmall : s₁.tree.Small) :
    Serving { s₁ with
      durableCommitSeq := s.nextSeq, nextSeq := s.nextSeq + 1, prepared := p } := by
  obtain ⟨t, -, rfl⟩ := hins
  refine ⟨hs.recovered, hs.ready, hs.anyPlan, hs.anySchema, rfl, fun k v e he => ?_, hsmall⟩
  rcases h.newer k v e he with hle | rfl
  · exact hle.trans hs.lt.le
  · exact le_rfl

lemma Serving.journal (hs : Serving s) (j : Journal) : Serving { s with journal := j } :=
  ⟨hs.recovered, hs.ready, hs.anyPlan, hs.anySchema, hs.next, hs.current, hs.small⟩

/-- A checkpoint, a frame, inserts and another checkpoint leave the handle in service. -/
lemma Advanced.of_installs {j : Journal} {d q : ℕ} {p : FiniteMap TxnId PreparedTxn}
    (h₁ : Checked s s₁) (hj : j.nextLsn = s₁.journal.nextLsn + 1)
    (hins : Installs cs { s₁ with journal := j } s₂)
    (hserving : Serving { s₂ with durableCommitSeq := d, nextSeq := q, prepared := p })
    (h₂ : Checked { s₂ with durableCommitSeq := d, nextSeq := q, prepared := p } s') :
    Advanced cs.length s s' where
  serving := h₂.serving hserving
  entries := by
    have hgrown := entries_of_installs hins
    exact (h₂.entries.trans hgrown).trans (Nat.add_le_add_right h₁.entries _)
  lsns := by
    have hl₁ := h₁.lsns
    have hl₂ : s'.journal.nextLsn ≤ s₂.journal.nextLsn + 2 := h₂.lsns
    obtain ⟨t, -, rfl⟩ := hins
    have hl₂ : s'.journal.nextLsn ≤ j.nextLsn + 2 := hl₂
    omega

/-- Small inserts behind a checkpoint and a frame. -/
lemma Checked.inserts {seq : ℕ} (h : Checked s s₁) (hs : Serving s)
    (hroom : s.tree.entries.length + cs.length < 2 ^ 64) (hseq : s₁.nextSeq = seq)
    (hseqs : ∀ c ∈ cs, c.seq.toNat = seq) (hfits : ∀ c ∈ cs, c.Fits) (j : Journal) :
    (insertAll cs).Ends { s₁ with journal := j } fun _ s₂ =>
      Installs cs { s₁ with journal := j } s₂ ∧
      Reading s.tree.versions s.durableCommitSeq s₁.nextSeq 0 s₂ ∧ s₂.tree.Small := by
  subst hseq
  have hserving := h.serving hs
  have hread := h.reading hs.current (n := 0 + cs.length) (by simpa using hroom) j
  obtain ⟨_, s₂, hrun, hins, hsmall⟩ := @insertAll_ends { s₁ with journal := j } cs hserving.small
    (by simpa using hread.room) hfits
  refine ⟨_, s₂, hrun, hins, (hread.installs cs hseqs (fun c hc => Or.inl ?_) hins).1, hsmall⟩
  rw [hseqs c hc]
  exact hserving.lt

/-- A batch is installed by its inserts, also behind a checkpoint and its frame. -/
lemma Checked.installBatch_eq {batch : CompiledBatch} (h : Checked s s₁) (hcurrent : Current s)
    (hlt : s.durableCommitSeq < s.nextSeq)
    (hroom : Room (batchCalls s.tree.versions s.durableCommitSeq batch s.nextSeq none).length s)
    (hrev : ∀ w, .putRecord w ∈ batch.protocolMutations →
      Revisable s.tree.versions s.durableCommitSeq w) (j : Journal) :
    installBatch batch s₁.nextSeq none { s₁ with journal := j } =
      insertAll (batchCalls s.tree.versions s.durableCommitSeq batch s.nextSeq none)
        { s₁ with journal := j } := by
  have hseqs := hroom.seqs
  have hread := h.reading hcurrent (n := 0 + _) (by simpa using hroom.entries) j
  rw [h.collected.nextSeq] at hread ⊢
  refine hread.installBatch_eq (by omega) hrev fun x hx => Or.inl ?_
  change s₁.durableCommitSeq < _
  rwa [seq_batchCalls (by omega) x hx, h.collected.durableCommitSeq]

theorem commit_ends {pressure : Pressure} {batch : CompiledBatch} (hs : Serving s)
    (hadmitted : s.validateAdmission batch = .ok ())
    (hundecided : s.refuseDecidedTxn batch.txnId = .ok ())
    (hpre : s.validateProtocolPreconditions [] batch.protocolMutations = .ok ())
    (hunprepared : batch.txnId ∉ s.prepared)
    (hroom : Room (batchCalls s.tree.versions s.durableCommitSeq batch s.nextSeq none).length s)
    (hfits : ∀ c ∈ batchCalls s.tree.versions s.durableCommitSeq batch s.nextSeq none, c.Fits)
    (hrev : ∀ w, .putRecord w ∈ batch.protocolMutations →
      Revisable s.tree.versions s.durableCommitSeq w)
    (hlen : (commitPayload batch s.nextSeq).encode.length ≤ maxJournalPayload) :
    (commit pressure batch).Ends s fun _ s' => Committed batch s s' ∧
      Advanced (batchCalls s.tree.versions s.durableCommitSeq batch s.nextSeq none).length s s' := by
  have hlsns := hroom.lsns
  have hseqs := hroom.seqs
  have hrun : (commit pressure batch).Ends s fun _ s' => Advanced
      (batchCalls s.tree.versions s.durableCommitSeq batch s.nextSeq none).length s s' := by
    refine Attempt.Ends.get_bind (Attempt.Ends.liftM_bind hadmitted (Attempt.Ends.liftM_bind
      hundecided (Attempt.Ends.liftM_bind hpre ?_)))
    refine (maybeAutoCheckpoint_ends hs.recovered (by omega)).bind ?_
    rintro _ s₁ ⟨h₁, -⟩
    have hl₁ := h₁.lsns
    have hnext := h₁.collected.nextSeq
    refine Attempt.Ends.get_bind ?_
    rw [if_neg (by rwa [h₁.collected.prepared])]
    refine durably_ends (h₁.serving hs).recovered ?_
    refine (journalFrame_ends (hnext ▸ hlen) (by omega)).bind ?_
    rintro lsn _ ⟨j, rfl, hj⟩
    obtain ⟨_, s₂, hinstall, hins, hread, hsmall⟩ := h₁.inserts hs hroom.entries hnext
      (seq_batchCalls (by omega)) hfits j
    rw [← h₁.installBatch_eq hs.current hs.lt hroom hrev] at hinstall
    refine Attempt.Ends.bind (R := fun _ s' => s₂ = s') ⟨_, s₂, hinstall, rfl⟩ ?_
    rintro _ _ rfl
    have hserving := ((h₁.serving hs).journal j).published (p := s₂.prepared) hins hread hsmall
    have hl₂ : s₂.journal.nextLsn = j.nextLsn := by
      obtain ⟨t, -, rfl⟩ := hins
      rfl
    refine (publishSeq_ends (by omega)).bind ?_
    rintro _ _ rfl
    refine Attempt.Ends.get_bind ((maybeAutoCheckpoint_ends hserving.recovered ?_).bind fun _ s₃ h₃ => ?_)
    · change s₂.journal.nextLsn + 2 < 2 ^ 64
      omega
    · exact Attempt.Ends.pure (Advanced.of_installs h₁ hj hins hserving h₃.1)
  obtain ⟨res, s', hres, hadvanced⟩ := hrun
  rcases commit_cases hs.lt hres with ⟨⟨e, he⟩, -⟩ | ⟨-, hcommitted⟩
  · cases he
  · exact ⟨res, s', hres, hcommitted, hadvanced⟩

theorem prepare_ends {batch : CompiledBatch} (hs : Serving s)
    (hadmitted : s.validateAdmission batch = .ok ()) (houtcome : batch.terminalOutcome = none)
    (hpre : s.validateProtocolPreconditions [] batch.protocolMutations = .ok ())
    (hunprepared : s.prepared[batch.txnId]? = none) (hlsns : s.journal.nextLsn + 1 < 2 ^ 64)
    (hlen : (preparePayload batch).encode.length ≤ maxJournalPayload) :
    (prepare batch).Ends s fun token s' => Prepared batch s s' ∧ Advanced 0 s s' ∧
      token.txnId = batch.txnId ∧ token.digest = batch.semanticDigest := by
  have hrun : (prepare batch).Ends s fun token s' => Advanced 0 s s' ∧
      token.txnId = batch.txnId ∧ token.digest = batch.semanticDigest := by
    refine Attempt.Ends.get_bind (Attempt.Ends.liftM_bind hadmitted ?_)
    rw [houtcome, if_neg (by simp)]
    refine Attempt.Ends.liftM_bind hpre ?_
    rw [hunprepared]
    refine durably_ends hs.recovered ?_
    refine (journalFrame_ends hlen hlsns).bind ?_
    rintro lsn _ ⟨j, rfl, hj⟩
    refine Attempt.Ends.get_bind (Attempt.Ends.set_bind (Attempt.Ends.pure ⟨?_, rfl, rfl⟩))
    exact ⟨⟨hs.recovered, hs.ready, hs.anyPlan, hs.anySchema, hs.next, hs.current, hs.small⟩,
      le_rfl, hj.le.trans (by omega)⟩
  obtain ⟨token, s', hres, hadvanced⟩ := hrun
  rcases prepare_cases hres with ⟨⟨e, he⟩, -⟩ | ⟨-, hprepared⟩
  · cases he
  · exact ⟨token, s', hres, hprepared, hadvanced⟩

lemma reconciled_of_ready (h : s.readiness = .ready) : reconciled s = s :=
  if_neg fun hwait => by simp [h] at hwait

lemma preparedOf_of_get {token : PreparedToken} {p : PreparedTxn} (hs : Serving s)
    (hp : s.prepared[token.txnId]? = some p) (hdigest : p.batch.semanticDigest = token.digest) :
    s.preparedOf token = .ok p := by
  rw [preparedOf, requireRecovered_eq_ok.mpr hs.recovered, CoreResult.ok_bind, hp]
  exact if_neg (not_not.mpr hdigest)

theorem abortPrepared_ends {pressure : Option PoolState} {token : PreparedToken}
    {decisionRef : ProtocolRecordRef} {p : PreparedTxn} (hs : Serving s)
    (hp : s.prepared[token.txnId]? = some p) (hdigest : p.batch.semanticDigest = token.digest)
    (hroom : Room 1 s)
    (hfits : (statusCall token.txnId (decisionStatus p.batch decisionRef true) s.nextSeq).Fits)
    (hlen : (decisionPayload "abort_prepared" decisionRef token.txnId s.nextSeq).encode.length ≤
      maxJournalPayload) :
    (abortPrepared pressure token decisionRef).Ends s fun _ s' =>
      Decided token (fun p => [statusCall token.txnId (decisionStatus p.batch decisionRef true)
        s.nextSeq]) s s' ∧ Advanced 1 s s' := by
  have hlsns := hroom.lsns
  have hseqs := hroom.seqs
  have hrun : (abortPrepared pressure token decisionRef).Ends s fun _ s' => Advanced 1 s s' := by
    refine Attempt.Ends.get_bind (Attempt.Ends.liftM_bind (preparedOf_of_get hs hp hdigest) ?_)
    refine (maybeAutoCheckpoint_ends hs.recovered (by omega)).bind ?_
    rintro _ s₁ ⟨h₁, -⟩
    have hl₁ := h₁.lsns
    have hnext := h₁.collected.nextSeq
    refine durably_ends (h₁.serving hs).recovered (Attempt.Ends.get_bind ?_)
    refine (journalFrame_ends (hnext ▸ hlen) (by omega)).bind ?_
    rintro lsn _ ⟨j, rfl, hj⟩
    have hcall : (insertAll [statusCall token.txnId (decisionStatus p.batch decisionRef true)
        s₁.nextSeq]).Ends { s₁ with journal := j } _ :=
      h₁.inserts hs (by simpa using hroom.entries) rfl (by simpa using seq_statusCall (by omega))
        (by simpa [hnext] using hfits) j
    obtain ⟨_, s₂, hinstall, hins, hread, hsmall⟩ := hcall
    rw [insertAll_singleton] at hinstall
    refine Attempt.Ends.bind (R := fun _ s' => s₂ = s') ⟨_, s₂, hinstall, rfl⟩ ?_
    rintro _ _ rfl
    have hserving := ((h₁.serving hs).journal j).published
      (p := s₂.prepared.erase token.txnId) hins hread hsmall
    refine Attempt.Ends.modify_bind ((publishSeq_ends (by omega)).bind ?_)
    rintro _ _ rfl
    refine ⟨_, _, congrArg (Prod.mk _) (reconciled_of_ready hserving.ready), ?_⟩
    exact Advanced.of_installs h₁ hj hins hserving (Checked.refl _)
  obtain ⟨res, s', hres, hadvanced⟩ := hrun
  rcases abortPrepared_cases hres with ⟨⟨e, he⟩, -⟩ | ⟨-, hdecided⟩
  · cases he
  · exact ⟨res, s', hres, hdecided, hadvanced⟩

end Calls

end Store

end CarolinaDB.Storage
