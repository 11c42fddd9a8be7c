import CarolinaDB.StoreRuns

/-!
# Snapshots

A registered snapshot pins the versions it reads: a checkpoint collects nothing that
is read at the oldest registered sequence or later. The registrations are counted by
sequence alone, so the pin lasts as long as no release takes the last one away.
-/
namespace CarolinaDB.Storage

open Relation

namespace Store

/-- A snapshot at this sequence is registered. -/
def Pinned (v : ℕ) (s : Store) : Prop := 0 < s.snapshots[v]?.getD 0

variable {s s' : Store} {v : ℕ}

lemma oldestSnapshot_le (h : Pinned v s) : s.oldestSnapshot ≤ v := by
  have hmem : v ∈ s.snapshots.keys := by
    rw [FiniteMap.mem_keys]
    cases hv : s.snapshots[v]? with
    | none => simp [Pinned, hv] at h
    | some c => exact ⟨c, rfl⟩
  refine (min_le_left _ _).trans ?_
  cases hmin : s.snapshots.keys.min? with
  | none =>
    rw [List.min?_eq_none_iff] at hmin
    simp [hmin] at hmem
  | some l => exact (List.min?_eq_some_iff.mp hmin).2 v hmem

/-- Nothing a snapshot at `v` reads has changed. -/
def SameAt (v : ℕ) (s s' : Store) : Prop :=
  ∀ k, s'.tree.versions.newest k v = s.tree.versions.newest k v

lemma Collected.sameAt (h : Collected s s') (hpin : Pinned v s) : SameAt v s s' :=
  fun k => h.agree k v (oldestSnapshot_le hpin)

lemma Extends.sameAt {cs : List (InsertCall Bytes)} (h : Extends cs s s') (hpin : Pinned v s)
    (hv : v < s.nextSeq) : SameAt v s s' := by
  have hpin' : Pinned v s' := by
    rw [Pinned, h.snapshots]
    exact hpin
  obtain ⟨m, hm, -, hm', -⟩ := h.versions
  intro k
  calc s'.tree.versions.newest k v
      = (InsertCall.versionsAfter cs m).newest k v := hm' k v (oldestSnapshot_le hpin')
    _ = m.newest k v := InsertCall.newest_versionsAfter_of_lt h.seqs hv
    _ = s.tree.versions.newest k v := hm k v (oldestSnapshot_le hpin)

/-- The rows a scan finds depend only on what is read at its sequence. -/
lemma SameAt.rows_eq (h : SameAt v s s') (start : Bytes) (end_ : Option Bytes) :
    s'.tree.rows start end_ v = s.tree.rows start end_ v := by
  obtain ⟨hsorted, hmem⟩ := s.tree.isRows_rows start end_ v
  refine (s'.tree.isRows_rows start end_ v).unique ⟨hsorted, fun e => ?_⟩
  rw [hmem, h e.key]

/-- The walk of a read of one key ends within its guards. -/
def GetEnds (s : Store) (key : Bytes) (visible : ℕ) : Prop :=
  s.tree.height < 64 ∧ s.tree.getEnds key visible

/-- The walk of a scan ends within its guards. -/
def ScanEnds (s : Store) (start : Bytes) (end_ : Option Bytes) (visible limit : ℕ) : Prop :=
  s.tree.height < 64 ∧ s.tree.scanEnds start end_ visible (max (min (limit * 2) u64Max) limit)

section Reads
variable {snap : LocalSnapshot} (hrec : s.recoveryRequired = false)
  (hepoch : snap.epoch = s.storageEpoch) (hvisible : snap.visibleSeq ≤ s.durableCommitSeq)
include hrec hepoch hvisible

lemma readPoint_eq : s.readPoint snap = .ok snap.visibleSeq := by
  rw [readPoint, requireRecovered_eq_ok.mpr hrec, CoreResult.ok_bind, if_neg (not_not.mpr hepoch),
    min_eq_left hvisible]

lemma getRow_eq {key : LogicalKey} (hends : s.GetEnds key snap.visibleSeq) :
    s.getRow key snap = valueAt s.tree.versions snap.visibleSeq key := by
  obtain ⟨r, hr, hnewest⟩ := (BTree.getVersion_iff hends.1 key snap.visibleSeq).mpr hends.2
  rw [getRow, readPoint_eq hrec hepoch hvisible, CoreResult.ok_bind, hr, CoreResult.ok_bind,
    BTree.isNewest_iff.mp hnewest]
  rfl

lemma scan_eq {start : Bytes} {end_ : Option Bytes} {limit : ℕ}
    (hends : s.ScanEnds start end_ snap.visibleSeq limit) :
    s.scan start end_ snap limit = liveRows limit ((s.tree.rows start end_ snap.visibleSeq).take
      (max (max (min (limit * 2) u64Max) limit) 1)) [] := by
  rw [scan, readPoint_eq hrec hepoch hvisible, CoreResult.ok_bind,
    BTree.scanVisible_eq hends.1 hends.2, CoreResult.ok_bind]

end Reads

end Store

namespace StoreCall

open Store

/-- A release does not take the last registration at the sequence. -/
def KeepsPin (v : ℕ) (s : Store) : StoreCall → Prop
  | releaseSnapshot snap => snap.visibleSeq = v → 1 < s.snapshots[v]?.getD 0
  | _ => True

/-- What a snapshot at `v` taken in the epoch of `s₀` relies on. -/
structure Holds (v : ℕ) (s₀ s : Store) : Prop where
  epoch : s.storageEpoch = s₀.storageEpoch
  pinned : Pinned v s
  visible : v ≤ s.durableCommitSeq
  next : s.nextSeq = s.durableCommitSeq + 1
  same : SameAt v s₀ s

lemma pinned_snapshot {s : Store} {v : ℕ} (h : Pinned v s) : Pinned v s.snapshot.2 := by
  simp only [Pinned, Store.snapshot, FiniteMap.get_insert] at h ⊢
  split_ifs with hv
  · simp
  · exact h

lemma pinned_releaseSnapshot {s : Store} {v : ℕ} {snap : LocalSnapshot} (h : Pinned v s)
    (hkeep : snap.visibleSeq = v → 1 < s.snapshots[v]?.getD 0) :
    Pinned v (s.releaseSnapshot snap) := by
  rw [Store.releaseSnapshot]
  split
  · exact h
  · rename_i c hc
    by_cases hv : snap.visibleSeq = v
    · have hc' := hkeep hv
      rw [← hv, hc, Option.getD_some] at hc'
      rw [Pinned, if_neg (by omega), ← hv, FiniteMap.get_insert_self, Option.getD_some]
      omega
    · rw [Pinned]
      dsimp only
      split_ifs
      · rw [FiniteMap.get_erase_of_ne hv]
        exact h
      · rw [FiniteMap.get_insert_of_ne hv]
        exact h

lemma Holds.lt {v : ℕ} {s₀ s : Store} (h : Holds v s₀ s) : s.durableCommitSeq < s.nextSeq := by
  have := h.next
  omega

lemma Holds.collected {v : ℕ} {s₀ s s' : Store} (h : Holds v s₀ s) (hc : Collected s s') :
    Holds v s₀ s' where
  epoch := hc.storageEpoch.trans h.epoch
  pinned := by
    rw [Pinned, hc.snapshots]
    exact h.pinned
  visible := h.visible.trans hc.durableCommitSeq.ge
  next := by
    rw [hc.durableCommitSeq, hc.nextSeq]
    exact h.next
  same k := (hc.sameAt h.pinned k).trans (h.same k)

lemma Holds.extend {v : ℕ} {s₀ s s' : Store} {cs : List (InsertCall Bytes)} (h : Holds v s₀ s)
    (he : Extends cs s s') : Holds v s₀ s' where
  epoch := he.storageEpoch.trans h.epoch
  pinned := by
    rw [Pinned, he.snapshots]
    exact h.pinned
  visible := (h.visible.trans h.lt.le).trans he.durableCommitSeq.ge
  next := by rw [he.durableCommitSeq, he.nextSeq]
  same k := (he.sameAt h.pinned (h.visible.trans_lt h.lt) k).trans (h.same k)

/-- A call that takes no pin away keeps what a snapshot relies on, until a new epoch begins. -/
lemma holds_run {v : ℕ} {s₀ s : Store} {c : StoreCall} (h : Holds v s₀ s) (hkeep : KeepsPin v s c)
    (hrec : (c.run s).recoveryRequired = false) :
    Holds v s₀ (c.run s) ∨ s₀.storageEpoch < (c.run s).storageEpoch := by
  have hmoves := run_moves h.lt hrec
  cases hmoves with
  | collected hc => exact Or.inl (h.collected hc)
  | extended he => exact Or.inl (h.extend he)
  | prepared hp =>
    rw [hp]
    exact Or.inl ⟨h.epoch, h.pinned, h.visible, h.next, h.same⟩
  | registered hs =>
    rw [hs]
    exact Or.inl ⟨h.epoch, pinned_snapshot h.pinned, h.visible, h.next, h.same⟩
  | released hc hs =>
    subst hc
    have hpin := pinned_releaseSnapshot h.pinned hkeep
    obtain ⟨m, hm⟩ := releaseSnapshot_eq s _
    rw [hs]
    rw [hm] at hpin ⊢
    exact Or.inl ⟨h.epoch, hpin, h.visible, h.next, h.same⟩
  | epoch he =>
    have hepoch := Collected.storageEpoch he
    rw [h.epoch] at hepoch
    exact Or.inr (by rw [hepoch]; exact Nat.lt_succ_self _)

/-- What a snapshot relies on holds in every state of a run that takes no pin away. -/
lemma holds_of_run {v : ℕ} {s₀ s s' : Store} (h : Holds v s₀ s)
    (hrun : ReflTransGen (Step (KeepsPin v)) s s') (hrec : s'.recoveryRequired = false) :
    Holds v s₀ s' ∨ (s₀.storageEpoch < s'.storageEpoch ∧ s'.nextSeq = s'.durableCommitSeq + 1) := by
  induction hrun with
  | refl => exact Or.inl h
  | tail hrun hstep ih =>
    obtain ⟨c, hkeep, rfl⟩ := hstep
    rcases ih (recovered_of_run hrec) with h | ⟨hepoch, hnext⟩
    · exact (holds_run h hkeep hrec).imp_right fun hepoch =>
        ⟨hepoch, (run_moves h.lt hrec).nextSeq_eq h.next⟩
    · have hmoves := run_moves (c := c) (by omega) hrec
      exact Or.inr ⟨hepoch.trans_le hmoves.storageEpoch_le, hmoves.nextSeq_eq hnext⟩

/-- The new store with one record. -/
def writtenStore : Store := (commitProtocol calm (sampleWrite .absent)).run (freshStore sampleOptions)

/-- The same after a snapshot was taken of the empty store. -/
def observedStore : Store :=
  (commitProtocol calm (sampleWrite .absent)).run (freshStore sampleOptions).snapshot.2

/-- A record was written and a snapshot taken; then a new epoch began. -/
def renewedStore : Store := (advanceStorageEpoch fullPool).run writtenStore.snapshot.2

/-- The snapshot of the old epoch is released, the record updated, and the store checkpointed. -/
def collectedStore : Store :=
  (checkpoint fullPool).run ((commitProtocol calm (sampleWrite (.exact 1))).run
    ((releaseSnapshot writtenStore.snapshot.1).run renewedStore.snapshot.2))

end StoreCall

end CarolinaDB.Storage
