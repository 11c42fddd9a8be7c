import CarolinaDB.RaftElection

/-!
# Replication keeps the invariant

A follower splices what a leader sends into its log: the consistency check and
the entry-by-entry scan leave a log that starts with the leader's, and never
meet a conflict at a committed index. A leader commits what a quorum holds.
-/
namespace CarolinaDB.Consensus

open ElectionHistory

variable {Id : Type} [LinearOrder Id] {cfg : Config Id} {h₀ h : Rows Id} {start r : Raft Id}
  {full : List Entry}

/-- A descending list has at least `n` members at or above its `n`-th. -/
lemma le_countP_of_sorted (vals : List ℕ) (n : ℕ) {q : ℕ}
    (hq : (vals.insertionSort (· ≥ ·)).getD (n-1) 0 = q) (hn : 0 < n) (hpos : 0 < q) :
    n ≤ vals.countP (q ≤ ·) := by
  set s := vals.insertionSort (· ≥ ·) with hs
  have hsorted : s.Pairwise (· ≥ ·) := List.pairwise_insertionSort _ vals
  have hlen : n - 1 < s.length := by
    by_contra hlen
    rw [List.getD_eq_default _ _ (by omega)] at hq
    omega
  rw [List.getD_eq_getElem _ _ hlen] at hq
  have hall : ∀ a ∈ s.take n, q ≤ a := by
    intro a ha
    obtain ⟨k, hk, rfl⟩ := List.mem_iff_getElem.mp ha
    rw [List.length_take] at hk
    rw [List.getElem_take, ← hq]
    rcases Nat.lt_or_ge k (n-1) with hlt | hge
    · exact List.pairwise_iff_getElem.mp hsorted k (n-1) _ hlen hlt
    · have : k = n-1 := by omega
      subst this
      exact le_rfl
  calc n = (s.take n).length := by rw [List.length_take]; omega
    _ = (s.take n).countP (q ≤ ·) := by
      rw [eq_comm, List.countP_eq_length]
      simpa using hall
    _ ≤ s.countP (q ≤ ·) := (List.take_sublist n s).countP_le
    _ = vals.countP (q ≤ ·) := (List.perm_insertionSort _ vals).countP_eq _

namespace Running

/-- Counting acknowledgements: an index of the leader's own term that a quorum
matches is chosen. -/
theorem advanceCommit (R : Running cfg h₀ start h full r) (hr : r.role = .leader) :
    Running cfg h₀ start h full r.advanceCommit := by
  have ok := R.node.leader hr
  have hlog : h.leaderLog r.term = full := ok.log
  unfold Raft.advanceCommit
  simp only
  split
  swap
  · exact R
  rename_i hcond
  obtain ⟨hgt, hterm⟩ := hcond
  set q := ((r.cfg.members.map fun m => (r.matchIndex m).getD 0).insertionSort
    (· ≥ ·)).getD (r.cfg.quorum - 1) 0 with hq
  have hown : OwnAt h r.term q := by
    rw [R.views.termAt] at hterm
    have hpos : 0 < r.term := ok.term_pos
    split at hterm
    · omega
    · obtain ⟨k, hk⟩ : ∃ k, q = k+1 := ⟨q-1, by omega⟩
      rw [hk, termOf_succ] at hterm
      cases he : full[k]? with
      | none =>
        rw [he] at hterm
        simp at hterm
        omega
      | some e =>
        rw [he] at hterm
        exact ⟨k, e, hk, by rw [hlog]; exact he, hterm⟩
  have hcount := le_countP_of_sorted _ r.cfg.quorum hq.symm (Nat.succ_pos _) (by omega)
  have hchosen : Chosen cfg.voters h r.term q := by
    refine ⟨hown, (cfg.members.filter fun m => q ≤ (r.matchIndex m).getD 0).toFinset, ⟨?_, ?_⟩, ?_⟩
    · intro v hv
      simp only [List.mem_toFinset, List.mem_filter] at hv
      exact Config.mem_voters.mpr hv.1
    · have hnodup : cfg.members.Nodup := cfg.sorted.imp ne_of_lt
      rw [List.toFinset_card_of_nodup (hnodup.filter _), Config.card_voters,
        ← List.countP_eq_length_filter]
      rw [List.countP_map, R.cfg_eq] at hcount
      exact hcount
    · intro v hv
      simp only [List.mem_toFinset, List.mem_filter, decide_eq_true_eq] at hv
      cases hm : r.matchIndex v with
      | none =>
        rw [hm] at hv
        simp at hv
        omega
      | some n =>
        rw [hm] at hv
        exact hv.2.trans (ok.matched v hv.1 n hm)
  refine R.move (Grows.refl _ _) R.ledger ?_ rfl (Or.inl rfl) rfl rfl
  refine ⟨R.me, R.node.member, R.cfg_eq, R.synced, R.node.live, ?_, fun _ => ?_, fun hc => ?_⟩
  · exact Or.inr ⟨r.term, q, le_rfl, le_rfl, hchosen, by rw [hlog]⟩
  · exact ⟨ok.term_pos, ok.led, ok.log, ok.matched⟩
  · simp [Raft.core, hr] at hc

/-- What the node holds as committed is in the log of the leader of its term. -/
lemma take_leader (R : Running cfg h₀ start h full r) {c : Id} (hl : h.led r.term = some c) {k : ℕ}
    (hc : Committed cfg.voters h r.term full k) :
    full.take k = (h.leaderLog r.term).take k ∧ k ≤ full.length ∧
      k ≤ (h.leaderLog r.term).length := by
  have he := hc.take_leader R.ledger.toSound hl
  have hlen := congrArg List.length he
  have hk := hc.le_length
  simp only [List.length_take] at hlen
  exact ⟨he.symm, hk, by omega⟩

/-- The consistency check: a leader's slice that passes it continues a common prefix. Below the
base the node knows no terms, so there only the empty slice of term zero passes. -/
theorem prev_match (R : Running cfg h₀ start h full r) {c : Id} (hl : h.led r.term = some c)
    {pi pt : ℕ} {es : List Entry} (hs : Slice (h.leaderLog r.term) pi pt es)
    (hchk : ¬ (0 < pi ∧ (r.lastIndex < pi ∨ r.termAt pi ≠ pt))) :
    full.take pi = (h.leaderLog r.term).take pi ∧ pi ≤ full.length ∧
      pi ≤ (h.leaderLog r.term).length ∧ es <+: (h.leaderLog r.term).drop pi := by
  rcases Nat.eq_zero_or_pos pi with rfl | hpos
  · refine ⟨by simp, Nat.zero_le _, Nat.zero_le _, ?_⟩
    rcases hs with ⟨_, _, hes⟩ | ⟨_, rfl⟩
    · exact hes
    · exact List.nil_prefix
  have hlast : pi ≤ full.length := by
    rw [← R.views.lastIndex]
    by_contra hlt
    exact hchk ⟨hpos, Or.inl (by omega)⟩
  have hterm : r.termAt pi = pt := by
    by_contra hne
    exact hchk ⟨hpos, Or.inr hne⟩
  obtain ⟨hb, hbf, hbl⟩ := R.take_leader hl R.node.live.base
  rw [R.views.termAt] at hterm
  split at hterm
  · rename_i hlt
    rcases hs with ⟨hlen, ht, _⟩ | ⟨_, rfl⟩
    · have := (R.ledger.numbered r.term).termOf_pos hpos hlen
      omega
    · exact ⟨take_eq_of_take_eq hb hlt.le, hlast, hlt.le.trans hbl, List.nil_prefix⟩
  · have htpos := R.views.numbered.termOf_pos hpos hlast
    rcases hs with ⟨hlen, ht, hes⟩ | ⟨ht, _⟩
    swap
    · omega
    obtain ⟨k, rfl⟩ : ∃ k, pi = k+1 := ⟨pi-1, by omega⟩
    obtain ⟨a, ha⟩ : ∃ a, full[k]? = some a := ⟨_, List.getElem?_eq_getElem (by omega)⟩
    obtain ⟨b, hb⟩ : ∃ b, (h.leaderLog r.term)[k]? = some b :=
      ⟨_, List.getElem?_eq_getElem (by omega)⟩
    refine ⟨R.voter.attested.matching (R.ledger.attested r.term) ha hb ?_, hlast, hlen, hes⟩
    rw [← hterm, termOf_succ, termOf_succ, ha, hb] at ht
    exact ht

/-- A follower whose log is a prefix of the leader's stores the leader's next entries; each
entry is durable before the next one. -/
theorem extendLog (R : Running cfg h₀ start h full r) (hr : r.role = .follower)
    (hp : full <+: h.leaderLog r.term) (es : List Entry)
    (hes : full ++ es <+: h.leaderLog r.term) :
    Running cfg h₀ start h (full ++ es)
      { r with storage := r.storage.append es, log := r.log ++ es } := by
  induction es generalizing r full with
  | nil =>
    simp only [List.append_nil]
    exact R.frame rfl rfl rfl rfl
  | cons e es ih =>
    rw [List.append_cons] at hes
    have hpe : full ++ [e] <+: h.leaderLog r.term := (List.prefix_append _ _).trans hes
    have hnum := (R.ledger.numbered r.term).of_extends hpe
    have hidx : e.index = full.length + 1 := hnum.index full.length e (by simp)
    have R₁ : Running cfg h₀ start h (full ++ [e])
        { r with storage := r.storage.append [e], log := r.log ++ [e] } := by
      refine R.move (Grows.refl _ _) R.ledger ?_ rfl (Or.inr rfl) rfl rfl
      have hext : ∀ {t k}, Committed cfg.voters h t full k →
          Committed cfg.voters h t (full ++ [e]) k :=
        fun hc => hc.of_take (List.take_append_of_le_length hc.le_length)
      refine ⟨R.me, R.node.member, R.cfg_eq, ?_, ⟨R.views.push hidx (hnum.term_pos e (by simp)),
        R.voter.extend R.ledger.toSound (List.prefix_append _ _) hpe, hext R.node.live.base⟩,
        hext R.node.commit, ?_, ?_⟩
      · simp [Raft.core, Raft.live, Storage.append, Storage.write, R.synced]
      · simp [Raft.core, hr]
      · simp [Raft.core, hr]
    have R₂ := ih R₁ hr hpe hes
    simpa [Storage.append] using R₂

/-- Cutting the log at the first entry that disagrees with the leader, above the commit index. -/
theorem truncateLog (R : Running cfg h₀ start h full r) (hr : r.role = .follower) {c : Id}
    (hl : h.led r.term = some c) {k : ℕ} {a b : Entry} (ha : full[k]? = some a)
    (hb : (h.leaderLog r.term)[k]? = some b) (hne : a.term ≠ b.term) (hc : r.commitIndex ≤ k)
    (hbase : r.snapshotIndex ≤ k) :
    Running cfg h₀ start h (full.take k)
      { r with
        storage := r.storage.truncateFrom (k+1)
        log := r.log.take (k - r.snapshotIndex) } := by
  have hk := length_of_getElem? ha
  have hcut : ∀ {t n}, n ≤ k → Committed cfg.voters h t full n →
      Committed cfg.voters h t (full.take k) n := by
    intro t n hn hc
    refine hc.of_take ?_
    rw [List.take_take, Nat.min_eq_left hn]
  refine R.move (Grows.refl _ _) R.ledger ?_ rfl (Or.inr rfl) rfl rfl
  refine ⟨R.me, R.node.member, R.cfg_eq, ?_, ⟨R.views.truncate hbase hk.le,
    R.voter.truncate hl ha hb hne, hcut hbase R.node.live.base⟩, hcut hc R.node.commit, ?_, ?_⟩
  · simp only [Raft.core, Raft.live, Storage.truncateFrom, Storage.write, R.synced]
    rw [R.views.filter_lt]
  · simp [Raft.core, hr]
  · simp [Raft.core, hr]

/-- The scan of a leader's entries never refuses, and leaves a log that starts with the leader's
up to the last entry sent. -/
theorem appendNew (R : Running cfg h₀ start h full r) (hr : r.role = .follower) {c : Id}
    (hl : h.led r.term = some c) {k : ℕ} (es : List Entry)
    (heq : full.take k = (h.leaderLog r.term).take k) (hkf : k ≤ full.length)
    (hkl : k ≤ (h.leaderLog r.term).length) (hes : es <+: (h.leaderLog r.term).drop k) :
    ∃ r' full', r.appendNew es = .ok r' ∧ Running cfg h₀ start h full' r' ∧ r'.role = .follower ∧
      r'.term = r.term ∧ (h.leaderLog r.term).take (k + es.length) <+: full' := by
  induction es generalizing k with
  | nil =>
    refine ⟨r, full, rfl, R, hr, rfl, ?_⟩
    rw [List.length_nil, Nat.add_zero, ← heq]
    exact List.take_prefix _ _
  | cons e es ih =>
    set L := h.leaderLog r.term with hL
    have hLk : L[k]? = some e := by
      have := prefix_getElem? hes (k := 0) (a := e) rfl
      rwa [List.getElem?_drop, Nat.add_zero] at this
    have hidx : e.index = k+1 := (R.ledger.numbered r.term).index k e hLk
    have htail : es <+: L.drop (k+1) := by
      have := hes.drop 1
      rwa [List.drop_one, List.tail_cons, List.drop_drop] at this
    have hlen : k + 1 + es.length = k + (e :: es).length := by
      rw [List.length_cons]
      omega
    -- an entry already in both logs moves the scan on by one
    have hskip : full.take (k+1) = L.take (k+1) → k+1 ≤ full.length →
        ∃ r' full', r.appendNew es = .ok r' ∧ Running cfg h₀ start h full' r' ∧
          r'.role = .follower ∧ r'.term = r.term ∧ L.take (k + (e :: es).length) <+: full' := by
      intro heq' hkf'
      rw [← hlen]
      exact ih heq' hkf' (length_of_getElem? hLk) htail
    -- from a log that ends where the slice begins, the slice is appended whole
    have hsplice : ∀ {q : Raft Id}, Running cfg h₀ start h (full.take k) q → q.role = .follower →
        q.term = r.term → ∃ full', Running cfg h₀ start h full'
          { q with storage := q.storage.append (e :: es), log := q.log ++ e :: es } ∧
          L.take (k + (e :: es).length) <+: full' := by
      intro q Q hq hqt
      have hfull : full.take k ++ e :: es <+: L := by
        rw [heq]
        conv_rhs => rw [← List.take_append_drop k L]
        exact (List.prefix_append_right_inj _).mpr hes
      refine ⟨full.take k ++ e :: es, Q.extendLog hq ?_ _ ?_, ?_⟩
      · rw [hqt]
        exact (List.prefix_append _ _).trans hfull
      · rw [hqt]
        exact hfull
      · refine List.prefix_of_prefix_length_le (List.take_prefix _ _) hfull ?_
        simp [Nat.min_eq_left hkf]
    obtain ⟨hbase, hbf, hbl⟩ := R.take_leader hl R.node.live.base
    unfold Raft.appendNew
    rw [hidx]
    by_cases hsnap : k+1 ≤ r.snapshotIndex
    · rw [if_pos hsnap]
      exact hskip (take_eq_of_take_eq hbase hsnap) (hsnap.trans hbf)
    rw [if_neg hsnap, R.views.entry_above (by omega)]
    cases hmine : full[k]? with
    | none =>
      have hk : full.take k = full := List.take_of_length_le (by
        rw [List.getElem?_eq_none_iff] at hmine
        exact hmine)
      obtain ⟨full', R', hp⟩ := hsplice (hk.symm ▸ R) hr rfl
      exact ⟨_, full', rfl, R', hr, rfl, hp⟩
    | some mine =>
      simp only
      split
      · rename_i hterm
        exact hskip (R.voter.attested.matching (R.ledger.attested r.term) hmine hLk hterm)
          (length_of_getElem? hmine)
      · rename_i hterm
        have hcommit : ¬ (k+1 ≤ r.commitIndex) := by
          intro hle
          obtain ⟨hc, _, _⟩ := R.take_leader hl R.node.commit
          have := getElem?_eq_of_take_eq hc (k := k) (by simpa [Raft.core] using hle)
          rw [hmine, hLk, Option.some.injEq] at this
          exact hterm (congrArg Entry.term this)
        rw [if_neg hcommit]
        have hpos : r.logPos (k+1) = some (k - r.snapshotIndex) := by
          rw [Raft.logPos, if_neg hsnap]
          congr 1
          omega
        rw [hpos]
        have R₁ := R.truncateLog hr hl hmine hLk hterm (by omega) (by omega)
        obtain ⟨full', R', hp⟩ := hsplice R₁ hr rfl
        exact ⟨_, full', rfl, R', hr, rfl, hp⟩

end Running

end CarolinaDB.Consensus
