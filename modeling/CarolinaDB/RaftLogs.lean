import CarolinaDB.RaftReads

/-!
# The logs of the voters

What the voters have on disk in every world a run can reach: logs that share an entry agree up
to it, a leader has everything committed up to its term, and a majority keeps every entry that
was ever handed out.
-/
namespace CarolinaDB.Consensus

open ElectionHistory

variable {Id : Type} [LinearOrder Id] {cfg : Config Id} {h : Rows Id} {w : World Id}

/-- What a voter has on disk, whether or not its process runs. -/
def Peer.disk : Peer Id → Persistent Id
  | .up r => r.storage.state
  | .down p => p

lemma WorldOk.diskOk (ok : WorldOk cfg h w) (i : Id) :
    ∃ full, DiskOk cfg h i full (w.peer i).disk := by
  have hp := ok.peer i
  cases hpeer : w.peer i with
  | up r =>
    rw [hpeer] at hp
    obtain ⟨full, hn⟩ := hp.node
    refine ⟨full, ?_⟩
    change DiskOk cfg h i full r.core.disk
    rw [hn.synced]
    exact hn.live
  | down p =>
    rw [hpeer] at hp
    exact hp

lemma LogView.mem_log_iff {full log : List Entry} {base baseTerm : ℕ}
    (v : LogView full base baseTerm log) {e : Entry} :
    e ∈ log ↔ base < e.index ∧ full[e.index - 1]? = some e := by
  rw [v.log_eq, List.mem_iff_getElem?]
  constructor
  · rintro ⟨k, hk⟩
    have hi := v.numbered.index_drop base k e hk
    rw [List.getElem?_drop] at hk
    exact ⟨by omega, by rw [hi, show base + 1 + k - 1 = base + k by omega, hk]⟩
  · rintro ⟨hb, he⟩
    refine ⟨e.index - 1 - base, ?_⟩
    rw [List.getElem?_drop, show base + (e.index - 1 - base) = e.index - 1 by omega, he]

/-- The entry both voters of `electionRun` commit. -/
def firstEntry : Entry := ⟨1, 1, []⟩

def twoVoters : Config ℕ := ⟨[0, 1], 1, 2, 1, by decide⟩

/-- Before the crash both voters have the entry on disk and committed, and the first one leads. -/
lemma electionRun_logs : ∃ (w : World ℕ) (r s : Raft ℕ), Reachable twoVoters w ∧
    w.peer 0 = .up r ∧ w.peer 1 = .up s ∧ r.role = .leader ∧ s.term ≤ r.term ∧ s.commitIndex = 1 ∧
    firstEntry ∈ s.log ∧ firstEntry ∈ w.handed 0 ∧ firstEntry ∈ (w.peer 0).disk.entries ∧
    firstEntry ∈ (w.peer 1).disk.entries ∧ r.snapshotIndex = 0 := by
  have hrun : (do
      let w ← World.init.runAll twoVoters (electionRun.take 15)
      let r ← w.node? 0
      let s ← w.node? 1
      pure (decide (r.role = .leader ∧ s.term ≤ r.term ∧ s.commitIndex = 1 ∧ firstEntry ∈ s.log ∧
        firstEntry ∈ w.handed 0 ∧ firstEntry ∈ (w.peer 0).disk.entries ∧
        firstEntry ∈ (w.peer 1).disk.entries ∧ r.snapshotIndex = 0))) = some true := by decide
  simp only [Option.bind_eq_bind, Option.bind_eq_some_iff, Option.pure_def, Option.some.injEq,
    decide_eq_true_eq] at hrun
  obtain ⟨w, hw, r, hr, s, hs, hfacts⟩ := hrun
  exact ⟨w, r, s, Reachable.init.runAll _ hw, World.node?_eq_some hr, World.node?_eq_some hs, hfacts⟩

/-- Log matching: two voters with an entry of one index and term on disk have the same entries
up to it, as far as they have not compacted them. -/
theorem log_matching (hw : Reachable cfg w) (i j : Id) {d e : Entry}
    (hd : d ∈ (w.peer i).disk.entries) (he : e ∈ (w.peer j).disk.entries)
    (hindex : d.index = e.index) (hterm : d.term = e.term) :
    ∀ x ∈ (w.peer i).disk.entries, x.index ≤ d.index → (w.peer j).disk.snapshotIndex < x.index →
      x ∈ (w.peer j).disk.entries := by
  obtain ⟨h, ok⟩ := hw.worldOk
  obtain ⟨l, hl⟩ := ok.diskOk i
  obtain ⟨m, hm⟩ := ok.diskOk j
  intro x hx hle hbase
  rw [hl.view.mem_log_iff] at hd hx
  rw [hm.view.mem_log_iff] at he ⊢
  have hsame := hl.voter.attested.matching hm.voter.attested hd.2 (hindex ▸ he.2) hterm
  refine ⟨hbase, ?_⟩
  rw [← getElem?_eq_of_take_eq hsame (show x.index - 1 < d.index - 1 + 1 by omega)]
  exact hx.2

theorem log_matching_electionRun : ∃ w : World ℕ, Reachable twoVoters w ∧
    firstEntry ∈ (w.peer 0).disk.entries ∧ ∀ x ∈ (w.peer 0).disk.entries, x.index ≤ 1 →
      (w.peer 1).disk.snapshotIndex < x.index → x ∈ (w.peer 1).disk.entries := by
  obtain ⟨w, r, s, hw, -, -, -, -, -, -, -, h₀, h₁, -⟩ := electionRun_logs
  exact ⟨w, hw, h₀, log_matching hw 0 1 h₀ h₁ rfl rfl⟩

/-- Leader completeness: a leader has every entry committed at a voter of its term or an earlier
one, unless it has compacted it. -/
theorem leader_completeness (hw : Reachable cfg w) {i j : Id} {r s : Raft Id}
    (hr : w.peer i = .up r) (hs : w.peer j = .up s) (hlead : r.role = .leader)
    (hterm : s.term ≤ r.term) :
    s.commitIndex ≤ r.lastIndex ∧
    ∀ e ∈ s.log, e.index ≤ s.commitIndex → r.snapshotIndex < e.index → e ∈ r.log := by
  obtain ⟨h, ok⟩ := hw.worldOk
  obtain ⟨l, hl⟩ := ok.nodeOk hr
  obtain ⟨m, hm⟩ := ok.nodeOk hs
  have hleader := hl.leader hlead
  have hsame : l.take s.commitIndex = m.take s.commitIndex := by
    rw [← hleader.log]
    exact (hm.commit.mono hterm).take_leader ok.ledger.toSound hleader.led
  refine ⟨?_, fun e he hle hbase => ?_⟩
  · rw [Raft.Views.lastIndex hl.live.view]
    exact (hm.commit.of_take hsame).le_length
  · obtain ⟨-, he⟩ := hm.live.view.mem_log_iff.mp he
    refine hl.live.view.mem_log_iff.mpr ⟨hbase, ?_⟩
    rw [getElem?_eq_of_take_eq hsame (by omega)]
    exact he

theorem leader_completeness_electionRun : ∃ (w : World ℕ) (r s : Raft ℕ), Reachable twoVoters w ∧
    r.role = .leader ∧ firstEntry ∈ s.log ∧ firstEntry ∈ r.log := by
  obtain ⟨w, r, s, hw, hr, hs, hlead, hterm, hcommit, he, -, -, -, hbase⟩ := electionRun_logs
  exact ⟨w, r, s, hw, hlead, he, (leader_completeness hw hr hs hlead hterm).2 _ he hcommit.ge
    (hbase ▸ Nat.zero_lt_one)⟩

/-- Nothing handed out is lost: a majority of the voters has it on disk or has compacted it. -/
theorem handed_on_majority (hw : Reachable cfg w) (i : Id) {e : Entry} (he : e ∈ w.handed i) :
    ∃ Q ⊆ cfg.voters, cfg.quorum ≤ Q.card ∧ ∀ v ∈ Q,
      e ∈ (w.peer v).disk.entries ∨ e.index ≤ (w.peer v).disk.snapshotIndex := by
  obtain ⟨h, ok⟩ := hw.worldOk
  obtain ⟨t, l, k, n, hc, hn, hle, hindex⟩ := ok.handed i e he
  obtain rfl | ⟨s, m, -, hkm, ⟨hown, Q, hQ, hacks⟩, hsame⟩ := hc
  · omega
  have hcard := hQ.2
  rw [cfg.card_voters] at hcard
  refine ⟨Q, hQ.1, hcard, fun v hv => ?_⟩
  obtain ⟨full, hd⟩ := ok.diskOk v
  have hpos := hown.pos
  have hterm : s ≤ (w.peer v).disk.term := by
    by_contra hlt
    have := hd.voter.acked_future s (by omega)
    have := hacks v hv
    omega
  -- the voter acknowledged the entry, and no later leader can have overridden it
  have hkept : (h.leaderLog s).take m <+: full := by
    rcases hd.voter.keeps s m (by omega) (hacks v hv) hown with hp | ⟨u, -, hsu, ⟨c, hc⟩, hno⟩
    · exact hp
    · exact absurd (ok.ledger.toSound.leader_complete ⟨hown, Q, hQ, hacks⟩ hsu hc) hno
  have hfull : full[e.index - 1]? = some e := by
    rw [hindex, Nat.add_sub_cancel]
    refine prefix_getElem? hkept ?_
    rw [List.getElem?_take_of_lt (by omega), ← getElem?_eq_of_take_eq hsame hn]
    exact hle
  rcases Nat.lt_or_ge (w.peer v).disk.snapshotIndex e.index with hlt | hge
  · exact .inl (hd.view.mem_log_iff.mpr ⟨hlt, hfull⟩)
  · exact .inr hge

theorem handed_on_majority_electionRun : ∃ w : World ℕ, Reachable twoVoters w ∧
    ∃ Q ⊆ twoVoters.voters, 2 ≤ Q.card ∧ ∀ v ∈ Q, firstEntry ∈ (w.peer v).disk.entries ∨
      firstEntry.index ≤ (w.peer v).disk.snapshotIndex := by
  obtain ⟨w, r, s, hw, -, -, -, -, -, -, he, -⟩ := electionRun_logs
  exact ⟨w, hw, handed_on_majority hw 0 he⟩

end CarolinaDB.Consensus
