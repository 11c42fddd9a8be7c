import CarolinaDB.JournalDamage

/-!
# Reclaiming segments

A checkpoint names the first segment that is still needed and deletes the files below it. What
is deleted is older than the checkpoint.
-/
namespace CarolinaDB.Storage

lemma InSequence.le_lastLsn {m : ℕ} {fs : List JournalFrame} (h : InSequence m fs) :
    m ≤ lastLsn m fs ∧ ∀ f ∈ fs, f.lsn.toNat ≤ lastLsn m fs := by
  induction fs generalizing m with
  | nil => exact ⟨le_rfl, by simp⟩
  | cons g fs ih =>
    obtain ⟨hle, hfs⟩ := ih h.2.2
    exact ⟨h.2.1.le.trans hle, List.forall_mem_cons.mpr ⟨hle, hfs⟩⟩

namespace Journal

/-- The segment chosen starts at or before `fromLsn`, unless none does. -/
lemma neededSegment_cases (fromLsn : ℕ) (floors : List (ℕ × Option ℕ)) (needed : ℕ) :
    neededSegment fromLsn floors needed = needed ∨
      ∃ first ≤ fromLsn, (neededSegment fromLsn floors needed, some first) ∈ floors := by
  fun_induction neededSegment fromLsn floors needed with
  | case1 needed => exact .inl rfl
  | case2 needed seg rest ih => grind
  | case3 needed seg first rest hfirst ih =>
    rcases max_choice needed seg with hmax | hmax <;> grind
  | case4 needed seg first rest hfirst => exact .inl rfl

/-- The files before one hold older frames than that one starts with. -/
lemma Holds.lsn_lt {j : Journal} {cs : List Contents} (h : j.Holds cs) {c d : Contents}
    (hc : c ∈ cs) (hd : d ∈ cs) (hlt : c.1 < d.1) {f g : JournalFrame} {gs : List JournalFrame}
    (hf : f ∈ c.2) (hg : d.2 = g :: gs) : f.lsn.toNat < g.lsn.toNat ∧ g.Fits maxJournalPayload := by
  obtain ⟨pre, post, rfl⟩ := List.append_of_mem hd
  have hsorted := j.directory.sorted
  rw [h.segments, List.pairwise_map, List.pairwise_append, List.pairwise_cons] at hsorted
  have hpre : c ∈ pre := by
    simp only [List.mem_append, List.mem_cons] at hc
    rcases hc with hc | rfl | hc
    · exact hc
    · omega
    · exact absurd (hsorted.2.1.1 c hc) hlt.not_gt
  have hseq := h.sequence
  rw [framesOf_append, framesOf_cons, hg, inSequence_append] at hseq
  exact ⟨(hseq.1.le_lastLsn.2 f (List.mem_flatMap.mpr ⟨c, hpre, hf⟩)).trans_lt hseq.2.2.1, hseq.2.1⟩

end Journal

end CarolinaDB.Storage
