import CarolinaDB.Inventory

/-!
# The schedule minimizer

Delta debugging over the operations of a failing schedule: chunks are left out as long
as the rest still fails. `runs` counts the evaluations of the failure predicate.
-/
namespace CarolinaDB.Qualify

inductive FaultPoint
  | beforeJournalAppend | midJournalWrite | beforeFsync | afterFsyncBeforePublish | duringPageSplit
  | beforePageFlush | midPageWrite | beforeManifestPublish | afterManifestWriteBeforeFsync
  | duringCheckpoint | duringPrepare | afterPrepareBeforeDecision | afterDecisionBeforeInstall
  deriving DecidableEq

inductive ScheduledOp
  | new (req : String) (op : W1Op)
  | retry (req : String)
  | mismatch (req : String) (op : W1Op)
  | evict (req : String)
  | retire
  | restart
  | checkpoint
  deriving DecidableEq

structure Schedule where
  seed : UInt64
  items : List (Ident × Int64)
  ops : List ScheduledOp
  fault : Option (FaultPoint × UInt32)
  deriving DecidableEq

/-- The schedule without its operations from `start` to before `stop`. -/
def Schedule.without (s : Schedule) (start stop : ℕ) : Schedule :=
  { s with ops := s.ops.take start ++ s.ops.drop stop }

variable (fails : Schedule → Bool) (maxRuns : ℕ)

/-- One round: the first chunk from `start` on that can be left out. -/
def tryChunks (current : Schedule) (chunk start runs : ℕ) : Option Schedule × ℕ :=
  if start < current.ops.length ∧ runs < maxRuns then
    let stop := min (start + chunk) current.ops.length
    let candidate := current.without start stop
    if fails candidate then (some candidate, runs + 1)
    else tryChunks current chunk stop (runs + 1)
  else (none, runs)
termination_by maxRuns - runs

lemma runs_le_tryChunks (current : Schedule) (chunk start runs : ℕ) :
    runs ≤ (tryChunks fails maxRuns current chunk start runs).2 := by
  fun_induction tryChunks fails maxRuns current chunk start runs with
  | case1 => exact Nat.le_succ _
  | case2 _ _ _ _ _ _ ih => omega
  | case3 => exact le_rfl

lemma runs_lt_tryChunks {current : Schedule} {runs : ℕ} (chunk : ℕ)
    (h : 2 ≤ current.ops.length ∧ runs < maxRuns) :
    runs < (tryChunks fails maxRuns current chunk 0 runs).2 := by
  rw [tryChunks, if_pos ⟨by omega, h.2⟩]
  dsimp only
  split_ifs
  · exact Nat.lt_succ_self _
  · exact runs_le_tryChunks fails maxRuns current chunk _ (runs + 1)

/-- The rounds, with `n` chunks each. -/
def rounds (current : Schedule) (runs n : ℕ) : Schedule × ℕ :=
  let len := current.ops.length
  if h : 2 ≤ len ∧ runs < maxRuns then
    let chunk := (len + n - 1) / n
    have _hlt := runs_lt_tryChunks fails maxRuns chunk h
    let round := tryChunks fails maxRuns current chunk 0 runs
    match round.1 with
    | some candidate => rounds candidate round.2 (max (n - 1) 2)
    | none => if len ≤ n then (current, round.2) else rounds current round.2 (min (n * 2) len)
  else (current, runs)
termination_by maxRuns - runs
decreasing_by all_goals exact Nat.sub_lt_sub_left h.2 _hlt

def minimize (original : Schedule) : Schedule × ℕ :=
  if fails original then rounds fails maxRuns original 1 2 else (original, 1)

/-- `t` is `s` with some operations left out. -/
structure Shrinks (s t : Schedule) : Prop where
  ops : t.ops.Sublist s.ops
  seed : t.seed = s.seed
  items : t.items = s.items
  fault : t.fault = s.fault

lemma Shrinks.refl (s : Schedule) : Shrinks s s := ⟨.refl _, rfl, rfl, rfl⟩

lemma Shrinks.trans {s t u : Schedule} (h : Shrinks s t) (h' : Shrinks t u) : Shrinks s u :=
  ⟨h'.ops.trans h.ops, h'.seed.trans h.seed, h'.items.trans h.items, h'.fault.trans h.fault⟩

lemma shrinks_without (s : Schedule) {start stop : ℕ} (h : start ≤ stop) :
    Shrinks s (s.without start stop) := by
  refine ⟨?_, rfl, rfl, rfl⟩
  have hsub : (s.ops.take start ++ s.ops.drop stop).Sublist (s.ops.take start ++ s.ops.drop start) :=
    .append (.refl _) (List.drop_sublist_drop_left _ h)
  rwa [List.take_append_drop] at hsub

variable {fails maxRuns} {current : Schedule}

lemma tryChunks_le {chunk start runs : ℕ} (h : runs ≤ maxRuns) :
    (tryChunks fails maxRuns current chunk start runs).2 ≤ maxRuns := by
  fun_induction tryChunks fails maxRuns current chunk start runs with
  | case1 _ _ hgo => exact hgo.2
  | case2 _ _ hgo _ _ _ ih => exact ih hgo.2
  | case3 => exact h

lemma tryChunks_some {chunk start runs : ℕ} {candidate : Schedule}
    (h : (tryChunks fails maxRuns current chunk start runs).1 = some candidate) :
    fails candidate ∧ Shrinks current candidate := by
  fun_induction tryChunks fails maxRuns current chunk start runs with
  | case1 start _ hgo stop _ hfails =>
    obtain rfl := Option.some.inj h
    exact ⟨hfails, shrinks_without current (by omega)⟩
  | case2 _ _ _ _ _ _ ih => exact ih h
  | case3 => cases h

/-- A round of single operations that is not cut short has tried them all. -/
lemma tryChunks_none {start runs : ℕ}
    (h : (tryChunks fails maxRuns current 1 start runs).1 = none)
    (hruns : (tryChunks fails maxRuns current 1 start runs).2 < maxRuns) :
    ∀ i, start ≤ i → i < current.ops.length → ¬ fails (current.without i (i + 1)) := by
  fun_induction tryChunks fails maxRuns current 1 start runs with
  | case1 => cases h
  | case2 start _ hgo stop _ hpass ih =>
    have hstop : stop = start + 1 := by omega
    intro i hi hlt
    rcases Nat.eq_or_lt_of_le hi with rfl | hi
    · rwa [← hstop]
    · exact ih h hruns i (by omega) hlt
  | case3 start runs hstop =>
    intro i hi hlt
    omega

/-- What the rounds end with. -/
structure Minimal (fails : Schedule → Bool) (maxRuns : ℕ) (s : Schedule) (r : Schedule × ℕ) :
    Prop where
  failing : fails r.1
  shrinks : Shrinks s r.1
  runs : r.2 ≤ max 1 maxRuns
  needed : r.2 < maxRuns → 2 ≤ r.1.ops.length →
    ∀ i < r.1.ops.length, ¬ fails { r.1 with ops := r.1.ops.eraseIdx i }

lemma rounds_minimal {runs n : ℕ} (hfails : fails current) (hruns : runs ≤ max 1 maxRuns)
    (hn : 2 ≤ n) : Minimal fails maxRuns current (rounds fails maxRuns current runs n) := by
  fun_induction rounds fails maxRuns current runs n with
  | case1 current runs n len hgo chunk hlt round candidate hround ih =>
    obtain ⟨hfails', hshrinks⟩ := tryChunks_some hround
    have hle : round.2 ≤ maxRuns := tryChunks_le hgo.2.le
    have hmin := ih hfails' (by omega) (by omega)
    exact { hmin with shrinks := hshrinks.trans hmin.shrinks }
  | case2 current runs n len hgo chunk hlt round hround hfine =>
    have hle : round.2 ≤ maxRuns := tryChunks_le hgo.2.le
    -- the chunks of the last round were single operations
    have hchunk : chunk = 1 := by
      have : len + n - 1 < 2 * n := by omega
      exact Nat.div_eq_of_lt_le (by omega) (by omega)
    refine ⟨hfails, .refl _, by dsimp only; omega, fun hless _ i hi => ?_⟩
    rw [List.eraseIdx_eq_take_drop_succ]
    simp only [round, hchunk] at hround hless
    exact tryChunks_none hround hless i (Nat.zero_le i) hi
  | case3 current runs n len hgo chunk hlt round hround hfine ih =>
    have hle : round.2 ≤ maxRuns := tryChunks_le hgo.2.le
    exact ih hfails (by omega) (by omega)
  | case4 current runs n len hstop =>
    exact ⟨hfails, .refl _, hruns, fun hless hlen => absurd ⟨hlen, hless⟩ hstop⟩

end CarolinaDB.Qualify
