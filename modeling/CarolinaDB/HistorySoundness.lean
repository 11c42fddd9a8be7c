import CarolinaDB.HistoryRuns

/-!
# Soundness of the history checker

What passes the checker has an execution behind it, as long as the history is orderly: each
branch of the checker is the end of an execution that reproduces the replies and resolutions
so far.
-/
namespace CarolinaDB.Qualify

/-- The request was performed with this outcome, and this result if one is told. -/
def Execution.Gave (x : Execution) (req outcome : String) (result : Option Hash256) : Prop :=
  ∃ e : Expected, x.done[req]? = some e ∧ e.label = outcome ∧
    ∀ d d', e.resultDigest = some d → result = some d' → d' = d

/-- The outcome and the result that a reply or a resolution tells are those of the execution. -/
def Reproduces (_ : Ledger) (_ : Execution) (e : HistoryEvent) (x : Execution) : Prop :=
  match e with
  | .finalReply _ req outcome _ _ result => x.Gave req outcome (some result)
  | .resolve req kind _ _ result =>
    (kind = "COMMITTED" ∨ kind = "REJECTED" → x.Gave req kind result) ∧
      (kind = "ABSENT" → x.done[req]? = none)
  | _ => True

/-- What the checker takes on trust, as a condition on the next event. A request in doubt gets no
rejection, and if it is a supply no second reply; a resolution tells of a request that was
replied to, and tells the result it had. -/
def Orderly (l : Ledger) : HistoryEvent → Prop
  | .finalReply _ req outcome _ _ _ =>
    l.final req = none → req ∈ l.doubtful →
      outcome = "COMMITTED" ∧ ∀ op, l.op req = some op → op.isSupply = false
  | .unknownReply attempt req =>
    l.isForeign attempt = false → l.final req = none → req ∈ l.doubtful →
      ∀ op, l.op req = some op → op.isSupply = false
  | .resolve req kind _ _ result =>
    (kind = "COMMITTED" → match l.final req with
      | some f => result = none ∨ result = some f.resultDigest
      | none => req ∈ l.doubtful ∧ result ≠ none) ∧
    (kind = "REJECTED" → l.final req ≠ none) ∧
    (kind = "ABSENT" → l.final req = none)
  | _ => True

def OrderlyFrom (l : Ledger) : List Event → Prop
  | [] => True
  | e :: es => Orderly l e.event ∧ OrderlyFrom (l.step e.event) es

def OrderlyHistory (history : List Event) : Prop := OrderlyFrom .empty history

/-- A branch and an execution agree on a request: a final one was performed as told, one in
doubt if the branch assumes it, any other one not at all. -/
structure Tracks (l : Ledger) (b : Branch) (x : Execution) (req : String) : Prop where
  final : ∀ f, l.final req = some f → x.Gave req f.outcome (some f.resultDigest)
  assumed : l.final req = none → req ∈ b.assumedCommitted →
    req ∈ l.doubtful ∧ ∃ op, l.op req = some op ∧ x.done[req]? = some (.committed op.result) ∧
      b.assumedResults[req]? = some (Expected.committed op.result).resultDigest ∧
      (op.isSupply = false → b.model.Spent op)
  idle : l.final req = none → req ∉ b.assumedCommitted → x.done[req]? = none

/-- Every branch is the end of an execution, and there is one. -/
def Explained (initial : InventoryModel) (c : Checker) (es : List Event) : Prop :=
  c.branches ≠ [] ∧ ∀ b ∈ c.branches, ∃ x, Run initial Reproduces es x ∧ x.model = b.model ∧
    ∀ req, Tracks (Ledger.of es) b x req

section Clean

/-! ### Steps without findings -/

variable {c c' : Checker} {initial : InventoryModel}

lemma fails_fail {fs : List Finding} : (c.fail fs).fails = [] ↔ c.fails = [] ∧ fs = [] := by
  simp [Checker.fail]

lemma fails_failIf {cond : Prop} [Decidable cond] {f : Finding} :
    (c.failIf cond f).fails = [] ↔ c.fails = [] ∧ ¬ cond := by
  unfold Checker.failIf
  split_ifs with h <;> simp [Checker.fail, h]

@[simp] lemma branches_failIf {cond : Prop} [Decidable cond] {f : Finding} :
    (c.failIf cond f).branches = c.branches := by
  unfold Checker.failIf
  split_ifs <;> rfl

lemma branches_update {req : String} {g : ReqInfo → ReqInfo} :
    (c.update req g).branches = c.branches := by
  unfold Checker.update
  split <;> rfl

lemma fails_update {req : String} {g : ReqInfo → ReqInfo} : (c.update req g).fails = c.fails := by
  unfold Checker.update
  split <;> rfl

lemma fails_retain {p : Branch → Bool} {f : Finding} :
    (c.retain initial p f).fails = [] ↔ c.fails = [] ∧ c.branches.filter p ≠ [] := by
  unfold Checker.retain
  split
  · rename_i h
    simp [Checker.fail, h]
  · rename_i h
    exact ⟨fun hc => ⟨hc, h⟩, fun hc => hc.1⟩

lemma branches_retain (initial : InventoryModel) (f : Finding) {p : Branch → Bool}
    (h : c.branches.filter p ≠ []) :
    (c.retain initial p f).branches = c.branches.filter p := by
  unfold Checker.retain
  split
  · rename_i hnil
    exact absurd hnil h
  · rfl

lemma firstReply_clean {step : ℕ} {req : String} {info : ReqInfo} {f : FinalRef}
    (hok : c.firstReply step req info f = .ok c') (hclean : c'.fails = []) :
    c.fails = [] ∧ (∀ b ∈ c.branches, (b.judge step req info.op f).1 = []) ∧
      c'.branches ≠ [] ∧
        c'.branches = c.branches.filterMap fun b => (b.judge step req info.op f).2 := by
  unfold Checker.firstReply at hok
  dsimp only at hok
  split_ifs at hok with hempty
  · split at hok
    · cases hok
    · cases hok
      simp [Checker.put, Checker.fail] at hclean
  · cases hok
    obtain ⟨hfails, hjudged⟩ : c.fails = [] ∧
        (c.branches.map (Branch.judge step req info.op f)).flatMap (·.1) = [] := fails_fail.mp hclean
    refine ⟨hfails, fun b hb => ?_, ?_, ?_⟩
    · exact List.flatMap_eq_nil_iff.mp hjudged _ (List.mem_map_of_mem hb)
    · exact fun hnil => hempty (List.isEmpty_iff.mpr hnil)
    · exact List.filterMap_map

/-- A final reply without a finding repeats the earlier one, or is explained by branches. -/
lemma finalReply_clean {step attempt : ℕ} {req : String} {f : FinalRef}
    (hok : c.finalReply step attempt req f = .ok c') (hclean : c'.fails = []) :
    c.fails = [] ∧ c.mismatched attempt = false ∧ ∃ info, c.reqs[req]? = some info ∧
      (info.finalReply = some f ∧ c'.branches = c.branches ∨
        info.finalReply = none ∧ (∀ b ∈ c.branches, (b.judge step req info.op f).1 = []) ∧
          c'.branches ≠ [] ∧
            c'.branches = c.branches.filterMap fun b => (b.judge step req info.op f).2) := by
  unfold Checker.finalReply at hok
  split_ifs at hok with hforeign
  · cases hok
    simp [Checker.fail] at hclean
  split at hok
  · cases hok
    simp [Checker.fail] at hclean
  rename_i info hinfo
  split_ifs at hok with hlen
  dsimp only at hok
  have hforeign' : c.mismatched attempt = false := Bool.eq_false_iff.mpr hforeign
  split at hok
  · rename_i old hold
    cases hok
    simp only [fails_failIf, not_not] at hclean
    obtain ⟨⟨⟨hfails, -⟩, -⟩, rfl⟩ := hclean
    exact ⟨hfails, hforeign', info, hinfo, .inl ⟨hold, by simp⟩⟩
  · rename_i hnone
    obtain ⟨hfails, hjudge, hne, hbranches⟩ := firstReply_clean hok hclean
    simp only [fails_failIf, branches_failIf] at hfails hjudge hbranches
    exact ⟨hfails.1.1.1, hforeign', info, hinfo, .inr ⟨hnone, hjudge, hne, hbranches⟩⟩

/-- What a branch says about the reply it explains without a finding. -/
lemma judge_some {step : ℕ} {req : String} {op : W1Op} {f : FinalRef} {b b' : Branch}
    (hfine : (b.judge step req op f).1 = []) (h : (b.judge step req op f).2 = some b') :
    b' = { b with model := (b.model.apply op).2 } ∧ (b.model.apply op).1.label = f.outcome ∧
      ∀ d, (b.model.apply op).1.resultDigest = some d → f.resultDigest = d := by
  unfold Branch.judge at hfine h
  obtain ⟨reason, he, ha⟩ | ⟨next, he, ha, -, hinv⟩ := b.model.apply_cases op
  · rw [he] at h
    dsimp only at h
    split_ifs at h with hrej
    cases h
    rw [ha]
    exact ⟨rfl, hrej.symm, fun d hd => (by cases hd)⟩
  · rw [he] at h hfine
    dsimp only at h hfine
    by_cases hcom : f.outcome = "COMMITTED"
    · rw [if_pos hcom] at h hfine
      cases h
      rw [hinv, List.append_nil] at hfine
      rw [ha]
      refine ⟨rfl, hcom.symm, fun d hd => ?_⟩
      by_contra hne
      rw [if_pos] at hfine
      · cases hfine
      · rw [hd]
        simpa using Ne.symm hne
    · rw [if_neg hcom] at h
      split_ifs at h

lemma mem_fork {req : String} {op : W1Op} {b b' : Branch} :
    b' ∈ b.fork req op ↔ b' = b ∨ ∃ next, b.model.evaluate op = (.committed op.result, some next) ∧
      b' = ⟨next, insert req b.assumedCommitted,
        b.assumedResults.insert req (Expected.committed op.result).resultDigest⟩ := by
  unfold Branch.fork
  obtain ⟨reason, he, -⟩ | ⟨next, he, -⟩ := b.model.apply_cases op
  · rw [he]
    simp
  · rw [he]
    simp

/-- Evidence of a commit without a finding: the branches left assume the commit, with the result
that was told. -/
lemma settle_clean {step : ℕ} {req : String} {info : ReqInfo} {r : Resolution}
    (hkind : r.kind = "COMMITTED") (hclean : (c.settle initial step req info r).fails = []) :
    (c.settle initial step req info r).branches ≠ [] ∧
      ∀ b ∈ (c.settle initial step req info r).branches, b ∈ c.branches ∧
        req ∈ b.assumedCommitted ∧ ∀ expected d, b.assumedResults[req]? = some (some expected) →
          r.resultDigest = some d → expected = d := by
  unfold Checker.settle at hclean ⊢
  simp only [hkind, decide_true, if_true, Checker.put] at hclean ⊢
  rw [fails_fail, fails_retain] at hclean
  obtain ⟨⟨-, hne⟩, hresults⟩ := hclean
  have hbranches := branches_retain initial (.contradicted step req "COMMITTED" c.branches.length) hne
  rw [hbranches] at hresults
  simp only [Checker.fail, hbranches]
  refine ⟨hne, fun b hb => ?_⟩
  obtain ⟨hmem, hassumed⟩ := List.mem_filter.mp hb
  refine ⟨hmem, by simpa using hassumed, fun expected d hexpected hd => ?_⟩
  have hfine := List.flatMap_eq_nil_iff.mp hresults b hb
  simpa [Branch.checkResult, hexpected, hd] using hfine

end Clean

/-! ### One event -/

section Step

variable {c c' : Checker} {initial : InventoryModel} {l l' : Ledger} {b b' : Branch}
  {x : Execution} {req req' : String} {op : W1Op} {es : List Event} {e : Event}

lemma Tracks.of_ledger (h : Tracks l b x req) (hfinal : l'.final req = l.final req)
    (hop : ∀ o, l.op req = some o → l'.op req = some o)
    (hdoubtful : req ∈ b.assumedCommitted → req ∈ l.doubtful → req ∈ l'.doubtful) :
    Tracks l' b x req where
  final f hf := h.final f (hfinal ▸ hf)
  assumed hf hmem := by
    obtain ⟨hd, o, ho, hdone, hresult, hspent⟩ := h.assumed (hfinal ▸ hf) hmem
    exact ⟨hdoubtful hmem hd, o, hop o ho, hdone, hresult, hspent⟩
  idle hf := h.idle (hfinal ▸ hf)

/-- Performing a request changes nothing about another one. -/
lemma Tracks.perform (h : Tracks l b x req) (hne : req' ≠ req)
    (hmodel : b'.model = (b.model.apply op).2)
    (hassumed : req ∈ b'.assumedCommitted ↔ req ∈ b.assumedCommitted)
    (hresults : b'.assumedResults[req]? = b.assumedResults[req]?) :
    Tracks l b' (x.perform req' op) req := by
  have hdone : (x.perform req' op).done[req]? = x.done[req]? := FiniteMap.get_insert_of_ne hne
  refine ⟨fun f hf => ?_, fun hf hmem => ?_, fun hf hmem => ?_⟩
  · unfold Execution.Gave
    rw [hdone]
    exact h.final f hf
  · obtain ⟨hd, o, ho, hdone', hresult, hspent⟩ := h.assumed hf (hassumed.mp hmem)
    rw [hdone, hresults, hmodel]
    exact ⟨hd, o, ho, hdone', hresult, fun hop => (hspent hop).apply⟩
  · rw [hdone]
    exact h.idle hf fun hmem' => hmem (hassumed.mpr hmem')

/-- A branch that assumes a request cannot commit it again, unless it is a supply. -/
lemma Tracks.not_done (h : Tracks l b x req) (hfinal : l.final req = none) (hop : l.op req = some op)
    (hsupply : req ∈ l.doubtful → op.isSupply = false) {next : InventoryModel}
    (hcommit : b.model.attempt op = .ok (op.result, next)) :
    req ∉ b.assumedCommitted ∧ x.done[req]? = none := by
  by_cases hassumed : req ∈ b.assumedCommitted
  · obtain ⟨hd, o, ho, -, -, hspent⟩ := h.assumed hfinal hassumed
    rw [hop] at ho
    cases ho
    exact absurd hcommit (InventoryModel.attempt_of_spent (hspent (hsupply hd)))
  · exact ⟨hassumed, h.idle hfinal hassumed⟩

/-- An event that keeps some branches, and decides nothing about any request. -/
lemma Explained.keep (h : Explained initial c es) (hne : c'.branches ≠ [])
    (hsub : c'.branches ⊆ c.branches)
    (hfinal : ∀ req, (Ledger.of (es ++ [e])).final req = (Ledger.of es).final req)
    (hdoubtful : ∀ b ∈ c'.branches, ∀ req ∈ b.assumedCommitted,
      req ∈ (Ledger.of es).doubtful → req ∈ (Ledger.of (es ++ [e])).doubtful)
    (hreproduces : ∀ b ∈ c'.branches, ∀ x, (∀ req, Tracks (Ledger.of es) b x req) →
      Reproduces (Ledger.of es) x e.event x) :
    Explained initial c' (es ++ [e]) := by
  refine ⟨hne, fun b hb => ?_⟩
  obtain ⟨x, hrun, hmodel, htracks⟩ := h.2 b (hsub hb)
  refine ⟨x, hrun.step (.idle _) (hreproduces b hb x htracks), hmodel, fun req => ?_⟩
  apply (htracks req).of_ledger (hfinal req)
  · rw [Ledger.of_append_singleton]
    exact fun o ho => Ledger.op_step ho _
  · exact hdoubtful b hb req

lemma Explained.finalReply {step attempt : ℕ} {outcome : String} {txnId : Bytes} {rd res : Hash256}
    (h : Explained initial c es) (hag : Agrees c (Ledger.of es))
    (he : e.event = .finalReply attempt req outcome txnId rd res)
    (hok : c.finalReply step attempt req ⟨outcome, txnId, rd, res⟩ = .ok c')
    (hclean : c'.fails = []) (horderly : Orderly (Ledger.of es) e.event) :
    Explained initial c' (es ++ [e]) := by
  obtain ⟨-, hforeign, info, hinfo, hcases⟩ := finalReply_clean hok hclean
  rw [← hag.isForeign] at hforeign
  have haccount := hag.account_of hinfo
  have hop : (Ledger.of es).op req = some info.op := by rw [Ledger.op, haccount]; rfl
  have hfinal : (Ledger.of es).final req = info.finalReply := by rw [Ledger.final, haccount]; rfl
  have hstep : Ledger.of (es ++ [e]) = (Ledger.of es).adjust req
      (Account.finalReply ⟨outcome, txnId, rd, res⟩) := by
    rw [Ledger.of_append_singleton, he]
    simp only [Ledger.step, hforeign, Bool.false_eq_true, if_false]
  have hafter (req' : String) : (Ledger.of (es ++ [e])).final req' =
      if req = req' then some (info.finalReply.getD ⟨outcome, txnId, rd, res⟩)
      else (Ledger.of es).final req' := by
    rw [hstep, Ledger.final_adjust]
    split_ifs with heq
    · subst heq
      rw [haccount]
      rfl
    · rfl
  obtain ⟨hold, hbranches⟩ | ⟨hnone, hfine, hne, hbranches⟩ := hcases
  · apply h.keep (by rw [hbranches]; exact h.1) (by rw [hbranches]; exact List.Subset.refl _)
    · intro req'
      rw [hafter]
      split_ifs with heq
      · subst heq
        rw [hfinal, hold, Option.getD_some]
      · rfl
    · rw [hstep, ((Ledger.of es).adjust_frame _ _).2.2.2.1]
      exact fun _ _ _ _ hd => hd
    · intro b hb x htracks
      rw [he]
      exact (htracks req).final _ (hfinal.trans hold)
  · refine ⟨hne, fun b' hb' => ?_⟩
    rw [hbranches, List.mem_filterMap] at hb'
    obtain ⟨b, hb, hjudge⟩ := hb'
    obtain ⟨rfl, hlabel, hresult⟩ := judge_some (hfine b hb) hjudge
    obtain ⟨x, hrun, hmodel, htracks⟩ := h.2 b hb
    rw [hnone] at hfinal
    have hnotdone : x.done[req]? = none := by
      rw [he] at horderly
      obtain ⟨reason, -, ha⟩ | ⟨next, -, -, hattempt, -⟩ := b.model.apply_cases info.op
      · apply (htracks req).idle hfinal
        intro hassumed
        obtain ⟨hcommitted, -⟩ := horderly hfinal ((htracks req).assumed hfinal hassumed).1
        simp [ha, Expected.label, hcommitted] at hlabel
      · exact ((htracks req).not_done hfinal hop
          (fun hd => (horderly hfinal hd).2 _ hop) hattempt).2
    have hdone : (x.perform req info.op).done[req]? = some (b.model.apply info.op).1 := by
      rw [Execution.perform, FiniteMap.get_insert_self, hmodel]
    have hgave : (x.perform req info.op).Gave req outcome (some res) := by
      refine ⟨_, hdone, hlabel, fun d d' hd hd' => ?_⟩
      cases hd'
      exact hresult d hd
    refine ⟨x.perform req info.op, hrun.step ?_ ?_, ?_, fun req' => ?_⟩
    · rw [he]
      exact .atFinal hforeign haccount hnotdone
    · rw [he]
      exact hgave
    · rw [Execution.perform, hmodel]
    · by_cases heq : req = req'
      · subst heq
        have hset := hafter req
        rw [if_pos rfl, hnone, Option.getD_none] at hset
        refine ⟨fun f hf => ?_, fun hf => ?_, fun hf => ?_⟩
        · rw [hset] at hf
          cases hf
          exact hgave
        · rw [hset] at hf
          cases hf
        · rw [hset] at hf
          cases hf
      · apply ((htracks req').perform heq ?_ ?_ ?_).of_ledger
        · rw [hafter, if_neg heq]
        · rw [Ledger.of_append_singleton]
          exact fun o ho => Ledger.op_step ho _
        · rw [hstep, ((Ledger.of es).adjust_frame _ _).2.2.2.1]
          exact fun _ hd => hd
        · rfl
        · exact Iff.rfl
        · rfl

lemma Explained.unknownReply {attempt : ℕ} (h : Explained initial c es)
    (hag : Agrees c (Ledger.of es)) (he : e.event = .unknownReply attempt req)
    (horderly : Orderly (Ledger.of es) e.event) :
    Explained initial (c.unknownReply attempt req) (es ++ [e]) := by
  have hstep : Ledger.of (es ++ [e]) = (Ledger.of es).unknownReply attempt req := by
    rw [Ledger.of_append_singleton, he]
    rfl
  have hfinal (req' : String) : (Ledger.of (es ++ [e])).final req' = (Ledger.of es).final req' := by
    rw [hstep, Ledger.final_unknownReply]
  have hdoubtful : (Ledger.of es).doubtful ⊆ (Ledger.of (es ++ [e])).doubtful := by
    rw [hstep]
    exact Ledger.doubtful_unknownReply_subset
  have hreproduces (x : Execution) : Reproduces (Ledger.of es) x e.event x := by
    rw [he]
    trivial
  have hkeep : Explained initial c (es ++ [e]) :=
    h.keep h.1 (List.Subset.refl _) hfinal (fun _ _ _ _ hd => hdoubtful hd)
      fun b _ x _ => hreproduces x
  unfold Checker.unknownReply
  cases hinfo : c.reqs[req]? with
  | none => exact hkeep
  | some info =>
    dsimp only
    split_ifs with hskip
    · exact hkeep
    rw [not_or, Bool.not_eq_true, Bool.not_eq_true, Option.isSome_eq_false_iff,
      Option.isNone_iff_eq_none] at hskip
    obtain ⟨hnone, hforeign⟩ := hskip
    rw [← hag.isForeign] at hforeign
    have haccount := hag.account_of hinfo
    have hop : (Ledger.of es).op req = some info.op := by rw [Ledger.op, haccount]; rfl
    have hnofinal : (Ledger.of es).final req = none := by
      rw [Ledger.final, haccount]
      exact hnone
    refine ⟨?_, fun b' hb' => ?_⟩
    · obtain ⟨b, hb⟩ := List.exists_mem_of_ne_nil _ h.1
      exact List.ne_nil_of_mem (List.mem_flatMap.mpr ⟨b, hb, mem_fork.mpr (.inl rfl)⟩)
    · obtain ⟨b, hb, hfork⟩ := List.mem_flatMap.mp hb'
      obtain rfl | ⟨next, heval, rfl⟩ := mem_fork.mp hfork
      · exact hkeep.2 b' hb
      obtain ⟨x, hrun, hmodel, htracks⟩ := h.2 b hb
      obtain ⟨reason, heval', -⟩ | ⟨next', heval', ha, hattempt, -⟩ := b.model.apply_cases info.op
      · rw [heval'] at heval
        cases heval
      rw [heval'] at heval
      cases heval
      rw [he] at horderly
      obtain ⟨hassumed, hnotdone⟩ := (htracks req).not_done hnofinal hop
        (fun hd => horderly hforeign hnofinal hd _ hop) hattempt
      refine ⟨x.perform req info.op, hrun.step ?_ ?_, ?_, fun req' => ?_⟩
      · rw [he]
        exact .atUnknown hforeign haccount hnotdone
      · rw [he]
        trivial
      · rw [Execution.perform, hmodel, ha]
      · by_cases heq : req = req'
        · subst heq
          refine ⟨fun f hf => ?_, fun _ _ => ⟨?_, info.op, ?_, ?_, ?_, ?_⟩, fun _ hmem => ?_⟩
          · rw [hfinal, hnofinal] at hf
            cases hf
          · rw [hstep]
            exact Ledger.mem_doubtful_unknownReply hforeign haccount hnofinal
          · rw [Ledger.of_append_singleton]
            exact Ledger.op_step hop _
          · rw [Execution.perform, FiniteMap.get_insert_self, hmodel, ha]
          · rw [FiniteMap.get_insert_self]
          · exact InventoryModel.spent_of_attempt hattempt
          · exact absurd (Finset.mem_insert_self req _) hmem
        · apply ((htracks req').perform heq ?_ ?_ ?_).of_ledger (hfinal req')
          · rw [Ledger.of_append_singleton]
            exact fun o ho => Ledger.op_step ho _
          · exact fun _ hd => hdoubtful hd
          · rw [ha]
          · rw [Finset.mem_insert, or_iff_right (Ne.symm heq)]
          · rw [FiniteMap.get_insert_of_ne heq]

lemma gave_rejected {result : Option Hash256} {d : Option Hash256} (h : x.Gave req "REJECTED" d) :
    x.Gave req "REJECTED" result := by
  obtain ⟨e, hdone, hlabel, -⟩ := h
  refine ⟨e, hdone, hlabel, fun d d' hd => ?_⟩
  cases e with
  | committed v => simp [Expected.label] at hlabel
  | rejected reason => cases hd

section Resolve

variable {kind : String} {txnId : Bytes} {rd res : Option Hash256}

/-- A resolution that decides nothing, and leaves only branches without an absent request. -/
lemma Explained.undecided (h : Explained initial c es)
    (he : e.event = .resolve req kind txnId rd res)
    (hkind : ¬ (kind = "COMMITTED" ∨ kind = "REJECTED"))
    (habsent : kind = "ABSENT" → (Ledger.of es).final req = none)
    (hne : c'.branches ≠ []) (hsub : c'.branches ⊆ c.branches)
    (hassumed : kind = "ABSENT" → ∀ b ∈ c'.branches, req ∉ b.assumedCommitted) :
    Explained initial c' (es ++ [e]) := by
  have hstep : Ledger.of (es ++ [e]) = (Ledger.of es).resolve req ⟨kind, txnId, rd, res⟩ := by
    rw [Ledger.of_append_singleton, he]
    rfl
  apply h.keep hne hsub
  · intro req'
    rw [hstep]
    exact Ledger.final_resolve_same fun a _ hdecides => hkind hdecides.1
  · intro b hb req' hmem hd
    rw [hstep]
    unfold Ledger.resolve
    dsimp only
    split_ifs with hk
    · refine Finset.mem_erase.mpr ⟨?_, hd⟩
      rintro rfl
      exact hassumed hk b hb hmem
    · exact hd
  · intro b hb x htracks
    rw [he]
    exact ⟨fun hk => absurd hk hkind,
      fun hk => (htracks req).idle (habsent hk) (hassumed hk b hb)⟩

/-- A final request resolved to its outcome. -/
lemma Explained.confirmed {f : FinalRef} (h : Explained initial c es)
    (he : e.event = .resolve req kind txnId rd res)
    (hkind : kind = "COMMITTED" ∨ kind = "REJECTED") (hfinal : (Ledger.of es).final req = some f)
    (houtcome : f.outcome = kind)
    (hresult : kind = "COMMITTED" → res = none ∨ res = some f.resultDigest)
    (hbranches : c'.branches = c.branches) : Explained initial c' (es ++ [e]) := by
  have hstep : Ledger.of (es ++ [e]) = (Ledger.of es).resolve req ⟨kind, txnId, rd, res⟩ := by
    rw [Ledger.of_append_singleton, he]
    rfl
  have hnotabsent : kind ≠ "ABSENT" := by
    rintro rfl
    simp at hkind
  apply h.keep (by rw [hbranches]; exact h.1) (by rw [hbranches]; exact List.Subset.refl _)
  · intro req'
    rw [hstep]
    refine Ledger.final_resolve_same fun a ha hdecides => ?_
    rw [Ledger.final, ha, Option.bind_some, hdecides.2.1] at hfinal
    cases hfinal
  · intro b hb req' hmem hd
    rw [hstep]
    simp only [Ledger.resolve, hnotabsent, if_false]
    exact hd
  · intro b hb x htracks
    have hgave := (htracks req).final f hfinal
    rw [he]
    refine ⟨fun _ => ?_, fun hk => absurd hk hnotabsent⟩
    obtain rfl | rfl := hkind
    · obtain ⟨expected, hdone, hlabel, hdigest⟩ := hgave
      refine ⟨expected, hdone, hlabel.trans houtcome, fun d d' hd hd' => hdigest d d' hd ?_⟩
      obtain hnone | hsome := hresult rfl
      · rw [hnone] at hd'
        cases hd'
      · rw [← hsome]
        exact hd'
    · rw [houtcome] at hgave
      exact gave_rejected hgave

/-- A request in doubt resolved to be committed: the branches that assume it stay. -/
lemma Explained.settled {d : Hash256} {a : Account} (h : Explained initial c es)
    (he : e.event = .resolve req "COMMITTED" txnId rd (some d))
    (haccount : (Ledger.of es).accounts[req]? = some a) (hfinal : a.final = none)
    (hunknown : a.unknown = true) (hne : c'.branches ≠ [])
    (hsub : ∀ b ∈ c'.branches, b ∈ c.branches ∧ req ∈ b.assumedCommitted ∧
      ∀ expected, b.assumedResults[req]? = some (some expected) → expected = d) :
    Explained initial c' (es ++ [e]) := by
  have hstep : Ledger.of (es ++ [e]) =
      (Ledger.of es).resolve req ⟨"COMMITTED", txnId, rd, some d⟩ := by
    rw [Ledger.of_append_singleton, he]
    rfl
  have hafter (req' : String) : (Ledger.of (es ++ [e])).final req' =
      if req = req' then some ⟨"COMMITTED", txnId, rd.getD Hash256.zero, d⟩
      else (Ledger.of es).final req' := by
    rw [hstep]
    exact Ledger.final_resolve haccount (.inl rfl) hfinal hunknown
  have hnone : (Ledger.of es).final req = none := by
    rw [Ledger.final, haccount]
    exact hfinal
  refine ⟨hne, fun b hb => ?_⟩
  obtain ⟨hmem, hassumed, hresult⟩ := hsub b hb
  obtain ⟨x, hrun, hmodel, htracks⟩ := h.2 b hmem
  obtain ⟨hd, op, hop, hdone, hexpected, -⟩ := (htracks req).assumed hnone hassumed
  have hgave : x.Gave req "COMMITTED" (some d) := by
    refine ⟨_, hdone, rfl, fun d₁ d₂ h₁ h₂ => ?_⟩
    rw [h₁] at hexpected
    cases h₂
    exact (hresult d₁ hexpected).symm
  refine ⟨x, hrun.step (.idle _) ?_, hmodel, fun req' => ?_⟩
  · rw [he]
    exact ⟨fun _ => hgave, fun hk => by simp at hk⟩
  · by_cases heq : req = req'
    · subst heq
      have hset := hafter req
      rw [if_pos rfl] at hset
      refine ⟨fun f hf => ?_, fun hf => ?_, fun hf => ?_⟩
      · rw [hset] at hf
        cases hf
        exact hgave
      · rw [hset] at hf
        cases hf
      · rw [hset] at hf
        cases hf
    · apply (htracks req').of_ledger
      · rw [hafter, if_neg heq]
      · rw [Ledger.of_append_singleton]
        exact fun o ho => Ledger.op_step ho _
      · rw [hstep]
        exact fun _ hd => hd

lemma Explained.resolve {lastRestart step : ℕ} (h : Explained initial c es)
    (hag : Agrees c (Ledger.of es)) (he : e.event = .resolve req kind txnId rd res)
    (hclean : (c.resolve initial lastRestart step req ⟨kind, txnId, rd, res⟩).fails = [])
    (horderly : Orderly (Ledger.of es) e.event) :
    Explained initial (c.resolve initial lastRestart step req ⟨kind, txnId, rd, res⟩)
      (es ++ [e]) := by
  rw [he] at horderly
  obtain ⟨hcommitted, hrejected, habsent⟩ := horderly
  unfold Checker.resolve at hclean ⊢
  cases hinfo : c.reqs[req]? with
  | none =>
    have haccount := hag.account_none hinfo
    have hnone : (Ledger.of es).final req = none := by rw [Ledger.final, haccount]; rfl
    apply h.undecided he ?_ habsent h.1 (List.Subset.refl _)
    · intro _ b hb hmem
      obtain ⟨x, -, -, htracks⟩ := h.2 b hb
      obtain ⟨-, op, hop, -⟩ := (htracks req).assumed hnone hmem
      rw [Ledger.op, haccount] at hop
      cases hop
    · rintro (rfl | rfl)
      · have hdoubtful := hcommitted rfl
        rw [hnone] at hdoubtful
        obtain ⟨a, ha, -⟩ := Ledger.account_of_doubtful es req hdoubtful.1
        rw [haccount] at ha
        cases ha
      · exact hrejected rfl hnone
  | some info =>
    have haccount := hag.account_of hinfo
    have hfinal : (Ledger.of es).final req = info.finalReply := by rw [Ledger.final, haccount]; rfl
    rw [hinfo] at hclean
    dsimp only at hclean ⊢
    split at hclean
    · rename_i hkind
      rw [if_pos hkind]
      cases hreply : info.finalReply with
      | some f =>
        rw [hreply] at hclean hfinal
        simp only [fails_failIf, not_or, not_not] at hclean
        rw [hfinal] at hcommitted
        exact h.confirmed he hkind hfinal hclean.2.1 hcommitted (by simp [Checker.put])
      | none =>
        rw [hreply] at hclean hfinal
        dsimp only at hclean ⊢
        have hk : kind = "COMMITTED" := hkind.resolve_right fun hk => hrejected hk hfinal
        subst hk
        rw [hfinal] at hcommitted
        obtain ⟨hdoubtful, hres⟩ := hcommitted rfl
        obtain ⟨d, rfl⟩ := Option.ne_none_iff_exists'.mp hres
        obtain ⟨a, ha, hunknown⟩ := Ledger.account_of_doubtful es req hdoubtful
        rw [haccount] at ha
        cases ha
        have hattempts : info.unknownAttempts ≠ [] := by
          obtain hu | hf := hunknown
          · simpa [ReqInfo.account] using hu
          · rw [ReqInfo.account, hreply] at hf
            cases hf
        rw [if_neg hattempts] at hclean ⊢
        obtain ⟨hne, hsub⟩ := settle_clean rfl hclean
        refine h.settled he haccount hreply (by simpa [ReqInfo.account] using hattempts) hne
          fun b hb => ?_
        obtain ⟨hmem, hassumed, hresult⟩ := hsub b hb
        exact ⟨hmem, hassumed, fun expected hexpected => hresult expected d hexpected rfl⟩
    · rename_i hkind
      rw [if_neg hkind]
      split_ifs at hclean ⊢ with hwait hk
      · subst hk
        rw [fails_retain] at hclean
        have hbranches := branches_retain initial (.absentAssumed step req) hclean.2
        refine h.undecided he hkind habsent ?_ ?_ fun _ b hb => ?_
        · rw [hbranches]
          exact hclean.2
        · rw [hbranches, branches_failIf]
          exact List.filter_subset_self _
        · rw [hbranches] at hb
          simpa using (List.mem_filter.mp hb).2
      · refine h.undecided he hkind habsent ?_ ?_ fun hk' => absurd hk' hk
        · rw [branches_failIf]
          exact h.1
        · rw [branches_failIf]
          exact List.Subset.refl _
      · refine h.undecided he hkind habsent h.1 (List.Subset.refl _) fun hk' => ?_
        exact absurd (.inl hk') hwait

end Resolve

lemma Explained.step {lastRestart : ℕ} (h : Explained initial c es) (hag : Agrees c (Ledger.of es))
    (hok : c.step initial lastRestart e = .ok c') (hclean : c'.fails = [])
    (horderly : Orderly (Ledger.of es) e.event) : Explained initial c' (es ++ [e]) := by
  unfold Checker.step at hok
  cases he : e.event with
  | finalReply attempt req outcome txnId rd res =>
    rw [he] at hok
    exact h.finalReply hag he hok hclean horderly
  | unknownReply attempt req =>
    rw [he] at hok
    cases hok
    exact h.unknownReply hag he horderly
  | resolve req kind txnId rd res =>
    rw [he] at hok
    cases hok
    exact h.resolve hag he hclean horderly
  | _ =>
    have htells : Ledger.tells e.event = false := by rw [he]; rfl
    have hbranches : c'.branches = c.branches := by
      rw [he] at hok
      cases hok
      first
        | rfl
        | exact branches_update
    apply h.keep (by rw [hbranches]; exact h.1) (by rw [hbranches]; exact List.Subset.refl _)
    · intro req
      rw [Ledger.of_append_singleton]
      exact (Ledger.step_of_not_tells htells req).1
    · intro b _ req _ hd
      rw [Ledger.of_append_singleton, (Ledger.step_of_not_tells htells req).2]
      exact hd
    · intro b _ x _
      rw [he]
      trivial

end Step

/-! ### Whole histories -/

section Scan

variable {c c' : Checker} {initial : InventoryModel} {input : CheckerInput} {lastRestart : ℕ}

lemma fails_settle {step : ℕ} {req : String} {info : ReqInfo} {r : Resolution}
    (h : (c.settle initial step req info r).fails = []) : c.fails = [] := by
  unfold Checker.settle at h
  dsimp only [Checker.put] at h
  split_ifs at h
  · exact (fails_retain.mp (fails_fail.mp h).1).1
  · exact (fails_retain.mp h).1

lemma fails_resolve {step : ℕ} {req : String} {r : Resolution}
    (h : (c.resolve initial lastRestart step req r).fails = []) : c.fails = [] := by
  unfold Checker.resolve at h
  split at h
  · exact h
  dsimp only at h
  split at h
  · split at h
    · exact (fails_failIf.mp h).1
    · split_ifs at h
      · exact h
      · exact fails_settle h
  · split_ifs at h
    · exact (fails_failIf.mp (fails_retain.mp h).1).1
    · exact (fails_failIf.mp h).1
    · exact h

/-- Findings stay. -/
lemma fails_step {e : Event} (hok : c.step initial lastRestart e = .ok c') (h : c'.fails = []) :
    c.fails = [] := by
  unfold Checker.step at hok
  split at hok
  · cases hok
    exact h
  · exact (finalReply_clean hok h).1
  · cases hok
    unfold Checker.unknownReply at h
    split at h
    · exact h
    · split_ifs at h
      · exact h
      · exact h
  · cases hok
    rw [fails_update] at h
    exact h
  · cases hok
    exact fails_resolve h
  · cases hok
    rw [fails_update] at h
    exact h
  · cases hok
    exact h
  all_goals
    cases hok
    exact h

lemma fails_scan {es : List Event} {explored n : ℕ} {r : Option ℕ}
    (hok : Checker.scan input lastRestart es explored c = .ok (c', n, r)) (h : c'.fails = []) :
    c.fails = [] := by
  induction es generalizing explored c with
  | nil =>
    cases hok
    exact h
  | cons e es ih =>
    unfold Checker.scan at hok
    dsimp only at hok
    split_ifs at hok
    · cases hok
      exact h
    · obtain ⟨c₁, hstep, hrest⟩ := CoreResult.bind_eq_ok_iff.mp hok
      exact fails_step hstep (ih hrest)

lemma Explained.scan {es rest : List Event} {explored n : ℕ} (h : Explained input.initial c es)
    (hag : Agrees c (Ledger.of es))
    (hok : Checker.scan input lastRestart rest explored c = .ok (c', n, none))
    (hclean : c'.fails = []) (horderly : OrderlyFrom (Ledger.of es) rest) :
    Explained input.initial c' (es ++ rest) := by
  induction rest generalizing es explored c with
  | nil =>
    cases hok
    rw [List.append_nil]
    exact h
  | cons e rest ih =>
    unfold Checker.scan at hok
    dsimp only at hok
    split_ifs at hok
    · cases hok
    obtain ⟨c₁, hstep, hrest⟩ := CoreResult.bind_eq_ok_iff.mp hok
    have hclean₁ := fails_scan hrest hclean
    have h₁ := h.step hag hstep hclean₁ horderly.1
    have hag₁ := hag.step hstep
    have horderly₁ := horderly.2
    rw [← Ledger.of_append_singleton] at hag₁ horderly₁
    rw [List.append_cons]
    exact ih h₁ hag₁ hrest horderly₁

lemma Explained.start (initial : InventoryModel) : Explained initial (.start initial) [] := by
  refine ⟨by simp [Checker.start], fun b hb => ?_⟩
  simp only [Checker.start, List.mem_singleton] at hb
  subst hb
  refine ⟨⟨initial, ∅⟩, .start, rfl, fun req => ⟨fun f hf => ?_, fun _ hmem => ?_, fun _ _ => ?_⟩⟩
  · simp [Ledger.of, Ledger.empty, Ledger.final] at hf
  · simp [Branch.root] at hmem
  · simp

lemma Agrees.start (initial : InventoryModel) : Agrees (.start initial) (Ledger.of []) := by
  constructor <;> simp [Checker.start, Ledger.of, Ledger.empty]

lemma rule_mem_localRules (f : Finding) : f.rule ∈ localRules := by
  cases f with
  | stateUnexplained candidates diff =>
    simp only [Finding.rule]
    split_ifs <;> simp [localRules]
  | _ => simp [Finding.rule, localRules]

lemma rule_report (fails : List Finding) (rule : Rule) : (report fails rule).rule = rule := by
  unfold report
  split <;> rfl

/-- All local rules pass exactly if nothing was found. -/
lemma report_pass_iff {fails : List Finding} :
    (∀ rule ∈ localRules, (report fails rule).status = .pass) ↔ fails = [] := by
  constructor
  · intro h
    by_contra hne
    obtain ⟨f, hf⟩ := List.exists_mem_of_ne_nil fails hne
    have hpass := h f.rule (rule_mem_localRules f)
    unfold report at hpass
    split at hpass
    · rename_i hnil
      have := List.filter_eq_nil_iff.mp hnil f hf
      simp at this
    · cases hpass
  · rintro rfl rule -
    rfl

lemma passes_iff : passes input = true ↔ ∃ results, check input = .ok results ∧
    ∀ r ∈ results, r.rule ∈ localRules → r.status = .pass := by
  unfold passes
  cases check input with
  | error err => simp
  | ok results => simp [imp_iff_not_or]

/-- A check that passes read the whole history and found nothing. -/
lemma scan_of_passes (h : passes input = true) :
    ∃ c n, Checker.scan input (lastRestartStep input.history) input.history 0
        (.start input.initial) = .ok (c, n, none) ∧
      c.endOfHistory input (lastRestartStep input.history) = .ok [] := by
  obtain ⟨results, hcheck, hpass⟩ := passes_iff.mp h
  unfold check at hcheck
  obtain ⟨⟨c, n, exhausted⟩, hscan, hcheck⟩ := CoreResult.bind_eq_ok_iff.mp hcheck
  obtain ⟨rs, hrs, hcheck⟩ := CoreResult.bind_eq_ok_iff.mp hcheck
  cases hcheck
  have hlocal (r : CheckResult) (hr : r ∈ rs) : r.rule ∈ localRules → r.status = .pass :=
    hpass r (List.mem_append_left _ hr)
  cases exhausted with
  | some step =>
    cases hrs
    have := hlocal ⟨.c01, .inconclusive, []⟩ (by simp [localRules]) (by simp [localRules])
    cases this
  | none =>
    obtain ⟨fails, hfails, hrs⟩ := CoreResult.bind_eq_ok_iff.mp hrs
    cases hrs
    refine ⟨c, n, hscan, ?_⟩
    have hnil : fails = [] := by
      refine report_pass_iff.mp fun rule hrule => ?_
      refine hlocal _ (List.mem_map_of_mem hrule) ?_
      rw [rule_report]
      exact hrule
    rw [hfails, hnil]

/-- A final state without a finding is that of a branch. -/
lemma mem_branches_of_checkFinalState {fs : InventoryModel}
    (h : c.checkFinalState (some fs) = .ok []) : ∃ b ∈ c.branches, b.model = fs := by
  unfold Checker.checkFinalState at h
  obtain ⟨unexplained, hu, h⟩ := CoreResult.bind_eq_ok_iff.mp h
  simp only [Except.ok.injEq, List.append_eq_nil_iff] at h
  unfold Checker.matchFinalState at hu
  split_ifs at hu with hany
  · obtain ⟨b, hb, heq⟩ := List.any_eq_true.mp hany
    exact ⟨b, hb, of_decide_eq_true heq⟩
  · split at hu
    · cases hu
    · cases hu
      exact absurd h.1 (List.cons_ne_nil _ _)

/-- If the checker passes an orderly history, there is an execution behind it: requests performed
at most once, each at one of its replies, with the outcomes and results that the history tells,
that ends in the final state. -/
theorem exists_run_of_passes (input : CheckerInput) (horderly : OrderlyHistory input.history)
    (hpasses : passes input = true) :
    ∃ x, Run input.initial Reproduces input.history x ∧
      ∀ fs, input.finalState = some fs → x.model = fs := by
  obtain ⟨c, n, hscan, hend⟩ := scan_of_passes hpasses
  unfold Checker.endOfHistory at hend
  obtain ⟨state, hstate, hend⟩ := CoreResult.bind_eq_ok_iff.mp hend
  simp only [Except.ok.injEq, List.append_eq_nil_iff] at hend
  obtain ⟨⟨hclean, -⟩, rfl⟩ := hend
  obtain ⟨hne, hexplained⟩ :=
    (Explained.start input.initial).scan (Agrees.start input.initial) hscan hclean horderly
  cases hfs : input.finalState with
  | none =>
    obtain ⟨b, hb⟩ := List.exists_mem_of_ne_nil _ hne
    obtain ⟨x, hrun, -, -⟩ := hexplained b hb
    exact ⟨x, hrun, by simp⟩
  | some fs =>
    rw [hfs] at hstate
    obtain ⟨b, hb, hmodel⟩ := mem_branches_of_checkFinalState hstate
    obtain ⟨x, hrun, hx, -⟩ := hexplained b hb
    refine ⟨x, hrun, fun fs' hfs' => ?_⟩
    cases hfs'
    exact hx.trans hmodel

def anItem : Ident := Octets.zero 16

def invokeSupply (attempt : ℕ) : HistoryEvent :=
  .invoke attempt "a" (List.replicate 48 0) Hash256.zero (.supply anItem 5)

/-- One supply whose reply is lost, found in the final state. -/
def lostSupply : CheckerInput where
  history := [⟨1, invokeSupply 1⟩, ⟨2, .unknownReply 1 "a"⟩]
  initial := .seed [(anItem, 10)]
  finalState := some (.seed [(anItem, 15)])
  budget := 100

set_option maxRecDepth 100000 in
theorem exists_run_of_lostSupply : ∃ x, Run lostSupply.initial Reproduces lostSupply.history x ∧
    ∀ fs, lostSupply.finalState = some fs → x.model = fs :=
  exists_run_of_passes lostSupply
    ⟨trivial, fun _ _ hd => absurd hd (by decide), trivial⟩ (by decide)

/-- The supply is tried again, and the second reply is lost too. -/
def twiceSupplied : CheckerInput where
  history := [⟨1, invokeSupply 1⟩, ⟨2, .unknownReply 1 "a"⟩, ⟨3, invokeSupply 2⟩,
    ⟨4, .unknownReply 2 "a"⟩]
  initial := .seed [(anItem, 10)]
  finalState := some (.seed [(anItem, 20)])
  budget := 100

/-- Where a single request is invoked, its operation is applied once or not at all. -/
lemma Run.single {Allows : Ledger → Execution → HistoryEvent → Execution → Prop} {es : List Event}
    {x : Execution} {r : String} {o : W1Op} (h : Run initial Allows es x)
    (honly : ∀ req op, (Ledger.of es).op req = some op → req = r ∧ op = o) :
    (x.model = initial ∧ x.done[r]? = none) ∨
      (x.model = (initial.apply o).2 ∧ x.done[r]?.isSome = true) := by
  induction h with
  | start => exact .inl ⟨rfl, by simp⟩
  | @step es e x x' _ hmove _ ih =>
    have honly' (req : String) (op : W1Op) (hop : (Ledger.of es).op req = some op) :
        req = r ∧ op = o := by
      apply honly
      rw [Ledger.of_append_singleton]
      exact Ledger.op_step hop _
    have hperform {req : String} {a : Account} (ha : (Ledger.of es).accounts[req]? = some a)
        (hnone : x.done[req]? = none) : (x.perform req a.op).model = (initial.apply o).2 ∧
          (x.perform req a.op).done[r]?.isSome = true := by
      obtain ⟨rfl, hop⟩ := honly' req a.op (by rw [Ledger.op, ha]; rfl)
      obtain ⟨hmodel, -⟩ | ⟨-, hsome⟩ := ih honly'
      · simp [Execution.perform, hop, hmodel]
      · rw [hnone] at hsome
        cases hsome
    generalize e.event = event at hmove
    cases hmove with
    | idle => exact ih honly'
    | atFinal _ ha hnone => exact .inr (hperform ha hnone)
    | atUnknown _ ha hnone => exact .inr (hperform ha hnone)

set_option maxRecDepth 100000 in
theorem twiceSupplied_passes : passes twiceSupplied = true ∧
    ¬ ∃ x, Run twiceSupplied.initial Reproduces twiceSupplied.history x ∧
      ∀ fs, twiceSupplied.finalState = some fs → x.model = fs := by
  refine ⟨by decide, ?_⟩
  rintro ⟨x, hrun, hfinal⟩
  have hmodel : x.model = .seed [(anItem, 20)] := hfinal _ rfl
  have honly (req : String) (op : W1Op)
      (hop : (Ledger.of twiceSupplied.history).op req = some op) :
      req = "a" ∧ op = .supply anItem 5 := by
    obtain ⟨e, he, attempt, key, hash, hinvoke⟩ := Ledger.invoked_of_op hop
    simp only [twiceSupplied, List.mem_cons, List.not_mem_nil, or_false] at he
    obtain rfl | rfl | rfl | rfl := he <;> cases hinvoke <;> exact ⟨rfl, rfl⟩
  obtain ⟨hx, -⟩ | ⟨hx, -⟩ := hrun.single honly
  · rw [hx] at hmodel
    exact absurd hmodel (by decide)
  · rw [hx] at hmodel
    exact absurd hmodel (by decide)

end Scan

end CarolinaDB.Qualify
